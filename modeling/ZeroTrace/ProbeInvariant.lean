import ZeroTrace.ProbeLifecycle

/-! What holds of the tables and of the target's text after every step of every
operation: each probe is in the table once, each slot has one owner, and the text
differs from the original by the patches of the installed probes only. -/
namespace ZeroTrace.ProbeInvariant
open ByteMemory PatchCode FilterSyntax ProbeTable TrampolinePool ProbeLifecycle

def registered (s : Session) : Nat :=
  ((List.finRange 32).filter fun i => (s.probes i).probeId != 0).length

structure Entries (s : Session) : Prop where
  ids : ∀ i j, (s.probes i).live → (s.probes i).probeId = (s.probes j).probeId → i = j
  symbols : ∀ i j, (s.probes i).live → (s.probes j).live →
    (s.probes i).target.symbol = (s.probes j).target.symbol → i = j
  below : 0 < s.nextProbeId ∧ ∀ i, (s.probes i).probeId < s.nextProbeId
  counted : s.probeCount = registered s

def Saved (text : Memory) (prepared : List Region) (p : Probe) : Prop :=
  regionOf p ∈ prepared ∧ p.origCode.take p.origLen = read text p.target.remoteAddr p.origLen

structure Texts (isa : Isa) (original : Memory) (w : World) : Prop where
  saved : ∀ i, (w.probe i).live → (w.probe i).state = .prepared ∨ (w.probe i).state = .installed →
    Saved original w.prepared (w.probe i)
  patched : ∀ i, (w.probe i).installed → probePatchLen isa ≤ (w.probe i).origLen ∧
    Holds w.text (w.probe i).target.remoteAddr (jumpPatch isa (w.probe i).trampolineAddr)
  kept : ∀ a, (∀ i, (w.probe i).installed →
    ¬ Inside (w.probe i).target.remoteAddr (probePatchLen isa) a) →
    w.text a = original a
  spaced : ∀ i j, i ≠ j → (w.probe i).installed → (w.probe j).installed →
    Disjoint (w.probe i).target.remoteAddr (w.probe i).origLen (w.probe j).target.remoteAddr
      (w.probe j).origLen

def Owns (pool : Pool) (p : Probe) : Prop := match slotValid p.trampolineSlot with
  | some s => pool.remoteAddr ≠ 0 ∧ pool.slotUsed s = true ∧
      p.trampolineAddr = poolSlotAddr pool s ∧ p.trampolineAddr ≠ 0
  | none => p.trampolineAddr = 0 ∧ p.state ≠ .installed

structure Slots (w : World) : Prop where
  owned : ∀ i, (w.probe i).live → Owns w.runtime.pool (w.probe i)
  alone : ∀ i j s, (w.probe i).live → (w.probe j).live →
    slotValid (w.probe i).trampolineSlot = some s →
      slotValid (w.probe j).trampolineSlot = some s → i = j

structure Sound (isa : Isa) (original : Memory) (w : World) : Prop where
  entries : Entries w.session
  texts : Texts isa original w
  slots : Slots w

variable {isa : Isa} {disasm : Disassembler} {original : Memory} {w : World}

theorem registeredSet {s : Session} {i p} (same : p.probeId = (s.probes i).probeId) :
    registered (s.set i p) = registered s := by
  refine congrArg List.length (List.filter_congr fun j _ => ?_)
  by_cases here : j = i
  · subst here; simp [same]
  · simp [here]

theorem entriesSet {s : Session} {i p} (h : Entries s) (id : p.probeId = (s.probes i).probeId)
    (symbol : p.target.symbol = (s.probes i).target.symbol) : Entries (s.set i p) := by
  have ids : ∀ j, ((s.set i p).probes j).probeId = (s.probes j).probeId := by
    intro j
    by_cases here : j = i
    · subst here; simpa using id
    · simp [here]
  have symbols : ∀ j, ((s.set i p).probes j).target.symbol = (s.probes j).target.symbol := by
    intro j
    by_cases here : j = i
    · subst here; simpa using symbol
    · simp [here]
  constructor
  · intro j k live same
    simp only [Probe.live,ids] at live same
    exact h.ids j k live same
  · intro j k live live' same
    simp only [Probe.live,ids,symbols] at live live' same
    exact h.symbols j k live live' same
  · exact ⟨h.below.1,fun j => by rw [ids]; exact h.below.2 j⟩
  · rw [registeredSet id]; exact h.counted

theorem findLive {s : Session} {i} (h : Entries s) (live : (s.probes i).live) :
    probeFindById s (s.probes i).probeId = some i := by
  unfold probeFindById
  rw [if_neg live]
  cases found : (List.finRange 32).find? fun j => (s.probes j).probeId == (s.probes i).probeId with
  | none => exact absurd (List.find?_eq_none.mp found i (List.mem_finRange i)) (by simp)
  | some j =>
    have same : (s.probes j).probeId = (s.probes i).probeId := by simpa using List.find?_some found
    exact congrArg some (h.ids i j live same.symm).symm

theorem filterChange {α : Type} {p q : α → Bool} {l : List α} {a} (once : l.Nodup) (member : a ∈ l)
    (before : p a = false) (after : q a = true) (others : ∀ b ∈ l, b ≠ a → q b = p b) :
    (l.filter q).length = (l.filter p).length + 1 := by
  induction l with
  | nil => cases member
  | cons b l ih =>
    have distinct := List.nodup_cons.mp once
    by_cases here : b = a
    · subst here
      have rest : l.filter q = l.filter p :=
        List.filter_congr fun c inside =>
          others c (.tail _ inside) (fun same => distinct.1 (same ▸ inside))
      simp [before,after,rest]
    · have inside : a ∈ l := (List.mem_cons.mp member).resolve_left (fun same => here same.symm)
      have rest := ih distinct.2 inside fun c low => others c (.tail _ low)
      have head := others b (.head _) here
      cases now : p b <;> simp [now,head ▸ now,rest]

theorem registeredFresh {s : Session} {i p} (free : (s.probes i).probeId = 0)
    (live : p.probeId ≠ 0) :
    registered (s.set i p) = registered s + 1 := by
  refine filterChange (List.nodup_finRange 32) (List.mem_finRange i) (by simp [free])
    (by simp [live]) ?_
  intro j _ other
  simp [other]

theorem registeredGone {s : Session} {i} (live : (s.probes i).live) :
    registered (s.set i .zero) + 1 = registered s := by
  symm
  refine filterChange (List.nodup_finRange 32) (List.mem_finRange i) (by simp [Probe.zero])
    (by simpa [Probe.live] using live) ?_
  intro j _ other
  simp [other]

theorem freshId {s : Session} (h : Entries s) :
    takeProbeId s.nextProbeId = (s.nextProbeId,s.nextProbeId + 1) :=
  if_neg (Nat.pos_iff_ne_zero.mp h.below.1)

theorem entriesFresh {s : Session} {i} {target : SymbolTarget} (h : Entries s)
    (free : (s.probes i).probeId = 0)
    (new : ∀ j, (s.probes j).live → (s.probes j).target.symbol ≠ target.symbol) :
    Entries { s.set i (freshProbe s.nextProbeId target) with
      nextProbeId := s.nextProbeId + 1, probeCount := s.probeCount + 1 } := by
  have at_ : ∀ j, j ≠ i → (s.set i (freshProbe s.nextProbeId target)).probes j = s.probes j :=
    fun j other => by
    simp [other]
  have low : ∀ j, (s.probes j).probeId ≠ s.nextProbeId := fun j => Nat.ne_of_lt (h.below.2 j)
  constructor
  · intro j k live same
    by_cases jj : j = i <;> by_cases kk : k = i
    · exact jj.trans kk.symm
    · subst jj
      simp only [setSame,at_ k kk] at same
      exact absurd same.symm (low k)
    · subst kk
      simp only [setSame,at_ j jj] at same
      exact absurd same (low j)
    · simp only [at_ j jj,at_ k kk] at live same
      exact h.ids j k live same
  · intro j k live live' same
    by_cases jj : j = i <;> by_cases kk : k = i
    · exact jj.trans kk.symm
    · subst jj
      simp only [setSame,at_ k kk] at same live'
      exact absurd same.symm (new k live')
    · subst kk
      simp only [setSame,at_ j jj] at same live
      exact absurd same (new j live)
    · simp only [at_ j jj,at_ k kk] at live live' same
      exact h.symbols j k live live' same
  · refine ⟨Nat.succ_pos _,fun j => ?_⟩
    by_cases jj : j = i
    · subst jj; simp [freshProbe]
    · simp only [at_ j jj]; exact Nat.lt_succ_of_lt (h.below.2 j)
  · have live : (freshProbe s.nextProbeId target).probeId ≠ 0 := Nat.pos_iff_ne_zero.mp h.below.1
    exact (congrArg (· + 1) h.counted).trans (registeredFresh free live).symm

theorem entriesGone {s : Session} {i} (h : Entries s) (live : (s.probes i).live) :
    Entries { s.set i .zero with probeCount := s.probeCount - 1 } := by
  have at_ : ∀ j, j ≠ i → (s.set i .zero).probes j = s.probes j := fun j other => by simp [other]
  have gone : ∀ j, ((s.set i .zero).probes j).live → j ≠ i := by
    intro j now same
    subst same
    simp [Probe.live,Probe.zero] at now
  constructor
  · intro j k now same
    have jj := gone j now
    have kk := gone k (fun zero => now (same.trans zero))
    simp only [at_ j jj,at_ k kk] at now same
    exact h.ids j k now same
  · intro j k now now' same
    have jj := gone j now
    have kk := gone k now'
    simp only [at_ j jj,at_ k kk] at now now' same
    exact h.symbols j k now now' same
  · refine ⟨h.below.1,fun j => ?_⟩
    by_cases jj : j = i
    · subst jj; simp only [setSame]; exact h.below.1
    · simp only [at_ j jj]; exact h.below.2 j
  · have count := registeredGone live
    have before := h.counted
    simp only [registered] at count before ⊢
    omega

theorem textsQuiet {w' : World} (h : Texts isa original w) (text : w'.text = w.text)
    (prepared : ∀ r ∈ w.prepared, r ∈ w'.prepared)
    (installed : ∀ i, (w'.probe i).installed ↔ (w.probe i).installed)
    (same : ∀ i, (w.probe i).installed → regionOf (w'.probe i) = regionOf (w.probe i) ∧
      (w'.probe i).origCode = (w.probe i).origCode ∧
        (w'.probe i).trampolineAddr = (w.probe i).trampolineAddr)
    (saved : ∀ i, (w'.probe i).live → (w'.probe i).state = .prepared →
      Saved original w'.prepared (w'.probe i)) :
    Texts isa original w' := by
  have region : ∀ i, (w.probe i).installed →
      (w'.probe i).target.remoteAddr = (w.probe i).target.remoteAddr ∧
      (w'.probe i).origLen = (w.probe i).origLen := by
    intro i now
    have equal := (same i now).1
    simp only [regionOf,Region.mk.injEq] at equal
    exact equal.2
  constructor
  · intro i live state
    rcases state with prep | inst
    · exact saved i live prep
    · have now := (installed i).mp ⟨live,inst⟩
      obtain ⟨equal,code,_⟩ := same i now
      obtain ⟨addr,len⟩ := region i now
      obtain ⟨member,bytes⟩ := h.saved i now.1 (.inr now.2)
      refine ⟨by rw [equal]; exact prepared _ member,?_⟩
      rw [code,len,addr]
      exact bytes
  · intro i now'
    have now := (installed i).mp now'
    obtain ⟨_,_,target⟩ := same i now
    obtain ⟨addr,len⟩ := region i now
    rw [text,addr,len,target]
    exact h.patched i now
  · intro a out
    rw [text]
    refine h.kept a fun i now => ?_
    rw [← (region i now).1]
    exact out i ((installed i).mpr now)
  · intro i j other now' there'
    have now := (installed i).mp now'
    have there := (installed j).mp there'
    rw [(region i now).1,(region i now).2,(region j there).1,(region j there).2]
    exact h.spaced i j other now there

theorem textsSet {i : Fin 32} {p : Probe} {w' : World} (h : Texts isa original w)
    (probes : w'.session.probes = Function.update w.session.probes i p) (text : w'.text = w.text)
    (prepared : ∀ r ∈ w.prepared, r ∈ w'.prepared)
    (before : ¬ (w.probe i).installed) (after : ¬ p.installed)
    (saved : p.live → p.state = .prepared → Saved original w'.prepared p) :
    Texts isa original w' := by
  have at_ : ∀ j, j ≠ i → w'.probe j = w.probe j := fun j other => by
    rw [World.probe,probes]; simp [other]
  have here : w'.probe i = p := by rw [World.probe,probes]; simp
  refine textsQuiet h text prepared (fun j => ?_) (fun j now => ?_) ?_
  · by_cases same : j = i
    · subst same; rw [here]; exact ⟨fun now => absurd now after,fun now => absurd now before⟩
    · rw [at_ j same]
  · have other : j ≠ i := fun same => before (same ▸ now)
    rw [at_ j other]
    exact ⟨rfl,rfl,rfl⟩
  · intro j live prep
    by_cases same : j = i
    · subst same
      rw [here] at live prep ⊢
      exact saved live prep
    · rw [at_ j same] at live prep ⊢
      obtain ⟨member,bytes⟩ := h.saved j live (.inl prep)
      exact ⟨prepared _ member,bytes⟩

/- The region meets no installed probe but the one with the index i. -/
def RoomFor (w : World) (i : Fin 32) (q : Region) : Prop :=
  ∀ j, j ≠ i → (w.probe j).installed →
    Disjoint q.addr q.len (w.probe j).target.remoteAddr (w.probe j).origLen

theorem patchOutside (h : Texts isa original w) {i j} {q : Region} (room : RoomFor w i q)
    (other : j ≠ i)
    (now : (w.probe j).installed) {a} (inside : Inside q.addr q.len a) :
    ¬ Inside (w.probe j).target.remoteAddr (probePatchLen isa) a := by
  intro there
  have long := (h.patched j now).1
  refine room j other now a inside ⟨there.1,?_⟩
  have := there.2
  omega

theorem regionOriginal (h : Texts isa original w) {i} {q : Region} (room : RoomFor w i q)
    (idle : ¬ (w.probe i).installed)
    {a} (inside : Inside q.addr q.len a) : w.text a = original a := by
  refine h.kept a fun j now => ?_
  have other : j ≠ i := fun same => idle (same ▸ now)
  exact patchOutside h room other now inside

theorem ownsSame {pool : Pool} {p q : Probe} (slot : q.trampolineSlot = p.trampolineSlot)
    (addr : q.trampolineAddr = p.trampolineAddr)
    (state : q.state = .installed → slotValid p.trampolineSlot ≠ none)
    (h : Owns pool p) : Owns pool q := by
  unfold Owns at h ⊢
  rw [slot,addr]
  cases valid : slotValid p.trampolineSlot with
  | some s => simpa [valid] using h
  | none =>
    simp only [valid] at h ⊢
    exact ⟨h.1,fun now => state now valid⟩

theorem slotsSet {i : Fin 32} {p : Probe} {w' : World} (h : Slots w)
    (probes : w'.session.probes = Function.update w.session.probes i p)
    (pool : w'.runtime.pool = w.runtime.pool)
    (id : p.live → (w.probe i).live) (slot : p.trampolineSlot = (w.probe i).trampolineSlot)
    (addr : p.trampolineAddr = (w.probe i).trampolineAddr)
    (state : p.state = .installed → slotValid (w.probe i).trampolineSlot ≠ none) : Slots w' := by
  have at_ : ∀ j, j ≠ i → w'.probe j = w.probe j := fun j other => by
    rw [World.probe,probes]; simp [other]
  have here : w'.probe i = p := by rw [World.probe,probes]; simp
  have live : ∀ j, (w'.probe j).live → (w.probe j).live := by
    intro j now
    by_cases same : j = i
    · subst same; exact id (here ▸ now)
    · exact at_ j same ▸ now
  have slots : ∀ j, (w'.probe j).trampolineSlot = (w.probe j).trampolineSlot := by
    intro j
    by_cases same : j = i
    · subst same; rw [here]; exact slot
    · rw [at_ j same]
  constructor
  · intro j now
    rw [pool]
    by_cases same : j = i
    · subst same; rw [here]; exact ownsSame slot addr state (h.owned j (live j now))
    · rw [at_ j same]; exact h.owned j (live j now)
  · intro j k s now now' hj hk
    rw [slots] at hj hk
    exact h.alone j k s (live j now) (live k now') hj hk

end ZeroTrace.ProbeInvariant
