import ZeroTrace.ProbeInvariant

/-! Each step of an operation keeps the invariant, and what the step leaves behind. -/
namespace ZeroTrace.ProbeSteps
open ByteMemory PatchCode FilterSyntax ProbeTable TrampolinePool ProbeLifecycle ProbeInvariant

variable {isa : Isa} {disasm : Disassembler} {original : Memory} {w : World} {o : Outcome}
    {i : Fin 32}

/- Neither prepared nor installed: the prologue has to be read again. -/
def Probe.idle (p : Probe) : Prop := p.state ≠ .prepared ∧ p.state ≠ .installed

def savedWorld (w : World) (i : Fin 32) (len : Nat) : World :=
  { w.setProbe i (savedProbe (w.probe i) w.text len) with
    prepared := w.prepared ++ [regionOf (savedProbe (w.probe i) w.text len)] }

def slottedWorld (w : World) (i : Fin 32) (mmap : Option UInt64) : World :=
  (w.setPool (poolAlloc w.runtime.pool (w.probe i) mmap).1).setProbe i
    (poolAlloc w.runtime.pool (w.probe i) mmap).2.1

def patchedWorld (isa : Isa) (w : World) (i : Fin 32) (target : UInt64) : World :=
  { w.setProbe i { w.probe i with trampolineAddr := target, state := .installed } with
    text := write w.text (w.probe i).target.remoteAddr (jumpPatch isa target) }

def unpatchedWorld (w : World) (i : Fin 32) : World :=
  { w.setProbe i { w.probe i with state := .disabled } with
    text := write w.text (w.probe i).target.remoteAddr
      ((w.probe i).origCode.take (w.probe i).origLen) }

theorem unpatchedHere (w : World) (i : Fin 32) :
    (unpatchedWorld w i).probe i = { w.probe i with state := .disabled } := setProbeHere w i _

theorem unpatchedId (w : World) (i : Fin 32) :
    ((unpatchedWorld w i).probe i).probeId = (w.probe i).probeId := by rw [unpatchedHere]

def forgottenWorld (w : World) (i : Fin 32) : World :=
  { w with session := { w.session.set i .zero with probeCount := w.session.probeCount - 1 } }

theorem idleNot {p : Probe} (idle : Probe.idle p) : ¬ p.installed := fun now => idle.2 now.2

theorem enableCases (h : Entries w.session) (live : (w.probe i).live)
    (idle : Probe.idle (w.probe i)) :
    enableProbe isa disasm w (w.probe i).probeId o = (w,false) ∨
    ∃ len, entrySpan isa disasm o.disasmOpen w.text (w.probe i).target.remoteAddr = some len ∧
      len ≤ probeOrigCodeMax ∧
      enableProbe isa disasm w (w.probe i).probeId o = (savedWorld w i len,true) := by
  have fresh : ¬ ((w.probe i).state = .prepared ∨ (w.probe i).state = .installed) :=
    fun now => now.elim idle.1 idle.2
  unfold enableProbe
  rw [findLive h live]
  dsimp only
  rw [if_neg fresh]
  split
  · exact .inl rfl
  · split
    · exact .inl rfl
    · next len span =>
      split
      · exact .inl rfl
      · next fits => exact .inr ⟨len,span,Nat.le_of_not_lt fits,rfl⟩

theorem savedBytes (p : Probe) (text : Memory) {len} (fits : len ≤ probeOrigCodeMax) :
    (savedProbe p text len).origCode.take len = read text p.target.remoteAddr len := by
  have length : ((read text p.target.remoteAddr probeOrigCodeMax).take len).length = len := by
    simp [Nat.min_eq_left fits]
  simp only [savedProbe]
  rw [List.take_append_of_le_length (Nat.le_of_eq length.symm),List.take_take,Nat.min_self,
    readTake _ _ fits]

theorem enableSound {len} (h : Sound isa original w) (live : (w.probe i).live)
    (idle : Probe.idle (w.probe i))
    (fits : len ≤ probeOrigCodeMax)
    (room : RoomFor w i (regionOf (savedProbe (w.probe i) w.text len))) :
    Sound isa original (savedWorld w i len) where
  entries := entriesSet h.entries rfl rfl
  texts := by
    refine textsSet h.texts rfl rfl (fun r => List.mem_append_left _) (idleNot idle)
      (by simp [Probe.installed,savedProbe]) fun _ _ => ⟨by simp [savedWorld],?_⟩
    refine (savedBytes (w.probe i) w.text fits).trans (readSame fun a inside => ?_)
    exact regionOriginal h.texts room (idleNot idle) inside
  slots := slotsSet h.slots rfl rfl (fun _ => live) rfl rfl (by simp [savedProbe])

theorem slotValidNat (s : Fin 32) : slotValid (s.val : Int) = some s := by
  have bound : (0 : Int) ≤ s.val ∧ (s.val : Int) < 32 := by omega
  simp [slotValid,bound]

theorem slotValidGone : slotValid (-1) = none := rfl

theorem slotValidSome {slot : Int} {s} (valid : slotValid slot = some s) : slot = s.val := by
  unfold slotValid at valid
  split at valid
  · next bound =>
    have same := congrArg Fin.val (Option.some.inj valid)
    simp only at same
    omega
  · cases valid

/- A probe with a slot gets it again; one without gets a slot nobody uses. -/
inductive Allocated (pool : Pool) (p : Probe) : Pool × Probe × Option UInt64 → Prop where
  | none {pool'} (same : pool' = pool ∨ pool.remoteAddr = 0 ∧ pool'.slotUsed = fun _ => false) :
      Allocated pool p (pool',p,none)
  | again {s} (valid : slotValid p.trampolineSlot = some s)
      (addr : p.trampolineAddr = poolSlotAddr pool s)
      (live : p.trampolineAddr ≠ 0) : Allocated pool p (pool,p,some p.trampolineAddr)
  | fresh {pool' s} (none_ : slotValid p.trampolineSlot = none)
      (mapped : pool'.remoteAddr ≠ 0) (live : poolSlotAddr pool' s ≠ 0)
      (base : pool' = pool ∨ pool.remoteAddr = 0) (free : pool'.slotUsed s = false) :
      Allocated pool p ({ pool' with slotUsed := Function.update pool'.slotUsed s true },
        { p with trampolineSlot := s.val, trampolineAddr := poolSlotAddr pool' s },
          some (poolSlotAddr pool' s))

theorem allocated {pool : Pool} {p : Probe} {mmap} (owns : Owns pool p) :
    Allocated pool p (poolAlloc pool p mmap) := by
  unfold Owns at owns
  unfold poolAlloc
  cases valid : slotValid p.trampolineSlot with
  | some s =>
    simp only [valid] at owns
    obtain ⟨mapped,used,addr,live⟩ := owns
    have belongs : slotBelongsToProbe pool p s = true := by simp [slotBelongsToProbe,← addr,live]
    have alive : poolSlotAddr pool s ≠ 0 := addr ▸ live
    have usedAgain : Function.update pool.slotUsed s true = pool.slotUsed := by rw [← used]; simp
    have same : poolAssignSlot pool p s = (pool,p,some p.trampolineAddr) := by
      simp only [poolAssignSlot,← addr,if_neg live,usedAgain,← slotValidSome valid]
    have open_ : (pool.remoteAddr != 0) = true := by simpa using mapped
    simp only [open_,belongs,Bool.not_true,Bool.and_false,Bool.false_eq_true,if_false,same]
    exact .again valid addr live
  | none =>
    dsimp only
    cases ensured : poolEnsure pool mmap with
    | none => exact .none (.inl rfl)
    | some pool' =>
      have base : pool' = pool ∨ pool.remoteAddr = 0 ∧ pool'.slotUsed = fun _ => false := by
        unfold poolEnsure at ensured
        split at ensured
        · exact .inl (Option.some.inj ensured).symm
        · next closed =>
          obtain ⟨a,_,rfl⟩ := Option.map_eq_some_iff.mp ensured
          exact .inr ⟨not_not.mp closed,rfl⟩
      dsimp only
      split
      · exact .none base
      · next s found =>
        have free : pool'.slotUsed s = false := by simpa using List.find?_some found
        unfold poolAssignSlot
        dsimp only
        split
        · exact .none base
        · next alive =>
          have mapped : pool'.remoteAddr ≠ 0 := fun zero => alive (by simp [poolSlotAddr,zero])
          exact .fresh valid mapped alive (base.imp_right And.left) free

theorem allocProbe {pool : Pool} {p : Probe} {r} (got : Allocated pool p r) :
    r.2.1 = { p with
        trampolineSlot := r.2.1.trampolineSlot, trampolineAddr := r.2.1.trampolineAddr } ∧
    (∀ addr, r.2.2 = some addr → addr = r.2.1.trampolineAddr ∧ addr ≠ 0) ∧
    (r.2.1 = p ∨ slotValid p.trampolineSlot = none) := by
  cases got with
  | none =>
    refine ⟨rfl,fun addr bad => ?_,.inl rfl⟩
    cases bad
  | again valid addr live =>
    refine ⟨rfl,fun a same => ?_,.inl rfl⟩
    cases same
    exact ⟨rfl,live⟩
  | fresh none_ mapped live =>
    refine ⟨rfl,fun a same => ?_,.inr none_⟩
    cases same
    exact ⟨rfl,live⟩

theorem ownsSlotless {pool pool' : Pool} {p : Probe} (closed : pool.remoteAddr = 0)
    (h : Owns pool p) : Owns pool' p := by
  unfold Owns at h ⊢
  split at h
  · exact absurd closed h.1
  · next none_ => exact h

theorem setProbeSame (w : World) (i : Fin 32) : w.setProbe i (w.probe i) = w := by
  simp [World.setProbe,Session.set,World.probe]

theorem poolSound (pool : Pool) (h : Sound isa original w)
    (closed : w.runtime.pool.remoteAddr = 0) :
    Sound isa original (w.setPool pool) :=
  ⟨h.entries,⟨h.texts.saved,h.texts.patched,h.texts.kept,h.texts.spaced⟩,
    fun j live => ownsSlotless closed (h.slots.owned j live),h.slots.alone⟩

theorem poolSame (w : World) : w.setPool w.runtime.pool = w := rfl

theorem allocSlots {pool : Pool} {s : Fin 32} {p : Probe} (h : Slots w) (live : (w.probe i).live)
    (mapped : pool.remoteAddr ≠ 0) (alive : poolSlotAddr pool s ≠ 0)
    (base : pool = w.runtime.pool ∨ w.runtime.pool.remoteAddr = 0) (free : pool.slotUsed s = false)
    (slot : p.trampolineSlot = s.val) (addr : p.trampolineAddr = poolSlotAddr pool s) :
    Slots ((w.setPool { pool with slotUsed := Function.update pool.slotUsed s true }).setProbe i
      p) := by
  have theirs : ∀ j t, (w.probe j).live → slotValid (w.probe j).trampolineSlot = some t →
      pool = w.runtime.pool ∧ t ≠ s := by
    intro j t now valid
    have owns := h.owned j now
    unfold Owns at owns
    simp only [valid] at owns
    have same := base.resolve_right owns.1
    refine ⟨same,fun eq => ?_⟩
    rw [eq,← same,free] at owns
    exact absurd owns.2.1 (by simp)
  have mine : slotValid p.trampolineSlot = some s := by rw [slot]; exact slotValidNat s
  have at_ : ∀ j, j ≠ i →
      ((w.setPool { pool with slotUsed := Function.update pool.slotUsed s true }).setProbe i
      p).probe j =
      w.probe j := fun j other => by simp [World.setProbe,World.setPool,World.probe,other]
  have here := setProbeHere
      (w.setPool { pool with slotUsed := Function.update pool.slotUsed s true }) i p
  constructor
  · intro j now
    by_cases same : j = i
    · subst same
      rw [here]
      unfold Owns
      simp only [mine]
      exact ⟨mapped,by simp [World.setProbe,World.setPool],addr,by rw [addr]; exact alive⟩
    · rw [at_ j same] at now ⊢
      have owns := h.owned j now
      unfold Owns at owns ⊢
      cases valid : slotValid (w.probe j).trampolineSlot with
      | none => simpa [valid] using owns
      | some t =>
        obtain ⟨eq,other⟩ := theirs j t now valid
        simp only [valid] at owns ⊢
        subst eq
        exact ⟨mapped,by simpa [World.setProbe,World.setPool,other] using owns.2.1,owns.2.2⟩
  · intro j k t now now' hj hk
    by_cases jj : j = i <;> by_cases kk : k = i
    · exact jj.trans kk.symm
    · subst jj
      rw [here,mine] at hj
      rw [at_ k kk] at hk now'
      exact absurd (Option.some.inj hj).symm (theirs k t now' hk).2
    · subst kk
      rw [here,mine] at hk
      rw [at_ j jj] at hj now
      exact absurd (Option.some.inj hk).symm (theirs j t now hj).2
    · rw [at_ j jj] at hj now
      rw [at_ k kk] at hk now'
      exact h.alone j k t now now' hj hk

theorem allocSoundOf {r : Pool × Probe × Option UInt64} (h : Sound isa original w)
    (live : (w.probe i).live)
    (idle : ¬ (w.probe i).installed) (got : Allocated w.runtime.pool (w.probe i) r) :
    Sound isa original ((w.setPool r.1).setProbe i r.2.1) := by
  cases got with
  | @none pool same =>
    rcases same with rfl | ⟨closed,_⟩
    · rw [poolSame,setProbeSame]; exact h
    · have moved := poolSound pool h closed
      rwa [← setProbeSame (w.setPool pool) i] at moved
  | again => rw [poolSame,setProbeSame]; exact h
  | @fresh pool s none_ mapped alive base free =>
    refine ⟨entriesSet h.entries rfl rfl,?_,allocSlots h.slots live mapped alive base free rfl rfl⟩
    refine textsSet h.texts rfl rfl (fun r member => member) idle (fun now => idle now)
      fun now prep => ?_
    exact h.texts.saved i now (.inl prep)

theorem allocSound {mmap} (h : Sound isa original w) (live : (w.probe i).live)
    (idle : ¬ (w.probe i).installed) :
    Sound isa original (slottedWorld w i mmap) :=
  allocSoundOf h live idle (allocated (h.slots.owned i live))

theorem installCases {target} (h : Entries w.session) (live : (w.probe i).live) :
    installProbePatch isa w (w.probe i).probeId target o = (w,false) ∨
    (w.probe i).state = .prepared ∧ probePatchLen isa ≤ (w.probe i).origLen ∧
      installProbePatch isa w (w.probe i).probeId target o =
        (patchedWorld isa w i target,true) := by
  unfold installProbePatch
  rw [findLive h live]
  split
  · exact .inl rfl
  · dsimp only
    split
    · exact .inl rfl
    · next ready =>
      simp only [not_or,not_not,Nat.not_lt] at ready
      split
      · exact .inl rfl
      · unfold archInstallJump
        split
        · exact .inl rfl
        · next text ok =>
          split at ok
          · cases ok
          · split at ok
            · cases ok; exact .inr ⟨ready.1,ready.2,rfl⟩
            · cases ok

theorem othersPatched {bytes : List UInt8} (h : Sound isa original w)
    (room : RoomFor w i (regionOf (w.probe i)))
    (short : bytes.length ≤ (w.probe i).origLen) {j} (other : j ≠ i)
    (now : (w.probe j).installed) :
    Holds (write w.text (w.probe i).target.remoteAddr bytes) (w.probe j).target.remoteAddr
      (jumpPatch isa (w.probe j).trampolineAddr) := by
  refine holdsSame (fun a inside => ?_) (h.texts.patched j now).2
  rw [jumpLength] at inside
  refine (writeOutside _ fun here => ?_).symm
  refine patchOutside h.texts room other now ⟨here.1,?_⟩ inside
  have := here.2
  simp only [regionOf]
  omega

/- One entry and the text around it change; the region of the entry stays listed. -/
structure Rewritten (w w' : World) (i : Fin 32) (p : Probe) (bytes : List UInt8) : Prop where
  probes : w'.session.probes = Function.update w.session.probes i p
  text : w'.text = write w.text (w.probe i).target.remoteAddr bytes
  prepared : w'.prepared = w.prepared
  region : regionOf p = regionOf (w.probe i)

theorem rewrittenOther {w' p bytes} (h : Rewritten w w' i p bytes) {j} (other : j ≠ i) :
    w'.probe j = w.probe j := by
  rw [World.probe,h.probes]
  simp [other]

theorem rewrittenHere {w' p bytes} (h : Rewritten w w' i p bytes) : w'.probe i = p := by
  rw [World.probe,h.probes]
  simp

theorem textsInstall {w' p} (h : Sound isa original w) (room : RoomFor w i (regionOf (w.probe i)))
    (live : (w.probe i).live)
    (state : (w.probe i).state = .prepared) (long : probePatchLen isa ≤ (w.probe i).origLen)
    (code : p.origCode = (w.probe i).origCode) (installed : p.installed)
    (now : Rewritten w w' i p (jumpPatch isa p.trampolineAddr)) : Texts isa original w' := by
  have listed := h.texts.saved i live (.inl state)
  have here := rewrittenHere now
  have region := now.region
  simp only [regionOf,Region.mk.injEq] at region
  obtain ⟨_,addr,len⟩ := region
  refine ⟨fun j alive which => ?_,fun j inst => ?_,fun a out => ?_,fun j k other inst inst' => ?_⟩
  · by_cases same : j = i
    · subst same
      rw [here,Saved,now.prepared,now.region,code,len,addr]
      exact listed
    · rw [rewrittenOther now same] at alive which ⊢
      rw [now.prepared]
      exact h.texts.saved j alive which
  · by_cases same : j = i
    · subst same
      rw [here,now.text,len,addr]
      exact ⟨long,writeHolds _ _ _⟩
    · rw [rewrittenOther now same] at inst ⊢
      rw [now.text]
      exact ⟨(h.texts.patched j inst).1,othersPatched h room (by simpa using long) same inst⟩
  · have outside := out i (by rw [here]; exact installed)
    rw [here,addr] at outside
    rw [now.text,writeOutside _ (by simpa using outside)]
    refine h.texts.kept a fun j inst => ?_
    have other : j ≠ i := fun same => by
      subst same; rw [Probe.installed,state] at inst; cases inst.2
    have there := out j (by rw [rewrittenOther now other]; exact inst)
    rwa [rewrittenOther now other] at there
  · by_cases jj : j = i
    · subst jj
      rw [rewrittenOther now other.symm] at inst' ⊢
      rw [here,addr,len]
      exact room k other.symm inst'
    · by_cases kk : k = i
      · subst kk
        rw [rewrittenOther now jj] at inst ⊢
        rw [here,addr,len]
        exact disjointSymm (room j jj inst)
      · rw [rewrittenOther now jj] at inst ⊢
        rw [rewrittenOther now kk] at inst' ⊢
        exact h.texts.spaced j k other inst inst'

theorem textsUninstall {w' p} (h : Sound isa original w) (inst : (w.probe i).installed)
    (state : p.state = .disabled)
    (now : Rewritten w w' i p ((w.probe i).origCode.take (w.probe i).origLen)) :
    Texts isa original w' := by
  obtain ⟨listed,bytes⟩ := h.texts.saved i inst.1 (.inr inst.2)
  have room : RoomFor w i (regionOf (w.probe i)) :=
    fun j other there => h.texts.spaced i j other.symm inst there
  have long := (h.texts.patched i inst).1
  have here := rewrittenHere now
  have text := now.text
  rw [bytes] at text
  have gone : ∀ j, (w'.probe j).installed → j ≠ i := by
    intro j after same
    subst same
    rw [here,Probe.installed,state] at after
    cases after.2
  refine ⟨fun j alive which => ?_,fun j after => ?_,fun a out => ?_,
    fun j k other after after' => ?_⟩
  · by_cases same : j = i
    · subst same
      rw [here,state] at which
      rcases which with bad | bad <;> cases bad
    · rw [rewrittenOther now same] at alive which ⊢
      rw [now.prepared]
      exact h.texts.saved j alive which
  · have other := gone j after
    rw [rewrittenOther now other] at after ⊢
    rw [text]
    exact ⟨(h.texts.patched j after).1,othersPatched h room (by simp) other after⟩
  · rw [text]
    by_cases inside : Inside (w.probe i).target.remoteAddr (w.probe i).origLen a
    · exact writeRead _ _ _ _ _ inside
    · rw [writeOutside _ (by simpa using inside)]
      refine h.texts.kept a fun j before => ?_
      by_cases same : j = i
      · subst same
        exact fun there => inside ⟨there.1,by have := there.2; omega⟩
      · have there := out j (by rw [rewrittenOther now same]; exact before)
        rwa [rewrittenOther now same] at there
  · have jj := gone j after
    have kk := gone k after'
    rw [rewrittenOther now jj] at after ⊢
    rw [rewrittenOther now kk] at after' ⊢
    exact h.texts.spaced j k other after after'

theorem installSound {target} (h : Sound isa original w) (room : RoomFor w i (regionOf (w.probe i)))
    (live : (w.probe i).live)
    (state : (w.probe i).state = .prepared) (long : probePatchLen isa ≤ (w.probe i).origLen)
    (mine : target = (w.probe i).trampolineAddr) (alive : target ≠ 0) :
    Sound isa original (patchedWorld isa w i target) := by
  refine ⟨entriesSet h.entries rfl rfl,?_,slotsSet h.slots rfl rfl id rfl mine fun _ none_ => ?_⟩
  · refine @textsInstall isa original w i _
      { w.probe i with trampolineAddr := target, state := .installed }
      h room live state long rfl ⟨live,rfl⟩ ⟨rfl,rfl,rfl,rfl⟩
  · have owns := h.slots.owned i live
    unfold Owns at owns
    simp only [none_] at owns
    exact alive (mine.trans owns.1)

theorem patchLenPos (isa : Isa) : 0 < probePatchLen isa := by cases isa <;> decide

theorem uninstallRuns {id} (found : probeFindById w.session id = some i) (o : Outcome) :
    ((w.probe i).origLen ≠ 0 ∧ o.safe = true ∧ o.restore = true) ∧
      uninstallProbePatch w id o = (unpatchedWorld w i,true) ∨
    ¬ ((w.probe i).origLen ≠ 0 ∧ o.safe = true ∧ o.restore = true) ∧
      uninstallProbePatch w id o = (w,false) := by
  unfold uninstallProbePatch
  rw [found]
  dsimp only
  split
  · next zero => exact .inr ⟨fun ok => ok.1 zero,rfl⟩
  · next some_ =>
    cases safe : o.safe with
    | false => exact .inr ⟨by simp,rfl⟩
    | true =>
      cases back : o.restore with
      | false => exact .inr ⟨by simp,rfl⟩
      | true => exact .inl ⟨⟨some_,rfl,rfl⟩,rfl⟩

theorem uninstallCases (h : Sound isa original w) (now : (w.probe i).installed) :
    (¬ (o.safe = true ∧ o.restore = true) ∧ uninstallProbePatch w (w.probe i).probeId o =
      (w,false)) ∨
    uninstallProbePatch w (w.probe i).probeId o = (unpatchedWorld w i,true) := by
  have long := (h.texts.patched i now).1
  have pos := patchLenPos isa
  have some_ : (w.probe i).origLen ≠ 0 := by omega
  rcases uninstallRuns (findLive h.entries now.1) o with ⟨_,done⟩ | ⟨bad,failed⟩
  · exact .inr done
  · exact .inl ⟨fun ok => bad ⟨some_,ok⟩,failed⟩

theorem uninstallSound (h : Sound isa original w) (now : (w.probe i).installed) :
    Sound isa original (unpatchedWorld w i) :=
  ⟨entriesSet h.entries rfl rfl,textsUninstall h now rfl ⟨rfl,rfl,rfl,rfl⟩,
    slotsSet h.slots rfl rfl id rfl rfl (by simp)⟩

/-! Giving a slot back and forgetting an entry. -/

theorem slotsClear {p : Probe} {w' : World} (h : Slots w)
    (probes : w'.session.probes = Function.update w.session.probes i p)
    (pool : w'.runtime.pool = w.runtime.pool)
    (clear : p.live → slotValid p.trampolineSlot = none ∧ p.trampolineAddr = 0 ∧
      p.state ≠ .installed) : Slots w' := by
  have at_ : ∀ j, j ≠ i → w'.probe j = w.probe j := fun j other => by
    rw [World.probe,probes]; simp [other]
  have here : w'.probe i = p := by rw [World.probe,probes]; simp
  have other : ∀ j s, (w'.probe j).live → slotValid (w'.probe j).trampolineSlot = some s →
      j ≠ i := by
    intro j s now valid same
    subst same
    rw [here] at now valid
    rw [(clear now).1] at valid
    cases valid
  constructor
  · intro j now
    rw [pool]
    by_cases same : j = i
    · subst same
      rw [here] at now ⊢
      unfold Owns
      rw [(clear now).1]
      exact (clear now).2
    · rw [at_ j same] at now ⊢
      exact h.owned j now
  · intro j k s now now' hj hk
    have jj := other j s now hj
    have kk := other k s now' hk
    rw [at_ j jj] at now hj
    rw [at_ k kk] at now' hk
    exact h.alone j k s now now' hj hk

theorem releaseCases (h : Slots w) (live : (w.probe i).live) :
    slotValid (w.probe i).trampolineSlot = none ∧ releaseSlot w i o = w ∨
    ∃ s pool, slotValid (w.probe i).trampolineSlot = some s ∧
      releaseSlot w i o = (w.setPool pool).setProbe i (clearProbeSlot (w.probe i)) ∧
      ∀ t, t ≠ s → w.runtime.pool.slotUsed t = true →
        pool.remoteAddr = w.runtime.pool.remoteAddr ∧ pool.slotUsed t = true := by
  have owns := h.owned i live
  unfold Owns at owns
  unfold releaseSlot poolRelease
  cases valid : slotValid (w.probe i).trampolineSlot with
  | none => exact .inl ⟨rfl,setProbeSame w i⟩
  | some s =>
    simp only [valid] at owns
    obtain ⟨mapped,used,addr,alive⟩ := owns
    have belongs : slotBelongsToProbe w.runtime.pool (w.probe i) s = true := by
      simp [slotBelongsToProbe,← addr,alive]
    simp only [belongs,Bool.not_true,Bool.and_false,Bool.false_eq_true,if_false]
    refine .inr ⟨s,_,rfl,rfl,fun t other busy => ?_⟩
    have shared : poolAllFree
        { w.runtime.pool with slotUsed := Function.update w.runtime.pool.slotUsed s false } =
        false := by
      simp only [poolAllFree,List.all_eq_false]
      exact ⟨t,List.mem_finRange t,by simp [other,busy]⟩
    simp [shared,other,busy]

theorem releaseSlots {s : Fin 32} {pool : Pool} (h : Slots w) (live : (w.probe i).live)
    (idle : (w.probe i).state ≠ .installed) (valid : slotValid (w.probe i).trampolineSlot = some s)
    (others : ∀ t, t ≠ s → w.runtime.pool.slotUsed t = true →
      pool.remoteAddr = w.runtime.pool.remoteAddr ∧ pool.slotUsed t = true) :
    Slots ((w.setPool pool).setProbe i (clearProbeSlot (w.probe i))) := by
  have at_ : ∀ j, j ≠ i → ((w.setPool pool).setProbe i (clearProbeSlot (w.probe i))).probe j =
      w.probe j :=
    fun j other => by simp [World.setProbe,World.setPool,World.probe,other]
  have here := setProbeHere (w.setPool pool) i (clearProbeSlot (w.probe i))
  have clear : slotValid (clearProbeSlot (w.probe i)).trampolineSlot = none := slotValidGone
  constructor
  · intro j now
    by_cases same : j = i
    · subst same
      rw [here]
      unfold Owns
      rw [clear]
      exact ⟨rfl,idle⟩
    · rw [at_ j same] at now ⊢
      have owns := h.owned j now
      unfold Owns at owns ⊢
      cases theirs : slotValid (w.probe j).trampolineSlot with
      | none => simpa [theirs] using owns
      | some t =>
        simp only [theirs] at owns ⊢
        obtain ⟨mapped,used,addr,alive⟩ := owns
        have other : t ≠ s := fun eq => same (h.alone j i s now live (eq ▸ theirs) valid)
        obtain ⟨base,still⟩ := others t other used
        have slotAddr : poolSlotAddr pool t = poolSlotAddr w.runtime.pool t := by
          simp [poolSlotAddr,base]
        exact ⟨base.trans_ne mapped,still,addr.trans slotAddr.symm,alive⟩
  · intro j k t now now' hj hk
    have gone : ∀ l, slotValid
        (((w.setPool pool).setProbe i (clearProbeSlot (w.probe i))).probe l).trampolineSlot =
        some t →
        l ≠ i := by
      intro l have_ same
      subst same
      rw [here,clear] at have_
      cases have_
    rw [at_ j (gone j hj)] at now hj
    rw [at_ k (gone k hk)] at now' hk
    exact h.alone j k t now now' hj hk

theorem releaseSound (h : Sound isa original w) (live : (w.probe i).live)
    (idle : (w.probe i).state ≠ .installed) :
    Sound isa original (releaseSlot w i o) := by
  have not_ : ¬ (w.probe i).installed := fun now => idle now.2
  rcases @releaseCases w o i h.slots live with ⟨_,same⟩ | ⟨s,pool,valid,changed,others⟩
  · rw [same]; exact h
  · rw [changed]
    refine ⟨entriesSet h.entries rfl rfl,?_,releaseSlots h.slots live idle valid others⟩
    refine textsSet h.texts rfl rfl (fun r member => member) not_ (fun now => not_ now)
      fun now prep => ?_
    exact h.texts.saved i now (.inl prep)

theorem releaseProbe (h : Slots w) (live : (w.probe i).live) :
    ((releaseSlot w i o).probe i).probeId = (w.probe i).probeId ∧
    ((releaseSlot w i o).probe i).target = (w.probe i).target ∧
    ((releaseSlot w i o).probe i).state = (w.probe i).state := by
  rcases @releaseCases w o i h live with ⟨_,same⟩ | ⟨s,pool,valid,changed,others⟩
  · rw [same]; exact ⟨rfl,rfl,rfl⟩
  · rw [changed]
    simp [World.setProbe,World.probe,clearProbeSlot]

theorem unregisterIt (h : Entries w.session) (live : (w.probe i).live) :
    unregister w (w.probe i).probeId = (forgottenWorld w i,true) := by
  simp [unregister,unregisterProbe,forgottenWorld,findLive h live]

theorem unregisterSound (h : Sound isa original w) (live : (w.probe i).live)
    (idle : (w.probe i).state ≠ .installed) :
    Sound isa original (forgottenWorld w i) := by
  have gone : ¬ Probe.zero.live := by simp [Probe.live,Probe.zero]
  refine ⟨entriesGone h.entries live,?_,slotsClear h.slots rfl rfl fun now => absurd now gone⟩
  refine textsSet h.texts rfl rfl (fun r member => member) (fun now => idle now.2)
    (fun now => gone now.1) fun now => ?_
  exact absurd now gone

theorem registerSound {s' : Session} {name lookup found} (h : Sound isa original w)
    (steps : Registering w.session name lookup (s',found)) :
    Sound isa original { w with session := s' } := by
  cases steps with
  | refused => exact h
  | known => exact h
  | @fresh i module addr path free look absent new =>
    rw [freshId h.entries]
    have off : ¬ (w.probe i).installed := fun now => now.1 free
    refine ⟨entriesFresh h.entries free new,?_,slotsClear h.slots rfl rfl fun _ =>
      ⟨rfl,rfl,by simp [freshProbe]⟩⟩
    refine textsSet h.texts rfl rfl (fun r member => member) off
      (by simp [Probe.installed,freshProbe]) fun _ prep => ?_
    cases prep

theorem editSound {p : Probe} (h : Sound isa original w) (live : (w.probe i).live)
    (id : p.probeId = (w.probe i).probeId)
    (target : p.target = (w.probe i).target) (state : p.state = (w.probe i).state)
    (code : p.origCode = (w.probe i).origCode ∧ p.origLen = (w.probe i).origLen)
    (slot : p.trampolineSlot = (w.probe i).trampolineSlot ∧
      p.trampolineAddr = (w.probe i).trampolineAddr) :
    Sound isa original (w.setProbe i p) := by
  have at_ : ∀ j, j ≠ i → (w.setProbe i p).probe j = w.probe j := fun j other => by
    simp [World.setProbe,World.probe,other]
  have here := setProbeHere w i p
  have region : regionOf p = regionOf (w.probe i) := by simp [regionOf,target,code.2]
  have installed : p.installed ↔ (w.probe i).installed := by
    rw [Probe.installed,Probe.installed,id,state]
  refine ⟨entriesSet h.entries id (congrArg _ target),?_,?_⟩
  · refine textsQuiet h.texts rfl (fun r member => member) (fun j => ?_) (fun j now => ?_)
      fun j alive prep => ?_
    · by_cases same : j = i
      · subst same; rw [here]; exact installed
      · rw [at_ j same]
    · by_cases same : j = i
      · subst same; rw [here]; exact ⟨region,code.1,slot.2⟩
      · rw [at_ j same]; exact ⟨rfl,rfl,rfl⟩
    · by_cases same : j = i
      · subst same
        rw [here] at prep ⊢
        rw [Saved,region,code.1,code.2,target]
        exact h.texts.saved j live (.inl (state.symm.trans prep))
      · rw [at_ j same] at alive prep ⊢
        exact h.texts.saved j alive (.inl prep)
  · refine slotsSet h.slots rfl rfl (fun _ => live) slot.1 slot.2 fun now none_ => ?_
    have owns := h.slots.owned i live
    unfold Owns at owns
    rw [none_] at owns
    exact owns.2 (state.symm.trans now)

end ZeroTrace.ProbeSteps
