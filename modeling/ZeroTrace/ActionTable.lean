import Mathlib.Data.Fintype.EquivFin
import ZeroTrace.CallActions
import ZeroTrace.ProbeInvariant

/-! The shared table of call actions against the tracer's table of probes, over whole
operations whose remote writes succeed. The tracer looks for a slot from the home slot on;
the payload tries the home slot and then scans from the first slot. -/
namespace ZeroTrace.ActionTable
open SharedRead ProbeTable CallActions
open ProbeInvariant (Entries entriesSet entriesFresh entriesGone freshId findLive)

def storesLeft : Phase → Nat
  | .idle => 0
  | .counting => 1
  | .staging _ _ _ todo => todo.length + 2
  | .disabling _ _ _ order => order.length + 3

def storeAll : Nat → Tracer → Tracer
  | 0,t => t
  | n+1,t => match step t .store with
    | some t' => storeAll n t'
    | none => t

def settle (t : Tracer) : Tracer := storeAll (storesLeft t.phase) t

/- `stopped`: the target was stopped and the patch, if there was one, taken back. The
flag that comes out says whether the trace is still active. -/
def removeProbe (t : Tracer) (id : Nat) (order : List ActionWord)
    (stopped : Bool) : Tracer × Bool :=
  match probeFindById t.session id with
  | none => (t,true)
  | some i =>
    if !stopped then (t,true) else
      let t := if (t.session.probes i).callAction.enabled ≠ 0 then
        settle (clearProbeCallAction t id order) else t
      let s := (unregisterProbe t.session id).1
      ({ t with session := s },s.probeCount != 0)

inductive TableOp where
  | register (name : Name) (lookup : Option (Name × Nat))
  | update (id : Nat) (symbol : Name) (callee : Option Nat) (args : List CallArg)
      (order : List ActionWord)
  | clear (id : Nat) (order : List ActionWord)
  | remove (id : Nat) (order : List ActionWord) (stopped : Bool)

def performOp (t : Tracer) : TableOp → Tracer × Bool
  | .register name lookup => ({ t with session := (registerProbe t.session name lookup).1 },true)
  | .update id symbol callee args order =>
      (settle (updateProbeCallActionArgs t id symbol callee args order),true)
  | .clear id order => (settle (clearProbeCallAction t id order),true)
  | .remove id order stopped => removeProbe t id order stopped

/- The whole action is staged, and no symbol is at address zero: `zt_find_symbol_addr`
skips those. -/
def TableOp.Answered : TableOp → Prop
  | .register _ _ => True
  | .update _ _ callee _ order => callee ≠ some 0 ∧ Complete order
  | .clear _ order | .remove _ order _ => Complete order

instance (op : TableOp) : Decidable op.Answered := match op with
  | .register _ _ => isTrue trivial
  | .update _ _ callee _ order => inferInstanceAs (Decidable (callee ≠ some 0 ∧ Complete order))
  | .clear _ order | .remove _ order _ => inferInstanceAs (Decidable (Complete order))

inductive TableRun (start : Tracer) : Tracer → Prop where
  | start : TableRun start start
  | op {t op} (before : TableRun start t) (answered : op.Answered)
      (active : (performOp t op).2 = true) :
      TableRun start (performOp t op).1

def acting (p : Probe) : Prop := p.probeId ≠ 0 ∧ p.callAction.enabled ≠ 0

instance (p : Probe) : Decidable (acting p) := inferInstanceAs (Decidable (_ ∧ _))

/- The trace begins: the shared buffer is zero, and any probes may be registered, with any
ids, but none has an action. -/
structure Begins (t : Tracer) : Prop where
  idle : t.phase = .idle
  entries : Entries t.session
  zero : t.count = 0 ∧ ∀ c, t.slots c .enabled = 0
  parked : ∀ i, (t.session.probes i).live →
    (t.session.probes i).callAction.enabled = 0 ∧ (t.session.probes i).callActionSlot = -1

/-! A write that runs to its end. -/
theorem storeAllStep {t t' : Tracer} {n} (ok : step t .store = some t') :
    storeAll (n + 1) t = storeAll n t' := by
  simp [storeAll,ok]

attribute [local simp] step

theorem storeAllCounting {t : Tracer} (at_ : t.phase = .counting) :
    storeAll 1 t = { t with count := countCallActions t.session, phase := .idle } := by
  have one : step t .store =
      some { t with count := countCallActions t.session, phase := .idle } := by
    simp only [step,at_]
  rw [storeAllStep one]
  rfl

theorem storeAllStaging {t : Tracer} {slot i update todo n}
    (at_ : t.phase = .staging slot i update todo) :
    storeAll (todo.length + n) t = storeAll n { t with
      slots := Function.update t.slots slot
        (fun w => if w ∈ todo then stagedWord update w else t.slots slot w)
      phase := .staging slot i update [] } := by
  induction todo generalizing t with
  | nil =>
    have same : (fun w => if w ∈ ([] : List ActionWord) then
        stagedWord update w else t.slots slot w) =
        t.slots slot := by
      funext w
      simp
    rw [same,Function.update_eq_self,← at_]
    simp
  | cons w todo ih =>
    have one : step t .store = some
        { t.storeWord slot w (stagedWord update w) with phase := .staging slot i update todo } := by
      simp only [step,at_]
    rw [List.length_cons,Nat.add_right_comm,storeAllStep one,ih rfl]
    congr 2
    funext c x
    by_cases here : c = slot
    · subst here
      by_cases same : x = w
      · subst same; simp [Tracer.storeWord]
      · simp [Tracer.storeWord,same]
    · simp [Tracer.storeWord,here]

theorem storeAllDisabling {t : Tracer} {slot i update order n} (complete : Complete order)
    (at_ : t.phase = .disabling slot i update order) :
    storeAll (order.length + 1 + n) t = storeAll n { t with
      slots := Function.update t.slots slot (stagedWord update), phase :=
  .staging slot i update [] } := by
  have one : step t .store =
      some { t.storeWord slot .enabled 0 with phase := .staging slot i update order } := by
    simp only [step,at_]
  rw [Nat.add_right_comm,storeAllStep one,storeAllStaging rfl]
  have words : (fun w => if w ∈ order then
      stagedWord update w else (t.storeWord slot .enabled 0).slots slot w) =
      stagedWord update := by
    funext w
    exact if_pos (complete w)
  simp only [words]
  simp [Tracer.storeWord]

theorem settleUpdate {t : Tracer} {slot i u order} (complete : Complete order)
    (at_ : t.phase = .disabling slot i (some u) order) :
    settle t = { t with
      slots := Function.update t.slots slot (actionWord u.action)
      count := countCallActions t.session
      phase := .idle
      published := t.published ++ [u] } := by
  rw [settle,at_,storesLeft,storeAllDisabling (n := 2) complete at_]
  rw [storeAllStep (by simp only [step]; rfl),storeAllCounting rfl]
  congr 1
  funext c w
  by_cases here : c = slot
  · subst here
    by_cases same : w = .enabled
    · subst same; simp [Tracer.storeWord,actionWord,Update.action]
    · simp [Tracer.storeWord,same,stagedOther same]
  · simp [Tracer.storeWord,here]

theorem stagedZero : stagedWord none = actionWord CallAction.zero := by
  funext w
  cases w <;> rfl

theorem settleClear {t : Tracer} {slot i order} (complete : Complete order)
    (at_ : t.phase = .disabling slot i none order) :
    settle t = { t with
      session := t.session.set i { t.session.probes i with callActionSlot := -1 }
      slots := Function.update t.slots slot (actionWord .zero)
      count := countCallActions (t.session.set i { t.session.probes i with callActionSlot := -1 })
      phase := .idle } := by
  rw [settle,at_,storesLeft,storeAllDisabling (n := 2) complete at_]
  rw [storeAllStep (by simp only [step]; rfl),storeAllCounting rfl,stagedZero]

/-! What holds of the two tables between two operations. -/
structure Mirrors (t : Tracer) : Prop where
  idle : t.phase = .idle
  entries : Entries t.session
  owned : ∀ i, acting (t.session.probes i) → ∃ c : Fin 32, (t.session.probes i).callActionSlot =
    c.val ∧
    ∀ w, t.slots c w = actionWord (t.session.probes i).callAction w
  apart : ∀ i j, acting (t.session.probes i) → acting (t.session.probes j) →
    (t.session.probes i).callActionSlot = (t.session.probes j).callActionSlot → i = j
  usable : ∀ i, acting (t.session.probes i) →
    (t.session.probes i).callAction.probeId = (t.session.probes i).probeId ∧
    (t.session.probes i).callAction.calleeAddr ≠ 0 ∧ (t.session.probes i).callAction.argCount ≤
      callActionArgCap
  parked : ∀ i, (t.session.probes i).live → ¬ acting (t.session.probes i) →
    (t.session.probes i).callActionSlot = -1
  quiet : ∀ c : Fin 32,
    (∀ i, acting (t.session.probes i) → (t.session.probes i).callActionSlot ≠ c.val) →
    t.slots c .enabled = 0
  counted : t.count = countCallActions t.session

theorem countActing (s : Session) :
    countCallActions s = (Finset.univ.filter fun i => acting (s.probes i)).card := by
  have same : (List.finRange 32).filter (fun i => (s.probes i).probeId != 0 &&
      (s.probes i).callAction.enabled != 0) =
      (List.finRange 32).filter fun i => acting (s.probes i) := by
    refine List.filter_congr fun i _ => ?_
    rw [Bool.eq_iff_iff,decide_eq_true_iff]
    simp [acting]
  rw [countCallActions,same,Fin.univ_def]
  rfl

theorem countNone {s : Session} (none_ : ∀ i, ¬ acting (s.probes i)) : countCallActions s = 0 := by
  have empty : (List.finRange 32).filter
      (fun i => (s.probes i).probeId != 0 && (s.probes i).callAction.enabled != 0) = [] := by
    refine List.filter_eq_nil_iff.mpr fun i _ => ?_
    simpa [acting] using none_ i
  rw [countCallActions,empty]
  rfl

theorem beginsMirrors {t : Tracer} (h : Begins t) : Mirrors t := by
  have none_ : ∀ i, ¬ acting (t.session.probes i) := fun i now => now.2 (h.parked i now.1).1
  exact ⟨h.idle,h.entries,fun i now => absurd now (none_ i),fun i _ now => absurd now (none_ i),
    fun i now => absurd now (none_ i),fun i live _ => (h.parked i live).2,fun c _ => h.zero.2 c,
    h.zero.1.trans (countNone none_).symm⟩

theorem countQuiet {s s' : Session} {i p} (probes : s'.probes = Function.update s.probes i p)
    (before : ¬ acting (s.probes i))
    (after : ¬ acting p) : countCallActions s' = countCallActions s := by
  refine congrArg List.length (List.filter_congr fun j _ => ?_)
  rw [probes]
  by_cases same : j = i
  · subst same
    rw [Function.update_self]
    simp only [acting,not_and_or,not_not] at before after
    rcases before with a | a <;> rcases after with b | b <;> simp [a,b]
  · rw [Function.update_of_ne same]

theorem mirrorsQuiet {t t' : Tracer} {i p} (h : Mirrors t) (idle : t'.phase = .idle)
    (entries : Entries t'.session)
    (probes : t'.session.probes = Function.update t.session.probes i p) (slots : t'.slots = t.slots)
    (count : t'.count = countCallActions t'.session) (before : ¬ acting (t.session.probes i))
    (after : ¬ acting p)
    (parked : p.live → p.callActionSlot = -1) : Mirrors t' := by
  have at_ : ∀ j, j ≠ i → t'.session.probes j = t.session.probes j := fun j other => by
    rw [probes]; simp [other]
  have here : t'.session.probes i = p := by rw [probes]; simp
  have still : ∀ j, acting (t'.session.probes j) → acting (t.session.probes j) ∧
      t'.session.probes j = t.session.probes j := by
    intro j now
    have other : j ≠ i := fun same => after (here ▸ same ▸ now)
    exact ⟨at_ j other ▸ now,at_ j other⟩
  have kept : ∀ j, acting (t.session.probes j) → t'.session.probes j = t.session.probes j :=
    fun j now => at_ j fun same => before (same ▸ now)
  constructor
  · exact idle
  · exact entries
  · intro j now
    obtain ⟨old,same⟩ := still j now
    rw [same,slots]
    exact h.owned j old
  · intro j k now now' slot
    obtain ⟨old,same⟩ := still j now
    obtain ⟨old',same'⟩ := still k now'
    rw [same,same'] at slot
    exact h.apart j k old old' slot
  · intro j now
    obtain ⟨old,same⟩ := still j now
    rw [same]
    exact h.usable j old
  · intro j live rest
    by_cases same : j = i
    · subst same
      rw [here] at live ⊢
      exact parked live
    · rw [at_ j same] at live rest ⊢
      exact h.parked j live rest
  · intro c free
    rw [slots]
    refine h.quiet c fun j now => ?_
    rw [← kept j now]
    exact free j (by rw [kept j now]; exact now)
  · exact count

theorem mirrorsRewritten {t t' : Tracer} {i : Fin 32} {p : Probe} {c : Fin 32}
    {f : ActionWord → Nat} (h : Mirrors t)
    (idle : t'.phase = .idle) (session : t'.session = t.session.set i p)
    (id : p.probeId = (t.session.probes i).probeId)
    (symbol : p.target.symbol = (t.session.probes i).target.symbol)
    (slots : t'.slots = Function.update t.slots c f)
    (count : t'.count = countCallActions t'.session)
    (mine : acting (t.session.probes i) → (t.session.probes i).callActionSlot = c.val)
    (free : ∀ j, j ≠ i → acting (t.session.probes j) → (t.session.probes j).callActionSlot ≠ c.val)
    (on : acting p → p.callActionSlot = c.val ∧ (∀ w, f w = actionWord p.callAction w) ∧
      p.callAction.probeId = p.probeId ∧ p.callAction.calleeAddr ≠ 0 ∧
        p.callAction.argCount ≤ callActionArgCap)
    (off : ¬ acting p → p.callActionSlot = -1 ∧ f .enabled = 0) : Mirrors t' := by
  have at_ : ∀ j, j ≠ i → t'.session.probes j = t.session.probes j := fun j other => by
    rw [session]; simp [other]
  have here : t'.session.probes i = p := by rw [session]; simp
  constructor
  · exact idle
  · rw [session]; exact entriesSet h.entries id symbol
  · intro j now
    by_cases same : j = i
    · subst same
      rw [here] at now ⊢
      refine ⟨c,(on now).1,fun w => ?_⟩
      rw [slots,Function.update_self]
      exact (on now).2.1 w
    · rw [at_ j same] at now ⊢
      obtain ⟨d,slot,all⟩ := h.owned j now
      have other : d ≠ c := by
        intro equal
        subst equal
        exact free j same now slot
      refine ⟨d,slot,fun w => ?_⟩
      rw [slots,Function.update_of_ne other]
      exact all w
  · intro j k now now' slot
    by_cases jj : j = i <;> by_cases kk : k = i
    · exact jj.trans kk.symm
    · subst jj
      rw [here] at now slot
      rw [at_ k kk] at now' slot
      exact absurd (slot.symm.trans (on now).1) (free k kk now')
    · subst kk
      rw [here] at now' slot
      rw [at_ j jj] at now slot
      exact absurd (slot.trans (on now').1) (free j jj now)
    · rw [at_ j jj] at now slot
      rw [at_ k kk] at now' slot
      exact h.apart j k now now' slot
  · intro j now
    by_cases same : j = i
    · subst same
      rw [here] at now ⊢
      exact (on now).2.2
    · rw [at_ j same] at now ⊢
      exact h.usable j now
  · intro j live rest
    by_cases same : j = i
    · subst same
      rw [here] at rest ⊢
      exact (off rest).1
    · rw [at_ j same] at live rest ⊢
      exact h.parked j live rest
  · intro d unused
    rw [slots]
    by_cases same : d = c
    · subst same
      rw [Function.update_self]
      by_cases now : acting p
      · exact absurd (on now).1 (by have := unused i; rw [here] at this; exact this now)
      · exact (off now).2
    · rw [Function.update_of_ne same]
      refine h.quiet d fun j now slot => ?_
      by_cases jj : j = i
      · subst jj
        have equal : (d.val : Int) = c.val := slot.symm.trans (mine now)
        exact same (Fin.ext (by exact_mod_cast equal))
      · have := unused j
        rw [at_ j jj] at this
        exact this now slot
  · exact count

/-! There is always a slot: each of the other probes has at most one. -/
theorem usesSlot {s : Session} {owner : Fin 32} {slot : Int} :
    probeUsesCallSlot s owner slot = true ↔
    ∃ j, j ≠ owner ∧ acting (s.probes j) ∧ (s.probes j).callActionSlot = slot := by
  simp [probeUsesCallSlot,acting,and_assoc]

theorem someSlotFree {s : Session} (i : Fin 32) : ∃ c : Fin 32, probeUsesCallSlot s i c.val =
    false := by
  by_contra all
  have used : ∀ c : Fin 32, ∃ j, j ≠ i ∧ acting (s.probes j) ∧
      (s.probes j).callActionSlot = c.val := by
    intro c
    refine usesSlot.mp ?_
    by_contra unused
    exact all ⟨c,by simpa using unused⟩
  choose owner other _ slot using used
  have distinct : Function.Injective owner := by
    intro c d same
    have equal : (c.val : Int) = d.val := by rw [← slot c,← slot d,same]
    exact Fin.ext (by exact_mod_cast equal)
  -- thirty-two slots with thirty-two owners leave no entry over
  obtain ⟨c,mine⟩ := (Finite.injective_iff_surjective.mp distinct) i
  exact other c mine

theorem callSlotsAll (id : Nat) (c : Fin 32) : c ∈ callSlots id := by
  refine List.mem_map.mpr ⟨(c.val + 32 - id % 32) % 32,
    List.mem_range.mpr (Nat.mod_lt _ (by decide)),Fin.ext ?_⟩
  have low := c.isLt
  simp only [homeSlot]
  omega

theorem setKept (s : Session) (i : Fin 32) : s.set i (s.probes i) = s := by
  simp [Session.set]

theorem assigned {t : Tracer} (h : Mirrors t) {i} (live : (t.session.probes i).live) : ∃ c : Fin 32,
    assignCallActionSlot t.session i =
      (t.session.set i { t.session.probes i with callActionSlot := c.val },some c) ∧
    (acting (t.session.probes i) → (t.session.probes i).callActionSlot = c.val) ∧
    ∀ j, j ≠ i → acting (t.session.probes j) → (t.session.probes j).callActionSlot ≠ c.val := by
  by_cases now : acting (t.session.probes i)
  · obtain ⟨c,slot,_⟩ := h.owned i now
    have free : ∀ j, j ≠ i → acting (t.session.probes j) →
        (t.session.probes j).callActionSlot ≠ c.val :=
      fun j other there same => other (h.apart j i there now (same.trans slot.symm))
    have unused : probeUsesCallSlot t.session i (t.session.probes i).callActionSlot ≠ true := by
      intro used
      obtain ⟨j,other,there,same⟩ := usesSlot.mp used
      exact free j other there (same.trans slot)
    have valid : callActionSlotValid (t.session.probes i).callActionSlot := by
      have low := c.isLt
      rw [slot]
      exact ⟨by omega,by omega⟩
    refine ⟨c,?_,fun _ => slot,free⟩
    have same : { t.session.probes i with callActionSlot := (c.val : Int) } = t.session.probes i :=
      by rw [← slot]
    rw [same,setKept]
    unfold assignCallActionSlot
    simp only [dif_pos valid,if_neg unused]
    refine congrArg (fun d => (t.session,some d)) (Fin.ext ?_)
    simp [slot]
  · have invalid : ¬ callActionSlotValid (t.session.probes i).callActionSlot := by
      rw [h.parked i live now]
      simp
    cases found : (callSlots (t.session.probes i).probeId).find? fun slot =>
        !probeUsesCallSlot t.session i slot.val with
    | none =>
      obtain ⟨c,unused⟩ := someSlotFree (s := t.session) i
      have out := List.find?_eq_none.mp found c (callSlotsAll _ c)
      simp [unused] at out
    | some c =>
      have unused : probeUsesCallSlot t.session i c.val = false := by
        simpa using List.find?_some found
      refine ⟨c,?_,fun there => absurd there now,fun j other there same => ?_⟩
      · unfold assignCallActionSlot
        simp only [dif_neg invalid,found]
      · have used := usesSlot.mpr ⟨j,other,there,same⟩
        rw [unused] at used
        cases used

theorem nextEpochLive (epoch : Nat) : nextCallActionEpoch epoch ≠ 0 := by
  unfold nextCallActionEpoch
  split
  · exact Nat.one_ne_zero
  · next some_ => exact some_

theorem settleIdle {t : Tracer} (idle : t.phase = .idle) : settle t = t := by
  rw [settle,idle]
  rfl

theorem updateMirrors {t : Tracer} {id symbol callee args order} (h : Mirrors t)
    (callable : callee ≠ some 0)
    (complete : Complete order) :
    Mirrors (settle (updateProbeCallActionArgs t id symbol callee args order)) := by
  have same : Mirrors (settle t) := by rw [settleIdle h.idle]; exact h
  unfold updateProbeCallActionArgs
  split
  · exact same
  · next checked =>
    have few : args.length ≤ callActionArgCap := by
      simp only [Bool.or_eq_true,not_or,Bool.not_eq_true',validateCallActionArgs,Bool.not_eq_false,
        Bool.and_eq_true,decide_eq_true_eq] at checked
      exact checked.2.1
    split
    · exact same
    · next i found =>
      obtain ⟨nonzero,mine⟩ := findByIdSome found
      have live : (t.session.probes i).live := fun zero => nonzero (mine.symm.trans zero)
      cases callee with
      | none => exact same
      | some addr =>
        obtain ⟨c,assign,kept,free⟩ := assigned h live
        simp only [assign]
        rw [settleUpdate complete rfl]
        refine mirrorsRewritten (i := i) (c := c) h rfl (p := { t.session.probes i with
          callActionSlot := (c.val : Int)
          callAction := (Update.mk (nextCallActionEpoch t.epoch) id addr args).action
          callSymbol := symbol.take (probeSymbolMax - 1) }) ?_ rfl rfl rfl rfl kept free ?_ ?_
        · simp [Session.set]
        · intro _
          exact ⟨rfl,fun _ => rfl,mine.symm,fun zero => callable (congrArg some zero),few⟩
        · intro off
          exact absurd ⟨live,nextEpochLive t.epoch⟩ off

theorem clearedEntry {p : Probe} (off : p.callAction = .zero) : ¬ acting p := by
  intro now
  exact now.2 (by rw [off]; rfl)

theorem clearMirrors {t : Tracer} {id order} (h : Mirrors t) (complete : Complete order) :
    Mirrors (settle (clearProbeCallAction t id order)) := by
  unfold clearProbeCallAction
  split
  · rw [settleIdle h.idle]; exact h
  · next i found =>
    obtain ⟨nonzero,mine⟩ := findByIdSome found
    have live : (t.session.probes i).live := fun zero => nonzero (mine.symm.trans zero)
    by_cases now : acting (t.session.probes i)
    · obtain ⟨c,slot,_⟩ := h.owned i now
      have low := c.isLt
      have valid : callActionSlotValid (t.session.probes i).callActionSlot := by
        rw [slot]
        exact ⟨by omega,by omega⟩
      simp only [dif_pos valid]
      rw [settleClear complete rfl]
      have same : (⟨(t.session.probes i).callActionSlot.toNat,slotInRange valid⟩ : Fin 32) = c :=
        Fin.ext (by simp [slot])
      refine mirrorsRewritten (i := i) (c := c) (f := actionWord .zero) h rfl
        (p := { t.session.probes i with
        callAction := .zero, callSymbol := [], callActionSlot := -1 }) ?_ rfl rfl
        (by simp only [same]) rfl (fun _ => slot)
        (fun j other there equal => other (h.apart j i there now (equal.trans slot.symm))) ?_ ?_
      · simp [Session.set]
      · exact fun on => absurd on (clearedEntry rfl)
      · exact fun _ => ⟨rfl,rfl⟩
    · have parked := h.parked i live now
      have invalid : ¬ callActionSlotValid (t.session.probes i).callActionSlot := by
        rw [parked]; simp
      have below : ¬ (0 : Int) ≤ (t.session.probes i).callActionSlot := by rw [parked]; decide
      simp only [dif_neg invalid,if_neg below]
      rw [settle,storesLeft,storeAllCounting rfl]
      refine mirrorsQuiet (i := i) (p := { t.session.probes i with
        callAction := .zero, callSymbol := [], callActionSlot := -1 }) h rfl ?_ ?_ rfl rfl now
          (clearedEntry rfl) (fun _ => rfl)
      · refine entriesSet (entriesSet h.entries rfl rfl) ?_ ?_
        · rfl
        · rfl
      · simp [Session.set]

theorem clearedOff {t : Tracer} {id order i} (idle : t.phase = .idle) (complete : Complete order)
    (found : probeFindById t.session id = some i) :
    ((settle (clearProbeCallAction t id order)).session.probes i).probeId = id ∧
      ((settle (clearProbeCallAction t id order)).session.probes i).callAction = .zero := by
  have mine := (findByIdSome found).2
  simp only [clearProbeCallAction,found]
  split
  · rw [settleClear complete rfl]
    simp [mine]
  · split
    · simp only [settle,idle,storesLeft,storeAll]
      simp [mine]
    · rw [settle,storesLeft,storeAllCounting rfl]
      simp [mine]

theorem registerMirrors {t : Tracer} {name lookup} (h : Mirrors t) :
    Mirrors { t with session := (registerProbe t.session name lookup).1 } := by
  have same : Mirrors { t with session := t.session } := h
  cases registered : registerProbe t.session name lookup with
  | mk s found =>
    have steps := registerSteps t.session name lookup
    rw [registered] at steps
    cases steps with
    | refused => exact same
    | known live => exact same
    | @fresh i module addr path free look absent new =>
      have before : ¬ acting (t.session.probes i) := fun now => now.1 free
      have id := freshId h.entries
      simp only [id]
      refine mirrorsQuiet (i := i)
        (p := freshProbe t.session.nextProbeId ⟨name.take (probeSymbolMax - 1),path,addr⟩)
        h h.idle (entriesFresh h.entries free new) rfl rfl ?_ before (clearedEntry rfl)
          (fun _ => rfl)
      rw [h.counted]
      exact (countQuiet rfl before (clearedEntry rfl)).symm

theorem unregisterMirrors {t : Tracer} {id i} (h : Mirrors t)
    (found : probeFindById t.session id = some i)
    (off : ¬ acting (t.session.probes i)) :
    Mirrors { t with session := (unregisterProbe t.session id).1 } := by
  obtain ⟨nonzero,mine⟩ := findByIdSome found
  have live : (t.session.probes i).live := fun zero => nonzero (mine.symm.trans zero)
  have gone : ¬ acting Probe.zero := fun now => now.1 rfl
  simp only [unregisterProbe,found]
  refine mirrorsQuiet (i := i) (p := .zero) h h.idle (entriesGone h.entries live) rfl rfl ?_
    off gone
    (fun now => absurd rfl now)
  rw [h.counted]
  exact (countQuiet rfl off gone).symm

theorem removeMirrors {t : Tracer} {id order stopped} (h : Mirrors t) (complete : Complete order) :
    Mirrors (removeProbe t id order stopped).1 := by
  unfold removeProbe
  split
  · exact h
  · next i found =>
    split
    · exact h
    · dsimp only
      split
      · have cleared := @clearMirrors t id order h complete
        obtain ⟨mine,off⟩ := clearedOff h.idle complete found
        have live : ((settle (clearProbeCallAction t id order)).session.probes i).live :=
          fun zero => (findByIdSome found).1 (mine.symm.trans zero)
        have again := findLive cleared.entries live
        rw [mine] at again
        exact unregisterMirrors cleared again (clearedEntry off)
      · next off => exact unregisterMirrors h found fun now => off now.2

theorem performMirrors {t : Tracer} {op} (h : Mirrors t) (answered : op.Answered) :
    Mirrors (performOp t op).1 := by
  cases op with
  | register name lookup => exact registerMirrors h
  | update id symbol callee args order => exact updateMirrors h answered.1 answered.2
  | clear id order => exact clearMirrors h answered
  | remove id order stopped => exact removeMirrors h answered

theorem runMirrors {start t : Tracer} (begins : Begins start)
    (run : TableRun start t) : Mirrors t := by
  induction run with
  | start => exact beginsMirrors begins
  | op _ answered _ ih => exact performMirrors ih answered

/-! The payload's search in a table that stands still. -/
theorem copyWordsEval (mem : ActionLoc → Nat) (slot : Fin 32) (words : List ActionWord)
    (copy : ActionWord → Nat) (w) :
    (copyWords slot words copy).eval mem w = if w ∈ words then mem (.word slot w) else copy w := by
  induction words generalizing copy with
  | nil => rfl
  | cons x words ih =>
    simp only [copyWords,Program.eval,ih]
    by_cases same : w = x
    · subst same; simp
    · simp [same]

theorem snapshotEval {t : Tracer} {slot : Fin 32} {a : CallAction}
    (words : ∀ w, t.slots slot w = actionWord a w) :
    snapshotOf (t.slots slot .enabled) ((copyWords slot snapshotWords fun _ => 0).eval t.word) =
      a := by
  have read : ∀ w, w ≠ .enabled → (copyWords slot snapshotWords fun _ => 0).eval t.word w =
      actionWord a w := by
    intro w other
    rw [copyWordsEval,← words w]
    refine if_pos ?_
    cases w <;> simp_all [snapshotWords]
  simp only [snapshotOf,read .probeId (by simp),read .calleeAddr (by simp),read .argCount (by simp),
    words .enabled]
  simp [actionWord,read]

theorem copyEvalOff {t : Tracer} {slot : Fin 32} (id : Nat) (off : t.slots slot .enabled = 0) :
    (copyCallActionIfMatch slot id).eval t.word = none := by
  have zero : t.word (.word slot .enabled) = 0 := off
  simp [copyCallActionIfMatch,Program.eval,zero]

theorem copyEvalOn {t : Tracer} {slot : Fin 32} {a : CallAction} (id : Nat)
    (words : ∀ w, t.slots slot w = actionWord a w) (on : a.enabled ≠ 0) (callee : a.calleeAddr ≠ 0)
    (few : a.argCount ≤ callActionArgCap) :
    (copyCallActionIfMatch slot id).eval t.word = if a.probeId = id then some a else none := by
  have live : t.word (.word slot .enabled) = a.enabled := words .enabled
  have same : snapshotOf a.enabled ((copyWords slot snapshotWords fun _ => 0).eval t.word) = a := by
    have whole := snapshotEval words
    rwa [show t.slots slot .enabled = a.enabled from words .enabled] at whole
  have part : ∀ w, w ∈ snapshotWords → (copyWords slot snapshotWords fun _ => 0).eval t.word w =
      actionWord a w := by
    intro w member
    rw [copyWordsEval,if_pos member]
    exact words w
  have mine := part .probeId (by simp [snapshotWords])
  have addr := part .calleeAddr (by simp [snapshotWords])
  have count := part .argCount (by simp [snapshotWords])
  have fits : ¬ callActionArgCap < a.argCount := Nat.not_lt.mpr few
  by_cases match_ : a.probeId = id
  · simp [copyCallActionIfMatch,Program.eval,evalBind,live,on,mine,addr,count,actionWord,callee,
      fits,match_,same]
  · simp [copyCallActionIfMatch,Program.eval,evalBind,live,on,mine,actionWord,match_]

theorem findInSlotsEval (mem : ActionLoc → Nat) (id : Nat) (slots : List (Fin 32)) :
    (findInSlots id slots).eval mem = slots.findSome? fun c =>
      (copyCallActionIfMatch c id).eval mem := by
  induction slots with
  | nil => rfl
  | cons c slots ih =>
    simp only [findInSlots,evalBind,List.findSome?_cons]
    cases (copyCallActionIfMatch c id).eval mem with
    | none => exact ih
    | some a => rfl

def configured (s : Session) (id : Nat) : Option CallAction := match probeFindById s id with
  | none => none
  | some i => if (s.probes i).callAction.enabled ≠ 0 then some (s.probes i).callAction else none

theorem configuredSome {s : Session} {i} (h : Entries s) (now : acting (s.probes i)) :
    configured s (s.probes i).probeId = some (s.probes i).callAction := by
  simp [configured,findLive h now.1,now.2]

theorem configuredIs {s : Session} {id a} (found : configured s id = some a) :
    ∃ i, acting (s.probes i) ∧ (s.probes i).probeId = id ∧ (s.probes i).callAction = a := by
  unfold configured at found
  split at found
  · cases found
  · next i at_ =>
    obtain ⟨nonzero,mine⟩ := findByIdSome at_
    split at found
    · next on => exact ⟨i,⟨fun zero => nonzero (mine.symm.trans zero),on⟩,mine,
        Option.some.inj found⟩
    · cases found

theorem slotEval {t : Tracer} (h : Mirrors t) (c : Fin 32) (id : Nat) (a : CallAction)
    (copied : (copyCallActionIfMatch c id).eval t.word = some a) : configured t.session id =
      some a := by
  by_cases used : ∃ i, acting (t.session.probes i) ∧ (t.session.probes i).callActionSlot = c.val
  · obtain ⟨i,now,slot⟩ := used
    obtain ⟨d,slot',words⟩ := h.owned i now
    have same : d = c := Fin.ext (by have := slot'.symm.trans slot; exact_mod_cast this)
    subst same
    obtain ⟨owner,callee,few⟩ := h.usable i now
    rw [copyEvalOn id words now.2 callee few] at copied
    split at copied
    · next mine =>
      rw [← mine,owner,← Option.some.inj copied]
      exact configuredSome h.entries now
    · cases copied
  · have off := h.quiet c fun i now slot => used ⟨i,now,slot⟩
    rw [copyEvalOff id off] at copied
    cases copied

theorem countLive {s : Session} {i} (now : acting (s.probes i)) : countCallActions s ≠ 0 := by
  have member : i ∈ (List.finRange 32).filter
      fun i => (s.probes i).probeId != 0 && (s.probes i).callAction.enabled != 0 := by
    simpa [acting] using now
  exact Nat.ne_of_gt (List.length_pos_of_mem member)

theorem searchAll (id : Nat) (c : Fin 32) :
    c ∈ homeSlot id :: (List.finRange 32).filter (· ≠ homeSlot id) := by
  by_cases home : c = homeSlot id
  · simp [home]
  · simp [home]

theorem findEval {t : Tracer} (h : Mirrors t) (id : Nat) :
    (findCallAction id).eval t.word = configured t.session id := by
  have magic : t.word .magic = TraceBuffer.bufferMagic := rfl
  have count : t.word .count = t.count := rfl
  simp only [findCallAction,Program.eval,magic,count,ne_eq,not_true_eq_false,if_false]
  cases wanted : configured t.session id with
  | none =>
    split
    · rfl
    · simp only [findInSlotsEval,List.findSome?_eq_none_iff]
      intro c _
      cases copied : (copyCallActionIfMatch c id).eval t.word with
      | none => rfl
      | some a => rw [slotEval h c id a copied] at wanted; cases wanted
  | some a =>
    obtain ⟨i,now,mine,action⟩ := configuredIs wanted
    obtain ⟨c,slot,words⟩ := h.owned i now
    obtain ⟨owner,callee,few⟩ := h.usable i now
    have some_ : ¬ (t.count = 0 ∨ id = 0) := by
      rw [h.counted,← mine]
      exact fun zero => zero.elim (countLive now) now.1
    have here : (copyCallActionIfMatch c id).eval t.word = some a := by
      rw [copyEvalOn id words now.2 callee few,owner,mine,if_pos rfl,action]
    rw [if_neg some_,findInSlotsEval]
    cases first : (homeSlot id :: (List.finRange 32).filter (· ≠ homeSlot id)).findSome? fun c =>
        (copyCallActionIfMatch c id).eval t.word with
    | none =>
      have out := List.findSome?_eq_none_iff.mp first c (searchAll id c)
      rw [here] at out
      cases out
    | some b =>
      obtain ⟨d,_,copied⟩ := List.exists_of_findSome?_eq_some first
      exact (slotEval h d id b copied).symm.trans wanted

/-- After every operation that leaves the trace active, the shared table is the one that
the probes' actions describe: each acting probe has a slot of its own, the next assignment
finds one, the count is right, the other slots are off, and the payload finds for an id
what is configured for it. -/
theorem tableMirrorsActions {start t : Tracer} (begins : Begins start) (run : TableRun start t) :
    (∀ i, acting (t.session.probes i) → 0 ≤ (t.session.probes i).callActionSlot ∧
      (t.session.probes i).callActionSlot ≤ 31) ∧
    (∀ i j, acting (t.session.probes i) → acting (t.session.probes j) →
      (t.session.probes i).callActionSlot = (t.session.probes j).callActionSlot → i = j) ∧
    (∀ i, (t.session.probes i).live → (assignCallActionSlot t.session i).2.isSome = true) ∧
    t.count = (Finset.univ.filter fun i => acting (t.session.probes i)).card ∧
    (∀ c : Fin 32, (∀ i, acting (t.session.probes i) →
      (t.session.probes i).callActionSlot ≠ c.val) →
      t.slots c .enabled = 0) ∧
    ∀ id, (findCallAction id).eval t.word = configured t.session id := by
  have h := runMirrors begins run
  refine ⟨?_,h.apart,?_,?_,h.quiet,findEval h⟩
  · intro i now
    obtain ⟨c,slot,_⟩ := h.owned i now
    have low := c.isLt
    rw [slot]
    exact ⟨by omega,by omega⟩
  · intro i live
    obtain ⟨c,assign,_⟩ := assigned h live
    rw [assign]
    rfl
  · rw [h.counted,countActing]

def performAll (t : Tracer) : List TableOp → Option Tracer
  | [] => some t
  | op::rest => if op.Answered ∧ (performOp t op).2 = true then
      performAll (performOp t op).1 rest else none

theorem performAllRun {start t t' : Tracer} {ops} (before : TableRun start t)
    (ran : performAll t ops = some t') :
    TableRun start t' := by
  induction ops generalizing t with
  | nil => cases ran; exact before
  | cons op ops ih =>
    simp only [performAll] at ran
    split at ran
    · next ok => exact ih (.op before ok.1 ok.2) ran
    · cases ran

/- One probe with the id 1; the next id is 33, which has the same home slot. -/
def collidingStart : Tracer :=
  { Tracer.init with session :=
    ⟨33,1,Function.update (fun _ => .zero) ⟨0,by decide⟩ (freshProbe 1 ⟨['f'],['m'],4096⟩)⟩ }

def collidingOps : List TableOp :=
  [.register ['g'] (some (['m'],4160)),.update 1 ['h'] (some 8192) [] ActionWord.all,
    .update 33 ['k'] (some 8256) [⟨1,7⟩] ActionWord.all,.clear 1 ActionWord.all]

theorem collidingBegins : Begins collidingStart := by
  have first : ∀ i, (collidingStart.session.probes i).live → i = 0 := by
    unfold Probe.live
    decide
  refine ⟨rfl,⟨?_,?_,by decide,by decide⟩,⟨rfl,fun _ => rfl⟩,?_⟩
  · intro i j live same
    have other : (collidingStart.session.probes j).live := by rw [Probe.live,← same]; exact live
    exact (first i live).trans (first j other).symm
  · intro i j live live' _
    exact (first i live).trans (first j live').symm
  · unfold Probe.live
    decide

theorem collidingMirrored : Begins collidingStart ∧ ∃ t, TableRun collidingStart t ∧ t.count = 1 ∧
    (findCallAction 33).eval t.word = configured t.session 33 ∧
      (configured t.session 33).isSome = true ∧
    (findCallAction 1).eval t.word = none := by
  obtain ⟨t,ran⟩ : ∃ t, performAll collidingStart collidingOps = some t :=
    Option.isSome_iff_exists.mp rfl
  have run : TableRun collidingStart t := performAllRun .start ran
  obtain ⟨_,_,_,_,_,found⟩ := tableMirrorsActions collidingBegins run
  have facts : t.count = 1 ∧ (configured t.session 33).isSome = true ∧
      (configured t.session 1).isSome = false := by
    have all : (performAll collidingStart collidingOps).map (fun t =>
        (t.count,(configured t.session 33).isSome,(configured t.session 1).isSome)) =
          some (1,true,false) := by decide
    rw [ran] at all
    simpa using all
  refine ⟨collidingBegins,t,run,facts.1,found 33,facts.2.1,?_⟩
  rw [found 1]
  exact Option.isNone_iff_eq_none.mp (by simpa using facts.2.2)

end ZeroTrace.ActionTable
