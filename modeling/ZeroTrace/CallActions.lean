import ZeroTrace.SharedRead
import ZeroTrace.TraceBuffer
import ZeroTrace.ProbeTable

/-! Call actions within one active trace: the tracer rewrites a slot of the shared
table word by word while payload threads copy slots out of it. Any remote write may
fail, and the call that made it then gives up. -/
namespace ZeroTrace.CallActions
open Relation SharedRead ProbeTable

inductive ActionWord where
  | enabled | probeId | calleeAddr | argCount
  | argKind (i : Fin 6)
  | argValue (i : Fin 6)
  deriving DecidableEq, Repr

def actionWord (a : CallAction) : ActionWord → Nat
  | .enabled => a.enabled
  | .probeId => a.probeId
  | .calleeAddr => a.calleeAddr
  | .argCount => a.argCount
  | .argKind i => (a.args i).kind
  | .argValue i => (a.args i).value

def ActionWord.all : List ActionWord :=
  [.enabled,.probeId,.calleeAddr,.argCount] ++ (List.finRange 6).flatMap fun i =>
    [.argKind i,.argValue i]

def argConst : Nat := 1
def argEntryArg : Nat := 2

def validateCallActionArgs (args : List CallArg) : Bool :=
  args.length ≤ callActionArgCap && args.all fun a =>
    (a.kind == argConst || a.kind == argEntryArg) &&
      !(a.kind == argEntryArg && callActionArgCap ≤ a.value)

/- One call of `zt_trace_update_probe_call_action_args` that came as far as drawing an
epoch. -/
structure Update where
  epoch : Nat
  probeId : Nat
  calleeAddr : Nat
  args : List CallArg

def Update.action (u : Update) : CallAction :=
  ⟨u.epoch,u.probeId,u.calleeAddr,u.args.length,fun i => u.args.getD i ⟨0,0⟩⟩

/- What a `zt_trace_write_call_action` in progress has left to do: the word that
disables the slot, then the staged words, then for an update the epoch. -/
inductive Phase where
  | idle
  | disabling (slot probe : Fin 32) (update : Option Update) (order : List ActionWord)
  | staging (slot probe : Fin 32) (update : Option Update) (todo : List ActionWord)
  | counting

/- `drawn` and `published` are histories that no step reads: how many epochs were
drawn, and the updates whose epoch was stored. -/
structure Tracer where
  session : Session
  epoch : Nat
  slots : Fin 32 → ActionWord → Nat
  count : Nat
  phase : Phase
  drawn : Nat
  published : List Update

def Tracer.init : Tracer := ⟨.init,0,fun _ _ => 0,0,.idle,0,[]⟩

def nextCallActionEpoch (epoch : Nat) : Nat :=
  if (epoch + 1) % 2^64 = 0 then 1 else (epoch + 1) % 2^64

abbrev callActionSlotValid (slot : Int) : Prop := 0 ≤ slot ∧ slot < 32

def probeUsesCallSlot (s : Session) (owner : Fin 32) (slot : Int) : Bool :=
  (List.finRange 32).any fun i => i != owner && (s.probes i).probeId != 0 &&
    (s.probes i).callAction.enabled != 0 && (s.probes i).callActionSlot == slot

def homeSlot (id : Nat) : Fin 32 := ⟨id % 32,Nat.mod_lt _ (by decide)⟩

def callSlots (id : Nat) : List (Fin 32) :=
  (List.range 32).map fun offset => homeSlot (id % 32 + offset)

/- The old slot if nobody else took it, else the next free one from the home slot. -/
def assignCallActionSlot (s : Session) (i : Fin 32) : Session × Option (Fin 32) :=
  let p := s.probes i
  let search (s : Session) : Session × Option (Fin 32) :=
    match (callSlots p.probeId).find? fun slot => !probeUsesCallSlot s i slot.val with
    | some slot => (s.set i { s.probes i with callActionSlot := slot.val },some slot)
    | none => (s,none)
  if h : callActionSlotValid p.callActionSlot then
    if probeUsesCallSlot s i p.callActionSlot then search (s.set i { p with callActionSlot := -1 })
    else (s,some ⟨p.callActionSlot.toNat,slotInRange h⟩)
  else search s

def updateProbeCallActionArgs (t : Tracer) (id : Nat) (symbol : Name) (callee : Option Nat)
    (args : List CallArg)
    (order : List ActionWord) : Tracer :=
  if id = 0 || !validateCallActionArgs args then t else
    match probeFindById t.session id with
    | none => t
    | some i => match callee with
      | none => t
      | some addr => match assignCallActionSlot t.session i with
        | (s,none) => { t with session := s }
        | (s,some slot) =>
          let u : Update := ⟨nextCallActionEpoch t.epoch,id,addr,args⟩
          { t with
            session := s.set i { s.probes i
              with callAction := u.action, callSymbol := symbol.take (probeSymbolMax - 1) }
            epoch := u.epoch
            drawn := t.drawn + 1
            phase := .disabling slot i (some u) order }

def clearProbeCallAction (t : Tracer) (id : Nat) (order : List ActionWord) : Tracer :=
  match probeFindById t.session id with
  | none => t
  | some i =>
    let p := t.session.probes i
    let s := t.session.set i { p with callAction := .zero, callSymbol := [] }
    if h : callActionSlotValid p.callActionSlot then
      { t with session := s, phase := .disabling ⟨p.callActionSlot.toNat,
        slotInRange h⟩ i none order }
    else if 0 ≤ p.callActionSlot then { t with session := s }
    else { t with
      session := s.set i { s.probes i with callActionSlot := -1 }
      phase := .counting }

def countCallActions (s : Session) : Nat :=
  ((List.finRange 32).filter fun i => (s.probes i).probeId != 0 &&
    (s.probes i).callAction.enabled != 0).length

def Tracer.storeWord (t : Tracer) (slot : Fin 32) (w : ActionWord) (v : Nat) : Tracer :=
  { t with slots := Function.update t.slots slot (Function.update (t.slots slot) w v) }

/- The staged copy: the new action with its enabled word zero. -/
def stagedWord (update : Option Update) (w : ActionWord) : Nat :=
  if w = .enabled then 0 else actionWord (update.elim CallAction.zero Update.action) w

inductive Act where
  | register (name : Name) (lookup : Option (Name × Nat))
  | unregister (id : Nat)
  | update (id : Nat) (symbol : Name) (callee : Option Nat) (args : List CallArg)
      (order : List ActionWord)
  | clear (id : Nat) (order : List ActionWord)
  | store
  | fail

/- The staged words go out in any order, some of them twice, but all of them. -/
def Complete (order : List ActionWord) : Prop := ∀ w, w ∈ order

instance (order : List ActionWord) : Decidable (Complete order) :=
  decidable_of_iff (∀ w ∈ ActionWord.all, w ∈ order)
    ⟨fun h w => h w (by cases w <;> simp [ActionWord.all]),fun h w _ => h w⟩

def step (t : Tracer) (a : Act) : Option Tracer := match a,t.phase with
  | .register name lookup,.idle =>
      some { t with session := (registerProbe t.session name lookup).1 }
  | .unregister id,.idle => some { t with session := (unregisterProbe t.session id).1 }
  | .update id symbol callee args order,.idle =>
    if Complete order then some (updateProbeCallActionArgs t id symbol callee args order) else none
  | .clear id order,.idle => if Complete order then some (clearProbeCallAction t id order) else none
  | .store,.disabling slot i update order =>
    some { t.storeWord slot .enabled 0 with phase := .staging slot i update order }
  | .store,.staging slot i update (w::todo) =>
    some { t.storeWord slot w (stagedWord update w) with phase := .staging slot i update todo }
  | .store,.staging slot _ (some u) [] =>
    some { t.storeWord slot .enabled u.epoch with
        phase := .counting, published := t.published ++ [u] }
  | .store,.staging _ i none [] =>
    some { t with session :=
      t.session.set i { t.session.probes i with callActionSlot := -1 }, phase := .counting }
  | .store,.counting => some { t with count := countCallActions t.session, phase := .idle }
  | .fail,.disabling .. | .fail,.staging .. | .fail,.counting => some { t with phase := .idle }
  | _,_ => none

inductive ActionLoc where
  | magic
  | count
  | word (slot : Fin 32) (w : ActionWord)

abbrev Copy := Program ActionLoc Nat

def snapshotWords : List ActionWord :=
  [.calleeAddr,.probeId,.argCount] ++ (List.finRange 6).flatMap fun i => [.argKind i,.argValue i]

def copyWords (slot : Fin 32) : List ActionWord → (ActionWord → Nat) → Copy (ActionWord → Nat)
  | [],copy => .done copy
  | w::rest,copy => .load (.word slot w) fun v => copyWords slot rest (Function.update copy w v)

def snapshotOf (enabled : Nat) (copy : ActionWord → Nat) : CallAction :=
  ⟨enabled,copy .probeId,copy .calleeAddr,copy .argCount,
    fun i => ⟨copy (.argKind i),copy (.argValue i)⟩⟩

def copyCallActionIfMatch (slot : Fin 32) (id : Nat) : Copy (Option CallAction) :=
  .load (.word slot .enabled) fun enabled =>
    if enabled = 0 then .done none else do
      let copy ← copyWords slot snapshotWords (fun _ => 0)
      .load (.word slot .enabled) fun again =>
        if again ≠ enabled ∨ copy .probeId ≠ id ∨ copy .calleeAddr = 0 ∨
          callActionArgCap < copy .argCount
        then .done none
        else .done (some (snapshotOf again copy))

def findInSlots (id : Nat) : List (Fin 32) → Copy (Option CallAction)
  | [] => .done none
  | slot::rest => do
    match ← copyCallActionIfMatch slot id with
    | some a => .done (some a)
    | none => findInSlots id rest

def findCallAction (id : Nat) : Copy (Option CallAction) :=
  .load .magic fun magic =>
    if magic ≠ TraceBuffer.bufferMagic then .done none else
      .load .count fun count =>
        if count = 0 ∨ id = 0 then .done none
        else findInSlots id (homeSlot id :: (List.finRange 32).filter (· ≠ homeSlot id))

def Tracer.word (t : Tracer) : ActionLoc → Nat
  | .magic => TraceBuffer.bufferMagic
  | .count => t.count
  | .word slot w => t.slots slot w

/-! A slot with a non-zero enabled word is one published update, and the epoch in the
word is on no other. -/
def Few (t : Tracer) : Act → Prop
  | .update .. => t.drawn + 1 < 2^64
  | _ => True

def Moves (t t' : Tracer) : Prop := ∃ a, Few t a ∧ step t a = some t'

/- The update that is being written has the latest epoch, and it is not out yet. -/
def Pending (t : Tracer) (update : Option Update) : Prop :=
  ∀ u, update = some u → u.epoch = t.drawn ∧ 0 < t.drawn ∧ ∀ v ∈ t.published, v.epoch < t.drawn

def PhaseInv (t : Tracer) : Phase → Prop
  | .idle | .counting => True
  | .disabling _ _ update order => Pending t update ∧ Complete order
  | .staging slot _ update todo => Pending t update ∧ t.slots slot .enabled = 0 ∧
      ∀ w, w ∉ todo → t.slots slot w = stagedWord update w

structure Inv (t : Tracer) : Prop where
  counted : t.epoch = t.drawn ∧ t.drawn < 2^64
  numbered : ∀ u ∈ t.published, 0 < u.epoch ∧ u.epoch ≤ t.drawn
  single : ∀ u ∈ t.published, ∀ v ∈ t.published, u.epoch = v.epoch → u = v
  live : ∀ c, t.slots c .enabled ≠ 0 → ∃ u ∈ t.published, ∀ w, t.slots c w = actionWord u.action w
  phase : PhaseInv t t.phase

theorem initInv : Inv Tracer.init where
  counted := ⟨rfl,by decide⟩
  numbered := by simp [Tracer.init]
  single := by simp [Tracer.init]
  live := by simp [Tracer.init]
  phase := trivial

theorem epochDrawn {t : Tracer} (h : Inv t) (few : t.drawn + 1 < 2^64) :
    nextCallActionEpoch t.epoch = t.drawn + 1 := by
  rw [nextCallActionEpoch,h.counted.1,Nat.mod_eq_of_lt few]
  exact if_neg (Nat.succ_ne_zero _)

theorem sameShared {t t' : Tracer} (h : Inv t) (epoch : t'.epoch = t.epoch)
    (drawn : t'.drawn = t.drawn)
    (slots : t'.slots = t.slots) (published : t'.published = t.published)
    (phase : PhaseInv t' t'.phase) : Inv t' where
  counted := by rw [epoch,drawn]; exact h.counted
  numbered := by rw [drawn,published]; exact h.numbered
  single := by rw [published]; exact h.single
  live := by rw [slots,published]; exact h.live
  phase := phase

theorem updateInv {t id symbol callee args order} (h : Inv t) (few : t.drawn + 1 <
    2^64) (complete : Complete order)
    (idle : t.phase = .idle) : Inv (updateProbeCallActionArgs t id symbol callee args order) := by
  have kept : ∀ s, Inv { t with session := s } := fun s =>
    sameShared h rfl rfl rfl rfl (by simp only [idle]; trivial)
  unfold updateProbeCallActionArgs
  split
  · exact h
  · split
    · exact h
    · split
      · exact h
      · split
        · exact kept _
        · next i _ addr _ s slot _ =>
          have next := epochDrawn h few
          refine ⟨⟨next,few⟩,fun u member => ?_,h.single,h.live,?_,complete⟩
          · obtain ⟨pos,low⟩ := h.numbered u member
            exact ⟨pos,Nat.le_succ_of_le low⟩
          · intro u here
            cases here
            exact ⟨next,Nat.succ_pos _,fun v member => Nat.lt_succ_of_le (h.numbered v member).2⟩

theorem clearInv {t id order} (h : Inv t) (complete : Complete order) (idle : t.phase = .idle) :
    Inv (clearProbeCallAction t id order) := by
  unfold clearProbeCallAction
  split
  · exact h
  · dsimp only
    split
    · have pending : Pending t none := by intro u here; cases here
      exact sameShared h rfl rfl rfl rfl ⟨pending,complete⟩
    · split
      · exact sameShared h rfl rfl rfl rfl (by simp only [idle]; trivial)
      · exact sameShared h rfl rfl rfl rfl trivial

theorem stagedEnabled (update : Option Update) : stagedWord update .enabled = 0 := rfl

theorem stagedOther {u : Update} {w : ActionWord} (other : w ≠ .enabled) :
    stagedWord (some u) w = actionWord u.action w := by
  simp [stagedWord,other]

/- A store into a slot whose enabled word ends up zero leaves the live slots alone. -/
theorem storeLive {t : Tracer} {slot w v} (h : Inv t)
    (zero : Function.update (t.slots slot) w v .enabled = 0) :
    ∀ c, (t.storeWord slot w v).slots c .enabled ≠ 0 →
      ∃ u ∈ t.published, ∀ x, (t.storeWord slot w v).slots c x = actionWord u.action x := by
  intro c live
  by_cases here : c = slot
  · subst here
    exact absurd (by simpa [Tracer.storeWord] using zero) live
  · simpa [Tracer.storeWord,here] using h.live c (by simpa [Tracer.storeWord,here] using live)

theorem disableInv {t slot i update order} (h : Inv t)
    (at_ : t.phase = .disabling slot i update order) :
    Inv { t.storeWord slot .enabled 0 with phase := .staging slot i update order } := by
  have now := h.phase
  rw [at_] at now
  refine ⟨h.counted,h.numbered,h.single,storeLive h (by simp),now.1,by simp [Tracer.storeWord],
    fun w out => ?_⟩
  exact absurd (now.2 w) out

theorem stageInv {t slot i update w todo} (h : Inv t)
    (at_ : t.phase = .staging slot i update (w::todo)) :
    Inv { t.storeWord slot w (stagedWord update w) with phase := .staging slot i update todo } := by
  have now := h.phase
  rw [at_] at now
  obtain ⟨pending,zero,staged⟩ := now
  have still : Function.update (t.slots slot) w (stagedWord update w) .enabled = 0 := by
    by_cases same : w = .enabled
    · subst same; simp [stagedEnabled]
    · simpa [Function.update_of_ne (Ne.symm same)] using zero
  refine ⟨h.counted,h.numbered,h.single,storeLive h still,pending,
    by simpa [Tracer.storeWord] using still,?_⟩
  intro x out
  by_cases same : x = w
  · subst same; simp [Tracer.storeWord]
  · simpa [Tracer.storeWord,same] using staged x (by simp [same,out])

theorem publishInv {t slot i u} (h : Inv t) (at_ : t.phase = .staging slot i (some u) []) :
    Inv { t.storeWord slot .enabled u.epoch
      with phase := .counting, published := t.published ++ [u] } := by
  have now := h.phase
  rw [at_] at now
  obtain ⟨pending,zero,staged⟩ := now
  obtain ⟨latest,pos,earlier⟩ := pending u rfl
  refine ⟨h.counted,?_,?_,?_,trivial⟩
  · intro v member
    rcases List.mem_append.mp member with old | new
    · exact h.numbered v old
    · cases List.mem_singleton.mp new
      exact ⟨latest ▸ pos,Nat.le_of_eq latest⟩
  · intro v hv w hw same
    rcases List.mem_append.mp hv with old | new <;> rcases List.mem_append.mp hw with old' | new'
    · exact h.single v old w old' same
    · cases List.mem_singleton.mp new'
      have low := earlier v old
      omega
    · cases List.mem_singleton.mp new
      have low := earlier w old'
      omega
    · exact (List.mem_singleton.mp new).trans (List.mem_singleton.mp new').symm
  · intro c live
    by_cases here : c = slot
    · subst here
      refine ⟨u,by simp,fun w => ?_⟩
      by_cases same : w = .enabled
      · subst same; simp [Tracer.storeWord,actionWord,Update.action]
      · simpa [Tracer.storeWord,same,stagedOther same] using staged w (by simp)
    · obtain ⟨v,member,words⟩ := h.live c (by simpa [Tracer.storeWord,here] using live)
      exact ⟨v,List.mem_append_left _ member,by simpa [Tracer.storeWord,here] using words⟩

theorem stepInv {t a t'} (h : Inv t) (few : Few t a) (ok : step t a = some t') : Inv t' := by
  unfold step at ok
  split at ok <;> try split at ok
  all_goals try (cases ok; done)
  all_goals obtain rfl := Option.some.inj ok
  · next idle => exact sameShared h rfl rfl rfl rfl (by simp only [idle]; trivial)
  · next idle => exact sameShared h rfl rfl rfl rfl (by simp only [idle]; trivial)
  · next idle complete => exact updateInv h few complete idle
  · next idle complete => exact clearInv h complete idle
  · next at_ => exact disableInv h at_
  · next at_ => exact stageInv h at_
  · next at_ => exact publishInv h at_
  all_goals exact sameShared h rfl rfl rfl rfl trivial

theorem invStable : Stable Moves Inv := by
  intro t t' h move
  obtain ⟨a,few,ok⟩ := move
  exact stepInv h few ok

/- What one step can do to the words the payload reads: publish an update with a new
epoch, and put into an enabled word only zero or that epoch. -/
structure Shared (t t' : Tracer) : Prop where
  grows : ∃ more, t'.published = t.published ++ more ∧
    ∀ u ∈ more, ∀ v ∈ t.published, v.epoch < u.epoch
  stamps : ∀ c, t'.slots c .enabled = t.slots c .enabled ∨ t'.slots c .enabled = 0 ∨
    ∀ v ∈ t.published, v.epoch < t'.slots c .enabled

theorem sharedSame {t t' : Tracer} (slots : t'.slots = t.slots)
    (published : t'.published = t.published) :
    Shared t t' := ⟨⟨[],by simp [published],by simp⟩,fun c => .inl (by rw [slots])⟩

theorem sharedStore {t t' : Tracer} {slot w v} (slots : t'.slots = (t.storeWord slot w v).slots)
    (published : t'.published = t.published) (zero : w = .enabled → v = 0) : Shared t t' := by
  refine ⟨⟨[],by simp [published],by simp⟩,fun c => ?_⟩
  rw [slots]
  by_cases here : c = slot
  · subst here
    by_cases same : w = .enabled
    · subst same; exact .inr (.inl (by simp [Tracer.storeWord,zero]))
    · exact .inl (by simp [Tracer.storeWord,Function.update_of_ne (Ne.symm same)])
  · exact .inl (by simp [Tracer.storeWord,here])

theorem sharedUpdate {t id symbol callee args order} :
    Shared t (updateProbeCallActionArgs t id symbol callee args order) := by
  unfold updateProbeCallActionArgs
  split
  · exact sharedSame rfl rfl
  · split
    · exact sharedSame rfl rfl
    · split
      · exact sharedSame rfl rfl
      · split <;> exact sharedSame rfl rfl

theorem sharedClear {t id order} : Shared t (clearProbeCallAction t id order) := by
  unfold clearProbeCallAction
  split
  · exact sharedSame rfl rfl
  · dsimp only
    split
    · exact sharedSame rfl rfl
    · split <;> exact sharedSame rfl rfl

theorem sharedStep {t a t'} (h : Inv t) (ok : step t a = some t') : Shared t t' := by
  unfold step at ok
  split at ok <;> try split at ok
  all_goals try (cases ok; done)
  all_goals obtain rfl := Option.some.inj ok
  · exact sharedSame rfl rfl
  · exact sharedSame rfl rfl
  · exact sharedUpdate
  · exact sharedClear
  · exact sharedStore rfl rfl (fun _ => rfl)
  · exact sharedStore rfl rfl (fun same => by rw [same]; rfl)
  · next slot i u at_ =>
    have now := h.phase
    rw [at_] at now
    obtain ⟨latest,_,earlier⟩ := now.1 u rfl
    refine ⟨⟨[u],rfl,fun v new => ?_⟩,fun c => ?_⟩
    · cases List.mem_singleton.mp new
      rw [latest]
      exact earlier
    · by_cases here : c = slot
      · subst here
        refine .inr (.inr ?_)
        simpa [Tracer.storeWord,latest] using earlier
      · exact .inl (by simp [Tracer.storeWord,here])
  all_goals exact sharedSame rfl rfl

def actionCells : Stamped Tracer (Fin 32) ActionWord Nat where
  stamp t c := t.slots c .enabled
  word t c w := t.slots c w
  Issued t _ v := ∃ u ∈ t.published, u.epoch = v
  Content t _ v w x := ∀ u ∈ t.published, u.epoch = v → x = actionWord u.action w

theorem liveUpdate {t : Tracer} {c} (h : Inv t) (live : t.slots c .enabled ≠ 0) :
    ∃ u ∈ t.published, u.epoch = t.slots c .enabled ∧ ∀ w, t.slots c w = actionWord u.action w := by
  obtain ⟨u,member,words⟩ := h.live c live
  exact ⟨u,member,(words .enabled).symm,words⟩

theorem actionLaw : actionCells.Law Moves Inv where
  issued t c h live := by
    obtain ⟨u,member,same,_⟩ := liveUpdate h live
    exact ⟨u,member,same⟩
  content t c w h live u member same := by
    obtain ⟨v,inside,epoch,words⟩ := liveUpdate h live
    cases h.single u member v inside (same.trans epoch.symm)
    exact words w
  issuedStays t t' c v h move issued := by
    obtain ⟨a,_,ok⟩ := move
    obtain ⟨u,member,same⟩ := issued
    obtain ⟨more,grown,_⟩ := (sharedStep h ok).grows
    exact ⟨u,by rw [grown]; exact List.mem_append_left _ member,same⟩
  contentStays t t' c v w x h move issued good u member same := by
    obtain ⟨a,_,ok⟩ := move
    obtain ⟨u',inside,epoch⟩ := issued
    obtain ⟨more,grown,later⟩ := (sharedStep h ok).grows
    rw [grown] at member
    rcases List.mem_append.mp member with old | new
    · exact good u old same
    · have apart := later u new u' inside
      omega
  noReturn t t' c v h move live issued now := by
    obtain ⟨a,_,ok⟩ := move
    obtain ⟨u,inside,epoch⟩ := issued
    rcases (sharedStep h ok).stamps c with same | zero | later
    · exact same.symm.trans now
    · exact absurd (now.symm.trans zero) live
    · have apart := later u inside
      simp only [actionCells] at now
      omega

/-! A copy that the payload accepts. -/
def remoteAnswer (t : Tracer) (l : ActionLoc) (v : Nat) : Prop := v = t.word l

def Accepted (t : Tracer) (id : Nat) (a : CallAction) : Prop :=
  ∃ u ∈ t.published, u.probeId = id ∧ a = u.action

theorem acceptedStable (id a) : Stable Moves (fun t => Inv t ∧ Accepted t id a) := by
  intro t t' now move
  obtain ⟨h,u,member,same⟩ := now
  refine ⟨invStable t t' h move,u,?_,same⟩
  obtain ⟨b,_,ok⟩ := move
  obtain ⟨more,grown,_⟩ := (sharedStep h ok).grows
  rw [grown]
  exact List.mem_append_left _ member

def Copied (slot : Fin 32) (v : Nat) (read : Set ActionWord) (copy : ActionWord → Nat)
    (t : Tracer) : Prop :=
  Inv t ∧ actionCells.Seen slot v read copy t

theorem copiedStable (slot v read copy) : Stable Moves (Copied slot v read copy) :=
  fun t t' now move => ⟨invStable t t' now.1 move,seenStays actionLaw now.1 move now.2⟩

theorem copyWordsSafe {t slot v read copy} (words : List ActionWord)
    (now : Copied slot v read copy t) :
    Safe Moves remoteAnswer (fun t copy => Copied slot v (read ∪ { w | w ∈ words }) copy t)
      (copyWords slot words copy) t := by
  induction words generalizing t read copy with
  | nil => exact safeDone (copiedStable slot v read copy) now fun t now => by simpa using now
  | cons w words ih =>
    refine safeLoad (copiedStable slot v read copy) now fun t x now answer => ?_
    subst answer
    have next : Copied slot v (insert w read) (Function.update copy w (t.word (.word slot w))) t :=
      ⟨now.1,seenWord actionLaw now.1 now.2 w⟩
    refine safeMono (fun t copy now => ?_) (ih next)
    have same : read ∪ { x | x ∈ w::words } = insert w read ∪ { x | x ∈ words } := by
      ext x
      simp only [Set.mem_union,Set.mem_ofPred_eq,List.mem_cons,Set.mem_insert_iff]
      tauto
    rwa [same]

def Answered (t : Tracer) (id : Nat) (r : Option CallAction) : Prop :=
  Inv t ∧ ∀ a, r = some a → Accepted t id a

theorem refusedSafe {t} (id : Nat) (h : Inv t) :
    Safe Moves remoteAnswer (Answered · id) (.done none) t :=
  safeDone invStable h fun _ now => ⟨now,fun _ none_ => by cases none_⟩

theorem snapshotAccepted {t slot v copy id}
    (now : Copied slot v (∅ ∪ { w | w ∈ snapshotWords }) copy t)
    (live : v ≠ 0) (still : t.slots slot .enabled = v) (mine : copy .probeId = id) :
    Accepted t id (snapshotOf v copy) := by
  obtain ⟨u,member,same⟩ := (now.2 live).1
  have good := seenLast now.2 live still
  have read : ∀ w, w ≠ .enabled → copy w = actionWord u.action w := by
    intro w other
    refine good w (.inr ?_) u member same
    cases w <;> simp_all [snapshotWords]
  refine ⟨u,member,?_,?_⟩
  · rw [← mine,read .probeId (by simp)]; rfl
  · simp only [snapshotOf,read .probeId (by simp),read .calleeAddr (by simp),
      read .argCount (by simp),← same]
    simp [actionWord,Update.action,read]

theorem copySafe {t} (slot : Fin 32) (id : Nat) (h : Inv t) :
    Safe Moves remoteAnswer (Answered · id) (copyCallActionIfMatch slot id) t := by
  refine safeLoad invStable h fun t v h answer => ?_
  subst answer
  split
  · exact refusedSafe id h
  · next live =>
    have first : Copied slot (t.slots slot .enabled) ∅ (fun _ => 0) t := ⟨h,seenFirst actionLaw h⟩
    refine safeBind (safeMono (fun t' copy now => ?_) (copyWordsSafe snapshotWords first))
    refine safeLoad (copiedStable _ _ _ _) now fun t'' again now answer => ?_
    subst answer
    split
    · exact refusedSafe id now.1
    · next match_ =>
      simp only [not_or,not_not] at match_
      obtain ⟨still,mine,_,_⟩ := match_
      rw [still]
      have accepted : Accepted t'' id _ := snapshotAccepted now live still mine
      refine safeDone (acceptedStable id _) ⟨now.1,accepted⟩ fun u later =>
        ⟨later.1,fun a here => ?_⟩
      cases here
      exact later.2

theorem findSafe {t} (id : Nat) (slots : List (Fin 32)) (h : Inv t) :
    Safe Moves remoteAnswer (Answered · id) (findInSlots id slots) t := by
  induction slots generalizing t with
  | nil => exact refusedSafe id h
  | cons slot slots ih =>
    refine safeBind (safeMono (fun t' r now => ?_) (copySafe slot id h))
    cases r with
    | none => exact ih now.1
    | some a =>
      refine safeDone (acceptedStable id a) ⟨now.1,now.2 a rfl⟩ fun u later =>
        ⟨later.1,fun b here => ?_⟩
      cases here
      exact later.2

theorem findCallActionSafe {t} (id : Nat) (h : Inv t) :
    Safe Moves remoteAnswer (Answered · id) (findCallAction id) t := by
  refine safeLoad invStable h fun t v h _ => ?_
  split
  · exact refusedSafe id h
  · refine safeLoad invStable h fun t v h _ => ?_
    split
    · exact refusedSafe id h
    · exact findSafe id _ h

def tagged (id : Nat) (p : Copy (Option CallAction)) : Copy (Nat × Option CallAction) :=
  p >>= fun r => .done (id,r)

def Copying (p : Copy (Nat × Option CallAction)) : Prop :=
  (∃ slot id, p = tagged id (copyCallActionIfMatch slot id)) ∨
    ∃ id, p = tagged id (findCallAction id)

abbrev Payload := System Tracer Nat ActionLoc Nat (Nat × Option CallAction)

def Payload.init : Payload := ⟨Tracer.init,fun _ => none⟩

abbrev Payload.Run : Payload → Payload → Prop :=
  ReflTransGen (System.Step Moves remoteAnswer Copying)

theorem taggedSafe {t id p} (safe : Safe Moves remoteAnswer (Answered · id) p t) :
    Safe Moves remoteAnswer (fun t r => ∀ a, r.2 = some a → Accepted t r.1 a) (tagged id p) t := by
  refine safeBind (safeMono (fun t' r now => ?_) safe)
  cases r with
  | none => exact fun u _ a none_ => by cases none_
  | some a =>
    refine safeDone (acceptedStable id a) ⟨now.1,now.2 a rfl⟩ fun u later b here => ?_
    cases here
    exact later.2

/-- A snapshot that a payload thread accepts for a probe id is one published update, all
of it, and that update was made for this probe id. -/
theorem acceptedActionPublished {c : Payload} (run : Payload.Run Payload.init c) {thread id a}
    (done : c.readers thread = some (.done (id,some a))) : ∃ u ∈ c.state.published, u.probeId = id ∧
      a = u.action := by
  have copies : ∀ p t, Copying p → Inv t →
      Safe Moves remoteAnswer (fun t r => ∀ a, r.2 = some a → Accepted t r.1 a) p t := by
    intro p t start h
    rcases start with ⟨slot,id,rfl⟩ | ⟨id,rfl⟩
    · exact taggedSafe (copySafe slot id h)
    · exact taggedSafe (findCallActionSafe id h)
  obtain ⟨_,all⟩ := systemResults invStable copies (c := Payload.init) initInv (fun _ => rfl) run
  exact safeNow (all thread _ done) a rfl

instance (t : Tracer) (a : Act) : Decidable (Few t a) := match a with
  | .update .. => inferInstanceAs (Decidable (_ < _))
  | .register .. | .unregister .. | .clear .. | .store | .fail => isTrue trivial

def runActs (t : Tracer) : List Act → Option Tracer
  | [] => some t
  | a::rest => if Few t a then (step t a).bind (runActs · rest) else none

theorem runActsMoves {t t' acts} (ran : runActs t acts = some t') : ReflTransGen Moves t t' := by
  induction acts generalizing t with
  | nil => cases ran; exact .refl
  | cons a acts ih =>
    simp only [runActs] at ran
    split at ran
    · next few =>
      obtain ⟨s,ok,rest⟩ := Option.bind_eq_some_iff.mp ran
      exact ReflTransGen.head ⟨a,few,ok⟩ (ih rest)
    · cases ran

def oneUpdate : List Act :=
  [.register ['f'] (some (['m'],4096)),.update 1 ['g'] (some 8192) [] ActionWord.all] ++
    List.replicate 18 .store

theorem oneUpdateAccepted : ∃ c : Payload, ∃ a,
    Payload.Run Payload.init c ∧ c.readers 0 = some (.done (1,some a)) ∧
    ∃ u ∈ c.state.published, u.probeId = 1 ∧ a = u.action := by
  obtain ⟨t,ran⟩ : ∃ t, runActs Tracer.init oneUpdate = some t := Option.isSome_iff_exists.mp rfl
  let copy := tagged 1 (copyCallActionIfMatch (homeSlot 1) 1)
  let begun : Payload := ⟨t,Function.update (fun _ => none) 0 (some copy)⟩
  have moves : Payload.Run Payload.init ⟨t,fun _ => none⟩ :=
    systemMoves (c := Payload.init) (runActsMoves ran)
  have started : Payload.Run Payload.init begun :=
    moves.tail (.start 0 copy (by simp) (.inl ⟨homeSlot 1,1,rfl⟩))
  have done : Payload.Run Payload.init _ := started.trans
    (systemEval (c := begun) (i := 0) (p := copy) t.word (by simp [begun]) (fun _ => rfl))
  have accepted : (copy.eval t.word).1 = 1 ∧ ((copy.eval t.word).2).isSome = true := by
    have all : (runActs Tracer.init oneUpdate).map
        (fun t => ((copy.eval t.word).1,((copy.eval t.word).2).isSome)) =
        some (1,true) := by decide
    rw [ran] at all
    simpa using all
  obtain ⟨a,found⟩ := Option.isSome_iff_exists.mp accepted.2
  have result : copy.eval t.word = (1,some a) := Prod.ext accepted.1 found
  rw [result] at done
  refine ⟨_,a,done,by simp,?_⟩
  exact @acceptedActionPublished _ done 0 1 a (by simp)

end ZeroTrace.CallActions
