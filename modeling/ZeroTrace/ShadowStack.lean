import Mathlib.Algebra.Group.Nat.Defs
import Mathlib.Data.List.Basic
import Mathlib.Logic.Function.Basic

/-! The stubs and handlers that run in the target, with the stack of saved return
addresses of each thread. A step is one call out of a stub, or one action of the probed
code; any thread may take the next step. A return slot is the stack word on x86_64 and
the link register on aarch64. How events get into the ring is modelled elsewhere: here
an event is recorded or it is not. -/
namespace ZeroTrace.ShadowStack

def maxSavedRetAddr : Nat := 256

inductive EventType where
  | entry | ret | call
  deriving DecidableEq, Repr

structure Event where
  tid : Nat
  type : EventType
  probeId : Nat
  callId : Nat
  deriving DecidableEq, Repr

structure SavedFrame where
  retAddr : Nat
  probeId : Nat
  callId : Nat
  deriving DecidableEq, Repr

structure Tls where
  savedFrames : Nat → SavedFrame
  callStackIdx : Nat
  lastCallId : Nat
  inCallAction : Bool

def saveProbeFrame (v : Tls) (retAddr funcId : Nat) : Tls × Nat :=
  if maxSavedRetAddr ≤ v.callStackIdx then (v,1) else
    ({ v with
      savedFrames := Function.update v.savedFrames v.callStackIdx ⟨retAddr,funcId,v.lastCallId⟩
      callStackIdx := v.callStackIdx + 1 },0)

def peekProbeId (v : Tls) : Nat :=
  if v.callStackIdx = 0 then 0 else (v.savedFrames (v.callStackIdx - 1)).probeId

def peekCallId (v : Tls) : Nat :=
  if v.callStackIdx = 0 then 0 else (v.savedFrames (v.callStackIdx - 1)).callId

def getRetAddr (v : Tls) : Tls × Nat :=
  if v.callStackIdx = 0 then (v,0)
  else ({ v with callStackIdx := v.callStackIdx - 1 },(v.savedFrames (v.callStackIdx - 1)).retAddr)

inductive ReturnSlot where
  | address (a : Nat) | exitStub
  deriving DecidableEq, Repr

/- How far a probed call is: in `entry_stub`, in the function, or in `exit_stub`. -/
inductive Phase where
  | entered | numbered | logged | acting | handled | framed | running | exiting | peeked | returned
  deriving DecidableEq, Repr

/- A probed call on the machine stack. `origin` is the return address it was made with;
no step reads it. -/
structure Frame where
  slot : ReturnSlot
  funcId : Nat
  callId : Nat
  phase : Phase
  recorded : Option Event
  origin : Nat

/- A history that no step reads: the call, where it was resumed, and its return event. -/
structure Exit where
  origin : Nat
  funcId : Nat
  callId : Nat
  resumed : Nat
  recorded : Option Event
  deriving DecidableEq, Repr

structure Thread where
  tls : Tls
  stack : List Frame
  context : Nat
  exits : List Exit

structure System where
  callIdSeq : Nat
  events : List Event
  threads : Nat → Thread

def System.set (s : System) (t : Nat) (th : Thread) : System :=
  { s with threads := Function.update s.threads t th }

inductive Step where
  | call (probe ret : Nat)
  | takeCallId
  | logEntry (reserved : Bool)
  | beginAction (found : Bool)
  | endAction (reserved : Bool)
  | saveFrame
  | redirect
  | ret
  | peekProbe
  | logReturn (reserved : Bool)
  | resume

/- Probed code can be called from ordinary code, from probed code and by a call action. -/
def canCall : List Frame → Bool
  | [] => true
  | f::_ => f.phase = .running || f.phase = .acting

def stepTop (s : System) (t : Nat) (f : Frame) (rest : List Frame) : Step → Option System
  | .takeCallId =>
    let th := s.threads t
    let id := (s.callIdSeq + 1) % 2^64
    if f.phase = .entered then
      some { s.set t { th with
          tls := { th.tls with lastCallId := id }
          stack := { f with callId := id, phase := .numbered }::rest } with callIdSeq := id }
    else none
  -- Without a slot in the ring `zt_handle_entry` ends here, before the call action.
  | .logEntry reserved =>
    let th := s.threads t
    if f.phase = .numbered then
      if reserved then
        some { s.set t { th with stack := { f with phase := .logged }::rest } with
          events := s.events ++ [⟨t,.entry,f.funcId,f.callId⟩] }
      else some (s.set t { th with stack := { f with phase := .handled }::rest })
    else none
  | .beginAction found =>
    let th := s.threads t
    if f.phase = .logged then
      if th.tls.inCallAction ||
        !found then some (s.set t { th with stack := { f with phase := .handled }::rest })
      else some (s.set t { th with
        tls := { th.tls with inCallAction := true }, stack := { f with phase := .acting }::rest })
    else none
  | .endAction reserved =>
    let th := s.threads t
    if f.phase = .acting then
      some { s.set t { th with
          tls := { th.tls with inCallAction := false }, stack :=
            { f with phase := .handled }::rest } with
        events := if reserved then s.events ++ [⟨t,.call,f.funcId,f.callId⟩] else s.events }
    else none
  | .saveFrame =>
    let th := s.threads t
    match f.phase,f.slot with
    | .handled,.address a =>
      some (s.set t { th with
          tls := (saveProbeFrame th.tls a f.funcId).1, stack := { f with phase := .framed }::rest })
    | _,_ => none
  -- The result of `save_probe_frame_c` is not looked at.
  | .redirect =>
    let th := s.threads t
    if f.phase = .framed then
      some (s.set t { th with stack := { f with slot := .exitStub, phase := .running }::rest })
    else none
  | .ret =>
    let th := s.threads t
    match f.phase,f.slot with
    | .running,.exitStub => some (s.set t { th with stack := { f with phase := .exiting }::rest })
    | _,_ => none
  | .peekProbe =>
    let th := s.threads t
    if f.phase = .exiting then
      some (s.set t { th
        with context := peekProbeId th.tls, stack := { f with phase := .peeked }::rest })
    else none
  | .logReturn reserved =>
    let th := s.threads t
    if f.phase = .peeked then
      let callId := peekCallId th.tls
      if callId ≠ 0 ∧ reserved then
        some { s.set t { th with
            stack := { f with phase := .returned, recorded := some ⟨t,.ret,th.context,
              callId⟩ }::rest } with
          events := s.events ++ [⟨t,.ret,th.context,callId⟩] }
      else some (s.set t { th with stack := { f with phase := .returned }::rest })
    else none
  | .resume =>
    let th := s.threads t
    if f.phase = .returned then
      some (s.set t { th with
        tls := (getRetAddr th.tls).1, stack := rest
        exits := th.exits ++ [⟨f.origin,f.funcId,f.callId,(getRetAddr th.tls).2,f.recorded⟩] })
    else none
  | .call _ _ => none

def step (s : System) (t : Nat) (a : Step) : Option System := match a with
  | .call probe ret =>
    let th := s.threads t
    if canCall th.stack then
      some (s.set t { th with stack := ⟨.address ret,probe,0,.entered,none,ret⟩::th.stack })
    else none
  | a => match (s.threads t).stack with
    | [] => none
    | f::rest => stepTop s t f rest a

/-! What a step does to its thread. -/

/- `save_probe_frame_c` has run for this call. -/
def Frame.saved (f : Frame) : Bool := match f.phase with
  | .framed | .running | .exiting | .peeked | .returned => true
  | _ => false

/- Everything a step can do: to the counter of call ids, to its thread and to the events. -/
inductive Does (t seq : Nat) (th : Thread) : Step → Nat → Thread → List Event → Prop where
  | call (probe ret : Nat) (can : canCall th.stack = true) :
      Does t seq th (.call probe ret)
        seq { th with stack := ⟨.address ret,probe,0,.entered,none,ret⟩::th.stack } []
  | number {f rest} (top : th.stack = f::rest) (phase : f.phase = .entered) :
      Does t seq th .takeCallId ((seq + 1) % 2^64) { th with
        tls := { th.tls with lastCallId := (seq + 1) % 2^64 }
        stack := { f with callId := (seq + 1) % 2^64, phase := .numbered }::rest } []
  | entry {f rest} (top : th.stack = f::rest) (phase : f.phase = .numbered) :
      Does t seq th (.logEntry true) seq { th with stack := { f with phase := .logged }::rest }
        [⟨t,.entry,f.funcId,f.callId⟩]
  | noEntry {f rest} (top : th.stack = f::rest) (phase : f.phase = .numbered) :
      Does t seq th (.logEntry false) seq { th with stack := { f with phase := .handled }::rest } []
  | noAction {f rest found} (top : th.stack = f::rest) (phase : f.phase = .logged) :
      Does t seq th (.beginAction found)
        seq { th with stack := { f with phase := .handled }::rest } []
  | action {f rest found} (top : th.stack = f::rest) (phase : f.phase = .logged) :
      Does t seq th (.beginAction found) seq { th with
        tls := { th.tls with inCallAction := true }, stack := { f with phase := .acting }::rest } []
  | acted {f rest reserved} (top : th.stack = f::rest) (phase : f.phase = .acting) :
      Does t seq th (.endAction reserved) seq { th with
        tls := { th.tls with inCallAction := false }, stack := { f with phase := .handled }::rest }
        (if reserved then [⟨t,.call,f.funcId,f.callId⟩] else [])
  | save {f rest a} (top : th.stack = f::rest) (phase : f.phase = .handled)
      (slot : f.slot = .address a) :
      Does t seq th .saveFrame seq
        { th with tls := (saveProbeFrame th.tls a f.funcId).1, stack :=
          { f with phase := .framed }::rest } []
  | redirect {f rest} (top : th.stack = f::rest) (phase : f.phase = .framed) :
      Does t seq th .redirect
        seq { th with stack := { f with slot := .exitStub, phase := .running }::rest } []
  | ret {f rest} (top : th.stack = f::rest) (phase : f.phase = .running) :
      Does t seq th .ret seq { th with stack := { f with phase := .exiting }::rest } []
  | peek {f rest} (top : th.stack = f::rest) (phase : f.phase = .exiting) :
      Does t seq th .peekProbe seq
        { th with context := peekProbeId th.tls, stack := { f with phase := .peeked }::rest } []
  | log {f rest reserved} (top : th.stack = f::rest) (phase : f.phase = .peeked) :
      Does t seq th (.logReturn reserved) seq { th with
        stack := { f with phase := .returned, recorded := some ⟨t,.ret,th.context,
          peekCallId th.tls⟩ }::rest }
        [⟨t,.ret,th.context,peekCallId th.tls⟩]
  | noLog {f rest reserved} (top : th.stack = f::rest) (phase : f.phase = .peeked) :
      Does t seq th (.logReturn reserved)
        seq { th with stack := { f with phase := .returned }::rest } []
  | resume {f rest} (top : th.stack = f::rest) (phase : f.phase = .returned) :
      Does t seq th .resume seq { th with
        tls := (getRetAddr th.tls).1, stack := rest
        exits := th.exits ++ [⟨f.origin,f.funcId,f.callId,(getRetAddr th.tls).2,f.recorded⟩] } []

def Did (s : System) (t : Nat) (a : Step) (s' : System) : Prop := ∃ th events, s'.threads =
    Function.update s.threads t th ∧
  s'.events = s.events ++ events ∧ Does t s.callIdSeq (s.threads t) a s'.callIdSeq th events

theorem noEvents (s : System) : s.events = s.events ++ [] := (List.append_nil _).symm

theorem topDid {s s' : System} {t f rest a} (top : (s.threads t).stack = f::rest) (h :
    stepTop s t f rest a = some s') :
    Did s t a s' := by
  cases a with
  | call => cases h
  | takeCallId =>
    simp only [stepTop] at h
    split at h
    · next phase => cases h; exact ⟨_,_,rfl,noEvents s,.number top phase⟩
    · cases h
  | logEntry reserved =>
    simp only [stepTop] at h
    split at h
    · next phase =>
      cases reserved with
      | true => cases h; exact ⟨_,_,rfl,rfl,.entry top phase⟩
      | false => cases h; exact ⟨_,_,rfl,noEvents s,.noEntry top phase⟩
    · cases h
  | beginAction found =>
    simp only [stepTop] at h
    split at h
    · next phase =>
      split at h
      · cases h; exact ⟨_,_,rfl,noEvents s,.noAction top phase⟩
      · cases h; exact ⟨_,_,rfl,noEvents s,.action top phase⟩
    · cases h
  | endAction reserved =>
    simp only [stepTop] at h
    split at h
    · next phase =>
      cases h
      exact ⟨_,_,rfl,by cases reserved <;> simp,.acted top phase⟩
    · cases h
  | saveFrame =>
    simp only [stepTop] at h
    split at h
    · next a phase slot => cases h; exact ⟨_,_,rfl,noEvents s,.save top phase slot⟩
    · cases h
  | redirect =>
    simp only [stepTop] at h
    split at h
    · next phase => cases h; exact ⟨_,_,rfl,noEvents s,.redirect top phase⟩
    · cases h
  | ret =>
    simp only [stepTop] at h
    split at h
    · next phase slot => cases h; exact ⟨_,_,rfl,noEvents s,.ret top phase⟩
    · cases h
  | peekProbe =>
    simp only [stepTop] at h
    split at h
    · next phase => cases h; exact ⟨_,_,rfl,noEvents s,.peek top phase⟩
    · cases h
  | logReturn reserved =>
    simp only [stepTop] at h
    split at h
    · next phase =>
      split at h
      · cases h; exact ⟨_,_,rfl,rfl,.log top phase⟩
      · cases h; exact ⟨_,_,rfl,noEvents s,.noLog top phase⟩
    · cases h
  | resume =>
    simp only [stepTop] at h
    split at h
    · next phase => cases h; exact ⟨_,_,rfl,noEvents s,.resume top phase⟩
    · cases h

theorem stepDid {s s' : System} {t a} (h : step s t a = some s') : Did s t a s' := by
  unfold step at h
  split at h
  · next probe ret =>
    dsimp only at h
    split at h
    · next can => cases h; exact ⟨_,_,rfl,noEvents s,.call probe ret can⟩
    · cases h
  · split at h
    · cases h
    · next f rest top => exact topDid top h

structure Onward (th : Thread) (f f' : Frame) (v : Tls) : Prop where
  saved : f'.saved = f.saved
  slot : f.saved = false → f'.slot = f.slot
  call : f'.funcId = f.funcId ∧ f'.origin = f.origin ∧ f'.recorded = f.recorded
  phase : f'.phase ≠ .peeked
  frames : v.savedFrames = th.tls.savedFrames ∧ v.callStackIdx = th.tls.callStackIdx

inductive Moves (t : Nat) (th : Thread) : Thread → Prop where
  | call (probe ret : Nat) (can : canCall th.stack = true) :
      Moves t th { th with stack := ⟨.address ret,probe,0,.entered,none,ret⟩::th.stack }
  | onward {f f' rest v} (top : th.stack = f::rest) (on : Onward th f f' v) :
      Moves t th { th with tls := v, stack := f'::rest }
  | save {f rest a} (top : th.stack = f::rest) (phase : f.phase = .handled)
      (slot : f.slot = .address a) :
      Moves t th { th with
          tls := (saveProbeFrame th.tls a f.funcId).1, stack := { f with phase := .framed }::rest }
  | peek {f rest} (top : th.stack = f::rest) (phase : f.phase = .exiting) :
      Moves t th { th with
          context := peekProbeId th.tls, stack := { f with phase := .peeked }::rest }
  | log {f rest} (top : th.stack = f::rest) (phase : f.phase = .peeked) :
      Moves t th { th with
        stack := { f with phase := .returned, recorded := some ⟨t,.ret,th.context,
          peekCallId th.tls⟩ }::rest }
  | resume {f rest} (top : th.stack = f::rest) (phase : f.phase = .returned) :
      Moves t th { th with
        tls := (getRetAddr th.tls).1, stack := rest
        exits := th.exits ++ [⟨f.origin,f.funcId,f.callId,(getRetAddr th.tls).2,f.recorded⟩] }

theorem onwardPhase {th f v id phase}
    (saved : ({ f with callId := id, phase := phase } : Frame).saved = f.saved)
    (other : phase ≠ .peeked)
    (frames : v.savedFrames = th.tls.savedFrames ∧ v.callStackIdx = th.tls.callStackIdx) :
    Onward th f { f with callId := id, phase := phase } v :=
  ⟨saved,fun _ => rfl,⟨rfl,rfl,rfl⟩,other,frames⟩

theorem stepMoves {s s' : System} {t a} (h : step s t a = some s') :
    ∃ th, s'.threads = Function.update s.threads t th ∧ Moves t (s.threads t) th := by
  obtain ⟨th,events,changed,_,does⟩ := stepDid h
  refine ⟨th,changed,?_⟩
  generalize s'.callIdSeq = seq at does
  cases does with
  | call probe ret can => exact .call probe ret can
  | save top phase slot => exact .save top phase slot
  | peek top phase => exact .peek top phase
  | log top phase => exact .log top phase
  | resume top phase => exact .resume top phase
  | redirect top phase =>
    exact .onward top ⟨by simp [Frame.saved,phase],by simp [Frame.saved,phase],⟨rfl,rfl,rfl⟩,
      by simp,rfl,rfl⟩
  | number top phase | entry top phase | noEntry top phase | noAction top phase | action top phase | acted top phase | ret top phase
    | noLog top phase =>
        exact .onward top (onwardPhase (by simp [Frame.saved,phase]) (by simp) ⟨rfl,rfl⟩)

/-! The saved frames mirror the machine stack. -/

/- From the topmost call down, each call with a saved frame has the next frame of the
array, and below all of them lie the frames the thread started with. -/
def Mirrors (saved : Nat → SavedFrame) (base : Nat) : List Frame → Nat → Prop
  | [],idx => idx = base
  | f::rest,idx => if f.saved
      then ∃ k, idx = k + 1 ∧ (saved k).retAddr = f.origin ∧ (saved k).probeId = f.funcId ∧
        Mirrors saved base rest k
      else Mirrors saved base rest idx

theorem mirrorsBelow {saved saved' : Nat → SavedFrame} {base stack idx}
    (same : ∀ k, k < idx → saved' k = saved k)
    (h : Mirrors saved base stack idx) : Mirrors saved' base stack idx := by
  induction stack generalizing idx with
  | nil => exact h
  | cons f rest ih =>
    unfold Mirrors at h ⊢
    split at h
    · next framed =>
      rw [if_pos framed]
      obtain ⟨k,top,addr,probe,below⟩ := h
      have here := same k (by omega)
      exact ⟨k,top,by rw [here]; exact addr,by rw [here]; exact probe,
        ih (fun j low => same j (by omega)) below⟩
    · next open_ =>
      rw [if_neg open_]
      exact ih same h

theorem mirrorsHeight {saved : Nat → SavedFrame} {base stack idx}
    (h : Mirrors saved base stack idx) :
    idx ≤ base + stack.length := by
  induction stack generalizing idx with
  | nil => exact Nat.le_of_eq h
  | cons f rest ih =>
    unfold Mirrors at h
    simp only [List.length_cons]
    split at h
    · obtain ⟨k,top,_,_,below⟩ := h
      have := ih below
      omega
    · have := ih h
      omega

/- Only the saving, the function and the origin of the topmost call count. -/
theorem mirrorsTop {saved : Nat → SavedFrame} {base f f' rest idx}
    (h : Mirrors saved base (f::rest) idx)
    (framed : f'.saved = f.saved) (call : f'.funcId = f.funcId ∧ f'.origin = f.origin) :
    Mirrors saved base (f'::rest) idx := by
  unfold Mirrors at h ⊢
  rw [framed,call.1,call.2]
  exact h

structure Good (base : Nat) (th : Thread) : Prop where
  mirrors : Mirrors th.tls.savedFrames base th.stack th.tls.callStackIdx
  slots : ∀ f ∈ th.stack, f.saved = false → f.slot = .address f.origin
  waiting : ∀ f ∈ th.stack.tail, f.phase = .running ∨ f.phase = .acting
  context : ∀ f rest, th.stack = f::rest → f.phase = .peeked → th.context = f.funcId
  recorded : ∀ f ∈ th.stack, ∀ e, f.recorded = some e → e.probeId = f.funcId
  exits : ∀ e ∈ th.exits, e.resumed = e.origin ∧ ∀ r, e.recorded = some r → r.probeId = e.funcId

theorem goodCall {base th} (probe ret : Nat) (h : Good base th) (can : canCall th.stack = true) :
    Good base { th with stack := ⟨.address ret,probe,0,.entered,none,ret⟩::th.stack } where
  mirrors := h.mirrors
  slots := by
    intro f member unsaved
    rcases List.mem_cons.mp member with rfl | old
    · rfl
    · exact h.slots f old unsaved
  waiting := by
    intro f member
    have old : f ∈ th.stack := member
    cases stack : th.stack with
    | nil => rw [stack] at old; cases old
    | cons g rest =>
      rw [stack] at old can
      rcases List.mem_cons.mp old with rfl | low
      · simpa [canCall] using can
      · exact h.waiting f (by rw [stack]; exact low)
  context := by
    intro f rest same peeked
    cases same
    cases peeked
  recorded := by
    intro f member e found
    rcases List.mem_cons.mp member with rfl | old
    · cases found
    · exact h.recorded f old e found
  exits := h.exits

theorem goodTop {base th f f' rest v context} (h : Good base th) (top : th.stack = f::rest)
    (mirrors : Mirrors v.savedFrames base (f'::rest) v.callStackIdx)
    (slot : f'.saved = false → f'.slot = .address f'.origin)
    (peeked : f'.phase = .peeked → context = f'.funcId)
    (recorded : ∀ e, f'.recorded = some e → e.probeId = f'.funcId) :
    Good base { th with tls := v, context := context, stack := f'::rest } where
  mirrors := mirrors
  slots := by
    intro g member unsaved
    rcases List.mem_cons.mp member with rfl | old
    · exact slot unsaved
    · exact h.slots g (by rw [top]; exact .tail _ old) unsaved
  waiting := fun g member => h.waiting g (by rw [top]; exact member)
  context := by
    intro g below same
    cases same
    exact peeked
  recorded := by
    intro g member
    rcases List.mem_cons.mp member with rfl | old
    · exact recorded
    · exact h.recorded g (by rw [top]; exact .tail _ old)
  exits := h.exits

theorem topRecorded {base th f rest} (h : Good base th) (top : th.stack = f::rest) :
    ∀ e, f.recorded = some e → e.probeId = f.funcId := h.recorded f (by rw [top]; exact .head _)

theorem topSlot {base th f rest} (h : Good base th) (top : th.stack = f::rest)
    (unsaved : f.saved = false) :
    f.slot = .address f.origin := h.slots f (by rw [top]; exact .head _) unsaved

theorem topFrame {base th f rest} (h : Good base th) (top : th.stack = f::rest)
    (framed : f.saved = true) :
    ∃ k, th.tls.callStackIdx = k + 1 ∧ (th.tls.savedFrames k).retAddr = f.origin ∧
      (th.tls.savedFrames k).probeId = f.funcId ∧ Mirrors th.tls.savedFrames base rest k := by
  have mirrors := h.mirrors
  rw [top] at mirrors
  unfold Mirrors at mirrors
  rwa [if_pos framed] at mirrors

theorem goodOnward {base th f f' rest v} (h : Good base th) (top : th.stack = f::rest)
    (on : Onward th f f' v) :
    Good base { th with tls := v, stack := f'::rest } := by
  have mirrors := h.mirrors
  rw [top] at mirrors
  refine goodTop h top ?_ (fun unsaved => ?_) (fun peeked => absurd peeked on.phase)
    fun e found => ?_
  · rw [on.frames.1,on.frames.2]
    exact mirrorsTop mirrors on.saved ⟨on.call.1,on.call.2.1⟩
  · have before := on.saved.symm.trans unsaved
    rw [on.slot before,on.call.2.1]
    exact topSlot h top before
  · rw [on.call.1]
    exact topRecorded h top e (on.call.2.2.symm.trans found)

theorem goodSave {base th f rest a} (h : Good base th) (top : th.stack = f::rest)
    (phase : f.phase = .handled)
    (slot : f.slot = .address a) (free : th.tls.callStackIdx < maxSavedRetAddr) :
    Good base { th with tls := (saveProbeFrame th.tls a f.funcId).1, stack :=
  { f with phase := .framed }::rest } := by
  have unsaved : f.saved = false := by simp [Frame.saved,phase]
  have origin : a = f.origin := by
    have same := slot.symm.trans (topSlot h top unsaved)
    cases same
    rfl
  have mirrors := h.mirrors
  rw [top] at mirrors
  unfold Mirrors at mirrors
  rw [if_neg (by simp [unsaved])] at mirrors
  have recorded := topRecorded h top
  refine goodTop h top ?_ (by simp [Frame.saved]) (by simp) recorded
  unfold saveProbeFrame
  rw [if_neg (Nat.not_le_of_lt free)]
  have framed : ({ f with phase := .framed } : Frame).saved = true := rfl
  unfold Mirrors
  rw [if_pos framed]
  refine ⟨th.tls.callStackIdx,rfl,by simp [origin],by simp,mirrorsBelow (fun k low => ?_) mirrors⟩
  exact Function.update_of_ne (Nat.ne_of_lt low) _ _

theorem goodPeek {base th f rest} (h : Good base th) (top : th.stack = f::rest)
    (phase : f.phase = .exiting) :
    Good base { th with context := peekProbeId th.tls, stack := { f with phase := .peeked }::rest
      } := by
  have framed : f.saved = true := by simp [Frame.saved,phase]
  obtain ⟨k,idx,_,probe,_⟩ := topFrame h top framed
  have recorded := topRecorded h top
  have mirrors := h.mirrors
  rw [top] at mirrors
  refine goodTop h top (mirrorsTop mirrors (by simp [Frame.saved,phase]) ⟨rfl,rfl⟩)
    (by simp [Frame.saved])
    (fun _ => ?_) recorded
  simp [peekProbeId,idx,probe]

theorem goodLog {base th f rest t} (h : Good base th) (top : th.stack = f::rest)
    (phase : f.phase = .peeked) :
    Good base { th with
      stack := { f with phase := .returned, recorded := some ⟨t,.ret,th.context,
        peekCallId th.tls⟩ }::rest } := by
  have mirrors := h.mirrors
  rw [top] at mirrors
  refine goodTop h top (mirrorsTop mirrors (by simp [Frame.saved,phase]) ⟨rfl,rfl⟩)
    (by simp [Frame.saved]) (by simp)
    fun e found => ?_
  cases found
  exact h.context f rest top phase

theorem goodResume {base th f rest} (h : Good base th) (top : th.stack = f::rest)
    (phase : f.phase = .returned) :
    Good base { th with
      tls := (getRetAddr th.tls).1, stack := rest
      exits := th.exits ++ [⟨f.origin,f.funcId,f.callId,(getRetAddr th.tls).2,f.recorded⟩] } := by
  have framed : f.saved = true := by simp [Frame.saved,phase]
  obtain ⟨k,idx,addr,_,below⟩ := topFrame h top framed
  have waiting : ∀ g ∈ rest, g.phase = .running ∨ g.phase = .acting := fun g member =>
    h.waiting g (by rw [top]; exact member)
  have inside : ∀ g ∈ rest, g ∈ th.stack := fun g member => by rw [top]; exact .tail _ member
  have back : getRetAddr th.tls = ({ th.tls with callStackIdx := k },f.origin) := by
    simp [getRetAddr,idx,addr]
  rw [back]
  refine ⟨below,fun g member => h.slots g (inside g member),
    fun g member => waiting g (List.mem_of_mem_tail member),
    fun g lower same peeked => ?_,fun g member => h.recorded g (inside g member),fun e member => ?_⟩
  · have member : g ∈ rest := by rw [show rest = _ from same]; exact .head _
    rcases waiting g member with bad | bad <;> rw [bad] at peeked <;> cases peeked
  · rcases List.mem_append.mp member with old | new
    · exact h.exits e old
    · cases List.mem_singleton.mp new
      exact ⟨rfl,topRecorded h top⟩

def Roomy (th : Thread) : Prop := ∀ f rest, th.stack = f::rest → f.phase = .handled →
    th.tls.callStackIdx < maxSavedRetAddr

theorem goodMoves {base t th th'} (h : Good base th) (free : Roomy th) (moves : Moves t th th') :
    Good base th' := by
  cases moves with
  | call probe ret can => exact goodCall probe ret h can
  | onward top on => exact goodOnward h top on
  | save top phase slot => exact goodSave h top phase slot (free _ _ top phase)
  | peek top phase => exact goodPeek h top phase
  | log top phase => exact goodLog h top phase
  | resume top phase => exact goodResume h top phase

/- Every state on the way has at most as many pending calls as there are frames. -/
def Within (start s : System) : Prop :=
  ∀ t, (start.threads t).tls.callStackIdx + (s.threads t).stack.length ≤ maxSavedRetAddr

inductive Reached (start : System) : System → Prop where
  | start : Reached start start
  | step {s s' : System} {t a} (before : Reached start s) (next : step s t a = some s')
      (within : Within start s') :
      Reached start s'

def Fresh (s : System) : Prop := ∀ t, (s.threads t).stack = [] ∧ (s.threads t).exits = []

theorem freshGood {s : System} (fresh : Fresh s) (t : Nat) :
    Good (s.threads t).tls.callStackIdx (s.threads t) := by
  obtain ⟨empty,none_⟩ := fresh t
  constructor
  · rw [empty]; rfl
  · simp [empty]
  · simp [empty]
  · simp [empty]
  · simp [empty]
  · simp [none_]

theorem stepGood {base : Nat → Nat} {s s' : System} {u a} (h : ∀ t, Good (base t) (s.threads t))
    (free : Roomy (s.threads u)) (next : step s u a = some s') (t : Nat) :
    Good (base t) (s'.threads t) := by
  obtain ⟨th,changed,moves⟩ := stepMoves next
  rw [changed]
  by_cases same : t = u
  · subst same
    rw [Function.update_self]
    exact goodMoves (h t) free moves
  · rw [Function.update_of_ne same]
    exact h t

/- A call without a frame yet is one of the pending calls, so there is room for its frame. -/
theorem roomyWithin {base th} (h : Good base th)
    (room : base + th.stack.length ≤ maxSavedRetAddr) : Roomy th := by
  intro f rest top phase
  have unsaved : f.saved = false := by simp [Frame.saved,phase]
  have mirrors := h.mirrors
  rw [top] at mirrors
  unfold Mirrors at mirrors
  rw [if_neg (by simp [unsaved])] at mirrors
  have height := mirrorsHeight mirrors
  rw [top,List.length_cons] at room
  omega

theorem reachedRoomy {start s : System} {t : Nat} (fresh : Fresh start) (run : Reached start s)
    (h : Good (start.threads t).tls.callStackIdx (s.threads t)) : Roomy (s.threads t) := by
  cases run with
  | start =>
    intro f rest top
    rw [(fresh t).1] at top
    cases top
  | step before next within => exact roomyWithin h (within t)

theorem reachedGood {start s : System} (fresh : Fresh start) (run : Reached start s) (t : Nat) :
    Good (start.threads t).tls.callStackIdx (s.threads t) := by
  induction run generalizing t with
  | start => exact freshGood fresh t
  | @step s s' u a before next within ih =>
      exact stepGood ih (reachedRoomy fresh before (ih u)) next t

/-- Under any interleaving, with at most 256 calls pending on a thread: each exit resumes
at the return address that its own call was made with, the return event it records has
the id of its own probe, and a thread whose probed calls have all returned has the index
it started with. -/
theorem returnsTransparent {start s : System} (fresh : Fresh start) (run : Reached start s)
    (t : Nat) :
    (∀ e ∈ (s.threads t).exits, e.resumed = e.origin ∧ ∀ r, e.recorded = some r →
      r.probeId = e.funcId) ∧
    ((s.threads t).stack = [] →
      (s.threads t).tls.callStackIdx = (start.threads t).tls.callStackIdx) := by
  have good := reachedGood fresh run t
  refine ⟨good.exits,fun empty => ?_⟩
  have mirrors := good.mirrors
  rw [empty] at mirrors
  exact mirrors

def runSteps (s : System) : List (Nat × Step) → Option System
  | [] => some s
  | (t,a)::rest => (step s t a).bind fun s' => runSteps s' rest

theorem movesHeight {t th th'} (moves : Moves t th th') : th'.stack.length ≤ th.stack.length +
    1 := by
  cases moves with
  | call => simp
  | onward top => simp [top]
  | save top => simp [top]
  | peek top => simp [top]
  | log top => simp [top]
  | resume top => simp only [top,List.length_cons]; omega

theorem stepHeight {s s' : System} {t a} (h : step s t a = some s') (u : Nat) :
    (s'.threads u).stack.length ≤ (s.threads u).stack.length + 1 := by
  obtain ⟨th,changed,moves⟩ := stepMoves h
  rw [changed]
  by_cases same : u = t
  · subst same
    rw [Function.update_self]
    exact movesHeight moves
  · rw [Function.update_of_ne same]
    omega

/- With a step to go less, there is room for as many frames. -/
theorem heightLeft {s s' : System} {t a} (next : step s t a = some s') (u : Nat)
    {depth steps bound : Nat}
    (short : depth + (s.threads u).stack.length + (steps + 1) ≤ bound) :
    depth + (s'.threads u).stack.length + steps ≤ bound := by
  have after := stepHeight next u
  omega

/- A run of fewer steps than there are frames needs no other bound. -/
theorem shortReached {start s s' : System} {l : List (Nat × Step)} (before : Reached start s)
    (short : ∀ t, (start.threads t).tls.callStackIdx + (s.threads t).stack.length + l.length ≤
      maxSavedRetAddr)
    (run : runSteps s l = some s') : Reached start s' := by
  induction l generalizing s with
  | nil => cases run; exact before
  | cons head rest ih =>
    obtain ⟨t,a⟩ := head
    obtain ⟨s1,next,later⟩ := Option.bind_eq_some_iff.mp run
    have low := fun u => heightLeft next u (short u)
    exact ih (.step before next fun u => by have := low u; omega) low later

def quiet : System := ⟨0,[],fun _ => ⟨⟨fun _ => ⟨0,0,0⟩,0,0,false⟩,[],0,[]⟩⟩

/- Thread 0 calls probe 7 and from it probe 8, while thread 1 is in probe 7 as well. -/
def interleaved : List (Nat × Step) :=
  [(0,.call 7 0x400),(0,.takeCallId),(1,.call 7 0x900),(0,.logEntry true),(1,.takeCallId),
    (0,.beginAction false),
    (0,.saveFrame),(1,.logEntry true),(0,.redirect),(1,.beginAction false),(0,.call 8 0x444),(1,
      .saveFrame),(0,.takeCallId),
    (0,.logEntry true),(0,.beginAction false),(0,.saveFrame),(1,.redirect),(0,.redirect),(0,
      .ret),(1,.ret),(0,.peekProbe),
    (1,.peekProbe),(0,.logReturn true),(0,.resume),(1,.logReturn true),(0,.ret),(1,.resume),(0,
      .peekProbe),
    (0,.logReturn true),(0,.resume)]

theorem interleavedReturns : ∃ s, runSteps quiet interleaved = some s ∧
    (s.threads 0).exits.length = 2 ∧
    (s.threads 1).exits.length = 1 ∧ (∀ e ∈ (s.threads 0).exits, e.resumed = e.origin) ∧
    (s.threads 0).tls.callStackIdx = 0 := by
  have done : ((runSteps quiet interleaved).map fun s =>
      ((s.threads 0).exits.length,(s.threads 1).exits.length,
        (s.threads 0).stack.length)) = some (2,1,0) := by decide +kernel
  cases run : runSteps quiet interleaved with
  | none => rw [run] at done; cases done
  | some s =>
    rw [run] at done
    simp only [Option.map_some,Option.some.injEq,Prod.mk.injEq] at done
    have fresh : Fresh quiet := fun _ => ⟨rfl,rfl⟩
    have short : 0 + ([] : List Frame).length + interleaved.length ≤ maxSavedRetAddr := by decide
    have reached : Reached quiet s := shortReached .start (fun _ => short) run
    obtain ⟨exits,back⟩ := returnsTransparent fresh reached 0
    exact ⟨s,rfl,done.1,done.2.1,fun e member => (exits e member).1,
      back (List.length_eq_zero_iff.mp done.2.2)⟩

end ZeroTrace.ShadowStack
