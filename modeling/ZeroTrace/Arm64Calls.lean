import ZeroTrace.ProbedRuns
import ZeroTrace.Arm64Stub

/-! Probed calls on aarch64, from the call to the return. The return address is in the link
register and not on the stack, so the stubs need no more room than their frame. -/
namespace ZeroTrace.Arm64Calls
open WordMemory StubContext ShadowStack ProbedRuns Arm64Replay Arm64Stub

def abi : Abi Cpu := ⟨fun s => s.mem,fun s => s.get 0,fun s => s.get 1,fun s => s.get 0⟩

/- The stubs' frame is not the payload's memory. -/
def Room (P : UInt64 → Prop) (frame : UInt64) : Prop := ∀ a, Inside frame frameSize a → ¬ P a

/- The payload's functions keep to the calling convention and do their part with the
thread-local variables. -/
structure Lawful (w : World) (tls : Mem → Tls) (P : UInt64 → Prop) : Prop where
  conforms : ∀ frame, Room P frame → Conforms w frame
  reads : ∀ m m', (∀ a, P a → m' a = m a) → tls m' = tls m
  implements : Implements abi w.payload tls fun t => Room P t.sp

/- A probed function is entered through the trampoline at `a`: what the handler is called
with, and the state in which the prologue starts. -/
def enter (w : World) (a entryStubAddr : UInt64) (probeId : Nat) (s : Cpu) : Option (Cpu × Cpu) :=
  match through w entryStub (Arm64Flow.atStub a probeId entryStubAddr s) with
  | some [.call .ztHandleEntry t,.call .saveProbeFrameC _,.ret back s'] =>
    if back = a + UInt64.ofNat (Arm64Flow.stubReturn probeId entryStubAddr) then
      some (t,s'.set 30 (s'.get 15)) else none
  | _ => none

/- It has returned into exit_stub: what the handler is called with, and where it goes on. -/
def leave (w : World) (s : Cpu) : Option (Cpu × UInt64 × Cpu) := match through w exitStub s with
  | some [.call .peekProbeIdC _,.call .ztHandleReturn t,.call .getRetAddrC _,.ret target s'] =>
      some (t,target,s')
  | _ => none

def stubs (w : World) (P : UInt64 → Prop) : Stubs Cpu where
  abi := abi
  room s := Room P (frameBelow s)
  retAddr s := s.get 30
  enter s t u := ∃ a entryStubAddr probeId, enter w a entryStubAddr probeId s = some (t,u)
  leave s t target s' := leave w s = some (t,target,s')

variable {w : World} {tls : Mem → Tls} {P : UInt64 → Prop} {s t u : Cpu}
    {frame a entryStubAddr : UInt64} {probeId : Nat}

structure Entered (w : World) (tls : Mem → Tls) (s : Cpu) (id : UInt64) (t u : Cpu) : Prop where
  shown : ShownEntry t.mem (t.get 0) (t.get 1) ([0,1,2,3,4,5].map s.get) s.rest.q id
  intact : Intact s u
  hijacked : u.get 30 = w.exitStub
  pushed : (tls s.mem).callStackIdx < maxSavedRetAddr → Pushed (tls s.mem) (tls u.mem) ⟨id,s.get 30⟩

theorem entered (law : Lawful w tls P) (room : Room P (frameBelow s)) :
    ∃ t u, enter w a entryStubAddr probeId s = some (t,u) ∧
      Entered w tls s (UInt64.ofNat probeId) t u := by
  obtain ⟨t₁,t₂,s',stub,shown,⟨link,id⟩,intact,hijacked,⟨sp₁,sp₂⟩,memory⟩ :=
    entryThrough (w := w) (s := Arm64Flow.atStub a probeId entryStubAddr s) (law.conforms _ room)
  have args : [0,1,2,3,4,5].map (Arm64Flow.atStub a probeId entryStubAddr s).get =
      [0,1,2,3,4,5].map s.get :=
    List.map_congr_left fun r member => atStubOther (.inl (by
      have all : ∀ r ∈ [0,1,2,3,4,5], r ≤ 8 := by decide
      exact all r member))
  rw [args,atStubId] at shown
  rw [atStubLink] at link
  rw [atStubId] at id
  refine ⟨t₁,s'.set 30 (s'.get 15),?_,shown,?_,?_,fun free => ?_⟩
  · rw [enter,stub]
    exact if_pos atStubReturn
  · refine ⟨fun r listed => ?_,intact.sp,intact.flags,intact.fpcr,intact.fpsr,intact.vectors⟩
    rw [getOther (by omega),intact.registers r listed,atStubOther listed]
  · rw [getSame (by decide),hijacked]
  · have opens : ∀ v, P v → t₁.mem v = s.mem v := fun v payload => memory.opened v fun inside =>
      room v inside payload
    have pushed : Pushed (tls s.mem) (tls s'.mem) ⟨t₂.get 1,t₂.get 0⟩ :=
      entryPushes law.implements free (by rw [sp₁]; exact room)
      (by rw [sp₂]; exact room) (law.reads _ _ opens) (congrArg tls memory.between)
        (congrArg tls memory.closed)
    rwa [link,id] at pushed

structure Left (tls : Mem → Tls) (s t : Cpu) (target : UInt64) (s' : Cpu) : Prop where
  shown : ShownReturn t.mem (t.get 0) (t.get 1) (s.get 0) s.rest.q
    (Field.read t.mem (t.get 0) .funcId)
  intact : Intact s s'
  popped : 0 < (tls s.mem).callStackIdx →
    Popped (tls s.mem) (tls s'.mem) ⟨Field.read t.mem (t.get 0) .funcId,target⟩

theorem left (law : Lawful w tls P) (room : Room P (frameBelow s)) :
    ∃ t target s', leave w s = some (t,target,s') ∧ Left tls s t target s' := by
  obtain ⟨t₁,t₂,t₃,s',stub,shown,intact,⟨sp₁,sp₂,sp₃⟩,memory⟩ :=
    @exitThrough w s (law.conforms _ room)
  have aside : ∀ v, P v → ¬ Inside (frameBelow s) frameSize v :=
    fun v payload inside => room v inside payload
  have opens : ∀ v, P v → t₁.mem v = s.mem v := fun v payload => memory.opened v (aside v payload)
  have between : ∀ v, P v → t₂.mem v = (w.payload .peekProbeIdC t₁).mem v :=
    fun v payload => memory.handed v (aside v payload)
  have closes : ∀ v, P v → s'.mem v = (w.payload .getRetAddrC t₃).mem v :=
    fun v payload => memory.closed v (aside v payload)
  refine ⟨t₂,(w.payload .getRetAddrC t₃).get 0,s',?_,?_,intact,fun some_ => ?_⟩
  · rw [leave,stub]
  · rw [shown.funcId]
    exact shown
  · rw [shown.funcId]
    exact exitPops law.implements some_ (by rw [sp₁]; exact room) (by rw [sp₂]; exact room)
      (by rw [sp₃]; exact room) (law.reads _ _ opens)
      (law.reads _ _ between) memory.between (law.reads _ _ closes)

theorem keep (law : Lawful w tls P) : (stubs w P).Keep tls P where
  reads := law.reads
  enters s t u room ran free := by
    obtain ⟨a,entryStubAddr,probeId,ran⟩ := ran
    obtain ⟨t',u',again,entered⟩ := @entered w tls P s a entryStubAddr probeId law room
    obtain ⟨rfl,rfl⟩ := Prod.mk.inj (Option.some.inj (again.symm.trans ran))
    have pushed := entered.pushed free
    rwa [← entered.shown.funcId] at pushed
  leaves s t target s' room ran some_ := by
    obtain ⟨t₀,target₀,s₀,again,left⟩ := @left w tls P s law room
    obtain ⟨rfl,both⟩ := Prod.mk.inj (Option.some.inj (again.symm.trans ran))
    obtain ⟨rfl,rfl⟩ := Prod.mk.inj both
    exact left.popped some_

section Built
open CodeListing Arm64Trampoline Arm64Flow
variable {insns : List Insn} {continueAddr : UInt64}

def trampolineRuns (w : World) (isa : Isa Rest) (probeId : Nat) (insns : List Insn)
    (a entryStubAddr continueAddr : UInt64) (s : Cpu) :
    Option (List (Exit Rest)) :=
  walk opSize (opStep isa) (comesBack (Arm64Stub.entered w)) nowhere a 0
    (trampoline probeId insns entryStubAddr continueAddr) s

def functionRuns (w : World) (isa : Isa Rest) (probeId : Nat) (insns : List Insn)
    (a entryStubAddr continueAddr : UInt64) (u : Cpu) :
    Option (List (Exit Rest)) :=
  replay emittedSize expand (moved isa) (comesBack (Arm64Stub.entered w)) (fun _ s => s)
    (fun _ s => some [⟨.jump,continueAddr,s.set 16 continueAddr⟩])
      (a + UInt64.ofNat (bodyStart probeId entryStubAddr)) insns u

theorem trampolineEnters (ran : enter w a entryStubAddr probeId s = some (t,u)) (isa : Isa Rest) :
    trampolineRuns w isa probeId insns a entryStubAddr continueAddr s =
      (functionRuns w isa probeId insns a entryStubAddr continueAddr u).map
        (⟨.call,entryStubAddr,atStub a probeId entryStubAddr s⟩::·) := by
  unfold enter at ran
  split at ran
  · next t' t₂ back s' stub =>
    by_cases here : back = a + UInt64.ofNat (stubReturn probeId entryStubAddr)
    · rw [if_pos here] at ran
      obtain ⟨_,rfl⟩ := Prod.mk.inj (Option.some.inj ran)
      rw [here,← atStubReturn (s := s)] at stub
      rw [trampolineRuns,trampolineRun,handedBack (enteredBack stub)]
      rfl
    · rw [if_neg here] at ran
      cases ran
  · cases ran

end Built

/-- Whatever the program does between the stubs, a probed function that is called with room
on its stack comes through the trampoline to its own prologue, and one that returns comes
through the exit stub back to a caller, with everything as it was but for the link register
and those that a call may change. In every run with at most 256 open calls each return goes
where the innermost of them came from and is shown under that call's probe. -/
theorem linkedCallsReturn (law : Lawful w tls P) :
    (∀ s a entryStubAddr probeId, Room P (frameBelow s) → ∃ t u, enter w a entryStubAddr probeId s =
      some (t,u) ∧
      ShownEntry t.mem (t.get 0) (t.get 1) ([0,1,2,3,4,5].map s.get) s.rest.q
        (UInt64.ofNat probeId) ∧ Intact s u ∧ u.get 30 = w.exitStub) ∧
    (∀ (decode : Arm64Trampoline.Decoder) (p : ProbeTable.Probe) entryStubAddr a room out,
      Arm64Trampoline.buildTrampoline decode p entryStubAddr a room = some out →
        let continueAddr := UInt64.ofNat (p.target.remoteAddr + p.origLen)
        let insns := Arm64Flow.insnsOf decode p
        out = (Arm64Flow.trampoline p.probeId insns entryStubAddr continueAddr).flatMap
          Arm64Flow.opBytes ∧
        ∀ isa s t u, enter w a entryStubAddr p.probeId s = some (t,u) →
          trampolineRuns w isa p.probeId insns a entryStubAddr continueAddr s =
          (functionRuns w isa p.probeId insns a entryStubAddr continueAddr u).map
            (⟨.call,entryStubAddr,Arm64Flow.atStub a p.probeId entryStubAddr s⟩::·)) ∧
    (∀ s, Room P (frameBelow s) → ∃ t target s', leave w s = some (t,target,s') ∧
      ShownReturn t.mem (t.get 0) (t.get 1) (s.get 0) s.rest.q ((stubs w P).shownId t) ∧
        Intact s s') ∧
    ∀ start n l s, (stubs w P).Runs tls P start n l s → ∃ calls, bracketed [] l = some calls ∧
      calls.length = n ∧
      Stacked ((stubs w P).tlsOf tls s).savedFrames ((stubs w P).tlsOf tls start).callStackIdx calls
        ((stubs w P).tlsOf tls s).callStackIdx := by
  refine ⟨fun s a entryStubAddr probeId room => ?_,fun decode p entryStubAddr a room out ok =>
    ⟨Arm64Flow.builtOps ok,fun isa s t u ran => trampolineEnters ran isa⟩,fun s room => ?_,
    fun start n l s run => Stubs.keepBracketed (keep law) run⟩
  · obtain ⟨t,u,ran,entered⟩ := @entered w tls P s a entryStubAddr probeId law room
    exact ⟨t,u,ran,entered.shown,entered.intact,entered.hijacked⟩
  · obtain ⟨t,target,s',ran,left⟩ := @left w tls P s law room
    exact ⟨t,target,s',ran,left.shown,left.intact⟩

/- A payload that does nothing but keep its variables, at 0x10000. -/
def keeping : World where
  exitStub := 0x7100
  payload
    | .saveProbeFrameC,t => { t with mem := saveCells 0x10000 t.mem (t.get 0) (t.get 1) }
    | .peekProbeIdC,t => t.set 0 (UInt64.ofNat (peekProbeId (tlsAt 0x10000 t.mem)))
    | .getRetAddrC,t =>
        { t with mem := popCells 0x10000 t.mem }.set 0
          (UInt64.ofNat (getRetAddr (tlsAt 0x10000 t.mem)).2)
    | _,t => t

theorem keepingOutside {f : Callee} {v : UInt64} (outside : ¬ Inside 0x10000 cellsSize v) :
    (keeping.payload f t).mem v = t.mem v := by
  cases f with
  | saveProbeFrameC => exact saveOutside outside
  | getRetAddrC => exact popOutside outside
  | _ => rfl

theorem keepingRegister {f : Callee} {r : Nat} (other : r ≠ 0) :
    (keeping.payload f t).get r = t.get r := by
  have stored : ∀ m, State.get { t with mem := m } r = t.get r := fun _ => rfl
  cases f with
  | ztHandleEntry | ztHandleReturn => rfl
  | peekProbeIdC => exact getOther other
  | saveProbeFrameC => exact stored _
  | getRetAddrC => exact (getOther other).trans (stored _)

theorem keepingStack {f : Callee} : (keeping.payload f t).sp = t.sp := by
  have stored : ∀ m v, (State.set { t with mem := m } 0 v).sp = t.sp := fun _ _ => rfl
  have kept : ∀ m, (State.mk t.reg t.sp t.flags m t.rest).sp = t.sp := fun _ => rfl
  cases f with
  | ztHandleEntry | ztHandleReturn => rfl
  | peekProbeIdC => exact stored t.mem _
  | saveProbeFrameC => exact kept _
  | getRetAddrC => exact stored _ _

theorem keepingAnswers (t : Cpu) (m : Mem) (v : UInt64) :
    State.get (State.set { t with mem := m } 0 v) 0 = v := getSame (by decide)

theorem keepingImplements : Implements abi keeping.payload (tlsAt 0x10000) fun t =>
    Room (Inside 0x10000 cellsSize) t.sp := by
  refine ⟨fun f t _ handler => ?_,fun t _ => cellsSaved,fun t _ => ⟨rfl,keepingAnswers t t.mem _⟩,
    fun t _ => ⟨cellsPopped,keepingAnswers t (popCells 0x10000 t.mem) _⟩⟩
  rcases handler with rfl | rfl <;> exact ⟨rfl,fun _ _ => rfl⟩

theorem keepingLawful : Lawful keeping (tlsAt 0x10000) (Inside 0x10000 cellsSize) where
  conforms _ room :=
    ⟨fun _ _ _ _ low _ => keepingRegister (Nat.ne_of_gt (Nat.lt_of_lt_of_le (by decide) low)),
    fun _ _ _ => keepingStack,
    fun _ _ _ v inside => keepingOutside (room v inside)⟩
  reads _ _ same := tlsReads same
  implements := keepingImplements

def calling (retAddr : UInt64) : Cpu :=
  ⟨fun r => if r.val = 30 then retAddr else 0x33,0x7FFF1000,⟨true,false,true,false⟩,fun _ => 0,
    ⟨fun _ => ⟨0x44,0x55⟩,0x1000000,0x10⟩⟩

theorem roomAt {frame : UInt64} (low : 0x7FFF0000 ≤ frame.toNat) (high : frame.toNat < 0x7FFF2000) :
    Room (Inside 0x10000 cellsSize) frame := by
  intro v inside payload
  have size : cellsSize = 6160 := rfl
  have frameLength : frameSize = 640 := rfl
  have first := UInt64.toNat_sub v frame
  have second := UInt64.toNat_sub v 0x10000
  have address : (0x10000 : UInt64).toNat = 0x10000 := rfl
  have bound := v.toNat_lt
  unfold Inside at inside payload
  rw [address] at second
  omega

/- A function with probe 7, called from before 0x401136, that returns at once. -/
theorem linkedOnce :
    ∃ u s', (stubs keeping (Inside 0x10000 cellsSize)).Enters (calling 0x401136) ⟨7,0x401136⟩ u ∧
    (stubs keeping (Inside 0x10000 cellsSize)).Leaves u ⟨7,0x401136⟩ s' := by
  have whole := linkedCallsReturn keepingLawful
  have room : Room (Inside 0x10000 cellsSize) (frameBelow (calling 0x401136)) :=
    roomAt (by decide) (by decide)
  obtain ⟨t,u,ran,shown,intact,_⟩ := whole.1 (calling 0x401136) 0x5000 0x7000 7 room
  have enters : (stubs keeping (Inside 0x10000 cellsSize)).Enters (calling 0x401136) ⟨7,0x401136⟩
      u := by
    refine ⟨room,t,⟨0x5000,0x7000,7,ran⟩,?_⟩
    have id : Field.read t.mem (t.get 0) .funcId = 7 := shown.funcId
    rw [← id]
    rfl
  have room' : Room (Inside 0x10000 cellsSize) (frameBelow u) := by
    rw [frameBelow,intact.sp]
    exact room
  obtain ⟨t',target,s',ran',_⟩ := whole.2.2.1 u room'
  have free : ((stubs keeping (Inside 0x10000 cellsSize)).tlsOf (tlsAt 0x10000)
      (calling 0x401136)).callStackIdx < maxSavedRetAddr := by decide
  have leaves : (stubs keeping (Inside 0x10000 cellsSize)).Leaves u
      ⟨(stubs keeping (Inside 0x10000 cellsSize)).shownId t',target⟩ s' :=
    ⟨room',t',target,ran',rfl⟩
  obtain ⟨calls,shown,_⟩ := whole.2.2.2 _ _ _ _ (.leave (.enter .start free enters) leaves)
  have same : (⟨(stubs keeping (Inside 0x10000 cellsSize)).shownId t',target⟩ : Call) =
      ⟨7,0x401136⟩ := by
    by_contra other
    rw [List.nil_append,List.singleton_append,bracketed,bracketed,if_neg other] at shown
    cases shown
  rw [same] at leaves
  exact ⟨u,s',enters,leaves⟩

end ZeroTrace.Arm64Calls
