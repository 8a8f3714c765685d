import ZeroTrace.PatchCode

/-! A stub that is run in a stopped thread: code and registers are borrowed and put back. What
the system calls answer, what the stub does and whether it is heard of again is all left open. -/
namespace ZeroTrace.RemoteExec
open ByteMemory PatchCode

structure Target (R : Type) where
  mem : Memory
  regs : R

inductive WaitStatus where
  | exited (code : Nat)
  | signaled (signal : Nat)
  | stopped (signal : Nat)
  | continued
  deriving DecidableEq, Repr

/- waitpid: interrupted, failed for another reason, or the thread's status. -/
inductive WaitAnswer where
  | interrupted
  | failed
  | answered (status : WaitStatus)
  deriving DecidableEq, Repr

def sigtrap : Nat := 5

/- How each step turns out, in the order of the steps. A write or a setting of registers that
fails has no effect. -/
structure Outcomes (R : Type) where
  getRegs : Bool
  readInsn : Bool
  readAhead : Bool
  readCode : Bool
  writeStub : Bool
  setRegs : Bool
  cont : Bool
  ran : Target R → Target R
  waits : List WaitAnswer
  getStopRegs : Bool
  restoreRegs : Bool
  restoreCode : Bool

structure Backend (R : Type) where
  stubSize : Nat
  getPc : R → UInt64
  getRetval : R → UInt64
  selectStubPc : Outcomes R → Memory → UInt64 → UInt64
  prepareRegs : R → UInt64 → R
  buildStub : List UInt8 → Option (List UInt8)

structure Result (R : Type) where
  rc : Int
  retOut : Option UInt64
  target : Target R
  restores : List Bool

def waitForStubStop : List WaitAnswer → Option (Option WaitStatus)
  | [] => none
  | .interrupted::rest => waitForStubStop rest
  | .failed::_ => some none
  | .answered status::_ => some (some status)

section
variable {R : Type} (b : Backend R) (o : Outcomes R)

def restoreRegsAndCode (t : Target R) (savedRegs : R) (stubPc : UInt64)
    (savedCode : List UInt8) : Int × Target R :=
  let regs := if o.restoreRegs then savedRegs else t.regs
  let mem := if o.restoreCode then write t.mem stubPc.toNat savedCode else t.mem
  (if o.restoreRegs && o.restoreCode then 0 else -1,⟨mem,regs⟩)

/- From the point on where the code is borrowed; nothing is given back while the wait goes on. -/
def runStub (t : Target R) (stubPc : UInt64) (savedCode stub : List UInt8) : Option (Result R) :=
  let borrowed := write t.mem stubPc.toNat stub
  if !o.setRegs then
    some ⟨-1,none,⟨if o.restoreCode then write borrowed stubPc.toNat savedCode else borrowed,
      t.regs⟩,[o.restoreCode]⟩
  else
    let fail := fun t' =>
      some ⟨-1,none,(restoreRegsAndCode o t' t.regs stubPc savedCode).2,
      [o.restoreRegs,o.restoreCode]⟩
    let resumed := ⟨borrowed,b.prepareRegs t.regs stubPc⟩
    if !o.cont then fail resumed
    else match waitForStubStop o.waits with
      | none => none
      | some none => fail (o.ran resumed)
      | some (some status) =>
        if status ≠ .stopped sigtrap then fail (o.ran resumed)
        else if !o.getStopRegs then fail (o.ran resumed)
        else
          let restored := restoreRegsAndCode o (o.ran resumed) t.regs stubPc savedCode
          some ⟨restored.1,some (b.getRetval (o.ran resumed).regs),restored.2,
            [o.restoreRegs,o.restoreCode]⟩

def stubPcOf (t : Target R) : UInt64 := b.selectStubPc o t.mem (b.getPc t.regs)

def executeRemoteStub (t : Target R) : Option (Result R) :=
  let stubPc := stubPcOf b o t
  let savedCode := read t.mem stubPc.toNat b.stubSize
  if !o.getRegs then some ⟨-1,none,t,[]⟩
  else if stubPc = 0 then some ⟨-1,none,t,[]⟩
  else if !o.readCode then some ⟨-1,none,t,[]⟩
  else match b.buildStub savedCode with
    | none => some ⟨-1,none,t,[]⟩
    | some stub => if !o.writeStub then some ⟨-1,none,t,[]⟩ else runStub b o t stubPc savedCode stub

end

structure SyscallArgs where
  syscallNo : UInt64
  arg1 : UInt64
  arg2 : UInt64
  arg3 : UInt64
  arg4 : UInt64
  arg5 : UInt64
  arg6 : UInt64

structure CallArgs where
  funcAddr : UInt64
  arg1 : UInt64
  arg2 : UInt64

namespace X86

structure Regs where
  rax : UInt64
  rdi : UInt64
  rsi : UInt64
  rdx : UInt64
  r10 : UInt64
  r8 : UInt64
  r9 : UInt64
  rip : UInt64
  others : Nat → UInt64

def remoteSyscallCodeSize : Nat := 8
def remoteCallCodeSize : Nat := 16

def prepareSyscallRegs (args : SyscallArgs) (r : Regs) (_ : UInt64) : Regs :=
  { r with
    rax := args.syscallNo, rdi := args.arg1, rsi := args.arg2, rdx := args.arg3, r10 := args.arg4,
    r8 := args.arg5, r9 := args.arg6 }

def prepareCallRegs (args : CallArgs) (r : Regs) (_ : UInt64) : Regs :=
  { r with rdi := args.arg1, rsi := args.arg2 }

-- syscall, int3
def buildSyscallStub (saved : List UInt8) : Option (List UInt8) :=
  some ([0x0F,0x05,0xCC] ++ saved.drop 3)

-- movabs rax, the function; call rax; int3
def buildCallStub (funcAddr : UInt64) (saved : List UInt8) : Option (List UInt8) :=
  some ([0x48,0xB8] ++ leBytes 8 funcAddr ++ [0xFF,0xD0,0xCC] ++ saved.drop 13)

def remoteSyscall6 (args : SyscallArgs) : Backend Regs :=
  ⟨remoteSyscallCodeSize,Regs.rip,Regs.rax,fun _ _ pc => pc,prepareSyscallRegs args,
    buildSyscallStub⟩

def remoteCall2 (args : CallArgs) : Backend Regs :=
  ⟨remoteCallCodeSize,Regs.rip,Regs.rax,fun _ _ pc => pc,prepareCallRegs args,
    buildCallStub args.funcAddr⟩

end X86

namespace Arm64

structure Regs where
  x : Nat → UInt64
  sp : UInt64
  pc : UInt64
  pstate : UInt64

def Regs.set (r : Regs) (i : Nat) (v : UInt64) : Regs :=
  { r with x := fun k => if k = i then v else r.x k }

def remoteSyscallCodeSize : Nat := 8
def remoteCallCodeSize : Nat := 24

def svc : List UInt8 := leBytes 4 0xD4000001
def brk : List UInt8 := leBytes 4 0xD4200000

/- A thread that stands on a system call instruction has the stub behind it. -/
def remoteStubPc (o : Outcomes Regs) (mem : Memory) (currentPc : UInt64) : UInt64 :=
  if currentPc = 0 then 0
  else if !o.readInsn then currentPc
  else if read mem currentPc.toNat 4 = svc ∧ o.readAhead then currentPc + 4
  else currentPc

def prepareSyscallRegs (args : SyscallArgs) (r : Regs) (stubPc : UInt64) : Regs :=
  (((((({ r with pc := stubPc }.set 0 args.arg1).set 1 args.arg2).set 2 args.arg3).set 3
    args.arg4).set 4 args.arg5).set 5 args.arg6).set 8 args.syscallNo

def prepareCallRegs (args : CallArgs) (r : Regs) (stubPc : UInt64) : Regs :=
  ({ r with pc := stubPc }.set 0 args.arg1).set 1 args.arg2

def buildSyscallStub (_ : List UInt8) : Option (List UInt8) := some (svc ++ brk)

-- ldr x16, #16; blr x16; brk; nop; the function
def buildCallStub (funcAddr : UInt64) (_ : List UInt8) : Option (List UInt8) :=
  some (leBytes 4 0x58000090 ++ leBytes 4 0xD63F0200 ++ brk ++ leBytes 4 0xD503201F ++
    leBytes 8 funcAddr)

def remoteSyscall6 (args : SyscallArgs) : Backend Regs :=
  ⟨remoteSyscallCodeSize,Regs.pc,fun r => r.x 0,remoteStubPc,prepareSyscallRegs args,
    buildSyscallStub⟩

def remoteCall2 (args : CallArgs) : Backend Regs :=
  ⟨remoteCallCodeSize,Regs.pc,fun r => r.x 0,remoteStubPc,prepareCallRegs args,
    buildCallStub args.funcAddr⟩

end Arm64

/-! Whatever happens, what was borrowed is given back if the restoring writes succeed, and
success is told of a trap only. -/
structure GivesBack {R : Type} (b : Backend R) (o : Outcomes R) (t : Target R)
    (r : Result R) : Prop where
  regs : (∀ ok ∈ r.restores, ok = true) → r.target.regs = t.regs
  code : (∀ ok ∈ r.restores, ok = true) → ∀ a, Inside (stubPcOf b o t).toNat b.stubSize a →
    r.target.mem a = t.mem a
  trapped : r.rc = 0 → waitForStubStop o.waits = some (some (.stopped sigtrap)) ∧
    ∃ stub, b.buildStub (read t.mem (stubPcOf b o t).toNat b.stubSize) = some stub ∧
      r.retOut = some (b.getRetval
        (o.ran ⟨write t.mem (stubPcOf b o t).toNat stub,
        b.prepareRegs t.regs (stubPcOf b o t)⟩).regs)

section
variable {R : Type} {b : Backend R} {o : Outcomes R} {t : Target R} {r : Result R}

theorem untouched {ret : Option UInt64} : GivesBack b o t ⟨-1,ret,t,[]⟩ :=
  ⟨fun _ => rfl,fun _ _ _ => rfl,fun zero => by cases zero⟩

theorem restored (t' : Target R) (ok : o.restoreRegs = true ∧ o.restoreCode = true)
    {stubPc : UInt64} {size : Nat} :
    (restoreRegsAndCode o t' t.regs stubPc (read t.mem stubPc.toNat size)).2.regs = t.regs ∧
      ∀ a, Inside stubPc.toNat size a →
        (restoreRegsAndCode o t' t.regs stubPc (read t.mem stubPc.toNat size)).2.mem a =
        t.mem a := by
  simp only [restoreRegsAndCode,ok.1,ok.2,if_true,true_and]
  exact fun a inside => writeRead _ _ _ _ _ inside

theorem bothRestored (all : ∀ ok ∈ [o.restoreRegs,o.restoreCode], ok = true) :
    o.restoreRegs = true ∧ o.restoreCode = true :=
  ⟨all _ (.head _),all _ (.tail _ (.head _))⟩

theorem failedBack (t' : Target R) : GivesBack b o t
    ⟨-1,none,(restoreRegsAndCode o t' t.regs (stubPcOf b o t)
      (read t.mem (stubPcOf b o t).toNat b.stubSize)).2,[o.restoreRegs,o.restoreCode]⟩ :=
  ⟨fun all => (restored t' (bothRestored all)).1,fun all => (restored t' (bothRestored all)).2,
    fun zero => by cases zero⟩

theorem runGivesBack {stub : List UInt8}
    (built : b.buildStub (read t.mem (stubPcOf b o t).toNat b.stubSize) = some stub)
    (ran : runStub b o t (stubPcOf b o t) (read t.mem (stubPcOf b o t).toNat b.stubSize) stub =
      some r) : GivesBack b o t r := by
  simp only [runStub] at ran
  split at ran
  · cases ran
    refine ⟨fun _ => rfl,fun all a inside => ?_,fun zero => by cases zero⟩
    have ok : o.restoreCode = true := all _ (.head _)
    simp only [ok,if_true]
    exact writeRead _ _ _ _ _ inside
  · split at ran
    · cases ran
      exact failedBack _
    · split at ran
      · cases ran
      · cases ran
        exact failedBack _
      · next status waited =>
        split at ran
        · cases ran
          exact failedBack _
        · next trap =>
          split at ran
          · cases ran
            exact failedBack _
          · cases ran
            refine ⟨fun all => (restored _ (bothRestored all)).1,
              fun all => (restored _ (bothRestored all)).2,fun _ => ⟨?_,stub,built,rfl⟩⟩
            rw [waited,not_not.mp trap]

theorem stubGivesBack (ran : executeRemoteStub b o t = some r) : GivesBack b o t r := by
  simp only [executeRemoteStub] at ran
  split at ran
  · cases ran
    exact untouched
  · split at ran
    · cases ran
      exact untouched
    · split at ran
      · cases ran
        exact untouched
      · split at ran
        · cases ran
          exact untouched
        · next stub built =>
          split at ran
          · cases ran
            exact untouched
          · exact runGivesBack built ran

end

/-- Both kinds of stubs on both ISAs give back what they have borrowed, and tell of success only
after a trap, with the return register that was read there. -/
theorem remoteStubsGiveBack :
    (∀ args o t r, executeRemoteStub (X86.remoteSyscall6 args) o t = some r →
    GivesBack (X86.remoteSyscall6 args) o t r) ∧
    (∀ args o t r, executeRemoteStub (X86.remoteCall2 args) o t = some r →
      GivesBack (X86.remoteCall2 args) o t r) ∧
    (∀ args o t r, executeRemoteStub (Arm64.remoteSyscall6 args) o t = some r →
      GivesBack (Arm64.remoteSyscall6 args) o t r) ∧
    ∀ args o t r, executeRemoteStub (Arm64.remoteCall2 args) o t = some r →
      GivesBack (Arm64.remoteCall2 args) o t r :=
  ⟨fun _ _ _ _ => stubGivesBack,fun _ _ _ _ => stubGivesBack,fun _ _ _ _ => stubGivesBack,
    fun _ _ _ _ => stubGivesBack⟩

end ZeroTrace.RemoteExec
