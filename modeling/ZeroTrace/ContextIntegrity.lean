import ZeroTrace.X86Stub
import ZeroTrace.Arm64Stub

/-! The stubs of both architectures, for any payload that keeps to the calling convention. -/
namespace ZeroTrace.ContextIntegrity
open StubContext

/-- Whatever the registers, the flags, the vectors and the stack are when a probed function
is entered or returns: the payload is shown the function's arguments or its return value
through the one layout that both architectures have, and the function and its caller go on
with everything as it was. Only the return address is another, until it is put back: around
the payload's own writes no byte of memory changes outside the stub's own area but those. -/
theorem stubsKeepContext :
    (∀ (w : X86Stub.World) (s : X86Stub.Cpu), X86Stub.Conforms w (X86Stub.contextBelow s) →
      X86Stub.EntryKeeps w s ∧ X86Stub.ExitKeeps w s) ∧
      ∀ (w : Arm64Stub.World) (s : Arm64Stub.Cpu), Arm64Stub.Conforms w (Arm64Stub.frameBelow s) →
        Arm64Stub.EntryKeeps w s ∧ Arm64Stub.ExitKeeps w s :=
  ⟨fun _ _ conforms => ⟨X86Stub.entryKeeps conforms,X86Stub.exitKeeps conforms⟩,
    fun _ _ conforms => ⟨Arm64Stub.entryKeeps conforms,Arm64Stub.exitKeeps conforms⟩⟩

/- A payload that leaves nothing in the registers that it need not keep. -/
def answer : Callee → UInt64
  | .peekProbeIdC => 7
  | .getRetAddrC => 0x401136
  | _ => 0

def wiping86 : X86Stub.World where
  exitStub := 0x7100
  arithmetic _ := ⟨true,true,true,true,true,true,true⟩
  payload f t := ⟨fun r => if r ∈ [X86Replay.Reg.rbx,.rbp,.rsp,.r12,.r13,.r14,.r15] then
    t.reg r else answer f,
    ⟨false,false,false,false,false,false,false⟩,t.mem,⟨fun _ => ⟨0,0⟩,⟨false,false,false,false⟩⟩⟩

def wiping64 : Arm64Stub.World where
  exitStub := 0x7100
  payload f t := ⟨fun r => if 19 ≤ r.val ∧ r.val ≤ 29 then t.reg r else answer f,t.sp,
    ⟨false,false,false,false⟩,t.mem,⟨fun _ => ⟨0,0⟩,0,0⟩⟩

def full86 : X86Stub.Cpu :=
  ⟨fun r => if r = .rsp then 0x7FFF1000 else 0x33,⟨true,false,true,false,true,false,true⟩,
    fun _ => 0xCC,⟨fun _ => ⟨0x44,0x55⟩,⟨false,false,false,false⟩⟩⟩

def full64 : Arm64Stub.Cpu :=
  ⟨fun _ => 0x33,0x7FFF1000,⟨true,false,true,false⟩,fun _ => 0xCC,
    ⟨fun _ => ⟨0x44,0x55⟩,0x1000000,0x10⟩⟩

theorem conforms86 : X86Stub.Conforms wiping86 (X86Stub.contextBelow full86) :=
  ⟨fun _ _ _ _ saved => if_pos saved,fun _ _ _ _ _ => rfl⟩

theorem conforms64 : Arm64Stub.Conforms wiping64 (Arm64Stub.frameBelow full64) := by
  refine ⟨fun f t _ r low high => ?_,fun _ _ _ => rfl,fun _ _ _ _ _ => rfl⟩
  have register : r < 31 := by omega
  simp [Arm64Replay.State.get,register,wiping64,low,high]

theorem farAside : ¬ X86Stub.Own (X86Stub.contextBelow full86) 0x7FFF2000 ∧
    ¬ WordMemory.Inside (Arm64Stub.frameBelow full64) Arm64Stub.frameSize 0x7FFF2000 := by
  unfold X86Stub.Own WordMemory.Inside
  decide

theorem wipedKept :
    (∃ t₁ t₂ u, X86Stub.EntryMemory wiping86 (X86Stub.contextBelow full86) full86 t₁ t₂ u ∧
      t₂.reg .rdi = WordMemory.word full86.mem 0x7FFF1000 ∧ u.mem 0x7FFF2000 = 0xCC) ∧
    (∃ l u, X86Stub.through wiping86 X86Stub.exitStub full86 = some (l ++ [.ret 0x401136 u]) ∧
      u.reg .rcx = 0x33 ∧ u.rest.xmm 3 = ⟨0x44,0x55⟩ ∧
      u.mem 0x7FFF2000 = 0xCC) ∧
    (∃ t₁ t₂ u, Arm64Stub.EntryMemory wiping64 full64 t₁ t₂ u ∧ u.get 30 = 0x7100 ∧
      u.mem 0x7FFF2000 = 0xCC) ∧
    ∃ l u, Arm64Stub.through wiping64 Arm64Stub.exitStub full64 = some (l ++ [.ret 0x401136 u]) ∧
      u.get 4 = 0x33 ∧ u.rest.fpcr = 0x1000000 ∧
      u.mem 0x7FFF2000 = 0xCC := by
  obtain ⟨enters,leaves⟩ := stubsKeepContext.1 wiping86 full86 conforms86
  obtain ⟨enters',leaves'⟩ := stubsKeepContext.2 wiping64 full64 conforms64
  obtain ⟨t₁,t₂,t₃,u,run,_,_,intact,memory⟩ := leaves
  obtain ⟨v₁,v₂,v₃,v,run',_,intact',memory'⟩ := leaves'
  refine ⟨?_,⟨[.call .peekProbeIdC t₁,.call .ztHandleReturn t₂,.call .getRetAddrC t₃],u,run,?_,?_,
    ?_⟩,?_,
    ⟨[.call .peekProbeIdC v₁,.call .ztHandleReturn v₂,.call .getRetAddrC v₃],v,run',?_,?_,?_⟩⟩
  · obtain ⟨t₁,t₂,_,u,_,_,_,_,_,_,_,memory⟩ :=
      enters ⟨fun _ s => .next s,fun _ s => (s,false),fun _ => false⟩ id 0x5000 7 0
    exact ⟨t₁,t₂,u,memory,X86Stub.callerSaved memory fun _ _ => rfl,
      X86Stub.entryStays memory farAside.1 (by unfold WordMemory.Inside; decide) rfl rfl⟩
  · rw [intact.registers]
    rfl
  · rw [intact.vectors 3 (by decide)]
    rfl
  · exact X86Stub.exitStays memory farAside.1 rfl rfl rfl
  · obtain ⟨t₁,t₂,_,u,_,_,_,_,_,hijacked,memory⟩ := enters' ⟨fun _ s => .next s⟩ 0x5000 7 0
    exact ⟨t₁,t₂,u,memory,hijacked,Arm64Stub.entryStays memory farAside.2 rfl rfl⟩
  · rw [intact'.registers 4 (.inl (by decide))]
    rfl
  · rw [intact'.fpcr]
    rfl
  · exact Arm64Stub.exitStays memory' farAside.2 rfl rfl rfl

end ZeroTrace.ContextIntegrity
