import ZeroTrace.X86Replay
import ZeroTrace.Arm64Replay

/-! When a relocated prologue cannot be told from the one at its own address, on both
instruction sets. -/
namespace ZeroTrace.PrologueReplay
open CodeBuffer CodeListing ProbeTable

def startAddr (p : Probe) : UInt64 := UInt64.ofNat p.target.remoteAddr

def continueAddr (p : Probe) : UInt64 := UInt64.ofNat (p.target.remoteAddr + p.origLen)

def x86Insns (decode : X86Trampoline.Decoder) (p : Probe) : List X86Trampoline.Insn :=
  decode (p.origCode.take p.origLen) (startAddr p)

def arm64Insns (decode : Arm64Trampoline.Decoder) (p : Probe) : List Arm64Trampoline.Insn :=
  decode (p.origCode.take p.origLen) (startAddr p)

theorem behind {p : Probe} {n : Nat} (whole : n = p.origLen) :
    startAddr p + UInt64.ofNat n = continueAddr p := by
  rw [whole,startAddr,continueAddr,UInt64.ofNat_add]

/- For every trampoline that is built for a prologue that is disassembled to its end: it is
this code, and it is left as the prologue is when the prologue is left, on x86_64, by no
relative call, by no jump whose target is not in r11 already and by no branch that was
copied; on aarch64, with the address that it is left for in x16 already. The converse is
open on x86_64 where an instruction uses its own address in another way. -/
theorem relocatedPrologueTransparent {E : Type} {x86 : X86Replay.Isa E} {arm64 : Arm64Replay.Isa E}
    (x86Lawful : x86.Lawful)
    (arm64Lawful : arm64.Lawful) (x86Decode : X86Trampoline.Decoder)
    (arm64Decode : Arm64Trampoline.Decoder) (p : Probe)
    (entryStubAddr trampolineAddr : UInt64) (room : Nat) (out : Bytes) :
    (codeSize X86Trampoline.Insn.size (x86Insns x86Decode p) = p.origLen →
      X86Trampoline.buildTrampoline x86Decode p entryStubAddr trampolineAddr room = some out →
      (∃ n, out = X86Trampoline.callsStub p.probeId n ++ X86Replay.codeBytes (trampolineAddr + 16)
        (X86Replay.relocated (x86Insns x86Decode p) entryStubAddr (continueAddr p))) ∧
      ∀ s, (X86Replay.Keeps x86 (trampolineAddr + 16) (x86Insns x86Decode p) s →
          X86Replay.Transparent x86 (startAddr p) (trampolineAddr + 16) entryStubAddr
            (continueAddr p) (x86Insns x86Decode p) s) ∧
        ((∀ insn ∈ x86Insns x86Decode p, X86Replay.ownAddress x86 insn = false) →
          X86Replay.Transparent x86 (startAddr p) (trampolineAddr + 16) entryStubAddr
            (continueAddr p) (x86Insns x86Decode p) s →
          X86Replay.Keeps x86 (trampolineAddr + 16) (x86Insns x86Decode p) s)) ∧
    (codeSize Arm64Replay.size (arm64Insns arm64Decode p) = p.origLen →
      Arm64Trampoline.buildTrampoline arm64Decode p entryStubAddr trampolineAddr room = some out →
      ∃ front, Arm64Trampoline.emitStubCall room p.probeId entryStubAddr = some front ∧
        out = front ++ (Arm64Replay.relocated (arm64Insns arm64Decode p) (continueAddr p)).flatMap
          Arm64Replay.encode ∧
        ∀ s, Arm64Replay.Transparent arm64 (startAddr p)
          (trampolineAddr + UInt64.ofNat front.length) (continueAddr p)
            (arm64Insns arm64Decode p) s ↔
          Arm64Replay.Keeps arm64 (trampolineAddr + UInt64.ofNat front.length) (continueAddr p)
            (arm64Insns arm64Decode p) s) := by
  refine ⟨fun whole ok => ⟨X86Replay.builtBytes ok,fun s => ⟨?_,?_⟩⟩,fun whole ok => ?_⟩
  · exact X86Replay.keepsTransparent x86Lawful (X86Replay.builtAccepted ok) (behind whole)
  · exact X86Replay.transparentKeeps x86Lawful (X86Replay.builtAccepted ok)
  · obtain ⟨front,stub,bytes,accepted⟩ := Arm64Replay.builtBytes ok
    exact ⟨front,stub,bytes,fun s => Arm64Replay.transparentIff arm64Lawful accepted (behind whole)⟩

section Prologues

def pushRbp : X86Trampoline.Insn := ⟨.other 0,0x1000,[0x55],[.other],0,0,0⟩
def movRbpRsp : X86Trampoline.Insn := ⟨.other 1,0x1001,[0x48,0x89,0xE5],[.other,.other],0,0,0⟩
def callNear : X86Trampoline.Insn := ⟨.call,0x1000,[0xE8,0xFB,0x1F,0x00,0x00],[.imm 0x3000],0,1,4⟩

def x86Isa : X86Replay.Isa Unit where
  exec insn s := if insn.operands.contains (.mem .rip) then .leave ⟨.fault,0,s⟩
    else if insn.bytes = pushRbp.bytes then .next (s.push (s.reg .rbp))
    else if insn.bytes = movRbpRsp.bytes then .next (s.set .rbp (s.reg .rsp))
    else .leave ⟨.fault,0,s⟩
  loops _ s := (s,false)
  tells _ := false

def nop : Arm64Trampoline.Insn := ⟨.other 0,0x1000,[0x1F,0x20,0x03,0xD5],[],0⟩

def arm64Isa : Arm64Replay.Isa Unit where
  exec insn s := if insn.bytes = nop.bytes then .next s else .leave ⟨.fault,0,s⟩

def probe (code : Bytes) : Probe :=
  { Probe.zero with
      probeId := 1, target := ⟨[],[],0x1000⟩, origCode := code, origLen := code.length }

def x86State : X86Replay.State Unit :=
  ⟨fun _ => 0,⟨false,false,false,false,false,false,false⟩,fun _ => 0,()⟩

def arm64State (x16 : UInt64) : Arm64Replay.State Unit :=
  ⟨fun i => if i.val = 16 then x16 else 0,0,⟨false,false,false,false⟩,fun _ => 0,()⟩

theorem x86IsaLawful : x86Isa.Lawful where
  anywhere insn a s _ _ _ := alikeRefl X86Replay.sameRefl (x86Isa.exec insn s)
  rebased insn a s _ rip _ _ := by
    simp only [x86Isa,X86Replay.rebase,if_pos rip]
    exact .leave (X86Replay.sameRefl _)

theorem arm64IsaLawful : arm64Isa.Lawful :=
  fun insn _ s _ => alikeRefl Arm64Replay.sameRefl (arm64Isa.exec insn s)

theorem plainPrologues :
    X86Replay.Transparent x86Isa 0x1000 (0x5000 + 16) 0x7000 0x1004 [pushRbp,movRbpRsp] x86State ∧
    ∃ front, Arm64Trampoline.emitStubCall 512 1 0x7000 = some front ∧
      Arm64Replay.Transparent arm64Isa 0x1000 (0x5000 + UInt64.ofNat front.length) 0x1004 [nop]
        (arm64State 0x1004) := by
  obtain ⟨x86,x86Ok⟩ : ∃ out, X86Trampoline.buildTrampoline (fun _ _ => [pushRbp,movRbpRsp])
      (probe (pushRbp.bytes ++ movRbpRsp.bytes)) 0x7000 0x5000 512 = some out :=
        Option.isSome_iff_exists.mp (by decide)
  obtain ⟨arm64,arm64Ok⟩ : ∃ out,
    Arm64Trampoline.buildTrampoline (fun _ _ => [nop]) (probe nop.bytes) 0x7000 0x5000 512 =
    some out :=
    Option.isSome_iff_exists.mp (by decide)
  have first := (relocatedPrologueTransparent x86IsaLawful arm64IsaLawful
      (fun _ _ => [pushRbp,movRbpRsp]) (fun _ _ => []) _ _ _ _ _).1
    (by decide) x86Ok
  obtain ⟨front,stub,_,second⟩ :=
    (relocatedPrologueTransparent x86IsaLawful arm64IsaLawful (fun _ _ => [])
    (fun _ _ => [nop]) _ _ _ _ _).2
    (by decide) arm64Ok
  refine ⟨(first.2 x86State).1 ⟨X86Replay.keptNext rfl rfl,X86Replay.keptNext rfl rfl,trivial⟩,
    front,stub,?_⟩
  have kept : Arm64Replay.Kept arm64Isa nop (arm64State 0x1004) := fun e bad => by cases bad
  exact (second (arm64State 0x1004)).mpr ⟨kept,rfl⟩

/- A relative call, and a nop that falls through with zero in x16. -/
theorem callAndNopDiffer :
    (∃ out, X86Trampoline.buildTrampoline (fun _ _ => [callNear])
      (probe callNear.bytes) 0x7000 0x5000 512 = some out ∧
      ¬ X86Replay.Transparent x86Isa 0x1000 (0x5000 + 16) 0x7000 0x1005 [callNear] x86State) ∧
    ∃ out front, Arm64Trampoline.buildTrampoline (fun _ _ => [nop]) (probe nop.bytes) 0x7000 0x5000
      512 = some out ∧
      Arm64Trampoline.emitStubCall 512 1 0x7000 = some front ∧
      ¬ Arm64Replay.Transparent arm64Isa 0x1000 (0x5000 + UInt64.ofNat front.length) 0x1004 [nop]
        (arm64State 0) := by
  obtain ⟨x86,x86Ok⟩ : ∃ out, X86Trampoline.buildTrampoline (fun _ _ => [callNear])
    (probe callNear.bytes) 0x7000 0x5000 512 = some out :=
    Option.isSome_iff_exists.mp (by decide)
  obtain ⟨arm64,arm64Ok⟩ : ∃ out,
    Arm64Trampoline.buildTrampoline (fun _ _ => [nop]) (probe nop.bytes) 0x7000 0x5000 512 =
    some out :=
    Option.isSome_iff_exists.mp (by decide)
  obtain ⟨front,stub,_,accepted⟩ := Arm64Replay.builtBytes arm64Ok
  refine ⟨⟨x86,x86Ok,fun transparent => ?_⟩,arm64,front,arm64Ok,stub,fun transparent => ?_⟩
  · have keeps := X86Replay.transparentKeeps x86IsaLawful (X86Replay.builtAccepted x86Ok)
      (by decide) transparent
    have bad := keeps.1.call _ rfl
    cases bad
  · have keeps := (Arm64Replay.transparentIff arm64IsaLawful accepted rfl).mp transparent
    have bad : (arm64State 0).get 16 = 0x1004 := keeps.2
    exact absurd bad (by decide)

end Prologues

end ZeroTrace.PrologueReplay
