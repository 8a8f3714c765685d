import ZeroTrace.CodeListing
import ZeroTrace.X86Trampoline

/-! What a prologue does at its own address, and what the code does that the x86_64
trampoline has for it. An instruction that is copied does what the processor says; those
that the builder writes itself are spelled out. -/
namespace ZeroTrace.X86Replay
open PatchCode CodeBuffer CodeListing ProbeTable X86Trampoline

inductive Reg where
  | rax | rcx | rdx | rbx | rsp | rbp | rsi | rdi | r8 | r9 | r10 | r11 | r12 | r13 | r14 | r15
  deriving DecidableEq, Repr

structure Flags where
  carry : Bool
  parity : Bool
  adjust : Bool
  zero : Bool
  sign : Bool
  direction : Bool
  overflow : Bool
  deriving DecidableEq, Repr

/- `rest` is whatever else the machine has. -/
structure State (E : Type) where
  reg : Reg → UInt64
  flags : Flags
  mem : UInt64 → UInt8
  rest : E

inductive Way where
  | jump | call | fault
  deriving DecidableEq, Repr

structure Exit (E : Type) where
  way : Way
  target : UInt64
  state : State E

variable {E : Type}

def State.set (s : State E) (r : Reg) (v : UInt64) : State E :=
  { s with reg := Function.update s.reg r v }

def State.push (s : State E) (v : UInt64) : State E :=
  let sp := s.reg .rsp - 8
  { s with reg := Function.update s.reg .rsp sp, mem := fun x => if (x - sp).toNat <
    8 then byteAt v (x - sp).toNat else s.mem x }

def State.word (s : State E) (a : UInt64) : UInt64 :=
  UInt64.ofNat (((List.range 8).map fun k => (s.mem (a + UInt64.ofNat k)).toNat * 256^k).foldr
    (· + ·) 0)

def State.pop (s : State E) (r : Reg) : State E :=
  (s.set .rsp (s.reg .rsp + 8)).set r (s.word (s.reg .rsp))

def holds (f : Flags) : Cond → Bool
  | .o => f.overflow
  | .no => !f.overflow
  | .b => f.carry
  | .ae => !f.carry
  | .e => f.zero
  | .ne => !f.zero
  | .be => f.carry || f.zero
  | .a => !(f.carry || f.zero)
  | .s => f.sign
  | .ns => !f.sign
  | .p => f.parity
  | .np => !f.parity
  | .l => f.sign != f.overflow
  | .ge => !(f.sign != f.overflow)
  | .le => f.zero || (f.sign != f.overflow)
  | .g => !(f.zero || (f.sign != f.overflow))

/- `loops` is for the branches that the builder does not rewrite: what the instruction with
these bytes does to the state, and whether it goes to its target. `tells`: it leaves its own
address somewhere, as syscall does in rcx; a call does not count. -/
structure Isa (E : Type) where
  exec : Insn → State E → Outcome (State E) (Exit E)
  loops : Bytes → State E → State E × Bool
  tells : Insn → Bool

def loopTo (isa : Isa E) (bytes : Bytes) (target : UInt64) (s : State E) :
    Outcome (State E) (Exit E) :=
  if (isa.loops bytes s).2 then .leave ⟨.jump,target,(isa.loops bytes s).1⟩
    else .next (isa.loops bytes s).1

def meaning (isa : Isa E) (insn : Insn) (s : State E) : Outcome (State E) (Exit E) :=
  match insn.id,relTarget insn.operands with
  | .call,some target => .leave ⟨.call,target,s.push (insn.address + UInt64.ofNat insn.size)⟩
  | .jmp,some target => .leave ⟨.jump,target,s⟩
  | .jcc c,some target => if holds s.flags c then .leave ⟨.jump,target,s⟩ else .next s
  | .loop,some target => loopTo isa insn.bytes target s
  | .loope,some target => loopTo isa insn.bytes target s
  | .loopne,some target => loopTo isa insn.bytes target s
  | .xbegin,some target => loopTo isa insn.bytes target s
  | _,_ => isa.exec insn s

def original (isa : Isa E) (a : UInt64) (insns : List Insn) (s : State E) : Option (Exit E) :=
  execute Insn.size (fun _ insn s => (meaning isa insn s).goesOn 0) (fun a s => some ⟨.jump,a,s⟩) a
    0 insns s

inductive Emitted where
  | pushR11
  | movabsR11 (v : UInt64)
  | callR11
  | popR11
  | jmpR11
  | jccShort (c : Cond) (skip : Nat)
  | copied (insn : Insn)
  | jmpSlot (entryStubAddr continueAddr : UInt64)

def inverse : Cond → Cond
  | .o => .no
  | .no => .o
  | .b => .ae
  | .ae => .b
  | .e => .ne
  | .ne => .e
  | .be => .a
  | .a => .be
  | .s => .ns
  | .ns => .s
  | .p => .np
  | .np => .p
  | .l => .ge
  | .ge => .l
  | .le => .g
  | .g => .le

def shortOpcode : Cond → UInt8
  | .o => 0x70
  | .no => 0x71
  | .b => 0x72
  | .ae => 0x73
  | .e => 0x74
  | .ne => 0x75
  | .be => 0x76
  | .a => 0x77
  | .s => 0x78
  | .ns => 0x79
  | .p => 0x7A
  | .np => 0x7B
  | .l => 0x7C
  | .ge => 0x7D
  | .le => 0x7E
  | .g => 0x7F

def rebase (a : UInt64) (insn : Insn) : Insn :=
  let disp := insn.address + UInt64.ofNat insn.size + insn.disp - (a + UInt64.ofNat insn.size)
  { insn with address := a, disp := disp, bytes := overwrite insn.bytes insn.dispOffset (leBytes 4 disp) }

def copyAt (a : UInt64) (insn : Insn) : Insn :=
  if insn.operands.contains (.mem .rip) then rebase a insn else { insn with address := a }

/- A branch that is copied keeps its distance, not its target. -/
def copyMeaning (isa : Isa E) (a : UInt64) (insn : Insn)
    (s : State E) : Outcome (State E) (Exit E) :=
  match insn.id,relTarget insn.operands with
  | .loop,some target => loopTo isa insn.bytes (target + (a - insn.address)) s
  | .loope,some target => loopTo isa insn.bytes (target + (a - insn.address)) s
  | .loopne,some target => loopTo isa insn.bytes (target + (a - insn.address)) s
  | .xbegin,some target => loopTo isa insn.bytes (target + (a - insn.address)) s
  | _,_ => isa.exec (copyAt a insn) s

def encode (a : UInt64) : Emitted → Bytes
  | .pushR11 => pushR11
  | .movabsR11 v => movabsR11 ++ leBytes 8 v
  | .callR11 => callR11
  | .popR11 => popR11
  | .jmpR11 => jmpR11
  | .jccShort c skip => [shortOpcode c,UInt8.ofNat skip]
  | .copied insn => (copyAt a insn).bytes
  | .jmpSlot entryStubAddr continueAddr => jumpsBack entryStubAddr continueAddr

def emittedSize : Emitted → Nat
  | .pushR11 => 2
  | .movabsR11 _ => 10
  | .callR11 => 3
  | .popR11 => 2
  | .jmpR11 => 3
  | .jccShort _ _ => 2
  | .copied insn => insn.size
  | .jmpSlot _ _ => 22

def codeBytes : UInt64 → List Emitted → Bytes
  | _,[] => []
  | a,e::l => encode a e ++ codeBytes (a + UInt64.ofNat (emittedSize e)) l

def step (isa : Isa E) (a : UInt64) (e : Emitted)
    (s : State E) : Outcome (Nat × State E) (Exit E) := match e with
  | .pushR11 => .next (0,s.push (s.reg .r11))
  | .movabsR11 v => .next (0,s.set .r11 v)
  | .callR11 => .leave ⟨.call,s.reg .r11,s.push (a + 3)⟩
  | .popR11 => .next (0,s.pop .r11)
  | .jmpR11 => .leave ⟨.jump,s.reg .r11,s⟩
  | .jccShort c skip => .next (if holds s.flags c then skip else 0,s)
  | .copied insn => (copyMeaning isa a insn s).goesOn 0
  | .jmpSlot _ continueAddr => .leave ⟨.jump,continueAddr,s⟩

def expand (insn : Insn) : List Emitted := match insn.id,relTarget insn.operands with
  | .call,some target => [.pushR11,.movabsR11 target,.callR11,.popR11]
  | .jmp,some target => [.movabsR11 target,.jmpR11]
  | .jcc c,some target => [.jccShort (inverse c) 13,.movabsR11 target,.jmpR11]
  | _,_ => [.copied insn]

def relocated (insns : List Insn) (entryStubAddr continueAddr : UInt64) : List Emitted :=
  listing expand insns ++ [.jmpSlot entryStubAddr continueAddr]

def replayed (isa : Isa E) (a : UInt64) (code : List Emitted) (s : State E) : Option (Exit E) :=
  execute emittedSize (step isa) (fun _ _ => none) a 0 code s

/-! The bytes that the builder writes are those of this code. -/
theorem encodeLength (a : UInt64) (e : Emitted) : (encode a e).length = emittedSize e := by
  cases e with
  | copied insn =>
    simp only [encode,copyAt,emittedSize]
    split
    · simp [rebase]
    · rfl
  | jmpSlot => exact jumpsBackLength _ _
  | movabsR11 v => simp [encode,emittedSize,movabsR11,leBytesLength]
  | pushR11 | callR11 | popR11 | jmpR11 | jccShort => rfl

theorem codeBytesLength
    (a : UInt64) (l : List Emitted) : (codeBytes a l).length = codeSize emittedSize l := by
  induction l generalizing a with
  | nil => rfl
  | cons e l ih => simp [codeBytes,codeSize,encodeLength,ih]

theorem codeBytesAppend (a : UInt64) (l l' : List Emitted) :
    codeBytes a (l ++ l') = codeBytes a l ++ codeBytes (a + UInt64.ofNat (codeSize emittedSize l))
      l' := by
  induction l generalizing a with
  | nil => rw [addressHere]; rfl
  | cons e l ih => rw [List.cons_append,codeBytes,codeBytes,ih,addressAfter,List.append_assoc]

theorem inverseOpcode
    (c : Cond) : inverseShortJccOpcode (.jcc c) = some (shortOpcode (inverse c)) := by
  cases c <;> rfl

theorem copyBytes {room codeAddr buf insn out} (ok : copyInsn room codeAddr buf insn = some out) :
    out = buf ++ (copyAt (codeAddr + UInt64.ofNat buf.length) insn).bytes := by
  simp only [copyInsn,bind,Option.bind_eq_some_iff] at ok
  obtain ⟨next,copied,rest⟩ := ok
  unfold copyAt
  split at rest
  · next rip =>
    rw [if_pos rip]
    simp only [patchDisp32] at rest
    split at rest
    · cases rest
    · rw [← Option.some.inj rest,emitBytesSome copied]
      exact overwriteBehind buf insn.bytes _ _
  · next plain =>
    rw [if_neg plain,← Option.some.inj rest]
    exact emitBytesSome copied

theorem relCallIs {insn : Insn} (call : isRelCall insn = true) : ∃ target, insn.id = .call ∧ relTarget insn.operands = some target := by
  simp only [isRelCall,Bool.and_eq_true,beq_iff_eq,Option.isSome_iff_exists] at call
  exact ⟨call.2.choose,call.1,call.2.choose_spec⟩

theorem relJmpIs {insn : Insn} (jmp : isRelJmp insn = true) : ∃ target, insn.id = .jmp ∧
    relTarget insn.operands = some target := by
  simp only [isRelJmp,Bool.and_eq_true,beq_iff_eq,Option.isSome_iff_exists] at jmp
  exact ⟨jmp.2.choose,jmp.1,jmp.2.choose_spec⟩

theorem condJmpIs {room buf insn target out} (ok : rewriteCondJmp room buf insn target = some out) :
    ∃ c, insn.id = .jcc c := by
  simp only [rewriteCondJmp,bind,Option.bind_eq_some_iff] at ok
  obtain ⟨opcode,found,_⟩ := ok
  cases id : insn.id with
  | jcc c => exact ⟨c,rfl⟩
  | _ => rw [id] at found; cases found

theorem expandCopied {insn : Insn} (call : isRelCall insn ≠ true) (jmp : isRelJmp insn ≠ true)
    (jcc : isConditionalJump insn ≠ true) :
    expand insn = [.copied insn] := by
  unfold expand
  split
  · next id target => exact absurd (by simp [isRelCall,id,target]) call
  · next id target => exact absurd (by simp [isRelJmp,id,target]) jmp
  · next id target => exact absurd (by simp [isConditionalJump,id]) jcc
  · rfl

theorem insnBytes {room codeAddr buf insn out}
    (ok : emitRelocatedInsn room codeAddr buf insn = some out) :
    out = buf ++ codeBytes (codeAddr + UInt64.ofNat buf.length) (expand insn) := by
  unfold emitRelocatedInsn at ok
  split at ok
  · next call =>
    obtain ⟨target,id,operand⟩ := relCallIs call
    simp only [operand,bind,Option.bind_some] at ok
    rw [emitAllSome ok]
    simp [expand,id,operand,codeBytes,encode]
  · next call =>
    split at ok
    · next jmp =>
      obtain ⟨target,id,operand⟩ := relJmpIs jmp
      simp only [operand,bind,Option.bind_some] at ok
      rw [emitAllSome ok]
      simp [expand,id,operand,codeBytes,encode]
    · next jmp =>
      split at ok
      · obtain ⟨target,operand,rewritten⟩ := Option.bind_eq_some_iff.mp ok
        obtain ⟨c,id⟩ := condJmpIs rewritten
        simp only [rewriteCondJmp,bind,Option.bind_eq_some_iff,id,inverseOpcode] at rewritten
        obtain ⟨opcode,found,next,skip,jump⟩ := rewritten
        cases Option.some.inj found
        rw [emitAllSome jump,emitBytesSome skip]
        simp [expand,id,operand,codeBytes,encode]
      · next jcc =>
        rw [copyBytes ok,expandCopied call jmp jcc]
        simp [codeBytes,encode]

theorem insnsBytes {room codeAddr buf insns out}
    (ok : emitInsns room codeAddr buf insns = some out) :
    out = buf ++ codeBytes (codeAddr + UInt64.ofNat buf.length) (listing expand insns) := by
  induction insns generalizing buf with
  | nil => simpa [listing,codeBytes] using (Option.some.inj ok).symm
  | cons insn insns ih =>
    obtain ⟨next,first,rest⟩ := Option.bind_eq_some_iff.mp ok
    have here := insnBytes first
    rw [ih rest,here,listing,codeBytesAppend,List.append_assoc,List.length_append,codeBytesLength,
      UInt64.ofNat_add,UInt64.add_assoc]

theorem builtBytes {decode : Decoder} {p entryStubAddr trampolineAddr room out}
    (ok : buildTrampoline decode p entryStubAddr trampolineAddr room = some out) :
    ∃ n, out = callsStub p.probeId n ++ codeBytes (trampolineAddr + 16)
      (relocated (decode (p.origCode.take p.origLen) (UInt64.ofNat p.target.remoteAddr))
        entryStubAddr
        (UInt64.ofNat (p.target.remoteAddr + p.origLen))) := by
  obtain ⟨code,emitted,_,_,rfl⟩ := built ok
  refine ⟨code.length,?_⟩
  unfold emitRelocatedOrigCode at emitted
  split at emitted
  · cases emitted
  · have same := insnsBytes emitted
    rw [List.nil_append,List.length_nil] at same
    rw [relocated,codeBytesAppend,List.append_assoc,same]
    simp [codeBytes,encode]

/- A displacement that reaches the operand from the copy. -/
def Reaches (a : UInt64) (insn : Insn) : Prop :=
  insn.dispSize = 4 ∧ -2^31 ≤ signed (rebase a insn).disp ∧ signed (rebase a insn).disp ≤ 2^31 - 1

structure Accepted (a : UInt64) (insn : Insn) : Prop where
  jump : isConditionalJump insn = true → ∃ c target, insn.id = .jcc c ∧
    relTarget insn.operands = some target
  reaches : expand insn = [.copied insn] → insn.operands.contains (.mem .rip) = true →
    Reaches a insn

theorem insnAccepted {room codeAddr buf insn out}
    (ok : emitRelocatedInsn room codeAddr buf insn = some out) :
    Accepted (codeAddr + UInt64.ofNat buf.length) insn := by
  unfold emitRelocatedInsn at ok
  split at ok
  · next call =>
    obtain ⟨target,id,operand⟩ := relCallIs call
    exact ⟨by simp [isConditionalJump,id],fun bad => absurd bad (by simp [expand,id,operand])⟩
  · split at ok
    · next jmp =>
      obtain ⟨target,id,operand⟩ := relJmpIs jmp
      exact ⟨by simp [isConditionalJump,id],fun bad => absurd bad (by simp [expand,id,operand])⟩
    · split at ok
      · obtain ⟨target,operand,rewritten⟩ := Option.bind_eq_some_iff.mp ok
        obtain ⟨c,id⟩ := condJmpIs rewritten
        exact ⟨fun _ => ⟨c,target,id,operand⟩,fun bad => absurd bad (by simp [expand,id,operand])⟩
      · next jcc =>
        refine ⟨fun bad => absurd bad jcc,fun _ rip => ?_⟩
        simp only [copyInsn,bind,Option.bind_eq_some_iff,if_pos rip,patchDisp32] at ok
        obtain ⟨next,_,rest⟩ := ok
        split at rest
        · cases rest
        · next fits =>
          simp only [not_or,Decidable.not_not,Int.not_lt] at fits
          exact fits

theorem insnsAccepted {room codeAddr buf insns out}
    (ok : emitInsns room codeAddr buf insns = some out) :
    Placed emittedSize expand Accepted (codeAddr + UInt64.ofNat buf.length) insns := by
  induction insns generalizing buf with
  | nil => trivial
  | cons insn insns ih =>
    obtain ⟨next,first,rest⟩ := Option.bind_eq_some_iff.mp ok
    refine ⟨insnAccepted first,?_⟩
    have others := ih rest
    rwa [insnBytes first,List.length_append,codeBytesLength,UInt64.ofNat_add,
      ← UInt64.add_assoc] at others

/-! What stands for an instruction comes to this. -/
def moved (isa : Isa E) (a : UInt64) (insn : Insn) (s : State E) : Outcome (State E) (Exit E) :=
  match insn.id,relTarget insn.operands with
  | .call,some target =>
      .leave ⟨.call,target,((s.push (s.reg .r11)).set .r11 target).push (a + 2 + 10 + 3)⟩
  | .jmp,some target => .leave ⟨.jump,target,s.set .r11 target⟩
  | .jcc c,some target =>
      if holds s.flags c then .leave ⟨.jump,target,s.set .r11 target⟩ else .next s
  | _,_ => copyMeaning isa a insn s

theorem holdsInverse (f : Flags) (c : Cond) : holds f (inverse c) = !holds f c := by
  cases c <;> simp [holds,inverse]

theorem setSame (s : State E) (r : Reg) (v : UInt64) : (s.set r v).reg r = v := by simp [State.set]

/- A rewritten call puts r11 back. -/
def resume (insn : Insn) (s : State E) : State E := if isRelCall insn then s.pop .r11 else s

theorem resumeOther {insn : Insn} (call : isRelCall insn = false)
    (s : State E) : resume insn s = s := by simp [resume,call]

theorem follows (isa : Isa E) (back : Exit E → Option (State E)) (insn : Insn) :
    Follows emittedSize (step isa) expand (moved isa) back resume insn := by
  intro fall a s
  unfold moved expand
  split
  · next target id operand =>
    have call : isRelCall insn = true := by simp [isRelCall,id,operand]
    simp only [resume,if_pos call]
    rw [walkNext rfl,walkNext rfl,walkLeave rfl,setSame]
    congr 1
    funext s'
    rw [walkNext rfl]
    simp only [walk,codeSize,UInt64.ofNat_add,UInt64.add_assoc,Nat.add_zero]
  · next target id operand =>
    have call : isRelCall insn = false := by simp [isRelCall,id]
    simp only [resumeOther call]
    rw [walkNext rfl,walkLeave rfl,setSame]
    simp only [walk,codeSize,UInt64.ofNat_add,UInt64.add_assoc,Nat.add_zero]
  · next c target id operand =>
    have call : isRelCall insn = false := by simp [isRelCall,id]
    simp only [resumeOther call]
    by_cases taken : holds s.flags c = true
    · have untaken : step isa a (.jccShort (inverse c) 13) s = .next (0,s) := by
        simp [step,holdsInverse,taken]
      rw [if_pos taken,walkNext untaken,walkNext rfl,walkLeave rfl,setSame]
      simp only [walk,codeSize,UInt64.ofNat_add,UInt64.add_assoc,Nat.add_zero]
    · -- The inverse condition skips the jump.
      have skips : step isa a (.jccShort (inverse c) 13) s = .next (13,s) := by
        simp [step,holdsInverse,taken]
      have positive : ∀ e ∈ [Emitted.movabsR11 target,.jmpR11], 0 < emittedSize e :=
        by simp [emittedSize]
      rw [if_neg taken,walkNext skips]
      refine (walkOver positive).trans ?_
      rw [addressAfter]
  · next call _ _ =>
    have other : isRelCall insn = false := by
      cases is : isRelCall insn with
      | false => rfl
      | true =>
        obtain ⟨target,id,operand⟩ := relCallIs is
        exact (call target id operand).elim
    simp only [resumeOther other]
    cases outcome : copyMeaning isa a insn s with
    | next s' => rw [walkNext (by simp only [step,outcome]; rfl)]; simp only [walk,codeSize,
        emittedSize,Nat.add_zero]
    | leave e => rw [walkLeave (by simp only [step,outcome]; rfl)]; simp only [walk,codeSize,
        emittedSize,Nat.add_zero]

theorem standsFor (isa : Isa E) (insn : Insn) :
    Stands emittedSize (step isa) (fun _ _ => none) expand (moved isa) insn :=
  followsStands (follows isa (fun _ => none) insn)

/- Where both arrive and with what; a function that is called finds its return address at the
top of the stack. -/
structure Same (e e' : Exit E) : Prop where
  way : e'.way = e.way
  target : e'.target = e.target
  reg : e'.state.reg = e.state.reg
  flags : e'.state.flags = e.state.flags
  rest : e'.state.rest = e.state.rest
  mem : ∀ x, ¬ (e.way = .call ∧ (x - e.state.reg .rsp).toNat < 8) → e'.state.mem x = e.state.mem x

theorem sameRefl (e : Exit E) : Same e e := ⟨rfl,rfl,rfl,rfl,rfl,fun _ _ => rfl⟩

def relative (insn : Insn) : Bool := (relTarget insn.operands).isSome && match insn.id with
  | .other _ => false
  | _ => true

def loops (insn : Insn) : Bool := (relTarget insn.operands).isSome && match insn.id with
  | .loop | .loope | .loopne | .xbegin => true
  | _ => false

/- An instruction that uses its own address, other than by an operand relative to rip. -/
def ownAddress (isa : Isa E) (insn : Insn) : Bool := insn.operands.contains (.mem .eip) ||
    isa.tells insn

/- What the processor does with an instruction does not depend on its address, a return
address apart, unless the instruction says so; with an operand relative to the next
instruction it depends on where that operand is. -/
structure Isa.Lawful (isa : Isa E) : Prop where
  anywhere : ∀ insn a s, relative insn = false → insn.operands.contains (.mem .rip) = false →
    ownAddress isa insn = false →
    (isa.exec insn s).Alike Same (isa.exec { insn with address := a } s)
  rebased : ∀ insn a s, relative insn = false → insn.operands.contains (.mem .rip) = true →
    ownAddress isa insn = false →
    Reaches a insn → (isa.exec insn s).Alike Same (isa.exec (rebase a insn) s)

/- When an instruction leaves the prologue: it is no call; a jump that is rewritten finds its
target in r11; and one that is copied is where it was. One that uses its own address does
the same from its copy. -/
structure Kept (isa : Isa E) (a : UInt64) (insn : Insn) (s : State E) : Prop where
  own : ownAddress isa insn = true → (meaning isa insn s).Alike Same (moved isa a insn s)
  call : ∀ e, meaning isa insn s = .leave e → isRelCall insn = false
  jump : ∀ e, meaning isa insn s = .leave e → isRelJmp insn = true ∨ isConditionalJump insn = true →
    s.reg .r11 = e.target
  loop : ∀ e, meaning isa insn s = .leave e → loops insn = true → a = insn.address

section Compare
variable {isa : Isa E} {a : UInt64} {insn : Insn} {s : State E}

inductive Kind (insn : Insn) : Prop where
  | call {target} (id : insn.id = .call) (operand : relTarget insn.operands = some target)
  | jmp {target} (id : insn.id = .jmp) (operand : relTarget insn.operands = some target)
  | jcc {c target} (id : insn.id = .jcc c) (operand : relTarget insn.operands = some target)
  | loop {target} (is : loops insn = true) (operand : relTarget insn.operands = some target)
  | plain (not : relative insn = false)

theorem kind (accepted : Accepted a insn) : Kind insn := by
  have jump := accepted.jump
  cases operand : relTarget insn.operands with
  | none => exact .plain (by simp [relative,operand])
  | some target =>
    cases id : insn.id with
    | call => exact .call id operand
    | jmp => exact .jmp id operand
    | jcc c => exact .jcc id operand
    | jcxz | jecxz | jrcxz => simp [isConditionalJump,id] at jump
    | loop | loope | loopne | xbegin => exact .loop (by simp [loops,operand,id]) operand
    | other n => exact .plain (by simp [relative,id])

theorem loopMeanings {target : UInt64} (is : loops insn = true)
    (operand : relTarget insn.operands = some target) :
    meaning isa insn s = loopTo isa insn.bytes target s ∧
      moved isa a insn s = loopTo isa insn.bytes (target + (a - insn.address)) s := by
  simp only [loops,operand,Option.isSome_some,Bool.true_and] at is
  cases id : insn.id with
  | loop | loope | loopne | xbegin => simp [meaning,moved,copyMeaning,id,operand]
  | _ => rw [id] at is; cases is

theorem plainId (not : relative insn = false) : relTarget insn.operands = none ∨
    ∃ n, insn.id = .other n := by
  cases operand : relTarget insn.operands with
  | none => exact .inl rfl
  | some target =>
    simp only [relative,operand,Option.isSome_some,Bool.true_and] at not
    cases id : insn.id with
    | other n => exact .inr ⟨n,rfl⟩
    | _ => rw [id] at not; cases not

theorem plainCopied (not : relative insn = false) : expand insn = [.copied insn] := by
  rcases plainId not with operand | ⟨n,id⟩
  · cases id : insn.id <;> simp [expand,id,operand]
  · simp [expand,id]

theorem plainMeanings (not : relative insn = false) : meaning isa insn s = isa.exec insn s ∧
    moved isa a insn s = isa.exec (copyAt a insn) s := by
  rcases plainId not with operand | ⟨n,id⟩
  · cases id : insn.id <;> simp [meaning,moved,copyMeaning,id,operand]
  · simp [meaning,moved,copyMeaning,id]

theorem plainAlike (lawful : isa.Lawful) (accepted : Accepted a insn)
    (near : ownAddress isa insn = false)
    (not : relative insn = false) : (meaning isa insn s).Alike Same (moved isa a insn s) := by
  obtain ⟨there,here⟩ := @plainMeanings E isa a insn s not
  rw [there,here,copyAt]
  split
  · next rip => exact lawful.rebased insn a s not rip near (accepted.reaches (plainCopied not) rip)
  · next rip => exact lawful.anywhere insn a s not (Bool.eq_false_iff.mpr rip) near

/- A rewritten jump has put its target into r11. -/
theorem jumpSame {target : UInt64} : Same ⟨.jump,target,s⟩ ⟨.jump,target,s.set .r11 target⟩ ↔
    s.reg .r11 = target := by
  constructor
  · intro same
    have here := congrFun same.reg .r11
    rw [setSame] at here
    exact here.symm
  · rintro rfl
    exact ⟨rfl,rfl,Function.update_eq_self _ _,rfl,rfl,fun _ _ => rfl⟩

/- A rewritten call has a word more on the stack. -/
theorem callDiffers {target ret ret' v : UInt64} :
    ¬ Same ⟨.call,target,s.push ret⟩ ⟨.call,target,((s.push v).set .r11 target).push ret'⟩ := by
  intro same
  have here := congrFun same.reg .rsp
  simp [State.push,State.set] at here

theorem keptNext {s' : State E} (near : ownAddress isa insn = false)
    (there : meaning isa insn s = .next s') :
    Kept isa a insn s := by
  have never : ∀ e, meaning isa insn s ≠ .leave e := fun e bad => by rw [there] at bad; cases bad
  exact ⟨fun bad => absurd (near.symm.trans bad) (by simp),fun e bad => absurd bad (never e),
    fun e bad => absurd bad (never e),
    fun e bad => absurd bad (never e)⟩

theorem alikeJump {target : UInt64} (near : ownAddress isa insn = false)
    (is : isRelJmp insn = true ∨ isConditionalJump insn = true)
    (call : isRelCall insn = false) (loop : loops insn = false)
    (there : meaning isa insn s = .leave ⟨.jump,target,s⟩)
    (here : moved isa a insn s = .leave ⟨.jump,target,s.set .r11 target⟩) :
    (meaning isa insn s).Alike Same (moved isa a insn s) ↔ Kept isa a insn s := by
  constructor
  · intro alike
    rw [there,here] at alike
    have found := jumpSame.mp (alikeLeave.mp alike)
    refine ⟨fun bad => absurd (near.symm.trans bad) (by simp),fun _ _ => call,fun e leaves _ => ?_,
      fun _ _ bad => absurd (loop.symm.trans bad) (by simp)⟩
    rw [there] at leaves
    cases leaves
    exact found
  · intro kept
    have found := kept.jump _ there is
    rw [there,here]
    exact alikeLeave.mpr (jumpSame.mpr found)

theorem alikeLoop {target : UInt64} (near : ownAddress isa insn = false) (is : loops insn = true)
    (operand : relTarget insn.operands = some target) :
    (meaning isa insn s).Alike Same (moved isa a insn s) ↔ Kept isa a insn s := by
  obtain ⟨there,here⟩ := @loopMeanings E isa a insn s target is operand
  have call : isRelCall insn = false := by
    cases id : insn.id <;> simp_all [loops,isRelCall]
  have jump : ¬ (isRelJmp insn = true ∨ isConditionalJump insn = true) := by
    cases id : insn.id <;> simp_all [loops,isRelJmp,isConditionalJump]
  by_cases taken : (isa.loops insn.bytes s).2 = true
  · simp only [loopTo,if_pos taken] at there here
    constructor
    · intro alike
      rw [there,here] at alike
      have same := (alikeLeave.mp alike).target
      refine ⟨fun bad => absurd (near.symm.trans bad) (by simp),fun _ _ => call,
        fun _ _ bad => absurd bad jump,fun _ _ _ => ?_⟩
      have none_ : a - insn.address = 0 := by simpa using same
      have back := congrArg (· + insn.address) none_
      simpa using back
    · intro kept
      rw [there,here,kept.loop _ there is]
      simp only [UInt64.sub_self,UInt64.add_zero]
      exact .leave (sameRefl _)
  · simp only [loopTo,if_neg taken] at there here
    refine ⟨fun _ => keptNext near there,fun _ => ?_⟩
    rw [there,here]
    exact .next

theorem alikeKept (lawful : isa.Lawful) (accepted : Accepted a insn)
    (near : ownAddress isa insn = false) :
    (meaning isa insn s).Alike Same (moved isa a insn s) ↔ Kept isa a insn s := by
  cases kind accepted with
  | @call target id operand =>
    have there : meaning isa insn s =
        .leave ⟨.call,target,s.push (insn.address + UInt64.ofNat insn.size)⟩ := by
          simp [meaning,id,operand]
    have here : moved isa a insn s =
        .leave ⟨.call,target,((s.push (s.reg .r11)).set .r11 target).push (a + 2 + 10 + 3)⟩ := by
      simp [moved,id,operand]
    constructor
    · intro alike
      rw [there,here] at alike
      exact absurd (alikeLeave.mp alike) callDiffers
    · intro kept
      have bad := kept.call _ there
      simp [isRelCall,id,operand] at bad
  | @jmp target id operand =>
    exact @alikeJump E isa a insn s target near (.inl (by simp [isRelJmp,id,operand]))
      (by simp [isRelCall,id]) (by simp [loops,id])
      (by simp [meaning,id,operand]) (by simp [moved,id,operand])
  | @jcc c target id operand =>
    by_cases taken : holds s.flags c = true
    · exact @alikeJump E isa a insn s target near (.inr (by simp [isConditionalJump,id]))
        (by simp [isRelCall,id]) (by simp [loops,id])
        (by simp [meaning,id,operand,taken]) (by simp [moved,id,operand,taken])
    · have there : meaning isa insn s = .next s := by simp [meaning,id,operand,taken]
      have here : moved isa a insn s = .next s := by simp [moved,id,operand,taken]
      refine ⟨fun _ => keptNext near there,fun _ => ?_⟩
      rw [there,here]
      exact .next
  | loop is operand => exact alikeLoop near is operand
  | plain not =>
    have call : isRelCall insn = false := by
      cases is : isRelCall insn with
      | false => rfl
      | true =>
        obtain ⟨target,id,operand⟩ := relCallIs is
        simp [relative,id,operand] at not
    have jump : ¬ (isRelJmp insn = true ∨ isConditionalJump insn = true) := by
      rintro (is | is)
      · obtain ⟨target,id,operand⟩ := relJmpIs is
        simp [relative,id,operand] at not
      · obtain ⟨c,target,id,operand⟩ := accepted.jump is
        simp [relative,id,operand] at not
    have loop : loops insn = false := by
      cases id : insn.id <;> simp_all [loops,relative]
    exact ⟨fun _ => ⟨fun bad => absurd (near.symm.trans bad) (by simp),fun _ _ => call,
      fun _ _ bad => absurd bad jump,
      fun _ _ bad => absurd (loop.symm.trans bad) (by simp)⟩,
        fun _ => plainAlike lawful accepted near not⟩

theorem movedLeaves {e : Exit E} (lawful : isa.Lawful) (accepted : Accepted a insn)
    (near : ownAddress isa insn = false)
    (there : meaning isa insn s = .leave e) : ∃ e', moved isa a insn s = .leave e' := by
  cases kind accepted with
  | call id operand => simp only [moved,id,operand]; exact ⟨_,rfl⟩
  | jmp id operand => simp only [moved,id,operand]; exact ⟨_,rfl⟩
  | @jcc c target id operand =>
    by_cases taken : holds s.flags c = true
    · simp only [moved,id,operand,if_pos taken]; exact ⟨_,rfl⟩
    · simp [meaning,id,operand,taken] at there
  | @loop target is operand =>
    obtain ⟨goes,here⟩ := @loopMeanings E isa a insn s target is operand
    by_cases taken : (isa.loops insn.bytes s).2 = true
    · exact ⟨_,by rw [here,loopTo,if_pos taken]⟩
    · rw [goes,loopTo,if_neg taken] at there; cases there
  | plain not =>
    have alike := @plainAlike E isa a insn s lawful accepted near not
    rw [there] at alike
    exact alikeLeaves alike

end Compare

def Transparent (isa : Isa E) (start a entryStubAddr continueAddr : UInt64) (insns : List Insn)
    (s : State E) : Prop :=
  ExitsAlike Same (original isa start insns s)
    (replayed isa a (relocated insns entryStubAddr continueAddr) s)

/- Every instruction that the prologue comes to from this state is kept. -/
def Keeps (isa : Isa E) (a : UInt64) (insns : List Insn) (s : State E) : Prop :=
  Along (meaning isa) emittedSize expand (Kept isa) (fun _ => True) a insns s

section Prologue
variable {isa : Isa E} {start a entryStubAddr continueAddr : UInt64} {insns : List Insn}
    {s : State E}

theorem keepsTransparent (lawful : isa.Lawful) (placed : Placed emittedSize expand Accepted a insns)
    (whole : start + UInt64.ofNat (codeSize Insn.size insns) = continueAddr)
    (keeps : Keeps isa a insns s) :
    Transparent isa start a entryStubAddr continueAddr insns s := by
  refine alikeAlong (standsFor isa) placed (fun b insn s accepted kept => ?_)
    (fun b s _ => ?_) keeps
  · cases near : ownAddress isa insn with
    | true => exact kept.own near
    | false => exact (alikeKept lawful accepted near).mpr kept
  · rw [whole,executeLeave rfl]
    exact ⟨_,_,rfl,rfl,sameRefl _⟩

theorem transparentKeeps (lawful : isa.Lawful) (placed : Placed emittedSize expand Accepted a insns)
    (near : ∀ insn ∈ insns, ownAddress isa insn = false)
    (transparent : Transparent isa start a entryStubAddr continueAddr insns s) :
    Keeps isa a insns s := by
  refine alongAlike (standsFor isa) (placedBoth placed (placedAll near))
    (fun b insn s ok => (alikeKept lawful ok.1 ok.2).mp)
    (fun b insn s s' ok there => ?_) (fun b insn s e ok => movedLeaves lawful ok.1 ok.2)
      (fun _ _ _ => trivial) transparent
  have alike := (@alikeKept E isa b insn s lawful ok.1 ok.2).mpr (keptNext ok.2 there)
  rw [there] at alike
  exact alikeNext alike

theorem builtAccepted {decode : Decoder} {p trampolineAddr room out}
    (ok : buildTrampoline decode p entryStubAddr trampolineAddr room = some out) :
    Placed emittedSize expand Accepted (trampolineAddr + 16)
      (decode (p.origCode.take p.origLen) (UInt64.ofNat p.target.remoteAddr)) := by
  obtain ⟨code,emitted,_⟩ := built ok
  unfold emitRelocatedOrigCode at emitted
  split at emitted
  · cases emitted
  · have placed := insnsAccepted emitted
    rwa [show trampolineAddr + 16 + UInt64.ofNat ([] : Bytes).length =
      trampolineAddr + 16 from UInt64.add_zero _] at placed

end Prologue

end ZeroTrace.X86Replay
