import ZeroTrace.CodeBuffer
import ZeroTrace.ProbeTable

/-! The x86_64 trampoline builder. What the disassembler says about an instruction is
given: its kind, operands and the place of its displacement. -/
namespace ZeroTrace.X86Trampoline
open PatchCode CodeBuffer ProbeTable

/- The sixteen jumps on flags, in the order of their condition codes. -/
inductive Cond where
  | o | no | b | ae | e | ne | be | a | s | ns | p | np | l | ge | le | g
  deriving DecidableEq, Repr

inductive InsnId where
  | call
  | jmp
  | jcc (c : Cond)
  | jcxz | jecxz | jrcxz
  | loop | loope | loopne
  | xbegin
  | other (id : Nat)
  deriving DecidableEq, Repr

inductive MemBase where
  | rip | eip | other
  deriving DecidableEq, Repr

inductive Operand where
  | imm (value : UInt64)
  | mem (base : MemBase)
  | other
  deriving DecidableEq, Repr

structure Insn where
  id : InsnId
  address : UInt64
  bytes : Bytes
  operands : List Operand
  disp : UInt64
  dispOffset : Nat
  dispSize : Nat
  deriving DecidableEq, Repr

abbrev Insn.size (insn : Insn) : Nat := insn.bytes.length

def trampolineTemplatePrefix : Bytes :=
  [0x68,0x00,0x00,0x00,0x00,
    0xFF,0x15,0x00,0x00,0x00,0x00,
    0x48,0x8D,0x64,0x24,0x08]

def trampolineTemplateSuffix : Bytes :=
  [0xFF,0x25,0x00,0x00,0x00,0x00,
    0x00,0x00,0x00,0x00,0x00,0x00,0x00,0x00,
    0x00,0x00,0x00,0x00,0x00,0x00,0x00,0x00]

def signed (v : UInt64) : Int := if v.toNat < 2^63 then v.toNat else v.toNat - 2^64

def patchDisp32 (buf : Bytes) (insnOffset dispOffset dispSize : Nat)
    (value : UInt64) : Option Bytes :=
  if dispSize ≠ 4 ∨ signed value < -2^31 ∨ 2^31 - 1 < signed value then none
  else some (overwrite buf (insnOffset + dispOffset) (leBytes 4 value))

def relTarget (operands : List Operand) : Option UInt64 := match operands with
  | .imm target::_ => some target
  | _ => none

def isRelCall (insn : Insn) : Bool := insn.id == .call && (relTarget insn.operands).isSome

def isRelJmp (insn : Insn) : Bool := insn.id == .jmp && (relTarget insn.operands).isSome

def isConditionalJump (insn : Insn) : Bool := match insn.id with
  | .jcc _ | .jcxz | .jecxz | .jrcxz => true
  | _ => false

def inverseShortJccOpcode (id : InsnId) : Option UInt8 := match id with
  | .jcc .o => some 0x71
  | .jcc .no => some 0x70
  | .jcc .b => some 0x73
  | .jcc .ae => some 0x72
  | .jcc .e => some 0x75
  | .jcc .ne => some 0x74
  | .jcc .be => some 0x77
  | .jcc .a => some 0x76
  | .jcc .s => some 0x79
  | .jcc .ns => some 0x78
  | .jcc .p => some 0x7B
  | .jcc .np => some 0x7A
  | .jcc .l => some 0x7D
  | .jcc .ge => some 0x7C
  | .jcc .le => some 0x7F
  | .jcc .g => some 0x7E
  | _ => none

def pushR11 : Bytes := [0x41,0x53]
def movabsR11 : Bytes := [0x49,0xBB]
def callR11 : Bytes := [0x41,0xFF,0xD3]
def popR11 : Bytes := [0x41,0x5B]
def jmpR11 : Bytes := [0x41,0xFF,0xE3]

def rewriteRelCall (room : Nat) (buf : Bytes) (target : UInt64) : Option Bytes :=
  emitAll room buf [pushR11,movabsR11,leBytes 8 target,callR11,popR11]

def rewriteRelJmp (room : Nat) (buf : Bytes) (target : UInt64) : Option Bytes :=
  emitAll room buf [movabsR11,leBytes 8 target,jmpR11]

def rewriteCondJmp (room : Nat) (buf : Bytes) (insn : Insn) (target : UInt64) : Option Bytes := do
  let opcode ← inverseShortJccOpcode insn.id
  rewriteRelJmp room (← emitBytes room buf [opcode,13]) target

/- An instruction with a memory operand relative to its own address gets a displacement
that reaches the same target from the copy. -/
def copyInsn (room : Nat) (codeAddr : UInt64) (buf : Bytes) (insn : Insn) : Option Bytes := do
  let out ← emitBytes room buf insn.bytes
  if insn.operands.contains (.mem .rip) then
    let oldTarget := insn.address + UInt64.ofNat insn.size + insn.disp
    let newNext := codeAddr + UInt64.ofNat buf.length + UInt64.ofNat insn.size
    patchDisp32 out buf.length insn.dispOffset insn.dispSize (oldTarget - newNext)
  else some out

def emitRelocatedInsn (room : Nat) (codeAddr : UInt64) (buf : Bytes) (insn : Insn) : Option Bytes :=
  if isRelCall insn then do rewriteRelCall room buf (← relTarget insn.operands)
  else if isRelJmp insn then do rewriteRelJmp room buf (← relTarget insn.operands)
  else if isConditionalJump insn then do rewriteCondJmp room buf insn (← relTarget insn.operands)
  else copyInsn room codeAddr buf insn

def emitInsns (room : Nat) (codeAddr : UInt64) : Bytes → List Insn → Option Bytes
  | buf,[] => some buf
  | buf,insn::rest => do emitInsns room codeAddr (← emitRelocatedInsn room codeAddr buf insn) rest

/- What `cs_disasm` makes of some code at an address: nothing if it cannot be opened. -/
abbrev Decoder := Bytes → UInt64 → List Insn

def emitRelocatedOrigCode (decode : Decoder) (p : Probe) (codeAddr : UInt64)
    (room : Nat) : Option Bytes :=
  match decode (p.origCode.take p.origLen) (UInt64.ofNat p.target.remoteAddr) with
  | [] => none
  | insns => emitInsns room codeAddr [] insns

def fillSlots (buf : Bytes) (relocatedSize : Nat) (entryStubAddr continueAddr : UInt64) : Bytes :=
  let entrySlotOffset := 16 + relocatedSize + 6
  let continueSlotOffset := entrySlotOffset + 8
  let buf := overwrite buf 7 (leBytes 4 (UInt64.ofNat (entrySlotOffset - 11)))
  let buf := overwrite buf (16 + relocatedSize + 2)
    (leBytes 4 (UInt64.ofNat (continueSlotOffset - (16 + relocatedSize + 6))))
  let buf := overwrite buf (16 + relocatedSize + 6) (leBytes 8 entryStubAddr)
  overwrite buf (16 + relocatedSize + 14) (leBytes 8 continueAddr)

def buildTrampoline (decode : Decoder) (p : Probe) (entryStubAddr trampolineAddr : UInt64)
    (room : Nat) : Option Bytes :=
  if trampolineAddr = 0 ∨ entryStubAddr = 0 then none
  else if p.origLen = 0 ∨ probeOrigCodeMax < p.origLen then none
  else do
    let continueAddr := UInt64.ofNat (p.target.remoteAddr + p.origLen)
    let front ← emitBytes room [] trampolineTemplatePrefix
    let front := overwrite front 1 (leBytes 4 (UInt64.ofNat p.probeId))
    let relocated ← emitRelocatedOrigCode decode p (trampolineAddr + 16) (room - front.length)
    let whole ← emitBytes room (front ++ relocated) trampolineTemplateSuffix
    some (fillSlots whole relocated.length entryStubAddr continueAddr)

/-! How long a trampoline can get. -/

def Insn.branches (insn : Insn) : Prop := isRelCall insn = true ∨ isRelJmp insn = true ∨
    isConditionalJump insn = true

/- What the disassembler promises: the instructions follow each other from the front of
the code, and a relative branch has an opcode and a displacement. -/
structure Decodes (insns : List Insn) (code : Bytes) : Prop where
  tiles : insns.flatMap Insn.bytes <+: code
  nonempty : ∀ insn ∈ insns, 0 < insn.size
  branches : ∀ insn ∈ insns, insn.branches → 2 ≤ insn.size

def Decoder.Lawful (decode : Decoder) : Prop := ∀ code addr, Decodes (decode code addr) code

theorem leBytesLength (count : Nat) (v : UInt64) : (leBytes count v).length = count := by
  simp [leBytes]

theorem relCallLength {room buf target out} (ok : rewriteRelCall room buf target = some out) :
    out.length = buf.length + 17 := by
  rw [emitAllSome ok]
  simp [pushR11,movabsR11,callR11,popR11,leBytesLength]

theorem relJmpLength {room buf target out} (ok : rewriteRelJmp room buf target = some out) :
    out.length = buf.length + 13 := by
  rw [emitAllSome ok]
  simp [movabsR11,jmpR11,leBytesLength]

theorem condJmpLength {room buf insn target out}
    (ok : rewriteCondJmp room buf insn target = some out) :
    out.length = buf.length + 15 := by
  simp only [rewriteCondJmp,bind,Option.bind_eq_some_iff] at ok
  obtain ⟨opcode,_,next,skip,jump⟩ := ok
  rw [relJmpLength jump,emitBytesSome skip]
  simp

theorem copyLength {room codeAddr buf insn out} (ok : copyInsn room codeAddr buf insn = some out) :
    out.length = buf.length + insn.size := by
  simp only [copyInsn,bind,Option.bind_eq_some_iff] at ok
  obtain ⟨next,copied,rest⟩ := ok
  have length : next.length = buf.length + insn.size := by rw [emitBytesSome copied]; simp
  split at rest
  · simp only [patchDisp32] at rest
    split at rest
    · cases rest
    · rw [← Option.some.inj rest]
      simpa using length
  · rw [← Option.some.inj rest]
    exact length

/- Seventeen bytes for two are the worst: a call with a one-byte displacement. -/
theorem insnLength {room codeAddr buf insn out}
    (ok : emitRelocatedInsn room codeAddr buf insn = some out)
    (long : insn.branches → 2 ≤ insn.size) : 2 * out.length ≤ 2 * buf.length + 17 * insn.size := by
  unfold emitRelocatedInsn at ok
  split at ok
  · next call =>
    obtain ⟨target,_,ok⟩ := Option.bind_eq_some_iff.mp ok
    have size := long (.inl call)
    have grown := relCallLength ok
    omega
  · split at ok
    · next jmp =>
      obtain ⟨target,_,ok⟩ := Option.bind_eq_some_iff.mp ok
      have size := long (.inr (.inl jmp))
      have grown := relJmpLength ok
      omega
    · split at ok
      · next jcc =>
        obtain ⟨target,_,ok⟩ := Option.bind_eq_some_iff.mp ok
        have size := long (.inr (.inr jcc))
        have grown := condJmpLength ok
        omega
      · have grown := copyLength ok
        omega

theorem insnsLength {room codeAddr buf insns out}
    (ok : emitInsns room codeAddr buf insns = some out)
    (long : ∀ insn ∈ insns, insn.branches → 2 ≤ insn.size) :
    2 * out.length ≤ 2 * buf.length + 17 * (insns.flatMap Insn.bytes).length := by
  induction insns generalizing buf with
  | nil =>
    rw [Option.some.inj ok]
    simp
  | cons insn insns ih =>
    obtain ⟨next,first,rest⟩ := Option.bind_eq_some_iff.mp ok
    have one := insnLength first (long insn (.head _))
    have others := ih rest fun i member => long i (.tail _ member)
    simp only [Insn.size] at one
    simp only [List.flatMap_cons,List.length_append]
    omega

theorem relocatedLength {decode : Decoder} {p codeAddr room out} (lawful : decode.Lawful)
    (ok : emitRelocatedOrigCode decode p codeAddr room = some out) : 2 * out.length ≤
      17 * p.origLen := by
  have decodes := lawful (p.origCode.take p.origLen) (UInt64.ofNat p.target.remoteAddr)
  unfold emitRelocatedOrigCode at ok
  split at ok
  · cases ok
  · next insns decoded =>
    have grown := insnsLength ok decodes.branches
    have tiled := decodes.tiles.length_le
    have cut : (p.origCode.take p.origLen).length ≤ p.origLen := List.length_take_le _ _
    simp only [List.length_nil] at grown
    omega

/- The code around the relocated instructions: it hands the probe id to the stub, and at
the end it goes back to the function. -/
def callsStub (id : Nat) (relocated : Nat) : Bytes :=
  [0x68] ++ (leBytes 4 (UInt64.ofNat id) ++
    ([0xFF,0x15] ++ (leBytes 4 (UInt64.ofNat (relocated + 11)) ++
    [0x48,0x8D,0x64,0x24,0x08])))

def jumpsBack (entryStubAddr continueAddr : UInt64) : Bytes :=
  [0xFF,0x25] ++ (leBytes 4 8 ++ (leBytes 8 entryStubAddr ++ leBytes 8 continueAddr))

theorem callsStubLength (id relocated : Nat) : (callsStub id relocated).length = 16 := by
  simp [callsStub,leBytesLength]

theorem jumpsBackLength (stub back : UInt64) : (jumpsBack stub back).length = 22 := by
  simp [jumpsBack,leBytesLength]

theorem prefixFilled (id relocated : Nat) (back : Bytes) :
    overwrite (overwrite trampolineTemplatePrefix 1 (leBytes 4 (UInt64.ofNat id)) ++ back) 7
      (leBytes 4 (UInt64.ofNat (relocated + 11))) = callsStub id relocated ++ back := by
  have idLength := leBytesLength 4 (UInt64.ofNat id)
  have first : overwrite trampolineTemplatePrefix 1 (leBytes 4 (UInt64.ofNat id)) =
      [0x68] ++ (leBytes 4 (UInt64.ofNat id) ++ [0xFF,0x15,0,0,0,0,0x48,0x8D,0x64,0x24,0x08]) :=
    overwriteMiddle [0,0,0,0] rfl rfl idLength.symm
  have second : overwrite
      (overwrite trampolineTemplatePrefix 1 (leBytes 4 (UInt64.ofNat id)) ++ back) 7
      (leBytes 4 (UInt64.ofNat (relocated + 11))) =
        ([0x68] ++ (leBytes 4 (UInt64.ofNat id) ++ [0xFF,0x15])) ++
        (leBytes 4 (UInt64.ofNat (relocated + 11)) ++ ([0x48,0x8D,0x64,0x24,0x08] ++ back)) :=
    overwriteMiddle [0,0,0,0] (by simp [first]) (by simp [idLength]) (leBytesLength 4 _).symm
  rw [second,callsStub]
  simp

theorem suffixFilled (front : Bytes) (stub back : UInt64) :
    overwrite (overwrite
      (overwrite (front ++ trampolineTemplateSuffix) (front.length + 2) (leBytes 4 8))
      (front.length + 6) (leBytes 8 stub)) (front.length + 14) (leBytes 8 back) =
        front ++ jumpsBack stub back := by
  have eight : ∀ v, (leBytes 8 v).length = 8 := leBytesLength 8
  have four : (leBytes 4 8).length = 4 := leBytesLength 4 8
  have first : overwrite (front ++ trampolineTemplateSuffix) (front.length + 2) (leBytes 4 8) =
      (front ++ [0xFF,0x25]) ++ (leBytes 4 8 ++ List.replicate 16 0) :=
    overwriteMiddle [0,0,0,0] (by simp [trampolineTemplateSuffix]) (by simp) four.symm
  have second : overwrite ((front ++ [0xFF,0x25]) ++ (leBytes 4 8 ++ List.replicate 16 0))
      (front.length + 6)
      (leBytes 8 stub) = (front ++ [0xFF,0x25] ++ leBytes 4 8) ++
        (leBytes 8 stub ++ List.replicate 8 0) :=
    overwriteMiddle (List.replicate 8 0) (by simp) (by simp [four]) (by simp [eight])
  have third : overwrite
      ((front ++ [0xFF,0x25] ++ leBytes 4 8) ++ (leBytes 8 stub ++ List.replicate 8 0))
      (front.length + 14) (leBytes 8 back) =
        (front ++ [0xFF,0x25] ++ leBytes 4 8 ++ leBytes 8 stub) ++
        (leBytes 8 back ++ []) :=
    overwriteMiddle (List.replicate 8 0) (by simp) (by simp [four,eight]) (by simp [eight])
  rw [first,second,third,jumpsBack]
  simp

theorem slotsFilled (id : Nat) (relocated : Bytes) (stub back : UInt64) :
    fillSlots (overwrite trampolineTemplatePrefix 1 (leBytes 4 (UInt64.ofNat id)) ++ relocated ++
      trampolineTemplateSuffix)
      relocated.length stub back = callsStub id relocated.length ++ relocated ++
        jumpsBack stub back := by
  have entry : 16 + relocated.length + 6 - 11 = relocated.length + 11 := by omega
  have back_ : 16 + relocated.length + 6 + 8 - (16 + relocated.length + 6) = 8 := by omega
  have length : (callsStub id relocated.length ++ relocated).length = 16 + relocated.length := by
    simp [callsStubLength]
  have suffix := suffixFilled (callsStub id relocated.length ++ relocated) stub back
  rw [length] at suffix
  simp only [fillSlots,entry,back_]
  rw [List.append_assoc,prefixFilled,← List.append_assoc]
  exact suffix

theorem built {decode : Decoder} {p entryStubAddr trampolineAddr room out}
    (ok : buildTrampoline decode p entryStubAddr trampolineAddr room = some out) :
    ∃ relocated, emitRelocatedOrigCode decode p (trampolineAddr + 16) (room - 16) = some relocated ∧
      p.origLen ≠ 0 ∧ p.origLen ≤ probeOrigCodeMax ∧
        out = callsStub p.probeId relocated.length ++ relocated ++
        jumpsBack entryStubAddr (UInt64.ofNat (p.target.remoteAddr + p.origLen)) := by
  unfold buildTrampoline at ok
  split at ok
  · cases ok
  · split at ok
    · cases ok
    · next length =>
      simp only [not_or,Nat.not_lt] at length
      simp only [bind,Option.bind_eq_some_iff] at ok
      obtain ⟨front,pre,relocated,emitted,whole,post,last⟩ := ok
      have start : front = trampolineTemplatePrefix := emitBytesSome pre
      subst start
      have sixteen : (overwrite trampolineTemplatePrefix 1
          (leBytes 4 (UInt64.ofNat p.probeId))).length = 16 := by
        simp [trampolineTemplatePrefix]
      rw [sixteen] at emitted
      refine ⟨relocated,emitted,length.1,length.2,?_⟩
      rw [← Option.some.inj last,emitBytesSome post]
      exact slotsFilled p.probeId relocated entryStubAddr _

/- Thirty-two bytes of two-byte branches. -/
theorem trampolineLength {decode : Decoder} {p entryStubAddr trampolineAddr room out}
    (lawful : decode.Lawful)
    (ok : buildTrampoline decode p entryStubAddr trampolineAddr room = some out) : out.length ≤
      310 := by
  obtain ⟨relocated,emitted,_,short,rfl⟩ := built ok
  have grown := relocatedLength lawful emitted
  simp only [probeOrigCodeMax] at short
  simp only [List.length_append,callsStubLength,jumpsBackLength]
  omega

end ZeroTrace.X86Trampoline
