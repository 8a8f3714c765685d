import ZeroTrace.CodeBuffer
import ZeroTrace.ProbeTable

/-! The aarch64 trampoline builder. Instructions are words; what the disassembler says
about a word is given: its kind, operands and condition code. -/
namespace ZeroTrace.Arm64Trampoline
open PatchCode CodeBuffer ProbeTable

inductive InsnId where
  | adr | adrp
  | bl | b
  | cbnz | cbz
  | tbnz | tbz
  | ldr | ldrb | ldrh | ldrsb | ldrsh | ldrsw
  | other (id : Nat)
  deriving DecidableEq, Repr

inductive Operand where
  | imm (value : UInt64)
  | other
  deriving DecidableEq, Repr

/- The condition code counts from one: zero is none, eq is one and le fourteen. -/
structure Insn where
  id : InsnId
  address : UInt64
  bytes : Bytes
  operands : List Operand
  cc : Nat
  deriving DecidableEq, Repr

def insnSize : Nat := 4

def wordBytes (w : UInt32) : Bytes := leBytes 4 w.toUInt64

def emitU32 (room : Nat) (buf : Bytes) (w : UInt32) : Option Bytes :=
  emitBytes room buf (wordBytes w)

def halfword (value : UInt64) (hw : Nat) : UInt32 := (value.toNat / 2^(16 * hw) % 2^16).toUInt32

def movWord (rd : Nat) (value : UInt64) (hw : Nat) : UInt32 :=
  (if hw = 0 then (0xD2800000 : UInt32) else 0xF2800000) ||| (hw.toUInt32 <<< 21) |||
    (halfword value hw <<< 5) ||| rd.toUInt32

/- A zero halfword needs no movk: the movz has cleared it. -/
def movHalves (value : UInt64) : List Nat := (List.range 4).filter fun hw => hw == 0 ||
    halfword value hw != 0

def emitMovAbs (room : Nat) (buf : Bytes) (rd : Nat) (value : UInt64) : Option Bytes :=
  if 31 < rd then none
    else emitAll room buf ((movHalves value).map fun hw => wordBytes (movWord rd value hw))

def movAbsSize (value : UInt64) : Nat :=
  (1 + ((List.range 4).filter fun hw => hw != 0 && halfword value hw != 0).length) * insnSize

def readU32 (bytes : Bytes) : UInt32 :=
  ((List.range 4).map fun k => (bytes.getD k 0).toNat * 256^k).foldr (· + ·) 0 |>.toUInt32

def branchTarget (insn : Insn) (index : Nat) : Option UInt64 := match insn.operands[index]? with
  | some (.imm target) => some target
  | _ => none

def brX16 : UInt32 := 0xD61F0200
def blrX16 : UInt32 := 0xD63F0200

def emitAbsBranch (room : Nat) (buf : Bytes) (target : UInt64) : Option Bytes := do
  emitU32 room (← emitMovAbs room buf 16 target) brX16

def emitAbsCall (room : Nat) (buf : Bytes) (target : UInt64) : Option Bytes := do
  emitU32 room (← emitMovAbs room buf 16 target) blrX16

def condCode (cond : Nat) : Option Nat := if 1 ≤ cond ∧ cond ≤ 14 then some (cond - 1) else none

def inverseCond (cond : Nat) : Option Nat := (condCode cond).map (· ^^^ 1)

def encodeBCond (cond byteOffset : Nat) : UInt32 :=
  (0x54000000 : UInt32) ||| (((byteOffset / insnSize).toUInt32 &&& 0x7ffff) <<< 5) |||
    (cond.toUInt32 &&& 0xf)

def skipBytes (target : UInt64) : Nat := insnSize + movAbsSize target + insnSize

def emitCondAbsBranch (room : Nat) (buf : Bytes) (cond : Nat) (target : UInt64) : Option Bytes := do
  let inverse ← inverseCond cond
  emitAbsBranch room (← emitU32 room buf (encodeBCond inverse (skipBytes target))) target

/- Bit 24 tells the two forms of a compare or test branch apart; `mask` is its offset
field. -/
def invertBranch (w : UInt32) (mask : UInt32) (target : UInt64) : UInt32 :=
  ((w ^^^ ((1 : UInt32) <<< 24)) &&& ~~~(mask <<< 5)) |||
    ((skipBytes target / insnSize).toUInt32 <<< 5)

def emitCbAbsBranch (room : Nat) (buf : Bytes) (insn : Insn) (target : UInt64) : Option Bytes := do
  emitAbsBranch room (← emitU32 room buf (invertBranch (readU32 insn.bytes) 0x7ffff target)) target

def emitTbAbsBranch (room : Nat) (buf : Bytes) (insn : Insn) (target : UInt64) : Option Bytes := do
  emitAbsBranch room (← emitU32 room buf (invertBranch (readU32 insn.bytes) 0x3fff target)) target

def emitAdrLike (room : Nat) (buf : Bytes) (insn : Insn) : Option Bytes := do
  emitMovAbs room buf (readU32 insn.bytes &&& 0x1f).toNat (← branchTarget insn 1)

def emitRelocatedInsn (room : Nat) (buf : Bytes) (insn : Insn) : Option Bytes :=
  if insn.bytes.length ≠ insnSize then none else match insn.id with
    | .adr | .adrp => emitAdrLike room buf insn
    | .bl => do emitAbsCall room buf (← branchTarget insn 0)
    | .b => do
      let target ← branchTarget insn 0
      if 1 ≤ insn.cc ∧ insn.cc ≤ 14 then emitCondAbsBranch room buf insn.cc target
      else emitAbsBranch room buf target
    | .cbnz | .cbz => do emitCbAbsBranch room buf insn (← branchTarget insn 1)
    | .tbnz | .tbz => do emitTbAbsBranch room buf insn (← branchTarget insn 2)
    | .ldr | .ldrb | .ldrh | .ldrsb | .ldrsh | .ldrsw =>
      if (branchTarget insn 1).isSome then none else emitBytes room buf insn.bytes
    | .other _ => emitBytes room buf insn.bytes

def emitInsns (room : Nat) : Bytes → List Insn → Option Bytes
  | buf,[] => some buf
  | buf,insn::rest => do emitInsns room (← emitRelocatedInsn room buf insn) rest

/- What `cs_disasm` makes of some code at an address: nothing if it cannot be opened. -/
abbrev Decoder := Bytes → UInt64 → List Insn

def emitRelocatedOrigCode (decode : Decoder) (p : Probe) (room : Nat) : Option Bytes :=
  if p.origLen = 0 ∨ p.origLen % insnSize ≠ 0 then none
  else match decode (p.origCode.take p.origLen) (UInt64.ofNat p.target.remoteAddr) with
    | [] => none
    | insns => emitInsns room [] insns

def movX15X30 : UInt32 := 0xAA1E03EF
def movX30X15 : UInt32 := 0xAA0F03FE

/- The probe id and the stub's address go into registers, the stub is called, and the
link register is put back. -/
def emitStubCall (room probeId : Nat) (entryStubAddr : UInt64) : Option Bytes := do
  let buf ← emitU32 room [] movX15X30
  let buf ← emitMovAbs room buf 17 (UInt64.ofNat probeId)
  let buf ← emitMovAbs room buf 16 entryStubAddr
  let buf ← emitU32 room buf blrX16
  emitU32 room buf movX30X15

def buildTrampoline (decode : Decoder) (p : Probe) (entryStubAddr trampolineAddr : UInt64)
    (room : Nat) : Option Bytes :=
  if trampolineAddr = 0 ∨ entryStubAddr = 0 then none
  else if p.origLen = 0 ∨ probeOrigCodeMax < p.origLen then none
  else do
    let front ← emitStubCall room p.probeId entryStubAddr
    let relocated ← emitRelocatedOrigCode decode p (room - front.length)
    emitAbsBranch room (front ++ relocated) (UInt64.ofNat (p.target.remoteAddr + p.origLen))

/-! How long a trampoline can get. -/

/- What the disassembler promises: the instructions follow each other from the front of
the code. -/
def Decoder.Lawful (decode : Decoder) : Prop :=
  ∀ code addr, (decode code addr).flatMap Insn.bytes <+: code

@[simp] theorem wordLength (w : UInt32) : (wordBytes w).length = 4 := by simp [wordBytes,leBytes]

theorem movHalvesFew (value : UInt64) : (movHalves value).length ≤ 4 :=
  (List.length_filter_le _ _).trans (Nat.le_of_eq List.length_range)

theorem wordsLength {α : Type} (l : List α) (f : α → UInt32) :
    (l.map fun x => wordBytes (f x)).flatten.length = 4 * l.length := by
  induction l with
  | nil => rfl
  | cons x l ih =>
    simp only [List.map_cons,List.flatten_cons,List.length_append,List.length_cons,wordLength,ih]
    omega

theorem movAbsLength {room buf rd value out} (ok : emitMovAbs room buf rd value = some out) :
    out.length = buf.length + 4 * (movHalves value).length := by
  unfold emitMovAbs at ok
  split at ok
  · cases ok
  · rw [emitAllSome ok,List.length_append,wordsLength]

theorem u32Length {room buf w out} (ok : emitU32 room buf w = some out) :
    out.length = buf.length + 4 := by
  rw [emitBytesSome ok]
  simp

theorem absBranchLength {room buf target out} (ok : emitAbsBranch room buf target = some out) :
    out.length ≤ buf.length + 20 := by
  obtain ⟨next,mov,last⟩ := Option.bind_eq_some_iff.mp ok
  have few := movHalvesFew target
  have first := movAbsLength mov
  have second := u32Length last
  omega

theorem insnLength {room buf insn out} (ok : emitRelocatedInsn room buf insn = some out) :
    insn.bytes.length = 4 ∧ out.length ≤ buf.length + 24 := by
  unfold emitRelocatedInsn at ok
  split at ok
  · cases ok
  · next size =>
    have four : insn.bytes.length = 4 := by simpa [insnSize] using size
    refine ⟨four,?_⟩
    have copied : emitBytes room buf insn.bytes = some out → out.length ≤ buf.length + 24 := by
      intro ok
      rw [emitBytesSome ok,List.length_append,four]
      omega
    have skipped : ∀ w target,
        ((emitU32 room buf w).bind fun next => emitAbsBranch room next target) = some out →
        out.length ≤ buf.length + 24 := by
      intro w target ok
      obtain ⟨next,first,last⟩ := Option.bind_eq_some_iff.mp ok
      have one := u32Length first
      have others := absBranchLength last
      omega
    cases id : insn.id with
    | adr | adrp =>
      simp only [id] at ok
      obtain ⟨target,_,mov⟩ := Option.bind_eq_some_iff.mp ok
      have few := movHalvesFew target
      have length := movAbsLength mov
      omega
    | bl =>
      simp only [id] at ok
      obtain ⟨target,_,call⟩ := Option.bind_eq_some_iff.mp ok
      obtain ⟨next,mov,last⟩ := Option.bind_eq_some_iff.mp call
      have few := movHalvesFew target
      have first := movAbsLength mov
      have second := u32Length last
      omega
    | b =>
      simp only [id] at ok
      obtain ⟨target,_,branch⟩ := Option.bind_eq_some_iff.mp ok
      split at branch
      · obtain ⟨inverse,_,rest⟩ := Option.bind_eq_some_iff.mp branch
        exact skipped _ _ rest
      · have length := absBranchLength branch
        omega
    | cbnz | cbz | tbnz | tbz =>
      simp only [id] at ok
      obtain ⟨target,_,branch⟩ := Option.bind_eq_some_iff.mp ok
      exact skipped _ _ branch
    | ldr | ldrb | ldrh | ldrsb | ldrsh | ldrsw =>
      simp only [id] at ok
      split at ok
      · cases ok
      · exact copied ok
    | other =>
      simp only [id] at ok
      exact copied ok

theorem insnsLength {room buf insns out} (ok : emitInsns room buf insns = some out) :
    out.length ≤ buf.length + 6 * (insns.flatMap Insn.bytes).length := by
  induction insns generalizing buf with
  | nil =>
    rw [Option.some.inj ok]
    simp
  | cons insn insns ih =>
    obtain ⟨next,first,rest⟩ := Option.bind_eq_some_iff.mp ok
    obtain ⟨size,one⟩ := insnLength first
    have others := ih rest
    simp only [List.flatMap_cons,List.length_append]
    omega

theorem relocatedLength {decode : Decoder} {p room out} (lawful : decode.Lawful)
    (ok : emitRelocatedOrigCode decode p room = some out) : out.length ≤ 6 * p.origLen := by
  unfold emitRelocatedOrigCode at ok
  split at ok
  · cases ok
  · have tiled := (lawful (p.origCode.take p.origLen) (UInt64.ofNat p.target.remoteAddr)).length_le
    have cut : (p.origCode.take p.origLen).length ≤ p.origLen := List.length_take_le _ _
    split at ok
    · cases ok
    · next insns decoded =>
      have grown := insnsLength ok
      simp only [List.length_nil] at grown
      omega

theorem stubCallLength {room probeId stub out}
    (ok : emitStubCall room probeId stub = some out) : out.length ≤ 44 := by
  simp only [emitStubCall,bind,Option.bind_eq_some_iff] at ok
  obtain ⟨a,first,b,second,c,third,d,fourth,last⟩ := ok
  have one := u32Length first
  have two := movAbsLength second
  have three := movAbsLength third
  have four := u32Length fourth
  have five := u32Length last
  have few := movHalvesFew (UInt64.ofNat probeId)
  have few' := movHalvesFew stub
  simp only [List.length_nil] at one
  omega

/- Eight instructions of six words each. -/
theorem trampolineLength {decode : Decoder} {p entryStubAddr trampolineAddr room out}
    (lawful : decode.Lawful)
    (ok : buildTrampoline decode p entryStubAddr trampolineAddr room = some out) : out.length ≤
      256 := by
  unfold buildTrampoline at ok
  split at ok
  · cases ok
  · split at ok
    · cases ok
    · next length =>
      simp only [not_or,Nat.not_lt,probeOrigCodeMax] at length
      simp only [bind,Option.bind_eq_some_iff] at ok
      obtain ⟨front,stub,relocated,emitted,last⟩ := ok
      have one := stubCallLength stub
      have two := relocatedLength lawful emitted
      have three := absBranchLength last
      simp only [List.length_append] at three
      omega

end ZeroTrace.Arm64Trampoline
