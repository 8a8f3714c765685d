import Mathlib.Tactic.Ring
import ZeroTrace.Arm64Replay

/-! A whole aarch64 trampoline and where it hands control on: to the entry stub with the
probe id in x17, to wherever the prologue's own branches go, and at the end back into the
function. -/
namespace ZeroTrace.Arm64Flow
open PatchCode CodeBuffer CodeListing ProbeTable Arm64Trampoline Arm64Replay

inductive Op where
  | move (rd rm : Nat)
  | body (e : Emitted)

def moveWord (rd rm : Nat) : UInt32 :=
  (0xAA0003E0 : UInt32) ||| (rm.toUInt32 <<< 16) ||| rd.toUInt32

def opBytes : Op → Bytes
  | .move rd rm => wordBytes (moveWord rd rm)
  | .body e => encode e

def opSize : Op → Nat
  | .move _ _ => insnSize
  | .body e => emittedSize e

/- What the processor takes this word for. An offset is forward; the others that the builder
writes have their registers fixed. -/
def reads (w : UInt32) : Option Op :=
  let n := w.toNat
  let rd := n % 2^5
  let imm := (n / 2^5 % 2^16).toUInt32
  if n / 2^23 = 0x1A5 then if n / 2^21 % 2^2 = 0 then some (.body (.movz rd imm)) else none
  else if n / 2^23 = 0x1E5 then some (.body (.movk rd (n / 2^21 % 2^2) imm))
  else if n / 2^24 = 0x54 then if n / 2^4 % 2 = 0 ∧ n / 2^5 % 2^19 < 2^18 then
    some (.body (.bCond (n % 2^4) (n / 2^5 % 2^19 * insnSize))) else none
  else if n / 2^25 % 2^6 = 0x1A then if n / 2^5 % 2^19 < 2^18 then some (.body (.cb w)) else none
  else if n / 2^25 % 2^6 = 0x1B then if n / 2^5 % 2^14 < 2^13 then some (.body (.tb w)) else none
  else if n / 2^21 = 0x550 ∧ n / 2^5 % 2^11 = 0x1F then some (.move rd (n / 2^16 % 2^5))
  else if w = brX16 then some (.body .brX16)
  else if w = blrX16 then some (.body .blrX16)
  else none

/- The word of an instruction that the builder writes itself means that instruction. -/
def Spelt : Op → Prop
  | .body (.copied _) => True
  | op => reads (readU32 (opBytes op)) = some op

variable {E : Type}

def opStep (isa : Isa E) (a : UInt64) (op : Op) (s : State E) : Outcome (Nat × State E) (Exit E) :=
  match op with
  | .move rd rm => .next (0,s.set rd (s.get rm))
  | .body e => step isa a e s

def stubCall (probeId : Nat) (entryStubAddr : UInt64) : List Emitted :=
  moves 17 (UInt64.ofNat probeId) ++ (moves 16 entryStubAddr ++ [.blrX16])

def trampoline (probeId : Nat) (insns : List Insn)
    (entryStubAddr continueAddr : UInt64) : List Op :=
  .move 15 30::((stubCall probeId entryStubAddr).map .body ++
    .move 30 15::(relocated insns continueAddr).map .body)

def stubReturn (probeId : Nat) (entryStubAddr : UInt64) : Nat :=
  insnSize + codeSize emittedSize (stubCall probeId entryStubAddr)

def bodyStart (probeId : Nat) (entryStubAddr : UInt64) : Nat :=
  stubReturn probeId entryStubAddr + insnSize

def comesBack (callee : Exit E → Option (State E)) (e : Exit E) : Option (State E) :=
  if e.way = .call then callee e else none

theorem bodyBytes (l : List Emitted) : (l.map Op.body).flatMap opBytes = l.flatMap encode := by
  rw [List.flatMap_map]
  rfl

theorem stubCallBytes {room probeId stub out} (ok : emitStubCall room probeId stub = some out) :
    out = wordBytes movX15X30 ++
      ((stubCall probeId stub).flatMap encode ++ wordBytes movX30X15) := by
  simp only [emitStubCall,bind,Option.bind_eq_some_iff] at ok
  obtain ⟨b₁,first,b₂,id,b₃,addr,b₄,call,last⟩ := ok
  rw [emitBytesSome last,emitBytesSome call,movAbsBytes addr,movAbsBytes id,emitBytesSome first,
    stubCall]
  simp [encode]

theorem trampolineBytes (probeId : Nat) (insns : List Insn) (entryStubAddr continueAddr : UInt64) :
    (trampoline probeId insns entryStubAddr continueAddr).flatMap opBytes = wordBytes movX15X30 ++
      ((stubCall probeId entryStubAddr).flatMap encode ++ wordBytes movX30X15) ++
        (relocated insns continueAddr).flatMap encode := by
  have first : opBytes (.move 15 30) = wordBytes movX15X30 := by decide
  have last : opBytes (.move 30 15) = wordBytes movX30X15 := by decide
  rw [trampoline,List.flatMap_cons,List.flatMap_append,List.flatMap_cons,bodyBytes,bodyBytes,
    first,last]
  simp only [List.append_assoc]

def insnsOf (decode : Decoder) (p : Probe) : List Insn :=
  decode (p.origCode.take p.origLen) (UInt64.ofNat p.target.remoteAddr)

theorem builtOps {decode : Decoder} {p entryStubAddr trampolineAddr room out}
    (ok : buildTrampoline decode p entryStubAddr trampolineAddr room = some out) :
    out = (trampoline p.probeId (insnsOf decode p) entryStubAddr
      (UInt64.ofNat (p.target.remoteAddr + p.origLen))).flatMap opBytes := by
  obtain ⟨front,stub,bytes,_⟩ := builtBytes ok
  rw [bytes,stubCallBytes stub,trampolineBytes]
  rfl

theorem builtSome {decode : Decoder} {p entryStubAddr trampolineAddr room out}
    (ok : buildTrampoline decode p entryStubAddr trampolineAddr room = some out) :
    insnsOf decode p ≠ [] ∧ p.origLen ≤ probeOrigCodeMax := by
  unfold buildTrampoline at ok
  split at ok
  · cases ok
  · split at ok
    · cases ok
    · next length =>
      simp only [not_or,Nat.not_lt] at length
      simp only [bind,Option.bind_eq_some_iff] at ok
      obtain ⟨front,_,code,emitted,_⟩ := ok
      unfold emitRelocatedOrigCode at emitted
      split at emitted
      · cases emitted
      · split at emitted
        · cases emitted
        · next some_ => exact ⟨some_,length.2⟩

/-! The words that the builder writes. -/
theorem sumFour (f : Nat → Nat) (b : Nat) :
    ((List.range 4).map fun k => f k * b^k).foldr (· + ·) 0 =
      f 0 + b * (f 1 + b * (f 2 + b * f 3)) := by
  simp only [List.range_succ,List.range_zero,List.nil_append,List.cons_append,List.map_cons,
    List.map_nil,List.foldr_cons,List.foldr_nil]
  ring

theorem readWord (w : UInt32) : readU32 (wordBytes w) = w := by
  have bytes : wordBytes w =
      [byteAt w.toUInt64 0,byteAt w.toUInt64 1,byteAt w.toUInt64 2,byteAt w.toUInt64 3] := rfl
  have value : leValue (wordBytes w) = w.toNat := by
    rw [wordBytes,leValueBytes,UInt32.toNat_toUInt64]
    exact Nat.mod_eq_of_lt w.toNat_lt
  have four : readU32 (wordBytes w) = (leValue (wordBytes w)).toUInt32 := by
    rw [readU32,sumFour (fun k => ((wordBytes w).getD k 0).toNat),bytes]
    rfl
  rw [four,value]
  exact UInt32.ofNat_toNat

theorem orBelow {x y : UInt32} {k : Nat} (i : Nat) (aligned : x.toNat = 2^i * k)
    (small : y.toNat < 2^i) : (x ||| y).toNat = x.toNat + y.toNat := by
  rw [UInt32.toNat_or,aligned,Nat.two_pow_add_eq_or_of_lt small]

theorem shiftedNat {x : UInt32} {k width : Nat} (small : x.toNat < 2^width)
    (inside : width + k ≤ 32) (low : k < 32) :
    (x <<< k.toUInt32).toNat = 2^k * x.toNat := by
  have shift : k.toUInt32.toNat % 32 = k := by
    rw [show k.toUInt32.toNat = k % 2^32 from UInt32.toNat_ofNat']
    omega
  have product : x.toNat * 2^k < 2^32 := by
    calc x.toNat * 2^k < 2^width * 2^k := Nat.mul_lt_mul_of_pos_right small (Nat.two_pow_pos k)
      _ = 2^(width + k) := (Nat.pow_add 2 width k).symm
      _ ≤ 2^32 := Nat.pow_le_pow_right (by decide) inside
  rw [UInt32.toNat_shiftLeft,shift,Nat.shiftLeft_eq,Nat.mod_eq_of_lt product,Nat.mul_comm]

theorem smallNat {n width : Nat} (small : n < 2^width)
    (low : width ≤ 32) : n.toUInt32.toNat = n := by
  have bound : n < 2^32 := small.trans_le (Nat.pow_le_pow_right (by decide) low)
  exact (UInt32.toNat_ofNat').trans (Nat.mod_eq_of_lt bound)

section Words
variable {rd hw cond offset : Nat} {imm : UInt32}

theorem withRegister {x : UInt32} {k : Nat} (reg : rd < 2^5) (above : x.toNat = 2^5 * k) :
    (x ||| rd.toUInt32).toNat = x.toNat + rd := by
  have number := smallNat reg (by decide)
  rw [orBelow 5 above (by rw [number]; exact reg),number]

theorem movzNat (reg : rd < 2^5) (half : imm.toNat < 2^16) :
    ((0xD2800000 : UInt32) ||| (imm <<< 5) ||| rd.toUInt32).toNat = 2^23 * 0x1A5 + 2^5 * imm.toNat +
      rd := by
  have field : (imm <<< 5).toNat = 2^5 * imm.toNat :=
    shiftedNat (k := 5) half (by decide) (by decide)
  have front : ((0xD2800000 : UInt32) ||| (imm <<< 5)).toNat = 2^23 * 0x1A5 + 2^5 * imm.toNat := by
    rw [orBelow (k := 0x694) 21 (by decide) (by rw [field]; omega),field]
    rfl
  rw [withRegister (k := 0x6940000 + imm.toNat) reg (by rw [front]; omega),front]

theorem movkNat (reg : rd < 2^5) (few : hw < 2^2) (half : imm.toNat < 2^16) :
    ((0xF2800000 : UInt32) ||| (hw.toUInt32 <<< 21) ||| (imm <<< 5) ||| rd.toUInt32).toNat =
      2^23 * 0x1E5 + 2^21 * hw + 2^5 * imm.toNat + rd := by
  have number := smallNat few (by decide)
  have place : (hw.toUInt32 <<< 21).toNat = 2^21 * hw := by
    have shifted := shiftedNat (x := hw.toUInt32) (k := 21) (by rw [number]; exact few) (by decide)
        (by decide)
    rwa [number] at shifted
  have field : (imm <<< 5).toNat = 2^5 * imm.toNat :=
    shiftedNat (k := 5) half (by decide) (by decide)
  have front : ((0xF2800000 : UInt32) ||| (hw.toUInt32 <<< 21)).toNat =
      2^23 * 0x1E5 + 2^21 * hw := by
    rw [orBelow (k := 0x1E5) 23 (by decide) (by rw [place]; omega),place]
    rfl
  have middle : ((0xF2800000 : UInt32) ||| (hw.toUInt32 <<< 21) ||| (imm <<< 5)).toNat =
      2^23 * 0x1E5 + 2^21 * hw + 2^5 * imm.toNat := by
    rw [orBelow (k := 0x794 + hw) 21 (by rw [front]; omega) (by rw [field]; omega),front,field]
  rw [withRegister (k := 0x7940000 + 2^16 * hw + imm.toNat) reg (by rw [middle]; omega),middle]

theorem bCondNat (code : cond < 2^4) (near : offset / insnSize < 2^19) :
    (encodeBCond cond offset).toNat = 2^24 * 0x54 + 2^5 * (offset / insnSize) + cond := by
  have number : (cond.toUInt32 &&& 0xf).toNat = cond := by
    rw [UInt32.toNat_and,smallNat code (by decide)]
    exact (Nat.and_two_pow_sub_one_eq_mod cond 4).trans (Nat.mod_eq_of_lt code)
  have words : ((offset / insnSize).toUInt32 &&& 0x7ffff).toNat = offset / insnSize := by
    rw [UInt32.toNat_and,smallNat near (by decide)]
    exact (Nat.and_two_pow_sub_one_eq_mod _ 19).trans (Nat.mod_eq_of_lt near)
  have field : (((offset / insnSize).toUInt32 &&& 0x7ffff) <<< 5).toNat =
      2^5 * (offset / insnSize) := by
    have shifted := shiftedNat (x := (offset / insnSize).toUInt32 &&& 0x7ffff) (k := 5)
        (by rw [words]; exact near) (by decide) (by decide)
    rwa [words] at shifted
  have front : ((0x54000000 : UInt32) |||
      (((offset / insnSize).toUInt32 &&& 0x7ffff) <<< 5)).toNat =
      2^24 * 0x54 + 2^5 * (offset / insnSize) := by
    rw [orBelow (k := 0x54) 24 (by decide) (by rw [field]; omega),field]
    rfl
  rw [encodeBCond,orBelow (k := 0x2A00000 + offset / insnSize) 5 (by rw [front]; omega)
    (by rw [number]; omega),front,number]

theorem movzRead (reg : rd < 2^5) (half : imm.toNat < 2^16) : Spelt (.body (.movz rd imm)) := by
  have value := movzNat reg half
  have field : (2^23 * 0x1A5 + 2^5 * imm.toNat + rd) / 2^5 % 2^16 = imm.toNat := by omega
  have low : (2^23 * 0x1A5 + 2^5 * imm.toNat + rd) % 2^5 = rd := by omega
  have kind : (2^23 * 0x1A5 + 2^5 * imm.toNat + rd) / 2^23 = 0x1A5 := by omega
  have zero : (2^23 * 0x1A5 + 2^5 * imm.toNat + rd) / 2^21 % 2^2 = 0 := by omega
  have back : imm.toNat.toUInt32 = imm := UInt32.ofNat_toNat
  simp only [Spelt,opBytes,encode,readWord,reads,value,field,low,if_pos kind,if_pos zero,back]

theorem movkRead (reg : rd < 2^5) (few : hw < 2^2) (half : imm.toNat < 2^16) :
    Spelt (.body (.movk rd hw imm)) := by
  have value := movkNat reg few half
  have field : (2^23 * 0x1E5 + 2^21 * hw + 2^5 * imm.toNat + rd) / 2^5 % 2^16 = imm.toNat :=
    by omega
  have low : (2^23 * 0x1E5 + 2^21 * hw + 2^5 * imm.toNat + rd) % 2^5 = rd := by omega
  have other : (2^23 * 0x1E5 + 2^21 * hw + 2^5 * imm.toNat + rd) / 2^23 ≠ 0x1A5 := by omega
  have kind : (2^23 * 0x1E5 + 2^21 * hw + 2^5 * imm.toNat + rd) / 2^23 = 0x1E5 := by omega
  have place : (2^23 * 0x1E5 + 2^21 * hw + 2^5 * imm.toNat + rd) / 2^21 % 2^2 = hw := by omega
  have back : imm.toNat.toUInt32 = imm := UInt32.ofNat_toNat
  simp only [Spelt,opBytes,encode,readWord,reads,value,field,low,if_neg other,if_pos kind,
    place,back]

theorem bCondRead (code : cond < 2^4) (near : offset / insnSize < 2^18)
    (whole : offset / insnSize * insnSize = offset) :
    Spelt (.body (.bCond cond offset)) := by
  have value := bCondNat code (near.trans (by decide))
  generalize offset / insnSize = words at near whole value
  have field : (2^24 * 0x54 + 2^5 * words + cond) / 2^5 % 2^19 = words := by omega
  have low : (2^24 * 0x54 + 2^5 * words + cond) % 2^4 = cond := by omega
  have other : (2^24 * 0x54 + 2^5 * words + cond) / 2^23 ≠ 0x1A5 ∧
      (2^24 * 0x54 + 2^5 * words + cond) / 2^23 ≠ 0x1E5 := by omega
  have kind : (2^24 * 0x54 + 2^5 * words + cond) / 2^24 = 0x54 := by omega
  have inside : (2^24 * 0x54 + 2^5 * words + cond) / 2^4 % 2 = 0 ∧ words < 2^18 := by omega
  simp only [Spelt,opBytes,encode,readWord,reads,value,field,low,if_neg other.1,if_neg other.2,
    if_pos kind,if_pos inside,whole]

end Words

def compareKind : Nat := 0x1A
def bitKind : Nat := 0x1B

def kindField (w : UInt32) : Nat := w.toNat / 2^25 % 2^6

/- The disassembler takes no other word for one of these. -/
structure IdRight (insn : Insn) : Prop where
  compare : insn.id = .cbz ∨ insn.id = .cbnz → kindField (readU32 insn.bytes) = compareKind
  bit : insn.id = .tbz ∨ insn.id = .tbnz → kindField (readU32 insn.bytes) = bitKind

section Spelling
variable {target : UInt64}

theorem compareRead {w : UInt32} (kind : kindField w = compareKind) :
    Spelt (.body (.cb (invertBranch w 0x7ffff target))) := by
  obtain ⟨small,_⟩ := skipFew target
  have fits : skipBytes target / insnSize < 2^19 := small.trans (by decide)
  have mask : (0x7ffff : UInt32).toNat = 2^19 - 1 := rfl
  have same : (invertBranch w 0x7ffff target).toNat / 2^25 % 2^6 = 0x1A :=
    (fieldSame mask (by decide) fits (by decide) (by decide)).trans kind
  have words : (invertBranch w 0x7ffff target).toNat / 2^5 % 2^19 < 2^18 := by
    rw [offsetField mask (by decide) fits]
    exact small.trans (by decide)
  have other : (invertBranch w 0x7ffff target).toNat / 2^23 ≠ 0x1A5 ∧
      (invertBranch w 0x7ffff target).toNat / 2^23 ≠ 0x1E5 ∧
      (invertBranch w 0x7ffff target).toNat / 2^24 ≠ 0x54 := by omega
  simp only [Spelt,opBytes,encode,readWord,reads,if_neg other.1,if_neg other.2.1,if_neg other.2.2,
    if_pos same,if_pos words]

theorem bitRead {w : UInt32} (kind : kindField w = bitKind) :
    Spelt (.body (.tb (invertBranch w 0x3fff target))) := by
  obtain ⟨fits,_⟩ := skipFew target
  have few : skipBytes target / insnSize < 2^13 := by
    have halves := List.length_filter_le (fun hw => hw != 0 && halfword target hw != 0)
        (List.range 4)
    rw [List.length_range] at halves
    simp only [skipBytes,movAbsSize,insnSize]
    omega
  have mask : (0x3fff : UInt32).toNat = 2^14 - 1 := rfl
  have same : (invertBranch w 0x3fff target).toNat / 2^25 % 2^6 = 0x1B :=
    (fieldSame mask (by decide) fits (by decide) (by decide)).trans kind
  have words : (invertBranch w 0x3fff target).toNat / 2^5 % 2^14 < 2^13 := by
    rw [offsetField mask (by decide) fits]
    exact few
  have other : (invertBranch w 0x3fff target).toNat / 2^23 ≠ 0x1A5 ∧
      (invertBranch w 0x3fff target).toNat / 2^23 ≠ 0x1E5 ∧
      (invertBranch w 0x3fff target).toNat / 2^24 ≠ 0x54 ∧
        (invertBranch w 0x3fff target).toNat / 2^25 % 2^6 ≠ 0x1A := by omega
  simp only [Spelt,opBytes,encode,readWord,reads,if_neg other.1,if_neg other.2.1,if_neg other.2.2.1,
    if_neg other.2.2.2,if_pos same,if_pos words]

theorem movesSpelt {rd : Nat} {value : UInt64} {e : Emitted} (reg : rd < 2^5)
    (member : e ∈ moves rd value) : Spelt (.body e) := by
  have half : ∀ hw, (halfword value hw).toNat < 2^16 := fun hw => by
    rw [halfwordNat]
    exact Nat.mod_lt _ (by decide)
  obtain ⟨hw,inside,rfl⟩ := List.mem_map.mp member
  have few : hw < 2^2 := List.mem_range.mp (List.mem_of_mem_filter inside)
  split
  · exact movzRead reg (half 0)
  · exact movkRead reg few (half hw)

theorem absBranchSpelt {e : Emitted} (member : e ∈ absBranch target) : Spelt (.body e) := by
  rcases List.mem_append.mp member with inside | last
  · exact movesSpelt (by decide) inside
  · rw [List.mem_singleton.mp last]
    simp only [Spelt,opBytes,encode,readWord]
    rfl

theorem skipSpelt {insn : Insn} {test : Test} (right : IdRight insn)
    (is : role insn = .branch test target) {e : Emitted}
    (member : e ∈ skipUnless target test) : Spelt (.body e) := by
  cases test with
  | always => cases member
  | cond code =>
    rw [List.mem_singleton.mp member]
    obtain ⟨few,whole⟩ := skipFew target
    have low : code < 14 := testRead is
    have code' : code ^^^ 1 < 2^4 := Nat.xor_lt_two_pow (by omega) (by decide)
    exact bCondRead code' (few.trans (by decide)) whole
  | compare w =>
    rw [List.mem_singleton.mp member]
    obtain ⟨id,rfl⟩ := testRead is
    exact compareRead (right.compare id)
  | bit w =>
    rw [List.mem_singleton.mp member]
    obtain ⟨id,rfl⟩ := testRead is
    exact bitRead (right.bit id)

theorem expandSpelt {insn : Insn} (right : IdRight insn) {e : Emitted}
    (member : e ∈ expand insn) : Spelt (.body e) := by
  unfold expand at member
  split at member
  · next rd target is =>
    refine movesSpelt ?_ member
    unfold role at is
    have low : (readU32 insn.bytes &&& 0x1f).toNat < 2^5 := by
      rw [UInt32.toNat_and]
      exact Nat.and_lt_two_pow _ (by decide)
    cases id : insn.id with
    | adr | adrp =>
      simp only [id] at is
      cases found : branchTarget insn 1 with
      | none => simp [found] at is
      | some v =>
        simp only [found,Option.elim_some,Role.address.injEq] at is
        rw [← is.1]
        exact low
    | bl => simp only [id] at is; cases found : branchTarget insn 0 <;> simp [found] at is
    | b => simp only [id] at is; cases found : branchTarget insn 0 <;> simp [found] at is
    | cbnz | cbz => simp only [id] at is; cases found : branchTarget insn 1 <;> simp [found] at is
    | tbnz | tbz => simp only [id] at is; cases found : branchTarget insn 2 <;> simp [found] at is
    | _ => simp [id] at is
  · rcases List.mem_append.mp member with inside | last
    · exact movesSpelt (by decide) inside
    · rw [List.mem_singleton.mp last]
      simp only [Spelt,opBytes,encode,readWord]
      rfl
  · next test target is =>
    rcases List.mem_append.mp member with skip | jump
    · exact skipSpelt right is skip
    · exact absBranchSpelt jump
  · rw [List.mem_singleton.mp member]
    trivial

theorem trampolineSpelt {probeId : Nat} {insns : List Insn} {entryStubAddr continueAddr : UInt64}
    (right : ∀ insn ∈ insns, IdRight insn) {op : Op}
    (member : op ∈ trampoline probeId insns entryStubAddr continueAddr) : Spelt op := by
  have callRead : Spelt (.body .blrX16) := by
    simp only [Spelt,opBytes,encode,readWord]
    rfl
  have moveRead : ∀ rd rm, reads (moveWord rd rm) = some (.move rd rm) → Spelt (.move rd rm) :=
    fun rd rm found => by
    simp only [Spelt,opBytes,readWord,found]
  simp only [trampoline,stubCall,relocated,List.mem_cons,List.mem_append,List.mem_map,
    List.map_append,List.map_cons,List.map_nil,List.not_mem_nil,
    or_false] at member
  rcases member with rfl | (⟨e,inside,rfl⟩ | ⟨e,inside,rfl⟩ | rfl) | rfl | ⟨e,inside,rfl⟩
    | ⟨e,inside,rfl⟩
  · exact moveRead 15 30 rfl
  · exact movesSpelt (by decide) inside
  · exact movesSpelt (by decide) inside
  · exact callRead
  · exact moveRead 30 15 rfl
  · obtain ⟨insn,among,found⟩ := listingMember inside
    exact expandSpelt (right insn among) found
  · exact absBranchSpelt inside

end Spelling

section Run
variable {isa : Isa E} {callee : Exit E → Option (State E)} {a entryStubAddr continueAddr : UInt64}
    {insns : List Insn} {probeId : Nat}

/- The state in which the stub is called: x15 has the link register. -/
def atStub (a : UInt64) (probeId : Nat) (entryStubAddr : UInt64) (s : State E) : State E :=
  (((s.set 15 (s.get 30)).set 17 (UInt64.ofNat probeId)).set 16 entryStubAddr).set 30
    (a + UInt64.ofNat (stubReturn probeId entryStubAddr))

theorem stubRun (fall : UInt64 → Nat → State E → Option (List (Exit E))) (s : State E) :
    walk emittedSize (step isa) (comesBack callee) fall a 0 (stubCall probeId entryStubAddr) s =
      handedOn (comesBack callee) ⟨.call,entryStubAddr,
        ((s.set 17 (UInt64.ofNat probeId)).set 16 entryStubAddr).set 30
        (a + UInt64.ofNat (codeSize emittedSize (stubCall probeId entryStubAddr)))⟩
        (fall (a + UInt64.ofNat (codeSize emittedSize (stubCall probeId entryStubAddr))) 0) := by
  have size : a + UInt64.ofNat (codeSize emittedSize (stubCall probeId entryStubAddr)) =
      a + UInt64.ofNat (codeSize emittedSize (moves 17 (UInt64.ofNat probeId))) +
        UInt64.ofNat (codeSize emittedSize (moves 16 entryStubAddr)) + 4 := by
    rw [stubCall,codeSizeAppend,codeSizeAppend,UInt64.ofNat_add,UInt64.ofNat_add,UInt64.add_assoc,
      UInt64.add_assoc]
    rfl
  rw [size,stubCall,walkAppend,movesRun,walkAppend,movesRun,walkLeave rfl,
    Arm64Replay.setSame (by decide)]
  simp only [walkNil]
  rfl

theorem trampolineRun (s : State E) :
    walk opSize (opStep isa) (comesBack callee) nowhere a 0
      (trampoline probeId insns entryStubAddr continueAddr) s =
      handedOn (comesBack callee) ⟨.call,entryStubAddr,atStub a probeId entryStubAddr s⟩ fun s =>
        replay emittedSize expand (moved isa) (comesBack callee) (fun _ s => s)
          (fun _ s => some [⟨.jump,continueAddr,s.set 16 continueAddr⟩])
          (a + UInt64.ofNat (bodyStart probeId entryStubAddr)) insns (s.set 30 (s.get 15)) := by
  have link : a + UInt64.ofNat insnSize +
      UInt64.ofNat (codeSize emittedSize (stubCall probeId entryStubAddr)) =
      a + UInt64.ofNat (stubReturn probeId entryStubAddr) := by
        rw [stubReturn,UInt64.ofNat_add,UInt64.add_assoc]
  have start : a + UInt64.ofNat (stubReturn probeId entryStubAddr) + UInt64.ofNat insnSize =
      a + UInt64.ofNat (bodyStart probeId entryStubAddr) := by
    rw [bodyStart,UInt64.ofNat_add,UInt64.add_assoc]
  have emitted : ∀ (fall : UInt64 → Nat → State E → Option (List (Exit E))) a n l s,
      walk opSize (opStep isa) (comesBack callee) fall a n (l.map .body) s =
      walk emittedSize (step isa) (comesBack callee) fall a n l s :=
        fun fall a n l s => walkMap (fun _ => rfl) fun _ _ _ => rfl
  rw [trampoline,walkNext rfl,walkAppend,emitted,stubRun]
  simp only [opSize]
  rw [link]
  congr 1
  funext s'
  rw [walkNext rfl]
  simp only [opSize]
  rw [start,emitted,relocated,walkAppend,walkReplay fun insn _ =>
    follows isa (comesBack callee) insn]
  refine replayStop fun s => ?_
  rw [absBranchRun]
  rfl

end Run

def literalLoad (insn : Insn) : Bool := (branchTarget insn 1).isSome && match insn.id with
  | .ldr | .ldrb | .ldrh | .ldrsb | .ldrsh | .ldrsw => true
  | _ => false

theorem literalRefused {insn : Insn} (accepted : Accepted insn) : literalLoad insn = false := by
  cases id : insn.id with
  | ldr | ldrb | ldrh | ldrsb | ldrsh | ldrsw =>
    have copied := accepted.plain (by simp [role,id])
    simp only [copyable,id] at copied
    simpa [literalLoad,id] using copied
  | _ => simp [literalLoad,id]

/-- A trampoline that is built hands the probe id to the stub with the link register in x15,
takes it back from there, and then replays the prologue: an address that the prologue takes
is the same one, every branch goes where it went and under the same condition, everything
else is the same bytes, and at the end it goes on behind the prologue. None is built for a
prologue that loads from a place of its own. -/
theorem trampolineKeepsTargets {decode : Decoder} {p : Probe}
    {entryStubAddr trampolineAddr : UInt64} {room : Nat}
    (right : ∀ insn ∈ insnsOf decode p, IdRight insn) :
    ((∃ insn ∈ insnsOf decode p, literalLoad insn = true) →
      buildTrampoline decode p entryStubAddr trampolineAddr room = none) ∧
    ∀ out, buildTrampoline decode p entryStubAddr trampolineAddr room = some out →
      let continueAddr := UInt64.ofNat (p.target.remoteAddr + p.origLen)
      let code := trampoline p.probeId (insnsOf decode p) entryStubAddr continueAddr
      out = code.flatMap opBytes ∧ (∀ op ∈ code, Spelt op) ∧
      (∀ insn ∈ insnsOf decode p, role insn = .plain → (expand insn).flatMap encode = insn.bytes) ∧
      ∀ (E : Type) (isa : Isa E) (callee : Exit E → Option (State E)) (s : State E),
        walk opSize (opStep isa) (comesBack callee) nowhere trampolineAddr 0 code s =
          handedOn (comesBack callee) ⟨.call,entryStubAddr,
            atStub trampolineAddr p.probeId entryStubAddr s⟩ fun s =>
            replay emittedSize expand (moved isa) (comesBack callee) (fun _ s => s)
              (fun _ s => some [⟨.jump,continueAddr,s.set 16 continueAddr⟩])
              (trampolineAddr + UInt64.ofNat (bodyStart p.probeId entryStubAddr)) (insnsOf decode p)
                (s.set 30 (s.get 15)) := by
  refine ⟨?_,fun out ok =>
    ⟨builtOps ok,fun op member => trampolineSpelt right member,fun insn member plain => ?_,
    fun E isa callee s => trampolineRun s⟩⟩
  · rintro ⟨insn,member,literal⟩
    cases ok : buildTrampoline decode p entryStubAddr trampolineAddr room with
    | none => rfl
    | some out =>
      obtain ⟨_,_,_,accepted⟩ := builtBytes ok
      exact absurd (literal.symm.trans (literalRefused (accepted insn member))) (by simp)
  · simp only [expand,plain,List.flatMap_cons,List.flatMap_nil,List.append_nil,encode]

def cbzFar : Insn := ⟨.cbz,0x1000,wordBytes 0xB4008000,[.other,.imm 0x2000],0⟩
def adrFar : Insn := ⟨.adr,0x1004,wordBytes 0x1000FFE1,[.other,.imm 0x3000],0⟩

def cbzAdrProbe : Probe :=
  { Probe.zero with probeId := 7, target := ⟨[],[],0x1000⟩, origCode :=
    cbzFar.bytes ++ adrFar.bytes, origLen := 8 }

def returns (e : Exit Unit) : Option (State Unit) := some e.state

def withX0 (x0 : UInt64) : State Unit :=
  ⟨fun i => if i.val = 0 then x0 else 0,0,⟨false,false,false,false⟩,fun _ => 0,()⟩

def idle : Isa Unit := ⟨fun _ s => .next s⟩

theorem cbzAdrReplayed :
    ∃ out, buildTrampoline (fun _ _ => [cbzFar,adrFar]) cbzAdrProbe 0x7000 0x5000 256 = some out ∧
    ∀ x0 ∈ [0,1], (walk opSize (opStep idle) (comesBack returns) nowhere 0x5000 0
      (trampoline 7 [cbzFar,adrFar] 0x7000 0x1008) (withX0 x0)).map
      (List.map fun e => (e.way,e.target,e.state.get 1)) =
        some [(.call,0x7000,0),if x0 = 0 then (.jump,0x2000,0) else (.jump,0x1008,0x3000)] := by
  obtain ⟨out,ok⟩ : ∃ out,
    buildTrampoline (fun _ _ => [cbzFar,adrFar]) cbzAdrProbe 0x7000 0x5000 256 = some out :=
    Option.isSome_iff_exists.mp (by decide)
  have right : ∀ insn ∈ insnsOf (fun _ _ => [cbzFar,adrFar]) cbzAdrProbe, IdRight insn := by
    intro insn member
    have two : insn = cbzFar ∨ insn = adrFar := by simpa [insnsOf] using member
    rcases two with rfl | rfl
    · exact ⟨fun _ => by decide,fun id => absurd id (by decide)⟩
    · exact ⟨fun id => absurd id (by decide),fun id => absurd id (by decide)⟩
  obtain ⟨-,-,-,run⟩ := (trampolineKeepsTargets right).2 out ok
  refine ⟨out,ok,fun x0 member => ?_⟩
  refine (congrArg _ (run Unit idle returns (withX0 x0))).trans ?_
  have two : x0 = 0 ∨ x0 = 1 := by simpa using member
  rcases two with rfl | rfl <;> rfl

end ZeroTrace.Arm64Flow
