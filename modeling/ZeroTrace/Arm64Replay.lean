import ZeroTrace.CodeListing
import ZeroTrace.Arm64Trampoline

/-! What a prologue does at its own address, and what the code does that the aarch64
trampoline has for it. An instruction that is copied does what the processor says; the
moves and branches that the builder writes are spelled out. -/
namespace ZeroTrace.Arm64Replay
open PatchCode CodeBuffer CodeListing ProbeTable Arm64Trampoline

structure Flags where
  n : Bool
  z : Bool
  c : Bool
  v : Bool
  deriving DecidableEq, Repr

/- `rest` is whatever else the machine has. -/
structure State (E : Type) where
  reg : Fin 31 → UInt64
  sp : UInt64
  flags : Flags
  mem : UInt64 → UInt8
  rest : E

inductive Way where
  | jump | call | fault
  deriving DecidableEq, Repr

structure Exit (E : Type) where
  way : Way
  target : UInt64
  state : State E

variable {E : Type}

/- Register 31 is zero, and is not written. -/
def State.get (s : State E) (r : Nat) : UInt64 := if low : r < 31 then s.reg ⟨r,low⟩ else 0

def State.set (s : State E) (r : Nat) (v : UInt64) : State E :=
  { s with reg := fun i => if i.val = r then v else s.reg i }

def holds (f : Flags) : Nat → Bool
  | 0 => f.z
  | 1 => !f.z
  | 2 => f.c
  | 3 => !f.c
  | 4 => f.n
  | 5 => !f.n
  | 6 => f.v
  | 7 => !f.v
  | 8 => f.c && !f.z
  | 9 => !(f.c && !f.z)
  | 10 => f.n == f.v
  | 11 => !(f.n == f.v)
  | 12 => f.n == f.v && !f.z
  | 13 => !(f.n == f.v && !f.z)
  | _ => true

/-! The fields of a compare or test branch. Bit 24 tells its two forms apart. -/
def register (w : UInt32) : Nat := (w &&& 0x1f).toNat

/- cbz and cbnz: bit 31 tells whether the whole register is compared. -/
def compareHolds (w : UInt32) (s : State E) : Bool :=
  let value := if w.toNat.testBit 31 then
    (s.get (register w)).toNat else (s.get (register w)).toNat % 2^32
  (value == 0) != w.toNat.testBit 24

def compareOffset (w : UInt32) : Nat := w.toNat / 2^5 % 2^19 * insnSize

/- tbz and tbnz: bit 31 and the five bits from 19 on number the bit. -/
def bitHolds (w : UInt32) (s : State E) : Bool :=
  let number := (if w.toNat.testBit 31 then 32 else 0) + w.toNat / 2^19 % 2^5
  !(s.get (register w)).toNat.testBit number != w.toNat.testBit 24

def bitOffset (w : UInt32) : Nat := w.toNat / 2^5 % 2^14 * insnSize

inductive Test where
  | always
  | cond (code : Nat)
  | compare (w : UInt32)
  | bit (w : UInt32)

def Test.holds (s : State E) : Test → Bool
  | .always => true
  | .cond code => Arm64Replay.holds s.flags code
  | .compare w => compareHolds w s
  | .bit w => bitHolds w s

inductive Role where
  | address (rd : Nat) (target : UInt64)
  | call (target : UInt64)
  | branch (test : Test) (target : UInt64)
  | plain

def role (insn : Insn) : Role := match insn.id with
  | .adr | .adrp => (branchTarget insn 1).elim .plain (.address (readU32 insn.bytes &&& 0x1f).toNat)
  | .bl => (branchTarget insn 0).elim .plain .call
  | .b => (branchTarget insn 0).elim .plain
      (.branch (if 1 ≤ insn.cc ∧ insn.cc ≤ 14 then .cond (insn.cc - 1) else .always))
  | .cbnz | .cbz => (branchTarget insn 1).elim .plain (.branch (.compare (readU32 insn.bytes)))
  | .tbnz | .tbz => (branchTarget insn 2).elim .plain (.branch (.bit (readU32 insn.bytes)))
  | _ => .plain

structure Isa (E : Type) where
  exec : Insn → State E → Outcome (State E) (Exit E)

def meaning (isa : Isa E) (insn : Insn) (s : State E) : Outcome (State E) (Exit E) :=
  match role insn with
  | .address rd target => .next (s.set rd target)
  | .call target => .leave ⟨.call,target,s.set 30 (insn.address + 4)⟩
  | .branch test target => if test.holds s then .leave ⟨.jump,target,s⟩ else .next s
  | .plain => isa.exec insn s

def size (insn : Insn) : Nat := insn.bytes.length

def original (isa : Isa E) (a : UInt64) (insns : List Insn) (s : State E) : Option (Exit E) :=
  execute size (fun _ insn s => (meaning isa insn s).goesOn 0) (fun a s => some ⟨.jump,a,s⟩) a 0
    insns s

inductive Emitted where
  | movz (rd : Nat) (imm : UInt32)
  | movk (rd hw : Nat) (imm : UInt32)
  | brX16
  | blrX16
  | bCond (cond offset : Nat)
  | cb (w : UInt32)
  | tb (w : UInt32)
  | copied (insn : Insn)

def encode : Emitted → Bytes
  | .movz rd imm => wordBytes ((0xD2800000 : UInt32) ||| (imm <<< 5) ||| rd.toUInt32)
  | .movk rd hw imm =>
      wordBytes ((0xF2800000 : UInt32) ||| (hw.toUInt32 <<< 21) ||| (imm <<< 5) ||| rd.toUInt32)
  | .brX16 => wordBytes brX16
  | .blrX16 => wordBytes blrX16
  | .bCond cond offset => wordBytes (encodeBCond cond offset)
  | .cb w => wordBytes w
  | .tb w => wordBytes w
  | .copied insn => insn.bytes

def emittedSize : Emitted → Nat
  | .copied insn => size insn
  | _ => insnSize

def insert (x : UInt64) (hw : Nat) (imm : UInt32) : UInt64 :=
  UInt64.ofNat (x.toNat % 2^(16 * hw) + imm.toNat * 2^(16 * hw) + x.toNat / 2^(16 * hw + 16) *
    2^(16 * hw + 16))

/- An offset counts from the branch itself. -/
def step (isa : Isa E) (a : UInt64) (e : Emitted)
    (s : State E) : Outcome (Nat × State E) (Exit E) := match e with
  | .movz rd imm => .next (0,s.set rd imm.toUInt64)
  | .movk rd hw imm => .next (0,s.set rd (insert (s.get rd) hw imm))
  | .brX16 => .leave ⟨.jump,s.get 16,s⟩
  | .blrX16 => .leave ⟨.call,s.get 16,s.set 30 (a + 4)⟩
  | .bCond cond offset => .next (if holds s.flags cond then offset - insnSize else 0,s)
  | .cb w => .next (if compareHolds w s then compareOffset w - insnSize else 0,s)
  | .tb w => .next (if bitHolds w s then bitOffset w - insnSize else 0,s)
  | .copied insn => (isa.exec { insn with address := a } s).goesOn 0

def moves (rd : Nat) (value : UInt64) : List Emitted := (movHalves value).map fun hw =>
  if hw = 0 then .movz rd (halfword value 0) else .movk rd hw (halfword value hw)

def absBranch (target : UInt64) : List Emitted := moves 16 target ++ [.brX16]

def skipUnless (target : UInt64) : Test → List Emitted
  | .always => []
  | .cond code => [.bCond (code ^^^ 1) (skipBytes target)]
  | .compare w => [.cb (invertBranch w 0x7ffff target)]
  | .bit w => [.tb (invertBranch w 0x3fff target)]

def expand (insn : Insn) : List Emitted := match role insn with
  | .address rd target => moves rd target
  | .call target => moves 16 target ++ [.blrX16]
  | .branch test target => skipUnless target test ++ absBranch target
  | .plain => [.copied insn]

def relocated (insns : List Insn) (continueAddr : UInt64) : List Emitted :=
  listing expand insns ++ absBranch continueAddr

def replayed (isa : Isa E) (a : UInt64) (code : List Emitted) (s : State E) : Option (Exit E) :=
  execute emittedSize (step isa) (fun _ _ => none) a 0 code s

/-! The bytes that the builder writes are those of this code. -/
theorem moveWords (rd : Nat) (value : UInt64) :
    (moves rd value).flatMap encode =
      ((movHalves value).map fun hw => wordBytes (movWord rd value hw)).flatten := by
  rw [moves,List.flatMap_map,List.flatMap_def]
  congr 1
  refine List.map_congr_left fun hw _ => ?_
  by_cases zero : hw = 0
  · subst zero; simp [encode,movWord]
  · simp [encode,movWord,zero]

theorem movAbsBytes {room buf rd value out} (ok : emitMovAbs room buf rd value = some out) :
    out = buf ++ (moves rd value).flatMap encode := by
  unfold emitMovAbs at ok
  split at ok
  · cases ok
  · rw [emitAllSome ok,moveWords]

theorem absBranchBytes {room buf target out} (ok : emitAbsBranch room buf target = some out) :
    out = buf ++ (absBranch target).flatMap encode := by
  obtain ⟨next,mov,last⟩ := Option.bind_eq_some_iff.mp ok
  rw [emitBytesSome last,movAbsBytes mov,absBranch]
  simp [encode]

/- The instructions that are copied name no address. -/
def copyable (insn : Insn) : Bool := match insn.id with
  | .ldr | .ldrb | .ldrh | .ldrsb | .ldrsh | .ldrsw => (branchTarget insn 1).isNone
  | .other _ => true
  | _ => false

structure Accepted (insn : Insn) : Prop where
  size : insn.bytes.length = insnSize
  plain : role insn = .plain → copyable insn = true

theorem skipThenBranch {room buf w target out}
    (ok : ((emitU32 room buf w).bind fun next => emitAbsBranch room next target) = some out) :
    out = buf ++ (wordBytes w ++ (absBranch target).flatMap encode) := by
  obtain ⟨next,first,rest⟩ := Option.bind_eq_some_iff.mp ok
  rw [absBranchBytes rest,emitBytesSome first,List.append_assoc]

theorem insnBytes {room buf insn out} (ok : emitRelocatedInsn room buf insn = some out) :
    out = buf ++ (expand insn).flatMap encode ∧ Accepted insn := by
  unfold emitRelocatedInsn at ok
  split at ok
  · cases ok
  · next size =>
    have four : insn.bytes.length = insnSize := by simpa using size
    cases id : insn.id with
    | adr | adrp =>
      simp only [id] at ok
      obtain ⟨target,operand,mov⟩ := Option.bind_eq_some_iff.mp ok
      have is : role insn = .address (readU32 insn.bytes &&& 0x1f).toNat target := by
        simp [role,id,operand]
      exact ⟨by rw [movAbsBytes mov,expand,is],four,fun bad => by rw [is] at bad; cases bad⟩
    | bl =>
      simp only [id] at ok
      obtain ⟨target,operand,call⟩ := Option.bind_eq_some_iff.mp ok
      obtain ⟨next,mov,last⟩ := Option.bind_eq_some_iff.mp call
      have is : role insn = .call target := by simp [role,id,operand]
      refine ⟨?_,four,fun bad => by rw [is] at bad; cases bad⟩
      rw [emitBytesSome last,movAbsBytes mov,expand,is]
      simp [encode]
    | b =>
      simp only [id] at ok
      obtain ⟨target,operand,branch⟩ := Option.bind_eq_some_iff.mp ok
      split at branch
      · next cond =>
        have is : role insn = .branch (.cond (insn.cc - 1)) target := by simp [role,id,operand,cond]
        refine ⟨?_,four,fun bad => by rw [is] at bad; cases bad⟩
        simp only [emitCondAbsBranch,inverseCond,condCode,if_pos cond,Option.map_some,bind,
          Option.bind_some] at branch
        rw [skipThenBranch branch,expand,is]
        simp [skipUnless,encode]
      · next plain =>
        have is : role insn = .branch .always target := by simp [role,id,operand,plain]
        exact ⟨by rw [absBranchBytes branch,expand,is]; rfl,four,
          fun bad => by rw [is] at bad; cases bad⟩
    | cbnz | cbz =>
      simp only [id] at ok
      obtain ⟨target,operand,branch⟩ := Option.bind_eq_some_iff.mp ok
      have is : role insn = .branch (.compare (readU32 insn.bytes)) target := by
        simp [role,id,operand]
      refine ⟨?_,four,fun bad => by rw [is] at bad; cases bad⟩
      rw [skipThenBranch branch,expand,is]
      simp [skipUnless,encode]
    | tbnz | tbz =>
      simp only [id] at ok
      obtain ⟨target,operand,branch⟩ := Option.bind_eq_some_iff.mp ok
      have is : role insn = .branch (.bit (readU32 insn.bytes)) target := by simp [role,id,operand]
      refine ⟨?_,four,fun bad => by rw [is] at bad; cases bad⟩
      rw [skipThenBranch branch,expand,is]
      simp [skipUnless,encode]
    | ldr | ldrb | ldrh | ldrsb | ldrsh | ldrsw =>
      simp only [id] at ok
      split at ok
      · cases ok
      · next literal =>
        refine ⟨?_,four,fun _ => by simpa [copyable,id] using literal⟩
        rw [emitBytesSome ok,expand]
        simp [role,id,encode]
    | other n =>
      simp only [id] at ok
      refine ⟨?_,four,fun _ => by simp [copyable,id]⟩
      rw [emitBytesSome ok,expand]
      simp [role,id,encode]

theorem insnsBytes {room buf insns out} (ok : emitInsns room buf insns = some out) :
    out = buf ++ (listing expand insns).flatMap encode ∧ ∀ insn ∈ insns, Accepted insn := by
  induction insns generalizing buf with
  | nil => exact ⟨by simpa [listing] using (Option.some.inj ok).symm,
      fun _ bad => absurd bad (by simp)⟩
  | cons insn insns ih =>
    obtain ⟨next,first,rest⟩ := Option.bind_eq_some_iff.mp ok
    obtain ⟨here,accepted⟩ := insnBytes first
    obtain ⟨others,all⟩ := ih rest
    refine ⟨by rw [others,here,listing,List.flatMap_append,List.append_assoc],fun i member => ?_⟩
    rcases List.mem_cons.mp member with rfl | later
    · exact accepted
    · exact all i later

theorem builtBytes {decode : Decoder} {p entryStubAddr trampolineAddr room out}
    (ok : buildTrampoline decode p entryStubAddr trampolineAddr room = some out) :
    ∃ front, emitStubCall room p.probeId entryStubAddr = some front ∧ out = front ++
      (relocated (decode (p.origCode.take p.origLen) (UInt64.ofNat p.target.remoteAddr))
        (UInt64.ofNat (p.target.remoteAddr + p.origLen))).flatMap encode ∧
      ∀ insn ∈ decode (p.origCode.take p.origLen) (UInt64.ofNat p.target.remoteAddr),
        Accepted insn := by
  unfold buildTrampoline at ok
  split at ok
  · cases ok
  · split at ok
    · cases ok
    · simp only [bind,Option.bind_eq_some_iff] at ok
      obtain ⟨front,stub,code,emitted,last⟩ := ok
      unfold emitRelocatedOrigCode at emitted
      split at emitted
      · cases emitted
      · split at emitted
        · cases emitted
        · obtain ⟨same,all⟩ := insnsBytes emitted
          refine ⟨front,stub,?_,all⟩
          rw [absBranchBytes last,same,relocated,List.nil_append,List.flatMap_append,
            List.append_assoc]

/-! What stands for an instruction comes to this. -/
def moved (isa : Isa E) (a : UInt64) (insn : Insn) (s : State E) : Outcome (State E) (Exit E) :=
  match role insn with
  | .address rd target => .next (s.set rd target)
  | .call target => .leave ⟨.call,target,
      (s.set 16 target).set 30 (a + UInt64.ofNat (movAbsSize target) + 4)⟩
  | .branch test target => if test.holds s then .leave ⟨.jump,target,s.set 16 target⟩ else .next s
  | .plain => isa.exec { insn with address := a } s

theorem setSet (s : State E) (r : Nat) (v w : UInt64) : (s.set r v).set r w = s.set r w := by
  simp only [State.set]
  congr 1
  funext i
  by_cases same : i.val = r <;> simp [same]

theorem setGet (s : State E) (r : Nat) (v : UInt64) (f : UInt64 → UInt64) :
    (s.set r v).set r (f ((s.set r v).get r)) = s.set r (f v) := by
  rw [setSet]
  by_cases low : r < 31
  · simp [State.get,State.set,low]
  · -- Nothing is written.
    simp only [State.set]
    congr 1
    funext i
    have other : i.val ≠ r := by omega
    simp [other]

theorem halfwordNat (value : UInt64) (hw : Nat) :
    (halfword value hw).toNat = value.toNat / 2^(16 * hw) % 2^16 := by
  simp [halfword]
  omega

theorem modNext (value : UInt64) (k : Nat) :
    value.toNat % 2^(16 * (k + 1)) = value.toNat % 2^(16 * k) + 2^(16 * k) *
      (halfword value k).toNat := by
  rw [halfwordNat,Nat.mul_add,Nat.pow_add,Nat.mod_mul]

theorem insertHalf (value : UInt64) {k : Nat} (low : k < 4) :
    insert (UInt64.ofNat (value.toNat % 2^(16 * k))) k (halfword value k) =
      UInt64.ofNat (value.toNat % 2^(16 * (k + 1))) := by
  have small : value.toNat % 2^(16 * k) < 2^(16 * k) := Nat.mod_lt _ (Nat.two_pow_pos _)
  have width : 2^(16 * k) ≤ 2^64 := Nat.pow_le_pow_right (by decide) (by omega)
  have whole : (UInt64.ofNat (value.toNat % 2^(16 * k))).toNat = value.toNat % 2^(16 * k) := by
    rw [UInt64.toNat_ofNat']
    exact Nat.mod_eq_of_lt (by omega)
  have above : value.toNat % 2^(16 * k) / 2^(16 * k + 16) = 0 :=
    Nat.div_eq_of_lt (small.trans_le (Nat.pow_le_pow_right (by decide) (by omega)))
  rw [insert,whole,above,Nat.mod_mod,modNext,Nat.zero_mul,Nat.add_zero,Nat.mul_comm (2^(16 * k))]

def movesFrom (rd : Nat) (value : UInt64) (k n : Nat) : List Emitted :=
  ((List.range' k n).filter fun hw => hw == 0 || halfword value hw != 0).map fun hw =>
    if hw = 0 then .movz rd (halfword value 0) else .movk rd hw (halfword value hw)

/- A halfword that is zero takes no instruction and leaves the register's number as it is. -/
theorem movesFromZero {value : UInt64} {k : Nat} (some_ : 0 < k) (zero : halfword value k = 0)
    (rd n : Nat) :
    movesFrom rd value k (n + 1) = movesFrom rd value (k + 1) n ∧
      value.toNat % 2^(16 * k) = value.toNat % 2^(16 * (k + 1)) := by
  constructor
  · simp [movesFrom,List.range'_succ,zero,Nat.ne_of_gt some_]
  · rw [modNext,zero]
    rfl

theorem movesFromNext {value : UInt64} {k : Nat} (some_ : 0 < k) (zero : halfword value k ≠ 0)
    (rd n : Nat) :
    movesFrom rd value k (n + 1) = .movk rd k (halfword value k) ::
      movesFrom rd value (k + 1) n := by
  simp [movesFrom,List.range'_succ,zero,Nat.ne_of_gt some_]

theorem movesFromRun {isa : Isa E} {rd : Nat} {value a : UInt64} {s : State E}
    {back : Exit E → Option (State E)}
    {fall : UInt64 → Nat → State E → Option (List (Exit E))} {k n : Nat} (some_ : 0 < k)
    (few : k + n ≤ 4) :
    walk emittedSize (step isa) back fall a 0 (movesFrom rd value k n)
      (s.set rd (UInt64.ofNat (value.toNat % 2^(16 * k)))) =
      fall (a + UInt64.ofNat (codeSize emittedSize (movesFrom rd value k n))) 0
        (s.set rd (UInt64.ofNat (value.toNat % 2^(16 * (k + n))))) := by
  induction n generalizing k a with
  | zero => simp [movesFrom,codeSize,walk]
  | succ n ih =>
    by_cases zero : halfword value k = 0
    · obtain ⟨same,still⟩ := movesFromZero some_ zero rd n
      rw [same,still,ih (by omega) (by omega),Nat.add_right_comm k 1 n,Nat.add_assoc k n 1]
    · have one : step isa a (.movk rd k (halfword value k))
        (s.set rd (UInt64.ofNat (value.toNat % 2^(16 * k)))) =
          .next (0,s.set rd (UInt64.ofNat (value.toNat % 2^(16 * (k + 1))))) := by
        simp only [step]
        rw [setGet s rd _ fun x => insert x k (halfword value k),insertHalf value (by omega)]
      rw [movesFromNext some_ zero,walkNext one,ih (by omega) (by omega),addressAfter,
        Nat.add_right_comm k 1 n,Nat.add_assoc k n 1]

theorem movesParts {rd : Nat} {value : UInt64} :
    moves rd value = .movz rd (halfword value 0) :: movesFrom rd value 1 3 ∧
    (halfword value 0).toUInt64 = UInt64.ofNat (value.toNat % 2^(16 * 1)) ∧
      UInt64.ofNat (value.toNat % 2^(16 * (1 + 3))) = value := by
  refine ⟨?_,?_,?_⟩
  · simp [moves,movesFrom,movHalves,List.range_eq_range',List.range'_succ]
  · apply UInt64.toNat_inj.mp
    simp only [UInt32.toNat_toUInt64,halfwordNat,UInt64.toNat_ofNat']
    simp only [Nat.mul_zero,Nat.pow_zero,Nat.div_one,Nat.mul_one]
    omega
  · rw [Nat.mod_eq_of_lt value.toNat_lt]
    simp

theorem movesRun {isa : Isa E} {rd : Nat} {value a : UInt64} {s : State E}
    {back : Exit E → Option (State E)}
    {fall : UInt64 → Nat → State E → Option (List (Exit E))} :
    walk emittedSize (step isa) back fall a 0 (moves rd value) s =
      fall (a + UInt64.ofNat (codeSize emittedSize (moves rd value))) 0 (s.set rd value) := by
  obtain ⟨same,low,whole⟩ := @movesParts rd value
  have one : step isa a (.movz rd (halfword value 0)) s =
      .next (0,s.set rd (UInt64.ofNat (value.toNat % 2^(16 * 1)))) := by
    simp only [step,low]
  rw [same,walkNext one,movesFromRun (by decide) (by decide),addressAfter,whole]

theorem movesSize (rd : Nat) (value : UInt64) :
    codeSize emittedSize (moves rd value) = movAbsSize value := by
  have words : ∀ l : List Nat, codeSize emittedSize (l.map fun hw =>
      if hw = 0 then Emitted.movz rd (halfword value 0) else .movk rd hw (halfword value hw)) =
        l.length * insnSize := by
    intro l
    induction l with
    | nil => rfl
    | cons hw l ih =>
      have one : emittedSize (if hw = 0 then
          Emitted.movz rd (halfword value 0) else .movk rd hw (halfword value hw)) = insnSize := by
        split <;> rfl
      rw [List.map_cons,codeSize,one,ih,List.length_cons,Nat.succ_mul,Nat.add_comm]
  rw [moves,words,movAbsSize]
  congr 1
  simp only [movHalves,List.range_eq_range',List.range'_succ,List.range'_zero,List.filter_cons,
    List.filter_nil]
  by_cases one : halfword value 1 = 0 <;> by_cases two : halfword value 2 = 0 <;> by_cases three :
    halfword value 3 = 0 <;>
    simp [one,two,three]

theorem skipIs (target : UInt64) :
    skipBytes target - insnSize = codeSize emittedSize (absBranch target) := by
  rw [absBranch,codeSizeAppend,movesSize,skipBytes]
  simp only [codeSize,emittedSize]
  omega

theorem invertedBit {w mask : UInt32} {target : UInt64} {width : Nat}
    (is : mask.toNat = 2^width - 1) (low : width ≤ 19)
    (fits : skipBytes target / insnSize < 2^width) (i : Nat) :
    (invertBranch w mask target).toNat.testBit i =
      if 5 ≤ i ∧ i < 5 + width then (skipBytes target / insnSize).testBit (i - 5)
      else if i = 24 then !w.toNat.testBit i else w.toNat.testBit i := by
  have small : skipBytes target / insnSize < 2^32 :=
    fits.trans_le (Nat.pow_le_pow_right (by decide) (by omega))
  have maskBit : ∀ k, mask.toBitVec.getLsbD k = decide (k < width) := fun k => by
    rw [← BitVec.testBit_toNat]
    exact (congrArg (Nat.testBit · k) is).trans (Nat.testBit_two_pow_sub_one width k)
  have skipBit : ∀ k, ((skipBytes target / insnSize).toUInt32).toBitVec.getLsbD k =
      (skipBytes target / insnSize).testBit k := fun k => by
    rw [← BitVec.testBit_toNat,UInt32.toNat_toBitVec]
    congr 1
    exact Nat.mod_eq_of_lt small
  have wordBit : w.toNat.testBit i = w.toBitVec.getLsbD i := rfl
  have shifted : ∀ x : UInt32, (x <<< 5).toBitVec.getLsbD i =
      (decide (i < 32) && !decide (i < 5) && x.toBitVec.getLsbD (i - 5)) := fun x => by
    rw [UInt32.toBitVec_shiftLeft]
    exact BitVec.getLsbD_shiftLeft x.toBitVec 5
  have oneBit : ((1 : UInt32) <<< 24).toBitVec.getLsbD i = decide (i = 24) := by
    rw [UInt32.toBitVec_shiftLeft]
    refine (BitVec.getLsbD_shiftLeft (1 : UInt32).toBitVec 24).trans ?_
    rw [show (1 : UInt32).toBitVec.getLsbD (i - 24) =
      decide (i - 24 = 0) from BitVec.getLsbD_one.trans (by simp)]
    by_cases here : i = 24
    · subst here; rfl
    · simp only [here,decide_false]
      by_cases below : i < 24
      · simp [below]
      · have above : ¬ i - 24 = 0 := by omega
        simp [above]
  rw [wordBit,show (invertBranch w mask target).toNat.testBit i =
    (invertBranch w mask target).toBitVec.getLsbD i from rfl]
  simp only [invertBranch,UInt32.toBitVec_or,UInt32.toBitVec_and,UInt32.toBitVec_not,
    UInt32.toBitVec_xor,BitVec.getLsbD_or,
    BitVec.getLsbD_and,BitVec.getLsbD_xor,BitVec.getLsbD_not,oneBit,shifted,maskBit,skipBit]
  by_cases inside : 5 ≤ i ∧ i < 5 + width
  · rw [if_pos inside]
    have word : i < 32 := by omega
    have behind : ¬ i < 5 := by omega
    have within : i - 5 < width := by omega
    simp [word,behind,within]
  · rw [if_neg inside]
    have noSkip : (decide (i < 32) && !decide (i < 5) &&
        (skipBytes target / insnSize).testBit (i - 5)) = false := by
      by_cases below : i < 5
      · simp [below]
      · have high : (skipBytes target / insnSize).testBit (i - 5) = false :=
          Nat.testBit_lt_two_pow (fits.trans_le (Nat.pow_le_pow_right (by decide) (by omega)))
        simp [high]
    have noMask : (decide (i < 32) && !decide (i < 5) && decide (i - 5 < width)) = false := by
      by_cases below : i < 5
      · simp [below]
      · have out : ¬ i - 5 < width := by omega
        simp [out]
    rw [noSkip,noMask,Bool.or_false,Bool.not_false,Bool.and_true]
    by_cases word : i < 32
    · by_cases here : i = 24
      · simp [here]
      · simp [here,word]
    · have beyond : w.toBitVec.getLsbD i = false := BitVec.getLsbD_of_ge _ _ (by omega)
      have other : i ≠ 24 := by omega
      simp [word,beyond,other]

section Inverted
variable {E : Type} {w mask : UInt32} {target : UInt64} {width : Nat}

theorem fieldSame (is : mask.toNat = 2^width - 1) (low : width ≤ 19)
    (fits : skipBytes target / insnSize < 2^width) {start len : Nat}
    (apart : start + len ≤ 5 ∨ 5 + width ≤ start) (form : start + len ≤ 24 ∨ 24 < start) :
    (invertBranch w mask target).toNat / 2^start % 2^len = w.toNat / 2^start % 2^len := by
  refine Nat.eq_of_testBit_eq fun i => ?_
  simp only [Nat.testBit_mod_two_pow,Nat.testBit_div_two_pow]
  by_cases inside : i < len
  · rw [invertedBit is low fits,if_neg (by omega),if_neg (by omega)]
  · simp [inside]

theorem offsetField (is : mask.toNat = 2^width - 1) (low : width ≤ 19)
    (fits : skipBytes target / insnSize < 2^width) :
    (invertBranch w mask target).toNat / 2^5 % 2^width = skipBytes target / insnSize := by
  refine Nat.eq_of_testBit_eq fun i => ?_
  simp only [Nat.testBit_mod_two_pow,Nat.testBit_div_two_pow]
  by_cases inside : i < width
  · rw [invertedBit is low fits,if_pos (by omega)]
    simp [inside]
  · have high : (skipBytes target / insnSize).testBit i = false :=
      Nat.testBit_lt_two_pow (fits.trans_le (Nat.pow_le_pow_right (by decide) (by omega)))
    simp [inside,high]

theorem registerField (w : UInt32) : register w = w.toNat / 2^0 % 2^5 := by
  rw [register,UInt32.toNat_and,Nat.pow_zero,Nat.div_one]
  exact Nat.and_two_pow_sub_one_eq_mod w.toNat 5

theorem skipFew (target : UInt64) : skipBytes target / insnSize < 2^14 ∧
    skipBytes target / insnSize * insnSize = skipBytes target := by
  have few := List.length_filter_le (fun hw => hw != 0 && halfword target hw != 0) (List.range 4)
  rw [List.length_range] at few
  simp only [skipBytes,movAbsSize,insnSize]
  omega

theorem compareSkip (w : UInt32) (target : UInt64) :
    compareOffset (invertBranch w 0x7ffff target) = skipBytes target := by
  obtain ⟨small,exact_⟩ := skipFew target
  rw [compareOffset,offsetField rfl (by decide) (small.trans (by decide)),exact_]

theorem bitSkip (w : UInt32) (target : UInt64) :
    bitOffset (invertBranch w 0x3fff target) = skipBytes target := by
  obtain ⟨fits,exact_⟩ := skipFew target
  rw [bitOffset,offsetField rfl (by decide) fits,exact_]

theorem compareInverted (w : UInt32) (target : UInt64) (s : State E) :
    compareHolds (invertBranch w 0x7ffff target) s = !compareHolds w s := by
  have is : (0x7ffff : UInt32).toNat = 2^19 - 1 := rfl
  have fits : skipBytes target / insnSize < 2^19 := (skipFew target).1.trans (by decide)
  have bit := @invertedBit w 0x7ffff target 19 is (by decide) fits
  have same : register (invertBranch w 0x7ffff target) = register w := by
    rw [registerField,registerField,fieldSame is (by decide) fits (by decide) (by decide)]
  simp only [compareHolds,same,bit 31,bit 24]
  simp

theorem bitInverted (w : UInt32) (target : UInt64) (s : State E) :
    bitHolds (invertBranch w 0x3fff target) s = !bitHolds w s := by
  have fits := (skipFew target).1
  have is : (0x3fff : UInt32).toNat = 2^14 - 1 := rfl
  have bit := @invertedBit w 0x3fff target 14 is (by decide) fits
  have same : register (invertBranch w 0x3fff target) = register w := by
    rw [registerField,registerField,fieldSame is (by decide) fits (by decide) (by decide)]
  have number : (invertBranch w 0x3fff target).toNat / 2^19 % 2^5 = w.toNat / 2^19 % 2^5 :=
    fieldSame is (by decide) fits (by decide) (by decide)
  simp only [bitHolds,same,number,bit 31,bit 24]
  simp

end Inverted

theorem condInverted (f : Flags) {code : Nat} (low : code < 14) :
    holds f (code ^^^ 1) = !holds f code := by
  have all : ∀ n z c v : Bool, ∀ code < 14, holds ⟨n,z,c,v⟩ (code ^^^ 1) = !holds ⟨n,z,c,v⟩ code :=
    by decide
  exact all f.n f.z f.c f.v code low

section Runs
variable {isa : Isa E} {a target : UInt64} {s : State E} {back : Exit E → Option (State E)}
    {fall : UInt64 → Nat → State E → Option (List (Exit E))}

theorem setSame {r : Nat} (low : r < 31) (v : UInt64) : (s.set r v).get r = v := by
  simp [State.get,State.set,low]

theorem absBranchRun : walk emittedSize (step isa) back fall a 0 (absBranch target) s =
    handedOn back ⟨.jump,target,s.set 16 target⟩
      (fall (a + UInt64.ofNat (codeSize emittedSize (absBranch target))) 0) := by
  rw [absBranch,walkAppend,movesRun,codeSizeAppend,UInt64.ofNat_add,← UInt64.add_assoc,
    walkLeave rfl,setSame (by decide)]
  simp only [walkNil]
  rfl

def Test.real : Test → Prop
  | .always => False
  | .cond code => code < 14
  | _ => True

theorem skipStep {test : Test} (real : test.real) : ∃ e, skipUnless target test = [e] ∧
    emittedSize e = insnSize ∧
    ∀ a, step isa a e s = .next (if test.holds s then 0 else skipBytes target - insnSize,s) := by
  cases test with
  | always => exact absurd real id
  | cond code =>
    refine ⟨_,rfl,rfl,fun a => ?_⟩
    cases held : holds s.flags code <;> simp [step,Test.holds,condInverted s.flags real,held]
  | compare w =>
    refine ⟨_,rfl,rfl,fun a => ?_⟩
    cases held : compareHolds w s <;> simp [step,Test.holds,compareInverted,compareSkip,held]
  | bit w =>
    refine ⟨_,rfl,rfl,fun a => ?_⟩
    cases held : bitHolds w s <;> simp [step,Test.holds,bitInverted,bitSkip,held]

theorem elimBranch {found : Option UInt64} {test test' : Test}
    (is : found.elim .plain (.branch test') = Role.branch test target) :
    test' = test := by
  cases found with
  | none => cases is
  | some t => exact (Role.branch.inj is).1

def Test.readFrom (insn : Insn) : Test → Prop
  | .always => True
  | .cond code => code < 14
  | .compare w => (insn.id = .cbz ∨ insn.id = .cbnz) ∧ w = readU32 insn.bytes
  | .bit w => (insn.id = .tbz ∨ insn.id = .tbnz) ∧ w = readU32 insn.bytes

theorem testRead {insn : Insn} {test : Test} (is : role insn = .branch test target) :
    test.readFrom insn := by
  unfold role at is
  cases id : insn.id with
  | adr | adrp => simp only [id] at is; cases found : branchTarget insn 1 <;> simp [found] at is
  | bl => simp only [id] at is; cases found : branchTarget insn 0 <;> simp [found] at is
  | b =>
    simp only [id] at is
    rw [← elimBranch is]
    split
    · next cond => exact show insn.cc - 1 < 14 by omega
    · trivial
  | cbnz | cbz | tbnz | tbz =>
    simp only [id] at is
    rw [← elimBranch is]
    simp [Test.readFrom,id]
  | _ => simp [id] at is

theorem testReal {insn : Insn} {test : Test} (is : role insn = .branch test target) :
    test = .always ∨ test.real := by
  have read := testRead is
  cases test with
  | always => exact .inl rfl
  | cond code => exact .inr read
  | compare w => exact .inr trivial
  | bit w => exact .inr trivial

theorem branchRun {test : Test} (real : test = .always ∨ test.real) :
    walk emittedSize (step isa) back fall a 0 (skipUnless target test ++ absBranch target) s =
      if test.holds s then
        handedOn back ⟨.jump,target,s.set 16 target⟩
          (fall (a + UInt64.ofNat
          (codeSize emittedSize (skipUnless target test ++ absBranch target))) 0)
      else fall (a + UInt64.ofNat
        (codeSize emittedSize (skipUnless target test ++ absBranch target))) 0 s := by
  rcases real with rfl | real
  · exact absBranchRun
  · obtain ⟨e,is,word,steps⟩ := @skipStep E isa target s test real
    rw [is,List.singleton_append,walkNext (steps a)]
    by_cases taken : test.holds s = true
    · rw [if_pos taken,if_pos taken,absBranchRun,addressAfter]
    · have positive : ∀ e ∈ absBranch target, 0 < emittedSize e := by
        intro e member
        simp only [absBranch,moves,List.mem_append,List.mem_map,List.mem_singleton] at member
        rcases member with ⟨hw,_,rfl⟩ | rfl
        · split <;> simp [emittedSize,insnSize]
        · decide
      rw [if_neg taken,if_neg taken,skipIs,walkOver positive,addressAfter]

theorem follows (isa : Isa E) (back : Exit E → Option (State E)) (insn : Insn) :
    Follows emittedSize (step isa) expand (moved isa) back (fun _ s => s) insn := by
  intro fall a s
  unfold moved expand
  split
  · exact movesRun
  · next target is =>
    rw [walkAppend,movesRun,codeSizeAppend,UInt64.ofNat_add,← UInt64.add_assoc,movesSize,
      walkLeave rfl,setSame (by decide)]
    simp only [walkNil]
    rfl
  · next test target is =>
    rw [branchRun (testReal is)]
    split <;> rfl
  · cases outcome : isa.exec { insn with address := a } s with
    | next s' => rw [walkNext (by simp only [step,outcome]; rfl),walkNil]; rfl
    | leave e => rw [walkLeave (by simp only [step,outcome]; rfl)]; simp only [walkNil]; rfl

theorem standsFor (isa : Isa E) (insn : Insn) :
    Stands emittedSize (step isa) (fun _ _ => none) expand (moved isa) insn :=
  followsStands (follows isa (fun _ => none) insn)

end Runs

/- Where both arrive and with what; a function that is called finds its return address in
x30. -/
structure Same (e e' : Exit E) : Prop where
  way : e'.way = e.way
  target : e'.target = e.target
  reg : ∀ i, ¬ (e.way = .call ∧ i.val = 30) → e'.state.reg i = e.state.reg i
  sp : e'.state.sp = e.state.sp
  flags : e'.state.flags = e.state.flags
  rest : e'.state.rest = e.state.rest
  mem : e'.state.mem = e.state.mem

theorem sameRefl (e : Exit E) : Same e e := ⟨rfl,rfl,fun _ _ => rfl,rfl,rfl,rfl,rfl⟩

/- What the processor does with an instruction that names no address does not depend on where
it is, a return address apart. -/
def Isa.Lawful (isa : Isa E) : Prop := ∀ insn a s, copyable insn = true →
  (isa.exec insn s).Alike Same (isa.exec { insn with address := a } s)

/- An instruction that leaves the prologue and is rewritten finds its target in x16. -/
def Kept (isa : Isa E) (insn : Insn) (s : State E) : Prop :=
  ∀ e, meaning isa insn s = .leave e → role insn ≠ .plain → s.get 16 = e.target

section Compare
variable {isa : Isa E} {a target : UInt64} {insn : Insn} {s : State E}

theorem setReg {r : Nat} {v : UInt64} {i : Fin 31}
    (other : i.val ≠ r) : (s.set r v).reg i = s.reg i := by simp [State.set,other]

theorem getReg (i : Fin 31) : s.get i.val = s.reg i := by simp [State.get]

theorem setHeld {r : Nat} (held : s.get r = target) : (s.set r target).reg = s.reg := by
  funext i
  by_cases same : i.val = r
  · rw [← getReg,same,setSame (same ▸ i.isLt),← held,← same,getReg]
  · exact setReg same

theorem jumpSame : Same ⟨.jump,target,s⟩ ⟨.jump,target,s.set 16 target⟩ ↔ s.get 16 = target := by
  constructor
  · intro same
    have here := same.reg ⟨16,by decide⟩ (by simp)
    simpa [State.set,State.get] using here.symm
  · exact fun held => ⟨rfl,rfl,fun i _ => congrFun (setHeld held) i,rfl,rfl,rfl,rfl⟩

theorem callSame {ret ret' : UInt64} :
    Same ⟨.call,target,s.set 30 ret⟩ ⟨.call,target,(s.set 16 target).set 30 ret'⟩ ↔
      s.get 16 = target := by
  constructor
  · intro same
    have here := same.reg ⟨16,by decide⟩ (by simp)
    simpa [State.set,State.get] using here.symm
  · refine fun held => ⟨rfl,rfl,fun i other => ?_,rfl,rfl,rfl,rfl⟩
    have away : i.val ≠ 30 := fun bad => other ⟨rfl,bad⟩
    rw [setReg away,setReg away]
    exact congrFun (setHeld held) i

theorem alikeKept (lawful : isa.Lawful) (accepted : Accepted insn) :
    (meaning isa insn s).Alike Same (moved isa a insn s) ↔ Kept isa insn s := by
  cases is : role insn with
  | address rd target =>
    have there : meaning isa insn s = .next (s.set rd target) := by simp only [meaning,is]
    have here : moved isa a insn s = .next (s.set rd target) := by simp only [moved,is]
    refine ⟨fun _ e bad => ?_,fun _ => ?_⟩
    · rw [there] at bad; cases bad
    · rw [there,here]; exact .next
  | call target =>
    have there : meaning isa insn s = .leave ⟨.call,target,s.set 30 (insn.address + 4)⟩ := by
      simp only [meaning,is]
    have here : moved isa a insn s =
        .leave ⟨.call,target,(s.set 16 target).set 30 (a + UInt64.ofNat (movAbsSize target) + 4)⟩ :=
          by simp only [moved,is]
    rw [there,here,alikeLeave,callSame]
    refine ⟨fun held e leaves _ => ?_,fun kept => kept _ there (by simp [is])⟩
    rw [there] at leaves
    cases leaves
    exact held
  | branch test target =>
    by_cases taken : test.holds s = true
    · have there : meaning isa insn s = .leave ⟨.jump,target,s⟩ := by
        simp only [meaning,is,if_pos taken]
      have here : moved isa a insn s = .leave ⟨.jump,target,s.set 16 target⟩ := by
        simp only [moved,is,if_pos taken]
      rw [there,here,alikeLeave,jumpSame]
      refine ⟨fun held e leaves _ => ?_,fun kept => kept _ there (by simp [is])⟩
      rw [there] at leaves
      cases leaves
      exact held
    · have there : meaning isa insn s = .next s := by simp only [meaning,is,if_neg taken]
      have here : moved isa a insn s = .next s := by simp only [moved,is,if_neg taken]
      refine ⟨fun _ e bad => ?_,fun _ => ?_⟩
      · rw [there] at bad; cases bad
      · rw [there,here]; exact .next
  | plain =>
    have alike := lawful insn a s (accepted.plain is)
    refine ⟨fun _ e _ bad => absurd is bad,fun _ => ?_⟩
    simp only [meaning,moved,is]
    exact alike

theorem movedLeaves {e : Exit E} (lawful : isa.Lawful) (accepted : Accepted insn)
    (there : meaning isa insn s = .leave e) :
    ∃ e', moved isa a insn s = .leave e' := by
  cases is : role insn with
  | address rd target => simp only [meaning,is] at there; cases there
  | call target => simp only [moved,is]; exact ⟨_,rfl⟩
  | branch test target =>
    by_cases taken : test.holds s = true
    · simp only [moved,is,if_pos taken]; exact ⟨_,rfl⟩
    · simp only [meaning,is,if_neg taken] at there; cases there
  | plain =>
    have alike := lawful insn a s (accepted.plain is)
    simp only [meaning,is] at there
    rw [there] at alike
    simp only [moved,is]
    exact alikeLeaves alike

end Compare

def Transparent (isa : Isa E) (start a continueAddr : UInt64) (insns : List Insn)
    (s : State E) : Prop :=
  ExitsAlike Same (original isa start insns s) (replayed isa a (relocated insns continueAddr) s)

/- Every instruction that the prologue comes to from this state is kept, and at its end the
address behind it is in x16. -/
def Keeps (isa : Isa E) (a continueAddr : UInt64) (insns : List Insn) (s : State E) : Prop :=
  Along (meaning isa) emittedSize expand (fun _ => Kept isa) (fun s => s.get 16 = continueAddr) a
    insns s

theorem transparentIff {isa : Isa E} {start a continueAddr : UInt64} {insns : List Insn}
    {s : State E} (lawful : isa.Lawful)
    (accepted : ∀ insn ∈ insns, Accepted insn)
    (whole : start + UInt64.ofNat (codeSize size insns) = continueAddr) :
    Transparent isa start a continueAddr insns s ↔ Keeps isa a continueAddr insns s := by
  have ends : ∀ b (s : State E),
      execute emittedSize (step isa) (fun _ _ => none) b 0 (absBranch continueAddr) s =
      some ⟨.jump,continueAddr,s.set 16 continueAddr⟩ := fun b s => by
    rw [executeWalk,absBranchRun]
    rfl
  constructor
  · refine alongAlike (standsFor isa) (placedAll accepted)
      (fun b insn s ok => (alikeKept lawful ok).mp) (fun b insn s s' ok there => ?_)
      (fun b insn s e ok => movedLeaves lawful ok) (fun b s same => ?_)
    · have alike := (@alikeKept E isa b insn s lawful ok).mpr fun e bad => by
        rw [there] at bad; cases bad
      rw [there] at alike
      exact alikeNext alike
    · rw [whole,ends] at same
      obtain ⟨x,y,first,second,agree⟩ := same
      cases Option.some.inj first
      cases Option.some.inj second
      exact jumpSame.mp agree
  · refine alikeAlong (standsFor isa) (placedAll accepted)
      (fun b insn s ok kept => (alikeKept lawful ok).mpr kept) fun b s held => ?_
    rw [whole,ends]
    exact ⟨_,_,rfl,rfl,jumpSame.mpr held⟩

end ZeroTrace.Arm64Replay
