import ZeroTrace.X86Replay

/-! A whole x86_64 trampoline and where it hands control on: to the entry stub through the
word behind the code, to wherever the prologue's own branches go, and at the end back into
the function. -/
namespace ZeroTrace.X86Flow
open PatchCode CodeBuffer CodeListing ProbeTable X86Trampoline X86Replay

inductive Op where
  | pushImm (v : UInt64)
  | callMem (disp : UInt64)
  | leaRsp
  | body (e : Emitted)
  | jmpMem (disp : UInt64)
  | word (v : UInt64)

def opBytes (a : UInt64) : Op → Bytes
  | .pushImm v => [0x68] ++ leBytes 4 v
  | .callMem disp => [0xFF,0x15] ++ leBytes 4 disp
  | .leaRsp => [0x48,0x8D,0x64,0x24,0x08]
  | .body e => encode a e
  | .jmpMem disp => [0xFF,0x25] ++ leBytes 4 disp
  | .word v => leBytes 8 v

def opSize : Op → Nat
  | .pushImm _ => 5
  | .callMem _ => 6
  | .leaRsp => 5
  | .body e => emittedSize e
  | .jmpMem _ => 6
  | .word _ => 8

def opsBytes : UInt64 → List Op → Bytes
  | _,[] => []
  | a,op::l => opBytes a op ++ opsBytes (a + UInt64.ofNat (opSize op)) l

def condOf : UInt8 → Option Cond
  | 0x70 => some .o
  | 0x71 => some .no
  | 0x72 => some .b
  | 0x73 => some .ae
  | 0x74 => some .e
  | 0x75 => some .ne
  | 0x76 => some .be
  | 0x77 => some .a
  | 0x78 => some .s
  | 0x79 => some .ns
  | 0x7A => some .p
  | 0x7B => some .np
  | 0x7C => some .l
  | 0x7D => some .ge
  | 0x7E => some .le
  | 0x7F => some .g
  | _ => none

/- What the processor takes these bytes for. An immediate or a displacement of four bytes is
widened with its sign. -/
def reads (bytes : Bytes) : Option Op := match bytes with
  | 0x68::imm => if imm.length = 4 then some (.pushImm (signExtend (leValue imm))) else none
  | 0xFF::0x15::disp =>
      if disp.length = 4 then some (.callMem (signExtend (leValue disp))) else none
  | 0xFF::0x25::disp => if disp.length = 4 then some (.jmpMem (signExtend (leValue disp))) else none
  | 0x49::0xBB::imm =>
      if imm.length = 8 then some (.body (.movabsR11 (UInt64.ofNat (leValue imm)))) else none
  | [0x48,0x8D,0x64,0x24,0x08] => some .leaRsp
  | [0x41,0x53] => some (.body .pushR11)
  | [0x41,0x5B] => some (.body .popR11)
  | [0x41,0xFF,0xD3] => some (.body .callR11)
  | [0x41,0xFF,0xE3] => some (.body .jmpR11)
  | [opcode,disp] => if disp < 0x80 then (condOf opcode).map fun c =>
      .body (.jccShort c disp.toNat) else none
  | _ => none

/- The bytes of an instruction that the builder writes itself mean that instruction. -/
def Spelt (a : UInt64) : Op → Prop
  | .body (.copied _) => True
  | .word _ => True
  | op => reads (opBytes a op) = some op

/- Eight bytes of the trampoline. Nothing writes to it while it runs. -/
def wordAt (base : UInt64) (code : Bytes) (x : UInt64) : UInt64 :=
  UInt64.ofNat (leValue ((code.drop (x - base).toNat).take 8))

variable {E : Type}

def opStep (isa : Isa E) (load : UInt64 → UInt64) (a : UInt64) (op : Op) (s : State E) :
    Outcome (Nat × State E) (Exit E) := match op with
  | .pushImm v => .next (0,s.push v)
  | .callMem disp => .leave ⟨.call,load (a + 6 + disp),s.push (a + 6)⟩
  | .leaRsp => .next (0,s.set .rsp (s.reg .rsp + 8))
  | .body e => step isa a e s
  | .jmpMem disp => .leave ⟨.jump,load (a + 6 + disp),s⟩
  | .word _ => .leave ⟨.fault,a,s⟩

def bodySize (insns : List Insn) : Nat := codeSize emittedSize (listing expand insns)

def trampoline (probeId : Nat) (insns : List Insn)
    (entryStubAddr continueAddr : UInt64) : List Op :=
  [.pushImm (UInt64.ofNat probeId),.callMem (UInt64.ofNat (bodySize insns + 11)),.leaRsp] ++
    ((listing expand insns).map .body ++
    [.jmpMem 8,.word entryStubAddr,.word continueAddr])

def comesBack (callee : Exit E → Option (State E)) (e : Exit E) : Option (State E) :=
  if e.way = .call then callee e else none

theorem opsBytesAppend (a : UInt64) (l l' : List Op) :
    opsBytes a (l ++ l') = opsBytes a l ++ opsBytes (a + UInt64.ofNat (codeSize opSize l)) l' := by
  induction l generalizing a with
  | nil => rw [addressHere]; rfl
  | cons op l ih => rw [List.cons_append,opsBytes,opsBytes,ih,addressAfter,List.append_assoc]

theorem bodyBytes (a : UInt64) (l : List Emitted) : opsBytes a (l.map .body) = codeBytes a l := by
  induction l generalizing a with
  | nil => rfl
  | cons e l ih => rw [List.map_cons,opsBytes,ih]; rfl

theorem bodyOps (l : List Emitted) : codeSize opSize (l.map .body) = codeSize emittedSize l := by
  induction l with
  | nil => rfl
  | cons e l ih => rw [List.map_cons,codeSize,ih]; rfl

theorem trampolineBytes (a : UInt64) (probeId : Nat) (insns : List Insn)
    (entryStubAddr continueAddr : UInt64) :
    opsBytes a (trampoline probeId insns entryStubAddr continueAddr) =
      callsStub probeId (bodySize insns) ++
      (codeBytes (a + 16) (listing expand insns) ++ jumpsBack entryStubAddr continueAddr) := by
  have front : a + UInt64.ofNat
      (codeSize opSize [.pushImm (UInt64.ofNat probeId),
      .callMem (UInt64.ofNat (bodySize insns + 11)),.leaRsp]) = a + 16 := rfl
  rw [trampoline,opsBytesAppend,front,opsBytesAppend,bodyBytes]
  simp [opsBytes,opBytes,callsStub,jumpsBack]

def insnsOf (decode : Decoder) (p : Probe) : List Insn :=
  decode (p.origCode.take p.origLen) (UInt64.ofNat p.target.remoteAddr)

theorem relocatedBytes {decode : Decoder} {p codeAddr room out}
    (ok : emitRelocatedOrigCode decode p codeAddr room = some out) :
    out = codeBytes codeAddr (listing expand (insnsOf decode p)) ∧
      out.length = bodySize (insnsOf decode p) := by
  unfold emitRelocatedOrigCode at ok
  split at ok
  · cases ok
  · have same := insnsBytes ok
    rw [List.nil_append,List.length_nil,
      show codeAddr + UInt64.ofNat 0 = codeAddr from UInt64.add_zero _] at same
    exact ⟨same,by rw [same,codeBytesLength]; rfl⟩

theorem builtOps {decode : Decoder} {p entryStubAddr trampolineAddr room out}
    (ok : buildTrampoline decode p entryStubAddr trampolineAddr room = some out) :
    out = opsBytes trampolineAddr
      (trampoline p.probeId (insnsOf decode p) entryStubAddr
      (UInt64.ofNat (p.target.remoteAddr + p.origLen))) := by
  obtain ⟨code,emitted,_,_,rfl⟩ := built ok
  obtain ⟨same,size⟩ := relocatedBytes emitted
  rw [trampolineBytes,← same,size,List.append_assoc]

/-! The instructions that the builder writes. -/
theorem imm32 {n : Nat} (fits : n < 2^31) :
    signExtend (leValue (leBytes 4 (UInt64.ofNat n))) = UInt64.ofNat n := by
  refine signExtendBytes (.inl ?_)
  rw [UInt64.toNat_ofNat']
  omega

theorem readsPush (imm : Bytes) : reads (0x68::imm) = if imm.length = 4 then
    some (.pushImm (signExtend (leValue imm))) else none := rfl

theorem readsCall (disp : Bytes) : reads (0xFF::0x15::disp) = if disp.length = 4 then
    some (.callMem (signExtend (leValue disp))) else none := rfl

theorem readsMovabs (imm : Bytes) :
    reads (0x49::0xBB::imm) = if imm.length = 8 then
      some (.body (.movabsR11 (UInt64.ofNat (leValue imm)))) else none := rfl

theorem expandSpelt {insn : Insn} {e : Emitted} (member : e ∈ expand insn)
    (a : UInt64) : Spelt a (.body e) := by
  have target : ∀ v, reads (opBytes a (.body (.movabsR11 v))) = some (.body (.movabsR11 v)) :=
    fun v => by
    refine (readsMovabs (leBytes 8 v)).trans ?_
    rw [if_pos (leBytesLength 8 v),leValueWord]
  have skip : ∀ c, reads (opBytes a (.body (.jccShort (inverse c) 13))) =
      some (.body (.jccShort (inverse c) 13)) := fun c => by
    cases c <;> rfl
  unfold expand at member
  split at member <;> simp only [List.mem_cons,List.not_mem_nil,or_false] at member
  · rcases member with rfl | rfl | rfl | rfl
    · rfl
    · exact target _
    · rfl
    · rfl
  · rcases member with rfl | rfl
    · exact target _
    · rfl
  · rcases member with rfl | rfl | rfl
    · exact skip _
    · exact target _
    · rfl
  · subst member
    trivial

theorem trampolineSpelt {probeId : Nat} {insns : List Insn} {entryStubAddr continueAddr : UInt64}
    (id : probeId < 2^31)
    (short : bodySize insns + 11 < 2^31) {op : Op}
    (member : op ∈ trampoline probeId insns entryStubAddr continueAddr) (a : UInt64) :
    Spelt a op := by
  simp only [trampoline,List.mem_append,List.mem_cons,List.mem_map,List.not_mem_nil,
    or_false] at member
  rcases member with (rfl | rfl | rfl) | ⟨e,inside,rfl⟩ | rfl | rfl | rfl
  · refine (readsPush (leBytes 4 (UInt64.ofNat probeId))).trans ?_
    rw [if_pos (leBytesLength 4 _),imm32 id]
  · refine (readsCall (leBytes 4 (UInt64.ofNat (bodySize insns + 11)))).trans ?_
    rw [if_pos (leBytesLength 4 _),imm32 short]
  · rfl
  · obtain ⟨insn,_,found⟩ := listingMember inside
    exact expandSpelt found a
  · rfl
  · trivial
  · trivial

theorem wordFound {base : UInt64} {code : Bytes} {v : UInt64} {k : Nat} (front back : Bytes)
    (whole : code = front ++ (leBytes 8 v ++ back))
    (here : front.length = k) (small : k < 2^64) : wordAt base code (base + UInt64.ofNat k) =
      v := by
  have offset : (base + UInt64.ofNat k - base).toNat = k := by
    rw [UInt64.add_comm,UInt64.add_sub_cancel,UInt64.toNat_ofNat',Nat.mod_eq_of_lt small]
  have field : (code.drop k).take 8 = leBytes 8 v := by
    rw [whole,← here,List.drop_left,List.take_append_of_le_length (by simp [leBytesLength]),
      List.take_of_length_le (by simp [leBytesLength])]
  rw [wordAt,offset,field,leValueWord]

theorem slotPlaces {a : UInt64} {n : Nat} :
    a + 5 + 6 + UInt64.ofNat (n + 11) = a + UInt64.ofNat (n + 22) ∧
      a + 16 + UInt64.ofNat n + 6 + 8 = a + UInt64.ofNat (n + 30) := by
  rw [UInt64.ofNat_add,UInt64.ofNat_add n 22,UInt64.ofNat_add n 30]
  refine ⟨?_,?_⟩ <;> grind

theorem opPlaces {a v disp : UInt64} : a + UInt64.ofNat (opSize (.pushImm v)) = a + 5 ∧
    a + 5 + UInt64.ofNat (opSize (.callMem disp)) = a + 11 ∧
    a + 11 + UInt64.ofNat (opSize .leaRsp) = a + 16 := by
  simp only [opSize]
  refine ⟨rfl,?_,?_⟩ <;> grind

section Run
variable {isa : Isa E} {callee : Exit E → Option (State E)} {load : UInt64 → UInt64}
    {a entryStubAddr continueAddr : UInt64} {insns : List Insn}

theorem bodyRun (fall : UInt64 → Nat → State E → Option (List (Exit E))) (s : State E) :
    walk opSize (opStep isa load) (comesBack callee) fall a 0 ((listing expand insns).map .body) s =
      replay emittedSize expand (moved isa) (comesBack callee) resume (fun b s => fall b 0 s) a
        insns s := by
  rw [walkMap (fun _ => rfl) (fun _ _ _ => rfl)]
  exact walkReplay fun insn _ => follows isa (comesBack callee) insn

theorem trampolineRun {probeId : Nat}
    (entry : load (a + UInt64.ofNat (bodySize insns + 22)) = entryStubAddr)
    (last : load (a + UInt64.ofNat (bodySize insns + 30)) = continueAddr) (s : State E) :
    walk opSize (opStep isa load) (comesBack callee) nowhere a 0
      (trampoline probeId insns entryStubAddr continueAddr) s =
      handedOn (comesBack callee) ⟨.call,entryStubAddr,
        (s.push (UInt64.ofNat probeId)).push (a + 11)⟩ fun s =>
        replay emittedSize expand (moved isa) (comesBack callee) resume
          (fun _ s => some [⟨.jump,continueAddr,s⟩]) (a + 16) insns
          (s.set .rsp (s.reg .rsp + 8)) := by
  obtain ⟨first,behind⟩ := @slotPlaces a (bodySize insns)
  have call : opStep isa load (a + 5) (.callMem (UInt64.ofNat (bodySize insns + 11)))
      (s.push (UInt64.ofNat probeId)) =
      .leave ⟨.call,entryStubAddr,(s.push (UInt64.ofNat probeId)).push (a + 11)⟩ := by
    simp only [opStep,first,entry]
    rw [UInt64.add_assoc a]
    rfl
  have lea : ∀ s, opStep isa load (a + 11) .leaRsp s = .next (0,s.set .rsp (s.reg .rsp + 8)) :=
    fun _ => rfl
  obtain ⟨five,eleven,sixteen⟩ :=
    @opPlaces a (UInt64.ofNat probeId) (UInt64.ofNat (bodySize insns + 11))
  rw [trampoline,List.cons_append,walkNext rfl,List.cons_append,five,walkLeave call]
  congr 1
  funext s'
  rw [List.cons_append,eleven,walkNext (lea s'),List.nil_append,sixteen,walkAppend,bodyRun]
  refine replayStop fun s => ?_
  have jump : opStep isa load (a + 16 + UInt64.ofNat (bodySize insns)) (.jmpMem 8) s =
      .leave ⟨.jump,continueAddr,s⟩ := by
    simp only [opStep,behind,last]
  rw [← bodySize,walkLeave jump]
  rfl

end Run

theorem condJmpFits {room : Nat} {buf : Bytes} {insn : Insn} {c : Cond} {target : UInt64}
    (id : insn.id = .jcc c)
    (fits : buf.length + 15 ≤ room) : (rewriteCondJmp room buf insn target).isSome = true := by
  have skip : buf.length + [shortOpcode (inverse c),(13 : UInt8)].length ≤ room := by
    simp only [List.length_cons,List.length_nil]
    omega
  have jump : (buf ++ [shortOpcode (inverse c),13]).length +
      [movabsR11,leBytes 8 target,jmpR11].flatten.length ≤ room := by
    simp [movabsR11,jmpR11,leBytesLength]
    omega
  simp only [rewriteCondJmp,id,inverseOpcode,bind,Option.bind_some,emitBytesFits skip,rewriteRelJmp,
    emitAllFits jump,Option.isSome_some]

theorem copyFits {room : Nat} {codeAddr : UInt64} {buf : Bytes} {insn : Insn}
    (fits : buf.length + insn.size ≤ room)
    (reaches : insn.operands.contains (.mem .rip) = true →
      Reaches (codeAddr + UInt64.ofNat buf.length) insn) :
    (copyInsn room codeAddr buf insn).isSome = true := by
  simp only [copyInsn,emitBytesFits fits,bind,Option.bind_some]
  split
  · next rip =>
    have near := reaches rip
    have inside : ¬ (insn.dispSize ≠ 4 ∨
        signed (rebase (codeAddr + UInt64.ofNat buf.length) insn).disp < -2^31 ∨
        2^31 - 1 < signed (rebase (codeAddr + UInt64.ofNat buf.length) insn).disp) := by
      simp only [not_or,Decidable.not_not,Int.not_lt]
      exact near
    exact congrArg Option.isSome (if_neg inside)
  · rfl

theorem insnFits {room : Nat} {codeAddr : UInt64} {buf : Bytes} {insn : Insn}
    (accepted : Accepted (codeAddr + UInt64.ofNat buf.length) insn)
    (fits : buf.length + codeSize emittedSize (expand insn) ≤ room) :
    (emitRelocatedInsn room codeAddr buf insn).isSome = true := by
  unfold emitRelocatedInsn
  split
  · next call =>
    obtain ⟨target,id,operand⟩ := relCallIs call
    simp only [expand,id,operand,codeSize,emittedSize] at fits
    have length : buf.length + [pushR11,movabsR11,leBytes 8 target,callR11,popR11].flatten.length ≤
        room := by
      simp [pushR11,movabsR11,callR11,popR11,leBytesLength]
      omega
    simp only [operand,bind,Option.bind_some,rewriteRelCall,emitAllFits length,Option.isSome_some]
  · next call =>
    split
    · next jmp =>
      obtain ⟨target,id,operand⟩ := relJmpIs jmp
      simp only [expand,id,operand,codeSize,emittedSize] at fits
      have length : buf.length + [movabsR11,leBytes 8 target,jmpR11].flatten.length ≤ room := by
        simp [movabsR11,jmpR11,leBytesLength]
        omega
      simp only [operand,bind,Option.bind_some,rewriteRelJmp,emitAllFits length,Option.isSome_some]
    · next jmp =>
      split
      · next jcc =>
        obtain ⟨c,target,id,operand⟩ := accepted.jump jcc
        simp only [expand,id,operand,codeSize,emittedSize] at fits
        simp only [operand,bind,Option.bind_some]
        exact condJmpFits id fits
      · next jcc =>
        have copied := expandCopied call jmp jcc
        rw [copied] at fits
        exact copyFits fits (accepted.reaches copied)

theorem insnRoom {room codeAddr buf insn out}
    (ok : emitRelocatedInsn room codeAddr buf insn = some out) : out.length ≤ room := by
  unfold emitRelocatedInsn at ok
  split at ok
  · obtain ⟨target,_,ok⟩ := Option.bind_eq_some_iff.mp ok
    exact emitAllRoom ok (by simp)
  · split at ok
    · obtain ⟨target,_,ok⟩ := Option.bind_eq_some_iff.mp ok
      exact emitAllRoom ok (by simp)
    · split at ok
      · obtain ⟨target,_,ok⟩ := Option.bind_eq_some_iff.mp ok
        simp only [rewriteCondJmp,bind,Option.bind_eq_some_iff] at ok
        obtain ⟨_,_,_,_,jump⟩ := ok
        exact emitAllRoom jump (by simp)
      · have length : out.length = buf.length + insn.bytes.length := copyLength ok
        simp only [copyInsn,bind,Option.bind_eq_some_iff] at ok
        obtain ⟨next,copied,_⟩ := ok
        have inside := emitBytesRoom copied
        rw [emitBytesSome copied,List.length_append] at inside
        omega

theorem insnsFits {room : Nat} {codeAddr : UInt64} {buf : Bytes} {insns : List Insn}
    (placed : Placed emittedSize expand Accepted (codeAddr + UInt64.ofNat buf.length) insns)
    (fits : buf.length + bodySize insns ≤ room) :
    (emitInsns room codeAddr buf insns).isSome = true := by
  induction insns generalizing buf with
  | nil => rfl
  | cons insn insns ih =>
    have size : bodySize (insn::insns) = codeSize emittedSize (expand insn) + bodySize insns :=
      codeSizeAppend _ _
    obtain ⟨next,first⟩ := Option.isSome_iff_exists.mp (@insnFits room _ _ _ placed.1 (by omega))
    have grown : next.length = buf.length + codeSize emittedSize (expand insn) := by
      rw [insnBytes first,List.length_append,codeBytesLength]
    have rest : (emitInsns room codeAddr next insns).isSome = true := by
      refine ih ?_ (by omega)
      rw [grown,UInt64.ofNat_add,← UInt64.add_assoc]
      exact placed.2
    simp only [emitInsns,first,bind,Option.bind_some]
    exact rest

theorem insnsRoom {room codeAddr buf insns out} (ok : emitInsns room codeAddr buf insns = some out)
    (some_ : insns ≠ []) : out.length ≤ room := by
  induction insns generalizing buf with
  | nil => exact absurd rfl some_
  | cons insn insns ih =>
    obtain ⟨next,first,rest⟩ := Option.bind_eq_some_iff.mp ok
    cases insns with
    | nil =>
      rw [← Option.some.inj rest]
      exact insnRoom first
    | cons => exact ih rest (by simp)

section Built
variable {decode : Decoder} {p : Probe} {entryStubAddr trampolineAddr : UInt64} {room : Nat}

theorem relocatedSome {codeAddr : UInt64} {out : Bytes}
    (ok : emitRelocatedOrigCode decode p codeAddr room = some out) :
    insnsOf decode p ≠ [] ∧ Placed emittedSize expand Accepted codeAddr (insnsOf decode p) ∧
      out.length ≤ room := by
  unfold emitRelocatedOrigCode at ok
  split at ok
  · cases ok
  · next insns some_ =>
    have placed := insnsAccepted ok
    rw [show codeAddr + UInt64.ofNat ([] : Bytes).length = codeAddr from UInt64.add_zero _]
      at placed
    exact ⟨some_,placed,insnsRoom ok some_⟩

theorem relocatedFits {codeAddr : UInt64} (some_ : insnsOf decode p ≠ [])
    (placed : Placed emittedSize expand Accepted codeAddr (insnsOf decode p))
    (fits : bodySize (insnsOf decode p) ≤ room) :
    (emitRelocatedOrigCode decode p codeAddr room).isSome = true := by
  unfold emitRelocatedOrigCode
  split
  · next none_ => exact absurd none_ some_
  · refine insnsFits ?_ (by rw [List.length_nil,Nat.zero_add]; exact fits)
    rw [show codeAddr + UInt64.ofNat ([] : Bytes).length = codeAddr from UInt64.add_zero _]
    exact placed

theorem builtIff : (buildTrampoline decode p entryStubAddr trampolineAddr room).isSome = true ↔
    (trampolineAddr ≠ 0 ∧ entryStubAddr ≠ 0) ∧ (p.origLen ≠ 0 ∧ p.origLen ≤ probeOrigCodeMax) ∧
      insnsOf decode p ≠ [] ∧
      Placed emittedSize expand Accepted (trampolineAddr + 16) (insnsOf decode p) ∧
        bodySize (insnsOf decode p) + 38 ≤ room := by
  constructor
  · intro is
    obtain ⟨out,ok⟩ := Option.isSome_iff_exists.mp is
    unfold buildTrampoline at ok
    split at ok
    · cases ok
    · next addresses =>
      split at ok
      · cases ok
      · next length =>
        simp only [not_or,Nat.not_lt] at addresses length
        simp only [bind,Option.bind_eq_some_iff] at ok
        obtain ⟨front,pre,relocated,emitted,whole,post,_⟩ := ok
        obtain ⟨some_,placed,_⟩ := relocatedSome emitted
        have size := (relocatedBytes emitted).2
        have total := emitBytesRoom post
        rw [emitBytesSome post,emitBytesSome pre] at total
        simp only [List.length_append,overwriteLength,size,List.nil_append,trampolineTemplatePrefix,
          trampolineTemplateSuffix,List.length_cons,
          List.length_nil] at total
        exact ⟨addresses,length,some_,placed,by omega⟩
  · rintro ⟨addresses,length,some_,placed,fits⟩
    have zero : ¬ (trampolineAddr = 0 ∨ entryStubAddr = 0) := by simpa using addresses
    have long : ¬ (p.origLen = 0 ∨ probeOrigCodeMax < p.origLen) := by simpa using length
    have pre : emitBytes room [] trampolineTemplatePrefix = some trampolineTemplatePrefix :=
      emitBytesFits (by simp only [trampolineTemplatePrefix,List.length_cons,List.length_nil]; omega)
    have sixteen : (overwrite trampolineTemplatePrefix 1
        (leBytes 4 (UInt64.ofNat p.probeId))).length = 16 := by simp [trampolineTemplatePrefix]
    obtain ⟨relocated,emitted⟩ :=
      Option.isSome_iff_exists.mp (@relocatedFits decode p (room - 16) _ some_ placed (by omega))
    have size := (relocatedBytes emitted).2
    have post := @emitBytesFits room
        (overwrite trampolineTemplatePrefix 1 (leBytes 4 (UInt64.ofNat p.probeId)) ++ relocated)
        trampolineTemplateSuffix
      (by simp only [List.length_append,sixteen,size,trampolineTemplateSuffix,List.length_cons,List.length_nil]; omega)
    simp only [buildTrampoline,if_neg zero,if_neg long,bind,pre,Option.bind_some,sixteen,emitted,
      post,Option.isSome_some]

end Built

/- The address that an operand relative to the next instruction denotes, by the bytes. -/
def operandAddress (a : UInt64) (insn : Insn) (bytes : Bytes) : UInt64 :=
  a + UInt64.ofNat bytes.length + signExtend (leValue ((bytes.drop insn.dispOffset).take 4))

/- What the disassembler says about the displacement of such an operand is right. -/
def FieldRight (insn : Insn) : Prop := insn.operands.contains (.mem .rip) = true →
    insn.dispSize = 4 →
  insn.dispOffset + 4 ≤ insn.size ∧
    insn.disp = signExtend (leValue ((insn.bytes.drop insn.dispOffset).take 4))

/- The copy of an instruction that the builder does not rewrite: only the displacement of an
operand relative to the next instruction differs, and the operand is where it was. -/
structure Carried (b : UInt64) (insn : Insn) : Prop where
  plain : insn.operands.contains (.mem .rip) = false → (copyAt b insn).bytes = insn.bytes
  operand : insn.operands.contains (.mem .rip) = true →
    operandAddress b insn (copyAt b insn).bytes = operandAddress insn.address insn insn.bytes
  front : (copyAt b insn).bytes.take insn.dispOffset = insn.bytes.take insn.dispOffset
  back : (copyAt b insn).bytes.drop (insn.dispOffset + 4) = insn.bytes.drop (insn.dispOffset + 4)

theorem signedRange {v : UInt64} (low : -2^31 ≤ signed v) (high : signed v ≤ 2^31 - 1) :
    v.toNat < 2^31 ∨ 2^64 - 2^31 ≤ v.toNat := by
  have bound := v.toNat_lt
  unfold signed at low high
  split at low <;> split at high <;> omega

theorem carried {b : UInt64} {insn : Insn} (field : FieldRight insn)
    (reaches : insn.operands.contains (.mem .rip) = true → Reaches b insn) :
    Carried b insn := by
  cases rip : insn.operands.contains (.mem .rip) with
  | false =>
    have same : (copyAt b insn).bytes = insn.bytes := by
      simp only [copyAt,rip,Bool.false_eq_true,if_false]
    exact ⟨fun _ => same,fun bad => absurd (rip.symm.trans bad) (by simp),by rw [same],by rw [same]⟩
  | true =>
    obtain ⟨four,low,high⟩ := reaches rip
    obtain ⟨inside,value⟩ := field rip four
    obtain ⟨front,old,back,whole,here,width⟩ := partsOf inside
    have bytes : (copyAt b insn).bytes = front ++ (leBytes 4 (rebase b insn).disp ++ back) := by
      rw [copyAt,if_pos rip]
      exact overwriteMiddle old whole here.symm (width.trans (leBytesLength 4 _).symm)
    obtain ⟨front₀,old₀,back₀⟩ := partsBack whole here width
    obtain ⟨front₁,new₁,back₁⟩ := partsBack bytes here (leBytesLength 4 _)
    have length : (copyAt b insn).bytes.length = insn.bytes.length := by
      rw [bytes,whole]
      simp only [List.length_append,leBytesLength,width]
    refine ⟨fun bad => absurd (rip.symm.trans bad) (by simp),fun _ => ?_,front₁.trans front₀.symm,
      back₁.trans back₀.symm⟩
    rw [operandAddress,operandAddress,new₁,signExtendBytes (signedRange low high),← value,length]
    simp only [rebase,Insn.size]
    grind

/- Relative calls and jumps, the sixteen jumps on flags, and what names no other place in the
code. -/
inductive InScope (insn : Insn) : Prop where
  | call (is : isRelCall insn = true)
  | jmp (is : isRelJmp insn = true)
  | jcc {c target} (id : insn.id = .jcc c) (operand : relTarget insn.operands = some target)
  | plain (not : relative insn = false) (jump : isConditionalJump insn = false)

/- The displacement of an operand relative to the next instruction can be made to fit. -/
def Near (b : UInt64) (insn : Insn) : Prop :=
  relative insn = false → insn.operands.contains (.mem .rip) = true → Reaches b insn

theorem copiedPlain {insn : Insn} (scope : InScope insn) (copied : expand insn = [.copied insn]) :
    relative insn = false := by
  cases scope with
  | call is =>
    obtain ⟨target,id,operand⟩ := relCallIs is
    simp [expand,id,operand] at copied
  | jmp is =>
    obtain ⟨target,id,operand⟩ := relJmpIs is
    simp [expand,id,operand] at copied
  | jcc id operand => simp [expand,id,operand] at copied
  | plain not jump => exact not

theorem acceptedNear {b : UInt64} {insn : Insn} (scope : InScope insn) :
    Accepted b insn ↔ Near b insn := by
  refine ⟨fun accepted not rip => accepted.reaches (plainCopied not) rip,fun near =>
    ⟨fun jump => ?_,fun copied => near (copiedPlain scope copied)⟩⟩
  cases scope with
  | call is =>
    obtain ⟨target,id,operand⟩ := relCallIs is
    simp [isConditionalJump,id] at jump
  | jmp is =>
    obtain ⟨target,id,operand⟩ := relJmpIs is
    simp [isConditionalJump,id] at jump
  | jcc id operand => exact ⟨_,_,id,operand⟩
  | plain not other => exact absurd (other.symm.trans jump) (by simp)

section Whole
variable {decode : Decoder} {p : Probe} {entryStubAddr trampolineAddr : UInt64} {room : Nat}
    {out : Bytes}

theorem placedNear (scope : ∀ insn ∈ insnsOf decode p, InScope insn) {b : UInt64} :
    Placed emittedSize expand Accepted b (insnsOf decode p) ↔
      Placed emittedSize expand Near b (insnsOf decode p) :=
  ⟨fun placed => placedImp (fun _ _ both => (acceptedNear both.2).mp both.1)
    (placedBoth placed (placedAll scope)),
    fun placed => placedImp (fun _ _ both => (acceptedNear both.2).mpr both.1)
      (placedBoth placed (placedAll scope))⟩

theorem bodyShort (lawful : decode.Lawful)
    (ok : buildTrampoline decode p entryStubAddr trampolineAddr room = some out) :
    bodySize (insnsOf decode p) ≤ 272 := by
  obtain ⟨code,emitted,_,short,_⟩ := built ok
  have grown := relocatedLength lawful emitted
  rw [(relocatedBytes emitted).2] at grown
  simp only [probeOrigCodeMax] at short
  omega

theorem slotWords (lawful : decode.Lawful)
    (ok : buildTrampoline decode p entryStubAddr trampolineAddr room = some out) :
    wordAt trampolineAddr out (trampolineAddr + UInt64.ofNat (bodySize (insnsOf decode p) + 22)) =
      entryStubAddr ∧
      wordAt trampolineAddr out (trampolineAddr + UInt64.ofNat (bodySize (insnsOf decode p) + 30)) =
        UInt64.ofNat (p.target.remoteAddr + p.origLen) := by
  have short := bodyShort lawful ok
  have bytes := builtOps ok
  rw [trampolineBytes] at bytes
  have length := codeBytesLength (trampolineAddr + 16) (listing expand (insnsOf decode p))
  have front := callsStubLength p.probeId (bodySize (insnsOf decode p))
  refine ⟨wordFound (callsStub p.probeId (bodySize (insnsOf decode p)) ++
    (codeBytes (trampolineAddr + 16) (listing expand (insnsOf decode p)) ++
      ([0xFF,0x25] ++ leBytes 4 8))) (leBytes 8 (UInt64.ofNat (p.target.remoteAddr + p.origLen))) ?_
        ?_ (by omega),
    wordFound (callsStub p.probeId (bodySize (insnsOf decode p)) ++
      (codeBytes (trampolineAddr + 16) (listing expand (insnsOf decode p)) ++
      ([0xFF,0x25] ++ leBytes 4 8 ++ leBytes 8 entryStubAddr))) [] ?_ ?_ (by omega)⟩
  · rw [bytes,jumpsBack]
    simp only [List.append_assoc]
  · simp only [List.length_append,length,front,leBytesLength,List.length_cons,List.length_nil]
    unfold bodySize
    omega
  · rw [bytes,jumpsBack]
    simp only [List.append_assoc,List.append_nil]
  · simp only [List.length_append,length,front,leBytesLength,List.length_cons,List.length_nil]
    unfold bodySize
    omega

/-- A trampoline is built unless something is missing, there is no room, or an operand is out
of reach from it. One that is built hands the probe id to the stub by the word behind the
code, and then replays the prologue: every branch goes where it went and under the same
condition, an operand relative to the next instruction is where it was, everything else is
the same bytes, and at the end it goes on behind the prologue. -/
theorem trampolineReplays (lawful : decode.Lawful) (id : p.probeId < 2^31)
    (scope : ∀ insn ∈ insnsOf decode p, InScope insn)
    (fields : ∀ insn ∈ insnsOf decode p, FieldRight insn) :
    (buildTrampoline decode p entryStubAddr trampolineAddr room = none ↔
      trampolineAddr = 0 ∨ entryStubAddr = 0 ∨ p.origLen = 0 ∨ probeOrigCodeMax < p.origLen ∨
        insnsOf decode p = [] ∨
        room < bodySize (insnsOf decode p) + 38 ∨
          ¬ Placed emittedSize expand Near (trampolineAddr + 16) (insnsOf decode p)) ∧
    ∀ out, buildTrampoline decode p entryStubAddr trampolineAddr room = some out →
      let continueAddr := UInt64.ofNat (p.target.remoteAddr + p.origLen)
      let code := trampoline p.probeId (insnsOf decode p) entryStubAddr continueAddr
      out = opsBytes trampolineAddr code ∧ (∀ op ∈ code, ∀ a, Spelt a op) ∧
      Placed emittedSize expand (fun b insn => expand insn = [.copied insn] → Carried b insn)
        (trampolineAddr + 16) (insnsOf decode p) ∧
      ∀ (E : Type) (isa : Isa E) (callee : Exit E → Option (State E)) (s : State E),
        walk opSize (opStep isa (wordAt trampolineAddr out)) (comesBack callee) nowhere
          trampolineAddr 0 code s =
          handedOn (comesBack callee) ⟨.call,entryStubAddr,
            (s.push (UInt64.ofNat p.probeId)).push (trampolineAddr + 11)⟩ fun s =>
            replay emittedSize expand (moved isa) (comesBack callee) resume
              (fun _ s => some [⟨.jump,continueAddr,s⟩]) (trampolineAddr + 16)
              (insnsOf decode p) (s.set .rsp (s.reg .rsp + 8)) := by
  refine ⟨?_,fun out ok => ?_⟩
  · rw [← Option.not_isSome_iff_eq_none,builtIff,placedNear scope]
    simp only [not_and_or,not_not,ne_eq,Nat.not_le,or_assoc]
    tauto
  · have short := bodyShort lawful ok
    obtain ⟨entry,last⟩ := slotWords lawful ok
    have placed := (builtIff.mp (by rw [ok]; rfl)).2.2.2.1
    refine ⟨builtOps ok,fun op member => trampolineSpelt id (by omega) member,?_,
      fun E isa callee s => trampolineRun entry last s⟩
    refine placedImp (fun b insn both copied => ?_)
      (placedBoth ((placedNear scope).mp placed) (placedBoth (placedAll scope) (placedAll fields)))
    exact carried both.2.2 (both.1 (copiedPlain both.2.1 copied))

end Whole

def jeFar : Insn := ⟨.jcc .e,0x1000,[0x0F,0x84,0xFA,0x0F,0x00,0x00],[.imm 0x2000],0,0,0⟩
def leaRip : Insn :=
  ⟨.other 1,0x1006,[0x48,0x8D,0x05,0x00,0x01,0x00,0x00],[.other,.mem .rip],0x100,3,4⟩

def onlyJeLea : Decoder := fun code _ => if code = jeFar.bytes ++ leaRip.bytes then
    [jeFar,leaRip] else []

def jeLeaProbe : Probe :=
  { Probe.zero with probeId := 7, target := ⟨[],[],0x1000⟩, origCode :=
    jeFar.bytes ++ leaRip.bytes, origLen := 13 }

theorem onlyJeLeaLawful : onlyJeLea.Lawful := by
  intro code addr
  unfold onlyJeLea
  split
  · next same =>
    subst same
    have long : ∀ insn ∈ [jeFar,leaRip], 2 ≤ insn.size := by decide
    exact ⟨by decide,by decide,fun insn member _ => long insn member⟩
  · exact ⟨by simp,by simp,by simp⟩

def returns (e : Exit Unit) : Option (State Unit) := some (e.state.set .rsp (e.state.reg .rsp + 8))

def zeroFlag (set : Bool) : State Unit :=
  ⟨fun _ => 0x9000,⟨false,false,false,set,false,false,false⟩,fun _ => 0,()⟩

def idle : Isa Unit := ⟨fun _ s => .next s,fun _ s => (s,false),fun _ => false⟩

theorem jeLeaReplayed : ∃ out, buildTrampoline onlyJeLea jeLeaProbe 0x7000 0x5000 256 = some out ∧
    ∀ set,
    (walk opSize (opStep idle (wordAt 0x5000 out)) (comesBack returns) nowhere 0x5000 0
      (trampoline 7 [jeFar,leaRip] 0x7000 0x100D)
      (zeroFlag set)).map (List.map fun e => (e.way,e.target)) =
        some [(.call,0x7000),(.jump,if set then 0x2000 else 0x100D)] := by
  obtain ⟨out,ok⟩ : ∃ out, buildTrampoline onlyJeLea jeLeaProbe 0x7000 0x5000 256 = some out :=
    Option.isSome_iff_exists.mp (by decide)
  have two : ∀ insn ∈ insnsOf onlyJeLea jeLeaProbe, insn = jeFar ∨ insn = leaRip := by decide
  have scope : ∀ insn ∈ insnsOf onlyJeLea jeLeaProbe, InScope insn := by
    intro insn member
    rcases two insn member with rfl | rfl
    · exact .jcc rfl rfl
    · exact .plain rfl rfl
  have fields : ∀ insn ∈ insnsOf onlyJeLea jeLeaProbe, FieldRight insn := by
    intro insn member
    rcases two insn member with rfl | rfl
    · exact fun rip => absurd rip (by decide)
    · exact fun _ _ => ⟨by decide,rfl⟩
  obtain ⟨-,-,-,run⟩ := (trampolineReplays onlyJeLeaLawful (by decide) scope fields).2 out ok
  refine ⟨out,ok,fun set => ?_⟩
  rw [show insnsOf onlyJeLea jeLeaProbe = [jeFar,leaRip] from rfl] at run
  refine (congrArg _ (run Unit idle returns (zeroFlag set))).trans ?_
  cases set <;> rfl

end ZeroTrace.X86Flow
