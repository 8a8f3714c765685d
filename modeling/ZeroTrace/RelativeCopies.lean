import ZeroTrace.X86Flow

/-! Which instructions that depend on their own address get into an x86_64 trampoline without
being rewritten. The builder has a list of those that it rewrites or refuses; whatever is not
on it is copied. -/
namespace ZeroTrace.RelativeCopies
open PatchCode CodeBuffer CodeListing ProbeTable X86Trampoline X86Replay X86Flow

/- Where the branch of a block goes. A copied one keeps its distance. -/
def goesTo (b : UInt64) : List Emitted → Option UInt64
  | [] => none
  | .movabsR11 v::_ => some v
  | .copied insn::_ => (relTarget insn.operands).map (· + (b - insn.address))
  | _::l => goesTo b l

def addressDependent (insn : Insn) : Bool :=
  relative insn || insn.operands.contains (.mem .rip) || insn.operands.contains (.mem .eip)

/- What is written for the instruction names the place that the instruction does: the target
of a branch, or the operand, of which an instruction relative to eip sees the lower half. -/
structure Rewritten (b : UInt64) (insn : Insn) : Prop where
  branch : ∀ target, relative insn = true → relTarget insn.operands = some target →
    goesTo b (expand insn) = some target
  rip : expand insn = [.copied insn] → insn.operands.contains (.mem .rip) = true →
    operandAddress b insn (copyAt b insn).bytes = operandAddress insn.address insn insn.bytes
  eip : expand insn = [.copied insn] → insn.operands.contains (.mem .eip) = true →
    (operandAddress b insn (copyAt b insn).bytes).toNat % 2^32 =
      (operandAddress insn.address insn insn.bytes).toNat % 2^32

/- It is no loop and no xbegin, and its operand is not relative to eip, unless the copy is
where the instruction was. -/
structure Listed (b : UInt64) (insn : Insn) : Prop where
  loop : loops insn = true → b = insn.address
  eip : expand insn = [.copied insn] → insn.operands.contains (.mem .eip) = true →
    insn.operands.contains (.mem .rip) = false →
    b.toNat % 2^32 = insn.address.toNat % 2^32

section One
variable {b : UInt64} {insn : Insn}

theorem distanceZero {target a : UInt64} : target + (b - a) = target ↔ b = a := by
  constructor
  · intro same
    have none_ : b - a = 0 := by simpa using same
    have back := congrArg (· + a) none_
    simpa using back
  · rintro rfl
    simp

theorem loopsCopied (is : loops insn = true) : expand insn = [.copied insn] := by
  unfold expand
  cases id : insn.id <;> simp_all [loops]

theorem branchRewritten (accepted : Accepted b insn) (is : relative insn = true) {target : UInt64}
    (operand : relTarget insn.operands = some target) :
    goesTo b (expand insn) = some target ↔ (loops insn = true → b = insn.address) := by
  cases kind accepted with
  | call id operand' => simp [expand,id,operand,goesTo,loops]
  | jmp id operand' => simp [expand,id,operand,goesTo,loops]
  | jcc id operand' => simp [expand,id,operand,goesTo,loops]
  | loop isLoop operand' =>
    rw [loopsCopied isLoop]
    simp only [goesTo,operand,Option.map_some,Option.some.injEq,distanceZero,isLoop,true_implies]
  | plain not => exact absurd (not.symm.trans is) (by simp)

theorem lowerHalf (a d : UInt64) : (b + d).toNat % 2^32 = (a + d).toNat % 2^32 ↔
    b.toNat % 2^32 = a.toNat % 2^32 := by
  rw [UInt64.toNat_add,UInt64.toNat_add]
  omega

theorem eipRewritten (field : FieldRight insn) (accepted : Accepted b insn)
    (copied : expand insn = [.copied insn]) :
    (operandAddress b insn (copyAt b insn).bytes).toNat % 2^32 =
      (operandAddress insn.address insn insn.bytes).toNat % 2^32 ↔
      (insn.operands.contains (.mem .rip) = false →
        b.toNat % 2^32 = insn.address.toNat % 2^32) := by
  have carried := carried field (accepted.reaches copied)
  cases rip : insn.operands.contains (.mem .rip) with
  | true => simp [carried.operand rip]
  | false =>
    rw [carried.plain rip,operandAddress,operandAddress,UInt64.add_assoc,UInt64.add_assoc,lowerHalf]
    simp

theorem rewrittenListed (field : FieldRight insn) (accepted : Accepted b insn) :
    Rewritten b insn ↔ Listed b insn := by
  constructor
  · intro rewritten
    refine ⟨fun is => ?_,
      fun copied eip => (eipRewritten field accepted copied).mp (rewritten.eip copied eip)⟩
    have some_ : ∃ target, relTarget insn.operands = some target := by
      simp only [loops,Bool.and_eq_true,Option.isSome_iff_exists] at is
      exact is.1
    obtain ⟨target,operand⟩ := some_
    have branch : relative insn = true := by cases id : insn.id <;> simp_all [loops,relative]
    exact (branchRewritten accepted branch operand).mp (rewritten.branch target branch operand) is
  · intro listed
    exact ⟨fun target branch operand => (branchRewritten accepted branch operand).mpr listed.loop,
      fun copied rip => (carried field (accepted.reaches copied)).operand rip,
      fun copied eip => (eipRewritten field accepted copied).mpr (listed.eip copied eip)⟩

/- An instruction that depends on nothing of the kind has nothing to be rewritten. -/
theorem dependentListed (field : FieldRight insn) (accepted : Accepted b insn) :
    (addressDependent insn = true → Rewritten b insn) ↔ Listed b insn := by
  cases dependent : addressDependent insn with
  | true => simpa using rewrittenListed field accepted
  | false =>
    simp only [addressDependent,Bool.or_eq_false_iff] at dependent
    refine ⟨fun _ => ⟨fun is => ?_,fun _ eip => absurd (dependent.2.symm.trans eip) (by simp)⟩,
      fun _ bad => absurd bad (by simp)⟩
    have branch : relative insn = true := by cases id : insn.id <;> simp_all [loops,relative]
    exact absurd (dependent.1.1.symm.trans branch) (by simp)

end One

/-- Every instruction of a relocated prologue that depends on its own address is rewritten to
the place that it names, exactly when none is a loop or an xbegin or has an operand relative
to eip whose copy is somewhere else. -/
theorem dependentRewritten {decode : Decoder} {p : Probe} {codeAddr : UInt64} {room : Nat}
    {out : Bytes}
    (fields : ∀ insn ∈ insnsOf decode p, FieldRight insn)
    (ok : emitRelocatedOrigCode decode p codeAddr room = some out) :
    out = codeBytes codeAddr (listing expand (insnsOf decode p)) ∧
    (Placed emittedSize expand (fun b insn => addressDependent insn = true → Rewritten b insn)
      codeAddr (insnsOf decode p) ↔
      Placed emittedSize expand Listed codeAddr (insnsOf decode p)) := by
  have ready := placedBoth (relocatedSome ok).2.1 (placedAll fields)
  refine ⟨(relocatedBytes ok).1,fun placed => ?_,fun placed => ?_⟩
  · exact placedImp (fun b insn both => (dependentListed both.2.2 both.2.1).mp both.1)
      (placedBoth placed ready)
  · exact placedImp (fun b insn both => (dependentListed both.2.2 both.2.1).mpr both.1)
      (placedBoth placed ready)

/- loop 0x1012 and lea eax,[eip+0x100], both at 0x1000. -/
def loopNear : Insn := ⟨.loop,0x1000,[0xE2,0x10],[.imm 0x1012],0,0,0⟩
def leaEip : Insn :=
  ⟨.other 1,0x1000,[0x67,0x8D,0x05,0x00,0x01,0x00,0x00],[.other,.mem .eip],0x100,3,4⟩

def probe (code : Bytes) : Probe :=
  { Probe.zero with
      probeId := 1, target := ⟨[],[],0x1000⟩, origCode := code, origLen := code.length }

theorem jeLeaRewritten :
    ∃ out, emitRelocatedOrigCode (fun _ _ => [jeFar,leaRip]) jeLeaProbe 0x5010 512 = some out ∧
    Placed emittedSize expand (fun b insn => addressDependent insn = true → Rewritten b insn) 0x5010
      [jeFar,leaRip] := by
  obtain ⟨out,ok⟩ : ∃ out, emitRelocatedOrigCode (fun _ _ => [jeFar,leaRip]) jeLeaProbe 0x5010 512 =
    some out := Option.isSome_iff_exists.mp (by decide)
  have fields : ∀ insn ∈ insnsOf (fun _ _ => [jeFar,leaRip]) jeLeaProbe, FieldRight insn := by
    intro insn member
    have two : insn = jeFar ∨ insn = leaRip := by simpa [insnsOf] using member
    rcases two with rfl | rfl
    · exact fun rip => absurd rip (by decide)
    · exact fun _ _ => ⟨by decide,rfl⟩
  have none_ : ∀ insn ∈ [jeFar,leaRip], loops insn = false ∧
      insn.operands.contains (.mem .eip) = false := by decide
  refine ⟨out,ok,(dependentRewritten fields ok).2.mpr
    (placedImp (fun b insn none_ => ?_) (placedAll none_))⟩
  exact ⟨fun is => absurd (none_.1.symm.trans is) (by simp),
    fun _ eip => absurd (none_.2.symm.trans eip) (by simp)⟩

theorem loopAndEipCopied :
    (emitRelocatedOrigCode (fun _ _ => [loopNear]) (probe loopNear.bytes) 0x5010 512 =
      some loopNear.bytes ∧ addressDependent loopNear = true ∧
      ¬ Rewritten 0x5010 loopNear) ∧
    emitRelocatedOrigCode (fun _ _ => [leaEip]) (probe leaEip.bytes) 0x5010 512 =
      some leaEip.bytes ∧ addressDependent leaEip = true ∧
      ¬ Rewritten 0x5010 leaEip := by
  refine ⟨⟨by decide,by decide,fun rewritten => ?_⟩,by decide,by decide,fun rewritten => ?_⟩
  · exact absurd (rewritten.branch 0x1012 (by decide) rfl) (by decide)
  · exact absurd (rewritten.eip rfl (by decide)) (by decide)

end ZeroTrace.RelativeCopies
