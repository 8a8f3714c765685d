import ZeroTrace.LinearSweep
import ZeroTrace.ProbeLifecycle
import ZeroTrace.X86Flow
import ZeroTrace.Arm64Flow

/-! Whether the instructions that go into a trampoline are all those that the patch writes
over. The span is measured first, and the bytes in it are disassembled again when the
trampoline is built. -/
namespace ZeroTrace.PatchCoverage
open ByteMemory PatchCode CodeBuffer LinearSweep ProbeTable ProbeLifecycle

/- `cs_disasm` without a limit, once `cs_open` has gone well. -/
def decoder {I : Type} {units : I → Bytes} (d : Sweeper units) (opened : Bool) (code : Bytes)
    (a : UInt64) : List I :=
  if opened then disasm d code a else []

def sizes {I : Type} {units : I → Bytes} (d : Sweeper units) (code : Bytes) : List Nat :=
  (disasm d code 0).map fun i => (units i).length

/- The instructions are the bytes that are replaced, all of them. -/
def Covers {I : Type} (units : I → Bytes) (insns : List I) (p : Probe) : Prop :=
  insns.flatMap units = p.origCode.take p.origLen ∧ (insns.flatMap units).length = p.origLen

theorem spanTaken {minLen total n : Nat} {l : List Nat} (found : spanOf minLen total l = some n) :
    ∃ k, n = total + (l.take k).sum := by
  induction l generalizing total with
  | nil => cases found
  | cons size l ih =>
    unfold spanOf at found
    split at found
    · exact ⟨1,by simpa using (Option.some.inj found).symm⟩
    · obtain ⟨k,total'⟩ := ih found
      exact ⟨k + 1,by rw [total',List.take_succ_cons,List.sum_cons]; omega⟩

theorem lengthSum {I : Type} (units : I → Bytes) (l : List I) :
    (l.map fun i => (units i).length).sum = (l.flatMap units).length := by
  rw [List.length_flatMap]

section Saved
variable {p : Probe} {text : Memory} {n : Nat}

def entryBytes (p : Probe) (text : Memory) : Bytes :=
  ByteMemory.read text p.target.remoteAddr probeOrigCodeMax

theorem entryLength : (entryBytes p text).length = probeOrigCodeMax := by
  simp [entryBytes,ByteMemory.read]

theorem savedBytes (short : n ≤ probeOrigCodeMax) :
    (savedProbe p text n).origCode.take n = (entryBytes p text).take n := by
  have length : ((entryBytes p text).take n).length = n := by
    rw [List.length_take,entryLength]
    exact Nat.min_eq_left short
  exact List.take_left' length

variable {I : Type} {units : I → Bytes} {d : Sweeper units} {a : UInt64}

theorem coversBytes (short : n ≤ probeOrigCodeMax)
    (same : (disasm d ((savedProbe p text n).origCode.take n) a).flatMap units =
    (entryBytes p text).take n) :
    Covers units (disasm d ((savedProbe p text n).origCode.take n) a) (savedProbe p text n) := by
  refine ⟨same.trans (savedBytes short).symm,?_⟩
  rw [same,List.length_take,entryLength]
  exact Nat.min_eq_left short

theorem spanCovered {minLen : Nat}
    (found : spanOf minLen 0 (sizes d (entryBytes p text)) = some n) :
    Covers units (disasm d ((savedProbe p text n).origCode.take n) a) (savedProbe p text n) := by
  obtain ⟨k,total⟩ := spanTaken found
  have sum : n = (((disasm d (entryBytes p text) 0).take k).flatMap units).length := by
    rw [total,sizes,← List.map_take,lengthSum,Nat.zero_add]
  have cut : ((disasm d (entryBytes p text) 0).take k).flatMap units <+: entryBytes p text := by
    have tiles : (disasm d (entryBytes p text) 0).flatMap units <+: entryBytes p text := disasmTiles
    rw [← List.take_append_drop k (disasm d (entryBytes p text) 0),List.flatMap_append] at tiles
    exact (List.prefix_append _ _).trans tiles
  have short : n ≤ probeOrigCodeMax := by
    have inside := cut.length_le
    rwa [← sum,entryLength] at inside
  have same : ((disasm d (entryBytes p text) 0).take k).flatMap units =
      (entryBytes p text).take n :=
    (List.prefix_iff_eq_take.mp cut).trans (by rw [← sum])
  have again := congrArg List.flatten
      (sweepCut a (same.trans (savedBytes short).symm) (Nat.le_refl _))
  rw [← List.flatMap_def,← List.flatMap_def] at again
  exact coversBytes short (again.trans same)

end Saved

section Spans
variable {p : Probe} {text : Memory} {n : Nat} {opened : Bool}

theorem x86Span {disasm : Disassembler}
    (measured : entrySpan .x86_64 disasm opened text p.target.remoteAddr = some n) :
    spanOf 14 0 (disasm (entryBytes p text)) = some n := by
  unfold entrySpan calcPatchSpan at measured
  split at measured
  · cases measured
  · simp only at measured
    split at measured
    · exact measured
    · cases measured

theorem arm64Span {disasm : Disassembler}
    (measured : entrySpan .aarch64 disasm opened text p.target.remoteAddr = some n) : n = 16 := by
  unfold entrySpan calcPatchSpan at measured
  split at measured
  · cases measured
  · simp only at measured
    split at measured
    · cases measured
    · exact (Option.some.inj measured).symm

theorem decoderOpened {I : Type} {units : I → Bytes} {d : Sweeper units} {opens : Bool}
    {code : Bytes} {a : UInt64}
    (some_ : decoder d opens code a ≠ []) : decoder d opens code a = disasm d code a := by
  cases opens with
  | false => exact absurd rfl some_
  | true => rfl

theorem wordsCovered {I : Type} {units : I → Bytes} {d : Sweeper units} {a : UInt64}
    (fixed : ∀ i ∈ disasm d ((savedProbe p text 16).origCode.take 16) a, (units i).length = 4) :
    Covers units (disasm d ((savedProbe p text 16).origCode.take 16) a) (savedProbe p text 16) ↔
      ∀ k < 4, known d (word 4 (entryBytes p text) k) = true := by
  have short : 16 ≤ probeOrigCodeMax := by decide
  have bytes : (savedProbe p text 16).origCode.take 16 = (entryBytes p text).take 16 :=
    savedBytes short
  have length : ((entryBytes p text).take 16).length = 4 * 4 := by
    rw [List.length_take,entryLength]
    rfl
  have words : ∀ k < 4, word 4 ((entryBytes p text).take 16) k = word 4 (entryBytes p text) k :=
    fun k low => wordTake (by omega)
  rw [bytes] at fixed
  have whole := sweepWhole (by decide) fixed length (Nat.le_refl _)
  constructor
  · intro covers k low
    have same := covers.1.trans bytes
    rw [bytes] at same
    rw [← words k low]
    exact whole.mp same k low
  · intro all
    refine coversBytes short ?_
    rw [bytes]
    exact whole.mpr fun k low => by rw [words k low]; exact all k low

end Spans

/-- What the patch replaces on x86_64 is what is relocated. On aarch64 it is exactly when every
word of it is an instruction that the disassembler knows: nothing there asks whether it came
to the end. -/
theorem patchCovered {x86 : Sweeper X86Trampoline.Insn.bytes}
    {arm64 : Sweeper Arm64Trampoline.Insn.bytes} {opened opens : Bool} {p : Probe}
    {text : Memory} {n : Nat} {entryStubAddr trampolineAddr : UInt64} {room : Nat} {out : Bytes} :
    (entrySpan .x86_64 (sizes x86) opened text p.target.remoteAddr = some n →
      X86Trampoline.buildTrampoline (decoder x86 opens) (savedProbe p text n) entryStubAddr
        trampolineAddr room = some out →
      Covers X86Trampoline.Insn.bytes (X86Flow.insnsOf (decoder x86 opens) (savedProbe p text n))
        (savedProbe p text n)) ∧
    (entrySpan .aarch64 (sizes arm64) opened text p.target.remoteAddr = some n →
      Arm64Trampoline.buildTrampoline (decoder arm64 opens) (savedProbe p text n) entryStubAddr
        trampolineAddr room = some out →
      (Covers Arm64Trampoline.Insn.bytes
        (Arm64Flow.insnsOf (decoder arm64 opens) (savedProbe p text n)) (savedProbe p text n) ↔
        ∀ k < n / 4, known arm64 (word 4 (entryBytes p text) k) = true)) := by
  refine ⟨fun measured ok => ?_,fun measured ok => ?_⟩
  · have some_ := (X86Flow.builtIff.mp (by rw [ok]; rfl)).2.2.1
    rw [show X86Flow.insnsOf (decoder x86 opens) (savedProbe p text n) = _ from decoderOpened some_]
    exact spanCovered (x86Span measured)
  · obtain rfl := arm64Span measured
    obtain ⟨_,_,_,accepted⟩ := Arm64Replay.builtBytes ok
    have some_ : Arm64Flow.insnsOf (decoder arm64 opens) (savedProbe p text 16) ≠ [] :=
      (Arm64Flow.builtSome ok).1
    have insns : Arm64Flow.insnsOf (decoder arm64 opens) (savedProbe p text 16) = _ :=
      decoderOpened some_
    have all : ∀ insn ∈ Arm64Flow.insnsOf (decoder arm64 opens) (savedProbe p text 16),
        Arm64Replay.Accepted insn := accepted
    rw [insns] at all ⊢
    exact wordsCovered fun insn member => (all insn member).size

/-! A disassembler that knows nop only. -/
section Nops

def onlyNop {I : Type} {units : I → Bytes} (nop : Bytes) (insn : UInt64 → I)
    (is : ∀ a, units (insn a) = nop) (some_ : nop ≠ []) : Sweeper units where
  one code a := if nop.isPrefixOf code then some (insn a) else none
  front code a i found := by
    split at found
    · next front =>
      cases found
      rw [is]
      exact ⟨List.isPrefixOf_iff_prefix.mp front,some_⟩
    · cases found
  own code a i code' a' found front := by
    split at found
    · cases found
      rw [is] at front
      exact ⟨insn a',if_pos (List.isPrefixOf_iff_prefix.mpr front),by rw [is,is]⟩
    · cases found

def x86Nop : Sweeper X86Trampoline.Insn.bytes :=
  onlyNop [0x90] (fun a => ⟨.other 0,a,[0x90],[],0,0,0⟩) (fun _ => rfl) (by decide)

def arm64Nop : Sweeper Arm64Trampoline.Insn.bytes :=
  onlyNop [0x1F,0x20,0x03,0xD5] (fun a => ⟨.other 0,a,[0x1F,0x20,0x03,0xD5],[],0⟩) (fun _ => rfl)
    (by decide)

def probe : Probe := { Probe.zero with probeId := 1, target := ⟨[],[],0x1000⟩ }

def x86Text : Memory := fun _ => 0x90

def arm64Text (nops : Nat) : Memory :=
  fun x => if x < 0x1000 + 4 * nops then [0x1F,0x20,0x03,0xD5].getD (x % 4) 0 else 0xFF

theorem nopsCovered :
    Covers X86Trampoline.Insn.bytes
      (X86Flow.insnsOf (decoder x86Nop true) (savedProbe probe x86Text 14))
      (savedProbe probe x86Text 14) ∧
    Covers Arm64Trampoline.Insn.bytes
      (Arm64Flow.insnsOf (decoder arm64Nop true) (savedProbe probe (arm64Text 4) 16))
      (savedProbe probe (arm64Text 4) 16) := by
  obtain ⟨x86,x86Ok⟩ : ∃ out, X86Trampoline.buildTrampoline (decoder x86Nop true)
    (savedProbe probe x86Text 14) 0x7000 0x5000 512 = some out :=
    Option.isSome_iff_exists.mp (by decide)
  obtain ⟨arm64,arm64Ok⟩ : ∃ out, Arm64Trampoline.buildTrampoline (decoder arm64Nop true)
    (savedProbe probe (arm64Text 4) 16) 0x7000 0x5000 512 = some out :=
    Option.isSome_iff_exists.mp (by decide)
  have first := (@patchCovered x86Nop arm64Nop true true probe x86Text 14 0x7000 0x5000 512 x86).1
      (by decide) x86Ok
  have second := (@patchCovered x86Nop arm64Nop true true probe (arm64Text 4) 16 0x7000 0x5000 512
      arm64).2 (by decide) arm64Ok
  exact ⟨first,second.mpr (by decide)⟩

/- A nop and then three words that are no instructions: the trampoline has the nop only, and
goes on behind the fourth word. -/
theorem restOfPatchDropped : entrySpan .aarch64 (sizes arm64Nop) true (arm64Text 1) 0x1000 =
    some 16 ∧
    (Arm64Trampoline.buildTrampoline (decoder arm64Nop true) (savedProbe probe (arm64Text 1) 16)
      0x7000 0x5000 512).isSome = true ∧
    ¬ Covers Arm64Trampoline.Insn.bytes
      (Arm64Flow.insnsOf (decoder arm64Nop true) (savedProbe probe (arm64Text 1) 16))
      (savedProbe probe (arm64Text 1) 16) := by
  refine ⟨by decide,by decide,fun covers => ?_⟩
  have length := covers.2
  exact absurd length (by decide)

end Nops

end ZeroTrace.PatchCoverage
