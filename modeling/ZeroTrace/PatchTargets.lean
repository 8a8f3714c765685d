import ZeroTrace.X86Flow
import ZeroTrace.Arm64Flow

/-! Where the branches of a trampoline go, read off its code, and whether any of them goes into
the bytes that the patch has replaced. A branch through a register counts when the code has
just put a number into it. -/
namespace ZeroTrace.PatchTargets
open PatchCode CodeBuffer CodeListing ProbeTable

/- In the bytes that the jump to the trampoline is written over. -/
def Inside (p : Probe) (t : UInt64) : Prop :=
  (t - UInt64.ofNat p.target.remoteAddr).toNat < p.origLen

instance (p : Probe) (t : UInt64) : Decidable (Inside p t) := inferInstanceAs (Decidable (_ < _))

theorem behindOutside {p : Probe} (short : p.origLen ≤ probeOrigCodeMax) :
    ¬ Inside p (UInt64.ofNat (p.target.remoteAddr + p.origLen)) := by
  have distance : UInt64.ofNat (p.target.remoteAddr + p.origLen) -
      UInt64.ofNat p.target.remoteAddr = UInt64.ofNat p.origLen := by
    rw [UInt64.ofNat_add,UInt64.add_comm,UInt64.add_sub_cancel]
  simp only [probeOrigCodeMax] at short
  rw [Inside,distance,UInt64.toNat_ofNat']
  omega

namespace X86
open X86Trampoline X86Replay X86Flow

def learn (r11 : Option UInt64) : Op → Option UInt64
  | .body (.movabsR11 v) => some v
  | .body .popR11 => none
  | .body .callR11 => none
  | .body (.copied _) => none
  | .callMem _ => none
  | _ => r11

def see (load : UInt64 → UInt64) (a : UInt64) (r11 : Option UInt64) : Op → List UInt64
  | .callMem disp => [load (a + 6 + disp)]
  | .jmpMem disp => [load (a + 6 + disp)]
  | .body .callR11 => r11.toList
  | .body .jmpR11 => r11.toList
  | .body (.jccShort _ skip) => [a + 2 + UInt64.ofNat skip]
  | .body (.copied insn) =>
      if loops insn then (relTarget insn.operands).toList.map (· + (a - insn.address)) else []
  | _ => []

/- The same in terms of the prologue: the target of a branch, what is behind the jump that
stands for a conditional one, and the target that a copied loop has got. -/
def branchesOf (b : UInt64) (insn : Insn) : List UInt64 :=
  match insn.id,relTarget insn.operands with
  | .call,some target => [target]
  | .jmp,some target => [target]
  | .jcc _,some target => [b + 2 + 13,target]
  | _,_ => if loops insn then (relTarget insn.operands).toList.map (· + (b - insn.address)) else []

def targets (load : UInt64 → UInt64) (a : UInt64) (code : List Op) : List UInt64 :=
  named opSize (see load) learn a none code

theorem blockNames {load : UInt64 → UInt64} (insn : Insn) (b : UInt64) (r11 : Option UInt64) :
    named emittedSize (fun a k e => see load a k (.body e)) (fun k e => learn k (.body e)) b r11
      (expand insn) = branchesOf b insn := by
  unfold expand branchesOf
  split
  · simp [named,see,learn, *]
  · simp [named,see,learn, *]
  · simp [named,see,learn, *]
  · simp [named,see]

theorem trampolineTargets {load : UInt64 → UInt64} {a entryStubAddr continueAddr : UInt64}
    {insns : List Insn} {probeId : Nat} {P : UInt64 → Prop}
    (entry : load (a + UInt64.ofNat (bodySize insns + 22)) = entryStubAddr)
    (last : load (a + UInt64.ofNat (bodySize insns + 30)) = continueAddr) :
    (∀ t ∈ targets load a (trampoline probeId insns entryStubAddr continueAddr), P t) ↔
      P entryStubAddr ∧ Placed emittedSize expand (fun b insn => ∀ t ∈ branchesOf b insn, P t)
        (a + 16) insns ∧ P continueAddr := by
  obtain ⟨first,behind⟩ := @slotPlaces a (bodySize insns)
  have call : see load (a + 5) none (.callMem (UInt64.ofNat (bodySize insns + 11))) =
      [entryStubAddr] := by simp only [see,first,entry]
  have jump : ∀ k, see load (a + 16 + UInt64.ofNat (bodySize insns)) k (.jmpMem 8) =
      [continueAddr] := fun k => by simp only [see,behind,last]
  have body : ∀ k, named opSize (see load) learn (a + 16) k ((listing expand insns).map .body) =
      named emittedSize (fun a k e => see load a k (.body e)) (fun k e => learn k (.body e))
        (a + 16) k (listing expand insns) := fun k =>
    namedMap (fun _ => rfl) (fun _ _ _ => rfl) fun _ _ => rfl
  have size : codeSize opSize ((listing expand insns).map .body) = bodySize insns := bodyOps _
  have tail : ∀ k, named opSize (see load) learn (a + 16 + UInt64.ofNat (bodySize insns)) k
      [.jmpMem 8,.word entryStubAddr,.word continueAddr] =
      [continueAddr] := fun k => by
    rw [named,jump]
    rfl
  obtain ⟨five,eleven,sixteen⟩ :=
    @opPlaces a (UInt64.ofNat probeId) (UInt64.ofNat (bodySize insns + 11))
  have whole : targets load a (trampoline probeId insns entryStubAddr continueAddr) =
      [entryStubAddr] ++
      (named emittedSize (fun a k e => see load a k (.body e)) (fun k e => learn k (.body e))
        (a + 16) none (listing expand insns) ++ [continueAddr]) := by
    rw [targets,trampoline,List.cons_append,named,List.cons_append,named,List.cons_append,named,
      List.nil_append,five,eleven,sixteen,namedAppend,size,tail,
      body,← call]
    rfl
  rw [whole,List.forall_mem_append,List.forall_mem_singleton,List.forall_mem_append,
    namedListing blockNames,List.forall_mem_singleton]

end X86

namespace Arm64
open Arm64Trampoline Arm64Replay Arm64Flow

def learn (x16 : Option UInt64) : Op → Option UInt64
  | .body (.movz rd imm) => if rd = 16 then some imm.toUInt64 else x16
  | .body (.movk rd hw imm) => if rd = 16 then x16.map fun v => insert v hw imm else x16
  | .body .blrX16 => none
  | .body (.copied _) => none
  | _ => x16

def see (a : UInt64) (x16 : Option UInt64) : Op → List UInt64
  | .body .brX16 => x16.toList
  | .body .blrX16 => x16.toList
  | .body (.bCond _ offset) => [a + UInt64.ofNat offset]
  | .body (.cb w) => [a + UInt64.ofNat (compareOffset w)]
  | .body (.tb w) => [a + UInt64.ofNat (bitOffset w)]
  | _ => []

/- The same in terms of the prologue: the target of a branch, and what is behind the branch
that stands for a conditional one. -/
def branchesOf (b : UInt64) (insn : Insn) : List UInt64 := match role insn with
  | .call target => [target]
  | .branch .always target => [target]
  | .branch _ target => [b + UInt64.ofNat (skipBytes target),target]
  | _ => []

def targets (a : UInt64) (code : List Op) : List UInt64 := named opSize see learn a none code

abbrev seen (a : UInt64) (k : Option UInt64) (e : Emitted) : List UInt64 := see a k (.body e)
abbrev learned (k : Option UInt64) (e : Emitted) : Option UInt64 := learn k (.body e)

theorem movesNameless {rd : Nat} {value a : UInt64} {k : Option UInt64} :
    named emittedSize seen learned a k (moves rd value) = [] := by
  have none_ : ∀ e ∈ moves rd value, ∀ a k, seen a k e = [] := by
    intro e member a k
    obtain ⟨hw,_,rfl⟩ := List.mem_map.mp member
    split <;> rfl
  generalize moves rd value = l at none_
  induction l generalizing a k with
  | nil => rfl
  | cons e l ih =>
    rw [named,none_ e (by simp),List.nil_append]
    exact ih fun e member => none_ e (by simp [member])

theorem movesFromLearned {value : UInt64} {k n : Nat} (some_ : 0 < k) (few : k + n ≤ 4) :
    (movesFrom 16 value k n).foldl learned (some (UInt64.ofNat (value.toNat % 2^(16 * k)))) =
      some (UInt64.ofNat (value.toNat % 2^(16 * (k + n)))) := by
  induction n generalizing k with
  | zero => simp [movesFrom]
  | succ n ih =>
    by_cases zero : halfword value k = 0
    · obtain ⟨same,still⟩ := movesFromZero some_ zero 16 n
      rw [same,still,ih (by omega) (by omega),Nat.add_right_comm k 1 n,Nat.add_assoc k n 1]
    · have one : learned (some (UInt64.ofNat (value.toNat % 2^(16 * k))))
        (.movk 16 k (halfword value k)) =
          some (UInt64.ofNat (value.toNat % 2^(16 * (k + 1)))) := by
        simp only [learned,learn,if_true,Option.map_some]
        rw [insertHalf value (by omega)]
      rw [movesFromNext some_ zero,List.foldl_cons,one,ih (by omega) (by omega),
        Nat.add_right_comm k 1 n,Nat.add_assoc k n 1]

theorem movesLearned {value : UInt64} {k : Option UInt64} :
    (moves 16 value).foldl learned k = some value := by
  obtain ⟨same,low,whole⟩ := @movesParts 16 value
  rw [same,List.foldl_cons,
    show learned k (.movz 16 (halfword value 0)) = some (halfword value 0).toUInt64 from rfl,low,
    movesFromLearned (by decide) (by decide),whole]

theorem branchNames {target a : UInt64} {k : Option UInt64} :
    named emittedSize seen learned a k (absBranch target) = [target] := by
  rw [absBranch,namedAppend,movesNameless,movesLearned]
  rfl

theorem blockNames (insn : Insn) (b : UInt64) (x16 : Option UInt64) :
    named emittedSize seen learned b x16 (expand insn) = branchesOf b insn := by
  unfold expand branchesOf
  cases is : role insn with
  | address rd target => exact movesNameless
  | call target =>
    simp only
    rw [namedAppend,movesNameless,movesLearned]
    rfl
  | branch test target =>
    cases test with
    | always => exact branchNames
    | cond code =>
      simp only [skipUnless,List.singleton_append]
      rw [named,branchNames]
      rfl
    | compare w =>
      simp only [skipUnless,List.singleton_append]
      rw [named,branchNames,seen,see,compareSkip]
      rfl
    | bit w =>
      simp only [skipUnless,List.singleton_append]
      rw [named,branchNames,seen,see,bitSkip]
      rfl
  | plain => rfl

theorem stubNames {probeId : Nat} {entryStubAddr a : UInt64} {k : Option UInt64} :
    named emittedSize seen learned a k (stubCall probeId entryStubAddr) = [entryStubAddr] := by
  rw [stubCall,namedAppend,movesNameless,namedAppend,movesNameless,movesLearned]
  rfl

theorem trampolineTargets {a entryStubAddr continueAddr : UInt64} {insns : List Insn}
    {probeId : Nat} {P : UInt64 → Prop} :
    (∀ t ∈ targets a (trampoline probeId insns entryStubAddr continueAddr), P t) ↔ P entryStubAddr ∧
      Placed emittedSize expand (fun b insn => ∀ t ∈ branchesOf b insn, P t)
        (a + UInt64.ofNat (bodyStart probeId entryStubAddr)) insns ∧
        P continueAddr := by
  have emitted : ∀ a k l, named opSize see learn a k (l.map .body) =
      named emittedSize seen learned a k l := fun a k l =>
    namedMap (fun _ => rfl) (fun _ _ _ => rfl) fun _ _ => rfl
  have size : ∀ l : List Emitted, codeSize opSize (l.map .body) = codeSize emittedSize l :=
    fun l => by
    induction l with
    | nil => rfl
    | cons e l ih => rw [List.map_cons,codeSize,ih]; rfl
  have start : a + UInt64.ofNat insnSize +
      UInt64.ofNat (codeSize emittedSize (stubCall probeId entryStubAddr)) + UInt64.ofNat insnSize =
      a + UInt64.ofNat (bodyStart probeId entryStubAddr) := by
    rw [bodyStart,stubReturn,UInt64.ofNat_add,UInt64.ofNat_add,UInt64.add_assoc,UInt64.add_assoc,
      UInt64.add_assoc]
  have whole : ∃ k, targets a (trampoline probeId insns entryStubAddr continueAddr) =
      [entryStubAddr] ++
      (named emittedSize seen learned (a + UInt64.ofNat (bodyStart probeId entryStubAddr)) k
        (listing expand insns) ++ [continueAddr]) := by
    refine ⟨learn (((stubCall probeId entryStubAddr).map .body).foldl learn none) (.move 30 15),?_⟩
    rw [targets,trampoline,named,namedAppend,named,emitted,stubNames,size]
    simp only [opSize]
    rw [start,emitted,relocated,namedAppend,branchNames]
    rfl
  obtain ⟨k,whole⟩ := whole
  rw [whole,List.forall_mem_append,List.forall_mem_singleton,List.forall_mem_append,
    namedListing blockNames,List.forall_mem_singleton]

end Arm64

/-- No branch of a trampoline goes into the replaced bytes exactly when the stub is not there,
no branch of the prologue goes there, the branches that replace conditional ones do not skip
to there, and (x86_64) no copied loop ends up there. Nothing looks at any of these. -/
theorem branchesLeavePatch {x86Decode : X86Trampoline.Decoder}
    {arm64Decode : Arm64Trampoline.Decoder} {p : Probe}
    {entryStubAddr trampolineAddr : UInt64} {room : Nat} {out : Bytes} (lawful : x86Decode.Lawful) :
    (X86Trampoline.buildTrampoline x86Decode p entryStubAddr trampolineAddr room = some out →
      ((∀ t ∈ X86.targets (X86Flow.wordAt trampolineAddr out) trampolineAddr
        (X86Flow.trampoline p.probeId (X86Flow.insnsOf x86Decode p) entryStubAddr
          (UInt64.ofNat (p.target.remoteAddr + p.origLen))), ¬ Inside p t) ↔
        ¬ Inside p entryStubAddr ∧
          Placed X86Replay.emittedSize X86Replay.expand (fun b insn => ∀ t ∈ X86.branchesOf b insn,
          ¬ Inside p t)
          (trampolineAddr + 16) (X86Flow.insnsOf x86Decode p))) ∧
    (Arm64Trampoline.buildTrampoline arm64Decode p entryStubAddr trampolineAddr room = some out →
      ((∀ t ∈ Arm64.targets trampolineAddr
        (Arm64Flow.trampoline p.probeId (Arm64Flow.insnsOf arm64Decode p) entryStubAddr
          (UInt64.ofNat (p.target.remoteAddr + p.origLen))), ¬ Inside p t) ↔
        ¬ Inside p entryStubAddr ∧
          Placed Arm64Replay.emittedSize Arm64Replay.expand
          (fun b insn => ∀ t ∈ Arm64.branchesOf b insn, ¬ Inside p t)
          (trampolineAddr + UInt64.ofNat (Arm64Flow.bodyStart p.probeId entryStubAddr))
            (Arm64Flow.insnsOf arm64Decode p))) := by
  refine ⟨fun ok => ?_,fun ok => ?_⟩
  · obtain ⟨entry,last⟩ := X86Flow.slotWords lawful ok
    have short := (X86Flow.builtIff.mp (by rw [ok]; rfl)).2.1.2
    rw [X86.trampolineTargets entry last]
    exact ⟨fun all => ⟨all.1,all.2.1⟩,fun all => ⟨all.1,all.2,behindOutside short⟩⟩
  · have short := (Arm64Flow.builtSome ok).2
    rw [Arm64.trampolineTargets]
    exact ⟨fun all => ⟨all.1,all.2.1⟩,fun all => ⟨all.1,all.2,behindOutside short⟩⟩

/- Runs over the list, where `decide` would run over all addresses. -/
theorem listedOutside {p : Probe} {l : List UInt64}
    (all : l.all (fun t => !decide (Inside p t)) = true) : ∀ t ∈ l, ¬ Inside p t := by
  simpa using all

theorem farBranchesLeave :
    (∃ out, X86Trampoline.buildTrampoline X86Flow.onlyJeLea X86Flow.jeLeaProbe 0x7000 0x5000 256 =
      some out ∧
      ∀ t ∈ X86.targets (X86Flow.wordAt 0x5000 out) 0x5000
        (X86Flow.trampoline 7 [X86Flow.jeFar,X86Flow.leaRip] 0x7000 0x100D),
        ¬ Inside X86Flow.jeLeaProbe t) ∧
    ∀ t ∈ Arm64.targets 0x5000
      (Arm64Flow.trampoline 7 [Arm64Flow.cbzFar,Arm64Flow.adrFar] 0x7000 0x1008),
      ¬ Inside Arm64Flow.cbzAdrProbe t := by
  obtain ⟨x86,x86Ok⟩ : ∃ out, X86Trampoline.buildTrampoline X86Flow.onlyJeLea X86Flow.jeLeaProbe
    0x7000 0x5000 256 = some out :=
    Option.isSome_iff_exists.mp (by decide)
  obtain ⟨arm64,arm64Ok⟩ : ∃ out,
    Arm64Trampoline.buildTrampoline (fun _ _ => [Arm64Flow.cbzFar,Arm64Flow.adrFar])
    Arm64Flow.cbzAdrProbe 0x7000 0x5000 256 = some out :=
    Option.isSome_iff_exists.mp (by decide)
  have first := (@branchesLeavePatch _ (fun _ _ => []) _ _ _ _ _ X86Flow.onlyJeLeaLawful).1 x86Ok
  have second := (@branchesLeavePatch _ (fun _ _ => [Arm64Flow.cbzFar,Arm64Flow.adrFar]) _ _ _ _ _
      X86Flow.onlyJeLeaLawful).2 arm64Ok
  exact ⟨⟨x86,x86Ok,first.mpr ⟨by decide,listedOutside rfl,listedOutside rfl,trivial⟩⟩,
    second.mpr ⟨by decide,listedOutside rfl,listedOutside rfl,trivial⟩⟩

/- je 0x100C over a nop of ten bytes, and cbz x0,0x1008 over one nop. -/
def jeNear : X86Trampoline.Insn := ⟨.jcc .e,0x1000,[0x74,0x0A],[.imm 0x100C],0,0,0⟩
def nopTen : X86Trampoline.Insn :=
  ⟨.other 0,0x1002,[0x66,0x2E,0x0F,0x1F,0x84,0x00,0x00,0x00,0x00,0x00],[.other],0,0,0⟩
def nopTwo : X86Trampoline.Insn := ⟨.other 0,0x100C,[0x66,0x90],[],0,0,0⟩
def cbzNear : Arm64Trampoline.Insn :=
  ⟨.cbz,0x1000,Arm64Trampoline.wordBytes 0xB4000040,[.other,.imm 0x1008],0⟩
def nopAt (a : UInt64) : Arm64Trampoline.Insn :=
  ⟨.other 0,a,Arm64Trampoline.wordBytes 0xD503201F,[],0⟩

def probe (code : Bytes) : Probe :=
  { Probe.zero with
      probeId := 7, target := ⟨[],[],0x1000⟩, origCode := code, origLen := code.length }

def x86Prologue : List X86Trampoline.Insn := [jeNear,nopTen,nopTwo]
def arm64Prologue : List Arm64Trampoline.Insn := [cbzNear,nopAt 0x1004,nopAt 0x1008,nopAt 0x100C]

theorem nearBranchesEnterPatch :
    (∃ out, X86Trampoline.buildTrampoline (fun _ _ => x86Prologue)
      (probe (x86Prologue.flatMap X86Trampoline.Insn.bytes)) 0x7000 0x5000 256 = some out ∧
      ∃ t ∈ X86.targets (X86Flow.wordAt 0x5000 out) 0x5000
        (X86Flow.trampoline 7 x86Prologue 0x7000 0x100E),
        Inside (probe (x86Prologue.flatMap X86Trampoline.Insn.bytes)) t) ∧
    (Arm64Trampoline.buildTrampoline (fun _ _ => arm64Prologue)
      (probe (arm64Prologue.flatMap Arm64Trampoline.Insn.bytes)) 0x7000 0x5000 256).isSome = true ∧
      ∃ t ∈ Arm64.targets 0x5000 (Arm64Flow.trampoline 7 arm64Prologue 0x7000 0x1010),
        Inside (probe (arm64Prologue.flatMap Arm64Trampoline.Insn.bytes)) t := by
  obtain ⟨x86,x86Ok⟩ : ∃ out, X86Trampoline.buildTrampoline (fun _ _ => x86Prologue)
    (probe (x86Prologue.flatMap X86Trampoline.Insn.bytes)) 0x7000 0x5000 256 =
      some out := Option.isSome_iff_exists.mp (by decide)
  have listed : ∀ load, X86.targets load 0x5000 (X86Flow.trampoline 7 x86Prologue 0x7000 0x100E) =
      [load 0x5031,0x501F,0x100C,load 0x5039] := fun _ => rfl
  refine ⟨⟨x86,x86Ok,0x100C,by rw [listed]; simp,by decide⟩,by decide,0x1008,by decide,by decide⟩

end ZeroTrace.PatchTargets
