import ZeroTrace.ProbeRuns

/-! The target's text after any run of operations. -/
namespace ZeroTrace.ProbeText
open ByteMemory PatchCode FilterSyntax ProbeTable TrampolinePool ProbeLifecycle ProbeInvariant
  ProbeSteps ProbeOps ProbeRuns

variable {isa : Isa} {disasm : Disassembler} {original : Memory} {w : World} {o : Outcome}
    {known : Name → Nat → Prop}

structure Call where
  op : Op
  outcome : Outcome
  each : Fin 32 → Outcome

def runCalls (isa : Isa) (disasm : Disassembler) (w : World) : List Call → World
  | [] => w
  | c::rest => runCalls isa disasm (runOp isa disasm w c.op c.outcome c.each).1 rest

/-! The history only grows, also when nothing else is known. -/
theorem enableKeeps {id r} (member : r ∈ w.prepared) :
    r ∈ (enableProbe isa disasm w id o).1.prepared := by
  unfold enableProbe
  split
  · exact member
  · dsimp only
    split
    · exact member
    · split
      · exact member
      · split
        · exact member
        · split
          · exact member
          · exact List.mem_append_left _ member

theorem patchKeeps (w id target o) : (installProbePatch isa w id target o).1.prepared =
    w.prepared := by
  unfold installProbePatch
  split
  · rfl
  · split
    · rfl
    · dsimp only
      split
      · rfl
      · split
        · rfl
        · split <;> rfl

theorem registeredKeeps {i snap r} (member : r ∈ w.prepared) :
    r ∈ (installRegistered isa disasm w i snap o).1.prepared := by
  have saved := @enableKeeps isa disasm w o (w.session.probes i).probeId r member
  unfold installRegistered
  dsimp only
  generalize enableProbe isa disasm w (w.session.probes i).probeId o = e at saved ⊢
  obtain ⟨w',ok⟩ := e
  cases ok with
  | false => exact (rollbackQuiet w' i snap o).1 ▸ saved
  | true =>
    dsimp only
    split
    · rw [(rollbackQuiet _ i snap o).1]; exact saved
    · next addr _ =>
      split
      · rw [(rollbackQuiet _ i snap o).1]; exact saved
      · split
        · rw [(rollbackQuiet _ i snap o).1]; exact saved
        · have same := @patchKeeps isa (slottedWorld w' i o.mmap) (w.session.probes i).probeId
            addr o
          simp only [slottedWorld,World.probe] at same
          generalize installProbePatch isa _ (w.session.probes i).probeId addr o = p at same ⊢
          obtain ⟨w'',done⟩ := p
          have there : r ∈ w''.prepared := by rw [show w''.prepared = _ from same]; exact saved
          cases done with
          | false => rw [(rollbackQuiet _ i snap o).1]; exact there
          | true => exact there

theorem installKeeps {name filter r} (member : r ∈ w.prepared) :
    r ∈ (installProbe isa disasm w name filter o).1.prepared := by
  unfold installProbe
  dsimp only
  split
  · exact member
  · split
    · split <;> exact member
    · exact registeredKeeps member

theorem listedParts (r : Region) : ProbeRules.Parts (fun w => r ∈ w.prepared) fun _ => True where
  status _ member := member
  uninstall id _ member := (uninstallPrepared _ id _).symm ▸ member
  clear _ member := member
  release _ _ member := member
  unregister _ member := member
  cleanup _ member := member
  reset member := member

theorem opKeeps {op each r} (member : r ∈ w.prepared) :
    r ∈ (runOp isa disasm w op o each).1.prepared :=
  ProbeRules.opKept (listedParts r) trivial (fun _ => trivial) member
    (fun _ _ => installKeeps (ProbeRules.stoppedKept (listedParts r) member))
    (fun _ => member) fun _ _ _ => installKeeps member

theorem runKeeps {calls r}
    (member : r ∈ w.prepared) : r ∈ (runCalls isa disasm w calls).prepared := by
  induction calls generalizing w with
  | nil => exact member
  | cons c rest ih => exact ih (opKeeps member)

/- The regions of two symbols that were ever prepared do not meet. -/
def Apart (prepared : List Region) : Prop :=
  ∀ r ∈ prepared, ∀ r' ∈ prepared, r.symbol ≠ r'.symbol → Disjoint r.addr r.len r'.addr r'.len

theorem apartSubset {rs rs' : List Region} (h : Apart rs') (less : ∀ r ∈ rs, r ∈ rs') : Apart rs :=
  fun r member r' member' => h r (less r member) r' (less r' member')

theorem initSettled (isa : Isa) (original : Memory) (known : Name → Nat → Prop) :
    Settled isa original known (World.init original) := by
  have dead : ∀ j, ¬ ((World.init original).probe j).live := fun j => by
    simp [World.init,Session.init,Probe.live,Probe.zero]
  have entries : Entries (World.init original).session := by
    refine ⟨fun i j live => absurd live (dead i),fun i j live => absurd live (dead i),
      ⟨Nat.one_pos,fun i => ?_⟩,?_⟩
    · exact Nat.one_pos
    · simp [registered,World.init,Session.init,Probe.zero]
  exact ⟨⟨entries,⟨fun i live => absurd live (dead i),fun i now => absurd now.1 (dead i),
    fun _ _ => rfl,
      fun i _ _ now => absurd now.1 (dead i)⟩,
    fun i live => absurd live (dead i),fun i _ _ live => absurd live (dead i)⟩,
      fun i live => absurd live (dead i),fun _ => dead⟩

theorem everywhere (w : World) (o : Outcome) (op : Op) : Seeks (fun _ _ => True) w o op := by
  cases op with
  | start => exact fun _ _ _ _ => trivial
  | _ => exact trivial

theorem runSettles {calls : List Call} (h : Settled isa original (fun _ _ => True) w)
    (apart : Apart (runCalls isa disasm w calls).prepared)
    (stops : ∀ c ∈ calls, Quits c.outcome c.op → Clean c.each) :
    Settled isa original (fun _ _ => True) (runCalls isa disasm w calls) := by
  induction calls generalizing w with
  | nil => exact h
  | cons c rest ih =>
    have after : Apart (runOp isa disasm w c.op c.outcome c.each).1.prepared :=
      apartSubset apart fun r member => @runKeeps isa disasm _ rest r member
    have room : Room w (runOp isa disasm w c.op c.outcome c.each).1.prepared := by
      intro q same j now differ
      have listed := (h.sound.texts.saved j now.1 (.inr now.2)).1
      exact after q (by rw [same]; simp) _ (opKeeps listed) differ.symm
    have settled := (opSettled h (everywhere w c.outcome c.op) (stops c (.head _))).2 room
    exact ih settled apart fun d member => stops d (.tail _ member)

/- Tracing, enabling, disabling and untracing, each with threads that can be resumed. -/
def Ordinary (c : Call) : Prop := c.op ≠ .shutdown ∧ c.outcome.resume = true

theorem ordinaryStays {c : Call} (h : Ordinary c) : ¬ Quits c.outcome c.op := by
  intro quits
  obtain ⟨op,o,each⟩ := c
  cases op with
  | shutdown => exact h.1 rfl
  | start => exact absurd (h.2.symm.trans quits) (by decide)
  | _ => exact quits

/- After any run whose regions lie apart, every installed probe has its own jump at its
entry and the original bytes in its table entry, and every byte outside the jumps is the
original one, the regions of all other probes there ever were included. -/
theorem patchedExactly (isa : Isa) (disasm : Disassembler) (original : Memory) (calls : List Call)
    (ordinary : ∀ c ∈ calls, Ordinary c)
    (apart : Apart (runCalls isa disasm (World.init original) calls).prepared) :
    let w := runCalls isa disasm (World.init original) calls
    (∀ i, (w.probe i).installed →
      Holds w.text (w.probe i).target.remoteAddr (jumpPatch isa (w.probe i).trampolineAddr) ∧
      (w.probe i).origCode.take (w.probe i).origLen =
        read original (w.probe i).target.remoteAddr (w.probe i).origLen) ∧
    (∀ a, (∀ i, (w.probe i).installed →
      ¬ Inside (w.probe i).target.remoteAddr (probePatchLen isa) a) →
      w.text a = original a) ∧
    ∀ r ∈ w.prepared, (∀ i, (w.probe i).installed → (w.probe i).target.symbol ≠ r.symbol) →
      read w.text r.addr r.len = read original r.addr r.len := by
  have settled := runSettles (initSettled isa original fun _ _ => True) apart
    fun c member quits => absurd quits (ordinaryStays (ordinary c member))
  dsimp only
  generalize runCalls isa disasm (World.init original) calls = w at apart settled ⊢
  have texts := settled.sound.texts
  refine ⟨fun i now => ⟨(texts.patched i now).2,(texts.saved i now.1 (.inr now.2)).2⟩,texts.kept,
    fun r member none_ => ?_⟩
  refine readSame fun a inside => texts.kept a fun i now there => ?_
  have long := (texts.patched i now).1
  have listed := (texts.saved i now.1 (.inr now.2)).1
  refine apart r member _ listed (fun same => none_ i now same.symm) a inside ⟨there.1,?_⟩
  have := there.2
  simp only [regionOf]
  omega

def smooth (addr : Nat) : Outcome :=
  ⟨true,true,true,.zero,true,some ([],addr),true,true,some 0x10000,true,true,true,true,true,true,
    true,true,true⟩

/- Two functions are traced and the first is disabled. -/
def twoTraced : List Call :=
  [⟨.start ['f'] none,smooth 0x1000,fun _ => smooth 0⟩,
    ⟨.start ['g'] none,smooth 0x2000,fun _ => smooth 0⟩,
    ⟨.disable 1,smooth 0,fun _ => smooth 0⟩]

def counting : Memory := fun a => UInt8.ofNat a

end ZeroTrace.ProbeText
