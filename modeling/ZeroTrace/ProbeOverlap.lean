import ZeroTrace.ProbeText

/-! Two probes on overlapping code. The table tells probes apart by name only, so the
results here are about runs in which a new name never meets the code of a registered one. -/
namespace ZeroTrace.ProbeOverlap
open ByteMemory PatchCode FilterSyntax ProbeTable TrampolinePool ProbeLifecycle ProbeInvariant
  ProbeSteps ProbeOps ProbeRuns ProbeText

variable {isa : Isa} {disasm : Disassembler} {original : Memory} {w : World} {o : Outcome}
    {known : Name → Nat → Prop}

/- The bytes a patch at this address takes, read off the code the target started with;
where that code has no whole instructions, all that is ever read of it. -/
def reach (isa : Isa) (disasm : Disassembler) (original : Memory) (addr : Nat) : Nat :=
  (entrySpan isa disasm true original addr).getD probeOrigCodeMax

def newTarget (w : World) (c : Call) : Option (Name × Nat) := match c.op with
  | .start name _ => if probeFindBySymbol w.session name = none
      then c.outcome.lookup.map fun found => (name.take (probeSymbolMax - 1),found.2) else none
  | _ => none

def Separate (isa : Isa) (disasm : Disassembler) (original : Memory) (w : World)
    (c : Call) : Prop :=
  ∀ symbol addr, newTarget w c = some (symbol,addr) → ∀ j, (w.probe j).live →
    (w.probe j).target.symbol ≠ symbol →
    Disjoint addr (reach isa disasm original addr)
      (w.probe j).target.remoteAddr (reach isa disasm original (w.probe j).target.remoteAddr)

def EveryStep (P : World → Call → Prop) (isa : Isa) (disasm : Disassembler) :
    World → List Call → Prop
  | _,[] => True
  | w,c::rest => P w c ∧ EveryStep P isa disasm (runOp isa disasm w c.op c.outcome c.each).1 rest

structure Spread (isa : Isa) (disasm : Disassembler) (original : Memory) (known : Name → Nat → Prop)
    (w : World) : Prop where
  settled : Settled isa original known w
  lengths : ∀ r ∈ w.prepared, entrySpan isa disasm true original r.addr = some r.len
  reaches : ∀ i j, i ≠ j → (w.probe i).live → (w.probe j).live →
    Disjoint (w.probe i).target.remoteAddr (reach isa disasm original (w.probe i).target.remoteAddr)
      (w.probe j).target.remoteAddr (reach isa disasm original (w.probe j).target.remoteAddr)

theorem spanStatic {opened text addr len} (lawful : Local disasm)
    (same : ∀ a, Inside addr (reach isa disasm original addr) a → text a = original a)
    (span : entrySpan isa disasm opened text addr = some len) :
    entrySpan isa disasm true original addr = some len := by
  cases found : entrySpan isa disasm true original addr with
  | none =>
    rw [reach,found,Option.getD_none] at same
    rw [← found]
    exact spanLocal lawful span (by simp) (by rw [readSame same])
  | some n =>
    rw [reach,found,Option.getD_some] at same
    have now : entrySpan isa disasm true text addr = some n :=
      spanLocal lawful found (by simp) (takeSame _ fun a inside => (same a inside).symm)
    have measured : entrySpan isa disasm true text addr = some len := spanLocal lawful span rfl rfl
    exact now.symm.trans measured

theorem spanLong {code opened minLen n}
    (found : calcPatchSpan isa disasm opened code minLen = some n) : minLen ≤ n := by
  have sizes : ∀ l total, spanOf minLen total l = some n → minLen ≤ n := by
    intro l
    induction l with
    | nil => intro total bad; cases bad
    | cons size rest ih =>
      intro total got
      simp only [spanOf] at got
      split at got
      · cases got; assumption
      · exact ih _ got
  unfold calcPatchSpan at found
  split at found
  · cases found
  · cases isa with
    | x86_64 =>
      dsimp only at found
      split at found
      · exact sizes _ 0 found
      · cases found
    | aarch64 =>
      dsimp only at found
      split at found
      · cases found
      · cases found; omega

theorem reachLong (isa disasm original addr) : probePatchLen isa ≤
    reach isa disasm original addr := by
  unfold reach
  cases found : entrySpan isa disasm true original addr with
  | none => cases isa <;> decide
  | some n => exact spanLong found

section Step
variable {c : Call}

/- What is known of a target after the step: it was registered before, or it is the new one. -/
def Traced (known : Name → Nat → Prop) (w : World) (c : Call) (symbol : Name) (addr : Nat) : Prop :=
  known symbol addr ∧
    ((∃ j, (w.probe j).live ∧ (w.probe j).target.symbol = symbol ∧
      (w.probe j).target.remoteAddr = addr) ∨
      newTarget w c = some (symbol,addr))

theorem tracedSettled
    (h : Settled isa original known w) : Settled isa original (Traced known w c) w := by
  refine ⟨h.sound,fun i live => ?_,h.closed⟩
  obtain ⟨calm,looked,listed⟩ := h.rest i live
  exact ⟨calm,⟨looked,.inl ⟨i,live,rfl,rfl⟩⟩,listed⟩

theorem tracedSeeks (seeks : Seeks known w c.outcome c.op) :
    Seeks (Traced known w c) w c.outcome c.op := by
  obtain ⟨op,o,each⟩ := c
  cases op with
  | start name filter =>
    intro absent module addr found
    refine ⟨seeks absent module addr found,.inr ?_⟩
    have look : o.lookup = some (module,addr) := found
    simp [newTarget,absent,look]
  | _ => exact trivial

/- A target that the step knows meets no registered probe of another name. -/
theorem tracedApart (h : Spread isa disasm original known w)
    (separate : Separate isa disasm original w c) {symbol addr j}
    (traced : Traced known w c symbol addr) (live : (w.probe j).live)
    (differ : (w.probe j).target.symbol ≠ symbol) :
    Disjoint addr (reach isa disasm original addr)
      (w.probe j).target.remoteAddr (reach isa disasm original (w.probe j).target.remoteAddr) := by
  obtain ⟨_,⟨k,alive,rfl,rfl⟩ | new⟩ := traced
  · exact h.reaches k j (fun same => differ (by rw [same])) alive live
  · exact separate symbol addr new j live differ

theorem installedReach (h : Spread isa disasm original known w) {j} (now : (w.probe j).installed) :
    reach isa disasm original (w.probe j).target.remoteAddr = (w.probe j).origLen := by
  have listed := (h.settled.sound.texts.saved j now.1 (.inr now.2)).1
  have span := h.lengths _ listed
  simp only [regionOf] at span
  rw [reach,span,Option.getD_some]

theorem measuredStatic (lawful : Local disasm) (h : Spread isa disasm original known w)
    (separate : Separate isa disasm original w c) {q}
    (measured : Measured isa disasm (Traced known w c) w c.outcome q) :
    entrySpan isa disasm true original q.addr = some q.len := by
  have texts := h.settled.sound.texts
  refine spanStatic lawful (fun a inside => texts.kept a fun j now there => ?_) measured.span
  have far := tracedApart h separate measured.looked now.1 (measured.own j now)
  refine far a inside ⟨there.1,?_⟩
  have long := (texts.patched j now).1
  have := there.2
  rw [installedReach h now]
  omega

theorem grownMore {known' : Name → Nat → Prop} {after q} (grown : Grown isa disasm known' w o after)
    (same : after = w.prepared ++ [q]) : Measured isa disasm known' w o q := by
  cases grown with
  | same => simp at same
  | more measured =>
    have equal := List.append_cancel_left same
    cases equal
    exact measured

theorem stepRoom (lawful : Local disasm) (h : Spread isa disasm original known w)
    (separate : Separate isa disasm original w c) {after}
    (grown : Grown isa disasm (Traced known w c) w c.outcome after) : Room w after := by
  intro q same j now differ
  have measured := grownMore grown same
  have far := tracedApart h separate measured.looked now.1 differ
  have span := measuredStatic lawful h separate measured
  rwa [installedReach h now,reach,span,Option.getD_some] at far

theorem stepSpread (lawful : Local disasm) (h : Spread isa disasm original known w)
    (seeks : Seeks known w c.outcome c.op) (stops : Quits c.outcome c.op → Clean c.each)
    (separate : Separate isa disasm original w c) :
    Spread isa disasm original known (runOp isa disasm w c.op c.outcome c.each).1 := by
  obtain ⟨grown,settles⟩ :=
    @opSettled isa disasm original w c.outcome (Traced known w c) c.each c.op
    (tracedSettled h.settled) (tracedSeeks seeks) stops
  have settled := settles (stepRoom lawful h separate grown)
  generalize (runOp isa disasm w c.op c.outcome c.each).1 = w' at grown settled
  refine ⟨⟨settled.sound,fun i live => ?_,settled.closed⟩,fun r member => ?_,
    fun i j other live live' => ?_⟩
  · obtain ⟨calm,looked,listed⟩ := settled.rest i live
    exact ⟨calm,looked.1,listed⟩
  · generalize w'.prepared = after at grown member
    cases grown with
    | same => exact h.lengths r member
    | more measured =>
      rcases List.mem_append.mp member with old | new
      · exact h.lengths r old
      · cases List.mem_singleton.mp new
        exact measuredStatic lawful h separate measured
  · -- Each of the two was there before or is new, and they are not both new.
    have differ : (w'.probe i).target.symbol ≠ (w'.probe j).target.symbol := fun same =>
      other (settled.sound.entries.symbols i j live live' same)
    have mine := (settled.rest i live).looked
    have theirs := (settled.rest j live').looked
    obtain ⟨_,⟨k,alive,symbol,addr⟩ | new⟩ := theirs
    · rw [← addr]
      exact tracedApart h separate mine alive (by rw [symbol]; exact differ.symm)
    · obtain ⟨_,⟨k,alive,symbol,addr⟩ | new'⟩ := mine
      · rw [← addr]
        exact disjointSymm (separate _ _ new k alive (by rw [symbol]; exact differ))
      · rw [new] at new'
        have same := congrArg Prod.fst (Option.some.inj new')
        exact absurd same.symm differ

end Step

theorem runSpread {calls : List Call} (lawful : Local disasm)
    (h : Spread isa disasm original known w)
    (seeks : ∀ c ∈ calls, ∀ w', Seeks known w' c.outcome c.op)
    (stops : ∀ c ∈ calls, Quits c.outcome c.op → Clean c.each)
    (separate : EveryStep (Separate isa disasm original) isa disasm w calls) :
    Spread isa disasm original known (runCalls isa disasm w calls) := by
  induction calls generalizing w with
  | nil => exact h
  | cons c rest ih =>
    obtain ⟨here,later⟩ := separate
    have next := stepSpread lawful h (seeks c (.head _) w) (stops c (.head _)) here
    exact ih next (fun d member => seeks d (.tail _ member))
      (fun d member => stops d (.tail _ member)) later

theorem initSpread (isa : Isa) (disasm : Disassembler) (original : Memory)
    (known : Name → Nat → Prop) :
    Spread isa disasm original known (World.init original) := by
  have settled := initSettled isa original known
  refine ⟨settled,fun r member => ?_,fun i _ _ live => absurd live (settled.closed rfl i)⟩
  cases member

/-- As long as no new name meets the code of a registered probe, and no stop leaves a
patch behind, the regions of two registered probes never meet and the bytes saved for
each are the target's own. -/
theorem registeredRegionsDisjoint (isa : Isa) (disasm : Disassembler) (original : Memory)
    (calls : List Call)
    (lawful : Local disasm) (stops : ∀ c ∈ calls, Quits c.outcome c.op → Clean c.each)
    (separate : EveryStep (Separate isa disasm original) isa disasm (World.init original) calls) :
    let w := runCalls isa disasm (World.init original) calls
    (∀ i j, i ≠ j → (w.probe i).live → (w.probe j).live →
      Disjoint (w.probe i).target.remoteAddr (w.probe i).origLen (w.probe j).target.remoteAddr
        (w.probe j).origLen) ∧
    ∀ i, (w.probe i).live → (w.probe i).origCode.take (w.probe i).origLen =
      read original (w.probe i).target.remoteAddr (w.probe i).origLen := by
  have spread := runSpread lawful (initSpread isa disasm original fun _ _ => True)
    (fun c _ w' => everywhere w' c.outcome c.op) stops separate
  dsimp only
  generalize runCalls isa disasm (World.init original) calls = w at spread ⊢
  have short : ∀ i, (w.probe i).live →
      (w.probe i).origLen ≤ reach isa disasm original (w.probe i).target.remoteAddr := by
    intro i live
    rcases (spread.settled.rest i live).listed with zero | ⟨listed,_⟩
    · omega
    · have span := spread.lengths _ listed
      simp only [regionOf] at span
      rw [reach,span,Option.getD_some]
  refine ⟨fun i j other live live' a here there => ?_,fun i live => ?_⟩
  · have mine := short i live
    have theirs := short j live'
    have := here.2
    have := there.2
    exact spread.reaches i j other live live' a ⟨here.1,by omega⟩ ⟨there.1,by omega⟩
  · rcases (spread.settled.rest i live).listed with zero | ⟨_,bytes⟩
    · rw [zero]; rfl
    · exact bytes

theorem localNothing : Local fun _ => [] := by
  intro minLen code code' n found
  cases found

theorem twoStops : ∀ c ∈ twoTraced, Quits c.outcome c.op → Clean c.each := by
  intro c member _
  simp only [twoTraced,List.mem_cons,List.not_mem_nil,or_false] at member
  rcases member with rfl | rfl | rfl <;> exact fun _ => ⟨rfl,rfl⟩

theorem twoSeparate :
    EveryStep (Separate .aarch64 (fun _ => []) counting) .aarch64 (fun _ => [])
      (World.init counting) twoTraced := by
  refine ⟨fun symbol addr _ j live => ?_,fun symbol addr new j live _ => ?_,fun symbol addr new =>
    ?_,trivial⟩
  · exact absurd live ((initSettled .aarch64 counting fun _ _ => True).closed rfl j)
  · have first : ∀ j,
      ((runCalls .aarch64 (fun _ => []) (World.init counting) (twoTraced.take 1)).probe j).probeId ≠
      0 →
        ((runCalls .aarch64 (fun _ => []) (World.init counting) (twoTraced.take 1)).probe
          j).target.remoteAddr = 0x1000 := by
      decide +kernel
    have there : newTarget
        (runCalls .aarch64 (fun _ => []) (World.init counting) (twoTraced.take 1))
        ⟨.start ['g'] none,smooth 0x2000,fun _ => smooth 0⟩ = some (['g'],0x2000) := by
          decide +kernel
    have short : reach .aarch64 (fun _ => []) counting 0x1000 = 16 ∧
        reach .aarch64 (fun _ => []) counting 0x2000 = 16 := by
      decide +kernel
    have second : 0x2000 = addr := congrArg Prod.snd (Option.some.inj (there.symm.trans new))
    have far : ∀ b, b = 0x1000 →
        Disjoint addr (reach .aarch64 (fun _ => []) counting addr) b
          (reach .aarch64 (fun _ => []) counting b) := by
      intro b same a here low
      subst same
      rw [← second,short.2] at here
      rw [short.1] at low
      have := here.1
      have := low.2
      omega
    exact far _ (first j live)
  · cases new

theorem twoRegionsDisjoint :
    let w := runCalls .aarch64 (fun _ => []) (World.init counting) twoTraced
    (w.probe 0).live ∧ (w.probe 1).live ∧
    Disjoint (w.probe 0).target.remoteAddr (w.probe 0).origLen (w.probe 1).target.remoteAddr
      (w.probe 1).origLen := by
  have disjoint := (registeredRegionsDisjoint .aarch64 (fun _ => []) counting twoTraced localNothing
      twoStops twoSeparate).1
  have live : ((runCalls .aarch64 (fun _ => []) (World.init counting) twoTraced).probe 0).live ∧
      ((runCalls .aarch64 (fun _ => []) (World.init counting) twoTraced).probe 1).live := by
    simp only [Probe.live]
    decide +kernel
  exact ⟨live.1,live.2,disjoint 0 1 (by decide) live.1 live.2⟩

def aliased : List Call :=
  [⟨.start ['o','p','e','n'] none,smooth 0x1000,fun _ => smooth 0⟩,
    ⟨.start ['o','p','e','n','6','4'] none,smooth 0x1000,fun _ => smooth 0⟩]

/- The second saves the jump of the first. -/
theorem aliasSavesJump :
    let w := runCalls .aarch64 (fun _ => []) (World.init counting) aliased
    (w.probe 0).installed ∧ (w.probe 1).installed ∧
    ¬ Disjoint (w.probe 0).target.remoteAddr (w.probe 0).origLen (w.probe 1).target.remoteAddr
      (w.probe 1).origLen ∧
    (w.probe 1).origCode.take (w.probe 1).origLen =
      jumpPatch .aarch64 (w.probe 0).trampolineAddr := by
  dsimp only
  have facts : let w := runCalls .aarch64 (fun _ => []) (World.init counting) aliased
      ((w.probe 0).probeId ≠ 0 ∧ (w.probe 0).state = .installed) ∧
        ((w.probe 1).probeId ≠ 0 ∧ (w.probe 1).state = .installed) ∧
      (Inside (w.probe 0).target.remoteAddr (w.probe 0).origLen 0x1000 ∧
        Inside (w.probe 1).target.remoteAddr (w.probe 1).origLen 0x1000) ∧
      (w.probe 1).origCode.take (w.probe 1).origLen =
        jumpPatch .aarch64 (w.probe 0).trampolineAddr := by
    decide +kernel
  obtain ⟨first,second,⟨here,there⟩,code⟩ := facts
  exact ⟨first,second,fun apart => apart 0x1000 here there,code⟩

/-! Jumps that outlive their slot. -/

/- The slot the jump goes to is mapped, used, and its owner is registered. -/
def Owned (w : World) (target : UInt64) : Prop :=
  ∃ i s, (w.probe i).live ∧ slotValid (w.probe i).trampolineSlot = some s ∧
    (w.probe i).trampolineAddr = target ∧
    w.runtime.pool.remoteAddr ≠ 0 ∧ w.runtime.pool.slotUsed s = true ∧
      poolSlotAddr w.runtime.pool s = target

theorem installedOwned (h : Slots w) {i} (now : (w.probe i).installed) :
    Owned w (w.probe i).trampolineAddr := by
  have owns := h.owned i now.1
  unfold Owns at owns
  cases valid : slotValid (w.probe i).trampolineSlot with
  | none =>
    simp only [valid] at owns
    exact absurd now.2 owns.2
  | some s =>
    simp only [valid] at owns
    exact ⟨i,s,now.1,valid,rfl,owns.1,owns.2.1,owns.2.2.1.symm⟩

/- The bytes that a jump at this address would take are partly the jump of an installed
probe at another address. -/
def Cut (isa : Isa) (w : World) (entry : Nat) : Prop :=
  ∃ j, (w.probe j).installed ∧ (w.probe j).target.remoteAddr ≠ entry ∧
    ¬ Disjoint entry (probePatchLen isa) (w.probe j).target.remoteAddr (probePatchLen isa)

theorem changedOwned (h : Sound isa original w) {a} (changed : w.text a ≠ original a) :
    ∃ i, (w.probe i).installed ∧ Inside (w.probe i).target.remoteAddr (probePatchLen isa) a ∧
      Holds w.text (w.probe i).target.remoteAddr (jumpPatch isa (w.probe i).trampolineAddr) ∧
      Owned w (w.probe i).trampolineAddr := by
  by_contra none
  refine changed (h.texts.kept a fun i now there =>
    none ⟨i,now,there,?_,installedOwned h.slots now⟩)
  exact (h.texts.patched i now).2

theorem heldOwned (h : Sound isa original w) {entry target}
    (held : Holds w.text entry (jumpPatch isa target))
    (fresh : ¬ Holds original entry (jumpPatch isa target)) : Owned w target ∨ Cut isa w entry := by
  by_cases patched : ∃ i, (w.probe i).installed ∧ (w.probe i).target.remoteAddr = entry
  · obtain ⟨i,now,same⟩ := patched
    have jump := (h.texts.patched i now).2
    rw [same] at jump
    have equal : jumpPatch isa target = jumpPatch isa (w.probe i).trampolineAddr := by
      rw [← held,← jump,jumpLength,jumpLength]
    rw [jumpInj equal]
    exact .inl (installedOwned h.slots now)
  · -- No jump was written here, so some byte of it is another probe's.
    by_contra neither
    refine fresh (holdsSame (fun a inside => h.texts.kept a fun j now there => ?_) held)
    rw [jumpLength] at inside
    have other : (w.probe j).target.remoteAddr ≠ entry := fun same => patched ⟨j,now,same⟩
    exact neither (.inr ⟨j,now,other,fun apart => apart a inside there⟩)

theorem registeredUncut (h : Spread isa disasm original known w) {i} (live : (w.probe i).live) :
    ¬ Cut isa w (w.probe i).target.remoteAddr := by
  rintro ⟨j,now,other,meets⟩
  have far := h.reaches i j (fun same => other (by rw [same])) live now.1
  rw [installedReach h now] at far
  have long := reachLong isa disasm original (w.probe i).target.remoteAddr
  have taken := (h.settled.sound.texts.patched j now).1
  refine meets fun a inside there => far a ⟨inside.1,?_⟩ ⟨there.1,?_⟩
  · have := inside.2
    omega
  · have := there.2
    omega

/-- As long as no stop leaves a patch behind and no new name meets the code of a registered
probe, every byte that the target did not have itself is part of an installed probe's
jump, to a slot with a registered owner; so is every whole jump that can be read anywhere,
unless it is cut out of another probe's, and none is at a registered probe's entry. -/
theorem jumpsOwned (isa : Isa) (disasm : Disassembler) (original : Memory) (calls : List Call)
    (lawful : Local disasm) (stops : ∀ c ∈ calls, Quits c.outcome c.op → Clean c.each)
    (separate : EveryStep (Separate isa disasm original) isa disasm (World.init original) calls) :
    let w := runCalls isa disasm (World.init original) calls
    (∀ a, w.text a ≠ original a → ∃ i, (w.probe i).installed ∧
      Inside (w.probe i).target.remoteAddr (probePatchLen isa) a ∧
      Holds w.text (w.probe i).target.remoteAddr (jumpPatch isa (w.probe i).trampolineAddr) ∧
      Owned w (w.probe i).trampolineAddr) ∧
    (∀ entry target, Holds w.text entry (jumpPatch isa target) →
      ¬ Holds original entry (jumpPatch isa target) → Owned w target ∨ Cut isa w entry) ∧
    ∀ i, (w.probe i).live → ¬ Cut isa w (w.probe i).target.remoteAddr := by
  have spread := runSpread lawful (initSpread isa disasm original fun _ _ => True)
    (fun c _ w' => everywhere w' c.outcome c.op) stops separate
  have sound := spread.settled.sound
  exact ⟨fun a changed => changedOwned sound changed,
    fun entry target held fresh => heldOwned sound held fresh,
      fun i live => registeredUncut spread live⟩

theorem secondJumpOwned :
    Owned (runCalls .aarch64 (fun _ => []) (World.init counting) twoTraced) 0x10200 := by
  obtain ⟨_,jumps,uncut⟩ :=
    jumpsOwned .aarch64 (fun _ => []) counting twoTraced localNothing twoStops twoSeparate
  have second : ((runCalls .aarch64 (fun _ => []) (World.init counting) twoTraced).probe
      1).probeId ≠ 0 ∧
      ((runCalls .aarch64 (fun _ => []) (World.init counting) twoTraced).probe
        1).target.remoteAddr = 0x2000 := by
    decide +kernel
  have whole := uncut 1 second.1
  rw [second.2] at whole
  exact (jumps 0x2000 0x10200 (by decide +kernel) (by decide +kernel)).resolve_right whole

/- One function is traced and the shutdown cannot write its bytes back. -/
def unrestored : List Call :=
  [⟨.start ['f'] none,smooth 0x1000,fun _ => smooth 0⟩,
    ⟨.shutdown,smooth 0,fun _ => { smooth 0 with restore := false }⟩]

theorem stopLeavesJump :
    let w := runCalls .aarch64 (fun _ => []) (World.init counting) unrestored
    ((runCalls .aarch64 (fun _ => []) (World.init counting) (unrestored.take 1)).probe
      0).target.remoteAddr = 0x1000 ∧
    Holds w.text 0x1000 (jumpPatch .aarch64 0x10000) ∧
      ¬ Holds counting 0x1000 (jumpPatch .aarch64 0x10000) ∧
    ¬ Owned w 0x10000 ∧ ¬ Cut .aarch64 w 0x1000 := by
  have forgotten : ∀ i,
      ((runCalls .aarch64 (fun _ => []) (World.init counting) unrestored).probe i).probeId = 0 := by
    decide +kernel
  refine ⟨by decide +kernel,by decide +kernel,by decide +kernel,fun owned => ?_,fun cut => ?_⟩
  · obtain ⟨i,_,live,_⟩ := owned
    exact live (forgotten i)
  · obtain ⟨i,now,_⟩ := cut
    exact now.1 (forgotten i)

end ZeroTrace.ProbeOverlap
