import ZeroTrace.ProbeText

/-! Names and probes over any order of registrations and removals. A name is compared whole at
first and cut to its array afterwards, and the table keeps the cut one. -/
namespace ZeroTrace.SymbolRegistry
open ProbeTable ProbeInvariant

/- What is done to the table. An edit stands for the other operations: they leave the identifier
and the target of an entry alone. -/
inductive TableOp where
  | register (name : Name)
  | unregister (id : Nat)
  | edit (i : Fin 32) (p : Probe)

/- What the target's names resolve to at one moment: a module and an address, or nothing.
A library that is loaded or unloaded changes it. -/
abbrev Lookup := Name → Option (Name × Nat)

variable (resolve : Lookup)

def stepTable (s : Session) : TableOp → Session
  | .register name => (registerProbe s name (resolve name)).1
  | .unregister id => (unregisterProbe s id).1
  | .edit i p => if (s.probes i).probeId ≠ 0 ∧ p.probeId = (s.probes i).probeId ∧
      p.target = (s.probes i).target then s.set i p else s

def runTable (s : Session) (steps : List (Lookup × TableOp)) : Session :=
  steps.foldl (fun s step => stepTable step.1 s step.2) s

/- The probe of the symbol, in a table that has each only once. -/
structure Yields (s : Session) (name : Name) (i : Fin 32) : Prop where
  resolved : ∃ path, resolve name = some (path,(s.probes i).target.remoteAddr)
  found : probeFindBySymbol s name = some i
  ids : ∀ j k, (s.probes j).live → (s.probes k).live →
    (s.probes j).probeId = (s.probes k).probeId → j = k
  names : ∀ j k, (s.probes j).live → (s.probes k).live →
    (s.probes j).target.symbol = (s.probes k).target.symbol → j = k
  counted : s.probeCount = ((List.finRange 32).filter fun j => (s.probes j).probeId != 0).length

/- If the registration succeeds, it has given the probe of that name. -/
def RegistersIt (s : Session) (name : Name) : Prop :=
  ∀ s' i, registerProbe s name (resolve name) = (s',some i) → Yields resolve s' name i

def Short (name : Name) : Prop := name.length < probeSymbolMax

def TableOp.short : TableOp → Prop
  | .register name => Short name
  | _ => True

def Kept (before : Lookup) (s : Session) (now : Lookup) : Prop :=
  ∀ i, (s.probes i).live → now (s.probes i).target.symbol = before (s.probes i).target.symbol

/- Only short names are registered, and none that is in the table comes to resolve to
anything else while it is there. -/
def Steady : Lookup → Session → List (Lookup × TableOp) → Lookup → Prop
  | before,s,[],now => Kept before s now
  | before,s,(resolve,op)::rest,now => Kept before s resolve ∧ op.short ∧
      Steady resolve (stepTable resolve s op) rest now

variable {resolve} {s : Session} {name : Name} {i : Fin 32}

inductive Given (s : Session) (name : Name) (lookup : Option (Name × Nat)) :
    Session × Option (Fin 32) → Prop where
  | refused : Given s name lookup (s,none)
  | known {i : Fin 32} (live : (s.probes i).live)
      (symbol : (s.probes i).target.symbol = name ∨ (s.probes i).target.symbol =
        name.take (probeSymbolMax - 1)) : Given s name lookup (s,some i)
  | fresh {i : Fin 32} {path path' addr} (looked : lookup = some (path,addr))
      (free : (s.probes i).probeId = 0)
      (new : ∀ j, (s.probes j).live → (s.probes j).target.symbol ≠ name.take (probeSymbolMax - 1)) :
      Given s name lookup
        (⟨(takeProbeId s.nextProbeId).2,s.probeCount + 1,
          (s.set i (freshProbe (takeProbeId s.nextProbeId).1 ⟨name.take (probeSymbolMax - 1),path',
            addr⟩)).probes⟩,some i)

theorem given (s : Session) (name : Name) (lookup : Option (Name × Nat)) :
    Given s name lookup (registerProbe s name lookup) := by
  unfold registerProbe
  split
  · next i found => exact .known (findBySymbolSome found).1 (.inl (findBySymbolSome found).2)
  · split
    · exact .refused
    · next target resolved =>
      obtain ⟨⟨path,addr⟩,looked,rfl⟩ := Option.map_eq_some_iff.mp resolved
      unfold probeAlloc
      split
      · exact .refused
      · split
        · next i known => exact .known (findBySymbolSome known).1 (.inr (findBySymbolSome known).2)
        · next cut =>
          split
          · exact .refused
          · next i free => exact .fresh looked (freeSome free) fun j live =>
              findBySymbolNone cut live

/-! Every table: the entries are unique and counted, and no symbol is longer than its array. -/
def All (P : Probe → Prop) (s : Session) : Prop := ∀ i, (s.probes i).live → P (s.probes i)

structure Table (s : Session) : Prop where
  entries : Entries s
  cut : All (fun p => Short p.target.symbol) s

theorem takeShort (name : Name) : Short (name.take (probeSymbolMax - 1)) := by
  rw [Short,List.length_take]
  exact Nat.lt_of_le_of_lt (Nat.min_le_left _ _) (by decide)

theorem changedAll {P : Probe → Prop} {p : Probe} {s' : Session} (all : All P s)
    (here : p.live → P p)
    (probes : s'.probes = Function.update s.probes i p) : All P s' := by
  intro j live
  rw [probes] at live ⊢
  by_cases same : j = i
  · subst same
    rw [Function.update_self] at live ⊢
    exact here live
  · rw [Function.update_of_ne same] at live ⊢
    exact all j live

theorem unregistered (s : Session) (id : Nat) : (unregisterProbe s id).1 = s ∨
    ∃ i, (s.probes i).live ∧
      (unregisterProbe s id).1 = { s.set i .zero with probeCount := s.probeCount - 1 } := by
  unfold unregisterProbe
  cases found : probeFindById s id with
  | none => exact .inl rfl
  | some i =>
    obtain ⟨nonzero,mine⟩ := findByIdSome found
    exact .inr ⟨i,fun zero => nonzero (mine.symm.trans zero),rfl⟩

theorem edited (s : Session) (i : Fin 32) (p : Probe) : stepTable resolve s (.edit i p) = s ∨
    (s.probes i).live ∧ p.probeId = (s.probes i).probeId ∧ p.target = (s.probes i).target ∧
      stepTable resolve s (.edit i p) = s.set i p := by
  rw [stepTable]
  split
  · next same => exact .inr ⟨same.1,same.2.1,same.2.2,rfl⟩
  · exact .inl rfl

theorem givenTable {r : Session × Option (Fin 32)} {lookup : Option (Name × Nat)} (h : Table s)
    (got : Given s name lookup r) : Table r.1 := by
  cases got with
  | refused => exact h
  | known => exact h
  | @fresh i path path' addr looked free new =>
    have entries := @entriesFresh s i ⟨name.take (probeSymbolMax - 1),path',addr⟩ h.entries free new
    rw [freshId h.entries]
    exact ⟨entries,changedAll h.cut (fun _ => takeShort name) rfl⟩

theorem zeroDead : ¬ Probe.zero.live := fun live => live rfl

theorem stepKeeps (h : Table s) (op : TableOp) : Table (stepTable resolve s op) := by
  cases op with
  | register name => exact givenTable h (given s name (resolve name))
  | unregister id =>
    rw [stepTable]
    rcases unregistered s id with same | ⟨i,live,gone⟩
    · rw [same]; exact h
    · rw [gone]
      exact ⟨entriesGone h.entries live,changedAll h.cut (fun bad => absurd bad zeroDead) rfl⟩
  | edit i p =>
    rcases @edited resolve s i p with same | ⟨live,id,target,changed⟩
    · rw [same]; exact h
    · rw [changed]
      refine ⟨entriesSet h.entries id (congrArg SymbolTarget.symbol target),
        changedAll h.cut (fun _ => ?_) rfl⟩
      rw [target]
      exact h.cut i live

theorem runKeeps (h : Table s) (steps : List (Lookup × TableOp)) : Table (runTable s steps) := by
  induction steps generalizing s with
  | nil => exact h
  | cons step steps ih => exact ih (stepKeeps h step.2)

theorem initTable : Table .init :=
  ⟨(ProbeText.initSettled .aarch64 (fun _ => 0) fun _ _ => True).sound.entries,
    fun _ live => absurd live zeroDead⟩

/-! Tables that only short names have been put into: the address is that of the symbol. -/
def Truthful (resolve : Lookup) : Session → Prop :=
  All fun p => ∃ path, resolve p.target.symbol = some (path,p.target.remoteAddr)

theorem givenTruthful {r : Session × Option (Fin 32)} (h : Truthful resolve s) (short : Short name)
    (got : Given s name (resolve name) r) :
    Truthful resolve r.1 := by
  cases got with
  | refused => exact h
  | known => exact h
  | @fresh i path path' addr looked free new =>
    have whole : name.take (probeSymbolMax - 1) = name :=
      List.take_of_length_le (Nat.le_sub_one_of_lt short)
    refine changedAll h (fun _ => ⟨path,?_⟩) rfl
    simp only [freshProbe,whole]
    exact looked

theorem stepTruthful (h : Truthful resolve s) {op : TableOp} (short : op.short) :
    Truthful resolve (stepTable resolve s op) := by
  cases op with
  | register name => exact givenTruthful h short (given s name (resolve name))
  | unregister id =>
    rw [stepTable]
    rcases unregistered s id with same | ⟨i,live,gone⟩
    · rw [same]; exact h
    · rw [gone]
      exact changedAll h (fun bad => absurd bad zeroDead) rfl
  | edit i p =>
    rcases @edited resolve s i p with same | ⟨live,_,target,changed⟩
    · rw [same]; exact h
    · rw [changed]
      refine changedAll h (fun _ => ?_) rfl
      rw [target]
      exact h i live

theorem keptTruthful {before now : Lookup} (h : Truthful before s)
    (kept : Kept before s now) : Truthful now s := by
  intro i live
  obtain ⟨path,known⟩ := h i live
  exact ⟨path,(kept i live).trans known⟩

theorem runTruthful {before now : Lookup} {steps : List (Lookup × TableOp)} (h : Truthful before s)
    (steady : Steady before s steps now) :
    Truthful now (runTable s steps) := by
  induction steps generalizing before s with
  | nil => exact keptTruthful h steady
  | cons step steps ih =>
    obtain ⟨kept,short,rest⟩ := steady
    exact ih (stepTruthful (keptTruthful h kept) short) rest

theorem findsOnly (h : Entries s) (live : (s.probes i).live)
    (symbol : (s.probes i).target.symbol = name) : probeFindBySymbol s name = some i := by
  cases found : probeFindBySymbol s name with
  | none => exact absurd symbol (findBySymbolNone found live)
  | some j =>
    obtain ⟨live',symbol'⟩ := findBySymbolSome found
    rw [h.symbols j i live' live (symbol'.trans symbol.symm)]

theorem givenLive {s' : Session} {lookup : Option (Name × Nat)} (h : Entries s) (short : Short name)
    (got : Given s name lookup (s',some i)) :
    (s'.probes i).live ∧ (s'.probes i).target.symbol = name := by
  have whole : name.take (probeSymbolMax - 1) = name :=
    List.take_of_length_le (Nat.le_sub_one_of_lt short)
  cases got with
  | known live symbol => exact ⟨live,symbol.elim id fun cut => cut.trans whole⟩
  | fresh looked free new =>
    rw [setSame,freshId h]
    exact ⟨Nat.pos_iff_ne_zero.mp h.below.1,whole⟩

theorem shortYields (table : Table s) (truthful : Truthful resolve s) (short : Short name) :
    RegistersIt resolve s name := by
  intro s' i got
  have all := given s name (resolve name)
  rw [got] at all
  have table' := givenTable table all
  obtain ⟨live,symbol⟩ := givenLive table.entries short all
  refine ⟨?_,findsOnly table'.entries live symbol,fun j k live _ => table'.entries.ids j k live,
    table'.entries.symbols,table'.entries.counted⟩
  obtain ⟨path,known⟩ := givenTruthful truthful short all i live
  exact ⟨path,symbol ▸ known⟩

/- A longer name is never found again. -/
theorem longLost (table : Table s) (long : ¬ Short name)
    (succeeds : (registerProbe s name (resolve name)).2 ≠ none) :
    ¬ RegistersIt resolve s name := by
  intro registers
  have all := given s name (resolve name)
  generalize same : registerProbe s name (resolve name) = r at all succeeds
  obtain ⟨s',found⟩ := r
  cases found with
  | none => exact succeeds rfl
  | some i =>
    obtain ⟨live,symbol⟩ := findBySymbolSome (registers s' i same).found
    exact long (symbol ▸ (givenTable table all).cut i live)

/- A name in the table that has come to resolve to another address gets the old one. -/
theorem movedLost (h : Entries s) (live : (s.probes i).live)
    (symbol : (s.probes i).target.symbol = name)
    (moved : ∀ path, resolve name ≠ some (path,(s.probes i).target.remoteAddr)) :
    ¬ RegistersIt resolve s name := by
  intro registers
  have known : registerProbe s name (resolve name) = (s,some i) := by
    rw [registerProbe,findsOnly h live symbol]
  obtain ⟨path,same⟩ := (registers s i known).resolved
  exact moved path same

/-- While every name that is registered has less than sixty-four characters, in any order of
registrations and removals, and no name changes what it resolves to while it is in the table,
a registration gives the probe of that name. One of a longer name that succeeds never does,
nor one of a name in the table whose address is another one by now. -/
theorem shortNamesRegistered (now : Lookup) (steps : List (Lookup × TableOp)) (name : Name) :
    (Steady (fun _ => none) .init steps now → name.length < 64 →
      RegistersIt now (runTable .init steps) name) ∧
    (64 ≤ name.length → (registerProbe (runTable .init steps) name (now name)).2 ≠ none →
      ¬ RegistersIt now (runTable .init steps) name) ∧
    ∀ i, ((runTable .init steps).probes i).live → ((runTable .init steps).probes i).target.symbol =
      name →
      (∀ path, now name ≠ some (path,((runTable .init steps).probes i).target.remoteAddr)) →
      ¬ RegistersIt now (runTable .init steps) name := by
  have table := runKeeps initTable steps
  refine ⟨fun steady few => ?_,fun many => ?_,fun i live symbol moved => ?_⟩
  · exact shortYields table (runTruthful (fun _ live => absurd live zeroDead) steady) few
  · exact longLost table (Nat.not_lt.mpr many)
  · exact movedLost table.entries live symbol moved

def twoFunctions : Lookup
  | ['f'] => some (['m'],0x1000)
  | ['g'] => some (['m'],0x2000)
  | _ => none

/- The library with the first one is loaded anew while that is not in the table. -/
def movedFunctions : Lookup
  | ['f'] => some (['m'],0x5000)
  | ['g'] => some (['m'],0x2000)
  | _ => none

def removedOnce : List (Lookup × TableOp) :=
  [(twoFunctions,.register ['f']),(twoFunctions,.register ['g']),(twoFunctions,.unregister 1)]

theorem removedSteady : Steady (fun _ => none) .init removedOnce movedFunctions := by
  have both : ∀ s : Session, Kept twoFunctions s twoFunctions := fun _ _ _ => rfl
  have left : ∀ i, ((runTable .init removedOnce).probes i).probeId ≠ 0 →
      ((runTable .init removedOnce).probes i).target.symbol = ['g'] := by decide +kernel
  refine ⟨fun i live => absurd live zeroDead,(by decide : ['f'].length < 64),both _,
    (by decide : ['g'].length < 64),
    both _,trivial,fun i live => ?_⟩
  have symbol := left i live
  rw [show (stepTable twoFunctions _ (.unregister 1)) = runTable .init removedOnce from rfl,symbol]
  rfl

theorem shortRegisteredAgain :
    (registerProbe (runTable .init removedOnce) ['f'] (movedFunctions ['f'])).2 = some 0 ∧
    RegistersIt movedFunctions (runTable .init removedOnce) ['f'] :=
  ⟨by decide +kernel,
    (shortNamesRegistered movedFunctions removedOnce ['f']).1 removedSteady (by decide)⟩

/- Two names of sixty-four characters that differ in the last one. -/
def mangled (last : Char) : Name := List.replicate 63 'f' ++ [last]

def twoMangled : Lookup := fun name =>
  if name = mangled 'a' then some (['m'],0x1000) else if name = mangled 'b' then
    some (['m'],0x2000) else none

theorem longNamesConfused : twoMangled (mangled 'b') = some (['m'],0x2000) ∧
    ¬ RegistersIt twoMangled (runTable .init [(twoMangled,.register (mangled 'a'))])
      (mangled 'b') := by
  have resolved : twoMangled (mangled 'b') = some (['m'],0x2000) := by decide
  refine ⟨resolved,fun registers => ?_⟩
  generalize before : runTable .init [(twoMangled,.register (mangled 'a'))] = s at registers
  have given : (registerProbe s (mangled 'b') (twoMangled (mangled 'b'))).2 = some 0 ∧
      ((registerProbe s (mangled 'b') (twoMangled (mangled 'b'))).1.probes 0).target.remoteAddr =
        0x1000 := by
    rw [← before]
    decide +kernel
  obtain ⟨path,same⟩ := (registers _ 0 (Prod.ext rfl given.1)).resolved
  rw [given.2,resolved] at same
  cases same

end ZeroTrace.SymbolRegistry
