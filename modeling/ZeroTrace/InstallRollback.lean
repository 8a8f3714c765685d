import ZeroTrace.PoolRuns

/-! An install that fails, at any of its steps and from any state that whole runs lead to,
leaves the tables, the pool and the text as they were. -/
namespace ZeroTrace.InstallRollback
open ByteMemory PatchCode FilterSyntax ProbeTable TrampolinePool ProbeLifecycle ProbeInvariant
  ProbeSteps SlotOwnership PoolRuns ProbeRules
open ProbeOps (Installing installing savedHere slottedHere)
open ProbeText (Call runCalls)

/- As long as the target unmaps what it is asked to, a pool is mapped exactly while a slot of
it is in use. -/
structure Tidy (pool : Pool) : Prop where
  closed : pool.remoteAddr = 0 → pool.slotUsed = fun _ => false
  open_ : pool.remoteAddr ≠ 0 → ∃ s, pool.slotUsed s = true

section Pools
variable {pool pool' : Pool} {p q : Probe} {mmap : Option UInt64} {s : Fin 32}

def SamePool (pool pool' : Pool) : Prop := pool'.remoteAddr = pool.remoteAddr ∧
    pool'.slotUsed = pool.slotUsed

/- The slot and the address of an entry go together, as far as the pool is concerned. -/
def Placed (pool : Pool) (p : Probe) : Prop :=
  p.trampolineSlot = -1 ∧ p.trampolineAddr = 0 ∨
    ∃ s : Fin 32, p.trampolineSlot = s.val ∧ p.trampolineAddr = poolSlotAddr pool s ∧
      pool.remoteAddr ≠ 0 ∧ pool.slotUsed s = true

def withSlot (pool : Pool) (s : Fin 32) : Pool :=
  ⟨pool.remoteAddr,pool.remoteSize,Function.update pool.slotUsed s true⟩

def freshPool (addr : UInt64) : Pool := ⟨addr,poolSize,fun _ => false⟩

inductive Granted (pool : Pool) (p : Probe) : Pool × Probe × Option UInt64 → Prop where
  | refused : Granted pool p (pool,p,none)
  | again : Granted pool p (pool,p,some p.trampolineAddr)
  | slot {base s} (slotless : p.trampolineSlot = -1 ∧ p.trampolineAddr = 0)
      (free : base.slotUsed s = false) (alive : poolSlotAddr base s ≠ 0)
      (from_ : base = pool ∧ pool.remoteAddr ≠ 0 ∨ pool.remoteAddr = 0 ∧
        ∃ addr, base = freshPool addr) :
      Granted pool p (withSlot base s,
        { p with trampolineSlot := s.val, trampolineAddr := poolSlotAddr base s },
        some (poolSlotAddr base s))

theorem freeFound (free : ∃ s, pool.slotUsed s = false) :
    ∃ s, (List.finRange 32).find? (fun i => !pool.slotUsed i) = some s ∧
      pool.slotUsed s = false := by
  obtain ⟨s,unused⟩ := free
  cases first : (List.finRange 32).find? fun i => !pool.slotUsed i with
  | none =>
    have out := List.find?_eq_none.mp first s (List.mem_finRange s)
    simp [unused] at out
  | some t => exact ⟨t,rfl,by simpa using List.find?_some first⟩

theorem granted (placed : Placed pool p) (mapped : pool.remoteAddr ≠ 0 → Mapped pool.remoteAddr)
    (maps : ∀ a, mmap = some a → Mapped a) :
    Granted pool p (poolAlloc pool p mmap) := by
  unfold poolAlloc
  rcases placed with slotless | ⟨s,slot,addr,open_,used⟩
  · have invalid : slotValid p.trampolineSlot = none := by rw [slotless.1]; rfl
    simp only [invalid]
    by_cases closed : pool.remoteAddr = 0
    · cases answer : mmap with
      | none => simpa only [poolEnsure,closed,ne_eq,not_true_eq_false,if_false,Option.map_none]
          using Granted.refused
      | some a =>
        obtain ⟨s,first,free⟩ := @freeFound (freshPool a) ⟨⟨0,by decide⟩,rfl⟩
        have alive : poolSlotAddr (freshPool a) s ≠ 0 := slotAddrLive (maps a answer) s
        simp only [poolEnsure,closed,ne_eq,not_true_eq_false,if_false,Option.map_some]
        simp only [freshPool] at first alive
        simp only [first,poolAssignSlot,if_neg alive]
        exact .slot slotless free alive (.inr ⟨closed,a,rfl⟩)
    · have ensured : poolEnsure pool mmap = some pool := by simp [poolEnsure,closed]
      simp only [ensured]
      split
      · exact .refused
      · next s found =>
        have alive := slotAddrLive (mapped closed) s
        simp only [poolAssignSlot,if_neg alive]
        exact .slot slotless (by simpa using List.find?_some found) alive (.inl ⟨rfl,closed⟩)
  · have valid : slotValid p.trampolineSlot = some s := by rw [slot]; exact slotValidNat s
    have alive := slotAddrLive (mapped open_) s
    have open' : (pool.remoteAddr != 0) = true := by simpa using open_
    have belongs : slotBelongsToProbe pool p s = true := by simp [slotBelongsToProbe,addr,alive]
    have usedAgain : Function.update pool.slotUsed s true = pool.slotUsed := by rw [← used]; simp
    have same : { p with trampolineSlot := (s.val : Int), trampolineAddr := poolSlotAddr pool s } =
        p := by rw [← slot,← addr]
    simp only [valid,open',belongs,Bool.not_true,Bool.and_false,Bool.false_eq_true,if_false,
      poolAssignSlot,if_neg alive,usedAgain,same]
    rw [← addr]
    exact .again

theorem allocTidy {r : Pool × Probe × Option UInt64} (h : Tidy pool)
    (got : Granted pool p r) : Tidy r.1 := by
  cases got with
  | refused => exact h
  | again => exact h
  | @slot base s _ _ alive =>
    have mapped : base.remoteAddr ≠ 0 := fun zero => alive (by simp [poolSlotAddr,zero])
    exact ⟨fun bad => absurd bad mapped,fun _ => ⟨s,by simp [withSlot]⟩⟩

theorem releaseTidy (h : Tidy pool) : Tidy (poolRelease pool p true).1 := by
  unfold poolRelease
  split
  · exact h
  · next s valid =>
    split
    · exact h
    · dsimp only
      split
      · exact ⟨fun _ => rfl,fun bad => absurd rfl bad⟩
      · next kept =>
        refine ⟨fun zero => ?_,fun mapped => ?_⟩
        · funext t
          simp [h.closed zero,Function.update_apply]
        · simp only [ne_eq,mapped,not_false_eq_true,decide_true,Bool.true_and,Bool.and_true,
            Bool.not_eq_true] at kept
          simp only [poolAllFree,List.all_eq_false] at kept
          obtain ⟨t,_,used⟩ := kept
          exact ⟨t,by simpa using used⟩

theorem givenBack {r : Pool × Probe × Option UInt64} (h : Tidy pool) (got : Granted pool p r)
    (slot : q.trampolineSlot = r.2.1.trampolineSlot)
    (addr : q.trampolineAddr = r.2.1.trampolineAddr) :
    SamePool pool (if q.trampolineAddr ≠ 0 ∧ q.trampolineAddr ≠ p.trampolineAddr then
      (poolRelease r.1 q true).1 else r.1) := by
  cases got with
  | refused => rw [if_neg fun bad => bad.2 addr]; exact ⟨rfl,rfl⟩
  | again => rw [if_neg fun bad => bad.2 addr]; exact ⟨rfl,rfl⟩
  | @slot base s slotless free alive from_ =>
    dsimp only at slot addr
    have mapped : base.remoteAddr ≠ 0 := fun zero => alive (by simp [poolSlotAddr,zero])
    have valid : slotValid q.trampolineSlot = some s := by rw [slot]; exact slotValidNat s
    have same : poolSlotAddr (withSlot base s) s = poolSlotAddr base s := rfl
    have belongs : slotBelongsToProbe (withSlot base s) q s = true := by
      simp [slotBelongsToProbe,same,addr,alive]
    have freed : Function.update (withSlot base s).slotUsed s false = base.slotUsed := by
      rw [withSlot,Function.update_idem,← free,Function.update_eq_self]
    rw [if_pos ⟨addr.trans_ne alive,by rw [addr,slotless.2]; exact alive⟩,poolRelease]
    simp only [valid,belongs,Bool.not_true,Bool.and_false,Bool.false_eq_true,if_false,freed]
    rcases from_ with ⟨rfl,open_⟩ | ⟨closed,a,rfl⟩
    · have busy : poolAllFree ⟨base.remoteAddr,base.remoteSize,base.slotUsed⟩ = false := by
        obtain ⟨t,used⟩ := h.open_ open_
        simp only [poolAllFree,List.all_eq_false]
        exact ⟨t,List.mem_finRange t,by simp [used]⟩
      simp only [withSlot,busy,Bool.and_false,Bool.false_and,Bool.false_eq_true,if_false]
      exact ⟨rfl,rfl⟩
    · have all : poolAllFree ⟨a,poolSize,fun _ => false⟩ = true := by simp [poolAllFree]
      have mapped : a ≠ 0 := mapped
      simp only [withSlot,freshPool,all,mapped,ne_eq,not_false_eq_true,decide_true,Bool.and_self,
        if_true]
      exact ⟨closed.symm,(h.closed closed).symm⟩

end Pools

section Rollback
variable {isa : Isa} {disasm : Disassembler} {w w' : World} {o : Outcome} {i : Fin 32}

/- The identifiers may have gone on. -/
structure Unchanged (w w' : World) : Prop where
  probes : w'.session.probes = w.session.probes
  count : w'.session.probeCount = w.session.probeCount
  next : w.session.nextProbeId ≤ w'.session.nextProbeId
  pool : SamePool w.runtime.pool w'.runtime.pool
  text : w'.text = w.text

structure SameEntry (p q : Probe) : Prop where
  id : q.probeId = p.probeId
  target : q.target = p.target
  action : q.callAction = p.callAction
  actionSlot : q.callActionSlot = p.callActionSlot
  callSymbol : q.callSymbol = p.callSymbol

structure Between (i : Fin 32) (w w' : World) : Prop where
  session : w'.session = w.session.set i (w'.probe i)
  entry : SameEntry (w.probe i) (w'.probe i)
  text : w'.text = w.text
  slot : ∃ r, Granted w.runtime.pool (w.probe i) r ∧ w'.runtime.pool = r.1 ∧
    (w'.probe i).trampolineSlot = r.2.1.trampolineSlot ∧
      (w'.probe i).trampolineAddr = r.2.1.trampolineAddr

def rollbackWorld (w : World) (i : Fin 32) (addr : UInt64) (o : Outcome) : World :=
  if (w.probe i).trampolineAddr ≠ 0 ∧ (w.probe i).trampolineAddr ≠ addr then
    releaseSlot w i o else w

theorem releaseEntry (p : Probe) (pool : Pool) (munmap : Bool) :
    SameEntry p (poolRelease pool p munmap).2 := by
  unfold poolRelease
  split
  · exact ⟨rfl,rfl,rfl,rfl,rfl⟩
  · split
    · exact ⟨rfl,rfl,rfl,rfl,rfl⟩
    · exact ⟨rfl,rfl,rfl,rfl,rfl⟩

theorem releasedHere (w : World) (i : Fin 32) (o : Outcome) :
    (releaseSlot w i o).probe i = (poolRelease w.runtime.pool (w.probe i) o.munmapPool).2 := by
  simp [releaseSlot,World.setProbe,World.setPool,World.probe]

theorem sameTrans {p q r : Probe} (first : SameEntry p q)
    (second : SameEntry q r) : SameEntry p r :=
  ⟨second.id.trans first.id,second.target.trans first.target,second.action.trans first.action,
    second.actionSlot.trans first.actionSlot,second.callSymbol.trans first.callSymbol⟩

/- After the slot is given back, the pool is the old one and the entry the old one but for what
the snapshot holds. -/
theorem slotReturned (tidy : Tidy w.runtime.pool) (unmaps : o.munmapPool = true)
    (between : Between i w w') :
    let u := rollbackWorld w' i (w.probe i).trampolineAddr o
    u.session = w.session.set i (u.probe i) ∧ SameEntry (w.probe i) (u.probe i) ∧ u.text = w.text ∧
      SamePool w.runtime.pool u.runtime.pool := by
  obtain ⟨r,got,pool,slot,addr⟩ := between.slot
  have back := givenBack tidy got slot addr
  dsimp only
  unfold rollbackWorld
  split
  · next borrowed =>
    rw [if_pos borrowed] at back
    have here := releasedHere w' i o
    refine ⟨?_,?_,between.text,?_⟩
    · rw [here]
      simp only [releaseSlot,World.setProbe,World.setPool]
      rw [between.session]
      simp [Session.set]
    · rw [here]
      exact sameTrans between.entry (releaseEntry _ _ _)
    · simp only [releaseSlot,World.setProbe,World.setPool]
      rw [unmaps,pool]
      exact back
  · next kept =>
    rw [if_neg kept,← pool] at back
    exact ⟨between.session,between.entry,between.text,back⟩

theorem restoredSame {p q : Probe} (same : SameEntry p q) (existed : Bool) :
    restoredProbe q (captureProbeInstallSnapshot p existed) = p := by
  obtain ⟨id,target,action,actionSlot,callSymbol⟩ := same
  cases p
  cases q
  cases id
  cases target
  cases action
  cases actionSlot
  cases callSymbol
  rfl

theorem rollbackKnown (tidy : Tidy w.runtime.pool) (unmaps : o.munmapPool = true)
    (between : Between i w w') :
    Unchanged w (rollbackProbeInstall w' i (captureProbeInstallSnapshot (w.probe i) true) o) := by
  obtain ⟨session,entry,text,pool⟩ := slotReturned tidy unmaps between
  have eq : rollbackProbeInstall w' i (captureProbeInstallSnapshot (w.probe i) true) o =
      (rollbackWorld w' i (w.probe i).trampolineAddr o).setProbe i
        (restoredProbe ((rollbackWorld w' i (w.probe i).trampolineAddr o).probe i)
          (captureProbeInstallSnapshot (w.probe i) true)) := rfl
  rw [eq,restoredSame entry true]
  generalize rollbackWorld w' i (w.probe i).trampolineAddr o = u at session entry text pool
  have same : (u.setProbe i (w.probe i)).session = w.session := by
    simp only [World.setProbe]
    rw [session]
    simp [Session.set]
  exact ⟨by rw [same],by rw [same],by rw [same],pool,text⟩

/- A new entry is forgotten: where it was, there was nothing. -/
theorem rollbackNew {s : Session} (tidy : Tidy w.runtime.pool) (unmaps : o.munmapPool = true)
    (entries : Entries s)
    (live : (s.probes i).live) (blank : w.probe i = .zero)
    (others : ∀ j, j ≠ i → s.probes j = w.probe j)
    (count : s.probeCount = w.session.probeCount + 1) (next : w.session.nextProbeId ≤ s.nextProbeId)
    (between : Between i ⟨s,w.runtime,w.status,w.text,w.prepared⟩ w') :
    Unchanged w (rollbackProbeInstall w' i (captureProbeInstallSnapshot (s.probes i) false) o) := by
  obtain ⟨session,entry,text,pool⟩ :=
    @slotReturned ⟨s,w.runtime,w.status,w.text,w.prepared⟩ w' o i tidy unmaps between
  have eq : rollbackProbeInstall w' i (captureProbeInstallSnapshot (s.probes i) false) o =
      (unregister (rollbackWorld w' i (s.probes i).trampolineAddr o) (w'.probe i).probeId).1 := rfl
  have id : (w'.probe i).probeId =
      ((rollbackWorld w' i (s.probes i).trampolineAddr o).probe i).probeId :=
    between.entry.id.trans entry.id.symm
  rw [eq,id]
  dsimp only at session entry text pool
  generalize rollbackWorld w' i (s.probes i).trampolineAddr o = u at session entry text pool
  have entries' : Entries u.session := by
    rw [session]
    exact entriesSet entries entry.id (congrArg SymbolTarget.symbol entry.target)
  have live' : (u.probe i).live := by
    rw [Probe.live,entry.id]
    exact live
  rw [unregisterIt entries' live']
  refine ⟨?_,?_,?_,pool,text⟩
  · funext j
    simp only [forgottenWorld]
    by_cases here : j = i
    · subst here
      rw [setSame,← blank]
    · rw [setOther _ _ here,session,setOther _ _ here,others j here]
  · simp only [forgottenWorld]
    rw [session]
    exact Nat.sub_eq_of_eq_add count
  · simp only [forgottenWorld]
    rw [session]
    exact next

theorem editedBetween (w : World) (i : Fin 32) (filter : Option ProbeFilter) :
    Between i w (w.setProbe i (setProbeFilter (w.probe i) filter)) := by
  have here := setProbeHere w i (setProbeFilter (w.probe i) filter)
  refine ⟨by rw [here]; rfl,by rw [here]; exact ⟨rfl,rfl,rfl,rfl,rfl⟩,rfl,_,.refused,rfl,
    by rw [here]; rfl,by rw [here]; rfl⟩

theorem grantedAs {pool : Pool} {p q : Probe} {r : Pool × Probe × Option UInt64}
    (got : Granted pool p r)
    (slot : p.trampolineSlot = q.trampolineSlot) (addr : p.trampolineAddr = q.trampolineAddr) :
    ∃ r', Granted pool q r' ∧ r.1 = r'.1 ∧ r.2.1.trampolineSlot = r'.2.1.trampolineSlot ∧
      r.2.1.trampolineAddr = r'.2.1.trampolineAddr := by
  cases got with
  | refused => exact ⟨_,.refused,rfl,slot,addr⟩
  | again => exact ⟨_,.again,rfl,slot,addr⟩
  | slot slotless free alive from_ =>
      exact ⟨_,.slot ⟨slot.symm.trans slotless.1,addr.symm.trans slotless.2⟩ free alive from_,rfl,
        rfl,rfl⟩

theorem slottedBetween (placed : Placed w.runtime.pool (w.probe i))
    (mapped : w.runtime.pool.remoteAddr ≠ 0 → Mapped w.runtime.pool.remoteAddr)
    (maps : Maps o) (filter : Option ProbeFilter) (len : Nat) :
    Between i w (slottedWorld (savedWorld (w.setProbe i (setProbeFilter (w.probe i) filter)) i len)
      i o.mmap) := by
  have here := setProbeHere w i (setProbeFilter (w.probe i) filter)
  have got : Granted w.runtime.pool (savedProbe (setProbeFilter (w.probe i) filter) w.text len)
      (poolAlloc w.runtime.pool (savedProbe (setProbeFilter (w.probe i) filter) w.text len)
        o.mmap) := granted placed mapped maps
  obtain ⟨r,granted,pool,slot,addr⟩ := @grantedAs _ _ (w.probe i) _ got rfl rfl
  have entry : SameEntry (w.probe i)
      (poolAlloc w.runtime.pool (savedProbe (setProbeFilter (w.probe i) filter) w.text len)
      o.mmap).2.1 := by
    generalize poolAlloc w.runtime.pool (savedProbe (setProbeFilter (w.probe i) filter) w.text len)
      o.mmap = r at got
    cases got with
    | refused => exact ⟨rfl,rfl,rfl,rfl,rfl⟩
    | again => exact ⟨rfl,rfl,rfl,rfl,rfl⟩
    | slot => exact ⟨rfl,rfl,rfl,rfl,rfl⟩
  have saved : (savedWorld (w.setProbe i (setProbeFilter (w.probe i) filter)) i len).probe i =
      savedProbe (setProbeFilter (w.probe i) filter) w.text len := by
    rw [savedHere,here]
    rfl
  have slotted := @slottedHere (savedWorld (w.setProbe i (setProbeFilter (w.probe i) filter)) i len)
      i o.mmap
  rw [saved] at slotted
  have same : (savedWorld (w.setProbe i (setProbeFilter (w.probe i) filter)) i len).runtime.pool =
      w.runtime.pool := rfl
  rw [same] at slotted
  refine ⟨?_,by rw [slotted]; exact entry,rfl,r,granted,?_,by rw [slotted]; exact slot,
    by rw [slotted]; exact addr⟩
  · rw [slotted]
    simp only [slottedWorld,savedWorld,World.setProbe,World.setPool,World.probe]
    simp [Session.set,savedProbe]
  · rw [← pool,← saved]
    rfl

structure Neat (w : World) : Prop where
  blank : ∀ j, ¬ (w.probe j).live → w.probe j = .zero
  tidy : Tidy w.runtime.pool

structure Orderly (w : World) : Prop where
  rests : Rests w
  neat : Neat w

theorem triedEnds {filter : Option ProbeFilter} {snap : InstallSnapshot} (tables : Tables w)
    (live : (w.probe i).live)
    (idle : Probe.idle (w.probe i)) :
    Installing isa disasm (w.setProbe i (setProbeFilter (w.probe i) filter)) i snap o
      (installRegistered isa disasm (w.setProbe i (setProbeFilter (w.probe i) filter)) i snap
        o) := by
  have moved : Moved i w (w.setProbe i (setProbeFilter (w.probe i) filter)) :=
    movedEdit tables live rfl rfl rfl rfl rfl rfl rfl
  have alive : ((w.setProbe i (setProbeFilter (w.probe i) filter)).probe i).live := by
    rw [setProbeHere]; exact live
  have idle' : Probe.idle ((w.setProbe i (setProbeFilter (w.probe i) filter)).probe i) := by
    rw [setProbeHere]; exact idle
  exact installing moved.entries (ownsIdle (movedTables moved) alive idle'.2) alive idle'

theorem registeredShort {s s' : Session} {name : Name} {lookup : Option (Name × Nat)}
    (short : name.length < probeSymbolMax)
    (got : Registered s name lookup (s',some i)) : probeFindBySymbol s name = some i ∧ s' = s ∨
      probeFindBySymbol s name = none ∧ (s.probes i).probeId = 0 ∧
        (∀ j, j ≠ i → s'.probes j = s.probes j) ∧
        s'.probeCount = s.probeCount + 1 ∧ s.nextProbeId ≤ s'.nextProbeId := by
  cases got with
  | named found => exact .inl ⟨found,rfl⟩
  | cut absent _ found =>
    rw [List.take_of_length_le (by omega),absent] at found
    cases found
  | fresh absent free new =>
    refine .inr ⟨absent,free,fun j other => setOther _ _ other,rfl,?_⟩
    dsimp only
    unfold takeProbeId
    split
    · exact Nat.le_add_right _ _
    · exact Nat.le_succ _

theorem unchangedRefl : Unchanged w w := ⟨rfl,rfl,Nat.le_refl _,⟨rfl,rfl⟩,rfl⟩

theorem installUnchanged {name : Name} {filter : Option ProbeFilter} (h : Orderly w) (maps : Maps o)
    (unmaps : o.munmapPool = true)
    (short : name.length <
      probeSymbolMax) (failed : (installProbe isa disasm w name filter o).2 = false) :
    Unchanged w (installProbe isa disasm w name filter o).1 := by
  have got := registered w.session name o.lookup
  unfold installProbe at failed ⊢
  dsimp only at failed ⊢
  generalize registerProbe w.session name o.lookup = reg at got failed ⊢
  obtain ⟨s',found⟩ := reg
  cases found with
  | none =>
    cases got
    exact unchangedRefl
  | some i =>
    obtain ⟨tables,live,_,_,calm⟩ := registeredTables h.rests.tables h.rests.calm got
    dsimp only at failed ⊢
    split at failed
    · cases failed
    · next off =>
      rw [if_neg off]
      have ends := @triedEnds isa disasm ⟨s',w.runtime,w.status,w.text,w.prepared⟩ o i filter
        (captureProbeInstallSnapshot (s'.probes i) (probeFindBySymbol w.session name).isSome) tables live ⟨calm i live,off⟩
      rcases registeredShort short got with ⟨found,rfl⟩ | ⟨absent,free,others,count,grown⟩
      · rw [found] at ends failed ⊢
        dsimp only [Option.isSome_some] at ends failed ⊢
        generalize installRegistered isa disasm _ i _ o = r at ends failed ⊢
        cases ends with
        | unread => exact rollbackKnown h.neat.tidy unmaps (editedBetween w i filter)
        | undone => exact rollbackKnown h.neat.tidy unmaps (slottedBetween (tables.own.placed i live) tables.own.mapped maps filter _)
        | done => cases failed
      · rw [absent] at ends failed ⊢
        dsimp only [Option.isSome_none] at ends failed ⊢
        have blank := h.neat.blank i fun bad => bad free
        generalize installRegistered isa disasm _ i _ o = r at ends failed ⊢
        cases ends with
        | unread => exact rollbackNew h.neat.tidy unmaps tables.entries live blank others count grown (editedBetween _ i filter)
        | undone =>
          exact rollbackNew h.neat.tidy unmaps tables.entries live blank others count grown
            (slottedBetween (tables.own.placed i live) tables.own.mapped maps filter _)
        | done => cases failed

end Rollback

section Runs
variable {isa : Isa} {disasm : Disassembler} {w w' : World} {o : Outcome} {i : Fin 32}

theorem neatSame (h : Neat w) (probes : w'.session.probes = w.session.probes)
    (pool : w'.runtime.pool = w.runtime.pool) : Neat w' := by
  refine ⟨fun j => ?_,by rw [pool]; exact h.tidy⟩
  rw [World.probe,probes]
  exact h.blank j

theorem neatEntry {p : Probe} (h : Neat w)
    (probes : w'.session.probes = Function.update w.session.probes i p)
    (filled : p.live ∨ p = .zero)
    (tidy : Tidy w'.runtime.pool) : Neat w' := by
  refine ⟨fun j dead => ?_,tidy⟩
  rw [World.probe,probes] at dead ⊢
  by_cases here : j = i
  · subst here
    rw [Function.update_self] at dead ⊢
    exact filled.resolve_left dead
  · rw [Function.update_of_ne here] at dead ⊢
    exact h.blank j dead

theorem uninstallNeat (h : Neat w) (id : Nat) : Neat (uninstallProbePatch w id o).1 := by
  cases found : probeFindById w.session id with
  | none =>
    have same : uninstallProbePatch w id o = (w,false) := by
      unfold uninstallProbePatch
      rw [found]
    rw [same]
    exact h
  | some i =>
    obtain ⟨nonzero,mine⟩ := findByIdSome found
    rcases uninstallRuns found o with ⟨_,done⟩ | ⟨_,failed⟩
    · rw [done]
      exact neatEntry h rfl (.inl fun zero => nonzero (mine.symm.trans zero)) h.tidy
    · rw [failed]
      exact h

theorem clearNeat (h : Neat w) (live : (w.probe i).live) :
    Neat (w.setProbe i (clearedAction (w.probe i))) :=
  neatEntry h rfl (.inl (by rw [Probe.live,clearedId]; exact live)) h.tidy

theorem releaseNeat (h : Neat w) (live : (w.probe i).live) (unmaps : o.munmapPool = true) :
    Neat (releaseSlot w i o) ∧ ((releaseSlot w i o).probe i).probeId = (w.probe i).probeId := by
  have id := (releaseEntry (w.probe i) w.runtime.pool o.munmapPool).id
  have here := releasedHere w i o
  refine ⟨neatEntry h rfl (.inl (by rw [Probe.live]; exact id.trans_ne live)) ?_,
    by rw [here]; exact id⟩
  simp only [releaseSlot,World.setProbe,World.setPool]
  rw [unmaps]
  exact releaseTidy h.tidy

theorem unregisterNeat (h : Neat w) (id : Nat) : Neat (unregister w id).1 := by
  unfold unregister unregisterProbe
  cases probeFindById w.session id with
  | none => exact neatSame h rfl rfl
  | some i => exact neatEntry h rfl (.inr rfl) h.tidy

theorem rollbackNeat {snap : InstallSnapshot} (h : Neat w) (live : (w.probe i).live)
    (unmaps : o.munmapPool = true) :
    Neat (rollbackProbeInstall w i snap o) := by
  have returned : Neat (rollbackWorld w i snap.trampolineAddr o) ∧
      ((rollbackWorld w i snap.trampolineAddr o).probe i).probeId = (w.probe i).probeId := by
    unfold rollbackWorld
    split
    · exact releaseNeat h live unmaps
    · exact ⟨h,rfl⟩
  have eq : rollbackProbeInstall w i snap o = if snap.existed then
      (rollbackWorld w i snap.trampolineAddr o).setProbe i
        (restoredProbe ((rollbackWorld w i snap.trampolineAddr o).probe i) snap)
      else (unregister (rollbackWorld w i snap.trampolineAddr o) (w.probe i).probeId).1 := rfl
  rw [eq]
  split
  · exact neatEntry returned.1 rfl (.inl (by rw [Probe.live]; exact returned.2.trans_ne live))
      returned.1.tidy
  · exact unregisterNeat returned.1 _

theorem betweenNeat (h : Neat w) (live : (w.probe i).live) (between : Between i w w') :
    Neat w' ∧ (w'.probe i).live := by
  obtain ⟨r,got,pool,_,_⟩ := between.slot
  have live' : (w'.probe i).live := by rw [Probe.live]; exact between.entry.id.trans_ne live
  refine ⟨neatEntry h (by rw [between.session]; rfl) (.inl live') ?_,live'⟩
  rw [pool]
  exact allocTidy h.tidy got

theorem registeredNeat {s' : Session} {name : Name} {lookup : Option (Name × Nat)} (h : Orderly w)
    (got : Registered w.session name lookup (s',some i)) :
    Neat ⟨s',w.runtime,w.status,w.text,w.prepared⟩ := by
  cases got with
  | named => exact h.neat
  | cut => exact h.neat
  | fresh =>
    refine neatEntry h.neat rfl (.inl ?_) h.neat.tidy
    rw [freshId h.rests.tables.entries]
    exact Nat.pos_iff_ne_zero.mp h.rests.tables.entries.below.1

theorem installNeat {name : Name} {filter : Option ProbeFilter} (h : Orderly w) (maps : Maps o)
    (unmaps : o.munmapPool = true) :
    Neat (installProbe isa disasm w name filter o).1 := by
  have got := registered w.session name o.lookup
  unfold installProbe
  dsimp only
  generalize registerProbe w.session name o.lookup = reg at got ⊢
  obtain ⟨s',found⟩ := reg
  cases found with
  | none =>
    cases got
    exact h.neat
  | some i =>
    obtain ⟨tables,live,_,_,calm⟩ := registeredTables h.rests.tables h.rests.calm got
    have neat := registeredNeat h got
    dsimp only
    split
    · split
      · exact neatEntry neat rfl (.inl live) neat.tidy
      · exact neat
    · next off =>
      have ends := @triedEnds isa disasm ⟨s',w.runtime,w.status,w.text,w.prepared⟩ o i filter
        (captureProbeInstallSnapshot (s'.probes i) (probeFindBySymbol w.session name).isSome) tables
          live ⟨calm i live,off⟩
      have edited := betweenNeat neat live (editedBetween _ i filter)
      have slotted := fun len =>
          betweenNeat neat live
          (@slottedBetween _ o i (tables.own.placed i live) tables.own.mapped maps filter len)
      generalize installRegistered isa disasm _ i _ o = r at ends ⊢
      cases ends with
      | unread => exact rollbackNeat edited.1 edited.2 unmaps
      | undone => exact rollbackNeat (slotted _).1 (slotted _).2 unmaps
      | done => exact neatEntry (slotted _).1 rfl (.inl (slotted _).2) (slotted _).1.tidy

theorem zeroTidy : Tidy .zero := ⟨fun _ => rfl,fun bad => absurd rfl bad⟩

theorem neatParts : Parts Neat fun o => o.munmapPool = true where
  status _ h := neatSame h rfl rfl
  uninstall id _ h := uninstallNeat h id
  clear live h := clearNeat h live
  release unmaps live h := (releaseNeat h live unmaps).1
  unregister id h := unregisterNeat h id
  cleanup _ h := neatSame h rfl rfl
  reset h := ⟨h.blank,zeroTidy⟩

theorem stoppedOrderly (h : Orderly w) : Orderly (ensureStopped w o).1 :=
  ⟨(stopLands h.rests).rests,stoppedKept neatParts h.neat⟩

theorem openedOrderly (h : Orderly w) (idle : w.status = .inactive) :
    Orderly (ProbeRuns.openedWorld w o.setup) :=
  ⟨(openedRests h.rests idle o.setup).1,h.neat.blank,zeroTidy⟩

/- What the target does when it is asked to map and unmap a pool. -/
structure Obliges (o : Outcome) : Prop where
  maps : Maps o
  unmaps : o.munmapPool = true

theorem callOrderly {c : Call} (h : Orderly w) (obliges : Obliges c.outcome)
    (each : ∀ j, (c.each j).munmapPool = true) :
    Orderly (runOp isa disasm w c.op c.outcome c.each).1 :=
  ⟨(callLands h.rests obliges.maps).rests,opKept neatParts obliges.unmaps each h.neat
    (fun _ _ => installNeat (stoppedOrderly h) obliges.maps obliges.unmaps)
      (fun idle => (openedOrderly h idle).neat)
    fun idle _ _ => installNeat (openedOrderly h idle) obliges.maps obliges.unmaps⟩

theorem initOrderly (text : Memory) : Orderly (World.init text) :=
  ⟨(initRests text).1,fun _ _ => rfl,zeroTidy⟩

theorem attachedOrderly (text : Memory) (h : Orderly w) :
    Orderly ⟨.init,w.runtime,w.status,text,w.prepared⟩ := by
  have empty := (initRests text).1
  have none_ := empty.closed rfl
  exact ⟨⟨⟨empty.tables.entries,h.rests.tables.own.mapped,fun j live => absurd live (none_ j),
    fun j _ _ live => absurd live (none_ j)⟩,
    fun j live => absurd live (none_ j),fun _ => none_⟩,fun _ _ => rfl,h.neat.tidy⟩

theorem configuredOrderly {action : CallAction} {slot : Int} {symbol : Name} (h : Orderly w)
    (live : (w.probe i).live) :
    Orderly (w.setProbe i { w.probe i with callAction := action, callActionSlot := slot, callSymbol := symbol }) := by
  have moved : Moved i w
      (w.setProbe i { w.probe i with
          callAction := action, callActionSlot := slot, callSymbol := symbol }) :=
    movedEdit h.rests.tables live rfl rfl rfl rfl rfl rfl rfl
  have here := setProbeHere w i
      { w.probe i with callAction := action, callActionSlot := slot, callSymbol := symbol }
  have landed := movedLands h.rests moved live (by rw [here]; exact h.rests.calm i live)
  exact ⟨landed.rests,neatEntry h.neat rfl (.inl live) h.neat.tidy⟩

end Runs
end ZeroTrace.InstallRollback
