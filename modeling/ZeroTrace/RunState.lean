import ZeroTrace.PoolRuns

/-! Whether the target's threads run while probes are managed. Every operation stops the
whole group and has many ways out; a thread that nobody resumes stays frozen. -/
namespace ZeroTrace.RunState
open ByteMemory PatchCode FilterSyntax ProbeTable TrampolinePool ProbeLifecycle ProbeInvariant
  ProbeSteps SlotOwnership PoolRuns
open ProbeOps (Only onlyRefl onlyTrans)
open ProbeRuns (openedWorld noneRegistered)

/- `moving`: every thread of the target runs. -/
structure Machine where
  world : World
  moving : Bool

/- What the command line decides around an operation, and `untouched`: an interrupt that
failed had not stopped any thread. -/
structure Around where
  parsed : Bool
  stopTarget : Bool
  logPath : Bool
  untouched : Bool

variable (isa : Isa) (disasm : Disassembler)

def stopThreads (m : Machine) (o : Outcome) (a : Around) : Machine × Bool :=
  match m.world.status with
  | .inactive => (m,false)
  | .stopped => (m,true)
  | .running =>
    if o.interrupt then (⟨{ m.world with status := .stopped },false⟩,true)
    else ({ m with moving := m.moving && a.untouched },false)

def resumeThreads (m : Machine) (o : Outcome) : Machine × Bool := match m.world.status with
  | .inactive => (m,false)
  | .running => (m,true)
  | .stopped => if o.resume then (⟨{ m.world with status := .running },true⟩,true) else (m,false)

def whileStopped (m : Machine) (o : Outcome) (a : Around)
    (body : World → World × Bool) : Machine × Bool :=
  match stopThreads m o a with
  | (m,false) => (m,false)
  | (m,true) => match body m.world with
    | (w,false) => (⟨w,m.moving⟩,false)
    | (w,true) => resumeThreads ⟨w,m.moving⟩ o

def installActive (m : Machine) (name : Name) (filter : Option ProbeFilter) (o : Outcome)
    (a : Around) : Machine × Bool :=
  whileStopped m o a fun w => installProbe isa disasm w name filter o

def stop (m : Machine) (o : Outcome) (each : Fin 32 → Outcome) (a : Around) : Machine × Bool :=
  if m.world.status = .inactive then (m,false) else match stopThreads m o a with
    | (m,false) => (m,false)
    | (m,true) =>
      let (w,done) := stopProbes m.world each (List.finRange 32)
      (⟨resetActive { w with runtime := (cleanupRuntime w.runtime o).1 },m.moving⟩,
        done && (cleanupRuntime w.runtime o).2)

def start (m : Machine) (name : Name) (filter : Option ProbeFilter) (o : Outcome)
    (each : Fin 32 → Outcome) (a : Around) :
    Machine × Bool :=
  if m.world.status ≠ .inactive then installActive isa disasm m name filter o a
  else if !o.logOpen then (m,false)
  else
    let w := { resetActive m.world with runtime := { o.setup with pool := .zero } }
    if !o.setupDone then (⟨{ w with runtime := (cleanupRuntime w.runtime o).1 },m.moving⟩,false)
    else match installProbe isa disasm w name filter o with
      | (w,false) => (⟨{ w with runtime := (cleanupRuntime w.runtime o).1 },m.moving⟩,false)
      | (w,true) => match resumeThreads ⟨{ w with status := .stopped },m.moving⟩ o with
        | (m,true) => (m,true)
        | (m,false) => ((stop m o each a).1,false)

/- A trace that is not active yet stops the target itself. -/
def cmdTrace (m : Machine) (name : Name) (filter : Option ProbeFilter) (o : Outcome)
    (each : Fin 32 → Outcome) (a : Around) :
    Machine :=
  if !a.parsed then m
  else if m.world.status = .inactive then
    if !a.stopTarget then { m with moving := m.moving && a.untouched }
    else if !a.logPath then { m with moving := false }
    else (start isa disasm { m with moving := false } name filter o each a).1
  else (start isa disasm m name filter o each a).1

def disable (m : Machine) (id : Nat) (o : Outcome) (a : Around) : Machine × Bool :=
  if id = 0 ∨ m.world.status = .inactive then
    (m,false) else match probeFindById m.world.session id with
    | none => (m,false)
    | some i =>
      if (m.world.session.probes i).state ≠ .installed then (m,false)
      else whileStopped m o a fun w => uninstallProbePatch w id o

def enable (m : Machine) (id : Nat) (o : Outcome) (a : Around) : Machine × Bool :=
  if id = 0 ∨ m.world.status = .inactive then
    (m,false) else match probeFindById m.world.session id with
    | none => (m,false)
    | some i =>
      let p := m.world.session.probes i
      if p.state = .installed then
        (m,true) else installActive isa disasm m p.target.symbol (some p.filter) o a

def remove (m : Machine) (id : Nat) (o : Outcome) (a : Around) : Machine × Bool :=
  if id = 0 then (m,false) else match probeFindById m.world.session id with
    | none => (m,false)
    | some i =>
      if m.world.status = .inactive then
        (⟨(unregister m.world id).1,m.moving⟩,(unregister m.world id).2)
      else match stopThreads m o a with
        | (m,false) => (m,false)
        | (m,true) =>
          match (if (m.world.session.probes i).state = .installed then
            uninstallProbePatch m.world id o else (m.world,true)) with
          | (w,false) => (⟨w,m.moving⟩,false)
          | (w,true) =>
            let w := releaseSlot (w.setProbe i (clearedAction (w.session.probes i))) i o
            match unregister w id with
            | (w,false) => (⟨w,m.moving⟩,false)
            | (w,true) =>
              -- The last probe: the trace is over, and nobody resumes the threads.
              if w.session.probeCount = 0 then
                (⟨resetActive { w with runtime := (cleanupRuntime w.runtime o).1 },m.moving⟩,
                  (cleanupRuntime w.runtime o).2)
              else resumeThreads ⟨w,m.moving⟩ o

inductive Action where
  | trace (name : Name) (filter : Option ProbeFilter)
  | enable (id : Nat)
  | disable (id : Nat)
  | remove (id : Nat)
  | pause
  | continue_
  | shutdown

structure Command where
  action : Action
  outcome : Outcome
  each : Fin 32 → Outcome
  around : Around

def perform (m : Machine) (c : Command) : Machine := match c.action with
  | .trace name filter => cmdTrace isa disasm m name filter c.outcome c.each c.around
  | .enable id => (enable isa disasm m id c.outcome c.around).1
  | .disable id => (disable m id c.outcome c.around).1
  | .remove id => (remove m id c.outcome c.around).1
  | .pause =>
    if m.world.status = .inactive then
      { m with moving := if c.around.stopTarget then false else m.moving && c.around.untouched }
    else (stopThreads m c.outcome c.around).1
  | .continue_ =>
    if m.world.status = .inactive then { m with moving := m.moving || c.outcome.resume }
    else (resumeThreads m c.outcome).1
  | .shutdown => if m.world.status = .inactive then m else (stop m c.outcome c.each c.around).1

def performAll (m : Machine) : List Command → Machine
  | [] => m
  | c::rest => performAll (perform isa disasm m c) rest

/-! The worlds are those of the operations without threads. -/
section Worlds
variable {isa disasm} {m : Machine} {o : Outcome} {each : Fin 32 → Outcome} {a : Around}

def flat (r : Machine × Bool) : World × Bool := (r.1.world,r.2)

theorem stopThreadsFlat : flat (stopThreads m o a) = ensureStopped m.world o := by
  unfold stopThreads ensureStopped flat
  cases m.world.status with
  | inactive | stopped => rfl
  | running => dsimp only; split <;> rfl

theorem resumeThreadsFlat : flat (resumeThreads m o) = ensureRunning m.world o := by
  unfold resumeThreads ensureRunning flat
  cases m.world.status with
  | inactive | running => rfl
  | stopped => dsimp only; split <;> rfl

theorem whileStoppedFlat (body : World → World × Bool) : flat (whileStopped m o a body) =
    match ensureStopped m.world o with
      | (w,false) => (w,false)
      | (w,true) => match body w with
        | (w,false) => (w,false)
        | (w,true) => ensureRunning w o := by
  unfold whileStopped
  rw [← @stopThreadsFlat m o a]
  generalize stopThreads m o a = r
  obtain ⟨m',ok⟩ := r
  cases ok with
  | false => rfl
  | true =>
    simp only [flat]
    generalize body m'.world = r
    obtain ⟨w,done⟩ := r
    cases done with
    | false => rfl
    | true => exact resumeThreadsFlat

theorem installActiveFlat {name filter} : flat (installActive isa disasm m name filter o a) =
    installActiveProbe isa disasm m.world name filter o := whileStoppedFlat _

theorem stopFlat : flat (stop m o each a) = traceStop m.world o each := by
  unfold stop traceStop
  rw [← @stopThreadsFlat m o a]
  split
  · rfl
  · generalize stopThreads m o a = r
    obtain ⟨m',ok⟩ := r
    cases ok with
    | false => rfl
    | true => simp only [flat]

theorem startFlat {name filter} : flat (start isa disasm m name filter o each a) =
    traceStart isa disasm m.world name filter o each := by
  unfold start traceStart
  split
  · exact installActiveFlat
  · split
    · rfl
    · dsimp only
      split
      · rfl
      · generalize installProbe isa disasm _ name filter o = r
        obtain ⟨w,done⟩ := r
        cases done with
        | false => rfl
        | true =>
          dsimp only
          rw [← @resumeThreadsFlat ⟨{ w with status := .stopped },m.moving⟩ o]
          generalize resumeThreads ⟨{ w with status := .stopped },m.moving⟩ o = r
          obtain ⟨m',resumed⟩ := r
          cases resumed with
          | true => rfl
          | false => exact congrArg (fun r : World × Bool => (r.1,false)) stopFlat

theorem disableFlat {id} : flat (disable m id o a) = traceDisableProbe m.world id o := by
  unfold disable traceDisableProbe
  split
  · rfl
  · cases probeFindById m.world.session id with
    | none => rfl
    | some i =>
      dsimp only
      split
      · rfl
      · exact whileStoppedFlat _

theorem enableFlat {id} :
    flat (enable isa disasm m id o a) = traceEnableProbe isa disasm m.world id o := by
  unfold enable traceEnableProbe
  split
  · rfl
  · cases probeFindById m.world.session id with
    | none => rfl
    | some i =>
      dsimp only
      split
      · rfl
      · exact installActiveFlat

theorem removeFlat {id} : flat (remove m id o a) = traceRemoveProbe m.world id o := by
  unfold remove traceRemoveProbe
  split
  · rfl
  · cases probeFindById m.world.session id with
    | none => rfl
    | some i =>
      dsimp only
      split
      · rfl
      · rw [← @stopThreadsFlat m o a]
        generalize stopThreads m o a = r
        obtain ⟨m',ok⟩ := r
        cases ok with
        | false => rfl
        | true =>
          simp only [flat]
          generalize (if (m'.world.session.probes i).state = .installed then
            uninstallProbePatch m'.world id o
            else (m'.world,true)) = r
          obtain ⟨w,done⟩ := r
          cases done with
          | false => rfl
          | true =>
            dsimp only
            generalize unregister
              (releaseSlot (w.setProbe i (clearedAction (w.session.probes i))) i o) id = r
            obtain ⟨w',gone⟩ := r
            cases gone with
            | false => rfl
            | true =>
              dsimp only
              split
              · rfl
              · exact resumeThreadsFlat

theorem performRests {c : Command} (h : Rests m.world) (maps : Maps c.outcome) :
    Rests (perform isa disasm m c).world := by
  unfold perform
  cases c.action with
  | trace name filter =>
    have started : ∀ m' : Machine, m'.world = m.world →
        Rests (start isa disasm m' name filter c.outcome c.each c.around).1.world := by
      intro m' same
      have landed := @startLands isa disasm m'.world c.outcome name c.each filter (same ▸ h) maps
      rw [← @startFlat isa disasm m' c.outcome c.each c.around] at landed
      exact landed.rests
    simp only [cmdTrace]
    split
    · exact h
    · split
      · split
        · exact h
        · split
          · exact h
          · exact started _ rfl
      · exact started _ rfl
  | enable id =>
    have landed := @enableLands isa disasm m.world c.outcome id h maps
    rw [← @enableFlat isa disasm m c.outcome c.around] at landed
    exact landed.rests
  | disable id =>
    have landed := @disableLands m.world c.outcome id h
    rw [← @disableFlat m c.outcome c.around] at landed
    exact landed.rests
  | remove id =>
    have landed := @removeLands m.world c.outcome id h
    rw [← @removeFlat m c.outcome c.around] at landed
    exact landed.rests
  | pause =>
    dsimp only
    split
    · exact h
    · have landed := @stopLands m.world c.outcome h
      rw [← @stopThreadsFlat m c.outcome c.around] at landed
      exact landed.rests
  | continue_ =>
    dsimp only
    split
    · exact h
    · have landed := @runLands m.world c.outcome h
      rw [← @resumeThreadsFlat m c.outcome] at landed
      exact landed.rests
  | shutdown =>
    dsimp only
    split
    · exact h
    · have landed := @traceStopLands m.world c.outcome c.each h
      rw [← @stopFlat m c.outcome c.each c.around] at landed
      exact landed.rests

end Worlds

/-! When a trace of a name is installed. -/
section Names
variable {isa disasm} {w : World} {o : Outcome} {i : Fin 32}

/- The entry that the name stands for: the one with this name, the one with the name cut
to what the table keeps, or a new one. -/
def EntryFor (s : Session) (name : Name) (lookup : Option (Name × Nat)) (p : Probe) : Prop :=
  (∃ i, probeFindBySymbol s name = some i ∧ p = s.probes i) ∨
  probeFindBySymbol s name = none ∧ name ≠ [] ∧ ∃ path addr, lookup = some (path,addr) ∧
    ((∃ i, probeFindBySymbol s (name.take (probeSymbolMax - 1)) = some i ∧ p = s.probes i) ∨
      probeFindBySymbol s (name.take (probeSymbolMax - 1)) = none ∧
        (∃ i, (s.probes i).probeId = 0) ∧
        p = freshProbe (takeProbeId s.nextProbeId).1 ⟨name.take (probeSymbolMax - 1),
          path.take (probeModuleMax - 1),addr⟩)

def Installs (isa : Isa) (disasm : Disassembler) (w : World) (name : Name) (o : Outcome) : Prop :=
  ∃ p, EntryFor w.session name o.lookup p ∧
    (p.state = .installed ∨ Completes isa disasm w.runtime.pool w.text p o)

theorem takeEmpty (name : Name) : name.take (probeSymbolMax - 1) = [] ↔ name = [] := by
  simp [List.take_eq_nil_iff,probeSymbolMax]

theorem registerEntry (s : Session) (name : Name) (lookup : Option (Name × Nat)) (p : Probe) :
    EntryFor s name lookup p ↔ ∃ s' i, registerProbe s name lookup = (s',some i) ∧
      p = s'.probes i := by
  unfold EntryFor registerProbe
  cases found : probeFindBySymbol s name with
  | some i => simp
  | none =>
    cases lookup with
    | none => simp [resolveSymbolTarget]
    | some look =>
      obtain ⟨path,addr⟩ := look
      simp only [resolveSymbolTarget,Option.map_some,probeAlloc,takeEmpty]
      by_cases empty : name = []
      · simp [empty]
      · cases cut : probeFindBySymbol s (name.take (probeSymbolMax - 1)) with
        | some i => simp [empty]
        | none =>
          cases free : probeFree s with
          | none =>
            have full : ∀ i, (s.probes i).probeId ≠ 0 := fun i zero => by
              have out := List.find?_eq_none.mp free i (List.mem_finRange i)
              simp [zero] at out
            simp [empty,full]
          | some i =>
            have zero := freeSome free
            simp only [empty,if_false]
            constructor
            · rintro (⟨j,bad,_⟩ | ⟨_,_,path',addr',same,⟨j,bad,_⟩ | ⟨_,_,rfl⟩⟩)
              · cases bad
              · cases bad
              · cases same
                exact ⟨_,i,rfl,by simp⟩
            · rintro ⟨s',j,same,rfl⟩
              cases same
              exact .inr ⟨trivial,empty,path,addr,rfl,.inr ⟨trivial,⟨i,zero⟩,by simp⟩⟩

theorem installNamed {name} (h : Tables w)
    (calm : ∀ j, (w.probe j).live → (w.probe j).state ≠ .prepared) (maps : Maps o)
    (filter : Option ProbeFilter) :
    (installProbe isa disasm w name filter o).2 = true ↔ Installs isa disasm w name o := by
  unfold Installs
  simp only [registerEntry]
  have got := registered w.session name o.lookup
  unfold installProbe
  dsimp only
  cases reg : registerProbe w.session name o.lookup with
  | mk s' found =>
    rw [reg] at got
    cases found with
    | none => simp
    | some i =>
      obtain ⟨tables,live,_,_,calm'⟩ := registeredTables h calm got
      have only_ : (∃ p, (∃ t j, (s',some i) = (t,some j) ∧ p = t.probes j) ∧
          (p.state = .installed ∨ Completes isa disasm w.runtime.pool w.text p o)) ↔
          (s'.probes i).state = .installed ∨
            Completes isa disasm w.runtime.pool w.text (s'.probes i) o := by
        constructor
        · rintro ⟨p,⟨t,j,same,rfl⟩,ok⟩
          cases same
          exact ok
        · exact fun ok => ⟨s'.probes i,⟨s',i,rfl,rfl⟩,ok⟩
      rw [only_]
      dsimp only
      split
      · next installed => exact ⟨fun _ => .inl installed,fun _ => rfl⟩
      · next off =>
        have runs := (@knownTried isa disasm { w with session := s' } o i filter
            (probeFindBySymbol w.session name).isSome
          tables calm' maps live off).2.2
        exact runs.trans ⟨.inr,fun ok => ok.resolve_left off⟩

theorem installsKnown (h : Entries w.session) (live : (w.probe i).live)
    (off : (w.probe i).state ≠ .installed) :
    Installs isa disasm w (w.probe i).target.symbol o ↔
      Completes isa disasm w.runtime.pool w.text (w.probe i) o := by
  obtain ⟨k,known⟩ := Option.ne_none_iff_exists'.mp (findSymbolLive live)
  have same : k = i := h.symbols k i (findBySymbolSome known).1 live (findBySymbolSome known).2
  subst same
  constructor
  · rintro ⟨p,⟨j,found,rfl⟩ | ⟨absent,_⟩,ok⟩
    · cases Option.some.inj (known.symm.trans found)
      exact ok.resolve_left off
    · rw [known] at absent
      cases absent
  · exact fun ok => ⟨_,.inl ⟨k,known,rfl⟩,.inr ok⟩

end Names

/-! The threads run again exactly when nothing went wrong after the stop. -/
section Threads
variable {isa disasm} {m : Machine} {o : Outcome} {a : Around}

/- The threads were not stopped at all, or the rest went well and they were resumed. -/
def AfterStop (o : Outcome) (a : Around) (rest : Prop) : Prop :=
  if o.interrupt = true then rest ∧ o.resume = true else a.untouched = true

def Resumes (isa : Isa) (disasm : Disassembler) (w : World) (c : Command) : Prop :=
  match c.action with
  | .trace name _ => c.around.parsed = true →
    if w.status = .inactive then
      if c.around.stopTarget = true then c.around.logPath = true ∧ c.outcome.logOpen = true ∧
        c.outcome.setupDone = true ∧
        Installs isa disasm (openedWorld w c.outcome.setup) name c.outcome ∧ c.outcome.resume = true
      else c.around.untouched = true
    else AfterStop c.outcome c.around (Installs isa disasm w name c.outcome)
  | .enable id => ∀ i, w.status ≠ .inactive → probeFindById w.session id = some i →
      (w.probe i).state ≠ .installed →
    AfterStop c.outcome c.around (Completes isa disasm w.runtime.pool w.text (w.probe i) c.outcome)
  | .disable id => ∀ i, w.status ≠ .inactive → probeFindById w.session id = some i →
      (w.probe i).state = .installed →
    AfterStop c.outcome c.around ((w.probe i).origLen ≠ 0 ∧ c.outcome.safe = true ∧
      c.outcome.restore = true)
  | .remove id => ∀ i, w.status ≠ .inactive → probeFindById w.session id = some i →
    AfterStop c.outcome c.around (((w.probe i).state = .installed →
      (w.probe i).origLen ≠ 0 ∧ c.outcome.safe = true ∧ c.outcome.restore = true) ∧ ∃ j, j ≠ i ∧
        (w.probe j).live)
  | .pause | .continue_ | .shutdown => True

def Manages : Action → Prop
  | .trace _ _ | .enable _ | .disable _ | .remove _ => True
  | .pause | .continue_ | .shutdown => False

def Still (m : Machine) : Prop := m.world.status = .stopped → m.moving = false

theorem resumeMoving (stopped : m.world.status = .stopped) (still : m.moving = false) :
    (resumeThreads m o).1.moving = true ↔ o.resume = true := by
  cases resume : o.resume <;> simp [resumeThreads,stopped,still,resume]

theorem whileStoppedMoving {body : World → World × Bool} (running : m.world.status = .running)
    (moving : m.moving = true)
    (keeps : (body { m.world with status := .stopped }).1.status = .stopped) :
    (whileStopped m o a body).1.moving = true ↔
      AfterStop o a ((body { m.world with status := .stopped }).2 = true) := by
  unfold whileStopped AfterStop
  cases interrupt : o.interrupt with
  | false => simp [stopThreads,running,interrupt,moving]
  | true =>
    simp only [stopThreads,running,interrupt,if_true]
    generalize body { m.world with status := .stopped } = r at keeps
    obtain ⟨w,done⟩ := r
    cases done with
    | false => simp
    | true =>
      have resumed := @resumeMoving ⟨w,false⟩ o keeps rfl
      simpa using resumed

theorem haltedRests {w : World} (h : Rests w) : Rests { w with status := .stopped } :=
  (@landsSame w { w with status := .stopped } h rfl rfl (fun bad => by cases bad)).rests

theorem installActiveMoving {name filter} (h : Rests m.world) (maps : Maps o)
    (running : m.world.status = .running)
    (moving : m.moving = true) :
    (installActive isa disasm m name filter o a).1.moving = true ↔
      AfterStop o a (Installs isa disasm m.world name o) := by
  have halted := haltedRests h
  have named := @tracedNamed isa disasm _ o halted.tables halted.calm maps name filter
  have runs := @installNamed isa disasm _ o name halted.tables halted.calm maps filter
  refine (whileStoppedMoving running moving named.status).trans ?_
  unfold AfterStop
  split
  · exact and_congr_left fun _ => runs
  · exact Iff.rfl

theorem startMoving {name filter each} (h : Rests m.world) (maps : Maps o)
    (inactive : m.world.status = .inactive)
    (still : m.moving = false) :
    (start isa disasm m name filter o each a).1.moving = true ↔ o.logOpen = true ∧
      o.setupDone = true ∧
      Installs isa disasm (openedWorld m.world o.setup) name o ∧ o.resume = true := by
  have opened := (openedRests h inactive o.setup).1
  have runs := @installNamed isa disasm _ o name opened.tables opened.calm maps filter
  unfold start
  rw [if_neg (not_not.mpr inactive)]
  cases open_ : o.logOpen with
  | false => simp [still]
  | true =>
    cases setup : o.setupDone with
    | false => simp [still]
    | true =>
      simp only [Bool.not_true,Bool.false_eq_true,if_false,true_and]
      rw [← runs]
      simp only [openedWorld]
      generalize installProbe isa disasm _ name filter o = r
      obtain ⟨w,done⟩ := r
      cases done with
      | false => simp [still]
      | true =>
        cases resume : o.resume with
        | true => simp [resumeThreads,resume]
        | false => simp [resumeThreads,resume,stop,stopThreads,still]

theorem nothingFound {id} (running : m.world.status = .running)
    (bad : id = 0 ∨ m.world.status = .inactive) (i) :
    probeFindById m.world.session id ≠ some i := by
  intro found
  rcases bad with zero | inactive
  · exact absurd zero (findByIdSome found).1
  · rw [running] at inactive
    cases inactive

theorem disableMoving {id} (running : m.world.status = .running) (moving : m.moving = true) :
    (disable m id o a).1.moving = true ↔ ∀ i, probeFindById m.world.session id = some i →
      (m.world.probe i).state = .installed →
      AfterStop o a ((m.world.probe i).origLen ≠ 0 ∧ o.safe = true ∧ o.restore = true) := by
  unfold disable
  split
  · next bad => exact ⟨fun _ i found => absurd found (nothingFound running bad i),fun _ => moving⟩
  · cases found : probeFindById m.world.session id with
    | none => exact ⟨fun _ i none_ => absurd none_ (by simp),fun _ => moving⟩
    | some i =>
      dsimp only
      split
      · next off => exact ⟨fun _ j same on => absurd on ((Option.some.inj same) ▸ off),
          fun _ => moving⟩
      · next on =>
        have on : (m.world.probe i).state = .installed := not_not.mp on
        have runs := @uninstallRuns { m.world with status := .stopped } i id found o
        have status : (uninstallProbePatch { m.world with status := .stopped } id o).1.status =
            .stopped := by
          rcases runs with ⟨_,done⟩ | ⟨_,failed⟩
          · rw [done]; rfl
          · rw [failed]
        have done : (uninstallProbePatch { m.world with status := .stopped } id o).2 = true ↔
            (m.world.probe i).origLen ≠ 0 ∧ o.safe = true ∧ o.restore = true := by
          rcases runs with ⟨ok,done⟩ | ⟨bad,failed⟩
          · rw [done]; exact ⟨fun _ => ok,fun _ => rfl⟩
          · rw [failed]; exact ⟨fun no => absurd no (by simp),fun ok => absurd ok bad⟩
        refine (whileStoppedMoving running moving status).trans ?_
        rw [done]
        exact ⟨fun ok j same _ => Option.some.inj same ▸ ok,fun all => all i rfl on⟩

theorem enableMoving {id} (h : Rests m.world) (maps : Maps o) (running : m.world.status = .running)
    (moving : m.moving = true) :
    (enable isa disasm m id o a).1.moving = true ↔ ∀ i, probeFindById m.world.session id = some i →
      (m.world.probe i).state ≠ .installed →
      AfterStop o a (Completes isa disasm m.world.runtime.pool m.world.text
        (m.world.probe i) o) := by
  unfold enable
  split
  · next bad => exact ⟨fun _ i found => absurd found (nothingFound running bad i),fun _ => moving⟩
  · cases found : probeFindById m.world.session id with
    | none => exact ⟨fun _ i none_ => absurd none_ (by simp),fun _ => moving⟩
    | some i =>
      obtain ⟨nonzero,mine⟩ := findByIdSome found
      have live : (m.world.probe i).live := fun zero => nonzero (mine.symm.trans zero)
      dsimp only
      split
      · next on => exact ⟨fun _ j same off => absurd ((Option.some.inj same) ▸ on) off,
          fun _ => moving⟩
      · next off =>
        refine (installActiveMoving h maps running moving).trans ?_
        have known := @installsKnown isa disasm m.world o i h.tables.entries live off
        unfold AfterStop
        rw [show Installs isa disasm m.world (m.world.session.probes i).target.symbol o ↔
          _ from known]
        exact ⟨fun ok j same _ => Option.some.inj same ▸ ok,fun all => all i rfl off⟩

theorem emptyCount {s : Session} (h : Entries s) : s.probeCount = 0 ↔ ∀ j, ¬ (s.probes j).live := by
  refine ⟨noneRegistered h,fun none_ => ?_⟩
  rw [h.counted]
  exact List.length_eq_zero_iff.mpr (List.filter_eq_nil_iff.mpr fun j _ =>
    by simpa [Probe.live] using none_ j)

theorem takenBack {w : World} {i id} (h : Rests w) (found : probeFindById w.session id = some i) :
    ∃ w' ok, (if (w.session.probes i).state = .installed then
      uninstallProbePatch w id o else (w,true)) = (w',ok) ∧ Tables w' ∧
      Only i w w' ∧ (w'.probe i).probeId = id ∧
      (ok = true ↔ ((w.probe i).state = .installed → (w.probe i).origLen ≠ 0 ∧ o.safe = true ∧
        o.restore = true)) := by
  obtain ⟨nonzero,mine⟩ := findByIdSome found
  have live : (w.probe i).live := fun zero => nonzero (mine.symm.trans zero)
  split
  · next on =>
    have on : (w.probe i).state = .installed := on
    rcases uninstallRuns found o with ⟨ok,done⟩ | ⟨bad,failed⟩
    · rw [done]
      have moved := @movedEdit w i (unpatchedWorld w i) _ h.tables live rfl rfl rfl rfl rfl rfl rfl
      exact ⟨_,_,rfl,movedTables moved,moved.only,(unpatchedId w i).trans mine,
        fun _ _ => ok,fun _ => rfl⟩
    · rw [failed]
      exact ⟨_,_,rfl,h.tables,onlyRefl,mine,fun no => absurd no (by simp),
        fun all => absurd (all on) bad⟩
  · next off => exact ⟨_,_,rfl,h.tables,onlyRefl,mine,fun _ on => absurd on off,fun _ => rfl⟩

theorem retired {w : World} {i id} (h : Tables w) (nonzero : id ≠ 0)
    (mine : (w.probe i).probeId = id) :
    ∃ w', unregister (releaseSlot (w.setProbe i (clearedAction (w.session.probes i))) i o) id =
      (w',true) ∧
      w'.status = w.status ∧ (w'.session.probeCount = 0 ↔ ∀ j, j ≠ i → ¬ (w.probe j).live) := by
  have live : (w.probe i).live := fun zero => nonzero (mine.symm.trans zero)
  have edited := clearMoved h live
  have here : ((w.setProbe i (clearedAction (w.probe i))).probe i).probeId = id := by
    rw [setProbeHere,ProbeRules.clearedId]
    exact mine
  obtain ⟨last,gone,tables,only,dead,_⟩ :=
    @retireLands _ o i (movedTables edited) (by rw [Probe.live,here]; exact nonzero)
  rw [here] at gone
  have others : ∀ j, j ≠ i → last.probe j = w.probe j := (onlyTrans edited.only only).others
  refine ⟨last,gone,(onlyTrans edited.only only).status,
    (emptyCount tables.entries).trans ⟨fun none_ j other => ?_,fun none_ j => ?_⟩⟩
  · rw [← others j other]; exact none_ j
  · by_cases this : j = i
    · subst this; exact dead
    · rw [show last.session.probes j = w.probe j from others j this]; exact none_ j this

theorem removeMoving {id} (h : Rests m.world) (running : m.world.status = .running)
    (moving : m.moving = true) :
    (remove m id o a).1.moving = true ↔ ∀ i, probeFindById m.world.session id = some i →
      AfterStop o a (((m.world.probe i).state = .installed →
        (m.world.probe i).origLen ≠ 0 ∧ o.safe = true ∧ o.restore = true) ∧ ∃ j, j ≠ i ∧
          (m.world.probe j).live) := by
  unfold remove
  split
  · next zero => exact ⟨fun _ i found => absurd zero (findByIdSome found).1,fun _ => moving⟩
  · cases found : probeFindById m.world.session id with
    | none => exact ⟨fun _ i none_ => absurd none_ (by simp),fun _ => moving⟩
    | some i =>
      obtain ⟨nonzero,_⟩ := findByIdSome found
      have only_ : ∀ P : Fin 32 → Prop, (∀ j, some i = some j → P j) ↔ P i :=
        fun P => ⟨fun all => all i rfl,fun ok j same => Option.some.inj same ▸ ok⟩
      rw [only_]
      dsimp only
      rw [if_neg (by rw [running]; simp)]
      unfold AfterStop
      cases interrupt : o.interrupt with
      | false => simp [stopThreads,running,interrupt,moving]
      | true =>
        have halted := haltedRests h
        obtain ⟨w',ok,back,tables,only,mine,when⟩ :=
          @takenBack o { m.world with status := .stopped } i id halted found
        simp only [stopThreads,running,interrupt,if_true]
        rw [back,show ((m.world.probe i).state = .installed → _) ↔ _ from when.symm]
        cases ok with
        | false => simp
        | true =>
          obtain ⟨last,gone,status,empty⟩ := @retired o w' i id tables nonzero mine
          have others : (∃ j, j ≠ i ∧ (m.world.probe j).live) ↔ last.session.probeCount ≠ 0 := by
            rw [ne_eq,empty]
            push Not
            exact exists_congr fun j => and_congr_right fun other => by rw [only.others j other]
          dsimp only
          rw [gone,others]
          dsimp only
          split
          · next zero => simp [zero]
          · next more =>
            refine (resumeMoving (status.trans only.status) rfl).trans ?_
            simp [more]

/-! A trace that is stopped has stopped the threads, whatever the commands. -/
theorem stillFrozen (frozen : m.moving = false) : Still m := fun _ => frozen

theorem stillInactive (inactive : m.world.status = .inactive) : Still m := fun stopped => by
  rw [inactive] at stopped; cases stopped

theorem stopKeeps (h : Still m) : Still (stopThreads m o a).1 ∧
    ((stopThreads m o a).2 = true → (stopThreads m o a).1.moving = false) := by
  unfold stopThreads
  split
  · exact ⟨h,fun bad => by cases bad⟩
  · next stopped => exact ⟨h,fun _ => h stopped⟩
  · next running =>
    split
    · exact ⟨stillFrozen rfl,fun _ => rfl⟩
    · exact ⟨fun stopped => (by rw [running] at stopped; cases stopped),fun bad => by cases bad⟩

theorem resumeKeeps (h : Still m) : Still (resumeThreads m o).1 := by
  unfold resumeThreads
  split
  · exact h
  · exact h
  · split
    · exact fun bad => by cases bad
    · exact h

theorem whileStoppedKeeps (body : World → World × Bool) (h : Still m) :
    Still (whileStopped m o a body).1 := by
  unfold whileStopped
  have kept := @stopKeeps m o a h
  generalize stopThreads m o a = r at kept ⊢
  obtain ⟨m',ok⟩ := r
  cases ok with
  | false => exact kept.1
  | true =>
    have frozen : m'.moving = false := kept.2 rfl
    dsimp only
    generalize body m'.world = r
    obtain ⟨w,done⟩ := r
    cases done with
    | false => exact stillFrozen frozen
    | true => exact resumeKeeps (stillFrozen frozen)

theorem traceStopKeeps {each} (h : Still m) : Still (stop m o each a).1 := by
  unfold stop
  split
  · exact h
  · have kept := @stopKeeps m o a h
    generalize stopThreads m o a = r at kept ⊢
    obtain ⟨m',ok⟩ := r
    cases ok with
    | false => exact kept.1
    | true => exact stillFrozen (kept.2 rfl)

theorem startKeeps {name filter each} (h : Still m)
    (frozen : m.world.status = .inactive → m.moving = false) :
    Still (start isa disasm m name filter o each a).1 := by
  unfold start
  split
  · exact whileStoppedKeeps _ h
  · next inactive =>
    have frozen : m.moving = false := frozen (not_not.mp inactive)
    split
    · exact h
    · dsimp only
      split
      · exact stillFrozen frozen
      · generalize installProbe isa disasm _ name filter o = r
        obtain ⟨w,done⟩ := r
        cases done with
        | false => exact stillFrozen frozen
        | true =>
          have kept := @resumeKeeps ⟨{ w with status := .stopped },m.moving⟩ o (stillFrozen frozen)
          dsimp only
          generalize resumeThreads ⟨{ w with status := .stopped },m.moving⟩ o = r at kept ⊢
          obtain ⟨m',resumed⟩ := r
          cases resumed with
          | true => exact kept
          | false => exact traceStopKeeps kept

theorem removeKeeps {id} (h : Still m) (rests : Rests m.world) : Still (remove m id o a).1 := by
  unfold remove
  split
  · exact h
  · cases found : probeFindById m.world.session id with
    | none => exact h
    | some i =>
      obtain ⟨nonzero,mine⟩ := findByIdSome found
      dsimp only
      split
      · next inactive =>
          exact absurd (fun zero => nonzero (mine.symm.trans zero)) (rests.closed inactive i)
      · have kept := @stopKeeps m o a h
        generalize stopThreads m o a = r at kept ⊢
        obtain ⟨m',ok⟩ := r
        cases ok with
        | false => exact kept.1
        | true =>
          have frozen : m'.moving = false := kept.2 rfl
          dsimp only
          split
          · exact stillFrozen frozen
          · split
            · exact stillFrozen frozen
            · split
              · exact stillFrozen frozen
              · exact resumeKeeps (stillFrozen frozen)

theorem performKeeps {c : Command} (h : Still m) (rests : Rests m.world) :
    Still (perform isa disasm m c) := by
  unfold perform
  cases c.action with
  | trace name filter =>
    simp only [cmdTrace]
    split
    · exact h
    · split
      · next inactive =>
        split
        · exact stillInactive inactive
        · split
          · exact stillInactive inactive
          · exact startKeeps (stillInactive inactive) fun _ => rfl
      · next active => exact startKeeps h fun bad => absurd bad active
  | enable id =>
    simp only [enable]
    split
    · exact h
    · split
      · exact h
      · split
        · exact h
        · exact whileStoppedKeeps _ h
  | disable id =>
    simp only [disable]
    split
    · exact h
    · split
      · exact h
      · split
        · exact h
        · exact whileStoppedKeeps _ h
  | remove id => exact removeKeeps h rests
  | pause =>
    dsimp only
    split
    · next inactive => exact stillInactive inactive
    · exact (stopKeeps h).1
  | continue_ =>
    dsimp only
    split
    · next inactive => exact stillInactive inactive
    · exact resumeKeeps h
  | shutdown =>
    dsimp only
    split
    · exact h
    · exact traceStopKeeps h

theorem performsKeep {calls : List Command} : ∀ {m : Machine}, Rests m.world → Still m →
    (∀ c ∈ calls, Maps c.outcome) →
    Rests (performAll isa disasm m calls).world ∧ Still (performAll isa disasm m calls) := by
  induction calls with
  | nil => exact fun rests still _ => ⟨rests,still⟩
  | cons c rest ih =>
    intro m rests still maps
    exact ih (performRests rests (maps c (by simp))) (performKeeps still rests) fun d member =>
      maps d (by simp [member])

theorem performMoving {c : Command} (rests : Rests m.world) (still : Still m)
    (moving : m.moving = true) (maps : Maps c.outcome)
    (manages : Manages c.action) : (perform isa disasm m c).moving = true ↔
      Resumes isa disasm m.world c := by
  have notStopped : m.world.status ≠ .stopped := fun stopped => by
    rw [still stopped] at moving; cases moving
  obtain ⟨action,o,each,a⟩ := c
  unfold perform Resumes
  -- An inactive trace has no entry that the operations on one could find.
  have unknown : m.world.status = .inactive → ∀ id, probeFindById m.world.session id = none :=
    fun inactive id => by
    cases found : probeFindById m.world.session id with
    | none => rfl
    | some i =>
      obtain ⟨nonzero,mine⟩ := findByIdSome found
      exact absurd (fun zero => nonzero (mine.symm.trans zero)) (rests.closed inactive i)
  cases action with
  | trace name filter =>
    dsimp only
    unfold cmdTrace
    cases a.parsed with
    | false => simp [moving]
    | true =>
      simp only [Bool.not_true,Bool.false_eq_true,if_false,true_implies]
      by_cases inactive : m.world.status = .inactive
      · rw [if_pos inactive,if_pos inactive]
        cases a.stopTarget with
        | false => simp [moving]
        | true =>
          cases a.logPath with
          | false => simp
          | true =>
            simp only [Bool.not_true,Bool.false_eq_true,if_false,true_and,if_true]
            exact @startMoving isa disasm { m with moving := false } o a name filter each rests maps
              inactive rfl
      · rw [if_neg inactive,if_neg inactive]
        have running : m.world.status = .running := by
          cases status : m.world.status with
          | inactive => exact absurd status inactive
          | stopped => exact absurd status notStopped
          | running => rfl
        rw [start,if_pos inactive]
        exact installActiveMoving rests maps running moving
  | enable id =>
    dsimp only
    cases status : m.world.status with
    | inactive => simp [enable,status,moving]
    | stopped => exact absurd status notStopped
    | running => simpa using enableMoving rests maps status moving
  | disable id =>
    dsimp only
    cases status : m.world.status with
    | inactive => simp [disable,status,moving]
    | stopped => exact absurd status notStopped
    | running => simpa using disableMoving status moving
  | remove id =>
    dsimp only
    cases status : m.world.status with
    | inactive => simp [remove,unknown status id,moving]
    | stopped => exact absurd status notStopped
    | running => simpa using removeMoving rests status moving
  | pause | continue_ | shutdown => cases manages

/- For every run and every operation on a running target: the threads run again when it
returns exactly when nothing failed after the stop and, for a removal, a probe is left. -/
theorem runStateKept {text : Memory} {moves : Bool} {calls : List Command}
    (maps : ∀ c ∈ calls, Maps c.outcome) (c : Command)
    (managed : Manages c.action) (mapped : Maps c.outcome)
    (moving : (performAll isa disasm ⟨World.init text,moves⟩ calls).moving = true) :
    (perform isa disasm (performAll isa disasm ⟨World.init text,moves⟩ calls) c).moving = true ↔
      Resumes isa disasm (performAll isa disasm ⟨World.init text,moves⟩ calls).world c := by
  obtain ⟨rests,still⟩ :=
    @performsKeep isa disasm calls ⟨World.init text,moves⟩ (initRests text).1
    (fun bad => by cases bad) maps
  exact performMoving rests still moving mapped managed

end Threads

def aroundSmooth : Around := ⟨true,true,true,true⟩

def oneTraced : List Command :=
  [⟨.trace ['f'] none,ProbeText.smooth 0x1000,fun _ => ProbeText.smooth 0,aroundSmooth⟩]

theorem smoothMaps (addr : Nat) : Maps (ProbeText.smooth addr) := by
  intro a same
  cases same
  decide

theorem oneTracedMaps : ∀ c ∈ oneTraced, Maps c.outcome := by
  intro c member
  cases List.mem_singleton.mp member
  exact smoothMaps 0x1000

theorem disabledRunning :
    (perform .aarch64 (fun _ => [])
    (performAll .aarch64 (fun _ => []) ⟨World.init ProbeText.counting,true⟩ oneTraced)
    ⟨.disable 1,ProbeText.smooth 0,fun _ => ProbeText.smooth 0,aroundSmooth⟩).moving = true := by
  refine (runStateKept oneTracedMaps ⟨.disable 1,ProbeText.smooth 0,fun _ => ProbeText.smooth 0,
    aroundSmooth⟩ trivial
    (smoothMaps 0) (by decide +kernel)).mpr ?_
  intro i _ found _
  have first : probeFindById
      (performAll .aarch64 (fun _ => []) ⟨World.init ProbeText.counting,
      true⟩ oneTraced).world.session 1 =
      some 0 := by decide +kernel
  cases Option.some.inj (first.symm.trans found)
  have saved : ((performAll .aarch64 (fun _ => []) ⟨World.init ProbeText.counting,
      true⟩ oneTraced).world.probe 0).origLen ≠ 0 := by
    decide +kernel
  exact ⟨⟨saved,rfl,rfl⟩,rfl⟩

/- The name of the second trace is unknown, or the only probe is removed. -/
theorem unknownSymbolFreezes :
    let m := performAll .aarch64 (fun _ => []) ⟨World.init ProbeText.counting,true⟩ oneTraced
    m.moving = true ∧
      (perform .aarch64 (fun _ => []) m ⟨.trace ['g'] none,
        { ProbeText.smooth 0 with lookup := none },
        fun _ => ProbeText.smooth 0,aroundSmooth⟩).moving = false ∧
      (perform .aarch64 (fun _ => []) m ⟨.remove 1,ProbeText.smooth 0,fun _ => ProbeText.smooth 0,
        aroundSmooth⟩).moving = false := by
  decide +kernel

end ZeroTrace.RunState
