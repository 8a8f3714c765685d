import ZeroTrace.AddressOrigin

/-! The command line and the trace keep two states of their own: whether a target is
attached, and whether a trace is active. The trace is keyed by the session, and the one
session is used for every target in turn. -/
namespace ZeroTrace.CliSession
open ByteMemory PatchCode FilterSyntax ProbeTable ProbeLifecycle RunState AddressOrigin

/- `pid` is zero when nothing is attached. `log` is a history that no command reads: what
the operations got from a target, and from which. -/
structure Cli where
  attached : Bool
  pid : Nat
  machine : Machine
  log : List (Nat × Outcome)
  ended : Bool

abbrev Cli.world (s : Cli) : World := s.machine.world

def Cli.init : Cli := ⟨false,0,⟨World.init fun _ => 0,true⟩,[],false⟩

inductive Target where
  | id (n : Nat)
  | symbol (name : Name)

inductive Edit where
  | filter (filter : Option ProbeFilter)
  | call (action : CallAction) (symbol : Name) (slot : Int)

/- With how the target answers. `due`: the last poll is long enough ago. `gone`: the poll
finds that the target exited. -/
inductive CliCommand where
  | attach (pid : Nat) (text : Memory) (attaches continues : Bool)
  | detach
  | exit
  | trace (name : Name) (filter : Option ProbeFilter) (o : Outcome) (each : Fin 32 → Outcome)
      (a : Around)
  | stop (o : Outcome) (a : Around)
  | continue_ (o : Outcome) (a : Around)
  | enable (target : Target) (o : Outcome) (a : Around)
  | disable (target : Target) (o : Outcome) (a : Around)
  | disableAll (each : Fin 32 → Outcome) (a : Around)
  | update (target : Target) (edit : Edit)
  | untrace (target : Target) (o : Outcome) (a : Around)
  | poll (due gone : Bool)

def clearSession : Session := ⟨0,0,fun _ => .zero⟩

def injectorDetach (s : Cli) : Cli :=
  { s with pid := 0, machine := ⟨{ s.world with session := clearSession },true⟩ }

def cmdAttach (s : Cli) (pid : Nat) (text : Memory) (attaches continues : Bool) : Cli :=
  if pid = 0 then s
  else if s.attached then s
  else if !attaches then injectorDetach s
  else if !continues then { injectorDetach s with attached := false }
  else { s with
    attached := true
    pid := pid
    machine := ⟨{ s.world with session := .init, text := text, prepared := [] },true⟩ }

/- Neither this nor the exit asks whether a trace is active. -/
def cmdDetach (s : Cli) : Cli :=
  if !s.attached then s else { injectorDetach s with attached := false }

def cmdExit (s : Cli) : Cli := { cmdDetach s with ended := true }

def cliFindProbe (s : Session) : Target → Option Nat
  | .id n => (probeFindById s n).map fun _ => n
  | .symbol name => (probeFindBySymbol s name).map fun i => (s.probes i).probeId

variable (isa : Isa) (disasm : Disassembler)

def act (s : Cli) (action : Action) (o : Outcome) (each : Fin 32 → Outcome) (a : Around) : Cli :=
  { s with machine := perform isa disasm s.machine ⟨action,o,each,a⟩, log := s.log ++ [(s.pid,o)] }

def actOn (s : Cli) (target : Target) (action : Nat → Action) (o : Outcome) (a : Around) : Cli :=
  match cliFindProbe s.world.session target with
  | none => s
  | some id => act isa disasm s (action id) o (fun _ => o) a

def disableEach (s : Cli) (each : Fin 32 → Outcome) (a : Around) : List (Fin 32) → Cli
  | [] => s
  | i::rest =>
    let p := s.world.session.probes i
    if p.probeId = 0 ∨ p.state ≠ .installed then disableEach s each a rest
    else disableEach (act isa disasm s (.disable p.probeId) (each i) each a) each a rest

def editProbe (p : Probe) : Edit → Probe
  | .filter filter => setProbeFilter p filter
  | .call action symbol slot =>
      { p with callAction := action, callSymbol := symbol, callActionSlot := slot }

def cmdUpdate (s : Cli) (target : Target) (edit : Edit) : Cli :=
  match (cliFindProbe s.world.session target).bind (probeFindById s.world.session) with
  | none => s
  | some i => { s with machine := ⟨s.world.setProbe i (editProbe (s.world.probe i) edit),
      s.machine.moving⟩ }

/- Without a process `zt_process_is_exited` says that it exited. -/
def tracePoll (s : Cli) (gone : Bool) : Cli :=
  if s.world.status ≠ .running then s
  else if s.pid = 0 ∨ gone then { s with machine := ⟨resetActive s.world,s.machine.moving⟩ } else s

def step (s : Cli) (c : CliCommand) : Cli :=
  if s.ended then s else match c with
    | .attach pid text attaches continues => cmdAttach s pid text attaches continues
    | .detach => cmdDetach s
    | .exit => cmdExit s
    | .trace name filter o each a =>
        if !s.attached then s else act isa disasm s (.trace name filter) o each a
    | .stop o a => if !s.attached then s else act isa disasm s .pause o (fun _ => o) a
    | .continue_ o a => if !s.attached then s else act isa disasm s .continue_ o (fun _ => o) a
    | .enable target o a =>
      if !s.attached ∨ s.world.status = .inactive then s else actOn isa disasm s target .enable o a
    | .disable target o a =>
      if !s.attached ∨ s.world.status = .inactive then s else actOn isa disasm s target .disable o a
    | .disableAll each a =>
      if !s.attached ∨ s.world.status = .inactive then
        s else disableEach isa disasm s each a (List.finRange 32)
    | .update target edit => if !s.attached ∨ s.world.status = .inactive then
        s else cmdUpdate s target edit
    | .untrace target o a => if !s.attached then s else actOn isa disasm s target .remove o a
    | .poll due gone => if s.world.status = .inactive ∨ !due then s else tracePoll s gone

def runAll (s : Cli) : List CliCommand → Cli
  | [] => s
  | c::rest => runAll (step isa disasm s c) rest

def Cli.got (s : Cli) (o : Outcome) : Prop := (s.pid,o) ∈ s.log

/- Every remote address, patches and trampolines included, is one of the attached process. -/
def Owned (s : Cli) : Prop := s.world.status ≠ .inactive → s.attached = true ∧ Local s.got s.world

def LetsGo (s : Cli) : CliCommand → Prop
  | .detach | .exit => s.ended = true ∨ s.world.status = .inactive
  | _ => True

def EveryLetsGo (s : Cli) : List CliCommand → Prop
  | [] => True
  | c::rest => LetsGo s c ∧ EveryLetsGo (step isa disasm s c) rest

/-! A trace that starts takes its addresses anew. -/
section Steps
variable {isa disasm} {s : Cli}

structure Kept (got : Outcome → Prop) (w : World) : Prop where
  probes : ∀ i, Resident got (w.probe i)
  runtime : w.status ≠ .inactive → Mapping got w.runtime

theorem keptLocal {got w} (h : Local got w) : Kept got w := ⟨h.probes,fun _ => h.runtime⟩

theorem performKept {got : Outcome → Prop} {m : Machine} {c : Command} (h : Kept got m.world)
    (now : got c.outcome) :
    Kept got (perform isa disasm m c).world := by
  by_cases active : m.world.status = .inactive
  · unfold perform
    cases c.action with
    | trace name filter =>
      have started : ∀ m' : Machine, m'.world = m.world →
          Kept got (start isa disasm m' name filter c.outcome c.each c.around).1.world := by
        intro m' same
        have flat_ := congrArg Prod.fst
            (@startFlat isa disasm m' c.outcome c.each c.around name filter)
        rw [show (start isa disasm m' name filter c.outcome c.each c.around).1.world =
          _ from flat_,same]
        cases logs : c.outcome.logOpen with
        | false => simpa [traceStart,active,logs] using h
        | true =>
          -- The old runtime is zeroed first, so it may as well have been zero.
          have zeroed : Local got { m.world with runtime := .zero } := ⟨mappingZero,h.probes⟩
          have begun := @startLocal got isa disasm _ c.outcome name filter c.each zeroed now
          have alike : traceStart isa disasm { m.world with runtime := .zero } name filter c.outcome
              c.each =
              traceStart isa disasm m.world name filter c.outcome c.each := by
            simp [traceStart,active,logs,resetActive]
          rw [alike] at begun
          exact keptLocal begun
      simp only [cmdTrace,active,if_true]
      split
      · exact h
      · split
        · exact h
        · split
          · exact h
          · exact started _ rfl
    | enable id => simpa [enable,active] using h
    | disable id => simpa [disable,active] using h
    | remove id =>
      have zeroed : Local got { m.world with runtime := .zero } := ⟨mappingZero,h.probes⟩
      have gone := (@unregisterLocal got _ id zeroed).probes
      dsimp only
      unfold remove
      split
      · exact h
      · split
        · exact h
        · exact ⟨gone,fun bad => absurd active bad⟩
    | pause => simpa [active] using h
    | continue_ => simpa [active] using h
    | shutdown => simpa [active] using h
  · exact keptLocal (performLocal ⟨h.runtime active,h.probes⟩ now)

theorem keptMore {got more : Outcome → Prop} {w} (h : Kept got w)
    (grows : ∀ o, got o → more o) : Kept more w := by
  have map : Mapping got w.runtime → Mapping more w.runtime := fun r =>
    ⟨fun n => (r.path n).imp fun o ok => ⟨grows o ok.1,ok.2⟩,fun n => (r.stub n).imp fun o ok =>
      ⟨grows o ok.1,ok.2⟩,
      fun n => (r.buffer n).imp fun o ok => ⟨grows o ok.1,ok.2⟩,fun n =>
        (r.config n).imp fun o ok => ⟨grows o ok.1,ok.2⟩,
      fun n => (r.pool n).imp fun o ok => ⟨grows o ok.1,ok.2⟩⟩
  refine ⟨fun i => ⟨fun live => ?_,fun some_ => ?_⟩,fun active => map (h.runtime active)⟩
  · obtain ⟨o,path,ok,look⟩ := (h.probes i).target live
    exact ⟨o,path,grows o ok,look⟩
  · obtain ⟨o,base,slot,ok,mapped⟩ := (h.probes i).trampoline some_
    exact ⟨o,base,slot,grows o ok,mapped⟩

structure Good (s : Cli) : Prop where
  detached : s.attached = false → s.world.status = .inactive
  kept : s.attached = true → Kept s.got s.world

theorem goodOwned (h : Good s) : Owned s := fun active => by
  have attached : s.attached = true := by
    cases at_ : s.attached with
    | true => rfl
    | false => exact absurd (h.detached at_) active
  exact ⟨attached,(h.kept attached).runtime active,(h.kept attached).probes⟩

theorem actGood {action o each a} (h : Good s) (attached : s.attached = true) :
    Good (act isa disasm s action o each a) := by
  refine ⟨fun off => absurd attached (by simpa [act] using off),fun _ => ?_⟩
  refine performKept (keptMore (h.kept attached) fun o' member => ?_) ?_
  · exact List.mem_append_left _ member
  · exact List.mem_append_right _ (List.mem_singleton.mpr rfl)

theorem actOnGood {target action o a} (h : Good s) (attached : s.attached = true) :
    Good (actOn isa disasm s target action o a) := by
  unfold actOn
  split
  · exact h
  · exact actGood h attached

theorem disableEachGood {each a} (list : List (Fin 32)) : ∀ {s : Cli}, Good s → s.attached = true →
    Good (disableEach isa disasm s each a list) := by
  induction list with
  | nil => exact fun h _ => h
  | cons i rest ih =>
    intro s h attached
    unfold disableEach
    dsimp only
    split
    · exact ih h attached
    · exact ih (actGood h attached) attached

theorem updateGood {target edit} (h : Good s) (attached : s.attached = true) :
    Good (cmdUpdate s target edit) := by
  unfold cmdUpdate
  split
  · exact h
  · next i _ =>
    refine ⟨fun off => absurd attached (by simpa using off),
      fun _ => ⟨fun j => ?_,(h.kept attached).runtime⟩⟩
    have mine : Resident s.got (editProbe (s.world.probe i) edit) := by
      cases edit <;> exact residentEdit ((h.kept attached).probes i) rfl rfl (.inl rfl)
    change Resident s.got ((s.world.setProbe i (editProbe (s.world.probe i) edit)).probe j)
    by_cases same : j = i
    · subst same; simpa [World.setProbe,World.probe] using mine
    · simpa [World.setProbe,World.probe,Session.set,same] using (h.kept attached).probes j

theorem pollGood {gone} (h : Good s) : Good (tracePoll s gone) := by
  unfold tracePoll
  split
  · exact h
  · split
    · exact ⟨fun _ => rfl,fun attached => ⟨(h.kept attached).probes,fun bad => absurd rfl bad⟩⟩
    · exact h

theorem attachGood {pid text attaches continues} (h : Good s) :
    Good (cmdAttach s pid text attaches continues) := by
  unfold cmdAttach
  split
  · exact h
  · split
    · exact h
    · next off =>
      have idle := h.detached (by simpa using off)
      have off : s.attached = false := by simpa using off
      split
      · exact ⟨fun _ => idle,fun bad => absurd bad (by simp [injectorDetach,off])⟩
      · split
        · exact ⟨fun _ => idle,fun bad => absurd bad (by simp)⟩
        · exact ⟨fun _ => idle,fun _ => ⟨fun _ => residentZero,fun bad => absurd idle bad⟩⟩

theorem detachGood (h : Good s) (idle : s.world.status = .inactive) : Good (cmdDetach s) := by
  unfold cmdDetach
  split
  · exact h
  · exact ⟨fun _ => idle,fun bad => absurd bad (by simp)⟩

theorem stepGood {c : CliCommand} (h : Good s)
    (lets : LetsGo s c) : Good (step isa disasm s c) := by
  unfold step
  split
  · exact h
  · next on =>
    have attached : ∀ {P : Prop}, ¬ ((!s.attached) = true ∨ P) → s.attached = true := fun no => by
      cases at_ : s.attached with
      | true => rfl
      | false => exact absurd (.inl (by simp [at_])) no
    have attached' : ¬ (!s.attached) = true → s.attached = true := fun no => by simpa using no
    cases c with
    | attach pid text attaches continues => exact attachGood h
    | detach => exact detachGood h (lets.resolve_left on)
    | exit =>
      have gone := detachGood h (lets.resolve_left on)
      exact ⟨gone.detached,gone.kept⟩
    | trace name filter o each a =>
      dsimp only
      split
      · exact h
      · next yes => exact actGood h (attached' yes)
    | stop o a =>
      dsimp only
      split
      · exact h
      · next yes => exact actGood h (attached' yes)
    | continue_ o a =>
      dsimp only
      split
      · exact h
      · next yes => exact actGood h (attached' yes)
    | enable target o a =>
      dsimp only
      split
      · exact h
      · next yes => exact actOnGood h (attached yes)
    | disable target o a =>
      dsimp only
      split
      · exact h
      · next yes => exact actOnGood h (attached yes)
    | disableAll each a =>
      dsimp only
      split
      · exact h
      · next yes => exact disableEachGood _ h (attached yes)
    | update target edit =>
      dsimp only
      split
      · exact h
      · next yes => exact updateGood h (attached yes)
    | untrace target o a =>
      dsimp only
      split
      · exact h
      · next yes => exact actOnGood h (attached' yes)
    | poll due gone =>
      dsimp only
      split
      · exact h
      · exact pollGood h

theorem letsGoOwned {c : CliCommand} (now : Owned s)
    (after : Owned (step isa disasm s c)) : LetsGo s c := by
  have detached : s.ended = false → s.world.status ≠ .inactive → ¬ Owned (cmdDetach s) :=
    fun _ active owned => by
    have attached := (now active).1
    have off := (owned (by simpa [cmdDetach,attached,injectorDetach] using active)).1
    simp [cmdDetach,attached] at off
  by_cases on : s.ended = true
  · cases c <;> first | exact .inl on | trivial
  · by_cases idle : s.world.status = .inactive
    · cases c <;> first | exact .inr idle | trivial
    · have on : s.ended = false := by simpa using on
      cases c with
      | detach => exact absurd (by simpa [step,on] using after) (detached on idle)
      | exit =>
        have left : Owned (cmdExit s) := by simpa [step,on] using after
        exact absurd (fun active => left active) (detached on idle)
      | _ => trivial

/- For every sequence of commands and polls: the active trace belongs to the attached
process in every state on the way exactly when no target is let go during a trace. -/
theorem ownedThroughout (commands : List CliCommand) : ∀ {s : Cli}, Good s →
    ((∀ n, Owned (runAll isa disasm s (commands.take n))) ↔ EveryLetsGo isa disasm s commands) := by
  induction commands with
  | nil => exact fun h => ⟨fun _ => trivial,fun _ n => by simpa [runAll] using goodOwned h⟩
  | cons c rest ih =>
    intro s h
    constructor
    · intro all
      have lets : LetsGo s c := letsGoOwned (goodOwned h) (by simpa [runAll] using all 1)
      exact ⟨lets,(ih (stepGood h lets)).mp fun n => by simpa [runAll] using all (n + 1)⟩
    · rintro ⟨lets,more⟩ n
      cases n with
      | zero => simpa [runAll] using goodOwned h
      | succ n => simpa [runAll] using (ih (stepGood h lets)).mpr more n

theorem initGood : Good .init := ⟨fun _ => rfl,fun bad => by cases bad⟩

end Steps

theorem traceBelongsToAttached (commands : List CliCommand) :
    (∀ n, Owned (runAll isa disasm .init (commands.take n))) ↔
      EveryLetsGo isa disasm .init commands :=
  ownedThroughout commands initGood

/- A target is traced, paused and detached, and the next one is attached. -/
def leftActive : List CliCommand :=
  let o := { ProbeText.smooth 0x1000 with setup := ⟨0x7000,0x7100,0x7200,0x7300,.zero⟩ }
  [.attach 100 ProbeText.counting true true,.trace ['f'] none o (fun _ => o) aroundSmooth,
    .stop o aroundSmooth,.detach,
    .attach 200 ProbeText.counting true true]

theorem traceOutlivesDetach :
    ¬ Owned (runAll .aarch64 (fun _ => []) .init (leftActive.take 4)) ∧
      ¬ Owned (runAll .aarch64 (fun _ => []) .init leftActive) := by
  constructor
  · intro owned
    have active : (runAll .aarch64 (fun _ => []) .init (leftActive.take 4)).world.status ≠
        .inactive := by decide +kernel
    have off : (runAll .aarch64 (fun _ => []) .init (leftActive.take 4)).attached = false := by
      decide +kernel
    exact absurd (owned active).1 (by rw [off]; simp)
  · intro owned
    have active : (runAll .aarch64 (fun _ => []) .init leftActive).world.status ≠ .inactive := by
      decide +kernel
    have mapped : (runAll .aarch64 (fun _ => []) .init leftActive).world.runtime.pool.remoteAddr ≠
        0 := by decide +kernel
    have pid : (runAll .aarch64 (fun _ => []) .init leftActive).pid = 200 := by decide +kernel
    have earlier : (runAll .aarch64 (fun _ => []) .init leftActive).log.map Prod.fst = [100,100] :=
      by decide +kernel
    obtain ⟨o,got,_⟩ := (owned active).2.runtime.pool mapped
    have listed := List.mem_map_of_mem got (f := Prod.fst)
    rw [earlier,pid] at listed
    simp at listed

end ZeroTrace.CliSession
