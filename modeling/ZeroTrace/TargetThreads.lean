import ZeroTrace.ProbeText

/-! The threads of the target while probes come and go: where they are, and what is
taken away under them. The single steps of the safety check are moves of the target like
any other, taken just before the operation; the jump of a patch is one move on both
machines. The payload keeps the address of the trace buffer for good. -/
namespace ZeroTrace.TargetThreads
open ByteMemory PatchCode FilterSyntax ProbeTable TrampolinePool ProbeLifecycle ProbeSteps ProbeText

/- `payload` is `entry_stub` and what it calls; `exiting` is `exit_stub` and what it calls. -/
inductive Place where
  | code (pc : Nat) | slot (s : Fin 32) | payload | exiting
  deriving DecidableEq, Repr

/- `returns` are the slots that handlers on the stack will return to, `calls` those that
functions called by a moved prologue will return to, `pending` the probed calls that will
return through `exit_stub`. -/
structure TargetThread where
  place : Place
  returns : List (Fin 32)
  calls : List (Fin 32)
  pending : Nat
  deriving DecidableEq, Repr

structure Target (n : Nat) where
  world : World
  threads : Fin n → TargetThread

def jumpSlot (isa : Isa) (w : World) (pc : Nat) : Option (Fin 32) :=
  if w.runtime.pool.remoteAddr = 0 then none
  else (List.finRange 32).find? fun s =>
    Holds w.text pc (jumpPatch isa (poolSlotAddr w.runtime.pool s))

inductive Move where
  | run (pc : Nat)
  | jump
  | call
  | back
  | leave (pc : Nat)
  | callOut (pc : Nat)
  | comeBack
  | act (pc : Nat)
  | acted
  | exit
  | resume (pc : Nat)

def moveThread (isa : Isa) (w : World) (th : TargetThread) : Move → Option TargetThread
  | .run pc => match th.place with
    | .code old => if jumpSlot isa w old = none then some { th with place := .code pc } else none
    | _ => none
  | .jump => match th.place with
    | .code old => (jumpSlot isa w old).map fun s => { th with place := .slot s }
    | _ => none
  | .call => match th.place with
    | .slot s => some { th with place := .payload, returns := s::th.returns }
    | _ => none
  | .back => match th.place,th.returns with
    | .payload,s::rest =>
        some { th with place := .slot s, returns := rest, pending := th.pending + 1 }
    | _,_ => none
  | .leave pc => match th.place with
    | .slot _ => some { th with place := .code pc }
    | _ => none
  -- A call in the moved prologue: its return address is in the slot.
  | .callOut pc => match th.place with
    | .slot s => some { th with place := .code pc, calls := s::th.calls }
    | _ => none
  | .comeBack => match th.place,th.calls with
    | .code _,s::rest => some { th with place := .slot s, calls := rest }
    | _,_ => none
  -- A call action calls into the target from the handler, and comes back to it.
  | .act pc => match th.place,th.returns with
    | .payload,_::_ => some { th with place := .code pc }
    | _,_ => none
  | .acted => match th.place,th.returns with
    | .code _,_::_ => some { th with place := .payload }
    | _,_ => none
  | .exit => match th.place with
    | .code _ => if th.pending = 0 then none else some { th with place := .exiting }
    | _ => none
  | .resume pc => match th.place with
    | .exiting => some { th with place := .code pc, pending := th.pending - 1 }
    | _ => none

def pcIsInsidePatchRegion (w : World) (pc : Nat) : Bool :=
  pc != 0 && (List.finRange 32).any fun i =>
    (w.probe i).probeId != 0 && (w.probe i).origLen != 0 &&
      decide (Inside (w.probe i).target.remoteAddr (w.probe i).origLen pc)

/- No thread is left inside a patch region; places outside the code never are. -/
def patchRegionsAreSafe {n} (T : Target n) : Bool :=
  (List.finRange n).all fun t => match (T.threads t).place with
  | .code pc => !pcIsInsidePatchRegion T.world pc
  | _ => true

/- A start that cannot resume the threads goes on as a stop, which is an act of its own. -/
inductive Act (n : Nat) where
  | move (t : Fin n) (m : Move)
  | start (name : Name) (filter : Option ProbeFilter) (o : Outcome) (each : Fin 32 → Outcome)
  | enable (id : Nat) (o : Outcome)
  | disable (id : Nat) (o : Outcome)
  | remove (id : Nat) (o : Outcome)
  | stop (o : Outcome) (each : Fin 32 → Outcome)

variable {n : Nat} (isa : Isa) (disasm : Disassembler)

/- What `zt_trace_remove_probe` finds: its safety check looks at the threads. -/
def removed (T : Target n) (id : Nat) (o : Outcome) : World × Bool :=
  traceRemoveProbe T.world id { o with safe := o.safe && patchRegionsAreSafe T }

def perform (T : Target n) : Act n → Target n
  | .move t m => match moveThread isa T.world (T.threads t) m with
    | some th => { T with threads := Function.update T.threads t th }
    | none => T
  | .start name filter o each =>
    { T with world := (traceStart isa disasm T.world name filter { o with resume := true } each).1 }
  | .enable id o => { T with world := (traceEnableProbe isa disasm T.world id o).1 }
  | .disable id o => { T with world := (traceDisableProbe T.world id o).1 }
  | .remove id o => { T with world := (removed T id o).1 }
  | .stop o each => { T with world := (traceStop T.world o each).1 }

def moveAll (w : World) (th : TargetThread) : List Move → Option TargetThread
  | [] => some th
  | m::rest => (moveThread isa w th m).bind fun th' => moveAll w th' rest

def MayHandle (w : World) (th : TargetThread) : Prop :=
  ∃ moves th', moveAll isa w th moves = some th' ∧ (th'.place = .payload ∨ th'.place = .exiting)

/- The program counter or a return address of the thread is in the slot. -/
def TargetThread.uses (th : TargetThread) (s : Fin 32) : Prop :=
  th.place = .slot s ∨ s ∈ th.returns ∨ s ∈ th.calls

/- The slot was in use and is not any more, or its pool is gone. -/
def LetGo (w w' : World) (s : Fin 32) : Prop :=
  w.runtime.pool.slotUsed s = true ∧ w'.runtime.pool.slotUsed s = false ∨
    w.runtime.pool.remoteAddr ≠ 0 ∧ w'.runtime.pool.remoteAddr = 0

def BufferUnmapped (w w' : World) (o : Outcome) : Prop :=
  w.runtime.traceBufferAddr ≠ 0 ∧ w'.runtime.traceBufferAddr = 0 ∧ o.munmapBuffer = true

/- Nothing that a thread can still reach is taken away. -/
def Harmless (T : Target n) (w' : World) (o : Outcome) : Prop :=
  (∀ s, LetGo T.world w' s → ∀ t, ¬ (T.threads t).uses s) ∧
    (BufferUnmapped T.world w' o → ∀ t, ¬ MayHandle isa w' (T.threads t))

def StepHarmless (T : Target n) : Act n → Prop
  | .remove id o => Harmless isa T (removed T id o).1 o
  | .stop o each => Harmless isa T (traceStop T.world o each).1 o
  | _ => True

def Along (P : Target n → Act n → Prop) : Target n → List (Act n) → Prop
  | _,[] => True
  | T,a::rest => P T a ∧ Along P (perform isa disasm T a) rest

/-! The condition, in the state before the step. -/

/- The thread runs the target's own code, comes back to no slot, and has no handler on its
stack or ahead of it. -/
def Outside (th : TargetThread) : Prop := (∃ pc, th.place = .code pc) ∧ th.returns = [] ∧
    th.calls = [] ∧ th.pending = 0

/- The removal of the probe in this entry gets past its patch. -/
structure Proceeds (T : Target n) (i : Fin 32) (o : Outcome) : Prop where
  active : T.world.status ≠ .inactive
  stops : T.world.status = .running → o.interrupt = true
  restores : (T.world.probe i).state = .installed →
    (T.world.probe i).origLen ≠ 0 ∧ (o.safe = true ∧ patchRegionsAreSafe T = true) ∧
      o.restore = true

def Returned (w : World) (i : Fin 32) (s : Fin 32) : Prop :=
  slotValid (w.probe i).trampolineSlot = some s ∧
    ¬ (w.runtime.pool.remoteAddr ≠ 0 ∧ w.runtime.pool.slotUsed s = true ∧
      slotBelongsToProbe w.runtime.pool (w.probe i) s = false)

/- With the last probe every slot goes, with another one its own slot, and all of them if
no other slot is in use. -/
def Loses (w : World) (i : Fin 32) (o : Outcome) (s : Fin 32) : Prop :=
  if w.session.probeCount ≤ 1 then w.runtime.pool.slotUsed s = true ∨ w.runtime.pool.remoteAddr ≠ 0
  else Returned w i s ∧ w.runtime.pool.slotUsed s = true ∨
    w.runtime.pool.remoteAddr ≠ 0 ∧ o.munmapPool = true ∧
      ∃ s', Returned w i s' ∧ ∀ other, other ≠ s' → w.runtime.pool.slotUsed other = false

def StepClear (T : Target n) : Act n → Prop
  | .remove id o => ∀ i, probeFindById T.world.session id = some i → Proceeds T i o →
      (∀ s, Loses T.world i o s → ∀ t, ¬ (T.threads t).uses s) ∧
      (T.world.session.probeCount ≤ 1 → T.world.runtime.traceBufferAddr ≠ 0 →
        o.munmapBuffer = true →
        ∀ t, Outside (T.threads t))
  | .stop o _ => T.world.status ≠ .inactive → (T.world.status = .running → o.interrupt = true) →
      (∀ s, T.world.runtime.pool.slotUsed s = true ∨ T.world.runtime.pool.remoteAddr ≠ 0 →
        ∀ t, ¬ (T.threads t).uses s) ∧
      (T.world.runtime.traceBufferAddr ≠ 0 → o.munmapBuffer = true → ∀ t, Outside (T.threads t))
  | _ => True

variable {isa} {w : World} {o : Outcome} {i : Fin 32}

/-! Threads that can come to a handler. -/
theorem jumpNowhere (closed : w.runtime.pool.remoteAddr = 0)
    (pc : Nat) : jumpSlot isa w pc = none := if_pos closed

theorem outsideStays {th th' m} (closed : w.runtime.pool.remoteAddr = 0) (out : Outside th)
    (moved : moveThread isa w th m = some th') : Outside th' := by
  obtain ⟨⟨pc,place⟩,returns,calls,pending⟩ := out
  cases m with
  | run dest =>
    simp only [moveThread,place,jumpNowhere closed,if_true,Option.some.injEq] at moved
    subst moved
    exact ⟨⟨dest,rfl⟩,returns,calls,pending⟩
  | jump => simp [moveThread,place,jumpNowhere closed] at moved
  | call => simp [moveThread,place] at moved
  | back => simp [moveThread,place] at moved
  | leave dest => simp [moveThread,place] at moved
  | callOut dest => simp [moveThread,place] at moved
  | comeBack => simp [moveThread,place,calls] at moved
  | act dest => simp [moveThread,place] at moved
  | acted => simp [moveThread,place,returns] at moved
  | exit => simp [moveThread,place,pending] at moved
  | resume dest => simp [moveThread,place] at moved

theorem outsideForever {th th' moves} (closed : w.runtime.pool.remoteAddr = 0) (out : Outside th)
    (moved : moveAll isa w th moves = some th') : Outside th' := by
  induction moves generalizing th with
  | nil => cases moved; exact out
  | cons m rest ih =>
    obtain ⟨next,first,later⟩ := Option.bind_eq_some_iff.mp moved
    exact ih (outsideStays closed out first) later

theorem mayHandleIff {th} (closed : w.runtime.pool.remoteAddr = 0) :
    MayHandle isa w th ↔ ¬ Outside th := by
  constructor
  · intro handles out
    obtain ⟨moves,th',moved,at_⟩ := handles
    obtain ⟨⟨pc,place⟩,_⟩ := outsideForever closed out moved
    rw [place] at at_
    rcases at_ with bad | bad <;> cases bad
  · intro inside
    cases place : th.place with
    | slot s => exact ⟨[.call],{ th with place := .payload, returns := s::th.returns },
        by simp [moveAll,moveThread,place],.inl rfl⟩
    | payload => exact ⟨[],th,rfl,.inl place⟩
    | exiting => exact ⟨[],th,rfl,.inr place⟩
    | code pc =>
      cases returns : th.returns with
      | cons s rest => exact ⟨[.acted],{ th with place := .payload },
          by simp [moveAll,moveThread,place,returns],.inl rfl⟩
      | nil => cases calls : th.calls with
        | cons s rest =>
          -- Back in the slot, whatever is left of it to run.
          exact ⟨[.comeBack,.call],
            { th with place := .payload, returns := s::th.returns, calls := rest },
            by simp [moveAll,moveThread,place,calls],.inl rfl⟩
        | nil =>
          have pending : th.pending ≠ 0 := fun zero => inside ⟨⟨pc,place⟩,returns,calls,zero⟩
          exact ⟨[.exit],{ th with place := .exiting },by simp [moveAll,moveThread,place,pending],
            .inr rfl⟩

/-! What an operation leaves of the runtime. -/
theorem runningRuntime (w o) : (ensureRunning w o).1.runtime = w.runtime := by
  unfold ensureRunning
  split
  · rfl
  · rfl
  · split <;> rfl

theorem stoppedCases (w o) :
    (w.status ≠ .inactive ∧ (w.status = .running → o.interrupt = true)) ∧
      ensureStopped w o = ({ w with status := .stopped },true) ∨
    ¬ (w.status ≠ .inactive ∧ (w.status = .running → o.interrupt = true)) ∧
      ensureStopped w o = (w,false) := by
  obtain ⟨session,runtime,status,text,prepared⟩ := w
  unfold ensureStopped
  cases status with
  | inactive => exact .inr ⟨by simp,rfl⟩
  | stopped => exact .inl ⟨by simp,rfl⟩
  | running =>
    cases interrupt : o.interrupt with
    | true => exact .inl ⟨by simp,by simp⟩
    | false => exact .inr ⟨by simp,by simp⟩

theorem stopRuntime {each} (active : w.status ≠ .inactive)
    (stops : w.status = .running → o.interrupt = true) :
    (traceStop w o each).1.runtime = .zero := by
  unfold traceStop
  rw [if_neg active]
  rcases stoppedCases w o with ⟨_,stopped⟩ | ⟨bad,_⟩
  · rw [stopped]
    rfl
  · exact absurd ⟨active,stops⟩ bad

theorem stopNothing {each}
    (bad : ¬ (w.status ≠ .inactive ∧ (w.status = .running → o.interrupt = true))) :
    (traceStop w o each).1 = w := by
  unfold traceStop
  split
  · rfl
  · rcases stoppedCases w o with ⟨ok,_⟩ | ⟨_,failed⟩
    · exact absurd ok bad
    · rw [failed]

theorem findSet {s : Session} {p : Probe} (id : Nat) (same : p.probeId = (s.probes i).probeId) :
    probeFindById (s.set i p) id = probeFindById s id := by
  unfold probeFindById
  have ids : ∀ j, ((s.set i p).probes j).probeId = (s.probes j).probeId := by
    intro j
    by_cases here : j = i
    · subst here; simpa using same
    · simp [here]
  simp only [ids]

theorem releaseSame {pool : Pool} {p q : Probe} {munmap}
    (slot : q.trampolineSlot = p.trampolineSlot)
    (addr : q.trampolineAddr = p.trampolineAddr) :
    (poolRelease pool q munmap).1 = (poolRelease pool p munmap).1 := by
  unfold poolRelease slotBelongsToProbe
  rw [slot,addr]
  cases slotValid p.trampolineSlot with
  | none => rfl
  | some s => dsimp only; split <;> rfl

theorem releaseId (w : World) (i : Fin 32) (o : Outcome) :
    (poolRelease w.runtime.pool (w.probe i) o.munmapPool).2.probeId = (w.probe i).probeId := by
  unfold poolRelease
  split
  · rfl
  · split <;> rfl

def retired (w : World) (i : Fin 32) (id : Nat) (o : Outcome) : World × Bool :=
  match unregister (releaseSlot (w.setProbe i (clearedAction (w.session.probes i))) i o) id with
  | (w,false) => (w,false)
  | (w,true) =>
    if w.session.probeCount = 0 then
      (resetActive { w with runtime := (cleanupRuntime w.runtime o).1 },
        (cleanupRuntime w.runtime o).2)
    else ensureRunning w o

theorem clearedSame (p : Probe) : (clearedAction p).probeId = p.probeId ∧
    (clearedAction p).trampolineSlot = p.trampolineSlot ∧
      (clearedAction p).trampolineAddr = p.trampolineAddr := by
  unfold clearedAction
  split <;> exact ⟨rfl,rfl,rfl⟩

theorem retiredRuntime {id} (found : probeFindById w.session id = some i) :
    (retired w i id o).1.runtime = if w.session.probeCount ≤ 1 then .zero
      else { w.runtime with pool := (poolRelease w.runtime.pool (w.probe i) o.munmapPool).1 } := by
  have cleared := clearedSame (w.probe i)
  have here := setProbeHere w i (clearedAction (w.probe i))
  have still : probeFindById (releaseSlot (w.setProbe i (clearedAction (w.probe i))) i o).session
      id = some i := by
    have first : probeFindById (w.setProbe i (clearedAction (w.probe i))).session id = some i :=
      (findSet id cleared.1).trans found
    refine (findSet id ?_).trans first
    exact releaseId (w.setProbe i (clearedAction (w.probe i))) i o
  have pool : (releaseSlot (w.setProbe i (clearedAction (w.probe i))) i o).runtime =
      { w.runtime with pool := (poolRelease w.runtime.pool (w.probe i) o.munmapPool).1 } := by
    have same := @releaseSame w.runtime.pool (w.probe i) (clearedAction (w.probe i)) o.munmapPool
        cleared.2.1 cleared.2.2
    rw [← here] at same
    exact congrArg (fun pool => ({ w.runtime with pool := pool } : Runtime)) same
  have count : (releaseSlot (w.setProbe i (clearedAction (w.probe i))) i o).session.probeCount =
      w.session.probeCount := rfl
  unfold retired unregister unregisterProbe
  rw [show probeFindById
    (releaseSlot (w.setProbe i (clearedAction (w.session.probes i))) i o).session id = _ from still]
  dsimp only
  rw [show decide ((0 : Int) = 0) = true from rfl]
  dsimp only
  rw [count]
  by_cases last : w.session.probeCount ≤ 1
  · rw [if_pos (by omega),if_pos last]
    rfl
  · rw [if_neg (by omega),if_neg last,runningRuntime]
    exact pool

theorem removeCases {id} (found : probeFindById w.session id = some i) (o : Outcome) :
    let ready := (w.probe i).state = .installed → (w.probe i).origLen ≠ 0 ∧ o.safe = true ∧
      o.restore = true
    ((w.status ≠ .inactive ∧ (w.status = .running → o.interrupt = true)) ∧ ready ∧
      ∃ w', w'.session.probeCount = w.session.probeCount ∧ w'.runtime = w.runtime ∧
        (w'.probe i).trampolineSlot = (w.probe i).trampolineSlot ∧
        (w'.probe i).trampolineAddr = (w.probe i).trampolineAddr ∧
        probeFindById w'.session id = some i ∧ traceRemoveProbe w id o = retired w' i id o) ∨
    ¬ ((w.status ≠ .inactive ∧ (w.status = .running → o.interrupt = true)) ∧ ready) ∧
      (traceRemoveProbe w id o).1.runtime = w.runtime := by
  dsimp only
  have live := (findByIdSome found).1
  unfold traceRemoveProbe
  rw [if_neg live,found]
  dsimp only
  by_cases inactive : w.status = .inactive
  · rw [if_pos inactive]
    exact .inr ⟨fun both => both.1.1 inactive,rfl⟩
  · rw [if_neg inactive]
    rcases stoppedCases w o with ⟨ok,stopped⟩ | ⟨bad,failed⟩
    · rw [stopped]
      dsimp only
      by_cases installed : (w.probe i).state = .installed
      · rw [if_pos installed]
        rcases @uninstallRuns { w with status := .stopped } i id found o
          with ⟨ready,done⟩ | ⟨unready,failed⟩
        · rw [done]
          refine .inl ⟨ok,fun _ => ready,unpatchedWorld { w with status := .stopped } i,rfl,rfl,?_,
            ?_,?_,rfl⟩
          · simp [unpatchedWorld,World.setProbe,World.probe]
          · simp [unpatchedWorld,World.setProbe,World.probe]
          · exact (@findSet i w.session { w.probe i with state := .disabled } id rfl).trans found
        · rw [failed]
          exact .inr ⟨fun both => unready (both.2 installed),rfl⟩
      · rw [if_neg installed]
        exact .inl ⟨ok,fun now => absurd now installed,{ w with status := .stopped },rfl,rfl,rfl,
          rfl,found,rfl⟩
    · rw [failed]
      exact .inr ⟨fun both => bad both.1,rfl⟩

theorem removedRuntime {T : Target n} {id} (found : probeFindById T.world.session id = some i)
    (go : Proceeds T i o) :
    (removed T id o).1.runtime = if T.world.session.probeCount ≤ 1 then .zero
      else { T.world.runtime
        with pool := (poolRelease T.world.runtime.pool (T.world.probe i) o.munmapPool).1 } := by
  rcases removeCases found { o with safe := o.safe && patchRegionsAreSafe T } with
    ⟨_,_,w',count,runtime,slot,addr,found',same⟩ | ⟨bad,_⟩
  · rw [removed,same,retiredRuntime found',count,runtime,releaseSame slot addr]
  · refine absurd ⟨⟨go.active,go.stops⟩,fun now => ?_⟩ bad
    obtain ⟨some_,safe,back⟩ := go.restores now
    exact ⟨some_,by simp [safe.1,safe.2],back⟩

theorem removedNothing {T : Target n} {id} (found : probeFindById T.world.session id = some i)
    (no : ¬ Proceeds T i o) :
    (removed T id o).1.runtime = T.world.runtime := by
  rcases removeCases found { o with safe := o.safe && patchRegionsAreSafe T }
    with ⟨ok,ready,_⟩ | ⟨_,same⟩
  · refine absurd ⟨ok.1,ok.2,fun now => ?_⟩ no
    obtain ⟨some_,safe,back⟩ := ready now
    exact ⟨some_,by simpa using safe,back⟩
  · exact same

theorem allFreeIff (pool : Pool) (s : Fin 32) :
    poolAllFree { pool with slotUsed := Function.update pool.slotUsed s false } = true ↔
      ∀ other, other ≠ s → pool.slotUsed other = false := by
  simp only [poolAllFree,List.all_eq_true,List.mem_finRange,forall_true_left,Bool.not_eq_true']
  constructor
  · intro all other differ
    have free := all other
    rwa [Function.update_of_ne differ] at free
  · intro others t
    by_cases same : t = s
    · subst same; simp
    · rw [Function.update_of_ne same]; exact others t same

def Released (w : World) (i : Fin 32) (munmap : Bool) (s : Fin 32) : Prop :=
  w.runtime.pool.slotUsed s = true ∧ (poolRelease w.runtime.pool (w.probe i) munmap).1.slotUsed s =
    false ∨
    w.runtime.pool.remoteAddr ≠ 0 ∧ (poolRelease w.runtime.pool (w.probe i) munmap).1.remoteAddr = 0

def GivesUp (w : World) (i : Fin 32) (munmap : Bool) (s : Fin 32) : Prop :=
  Returned w i s ∧ w.runtime.pool.slotUsed s = true ∨
    w.runtime.pool.remoteAddr ≠ 0 ∧ munmap = true ∧
      ∃ s', Returned w i s' ∧ ∀ other, other ≠ s' → w.runtime.pool.slotUsed other = false

theorem nothingReturned {munmap s} (none_ : ∀ t, ¬ Returned w i t)
    (same : (poolRelease w.runtime.pool (w.probe i) munmap).1 = w.runtime.pool) :
    Released w i munmap s ↔ GivesUp w i munmap s := by
  rw [Released,GivesUp,same]
  simp only [none_,false_and,exists_false,and_false,or_false,iff_false,not_or,not_and]
  exact ⟨fun used => by simp [used],fun open_ => open_⟩

theorem ownReturned {s0 munmap s} (valid : slotValid (w.probe i).trampolineSlot = some s0)
    (own : Returned w i s0) :
    Released w i munmap s ↔ GivesUp w i munmap s := by
  have mine : ∀ t, Returned w i t ↔ t = s0 := by
    intro t
    refine ⟨fun back => ?_,fun same => by rw [same]; exact own⟩
    exact Option.some.inj (back.1.symm.trans valid)
  have free := allFreeIff w.runtime.pool s0
  generalize freed :
    ({ w.runtime.pool with slotUsed := Function.update w.runtime.pool.slotUsed s0 false } : Pool) =
    pool at free
  have used : pool.slotUsed = Function.update w.runtime.pool.slotUsed s0 false := by rw [← freed]
  have addr : pool.remoteAddr = w.runtime.pool.remoteAddr := by rw [← freed]
  have released : (poolRelease w.runtime.pool (w.probe i) munmap).1 =
      if w.runtime.pool.remoteAddr ≠ 0 ∧ poolAllFree pool = true ∧
        munmap = true then .zero else pool := by
    rw [← freed]
    simp only [poolRelease,valid]
    rw [if_neg (by simpa [and_assoc] using own.2)]
    simp only [Bool.and_eq_true,decide_eq_true_eq,and_assoc]
  rw [Released,GivesUp,released]
  simp only [mine,exists_eq_left]
  split
  · next all => exact ⟨fun _ => .inr ⟨all.1,all.2.2,free.mp all.2.1⟩,fun _ => .inr ⟨all.1,rfl⟩⟩
  · next kept =>
    rw [used,addr]
    constructor
    · rintro (⟨busy,gone⟩ | ⟨open_,closed⟩)
      · refine .inl ⟨?_,busy⟩
        by_contra other
        rw [Function.update_of_ne other,busy] at gone
        cases gone
      · exact absurd closed open_
    · rintro (⟨same,busy⟩ | ⟨open_,unmaps,others⟩)
      · subst same
        exact .inl ⟨busy,by simp⟩
      · exact absurd ⟨open_,free.mpr others,unmaps⟩ kept

theorem releaseLetsGo (w : World) (i : Fin 32) (munmap : Bool) (s : Fin 32) :
    Released w i munmap s ↔ GivesUp w i munmap s := by
  cases valid : slotValid (w.probe i).trampolineSlot with
  | none =>
    refine nothingReturned (fun t back => ?_) (by simp [poolRelease,valid])
    rw [Returned,valid] at back
    cases back.1
  | some s0 =>
    by_cases foreign : w.runtime.pool.remoteAddr ≠ 0 ∧ w.runtime.pool.slotUsed s0 = true ∧
        slotBelongsToProbe w.runtime.pool (w.probe i) s0 = false
    · refine nothingReturned (fun t back => ?_) (by simp [poolRelease,valid,foreign])
      cases back.1.symm.trans valid
      exact back.2 foreign
    · exact ownReturned valid ⟨valid,foreign⟩

/- Nothing goes while the runtime stays. -/
theorem nothingLost {T : Target n} {w' : World} (same : w'.runtime = T.world.runtime) :
    Harmless isa T w' o := by
  refine ⟨fun s gone => ?_,fun gone => ?_⟩
  · rw [LetGo,same] at gone
    rcases gone with ⟨used,free⟩ | ⟨open_,closed⟩
    · rw [used] at free; cases free
    · exact absurd closed open_
  · rw [BufferUnmapped,same] at gone
    exact absurd gone.2.1 gone.1

theorem allLost {T : Target n} {w' : World} (zero : w'.runtime = .zero) : Harmless isa T w' o ↔
    (∀ s, T.world.runtime.pool.slotUsed s = true ∨ T.world.runtime.pool.remoteAddr ≠ 0 →
      ∀ t, ¬ (T.threads t).uses s) ∧
      (T.world.runtime.traceBufferAddr ≠ 0 → o.munmapBuffer = true →
        ∀ t, Outside (T.threads t)) := by
  have closed : w'.runtime.pool.remoteAddr = 0 := by rw [zero]; rfl
  have gone : ∀ s, LetGo T.world w' s ↔
      T.world.runtime.pool.slotUsed s = true ∨ T.world.runtime.pool.remoteAddr ≠ 0 := by
    intro s
    rw [LetGo,zero]
    simp [Runtime.zero,Pool.zero]
  have unmapped : BufferUnmapped T.world w' o ↔ T.world.runtime.traceBufferAddr ≠ 0 ∧
      o.munmapBuffer = true := by
    rw [BufferUnmapped,zero]
    simp [Runtime.zero]
  simp only [Harmless,gone,unmapped,mayHandleIff closed,not_not,and_imp]

theorem slotsLost {T : Target n} {w' : World} (released : w'.runtime =
      { T.world.runtime with
          pool := (poolRelease T.world.runtime.pool (T.world.probe i) o.munmapPool).1 }) :
    Harmless isa T w' o ↔ ∀ s, GivesUp T.world i o.munmapPool s → ∀ t, ¬ (T.threads t).uses s := by
  have gone : ∀ s, LetGo T.world w' s ↔ GivesUp T.world i o.munmapPool s := by
    intro s
    rw [LetGo,released]
    exact releaseLetsGo T.world i o.munmapPool s
  have kept : ¬ BufferUnmapped T.world w' o := by
    rw [BufferUnmapped,released]
    exact fun bad => bad.1 bad.2.1
  simp only [Harmless,gone,kept,false_imp_iff,and_true]

theorem removeHarmless {T : Target n} {id} (found : probeFindById T.world.session id = some i)
    (go : Proceeds T i o) :
    Harmless isa T (removed T id o).1 o ↔
      (∀ s, Loses T.world i o s → ∀ t, ¬ (T.threads t).uses s) ∧
      (T.world.session.probeCount ≤ 1 → T.world.runtime.traceBufferAddr ≠ 0 →
        o.munmapBuffer = true →
        ∀ t, Outside (T.threads t)) := by
  have runtime := removedRuntime found go
  by_cases last : T.world.session.probeCount ≤ 1
  · rw [if_pos last] at runtime
    simp only [allLost runtime,Loses,last,if_true,forall_true_left]
  · rw [if_neg last] at runtime
    simp only [slotsLost runtime,Loses,last,if_false,false_imp_iff,and_true,GivesUp]

theorem removeIff (T : Target n) (id : Nat) (o : Outcome) :
    StepHarmless isa T (.remove id o) ↔ StepClear T (.remove id o) := by
  simp only [StepHarmless,StepClear]
  cases found : probeFindById T.world.session id with
  | none =>
    refine ⟨fun _ i bad => (by cases bad),fun _ => nothingLost ?_⟩
    unfold removed traceRemoveProbe
    split
    · rfl
    · rw [found]
  | some i =>
    by_cases go : Proceeds T i o
    · rw [removeHarmless found go]
      refine ⟨fun clear j eq _ => ?_,fun clear => clear i rfl go⟩
      cases eq
      exact clear
    · have same := removedNothing found go
      refine ⟨fun _ j eq now => ?_,fun _ => nothingLost same⟩
      cases eq
      exact absurd now go

theorem stopIff (T : Target n) (o : Outcome) (each : Fin 32 → Outcome) :
    StepHarmless isa T (.stop o each) ↔ StepClear T (.stop o each) := by
  simp only [StepHarmless,StepClear]
  by_cases ok : T.world.status ≠ .inactive ∧ (T.world.status = .running → o.interrupt = true)
  · rw [allLost (stopRuntime ok.1 ok.2)]
    exact ⟨fun clear _ _ => clear,fun clear => clear ok.1 ok.2⟩
  · have same := @stopNothing T.world o each ok
    refine ⟨fun _ active stops => absurd ⟨active,stops⟩ ok,fun _ => nothingLost ?_⟩
    rw [same]

def attached : Target 1 := ⟨World.init counting,fun _ => ⟨.code 0x5000,[],[],0⟩⟩

/- Every step succeeds, and the trace buffer is mapped at 0x30000. -/
def buffered : Outcome := { smooth 0x1000 with setup := ⟨0x20000,0x21000,0x30000,0x40000,.zero⟩ }

/- The calls to munmap run at the thread's program counter and take the code away under it:
none of them comes to an end. -/
def unmappedUnder : Outcome :=
  { buffered with
      munmapPool := false, munmapPath := false, munmapConfig := false, munmapBuffer := false }

/- A thread is at the entry of the traced function, and the safety check steps it on. -/
def steppedIn : List (Act 1) :=
  [.start ['f'] none buffered fun _ => buffered,.move 0 (.run 0x1000),.move 0 .jump,
    .remove 1 unmappedUnder]

/- A thread is in the body of the traced function, past its trampoline. -/
def longRunning : List (Act 1) :=
  [.start ['f'] none buffered fun _ => buffered,.move 0 (.run 0x1000),.move 0 .jump,.move 0 .call,
    .move 0 .back,
    .move 0 (.leave 0x1010),.move 0 (.run 0x5000),.remove 1 buffered]

/- A thread is in a function that the moved prologue has called. -/
def calledOut : List (Act 1) :=
  [.start ['f'] none buffered fun _ => buffered,.move 0 (.run 0x1000),.move 0 .jump,.move 0 .call,
    .move 0 .back,
    .move 0 (.callOut 0x7000),.remove 1 buffered]

def after (acts : List (Act 1)) : Target 1 := acts.foldl (perform .aarch64 fun _ => []) attached

end ZeroTrace.TargetThreads
