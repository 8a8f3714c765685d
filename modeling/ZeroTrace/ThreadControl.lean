import ZeroTrace.SharedCalls

/-! Stopping and resuming the threads of the target with ptrace: what the kernel does, and
the table of threads that the tracer keeps beside it. -/
namespace ZeroTrace.ThreadControl
open SharedRead SharedCalls

def sigTrap : Nat := 5
def ptraceEventStop : Nat := 128

/-! The kernel. A thread that dies keeps its number until its tracer has waited for it. -/
inductive Stop where
  | delivery (sig : Nat) (real : 0 < sig ∧ sig ≤ 64 ∧ sig ≠ sigTrap)
  | trap
  | eventStop (sig : Nat)
  | syscall
  deriving DecidableEq

/- `WSTOPSIG` and what is above it. -/
structure WaitStatus where
  sig : Nat
  event : Nat
  deriving DecidableEq, Repr

def Stop.status : Stop → WaitStatus
  | .delivery sig _ => ⟨sig,0⟩
  | .trap => ⟨sigTrap,0⟩
  | .eventStop sig => ⟨sig,ptraceEventStop⟩
  | .syscall => ⟨sigTrap + 0x80,0⟩

def Stop.signal : Stop → Nat
  | .delivery sig _ => sig
  | _ => 0

/- `seen`: the tracer has collected this stop. -/
inductive Life where
  | running
  | stopped (stop : Stop) (seen : Bool)
  | dead
  deriving DecidableEq

/- `owed` is a history: the ordinary signal of the last collected stop, until the thread is
resumed. -/
structure Task where
  life : Life
  traced : Bool
  owed : Nat
  deriving DecidableEq

/- `forked` and `resumed` are histories too: who created a thread since the last
enumeration, and, for every resume, the thread, the signal injected and the one owed. -/
structure Kernel where
  task : Nat → Option Task
  forked : Nat → Bool
  resumed : List (Nat × Nat × Nat)

def Kernel.put (k : Kernel) (t : Nat) (task : Option Task) : Kernel :=
  { k with task := Function.update k.task t task }

def Kernel.alive (k : Kernel) (t : Nat) : Prop := t ≠ 0 ∧ ∃ task, k.task t = some task ∧
    task.life ≠ .dead

/- Only a stopped tracee takes requests other than an interrupt. -/
def Kernel.held (k : Kernel) (t : Nat) : Prop :=
  ∃ task stop seen, k.task t = some task ∧ task.traced = true ∧ task.life = .stopped stop seen

inductive Move : Kernel → Kernel → Prop where
  | clone {k : Kernel} {parent child task} (runs : k.task parent = some task)
      (running : task.life = .running)
      (free : k.task child = none) (numbered : parent ≠ 0) :
      Move k { k.put child (some ⟨.running,false,0⟩)
        with forked := Function.update k.forked parent true }
  | exit {k : Kernel} {t task} (lives : k.task t = some task) (alive : task.life ≠ .dead) :
      Move k (k.put t (if task.traced then some { task with life := .dead } else none))
  | stop {k : Kernel} {t task stop} (runs : k.task t = some task) (running : task.life = .running)
      (traced : task.traced = true) :
      Move k (k.put t (some { task with life := .stopped stop false }))

/- A wait is for one thread or for any, without blocking; a resume is `PTRACE_CONT` or
`PTRACE_SINGLESTEP`. -/
inductive Call where
  | list
  | seize (t : Nat)
  | interrupt (t : Nat)
  | wait (who : Option Nat)
  | resume (single : Bool) (t sig : Nat)
  | detach (t sig : Nat)
  | getPc (t : Nat)
  | processIsExited
  | exeLink
  | checkIsPie
  | readImageBase
  deriving DecidableEq, Repr

/- `esrch` is ECHILD too. An interrupted wait is made again. -/
inductive Errno where
  | ok | esrch | other
  deriving DecidableEq, Repr

inductive Event where
  | stopped (status : WaitStatus)
  | exited
  deriving DecidableEq, Repr

inductive Answer where
  | tids (listed : Option (List Nat))
  | errno (e : Errno)
  | event (t : Nat) (e : Event)
  | pc (pc : Nat)
  | size (n : Option Nat)
  | flag (yes : Bool)
  deriving DecidableEq, Repr

def Kernel.resume (k : Kernel) (t sig : Nat) (task : Task) (traced : Bool) : Kernel :=
  { k.put t (some ⟨.running,traced,0⟩) with resumed := k.resumed ++ [(t,sig,task.owed)] }

/- A request that may fail for other reasons leaves everything as it was. -/
inductive Serve : Kernel → Call → Answer → Kernel → Prop where
  | listed {k : Kernel} {l} (all : ∀ t, t ∈ l ↔ k.alive t) :
      Serve k .list (.tids (some l)) { k with forked := fun _ => false }
  | unlisted {k} : Serve k .list (.tids none) k
  | seized {k : Kernel} {t task} (lives : k.task t = some task) (alive : task.life ≠ .dead)
      (free : task.traced = false) :
      Serve k (.seize t) (.errno .ok) (k.put t (some { task with traced := true }))
  | seizeGone {k : Kernel} {t} (gone : k.task t = none) : Serve k (.seize t) (.errno .esrch) k
  | seizeRefused {k : Kernel} {t task} (there : k.task t = some task) :
      Serve k (.seize t) (.errno .other) k
  | interrupted {k : Kernel} {t task} (lives : k.task t = some task) (alive : task.life ≠ .dead)
      (traced : task.traced = true) :
      Serve k (.interrupt t) (.errno .ok) k
  | interruptGone {k : Kernel} {t} (gone : ∀ task, k.task t = some task → task.traced = true →
      task.life = .dead) :
      Serve k (.interrupt t) (.errno .esrch) k
  | interruptRefused {k t} : Serve k (.interrupt t) (.errno .other) k
  | waitStopped {k : Kernel} {t task stop who} (which : who = some t ∨ who = none)
      (there : k.task t = some task)
      (traced : task.traced = true) (stopped : task.life = .stopped stop false) :
      Serve k (.wait who) (.event t (.stopped stop.status))
        (k.put t (some { task with life := .stopped stop true, owed := stop.signal }))
  | waitExited {k : Kernel} {t task who} (which : who = some t ∨ who = none)
      (there : k.task t = some task)
      (traced : task.traced = true) (dead : task.life = .dead) :
        Serve k (.wait who) (.event t .exited) (k.put t none)
  | waitGone {k : Kernel} {t} (gone : ∀ task, k.task t = some task → task.traced = false) :
      Serve k (.wait (some t)) (.errno .esrch) k
  | waitRefused {k t} : Serve k (.wait (some t)) (.errno .other) k
  | anyFailed {k e} : Serve k (.wait none) (.errno e) k
  | resumed {k : Kernel} {single t sig task stop seen} (there : k.task t = some task)
      (traced : task.traced = true)
      (stopped : task.life = .stopped stop seen) :
        Serve k (.resume single t sig) (.errno .ok) (k.resume t sig task true)
  | resumeGone {k : Kernel} {single t sig} (gone : ¬ k.held t) :
      Serve k (.resume single t sig) (.errno .esrch) k
  | resumeRefused {k single t sig} : Serve k (.resume single t sig) (.errno .other) k
  | detached {k : Kernel} {t sig task stop seen} (there : k.task t = some task)
      (traced : task.traced = true)
      (stopped : task.life = .stopped stop seen) :
        Serve k (.detach t sig) (.errno .ok) (k.resume t sig task false)
  | detachGone {k : Kernel} {t sig} (gone : ¬ k.held t) : Serve k (.detach t sig) (.errno .esrch) k
  | pc {k : Kernel} {t pc} (held : k.held t) : Serve k (.getPc t) (.pc pc) k
  | pcGone {k : Kernel} {t} (gone : ¬ k.held t) : Serve k (.getPc t) (.errno .esrch) k
  | pcRefused {k t} : Serve k (.getPc t) (.errno .other) k
  | isExited {k b} : Serve k .processIsExited (.flag b) k
  | link {k n} : Serve k .exeLink (.size n) k
  | isPie {k b} : Serve k .checkIsPie (.flag b) k
  | imageBase {k b} : Serve k .readImageBase (.flag b) k

abbrev Tracer := Program Call Answer

def threadsCapacity : Nat := 256
def maxStopPasses : Nat := 16
def patchRegionMaxSingleSteps : Nat := 8

structure Thread where
  tid : Nat
  stopped : Bool
  resumeSignal : Nat
  deriving DecidableEq, Repr

structure Session where
  pid : Nat
  threads : List Thread
  threadsStopped : Bool
  targetExited : Bool
  deriving DecidableEq, Repr

def Session.zero : Session := ⟨0,[],false,false⟩

def errnoOf : Answer → Errno
  | .errno e => e
  | _ => .other

def resumeSignalFromStatus (status : WaitStatus) : Nat :=
  if status.event = ptraceEventStop ∨ status.sig = sigTrap ∨ status.sig = sigTrap + 0x80 then
    0 else status.sig

def threadClear : Thread := ⟨0,false,0⟩

def threadMarkRunning (th : Thread) : Thread := { th with stopped := false, resumeSignal := 0 }

def threadMarkStopped (th : Thread) (status : WaitStatus) : Thread :=
  { th with stopped := true, resumeSignal := resumeSignalFromStatus status }

def hasThread (s : Session) (tid : Nat) : Bool := tid != 0 && s.threads.any fun th => th.tid == tid

def addThread (s : Session) (tid : Nat) : Session × Bool :=
  if tid = 0 then (s,false)
  else if hasThread s tid then (s,true)
  else if threadsCapacity ≤ s.threads.length then (s,false)
  else ({ s with threads := s.threads ++ [⟨tid,false,0⟩] },true)

def seizeThread (s : Session) (tid : Nat) : Tracer (Session × Bool) :=
  if hasThread s tid then pure (s,true) else do
    match errnoOf (← ask (.seize tid)) with
    | .ok => pure (addThread s tid)
    | .esrch => pure (s,true)
    | .other => pure (s,false)

def seizeEach (s : Session) : List Nat → Tracer (Session × Bool)
  | [] => pure (s,true)
  | tid::rest => if tid = 0 then seizeEach s rest else do
    match ← seizeThread s tid with
    | (s,false) => pure (s,false)
    | (s,true) => seizeEach s rest

def refreshThreads (s : Session) : Tracer (Session × Bool) :=
  if s.pid = 0 then pure (s,false) else do
    match ← ask .list with
    | .tids (some l) => seizeEach s l
    | _ => pure (s,false)

/- One request after the other over the table; a failure leaves the rest as it is. -/
def eachThread (f : Thread → Tracer (Thread × Bool)) : List Thread → Tracer (List Thread × Bool)
  | [] => pure ([],true)
  | th::rest => do
    match ← f th with
    | (th,false) => pure (th::rest,false)
    | (th,true) => do
      let (rest,ok) ← eachThread f rest
      pure (th::rest,ok)

def interruptThread (th : Thread) : Tracer (Thread × Bool) :=
  if th.tid = 0 ∨ th.stopped = true then pure (th,true) else do
    match errnoOf (← ask (.interrupt th.tid)) with
    | .ok => pure (th,true)
    | .esrch => pure (threadClear,true)
    | .other => pure (th,false)

def waitForThreadStop (th : Thread) : Tracer (Thread × Bool) :=
  if th.tid = 0 then pure (th,false) else do
    match ← ask (.wait (some th.tid)) with
    | .event _ (.stopped status) => pure (threadMarkStopped th status,true)
    | .event _ .exited => pure (threadClear,true)
    | .errno .esrch => pure (threadClear,true)
    | _ => pure (th,false)

def waitThread (th : Thread) : Tracer (Thread × Bool) :=
  if th.tid = 0 ∨ th.stopped = true then pure (th,true) else waitForThreadStop th

def compactThreads (s : Session) : Session :=
  { s with threads := s.threads.filter fun th => th.tid != 0 }

def hasUnstoppedThread (s : Session) : Bool := s.threads.any fun th => th.tid != 0 && !th.stopped

def stopPasses : Nat → Session → Tracer (Session × Bool)
  | 0,s => pure (s,false)
  | n+1,s => do
    match ← eachThread interruptThread s.threads with
    | (threads,false) => pure ({ s with threads := threads },false)
    | (threads,true) =>
      match ← eachThread waitThread threads with
      | (threads,false) => pure ({ s with threads := threads },false)
      | (threads,true) =>
        match ← refreshThreads (compactThreads { s with threads := threads }) with
        | (s,false) => pure (s,false)
        | (s,true) => if hasUnstoppedThread s then
            stopPasses n s else pure ({ s with threadsStopped := true },true)

def interruptAll (s : Session) : Tracer (Session × Bool) :=
  if s.pid = 0 then pure (s,false) else do
    match ← refreshThreads s with
    | (s,false) => pure (s,false)
    | (s,true) => stopPasses maxStopPasses s

def continueThread (th : Thread) : Tracer (Thread × Bool) :=
  if th.tid = 0 ∨ th.stopped = false then pure (th,true) else do
    match errnoOf (← ask (.resume false th.tid th.resumeSignal)) with
    | .ok => pure (threadMarkRunning th,true)
    | .esrch => pure (threadClear,true)
    | .other => pure (th,false)

def continueAll (s : Session) : Tracer (Session × Bool) :=
  if s.pid = 0 then pure (s,false) else do
    match ← eachThread continueThread s.threads with
    | (threads,false) => pure ({ s with threads := threads },false)
    | (threads,true) =>
        pure ({ compactThreads { s with threads := threads } with threadsStopped := false },true)

def markTargetExited (s : Session) : Session :=
  { s with targetExited := true, threadsStopped := false }

def noteThreadExit (s : Session) (tid : Nat) : Session :=
  if tid = s.pid then markTargetExited s else s

def setThread (s : Session) (tid : Nat) (f : Thread → Thread) : Session :=
  { s with threads := s.threads.map fun th => if th.tid = tid then f th else th }

def dropThread (s : Session) (tid : Nat) : Session :=
  compactThreads (setThread s tid fun _ => threadClear)

def reportIfTargetExited (s : Session) : Tracer (Session × Bool) :=
  if s.targetExited = true ∨ s.threads = [] then pure (markTargetExited s,true) else do
    match ← ask .processIsExited with
    | .flag true => pure (markTargetExited s,true)
    | _ => pure (s,true)

/- The loop goes on as long as events come; `fuel` bounds how many. -/
def pollLoop : Nat → Session → Tracer (Session × Bool)
  | 0,s => pure (s,true)
  | fuel+1,s => do
    match ← ask (.wait none) with
    | .event tid event =>
      if !hasThread s tid then match event with
        | .exited => pollLoop fuel (noteThreadExit s tid)
        | .stopped _ => pollLoop fuel s
      else match event with
        | .exited =>
          let s := dropThread (noteThreadExit s tid) tid
          pollLoop fuel (if s.threads = [] then markTargetExited s else s)
        | .stopped status =>
          let s := setThread s tid fun th => threadMarkStopped th status
          match errnoOf (← ask (.resume false tid (resumeSignalFromStatus status))) with
          | .ok => pollLoop fuel (setThread s tid threadMarkRunning)
          | .esrch => pollLoop fuel (dropThread s tid)
          | .other => pure (s,false)
    | .errno .ok => reportIfTargetExited s
    | .errno .esrch => reportIfTargetExited s
    | _ => pure (s,false)

def pollEvents (fuel : Nat) (s : Session) : Tracer (Session × Bool) :=
  if s.pid = 0 then pure (s,false)
  else if s.targetExited then pure (markTargetExited s,true) else do
    match ← refreshThreads s with
    | (s,false) =>
      match ← ask .processIsExited with
      | .flag true => pure (markTargetExited s,true)
      | _ => pure (s,false)
    | (s,true) => pollLoop fuel s

def singleStepThread (th : Thread) : Tracer (Thread × Bool) :=
  if th.tid = 0 ∨ th.stopped = false then pure (th,false) else do
    match errnoOf (← ask (.resume true th.tid th.resumeSignal)) with
    | .ok => waitForThreadStop (threadMarkRunning th)
    | .esrch => pure (threadClear,true)
    | .other => pure (th,false)

/- `inside`: the address is in a patch region of the session. -/
def stepOut (inside : Nat → Bool) : Nat → Thread → Tracer (Thread × Bool)
  | 0,th => pure (th,true)
  | n+1,th => do
    match ← ask (.getPc th.tid) with
    | .pc pc => if !inside pc then pure (th,true) else do
      match ← singleStepThread th with
      | (th,false) => pure (th,false)
      | (th,true) => stepOut inside n th
    | .errno .esrch => pure (threadClear,true)
    | _ => pure (th,false)

def makeThreadSafe (inside : Nat → Bool) (th : Thread) : Tracer (Thread × Bool) :=
  if th.tid = 0 ∨ th.stopped = false then pure (th,true) else do
    match ← stepOut inside patchRegionMaxSingleSteps th with
    | (th,false) => pure (th,false)
    | (th,true) =>
      if th.tid = 0 ∨ th.stopped = false then pure (th,true) else do
        match ← ask (.getPc th.tid) with
        | .pc pc => pure (th,!inside pc)
        | _ => pure (th,false)

def ensurePatchRegionsAreSafe (inside : Nat → Bool) (s : Session) : Tracer (Session × Bool) :=
  if s.threadsStopped = false then pure (s,false) else do
    match ← eachThread (makeThreadSafe inside) s.threads with
    | (threads,false) => pure ({ s with threads := threads },false)
    | (threads,true) => pure (compactThreads { s with threads := threads },true)

/- The signal of the stop is not passed on. -/
def detachThread (th : Thread) : Tracer (Thread × Bool) :=
  if th.tid = 0 then pure (th,true) else do
    let _ ← ask (.detach th.tid 0)
    pure (th,true)

def stopForDetach (s : Session) : Tracer Session :=
  if s.pid ≠ 0 ∧ s.threadsStopped = false then do
    let (s,_) ← interruptAll s
    pure s
  else pure s

def detach (s : Session) : Tracer Session := do
  let s ← stopForDetach s
  let _ ← eachThread detachThread s.threads
  pure .zero

/- `path_len` is unsigned: a failed `readlink` goes on with an empty path. -/
def tryAttach (pid : Nat) : Tracer (Session × Bool) := do
  match ← refreshThreads { Session.zero with pid := pid } with
  | (s,false) => pure (s,false)
  | (s,true) =>
    match ← interruptAll s with
    | (s,false) => pure (s,false)
    | (s,true) =>
      match ← ask .exeLink with
      | .size (some 0) => pure (s,false)
      | _ =>
        match ← ask .checkIsPie with
        | .flag true =>
          match ← ask .readImageBase with
          | .flag true => pure (s,true)
          | _ => pure (s,false)
        | _ => pure (s,false)

def attach (pid : Nat) : Tracer (Session × Bool) := do
  match ← tryAttach pid with
  | (s,true) => pure (s,true)
  | (s,false) => do
    let s ← detach s
    pure (s,false)

inductive Op where
  | attach (pid : Nat)
  | interruptAll
  | continueAll
  | pollEvents (fuel : Nat)
  | ensurePatchRegionsAreSafe (inside : Nat → Bool)
  | detach

/- What is attached already is not attached again, and zero is no process. -/
def perform (s : Session) : Op → Tracer Session
  | .attach pid => if s.pid ≠ 0 ∨ pid = 0 then pure s else do
    let (s,_) ← attach pid
    pure s
  | .interruptAll => do
    let (s,_) ← interruptAll s
    pure s
  | .continueAll => do
    let (s,_) ← continueAll s
    pure s
  | .pollEvents fuel => do
    let (s,_) ← pollEvents fuel s
    pure s
  | .ensurePatchRegionsAreSafe inside => do
    let (s,_) ← ensurePatchRegionsAreSafe inside s
    pure s
  | .detach => detach s

/- A tracer that starts has no tracee. A thread that job control holds counts as running: it
is not the tracer that holds it. -/
def Kernel.Untraced (k : Kernel) : Prop :=
  k.resumed = [] ∧ ∀ t task, k.task t = some task → task.life = .running ∧ task.traced = false ∧
    task.owed = 0

end ZeroTrace.ThreadControl
