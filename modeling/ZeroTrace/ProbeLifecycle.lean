import ZeroTrace.PatchCode
import ZeroTrace.TrampolinePool

/-! Tracing, enabling, disabling and untracing probes, and shutting the trace down.
Every call into the target is an answer from outside. Memory that the tracer maps is
its own, so the target's text is changed only by the patches, and by the remote calls, which
borrow the code under the stopped thread. Here they give it back; `BorrowedCode` has the same
operations where a call may leave its stub there. -/
namespace ZeroTrace.ProbeLifecycle
open ByteMemory PatchCode FilterSyntax ProbeTable TrampolinePool

inductive TraceStatus where
  | inactive | stopped | running
  deriving DecidableEq, Repr

structure Runtime where
  payloadPathAddr : Nat
  entryStubAddr : Nat
  traceBufferAddr : Nat
  payloadConfigAddr : Nat
  pool : Pool

def Runtime.zero : Runtime := ⟨0,0,0,0,.zero⟩

structure Region where
  symbol : Name
  addr : Nat
  len : Nat
  deriving DecidableEq, Repr

/- `prepared` is a history that no operation reads: the region of every probe whose
original bytes were saved. -/
structure World where
  session : Session
  runtime : Runtime
  status : TraceStatus
  text : Memory
  prepared : List Region

def regionOf (p : Probe) : Region := ⟨p.target.symbol,p.target.remoteAddr,p.origLen⟩

def World.init (text : Memory) : World := ⟨.init,.zero,.inactive,text,[]⟩

/- How the steps of one operation turn out. -/
structure Outcome where
  interrupt : Bool
  resume : Bool
  logOpen : Bool
  setup : Runtime
  setupDone : Bool
  lookup : Option (Name × Nat)
  readCode : Bool
  disasmOpen : Bool
  mmap : Option UInt64
  build : Bool
  writeTrampoline : Bool
  safe : Bool
  writePatch : Bool
  restore : Bool
  munmapPool : Bool
  munmapPath : Bool
  munmapConfig : Bool
  munmapBuffer : Bool

variable (isa : Isa) (disasm : Disassembler)

abbrev World.probe (w : World) (i : Fin 32) : Probe := w.session.probes i

def World.setProbe (w : World) (i : Fin 32) (p : Probe) : World :=
  { w with session := w.session.set i p }

theorem setProbeHere (w : World) (i : Fin 32) (p : Probe) : (w.setProbe i p).probe i = p :=
  setSame w.session i p

def World.setPool (w : World) (pool : Pool) : World :=
  { w with runtime := { w.runtime with pool := pool } }

/- What `zt_arch_calc_patch_span` makes of the bytes at the entry. -/
def entrySpan (opened : Bool) (text : Memory) (addr : Nat) : Option Nat :=
  calcPatchSpan isa disasm opened (read text addr probeOrigCodeMax) (probePatchLen isa)

def savedProbe (p : Probe) (text : Memory) (len : Nat) : Probe :=
  { p with
    origCode := (read text p.target.remoteAddr probeOrigCodeMax).take len ++ p.origCode.drop len
    origLen := len
    state := .prepared }

def enableProbe (w : World) (id : Nat) (o : Outcome) : World × Bool :=
  match probeFindById w.session id with
  | none => (w,false)
  | some i =>
    let p := w.session.probes i
    if p.state = .prepared ∨ p.state = .installed then (w,true)
    else if !o.readCode then (w,false)
    else match entrySpan isa disasm o.disasmOpen w.text p.target.remoteAddr with
      | none => (w,false)
      | some len =>
        if probeOrigCodeMax < len then (w,false)
        else ({ w.setProbe i (savedProbe p w.text len) with
          prepared := w.prepared ++ [regionOf (savedProbe p w.text len)] },true)

def archInstallJump (text : Memory) (patchAddr : Nat) (target : UInt64)
    (o : Outcome) : Memory × Bool :=
  if patchAddr = 0 ∨ target = 0 then (text,false)
  else if o.writePatch then (write text patchAddr (jumpPatch isa target),true) else (text,false)

def installProbePatch (w : World) (id : Nat) (trampolineAddr : UInt64)
    (o : Outcome) : World × Bool :=
  if trampolineAddr = 0 then (w,false) else match probeFindById w.session id with
    | none => (w,false)
    | some i =>
      let p := w.session.probes i
      if p.state ≠ .prepared ∨ p.origLen < probePatchLen isa then (w,false)
      else if !o.safe then (w,false)
      else match archInstallJump isa w.text p.target.remoteAddr trampolineAddr o with
        | (_,false) => (w,false)
        | (text,true) =>
          ({ w.setProbe i { p with trampolineAddr := trampolineAddr, state := .installed }
            with text := text },true)

def uninstallProbePatch (w : World) (id : Nat) (o : Outcome) : World × Bool :=
  match probeFindById w.session id with
  | none => (w,false)
  | some i =>
    let p := w.session.probes i
    if p.origLen = 0 then (w,false)
    else if !o.safe then (w,false)
    else if !o.restore then (w,false)
    else ({ w.setProbe i { p with state := .disabled } with
      text := write w.text p.target.remoteAddr (p.origCode.take p.origLen) },true)

def setProbeFilter (p : Probe) (filter : Option ProbeFilter) : Probe :=
  { p with filter := { filter.getD emptyFilter with probeId := p.probeId } }

structure InstallSnapshot where
  existed : Bool
  state : ProbeState
  trampolineAddr : UInt64
  trampolineSlot : Int
  origCode : List UInt8
  origLen : Nat
  filter : ProbeFilter

def captureProbeInstallSnapshot (p : Probe) (existed : Bool) : InstallSnapshot :=
  ⟨existed,p.state,p.trampolineAddr,p.trampolineSlot,p.origCode,p.origLen,p.filter⟩

def restoredProbe (p : Probe) (snap : InstallSnapshot) : Probe :=
  { p with
    state := snap.state
    trampolineAddr := snap.trampolineAddr
    trampolineSlot := snap.trampolineSlot
    origCode := snap.origCode
    origLen := snap.origLen
    filter := snap.filter }

def releaseSlot (w : World) (i : Fin 32) (o : Outcome) : World :=
  let released := poolRelease w.runtime.pool (w.session.probes i) o.munmapPool
  (w.setPool released.1).setProbe i released.2

def unregister (w : World) (id : Nat) : World × Bool :=
  ({ w with session := (unregisterProbe w.session id).1 },(unregisterProbe w.session id).2 = 0)

def rollbackProbeInstall (w : World) (i : Fin 32) (snap : InstallSnapshot) (o : Outcome) : World :=
  let p := w.session.probes i
  let w := if p.trampolineAddr ≠ 0 ∧ p.trampolineAddr ≠ snap.trampolineAddr then
    releaseSlot w i o else w
  if snap.existed then w.setProbe i (restoredProbe (w.session.probes i) snap)
    else (unregister w p.probeId).1

/- From the registered entry on: save the prologue, get a slot, write the trampoline,
patch. Whatever fails is rolled back. -/
def installRegistered (w : World) (i : Fin 32) (snap : InstallSnapshot)
    (o : Outcome) : World × Bool :=
  let id := (w.session.probes i).probeId
  match enableProbe isa disasm w id o with
  | (w,false) => (rollbackProbeInstall w i snap o,false)
  | (w,true) =>
    let (pool,p,addr) := poolAlloc w.runtime.pool (w.session.probes i) o.mmap
    let w := (w.setPool pool).setProbe i p
    match addr with
    | none => (rollbackProbeInstall w i snap o,false)
    | some trampolineAddr =>
      if !o.build then (rollbackProbeInstall w i snap o,false)
      else if !o.writeTrampoline then (rollbackProbeInstall w i snap o,false)
      else match installProbePatch isa w id trampolineAddr o with
        | (w,false) => (rollbackProbeInstall w i snap o,false)
        | (w,true) => (w,true)

def installProbe (w : World) (name : Name) (filter : Option ProbeFilter)
    (o : Outcome) : World × Bool :=
  let existing := probeFindBySymbol w.session name
  let (session,found) := registerProbe w.session name o.lookup
  let w := { w with session := session }
  match found with
  | none => (w,false)
  | some i =>
    let p := w.session.probes i
    let snap := captureProbeInstallSnapshot p existing.isSome
    if p.state = .installed then
      (if filter.isSome then w.setProbe i (setProbeFilter p filter) else w,true)
    else installRegistered isa disasm (w.setProbe i (setProbeFilter p filter)) i snap o

def munmapRegion (addr : Nat) (ok : Bool) : Nat × Bool :=
  if addr = 0 then (0,true) else if ok then (0,true) else (addr,false)

def cleanupRuntime (r : Runtime) (o : Outcome) : Runtime × Bool :=
  let path := munmapRegion r.payloadPathAddr o.munmapPath
  let config := munmapRegion r.payloadConfigAddr o.munmapConfig
  let buffer := munmapRegion r.traceBufferAddr o.munmapBuffer
  ({ r with payloadPathAddr := path.1, payloadConfigAddr := config.1, traceBufferAddr := buffer.1 },
    path.2 && config.2 && buffer.2)

def resetActive (w : World) : World := { w with runtime := .zero, status := .inactive }

def ensureStopped (w : World) (o : Outcome) : World × Bool := match w.status with
  | .inactive => (w,false)
  | .stopped => (w,true)
  | .running => if o.interrupt then ({ w with status := .stopped },true) else (w,false)

def ensureRunning (w : World) (o : Outcome) : World × Bool := match w.status with
  | .inactive => (w,false)
  | .running => (w,true)
  | .stopped => if o.resume then ({ w with status := .running },true) else (w,false)

def installActiveProbe (w : World) (name : Name) (filter : Option ProbeFilter)
    (o : Outcome) : World × Bool :=
  match ensureStopped w o with
  | (w,false) => (w,false)
  | (w,true) => match installProbe isa disasm w name filter o with
    | (w,false) => (w,false)
    | (w,true) => ensureRunning w o

/- One round of the loop in `zt_trace_stop`. A patch that could not be taken back does
not stop it: the slot is released and the probe forgotten all the same. -/
def stopProbe (w : World) (i : Fin 32) (o : Outcome) : World × Bool :=
  let p := w.session.probes i
  if p.probeId = 0 then (w,true) else
    let (w,done) := if p.state = .installed then uninstallProbePatch w p.probeId o else (w,true)
    ((unregister (releaseSlot w i o) p.probeId).1,done)

def stopProbes (w : World) (each : Fin 32 → Outcome) : List (Fin 32) → World × Bool
  | [] => (w,true)
  | i::rest =>
    let first := stopProbe w i (each i)
    let others := stopProbes first.1 each rest
    (others.1,first.2 && others.2)

def traceStop (w : World) (o : Outcome) (each : Fin 32 → Outcome) : World × Bool :=
  if w.status = .inactive then (w,false) else match ensureStopped w o with
    | (w,false) => (w,false)
    | (w,true) =>
      let (w,done) := stopProbes w each (List.finRange 32)
      (resetActive { w with runtime := (cleanupRuntime w.runtime o).1 },
        done && (cleanupRuntime w.runtime o).2)

def traceShutdown (w : World) (o : Outcome) (each : Fin 32 → Outcome) : World × Bool :=
  if w.status = .inactive then (w,true) else traceStop w o each

def traceStart (w : World) (name : Name) (filter : Option ProbeFilter) (o : Outcome)
    (each : Fin 32 → Outcome) :
    World × Bool :=
  if w.status ≠ .inactive then installActiveProbe isa disasm w name filter o
  else if !o.logOpen then (w,false)
  else
    let w := { resetActive w with runtime := { o.setup with pool := .zero } }
    if !o.setupDone then ({ w with runtime := (cleanupRuntime w.runtime o).1 },false)
    else match installProbe isa disasm w name filter o with
      | (w,false) => ({ w with runtime := (cleanupRuntime w.runtime o).1 },false)
      | (w,true) => match ensureRunning { w with status := .stopped } o with
        | (w,true) => (w,true)
        | (w,false) => ((traceStop w o each).1,false)

def traceDisableProbe (w : World) (id : Nat) (o : Outcome) : World × Bool :=
  if id = 0 ∨ w.status = .inactive then (w,false) else match probeFindById w.session id with
    | none => (w,false)
    | some i =>
      if (w.session.probes i).state ≠ .installed then (w,false) else match ensureStopped w o with
        | (w,false) => (w,false)
        | (w,true) => match uninstallProbePatch w id o with
          | (w,false) => (w,false)
          | (w,true) => ensureRunning w o

def traceEnableProbe (w : World) (id : Nat) (o : Outcome) : World × Bool :=
  if id = 0 ∨ w.status = .inactive then (w,false) else match probeFindById w.session id with
    | none => (w,false)
    | some i =>
      let p := w.session.probes i
      if p.state = .installed then
        (w,true) else installActiveProbe isa disasm w p.target.symbol (some p.filter) o

/- Clearing the call action only touches fields that the end of the removal zeroes. -/
def clearedAction (p : Probe) : Probe :=
  if p.callAction.enabled ≠ 0 then { p with callAction := .zero, callSymbol := [] } else p

def traceRemoveProbe (w : World) (id : Nat) (o : Outcome) : World × Bool :=
  if id = 0 then (w,false) else match probeFindById w.session id with
    | none => (w,false)
    | some i =>
      if w.status = .inactive then unregister w id
      else match ensureStopped w o with
        | (w,false) => (w,false)
        | (w,true) =>
          match (if (w.session.probes i).state = .installed then
            uninstallProbePatch w id o else (w,true)) with
          | (w,false) => (w,false)
          | (w,true) =>
            let w := releaseSlot (w.setProbe i (clearedAction (w.session.probes i))) i o
            match unregister w id with
            | (w,false) => (w,false)
            | (w,true) =>
              if w.session.probeCount = 0 then
                (resetActive { w with runtime := (cleanupRuntime w.runtime o).1 },
                  (cleanupRuntime w.runtime o).2)
              else ensureRunning w o

inductive Op where
  | start (name : Name) (filter : Option ProbeFilter)
  | enable (id : Nat)
  | disable (id : Nat)
  | remove (id : Nat)
  | shutdown

def runOp (w : World) (op : Op) (o : Outcome) (each : Fin 32 → Outcome) : World × Bool :=
  match op with
  | .start name filter => traceStart isa disasm w name filter o each
  | .enable id => traceEnableProbe isa disasm w id o
  | .disable id => traceDisableProbe w id o
  | .remove id => traceRemoveProbe w id o
  | .shutdown => traceShutdown w o each

end ZeroTrace.ProbeLifecycle
