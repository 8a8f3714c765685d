import Mathlib.Algebra.Group.Nat.Defs
import ZeroTrace.SharedRead
import ZeroTrace.TraceBuffer

/-! The tracer's poll of the ring, written as a program of single word reads. A
read answers nothing where the kernel call stops or fails. What the answers have
to do with any ring is said elsewhere; here they are whatever they are. -/
namespace ZeroTrace.RingReader
open SharedRead TraceBuffer

inductive RingLoc where
  | magic
  | writeSeq
  | committed (slot : Nat)
  | field (slot : Nat) (f : Field)
  deriving DecidableEq, Repr

abbrev Buffer := RingLoc → Nat
abbrev Read := Program RingLoc (Option Nat)

def readIovMax : Nat := 256

/- `process_vm_readv` up to the word where it stops, and just as well the
PTRACE_PEEKDATA loop up to the word where it fails: words read so far stay. -/
def readWords : List RingLoc → Buffer → Read (Bool × Buffer)
  | [],buf => .done (true,buf)
  | l::rest,buf => .load l fun
    | some v => readWords rest (Function.update buf l v)
    | none => .done (false,buf)

def readRemoteMemory (locs : List RingLoc) (buf : Buffer) : Read (Bool × Buffer) :=
  if locs = [] then pure (false,buf) else do
    let bulk ← readWords locs buf
    if bulk.1 then pure bulk else readWords locs bulk.2

def readEachWord : List RingLoc → Buffer → Read (Bool × Buffer)
  | [],buf => pure (true,buf)
  | l::rest,buf => do
    let one ← readRemoteMemory [l] buf
    if one.1 then readEachWord rest one.2 else pure one

def readRemoteIov (locs : List RingLoc) (buf : Buffer) : Read (Bool × Buffer) :=
  if locs = [] then pure (false,buf) else do
    let bulk ← readWords locs buf
    if bulk.1 then pure bulk else readEachWord locs bulk.2

def seqSlot (seq : Nat) : Nat := (seq - 1) % eventCapacity

theorem seqSlotBound (seq : Nat) : seqSlot seq < eventCapacity := Nat.mod_lt _ (by decide)

def commitLocs (start count : Nat) : List RingLoc :=
  (List.range' start count).map (fun seq => .committed (seqSlot seq))

def readCommitBatches (start count offset : Nat) (commits : Buffer) : Read (Bool × Buffer) :=
  if offset < count then do
    let batch ← readRemoteIov (commitLocs (start + offset) (min (count - offset) readIovMax))
      commits
    if batch.1 then readCommitBatches start count (offset + readIovMax) batch.2 else pure batch
  else pure (true,commits)
termination_by count - offset
decreasing_by simp only [readIovMax]; omega

def traceReadCommitSnapshot (start count : Nat) (commits : Buffer) : Read (Bool × Buffer) :=
  if start = 0 ∨ eventCapacity < count then pure (false,commits)
  else readCommitBatches start count 0 commits

/- One event as it lies in memory: the publication word, then the fields. -/
def eventLocs (slot : Nat) : List RingLoc := .committed slot :: Field.all.map (.field slot)

def readEventRuns (seq remaining : Nat) (events : Buffer) : Read (Bool × Buffer) :=
  if 0 < remaining then do
    let run := min (eventCapacity - seqSlot seq) remaining
    let part ← readRemoteMemory ((List.range' (seqSlot seq) run).flatMap eventLocs) events
    if part.1 then readEventRuns (seq + run) (remaining - run) part.2 else pure part
  else pure (true,events)
termination_by remaining
decreasing_by have := seqSlotBound seq; omega

def traceReadEventSnapshot (start count : Nat) (events : Buffer) : Read (Bool × Buffer) :=
  if start = 0 ∨ eventCapacity < count then pure (false,events)
  else readEventRuns start count events

/- g_commit_before, g_event_snapshot and g_commit_after. They keep what the last
poll left in them. -/
structure Snapshots where
  before : Buffer
  events : Buffer
  after : Buffer

def traceRefreshEventSnapshots (start count : Nat) (snap : Snapshots) : Read (Bool × Snapshots) :=
  if count = 0 then pure (true,snap) else do
    let before ← traceReadCommitSnapshot start count snap.before
    let snap := { snap with before := before.2 }
    if !before.1 then pure (false,snap) else
      let events ← traceReadEventSnapshot start count snap.events
      let snap := { snap with events := events.2 }
      if !events.1 then pure (false,snap) else
        let after ← traceReadCommitSnapshot start count snap.after
        pure (after.1,{ snap with after := after.2 })

inductive SlotStatus where
  | ready (event : Event)
  | pending
  | overwritten
  | readError

def Buffer.event (buf : Buffer) (slot : Nat) : Event :=
  ⟨buf (.committed slot),fun f => buf (.field slot f)⟩

def traceSnapshotSlot (seq : Nat) (snap : Snapshots) : SlotStatus :=
  if seq = 0 then .readError else
    let event := Buffer.event snap.events (seqSlot seq)
    let before := snap.before (.committed (seqSlot seq))
    let after := snap.after (.committed (seqSlot seq))
    if before = seq ∧ event.committedSeq = seq ∧ after = seq then .ready event
    else if seq < before ∨ seq < event.committedSeq ∨ seq < after then .overwritten
    else .pending

/- What one poll appends to the log: an event handed to `zt_dump_one_trace_event`
with its number, a loss marker, or the complaint about a foreign buffer. -/
inductive Record where
  | event (seq : Nat) (ev : Event)
  | lost (firstLost lostCount writeSeq : Nat)
  | magicMismatch

def traceLogLostEvents (firstLost lostCount writeSeq : Nat) : List Record :=
  if lostCount = 0 then [] else [.lost firstLost lostCount writeSeq]

structure Poll where
  ok : Bool
  lastSeq : Nat
  snap : Snapshots
  out : List Record

def Poll.fail (p : Poll) : Poll := { p with ok := false }

def traceReadBufferHeader : Read (Option (Nat × Nat)) := do
  let header ← readRemoteMemory [.magic,.writeSeq] (fun _ => 0)
  pure (if header.1 then some (header.2 .magic,header.2 .writeSeq) else none)

/- Jumping over what the producers have overwritten: the numbers from `seq` up to
the oldest one a ring with this write_seq can still hold are reported lost. -/
def skipLost (p : Poll) (seq writeSeq : Nat) : Poll :=
  { p with
    lastSeq := writeSeq - eventCapacity + 1 - 1
    out := p.out ++ traceLogLostEvents seq (writeSeq - eventCapacity + 1 - seq) writeSeq }

-- The fuel bounds the rounds of the `while`: `seq` grows in each of them and is a
-- 64-bit number.
def dumpLoop : Nat → Nat → Nat → Poll → Read Poll
  | 0,_,_,p => pure p.fail
  | fuel+1,seq,writeSeq,p =>
    if seq ≤ writeSeq then
      match traceSnapshotSlot seq p.snap with
      | .ready event => dumpLoop fuel (seq + 1) writeSeq
          { p with lastSeq := seq, out := p.out ++ [.event seq event] }
      | .pending => pure p
      | .overwritten => do
        match ← traceReadBufferHeader with
        | none => pure p.fail
        | some (magic,fresh) =>
          if magic ≠ bufferMagic then pure p.fail
          else if seq ≤ fresh ∧ eventCapacity ≤ fresh - seq then
            let start := fresh - eventCapacity + 1
            let p := skipLost p seq fresh
            let again ← traceRefreshEventSnapshots start (fresh - start + 1) p.snap
            let p := { p with snap := again.2 }
            if again.1 then dumpLoop fuel start fresh p else pure p.fail
          else pure p
      | .readError => pure p.fail
    else pure p

def dumpTraceEventsSince (lastSeq : Nat) (snap : Snapshots) : Read Poll := do
  let p : Poll := ⟨true,lastSeq,snap,[]⟩
  match ← traceReadBufferHeader with
  | none => pure p.fail
  | some (magic,writeSeq) =>
    if magic ≠ bufferMagic then pure { p.fail with out := [.magicMismatch] }
    else if writeSeq = 0 ∨ writeSeq ≤ lastSeq then pure p
    else
      let lapped := eventCapacity < writeSeq - lastSeq
      let seq := if lapped then writeSeq - eventCapacity + 1 else lastSeq + 1
      let p := if lapped then skipLost p (lastSeq + 1) writeSeq else p
      let first ← traceRefreshEventSnapshots seq (writeSeq - seq + 1) p.snap
      let p := { p with snap := first.2 }
      if first.1 then dumpLoop (2^64) seq writeSeq p else pure p.fail

end ZeroTrace.RingReader
