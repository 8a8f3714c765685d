import ZeroTrace.EventBounds
import ZeroTrace.EventLog
import ZeroTrace.ListTexts
import ZeroTrace.LogMerge

/-! What the tracer writes to its log, character by character: the line of an event, and the line
for events it has lost. -/
namespace ZeroTrace.LogText
open TraceBuffer EventLog NumberTexts EventFormat ListTexts
open LogMerge (Kind printEventPrefix signedDecimal)
open ProbeTable (Name Probe callActionArgCap)
open RemoteStrings (MemoryMap)
open Signatures (FuncSig)
open TextRow (Row textAt)

def callArgsSize : Nat := 160
def formattedSize : Nat := 512

def registers (event : Event) : BufferPreviews.Event :=
  ⟨fun i => UInt64.ofNat (event.field (.arg i)),fun i => UInt64.ofNat (event.field (.fpArg i))⟩

def value (event : Event) (i : Nat) : List Char :=
  address (BufferPreviews.eventArgValue (registers event) i)

/- `call_arg_count` shares its place with the third word. -/
def callArgItems (event : Event) : List (List Char) :=
  let count := event.field (.arg ⟨2,by decide⟩)
  ((List.finRange BufferPreviews.fpArgCount).take
    (if count > callActionArgCap then callActionArgCap else count)).map fun i =>
    address ((registers event).fpArgs i)

def formatCallArgs (event : Event) (buffer : Nat → Char) (size : Nat) : Nat → Char :=
  formatItems buffer size (callArgItems event)

/- What it has beside the event: the target's memory, what is on the stack before it is written,
and how far the walk over a format may go. -/
structure Place where
  mem : MemoryMap
  stack : Nat → Char
  fuel : Nat

structure Tracer where
  comm : List Char
  pid : Int
  table : List FuncSig

section
variable (t : Tracer) (at_ : Place)

def symbolRow (p : Probe) : Row := p.target.symbol ++ ['\x00']

def symbolOf (probe : Option Probe) : Name := probe.elim unknownName fun p => p.target.symbol

def formatted (probe : Option Probe) (matched : Option Event) (event : Event) :
    Option (Option (List Char)) := match probe with
  | none => some none
  | some p =>
    (formatTraceEventWithSig at_.mem at_.stack t.table (symbolRow p) (matched.map registers)
      (event.field .eventType) (registers event)
      at_.stack formattedSize at_.fuel).map fun r =>
        if r.2 then some (textIn formattedSize r.1.cells) else none

def phase (event : Event) : Kind := if event.field .eventType = EventType.ret.code then
    .ret else .entry

def plainEntry (symbol : Name) (event : Event) : List Char :=
  symbol ++ "(arg0=".toList ++ value event 0 ++ ", arg1=".toList ++ value event 1 ++
    ", arg2=".toList ++ value event 2 ++
    ", arg3=".toList ++ value event 3 ++ ", arg4=".toList ++ value event 4 ++ ", arg5=".toList ++
      value event 5 ++ ")\n".toList

def plainReturn (symbol : Name) (event : Event) : List Char :=
  symbol ++ " -> ".toList ++ value event 0 ++ ['\n']

def plainOther (symbol : Name) (event : Event) (seq : Nat) : List Char :=
  symbol ++ " type=".toList ++ decimal (event.field .eventType) ++ " seq=".toList ++ decimal seq ++
    ['\n']

def plainLine (symbol : Name) (event : Event) (seq : Nat) : Kind × List Char :=
  if event.field .eventType = EventType.entry.code then (.entry,plainEntry symbol event)
  else if event.field .eventType = EventType.ret.code then (.ret,plainReturn symbol event)
  else (.event,plainOther symbol event seq)

def callLine (symbol callee : Name) (event : Event) : List Char :=
  symbol ++ " => ".toList ++ callee ++ "(".toList ++
    textIn callArgsSize (formatCallArgs event at_.stack callArgsSize) ++ ") -> ".toList ++
    value event 1 ++ " callee=".toList ++ value event 0 ++ ['\n']

def lineParts : Line → Option (Kind × List Char)
  | .call symbol callee event => some (.call,callLine at_ symbol callee event)
  | .shown probe matched event seq => (formatted t at_ probe matched event).map fun
    | some text => (phase event,text)
    | none => plainLine (symbolOf probe) event seq

def lineEvent : Line → Event
  | .call _ _ event => event
  | .shown _ _ event _ => event

def lineWritten (line : Line) : Option (List Char) :=
  (lineParts t at_ line).map fun parts => printEventPrefix t.comm t.pid (lineEvent line) parts.1 ++
    parts.2

def eventWritten (cache : EntryCache) (r : Reading) : EntryCache × Option (List Char) :=
  let (cache,line) := dumpOneTraceEvent cache r
  (cache,line.elim (some []) (lineWritten t at_))

def lostWritten (firstLost lostCount writeSeq : Nat) : List Char :=
  if lostCount = 0 then []
  else t.comm ++ "-".toList ++ signedDecimal t.pid ++ " [---] ztrace:lost: dropped ".toList ++
    decimal lostCount ++
    " events starting at seq=".toList ++ decimal firstLost ++ " (write_seq=".toList ++
      decimal writeSeq ++ " capacity=".toList ++
    decimal eventCapacity ++ ")\n".toList

/- What is handed to the log, one after the other: events, and that some are lost. -/
inductive Record where
  | event (r : Reading) (at_ : Place)
  | lost (firstLost lostCount writeSeq : Nat)

def logWritten : EntryCache → List Record → Option (List Char)
  | _,[] => some []
  | cache,.event r at_::rest =>
    let (cache,text) := eventWritten t at_ cache r
    text.bind fun text => (logWritten cache rest).map (text ++ ·)
  | cache,.lost firstLost lostCount writeSeq::rest =>
      (logWritten cache rest).map (lostWritten t firstLost lostCount writeSeq ++ ·)

end

end ZeroTrace.LogText
