import ZeroTrace.BoundedText
import ZeroTrace.NumberTexts
import ZeroTrace.TextRow
import ZeroTrace.TraceBuffer
import ZeroTrace.VariadicArgs

/-! The line printed for an event, as it is put into the caller's buffer. The buffers on the
stack hold anything before they are written. -/
namespace ZeroTrace.EventFormat
open Attempts BoundedText Cells NumberTexts Signatures VariadicArgs
open BufferPreviews
  (SigType Event eventArgValue eventFpArgValue sigTypeIsFp capPreviewLen bufferPreviewLen
  bufferPreviewLenReturn)
open RemoteStrings (MemoryMap readRemoteMemory readRemoteCstr isPrint snprintf)
open TextRow (Row textAt)
open TraceBuffer (EventType)

def valueSize : Nat := 96
def strSize : Nat := 64
def previewSize : Nat := 192

def textIn (size : Nat) (buffer : Nat → Char) : List Char := textAt ((List.range size).map buffer) 0

def oneByOne (mem : MemoryMap) (addr : UInt64) : Nat → Option (List UInt8)
  | 0 => some []
  | len+1 => match readRemoteMemory mem addr 1 with
    | none => none
    | some byte => (oneByOne mem (addr + 1) len).map (byte ++ ·)

def readRemoteBytesWithFallback (mem : MemoryMap) (addr : UInt64)
    (len : Nat) : Option (List UInt8) :=
  if len = 0 then some []
  else match readRemoteMemory mem addr len with
    | some bytes => some bytes
    | none => oneByOne mem addr len

def isPlain (ch : UInt8) : Bool := isPrint ch && ch != 0x22 && ch != 0x5c

def escape (ch : UInt8) : List Char := '\\' :: 'x'::zeroFilled 2 (hexadecimal ch.toNat)

/- From this offset on. Nothing is written where there is no room at all. -/
def snprintfAt (buffer : Nat → Char) (offset size : Nat) (text : List Char) : Nat → Char :=
  if size ≤ offset then buffer else store buffer offset (text.take (size - offset - 1) ++ ['\x00'])

def previewBytes (size : Nat) : List UInt8 → Nat → (Nat → Char) → (Nat → Char) × Bool
  | [],offset,buffer => if offset + 2 ≥ size then
    (buffer,false) else (store (store buffer offset ['\"']) (offset + 1) ['\x00'],true)
  | ch::bytes,offset,buffer =>
    if isPlain ch then
      if offset + 1 ≥ size then (buffer,false) else previewBytes size bytes (offset + 1)
        (store buffer offset [Char.ofNat ch.toNat])
    else
      let buffer := snprintfAt buffer offset size (escape ch)
      if (escape ch).length ≥ size - offset then
        (buffer,false) else previewBytes size bytes (offset + (escape ch).length) buffer

def readRemoteBufPreview (mem : MemoryMap) (addr : UInt64) (len : Nat) (buffer : Nat → Char)
    (size : Nat) : (Nat → Char) × Bool :=
  if size = 0 then (buffer,false)
  else if addr = 0 then (snprintf buffer size ['N','U','L','L'],true)
  else if 0 + 1 ≥ size then (buffer,false)
  else match readRemoteBytesWithFallback mem addr (capPreviewLen len) with
    | none => (store buffer 0 ['\"'],false)
    | some bytes => previewBytes size bytes 1 (store buffer 0 ['\"'])

section
variable (mem : MemoryMap) (stack : Nat → Char)

def address (value : UInt64) : List Char := '0' :: 'x'::hexadecimal value.toNat

def valueText (type : SigType) (value : UInt64) : List Char := match type with
  | .int => signed value.toUInt32.toInt32.toInt
  | .long | .ssize => signed value.toInt64.toInt
  | .ulong | .size => decimal value.toNat
  | .float => (decodeFloat value.toUInt32).general
  | .double => (decodeDouble value).general
  | .cstr =>
    let str := readRemoteCstr mem value stack strSize
    if str.2 then '\"'::(textIn strSize str.1 ++ ['\"']) else address value
  | .buf | .constBuf | .ptr => address value
  | .void => ['v','o','i','d']
  | .unknown => address value

def appendRaw (size : Nat) (out : Out Char) (text : List Char) : Attempt (Out Char) :=
  append '\x00' size out text

def appendValue (size : Nat) (out : Out Char) (type : SigType)
    (value : UInt64) : Attempt (Out Char) :=
  let text := valueText mem stack type value
  if text.length ≥ valueSize then (out,false) else appendRaw size out text

def printer (size : Nat) : Printer (Out Char) := ⟨appendRaw size,appendValue mem stack size⟩

variable {σ : Type} (o : Printer σ) (sig : FuncSig)

def appendPreview (before : List Char) (addr : UInt64) (len : Nat) (out : σ) : Attempt σ :=
  if len > 0 then
    let preview := readRemoteBufPreview mem addr len stack previewSize
    if preview.2 then andThen (o.appendRaw out before) fun out =>
      o.appendRaw out (textIn previewSize preview.1)
    else (out,true)
  else (out,true)

def entryParams (event : Event) : Nat → Nat → Nat → List SigParam → σ → Attempt σ
  | _,_,_,[],out => (out,true)
  | i,gpIndex,fpIndex,p::ps,out =>
    let fp := sigTypeIsFp p.type
    let rawValue := if fp then eventFpArgValue event fpIndex else eventArgValue event gpIndex
    andThen (if i > 0 then o.appendRaw out separator else (out,true)) fun out =>
      andThen (o.appendValue out p.type rawValue) fun out =>
        andThen (if p.type = .constBuf then
          appendPreview mem stack o ['='] rawValue (bufferPreviewLen sig.types event i).1 out
          else (out,true)) fun out =>
          entryParams event (i + 1) (if fp then gpIndex else gpIndex + 1)
            (if fp then fpIndex + 1 else fpIndex) ps out

/- Without the event of the call there is no preview. -/
def returnPreview (entry : Option Event) (event : Event) (out : σ) : Attempt σ :=
  match sig.params.findIdx? fun p => p.type == .buf,entry with
  | some i,some args =>
      appendPreview mem stack o [' '] (eventArgValue args i)
        (bufferPreviewLenReturn sig.types args event i).1 out
  | _,_ => (out,true)

end

def begun (out : Nat → Char) (size : Nat) (text : List Char) : Attempt (Out Char) :=
  if text.length ≥ size then
    (⟨snprintf out size text,0⟩,false) else (⟨snprintf out size text,text.length⟩,true)

section
variable (mem : MemoryMap) (stack : Nat → Char) (sig : FuncSig) (symbol : List Char)
    (entry : Option Event) (event : Event) (out : Nat → Char) (size : Nat)

def formatEntry (k : Nat) : Option (Attempt (Out Char)) :=
  let o := printer mem stack size
  let line := andThen (begun out size (symbol ++ ['(']))
    (entryParams mem stack o sig event 0 0 0 sig.params)
  let line := if line.2 ∧ sig.variadic then appendVariadicArgs o event mem sig stack k line.1
    else some line
  line.map fun line => andThen line fun out => o.appendRaw out [')','\n']

def formatReturn : Attempt (Out Char) :=
  let o := printer mem stack size
  let line := andThen (begun out size (symbol ++ [' ','-','>',' '])) fun out =>
    o.appendValue out sig.ret.type (if sigTypeIsFp sig.ret.type then event.fp0 else event.value0)
  andThen (andThen line (returnPreview mem stack o sig entry event)) fun out =>
    o.appendRaw out ['\n']

end

/- The probe's symbol is in an array of characters. -/
def formatTraceEventWithSig (mem : MemoryMap) (stack : Nat → Char) (table : List FuncSig)
    (probe : Row) (entry : Option Event) (type : Nat) (event : Event)
    (out : Nat → Char) (size k : Nat) : Option (Attempt (Out Char)) :=
  let symbol := textAt probe 0
  if size = 0 then some (⟨out,0⟩,false)
  else match sigconfFind table symbol with
    | none => some (⟨out,0⟩,false)
    | some sig =>
      if type = EventType.entry.code then formatEntry mem stack sig symbol event out size k
      else if type = EventType.ret.code then
        some (formatReturn mem stack sig symbol entry event out size)
      else some (⟨out,0⟩,false)

end ZeroTrace.EventFormat
