import Mathlib.Logic.Function.Basic
import Mathlib.Data.List.FinRange

/-! The shared trace buffer and what each payload handler stores in one event of
it. The two unions of an event are one field each: `arg i` is value_i (and the
first call words), `fpArg i` is fp_i (and call_args[i]). Words are natural
numbers: a sequence number only grows and needs 2^64 events to wrap. -/
namespace ZeroTrace.TraceBuffer

def eventCapacity : Nat := 4096
def bufferMagic : Nat := 0x5a54425546464552

inductive Field where
  | probeId | eventType | callId | timestampNs | tid | cpuId
  | arg (i : Fin 6)
  | fpArg (i : Fin 8)
  deriving DecidableEq, Repr

def Field.all : List Field :=
  [.probeId,.eventType,.callId,.timestampNs,.tid,.cpuId] ++
    (List.finRange 6).map .arg ++ (List.finRange 8).map .fpArg

theorem fieldListed (f : Field) : f ∈ Field.all := by
  cases f <;> simp [Field.all]

structure Event where
  committedSeq : Nat
  field : Field → Nat

def Event.zero : Event := ⟨0,fun _ => 0⟩

def Event.set (ev : Event) (f : Field) (v : Nat) : Event :=
  { ev with field := Function.update ev.field f v }

def Event.write (ev : Event) (ws : List (Field × Nat)) : Event :=
  ws.foldl (fun ev w => ev.set w.1 w.2) ev

@[simp] theorem setCommitted (ev : Event) (f v) : (ev.set f v).committedSeq = ev.committedSeq := rfl
@[simp] theorem writeNil (ev : Event) : ev.write [] = ev := rfl
@[simp] theorem writeCons (ev : Event) (w ws) : ev.write (w::ws) = (ev.set w.1 w.2).write ws := rfl

theorem writeOther (ev : Event) {ws f} (absent : f ∉ ws.map Prod.fst) :
    (ev.write ws).field f = ev.field f := by
  induction ws generalizing ev with
  | nil => rfl
  | cons w ws ih =>
    simp only [List.map_cons,List.mem_cons,not_or] at absent
    rw [writeCons,ih _ absent.2]
    exact Function.update_of_ne absent.1 _ _

inductive EventType where
  | entry | ret | call
  deriving DecidableEq, Repr

def EventType.code : EventType → Nat
  | .entry => 0
  | .ret => 1
  | .call => 2

/- Clock, thread id and CPU are whatever the target's kernel answers. -/
structure Header where
  probeId : Nat
  callId : Nat
  timestampNs : Nat
  tid : Nat
  cpuId : Nat
  deriving DecidableEq, Repr

inductive Emission where
  | entry (header : Header) (args : Fin 6 → Nat) (fpArgs : Fin 8 → Nat)
  | ret (header : Header) (retval fp0 : Nat)
  | call (header : Header) (callee retval argCount : Nat) (callArgs : Fin 6 → Nat)

def initEventHeader (h : Header) (type : EventType) : List (Field × Nat) :=
  [(.probeId,h.probeId),(.eventType,type.code),(.callId,h.callId),
    (.timestampNs,h.timestampNs),(.tid,h.tid),(.cpuId,h.cpuId)]

-- The stores of one handler between reserving its slot and committing it, in
-- source order. A return stores two words of the unions, a call action nine.
def Emission.writes : Emission → List (Field × Nat)
  | .entry h args fpArgs => initEventHeader h .entry ++
      (List.finRange 6).map (fun i => (.arg i,args i)) ++
      (List.finRange 8).map (fun i => (.fpArg i,fpArgs i))
  | .ret h retval fp0 => initEventHeader h .ret ++ [(.arg 0,retval),(.fpArg 0,fp0)]
  | .call h callee retval argCount callArgs => initEventHeader h .call ++
      [(.arg 0,callee),(.arg 1,retval),(.arg 2,argCount)] ++
      (List.finRange 6).map (fun i => (.fpArg (i.castLE (by decide)),callArgs i))

theorem entryFields (h args fpArgs) : (Emission.entry h args fpArgs).writes.map Prod.fst =
    Field.all := by
  simp [Emission.writes,initEventHeader,Field.all,Function.comp_def]

theorem writesDistinct (e : Emission) : (e.writes.map Prod.fst).Nodup := by
  cases e with
  | entry h args fpArgs => rw [entryFields]; decide
  | ret h retval fp0 => simp [Emission.writes,initEventHeader]
  | call h callee retval argCount callArgs =>
    simp only [Emission.writes,initEventHeader,List.map_append,List.map_map,Function.comp_def,
      List.map_cons,List.map_nil]
    decide

end ZeroTrace.TraceBuffer
