import Mathlib.Data.List.FinRange
import Mathlib.Logic.Function.Basic
import ZeroTrace.FilterSyntax

/-! The controller's table of probes. Which address a name has is decided by the
target's ELF files; here a lookup is an answer from outside. Probe ids are natural
numbers: they only grow and need 2^64 registrations to wrap. -/
namespace ZeroTrace.ProbeTable
open FilterSyntax

def probeSymbolMax : Nat := 64
def probeModuleMax : Nat := 512
def probeOrigCodeMax : Nat := 32
def callActionArgCap : Nat := 6

abbrev Name := List Char

theorem slotInRange {slot : Int} (h : 0 ≤ slot ∧ slot < 32) : slot.toNat < 32 := by omega

structure SymbolTarget where
  symbol : Name
  modulePath : Name
  remoteAddr : Nat
  deriving DecidableEq, Repr

inductive ProbeState where
  | empty | resolved | prepared | installed | disabled
  deriving DecidableEq, Repr

structure CallArg where
  kind : Nat
  value : Nat
  deriving DecidableEq, Repr

structure CallAction where
  enabled : Nat
  probeId : Nat
  calleeAddr : Nat
  argCount : Nat
  args : Fin 6 → CallArg

def CallAction.zero : CallAction := ⟨0,0,0,0,fun _ => ⟨0,0⟩⟩

structure Probe where
  probeId : Nat
  target : SymbolTarget
  trampolineAddr : UInt64
  trampolineSlot : Int
  origCode : List UInt8
  origLen : Nat
  state : ProbeState
  filter : ProbeFilter
  callAction : CallAction
  callActionSlot : Int
  callSymbol : Name

def emptyFilter : ProbeFilter := ⟨0,false,[],[]⟩

/- An entry after `memset`. -/
def Probe.zero : Probe :=
  ⟨0,⟨[],[],0⟩,0,0,List.replicate probeOrigCodeMax 0,0,.empty,emptyFilter,.zero,0,[]⟩

def Probe.live (p : Probe) : Prop := p.probeId ≠ 0
def Probe.installed (p : Probe) : Prop := p.probeId ≠ 0 ∧ p.state = .installed

structure Session where
  nextProbeId : Nat
  probeCount : Nat
  probes : Fin 32 → Probe

/- What `zt_injector_attach` starts with. -/
def Session.init : Session := ⟨1,0,fun _ => .zero⟩

def Session.set (s : Session) (i : Fin 32) (p : Probe) : Session :=
  { s with probes := Function.update s.probes i p }

@[simp] theorem setSame (s : Session) (i p) : (s.set i p).probes i = p := by simp [Session.set]
@[simp] theorem setOther (s : Session) {i j : Fin 32} (p) (other : j ≠ i) :
    (s.set i p).probes j = s.probes j := by
  simp [Session.set,other]

def probeFindBySymbol (s : Session) (name : Name) : Option (Fin 32) :=
  (List.finRange 32).find? fun i => (s.probes i).probeId != 0 && (s.probes i).target.symbol == name

def probeFindById (s : Session) (id : Nat) : Option (Fin 32) :=
  if id = 0 then none else (List.finRange 32).find? fun i => (s.probes i).probeId == id

def probeFree (s : Session) : Option (Fin 32) :=
  (List.finRange 32).find? fun i => (s.probes i).probeId == 0

/- The name and the path are cut to their arrays. -/
def resolveSymbolTarget (name : Name) (lookup : Option (Name × Nat)) : Option SymbolTarget :=
  lookup.map fun found => ⟨name.take (probeSymbolMax - 1),found.1.take (probeModuleMax - 1),found.2⟩

def takeProbeId (next : Nat) : Nat × Nat :=
  if next = 0 then (next + 1,next + 2) else (next,next + 1)

def freshProbe (id : Nat) (target : SymbolTarget) : Probe :=
  { Probe.zero with probeId := id, target := target, trampolineSlot := -1, callActionSlot := -1, state := .resolved }

def probeAlloc (s : Session) (target : SymbolTarget) : Session × Option (Fin 32) :=
  if target.symbol = [] then (s,none) else
    match probeFindBySymbol s target.symbol with
    | some i => (s,some i)
    | none => match probeFree s with
      | none => (s,none)
      | some i =>
        let (id,next) := takeProbeId s.nextProbeId
        ({ s.set i (freshProbe id target) with nextProbeId := next, probeCount := s.probeCount +
          1 },some i)

def registerProbe (s : Session) (name : Name) (lookup : Option (Name × Nat)) :
    Session × Option (Fin 32) :=
  match probeFindBySymbol s name with
  | some i => (s,some i)
  | none => match resolveSymbolTarget name lookup with
    | none => (s,none)
    | some target => probeAlloc s target

theorem findByIdSome {s id i} (found : probeFindById s id = some i) :
    id ≠ 0 ∧ (s.probes i).probeId = id := by
  unfold probeFindById at found
  split at found
  · cases found
  · next live => exact ⟨live,by simpa using List.find?_some found⟩

theorem findBySymbolSome {s name i} (found : probeFindBySymbol s name = some i) :
    (s.probes i).live ∧ (s.probes i).target.symbol = name := by
  simpa [Probe.live] using List.find?_some found

theorem findBySymbolNone {s name} (none_ : probeFindBySymbol s name = none) {i}
    (live : (s.probes i).live) :
    (s.probes i).target.symbol ≠ name := by
  have out := List.find?_eq_none.mp none_ i (List.mem_finRange i)
  simp only [Probe.live] at live
  simpa [live] using out

theorem freeSome {s i} (found : probeFree s = some i) : (s.probes i).probeId = 0 := by
  simpa using List.find?_some found

inductive Registering (s : Session) (name : Name) (lookup : Option (Name × Nat)) :
    Session × Option (Fin 32) → Prop where
  | refused : Registering s name lookup (s,none)
  | known {i} (live : (s.probes i).live) : Registering s name lookup (s,some i)
  | fresh {i module addr path} (free : (s.probes i).probeId = 0)
      (found : lookup = some (module,addr))
      (absent : probeFindBySymbol s name = none)
      (new : ∀ j, (s.probes j).live → (s.probes j).target.symbol ≠ name.take (probeSymbolMax - 1)) :
      Registering s name lookup
        ({ s.set i (freshProbe (takeProbeId s.nextProbeId).1 ⟨name.take (probeSymbolMax - 1),path,
          addr⟩) with
          nextProbeId := (takeProbeId s.nextProbeId).2, probeCount := s.probeCount + 1 },some i)

theorem registerSteps
    (s name lookup) : Registering s name lookup (registerProbe s name lookup) := by
  unfold registerProbe
  split
  · next i found => exact .known (findBySymbolSome found).1
  · next absent =>
    split
    · exact .refused
    · next target resolved =>
      obtain ⟨found,look,rfl⟩ := Option.map_eq_some_iff.mp resolved
      unfold probeAlloc
      split
      · exact .refused
      · split
        · next i known => exact .known (findBySymbolSome known).1
        · next cut =>
          split
          · exact .refused
          · next i free => exact .fresh (freeSome free) look absent (fun j live =>
              findBySymbolNone cut live)

def unregisterProbe (s : Session) (id : Nat) : Session × Int :=
  match probeFindById s id with
  | none => (s,-1)
  | some i => ({ s.set i .zero with probeCount := s.probeCount - 1 },0)

end ZeroTrace.ProbeTable
