import ZeroTrace.ProbeTable

/-! The remote trampoline pool: one mapping, thirty-two slots. -/
namespace ZeroTrace.TrampolinePool
open ProbeTable

def slotSize : Nat := 512
def poolSize : Nat := 32 * slotSize

structure Pool where
  remoteAddr : UInt64
  remoteSize : Nat
  slotUsed : Fin 32 → Bool

def Pool.zero : Pool := ⟨0,0,fun _ => false⟩

def slotValid (slot : Int) : Option (Fin 32) :=
  if h : 0 ≤ slot ∧ slot < 32 then some ⟨slot.toNat,slotInRange h⟩ else none

def poolAllFree (pool : Pool) : Bool := (List.finRange 32).all fun i => !pool.slotUsed i

def poolSlotAddr (pool : Pool) (slot : Fin 32) : UInt64 :=
  if pool.remoteAddr = 0 then 0 else pool.remoteAddr + UInt64.ofNat (slot.val * slotSize)

def slotBelongsToProbe (pool : Pool) (p : Probe) (slot : Fin 32) : Bool :=
  poolSlotAddr pool slot != 0 && p.trampolineAddr == poolSlotAddr pool slot

def poolAssignSlot (pool : Pool) (p : Probe) (slot : Fin 32) : Pool × Probe × Option UInt64 :=
  let addr := poolSlotAddr pool slot
  if addr = 0 then (pool,p,none)
  else ({ pool with slotUsed := Function.update pool.slotUsed slot true },
    { p with trampolineSlot := slot.val, trampolineAddr := addr },some addr)

def clearProbeSlot (p : Probe) : Probe := { p with trampolineSlot := -1, trampolineAddr := 0 }

def poolEnsure (pool : Pool) (mmap : Option UInt64) : Option Pool :=
  if pool.remoteAddr ≠ 0 then some pool else mmap.map fun addr => ⟨addr,poolSize,fun _ => false⟩

def poolAlloc (pool : Pool) (p : Probe) (mmap : Option UInt64) : Pool × Probe × Option UInt64 :=
  match slotValid p.trampolineSlot,pool.remoteAddr != 0 with
  | some slot,true =>
    if pool.slotUsed slot && !slotBelongsToProbe pool p slot then
      (pool,p,none) else poolAssignSlot pool p slot
  | _,_ => match poolEnsure pool mmap with
    | none => (pool,p,none)
    | some pool => match (List.finRange 32).find? fun i => !pool.slotUsed i with
      | none => (pool,p,none)
      | some slot => poolAssignSlot pool p slot

/- The pool goes with its last slot, unless the target refuses to unmap it. -/
def poolRelease (pool : Pool) (p : Probe) (munmap : Bool) : Pool × Probe :=
  match slotValid p.trampolineSlot with
  | none => (pool,p)
  | some slot =>
    if pool.remoteAddr ≠ 0 && pool.slotUsed slot && !slotBelongsToProbe pool p slot then
      (pool,p) else
      let freed := { pool with slotUsed := Function.update pool.slotUsed slot false }
      (if freed.remoteAddr ≠ 0 && poolAllFree freed && munmap then .zero else freed,
        clearProbeSlot p)

end ZeroTrace.TrampolinePool
