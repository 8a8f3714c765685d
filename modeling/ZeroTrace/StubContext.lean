import ZeroTrace.WordMemory

/-! What the stubs of both architectures have in common: the payload functions they call,
the context they fill in for them, and code that runs through. -/
namespace ZeroTrace.StubContext
open WordMemory

inductive Callee where
  | ztHandleEntry | saveProbeFrameC | peekProbeIdC | ztHandleReturn | getRetAddrC
  deriving DecidableEq, Repr

/- `ctx_t`. Its fields are words, one behind the other in this order. -/
inductive Field where
  | r15 | r14 | r13 | r12 | r11 | r10 | gpArg5 | gpArg4 | gpArg0 | gpArg1 | rbp | gpArg2 | gpArg3 | rbx | gpRetval0 | statusFlags
  | trampolineRetAddr | funcId
  deriving DecidableEq, Repr

def fields : List Field :=
  [.r15,.r14,.r13,.r12,.r11,.r10,.gpArg5,.gpArg4,.gpArg0,.gpArg1,.rbp,.gpArg2,.gpArg3,.rbx,
    .gpRetval0,.statusFlags,.trampolineRetAddr,.funcId]

def Field.offset (f : Field) : Nat := 8 * fields.idxOf f

def ctxSize : Nat := 8 * fields.length

def gpArgs : List Field := [.gpArg0,.gpArg1,.gpArg2,.gpArg3,.gpArg4,.gpArg5]

def Field.read (m : Mem) (context : UInt64) (f : Field) : UInt64 :=
  word m (context + UInt64.ofNat f.offset)

def fpStateVec (m : Mem) (fpStateArea : UInt64) (index : Nat) : Vec :=
  vecAt m (fpStateArea + UInt64.ofNat (16 * index))

/- What the payload is shown of a function that is entered: its integer arguments, its
vector arguments and the probe. -/
structure ShownEntry (m : Mem) (context fpStateArea : UInt64) (args : List UInt64)
    (file : Nat → Vec) (id : UInt64) : Prop where
  args : gpArgs.map (Field.read m context) = args
  vectors : ∀ i < 8, fpStateVec m fpStateArea i = file i
  funcId : Field.read m context .funcId = id

structure ShownReturn (m : Mem) (context fpStateArea : UInt64) (retval : UInt64) (file : Nat → Vec)
    (id : UInt64) : Prop where
  retval : Field.read m context .gpRetval0 = retval
  vectors : ∀ i < 8, fpStateVec m fpStateArea i = file i
  funcId : Field.read m context .funcId = id

def vectorWords (file : Nat → Vec) : List (Nat × UInt64) :=
  (List.range 8).flatMap fun i => vecWords (16 * i) (file i)

theorem vectorOffsets (file : Nat → Vec) :
    (vectorWords file).map Prod.fst = [0,8,16,24,32,40,48,56,64,72,80,88,96,104,112,120] := rfl

theorem vectorSpread (file : Nat → Vec) : Spread ((vectorWords file).map Prod.fst) := by
  rw [vectorOffsets,Spread]
  decide

theorem vectorWithin (file : Nat → Vec) : Within 128 (vectorWords file) := by
  intro p member
  have offset := List.mem_map_of_mem (f := Prod.fst) member
  rw [vectorOffsets] at offset
  have all : ∀ i ∈ [0,8,16,24,32,40,48,56,64,72,80,88,96,104,112,120], i + 8 ≤ 128 := by decide
  exact all p.1 offset

theorem vectorSaved {m : Mem} {area : UInt64} {file : Nat → Vec}
    (saved : Saved m area (vectorWords file)) {i : Nat} (low : i < 8) :
    fpStateVec m area i = file i :=
  savedVec saved fun _ word => List.mem_flatMap.mpr ⟨i,List.mem_range.mpr low,word⟩

/-! A stub is plain instructions, calls and a return. -/
inductive Line (I : Type) where
  | plain (i : I)
  | call (f : Callee)
  | ret

/- Where control goes, and the state in which it does. -/
inductive Leaves (σ : Type) where
  | call (f : Callee) (s : σ)
  | ret (target : UInt64) (s : σ)

section Follow
variable {I σ : Type} (exec : I → σ → σ) (ret : σ → UInt64 × σ) (payload : Callee → σ → σ)

def follow : List (Line I) → σ → Option (List (Leaves σ))
  | [],_ => none
  | .plain i::l,s => follow l (exec i s)
  | .call f::l,s => (follow l (payload f s)).map (.call f s::·)
  | .ret::_,s => some [.ret (ret s).1 (ret s).2]

def returned (back : UInt64) (l : List (Leaves σ)) : Option σ := match l.getLast? with
  | some (.ret target s) => if target = back then some s else none
  | _ => none

variable {exec ret payload} {block : List I} {l : List (Line I)} {s : σ} {f : Callee}

theorem followBlock : follow exec ret payload (block.map .plain ++ l) s =
    follow exec ret payload l (block.foldl (fun s i => exec i s) s) := by
  induction block generalizing s with
  | nil => rfl
  | cons i block ih => exact ih

theorem followCall : follow exec ret payload (.call f::l) s =
    (follow exec ret payload l (payload f s)).map (.call f s::·) := rfl

theorem followRet : follow exec ret payload (.ret::l) s = some [.ret (ret s).1 (ret s).2] := rfl

theorem returnedLast {first second : Leaves σ} {back : UInt64} :
    returned back [first,second,.ret back s] = some s := if_pos rfl

end Follow

end ZeroTrace.StubContext
