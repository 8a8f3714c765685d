import Mathlib.Data.List.Basic

/-! Memory as a function from addresses to bytes: reads, writes and what a write
leaves alone. Nothing here knows what the bytes are for. A write is a list put into
numbered cells, whatever these hold. -/
namespace ZeroTrace.Cells
variable {α : Type} {b : Nat → α} {i x : Nat} {xs ys : List α}

def store (b : Nat → α) (i : Nat) (xs : List α) : Nat → α :=
  fun x => if i ≤ x then (xs[x - i]?).getD (b x) else b x

@[simp] theorem storeNil (b : Nat → α) (i : Nat) : store b i [] = b := by
  funext x
  simp [store]

theorem storeBefore (before : x < i) : store b i xs x = b x := if_neg (Nat.not_le.mpr before)

theorem storeBehind (behind : i + xs.length ≤ x) : store b i xs x = b x := by
  have high : xs.length ≤ x - i := by omega
  rw [store,if_pos (by omega),List.getElem?_eq_none high,Option.getD_none]

theorem storeAt {k : Nat} (low : k < xs.length) : store b i xs (i + k) = xs[k] := by
  rw [store,if_pos (Nat.le_add_right i k),Nat.add_sub_cancel_left,List.getElem?_eq_getElem low,
    Option.getD_some]

theorem storeAppend (b : Nat → α) (i : Nat) (xs ys : List α) :
    store (store b i xs) (i + xs.length) ys = store b i (xs ++ ys) := by
  funext x
  rcases Nat.lt_or_ge x (i + xs.length) with near | behind
  · rw [storeBefore near]
    by_cases low : i ≤ x
    · rw [store,if_pos low,store,if_pos low,List.getElem?_append_left (by omega)]
    · rw [store,if_neg low,store,if_neg low]
  · have less : x - (i + xs.length) = x - i - xs.length := by omega
    rw [store,if_pos behind,less,storeBehind behind,store,if_pos (by omega),
      List.getElem?_append_right (by omega)]

theorem storeAgain (b : Nat → α) (i : Nat) (shorter : xs.length ≤ ys.length) :
    store (store b i xs) i ys = store b i ys := by
  funext x
  rcases Nat.lt_or_ge x i with before | low
  · rw [storeBefore before,storeBefore before,storeBefore before]
  · rcases Nat.lt_or_ge x (i + ys.length) with near | behind
    · obtain ⟨k,rfl⟩ := Nat.exists_eq_add_of_le low
      rw [storeAt (by omega),storeAt (by omega)]
    · rw [storeBehind behind,storeBehind behind,storeBehind (by omega)]

/- Over the last cell of what is there, and on from it. -/
theorem storeOn (b : Nat → α) (i : Nat) (xs : List α) (z : α) (some_ : ys ≠ []) :
    store (store b i (xs ++ [z])) (i + xs.length) ys = store b i (xs ++ ys) := by
  have enough : [z].length ≤ ys.length := List.length_pos_iff.mpr some_
  rw [← storeAppend b i xs [z],storeAgain _ _ enough,storeAppend]

theorem storeCons (b : Nat → α) (i : Nat) (a : α) (xs : List α) :
    store (store b i [a]) (i + 1) xs = store b i (a::xs) := storeAppend b i [a] xs

end ZeroTrace.Cells

namespace ZeroTrace.ByteMemory

abbrev Memory := Nat → UInt8

def read (m : Memory) (addr len : Nat) : List UInt8 := (List.range len).map fun k => m (addr + k)

def write (m : Memory) (addr : Nat) (bytes : List UInt8) : Memory :=
  fun a => if addr ≤ a then (bytes[a - addr]?).getD (m a) else m a

def Holds (m : Memory) (addr : Nat) (bytes : List UInt8) : Prop := read m addr bytes.length = bytes

instance (m addr bytes) : Decidable (Holds m addr bytes) := inferInstanceAs (Decidable (_ = _))

def Inside (addr len a : Nat) : Prop := addr ≤ a ∧ a < addr + len

instance (addr len a) : Decidable (Inside addr len a) := inferInstanceAs (Decidable (_ ∧ _))

def Disjoint (addr len addr' len' : Nat) : Prop := ∀ a, Inside addr len a → ¬ Inside addr' len' a

@[simp] theorem readLength (m : Memory) (addr len) : (read m addr len).length = len := by
  simp [read]

theorem readAt (m : Memory) (addr len : Nat) {k} (low : k < len) :
    (read m addr len)[k]? = some (m (addr + k)) := by
  simp [read,low]

theorem readSame {m m' : Memory} {addr len} (same : ∀ a, Inside addr len a → m a = m' a) :
    read m addr len = read m' addr len := by
  simp only [read]
  refine List.map_congr_left fun k low => same _ ⟨Nat.le_add_right _ _,?_⟩
  have := List.mem_range.mp low
  omega

theorem readTake (m : Memory) (addr : Nat) {len n} (less : n ≤ len) :
    (read m addr len).take n = read m addr n := by
  simp [read,← List.map_take,List.take_range,Nat.min_eq_left less]

theorem takeSame {m m' : Memory} {addr n : Nat} (len : Nat)
    (same : ∀ a, Inside addr n a → m a = m' a) :
    (read m addr len).take n = (read m' addr len).take n := by
  simp only [read,← List.map_take,List.take_range]
  refine List.map_congr_left fun k low => same _ ⟨Nat.le_add_right _ _,?_⟩
  have := List.mem_range.mp low
  omega

theorem holdsSame {m m' : Memory} {addr bytes} (same : ∀ a, Inside addr bytes.length a → m a = m' a)
    (held : Holds m addr bytes) : Holds m' addr bytes := by
  rw [Holds,← readSame same]
  exact held

theorem writeOutside (m : Memory) {addr bytes a} (out : ¬ Inside addr bytes.length a) :
    write m addr bytes a = m a := by
  unfold write
  split
  · next low =>
    have high : bytes.length ≤ a - addr := by
      simp only [Inside,not_and] at out; have := out low; omega
    simp [List.getElem?_eq_none high]
  · rfl

theorem writeInside (m : Memory) {addr bytes a} (inside : Inside addr bytes.length a) :
    some (write m addr bytes a) = bytes[a - addr]? := by
  have low : a - addr < bytes.length := by have := inside.2; have := inside.1; omega
  simp [write,inside.1,List.getElem?_eq_getElem low]

theorem writeHolds (m : Memory) (addr bytes) : Holds (write m addr bytes) addr bytes := by
  apply List.ext_getElem? fun k => ?_
  by_cases low : k < bytes.length
  · rw [readAt _ _ _ low,writeInside m ⟨Nat.le_add_right _ _,by omega⟩,Nat.add_sub_cancel_left]
  · rw [List.getElem?_eq_none (by simpa using low),List.getElem?_eq_none (Nat.le_of_not_lt low)]

theorem writeNil (m : Memory) (addr : Nat) : write m addr [] = m := Cells.storeNil m addr

theorem writeAppend (m : Memory) (addr : Nat) (xs ys : List UInt8) :
    write (write m addr xs) (addr + xs.length) ys = write m addr (xs ++ ys) :=
  Cells.storeAppend m addr xs ys

theorem writeAgain (m : Memory) (addr : Nat) {xs ys : List UInt8}
    (shorter : xs.length ≤ ys.length) : write (write m addr xs) addr ys = write m addr ys :=
  Cells.storeAgain m addr shorter

theorem readWrite (b : Memory) (c : Nat) {bytes : List UInt8} {len : Nat}
    (fits : bytes.length ≤ len) :
    read (write b c bytes) c len = bytes ++ (read b c len).drop bytes.length := by
  apply List.ext_getElem? fun k => ?_
  by_cases low : k < len
  · rw [readAt _ _ _ low]
    by_cases near : k < bytes.length
    · have inside : Inside c bytes.length (c + k) := ⟨Nat.le_add_right _ _,by omega⟩
      rw [writeInside b inside,Nat.add_sub_cancel_left,List.getElem?_append_left near]
    · have far : bytes.length ≤ k := Nat.not_lt.mp near
      have outside : ¬ Inside c bytes.length (c + k) :=
        fun within => near (by have := within.2; omega)
      rw [writeOutside b outside,List.getElem?_append_right far,List.getElem?_drop,
        Nat.add_sub_cancel' far,readAt _ _ _ low]
  · rw [List.getElem?_eq_none (by simpa using low),List.getElem?_eq_none (by simp; omega)]

theorem writeRead (m m' : Memory) (addr len a : Nat) (inside : Inside addr len a) :
    write m addr (read m' addr len) a = m' a := by
  have found := @writeInside m addr (read m' addr len) a (by simpa using inside)
  have low : a - addr < len := by have := inside.2; have := inside.1; omega
  rw [readAt _ _ _ low,Nat.add_sub_cancel' inside.1] at found
  exact Option.some.inj found

theorem disjointSymm {addr len addr' len'} (h : Disjoint addr len addr' len') :
    Disjoint addr' len' addr len :=
  fun a there here => h a here there

end ZeroTrace.ByteMemory
