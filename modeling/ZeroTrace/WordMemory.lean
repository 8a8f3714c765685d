import Mathlib.Algebra.Ring.Nat

/-! Words of eight bytes in a memory of bytes, and areas in it. Addresses wrap around.
Nothing here knows a machine. -/
namespace ZeroTrace.WordMemory

abbrev Mem := UInt64 → UInt8

def setWord (m : Mem) (a v : UInt64) : Mem :=
  fun x => if (x - a).toNat < 8 then UInt8.ofNat (v.toNat / 256^(x - a).toNat) else m x

def word (m : Mem) (a : UInt64) : UInt64 :=
  UInt64.ofNat (((List.range 8).map fun k => (m (a + UInt64.ofNat k)).toNat * 256^k).foldr
    (· + ·) 0)

def Inside (base : UInt64) (length : Nat) (x : UInt64) : Prop := (x - base).toNat < length

def storeAll (m : Mem) (base : UInt64) (l : List (Nat × UInt64)) : Mem :=
  l.foldl (fun m p => setWord m (base + UInt64.ofNat p.1) p.2) m

def Saved (m : Mem) (base : UInt64) (l : List (Nat × UInt64)) : Prop :=
  ∀ p ∈ l, word m (base + UInt64.ofNat p.1) = p.2

def Spread (offsets : List Nat) : Prop := offsets.Pairwise fun i j => i + 8 ≤ j ∨ j + 8 ≤ i

def Within (length : Nat) (l : List (Nat × UInt64)) : Prop := ∀ p ∈ l, p.1 + 8 ≤ length

/- Where pushing these puts them, from the last one on. -/
def descending : List UInt64 → List (Nat × UInt64)
  | [] => []
  | v::vs => (8 * vs.length,v)::descending vs

structure Vec where
  low : UInt64
  high : UInt64
  deriving DecidableEq, Repr

def vecAt (m : Mem) (a : UInt64) : Vec := ⟨word m a,word m (a + 8)⟩

def vecWords (offset : Nat) (v : Vec) : List (Nat × UInt64) := [(offset,v.low),(offset + 8,v.high)]

theorem descendingAt {vs : List UInt64} {i : Nat} {v : UInt64} (found : vs.reverse[i]? = some v) :
    (8 * i,v) ∈ descending vs := by
  induction vs with
  | nil => simp at found
  | cons u vs ih =>
    rw [List.reverse_cons] at found
    by_cases low : i < vs.reverse.length
    · rw [List.getElem?_append_left low] at found
      exact .tail _ (ih found)
    · rw [List.getElem?_append_right (Nat.not_lt.mp low)] at found
      obtain ⟨zero,is⟩ : i - vs.reverse.length = 0 ∧ u = v := by
        simpa [List.getElem?_singleton] using found
      have last : i = vs.length := by rw [List.length_reverse] at low zero; omega
      rw [last,← is]
      exact .head _

theorem digits (v n : Nat) : ((List.range n).map fun k => v / 256^k % 256 * 256^k).sum =
    v % 256^n := by
  induction n with
  | zero => simp [Nat.mod_one]
  | succ n ih =>
    rw [List.range_succ,List.map_append,List.sum_append,ih,Nat.mod_pow_succ]
    simp [Nat.mul_comm]

theorem wordOf {m : Mem} {a v : UInt64}
    (bytes : ∀ k < 8, (m (a + UInt64.ofNat k)).toNat = v.toNat / 256^k % 256) : word m a = v := by
  have sum : (List.range 8).map (fun k => (m (a + UInt64.ofNat k)).toNat * 256^k) =
      (List.range 8).map fun k => v.toNat / 256^k % 256 * 256^k :=
    List.map_congr_left fun k low => by rw [bytes k (List.mem_range.mp low)]
  have whole : v.toNat % 256^8 = v.toNat := Nat.mod_eq_of_lt v.toNat_lt
  calc word m a = UInt64.ofNat ((List.range 8).map fun k => (m (a + UInt64.ofNat k)).toNat *
    256^k).sum := rfl
    _ = UInt64.ofNat (v.toNat % 256^8) := by rw [sum,digits]
    _ = v := by rw [whole,UInt64.ofNat_toNat]

theorem wordCongr {m m' : Mem} {a : UInt64}
    (same : ∀ k < 8, m' (a + UInt64.ofNat k) = m (a + UInt64.ofNat k)) : word m' a = word m a := by
  have bytes : (List.range 8).map (fun k => (m' (a + UInt64.ofNat k)).toNat * 256^k) =
      (List.range 8).map fun k => (m (a + UInt64.ofNat k)).toNat * 256^k :=
    List.map_congr_left fun k low => by rw [same k (List.mem_range.mp low)]
  rw [word,word,bytes]

theorem offsetNat {k : Nat} (small : k < 2^64) : (UInt64.ofNat k).toNat = k := by
  rw [UInt64.toNat_ofNat',Nat.mod_eq_of_lt small]

theorem insideOffset {base x : UInt64} {i k : Nat} (distance : (x - base).toNat = i)
    (small : i + k < 2^64) :
    (x + UInt64.ofNat k - base).toNat = i + k := by
  have shift : x + UInt64.ofNat k - base = (x - base) + UInt64.ofNat k := by grind
  rw [shift,UInt64.toNat_add,distance,offsetNat (by omega),Nat.mod_eq_of_lt small]

theorem offsetDistance (base : UInt64) {i : Nat} (small : i < 2^64) :
    (base + UInt64.ofNat i - base).toNat = i := by
  have shift : base + UInt64.ofNat i - base = UInt64.ofNat i := by grind
  rw [shift,offsetNat small]

theorem wordSame (m : Mem) (a v : UInt64) : word (setWord m a v) a = v := by
  refine wordOf fun k low => ?_
  have here : (a + UInt64.ofNat k - a).toNat = k := offsetDistance a (by omega)
  rw [setWord,here,if_pos low,UInt8.toNat_ofNat']

theorem setOutside {m : Mem} {a v x : UInt64} (outside : ¬ Inside a 8 x) : setWord m a v x = m x :=
  if_neg outside

def SameBut (own : UInt64 → Prop) (m m' : Mem) : Prop := ∀ a, ¬ own a → m' a = m a

section Areas
variable {m m' : Mem} {base a v : UInt64} {l l' : List (Nat × UInt64)} {length : Nat}

theorem wordInside {i k : Nat} (fits : i + 8 ≤ length) (small : length ≤ 2^64) (low : k < 8) :
    Inside base length (base + UInt64.ofNat i + UInt64.ofNat k) := by
  rw [Inside,insideOffset (offsetDistance base (by omega)) (by omega)]
  omega

theorem savedKept (saved : Saved m base l) (within : Within length l) (small : length ≤ 2^64)
    (same : ∀ x, Inside base length x → m' x = m x) : Saved m' base l := by
  intro p member
  rw [← saved p member]
  exact wordCongr fun k low => same _ (wordInside (within p member) small low)

theorem storeOutside {x : UInt64} (within : Within length l) (small : length ≤ 2^64)
    (outside : ¬ Inside base length x) :
    storeAll m base l x = m x := by
  induction l generalizing m with
  | nil => rfl
  | cons p l ih =>
    rw [storeAll,List.foldl_cons,← storeAll,ih fun q member => within q (.tail _ member)]
    refine setOutside fun inside => outside ?_
    have fits := within p (.head _)
    have back : x = base + UInt64.ofNat p.1 +
        UInt64.ofNat (x - (base + UInt64.ofNat p.1)).toNat := by
      rw [UInt64.ofNat_toNat]
      grind
    rw [back]
    exact wordInside fits small inside

theorem setApart {i j : Nat} (apart : i + 8 ≤ j ∨ j + 8 ≤ i) (first : i + 8 ≤ 2^64)
    (second : j + 8 ≤ 2^64) :
    word (setWord m (base + UInt64.ofNat i) v) (base + UInt64.ofNat j) =
      word m (base + UInt64.ofNat j) := by
  refine wordCongr fun k low => setOutside fun inside => ?_
  have place : (base + UInt64.ofNat j + UInt64.ofNat k - base).toNat = j + k :=
    insideOffset (offsetDistance base (by omega)) (by omega)
  have split : base + UInt64.ofNat j + UInt64.ofNat k = base + UInt64.ofNat i +
      UInt64.ofNat (base + UInt64.ofNat j + UInt64.ofNat k - (base + UInt64.ofNat i)).toNat := by
    rw [UInt64.ofNat_toNat]
    grind
  rw [split,insideOffset (offsetDistance base (by omega)) (by unfold Inside at inside; omega)]
    at place
  unfold Inside at inside
  omega

theorem savedSet {i : Nat} (saved : Saved m base l) (within : Within (2^64) l) (fits : i + 8 ≤ 2^64)
    (apart : ∀ p ∈ l, i + 8 ≤ p.1 ∨ p.1 + 8 ≤ i) :
    Saved (setWord m (base + UInt64.ofNat i) v) base l := by
  intro p member
  rw [setApart (apart p member) fits (within p member)]
  exact saved p member

theorem storeApart {j : Nat} (apart : ∀ p ∈ l, p.1 + 8 ≤ j ∨ j + 8 ≤ p.1) (within : Within (2^64) l)
    (fits : j + 8 ≤ 2^64) :
    word (storeAll m base l) (base + UInt64.ofNat j) = word m (base + UInt64.ofNat j) := by
  induction l generalizing m with
  | nil => rfl
  | cons p l ih =>
    rw [storeAll,List.foldl_cons,← storeAll,
      ih (fun q member => apart q (.tail _ member)) fun q member => within q (.tail _ member)]
    exact setApart (apart p (.head _)) (within p (.head _)) fits

theorem savedStore (spread : Spread (l.map Prod.fst)) (within : Within (2^64) l) :
    Saved (storeAll m base l) base l := by
  induction l generalizing m with
  | nil => intro p member; cases member
  | cons p l ih =>
    obtain ⟨apart,rest⟩ := List.pairwise_cons.mp spread
    have tail : Within (2^64) l := fun q member => within q (.tail _ member)
    intro q member
    rw [storeAll,List.foldl_cons,← storeAll]
    rcases List.mem_cons.mp member with rfl | inside
    · rw [storeApart (fun r among => (apart r.1 (List.mem_map_of_mem among)).symm) tail
        (within _ (.head _)),wordSame]
    · exact ih rest tail q inside

theorem savedVec {offset : Nat} {v : Vec} (saved : Saved m base l)
    (words : ∀ p ∈ vecWords offset v, p ∈ l) :
    vecAt m (base + UInt64.ofNat offset) = v := by
  have low := saved _ (words (offset,v.low) (by simp [vecWords]))
  have high := saved _ (words (offset + 8,v.high) (by simp [vecWords]))
  have place : base + UInt64.ofNat offset + 8 = base + UInt64.ofNat (offset + 8) := by
    rw [UInt64.ofNat_add,UInt64.add_assoc]
    rfl
  rw [vecAt,place,low,high]

theorem storeAppend : storeAll m base (l ++ l') = storeAll (storeAll m base l) base l' :=
  List.foldl_append

def shifted (k : Nat) (l : List (Nat × UInt64)) : List (Nat × UInt64) :=
  l.map fun p => (k + p.1,p.2)

theorem storeShifted {k : Nat} :
    storeAll m (base + UInt64.ofNat k) l = storeAll m base (shifted k l) := by
  induction l generalizing m with
  | nil => rfl
  | cons p l ih =>
    rw [storeAll,List.foldl_cons,← storeAll,ih,UInt64.add_assoc,← UInt64.ofNat_add]
    rfl

theorem savedShifted {k : Nat} (saved : Saved m base (shifted k l)) :
    Saved m (base + UInt64.ofNat k) l := by
  intro p member
  rw [UInt64.add_assoc,← UInt64.ofNat_add]
  exact saved (k + p.1,p.2) (List.mem_map_of_mem (f := fun p => (k + p.1,p.2)) member)

end Areas

end ZeroTrace.WordMemory
