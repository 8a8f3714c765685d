import Mathlib.Data.List.Basic

/-! Sorting by a key and, among equals, by more than the key. Where the rest only tells what the
list tells already, sorting by the key alone gives the same. -/
namespace ZeroTrace.StableSort
variable {α : Type} {l : List α} {key full : α → α → Bool} {before : α → α → Prop}

/- What comes first goes first among equals. -/
structure Extends (key full : α → α → Bool) (before : α → α → Prop) : Prop where
  first : ∀ a b, before a b → full a b = key a b
  second : ∀ a b, before a b → full b a = (key b a && !key a b)
  same : ∀ a, full a a = key a a

theorem zipped (more : Extends key full before) (ordered : l.Pairwise before) :
    ∀ x ∈ l.zipIdx, ∀ y ∈ l.zipIdx, List.zipIdxLE key x y = full x.1 y.1 := by
  rintro ⟨a,i⟩ inside ⟨b,j⟩ inside'
  have here : l[i]? = some a := List.mem_zipIdx_iff_getElem?.mp inside
  have here' : l[j]? = some b := List.mem_zipIdx_iff_getElem?.mp inside'
  obtain ⟨low,rfl⟩ := List.getElem?_eq_some_iff.mp here
  obtain ⟨low',rfl⟩ := List.getElem?_eq_some_iff.mp here'
  have at_ := List.pairwise_iff_getElem.mp ordered
  unfold List.zipIdxLE
  dsimp only
  rcases Nat.lt_trichotomy i j with less | rfl | greater
  · rw [more.first _ _ (at_ i j low low' less)]
    have notAfter : decide (i ≤ j) = true := decide_eq_true (Nat.le_of_lt less)
    cases key l[i] l[j] <;> simp [notAfter]
  · rw [more.same]
    cases key l[i] l[i] <;> simp
  · rw [more.second _ _ (at_ j i low' low greater)]
    have after : decide (i ≤ j) = false := decide_eq_false (Nat.not_le.mpr greater)
    cases key l[i] l[j] <;> cases key l[j] l[i] <;> simp [after]

theorem sortedByKey (more : Extends key full before) (ordered : l.Pairwise before) :
    l.mergeSort full = l.mergeSort key := by
  have mapped := List.map_mergeSort (f := Prod.fst) (s := full) (zipped more ordered)
  rw [List.mergeSort_zipIdx] at mapped
  rw [mapped,List.zipIdx_map_fst]

section
variable {time : α → Nat}

def byTime (time : α → Nat) (a b : α) : Bool := decide (time a ≤ time b)

theorem timeTrans (a b c : α) (first : byTime time a b = true) (second : byTime time b c = true) :
    byTime time a c = true :=
  decide_eq_true (Nat.le_trans (of_decide_eq_true first) (of_decide_eq_true second))

theorem timeTotal (a b : α) : (byTime time a b || byTime time b a) = true := by
  simpa [byTime] using Nat.le_total (time a) (time b)

theorem timeSorted (l : List α) : (l.mergeSort (byTime time)).Pairwise fun a b => time a ≤ time b :=
  (List.pairwise_mergeSort timeTrans timeTotal l).imp of_decide_eq_true

theorem timeKept {p : α → Bool} (ordered : (l.filter p).Pairwise fun a b => time a ≤ time b) :
    (l.mergeSort (byTime time)).filter p = l.filter p := by
  have part := List.sublist_mergeSort timeTrans timeTotal (ordered.imp decide_eq_true)
      List.filter_sublist
  have filtered := part.filter p
  rw [List.filter_filter] at filtered
  simp only [Bool.and_self] at filtered
  exact (filtered.eq_of_length ((List.mergeSort_perm l (byTime time)).filter p).length_eq.symm).symm

theorem timeMapped {β : Type} {time : β → Nat} (f : α → β) (l : List α) :
    (l.mergeSort (byTime (time ∘ f))).map f = (l.map f).mergeSort (byTime time) :=
  List.map_mergeSort fun _ _ _ _ => rfl

theorem timeAlready (ordered : l.Pairwise fun a b => time a ≤ time b) :
    l.mergeSort (byTime time) = l :=
  List.mergeSort_of_pairwise (ordered.imp decide_eq_true)

end

end ZeroTrace.StableSort
