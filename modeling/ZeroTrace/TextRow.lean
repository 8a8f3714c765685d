import Mathlib.Data.List.Chain
import Mathlib.Data.List.DropRight

/-! Rows of characters with texts of C in them, each up to a NUL, and the functions that look for
something in them. A pointer is a position of the row. -/
namespace ZeroTrace.TextRow

abbrev Row := List Char

def textAt (l : Row) (p : Nat) : List Char := (l.drop p).takeWhile (· != '\x00')

def strchr (l : Row) (p : Nat) (c : Char) : Option Nat :=
  ((textAt l p).findIdx? (· == c)).map (p + ·)

def strrchr (l : Row) (p : Nat) (c : Char) : Option Nat :=
  ((textAt l p).reverse.findIdx? (· == c)).map fun i => p + ((textAt l p).length - 1 - i)

def strstr (l : Row) (p : Nat) (t : List Char) : Option Nat :=
  ((textAt l p).tails.findIdx? t.isPrefixOf).map (p + ·)

/- Where a token begins, and where the next is looked for. The row has a NUL behind the token. -/
structure Token where
  start : Nat
  save : Nat
  deriving DecidableEq, Repr

def strtok (l : Row) (p : Nat) (delim : Char) : Row × Option Token :=
  let start := p + ((textAt l p).takeWhile (· == delim)).length
  let text := textAt l start
  let token := text.takeWhile (· != delim)
  if text = [] then (l,none)
  else if token.length < text.length then
    (l.set (start + token.length) '\x00',some ⟨start,start + token.length + 1⟩)
  else (l,some ⟨start,start + token.length⟩)

def backWhile (ok : Char → Bool) (s : List Char) : Nat → Nat
  | 0 => 0
  | n+1 => if s[n]?.any ok then backWhile ok s n else n + 1

section
variable {a t u v z : List Char} {c d : Char} {l : Row} {p : Nat} {ok : Char → Bool}

theorem textFrom (a l : Row) : textAt (a ++ l) a.length = textAt l 0 := by
  rw [textAt,textAt,List.drop_left,List.drop_zero]

theorem textHere (solid : '\x00' ∉ t) : textAt (t ++ '\x00'::z) 0 = t := by
  have all : ∀ c ∈ t, (c != '\x00') = true := fun c member => bne_iff_ne.mpr fun nul =>
      solid (nul ▸ member)
  rw [textAt,List.drop_zero,List.takeWhile_append_of_pos all,List.takeWhile_cons_of_neg (by simp),
    List.append_nil]

theorem textBehind (a : Row) (solid : '\x00' ∉ t) : textAt (a ++ (t ++ '\x00'::z)) a.length = t :=
  by rw [textFrom,textHere solid]

theorem textShort (l : Row) (p : Nat) : (textAt l p).length ≤ l.length - p := by
  rw [← List.length_drop]
  exact (List.takeWhile_prefix _).length_le

theorem setBehind (a : Row) (c d : Char)
    (z : List Char) : (a ++ c::z).set a.length d = a ++ d::z := by
  rw [List.set_append_right _ _ (Nat.le_refl _),Nat.sub_self]
  rfl

theorem findFirst (front : c ∉ u) : (u ++ c::v).findIdx? (· == c) = some u.length := by
  induction u with
  | nil => rw [List.nil_append,List.findIdx?_cons,beq_self_eq_true,if_pos rfl]; rfl
  | cons d u ih =>
    have other : (d == c) = false := beq_eq_false_iff_ne.mpr fun same => front (same ▸ .head _)
    rw [List.cons_append,List.findIdx?_cons,other,ih fun inside => front (.tail _ inside)]
    rfl

theorem charFirst (front : c ∉ u)
    (text : textAt l 0 = u ++ c::v) : strchr l 0 c = some u.length := by
  rw [strchr,text,findFirst front,Option.map_some,Nat.zero_add]

theorem charLast (behind : c ∉ v)
    (text : textAt l 0 = u ++ c::v) : strrchr l 0 c = some u.length := by
  have turned : (u ++ c::v).reverse = v.reverse ++ c::u.reverse := by simp
  have place : (u ++ c::v).length - 1 - v.reverse.length = u.length := by simp
  rw [strrchr,text,turned,findFirst (by simpa using behind),Option.map_some,place,Nat.zero_add]

/-! Two characters that do not follow one another anywhere in a text. -/
def Apart (c d : Char) (s : List Char) : Prop := s.IsChain fun x y => ¬ (x = c ∧ y = d)

theorem apartOf (nowhere : ¬ [c,d] <:+: t) : Apart c d t := by
  induction t with
  | nil => exact .nil
  | cons x t ih =>
    have rest := ih fun inside => nowhere (inside.trans (List.suffix_cons x t).isInfix)
    refine List.isChain_cons.mpr ⟨fun y next both => nowhere ?_,rest⟩
    obtain ⟨rfl,rfl⟩ := both
    obtain ⟨w,rfl⟩ := List.head?_eq_some_iff.mp next
    exact ⟨[],w,rfl⟩

theorem apartAppend (first : Apart c d u) (second : Apart c d v)
    (border : u.getLast? ≠ some c ∨ v.head? ≠ some d) : Apart c d (u ++ v) := by
  refine List.isChain_append.mpr ⟨first,second,fun x last y head both => ?_⟩
  obtain ⟨rfl,rfl⟩ := both
  rcases border with left | right
  · exact left last
  · exact right head

theorem apartWithout (without : d ∉ t) : Apart c d t :=
  apartOf fun inside => without (inside.subset (.tail _ (.head _)))

theorem apartNone (without : c ∉ t) : Apart c d t :=
  apartOf fun inside => without (inside.subset (.head _))

theorem apartBehind (first : Apart c d u) (without : d ∉ v) : Apart c d (u ++ v) :=
  apartAppend first (apartWithout without) (.inr fun head => without (List.mem_of_head? head))

theorem apartFront (without : c ∉ u) (second : Apart c d v) : Apart c d (u ++ v) :=
  apartAppend (apartNone without) second (.inl fun last => without (List.mem_of_getLast? last))

theorem pairFirst (different : c ≠ d) (front : Apart c d u) :
    (u ++ c::d::v).tails.findIdx? [c,d].isPrefixOf = some u.length := by
  induction u with
  | nil =>
    have here : [c,d].isPrefixOf (c::d::v) = true := by simp [List.isPrefixOf]
    rw [List.nil_append,List.tails,List.findIdx?_cons,here,if_pos rfl]
    rfl
  | cons x u ih =>
    have next := List.isChain_cons.mp front
    have other : [c,d].isPrefixOf (x::(u ++ c::d::v)) = false := by
      cases u with
      | nil => simp [List.isPrefixOf,different.symm]
      | cons y u =>
        have pair := next.1 y rfl
        simp only [List.isPrefixOf,List.cons_append,Bool.and_true,Bool.and_eq_false_iff,
          beq_eq_false_iff_ne]
        by_cases first : x = c
        · exact .inr fun second => pair ⟨first,second.symm⟩
        · exact .inl (Ne.symm first)
    rw [List.cons_append,List.tails,List.findIdx?_cons,other,ih next.2]
    rfl

theorem textFirst (different : c ≠ d) (front : Apart c d u) (text : textAt l 0 = u ++ c::d::v) :
    strstr l 0 [c,d] = some u.length := by
  rw [strstr,text,pairFirst different front,Option.map_some,Nat.zero_add]

theorem tokenLength (l : Row) (p : Nat)
    (delim : Char) : (strtok l p delim).1.length = l.length := by
  unfold strtok
  simp only
  split
  · rfl
  · split
    · rw [List.length_set]
    · rfl

theorem tokenFurther {k : Token} {delim : Char} (found : (strtok l p delim).2 = some k) :
    p < k.save ∧ p < l.length := by
  unfold strtok at found
  simp only at found
  split at found
  · cases found
  · next some_ =>
    have text := List.length_pos_iff.mpr some_
    have short := textShort l (p + ((textAt l p).takeWhile (· == delim)).length)
    split at found
    · cases found
      exact ⟨by simp only; omega,by omega⟩
    · cases found
      exact ⟨by simp only; omega,by omega⟩

theorem tokenNone {delim : Char} (text : textAt l p = []) : strtok l p delim = (l,none) := by
  simp [strtok,text]

variable {delim : Char}

theorem tokenText (a : Row) (some_ : t ≠ []) (solid : '\x00' ∉ t) (whole : delim ∉ t)
    (z : List Char) :
    strtok (a ++ (t ++ '\x00'::z)) a.length delim =
      (a ++ (t ++ '\x00'::z),some ⟨a.length,a.length + t.length⟩) := by
  have text := @textBehind t z a solid
  have first : t.takeWhile (· == delim) = [] := by
    refine List.takeWhile_eq_nil_iff.mpr fun _ same => whole ?_
    rw [← beq_iff_eq.mp same]
    exact List.getElem_mem _
  have all : t.takeWhile (· != delim) = t := List.takeWhile_eq_self_iff.mpr fun c member =>
      bne_iff_ne.mpr fun same => whole (same ▸ member)
  simp only [strtok,text,first,List.length_nil,Nat.add_zero,all,if_neg some_,Nat.lt_irrefl,if_false]

theorem tokenCut (a : Row) (some_ : t ≠ []) (solid : '\x00' ∉ t) (whole : delim ∉ t)
    (nonzero : delim ≠ '\x00') (behind : '\x00' ∉ u) (z : List Char) :
    strtok (a ++ (t ++ delim::(u ++ '\x00'::z))) a.length delim =
      (a ++ (t ++ '\x00'::(u ++ '\x00'::z)),some ⟨a.length,a.length + t.length + 1⟩) := by
  have solids : '\x00' ∉ t ++ delim::u :=
    List.not_mem_append solid (List.not_mem_cons_of_ne_of_not_mem nonzero.symm behind)
  have row : a ++ (t ++ delim::(u ++ '\x00'::z)) = a ++ ((t ++ delim::u) ++ '\x00'::z) := by simp
  have text := @textBehind (t ++ delim::u) z a solids
  rw [← row] at text
  have first : (t ++ delim::u).takeWhile (· == delim) = [] := by
    cases t with
    | nil => exact absurd rfl some_
    | cons c t =>
      have other : ¬ (c == delim) = true := fun same => whole (beq_iff_eq.mp same ▸ .head _)
      exact List.takeWhile_cons_of_neg other
  have plain : ∀ c ∈ t, (c != delim) = true := fun c member => bne_iff_ne.mpr fun same =>
      whole (same ▸ member)
  have all : (t ++ delim::u).takeWhile (· != delim) = t := by
    rw [List.takeWhile_append_of_pos plain,List.takeWhile_cons_of_neg (by simp),List.append_nil]
  have more : t.length < (t ++ delim::u).length := by simp
  have full : t ++ delim::u ≠ [] := by simp
  have set_ : (a ++ (t ++ delim::(u ++ '\x00'::z))).set (a.length + t.length) '\x00' =
      a ++ (t ++ '\x00'::(u ++ '\x00'::z)) := by
    rw [← List.append_assoc,← List.length_append,setBehind,List.append_assoc]
  simp only [strtok,text,first,List.length_nil,Nat.add_zero,all,if_neg full,if_pos more,set_]

/-! Back over the end of a text. -/
theorem backIs (ok : Char → Bool) (s : List Char) {n : Nat} (within : n ≤ s.length) :
    backWhile ok s n = ((s.take n).rdropWhile ok).length := by
  induction n with
  | zero => simp [backWhile]
  | succ n ih =>
    have here : s[n]? = some s[n] := List.getElem?_eq_getElem within
    rw [backWhile,List.take_add_one,here,Option.any_some,Option.toList_some,List.rdropWhile_concat]
    split
    · exact ih (by omega)
    · rw [List.length_append,List.length_take,List.length_singleton]
      omega

theorem backOver (s : List Char) (all : ∀ c ∈ v, ok c = true)
    (stops : ∀ c, u.getLast? = some c → ok c = false) :
    backWhile ok (u ++ (v ++ s)) (u.length + v.length) = u.length := by
  have taken : (u ++ (v ++ s)).take (u.length + v.length) = u ++ v := by
    rw [← List.append_assoc,← List.length_append,List.take_left]
  rw [backIs _ _ (by simp only [List.length_append]; omega),taken]
  congr 1
  induction v using List.reverseRecOn with
  | nil =>
    rw [List.append_nil]
    refine List.rdropWhile_eq_self_iff.mpr fun some_ last => ?_
    rw [stops _ (List.getLast?_eq_some_getLast some_)] at last
    cases last
  | append_singleton v c ih =>
    rw [← List.append_assoc,List.rdropWhile_concat_pos _ _ _ (all c (by simp))]
    exact ih (fun d member => all d (List.mem_append_left _ member))
      (by rw [← List.append_assoc,← List.length_append,List.take_left])

end

end ZeroTrace.TextRow
