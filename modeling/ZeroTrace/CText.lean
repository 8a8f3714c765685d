import Mathlib.Algebra.Ring.Nat
import Mathlib.Data.List.DropRight

/-! Texts of C, without the NUL at their end, and the part of its library that reads numbers
from them, in the C locale. -/
namespace ZeroTrace.CText

def isSpace (c : Char) : Bool := c == ' ' || c == '\t' || c == '\n' || c == '\x0b' || c == '\x0c' ||
    c == '\r'

def skipSpaces (s : List Char) : List Char := s.dropWhile isSpace

def Blank (s : List Char) : Prop := ∀ c ∈ s, isSpace c = true

instance (s : List Char) : Decidable (Blank s) :=
  decidable_of_iff (s.all isSpace = true) List.all_eq_true

def endsBlank (s : List Char) : Bool := s.getLast?.any isSpace

def digitValue (c : Char) : Option Nat :=
  if '0' ≤ c ∧ c ≤ '9' then some (c.toNat - '0'.toNat)
  else if 'a' ≤ c ∧ c ≤ 'z' then some (c.toNat - 'a'.toNat + 10)
  else if 'A' ≤ c ∧ c ≤ 'Z' then some (c.toNat - 'A'.toNat + 10)
  else none

def isDigitIn (base : Nat) (c : Char) : Bool := (digitValue c).any (· < base)

def valueOf (base : Nat) (digits : List Char) : Nat :=
  digits.foldl (fun n c => n * base + (digitValue c).getD 0) 0

/- What a conversion gives: the number, whether it was out of range, and the rest of the text,
which is the whole text where there is no number. -/
structure Converted where
  value : UInt64
  range : Bool
  rest : List Char
  deriving DecidableEq, Repr

def sign : List Char → Bool × List Char
  | '-'::s => (true,s)
  | '+'::s => (false,s)
  | s => (false,s)

/- Base zero takes the base from the text: 0x and a digit is 16, another zero is 8. -/
def radix : Nat → List Char → Nat × List Char
  | 0,'0'::x::d::s => if (x == 'x' || x == 'X') &&
    isDigitIn 16 d then (16,d::s) else (8,'0'::x::d::s)
  | 0,'0'::s => (8,'0'::s)
  | 0,s => (10,s)
  | base,s => (base,s)

def strtoull (s : List Char) (base : Nat) : Converted :=
  let (negative,t) := sign (skipSpaces s)
  let (base,t) := radix base t
  let digits := t.takeWhile (isDigitIn base)
  let n := valueOf base digits
  if digits.isEmpty then ⟨0,false,s⟩
  else ⟨if n ≥ 2^64 then UInt64.ofNat (2^64 - 1) else if negative then
    -UInt64.ofNat n else UInt64.ofNat n,decide (n ≥ 2^64),t.dropWhile (isDigitIn base)⟩

theorem spaceNoDigit {c : Char} (space : isSpace c = true) : digitValue c = none := by
  simp only [isSpace,Bool.or_eq_true,beq_iff_eq] at space
  rcases space with ((((rfl | rfl) | rfl) | rfl) | rfl) | rfl <;> rfl

theorem digitNoSpace {base : Nat} {c : Char}
    (digit : isDigitIn base c = true) : isSpace c = false := by
  cases space : isSpace c with
  | false => rfl
  | true => simp [isDigitIn,spaceNoDigit space] at digit

theorem skipPlain {s : List Char}
    (plain : ∀ c, s.head? = some c → isSpace c = false) : skipSpaces s = s := by
  cases s with
  | nil => rfl
  | cons c s => rw [skipSpaces,List.dropWhile_cons,plain c rfl,if_neg (by simp)]

theorem signPlain {c : Char} {s : List Char} (minus : c ≠ '-') (plus : c ≠ '+') :
    sign (c::s) = (false,c::s) := by
  unfold sign
  split
  · next same => cases same; exact absurd rfl minus
  · next same => cases same; exact absurd rfl plus
  · rfl

theorem digitFirst {base : Nat} {c : Char} {s : List Char} (digit : isDigitIn base c = true) :
    sign (skipSpaces (c::s)) = (false,c::s) := by
  rw [skipPlain fun d first => by cases first; exact digitNoSpace digit]
  refine signPlain ?_ ?_ <;> rintro rfl <;> simp [isDigitIn,digitValue] at digit

theorem strtoullDigits {c : Char} {s digits : List Char} {base radix_ : Nat} {t : List Char}
    (digit : isDigitIn 36 c = true)
    (chosen : radix base (c::s) = (radix_,digits ++ t)) (some_ : digits ≠ [])
    (all : ∀ d ∈ digits, isDigitIn radix_ d = true)
    (stops : ∀ d, t.head? = some d → isDigitIn radix_ d = false)
    (fits : valueOf radix_ digits < 2^64) :
    strtoull (c::s) base = ⟨UInt64.ofNat (valueOf radix_ digits),false,t⟩ := by
  have stop : t.takeWhile (isDigitIn radix_) = [] ∧ t.dropWhile (isDigitIn radix_) = t := by
    cases t with
    | nil => exact ⟨rfl,rfl⟩
    | cons d t => simp [stops d rfl]
  have taken : (digits ++ t).takeWhile (isDigitIn radix_) = digits := by
    rw [List.takeWhile_append_of_pos all,stop.1,List.append_nil]
  have left : (digits ++ t).dropWhile (isDigitIn radix_) = t := by
    rw [List.dropWhile_append_of_pos all,stop.2]
  have full : digits.isEmpty = false := by simpa using some_
  have low : ¬ valueOf radix_ digits ≥ 2^64 := by omega
  simp only [strtoull,digitFirst digit,chosen,taken,left,full,low]
  simp

theorem radixDecimal {c : Char} {s : List Char}
    (nonzero : c ≠ '0') : radix 0 (c::s) = (10,c::s) := by
  unfold radix
  split
  · next same => cases same; exact absurd rfl nonzero
  · next same => cases same; exact absurd rfl nonzero
  · rfl
  · next based _ _ => exact absurd rfl based

theorem plainAll {w : List Char} (all : w.all (fun c => !isSpace c) = true) :
    ∀ c ∈ w, isSpace c = false := by simpa using all

/- The base is taken off the front, and what is taken off is no white space. -/
theorem radixFront (base : Nat) (s : List Char) : ∃ front, s = front ++ (radix base s).2 ∧
    ∀ c ∈ front, isSpace c = false := by
  unfold radix
  split
  · split
    · next x d s hex =>
      refine ⟨['0',x],rfl,?_⟩
      simp only [Bool.and_eq_true,Bool.or_eq_true,beq_iff_eq] at hex
      rcases hex.1 with rfl | rfl <;> exact plainAll rfl
    · exact ⟨[],rfl,by simp⟩
  · exact ⟨[],rfl,by simp⟩
  · exact ⟨[],rfl,by simp⟩
  · exact ⟨[],rfl,by simp⟩

theorem strtoullRest {c : Char} {s : List Char} (digit : isDigitIn 10 c = true) (base : Nat) :
    ∃ w, c::s = w ++ (strtoull (c::s) base).rest ∧ ∀ d ∈ w, isSpace d = false := by
  obtain ⟨front,parts,plain⟩ := radixFront base (c::s)
  simp only [strtoull,digitFirst digit]
  split
  · exact ⟨[],rfl,by simp⟩
  · refine ⟨front ++ (radix base (c::s)).2.takeWhile (isDigitIn (radix base (c::s)).1),?_,?_⟩
    · rw [List.append_assoc,List.takeWhile_append_dropWhile]
      exact parts
    · intro d member
      rcases List.mem_append.mp member with first | digits
      · exact plain d first
      · exact digitNoSpace (List.mem_takeWhile_imp digits)

/-! White space at the two ends. -/
theorem skipBlank {g s : List Char} (blank : Blank g) : skipSpaces (g ++ s) = skipSpaces s :=
  List.dropWhile_append_of_pos blank

theorem skipFront (s : List Char) : ∃ g, Blank g ∧ s = g ++ skipSpaces s :=
  ⟨s.takeWhile isSpace,fun _ member => List.mem_takeWhile_imp member,
    List.takeWhile_append_dropWhile.symm⟩

theorem skipTwice (s : List Char) : skipSpaces (skipSpaces s) = skipSpaces s :=
  List.dropWhile_idempotent _ _

theorem endsBehind {s r : List Char} (some_ : r ≠ []) : endsBlank (s ++ r) = endsBlank r := by
  rw [endsBlank,endsBlank,List.getLast?_append_of_ne_nil _ some_]

theorem endsPlain {w : List Char} (plain : ∀ c ∈ w, isSpace c = false) : endsBlank w = false := by
  unfold endsBlank
  cases last : w.getLast? with
  | none => rfl
  | some c => exact plain c (List.mem_of_getLast? last)

theorem endsIn {g w r : List Char} (some_ : w ≠ []) (plain : ∀ c ∈ w, isSpace c = false) :
    endsBlank (g ++ (w ++ r)) = endsBlank r := by
  by_cases empty : r = []
  · rw [empty,List.append_nil,endsBehind some_,endsPlain plain]
    rfl
  · rw [← List.append_assoc,endsBehind empty]

theorem blankEnds {s : List Char} (blank : Blank s) (open_ : endsBlank s = false) : s = [] := by
  unfold endsBlank at open_
  cases last : s.getLast? with
  | none => exact List.getLast?_eq_none_iff.mp last
  | some c => simp [last,blank c (List.mem_of_getLast? last)] at open_

end ZeroTrace.CText
