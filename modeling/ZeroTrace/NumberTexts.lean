import Mathlib.Algebra.Ring.Nat
import Mathlib.Data.List.DropRight
import Mathlib.Data.Nat.Log

/-! Numbers as printf shows them: %lld, %llu, %llx, fields filled up with zeros, and %g. A
floating-point number is taken by its exact value. -/
namespace ZeroTrace.NumberTexts

def decimal (n : Nat) : List Char := Nat.toDigits 10 n

def hexadecimal (n : Nat) : List Char := Nat.toDigits 16 n

def signed : Int → List Char
  | .ofNat n => decimal n
  | .negSucc n => '-'::decimal (n + 1)

def zeroFilled (width : Nat) (digits : List Char) : List Char := digits.leftpad width '0'

/- A finite number is a whole multiple of a power of two. -/
inductive Number where
  | nan
  | infinite
  | finite (significand : Nat) (exponent : Int)
  deriving DecidableEq, Repr

structure Floating where
  negative : Bool
  number : Number
  deriving DecidableEq, Repr

/- The bits of a format of IEEE 754: the sign, then the exponent, then the fraction. -/
def decode (exponentBits fractionBits bits : Nat) : Floating :=
  let fraction := bits % 2^fractionBits
  let exponent := bits / 2^fractionBits % 2^exponentBits
  let lowest : Int := 2 - (2^(exponentBits - 1) : Nat) - fractionBits
  ⟨bits / 2^(fractionBits + exponentBits) % 2 == 1,
    if exponent = 2^exponentBits - 1 then if fraction = 0 then .infinite else .nan
    else if exponent = 0 then .finite fraction lowest
    else .finite (2^fractionBits + fraction) (lowest + (exponent - 1 : Nat))⟩

def decodeFloat (bits : UInt32) : Floating := decode 8 23 bits.toNat

def decodeDouble (bits : UInt64) : Floating := decode 11 52 bits.toNat

/- The nearest whole number to a / b, the even one of two. -/
def nearest (a b : Nat) : Nat :=
  if b < 2 * (a % b) ∨ 2 * (a % b) = b ∧ a / b % 2 = 1 then a / b + 1 else a / b

/- The power of ten that a / b has its first digit at. -/
def magnitude (a b : Nat) : Int :=
  if b ≤ a then (Nat.log 10 (a / b) : Nat) else -(Nat.clog 10 ((b + a - 1) / a) : Nat)

def inUnits (a b : Nat) (unit : Int) : Nat := nearest (a * 10^(-unit).toNat) (b * 10^unit.toNat)

def precision : Nat := 6

/- The first digits, rounded, and the power of ten of the first. -/
def significant (a b : Nat) : Nat × Int :=
  let x := magnitude a b
  let n := inUnits a b (x - (precision - 1 : Nat))
  if n < 10^precision then (n,x) else (10^(precision - 1),x + 1)

def digitsOf (n : Nat) : List Char :=
  (List.range precision).map fun i => Nat.digitChar (n / 10^(precision - 1 - i) % 10)

/- Without zeros at the end, and without a point where nothing is left behind it. -/
def pointed (whole fraction : List Char) : List Char :=
  let kept := fraction.rdropWhile (· == '0')
  if kept = [] then whole else whole ++ '.'::kept

def exponentText (x : Int) : List Char :=
  'e'::(if x < 0 then '-' else '+')::zeroFilled 2 (decimal x.natAbs)

def positiveText (a b : Nat) : List Char :=
  let (n,x) := significant a b
  let digits := digitsOf n
  if x < -4 ∨ x ≥ precision then pointed (digits.take 1) (digits.drop 1) ++ exponentText x
  else if x < 0 then pointed ['0'] (List.replicate (-x - 1).toNat '0' ++ digits)
  else pointed (digits.take (x + 1).toNat) (digits.drop (x + 1).toNat)

def Number.text : Number → List Char
  | .nan => ['n','a','n']
  | .infinite => ['i','n','f']
  | .finite 0 _ => ['0']
  | .finite m e => positiveText (m * 2^e.toNat) (2^(-e).toNat)

def Floating.general (f : Floating) : List Char :=
  (if f.negative then ['-'] else []) ++ f.number.text

/- Characters that no printf conversion of a number gives, a NUL and a newline among them. -/
def Unprinted (c : Char) : Prop := c.toNat < 0x20 ∨ 0x7e < c.toNat

instance : DecidablePred Unprinted :=
  fun c => inferInstanceAs (Decidable (c.toNat < 0x20 ∨ 0x7e < c.toNat))

/-! None of them is among the characters. -/
section
variable {c : Char} {s whole fraction : List Char} {n : Nat}

theorem unprintedNe {d : Char} (unprinted : Unprinted c) (printed : ¬ Unprinted d) : c ≠ d :=
  fun same => printed (same ▸ unprinted)

theorem unprintedOut (unprinted : Unprinted c)
    (printed : s.all (fun d => !decide (Unprinted d)) = true) : c ∉ s := fun inside => by
  have other := List.all_eq_true.mp printed c inside
  rw [decide_eq_true unprinted] at other
  cases other

theorem unprintedCons {d : Char} (unprinted : Unprinted c) (printed : ¬ Unprinted d)
    (rest : c ∉ s) : c ∉ d::s :=
  List.not_mem_cons_of_ne_of_not_mem (unprintedNe unprinted printed) rest

theorem digitPrinted (d : Nat) : ¬ Unprinted (Nat.digitChar d) := match d with
  | 0 | 1 | 2 | 3 | 4 | 5 | 6 | 7 | 8 | 9 | 10 | 11 | 12 | 13 | 14 | 15 => by decide
  | n+16 => by
    have star : Nat.digitChar (n + 16) = '*' := by simp [Nat.digitChar]
    rw [star]
    decide

theorem digitsSolid (unprinted : Unprinted c) (n : Nat) {base : Nat} (some_ : 1 < base) :
    c ∉ Nat.toDigits base n := by
  induction n using Nat.strongRecOn with
  | ind n ih =>
    have digit : ∀ d, c ∉ [Nat.digitChar d] :=
      fun d => unprintedCons unprinted (digitPrinted d) List.not_mem_nil
    rw [Nat.toDigits_eq_if some_]
    split
    · exact digit n
    · next many =>
      have less : n / base < n := Nat.div_lt_self (by omega) some_
      exact List.not_mem_append (ih _ less) (digit _)

theorem decimalSolid (unprinted : Unprinted c) (n : Nat) : c ∉ decimal n :=
  digitsSolid unprinted n (by decide)

theorem hexadecimalSolid (unprinted : Unprinted c) (n : Nat) : c ∉ hexadecimal n :=
  digitsSolid unprinted n (by decide)

theorem signedSolid (unprinted : Unprinted c) (v : Int) : c ∉ signed v := by
  cases v with
  | ofNat n => exact decimalSolid unprinted n
  | negSucc n => exact unprintedCons unprinted (by decide) (decimalSolid unprinted (n + 1))

theorem zerosSolid (unprinted : Unprinted c) (n : Nat) : c ∉ List.replicate n '0' := fun inside =>
  unprintedNe unprinted (by decide) (List.eq_of_mem_replicate inside)

theorem filledSolid (unprinted : Unprinted c) (width : Nat)
    (solid : c ∉ s) : c ∉ zeroFilled width s :=
  List.not_mem_append (zerosSolid unprinted _) solid

theorem pointedSolid (unprinted : Unprinted c) (solid : c ∉ whole) (solid' : c ∉ fraction) :
    c ∉ pointed whole fraction := by
  have kept : c ∉ fraction.rdropWhile (· == '0') :=
    fun inside => solid' ((List.rdropWhile_prefix _ _).subset inside)
  unfold pointed
  simp only
  split
  · exact solid
  · exact List.not_mem_append solid (unprintedCons unprinted (by decide) kept)

theorem sixSolid (unprinted : Unprinted c) (n : Nat) : c ∉ digitsOf n := by
  intro inside
  obtain ⟨i,_,same⟩ := List.mem_map.mp inside
  exact digitPrinted _ (same.symm ▸ unprinted)

theorem exponentSolid (unprinted : Unprinted c) (x : Int) : c ∉ exponentText x := by
  refine unprintedCons unprinted (by decide)
    (unprintedCons unprinted ?_ (filledSolid unprinted 2 (decimalSolid unprinted _)))
  split <;> decide

theorem positiveSolid (unprinted : Unprinted c) (a b : Nat) : c ∉ positiveText a b := by
  have six := sixSolid unprinted (significant a b).1
  have front : ∀ k, c ∉ (digitsOf (significant a b).1).take k :=
    fun k inside => six (List.mem_of_mem_take inside)
  have back : ∀ k, c ∉ (digitsOf (significant a b).1).drop k :=
    fun k inside => six (List.mem_of_mem_drop inside)
  unfold positiveText
  simp only
  split
  · exact List.not_mem_append (pointedSolid unprinted (front 1) (back 1))
      (exponentSolid unprinted _)
  · split
    · exact pointedSolid unprinted (unprintedOut unprinted (by decide))
        (List.not_mem_append (zerosSolid unprinted _) six)
    · exact pointedSolid unprinted (front _) (back _)

theorem numberSolid (unprinted : Unprinted c) (v : Number) : c ∉ v.text := by
  unfold Number.text
  split
  · exact unprintedOut unprinted (by decide)
  · exact unprintedOut unprinted (by decide)
  · exact unprintedOut unprinted (by decide)
  · exact positiveSolid unprinted _ _

theorem generalSolid (unprinted : Unprinted c) (f : Floating) : c ∉ f.general := by
  refine List.not_mem_append ?_ (numberSolid unprinted _)
  split
  · exact unprintedOut unprinted (by decide)
  · exact List.not_mem_nil

end

section
variable {a b n k : Nat}

theorem decimalLength (few : n < 10^k) (some_ : 0 < k) : (decimal n).length ≤ k :=
  (Nat.length_toDigits_le_iff (by decide) some_).mpr few

theorem hexadecimalLength (few : n < 16^k) (some_ : 0 < k) : (hexadecimal n).length ≤ k :=
  (Nat.length_toDigits_le_iff (by decide) some_).mpr few

theorem signedLength {v : Int} (few : v.natAbs < 10^k)
    (some_ : 0 < k) : (signed v).length ≤ k + 1 := by
  cases v with
  | ofNat n => exact Nat.le_succ_of_le (decimalLength few some_)
  | negSucc n => exact Nat.succ_le_succ (decimalLength few some_)

theorem pointedLength (whole fraction : List Char) :
    (pointed whole fraction).length ≤ whole.length + fraction.length + 1 := by
  have kept := (List.rdropWhile_prefix (· == '0') fraction).length_le
  unfold pointed
  simp only
  split
  · omega
  · rw [List.length_append,List.length_cons]
    omega

theorem sixLength (n : Nat) : (digitsOf n).length = precision := by
  rw [digitsOf,List.length_map,List.length_range]

theorem exponentLength {x : Int} (few : x.natAbs < 10^k) (some_ : 0 < k) :
    (exponentText x).length ≤ k + 4 := by
  have digits := decimalLength few some_
  rw [exponentText,List.length_cons,List.length_cons,zeroFilled,List.length_leftpad]
  omega

/- A bound on both parts of a quotient is one on its power of ten. -/
theorem magnitudeBound (low : a < 10^n) (low' : b ≤ 10^n) (some_ : 0 < n) :
    (magnitude a b).natAbs ≤ n := by
  unfold magnitude
  split
  · rw [Int.natAbs_natCast]
    exact Nat.le_of_lt
      (Nat.log_lt_of_lt_pow' (by omega) (Nat.lt_of_le_of_lt (Nat.div_le_self a b) low))
  · rw [Int.natAbs_neg,Int.natAbs_natCast]
    refine Nat.clog_le_of_le_pow (Nat.le_trans ?_ low')
    rcases Nat.eq_zero_or_pos a with rfl | more
    · rw [Nat.div_zero]
      exact Nat.zero_le b
    · refine Nat.div_le_of_le_mul ?_
      obtain ⟨c,rfl⟩ := Nat.exists_eq_add_of_le' more
      have wider : c ≤ c * b := Nat.le_mul_of_pos_right c (by omega)
      rw [Nat.add_mul,Nat.one_mul]
      omega

theorem significantBound (low : a < 10^n) (low' : b ≤ 10^n) (some_ : 0 < n) :
    (significant a b).2.natAbs ≤ n + 1 := by
  have bound := magnitudeBound low low' some_
  unfold significant
  simp only
  split <;> omega

theorem positiveLength (low : a < 10^n) (low' : b ≤ 10^n) (some_ : 0 < n) (few : n + 1 < 10^k)
    (more : 0 < k) : (positiveText a b).length ≤ k + 11 := by
  have bound := significantBound low low' some_
  have six := sixLength (significant a b).1
  have exponent := exponentLength (Nat.lt_of_le_of_lt bound few) more
  unfold precision at six
  unfold positiveText
  simp only
  split
  · have digits := pointedLength ((digitsOf (significant a b).1).take 1)
      ((digitsOf (significant a b).1).drop 1)
    rw [List.length_take,List.length_drop,six] at digits
    rw [List.length_append]
    omega
  · split
    · have digits := pointedLength ['0']
        (List.replicate (-(significant a b).2 - 1).toNat '0' ++ digitsOf (significant a b).1)
      rw [List.length_append,List.length_replicate,List.length_singleton,six] at digits
      omega
    · have digits := pointedLength
        ((digitsOf (significant a b).1).take ((significant a b).2 + 1).toNat)
        ((digitsOf (significant a b).1).drop ((significant a b).2 + 1).toNat)
      rw [List.length_take,List.length_drop,six] at digits
      omega

theorem decodeBound {exponentBits fractionBits bits m : Nat} {e : Int}
    (finite : (decode exponentBits fractionBits bits).number = .finite m e) :
    m < 2^(fractionBits + 1) ∧ e.toNat ≤ 2^exponentBits ∧
      (-e).toNat ≤ 2^exponentBits + fractionBits := by
  have fraction : bits % 2^fractionBits < 2^fractionBits := Nat.mod_lt _ (Nat.two_pow_pos _)
  have exponent : bits / 2^fractionBits % 2^exponentBits < 2^exponentBits :=
    Nat.mod_lt _ (Nat.two_pow_pos _)
  have half : 2^(exponentBits - 1) ≤ 2^exponentBits :=
    Nat.pow_le_pow_right (by decide) (Nat.sub_le _ _)
  have some_ : 0 < 2^(exponentBits - 1) := Nat.two_pow_pos _
  have twice : 2^(fractionBits + 1) = 2 * 2^fractionBits := by rw [Nat.pow_succ,Nat.mul_comm]
  unfold decode at finite
  simp only at finite
  generalize 2^(exponentBits - 1) = middle at *
  split at finite
  · split at finite <;> cases finite
  · split at finite
    · obtain ⟨rfl,rfl⟩ := Number.finite.inj finite
      omega
    · obtain ⟨rfl,rfl⟩ := Number.finite.inj finite
      omega

theorem generalLength {exponentBits fractionBits bits : Nat}
    (few : 2^exponentBits + fractionBits + 2 < 10^k) (more : 0 < k) :
    (decode exponentBits fractionBits bits).general.length ≤ k + 12 := by
  have sign : ∀ f : Floating, (if f.negative then ['-'] else []).length ≤ 1 := fun f => by
    split <;> decide
  have number : (decode exponentBits fractionBits bits).number.text.length ≤ k + 11 := by
    cases kind : (decode exponentBits fractionBits bits).number with
    | nan => exact Nat.le_trans (by decide : 3 ≤ 11) (Nat.le_add_left 11 k)
    | infinite => exact Nat.le_trans (by decide : 3 ≤ 11) (Nat.le_add_left 11 k)
    | finite m e =>
      obtain ⟨low,up,down⟩ := decodeBound kind
      cases m with
      | zero => exact Nat.le_trans (by decide : 1 ≤ 11) (Nat.le_add_left 11 k)
      | succ m =>
        have ten : ∀ n, 2^n ≤ 10^n := fun n => Nat.pow_le_pow_left (by decide) n
        have top : (m + 1) * 2^e.toNat < 10^(2^exponentBits + fractionBits + 1) := by
          refine Nat.lt_of_lt_of_le (Nat.mul_lt_mul_of_pos_right low (Nat.two_pow_pos _)) ?_
          rw [← Nat.pow_add]
          exact Nat.le_trans (ten _) (Nat.pow_le_pow_right (by decide) (by omega))
        have bottom : 2^(-e).toNat ≤ 10^(2^exponentBits + fractionBits + 1) :=
          Nat.le_trans (ten _) (Nat.pow_le_pow_right (by decide) (by omega))
        exact positiveLength top bottom (Nat.succ_pos _) few more
  rw [Floating.general,List.length_append]
  have := sign (decode exponentBits fractionBits bits)
  omega

end

end ZeroTrace.NumberTexts
