import Mathlib.Tactic.IntervalCases
import ZeroTrace.CText
import ZeroTrace.NumberTexts

/-! Numbers that printf wrote, read back by strtoull. -/
namespace ZeroTrace.NumberReads
open CText NumberTexts
variable {base n d : Nat}

theorem digitCharValue (low : d < 16) : digitValue d.digitChar = some d := by
  interval_cases d <;> rfl

theorem digitCharIn (low : d < base) (few : base ≤ 16) : isDigitIn base d.digitChar = true := by
  rw [isDigitIn,digitCharValue (by omega),Option.any_some]
  exact decide_eq_true low

theorem valueSnoc (base : Nat) (digits : List Char) (c : Char) :
    valueOf base (digits ++ [c]) = valueOf base digits * base + (digitValue c).getD 0 := by
  rw [valueOf,List.foldl_append]
  rfl

/- The digits of a number are digits of the base, and worth the number; only zero begins with a
zero. -/
structure Writes (base n : Nat) (s : List Char) : Prop where
  digits : ∀ c ∈ s, isDigitIn base c = true
  value : valueOf base s = n
  leads : ∀ rest, s = '0'::rest → n = 0 ∧ rest = []

theorem digitsWrite (some_ : 1 < base) (few : base ≤ 16) (n : Nat) :
    Writes base n (Nat.toDigits base n) := by
  induction n using Nat.strongRecOn with
  | ind n ih =>
    by_cases low : n < base
    · have value : valueOf base [n.digitChar] = n := by
        rw [← List.nil_append [n.digitChar],valueSnoc,digitCharValue (by omega)]
        simp [valueOf]
      rw [Nat.toDigits_of_lt_base low]
      refine ⟨fun c member => ?_,value,fun rest zero => ?_⟩
      · rw [List.mem_singleton.mp member]
        exact digitCharIn low few
      · obtain ⟨first,rfl⟩ := List.cons.inj zero
        refine ⟨?_,rfl⟩
        rw [first] at value
        rw [← value]
        simp [valueOf,digitValue]
    · have less : n / base < n := Nat.div_lt_self (by omega) some_
      obtain ⟨digits,value,leads⟩ := ih (n / base) less
      have last : n % base < base := Nat.mod_lt n (by omega)
      rw [Nat.toDigits_of_base_le some_ (by omega)]
      refine ⟨fun c member => ?_,?_,fun rest zero => ?_⟩
      · rcases List.mem_append.mp member with front | one
        · exact digits c front
        · rw [List.mem_singleton.mp one]
          exact digitCharIn last few
      · rw [valueSnoc,value,digitCharValue (by omega),Option.getD_some,Nat.div_add_mod']
      · cases is : Nat.toDigits base (n / base) with
        | nil => exact absurd is Nat.toDigits_ne_nil
        | cons c front =>
          rw [is] at zero
          obtain ⟨rfl,_⟩ := List.cons.inj zero
          have none_ := (leads front is).1
          have some' : 0 < n / base := Nat.div_pos (by omega) (by omega)
          omega

def Stops (base : Nat) (r : List Char) : Prop := ∀ c, r.head? = some c → isDigitIn base c = false

theorem digitMore {c : Char} {base base' : Nat} (digit : isDigitIn base c = true)
    (more : base ≤ base') : isDigitIn base' c = true := by
  simp only [isDigitIn,Option.any_eq_true,decide_eq_true_eq] at digit ⊢
  obtain ⟨v,is,low⟩ := digit
  exact ⟨v,is,Nat.lt_of_lt_of_le low more⟩

theorem decimalReads {r : List Char} (fits : n < 2^64) (stops : Stops 10 r) :
    strtoull (decimal n ++ r) 10 = ⟨UInt64.ofNat n,false,r⟩ := by
  obtain ⟨digits,value,_⟩ := digitsWrite (show 1 < 10 by decide) (by decide) n
  unfold decimal
  cases is : Nat.toDigits 10 n with
  | nil => exact absurd is Nat.toDigits_ne_nil
  | cons c front =>
    rw [is] at digits value
    have read := @strtoullDigits c (front ++ r) (c::front) 10 10 r
        (digitMore (digits c (.head _)) (by decide)) rfl (by simp) digits stops
      (by rw [value]; exact fits)
    rw [value] at read
    exact read

theorem hexadecimalReads {r : List Char} (fits : n < 2^64) (stops : Stops 16 r) :
    strtoull ('0':: 'x'::(hexadecimal n ++ r)) 0 = ⟨UInt64.ofNat n,false,r⟩ := by
  obtain ⟨digits,value,_⟩ := digitsWrite (show 1 < 16 by decide) (by decide) n
  unfold hexadecimal
  cases is : Nat.toDigits 16 n with
  | nil => exact absurd is Nat.toDigits_ne_nil
  | cons c front =>
    rw [is] at digits value
    have chosen : radix 0 ('0':: 'x'::(c::front ++ r)) = (16,c::front ++ r) :=
      if_pos (by simp [digits c (.head _)])
    have read := @strtoullDigits '0' ('x'::(c::front ++ r)) (c::front) 0 16 r rfl chosen (by simp)
        digits stops (by rw [value]; exact fits)
    rw [value] at read
    exact read

end ZeroTrace.NumberReads
