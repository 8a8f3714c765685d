import Mathlib.Data.List.Basic

/-! A disassembler that takes one instruction after the other from the front, up to the first
place where there is none. Nothing here knows an instruction set. -/
namespace ZeroTrace.LinearSweep

/- What an instruction is depends on its own units only, and not on where it is. -/
structure Sweeper {B I : Type} (units : I → List B) where
  one : List B → UInt64 → Option I
  front : ∀ code a i, one code a = some i → units i <+: code ∧ units i ≠ []
  own : ∀ code a i code' a', one code a = some i → units i <+: code' →
    ∃ i', one code' a' = some i' ∧ units i' = units i

variable {B I : Type} {units : I → List B} (d : Sweeper units)

def sweep : Nat → List B → UInt64 → List I
  | 0,_,_ => []
  | fuel+1,code,a => match d.one code a with
    | none => []
    | some i => i::sweep fuel (code.drop (units i).length) (a + UInt64.ofNat (units i).length)

def disasm (code : List B) (a : UInt64) : List I := sweep d code.length code a

variable {d} {fuel : Nat} {code : List B} {a : UInt64}

theorem nothingThere : d.one [] a = none := by
  cases found : d.one [] a with
  | none => rfl
  | some i =>
    obtain ⟨front,some_⟩ := d.front [] a i found
    exact absurd (List.prefix_nil.mp front) some_

theorem sweepNothing : sweep d fuel [] a = [] := by
  cases fuel with
  | zero => rfl
  | succ fuel => simp [sweep,nothingThere]

theorem sweepTiles : (sweep d fuel code a).flatMap units <+: code := by
  induction fuel generalizing code a with
  | zero => exact List.nil_prefix
  | succ fuel ih =>
    cases found : d.one code a with
    | none => simp [sweep,found]
    | some i =>
      obtain ⟨rest,whole⟩ := (d.front code a i found).1
      have later := @ih (code.drop (units i).length) (a + UInt64.ofNat (units i).length)
      rw [← whole,List.drop_left] at later
      rw [← whole] at found
      rw [← whole]
      simp only [sweep,found,List.drop_left,List.flatMap_cons]
      exact (List.prefix_append_right_inj _).mpr later

theorem disasmTiles : (disasm d code a).flatMap units <+: code := sweepTiles

/- Code that ends where one of its instructions does is taken apart in the same way, wherever
it is. -/
theorem sweepCut {fuel' k : Nat} {code' : List B} (a' : UInt64)
    (cut : ((sweep d fuel code a).take k).flatMap units = code')
    (enough : code'.length ≤ fuel') :
    (sweep d fuel' code' a').map units = ((sweep d fuel code a).take k).map units := by
  induction fuel generalizing code a code' a' fuel' k with
  | zero =>
    subst cut
    simp [sweep,sweepNothing]
  | succ fuel ih =>
    cases found : d.one code a with
    | none =>
      simp only [sweep,found,List.take_nil,List.flatMap_nil] at cut
      subst cut
      simp [sweep,found,sweepNothing]
    | some i =>
      simp only [sweep,found] at cut ⊢
      cases k with
      | zero =>
        simp only [List.take_zero,List.flatMap_nil] at cut
        subst cut
        simp [sweepNothing]
      | succ k =>
        rw [List.take_succ_cons,List.flatMap_cons] at cut
        subst cut
        obtain ⟨i',there,same⟩ := d.own code a i (units i ++ _) a' found (List.prefix_append _ _)
        have some_ : 0 < (units i).length := List.length_pos_iff.mpr (d.front code a i found).2
        rw [List.length_append] at enough
        obtain ⟨fuel',rfl⟩ : ∃ n, fuel' = n + 1 := ⟨fuel' - 1,by omega⟩
        rw [sweep,there]
        simp only [same,List.drop_left,List.map_cons,List.take_succ_cons,List.cons.injEq,true_and]
        exact ih _ rfl (by omega)

section Width
variable {w m : Nat}

def word (w : Nat) (code : List B) (k : Nat) : List B := (code.drop (w * k)).take w

theorem wordTake {n k : Nat}
    (inside : w * (k + 1) ≤ n) : word w (code.take n) k = word w code k := by
  rw [Nat.mul_succ] at inside
  rw [word,word,List.drop_take,List.take_take,Nat.min_eq_left (by omega)]

def known (d : Sweeper units) (code : List B) : Bool := (d.one code 0).isSome

theorem knownFront {code' : List B} (front : code <+: code') (here : known d code = true) :
    ∃ i, d.one code' a = some i := by
  obtain ⟨i,found⟩ := Option.isSome_iff_exists.mp here
  obtain ⟨i',there,_⟩ := d.own code 0 i code' a found ((d.front code 0 i found).1.trans front)
  exact ⟨i',there⟩

theorem knownUnits {i : I} (found : d.one code a = some i) : known d (units i) = true := by
  obtain ⟨i',there,_⟩ := d.own code a i (units i) 0 found (List.prefix_refl _)
  exact Option.isSome_iff_exists.mpr ⟨i',there⟩

theorem sweepWhole (wide : 0 < w) (fixed : ∀ i ∈ sweep d fuel code a, (units i).length = w)
    (length : code.length = w * m)
    (enough : code.length ≤ fuel) : (sweep d fuel code a).flatMap units = code ↔
      ∀ k < m, known d (word w code k) = true := by
  induction m generalizing code a fuel with
  | zero =>
    have none_ : code = [] := List.length_eq_zero_iff.mp (by simpa using length)
    subst none_
    simp [sweepNothing]
  | succ m ih =>
    rw [Nat.mul_succ] at length
    obtain ⟨fuel,rfl⟩ : ∃ n, fuel = n + 1 := ⟨fuel - 1,by omega⟩
    cases found : d.one code a with
    | none =>
      simp only [sweep,found,List.flatMap_nil]
      refine ⟨fun none_ => absurd length (by rw [← none_,List.length_nil]; omega),fun all => ?_⟩
      obtain ⟨i,there⟩ :=
        @knownFront _ _ _ d (word w code 0) a code (List.take_prefix w code) (all 0 (by omega))
      exact absurd (found.symm.trans there) (by simp)
    | some i =>
      have here : (units i).length = w := fixed i (by simp [sweep,found])
      obtain ⟨rest,rfl⟩ := (d.front code a i found).1
      have first : word w (units i ++ rest) 0 = units i := by
        rw [word,Nat.mul_zero,List.drop_zero,← here,List.take_left]
      have later : ∀ k, word w (units i ++ rest) (k + 1) = word w rest k := fun k => by
        rw [word,word,Nat.mul_succ,Nat.add_comm,← List.drop_drop,List.drop_left' here]
      have tail : sweep d (fuel + 1) (units i ++ rest) a =
          i::sweep d fuel rest (a + UInt64.ofNat (units i).length) := by
        simp only [sweep,found,List.drop_left]
      rw [tail] at fixed ⊢
      rw [List.length_append] at length enough
      have others := @ih fuel rest (a + UInt64.ofNat (units i).length)
          (fun j member => fixed j (List.mem_cons_of_mem _ member)) (by omega) (by omega)
      rw [List.flatMap_cons,List.append_cancel_left_eq,others]
      constructor
      · intro all k low
        cases k with
        | zero => rw [first]; exact knownUnits found
        | succ k => rw [later]; exact all k (by omega)
      · intro all k low
        have next := all (k + 1) (by omega)
        rwa [later] at next

end Width

end ZeroTrace.LinearSweep
