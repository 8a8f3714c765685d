import Mathlib.Logic.Basic

/-! A search over numbered entries, one after the other, that must not look outside of where
they are kept. -/
namespace ZeroTrace.BoundedSearch
variable {β : Type}

/- What looking at an entry comes to: it may lie outside, which ends everything; it may end the
search with an answer; or the next one is looked at. -/
abbrev Look (β : Type) := Option (Option β)

def search (look : Nat → Look β) : Nat → Nat → Look β
  | 0,_ => some none
  | n+1,i => match look i with
    | none => none
    | some none => search look n (i + 1)
    | some (some b) => some (some b)

structure Spec (look : Nat → Look β) (fits ends : Nat → Prop) : Prop where
  inside : ∀ i, look i ≠ none ↔ fits i
  stops : ∀ i, fits i → ((∃ b, look i = some (some b)) ↔ ends i)

def AllInside (fits ends : Nat → Prop) (n i : Nat) : Prop :=
  ∀ j, i ≤ j → j < i + n → (∀ k, i ≤ k → k < j → ¬ ends k) → fits j

def Ended (ends : Nat → Prop) (n i : Nat) : Prop := ∃ j, i ≤ j ∧ j < i + n ∧ ends j

variable {look : Nat → Look β} {fits ends : Nat → Prop} {n i : Nat}

theorem allInsideStep : AllInside fits ends (n + 1) i ↔ fits i ∧
    (¬ ends i → AllInside fits ends n (i + 1)) := by
  constructor
  · intro all
    refine ⟨all i (Nat.le_refl i) (by omega) fun k low high => absurd high (Nat.not_lt.mpr low),
      fun goes j low high reached => ?_⟩
    refine all j (Nat.le_of_succ_le low) (by omega) fun k from_ before => ?_
    rcases Nat.eq_or_lt_of_le from_ with same | later
    · rwa [← same]
    · exact reached k later before
  · rintro ⟨here,rest⟩ j low high reached
    rcases Nat.eq_or_lt_of_le low with same | later
    · rwa [← same]
    · exact rest (reached i (Nat.le_refl i) later) j later (by omega) fun k from_ before =>
        reached k (Nat.le_of_succ_le from_) before

theorem endedStep : Ended ends (n + 1) i ↔ ends i ∨ Ended ends n (i + 1) := by
  constructor
  · rintro ⟨j,low,high,last⟩
    rcases Nat.eq_or_lt_of_le low with same | later
    · exact .inl (by rwa [same])
    · exact .inr ⟨j,later,by omega,last⟩
  · rintro (last | ⟨j,low,high,last⟩)
    · exact ⟨i,Nat.le_refl i,by omega,last⟩
    · exact ⟨j,Nat.le_of_succ_le low,by omega,last⟩

theorem searchInside (spec : Spec look fits ends) (n i : Nat) : search look n i ≠ none ↔
    AllInside fits ends n i := by
  induction n generalizing i with
  | zero => exact iff_of_true (by simp [search]) fun j low high => absurd high (Nat.not_lt.mpr low)
  | succ n ih =>
    have here := spec.inside i
    have stops := spec.stops i
    rw [search,allInsideStep,← here,← ih (i + 1)]
    rw [← here] at stops
    cases looked : look i with
    | none => simp
    | some answer =>
      have ended := stops (by rw [looked]; simp)
      rw [looked] at ended
      cases answer with
      | none => simp [← ended]
      | some b => simp [← ended]

/- Where all of them do, there is an answer exactly if one of them gives it. -/
theorem searchEnds (spec : Spec look fits ends) {n i : Nat} (all : AllInside fits ends n i) :
    (∃ b, search look n i = some (some b)) ↔ Ended ends n i := by
  induction n generalizing i with
  | zero => exact iff_of_false (by simp [search]) fun ⟨j,low,high,_⟩ => by omega
  | succ n ih =>
    obtain ⟨here,rest⟩ := allInsideStep.mp all
    have stops := spec.stops i here
    have found := (spec.inside i).mpr here
    rw [search,endedStep,← stops]
    cases looked : look i with
    | none => exact absurd looked found
    | some answer =>
      rw [looked] at stops
      cases answer with
      | none =>
        have goes : ¬ ends i := fun last => by simpa using stops.mpr last
        simpa using ih (rest goes)
      | some b => simp

end ZeroTrace.BoundedSearch
