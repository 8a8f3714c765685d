import Mathlib.Logic.Basic

/-! Code that may not come back, with the positions it has read. -/
namespace ZeroTrace.ReadTrace

/- What a piece of code gives back, with the positions at which it has read. -/
abbrev Traced (α : Type) := α × List Nat

def note {α : Type} (reads : List Nat) (r : Option (Traced α)) : Option (Traced α) :=
  r.map fun x => (x.1,reads ++ x.2)

def andThen {α β : Type} (r : Option (Traced α)) (f : α → Option (Traced β)) : Option (Traced β) :=
  r.bind fun x => note x.2 (f x.1)

def Within {α : Type} (allowed : Nat → Prop) (r : Option (Traced α)) (P : α → Prop) : Prop :=
  ∃ x reads, r = some (x,reads) ∧ (∀ p ∈ reads, allowed p) ∧ P x

variable {α β : Type} {allowed : Nat → Prop} {r : Option (Traced α)} {P : α → Prop}

theorem withinNote {reads : List Nat} (inside : ∀ p ∈ reads, allowed p) (h : Within allowed r P) :
    Within allowed (note reads r) P := by
  obtain ⟨x,more,rfl,insideMore,holds⟩ := h
  refine ⟨x,reads ++ more,rfl,fun p member => ?_,holds⟩
  rcases List.mem_append.mp member with first | last
  · exact inside p first
  · exact insideMore p last

def Given {α : Type} (enough : Prop) (allowed : Nat → Prop) (r : Option (Traced α))
    (P : α → Prop) : Prop :=
  Within allowed r P ∨ r = none ∧ ¬ enough

variable {enough : Prop}

theorem givenNote {reads : List Nat} (inside : ∀ p ∈ reads, allowed p)
    (h : Given enough allowed r P) : Given enough allowed (note reads r) P := by
  rcases h with comes | ⟨rfl,few⟩
  · exact .inl (withinNote inside comes)
  · exact .inr ⟨rfl,few⟩

theorem givenThen {f : α → Option (Traced β)} {Q : β → Prop} (first : Given enough allowed r P)
    (rest : ∀ x, P x → Given enough allowed (f x) Q) :
    Given enough allowed (andThen r f) Q := by
  rcases first with ⟨x,reads,rfl,inside,holds⟩ | ⟨rfl,few⟩
  · exact givenNote inside (rest x holds)
  · exact .inr ⟨rfl,few⟩

theorem givenDone {x : α} {reads : List Nat} (inside : ∀ p ∈ reads, allowed p) (holds : P x) :
    Given enough allowed (some (x,reads)) P :=
  .inl ⟨x,reads,rfl,inside,holds⟩

theorem givenMore {less : Prop} (h : Given less allowed r P) (more : enough → less) :
    Given enough allowed r P := by
  rcases h with comes | ⟨none_,few⟩
  · exact .inl comes
  · exact .inr ⟨none_,fun all => few (more all)⟩

def Reaches (p : Nat) (r : Option (Traced α)) : Prop := ∀ x reads, r = some (x,reads) → p ∈ reads

theorem reachesNote {p : Nat} {reads : List Nat}
    (member : p ∈ reads) : Reaches p (note reads r) := by
  intro x all ran
  cases r with
  | none => cases ran
  | some y =>
    cases ran
    exact List.mem_append_left _ member

theorem reachesBehind {p : Nat} {reads : List Nat}
    (h : Reaches p r) : Reaches p (note reads r) := by
  intro x all ran
  cases r with
  | none => cases ran
  | some y =>
    cases ran
    exact List.mem_append_right _ (h y.1 y.2 rfl)

theorem reachesThen {p : Nat} {f : α → Option (Traced β)} (first : Given enough allowed r P)
    (rest : ∀ x, P x → Reaches p (f x)) :
    Reaches p (andThen r f) := by
  rcases first with ⟨x,reads,rfl,_,holds⟩ | ⟨rfl,_⟩
  · exact reachesBehind (rest x holds)
  · intro x reads ran
    cases ran

end ZeroTrace.ReadTrace
