import ZeroTrace.ByteMemory

/-! Texts put into cells one behind the other, with a mark at the end of the last one, as long as
there is room for it and the mark. An operation may fail, and what it has done by then stays. -/
namespace ZeroTrace.Attempts
variable {σ : Type}

abbrev Attempt (σ : Type) := σ × Bool

def andThen (r : Attempt σ) (f : σ → Attempt σ) : Attempt σ := if r.2 then f r.1 else r

theorem andThenWell {r : Attempt σ} (well : r.2 = true) (f : σ → Attempt σ) : andThen r f = f r.1 :=
  if_pos well

theorem andThenFailed {r : Attempt σ} (failed : r.2 = false)
    (f : σ → Attempt σ) : andThen r f = r := if_neg (by rw [failed]; simp)

end ZeroTrace.Attempts

namespace ZeroTrace.BoundedText
open Attempts Cells
variable {α : Type} (mark : α)

structure Out (α : Type) where
  cells : Nat → α
  offset : Nat

def append (size : Nat) (out : Out α) (text : List α) : Attempt (Out α) :=
  if out.offset + text.length ≥ size then (out,false)
  else (⟨store out.cells out.offset (text ++ [mark]),out.offset + text.length⟩,true)

/- This text is in the cells, and the rest of them is as it was at the start. -/
structure Held (size : Nat) (start : Nat → α) (text : List α) (out : Out α) : Prop where
  fits : text.length < size
  cells : out.cells = store start 0 (text ++ [mark])

structure Filled (size : Nat) (start : Nat → α) (text : List α) (out : Out α) :
    Prop extends Held mark size start text out where
  offset : out.offset = text.length

/- The text is there, or there was no room for all of it and some of it is there. -/
structure Wrote (size : Nat) (start : Nat → α) (text : List α) (r : Attempt (Out α)) : Prop where
  well : r.2 = true ↔ text.length < size
  whole : r.2 = true → Filled mark size start text r.1
  begun : ∃ t, t <+: text ∧ Held mark size start t r.1

def Appends (size : Nat) (start : Nat → α) (text : List α) (f : Out α → Attempt (Out α)) : Prop :=
  ∀ (before : List α) (out : Out α), Filled mark size start before out →
    Wrote mark size start (before ++ text) (f out)

section
variable {mark} {size : Nat} {start : Nat → α} {a b text : List α} {f g : Out α → Attempt (Out α)}
    {out : Out α} {r : Attempt (Out α)}

theorem appendsNone : Appends mark size start [] fun out => (out,true) := by
  intro before out filled
  rw [List.append_nil]
  exact ⟨iff_of_true rfl filled.fits,fun _ => filled,before,List.prefix_rfl,filled.toHeld⟩

theorem appendsText (text : List α) : Appends mark size start text fun out =>
    append mark size out text := by
  intro before out filled
  have length : (before ++ text).length = out.offset + text.length := by
    rw [List.length_append,filled.offset]
  show Wrote mark size start (before ++ text) (append mark size out text)
  unfold append
  by_cases full : out.offset + text.length ≥ size
  · rw [if_pos full]
    exact ⟨iff_of_false (by simp) (by omega),fun well => absurd well (by simp),before,
      List.prefix_append _ _,filled.toHeld⟩
  · rw [if_neg full]
    have place : store out.cells out.offset (text ++ [mark]) =
        store start 0 (before ++ text ++ [mark]) := by
      have more : text ++ [mark] ≠ [] := by simp
      have on := storeOn start 0 before mark more
      rw [Nat.zero_add] at on
      rw [filled.cells,filled.offset,on,List.append_assoc]
    have whole : Filled mark size start (before ++ text)
        ⟨store out.cells out.offset (text ++ [mark]),out.offset + text.length⟩ :=
      ⟨⟨by omega,place⟩,length.symm⟩
    exact ⟨iff_of_true rfl (by omega),fun _ => whole,_,List.prefix_rfl,whole.toHeld⟩

theorem wroteThen (first : Wrote mark size start text r) (second : Appends mark size start b g) :
    Wrote mark size start (text ++ b) (andThen r g) := by
  cases done : r.2 with
  | true =>
    rw [andThenWell done]
    exact second _ _ (first.whole done)
  | false =>
    have short : ¬ text.length < size := fun fits => by
      rw [first.well.mpr fits] at done
      cases done
    obtain ⟨t,part,filled⟩ := first.begun
    rw [andThenFailed done]
    refine ⟨iff_of_false (by rw [done]; simp) (by rw [List.length_append]; omega),fun well => ?_,t,
      part.trans (List.prefix_append _ _),filled⟩
    rw [done] at well
    cases well

theorem appendsThen (first : Appends mark size start a f) (second : Appends mark size start b g) :
    Appends mark size start (a ++ b) fun out => andThen (f out) g := by
  intro before out filled
  rw [← List.append_assoc]
  exact wroteThen (first _ _ filled) second

/-! What a text in the cells means for them. -/
theorem heldOutside (held : Held mark size start text out) {i : Nat} (outside : size ≤ i) :
    out.cells i = start i := by
  have fits := held.fits
  rw [held.cells]
  exact storeBehind (by rw [List.length_append,List.length_singleton]; omega)

theorem filledAt (filled : Filled mark size start text out) {i : Nat} (low : i < text.length) :
    out.cells i = text[i] := by
  have there : i < (text ++ [mark]).length := by rw [List.length_append]; omega
  have found := storeAt (b := start) (i := 0) there
  rw [Nat.zero_add] at found
  rw [filled.cells,found,List.getElem_append_left low]

theorem filledMark (filled : Filled mark size start text out) : out.cells out.offset = mark := by
  have there : text.length < (text ++ [mark]).length := by simp
  have found := storeAt (b := start) (i := 0) there
  rw [Nat.zero_add] at found
  rw [filled.cells,filled.offset,found,List.getElem_append_right (Nat.le_refl _)]
  simp

/-! A text without the mark in it, whatever it is. -/
structure Sound (mark : α) (size : Nat) (start : Nat → α) (r : Attempt (Out α)) : Prop where
  held : ∃ text, mark ∉ text ∧ Held mark size start text r.1
  filled : r.2 = true → ∃ text, mark ∉ text ∧ Filled mark size start text r.1

def Keeps (mark : α) (size : Nat) (start : Nat → α) (f : Out α → Attempt (Out α)) : Prop :=
  ∀ (text : List α) (out : Out α), mark ∉ text → Filled mark size start text out →
    Sound mark size start (f out)

theorem wroteSound (wrote : Wrote mark size start text r) (solid : mark ∉ text) :
    Sound mark size start r := by
  obtain ⟨t,part,held⟩ := wrote.begun
  exact ⟨⟨t,fun inside => solid (part.subset inside),held⟩,
    fun well => ⟨text,solid,wrote.whole well⟩⟩

theorem appendsKeeps (appends : Appends mark size start b f) (solid : mark ∉ b) :
    Keeps mark size start f := by
  intro text out solid' filled
  exact wroteSound (appends _ _ filled) (List.not_mem_append solid' solid)

theorem soundThen (first : Sound mark size start r) (second : Keeps mark size start g) :
    Sound mark size start (andThen r g) := by
  cases done : r.2 with
  | true =>
    obtain ⟨text,solid,filled⟩ := first.filled done
    rw [andThenWell done]
    exact second text r.1 solid filled
  | false =>
    rw [andThenFailed done]
    exact first

end

end ZeroTrace.BoundedText
