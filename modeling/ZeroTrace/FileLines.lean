import Mathlib.Data.List.Basic

/-! A text file read line by line into a buffer, as fgets does it: up to and with the end of
the line, or as much as there is room for. -/
namespace ZeroTrace.FileLines

/- With room for so many characters: what is stored in front of the NUL, and what is left. -/
def fgets : Nat → List Char → List Char × List Char
  | 0,text => ([],text)
  | _+1,[] => ([],[])
  | room+1,c::text => if c = '\n' then ([c],text) else (c::(fgets room text).1,(fgets room text).2)

attribute [local simp] fgets

variable {room : Nat} {line text rest : List Char}

theorem fgetsWhole : (fgets room text).1 ++ (fgets room text).2 = text := by
  induction room generalizing text with
  | zero => rfl
  | succ room ih => cases text with
    | nil => rfl
    | cons c text =>
      rw [fgets]
      split
      · rfl
      · exact congrArg (c::·) ih

theorem fgetsFurther (some_ : 0 < room) (more : text ≠ []) :
    (fgets room text).2.length < text.length := by
  obtain ⟨room,rfl⟩ := Nat.exists_eq_add_one.mpr some_
  cases text with
  | nil => exact absurd rfl more
  | cons c text =>
    rw [fgets]
    split
    · exact Nat.lt_succ_self _
    · have whole := congrArg List.length (@fgetsWhole room text)
      rw [List.length_append] at whole
      simp only [List.length_cons]
      omega

theorem fgetsLine (inner : '\n' ∉ line) (short : line.length < room) :
    fgets room (line ++ '\n'::rest) = (line ++ ['\n'],rest) := by
  induction line generalizing room with
  | nil =>
    obtain ⟨room,rfl⟩ := Nat.exists_eq_add_one.mpr short
    rfl
  | cons c line ih =>
    obtain ⟨room,rfl⟩ := Nat.exists_eq_add_one.mpr (Nat.zero_lt_of_lt short)
    have other : c ≠ '\n' := fun same => inner (same ▸ .head _)
    have tail := ih (fun inside => inner (.tail _ inside)) (Nat.lt_of_succ_lt_succ short)
    rw [List.cons_append,fgets,if_neg other,tail]
    rfl

def chunks (room : Nat) (text : List Char) : List (List Char) :=
  if _more : 0 < room ∧ text ≠ [] then (fgets room text).1::chunks room (fgets room text).2 else []
termination_by text.length
decreasing_by exact fgetsFurther _more.1 _more.2

theorem chunksMore (some_ : 0 < room) (more : text ≠ []) :
    chunks room text = (fgets room text).1::chunks room (fgets room text).2 := by
  rw [chunks,dif_pos ⟨some_,more⟩]

theorem chunksOver : chunks room [] = [] := by
  rw [chunks,dif_neg fun both => both.2 rfl]

def linesText (lines : List (List Char)) : List Char := lines.flatMap (· ++ ['\n'])

theorem chunksLines {lines : List (List Char)} (inner : ∀ line ∈ lines, '\n' ∉ line)
    (short : ∀ line ∈ lines, line.length < room) :
    chunks room (linesText lines) = lines.map (· ++ ['\n']) := by
  induction lines with
  | nil => exact chunksOver
  | cons line lines ih =>
    have text : linesText (line::lines) = line ++ '\n'::linesText lines := by
      rw [linesText,List.flatMap_cons,List.append_assoc]
      rfl
    have some_ : 0 < room := Nat.zero_lt_of_lt (short line (.head _))
    rw [text,chunksMore some_ (by simp),fgetsLine (inner line (.head _)) (short line (.head _)),
      List.map_cons,
      ih (fun line member => inner line (.tail _ member)) fun line member =>
        short line (.tail _ member)]

end ZeroTrace.FileLines
