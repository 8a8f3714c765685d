import ZeroTrace.EventTexts

/-! Items printed into a buffer with a comma between two of them, each with a call of snprintf of
its own. The buffer holds what one call for the whole list would have put there. -/
namespace ZeroTrace.ListTexts
open Cells EventFormat EventTexts NumberTexts
open RemoteStrings (snprintf)
open VariadicArgs (separator)

def piece (i : Nat) (item : List Char) : List Char := (if i = 0 then [] else separator) ++ item

def printItems (size : Nat) : Nat → Nat → (Nat → Char) → List (List Char) → Nat → Char
  | _,_,buffer,[] => buffer
  | i,used,buffer,item::items =>
    let written := piece i item
    let buffer := snprintfAt buffer used size written
    if written.length ≥ size - used then store buffer (size - 1) ['\x00']
    else printItems size (i + 1) (used + written.length) buffer items

def formatItems (buffer : Nat → Char) (size : Nat) (items : List (List Char)) : Nat → Char :=
  if size = 0 then buffer else printItems size 0 0 (store buffer 0 ['\x00']) items

def textFrom : Nat → List (List Char) → List Char
  | _,[] => []
  | i,item::items => piece i item ++ textFrom (i + 1) items

def itemsText (items : List (List Char)) : List Char := textFrom 0 items

section
variable {start : Nat → Char} {size : Nat} {text : List Char}

theorem endStored (some_ : text.length + 1 = size) :
    store (store start 0 (text ++ ['\x00'])) (size - 1) ['\x00'] =
    store start 0 (text ++ ['\x00']) := by
  have last : size - 1 = 0 + text.length := by omega
  rw [last]
  exact storeOn start 0 text '\x00' (by simp)

theorem itemsPrinted (items : List (List Char)) (i : Nat) (fits : text.length < size) :
    printItems size i text.length (store start 0 (text ++ ['\x00'])) items =
      snprintf start size (text ++ textFrom i items) := by
  induction items generalizing i text with
  | nil =>
    have whole : (text ++ textFrom i []).take (size - 1) = text := by
      rw [textFrom,List.append_nil]
      exact List.take_of_length_le (by omega)
    rw [snprintf,whole]
    rfl
  | cons item items ih =>
    have nonempty : ∀ n, (piece i item).take n ++ ['\x00'] ≠ [] := by simp
    have placed := fun n => storeOn start 0 text '\x00' (nonempty n)
    simp only [Nat.zero_add] at placed
    have put : snprintfAt (store start 0 (text ++ ['\x00'])) text.length size (piece i item) =
        store start 0 (text ++ ((piece i item).take (size - text.length - 1) ++ ['\x00'])) := by
      rw [snprintfAt,if_neg (by omega),placed]
    unfold printItems textFrom
    simp only [put]
    split
    · next full =>
      -- cut: nothing of what comes behind has room either
      have length : ((piece i item).take (size - text.length - 1)).length =
          size - text.length - 1 := by
        rw [List.length_take]
        omega
      have cut : (text ++ (piece i item ++ textFrom (i + 1) items)).take (size - 1) =
          text ++ (piece i item).take (size - text.length - 1) := by
        have rest : size - 1 - text.length = size - text.length - 1 := by omega
        rw [List.take_append,List.take_of_length_le (by omega),rest,
          List.take_append_of_le_length (by omega)]
      rw [← List.append_assoc,endStored (by rw [List.length_append]; omega),snprintf,cut]
    · next room =>
      have all : (piece i item).take (size - text.length - 1) = piece i item :=
        List.take_of_length_le (by omega)
      have next_ := @ih (text ++ piece i item) (i + 1) (by rw [List.length_append]; omega)
      rw [List.length_append,List.append_assoc,List.append_assoc] at next_
      rw [all,next_]

theorem itemsFormatted (some_ : 0 < size) (items : List (List Char)) :
    formatItems start size items = snprintf start size (itemsText items) := by
  rw [formatItems,if_neg (by omega)]
  exact @itemsPrinted start size [] items 0 some_

end

/-! How long the text is, and which characters are in it. -/
theorem textLength {items : List (List Char)} {most : Nat}
    (short : ∀ item ∈ items, item.length ≤ most) (i : Nat) :
    (textFrom i items).length ≤ items.length * (most + 2) := by
  induction items generalizing i with
  | nil => exact Nat.zero_le _
  | cons item items ih =>
    have first := short item List.mem_cons_self
    have rest := ih (fun item member => short item (List.mem_cons_of_mem _ member)) (i + 1)
    have one : (piece i item).length ≤ most + 2 := by
      unfold piece
      rw [List.length_append]
      split
      · exact Nat.le_trans (by simp) (Nat.le_add_right_of_le first)
      · exact (by simpa [separator,Nat.add_comm] using first)
    rw [textFrom,List.length_append,List.length_cons,Nat.succ_mul]
    omega

theorem textOf {c : Char} {items : List (List Char)} {i : Nat} (inside : c ∈ textFrom i items) :
    c ∈ separator ∨ ∃ item ∈ items, c ∈ item := by
  induction items generalizing i with
  | nil => exact absurd inside List.not_mem_nil
  | cons item items ih =>
    rcases List.mem_append.mp inside with first | rest
    · rcases List.mem_append.mp first with before | here
      · split at before
        · exact absurd before List.not_mem_nil
        · exact .inl before
      · exact .inr ⟨item,List.mem_cons_self,here⟩
    · rcases ih rest with comma | ⟨item',member,here⟩
      · exact .inl comma
      · exact .inr ⟨item',List.mem_cons_of_mem _ member,here⟩

theorem textSolid {c : Char} (unprinted : Unprinted c) {items : List (List Char)}
    (solid : ∀ item ∈ items, c ∉ item) : c ∉ itemsText items := by
  intro inside
  rcases textOf inside with comma | ⟨item,member,here⟩
  · exact unprintedOut unprinted (by decide) comma
  · exact solid item member here

theorem textPrinted {start : Nat → Char} {size : Nat} {items : List (List Char)}
    (solid : ∀ item ∈ items, '\x00' ∉ item) (fits : (itemsText items).length < size) :
    textIn size (formatItems start size items) = itemsText items := by
  rw [itemsFormatted (by omega),snprintf,List.take_of_length_le (by omega)]
  exact textInStore (textSolid (by decide) solid) fits

end ZeroTrace.ListTexts
