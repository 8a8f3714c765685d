import Mathlib.Data.List.Basic

/-! A regular expression matcher that tries alternatives in a fixed order and takes the
first that works. Repetition is of single characters, greedy or lazy. Nothing here knows a
particular expression. -/
namespace ZeroTrace.Backtracking

inductive Pattern where
  | start
  | stop
  | one (p : Char → Bool)
  | many (p : Char → Bool) (least : Nat) (greedy : Bool)
  | seq (a b : Pattern)
  | maybe (a : Pattern)
  | group (a : Pattern)

structure Found where
  pos : Nat
  rest : List Char
  groups : List (List Char)
  deriving DecidableEq, Repr

def Found.andThen (f g : Found) : Found := ⟨g.pos,g.rest,f.groups ++ g.groups⟩

/- All matches from here on, in the order in which they are tried. The end is also before a
last newline. -/
def results : Pattern → Nat → List Char → List Found
  | .start,pos,rest => if pos = 0 then [⟨pos,rest,[]⟩] else []
  | .stop,pos,rest => if rest = [] ∨ rest = ['\n'] then [⟨pos,rest,[]⟩] else []
  | .one _,_,[] => []
  | .one p,pos,c::rest => if p c then [⟨pos + 1,rest,[]⟩] else []
  | .many p least greedy,pos,rest =>
    let counts := List.range' least ((rest.takeWhile p).length + 1 - least)
    (if greedy then counts.reverse else counts).map fun k => ⟨pos + k,rest.drop k,[]⟩
  | .seq a b,pos,rest => (results a pos rest).flatMap fun f =>
      (results b f.pos f.rest).map f.andThen
  | .maybe a,pos,rest => results a pos rest ++ [⟨pos,rest,[]⟩]
  | .group a,pos,rest => (results a pos rest).map fun f =>
      { f with groups := rest.take (f.pos - pos)::f.groups }

attribute [local simp] results

def search (p : Pattern) (line : List Char) : Option Found := (results p 0 line).head?

variable {a b : Pattern} {p : Char → Bool} {pos least : Nat} {greedy : Bool} {rest tail : List Char}
    {f g : Found}

/- What comes before the match that goes through leads nowhere. -/
theorem seqAfter {before after : List Found} (split : results a pos rest = before ++ f::after)
    (nowhere : ∀ x ∈ before, results b x.pos x.rest = [])
    (goes : (results b f.pos f.rest).head? = some g) :
    (results (.seq a b) pos rest).head? = some (f.andThen g) := by
  have none_ : before.flatMap (fun x => (results b x.pos x.rest).map x.andThen) = [] := by
    refine List.flatMap_eq_nil_iff.mpr fun x member => ?_
    rw [nowhere x member]
    rfl
  rw [results,split,List.flatMap_append,none_,List.nil_append,List.flatMap_cons,List.head?_append,
    List.head?_map,goes]
  rfl

theorem seqFirst (first : (results a pos rest).head? = some f)
    (goes : (results b f.pos f.rest).head? = some g) :
    (results (.seq a b) pos rest).head? = some (f.andThen g) := by
  obtain ⟨after,split⟩ := List.head?_eq_some_iff.mp first
  exact @seqAfter a b pos rest f g [] after split (by simp) goes

theorem seqNothing (nowhere : ∀ f ∈ results a pos rest, results b f.pos f.rest = []) :
    results (.seq a b) pos rest = [] := by
  refine List.flatMap_eq_nil_iff.mpr fun x member => ?_
  rw [nowhere x member]
  rfl

theorem maybeSkipped (nowhere : ∀ f ∈ results a pos rest, results b f.pos f.rest = [])
    (goes : (results b pos rest).head? = some g) :
    (results (.seq (.maybe a) b) pos rest).head? = some g := by
  have skipped := @seqAfter (.maybe a) b pos rest ⟨pos,rest,[]⟩ g (results a pos rest) [] rfl
      nowhere goes
  rw [skipped]
  rfl

theorem oneMatches {c : Char} (fits : p c = true) :
    results (.one p) pos (c::rest) = [⟨pos + 1,rest,[]⟩] := by
  simp [results,fits]

theorem oneFails {c : Char} (other : p c = false) : results (.one p) pos (c::rest) = [] := by
  simp [results,other]

theorem groupFirst (first : (results a pos rest).head? = some f) :
    (results (.group a) pos rest).head? =
      some { f with groups := rest.take (f.pos - pos)::f.groups } := by
  rw [results,List.head?_map,first]
  rfl

/- A run of characters that ends where the next one does not belong to it. -/
def Ends (p : Char → Bool) (tail : List Char) : Prop := ∀ c more, tail = c::more → p c = false

theorem endsCons {c : Char} (other : p c = false) : Ends p (c::rest) := by
  rintro d more same
  obtain ⟨rfl,-⟩ := List.cons.inj same
  exact other

theorem runLength {run : List Char} (all : ∀ c ∈ run, p c = true) (ends : Ends p tail) :
    ((run ++ tail).takeWhile p).length = run.length := by
  have none_ : tail.takeWhile p = [] := by
    cases tail with
    | nil => rfl
    | cons c more => simp [ends c more rfl]
  rw [List.takeWhile_append_of_pos all,none_,List.append_nil]

theorem manyFirst {run : List Char} (all : ∀ c ∈ run, p c = true) (ends : Ends p tail)
    (enough : least ≤ run.length) :
    (results (.many p least true) pos (run ++ tail)).head? = some ⟨pos + run.length,tail,[]⟩ := by
  obtain ⟨n,count⟩ : ∃ n, run.length + 1 - least = n + 1 := ⟨run.length - least,by omega⟩
  have last : least + n = run.length := by omega
  simp only [results,runLength all ends,count,List.range'_1_concat,List.reverse_append,
    List.reverse_singleton,List.singleton_append,
    if_true,List.map_cons,List.head?_cons,last,List.drop_left]

theorem manyMember {run : List Char} (all : ∀ c ∈ run, p c = true) (ends : Ends p tail)
    (member : f ∈ results (.many p least greedy) pos (run ++ tail)) :
    ∃ k, least ≤ k ∧ k ≤ run.length ∧ f = ⟨pos + k,(run ++ tail).drop k,[]⟩ := by
  simp only [results,runLength all ends,List.mem_map] at member
  obtain ⟨k,inside,rfl⟩ := member
  have range : k ∈ List.range' least (run.length + 1 - least) := by
    cases greedy with
    | true => exact List.mem_reverse.mp inside
    | false => exact inside
  obtain ⟨low,high⟩ := List.mem_range'_1.mp range
  exact ⟨k,low,by omega,rfl⟩

theorem manyNone (ends : Ends p tail) (some_ : least ≠ 0) :
    results (.many p least greedy) pos tail = [] := by
  have none_ := @runLength p tail [] (by simp) ends
  rw [List.nil_append] at none_
  have zero : (0 : Nat) + 1 - least = 0 := by omega
  cases greedy <;> simp [results,none_,zero]

/- Two runs that share no character: the second can only start where the first is over. -/
theorem twoRunsEnd {q : Char → Bool} {run : List Char} {c : Char} (all : ∀ x ∈ run, p x = true)
    (apart : ∀ x ∈ run, q x = false)
    (first : p c = false) (second : q c = true) (ends : Ends q tail)
    (member : f ∈ results (.seq (.many p least greedy) (.many q 1 true)) pos (run ++ c::tail)) :
    f.rest = tail := by
  obtain ⟨g,left,mapped⟩ := List.mem_flatMap.mp member
  obtain ⟨h,right,rfl⟩ := List.mem_map.mp mapped
  obtain ⟨k,-,within,rfl⟩ := manyMember all (endsCons first) left
  rcases Nat.lt_or_ge k run.length with short | full
  · have inside : results (.many q 1 true) (pos + k) ((run ++ c::tail).drop k) = [] := by
      rw [List.drop_append_of_le_length (Nat.le_of_lt short),List.drop_eq_getElem_cons short]
      exact manyNone (endsCons (apart _ (List.getElem_mem short))) (by decide)
    rw [inside] at right
    exact absurd right List.not_mem_nil
  · obtain rfl : k = run.length := Nat.le_antisymm within full
    have one : ∀ x ∈ [c], q x = true := by simpa using second
    change h ∈ results (.many q 1 true) (pos + run.length)
      ((run ++ c::tail).drop run.length) at right
    rw [List.drop_left] at right
    obtain ⟨j,low,high,rfl⟩ := manyMember one ends right
    obtain rfl : j = 1 := Nat.le_antisymm high low
    rfl

theorem manyNowhere (nowhere : ∀ k, results b (pos + k) (rest.drop k) = []) :
    results (.seq (.many p least greedy) b) pos rest = [] := by
  refine seqNothing fun f member => ?_
  rw [results,List.mem_map] at member
  obtain ⟨k,_,rfl⟩ := member
  exact nowhere k

/- A lazy run gives way to what follows at the first place where that can start. -/
theorem manyLazy {run : List Char} {c : Char} (all : ∀ c ∈ run, p c = true)
    (nowhere : ∀ x ∈ run, ∀ pos more, results b pos (x::more) = [])
    (goes : (results b (pos + run.length) (c::tail)).head? = some g) :
    (results (.seq (.many p 0 false) b) pos (run ++ c::tail)).head? = some g := by
  have long : run.length ≤ ((run ++ c::tail).takeWhile p).length := by
    rw [List.takeWhile_append_of_pos all,List.length_append]
    omega
  obtain ⟨n,count⟩ : ∃ n, ((run ++ c::tail).takeWhile p).length + 1 - 0 = run.length + (n + 1) :=
    ⟨((run ++ c::tail).takeWhile p).length - run.length,by omega⟩
  have split : results (.many p 0 false) pos (run ++ c::tail) =
      (List.range' 0 run.length).map (fun k => (⟨pos + k,(run ++ c::tail).drop k,[]⟩ : Found)) ++
        ⟨pos + run.length,c::tail,[]⟩::
        (List.range' (run.length + 1) n).map (fun k => ⟨pos + k,(run ++ c::tail).drop k,[]⟩) := by
    simp only [results,count,Bool.false_eq_true,if_false]
    rw [← List.range'_append_1,List.map_append,Nat.zero_add,List.range'_succ,List.map_cons,
      List.drop_left]
  have passed := seqAfter split (fun x member => ?_) goes
  · rw [passed]
    rfl
  · obtain ⟨k,inside,rfl⟩ := List.mem_map.mp member
    have low : k < run.length := by have := (List.mem_range'_1.mp inside).2; omega
    rw [List.drop_append_of_le_length (Nat.le_of_lt low),List.drop_eq_getElem_cons low]
    exact nowhere _ (List.getElem_mem low) _ _

/-! What any match has read, whichever way it was found. -/

theorem seqMember (member : f ∈ results (.seq a b) pos rest) :
    ∃ g h, g ∈ results a pos rest ∧ h ∈ results b g.pos g.rest ∧ f = g.andThen h := by
  obtain ⟨g,first,mapped⟩ := List.mem_flatMap.mp member
  obtain ⟨h,second,same⟩ := List.mem_map.mp mapped
  exact ⟨g,h,first,second,same.symm⟩

theorem manyText (member : f ∈ results (.many p least greedy) pos rest) :
    ∃ text, rest = text ++ f.rest ∧ f.pos = pos + text.length ∧ f.groups = [] ∧
      least ≤ text.length ∧ ∀ c ∈ text, p c = true := by
  have split : rest.takeWhile p ++ rest.dropWhile p = rest := List.takeWhile_append_dropWhile
  have ends : Ends p (rest.dropWhile p) := fun c more same => by
    have stops := List.head?_dropWhile_not p rest
    rw [same] at stops
    simpa using stops
  rw [← split] at member
  obtain ⟨k,low,high,rfl⟩ :=
    manyMember (fun c inside => List.all_eq_true.mp List.all_takeWhile c inside) ends member
  rw [split]
  refine ⟨rest.take k,(List.take_append_drop k rest).symm,?_,rfl,?_,fun c inside => ?_⟩
  · have := (List.takeWhile_prefix p (l := rest)).length_le
    rw [List.length_take,Nat.min_eq_left (by omega)]
  · have := (List.takeWhile_prefix p (l := rest)).length_le
    rw [List.length_take,Nat.min_eq_left (by omega)]
    exact low
  · have front : rest.take k <+: rest.takeWhile p :=
      List.prefix_of_prefix_length_le (List.take_prefix k rest) (List.takeWhile_prefix p)
        (Nat.le_trans (List.length_take_le k rest) high)
    exact List.all_eq_true.mp List.all_takeWhile c (front.subset inside)

theorem oneText (member : f ∈ results (.one p) pos rest) : ∃ c, rest = c::f.rest ∧ f.pos = pos + 1 ∧
    f.groups = [] ∧ p c = true := by
  cases rest with
  | nil => exact absurd member List.not_mem_nil
  | cons c more =>
    simp only [results] at member
    split at member
    · next fits =>
      obtain rfl := List.mem_singleton.mp member
      exact ⟨c,rfl,rfl,rfl,fits⟩
    · exact absurd member List.not_mem_nil

def Silent (a : Pattern) : Prop := ∀ pos rest, ∀ f ∈ results a pos rest, f.groups = []

theorem silentStart : Silent .start := by
  intro pos rest f member
  simp only [results] at member
  split at member
  · rw [List.mem_singleton.mp member]
  · exact absurd member List.not_mem_nil

theorem silentStop : Silent .stop := by
  intro pos rest f member
  simp only [results] at member
  split at member
  · rw [List.mem_singleton.mp member]
  · exact absurd member List.not_mem_nil

theorem silentOne (p : Char → Bool) : Silent (.one p) := fun _ _ _ member => by
  obtain ⟨_,_,_,none_,_⟩ := oneText member
  exact none_

theorem silentMany (p : Char → Bool) (least : Nat)
    (greedy : Bool) : Silent (.many p least greedy) := fun _ _ _ member => by
  obtain ⟨_,_,_,none_,_⟩ := manyText member
  exact none_

theorem silentSeq (first : Silent a) (second : Silent b) : Silent (.seq a b) := by
  intro pos rest f member
  obtain ⟨g,h,here,there,rfl⟩ := seqMember member
  rw [Found.andThen,first _ _ g here,second _ _ h there]
  rfl

theorem silentMaybe (silent : Silent a) : Silent (.maybe a) := by
  intro pos rest f member
  rcases List.mem_append.mp member with matched | skipped
  · exact silent _ _ f matched
  · rw [List.mem_singleton.mp skipped]

theorem caughtSecond (silent : Silent a) (member : f ∈ results (.seq a b) pos rest) :
    ∃ g, g ∈ results a pos rest ∧ ∃ h ∈ results b g.pos g.rest, f.groups = h.groups := by
  obtain ⟨g,h,here,there,rfl⟩ := seqMember member
  exact ⟨g,here,h,there,by rw [Found.andThen,silent _ _ g here,List.nil_append]⟩

theorem caughtFirst (silent : Silent b) (member : f ∈ results (.seq a b) pos rest) :
    ∃ g ∈ results a pos rest, f.groups = g.groups := by
  obtain ⟨g,h,here,there,rfl⟩ := seqMember member
  exact ⟨g,here,by rw [Found.andThen,silent _ _ h there,List.append_nil]⟩

theorem searchMember (found : search a rest = some f) : f ∈ results a 0 rest :=
  List.mem_of_head? found

end ZeroTrace.Backtracking
