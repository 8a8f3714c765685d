import ZeroTrace.TextRow

/-! How a command line comes apart into words: the main loop takes off the first with strtok and
hands a handler what is left, which the handler takes off word by word. -/
namespace ZeroTrace.CommandLine
open TextRow

/- The line, and where strtok goes on. -/
structure Scan where
  row : Row
  at_ : Nat
  deriving DecidableEq, Repr

def nextToken (delim : Char) (s : Scan) : Scan × Option (List Char) :=
  match strtok s.row s.at_ delim with
  | (row,some token) => (⟨row,token.save⟩,some (textAt row token.start))
  | (row,none) => (⟨row,s.at_⟩,none)

def nextArg (s : Scan) : Scan × Option (List Char) := nextToken ' ' s

/- The command, and where its handler starts: at `args` or, where that is NULL, behind
the command. -/
def beginCommand (input : List Char) : Option (List Char × Scan) :=
  match nextArg ⟨input ++ ['\x00'],0⟩ with
  | (_,none) => none
  | (s,some cmd) =>
    let args := cmd.length
    let args := args + ((textAt s.row args).takeWhile (· == ' ')).length
    some (cmd,if textAt s.row args = [] then s else ⟨s.row,args⟩)

def wordsLeft : Nat → Scan → List (List Char)
  | 0,_ => []
  | n+1,s => match nextArg s with
    | (s,some word) => word::wordsLeft n s
    | (_,none) => []

def words (s : List Char) : List (List Char) := (s.splitOn ' ').filter fun word => !word.isEmpty

section
variable {w s t z : List Char} {a : Row} {p : Nat} {ws : List (List Char)}

theorem wordsApart (s t : List Char) : words (s ++ ' '::t) = words s ++ words t := by
  rw [words,List.splitOn_append_cons_self,List.filter_append]
  rfl

theorem wordsBlank (n : Nat) (s : List Char) : words (List.replicate n ' ' ++ s) = words s := by
  induction n with
  | zero => rfl
  | succ n ih =>
    rw [List.replicate_succ,List.cons_append]
    exact (wordsApart [] _).trans ih

theorem wordAlone (some_ : w ≠ []) (whole : ' ' ∉ w) : words w = [w] := by
  rw [words,List.splitOn_eq_singleton whole,List.filter_cons_of_pos (by simpa using some_)]
  rfl

inductive Opens : List Char → List (List Char) → Prop where
  | blank (n : Nat) : Opens (List.replicate n ' ') []
  | last (n : Nat) {w : List Char} (some_ : w ≠ []) (whole : ' ' ∉ w) :
      Opens (List.replicate n ' ' ++ w) [w]
  | more (n : Nat) {w : List Char} (s : List Char) (some_ : w ≠ []) (whole : ' ' ∉ w) :
      Opens (List.replicate n ' ' ++ (w ++ ' '::s)) (w::words s)

theorem opensWord (some_ : s ≠ []) (plain : s.head? ≠ some ' ') (n : Nat) :
    Opens (List.replicate n ' ' ++ s) (words s) := by
  by_cases blank : ' ' ∈ s
  · obtain ⟨w,rest,rfl,whole⟩ := List.eq_append_cons_of_mem blank
    have first : w ≠ [] := by
      rintro rfl
      exact plain rfl
    rw [wordsApart,wordAlone first whole]
    exact .more n rest first whole
  · rw [wordAlone some_ blank]
    exact .last n some_ blank

theorem opens (s : List Char) : Opens s (words s) := by
  have front : s.takeWhile (· == ' ') = List.replicate (s.takeWhile (· == ' ')).length ' ' :=
    List.eq_replicate_iff.mpr ⟨rfl,fun c member => by simpa using List.mem_takeWhile_imp member⟩
  have plain : (s.dropWhile (· == ' ')).head? ≠ some ' ' := fun blank => by
    have other := List.head?_dropWhile_not (· == ' ') s
    rw [blank] at other
    cases other
  have split := (List.takeWhile_append_dropWhile (p := (· == ' ')) (l := s)).symm
  rw [front] at split
  rw [split,wordsBlank]
  cases rest : s.dropWhile (· == ' ') with
  | nil =>
    rw [List.append_nil]
    exact .blank _
  | cons c r =>
    rw [rest] at plain
    exact opensWord (by simp) plain _

/-! The words that strtok gives. -/

section
variable {ok : Char → Bool} {d : Char} {n : Nat}

theorem takenFurther {r : List Char} (within : n ≤ (r.takeWhile ok).length) :
    (r.drop n).takeWhile ok = (r.takeWhile ok).drop n := by
  induction n generalizing r with
  | zero => rfl
  | succ n ih =>
    cases r with
    | nil => rfl
    | cons c r =>
      by_cases good : ok c = true
      · rw [List.takeWhile_cons_of_pos good] at within ⊢
        exact ih (Nat.le_of_succ_le_succ within)
      · rw [List.takeWhile_cons_of_neg good] at within
        exact absurd within (Nat.not_succ_le_zero n)

theorem takenCut {r : List Char} (bad : ¬ ok d = true) (within : n < (r.takeWhile ok).length) :
    (r.set n d).takeWhile ok = (r.takeWhile ok).take n := by
  induction n generalizing r with
  | zero =>
    cases r with
    | nil => rfl
    | cons c r => exact List.takeWhile_cons_of_neg bad
  | succ n ih =>
    cases r with
    | nil => rfl
    | cons c r =>
      by_cases good : ok c = true
      · rw [List.takeWhile_cons_of_pos good] at within ⊢
        rw [List.set_cons_succ,List.takeWhile_cons_of_pos good,ih (Nat.lt_of_succ_lt_succ within)]
        rfl
      · rw [List.takeWhile_cons_of_neg good] at within
        exact absurd within (Nat.not_lt_zero _)

theorem droppedFront (s : List Char) (ok : Char → Bool) :
    s.drop (s.takeWhile ok).length = s.dropWhile ok := by
  calc s.drop (s.takeWhile ok).length = (s.takeWhile ok ++
    s.dropWhile ok).drop (s.takeWhile ok).length := by rw [List.takeWhile_append_dropWhile]
    _ = s.dropWhile ok := List.drop_left

theorem tokenIs {s s' : Scan} (next : nextToken d s = (s',some w)) :
    w = ((textAt s.row s.at_).dropWhile (· == d)).takeWhile (· != d) ∧
      (textAt s.row s.at_).dropWhile (· == d) ≠ [] := by
  have front := (List.takeWhile_prefix (· == d) (l := textAt s.row s.at_)).length_le
  have text : textAt s.row (s.at_ + ((textAt s.row s.at_).takeWhile (· == d)).length) =
      (textAt s.row s.at_).dropWhile (· == d) := by
    rw [textAt,← List.drop_drop]
    exact (takenFurther front).trans (droppedFront _ _)
  simp only [nextToken,strtok,text] at next
  generalize s.at_ + ((textAt s.row s.at_).takeWhile (· == d)).length = start at text next
  generalize (textAt s.row s.at_).dropWhile (· == d) = t at text next ⊢
  have whole := List.prefix_iff_eq_take.mp (List.takeWhile_prefix (· != d) (l := t))
  by_cases none_ : t = []
  · rw [if_pos none_] at next
    cases next
  · rw [if_neg none_] at next
    refine ⟨?_,none_⟩
    by_cases cut : (t.takeWhile (· != d)).length < t.length
    · rw [if_pos cut] at next
      obtain ⟨_,same⟩ := Prod.mk.inj next
      have row : (s.row.set (start + (t.takeWhile (· != d)).length) '\x00').drop start =
          (s.row.drop start).set (t.takeWhile (· != d)).length '\x00' := by
        rw [List.drop_set,if_neg (by omega),Nat.add_sub_cancel_left]
      rw [← Option.some.inj same,textAt,row]
      refine Eq.trans ?_ whole.symm
      rw [← text] at cut ⊢
      exact @takenCut (· != '\x00') '\x00' _ _ (by simp) cut
    · rw [if_neg cut] at next
      obtain ⟨_,same⟩ := Prod.mk.inj next
      rw [← Option.some.inj same,text,whole]
      exact (List.take_of_length_le (Nat.le_of_not_lt cut)).symm

theorem tokenWord {s s' : Scan} (next : nextToken d s = (s',some w)) : w ≠ [] ∧ d ∉ w ∧
    '\x00' ∉ w := by
  obtain ⟨rfl,some_⟩ := tokenIs next
  have first := List.head?_dropWhile_not (· == d) (textAt s.row s.at_)
  have inside : ∀ c ∈ (textAt s.row s.at_).dropWhile (· == d), c ∈ textAt s.row s.at_ :=
    fun c member => (List.dropWhile_suffix _).subset member
  generalize (textAt s.row s.at_).dropWhile (· == d) = t at first some_ inside
  refine ⟨?_,fun member => ?_,fun member => ?_⟩
  · cases t with
    | nil => exact absurd rfl some_
    | cons c t =>
      rw [List.takeWhile_cons_of_pos (by simpa using first)]
      simp
  · simpa using List.mem_takeWhile_imp member
  · simpa using List.mem_takeWhile_imp (inside _ ((List.takeWhile_prefix _).subset member))

end

theorem tokenSkip {l : Row} {n : Nat} (text : textAt l p = List.replicate n ' ' ++ t)
    (behind : textAt l (p + n) = t) (plain : t.head? ≠ some ' ') :
    strtok l p ' ' = strtok l (p + n) ' ' := by
  have none_ : t.takeWhile (· == ' ') = [] := by
    cases t with
    | nil => rfl
    | cons c t => exact List.takeWhile_cons_of_neg (by simpa using plain)
  have length : ((List.replicate n ' ' ++ t).takeWhile (· == ' ')).length = n := by
    rw [List.takeWhile_append_of_pos (by simp),none_,List.append_nil,List.length_replicate]
  simp only [strtok,text,behind,length,none_,List.length_nil,Nat.add_zero]

/- The scan stands before this text, which ends where the row has a NUL. -/
structure At (s : Scan) (text : List Char) : Prop where
  solid : '\x00' ∉ text
  row : ∃ a z, s.row = a ++ (text ++ '\x00'::z) ∧ s.at_ = a.length

theorem headWord (some_ : w ≠ []) (whole : ' ' ∉ w)
    (s : List Char) : (w ++ s).head? ≠ some ' ' := by
  cases w with
  | nil => exact absurd rfl some_
  | cons c w => simpa using fun blank : c = ' ' => whole (blank ▸ List.mem_cons_self)

/- The next word, and what is left: the row has a NUL behind the word then. -/
inductive Gives (s : Scan) (a : Row) : List Char → List (List Char) → Prop where
  | none {n : Nat} (same : nextArg s = (s,none)) : Gives s a (List.replicate n ' ') []
  | some {n : Nat} {w more rest : List Char} {s' : Scan} (some_ : w ≠ []) (whole : ' ' ∉ w)
      (next : nextArg s = (s',some w)) (left : At s' rest)
      (behind : more = ' '::rest ∨ more = [] ∧ rest = [])
        (cut : ∃ z, s'.row = a ++ List.replicate n ' ' ++ w ++ '\x00'::z) :
        Gives s a (List.replicate n ' ' ++ (w ++ more)) (w::words rest)

theorem skipBlanks (a : Row) (n : Nat) (solid : '\x00' ∉ t) (plain : t.head? ≠ some ' ')
    (z : List Char) :
    strtok (a ++ ((List.replicate n ' ' ++ t) ++ '\x00'::z)) a.length ' ' =
      strtok ((a ++ List.replicate n ' ') ++ (t ++ '\x00'::z)) (a ++ List.replicate n ' ').length
        ' ' := by
  have row : a ++ ((List.replicate n ' ' ++ t) ++ '\x00'::z) = (a ++ List.replicate n ' ') ++
      (t ++ '\x00'::z) := by simp
  have length : (a ++ List.replicate n ' ').length = a.length + n := by simp
  have blanks : '\x00' ∉ List.replicate n ' ' ++ t := List.not_mem_append (by simp) solid
  have text := @textBehind (List.replicate n ' ' ++ t) z a blanks
  have behind := @textBehind t z (a ++ List.replicate n ' ') solid
  rw [row] at text ⊢
  rw [length] at behind ⊢
  exact tokenSkip text behind plain

theorem scanGives {a z : Row} (solid : '\x00' ∉ t) :
    Gives ⟨a ++ (t ++ '\x00'::z),a.length⟩ a t (words t) := by
  generalize same : words t = ws
  have case := opens t
  rw [same] at case
  have apart : ∀ {n : Nat} {w : List Char}, '\x00' ∉ List.replicate n ' ' ++ w → '\x00' ∉ w :=
    fun out inside => out (List.mem_append_right _ inside)
  cases case with
  | blank n =>
    refine .none ?_
    have skipped := @skipBlanks [] a n List.not_mem_nil (by simp) z
    rw [List.append_nil] at skipped
    rw [nextArg,nextToken,skipped,
      tokenNone (@textBehind [] z (a ++ List.replicate n ' ') List.not_mem_nil)]
    simp
  | @last n w some_ whole =>
    have skipped := skipBlanks a n (apart solid) (by simpa using headWord some_ whole []) z
    have token := tokenText (a ++ List.replicate n ' ') some_ (apart solid) whole z
    have next : nextArg ⟨a ++ ((List.replicate n ' ' ++ w) ++ '\x00'::z),a.length⟩ =
        (⟨(a ++ List.replicate n ' ') ++ (w ++ '\x00'::z),
          (a ++ List.replicate n ' ').length + w.length⟩,some w) := by
      rw [nextArg,nextToken,skipped,token]
      simp only [textBehind _ (apart solid)]
    have left : At ⟨(a ++ List.replicate n ' ') ++ (w ++ '\x00'::z),
        (a ++ List.replicate n ' ').length + w.length⟩ [] :=
      ⟨List.not_mem_nil,a ++ List.replicate n ' ' ++ w,z,by simp,by simp; omega⟩
    have given := @Gives.some ⟨a ++ ((List.replicate n ' ' ++ w) ++ '\x00'::z),a.length⟩ a n w [] []
        _ some_ whole next left (.inr ⟨rfl,rfl⟩) ⟨z,by simp⟩
    rwa [List.append_nil] at given
  | @more n w s some_ whole =>
    have solid' := apart solid
    have first : '\x00' ∉ w := fun inside => solid' (List.mem_append_left _ inside)
    have rest : '\x00' ∉ s :=
      fun inside => solid' (List.mem_append_right _ (List.mem_cons_of_mem _ inside))
    have skipped := skipBlanks a n solid' (headWord some_ whole _) z
    have token := tokenCut (a ++ List.replicate n ' ') some_ first whole (by decide) rest z
    have next : nextArg ⟨a ++ ((List.replicate n ' ' ++ (w ++ ' '::s)) ++ '\x00'::z),a.length⟩ =
        (⟨(a ++ List.replicate n ' ') ++ (w ++ '\x00'::(s ++ '\x00'::z)),
          (a ++ List.replicate n ' ').length + w.length + 1⟩,some w) := by
      rw [nextArg,nextToken,skipped,List.append_assoc w,List.cons_append,token]
      simp only [textBehind _ first]
    exact .some some_ whole next ⟨rest,a ++ List.replicate n ' ' ++ w ++ ['\x00'],z,by simp,
      by simp; omega⟩ (.inl rfl) ⟨s ++ '\x00'::z,by simp⟩

inductive Comes (s : Scan) : List (List Char) → Prop where
  | none (same : nextArg s = (s,none)) : Comes s []
  | some {w rest : List Char} {s' : Scan} (some_ : w ≠ []) (whole : ' ' ∉ w)
      (next : nextArg s = (s',some w)) (left : At s' rest) : Comes s (w::words rest)

theorem scanComes {s : Scan} (at_ : At s t) : Comes s (words t) := by
  obtain ⟨solid,a,z,row,place⟩ := at_
  obtain ⟨l,p⟩ := s
  dsimp only at row place
  subst row place
  have given := @scanGives t a z solid
  generalize words t = ws at given ⊢
  cases given with
  | none same => exact .none same
  | some some_ whole next left => exact .some some_ whole next left

theorem scanWords {s : Scan} (at_ : At s t) {k : Nat} (enough : (words t).length < k) :
    wordsLeft k s = words t := by
  induction k generalizing s t with
  | zero => exact absurd enough (Nat.not_lt_zero _)
  | succ k ih =>
    have comes := scanComes at_
    generalize words t = ws at comes enough ⊢
    cases comes with
    | none same => simp [wordsLeft,same]
    | @some w rest s' some_ whole next left =>
      simp only [wordsLeft,next]
      exact congrArg (w::·) (ih left (Nat.lt_of_succ_lt_succ enough))

theorem nextFirst {s : Scan} (some_ : w ≠ []) (whole : ' ' ∉ w) (at_ : At s (w ++ ' '::t)) :
    ∃ s', nextArg s = (s',some w) ∧ At s' t := by
  obtain ⟨solid,a,z,row,place⟩ := at_
  obtain ⟨l,p⟩ := s
  dsimp only at row place
  subst row place
  have first : '\x00' ∉ w := fun inside => solid (List.mem_append_left _ inside)
  have rest : '\x00' ∉ t :=
    fun inside => solid (List.mem_append_right _ (List.mem_cons_of_mem _ inside))
  have token := tokenCut a some_ first whole (by decide) rest z
  refine ⟨⟨a ++ (w ++ '\x00'::(t ++ '\x00'::z)),a.length + w.length + 1⟩,?_,rest,a ++ w ++ ['\x00'],
    z,by simp,by simp; omega⟩
  rw [nextArg,nextToken,List.append_assoc w,List.cons_append,token]
  simp only [textBehind _ first]

theorem nextWhole {s : Scan} {d : Char} (some_ : t ≠ []) (whole : d ∉ t) (at_ : At s t) :
    ∃ s', nextToken d s = (s',some t) := by
  obtain ⟨solid,a,z,row,place⟩ := at_
  obtain ⟨l,p⟩ := s
  dsimp only at row place
  subst row place
  refine ⟨⟨a ++ (t ++ '\x00'::z),a.length + t.length⟩,?_⟩
  rw [nextToken,tokenText a some_ solid whole z]
  simp only [textBehind _ solid]

theorem wordsSpaced {texts : List (List Char)} (first : w ≠ [] ∧ ' ' ∉ w)
    (rest : ∀ text ∈ texts, text ≠ [] ∧ ' ' ∉ text) :
    words (w ++ texts.flatMap (' '::·)) = w::texts := by
  induction texts generalizing w with
  | nil =>
    rw [List.flatMap_nil,List.append_nil]
    exact wordAlone first.1 first.2
  | cons text texts ih =>
    obtain ⟨next,more⟩ := List.forall_mem_cons.mp rest
    rw [List.flatMap_cons,List.cons_append,wordsApart,wordAlone first.1 first.2,ih next more]
    rfl

def leading (l : List Char) : Nat := (l.takeWhile (· == ' ')).length

theorem leadingIs (some_ : w ≠ []) (whole : ' ' ∉ w) (n : Nat)
    (s : List Char) : leading (List.replicate n ' ' ++ (w ++ s)) = n := by
  have none_ : (w ++ s).takeWhile (· == ' ') = [] := by
    cases w with
    | nil => exact absurd rfl some_
    | cons c w => exact List.takeWhile_cons_of_neg (by simpa using fun blank : c = ' ' => whole (blank ▸ List.mem_cons_self))
  rw [leading,List.takeWhile_append_of_pos (by simp),none_,List.append_nil,List.length_replicate]

theorem blankFront {n : Nat} (some_ : w ≠ []) (whole : ' ' ∉ w) :
    ((List.replicate n ' ' ++ w).takeWhile (· == ' ')).length = n := by
  have front := leadingIs some_ whole n []
  rwa [List.append_nil] at front

theorem textDrop (solid : '\x00' ∉ t) {p : Nat} (within : p ≤ t.length) (z : List Char) :
    textAt (t ++ '\x00'::z) p = t.drop p := by
  have split := List.take_append_drop p t
  have length : (t.take p).length = p := List.length_take_of_le within
  have behind := @textBehind (t.drop p) z (t.take p) fun inside =>
      solid (List.mem_of_mem_drop inside)
  rwa [length,← List.append_assoc,split] at behind

theorem argsDrop (some_ : w ≠ []) (whole : ' ' ∉ w) (solid : '\x00' ∉ w) (n : Nat) (z : List Char) :
    let args := w.length +
      ((textAt (List.replicate n ' ' ++ w ++ '\x00'::z) w.length).takeWhile (· == ' ')).length
    args ≤ (List.replicate n ' ' ++ w).length ∧
      (List.replicate n ' ' ++ w).drop args = w.drop (w.length - n) := by
  have solid' : '\x00' ∉ List.replicate n ' ' ++ w := List.not_mem_append (by simp) solid
  have length : (List.replicate n ' ' ++ w).length = n + w.length := by simp
  rw [textDrop solid' (by omega)]
  rcases Nat.le_total n w.length with short | long
  · -- no blank is left before the arguments
    have rest : (List.replicate n ' ' ++ w).drop w.length = w.drop (w.length - n) := by
      rw [List.drop_append,List.drop_of_length_le (by simpa using short),List.length_replicate,
        List.nil_append]
    have none_ : (w.drop (w.length - n)).takeWhile (· == ' ') = [] := by
      refine List.takeWhile_eq_nil_iff.mpr fun _ blank => whole ?_
      rw [← beq_iff_eq.mp blank]
      exact List.mem_of_mem_drop (List.getElem_mem _)
    rw [rest,none_,List.length_nil,Nat.add_zero]
    exact ⟨by omega,rest⟩
  · have rest : (List.replicate n ' ' ++ w).drop w.length = List.replicate (n - w.length) ' ' ++
      w := by
      rw [List.drop_append_of_le_length (by simpa using long),List.drop_replicate]
    have place : w.length + (n - w.length) = n := by omega
    have all : w.length - n = 0 := by omega
    rw [rest,blankFront some_ whole,place,all,List.drop_zero]
    refine ⟨by omega,?_⟩
    have front : (List.replicate n ' ').length = n := List.length_replicate
    rw [List.drop_append_of_le_length (by omega),List.drop_of_length_le (by omega),List.nil_append]

theorem wordsFew (s : List Char) : (words s).length ≤ s.length := by
  generalize same : words s = ws
  induction ws generalizing s with
  | nil => exact Nat.zero_le _
  | cons w ws ih =>
    have case := opens s
    rw [same] at case
    cases case with
    | last n some_ whole =>
      have long := List.length_pos_iff.mpr some_
      simp only [List.length_cons,List.length_nil,List.length_append,List.length_replicate]
      omega
    | more n rest some_ whole =>
      have later := ih rest rfl
      simp only [List.length_cons,List.length_append,List.length_replicate]
      omega

theorem commandBegins (l : List Char) (solid : '\x00' ∉ l) : match words l with
    | [] => beginCommand l = none
    | w::ws => ∃ s rest, beginCommand l = some (w,s) ∧ At s rest ∧
        words rest = (if leading l = 0 then ws else [w.drop (w.length - leading l)]) ∧
        (leading l = 0 → l = w ++ ' '::rest ∨ l = w ∧ rest = []) := by
  have given := @scanGives l [] [] solid
  generalize words l = ws at given ⊢
  cases given with
  | none next =>
    simp only [List.nil_append,List.length_nil] at next
    simp only [beginCommand,next]
  | @some n w more rest s' some_ whole next left behind cut =>
    obtain ⟨z,row⟩ := cut
    simp only [List.nil_append,List.length_nil] at next row
    have word : '\x00' ∉ w :=
      fun inside => solid (List.mem_append_right _ (List.mem_append_left _ inside))
    have drop := argsDrop some_ whole word n z
    simp only [beginCommand,next,row,leadingIs some_ whole n more]
    generalize w.length +
      ((textAt (List.replicate n ' ' ++ w ++ '\x00'::z) w.length).takeWhile (· == ' ')).length =
      args at drop
    have front : '\x00' ∉ List.replicate n ' ' ++ w := List.not_mem_append (by simp) word
    rw [textDrop front drop.1,drop.2]
    by_cases none_ : n = 0
    · have empty : w.drop (w.length - n) = [] := List.drop_of_length_le (by omega)
      rw [if_pos empty,if_pos none_]
      refine ⟨s',rest,rfl,left,rfl,fun _ => ?_⟩
      subst none_
      rcases behind with rfl | ⟨rfl,rfl⟩
      · exact .inl rfl
      · exact .inr ⟨List.append_nil w,rfl⟩
    · have some' : w.drop (w.length - n) ≠ [] := by
        have long := List.length_pos_iff.mpr some_
        rw [Ne,← List.length_eq_zero_iff,List.length_drop]
        omega
      have end_ : ' ' ∉ w.drop (w.length - n) := fun inside => whole (List.mem_of_mem_drop inside)
      rw [if_neg some',if_neg none_]
      refine ⟨_,w.drop (w.length - n),rfl,
        ⟨fun inside => word (List.mem_of_mem_drop inside),(List.replicate n ' ' ++ w).take args,z,
        ?_,?_⟩,wordAlone some' end_,fun zero => absurd zero none_⟩
      · rw [← drop.2,← List.append_assoc,List.take_append_drop]
      · exact (List.length_take_of_le drop.1).symm

/-- The handler of a command is given the words behind it if the line does not begin with a blank.
If it does, it is given one word instead, the end of the command itself, of as many characters as
there are blanks. -/
theorem commandRead (l : List Char) (solid : '\x00' ∉ l) : match words l with
    | [] => beginCommand l = none
    | w::ws => ∃ s, beginCommand l = some (w,s) ∧ ∀ k, l.length < k →
        wordsLeft k s = if leading l = 0 then ws else [w.drop (w.length - leading l)] := by
  have begins := commandBegins l solid
  have few := wordsFew l
  generalize words l = ws at begins few ⊢
  cases ws with
  | nil => exact begins
  | cons w ws =>
    obtain ⟨s,rest,began,left,these,_⟩ := begins
    refine ⟨s,began,fun k enough => ?_⟩
    rw [← these]
    refine scanWords left ?_
    rw [these]
    rw [List.length_cons] at few
    split
    · omega
    · rw [List.length_singleton]
      omega

theorem indentedRead : ∃ s, beginCommand "  trace printf".toList = some ("trace".toList,s) ∧
    ∀ k, 14 < k → wordsLeft k s = ["ce".toList] := commandRead "  trace printf".toList (by decide)

end

end ZeroTrace.CommandLine
