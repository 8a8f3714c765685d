import ZeroTrace.ReadTrace
import ZeroTrace.CText

/-! The walk over a printf format, and the characters it reads. A length modifier is looked for
with `strchr`, which also finds the NUL at the end of the format. -/
namespace ZeroTrace.FormatWalk
open ReadTrace CText

/- The NUL at the end of the searched string counts as one of its characters. -/
def strchr (s : List Char) (c : Char) : Bool := s.contains c || c == '\x00'

def flagChars : List Char := ['-','+',' ','#','0','\x27']
def lengthChars : List Char := ['h','l','j','z','t','L']

def isFlag (c : Char) : Bool := c != '\x00' && strchr flagChars c

/- What has been printed is of no account here, nor is how an argument is printed: nothing is
given back where the output is full. -/
structure Args where
  gpIndex : Nat
  fpIndex : Nat

abbrev AppendArg (σ : Type) := σ → Args → Char → Option (σ × Args)

inductive Walked where
  | stopped (at_ : Nat)
  | failed
  deriving DecidableEq, Repr

section
variable (fmt : Nat → Char)

def skipWhile (ok : Char → Bool) : Nat → Nat → Option (Traced Nat)
  | 0,_ => none
  | k+1,p => note [p] (if ok (fmt p) then skipWhile ok k (p + 1) else some (p,[]))

def skipStarOrDigits (k p argIndex : Nat) : Option (Traced (Nat × Nat)) :=
  note [p] (if fmt p = '*' then some ((p + 1,argIndex + 1),[])
    else andThen (skipWhile fmt (isDigitIn 10) k p) fun p => some ((p,argIndex),[]))

def skipFormatFlags (k p argIndex : Nat) : Option (Traced (Nat × Nat)) :=
  andThen (skipWhile fmt isFlag k p) fun p =>
    andThen (skipStarOrDigits fmt k p argIndex) fun (p,argIndex) =>
      note [p] (if fmt p = '.' then skipStarOrDigits fmt k (p + 1) argIndex
        else some ((p,argIndex),[]))

def skipFormatLength (p : Nat) : Traced Nat :=
  let ahead := if fmt p = 'h' ∨ fmt p = 'l' then [p,p + 1] else [p]
  if fmt p = 'h' ∧ fmt (p + 1) = 'h' ∨ fmt p = 'l' ∧ fmt (p + 1) = 'l' then (p + 2,ahead)
  else if strchr lengthChars (fmt p) then (p + 1,ahead)
  else (p,ahead)

variable {σ : Type} (appendArg : AppendArg σ)

def convert (next : Nat → σ → Args → Option (Traced Walked)) (p : Nat) (out : σ) (args : Args) :
    Option (Traced Walked) :=
  note [p] (if fmt p = '\x00' then some (.stopped p,[])
    else if fmt p = 'm' then next (p + 1) out args
    else match appendArg out args (fmt p) with
      | none => some (.failed,[])
      | some (out,args) => next (p + 1) out args)

def appendVariadicArgs : Nat → Nat → σ → Args → Option (Traced Walked)
  | 0,_,_,_ => none
  | k+1,p,out,args => note [p] (
    if fmt p = '\x00' then some (.stopped p,[])
    else if fmt p ≠ '%' then appendVariadicArgs k (p + 1) out args
    else note [p + 1] (
      if fmt (p + 1) = '%' then appendVariadicArgs k (p + 2) out args
      else andThen (skipFormatFlags fmt k (p + 1) args.gpIndex) fun (q,gpIndex) =>
        note (skipFormatLength fmt q).2
          (convert fmt appendArg (appendVariadicArgs k) (skipFormatLength fmt q).1 out ⟨gpIndex,
          args.fpIndex⟩)))

end

/-! The parts of a format, one character after the other. -/
inductive Part where
  | text | percent | flags | width | settled | precision | digits | done | double
      (c : Char) | conversion
  deriving DecidableEq, Repr

def isDouble (c : Char) : Bool := c == 'h' || c == 'l'

def Part.behind (c : Char) : Part :=
  if isDouble c then .double c else if lengthChars.contains c then .conversion else .text

def Part.flagged (c : Char) : Part :=
  if flagChars.contains c then .flags else if c == '*' then .settled else if isDigitIn 10 c then
    .width else if c == '.' then .precision else behind c

def Part.step (part : Part) (c : Char) : Part := match part with
  | .text => if c == '%' then .percent else .text
  | .percent => if c == '%' then .text else flagged c
  | .flags => flagged c
  | .width => if isDigitIn 10 c then .width else if c == '.' then .precision else behind c
  | .settled => if c == '.' then .precision else behind c
  | .precision => if c == '*' then .done else if isDigitIn 10 c then .digits else behind c
  | .digits => if isDigitIn 10 c then .digits else behind c
  | .done => behind c
  | .double d => if c == d then .conversion else .text
  | .conversion => .text

/- A conversion has begun, and neither its length modifier nor its character has come. -/
def Part.unfinished : Part → Bool
  | .text | .double _ | .conversion => false
  | _ => true

def cutFrom (part : Part) (s : List Char) : Bool := (s.foldl Part.step part).unfinished

def cutOff (s : List Char) : Bool := cutFrom .text s

/-! The walk leaves this part of the format behind, at this position. -/
def Holds (fmt : Nat → Char) (p : Nat) : List Char → Prop
  | [] => fmt p = '\x00'
  | c::s => fmt p = c ∧ c ≠ '\x00' ∧ Holds fmt (p + 1) s

def At (fmt : Nat → Char) (n p : Nat) (s : List Char) : Prop := Holds fmt p s ∧ p + s.length = n

variable {fmt : Nat → Char} {n p : Nat} {s : List Char}

theorem atNext {c : Char} (h : At fmt n p (c::s)) : fmt p = c ∧ c ≠ '\x00' ∧
    At fmt n (p + 1) s := by
  obtain ⟨⟨first,some_,rest⟩,length⟩ := h
  exact ⟨first,some_,rest,by rw [List.length_cons] at length; omega⟩

theorem atHere (h : At fmt n p s) : ∀ q ∈ [p], q ≤ n := by
  have := h.2
  intro q member
  rw [List.mem_singleton.mp member]
  omega

theorem atEnd (h : At fmt n p []) : fmt p = '\x00' ∧ p = n := ⟨h.1,by simpa using h.2⟩

theorem skipWhileAt {ok : Char → Bool} (stops : ok '\x00' = false) (h : At fmt n p s) (k : Nat) :
    Given (s.length < k) (· ≤ n) (skipWhile fmt ok k p) fun q => At fmt n q (s.dropWhile ok) := by
  induction k generalizing p s with
  | zero => exact .inr ⟨rfl,Nat.not_lt_zero _⟩
  | succ k ih =>
    refine givenNote (atHere h) ?_
    cases s with
    | nil =>
      rw [(atEnd h).1,if_neg (by simp [stops])]
      exact givenDone (by simp) h
    | cons c s =>
      obtain ⟨first,_,next⟩ := atNext h
      rw [first,List.dropWhile_cons]
      by_cases good : ok c = true
      · rw [if_pos good,if_pos good]
        exact givenMore (ih next) fun more => by rw [List.length_cons] at more; omega
      · rw [if_neg good,if_neg good]
        exact givenDone (by simp) h

def skipStar : List Char → List Char
  | '*'::s => s
  | s => s.dropWhile (isDigitIn 10)

theorem skipStarIs {c : Char}
    (other : c ≠ '*') : skipStar (c::s) = (c::s).dropWhile (isDigitIn 10) := by
  unfold skipStar
  split
  · next same => cases same; exact absurd rfl other
  · rfl

def starHere (s : List Char) : Nat := if s.head? = some '*' then 1 else 0

theorem skipStarAt (h : At fmt n p s) (k a : Nat) :
    Given (s.length < k) (· ≤ n) (skipStarOrDigits fmt k p a) fun x => At fmt n x.1 (skipStar s) ∧
      x.2 = a + starHere s := by
  refine givenNote (atHere h) ?_
  have digits : Given (s.length < k) (· ≤ n)
      (andThen (skipWhile fmt (isDigitIn 10) k p) fun p => some ((p,a),[])) fun x =>
      At fmt n x.1 (s.dropWhile (isDigitIn 10)) ∧ x.2 = a :=
    givenThen (skipWhileAt rfl h k) fun q at_ => givenDone (by simp) ⟨at_,rfl⟩
  cases s with
  | nil =>
    rw [(atEnd h).1,if_neg (by decide)]
    exact digits
  | cons c s =>
    obtain ⟨first,_,next⟩ := atNext h
    rw [first]
    by_cases star : c = '*'
    · subst star
      rw [if_pos rfl]
      exact givenDone (by simp) ⟨next,rfl⟩
    · have none_ : starHere (c::s) = 0 := if_neg fun head => star (Option.some.inj head)
      rw [if_neg star,skipStarIs star,none_]
      exact digits

def precisionRest : List Char → List Char
  | '.'::s => skipStar s
  | s => s

theorem precisionIs {c : Char} (other : c ≠ '.') : precisionRest (c::s) = c::s := by
  unfold precisionRest
  split
  · next same => cases same; exact absurd rfl other
  · rfl

def precisionStar : List Char → Nat
  | '.'::s => starHere s
  | _ => 0

theorem precisionNone {c : Char} (other : c ≠ '.') : precisionStar (c::s) = 0 := by
  unfold precisionStar
  split
  · next same => cases same; exact absurd rfl other
  · rfl

theorem precisionAt (h : At fmt n p s) (k a : Nat) : Given (s.length < k) (· ≤ n)
    (note [p] (if fmt p = '.' then skipStarOrDigits fmt k (p + 1) a else some ((p,a),[]))) fun x =>
      At fmt n x.1 (precisionRest s) ∧ x.2 = a + precisionStar s := by
  refine givenNote (atHere h) ?_
  cases s with
  | nil =>
    rw [(atEnd h).1,if_neg (by decide)]
    exact givenDone (by simp) ⟨h,rfl⟩
  | cons c s =>
    obtain ⟨first,_,next⟩ := atNext h
    rw [first]
    by_cases dot : c = '.'
    · subst dot
      rw [if_pos rfl]
      exact givenMore (skipStarAt next k a) fun more => by rw [List.length_cons] at more; omega
    · rw [if_neg dot,precisionIs dot,precisionNone dot]
      exact givenDone (by simp) ⟨h,rfl⟩

def flagsRest (s : List Char) : List Char := precisionRest (skipStar (s.dropWhile isFlag))

def starCount (s : List Char) : Nat :=
  starHere (s.dropWhile isFlag) + precisionStar (skipStar (s.dropWhile isFlag))

theorem starShorter : (skipStar s).length ≤ s.length := by
  unfold skipStar
  split
  · simp
  · exact (List.dropWhile_suffix _).length_le

theorem flagsAt (h : At fmt n p s) (k a : Nat) :
    Given (s.length < k) (· ≤ n) (skipFormatFlags fmt k p a) fun x => At fmt n x.1 (flagsRest s) ∧
      x.2 = a + starCount s := by
  have fewer := (List.dropWhile_suffix (l := s) isFlag).length_le
  have fewer' := starShorter (s := s.dropWhile isFlag)
  refine givenThen (skipWhileAt rfl h k) fun q flags => ?_
  refine givenThen (givenMore (skipStarAt flags k a) fun more => by omega)
    fun (r,b) ⟨width,star⟩ => ?_
  simp only at star
  rw [starCount,← Nat.add_assoc,← star]
  exact givenMore (precisionAt width k b) fun more => by omega

theorem cutCons (part : Part) (c : Char) : cutFrom part (c::s) = cutFrom (part.step c) s := rfl

theorem cutAlike {part part' : Part} (both : part.unfinished = part'.unfinished)
    (same : ∀ c, s.head? = some c → part.step c = part'.step c) :
    cutFrom part s = cutFrom part' s := by
  cases s with
  | nil => exact both
  | cons c s => rw [cutCons,cutCons,same c rfl]

theorem cutRun {ok : Char → Bool} {part part' : Part} (both : part.unfinished = part'.unfinished)
    (stays : ∀ c ∈ s, ok c = true → part.step c = part)
    (after : ∀ c ∈ s, ok c = false → part.step c = part'.step c) :
    cutFrom part s = cutFrom part' (s.dropWhile ok) := by
  induction s with
  | nil => exact both
  | cons c s ih =>
    rw [List.dropWhile_cons]
    cases good : ok c with
    | true =>
      rw [if_pos rfl,cutCons,stays c (.head _) good]
      exact ih (fun d member => stays d (.tail _ member)) fun d member => after d (.tail _ member)
    | false =>
      rw [if_neg (by simp)]
      refine cutAlike both fun d first => ?_
      cases first
      exact after c (.head _) good

theorem cutWidth : cutFrom .width s = cutFrom .settled (s.dropWhile (isDigitIn 10)) :=
  cutRun rfl (fun c _ digit => by simp only [Part.step,digit,if_true]) fun c _ other =>
    by simp [Part.step,other]

theorem cutDigits : cutFrom .digits s = cutFrom .done (s.dropWhile (isDigitIn 10)) :=
  cutRun rfl (fun c _ digit => by simp only [Part.step,digit,if_true]) fun c _ other =>
    by simp [Part.step,other]

theorem flagIs {c : Char} (some_ : c ≠ '\x00') : isFlag c = flagChars.contains c := by
  have nonzero : (c == '\x00') = false := beq_false_of_ne some_
  simp only [isFlag,strchr,bne,nonzero,Bool.or_false,Bool.not_false,Bool.true_and]

theorem cutFlags (solid : ∀ c ∈ s, c ≠ '\x00') :
    cutFrom .flags s = cutFrom .flags (s.dropWhile isFlag) := by
  refine cutRun rfl (fun c member flag => ?_) fun _ _ _ => rfl
  rw [flagIs (solid c member)] at flag
  simp only [Part.step,Part.flagged,flag,if_true]

theorem cutStar (solid : ∀ c ∈ s, c ≠ '\x00') (plain : ∀ c, s.head? = some c → isFlag c = false) :
    cutFrom .flags s = cutFrom .settled (skipStar s) := by
  cases s with
  | nil => rfl
  | cons c s =>
    have other : c ∉ flagChars := by
      have := (flagIs (solid c (.head _))).symm.trans (plain c rfl)
      simpa using this
    by_cases star : c = '*'
    · subst star
      rfl
    · rw [skipStarIs star,List.dropWhile_cons,cutCons]
      cases digit : isDigitIn 10 c with
      | true =>
        have width : Part.flags.step c = .width := by simp [Part.step,Part.flagged,other,star,digit]
        rw [width,if_pos rfl]
        exact cutWidth
      | false =>
        rw [if_neg (by simp),cutCons]
        simp [Part.step,Part.flagged,other,star,digit]

theorem cutPrecision : cutFrom .precision s = cutFrom .done (skipStar s) := by
  cases s with
  | nil => rfl
  | cons c s =>
    by_cases star : c = '*'
    · subst star
      rfl
    · rw [skipStarIs star,List.dropWhile_cons,cutCons]
      cases digit : isDigitIn 10 c with
      | true =>
        have width : Part.precision.step c = .digits := by simp [Part.step,star,digit]
        rw [width,if_pos rfl]
        exact cutDigits
      | false =>
        rw [if_neg (by simp),cutCons]
        simp [Part.step,star,digit]

theorem cutSettled : cutFrom .settled s = cutFrom .done (precisionRest s) := by
  cases s with
  | nil => rfl
  | cons c s =>
    by_cases dot : c = '.'
    · subst dot
      exact cutPrecision
    · rw [precisionIs dot,cutCons,cutCons]
      simp [Part.step,dot]

theorem solidOf (h : Holds fmt p s) : ∀ c ∈ s, c ≠ '\x00' := by
  induction s generalizing p with
  | nil => simp
  | cons c s ih =>
    intro d member
    rcases List.mem_cons.mp member with rfl | later
    · exact h.2.1
    · exact ih h.2.2 d later

theorem cutFlagsRest
    (solid : ∀ c ∈ s, c ≠ '\x00') : cutFrom .flags s = cutFrom .done (flagsRest s) := by
  have rest : ∀ c ∈ s.dropWhile isFlag, c ≠ '\x00' :=
    fun c member => solid c ((List.dropWhile_sublist _).subset member)
  rw [cutFlags solid,cutStar rest (fun c first => ?_),cutSettled]
  · rfl
  · have := List.head?_dropWhile_not isFlag s
    rw [first] at this
    simpa using this

def lengthRest : List Char → List Char
  | c::d::s => if isDouble c && d == c then s else if lengthChars.contains c then d::s else c::d::s
  | [c] => if lengthChars.contains c then [] else [c]
  | [] => []

theorem doubleListed {c : Char} (double : isDouble c = true) : lengthChars.contains c = true := by
  simp only [isDouble,Bool.or_eq_true,beq_iff_eq] at double
  rcases double with rfl | rfl <;> rfl

theorem cutLength {c : Char} : cutFrom .done (c::s) = cutFrom .conversion (lengthRest (c::s)) := by
  rw [cutCons]
  cases s with
  | nil =>
    simp only [lengthRest,Part.step,Part.behind]
    by_cases double : isDouble c = true
    · rw [if_pos double,if_pos (doubleListed double)]
      rfl
    · rw [if_neg double]
      split <;> rfl
  | cons d s =>
    simp only [lengthRest,Part.step,Part.behind]
    by_cases double : isDouble c = true
    · rw [if_pos double,cutCons,Part.step]
      by_cases same : (d == c) = true
      · rw [if_pos same,if_pos (by rw [double,same]; rfl)]
      · rw [if_neg same,if_neg (by rw [double,Bool.true_and]; exact same),
          if_pos (doubleListed double)]
        rfl
    · rw [if_neg double,if_neg (fun both => double (Bool.and_eq_true_iff.mp both).1)]
      split <;> rfl

theorem lengthEnd (h : At fmt n p []) : skipFormatLength fmt p = (p + 1,[p]) := by
  simp only [skipFormatLength,(atEnd h).1]
  rfl

theorem lengthAt {c : Char} (h : At fmt n p (c::s)) :
    At fmt n (skipFormatLength fmt p).1 (lengthRest (c::s)) ∧ ∀ q ∈ (skipFormatLength fmt p).2,
      q ≤ n := by
  obtain ⟨first,some_,next⟩ := atNext h
  have length := h.2
  rw [List.length_cons] at length
  have ahead : ∀ q ∈ (skipFormatLength fmt p).2, q ≤ n := by
    have reads : ∀ q ∈ (if fmt p = 'h' ∨ fmt p = 'l' then [p,p + 1] else [p]), q ≤ n := by
      intro q member
      split at member
      · simp only [List.mem_cons,List.not_mem_nil,or_false] at member
        omega
      · rw [List.mem_singleton.mp member]
        omega
    simp only [skipFormatLength]
    split
    · exact reads
    · split
      · exact reads
      · exact reads
  refine ⟨?_,ahead⟩
  have found : strchr lengthChars c = lengthChars.contains c := by
    have nonzero : (c == '\x00') = false := beq_false_of_ne some_
    rw [strchr,nonzero,Bool.or_false]
  have double : ∀ d, (c = 'h' ∧ d = 'h' ∨ c = 'l' ∧ d = 'l') ↔ (isDouble c && d == c) = true := by
    intro d
    simp only [isDouble,Bool.and_eq_true,Bool.or_eq_true,beq_iff_eq]
    constructor
    · rintro (⟨rfl,rfl⟩ | ⟨rfl,rfl⟩) <;> simp
    · rintro ⟨rfl | rfl,rfl⟩ <;> simp
  simp only [skipFormatLength,first,found,double]
  cases s with
  | nil =>
    have end_ : fmt (p + 1) = '\x00' := (atEnd next).1
    rw [end_,if_neg (fun both => some_ (beq_iff_eq.mp (Bool.and_eq_true_iff.mp both).2).symm),
      lengthRest]
    split
    · exact next
    · exact h
  | cons d s =>
    obtain ⟨second,_,after⟩ := atNext next
    rw [second,lengthRest]
    split
    · exact after
    · split
      · exact next
      · exact h

variable {σ : Type} {appendArg : AppendArg σ}

theorem convertGiven {next : Nat → σ → Args → Option (Traced Walked)} {enough : Prop} {out : σ}
    {args : Args} (h : At fmt n p s)
    (rest : ∀ c t out args, s = c::t → Given enough (· ≤ n) (next (p + 1) out args) fun w => w =
      .stopped n ∨ w = .failed) :
    Given enough (· ≤ n) (convert fmt appendArg next p out args) fun w => w = .stopped n ∨
      w = .failed := by
  refine givenNote (atHere h) ?_
  cases s with
  | nil =>
    obtain ⟨end_,rfl⟩ := atEnd h
    rw [if_pos end_]
    exact givenDone (by simp) (.inl rfl)
  | cons c t =>
    obtain ⟨first,some_,_⟩ := atNext h
    rw [first,if_neg some_]
    split
    · exact rest c t out args rfl
    · split
      · exact givenDone (by simp) (.inr rfl)
      · exact rest c t _ _ rfl

/- The format goes on behind this character, or behind two. -/
theorem cutPercent {c : Char}
    (other : c ≠ '%') : cutFrom .percent (c::s) = cutFrom .flags (c::s) := by
  rw [cutCons,cutCons]
  simp [Part.step,other]

theorem percentFlags (plain : ∀ c, s.head? = some c → c ≠ '%') :
    cutFrom .percent s = cutFrom .flags s := by
  cases s with
  | nil => rfl
  | cons c s => exact cutPercent (plain c rfl)

theorem restShorter : (lengthRest s).length ≤ s.length := by
  unfold lengthRest
  split
  · split
    · simp only [List.length_cons]; omega
    · split <;> simp
  · split <;> simp
  · simp

theorem flagsShorter : (flagsRest s).length ≤ s.length := by
  have fewer := (List.dropWhile_suffix (l := s) isFlag).length_le
  have fewer' := starShorter (s := s.dropWhile isFlag)
  have fewer'' : (precisionRest (skipStar (s.dropWhile isFlag))).length ≤
      (skipStar (s.dropWhile isFlag)).length := by
    unfold precisionRest
    split
    · next t whole =>
      have := starShorter (s := t)
      rw [whole,List.length_cons]
      omega
    · exact Nat.le_refl _
  exact fewer''.trans (fewer'.trans fewer)

theorem cutText {c : Char} (plain : c ≠ '%') : cutFrom .text (c::s) = cutFrom .text s := by
  rw [cutCons,Part.step,if_neg (by simpa using plain)]

theorem cutBegun (next : At fmt n p s) (other : fmt p ≠ '%') :
    cutFrom .text ('%'::s) = cutFrom .done (flagsRest s) := by
  have begun : cutFrom .text ('%'::s) = cutFrom .percent s := rfl
  rw [begun,percentFlags fun d head => ?_]
  · exact cutFlagsRest (solidOf next.1)
  · cases s with
    | nil => cases head
    | cons e t => cases head; exact (atNext next).1 ▸ other

theorem percentAgain (next : At fmt n p s) (again : fmt p = '%') :
    ∃ t, s = '%'::t ∧ At fmt n (p + 1) t := by
  cases s with
  | nil => rw [(atEnd next).1] at again; cases again
  | cons d t =>
    obtain ⟨second,_,after⟩ := atNext next
    exact ⟨t,by rw [← again,second],after⟩

theorem walkGiven (k : Nat) {out : σ} {args : Args} (h : At fmt n p s)
    (whole : cutFrom .text s = false) :
    Given (s.length < k) (· ≤ n) (appendVariadicArgs fmt appendArg k p out args) fun w =>
      w = .stopped n ∨ w = .failed := by
  induction k generalizing p s out args with
  | zero => exact .inr ⟨rfl,Nat.not_lt_zero _⟩
  | succ k ih =>
    refine givenNote (atHere h) ?_
    cases s with
    | nil =>
      obtain ⟨end_,rfl⟩ := atEnd h
      rw [if_pos end_]
      exact givenDone (by simp) (.inl rfl)
    | cons c s =>
      obtain ⟨first,some_,next⟩ := atNext h
      rw [first,if_neg some_]
      by_cases percent : c = '%'
      · subst percent
        rw [if_neg (by simp)]
        refine givenNote (atHere next) ?_
        by_cases again : fmt (p + 1) = '%'
        · rw [if_pos again]
          obtain ⟨t,rfl,after⟩ := percentAgain next again
          exact givenMore (ih after whole) fun more =>
            by simp only [List.length_cons] at more; omega
        · rw [if_neg again]
          have flags := (cutBegun next again).symm.trans whole
          have fewer := flagsShorter (s := s)
          refine givenThen (givenMore (flagsAt next k args.gpIndex)
            fun more => by rw [List.length_cons] at more; omega) fun (q,gp) ⟨at_,_⟩ => ?_
          cases rest : flagsRest s with
          | nil => rw [rest] at flags; cases flags
          | cons d t =>
            simp only [rest] at at_
            obtain ⟨modified,inside⟩ := lengthAt at_
            have less := restShorter (s := d::t)
            rw [rest,cutLength] at flags
            rw [rest] at fewer
            refine givenNote inside (convertGiven modified fun e u out args is => ?_)
            rw [is] at modified flags less
            exact givenMore (ih (atNext modified).2.2 flags) fun more =>
              by simp only [List.length_cons] at more fewer less; omega
      · rw [if_pos percent]
        exact givenMore (ih next ((cutText percent).symm.trans whole)) fun more =>
          by rw [List.length_cons] at more; omega

theorem convertReaches {next : Nat → σ → Args → Option (Traced Walked)} {c : Char} {q : Nat}
    {out : σ} {args : Args} (h : At fmt n p (c::s))
    (never : ∀ out args c, appendArg out args c ≠ none)
    (rest : ∀ out args, Reaches q (next (p + 1) out args)) :
    Reaches q (convert fmt appendArg next p out args) := by
  obtain ⟨first,some_,_⟩ := atNext h
  refine reachesBehind ?_
  rw [first,if_neg some_]
  split
  · exact rest out args
  · split
    · next full => exact absurd full (never _ _ _)
    · exact rest _ _

/- Behind a conversion that is cut off, the walk looks behind the NUL. -/
theorem walkReaches (k : Nat) {out : σ} {args : Args} (h : At fmt n p s)
    (cut : cutFrom .text s = true)
    (never : ∀ out args c, appendArg out args c ≠ none) :
    Reaches (n + 1) (appendVariadicArgs fmt appendArg k p out args) := by
  induction k generalizing p s out args with
  | zero => intro w reads ran; cases ran
  | succ k ih =>
    refine reachesBehind ?_
    cases s with
    | nil => cases cut
    | cons c s =>
      obtain ⟨first,some_,next⟩ := atNext h
      rw [first,if_neg some_]
      by_cases percent : c = '%'
      · subst percent
        rw [if_neg (by simp)]
        refine reachesBehind ?_
        by_cases again : fmt (p + 1) = '%'
        · rw [if_pos again]
          obtain ⟨t,rfl,after⟩ := percentAgain next again
          exact ih after cut
        · rw [if_neg again]
          have flags := (cutBegun next again).symm.trans cut
          refine reachesThen (flagsAt next k args.gpIndex) fun (q,gp) ⟨at_,_⟩ => ?_
          cases rest : flagsRest s with
          | nil =>
            simp only [rest] at at_
            have past : (skipFormatLength fmt q).1 = n + 1 := by rw [lengthEnd at_,(atEnd at_).2]
            exact reachesBehind (reachesNote (List.mem_singleton.mpr past.symm))
          | cons d t =>
            simp only [rest] at at_
            obtain ⟨modified,_⟩ := lengthAt at_
            rw [rest,cutLength] at flags
            refine reachesBehind ?_
            cases left : lengthRest (d::t) with
            | nil => rw [left] at flags; cases flags
            | cons e u =>
              rw [left] at flags modified
              exact convertReaches modified never fun out args => ih (atNext modified).2.2 flags
      · rw [if_pos percent]
        exact ih next ((cutText percent).symm.trans cut)

/- The walk ends at the NUL, or where the output is full, and has read nothing behind the NUL. -/
def Stays (fmt : Nat → Char) (n : Nat) (appendArg : AppendArg σ) (out : σ) (args : Args) : Prop :=
  ∃ k, Within (· ≤ n) (appendVariadicArgs fmt appendArg k 0 out args) fun w => w = .stopped n ∨
    w = .failed

/-- The walk over a format stays inside it, however its arguments are printed, exactly when the
format does not end in a conversion of which only flags, width and precision are there. -/
theorem walkStays (content : Holds fmt 0 s) :
    (∀ (σ : Type) (appendArg : AppendArg σ) (out : σ) (args : Args),
      Stays fmt s.length appendArg out args) ↔ cutOff s = false := by
  have start : At fmt s.length 0 s := ⟨content,Nat.zero_add _⟩
  constructor
  · intro all
    cases cut : cutOff s with
    | false => rfl
    | true =>
      obtain ⟨k,w,reads,ran,inside,_⟩ := all Unit (fun out args _ => some (out,args)) () ⟨0,0⟩
      have reached := walkReaches k start cut (fun _ _ _ => by simp) w reads ran
      exact absurd (inside _ reached) (Nat.not_succ_le_self _)
  · intro whole σ appendArg out args
    refine ⟨s.length + 1,?_⟩
    rcases walkGiven (s.length + 1) start whole with comes | ⟨_,few⟩
    · exact comes
    · exact absurd (Nat.lt_succ_self _) few

def stored (s : List Char) : Nat → Char := fun i => (s[i]?).getD '\x00'

theorem doubleWalkStays :
    Holds (stored ['%','5','.','*','l','d','%','%']) 0 ['%','5','.','*','l','d','%','%'] ∧
    ∀ (σ : Type) (appendArg : AppendArg σ) (out : σ) (args : Args),
      Stays (stored ['%','5','.','*','l','d','%','%']) 8 appendArg out args := by
  have content : Holds (stored ['%','5','.','*','l','d','%','%']) 0
      ['%','5','.','*','l','d','%','%'] := by
    repeat first | exact rfl | refine ⟨rfl,by decide,?_⟩
  exact ⟨content,(walkStays content).mpr rfl⟩

theorem percentLeaves : Holds (stored ['%']) 0 ['%'] ∧
    ¬ Stays (stored ['%']) 1 (fun (out : Unit) args _ => some (out,args)) () ⟨0,0⟩ := by
  have content : Holds (stored ['%']) 0 ['%'] := ⟨rfl,by decide,rfl⟩
  refine ⟨content,?_⟩
  rintro ⟨k,w,reads,ran,inside,_⟩
  have reached := walkReaches (n := 1) k ⟨content,rfl⟩ rfl (fun _ _ _ => by simp) w reads ran
  exact absurd (inside _ reached) (by decide)

end ZeroTrace.FormatWalk
