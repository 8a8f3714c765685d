import Mathlib.Algebra.Group.Nat.Defs
import ZeroTrace.Backtracking
import ZeroTrace.TraceBuffer

/-! The head of a log line as the tracer prints it, and the script that merges logs by the
time stamp it finds there. One is a printf format, the other a regular expression. -/
namespace ZeroTrace.LogMerge
open Backtracking TraceBuffer

/- `%d` and `%llu`; `%0nllu` and `%nllu` fill up to the width on the left. -/
def decimal (n : Nat) : List Char := Nat.toDigits 10 n

def signedDecimal : Int → List Char
  | .ofNat n => decimal n
  | .negSucc n => '-'::decimal (n + 1)

def filled (fill : Char) (width n : Nat) : List Char := (decimal n).leftpad width fill

inductive Kind where
  | entry
  | ret
  | call
  | event
  deriving DecidableEq, Repr

def Kind.text : Kind → List Char
  | .entry => "entry".toList
  | .ret => "return".toList
  | .call => "call".toList
  | .event => "event".toList

def nsecPerSec : Nat := 1000000000
def nsecFractionWidth : Nat := 9

def printEventPrefix (comm : List Char) (pid : Int) (event : Event) (kind : Kind) : List Char :=
  comm ++ "-".toList ++ signedDecimal pid ++ "/".toList ++ decimal (event.field .tid) ++
    " [".toList ++ filled '0' 3 (event.field .cpuId) ++ "] ".toList ++
    filled ' ' 5 (event.field .timestampNs / nsecPerSec) ++ ".".toList ++
      filled '0' 9 (event.field .timestampNs % nsecPerSec) ++
    ": ztrace:".toList ++ kind.text ++ ": ".toList

/- The character classes of the script's interpreter. They know all of Unicode; what they say
about ASCII is all that the lines need. -/
structure Unicode where
  digit : Char → Bool
  value : Char → Nat
  space : Char → Bool
  digitAscii : ∀ c, c.val < 128 → digit c = c.isDigit
  valueAscii : ∀ c, c.isDigit → value c = c.toNat - '0'.toNat
  spaceAscii : ∀ c, c.val < 128 →
    space c = (c == ' ' || ('\t' ≤ c && c ≤ '\r') || (0x1c ≤ c.val && c.val ≤ 0x1f))

def dot (c : Char) : Bool := c != '\n'

def timestamp (u : Unicode) : Pattern :=
  .seq (.many u.digit 1 true) (.seq (.one (· == '.')) (.many u.digit 1 true))
def flags (u : Unicode) : Pattern :=
  .seq (.many (fun c => !u.space c) 1 true) (.many u.space 1 true)

def traceLineRe (u : Unicode) : Pattern :=
  .seq .start (.seq (.many dot 0 false)
    (.seq (.one (· == '[')) (.seq (.many u.digit 1 true) (.seq (.one (· == ']'))
    (.seq (.many u.space 1 true)
      (.seq (.maybe (flags u))
        (.seq (.group (timestamp u)) (.seq (.one (· == ':')) (.seq (.many dot 0 true) .stop)))))))))

inductive Raised where
  | valueError
  deriving DecidableEq, Repr

/- The interpreter's limit on the digits it turns into a number. -/
def intMaxStrDigits : Nat := 4300

/- `int` of what a `\d+` or the fraction can hold. -/
def int (u : Unicode) (text : List Char) : Except Raised Nat :=
  if text ≠ [] ∧ text.all u.digit ∧ text.length ≤ intMaxStrDigits then
    .ok (text.foldl (fun n c => 10 * n + u.value c) 0)
  else .error .valueError

def splitDot (value : List Char) : Except Raised (List Char × List Char) :=
  match value.dropWhile (· != '.') with
  | [] => .error .valueError
  | _::fraction => .ok (value.takeWhile (· != '.'),fraction)

def timestampToNs (u : Unicode) (value : List Char) : Except Raised Nat := do
  let parts ← splitDot value
  let fraction := (parts.2 ++ List.replicate nsecFractionWidth '0').take nsecFractionWidth
  let seconds ← int u parts.1
  let nanos ← int u fraction
  return seconds * nsecPerSec + nanos

def parseTraceLine (u : Unicode) (line : List Char) : Except Raised (Option Nat) :=
  match search (traceLineRe u) line with
  | none => .ok none
  | some found => match found.groups with
    | [] => .ok none
    | text::_ => (timestampToNs u text).map some

theorem decimalDigits (n : Nat) {c : Char} (member : c ∈ decimal n) : c.isDigit = true :=
  Nat.isDigit_of_mem_toDigits (by decide) (by decide) member

theorem filledDigits (width n : Nat) {c : Char}
    (member : c ∈ filled '0' width n) : c.isDigit = true := by
  rcases List.mem_append.mp member with pad | digit
  · rw [(List.mem_replicate.mp pad).2]
    rfl
  · exact decimalDigits n digit

theorem filledLength (n : Nat) : 1 ≤ (filled '0' 3 n).length := by
  simp only [filled,List.leftpad,List.length_append,List.length_replicate]
  have := @Nat.length_toDigits_pos 10 n
  simp only [decimal]
  omega

theorem nanosLength {n : Nat} (small : n < nsecPerSec) : (filled '0' 9 n).length = 9 := by
  have short : (decimal n).length ≤ 9 :=
    (Nat.length_toDigits_le_iff (by decide) (by decide)).mpr small
  simp only [filled,List.leftpad,List.length_append,List.length_replicate]
  omega

theorem digitAsciiVal {c : Char} (digit : c.isDigit = true) : c.val < 128 := by
  simp only [Char.isDigit,Bool.and_eq_true,decide_eq_true_eq] at digit
  exact Nat.lt_of_le_of_lt digit.2 (by decide)

variable (u : Unicode)

theorem digitOf {c : Char} (digit : c.isDigit = true) : u.digit c = true := by
  rw [u.digitAscii c (digitAsciiVal digit),digit]

theorem foldValue {text : List Char} (digits : ∀ c ∈ text, c.isDigit = true) (n : Nat) :
    text.foldl (fun n c => 10 * n + u.value c) n = Nat.ofDigitChars 10 text n := by
  induction text generalizing n with
  | nil => rfl
  | cons c more ih =>
    rw [List.foldl_cons,Nat.ofDigitChars_cons,u.valueAscii c (digits c (by simp))]
    exact ih (fun d member => digits d (by simp [member])) _

theorem intDigits {text : List Char} (some_ : text ≠ []) (digits : ∀ c ∈ text, c.isDigit = true)
    (short : text.length ≤ intMaxStrDigits) : int u text = .ok (Nat.ofDigitChars 10 text 0) := by
  have all : text.all u.digit = true := List.all_eq_true.mpr fun c member =>
      digitOf u (digits c member)
  rw [int,if_pos ⟨some_,all,short⟩,foldValue u digits]

theorem decimalShort {n : Nat} (word : n < 2^64) : (decimal n).length ≤ intMaxStrDigits := by
  have digits : (decimal n).length ≤ 20 :=
    (Nat.length_toDigits_le_iff (by decide) (by decide)).mpr (by omega)
  exact Nat.le_trans digits (by decide)

theorem intDecimal {n : Nat} (word : n < 2^64) : int u (decimal n) = .ok n := by
  have some_ : decimal n ≠ [] := Nat.toDigits_ne_nil
  rw [intDigits u some_ (fun c => decimalDigits n) (decimalShort word),decimal,
    Nat.ofDigitChars_ten_toDigits]

theorem intFilled {n : Nat} (small : n < nsecPerSec) : int u (filled '0' 9 n) = .ok n := by
  have some_ : filled '0' 9 n ≠ [] := fun empty => by simpa [empty] using nanosLength small
  have short : (filled '0' 9 n).length ≤ intMaxStrDigits := by rw [nanosLength small]; decide
  rw [intDigits u some_ (fun c => filledDigits 9 n) short,filled,List.leftpad,
    Nat.ofDigitChars_append,Nat.ofDigitChars_replicate_zero,Nat.mul_zero,
    decimal,Nat.ofDigitChars_ten_toDigits]

def stamp (ns : Nat) : List Char := decimal (ns / nsecPerSec) ++ '.'::filled '0' 9 (ns % nsecPerSec)

theorem noDot {c : Char} (digit : c.isDigit = true) : (c != '.') = true := by
  refine bne_iff_ne.mpr fun same => ?_
  subst same
  exact absurd digit (by decide)

theorem splitStamp (ns : Nat) :
    splitDot (stamp ns) = .ok (decimal (ns / nsecPerSec),filled '0' 9 (ns % nsecPerSec)) := by
  have digits : ∀ c ∈ decimal (ns / nsecPerSec), (c != '.') = true :=
    fun c member => noDot (decimalDigits _ member)
  simp only [splitDot,stamp]
  rw [List.dropWhile_append_of_pos digits,List.takeWhile_append_of_pos digits]
  simp

theorem stampValue {ns : Nat} (word : ns < 2^64) : timestampToNs u (stamp ns) = .ok ns := by
  have seconds : ns / nsecPerSec < 2^64 := Nat.lt_of_le_of_lt (Nat.div_le_self _ _) word
  have small : ns % nsecPerSec < nsecPerSec := Nat.mod_lt _ (by decide)
  have fraction : (filled '0' 9 (ns % nsecPerSec) ++ List.replicate nsecFractionWidth '0').take
      nsecFractionWidth = filled '0' 9 (ns % nsecPerSec) := by
    rw [List.take_append_of_le_length (by rw [nanosLength small]; decide),
      List.take_of_length_le (by rw [nanosLength small]; decide)]
  simp only [timestampToNs,splitStamp,bind,Except.bind,fraction,intDecimal u seconds,
    intFilled u small,pure,Except.pure]
  rw [Nat.mul_comm,Nat.div_add_mod]

theorem notDigit {c : Char} (ascii : c.val < 128) (other : c.isDigit = false) (more : List Char) :
    Ends u.digit (c::more) :=
  endsCons (by rw [u.digitAscii _ ascii,other])

theorem digitNoSpace {c : Char} (digit : c.isDigit = true) : u.space c = false := by
  rw [u.spaceAscii c (digitAsciiVal digit)]
  simp only [Char.isDigit,Bool.and_eq_true,decide_eq_true_eq] at digit
  have low : 48 ≤ c.val.toNat := digit.1
  simp only [Bool.or_eq_false_iff,Bool.and_eq_false_iff,beq_eq_false_iff_ne,decide_eq_false_iff_not,
    Char.le_def,UInt32.le_iff_toNat_le]
  refine ⟨⟨fun same => ?_,.inr fun high => ?_⟩,.inr fun high => ?_⟩
  · rw [same] at low
    exact absurd low (by decide)
  · exact absurd (Nat.le_trans low high) (by decide)
  · exact absurd (Nat.le_trans low high) (by decide)

theorem stampMatched (pos ns : Nat) {tail : List Char} (ends : Ends u.digit tail) :
    (results (.group (timestamp u)) pos (stamp ns ++ tail)).head? =
      some ⟨pos + (stamp ns).length,tail,[stamp ns]⟩ := by
  have small : ns % nsecPerSec < nsecPerSec := Nat.mod_lt _ (by decide)
  have seconds : (results (.many u.digit 1 true) pos
      (decimal (ns / nsecPerSec) ++ '.'::(filled '0' 9 (ns % nsecPerSec) ++ tail))).head? =
      some _ :=
    manyFirst (fun c member => digitOf u (decimalDigits _ member)) (notDigit u (by decide) rfl _)
      Nat.length_toDigits_pos
  have nanos : ∀ at_,
      (results (.many u.digit 1 true) at_ (filled '0' 9 (ns % nsecPerSec) ++ tail)).head? =
      some _ := fun at_ =>
    manyFirst (fun c member => digitOf u (filledDigits 9 _ member)) ends
      (by rw [nanosLength small]; decide)
  have point : ∀ at_,
      (results (.one (· == '.')) at_ ('.'::(filled '0' 9 (ns % nsecPerSec) ++ tail))).head? =
      some _ := fun at_ =>
    congrArg List.head? (oneMatches rfl)
  have whole := groupFirst (seqFirst seconds (seqFirst (point _) (nanos _)))
  have shape : stamp ns ++ tail = decimal (ns / nsecPerSec) ++
      '.'::(filled '0' 9 (ns % nsecPerSec) ++ tail) := by simp [stamp]
  have length : (stamp ns).length = (decimal (ns / nsecPerSec)).length + 1 +
      (filled '0' 9 (ns % nsecPerSec)).length := by
    simp only [stamp,List.length_append,List.length_cons]
    omega
  rw [timestamp,shape,whole,length]
  simp only [Found.andThen,List.append_nil,Option.some.injEq,Found.mk.injEq,List.cons.injEq,
    and_true,true_and]
  refine ⟨by omega,?_⟩
  rw [← shape,show pos + (decimal (ns / nsecPerSec)).length + 1 +
    (filled '0' 9 (ns % nsecPerSec)).length - pos = (stamp ns).length by omega,
    List.take_left]

def afterSpaces : Pattern :=
  .seq (.group (timestamp u)) (.seq (.one (· == ':')) (.seq (.many dot 0 true) .stop))

theorem dotEnds : Ends dot [] := fun c more same => absurd same (by simp)

theorem restMatched (pos ns : Nat) {tail : List Char} (inLine : ∀ c ∈ tail, dot c = true) :
    ∃ last, (results (afterSpaces u) pos (stamp ns ++ ':'::tail)).head? =
      some ⟨last,[],[stamp ns]⟩ := by
  have line : ∀ at_, (results (.many dot 0 true) at_ tail).head? = some ⟨at_ + tail.length,[],[]⟩ :=
    fun at_ => by
    have whole := @manyFirst dot at_ 0 [] tail inLine dotEnds (Nat.zero_le _)
    rwa [List.append_nil] at whole
  have stop : ∀ at_, (results .stop at_ []).head? = some ⟨at_,[],[]⟩ := fun at_ => rfl
  have colon : ∀ at_, (results (.one (· == ':')) at_ (':'::tail)).head? = some _ :=
    fun at_ => congrArg List.head? (oneMatches rfl)
  exact ⟨_,seqFirst (stampMatched u pos ns (notDigit u (by decide) rfl tail))
    (seqFirst (colon _) (seqFirst (line _) (stop _)))⟩

theorem stampNoSpace (ns : Nat) {c : Char}
    (inside : c ∈ stamp ns ++ [':']) : u.space c = false := by
  simp only [stamp,List.append_assoc,List.cons_append,List.mem_append,List.mem_cons,
    List.not_mem_nil,or_false] at inside
  rcases inside with digit | rfl | digit | rfl
  · exact digitNoSpace u (decimalDigits _ digit)
  · rw [u.spaceAscii _ (by decide)]
    decide
  · exact digitNoSpace u (filledDigits 9 _ digit)
  · rw [u.spaceAscii _ (by decide)]
    decide

/- The optional field could only be the time stamp itself, and no digit follows then. -/
theorem flagsNowhere (pos ns : Nat) (more : List Char) {f : Found}
    (member : f ∈ results (flags u) pos (stamp ns ++ ':':: ' ':: 'z'::more)) :
    results (afterSpaces u) f.pos f.rest = [] := by
  have blank : u.space ' ' = true := by rw [u.spaceAscii _ (by decide)]; decide
  have letter : u.space 'z' = false := by rw [u.spaceAscii _ (by decide)]; decide
  have shape : stamp ns ++ ':':: ' ':: 'z'::more = (stamp ns ++ [':']) ++ ' ':: 'z'::more := by simp
  rw [flags,shape] at member
  have after : f.rest = 'z'::more :=
    twoRunsEnd (fun c inside => by simp [stampNoSpace u ns inside])
      (fun c inside => stampNoSpace u ns inside) (by simp [blank]) blank
      (endsCons letter) member
  have noStamp : results (timestamp u) f.pos ('z'::more) = [] := by
    refine seqNothing fun x inside => ?_
    rw [manyNone (notDigit u (by decide) rfl more) (by decide)] at inside
    exact absurd inside List.not_mem_nil
  refine seqNothing fun x inside => ?_
  rw [after,results,noStamp] at inside
  exact absurd inside List.not_mem_nil

theorem fieldsMatched (pos cpu ns : Nat) {more : List Char} (inLine : ∀ c ∈ more, dot c = true) :
    ∃ last, (results (.seq (.one (· == '['))
      (.seq (.many u.digit 1 true) (.seq (.one (· == ']')) (.seq (.many u.space 1 true)
        (.seq (.maybe (flags u)) (afterSpaces u)))))) pos
      ('['::(filled '0' 3 cpu ++
        ']'::(' '::List.replicate (5 - (decimal (ns / nsecPerSec)).length) ' ' ++
        (stamp ns ++ ':':: ' ':: 'z'::more))))).head? =
      some ⟨last,[],[stamp ns]⟩ := by
  have blank : u.space ' ' = true := by rw [u.spaceAscii _ (by decide)]; decide
  have openBracket : ∀ at_ rest, (results (.one (· == '[')) at_ ('['::rest)).head? = some _ :=
    fun at_ rest => congrArg List.head? (oneMatches rfl)
  have closeBracket : ∀ at_ rest, (results (.one (· == ']')) at_ (']'::rest)).head? = some _ :=
    fun at_ rest => congrArg List.head? (oneMatches rfl)
  have processor : ∀ at_ rest,
      (results (.many u.digit 1 true) at_ (filled '0' 3 cpu ++ ']'::rest)).head? = some _ :=
      fun at_ rest =>
    manyFirst (fun c member => digitOf u (filledDigits 3 _ member)) (notDigit u (by decide) rfl _)
      (filledLength cpu)
  have stampStarts : Ends u.space (stamp ns ++ ':':: ' ':: 'z'::more) := by
    rcases digits : decimal (ns / nsecPerSec) with - | ⟨d,rest⟩
    · exact absurd digits Nat.toDigits_ne_nil
    · have digit : d.isDigit = true := decimalDigits (ns / nsecPerSec) (by rw [digits]; simp)
      rw [stamp,digits]
      exact endsCons (digitNoSpace u digit)
  have blanks : ∀ at_, (results (.many u.space 1 true) at_
      (' '::List.replicate (5 - (decimal (ns / nsecPerSec)).length) ' ' ++
        (stamp ns ++ ':':: ' ':: 'z'::more))).head? = some _ := fun at_ => by
    refine manyFirst (fun c member => ?_) stampStarts (by simp)
    rcases List.mem_cons.mp member with rfl | pad
    · exact blank
    · rw [(List.mem_replicate.mp pad).2]
      exact blank
  have inTail : ∀ c ∈ ' ':: 'z'::more, dot c = true := by simpa [dot] using inLine
  obtain ⟨last,matched⟩ :=
    restMatched u (pos + 1 + (filled '0' 3 cpu).length + 1 +
    (5 - (decimal (ns / nsecPerSec)).length + 1)) ns inTail
  exact ⟨last,seqFirst (openBracket _ _)
    (seqFirst (processor _ _) (seqFirst (closeBracket _ _) (seqFirst (blanks _)
    (maybeSkipped (fun f member => flagsNowhere u _ ns more member) (by simpa using matched)))))⟩

def lineHead (comm : List Char) (pid : Int) (tid : Nat) : List Char :=
  comm ++ '-'::(signedDecimal pid ++ '/'::(decimal tid ++ [' ']))

def plain (c : Char) : Prop := c ≠ '[' ∧ c ≠ '\n'

theorem plainDigit {c : Char} (digit : c.isDigit = true) : plain c := by
  refine ⟨?_,?_⟩ <;> rintro rfl <;> exact absurd digit (by decide)

theorem plainSigned (pid : Int) {c : Char} (member : c ∈ signedDecimal pid) : plain c := by
  cases pid with
  | ofNat n => exact plainDigit (decimalDigits n member)
  | negSucc n =>
    rcases List.mem_cons.mp member with rfl | digit
    · exact ⟨by decide,by decide⟩
    · exact plainDigit (decimalDigits (n + 1) digit)

theorem plainHead {comm : List Char} (pid : Int) (tid : Nat) (commPlain : ∀ c ∈ comm, plain c)
    {c : Char} (member : c ∈ lineHead comm pid tid) :
    plain c := by
  simp only [lineHead,List.mem_append,List.mem_cons,List.not_mem_nil,or_false] at member
  rcases member with name | rfl | digit | rfl | digit | rfl
  · exact commPlain c name
  · exact ⟨by decide,by decide⟩
  · exact plainSigned pid digit
  · exact ⟨by decide,by decide⟩
  · exact plainDigit (decimalDigits tid digit)
  · exact ⟨by decide,by decide⟩

theorem kindInLine (kind : Kind) {c : Char} (member : c ∈ kind.text) : dot c = true := by
  have all : kind.text.all dot = true := by cases kind <;> decide
  exact List.all_eq_true.mp all c member

theorem printedShape (comm text : List Char) (pid : Int) (event : Event) (kind : Kind) :
    printEventPrefix comm pid event kind ++ text = lineHead comm pid (event.field .tid) ++
      '['::(filled '0' 3 (event.field .cpuId) ++
      ']'::(' '::List.replicate (5 - (decimal (event.field .timestampNs / nsecPerSec)).length)
        ' ' ++ (stamp (event.field .timestampNs) ++
        ':':: ' ':: 'z'::("trace:".toList ++ kind.text ++ ": ".toList ++ text)))) := by
  simp [printEventPrefix,lineHead,stamp,filled,List.leftpad]

theorem lineSearched {comm text : List Char} (pid : Int) (event : Event) (kind : Kind)
    (commPlain : ∀ c ∈ comm, plain c) (inLine : '\n' ∉ text) :
    ∃ last, search (traceLineRe u) (printEventPrefix comm pid event kind ++ text) =
      some ⟨last,[],[stamp (event.field .timestampNs)]⟩ := by
  have tailInLine : ∀ c ∈ "trace:".toList ++ kind.text ++ ": ".toList ++ text, dot c = true := by
    intro c member
    simp only [List.mem_append] at member
    rcases member with ((word | kindText) | colon) | words
    · exact List.all_eq_true.mp (by decide) c word
    · exact kindInLine kind kindText
    · exact List.all_eq_true.mp (by decide) c colon
    · exact bne_iff_ne.mpr fun newline => inLine (newline ▸ words)
  obtain ⟨last,matched⟩ :=
    fieldsMatched u (0 + (lineHead comm pid (event.field .tid)).length) (event.field .cpuId)
    (event.field .timestampNs) tailInLine
  have headInLine : ∀ c ∈ lineHead comm pid (event.field .tid), dot c = true := fun c member =>
    bne_iff_ne.mpr (plainHead pid _ commPlain member).2
  refine ⟨last,?_⟩
  rw [printedShape,search,traceLineRe,
    @seqFirst .start _ 0 _ ⟨0,_,[]⟩ ⟨last,[],[stamp (event.field .timestampNs)]⟩ rfl]
  · rfl
  · -- no bracket before the processor, so the lazy part stops exactly there
    refine manyLazy headInLine (fun x member at_ more => ?_) matched
    have other : (x == '[') = false := beq_eq_false_iff_ne.mpr (plainHead pid _ commPlain member).1
    refine seqNothing fun f inside => ?_
    rw [oneFails (p := (· == '[')) other] at inside
    exact absurd inside List.not_mem_nil

theorem printedStampParsed (comm text : List Char) (pid : Int) (event : Event) (kind : Kind)
    (word : event.field .timestampNs < 2^64) (commPlain : ∀ c ∈ comm, c ≠ '[' ∧ c ≠ '\n')
    (inLine : '\n' ∉ text) :
    (search (traceLineRe u) (printEventPrefix comm pid event kind ++ text)).isSome = true ∧
      parseTraceLine u (printEventPrefix comm pid event kind ++ text) =
        .ok (some (event.field .timestampNs)) := by
  obtain ⟨last,found⟩ := lineSearched u pid event kind commPlain inLine
  refine ⟨by rw [found]; rfl,?_⟩
  simp only [parseTraceLine,found]
  rw [stampValue u word]
  rfl

/- The seconds that the script takes for the line's are too long a number. -/
def TooLong (line : List Char) : Prop :=
  ∃ found seconds fraction, search (traceLineRe u) line = some found ∧
  found.groups = [seconds ++ '.'::fraction] ∧ (∀ c ∈ seconds, u.digit c = true) ∧
    intMaxStrDigits < seconds.length

theorem stampGroup {pos : Nat} {rest : List Char} {f : Found}
    (member : f ∈ results (.group (timestamp u)) pos rest) :
    ∃ seconds fraction, f.groups = [seconds ++ '.'::fraction] ∧ seconds ≠ [] ∧
      (∀ c ∈ seconds, u.digit c = true) ∧ ∀ c ∈ fraction, u.digit c = true := by
  obtain ⟨g,inside,rfl⟩ := List.mem_map.mp member
  obtain ⟨first,tail,run,later,rfl⟩ := seqMember inside
  obtain ⟨point,last,dotted,run',rfl⟩ := seqMember later
  obtain ⟨seconds,text,place,none_,long,digits⟩ := manyText run
  obtain ⟨c,text',place',none',isDot⟩ := oneText dotted
  obtain ⟨fraction,text'',place'',none'',_,digits'⟩ := manyText run'
  have point_ : c = '.' := by simpa using isDot
  have whole : rest = (seconds ++ '.'::fraction) ++ last.rest := by
    rw [text,text',text'',point_]
    simp
  have count : last.pos - pos = (seconds ++ '.'::fraction).length := by
    simp only [List.length_append,List.length_cons]
    omega
  refine ⟨seconds,fraction,?_,List.ne_nil_of_length_pos long,digits,digits'⟩
  simp only [Found.andThen,none_,none',none'',List.append_nil]
  rw [count,whole,List.take_left]

theorem lineGroups {rest : List Char} {f : Found} (member : f ∈ results (traceLineRe u) 0 rest) :
    ∃ pos rest' g, g ∈ results (.group (timestamp u)) pos rest' ∧ f.groups = g.groups := by
  obtain ⟨_,_,f,behind,same⟩ := caughtSecond silentStart member
  obtain ⟨_,_,f,behind,same'⟩ := caughtSecond (silentMany dot 0 false) behind
  obtain ⟨_,_,f,behind,same''⟩ := caughtSecond (silentOne _) behind
  obtain ⟨_,_,f,behind,cpu⟩ := caughtSecond (silentMany u.digit 1 true) behind
  obtain ⟨_,_,f,behind,closed⟩ := caughtSecond (silentOne _) behind
  obtain ⟨_,_,f,behind,blanks⟩ := caughtSecond (silentMany u.space 1 true) behind
  have quiet : Silent (.maybe (flags u)) :=
    silentMaybe (silentSeq (silentMany _ 1 true) (silentMany u.space 1 true))
  obtain ⟨_,_,f,behind,field⟩ := caughtSecond quiet behind
  have tail : Silent (.seq (.one (· == ':')) (.seq (.many dot 0 true) .stop)) :=
    silentSeq (silentOne _) (silentSeq (silentMany dot 0 true) silentStop)
  obtain ⟨g,stamp_,last⟩ := caughtFirst tail behind
  exact ⟨_,_,g,stamp_,by rw [same,same',same'',cpu,closed,blanks,field,last]⟩

theorem splitDigits {seconds : List Char} (fraction : List Char)
    (digits : ∀ c ∈ seconds, u.digit c = true) :
    splitDot (seconds ++ '.'::fraction) = .ok (seconds,fraction) := by
  have plain_ : ∀ c ∈ seconds, (c != '.') = true := fun c member => bne_iff_ne.mpr fun same => by
    have digit := digits c member
    rw [same,u.digitAscii _ (by decide)] at digit
    exact absurd digit (by decide)
  rw [splitDot,List.dropWhile_append_of_pos plain_,List.takeWhile_append_of_pos plain_]
  simp

/- The nine digits of the fraction are never too many. -/
theorem fractionRead {fraction : List Char} (digits : ∀ c ∈ fraction, u.digit c = true) :
    ∃ n, int u ((fraction ++ List.replicate nsecFractionWidth '0').take nsecFractionWidth) =
      .ok n := by
  have length : ((fraction ++ List.replicate nsecFractionWidth '0').take nsecFractionWidth).length =
      nsecFractionWidth := by
    rw [List.length_take,List.length_append,List.length_replicate,Nat.min_eq_left (by omega)]
  have all : ((fraction ++ List.replicate nsecFractionWidth '0').take nsecFractionWidth).all
      u.digit = true := by
    refine List.all_eq_true.mpr fun c member => ?_
    rcases List.mem_append.mp (List.mem_of_mem_take member) with digit | zero
    · exact digits c digit
    · rw [(List.mem_replicate.mp zero).2]
      exact digitOf u (by decide)
  exact ⟨_,if_pos ⟨List.ne_nil_of_length_pos (by rw [length]; decide),all,by rw [length]; decide⟩⟩

/- The script raises exactly where the seconds have more digits than a number may have. -/
theorem parseRaises
    (line : List Char) : (∃ raised, parseTraceLine u line = .error raised) ↔ TooLong u line := by
  unfold parseTraceLine
  cases found : search (traceLineRe u) line with
  | none => exact iff_of_false (by rintro ⟨_,bad⟩; cases bad) (by rintro ⟨_,_,_,some_,_⟩; cases found.symm.trans some_)
  | some f =>
    obtain ⟨_,_,g,caught,same⟩ := lineGroups u (searchMember found)
    obtain ⟨seconds,fraction,groups,begun,digits,digits'⟩ := stampGroup u caught
    rw [groups] at same
    obtain ⟨nanos,read⟩ := fractionRead u digits'
    simp only [same,timestampToNs,splitDigits u fraction digits,read,bind,Except.bind]
    have all : seconds.all u.digit = true := List.all_eq_true.mpr digits
    constructor
    · rintro ⟨raised,bad⟩
      refine ⟨f,seconds,fraction,found,same,digits,Nat.lt_of_not_le fun short => ?_⟩
      rw [int,if_pos ⟨begun,all,short⟩] at bad
      cases bad
    · rintro ⟨f',seconds',fraction',found',same',digits_,long⟩
      obtain rfl := Option.some.inj (found.symm.trans found')
      have parts : (seconds,fraction) = (seconds',fraction') := by
        have texts := List.cons.inj (same.symm.trans same')
        have split := splitDigits u fraction digits
        rw [texts.1,splitDigits u fraction' digits_] at split
        exact (Except.ok.inj split).symm
      obtain ⟨rfl,rfl⟩ := Prod.mk.inj parts
      rw [int,if_neg (by omega)]
      exact ⟨.valueError,rfl⟩

def ascii : Unicode where
  digit := Char.isDigit
  value c := c.toNat - '0'.toNat
  space c := c == ' ' || ('\t' ≤ c && c ≤ '\r') || (0x1c ≤ c.val && c.val ≤ 0x1f)
  digitAscii := fun _ _ => rfl
  valueAscii := fun _ _ => rfl
  spaceAscii := fun _ _ => rfl

/- A name with a space and a closing bracket, a negative pid, a second with six digits. -/
def lateEvent : Event := Event.zero.write [(.timestampNs,123456000000042),(.tid,77),(.cpuId,1234)]

theorem lateEventParsed :
    parseTraceLine ascii
      (printEventPrefix "a ]b".toList (-3) lateEvent .ret ++ "f -> [1] 2.5: x".toList) =
      .ok (some 123456000000042) :=
  (printedStampParsed ascii "a ]b".toList "f -> [1] 2.5: x".toList (-3) lateEvent .ret (by decide)
    (by simp) (by decide)).2

end ZeroTrace.LogMerge
