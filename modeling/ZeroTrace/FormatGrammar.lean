import Mathlib.Data.List.Infix
import ZeroTrace.FormatWalk
import ZeroTrace.RemoteStrings

/-! Formats by their pieces, and the conversions that the walk finds in a text. -/
namespace ZeroTrace.FormatGrammar
open FormatWalk CText
open RemoteStrings (shown)

/- What a conversion asks for: the arguments its width and precision take, and its character. -/
structure Found where
  stars : Nat
  conv : Char
  deriving DecidableEq, Repr

theorem foundShorter (c : Char)
    (s : List Char) : (lengthRest (flagsRest s)).length < (c::s).length := by
  have fewer := flagsShorter (s := s)
  have less := restShorter (s := flagsRest s)
  rw [List.length_cons]
  omega

def conversions : List Char → List Found
  | [] => []
  | c::s =>
    if c ≠ '%' then conversions s
    else if s.head? = some '%' then conversions s.tail
    else match _rest : lengthRest (flagsRest s) with
      | [] => []
      | d::t => ⟨starCount s,d⟩::conversions t
termination_by s => s.length
decreasing_by
  · simp
  · simp only [List.length_tail,List.length_cons]; omega
  · have shorter := foundShorter c s
    rw [_rest,List.length_cons] at shorter
    omega

variable {s t : List Char} {c : Char}

theorem textFound (plain : c ≠ '%') : conversions (c::s) = conversions s := by
  rw [conversions,if_pos plain]

theorem percentFound : conversions ('%':: '%'::s) = conversions s := by
  rw [conversions,if_neg (by simp),if_pos List.head?_cons,List.tail_cons]

theorem convFound (other : s.head? ≠ some '%') (rest : lengthRest (flagsRest s) = c::t) :
    conversions ('%'::s) = ⟨starCount s,c⟩::conversions t := by
  rw [conversions,if_neg (by simp),if_neg other]
  split
  · next none => rw [none] at rest; cases rest
  · next d u same =>
    rw [same] at rest
    cases rest
    rfl

theorem noneFound (other : s.head? ≠ some '%') (rest : lengthRest (flagsRest s) = []) :
    conversions ('%'::s) = [] := by
  rw [conversions,if_neg (by simp),if_neg other]
  split
  · rfl
  · next d u same => rw [same] at rest; cases rest

def Amount (s : List Char) : Prop := s = ['*'] ∨ ∀ c ∈ s, isDigitIn 10 c = true

/- Flags, width and precision. A width does not begin with a zero, which is a flag. -/
structure Spec where
  flags : List Char
  width : List Char
  precision : List Char
  flagged : ∀ c ∈ flags, c ∈ flagChars
  wide : Amount width ∧ width.head? ≠ some '0'
  precise : precision = [] ∨ ∃ s, precision = '.'::s ∧ Amount s

def Spec.chars (f : Spec) : List Char := f.flags ++ (f.width ++ f.precision)

def stars (s : List Char) : Nat := if s = ['*'] then 1 else 0

def Spec.stars (f : Spec) : Nat :=
  FormatGrammar.stars f.width + FormatGrammar.stars f.precision.tail

inductive Length where
  | none | hh | h | l | ll | j | z | t
  deriving DecidableEq, Repr

def Length.chars : Length → List Char
  | .none => []
  | .hh => ['h','h']
  | .h => ['h']
  | .l => ['l']
  | .ll => ['l','l']
  | .j => ['j']
  | .z => ['z']
  | .t => ['t']

inductive Conv where
  | m | d | i | o | u | x | X | c | s | p | n | a | A | e | E | f | F | g | G
  deriving DecidableEq, Repr

def Conv.char : Conv → Char
  | .m => 'm'
  | .d => 'd'
  | .i => 'i'
  | .o => 'o'
  | .u => 'u'
  | .x => 'x'
  | .X => 'X'
  | .c => 'c'
  | .s => 's'
  | .p => 'p'
  | .n => 'n'
  | .a => 'a'
  | .A => 'A'
  | .e => 'e'
  | .E => 'E'
  | .f => 'f'
  | .F => 'F'
  | .g => 'g'
  | .G => 'G'

/- A byte of text is neither a NUL nor a percent sign. -/
inductive Piece where
  | text (b : UInt8) (solid : b ≠ 0) (plain : b ≠ 0x25)
  | percent
  | conversion (spec : Spec) (length : Length) (conv : Conv)

def Piece.chars : Piece → List Char
  | .text b _ _ => [shown b]
  | .percent => ['%','%']
  | .conversion spec length conv => '%'::(spec.chars ++ (length.chars ++ [conv.char]))

def toByte (c : Char) : UInt8 := UInt8.ofNat c.toNat

def Piece.bytes : Piece → List UInt8
  | .text b _ _ => [b]
  | p => p.chars.map toByte

def Piece.found : Piece → List Found
  | .conversion spec _ conv => [⟨spec.stars,conv.char⟩]
  | _ => []

/-! A conversion is found as it is spelt. -/
section
variable {f : Spec} {r : List Char}

structure Plain (c : Char) : Prop where
  flag : c ∉ flagChars
  digit : isDigitIn 10 c = false
  star : c ≠ '*'
  dot : c ≠ '.'
  percent : c ≠ '%'

theorem digitOther {d : Char} (other : isDigitIn 10 d = false)
    (digit : isDigitIn 10 c = true) : c ≠ d := by
  rintro rfl
  rw [digit] at other
  cases other

theorem digitNoFlag (digit : isDigitIn 10 c = true) (nonzero : c ≠ '0') : c ∉ flagChars := by
  intro flag
  simp only [flagChars,List.mem_cons,List.not_mem_nil,or_false] at flag
  rcases flag with rfl | rfl | rfl | rfl | rfl | rfl
  · exact absurd digit (by decide)
  · exact absurd digit (by decide)
  · exact absurd digit (by decide)
  · exact absurd digit (by decide)
  · exact nonzero rfl
  · exact absurd digit (by decide)

theorem skipDigits (noStar : s.head? ≠ some '*') : skipStar s = s.dropWhile (isDigitIn 10) ∧
    starHere s = 0 := by
  refine ⟨?_,if_neg noStar⟩
  cases s with
  | nil => rfl
  | cons c s => exact skipStarIs fun same => noStar (congrArg some same)

theorem headDrop {ok : Char → Bool} (stops : ∀ c, r.head? = some c → ok c = false) :
    r.dropWhile ok = r := by
  cases r with
  | nil => rfl
  | cons c r => rw [List.dropWhile_cons,stops c rfl,if_neg (by simp)]

theorem amountSkipped (amount : Amount s)
    (after : ∀ c, r.head? = some c → isDigitIn 10 c = false ∧ c ≠ '*') :
    skipStar (s ++ r) = r ∧ starHere (s ++ r) = stars s := by
  rcases amount with rfl | digits
  · exact ⟨rfl,rfl⟩
  · have noStar : (s ++ r).head? ≠ some '*' := by
      cases s with
      | nil => exact fun head => (after '*' head).2 rfl
      | cons c s => exact fun head => digitOther rfl (digits c (.head _)) (Option.some.inj head)
    have none_ : stars s = 0 :=
      if_neg fun star => digitOther rfl (digits '*' (by rw [star]; exact .head _)) rfl
    obtain ⟨rest,count⟩ := skipDigits noStar
    rw [rest,count,none_,List.dropWhile_append_of_pos digits]
    exact ⟨headDrop fun c head => (after c head).1,rfl⟩

theorem widthHead (wide : Amount s ∧ s.head? ≠ some '0')
    (after : ∀ c, r.head? = some c → c ∉ flagChars) :
    ∀ c, (s ++ r).head? = some c → c ∉ flagChars := by
  intro c head
  cases s with
  | nil => exact after c head
  | cons d s =>
    cases Option.some.inj head
    rcases wide.1 with star | digits
    · cases star
      decide
    · exact digitNoFlag (digits _ (.head _)) fun zero => wide.2 (congrArg some zero)

theorem precisionSkipped (precise : s = [] ∨ ∃ u, s = '.'::u ∧ Amount u)
    (after : ∀ c, r.head? = some c → Plain c) :
    precisionRest (s ++ r) = r ∧ precisionStar (s ++ r) = stars s.tail := by
  rcases precise with rfl | ⟨u,rfl,amount⟩
  · cases r with
    | nil => exact ⟨rfl,rfl⟩
    | cons c r => exact ⟨precisionIs (after c rfl).dot,precisionNone (after c rfl).dot⟩
  · exact amountSkipped amount fun c head => ⟨(after c head).digit,(after c head).star⟩

theorem flagAll : ∀ c ∈ flagChars, isFlag c = true := List.all_eq_true.mp (by decide)

theorem flagNone (other : c ∉ flagChars) : isFlag c = false := by
  have listed : flagChars.contains c = false := by simpa using other
  rw [isFlag,strchr,listed,Bool.false_or,bne]
  cases c == '\x00' <;> rfl

theorem specSkipped (f : Spec) (after : ∀ c, r.head? = some c → Plain c) :
    flagsRest (f.chars ++ r) = r ∧ starCount (f.chars ++ r) = f.stars := by
  have behind : ∀ c, (f.precision ++ r).head? = some c → c ∉ flagChars ∧ isDigitIn 10 c = false ∧
      c ≠ '*' := by
    intro c head
    rcases f.precise with none | ⟨u,some_,_⟩
    · rw [none,List.nil_append] at head
      exact ⟨(after c head).flag,(after c head).digit,(after c head).star⟩
    · rw [some_,List.cons_append,List.head?_cons] at head
      cases head
      decide
  have flags : (f.chars ++ r).dropWhile isFlag = f.width ++ (f.precision ++ r) := by
    rw [Spec.chars,List.append_assoc,List.append_assoc,List.dropWhile_append_of_pos fun c member =>
      flagAll c (f.flagged c member)]
    exact headDrop fun c head =>
      flagNone (widthHead f.wide (fun d head' => (behind d head').1) c head)
  have width := amountSkipped f.wide.1 fun c head => (behind c head).2
  have precision := precisionSkipped f.precise after
  rw [flagsRest,starCount,flags,width.1,width.2,precision.1,precision.2]
  exact ⟨rfl,rfl⟩

theorem convPlain (conv : Conv) : Plain conv.char := by
  cases conv <;> exact ⟨by decide,by decide,by decide,by decide,by decide⟩

theorem letterPlain {length : Length} (member : c ∈ length.chars) : Plain c := by
  have letter : c = 'h' ∨ c = 'l' ∨ c = 'j' ∨ c = 'z' ∨ c = 't' := by
    cases length <;> simp [Length.chars] at member <;> simp [member]
  rcases letter with rfl | rfl | rfl | rfl | rfl <;> exact ⟨by decide,by decide,by decide,by decide,
    by decide⟩

theorem behindPlain {length : Length} {conv : Conv} :
    ∀ c, (length.chars ++ conv.char::r).head? = some c → Plain c := by
  intro c head
  cases letters : length.chars with
  | nil =>
    rw [letters] at head
    cases Option.some.inj head
    exact convPlain conv
  | cons d u =>
    rw [letters] at head
    cases Option.some.inj head
    have member : c ∈ length.chars := by rw [letters]; exact .head _
    exact letterPlain member

theorem lengthSkipped (length : Length) (conv : Conv) :
    lengthRest (length.chars ++ conv.char::r) = conv.char::r := by
  have other : conv.char ∉ lengthChars := by cases conv <;> decide
  have single : isDouble conv.char = false := by cases conv <;> rfl
  have noH : (conv.char == 'h') = false := by cases conv <;> rfl
  have noL : (conv.char == 'l') = false := by cases conv <;> rfl
  cases length with
  | none => cases r <;> simp [Length.chars,lengthRest,other,single]
  | h => simp [Length.chars,lengthRest,noH,lengthChars]
  | l => simp [Length.chars,lengthRest,noL,lengthChars]
  | hh => rfl
  | ll => rfl
  | j => rfl
  | z => rfl
  | t => rfl

theorem specHead (f : Spec) (after : r.head? ≠ some '%') : (f.chars ++ r).head? ≠ some '%' := by
  intro head
  rw [Spec.chars,List.append_assoc,List.append_assoc] at head
  cases flags : f.flags with
  | cons c u =>
    rw [flags] at head
    cases Option.some.inj head
    have flag := f.flagged '%' (by rw [flags]; exact .head _)
    exact absurd flag (by decide)
  | nil =>
    rw [flags,List.nil_append] at head
    cases width : f.width with
    | cons c u =>
      rw [width] at head
      cases Option.some.inj head
      rcases f.wide.1 with star | digits
      · rw [width] at star
        cases star
      · exact digitOther rfl (digits '%' (by rw [width]; exact .head _)) rfl
    | nil =>
      rw [width,List.nil_append] at head
      rcases f.precise with none | ⟨u,some_,_⟩
      · rw [none] at head
        exact after head
      · rw [some_] at head
        cases Option.some.inj head

theorem behindHead {length : Length} {conv : Conv} : (length.chars ++ conv.char::r).head? ≠
    some '%' := fun head =>
  (behindPlain '%' head).percent rfl

theorem textPlain {b : UInt8} (plain : b ≠ 0x25) : shown b ≠ '%' := by
  intro percent
  have value := RemoteStrings.shownNat b
  rw [percent] at value
  split at value
  · exact plain (UInt8.toNat_inj.mp value.symm)
  · cases value

theorem pieceFound (p : Piece) (s : List Char) :
    conversions (p.chars ++ s) = p.found ++ conversions s := by
  cases p with
  | text b solid plain => exact textFound (textPlain plain)
  | percent => exact percentFound
  | conversion spec length conv =>
    have behind := specSkipped (r := length.chars ++ conv.char::s) spec behindPlain
    have rest : lengthRest (flagsRest (spec.chars ++ (length.chars ++ conv.char::s))) =
        conv.char::s := by rw [behind.1,lengthSkipped]
    have chars : (Piece.conversion spec length conv).chars ++ s =
        '%'::(spec.chars ++ (length.chars ++ conv.char::s)) := by
      simp [Piece.chars]
    rw [chars,convFound (specHead spec behindHead) rest,behind.2]
    rfl

/-! Characters that are shown as they are. -/
def Printed (c : Char) : Prop := 0x20 ≤ c.toNat ∧ c.toNat ≤ 0x7e

instance (c : Char) : Decidable (Printed c) := inferInstanceAs (Decidable (_ ∧ _))

theorem printedSolid (printed : Printed c) : c ≠ '\x00' := by
  rintro rfl
  exact absurd printed (by decide)

theorem byteNat (printed : Printed c) : (toByte c).toNat = c.toNat := by
  have high := printed.2
  rw [toByte,UInt8.toNat_ofNat',Nat.mod_eq_of_lt (by omega)]

theorem shownBack (printed : Printed c) : shown (toByte c) = c := by
  have value := byteNat printed
  obtain ⟨low,high⟩ := printed
  have above : (0x20 : UInt8) ≤ toByte c := UInt8.le_iff_toNat_le.mpr (by rw [value]; exact low)
  have below : toByte c ≤ 0x7e := UInt8.le_iff_toNat_le.mpr (by rw [value]; exact high)
  have print : RemoteStrings.isPrint (toByte c) = true := by
    simp [RemoteStrings.isPrint,above,below]
  rw [shown,if_pos print,value,Char.ofNat_toNat]

theorem digitPrinted (digit : isDigitIn 10 c = true) : Printed c := by
  unfold isDigitIn digitValue at digit
  split at digit
  · next range =>
    have low : '0'.toNat ≤ c.toNat := range.1
    have high : c.toNat ≤ '9'.toNat := range.2
    exact ⟨Nat.le_trans (by decide) low,Nat.le_trans high (by decide)⟩
  · split at digit
    · have small : c.toNat - 'a'.toNat + 10 < 10 := of_decide_eq_true digit
      omega
    · split at digit
      · have small : c.toNat - 'A'.toNat + 10 < 10 := of_decide_eq_true digit
        omega
      · cases digit

theorem amountPrinted (amount : Amount s) : ∀ c ∈ s, Printed c := by
  intro c member
  rcases amount with rfl | digits
  · rw [List.mem_singleton.mp member]
    decide
  · exact digitPrinted (digits c member)

theorem allPrinted (all : s.all (fun c => decide (Printed c)) = true) : ∀ c ∈ s, Printed c :=
  fun c member =>
  of_decide_eq_true (List.all_eq_true.mp all c member)

theorem flagsPrinted : ∀ c ∈ flagChars, Printed c := allPrinted (by decide)

theorem specPrinted (f : Spec) : ∀ c ∈ f.chars, Printed c := by
  intro c member
  rcases List.mem_append.mp member with flag | rest
  · exact flagsPrinted c (f.flagged c flag)
  · rcases List.mem_append.mp rest with width | precision
    · exact amountPrinted f.wide.1 c width
    · rcases f.precise with none | ⟨u,some_,amount⟩
      · rw [none] at precision
        cases precision
      · rw [some_] at precision
        rcases List.mem_cons.mp precision with rfl | inside
        · decide
        · exact amountPrinted amount c inside

theorem behindPrinted {length : Length} {conv : Conv} : ∀ c ∈ length.chars ++ [conv.char],
    Printed c := by
  refine allPrinted ?_
  cases length <;> cases conv <;> rfl

theorem conversionPrinted {spec : Spec} {length : Length} {conv : Conv} :
    ∀ c ∈ (Piece.conversion spec length conv).chars, Printed c := by
  intro c member
  rcases List.mem_cons.mp member with rfl | inside
  · decide
  · rcases List.mem_append.mp inside with front | back
    · exact specPrinted spec c front
    · exact behindPrinted c back

theorem pieceSolid (p : Piece) : ∀ c ∈ p.chars, c ≠ '\x00' := by
  intro c member
  cases p with
  | text b solid plain =>
    rw [List.mem_singleton.mp member]
    exact RemoteStrings.shownSolid b
  | percent =>
    rw [(by simpa [Piece.chars] using member : c = '%')]
    decide
  | conversion spec length conv => exact printedSolid (conversionPrinted c member)

theorem doneBehind {length : Length} {conv : Conv} :
    cutFrom .done (length.chars ++ conv.char::r) = cutFrom .text r := by
  have skipped := lengthSkipped (r := r) length conv
  cases whole : length.chars ++ conv.char::r with
  | nil => simp at whole
  | cons d u =>
    rw [whole] at skipped
    rw [cutLength,skipped]
    rfl

theorem pieceCut (p : Piece) (solid : ∀ c ∈ s, c ≠ '\x00') :
    cutFrom .text (p.chars ++ s) = cutFrom .text s := by
  cases p with
  | text b _ plain => exact cutText (textPlain plain)
  | percent => rfl
  | conversion spec length conv =>
    have chars : (Piece.conversion spec length conv).chars ++ s =
        '%'::(spec.chars ++ (length.chars ++ conv.char::s)) := by
      simp [Piece.chars]
    have all : ∀ c ∈ spec.chars ++ (length.chars ++ conv.char::s), c ≠ '\x00' := by
      intro c member
      rcases List.mem_append.mp member with front | back
      · exact printedSolid (specPrinted spec c front)
      · rw [List.append_cons] at back
        rcases List.mem_append.mp back with here | behind
        · exact printedSolid (behindPrinted c here)
        · exact solid c behind
    have head : ∀ c, (spec.chars ++ (length.chars ++ conv.char::s)).head? = some c → c ≠ '%' :=
      fun c head same =>
      specHead spec behindHead (same ▸ head)
    have begun : cutFrom .text ('%'::(spec.chars ++ (length.chars ++ conv.char::s))) =
        cutFrom .percent (spec.chars ++ (length.chars ++ conv.char::s)) := rfl
    rw [chars,begun,percentFlags head,cutFlagsRest all,(specSkipped spec behindPlain).1,doneBehind]

def charsOf (ps : List Piece) : List Char := ps.flatMap Piece.chars

def foundIn (ps : List Piece) : List Found := ps.flatMap Piece.found

def readPieces : Nat → List Piece → List Piece
  | _,[] => []
  | n,p::ps => if p.chars.length ≤ n then p::readPieces (n - p.chars.length) ps else []

theorem readPrefix (n : Nat) (ps : List Piece) : readPieces n ps <+: ps := by
  induction ps generalizing n with
  | nil => exact List.prefix_rfl
  | cons p ps ih =>
    rw [readPieces]
    split
    · exact List.prefix_cons_inj p |>.mpr (ih _)
    · exact List.nil_prefix

theorem readAll {n : Nat} {ps : List Piece}
    (fits : (charsOf ps).length ≤ n) : readPieces n ps = ps := by
  induction ps generalizing n with
  | nil => rfl
  | cons p ps ih =>
    rw [charsOf,List.flatMap_cons,List.length_append] at fits
    rw [readPieces,if_pos (by omega),ih (by rw [charsOf]; omega)]

theorem takeChars (n : Nat) (ps : List Piece) :
    ∃ rest, (charsOf ps).take n = charsOf (readPieces n ps) ++ rest ∧
    (rest = [] ∨ ∃ p : Piece, rest <+: p.chars ∧ rest ≠ p.chars) := by
  induction ps generalizing n with
  | nil => exact ⟨[],by simp [charsOf,readPieces],.inl rfl⟩
  | cons p ps ih =>
    rw [readPieces]
    by_cases fits : p.chars.length ≤ n
    · obtain ⟨rest,taken,kind⟩ := ih (n - p.chars.length)
      refine ⟨rest,?_,kind⟩
      rw [if_pos fits,charsOf,List.flatMap_cons,List.take_append,List.take_of_length_le fits,
        ← charsOf,taken]
      simp [charsOf]
    · have short : n < p.chars.length := Nat.not_le.mp fits
      refine ⟨p.chars.take n,?_,.inr ⟨p,List.take_prefix _ _,fun whole => ?_⟩⟩
      · rw [if_neg fits,charsOf,List.flatMap_cons,List.take_append_of_le_length (by omega)]
        rfl
      · have length := congrArg List.length whole
        rw [List.length_take] at length
        omega

theorem charsSolid (ps : List Piece) : ∀ c ∈ charsOf ps, c ≠ '\x00' := by
  intro c member
  obtain ⟨p,_,inside⟩ := List.mem_flatMap.mp member
  exact pieceSolid p c inside

theorem piecesFound (ps : List Piece) (s : List Char) :
    conversions (charsOf ps ++ s) = foundIn ps ++ conversions s := by
  induction ps with
  | nil => rfl
  | cons p ps ih => rw [charsOf,foundIn,List.flatMap_cons,List.flatMap_cons,List.append_assoc,
      List.append_assoc,pieceFound,← charsOf,← foundIn,ih]

theorem piecesCut (ps : List Piece) (solid : ∀ c ∈ s, c ≠ '\x00') :
    cutFrom .text (charsOf ps ++ s) = cutFrom .text s := by
  induction ps with
  | nil => rfl
  | cons p ps ih =>
    rw [charsOf,List.flatMap_cons,List.append_assoc,← charsOf,pieceCut p fun c member => ?_,ih]
    rcases List.mem_append.mp member with front | back
    · exact charsSolid ps c front
    · exact solid c back

theorem prefixHalves {u v : List Char} (part : s <+: u ++ v) : s <+: u ∨ ∃ w, s = u ++ w ∧
    w <+: v := by
  rcases List.prefix_or_prefix_of_prefix part (List.prefix_append u v) with front | ⟨w,rfl⟩
  · exact .inl front
  · exact .inr ⟨w,rfl,(List.prefix_append_right_inj u).mp part⟩

theorem amountPrefix {u : List Char} (amount : Amount u) (part : s <+: u) : Amount s := by
  rcases amount with rfl | digits
  · rcases List.prefix_concat_iff.mp (show s <+: [] ++ ['*'] from part) with whole | none
    · exact .inl whole
    · exact .inr fun c member => by rw [List.prefix_nil.mp none] at member; cases member
  · exact .inr fun c member => digits c (part.subset member)

theorem widthPrefix {u : List Char} (wide : Amount u ∧ u.head? ≠ some '0') (part : s <+: u) :
    Amount s ∧ s.head? ≠ some '0' := by
  refine ⟨amountPrefix wide.1 part,fun head => wide.2 ?_⟩
  obtain ⟨v,rfl⟩ := part
  rw [List.head?_append,head]
  rfl

theorem precisionPrefix {u : List Char} (precise : u = [] ∨ ∃ v, u = '.'::v ∧ Amount v)
    (part : s <+: u) : s = [] ∨ ∃ v, s = '.'::v ∧ Amount v := by
  rcases precise with rfl | ⟨v,rfl,amount⟩
  · exact .inl (List.prefix_nil.mp part)
  · cases s with
    | nil => exact .inl rfl
    | cons c s =>
      obtain ⟨rfl,inside⟩ := List.cons_prefix_cons.mp part
      exact .inr ⟨s,rfl,amountPrefix amount inside⟩

theorem specPrefix {f : Spec} (part : s <+: f.chars) : ∃ g : Spec, s = g.chars := by
  have noWidth : Amount ([] : List Char) ∧ ([] : List Char).head? ≠ some '0' :=
    ⟨.inr (by simp),by simp⟩
  rcases prefixHalves part with flags | ⟨w,rfl,rest⟩
  · exact ⟨⟨s,[],[],fun c member => f.flagged c (flags.subset member),noWidth,.inl rfl⟩,
      by simp [Spec.chars]⟩
  · rcases prefixHalves rest with width | ⟨v,rfl,precision⟩
    · exact ⟨⟨f.flags,w,[],f.flagged,widthPrefix f.wide width,.inl rfl⟩,by simp [Spec.chars]⟩
    · exact ⟨⟨f.flags,f.width,v,f.flagged,f.wide,precisionPrefix f.precise precision⟩,rfl⟩

theorem specCut (f : Spec) : cutFrom .percent f.chars = true := by
  have skipped := (specSkipped (r := []) f (by simp)).1
  have head := specHead (r := []) f (by simp)
  rw [List.append_nil] at skipped head
  rw [percentFlags fun c same percent => head (percent ▸ same),cutFlagsRest fun c member =>
    printedSolid (specPrinted f c member),skipped]
  rfl

theorem lengthPart (length : Length) : ∀ s ∈ length.chars.inits, s ≠ [] → lengthRest s = [] := by
  cases length <;> decide

/- What is left of a conversion that is not cut off has a part of its length modifier behind flags,
width and precision, and no more. -/
theorem partFound {p : Piece} (part : s <+: p.chars) (other : s ≠ p.chars)
    (whole : cutOff s = false) : conversions s = [] := by
  have nothing : conversions [] = [] := by rw [conversions]
  cases s with
  | nil => exact nothing
  | cons c s =>
    cases p with
    | text b solid plain =>
      obtain ⟨rfl,rest⟩ := List.cons_prefix_cons.mp part
      exact absurd (congrArg _ (List.prefix_nil.mp rest)) other
    | percent =>
      obtain ⟨rfl,rest⟩ := List.cons_prefix_cons.mp part
      rcases List.prefix_concat_iff.mp (show s <+: [] ++ ['%'] from rest) with all | none
      · exact absurd (congrArg _ all) other
      · rw [List.prefix_nil.mp none] at whole
        cases whole
    | conversion spec length conv =>
      obtain ⟨rfl,rest⟩ := List.cons_prefix_cons.mp part
      have begun : cutOff ('%'::s) = cutFrom .percent s := rfl
      rw [begun] at whole
      rcases prefixHalves rest with front | ⟨w,rfl,back⟩
      · obtain ⟨g,rfl⟩ := specPrefix front
        rw [specCut] at whole
        cases whole
      · rcases List.prefix_concat_iff.mp back with all | letters
        · exact absurd (by rw [all]; rfl) other
        · have some_ : w ≠ [] := by
            rintro rfl
            rw [List.append_nil,specCut] at whole
            cases whole
          have plain : ∀ c, w.head? = some c → Plain c :=
            fun c head => letterPlain (letters.subset (List.mem_of_head? head))
          have skipped := (specSkipped spec plain).1
          have head : w.head? ≠ some '%' := fun same => (plain '%' same).percent rfl
          exact noneFound (specHead spec head)
            (by rw [skipped]; exact lengthPart length w ((List.mem_inits w _).mpr letters) some_)

def bytesOf (ps : List Piece) : List UInt8 := ps.flatMap Piece.bytes

theorem bytesBack (printed : ∀ c ∈ s, Printed c) : (s.map toByte).map shown = s := by
  rw [List.map_map]
  exact (List.map_congr_left fun c member => shownBack (printed c member)).trans (List.map_id s)

theorem pieceBytes (p : Piece) : p.bytes.map shown = p.chars := by
  cases p with
  | text b solid plain => rfl
  | percent => decide
  | conversion spec length conv => exact bytesBack conversionPrinted

theorem formatBytes (ps : List Piece) : (bytesOf ps).map shown = charsOf ps := by
  induction ps with
  | nil => rfl
  | cons p ps ih => rw [bytesOf,charsOf,List.flatMap_cons,List.flatMap_cons,List.map_append,
      pieceBytes,← bytesOf,← charsOf,ih]

theorem bytesNonzero (printed : ∀ c ∈ s, Printed c) : 0 ∉ s.map toByte := by
  intro zero
  obtain ⟨c,member,same⟩ := List.mem_map.mp zero
  have value := byteNat (printed c member)
  have low := (printed c member).1
  rw [same] at value
  rw [← value] at low
  exact absurd low (by decide)

theorem bytesSolid (ps : List Piece) : 0 ∉ bytesOf ps := by
  intro zero
  obtain ⟨p,_,inside⟩ := List.mem_flatMap.mp zero
  cases p with
  | text b solid plain => exact solid (List.mem_singleton.mp inside).symm
  | percent => exact absurd inside (by decide)
  | conversion spec length conv => exact bytesNonzero conversionPrinted inside

end

end ZeroTrace.FormatGrammar
