import ZeroTrace.FilterLexer

/-! Texts of the same tokens: the one that is printed with single spaces, and texts that
differ in their white space only. -/
namespace ZeroTrace.FilterText
open FilterSyntax FilterEval FilterLexer CText

/- The texts of one token. A decimal number has no zeros in front, which would make it octal. -/
inductive Spells : Token → List Char → Prop where
  | arg {c : Char} {i : Nat} (digit : digitValue c = some i) (low : i < gpArgCount) :
      Spells ⟨.arg,UInt8.ofNat i,0⟩ (argName ++ [c])
  | decimal {v : UInt64} {c : Char} {digits : List Char}
      (all : ∀ d ∈ c::digits, isDigitIn 10 d = true) (plain : c = '0' → digits = [])
      (value : valueOf 10 (c::digits) = v.toNat) : Spells ⟨.num,0,v⟩ (c::digits)
  | hexadecimal {v : UInt64} {c : Char} {digits : List Char}
      (all : ∀ d ∈ c::digits, isDigitIn 16 d = true)
      (value : valueOf 16 (c::digits) = v.toNat) : Spells ⟨.num,0,v⟩ ('0':: 'x'::c::digits)
  | operator {rule : OpRule} (listed : rule ∈ twoCharOps ++ oneCharOps) :
      Spells ⟨rule.type,0,0⟩ rule.text

def Apart (r : List Char) : Prop := r = [] ∨ ∃ r', r = ' '::r'

theorem apartStops {r : List Char} (apart : Apart r) (base : Nat) : ∀ d, r.head? = some d →
    isDigitIn base d = false := by
  rintro d first
  rcases apart with rfl | ⟨r',rfl⟩
  · cases first
  · cases first
    rfl

theorem argRead {c : Char} {i : Nat} {r : List Char} (digit : digitValue c = some i)
    (low : i < gpArgCount) (apart : Apart r) :
    readToken (argName ++ [c] ++ r) = some (⟨.arg,UInt8.ofNat i,0⟩,r) := by
  have ten : isDigitIn 10 c = true := by
    simp only [isDigitIn,digit,Option.any_some,decide_eq_true_eq]
    exact Nat.lt_trans low (by decide)
  have value : valueOf 10 [c] = i := by simp [valueOf,digit]
  have wide : isDigitIn 36 c = true := by
    simp only [isDigitIn,digit,Option.any_some,decide_eq_true_eq]
    exact Nat.lt_trans low (by decide)
  have number : strtoull (c::r) 10 = ⟨UInt64.ofNat i,false,r⟩ := by
    rw [← value]
    refine strtoullDigits wide rfl (by simp) (by simpa using ten) (apartStops apart 10) ?_
    rw [value]
    exact Nat.lt_trans low (by decide)
  have named : isArg (argName ++ [c] ++ r) = true := by simp [isArg,argName,ten]
  have small : (UInt64.ofNat i).toNat = i := UInt64.toNat_ofNat_of_lt (Nat.lt_trans low (by decide))
  have behind : (argName ++ [c] ++ r).drop 3 = c::r := rfl
  rw [readToken,if_pos named]
  simp only [readArg]
  rw [behind,number]
  simp only [small]
  rw [if_neg]
  rintro (same | large)
  · have := congrArg List.length same
    simp at this
  · omega

theorem numberRead {c : Char} {s digits r : List Char} {base : Nat} {v : UInt64}
    (digit : isDigitIn 10 c = true)
    (chosen : radix 0 (c::s) = (base,digits ++ r)) (some_ : digits ≠ [])
    (all : ∀ d ∈ digits, isDigitIn base d = true)
    (apart : Apart r) (shorter : r.length < (c::s).length) (value : valueOf base digits = v.toNat) :
    readToken (c::s) = some (⟨.num,0,v⟩,r) := by
  have wide : isDigitIn 36 c = true := by
    simp only [isDigitIn,Option.any_eq_true,decide_eq_true_eq] at digit ⊢
    obtain ⟨n,is,low⟩ := digit
    exact ⟨n,is,by omega⟩
  have number : strtoull (c::s) 0 = ⟨v,false,r⟩ := by
    rw [← UInt64.ofNat_toNat (x := v),← value]
    exact strtoullDigits wide chosen some_ all (apartStops apart base)
      (by rw [value]; exact v.toNat_lt)
  have unnamed : isArg (c::s) = false := by
    have other : c ≠ 'a' := by
      rintro rfl
      cases digit
    simp [isArg,argName,List.isPrefixOf,other.symm]
  have here : (c::s).head?.any (isDigitIn 10) = true := by simpa using digit
  rw [readToken,unnamed,if_neg (by simp),if_pos here]
  simp only [readNumber]
  rw [number,if_neg]
  rintro (same | range)
  · have := congrArg List.length same
    simp only at this
    omega
  · cases range

theorem decimalRadix {c : Char} {digits r : List Char} (plain : c = '0' → digits = [])
    (apart : Apart r) :
    ∃ base, radix 0 (c::digits ++ r) = (base,c::digits ++ r) ∧
      (c = '0' ∧ base = 8 ∨ c ≠ '0' ∧ base = 10) := by
  by_cases zero : c = '0'
  · subst zero
    rw [plain rfl]
    refine ⟨8,?_,.inl ⟨rfl,rfl⟩⟩
    rcases apart with rfl | ⟨r',rfl⟩
    · rfl
    · cases r' with
      | nil => rfl
      | cons d r' => rfl
  · exact ⟨10,radixDecimal zero,.inr ⟨zero,rfl⟩⟩

theorem decimalRead {v : UInt64} {c : Char} {digits r : List Char}
    (all : ∀ d ∈ c::digits, isDigitIn 10 d = true) (plain : c = '0' → digits = [])
    (value : valueOf 10 (c::digits) = v.toNat) (apart : Apart r) :
    readToken (c::digits ++ r) = some (⟨.num,0,v⟩,r) := by
  have shorter : r.length < (c::(digits ++ r)).length := by
    simp only [List.length_cons,List.length_append]; omega
  obtain ⟨base,chosen,cases_⟩ := decimalRadix plain apart
  rcases cases_ with ⟨rfl,rfl⟩ | ⟨_,rfl⟩
  · cases plain rfl
    exact numberRead rfl chosen (by simp) (by simp [isDigitIn,digitValue]) apart shorter value
  · exact numberRead (all c (.head _)) chosen (by simp) all apart shorter value

theorem operatorRead {rule : OpRule} {r : List Char} (listed : rule ∈ twoCharOps ++ oneCharOps)
    (apart : Apart r) :
    readToken (rule.text ++ r) = some (⟨rule.type,0,0⟩,r) := by
  simp only [twoCharOps,oneCharOps,List.cons_append,List.nil_append,List.mem_cons,List.not_mem_nil,
    or_false] at listed
  rcases apart with rfl | ⟨r',rfl⟩
  · rcases listed with rfl | rfl | rfl | rfl | rfl | rfl | rfl | rfl | rfl | rfl | rfl | rfl | rfl
      | rfl | rfl <;> rfl
  · rcases listed with rfl | rfl | rfl | rfl | rfl | rfl | rfl | rfl | rfl | rfl | rfl | rfl | rfl
      | rfl | rfl <;> rfl

theorem spellsRead {t : Token} {w r : List Char} (spells : Spells t w) (apart : Apart r) :
    readToken (w ++ r) = some (t,r) := by
  cases spells with
  | arg digit low => exact argRead digit low apart
  | decimal all plain value => exact decimalRead all plain value apart
  | @hexadecimal v c digits all value =>
    have chosen : radix 0 ('0':: 'x'::c::(digits ++ r)) = (16,c::digits ++ r) :=
      if_pos (by simp [all c (.head _)])
    have shorter : r.length < ('0':: 'x'::c::(digits ++ r)).length := by
      simp only [List.length_cons,List.length_append]; omega
    exact numberRead rfl chosen (by simp) all apart shorter value
  | operator listed => exact operatorRead listed apart

def rendering (words : List (List Char)) : List Char := List.intercalate [' '] words

variable {pairs : List (Token × List Char)}

theorem renderingMore (w w' : List Char) (words : List (List Char)) :
    rendering (w::w'::words) = w ++ ' '::rendering (w'::words) := by
  simp [rendering,List.intercalate]

theorem readSkipped {t : Token} {s r : List Char}
    (read : readToken s = some (t,r)) : skipSpaces s = s := by
  obtain ⟨w,rfl,some_,plain⟩ := tokenText read
  refine skipPlain fun c first => plain c ?_
  cases w with
  | nil => exact absurd rfl some_
  | cons d w => cases first; exact .head _

theorem lexesRead {t : Token} {s r : List Char} {ts : List Token} (read : readToken s = some (t,r))
    (rest : Lexes r ts) : Lexes s (t::ts) :=
  .token (by rw [readSkipped read]; exact read) rest

theorem endsRead {t : Token} {s r : List Char} (read : readToken s = some (t,r)) :
    endsBlank s = endsBlank r :=
  (endsRest (by rw [readSkipped read]; exact read)).1

theorem lexesSpace {s : List Char} {ts : List Token} (lexes : Lexes s ts) : Lexes (' '::s) ts :=
  lexesSkip.mp (lexesSkip.mpr lexes : Lexes (skipSpaces s) ts)

theorem renderedLexes (spelt : ∀ p ∈ pairs, Spells p.1 p.2) :
    Lexes (rendering (pairs.map Prod.snd)) (pairs.map Prod.fst) ∧
    endsBlank (rendering (pairs.map Prod.snd)) = false ∧
      skipSpaces (rendering (pairs.map Prod.snd)) = rendering (pairs.map Prod.snd) := by
  induction pairs with
  | nil => exact ⟨.done rfl,rfl,rfl⟩
  | cons p pairs ih =>
    have first := fun r => @spellsRead p.1 p.2 r (spelt p (.head _))
    cases pairs with
    | nil =>
      have alone : rendering ([p].map Prod.snd) = p.2 ++ [] := by simp [rendering,List.intercalate]
      have read := first [] (.inl rfl)
      rw [alone]
      exact ⟨lexesRead read (.done rfl),endsRead read,readSkipped read⟩
    | cons q pairs =>
      obtain ⟨lexes,open_,_⟩ := ih fun p member => spelt p (.tail _ member)
      have read := first (' '::rendering ((q::pairs).map Prod.snd)) (.inr ⟨_,rfl⟩)
      have some_ : rendering ((q::pairs).map Prod.snd) ≠ [] := by
        intro empty
        rw [empty] at lexes
        cases lexesOnce lexes (.done rfl)
      have more : rendering ((p::q::pairs).map Prod.snd) =
          p.2 ++ ' '::rendering ((q::pairs).map Prod.snd) := renderingMore ..
      rw [more]
      exact ⟨lexesRead read (lexesSpace lexes),
        (endsRead read).trans ((endsBehind (s := [' ']) some_).trans open_),readSkipped read⟩

/-- A filter that is printed with single spaces compiles to its own tokens, right up to the
room for tokens and for text. -/
theorem renderedCompiles {e : Expr} (spelt : ∀ p ∈ pairs, Spells p.1 p.2)
    (derived : Derives .or e (pairs.map Prod.fst))
    (few : pairs.length ≤ tokenCap) (short : (rendering (pairs.map Prod.snd)).length < exprMax) :
    probeFilterCompile (rendering (pairs.map Prod.snd)) =
      (0,⟨0,true,rendering (pairs.map Prod.snd),pairs.map Prod.fst⟩) := by
  obtain ⟨lexes,open_,skipped⟩ := renderedLexes spelt
  have compiled := compiledIff (s := rendering (pairs.map Prod.snd))
      (g := ⟨0,true,rendering (pairs.map Prod.snd),pairs.map Prod.fst⟩)
      (by rw [skipped]; exact short)
  rw [skipped] at compiled
  exact compiled.mpr ⟨open_,_,e,lexes,by rw [List.length_map]; exact few,derived,rfl⟩

/- !arg3 == 0x1F -/
def notArgThree : List (Token × List Char) :=
  [(⟨.not,0,0⟩,['!']),(⟨.arg,3,0⟩,['a','r','g','3']),(⟨.eq,0,0⟩,['=','=']),
    (⟨.num,0,31⟩,['0','x','1','F'])]

theorem notArgThreeSpelt : ∀ p ∈ notArgThree, Spells p.1 p.2 := by
  intro p member
  simp only [notArgThree,List.mem_cons,List.not_mem_nil,or_false] at member
  rcases member with rfl | rfl | rfl | rfl
  · exact @Spells.operator ⟨['!'],.not⟩ (by decide)
  · exact .arg (i := 3) rfl (by decide)
  · exact @Spells.operator ⟨['=','='],.eq⟩ (by decide)
  · exact .hexadecimal (List.all_eq_true.mp rfl) rfl

theorem notArgThreeCompiles : (∀ p ∈ notArgThree, Spells p.1 p.2) ∧
    probeFilterCompile (rendering (notArgThree.map Prod.snd)) =
    (0,⟨0,true,rendering (notArgThree.map Prod.snd),notArgThree.map Prod.fst⟩) := by
  obtain ⟨_,e,derived⟩ := @acceptedParts ⟨0,true,[],notArgThree.map Prod.fst⟩ (by decide)
  exact ⟨notArgThreeSpelt,renderedCompiles notArgThreeSpelt derived (by decide) (by decide)⟩

/-! Texts that differ in the white space in front of tokens and behind the last one, with the
same tokens taken off both, and anything that is no token the same in both. -/
inductive Respaced : List Char → List Char → Prop where
  | same {g g' r : List Char} (white : Blank g) (white' : Blank g') : Respaced (g ++ r) (g' ++ r)
  | token {g g' w r r' : List Char} {t : Token} (white : Blank g) (white' : Blank g')
      (first : readToken (w ++ r) = some (t,r))
      (first' : readToken (w ++ r') = some (t,r')) (rest : Respaced r r') :
        Respaced (g ++ (w ++ r)) (g' ++ (w ++ r'))

theorem respacedBack {s s' : List Char} (h : Respaced s s') : Respaced s' s := by
  induction h with
  | same white white' => exact .same white' white
  | token white white' first first' _ ih => exact .token white' white first' first ih

theorem lexesBehind {g s : List Char} {ts : List Token} (white : Blank g) :
    Lexes (g ++ s) ts ↔ Lexes s ts := by
  rw [← lexesSkip,skipBlank white,lexesSkip]

theorem respacedLexes {s s' : List Char} {ts : List Token} (h : Respaced s s')
    (lexes : Lexes s ts) : Lexes s' ts := by
  induction h generalizing ts with
  | same white white' => exact (lexesBehind white').mpr ((lexesBehind white).mp lexes)
  | token white white' first first' _ ih =>
    rw [lexesBehind white] at lexes
    rw [lexesBehind white']
    cases lexes with
    | done blank =>
      rw [readSkipped first] at blank
      rw [blank] at first
      cases first
    | token again rest =>
      rw [readSkipped first] at again
      cases first.symm.trans again
      exact lexesRead first' (ih rest)

/- A text whose tokens are a filter, with whatever white space. -/
def Grammatical (s : List Char) : Prop := ∃ ts e, Lexes s ts ∧ ts.length ≤ tokenCap ∧
    Derives .or e ts

def Alike (s s' : List Char) : Prop := (probeFilterCompile s).1 = (probeFilterCompile s').1 ∧
  ((probeFilterCompile s).1 = 0 →
    (probeFilterCompile s).2.tokens = (probeFilterCompile s').2.tokens)

theorem compiledTokens {s : List Char} (short : (skipSpaces s).length < exprMax)
    (accepted : (probeFilterCompile s).1 = 0) :
    endsBlank s = false ∧ Grammatical s ∧ Lexes s (probeFilterCompile s).2.tokens := by
  obtain ⟨open_,ts,e,lexes,few,derived,is⟩ :=
    (compiledIff short).mp
    (Prod.ext accepted rfl : probeFilterCompile s = (0,(probeFilterCompile s).2))
  exact ⟨open_,⟨ts,e,lexes,few,derived⟩,by rw [is]; exact lexes⟩

theorem compilesIff {s : List Char} (short : (skipSpaces s).length < exprMax) :
    (probeFilterCompile s).1 = 0 ↔ endsBlank s = false ∧ Grammatical s := by
  constructor
  · intro accepted
    have parts := compiledTokens short accepted
    exact ⟨parts.1,parts.2.1⟩
  · rintro ⟨open_,ts,e,lexes,few,derived⟩
    rw [(compiledIff short).mpr ⟨open_,ts,e,lexes,few,derived,rfl⟩]

theorem respacedGrammatical {s s' : List Char} (h : Respaced s s')
    (good : Grammatical s) : Grammatical s' := by
  obtain ⟨ts,e,lexes,few,derived⟩ := good
  exact ⟨ts,e,respacedLexes h lexes,few,derived⟩

/-- White space makes no difference exactly when both texts or neither end in it, or when the
tokens are no filter anyway: at the end of the text it is taken for a token that is missing. -/
theorem respacedAlike {s s' : List Char} (h : Respaced s s')
    (short : (skipSpaces s).length < exprMax) (short' : (skipSpaces s').length < exprMax) :
    Alike s s' ↔ endsBlank s = endsBlank s' ∨ ¬ Grammatical s := by
  have good : Grammatical s ↔ Grammatical s' :=
    ⟨respacedGrammatical h,respacedGrammatical (respacedBack h)⟩
  have accepted := compilesIff short
  have accepted' := compilesIff short'
  rw [← good] at accepted'
  constructor
  · rintro ⟨codes,_⟩
    by_cases valid : Grammatical s
    · left
      simp only [valid,and_true] at accepted accepted'
      rw [← codes,accepted] at accepted'
      cases one : endsBlank s <;> cases other : endsBlank s' <;> simp_all
    · exact .inr valid
  · intro condition
    have codes : (probeFilterCompile s).1 = 0 ↔ (probeFilterCompile s').1 = 0 := by
      rw [accepted,accepted']
      rcases condition with ends | invalid
      · rw [ends]
      · simp [invalid]
    refine ⟨?_,fun zero => ?_⟩
    · rcases compileCodes s with zero | minus
      · rw [zero,codes.mp zero]
      · rcases compileCodes s' with zero' | minus'
        · rw [zero',codes.mpr zero']
        · rw [minus,minus']
    · have one := (compiledTokens short zero).2.2
      have other := (compiledTokens short' (codes.mp zero)).2.2
      exact lexesOnce (respacedLexes h one) other

theorem oneLessAlike : Respaced ['1','<','2'] ['1',' ','<',' ',' ','2'] ∧
    Alike ['1','<','2'] ['1',' ','<',' ',' ','2'] := by
  have spaced : Respaced ['1','<','2'] ['1',' ','<',' ',' ','2'] :=
    @Respaced.token [] [] ['1'] ['<','2'] [' ','<',' ',' ','2'] ⟨.num,0,1⟩ (by decide) (by decide)
      rfl rfl
      (@Respaced.token [] [' '] ['<'] ['2'] [' ',' ','2'] ⟨.lt,0,0⟩ (by decide) (by decide) rfl rfl
        (@Respaced.same [] [' ',' '] ['2'] (by decide) (by decide)))
  exact ⟨spaced,(respacedAlike spaced (by decide) (by decide)).mpr (.inl rfl)⟩

theorem trailingSpaceRefused : Respaced ['1'] ['1',' '] ∧ (skipSpaces ['1']).length < exprMax ∧
    (skipSpaces ['1',' ']).length < exprMax ∧
    (probeFilterCompile ['1']).1 = 0 ∧ (probeFilterCompile ['1',' ']).1 = -1 ∧
      ¬ Alike ['1'] ['1',' '] := by
  have one : (probeFilterCompile ['1']).1 = 0 := by decide
  have other : (probeFilterCompile ['1',' ']).1 = -1 := by decide
  refine ⟨?_,by decide,by decide,one,other,fun alike => ?_⟩
  · exact @Respaced.token [] [] ['1'] [] [' '] ⟨.num,0,1⟩ (by decide) (by decide) rfl rfl
      (@Respaced.same [] [' '] [] (by decide) (by decide))
  · have := alike.1
    rw [one,other] at this
    cases this

end ZeroTrace.FilterText
