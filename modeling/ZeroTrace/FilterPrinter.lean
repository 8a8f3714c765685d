import ZeroTrace.FilterPrecedence
import ZeroTrace.NumberReads

/-! Filters printed from their syntax trees, with parentheses only where the grammar needs them. -/
namespace ZeroTrace.FilterPrinter
open FilterSyntax FilterGrammar FilterEval FilterLexer FilterText FilterPrecedence CText
  NumberTexts NumberReads

def BinOp.level : BinOp → Level
  | .or => .or
  | .and => .and
  | .eq | .ne | .gt | .ge | .lt | .le => .cmp
  | .add | .sub => .add
  | .mul | .div => .mul

def BinOp.rule : BinOp → OpRule
  | .or => ⟨['|','|'],.or⟩
  | .and => ⟨['&','&'],.and⟩
  | .eq => ⟨['=','='],.eq⟩
  | .ne => ⟨['!','='],.ne⟩
  | .gt => ⟨['>'],.gt⟩
  | .ge => ⟨['>','='],.ge⟩
  | .lt => ⟨['<'],.lt⟩
  | .le => ⟨['<','='],.le⟩
  | .add => ⟨['+'],.add⟩
  | .sub => ⟨['-'],.sub⟩
  | .mul => ⟨['*'],.mul⟩
  | .div => ⟨['/'],.div⟩

abbrev Word := Token × List Char

def ruleWord (rule : OpRule) : Word := (⟨rule.type,0,0⟩,rule.text)

def numWord (v : UInt64) : Word := (⟨.num,0,v⟩,decimal v.toNat)

def argWord (i : UInt8) : Word := (⟨.arg,i,0⟩,argName ++ [Nat.digitChar i.toNat])

def Expr.level : Expr → Level
  | .num _ | .arg _ => .primary
  | .not _ => .unary
  | .bin op _ _ => BinOp.level op

def parenthesized (l own : Level) (words : List Word) : List Word :=
  if l.rank ≤ own.rank then
    words else ruleWord ⟨['('],.lparen⟩::(words ++ [ruleWord ⟨[')'],.rparen⟩])

def words : Expr → List Word
  | .num v => [numWord v]
  | .arg i => [argWord i]
  | .not e => ruleWord ⟨['!'],.not⟩::parenthesized .unary (Expr.level e) (words e)
  | .bin op a b => parenthesized (BinOp.level op) (Expr.level a) (words a) ++
      ruleWord (BinOp.rule op)::parenthesized (BinOp.level op).next (Expr.level b) (words b)

def operand (l : Level) (e : Expr) : List Word := parenthesized l (Expr.level e) (words e)

theorem operandOwn {l : Level} {e : Expr} (looser : l.rank ≤ (Expr.level e).rank) :
    operand l e = words e := if_pos looser

def tokens (l : List Word) : List Token := l.map Prod.fst

def text (e : Expr) : List Char := rendering ((words e).map Prod.snd)

def Valid : Expr → Prop
  | .num _ => True
  | .arg i => i.toNat < gpArgCount
  | .not e => Valid e
  | .bin _ a b => Valid a ∧ Valid b

/-! The tokens of a tree are derived as that tree. -/
theorem opLevel (op : BinOp) : (BinOp.level op).op (BinOp.rule op).type = some op := by
  cases op <;> rfl

theorem ruleListed (op : BinOp) : BinOp.rule op ∈ twoCharOps ++ oneCharOps := by cases op <;> decide

theorem levelNext (l : Level) : l = .primary ∨ (l = .unary ∧ l.next = .primary) ∨
    (l.binary ∧ l.next.rank = l.rank + 1) := by
  cases l with
  | primary => exact .inl rfl
  | unary => exact .inr (.inl ⟨rfl,rfl⟩)
  | or | and | cmp | add | mul => exact .inr (.inr ⟨⟨by simp,by simp⟩,rfl⟩)

theorem derivesOut {m : Level} {e : Expr} {ts : List Token} (derived : Derives m e ts) {l : Level}
    (looser : l.rank ≤ m.rank) : Derives l e ts := by
  by_cases same : l = m
  · exact same ▸ derived
  · rcases levelNext l with rfl | ⟨rfl,_⟩ | ⟨chain,next⟩
    · cases m <;> first | exact absurd rfl same | exact absurd looser (by decide)
    · refine .plain ?_
      cases m <;> first | exact derived | exact absurd rfl same | exact absurd looser (by decide)
    · have less : l.rank ≠ m.rank :=
        fun is => same (by cases l <;> cases m <;> first | rfl | cases is)
      exact .single chain (derivesOut derived (by omega))
termination_by 6 - l.rank
decreasing_by
  have : l.rank ≤ 4 := by
    cases l <;> first | decide | exact absurd rfl chain.1 | exact absurd rfl chain.2
  omega

theorem operandDerives {e : Expr} (derived : Derives (Expr.level e) e (tokens (words e)))
    (l : Level) : Derives l e (tokens (operand l e)) := by
  unfold operand parenthesized
  split
  · next looser => exact derivesOut derived looser
  · have inner : Derives .or e (tokens (words e)) := derivesOut derived (Nat.zero_le _)
    have whole : Derives .primary e
        (tokens (ruleWord ⟨['('],.lparen⟩::(words e ++ [ruleWord ⟨[')'],.rparen⟩]))) := by
      simp only [tokens,List.map_cons,List.map_append,List.map_nil]
      exact .paren rfl inner rfl
    exact derivesOut whole (by cases l <;> decide)

theorem wordsDerive (e : Expr) : Derives (Expr.level e) e (tokens (words e)) := by
  induction e with
  | num v => exact .num (t := (numWord v).1) rfl
  | arg i => exact .arg (t := (argWord i).1) rfl
  | not e ih => exact .not rfl (operandDerives ih .unary)
  | bin op a b left right =>
    have parts : tokens (words (.bin op a b)) =
        tokens (operand (BinOp.level op) a) ++ (ruleWord (BinOp.rule op)).1::tokens
          (operand (BinOp.level op).next b) := by
      simp only [tokens,words,operand,List.map_append,List.map_cons]
    rw [parts]
    exact .chain (operandDerives left _) (opLevel op) (operandDerives right _)

/-! The words spell their tokens. -/
theorem numSpelt (v : UInt64) : Spells (numWord v).1 (numWord v).2 := by
  obtain ⟨digits,value,leads⟩ := digitsWrite (show 1 < 10 by decide) (by decide) v.toNat
  unfold numWord decimal
  cases is : Nat.toDigits 10 v.toNat with
  | nil => exact absurd is Nat.toDigits_ne_nil
  | cons c rest =>
    rw [is] at digits value leads
    exact .decimal digits (fun zero => (leads rest (by rw [zero])).2) value

theorem argSpelt {i : UInt8} (low : i.toNat < gpArgCount) : Spells (argWord i).1 (argWord i).2 := by
  have digit : digitValue (Nat.digitChar i.toNat) = some i.toNat :=
    digitCharValue (low.trans (by decide))
  have spelt := Spells.arg digit low
  rwa [UInt8.ofNat_toNat] at spelt

theorem ruleSpelt {rule : OpRule} (listed : rule ∈ twoCharOps ++ oneCharOps) :
    Spells (ruleWord rule).1 (ruleWord rule).2 := .operator listed

theorem operandSpelt {e : Expr} (spelt : ∀ p ∈ words e, Spells p.1 p.2) (l : Level) :
    ∀ p ∈ operand l e, Spells p.1 p.2 := by
  unfold operand parenthesized
  split
  · exact spelt
  · intro p member
    rcases List.mem_cons.mp member with rfl | more
    · exact ruleSpelt (by decide)
    · rcases List.mem_append.mp more with inner | last
      · exact spelt p inner
      · rw [List.mem_singleton.mp last]
        exact ruleSpelt (by decide)

theorem wordsSpelt {e : Expr} (valid : Valid e) : ∀ p ∈ words e, Spells p.1 p.2 := by
  induction e with
  | num v =>
    intro p member
    rw [List.mem_singleton.mp member]
    exact numSpelt v
  | arg i =>
    intro p member
    rw [List.mem_singleton.mp member]
    exact argSpelt valid
  | not e ih =>
    intro p member
    rcases List.mem_cons.mp member with rfl | inner
    · exact ruleSpelt (by decide)
    · exact operandSpelt (ih valid) .unary p inner
  | bin op a b left right =>
    intro p member
    rcases List.mem_append.mp member with inner | rest
    · exact operandSpelt (left valid.1) _ p inner
    · rcases List.mem_cons.mp rest with rfl | inner
      · exact ruleSpelt (ruleListed op)
      · exact operandSpelt (right valid.2) _ p inner

/-- A tree is printed as a text that compiles, and the filter that it compiles to says of
every event what the tree says. -/
theorem treeCompiles {e : Expr} (valid : Valid e) (few : (words e).length ≤ tokenCap)
    (short : (text e).length < exprMax) :
    probeFilterCompile (text e) = (0,⟨0,true,text e,tokens (words e)⟩) ∧
      ∀ event, probeFilterEval ⟨0,true,text e,tokens (words e)⟩ event = verdict e event := by
  have derived : Derives .or e (tokens (words e)) := derivesOut (wordsDerive e) (Nat.zero_le _)
  obtain ⟨lexes,open_,skipped⟩ := renderedLexes (wordsSpelt valid)
  have within : (skipSpaces (text e)).length < exprMax := by rw [text,skipped]; exact short
  refine ⟨(compiledIff within).mpr ⟨open_,_,e,lexes,?_,derived,?_⟩,
    fun event => derivedEval rfl derived event⟩
  · rw [List.length_map]
    exact few
  · rw [text,skipped]
    rfl

/- arg0 - (1 - arg2) > 10 -/
def subtractions : Expr := .bin .gt (.bin .sub (.arg 0) (.bin .sub (.num 1) (.arg 2))) (.num 10)

theorem subtractionsCompile : text subtractions = "arg0 - ( 1 - arg2 ) > 10".toList ∧
    (probeFilterCompile (text subtractions)).1 = 0 ∧
      ∀ event, probeFilterEval (probeFilterCompile (text subtractions)).2 event =
      verdict subtractions event := by
  have valid : Valid subtractions := ⟨⟨show 0 < 6 by decide,trivial,show 2 < 6 by decide⟩,trivial⟩
  obtain ⟨compiled,holds⟩ := treeCompiles valid (by decide) (by decide)
  rw [compiled]
  exact ⟨by decide,rfl,holds⟩

/-! No text of the same tree has fewer tokens. -/
theorem operandLength (l : Level) (e : Expr) : (words e).length ≤ (operand l e).length ∧
    (operand l e).length ≤ (words e).length + 2 := by
  unfold operand parenthesized
  split
  · exact ⟨Nat.le_refl _,Nat.le_add_right _ _⟩
  · simp only [List.length_cons,List.length_append,List.length_nil]
    exact ⟨by omega,by omega⟩

theorem operandLooser {l m : Level} (looser : l.rank ≤ m.rank) (e : Expr) :
    (operand l e).length ≤ (operand m e).length := by
  unfold operand parenthesized
  by_cases tight : m.rank ≤ (Expr.level e).rank
  · rw [if_pos tight,if_pos (looser.trans tight)]
  · rw [if_neg tight]
    split
    · simp only [List.length_cons,List.length_append,List.length_nil]
      omega
    · exact Nat.le_refl _

theorem nextTighter (l : Level) : l.rank ≤ l.next.rank := by cases l <;> decide

theorem opUnique {l : Level} {type : TokenType} {op : BinOp} (found : l.op type = some op) :
    BinOp.level op = l := by
  cases l <;> cases type <;> simp only [Level.op,Option.some.injEq,reduceCtorEq] at found <;>
    cases found <;> rfl

theorem fewestTokens {l : Level} {e : Expr} {ts : List Token} (derived : Derives l e ts) :
    (operand l e).length ≤ ts.length := by
  induction derived with
  | num | arg => exact Nat.le_refl 1
  | @paren t u e ts _ _ _ ih =>
    have inner : operand .or e = words e := operandOwn (Nat.zero_le _)
    have outer := (operandLength .primary e).2
    rw [inner] at ih
    simp only [List.length_cons,List.length_append,List.length_nil]
    omega
  | @not t e ts _ _ ih =>
    have here : operand .unary (.not e) = ruleWord ⟨['!'],.not⟩::operand .unary e :=
      operandOwn (Nat.le_refl _)
    rw [here,List.length_cons,List.length_cons]
    omega
  | @plain e ts _ ih => exact (operandLooser (by decide) e).trans ih
  | @single l e ts _ _ ih => exact (operandLooser (nextTighter l) e).trans ih
  | @chain l t op a b ts us _ kind _ left right =>
    have here : operand l (.bin op a b) = operand (BinOp.level op) a ++
        ruleWord (BinOp.rule op)::operand (BinOp.level op).next b := by
      have own : l.rank ≤ (Expr.level (.bin op a b)).rank := by rw [Expr.level,opUnique kind]
      exact operandOwn own
    rw [here,opUnique kind,List.length_append,List.length_append,List.length_cons,List.length_cons]
    omega

/-! What compiles is a tree over the event's arguments. -/
theorem readLow {s r : List Char} {t : Token} (read : readToken s = some (t,r))
    (arg : t.type = .arg) : t.argIndex.toNat < gpArgCount := by
  unfold readToken at read
  split at read
  · simp only [readArg] at read
    split at read
    · cases read
    · next fits =>
      cases read
      have low : (strtoull (s.drop 3) 10).value.toNat < gpArgCount := by omega
      rw [UInt8.toNat_ofNat']
      exact Nat.lt_of_le_of_lt (Nat.mod_le _ _) low
  · split at read
    · simp only [readNumber] at read
      split at read
      · cases read
      · cases read
        cases arg
    · obtain ⟨rule,member,is,_⟩ := operatorText read
      have other : ∀ rule ∈ twoCharOps ++ oneCharOps, rule.type ≠ .arg := by decide
      rw [is] at arg
      exact absurd arg (other rule member)

theorem lexesLow {s : List Char} {ts : List Token} (lexes : Lexes s ts) : ∀ t ∈ ts, t.type = .arg →
    t.argIndex.toNat < gpArgCount := by
  induction lexes with
  | done => intro t member; cases member
  | token first _ ih =>
    intro t member arg
    rcases List.mem_cons.mp member with rfl | rest
    · exact readLow first arg
    · exact ih t rest arg

theorem derivesValid {l : Level} {e : Expr} {ts : List Token} (derived : Derives l e ts)
    (low : ∀ t ∈ ts, t.type = .arg → t.argIndex.toNat < gpArgCount) :
    Valid e := by
  induction derived with
  | num => trivial
  | @arg t kind => exact low t (.head _) kind
  | paren _ _ _ ih => exact ih fun t member => low t (.tail _ (List.mem_append_left _ member))
  | not _ _ ih => exact ih fun t member => low t (.tail _ member)
  | plain _ ih => exact ih low
  | single _ _ ih => exact ih low
  | chain _ _ _ left right =>
    exact ⟨left fun t member => low t (List.mem_append_left _ member),
      right fun t member => low t (List.mem_append_right _ (.tail _ member))⟩

/-- Printing a filter that was accepted from its tree takes no more tokens than it has, so that
the print is accepted wherever it is short enough, and it holds for the same events. -/
theorem reprintedAlike {s : List Char} {f : ProbeFilter} (compiled : probeFilterCompile s = (0,f)) :
    ∃ e, Derives .or e f.tokens ∧
    (words e).length ≤ f.tokens.length ∧
      ((text e).length < exprMax → (probeFilterCompile (text e)).1 = 0 ∧
      ∀ event, probeFilterEval (probeFilterCompile (text e)).2 event =
        probeFilterEval f event) := by
  obtain ⟨enabled,e,derived⟩ := compiledParts compiled
  have short : (skipSpaces s).length < exprMax := by
    by_contra long
    have bad : skipSpaces s = [] ∨ (skipSpaces s).length ≥ exprMax := .inr (by omega)
    simp only [probeFilterCompile,if_pos bad] at compiled
    cases compiled
  obtain ⟨_,ts,_,lexes,few,_,rfl⟩ := (compiledIff short).mp compiled
  have fewest : (words e).length ≤ ts.length :=
    ((operandLength .or e).1).trans (fewestTokens derived)
  refine ⟨e,derived,fewest,fun room => ?_⟩
  obtain ⟨accepted,holds⟩ :=
    treeCompiles (derivesValid derived (lexesLow lexes)) (fewest.trans few) room
  rw [accepted]
  exact ⟨rfl,fun event => (holds event).trans (derivedEval rfl derived event).symm⟩

/- ((arg0))==(3) -/
def wrapped : List Char := "((arg0))==(3)".toList

theorem wrappedReprinted : (probeFilterCompile wrapped).2.tokens.length = 9 ∧
    ∃ e, Derives .or e (probeFilterCompile wrapped).2.tokens ∧
    (words e).length ≤ 9 ∧ ((text e).length < exprMax → (probeFilterCompile (text e)).1 = 0 ∧
      ∀ event, probeFilterEval (probeFilterCompile (text e)).2 event =
        probeFilterEval (probeFilterCompile wrapped).2 event) := by
  have accepted : (probeFilterCompile wrapped).1 = 0 := by decide
  exact ⟨by decide,reprintedAlike (Prod.ext accepted rfl)⟩

end ZeroTrace.FilterPrinter
