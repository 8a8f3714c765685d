import ZeroTrace.FilterReads
import ZeroTrace.CText

/-! From the text of a filter to its tokens. -/
namespace ZeroTrace.FilterLexer
open FilterSyntax FilterGrammar FilterEval CText

def exprMax : Nat := 128
def gpArgCount : Nat := 6

structure OpRule where
  text : List Char
  type : TokenType
  deriving DecidableEq, Repr

def twoCharOps : List OpRule :=
  [⟨['=','='],.eq⟩,⟨['!','='],.ne⟩,⟨['>','='],.ge⟩,⟨['<','='],.le⟩,⟨['&','&'],.and⟩,⟨['|','|'],.or⟩]

def oneCharOps : List OpRule :=
  [⟨['>'],.gt⟩,⟨['<'],.lt⟩,⟨['!'],.not⟩,⟨['+'],.add⟩,⟨['-'],.sub⟩,⟨['*'],.mul⟩,⟨['/'],.div⟩,
    ⟨['('],.lparen⟩,⟨[')'],.rparen⟩]

/- An error is a return code that is not positive: zero where nothing of the kind stands at
the cursor. The filter and the cursor have then not changed. -/
abbrev Append := ProbeFilter → List Char → Except Int (ProbeFilter × List Char)

def appendToken (f : ProbeFilter) (type : TokenType) (value : UInt64)
    (argIndex : UInt8) : Option ProbeFilter :=
  if f.tokens.length ≥ tokenCap then
    none else some { f with tokens := f.tokens ++ [⟨type,argIndex,value⟩] }

def appendOperator : List OpRule → Append
  | [],_,_ => .error 0
  | rule::rules,f,s =>
    if rule.text.isPrefixOf s then match appendToken f rule.type 0 0 with
      | none => .error (-1)
      | some f => .ok (f,s.drop rule.text.length)
    else appendOperator rules f s

def argName : List Char := ['a','r','g']

def appendArg : Append := fun f s =>
  if !argName.isPrefixOf s || !((s.drop 3).head?.any (isDigitIn 10)) then .error 0
  else
    let index := strtoull (s.drop 3) 10
    if index.rest = s.drop 3 ∨ index.value.toNat ≥ gpArgCount then .error (-1)
    else match appendToken f .arg 0 (UInt8.ofNat index.value.toNat) with
      | none => .error (-1)
      | some f => .ok (f,index.rest)

def appendNumber : Append := fun f s =>
  if !s.head?.any (isDigitIn 10) then .error 0
  else
    let number := strtoull s 0
    if number.rest = s ∨ number.range then .error (-1)
    else match appendToken f .num number.value 0 with
      | none => .error (-1)
      | some f => .ok (f,number.rest)

def orElse (first second : Append) : Append := fun f s => match first f s with
  | .error 0 => second f s
  | r => r

def appendNextToken : Append := fun f s =>
  let s := skipSpaces s
  if s = [] then .error 0
  else orElse appendArg
    (orElse appendNumber (orElse (appendOperator twoCharOps) (appendOperator oneCharOps))) f s

def appendTokens : Nat → ProbeFilter → List Char → Bool × ProbeFilter
  | _,f,[] => (true,f)
  | 0,f,_ => (false,f)
  | n+1,f,s => match appendNextToken f s with
    | .ok (f,s) => appendTokens n f s
    | .error _ => (false,f)

def zeroFilter : ProbeFilter := ⟨0,false,[],[]⟩

def probeFilterCompile (expr : List Char) : Int × ProbeFilter :=
  let p := skipSpaces expr
  if p = [] ∨ p.length ≥ exprMax then (-1,zeroFilter)
  else match appendTokens p.length { zeroFilter with expr := p, enabled := true } p with
    | (true,f) => (filterValidate f,f)
    | (false,f) => (-1,f)

/-! One token on its own: what stands at the cursor, whether there is room for it or not. -/
def readOperator : List OpRule → List Char → Option (Token × List Char)
  | [],_ => none
  | rule::rules,s => if rule.text.isPrefixOf s then some (⟨rule.type,0,0⟩,s.drop rule.text.length)
      else readOperator rules s

def isArg (s : List Char) : Bool := argName.isPrefixOf s && (s.drop 3).head?.any (isDigitIn 10)

def readArg (s : List Char) : Option (Token × List Char) :=
  let index := strtoull (s.drop 3) 10
  if index.rest = s.drop 3 ∨ index.value.toNat ≥ gpArgCount then
    none else some (⟨.arg,UInt8.ofNat index.value.toNat,0⟩,index.rest)

def readNumber (s : List Char) : Option (Token × List Char) :=
  let number := strtoull s 0
  if number.rest = s ∨ number.range then none else some (⟨.num,0,number.value⟩,number.rest)

def readToken (s : List Char) : Option (Token × List Char) :=
  if isArg s then readArg s
  else if s.head?.any (isDigitIn 10) then readNumber s
  else readOperator (twoCharOps ++ oneCharOps) s

def room (f : ProbeFilter) : Bool := f.tokens.length < tokenCap

def add (f : ProbeFilter) (t : Token) : ProbeFilter := { f with tokens := f.tokens ++ [t] }

def fill (f : ProbeFilter) (read : Token × List Char) : Except Int (ProbeFilter × List Char) :=
  if room f then .ok (add f read.1,read.2) else .error (-1)

variable {f : ProbeFilter} {s : List Char}

theorem appendFills {type : TokenType} {value : UInt64} {argIndex : UInt8} {r : List Char} :
    (match appendToken f type value argIndex with
    | none => .error (-1)
    | some f => .ok (f,r)) = fill f (⟨type,argIndex,value⟩,r) := by
  rw [appendToken,fill,room]
  by_cases full : f.tokens.length ≥ tokenCap
  · rw [if_pos full,if_neg (by simpa using full)]
  · rw [if_neg full,if_pos (by simpa using full)]
    rfl

theorem fillTook (read : Token × List Char) : fill f read ≠ .error 0 := by
  unfold fill
  split <;> simp

theorem orElseFirst {first second : Append} (found : first f s ≠ .error 0) :
    orElse first second f s = first f s := by
  unfold orElse
  split
  · next nothing => exact absurd nothing found
  · rfl

theorem orElseSecond {first second : Append} (nothing : first f s = .error 0) :
    orElse first second f s = second f s := by
  rw [orElse,nothing]
  rfl

theorem operatorFills (rules : List OpRule) :
    appendOperator rules f s = (readOperator rules s).elim (.error 0) (fill f) := by
  induction rules with
  | nil => rfl
  | cons rule rules ih =>
    rw [appendOperator,readOperator]
    split
    · exact appendFills
    · exact ih

theorem operatorAppend (first second : List OpRule) :
    readOperator (first ++ second) s = (readOperator first s).orElse fun _ =>
      readOperator second s := by
  induction first with
  | nil => rfl
  | cons rule first ih =>
    rw [List.cons_append,readOperator,readOperator]
    split
    · rfl
    · exact ih

theorem operatorsFill : orElse (appendOperator twoCharOps) (appendOperator oneCharOps) f s =
    (readOperator (twoCharOps ++ oneCharOps) s).elim (.error 0) (fill f) := by
  have first := @operatorFills f s twoCharOps
  rw [operatorAppend]
  cases found : readOperator twoCharOps s with
  | some read =>
    rw [found] at first
    rw [orElseFirst (by rw [first]; exact fillTook read),first]
    rfl
  | none =>
    rw [found] at first
    rw [orElseSecond first,operatorFills]
    rfl

theorem argFills (named : isArg s = true) : appendArg f s =
    (readArg s).elim (.error (-1)) (fill f) := by
  have here : ¬ (!argName.isPrefixOf s || !((s.drop 3).head?.any (isDigitIn 10))) = true := by
    simpa [isArg] using named
  simp only [appendArg,readArg]
  rw [if_neg here]
  split
  · rfl
  · exact appendFills

theorem numberFills (digit : s.head?.any (isDigitIn 10) = true) :
    appendNumber f s = (readNumber s).elim (.error (-1)) (fill f) := by
  simp only [appendNumber,readNumber]
  rw [if_neg (by simp [digit])]
  split
  · rfl
  · exact appendFills

theorem elimTook {read : Option (Token × List Char)} : read.elim (.error (-1)) (fill f) ≠
    .error 0 := by
  cases read with
  | none => simp
  | some read => exact fillTook read

/-- The next token of the text, if it can be read, is appended if there is room. -/
theorem nextTokenFills :
    ∃ code, appendNextToken f s = (readToken (skipSpaces s)).elim (.error code) (fill f) := by
  simp only [appendNextToken]
  generalize skipSpaces s = s
  split
  · next empty => exact ⟨0,by rw [empty]; rfl⟩
  · rw [readToken]
    split
    · next named => exact ⟨-1,
        by rw [orElseFirst (by rw [argFills named]; exact elimTook),argFills named]⟩
    · next unnamed =>
      have noArg : appendArg f s = .error 0 := by
        rw [appendArg]
        exact if_pos (by simpa [isArg,Classical.or_iff_not_imp_left] using unnamed)
      rw [orElseSecond noArg]
      split
      · next digit => exact ⟨-1,
          by rw [orElseFirst (by rw [numberFills digit]; exact elimTook),numberFills digit]⟩
      · next noDigit =>
        have noNumber : appendNumber f s = .error 0 := by
          rw [appendNumber]
          exact if_pos (by simpa using noDigit)
        exact ⟨0,by rw [orElseSecond noNumber,operatorsFill]⟩

/-! A token's text has a character at least, and no white space in it. -/
theorem operatorText {rules : List OpRule} {t : Token} {r : List Char}
    (read : readOperator rules s = some (t,r)) :
    ∃ rule ∈ rules, t = ⟨rule.type,0,0⟩ ∧ s = rule.text ++ r := by
  induction rules with
  | nil => cases read
  | cons rule rules ih =>
    rw [readOperator] at read
    split at read
    · next here =>
      cases read
      obtain ⟨tail,rfl⟩ := List.isPrefixOf_iff_prefix.mp here
      exact ⟨rule,.head _,rfl,by rw [List.drop_left]⟩
    · obtain ⟨other,member,found⟩ := ih read
      exact ⟨other,.tail _ member,found⟩

theorem numeralText {base : Nat} (digit : s.head?.any (isDigitIn 10) = true)
    (moved : (strtoull s base).rest ≠ s) :
    ∃ w, s = w ++ (strtoull s base).rest ∧ w ≠ [] ∧ ∀ c ∈ w, isSpace c = false := by
  cases s with
  | nil => cases digit
  | cons c s =>
    obtain ⟨w,parts,plain⟩ := strtoullRest (s := s) (c := c) (by simpa using digit) base
    refine ⟨w,parts,?_,plain⟩
    rintro rfl
    exact moved parts.symm

theorem tokenText {t : Token} {r : List Char} (read : readToken s = some (t,r)) :
    ∃ w, s = w ++ r ∧ w ≠ [] ∧ ∀ c ∈ w, isSpace c = false := by
  unfold readToken at read
  split at read
  · next named =>
    obtain ⟨name,digit⟩ : argName.isPrefixOf s = true ∧
      (s.drop 3).head?.any (isDigitIn 10) = true := by simpa [isArg] using named
    simp only [readArg] at read
    split at read
    · cases read
    · next fits =>
      cases read
      obtain ⟨w,parts,_,plain⟩ := numeralText digit fun same => fits (.inl same)
      obtain ⟨tail,rfl⟩ := List.isPrefixOf_iff_prefix.mp name
      rw [show (argName ++ tail).drop 3 = tail from rfl] at parts ⊢
      refine ⟨argName ++ w,by rw [List.append_assoc,← parts],by simp [argName],fun c member => ?_⟩
      rcases List.mem_append.mp member with letter | numeral
      · simp only [argName,List.mem_cons,List.not_mem_nil,or_false] at letter
        rcases letter with rfl | rfl | rfl <;> rfl
      · exact plain c numeral
  · split at read
    · next digit =>
      simp only [readNumber] at read
      split at read
      · cases read
      · next fits =>
        cases read
        exact numeralText digit fun same => fits (.inl same)
    · obtain ⟨rule,member,_,parts⟩ := operatorText read
      have solid : ∀ rule ∈ twoCharOps ++ oneCharOps, rule.text ≠ [] ∧
          rule.text.all (fun c => !isSpace c) = true := by decide
      exact ⟨rule.text,parts,(solid rule member).1,plainAll (solid rule member).2⟩

/-! The texts of a token list: the tokens in their order, with any white space in front of each
and behind the last. -/
inductive Lexes : List Char → List Token → Prop where
  | done {s : List Char} (blank : skipSpaces s = []) : Lexes s []
  | token {s r : List Char} {t : Token} {ts : List Token}
      (first : readToken (skipSpaces s) = some (t,r)) (rest : Lexes r ts) : Lexes s (t::ts)

theorem lexesOnce {ts us : List Token} (h : Lexes s ts) (h' : Lexes s us) : ts = us := by
  induction h generalizing us with
  | done blank =>
    cases h' with
    | done => rfl
    | token first => rw [blank] at first; cases first
  | token first _ ih =>
    cases h' with
    | done blank => rw [blank] at first; cases first
    | token first' rest' =>
      cases first.symm.trans first'
      rw [ih rest']

theorem lexesSkip {ts : List Token} : Lexes (skipSpaces s) ts ↔ Lexes s ts := by
  constructor
  · intro h
    cases h with
    | done blank => exact .done (by rw [← blank,skipTwice])
    | token first rest => exact .token (by rw [← first,skipTwice]) rest
  · intro h
    cases h with
    | done blank => exact .done (by rw [skipTwice,blank])
    | token first rest => exact .token (by rw [skipTwice,first]) rest

theorem endsRest {t : Token} {r : List Char} (read : readToken (skipSpaces s) = some (t,r)) :
    endsBlank s = endsBlank r ∧ r.length < s.length := by
  obtain ⟨g,_,split⟩ := skipFront s
  obtain ⟨w,parts,some_,plain⟩ := tokenText read
  rw [split,parts]
  refine ⟨endsIn some_ plain,?_⟩
  have := List.length_pos_iff.mpr some_
  simp only [List.length_append]
  omega

def addAll (f : ProbeFilter) (ts : List Token) : ProbeFilter := { f with tokens := f.tokens ++ ts }

theorem addThen {t : Token} {ts : List Token} : addAll (add f t) ts = addAll f (t::ts) := by
  simp [addAll,add]

theorem appendTokensNext {n : Nat} {c : Char} :
    appendTokens (n + 1) f (c::s) = match appendNextToken f (c::s) with
    | .ok (f,s) => appendTokens n f s
    | .error _ => (false,f) := rfl

theorem appendsAll {ts : List Token} (lexes : Lexes s ts) {n : Nat} (open_ : endsBlank s = false)
    (long : s.length ≤ n)
    (few : f.tokens.length + ts.length ≤ tokenCap) : appendTokens n f s = (true,addAll f ts) := by
  induction lexes generalizing n f with
  | @done s blank =>
    obtain ⟨g,white,split⟩ := skipFront s
    rw [blank,List.append_nil] at split
    rw [← split] at white
    have same : addAll f [] = f := by simp [addAll]
    rw [blankEnds white open_,appendTokens,same]
  | @token s r t ts first rest ih =>
    obtain ⟨ends,shorter⟩ := endsRest first
    rw [List.length_cons] at few
    obtain ⟨code,next⟩ := @nextTokenFills f s
    have fits : room f = true := by simp only [room,decide_eq_true_eq]; omega
    rw [first,Option.elim_some,fill,if_pos fits] at next
    cases n with
    | zero => omega
    | succ n =>
      cases s with
      | nil => cases shorter
      | cons c s =>
        rw [appendTokensNext,next,← @addThen f t ts]
        exact ih (ends ▸ open_) (by omega)
          (by simp only [add,List.length_append,List.length_singleton]; omega)

theorem appendedLexes {n : Nat} {g : ProbeFilter} (ran : appendTokens n f s = (true,g))
    (few : f.tokens.length ≤ tokenCap) :
    ∃ ts, Lexes s ts ∧ endsBlank s = false ∧ f.tokens.length + ts.length ≤ tokenCap ∧
      g = addAll f ts := by
  induction n generalizing f s with
  | zero =>
    cases s with
    | nil => cases ran; exact ⟨[],.done rfl,rfl,few,by simp [addAll]⟩
    | cons c s => cases ran
  | succ n ih =>
    cases s with
    | nil => cases ran; exact ⟨[],.done rfl,rfl,few,by simp [addAll]⟩
    | cons c s =>
      obtain ⟨code,next⟩ := @nextTokenFills f (c::s)
      rw [appendTokensNext,next] at ran
      cases read : readToken (skipSpaces (c::s)) with
      | none => rw [read] at ran; cases ran
      | some x =>
        obtain ⟨t,r⟩ := x
        rw [read,Option.elim_some,fill] at ran
        split at ran
        · next taken =>
          split at taken
          · next free =>
            cases taken
            have fits : f.tokens.length < tokenCap := by simpa [room] using free
            obtain ⟨ts,lexes,open_,small,rfl⟩ :=
              ih ran (by simp only [add,List.length_append,List.length_singleton]; omega)
            simp only [add,List.length_append,List.length_singleton] at small
            refine ⟨t::ts,.token read lexes,(endsRest read).1.trans open_,?_,addThen⟩
            rw [List.length_cons]
            omega
          · cases taken
        · cases ran

theorem validateCodes (f : ProbeFilter) : filterValidate f = 0 ∨ filterValidate f = -1 := by
  unfold filterValidate
  split
  · exact .inr rfl
  · split
    · split
      · exact .inl rfl
      · exact .inr rfl
    · exact .inr rfl

theorem compileCodes (s : List Char) : (probeFilterCompile s).1 = 0 ∨
    (probeFilterCompile s).1 = -1 := by
  simp only [probeFilterCompile]
  split
  · exact .inr rfl
  · split
    · exact validateCodes _
    · exact .inr rfl

def started (s : List Char) : ProbeFilter := ⟨0,true,skipSpaces s,[]⟩

theorem derivesSome {e : Expr} (none_ : Derives .or e []) : False := by
  have read := wholeMoves ((readWhole [] e).mpr none_)
  exact absurd read.1 (Nat.lt_irrefl _)

theorem skipEnds (some_ : skipSpaces s ≠ []) : endsBlank (skipSpaces s) = endsBlank s := by
  obtain ⟨g,_,split⟩ := skipFront s
  conv => rhs; rw [split]
  exact (endsBehind some_).symm

/-- What a text that is short enough compiles to: the filter of its tokens, if it has no more
than there is room for, if they are a filter, and if there is no white space behind the last. -/
theorem compiledIff {g : ProbeFilter} (short : (skipSpaces s).length < exprMax) :
    probeFilterCompile s = (0,g) ↔
    endsBlank s = false ∧ ∃ ts e, Lexes s ts ∧ ts.length ≤ tokenCap ∧ Derives .or e ts ∧
      g = ⟨0,true,skipSpaces s,ts⟩ := by
  have within : ¬ (skipSpaces s).length ≥ exprMax := by omega
  constructor
  · intro ran
    simp only [probeFilterCompile] at ran
    split at ran
    · cases ran
    · next live =>
      have some_ : skipSpaces s ≠ [] := fun empty => live (.inl empty)
      split at ran
      · next f appended =>
        obtain ⟨ts,lexes,open_,few,rfl⟩ := appendedLexes appended (Nat.zero_le _)
        obtain ⟨accepted,rfl⟩ := Prod.mk.injEq .. ▸ ran
        obtain ⟨_,e,derived⟩ := acceptedParts accepted
        exact ⟨(skipEnds some_).symm.trans open_,ts,e,lexesSkip.mp lexes,
          by simpa [zeroFilter] using few,derived,rfl⟩
      · cases ran
  · rintro ⟨open_,ts,e,lexes,few,derived,rfl⟩
    have some_ : skipSpaces s ≠ [] := by
      intro empty
      cases lexesOnce lexes (.done empty)
      exact derivesSome derived
    have appended := appendsAll (f := started s) (lexesSkip.mpr lexes)
        ((skipEnds some_).trans open_) (Nat.le_refl _) (by simpa [started] using few)
    have accepted : filterValidate ⟨0,true,skipSpaces s,ts⟩ = 0 :=
      FilterReads.derivedAccepted rfl derived
    simp only [probeFilterCompile]
    rw [if_neg (fun bad => bad.elim some_ within)]
    have same : ({ zeroFilter with expr := skipSpaces s, enabled := true } : ProbeFilter) =
        started s := rfl
    rw [same,appended]
    exact Prod.ext accepted rfl

end ZeroTrace.FilterLexer
