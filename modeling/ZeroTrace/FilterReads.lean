import ZeroTrace.FilterEval
import ZeroTrace.ReadTrace

/-! The descent over the token array as it is stored, 64 tokens of which the first `tokenCount`
are in use, with the positions it reads. It ends on every array, whatever stands in it, and
reads nothing behind the tokens in use. -/
namespace ZeroTrace.FilterReads
open FilterSyntax FilterGrammar FilterEval ReadTrace

structure TokenArray where
  tokens : Vector Token tokenCap
  tokenCount : Nat
  inside : tokenCount ≤ tokenCap

def TokenArray.used (a : TokenArray) : List Token := a.tokens.toList.take a.tokenCount

abbrev TracedParse := Ctx → Option (Traced (UInt64 × Ctx))

section
variable (a : TokenArray) (event : Option Args)

def peek (c : Ctx) : Traced (Option Token) :=
  if c.pos ≥ a.tokenCount then (none,[]) else (a.tokens[c.pos]?,[c.pos])

def take (c : Ctx) (type : TokenType) : Traced (Bool × Ctx) := match peek a c with
  | (none,reads) => ((false,c),reads)
  | (some t,reads) => if t.type ≠ type then ((false,c),reads) else ((true,c.advance),reads)

def takeOp (l : Level) (c : Ctx) : Traced (Option (BinOp × Ctx)) := match peek a c with
  | (none,reads) => (none,reads)
  | (some t,reads) => ((l.op t.type).map fun op => (op,c.advance),reads)

def parsePrimary (parseOr : TracedParse) : TracedParse := fun c => match peek a c with
  | (none,reads) => some ((0,c.fail),reads)
  | (some t,reads) => note reads (match take a c .num with
    | ((true,c),reads) => some ((t.value,c),reads)
    | ((false,c),reads) => note reads (match take a c .arg with
      | ((true,c),reads) => some ((match c.evalEnabled,event with
          | true,some args => eventArg args t.argIndex
          | _,_ => 0,c),reads)
      | ((false,c),reads) => note reads (match take a c .lparen with
        | ((true,c),reads) =>
            note reads (andThen (parseOr c) fun (value,c) => match take a c .rparen with
          | ((true,c),reads) => some ((value,c),reads)
          | ((false,c),reads) => some ((value,c.fail),reads))
        | ((false,c),reads) => some ((0,c.fail),reads))))

def unaryLoop (parseOr : TracedParse) : Nat → TracedParse
  | 0,_ => none
  | n+1,c => match take a c .not with
    | ((true,c),reads) =>
        note reads (andThen (unaryLoop parseOr n c) fun (value,c) =>
          some ((truth (value == 0),c),[]))
    | ((false,c),reads) => note reads (parsePrimary a event parseOr c)

def parseWithEval (c : Ctx) (evalEnabled : Bool) (parse : TracedParse) :
    Option (Traced (UInt64 × Ctx)) :=
  andThen (parse { c with evalEnabled := evalEnabled }) fun (value,c') =>
    some ((value,{ c' with evalEnabled := c.evalEnabled }),[])

def parseMaybeSkipped (c : Ctx) (skipEval : Bool) (parse : TracedParse) :
    Option (Traced (UInt64 × Ctx)) :=
  if skipEval then parseWithEval c false parse else parse c

def chainLoop (l : Level) (operand : TracedParse) : Nat → UInt64 → TracedParse
  | 0,_,_ => none
  | n+1,lhs,c =>
    if c.ok then match takeOp a l c with
      | (none,reads) => some ((lhs,c),reads)
      | (some (op,c),reads) =>
          note reads (andThen (parseMaybeSkipped c (skipEval op c.evalEnabled lhs) operand)
            fun (rhs,c) =>
        match applyOp op c.evalEnabled lhs rhs with
        | some value => chainLoop l operand n value c
        | none => some ((0,c.fail),[]))
    else some ((lhs,c),[])

def rounds : Nat := a.tokenCount + 1

def parseChain (l : Level) (operand : TracedParse) : TracedParse := fun c =>
  andThen (operand c) fun (lhs,c) => chainLoop a l operand (rounds a) lhs c

def parseUnary (parseOr : TracedParse) : TracedParse := unaryLoop a event parseOr (rounds a)
def parseMul (parseOr : TracedParse) : TracedParse := parseChain a .mul (parseUnary a event parseOr)
def parseAdd (parseOr : TracedParse) : TracedParse := parseChain a .add (parseMul a event parseOr)
def parseCmp (parseOr : TracedParse) : TracedParse := parseChain a .cmp (parseAdd a event parseOr)
def parseAnd (parseOr : TracedParse) : TracedParse := parseChain a .and (parseCmp a event parseOr)

def parseOr : Nat → TracedParse
  | 0,_ => none
  | n+1,c => parseChain a .or (parseAnd a event (parseOr n)) c

end

def filterValidate (enabled : Bool) (a : TokenArray) : Option (Traced Int) :=
  if !enabled || a.tokenCount == 0 then some (-1,[])
  else (parseOr a none (rounds a) ⟨0,true,false⟩).map fun ((_,c),reads) =>
    (if c.ok && c.pos == a.tokenCount then 0 else -1,reads)

/-! Without the positions it is the descent over the tokens in use, and the positions are
those of tokens in use. -/
inductive Same {α : Type} (count : Nat) : Option (Traced α) → Option α → Prop where
  | none : Same count none none
  | some {x : α} {reads : List Nat} (inside : ∀ p ∈ reads, p < count) :
      Same count (some (x,reads)) (some x)

variable {α β : Type} {count : Nat} {a : TokenArray} {event : Option Args}

theorem sameNote {r : Option (Traced α)} {plain : Option α} {reads : List Nat}
    (inside : ∀ p ∈ reads, p < count) (same : Same count r plain) :
    Same count (note reads r) plain := by
  cases same with
  | none => exact .none
  | some more =>
    refine .some fun p member => ?_
    rcases List.mem_append.mp member with left | right
    · exact inside p left
    · exact more p right

theorem sameThen {r : Option (Traced α)} {plain : Option α} {f : α → Option (Traced β)}
    {g : α → Option β} (first : Same count r plain)
    (rest : ∀ x, Same count (f x) (g x)) : Same count (andThen r f) (plain.bind g) := by
  cases first with
  | none => exact .none
  | some inside => exact sameNote inside (rest _)

theorem usedLength : a.used.length = a.tokenCount := by
  rw [TokenArray.used,List.length_take,Vector.length_toList]
  exact Nat.min_eq_left a.inside

theorem peekSame (c : Ctx) (event : Option Args) :
    ∃ reads, peek a c = (FilterEval.peek ⟨a.used,event⟩ c,reads) ∧
    ∀ p ∈ reads, p < a.tokenCount := by
  unfold peek
  split
  · next behind =>
    refine ⟨[],?_,by simp⟩
    rw [FilterEval.peek,List.getElem?_eq_none (by rw [usedLength]; exact behind)]
  · next low =>
    have low := Nat.not_le.mp low
    refine ⟨[c.pos],?_,by simpa using low⟩
    rw [FilterEval.peek,TokenArray.used,List.getElem?_take_of_lt low]
    simp

theorem takeSame (c : Ctx) (type : TokenType) (event : Option Args) :
    ∃ reads, take a c type = (FilterEval.take ⟨a.used,event⟩ c type,reads) ∧
      ∀ p ∈ reads, p < a.tokenCount := by
  obtain ⟨reads,looked,inside⟩ := peekSame c event
  refine ⟨reads,?_,inside⟩
  rw [take,FilterEval.take,looked]
  cases FilterEval.peek ⟨a.used,event⟩ c with
  | none => rfl
  | some t => by_cases kind : t.type = type <;> simp [kind]

theorem takeOpSame (l : Level) (c : Ctx) (event : Option Args) :
    ∃ reads, takeOp a l c = (FilterEval.takeOp ⟨a.used,event⟩ l c,reads) ∧
      ∀ p ∈ reads, p < a.tokenCount := by
  obtain ⟨reads,looked,inside⟩ := peekSame c event
  refine ⟨reads,?_,inside⟩
  rw [takeOp,FilterEval.takeOp,looked]
  cases FilterEval.peek ⟨a.used,event⟩ c with
  | none => rfl
  | some t => rfl

def Follows (a : TokenArray) (traced : TracedParse) (plain : Parse) : Prop :=
  ∀ c, Same a.tokenCount (traced c) (plain c)

theorem taken {i : Input} {c : Ctx} {t : Token} (at_ : FilterEval.peek i c = some t)
    (type : TokenType) :
    FilterEval.take i c type = if t.type = type then (true,c.advance) else (false,c) := by
  rw [FilterEval.take,at_]

theorem primaryFollows {traced plain} (inner : Follows a traced plain) :
    Follows a (parsePrimary a event traced) (FilterEval.parsePrimary ⟨a.used,event⟩ plain) := by
  intro c
  obtain ⟨reads,looked,inside⟩ := peekSame c event
  rw [parsePrimary,FilterEval.parsePrimary,looked]
  cases at_ : FilterEval.peek ⟨a.used,event⟩ c with
  | none => exact .some inside
  | some t =>
    refine sameNote inside ?_
    obtain ⟨nums,num,numsInside⟩ := takeSame c .num event
    obtain ⟨args,arg,argsInside⟩ := takeSame c .arg event
    obtain ⟨lefts,left,leftsInside⟩ := takeSame c .lparen event
    rw [taken at_] at num arg left
    rw [num]
    by_cases isNum : t.type = .num
    · rw [if_pos isNum]
      simp only [isNum]
      exact .some numsInside
    rw [if_neg isNum]
    refine sameNote numsInside ?_
    simp only [arg]
    by_cases isArg : t.type = .arg
    · rw [if_pos isArg]
      simp only [isArg]
      exact .some argsInside
    rw [if_neg isArg]
    refine sameNote argsInside ?_
    simp only [left]
    by_cases isLeft : t.type = .lparen
    · rw [if_pos isLeft]
      simp only [isLeft]
      refine sameNote leftsInside (sameThen (inner c.advance) fun (value,c) => ?_)
      obtain ⟨rights,right,rightsInside⟩ := takeSame (a := a) c .rparen event
      simp only [right]
      cases FilterEval.take ⟨a.used,event⟩ c .rparen with
      | mk closed c => cases closed <;> exact .some rightsInside
    · rw [if_neg isLeft]
      cases type : t.type <;> simp only [type] at isNum isArg isLeft ⊢ <;>
        first | exact .some leftsInside | contradiction

theorem unaryFollows {traced plain} (inner : Follows a traced plain) (n : Nat) :
    Follows a (unaryLoop a event traced n) (FilterEval.unaryLoop ⟨a.used,event⟩ plain n) := by
  induction n with
  | zero => exact fun c => .none
  | succ n ih =>
    intro c
    obtain ⟨reads,found,inside⟩ := takeSame c .not event
    rw [unaryLoop,FilterEval.unaryLoop,found]
    cases FilterEval.take ⟨a.used,event⟩ c .not with
    | mk not c =>
      cases not with
      | true => exact sameNote inside (sameThen (ih c) fun _ => .some (by simp))
      | false => exact sameNote inside (primaryFollows inner c)

theorem skippedFollows {traced plain} (inner : Follows a traced plain) (c : Ctx) (skip : Bool) :
    Same a.tokenCount (parseMaybeSkipped c skip traced)
      (FilterEval.parseMaybeSkipped c skip plain) := by
  cases skip with
  | true =>
    rw [parseMaybeSkipped,FilterEval.parseMaybeSkipped,if_pos rfl,if_pos rfl]
    exact sameThen (inner _) fun _ => .some (List.forall_mem_nil _)
  | false => exact inner c

theorem loopFollows {l : Level} {traced plain} (inner : Follows a traced plain) (n : Nat)
    (lhs : UInt64) :
    Follows a (chainLoop a l traced n lhs) (FilterEval.chainLoop ⟨a.used,event⟩ l plain n lhs) := by
  induction n generalizing lhs with
  | zero => exact fun c => .none
  | succ n ih =>
    intro c
    rw [chainLoop,FilterEval.chainLoop]
    cases c.ok with
    | false => exact .some (by simp)
    | true =>
      obtain ⟨reads,found,inside⟩ := takeOpSame l c event
      rw [found]
      cases FilterEval.takeOp ⟨a.used,event⟩ l c with
      | none => exact .some inside
      | some x =>
        refine sameNote inside (sameThen (skippedFollows inner x.2 _) fun y => ?_)
        cases applied : applyOp x.1 y.2.evalEnabled lhs y.1 with
        | some value => simpa only [applied] using ih value y.2
        | none => simpa only [applied] using .some (by simp)

theorem chainFollows (l : Level) {traced plain} (inner : Follows a traced plain) :
    Follows a (parseChain a l traced) (FilterEval.parseChain ⟨a.used,event⟩ l plain) := by
  intro c
  have same : rounds a = FilterEval.rounds ⟨a.used,event⟩ := by
    rw [rounds,FilterEval.rounds,usedLength]
  rw [FilterEval.parseChain,← same]
  exact sameThen (inner c) fun x => loopFollows inner _ x.1 x.2

theorem orFollows (n : Nat) :
    Follows a (parseOr a event n) (FilterEval.parseOr ⟨a.used,event⟩ n) := by
  induction n with
  | zero => exact fun c => .none
  | succ n ih =>
    have same : rounds a = FilterEval.rounds ⟨a.used,event⟩ := by
      rw [rounds,FilterEval.rounds,usedLength]
    have unary : Follows a (parseUnary a event (parseOr a event n))
        (FilterEval.parseUnary ⟨a.used,event⟩ (FilterEval.parseOr ⟨a.used,event⟩ n)) := by
      rw [FilterEval.parseUnary,← same]
      exact unaryFollows ih _
    exact chainFollows .or
      (chainFollows .and (chainFollows .cmp (chainFollows .add (chainFollows .mul unary))))

/-! The loops never run out of rounds: each of them has taken a token, and there are no more
than the array has. -/
variable {i : Input}

/- From a position inside the array, with so many parentheses still allowed. -/
def Ends (i : Input) (depth : Nat) (parse : Parse) : Prop := ∀ c : Ctx, c.pos ≤ i.tokens.length →
    i.tokens.length ≤ depth + c.pos →
  ∃ v c', parse c = some (v,c') ∧ c.pos ≤ c'.pos ∧ c'.pos ≤ i.tokens.length

theorem advancePos (c : Ctx) : c.advance.pos = c.pos + 1 := rfl

theorem takeMoves {c c' : Ctx} {type : TokenType} {found : Bool}
    (took : FilterEval.take i c type = (found,c')) (low : c.pos ≤ i.tokens.length) :
    c.pos ≤ c'.pos ∧ c'.pos ≤ i.tokens.length := by
  cases found with
  | true =>
    obtain ⟨rfl,t,at_,_⟩ := takeTrue took
    exact ⟨Nat.le_succ _,someLow at_⟩
  | false =>
    obtain ⟨rfl,_⟩ := takeFalse took
    exact ⟨Nat.le_refl _,low⟩

theorem primaryEnds {n : Nat} {parse : Parse}
    (inner : ∀ c : Ctx, c.pos ≤ i.tokens.length → i.tokens.length < n + c.pos →
    ∃ v c', parse c = some (v,c') ∧ c.pos ≤ c'.pos ∧ c'.pos ≤ i.tokens.length) :
    Ends i n (FilterEval.parsePrimary i parse) := by
  intro c low deep
  rw [FilterEval.parsePrimary,FilterEval.peek]
  cases at_ : i.tokens[c.pos]? with
  | none => exact ⟨0,c.fail,rfl,Nat.le_refl _,low⟩
  | some t =>
    have next := someLow at_
    cases type : t.type with
    | num => exact ⟨t.value,c.advance,by simp only [type],Nat.le_succ _,next⟩
    | arg =>
      simp only [type]
      exact ⟨_,c.advance,rfl,Nat.le_succ _,next⟩
    | lparen =>
      obtain ⟨v,d,ran,on,end_⟩ := inner c.advance next (by rw [advancePos]; omega)
      cases closed : FilterEval.take i d .rparen with
      | mk found d' =>
        obtain ⟨on',end'⟩ := takeMoves closed end_
        have forward : c.pos ≤ d'.pos := (Nat.le_succ _).trans (on.trans on')
        cases found with
        | true => exact ⟨v,d',by simp [type,ran,closed],forward,end'⟩
        | false => exact ⟨v,d'.fail,by simp [type,ran,closed],forward,end'⟩
    | end_ | eq | ne | gt | ge | lt | le | and | or | not | add | sub | mul | div | rparen | other =>
      exact ⟨0,c.fail,by simp only [type],Nat.le_refl _,low⟩

theorem unaryEnds {n k : Nat} {parse : Parse} (inner : Ends i n (FilterEval.parsePrimary i parse))
    {c : Ctx} (low : c.pos ≤ i.tokens.length)
    (deep : i.tokens.length ≤ n + c.pos) (long : i.tokens.length < k + c.pos) :
    ∃ v c', FilterEval.unaryLoop i parse k c = some (v,c') ∧ c.pos ≤ c'.pos ∧
      c'.pos ≤ i.tokens.length := by
  induction k generalizing c with
  | zero => omega
  | succ k ih =>
    rw [FilterEval.unaryLoop]
    cases took : FilterEval.take i c .not with
    | mk found d =>
      cases found with
      | false =>
        obtain ⟨rfl,_⟩ := takeFalse took
        exact inner d low deep
      | true =>
        obtain ⟨rfl,t,at_,_⟩ := takeTrue took
        obtain ⟨v,c',ran,on,end_⟩ :=
          ih (c := c.advance) (someLow at_) (by rw [advancePos]; omega) (by rw [advancePos]; omega)
        exact ⟨truth (v == 0),c',by simp [ran],(Nat.le_succ _).trans on,end_⟩

theorem skippedEnds {n : Nat} {parse : Parse} (inner : Ends i n parse) {c : Ctx} (skip : Bool)
    (low : c.pos ≤ i.tokens.length)
    (deep : i.tokens.length ≤ n + c.pos) :
    ∃ v c', FilterEval.parseMaybeSkipped c skip parse = some (v,c') ∧ c.pos ≤ c'.pos ∧
      c'.pos ≤ i.tokens.length := by
  cases skip with
  | false => exact inner c low deep
  | true =>
    obtain ⟨v,c',ran,on,end_⟩ := inner ⟨c.pos,c.ok,false⟩ low deep
    exact ⟨v,⟨c'.pos,c'.ok,c.evalEnabled⟩,
      by simp [FilterEval.parseMaybeSkipped,FilterEval.parseWithEval,ran],on,end_⟩

theorem loopEnds {l : Level} {n k : Nat} {operand : Parse} (inner : Ends i n operand) {lhs : UInt64}
    {c : Ctx} (low : c.pos ≤ i.tokens.length)
    (deep : i.tokens.length ≤ n + c.pos) (long : i.tokens.length < k + c.pos) :
    ∃ v c', FilterEval.chainLoop i l operand k lhs c = some (v,c') ∧ c.pos ≤ c'.pos ∧
      c'.pos ≤ i.tokens.length := by
  induction k generalizing lhs c with
  | zero => omega
  | succ k ih =>
    rw [FilterEval.chainLoop]
    cases ok : c.ok with
    | false => exact ⟨lhs,c,by simp,Nat.le_refl _,low⟩
    | true =>
      cases took : FilterEval.takeOp i l c with
      | none => exact ⟨lhs,c,by simp,Nat.le_refl _,low⟩
      | some x =>
        obtain ⟨op,d⟩ := x
        obtain ⟨rfl,t,at_,_⟩ := takeOpSome took
        have next : c.advance.pos ≤ i.tokens.length := someLow at_
        have more := advancePos c
        obtain ⟨rhs,d,right,on,end_⟩ :=
          skippedEnds inner (skipEval op c.advance.evalEnabled lhs) next (by omega)
        cases applied : applyOp op d.evalEnabled lhs rhs with
        | none => exact ⟨0,d.fail,by simp [right,applied],by show c.pos ≤ d.pos; omega,end_⟩
        | some value =>
          obtain ⟨v,c',rest,on',end'⟩ := @ih value d end_ (by omega) (by omega)
          exact ⟨v,c',by simp [right,applied,rest],by omega,end'⟩

theorem chainEnds {l : Level} {n : Nat} {operand : Parse} (inner : Ends i n operand) :
    Ends i n (FilterEval.parseChain i l operand) := by
  intro c low deep
  obtain ⟨lhs,d,first,on,end_⟩ := inner c low deep
  obtain ⟨v,c',rest,on',end'⟩ :=
    @loopEnds i l n (FilterEval.rounds i) operand inner lhs d end_ (by omega)
    (by rw [FilterEval.rounds]; omega)
  exact ⟨v,c',by simp [FilterEval.parseChain,first,rest],on.trans on',end'⟩

theorem orEnds (n : Nat) : ∀ c : Ctx, c.pos ≤ i.tokens.length → i.tokens.length < n + c.pos →
    ∃ v c', FilterEval.parseOr i n c = some (v,c') ∧ c.pos ≤ c'.pos ∧ c'.pos ≤ i.tokens.length := by
  induction n with
  | zero => intro c low deep; omega
  | succ n ih =>
    intro c low deep
    have unary : Ends i n (FilterEval.parseUnary i (FilterEval.parseOr i n)) := fun c low deep =>
      unaryEnds (primaryEnds ih) low deep (by rw [FilterEval.rounds]; omega)
    exact chainEnds (chainEnds (chainEnds (chainEnds (chainEnds unary)))) c low (by omega)

theorem runEnds (i : Input) : ∃ v c, runFilter i = some (v,c) := by
  obtain ⟨v,c,ran,_⟩ := orEnds (FilterEval.rounds i) i.init (Nat.zero_le _) (Nat.lt_succ_self _)
  exact ⟨v,c,ran⟩

theorem readsFollow (enabled : Bool) (a : TokenArray) {probeId : Nat} {expr : List Char} :
    ∃ reads, filterValidate enabled a =
      some (FilterEval.filterValidate ⟨probeId,enabled,expr,a.used⟩,reads) ∧
      ∀ p ∈ reads, p < a.tokenCount := by
  have empty : a.used.isEmpty = (a.tokenCount == 0) := by
    rw [← usedLength]
    cases a.used <;> rfl
  rw [filterValidate,FilterEval.filterValidate,empty]
  split
  · exact ⟨[],rfl,by simp⟩
  · obtain ⟨v,c,ran⟩ := runEnds ⟨a.used,none⟩
    have follows : Same a.tokenCount (parseOr a none (rounds a) ⟨0,true,false⟩)
        (runFilter ⟨a.used,none⟩) := by
      rw [runFilter,FilterEval.rounds,usedLength]
      exact orFollows _ _
    rw [ran] at follows ⊢
    cases ranReads : parseOr a none (rounds a) ⟨0,true,false⟩ with
    | none => rw [ranReads] at follows; cases follows
    | some x =>
      obtain ⟨y,reads⟩ := x
      rw [ranReads] at follows
      cases follows with
      | some inside =>
        refine ⟨reads,?_,inside⟩
        rw [usedLength]
        rfl

theorem derivedAccepted {f : ProbeFilter} {e : Expr} (enabled : f.enabled = true)
    (derived : Derives .or e f.tokens) : FilterEval.filterValidate f = 0 := by
  have read := (readWhole f.tokens e).mpr derived
  have meets : goalMeets ⟨f.tokens,none⟩ (fun _ => 0) 0 e f.tokens.length (.whole .or) :=
    parsedMeets read
  obtain ⟨v,c,ran,_,now⟩ :=
    meets f.tokens.length (f.tokens.length + 1) false (Nat.le_refl _) (Nat.le_refl _) (by simp)
  obtain ⟨ok,pos,_⟩ := now.resolve_right fun off => by simp at off
  have some_ : f.tokens.isEmpty = false := by
    have := wholeMoves read
    cases tokens : f.tokens with
    | nil => simp [tokens] at this
    | cons => rfl
  have ran : runFilter ⟨f.tokens,none⟩ = some (v,c) := ran
  simp [FilterEval.filterValidate,enabled,some_,ran,ok,pos]

/-- Whatever the array holds, the validation of an enabled filter comes to an end, has read
only tokens in use, and gives zero exactly when the grammar derives them. -/
theorem validatesGrammar (a : TokenArray) : ∃ rc reads, filterValidate true a = some (rc,reads) ∧
    (rc = 0 ↔ ∃ e, Derives .or e a.used) ∧ ∀ p ∈ reads, p < a.tokenCount := by
  obtain ⟨reads,ran,inside⟩ := @readsFollow true a 0 []
  refine ⟨_,reads,ran,⟨fun accepted => (acceptedParts accepted).2,?_⟩,inside⟩
  rintro ⟨e,derived⟩
  exact derivedAccepted rfl derived

end ZeroTrace.FilterReads
