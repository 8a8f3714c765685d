import ZeroTrace.FilterGrammar

/-! The filter evaluator: recursive descent that computes while it reads. `pos`, `ok`
and `evalEnabled` are the mutable part of the evaluation context. -/
namespace ZeroTrace.FilterEval
open FilterSyntax FilterGrammar

structure Ctx where
  pos : Nat
  ok : Bool
  evalEnabled : Bool
  deriving DecidableEq, Repr

def Ctx.fail (c : Ctx) : Ctx := { c with ok := false }
def Ctx.advance (c : Ctx) : Ctx := { c with pos := c.pos + 1 }

/- The constant part: the filter's tokens, and no event while validating. -/
structure Input where
  tokens : List Token
  event : Option Args

def Input.init (i : Input) : Ctx := ⟨0,true,i.event.isSome⟩

/- Nothing is returned only where the loops ran out of the rounds given to them. -/
abbrev Parse := Ctx → Option (UInt64 × Ctx)

variable (i : Input)

def peek (c : Ctx) : Option Token := i.tokens[c.pos]?

def take (c : Ctx) (type : TokenType) : Bool × Ctx := match peek i c with
  | some t => if t.type = type then (true,c.advance) else (false,c)
  | none => (false,c)

def takeOp (l : Level) (c : Ctx) : Option (BinOp × Ctx) := match peek i c with
  | some t => (l.op t.type).map fun op => (op,c.advance)
  | none => none

/- A round of any loop, and each nested parenthesis, takes a token. -/
def rounds : Nat := i.tokens.length + 1

def parsePrimary (parseOr : Parse) : Parse := fun c => match peek i c with
  | none => some (0,c.fail)
  | some t => match t.type with
    | .num => some (t.value,c.advance)
    | .arg => some (match c.evalEnabled,i.event with
        | true,some args => eventArg args t.argIndex
        | _,_ => 0,c.advance)
    | .lparen => do
      let (value,c) ← parseOr c.advance
      let (closed,c) := take i c .rparen
      some (value,if closed then c else c.fail)
    | _ => some (0,c.fail)

def unaryLoop (parseOr : Parse) : Nat → Parse
  | 0,_ => none
  | n+1,c => match take i c .not with
    | (true,c) => do
      let (value,c) ← unaryLoop parseOr n c
      some (truth (value == 0),c)
    | (false,c) => parsePrimary i parseOr c

def parseUnary (parseOr : Parse) : Parse := unaryLoop i parseOr (rounds i)

/- A division is only carried out where its result counts. -/
def applyOp (op : BinOp) (evalEnabled : Bool) (lhs rhs : UInt64) : Option UInt64 :=
  match op,evalEnabled with
  | .div,false => some 0
  | _,_ => op.compute lhs rhs

def parseWithEval (c : Ctx) (evalEnabled : Bool) (parse : Parse) : Option (UInt64 × Ctx) := do
  let (value,c') ← parse { c with evalEnabled := evalEnabled }
  some (value,{ c' with evalEnabled := c.evalEnabled })

def parseMaybeSkipped (c : Ctx) (skipEval : Bool) (parse : Parse) : Option (UInt64 × Ctx) :=
  if skipEval then parseWithEval c false parse else parse c

/- Only && and || skip: the first after a zero, the second after anything else. -/
def skipEval (op : BinOp) (evalEnabled : Bool) (lhs : UInt64) : Bool := match op with
  | .and => evalEnabled && lhs == 0
  | .or => evalEnabled && lhs != 0
  | _ => false

-- The loop of the five binary levels. A division by zero leaves it at once.
def chainLoop (l : Level) (operand : Parse) : Nat → UInt64 → Parse
  | 0,_,_ => none
  | n+1,lhs,c =>
    if c.ok then match takeOp i l c with
      | none => some (lhs,c)
      | some (op,c) => do
        let (rhs,c) ← parseMaybeSkipped c (skipEval op c.evalEnabled lhs) operand
        match applyOp op c.evalEnabled lhs rhs with
        | some value => chainLoop l operand n value c
        | none => some (0,c.fail)
    else some (lhs,c)

def parseChain (l : Level) (operand : Parse) : Parse := fun c => do
  let (lhs,c) ← operand c
  chainLoop i l operand (rounds i) lhs c

def parseMul (parseOr : Parse) : Parse := parseChain i .mul (parseUnary i parseOr)
def parseAdd (parseOr : Parse) : Parse := parseChain i .add (parseMul i parseOr)
def parseCmp (parseOr : Parse) : Parse := parseChain i .cmp (parseAdd i parseOr)
def parseAnd (parseOr : Parse) : Parse := parseChain i .and (parseCmp i parseOr)

/- The first argument bounds the parentheses still to be opened. -/
def parseOr : Nat → Parse
  | 0,_ => none
  | n+1,c => parseChain i .or (parseAnd i (parseOr n)) c

def runFilter : Option (UInt64 × Ctx) := parseOr i (rounds i) i.init

def filterValidate (f : ProbeFilter) : Int :=
  if !f.enabled || f.tokens.isEmpty then -1
  else match runFilter ⟨f.tokens,none⟩ with
    | some (_,c) => if c.ok && c.pos == f.tokens.length then 0 else -1
    | none => -1

def probeFilterEval (f : ProbeFilter) (event : Args) : Int :=
  if !f.enabled then 1
  else match runFilter ⟨f.tokens,some event⟩ with
    | some (result,c) => if !c.ok || c.pos != f.tokens.length then 0 else if result != 0 then
        1 else 0
    | none => 0

variable {i : Input}

theorem takeTrue {c c' type} (taken : take i c type = (true,c')) :
    c' = c.advance ∧ ∃ t, i.tokens[c.pos]? = some t ∧ t.type = type := by
  simp only [take,peek] at taken
  split at taken
  · next t at_ =>
    split at taken
    · next kind => cases taken; exact ⟨rfl,t,at_,kind⟩
    · cases taken
  · cases taken

theorem takeFalse {c c' type} (taken : take i c type = (false,c')) :
    c' = c ∧ ∀ t, i.tokens[c.pos]? = some t → t.type ≠ type := by
  simp only [take,peek] at taken
  split at taken
  · next t at_ =>
    split at taken
    · cases taken
    · next other =>
      cases taken
      refine ⟨rfl,fun u again => ?_⟩
      cases at_.symm.trans again
      exact other
  · next gone => cases taken; exact ⟨rfl,fun u again => by rw [gone] at again; cases again⟩

theorem takeOpSome {l c op c'} (taken : takeOp i l c = some (op,c')) :
    c' = c.advance ∧ ∃ t, i.tokens[c.pos]? = some t ∧ l.op t.type = some op := by
  simp only [takeOp,peek] at taken
  split at taken
  · next t at_ =>
    cases kind : l.op t.type with
    | none => simp [kind] at taken
    | some op' =>
      simp only [kind,Option.map_some,Option.some.injEq,Prod.mk.injEq] at taken
      obtain ⟨rfl,rfl⟩ := taken
      exact ⟨rfl,t,at_,kind⟩
  · cases taken

theorem takeOpNone {l c} (taken : takeOp i l c = none) : ∀ t, i.tokens[c.pos]? = some t →
    l.op t.type = none := by
  intro t at_
  simpa [takeOp,peek,at_] using taken

/-! Whatever the evaluator reads without complaint has a reading in the grammar. -/
def Sound (i : Input) (l : Level) (parse : Parse) : Prop :=
  ∀ c v c', parse c = some (v,c') → c'.evalEnabled = c.evalEnabled ∧
    (c'.ok = true → c.ok = true ∧ ∃ e, Parsed i.tokens (.whole l) c.pos e c'.pos)

theorem primarySound {parse}
    (inner : Sound i .or parse) : Sound i .primary (parsePrimary i parse) := by
  intro c v c' ran
  simp only [parsePrimary,peek] at ran
  split at ran
  · cases ran; exact ⟨rfl,by simp [Ctx.fail]⟩
  · next t at_ =>
    split at ran
    · next kind => cases ran; exact ⟨rfl,fun ok => ⟨ok,_,.num at_ kind⟩⟩
    · next kind => cases ran; exact ⟨rfl,fun ok => ⟨ok,_,.arg at_ kind⟩⟩
    · next kind =>
      cases first : parse c.advance with
      | none => simp [first] at ran
      | some r =>
        obtain ⟨value,d⟩ := r
        obtain ⟨same,good⟩ := inner _ _ _ first
        simp only [first,Option.bind_eq_bind,Option.bind_some,Option.some.injEq,
          Prod.mk.injEq] at ran
        obtain ⟨rfl,rfl⟩ := ran
        cases closed : take i d .rparen with
        | mk found d' =>
          cases found with
          | false =>
            obtain ⟨rfl,_⟩ := takeFalse closed
            exact ⟨same,by simp [Ctx.fail]⟩
          | true =>
            obtain ⟨rfl,u,end_,right⟩ := takeTrue closed
            refine ⟨same,fun ok => ?_⟩
            obtain ⟨before,e,read⟩ := good ok
            exact ⟨before,e,.paren at_ kind read end_ right⟩
    · cases ran; exact ⟨rfl,by simp [Ctx.fail]⟩

theorem unarySound {parse} (inner : Sound i .or parse) (n : Nat) :
    Sound i .unary (unaryLoop i parse n) := by
  induction n with
  | zero => intro c v c' ran; cases ran
  | succ n ih =>
    intro c v c' ran
    rw [unaryLoop] at ran
    split at ran
    · next d taken =>
      obtain ⟨rfl,t,at_,kind⟩ := takeTrue taken
      cases rest : unaryLoop i parse n c.advance with
      | none => simp [rest] at ran
      | some r =>
        obtain ⟨value,d⟩ := r
        obtain ⟨same,good⟩ := ih _ _ _ rest
        simp only [rest,Option.bind_eq_bind,Option.bind_some,Option.some.injEq,Prod.mk.injEq] at ran
        obtain ⟨rfl,rfl⟩ := ran
        refine ⟨same,fun ok => ?_⟩
        obtain ⟨before,e,read⟩ := good ok
        exact ⟨before,_,.not at_ kind read⟩
    · next d taken =>
      obtain ⟨rfl,other⟩ := takeFalse taken
      obtain ⟨same,good⟩ := primarySound inner _ _ _ ran
      refine ⟨same,fun ok => ?_⟩
      obtain ⟨before,e,read⟩ := good ok
      exact ⟨before,e,.plain other read⟩

theorem skippedSound {l parse c skip v c'} (inner : Sound i l parse)
    (ran : parseMaybeSkipped c skip parse = some (v,c')) : c'.evalEnabled = c.evalEnabled ∧
    (c'.ok = true → c.ok = true ∧ ∃ e, Parsed i.tokens (.whole l) c.pos e c'.pos) := by
  cases skip with
  | false => exact inner _ _ _ ran
  | true =>
    simp only [parseMaybeSkipped,parseWithEval,if_true] at ran
    cases first : parse { c with evalEnabled := false } with
    | none => simp [first] at ran
    | some r =>
      obtain ⟨value,d⟩ := r
      simp only [first,Option.bind_eq_bind,Option.bind_some,Option.some.injEq,Prod.mk.injEq] at ran
      obtain ⟨rfl,rfl⟩ := ran
      exact ⟨rfl,fun ok => (inner _ _ _ first).2 ok⟩

theorem loopSound {l operand} (inner : Sound i l.next operand) (n : Nat) {lhs c v c'}
    (ran : chainLoop i l operand n lhs c = some (v,c')) : c'.evalEnabled = c.evalEnabled ∧
    (c'.ok = true → c.ok = true ∧ ∀ left, ∃ e, Parsed i.tokens (.rest l left) c.pos e c'.pos) := by
  induction n generalizing lhs c with
  | zero => cases ran
  | succ n ih =>
    rw [chainLoop] at ran
    split at ran
    · next ok =>
      split at ran
      · next absent =>
        cases ran
        exact ⟨rfl,fun _ => ⟨ok,fun left => ⟨left,.stop (takeOpNone absent)⟩⟩⟩
      · next op d taken =>
        obtain ⟨rfl,t,at_,kind⟩ := takeOpSome taken
        cases right : parseMaybeSkipped c.advance (skipEval op c.advance.evalEnabled lhs)
          operand with
        | none => simp [right] at ran
        | some r =>
          obtain ⟨rhs,d⟩ := r
          obtain ⟨same,good⟩ := skippedSound inner right
          simp only [right,Option.bind_eq_bind,Option.bind_some] at ran
          split at ran
          · obtain ⟨same',good'⟩ := ih ran
            refine ⟨same'.trans same,fun done => ⟨ok,fun left => ?_⟩⟩
            obtain ⟨now,tail⟩ := good' done
            obtain ⟨_,r,read⟩ := good now
            obtain ⟨e,rest⟩ := tail (.bin op left r)
            exact ⟨e,.more at_ kind read rest⟩
          · cases ran; exact ⟨same,by simp [Ctx.fail]⟩
    · next bad => cases ran; exact ⟨rfl,fun ok => absurd ok bad⟩

theorem chainSound {l : Level} {operand} (binary : l.binary) (inner : Sound i l.next operand) :
    Sound i l (parseChain i l operand) := by
  intro c v c' ran
  cases first : operand c with
  | none => simp [parseChain,first] at ran
  | some r =>
    obtain ⟨lhs,d⟩ := r
    simp only [parseChain,first,Option.bind_eq_bind,Option.bind_some] at ran
    obtain ⟨same,good⟩ := inner _ _ _ first
    obtain ⟨same',good'⟩ := loopSound inner _ ran
    refine ⟨same'.trans same,fun done => ?_⟩
    obtain ⟨now,tail⟩ := good' done
    obtain ⟨before,left,read⟩ := good now
    obtain ⟨e,rest⟩ := tail left
    exact ⟨before,e,.chain binary read rest⟩

theorem orSound (n : Nat) : Sound i .or (parseOr i n) := by
  induction n with
  | zero => intro c v c' ran; cases ran
  | succ n ih =>
    have mul := chainSound (i := i) (l := .mul) ⟨by simp,by simp⟩ (unarySound ih (rounds i))
    have add := chainSound (i := i) (l := .add) ⟨by simp,by simp⟩ mul
    have cmp := chainSound (i := i) (l := .cmp) ⟨by simp,by simp⟩ add
    have and := chainSound (i := i) (l := .and) ⟨by simp,by simp⟩ cmp
    exact chainSound ⟨by simp,by simp⟩ and

/-! What the evaluator makes of a reading. Where evaluation is on, it ends with the
value of the tree, or with a complaint if the tree has none; where it is off, it
only moves to the end of the reading. -/
def Meets (args : Args) (e : Expr) (q : Nat) (on : Bool) (r : Option (UInt64 × Ctx)) : Prop :=
  ∃ v c, r = some (v,c) ∧ c.evalEnabled = on ∧
    (c.ok = true ∧ c.pos = q ∧ (on = true → e.denote args = some v) ∨
      c.ok = false ∧ on = true ∧ e.denote args = none)

def levelParse (i : Input) (n k : Nat) : Level → Parse
  | .or => parseChain i .or (parseAnd i (parseOr i n))
  | .and => parseAnd i (parseOr i n)
  | .cmp => parseCmp i (parseOr i n)
  | .add => parseAdd i (parseOr i n)
  | .mul => parseMul i (parseOr i n)
  | .unary => unaryLoop i (parseOr i n) k
  | .primary => parsePrimary i (parseOr i n)

theorem levelChain {n k} {l : Level} (binary : l.binary) :
    levelParse i n k l = parseChain i l (levelParse i n (rounds i) l.next) := by
  cases l with
  | unary => exact absurd rfl binary.1
  | primary => exact absurd rfl binary.2
  | or | and | cmp | add | mul => rfl

theorem binNone {args op l r} (none_ : Expr.denote args l = none) :
    Expr.denote args (.bin op l r) = none := by
  simp [Expr.denote,none_]

theorem restNone {ts g p e q args} (h : Parsed ts g p e q) : ∀ l left, g = .rest l left →
    left.denote args = none → e.denote args = none := by
  induction h with
  | num | arg | paren | not | plain | chain => intro l left goal; cases goal
  | stop _ => intro l left goal none_; cases goal; exact none_
  | more _ _ _ _ _ ih => intro l left goal none_; cases goal; exact ih _ _ rfl (binNone none_)

/- Where the left side does not decide, the operator computes with both sides. -/
theorem binSome {args op l r x y} (left : Expr.denote args l = some x)
    (right : Expr.denote args r = some y)
    (open_ : skipEval op true x = false) : Expr.denote args (.bin op l r) = op.compute x y := by
  have undecided : op.decided x = none := by
    cases op <;> simp_all [BinOp.decided,skipEval]
  simp only [Expr.denote,left,right,Option.bind_some,undecided]

theorem binRightNone {args op l r x} (left : Expr.denote args l = some x)
    (right : Expr.denote args r = none)
    (open_ : skipEval op true x = false) : Expr.denote args (.bin op l r) = none := by
  have undecided : op.decided x = none := by
    cases op <;> simp_all [BinOp.decided,skipEval]
  simp only [Expr.denote,left,right,Option.bind_some,undecided,Option.bind_none]

/- Where it does, the skipped side leaves no trace in the value. -/
theorem binSkipped {args op l r x} (left : Expr.denote args l = some x)
    (skip : skipEval op true x = true)
    (y : UInt64) : ∃ v, applyOp op true x y = some v ∧ Expr.denote args (.bin op l r) = some v := by
  cases op with
  | and =>
    obtain rfl : x = 0 := by simpa [skipEval] using skip
    exact ⟨0,by simp [applyOp,BinOp.compute,truth],by simp [Expr.denote,left,BinOp.decided]⟩
  | or =>
    have live : x ≠ 0 := by simpa [skipEval] using skip
    exact ⟨1,by simp [applyOp,BinOp.compute,truth,live],
      by simp [Expr.denote,left,BinOp.decided,live]⟩
  | mul | div | add | sub | eq | ne | gt | ge | lt | le => cases skip

theorem applyOff (op : BinOp) (x y : UInt64) : ∃ v, applyOp op false x y = some v := by
  cases op <;> exact ⟨_,rfl⟩

theorem applyOn (op : BinOp) (x y : UInt64) : applyOp op true x y = op.compute x y := by
  cases op <;> rfl

theorem failedLoop {l operand k lhs} {c : Ctx} (some_ : k ≠ 0) (bad : c.ok = false) :
    chainLoop i l operand k lhs c = some (lhs,c) := by
  obtain ⟨n,rfl⟩ := Nat.exists_eq_succ_of_ne_zero some_
  simp [chainLoop,bad]

def goalMeets (i : Input) (args : Args) (p : Nat) (e : Expr) (q : Nat) : Goal → Prop
  | .whole l => ∀ n k on, i.tokens.length ≤ n + p → rounds i ≤ k + p →
    (on = true → i.event = some args) →
      Meets args e q on (levelParse i n k l ⟨p,true,on⟩)
  | .rest l left => ∀ n k lhs on, i.tokens.length ≤ n + p → rounds i ≤ k + p → p ≤ i.tokens.length →
      (on = true → i.event = some args) → (on = true → left.denote args = some lhs) →
      Meets args e q on (chainLoop i l (levelParse i n (rounds i) l.next) k lhs ⟨p,true,on⟩)

theorem primaryNum {args p t on n k} (at_ : i.tokens[p]? = some t) (kind : t.type = .num) :
    Meets args (.num t.value) (p + 1) on (levelParse i n k .primary ⟨p,true,on⟩) := by
  refine ⟨t.value,⟨p + 1,true,on⟩,?_,rfl,.inl ⟨rfl,rfl,fun _ => rfl⟩⟩
  simp [levelParse,parsePrimary,peek,at_,kind,Ctx.advance]

theorem primaryArg {args p t on n k} (at_ : i.tokens[p]? = some t) (kind : t.type = .arg)
    (event : on = true → i.event = some args) :
    Meets args (.arg t.argIndex) (p + 1) on (levelParse i n k .primary ⟨p,true,on⟩) := by
  cases on with
  | false =>
    refine ⟨0,⟨p + 1,true,false⟩,?_,rfl,.inl ⟨rfl,rfl,by simp⟩⟩
    simp [levelParse,parsePrimary,peek,at_,kind,Ctx.advance]
  | true =>
    refine ⟨eventArg args t.argIndex,⟨p + 1,true,true⟩,?_,rfl,.inl ⟨rfl,rfl,fun _ => rfl⟩⟩
    simp [levelParse,parsePrimary,peek,at_,kind,Ctx.advance,event rfl]

theorem primaryParen {args p q t u e on n k} (at_ : i.tokens[p]? = some t) (left : t.type = .lparen)
    (end_ : i.tokens[q]? = some u) (right : u.type = .rparen)
    (inner : Meets args e q on (parseOr i n ⟨p + 1,true,on⟩)) :
    Meets args e (q + 1) on (levelParse i n k .primary ⟨p,true,on⟩) := by
  obtain ⟨v,c,ran,same,now⟩ := inner
  have whole : levelParse i n k .primary ⟨p,true,on⟩ =
      some (v,if (take i c .rparen).1 then
        (take i c .rparen).2 else (take i c .rparen).2.fail) := by
    simp [levelParse,parsePrimary,peek,at_,left,Ctx.advance,ran]
  rw [whole]
  rcases now with ⟨ok,pos,value⟩ | ⟨bad,on_,none_⟩
  · have closed : take i c .rparen = (true,c.advance) := by simp [take,peek,pos,end_,right]
    exact ⟨v,c.advance,by simp [closed],same,.inl ⟨ok,by simp [Ctx.advance,pos],value⟩⟩
  · cases closed : take i c .rparen with
    | mk found d =>
      cases found with
      | true =>
        obtain ⟨rfl,_⟩ := takeTrue closed
        exact ⟨v,c.advance,rfl,same,.inr ⟨bad,on_,none_⟩⟩
      | false =>
        obtain ⟨rfl,_⟩ := takeFalse closed
        exact ⟨v,d.fail,rfl,same,.inr ⟨rfl,on_,none_⟩⟩

theorem unaryNot {args p q t e on n k} (at_ : i.tokens[p]? = some t) (kind : t.type = .not)
    (inner : Meets args e q on (unaryLoop i (parseOr i n) k ⟨p + 1,true,on⟩)) :
    Meets args (.not e) q on (unaryLoop i (parseOr i n) (k + 1) ⟨p,true,on⟩) := by
  obtain ⟨v,c,ran,same,now⟩ := inner
  have taken : take i ⟨p,true,on⟩ .not = (true,⟨p + 1,true,on⟩) := by
    simp [take,peek,at_,kind,Ctx.advance]
  refine ⟨truth (v == 0),c,by simp [unaryLoop,taken,ran],same,?_⟩
  rcases now with ⟨ok,pos,value⟩ | ⟨bad,on_,none_⟩
  · exact .inl ⟨ok,pos,fun on_ => by simp [Expr.denote,value on_]⟩
  · exact .inr ⟨bad,on_,by simp [Expr.denote,none_]⟩

theorem roundMeets {args l operand k lhs q q' q'' op e r e' on}
    (right : ∀ on', (on' = true → on = true) → Meets args r q' on' (operand ⟨q + 1,true,on'⟩))
    (read : Parsed i.tokens (.rest l (.bin op e r)) q' e' q'')
    (tail : ∀ v, (on = true → (Expr.bin op e r).denote args = some v) →
      Meets args e' q'' on (chainLoop i l operand k v ⟨q',true,on⟩))
    (some_ : k ≠ 0) (left : on = true → e.denote args = some lhs)
    (taken : takeOp i l ⟨q,true,on⟩ = some (op,⟨q + 1,true,on⟩)) :
    Meets args e' q'' on (chainLoop i l operand (k + 1) lhs ⟨q,true,on⟩) := by
  simp only [chainLoop,taken,if_true]
  cases on with
  | false =>
    have open_ : skipEval op false lhs = false := by cases op <;> rfl
    obtain ⟨v,c,ran,same,now⟩ := right false id
    obtain ⟨ok,pos,_⟩ := now.resolve_right (fun bad => by simp at bad)
    obtain ⟨pos',ok',on'⟩ := c
    obtain ⟨w,applied⟩ := applyOff op lhs v
    simp only at same ok pos
    subst same ok pos
    simpa [parseMaybeSkipped,open_,ran,applied] using tail w (by simp)
  | true =>
    cases skip : skipEval op true lhs with
    | true =>
      obtain ⟨v,c,ran,same,now⟩ := right false (by simp)
      obtain ⟨ok,pos,_⟩ := now.resolve_right (fun bad => by simp at bad)
      obtain ⟨pos',ok',on'⟩ := c
      simp only at same ok pos
      subst same ok pos
      obtain ⟨w,applied,value⟩ := binSkipped (r := r) (left rfl) skip v
      simpa [parseMaybeSkipped,parseWithEval,ran,applied] using tail w (fun _ => value)
    | false =>
      obtain ⟨v,c,ran,same,now⟩ := right true id
      rcases now with ⟨ok,pos,value⟩ | ⟨bad,_,none_⟩
      · obtain ⟨pos',ok',on'⟩ := c
        simp only at same ok pos
        subst same ok pos
        have whole := binSome (left rfl) (value rfl) skip
        cases computed : op.compute lhs v with
        | some w =>
          simpa [parseMaybeSkipped,ran,applyOn,computed]
            using tail w (fun _ => whole.trans computed)
        | none =>
          refine ⟨0,⟨pos',false,true⟩,by simp [parseMaybeSkipped,ran,applyOn,computed,Ctx.fail],rfl,.inr ⟨rfl,rfl,?_⟩⟩
          exact restNone read _ _ rfl (whole.trans computed)
      · have whole := restNone read _ _ rfl (binRightNone (left rfl) none_ skip)
        cases applied : applyOp op c.evalEnabled lhs v with
        | some w =>
          refine ⟨w,c,?_,same,.inr ⟨bad,rfl,whole⟩⟩
          simpa [parseMaybeSkipped,ran,applied] using failedLoop some_ bad
        | none => exact ⟨0,c.fail,by simp [parseMaybeSkipped,ran,applied],same,.inr ⟨rfl,rfl,whole⟩⟩

theorem parsedMeets {args g p e q} (h : Parsed i.tokens g p e q) : goalMeets i args p e q g := by
  induction h with
  | num at_ kind => intro n k on _ _ _; exact primaryNum at_ kind
  | arg at_ kind => intro n k on _ _ event; exact primaryArg at_ kind event
  | paren at_ left _ end_ right ih =>
    intro n k on deep _ event
    have low := someLow at_
    cases n with
    | zero => omega
    | succ n => exact primaryParen at_ left end_ right (ih n (rounds i) on (by omega)
        (by omega) event)
  | not at_ kind _ ih =>
    intro n k on deep long event
    have low := someLow at_
    cases k with
    | zero => simp only [rounds] at long; omega
    | succ k => exact unaryNot at_ kind (ih n k on (by omega) (by omega) event)
  | @plain p q e other inner ih =>
    intro n k on deep long event
    have low := wholeMoves inner
    cases k with
    | zero => simp only [rounds] at long; omega
    | succ k =>
      have kept : take i ⟨p,true,on⟩ .not = (false,⟨p,true,on⟩) := by
        cases at_ : i.tokens[p]? with
        | none => simp [take,peek,at_]
        | some t => simp [take,peek,at_,other t at_]
      have same : levelParse i n (k + 1) .unary ⟨p,true,on⟩ =
          levelParse i n (rounds i) .primary ⟨p,true,on⟩ := by
        simp [levelParse,unaryLoop,kept]
      rw [same]
      exact ih n (rounds i) on deep (by omega) event
  | @chain l p q q' e e' binary first tail ihFirst ihTail =>
    intro n k on deep long event
    have moved := wholeMoves first
    rw [levelChain binary]
    obtain ⟨v,c,ran,same,now⟩ := ihFirst n (rounds i) on deep (by omega) event
    simp only [parseChain,ran,Option.bind_eq_bind,Option.bind_some]
    rcases now with ⟨ok,pos,value⟩ | ⟨bad,on_,none_⟩
    · obtain ⟨pos',ok',on'⟩ := c
      simp only at same ok pos
      subst same ok pos
      exact ihTail n (rounds i) v _ (by omega) (by omega) moved.2 event value
    · rw [failedLoop (by simp [rounds]) bad]
      exact ⟨v,c,rfl,same,.inr ⟨bad,on_,restNone tail _ _ rfl none_⟩⟩
  | @stop l q e none_ =>
    intro n k lhs on deep long inside event left
    cases k with
    | zero => simp only [rounds] at long; omega
    | succ k =>
      have absent : takeOp i l ⟨q,true,on⟩ = none := by
        cases at_ : i.tokens[q]? with
        | none => simp [takeOp,peek,at_]
        | some t => simp [takeOp,peek,at_,none_ t at_]
      exact ⟨lhs,⟨q,true,on⟩,by simp [chainLoop,absent],rfl,.inl ⟨rfl,rfl,left⟩⟩
  | @more l q q' q'' t op e r e' at_ kind right tail ihRight ihTail =>
    intro n k lhs on deep long inside event left
    have low := someLow at_
    have moved := wholeMoves right
    have taken : takeOp i l ⟨q,true,on⟩ = some (op,⟨q + 1,true,on⟩) := by
      simp [takeOp,peek,at_,kind,Ctx.advance]
    cases k with
    | zero => simp only [rounds] at long; omega
    | succ k =>
      simp only [rounds] at long
      refine roundMeets (fun on' less =>
        ihRight n (rounds i) on' (by omega) (by omega) (fun h => event (less h)))
        tail (fun v value => ?_) (by omega) left taken
      exact ihTail n k v on (by omega) (by simp only [rounds]; omega) moved.2 event value

theorem acceptedParts {f : ProbeFilter} (accepted : filterValidate f = 0) :
    f.enabled = true ∧ ∃ e, Derives .or e f.tokens := by
  unfold filterValidate at accepted
  split at accepted
  · cases accepted
  · next live =>
    have enabled : f.enabled = true := by
      cases on : f.enabled with
      | true => rfl
      | false => simp [on] at live
    split at accepted
    · next v c ran =>
      split at accepted
      · next done =>
        simp only [Bool.and_eq_true,beq_iff_eq] at done
        obtain ⟨_,e,read⟩ := (orSound _ _ _ _ ran).2 done.1
        rw [done.2] at read
        exact ⟨enabled,e,(readWhole _ e).mp read⟩
      · cases accepted
    · cases accepted

theorem derivedMeets {ts e} (derived : Derives .or e ts) (event : Args) :
    Meets event e ts.length true (runFilter ⟨ts,some event⟩) := by
  have read := (readWhole ts e).mpr derived
  have meets : goalMeets ⟨ts,some event⟩ event 0 e ts.length (.whole .or) := parsedMeets read
  exact meets ts.length (ts.length + 1) true (Nat.le_refl _) (Nat.le_refl _) (fun _ => rfl)

theorem derivedEval {f : ProbeFilter} {e} (enabled : f.enabled = true)
    (derived : Derives .or e f.tokens)
    (event : Args) : probeFilterEval f event = match e.denote event with
      | some v => if v = 0 then 0 else 1
      | none => 0 := by
  obtain ⟨v,c,ran,_,now⟩ := derivedMeets derived event
  simp only [probeFilterEval,enabled,ran]
  rcases now with ⟨ok,pos,value⟩ | ⟨bad,_,none_⟩
  · by_cases zero : v = 0 <;> simp [ok,pos,value rfl,zero]
  · simp [bad,none_]

/-- An accepted filter has one syntax tree, and evaluating the filter is evaluating that
tree. The array is consumed unless a division by zero is evaluated, and what stands in
a skipped operand is of no account. -/
theorem filterEvalDenotes (f : ProbeFilter) (accepted : filterValidate f = 0) :
    ∃ e, Derives .or e f.tokens ∧ (∀ e', Derives .or e' f.tokens → e' = e) ∧ ∀ event,
      (probeFilterEval f event = 1 ↔ ∃ v, e.denote event = some v ∧ v ≠ 0) ∧
      (∃ v c, runFilter ⟨f.tokens,some event⟩ = some (v,c) ∧
        (e.denote event ≠ none → c.ok = true ∧ c.pos = f.tokens.length)) ∧
      ∀ f' e' event', filterValidate f' = 0 → Derives .or e' f'.tokens → Alike event event' e e' →
        probeFilterEval f event = probeFilterEval f' event' := by
  obtain ⟨enabled,e,derived⟩ := acceptedParts accepted
  refine ⟨e,derived,fun e' other => derivesOnce other derived,fun event => ⟨?_,?_,?_⟩⟩
  · rw [derivedEval enabled derived event]
    cases value : e.denote event with
    | none => simp
    | some v => by_cases zero : v = 0 <;> simp [zero]
  · obtain ⟨v,c,ran,_,now⟩ := derivedMeets derived event
    refine ⟨v,c,ran,fun some_ => ?_⟩
    rcases now with ⟨ok,pos,_⟩ | ⟨_,_,none_⟩
    · exact ⟨ok,pos⟩
    · exact absurd none_ some_
  · intro f' e' event' accepted' derived' alike
    rw [derivedEval enabled derived event,derivedEval (acceptedParts accepted').1 derived' event',
      alikeDenote alike]

/- arg0 && 1 / arg1, with arg0 zero and arg1 zero: the division is not looked at. -/
def guardedDivision : ProbeFilter :=
  ⟨1,true,[],[⟨.arg,0,0⟩,⟨.and,0,0⟩,⟨.num,0,1⟩,⟨.div,0,0⟩,⟨.arg,1,0⟩]⟩

theorem guardedDivisionDenotes : filterValidate guardedDivision = 0 ∧
    ∃ e, Derives .or e guardedDivision.tokens ∧
      (∀ e', Derives .or e' guardedDivision.tokens → e' = e) ∧ ∀ event,
      (probeFilterEval guardedDivision event = 1 ↔ ∃ v, e.denote event = some v ∧ v ≠ 0) ∧
      (∃ v c, runFilter ⟨guardedDivision.tokens,some event⟩ = some (v,c) ∧
        (e.denote event ≠ none → c.ok = true ∧ c.pos = guardedDivision.tokens.length)) ∧
      ∀ f' e' event', filterValidate f' = 0 → Derives .or e' f'.tokens → Alike event event' e e' →
        probeFilterEval guardedDivision event = probeFilterEval f' event' :=
  ⟨by decide,filterEvalDenotes guardedDivision (by decide)⟩

end ZeroTrace.FilterEval
