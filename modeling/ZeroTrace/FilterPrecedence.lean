import ZeroTrace.FilterText

/-! The grammar of C beside that of the filters. C reads < <= > >= before == and !=, the
filters read all six from left to right, and nothing else is different. -/
namespace ZeroTrace.FilterPrecedence
open FilterSyntax FilterGrammar FilterEval FilterLexer

inductive CLevel where
  | or | and | equality | relational | add | mul | unary | primary
  deriving DecidableEq, Repr

def CLevel.next : CLevel → CLevel
  | .or => .and
  | .and => .equality
  | .equality => .relational
  | .relational => .add
  | .add => .mul
  | .mul => .unary
  | .unary => .primary
  | .primary => .primary

def CLevel.op : CLevel → TokenType → Option BinOp
  | .or,.or => some .or
  | .and,.and => some .and
  | .equality,.eq => some .eq
  | .equality,.ne => some .ne
  | .relational,.gt => some .gt
  | .relational,.ge => some .ge
  | .relational,.lt => some .lt
  | .relational,.le => some .le
  | .add,.add => some .add
  | .add,.sub => some .sub
  | .mul,.mul => some .mul
  | .mul,.div => some .div
  | _,_ => none

def CLevel.binary (l : CLevel) : Prop := l ≠ .unary ∧ l ≠ .primary

inductive CDerives : CLevel → Expr → List Token → Prop where
  | num {t : Token} (kind : t.type = .num) : CDerives .primary (.num t.value) [t]
  | arg {t : Token} (kind : t.type = .arg) : CDerives .primary (.arg t.argIndex) [t]
  | paren {t u : Token} {e ts} (left : t.type = .lparen) (inner : CDerives .or e ts)
      (right : u.type = .rparen) :
      CDerives .primary e (t::(ts ++ [u]))
  | not {t : Token} {e ts} (kind : t.type = .not) (inner : CDerives .unary e ts) :
      CDerives .unary (.not e) (t::ts)
  | plain {e ts} (inner : CDerives .primary e ts) : CDerives .unary e ts
  | single {l : CLevel} {e ts} (chain : l.binary) (inner : CDerives l.next e ts) : CDerives l e ts
  | chain {l : CLevel} {t : Token} {op a b ts us} (left : CDerives l a ts)
      (kind : l.op t.type = some op)
      (right : CDerives l.next b us) : CDerives l (.bin op a b) (ts ++ t::us)

/-! Where a relational operator comes behind an equality operator of the same chain. A chain
ends at && and ||, and a parenthesis has its own. -/
structure Scan where
  seen : Bool
  outer : List Bool
  mixed : Bool
  deriving DecidableEq, Repr

def Scan.step (s : Scan) : TokenType → Scan
  | .lparen => ⟨false,s.seen::s.outer,s.mixed⟩
  | .rparen => ⟨s.outer.head?.getD false,s.outer.tail,s.mixed⟩
  | .and | .or => ⟨false,s.outer,s.mixed⟩
  | .eq | .ne => ⟨true,s.outer,s.mixed⟩
  | .gt | .ge | .lt | .le => ⟨s.seen,s.outer,s.mixed || s.seen⟩
  | _ => s

def scan (s : Scan) (ts : List Token) : Scan := ts.foldl (fun s t => s.step t.type) s

def mixedChain (ts : List Token) : Bool := (scan ⟨false,[],false⟩ ts).mixed

theorem scanAppend (s : Scan) (ts us : List Token) : scan s (ts ++ us) = scan (scan s ts) us :=
  List.foldl_append

theorem scanCons (s : Scan) (t : Token)
    (ts : List Token) : scan s (t::ts) = scan (s.step t.type) ts := rfl

/- Tokens inside an operand of a comparison. -/
def Through (ts : List Token) (m : Bool) : Prop := ∀ b st x, scan ⟨b,st,x⟩ ts = ⟨b,st,x || m⟩

/- Tokens from the start of a comparison on. -/
def Fresh (ts : List Token) (q m : Bool) : Prop := ∀ st x, scan ⟨false,st,x⟩ ts = ⟨q,st,x || m⟩

theorem throughOne {t : Token} (other : ∀ s : Scan, s.step t.type = s) : Through [t] false := by
  intro b st x
  rw [scanCons,other,Bool.or_false]
  rfl

theorem throughChain {t : Token} {ts us : List Token} {m n : Bool}
    (other : ∀ s : Scan, s.step t.type = s) (left : Through ts m)
    (right : Through us n) : Through (ts ++ t::us) (m || n) := by
  intro b st x
  rw [scanAppend,left,scanCons,other,right,Bool.or_assoc]

theorem throughParen {t u : Token} {ts : List Token} {q m : Bool} (left : t.type = .lparen)
    (inner : Fresh ts q m) (right : u.type = .rparen) :
    Through (t::(ts ++ [u])) m := by
  intro b st x
  rw [scanCons,left,scanAppend]
  simp only [Scan.step]
  rw [inner,scanCons,right]
  rfl

theorem freshChain {t : Token} {ts us : List Token} {q m p n : Bool}
    (reset : ∀ s : Scan, s.step t.type = ⟨false,s.outer,s.mixed⟩)
    (left : Fresh ts q m) (right : Fresh us p n) : Fresh (ts ++ t::us) p (m || n) := by
  intro st x
  rw [scanAppend,left,scanCons,reset,right,Bool.or_assoc]

theorem freshThrough {ts : List Token} {m : Bool} (through : Through ts m) : Fresh ts false m :=
  fun st x => through false st x

/-! The tree of the filter grammar for the same tokens. It is the tree of C exactly when no
chain is mixed. -/
def Inner (l : Level) (e' : Expr) (ts : List Token) : Prop := ∃ e m, Derives l e ts ∧ Through ts m ∧
    (e = e' ↔ m = false)

def Outer (l : Level) (e' : Expr) (ts : List Token) : Prop :=
  ∃ e q m, Derives l e ts ∧ Fresh ts q m ∧ (e = e' ↔ m = false)

/- Behind an equality operator, what C takes for its right operand goes on to the left. -/
def Grafts (e' : Expr) (ts : List Token) : Prop := ∀ a as (t : Token) op, Derives .cmp a as →
    CLevel.equality.op t.type = some op →
  ∃ e m, Derives .cmp e (as ++ t::ts) ∧ (∀ st x, scan ⟨true,st,x⟩ ts = ⟨true,st,x || m⟩) ∧
    ∀ a', e = .bin op a' e' ↔ a = a' ∧ m = false

def Regroups : CLevel → Expr → List Token → Prop
  | .or,e',ts => Outer .or e' ts
  | .and,e',ts => Outer .and e' ts
  | .equality,e',ts => Outer .cmp e' ts
  | .relational,e',ts => (∃ e m, Derives .cmp e ts ∧ Fresh ts false m ∧ (e = e' ↔ m = false)) ∧
      Grafts e' ts
  | .add,e',ts => Inner .add e' ts
  | .mul,e',ts => Inner .mul e' ts
  | .unary,e',ts => Inner .unary e' ts
  | .primary,e',ts => Inner .primary e' ts

theorem sameBin {op : BinOp} {a a' b b' : Expr} {m n : Bool} (left : a = a' ↔ m = false)
    (right : b = b' ↔ n = false) :
    Expr.bin op a b = .bin op a' b' ↔ (m || n) = false := by
  simp only [Expr.bin.injEq,true_and,Bool.or_eq_false_iff,left,right]

theorem innerSingle {l : Level} {e' : Expr} {ts : List Token} (binary : l.binary)
    (inner : Inner l.next e' ts) : Inner l e' ts := by
  obtain ⟨e,m,derived,through,same⟩ := inner
  exact ⟨e,m,.single binary derived,through,same⟩

theorem outerSingle {l : Level} {e' : Expr} {ts : List Token} (binary : l.binary)
    (inner : Outer l.next e' ts) : Outer l e' ts := by
  obtain ⟨e,q,m,derived,fresh,same⟩ := inner
  exact ⟨e,q,m,.single binary derived,fresh,same⟩

theorem innerChain {l : Level} {t : Token} {op : BinOp} {a' b' : Expr} {ts us : List Token}
    (left : Inner l a' ts) (kind : l.op t.type = some op)
    (other : ∀ s : Scan, s.step t.type = s) (right : Inner l.next b' us) :
    Inner l (.bin op a' b') (ts ++ t::us) := by
  obtain ⟨a,m,derived,through,same⟩ := left
  obtain ⟨b,n,derived',through',same'⟩ := right
  exact ⟨_,m || n,.chain derived kind derived',throughChain other through through',
    sameBin same same'⟩

theorem outerChain {l : Level} {t : Token} {op : BinOp} {a' b' : Expr} {ts us : List Token}
    (left : Outer l a' ts) (kind : l.op t.type = some op)
    (reset : ∀ s : Scan, s.step t.type = ⟨false,s.outer,s.mixed⟩) (right : Outer l.next b' us) :
    Outer l (.bin op a' b') (ts ++ t::us) := by
  obtain ⟨a,q,m,derived,fresh,same⟩ := left
  obtain ⟨b,p,n,derived',fresh',same'⟩ := right
  exact ⟨_,p,m || n,.chain derived kind derived',freshChain reset fresh fresh',sameBin same same'⟩

/- The operators of C's levels among those of the filters, and what the scan does at them. -/
def CLevel.level : CLevel → Level
  | .or => .or
  | .and => .and
  | .equality | .relational => .cmp
  | .add => .add
  | .mul => .mul
  | .unary => .unary
  | .primary => .primary

def CLevel.scanned (s : Scan) : CLevel → Scan
  | .or | .and => ⟨false,s.outer,s.mixed⟩
  | .equality => ⟨true,s.outer,s.mixed⟩
  | .relational => ⟨s.seen,s.outer,s.mixed || s.seen⟩
  | _ => s

theorem opKind {l : CLevel} {type : TokenType} {op : BinOp} (kind : l.op type = some op) :
    l.level.op type = some op ∧ ∀ s : Scan, s.step type = l.scanned s := by
  cases l <;> cases type <;> cases kind <;> exact ⟨rfl,fun _ => rfl⟩

theorem opsApart {type type' : TokenType} {op op' : BinOp}
    (equality : CLevel.equality.op type = some op)
    (relational : CLevel.relational.op type' = some op') : op' ≠ op := by
  cases type <;> cases equality <;> cases type' <;> cases relational <;> simp

theorem relationalSingle {e' : Expr} {ts : List Token} (inner : Inner .add e' ts) :
    Regroups .relational e' ts := by
  obtain ⟨e,m,derived,through,same⟩ := inner
  refine ⟨⟨e,m,.single ⟨by simp,by simp⟩ derived,freshThrough through,same⟩,
    fun a as t op left kind => ?_⟩
  refine ⟨.bin op a e,m,.chain left (opKind kind).1 derived,fun st x => through true st x,
    fun a' => ?_⟩
  simp only [Expr.bin.injEq,true_and,same]

/- A chain is torn: its operator ends up above the equality operator. -/
theorem relationalChain {t : Token} {op : BinOp} {a' b' : Expr} {ts us : List Token}
    (left : Regroups .relational a' ts)
    (kind : CLevel.relational.op t.type = some op) (right : Inner .add b' us) :
    Regroups .relational (.bin op a' b') (ts ++ t::us) := by
  obtain ⟨⟨a,m,derived,fresh,same⟩,grafts⟩ := left
  obtain ⟨b,n,derived',through,same'⟩ := right
  obtain ⟨cmp,steps⟩ := opKind kind
  refine ⟨⟨.bin op a b,m || n,.chain derived cmp derived',fun st x => ?_,sameBin same same'⟩,
    fun c cs u eqOp first equality => ?_⟩
  · rw [scanAppend,fresh,scanCons,steps,CLevel.scanned,Bool.or_false,through,Bool.or_assoc]
  · obtain ⟨e,k,whole,scans,_⟩ := grafts c cs u eqOp first equality
    refine ⟨.bin op e b,true,?_,fun st x => ?_,fun c' => ?_⟩
    · have chained := Derives.chain whole cmp derived'
      rwa [List.append_assoc,List.cons_append] at chained
    · rw [scanAppend,scans,scanCons,steps,CLevel.scanned,through]
      simp
    · simp [opsApart equality kind]

theorem equalityChain {t : Token} {op : BinOp} {a' b' : Expr} {ts us : List Token}
    (left : Outer .cmp a' ts)
    (kind : CLevel.equality.op t.type = some op) (right : Regroups .relational b' us) :
    Outer .cmp (.bin op a' b') (ts ++ t::us) := by
  obtain ⟨a,q,m,derived,fresh,same⟩ := left
  obtain ⟨e,n,whole,scans,grafted⟩ := right.2 a ts t op derived kind
  refine ⟨e,true,m || n,whole,fun st x => ?_,?_⟩
  · rw [scanAppend,fresh,scanCons,(opKind kind).2,CLevel.scanned,scans,Bool.or_assoc]
  · rw [grafted a',same,Bool.or_eq_false_iff]

theorem regroups {l : CLevel} {e' : Expr} {ts : List Token}
    (h : CDerives l e' ts) : Regroups l e' ts := by
  induction h with
  | num kind => exact ⟨_,false,.num kind,throughOne fun s => by rw [kind]; rfl,by simp⟩
  | arg kind => exact ⟨_,false,.arg kind,throughOne fun s => by rw [kind]; rfl,by simp⟩
  | paren left _ right ih =>
    obtain ⟨e,q,m,derived,fresh,same⟩ := ih
    exact ⟨e,m,.paren left derived right,throughParen left fresh right,same⟩
  | not kind _ ih =>
    obtain ⟨e,m,derived,through,same⟩ := ih
    refine ⟨.not e,m,.not kind derived,fun b st x => ?_,by rw [Expr.not.injEq,same]⟩
    rw [scanCons,kind]
    exact through b st x
  | plain _ ih =>
    obtain ⟨e,m,derived,through,same⟩ := ih
    exact ⟨e,m,.plain derived,through,same⟩
  | @single l _ _ binary _ ih =>
    cases l with
    | or => exact outerSingle ⟨by simp,by simp⟩ ih
    | and => exact outerSingle ⟨by simp,by simp⟩ ih
    | equality =>
      obtain ⟨⟨e,m,derived,fresh,same⟩,_⟩ := ih
      exact ⟨e,false,m,derived,fresh,same⟩
    | relational => exact relationalSingle ih
    | add => exact innerSingle ⟨by simp,by simp⟩ ih
    | mul => exact innerSingle ⟨by simp,by simp⟩ ih
    | unary => exact absurd rfl binary.1
    | primary => exact absurd rfl binary.2
  | @chain l _ _ _ _ _ _ _ kind _ left right =>
    cases l with
    | or => exact outerChain left (opKind kind).1 (opKind kind).2 right
    | and => exact outerChain left (opKind kind).1 (opKind kind).2 right
    | equality => exact equalityChain left kind right
    | relational => exact relationalChain left kind right
    | add => exact innerChain left (opKind kind).1 (opKind kind).2 right
    | mul => exact innerChain left (opKind kind).1 (opKind kind).2 right
    | unary => cases kind
    | primary => cases kind

/-! Every filter has a tree in C. A comparison chain is one of relational operators alone, or
an equality operator with such a chain behind it. -/
def Comparison (ts : List Token) : Prop := (∃ e, CDerives .relational e ts) ∨
  ∃ x y op xs ys, ∃ t : Token, ts = xs ++ t::ys ∧ CDerives .equality x xs ∧
    CLevel.equality.op t.type = some op ∧ CDerives .relational y ys

theorem comparisonDerives {ts : List Token} (h : Comparison ts) : ∃ e, CDerives .equality e ts := by
  rcases h with ⟨e,alone⟩ | ⟨x,y,op,xs,ys,t,rfl,left,kind,right⟩
  · exact ⟨e,.single ⟨by simp,by simp⟩ alone⟩
  · exact ⟨_,.chain left kind right⟩

theorem comparisonMore {t : Token} {op : BinOp} {b : Expr} {ts us : List Token}
    (left : Comparison ts) (kind : Level.cmp.op t.type = some op)
    (right : CDerives .add b us) : Comparison (ts ++ t::us) := by
  have split : CLevel.equality.op t.type = some op ∨ CLevel.relational.op t.type = some op := by
    generalize t.type = type at kind ⊢
    cases type <;> cases kind <;> simp [CLevel.op]
  rcases split with equality | relational
  · obtain ⟨a,derived⟩ := comparisonDerives left
    exact .inr ⟨a,b,op,ts,us,t,rfl,derived,equality,.single ⟨by simp,by simp⟩ right⟩
  · rcases left with ⟨e,alone⟩ | ⟨x,y,eqOp,xs,ys,u,rfl,first,equality,last⟩
    · exact .inl ⟨_,.chain alone relational right⟩
    · exact .inr ⟨x,_,eqOp,xs,ys ++ t::us,u,by simp,first,equality,.chain last relational right⟩

def HasTree : Level → List Token → Prop
  | .or,ts => ∃ e, CDerives .or e ts
  | .and,ts => ∃ e, CDerives .and e ts
  | .cmp,ts => Comparison ts
  | .add,ts => ∃ e, CDerives .add e ts
  | .mul,ts => ∃ e, CDerives .mul e ts
  | .unary,ts => ∃ e, CDerives .unary e ts
  | .primary,ts => ∃ e, CDerives .primary e ts

theorem singleTree {l : CLevel} {ts : List Token} (binary : l.binary)
    (h : ∃ e, CDerives l.next e ts) : ∃ e, CDerives l e ts := by
  obtain ⟨e,derived⟩ := h
  exact ⟨e,.single binary derived⟩

theorem chainTree {l : CLevel} {t : Token} {op : BinOp} {ts us : List Token}
    (left : ∃ e, CDerives l e ts) (kind : l.op t.type = some op)
    (right : ∃ e, CDerives l.next e us) : ∃ e, CDerives l e (ts ++ t::us) := by
  obtain ⟨a,first⟩ := left
  obtain ⟨b,last⟩ := right
  exact ⟨_,.chain first kind last⟩

theorem sameOps {type : TokenType} {op : BinOp} :
    (Level.or.op type = some op → CLevel.or.op type = some op) ∧
    (Level.and.op type = some op → CLevel.and.op type = some op) ∧
      (Level.add.op type = some op → CLevel.add.op type = some op) ∧
    (Level.mul.op type = some op → CLevel.mul.op type = some op) := by
  refine ⟨?_,?_,?_,?_⟩ <;> intro kind <;> cases type <;> cases kind <;> rfl

theorem hasTree {l : Level} {e : Expr} {ts : List Token} (h : Derives l e ts) : HasTree l ts := by
  induction h with
  | num kind => exact ⟨_,.num kind⟩
  | arg kind => exact ⟨_,.arg kind⟩
  | paren left _ right ih =>
    obtain ⟨e,derived⟩ := ih
    exact ⟨e,.paren left derived right⟩
  | not kind _ ih =>
    obtain ⟨e,derived⟩ := ih
    exact ⟨_,.not kind derived⟩
  | plain _ ih =>
    obtain ⟨e,derived⟩ := ih
    exact ⟨e,.plain derived⟩
  | @single l _ _ binary _ ih =>
    cases l with
    | or => exact singleTree (l := .or) ⟨by simp,by simp⟩ ih
    | and => exact singleTree (l := .and) ⟨by simp,by simp⟩ (comparisonDerives ih)
    | cmp => exact .inl (singleTree (l := .relational) ⟨by simp,by simp⟩ ih)
    | add => exact singleTree (l := .add) ⟨by simp,by simp⟩ ih
    | mul => exact singleTree (l := .mul) ⟨by simp,by simp⟩ ih
    | unary => exact absurd rfl binary.1
    | primary => exact absurd rfl binary.2
  | @chain l _ _ _ _ _ _ _ kind _ left right =>
    cases l with
    | or => exact chainTree (l := .or) left (sameOps.1 kind) right
    | and => exact chainTree (l := .and) left (sameOps.2.1 kind) (comparisonDerives right)
    | cmp =>
      obtain ⟨b,last⟩ := right
      exact comparisonMore left kind last
    | add => exact chainTree (l := .add) left (sameOps.2.2.1 kind) right
    | mul => exact chainTree (l := .mul) left (sameOps.2.2.2 kind) right
    | unary => cases kind
    | primary => cases kind

/- What a tree says of an event: a division by zero that is evaluated makes it false. -/
def verdict (e : Expr) (event : Args) : Int := match e.denote event with
  | some v => if v = 0 then 0 else 1
  | none => 0

theorem compiledParts {s : List Char} {f : ProbeFilter} (compiled : probeFilterCompile s = (0,f)) :
    f.enabled = true ∧ ∃ e, Derives .or e f.tokens := by
  simp only [probeFilterCompile] at compiled
  split at compiled
  · cases compiled
  · split at compiled
    · next g _ =>
      obtain ⟨accepted,rfl⟩ := Prod.mk.injEq .. ▸ compiled
      exact acceptedParts accepted
    · cases compiled

/-- A filter is read as C would read it exactly when no chain of comparisons has a relational
operator behind an equality operator, and then it says what C would say. -/
theorem groupsAsC {s : List Char} {f : ProbeFilter} (compiled : probeFilterCompile s = (0,f)) :
    (∃ e, CDerives .or e f.tokens) ∧
    ∀ e, CDerives .or e f.tokens → (Derives .or e f.tokens ↔ mixedChain f.tokens = false) ∧
      (mixedChain f.tokens = false → ∀ event, probeFilterEval f event = verdict e event) := by
  obtain ⟨enabled,_,accepted⟩ := compiledParts compiled
  refine ⟨hasTree accepted,fun e' tree => ?_⟩
  obtain ⟨e,q,m,derived,fresh,same⟩ : Outer .or e' f.tokens := regroups tree
  have mixed : mixedChain f.tokens = m := by rw [mixedChain,fresh,Bool.false_or]
  have equal : Derives .or e' f.tokens ↔ mixedChain f.tokens = false := by
    rw [mixed,← same]
    exact ⟨fun other => derivesOnce derived other,fun is => is ▸ derived⟩
  exact ⟨equal,fun unmixed event => derivedEval enabled (equal.mpr unmixed) event⟩

/- 1 < 2 == 1, and 2 == 3 < 1 -/
def lessThenEqual : List Char := ['1',' ','<',' ','2',' ','=','=',' ','1']
def equalThenLess : List Char := ['2',' ','=','=',' ','3',' ','<',' ','1']

def lessThenEqualFilter : ProbeFilter :=
  ⟨0,true,lessThenEqual,[⟨.num,0,1⟩,⟨.lt,0,0⟩,⟨.num,0,2⟩,⟨.eq,0,0⟩,⟨.num,0,1⟩]⟩
def equalThenLessFilter : ProbeFilter :=
  ⟨0,true,equalThenLess,[⟨.num,0,2⟩,⟨.eq,0,0⟩,⟨.num,0,3⟩,⟨.lt,0,0⟩,⟨.num,0,1⟩]⟩

theorem lessThenEqualAsC : probeFilterCompile lessThenEqual = (0,lessThenEqualFilter) ∧
    ∃ e, CDerives .or e lessThenEqualFilter.tokens ∧
      ∀ event, probeFilterEval lessThenEqualFilter event = verdict e event := by
  have compiled : probeFilterCompile lessThenEqual = (0,lessThenEqualFilter) := by decide
  obtain ⟨⟨e,tree⟩,all⟩ := groupsAsC compiled
  exact ⟨compiled,e,tree,(all e tree).2 rfl⟩

theorem numAdd {v : UInt64} : CDerives .add (.num v) [⟨.num,0,v⟩] := by
  have mul : CDerives .mul (.num v) [⟨.num,0,v⟩] :=
    .single ⟨by decide,by decide⟩ (.plain (@CDerives.num ⟨.num,0,v⟩ rfl))
  exact .single ⟨by decide,by decide⟩ mul

theorem equalThenLessDiffers : probeFilterCompile equalThenLess = (0,equalThenLessFilter) ∧
    CDerives .or (.bin .eq (.num 2) (.bin .lt (.num 3) (.num 1))) equalThenLessFilter.tokens ∧
    probeFilterEval equalThenLessFilter (fun _ => 0) = 1 ∧
      verdict (.bin .eq (.num 2) (.bin .lt (.num 3) (.num 1))) (fun _ => 0) = 0 := by
  have alone : ∀ v, CDerives .relational (.num v) [⟨.num,0,v⟩] :=
    fun v => .single ⟨by decide,by decide⟩ numAdd
  have right : CDerives .relational (.bin .lt (.num 3) (.num 1)) [⟨.num,0,3⟩,⟨.lt,0,0⟩,
      ⟨.num,0,1⟩] :=
    @CDerives.chain .relational ⟨.lt,0,0⟩ .lt _ _ [⟨.num,0,3⟩] [⟨.num,0,1⟩] (alone 3) rfl numAdd
  have whole : CDerives .equality (.bin .eq (.num 2) (.bin .lt (.num 3) (.num 1)))
      equalThenLessFilter.tokens :=
    @CDerives.chain .equality ⟨.eq,0,0⟩ .eq _ _ [⟨.num,0,2⟩] _
      (.single ⟨by decide,by decide⟩ (alone 2)) rfl right
  exact ⟨by decide,.single ⟨by decide,by decide⟩ (.single ⟨by decide,by decide⟩ whole),by decide,
    by decide⟩

end ZeroTrace.FilterPrecedence
