import Mathlib.Logic.Basic
import Mathlib.Data.UInt

/-! Filter tokens, the grammar they are read with and what a syntax tree means.
The meaning is over 64-bit words that wrap. A tree has no meaning where a
division by zero is evaluated. -/
namespace ZeroTrace.FilterSyntax

inductive TokenType where
  | end_ | arg | num
  | eq | ne | gt | ge | lt | le
  | and | or | not
  | add | sub | mul | div
  | lparen | rparen
  | other (code : UInt8)
  deriving DecidableEq, Repr

structure Token where
  type : TokenType
  argIndex : UInt8
  value : UInt64
  deriving DecidableEq, Repr

def tokenCap : Nat := 64

/- The token array is cut at token_count. -/
structure ProbeFilter where
  probeId : Nat
  enabled : Bool
  expr : List Char
  tokens : List Token
  deriving DecidableEq, Repr

abbrev Args := Fin 6 → UInt64

def eventArg (args : Args) (index : UInt8) : UInt64 :=
  if h : index.toNat < 6 then args ⟨index.toNat,h⟩ else 0

inductive BinOp where
  | mul | div | add | sub | eq | ne | gt | ge | lt | le | and | or
  deriving DecidableEq, Repr

inductive Level where
  | or | and | cmp | add | mul | unary | primary
  deriving DecidableEq, Repr

def Level.next : Level → Level
  | .or => .and
  | .and => .cmp
  | .cmp => .add
  | .add => .mul
  | .mul => .unary
  | .unary => .primary
  | .primary => .primary

def Level.rank : Level → Nat
  | .or => 0
  | .and => 1
  | .cmp => 2
  | .add => 3
  | .mul => 4
  | .unary => 5
  | .primary => 6

def Level.op : Level → TokenType → Option BinOp
  | .or,.or => some .or
  | .and,.and => some .and
  | .cmp,.eq => some .eq
  | .cmp,.ne => some .ne
  | .cmp,.gt => some .gt
  | .cmp,.ge => some .ge
  | .cmp,.lt => some .lt
  | .cmp,.le => some .le
  | .add,.add => some .add
  | .add,.sub => some .sub
  | .mul,.mul => some .mul
  | .mul,.div => some .div
  | _,_ => none

def Level.binary (l : Level) : Prop := l ≠ .unary ∧ l ≠ .primary

theorem opBinary {l : Level} {type op} (found : l.op type = some op) : l.binary := by
  cases l with
  | unary => cases found
  | primary => cases found
  | or | and | cmp | add | mul => exact ⟨by simp,by simp⟩

/- No token is an operator of two levels. -/
theorem opOnce {l m : Level} {type op op'} (here : l.op type = some op)
    (there : m.op type = some op') : l = m := by
  cases l <;> cases m <;> cases type <;> simp [Level.op] at here there ⊢

inductive Expr where
  | num (value : UInt64)
  | arg (index : UInt8)
  | not (e : Expr)
  | bin (op : BinOp) (left right : Expr)
  deriving DecidableEq, Repr

/-! `or := and (|| and)*`, and so on down to `primary := NUM | ARG | ( or )`; a
chain groups to the left. -/
inductive Derives : Level → Expr → List Token → Prop where
  | num {t : Token} (kind : t.type = .num) : Derives .primary (.num t.value) [t]
  | arg {t : Token} (kind : t.type = .arg) : Derives .primary (.arg t.argIndex) [t]
  | paren {t u : Token} {e ts} (left : t.type = .lparen) (inner : Derives .or e ts)
      (right : u.type = .rparen) :
      Derives .primary e (t :: (ts ++ [u]))
  | not {t : Token} {e ts} (kind : t.type = .not) (inner : Derives .unary e ts) :
      Derives .unary (.not e) (t::ts)
  | plain {e ts} (inner : Derives .primary e ts) : Derives .unary e ts
  | single {l : Level} {e ts} (chain : l.binary) (inner : Derives l.next e ts) : Derives l e ts
  | chain {l : Level} {t : Token} {op a b ts us} (left : Derives l a ts)
      (kind : l.op t.type = some op)
      (right : Derives l.next b us) : Derives l (.bin op a b) (ts ++ t::us)

def truth (b : Bool) : UInt64 := if b then 1 else 0

def BinOp.compute : BinOp → UInt64 → UInt64 → Option UInt64
  | .mul,x,y => some (x * y)
  | .div,x,y => if y = 0 then none else some (x / y)
  | .add,x,y => some (x + y)
  | .sub,x,y => some (x - y)
  | .eq,x,y => some (truth (x == y))
  | .ne,x,y => some (truth (x != y))
  | .gt,x,y => some (truth (x > y))
  | .ge,x,y => some (truth (x ≥ y))
  | .lt,x,y => some (truth (x < y))
  | .le,x,y => some (truth (x ≤ y))
  | .and,x,y => some (truth (x != 0 && y != 0))
  | .or,x,y => some (truth (x != 0 || y != 0))

/- The left side alone decides, and the right side is not looked at. -/
def BinOp.decided : BinOp → UInt64 → Option UInt64
  | .and,x => if x = 0 then some 0 else none
  | .or,x => if x = 0 then none else some 1
  | _,_ => none

def Expr.denote (args : Args) : Expr → Option UInt64
  | .num v => some v
  | .arg i => some (eventArg args i)
  | .not e => (e.denote args).map (fun v => truth (v == 0))
  | .bin op l r => (l.denote args).bind fun x => match op.decided x with
    | some v => some v
    | none => (r.denote args).bind (op.compute x)

/-! Two trees that agree wherever the first is evaluated. Operands that are skipped
may be anything, and so may the arguments they mention. -/
inductive Alike (args args' : Args) : Expr → Expr → Prop where
  | num (v) : Alike args args' (.num v) (.num v)
  | arg {i j} (same : eventArg args i = eventArg args' j) : Alike args args' (.arg i) (.arg j)
  | not {e e'} (inner : Alike args args' e e') : Alike args args' (.not e) (.not e')
  | bin {op l l' r r'} (left : Alike args args' l l') (right : Alike args args' r r') :
      Alike args args' (.bin op l r) (.bin op l' r')
  | skipped {op l l' r r' x v} (left : Alike args args' l l') (value : l.denote args = some x)
      (decided : BinOp.decided op x = some v) : Alike args args' (.bin op l r) (.bin op l' r')

theorem alikeDenote {args args' e e'}
    (h : Alike args args' e e') : e.denote args = e'.denote args' := by
  induction h with
  | num v => rfl
  | arg same => simp only [Expr.denote,same]
  | not _ ih => simp only [Expr.denote,ih]
  | bin _ _ left right => simp only [Expr.denote,left,right]
  | skipped _ value decided left =>
    have value' := left.symm.trans value
    simp only [Expr.denote,value,value',Option.bind_some,decided]

end ZeroTrace.FilterSyntax
