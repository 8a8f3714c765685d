import ZeroTrace.FilterSyntax

/-! The grammar read from left to right with one token of lookahead. A position has
at most one reading, and the readings of a whole array are its derivations. -/
namespace ZeroTrace.FilterGrammar
open FilterSyntax

inductive Goal where
  | whole (level : Level)
  | rest (level : Level) (left : Expr)

inductive Parsed (ts : List Token) : Goal → Nat → Expr → Nat → Prop where
  | num {p t} (at_ : ts[p]? = some t) (kind : t.type = .num) :
      Parsed ts (.whole .primary) p (.num t.value) (p + 1)
  | arg {p t} (at_ : ts[p]? = some t) (kind : t.type = .arg) :
      Parsed ts (.whole .primary) p (.arg t.argIndex) (p + 1)
  | paren {p q t u e} (at_ : ts[p]? = some t) (left : t.type = .lparen)
      (inner : Parsed ts (.whole .or) (p + 1) e q)
      (end_ : ts[q]? = some u) (right : u.type = .rparen) : Parsed ts (.whole .primary) p e (q + 1)
  | not {p q t e} (at_ : ts[p]? = some t) (kind : t.type = .not)
      (inner : Parsed ts (.whole .unary) (p + 1) e q) :
      Parsed ts (.whole .unary) p (.not e) q
  | plain {p q e} (other : ∀ t, ts[p]? = some t → t.type ≠ .not)
      (inner : Parsed ts (.whole .primary) p e q) :
      Parsed ts (.whole .unary) p e q
  | chain {l : Level} {p q q' e e'} (binary : l.binary) (first : Parsed ts (.whole l.next) p e q)
      (tail : Parsed ts (.rest l e) q e' q') : Parsed ts (.whole l) p e' q'
  | stop {l : Level} {q e} (none_ : ∀ t, ts[q]? = some t → l.op t.type = none) :
      Parsed ts (.rest l e) q e q
  | more {l : Level} {q q' q'' t op e r e'} (at_ : ts[q]? = some t) (kind : l.op t.type = some op)
      (right : Parsed ts (.whole l.next) (q + 1) r q')
        (tail : Parsed ts (.rest l (.bin op e r)) q' e' q'') :
      Parsed ts (.rest l e) q e' q''

variable {ts : List Token}

theorem someLow {p : Nat} {t : Token} (at_ : ts[p]? = some t) : p < ts.length :=
  (List.getElem?_eq_some_iff.mp at_).1

def Goal.moves (length p q : Nat) : Goal → Prop
  | .whole _ => p < q ∧ q ≤ length
  | .rest _ _ => p ≤ q ∧ (p ≤ length → q ≤ length)

theorem parsedMoves {g p e q} (h : Parsed ts g p e q) : g.moves ts.length p q := by
  induction h with
  | num at_ _ => exact ⟨Nat.lt_succ_self _,someLow at_⟩
  | arg at_ _ => exact ⟨Nat.lt_succ_self _,someLow at_⟩
  | paren _ _ _ end_ _ ih =>
    have low := someLow end_
    simp only [Goal.moves] at ih ⊢
    omega
  | not _ _ _ ih => simp only [Goal.moves] at ih ⊢; omega
  | plain _ _ ih => exact ih
  | chain _ _ _ first tail => simp only [Goal.moves] at first tail ⊢; omega
  | stop _ => exact ⟨Nat.le_refl _,id⟩
  | more _ _ _ _ right tail => simp only [Goal.moves] at right tail ⊢; omega

theorem wholeMoves {l p e q} (h : Parsed ts (.whole l) p e q) : p < q ∧ q ≤ ts.length :=
  parsedMoves h

theorem parsedOnce {g p e q e' q'} (h : Parsed ts g p e q) (h' : Parsed ts g p e' q') : e = e' ∧
    q = q' := by
  induction h generalizing e' q' with
  | num at_ kind =>
    cases h' with
    | num again _ => cases at_.symm.trans again; exact ⟨rfl,rfl⟩
    | arg again other => cases at_.symm.trans again; simp [kind] at other
    | paren again other => cases at_.symm.trans again; simp [kind] at other
    | chain binary => exact absurd rfl binary.2
  | arg at_ kind =>
    cases h' with
    | num again other => cases at_.symm.trans again; simp [kind] at other
    | arg again _ => cases at_.symm.trans again; exact ⟨rfl,rfl⟩
    | paren again other => cases at_.symm.trans again; simp [kind] at other
    | chain binary => exact absurd rfl binary.2
  | paren at_ kind _ end_ _ ih =>
    cases h' with
    | num again other => cases at_.symm.trans again; simp [kind] at other
    | arg again other => cases at_.symm.trans again; simp [kind] at other
    | paren again _ inner _ _ =>
      obtain ⟨rfl,rfl⟩ := ih inner
      exact ⟨rfl,rfl⟩
    | chain binary => exact absurd rfl binary.2
  | not at_ kind _ ih =>
    cases h' with
    | not again _ inner =>
      obtain ⟨rfl,rfl⟩ := ih inner
      exact ⟨rfl,rfl⟩
    | plain other => exact absurd kind (other _ at_)
    | chain binary => exact absurd rfl binary.1
  | plain other _ ih =>
    cases h' with
    | not at_ kind => exact absurd kind (other _ at_)
    | plain _ inner => exact ih inner
    | chain binary => exact absurd rfl binary.1
  | chain binary _ _ first tail =>
    cases h' with
    | num | arg | paren => exact absurd rfl binary.2
    | not | plain => exact absurd rfl binary.1
    | chain _ first' tail' =>
      obtain ⟨rfl,rfl⟩ := first first'
      exact tail tail'
  | stop none_ =>
    cases h' with
    | stop => exact ⟨rfl,rfl⟩
    | more at_ kind => simp [none_ _ at_] at kind
  | more at_ kind _ _ right tail =>
    cases h' with
    | stop none_ => simp [none_ _ at_] at kind
    | more again kind' right' tail' =>
      cases at_.symm.trans again
      cases kind.symm.trans kind'
      obtain ⟨rfl,rfl⟩ := right right'
      exact tail tail'

/-! A reading is a derivation of the tokens it passed. -/
def Between (ts : List Token) (p q : Nat) (us : List Token) : Prop := ts.drop p = us ++ ts.drop q ∧
    q = p + us.length

theorem betweenOne {p t} (at_ : ts[p]? = some t) : Between ts p (p + 1) [t] := by
  obtain ⟨low,rfl⟩ := List.getElem?_eq_some_iff.mp at_
  exact ⟨List.drop_eq_getElem_cons low,rfl⟩

theorem betweenNone (p : Nat) : Between ts p p [] := ⟨rfl,rfl⟩

theorem betweenAppend {p q r us vs} (h : Between ts p q us) (h' : Between ts q r vs) :
    Between ts p r (us ++ vs) := by
  obtain ⟨left,rfl⟩ := h
  obtain ⟨right,rfl⟩ := h'
  exact ⟨by rw [left,right,List.append_assoc],by simp [Nat.add_assoc]⟩

theorem betweenSplit {p q us vs} (h : Between ts p q (us ++ vs)) :
    Between ts p (p + us.length) us ∧ Between ts (p + us.length) q vs := by
  obtain ⟨all,rfl⟩ := h
  rw [List.append_assoc] at all
  have right : ts.drop (p + us.length) = vs ++ ts.drop (p + (us ++ vs).length) := by
    rw [← List.drop_drop,all,List.drop_left]
  exact ⟨⟨by rw [right]; exact all,rfl⟩,⟨right,by simp [Nat.add_assoc]⟩⟩

theorem betweenHead {p q t us} (h : Between ts p q (t::us)) :
    ts[p]? = some t ∧ Between ts (p + 1) q us := by
  have whole : Between ts p q ([t] ++ us) := h
  have split := betweenSplit whole
  refine ⟨?_,split.2⟩
  have first := congrArg List.head? h.1
  rwa [List.head?_drop] at first

/- What a reading of the goal derives: the whole, or the left operand continued. -/
def Goal.derives (us : List Token) (e : Expr) : Goal → Prop
  | .whole l => Derives l e us
  | .rest l left => ∀ vs, Derives l left vs → Derives l e (vs ++ us)

theorem parsedDerives {g p e q} (h : Parsed ts g p e q) : ∃ us, Between ts p q us ∧
    g.derives us e := by
  induction h with
  | num at_ kind => exact ⟨_,betweenOne at_,.num kind⟩
  | arg at_ kind => exact ⟨_,betweenOne at_,.arg kind⟩
  | paren at_ left _ end_ right ih =>
    obtain ⟨us,inside,inner⟩ := ih
    exact ⟨_,betweenAppend (betweenOne at_) (betweenAppend inside (betweenOne end_)),
      .paren left inner right⟩
  | not at_ kind _ ih =>
    obtain ⟨us,inside,inner⟩ := ih
    exact ⟨_,betweenAppend (betweenOne at_) inside,.not kind inner⟩
  | plain _ _ ih =>
    obtain ⟨us,inside,inner⟩ := ih
    exact ⟨us,inside,.plain inner⟩
  | chain binary _ _ first tail =>
    obtain ⟨us,inside,left⟩ := first
    obtain ⟨vs,after,more⟩ := tail
    exact ⟨_,betweenAppend inside after,more us (.single binary left)⟩
  | stop _ => exact ⟨[],betweenNone _,fun vs left => by simpa using left⟩
  | more at_ kind _ _ right tail =>
    obtain ⟨us,inside,derived⟩ := right
    obtain ⟨vs,after,more⟩ := tail
    refine ⟨_,betweenAppend (betweenOne at_) (betweenAppend inside after),fun ws left => ?_⟩
    simpa using more _ (.chain left kind derived)

/-! The other way round. A derivation is read as far as it goes if the token behind
it does not bind more tightly. -/
def Free (ts : List Token) (rank q : Nat) : Prop :=
  ∀ t, ts[q]? = some t → ∀ m : Level, rank ≤ m.rank → m.op t.type = none

theorem nextRank {l : Level} (binary : l.binary) : l.next.rank = l.rank + 1 := by
  cases l with
  | unary => exact absurd rfl binary.1
  | primary => exact absurd rfl binary.2
  | or | and | cmp | add | mul => rfl

theorem freeStop {l : Level} {q e} (free : Free ts l.rank q) : Parsed ts (.rest l e) q e q :=
  .stop fun t at_ => free t at_ l (Nat.le_refl _)

theorem freeMore {rank rank' q} (free : Free ts rank q) (less : rank ≤ rank') : Free ts rank' q :=
  fun t at_ m high => free t at_ m (Nat.le_trans less high)

theorem opFree {l : Level} {q t op} (at_ : ts[q]? = some t) (kind : l.op t.type = some op) :
    Free ts (l.rank + 1) q := by
  intro u again m high
  cases at_.symm.trans again
  cases found : m.op t.type with
  | none => rfl
  | some op' =>
    cases opOnce kind found
    omega

theorem rparenFree {q u} (at_ : ts[q]? = some u) (kind : u.type = .rparen)
    (rank : Nat) : Free ts rank q := by
  intro t again m _
  cases at_.symm.trans again
  rw [kind]
  cases m <;> rfl

theorem primaryHead {e us} (h : Derives .primary e us) : ∃ t vs, us = t::vs ∧ t.type ≠ .not := by
  cases h with
  | num kind => exact ⟨_,[],rfl,by simp [kind]⟩
  | arg kind => exact ⟨_,[],rfl,by simp [kind]⟩
  | paren left _ _ => exact ⟨_,_,rfl,by simp [left]⟩
  | single binary _ => exact absurd rfl binary.2
  | chain _ kind _ => exact absurd rfl (opBinary kind).2

/- A chain that was derived up to q may still go on from there. -/
structure Reads (ts : List Token) (l : Level) (e : Expr) (p q : Nat) : Prop where
  on : l.binary → ∀ e' q', Parsed ts (.rest l e) q e' q' → Parsed ts (.whole l) p e' q'
  all : Free ts l.rank q → Parsed ts (.whole l) p e q

theorem readsOn {l : Level} {e p q}
    (on : ∀ e' q', Parsed ts (.rest l e) q e' q' → Parsed ts (.whole l) p e' q') :
    Reads ts l e p q :=
  ⟨fun _ => on,fun free => on e q (freeStop free)⟩

theorem derivesParsed {l e us} (h : Derives l e us) {p q} (inside : Between ts p q us)
    (free : Free ts (l.rank + 1) q) : Reads ts l e p q := by
  induction h generalizing p q with
  | num kind =>
    obtain ⟨at_,_,rfl⟩ := betweenHead inside
    exact ⟨fun binary => absurd rfl binary.2,fun _ => .num at_ kind⟩
  | arg kind =>
    obtain ⟨at_,_,rfl⟩ := betweenHead inside
    exact ⟨fun binary => absurd rfl binary.2,fun _ => .arg at_ kind⟩
  | @paren t u e us left _ right ih =>
    obtain ⟨at_,tail⟩ := betweenHead inside
    obtain ⟨inner,last⟩ := betweenSplit tail
    obtain ⟨end_,_,rfl⟩ := betweenHead last
    have closed := fun rank => rparenFree end_ right rank
    exact ⟨fun binary => absurd rfl binary.2,
      fun _ => .paren at_ left ((ih inner (closed _)).all (closed _)) end_ right⟩
  | not kind _ ih =>
    obtain ⟨at_,tail⟩ := betweenHead inside
    exact ⟨fun binary => absurd rfl binary.1,fun now => .not at_ kind ((ih tail free).all now)⟩
  | plain inner ih =>
    obtain ⟨t,vs,rfl,kind⟩ := primaryHead inner
    obtain ⟨at_,_⟩ := betweenHead inside
    have other : ∀ u, ts[p]? = some u → u.type ≠ .not := by
      intro u again
      cases at_.symm.trans again
      exact kind
    refine ⟨fun binary => absurd rfl binary.1,fun now => .plain other ?_⟩
    exact (ih inside (freeMore free (by decide))).all free
  | single binary _ ih =>
    rw [← nextRank binary] at free
    have first := (ih inside (freeMore free (Nat.le_succ _))).all free
    exact readsOn fun e' q' tail => .chain binary first tail
  | @chain l t op a b us vs _ kind _ left right =>
    obtain ⟨before,after⟩ := betweenSplit inside
    obtain ⟨at_,behind⟩ := betweenHead after
    have binary := opBinary kind
    rw [← nextRank binary] at free
    have operand := (right behind (freeMore free (Nat.le_succ _))).all free
    have first := (left before (opFree at_ kind)).on binary
    exact readsOn fun e' q' tail => first e' q' (.more at_ kind operand tail)

theorem endFree (rank : Nat) : Free ts rank ts.length := by
  intro t at_
  exact absurd (someLow at_) (Nat.lt_irrefl _)

/-- The whole array is read to its end exactly when the grammar derives it. -/
theorem readWhole (ts : List Token) (e : Expr) : Parsed ts (.whole .or) 0 e ts.length ↔
    Derives .or e ts := by
  constructor
  · intro read
    obtain ⟨us,⟨all,_⟩,derived⟩ := parsedDerives read
    simp only [List.drop_zero,List.drop_length,List.append_nil] at all
    rw [all]
    exact derived
  · intro derived
    have inside : Between ts 0 ts.length ts := ⟨by simp,by simp⟩
    exact (derivesParsed derived inside (endFree _)).all (endFree _)

theorem derivesOnce {ts e e'} (h : Derives .or e ts) (h' : Derives .or e' ts) : e = e' :=
  (parsedOnce ((readWhole ts e).mpr h) ((readWhole ts e').mpr h')).1

end ZeroTrace.FilterGrammar
