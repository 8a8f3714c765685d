import ZeroTrace.SharedRead

/-! Programs whose calls both read and change a state that somebody else keeps changing.
What a call may answer and do is an arbitrary relation, and so is the interference. -/
namespace ZeroTrace.SharedCalls
open Relation SharedRead

variable {σ Call Answer α β : Type}

def ask (c : Call) : Program Call Answer Answer := .load c .done

def Only (kind : Call → Prop) (result : α → Prop) : Program Call Answer α → Prop
  | .done a => result a
  | .load c next => kind c ∧ ∀ v, Only kind result (next v)

theorem onlyThen {kind : Call → Prop} {mid : α → Prop} {result : β → Prop}
    {p : Program Call Answer α} {f : α → Program Call Answer β}
    (first : Only kind mid p) (rest : ∀ a, mid a → Only kind result (f a)) :
    Only kind result (p >>= f) := by
  induction p with
  | done a => exact rest a first
  | load c next ih => exact ⟨first.1,fun v => ih v (first.2 v)⟩

theorem onlyAsk {kind : Call → Prop} {result : α → Prop} {c : Call}
    {f : Answer → Program Call Answer α} (of : kind c)
    (rest : ∀ v, Only kind result (f v)) : Only kind result (ask c >>= f) := ⟨of,rest⟩

def through {Call' : Type} (f : Call → Call') : Program Call Answer α → Program Call' Answer α
  | .done a => .done a
  | .load c next => .load (f c) fun v => through f (next v)

theorem throughOnly {Call' : Type} {f : Call → Call'} {p : Program Call Answer α} :
    Only (fun c => ∃ c', c = f c') (fun _ => True) (through f p) := by
  induction p with
  | done a => exact trivial
  | load c next ih => exact ⟨⟨c,rfl⟩,ih⟩

section Interference
variable (env : σ → σ → Prop) (call : σ → Call → Answer → σ → Prop)

/- A run to the end, with interference anywhere on the way. -/
inductive Runs : Program Call Answer α → σ → α → σ → Prop where
  | done {a s} : Runs (.done a) s a s
  | moved {p s t a u} (move : env s t) (rest : Runs p t a u) : Runs p s a u
  | called {c next s v t a u} (answer : call s c v t) (rest : Runs (next v) t a u) :
      Runs (.load c next) s a u

def Holds (post : σ → α → Prop) : Program Call Answer α → σ → Prop
  | .done a,s => ∀ t, ReflTransGen env s t → post t a
  | .load c next,s => ∀ t, ReflTransGen env s t → ∀ v u, call t c v u → Holds post (next v) u

variable {env call}

theorem holdsLater {post : σ → α → Prop} {p s t} (holds : Holds env call post p s)
    (run : ReflTransGen env s t) :
    Holds env call post p t := by
  cases p with
  | done a => exact fun u later => holds u (run.trans later)
  | load c next => exact fun u later => holds u (run.trans later)

theorem holdsRuns {post : σ → α → Prop} {p s a u} (run : Runs env call p s a u)
    (holds : Holds env call post p s) : post u a := by
  induction run with
  | done => exact holds _ .refl
  | moved move _ ih => exact ih (holdsLater holds (.single move))
  | called answer _ ih => exact ih (holds _ .refl _ _ answer)

theorem holdsTrivially {post : σ → α → Prop} (all : ∀ t a, post t a) (p : Program Call Answer α)
    {s} : Holds env call post p s := by
  induction p generalizing s with
  | done a => exact fun t _ => all t a
  | load c next ih => exact fun _ _ v _ _ => ih v

theorem holdsAnyway {post : σ → α → Prop} {a s} (all : ∀ t, post t a) :
    Holds env call post (.done a) s := fun t _ => all t

theorem holdsDone {post : σ → α → Prop} {inv : σ → Prop} {a s} (stable : Stable env inv) (h : inv s)
    (give : ∀ t, inv t → post t a) : Holds env call post (.done a) s :=
  fun t run => give t (stableRun stable run h)

theorem holdsCall {post : σ → α → Prop} {inv : σ → Prop} {c next s} (stable : Stable env inv)
    (h : inv s)
    (give : ∀ t v u, inv t → call t c v u → Holds env call post (next v) u) :
    Holds env call post (.load c next) s :=
  fun t run v u answer => give t v u (stableRun stable run h) answer

theorem holdsAsk {post : σ → α → Prop} {inv : σ → Prop} {c : Call}
    {f : Answer → Program Call Answer α} {s} (stable : Stable env inv)
    (h : inv s) (give : ∀ t v u, inv t → call t c v u → Holds env call post (f v) u) :
    Holds env call post (ask c >>= f) s :=
  holdsCall stable h give

theorem holdsAnd {post post' : σ → α → Prop} {p s} (first : Holds env call post p s)
    (second : Holds env call post' p s) :
    Holds env call (fun t a => post t a ∧ post' t a) p s := by
  induction p generalizing s with
  | done a => exact fun t run => ⟨first t run,second t run⟩
  | load c next ih =>
      exact fun t run v u answer => ih v (first t run v u answer) (second t run v u answer)

theorem holdsAll {ι : Sort*} {post : ι → σ → α → Prop} {p s}
    (each : ∀ i, Holds env call (post i) p s) :
    Holds env call (fun t a => ∀ i, post i t a) p s := by
  induction p generalizing s with
  | done a => exact fun t run i => each i t run
  | load c next ih => exact fun t run v u answer => ih v fun i => each i t run v u answer

theorem holdsMono {post post' : σ → α → Prop} (weaker : ∀ s a, post s a → post' s a) {p s}
    (holds : Holds env call post p s) : Holds env call post' p s := by
  induction p generalizing s with
  | done a => exact fun t run => weaker t a (holds t run)
  | load c next ih => exact fun t run v u answer => ih v (holds t run v u answer)

theorem holdsBind {post : σ → β → Prop} {p : Program Call Answer α} {f s}
    (holds : Holds env call (fun t a => Holds env call post (f a) t) p s) :
    Holds env call post (p >>= f) s := by
  induction p generalizing s with
  | done a => exact holds s .refl
  | load c next ih => exact fun t run v u answer => ih v (holds t run v u answer)

theorem holdsAlways {inv : σ → Prop} (stable : Stable env inv)
    (calls : ∀ s c v t, inv s → call s c v t → inv t)
    (p : Program Call Answer α) {s} (h : inv s) : Holds env call (fun t _ => inv t) p s := by
  induction p generalizing s with
  | done a => exact fun t run => stableRun stable run h
  | load c next ih =>
      exact fun t run v u answer => ih v (calls t c v u (stableRun stable run h) answer)

theorem holdsOnly {inv : σ → Prop} {kind : Call → Prop} {result : α → Prop}
    (stable : Stable env inv)
    (calls : ∀ s c v t, kind c → inv s → call s c v t → inv t) {p : Program Call Answer α}
    (only : Only kind result p) {s} (h : inv s) :
    Holds env call (fun t a => inv t ∧ result a) p s := by
  induction p generalizing s with
  | done a => exact fun t run => ⟨stableRun stable run h,only⟩
  | load c next ih =>
      exact fun t run v u answer =>
        ih v (only.2 v) (calls t c v u only.1 (stableRun stable run h) answer)

theorem holdsThen {mid : σ → α → Prop} {post : σ → β → Prop} {p : Program Call Answer α} {f s}
    (first : Holds env call mid p s)
    (then_ : ∀ t a, mid t a → Holds env call post (f a) t) : Holds env call post (p >>= f) s :=
  holdsBind (holdsMono then_ first)

theorem runsBind {p : Program Call Answer α} {f : α → Program Call Answer β} {s b u} :
    Runs env call (p >>= f) s b u ↔ ∃ a t, Runs env call p s a t ∧ Runs env call (f a) t b u := by
  constructor
  · intro run
    generalize same : p >>= f = q at run
    induction run generalizing p with
    | @done b s =>
      cases p with
      | done a =>
        rw [bindDone] at same
        exact ⟨a,s,.done,by rw [same]; exact .done⟩
      | load c next => cases same
    | moved move _ ih =>
      obtain ⟨a,t,first,rest⟩ := ih same
      exact ⟨a,t,.moved move first,rest⟩
    | @called c next s v t b u answer run ih =>
      cases p with
      | done a =>
        rw [bindDone] at same
        exact ⟨a,s,.done,by rw [same]; exact .called answer run⟩
      | load c' next' =>
        rw [bindLoad] at same
        cases same
        obtain ⟨a,w,first,rest⟩ := ih rfl
        exact ⟨a,w,.called answer first,rest⟩
  · rintro ⟨a,t,first,rest⟩
    induction first with
    | done => exact rest
    | moved move _ ih => exact .moved move (ih rest)
    | called answer _ ih => exact .called answer (ih rest)

theorem runsDone {a b : α} {s u} (run : Runs env call (.done a : Program Call Answer α) s b u) :
    b = a ∧ ReflTransGen env s u := by
  generalize same : (Program.done a : Program Call Answer α) = p at run
  induction run with
  | done => cases same; exact ⟨rfl,.refl⟩
  | moved move _ ih => exact ⟨(ih same).1,.head move (ih same).2⟩
  | called => cases same

theorem doneRuns {a : α} {s u} (moves : ReflTransGen env s u) :
    Runs env call (.done a : Program Call Answer α) s a u := by
  induction moves using ReflTransGen.head_induction_on with
  | refl => exact .done
  | head move _ ih => exact .moved move ih

/- A call that is made on the way, in the state in which it is made. -/
inductive Asks (env : σ → σ → Prop) (call : σ → Call → Answer → σ → Prop) : Program Call Answer α →
    σ → Call → σ → Prop where
  | now {c next s t} (moves : ReflTransGen env s t) : Asks env call (.load c next) s c t
  | later {c next s t v u c' w} (moves : ReflTransGen env s t) (answer : call t c v u)
      (rest : Asks env call (next v) u c' w) :
      Asks env call (.load c next) s c' w

theorem movesRuns {p : Program Call Answer α} {a s t u} (moves : ReflTransGen env s t)
    (run : Runs env call p t a u) : Runs env call p s a u := by
  induction moves using ReflTransGen.head_induction_on with
  | refl => exact run
  | head move _ ih => exact .moved move ih

theorem asksThen {p : Program Call Answer α} {f : α → Program Call Answer β} {s c w}
    (asks : Asks env call (p >>= f) s c w) :
    Asks env call p s c w ∨ ∃ a t, Runs env call p s a t ∧ Asks env call (f a) t c w := by
  induction p generalizing s with
  | done a => exact .inr ⟨a,s,.done,asks⟩
  | load c' next ih =>
    cases asks with
    | now moves => exact .inl (.now moves)
    | later moves answer rest =>
      rcases ih _ rest with early | ⟨a,t,run,late⟩
      · exact .inl (.later moves answer early)
      · exact .inr ⟨a,t,movesRuns moves (.called answer run),late⟩

section Through
variable {Call' : Type} {call' : σ → Call' → Answer → σ → Prop} {f : Call → Call'}
    {p : Program Call Answer α}

theorem throughRuns {s a u} (run : Runs env call' (through f p) s a u) :
    Runs env (fun s c v t => call' s (f c) v t) p s a u := by
  generalize same : through f p = q at run
  induction run generalizing p with
  | done =>
    cases p with
    | done => cases same; exact .done
    | load => cases same
  | moved move _ ih => exact .moved move (ih same)
  | called answer _ ih =>
    cases p with
    | done => cases same
    | load c next =>
      cases same
      exact .called answer (ih rfl)

theorem throughAsks {s c w} (asks : Asks env call' (through f p) s c w) : ∃ c', c = f c' := by
  induction p generalizing s with
  | done a => cases asks
  | load c' next ih =>
    cases asks with
    | now => exact ⟨c',rfl⟩
    | later _ _ rest => exact ih _ rest

end Through

section Beside
variable {γ : Type} (env) (call) (next : γ → Call → Answer → γ)

def besideMove (x y : σ × γ) : Prop := env x.1 y.1 ∧ y.2 = x.2

def besideCall (x : σ × γ) (c : Call) (v : Answer) (y : σ × γ) : Prop :=
  call x.1 c v y.1 ∧ y.2 = next x.2 c v

variable {env call next}

theorem besideMoved {s t : σ} {g : γ} (move : env s t) : besideMove env (s,g) (t,g) := ⟨move,rfl⟩

variable (next) in
theorem runsBeside {p : Program Call Answer α} {a s u} (run : Runs env call p s a u) (g : γ) :
    ∃ g', Runs (besideMove env) (besideCall call next) p (s,g) a (u,g') := by
  induction run generalizing g with
  | done => exact ⟨g,.done⟩
  | @moved _ s t _ _ move _ ih =>
    obtain ⟨g',rest⟩ := ih g
    exact ⟨g',.moved (besideMoved move) rest⟩
  | @called c _ s v t _ _ answer _ ih =>
    obtain ⟨g',rest⟩ := ih (next g c v)
    have step : besideCall call next (s,g) c v (t,next g c v) := ⟨answer,rfl⟩
    exact ⟨g',.called step rest⟩

theorem besideRuns {call' : σ × γ → Call → Answer → σ × γ → Prop}
    (weaker : ∀ x c v y, call' x c v y → call x.1 c v y.1)
    {p : Program Call Answer α} {a x y} (run : Runs (besideMove env) call' p x a y) :
    Runs env call p x.1 a y.1 := by
  induction run with
  | done => exact .done
  | moved move _ ih => exact .moved move.1 ih
  | called answer _ ih => exact .called (weaker _ _ _ _ answer) ih

end Beside

theorem runsLater {p : Program Call Answer α} {a s t u} (run : Runs env call p s a t)
    (moves : ReflTransGen env t u) :
    Runs env call p s a u := by
  induction run with
  | done => exact doneRuns moves
  | moved move _ ih => exact .moved move (ih moves)
  | called answer _ ih => exact .called answer (ih moves)

end Interference

end ZeroTrace.SharedCalls
