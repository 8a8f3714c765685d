import Mathlib.Logic.Relation
import Mathlib.Logic.Function.Basic
import Mathlib.Data.Set.Insert

/-! Programs that load single words from a state which somebody else keeps
changing. A program only reads; the writers are an arbitrary relation between
states. Nothing here is about one memory layout, one writer or one program. -/
namespace ZeroTrace.SharedRead
open Relation

variable {σ ι Loc Val α β : Type}

inductive Program (Loc Val α : Type) where
  | done (result : α)
  | load (loc : Loc) (next : Val → Program Loc Val α)

def Program.bind : Program Loc Val α → (α → Program Loc Val β) → Program Loc Val β
  | .done a,f => f a
  | .load l next,f => .load l (fun v => (next v).bind f)

instance : Monad (Program Loc Val) where
  pure := .done
  bind := .bind

@[simp] theorem pureDone (a : α) : (pure a : Program Loc Val α) = .done a := rfl
@[simp] theorem bindDone (a : α) (f : α → Program Loc Val β) : (Program.done a >>= f) = f a := rfl
@[simp] theorem bindLoad (l : Loc) (next : Val → Program Loc Val α) (f : α → Program Loc Val β) :
    (Program.load l next >>= f) = .load l (fun v => next v >>= f) := rfl

/- The result when the memory stands still. -/
def Program.eval (mem : Loc → Val) : Program Loc Val α → α
  | .done a => a
  | .load l next => (next (mem l)).eval mem

theorem evalBind (mem : Loc → Val) (p : Program Loc Val α) (f : α → Program Loc Val β) :
    (p >>= f).eval mem = (f (p.eval mem)).eval mem := by
  induction p with
  | done a => rfl
  | load l next ih => exact ih (mem l)

/-! The state may move between any two loads: `Safe` quantifies over every state
the writers can reach before each load, and again before the result is used. -/
section Interference
variable (env : σ → σ → Prop) (answer : σ → Loc → Val → Prop)

def Safe (post : σ → α → Prop) : Program Loc Val α → σ → Prop
  | .done a,s => ∀ t, ReflTransGen env s t → post t a
  | .load l next,s => ∀ t, ReflTransGen env s t → ∀ v, answer t l v → Safe post (next v) t

def Stable (inv : σ → Prop) : Prop := ∀ s t, inv s → env s t → inv t

variable {env answer}

theorem stableRun {inv : σ → Prop} (stable : Stable env inv) {s t} (run : ReflTransGen env s t)
    (h : inv s) : inv t := by
  induction run with
  | refl => exact h
  | tail _ last ih => exact stable _ _ ih last

theorem safeLater {post : σ → α → Prop} {p s t} (safe : Safe env answer post p s)
    (run : ReflTransGen env s t) : Safe env answer post p t := by
  cases p with
  | done a => exact fun u later => safe u (run.trans later)
  | load l next => exact fun u later => safe u (run.trans later)

theorem safeNow {post : σ → α → Prop} {a s} (safe : Safe env answer post (.done a) s) : post s a :=
  safe s .refl

theorem safeDone {post : σ → α → Prop} {inv : σ → Prop} {a s} (stable : Stable env inv) (h : inv s)
    (give : ∀ t, inv t → post t a) : Safe env answer post (.done a) s :=
  fun t run => give t (stableRun stable run h)

theorem safeLoad {post : σ → α → Prop} {inv : σ → Prop} {l next s} (stable : Stable env inv)
    (h : inv s)
    (give : ∀ t v, inv t → answer t l v → Safe env answer post (next v) t) :
    Safe env answer post (.load l next) s :=
  fun t run v ans => give t v (stableRun stable run h) ans

theorem safeMono {post post' : σ → α → Prop} (weaker : ∀ s a, post s a → post' s a) {p s}
    (safe : Safe env answer post p s) : Safe env answer post' p s := by
  induction p generalizing s with
  | done a => exact fun t run => weaker t a (safe t run)
  | load l next ih => exact fun t run v ans => ih v (safe t run v ans)

theorem safeBind {post : σ → β → Prop} {p : Program Loc Val α} {f s}
    (safe : Safe env answer (fun t a => Safe env answer post (f a) t) p s) :
    Safe env answer post (p >>= f) s := by
  induction p generalizing s with
  | done a => exact safe s .refl
  | load l next ih => exact fun t run v ans => ih v (safe t run v ans)

/- A program only reads, so whatever the writers keep is kept while it runs. -/
theorem safeFrame {post : σ → α → Prop} {inv : σ → Prop} (stable : Stable env inv) {p s} (h : inv s)
    (safe : Safe env answer post p s) : Safe env answer (fun t a => inv t ∧ post t a) p s := by
  induction p generalizing s with
  | done a => exact fun t run => ⟨stableRun stable run h,safe t run⟩
  | load l next ih => exact fun t run v ans => ih v (stableRun stable run h) (safe t run v ans)

theorem safeTrue (p : Program Loc Val α) (s : σ) : Safe env answer (fun _ _ => True) p s := by
  induction p generalizing s with
  | done a => exact fun _ _ => trivial
  | load l next ih => exact fun t _ v _ => ih v t

end Interference

/-! Any number of readers over one shared state. A reader that has nothing to do,
or that has finished, may start any program it is allowed to run. -/
structure System (σ ι Loc Val α : Type) where
  state : σ
  readers : ι → Option (Program Loc Val α)

section Readers
variable [DecidableEq ι]

inductive System.Step (env : σ → σ → Prop) (answer : σ → Loc → Val → Prop)
    (starts : Program Loc Val α → Prop) : System σ ι Loc Val α → System σ ι Loc Val α → Prop where
  | move {c t} (write : env c.state t) : Step env answer starts c { c with state := t }
  | start {c} (i : ι) (p) (free : ∀ l next, c.readers i ≠ some (.load l next))
      (allowed : starts p) :
      Step env answer starts c { c with readers := Function.update c.readers i (some p) }
  | load {c} (i : ι) (l next v) (at_ : c.readers i = some (.load l next))
      (ans : answer c.state l v) :
      Step env answer starts c { c with readers := Function.update c.readers i (some (next v)) }

variable {env : σ → σ → Prop} {answer : σ → Loc → Val → Prop} {starts : Program Loc Val α → Prop}

/-- Every result of every reader satisfies `post` in the state where it is found,
whatever the writers and the other readers did in between. -/
theorem systemResults {post : σ → α → Prop} {inv : σ → Prop} (stable : Stable env inv)
    (safe : ∀ p s, starts p → inv s → Safe env answer post p s)
    {c d : System σ ι Loc Val α} (first : inv c.state) (idle : ∀ i, c.readers i = none)
    (run : ReflTransGen (System.Step env answer starts) c d) :
    inv d.state ∧ ∀ i p, d.readers i = some p → Safe env answer post p d.state := by
  induction run with
  | refl => exact ⟨first,fun i p found => by simp [idle i] at found⟩
  | @tail b d _ last ih =>
    obtain ⟨ok,all⟩ := ih
    cases last with
    | move write => exact ⟨stable _ _ ok write,
        fun i p found => safeLater (all i p found) (.single write)⟩
    | start i p free allowed =>
      refine ⟨ok,fun j q found => ?_⟩
      by_cases same : j = i
      · subst same
        simp only [Function.update_self,Option.some.injEq] at found
        exact found ▸ safe p _ allowed ok
      · exact all j q (by simpa [same] using found)
    | load i l next v at_ ans =>
      refine ⟨ok,fun j q found => ?_⟩
      by_cases same : j = i
      · subst same
        simp only [Function.update_self,Option.some.injEq] at found
        exact found ▸ all j _ at_ b.state .refl v ans
      · exact all j q (by simpa [same] using found)

theorem systemMoves {c : System σ ι Loc Val α} {t} (run : ReflTransGen env c.state t) :
    ReflTransGen (System.Step env answer starts) c { c with state := t } := by
  induction run with
  | refl => exact .refl
  | tail _ last ih => exact ih.tail (.move last)

theorem systemEval {c : System σ ι Loc Val α} {i p} (mem : Loc → Val) (found : c.readers i = some p)
    (answers : ∀ l, answer c.state l (mem l)) :
    ReflTransGen (System.Step env answer starts) c
      { c with readers := Function.update c.readers i (some (.done (p.eval mem))) } := by
  induction p generalizing c with
  | done a =>
    have same : { c with readers := Function.update c.readers i (some (.done a)) } = c := by
      rw [← found]; simp
    rw [Program.eval,same]
  | load l next ih =>
    refine ReflTransGen.head (.load i l next (mem l) found (answers l)) ?_
    simpa [Program.eval]
      using ih (mem l) (c :=
        { c with readers := Function.update c.readers i (some (next (mem l))) })
      (by simp) answers

end Readers

/-! Memory that answers anything: no state, only which answers a location can give. -/
inductive Answered (answer : Loc → Val → Prop) : Program Loc Val α → α → Prop where
  | done (a) : Answered answer (.done a) a
  | load {l next v a} (ans : answer l v) (rest : Answered answer (next v) a) :
      Answered answer (.load l next) a

theorem answeredBind {answer : Loc → Val → Prop} {p : Program Loc Val α}
    {f : α → Program Loc Val β} {b}
    (h : Answered answer (p >>= f) b) : ∃ a, Answered answer p a ∧ Answered answer (f a) b := by
  induction p with
  | done a => exact ⟨a,.done a,h⟩
  | load l next ih =>
    cases h with
    | load ans rest =>
      obtain ⟨a,first,second⟩ := ih _ rest
      exact ⟨a,.load ans first,second⟩

theorem answeredDone {answer : Loc → Val → Prop} {a b : α}
    (h : Answered answer (.done a : Program Loc Val α) b) :
    b = a := by
  cases h; rfl

theorem answeredEval {answer : Loc → Val → Prop} {mem : Loc → Val} (answers : ∀ l, answer l (mem l))
    (p : Program Loc Val α) : Answered answer p (p.eval mem) := by
  induction p with
  | done a => exact .done a
  | load l next ih => exact .load (answers l) (ih (mem l))

/-! Records whose words are valid only while a stamp stands beside them. A writer
takes the stamp away before it changes a word, and no stamp ever comes back to
the record it was taken from. Zero means that no stamp is there. -/
structure Stamped (σ Cell Word Val : Type) where
  stamp : σ → Cell → Nat
  word : σ → Cell → Word → Val
  /-- The stamp has been on the record: a fact about the past, so it stays true. -/
  Issued : σ → Cell → Nat → Prop
  /-- What the word must be under that stamp. -/
  Content : σ → Cell → Nat → Word → Val → Prop

structure Stamped.Law {Cell Word : Type} (m : Stamped σ Cell Word Val) (env : σ → σ → Prop)
    (inv : σ → Prop) : Prop where
  issued : ∀ s c, inv s → m.stamp s c ≠ 0 → m.Issued s c (m.stamp s c)
  content : ∀ s c w, inv s → m.stamp s c ≠ 0 → m.Content s c (m.stamp s c) w (m.word s c w)
  issuedStays : ∀ s t c v, inv s → env s t → m.Issued s c v → m.Issued t c v
  contentStays : ∀ s t c v w x, inv s → env s t → m.Issued s c v → m.Content s c v w x →
    m.Content t c v w x
  noReturn : ∀ s t c v, inv s → env s t → v ≠ 0 → m.Issued s c v → m.stamp t c = v → m.stamp s c = v

section Stamps
variable {Cell Word : Type} {m : Stamped σ Cell Word Val} {env : σ → σ → Prop} {inv : σ → Prop}

/-- A reader saw stamp `v` on record `c` and has since copied the words in `read`. -/
def Stamped.Seen (m : Stamped σ Cell Word Val) (c : Cell) (v : Nat) (read : Set Word)
    (copy : Word → Val)
    (s : σ) : Prop :=
  v ≠ 0 → m.Issued s c v ∧ (m.stamp s c = v → ∀ w ∈ read, m.Content s c v w (copy w))

theorem seenFirst (law : m.Law env inv) {s c copy} (ok : inv s) : m.Seen c (m.stamp s c) ∅ copy s :=
  fun live => ⟨law.issued s c ok live,fun _ w none => absurd none (Set.notMem_empty w)⟩

theorem seenStays (law : m.Law env inv) {s t c v read copy} (ok : inv s) (move : env s t)
    (seen : m.Seen c v read copy s) : m.Seen c v read copy t := by
  intro live
  obtain ⟨issued,good⟩ := seen live
  refine ⟨law.issuedStays s t c v ok move issued,fun still w member => ?_⟩
  have before := law.noReturn s t c v ok move live issued still
  exact law.contentStays s t c v w _ ok move issued (good before w member)

theorem seenWord [DecidableEq Word] (law : m.Law env inv) {s c v read copy} (ok : inv s)
    (seen : m.Seen c v read copy s) (w : Word) :
    m.Seen c v (insert w read) (Function.update copy w (m.word s c w)) s := by
  intro live
  obtain ⟨issued,good⟩ := seen live
  refine ⟨issued,fun still x member => ?_⟩
  by_cases same : x = w
  · subst same still
    simpa using law.content s c x ok live
  · have old : x ∈ read := (Set.mem_insert_iff.mp member).resolve_left same
    simpa [same] using good still x old

theorem seenLast {s c v read copy} (seen : m.Seen c v read copy s) (live : v ≠ 0)
    (still : m.stamp s c = v) :
    ∀ w ∈ read, m.Content s c v w (copy w) := (seen live).2 still

end Stamps
end ZeroTrace.SharedRead
