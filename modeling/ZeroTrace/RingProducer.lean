import Mathlib.Logic.Relation
import ZeroTrace.TraceBuffer

/-! Payload threads writing events into the shared ring. One action is one access
to shared memory: the ticket, the cleared publication word, one event word, the
published sequence. Nothing orders the threads. -/
namespace ZeroTrace.RingProducer
open Relation TraceBuffer

inductive Producer where
  | idle
  | reserved (ticket : Nat) (todo : List (Field × Nat))
  | writing (ticket : Nat) (todo : List (Field × Nat))

def Producer.ticket : Producer → Option Nat
  | .idle => none
  | .reserved t _ | .writing t _ => some t

/- `holders` and `published` are histories: the event of every ticket taken, and
the tickets published, both in order. No action reads them. -/
structure Ring where
  writeSeq : Nat
  slots : Nat → Event
  threads : Nat → Producer
  holders : List Emission
  published : List Nat

/- What `zt_payload_init` leaves behind. -/
def Ring.init : Ring := ⟨0,fun _ => .zero,fun _ => .idle,[],[]⟩

def slotOf (ticket : Nat) : Nat := ticket % eventCapacity

inductive Action where
  | reserve (thread : Nat) (e : Emission)
  | clear (thread : Nat)
  | write (thread : Nat)
  | commit (thread : Nat)

def Ring.setThread (s : Ring) (thread : Nat) (p : Producer) : Ring :=
  { s with threads := Function.update s.threads thread p }

def Ring.setSlot (s : Ring) (i : Nat) (ev : Event) : Ring :=
  { s with slots := Function.update s.slots i ev }

/- `zt_reserve_event_slot` is two accesses: the fetch-and-add that takes the
ticket, and the store that clears the slot's publication word. -/
def Ring.takeTicket (s : Ring) (thread : Nat) (e : Emission) : Ring :=
  { s.setThread thread (.reserved s.writeSeq e.writes) with
    writeSeq := s.writeSeq + 1, holders := s.holders ++ [e] }

def Ring.clearSlot (s : Ring) (thread t : Nat) (todo : List (Field × Nat)) : Ring :=
  (s.setSlot (slotOf t) { s.slots (slotOf t) with committedSeq := 0 }).setThread thread
    (.writing t todo)

def Ring.writeField (s : Ring) (thread t : Nat) (f : Field) (v : Nat)
    (todo : List (Field × Nat)) : Ring :=
  (s.setSlot (slotOf t) ((s.slots (slotOf t)).set f v)).setThread thread (.writing t todo)

def Ring.commitEventSlot (s : Ring) (thread t : Nat) : Ring :=
  { (s.setSlot (slotOf t) { s.slots (slotOf t) with committedSeq := t + 1 }).setThread thread .idle
    with
    published := s.published ++ [t] }

def step (s : Ring) : Action → Option Ring
  | .reserve thread e => match s.threads thread with
    | .idle => some (s.takeTicket thread e)
    | _ => none
  | .clear thread => match s.threads thread with
    | .reserved t todo => some (s.clearSlot thread t todo)
    | _ => none
  | .write thread => match s.threads thread with
    | .writing t ((f,v)::todo) => some (s.writeField thread t f v todo)
    | _ => none
  | .commit thread => match s.threads thread with
    | .writing t [] => some (s.commitEventSlot thread t)
    | _ => none

inductive Stepped (s : Ring) : Action → Ring → Prop where
  | reserve {thread e} (free : s.threads thread = .idle) :
      Stepped s (.reserve thread e) (s.takeTicket thread e)
  | clear {thread t todo} (at_ : s.threads thread = .reserved t todo) :
      Stepped s (.clear thread) (s.clearSlot thread t todo)
  | write {thread t f v todo} (at_ : s.threads thread = .writing t ((f,v)::todo)) :
      Stepped s (.write thread) (s.writeField thread t f v todo)
  | commit {thread t} (at_ : s.threads thread = .writing t []) :
      Stepped s (.commit thread) (s.commitEventSlot thread t)

theorem stepped {s a s'} (h : step s a = some s') : Stepped s a s' := by
  cases a <;> simp only [step] at h <;> split at h <;> try contradiction
  all_goals cases Option.some.inj h
  · exact .reserve (by assumption)
  · exact .clear (by assumption)
  · exact .write (by assumption)
  · exact .commit (by assumption)

/- The ticket is taken and its publication store is still to come. -/
def Held (s : Ring) (t : Nat) : Prop := ∃ thread, (s.threads thread).ticket = some t

/- Nobody takes ticket t + 4096 while the holder of t has not published. Tickets are numbers:
a run has fewer than 2^64 of them. -/
def Paced (s : Ring) : Action → Prop
  | .reserve _ _ => ∀ t, t + eventCapacity = s.writeSeq → ¬ Held s t
  | _ => True

def Unguarded (_ : Ring) (_ : Action) : Prop := True

def Moves (guard : Ring → Action → Prop) (s s' : Ring) : Prop :=
  ∃ a, guard s a ∧ step s a = some s'

theorem heldUpdate {s : Ring} {threads : Nat → Producer} {thread p}
    (new : threads = Function.update s.threads thread p) (u : Nat) :
    (∃ i, (threads i).ticket = some u) ↔
      p.ticket = some u ∨ ∃ i, i ≠ thread ∧ (s.threads i).ticket = some u := by
  subst new
  constructor
  · rintro ⟨i,found⟩
    by_cases same : i = thread
    · subst same; exact .inl (by simpa using found)
    · exact .inr ⟨i,same,by simpa [same] using found⟩
  · rintro (here | ⟨i,other,found⟩)
    · exact ⟨thread,by simpa using here⟩
    · exact ⟨i,by simpa [other] using found⟩

theorem heldTaken {s : Ring} {thread e} (free : s.threads thread = .idle) (u : Nat) :
    Held (s.takeTicket thread e) u ↔ u = s.writeSeq ∨ Held s u := by
  refine (heldUpdate (s := s) rfl u).trans ⟨?_,?_⟩
  · rintro (here | ⟨i,_,found⟩)
    · exact .inl (Option.some.inj here).symm
    · exact .inr ⟨i,found⟩
  · rintro (here | ⟨i,found⟩)
    · exact .inl (congrArg some here.symm)
    · refine .inr ⟨i,fun same => ?_,found⟩
      subst same
      simp [free,Producer.ticket] at found

theorem heldKept {s : Ring} {threads : Nat → Producer} {thread p}
    (new : threads = Function.update s.threads thread p)
    (same : p.ticket = (s.threads thread).ticket) (u : Nat) :
    (∃ i, (threads i).ticket = some u) ↔ Held s u := by
  refine (heldUpdate new u).trans ⟨?_,?_⟩
  · rintro (here | ⟨i,_,found⟩)
    · exact ⟨thread,same ▸ here⟩
    · exact ⟨i,found⟩
  · rintro ⟨i,found⟩
    by_cases at_ : i = thread
    · subst at_; exact .inl (same ▸ found)
    · exact .inr ⟨i,at_,found⟩

theorem heldCommitted {s : Ring} {thread t} (at_ : s.threads thread = .writing t [])
    (single : ∀ i j u, (s.threads i).ticket = some u → (s.threads j).ticket = some u → i = j)
    (u : Nat) :
    Held (s.commitEventSlot thread t) u ↔ Held s u ∧ u ≠ t := by
  have mine : (s.threads thread).ticket = some t := by rw [at_]; rfl
  refine (heldUpdate (s := s) rfl u).trans ⟨?_,?_⟩
  · rintro (here | ⟨i,other,found⟩)
    · simp [Producer.ticket] at here
    · refine ⟨⟨i,found⟩,fun same => other ?_⟩
      subst same
      exact single i thread _ found mine
  · rintro ⟨⟨i,found⟩,other⟩
    refine .inr ⟨i,fun same => other ?_,found⟩
    subst same
    exact Option.some.inj (found.symm.trans mine)

/- The sequence numbers stored in one slot's publication word, oldest first. -/
def slotHistory (s : Ring) (i : Nat) : List Nat :=
  (s.published.filter (fun t => slotOf t = i)).map (· + 1)

structure Tickets (s : Ring) : Prop where
  counted : s.holders.length = s.writeSeq
  recent : ∀ t, Held s t → t < s.writeSeq ∧ s.writeSeq ≤ t + eventCapacity
  single : ∀ i j t, (s.threads i).ticket = some t → (s.threads j).ticket = some t → i = j
  retired : ∀ t ∈ s.published, t < s.writeSeq ∧ ¬ Held s t
  ordered : ∀ i, (slotHistory s i).Pairwise (· < ·)

theorem initTickets : Tickets Ring.init := by
  constructor <;> simp [Ring.init,Held,Producer.ticket,slotHistory]

theorem heldSlot {s t u} (h : Tickets s) (ht : Held s t) (hu : Held s u)
    (same : slotOf t = slotOf u) : t = u := by
  have a := h.recent t ht
  have b := h.recent u hu
  simp only [slotOf,eventCapacity] at *
  omega

theorem singleUpdate {s : Ring} {threads : Nat → Producer} {thread p}
    (single : ∀ i j t, (s.threads i).ticket = some t → (s.threads j).ticket = some t → i = j)
    (new : threads = Function.update s.threads thread p)
    (fresh : ∀ t, p.ticket = some t → ∀ i, i ≠ thread → (s.threads i).ticket ≠ some t) :
    ∀ i j t, (threads i).ticket = some t → (threads j).ticket = some t → i = j := by
  subst new
  intro i j t hi hj
  by_cases ii : i = thread
  · by_cases jj : j = thread
    · exact ii.trans jj.symm
    · subst ii
      simp only [Function.update_self,Function.update_of_ne jj] at hi hj
      exact absurd hj (fresh t hi j jj)
  · by_cases jj : j = thread
    · subst jj
      simp only [Function.update_self,Function.update_of_ne ii] at hi hj
      exact absurd hi (fresh t hj i ii)
    · simp only [Function.update_of_ne ii,Function.update_of_ne jj] at hi hj
      exact single i j t hi hj

theorem takenTickets {s thread e} (h : Tickets s) (free : s.threads thread = .idle)
    (paced : ∀ t, t + eventCapacity = s.writeSeq → ¬ Held s t) :
    Tickets (s.takeTicket thread e) where
  counted := by simp [Ring.takeTicket,h.counted]
  recent t held := by
    rcases (heldTaken free t).mp held with rfl | old
    · simp [Ring.takeTicket,eventCapacity]
    · have bound := h.recent t old
      have apart : t + eventCapacity ≠ s.writeSeq := fun same => paced t same old
      simp only [Ring.takeTicket]
      omega
  single := by
    refine singleUpdate h.single rfl ?_
    intro t mine i _ found
    have low := (h.recent t ⟨i,found⟩).1
    have same : s.writeSeq = t := Option.some.inj mine
    omega
  retired t member := by
    obtain ⟨low,gone⟩ := h.retired t member
    refine ⟨Nat.lt_succ_of_lt low,fun held => ?_⟩
    rcases (heldTaken free t).mp held with rfl | old
    · exact absurd low (Nat.lt_irrefl _)
    · exact gone old
  ordered := h.ordered

theorem keptTickets {s s' : Ring} {thread p} (h : Tickets s)
    (threads : s'.threads = Function.update s.threads thread p)
    (same : p.ticket = (s.threads thread).ticket) (count : s'.writeSeq = s.writeSeq)
    (holders : s'.holders = s.holders) (published : s'.published = s.published) : Tickets s' where
  counted := by rw [holders,count,h.counted]
  recent t held := by rw [count]; exact h.recent t ((heldKept threads same t).mp held)
  single := by
    refine singleUpdate h.single threads fun t mine i other found => other ?_
    exact h.single i thread t found (same ▸ mine)
  retired t member := by
    rw [count]
    obtain ⟨low,gone⟩ := h.retired t (published ▸ member)
    exact ⟨low,fun held => gone ((heldKept threads same t).mp held)⟩
  ordered i := by rw [slotHistory,published]; exact h.ordered i

/- A published ticket of the same slot is smaller: it is not the one just held,
and the next one of the slot has not been taken. -/
theorem publishedBefore {s t u} (h : Tickets s) (held : Held s t) (member : u ∈ s.published)
    (same : slotOf u = slotOf t) : u < t := by
  have top := (h.recent t held).2
  obtain ⟨low,gone⟩ := h.retired u member
  have apart : u ≠ t := fun eq => gone (eq ▸ held)
  simp only [slotOf,eventCapacity] at *
  omega

theorem committedTickets {s thread t} (h : Tickets s) (at_ : s.threads thread = .writing t []) :
    Tickets (s.commitEventSlot thread t) := by
  have mine : Held s t := ⟨thread,by rw [at_]; rfl⟩
  constructor
  case counted => exact h.counted
  case recent => exact fun u held => h.recent u ((heldCommitted at_ h.single u).mp held).1
  case single => exact singleUpdate h.single rfl (fun u none => by simp [Producer.ticket] at none)
  case retired =>
    intro u member
    simp only [Ring.commitEventSlot,List.mem_append,List.mem_singleton] at member
    rcases member with old | rfl
    · obtain ⟨low,gone⟩ := h.retired u old
      exact ⟨low,fun held => gone ((heldCommitted at_ h.single u).mp held).1⟩
    · exact ⟨(h.recent u mine).1,fun held => ((heldCommitted at_ h.single u).mp held).2 rfl⟩
  case ordered =>
    intro i
    simp only [slotHistory,Ring.commitEventSlot,List.filter_append,List.map_append]
    refine List.pairwise_append.mpr ⟨h.ordered i,?_,?_⟩
    · by_cases here : slotOf t = i <;> simp [here]
    · intro a ha b hb
      obtain ⟨u,hu,rfl⟩ := List.mem_map.mp ha
      obtain ⟨v,hv,rfl⟩ := List.mem_map.mp hb
      simp only [List.mem_filter,List.mem_singleton,decide_eq_true_eq] at hu hv
      obtain ⟨rfl,here⟩ := hv
      have := publishedBefore h mine hu.1 (hu.2.trans here.symm)
      omega

theorem stepTickets {s a s'} (h : Tickets s) (paced : Paced s a)
    (ok : step s a = some s') : Tickets s' := by
  cases stepped ok with
  | reserve free => exact takenTickets h free paced
  | clear at_ => exact keptTickets h rfl (by rw [at_]; rfl) rfl rfl rfl
  | write at_ => exact keptTickets h rfl (by rw [at_]; rfl) rfl rfl rfl
  | commit at_ => exact committedTickets h at_

theorem runTickets {s} (run : ReflTransGen (Moves Paced) Ring.init s) : Tickets s := by
  induction run with
  | refl => exact initTickets
  | tail _ last ih =>
    obtain ⟨a,paced,ok⟩ := last
    exact stepTickets ih paced ok

def storeTicket (s : Ring) : Action → Option Nat
  | .reserve _ _ => none
  | .clear thread | .write thread | .commit thread => (s.threads thread).ticket

/- What the ring owes its reader: the numbers in a publication word only grow, and
no store reaches a slot once a later ticket of that slot has been taken. -/
structure Orderly (s : Ring) : Prop where
  increasing : ∀ i, (slotHistory s i).Pairwise (· < ·)
  timely : ∀ a s' t u, step s a = some s' → storeTicket s a = some t → t < u → slotOf u = slotOf t →
    s.writeSeq ≤ u

theorem storeHeld {s a t} (h : storeTicket s a = some t) : Held s t := by
  cases a with
  | reserve thread e => simp [storeTicket] at h
  | clear thread => exact ⟨thread,h⟩
  | write thread => exact ⟨thread,h⟩
  | commit thread => exact ⟨thread,h⟩

theorem pacedOrderly {s} (run : ReflTransGen (Moves Paced) Ring.init s) : Orderly s where
  increasing := (runTickets run).ordered
  timely a s' t u _ stores later same := by
    have top := ((runTickets run).recent t (storeHeld stores)).2
    simp only [slotOf,eventCapacity] at *
    omega

/-! One thread running a handler from start to end, the others standing still. -/
def Ring.produced (s : Ring) (e : Emission) : Ring :=
  { s with
    writeSeq := s.writeSeq + 1
    slots := Function.update s.slots (slotOf s.writeSeq)
      { (s.slots (slotOf s.writeSeq)).write e.writes with committedSeq := s.writeSeq + 1 }
    holders := s.holders ++ [e]
    published := s.published ++ [s.writeSeq] }

theorem storesRun {guard : Ring → Action → Prop} (free : ∀ s thread, guard s (.write thread))
    (s : Ring) (thread t todo) (at_ : s.threads thread = .writing t todo) :
    ReflTransGen (Moves guard) s
      ((s.setSlot (slotOf t) ((s.slots (slotOf t)).write todo)).setThread thread
        (.writing t [])) := by
  induction todo generalizing s with
  | nil =>
    have same : (s.setSlot (slotOf t) ((s.slots (slotOf t)).write [])).setThread thread
        (.writing t []) = s := by
      simp [Ring.setSlot,Ring.setThread,← at_]
    rw [same]
  | cons w todo ih =>
    obtain ⟨f,v⟩ := w
    have first : Moves guard s (s.writeField thread t f v todo) :=
      ⟨.write thread,free _ _,by simp [step,at_]⟩
    have rest := ih (s.writeField thread t f v todo) (by simp [Ring.writeField,Ring.setThread])
    refine ReflTransGen.head first ?_
    simpa [Ring.writeField,Ring.setSlot,Ring.setThread] using rest

theorem producedRun {guard : Ring → Action → Prop}
    (free : ∀ s a, (∀ thread e, a ≠ .reserve thread e) → guard s a)
    {s : Ring} {thread e} (idle : s.threads thread = .idle) (take : guard s (.reserve thread e)) :
    ReflTransGen (Moves guard) s (s.produced e) := by
  let taken := s.takeTicket thread e
  let open_ := taken.clearSlot thread s.writeSeq e.writes
  have one : Moves guard s taken := ⟨.reserve thread e,take,by simp [step,idle,taken]⟩
  have two : Moves guard taken open_ := by
    refine ⟨.clear thread,free _ _ (by simp),?_⟩
    simp [step,taken,open_,Ring.takeTicket,Ring.setThread]
  have three := storesRun (fun s i => free s (.write i) (by simp)) open_ thread s.writeSeq e.writes
    (by simp [open_,Ring.clearSlot,Ring.setThread])
  refine (ReflTransGen.single one).trans ((ReflTransGen.single two).trans (three.tail ?_))
  refine ⟨.commit thread,free _ _ (by simp),?_⟩
  have back : Function.update s.threads thread .idle = s.threads := by rw [← idle]; simp
  simp only [step,Ring.setThread,Function.update_self,Option.some.injEq]
  simp only [Ring.commitEventSlot,Ring.produced,Ring.setSlot,Ring.setThread,open_,taken,
    Ring.clearSlot,
    Ring.takeTicket,Function.update_idem,Function.update_self,back,Ring.mk.injEq,true_and,and_true]
  congr 1
  have field : ∀ (ev : Event) ws, (({ ev with committedSeq := 0 } : Event).write ws).field =
      (ev.write ws).field := by
    intro ev ws
    induction ws generalizing ev with
    | nil => rfl
    | cons w ws ih => exact ih (ev.set w.1 w.2)
  rw [field]

def Ring.producedAll (s : Ring) (es : List Emission) : Ring := es.foldl Ring.produced s

@[simp] theorem producedAllNil (s : Ring) : s.producedAll [] = s := rfl
@[simp] theorem producedAllCons (s : Ring) (e es) :
    s.producedAll (e::es) = (s.produced e).producedAll es := rfl

theorem producedAllSame (s : Ring) (es : List Emission) :
    (s.producedAll es).threads = s.threads ∧ (s.producedAll es).writeSeq = s.writeSeq + es.length ∧
    (s.producedAll es).published = s.published ++ List.range' s.writeSeq es.length ∧
    (s.producedAll es).holders = s.holders ++ es := by
  induction es generalizing s with
  | nil => simp
  | cons e es ih =>
    obtain ⟨threads,count,published,holders⟩ := ih (s.produced e)
    refine ⟨threads,?_,?_,?_⟩
    · rw [producedAllCons,count,List.length_cons]
      simp only [Ring.produced]
      omega
    · rw [producedAllCons,published,List.length_cons,List.range'_succ]
      simp [Ring.produced]
    · rw [producedAllCons,holders]
      simp [Ring.produced]

theorem producedAllRun {guard : Ring → Action → Prop}
    (free : ∀ s a, (∀ thread e, a ≠ .reserve thread e) → guard s a)
    {s : Ring} (thread es) (idle : s.threads thread = .idle)
    (take : ∀ s' e, s'.threads = s.threads → guard s' (.reserve thread e)) :
    ReflTransGen (Moves guard) s (s.producedAll es) := by
  induction es generalizing s with
  | nil => exact .refl
  | cons e es ih =>
    have first := producedRun free idle (take s e rfl)
    exact first.trans (ih (s := s.produced e) idle (fun s' e same => take s' e same))

/- A single thread is never a lap late. -/
theorem aloneRun (es : List Emission) :
    ReflTransGen (Moves Paced) Ring.init (Ring.init.producedAll es) := by
  refine producedAllRun ?_ 0 es rfl ?_
  · intro s a other
    cases a with
    | reserve thread e => exact absurd rfl (other thread e)
    | clear | write | commit => trivial
  · intro s' e same t _ held
    obtain ⟨thread,found⟩ := held
    simp [same,Ring.init,Producer.ticket] at found

theorem producedAllOther (s : Ring) (es : List Emission) {i}
    (apart : ∀ k, k < es.length → slotOf (s.writeSeq + k) ≠ i) :
    (s.producedAll es).slots i = s.slots i := by
  induction es generalizing s with
  | nil => rfl
  | cons e es ih =>
    have here : i ≠ slotOf s.writeSeq := fun same => apart 0 (by simp) same.symm
    rw [producedAllCons,ih (s.produced e) ?_]
    · exact Function.update_of_ne here _ _
    · intro k low
      have next := apart (k + 1) (by simpa using low)
      rwa [show s.writeSeq + (k + 1) = s.writeSeq + 1 + k by omega] at next

theorem secondLapOrderly :
    Orderly (Ring.init.producedAll (List.replicate (eventCapacity + 1) (.ret ⟨1,1,0,0,0⟩ 0 0))) :=
  pacedOrderly (aloneRun _)

/- Thread 0 takes ticket 0 and is preempted; thread 1 goes once round the ring. -/
def lapped (e : Emission) : Ring :=
  (Ring.init.takeTicket 0 e).producedAll (List.replicate eventCapacity e)

theorem lappedRun (e : Emission) : ReflTransGen (Moves Unguarded) Ring.init (lapped e) := by
  have first : Moves Unguarded Ring.init (Ring.init.takeTicket 0 e) := ⟨.reserve 0 e,trivial,rfl⟩
  refine ReflTransGen.head first (producedAllRun (fun _ _ _ => trivial) 1 _ rfl ?_)
  exact fun _ _ _ => trivial

theorem lappedState (e : Emission) : (lapped e).threads 0 = .reserved 0 e.writes ∧
    (lapped e).writeSeq = eventCapacity + 1 ∧
      (lapped e).published = List.range' 1 eventCapacity := by
  obtain ⟨threads,count,published,_⟩ :=
    producedAllSame (Ring.init.takeTicket 0 e) (List.replicate eventCapacity e)
  refine ⟨?_,?_,?_⟩
  · rw [lapped,threads]; simp [Ring.takeTicket,Ring.setThread,Ring.init]
  · rw [lapped,count,List.length_replicate]; exact Nat.add_comm 1 eventCapacity
  · rw [lapped,published,List.length_replicate]; rfl

/- Thread 0 goes on from there and publishes sequence 1 over sequence 4097. -/
theorem lappedFinish (e : Emission) : ∃ s, ReflTransGen (Moves Unguarded) (lapped e) s ∧
    s.published = List.range' 1 eventCapacity ++ [0] := by
  obtain ⟨held,_,published⟩ := lappedState e
  let open_ := (lapped e).clearSlot 0 0 e.writes
  have clear : Moves Unguarded (lapped e) open_ := ⟨.clear 0,trivial,by simp [step,held,open_]⟩
  have stores : ReflTransGen (Moves Unguarded) open_ _ :=
    storesRun (fun _ _ => trivial) open_ 0 0 e.writes
      (by simp [open_,Ring.clearSlot,Ring.setThread])
  refine ⟨_,(ReflTransGen.head clear stores).tail ⟨.commit 0,trivial,
    by simp [step,Ring.setThread]; rfl⟩,?_⟩
  simp [Ring.commitEventSlot,Ring.setSlot,Ring.setThread,open_,Ring.clearSlot,published]

theorem delayedProducerOverwrites :
    (∃ s a s' t u, ReflTransGen (Moves Unguarded) Ring.init s ∧ step s a = some s' ∧
      storeTicket s a = some t ∧ t < u ∧ slotOf u = slotOf t ∧ u < s.writeSeq) ∧
    ∃ s, ReflTransGen (Moves Unguarded) Ring.init s ∧ ¬ (slotHistory s 0).Pairwise (· < ·) := by
  let e : Emission := .ret ⟨1,1,0,0,0⟩ 0 0
  obtain ⟨held,count,_⟩ := lappedState e
  constructor
  · refine ⟨lapped e,.clear 0,_,0,eventCapacity,lappedRun e,by simp [step,held]; rfl,?_,by decide,
      by decide,?_⟩
    · simp [storeTicket,held,Producer.ticket]
    · rw [count]; exact Nat.lt_succ_self _
  · obtain ⟨s,more,published⟩ := lappedFinish e
    refine ⟨s,(lappedRun e).trans more,fun ordered => ?_⟩
    have late : eventCapacity ∈ List.range' 1 eventCapacity := List.mem_range'_1.mpr (by decide)
    simp only [slotHistory,published,List.filter_append,List.map_append] at ordered
    have apart := (List.pairwise_append.mp ordered).2.2 (eventCapacity + 1)
      (List.mem_map.mpr ⟨eventCapacity,List.mem_filter.mpr ⟨late,by decide⟩,rfl⟩) 1
        (by simp [slotOf])
    exact absurd apart (by decide)

end ZeroTrace.RingProducer
