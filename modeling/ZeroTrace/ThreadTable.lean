import ZeroTrace.ThreadControl

/-! The table of threads against the kernel's, while the threads go on. A thread marked
stopped does not run and its signal is recorded; no other collected stop is outstanding. -/
namespace ZeroTrace.ThreadTable
open Relation SharedRead SharedCalls ThreadControl

/- What a run may be asked for. `lossless`: no thread is detached while a signal of it that
was collected is not delivered. `prompt`: no thread that the last enumeration listed creates
a thread and is gone before it is seized. -/
structure Rules where
  lossless : Bool
  prompt : Bool

def Rules.Allows (r : Rules) (k : Kernel) (c : Call) (v : Answer) : Prop :=
  (r.lossless = true → ∀ t sig, c = .detach t sig → ∀ task, k.task t = some task →
    task.life ≠ .dead → task.owed = 0) ∧
    (r.prompt = true → ∀ t, c = .seize t → v = .errno .esrch → k.forked t = false)

def Calls (r : Rules) (k : Kernel) (c : Call) (v : Answer) (u : Kernel) : Prop :=
  Serve k c v u ∧ r.Allows k c v

def Unseen (task : Task) : Prop := task.owed = 0 ∧ ∀ stop, task.life ≠ .stopped stop true

structure Inside (th : Thread) (task : Task) : Prop where
  traced : task.traced = true
  halted : th.stopped = true → task.life ≠ .running
  recorded : th.stopped = true → task.life ≠ .dead → th.resumeSignal = task.owed ∧
    ∃ stop, task.life = .stopped stop true
  unseen : th.stopped = false → task.life ≠ .dead → Unseen task

structure Inv (r : Rules) (k : Kernel) (threads : List Thread) : Prop where
  distinct : threads.Pairwise fun a b => a.tid = b.tid → a.tid = 0
  inside : ∀ th ∈ threads, th.tid ≠ 0 → ∃ task, k.task th.tid = some task ∧ Inside th task
  outside : ∀ t, t ≠ 0 → (∀ th ∈ threads, th.tid ≠ t) → ∀ task, k.task t = some task →
    task.life ≠ .dead → Unseen task
  faithful : r.lossless = true → ∀ e ∈ k.resumed, e.2.1 = e.2.2

variable {r : Rules} {k k' : Kernel} {threads : List Thread} {th th' : Thread}
    {before after : List Thread}

/-! What the threads do by themselves to one of them. -/
inductive Drift : Option Task → Option Task → Prop where
  | same {x} : Drift x x
  | born : Drift none (some ⟨.running,false,0⟩)
  | died {task : Task} (alive : task.life ≠ .dead) :
      Drift (some task) (if task.traced then some { task with life := .dead } else none)
  | stopped {task : Task} {stop} (running : task.life = .running) (traced : task.traced = true) :
      Drift (some task) (some { task with life := .stopped stop false })

theorem putSame (k : Kernel) (t : Nat) (x : Option Task) : (k.put t x).task t = x := by
  simp [Kernel.put]

theorem putOther {k : Kernel} {t t' : Nat} {x : Option Task} (other : t' ≠ t) :
    (k.put t x).task t' = k.task t' := by
  simp [Kernel.put,other]

theorem putDrift {t : Nat} {x : Option Task} (here : Drift (k.task t) x) (t' : Nat) :
    Drift (k.task t') ((k.put t x).task t') := by
  by_cases same : t' = t
  · subst same; rw [putSame]; exact here
  · rw [putOther same]; exact .same

theorem moveDrift (move : Move k k') (t : Nat) : Drift (k.task t) (k'.task t) := by
  cases move with
  | @clone parent child task runs running free _ => exact putDrift (by rw [free]; exact .born) t
  | @exit t' task lives alive => exact putDrift (by rw [lives]; exact .died alive) t
  | @stop t' task stop runs running traced =>
      exact putDrift (by rw [runs]; exact .stopped running traced) t

theorem moveResumed (move : Move k k') : k'.resumed = k.resumed := by cases move <;> rfl

theorem insideDrift {task : Task} {x} (h : Inside th task) (drift : Drift (some task) x) :
    ∃ task', x = some task' ∧ Inside th task' := by
  cases drift with
  | same => exact ⟨task,rfl,h⟩
  | died alive =>
    rw [if_pos h.traced]
    exact ⟨_,rfl,h.traced,fun _ bad => by simp at bad,fun _ bad => absurd rfl bad,
      fun _ bad => absurd rfl bad⟩
  | @stopped _ stop running traced =>
    have unmarked : th.stopped = false := by
      cases marked : th.stopped with
      | true => exact absurd running (h.halted marked)
      | false => rfl
    have owed := (h.unseen unmarked (by rw [running]; simp)).1
    refine ⟨_,rfl,traced,fun bad => ?_,fun bad => ?_,
      fun _ _ => ⟨owed,fun stop bad => by simp at bad⟩⟩
    · rw [unmarked] at bad; cases bad
    · rw [unmarked] at bad; cases bad

theorem unseenDrift {x y : Option Task}
    (h : ∀ task, x = some task → task.life ≠ .dead → Unseen task) (drift : Drift x y)
    (task : Task) (now : y = some task) (alive : task.life ≠ .dead) : Unseen task := by
  cases drift with
  | same => exact h task now alive
  | born => cases Option.some.inj now; exact ⟨rfl,fun stop bad => by simp at bad⟩
  | @died old was =>
    split at now
    · cases Option.some.inj now; exact absurd rfl alive
    · cases now
  | @stopped old stop running traced =>
    cases Option.some.inj now
    exact ⟨(h old rfl (by rw [running]; simp)).1,fun stop bad => by simp at bad⟩

theorem invMove (h : Inv r k threads) (move : Move k k') : Inv r k' threads where
  distinct := h.distinct
  inside th member nonzero := by
    obtain ⟨task,there,mine⟩ := h.inside th member nonzero
    exact insideDrift mine (there ▸ moveDrift move th.tid)
  outside t nonzero absent := unseenDrift (h.outside t nonzero absent) (moveDrift move t)
  faithful := by rw [moveResumed move]; exact h.faithful

theorem invStable (threads : List Thread) : Stable Move fun k => Inv r k threads :=
  fun _ _ h move => invMove h move

/-! One entry of the table changes, and only its thread. -/
theorem distinctOthers (h : Inv r k (before ++ th :: after)) (nonzero : th.tid ≠ 0) {x : Thread}
    (member : x ∈ before ∨ x ∈ after) :
    x.tid ≠ th.tid := by
  have pairs := List.pairwise_append.mp h.distinct
  rcases member with early | late
  · exact fun same => nonzero (same ▸ pairs.2.2 x early th (by simp) same)
  · exact fun same => nonzero ((List.pairwise_cons.mp pairs.2.1).1 x late same.symm)

theorem distinctReplace
    (h : (before ++ th :: after).Pairwise fun a b : Thread => a.tid = b.tid → a.tid = 0)
    (tid : th'.tid = th.tid ∨ th'.tid = 0) :
    (before ++ th' :: after).Pairwise fun a b : Thread => a.tid = b.tid → a.tid = 0 := by
  obtain ⟨early,rest,cross⟩ := List.pairwise_append.mp h
  obtain ⟨mine,late⟩ := List.pairwise_cons.mp rest
  refine List.pairwise_append.mpr ⟨early,List.pairwise_cons.mpr ⟨fun y member => ?_,late⟩,
    fun x member y among => ?_⟩
  · rcases tid with same | zero
    · rw [same]; exact mine y member
    · exact fun _ => zero
  · rcases List.mem_cons.mp among with rfl | late
    · rcases tid with same | zero
      · rw [same]; exact cross x member th (by simp)
      · exact fun same => same.trans zero
    · exact cross x member y (by simp [late])

theorem invReplace (h : Inv r k (before ++ th :: after)) (nonzero : th.tid ≠ 0)
    (others : ∀ t, t ≠ th.tid → k'.task t = k.task t)
    (now : th'.tid = th.tid ∧ (∃ task, k'.task th.tid = some task ∧ Inside th' task) ∨
      th'.tid = 0 ∧ ∀ task, k'.task th.tid = some task → task.life ≠ .dead → Unseen task)
    (faithful : r.lossless = true → ∀ e ∈ k'.resumed, e.2.1 = e.2.2) :
    Inv r k' (before ++ th' :: after) where
  distinct := distinctReplace h.distinct (now.imp And.left And.left)
  inside x member nonzero' := by
    have old : ∀ x, x ∈ before ∨ x ∈ after → x.tid ≠ 0 → ∃ task, k'.task x.tid = some task ∧
        Inside x task := by
      intro x among live
      rw [others x.tid (distinctOthers h nonzero among)]
      refine h.inside x ?_ live
      rcases among with early | late
      · simp [early]
      · simp [late]
    rcases List.mem_append.mp member with early | here
    · exact old x (.inl early) nonzero'
    · rcases List.mem_cons.mp here with rfl | late
      · rcases now with ⟨same,mine⟩ | ⟨zero,_⟩
        · rw [same]; exact mine
        · exact absurd zero nonzero'
      · exact old x (.inr late) nonzero'
  outside t live absent := by
    by_cases same : t = th.tid
    · subst same
      rcases now with ⟨kept,_⟩ | ⟨_,gone⟩
      · exact absurd kept (absent th' (by simp))
      · exact gone
    · rw [others t same]
      refine h.outside t live fun x member => ?_
      rcases List.mem_append.mp member with early | here
      · exact absent x (by simp [early])
      · rcases List.mem_cons.mp here with rfl | late
        · exact fun bad => same bad.symm
        · exact absent x (by simp [late])
  faithful := faithful

theorem invHere (h : Inv r k (before ++ th :: after)) (nonzero : th.tid ≠ 0) :
    ∃ task, k.task th.tid = some task ∧ Inside th task :=
  h.inside th (by simp) nonzero

/- The entry goes and its thread is dead or was never seized. -/
theorem invCleared (h : Inv r k (before ++ th :: after)) (nonzero : th.tid ≠ 0)
    (gone : ∀ task, k.task th.tid = some task → task.traced = true → task.life = .dead) :
    Inv r k (before ++ threadClear :: after) := by
  obtain ⟨task,there,mine⟩ := invHere h nonzero
  refine invReplace h nonzero (fun _ _ => rfl) (.inr ⟨rfl,fun task' there' alive => ?_⟩) h.faithful
  cases Option.some.inj (there.symm.trans there')
  exact absurd (gone task there mine.traced) alive

theorem invBlank (h : Inv r k (before ++ th :: after)) (zero : th.tid = 0) :
    Inv r k (before ++ threadClear :: after) where
  distinct := distinctReplace h.distinct (.inr rfl)
  inside x member nonzero := by
    rcases List.mem_append.mp member with early | here
    · exact h.inside x (by simp [early]) nonzero
    · rcases List.mem_cons.mp here with rfl | late
      · exact absurd rfl nonzero
      · exact h.inside x (by simp [late]) nonzero
  outside t nonzero absent := by
    refine h.outside t nonzero fun x member => ?_
    rcases List.mem_append.mp member with early | here
    · exact absent x (by simp [early])
    · rcases List.mem_cons.mp here with rfl | late
      · exact fun same => nonzero (same.symm.trans zero)
      · exact absent x (by simp [late])
  faithful := h.faithful

theorem heldOrDead (h : Inv r k (before ++ th :: after)) (nonzero : th.tid ≠ 0)
    (marked : th.stopped = true) (free : ¬ k.held th.tid) :
    ∀ task, k.task th.tid = some task → task.traced = true → task.life = .dead := by
  intro task there traced
  obtain ⟨task',there',mine⟩ := invHere h nonzero
  cases Option.some.inj (there.symm.trans there')
  by_contra alive
  obtain ⟨_,stop,seen⟩ := mine.recorded marked alive
  exact free ⟨task,stop,true,there,traced,seen⟩

theorem recordedSignal (stop : Stop) : resumeSignalFromStatus stop.status = stop.signal := by
  cases stop with
  | delivery sig real =>
    obtain ⟨_,small,plain⟩ := real
    have other : sig ≠ sigTrap + 0x80 := by simp only [sigTrap]; omega
    simp [resumeSignalFromStatus,Stop.status,Stop.signal,ptraceEventStop,plain,other]
  | trap => rfl
  | eventStop sig => simp [resumeSignalFromStatus,Stop.status,Stop.signal]
  | syscall => rfl

/-! What each request can come to. -/
section Requests
variable {u : Kernel} {v : Answer} {t sig : Nat}

theorem serveList (h : Serve k .list v u) : v = .tids none ∧ u = k ∨
    ∃ l, v = .tids (some l) ∧ (∀ t, t ∈ l ↔ k.alive t) ∧
      u = { k with forked := fun _ => false } := by
  cases h with
  | listed all => exact .inr ⟨_,rfl,all,rfl⟩
  | unlisted => exact .inl ⟨rfl,rfl⟩

theorem serveSeize (h : Serve k (.seize t) v u) :
    (v = .errno .ok ∧ ∃ task, k.task t = some task ∧ task.life ≠ .dead ∧ task.traced = false ∧
      u = k.put t (some { task with traced := true })) ∨
    (v = .errno .esrch ∧ k.task t = none ∧ u = k) ∨ (v = .errno .other ∧ u = k) := by
  cases h with
  | seized lives alive free => exact .inl ⟨rfl,_,lives,alive,free,rfl⟩
  | seizeGone gone => exact .inr (.inl ⟨rfl,gone,rfl⟩)
  | seizeRefused => exact .inr (.inr ⟨rfl,rfl⟩)

theorem serveInterrupt (h : Serve k (.interrupt t) v u) : u = k ∧ (v = .errno .ok ∨
    v = .errno .esrch ∧ (∀ task, k.task t = some task → task.traced = true → task.life = .dead) ∨
      v = .errno .other) := by
  cases h with
  | interrupted => exact ⟨rfl,.inl rfl⟩
  | interruptGone gone => exact ⟨rfl,.inr (.inl ⟨rfl,gone⟩)⟩
  | interruptRefused => exact ⟨rfl,.inr (.inr rfl)⟩

inductive Collected (k : Kernel) (t : Nat) : Answer → Kernel → Prop where
  | stopped {task stop} (there : k.task t = some task) (traced : task.traced = true)
      (at_ : task.life = .stopped stop false) :
      Collected k t (.event t (.stopped stop.status))
        (k.put t (some { task with life := .stopped stop true, owed := stop.signal }))
  | exited {task} (there : k.task t = some task) (traced : task.traced = true)
      (dead : task.life = .dead) :
      Collected k t (.event t .exited) (k.put t none)

theorem serveWait (h : Serve k (.wait (some t)) v u) : Collected k t v u ∨
    v = .errno .esrch ∧ (∀ task, k.task t = some task → task.traced = false) ∧ u = k ∨
      v = .errno .other ∧ u = k := by
  cases h with
  | waitStopped which there traced stopped =>
    rcases which with same | bad
    · cases same; exact .inl (.stopped there traced stopped)
    · cases bad
  | waitExited which there traced dead =>
    rcases which with same | bad
    · cases same; exact .inl (.exited there traced dead)
    · cases bad
  | waitGone gone => exact .inr (.inl ⟨rfl,gone,rfl⟩)
  | waitRefused => exact .inr (.inr ⟨rfl,rfl⟩)

theorem serveAny (h : Serve k (.wait none) v u) : (∃ t, Collected k t v u) ∨ ∃ e, v = .errno e ∧
    u = k := by
  cases h with
  | waitStopped which there traced stopped => exact .inl ⟨_,.stopped there traced stopped⟩
  | waitExited which there traced dead => exact .inl ⟨_,.exited there traced dead⟩
  | anyFailed => exact .inr ⟨_,rfl,rfl⟩

theorem serveResume {single} (h : Serve k (.resume single t sig) v u) :
    (v = .errno .ok ∧ ∃ task stop seen, k.task t = some task ∧ task.traced = true ∧
      task.life = .stopped stop seen ∧
      u = k.resume t sig task true) ∨
    (v = .errno .esrch ∧ ¬ k.held t ∧ u = k) ∨ (v = .errno .other ∧ u = k) := by
  cases h with
  | resumed there traced stopped => exact .inl ⟨rfl,_,_,_,there,traced,stopped,rfl⟩
  | resumeGone gone => exact .inr (.inl ⟨rfl,gone,rfl⟩)
  | resumeRefused => exact .inr (.inr ⟨rfl,rfl⟩)

theorem serveDetach (h : Serve k (.detach t sig) v u) :
    (∃ task stop seen, k.task t = some task ∧ task.traced = true ∧ task.life = .stopped stop seen ∧
      u = k.resume t sig task false) ∨
    ¬ k.held t ∧ u = k := by
  cases h with
  | detached there traced stopped => exact .inl ⟨_,_,_,there,traced,stopped,rfl⟩
  | detachGone gone => exact .inr ⟨gone,rfl⟩

theorem servePc (h : Serve k (.getPc t) v u) :
    u = k ∧ ((∃ pc, v = .pc pc) ∨ v = .errno .esrch ∧ ¬ k.held t ∨ v = .errno .other) := by
  cases h with
  | pc => exact ⟨rfl,.inl ⟨_,rfl⟩⟩
  | pcGone gone => exact ⟨rfl,.inr (.inl ⟨rfl,gone⟩)⟩
  | pcRefused => exact ⟨rfl,.inr (.inr rfl)⟩

theorem serveQuestion {c : Call}
    (which : c = .processIsExited ∨ c = .exeLink ∨ c = .checkIsPie ∨ c = .readImageBase)
    (h : Serve k c v u) : u = k := by
  cases h with
  | isExited | link | isPie | imageBase => rfl
  | _ => rcases which with bad | bad | bad | bad <;> cases bad

end Requests

/-! The requests that the tracer makes for one entry. -/
section Entries
variable {u : Kernel} {v : Answer}

theorem invStopped {task : Task} {stop : Stop} (h : Inv r k (before ++ th :: after))
    (nonzero : th.tid ≠ 0) (traced : task.traced = true) :
    Inv r (k.put th.tid (some { task with life := .stopped stop true, owed := stop.signal }))
      (before ++ threadMarkStopped th stop.status :: after) := by
  refine invReplace h nonzero (fun t other => putOther other) (.inl ⟨rfl,_,putSame k _ _,?_⟩)
    h.faithful
  exact ⟨traced,fun _ bad => by simp at bad,fun _ _ => ⟨recordedSignal stop,stop,rfl⟩,
    fun bad => by cases bad⟩

theorem invReaped (h : Inv r k (before ++ th :: after)) (nonzero : th.tid ≠ 0) :
    Inv r (k.put th.tid none) (before ++ threadClear :: after) := by
  refine invReplace h nonzero (fun t other => putOther other) (.inr ⟨rfl,fun task there => ?_⟩)
    h.faithful
  rw [putSame] at there
  cases there

theorem invResumed {task : Task} {stop seen} (h : Inv r k (before ++ th :: after))
    (nonzero : th.tid ≠ 0) (marked : th.stopped = true)
    (there : k.task th.tid = some task) (stopped : task.life = .stopped stop seen) :
    Inv r (k.resume th.tid th.resumeSignal task true)
      (before ++ threadMarkRunning th :: after) := by
  obtain ⟨task',there',mine⟩ := invHere h nonzero
  cases Option.some.inj (there.symm.trans there')
  have recorded := (mine.recorded marked (by rw [stopped]; simp)).1
  refine invReplace h nonzero (fun t other => putOther other) (.inl ⟨rfl,_,putSame k _ _,?_⟩)
    fun lossless e member => ?_
  · exact ⟨rfl,fun bad => absurd bad (by simp [threadMarkRunning]),
      fun bad => absurd bad (by simp [threadMarkRunning]),
      fun _ _ => ⟨rfl,fun stop bad => by simp at bad⟩⟩
  · rcases List.mem_append.mp member with old | new
    · exact h.faithful lossless e old
    · rw [List.mem_singleton.mp new]; exact recorded

variable (r) in
def EntryKeeps (done : Thread → Prop) (f : Thread → Tracer (Thread × Bool)) : Prop :=
  ∀ before th after k, Inv r k (before ++ th :: after) →
    Holds Move (Calls r) (fun u x => Inv r u (before ++ x.1 :: after) ∧ (x.2 = true → done x.1))
      (f th) k

theorem entryDone {done : Thread → Prop} {ok : Bool} (h : Inv r k (before ++ th' :: after))
    (is : ok = true → done th') :
    Holds Move (Calls r) (fun u x => Inv r u (before ++ x.1 :: after) ∧ (x.2 = true → done x.1))
      (pure (th',ok) : Tracer (Thread × Bool)) k :=
  holdsDone (invStable _) h fun _ inv => ⟨inv,is⟩

theorem entryAny {ok : Bool} (h : Inv r k (before ++ th' :: after)) :
    Holds Move (Calls r) (fun u x => Inv r u (before ++ x.1 :: after) ∧ (x.2 = true → True))
      (pure (th',ok) : Tracer (Thread × Bool)) k :=
  holdsDone (invStable _) h fun _ inv => ⟨inv,fun _ => trivial⟩

theorem interruptKeeps : EntryKeeps r (fun _ => True) interruptThread := by
  intro before th after k h
  unfold interruptThread
  split
  · exact entryAny h
  · next going =>
    push Not at going
    refine holdsAsk (invStable _) h fun t v u inv answer => ?_
    obtain ⟨rfl,rfl | ⟨rfl,gone⟩ | rfl⟩ := serveInterrupt answer.1
    · exact entryAny inv
    · exact entryAny (invCleared inv going.1 gone)
    · exact entryAny inv

def Rested (th : Thread) : Prop := th.tid = 0 ∨ th.stopped = true

theorem waitStopKeeps (nonzero : th.tid ≠ 0) (h : Inv r k (before ++ th :: after)) :
    Holds Move (Calls r) (fun u x => Inv r u (before ++ x.1 :: after) ∧ (x.2 = true → Rested x.1))
      (waitForThreadStop th) k := by
  unfold waitForThreadStop
  rw [if_neg nonzero]
  refine holdsAsk (invStable _) h fun t v u inv answer => ?_
  rcases serveWait answer.1 with collected | ⟨rfl,gone,rfl⟩ | ⟨rfl,rfl⟩
  · cases collected with
    | stopped there traced at_ => exact entryDone (invStopped inv nonzero traced) fun _ => .inr rfl
    | exited => exact entryDone (invReaped inv nonzero) fun _ => .inl rfl
  · refine entryDone (invCleared inv nonzero fun task there traced => ?_) fun _ => .inl rfl
    rw [gone task there] at traced
    cases traced
  · exact entryDone inv fun bad => by cases bad

theorem waitKeeps : EntryKeeps r Rested waitThread := by
  intro before th after k h
  unfold waitThread
  split
  · next rested => exact entryDone h fun _ => rested
  · next going =>
    push Not at going
    exact waitStopKeeps going.1 h

theorem continueKeeps : EntryKeeps r (fun _ => True) continueThread := by
  intro before th after k h
  unfold continueThread
  split
  · exact entryAny h
  · next going =>
    push Not at going
    have marked : th.stopped = true := by simpa using going.2
    refine holdsAsk (invStable _) h fun t v u inv answer => ?_
    rcases serveResume answer.1 with ⟨rfl,task,stop,seen,there,_,stopped,rfl⟩ | ⟨rfl,free,rfl⟩
      | ⟨rfl,rfl⟩
    · exact entryAny (invResumed inv going.1 marked there stopped)
    · exact entryAny (invCleared inv going.1 (heldOrDead inv going.1 marked free))
    · exact entryAny inv

theorem singleStepKeeps (nonzero : th.tid ≠ 0) (marked : th.stopped = true)
    (h : Inv r k (before ++ th :: after)) :
    Holds Move (Calls r) (fun u x => Inv r u (before ++ x.1 :: after) ∧ (x.2 = true → Rested x.1))
      (singleStepThread th) k := by
  unfold singleStepThread
  rw [if_neg (by simp [nonzero,marked])]
  refine holdsAsk (invStable _) h fun t v u inv answer => ?_
  rcases serveResume answer.1 with ⟨rfl,task,stop,seen,there,_,stopped,rfl⟩ | ⟨rfl,free,rfl⟩
    | ⟨rfl,rfl⟩
  · exact @waitStopKeeps r _ (threadMarkRunning th) before after nonzero
      (invResumed inv nonzero marked there stopped)
  · exact entryDone (invCleared inv nonzero (heldOrDead inv nonzero marked free)) fun _ => .inl rfl
  · exact entryDone inv fun bad => by cases bad

theorem stepOutKeeps {inside : Nat → Bool} (n : Nat) : ∀ {th : Thread} {k : Kernel}, Rested th →
    Inv r k (before ++ th :: after) →
    Holds Move (Calls r) (fun u x => Inv r u (before ++ x.1 :: after) ∧ (x.2 = true → Rested x.1))
      (stepOut inside n th) k := by
  induction n with
  | zero => exact fun rested h => entryDone h fun _ => rested
  | succ n ih =>
    intro th k rested h
    refine holdsAsk (invStable _) h fun t v u inv answer => ?_
    obtain ⟨rfl,⟨pc,rfl⟩ | ⟨rfl,free⟩ | rfl⟩ := servePc answer.1
    · dsimp only
      split
      · exact entryDone inv fun _ => rested
      · by_cases going : th.tid = 0
        · -- The thread exited in the last step: there is nothing to step.
          rw [singleStepThread,if_pos (.inl going)]
          exact entryDone inv fun bad => by cases bad
        · refine holdsThen (singleStepKeeps going (rested.resolve_left going) inv)
            fun u x held => ?_
          obtain ⟨th',ok⟩ := x
          cases ok with
          | false => exact entryDone held.1 fun bad => by cases bad
          | true => exact ih (held.2 rfl) held.1
    · by_cases going : th.tid = 0
      · exact entryDone (invBlank inv going) fun _ => .inl rfl
      · exact entryDone (invCleared inv going
          (heldOrDead inv going (rested.resolve_left going) free)) fun _ => .inl rfl
    · exact entryDone inv fun bad => by cases bad

theorem safeKeeps {inside : Nat → Bool} : EntryKeeps r (fun _ => True) (makeThreadSafe inside) := by
  intro before th after k h
  unfold makeThreadSafe
  split
  · exact entryAny h
  · next going =>
    push Not at going
    refine holdsThen (stepOutKeeps _ (.inr (by simpa using going.2)) h) fun u x held => ?_
    obtain ⟨th',ok⟩ := x
    cases ok with
    | false => exact entryAny held.1
    | true =>
      dsimp only
      split
      · exact entryAny held.1
      · refine holdsAsk (invStable _) held.1 fun t v u inv answer => ?_
        obtain ⟨rfl,⟨pc,rfl⟩ | ⟨rfl,_⟩ | rfl⟩ := servePc answer.1
        · exact entryAny inv
        · exact entryAny inv
        · exact entryAny inv

theorem eachKeeps {done : Thread → Prop} {f : Thread → Tracer (Thread × Bool)}
    (one : EntryKeeps r done f) (list : List Thread) :
    ∀ (before : List Thread) {k}, Inv r k (before ++ list) → Holds Move (Calls r)
      (fun u x => Inv r u (before ++ x.1) ∧ (x.2 = true → ∀ th ∈ x.1, done th)) (eachThread f list)
        k := by
  induction list with
  | nil => exact fun before k h => holdsDone (invStable _) h fun _ inv =>
      ⟨inv,fun _ th bad => by cases bad⟩
  | cons th rest ih =>
    intro before k h
    refine holdsThen (one before th rest k h) fun u x held => ?_
    obtain ⟨th',ok⟩ := x
    obtain ⟨inv,is⟩ := held
    cases ok with
    | false => exact holdsDone (invStable _) inv fun _ inv => ⟨inv,fun bad => by cases bad⟩
    | true =>
      have shifted : Inv r u ((before ++ [th']) ++ rest) := by simpa using inv
      refine holdsThen (ih _ shifted) fun w y held => ?_
      obtain ⟨rest',ok⟩ := y
      have whole : Inv r w (before ++ th' :: rest') := by simpa using held.1
      refine holdsDone (invStable _) whole fun _ inv => ⟨inv,fun good x member => ?_⟩
      rcases List.mem_cons.mp member with rfl | late
      · exact is rfl
      · exact held.2 good x late

end Entries

end ZeroTrace.ThreadTable
