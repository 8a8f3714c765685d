import ZeroTrace.SessionRuns

/-! The stop of the group, with notes of what the kernel's answers tell: how full the table
is, and how often the threads have been listed. -/
namespace ZeroTrace.StopNotes
open Relation SharedRead SharedCalls ThreadControl ThreadTable GroupStop SessionRuns

/- The entries of the table, the cleared ones included, and the enumerations. -/
structure Notes where
  entries : Nat
  cleared : Nat
  listed : Nat

def Notes.zero : Notes := ⟨0,0,0⟩

/- Between two passes the table is compacted; the first enumeration comes before that. -/
def Notes.list (g : Notes) : Notes :=
  if g.listed = 0 then { g with listed := 1 } else ⟨g.entries - g.cleared,0,g.listed + 1⟩

def Notes.clear (g : Notes) : Notes := { g with cleared := g.cleared + 1 }

def Notes.next (g : Notes) (c : Call) (v : Answer) : Notes := match c,v with
  | .list,_ => g.list
  | .seize _,.errno .ok => { g with entries := g.entries + 1 }
  | .interrupt _,.errno .esrch => g.clear
  | .wait _,.errno .esrch => g.clear
  | .wait _,.event _ .exited => g.clear
  | _,_ => g

abbrev Noted := Kernel × Notes

/- A request that fails, but not because the thread is gone. -/
def Refused : Call → Answer → Prop
  | .list,.tids none => True
  | .seize _,.errno .other => True
  | .interrupt _,.errno .other => True
  | .wait _,.errno .other => True
  | _,_ => False

def Still (k : Kernel) : Prop := ∀ t task, t ≠ 0 → k.task t = some task → task.traced = true →
    task.life ≠ .running

/- What the steps of an attach that fails, and of its clean-up, have to meet. `room`: no thread
is seized that the table has no room for. `ends`: the last pass of the clean-up seizes no thread.
`still`: where a request of the clean-up is refused, no tracee runs. -/
structure Meets (cleaning : Prop) (x : Noted) (c : Call) (v : Answer) : Prop where
  room : ∀ t, c = .seize t → v = .errno .ok → x.2.entries < threadsCapacity
  ends : cleaning → ∀ t, c = .seize t → v = .errno .ok → x.2.listed ≤ maxStopPasses
  still : cleaning → Refused c v → Still x.1

def Noting : Noted → Call → Answer → Noted → Prop := besideCall (Calls anyRun) Notes.next

def Met (cleaning : Prop) (x : Noted) (c : Call) (v : Answer) (y : Noted) : Prop :=
  Noting x c v y ∧ Meets cleaning x c v

variable {cleaning : Prop} {x y : Noted} {k k' u : Kernel} {g : Notes}
    {threads before after : List Thread} {th : Thread} {s s' : Session} {n t : Nat}

theorem stillStable : Stable Move Still := by
  intro k k' h move t task nonzero now traced
  have drift := moveDrift move t
  generalize old : k.task t = before at drift
  generalize k'.task t = later at drift now
  cases drift with
  | same => cases now; exact h t task nonzero old traced
  | born => cases Option.some.inj now; cases traced
  | died =>
    split at now
    · cases Option.some.inj now; simp
    · cases now
  | stopped running was => exact absurd running (h t _ nonzero old was)

/-! The notes tell of the table. -/
def zeros (threads : List Thread) : Nat := threads.countP fun th => th.tid == 0

structure Shown (n : Nat) (x : Noted) (threads : List Thread) : Prop where
  inv : Inv anyRun x.1 threads
  covered : Covered x.1 threads []
  entries : x.2.entries = threads.length
  cleared : x.2.cleared = zeros threads
  listed : x.2.listed = n

theorem shownStable (n : Nat) (threads : List Thread) : Stable (besideMove Move) fun x =>
    Shown n x threads := by
  rintro ⟨k,g⟩ ⟨k',g'⟩ h ⟨move,same⟩
  cases same
  exact ⟨invMove h.inv move,coveredMove h.covered move,h.entries,h.cleared,h.listed⟩

theorem stillNoted : Stable (besideMove Move) fun x : Noted => Still x.1 :=
  fun _ _ h move => stillStable _ _ h move.1

theorem shownStill (n : Nat) (threads : List Thread) : Stable (besideMove Move) fun x =>
    Shown n x threads ∧ (cleaning → Still x.1) :=
  fun _ _ h move => ⟨shownStable n threads _ _ h.1 move,fun yes => stillNoted _ _ (h.2 yes) move⟩

theorem metParts {g' : Notes} {c : Call} {v : Answer} (answer : Met cleaning (k,g) c v (u,g')) :
    Serve k c v u ∧ g' = g.next c v ∧ Meets cleaning (k,g) c v :=
  ⟨answer.1.1.1,answer.1.2,answer.2⟩

theorem zerosCleared (nonzero : th.tid ≠ 0) :
    zeros (before ++ threadClear :: after) = zeros (before ++ th :: after) + 1 := by
  simp only [zeros,List.countP_append,List.countP_cons,threadClear,beq_iff_eq,nonzero]
  simp
  omega

theorem zerosSame {th' : Thread} (same : th'.tid = th.tid) :
    zeros (before ++ th' :: after) = zeros (before ++ th :: after) := by
  simp only [zeros,List.countP_append,List.countP_cons,same]

theorem zerosCompact : (compactThreads s).threads.length = s.threads.length - zeros s.threads ∧
    zeros (compactThreads s).threads = 0 := by
  have parts : s.threads.length = zeros s.threads + (compactThreads s).threads.length := by
    have rest : (compactThreads s).threads.length = s.threads.countP fun th => th.tid != 0 := by
      rw [List.countP_eq_length_filter]
      rfl
    rw [rest,zeros]
    refine (List.length_eq_countP_add_countP fun th : Thread => th.tid == 0).trans
      (congrArg _ (List.countP_congr fun th _ => ?_))
    simp
  refine ⟨by omega,List.countP_eq_zero.mpr fun th member => ?_⟩
  have kept := (List.mem_filter.mp member).2
  simpa using kept

theorem shownCleared (h : Shown n (k,g) (before ++ th :: after)) (nonzero : th.tid ≠ 0)
    (inv : Inv anyRun u (before ++ threadClear :: after))
    (others : ∀ x, x ≠ th.tid → u.task x = k.task x)
    (gone : ∀ task, u.task th.tid = some task → task.traced = true → task.life = .dead) :
    Shown n (u,g.clear) (before ++ threadClear :: after) := by
  refine ⟨inv,fun x task live there alive traced => ?_,?_,?_,h.listed⟩
  · by_cases same : x = th.tid
    · subst same
      exact absurd (gone task there traced) alive
    · rw [others x same] at there
      exact .inl (listedReplace (.inl same)
        ((h.covered x task live there alive traced).resolve_right (by simp)))
  · have length := h.entries
    simp only [List.length_append,List.length_cons] at length ⊢
    exact length
  · rw [zerosCleared nonzero]
    exact congrArg (· + 1) h.cleared

theorem shownMarked {th' : Thread} (h : Shown n (k,g) (before ++ th :: after))
    (same : th'.tid = th.tid)
    (inv : Inv anyRun u (before ++ th' :: after)) (others : ∀ x, x ≠ th.tid → u.task x = k.task x) :
    Shown n (u,g) (before ++ th' :: after) := by
  refine ⟨inv,fun x task live there alive traced => ?_,?_,?_,h.listed⟩
  · by_cases mine : x = th.tid
    · exact .inl ⟨th',by simp,same.trans mine.symm⟩
    · rw [others x mine] at there
      exact .inl (listedReplace (.inl mine)
        ((h.covered x task live there alive traced).resolve_right (by simp)))
  · have length := h.entries
    simp only [List.length_append,List.length_cons] at length ⊢
    exact length
  · rw [zerosSame same]
    exact h.cleared

def Passed (cleaning : Prop) (n : Nat) (done : Thread → Prop) (before after : List Thread)
    (y : Noted) (r : Thread × Bool) : Prop :=
  Shown n y (before ++ r.1 :: after) ∧ (r.2 = true → done r.1) ∧
    (r.2 = false → cleaning → Still y.1)

theorem passedDone {done : Thread → Prop} {th' : Thread} (h : Shown n x (before ++ th' :: after))
    (is : done th') :
    Holds (besideMove Move) (Met cleaning) (Passed cleaning n done before after)
      (pure (th',true) : Tracer (Thread × Bool)) x :=
  holdsDone (shownStable _ _) h fun _ shown => ⟨shown,fun _ => is,fun bad => by cases bad⟩

theorem passedFailed {done : Thread → Prop} {th' : Thread} (h : Shown n x (before ++ th' :: after))
    (still : cleaning → Still x.1) :
    Holds (besideMove Move) (Met cleaning) (Passed cleaning n done before after)
      (pure (th',false) : Tracer (Thread × Bool)) x :=
  holdsDone (shownStill _ _) ⟨h,still⟩ fun _ both =>
    ⟨both.1,fun bad => (by cases bad),fun _ => both.2⟩

def EntryShows (cleaning : Prop) (done : Thread → Prop)
    (f : Thread → Tracer (Thread × Bool)) : Prop :=
  ∀ n before th after x, Shown n x (before ++ th :: after) →
    Holds (besideMove Move) (Met cleaning) (Passed cleaning n done before after) (f th) x

theorem interruptShows : EntryShows cleaning (fun _ => True) interruptThread := by
  intro n before th after x h
  unfold interruptThread
  split
  · exact passedDone h trivial
  · next going =>
    push Not at going
    refine holdsAsk (shownStable _ _) h fun y v z shown answer => ?_
    obtain ⟨k,g⟩ := y
    obtain ⟨u,g'⟩ := z
    obtain ⟨serve,rfl,meets⟩ := metParts answer
    obtain ⟨rfl,rfl | ⟨rfl,gone⟩ | rfl⟩ := serveInterrupt serve
    · exact passedDone shown trivial
    · exact passedDone
        (shownCleared shown going.1 (invCleared shown.inv going.1 gone) (fun _ _ => rfl) gone)
        trivial
    · exact passedFailed shown fun yes => meets.still yes trivial

theorem waitShows : EntryShows cleaning Rested waitThread := by
  intro n before th after x h
  unfold waitThread
  split
  · next rested => exact passedDone h rested
  · next going =>
    push Not at going
    unfold waitForThreadStop
    rw [if_neg going.1]
    refine holdsAsk (shownStable _ _) h fun y v z shown answer => ?_
    obtain ⟨k,g⟩ := y
    obtain ⟨u,g'⟩ := z
    obtain ⟨serve,rfl,meets⟩ := metParts answer
    rcases serveWait serve with collected | ⟨rfl,gone,rfl⟩ | ⟨rfl,rfl⟩
    · cases collected with
      | stopped there traced at_ =>
        exact passedDone (shownMarked shown rfl (invStopped shown.inv going.1 traced)
          fun _ other => putOther other) (.inr rfl)
      | exited =>
        refine passedDone (shownCleared shown going.1 (invReaped shown.inv going.1)
          (fun _ other => putOther other) fun task now => ?_) (.inl rfl)
        rw [putSame] at now
        cases now
    · have dead : ∀ task, u.task th.tid = some task → task.traced = true → task.life = .dead :=
        fun task there traced => by
        rw [gone task there] at traced
        cases traced
      exact passedDone (shownCleared shown going.1 (invCleared shown.inv going.1 dead)
        (fun _ _ => rfl) dead) (.inl rfl)
    · exact passedFailed shown fun yes => meets.still yes trivial

theorem eachShows {done : Thread → Prop} {f : Thread → Tracer (Thread × Bool)}
    (one : EntryShows cleaning done f) (list : List Thread) :
    ∀ (before : List Thread) {x}, Shown n x (before ++ list) →
      Holds (besideMove Move) (Met cleaning)
      (fun y r => Shown n y (before ++ r.1) ∧ (r.2 = true → ∀ th ∈ r.1, done th) ∧
        (r.2 = false → cleaning → Still y.1)) (eachThread f list) x := by
  induction list with
  | nil => exact fun before x h => holdsDone (shownStable _ _) h fun _ shown =>
      ⟨shown,fun _ th bad => (by cases bad),fun bad => by cases bad⟩
  | cons th rest ih =>
    intro before x h
    refine holdsThen (one n before th rest x h) fun y r held => ?_
    obtain ⟨th',ok⟩ := r
    obtain ⟨shown,is,still⟩ := held
    cases ok with
    | false => exact holdsDone (shownStill _ _) ⟨shown,still rfl⟩ fun _ both =>
        ⟨both.1,fun bad => (by cases bad),fun _ => both.2⟩
    | true =>
      have shifted : Shown n y ((before ++ [th']) ++ rest) := by simpa using shown
      refine holdsThen (ih _ shifted) fun z r held => ?_
      obtain ⟨rest',ok⟩ := r
      obtain ⟨shown,others,still⟩ := held
      have whole : Shown n z (before ++ th' :: rest') := by simpa using shown
      refine holdsDone (shownStill _ _) (⟨whole,fun yes => ?_⟩ : _ ∧
        ((ok = false ∧ cleaning) → Still z.1)) fun _ both =>
        ⟨both.1,fun good x member => ?_,fun bad yes => both.2 ⟨bad,yes⟩⟩
      · exact still yes.1 yes.2
      · rcases List.mem_cons.mp member with rfl | late
        · exact is rfl
        · exact others good x late

/- `still` and `ends` are for the clean-up. -/
structure Sought (cleaning : Prop) (n : Nat) (s : Session) (y : Noted)
    (r : Session × Bool) : Prop where
  shown : Shown n y r.1.threads
  flags : SameFlags s r.1
  blank : zeros r.1.threads = zeros s.threads
  still : r.2 = false → cleaning → Still y.1
  ends : cleaning → maxStopPasses < n → r.1.threads = s.threads

theorem soughtMono {y : Noted} {r : Session × Bool} (h : Sought cleaning n s' y r)
    (flags : SameFlags s s') (blank : zeros s'.threads = zeros s.threads)
    (ends : cleaning → maxStopPasses < n → s'.threads = s.threads) : Sought cleaning n s y r :=
  ⟨h.shown,⟨h.flags.1.trans flags.1,h.flags.2.1.trans flags.2.1,h.flags.2.2.trans flags.2.2⟩,
    h.blank.trans blank,h.still,
    fun yes late => (h.ends yes late).trans (ends yes late)⟩

theorem shownSeized {task : Task} (h : Shown n (k,g) threads) (nonzero : t ≠ 0)
    (unlisted : ¬ Listed threads t) (there : k.task t = some task)
    (alive : task.life ≠ .dead) :
    Shown n (k.put t (some { task with traced := true }),{ g with entries := g.entries + 1 })
      (threads ++ [⟨t,false,0⟩]) := by
  refine ⟨invAdded h.inv nonzero unlisted there alive,?_,?_,?_,h.listed⟩
  · exact coveredChange h.covered (fun _ other => putOther other)
      (fun _ _ _ known => listedAdded known) fun _ _ _ _ => listedLast
  · rw [List.length_append]
    exact congrArg (· + 1) h.entries
  · have same : zeros (threads ++ [⟨t,false,0⟩]) = zeros threads := by
      simp [zeros,List.countP_append,nonzero]
    rw [same]
    exact h.cleared

theorem seizeEachShows (todo : List Nat) : ∀ {s : Session} {x}, Shown n x s.threads →
    Holds (besideMove Move) (Met cleaning) (Sought cleaning n s) (seizeEach s todo) x := by
  induction todo with
  | nil =>
    exact fun h => holdsDone (shownStable _ _) h fun _ shown =>
      ⟨shown,⟨rfl,rfl,rfl⟩,rfl,fun bad => (by cases bad),fun _ _ => rfl⟩
  | cons t todo ih =>
    intro s x h
    unfold seizeEach
    split
    · exact ih h
    · next nonzero =>
      unfold seizeThread
      by_cases known : hasThread s t = true
      · rw [if_pos known]
        exact ih h
      · have unlisted : ¬ Listed s.threads t := fun listed => known ((hasListed nonzero).mpr listed)
        rw [if_neg known]
        refine holdsAsk (shownStable _ _) h fun y v z shown answer => ?_
        obtain ⟨k,g⟩ := y
        obtain ⟨u,g'⟩ := z
        obtain ⟨serve,rfl,meets⟩ := metParts answer
        rcases serveSeize serve with ⟨rfl,task,there,alive,_,rfl⟩ | ⟨rfl,gone,rfl⟩ | ⟨rfl,rfl⟩
        · have room : ¬ threadsCapacity ≤ s.threads.length := by
            have free := meets.room t rfl rfl
            rw [shown.entries] at free
            omega
          dsimp only [errnoOf]
          unfold addThread
          rw [if_neg nonzero,if_neg known,if_neg room]
          have seized := shownSeized shown nonzero unlisted there alive
          have early : cleaning → ¬ maxStopPasses < n := fun yes => by
            have bound := meets.ends yes t rfl rfl
            rw [shown.listed] at bound
            omega
          have added : ∀ z r, Sought cleaning n { s with threads := s.threads ++ [⟨t,false,0⟩] } z
              r → Sought cleaning n s z r := fun z r sought =>
            soughtMono sought ⟨rfl,rfl,rfl⟩ (seized.cleared.symm.trans shown.cleared)
              fun yes late => absurd late (early yes)
          exact holdsMono added (ih seized)
        · exact ih shown
        · exact holdsDone (shownStill _ _) ⟨shown,fun yes => meets.still yes trivial⟩ fun _ both =>
            ⟨both.1,⟨rfl,rfl,rfl⟩,rfl,fun _ => both.2,fun _ _ => rfl⟩

theorem refreshShows (live : s.pid ≠ 0) (h : Shown n (x.1,x.2.list) s.threads) :
    Holds (besideMove Move) (Met cleaning) (Sought cleaning n s) (refreshThreads s) x := by
  unfold refreshThreads
  rw [if_neg live]
  have stable : Stable (besideMove Move) fun x : Noted => Shown n (x.1,x.2.list) s.threads :=
    fun x y shown move =>
    shownStable n s.threads (x.1,x.2.list) (y.1,y.2.list) shown ⟨move.1,congrArg Notes.list move.2⟩
  refine holdsAsk stable h fun y v z shown answer => ?_
  obtain ⟨k,g⟩ := y
  obtain ⟨u,g'⟩ := z
  obtain ⟨serve,rfl,meets⟩ := metParts answer
  rcases serveList serve with ⟨rfl,rfl⟩ | ⟨l,rfl,all,rfl⟩
  · exact holdsDone (shownStill _ _) ⟨shown,fun yes => meets.still yes trivial⟩ fun _ both =>
      ⟨both.1,⟨rfl,rfl,rfl⟩,rfl,fun _ => both.2,fun _ _ => rfl⟩
  · exact seizeEachShows l
      ⟨⟨shown.inv.distinct,shown.inv.inside,shown.inv.outside,shown.inv.faithful⟩,shown.covered,
      shown.entries,
      shown.cleared,shown.listed⟩

structure Ended (cleaning : Prop) (s : Session) (y : Noted) (r : Session × Bool) : Prop where
  shown : ∃ n, Shown n y r.1.threads
  pid : r.1.pid = s.pid
  marked : r.2 = true → r.1.threadsStopped = true
  still : r.2 = false → cleaning → Still y.1

theorem endedFailed (h : Shown n x s'.threads) (pid : s'.pid = s.pid)
    (still : cleaning → Still x.1) :
    Holds (besideMove Move) (Met cleaning) (Ended cleaning s)
      (pure (s',false) : Tracer (Session × Bool)) x :=
  holdsDone (shownStill _ _) ⟨h,still⟩ fun _ both =>
    ⟨⟨n,both.1⟩,pid,fun bad => (by cases bad),fun _ => both.2⟩

theorem shownCompact (h : Shown n x s.threads) (again : n ≠ 0) :
    Shown (n + 1) (x.1,x.2.list) (compactThreads s).threads := by
  have list : x.2.list = ⟨x.2.entries - x.2.cleared,0,n + 1⟩ := by
    rw [Notes.list,if_neg (by rw [h.listed]; exact again),h.listed]
  rw [list]
  refine ⟨compactKeeps h.inv,fun t task nonzero there alive traced => ?_,?_,?_,rfl⟩
  · exact .inl (listedCompact nonzero
      ((h.covered t task nonzero there alive traced).resolve_right (by simp)))
  · dsimp only
    rw [h.entries,h.cleared]
    exact zerosCompact.1.symm
  · exact zerosCompact.2.symm

theorem restedCompact (rested : ∀ th ∈ s.threads, Rested th) :
    hasUnstoppedThread (compactThreads s) = false := by
  refine List.any_eq_false.mpr fun th member => ?_
  rcases rested th (List.mem_filter.mp member).1 with zero | marked
  · simp [zero]
  · simp [marked]

theorem passShows {m : Nat} (h : Shown m x s'.threads) (again : m ≠ 0) (pid : s'.pid = s.pid)
    (live : s.pid ≠ 0)
    (rest : ∀ {s3 y}, Shown (m + 1) y s3.threads → s3.pid = s.pid → (cleaning → m < maxStopPasses) →
      Holds (besideMove Move) (Met cleaning) (Ended cleaning s) (stopPasses n s3) y) :
    Holds (besideMove Move) (Met cleaning) (Ended cleaning s) (stopPasses (n + 1) s') x := by
  unfold stopPasses
  refine holdsThen (eachShows interruptShows s'.threads [] h) fun y r held => ?_
  obtain ⟨threads1,ok⟩ := r
  cases ok with
  | false => exact endedFailed held.1 pid (held.2.2 rfl)
  | true =>
    refine holdsThen (eachShows waitShows threads1 [] held.1) fun z r held => ?_
    obtain ⟨threads2,ok⟩ := r
    cases ok with
    | false => exact endedFailed held.1 pid (held.2.2 rfl)
    | true =>
      have rested := restedCompact (s := { s' with threads := threads2 }) (held.2.1 rfl)
      have compacted := @shownCompact z { s' with threads := threads2 } m held.1 again
      refine holdsThen (refreshShows (by exact pid.trans_ne live) compacted) fun w r sought => ?_
      obtain ⟨s3,ok⟩ := r
      have pid3 : s3.pid = s.pid := sought.flags.1.trans pid
      cases ok with
      | false => exact endedFailed sought.shown pid3 (sought.still rfl)
      | true =>
        dsimp only
        split
        · next unstopped =>
          -- A pass that seizes nobody is the last one.
          refine rest sought.shown pid3 fun yes => ?_
          by_contra late
          have same := sought.ends yes (by omega)
          simp only [hasUnstoppedThread] at unstopped rested
          rw [same,rested] at unstopped
          cases unstopped
        · exact holdsDone (shownStable _ _) sought.shown fun _ shown =>
            ⟨⟨_,shown⟩,pid3,fun _ => rfl,fun bad => by cases bad⟩

theorem passesShow (n : Nat) : ∀ {m : Nat} {s' : Session} {x : Noted}, Shown m x s'.threads →
    m ≠ 0 → s'.pid = s.pid → s.pid ≠ 0 →
    (cleaning → m + n = maxStopPasses) →
      Holds (besideMove Move) (Met cleaning) (Ended cleaning s) (stopPasses (n + 1) s') x := by
  induction n with
  | zero =>
    intro m s' x h again pid live last
    refine passShows h again pid live fun shown pid3 early => endedFailed shown pid3 fun yes => ?_
    have bound := early yes
    have all := last yes
    omega
  | succ n ih =>
    intro m s' x h again pid live last
    refine passShows h again pid live fun shown pid3 early =>
      ih shown (by omega) pid3 live fun yes => ?_
    have all := last yes
    omega

theorem interruptAllShows {m : Nat} (live : s.pid ≠ 0) (h : Shown m (x.1,x.2.list) s.threads)
    (again : m ≠ 0) (first : cleaning → m = 1) :
    Holds (besideMove Move) (Met cleaning) (Ended cleaning s) (interruptAll s) x := by
  unfold interruptAll
  rw [if_neg live]
  refine holdsThen (refreshShows live h) fun y r sought => ?_
  obtain ⟨s1,ok⟩ := r
  cases ok with
  | false => exact endedFailed sought.shown sought.flags.1 (sought.still rfl)
  | true => exact passesShow 15 sought.shown again sought.flags.1 live fun yes => by rw [first yes]; rfl

def Tried (y : Noted) (r : Session × Bool) : Prop := (∃ n, Shown n y r.1.threads) ∧
    (r.1.pid = 0 → r.1.threads = [])

theorem triedDone {ok : Bool} (h : Shown n x s.threads) (live : s.pid ≠ 0) :
    Holds (besideMove Move) (Met False) Tried (pure (s,ok) : Tracer (Session × Bool)) x :=
  holdsDone (shownStable _ _) h fun _ shown => ⟨⟨_,shown⟩,fun bad => absurd bad live⟩

theorem triedAsk {c : Call} {f : Answer → Tracer (Session × Bool)}
    (which : c = .exeLink ∨ c = .checkIsPie ∨ c = .readImageBase)
    (h : Shown n x threads)
    (next : ∀ v {y}, Shown n y threads → Holds (besideMove Move) (Met False) Tried (f v) y) :
    Holds (besideMove Move) (Met False) Tried (ask c >>= f) x := by
  refine holdsAsk (shownStable _ _) h fun y v z shown answer => next v ?_
  obtain ⟨k,g⟩ := y
  obtain ⟨u,g'⟩ := z
  obtain ⟨serve,rfl,_⟩ := metParts answer
  cases serveQuestion (.inr which) serve
  rcases which with rfl | rfl | rfl <;> exact shown

theorem shownAgain (h : Shown 1 x s.threads) (blank : zeros s.threads = 0) :
    Shown 2 (x.1,x.2.list) s.threads := by
  have none_ : x.2.cleared = 0 := h.cleared.trans blank
  have list : x.2.list = ⟨x.2.entries - x.2.cleared,0,2⟩ := by
    rw [Notes.list,if_neg (by rw [h.listed]; decide),h.listed]
  rw [list,none_]
  exact ⟨h.inv,h.covered,h.entries,blank.symm,rfl⟩

theorem tryAttachShows {pid : Nat} (h : Shown 0 (k,.zero) []) :
    Holds (besideMove Move) (Met False) Tried (tryAttach pid) (k,.zero) := by
  unfold tryAttach
  by_cases zero : pid = 0
  · have none_ : refreshThreads { Session.zero with pid := pid } =
      pure ({ Session.zero with pid := pid },false) := if_pos zero
    rw [none_]
    exact holdsDone (shownStable _ _) h fun _ shown => ⟨⟨0,shown⟩,fun _ => rfl⟩
  · have start : Shown 1 (k,Notes.zero.list) [] := ⟨h.inv,h.covered,rfl,rfl,rfl⟩
    refine holdsThen (refreshShows (s := { Session.zero with pid := pid }) zero start)
      fun y r sought => ?_
    obtain ⟨s1,ok⟩ := r
    have live : s1.pid ≠ 0 := sought.flags.1.trans_ne zero
    cases ok with
    | false => exact triedDone sought.shown live
    | true =>
      refine holdsThen (interruptAllShows live (shownAgain sought.shown sought.blank) (by decide)
        fun bad => bad.elim) fun z r ended => ?_
      obtain ⟨s2,ok⟩ := r
      obtain ⟨⟨m,shown⟩,same,_,_⟩ := ended
      have live2 : s2.pid ≠ 0 := same.trans_ne live
      cases ok with
      | false => exact triedDone shown live2
      | true =>
        refine triedAsk (.inl rfl) shown fun v w shown => ?_
        split
        · exact triedDone shown live2
        · refine triedAsk (.inr (.inl rfl)) shown fun v w shown => ?_
          split
          · refine triedAsk (.inr (.inr rfl)) shown fun v w shown => ?_
            split
            · exact triedDone shown live2
            · exact triedDone shown live2
          · exact triedDone shown live2

/- The clean-up's stop begins to count anew. -/
theorem stopForDetachShows {m : Nat} {g : Notes} (h : Shown m (k,g) s.threads)
    (empty : s.pid = 0 → s.threads = []) :
    Holds (besideMove Move) (Met True) (fun y s' => s'.threadsStopped =
      true ∨ Covered y.1 s'.threads [] ∧ (s'.threads = [] ∨ Still y.1))
      (stopForDetach s) (k,{ g with listed := 0 }) := by
  have anew : Shown 1 (k,({ g with listed := 0 } : Notes).list) s.threads :=
    ⟨h.inv,h.covered,h.entries,h.cleared,rfl⟩
  have still : Shown 0 (k,{ g with listed := 0 }) s.threads :=
    ⟨h.inv,h.covered,h.entries,h.cleared,rfl⟩
  unfold stopForDetach
  split
  · next going =>
    refine holdsThen (interruptAllShows going.1 anew (by decide) fun _ => rfl) fun y r ended => ?_
    obtain ⟨s1,ok⟩ := r
    obtain ⟨⟨n,shown⟩,_,marked,quiet⟩ := ended
    cases ok with
    | true => exact holdsDone (shownStable _ _) shown fun _ _ => .inl (marked rfl)
    | false => exact holdsDone (shownStill _ _) ⟨shown,quiet rfl⟩ fun _
        both => .inr ⟨both.1.covered,.inr (both.2 trivial)⟩
  · next idle =>
    refine holdsDone (shownStable _ _) still fun _ shown => ?_
    by_cases marked : s.threadsStopped = true
    · exact .inl marked
    · exact .inr ⟨shown.covered,
        .inl (empty (by_contra fun live => idle ⟨live,by simpa using marked⟩))⟩

end ZeroTrace.StopNotes
