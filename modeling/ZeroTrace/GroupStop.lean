import ZeroTrace.ThreadTable

/-! Stopping the whole group. Threads appear and vanish between the enumeration, the seize
and the wait; the passes end when an enumeration finds nothing that is not stopped. -/
namespace ZeroTrace.GroupStop
open Relation SharedRead SharedCalls ThreadControl ThreadTable

variable {r : Rules} {k k' u : Kernel} {threads : List Thread} {todo : List Nat} {s : Session}
    {t : Nat}

def Listed (threads : List Thread) (t : Nat) : Prop := ∃ th ∈ threads, th.tid = t

/- Every live tracee is in the table or still to come in the enumeration. -/
def Covered (k : Kernel) (threads : List Thread) (todo : List Nat) : Prop :=
  ∀ t task, t ≠ 0 → k.task t = some task → task.life ≠ .dead → task.traced = true →
    Listed threads t ∨ t ∈ todo

/- While an enumeration is worked through: a thread that is neither in the table nor still
to come was created since, and whoever began that is still to come or is not stopped. -/
structure Scan (r : Rules) (k : Kernel) (threads : List Thread) (todo : List Nat) : Prop where
  inv : Inv r k threads
  covered : Covered k threads todo
  halted : ∀ th ∈ threads, th.tid ≠ 0 → th.stopped = true → k.forked th.tid = false
  created : r.prompt = true → ∀ t, k.alive t → ¬ Listed threads t → t ∉ todo →
    ∃ f, f ≠ 0 ∧ k.forked f = true ∧ (f ∈ todo ∨ ∃ th ∈ threads, th.tid = f ∧ th.stopped = false)

theorem driftTraced {x y : Option Task} (drift : Drift x y) {task : Task} (now : y = some task)
    (alive : task.life ≠ .dead)
    (traced : task.traced = true) : ∃ old, x = some old ∧ old.life ≠ .dead ∧ old.traced = true := by
  cases drift with
  | same => exact ⟨task,now,alive,traced⟩
  | born => cases Option.some.inj now; cases traced
  | @died old was =>
    split at now
    · cases Option.some.inj now; exact absurd rfl alive
    · cases now
  | @stopped old stop running was => exact ⟨old,rfl,by rw [running]; simp,was⟩

theorem coveredMove (h : Covered k threads todo) (move : Move k k') : Covered k' threads todo := by
  intro t task nonzero there alive traced
  obtain ⟨old,was,alive',traced'⟩ := driftTraced (moveDrift move t) there alive traced
  exact h t old nonzero was alive' traced'

theorem forkedMove (move : Move k k') {f : Nat}
    (forked : k.forked f = true) : k'.forked f = true := by
  cases move with
  | @clone parent child task runs running free numbered =>
    by_cases same : f = parent
    · subst same; simp
    · simpa [same] using forked
  | exit => exact forked
  | stop => exact forked

/- A thread that creates another one runs, so it is not marked stopped. -/
theorem scanMove (h : Scan r k threads todo) (move : Move k k') : Scan r k' threads todo where
  inv := invMove h.inv move
  covered := coveredMove h.covered move
  halted th member nonzero marked := by
    have before := h.halted th member nonzero marked
    cases move with
    | @clone parent child task runs running free numbered =>
      have other : th.tid ≠ parent := by
        rintro rfl
        obtain ⟨task',there,mine⟩ := h.inv.inside th member nonzero
        cases Option.some.inj (there.symm.trans runs)
        exact mine.halted marked running
      simpa [other] using before
    | exit => exact before
    | stop => exact before
  created prompt t alive unlisted new := by
    have old : k.alive t → ∃ f, f ≠ 0 ∧ k'.forked f = true ∧
        (f ∈ todo ∨ ∃ th ∈ threads, th.tid = f ∧ th.stopped = false) := by
      intro was
      obtain ⟨f,nonzero,forked,where_⟩ := h.created prompt t was unlisted new
      exact ⟨f,nonzero,forkedMove move forked,where_⟩
    cases move with
    | @clone parent child task runs running free numbered =>
      have forked : Function.update k.forked parent true parent = true := by simp
      by_cases among : parent ∈ todo
      · exact ⟨parent,numbered,forked,.inl among⟩
      · by_cases known : Listed threads parent
        · obtain ⟨th,member,rfl⟩ := known
          obtain ⟨task',there,mine⟩ := h.inv.inside th member numbered
          cases Option.some.inj (there.symm.trans runs)
          refine ⟨th.tid,numbered,forked,.inr ⟨th,member,rfl,?_⟩⟩
          cases marked : th.stopped with
          | true => exact absurd running (mine.halted marked)
          | false => rfl
        · -- The parent is itself one that was created since.
          obtain ⟨f,nonzero,was,where_⟩ :=
            h.created prompt parent ⟨numbered,task,runs,by rw [running]; simp⟩ known among
          refine ⟨f,nonzero,?_,where_⟩
          by_cases same : f = parent
          · subst same; simp
          · simpa [same] using was
    | @exit t' task lives was =>
      obtain ⟨nonzero,task',there,living⟩ := alive
      by_cases same : t = t'
      · subst same
        rw [putSame] at there
        split at there
        · cases Option.some.inj there; exact absurd rfl living
        · cases there
      · exact old ⟨nonzero,task',by rwa [putOther same] at there,living⟩
    | @stop t' task stop runs running traced =>
      obtain ⟨nonzero,task',there,living⟩ := alive
      by_cases same : t = t'
      · subst same; exact old ⟨nonzero,task,runs,by rw [running]; simp⟩
      · exact old ⟨nonzero,task',by rwa [putOther same] at there,living⟩

theorem scanStable (threads : List Thread) (todo : List Nat) :
    Stable Move fun k => Scan r k threads todo :=
  fun _ _ h move => scanMove h move

theorem hasListed {tid : Nat} (nonzero : tid ≠ 0) : hasThread s tid = true ↔
    Listed s.threads tid := by
  simp [hasThread,Listed,nonzero]

/- It is in the table already, or it is gone and created nothing. -/
theorem scanPast (h : Scan r k threads (t::todo))
    (done : t = 0 ∨ Listed threads t ∨ k.task t = none ∧ (r.prompt = true → k.forked t = false)) :
    Scan r k threads todo where
  inv := h.inv
  covered t' task nonzero there alive traced := by
    rcases h.covered t' task nonzero there alive traced with known | among
    · exact .inl known
    · rcases List.mem_cons.mp among with rfl | later
      · rcases done with zero | known | ⟨gone,_⟩
        · exact absurd zero nonzero
        · exact .inl known
        · rw [gone] at there; cases there
      · exact .inr later
  halted := h.halted
  created prompt t' alive unlisted new := by
    have other : t' ∉ t::todo := by
      intro among
      rcases List.mem_cons.mp among with rfl | later
      · rcases done with zero | known | ⟨gone,_⟩
        · exact alive.1 zero
        · exact unlisted known
        · obtain ⟨_,task,there,_⟩ := alive
          rw [gone] at there; cases there
      · exact new later
    obtain ⟨f,nonzero,forked,among | unstopped⟩ := h.created prompt t' alive unlisted other
    · rcases List.mem_cons.mp among with rfl | later
      · rcases done with zero | ⟨th,member,rfl⟩ | ⟨_,quiet⟩
        · exact absurd zero nonzero
        · refine ⟨th.tid,nonzero,forked,.inr ⟨th,member,rfl,?_⟩⟩
          cases marked : th.stopped with
          | true => rw [h.halted th member nonzero marked] at forked; cases forked
          | false => rfl
        · rw [quiet prompt] at forked; cases forked
      · exact ⟨f,nonzero,forked,.inl later⟩
    · exact ⟨f,nonzero,forked,.inr unstopped⟩

/- Seizing a thread outside the table, whether there is room for it or not. -/
theorem invSeized {task : Task} (h : Inv r k threads) (nonzero : t ≠ 0)
    (unlisted : ¬ Listed threads t) (there : k.task t = some task)
    (alive : task.life ≠ .dead) : Inv r (k.put t (some { task with traced := true })) threads := by
  have absent : ∀ th ∈ threads, th.tid ≠ t := fun th member same => unlisted ⟨th,member,same⟩
  refine ⟨h.distinct,fun th member live => ?_,fun t' live none_ task' there' alive' => ?_,
    h.faithful⟩
  · rw [putOther (absent th member)]; exact h.inside th member live
  · by_cases same : t' = t
    · subst same
      rw [putSame] at there'
      cases Option.some.inj there'
      exact h.outside t' nonzero absent task there alive
    · rw [putOther same] at there'
      exact h.outside t' live none_ task' there' alive'

theorem invAdded {task : Task} (h : Inv r k threads) (nonzero : t ≠ 0)
    (unlisted : ¬ Listed threads t) (there : k.task t = some task)
    (alive : task.life ≠ .dead) :
    Inv r (k.put t (some { task with traced := true })) (threads ++ [⟨t,false,0⟩]) := by
  have absent : ∀ th ∈ threads, th.tid ≠ t := fun th member same => unlisted ⟨th,member,same⟩
  have outside := invSeized h nonzero unlisted there alive
  refine ⟨?_,fun th member live => ?_,fun t' live none_ => ?_,h.faithful⟩
  · refine List.pairwise_append.mpr ⟨h.distinct,by simp,fun th member y single => ?_⟩
    rw [List.mem_singleton.mp single]
    exact fun same => absurd same (absent th member)
  · rcases List.mem_append.mp member with old | single
    · exact outside.inside th old live
    · rw [List.mem_singleton.mp single]
      refine ⟨_,putSame k _ _,rfl,fun bad => absurd bad (by simp),fun bad => absurd bad (by simp),
        fun _ _ => ?_⟩
      exact h.outside t nonzero absent task there alive
  · exact outside.outside t' live fun th member => none_ th (List.mem_append_left _ member)

theorem listedAdded {x : Nat} (known : Listed threads x) : Listed (threads ++ [⟨t,false,0⟩]) x := by
  obtain ⟨th,member,same⟩ := known
  exact ⟨th,List.mem_append_left _ member,same⟩

theorem listedLast : Listed (threads ++ [⟨t,false,0⟩]) t := ⟨⟨t,false,0⟩,by simp,rfl⟩

theorem scanSeized {task : Task} (h : Scan r k threads (t::todo)) (nonzero : t ≠ 0)
    (unlisted : ¬ Listed threads t)
    (there : k.task t = some task) (alive : task.life ≠ .dead) :
    Scan r (k.put t (some { task with traced := true })) (threads ++ [⟨t,false,0⟩]) todo := by
  refine ⟨invAdded h.inv nonzero unlisted there alive,fun t' task' live there' alive' traced => ?_,
    fun th member live marked => ?_,fun prompt t' alive' new later => ?_⟩
  · by_cases same : t' = t
    · subst same; exact .inl listedLast
    · rw [putOther same] at there'
      rcases h.covered t' task' live there' alive' traced with known | among
      · exact .inl (listedAdded known)
      · exact .inr ((List.mem_cons.mp among).resolve_left same)
  · rcases List.mem_append.mp member with old | single
    · exact h.halted th old live marked
    · rw [List.mem_singleton.mp single] at marked; cases marked
  · have other : t' ≠ t := fun same => new (same ▸ listedLast)
    obtain ⟨live,task',there',living⟩ := alive'
    rw [putOther other] at there'
    have away : t' ∉ t::todo := fun among => later ((List.mem_cons.mp among).resolve_left other)
    obtain ⟨f,some_,forked,among | ⟨th,member,same,unstopped⟩⟩ :=
      h.created prompt t' ⟨live,task',there',living⟩
      (fun known => new (listedAdded known)) away
    · rcases List.mem_cons.mp among with rfl | rest
      · exact ⟨f,some_,forked,.inr ⟨⟨f,false,0⟩,by simp,rfl,rfl⟩⟩
      · exact ⟨f,some_,forked,.inl rest⟩
    · exact ⟨f,some_,forked,.inr ⟨th,List.mem_append_left _ member,same,unstopped⟩⟩

/-! The enumeration, and the passes. -/

def SameFlags (s s' : Session) : Prop := s'.pid = s.pid ∧ s'.threadsStopped = s.threadsStopped ∧
    s'.targetExited = s.targetExited

variable (r) in
structure Refreshed (s : Session) (k : Kernel) (x : Session × Bool) : Prop where
  inv : Inv r k x.1.threads
  flags : SameFlags s x.1
  scan : x.2 = true → Scan r k x.1.threads []

theorem refreshedFailed {s' : Session} (h : Inv r k s'.threads) (flags : SameFlags s s') :
    Holds Move (Calls r) (Refreshed r s) (pure (s',false) : Tracer (Session × Bool)) k :=
  holdsDone (invStable _) h fun _ inv => ⟨inv,flags,fun bad => by cases bad⟩

theorem seizeEachKeeps (todo : List Nat) : ∀ {s' : Session} {k}, Scan r k s'.threads todo →
    SameFlags s s' →
    Holds Move (Calls r) (Refreshed r s) (seizeEach s' todo) k := by
  induction todo with
  | nil => exact fun h flags => holdsDone (scanStable _ _) h fun _ scan =>
      ⟨scan.inv,flags,fun _ => scan⟩
  | cons t todo ih =>
    intro s' k h flags
    unfold seizeEach
    split
    · next zero => exact ih (scanPast h (.inl zero)) flags
    · next nonzero =>
      unfold seizeThread
      by_cases known : hasThread s' t = true
      · rw [if_pos known]
        exact ih (scanPast h (.inr (.inl ((hasListed nonzero).mp known)))) flags
      · have unlisted : ¬ Listed s'.threads t :=
          fun listed => known ((hasListed nonzero).mpr listed)
        rw [if_neg known]
        refine holdsAsk (scanStable _ _) h fun k' v u scan answer => ?_
        rcases serveSeize answer.1 with ⟨rfl,task,there,alive,_,rfl⟩ | ⟨rfl,gone,rfl⟩ | ⟨rfl,rfl⟩
        · dsimp only [errnoOf]
          unfold addThread
          rw [if_neg nonzero,if_neg known]
          split
          · exact refreshedFailed (invSeized scan.inv nonzero unlisted there alive) flags
          · exact ih (scanSeized scan nonzero unlisted there alive) flags
        · exact ih (scanPast scan (.inr (.inr ⟨gone,fun prompt => answer.2.2 prompt t rfl rfl⟩)))
            flags
        · exact refreshedFailed scan.inv flags

/- At the enumeration every live thread is listed and nobody has created one since. -/
theorem scanStart {l : List Nat} (h : Inv r k threads) (all : ∀ t, t ∈ l ↔ k.alive t) :
    Scan r { k with forked := fun _ => false } threads l where
  inv := ⟨h.distinct,h.inside,h.outside,h.faithful⟩
  covered t task nonzero there alive _ := .inr ((all t).mpr ⟨nonzero,task,there,alive⟩)
  halted _ _ _ _ := rfl
  created _ t alive _ new := absurd ((all t).mpr alive) new

theorem refreshKeeps (h : Inv r k s.threads) :
    Holds Move (Calls r) (Refreshed r s) (refreshThreads s) k := by
  have flags : SameFlags s s := ⟨rfl,rfl,rfl⟩
  unfold refreshThreads
  split
  · exact refreshedFailed h flags
  · refine holdsAsk (invStable _) h fun k' v u inv answer => ?_
    rcases serveList answer.1 with ⟨rfl,rfl⟩ | ⟨l,rfl,all,rfl⟩
    · exact refreshedFailed inv flags
    · exact seizeEachKeeps l (scanStart inv all) flags

theorem compactKeeps (h : Inv r k s.threads) : Inv r k (compactThreads s).threads where
  distinct := h.distinct.filter _
  inside th member nonzero := h.inside th (List.mem_filter.mp member).1 nonzero
  outside t nonzero absent := by
    refine h.outside t nonzero fun th member same =>
      absent th (List.mem_filter.mpr ⟨member,?_⟩) same
    simp [same,nonzero]
  faithful := h.faithful

theorem restedAll (h : hasUnstoppedThread s = false) : ∀ th ∈ s.threads, Rested th := by
  intro th member
  have here := List.any_eq_false.mp h th member
  by_cases zero : th.tid = 0
  · exact .inl zero
  · exact .inr (by simpa [zero] using here)

variable (r) in
structure Stopped (s : Session) (k : Kernel) (x : Session × Bool) : Prop where
  inv : Inv r k x.1.threads
  pid : x.1.pid = s.pid
  scan : x.2 = true → Scan r k x.1.threads [] ∧ ∀ th ∈ x.1.threads, Rested th
  marked : x.1.threadsStopped = true ↔ s.threadsStopped = true ∨ x.2 = true

theorem stoppedFailed {s' : Session} (h : Inv r k s'.threads) (pid : s'.pid = s.pid)
    (flag : s'.threadsStopped = s.threadsStopped) :
    Holds Move (Calls r) (Stopped r s) (pure (s',false) : Tracer (Session × Bool)) k :=
  holdsDone (invStable _) h fun _ inv => ⟨inv,pid,fun bad => absurd bad (by simp),by simp [flag]⟩

theorem stopPassesKeep (n : Nat) : ∀ {s' : Session} {k}, Inv r k s'.threads → s'.pid = s.pid →
    s'.threadsStopped = s.threadsStopped →
    Holds Move (Calls r) (Stopped r s) (stopPasses n s') k := by
  induction n with
  | zero => exact fun h pid flag => stoppedFailed h pid flag
  | succ n ih =>
    intro s' k h pid flag
    unfold stopPasses
    refine holdsThen (eachKeeps interruptKeeps s'.threads [] h) fun k1 x held => ?_
    obtain ⟨threads1,ok⟩ := x
    cases ok with
    | false => exact stoppedFailed held.1 pid flag
    | true =>
      refine holdsThen (eachKeeps waitKeeps threads1 [] held.1) fun k2 x held => ?_
      obtain ⟨threads2,ok⟩ := x
      cases ok with
      | false => exact stoppedFailed held.1 pid flag
      | true =>
        have compacted : Inv r k2 (compactThreads { s' with threads := threads2 }).threads :=
          compactKeeps held.1
        refine holdsThen (refreshKeeps compacted) fun k3 x refreshed => ?_
        obtain ⟨s3,ok⟩ := x
        have pid3 : s3.pid = s.pid := refreshed.flags.1.trans pid
        have flag3 : s3.threadsStopped = s.threadsStopped := refreshed.flags.2.1.trans flag
        cases ok with
        | false => exact stoppedFailed refreshed.inv pid3 flag3
        | true =>
          dsimp only
          split
          · exact ih refreshed.inv pid3 flag3
          · next finished =>
            have rested := restedAll (Bool.eq_false_iff.mpr finished)
            exact holdsDone (scanStable _ _) (refreshed.scan rfl) fun _ scan =>
              ⟨scan.inv,pid3,fun _ => ⟨scan,rested⟩,by simp⟩

theorem interruptAllKeeps (h : Inv r k s.threads) :
    Holds Move (Calls r) (Stopped r s) (interruptAll s) k := by
  unfold interruptAll
  split
  · exact stoppedFailed h rfl rfl
  · refine holdsThen (refreshKeeps h) fun k1 x refreshed => ?_
    obtain ⟨s1,ok⟩ := x
    cases ok with
    | false => exact stoppedFailed refreshed.inv refreshed.flags.1 refreshed.flags.2.1
    | true => exact stopPassesKeep _ refreshed.inv refreshed.flags.1 refreshed.flags.2.1

def AllStopped (s : Session) (k : Kernel) : Prop :=
  ∀ t, k.alive t → ∃ th ∈ s.threads, th.tid = t ∧ th.stopped = true ∧
    ∃ task stop seen, k.task t = some task ∧ task.traced = true ∧ task.life = .stopped stop seen

theorem allStopped (prompt : r.prompt = true) (scan : Scan r k s.threads [])
    (rested : ∀ th ∈ s.threads, Rested th) :
    AllStopped s k := by
  intro t alive
  have listed : Listed s.threads t := by
    by_contra unlisted
    obtain ⟨f,nonzero,_,bad | ⟨th,member,rfl,unstopped⟩⟩ :=
      scan.created prompt t alive unlisted (by simp)
    · cases bad
    · rw [(rested th member).resolve_left nonzero] at unstopped
      cases unstopped
  obtain ⟨th,member,rfl⟩ := listed
  obtain ⟨nonzero,task,there,living⟩ := alive
  have marked := (rested th member).resolve_left nonzero
  obtain ⟨task',there',mine⟩ := scan.inv.inside th member nonzero
  cases Option.some.inj (there.symm.trans there')
  obtain ⟨_,stop,stopped⟩ := mine.recorded marked living
  exact ⟨th,member,rfl,marked,task,stop,true,there,mine.traced,stopped⟩

end ZeroTrace.GroupStop
