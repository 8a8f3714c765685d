import ZeroTrace.GroupStop

/-! Whole runs of a session: attaching, stopping, continuing, polling, stepping out of patch
regions and detaching, in any order and with the threads going on at every point. -/
namespace ZeroTrace.SessionRuns
open Relation SharedRead SharedCalls ThreadControl ThreadTable GroupStop

variable {r : Rules} {k k' u : Kernel} {threads before after : List Thread} {th : Thread}
    {s : Session} {t : Nat}

variable (r) in
structure Kept (s : Session) (k : Kernel) (x : Session × Bool) : Prop where
  inv : Inv r k x.1.threads
  pid : x.1.pid = s.pid

theorem keptDone {s' : Session} {ok : Bool} (h : Inv r k s'.threads) (pid : s'.pid = s.pid) :
    Holds Move (Calls r) (Kept r s) (pure (s',ok) : Tracer (Session × Bool)) k :=
  holdsDone (invStable _) h fun _ inv => ⟨inv,pid⟩

theorem continueAllKeeps
    (h : Inv r k s.threads) : Holds Move (Calls r) (Kept r s) (continueAll s) k := by
  unfold continueAll
  split
  · exact keptDone h rfl
  · refine holdsThen (eachKeeps continueKeeps s.threads [] h) fun k1 x held => ?_
    obtain ⟨threads1,ok⟩ := x
    cases ok with
    | false => exact keptDone held.1 rfl
    | true =>
      have compacted : Inv r k1 (compactThreads { s with threads := threads1 }).threads :=
        compactKeeps held.1
      exact keptDone compacted rfl

theorem safeAllKeeps {inside : Nat → Bool} (h : Inv r k s.threads) :
    Holds Move (Calls r) (Kept r s) (ensurePatchRegionsAreSafe inside s) k := by
  unfold ensurePatchRegionsAreSafe
  split
  · exact keptDone h rfl
  · refine holdsThen (eachKeeps safeKeeps s.threads [] h) fun k1 x held => ?_
    obtain ⟨threads1,ok⟩ := x
    cases ok with
    | false => exact keptDone held.1 rfl
    | true =>
      have compacted : Inv r k1 (compactThreads { s with threads := threads1 }).threads :=
        compactKeeps held.1
      exact keptDone compacted rfl

/-! Polling. Every live tracee is in the table by then, so no collected stop is dropped. -/
theorem setSplit (h : Inv r k (before ++ th :: after)) (nonzero : th.tid ≠ 0)
    (f : Thread → Thread) :
    (before ++ th :: after).map (fun x => if x.tid = th.tid then f x else x) =
      before ++ f th :: after := by
  have others : ∀ list : List Thread, (∀ x ∈ list, x ∈ before ∨ x ∈ after) →
      list.map (fun x => if x.tid = th.tid then f x else x) = list := by
    intro list among
    have same : ∀ x ∈ list, (if x.tid = th.tid then f x else x) = id x := fun x member =>
      if_neg (distinctOthers h nonzero (among x member))
    exact (List.map_congr_left same).trans (List.map_id list)
  rw [List.map_append,List.map_cons,others before fun x member => .inl member,
    others after fun x member => .inr member,if_pos rfl]

theorem setThreads (split : s.threads = before ++ th :: after) (h : Inv r k (before ++ th :: after))
    (nonzero : th.tid ≠ 0)
    (f : Thread → Thread) : (setThread s th.tid f).threads = before ++ f th :: after := by
  rw [setThread,split]
  exact setSplit h nonzero f

theorem listedReplace {th' : Thread} {x : Nat} (other : x ≠ th.tid ∨ th'.tid = th.tid)
    (known : Listed (before ++ th :: after) x) :
    Listed (before ++ th' :: after) x := by
  obtain ⟨y,member,rfl⟩ := known
  rcases List.mem_append.mp member with early | here
  · exact ⟨y,by simp [early],rfl⟩
  · rcases List.mem_cons.mp here with rfl | late
    · exact ⟨th',by simp,other.resolve_left fun bad => bad rfl⟩
    · exact ⟨y,by simp [late],rfl⟩

theorem listedCompact {x : Nat} (nonzero : x ≠ 0) (known : Listed s.threads x) :
    Listed (compactThreads s).threads x := by
  obtain ⟨y,member,rfl⟩ := known
  exact ⟨y,List.mem_filter.mpr ⟨member,by simp [nonzero]⟩,rfl⟩

theorem coveredChange {threads' : List Thread} (h : Covered k threads [])
    (others : ∀ x, x ≠ t → k'.task x = k.task x)
    (kept : ∀ x, x ≠ 0 → x ≠ t → Listed threads x → Listed threads' x)
    (here : ∀ task, t ≠ 0 → k'.task t = some task → task.life ≠ .dead → Listed threads' t) :
    Covered k' threads' [] := by
  intro x task nonzero there alive traced
  by_cases same : x = t
  · subst same; exact .inl (here task nonzero there alive)
  · rw [others x same] at there
    exact .inl (kept x nonzero same ((h x task nonzero there alive traced).resolve_right (by simp)))

theorem polledStable (threads : List Thread) : Stable Move fun k => Inv r k threads ∧
    Covered k threads [] :=
  fun _ _ h move => ⟨invMove h.1 move,coveredMove h.2 move⟩

theorem reportKeeps {s' : Session} (h : Inv r k s'.threads) (pid : s'.pid = s.pid) :
    Holds Move (Calls r) (Kept r s) (reportIfTargetExited s') k := by
  unfold reportIfTargetExited
  split
  · exact keptDone (show Inv r _ (markTargetExited s').threads from h) pid
  · refine holdsAsk (invStable _) h fun k1 v u inv answer => ?_
    cases serveQuestion (.inl rfl) answer.1
    split
    · exact keptDone (show Inv r _ (markTargetExited s').threads from inv) pid
    · exact keptDone inv pid

/- A number that is no thread of the table dies, or zero does anything. -/
theorem invAside {x : Option Task} (h : Inv r k threads)
    (unlisted : t = 0 ∨ ¬ Listed threads t ∧ x = none) : Inv r (k.put t x) threads := by
  refine ⟨h.distinct,fun th member nonzero => ?_,fun t' nonzero absent task there alive => ?_,
    h.faithful⟩
  · have other : th.tid ≠ t := by
      rcases unlisted with zero | ⟨away,_⟩
      · exact fun same => nonzero (same.trans zero)
      · exact fun same => away ⟨th,member,same⟩
    rw [putOther other]
    exact h.inside th member nonzero
  · by_cases same : t' = t
    · subst same
      rcases unlisted with zero | ⟨_,rfl⟩
      · exact absurd zero nonzero
      · rw [putSame] at there; cases there
    · rw [putOther same] at there
      exact h.outside t' nonzero absent task there alive

theorem noteThreads (s : Session) (tid : Nat) : (noteThreadExit s tid).threads = s.threads ∧
    (noteThreadExit s tid).pid = s.pid := by
  unfold noteThreadExit
  split <;> exact ⟨rfl,rfl⟩

theorem pollStopped {fuel : Nat} {stop : Stop} {task : Task} {first : Session}
    (split : s.threads = before ++ th :: after)
    (pid : s.pid = first.pid) (nonzero : th.tid ≠ 0) (h : Inv r k (before ++ th :: after))
    (covered : Covered k (before ++ th :: after) []) (traced : task.traced = true)
    (rest : ∀ {s' k'}, Inv r k' s'.threads → Covered k' s'.threads [] → s'.pid = first.pid →
      Holds Move (Calls r) (Kept r first) (pollLoop fuel s') k') :
    Holds Move (Calls r) (Kept r first) (do
      match errnoOf (← ask (.resume false th.tid (resumeSignalFromStatus stop.status))) with
      | .ok => pollLoop fuel (setThread
        (setThread s th.tid fun x => threadMarkStopped x stop.status) th.tid threadMarkRunning)
      | .esrch => pollLoop fuel (dropThread
          (setThread s th.tid fun x => threadMarkStopped x stop.status) th.tid)
      | .other => pure (setThread s th.tid fun x => threadMarkStopped x stop.status,false))
      (k.put th.tid (some { task with life := .stopped stop true, owed := stop.signal })) := by
  have marked := @invStopped r k th before after task stop h nonzero traced
  have table := setThreads split h nonzero fun x => threadMarkStopped x stop.status
  have known : Covered
      (k.put th.tid (some { task with life := .stopped stop true, owed := stop.signal }))
      (before ++ threadMarkStopped th stop.status :: after) [] :=
    coveredChange covered (fun x other => putOther other) (fun x _ _ => listedReplace (.inr rfl))
      fun _ _ _ _ =>
      ⟨threadMarkStopped th stop.status,by simp,rfl⟩
  refine holdsAsk (polledStable _) ⟨marked,known⟩ fun k1 v u inv answer => ?_
  rcases serveResume answer.1 with ⟨rfl,task',stop',seen,there,_,stopped,rfl⟩ | ⟨rfl,free,rfl⟩
    | ⟨rfl,rfl⟩
  · have resumed := @invResumed r k1 (threadMarkStopped th stop.status) before after task' stop'
      seen inv.1 nonzero rfl there stopped
    have again : (setThread (setThread s th.tid fun x => threadMarkStopped x stop.status) th.tid
        threadMarkRunning).threads = _ :=
      @setThreads r k1 before after (threadMarkStopped th stop.status) _ table inv.1 nonzero
        threadMarkRunning
    refine rest (by rw [again]; exact resumed) ?_ pid
    rw [again]
    exact coveredChange inv.2 (fun x other => putOther other)
      (fun x _ _ => listedReplace (.inr rfl)) fun _ _ _ _ =>
      ⟨threadMarkRunning (threadMarkStopped th stop.status),by simp,rfl⟩
  · have dead := heldOrDead inv.1 nonzero rfl free
    have cleared : (setThread (setThread s th.tid fun x => threadMarkStopped x stop.status) th.tid
        fun _ => threadClear).threads = _ :=
      @setThreads r u before after (threadMarkStopped th stop.status) _ table inv.1 nonzero fun _ =>
        threadClear
    have blank := invCleared inv.1 nonzero dead
    refine rest (compactKeeps (by rw [cleared]; exact blank)) ?_ pid
    refine coveredChange (t := th.tid) inv.2 (fun _ _ => rfl)
      (fun x live other known => listedCompact live ?_)
      fun task' live there alive => ?_
    · rw [cleared]
      exact @listedReplace before after (threadMarkStopped th stop.status) threadClear x
        (.inl other) known
    · obtain ⟨task'',there',mine⟩ := invHere inv.1 nonzero
      cases Option.some.inj (there.symm.trans there')
      exact absurd (dead task' there mine.traced) alive
  · exact keptDone (by rw [table]; exact inv.1) pid

theorem pollLoopKeeps (fuel : Nat) : ∀ {s' : Session} {k}, Inv r k s'.threads →
    Covered k s'.threads [] → s'.pid = s.pid →
    Holds Move (Calls r) (Kept r s) (pollLoop fuel s') k := by
  induction fuel with
  | zero => exact fun h _ pid => keptDone h pid
  | succ fuel ih =>
    intro s' k h covered pid
    unfold pollLoop
    refine holdsAsk (polledStable _) ⟨h,covered⟩ fun k1 v u inv answer => ?_
    rcases serveAny answer.1 with ⟨t,collected⟩ | ⟨e,rfl,rfl⟩
    · cases collected with
      | @stopped task stop there traced at_ =>
        by_cases zero : t = 0
        · have unknown : hasThread s' t = false := by simp [hasThread,zero]
          simp only [unknown,Bool.not_false,if_true]
          refine ih (invAside inv.1 (.inl zero)) ?_ pid
          exact coveredChange inv.2 (fun x other => putOther other) (fun _ _ _ known => known)
            fun _ live => absurd zero live
        · obtain ⟨th,member,rfl⟩ := (inv.2 t task zero there (by rw [at_]; simp)
            traced).resolve_right (by simp)
          obtain ⟨before,after,split⟩ := List.append_of_mem member
          have known : hasThread s' th.tid = true := (hasListed zero).mpr ⟨th,member,rfl⟩
          simp only [known,Bool.not_true,Bool.false_eq_true,if_false]
          exact pollStopped split pid zero (split ▸ inv.1) (split ▸ inv.2) traced ih
      | @exited task there traced dead =>
        have note := noteThreads s' t
        by_cases known : hasThread s' t = true
        · have nonzero : t ≠ 0 := by rintro rfl; simp [hasThread] at known
          obtain ⟨th,member,rfl⟩ := (hasListed nonzero).mp known
          obtain ⟨before,after,split⟩ := List.append_of_mem member
          simp only [known,Bool.not_true,Bool.false_eq_true,if_false]
          have cleared := @setThreads r k1 before after th (noteThreadExit s' th.tid)
              (note.1.trans split) (split ▸ inv.1) nonzero
            fun _ => threadClear
          have reaped : Inv r (k1.put th.tid none)
              (dropThread (noteThreadExit s' th.tid) th.tid).threads := by
            refine compactKeeps ?_
            rw [cleared]
            exact invReaped (split ▸ inv.1) nonzero
          have covered' : Covered (k1.put th.tid none)
              (dropThread (noteThreadExit s' th.tid) th.tid).threads [] := by
            refine coveredChange inv.2 (fun x other => putOther other)
              (fun x live other known => listedCompact live ?_) fun _ _ now => ?_
            · rw [cleared]; exact listedReplace (.inl other) (split ▸ known)
            · rw [putSame] at now; cases now
          split
          · exact ih reaped covered' (note.2.trans pid)
          · exact ih reaped covered' (note.2.trans pid)
        · have unknown : hasThread s' t = false := by simpa using known
          simp only [unknown,Bool.not_false,if_true]
          have aside : t = 0 ∨ ¬ Listed s'.threads t ∧ (none : Option Task) = none := by
            by_cases zero : t = 0
            · exact .inl zero
            · exact .inr ⟨fun listed => known ((hasListed zero).mpr listed),rfl⟩
          refine ih (by rw [note.1]; exact invAside inv.1 aside) ?_ (note.2.trans pid)
          rw [note.1]
          refine coveredChange inv.2 (fun x other => putOther other) (fun _ _ _ known => known)
            fun _ _ now => ?_
          rw [putSame] at now; cases now
    · cases e with
      | ok => exact reportKeeps inv.1 pid
      | esrch => exact reportKeeps inv.1 pid
      | other => exact keptDone inv.1 pid

theorem pollKeeps {fuel : Nat} (h : Inv r k s.threads) :
    Holds Move (Calls r) (Kept r s) (pollEvents fuel s) k := by
  unfold pollEvents
  split
  · exact keptDone h rfl
  · split
    · exact keptDone (show Inv r _ (markTargetExited s).threads from h) rfl
    · refine holdsThen (refreshKeeps h) fun k1 x refreshed => ?_
      obtain ⟨s1,ok⟩ := x
      cases ok with
      | false =>
        refine holdsAsk (invStable _) refreshed.inv fun k2 v u inv answer => ?_
        cases serveQuestion (.inl rfl) answer.1
        split
        · exact keptDone (show Inv r _ (markTargetExited s1).threads from inv) refreshed.flags.1
        · exact keptDone inv refreshed.flags.1
      | true => exact pollLoopKeeps fuel refreshed.inv (refreshed.scan
          rfl).covered refreshed.flags.1

/-! Detaching takes the threads out of the table one by one. -/
theorem invDropped (h : Inv r k (th :: threads)) (others : ∀ x, x ≠ th.tid → k'.task x = k.task x)
    (gone : th.tid ≠ 0 → ∀ task, k'.task th.tid = some task → task.life ≠ .dead → Unseen task)
    (faithful : r.lossless = true → ∀ e ∈ k'.resumed, e.2.1 = e.2.2) : Inv r k' threads := by
  obtain ⟨mine,rest⟩ := List.pairwise_cons.mp h.distinct
  refine ⟨rest,fun x member nonzero => ?_,fun x nonzero absent => ?_,faithful⟩
  · have other : x.tid ≠ th.tid := fun same => nonzero (same.trans (mine x member same.symm))
    rw [others x.tid other]
    exact h.inside x (List.mem_cons_of_mem _ member) nonzero
  · by_cases same : x = th.tid
    · subst same; exact gone nonzero
    · rw [others x same]
      refine h.outside x nonzero fun y member => ?_
      rcases List.mem_cons.mp member with rfl | late
      · exact fun bad => same bad.symm
      · exact absent y late

theorem invDetached {v : Answer} (h : Inv r k (th :: threads)) (nonzero : th.tid ≠ 0)
    (answer : Calls r k (.detach th.tid 0) v u) :
    Inv r u threads := by
  obtain ⟨task,there,mine⟩ := h.inside th (by simp) nonzero
  rcases serveDetach answer.1 with ⟨task',stop,seen,there',traced,stopped,rfl⟩ | ⟨free,rfl⟩
  · cases Option.some.inj (there.symm.trans there')
    refine invDropped h (fun x other => putOther other) (fun _ task' now _ => ?_)
      fun lossless e member => ?_
    · rw [show (k.resume th.tid 0 task false).task th.tid =
        some ⟨.running,false,0⟩ from putSame k _ _] at now
      cases Option.some.inj now
      exact ⟨rfl,fun stop bad => by simp at bad⟩
    · rcases List.mem_append.mp member with old | new
      · exact h.faithful lossless e old
      · rw [List.mem_singleton.mp new]
        exact (answer.2.1 lossless th.tid 0 rfl task there (by rw [stopped]; simp)).symm
  · refine invDropped h (fun _ _ => rfl) (fun _ task' now alive => ?_) h.faithful
    cases Option.some.inj (there.symm.trans now)
    cases marked : th.stopped with
    | false => exact mine.unseen marked alive
    | true =>
      obtain ⟨_,stop,stopped⟩ := mine.recorded marked alive
      exact absurd ⟨task,stop,true,there,mine.traced,stopped⟩ free

theorem detachEachHolds {inv : Kernel → List Thread → Prop}
    (stable : ∀ list, Stable Move fun k => inv k list)
    (blank : ∀ {k th rest}, th.tid = 0 → inv k (th :: rest) → inv k rest)
    (one : ∀ {k th rest v u}, th.tid ≠ 0 → inv k (th :: rest) → Calls r k (.detach th.tid 0) v u →
      inv u rest) (list : List Thread) :
    ∀ {k}, inv k list →
      Holds Move (Calls r) (fun u _ => inv u []) (eachThread detachThread list) k := by
  induction list with
  | nil => exact fun h => holdsDone (stable _) h fun _ h => h
  | cons th rest ih =>
    intro k h
    have others : ∀ {k'} {f : List Thread × Bool → Tracer (List Thread × Bool)},
        (∀ x, ∃ y, f x = pure y) → inv k' rest →
        Holds Move (Calls r) (fun u _ => inv u []) (eachThread detachThread rest >>= f) k' := by
      intro k' f ends h
      refine holdsThen (ih h) fun u x h => ?_
      obtain ⟨y,same⟩ := ends x
      rw [same]
      exact holdsDone (stable _) h fun _ h => h
    unfold eachThread detachThread
    split
    · next zero => exact others (fun _ => ⟨_,rfl⟩) (blank zero h)
    · next nonzero => exact holdsAsk (stable _) h fun k1 v u h
        answer => others (fun _ => ⟨_,rfl⟩) (one nonzero h answer)

theorem detachEachKeeps (list : List Thread) (h : Inv r k list) :
    Holds Move (Calls r) (fun u _ => Inv r u []) (eachThread detachThread list) k :=
  detachEachHolds invStable
    (fun zero h => invDropped h (fun _ _ => rfl) (fun nonzero => absurd zero nonzero) h.faithful)
    (fun nonzero h answer => invDetached h nonzero answer) list h

theorem stopForDetachKeeps (h : Inv r k s.threads) :
    Holds Move (Calls r) (fun u s' => Inv r u s'.threads) (stopForDetach s) k := by
  unfold stopForDetach
  split
  · exact holdsThen (interruptAllKeeps h) fun u x stopped =>
      holdsDone (invStable _) stopped.inv fun _ inv => inv
  · exact holdsDone (invStable _) h fun _ inv => inv

theorem detachKeeps (h : Inv r k s.threads) :
    Holds Move (Calls r) (fun u s' => Inv r u [] ∧ s' = .zero) (detach s) k := by
  unfold detach
  refine holdsThen (stopForDetachKeeps h) fun k1 s1 inv => ?_
  refine holdsThen (detachEachKeeps s1.threads inv) fun k2 x inv => ?_
  exact holdsDone (invStable _) inv fun _ inv => ⟨inv,rfl⟩

variable (r) in
structure Attached (pid : Nat) (k : Kernel) (x : Session × Bool) : Prop where
  inv : Inv r k x.1.threads
  pid : x.1.pid = pid
  marked : x.1.threadsStopped = true → Covered k x.1.threads [] ∧ ∀ th ∈ x.1.threads, Rested th

theorem unmarked {pid : Nat} {s' : Session} (h : Inv r k s'.threads) (same : s'.pid = pid)
    (flag : s'.threadsStopped = false) :
    Holds Move (Calls r) (Attached r pid) (pure (s',false) : Tracer (Session × Bool)) k :=
  holdsDone (invStable _) h fun _ inv =>
    ⟨inv,same,fun bad => absurd (flag.symm.trans bad) (by simp)⟩

theorem tryAttachKeeps {pid : Nat} (h : Inv r k []) :
    Holds Move (Calls r) (Attached r pid) (tryAttach pid) k := by
  unfold tryAttach
  refine holdsThen (refreshKeeps (s := { Session.zero with pid := pid }) h) fun k1 x refreshed => ?_
  obtain ⟨s1,ok⟩ := x
  have flag : s1.threadsStopped = false := refreshed.flags.2.1
  cases ok with
  | false => exact unmarked refreshed.inv refreshed.flags.1 flag
  | true =>
    refine holdsThen (interruptAllKeeps refreshed.inv) fun k2 x stopped => ?_
    obtain ⟨s2,ok⟩ := x
    have same : s2.pid = pid := stopped.pid.trans refreshed.flags.1
    cases ok with
    | false =>
      refine unmarked stopped.inv same ?_
      cases marked : s2.threadsStopped with
      | false => rfl
      | true =>
        rcases stopped.marked.mp marked with before | bad
        · rw [flag] at before; cases before
        · cases bad
    | true =>
      obtain ⟨scan,rested⟩ := stopped.scan rfl
      have over_ : ∀ {k' ok}, Inv r k' s2.threads ∧ Covered k' s2.threads [] →
          Holds Move (Calls r) (Attached r pid) (pure (s2,ok) : Tracer (Session × Bool)) k' :=
            fun held =>
        holdsDone (polledStable _) held fun _ held => ⟨held.1,same,fun _ => ⟨held.2,rested⟩⟩
      refine holdsAsk (polledStable _) ⟨scan.inv,scan.covered⟩ fun k3 v u held answer => ?_
      cases serveQuestion (.inr (.inl rfl)) answer.1
      split
      · exact over_ held
      · refine holdsAsk (polledStable _) held fun k4 v u held answer => ?_
        cases serveQuestion (.inr (.inr (.inl rfl))) answer.1
        split
        · refine holdsAsk (polledStable _) held fun k5 v u held answer => ?_
          cases serveQuestion (.inr (.inr (.inr rfl))) answer.1
          split
          · exact over_ held
          · exact over_ held
        · exact over_ held

theorem attachKeeps {pid : Nat} (some_ : pid ≠ 0) (h : Inv r k []) :
    Holds Move (Calls r) (fun u x => Inv r u x.1.threads ∧ (x.1.pid = 0 → x.1 = .zero)) (attach pid)
      k := by
  unfold attach
  refine holdsThen (tryAttachKeeps h) fun k1 x tried => ?_
  obtain ⟨s1,ok⟩ := x
  cases ok with
  | true => exact holdsDone (invStable _) tried.inv fun _ inv =>
      ⟨inv,fun zero => absurd (tried.pid.symm.trans zero) some_⟩
  | false =>
    refine holdsThen (detachKeeps tried.inv) fun k2 s2 gone => ?_
    obtain ⟨inv,rfl⟩ := gone
    exact holdsDone (invStable _) inv fun _ inv => ⟨inv,fun _ => rfl⟩

variable (r) in
structure Good (k : Kernel) (s : Session) : Prop where
  inv : Inv r k s.threads
  idle : s.pid = 0 → s = .zero

theorem goodKept {p : Tracer (Session × Bool)} (live : s.pid ≠ 0)
    (kept : Holds Move (Calls r) (Kept r s) p k) :
    Holds Move (Calls r) (Good r) (do let (s,_) ← p; pure s) k :=
  holdsThen kept fun _ _ held => holdsDone (invStable _) held.inv fun _ inv =>
    ⟨inv,fun zero => absurd (held.pid.symm.trans zero) live⟩

theorem performKeeps {op : Op}
    (h : Good r k s) : Holds Move (Calls r) (Good r) (perform s op) k := by
  have still : Holds Move (Calls r) (Good r) (pure s : Tracer Session) k :=
    holdsDone (invStable _) h.inv fun _ inv => ⟨inv,h.idle⟩
  cases op with
  | attach pid =>
    simp only [perform]
    split
    · exact still
    · next free =>
      push Not at free
      have empty : Inv r k [] := by
        have inv := h.inv
        rw [h.idle free.1] at inv
        exact inv
      exact holdsThen (attachKeeps free.2 empty) fun u x held =>
        holdsDone (invStable _) held.1 fun _ inv => ⟨inv,held.2⟩
  | detach =>
    refine holdsMono (fun u s' gone => ?_) (detachKeeps h.inv)
    obtain ⟨inv,rfl⟩ := gone
    exact ⟨inv,fun _ => rfl⟩
  | interruptAll =>
    by_cases live : s.pid = 0
    · rw [h.idle live] at still ⊢; exact still
    · exact goodKept live
        (holdsMono (fun _ _ held => ⟨held.inv,held.pid⟩) (interruptAllKeeps h.inv))
  | continueAll =>
    by_cases live : s.pid = 0
    · rw [h.idle live] at still ⊢; exact still
    · exact goodKept live (continueAllKeeps h.inv)
  | pollEvents fuel =>
    by_cases live : s.pid = 0
    · rw [h.idle live] at still ⊢; exact still
    · exact goodKept live (pollKeeps h.inv)
  | ensurePatchRegionsAreSafe inside =>
    by_cases live : s.pid = 0
    · rw [h.idle live] at still ⊢; exact still
    · exact goodKept live (safeAllKeeps h.inv)

/- What runs of the operations lead to, when every step of the kernel keeps to the rules. -/
inductive Reached (r : Rules) : Session → Kernel → Prop where
  | start {k : Kernel} (untraced : k.Untraced) : Reached r .zero k
  | op {s k op s' k'} (before : Reached r s k) (run : Runs Move (Calls r) (perform s op) k s' k') :
      Reached r s' k'

theorem reachedGood (h : Reached r s k) : Good r k s := by
  induction h with
  | start untraced =>
    refine ⟨⟨.nil,fun th bad => absurd bad (by simp [Session.zero]),fun t _ _ task there _ => ?_,
      fun _ e member => ?_⟩,fun _ => rfl⟩
    · obtain ⟨running,_,owed⟩ := untraced.2 t task there
      exact ⟨owed,fun stop bad => by rw [running] at bad; cases bad⟩
    · rw [untraced.1] at member; cases member
  | op _ run ih => exact holdsRuns run (performKeeps ih)

def anyRun : Rules := ⟨false,false⟩

/- In every state that a session reaches: a stop during which no listed thread creates a
thread and is gone before it is seized, and that succeeds, stops every thread. -/
theorem stopStopsEveryThread {s' : Session} {k' : Kernel} (reached : Reached anyRun s k)
    (run : Runs Move (Calls ⟨false,true⟩) (interruptAll s) k (s',true) k') : AllStopped s' k' := by
  have inv := (reachedGood reached).inv
  have inv' : Inv ⟨false,true⟩ k s.threads :=
    ⟨inv.distinct,inv.inside,inv.outside,fun bad => by cases bad⟩
  have stopped := holdsRuns run (interruptAllKeeps inv')
  obtain ⟨scan,rested⟩ := stopped.scan rfl
  exact allStopped rfl scan rested

/- Every resume injected what was owed to the thread, and what is owed to a live thread is
recorded in its entry, for its next resume. -/
structure Delivered (s : Session) (k : Kernel) : Prop where
  once : ∀ e ∈ k.resumed, e.2.1 = e.2.2
  pending : ∀ t task, t ≠ 0 → k.task t = some task → task.life ≠ .dead → task.owed ≠ 0 →
    ∃ th ∈ s.threads, th.tid = t ∧ th.stopped = true ∧ th.resumeSignal = task.owed

theorem pendingRecorded (h : Inv r k s.threads) {task : Task} (nonzero : t ≠ 0)
    (there : k.task t = some task)
    (alive : task.life ≠ .dead) (owed : task.owed ≠ 0) :
    ∃ th ∈ s.threads, th.tid = t ∧ th.stopped = true ∧ th.resumeSignal = task.owed := by
  by_cases listed : Listed s.threads t
  · obtain ⟨th,member,rfl⟩ := listed
    obtain ⟨task',there',mine⟩ := h.inside th member nonzero
    cases Option.some.inj (there.symm.trans there')
    cases marked : th.stopped with
    | true => exact ⟨th,member,rfl,marked,(mine.recorded marked alive).1⟩
    | false => exact absurd (mine.unseen marked alive).1 owed
  · have outside := h.outside t nonzero (fun th member same => listed ⟨th,member,same⟩) task
      there alive
    exact absurd outside.1 owed

/- In every state of every run in which no thread is detached with a collected signal that
it has not been given. -/
theorem signalsDeliveredOnce (reached : Reached ⟨true,false⟩ s k) : Delivered s k := by
  have inv := (reachedGood reached).inv
  exact ⟨inv.faithful rfl,fun t task nonzero there alive owed =>
    pendingRecorded inv nonzero there alive owed⟩

/-! One thread is attached, and goes on. -/
section OneThread

def running (traced : Bool) : Task := ⟨.running,traced,0⟩
def halted (stop : Stop) : Task := ⟨.stopped stop false,true,0⟩
def collected (stop : Stop) : Task := ⟨.stopped stop true,true,stop.signal⟩

def alone (task : Task) (log : List (Nat × Nat × Nat)) : Kernel :=
  ⟨fun t => if t = 1 then some task else none,fun _ => false,log⟩

variable {task task' : Task} {log : List (Nat × Nat × Nat)} {stop : Stop}

theorem aloneListed (alive : task.life ≠ .dead) :
    Serve (alone task log) .list (.tids (some [1])) (alone task log) := by
  refine Serve.listed (k := alone task log) fun t => ⟨fun member => ?_,?_⟩
  · rw [List.mem_singleton.mp member]
    exact ⟨by simp,task,by simp [alone],alive⟩
  · rintro ⟨_,task',there,_⟩
    by_contra other
    simp [alone,List.mem_singleton.not.mp other] at there

theorem alonePut : (alone task log).put 1 (some task') = alone task' log := by
  simp only [alone,Kernel.put]
  congr 1
  funext t
  by_cases same : t = 1
  · subst same; simp
  · simp [same]

theorem aloneSeized :
    Serve (alone (running false) log) (.seize 1) (.errno .ok) (alone (running true) log) := by
  have seized := @Serve.seized (alone (running false) log) 1 (running false) rfl
      (by simp [running]) rfl
  rwa [alonePut] at seized

theorem aloneStops (stop : Stop) : Move (alone (running true) log) (alone (halted stop) log) := by
  have stops := @Move.stop (alone (running true) log) 1 (running true) stop rfl rfl rfl
  rwa [alonePut] at stops

theorem aloneCollected {who} (which : who = some 1 ∨ who = none) :
    Serve (alone (halted stop) log) (.wait who) (.event 1 (.stopped stop.status))
      (alone (collected stop) log) := by
  have waited := @Serve.waitStopped (alone (halted stop) log) 1 (halted stop) stop who which rfl
      rfl rfl
  rwa [alonePut] at waited

theorem aloneResumed {single sig} :
    Serve (alone (collected stop) log) (.resume single 1 sig) (.errno .ok)
    (alone (running true) (log ++ [(1,sig,stop.signal)])) := by
  have resumed := @Serve.resumed (alone (collected stop) log) single 1 sig (collected stop) stop
      true rfl rfl rfl
  have same : (alone (collected stop) log).resume 1 sig (collected stop) true =
      alone (running true) (log ++ [(1,sig,stop.signal)]) := by
    rw [Kernel.resume,alonePut]
    rfl
  rwa [same] at resumed

theorem allowed {c : Call} {v : Answer} (stays : ∀ t sig, c ≠ .detach t sig)
    (there : v ≠ .errno .esrch) : r.Allows k c v :=
  ⟨fun _ t sig same => absurd same (stays t sig),fun _ _ _ bad => absurd bad there⟩

theorem aloneAttached (stop : Stop) :
    Runs Move (Calls r) (perform .zero (.attach 7)) (alone (running false) [])
    ⟨7,[⟨1,true,resumeSignalFromStatus stop.status⟩],true,false⟩ (alone (collected stop) []) := by
  refine .called ⟨aloneListed (by simp [running]),allowed (by simp) (by simp)⟩ ?_
  refine .called ⟨aloneSeized,allowed (by simp) (by simp)⟩ ?_
  refine .called ⟨aloneListed (by simp [running]),allowed (by simp) (by simp)⟩ ?_
  refine .called ⟨@Serve.interrupted (alone (running true) []) 1 (running true) rfl
    (by simp [running]) rfl,
    allowed (by simp) (by simp)⟩ ?_
  refine .moved (aloneStops stop) ?_
  refine .called ⟨aloneCollected (.inl rfl),allowed (by simp) (by simp)⟩ ?_
  refine .called ⟨aloneListed (by simp [collected]),allowed (by simp) (by simp)⟩ ?_
  refine .called ⟨@Serve.link (alone (collected stop) []) (some 3),allowed (by simp) (by simp)⟩ ?_
  refine .called ⟨@Serve.isPie (alone (collected stop) []) true,allowed (by simp) (by simp)⟩ ?_
  refine .called ⟨@Serve.imageBase (alone (collected stop) []) true,allowed (by simp) (by simp)⟩ ?_
  exact .done

theorem aloneUntraced : (alone (running false) []).Untraced := by
  refine ⟨rfl,fun t task there => ?_⟩
  by_cases same : t = 1
  · subst same; cases Option.some.inj there; exact ⟨rfl,rfl,rfl⟩
  · simp [alone,same] at there

theorem attachedReached (stop : Stop) :
    Reached r ⟨7,[⟨1,true,resumeSignalFromStatus stop.status⟩],true,false⟩
      (alone (collected stop) []) :=
  .op (.start aloneUntraced) (aloneAttached stop)

theorem continuedReached :
    Reached r ⟨7,[⟨1,false,0⟩],false,false⟩ (alone (running true) [(1,0,0)]) := by
  refine @Reached.op r _ _ .continueAll _ _ (attachedReached .trap) ?_
  refine .called ⟨aloneResumed,allowed (by simp) (by simp)⟩ ?_
  exact .done

theorem aloneStopped :
    AllStopped ⟨7,[⟨1,true,0⟩],true,false⟩ (alone (collected .trap) [(1,0,0)]) := by
  refine stopStopsEveryThread continuedReached ?_
  refine .called ⟨aloneListed (by simp [running]),allowed (by simp) (by simp)⟩ ?_
  refine .called ⟨@Serve.interrupted (alone (running true) [(1,0,0)]) 1 (running true) rfl
    (by simp [running]) rfl,
    allowed (by simp) (by simp)⟩ ?_
  refine .moved (aloneStops .trap) ?_
  refine .called ⟨aloneCollected (.inl rfl),allowed (by simp) (by simp)⟩ ?_
  refine .called ⟨aloneListed (by simp [collected]),allowed (by simp) (by simp)⟩ ?_
  exact .done

theorem anyAllowed {c : Call} {v : Answer} : anyRun.Allows k c v :=
  ⟨fun bad => absurd bad (by simp [anyRun]),fun bad => absurd bad (by simp [anyRun])⟩

/- While the first thread is being stopped it creates a second one; that one is listed,
creates a third and is gone before it is seized. -/
def secondMade : Kernel :=
  { (alone (running true) [(1,0,0)]).put 2 (some (running false))
    with forked := Function.update (fun _ => false) 1 true }

def firstStopped : Kernel := (secondMade.put 1 (some (halted .trap))).put 1 (some (collected .trap))

def secondListed : Kernel := { firstStopped with forked := fun _ => false }

def thirdLeft : Kernel :=
  { secondListed.put 3 (some (running false))
    with forked := Function.update secondListed.forked 2 true }.put 2 none

theorem bothListed : Serve firstStopped .list (.tids (some [1,2])) secondListed := by
  refine Serve.listed fun t => ⟨fun member => ?_,?_⟩
  · have which : t = 1 ∨ t = 2 := by simpa using member
    rcases which with rfl | rfl
    · exact ⟨by simp,collected .trap,rfl,by simp [collected]⟩
    · exact ⟨by simp,running false,rfl,by simp [running]⟩
  · rintro ⟨_,task,there,_⟩
    by_contra other
    have away : t ≠ 1 ∧ t ≠ 2 := by simpa using other
    simp [firstStopped,secondMade,Kernel.put,alone,away] at there

theorem grandchildRuns :
    ∃ s k s' k', Reached anyRun s k ∧ Runs Move (Calls anyRun) (interruptAll s) k (s',true) k' ∧
    ¬ AllStopped s' k' := by
  refine ⟨_,_,⟨7,[⟨1,true,0⟩],true,false⟩,thirdLeft,continuedReached,?_,?_⟩
  · refine .called ⟨aloneListed (by simp [running]),anyAllowed⟩ ?_
    refine .moved (@Move.clone _ 1 2 (running true) rfl rfl rfl (by simp)) ?_
    refine .called ⟨@Serve.interrupted _ 1 (running true) rfl (by simp [running]) rfl,anyAllowed⟩ ?_
    refine .moved (@Move.stop _ 1 (running true) .trap rfl rfl rfl) ?_
    refine .called ⟨@Serve.waitStopped _ 1 (halted .trap) .trap _ (.inl rfl) rfl rfl rfl,anyAllowed⟩
      ?_
    refine .called ⟨bothListed,anyAllowed⟩ ?_
    refine .moved (@Move.clone _ 2 3 (running false) rfl rfl rfl (by simp)) ?_
    refine .moved (@Move.exit _ 2 (running false) rfl (by simp [running])) ?_
    refine .called ⟨@Serve.seizeGone _ 2 rfl,anyAllowed⟩ ?_
    exact .done
  · intro all
    obtain ⟨th,member,same,_⟩ := all 3 ⟨by simp,running false,rfl,by simp [running]⟩
    rw [List.mem_singleton.mp member] at same
    cases same

theorem polledSignal :
    Delivered ⟨7,[⟨1,false,0⟩],false,false⟩ (alone (running true) [(1,0,0),(1,10,10)]) := by
  refine signalsDeliveredOnce (@Reached.op _ _ _ (.pollEvents 2) _ _ continuedReached ?_)
  refine .called ⟨aloneListed (by simp [running]),allowed (by simp) (by simp)⟩ ?_
  refine .moved (aloneStops (.delivery 10 (by decide))) ?_
  refine .called ⟨aloneCollected (.inr rfl),allowed (by simp) (by simp)⟩ ?_
  refine .called ⟨aloneResumed,allowed (by simp) (by simp)⟩ ?_
  refine .called ⟨@Serve.anyFailed _ .ok,allowed (by simp) (by simp)⟩ ?_
  refine .called ⟨@Serve.isExited _ false,allowed (by simp) (by simp)⟩ ?_
  exact .done

/- The thread is stopped by a signal in the attach, and detached before it is resumed. -/
theorem detachLosesSignal : ∃ s k, Reached anyRun s k ∧ ¬ Delivered s k := by
  refine ⟨.zero,(alone (collected (.delivery 10 (by decide))) []).resume 1 0
    (collected (.delivery 10 (by decide))) false,
    @Reached.op _ _ _ .detach _ _ (attachedReached (.delivery 10 (by decide))) ?_,?_⟩
  · refine .called ⟨@Serve.detached _ 1 0 (collected (.delivery 10 (by decide))) _ _ rfl rfl rfl,
      anyAllowed⟩ ?_
    exact .done
  · intro delivered
    have lost := delivered.once (1,0,10) (by simp [Kernel.resume,alone,collected,Stop.signal])
    cases lost

end OneThread

end ZeroTrace.SessionRuns
