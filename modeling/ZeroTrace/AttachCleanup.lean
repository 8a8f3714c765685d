import ZeroTrace.StopNotes

/-! What a failed attach leaves behind. It cleans up with the stop and the table that may
just have failed, and a thread can only be detached while it is stopped. -/
namespace ZeroTrace.AttachCleanup
open Relation SharedRead SharedCalls ThreadControl ThreadTable GroupStop SessionRuns StopNotes

variable {r : Rules} {k k' u : Kernel} {threads : List Thread} {th : Thread} {s : Session}
    {pid : Nat}

/- No live thread is traced, or held. -/
def Clean (k : Kernel) : Prop := ∀ t task, k.task t = some task → t ≠ 0 → task.life ≠ .dead →
    task.traced = false ∧ task.life = .running

/-! Only tracees are stopped, in every run. -/
def Loose (k : Kernel) : Prop := ∀ t task, k.task t = some task → task.traced = false →
    task.life = .running

theorem loosePut {t : Nat} {x : Option Task} (h : Loose k)
    (mine : ∀ task, x = some task → task.traced = false → task.life = .running) :
    Loose (k.put t x) := by
  intro t' task there
  by_cases same : t' = t
  · subst same; rw [putSame] at there; exact mine task there
  · rw [putOther same] at there; exact h t' task there

theorem looseStable : Stable Move Loose := by
  intro k k' h move
  cases move with
  | clone => exact loosePut h fun task now _ => by cases Option.some.inj now; rfl
  | @exit t task lives alive =>
    refine loosePut h fun task' now free => ?_
    split at now
    · next traced => cases Option.some.inj now; rw [traced] at free; cases free
    · cases now
  | @stop t task stop runs running traced =>
    refine loosePut h fun task' now free => ?_
    cases Option.some.inj now
    rw [traced] at free; cases free

theorem looseCalls {c : Call} {v : Answer} (h : Loose k) (answer : Calls r k c v u) : Loose u := by
  have traced : ∀ {t : Nat} {task : Task}, task.traced = true → Loose (k.put t (some task)) :=
    fun yes =>
    loosePut h fun task' now free => by cases Option.some.inj now; rw [yes] at free; cases free
  cases answer.1 with
  | seized => exact traced rfl
  | waitStopped _ _ yes => exact traced yes
  | waitExited => exact loosePut h fun task now => by cases now
  | resumed => exact @traced _ ⟨.running,true,0⟩ rfl
  | detached => exact loosePut h fun task now _ => by cases Option.some.inj now; rfl
  | _ => exact h

structure Letting (r : Rules) (k : Kernel) (threads : List Thread) : Prop where
  inv : Inv r k threads
  covered : Covered k threads []
  held : ∀ th ∈ threads, th.tid ≠ 0 → ∀ task, k.task th.tid = some task → task.life ≠ .running

theorem haltedMove {t : Nat} {old task : Task} (there : k.task t = some old)
    (halted : old.life ≠ .running) (move : Move k k')
    (now : k'.task t = some task) : task.life ≠ .running := by
  have drift := moveDrift move t
  rw [there] at drift
  generalize k'.task t = later at drift now
  cases drift with
  | same => cases Option.some.inj now; exact halted
  | died =>
    split at now
    · cases Option.some.inj now; simp
    · cases now
  | stopped running => exact absurd running halted

theorem lettingStable (threads : List Thread) : Stable Move fun k => Letting r k threads := by
  intro k k' h move
  refine ⟨invMove h.inv move,coveredMove h.covered move,fun th member nonzero task now => ?_⟩
  obtain ⟨old,there,_⟩ := h.inv.inside th member nonzero
  exact haltedMove there (h.held th member nonzero old there) move now

theorem listedRest {x : Nat} (other : x ≠ th.tid)
    (known : Listed (th :: threads) x) : Listed threads x := by
  obtain ⟨y,member,rfl⟩ := known
  rcases List.mem_cons.mp member with rfl | late
  · exact absurd rfl other
  · exact ⟨y,late,rfl⟩

theorem lettingDetached {v : Answer} (nonzero : th.tid ≠ 0) (h : Letting r k (th :: threads))
    (answer : Calls r k (.detach th.tid 0) v u) :
    Letting r u threads := by
  obtain ⟨task,there,mine⟩ := h.inv.inside th (by simp) nonzero
  have same : ∀ x, x ≠ th.tid → u.task x = k.task x := by
    rcases serveDetach answer.1 with ⟨_,_,_,_,_,_,rfl⟩ | ⟨_,rfl⟩
    · exact fun x other => putOther other
    · exact fun _ _ => rfl
  -- It is stopped, so it is let go, unless it is dead.
  have gone : ∀ task', u.task th.tid = some task' → task'.life ≠ .dead → task'.traced = false := by
    intro task' now alive
    rcases serveDetach answer.1 with ⟨old,stop,seen,_,_,_,rfl⟩ | ⟨free,rfl⟩
    · rw [show (k.resume th.tid 0 old false).task th.tid =
        some ⟨.running,false,0⟩ from putSame k _ _] at now
      cases Option.some.inj now
      rfl
    · cases Option.some.inj (there.symm.trans now)
      cases life : task.life with
      | running => exact absurd life (h.held th (by simp) nonzero task there)
      | stopped stop seen => exact absurd ⟨task,stop,seen,there,mine.traced,life⟩ free
      | dead => exact absurd life alive
  refine ⟨invDetached h.inv nonzero answer,fun x task' live now alive traced => ?_,
    fun y member live task' now => ?_⟩
  · by_cases here : x = th.tid
    · subst here
      rw [gone task' now alive] at traced
      cases traced
    · rw [same x here] at now
      exact .inl (listedRest here
        ((h.covered x task' live now alive traced).resolve_right (by simp)))
  · have other : y.tid ≠ th.tid := fun bad =>
      nonzero ((List.pairwise_cons.mp h.inv.distinct).1 y member bad.symm)
    rw [same y.tid other] at now
    exact h.held y (List.mem_cons_of_mem _ member) live task' now

theorem lettingBlank (zero : th.tid = 0)
    (h : Letting r k (th :: threads)) : Letting r k threads := by
  refine ⟨invDropped h.inv (fun _ _ => rfl) (fun nonzero => absurd zero nonzero) h.inv.faithful,
    fun x task live now alive traced => ?_,
    fun y member => h.held y (List.mem_cons_of_mem _ member)⟩
  exact .inl (listedRest (by rw [zero]; exact live)
    ((h.covered x task live now alive traced).resolve_right (by simp)))

theorem detachEachClean {list : List Thread} (h : Letting r k list) (loose : Loose k) :
    Holds Move (Calls r) (fun u _ => Clean u) (eachThread detachThread list) k := by
  have freed := detachEachHolds (r := r) lettingStable lettingBlank lettingDetached list h
  have kept : Holds Move (Calls r) (fun u _ => Loose u) (eachThread detachThread list) k :=
    holdsAlways looseStable (fun _ _ _ _ h answer => looseCalls h answer) _ loose
  refine holdsMono (fun u x held t task there live alive => ?_) (holdsAnd freed kept)
  have untraced : task.traced = false := by
    cases traced : task.traced with
    | false => rfl
    | true => rcases held.1.covered t task live there alive traced
        with ⟨_,bad,_⟩ | bad <;> cases bad
  exact ⟨untraced,held.2 t task there untraced⟩

variable (r) in
structure Cleaning (k : Kernel) (s : Session) : Prop where
  inv : Inv r k s.threads
  marked : s.threadsStopped = true → Covered k s.threads [] ∧ ∀ th ∈ s.threads, Rested th

theorem cleaningStable (s : Session) : Stable Move fun k => Cleaning r k s := fun _ _ h move =>
  ⟨invMove h.inv move,fun yes => ⟨coveredMove (h.marked yes).1 move,(h.marked yes).2⟩⟩

theorem stopForDetachCleaning (h : Cleaning r k s) :
    Holds Move (Calls r) (Cleaning r) (stopForDetach s) k := by
  unfold stopForDetach
  split
  · next unstopped =>
    refine holdsThen (interruptAllKeeps h.inv) fun u x stopped => ?_
    refine holdsDone (cleaningStable x.1) ⟨stopped.inv,fun yes => ?_⟩ fun _ h => h
    rcases stopped.marked.mp yes with before | ok
    · rw [unstopped.2] at before; cases before
    · exact ⟨(stopped.scan ok).1.covered,(stopped.scan ok).2⟩
  · exact holdsDone (cleaningStable s) h fun _ h => h

def Detached (s : Session) (k k' : Kernel) : Prop :=
  ∃ x, Runs Move (Calls anyRun) (eachThread detachThread s.threads) k x k'

def Ready (s : Session) (k : Kernel) : Prop :=
  Covered k s.threads [] ∧ ∀ th ∈ s.threads, th.tid ≠ 0 → ∀ task, k.task th.tid = some task →
    task.life ≠ .running

theorem failedCleaning {s1 s2 : Session} {k1 k2 : Kernel} (start : Inv anyRun k [])
    (tried : Runs Move (Calls anyRun) (tryAttach pid) k (s1,false) k1)
    (stopped : Runs Move (Calls anyRun) (stopForDetach s1) k1 s2 k2) : Cleaning anyRun k2 s2 := by
  have attached := holdsRuns tried (tryAttachKeeps start)
  exact holdsRuns stopped (stopForDetachCleaning ⟨attached.inv,attached.marked⟩)

theorem looseRuns {α : Type} {p : Tracer α} {a : α} (run : Runs Move (Calls r) p k a k')
    (h : Loose k) : Loose k' :=
  holdsRuns run (holdsAlways looseStable (fun _ _ _ _ h answer => looseCalls h answer) p h)

theorem reachedLoose (reached : Reached r s k) : Loose k := by
  induction reached with
  | start untraced => exact fun t task there _ => (untraced.2 t task there).1
  | op _ run ih => exact looseRuns run ih

theorem markedReady (h : Cleaning r k s) (marked : s.threadsStopped = true) : Ready s k := by
  obtain ⟨covered,rested⟩ := h.marked marked
  refine ⟨covered,fun th member nonzero task there => ?_⟩
  obtain ⟨task',there',mine⟩ := h.inv.inside th member nonzero
  cases Option.some.inj (there.symm.trans there')
  exact mine.halted ((rested th member).resolve_left nonzero)

theorem readyClean (h : Cleaning anyRun k s) (loose : Loose k) (ready : Ready s k)
    (detached : Detached s k k') : Clean k' := by
  obtain ⟨x,run⟩ := detached
  exact holdsRuns run (detachEachClean ⟨h.inv,ready.1,ready.2⟩ loose)

/- An attach that fails, the stop of its clean-up and the detaching, each call with the notes. -/
def Failing (first second : Noted → Call → Answer → Noted → Prop) (pid : Nat)
    (k k' : Kernel) : Prop := ∃ s1 x1 s2 x2,
  Runs (besideMove Move) first (tryAttach pid) (k,.zero) (s1,false) x1 ∧
    Runs (besideMove Move) second (stopForDetach s1) (x1.1,{ x1.2 with listed := 0 }) s2 x2 ∧
      Detached s2 x2.1 k'

theorem attachFails {s' : Session} : Runs Move (Calls anyRun) (attach pid) k (s',false) k' ↔
    s' = .zero ∧ Failing Noting Noting pid k k' := by
  unfold attach detach
  constructor
  · intro run
    obtain ⟨⟨s1,ok⟩,k1,tried,rest⟩ := runsBind.mp run
    cases ok with
    | true => cases (runsDone rest).1
    | false =>
      obtain ⟨s3,k3,detached,last⟩ := runsBind.mp rest
      obtain ⟨s2,k2,stopped,rest⟩ := runsBind.mp detached
      obtain ⟨x,k4,each,zero⟩ := runsBind.mp rest
      obtain ⟨same,later⟩ := runsDone last
      obtain ⟨rfl,soon⟩ := runsDone zero
      obtain ⟨g1,tried⟩ := runsBeside Notes.next tried .zero
      obtain ⟨g2,stopped⟩ := runsBeside Notes.next stopped { g1 with listed := 0 }
      exact ⟨(Prod.mk.inj same).1,s1,(k1,g1),s2,(k2,g2),tried,stopped,x,
        runsLater each (soon.trans later)⟩
  · rintro ⟨rfl,s1,x1,s2,x2,tried,stopped,x,each⟩
    have tried := besideRuns (fun _ _ _ _ noted => noted.1) tried
    have stopped := besideRuns (fun _ _ _ _ noted => noted.1) stopped
    refine runsBind.mpr ⟨(s1,false),x1.1,tried,?_⟩
    exact runsBind.mpr ⟨.zero,k',runsBind.mpr ⟨s2,x2.1,stopped,runsBind.mpr ⟨x,k',each,.done⟩⟩,
      .done⟩

theorem metReady {s1 s2 : Session} {x1 x2 : Noted} (start : Inv anyRun k []) (clean : Clean k)
    (tried : Runs (besideMove Move) (Met False) (tryAttach pid) (k,.zero) (s1,false) x1)
    (stopped : Runs (besideMove Move) (Met True) (stopForDetach s1) (x1.1,{ x1.2 with listed := 0 })
      s2 x2) (cleaning : Cleaning anyRun x2.1 s2) :
    Ready s2 x2.1 := by
  have covered : Covered k [] [] := fun t task nonzero there alive traced => by
    rw [(clean t task there nonzero alive).1] at traced
    cases traced
  obtain ⟨⟨m,shown⟩,empty⟩ := holdsRuns tried (tryAttachShows ⟨start,covered,rfl,rfl,rfl⟩)
  rcases holdsRuns stopped (stopForDetachShows shown empty) with marked | ⟨covered,none_ | still⟩
  · exact markedReady cleaning marked
  · exact ⟨covered,fun th member => by rw [none_] at member; cases member⟩
  · refine ⟨covered,fun th member nonzero task there => ?_⟩
    obtain ⟨task',there',mine⟩ := cleaning.inv.inside th member nonzero
    cases Option.some.inj (there.symm.trans there')
    exact still th.tid task nonzero there mine.traced

/- In every state that a session reaches: an attach that fails goes through its clean-up, and
when its steps meet the conditions that leaves nothing behind, whatever the threads do. -/
theorem failedAttachLeavesNothing (reached : Reached anyRun s k) (idle : s.pid = 0) :
    (∀ s' k', Runs Move (Calls anyRun) (attach pid) k (s',false) k' ↔ s' = .zero ∧
      Failing Noting Noting pid k k') ∧
      (Clean k → ∀ k', Failing (Met False) (Met True) pid k k' → Clean k') := by
  have good := reachedGood reached
  have start : Inv anyRun k [] := by
    have inv := good.inv
    rw [good.idle idle] at inv
    exact inv
  refine ⟨fun s' k' => attachFails,?_⟩
  rintro clean k' ⟨s1,x1,s2,x2,tried,stopped,detached⟩
  have tried' := besideRuns (fun _ _ _ _ met => met.1.1) tried
  have stopped' := besideRuns (fun _ _ _ _ met => met.1.1) stopped
  have cleaning := failedCleaning start tried' stopped'
  exact readyClean cleaning (looseRuns stopped' (looseRuns tried' (reachedLoose reached)))
    (metReady start clean tried stopped cleaning) detached

section
variable {cleaning : Prop} {g : Notes} {c : Call} {v : Answer}

theorem metCall (served : Serve k c v u) (meets : Meets cleaning (k,g) c v) :
    Met cleaning (k,g) c v (u,g.next c v) :=
  ⟨⟨⟨served,anyAllowed⟩,rfl⟩,meets⟩

theorem metPlain (served : Serve k c v u) (seize : ∀ t, c = .seize t → v ≠ .errno .ok)
    (fine : ¬ Refused c v) :
    Met cleaning (k,g) c v (u,g.next c v) :=
  metCall served ⟨fun t is ok => absurd ok (seize t is),fun _ t is ok => absurd ok (seize t is),
    fun _ bad => absurd bad fine⟩

end

/- The thread is stopped, and then the path of the executable is found empty. -/
theorem emptyPathFails :
    Failing (Met False) (Met True) 7 (alone (running false) [])
      ((alone (collected .trap) []).resume 1 0 (collected .trap) false) := by
  refine ⟨⟨7,[⟨1,true,0⟩],true,false⟩,(alone (collected .trap) [],⟨1,0,3⟩),_,_,?_,.done,
    ([⟨1,true,0⟩],true),?_⟩
  · refine .called (metPlain (aloneListed (by simp [running])) (fun _ bad => by cases bad) id) ?_
    refine .called (metCall aloneSeized ⟨fun _ _ _ => by decide,False.elim,False.elim⟩) ?_
    refine .called (metPlain (aloneListed (by simp [running])) (fun _ bad => by cases bad) id) ?_
    refine .called (metPlain
      (@Serve.interrupted (alone (running true) []) 1 (running true) rfl (by simp [running]) rfl)
      (fun _ bad => by cases bad) id) ?_
    refine .moved (besideMoved (aloneStops .trap)) ?_
    refine .called (metPlain (aloneCollected (.inl rfl)) (fun _ bad => by cases bad) id) ?_
    refine .called (metPlain (aloneListed (by simp [collected])) (fun _ bad => by cases bad) id) ?_
    refine .called (metPlain (@Serve.link (alone (collected .trap) []) (some 0))
      (fun _ bad => by cases bad) id) ?_
    exact .done
  · refine .called ⟨@Serve.detached _ 1 0 (collected .trap) _ _ rfl rfl rfl,anyAllowed⟩ ?_
    exact .done

theorem emptyPathClean :
    Clean ((alone (collected .trap) []).resume 1 0 (collected .trap) false) := by
  refine (failedAttachLeavesNothing (.start aloneUntraced) rfl).2 (fun t task there _ _ => ?_) _
    emptyPathFails
  exact ⟨(aloneUntraced.2 t task there).2.1,(aloneUntraced.2 t task there).1⟩

/- Somebody else traces the second of two threads, so that it cannot be seized, by the attach
or by the clean-up. The first one has been by then, and it runs. -/
def twoThreads (traced : Bool) : Kernel :=
  ⟨fun t => if t = 1 then some (running traced) else if t = 2 then some (running false) else none,
    fun _ => false,[]⟩

theorem twoListed {traced : Bool} :
    Serve (twoThreads traced) .list (.tids (some [1,2])) (twoThreads traced) := by
  refine Serve.listed (k := twoThreads traced) fun t => ⟨fun member => ?_,?_⟩
  · have which : t = 1 ∨ t = 2 := by simpa using member
    rcases which with rfl | rfl
    · exact ⟨by simp,running traced,rfl,by simp [running]⟩
    · exact ⟨by simp,running false,rfl,by simp [running]⟩
  · rintro ⟨_,task,there,_⟩
    by_contra other
    have away : t ≠ 1 ∧ t ≠ 2 := by simpa using other
    simp [twoThreads,away] at there

theorem firstSeized : Serve (twoThreads false) (.seize 1) (.errno .ok) (twoThreads true) := by
  have seized := @Serve.seized (twoThreads false) 1 (running false) rfl (by simp [running]) rfl
  have same : (twoThreads false).put 1 (some (running true)) = twoThreads true := by
    simp only [twoThreads,Kernel.put]
    congr 1
    funext t
    by_cases here : t = 1
    · subst here; simp
    · simp [here]
  rw [← same]
  exact seized

theorem twoUntraced : (twoThreads false).Untraced := by
  refine ⟨rfl,fun t task there => ?_⟩
  simp only [twoThreads] at there
  split at there
  · cases Option.some.inj there; exact ⟨rfl,rfl,rfl⟩
  · split at there
    · cases Option.some.inj there; exact ⟨rfl,rfl,rfl⟩
    · cases there

theorem refusedSeizeLeavesTracee : ∃ k s' k', Reached anyRun .zero k ∧
    Runs Move (Calls anyRun) (attach 7) k (s',false) k' ∧ ¬ Clean k' := by
  refine ⟨twoThreads false,.zero,twoThreads true,.start twoUntraced,?_,fun clean => ?_⟩
  · refine .called ⟨twoListed,anyAllowed⟩ ?_
    refine .called ⟨firstSeized,anyAllowed⟩ ?_
    refine .called ⟨@Serve.seizeRefused _ 2 (running false) rfl,anyAllowed⟩ ?_
    refine .called ⟨twoListed,anyAllowed⟩ ?_
    refine .called ⟨@Serve.seizeRefused _ 2 (running false) rfl,anyAllowed⟩ ?_
    refine .called ⟨@Serve.detachGone _ 1 0 ?_,anyAllowed⟩ ?_
    · rintro ⟨task,stop,seen,there,_,stopped⟩
      cases Option.some.inj there
      cases stopped
    · exact .done
  · have free := (clean 1 (running true) rfl (by simp) (by simp [running])).1
    cases free

end ZeroTrace.AttachCleanup
