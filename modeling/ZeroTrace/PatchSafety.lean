import ZeroTrace.ProbeLifecycle
import ZeroTrace.SessionRuns

/-! Text is patched while the threads are held outside the patch regions. Here the kernel has
the program counters too: a thread changes its own while it runs, by a step or otherwise, and
keeps it while it is held. -/
namespace ZeroTrace.PatchSafety
open Relation SharedRead SharedCalls ByteMemory PatchCode ProbeTable ThreadControl ThreadTable
  SessionRuns

structure Machine where
  kernel : Kernel
  pc : Nat → UInt64
  text : Memory

inductive Moves : Machine → Machine → Prop where
  | threads {m : Machine} {k} (move : Move m.kernel k) : Moves m ⟨k,m.pc,m.text⟩
  | runs {m : Machine} {t task pc} (lives : m.kernel.task t = some task)
      (running : task.life = .running) :
      Moves m ⟨m.kernel,Function.update m.pc t pc,m.text⟩

inductive Request where
  | thread (c : Call)
  | write (addr : Nat) (bytes : List UInt8)

/- A write that fails may have got part of the way. -/
inductive Serves : Machine → Request → Answer → Machine → Prop where
  | thread {m : Machine} {c v k} (served : Serve m.kernel c v k) (told : ∀ t pc, c = .getPc t →
      v = .pc pc → pc = (m.pc t).toNat) :
      Serves m (.thread c) v ⟨k,m.pc,m.text⟩
  | written {m : Machine} {addr bytes} : Serves m (.write addr bytes) (.errno .ok) ⟨m.kernel,m.pc,
      write m.text addr bytes⟩
  | failed {m : Machine} {addr bytes} (done : Nat) :
      Serves m (.write addr bytes) (.errno .other) ⟨m.kernel,m.pc,
        write m.text addr (bytes.take done)⟩

def Served (m : Machine) (c : Call) (v : Answer) (m' : Machine) : Prop := Serves m (.thread c) v m'

/- The end of a region is computed in 64 bits. -/
def pcIsInsidePatchRegion (table : ProbeTable.Session) (pc : UInt64) : Bool :=
  pc != 0 && (List.finRange 32).any fun i =>
    let start := UInt64.ofNat (table.probes i).target.remoteAddr
    (table.probes i).probeId != 0 && (table.probes i).origLen != 0 && decide (start ≤ pc) &&
      decide (pc < start + UInt64.ofNat (table.probes i).origLen)

def insideRegion (table : ProbeTable.Session) (pc : Nat) : Bool :=
  pcIsInsidePatchRegion table (UInt64.ofNat pc)

abbrev Patcher := Program Request Answer

def installProbePatch (isa : Isa) (table : ProbeTable.Session) (s : ThreadControl.Session)
    (id : Nat) (trampolineAddr : UInt64) :
    Patcher (ProbeTable.Session × ThreadControl.Session × Bool) :=
  if trampolineAddr = 0 then pure (table,s,false) else match probeFindById table id with
    | none => pure (table,s,false)
    | some i =>
      let p := table.probes i
      if p.state ≠ .prepared ∨ p.origLen < probePatchLen isa then pure (table,s,false)
      else through .thread (ensurePatchRegionsAreSafe (insideRegion table) s) >>= fun checked =>
        if checked.2 = false ∨ p.target.remoteAddr = 0 then pure (table,checked.1,false)
        else ask (.write p.target.remoteAddr (jumpPatch isa trampolineAddr)) >>= fun v =>
          if errnoOf v = .ok then
            pure (table.set i { p with trampolineAddr := trampolineAddr, state := .installed },
            checked.1,true)
          else pure (table,checked.1,false)

def uninstallProbePatch (table : ProbeTable.Session) (s : ThreadControl.Session) (id : Nat) :
    Patcher (ProbeTable.Session × ThreadControl.Session × Bool) :=
  match probeFindById table id with
  | none => pure (table,s,false)
  | some i =>
    let p := table.probes i
    if p.origLen = 0 then pure (table,s,false)
    else through .thread (ensurePatchRegionsAreSafe (insideRegion table) s) >>= fun checked =>
      if checked.2 = false then pure (table,checked.1,false)
      else ask (.write p.target.remoteAddr (p.origCode.take p.origLen)) >>= fun v =>
        if errnoOf v = .ok then pure (table.set i { p with state := .disabled },checked.1,true)
        else pure (table,checked.1,false)

/-! The table is compacted in place. -/
section Compaction

def compactLoop : Nat → Nat → Nat → List Thread → List Thread × Nat
  | 0,_,writeIdx,threads => (threads,writeIdx)
  | left+1,readIdx,writeIdx,threads => match threads[readIdx]? with
    | none => (threads,writeIdx)
    | some th =>
      if th.tid = 0 then compactLoop left (readIdx + 1) writeIdx threads
      else compactLoop left (readIdx + 1) (writeIdx + 1)
        (if writeIdx ≠ readIdx then threads.set writeIdx th else threads)

def compactInPlace (threads : List Thread) : List Thread :=
  (compactLoop threads.length 0 0 threads).1.take (compactLoop threads.length 0 0 threads).2

def live (th : Thread) : Bool := th.tid != 0

/- The entries in front of the writing position are those kept so far; the ones from the reading
position on are as they were. -/
theorem compactLoopKeeps (left : Nat) : ∀ {readIdx writeIdx : Nat} {threads : List Thread},
    writeIdx ≤ readIdx →
    readIdx + left = threads.length →
    (compactLoop left readIdx writeIdx threads).1.take
      (compactLoop left readIdx writeIdx threads).2 =
      threads.take writeIdx ++ (threads.drop readIdx).filter live := by
  induction left with
  | zero =>
    intro readIdx writeIdx threads _ whole
    rw [compactLoop,List.drop_eq_nil_of_le (by omega)]
    simp
  | succ left ih =>
    intro readIdx writeIdx threads behind whole
    have low : readIdx < threads.length := by omega
    rw [compactLoop,List.getElem?_eq_getElem low,List.drop_eq_getElem_cons low]
    dsimp only
    split
    · next zero =>
      rw [ih (by omega) (by omega),List.filter_cons_of_neg (by simp [live,zero])]
    · next nonzero =>
      rw [List.filter_cons_of_pos (by simp [live,nonzero])]
      split
      · next apart =>
        rw [ih (by omega) (by rw [List.length_set]; omega),List.drop_set_of_lt (by omega),
          List.take_add_one]
        simp [List.take_set_of_le (Nat.le_refl writeIdx),show writeIdx < threads.length by omega]
      · next same =>
        have same : writeIdx = readIdx := not_not.mp same
        subst same
        rw [ih (by omega) (by omega),← List.take_append_getElem low,List.append_assoc]
        rfl

theorem compactedInPlace (s : ThreadControl.Session) :
    compactInPlace s.threads = (compactThreads s).threads := by
  rw [compactInPlace,compactLoopKeeps s.threads.length (Nat.le_refl 0) (by omega)]
  rfl

end Compaction

section Tracee
variable {m m' : Machine} {t x : Nat} {P Q : Task → UInt64 → Prop}

def Every (P : Task → UInt64 → Prop) (t : Nat) (m : Machine) : Prop :=
  ∀ task, m.kernel.task t = some task → task.traced = true → P task (m.pc t)

structure Resting (P : Task → UInt64 → Prop) : Prop where
  rests : ∀ task pc, P task pc → task.life ≠ .running
  dies : ∀ task pc, P task pc → P { task with life := .dead } pc

def Halted : Nat → Machine → Prop := Every fun task _ => task.life ≠ .running
def Gone : Nat → Machine → Prop := Every fun task _ => task.life = .dead
def Traced (t : Nat) (m : Machine) : Prop := ∃ task, m.kernel.task t = some task ∧
    task.traced = true

def steps (t : Nat) (m : Machine) : Nat := m.kernel.resumed.countP fun e => e.1 == t

theorem movesTask (move : Moves m m') (t : Nat) : Drift (m.kernel.task t) (m'.kernel.task t) := by
  cases move with
  | threads move => exact moveDrift move t
  | runs => exact .same

theorem movesPc (move : Moves m m') (t : Nat) :
    m'.pc t = m.pc t ∨ m'.kernel = m.kernel ∧ ∃ task, m.kernel.task t = some task ∧
      task.life = .running := by
  cases move with
  | threads => exact .inl rfl
  | @runs t' task pc lives running =>
    by_cases same : t = t'
    · subst same
      exact .inr ⟨rfl,task,lives,running⟩
    · exact .inl (Function.update_of_ne same _ _)

theorem movesSteps (move : Moves m m') (t : Nat) : steps t m' = steps t m := by
  cases move with
  | threads move => rw [steps,moveResumed move,steps]
  | runs => rfl

theorem everyStable (resting : Resting P) (t : Nat) : Stable Moves (Every P t) := by
  intro m m' all move task now traced
  have drift := movesTask move t
  rcases movesPc move t with pc | ⟨kernel,old,there,running⟩
  · rw [pc]
    generalize before : m.kernel.task t = x at drift
    generalize after : m'.kernel.task t = y at drift now
    cases drift with
    | same => exact all task (before.trans now) traced
    | born => cases now; cases traced
    | @died old alive =>
      split at now
      · next was =>
        cases now
        exact resting.dies old _ (all old before was)
      · cases now
    | @stopped old stop running was =>
        exact absurd running (resting.rests old _ (all old before was))
  · rw [kernel] at now
    cases Option.some.inj (there.symm.trans now)
    exact absurd running (resting.rests task _ (all task now traced))

theorem tracedStable (t : Nat) : Stable Moves (Traced t) := by
  rintro m m' ⟨task,there,traced⟩ move
  have drift := movesTask move t
  rw [there] at drift
  generalize after : m'.kernel.task t = y at drift
  cases drift with
  | same => exact ⟨task,after,traced⟩
  | died alive =>
    rw [if_pos traced] at after
    exact ⟨_,after,traced⟩
  | stopped running was => exact ⟨_,after,was⟩

theorem haltedRests : Resting fun task _ => task.life ≠ .running :=
  ⟨fun _ _ h => h,fun _ _ _ bad => by cases bad⟩

theorem goneRests : Resting fun task _ => task.life = .dead :=
  ⟨fun _ _ h bad => (by rw [h] at bad; cases bad),fun _ _ _ => rfl⟩

theorem goneHalted (gone : Gone t m) : Halted t m :=
  fun task there traced => goneRests.rests task 0 (gone task there traced)

theorem goneUnheld (halted : Halted t m) (free : ¬ m.kernel.held t) : Gone t m := by
  intro task there traced
  cases at_ : task.life with
  | running => exact absurd at_ (halted task there traced)
  | stopped stop seen => exact absurd ⟨task,stop,seen,there,traced,at_⟩ free
  | dead => rfl

/-! What is known of one thread, whatever happens to the others. -/
structure SameAt (t : Nat) (m m' : Machine) : Prop where
  task : m'.kernel.task t = m.kernel.task t
  pc : m'.pc t = m.pc t
  steps : steps t m' = steps t m

structure About (t : Nat) (inv : Machine → Prop) : Prop where
  stable : Stable Moves inv
  only : ∀ m m', SameAt t m m' → inv m → inv m'

theorem everyAbout (resting : Resting P) (t : Nat) : About t (Every P t) where
  stable := everyStable resting t
  only m m' same all task there traced := by
    rw [same.pc]
    exact all task (same.task.symm.trans there) traced

theorem tracedAbout (t : Nat) : About t (Traced t) where
  stable := tracedStable t
  only m m' same := by
    rintro ⟨task,there,traced⟩
    exact ⟨task,same.task.trans there,traced⟩

theorem stepsAbout (t : Nat) (P : Nat → Prop) : About t fun m => P (steps t m) where
  stable _ m' h move := show P (steps t m') from (movesSteps move t).symm ▸ h
  only _ m' same h := show P (steps t m') from same.steps.symm ▸ h

theorem aboutAnd {inv inv' : Machine → Prop} (first : About t inv) (second : About t inv') :
    About t fun m => inv m ∧ inv' m where
  stable m m' h move := ⟨first.stable m m' h.1 move,second.stable m m' h.2 move⟩
  only m m' same h := ⟨first.only m m' same h.1,second.only m m' same h.2⟩

/- A condition on the number of steps in front of it. -/
theorem aboutWhen {inv : Machine → Prop} (P : Nat → Prop) (about : About t inv) :
    About t fun m => P (steps t m) → inv m where
  stable m m' h move few := about.stable m m' (h (movesSteps move t ▸ few)) move
  only m m' same h few := about.only m m' same (h (same.steps ▸ few))

/-! What each request can come to. -/
section Requests
variable {v : Answer} {sig : Nat}

theorem servedPc (answer : Served m (.getPc t) v m') : m' = m ∧
    (m.kernel.held t ∧ v = .pc (m.pc t).toNat ∨ v = .errno .esrch ∧ ¬ m.kernel.held t ∨
      v = .errno .other) := by
  cases answer with
  | thread served told =>
    cases served with
    | @pc _ pc held => exact ⟨rfl,.inl ⟨held,by rw [told t pc rfl rfl]⟩⟩
    | pcGone gone => exact ⟨rfl,.inr (.inl ⟨rfl,gone⟩)⟩
    | pcRefused => exact ⟨rfl,.inr (.inr rfl)⟩

theorem servedResume {single} (answer : Served m (.resume single t sig) v m') :
    (v = .errno .ok ∧ ∃ task, m' = ⟨m.kernel.resume t sig task true,m.pc,m.text⟩) ∨
    (v = .errno .esrch ∧ ¬ m.kernel.held t ∧ m' = m) ∨ (v = .errno .other ∧ m' = m) := by
  cases answer with
  | thread served told =>
    rcases serveResume served with ⟨rfl,task,_,_,_,_,_,rfl⟩ | ⟨rfl,free,rfl⟩ | ⟨rfl,rfl⟩
    · exact .inl ⟨rfl,task,rfl⟩
    · exact .inr (.inl ⟨rfl,free,rfl⟩)
    · exact .inr (.inr ⟨rfl,rfl⟩)

theorem servedWait (answer : Served m (.wait (some t)) v m') :
    (∃ task stop, v = .event t (.stopped stop.status) ∧ task.life = .stopped stop true ∧
      m' = ⟨m.kernel.put t (some task),m.pc,m.text⟩) ∨
    (v = .event t .exited ∧ m' = ⟨m.kernel.put t none,m.pc,m.text⟩) ∨
    (v = .errno .esrch ∧ (∀ task, m.kernel.task t = some task → task.traced = false) ∧ m' = m) ∨
      (v = .errno .other ∧ m' = m) := by
  cases answer with
  | thread served told =>
    rcases serveWait served with collected | ⟨rfl,gone,rfl⟩ | ⟨rfl,rfl⟩
    · cases collected with
      | stopped there traced at_ => exact .inl ⟨_,_,rfl,rfl,rfl⟩
      | exited => exact .inr (.inl ⟨rfl,rfl⟩)
    · exact .inr (.inr (.inl ⟨rfl,gone,rfl⟩))
    · exact .inr (.inr (.inr ⟨rfl,rfl⟩))

def ForThread (t : Nat) (c : Call) : Prop := (∃ x, c = .getPc x) ∨ (∃ sig, c = .resume true t sig) ∨
    c = .wait (some t)

theorem putAt {y : Option ThreadControl.Task} (other : x ≠ t) :
    SameAt x m ⟨m.kernel.put t y,m.pc,m.text⟩ := ⟨putOther other,rfl,rfl⟩

theorem resumeSteps (task : ThreadControl.Task) :
    steps x ⟨m.kernel.resume t sig task true,m.pc,m.text⟩ = steps x m + if t = x then 1 else 0 := by
  simp [steps,Kernel.resume,Kernel.put,List.countP_append,List.countP_cons]

theorem servedElsewhere {c : Call} (other : x ≠ t) (for_ : ForThread t c)
    (answer : Served m c v m') : SameAt x m m' := by
  rcases for_ with ⟨y,rfl⟩ | ⟨sig,rfl⟩ | rfl
  · rw [(servedPc answer).1]
    exact ⟨rfl,rfl,rfl⟩
  · rcases servedResume answer with ⟨_,task,rfl⟩ | ⟨_,_,rfl⟩ | ⟨_,rfl⟩
    · exact ⟨putOther other,rfl,by rw [resumeSteps,if_neg (Ne.symm other),Nat.add_zero]⟩
    · exact ⟨rfl,rfl,rfl⟩
    · exact ⟨rfl,rfl,rfl⟩
  · rcases servedWait answer with ⟨task,stop,_,_,rfl⟩ | ⟨_,rfl⟩ | ⟨_,_,rfl⟩ | ⟨_,rfl⟩
    · exact putAt other
    · exact putAt other
    · exact ⟨rfl,rfl,rfl⟩
    · exact ⟨rfl,rfl,rfl⟩

end Requests

end Tracee

section Entry
variable {inside : Nat → Bool} {m m' : Machine} {t b n : Nat} {q : Prop} {inv : Machine → Prop}
    {th : Thread}

def Finished (inside : Nat → Bool) : Nat → Machine → Prop :=
  Every fun task pc => task.life ≠ .running ∧ (task.life ≠ .dead → inside pc.toNat = false)

structure Settled (inside : Nat → Bool) (t : Nat) (m : Machine) : Prop where
  traced : Traced t m
  rests : Every (fun task pc => task.life ≠ .running ∧ inside pc.toNat = false) t m

theorem finishedRests : Resting fun task pc => task.life ≠ .running ∧
    (task.life ≠ .dead → inside pc.toNat = false) :=
  ⟨fun _ _ h => h.1,fun _ _ _ => ⟨fun bad => (by cases bad),fun bad => absurd rfl bad⟩⟩

theorem settledRests : Resting fun task pc => task.life ≠ .running ∧ inside pc.toNat = false :=
  ⟨fun _ _ h => h.1,fun _ _ h => ⟨fun bad => (by cases bad),h.2⟩⟩

theorem settledAbout (t : Nat) : About t (Settled inside t) where
  stable m m' h move :=
    ⟨tracedStable t m m' h.traced move,everyStable settledRests t m m' h.rests move⟩
  only m m' same h :=
    ⟨(tracedAbout t).only m m' same h.traced,(everyAbout settledRests t).only m m' same h.rests⟩

theorem settledFinished (h : Settled inside t m) : Finished inside t m :=
  fun task there traced => ⟨(h.rests task there traced).1,fun _ => (h.rests task there traced).2⟩

theorem goneFinished (gone : Gone t m) : Finished inside t m :=
  fun task there traced =>
    ⟨goneHalted gone task there traced,fun alive => absurd (gone task there traced) alive⟩

theorem finishedHalted (h : Finished inside t m) : Halted t m :=
  fun task there traced => (h task there traced).1

theorem settledOutside (h : Settled inside t m) : inside (m.pc t).toNat = false := by
  obtain ⟨task,there,traced⟩ := h.traced
  exact (h.rests task there traced).2

theorem heldSettled (held : m.kernel.held t) (outside : inside (m.pc t).toNat = false) :
    Settled inside t m := by
  obtain ⟨task,stop,seen,there,traced,at_⟩ := held
  refine ⟨⟨task,there,traced⟩,fun task' there' _ => ?_⟩
  cases Option.some.inj (there.symm.trans there')
  exact ⟨by rw [at_]; exact fun bad => (by cases bad),outside⟩

theorem heldOutside (h : Finished inside t m) (held : m.kernel.held t) :
    inside (m.pc t).toNat = false := by
  obtain ⟨task,stop,seen,there,traced,at_⟩ := held
  exact (h task there traced).2 (by rw [at_]; exact fun bad => (by cases bad))

theorem stepOnly (there : th.tid = t ∨ th = threadClear) :
    Only (ForThread t) (fun x => x.1.tid = t ∨ x.1 = threadClear) (singleStepThread th) := by
  unfold singleStepThread
  split
  · exact there
  · next going =>
    push Not at going
    rcases there with rfl | rfl
    · refine onlyAsk (.inr (.inl ⟨_,rfl⟩)) fun v => ?_
      split
      · unfold waitForThreadStop
        split
        · exact .inl rfl
        · refine onlyAsk (.inr (.inr rfl)) fun v => ?_
          split
          · exact .inl rfl
          · exact .inr rfl
          · exact .inr rfl
          · exact .inl rfl
      · exact .inr rfl
      · exact .inl rfl
    · exact absurd rfl going.1

theorem stepOutOnly (n : Nat) : ∀ {th : Thread}, th.tid = t ∨ th = threadClear →
    Only (ForThread t) (fun x => x.1.tid = t ∨ x.1 = threadClear) (stepOut inside n th) := by
  induction n with
  | zero => exact fun there => there
  | succ n ih =>
    intro th there
    refine onlyAsk (.inl ⟨_,rfl⟩) fun v => ?_
    split
    · split
      · exact there
      · refine onlyThen (stepOnly there) fun x there => ?_
        obtain ⟨th',ok⟩ := x
        cases ok with
        | false => exact there
        | true => exact ih there
    · exact .inr rfl
    · exact there

theorem safeOnly (th : Thread) :
    Only (ForThread th.tid) (fun x => x.1.tid = th.tid ∨ x.1 = threadClear)
    (makeThreadSafe inside th) := by
  unfold makeThreadSafe
  split
  · exact .inl rfl
  · refine onlyThen (stepOutOnly _ (.inl rfl)) fun x there => ?_
    obtain ⟨th',ok⟩ := x
    cases ok with
    | false => exact there
    | true =>
      dsimp only
      split
      · exact there
      · refine onlyAsk (.inl ⟨_,rfl⟩) fun v => ?_
        split
        · exact there
        · exact there

theorem elsewhereKept (about : About t inv) (other : t ≠ th.tid) (h : inv m) :
    Holds Moves Served (fun u _ => inv u) (makeThreadSafe inside th) m :=
  holdsMono (fun _ _ kept => kept.1)
    (holdsOnly about.stable
      (fun _ _ _ _ for_ h answer => about.only _ _ (servedElsewhere other for_ answer) h)
      (safeOnly th) h)

theorem lookKept {post : Machine → Thread × Bool → Prop} {f : Answer → Tracer (Thread × Bool)}
    {x : Nat} (stable : Stable Moves inv) (h : inv m)
    (found : ∀ u, inv u → u.kernel.held x → Holds Moves Served post (f (.pc (u.pc x).toNat)) u)
    (lost : ∀ u, inv u → ¬ u.kernel.held x → Holds Moves Served post (f (.errno .esrch)) u)
    (refused : ∀ u, inv u → Holds Moves Served post (f (.errno .other)) u) :
    Holds Moves Served post (ask (.getPc x) >>= f) m := by
  refine holdsAsk stable h fun u v u' h answer => ?_
  obtain ⟨rfl,⟨held,rfl⟩ | ⟨rfl,free⟩ | rfl⟩ := servedPc answer
  · exact found u' h held
  · exact lost u' h free
  · exact refused u' h

theorem lookOnlyKept {f : Answer → Tracer (Thread × Bool)} {x : Nat} (stable : Stable Moves inv)
    (h : inv m) (ends : ∀ v, ∃ y, f v = pure y) :
    Holds Moves Served (fun u _ => inv u) (ask (.getPc x) >>= f) m := by
  have done : ∀ v u, inv u → Holds Moves Served (fun u _ => inv u) (f v) u := by
    intro v u h
    obtain ⟨y,same⟩ := ends v
    rw [same]
    exact holdsDone stable h fun _ h => h
  exact lookKept stable h (fun u h _ => done _ u h) (fun u h _ => done _ u h)
    (fun u h => done _ u h)

theorem stepOutQuiet (about : About th.tid inv) (quiet : ∀ u, inv u → Finished inside th.tid u)
    (n : Nat) (h : inv m) :
    Holds Moves Served (fun u _ => inv u) (stepOut inside n th) m := by
  cases n with
  | zero => exact holdsDone about.stable h fun _ h => h
  | succ n =>
    refine lookKept about.stable h (fun u h held => ?_)
      (fun u h _ => holdsDone about.stable h fun _ h => h)
      (fun u h => holdsDone about.stable h fun _ h => h)
    dsimp only
    rw [heldOutside (quiet u h) held]
    exact holdsDone about.stable h fun _ h => h

theorem lastLookEnds {th : Thread} (v : Answer) :
    ∃ y, (match v with | .pc pc => pure (th,!inside pc) | _ => pure (th,false) :
      Tracer (Thread × Bool)) = pure y := by
  split
  · exact ⟨_,rfl⟩
  · exact ⟨_,rfl⟩

/- What is known of a thread that needs no step is not changed by any entry, its own included. -/
theorem quietKept (about : About t inv) (quiet : ∀ u, inv u → Finished inside t u)
    (th : Thread) (h : inv m) :
    Holds Moves Served (fun u _ => inv u) (makeThreadSafe inside th) m := by
  by_cases same : t = th.tid
  · subst same
    unfold makeThreadSafe
    split
    · exact holdsDone about.stable h fun _ h => h
    · refine holdsThen (stepOutQuiet about quiet _ h) fun u x h => ?_
      obtain ⟨th',ok⟩ := x
      cases ok with
      | false => exact holdsDone about.stable h fun _ h => h
      | true =>
        dsimp only
        split
        · exact holdsDone about.stable h fun _ h => h
        · exact lookOnlyKept about.stable h lastLookEnds
  · exact elsewhereKept about same h

/-! The thread that is stepped. Once it has been stepped, or if it rested at first, it does not
run whenever the tracer looks at it. -/
def Watched (q : Prop) (b t : Nat) (m : Machine) : Prop := q ∨ b < steps t m

structure Stepping (q : Prop) (b n t : Nat) (m : Machine) : Prop where
  budget : steps t m + n ≤ b + patchRegionMaxSingleSteps
  halted : Watched q b t m → Halted t m

/- The entry after some steps, `n` of which are left. -/
structure Stepped (q : Prop) (b n t : Nat) (m : Machine) (x : Thread × Bool) : Prop where
  budget : steps t m + n ≤ b + patchRegionMaxSingleSteps
  fate : x.2 = true → x.1 = threadClear ∧ (Watched q b t m → Gone t m) ∨
    x.1.tid = t ∧ x.1.stopped = true ∧ (Watched q b t m → Halted t m)

theorem watchedStable {inv : Machine → Prop} (stable : Stable Moves inv) :
    Stable Moves fun m => Watched q b t m → inv m := by
  intro m m' h move watched
  exact stable m m' (h (watched.imp_right fun few => movesSteps move t ▸ few)) move

theorem budgetStable : Stable Moves fun m => steps t m + n ≤ b + patchRegionMaxSingleSteps :=
  fun _ m' h move => show steps t m' + n ≤ _ from (movesSteps move t).symm ▸ h

theorem steppingStable : Stable Moves (Stepping q b n t) :=
  fun m m' h move =>
    ⟨budgetStable m m' h.budget move,watchedStable (everyStable haltedRests t) m m' h.halted move⟩

theorem steppedStable (x : Thread × Bool) : Stable Moves fun m => Stepped q b n t m x := by
  refine fun m m' h move => ⟨budgetStable m m' h.budget move,fun ok => ?_⟩
  rcases h.fate ok with ⟨cleared,gone⟩ | ⟨tid,stopped,halted⟩
  · exact .inl ⟨cleared,watchedStable (everyStable goneRests t) m m' gone move⟩
  · exact .inr ⟨tid,stopped,watchedStable (everyStable haltedRests t) m m' halted move⟩

theorem steppedDone {x : Thread × Bool} (h : Stepped q b n t m x) :
    Holds Moves Served (Stepped q b n t) (pure x) m :=
  holdsDone (steppedStable x) h fun _ h => h

theorem waitSteps (here : th.tid = t) (nonzero : t ≠ 0)
    (h : steps t m + n ≤ b + patchRegionMaxSingleSteps) :
    Holds Moves Served (Stepped q b n t) (waitForThreadStop th) m := by
  unfold waitForThreadStop
  rw [if_neg (here ▸ nonzero)]
  refine holdsAsk budgetStable h fun u v u' h answer => ?_
  rw [here] at answer
  rcases servedWait answer with ⟨task,stop,rfl,at_,rfl⟩ | ⟨rfl,rfl⟩ | ⟨rfl,gone,rfl⟩ | ⟨rfl,rfl⟩
  · refine steppedDone ⟨h,fun _ => .inr ⟨here,rfl,fun _ task' there _ => ?_⟩⟩
    cases Option.some.inj ((putSame u.kernel t (some task)).symm.trans there)
    rw [at_]
    exact fun bad => by cases bad
  · refine steppedDone ⟨h,fun _ => .inl ⟨rfl,fun _ task' there => ?_⟩⟩
    cases (putSame u.kernel t none).symm.trans there
  · refine steppedDone ⟨h,fun _ => .inl ⟨rfl,fun _ task' there traced => ?_⟩⟩
    rw [gone task' there] at traced
    cases traced
  · exact steppedDone ⟨h,fun bad => by cases bad⟩

theorem singleStepSteps (here : th.tid = t) (nonzero : t ≠ 0) (h : Stepping q b (n + 1) t m) :
    Holds Moves Served (Stepped q b n t) (singleStepThread th) m := by
  have less : ∀ {u}, Stepping q b (n + 1) t u → steps t u + n ≤ b + patchRegionMaxSingleSteps :=
    fun h => by have := h.budget; omega
  unfold singleStepThread
  split
  · exact steppedDone ⟨less h,fun bad => by cases bad⟩
  · refine holdsAsk steppingStable h fun u v u' h answer => ?_
    rw [here] at answer
    rcases servedResume answer with ⟨rfl,task,rfl⟩ | ⟨rfl,free,rfl⟩ | ⟨rfl,rfl⟩
    · refine waitSteps here nonzero ?_
      rw [resumeSteps,if_pos rfl]
      have := h.budget
      omega
    · exact steppedDone
        ⟨less h,fun _ => .inl ⟨rfl,fun watched => goneUnheld (h.halted watched) free⟩⟩
    · exact steppedDone ⟨less h,fun bad => by cases bad⟩

theorem stepOutCleared (stable : Stable Moves inv) (n : Nat) (h : inv m) :
    Holds Moves Served (fun u x => inv u ∧ x.1 = threadClear) (stepOut inside n threadClear) m := by
  have done : ∀ {u} ok, inv u →
      Holds Moves Served (fun u x => inv u ∧ x.1 = threadClear)
      (pure (threadClear,ok) : Tracer (Thread × Bool)) u :=
    fun ok h => holdsDone stable h fun _ h => ⟨h,rfl⟩
  cases n with
  | zero => exact done true h
  | succ n =>
    refine lookKept stable h (fun u h _ => ?_) (fun u h _ => done true h) (fun u h => done false h)
    dsimp only
    split
    · exact done true h
    · rw [singleStepThread,if_pos (.inl rfl)]
      exact done false h

theorem stepOutSteps (nonzero : t ≠ 0) (n : Nat) : ∀ {th : Thread} {m : Machine}, th.tid = t →
    th.stopped = true → Stepping q b n t m →
    Holds Moves Served (Stepped q b 0 t) (stepOut inside n th) m := by
  induction n with
  | zero => exact fun here marked h => steppedDone ⟨h.budget,fun _ => .inr ⟨here,marked,h.halted⟩⟩
  | succ n ih =>
    intro th m here marked h
    have less : ∀ {u}, Stepping q b (n + 1) t u → steps t u + 0 ≤ b + patchRegionMaxSingleSteps :=
      fun h => by have := h.budget; omega
    refine lookKept steppingStable h (fun u h _ => ?_) (fun u h free => ?_)
      (fun u h => steppedDone ⟨less h,fun bad => by cases bad⟩)
    · dsimp only
      split
      · exact steppedDone ⟨less h,fun _ => .inr ⟨here,marked,h.halted⟩⟩
      · refine holdsThen (singleStepSteps here nonzero h) fun u x stepped => ?_
        have few : steps t u + 0 ≤ b + patchRegionMaxSingleSteps := by have := stepped.budget; omega
        obtain ⟨th',ok⟩ := x
        cases ok with
        | false => exact steppedDone ⟨few,fun bad => by cases bad⟩
        | true =>
          rcases stepped.fate rfl with ⟨cleared,gone⟩ | ⟨tid,stopped,halted⟩
          · cases cleared
            refine holdsMono (fun u x kept => ?_)
              (stepOutCleared (steppedStable (threadClear,true)) n ⟨few,fun _ => .inl ⟨rfl,gone⟩⟩)
            rcases kept.1.fate rfl with ⟨_,gone⟩ | ⟨_,bad,_⟩
            · exact ⟨kept.1.budget,fun _ => .inl ⟨kept.2,gone⟩⟩
            · cases bad
          · exact ih tid stopped ⟨stepped.budget,halted⟩
    · rw [here] at free
      exact steppedDone ⟨less h,
        fun _ => .inl ⟨rfl,fun watched => goneUnheld (h.halted watched) free⟩⟩

structure Checked (inside : Nat → Bool) (q : Prop) (b t : Nat) (m : Machine)
    (x : Thread × Bool) : Prop where
  budget : steps t m ≤ b + patchRegionMaxSingleSteps
  fate : x.2 = true → x.1.tid = 0 ∧ (Watched q b t m → Gone t m) ∨ x.1.tid = t ∧ Settled inside t m

theorem checkedStable (x : Thread × Bool) : Stable Moves fun m => Checked inside q b t m x := by
  refine fun m m' h move => ⟨budgetStable (n := 0) m m' h.budget move,fun ok => ?_⟩
  rcases h.fate ok with ⟨cleared,gone⟩ | ⟨tid,settled⟩
  · exact .inl ⟨cleared,watchedStable (everyStable goneRests t) m m' gone move⟩
  · exact .inr ⟨tid,(settledAbout t).stable m m' settled move⟩

theorem checkedDone {x : Thread × Bool} (h : Checked inside q b t m x) :
    Holds Moves Served (Checked inside q b t) (pure x) m :=
  holdsDone (checkedStable x) h fun _ h => h

theorem safeChecks (going : ¬ (th.tid = 0 ∨ th.stopped = false)) (few : steps th.tid m ≤ b)
    (halted : q → Halted th.tid m) :
    Holds Moves Served (Checked inside q b th.tid) (makeThreadSafe inside th) m := by
  have start : Stepping q b patchRegionMaxSingleSteps th.tid m := by
    refine ⟨by omega,fun watched => ?_⟩
    rcases watched with q | many
    · exact halted q
    · omega
  unfold makeThreadSafe
  rw [if_neg going]
  push Not at going
  refine holdsThen (stepOutSteps going.1 _ rfl (by simpa using going.2) start) fun u x stepped => ?_
  obtain ⟨th',ok⟩ := x
  cases ok with
  | false => exact checkedDone ⟨stepped.budget,fun bad => by cases bad⟩
  | true =>
    dsimp only
    split
    · next resting =>
      rcases stepped.fate rfl with ⟨cleared,gone⟩ | ⟨tid,stopped,_⟩
      · cases cleared
        exact checkedDone ⟨stepped.budget,fun _ => .inl ⟨rfl,gone⟩⟩
      · rcases resting with zero | unmarked
        · exact absurd (tid.symm.trans zero) going.1
        · cases stopped.symm.trans unmarked
    · next looks =>
      have tid : th'.tid = th.tid := by
        rcases stepped.fate rfl with ⟨cleared,_⟩ | ⟨tid,_,_⟩
        · cases cleared
          exact absurd (.inl rfl) looks
        · exact tid
      refine lookKept (budgetStable (n := 0)) stepped.budget (fun u few held => ?_)
        (fun u few _ => checkedDone ⟨few,fun bad => by cases bad⟩)
          (fun u few => checkedDone ⟨few,fun bad => by cases bad⟩)
      rw [tid] at held ⊢
      refine checkedDone ⟨few,fun out => .inr ⟨tid,heldSettled held ?_⟩⟩
      simpa using out

end Entry

/-! The whole table. Nothing is asked of it: a thread may stand in it twice. -/
section Table
variable {inside : Nat → Bool} {start m m' : Machine} {t b : Nat} {inv : Machine → Prop}

theorem eachQuiet (about : About t inv) (quiet : ∀ u, inv u → Finished inside t u)
    (list : List Thread) : ∀ {m : Machine}, inv m →
    Holds Moves Served (fun u _ => inv u) (eachThread (makeThreadSafe inside) list) m := by
  induction list with
  | nil => exact fun h => holdsDone about.stable h fun _ h => h
  | cons th rest ih =>
    intro m h
    refine holdsThen (quietKept about quiet th h) fun u x h => ?_
    obtain ⟨th',ok⟩ := x
    cases ok with
    | false => exact holdsDone about.stable h fun _ h => h
    | true => exact holdsThen (ih h) fun u x h => holdsDone about.stable h fun _ h => h

/- No thread is stepped more often than one entry allows, since none is stepped for two. -/
structure Spent (inside : Nat → Bool) (b t : Nat) (m : Machine) : Prop where
  budget : steps t m ≤ b + patchRegionMaxSingleSteps
  finished : b < steps t m → Finished inside t m

theorem spentAbout : About t (Spent inside b t) where
  stable m m' h move := ⟨budgetStable (n := 0) m m' h.budget move,
    (aboutWhen (fun k => b < k) (everyAbout finishedRests t)).stable m m' h.finished move⟩
  only m m' same h :=
    ⟨same.steps.symm ▸ h.budget,
    (aboutWhen (fun k => b < k) (everyAbout finishedRests t)).only m m' same h.finished⟩

def Within (inside : Nat → Bool) (b t : Nat) (m : Machine) (ok : Bool) : Prop :=
  steps t m ≤ b + patchRegionMaxSingleSteps ∧ (ok = true → Spent inside b t m)

theorem withinDone {α : Type} {a : α × Bool} (h : Within inside b t m a.2) :
    Holds Moves Served (fun u x => Within inside b t u x.2) (pure a : Tracer _) m :=
  holdsDone (fun m m' h move => ⟨budgetStable (n := 0) m m' h.1 move,
    fun ok => spentAbout.stable m m' (h.2 ok) move⟩) h
    fun _ h => h

theorem entrySpends (th : Thread) (h : Spent inside b t m) :
    Holds Moves Served (fun u x => Within inside b t u x.2) (makeThreadSafe inside th) m := by
  have kept : ∀ u (x : Thread × Bool), Spent inside b t u → Within inside b t u x.2 :=
    fun u x h => ⟨h.budget,fun _ => h⟩
  by_cases mine : t = th.tid ∧ ¬ (th.tid = 0 ∨ th.stopped = false) ∧ steps t m ≤ b
  · obtain ⟨rfl,going,few⟩ := mine
    refine holdsMono (fun u x checked => ⟨checked.budget,fun ok => ⟨checked.budget,fun many => ?_⟩⟩)
      (safeChecks (q := False) going few fun bad => bad.elim)
    rcases checked.fate ok with ⟨_,gone⟩ | ⟨_,settled⟩
    · exact goneFinished (gone (.inr many))
    · exact settledFinished settled
  · by_cases other : t = th.tid
    · subst other
      by_cases going : th.tid = 0 ∨ th.stopped = false
      · unfold makeThreadSafe
        rw [if_pos going]
        exact withinDone (kept m (th,true) h)
      · have many : b < steps th.tid m := by
          by_contra few
          exact mine ⟨rfl,going,by omega⟩
        have about := aboutAnd (stepsAbout th.tid fun k => k ≤ b + patchRegionMaxSingleSteps)
            (everyAbout (@finishedRests inside) th.tid)
        exact holdsMono (fun u x h => kept u x ⟨h.1,fun _ => h.2⟩)
          (quietKept about (fun u h => h.2) th ⟨h.budget,h.finished many⟩)
    · exact holdsMono kept (elsewhereKept spentAbout other h)

theorem eachSpends (list : List Thread) : ∀ {m : Machine}, Spent inside b t m →
    Holds Moves Served (fun u x => Within inside b t u x.2)
      (eachThread (makeThreadSafe inside) list) m := by
  induction list with
  | nil => exact fun h => withinDone ⟨h.budget,fun _ => h⟩
  | cons th rest ih =>
    intro m h
    refine holdsThen (entrySpends th h) fun u x within => ?_
    obtain ⟨th',ok⟩ := x
    cases ok with
    | false => exact withinDone within
    | true => exact holdsThen (ih (within.2 rfl)) fun u x within => withinDone within

/- What has become of an entry: it is there and its thread settled if it is marked stopped, or it
was cleared, and then a thread that was at rest is gone. -/
def Fate (inside : Nat → Bool) (start : Machine) (th th' : Thread) (m : Machine) : Prop :=
  th'.tid = th.tid ∧ (th.tid ≠ 0 → th'.stopped = true → Settled inside th.tid m) ∨
    th'.tid = 0 ∧ (Halted th.tid start → Gone th.tid m)

variable {th th' : Thread}

theorem fateStable : Stable Moves (Fate inside start th th') := by
  intro m m' fate move
  rcases fate with ⟨tid,settled⟩ | ⟨cleared,gone⟩
  · exact .inl ⟨tid,
      fun nonzero marked => (settledAbout th.tid).stable m m' (settled nonzero marked) move⟩
  · exact .inr ⟨cleared,fun halted => everyStable goneRests th.tid m m' (gone halted) move⟩

theorem fateKept (list : List Thread) (fate : Fate inside start th th' m) :
    Holds Moves Served (fun u _ => Fate inside start th th' u)
      (eachThread (makeThreadSafe inside) list) m := by
  rcases fate with ⟨tid,settled⟩ | ⟨cleared,gone⟩
  · by_cases marked : th.tid ≠ 0 ∧ th'.stopped = true
    · refine holdsMono (fun u _ h => .inl ⟨tid,fun _ _ => h⟩)
        (eachQuiet (settledAbout th.tid) (fun _ h => settledFinished h) list ?_)
      exact settled marked.1 marked.2
    · exact holdsTrivially
        (fun _ _ => .inl ⟨tid,fun nonzero stopped => absurd ⟨nonzero,stopped⟩ marked⟩) _
  · by_cases halted : Halted th.tid start
    · refine holdsMono (fun u _ h => .inr ⟨cleared,fun _ => h⟩)
        (eachQuiet (everyAbout goneRests th.tid) (fun _ h => goneFinished h) list ?_)
      exact gone halted
    · exact holdsTrivially (fun _ _ => .inr ⟨cleared,fun bad => absurd bad halted⟩) _

theorem entryFate (th : Thread) (rest : ∀ t, Halted t start → Halted t m) :
    Holds Moves Served (fun u x => x.2 = true → Fate inside start th x.1 u)
      (makeThreadSafe inside th) m := by
  by_cases going : th.tid = 0 ∨ th.stopped = false
  · unfold makeThreadSafe
    rw [if_pos going]
    refine holdsAnyway fun u _ => .inl ⟨rfl,fun nonzero marked => ?_⟩
    rcases going with zero | unmarked
    · exact absurd zero nonzero
    · cases marked.symm.trans unmarked
  · refine holdsMono (fun u x checked ok => ?_) (safeChecks going (Nat.le_refl _) (rest th.tid))
    rcases checked.fate ok with ⟨cleared,gone⟩ | ⟨tid,settled⟩
    · exact .inr ⟨cleared,fun halted => gone (.inl halted)⟩
    · exact .inl ⟨tid,fun _ _ => settled⟩

theorem entryRests (th : Thread) (t : Nat) (rest : Halted t start → Halted t m) :
    Holds Moves Served (fun u x => x.2 = true → Halted t start → Halted t u)
      (makeThreadSafe inside th) m := by
  by_cases halted : Halted t start
  · by_cases mine : t = th.tid ∧ ¬ (th.tid = 0 ∨ th.stopped = false)
    · obtain ⟨rfl,going⟩ := mine
      refine holdsMono (fun u x checked ok _ => ?_)
        (safeChecks (q := True) going (Nat.le_refl _) fun _ => rest halted)
      rcases checked.fate ok with ⟨_,gone⟩ | ⟨_,settled⟩
      · exact goneHalted (gone (.inl trivial))
      · exact finishedHalted (settledFinished settled)
    · by_cases other : t = th.tid
      · have resting : th.tid = 0 ∨ th.stopped = false := by
          by_contra going
          exact mine ⟨other,going⟩
        unfold makeThreadSafe
        rw [if_pos resting]
        exact holdsDone (everyStable haltedRests t) (rest halted) fun u h _ _ => h
      · exact holdsMono (fun u x h _ _ => h)
          (elsewhereKept (everyAbout haltedRests t) other (rest halted))
  · exact holdsTrivially (fun _ _ _ bad => absurd bad halted) _

theorem fatesStable (list list' : List Thread) :
    Stable Moves fun m => List.Forall₂ (fun th th' => Fate inside start th th' m) list list' :=
  fun m m' fates move => fates.imp fun _ _ fate => fateStable m m' fate move

theorem eachFates (list : List Thread) : ∀ {m : Machine}, (∀ t, Halted t start → Halted t m) →
    Holds Moves Served
    (fun u x => x.2 = true → List.Forall₂ (fun th th' => Fate inside start th th' u) list x.1)
      (eachThread (makeThreadSafe inside) list) m := by
  induction list with
  | nil => exact fun _ => holdsAnyway fun _ _ => .nil
  | cons th rest ih =>
    intro m resting
    refine holdsThen (holdsAnd (entryFate th resting)
      (holdsAll fun t => entryRests th t (resting t))) fun u x done => ?_
    obtain ⟨th',ok⟩ := x
    cases ok with
    | false => exact holdsAnyway fun _ bad => by cases bad
    | true =>
      refine holdsThen (holdsAnd (fateKept rest (done.1 rfl)) (ih fun t => done.2 t rfl))
        fun w y fates => ?_
      obtain ⟨rest',ok⟩ := y
      cases ok with
      | false => exact holdsAnyway fun _ bad => by cases bad
      | true => exact holdsDone (fatesStable _ _) (List.Forall₂.cons fates.1 (fates.2 rfl)) fun u
          fates _ => fates

end Table

/-! The same patches as the operations see them, where a step succeeds or fails. -/
section Operations
variable {m : Machine} {w : ProbeLifecycle.World} {isa : Isa} {id : Nat} {trampolineAddr : UInt64}

/- What an operation says of a patch is what has come of it here. -/
structure Patched (r : ProbeLifecycle.World × Bool) (u : Machine)
    (x : ProbeTable.Session × ThreadControl.Session × Bool) : Prop where
  table : x.1 = r.1.session
  ok : x.2.2 = r.2
  text : x.2.2 = true → u.text = r.1.text

theorem textStable (text : Memory) : Stable Moves fun m => m.text = text := by
  intro m m' same move
  cases move with
  | threads => exact same
  | runs => exact same

theorem checkKeepsText (inside : Nat → Bool) (s : ThreadControl.Session) {text : Memory}
    (same : m.text = text) :
    Holds Moves Serves (fun u _ => u.text = text)
      (through .thread (ensurePatchRegionsAreSafe inside s)) m := by
  refine holdsMono (fun _ _ kept => kept.1) (holdsOnly (textStable text) ?_ throughOnly same)
  rintro u c v u' ⟨call,rfl⟩ same answer
  cases answer with
  | thread => exact same

theorem writeHolds {α : Type} {f : Answer → Patcher α} {post : Machine → α → Prop} {text : Memory}
    {addr : Nat} {bytes : List UInt8}
    (same : m.text = text)
    (written : ∀ u, u.text = write text addr bytes → Holds Moves Serves post (f (.errno .ok)) u)
    (failed : ∀ u, Holds Moves Serves post (f (.errno .other)) u) :
    Holds Moves Serves post (ask (.write addr bytes) >>= f) m := by
  refine holdsAsk (textStable text) same fun u v u' same answer => ?_
  cases answer with
  | written => exact written _ (congrArg (write · addr bytes) same)
  | failed => exact failed _

theorem refusedPatch {r : ProbeLifecycle.World × Bool} {s : ThreadControl.Session}
    (refused : r = (w,false)) :
    Holds Moves Serves (fun u x => Patched r u x) (pure (w.session,s,false) : Patcher _) m :=
  holdsAnyway fun _ => ⟨by rw [refused],by rw [refused],fun bad => by cases bad⟩

/- An install of a patch does what the operations take it to do, with some outcome of the check
and of the write. -/
theorem installPatched (o : ProbeLifecycle.Outcome) (s : ThreadControl.Session)
    (text : m.text = w.text) :
    Holds Moves Serves (fun u x => ∃ safe writePatch,
      Patched (ProbeLifecycle.installProbePatch isa w id trampolineAddr
        { o with safe := safe, writePatch := writePatch }) u x)
      (installProbePatch isa w.session s id trampolineAddr) m := by
  unfold installProbePatch ProbeLifecycle.installProbePatch
  split
  · exact holdsMono (fun u x h => ⟨true,true,h⟩) (refusedPatch (w := w) rfl)
  · next target =>
    cases found : probeFindById w.session id with
    | none => exact holdsMono (fun u x h => ⟨true,true,h⟩) (refusedPatch (w := w) rfl)
    | some i =>
      dsimp only
      split
      · exact holdsMono (fun u x h => ⟨true,true,h⟩) (refusedPatch (w := w) rfl)
      · refine holdsThen (checkKeepsText _ s text) fun u checked same => ?_
        obtain ⟨s',safe⟩ := checked
        cases safe with
        | false =>
          rw [if_pos (.inl rfl)]
          exact holdsMono (fun u x h => ⟨false,true,h⟩) (refusedPatch (w := w) rfl)
        | true =>
          split
          · next zero =>
            have nowhere : (w.session.probes i).target.remoteAddr = 0 := zero.resolve_left (by simp)
            refine holdsMono (fun u x h => ⟨true,true,h⟩) (refusedPatch (w := w) ?_)
            simp [ProbeLifecycle.archInstallJump,nowhere]
          · next somewhere =>
            push Not at somewhere
            refine writeHolds same (fun u done => ?_) fun u => ?_
            · refine holdsDone (textStable _) done fun u done => ⟨true,true,?_⟩
              simp only [ProbeLifecycle.archInstallJump,somewhere.2,target,or_self,if_false,if_true,
                Bool.not_true,Bool.false_eq_true]
              exact ⟨rfl,rfl,fun _ => done⟩
            · refine holdsMono (fun u x h => ⟨true,false,h⟩) (refusedPatch (w := w) ?_)
              simp [ProbeLifecycle.archInstallJump]

theorem uninstallPatched (o : ProbeLifecycle.Outcome) (s : ThreadControl.Session)
    (text : m.text = w.text) :
    Holds Moves Serves (fun u x => ∃ safe restore,
      Patched (ProbeLifecycle.uninstallProbePatch w id { o with safe := safe, restore := restore })
        u x)
      (uninstallProbePatch w.session s id) m := by
  unfold uninstallProbePatch ProbeLifecycle.uninstallProbePatch
  cases found : probeFindById w.session id with
  | none => exact holdsMono (fun u x h => ⟨true,true,h⟩) (refusedPatch (w := w) rfl)
  | some i =>
    dsimp only
    split
    · exact holdsMono (fun u x h => ⟨true,true,h⟩) (refusedPatch (w := w) rfl)
    · refine holdsThen (checkKeepsText _ s text) fun u checked same => ?_
      obtain ⟨s',safe⟩ := checked
      cases safe with
      | false =>
        rw [if_pos rfl]
        exact holdsMono (fun u x h => ⟨false,true,h⟩) (refusedPatch (w := w) rfl)
      | true =>
        rw [if_neg (by simp)]
        refine writeHolds same (fun u done => ?_) fun u => ?_
        · exact holdsDone (textStable _) done fun u done => ⟨true,true,rfl,rfl,fun _ => done⟩
        · exact holdsMono (fun u x h => ⟨true,false,h⟩) (refusedPatch (w := w) rfl)

end Operations

/-! The check before a patch, and the patches. -/
section Patches
variable {table : ProbeTable.Session} {s s' : ThreadControl.Session} {m m' w : Machine}

/- A region that neither contains zero nor reaches the end of the address space. -/
def InPatch (table : ProbeTable.Session) (pc : UInt64) : Prop :=
  ∃ i, (table.probes i).probeId ≠ 0 ∧ 0 < (table.probes i).origLen ∧
    0 < (table.probes i).target.remoteAddr ∧
    (table.probes i).target.remoteAddr + (table.probes i).origLen < UInt64.size ∧
    ByteMemory.Inside (table.probes i).target.remoteAddr (table.probes i).origLen pc.toNat

structure Ensured (table : ProbeTable.Session) (s : ThreadControl.Session) (m : Machine)
    (s' : ThreadControl.Session) (m' : Machine) : Prop where
  outside : ∀ th ∈ s'.threads, th.stopped = true → Halted th.tid m' ∧ ¬ InPatch table (m'.pc th.tid)
  stepped : ∀ t, steps t m' ≤ steps t m + 8
  compacted : ∃ swept, s'.threads = compactInPlace swept ∧ s'.threads = swept.filter live ∧
    List.Forall₂ (fun th th' => th'.tid = th.tid ∨ th'.tid = 0 ∧ (Halted th.tid m → Gone th.tid m'))
      s.threads swept

theorem patchFound {pc : UInt64} (within : InPatch table pc) : pcIsInsidePatchRegion table pc =
    true := by
  obtain ⟨i,registered,some_,positive,bounded,low,high⟩ := within
  have start : (UInt64.ofNat (table.probes i).target.remoteAddr).toNat =
      (table.probes i).target.remoteAddr := by
    simp only [UInt64.size] at bounded
    simp only [UInt64.toNat_ofNat']
    omega
  have end_ : (UInt64.ofNat (table.probes i).target.remoteAddr +
      UInt64.ofNat (table.probes i).origLen).toNat =
      (table.probes i).target.remoteAddr + (table.probes i).origLen := by
    simp only [UInt64.size] at bounded
    simp only [UInt64.toNat_add,UInt64.toNat_ofNat']
    omega
  have nonzero : pc ≠ 0 := by
    rintro rfl
    have : (0 : UInt64).toNat = 0 := rfl
    omega
  simp only [pcIsInsidePatchRegion,Bool.and_eq_true,bne_iff_ne,List.any_eq_true,decide_eq_true_eq]
  refine ⟨nonzero,i,List.mem_finRange i,⟨⟨registered,by omega⟩,?_⟩,?_⟩
  · rw [UInt64.le_iff_toNat_le,start]
    exact low
  · rw [UInt64.lt_iff_toNat_lt,end_]
    exact high

theorem regionOutside {pc : UInt64} (outside : insideRegion table pc.toNat = false) :
    ¬ InPatch table pc := by
  intro within
  rw [insideRegion,UInt64.ofNat_toNat,patchFound within] at outside
  cases outside

theorem fateOf {list list' : List Thread} {R : Thread → Thread → Prop}
    (all : List.Forall₂ R list list') {th' : Thread} (member : th' ∈ list') :
    ∃ th, R th th' := by
  induction all with
  | nil => cases member
  | @cons th _ _ _ first _ ih =>
    rcases List.mem_cons.mp member with rfl | late
    · exact ⟨th,first⟩
    · exact ih late

theorem ensureSpends (inside : Nat → Bool) (s : ThreadControl.Session) (t : Nat) :
    Holds Moves Served (fun u x => Within inside (steps t m) t u x.2)
      (ensurePatchRegionsAreSafe inside s) m := by
  have start : Spent inside (steps t m) t m :=
    ⟨Nat.le_add_right _ _,fun bad => absurd bad (Nat.lt_irrefl _)⟩
  unfold ensurePatchRegionsAreSafe
  split
  · exact withinDone ⟨start.budget,fun bad => by cases bad⟩
  · refine holdsThen (eachSpends s.threads start) fun u x within => ?_
    obtain ⟨threads,ok⟩ := x
    cases ok with
    | false => exact withinDone within
    | true => exact withinDone within

theorem ensureFates (inside : Nat → Bool) (s : ThreadControl.Session) : Holds Moves Served
    (fun u x => x.2 = true → ∃ swept,
      x.1.threads = (compactThreads ⟨s.pid,swept,s.threadsStopped,s.targetExited⟩).threads ∧
      List.Forall₂ (fun th th' => Fate inside m th th' u) s.threads swept)
        (ensurePatchRegionsAreSafe inside s) m := by
  unfold ensurePatchRegionsAreSafe
  split
  · exact holdsAnyway fun _ bad => by cases bad
  · refine holdsThen (eachFates s.threads fun t h => h) fun u x fates => ?_
    obtain ⟨threads,ok⟩ := x
    cases ok with
    | false => exact holdsAnyway fun _ bad => by cases bad
    | true => exact holdsDone (fatesStable _ _) (fates rfl) fun u fates _ => ⟨threads,rfl,fates⟩

theorem ensuredAfter
    (run : Runs Moves Served (ensurePatchRegionsAreSafe (insideRegion table) s) m (s',true) m') :
    Ensured table s m s' m' := by
  obtain ⟨swept,compact,fates⟩ := holdsRuns run (ensureFates (insideRegion table) s) rfl
  have filtered : s'.threads = swept.filter live := compact
  refine ⟨fun th member marked => ?_,
    fun t => (holdsRuns run (ensureSpends (insideRegion table) s t)).1,swept,?_,filtered,?_⟩
  · rw [filtered] at member
    obtain ⟨old,fate⟩ := fateOf fates (List.mem_of_mem_filter member)
    have nonzero : th.tid ≠ 0 := by simpa [live] using List.of_mem_filter member
    rcases fate with ⟨tid,settled⟩ | ⟨cleared,_⟩
    · have settled := settled (tid ▸ nonzero) marked
      rw [tid]
      exact ⟨finishedHalted (settledFinished settled),regionOutside (settledOutside settled)⟩
    · exact absurd cleared nonzero
  · rw [compact]
    exact (compactedInPlace ⟨s.pid,swept,s.threadsStopped,s.targetExited⟩).symm
  · exact fates.imp fun th th' fate => fate.imp And.left id

theorem writtenAfter {α : Type} {f : ThreadControl.Session × Bool → Patcher α} {addr : Nat}
    {bytes : List UInt8}
    (failed : ∀ s' c u w, ¬ Asks Moves Serves (f (s',false)) u c w)
    (last : ∀ s' u, Asks Moves Serves (f (s',true)) u (.write addr bytes) w →
      ReflTransGen Moves u w)
    (asks : Asks Moves Serves
      (through .thread (ensurePatchRegionsAreSafe (insideRegion table) s) >>= f) m
      (.write addr bytes) w) :
    ∃ s', Runs Moves Served (ensurePatchRegionsAreSafe (insideRegion table) s) m (s',true) w := by
  rcases asksThen asks with early | ⟨⟨s',ok⟩,u,run,late⟩
  · obtain ⟨c,bad⟩ := throughAsks early
    cases bad
  · cases ok with
    | false => exact absurd late (failed s' _ u w)
    | true =>
      have checked := throughRuns run
      exact ⟨s',runsLater checked (last s' u late)⟩

theorem doneAsks {α : Type} {x : α} {c : Request} {u : Machine} :
    ¬ Asks Moves Serves (pure x : Patcher α) u c w := fun asks => by cases asks

theorem askedLast {α : Type} {c c' : Request} {u : Machine} {f : Answer → Patcher α}
    (ends : ∀ v, ∃ x, f v = pure x)
    (asks : Asks Moves Serves (ask c >>= f) u c' w) : ReflTransGen Moves u w := by
  cases asks with
  | now moves => exact moves
  | @later _ _ _ _ v _ _ _ _ _ rest =>
    obtain ⟨x,same⟩ := ends v
    have rest : Asks Moves Serves (f v) _ c' w := rest
    rw [same] at rest
    exact absurd rest doneAsks

theorem installWrites {isa : Isa} {id : Nat} {trampolineAddr : UInt64} {addr : Nat}
    {bytes : List UInt8}
    (asks : Asks Moves Serves (installProbePatch isa table s id trampolineAddr) m
      (.write addr bytes) w) :
    ∃ s', Runs Moves Served (ensurePatchRegionsAreSafe (insideRegion table) s) m (s',true) w := by
  unfold installProbePatch at asks
  split at asks
  · exact absurd asks doneAsks
  · split at asks
    · exact absurd asks doneAsks
    · dsimp only at asks
      split at asks
      · exact absurd asks doneAsks
      · refine writtenAfter (fun s' c u w => ?_) (fun s' u late => ?_) asks
        · rw [if_pos (.inl rfl)]
          exact doneAsks
        · split at late
          · exact absurd late doneAsks
          · refine askedLast (fun v => ?_) late
            split
            · exact ⟨_,rfl⟩
            · exact ⟨_,rfl⟩

theorem uninstallWrites {id : Nat} {addr : Nat} {bytes : List UInt8}
    (asks : Asks Moves Serves (uninstallProbePatch table s id) m (.write addr bytes) w) :
    ∃ s', Runs Moves Served (ensurePatchRegionsAreSafe (insideRegion table) s) m (s',true) w := by
  unfold uninstallProbePatch at asks
  split at asks
  · exact absurd asks doneAsks
  · dsimp only at asks
    split at asks
    · exact absurd asks doneAsks
    · refine writtenAfter (fun s' c u w => ?_) (fun s' u late => ?_) asks
      · rw [if_pos rfl]
        exact doneAsks
      · rw [if_neg (by simp)] at late
        refine askedLast (fun v => ?_) late
        split
        · exact ⟨_,rfl⟩
        · exact ⟨_,rfl⟩

/-- Whatever the threads do and however each request turns out: a thread is stepped at most
eight times, a check that succeeds leaves every stopped thread of the table outside every patch
region and no live entry lost or doubled, and text is written in such states only. -/
theorem patchedWithoutThreads (isa : Isa) (table : ProbeTable.Session) (s : ThreadControl.Session)
    (m : Machine) :
    (∀ s' ok m', Runs Moves Served (ensurePatchRegionsAreSafe (insideRegion table) s) m (s',ok) m' →
      ∀ t, steps t m' ≤ steps t m + 8) ∧
    (∀ s' m', Runs Moves Served (ensurePatchRegionsAreSafe (insideRegion table) s) m (s',true) m' →
      Ensured table s m s' m') ∧
    (∀ id trampolineAddr addr bytes w,
      Asks Moves Serves (installProbePatch isa table s id trampolineAddr) m (.write addr bytes) w →
      ∃ s', Runs Moves Served (ensurePatchRegionsAreSafe (insideRegion table) s) m (s',true) w ∧
        Ensured table s m s' w) ∧
    ∀ id addr bytes w, Asks Moves Serves (uninstallProbePatch table s id) m (.write addr bytes) w →
      ∃ s', Runs Moves Served (ensurePatchRegionsAreSafe (insideRegion table) s) m (s',true) w ∧
        Ensured table s m s' w := by
  refine ⟨fun s' ok m' run t => (holdsRuns run (ensureSpends (insideRegion table) s t)).1,
    fun s' m' run => ensuredAfter run,?_,?_⟩
  · intro id trampolineAddr addr bytes w asks
    obtain ⟨s',run⟩ := installWrites asks
    exact ⟨s',run,ensuredAfter run⟩
  · intro id addr bytes w asks
    obtain ⟨s',run⟩ := uninstallWrites asks
    exact ⟨s',run,ensuredAfter run⟩

/- One probe of sixteen bytes, with a thread stopped in it that is out of it after one step. -/
def oneProbe : ProbeTable.Session :=
  ⟨8,1,fun i => if i.val = 0 then
    ProbeLifecycle.savedProbe (freshProbe 7 ⟨['f'],[],0x1000⟩) (fun _ => 0) 16 else .zero⟩

def oneThread : ThreadControl.Session := ⟨9,[⟨1,true,0⟩],true,false⟩

def machineAt (task : ThreadControl.Task) (log : List (Nat × Nat × Nat)) (pc : Nat → UInt64) :
    Machine := ⟨alone task log,pc,fun _ => 0⟩

def stopped : Machine := machineAt (collected .trap) [] fun _ => 0x1004

def steppedOut : Machine :=
  machineAt (collected .trap) [(1,0,0)] (Function.update (fun _ => 0x1004) 1 0x2000)

theorem looked {task : ThreadControl.Task} {log : List (Nat × Nat × Nat)} {pc : Nat → UInt64}
    {stop : Stop} (at_ : task = collected stop) :
    Served (machineAt task log pc) (.getPc 1) (.pc (pc 1).toNat) (machineAt task log pc) := by
  subst at_
  refine .thread (.pc ⟨_,_,_,rfl,rfl,rfl⟩) fun t pc' same answer => ?_
  cases same
  cases answer
  rfl

theorem servedOther {c : Call} {v : Answer} {k k' : Kernel} {pc : Nat → UInt64}
    (served : Serve k c v k') (other : ∀ t, c ≠ .getPc t) :
    Served ⟨k,pc,fun _ => 0⟩ c v ⟨k',pc,fun _ => 0⟩ :=
  .thread served fun t _ same => absurd same (other t)

theorem stepsOnce :
    Runs Moves Served (singleStepThread ⟨1,true,0⟩) stopped (⟨1,true,0⟩,true) steppedOut := by
  refine .called (servedOther aloneResumed fun _ bad => by cases bad) ?_
  refine .moved (@Moves.runs _ 1 _ 0x2000 rfl rfl) ?_
  refine .moved (.threads (aloneStops .trap)) ?_
  refine .called (servedOther (aloneCollected (.inl rfl)) fun _ bad => by cases bad) ?_
  exact .done

theorem stepsOut :
    Runs Moves Served (ensurePatchRegionsAreSafe (insideRegion oneProbe) oneThread) stopped
    (oneThread,true) steppedOut := by
  have inside : insideRegion oneProbe 0x1004 = true := by decide
  have outside : insideRegion oneProbe 0x2000 = false := by decide
  have looksAgain : Runs Moves Served (stepOut (insideRegion oneProbe) 7 ⟨1,true,0⟩) steppedOut
      (⟨1,true,0⟩,true) steppedOut := by
    refine runsBind.mpr ⟨.pc 0x2000,steppedOut,.called (looked rfl) .done,?_⟩
    dsimp only
    rw [outside]
    exact .done
  have leaves : Runs Moves Served (stepOut (insideRegion oneProbe) 8 ⟨1,true,0⟩) stopped
      (⟨1,true,0⟩,true) steppedOut := by
    refine runsBind.mpr ⟨.pc 0x1004,stopped,.called (looked rfl) .done,?_⟩
    dsimp only
    rw [inside]
    exact runsBind.mpr ⟨_,_,stepsOnce,looksAgain⟩
  have safe : Runs Moves Served (makeThreadSafe (insideRegion oneProbe) ⟨1,true,0⟩) stopped
      (⟨1,true,0⟩,true) steppedOut := by
    refine runsBind.mpr ⟨_,_,leaves,
      runsBind.mpr ⟨.pc 0x2000,steppedOut,.called (looked rfl) .done,?_⟩⟩
    dsimp only
    rw [outside]
    exact .done
  exact runsBind.mpr ⟨([⟨1,true,0⟩],true),_,runsBind.mpr ⟨_,_,safe,.done⟩,.done⟩

theorem stepsOutEnsured : steps 1 steppedOut = steps 1 stopped + 1 ∧
    Ensured oneProbe oneThread stopped oneThread steppedOut :=
  ⟨by decide,(patchedWithoutThreads .x86_64 oneProbe oneThread stopped).2.1 _ _ stepsOut⟩

end Patches
end ZeroTrace.PatchSafety
