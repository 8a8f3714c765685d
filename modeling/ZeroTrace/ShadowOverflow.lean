import ZeroTrace.ShadowStack

/-! Calls nested deeper than the array of saved frames. `save_probe_frame_c` says that it
has no room, and neither stub asks. -/
namespace ZeroTrace.ShadowOverflow
open ShadowStack

inductive Ran (start : System) : System → Prop where
  | start : Ran start start
  | step {s s' : System} {t a} (before : Ran start s) (next : step s t a = some s') : Ran start s'

def HasRoom (s : System) (t : Nat) : Step → Prop
  | .saveFrame => (s.threads t).tls.callStackIdx < maxSavedRetAddr
  | _ => True

inductive RanWithRoom (start : System) : System → Prop where
  | start : RanWithRoom start start
  | step {s s' : System} {t a} (before : RanWithRoom start s) (room : HasRoom s t a)
      (next : step s t a = some s') :
      RanWithRoom start s'

def Recorded (th : Thread) (f : Frame) : Prop :=
  ∃ k, k < th.tls.callStackIdx ∧ (th.tls.savedFrames k).retAddr = f.origin ∧
    (th.tls.savedFrames k).probeId = f.funcId

/- Every call that has returned has come back to its caller, and only calls with a frame
return through the exit stub. -/
structure Harmless (th : Thread) : Prop where
  returns : ∀ e ∈ th.exits, e.resumed = e.origin
  redirects : ∀ f ∈ th.stack, f.slot = .exitStub → Recorded th f

theorem mirrorsRecorded {saved : Nat → SavedFrame} {base stack idx f}
    (h : Mirrors saved base stack idx) (member : f ∈ stack)
    (framed : f.saved = true) : ∃ k, k < idx ∧ (saved k).retAddr = f.origin ∧
      (saved k).probeId = f.funcId := by
  induction stack generalizing idx with
  | nil => cases member
  | cons g rest ih =>
    unfold Mirrors at h
    split at h
    · obtain ⟨k,top,addr,probe,below⟩ := h
      rcases List.mem_cons.mp member with rfl | old
      · exact ⟨k,by omega,addr,probe⟩
      · obtain ⟨j,low,found⟩ := ih below old
        exact ⟨j,by omega,found⟩
    · next open_ =>
      rcases List.mem_cons.mp member with rfl | old
      · exact absurd framed open_
      · exact ih h old

theorem goodHarmless {base th} (h : Good base th) : Harmless th where
  returns e member := (h.exits e member).1
  redirects f member slot := by
    refine mirrorsRecorded h.mirrors member ?_
    cases framed : f.saved with
    | true => rfl
    | false =>
      have bad := h.slots f member framed
      rw [slot] at bad
      cases bad

theorem handledSaves {s s' : System} {t a f rest} (next : step s t a = some s') (top : (s.threads t).stack = f::rest)
    (phase : f.phase = .handled) : a = .saveFrame := by
  obtain ⟨th,events,_,_,does⟩ := stepDid next
  generalize s'.callIdSeq = seq at does
  cases does with
  | save => rfl
  | call probe ret can => rw [top] at can; simp [canCall,phase] at can
  | number top' phase' | entry top' phase' | noEntry top' phase' | noAction top' phase' | action top' phase' | acted top' phase'
    | redirect top' phase' | ret top' phase' | peek top' phase' | log top' phase' | noLog top' phase' | resume top' phase' =>
    rw [top] at top'
    cases top'
    rw [phase] at phase'
    cases phase'

theorem roomRoomy {s s' : System} {t a} (room : HasRoom s t a) (next : step s t a = some s') :
    Roomy (s.threads t) := by
  intro f rest top phase
  rw [handledSaves next top phase] at room
  exact room

theorem ranGood {start s : System} (fresh : Fresh start) (run : RanWithRoom start s) (t : Nat) :
    Good (start.threads t).tls.callStackIdx (s.threads t) := by
  induction run generalizing t with
  | start => exact freshGood fresh t
  | step before room next ih => exact stepGood ih (roomRoomy room next) next t

/-- In every run in which each frame finds room, to whatever depth the threads get: every
call returns to its own caller, and the exit stub is entered only by calls with a frame. -/
theorem overflowHarmless {start s : System} (fresh : Fresh start) (run : RanWithRoom start s)
    (t : Nat) :
    Harmless (s.threads t) := goodHarmless (ranGood fresh run t)

theorem reachedRan {start s : System} (fresh : Fresh start) (run : Reached start s) :
    RanWithRoom start s := by
  induction run with
  | start => exact .start
  | @step s s' t a before next within ih =>
    have roomy := reachedRoomy fresh before (reachedGood fresh before t)
    refine .step ih ?_ next
    cases a with
    | saveFrame =>
      obtain ⟨th,events,_,_,does⟩ := stepDid next
      generalize s'.callIdSeq = seq at does
      cases does with
      | save top phase => exact roomy _ _ top phase
    | _ => trivial

theorem interleavedHarmless : ∃ s, runSteps quiet interleaved = some s ∧ Harmless (s.threads 0) ∧
    Harmless (s.threads 1) := by
  obtain ⟨s,run⟩ : ∃ s, runSteps quiet interleaved = some s :=
    Option.isSome_iff_exists.mp (by decide +kernel)
  have fresh : Fresh quiet := fun _ => ⟨rfl,rfl⟩
  have short : 0 + ([] : List Frame).length + interleaved.length ≤ maxSavedRetAddr := by decide
  have reached := reachedRan fresh (shortReached .start (fun _ => short) run)
  exact ⟨s,run,overflowHarmless fresh reached 0,overflowHarmless fresh reached 1⟩

/-! A thread that calls a probed function from itself. -/
def oneCall (ret : Nat) : List (Nat × Step) :=
  [(0,.call 7 ret),(0,.takeCallId),(0,.logEntry false),(0,.saveFrame),(0,.redirect)]

def oneReturn : List (Nat × Step) := [(0,.ret),(0,.peekProbe),(0,.logReturn false),(0,.resume)]

theorem runRan {start s s' : System} {l : List (Nat × Step)} (before : Ran start s)
    (run : runSteps s l = some s') : Ran start s' := by
  induction l generalizing s with
  | nil => cases run; exact before
  | cons head rest ih =>
    obtain ⟨t,a⟩ := head
    obtain ⟨s1,next,later⟩ := Option.bind_eq_some_iff.mp run
    exact ih (.step before next) later

/- The thread in its n-th call, counted from one; the call from the n-th one returns to n. -/
structure Deep (n : Nat) (th : Thread) : Prop where
  top : ∃ f rest, th.stack = f::rest ∧ f.phase = .running ∧ f.slot = .exitStub ∧ f.origin = n
  saved : th.tls.callStackIdx = min n maxSavedRetAddr
  frames : ∀ k, k < min n maxSavedRetAddr → (th.tls.savedFrames k).retAddr = k + 1
  none_ : th.exits = []

theorem deeper {s : System} {n : Nat} (can : canCall (s.threads 0).stack = true)
    (idx : (s.threads 0).tls.callStackIdx = min n maxSavedRetAddr)
    (frames : ∀ k, k < min n maxSavedRetAddr → ((s.threads 0).tls.savedFrames k).retAddr = k + 1)
    (none_ : (s.threads 0).exits = []) :
    ∃ s', runSteps s (oneCall (n + 1)) = some s' ∧ Deep (n + 1) (s'.threads 0) := by
  let id := (s.callIdSeq + 1) % 2^64
  let v := { (s.threads 0).tls with lastCallId := id }
  let th : Thread :=
    ⟨(saveProbeFrame v (n + 1) 7).1,⟨.exitStub,7,id,.running,none,n + 1⟩::(s.threads 0).stack,
    (s.threads 0).context,[]⟩
  refine ⟨⟨id,s.events,Function.update s.threads 0 th⟩,?_,?_⟩
  · simp [oneCall,runSteps,step,stepTop,can,System.set,th,v,id,none_]
  · have here : (⟨id,s.events,Function.update s.threads 0 th⟩ : System).threads 0 = th := by simp
    rw [here]
    refine ⟨⟨_,_,rfl,rfl,rfl,rfl⟩,?_,?_,rfl⟩
    · simp only [th,saveProbeFrame,v,idx]
      split <;> simp only [maxSavedRetAddr] at * <;> omega
    · intro k low
      simp only [th,saveProbeFrame,v,idx]
      split
      · next full => exact frames k (by omega)
      · next room =>
        by_cases last : k = min n maxSavedRetAddr
        · subst last
          simp only [Function.update_self]
          omega
        · simp only [Function.update_of_ne last]
          exact frames k (by omega)

theorem deepReached (n : Nat) : ∃ s, Ran quiet s ∧ Deep (n + 1) (s.threads 0) := by
  induction n with
  | zero =>
    obtain ⟨s,run,deep⟩ := @deeper quiet 0 rfl rfl (fun k low => absurd low (by simp)) rfl
    exact ⟨s,runRan .start run,deep⟩
  | succ n ih =>
    obtain ⟨s,ran,deep⟩ := ih
    obtain ⟨f,rest,stack,phase,_⟩ := deep.top
    obtain ⟨s',run,deep'⟩ :=
      @deeper s (n + 1) (by simp [stack,canCall,phase]) deep.saved deep.frames deep.none_
    exact ⟨s',runRan ran run,deep'⟩

/- The call number 257 has no frame, and returns to where number 256 was called. -/
theorem deepCallMisreturns :
    ∃ s, Ran quiet s ∧ (∃ e ∈ (s.threads 0).exits, e.origin = 257 ∧ e.resumed = 256) ∧
    ¬ Harmless (s.threads 0) := by
  obtain ⟨s,ran,deep⟩ := deepReached maxSavedRetAddr
  obtain ⟨f,rest,stack,phase,slot,origin⟩ := deep.top
  have idx : (s.threads 0).tls.callStackIdx = 256 := deep.saved
  have last : ((s.threads 0).tls.savedFrames 255).retAddr = 256 := deep.frames 255 (by decide)
  have back : (getRetAddr (s.threads 0).tls).2 = 256 := by simp [getRetAddr,idx,last]
  obtain ⟨s',run,exits⟩ : ∃ s', runSteps s oneReturn = some s' ∧
      (s'.threads 0).exits =
        [⟨f.origin,f.funcId,f.callId,(getRetAddr (s.threads 0).tls).2,f.recorded⟩] := by
    refine ⟨_,by simp only [oneReturn,runSteps,step,stack,stepTop,phase,slot,System.set]; simp; rfl,
      ?_⟩
    simp [deep.none_]
  rw [origin,back] at exits
  have member : ⟨257,f.funcId,f.callId,256,f.recorded⟩ ∈ (s'.threads 0).exits := by
    rw [exits]; exact List.mem_singleton_self _
  refine ⟨s',runRan ran run,⟨_,member,rfl,rfl⟩,fun harmless => ?_⟩
  have bad := harmless.returns _ member
  cases bad

end ZeroTrace.ShadowOverflow
