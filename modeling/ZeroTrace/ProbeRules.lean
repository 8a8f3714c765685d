import ZeroTrace.ProbeInvariant

/-! What every part of an operation keeps, the operation keeps. Installs are for whoever uses
these rules: what they need of the world differs. -/
namespace ZeroTrace.ProbeRules
open PatchCode FilterSyntax ProbeTable TrampolinePool ProbeLifecycle ProbeInvariant

/- The parts but for the install. Steps that ask the target for something may be taken for
granted only as far as `good` says. -/
structure Parts (P : World → Prop) (good : Outcome → Prop) : Prop where
  status {w : World} (status : TraceStatus) : P w → P { w with status := status }
  uninstall {w : World} {o : Outcome} (id : Nat) : good o → P w → P (uninstallProbePatch w id o).1
  clear {w : World} {i : Fin 32} : (w.probe i).live → P w →
    P (w.setProbe i (clearedAction (w.probe i)))
  release {w : World} {o : Outcome} {i : Fin 32} : good o → (w.probe i).live → P w →
    P (releaseSlot w i o)
  unregister {w : World} (id : Nat) : P w → P (unregister w id).1
  cleanup {w : World} (o : Outcome) : P w → P { w with runtime := (cleanupRuntime w.runtime o).1 }
  reset {w : World} : P w → P (resetActive w)

variable {P : World → Prop} {good : Outcome → Prop} {isa : Isa} {disasm : Disassembler} {w : World}
    {o : Outcome} {i : Fin 32}
  {each : Fin 32 → Outcome}

theorem uninstallIds (w : World) (id : Nat) (o : Outcome) (j : Fin 32) :
    ((uninstallProbePatch w id o).1.probe j).probeId = (w.probe j).probeId := by
  unfold uninstallProbePatch
  split
  · rfl
  · next i _ =>
    dsimp only
    split
    · rfl
    · split
      · rfl
      · split
        · rfl
        · by_cases here : j = i
          · subst here
            simp [World.setProbe,World.probe]
          · simp [World.setProbe,World.probe,here]

theorem clearedId (p : Probe) : (clearedAction p).probeId = p.probeId := by
  unfold clearedAction
  split <;> rfl

theorem stopQuiet : (ensureStopped w o).1.session = w.session ∧
    (ensureStopped w o).1.text = w.text ∧
    (ensureStopped w o).1.prepared = w.prepared := by
  unfold ensureStopped
  split
  · exact ⟨rfl,rfl,rfl⟩
  · exact ⟨rfl,rfl,rfl⟩
  · split <;> exact ⟨rfl,rfl,rfl⟩

theorem runQuiet : (ensureRunning w o).1.session = w.session ∧ (ensureRunning w o).1.text = w.text ∧
    (ensureRunning w o).1.prepared = w.prepared := by
  unfold ensureRunning
  split
  · exact ⟨rfl,rfl,rfl⟩
  · exact ⟨rfl,rfl,rfl⟩
  · split <;> exact ⟨rfl,rfl,rfl⟩

theorem stoppedKept (parts : Parts P good) (h : P w) : P (ensureStopped w o).1 := by
  unfold ensureStopped
  split
  · exact h
  · exact h
  · split
    · exact parts.status .stopped h
    · exact h

theorem runningKept (parts : Parts P good) (h : P w) : P (ensureRunning w o).1 := by
  unfold ensureRunning
  split
  · exact h
  · exact h
  · split
    · exact parts.status .running h
    · exact h

theorem undoneKept {id : Nat} (parts : Parts P good) (ok : good o) (h : P w) :
    P (if (w.session.probes i).state = .installed then uninstallProbePatch w id o else (w,true)).1 ∧
      ∀ j, ((if (w.session.probes i).state = .installed then
        uninstallProbePatch w id o else (w,true)).1.probe j).probeId = (w.probe j).probeId := by
  split
  · exact ⟨parts.uninstall id ok h,uninstallIds w id o⟩
  · exact ⟨h,fun _ => rfl⟩

theorem stopProbeKept (parts : Parts P good) (ok : good o) (h : P w) : P (stopProbe w i o).1 := by
  unfold stopProbe
  dsimp only
  split
  · exact h
  · next live =>
    have undone := @undoneKept P good w o i (w.session.probes i).probeId parts ok h
    generalize (if (w.session.probes i).state = .installed then
      uninstallProbePatch w (w.session.probes i).probeId o else (w,true)) = r at undone ⊢
    exact parts.unregister _
      (parts.release ok (by rw [Probe.live]; exact (undone.2 i).trans_ne live) undone.1)

theorem stopProbesKept (parts : Parts P good) (ok : ∀ j, good (each j)) (l : List (Fin 32))
    (h : P w) : P (stopProbes w each l).1 := by
  induction l generalizing w with
  | nil => exact h
  | cons j l ih => exact ih (stopProbeKept parts (ok j) h)

theorem traceStopKept (parts : Parts P good) (ok : ∀ j, good (each j)) (h : P w) :
    P (traceStop w o each).1 := by
  unfold traceStop
  split
  · exact h
  · have stopped := @stoppedKept P good w o parts h
    generalize ensureStopped w o = r at stopped ⊢
    obtain ⟨w',done⟩ := r
    cases done with
    | false => exact stopped
    | true => exact parts.reset (parts.cleanup o
        (stopProbesKept parts ok (List.finRange 32) stopped))

theorem installActiveKept {name : Name} {filter : Option ProbeFilter} (parts : Parts P good)
    (h : P w)
    (installed : P (installProbe isa disasm (ensureStopped w o).1 name filter o).1) :
    P (installActiveProbe isa disasm w name filter o).1 := by
  have stopped := @stoppedKept P good w o parts h
  unfold installActiveProbe
  generalize ensureStopped w o = r at stopped installed ⊢
  obtain ⟨w',ok⟩ := r
  cases ok with
  | false => exact stopped
  | true =>
    dsimp only at installed ⊢
    generalize installProbe isa disasm w' name filter o = r at installed ⊢
    obtain ⟨w'',done⟩ := r
    cases done with
    | false => exact installed
    | true => exact runningKept parts installed

theorem startKept {name : Name} {filter : Option ProbeFilter} (parts : Parts P good)
    (ok : ∀ j, good (each j)) (h : P w)
    (active : P (installProbe isa disasm (ensureStopped w o).1 name filter o).1)
    (opened : w.status = .inactive →
      P { resetActive w with runtime := { o.setup with pool := .zero } })
    (first : w.status = .inactive →
      P (installProbe isa disasm { resetActive w with runtime := { o.setup with pool := .zero } }
        name filter o).1) :
    P (traceStart isa disasm w name filter o each).1 := by
  unfold traceStart
  split
  · exact installActiveKept parts h active
  · next idle =>
    have first := first (not_not.mp idle)
    split
    · exact h
    · dsimp only
      split
      · exact parts.cleanup o (opened (not_not.mp idle))
      · generalize installProbe isa disasm _ name filter o = r at first ⊢
        obtain ⟨w',done⟩ := r
        cases done with
        | false => exact parts.cleanup o first
        | true =>
          have running := @runningKept P good _ o parts (parts.status .stopped first)
          dsimp only at running ⊢
          generalize ensureRunning { w' with status := .stopped } o = r at running ⊢
          obtain ⟨w'',resumed⟩ := r
          cases resumed with
          | true => exact running
          | false => exact traceStopKept parts ok running

theorem enableKept {id : Nat} (parts : Parts P good) (h : P w)
    (installs : ∀ name filter, P (installProbe isa disasm (ensureStopped w o).1 name filter o).1) :
    P (traceEnableProbe isa disasm w id o).1 := by
  unfold traceEnableProbe
  split
  · exact h
  · split
    · exact h
    · dsimp only
      split
      · exact h
      · exact installActiveKept parts h (installs _ _)

/-! Operations that take a patch back. -/
theorem disableKept {id : Nat} (parts : Parts P good) (ok : good o) (h : P w) :
    P (traceDisableProbe w id o).1 := by
  unfold traceDisableProbe
  split
  · exact h
  · split
    · exact h
    · split
      · exact h
      · have stopped := @stoppedKept P good w o parts h
        generalize ensureStopped w o = r at stopped ⊢
        obtain ⟨w',done⟩ := r
        cases done with
        | false => exact stopped
        | true =>
          have undone := parts.uninstall id ok stopped
          dsimp only at undone ⊢
          generalize uninstallProbePatch w' id o = r at undone ⊢
          obtain ⟨w'',done⟩ := r
          cases done with
          | false => exact undone
          | true => exact runningKept parts undone

theorem retiredKept (parts : Parts P good) (ok : good o) (live : (w.probe i).live) (id : Nat)
    (h : P w) :
    P (unregister (releaseSlot (w.setProbe i (clearedAction (w.probe i))) i o) id).1 := by
  have live' : ((w.setProbe i (clearedAction (w.probe i))).probe i).live := by
    simp only [World.setProbe,World.probe,setSame,Probe.live,clearedId]
    exact live
  exact parts.unregister id (parts.release ok live' (parts.clear live h))

theorem removeKept {id : Nat} (parts : Parts P good) (ok : good o) (h : P w) :
    P (traceRemoveProbe w id o).1 := by
  unfold traceRemoveProbe
  split
  · exact h
  · split
    · exact h
    · next i found =>
      obtain ⟨nonzero,mine⟩ := findByIdSome found
      split
      · exact parts.unregister id h
      · have stopped := @stoppedKept P good w o parts h
        have session := (@stopQuiet w o).1
        generalize ensureStopped w o = r at stopped session ⊢
        obtain ⟨w',done⟩ := r
        cases done with
        | false => exact stopped
        | true =>
          have undone := @undoneKept P good w' o i id parts ok stopped
          dsimp only at session ⊢
          generalize (if (w'.session.probes i).state = .installed then
            uninstallProbePatch w' id o else (w',true)) = r at undone ⊢
          obtain ⟨w'',done⟩ := r
          cases done with
          | false => exact undone.1
          | true =>
            have live : (w''.probe i).live := by
              rw [Probe.live,undone.2 i,World.probe,session]
              exact mine.trans_ne nonzero
            have retired := retiredKept parts ok live id undone.1
            dsimp only
            generalize unregister
              (releaseSlot (w''.setProbe i (clearedAction (w''.session.probes i))) i o) id =
              r at retired ⊢
            obtain ⟨last,gone⟩ := r
            cases gone with
            | false => exact retired
            | true =>
              dsimp only
              split
              · exact parts.reset (parts.cleanup o retired)
              · exact runningKept parts retired

theorem opKept {op : Op} (parts : Parts P good) (ok : good o) (all : ∀ j, good (each j)) (h : P w)
    (installs : ∀ name filter, P (installProbe isa disasm (ensureStopped w o).1 name filter o).1)
    (opened : w.status = .inactive →
      P { resetActive w with runtime := { o.setup with pool := .zero } })
    (first : w.status = .inactive → ∀ name filter,
      P (installProbe isa disasm { resetActive w with runtime := { o.setup with pool := .zero } }
        name filter o).1) :
    P (runOp isa disasm w op o each).1 := by
  cases op with
  | start name filter =>
      exact startKept parts all h (installs name filter) opened fun idle => first idle name filter
  | enable id => exact enableKept parts h installs
  | disable id => exact disableKept parts ok h
  | remove id => exact removeKept parts ok h
  | shutdown =>
    simp only [runOp,traceShutdown]
    split
    · exact h
    · exact traceStopKept parts all h

end ZeroTrace.ProbeRules
