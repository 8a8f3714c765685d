import ZeroTrace.ProbeOps
import ZeroTrace.ProbeRules

/-! Runs of operations. Between two operations the tables and the text agree, whatever
steps failed, as long as no patch is left behind when the trace is stopped. -/
namespace ZeroTrace.ProbeRuns
open ByteMemory PatchCode FilterSyntax ProbeTable TrampolinePool ProbeLifecycle ProbeInvariant
  ProbeSteps ProbeOps ProbeRules

variable {isa : Isa} {disasm : Disassembler} {original : Memory} {w : World} {o : Outcome}
    {i : Fin 32}
  {known : Name → Nat → Prop} {each : Fin 32 → Outcome}

theorem statusSettled {status} (h : Settled isa original known w) (active : status ≠ .inactive) :
    Settled isa original known { w with status := status } :=
  ⟨⟨h.sound.entries,
    ⟨h.sound.texts.saved,h.sound.texts.patched,h.sound.texts.kept,h.sound.texts.spaced⟩,
    h.sound.slots.owned,h.sound.slots.alone⟩,
    h.rest,fun bad => absurd bad active⟩

theorem emptySettled {w' : World} (h : Sound isa original w) (none_ : ∀ j, ¬ (w.probe j).live)
    (session : w'.session = w.session) (text : w'.text = w.text)
    (prepared : w'.prepared = w.prepared) :
    Settled isa original known w' := by
  have probe : ∀ j, w'.probe j = w.probe j := fun j => by rw [World.probe,session]
  have gone : ∀ j, ¬ (w'.probe j).live := fun j => by rw [probe]; exact none_ j
  have texts : Texts isa original w' := by
    refine textsQuiet h.texts text (fun r member => prepared ▸ member) (fun j => by rw [probe])
      (fun j now => ?_)
      fun j live => absurd live (gone j)
    exact absurd now.1 (none_ j)
  exact ⟨⟨session ▸ h.entries,texts,fun j live => absurd live (gone j),
    fun j _ _ live => absurd live (gone j)⟩,
    fun j live => absurd live (gone j),fun _ => gone⟩

theorem stopSettled (h : Settled isa original known w) :
    Settled isa original known (ensureStopped w o).1 := by
  unfold ensureStopped
  split
  · exact h
  · exact h
  · split
    · exact statusSettled h (by decide)
    · exact h

theorem runSettled (h : Settled isa original known w) :
    Settled isa original known (ensureRunning w o).1 := by
  unfold ensureRunning
  split
  · exact h
  · exact h
  · split
    · exact statusSettled h (by decide)
    · exact h

theorem stoppedActive (ok : (ensureStopped w o).2 = true) : (ensureStopped w o).1.status =
    .stopped := by
  unfold ensureStopped at ok ⊢
  split at ok
  · cases ok
  · assumption
  · split at ok
    · next yes => rw [if_pos yes]
    · cases ok

theorem uninstallRest (h : AllRest original known w) (now : (w.probe i).installed) :
    AllRest original known (unpatchedWorld w i) := by
  have here := unpatchedHere w i
  obtain ⟨_,looked,listed⟩ := h i now.1
  refine restOnly h (onlyUpdate rfl rfl) (fun r member => member) fun _ => ?_
  rw [here]
  exact ⟨by simp,looked,listed⟩

theorem releaseRest (h : Sound isa original w) (rest : AllRest original known w)
    (live : (w.probe i).live) :
    AllRest original known (releaseSlot w i o) := by
  rcases @releaseCases w o i h.slots live with ⟨_,same⟩ | ⟨s,pool,_,changed,_⟩
  · rw [same]; exact rest
  · rw [changed]
    have here := setProbeHere (w.setPool pool) i (clearProbeSlot (w.probe i))
    obtain ⟨calm,looked,listed⟩ := rest i live
    refine restOnly rest (onlyUpdate rfl rfl) (fun r member => member) fun _ => ?_
    rw [here]
    exact ⟨calm,looked,listed⟩

theorem forgetRest
    (rest : AllRest original known w) : AllRest original known (forgottenWorld w i) := by
  refine restOnly rest (onlyUpdate rfl rfl) (fun r member => member) fun now => ?_
  simp [forgottenWorld,World.probe,Probe.live,Probe.zero] at now

theorem retireSound (h : Sound isa original w) (rest : AllRest original known w)
    (live : (w.probe i).live)
    (idle : (w.probe i).state ≠ .installed) :
    ∃ w', unregister (releaseSlot w i o) (w.probe i).probeId = (w',true) ∧ Sound isa original w' ∧
      AllRest original known w' ∧
      Only i w w' ∧ ¬ (w'.probe i).live ∧ w'.prepared = w.prepared := by
  obtain ⟨id,_,state⟩ := @releaseProbe w o i h.slots live
  have sound := @releaseSound isa original w o i h live idle
  have alive : ((releaseSlot w i o).probe i).live := by rw [Probe.live,id]; exact live
  refine ⟨forgottenWorld (releaseSlot w i o) i,by rw [← id]; exact unregisterIt sound.entries alive,
    unregisterSound sound alive (state.trans_ne idle),forgetRest (releaseRest h rest live),
    onlyTrans releaseOnly (onlyUpdate rfl rfl),?_,rfl⟩
  simp [forgottenWorld,World.probe,Probe.live,Probe.zero]

def Clean (each : Fin 32 → Outcome) : Prop := ∀ i, (each i).safe = true ∧ (each i).restore = true

theorem stopProbeSound (h : Sound isa original w) (rest : AllRest original known w)
    (clean : o.safe = true ∧ o.restore = true) :
    Sound isa original (stopProbe w i o).1 ∧ AllRest original known (stopProbe w i o).1 ∧
      Only i w (stopProbe w i o).1 ∧
      ¬ ((stopProbe w i o).1.probe i).live ∧ (stopProbe w i o).1.prepared = w.prepared := by
  unfold stopProbe
  dsimp only
  by_cases live : (w.probe i).live
  · rw [if_neg live]
    by_cases installed : (w.probe i).state = .installed
    · rw [if_pos installed]
      rcases uninstallCases h ⟨live,installed⟩ with ⟨bad,_⟩ | done
      · exact absurd clean bad
      · rw [done]
        have here := unpatchedHere w i
        have sound := uninstallSound h ⟨live,installed⟩
        have first : Only i w (unpatchedWorld w i) := onlyUpdate rfl rfl
        have retired := @retireSound isa original (unpatchedWorld w i) o i known sound
          (uninstallRest rest ⟨live,installed⟩) (by rw [here]; exact live) (by rw [here]; simp)
        rw [here] at retired
        obtain ⟨w',gone,sound',rest',only,dead,same⟩ := retired
        rw [show unregister _ (w.session.probes i).probeId = _ from gone]
        exact ⟨sound',rest',onlyTrans first only,dead,same⟩
    · rw [if_neg installed]
      obtain ⟨w',gone,sound',rest',only,dead,same⟩ :=
        @retireSound isa original w o i known h rest live installed
      rw [show unregister _ (w.session.probes i).probeId = _ from gone]
      exact ⟨sound',rest',only,dead,same⟩
  · rw [if_pos (not_not.mp live)]
    exact ⟨h,rest,onlyRefl,live,rfl⟩

theorem stopProbesSound (clean : Clean each) (l : List (Fin 32)) (h : Sound isa original w)
    (rest : AllRest original known w) :
    Sound isa original (stopProbes w each l).1 ∧ (stopProbes w each l).1.prepared = w.prepared ∧
      (∀ j, ((stopProbes w each l).1.probe j).live → (w.probe j).live ∧ j ∉ l) := by
  induction l generalizing w with
  | nil => exact ⟨h,rfl,fun j live => ⟨live,by simp⟩⟩
  | cons i l ih =>
    obtain ⟨sound,rested,only,dead,same⟩ :=
      @stopProbeSound isa original w (each i) i known h rest (clean i)
    obtain ⟨sound',same',fewer⟩ := ih sound rested
    refine ⟨sound',same'.trans same,fun j live => ?_⟩
    obtain ⟨before,out⟩ := fewer j live
    have other : j ≠ i := fun eq => dead (eq ▸ before)
    rw [only.others j other] at before
    exact ⟨before,by simp [other,out]⟩

theorem uninstallPrepared (w id o) : (uninstallProbePatch w id o).1.prepared = w.prepared := by
  unfold uninstallProbePatch
  split
  · rfl
  · dsimp only
    split
    · rfl
    · split
      · rfl
      · split <;> rfl

theorem preparedParts (regions : List Region) : Parts (fun w => w.prepared = regions) fun _ =>
    True where
  status _ same := same
  uninstall id _ same := (uninstallPrepared _ id _).trans same
  clear _ same := same
  release _ _ same := same
  unregister _ same := same
  cleanup _ same := same
  reset same := same

theorem traceStopPrepared (w o each) : (traceStop w o each).1.prepared = w.prepared :=
  traceStopKept (preparedParts w.prepared) (fun _ => trivial) rfl

theorem disableKeeps (w id o) : (traceDisableProbe w id o).1.prepared = w.prepared :=
  disableKept (preparedParts w.prepared) trivial rfl

theorem removeKeeps (w id o) : (traceRemoveProbe w id o).1.prepared = w.prepared :=
  removeKept (preparedParts w.prepared) trivial rfl

theorem traceStopSettled (clean : Clean each) (h : Settled isa original known w) :
    Settled isa original known (traceStop w o each).1 := by
  unfold traceStop
  split
  · exact h
  · have stopped := @stopSettled isa original w o known h
    have quiet := @stopQuiet w o
    cases ensured : ensureStopped w o with
    | mk w' ok =>
      rw [ensured] at stopped quiet
      cases ok with
      | false => exact stopped
      | true =>
        obtain ⟨sound,same,fewer⟩ :=
          stopProbesSound clean (List.finRange 32) stopped.sound stopped.rest
        have none_ := fun j live => (fewer j live).2 (List.mem_finRange j)
        dsimp only
        generalize stopProbes w' each (List.finRange 32) = r at sound same none_ ⊢
        exact emptySettled sound none_ rfl rfl rfl

theorem grownSame {w' : World} {rs} (h : Grown isa disasm known w' o rs)
    (session : w'.session = w.session)
    (text : w'.text = w.text)
    (prepared : w'.prepared = w.prepared) : Grown isa disasm known w o rs := by
  cases h with
  | same => rw [prepared]; exact .same
  | more measured =>
    rw [prepared]
    obtain ⟨looked,span,fits,own⟩ := measured
    simp only [World.probe,session] at own
    exact .more ⟨looked,text ▸ span,fits,own⟩

theorem roomSame {w' : World} {after} (session : w'.session = w.session)
    (prepared : w'.prepared = w.prepared)
    (room : Room w after) : Room w' after := by
  intro q same j
  rw [World.probe,session]
  exact room q (prepared ▸ same) j

theorem calmOf (h : AllRest original known w) : ∀ j, (w.probe j).live →
    (w.probe j).state ≠ .prepared :=
  fun j live => (h j live).calm

theorem installActiveSettled {name} (filter : Option ProbeFilter) (h : Settled isa original known w)
    (look : Looks known w name o) :
    Grown isa disasm known w o (installActiveProbe isa disasm w name filter o).1.prepared ∧
      (Room w (installActiveProbe isa disasm w name filter o).1.prepared →
        Settled isa original known (installActiveProbe isa disasm w name filter o).1) := by
  have stopped := @stopSettled isa original w o known h
  have quiet := @stopQuiet w o
  have active := @stoppedActive w o
  unfold installActiveProbe
  cases ensured : ensureStopped w o with
  | mk w' ok =>
    rw [ensured] at stopped quiet active
    cases ok with
    | false => exact ⟨quiet.2.2 ▸ .same,fun _ => stopped⟩
    | true =>
      have status := active rfl
      have look' : Looks known w' name o := fun absent => look (by rw [← quiet.1]; exact absent)
      have got := @tracing isa disasm original w' o stopped.sound (calmOf stopped.rest) name filter
      have grown := grownSame (tracingPrepared stopped.sound stopped.rest look' got) quiet.1
          quiet.2.1 quiet.2.2
      have settles := tracingSettles stopped.sound stopped.rest look' got
      dsimp only
      cases done : installProbe isa disasm w' name filter o with
      | mk w'' ok =>
        rw [done] at grown settles
        have settled : Room w w''.prepared → Settled isa original known w'' := by
          intro room
          obtain ⟨sound,rest,same,_⟩ := settles (roomSame quiet.1 quiet.2.2 room)
          refine ⟨sound,rest,fun bad => ?_⟩
          rw [same,status] at bad
          cases bad
        cases ok with
        | false => exact ⟨grown,settled⟩
        | true =>
          have last := @runQuiet w'' o
          refine ⟨by rw [last.2.2]; exact grown,fun room => runSettled (settled ?_)⟩
          rw [← last.2.2]
          exact room

def openedWorld (w : World) (setup : Runtime) : World :=
  { resetActive w with runtime := { setup with pool := .zero } }

theorem startSettled {name} (filter : Option ProbeFilter) (h : Settled isa original known w)
    (look : Looks known w name o)
    (stops : o.resume = false → Clean each) :
    Grown isa disasm known w o (traceStart isa disasm w name filter o each).1.prepared ∧
      (Room w (traceStart isa disasm w name filter o each).1.prepared →
        Settled isa original known (traceStart isa disasm w name filter o each).1) := by
  unfold traceStart
  by_cases inactive : w.status = .inactive
  · have none_ := h.closed inactive
    rw [if_neg (not_not.mpr inactive)]
    split
    · exact ⟨.same,fun _ => h⟩
    · have fresh : Settled isa original known (openedWorld w o.setup) :=
        emptySettled h.sound none_ rfl rfl rfl
      have got := @tracing isa disasm original _ o fresh.sound (calmOf fresh.rest) name filter
      have grown : Grown isa disasm known w o
          (installProbe isa disasm (openedWorld w o.setup) name filter o).1.prepared :=
        grownSame (tracingPrepared fresh.sound fresh.rest look got) rfl rfl rfl
      have settles := tracingSettles fresh.sound fresh.rest look got
      split
      · exact ⟨.same,fun _ => emptySettled fresh.sound none_ rfl rfl rfl⟩
      · simp only [openedWorld] at grown settles
        dsimp only
        generalize installProbe isa disasm _ name filter o = r at grown settles ⊢
        obtain ⟨w',ok⟩ := r
        cases ok with
        | false =>
          refine ⟨grown,fun room => ?_⟩
          obtain ⟨sound,_,_,gone⟩ := settles room
          exact emptySettled sound (gone rfl none_) rfl rfl rfl
        | true =>
          dsimp only
          have settled : Room w w'.prepared → ∀ status, status ≠ .inactive →
              Settled isa original known { w' with status := status } := by
            intro room status active
            obtain ⟨sound,rest,_⟩ := settles room
            exact ⟨⟨sound.entries,
              ⟨sound.texts.saved,sound.texts.patched,sound.texts.kept,sound.texts.spaced⟩,
              sound.slots.owned,sound.slots.alone⟩,rest,fun bad => absurd bad active⟩
          cases resume : o.resume with
          | true =>
            simp only [ensureRunning,resume,if_true]
            exact ⟨grown,fun room => settled room .running (by decide)⟩
          | false =>
            simp only [ensureRunning,resume,Bool.false_eq_true,if_false]
            rw [traceStopPrepared]
            exact ⟨grown,fun room =>
              traceStopSettled (stops resume) (settled room .stopped (by decide))⟩
  · rw [if_pos inactive]
    exact installActiveSettled filter h look

theorem disableSettled {id} (h : Settled isa original known w) :
    Settled isa original known (traceDisableProbe w id o).1 := by
  unfold traceDisableProbe
  split
  · exact h
  · split
    · exact h
    · next i found =>
      obtain ⟨live,same⟩ := findByIdSome found
      split
      · exact h
      · next installed =>
        have stopped := @stopSettled isa original w o known h
        have quiet := @stopQuiet w o
        have active := @stoppedActive w o
        generalize ensureStopped w o = r at stopped quiet active ⊢
        obtain ⟨w',ok⟩ := r
        cases ok with
        | false => exact stopped
        | true =>
          have probe : w'.probe i = w.probe i := by rw [World.probe,quiet.1]
          have now : (w'.probe i).installed := by
            rw [probe]
            exact ⟨by rw [same]; exact live,not_not.mp installed⟩
          have cases_ := @uninstallCases isa original w' o i stopped.sound now
          rw [show (w'.probe i).probeId = id from (congrArg Probe.probeId probe).trans same]
            at cases_
          dsimp only
          rcases cases_ with ⟨_,failed⟩ | done
          · rw [failed]
            exact stopped
          · rw [done]
            refine runSettled ⟨uninstallSound stopped.sound now,uninstallRest stopped.rest now,
              fun bad => ?_⟩
            have status : w'.status = .inactive := bad
            rw [active rfl] at status
            cases status

theorem enableSettled {id} (h : Settled isa original known w) :
    Grown isa disasm known w o (traceEnableProbe isa disasm w id o).1.prepared ∧
      (Room w (traceEnableProbe isa disasm w id o).1.prepared →
        Settled isa original known (traceEnableProbe isa disasm w id o).1) := by
  unfold traceEnableProbe
  split
  · exact ⟨.same,fun _ => h⟩
  · split
    · exact ⟨.same,fun _ => h⟩
    · next i found =>
      obtain ⟨live,same⟩ := findByIdSome found
      dsimp only
      split
      · exact ⟨.same,fun _ => h⟩
      · refine installActiveSettled _ h fun absent => ?_
        -- The symbol comes from the table, so it is found there.
        exact absurd rfl (findBySymbolNone absent (i := i) (by rw [Probe.live,same]; exact live))

theorem noneRegistered {s : Session} (h : Entries s) (zero : s.probeCount = 0) (j : Fin 32) :
    ¬ (s.probes j).live := by
  have none_ := List.length_eq_zero_iff.mp (h.counted.symm.trans zero)
  have out := List.filter_eq_nil_iff.mp none_ j (List.mem_finRange j)
  simpa [Probe.live] using out

theorem cleared (p : Probe) : clearedAction p = { p with
    callAction := (clearedAction p).callAction, callSymbol := (clearedAction p).callSymbol } := by
  unfold clearedAction
  split <;> rfl

theorem clearSound (h : Sound isa original w) (rest : AllRest original known w)
    (live : (w.probe i).live) :
    Sound isa original (w.setProbe i (clearedAction (w.probe i))) ∧
      AllRest original known (w.setProbe i (clearedAction (w.probe i))) := by
  have same := cleared (w.probe i)
  generalize clearedAction (w.probe i) = p at same ⊢
  have here := setProbeHere w i p
  obtain ⟨calm,looked,listed⟩ := rest i live
  constructor
  · rw [same]
    exact editSound h live rfl rfl rfl ⟨rfl,rfl⟩ ⟨rfl,rfl⟩
  · refine restOnly rest (onlyUpdate rfl rfl) (fun r member => member) fun _ => ?_
    rw [here,same]
    exact ⟨calm,looked,listed⟩

theorem retireSettled (h : Sound isa original w) (rest : AllRest original known w)
    (live : (w.probe i).live)
    (idle : (w.probe i).state ≠ .installed) :
    ∃ w', unregister (releaseSlot (w.setProbe i (clearedAction (w.probe i))) i o)
      (w.probe i).probeId = (w',true) ∧
      Sound isa original w' ∧ AllRest original known w' ∧ w'.status = w.status := by
  obtain ⟨sound,rested⟩ := clearSound h rest live
  have same := cleared (w.probe i)
  have here := setProbeHere w i (clearedAction (w.probe i))
  have id : (clearedAction (w.probe i)).probeId = (w.probe i).probeId := by rw [same]
  have state : (clearedAction (w.probe i)).state = (w.probe i).state := by rw [same]
  have retired := @retireSound isa original _ o i known sound rested
    (by rw [here,Probe.live,id]; exact live) (by rw [here,state]; exact idle)
  rw [here,id] at retired
  obtain ⟨w',done,sound',rest',only,_⟩ := retired
  exact ⟨w',done,sound',rest',only.status⟩

theorem takeBack (h : Sound isa original w) (rest : AllRest original known w)
    (live : (w.probe i).live) :
    let r := if (w.probe i).state = .installed then uninstallProbePatch w (w.probe i).probeId o
      else (w,true)
    Sound isa original r.1 ∧ AllRest original known r.1 ∧ r.1.status = w.status ∧
      (r.2 = true → (r.1.probe i).probeId = (w.probe i).probeId ∧
        (r.1.probe i).state ≠ .installed) := by
  dsimp only
  split
  · next installed =>
    rcases @uninstallCases isa original w o i h ⟨live,installed⟩ with ⟨_,failed⟩ | done
    · rw [failed]
      exact ⟨h,rest,rfl,fun bad => by cases bad⟩
    · rw [done]
      have here := unpatchedHere w i
      refine ⟨uninstallSound h ⟨live,installed⟩,uninstallRest rest ⟨live,installed⟩,rfl,fun _ => ?_⟩
      rw [here]
      exact ⟨rfl,by simp⟩
  · next off => exact ⟨h,rest,rfl,fun _ => ⟨rfl,off⟩⟩

theorem removeSettled {id} (h : Settled isa original known w) :
    Settled isa original known (traceRemoveProbe w id o).1 := by
  unfold traceRemoveProbe
  split
  · exact h
  · split
    · exact h
    · next i found =>
      obtain ⟨live,same⟩ := findByIdSome found
      have alive : (w.probe i).live := by rw [Probe.live,same]; exact live
      split
      · next inactive => exact absurd alive (h.closed inactive i)
      · have stopped := @stopSettled isa original w o known h
        have quiet := @stopQuiet w o
        have active := @stoppedActive w o
        generalize ensureStopped w o = r at stopped quiet active ⊢
        obtain ⟨w',ok⟩ := r
        cases ok with
        | false => exact stopped
        | true =>
          have probe : w'.probe i = w.probe i := by rw [World.probe,quiet.1]
          have taken := @takeBack isa original w' o i known stopped.sound stopped.rest
              (by rw [probe]; exact alive)
          rw [show (w'.probe i).probeId = id from (congrArg Probe.probeId probe).trans same]
            at taken
          dsimp only
          generalize (if (w'.session.probes i).state = .installed
            then uninstallProbePatch w' id o else (w',true)) =
            r at taken ⊢
          obtain ⟨w'',back⟩ := r
          obtain ⟨sound,rest,status,off⟩ := taken
          have status' : w''.status ≠ .inactive := by rw [status.trans (active rfl)]; decide
          cases back with
          | false => exact ⟨sound,rest,fun bad => absurd bad status'⟩
          | true =>
            obtain ⟨id',idle⟩ := off rfl
            dsimp only at id' idle ⊢
            have live'' : (w''.probe i).live := by rw [Probe.live,id']; exact live
            obtain ⟨last,gone,sound',rest',kept⟩ :=
              @retireSettled isa original w'' o i known sound rest live'' idle
            rw [show (w''.probe i).probeId = id from id'] at gone
            rw [show unregister
              (releaseSlot (w''.setProbe i (clearedAction (w''.session.probes i))) i o) id =
              _ from gone]
            dsimp only
            split
            · next zero => exact emptySettled sound' (noneRegistered
                sound'.entries zero) rfl rfl rfl
            · exact runSettled ⟨sound',rest',fun bad => absurd (kept.symm.trans bad) status'⟩

/- The trace is stopped by the operation itself, or by a start that cannot resume. -/
def Quits (o : Outcome) : Op → Prop
  | .shutdown => True
  | .start _ _ => o.resume = false
  | _ => False

def Seeks (known : Name → Nat → Prop) (w : World) (o : Outcome) : Op → Prop
  | .start name _ => Looks known w name o
  | _ => True

theorem opSettled {op} (h : Settled isa original known w) (seeks : Seeks known w o op)
    (stops : Quits o op → Clean each) :
    Grown isa disasm known w o (runOp isa disasm w op o each).1.prepared ∧
      (Room w (runOp isa disasm w op o each).1.prepared →
        Settled isa original known (runOp isa disasm w op o each).1) := by
  cases op with
  | start name filter => exact startSettled filter h seeks stops
  | enable id => exact enableSettled h
  | disable id =>
    have same := disableKeeps w id o
    exact ⟨same ▸ .same,fun _ => disableSettled h⟩
  | remove id =>
    have same := removeKeeps w id o
    exact ⟨same ▸ .same,fun _ => removeSettled h⟩
  | shutdown =>
    simp only [runOp,traceShutdown]
    split
    · exact ⟨.same,fun _ => h⟩
    · rw [traceStopPrepared]
      exact ⟨.same,fun _ => traceStopSettled (stops trivial) h⟩

end ZeroTrace.ProbeRuns
