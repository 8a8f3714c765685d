import ZeroTrace.BorrowedCode

/-! What the operations promise of the target's text where the remote calls give the code back. -/
namespace ZeroTrace.BorrowedCode
open ByteMemory PatchCode FilterSyntax ProbeTable TrampolinePool ProbeLifecycle ProbeInvariant
  RemoteExec
open InstallRollback (Orderly Obliges Unchanged)
open SlotOwnership (Mapped)
open ProbeText (Ordinary Apart counting smooth)

/-! But for the text, and but for that only where some code was not given back, an operation
comes to the same as without the calls. -/
section Alike
variable {quiet : Prop} {isa : Isa} {disasm : Disassembler} {w w' : World} {i : Fin 32}
    {o : Outcome} {left : Left}

def Silent (left : Left) : Prop := ∀ c, left c = none

structure Alike (quiet : Prop) (w w' : World) : Prop where
  rest : w' = { w with text := w'.text }
  text : quiet → w'.text = w.text

def AlikeResult (quiet : Prop) (r r' : World × Bool) : Prop := Alike quiet r.1 r'.1 ∧ r'.2 = r.2

theorem alikeRefl (quiet : Prop) (w : World) : Alike quiet w w := ⟨rfl,fun _ => rfl⟩

theorem alikeSame (h : Alike quiet w w') (now : quiet) : w' = w := by
  rw [h.rest,h.text now]

/- The other world is the first one with a text of its own. -/
theorem alikeText (h : Alike quiet w w') : ∃ text, w' = { w with text := text } ∧
    (quiet → text = w.text) := ⟨w'.text,h.rest,h.text⟩

theorem calledAlike (h : Alike quiet w w') (gives : quiet → Silent left) (c : RemoteCall)
    (done : Bool) : Alike quiet w (called left c done w') := by
  unfold called
  split
  · exact h
  · obtain ⟨text,rfl,same⟩ := alikeText h
    refine ⟨rfl,fun now => ?_⟩
    dsimp only
    rw [gives now c]
    exact same now

theorem releaseAlike (h : Alike quiet w w') (gives : quiet → Silent left) :
    Alike quiet (ProbeLifecycle.releaseSlot w i o) (releaseSlot w' i o left) := by
  obtain ⟨text,rfl,same⟩ := alikeText h
  have released : Alike quiet (ProbeLifecycle.releaseSlot w i o)
      (ProbeLifecycle.releaseSlot { w with text := text } i o) := ⟨rfl,same⟩
  unfold releaseSlot
  dsimp only
  split
  · exact calledAlike released gives _ _
  · exact released

theorem unregisterAlike (h : Alike quiet w w') (id : Nat) :
    AlikeResult quiet (unregister w id) (unregister w' id) := by
  obtain ⟨text,rfl,same⟩ := alikeText h
  exact ⟨⟨rfl,same⟩,rfl⟩

theorem probeAlike (h : Alike quiet w w') (p : Probe) :
    Alike quiet (w.setProbe i p) (w'.setProbe i p) := by
  obtain ⟨text,rfl,same⟩ := alikeText h
  exact ⟨rfl,same⟩

theorem sessionAlike (h : Alike quiet w w') : w'.session = w.session ∧ w'.runtime = w.runtime ∧
    w'.status = w.status := by
  obtain ⟨text,rfl,_⟩ := alikeText h
  exact ⟨rfl,rfl,rfl⟩

theorem rollbackAlike (h : Alike quiet w w') (gives : quiet → Silent left)
    (snap : InstallSnapshot) :
    Alike quiet (ProbeLifecycle.rollbackProbeInstall w i snap o)
      (rollbackProbeInstall w' i snap o left) := by
  unfold ProbeLifecycle.rollbackProbeInstall rollbackProbeInstall
  dsimp only
  rw [(sessionAlike h).1]
  have released : Alike quiet
      (if (w.session.probes i).trampolineAddr ≠ 0 ∧
        (w.session.probes i).trampolineAddr ≠ snap.trampolineAddr then
        ProbeLifecycle.releaseSlot w i o else w)
      (if (w.session.probes i).trampolineAddr ≠ 0 ∧
        (w.session.probes i).trampolineAddr ≠ snap.trampolineAddr then
        releaseSlot w' i o left else w') := by
    split
    · exact releaseAlike h gives
    · exact h
  split
  · rw [(sessionAlike released).1]
    exact probeAlike released _
  · exact (unregisterAlike released _).1

theorem patchAlike (h : Alike quiet w w') (id : Nat) (target : UInt64) :
    AlikeResult quiet (installProbePatch isa w id target o)
      (installProbePatch isa w' id target o) := by
  obtain ⟨text,rfl,same⟩ := alikeText h
  have kept : AlikeResult quiet (w,false) ({ w with text := text },false) := ⟨⟨rfl,same⟩,rfl⟩
  unfold installProbePatch
  split
  · exact kept
  · dsimp only
    split
    · exact kept
    · next i _ =>
      split
      · exact kept
      · split
        · exact kept
        · unfold archInstallJump
          by_cases bad : (w.session.probes i).target.remoteAddr = 0 ∨ target = 0
          · simp only [if_pos bad]
            exact kept
          · simp only [if_neg bad]
            cases o.writePatch with
            | true => exact ⟨⟨rfl,fun now => by simp only [same now,if_true]⟩,rfl⟩
            | false => exact kept

theorem uninstallAlike (h : Alike quiet w w') (id : Nat) :
    AlikeResult quiet (uninstallProbePatch w id o) (uninstallProbePatch w' id o) := by
  obtain ⟨text,rfl,same⟩ := alikeText h
  have kept : AlikeResult quiet (w,false) ({ w with text := text },false) := ⟨⟨rfl,same⟩,rfl⟩
  unfold uninstallProbePatch
  dsimp only
  split
  · exact kept
  · split
    · exact kept
    · split
      · exact kept
      · split
        · exact kept
        · exact ⟨⟨rfl,fun now => by simp only [same now]⟩,rfl⟩

theorem stoppedAlike (h : Alike quiet w w') (o : Outcome) :
    AlikeResult quiet (ensureStopped w o) (ensureStopped w' o) := by
  obtain ⟨text,rfl,same⟩ := alikeText h
  unfold ensureStopped
  dsimp only
  split
  · exact ⟨⟨rfl,same⟩,rfl⟩
  · exact ⟨⟨rfl,same⟩,rfl⟩
  · split <;> exact ⟨⟨rfl,same⟩,rfl⟩

theorem runningAlike (h : Alike quiet w w') (o : Outcome) :
    AlikeResult quiet (ensureRunning w o) (ensureRunning w' o) := by
  obtain ⟨text,rfl,same⟩ := alikeText h
  unfold ensureRunning
  dsimp only
  split
  · exact ⟨⟨rfl,same⟩,rfl⟩
  · exact ⟨⟨rfl,same⟩,rfl⟩
  · split <;> exact ⟨⟨rfl,same⟩,rfl⟩

theorem cleanupAlike (h : Alike quiet w w') (gives : quiet → Silent left) :
    AlikeResult quiet ({ w with runtime := (ProbeLifecycle.cleanupRuntime w.runtime o).1 },
      (ProbeLifecycle.cleanupRuntime w.runtime o).2)
      (cleanupRuntime w' o left) := by
  have unmapped : ∀ {u : World} (c : RemoteCall) (addr : Nat) (ok : Bool), Alike quiet w u →
      Alike quiet w (munmapRegion left c addr ok u) := by
    intro u c addr ok alike
    unfold munmapRegion
    split
    · exact alike
    · exact calledAlike alike gives c ok
  have same := sessionAlike h
  unfold cleanupRuntime
  dsimp only
  rw [same.2.1]
  have last := unmapped .unmapBuffer w.runtime.traceBufferAddr o.munmapBuffer
    (unmapped .unmapConfig w.runtime.payloadConfigAddr o.munmapConfig
      (unmapped .unmapPath w.runtime.payloadPathAddr o.munmapPath h))
  obtain ⟨text,eq,back⟩ := alikeText last
  rw [eq]
  exact ⟨⟨rfl,back⟩,rfl⟩

theorem registeredAlike (gives : quiet → Silent left) (snap : InstallSnapshot) :
    AlikeResult quiet (ProbeLifecycle.installRegistered isa disasm w i snap o)
      (installRegistered isa disasm w i snap o left) := by
  have undone : ∀ {u u' : World}, Alike quiet u u' →
      AlikeResult quiet (ProbeLifecycle.rollbackProbeInstall u i snap o,false)
        (rollbackProbeInstall u' i snap o left,false) :=
    fun alike => ⟨rollbackAlike alike gives snap,rfl⟩
  unfold ProbeLifecycle.installRegistered installRegistered
  dsimp only
  generalize enableProbe isa disasm w (w.session.probes i).probeId o = saved
  obtain ⟨u,ok⟩ := saved
  cases ok with
  | false => exact undone (alikeRefl quiet u)
  | true =>
    dsimp only
    generalize poolAlloc u.runtime.pool (u.session.probes i) o.mmap = granted
    obtain ⟨pool,p,addr⟩ := granted
    dsimp only
    have slotted : Alike quiet ((u.setPool pool).setProbe i p)
        (if u.runtime.pool.remoteAddr = 0 then
        called left .mapPool o.mmap.isSome ((u.setPool pool).setProbe i p)
          else (u.setPool pool).setProbe i p) := by
      split
      · exact calledAlike (alikeRefl quiet _) gives _ _
      · exact alikeRefl quiet _
    generalize (u.setPool pool).setProbe i p = v at slotted ⊢
    generalize (if u.runtime.pool.remoteAddr = 0 then called left .mapPool o.mmap.isSome v else v) =
      v' at slotted ⊢
    cases addr with
    | none => exact undone slotted
    | some target =>
      dsimp only
      split
      · exact undone slotted
      · split
        · exact undone slotted
        · have patched := @patchAlike quiet isa v v' o slotted (w.session.probes i).probeId target
          generalize installProbePatch isa v (w.session.probes i).probeId target o = r at patched
          generalize installProbePatch isa v' (w.session.probes i).probeId target o = r' at patched
          obtain ⟨x,done⟩ := r
          obtain ⟨x',done'⟩ := r'
          obtain ⟨alike,told⟩ := patched
          dsimp only at told alike
          subst told
          cases done' with
          | false => exact undone alike
          | true => exact ⟨alike,rfl⟩

theorem installAlike (gives : quiet → Silent left) (name : Name) (filter : Option ProbeFilter) :
    AlikeResult quiet (ProbeLifecycle.installProbe isa disasm w name filter o)
      (installProbe isa disasm w name filter o left) := by
  unfold ProbeLifecycle.installProbe installProbe
  dsimp only
  generalize registerProbe w.session name o.lookup = reg
  obtain ⟨session,found⟩ := reg
  cases found with
  | none => exact ⟨alikeRefl quiet _,rfl⟩
  | some i =>
    dsimp only
    split
    · exact ⟨alikeRefl quiet _,rfl⟩
    · exact registeredAlike gives _

theorem afterAlike {f g : World → World × Bool} {f' g' : World → World × Bool}
    (failed : ∀ {u u'}, Alike quiet u u' → AlikeResult quiet (f u) (f' u'))
    (went : ∀ {u u'}, Alike quiet u u' → AlikeResult quiet (g u) (g' u')) :
    ∀ {r r' : World × Bool}, AlikeResult quiet r r' →
      AlikeResult quiet (match r with | (u,false) => f u | (u,true) => g u)
        (match r' with | (u,false) => f' u | (u,true) => g' u) := by
  rintro ⟨u,ok⟩ ⟨u',ok'⟩ ⟨alike,told⟩
  dsimp only at told alike
  subst told
  cases ok' with
  | false => exact failed alike
  | true => exact went alike

theorem keptAlike (ok : Bool) (h : Alike quiet w w') : AlikeResult quiet (w,ok) (w',ok) := ⟨h,rfl⟩

theorem activeAlike (gives : quiet → Silent left) (name : Name) (filter : Option ProbeFilter) :
    AlikeResult quiet (ProbeLifecycle.installActiveProbe isa disasm w name filter o)
      (installActiveProbe isa disasm w name filter o left) := by
  unfold ProbeLifecycle.installActiveProbe installActiveProbe
  generalize ensureStopped w o = r
  obtain ⟨u,ok⟩ := r
  cases ok with
  | false => exact keptAlike false (alikeRefl quiet u)
  | true =>
    have resumed : ∀ {u u'}, Alike quiet u u' → AlikeResult quiet (ensureRunning u o)
        (ensureRunning u' o) := fun alike => runningAlike alike o
    exact afterAlike (keptAlike false) resumed (installAlike gives name filter)

theorem stopOneAlike (h : Alike quiet w w') (gives : quiet → Silent left) :
    AlikeResult quiet (ProbeLifecycle.stopProbe w i o) (stopProbe w' i o left) := by
  unfold ProbeLifecycle.stopProbe stopProbe
  dsimp only
  rw [(sessionAlike h).1]
  split
  · exact ⟨h,rfl⟩
  · have unpatched : AlikeResult quiet
        (if (w.session.probes i).state = .installed then
          uninstallProbePatch w (w.session.probes i).probeId o else (w,true))
        (if (w.session.probes i).state = .installed then
          uninstallProbePatch w' (w.session.probes i).probeId o else (w',true)) := by
      split
      · exact uninstallAlike h _
      · exact ⟨h,rfl⟩
    exact ⟨(unregisterAlike (releaseAlike unpatched.1 gives) _).1,unpatched.2⟩

theorem stopAllAlike {each : Fin 32 → Outcome} {eachLeft : Fin 32 → Left}
    (gives : quiet → ∀ j, Silent (eachLeft j)) (slots : List (Fin 32))
    (h : Alike quiet w w') :
    AlikeResult quiet (ProbeLifecycle.stopProbes w each slots)
    (stopProbes w' each eachLeft slots) := by
  induction slots generalizing w w' with
  | nil => exact ⟨h,rfl⟩
  | cons i rest ih =>
    have first := @stopOneAlike quiet w w' i (each i) (eachLeft i) h fun now => gives now i
    have others := ih first.1
    exact ⟨others.1,by rw [ProbeLifecycle.stopProbes,stopProbes]; exact congrArg₂ (· && ·) first.2 others.2⟩

theorem resetAlike (h : Alike quiet w w') : Alike quiet (resetActive w) (resetActive w') := by
  obtain ⟨text,rfl,same⟩ := alikeText h
  exact ⟨rfl,same⟩

variable {each : Fin 32 → Outcome} {eachLeft : Fin 32 → Left}

theorem stopAlike (h : Alike quiet w w') (gives : quiet → Silent left)
    (givesEach : quiet → ∀ j, Silent (eachLeft j)) :
    AlikeResult quiet (ProbeLifecycle.traceStop w o each) (traceStop w' o left each eachLeft) := by
  unfold ProbeLifecycle.traceStop traceStop
  rw [(sessionAlike h).2.2]
  split
  · exact ⟨h,rfl⟩
  · refine afterAlike (keptAlike false) (fun {u u'} alike => ?_) (stoppedAlike h o)
    have stopped := @stopAllAlike quiet u u' each eachLeft givesEach (List.finRange 32) alike
    dsimp only
    generalize ProbeLifecycle.stopProbes u each (List.finRange 32) = s at stopped ⊢
    generalize stopProbes u' each eachLeft (List.finRange 32) = s' at stopped ⊢
    obtain ⟨v,done⟩ := s
    obtain ⟨v',done'⟩ := s'
    obtain ⟨near,told⟩ := stopped
    dsimp only at near told ⊢
    subst told
    have cleaned := @cleanupAlike quiet v v' o left near gives
    exact ⟨resetAlike cleaned.1,congrArg (done' && ·) cleaned.2⟩

theorem startAlike (gives : quiet → Silent left) (givesEach : quiet → ∀ j, Silent (eachLeft j))
    (name : Name) (filter : Option ProbeFilter) :
    AlikeResult quiet (ProbeLifecycle.traceStart isa disasm w name filter o each)
      (traceStart isa disasm w name filter o left each eachLeft) := by
  unfold ProbeLifecycle.traceStart traceStart
  dsimp only
  split
  · exact activeAlike gives name filter
  · split
    · exact ⟨alikeRefl quiet w,rfl⟩
    · cases ready : o.setupDone with
      | false =>
        simp only [Bool.not_false,if_true]
        have opened := calledAlike (alikeRefl quiet (ProbeRuns.openedWorld w o.setup)) gives
            .setUp false
        exact keptAlike false (cleanupAlike opened gives).1
      | true =>
        simp only [Bool.not_true,Bool.false_eq_true,if_false,called,if_true]
        refine afterAlike (fun alike =>
          keptAlike false (@cleanupAlike quiet _ _ o left alike gives).1) (fun {v v'} alike => ?_)
          (installAlike gives name filter)
        have stopped : Alike quiet { v with status := .stopped }
            { v' with status := .stopped } := by
          obtain ⟨text,rfl,same⟩ := alikeText alike
          exact ⟨rfl,same⟩
        have resumed := runningAlike stopped o
        generalize ensureRunning { v with status := .stopped } o = r at resumed ⊢
        generalize ensureRunning { v' with status := .stopped } o = r' at resumed ⊢
        obtain ⟨x,done⟩ := r
        obtain ⟨x',done'⟩ := r'
        obtain ⟨near,told⟩ := resumed
        dsimp only at near told
        subst told
        cases done' with
        | false => exact keptAlike false (stopAlike near gives givesEach).1
        | true => exact keptAlike true near

theorem removeAlike (gives : quiet → Silent left) (id : Nat) :
    AlikeResult quiet (ProbeLifecycle.traceRemoveProbe w id o) (traceRemoveProbe w id o left) := by
  unfold ProbeLifecycle.traceRemoveProbe traceRemoveProbe
  by_cases none : id = 0
  · rw [if_pos none,if_pos none]
    exact keptAlike false (alikeRefl quiet w)
  · rw [if_neg none,if_neg none]
    cases probeFindById w.session id with
    | none => exact keptAlike false (alikeRefl quiet w)
    | some i =>
      dsimp only
      by_cases inactive : w.status = .inactive
      · rw [if_pos inactive,if_pos inactive]
        exact ⟨alikeRefl quiet _,rfl⟩
      · rw [if_neg inactive,if_neg inactive]
        refine afterAlike (keptAlike false) (fun {u u'} alike => ?_)
          ⟨alikeRefl quiet (ensureStopped w o).1,rfl⟩
        have unpatched : AlikeResult quiet (if (u.session.probes i).state = .installed then
            uninstallProbePatch u id o else (u,true))
            (if (u'.session.probes i).state = .installed then
              uninstallProbePatch u' id o else (u',true)) := by
          rw [(sessionAlike alike).1]
          split
          · exact uninstallAlike alike id
          · exact ⟨alike,rfl⟩
        refine afterAlike (keptAlike false) (fun {v v'} alike => ?_) unpatched
        have cleared : Alike quiet (v.setProbe i (clearedAction (v.session.probes i)))
            (v'.setProbe i (clearedAction (v'.session.probes i))) := by
          rw [(sessionAlike alike).1]
          exact probeAlike alike _
        refine afterAlike (keptAlike false) (fun {x x'} alike => ?_)
          (unregisterAlike (releaseAlike cleared gives) id)
        rw [(sessionAlike alike).1]
        split
        · have cleaned := @cleanupAlike quiet x x' o left alike gives
          exact ⟨resetAlike cleaned.1,cleaned.2⟩
        · exact runningAlike alike o

theorem opAlike (gives : quiet → Silent left) (givesEach : quiet → ∀ j, Silent (eachLeft j))
    (op : Op) :
    AlikeResult quiet (ProbeLifecycle.runOp isa disasm w op o each)
      (runOp isa disasm w op o left each eachLeft) := by
  cases op with
  | start name filter => exact startAlike gives givesEach name filter
  | enable id =>
    unfold ProbeLifecycle.runOp runOp ProbeLifecycle.traceEnableProbe traceEnableProbe
    dsimp only
    by_cases refused : id = 0 ∨ w.status = .inactive
    · rw [if_pos refused,if_pos refused]
      exact keptAlike false (alikeRefl quiet w)
    · rw [if_neg refused,if_neg refused]
      cases probeFindById w.session id with
      | none => exact keptAlike false (alikeRefl quiet w)
      | some i =>
        dsimp only
        split
        · exact keptAlike true (alikeRefl quiet w)
        · exact activeAlike gives _ _
  | disable id => exact ⟨alikeRefl quiet _,rfl⟩
  | remove id => exact removeAlike gives id
  | shutdown =>
    unfold ProbeLifecycle.runOp runOp ProbeLifecycle.traceShutdown traceShutdown
    dsimp only
    split
    · exact ⟨alikeRefl quiet w,rfl⟩
    · exact stopAlike (alikeRefl quiet w) gives givesEach

end Alike

section Runs
variable {isa : Isa} {disasm : Disassembler} {w : World} {o : Outcome} {left : Left}

structure Call extends ProbeText.Call where
  left : Left
  eachLeft : Fin 32 → Left

def runCalls (isa : Isa) (disasm : Disassembler) (w : World) : List Call → World
  | [] => w
  | c::rest => runCalls isa disasm
      (runOp isa disasm w c.op c.outcome c.left c.each c.eachLeft).1 rest

def GivesBack (c : Call) : Prop := Silent c.left ∧ ∀ i, Silent (c.eachLeft i)

theorem runSame {calls : List Call} (gives : ∀ c ∈ calls, GivesBack c) :
    runCalls isa disasm w calls = ProbeText.runCalls isa disasm w (calls.map Call.toCall) := by
  induction calls generalizing w with
  | nil => rfl
  | cons c rest ih =>
    have back := gives c (.head _)
    have step := alikeSame
        (@opAlike True isa disasm w c.outcome c.left c.each c.eachLeft (fun _ => back.1)
        (fun _ => back.2) c.op).1 trivial
    rw [runCalls,step,ih fun d member => gives d (.tail _ member)]
    rfl

/-- After any run whose regions lie apart and whose stubs are taken back, every installed probe
has its own jump at its entry and the original bytes in its table entry, and every byte outside
the jumps is the original one, the regions of all other probes there ever were included. -/
theorem textPatchedExactly (isa : Isa) (disasm : Disassembler) (original : Memory)
    (calls : List Call)
    (ordinary : ∀ c ∈ calls, Ordinary c.toCall) (gives : ∀ c ∈ calls, GivesBack c)
    (apart : Apart (runCalls isa disasm (World.init original) calls).prepared) :
    let w := runCalls isa disasm (World.init original) calls
    (∀ i, (w.probe i).installed →
      Holds w.text (w.probe i).target.remoteAddr (jumpPatch isa (w.probe i).trampolineAddr) ∧
      (w.probe i).origCode.take (w.probe i).origLen =
        read original (w.probe i).target.remoteAddr (w.probe i).origLen) ∧
    (∀ a, (∀ i, (w.probe i).installed →
      ¬ Inside (w.probe i).target.remoteAddr (probePatchLen isa) a) →
      w.text a = original a) ∧
    ∀ r ∈ w.prepared, (∀ i, (w.probe i).installed → (w.probe i).target.symbol ≠ r.symbol) →
      read w.text r.addr r.len = read original r.addr r.len := by
  rw [runSame gives] at apart ⊢
  refine ProbeText.patchedExactly isa disasm original (calls.map Call.toCall)
    (fun c member => ?_) apart
  obtain ⟨d,there,rfl⟩ := List.mem_map.mp member
  exact ordinary d there

def nothingLeft : Left := fun _ => none

/- Two functions are traced and the first is disabled. -/
def twoTraced : List Call := ProbeText.twoTraced.map fun c => ⟨c,nothingLeft,fun _ => nothingLeft⟩

theorem twoGivesBack : ∀ c ∈ twoTraced, GivesBack c := by
  intro c member
  obtain ⟨_,_,rfl⟩ := List.mem_map.mp member
  exact ⟨fun _ => rfl,fun _ _ => rfl⟩

theorem twoRegions : (runCalls .aarch64 (fun _ => []) (World.init counting) twoTraced).prepared =
    [⟨['f'],0x1000,16⟩,⟨['g'],0x2000,16⟩] := by decide +kernel

theorem twoApart :
    Apart (runCalls .aarch64 (fun _ => []) (World.init counting) twoTraced).prepared := by
  rw [twoRegions]
  have far : Disjoint 0x1000 16 0x2000 16 := by
    intro a here there
    have := here.2
    have := there.1
    omega
  intro r member r' member' differ
  simp only [List.mem_cons,List.not_mem_nil,or_false] at member member'
  rcases member with rfl | rfl <;> rcases member' with rfl | rfl
  · exact absurd rfl differ
  · exact far
  · exact disjointSymm far
  · exact absurd rfl differ

theorem secondStaysPatched :
    let w := runCalls .aarch64 (fun _ => []) (World.init counting) twoTraced
    (w.probe 0).state = .disabled ∧ (w.probe 1).installed ∧
    Holds w.text (w.probe 1).target.remoteAddr (jumpPatch .aarch64 (w.probe 1).trampolineAddr) ∧
    read w.text 0x1000 16 = read counting 0x1000 16 := by
  have ordinary : ∀ c ∈ twoTraced, Ordinary c.toCall := by
    intro c member
    simp only [twoTraced,ProbeText.twoTraced,List.map_cons,List.map_nil,List.mem_cons,
      List.not_mem_nil,or_false] at member
    rcases member with rfl | rfl | rfl <;> exact ⟨by simp,rfl⟩
  obtain ⟨patched,_,others⟩ :=
    textPatchedExactly .aarch64 (fun _ => []) counting twoTraced ordinary twoGivesBack twoApart
  have installed : ((runCalls .aarch64 (fun _ => []) (World.init counting) twoTraced).probe
      1).installed := by
    rw [Probe.installed]
    decide +kernel
  have second : ∀ i,
      ((runCalls .aarch64 (fun _ => []) (World.init counting) twoTraced).probe i).state =
      .installed →
      ((runCalls .aarch64 (fun _ => []) (World.init counting) twoTraced).probe i).target.symbol ≠
        ['f'] := by
    decide +kernel
  refine ⟨by decide +kernel,installed,(patched 1 installed).1,?_⟩
  exact others ⟨['f'],0x1000,16⟩ (by rw [twoRegions]; simp) fun i now => second i now.2

/- A thread at 0x5000 is to ask for the pool. Its registers cannot be set, and the code that was
saved cannot be written either. -/
def mapPoolArgs : SyscallArgs := ⟨222,0,16384,7,0x22,0xFFFFFFFFFFFFFFFF,0⟩

def notRestored : Outcomes Arm64.Regs := ⟨true,true,true,true,true,false,true,id,[],true,true,false⟩

def stubLost : Left := fun
  | .mapPool => leftBehind (Arm64.remoteSyscall6 mapPoolArgs) notRestored ⟨counting,
      ⟨fun _ => 0,0,0x5000,0⟩⟩
  | _ => none

def poolRefused : Outcome := { smooth 0x1000 with mmap := none }

def refusedRun : List Call :=
  [⟨⟨.start ['f'] none,poolRefused,fun _ => smooth 0⟩,stubLost,fun _ => nothingLeft⟩]

theorem stubStays : (∀ c ∈ refusedRun, Ordinary c.toCall) ∧
    Apart (runCalls .aarch64 (fun _ => []) (World.init counting) refusedRun).prepared ∧
    (∀ i, ((runCalls .aarch64 (fun _ => []) (World.init counting) refusedRun).probe i).state ≠
      .installed) ∧
    (runCalls .aarch64 (fun _ => []) (World.init counting) refusedRun).text 0x5000 ≠
      counting 0x5000 := by
  refine ⟨?_,?_,by decide +kernel,by decide +kernel⟩
  · intro c member
    rw [refusedRun,List.mem_singleton] at member
    subst member
    exact ⟨by simp,rfl⟩
  · have regions : (runCalls .aarch64 (fun _ => []) (World.init counting) refusedRun).prepared =
      [⟨['f'],0x1000,16⟩] := by decide +kernel
    rw [regions]
    intro r member r' member' differ
    rw [List.mem_singleton.mp member,List.mem_singleton.mp member'] at differ
    exact absurd rfl differ

end Runs

/-! An install that fails, from any state that whole runs lead to, also where code was not given
back before. -/
section Installs
variable {isa : Isa} {disasm : Disassembler} {w w' : World} {o : Outcome} {left : Left}

theorem orderlyAlike {quiet : Prop} (h : Orderly w) (alike : Alike quiet w w') : Orderly w' := by
  obtain ⟨text,rfl,_⟩ := alikeText alike
  exact ⟨⟨⟨h.rests.tables.entries,h.rests.tables.own⟩,h.rests.calm,h.rests.closed⟩,h.neat.blank,
    h.neat.tidy⟩

/- The states that whole runs lead to, and those inside an operation that an install starts from:
with the threads stopped, or with a runtime that has just been set up. Configuring the call
action of a probe changes nothing else of it, and a new session begins with an empty table
whatever is left of the last trace. -/
inductive Reached (isa : Isa) (disasm : Disassembler) : World → Prop where
  | start (text : Memory) : Reached isa disasm (World.init text)
  | call {w : World} (c : Call) (obliges : Obliges c.outcome)
      (each : ∀ j, (c.each j).munmapPool = true) (reached : Reached isa disasm w) :
      Reached isa disasm (runOp isa disasm w c.op c.outcome c.left c.each c.eachLeft).1
  | attached {w : World} (text : Memory) (reached : Reached isa disasm w) :
      Reached isa disasm ⟨.init,w.runtime,w.status,text,w.prepared⟩
  | stopped {w : World} (o : Outcome) (reached : Reached isa disasm w) :
      Reached isa disasm (ensureStopped w o).1
  | opened {w : World} (o : Outcome) (idle : w.status = .inactive)
      (reached : Reached isa disasm w) :
      Reached isa disasm (ProbeRuns.openedWorld w o.setup)
  | configured {w : World} (i : Fin 32) (action : CallAction) (slot : Int) (symbol : Name)
      (live : (w.probe i).live)
      (reached : Reached isa disasm w) :
      Reached isa disasm
        (w.setProbe i { w.probe i with
            callAction := action, callActionSlot := slot, callSymbol := symbol })

theorem reachedOrderly (reached : Reached isa disasm w) : Orderly w := by
  induction reached with
  | start text => exact InstallRollback.initOrderly text
  | call c obliges each _ ih =>
    exact orderlyAlike (InstallRollback.callOrderly ih obliges each)
      (@opAlike False isa disasm _ c.outcome c.left c.each c.eachLeft nofun nofun c.op).1
  | attached text _ ih => exact InstallRollback.attachedOrderly text ih
  | stopped o _ ih => exact InstallRollback.stoppedOrderly ih
  | opened o idle _ ih => exact InstallRollback.openedOrderly ih idle
  | configured i action slot symbol live _ ih => exact InstallRollback.configuredOrderly ih live

/- A probe that was disabled is enabled again while a thread cannot leave its prologue. -/
def onceTraced : World :=
  runCalls .aarch64 (fun _ => []) (World.init counting)
    (((PoolRuns.tracedAgain ['f']).take 2).map fun c => ⟨c,nothingLeft,fun _ => nothingLeft⟩)

def noWayOut : Outcome := { smooth 0x1000 with safe := false }

theorem smoothObliges (addr : Nat) : Obliges (smooth addr) := by
  have mapped : Mapped 0x10000 := by decide
  refine ⟨fun a same => ?_,rfl⟩
  cases same
  exact mapped

theorem onceTracedReached : Reached .aarch64 (fun _ => []) onceTraced :=
  .call ⟨⟨.disable 1,smooth 0,fun _ => smooth 0⟩,nothingLeft,fun _ => nothingLeft⟩ (smoothObliges 0)
    (fun _ => rfl)
    (.call ⟨⟨.start ['f'] none,smooth 0x1000,fun _ => smooth 0⟩,nothingLeft,fun _ => nothingLeft⟩
      (smoothObliges 0x1000) (fun _ => rfl)
      (.start counting))

end Installs
end ZeroTrace.BorrowedCode
