import ZeroTrace.RunState

/-! Where the remote addresses of a trace come from. An operation only keeps the addresses
it found, drops them, or takes the ones that its own calls into the target returned. -/
namespace ZeroTrace.AddressOrigin
open ByteMemory PatchCode FilterSyntax ProbeTable TrampolinePool ProbeLifecycle ProbeRules

/- `got`: what operations in one process returned. -/
structure Mapping (got : Outcome → Prop) (r : Runtime) : Prop where
  path : r.payloadPathAddr ≠ 0 → ∃ o, got o ∧ o.setup.payloadPathAddr = r.payloadPathAddr
  stub : r.entryStubAddr ≠ 0 → ∃ o, got o ∧ o.setup.entryStubAddr = r.entryStubAddr
  buffer : r.traceBufferAddr ≠ 0 → ∃ o, got o ∧ o.setup.traceBufferAddr = r.traceBufferAddr
  config : r.payloadConfigAddr ≠ 0 → ∃ o, got o ∧ o.setup.payloadConfigAddr = r.payloadConfigAddr
  pool : r.pool.remoteAddr ≠ 0 → ∃ o, got o ∧ o.mmap = some r.pool.remoteAddr

def Slotted (got : Outcome → Prop) (addr : UInt64) : Prop :=
  ∃ o base, ∃ s : Fin 32, got o ∧ o.mmap = some base ∧ addr = base + UInt64.ofNat (s.val * slotSize)

/- The patched address and the trampoline that the patch leads to. -/
structure Resident (got : Outcome → Prop) (p : Probe) : Prop where
  target : p.live → ∃ o path, got o ∧ o.lookup = some (path,p.target.remoteAddr)
  trampoline : p.trampolineAddr ≠ 0 → Slotted got p.trampolineAddr

structure Local (got : Outcome → Prop) (w : World) : Prop where
  runtime : Mapping got w.runtime
  probes : ∀ i, Resident got (w.probe i)

variable {got : Outcome → Prop} {isa : Isa} {disasm : Disassembler} {w : World} {o : Outcome}
    {i : Fin 32} {p q : Probe}

theorem residentZero : Resident got .zero := ⟨fun live => absurd rfl live,fun bad => absurd rfl bad⟩

theorem residentEdit (h : Resident got p) (id : q.probeId = p.probeId)
    (target : q.target = p.target)
    (addr : q.trampolineAddr = p.trampolineAddr ∨ q.trampolineAddr = 0) : Resident got q where
  target live := by rw [target]; exact h.target (by rwa [Probe.live,← id])
  trampoline some_ := by
    rcases addr with same | zero
    · rw [same] at some_ ⊢; exact h.trampoline some_
    · exact absurd zero some_

theorem mappingZero : Mapping got .zero :=
  ⟨fun bad => absurd rfl bad,fun bad => absurd rfl bad,fun bad => absurd rfl bad,
    fun bad => absurd rfl bad,
    fun bad => absurd rfl bad⟩

theorem localSet {w' : World} (h : Local got w) (runtime : w'.runtime = w.runtime)
    (session : w'.session = w.session.set i p)
    (mine : Resident got p) : Local got w' := by
  refine ⟨by rw [runtime]; exact h.runtime,fun j => ?_⟩
  rw [World.probe,session]
  by_cases same : j = i
  · subst same; simpa [Session.set] using mine
  · simpa [Session.set,same] using h.probes j

theorem localSame {w' : World} (h : Local got w) (runtime : w'.runtime = w.runtime)
    (probes : w'.session.probes = w.session.probes) :
    Local got w' :=
  ⟨by rw [runtime]; exact h.runtime,fun j => by rw [World.probe,probes]; exact h.probes j⟩

theorem localPool {pool : Pool} (h : Local got w)
    (base : pool.remoteAddr ≠ 0 → ∃ o, got o ∧ o.mmap = some pool.remoteAddr) :
    Local got (w.setPool pool) :=
  ⟨⟨h.runtime.path,h.runtime.stub,h.runtime.buffer,h.runtime.config,base⟩,h.probes⟩

theorem enableLocal {id} (h : Local got w) : Local got (enableProbe isa disasm w id o).1 := by
  unfold enableProbe
  split
  · exact h
  · next i _ =>
    dsimp only
    split
    · exact h
    · split
      · exact h
      · split
        · exact h
        · split
          · exact h
          · exact localSet h rfl rfl (residentEdit (h.probes i) rfl rfl (.inl rfl))

theorem assignLocal {pool : Pool} {slot} (mine : Resident got p)
    (base : pool.remoteAddr ≠ 0 → ∃ o, got o ∧ o.mmap = some pool.remoteAddr) :
    (poolAssignSlot pool p slot).1.remoteAddr = pool.remoteAddr ∧
      Resident got (poolAssignSlot pool p slot).2.1 ∧
      ∀ addr, (poolAssignSlot pool p slot).2.2 = some addr → Slotted got addr := by
  unfold poolAssignSlot
  dsimp only
  split
  · exact ⟨rfl,mine,fun addr bad => by cases bad⟩
  · next alive =>
    have mapped : pool.remoteAddr ≠ 0 := fun zero => alive (by simp [poolSlotAddr,zero])
    obtain ⟨o,did,got_⟩ := base mapped
    have slotted : Slotted got (poolSlotAddr pool slot) :=
      ⟨o,pool.remoteAddr,slot,did,got_,by simp [poolSlotAddr,mapped]⟩
    exact ⟨rfl,⟨mine.target,fun _ => slotted⟩,fun addr same => Option.some.inj same ▸ slotted⟩

theorem allocLocal {pool : Pool} (mine : Resident got p) (now : got o)
    (base : pool.remoteAddr ≠ 0 → ∃ o, got o ∧ o.mmap = some pool.remoteAddr) :
    ((poolAlloc pool p o.mmap).1.remoteAddr ≠ 0 → ∃ o', got o' ∧
      o'.mmap = some (poolAlloc pool p o.mmap).1.remoteAddr) ∧
      Resident got (poolAlloc pool p o.mmap).2.1 ∧
      ∀ addr, (poolAlloc pool p o.mmap).2.2 = some addr → Slotted got addr := by
  have assigned : ∀ {pool' : Pool} {slot},
      (pool'.remoteAddr ≠ 0 → ∃ o, got o ∧ o.mmap = some pool'.remoteAddr) →
      ((poolAssignSlot pool' p slot).1.remoteAddr ≠ 0 →
        ∃ o', got o' ∧ o'.mmap = some (poolAssignSlot pool' p slot).1.remoteAddr) ∧
      Resident got (poolAssignSlot pool' p slot).2.1 ∧
      ∀ addr, (poolAssignSlot pool' p slot).2.2 = some addr → Slotted got addr := by
    intro pool' slot base'
    have done := @assignLocal got p pool' slot mine base'
    exact ⟨by rw [done.1]; exact base',done.2⟩
  unfold poolAlloc
  split
  · split
    · exact ⟨base,mine,fun addr bad => by cases bad⟩
    · exact assigned base
  · split
    · exact ⟨base,mine,fun addr bad => by cases bad⟩
    · next pool' ensured =>
      have base' : pool'.remoteAddr ≠ 0 → ∃ o, got o ∧ o.mmap = some pool'.remoteAddr := by
        unfold poolEnsure at ensured
        split at ensured
        · cases Option.some.inj ensured
          exact base
        · obtain ⟨addr,mapped,rfl⟩ := Option.map_eq_some_iff.mp ensured
          exact fun _ => ⟨o,now,mapped⟩
      split
      · exact ⟨base',mine,fun addr bad => by cases bad⟩
      · exact assigned base'

theorem patchLocal {id addr} (h : Local got w) (slotted : Slotted got addr) :
    Local got (installProbePatch isa w id addr o).1 := by
  unfold installProbePatch
  split
  · exact h
  · split
    · exact h
    · next i _ =>
      dsimp only
      split
      · exact h
      · split
        · exact h
        · split
          · exact h
          · exact localSet h rfl rfl ⟨(h.probes i).target,fun _ => slotted⟩

theorem uninstallLocal {id} (h : Local got w) : Local got (uninstallProbePatch w id o).1 := by
  unfold uninstallProbePatch
  split
  · exact h
  · next i _ =>
    dsimp only
    split
    · exact h
    · split
      · exact h
      · split
        · exact h
        · exact localSet h rfl rfl (residentEdit (h.probes i) rfl rfl (.inl rfl))

theorem releaseLocal (h : Local got w) : Local got (releaseSlot w i o) := by
  have edited : ∀ {pool : Pool} {q : Probe},
      (pool.remoteAddr = w.runtime.pool.remoteAddr ∨ pool.remoteAddr = 0) →
      Resident got q → Local got ((w.setPool pool).setProbe i q) := by
    intro pool q base mine
    have pooled : Local got (w.setPool pool) := localPool h fun some_ => by
      rcases base with same | zero
      · rw [same] at some_ ⊢; exact h.runtime.pool some_
      · exact absurd zero some_
    exact localSet pooled rfl rfl mine
  have cleared : Resident got (clearProbeSlot (w.probe i)) :=
    residentEdit (h.probes i) rfl rfl (.inr rfl)
  unfold releaseSlot poolRelease
  split
  · exact edited (.inl rfl) (h.probes i)
  · split
    · exact edited (.inl rfl) (h.probes i)
    · refine edited ?_ cleared
      dsimp only
      split
      · exact .inr rfl
      · exact .inl rfl

theorem unregisterLocal {id} (h : Local got w) : Local got (unregister w id).1 := by
  unfold unregister unregisterProbe
  split
  · exact h
  · next i _ => exact localSame (@localSet got w i .zero (w.setProbe i .zero) h rfl rfl
      residentZero) rfl rfl

theorem rollbackLocal {snap} (h : Local got w)
    (taken : snap.existed = true → ∀ q : Probe, q.trampolineAddr = snap.trampolineAddr →
    q.target = (w.probe i).target → q.probeId = (w.probe i).probeId → Resident got q) :
    Local got (rollbackProbeInstall w i snap o) := by
  have moved : ∀ w' : World, Local got w' → (w'.probe i).target = (w.probe i).target →
      (w'.probe i).probeId = (w.probe i).probeId →
      Local got (if snap.existed then w'.setProbe i (restoredProbe (w'.session.probes i) snap)
        else (unregister w' (w.session.probes i).probeId).1) := by
    intro w' h' target id
    split
    · next existed => exact localSet h' rfl rfl (taken existed _ rfl target id)
    · exact unregisterLocal h'
  unfold rollbackProbeInstall
  dsimp only
  by_cases other : (w.session.probes i).trampolineAddr ≠ 0 ∧
    (w.session.probes i).trampolineAddr ≠ snap.trampolineAddr
  · have kept : ((releaseSlot w i o).probe i).target = (w.probe i).target ∧
        ((releaseSlot w i o).probe i).probeId = (w.probe i).probeId := by
      unfold releaseSlot poolRelease
      split
      · simp [World.setProbe,World.setPool,World.probe]
      · split <;> simp [World.setProbe,World.setPool,World.probe,clearProbeSlot]
    rw [if_pos other]
    exact moved _ (releaseLocal h) kept.1 kept.2
  · rw [if_neg other]
    exact moved _ h rfl rfl

/- No step of an install changes the address that an entry is for. -/
theorem enableKeeps {id} (j : Fin 32) :
    ((enableProbe isa disasm w id o).1.probe j).target = (w.probe j).target ∧
    ((enableProbe isa disasm w id o).1.probe j).probeId = (w.probe j).probeId := by
  unfold enableProbe
  split
  · exact ⟨rfl,rfl⟩
  · next i _ =>
    dsimp only
    split
    · exact ⟨rfl,rfl⟩
    · split
      · exact ⟨rfl,rfl⟩
      · split
        · exact ⟨rfl,rfl⟩
        · split
          · exact ⟨rfl,rfl⟩
          · by_cases same : j = i
            · subst same; simp [World.setProbe,World.probe,savedProbe]
            · simp [World.setProbe,World.probe,Session.set,same]

theorem allocKeeps {pool : Pool} {p : Probe} {mmap} :
    (poolAlloc pool p mmap).2.1.target = p.target ∧
      (poolAlloc pool p mmap).2.1.probeId = p.probeId := by
  have assigned : ∀ pool' slot, (poolAssignSlot pool' p slot).2.1.target = p.target ∧
      (poolAssignSlot pool' p slot).2.1.probeId = p.probeId := by
    intro pool' slot
    unfold poolAssignSlot
    dsimp only
    split <;> exact ⟨rfl,rfl⟩
  unfold poolAlloc
  split
  · split
    · exact ⟨rfl,rfl⟩
    · exact assigned _ _
  · split
    · exact ⟨rfl,rfl⟩
    · split
      · exact ⟨rfl,rfl⟩
      · exact assigned _ _

theorem patchKeeps {id addr} (j : Fin 32) :
    ((installProbePatch isa w id addr o).1.probe j).target = (w.probe j).target ∧
    ((installProbePatch isa w id addr o).1.probe j).probeId = (w.probe j).probeId := by
  unfold installProbePatch
  split
  · exact ⟨rfl,rfl⟩
  · split
    · exact ⟨rfl,rfl⟩
    · next i _ =>
      dsimp only
      split
      · exact ⟨rfl,rfl⟩
      · split
        · exact ⟨rfl,rfl⟩
        · split
          · exact ⟨rfl,rfl⟩
          · by_cases same : j = i
            · subst same; simp [World.setProbe,World.probe]
            · simp [World.setProbe,World.probe,Session.set,same]

theorem registeredLocal {snap} (h : Local got w) (now : got o)
    (addr : snap.trampolineAddr = (w.probe i).trampolineAddr) :
    Local got (installRegistered isa disasm w i snap o).1 := by
  have mine := h.probes i
  have rolled : ∀ w' : World, Local got w' → (w'.probe i).target = (w.probe i).target →
      (w'.probe i).probeId = (w.probe i).probeId →
      Local got (rollbackProbeInstall w' i snap o) := by
    intro w' h' target id
    refine rollbackLocal h' fun _ q same target' id' => ?_
    exact residentEdit mine (id'.trans id) (target'.trans target) (.inl (same.trans addr))
  unfold installRegistered
  dsimp only
  have enabled := @enableLocal got isa disasm w o (w.session.probes i).probeId h
  have kept := @enableKeeps isa disasm w o (w.session.probes i).probeId i
  generalize enableProbe isa disasm w (w.session.probes i).probeId o = r at enabled kept ⊢
  obtain ⟨w',ok⟩ := r
  dsimp only at enabled kept
  cases ok with
  | false => exact rolled w' enabled kept.1 kept.2
  | true =>
    obtain ⟨base,resident,slotted⟩ :=
      @allocLocal got o (w'.probe i) w'.runtime.pool (enabled.probes i) now enabled.runtime.pool
    have same := @allocKeeps w'.runtime.pool (w'.probe i) o.mmap
    dsimp only
    generalize poolAlloc w'.runtime.pool (w'.session.probes i) o.mmap =
      r at base resident slotted same ⊢
    obtain ⟨pool,p,found⟩ := r
    dsimp only at base resident slotted same ⊢
    have pooled : Local got ((w'.setPool pool).setProbe i p) :=
      localSet (localPool enabled base) rfl rfl resident
    have here := setProbeHere (w'.setPool pool) i p
    have back := rolled _ pooled (by rw [here]; exact same.1.trans kept.1)
        (by rw [here]; exact same.2.trans kept.2)
    cases found with
    | none => exact back
    | some trampolineAddr =>
      dsimp only
      split
      · exact back
      · split
        · exact back
        · have patched := @patchLocal got isa _ o (w.session.probes i).probeId trampolineAddr pooled
            (slotted _ rfl)
          have still := @patchKeeps isa ((w'.setPool pool).setProbe i p) o
              (w.session.probes i).probeId trampolineAddr i
          generalize installProbePatch isa ((w'.setPool pool).setProbe i
            p) (w.session.probes i).probeId trampolineAddr o = r
            at patched still ⊢
          obtain ⟨w'',done⟩ := r
          dsimp only at patched still
          rw [here] at still
          cases done with
          | false => exact rolled w'' patched (still.1.trans (same.1.trans kept.1)) (still.2.trans
              (same.2.trans kept.2))
          | true => exact patched

theorem installLocal {name filter} (h : Local got w) (now : got o) :
    Local got (installProbe isa disasm w name filter o).1 := by
  unfold installProbe
  dsimp only
  have steps := registerSteps w.session name o.lookup
  generalize registerProbe w.session name o.lookup = r at steps ⊢
  have fresh : Local got { w with session := r.1 } := by
    cases steps with
    | refused => exact h
    | known => exact h
    | @fresh i module addr path free look absent new =>
      refine localSame (@localSet got w i _ (w.setProbe i _) h rfl rfl ?_) rfl rfl
      exact ⟨fun _ => ⟨o,module,now,look⟩,fun bad => absurd rfl bad⟩
  obtain ⟨s,found⟩ := r
  cases found with
  | none => exact fresh
  | some i =>
    dsimp only
    have mine := fresh.probes i
    split
    · split
      · exact localSet fresh rfl rfl (residentEdit mine rfl rfl (.inl rfl))
      · exact fresh
    · refine registeredLocal (localSet fresh rfl rfl (residentEdit mine rfl rfl (.inl rfl))) now ?_
      simp [World.setProbe,World.probe,captureProbeInstallSnapshot,setProbeFilter]

theorem statusLocal {w' : World} (h : Local got w) (runtime : w'.runtime = w.runtime)
    (session : w'.session = w.session) :
    Local got w' := localSame h runtime (by rw [session])

theorem munmapSmaller (addr : Nat) (ok : Bool) : (munmapRegion addr ok).1 = addr ∨
    (munmapRegion addr ok).1 = 0 := by
  unfold munmapRegion
  split
  · exact .inr rfl
  · split
    · exact .inr rfl
    · exact .inl rfl

theorem cleanupMapping {r : Runtime} (h : Mapping got r) : Mapping got (cleanupRuntime r o).1 := by
  have smaller : ∀ (field : Outcome → Nat) (addr : Nat) (ok : Bool),
      (addr ≠ 0 → ∃ o, got o ∧ field o = addr) →
      (munmapRegion addr ok).1 ≠ 0 → ∃ o, got o ∧ field o = (munmapRegion addr ok).1 := by
    intro field addr ok from_ some_
    rcases munmapSmaller addr ok with same | zero
    · rw [same] at some_ ⊢; exact from_ some_
    · exact absurd zero some_
  exact ⟨smaller (·.setup.payloadPathAddr) _ _ h.path,h.stub,
    smaller (·.setup.traceBufferAddr) _ _ h.buffer,
    smaller (·.setup.payloadConfigAddr) _ _ h.config,h.pool⟩

theorem cleanupLocal (h : Local got w) :
    Local got { w with runtime := (cleanupRuntime w.runtime o).1 } :=
  ⟨cleanupMapping h.runtime,h.probes⟩

theorem resetLocal (h : Local got w) : Local got (resetActive w) := ⟨mappingZero,h.probes⟩

theorem clearLocal (h : Local got w) : Local got (w.setProbe i (clearedAction (w.probe i))) := by
  have same := ProbeRuns.cleared (w.probe i)
  exact localSet h rfl rfl
    (residentEdit (h.probes i) (by rw [same]) (by rw [same]) (.inl (by rw [same])))

theorem localParts (got : Outcome → Prop) : Parts (Local got) fun _ => True where
  status _ h := statusLocal h rfl rfl
  uninstall _ _ h := uninstallLocal h
  clear _ h := clearLocal h
  release _ _ h := releaseLocal h
  unregister _ h := unregisterLocal h
  cleanup _ h := cleanupLocal h
  reset h := resetLocal h

theorem installStopped {name filter} (h : Local got w) (now : got o) :
    Local got (installProbe isa disasm (ensureStopped w o).1 name filter o).1 :=
  installLocal (stoppedKept (localParts got) h) now

theorem startLocal {name filter} {each : Fin 32 → Outcome} (h : Local got w) (now : got o) :
    Local got (traceStart isa disasm w name filter o each).1 := by
  have opened : Local got { resetActive w with runtime := { o.setup with pool := .zero } } :=
    ⟨⟨fun _ => ⟨o,now,rfl⟩,fun _ => ⟨o,now,rfl⟩,fun _ => ⟨o,now,rfl⟩,fun _ => ⟨o,now,rfl⟩,
      fun bad => absurd rfl bad⟩,h.probes⟩
  exact startKept (localParts got) (fun _ => trivial) h (installStopped h now) (fun _ => opened)
    fun _ => installLocal opened now

theorem performLocal {m : RunState.Machine} {c : RunState.Command} (h : Local got m.world)
    (now : got c.outcome) :
    Local got (RunState.perform isa disasm m c).world := by
  unfold RunState.perform
  cases c.action with
  | trace name filter =>
    have started : ∀ m' : RunState.Machine, m'.world = m.world →
        Local got (RunState.start isa disasm m' name filter c.outcome c.each c.around).1.world := by
      intro m' same
      have landed := @startLocal got isa disasm m'.world c.outcome name filter c.each (same ▸ h) now
      rwa [← @RunState.startFlat isa disasm m' c.outcome c.each c.around] at landed
    simp only [RunState.cmdTrace]
    split
    · exact h
    · split
      · split
        · exact h
        · split
          · exact h
          · exact started _ rfl
      · exact started _ rfl
  | enable id =>
    have landed := @enableKept _ _ isa disasm m.world c.outcome id (localParts got) h fun _ _ =>
        installStopped h now
    rwa [← @RunState.enableFlat isa disasm m c.outcome c.around] at landed
  | disable id =>
    have landed := @disableKept _ _ m.world c.outcome id (localParts got) trivial h
    rwa [← @RunState.disableFlat m c.outcome c.around] at landed
  | remove id =>
    have landed := @removeKept _ _ m.world c.outcome id (localParts got) trivial h
    rwa [← @RunState.removeFlat m c.outcome c.around] at landed
  | pause =>
    dsimp only
    split
    · exact h
    · have landed := @stoppedKept _ _ m.world c.outcome (localParts got) h
      rwa [← @RunState.stopThreadsFlat m c.outcome c.around] at landed
  | continue_ =>
    dsimp only
    split
    · exact h
    · have landed := @runningKept _ _ m.world c.outcome (localParts got) h
      rwa [← @RunState.resumeThreadsFlat m c.outcome] at landed
  | shutdown =>
    dsimp only
    split
    · exact h
    · have landed := @traceStopKept _ _ m.world c.outcome c.each (localParts got)
        (fun _ => trivial) h
      rwa [← @RunState.stopFlat m c.outcome c.each c.around] at landed

end ZeroTrace.AddressOrigin
