import ZeroTrace.InstallRollback
import ZeroTrace.RemoteExec

/-! The operations once more, with the code that the tracer's remote calls borrow. Each call
writes a stub over the target's code; one that fails may leave it there. -/
namespace ZeroTrace.BorrowedCode
open ByteMemory PatchCode FilterSyntax ProbeTable TrampolinePool ProbeLifecycle ProbeInvariant
  RemoteExec

/- The calls that the target is made to run. The set-up makes several, and ends with the first
one that fails. -/
inductive RemoteCall where
  | setUp | mapPool | unmapPool | unmapPath | unmapConfig | unmapBuffer
  deriving DecidableEq, Repr

/- Where a failed call has not given the code back, the bytes that stay there. -/
abbrev Left := RemoteCall → Option (Nat × List UInt8)

def settled (text : Memory) : Option (Nat × List UInt8) → Memory
  | none => text
  | some (pc,stub) => write text pc stub

def called (left : Left) (c : RemoteCall) (done : Bool) (w : World) : World :=
  if done then w else { w with text := settled w.text (left c) }

theorem codeBack (mem : Memory) (addr : Nat) {stub : List UInt8} {len : Nat}
    (short : stub.length ≤ len) :
    write (write mem addr stub) addr (read mem addr len) = mem := by
  funext a
  by_cases inside : Inside addr len a
  · exact writeRead _ _ _ _ _ inside
  · rw [writeOutside _ (by rwa [readLength])]
    exact writeOutside _ fun near =>
      inside ⟨near.1,Nat.lt_of_lt_of_le near.2 (Nat.add_le_add_left short _)⟩

/-! What one run of a stub leaves. -/
section Stubs
variable {R : Type} (b : Backend R) (o : Outcomes R) (t : Target R)

def leftBehind : Option (Nat × List UInt8) :=
  if o.getRegs = false ∨ stubPcOf b o t = 0 ∨ o.readCode = false ∨ o.writeStub = false ∨
    o.restoreCode = true then none
  else (b.buildStub (read t.mem (stubPcOf b o t).toNat b.stubSize)).map fun stub =>
    ((stubPcOf b o t).toNat,stub)

def Sized : Prop := ∀ saved stub, saved.length = b.stubSize → b.buildStub saved = some stub →
    stub.length ≤ b.stubSize

variable {b o t} {r : Result R}

theorem restoredMem {t' : Target R} {regs : R} {stubPc : UInt64} {stub : List UInt8} {mem : Memory}
    (held : t'.mem = write mem stubPc.toNat stub) (short : stub.length ≤ b.stubSize) :
    (restoreRegsAndCode o t' regs stubPc (read mem stubPc.toNat b.stubSize)).2.mem =
      if o.restoreCode then mem else write mem stubPc.toNat stub := by
  simp only [restoreRegsAndCode,held]
  split
  · exact codeBack _ _ short
  · rfl

theorem ranMem (still : ∀ t', (o.ran t').mem = t'.mem) {stubPc : UInt64} {stub : List UInt8}
    (short : stub.length ≤ b.stubSize)
    (ran : runStub b o t stubPc (read t.mem stubPc.toNat b.stubSize) stub = some r) :
    r.target.mem = (if o.restoreCode then t.mem else write t.mem stubPc.toNat stub) ∧
      (r.rc = 0 → o.restoreCode = true) := by
  have failed : ∀ {t' : Target R} {r : Result R}, t'.mem = write t.mem stubPc.toNat stub →
      some ⟨-1,none,(restoreRegsAndCode o t' t.regs stubPc (read t.mem stubPc.toNat b.stubSize)).2,
        [o.restoreRegs,o.restoreCode]⟩ = some r →
      r.target.mem = (if o.restoreCode then t.mem else write t.mem stubPc.toNat stub) ∧
        (r.rc = 0 → o.restoreCode = true) := by
    intro t' r held same
    cases same
    exact ⟨restoredMem held short,fun zero => by cases zero⟩
  have mine : ∀ {regs}, (o.ran ⟨write t.mem stubPc.toNat stub,regs⟩).mem =
      write t.mem stubPc.toNat stub := still _
  simp only [runStub] at ran
  split at ran
  · cases ran
    refine ⟨?_,fun zero => by cases zero⟩
    dsimp only
    split
    · exact codeBack _ _ short
    · rfl
  · split at ran
    · exact failed rfl ran
    · split at ran
      · cases ran
      · exact failed mine ran
      · split at ran
        · exact failed mine ran
        · split at ran
          · exact failed mine ran
          · cases ran
            refine ⟨restoredMem mine short,fun zero => ?_⟩
            simp only [restoreRegsAndCode] at zero
            split at zero
            · next both => exact (Bool.and_eq_true_iff.mp both).2
            · cases zero

/-- A run of a stub that changes no memory by itself leaves what `leftBehind` says, and nothing
where it reports success. -/
theorem stubLeaves (sized : Sized b) (still : ∀ t', (o.ran t').mem = t'.mem)
    (ran : executeRemoteStub b o t = some r) :
    r.target.mem = settled t.mem (leftBehind b o t) ∧ (r.rc = 0 → leftBehind b o t = none) := by
  simp only [executeRemoteStub] at ran
  unfold leftBehind
  split at ran
  · next bad =>
    cases ran
    rw [if_pos (.inl (by simpa using bad))]
    exact ⟨rfl,fun _ => rfl⟩
  · next regs =>
    split at ran
    · next bad =>
      cases ran
      rw [if_pos (.inr (.inl bad))]
      exact ⟨rfl,fun _ => rfl⟩
    · next pc =>
      split at ran
      · next bad =>
        cases ran
        rw [if_pos (.inr (.inr (.inl (by simpa using bad))))]
        exact ⟨rfl,fun _ => rfl⟩
      · next code =>
        split at ran
        · next unbuilt =>
          cases ran
          rw [unbuilt]
          split <;> exact ⟨rfl,fun _ => rfl⟩
        · next stub built =>
          split at ran
          · next bad =>
            cases ran
            rw [if_pos (.inr (.inr (.inr (.inl (by simpa using bad)))))]
            exact ⟨rfl,fun _ => rfl⟩
          · next written =>
            obtain ⟨mem,told⟩ := ranMem still (sized _ _ (readLength _ _ _) built) ran
            rw [mem,built]
            cases back : o.restoreCode with
            | true =>
              rw [if_pos rfl,if_pos (.inr (.inr (.inr (.inr rfl))))]
              exact ⟨rfl,fun _ => rfl⟩
            | false =>
              rw [back] at told
              rw [if_neg (by simp),
                if_neg (by simpa [pc] using ⟨by simpa using regs,by simpa using code,by simpa using written⟩)]
              exact ⟨rfl,fun zero => by cases told zero⟩

end Stubs

theorem stubsSized : (∀ args, Sized (X86.remoteSyscall6 args)) ∧
    (∀ args, Sized (X86.remoteCall2 args)) ∧
    (∀ args, Sized (Arm64.remoteSyscall6 args)) ∧ ∀ args, Sized (Arm64.remoteCall2 args) := by
  refine ⟨fun args saved stub size built => ?_,fun args saved stub size built => ?_,
    fun args saved stub size built => ?_,
    fun args saved stub size built => ?_⟩ <;> cases Option.some.inj built
  · have size : saved.length = 8 := size
    simp [X86.remoteSyscall6,X86.remoteSyscallCodeSize,size]
  · have size : saved.length = 16 := size
    simp [X86.remoteCall2,X86.remoteCallCodeSize,size,leBytes]
  · exact Nat.le_refl 8
  · simp [Arm64.remoteCall2,Arm64.remoteCallCodeSize,Arm64.brk,leBytes]

/- So a call whose stub is run in the target leaves the text as `called` has it. -/
theorem calledRuns {R : Type} {b : Backend R} {o : Outcomes R} {regs : R} {r : Result R}
    {left : Left} {c : RemoteCall} {done : Bool} {w : World}
    (sized : Sized b) (still : ∀ t', (o.ran t').mem = t'.mem)
    (ran : executeRemoteStub b o ⟨w.text,regs⟩ = some r)
    (told : done = true → r.rc = 0) (leaves : left c = leftBehind b o ⟨w.text,regs⟩) :
    (called left c done w).text = r.target.mem := by
  obtain ⟨mem,none_⟩ := stubLeaves sized still ran
  cases done with
  | true =>
    rw [mem,none_ (told rfl)]
    rfl
  | false => exact (congrArg (settled w.text) leaves).trans mem.symm

/-! The operations. Each is the one of the same name with the calls in their places. -/

def releaseUnmaps (pool : Pool) (p : Probe) : Bool := match slotValid p.trampolineSlot with
  | none => false
  | some slot =>
    if pool.remoteAddr ≠ 0 && pool.slotUsed slot && !slotBelongsToProbe pool p slot then false else
      let freed := { pool with slotUsed := Function.update pool.slotUsed slot false }
      freed.remoteAddr ≠ 0 && poolAllFree freed

def releaseSlot (w : World) (i : Fin 32) (o : Outcome) (left : Left) : World :=
  let released := ProbeLifecycle.releaseSlot w i o
  if releaseUnmaps w.runtime.pool (w.session.probes i) then
    called left .unmapPool o.munmapPool released else released

def rollbackProbeInstall (w : World) (i : Fin 32) (snap : InstallSnapshot) (o : Outcome)
    (left : Left) : World :=
  let p := w.session.probes i
  let w := if p.trampolineAddr ≠ 0 ∧ p.trampolineAddr ≠ snap.trampolineAddr then
    releaseSlot w i o left else w
  if snap.existed then w.setProbe i (restoredProbe (w.session.probes i) snap)
    else (unregister w p.probeId).1

section Ops
variable (isa : Isa) (disasm : Disassembler)

def installRegistered (w : World) (i : Fin 32) (snap : InstallSnapshot) (o : Outcome)
    (left : Left) : World × Bool :=
  let id := (w.session.probes i).probeId
  match enableProbe isa disasm w id o with
  | (w,false) => (rollbackProbeInstall w i snap o left,false)
  | (w,true) =>
    let granted := poolAlloc w.runtime.pool (w.session.probes i) o.mmap
    let slotted := (w.setPool granted.1).setProbe i granted.2.1
    -- A pool is asked for only where there is none.
    let w := if w.runtime.pool.remoteAddr = 0 then called left .mapPool o.mmap.isSome slotted
      else slotted
    match granted.2.2 with
    | none => (rollbackProbeInstall w i snap o left,false)
    | some trampolineAddr =>
      if !o.build then (rollbackProbeInstall w i snap o left,false)
      else if !o.writeTrampoline then (rollbackProbeInstall w i snap o left,false)
      else match installProbePatch isa w id trampolineAddr o with
        | (w,false) => (rollbackProbeInstall w i snap o left,false)
        | (w,true) => (w,true)

def installProbe (w : World) (name : Name) (filter : Option ProbeFilter) (o : Outcome)
    (left : Left) : World × Bool :=
  let existing := probeFindBySymbol w.session name
  let (session,found) := registerProbe w.session name o.lookup
  let w := { w with session := session }
  match found with
  | none => (w,false)
  | some i =>
    let p := w.session.probes i
    let snap := captureProbeInstallSnapshot p existing.isSome
    if p.state = .installed then
      (if filter.isSome then w.setProbe i (setProbeFilter p filter) else w,true)
    else installRegistered isa disasm (w.setProbe i (setProbeFilter p filter)) i snap o left

def munmapRegion (left : Left) (c : RemoteCall) (addr : Nat) (ok : Bool) (w : World) : World :=
  if addr = 0 then w else called left c ok w

def cleanupRuntime (w : World) (o : Outcome) (left : Left) : World × Bool :=
  let r := w.runtime
  let u := munmapRegion left .unmapPath r.payloadPathAddr o.munmapPath w
  let u := munmapRegion left .unmapConfig r.payloadConfigAddr o.munmapConfig u
  let u := munmapRegion left .unmapBuffer r.traceBufferAddr o.munmapBuffer u
  ({ u with runtime := (ProbeLifecycle.cleanupRuntime r o).1 },
    (ProbeLifecycle.cleanupRuntime r o).2)

def installActiveProbe (w : World) (name : Name) (filter : Option ProbeFilter) (o : Outcome)
    (left : Left) : World × Bool :=
  match ensureStopped w o with
  | (w,false) => (w,false)
  | (w,true) => match installProbe isa disasm w name filter o left with
    | (w,false) => (w,false)
    | (w,true) => ensureRunning w o

def stopProbe (w : World) (i : Fin 32) (o : Outcome) (left : Left) : World × Bool :=
  let p := w.session.probes i
  if p.probeId = 0 then (w,true) else
    let (w,done) := if p.state = .installed then uninstallProbePatch w p.probeId o else (w,true)
    ((unregister (releaseSlot w i o left) p.probeId).1,done)

def stopProbes (w : World) (each : Fin 32 → Outcome) (eachLeft : Fin 32 → Left) :
    List (Fin 32) → World × Bool
  | [] => (w,true)
  | i::rest =>
    let first := stopProbe w i (each i) (eachLeft i)
    let others := stopProbes first.1 each eachLeft rest
    (others.1,first.2 && others.2)

def traceStop (w : World) (o : Outcome) (left : Left) (each : Fin 32 → Outcome)
    (eachLeft : Fin 32 → Left) : World × Bool :=
  if w.status = .inactive then (w,false) else match ensureStopped w o with
    | (w,false) => (w,false)
    | (w,true) =>
      let (w,done) := stopProbes w each eachLeft (List.finRange 32)
      let cleaned := cleanupRuntime w o left
      (resetActive cleaned.1,done && cleaned.2)

def traceShutdown (w : World) (o : Outcome) (left : Left) (each : Fin 32 → Outcome)
    (eachLeft : Fin 32 → Left) : World × Bool :=
  if w.status = .inactive then (w,true) else traceStop w o left each eachLeft

def traceStart (w : World) (name : Name) (filter : Option ProbeFilter) (o : Outcome) (left : Left)
    (each : Fin 32 → Outcome)
    (eachLeft : Fin 32 → Left) : World × Bool :=
  if w.status ≠ .inactive then installActiveProbe isa disasm w name filter o left
  else if !o.logOpen then (w,false)
  else
    let w := called left .setUp o.setupDone
      { resetActive w with runtime := { o.setup with pool := .zero } }
    if !o.setupDone then ((cleanupRuntime w o left).1,false)
    else match installProbe isa disasm w name filter o left with
      | (w,false) => ((cleanupRuntime w o left).1,false)
      | (w,true) => match ensureRunning { w with status := .stopped } o with
        | (w,true) => (w,true)
        | (w,false) => ((traceStop w o left each eachLeft).1,false)

def traceEnableProbe (w : World) (id : Nat) (o : Outcome) (left : Left) : World × Bool :=
  if id = 0 ∨ w.status = .inactive then (w,false) else match probeFindById w.session id with
    | none => (w,false)
    | some i =>
      let p := w.session.probes i
      if p.state = .installed then
        (w,true) else installActiveProbe isa disasm w p.target.symbol (some p.filter) o left

def traceRemoveProbe (w : World) (id : Nat) (o : Outcome) (left : Left) : World × Bool :=
  if id = 0 then (w,false) else match probeFindById w.session id with
    | none => (w,false)
    | some i =>
      if w.status = .inactive then unregister w id
      else match ensureStopped w o with
        | (w,false) => (w,false)
        | (w,true) =>
          match (if (w.session.probes i).state = .installed then
            uninstallProbePatch w id o else (w,true)) with
          | (w,false) => (w,false)
          | (w,true) =>
            let w := releaseSlot (w.setProbe i (clearedAction (w.session.probes i))) i o left
            match unregister w id with
            | (w,false) => (w,false)
            | (w,true) =>
              if w.session.probeCount = 0 then
                let cleaned := cleanupRuntime w o left
                (resetActive cleaned.1,cleaned.2)
              else ensureRunning w o

def runOp (w : World) (op : Op) (o : Outcome) (left : Left) (each : Fin 32 → Outcome)
    (eachLeft : Fin 32 → Left) : World × Bool :=
  match op with
  | .start name filter => traceStart isa disasm w name filter o left each eachLeft
  | .enable id => traceEnableProbe isa disasm w id o left
  | .disable id => traceDisableProbe w id o
  | .remove id => traceRemoveProbe w id o left
  | .shutdown => traceShutdown w o left each eachLeft

end Ops

end ZeroTrace.BorrowedCode
