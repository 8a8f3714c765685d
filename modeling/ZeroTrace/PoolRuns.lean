import ZeroTrace.SlotOwnership
import ZeroTrace.ProbeOverlap
import ZeroTrace.X86Trampoline
import ZeroTrace.Arm64Trampoline

/-! The trampoline pool over whole runs of traces, enables, disables and untraces, with
every step of theirs failing as it may. Nothing is assumed about where the probed
functions are. -/
namespace ZeroTrace.PoolRuns
open ByteMemory PatchCode FilterSyntax ProbeTable TrampolinePool ProbeLifecycle ProbeInvariant
  ProbeSteps SlotOwnership
open ProbeOps (Only onlyRefl onlyTrans onlyUpdate Installing installing savedHere slottedHere
  savedOwns slottedProbe)
open ProbeRuns (openedWorld noneRegistered cleared stoppedActive)
open ProbeText (Call runCalls)
open ProbeOverlap (EveryStep)

variable {isa : Isa} {disasm : Disassembler} {w : World} {o : Outcome} {i : Fin 32}

def Filled (w : World) : Prop := Full w.runtime.pool w.session.probes

structure Moved (i : Fin 32) (w w' : World) : Prop where
  entries : Entries w'.session
  own : Ownership w'.runtime.pool w'.session.probes
  only : Only i w w'
  full : Filled w → Filled w'

theorem movedTrans {w' w''} (h : Moved i w w') (h' : Moved i w' w'') : Moved i w w'' :=
  ⟨h'.entries,h'.own,onlyTrans h.only h'.only,fun full => h'.full (h.full full)⟩

structure Tables (w : World) : Prop where
  entries : Entries w.session
  own : Ownership w.runtime.pool w.session.probes

theorem movedTables {w'} (h : Moved i w w') : Tables w' := ⟨h.entries,h.own⟩

theorem movedEdit {w' : World} {p : Probe} (h : Tables w) (live : (w.probe i).live)
    (session : w'.session = w.session.set i p)
    (pool : w'.runtime.pool = w.runtime.pool) (status : w'.status = w.status)
    (id : p.probeId = (w.probe i).probeId)
    (symbol : p.target.symbol = (w.probe i).target.symbol)
    (slot : p.trampolineSlot = (w.probe i).trampolineSlot)
    (addr : p.trampolineAddr = (w.probe i).trampolineAddr) : Moved i w w' := by
  have probes : w'.session.probes = Function.update w.session.probes i p := by rw [session]; rfl
  have alive : p.live := by rw [Probe.live,id]; exact live
  refine ⟨by rw [session]; exact entriesSet h.entries id symbol,?_,onlyUpdate probes status,
    fun full => ?_⟩
  · rw [pool,probes]
    exact ownChanged h.own fun _ => .inl ⟨live,slot,addr⟩
  · rw [Filled,pool,probes]
    exact fullChanged full fun _ s mine => ⟨alive,slot.trans mine⟩

theorem savedMoved {len} (h : Tables w)
    (live : (w.probe i).live) : Moved i w (savedWorld w i len) :=
  movedEdit h live rfl rfl rfl rfl rfl rfl rfl

theorem ownsIdle (h : Tables w) (live : (w.probe i).live) (idle : (w.probe i).state ≠ .installed) :
    Owns w.runtime.pool (w.probe i) := by
  unfold Owns
  rcases h.own.placed i live with ⟨slotless,none_⟩ | ⟨s,slot,addr,open_,used⟩
  · have invalid : slotValid (w.probe i).trampolineSlot = none := by rw [slotless]; rfl
    rw [invalid]
    exact ⟨none_,idle⟩
  · have valid : slotValid (w.probe i).trampolineSlot = some s := by rw [slot]; exact slotValidNat s
    rw [valid]
    exact ⟨open_,used,addr,by rw [addr]; exact slotAddrLive (h.own.mapped open_) s⟩

def Maps (o : Outcome) : Prop := ∀ a, o.mmap = some a → Mapped a

theorem slottedMoved (h : Tables w) (maps : Maps o) (live : (w.probe i).live)
    (idle : (w.probe i).state ≠ .installed) :
    Moved i w (slottedWorld w i o.mmap) := by
  have owned := allocOwned h.own maps live
  have probe := @slottedProbe w i o.mmap (ownsIdle h live idle)
  dsimp only at probe
  rw [slottedHere] at probe
  have id := congrArg Probe.probeId probe
  have symbol := congrArg (fun p => p.target.symbol) probe
  exact ⟨entriesSet h.entries id symbol,owned.1,onlyUpdate rfl rfl,owned.2⟩

theorem releaseMoved (h : Tables w) (live : (w.probe i).live) :
    Moved i w (releaseSlot w i o) ∧ (releaseSlot w i o).probe i = clearProbeSlot (w.probe i) := by
  obtain ⟨own,full,cleared⟩ :=
    @releaseOwned w.runtime.pool w.session.probes i o.munmapPool h.own live
  refine ⟨⟨entriesSet h.entries (by rw [cleared]; rfl) (by rw [cleared]; rfl),own,
    onlyUpdate rfl rfl,full⟩,?_⟩
  simp [releaseSlot,World.setProbe,World.setPool,World.probe,cleared]

/- An entry is forgotten; when it had a slot, the slot stays in use. -/
theorem forgottenTables (h : Tables w) (live : (w.probe i).live) :
    Tables (forgottenWorld w i) ∧ Only i w (forgottenWorld w i) ∧
      ((w.probe i).trampolineSlot = -1 → Filled w → Filled (forgottenWorld w i)) := by
  have gone : ¬ Probe.zero.live := by simp [Probe.live,Probe.zero]
  refine ⟨⟨entriesGone h.entries live,ownChanged h.own fun now => absurd now gone⟩,
    onlyUpdate rfl rfl,?_⟩
  intro slotless full
  exact fullChanged full fun _ s mine => absurd (slotless.symm.trans mine) (noSlot s)

/- The snapshot is that of the entry before the install: its slot is the one the entry
still has, or none at all. -/
structure Backed (snap : InstallSnapshot) (p : Probe) : Prop where
  calm : snap.state ≠ .prepared
  slot : snap.trampolineSlot = p.trampolineSlot ∧ snap.trampolineAddr = p.trampolineAddr ∨
    snap.trampolineSlot = -1 ∧ snap.trampolineAddr = 0

structure Undone (i : Fin 32) (snap : InstallSnapshot) (w w' : World) : Prop where
  tables : Tables w'
  only : Only i w w'
  full : snap.existed = true ∨ snap.trampolineSlot = -1 → Filled w → Filled w'
  gone : snap.existed = false → ¬ (w'.probe i).live
  back : snap.existed = true → (w'.probe i).probeId = (w.probe i).probeId ∧
    (w'.probe i).state = snap.state ∧
    (w'.probe i).trampolineSlot = snap.trampolineSlot ∧
      (w'.probe i).trampolineAddr = snap.trampolineAddr

theorem undoneTrans {snap w'} (h : Moved i w w')
    (id : (w'.probe i).probeId = (w.probe i).probeId) {w''}
    (undone : Undone i snap w' w'') : Undone i snap w w'' :=
  ⟨undone.tables,onlyTrans h.only undone.only,fun ok full => undone.full ok (h.full full),
    undone.gone,
    fun existed => ⟨(undone.back existed).1.trans id,(undone.back existed).2⟩⟩

/- The end of a rollback, on an entry whose slot is that of the snapshot. -/
theorem restored {s : InstallSnapshot} (h : Tables w) (live : (w.probe i).live)
    (slot : s.trampolineSlot = (w.probe i).trampolineSlot)
    (addr : s.trampolineAddr = (w.probe i).trampolineAddr) :
    Undone i s w (if s.existed then w.setProbe i (restoredProbe (w.probe i) s)
      else (unregister w (w.probe i).probeId).1) := by
  cases existed : s.existed with
  | true =>
    have moved : Moved i w (w.setProbe i (restoredProbe (w.probe i) s)) :=
      movedEdit h live rfl rfl rfl rfl rfl slot addr
    have here := setProbeHere w i (restoredProbe (w.probe i) s)
    refine ⟨movedTables moved,moved.only,fun _ => moved.full,fun bad => by simp [existed] at bad,
      fun _ => ?_⟩
    simp only [if_true,here]
    exact ⟨rfl,rfl,rfl,rfl⟩
  | false =>
    obtain ⟨tables,only,full⟩ := forgottenTables h live
    have gone : ¬ ((forgottenWorld w i).probe i).live := by
      simp [forgottenWorld,World.probe,Probe.live,Probe.zero]
    simp only [Bool.false_eq_true,if_false,unregisterIt h.entries live]
    refine ⟨tables,only,fun kept => ?_,fun _ => gone,fun bad => by simp [existed] at bad⟩
    rcases kept with bad | slotless
    · simp [existed] at bad
    · exact full (slot.symm.trans slotless)

theorem rolledBack {snap : InstallSnapshot} (h : Tables w) (live : (w.probe i).live)
    (backed : Backed snap (w.probe i)) :
    Undone i snap w (rollbackProbeInstall w i snap o) := by
  unfold rollbackProbeInstall
  by_cases got : (w.probe i).trampolineAddr ≠ 0 ∧ (w.probe i).trampolineAddr ≠ snap.trampolineAddr
  · obtain ⟨moved,cleared⟩ := @releaseMoved w o i h live
    have id : ((releaseSlot w i o).probe i).probeId = (w.probe i).probeId := by rw [cleared]; rfl
    have slotless := backed.slot.resolve_left fun same => got.2 same.2.symm
    have undone := restored (s := snap) (movedTables moved) (by rw [Probe.live,id]; exact live)
      (by rw [cleared]; exact slotless.1) (by rw [cleared]; exact slotless.2)
    rw [id] at undone
    simp only [if_pos got]
    exact undoneTrans moved id undone
  · have same : snap.trampolineSlot = (w.probe i).trampolineSlot ∧
      snap.trampolineAddr = (w.probe i).trampolineAddr := by
      rcases backed.slot with same | none_
      · exact same
      · rcases h.own.placed i live with ⟨slotless,zero⟩ | ⟨s,_,addr,open_,_⟩
        · exact ⟨none_.1.trans slotless.symm,none_.2.trans zero.symm⟩
        · have alive : (w.probe i).trampolineAddr ≠ 0 := by
            rw [addr]; exact slotAddrLive (h.own.mapped open_) s
          exact absurd ⟨alive,by rw [none_.2]; exact alive⟩ got
    simp only [if_neg got]
    exact restored h live same.1 same.2

/-! An install, from the registered entry on. -/

structure Taken (snap : InstallSnapshot) (p : Probe) : Prop where
  idle : Probe.idle p
  state : snap.state = p.state
  slot : snap.trampolineSlot = p.trampolineSlot ∧ snap.trampolineAddr = p.trampolineAddr

structure Tried (i : Fin 32) (snap : InstallSnapshot) (w : World) (r : World × Bool) : Prop where
  tables : Tables r.1
  only : Only i w r.1
  full : snap.existed = true ∨ snap.trampolineSlot = -1 ∨ r.2 = true → Filled w → Filled r.1
  calm : (r.1.probe i).live → (r.1.probe i).state ≠ .prepared
  gone : r.2 = false → snap.existed = false → ¬ (r.1.probe i).live
  same : snap.existed = true ∨ r.2 = true → (r.1.probe i).probeId = (w.probe i).probeId
  kept : (r.1.probe i).live → snap.trampolineSlot ≠ -1 →
    (r.1.probe i).trampolineSlot = snap.trampolineSlot ∧
      (r.1.probe i).trampolineAddr = snap.trampolineAddr

theorem undoneTried {snap w'} (calm : snap.state ≠ .prepared) (undone : Undone i snap w w') :
    Tried i snap w (w',false) where
  tables := undone.tables
  only := undone.only
  full ok := undone.full (ok.imp_right fun rest => rest.resolve_right (by simp))
  calm live := by
    cases existed : snap.existed with
    | false => exact absurd live (undone.gone existed)
    | true => exact (undone.back existed).2.1.trans_ne calm
  gone _ := undone.gone
  same ok := (undone.back (ok.resolve_right (by simp))).1
  kept live _ := by
    cases existed : snap.existed with
    | false => exact absurd live (undone.gone existed)
    | true => exact (undone.back existed).2.2

theorem slottedSlot {mmap} (h : Tables w) (live : (w.probe i).live)
    (idle : (w.probe i).state ≠ .installed) :
    ((slottedWorld w i mmap).probe i).trampolineSlot = (w.probe i).trampolineSlot ∧
      ((slottedWorld w i mmap).probe i).trampolineAddr = (w.probe i).trampolineAddr ∨
    (w.probe i).trampolineSlot = -1 ∧ (w.probe i).trampolineAddr = 0 := by
  rcases (allocProbe (@allocated _ _ mmap (ownsIdle h live idle))).2.2 with same | none_
  · rw [slottedHere,same]
    exact .inl ⟨rfl,rfl⟩
  · rcases h.own.placed i live with slotless | ⟨s,slot,_⟩
    · exact .inr slotless
    · rw [slot,slotValidNat] at none_
      cases none_

theorem installTried {snap} (h : Tables w) (maps : Maps o) (live : (w.probe i).live)
    (taken : Taken snap (w.probe i)) :
    Tried i snap w (installRegistered isa disasm w i snap o) := by
  have calm : snap.state ≠ .prepared := taken.state.trans_ne taken.idle.1
  have owns := ownsIdle h live taken.idle.2
  have got := @installing isa disasm w o i snap h.entries owns live taken.idle
  -- The entry with its prologue saved and a slot asked for.
  have asked : ∀ len, let w' := slottedWorld (savedWorld w i len) i o.mmap
      Moved i w w' ∧ (w'.probe i).probeId = (w.probe i).probeId ∧ Backed snap (w'.probe i) ∧
      ∀ addr, (poolAlloc w.runtime.pool (savedProbe (w.probe i) w.text len) o.mmap).2.2 =
        some addr →
        addr = (w'.probe i).trampolineAddr := by
    intro len
    have saved := @savedMoved w i len h live
    have here : (savedWorld w i len).probe i = savedProbe (w.probe i) w.text len := savedHere
    have alive : ((savedWorld w i len).probe i).live := by rw [here]; exact live
    have idle : ((savedWorld w i len).probe i).state ≠ .installed := by simp [here,savedProbe]
    have slotted := @slottedMoved _ o i (movedTables saved) maps alive idle
    have probe := @slottedProbe _ i o.mmap (ownsIdle (movedTables saved) alive idle)
    refine ⟨movedTrans saved slotted,?_,⟨calm,?_⟩,fun addr got => ?_⟩
    · rw [probe,here]; rfl
    · have slot := @slottedSlot _ i o.mmap (movedTables saved) alive idle
      rw [here] at slot
      rcases slot with ⟨same,at_⟩ | slotless
      · exact .inl ⟨taken.slot.1.trans same.symm,taken.slot.2.trans at_.symm⟩
      · exact .inr ⟨taken.slot.1.trans slotless.1,taken.slot.2.trans slotless.2⟩
    · have owned := ownsIdle (movedTables saved) alive idle
      rw [slottedHere,here]
      rw [here] at owned
      exact ((allocProbe (@allocated _ _ o.mmap owned)).2.1 addr got).1
  generalize installRegistered isa disasm w i snap o = r at got
  cases got with
  | unread => exact undoneTried calm (rolledBack h live ⟨calm,.inl taken.slot⟩)
  | @undone len span fits =>
    obtain ⟨moved,id,backed,_⟩ := asked len
    exact undoneTried calm
      (undoneTrans moved id
      (rolledBack (movedTables moved) (by rw [Probe.live,id]; exact live) backed))
  | @done len addr span fits long slot =>
    obtain ⟨moved,id,backed,got⟩ := asked len
    have target := got addr slot
    have patched : Moved i w
        (patchedWorld isa (slottedWorld (savedWorld w i len) i o.mmap) i addr) :=
      movedTrans moved (movedEdit (movedTables moved) (by rw [Probe.live,id]; exact live) rfl rfl
        rfl rfl rfl rfl target)
    have here : (patchedWorld isa (slottedWorld (savedWorld w i len) i o.mmap) i addr).probe i =
        { (slottedWorld (savedWorld w i len) i o.mmap).probe i
          with trampolineAddr := addr, state := .installed } := by
      simp [patchedWorld,World.setProbe,World.probe]
    refine ⟨movedTables patched,patched.only,fun _ => patched.full,fun _ => ?_,
      fun bad => absurd bad (by simp),fun _ => ?_,?_⟩
    · rw [here]
      simp
    · rw [here]
      exact id
    · intro _ has
      rw [here]
      rcases backed.slot with same | ⟨none_,_⟩
      · exact ⟨same.1.symm,target.trans same.2.symm⟩
      · exact absurd none_ has

structure Completes (isa : Isa) (disasm : Disassembler) (pool : Pool) (text : Memory) (p : Probe)
    (o : Outcome) : Prop where
  read : o.readCode = true
  span : ∃ len, entrySpan isa disasm o.disasmOpen text p.target.remoteAddr = some len ∧
    len ≤ probeOrigCodeMax
  slot : Reserves pool p o.mmap
  code : o.build = true ∧ o.writeTrampoline = true
  patch : o.safe = true ∧ p.target.remoteAddr ≠ 0 ∧ o.writePatch = true

theorem spanOfLong {minLen total sizes n} (found : spanOf minLen total sizes = some n) : minLen ≤
    n := by
  induction sizes generalizing total with
  | nil => cases found
  | cons size sizes ih =>
    simp only [spanOf] at found
    split at found
    · next long => exact Option.some.inj found ▸ long
    · exact ih found

theorem spanLong {opened text addr len} (found : entrySpan isa disasm opened text addr = some len) :
    probePatchLen isa ≤ len := by
  unfold entrySpan calcPatchSpan at found
  split at found
  · cases found
  · cases isa with
    | x86_64 =>
      dsimp only at found
      split at found
      · exact spanOfLong found
      · cases found
    | aarch64 =>
      dsimp only at found
      split at found
      · cases found
      · rw [← Option.some.inj found]
        decide

theorem enableRuns (h : Entries w.session) (live : (w.probe i).live)
    (idle : Probe.idle (w.probe i)) :
    (∃ len, entrySpan isa disasm o.disasmOpen w.text (w.probe i).target.remoteAddr = some len ∧
      len ≤ probeOrigCodeMax ∧
      o.readCode = true ∧ enableProbe isa disasm w (w.probe i).probeId o =
        (savedWorld w i len,true)) ∨
    ¬ (o.readCode = true ∧
      ∃ len, entrySpan isa disasm o.disasmOpen w.text (w.probe i).target.remoteAddr = some len ∧
      len ≤ probeOrigCodeMax) ∧ enableProbe isa disasm w (w.probe i).probeId o = (w,false) := by
  have fresh : ¬ ((w.probe i).state = .prepared ∨ (w.probe i).state = .installed) :=
    fun now => now.elim idle.1 idle.2
  unfold enableProbe
  rw [findLive h live]
  dsimp only
  rw [if_neg fresh]
  cases read : o.readCode with
  | false => exact .inr ⟨fun bad => by simp at bad,rfl⟩
  | true =>
    cases span : entrySpan isa disasm o.disasmOpen w.text (w.probe i).target.remoteAddr with
    | none => exact .inr ⟨fun bad => by simp at bad,rfl⟩
    | some len =>
      by_cases fits : probeOrigCodeMax < len
      · refine .inr ⟨fun bad => ?_,by simp [fits]⟩
        obtain ⟨_,n,same,short⟩ := bad
        cases same
        omega
      · exact .inl ⟨len,rfl,Nat.le_of_not_lt fits,rfl,by simp [fits,savedWorld]⟩

theorem patchRuns {target} (h : Entries w.session) (live : (w.probe i).live) (alive : target ≠ 0)
    (ready : (w.probe i).state = .prepared) (long : probePatchLen isa ≤ (w.probe i).origLen) :
    (installProbePatch isa w (w.probe i).probeId target o).2 = true ↔
      o.safe = true ∧ (w.probe i).target.remoteAddr ≠ 0 ∧ o.writePatch = true := by
  have able : ¬ ((w.probe i).state ≠ .prepared ∨ (w.probe i).origLen < probePatchLen isa) :=
    fun bad => bad.elim (fun not_ => not_ ready) (Nat.not_lt.mpr long)
  unfold installProbePatch
  rw [if_neg alive,findLive h live]
  dsimp only
  rw [if_neg able]
  cases safe : o.safe with
  | false => simp
  | true =>
    by_cases zero : (w.probe i).target.remoteAddr = 0
    · simp [archInstallJump,zero]
    · cases patched : o.writePatch with
      | false => simp [archInstallJump,zero,alive,patched]
      | true => simp [archInstallJump,zero,alive,patched]

theorem installRuns {snap} (h : Tables w) (maps : Maps o) (live : (w.probe i).live)
    (idle : Probe.idle (w.probe i)) :
    (installRegistered isa disasm w i snap o).2 = true ↔
      Completes isa disasm w.runtime.pool w.text (w.probe i) o := by
  unfold installRegistered
  rcases @enableRuns isa disasm w o i h.entries live idle with ⟨len,span,fits,read,saved⟩
    | ⟨bad,failed⟩
  · have here : (savedWorld w i len).probe i = savedProbe (w.probe i) w.text len := savedHere
    have moved := @savedMoved w i len h live
    have alive : ((savedWorld w i len).probe i).live := by rw [here]; exact live
    have off : ((savedWorld w i len).probe i).state ≠ .installed := by simp [here,savedProbe]
    have reserves : (poolAlloc (savedWorld w i len).runtime.pool ((savedWorld w i len).probe i)
        o.mmap).2.2.isSome = true ↔
        Reserves w.runtime.pool (w.probe i) o.mmap := by
      rw [here]
      exact allocSome (i := i) h.own maps live rfl rfl
    have slotted := @slottedMoved _ o i (movedTables moved) maps alive off
    have owned := ownsIdle (movedTables moved) alive off
    have probe := @slottedProbe _ i o.mmap owned
    simp only [saved]
    cases answer : (poolAlloc (savedWorld w i len).runtime.pool ((savedWorld w i len).probe i)
      o.mmap).2.2 with
    | none =>
      rw [answer] at reserves
      exact ⟨fun ok => absurd ok (by simp),fun ok => absurd (reserves.mpr ok.slot) (by simp)⟩
    | some addr =>
      have slot : Reserves w.runtime.pool (w.probe i) o.mmap := reserves.mp (by rw [answer]; rfl)
      have target := (allocProbe (@allocated _ _ o.mmap owned)).2.1 addr answer
      have patch : (installProbePatch isa (slottedWorld (savedWorld w i len) i o.mmap)
          (w.probe i).probeId addr o).2 = true ↔
          o.safe = true ∧ (w.probe i).target.remoteAddr ≠ 0 ∧ o.writePatch = true := by
        have run := @patchRuns isa (slottedWorld (savedWorld w i len) i o.mmap) o i addr
            slotted.entries
          (by rw [Probe.live,probe]; exact alive) target.2 (by rw [probe,here]; rfl)
            (by rw [probe,here]; exact spanLong span)
        rw [probe,here] at run
        exact run
      dsimp only
      cases build : o.build with
      | false => exact ⟨fun ok => absurd ok (by simp),
          fun ok => absurd (build.symm.trans ok.code.1) (by simp)⟩
      | true =>
        cases wrote : o.writeTrampoline with
        | false => exact ⟨fun ok => absurd ok (by simp),
            fun ok => absurd (wrote.symm.trans ok.code.2) (by simp)⟩
        | true =>
          have done : Completes isa disasm w.runtime.pool w.text (w.probe i) o ↔
              o.safe = true ∧ (w.probe i).target.remoteAddr ≠ 0 ∧ o.writePatch = true :=
            ⟨fun ok => ok.patch,fun ok => ⟨read,⟨len,span,fits⟩,slot,⟨build,wrote⟩,ok⟩⟩
          refine Iff.trans ?_ (patch.trans done.symm)
          simp only [Bool.not_true,Bool.false_eq_true,if_false,slottedWorld,World.probe]
          generalize installProbePatch isa _ (w.session.probes i).probeId addr o = r
          obtain ⟨w',ok⟩ := r
          cases ok <;> simp
  · simp only [failed]
    exact ⟨fun ok => by simp at ok,fun ok => absurd ⟨ok.read,ok.span⟩ bad⟩

/- Names are compared whole but kept cut to sixty-three characters: a longer name is not
found by the first look at the table, and the second may find a probe that is there. -/
inductive Registered (s : Session) (name : Name) (lookup : Option (Name × Nat)) :
    Session × Option (Fin 32) → Prop where
  | refused : Registered s name lookup (s,none)
  | named {k : Fin 32} (found : probeFindBySymbol s name = some k) :
      Registered s name lookup (s,some k)
  | cut {k : Fin 32} (absent : probeFindBySymbol s name = none) (looked : lookup ≠ none)
      (found : probeFindBySymbol s (name.take (probeSymbolMax - 1)) = some k) :
        Registered s name lookup (s,some k)
  | fresh {k : Fin 32} {path addr} (absent : probeFindBySymbol s name = none)
      (free : (s.probes k).probeId = 0)
      (new : ∀ j, (s.probes j).live → (s.probes j).target.symbol ≠ name.take (probeSymbolMax - 1)) :
      Registered s name lookup
        ({ s.set k (freshProbe (takeProbeId s.nextProbeId).1 ⟨name.take (probeSymbolMax - 1),path,
          addr⟩) with
          nextProbeId := (takeProbeId s.nextProbeId).2, probeCount := s.probeCount + 1 },some k)

theorem registered (s name lookup) : Registered s name lookup (registerProbe s name lookup) := by
  unfold registerProbe
  split
  · next i found => exact .named found
  · next absent =>
    split
    · exact .refused
    · next target resolved =>
      obtain ⟨found,look,rfl⟩ := Option.map_eq_some_iff.mp resolved
      unfold probeAlloc
      split
      · exact .refused
      · split
        · next i known => exact .cut absent (by simp [look]) known
        · next cut =>
          split
          · exact .refused
          · next i free => exact .fresh absent (freeSome free) (fun j live =>
              findBySymbolNone cut live)

/- The entry is registered, and it is not the wrong one. -/
def Sure (isa : Isa) (disasm : Disassembler) (w : World) (name : Name) (o : Outcome) : Prop :=
  ∀ i, probeFindBySymbol w.session name = none → o.lookup ≠ none →
    probeFindBySymbol w.session (name.take (probeSymbolMax - 1)) = some i →
      (w.probe i).state ≠ .installed →
      Completes isa disasm w.runtime.pool w.text (w.probe i) o

structure Rests (w : World) : Prop where
  tables : Tables w
  calm : ∀ j, (w.probe j).live → (w.probe j).state ≠ .prepared
  closed : w.status = .inactive → ∀ j, ¬ (w.probe j).live

def SameSlot (p q : Probe) : Prop :=
  q.probeId = p.probeId ∧ q.trampolineSlot = p.trampolineSlot ∧ q.trampolineAddr = p.trampolineAddr

structure Named (isa : Isa) (disasm : Disassembler) (w : World) (name : Name) (o : Outcome)
    (r : World × Bool) : Prop where
  tables : Tables r.1
  calm : ∀ j, (r.1.probe j).live → (r.1.probe j).state ≠ .prepared
  status : r.1.status = w.status
  full : Sure isa disasm w name o → Filled w → Filled r.1
  none : r.2 = false → (∀ j, ¬ (w.probe j).live) → ∀ j, ¬ (r.1.probe j).live
  kept : ∀ i, probeFindBySymbol w.session name = some i → ∀ j, (w.probe j).live →
    (w.probe j).trampolineSlot ≠ -1 →
    SameSlot (w.probe j) (r.1.probe j)

theorem knownTried {filter existed} (h : Tables w)
    (calm : ∀ j, (w.probe j).live → (w.probe j).state ≠ .prepared)
    (maps : Maps o) (live : (w.probe i).live) (idle : (w.probe i).state ≠ .installed) :
    let snap := captureProbeInstallSnapshot (w.probe i) existed
    let w' := w.setProbe i (setProbeFilter (w.probe i) filter)
    Moved i w w' ∧ Tried i snap w' (installRegistered isa disasm w' i snap o) ∧
      ((installRegistered isa disasm w' i snap o).2 = true ↔
        Completes isa disasm w.runtime.pool w.text (w.probe i) o) := by
  dsimp only
  have here := setProbeHere w i (setProbeFilter (w.probe i) filter)
  have moved : Moved i w (w.setProbe i (setProbeFilter (w.probe i) filter)) :=
    movedEdit h live rfl rfl rfl rfl rfl rfl rfl
  have alive : ((w.setProbe i (setProbeFilter (w.probe i) filter)).probe i).live := by
    rw [here]; exact live
  have idle' : Probe.idle ((w.setProbe i (setProbeFilter (w.probe i) filter)).probe i) := by
    rw [here]
    exact ⟨calm i live,idle⟩
  refine ⟨moved,installTried (movedTables moved) maps alive ⟨idle',?_,?_⟩,?_⟩
  · rw [here]; rfl
  · rw [here]; exact ⟨rfl,rfl⟩
  · refine (installRuns (movedTables moved) maps alive idle').trans ?_
    rw [here]
    exact ⟨fun ok => ⟨ok.read,ok.span,ok.slot,ok.code,ok.patch⟩,
      fun ok => ⟨ok.read,ok.span,ok.slot,ok.code,ok.patch⟩⟩

/- Tracing an installed probe again only gives it another filter. -/
theorem editedNamed {name} {filter : Option ProbeFilter} (h : Tables w)
    (calm : ∀ j, (w.probe j).live → (w.probe j).state ≠ .prepared) (live : (w.probe i).live) :
    Named isa disasm w name o (w.setProbe i (setProbeFilter (w.probe i) filter),true) := by
  have moved : Moved i w (w.setProbe i (setProbeFilter (w.probe i) filter)) :=
    movedEdit h live rfl rfl rfl rfl rfl rfl rfl
  have here := setProbeHere w i (setProbeFilter (w.probe i) filter)
  refine ⟨movedTables moved,fun j now => ?_,rfl,fun _ => moved.full,
    fun bad => absurd bad (by simp),?_⟩
  · by_cases same : j = i
    · subst same; rw [here]; exact calm j live
    · rw [moved.only.others j same] at now ⊢; exact calm j now
  · intro _ _ j _ _
    by_cases same : j = i
    · subst same; rw [here]; exact ⟨rfl,rfl,rfl⟩
    · rw [moved.only.others j same]; exact ⟨rfl,rfl,rfl⟩

theorem registeredTables {s' name} (h : Tables w)
    (calm : ∀ j, (w.probe j).live → (w.probe j).state ≠ .prepared)
    (got : Registered w.session name o.lookup (s',some i)) :
    Tables { w with session := s' } ∧ (s'.probes i).live ∧ Only i w { w with session := s' } ∧
      (Filled w → Filled { w with session := s' }) ∧
      ∀ j, (s'.probes j).live → (s'.probes j).state ≠ .prepared := by
  cases got with
  | named found => exact ⟨h,(findBySymbolSome found).1,onlyRefl,fun full => full,calm⟩
  | cut absent looked found => exact ⟨h,(findBySymbolSome found).1,onlyRefl,fun full => full,calm⟩
  | @fresh _ path addr absent free new =>
    have id := freshId h.entries
    rw [id]
    have entries := @entriesFresh w.session i ⟨name.take (probeSymbolMax - 1),path,addr⟩ h.entries
        free new
    have dead : ¬ (w.probe i).live := fun now => now free
    refine ⟨⟨entries,ownChanged h.own fun _ => .inr ⟨rfl,rfl⟩⟩,?_,onlyUpdate rfl rfl,
      fun full => ?_,?_⟩
    · simp only [setSame]
      exact Nat.pos_iff_ne_zero.mp h.entries.below.1
    · exact fullChanged full fun now => absurd now dead
    · intro j now
      by_cases here : j = i
      · subst here
        simp [freshProbe]
      · simp only [setOther _ _ here] at now ⊢
        exact calm j now

theorem tracedNamed (h : Tables w) (calm : ∀ j, (w.probe j).live → (w.probe j).state ≠ .prepared)
    (maps : Maps o)
    (name : Name) (filter : Option ProbeFilter) :
    Named isa disasm w name o (installProbe isa disasm w name filter o) := by
  have got := registered w.session name o.lookup
  unfold installProbe
  dsimp only
  generalize registerProbe w.session name o.lookup = reg at got
  obtain ⟨s',found⟩ := reg
  cases found with
  | none =>
    cases got
    exact ⟨h,calm,rfl,fun _ full => full,fun _ none_ => none_,fun _ _ _ _ _ => ⟨rfl,rfl,rfl⟩⟩
  | some i =>
    obtain ⟨tables,live,only,full,calm'⟩ := registeredTables h calm got
    dsimp only
    split
    · next installed =>
      have old : s' = w.session := by
        cases got with
        | named | cut => rfl
        | fresh => simp [freshProbe] at installed
      subst old
      split
      · exact editedNamed h calm live
      · exact ⟨h,calm,rfl,fun _ full => full,fun bad => absurd bad (by simp),
          fun _ _ _ _ _ => ⟨rfl,rfl,rfl⟩⟩
    · next off =>
      obtain ⟨moved,tried,runs⟩ := @knownTried isa disasm { w with session := s' } o i filter
        (probeFindBySymbol w.session name).isSome tables calm' maps live off
      have only' := onlyTrans only (onlyTrans moved.only tried.only)
      refine ⟨tried.tables,fun j now => ?_,only'.status,fun sure filled => ?_,
        fun failed none_ j now => ?_,?_⟩
      · by_cases same : j = i
        · subst same; exact tried.calm now
        · rw [only'.others j same] at now ⊢; exact calm j now
      · refine tried.full ?_ (moved.full (full filled))
        cases got with
        | named found => exact .inl (by simp [captureProbeInstallSnapshot,found])
        | cut absent looked found => exact .inr (.inr (runs.mpr (sure i absent looked found off)))
        | fresh => exact .inr (.inl (by simp [captureProbeInstallSnapshot,World.probe,freshProbe]))
      · have absent : probeFindBySymbol w.session name = none := by
          cases got with
          | named found => exact absurd (findBySymbolSome found).1 (none_ _)
          | cut absent | fresh absent => exact absent
        by_cases same : j = i
        · subst same
          exact tried.gone failed (by simp [captureProbeInstallSnapshot,absent]) now
        · rw [only'.others j same] at now
          exact none_ j now
      · intro k known j now has
        by_cases same : j = i
        · subst same
          have existed : (probeFindBySymbol w.session name).isSome = true := by rw [known]; rfl
          have old : s' = w.session := by
            cases got with
            | named | cut => rfl
            | fresh absent => rw [known] at absent; cases absent
          subst old
          have filtered : ((w.setProbe j (setProbeFilter (w.probe j) filter)).probe j).probeId =
              (w.probe j).probeId := by
            simp [World.setProbe,World.probe,setProbeFilter]
          have id := (tried.same (.inl existed)).trans filtered
          exact ⟨id,tried.kept (id.trans_ne now) has⟩
        · rw [only'.others j same]
          exact ⟨rfl,rfl,rfl⟩

/- The tables after an operation; if `ok`, every slot in use has an owner as before. -/
structure Lands (ok : Prop) (w w' : World) : Prop where
  rests : Rests w'
  full : ok → Filled w → Filled w'

theorem landsTrans {a b : Prop} {w' w''} (first : Lands a w w')
    (second : Rests w' → Lands b w' w'') : Lands (a ∧ b) w w'' :=
  ⟨(second first.rests).rests,fun ok full => (second first.rests).full ok.2 (first.full ok.1 full)⟩

theorem landsWeaken {a b : Prop} {w'} (h : Lands a w w') (weaker : b → a) : Lands b w w' :=
  ⟨h.rests,fun ok => h.full (weaker ok)⟩

theorem landsSame {w' : World} (h : Rests w) (session : w'.session = w.session)
    (pool : w'.runtime.pool = w.runtime.pool)
    (active : w'.status = .inactive → w.status = .inactive) : Lands True w w' := by
  have same : ∀ j, w'.probe j = w.probe j := fun j => by rw [World.probe,session]
  refine ⟨⟨⟨by rw [session]; exact h.tables.entries,by rw [session,pool]; exact h.tables.own⟩,?_,
    ?_⟩,fun _ full => ?_⟩
  · intro j live
    rw [same j] at live ⊢
    exact h.calm j live
  · intro inactive j
    rw [same j]
    exact h.closed (active inactive) j
  · rw [Filled,session,pool]; exact full

theorem stopLands (h : Rests w) : Lands True w (ensureStopped w o).1 := by
  unfold ensureStopped
  split
  · exact landsSame h rfl rfl id
  · exact landsSame h rfl rfl id
  · split
    · exact landsSame h rfl rfl (fun bad => by simp at bad)
    · exact landsSame h rfl rfl id

theorem runLands (h : Rests w) : Lands True w (ensureRunning w o).1 := by
  unfold ensureRunning
  split
  · exact landsSame h rfl rfl id
  · exact landsSame h rfl rfl id
  · split
    · exact landsSame h rfl rfl (fun bad => by simp at bad)
    · exact landsSame h rfl rfl id

theorem movedLands {w'} (h : Rests w) (moved : Moved i w w') (live : (w.probe i).live)
    (calm : (w'.probe i).state ≠ .prepared) :
    Lands True w w' := by
  refine ⟨⟨movedTables moved,fun j now => ?_,fun inactive => ?_⟩,fun _ => moved.full⟩
  · by_cases same : j = i
    · subst same; exact calm
    · rw [moved.only.others j same] at now ⊢; exact h.calm j now
  · exact absurd live (h.closed (moved.only.status.symm.trans inactive) i)

theorem uninstallLands {id} (h : Rests w) (found : probeFindById w.session id = some i) :
    Lands True w (uninstallProbePatch w id o).1 ∧ (uninstallProbePatch w id o).1.status = w.status ∧
      ((uninstallProbePatch w id o).1.probe i).probeId = id := by
  obtain ⟨nonzero,mine⟩ := findByIdSome found
  have live : (w.probe i).live := fun zero => nonzero (mine.symm.trans zero)
  rcases uninstallRuns found o with ⟨_,done⟩ | ⟨_,failed⟩
  · rw [done]
    have here := unpatchedHere w i
    refine ⟨movedLands h (movedEdit h.tables live rfl rfl rfl rfl rfl rfl rfl) live
      (by rw [here]; simp),rfl,?_⟩
    rw [here]
    exact mine
  · rw [failed]
    exact ⟨landsSame h rfl rfl (fun same => same),rfl,mine⟩

theorem retireLands (h : Tables w) (live : (w.probe i).live) :
    ∃ w', unregister (releaseSlot w i o) (w.probe i).probeId = (w',true) ∧ Tables w' ∧ Only i w w' ∧
      ¬ (w'.probe i).live ∧ (Filled w → Filled w') := by
  obtain ⟨moved,cleared⟩ := @releaseMoved w o i h live
  have id : ((releaseSlot w i o).probe i).probeId = (w.probe i).probeId := by rw [cleared]; rfl
  have alive : ((releaseSlot w i o).probe i).live := by rw [Probe.live,id]; exact live
  obtain ⟨tables,only,full⟩ := forgottenTables (movedTables moved) alive
  refine ⟨_,by rw [← id]; exact unregisterIt moved.entries alive,tables,onlyTrans moved.only only,
    ?_,?_⟩
  · simp [forgottenWorld,World.probe,Probe.live,Probe.zero]
  · intro filled
    exact full (by rw [cleared]; rfl) (moved.full filled)

theorem resetRests (entries : Entries w.session) (none_ : ∀ j, ¬ (w.probe j).live) (r : Runtime) :
    Rests (resetActive { w with runtime := r }) ∧ Filled (resetActive { w with runtime := r }) := by
  refine ⟨⟨⟨entries,fun bad => absurd rfl bad,fun j live => absurd live (none_ j),
    fun j _ _ live => absurd live (none_ j)⟩,
    fun j live => absurd live (none_ j),fun _ => none_⟩,
      fun s used => absurd used (by simp [resetActive,Runtime.zero,Pool.zero])⟩

theorem disableLands {id} (h : Rests w) : Lands True w (traceDisableProbe w id o).1 := by
  have same : Lands True w w := landsSame h rfl rfl (fun same => same)
  unfold traceDisableProbe
  split
  · exact same
  · split
    · exact same
    · next i found =>
      split
      · exact same
      · have stopped := @stopLands w o h
        have session := (@ProbeRules.stopQuiet w o).1
        generalize ensureStopped w o = r at stopped session ⊢
        obtain ⟨w',ok⟩ := r
        cases ok with
        | false => exact stopped
        | true =>
          have back := (@uninstallLands w' o i id stopped.rests (by rw [session]; exact found)).1
          dsimp only
          generalize uninstallProbePatch w' id o = r at back ⊢
          obtain ⟨w'',done⟩ := r
          cases done with
          | false => exact landsWeaken (landsTrans stopped fun _ => back) (fun _ =>
              ⟨trivial,trivial⟩)
          | true =>
            exact landsWeaken (landsTrans (landsTrans stopped fun _ => back) fun rests =>
              @runLands _ o rests)
              (fun _ => ⟨⟨trivial,trivial⟩,trivial⟩)

theorem sureSame {w' : World} {name} (session : w'.session = w.session)
    (pool : w'.runtime.pool = w.runtime.pool)
    (text : w'.text = w.text) (sure : Sure isa disasm w name o) : Sure isa disasm w' name o := by
  intro i absent looked found off
  rw [session] at absent found
  rw [World.probe,session] at off
  rw [pool,text,World.probe,session]
  exact sure i absent looked found off

theorem stopPool : (ensureStopped w o).1.runtime = w.runtime := by
  unfold ensureStopped
  split
  · rfl
  · rfl
  · split <;> rfl

theorem installActiveLands {name} (filter : Option ProbeFilter) (h : Rests w) (maps : Maps o) :
    Lands ((w.status = .running → o.interrupt = true) → Sure isa disasm w name o) w
      (installActiveProbe isa disasm w name filter o).1 := by
  unfold installActiveProbe
  have stopped := @stopLands w o h
  have quiet := @ProbeRules.stopQuiet w o
  have pool := @stopPool w o
  have status := @stoppedActive w o
  have reached : (ensureStopped w o).2 = true → w.status = .running → o.interrupt = true := by
    intro ok running
    by_contra bad
    simp [ensureStopped,running,bad] at ok
  generalize ensureStopped w o = r at stopped quiet pool status reached ⊢
  obtain ⟨w',ok⟩ := r
  cases ok with
  | false => exact landsWeaken stopped (fun _ => trivial)
  | true =>
    have named := @tracedNamed isa disasm w' o stopped.rests.tables stopped.rests.calm maps name
        filter
    dsimp only
    generalize installProbe isa disasm w' name filter o = r at named ⊢
    obtain ⟨w'',done⟩ := r
    have landed : Lands (Sure isa disasm w' name o) w' w'' := by
      refine ⟨⟨named.tables,named.calm,fun bad => ?_⟩,named.full⟩
      rw [named.status,status rfl] at bad
      cases bad
    have sure : ((w.status = .running → o.interrupt = true) → Sure isa disasm w name o) → Sure isa
        disasm w' name o :=
      fun all => sureSame quiet.1 (by rw [pool]) quiet.2.1 (all (reached rfl))
    cases done with
    | false => exact landsWeaken (landsTrans stopped fun _ => landed) (fun all =>
        ⟨trivial,sure all⟩)
    | true =>
      exact landsWeaken (landsTrans (landsTrans stopped fun _ => landed) fun rests =>
        @runLands _ o rests)
        (fun all => ⟨⟨trivial,sure all⟩,trivial⟩)

theorem findSymbolLive (live : (w.probe i).live) :
    probeFindBySymbol w.session (w.probe i).target.symbol ≠ none := by
  intro none_
  exact findBySymbolNone none_ live rfl

theorem enableLands {id} (h : Rests w) (maps : Maps o) :
    Lands True w (traceEnableProbe isa disasm w id o).1 := by
  have same : Lands True w w := landsSame h rfl rfl (fun same => same)
  unfold traceEnableProbe
  split
  · exact same
  · split
    · exact same
    · next i found =>
      obtain ⟨nonzero,mine⟩ := findByIdSome found
      have live : (w.probe i).live := fun zero => nonzero (mine.symm.trans zero)
      dsimp only
      split
      · exact same
      · refine landsWeaken (installActiveLands _ h maps) (fun _ _ => ?_)
        intro j absent
        exact absurd absent (findSymbolLive live)

theorem clearMoved (h : Tables w) (live : (w.probe i).live) :
    Moved i w (w.setProbe i (clearedAction (w.probe i))) := by
  have same := cleared (w.probe i)
  exact movedEdit h live rfl rfl rfl (by rw [same]) (by rw [same]) (by rw [same]) (by rw [same])

theorem removeLands {id} (h : Rests w) : Lands True w (traceRemoveProbe w id o).1 := by
  have same : Lands True w w := landsSame h rfl rfl (fun same => same)
  unfold traceRemoveProbe
  split
  · exact same
  · split
    · exact same
    · next i found =>
      obtain ⟨nonzero,mine⟩ := findByIdSome found
      have live : (w.probe i).live := fun zero => nonzero (mine.symm.trans zero)
      split
      · next inactive => exact absurd live (h.closed inactive i)
      · have stopped := @stopLands w o h
        have session := (@ProbeRules.stopQuiet w o).1
        have active := @stoppedActive w o
        generalize ensureStopped w o = r at stopped session active ⊢
        obtain ⟨w',ok⟩ := r
        cases ok with
        | false => exact stopped
        | true =>
          have back : Lands True w' (if (w'.session.probes i).state = .installed then
              uninstallProbePatch w' id o else (w',true)).1 ∧
              (if (w'.session.probes i).state = .installed then
                uninstallProbePatch w' id o else (w',true)).1.status = w'.status ∧
              ((if (w'.session.probes i).state = .installed then
                uninstallProbePatch w' id o else (w',true)).1.probe i).probeId =
                id := by
            have found' : probeFindById w'.session id = some i := by rw [session]; exact found
            split
            · exact uninstallLands stopped.rests found'
            · exact ⟨landsSame stopped.rests rfl rfl (fun same => same),rfl,(findByIdSome found').2⟩
          dsimp only
          generalize (if (w'.session.probes i).state = .installed then
            uninstallProbePatch w' id o else (w',true)) = r at back ⊢
          obtain ⟨w'',done⟩ := r
          obtain ⟨landed,status,id'⟩ := back
          dsimp only at landed status id'
          have uninstalled : Lands True w w'' :=
            landsWeaken (landsTrans stopped fun _ => landed) (fun _ => ⟨trivial,trivial⟩)
          cases done with
          | false => exact uninstalled
          | true =>
            have live'' : (w''.probe i).live := by rw [Probe.live,id']; exact nonzero
            have edited := clearMoved landed.rests.tables live''
            have here : ((w''.setProbe i (clearedAction (w''.probe i))).probe i).probeId = id := by
              rw [setProbeHere,ProbeRules.clearedId]
              exact id'
            obtain ⟨last,gone,tables,only,dead,full⟩ := @retireLands _ o i (movedTables edited)
              (by rw [Probe.live,here]; exact nonzero)
            rw [here] at gone
            dsimp only
            rw [show unregister
              (releaseSlot (w''.setProbe i (clearedAction (w''.session.probes i))) i o) id =
              _ from gone]
            have rested : Lands True w last := by
              have status' : last.status ≠ .inactive := by
                rw [only.status,edited.only.status,status,active rfl]
                decide
              refine ⟨⟨tables,fun j now => ?_,fun bad => absurd bad status'⟩,fun ok filled => ?_⟩
              · by_cases jj : j = i
                · subst jj; exact absurd now dead
                · rw [only.others j jj,edited.only.others j jj] at now ⊢
                  exact landed.rests.calm j now
              · exact full (edited.full (uninstalled.full ok filled))
            dsimp only
            split
            · next zero =>
              have none_ := noneRegistered tables.entries zero
              obtain ⟨rests,filled⟩ :=
                resetRests tables.entries none_ (cleanupRuntime last.runtime o).1
              exact ⟨rests,fun _ _ => filled⟩
            · exact landsWeaken (landsTrans rested fun rests => @runLands _ o rests)
                (fun _ => ⟨trivial,trivial⟩)

theorem stopProbeTables (h : Tables w) :
    Tables (stopProbe w i o).1 ∧ Only i w (stopProbe w i o).1 ∧
      ¬ ((stopProbe w i o).1.probe i).live := by
  unfold stopProbe
  dsimp only
  split
  · next dead => exact ⟨h,onlyRefl,fun now => now dead⟩
  · next live =>
    have back : Moved i w (if (w.session.probes i).state = .installed then
        uninstallProbePatch w (w.session.probes i).probeId o
          else (w,true)).1 ∧
        ((if (w.session.probes i).state = .installed then
          uninstallProbePatch w (w.session.probes i).probeId o
          else (w,true)).1.probe i).probeId = (w.probe i).probeId := by
      have still : Moved i w w := ⟨h.entries,h.own,onlyRefl,fun full => full⟩
      split
      · rcases uninstallRuns (findLive h.entries live) o with ⟨_,done⟩ | ⟨_,failed⟩
        · rw [done]
          exact ⟨movedEdit h live rfl rfl rfl rfl rfl rfl rfl,unpatchedId w i⟩
        · rw [failed]
          exact ⟨still,rfl⟩
      · exact ⟨still,rfl⟩
    generalize (if (w.session.probes i).state = .installed then
      uninstallProbePatch w (w.session.probes i).probeId o
      else (w,true)) = r at back ⊢
    obtain ⟨w',done⟩ := r
    obtain ⟨moved,id⟩ := back
    dsimp only at moved id
    obtain ⟨last,gone,tables,only,dead,_⟩ :=
      @retireLands w' o i (movedTables moved) (by rw [Probe.live,id]; exact live)
    rw [id] at gone
    rw [show unregister (releaseSlot w' i o) (w.session.probes i).probeId = _ from gone]
    exact ⟨tables,onlyTrans moved.only only,dead⟩

theorem stopProbesTables {each} (l : List (Fin 32)) (h : Tables w) :
    Tables (stopProbes w each l).1 ∧
    (∀ j, (w.probe j).live ∧ j ∉ l ∨ ¬ ((stopProbes w each l).1.probe j).live) := by
  induction l generalizing w with
  | nil =>
    refine ⟨h,fun j => ?_⟩
    by_cases live : (w.probe j).live
    · exact .inl ⟨live,by simp⟩
    · exact .inr live
  | cons i l ih =>
    obtain ⟨tables,only,dead⟩ := @stopProbeTables w (each i) i h
    obtain ⟨rest,all⟩ := ih tables
    refine ⟨rest,fun j => ?_⟩
    rcases all j with ⟨live,out⟩ | gone
    · have other : j ≠ i := fun same => dead (same ▸ live)
      rw [only.others j other] at live
      exact .inl ⟨live,by simp [other,out]⟩
    · exact .inr gone

theorem traceStopLands {each} (h : Rests w) : Lands True w (traceStop w o each).1 := by
  unfold traceStop
  split
  · exact landsSame h rfl rfl (fun same => same)
  · have stopped := @stopLands w o h
    generalize ensureStopped w o = r at stopped ⊢
    obtain ⟨w',ok⟩ := r
    cases ok with
    | false => exact stopped
    | true =>
      obtain ⟨tables,all⟩ := @stopProbesTables w' each (List.finRange 32) stopped.rests.tables
      dsimp only
      generalize stopProbes w' each (List.finRange 32) = r at tables all ⊢
      have none_ : ∀ j, ¬ (r.1.probe j).live := fun j => (all j).resolve_left fun bad =>
          bad.2 (List.mem_finRange j)
      obtain ⟨rests,filled⟩ := resetRests tables.entries none_ (cleanupRuntime r.1.runtime o).1
      exact ⟨rests,fun _ _ => filled⟩

theorem openedRests (h : Rests w) (inactive : w.status = .inactive) (setup : Runtime) :
    Rests (openedWorld w setup) ∧ Filled (openedWorld w setup) := by
  have none_ := h.closed inactive
  refine ⟨⟨⟨h.tables.entries,fun bad => absurd rfl bad,fun j live => absurd live (none_ j),
    fun j _ _ live => absurd live (none_ j)⟩,fun j live => absurd live (none_ j),fun _ => none_⟩,
      fun s used => ?_⟩
  exact absurd used (by simp [openedWorld,Pool.zero])

/- No probe is registered, so no name is taken for another. -/
theorem sureEmpty {name} (none_ : ∀ j, ¬ (w.probe j).live) : Sure isa disasm w name o := by
  intro i _ _ found
  exact absurd (findBySymbolSome found).1 (none_ i)

theorem startLands {name each} (filter : Option ProbeFilter) (h : Rests w) (maps : Maps o) :
    Lands ((w.status = .running → o.interrupt = true) → Sure isa disasm w name o) w
      (traceStart isa disasm w name filter o each).1 := by
  unfold traceStart
  split
  · exact installActiveLands filter h maps
  · next inactive =>
    have inactive : w.status = .inactive := not_not.mp inactive
    split
    · exact landsWeaken (landsSame h rfl rfl (fun same => same)) (fun _ => trivial)
    · obtain ⟨opened,filled⟩ := openedRests h inactive o.setup
      have none_ := opened.closed rfl
      have named := @tracedNamed isa disasm (openedWorld w o.setup) o opened.tables opened.calm maps
          name filter
      have full : ∀ {w'}, Lands True (openedWorld w o.setup) w' → Lands
          ((w.status = .running → o.interrupt = true) → Sure isa disasm w name o) w w' :=
        fun landed => ⟨landed.rests,fun _ _ => landed.full trivial filled⟩
      dsimp only
      split
      · exact full (landsSame opened rfl rfl (fun same => same))
      · simp only [openedWorld] at named
        generalize installProbe isa disasm _ name filter o = r at named ⊢
        obtain ⟨w',done⟩ := r
        have filled' : Filled w' := named.full (sureEmpty none_) filled
        cases done with
        | false =>
          have closed := named.none rfl none_
          have rests : Rests w' := ⟨named.tables,named.calm,fun _ => closed⟩
          have landed := @landsSame w' { w' with runtime := (cleanupRuntime w'.runtime o).1 } rests
              rfl rfl (fun same => same)
          exact ⟨landed.rests,fun _ _ => landed.full trivial filled'⟩
        | true =>
          have rests : Rests { w' with status := .stopped } :=
            ⟨⟨named.tables.entries,named.tables.own⟩,named.calm,fun bad => by cases bad⟩
          have running := @runLands _ o rests
          dsimp only
          generalize ensureRunning { w' with status := .stopped } o = r at running ⊢
          obtain ⟨w'',resumed⟩ := r
          cases resumed with
          | true => exact ⟨running.rests,fun _ _ => running.full trivial filled'⟩
          | false =>
            have stopped := @traceStopLands w'' o each running.rests
            exact ⟨stopped.rests,fun _ _ => stopped.full trivial (running.full trivial filled')⟩

/- No step takes a probe that is in the table for one that it has just added, and then
fails: such a name is longer than the table keeps, it was traced before and disabled. -/
def Unmistaken (isa : Isa) (disasm : Disassembler) (w : World) (c : Call) : Prop := match c.op with
  | .start name _ => (w.status = .running → c.outcome.interrupt = true) →
      Sure isa disasm w name c.outcome
  | _ => True

theorem callLands {c : Call} (h : Rests w) (maps : Maps c.outcome) :
    Lands (Unmistaken isa disasm w c) w (runOp isa disasm w c.op c.outcome c.each).1 := by
  unfold Unmistaken
  cases op : c.op with
  | start name filter => exact startLands filter h maps
  | enable id => exact enableLands h maps
  | disable id => exact disableLands h
  | remove id => exact removeLands h
  | shutdown =>
    simp only [runOp,traceShutdown]
    split
    · exact landsSame h rfl rfl (fun same => same)
    · exact traceStopLands h

theorem callsLand {calls : List Call} (h : Rests w) (maps : ∀ c ∈ calls, Maps c.outcome) :
    Rests (runCalls isa disasm w calls) ∧
      (EveryStep (Unmistaken isa disasm) isa disasm w calls → Filled w →
        Filled (runCalls isa disasm w calls)) := by
  induction calls generalizing w with
  | nil => exact ⟨h,fun _ full => full⟩
  | cons c calls ih =>
    have first := @callLands isa disasm w c h (maps c (.head _))
    obtain ⟨rests,full⟩ := ih first.rests fun d member => maps d (.tail _ member)
    exact ⟨rests,fun every filled => full every.2 (first.full every.1 filled)⟩

theorem initRests (text : Memory) : Rests (World.init text) ∧ Filled (World.init text) := by
  have settled := ProbeText.initSettled .aarch64 text (fun _ _ => True)
  have none_ := settled.closed rfl
  exact ⟨⟨⟨settled.sound.entries,fun bad => absurd rfl bad,fun j live => absurd live (none_ j),
    fun j _ _ live => absurd live (none_ j)⟩,fun j live => absurd live (none_ j),fun _ => none_⟩,
    fun s used => absurd used (by simp [World.init,Runtime.zero,Pool.zero])⟩

/-! A probe that is disabled and enabled again. -/

theorem disableSlots (id j) : SameSlot (w.probe j) ((traceDisableProbe w id o).1.probe j) := by
  have same : ∀ w' : World, w'.session = w.session → SameSlot (w.probe j) (w'.probe j) :=
    fun w' session => by
    simp only [World.probe,session]; exact ⟨rfl,rfl,rfl⟩
  unfold traceDisableProbe
  split
  · exact same w rfl
  · split
    · exact same w rfl
    · next i found =>
      split
      · exact same w rfl
      · have session := (@ProbeRules.stopQuiet w o).1
        generalize ensureStopped w o = r at session ⊢
        obtain ⟨w',ok⟩ := r
        cases ok with
        | false => exact same w' session
        | true =>
          dsimp only at session ⊢
          rcases uninstallRuns (show probeFindById w'.session id =
            some i by rw [session]; exact found) o with ⟨_,done⟩ | ⟨_,failed⟩
          · rw [done]
            simp only [World.probe,(@ProbeRules.runQuiet (unpatchedWorld w' i) o).1]
            by_cases here : j = i
            · subst here
              simp only [unpatchedWorld,World.setProbe,setSame]
              exact same w' session
            · simp only [unpatchedWorld,World.setProbe,setOther _ _ here]
              exact same w' session
          · rw [failed]
            exact same w' session

theorem enableSlots {id j} (h : Rests w) (maps : Maps o) (live : (w.probe j).live)
    (has : (w.probe j).trampolineSlot ≠ -1) :
    SameSlot (w.probe j) ((traceEnableProbe isa disasm w id o).1.probe j) := by
  have still : SameSlot (w.probe j) (w.probe j) := ⟨rfl,rfl,rfl⟩
  unfold traceEnableProbe
  split
  · exact still
  · split
    · exact still
    · next i found =>
      obtain ⟨nonzero,mine⟩ := findByIdSome found
      have alive : (w.probe i).live := fun zero => nonzero (mine.symm.trans zero)
      dsimp only
      split
      · exact still
      · obtain ⟨k,known⟩ := Option.ne_none_iff_exists'.mp (findSymbolLive alive)
        unfold installActiveProbe
        have stopped := @stopLands w o h
        have session := (@ProbeRules.stopQuiet w o).1
        generalize ensureStopped w o = r at stopped session ⊢
        obtain ⟨w',ok⟩ := r
        have at_ : w'.probe j = w.probe j := by rw [World.probe,session]
        cases ok with
        | false => dsimp only; rw [at_]; exact still
        | true =>
          have named := @tracedNamed isa disasm w' o stopped.rests.tables stopped.rests.calm maps
            (w.probe i).target.symbol (some (w.probe i).filter)
          have kept := named.kept k (by rw [session]; exact known) j (by rw [at_]; exact live)
              (by rw [at_]; exact has)
          dsimp only
          generalize installProbe isa disasm w' (w.probe i).target.symbol (some (w.probe i).filter)
            o = r at kept ⊢
          obtain ⟨w'',done⟩ := r
          rw [at_] at kept
          cases done with
          | false => exact kept
          | true =>
            simp only [World.probe,(@ProbeRules.runQuiet w'' o).1]
            exact kept

/-! What holds of the pool after every run. -/

def poolNow (w : World) : Pool := if w.status = .inactive then .zero else w.runtime.pool

structure SlotsOwned (isa : Isa) (disasm : Disassembler) (w : World) : Prop where
  used : ∀ s : Fin 32, w.runtime.pool.slotUsed s = true ↔ ∃! i, (w.probe i).live ∧
    (w.probe i).trampolineSlot = s.val
  placed : ∀ i, (w.probe i).live → (w.probe i).trampolineSlot = -1 ∨
    ∃ s : Fin 32, (w.probe i).trampolineSlot = s.val ∧
    (w.probe i).trampolineAddr.toNat = w.runtime.pool.remoteAddr.toNat + slotSize * s.val ∧
    w.runtime.pool.remoteAddr.toNat + poolSize ≤ 2^64
  apart : ∀ i j, i ≠ j → (w.probe i).live → (w.probe j).live → (w.probe i).trampolineSlot ≠ -1 →
    (w.probe j).trampolineSlot ≠ -1 →
    Disjoint (w.probe i).trampolineAddr.toNat slotSize (w.probe j).trampolineAddr.toNat slotSize
  cycle : ∀ id o o', Maps o' → ∀ j, (w.probe j).live → (w.probe j).trampolineSlot ≠ -1 →
    SameSlot (w.probe j)
      ((traceEnableProbe isa disasm (traceDisableProbe w id o).1 id o').1.probe j)
  alloc : ∀ name lookup s' i, registerProbe w.session name lookup = (s',some i) → ∀ p : Probe,
    p.trampolineSlot = (s'.probes i).trampolineSlot →
      p.trampolineAddr = (s'.probes i).trampolineAddr →
    ∀ addr, Mapped addr → (poolAlloc (poolNow w) p (some addr)).2.2.isSome = true

theorem slotPlaced (h : Tables w) (live : (w.probe i).live)
    (has : (w.probe i).trampolineSlot ≠ -1) :
    ∃ s : Fin 32, (w.probe i).trampolineSlot = s.val ∧ Mapped w.runtime.pool.remoteAddr ∧
      w.runtime.pool.slotUsed s = true ∧
      (w.probe i).trampolineAddr.toNat = w.runtime.pool.remoteAddr.toNat + slotSize * s.val := by
  rcases h.own.placed i live with ⟨none_,_⟩ | ⟨s,slot,addr,open_,used⟩
  · exact absurd none_ has
  · have mapped := h.own.mapped open_
    exact ⟨s,slot,mapped,used,by rw [addr,slotAddr mapped,Nat.mul_comm]⟩

theorem slotsApart (h : Tables w) {i j : Fin 32} (other : i ≠ j) (live : (w.probe i).live)
    (live' : (w.probe j).live)
    (has : (w.probe i).trampolineSlot ≠ -1) (has' : (w.probe j).trampolineSlot ≠ -1) :
    Disjoint (w.probe i).trampolineAddr.toNat slotSize (w.probe j).trampolineAddr.toNat
      slotSize := by
  obtain ⟨s,slot,_,_,addr⟩ := slotPlaced h live has
  obtain ⟨t,slot',_,_,addr'⟩ := slotPlaced h live' has'
  have differ : s.val ≠ t.val := by
    intro same
    have equal : s = t := Fin.ext same
    subst equal
    exact other (h.own.alone i j s live live' slot slot')
  rw [addr,addr']
  intro a here there
  simp only [Inside,slotSize] at here there
  omega

theorem allocReady (h : Rests w) (full : Filled w) {name lookup s'}
    (got : registerProbe w.session name lookup = (s',some i))
    {p : Probe} (slot : p.trampolineSlot = (s'.probes i).trampolineSlot)
    (addr : p.trampolineAddr = (s'.probes i).trampolineAddr) {base} (mapped : Mapped base) :
    (poolAlloc (poolNow w) p (some base)).2.2.isSome = true := by
  have maps : ∀ a, some base = some a → Mapped a := fun a same => Option.some.inj same ▸ mapped
  have steps := registered w.session name lookup
  rw [got] at steps
  -- The state right after the registration, with the pool that the install will use.
  have now : Ownership (poolNow w) w.session.probes ∧ Full (poolNow w) w.session.probes := by
    unfold poolNow
    split
    · next inactive =>
      have none_ := h.closed inactive
      exact ⟨⟨fun bad => absurd rfl bad,fun j live => absurd live (none_ j),
        fun j _ _ live => absurd live (none_ j)⟩,
        fun s used => absurd used (by simp [Pool.zero])⟩
    · exact ⟨h.tables.own,full⟩
  let w' : World := { w with runtime := { w.runtime with pool := poolNow w } }
  have tables : Tables w' := ⟨h.tables.entries,now.1⟩
  obtain ⟨after,live,_,filled,_⟩ :=
    @registeredTables w' ⟨true,true,true,.zero,true,lookup,true,true,none,true,true,true,true,true,
    true,true,true,true⟩ i s' name tables h.calm steps
  exact (allocSome after.own maps live slot addr).mpr (reservesFull (filled now.2) slot (by simp))

theorem restsOwned (h : Rests w) (full : Filled w) : SlotsOwned isa disasm w where
  used s := by
    constructor
    · intro used
      obtain ⟨i,live,slot⟩ := full s used
      exact ⟨i,⟨live,slot⟩,fun j there => h.tables.own.alone j i s there.1 live there.2 slot⟩
    · rintro ⟨i,⟨live,slot⟩,_⟩
      have has : (w.probe i).trampolineSlot ≠ -1 := by rw [slot]; exact (noSlot s).symm
      obtain ⟨t,slot',_,used,_⟩ := slotPlaced h.tables live has
      rwa [sameSlot (slot.symm.trans slot')]
  placed i live := by
    by_cases has : (w.probe i).trampolineSlot = -1
    · exact .inl has
    · obtain ⟨s,slot,mapped,_,addr⟩ := slotPlaced h.tables live has
      exact .inr ⟨s,slot,addr,mapped.2⟩
  apart i j other live live' has has' := slotsApart h.tables other live live' has has'
  cycle id o o' maps j live has := by
    have first := @disableSlots w o id j
    have rests := (@disableLands w o id h).rests
    have second := @enableSlots isa disasm _ o' id j rests maps (first.1.trans_ne live)
        (first.2.1.trans_ne has)
    exact ⟨second.1.trans first.1,second.2.1.trans first.2.1,second.2.2.trans first.2.2⟩
  alloc name lookup s' i got p slot addr base mapped := allocReady h full got slot addr mapped

/- A trampoline of either builder stays in the slot it is written to. -/
def FitsSlot : Prop :=
  (∀ (decode : X86Trampoline.Decoder) p stub addr room code, decode.Lawful →
    X86Trampoline.buildTrampoline decode p stub addr room = some code → code.length ≤ slotSize) ∧
  ∀ (decode : Arm64Trampoline.Decoder) p stub addr room code, decode.Lawful →
    Arm64Trampoline.buildTrampoline decode p stub addr room = some code → code.length ≤ slotSize

theorem trampolinesFit : FitsSlot := by
  constructor
  · intro decode p stub addr room code lawful built
    have length := X86Trampoline.trampolineLength lawful built
    simp only [slotSize]
    omega
  · intro decode p stub addr room code lawful built
    have length := Arm64Trampoline.trampolineLength lawful built
    simp only [slotSize]
    omega

/-- Each slot in use has exactly one owner, at its place in the pool, after every run in
which no install that fails took a registered probe for a new one. -/
theorem poolSlotsOwned {text : Memory} {calls : List Call} (maps : ∀ c ∈ calls, Maps c.outcome)
    (every : EveryStep (Unmistaken isa disasm) isa disasm (World.init text) calls) :
    SlotsOwned isa disasm (runCalls isa disasm (World.init text) calls) ∧ FitsSlot := by
  obtain ⟨rests,filled⟩ := initRests text
  obtain ⟨rests',full⟩ := @callsLand isa disasm _ calls rests maps
  exact ⟨restsOwned rests' (full every filled),trampolinesFit⟩

/- A name is traced, disabled, and traced again while a thread cannot leave its prologue. -/
def tracedAgain (name : Name) : List Call :=
  [⟨.start name none,ProbeText.smooth 0x1000,fun _ => ProbeText.smooth 0⟩,
    ⟨.disable 1,ProbeText.smooth 0,fun _ => ProbeText.smooth 0⟩,
    ⟨.start name none,{ ProbeText.smooth 0x1000 with safe := false },fun _ => ProbeText.smooth 0⟩]

theorem tracedAgainMaps (name : Name) : ∀ c ∈ tracedAgain name, Maps c.outcome := by
  intro c member
  simp only [tracedAgain,List.mem_cons,List.not_mem_nil,or_false] at member
  have mapped : Mapped 0x10000 := by decide
  rcases member with rfl | rfl | rfl <;> intro a same <;> cases same <;> exact mapped

theorem shortNameOwned :
    SlotsOwned .aarch64 (fun _ => [])
      (runCalls .aarch64 (fun _ => []) (World.init ProbeText.counting) (tracedAgain ['f'])) ∧
      FitsSlot := by
  refine poolSlotsOwned (tracedAgainMaps ['f']) ⟨?_,trivial,?_,trivial⟩
  · intro _
    exact sureEmpty ((initRests ProbeText.counting).1.closed rfl)
  · intro _ i absent
    have found : probeFindBySymbol (runCalls .aarch64 (fun _ => []) (World.init ProbeText.counting)
        ((tracedAgain ['f']).take 2)).session ['f'] = some 0 := by decide +kernel
    exact absurd (absent.symm.trans found) (by simp)

/- With sixty-four characters the slot is left without an owner. -/
def longName : Name := List.replicate 64 'f'

theorem longNameLeaks : (∀ c ∈ tracedAgain longName, Maps c.outcome) ∧
    ¬ SlotsOwned .aarch64 (fun _ => [])
      (runCalls .aarch64 (fun _ => []) (World.init ProbeText.counting) (tracedAgain longName)) := by
  refine ⟨tracedAgainMaps longName,fun owned => ?_⟩
  have used : (runCalls .aarch64 (fun _ => []) (World.init ProbeText.counting)
      (tracedAgain longName)).runtime.pool.slotUsed 0 =
      true := by decide +kernel
  have dead : ∀ i, ((runCalls .aarch64 (fun _ => []) (World.init ProbeText.counting)
      (tracedAgain longName)).probe i).probeId = 0 := by
    decide +kernel
  obtain ⟨i,⟨live,_⟩,_⟩ := (owned.used 0).mp used
  exact live (dead i)

end ZeroTrace.PoolRuns
