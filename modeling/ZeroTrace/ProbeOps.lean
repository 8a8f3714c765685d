import ZeroTrace.ProbeSteps

/-! Whole operations, whatever step of them fails: a failed install is rolled back, and
between operations no probe is left half way. -/
namespace ZeroTrace.ProbeOps
open ByteMemory PatchCode FilterSyntax ProbeTable TrampolinePool ProbeLifecycle ProbeInvariant
  ProbeSteps

variable {isa : Isa} {disasm : Disassembler} {original : Memory} {w : World} {o : Outcome}
    {i : Fin 32}

/- An entry that no operation is working on: where its function is was looked up, and
its bytes, if it has any, were read there. -/
structure Rest (original : Memory) (known : Name → Nat → Prop) (prepared : List Region)
    (p : Probe) : Prop where
  calm : p.state ≠ .prepared
  looked : known p.target.symbol p.target.remoteAddr
  listed : p.origLen = 0 ∨ Saved original prepared p

def AllRest (original : Memory) (known : Name → Nat → Prop) (w : World) : Prop :=
  ∀ i, (w.probe i).live → Rest original known w.prepared (w.probe i)

structure Settled (isa : Isa) (original : Memory) (known : Name → Nat → Prop)
    (w : World) : Prop where
  sound : Sound isa original w
  rest : AllRest original known w
  closed : w.status = .inactive → ∀ i, ¬ (w.probe i).live

structure Only (i : Fin 32) (w w' : World) : Prop where
  others : ∀ j, j ≠ i → w'.probe j = w.probe j
  status : w'.status = w.status

theorem onlyRefl : Only i w w := ⟨fun _ _ => rfl,rfl⟩

theorem onlyTrans {w' w''} (h : Only i w w') (h' : Only i w' w'') : Only i w w'' :=
  ⟨fun j other => (h'.others j other).trans (h.others j other),h'.status.trans h.status⟩

theorem onlyUpdate {w' : World} {p}
    (probes : w'.session.probes = Function.update w.session.probes i p)
    (status : w'.status = w.status) : Only i w w' :=
  ⟨fun j other => by rw [World.probe,probes]; simp [other],status⟩

theorem releaseOnly : Only i w (releaseSlot w i o) := onlyUpdate rfl rfl

/- The snapshot is that of the entry before the install: it is idle, and its slot is the
one the entry still has, or none at all. -/
structure Fallback (snap : InstallSnapshot) (p : Probe) : Prop where
  idle : snap.state ≠ .prepared ∧ snap.state ≠ .installed
  slot : snap.trampolineSlot = p.trampolineSlot ∧ snap.trampolineAddr = p.trampolineAddr ∨
    slotValid snap.trampolineSlot = none ∧ snap.trampolineAddr = 0

theorem restoreSound {snap} (h : Sound isa original w) (live : (w.probe i).live)
    (idle : (w.probe i).state ≠ .installed)
    (back : Fallback snap (w.probe i)) :
    Sound isa original (w.setProbe i (restoredProbe (w.probe i) snap)) := by
  refine ⟨entriesSet h.entries rfl rfl,?_,?_⟩
  · exact textsSet h.texts rfl rfl (fun r member => member) (fun now => idle now.2)
      (fun now => back.idle.2 now.2)
      fun _ prep => absurd prep back.idle.1
  · rcases back.slot with ⟨slot,addr⟩ | ⟨none_,addr⟩
    · exact slotsSet h.slots rfl rfl (fun _ => live) slot addr fun now => absurd now back.idle.2
    · exact slotsClear h.slots rfl rfl fun _ => ⟨none_,addr,back.idle.2⟩

structure Undone (snap : InstallSnapshot) (p p' : Probe) : Prop where
  existed : p'.live → snap.existed = true
  state : p'.live → p'.state = snap.state
  region : p'.live → p'.target = p.target ∧ p'.origLen = snap.origLen ∧ p'.origCode = snap.origCode

theorem rollbackSound {snap} (h : Sound isa original w) (live : (w.probe i).live)
    (idle : (w.probe i).state ≠ .installed)
    (back : Fallback snap (w.probe i)) :
    Sound isa original (rollbackProbeInstall w i snap o) ∧
      Only i w (rollbackProbeInstall w i snap o) ∧
      Undone snap (w.probe i) ((rollbackProbeInstall w i snap o).probe i) := by
  -- The slot is given back first, when the failed install got one.
  have first : ∀ w',
      w' = (if (w.probe i).trampolineAddr ≠ 0 ∧ (w.probe i).trampolineAddr ≠ snap.trampolineAddr
      then releaseSlot w i o else w) → Sound isa original w' ∧ Only i w w' ∧
        (w'.probe i).probeId = (w.probe i).probeId ∧
      (w'.probe i).target = (w.probe i).target ∧ (w'.probe i).state ≠ .installed ∧
        Fallback snap (w'.probe i) := by
    intro w' same
    subst same
    split
    · next got =>
      obtain ⟨id,target,state⟩ := @releaseProbe w o i h.slots live
      have slot := back.slot.resolve_left fun same => got.2 same.2.symm
      exact ⟨releaseSound h live idle,releaseOnly,id,target,state.trans_ne idle,
        ⟨back.idle,.inr slot⟩⟩
    · exact ⟨h,onlyRefl,rfl,rfl,idle,back⟩
  unfold rollbackProbeInstall
  dsimp only
  obtain ⟨sound,only,id,target,state,fallback⟩ := first _ rfl
  generalize (if (w.probe i).trampolineAddr ≠ 0 ∧ (w.probe i).trampolineAddr ≠ snap.trampolineAddr
    then releaseSlot w i o else w) = w' at sound only id target state fallback ⊢
  have alive : (w'.probe i).live := by rw [Probe.live,id]; exact live
  split
  · next existed =>
    have here := setProbeHere w' i (restoredProbe (w'.probe i) snap)
    refine ⟨restoreSound sound alive state fallback,onlyTrans only (onlyUpdate rfl rfl),?_⟩
    rw [here]
    exact ⟨fun _ => existed,fun _ => rfl,fun _ => ⟨target,rfl,rfl⟩⟩
  · rw [← id,unregisterIt sound.entries alive]
    have gone : ¬ ((forgottenWorld w' i).probe i).live := by
      simp [forgottenWorld,World.probe,Probe.live,Probe.zero]
    exact ⟨unregisterSound sound alive state,onlyTrans only (onlyUpdate rfl rfl),
      fun now => absurd now gone,fun now => absurd now gone,fun now => absurd now gone⟩

theorem rollbackQuiet (w i snap o) : (rollbackProbeInstall w i snap o).prepared = w.prepared ∧
    (rollbackProbeInstall w i snap o).text = w.text := by
  unfold rollbackProbeInstall
  dsimp only
  split <;> split <;> exact ⟨rfl,rfl⟩

inductive Installing (isa : Isa) (disasm : Disassembler) (w : World) (i : Fin 32)
    (snap : InstallSnapshot) (o : Outcome) :
    World × Bool → Prop where
  | unread : Installing isa disasm w i snap o (rollbackProbeInstall w i snap o,false)
  | undone {len} (span : entrySpan isa disasm o.disasmOpen w.text (w.probe i).target.remoteAddr =
      some len)
      (fits : len ≤ probeOrigCodeMax) :
      Installing isa disasm w i snap o
        (rollbackProbeInstall (slottedWorld (savedWorld w i len) i o.mmap) i snap o,false)
  | done {len addr} (span : entrySpan isa disasm o.disasmOpen w.text (w.probe i).target.remoteAddr =
      some len)
      (fits : len ≤ probeOrigCodeMax) (long : probePatchLen isa ≤ len)
      (slot : (poolAlloc w.runtime.pool (savedProbe (w.probe i) w.text len) o.mmap).2.2 =
        some addr) :
      Installing isa disasm w i snap o
        (patchedWorld isa (slottedWorld (savedWorld w i len) i o.mmap) i addr,true)

theorem savedHere {len} : (savedWorld w i len).probe i = savedProbe (w.probe i) w.text len := by
  simp [savedWorld,World.setProbe,World.probe]

theorem savedOwns (owns : Owns w.runtime.pool (w.probe i)) {len} :
    Owns (savedWorld w i len).runtime.pool ((savedWorld w i len).probe i) := by
  rw [savedHere]
  refine @ownsSame _ (w.probe i) _ rfl rfl ?_ owns
  simp [savedProbe]

theorem slottedHere {mmap} :
    (slottedWorld w i mmap).probe i = (poolAlloc w.runtime.pool (w.probe i) mmap).2.1 := by
  simp [slottedWorld,World.setProbe,World.probe]

theorem slottedProbe {mmap} (owns : Owns w.runtime.pool (w.probe i)) :
    let p := (slottedWorld w i mmap).probe i
    p = { w.probe i with
        trampolineSlot := p.trampolineSlot, trampolineAddr := p.trampolineAddr } := by
  dsimp only
  rw [slottedHere]
  exact (allocProbe (allocated owns)).1

theorem slottedEntries {mmap} (h : Entries w.session) (owns : Owns w.runtime.pool (w.probe i)) :
    Entries (slottedWorld w i mmap).session := by
  have same := (allocProbe (@allocated _ _ mmap owns)).1
  have id := congrArg Probe.probeId same
  have symbol := congrArg (fun p => p.target.symbol) same
  exact entriesSet h id symbol

theorem installing {snap} (h : Entries w.session) (owned : Owns w.runtime.pool (w.probe i))
    (live : (w.probe i).live)
    (idle : Probe.idle (w.probe i)) :
    Installing isa disasm w i snap o (installRegistered isa disasm w i snap o) := by
  unfold installRegistered
  dsimp only
  rcases @enableCases isa disasm w o i h live idle with failed | ⟨len,span,fits,saved⟩
  · rw [failed]
    exact .unread
  · rw [saved]
    have entries : Entries (savedWorld w i len).session := entriesSet h rfl rfl
    have owns := @savedOwns w i owned len
    have probe := @slottedProbe _ i o.mmap owns
    have id := congrArg Probe.probeId probe
    have length := congrArg Probe.origLen probe
    simp only [savedHere,savedProbe] at id length
    have alive : ((slottedWorld (savedWorld w i len) i o.mmap).probe i).live := by
      rw [Probe.live,id]
      exact live
    dsimp only
    split
    · exact .undone span fits
    · next addr slot =>
      split
      · exact .undone span fits
      · split
        · exact .undone span fits
        · have next := @installCases isa _ o i addr (slottedEntries entries owns) alive
          rw [id] at next
          rcases next with failed | ⟨_,long,ok⟩
          · simp only [slottedWorld,World.probe] at failed
            rw [failed]
            exact .undone span fits
          · simp only [slottedWorld,World.probe] at ok
            rw [ok]
            refine .done span fits (by rwa [length] at long) ?_
            rwa [show (savedWorld w i len).session.probes i = _ from savedHere] at slot

structure Snapped (snap : InstallSnapshot) (p : Probe) : Prop where
  idle : Probe.idle p
  state : snap.state = p.state
  slot : snap.trampolineSlot = p.trampolineSlot ∧ snap.trampolineAddr = p.trampolineAddr
  code : snap.origLen = p.origLen ∧ snap.origCode = p.origCode

theorem snappedFallback {snap : InstallSnapshot} {p} (h : Snapped snap p) : Fallback snap p :=
  ⟨⟨h.state.trans_ne h.idle.1,h.state.trans_ne h.idle.2⟩,.inl h.slot⟩

theorem slottedSound {snap len} (h : Sound isa original w) (live : (w.probe i).live)
    (snapped : Snapped snap (w.probe i))
    (fits : len ≤ probeOrigCodeMax)
    (room : RoomFor w i (regionOf (savedProbe (w.probe i) w.text len))) :
    let w' := slottedWorld (savedWorld w i len) i o.mmap
    Sound isa original w' ∧ Only i w w' ∧ w'.prepared = (savedWorld w i len).prepared ∧
      (w'.probe i).live ∧
      (w'.probe i).state = .prepared ∧ (w'.probe i).target = (w.probe i).target ∧
        (w'.probe i).origLen = len ∧
      Fallback snap (w'.probe i) := by
  have saved := enableSound h live snapped.idle fits room
  have owns := @savedOwns w i (h.slots.owned i live) len
  have probe := @slottedProbe _ i o.mmap owns
  have alive : ((savedWorld w i len).probe i).live := by rw [savedHere]; exact live
  have off : ¬ ((savedWorld w i len).probe i).installed := by
    rw [savedHere]; simp [Probe.installed,savedProbe]
  have only : Only i w (savedWorld w i len) := onlyUpdate rfl rfl
  have only' : Only i (savedWorld w i len) (slottedWorld (savedWorld w i len) i o.mmap) :=
    onlyUpdate rfl rfl
  have slot : Fallback snap ((slottedWorld (savedWorld w i len) i o.mmap).probe i) := by
    refine ⟨(snappedFallback snapped).idle,?_⟩
    have third := (allocProbe (@allocated _ _ o.mmap owns)).2.2
    rw [← slottedHere,savedHere] at third
    rcases third with same | none_
    · rw [same]
      exact .inl snapped.slot
    · have own := h.slots.owned i live
      have none' : slotValid (w.probe i).trampolineSlot = none := none_
      unfold Owns at own
      rw [none'] at own
      exact .inr ⟨by rw [snapped.slot.1]; exact none',snapped.slot.2.trans own.1⟩
  have id := congrArg Probe.probeId probe
  have state := congrArg Probe.state probe
  have target := congrArg Probe.target probe
  have length := congrArg Probe.origLen probe
  simp only [savedHere,savedProbe] at id state target length
  refine ⟨allocSound saved alive off,onlyTrans only only',rfl,?_,state,target,length,slot⟩
  rw [Probe.live,id]
  exact live

/- If a region was prepared, it meets no installed probe of another symbol. -/
def Room (w : World) (after : List Region) : Prop :=
  ∀ q, after = w.prepared ++ [q] → ∀ j, (w.probe j).installed →
    (w.probe j).target.symbol ≠ q.symbol →
    Disjoint q.addr q.len (w.probe j).target.remoteAddr (w.probe j).origLen

theorem roomHere {len after} (h : Entries w.session) (live : (w.probe i).live) (room : Room w after)
    (saved : after = (savedWorld w i len).prepared) :
    RoomFor w i (regionOf (savedProbe (w.probe i) w.text len)) :=
  fun j other now => room _ saved j now fun same => other (h.symbols j i now.1 live same)

theorem roomOnly {w' : World} {after} (only : Only i w w') (prepared : w'.prepared = w.prepared)
    (idle : ¬ (w'.probe i).installed) (room : Room w after) : Room w' after := by
  intro q same j now differ
  have other : j ≠ i := fun eq => idle (eq ▸ now)
  rw [only.others j other] at now differ ⊢
  exact room q (prepared ▸ same) j now differ

theorem installingSound {snap r} (h : Sound isa original w) (live : (w.probe i).live)
    (snapped : Snapped snap (w.probe i))
    (got : Installing isa disasm w i snap o r) (room : Room w r.1.prepared) :
    Sound isa original r.1 ∧ Only i w r.1 ∧
      (Undone snap (w.probe i) (r.1.probe i) ∨
        r.2 = true ∧ (r.1.probe i).installed ∧ (r.1.probe i).target = (w.probe i).target) := by
  cases got with
  | unread =>
    obtain ⟨sound,only,undone⟩ :=
      @rollbackSound isa original w o i snap h live snapped.idle.2 (snappedFallback snapped)
    exact ⟨sound,only,.inl undone⟩
  | @undone len span fits =>
    have here := roomHere h.entries live room (rollbackQuiet _ i snap o).1
    obtain ⟨sound,only,_,alive,state,target,_,back⟩ :=
      @slottedSound isa original w o i snap len h live snapped fits here
    have idle : ((slottedWorld (savedWorld w i len) i o.mmap).probe i).state ≠ .installed := by
      rw [state]; decide
    obtain ⟨sound',only',undone⟩ := @rollbackSound isa original _ o i snap sound alive idle back
    refine ⟨sound',onlyTrans only only',.inl ⟨undone.existed,undone.state,fun now => ?_⟩⟩
    exact ⟨(undone.region now).1.trans target,(undone.region now).2⟩
  | @done len addr span fits long slot =>
    have here := @roomHere w i len _ h.entries live room rfl
    obtain ⟨sound,only,_,alive,state,target,length,_⟩ :=
      @slottedSound isa original w o i snap len h live snapped fits here
    have owns := @savedOwns w i (h.slots.owned i live) len
    have mine := (allocProbe (@allocated _ _ o.mmap owns)).2.1 addr (by rw [savedHere]; exact slot)
    rw [← slottedHere] at mine
    have region : regionOf ((slottedWorld (savedWorld w i len) i o.mmap).probe i) =
        regionOf (savedProbe (w.probe i) w.text len) := by simp [regionOf,savedProbe,target,length]
    have there : RoomFor (slottedWorld (savedWorld w i len) i o.mmap) i
        (regionOf ((slottedWorld (savedWorld w i len) i o.mmap).probe i)) := by
      intro j other now
      rw [region]
      rw [only.others j other] at now ⊢
      exact here j other now
    have patched := installSound sound there alive state (by rw [length]; exact long) mine.1 mine.2
    generalize slottedWorld (savedWorld w i len) i o.mmap = w' at *
    have after : (patchedWorld isa w' i addr).probe i =
        { w'.probe i with trampolineAddr := addr, state := .installed } := by
      simp [patchedWorld,World.setProbe,World.probe]
    refine ⟨patched,onlyTrans only (onlyUpdate rfl rfl),.inr ⟨rfl,?_⟩⟩
    rw [after]
    exact ⟨⟨alive,rfl⟩,target⟩

theorem installingPrepared {snap r} (got : Installing isa disasm w i snap o r) :
    r.1.prepared = w.prepared ∨
      ∃ len, entrySpan isa disasm o.disasmOpen w.text (w.probe i).target.remoteAddr = some len ∧
      len ≤ probeOrigCodeMax ∧ r.1.prepared = (savedWorld w i len).prepared := by
  cases got with
  | unread => exact .inl (rollbackQuiet w i snap o).1
  | undone span fits => exact .inr ⟨_,span,fits,(rollbackQuiet _ i snap o).1⟩
  | done span fits => exact .inr ⟨_,span,fits,rfl⟩

variable {known : Name → Nat → Prop}

theorem savedMore {rs rs' : List Region} {p : Probe} (more : ∀ r ∈ rs, r ∈ rs')
    (h : Saved original rs p) :
    Saved original rs' p := ⟨more _ h.1,h.2⟩

theorem savedSame {rs : List Region} {p q : Probe} (target : q.target = p.target)
    (len : q.origLen = p.origLen)
    (code : q.origCode = p.origCode) (h : p.origLen = 0 ∨ Saved original rs p) :
    q.origLen = 0 ∨ Saved original rs q := by
  rw [Saved,regionOf,target,len,code]
  exact h

theorem restOnly {w' : World} (h : AllRest original known w) (only : Only i w w')
    (more : ∀ r ∈ w.prepared, r ∈ w'.prepared)
    (here : (w'.probe i).live → Rest original known w'.prepared (w'.probe i)) :
    AllRest original known w' := by
  intro j live
  by_cases same : j = i
  · subst same
    exact here live
  · rw [only.others j same] at live ⊢
    obtain ⟨calm,looked,listed⟩ := h j live
    exact ⟨calm,looked,listed.imp_right (savedMore more)⟩

theorem preparedMore {snap r} (got : Installing isa disasm w i snap o r) :
    ∀ q ∈ w.prepared, q ∈ r.1.prepared := by
  intro q member
  rcases installingPrepared got with same | ⟨len,_,_,same⟩
  · rw [same]; exact member
  · rw [same]; exact List.mem_append_left _ member

theorem installingRest {snap r} (h : Sound isa original w) (rest : AllRest original known w)
    (live : (w.probe i).live)
    (snapped : Snapped snap (w.probe i)) (got : Installing isa disasm w i snap o r)
    (room : Room w r.1.prepared) :
    AllRest original known r.1 := by
  obtain ⟨sound,only,ended⟩ := installingSound h live snapped got room
  have more := preparedMore got
  refine restOnly rest only more fun now => ?_
  obtain ⟨calm,looked,listed⟩ := rest i live
  rcases ended with undone | ⟨_,installed,target⟩
  · obtain ⟨target,length,code⟩ := undone.region now
    refine ⟨(undone.state now).trans_ne (snapped.state.trans_ne calm),
      by rw [target]; exact looked,?_⟩
    exact savedSame target (length.trans snapped.code.1) (code.trans snapped.code.2)
      (listed.imp_right (savedMore more))
  · refine ⟨installed.2.trans_ne (by decide),by rw [target]; exact looked,.inr ?_⟩
    exact sound.texts.saved i installed.1 (.inr installed.2)

inductive Tracing (isa : Isa) (disasm : Disassembler) (w : World) (name : Name) (o : Outcome) :
    World × Bool → Prop where
  | refused : Tracing isa disasm w name o (w,false)
  | already {i p} (live : (w.probe i).live) (installed : (w.probe i).state = .installed)
      (edit : p = { w.probe i with filter := p.filter }) :
        Tracing isa disasm w name o (w.setProbe i p,true)
  | attempt {s' i p snap r} (steps : Registering w.session name o.lookup (s',some i))
      (edit : p = { s'.probes i with filter := p.filter }) (snapped : Snapped snap (s'.probes i))
      (existed : snap.existed = true → ∃ j, (w.probe j).live)
      (got : Installing isa disasm ({ w with session := s' }.setProbe i p) i snap o r) :
        Tracing isa disasm w name o r

theorem registerLive {s s' : Session} {name lookup i} (h : Entries s)
    (steps : Registering s name lookup (s',some i)) :
    (s'.probes i).live := by
  cases steps with
  | known live => exact live
  | fresh free found absent new =>
    rw [freshId h]
    simp only [setSame]
    exact Nat.pos_iff_ne_zero.mp h.below.1

theorem registerState {s s' : Session} {name lookup i}
    (steps : Registering s name lookup (s',some i))
    (calm : ∀ j, (s.probes j).live → (s.probes j).state ≠ .prepared) :
    (s'.probes i).state ≠ .prepared := by
  cases steps with
  | known live => exact calm i live
  | fresh free found absent new => simp [freshProbe]

theorem tracing (h : Sound isa original w)
    (calm : ∀ j, (w.probe j).live → (w.probe j).state ≠ .prepared)
    (name : Name) (filter : Option ProbeFilter) :
    Tracing isa disasm w name o (installProbe isa disasm w name filter o) := by
  have steps := registerSteps w.session name o.lookup
  unfold installProbe
  dsimp only
  generalize registerProbe w.session name o.lookup = reg at steps
  obtain ⟨s',found⟩ := reg
  have sound := registerSound h steps
  cases found with
  | none =>
    cases steps
    exact .refused
  | some i =>
    have live := registerLive h.entries steps
    have idle := registerState steps calm
    dsimp only
    split
    · next installed =>
      cases steps with
      | known =>
        split
        · exact .already live installed rfl
        · have same : Tracing isa disasm w name o (w.setProbe i (w.probe i),true) :=
            .already live installed rfl
          rwa [setProbeSame] at same
      | fresh => simp [freshProbe] at installed
    · next off =>
      have edited := @editSound isa original { w with session := s' } i
          (setProbeFilter (s'.probes i) filter) sound live
        rfl rfl rfl ⟨rfl,rfl⟩ ⟨rfl,rfl⟩
      have here := setProbeHere { w with session := s' } i (setProbeFilter (s'.probes i) filter)
      refine .attempt steps rfl ⟨⟨idle,off⟩,rfl,⟨rfl,rfl⟩,rfl,rfl⟩ (fun existed => ?_)
        (installing edited.entries (edited.slots.owned i (by rw [here]; exact live))
          (by rw [here]; exact live)
          (by rw [here]; exact ⟨idle,off⟩))
      obtain ⟨j,found⟩ := Option.isSome_iff_exists.mp existed
      exact ⟨j,(findBySymbolSome found).1⟩

/- A name that is not in the table is looked up, and then it is known where it is. -/
def Looks (known : Name → Nat → Prop) (w : World) (name : Name) (o : Outcome) : Prop :=
  probeFindBySymbol w.session name = none →
    ∀ module addr, o.lookup = some (module,addr) → known (name.take (probeSymbolMax - 1)) addr

theorem attemptSound {s' p name} (h : Sound isa original w) (rest : AllRest original known w)
    (look : Looks known w name o)
    (steps : Registering w.session name o.lookup (s',some i))
    (edit : p = { s'.probes i with filter := p.filter }) :
    let w' := { w with session := s' }.setProbe i p
    Sound isa original w' ∧ AllRest original known w' ∧ Only i w w' ∧ (w'.probe i).live ∧
      w'.probe i = p := by
  dsimp only
  have live := registerLive h.entries steps
  have here := setProbeHere { w with session := s' } i p
  have same : p.probeId = (s'.probes i).probeId ∧ p.target = (s'.probes i).target ∧
      p.state = (s'.probes i).state ∧
      p.origLen = (s'.probes i).origLen ∧ p.origCode = (s'.probes i).origCode := by
    rw [edit]; exact ⟨rfl,rfl,rfl,rfl,rfl⟩
  have alive : p.live := by rw [Probe.live,same.1]; exact live
  have only : Only i w ({ w with session := s' }.setProbe i p) := by
    refine ⟨fun j other => ?_,rfl⟩
    simp only [World.setProbe,World.probe,setOther _ _ other]
    cases steps with
    | known => rfl
    | fresh => simp [other]
  have sound := @editSound isa original { w with session := s' } i p (registerSound h steps) live
    same.1 same.2.1 same.2.2.1 (by rw [edit]; exact ⟨rfl,rfl⟩) (by rw [edit]; exact ⟨rfl,rfl⟩)
  refine ⟨sound,restOnly rest only (fun r member => member) fun _ => ?_,only,
    by rw [here]; exact alive,here⟩
  rw [here]
  cases steps with
  | known old =>
    obtain ⟨calm,looked,listed⟩ := rest i old
    exact ⟨same.2.2.1.trans_ne calm,by rw [same.2.1]; exact looked,
      savedSame same.2.1 same.2.2.2.1 same.2.2.2.2 listed⟩
  | fresh free found absent new =>
    simp only [setSame] at same
    refine ⟨same.2.2.1.trans_ne (by simp [freshProbe]),?_,.inl same.2.2.2.1⟩
    rw [same.2.1]
    exact look absent _ _ found

theorem tracingSettles {name r} (h : Sound isa original w) (rest : AllRest original known w)
    (look : Looks known w name o)
    (got : Tracing isa disasm w name o r) (room : Room w r.1.prepared) :
    Sound isa original r.1 ∧ AllRest original known r.1 ∧ r.1.status = w.status ∧
      (r.2 = false → (∀ j, ¬ (w.probe j).live) → ∀ j, ¬ (r.1.probe j).live) := by
  cases got with
  | refused => exact ⟨h,rest,rfl,fun _ none_ => none_⟩
  | @already i p live installed edit =>
    have here := setProbeHere w i p
    have same : p.probeId = (w.probe i).probeId ∧ p.target = (w.probe i).target ∧
        p.state = (w.probe i).state ∧
        p.origLen = (w.probe i).origLen ∧ p.origCode = (w.probe i).origCode := by
      rw [edit]; exact ⟨rfl,rfl,rfl,rfl,rfl⟩
    refine ⟨editSound h live same.1 same.2.1 same.2.2.1 (by rw [edit]; exact ⟨rfl,rfl⟩)
      (by rw [edit]; exact ⟨rfl,rfl⟩),
      restOnly rest (onlyUpdate rfl rfl) (fun r member => member) fun _ => ?_,rfl,
        fun bad => by cases bad⟩
    obtain ⟨calm,looked,listed⟩ := rest i live
    rw [here]
    exact ⟨same.2.2.1.trans_ne calm,by rw [same.2.1]; exact looked,
      savedSame same.2.1 same.2.2.2.1 same.2.2.2.2 listed⟩
  | @attempt s' i p snap r steps edit snapped existed got =>
    obtain ⟨sound,rested,only,live,here⟩ := attemptSound h rest look steps edit
    have snapped' : Snapped snap (({ w with session := s' }.setProbe i p).probe i) := by
      rw [here,edit]
      exact ⟨snapped.idle,snapped.state,snapped.slot,snapped.code⟩
    have room' := roomOnly only rfl (idleNot snapped'.idle) room
    obtain ⟨sound',only',ended⟩ := installingSound sound live snapped' got room'
    refine ⟨sound',installingRest sound rested live snapped' got room',
      only'.status.trans only.status,?_⟩
    intro failed none_ j now
    by_cases same : j = i
    · subst same
      rcases ended with undone | ⟨done,_⟩
      · obtain ⟨k,alive⟩ := existed (undone.existed now)
        exact none_ k alive
      · rw [failed] at done
        cases done
    · rw [only'.others j same,only.others j same] at now
      exact none_ j now

/- The region an operation prepares: found by a lookup, measured in the text as it was,
and of no installed probe. -/
structure Measured (isa : Isa) (disasm : Disassembler) (known : Name → Nat → Prop) (w : World)
    (o : Outcome) (q : Region) :
    Prop where
  looked : known q.symbol q.addr
  span : entrySpan isa disasm o.disasmOpen w.text q.addr = some q.len
  fits : q.len ≤ probeOrigCodeMax
  own : ∀ j, (w.probe j).installed → (w.probe j).target.symbol ≠ q.symbol

inductive Grown (isa : Isa) (disasm : Disassembler) (known : Name → Nat → Prop) (w : World)
    (o : Outcome) :
    List Region → Prop where
  | same : Grown isa disasm known w o w.prepared
  | more {q} (measured : Measured isa disasm known w o q) :
      Grown isa disasm known w o (w.prepared ++ [q])

theorem tracingPrepared {name r} (h : Sound isa original w) (rest : AllRest original known w)
    (look : Looks known w name o)
    (got : Tracing isa disasm w name o r) : Grown isa disasm known w o r.1.prepared := by
  cases got with
  | refused => exact .same
  | already => exact .same
  | @attempt s' i p snap r steps edit snapped existed got =>
    obtain ⟨sound,rested,only,live,here⟩ := attemptSound h rest look steps edit
    rcases installingPrepared got with same | ⟨len,span,fits,same⟩
    · rw [same]; exact .same
    · rw [same]
      refine .more ⟨(rested i live).looked,span,fits,fun j now equal => ?_⟩
      have other : j ≠ i := by
        intro eq
        subst eq
        cases steps with
        | known => exact snapped.idle.2 now.2
        | fresh free => exact now.1 free
      have there := only.others j other
      have alive : (({ w with session := s' }.setProbe i p).probe j).live := by
        rw [there]; exact now.1
      exact other (sound.entries.symbols j i alive live
        ((congrArg (fun p => p.target.symbol) there).trans equal))

end ZeroTrace.ProbeOps
