import Mathlib.Data.Fintype.EquivFin
import ZeroTrace.ProbeOps

/-! Who owns which slot of the trampoline pool. Ownership is written down twice, in the
pool and in the entries, and none of it depends on the target's text. -/
namespace ZeroTrace.SlotOwnership
open PatchCode ProbeTable TrampolinePool ProbeLifecycle ProbeInvariant ProbeSteps

/- A mapping lies in the address space and not at its start. -/
def Mapped (addr : UInt64) : Prop := addr ≠ 0 ∧ addr.toNat + poolSize ≤ 2^64

instance (addr) : Decidable (Mapped addr) := inferInstanceAs (Decidable (_ ∧ _))

structure Ownership (pool : Pool) (probes : Fin 32 → Probe) : Prop where
  mapped : pool.remoteAddr ≠ 0 → Mapped pool.remoteAddr
  placed : ∀ i, (probes i).live → (probes i).trampolineSlot = -1 ∧ (probes i).trampolineAddr = 0 ∨
    ∃ s : Fin 32, (probes i).trampolineSlot = s.val ∧
      (probes i).trampolineAddr = poolSlotAddr pool s ∧
      pool.remoteAddr ≠ 0 ∧ pool.slotUsed s = true
  alone : ∀ i j (s : Fin 32), (probes i).live → (probes j).live →
    (probes i).trampolineSlot = s.val →
    (probes j).trampolineSlot = s.val → i = j

def Full (pool : Pool) (probes : Fin 32 → Probe) : Prop :=
  ∀ s, pool.slotUsed s = true → ∃ i, (probes i).live ∧ (probes i).trampolineSlot = s.val

variable {pool : Pool} {probes : Fin 32 → Probe} {i : Fin 32} {p : Probe} {s : Fin 32}

theorem slotAddr (mapped : Mapped pool.remoteAddr) (s : Fin 32) :
    (poolSlotAddr pool s).toNat = pool.remoteAddr.toNat + s.val * slotSize := by
  have low := s.isLt
  have fits := mapped.2
  simp only [poolSize,slotSize] at fits
  rw [poolSlotAddr,if_neg mapped.1,UInt64.toNat_add,UInt64.toNat_ofNat']
  simp only [slotSize]
  omega

theorem slotAddrLive (mapped : Mapped pool.remoteAddr) (s : Fin 32) : poolSlotAddr pool s ≠ 0 := by
  intro zero
  have addr := slotAddr mapped s
  rw [zero] at addr
  have pos : pool.remoteAddr.toNat ≠ 0 := fun none_ => mapped.1 (UInt64.toNat_inj.mp none_)
  simp only [UInt64.toNat_zero] at addr
  omega

theorem noSlot (s : Fin 32) : (-1 : Int) ≠ s.val := by omega

theorem sameSlot {s t : Fin 32} (same : (s.val : Int) = t.val) : s = t :=
  Fin.ext (by exact_mod_cast same)

theorem ownChanged (h : Ownership pool probes) (keeps : p.live → (probes i).live ∧
      p.trampolineSlot = (probes i).trampolineSlot ∧ p.trampolineAddr = (probes i).trampolineAddr ∨
      p.trampolineSlot = -1 ∧ p.trampolineAddr = 0) :
    Ownership pool (Function.update probes i p) := by
  have old : ∀ j s, (Function.update probes i p j).live →
      (Function.update probes i p j).trampolineSlot = (s : Fin 32).val →
      (probes j).live ∧ (probes j).trampolineSlot = s.val := by
    intro j s live slot
    by_cases here : j = i
    · subst here
      rw [Function.update_self] at live slot
      rcases keeps live with ⟨alive,same,_⟩ | ⟨none_,_⟩
      · exact ⟨alive,same.symm.trans slot⟩
      · exact absurd (none_.symm.trans slot) (noSlot s)
    · rw [Function.update_of_ne here] at live slot
      exact ⟨live,slot⟩
  constructor
  · exact h.mapped
  · intro j live
    by_cases here : j = i
    · subst here
      rw [Function.update_self] at live ⊢
      rcases keeps live with ⟨alive,slot,addr⟩ | none_
      · rw [slot,addr]; exact h.placed j alive
      · exact .inl none_
    · rw [Function.update_of_ne here] at live ⊢
      exact h.placed j live
  · intro j k s live live' slot slot'
    obtain ⟨one,mine⟩ := old j s live slot
    obtain ⟨two,theirs⟩ := old k s live' slot'
    exact h.alone j k s one two mine theirs

theorem fullChanged (h : Full pool probes)
    (keeps : (probes i).live → ∀ s : Fin 32, (probes i).trampolineSlot = s.val →
      p.live ∧ p.trampolineSlot = s.val) : Full pool (Function.update probes i p) := by
  intro s used
  obtain ⟨j,live,slot⟩ := h s used
  refine ⟨j,?_⟩
  by_cases here : j = i
  · subst here
    rw [Function.update_self]
    exact keeps live s slot
  · rw [Function.update_of_ne here]
    exact ⟨live,slot⟩

theorem ensureOwned {mmap pool'} (h : Ownership pool probes) (maps : ∀ a, mmap = some a → Mapped a)
    (ok : poolEnsure pool mmap = some pool') :
    Ownership pool' probes ∧ Mapped pool'.remoteAddr ∧ (Full pool probes → Full pool' probes) := by
  unfold poolEnsure at ok
  split at ok
  · next open_ =>
    cases Option.some.inj ok
    exact ⟨h,h.mapped open_,fun full => full⟩
  · next closed =>
    obtain ⟨a,answer,rfl⟩ := Option.map_eq_some_iff.mp ok
    have none_ : ∀ j, (probes j).live → (probes j).trampolineSlot = -1 ∧
        (probes j).trampolineAddr = 0 := by
      intro j live
      rcases h.placed j live with none_ | ⟨s,_,_,open_,_⟩
      · exact none_
      · exact absurd open_ closed
    refine ⟨⟨fun _ => maps a answer,fun j live => .inl (none_ j live),?_⟩,maps a answer,
      fun _ s used => by cases used⟩
    intro j k s live _ slot
    exact absurd ((none_ j live).1.symm.trans slot) (noSlot s)

theorem assignOwned (h : Ownership pool probes) (mapped : Mapped pool.remoteAddr)
    (free : pool.slotUsed s = false)
    (live : (probes i).live) :
    Ownership { pool with slotUsed := Function.update pool.slotUsed s true }
      (Function.update probes i
        { probes i with trampolineSlot := s.val, trampolineAddr := poolSlotAddr pool s }) := by
  have other : ∀ j t, (probes j).live → (probes j).trampolineSlot = (t : Fin 32).val → t ≠ s := by
    intro j t alive slot same
    subst same
    rcases h.placed j alive with ⟨none_,_⟩ | ⟨u,slot',_,_,used⟩
    · exact noSlot t (none_.symm.trans slot)
    · rw [sameSlot (slot.symm.trans slot'),used] at free
      cases free
  constructor
  · exact fun _ => mapped
  · intro j alive
    by_cases here : j = i
    · subst here
      rw [Function.update_self]
      exact .inr ⟨s,rfl,rfl,mapped.1,by simp⟩
    · rw [Function.update_of_ne here] at alive ⊢
      rcases h.placed j alive with none_ | ⟨t,slot,addr,open_,used⟩
      · exact .inl none_
      · exact .inr ⟨t,slot,addr,open_,by simpa [other j t alive slot] using used⟩
  · intro j k t alive alive' slot slot'
    by_cases jj : j = i <;> by_cases kk : k = i
    · exact jj.trans kk.symm
    · subst jj
      rw [Function.update_self] at slot
      rw [Function.update_of_ne kk] at alive' slot'
      exact absurd (sameSlot slot).symm (other k t alive' slot')
    · subst kk
      rw [Function.update_self] at slot'
      rw [Function.update_of_ne jj] at alive slot
      exact absurd (sameSlot slot').symm (other j t alive slot)
    · rw [Function.update_of_ne jj] at alive slot
      rw [Function.update_of_ne kk] at alive' slot'
      exact h.alone j k t alive alive' slot slot'

theorem assignFull (h : Full pool probes) (live : (probes i).live)
    (slotless : (probes i).trampolineSlot = -1)
    (addr : UInt64) : Full { pool with slotUsed := Function.update pool.slotUsed s true }
      (Function.update probes i
        { probes i with trampolineSlot := s.val, trampolineAddr := addr }) := by
  intro t used
  by_cases here : t = s
  · subst here
    exact ⟨i,by rw [Function.update_self]; exact ⟨live,rfl⟩⟩
  · obtain ⟨j,alive,slot⟩ := h t (by simpa [here] using used)
    have other : j ≠ i := by
      intro same
      subst same
      exact noSlot t (slotless.symm.trans slot)
    exact ⟨j,by rw [Function.update_of_ne other]; exact ⟨alive,slot⟩⟩

/- There is a slot for an entry without one: the other entries own one each at most. -/
theorem someSlot (full : Full pool probes) (i : Fin 32)
    (slotless : (probes i).trampolineSlot = -1) :
    ∃ s, pool.slotUsed s = false := by
  by_contra all
  have used : ∀ s, pool.slotUsed s = true := fun s => by
    by_contra unused
    exact all ⟨s,by simpa using unused⟩
  choose owner live slot using fun s => full s (used s)
  have distinct : Function.Injective owner := by
    intro s t same
    refine sameSlot ?_
    rw [← slot s,← slot t,same]
  obtain ⟨s,mine⟩ := Finite.injective_iff_surjective.mp distinct i
  exact noSlot s (slotless.symm.trans (by rw [← slot s,mine]))

theorem allocOwned {mmap} (h : Ownership pool probes) (maps : ∀ a, mmap = some a → Mapped a)
    (live : (probes i).live) :
    Ownership (poolAlloc pool (probes i) mmap).1
      (Function.update probes i (poolAlloc pool (probes i) mmap).2.1) ∧
    (Full pool probes →
      Full (poolAlloc pool (probes i)
        mmap).1 (Function.update probes i (poolAlloc pool (probes i) mmap).2.1)) := by
  unfold poolAlloc
  rcases h.placed i live with ⟨slotless,_⟩ | ⟨s,slot,addr,open_,used⟩
  · have invalid : slotValid (probes i).trampolineSlot = none := by rw [slotless]; rfl
    simp only [invalid]
    cases ensured : poolEnsure pool mmap with
    | none => simpa using h
    | some pool' =>
      obtain ⟨own,mapped,kept⟩ := ensureOwned h maps ensured
      dsimp only
      split
      · simpa using ⟨own,kept⟩
      · next s found =>
        have free : pool'.slotUsed s = false := by simpa using List.find?_some found
        simp only [poolAssignSlot,if_neg (slotAddrLive mapped s)]
        exact ⟨assignOwned own mapped free live,fun full => assignFull (kept full) live slotless _⟩
  · have valid : slotValid (probes i).trampolineSlot = some s := by rw [slot]; exact slotValidNat s
    have mapped := h.mapped open_
    have open' : (pool.remoteAddr != 0) = true := by simpa using open_
    have belongs : slotBelongsToProbe pool (probes i) s = true := by
      simp [slotBelongsToProbe,← addr,addr ▸ slotAddrLive mapped s]
    have again : Function.update pool.slotUsed s true = pool.slotUsed := by rw [← used]; simp
    have same : { probes i
        with trampolineSlot := (s.val : Int), trampolineAddr := poolSlotAddr pool s } =
        probes i := by
      rw [← slot,← addr]
    simp only [valid,open',belongs,Bool.not_true,Bool.and_false,Bool.false_eq_true,if_false,
      poolAssignSlot,
      if_neg (slotAddrLive mapped s),again,same]
    simpa using h

/- The entry has a slot, the pool has a free one, or there is no pool and it can be
mapped. -/
def Reserves (pool : Pool) (p : Probe) (mmap : Option UInt64) : Prop :=
  p.trampolineSlot ≠ -1 ∨ pool.remoteAddr ≠ 0 ∧ (∃ s, pool.slotUsed s = false) ∨
    pool.remoteAddr = 0 ∧ mmap ≠ none

theorem allocSlotless {mmap} (slotless : p.trampolineSlot = -1)
    (open_ : pool.remoteAddr ≠ 0 → Mapped pool.remoteAddr)
    (maps : ∀ a, mmap = some a → Mapped a) :
    (poolAlloc pool p mmap).2.2.isSome = true ↔ Reserves pool p mmap := by
  have invalid : slotValid p.trampolineSlot = none := by rw [slotless]; rfl
  have found : ∀ pool' : Pool, Mapped pool'.remoteAddr → (∃ s, pool'.slotUsed s = false) →
      ∃ s, (List.finRange 32).find? (fun i => !pool'.slotUsed i) = some s ∧
        poolSlotAddr pool' s ≠ 0 := by
    intro pool' mapped free
    obtain ⟨s,unused⟩ := free
    cases first : (List.finRange 32).find? fun i => !pool'.slotUsed i with
    | none =>
      have out := List.find?_eq_none.mp first s (List.mem_finRange s)
      simp [unused] at out
    | some t => exact ⟨t,rfl,slotAddrLive mapped t⟩
  by_cases closed : pool.remoteAddr = 0
  · cases answer : mmap with
    | none => simp [poolAlloc,poolEnsure,closed,Reserves,slotless]
    | some a =>
      obtain ⟨s,first,alive⟩ := found ⟨a,poolSize,fun _ => false⟩ (maps a answer) ⟨0,rfl⟩
      have ok : (poolAlloc pool p (some a)).2.2.isSome = true := by
        simp only [poolAlloc,invalid,poolEnsure,closed,ne_eq,not_true_eq_false,if_false,
          Option.map_some,first,
          poolAssignSlot,if_neg alive]
        rfl
      exact ⟨fun _ => .inr (.inr ⟨closed,by simp⟩),fun _ => ok⟩
  · have ensured : poolEnsure pool mmap = some pool := by simp [poolEnsure,closed]
    constructor
    · intro ok
      refine .inr (.inl ⟨closed,?_⟩)
      simp only [poolAlloc,invalid,ensured] at ok
      cases first : (List.finRange 32).find? fun i => !pool.slotUsed i with
      | none => simp [first] at ok
      | some s => exact ⟨s,by simpa using List.find?_some first⟩
    · intro reserves
      have free : ∃ s, pool.slotUsed s = false := by
        rcases reserves with has | ⟨_,free⟩ | ⟨bad,_⟩
        · exact absurd slotless has
        · exact free
        · exact absurd bad closed
      obtain ⟨s,first,alive⟩ := found pool (open_ closed) free
      simp only [poolAlloc,invalid,ensured,first,poolAssignSlot,if_neg alive]
      rfl

/- An allocation succeeds exactly when there is a slot to be had. Only the slot and the
address of the entry matter. -/
theorem allocSome {mmap} (h : Ownership pool probes) (maps : ∀ a, mmap = some a → Mapped a)
    (live : (probes i).live)
    (slot : p.trampolineSlot = (probes i).trampolineSlot)
    (addr : p.trampolineAddr = (probes i).trampolineAddr) :
    (poolAlloc pool p mmap).2.2.isSome = true ↔ Reserves pool p mmap := by
  rcases h.placed i live with ⟨slotless,_⟩ | ⟨s,mine,at_,open_,used⟩
  · exact allocSlotless (slot.trans slotless) h.mapped maps
  · have valid : slotValid p.trampolineSlot = some s := by rw [slot,mine]; exact slotValidNat s
    have alive := slotAddrLive (h.mapped open_) s
    have open' : (pool.remoteAddr != 0) = true := by simpa using open_
    have belongs : slotBelongsToProbe pool p s = true := by simp [slotBelongsToProbe,addr,at_,alive]
    have ok : (poolAlloc pool p mmap).2.2.isSome = true := by
      simp only [poolAlloc,valid,open',belongs,Bool.not_true,Bool.and_false,Bool.false_eq_true,
        if_false,poolAssignSlot,
        if_neg alive]
      rfl
    have has : p.trampolineSlot ≠ -1 := by rw [slot,mine]; exact (noSlot s).symm
    exact ⟨fun _ => .inl has,fun _ => ok⟩

/- While every slot in use has an owner, only the target can refuse one. -/
theorem reservesFull {mmap} (h : Full pool probes)
    (slot : p.trampolineSlot = (probes i).trampolineSlot)
    (maps : mmap ≠ none) : Reserves pool p mmap := by
  by_cases slotless : (probes i).trampolineSlot = -1
  · by_cases closed : pool.remoteAddr = 0
    · exact .inr (.inr ⟨closed,maps⟩)
    · exact .inr (.inl ⟨closed,someSlot h i slotless⟩)
  · exact .inl (by rw [slot]; exact slotless)

theorem releaseOwned {munmap} (h : Ownership pool probes) (live : (probes i).live) :
    Ownership (poolRelease pool (probes i) munmap).1
      (Function.update probes i (poolRelease pool (probes i) munmap).2) ∧
    (Full pool probes →
      Full (poolRelease pool (probes i) munmap).1
        (Function.update probes i (poolRelease pool (probes i) munmap).2)) ∧
    (poolRelease pool (probes i) munmap).2 = clearProbeSlot (probes i) := by
  unfold poolRelease
  rcases h.placed i live with ⟨slotless,none_⟩ | ⟨s,slot,addr,open_,used⟩
  · have invalid : slotValid (probes i).trampolineSlot = none := by rw [slotless]; rfl
    have same : probes i = clearProbeSlot (probes i) := by rw [clearProbeSlot,← slotless,← none_]
    simp only [invalid]
    exact ⟨by simpa using h,by simp,same⟩
  · have valid : slotValid (probes i).trampolineSlot = some s := by rw [slot]; exact slotValidNat s
    have belongs : slotBelongsToProbe pool (probes i) s = true := by
      simp [slotBelongsToProbe,← addr,addr ▸ slotAddrLive (h.mapped open_) s]
    simp only [valid,belongs,Bool.not_true,Bool.and_false,Bool.false_eq_true,if_false]
    have others : ∀ j t, j ≠ i → (probes j).live → (probes j).trampolineSlot = (t : Fin 32).val →
        t ≠ s := by
      intro j t other alive theirs same
      subst same
      exact other (h.alone j i t alive live theirs slot)
    have freed : Ownership { pool with slotUsed := Function.update pool.slotUsed s false }
        (Function.update probes i (clearProbeSlot (probes i))) := by
      have changed := ownChanged (i := i) (p := clearProbeSlot (probes i)) h fun _ => .inr ⟨rfl,rfl⟩
      refine ⟨changed.mapped,fun j alive => ?_,changed.alone⟩
      by_cases here : j = i
      · subst here; rw [Function.update_self]; exact .inl ⟨rfl,rfl⟩
      · rcases changed.placed j alive with none_ | ⟨t,theirs,at_,_,busy⟩
        · exact .inl none_
        · rw [Function.update_of_ne here] at alive theirs at_ ⊢
          exact .inr ⟨t,theirs,at_,open_,by simpa [others j t here alive theirs] using busy⟩
    have full : Full pool probes →
        Full { pool with slotUsed := Function.update pool.slotUsed s false }
        (Function.update probes i (clearProbeSlot (probes i))) := by
      intro full t busy
      have other : t ≠ s := by
        intro same
        subst same
        simp at busy
      obtain ⟨j,alive,theirs⟩ := full t (by simpa [other] using busy)
      have here : j ≠ i := by
        intro same
        subst same
        exact other (sameSlot (theirs.symm.trans slot))
      exact ⟨j,by rw [Function.update_of_ne here]; exact ⟨alive,theirs⟩⟩
    split
    · next gone =>
      simp only [Bool.and_eq_true,poolAllFree,List.all_eq_true] at gone
      have unused : ∀ t, Function.update pool.slotUsed s false t = false := by
        intro t
        simpa using gone.1.2 t (List.mem_finRange t)
      have none_ : ∀ j, (Function.update probes i (clearProbeSlot (probes i)) j).live →
          (Function.update probes i (clearProbeSlot (probes i)) j).trampolineSlot = -1 ∧
          (Function.update probes i (clearProbeSlot (probes i)) j).trampolineAddr = 0 := by
        intro j alive
        rcases freed.placed j alive with none_ | ⟨t,_,_,_,busy⟩
        · exact none_
        · exact absurd ((unused t).symm.trans busy) (by decide)
      refine ⟨⟨fun bad => absurd rfl bad,fun j alive => .inl (none_ j alive),?_⟩,
        fun _ t busy => absurd busy (by simp [Pool.zero]),trivial⟩
      intro j k t alive _ theirs
      exact absurd ((none_ j alive).1.symm.trans theirs) (noSlot t)
    · exact ⟨freed,full,trivial⟩

end ZeroTrace.SlotOwnership
