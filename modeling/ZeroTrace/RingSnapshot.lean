import ZeroTrace.SharedRead
import ZeroTrace.RingProducer
import ZeroTrace.RingStill

/-! The tracer polling a ring that the payload threads are writing to. While no
producer is a whole lap late, a slot under its publication word holds what the
holder of that ticket stored, and the double read of the word is enough. -/
namespace ZeroTrace.RingSnapshot
open Relation SharedRead TraceBuffer RingProducer RingReader RingStill

def Agrees (ev : Event) (ws : List (Field × Nat)) : Prop := ∀ w ∈ ws, ev.field w.1 = w.2

structure Contents (s : Ring) : Prop where
  reserved : ∀ i t todo, s.threads i = .reserved t todo → ∃ e, s.holders[t]? = some e ∧
    e.writes = todo
  writing : ∀ i t todo, s.threads i = .writing t todo → (s.slots (slotOf t)).committedSeq = 0 ∧
    ∃ e past, s.holders[t]? = some e ∧ e.writes = past ++ todo ∧ Agrees (s.slots (slotOf t)) past
  stamped : ∀ i t, (s.slots i).committedSeq = t + 1 → slotOf t = i ∧ t < s.writeSeq ∧ ¬ Held s t ∧
    ∃ e, s.holders[t]? = some e ∧ Agrees (s.slots i) e.writes

theorem initContents : Contents Ring.init := by
  constructor <;> simp [Ring.init,Event.zero]

theorem holderKept {xs : List Emission} {t : Nat} {e : Emission} (x : Emission)
    (found : xs[t]? = some e) :
    (xs ++ [x])[t]? = some e := by
  obtain ⟨low,_⟩ := List.getElem?_eq_some_iff.mp found
  rwa [List.getElem?_append_left low]

theorem takenContents {s thread e} (tickets : Tickets s) (h : Contents s)
    (free : s.threads thread = .idle) :
    Contents (s.takeTicket thread e) where
  reserved i t todo found := by
    by_cases same : i = thread
    · subst same
      simp only [Ring.takeTicket,Ring.setThread,Function.update_self,
        Producer.reserved.injEq] at found
      obtain ⟨rfl,rfl⟩ := found
      exact ⟨e,by simp [Ring.takeTicket,← tickets.counted],rfl⟩
    · obtain ⟨e',held,all⟩ :=
        h.reserved i t todo (by simpa [Ring.takeTicket,Ring.setThread,same] using found)
      exact ⟨e',holderKept e held,all⟩
  writing i t todo found := by
    by_cases same : i = thread
    · subst same; simp [Ring.takeTicket,Ring.setThread] at found
    · obtain ⟨zero,e',past,held,all,good⟩ :=
        h.writing i t todo (by simpa [Ring.takeTicket,Ring.setThread,same] using found)
      exact ⟨zero,e',past,holderKept e held,all,good⟩
  stamped i t found := by
    obtain ⟨here,low,gone,e',held,good⟩ := h.stamped i t found
    refine ⟨here,Nat.lt_succ_of_lt low,fun again => ?_,e',holderKept e held,good⟩
    rcases (heldTaken free t).mp again with rfl | old
    · exact absurd low (Nat.lt_irrefl _)
    · exact gone old

theorem otherSlot {s : Ring} {i thread t u} (tickets : Tickets s)
    (mine : (s.threads thread).ticket = some t)
    (other : i ≠ thread) (theirs : (s.threads i).ticket = some u) : slotOf u ≠ slotOf t := by
  intro same
  have eq := heldSlot tickets ⟨i,theirs⟩ ⟨thread,mine⟩ same
  exact other (tickets.single i thread u theirs (eq ▸ mine))

/- A store for ticket t changes one thread and one slot; everybody else keeps what
the invariant says about them. -/
theorem storedContents {s s' : Ring} {thread t p ev} (tickets : Tickets s) (h : Contents s)
    (mine : (s.threads thread).ticket = some t)
    (threads : s'.threads = Function.update s.threads thread p)
    (slots : s'.slots = Function.update s.slots (slotOf t) ev)
    (count : s'.writeSeq = s.writeSeq) (holders : s'.holders = s.holders)
    (held : ∀ u, Held s' u → Held s u)
    (reserved : ∀ u todo, p ≠ .reserved u todo)
    (writing : ∀ u todo, p = .writing u todo → u = t ∧ ev.committedSeq = 0 ∧
      ∃ e past, s.holders[t]? = some e ∧ e.writes = past ++ todo ∧ Agrees ev past)
    (stamped : ∀ u, ev.committedSeq = u + 1 → u = t ∧ ¬ Held s' t ∧
      ∃ e, s.holders[t]? = some e ∧ Agrees ev e.writes) : Contents s' where
  reserved i u todo found := by
    by_cases same : i = thread
    · subst same; exact absurd (by simpa [threads] using found) (reserved u todo)
    · rw [holders]; exact h.reserved i u todo (by simpa [threads,same] using found)
  writing i u todo found := by
    by_cases same : i = thread
    · subst same
      obtain ⟨rfl,zero,rest⟩ := writing u todo (by simpa [threads] using found)
      rw [slots,holders,Function.update_self]
      exact ⟨zero,rest⟩
    · have old : s.threads i = .writing u todo := by simpa [threads,same] using found
      have apart := otherSlot tickets mine same
          (show (s.threads i).ticket = some u by rw [old]; rfl)
      rw [slots,holders,Function.update_of_ne apart]
      exact h.writing i u todo old
  stamped i u found := by
    by_cases here : i = slotOf t
    · subst here
      obtain ⟨rfl,gone,rest⟩ := stamped u (by simpa [slots] using found)
      rw [slots,holders,count,Function.update_self]
      exact ⟨rfl,(tickets.recent u ⟨thread,mine⟩).1,gone,rest⟩
    · obtain ⟨at_,low,gone,rest⟩ := h.stamped i u (by simpa [slots,here] using found)
      rw [slots,holders,count,Function.update_of_ne here]
      exact ⟨at_,low,fun again => gone (held u again),rest⟩

theorem agreesSet {ev : Event} {f v past todo} {e : Emission} (all : e.writes = past ++ (f,v)::todo)
    (good : Agrees ev past) : Agrees (ev.set f v) (past ++ [(f,v)]) := by
  have distinct := writesDistinct e
  rw [all,List.map_append,List.map_cons] at distinct
  intro w member
  rcases List.mem_append.mp member with old | new
  · have apart : w.1 ≠ f := fun same =>
      (List.nodup_append.mp distinct).2.2 w.1 (List.mem_map.mpr ⟨w,old,rfl⟩) f
        List.mem_cons_self same
    simpa [Event.set,apart] using good w old
  · obtain rfl := List.mem_singleton.mp new
    simp [Event.set]

theorem stepContents {s a s'} (tickets : Tickets s) (h : Contents s)
    (ok : step s a = some s') : Contents s' := by
  cases stepped ok with
  | reserve free => exact takenContents tickets h free
  | @clear thread t todo at_ =>
    have mine : (s.threads thread).ticket = some t := by rw [at_]; rfl
    obtain ⟨e,held,all⟩ := h.reserved thread t todo at_
    refine storedContents tickets h mine rfl rfl rfl rfl
      (fun u => (heldKept (s := s) (p := .writing t todo) rfl (by rw [mine]; rfl) u).mp) (by simp)
        ?_ (by simp)
    intro u rest found
    simp only [Producer.writing.injEq] at found
    obtain ⟨rfl,rfl⟩ := found
    exact ⟨rfl,rfl,e,[],held,by simpa using all,by simp [Agrees]⟩
  | @write thread t f v todo at_ =>
    have mine : (s.threads thread).ticket = some t := by rw [at_]; rfl
    obtain ⟨zero,e,past,held,all,good⟩ := h.writing thread t _ at_
    refine storedContents tickets h mine rfl rfl rfl rfl
      (fun u => (heldKept (s := s) (p := .writing t todo) rfl (by rw [mine]; rfl) u).mp) (by simp)
        ?_ (by simp [zero])
    intro u rest found
    simp only [Producer.writing.injEq] at found
    obtain ⟨rfl,rfl⟩ := found
    exact ⟨rfl,zero,e,past ++ [(f,v)],held,by simpa using all,agreesSet all good⟩
  | @commit thread t at_ =>
    have mine : (s.threads thread).ticket = some t := by rw [at_]; rfl
    obtain ⟨_,e,past,held,all,good⟩ := h.writing thread t [] at_
    have gone := heldCommitted at_ tickets.single
    refine storedContents tickets h mine rfl rfl rfl rfl (fun u now => ((gone u).mp now).1)
      (by simp) (by simp) ?_
    intro u found
    simp only [Nat.add_right_cancel_iff] at found
    refine ⟨found.symm,fun now => ((gone t).mp now).2 rfl,e,held,?_⟩
    rw [all,List.append_nil]
    exact good

structure Inv (s : Ring) : Prop where
  tickets : Tickets s
  contents : Contents s

theorem initInv : Inv Ring.init := ⟨initTickets,initContents⟩

theorem invStable : Stable (Moves Paced) Inv := by
  rintro s t h ⟨a,paced,ok⟩
  exact ⟨stepTickets h.tickets paced ok,stepContents h.tickets h.contents ok⟩

/-! The publication word of a slot is its stamp. -/
def Ring.word (s : Ring) : RingLoc → Nat
  | .magic => bufferMagic
  | .writeSeq => s.writeSeq
  | .committed i => (s.slots i).committedSeq
  | .field i f => (s.slots i).field f

def remoteAnswer (s : Ring) (l : RingLoc) (v : Option Nat) : Prop :=
  v = none ∨ v = some (Ring.word s l)

def ringCells : Stamped Ring Nat Field Nat where
  stamp s i := (s.slots i).committedSeq
  word s i f := (s.slots i).field f
  Issued s _ v := v - 1 < s.writeSeq ∧ ¬ Held s (v - 1)
  Content s _ v f x := ∀ e, s.holders[v - 1]? = some e → ∀ y, (f,y) ∈ e.writes → x = y

theorem publishedStays {s a s' u} (h : Tickets s) (ok : step s a = some s') (low : u < s.writeSeq)
    (gone : ¬ Held s u) : u < s'.writeSeq ∧ ¬ Held s' u := by
  cases stepped ok with
  | reserve free =>
    refine ⟨Nat.lt_succ_of_lt low,fun held => ?_⟩
    rcases (heldTaken free u).mp held with rfl | old
    · exact Nat.lt_irrefl _ low
    · exact gone old
  | @clear thread t todo at_ =>
    exact ⟨low,fun held =>
      gone ((heldKept (s := s) (p := .writing t todo) rfl (by rw [at_]; rfl) u).mp held)⟩
  | @write thread t f v todo at_ =>
    exact ⟨low,fun held =>
      gone ((heldKept (s := s) (p := .writing t todo) rfl (by rw [at_]; rfl) u).mp held)⟩
  | commit at_ => exact ⟨low,fun held => gone ((heldCommitted at_ h.single u).mp held).1⟩

theorem holderStays {s a s'} (h : Tickets s) (ok : step s a = some s') {t} (low : t < s.writeSeq) :
    s'.holders[t]? = s.holders[t]? := by
  cases stepped ok with
  | reserve free => exact List.getElem?_append_left (by rwa [h.counted])
  | clear at_ => rfl
  | write at_ => rfl
  | commit at_ => rfl

/- A step puts into a publication word zero, or the number of a ticket still held. -/
theorem stampStep {s a s' i v} (ok : step s a = some s') (live : v ≠ 0)
    (now : (s'.slots i).committedSeq = v) : (s.slots i).committedSeq = v ∨ Held s (v - 1) := by
  cases stepped ok with
  | reserve free => exact .inl now
  | @clear thread t todo at_ =>
    by_cases here : i = slotOf t
    · subst here; simp [Ring.clearSlot,Ring.setSlot,Ring.setThread] at now; omega
    · exact .inl (by simpa [Ring.clearSlot,Ring.setSlot,Ring.setThread,here] using now)
  | @write thread t f x todo at_ =>
    by_cases here : i = slotOf t
    · subst here; exact .inl (by simpa [Ring.writeField,Ring.setSlot,Ring.setThread] using now)
    · exact .inl (by simpa [Ring.writeField,Ring.setSlot,Ring.setThread,here] using now)
  | @commit thread t at_ =>
    by_cases here : i = slotOf t
    · subst here
      have same : t + 1 = v := by simpa [Ring.commitEventSlot,Ring.setSlot,Ring.setThread] using now
      exact .inr ⟨thread,by rw [at_,← same]; rfl⟩
    · exact .inl (by simpa [Ring.commitEventSlot,Ring.setSlot,Ring.setThread,here] using now)

theorem stampedSlot {s i} (h : Inv s) (live : (s.slots i).committedSeq ≠ 0) :
    (s.slots i).committedSeq - 1 < s.writeSeq ∧ ¬ Held s ((s.slots i).committedSeq - 1) ∧
    ∃ e, s.holders[(s.slots i).committedSeq - 1]? = some e ∧ Agrees (s.slots i) e.writes := by
  obtain ⟨_,low,gone,rest⟩ := h.contents.stamped i ((s.slots i).committedSeq - 1) (by omega)
  exact ⟨low,gone,rest⟩

theorem ringLaw : ringCells.Law (Moves Paced) Inv where
  issued s i h live := ⟨(stampedSlot h live).1,(stampedSlot h live).2.1⟩
  content s i f h live e found y member := by
    obtain ⟨_,_,e',held,good⟩ := stampedSlot h live
    obtain rfl := Option.some.inj (held.symm.trans found)
    exact good (f,y) member
  issuedStays := by
    rintro s t i v h ⟨a,_,ok⟩ ⟨low,gone⟩
    exact publishedStays h.tickets ok low gone
  contentStays := by
    rintro s t i v f x h ⟨a,_,ok⟩ issued good e found
    exact good e ((holderStays h.tickets ok issued.1).symm.trans found)
  noReturn := by
    rintro s t i v h ⟨a,_,ok⟩ live issued now
    rcases stampStep ok live now with same | held
    · exact same
    · exact absurd held issued.2

/-! What a pass of reads leaves in its buffer. `J D buf s` is a fact about the words
of D, already read into buf, when the ring is at s. -/
structure Reading (J : Set RingLoc → Buffer → Ring → Prop) : Prop where
  fewer : ∀ {D D' buf s}, D' ⊆ D → J D buf s → J D' buf s
  stays : ∀ {D buf s t}, Inv s → Moves Paced s t → J D buf s → J D buf t
  load : ∀ {D buf s} l, Inv s → J D buf s → J (insert l D) (Function.update buf l (Ring.word s l)) s

abbrev Polled {α : Type} (post : Ring → α → Prop) (p : Read α) (s : Ring) : Prop :=
  Safe (Moves Paced) remoteAnswer post p s

def Reads (prog : Buffer → Read (Bool × Buffer)) (locs : Set RingLoc) : Prop :=
  ∀ (J : Set RingLoc → Buffer → Ring → Prop), Reading J → ∀ s D buf, Inv s → J D buf s →
    Polled (fun t r => Inv t ∧ J D r.2 t ∧ (r.1 = true → J (D ∪ locs) r.2 t)) (prog buf) s

theorem readingStable {J} (reading : Reading J) (D buf) :
    Stable (Moves Paced) (fun s => Inv s ∧ J D buf s) :=
  fun s t h move => ⟨invStable s t h.1 move,reading.stays h.1 move h.2⟩

theorem readWordsReads (locs : List RingLoc) : Reads (readWords locs) { l | l ∈ locs } := by
  intro J reading s D buf ok h
  induction locs generalizing s D buf with
  | nil =>
    refine safeDone (readingStable reading D buf) ⟨ok,h⟩ fun t now => ⟨now.1,now.2,fun _ => ?_⟩
    exact reading.fewer (by simp) now.2
  | cons l rest ih =>
    refine safeLoad (readingStable reading D buf) ⟨ok,h⟩ fun t v now ans => ?_
    rcases ans with rfl | rfl
    · exact safeDone (readingStable reading D buf) now fun t now => ⟨now.1,now.2,by simp⟩
    · refine safeMono ?_
        (ih t (insert l D) (Function.update buf l (Ring.word t l)) now.1
        (reading.load l now.1 now.2))
      rintro u r ⟨ok,all,full⟩
      refine ⟨ok,reading.fewer (Set.subset_insert l D) all,fun good => reading.fewer ?_ (full good)⟩
      intro x member
      simp only [Set.mem_union,Set.mem_ofPred_eq,List.mem_cons,Set.mem_insert_iff] at member ⊢
      tauto

theorem readsNothing {locs} : Reads (fun buf => pure (false,buf)) locs := by
  intro J reading s D buf ok h
  exact safeDone (readingStable reading D buf) ⟨ok,h⟩ fun t now => ⟨now.1,now.2,by simp⟩

/- A first attempt, and after a failure a second one that reads everything again. -/
theorem readsRetry {first second : Buffer → Read (Bool × Buffer)} {locs} (one : Reads first locs)
    (two : Reads second locs) :
    Reads (fun buf => do let bulk ← first buf; if bulk.1 then pure bulk else second bulk.2)
      locs := by
  intro J reading s D buf ok h
  refine safeBind (safeMono ?_ (one J reading s D buf ok h))
  rintro t ⟨done,buf'⟩ ⟨ok,all,full⟩
  cases done with
  | true =>
    refine safeDone (readingStable reading (D ∪ locs) buf') ⟨ok,full rfl⟩ fun u now =>
      ⟨now.1,?_,fun _ => now.2⟩
    exact reading.fewer Set.subset_union_left now.2
  | false => exact two J reading t D buf' ok all

theorem readsThen {first second : Buffer → Read (Bool × Buffer)} {here there}
    (one : Reads first here)
    (two : Reads second there) :
    Reads (fun buf => do let part ← first buf; if part.1 then second part.2 else pure part)
      (here ∪ there) := by
  intro J reading s D buf ok h
  refine safeBind (safeMono ?_ (one J reading s D buf ok h))
  rintro t ⟨done,buf'⟩ ⟨ok,all,full⟩
  cases done with
  | true =>
    refine safeMono ?_ (two J reading t (D ∪ here) buf' ok (full rfl))
    rintro u r ⟨ok,all,full⟩
    refine ⟨ok,reading.fewer Set.subset_union_left all,fun good => ?_⟩
    rw [← Set.union_assoc]
    exact full good
  | false => exact safeDone (readingStable reading D buf') ⟨ok,all⟩ fun u now =>
      ⟨now.1,now.2,by simp⟩

theorem readsCongr {first second : Buffer → Read (Bool × Buffer)} {locs} (one : Reads first locs)
    (same : ∀ buf, second buf = first buf) : Reads second locs := by
  obtain rfl : second = first := funext same
  exact one

theorem readsEmpty {locs : Set RingLoc}
    (none : locs = ∅) : Reads (fun buf => pure (true,buf)) locs := by
  intro J reading s D buf ok h
  refine safeDone (readingStable reading D buf) ⟨ok,h⟩ fun t now => ⟨now.1,now.2,fun _ => ?_⟩
  rw [none,Set.union_empty]
  exact now.2

theorem readRemoteMemoryReads
    (locs : List RingLoc) : Reads (readRemoteMemory locs) { l | l ∈ locs } := by
  unfold readRemoteMemory
  by_cases none : locs = []
  · simp only [if_pos none]; exact readsNothing
  · simp only [if_neg none]; exact readsRetry (readWordsReads locs) (readWordsReads locs)

theorem readEachWordReads (locs : List RingLoc) : Reads (readEachWord locs) { l | l ∈ locs } := by
  induction locs with
  | nil => exact readsCongr (readsEmpty (by simp)) fun _ => rfl
  | cons l rest ih =>
    have split : { x | x ∈ l::rest } = { x | x ∈ [l] } ∪ { x | x ∈ rest } := by ext x; simp
    rw [split]
    exact readsThen (readRemoteMemoryReads [l]) ih

theorem readRemoteIovReads (locs : List RingLoc) : Reads (readRemoteIov locs) { l | l ∈ locs } := by
  unfold readRemoteIov
  by_cases none : locs = []
  · simp only [if_pos none]; exact readsNothing
  · simp only [if_neg none]; exact readsRetry (readWordsReads locs) (readEachWordReads locs)

theorem commitLocsParts {start count offset} :
    { l | l ∈ commitLocs (start + offset) (count - offset) } =
      { l | l ∈ commitLocs (start + offset) (min (count - offset) readIovMax) } ∪
        { l | l ∈ commitLocs (start + (offset + readIovMax)) (count - (offset + readIovMax)) } := by
  by_cases last : count - offset ≤ readIovMax
  · have none : count - (offset + readIovMax) = 0 := by omega
    rw [Nat.min_eq_left last,none]
    simp [commitLocs]
  · have split : count - offset = readIovMax + (count - (offset + readIovMax)) := by omega
    ext l
    conv_lhs => rw [split,commitLocsSplit,Nat.add_assoc]
    rw [Nat.min_eq_right (by omega)]
    simp

theorem readCommitBatchesReads (start count offset : Nat) :
    Reads (readCommitBatches start count offset)
      { l | l ∈ commitLocs (start + offset) (count - offset) } := by
  by_cases more : offset < count
  · have rest := readCommitBatchesReads start count (offset + readIovMax)
    rw [commitLocsParts]
    refine readsCongr (readsThen (readRemoteIovReads _) rest) fun commits => ?_
    rw [readCommitBatches,if_pos more]
  · have none : count - offset = 0 := by omega
    rw [none]
    refine readsCongr (readsEmpty (by simp [commitLocs])) fun commits => ?_
    rw [readCommitBatches,if_neg more]
termination_by count - offset
decreasing_by simp only [readIovMax]; omega

theorem eventLocsParts {seq run remaining} (left : run ≤ remaining) :
    { l | l ∈ eventLocsOf seq remaining } =
      { l | l ∈ eventLocsOf seq run } ∪ { l | l ∈ eventLocsOf (seq + run) (remaining - run) } := by
  have split : remaining = run + (remaining - run) := by omega
  ext l
  conv_lhs => rw [split,eventLocsOf,← List.range'_append_1,List.flatMap_append]
  simp [eventLocsOf]

theorem readEventRunsReads (seq remaining : Nat) (pos : seq ≠ 0) :
    Reads (readEventRuns seq remaining) { l | l ∈ eventLocsOf seq remaining } := by
  by_cases more : 0 < remaining
  · have bound := seqSlotBound seq
    let run := min (eventCapacity - seqSlot seq) remaining
    have fits : run ≤ eventCapacity - seqSlot seq := Nat.min_le_left _ _
    have locs : (List.range' (seqSlot seq) run).flatMap eventLocs = eventLocsOf seq run := by
      rw [runSlots pos fits,eventLocsOf,List.flatMap_map]
    have rest := readEventRunsReads (seq + run) (remaining - run) (by omega)
    rw [eventLocsParts (Nat.min_le_right (eventCapacity - seqSlot seq) remaining)]
    refine readsCongr (readsThen (readRemoteMemoryReads (eventLocsOf seq run)) rest)
      fun events => ?_
    rw [readEventRuns,if_pos more,← locs]
  · have none : remaining = 0 := by omega
    rw [none]
    refine readsCongr (readsEmpty (by simp [eventLocsOf])) fun events => ?_
    rw [readEventRuns,if_neg (by omega)]
termination_by remaining
decreasing_by have := seqSlotBound seq; omega

theorem traceReadCommitSnapshotReads (start count : Nat) :
    Reads (traceReadCommitSnapshot start count) { l | l ∈ commitLocs start count } := by
  unfold traceReadCommitSnapshot
  by_cases bad : start = 0 ∨ eventCapacity < count
  · simp only [if_pos bad]; exact readsNothing
  · simp only [if_neg bad]; exact readCommitBatchesReads start count 0

theorem traceReadEventSnapshotReads (start count : Nat) :
    Reads (traceReadEventSnapshot start count) { l | l ∈ eventLocsOf start count } := by
  unfold traceReadEventSnapshot
  by_cases bad : start = 0 ∨ eventCapacity < count
  · simp only [if_pos bad]; exact readsNothing
  · simp only [if_neg bad]; exact readEventRunsReads start count (by omega)

/-! The three passes. The first sees a stamp on every slot, the second copies the
fields under it, the third finds the stamp again or does not. -/
def SawStamps (D : Set RingLoc) (before : Buffer) (s : Ring) : Prop :=
  ∀ i, .committed i ∈ D → ringCells.Seen i (before (.committed i)) ∅ (fun _ => 0) s

def Copied (before : Buffer) (seen D : Set RingLoc) (events : Buffer) (s : Ring) : Prop :=
  ∀ i, .committed i ∈ seen → ringCells.Seen i (before (.committed i)) { f | .field i f ∈ D }
    (fun f => events (.field i f)) s

def Verified (before events : Buffer) (seen copied D : Set RingLoc) (after : Buffer)
    (s : Ring) : Prop :=
  Copied before seen copied events s ∧ ∀ i, .committed i ∈ seen → .committed i ∈ D →
    before (.committed i) ≠ 0 → after (.committed i) = before (.committed i) →
    ∀ f, .field i f ∈ copied → ringCells.Content s i (before (.committed i)) f (events (.field i f))

theorem seenFewer {s i v} {D D' : Set Field} {copy : Field → Nat} (fewer : D' ⊆ D)
    (seen : ringCells.Seen i v D copy s) : ringCells.Seen i v D' copy s := by
  intro live
  obtain ⟨issued,good⟩ := seen live
  exact ⟨issued,fun still f member => good still f (fewer member)⟩

theorem sawReading : Reading SawStamps where
  fewer sub h i member := h i (sub member)
  stays ok move h i member := seenStays ringLaw ok move (h i member)
  load {D buf s} l ok h i member := by
    by_cases same : RingLoc.committed i = l
    · subst same
      rw [Function.update_self]
      exact seenFirst ringLaw ok
    · rw [Function.update_of_ne same]
      exact h i ((Set.mem_insert_iff.mp member).resolve_left same)

theorem copiedReading (before : Buffer) (seen : Set RingLoc) : Reading (Copied before seen) where
  fewer sub h i member := seenFewer (fun _ inside => sub inside) (h i member)
  stays ok move h i member := seenStays ringLaw ok move (h i member)
  load {D buf s} l ok h i member := by
    cases l with
    | field j g =>
      by_cases here : j = i
      · subst here
        have next := seenWord ringLaw ok (h j member) g
        have fields : { f | RingLoc.field j f ∈ insert (RingLoc.field j g) D } =
            insert g { f | .field j f ∈ D } := by
          ext f; simp
        have copy : (fun f => Function.update buf (.field j g) (Ring.word s (.field j g))
            (.field j f)) =
            Function.update (fun f => buf (.field j f)) g (ringCells.word s j g) := by
          funext f
          by_cases same : f = g <;> simp [same,Ring.word,ringCells]
        rw [fields,copy]
        exact next
      · have apart : i ≠ j := fun same => here same.symm
        simpa [apart] using h i member
    | magic => simpa using h i member
    | writeSeq => simpa using h i member
    | committed j => simpa using h i member

theorem verifiedReading (before events : Buffer) (seen copied : Set RingLoc) :
    Reading (Verified before events seen copied) where
  fewer sub h := ⟨h.1,fun i first member => h.2 i first (sub member)⟩
  stays ok move h := by
    refine ⟨(copiedReading before seen).stays ok move h.1,
      fun i first member live same f inside => ?_⟩
    have issued := (h.1 i first live).1
    exact ringLaw.contentStays _ _ i _ f _ ok move issued (h.2 i first member live same f inside)
  load {D buf s} l ok h := by
    refine ⟨h.1,fun i first member live same f inside => ?_⟩
    by_cases here : RingLoc.committed i = l
    · subst here
      rw [Function.update_self] at same
      exact seenLast (h.1 i first) live same f inside
    · rw [Function.update_of_ne here] at same
      exact h.2 i first ((Set.mem_insert_iff.mp member).resolve_left here) live same f inside

/- What the double read is good for: a number found on both sides of the copy. -/
def Trusted (low high : Nat) (snap : Snapshots) (s : Ring) : Prop :=
  ∀ n, low ≤ n → n ≤ high → n ≠ 0 → snap.before (.committed (seqSlot n)) = n →
    snap.after (.committed (seqSlot n)) = n →
    ringCells.Issued s (seqSlot n) n ∧
      ∀ f, ringCells.Content s (seqSlot n) n f (snap.events (.field (seqSlot n) f))

theorem trustedStable (low high snap) :
    Stable (Moves Paced) (fun s => Inv s ∧ Trusted low high snap s) := by
  rintro s t ⟨ok,h⟩ move
  refine ⟨invStable s t ok move,fun n lo hi live first last => ?_⟩
  obtain ⟨issued,good⟩ := h n lo hi live first last
  exact ⟨ringLaw.issuedStays s t _ n ok move issued,
    fun f => ringLaw.contentStays s t _ n f _ ok move issued (good f)⟩

theorem verifiedTrusted {start count s} {snap : Snapshots}
    (h : Verified snap.before snap.events (∅ ∪ { l | l ∈ commitLocs start count })
      (∅ ∪ { l | l ∈ eventLocsOf start count }) (∅ ∪ { l | l ∈ commitLocs start count })
        snap.after s) :
    Trusted start (start + count - 1) snap s := by
  intro n low high live first last
  have inside : n ∈ List.range' start count := List.mem_range'_1.mpr ⟨low,by omega⟩
  have commit : RingLoc.committed (seqSlot n) ∈ ∅ ∪ { l | l ∈ commitLocs start count } :=
    .inr (List.mem_map.mpr ⟨n,inside,rfl⟩)
  have field : ∀ f, RingLoc.field (seqSlot n) f ∈ ∅ ∪ { l | l ∈ eventLocsOf start count } :=
    fun f =>
    .inr (List.mem_flatMap.mpr ⟨n,inside,by simp [eventLocs,fieldListed]⟩)
  have issued := (h.1 (seqSlot n) commit (by rwa [first])).1
  have good := h.2 (seqSlot n) commit commit (by rwa [first]) (by rw [first,last])
  rw [first] at issued good
  exact ⟨issued,fun f => good f (field f)⟩

theorem refreshTrusted {s} (start count : Nat) (snap : Snapshots) (some_ : count ≠ 0) (ok : Inv s) :
    Polled (fun t r => Inv t ∧ (r.1 = true → Trusted start (start + count - 1) r.2 t))
      (traceRefreshEventSnapshots start count snap) s := by
  have stop : ∀ {t : Ring} (snap : Snapshots), Inv t →
      Polled (fun t (r : Bool × Snapshots) => Inv t ∧
        (r.1 = true → Trusted start (start + count - 1) r.2 t))
        (pure (false,snap)) t := fun snap ok => safeDone invStable ok fun u now => ⟨now,by simp⟩
  rw [traceRefreshEventSnapshots,if_neg some_]
  refine safeBind (safeMono ?_
    (traceReadCommitSnapshotReads start count _ sawReading s ∅ snap.before ok ?_))
  · rintro t ⟨done,before⟩ ⟨ok,_,saw⟩
    cases done with
    | false => exact stop _ ok
    | true =>
      have seen : Copied before (∅ ∪ { l | l ∈ commitLocs start count }) ∅ snap.events t := by
        intro i member live
        obtain ⟨issued,_⟩ := saw rfl i member live
        exact ⟨issued,by simp⟩
      refine safeBind (safeMono ?_
        (traceReadEventSnapshotReads start count _ (copiedReading before _) t ∅ snap.events ok
        seen))
      rintro u ⟨done,events⟩ ⟨ok,_,copied⟩
      cases done with
      | false => exact stop _ ok
      | true =>
        refine safeBind (safeMono ?_ (traceReadCommitSnapshotReads start count _
          (verifiedReading before events (∅ ∪ { l | l ∈ commitLocs start count })
            (∅ ∪ { l | l ∈ eventLocsOf start count })) u ∅ snap.after ok ⟨copied rfl,by simp⟩))
        rintro v ⟨done,after⟩ ⟨ok,_,verified⟩
        cases done with
        | false => exact stop _ ok
        | true =>
          have now : Trusted start (start + count - 1) ⟨before,events,after⟩ v :=
            verifiedTrusted (verified rfl)
          exact safeDone (trustedStable _ _ _) ⟨ok,now⟩ fun w now => ⟨now.1,fun _ => now.2⟩
  · intro i member
    exact absurd member (Set.notMem_empty _)

def Intact (s : Ring) (seq : Nat) (ev : Event) : Prop :=
  0 < seq ∧ ev.committedSeq = seq ∧ ∃ e, s.holders[seq - 1]? = some e ∧ Agrees ev e.writes

def AllIntact (s : Ring) (out : List Record) : Prop := ∀ seq ev, .event seq ev ∈ out →
    Intact s seq ev

theorem intactStable (out) : Stable (Moves Paced) (fun s => Inv s ∧ AllIntact s out) := by
  rintro s t ⟨ok,h⟩ move
  refine ⟨invStable s t ok move,fun seq ev member => ?_⟩
  obtain ⟨pos,same,e,held,good⟩ := h seq ev member
  obtain ⟨a,_,stepped⟩ := move
  obtain ⟨low,_⟩ := List.getElem?_eq_some_iff.mp held
  exact ⟨pos,same,e,(holderStays ok.tickets stepped (ok.tickets.counted ▸ low)).trans held,good⟩

theorem readyIntact {s low high seq ev} {snap : Snapshots} (ok : Inv s)
    (trusted : Trusted low high snap s)
    (lo : low ≤ seq) (hi : seq ≤ high)
    (ready : traceSnapshotSlot seq snap = .ready ev) : Intact s seq ev := by
  unfold traceSnapshotSlot at ready
  split at ready
  · cases ready
  · rename_i live
    dsimp only at ready
    split at ready
    · rename_i match_
      obtain ⟨first,copied,last⟩ := match_
      obtain ⟨issued,good⟩ := trusted seq lo hi live first last
      cases ready
      obtain ⟨e,held⟩ : ∃ e, s.holders[seq - 1]? = some e :=
        ⟨_,List.getElem?_eq_getElem (by rw [ok.tickets.counted]; exact issued.1)⟩
      exact ⟨Nat.pos_of_ne_zero live,copied,e,held,fun w member => good w.1 e held w.2 member⟩
    · split at ready <;> cases ready

theorem allIntactSnoc {s out seq ev} (all : AllIntact s out) (one : Intact s seq ev) :
    AllIntact s (out ++ [.event seq ev]) := by
  intro n ev' member
  rcases List.mem_append.mp member with old | new
  · exact all n ev' old
  · cases List.mem_singleton.mp new
    exact one

theorem allIntactLost {s} {p : Poll} {seq writeSeq} (all : AllIntact s p.out) :
    AllIntact s (skipLost p seq writeSeq).out := by
  intro n ev member
  rcases List.mem_append.mp member with old | new
  · exact all n ev old
  · unfold traceLogLostEvents at new
    split at new <;> simp at new

abbrev PollIntact (s : Ring) (p : Poll) : Prop := Inv s ∧ AllIntact s p.out

theorem stopIntact {s} {p : Poll} (ok : Inv s) (all : AllIntact s p.out) :
    Polled PollIntact (pure p) s :=
  safeDone (intactStable p.out) ⟨ok,all⟩ fun _ now => now

theorem loopIntact (fuel : Nat) {s} {seq writeSeq : Nat} {p : Poll} (ok : Inv s)
    (trusted : Trusted seq writeSeq p.snap s) (all : AllIntact s p.out) :
    Polled PollIntact (dumpLoop fuel seq writeSeq p) s := by
  induction fuel generalizing s seq writeSeq p with
  | zero => exact stopIntact (p := p.fail) ok all
  | succ fuel ih =>
    rw [dumpLoop]
    split
    · rename_i more
      split
      · rename_i ev ready
        have one := readyIntact ok trusted (Nat.le_refl _) more ready
        exact ih ok (fun n lo hi => trusted n (by omega) hi) (allIntactSnoc all one)
      · exact stopIntact ok all
      · refine safeBind (safeMono ?_ (safeFrame (intactStable p.out) ⟨ok,all⟩ (safeTrue _ s)))
        rintro t (_ | ⟨magic,fresh⟩) ⟨⟨ok,all⟩,_⟩
        · exact stopIntact (p := p.fail) ok all
        · dsimp only
          split
          · exact stopIntact (p := p.fail) ok all
          · split
            · have lost : AllIntact t (skipLost p seq fresh).out := allIntactLost all
              generalize skipLost p seq fresh = p at lost ⊢
              generalize fresh - eventCapacity + 1 = start
              refine safeBind (safeMono ?_ (safeFrame (intactStable p.out) ⟨ok,lost⟩
                (refreshTrusted start (fresh - start + 1) p.snap (Nat.succ_ne_zero _) ok)))
              rintro u ⟨done,snap⟩ ⟨⟨ok,all⟩,_,trusted⟩
              cases done with
              | false => exact stopIntact (p := { p with snap := snap, ok := false }) ok all
              | true =>
                refine ih (p := { p with snap := snap }) ok (fun n lo hi => ?_) all
                exact trusted rfl n lo (by omega)
            · exact stopIntact ok all
      · exact stopIntact (p := p.fail) ok all
    · exact stopIntact ok all

theorem dumpIntact {s} (last : Nat) (snap : Snapshots) (ok : Inv s) :
    Polled PollIntact (dumpTraceEventsSince last snap) s := by
  have empty : ∀ {t}, AllIntact t [] := by simp [AllIntact]
  refine safeBind (safeMono ?_ (safeFrame invStable ok (safeTrue _ s)))
  rintro t (_ | ⟨magic,writeSeq⟩) ⟨ok,_⟩
  · exact stopIntact ok empty
  · dsimp only
    split
    · exact stopIntact ok (by simp [AllIntact])
    · split
      · exact stopIntact ok empty
      · generalize began :
          (if eventCapacity < writeSeq - last then skipLost ⟨true,last,snap,[]⟩ (last + 1) writeSeq
          else ⟨true,last,snap,[]⟩) = p
        generalize (if eventCapacity < writeSeq - last then
          writeSeq - eventCapacity + 1 else last + 1) = seq
        have all : AllIntact t p.out := by
          rw [← began]
          split
          · exact allIntactLost empty
          · exact empty
        refine safeBind (safeMono ?_ (safeFrame (intactStable p.out) ⟨ok,all⟩
          (refreshTrusted seq (writeSeq - seq + 1) p.snap (Nat.succ_ne_zero _) ok)))
        rintro u ⟨done,snap'⟩ ⟨⟨ok,all⟩,_,trusted⟩
        cases done with
        | false => exact stopIntact (p := { p with snap := snap', ok := false }) ok all
        | true => exact loopIntact (2^64) (p := { p with snap := snap' }) ok (fun n lo hi =>
            trusted rfl n lo (by omega)) all

/- The tracer runs polls one after the other, from whatever position and with
whatever the last poll left in the snapshot buffers. -/
def Polling (p : Read Poll) : Prop := ∃ last snap, p = dumpTraceEventsSince last snap

abbrev Tracing := System Ring Unit RingLoc (Option Nat) Poll

def Tracing.init : Tracing := ⟨Ring.init,fun _ => none⟩

abbrev Tracing.Run : Tracing → Tracing → Prop :=
  ReflTransGen (System.Step (Moves Paced) remoteAnswer Polling)

/-- An event that a poll delivers under number `seq` holds, in every field that the
producer of ticket `seq - 1` stores, what that producer stored. -/
theorem readyEventIntact {c : Tracing} (run : Tracing.Run Tracing.init c) {p}
    (done : c.readers () = some (.done p)) :
    ∀ seq ev, .event seq ev ∈ p.out → 0 < seq ∧ ev.committedSeq = seq ∧
      ∃ e, c.state.holders[seq - 1]? = some e ∧ ∀ w ∈ e.writes, ev.field w.1 = w.2 := by
  have polls : ∀ q s, Polling q → Inv s → Polled PollIntact q s := by
    rintro q s ⟨last,snap,rfl⟩ ok
    exact dumpIntact last snap ok
  obtain ⟨_,all⟩ := systemResults invStable polls (c := Tracing.init) initInv (fun _ => rfl) run
  exact (safeNow (all () _ done)).2

def polledAt (s : Ring) (last : Nat) : Tracing :=
  ⟨s,fun _ => some (.done
    ((dumpTraceEventsSince last ⟨fun _ => 0,fun _ => 0,fun _ => 0⟩).eval (still (Ring.word s))))⟩

theorem polledRun {s} (run : ReflTransGen (Moves Paced) Ring.init s) (last : Nat) :
    Tracing.Run Tracing.init (polledAt s last) := by
  let poll := dumpTraceEventsSince last ⟨fun _ => 0,fun _ => 0,fun _ => 0⟩
  let begun : Tracing := ⟨s,Function.update (fun _ => none) () (some poll)⟩
  have moves : Tracing.Run Tracing.init ⟨s,fun _ => none⟩ := systemMoves (c := Tracing.init) run
  refine (moves.tail (.start () poll (by simp) ⟨last,_,rfl⟩)).trans ?_
  have done : Tracing.Run begun _ := systemEval (c := begun) (i := ()) (p := poll)
    (still (Ring.word s)) (by simp [begun]) (fun l => .inr rfl)
  have same : (polledAt s last) = { begun with readers := Function.update begun.readers () (some
      (.done (poll.eval (still (Ring.word s))))) } := by
    simp only [polledAt,begun,System.mk.injEq,true_and]
    funext i
    simp [poll]
  rw [same]
  exact done

theorem polledEvents (s : Ring) (last : Nat) (ahead : last ≤ s.writeSeq)
    (recent : s.writeSeq - last ≤ eventCapacity)
    (published : ∀ n, last < n → n ≤ s.writeSeq → (s.slots (seqSlot n)).committedSeq = n) :
    ∃ p, (polledAt s last).readers () = some (.done p) ∧
      p.out = eventsFrom (Ring.word s) (last + 1) (s.writeSeq - last) := by
  have first : firstLeft last s.writeSeq = last + 1 := if_neg (by omega)
  have none : lostBefore last s.writeSeq = [] := if_neg (by omega)
  obtain ⟨fresh,done⟩ := @pollStill (Ring.word s) last ⟨fun _ => 0,fun _ => 0,fun _ => 0⟩ rfl ahead
    (fun n low high =>
      published n (by rw [show Ring.word s .writeSeq = s.writeSeq from rfl,first] at low; exact low)
      high)
  refine ⟨_,congrArg (fun p => some (Program.done p)) done,?_⟩
  simp only [Ring.word,first,none,List.nil_append,Nat.add_sub_add_right]

def entryOf (value1 : Nat) : Emission :=
  .entry ⟨1,1,0,0,0⟩ (fun i => if i.val = 1 then value1 else 0) (fun _ => 0)
def returnOf : Emission := .ret ⟨1,1,0,0,0⟩ 0 0

theorem firstEventIntact : ∃ c p ev, Tracing.Run Tracing.init c ∧ c.readers () = some (.done p) ∧
    p.out = [.event 1 ev] ∧ 0 < 1 ∧ ev.committedSeq = 1 ∧
    ∃ e, c.state.holders[1 - 1]? = some e ∧ ∀ w ∈ e.writes, ev.field w.1 = w.2 := by
  let s := Ring.init.producedAll [entryOf 7]
  obtain ⟨p,done,out⟩ := polledEvents s 0 (by decide) (by decide) (by
    intro n low high
    obtain rfl : n = 1 := by
      simp only [s,producedAllCons,producedAllNil,Ring.produced,Ring.init] at high; omega
    rfl)
  have run := polledRun (aloneRun [entryOf 7]) 0
  exact ⟨_,p,_,run,done,out,
    readyEventIntact run done 1 _ (by rw [out]; exact List.mem_singleton_self _)⟩

/- Ticket 0 is an entry; a lap later its slot goes to a return. -/
def reused (between : List Emission) : Ring :=
  Ring.init.producedAll (entryOf 7 :: (between ++ [returnOf]))

theorem reusedState {between : List Emission} (lap : between.length + 1 = eventCapacity) :
    (reused between).writeSeq = eventCapacity + 1 ∧
    (reused between).holders = entryOf 7 :: (between ++ [returnOf]) ∧
    ((reused between).slots 0).committedSeq = eventCapacity + 1 ∧
      ((reused between).slots 0).field (.arg 1) = 7 := by
  obtain ⟨_,count,_,holders⟩ := producedAllSame Ring.init (entryOf 7 :: (between ++ [returnOf]))
  obtain ⟨_,before,_,_⟩ := producedAllSame (Ring.init.produced (entryOf 7)) between
  have old := producedAllOther (Ring.init.produced (entryOf 7)) between (i := 0) (by
    intro k low
    simp only [Ring.produced,Ring.init,slotOf]
    rw [Nat.mod_eq_of_lt (by omega)]
    omega)
  have last : reused between = ((Ring.init.produced (entryOf 7)).producedAll between).produced
      returnOf := by
    rw [reused,producedAllCons,Ring.producedAll,List.foldl_append]
    rfl
  have full : ((Ring.init.produced (entryOf 7)).producedAll between).writeSeq = eventCapacity := by
    rw [before,← lap]; exact Nat.add_comm _ _
  generalize (Ring.init.produced (entryOf 7)).producedAll between = s at *
  have slot : slotOf s.writeSeq = 0 := by rw [full]; exact Nat.mod_self _
  have now : (reused between).slots 0 =
      { (s.slots 0).write returnOf.writes with committedSeq := s.writeSeq + 1 } := by
    rw [last,Ring.produced]
    simp only [slot,Function.update_self]
  have absent : Field.arg 1 ∉ returnOf.writes.map Prod.fst := by decide
  refine ⟨by rw [last,← full]; rfl,holders,by rw [now,← full],?_⟩
  rw [now]
  dsimp only
  rw [writeOther _ absent,old]
  decide

/-- A return stores two of the fourteen union words. The event it delivers from a
slot that an entry used before still carries an argument of that entry. -/
theorem returnCarriesOlderWord : ∃ c p seq ev e older, Tracing.Run Tracing.init c ∧
    c.readers () = some (.done p) ∧
    .event seq ev ∈ p.out ∧ c.state.holders[seq - 1]? = some e ∧
      (.arg 1,ev.field (.arg 1)) ∉ e.writes ∧
    c.state.holders[0]? = some older ∧ (.arg 1,ev.field (.arg 1)) ∈ older.writes ∧ seq - 1 ≠ 0 := by
  obtain ⟨between,lap⟩ : ∃ between : List Emission, between.length + 1 = eventCapacity :=
    ⟨List.replicate (eventCapacity - 1) returnOf,
      by rw [List.length_replicate]; exact Nat.sub_add_cancel (by decide)⟩
  obtain ⟨count,holders,stamp,word⟩ := reusedState lap
  have slot : seqSlot (eventCapacity + 1) = 0 := Nat.mod_self _
  obtain ⟨p,done,out⟩ := polledEvents (reused between) eventCapacity (by omega) (by omega) (by
    intro n low high
    obtain rfl : n = eventCapacity + 1 := by omega
    rw [slot,stamp])
  have one : (reused between).writeSeq - eventCapacity = 1 := by omega
  refine ⟨polledAt (reused between) eventCapacity,p,between.length + 2,(reused between).slots 0,
    returnOf,entryOf 7,
    polledRun (aloneRun _) _,done,?_,?_,?_,?_,?_,by simp⟩
  · rw [out,one,lap.symm]
    simp only [eventsFrom,List.range'_one,List.map_singleton,List.mem_singleton,Record.event.injEq,
      true_and]
    rw [lap,slot]
    rfl
  · rw [show (polledAt (reused between) eventCapacity).state = reused between from rfl,holders]
    simp
  · rw [word]; decide
  · rw [show (polledAt (reused between) eventCapacity).state = reused between from rfl,holders]
    rfl
  · rw [word]; decide

end ZeroTrace.RingSnapshot
