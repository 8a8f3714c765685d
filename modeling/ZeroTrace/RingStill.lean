import ZeroTrace.RingReader

/-! Polls of a memory that stands still and answers every word: each read fills in
exactly the words it names, and each round of the loop delivers one event. -/
namespace ZeroTrace.RingStill
open SharedRead TraceBuffer RingReader

variable (m : Buffer)

def still (l : RingLoc) : Option Nat := some (m l)

def filled (locs : List RingLoc) (buf : Buffer) : Buffer := fun l => if l ∈ locs then m l else buf l

theorem filledNone (buf : Buffer) : filled m [] buf = buf := by
  funext l; simp [filled]

theorem filledTwice (xs ys : List RingLoc) (buf : Buffer) :
    filled m ys (filled m xs buf) = filled m (xs ++ ys) buf := by
  funext l
  by_cases hy : l ∈ ys <;> by_cases hx : l ∈ xs <;> simp [filled,hx,hy]

theorem readWordsStill (locs : List RingLoc) (buf : Buffer) :
    (readWords locs buf).eval (still m) = (true,filled m locs buf) := by
  induction locs generalizing buf with
  | nil => simp [readWords,Program.eval,filledNone]
  | cons l rest ih =>
    have first : Function.update buf l (m l) = filled m [l] buf := by
      funext x
      by_cases same : x = l <;> simp [filled,same]
    simp only [readWords,Program.eval,still,ih,first,filledTwice,List.singleton_append]

theorem readRemoteMemoryStill {locs : List RingLoc} (buf : Buffer) (some_ : locs ≠ []) :
    (readRemoteMemory locs buf).eval (still m) = (true,filled m locs buf) := by
  rw [readRemoteMemory,if_neg some_,evalBind,readWordsStill]
  rfl

theorem readRemoteIovStill {locs : List RingLoc} (buf : Buffer) (some_ : locs ≠ []) :
    (readRemoteIov locs buf).eval (still m) = (true,filled m locs buf) := by
  rw [readRemoteIov,if_neg some_,evalBind,readWordsStill]
  rfl

theorem commitLocsSplit (start a b : Nat) :
    commitLocs start (a + b) = commitLocs start a ++ commitLocs (start + a) b := by
  rw [commitLocs,← List.range'_append_1,List.map_append]
  rfl

theorem readCommitBatchesStill (start count offset : Nat) (commits : Buffer) :
    (readCommitBatches start count offset commits).eval (still m) =
      (true,filled m (commitLocs (start + offset) (count - offset)) commits) := by
  induction offset, commits using readCommitBatches.induct count with
  | case1 offset commits more ih =>
    have some_ : commitLocs (start + offset) (min (count - offset) readIovMax) ≠ [] := by
      simp only [commitLocs,ne_eq,List.map_eq_nil_iff,List.range'_eq_nil_iff,readIovMax]
      omega
    rw [readCommitBatches,if_pos more,evalBind,readRemoteIovStill m commits some_]
    have rest := ih (true,
        filled m (commitLocs (start + offset) (min (count - offset) readIovMax)) commits)
    simp only [if_pos] at rest ⊢
    rw [rest,filledTwice]
    by_cases last : count - offset ≤ readIovMax
    · have none : count - (offset + readIovMax) = 0 := by omega
      simp [none,Nat.min_eq_left last,commitLocs]
    · have split : count - offset = readIovMax + (count - (offset + readIovMax)) := by omega
      rw [Nat.min_eq_right (by omega),← Nat.add_assoc]
      conv_rhs => rw [split,commitLocsSplit]
  | case2 offset commits spent =>
    have none : count - offset = 0 := by omega
    rw [readCommitBatches,if_neg spent,none]
    simp [Program.eval,commitLocs,filledNone]

theorem runSlots {seq run : Nat} (pos : seq ≠ 0) (fits : run ≤ eventCapacity - seqSlot seq) :
    List.range' (seqSlot seq) run = (List.range' seq run).map seqSlot := by
  apply List.ext_getElem (by simp)
  intro i low _
  simp only [List.length_range'] at low
  simp only [List.getElem_range',List.getElem_map,Nat.one_mul,seqSlot] at *
  have shift : seq + i - 1 = (seq - 1) + i := by omega
  have small : (seq - 1) % eventCapacity + i < eventCapacity := by omega
  rw [shift,← Nat.mod_add_mod,Nat.mod_eq_of_lt small]

def eventLocsOf (seq count : Nat) : List RingLoc :=
  (List.range' seq count).flatMap (fun n => eventLocs (seqSlot n))

theorem readEventRunsStill {seq remaining : Nat} (events : Buffer) (pos : seq ≠ 0) :
    (readEventRuns seq remaining events).eval (still m) =
      (true,filled m (eventLocsOf seq remaining) events) := by
  induction seq, remaining, events using readEventRuns.induct with
  | case1 seq remaining events more run ih =>
    have bound := seqSlotBound seq
    have fits : run ≤ eventCapacity - seqSlot seq := Nat.min_le_left _ _
    have left : run ≤ remaining := Nat.min_le_right _ _
    have here : 0 < run := Nat.lt_min.mpr ⟨by omega,more⟩
    have locs : (List.range' (seqSlot seq) run).flatMap eventLocs = eventLocsOf seq run := by
      rw [runSlots pos fits,eventLocsOf,List.flatMap_map]
    have some_ : eventLocsOf seq run ≠ [] := by
      obtain ⟨n,more⟩ : ∃ n, run = n + 1 := ⟨run - 1,by omega⟩
      simp [more,eventLocsOf,List.range'_succ,eventLocs]
    have rest := ih (true,filled m (eventLocsOf seq run) events) (by omega)
    have split : remaining = run + (remaining - run) := by omega
    have whole : eventLocsOf seq run ++ eventLocsOf (seq + run) (remaining - run) =
        eventLocsOf seq remaining := by
      conv_rhs => rw [split,eventLocsOf,← List.range'_append_1,List.flatMap_append]
      rfl
    rw [readEventRuns,if_pos more,evalBind,locs,readRemoteMemoryStill m events some_]
    simp only [if_pos] at rest ⊢
    rw [rest,filledTwice,whole]
  | case2 seq remaining events spent =>
    have none : remaining = 0 := by omega
    rw [readEventRuns,if_neg spent,none]
    simp [Program.eval,eventLocsOf,filledNone]

structure Fresh (start count : Nat) (snap : Snapshots) : Prop where
  before : ∀ seq ∈ List.range' start count, snap.before (.committed (seqSlot seq)) =
    m (.committed (seqSlot seq))
  events : ∀ seq ∈ List.range' start count, ∀ l ∈ eventLocs (seqSlot seq), snap.events l = m l
  after : ∀ seq ∈ List.range' start count, snap.after (.committed (seqSlot seq)) =
    m (.committed (seqSlot seq))

theorem refreshStill (start count : Nat) (snap : Snapshots) (pos : start ≠ 0)
    (fits : count ≤ eventCapacity) :
    ∃ fresh, (traceRefreshEventSnapshots start count snap).eval (still m) = (true,fresh) ∧
      Fresh m start count fresh := by
  by_cases none : count = 0
  · refine ⟨snap,by simp [traceRefreshEventSnapshots,none,Program.eval],?_⟩
    constructor <;> simp [none]
  · have guard : ¬ (start = 0 ∨ eventCapacity < count) := by omega
    let commits := filled m (commitLocs start count)
    refine ⟨⟨commits snap.before,filled m (eventLocsOf start count) snap.events,commits snap.after⟩,
      ?_,?_⟩
    · simp [traceRefreshEventSnapshots,none,evalBind,traceReadCommitSnapshot,traceReadEventSnapshot,
        guard,
        readCommitBatchesStill,readEventRunsStill m _ pos,Program.eval,commits]
    · have member : ∀ seq ∈ List.range' start count,
        RingLoc.committed (seqSlot seq) ∈ commitLocs start count :=
        fun seq inside => List.mem_map.mpr ⟨seq,inside,rfl⟩
      refine ⟨fun seq inside => if_pos (member seq inside),fun seq inside l found => if_pos ?_,
        fun seq inside => if_pos (member seq inside)⟩
      exact List.mem_flatMap.mpr ⟨seq,inside,found⟩

theorem slotStill {start count seq : Nat} {snap : Snapshots} (fresh : Fresh m start count snap)
    (pos : seq ≠ 0)
    (inside : seq ∈ List.range' start count) (published : m (.committed (seqSlot seq)) = seq) :
    traceSnapshotSlot seq snap = .ready (Buffer.event m (seqSlot seq)) := by
  have event : Buffer.event snap.events (seqSlot seq) = Buffer.event m (seqSlot seq) := by
    simp only [Buffer.event,Event.mk.injEq]
    refine ⟨fresh.events seq inside _ (by simp [eventLocs]),funext fun f => ?_⟩
    exact fresh.events seq inside _ (by simp [eventLocs,fieldListed])
  rw [traceSnapshotSlot,if_neg pos,event,fresh.before seq inside,fresh.after seq inside]
  exact if_pos ⟨published,published,published⟩

theorem headerStill : traceReadBufferHeader.eval (still m) = some (m .magic,m .writeSeq) := by
  rw [traceReadBufferHeader,evalBind,readRemoteMemoryStill m _ (by simp)]
  simp [Program.eval,filled]

def eventsFrom (seq count : Nat) : List Record :=
  (List.range' seq count).map (fun n => .event n (Buffer.event m (seqSlot n)))

theorem loopStill {fuel seq writeSeq start count : Nat} {p : Poll}
    (fresh : Fresh m start count p.snap)
    (published : ∀ n, seq ≤ n → n ≤ writeSeq → n ∈ List.range' start count ∧
      m (.committed (seqSlot n)) = n)
    (next : p.lastSeq + 1 = seq) (enough : writeSeq + 1 < seq + fuel)
    (within : seq ≤ writeSeq + 1) :
    (dumpLoop fuel seq writeSeq p).eval (still m) =
      { p with lastSeq := writeSeq, out := p.out ++ eventsFrom m seq (writeSeq + 1 - seq) } := by
  induction fuel generalizing seq p with
  | zero => omega
  | succ fuel ih =>
    by_cases more : seq ≤ writeSeq
    · obtain ⟨inside,good⟩ := published seq (Nat.le_refl _) more
      rw [dumpLoop,if_pos more,slotStill m fresh (by omega) inside good]
      let q : Poll := { p with lastSeq := seq, out := p.out ++
        [.event seq (Buffer.event m (seqSlot seq))] }
      have rest := @ih (seq + 1) q fresh (fun n low high => published n (by omega) high) rfl
          (by omega) (by omega)
      have count : writeSeq + 1 - seq = (writeSeq + 1 - (seq + 1)) + 1 := by omega
      simp only [q] at rest ⊢
      rw [rest,count,eventsFrom,eventsFrom,List.range'_succ,List.map_cons]
      simp
    · have none : writeSeq + 1 - seq = 0 := by omega
      have same : p.lastSeq = writeSeq := by omega
      rw [dumpLoop,if_neg more,none]
      simp [Program.eval,eventsFrom,← same]

/- Where a poll starts: past what a lapped ring has lost. -/
def firstLeft (last writeSeq : Nat) : Nat :=
  if eventCapacity < writeSeq - last then writeSeq - eventCapacity + 1 else last + 1

def lostBefore (last writeSeq : Nat) : List Record :=
  if eventCapacity < writeSeq - last then
    [.lost (last + 1) (writeSeq - eventCapacity - last) writeSeq] else []

theorem passStill {seq writeSeq : Nat} {p : Poll} (next : p.lastSeq + 1 = seq)
    (within : seq ≤ writeSeq)
    (fits : writeSeq - seq + 1 ≤ eventCapacity)
    (published : ∀ n, seq ≤ n → n ≤ writeSeq → m (.committed (seqSlot n)) = n) :
    ∃ fresh, (traceRefreshEventSnapshots seq (writeSeq - seq + 1) p.snap).eval (still m) =
      (true,fresh) ∧
      (dumpLoop (2^64) seq writeSeq { p with snap := fresh }).eval (still m) =
        ⟨p.ok,writeSeq,fresh,p.out ++ eventsFrom m seq (writeSeq + 1 - seq)⟩ := by
  obtain ⟨fresh,read,good⟩ := refreshStill m seq (writeSeq - seq + 1) p.snap (by omega) fits
  have rounds : eventCapacity + 1 < 2^64 := by decide
  refine ⟨fresh,read,
    loopStill m good (fun n low high => ⟨?_,published n low high⟩) next (by omega) (by omega)⟩
  exact List.mem_range'_1.mpr ⟨low,by omega⟩

theorem pollStill {last : Nat} (snap : Snapshots) (magic : m .magic = bufferMagic)
    (ahead : last ≤ m .writeSeq)
    (published : ∀ n, firstLeft last (m .writeSeq) ≤ n → n ≤ m .writeSeq →
      m (.committed (seqSlot n)) = n) :
    ∃ fresh, (dumpTraceEventsSince last snap).eval (still m) = ⟨true,m .writeSeq,fresh,
      lostBefore last (m .writeSeq) ++
        eventsFrom m (firstLeft last (m .writeSeq))
          (m .writeSeq + 1 - firstLeft last (m .writeSeq))⟩ := by
  have some_ : 0 < eventCapacity := by decide
  rw [dumpTraceEventsSince,evalBind,headerStill]
  generalize m .writeSeq = writeSeq at *
  simp only [magic,ne_eq,not_true_eq_false,if_false]
  by_cases none : writeSeq = 0 ∨ writeSeq ≤ last
  · have same : writeSeq = last := by omega
    have zero : writeSeq + 1 - firstLeft last writeSeq = 0 := by simp [same,firstLeft]
    rw [if_pos none,zero]
    exact ⟨snap,by simp [Program.eval,lostBefore,same,eventsFrom]⟩
  · rw [if_neg none]
    simp only [evalBind]
    by_cases lapped : eventCapacity < writeSeq - last
    · simp only [firstLeft,lostBefore,if_pos lapped] at published ⊢
      have begin_ : (skipLost ⟨true,last,snap,[]⟩ (last + 1) writeSeq).lastSeq + 1 =
          writeSeq - eventCapacity + 1 := by
        simp only [skipLost,Nat.add_sub_cancel]
      obtain ⟨fresh,read,rest⟩ := passStill m begin_ (by omega) (by omega) published
      have count : writeSeq - eventCapacity + 1 - (last + 1) = writeSeq - eventCapacity - last :=
        by omega
      have many : writeSeq - eventCapacity - last ≠ 0 := by omega
      refine ⟨fresh,?_⟩
      rw [read,if_pos rfl,rest]
      simp only [skipLost,traceLogLostEvents,count,if_neg many,List.nil_append]
    · simp only [firstLeft,lostBefore,if_neg lapped] at published ⊢
      obtain ⟨fresh,read,rest⟩ :=
        @passStill m (last + 1) writeSeq ⟨true,last,snap,[]⟩ rfl (by omega) (by omega)
        published
      exact ⟨fresh,by rw [read,if_pos rfl,rest]⟩

end ZeroTrace.RingStill
