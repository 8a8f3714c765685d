import ZeroTrace.RingSnapshot

/-! One poll of a ring that is at rest: every ticket taken has been published and no
producer takes another step. -/
namespace ZeroTrace.RingDrain
open Relation SharedRead TraceBuffer RingProducer RingReader RingStill RingSnapshot

/- A published ticket is in its slot until the next ticket of that slot is taken. -/
def Latest (s : Ring) : Prop :=
  ∀ t ∈ s.published, s.writeSeq ≤ t + eventCapacity → (s.slots (slotOf t)).committedSeq = t + 1

/- Two tickets of the last lap have different slots. -/
theorem lapApart {s : Ring} {t u : Nat} (tickets : Tickets s) (held : Held s u)
    (member : t ∈ s.published)
    (recent : s.writeSeq ≤ t + eventCapacity) : slotOf t ≠ slotOf u := by
  obtain ⟨low,high⟩ := tickets.recent u held
  obtain ⟨below,gone⟩ := tickets.retired t member
  have apart : t ≠ u := fun same => gone (same ▸ held)
  simp only [slotOf,eventCapacity] at *
  omega

theorem storedLatest {s s' : Ring} {u ev} (tickets : Tickets s) (h : Latest s) (held : Held s u)
    (slots : s'.slots = Function.update s.slots (slotOf u) ev) (count : s'.writeSeq = s.writeSeq)
    (published : s'.published = s.published) : Latest s' := by
  intro t member recent
  rw [published] at member
  rw [count] at recent
  rw [slots,Function.update_of_ne (lapApart tickets held member recent)]
  exact h t member recent

theorem committedLatest {s : Ring} {thread u : Nat} (tickets : Tickets s) (h : Latest s)
    (at_ : s.threads thread = .writing u []) :
    Latest (s.commitEventSlot thread u) := by
  have held : Held s u := ⟨thread,by rw [at_]; rfl⟩
  intro t member recent
  simp only [Ring.commitEventSlot,List.mem_append,List.mem_singleton] at member
  rcases member with old | rfl
  · have apart := lapApart tickets held old recent
    simp only [Ring.commitEventSlot,Ring.setThread,Ring.setSlot,Function.update_of_ne apart]
    exact h t old recent
  · simp [Ring.commitEventSlot,Ring.setThread,Ring.setSlot]

theorem stepLatest {s a s'} (tickets : Tickets s) (h : Latest s)
    (ok : step s a = some s') : Latest s' := by
  cases stepped ok with
  | reserve free =>
    intro t member recent
    simp only [Ring.takeTicket] at recent
    exact h t member (by omega)
  | @clear thread u todo at_ => exact storedLatest tickets h ⟨thread,by rw [at_]; rfl⟩ rfl rfl rfl
  | @write thread u f v todo at_ =>
      exact storedLatest tickets h ⟨thread,by rw [at_]; rfl⟩ rfl rfl rfl
  | commit at_ => exact committedLatest tickets h at_

theorem runLatest {s} (run : ReflTransGen (Moves Paced) Ring.init s) : Inv s ∧ Latest s := by
  induction run with
  | refl => exact ⟨initInv,fun t member => absurd member (by simp [Ring.init])⟩
  | tail _ last ih =>
    have kept := invStable _ _ ih.1 last
    obtain ⟨a,_,ok⟩ := last
    exact ⟨kept,stepLatest ih.1.tickets ih.2 ok⟩

def AtRest (s : Ring) : Prop := ∀ t, t < s.writeSeq → t ∈ s.published

/- How many events a poll from this position can still find. -/
def outstanding (last writeSeq : Nat) : Nat := min (writeSeq - last) eventCapacity

theorem firstLeftIs {last writeSeq : Nat} (behind : last ≤ writeSeq) :
    firstLeft last writeSeq = writeSeq - outstanding last writeSeq + 1 := by
  simp only [firstLeft,outstanding]
  split <;> omega

theorem restPublished {s : Ring} {last n : Nat} (latest : Latest s) (rest : AtRest s)
    (behind : last ≤ s.writeSeq)
    (low : firstLeft last s.writeSeq ≤ n) (high : n ≤ s.writeSeq) :
    (s.slots (seqSlot n)).committedSeq = n := by
  rw [firstLeftIs behind] at low
  have few : outstanding last s.writeSeq ≤ eventCapacity := Nat.min_le_right _ _
  have found := latest (n - 1) (rest (n - 1) (by omega)) (by omega)
  rw [show seqSlot n = slotOf (n - 1) from rfl,found]
  omega

/-- One poll of a ring at rest returns 0 at `write_seq`: it reports as lost, in one record
and only if more than a ring is outstanding, all but the last lap, and then hands over the
events of the other tickets in their order, each as its producer stored it. -/
theorem restRingDrained {s : Ring} (run : ReflTransGen (Moves Paced) Ring.init s) (rest : AtRest s)
    {last : Nat}
    (behind : last ≤ s.writeSeq) (snap : Snapshots) :
    let p := (dumpTraceEventsSince last snap).eval (still (Ring.word s))
    let count := outstanding last s.writeSeq
    p.ok = true ∧ p.lastSeq = s.writeSeq ∧ ∃ event : Nat → Event,
      p.out = (if eventCapacity < s.writeSeq - last then
        [.lost (last + 1) (s.writeSeq - eventCapacity - last) s.writeSeq] else []) ++
        (List.range' (s.writeSeq - count + 1) count).map (fun seq => .event seq (event seq)) ∧
      ∀ seq ∈ List.range' (s.writeSeq - count + 1) count, (event seq).committedSeq = seq ∧
        ∃ e, s.holders[seq - 1]? = some e ∧ ∀ w ∈ e.writes, (event seq).field w.1 = w.2 := by
  obtain ⟨inv,latest⟩ := runLatest run
  have published : ∀ n, firstLeft last s.writeSeq ≤ n → n ≤ s.writeSeq →
      (s.slots (seqSlot n)).committedSeq = n :=
    fun n low high => restPublished latest rest behind low high
  obtain ⟨fresh,polled⟩ := pollStill (Ring.word s) snap rfl behind published
  have few : outstanding last s.writeSeq ≤ s.writeSeq :=
    (Nat.min_le_left _ _).trans (Nat.sub_le _ _)
  have count : s.writeSeq + 1 - firstLeft last s.writeSeq = outstanding last s.writeSeq := by
    rw [firstLeftIs behind]
    omega
  rw [show Ring.word s .writeSeq = s.writeSeq from rfl,count,firstLeftIs behind] at polled
  rw [polled]
  refine ⟨rfl,rfl,fun seq => s.slots (seqSlot seq),rfl,fun seq inside => ?_⟩
  obtain ⟨low,high⟩ := List.mem_range'_1.mp inside
  have stamp := published seq (by rw [firstLeftIs behind]; exact low) (by omega)
  obtain ⟨_,_,_,e,held,agrees⟩ :=
    inv.contents.stamped (seqSlot seq) (seq - 1) (by rw [stamp]; omega)
  exact ⟨stamp,e,held,agrees⟩

/- Two events, polled from the start. -/
theorem twoEventsDrained : let s := Ring.init.producedAll [entryOf 7,returnOf]
    ((dumpTraceEventsSince 0 ⟨fun _ => 0,fun _ => 0,fun _ => 0⟩).eval
      (still (Ring.word s))).lastSeq = 2 ∧
      AtRest s ∧ outstanding 0 s.writeSeq = 2 := by
  have rest : AtRest (Ring.init.producedAll [entryOf 7,returnOf]) := by
    intro t low
    obtain ⟨_,count,published,_⟩ := producedAllSame Ring.init [entryOf 7,returnOf]
    rw [count] at low
    rw [published]
    exact List.mem_append_right _ (List.mem_range'_1.mpr ⟨Nat.zero_le _,low⟩)
  have drained := restRingDrained (aloneRun [entryOf 7,returnOf]) rest (Nat.zero_le _) ⟨fun _ => 0,
      fun _ => 0,fun _ => 0⟩
  exact ⟨drained.2.1,rest,by decide⟩

end ZeroTrace.RingDrain
