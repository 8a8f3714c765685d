import Mathlib
import ZeroTrace.RingStill

/-! What a sequence of polls says about the sequence numbers, when the remote
memory answers anything at any word and any read may fail. -/
namespace ZeroTrace.RingAccounting
open SharedRead TraceBuffer RingReader RingStill

def covered : Record → List Nat
  | .event seq _ => [seq]
  | .lost first count _ => List.range' first count
  | .magicMismatch => []

def coveredBy (out : List Record) : List Nat := out.flatMap covered

def delivered (out : List Record) : List Nat := out.filterMap fun
  | .event seq _ => some seq
  | _ => none

def lostCounts (out : List Record) : List Nat := out.filterMap fun
  | .lost _ count _ => some count
  | _ => none

/- The records name each number above `last` up to `now` once and in order. -/
def Advances (last now : Nat) (out : List Record) : Prop :=
  last ≤ now ∧ coveredBy out = List.range' (last + 1) (now - last)

theorem advancesNone (last : Nat) : Advances last last [] := ⟨Nat.le_refl _,by simp [coveredBy]⟩

theorem advancesTrans {a b c xs ys} (first : Advances a b xs) (second : Advances b c ys) :
    Advances a c (xs ++ ys) := by
  refine ⟨first.1.trans second.1,?_⟩
  have split : c - a = (b - a) + (c - b) := by have := first.1; have := second.1; omega
  have start : b + 1 = a + 1 + (b - a) := by have := first.1; omega
  rw [coveredBy,List.flatMap_append,split,← List.range'_append_1,← start]
  exact congrArg₂ (· ++ ·) first.2 second.2

theorem advancesEvent {last seq} (ev : Event) (next : last + 1 = seq) :
    Advances last seq [.event seq ev] := by
  subst next
  exact ⟨Nat.le_succ _,by simp [coveredBy,covered]⟩

theorem skipLastSeq (p : Poll) (seq writeSeq : Nat) :
    (skipLost p seq writeSeq).lastSeq = writeSeq - eventCapacity := by
  simp only [skipLost,Nat.add_sub_cancel]

theorem lostAdvances {last writeSeq} (lapped : last + 1 + eventCapacity ≤ writeSeq) :
    Advances last (writeSeq - eventCapacity)
      (traceLogLostEvents (last + 1) (writeSeq - eventCapacity + 1 - (last + 1)) writeSeq) := by
  have count : writeSeq - eventCapacity + 1 - (last + 1) = writeSeq - eventCapacity - last :=
    by omega
  have some_ : writeSeq - eventCapacity - last ≠ 0 := by omega
  refine ⟨by omega,?_⟩
  rw [count,traceLogLostEvents,if_neg some_,coveredBy,List.flatMap_singleton,covered]

theorem skipAdvances {p : Poll} {last seq writeSeq} (next : p.lastSeq + 1 = seq)
    (lapped : seq + eventCapacity ≤ writeSeq) (so : Advances last p.lastSeq p.out) :
    Advances last (skipLost p seq writeSeq).lastSeq (skipLost p seq writeSeq).out := by
  subst next
  rw [skipLastSeq,skipLost]
  exact advancesTrans so (lostAdvances lapped)

/- Memory in which write_seq stays where the counters of a poll cannot wrap. -/
def Headers (l : RingLoc) (v : Option Nat) : Prop := l = .writeSeq → ∀ n, v = some n → n < 2^64 - 1

theorem loopAdvances {answer fuel seq writeSeq p q last}
    (h : Answered answer (dumpLoop fuel seq writeSeq p) q)
    (next : p.lastSeq + 1 = seq) (so : Advances last p.lastSeq p.out) :
    Advances last q.lastSeq q.out := by
  induction fuel generalizing seq writeSeq p with
  | zero => cases answeredDone h; exact so
  | succ fuel ih =>
    rw [dumpLoop] at h
    split at h
    · split at h
      · exact ih h rfl (advancesTrans so (advancesEvent _ next))
      · cases answeredDone h; exact so
      · obtain ⟨header,_,rest⟩ := answeredBind h
        split at rest
        · cases answeredDone rest; exact so
        · split at rest
          · cases answeredDone rest; exact so
          · split at rest
            · rename_i fresh _ _ lapped
              have skipped : Advances last (skipLost p seq fresh).lastSeq
                  (skipLost p seq fresh).out :=
                skipAdvances next (by omega) so
              obtain ⟨again,_,last⟩ := answeredBind rest
              split at last
              · exact ih last (congrArg (· + 1) (skipLastSeq p seq fresh)) skipped
              · cases answeredDone last; exact skipped
            · cases answeredDone rest; exact so
      · cases answeredDone h; exact so
    · cases answeredDone h; exact so

theorem pollAdvances {answer last snap p} (h : Answered answer (dumpTraceEventsSince last snap) p) :
    Advances last p.lastSeq p.out := by
  obtain ⟨header,_,rest⟩ := answeredBind h
  split at rest
  · cases answeredDone rest; exact advancesNone last
  · split at rest
    · cases answeredDone rest
      exact ⟨Nat.le_refl _,by simp [Poll.fail,coveredBy,covered]⟩
    · split at rest
      · cases answeredDone rest; exact advancesNone last
      · rename_i writeSeq _ _ _
        obtain ⟨first,_,tail⟩ := answeredBind rest
        by_cases lapped : eventCapacity < writeSeq - last
        · simp only [if_pos lapped] at tail
          have skipped : Advances last (skipLost ⟨true,last,snap,[]⟩ (last + 1) writeSeq).lastSeq
              (skipLost ⟨true,last,snap,[]⟩ (last + 1) writeSeq).out :=
            skipAdvances rfl (by omega) (advancesNone last)
          split at tail
          · exact loopAdvances tail
              (congrArg (· + 1) (skipLastSeq ⟨true,last,snap,[]⟩ (last + 1) writeSeq)) skipped
          · cases answeredDone tail; exact skipped
        · simp only [if_neg lapped] at tail
          split at tail
          · exact loopAdvances tail rfl (advancesNone last)
          · cases answeredDone tail; exact advancesNone last

/- Successive calls of `zt_dump_trace_events_since`, the first from last_seq 0. The
snapshot arrays hold anything, so also what an earlier call left there. -/
inductive Polls (answer : RingLoc → Option Nat → Prop) : Nat → List Record → Prop where
  | start : Polls answer 0 []
  | call {last out snap p} (before : Polls answer last out)
      (poll : Answered answer (dumpTraceEventsSince last snap) p) :
        Polls answer p.lastSeq (out ++ p.out)

theorem pollsAdvance {answer last out} (polls : Polls answer last out) : Advances 0 last out := by
  induction polls with
  | start => exact advancesNone 0
  | call _ poll ih => exact advancesTrans ih (pollAdvances poll)

theorem deliveredCovered (out : List Record) : (delivered out).Sublist (coveredBy out) := by
  induction out with
  | nil => simp [delivered,coveredBy]
  | cons r rest ih =>
    simp only [delivered,coveredBy,List.flatMap_cons] at ih ⊢
    cases r with
    | event seq ev => simpa [covered] using ih
    | lost first count writeSeq => exact ih.trans (List.sublist_append_right _ _)
    | magicMismatch => simpa [covered] using ih

theorem coveredCount (out : List Record) :
    (coveredBy out).length = (delivered out).length + (lostCounts out).sum := by
  induction out with
  | nil => rfl
  | cons r rest ih =>
    cases r with
    | event seq ev =>
      change (seq :: coveredBy rest).length = (seq :: delivered rest).length + (lostCounts rest).sum
      simp only [List.length_cons]; omega
    | lost first count writeSeq =>
      change (List.range' first count ++ coveredBy rest).length =
        (delivered rest).length + (count :: lostCounts rest).sum
      simp only [List.length_append,List.length_range',List.sum_cons]; omega
    | magicMismatch => exact ih

/-- After every call, successful or not: last_seq has not gone back, and the records
of all calls name the numbers 1..last_seq once each and in order, as an event or
inside one loss marker. -/
theorem pollsAccountForEvents {last out snap p} (before : Polls Headers last out)
    (poll : Answered Headers (dumpTraceEventsSince last snap) p) :
    last ≤ p.lastSeq ∧ coveredBy (out ++ p.out) = List.range' 1 p.lastSeq ∧
    (delivered (out ++ p.out)).Pairwise (· < ·) ∧
    (delivered (out ++ p.out)).length + (lostCounts (out ++ p.out)).sum = p.lastSeq := by
  have all := pollsAdvance (.call before poll)
  have numbers : coveredBy (out ++ p.out) = List.range' 1 p.lastSeq := all.2
  refine ⟨(pollAdvances poll).1,numbers,?_,?_⟩
  · exact (List.pairwise_lt_range' 1).sublist (numbers ▸ deliveredCovered _)
  · rw [← coveredCount,numbers,List.length_range']

def oneEvent : Buffer
  | .magic => bufferMagic
  | .writeSeq | .committed 0 => 1
  | .committed _ | .field _ _ => 0

def emptySnapshots : Snapshots := ⟨fun _ => 0,fun _ => 0,fun _ => 0⟩

theorem oneEventHeaders (l : RingLoc) : Headers l (still oneEvent l) := by
  intro here n found
  subst here
  cases Option.some.inj found
  decide

theorem oneEventPublished (n : Nat) (low : firstLeft 0 1 ≤ n) (high : n ≤ 1) :
    oneEvent (.committed (seqSlot n)) = n := by
  have first : firstLeft 0 1 = 1 := by decide
  obtain rfl : n = 1 := by omega
  rfl

theorem oneEventAccounted : let p := (dumpTraceEventsSince 0 emptySnapshots).eval (still oneEvent)
    p.lastSeq = 1 ∧ delivered p.out = [1] ∧ coveredBy ([] ++ p.out) = List.range' 1 p.lastSeq := by
  obtain ⟨fresh,result⟩ := @pollStill oneEvent 0 emptySnapshots rfl (by decide) oneEventPublished
  have all := pollsAccountForEvents .start
      (answeredEval oneEventHeaders (dumpTraceEventsSince 0 emptySnapshots))
  refine ⟨by rw [result]; rfl,by rw [result]; rfl,all.2.1⟩

end ZeroTrace.RingAccounting
