import ZeroTrace.LogLines
import ZeroTrace.StableSort

/-! The script that merges logs: the lines of every log that have a time stamp, sorted by it. -/
namespace ZeroTrace.MergeLogs
open LogMerge StableSort

structure TraceEvent where
  timestampNs : Nat
  sourceIndex : Nat
  lineNumber : Nat
  sourceName : List Char
  line : List Char
  deriving DecidableEq, Repr

/- Events are compared like tuples, by the first field they differ in. -/
def TraceEvent.less (a b : TraceEvent) : Bool :=
  if a.timestampNs ≠ b.timestampNs then a.timestampNs < b.timestampNs
  else if a.sourceIndex ≠ b.sourceIndex then a.sourceIndex < b.sourceIndex
  else if a.lineNumber ≠ b.lineNumber then a.lineNumber < b.lineNumber
  else if a.sourceName ≠ b.sourceName then decide (a.sourceName < b.sourceName)
  else decide (a.line < b.line)

def sysMaxsize : Nat := 2^63 - 1

/- A text file, with its three kinds of line ends read as one. -/
def newlinesFrom : Bool → List Char → List Char
  | _,[] => []
  | returned,c::rest =>
    if c = '\r' then '\n'::newlinesFrom true rest
    else if c = '\n' ∧ returned then newlinesFrom false rest
    else c::newlinesFrom false rest

def newlines (text : List Char) : List Char := newlinesFrom false text

def rawLines : List Char → List (List Char)
  | [] => []
  | c::rest =>
    if c = '\n' then [c]::rawLines rest
    else match rawLines rest with
      | [] => [[c]]
      | line::lines => (c::line)::lines

structure Log where
  name : List Char
  text : List Char
  deriving DecidableEq, Repr

/- A loop that numbers what it goes over and collects events and a count. -/
def gather {α : Type} (f : Nat → α → Except Raised (List TraceEvent × Nat)) :
    Nat → List α → Except Raised (List TraceEvent × Nat)
  | _,[] => .ok ([],0)
  | n,x::rest => do
    let first ← f n x
    let later ← gather f (n + 1) rest
    return (first.1 ++ later.1,first.2 + later.2)

section
variable (u : Unicode) (keepUnparsed : Bool)

def readLine (name : List Char) (sourceIndex lineNumber : Nat) (rawLine : List Char) :
    Except Raised (List TraceEvent × Nat) :=
  let line := rawLine.rdropWhile (· == '\n')
  if line = [] then .ok ([],0)
  else (parseTraceLine u line).map fun
    | some timestampNs => ([⟨timestampNs,sourceIndex,lineNumber,name,line⟩],0)
    | none => (if keepUnparsed then [⟨sysMaxsize,sourceIndex,lineNumber,name,line⟩] else [],1)

def readEvents (sourceIndex : Nat) (log : Log) : Except Raised (List TraceEvent × Nat) :=
  gather (readLine u keepUnparsed log.name sourceIndex) 1 (rawLines (newlines log.text))

def readLogs (logs : List Log) : Except Raised (List TraceEvent × Nat) :=
  gather (readEvents u keepUnparsed) 0 logs

end

def sortEvents (events : List TraceEvent) : List TraceEvent := events.mergeSort fun a b => !b.less a

def formatEvent (showSource : Bool) (event : TraceEvent) : List Char :=
  if showSource then event.sourceName ++ ':'::(decimal event.lineNumber ++ ':':: ' '::event.line)
    else event.line

/- The text that is written, and how many lines are left out. -/
def mergeLogs (u : Unicode) (showSource keepUnparsed : Bool) (logs : List Log) :
    Except Raised (List Char × Nat) := do
  let (events,totalSkipped) ← readLogs u keepUnparsed logs
  let output := List.intercalate ['\n'] ((sortEvents events).map (formatEvent showSource))
  return (if output ≠ [] then output ++ ['\n'] else output,totalSkipped)

def Before (a b : TraceEvent) : Prop := a.sourceIndex < b.sourceIndex ∨
    a.sourceIndex = b.sourceIndex ∧ a.lineNumber < b.lineNumber

theorem placeExtends : Extends (byTime TraceEvent.timestampNs) (fun a b => !b.less a) Before := by
  have swapped : ∀ {m n : Nat}, m < n → ¬ n < m := fun less => Nat.lt_asymm less
  constructor
  · intro a b place
    unfold byTime TraceEvent.less
    by_cases tie : b.timestampNs = a.timestampNs
    · rcases place with source | ⟨source,number⟩
      · simp [tie,Nat.ne_of_gt source,swapped source]
      · simp [tie,source,Nat.ne_of_gt number,swapped number]
    · rw [if_pos tie,Bool.eq_iff_iff]
      simp
  · intro a b place
    unfold byTime TraceEvent.less
    by_cases tie : a.timestampNs = b.timestampNs
    · rcases place with source | ⟨source,number⟩
      · simp [tie,Nat.ne_of_lt source,source]
      · simp [tie,source,Nat.ne_of_lt number,number]
    · rw [if_pos tie,Bool.eq_iff_iff]
      simp
      omega
  · intro a
    simp [byTime,TraceEvent.less]

theorem eventsSorted {events : List TraceEvent} (ordered : events.Pairwise Before) :
    sortEvents events = events.mergeSort (byTime TraceEvent.timestampNs) :=
  sortedByKey placeExtends ordered

section
variable {α : Type} {f : Nat → α → Except Raised (List TraceEvent × Nat)} {n : Nat} {x : α}
    {xs : List α} {r : List TraceEvent × Nat}

theorem gatherCons : gather f n (x::xs) = .ok r ↔ ∃ first later, f n x = .ok first ∧
    gather f (n + 1) xs = .ok later ∧
    r = (first.1 ++ later.1,first.2 + later.2) := by
  rw [gather]
  cases here : f n x with
  | error raised => simp [bind,Except.bind]
  | ok first => cases rest : gather f (n + 1) xs with
    | error raised => simp [bind,Except.bind]
    | ok later => simp [bind,Except.bind,pure,Except.pure,eq_comm]

theorem gatherEach {P : TraceEvent → Prop}
    (one : ∀ m x r, x ∈ xs → n ≤ m → f m x = .ok r → ∀ e ∈ r.1, P e)
    (read : gather f n xs = .ok r) : ∀ e ∈ r.1, P e := by
  induction xs generalizing n r with
  | nil =>
    obtain rfl := Except.ok.inj read
    simp
  | cons x xs ih =>
    obtain ⟨first,later,here,rest,rfl⟩ := gatherCons.mp read
    intro e member
    rcases List.mem_append.mp member with front | behind
    · exact one n x first List.mem_cons_self (Nat.le_refl n) here e front
    · exact ih (fun m y r inside low => one m y r (List.mem_cons_of_mem _ inside)
        (Nat.le_of_succ_le low)) rest e behind

theorem gatherOrdered (place : TraceEvent → Nat) (Q : TraceEvent → Prop)
    (apart : ∀ a b, Q a → Q b → place a < place b → Before a b)
    (inside : ∀ m x r, f m x = .ok r → r.1.Pairwise Before ∧ ∀ e ∈ r.1, place e = m ∧ Q e)
    (read : gather f n xs = .ok r) :
    r.1.Pairwise Before ∧ ∀ e ∈ r.1, n ≤ place e ∧ Q e := by
  induction xs generalizing n r with
  | nil =>
    obtain rfl := Except.ok.inj read
    simp
  | cons x xs ih =>
    obtain ⟨first,later,here,rest,rfl⟩ := gatherCons.mp read
    obtain ⟨ordered,places⟩ := inside n x first here
    obtain ⟨ordered',places'⟩ := ih rest
    refine ⟨List.pairwise_append.mpr ⟨ordered,ordered',
      fun a front b behind => apart a b (places a front).2 (places' b behind).2 ?_⟩,
      fun e member => ?_⟩
    · rw [(places a front).1]
      exact (places' b behind).1
    · rcases List.mem_append.mp member with front | behind
      · exact ⟨Nat.le_of_eq (places e front).1.symm,(places e front).2⟩
      · exact ⟨Nat.le_of_succ_le (places' e behind).1,(places' e behind).2⟩

theorem gatherRaises {raises : α → Prop}
    (each : ∀ m x, (∃ raised, f m x = .error raised) ↔ raises x) :
    (∃ raised, gather f n xs = .error raised) ↔ ∃ x ∈ xs, raises x := by
  induction xs generalizing n with
  | nil => simp [gather]
  | cons x xs ih =>
    rw [List.exists_mem_cons_iff,← each n x,← @ih (n + 1),gather]
    cases f n x with
    | error raised => exact iff_of_true ⟨raised,rfl⟩ (.inl ⟨raised,rfl⟩)
    | ok first => cases gather f (n + 1) xs with
      | error raised => simp [bind,Except.bind]
      | ok later => simp [bind,Except.bind,pure,Except.pure]

end

/-! What is read of a line, of a log, and of all of them. -/
section
variable {u : Unicode} {keepUnparsed : Bool} {name : List Char} {sourceIndex lineNumber : Nat}
    {rawLine : List Char} {r : List TraceEvent × Nat} {e : TraceEvent}

structure Stamped (u : Unicode) (keepUnparsed : Bool) (e : TraceEvent) : Prop where
  some_ : e.line ≠ []
  stamp : parseTraceLine u e.line = .ok (some e.timestampNs) ∨
    keepUnparsed = true ∧ parseTraceLine u e.line = .ok none ∧ e.timestampNs = sysMaxsize

theorem lineRead (read : readLine u keepUnparsed name sourceIndex lineNumber rawLine = .ok r) :
    r.1.length ≤ 1 ∧ ∀ e ∈ r.1, Stamped u keepUnparsed e ∧ e.lineNumber = lineNumber ∧
      e.sourceIndex = sourceIndex ∧
      e.line = rawLine.rdropWhile (· == '\n') := by
  unfold readLine at read
  dsimp only at read
  split at read
  · obtain rfl := Except.ok.inj read
    simp
  · next some_ =>
    cases parsed : parseTraceLine u (rawLine.rdropWhile (· == '\n')) with
    | error raised =>
      rw [parsed] at read
      cases read
    | ok time =>
      rw [parsed] at read
      obtain rfl := Except.ok.inj read
      cases time with
      | some timestampNs => simpa using ⟨some_,.inl parsed⟩
      | none => cases keepUnparsed with
        | true => simpa using ⟨some_,.inr ⟨rfl,parsed,rfl⟩⟩
        | false => simp

theorem lineOrdered (read : readLine u keepUnparsed name sourceIndex lineNumber rawLine = .ok r) :
    r.1.Pairwise Before ∧ ∀ e ∈ r.1, e.lineNumber = lineNumber ∧ e.sourceIndex = sourceIndex := by
  obtain ⟨few,each⟩ := lineRead read
  refine ⟨?_,fun e member => ⟨(each e member).2.1,(each e member).2.2.1⟩⟩
  match r.1,few with
  | [],_ => exact List.Pairwise.nil
  | [_],_ => exact List.pairwise_singleton _ _

theorem eventsOrdered {log : Log} (read : readEvents u keepUnparsed sourceIndex log = .ok r) :
    r.1.Pairwise Before ∧ ∀ e ∈ r.1, e.sourceIndex = sourceIndex := by
  obtain ⟨ordered,places⟩ :=
    gatherOrdered TraceEvent.lineNumber (fun e => e.sourceIndex = sourceIndex)
    (fun _ _ first second less => .inr ⟨first.trans second.symm,less⟩)
      (fun _ _ _ read => lineOrdered read) read
  exact ⟨ordered,fun e member => (places e member).2⟩

theorem logsOrdered {logs : List Log}
    (read : readLogs u keepUnparsed logs = .ok r) : r.1.Pairwise Before :=
  (gatherOrdered TraceEvent.sourceIndex (fun _ => True) (fun _ _ _ _ less => .inl less)
    (fun _ _ _ read =>
      ⟨(eventsOrdered read).1,fun e member => ⟨(eventsOrdered read).2 e member,trivial⟩⟩) read).1

end

section
variable {text line rest : List Char} {c : Char}

theorem newlinesSame (plain : '\r' ∉ text) : newlines text = text := by
  induction text with
  | nil => rfl
  | cons c rest ih =>
    rw [List.mem_cons,not_or] at plain
    rw [newlines,newlinesFrom,if_neg (Ne.symm plain.1),if_neg (by simp)]
    exact congrArg (c::·) (ih plain.2)

theorem newlinesOnly (returned : Bool) (text : List Char) : '\r' ∉ newlinesFrom returned text := by
  induction text generalizing returned with
  | nil => exact List.not_mem_nil
  | cons c rest ih =>
    unfold newlinesFrom
    split
    · exact List.not_mem_cons_of_ne_of_not_mem (by decide) (ih true)
    · next other =>
      split
      · exact ih false
      · exact List.not_mem_cons_of_ne_of_not_mem (Ne.symm other) (ih false)

theorem rawLine (solid : '\n' ∉ line) :
    rawLines (line ++ '\n'::rest) = (line ++ ['\n'])::rawLines rest := by
  induction line with
  | nil => rfl
  | cons c line ih =>
    rw [List.mem_cons,not_or] at solid
    rw [List.cons_append,rawLines,if_neg (Ne.symm solid.1),ih solid.2]
    rfl

theorem rawText {lines : List (List Char)} (solid : ∀ line ∈ lines, '\n' ∉ line) :
    rawLines (lines.flatMap fun line => line ++ ['\n']) = lines.map fun line => line ++ ['\n'] := by
  induction lines with
  | nil => rfl
  | cons line lines ih =>
    rw [List.flatMap_cons,List.append_assoc,List.singleton_append,
      rawLine (solid line List.mem_cons_self),
      ih fun line member => solid line (List.mem_cons_of_mem _ member)]
    rfl

theorem lineStripped (solid : '\n' ∉ line) : (line ++ ['\n']).rdropWhile (· == '\n') = line := by
  rw [List.rdropWhile_concat_pos _ _ _ rfl,List.rdropWhile_eq_self_iff]
  intro some_ newline
  exact solid (beq_iff_eq.mp newline ▸ List.getLast_mem some_)

theorem rawShape {raw : List Char} (member : raw ∈ rawLines text) : ∃ line, '\n' ∉ line ∧
    (raw = line ∨ raw = line ++ ['\n']) ∧ ∀ c ∈ line, c ∈ text := by
  induction text generalizing raw with
  | nil => exact absurd member List.not_mem_nil
  | cons c rest ih =>
    have later : ∀ {raw}, raw ∈ rawLines rest → ∃ line, '\n' ∉ line ∧
        (raw = line ∨ raw = line ++ ['\n']) ∧ ∀ d ∈ line, d ∈ c::rest := by
      intro raw member
      obtain ⟨line,solid,shape,inside⟩ := ih member
      exact ⟨line,solid,shape,fun d here => List.mem_cons_of_mem _ (inside d here)⟩
    unfold rawLines at member
    split at member
    · next newline =>
      rcases List.mem_cons.mp member with rfl | behind
      · exact ⟨[],List.not_mem_nil,.inr (by rw [newline]; rfl),by simp⟩
      · exact later behind
    · next other =>
      split at member
      · obtain rfl := List.mem_singleton.mp member
        exact ⟨[c],by simpa using Ne.symm other,.inl rfl,by simp⟩
      · next first lines split =>
        rcases List.mem_cons.mp member with rfl | behind
        · obtain ⟨line,solid,shape,inside⟩ := ih (split ▸ List.mem_cons_self)
          refine ⟨c::line,List.not_mem_cons_of_ne_of_not_mem (Ne.symm other) solid,?_,?_⟩
          · rcases shape with rfl | rfl
            · exact .inl rfl
            · exact .inr rfl
          · intro d here
            rcases List.mem_cons.mp here with rfl | here
            · exact List.mem_cons_self
            · exact List.mem_cons_of_mem _ (inside d here)
        · exact later (split ▸ List.mem_cons_of_mem _ behind)

theorem rawStripped {raw : List Char} (member : raw ∈ rawLines (newlines text)) :
    '\n' ∉ raw.rdropWhile (· == '\n') ∧ '\r' ∉ raw.rdropWhile (· == '\n') := by
  obtain ⟨line,solid,shape,inside⟩ := rawShape member
  have same : raw.rdropWhile (· == '\n') = line := by
    rcases shape with rfl | rfl
    · rw [List.rdropWhile_eq_self_iff]
      intro some_ newline
      exact solid (beq_iff_eq.mp newline ▸ List.getLast_mem some_)
    · exact lineStripped solid
  rw [same]
  exact ⟨solid,fun return_ => newlinesOnly false text (inside _ return_)⟩

end

def eventsText (showSource : Bool) (events : List TraceEvent) : List Char :=
  events.flatMap fun e => formatEvent showSource e ++ ['\n']

theorem joined (line : List Char) (lines : List (List Char)) :
    List.intercalate ['\n'] (line::lines) ++ ['\n'] = (line::lines).flatMap fun line =>
      line ++ ['\n'] := by
  induction lines generalizing line with
  | nil => simp
  | cons next_ lines ih =>
    rw [List.intercalate_cons_cons,List.append_assoc,ih next_]
    simp

section
variable {u : Unicode} {showSource keepUnparsed : Bool} {logs : List Log}
    {r : List TraceEvent × Nat}

theorem textWritten {events : List TraceEvent} (some_ : ∀ e ∈ events, e.line ≠ []) :
    (let output := List.intercalate ['\n'] (events.map (formatEvent showSource))
      if output ≠ [] then output ++ ['\n'] else output) = eventsText showSource events := by
  cases events with
  | nil => rfl
  | cons e events =>
    have first : formatEvent showSource e ≠ [] := by
      unfold formatEvent
      split
      · simp
      · exact some_ e List.mem_cons_self
    have whole : List.intercalate ['\n'] ((e::events).map (formatEvent showSource)) ≠ [] := by
      rw [List.map_cons]
      cases events with
      | nil => simpa using first
      | cons e' events => simp
    dsimp only
    rw [if_pos whole,List.map_cons,joined,eventsText,← List.map_cons,List.flatMap_map]

theorem logsStamped (read : readLogs u keepUnparsed logs = .ok r) :
    ∀ e ∈ r.1, Stamped u keepUnparsed e ∧ '\n' ∉ e.line ∧ '\r' ∉ e.line := by
  refine gatherEach (fun m log r' _ _ readLog =>
    gatherEach (fun n raw r'' member _ read' e inside => ?_) readLog) read
  obtain ⟨stamped,_,_,line⟩ := (lineRead read').2 e inside
  rw [line]
  exact ⟨stamped,rawStripped member⟩

theorem mergedSorted (u : Unicode) (showSource keepUnparsed : Bool) (logs : List Log) :
    mergeLogs u showSource keepUnparsed logs = (readLogs u keepUnparsed logs).map fun read =>
      (eventsText showSource (read.1.mergeSort (byTime TraceEvent.timestampNs)),read.2) := by
  unfold mergeLogs
  cases read : readLogs u keepUnparsed logs with
  | error raised => rfl
  | ok r =>
    have same := eventsSorted (logsOrdered read)
    have written := @textWritten showSource (sortEvents r.1) fun e member =>
      (logsStamped read e ((List.mergeSort_perm _ _).mem_iff.mp member)).1.some_
    simp only [bind,Except.bind,Except.map,pure,Except.pure]
    rw [← same]
    exact congrArg (fun text => Except.ok (text,r.2)) written

theorem lineRaises {name sourceIndex lineNumber raw} :
    (∃ raised, readLine u keepUnparsed name sourceIndex lineNumber raw = .error raised) ↔
      TooLong u (raw.rdropWhile (· == '\n')) := by
  rw [← parseRaises]
  unfold readLine
  dsimp only
  by_cases none_ : raw.rdropWhile (· == '\n') = []
  · rw [if_pos none_,none_]
    exact iff_of_false (by rintro ⟨_,bad⟩; cases bad) (by rintro ⟨_,bad⟩; cases bad)
  · rw [if_neg none_]
    cases parseTraceLine u (raw.rdropWhile (· == '\n')) <;> simp [Except.map]

theorem logsRaise : (∃ raised, readLogs u keepUnparsed logs = .error raised) ↔
    ∃ log ∈ logs, ∃ raw ∈ rawLines (newlines log.text), TooLong u (raw.rdropWhile (· == '\n')) :=
  gatherRaises fun _ _ => gatherRaises fun _ _ => lineRaises

/-- Of any logs, the output is the lines with a time stamp sorted by it alone: among lines with the
same one, those of an earlier log come first, and of one log the earlier line, so that a log whose
lines are in order stays in order. The script raises, and writes
nothing, exactly where the seconds of a line are too long a number. -/
theorem mergedByTime (u : Unicode) (showSource keepUnparsed : Bool) (logs : List Log) :
    mergeLogs u showSource keepUnparsed logs =
      (readLogs u keepUnparsed logs).map
        (fun read => (eventsText showSource (read.1.mergeSort (byTime TraceEvent.timestampNs)),
        read.2)) ∧
    (∀ read, readLogs u keepUnparsed logs = .ok read → ∀ i,
      ((read.1.filter (·.sourceIndex == i)).Pairwise fun a b => a.timestampNs ≤ b.timestampNs) →
      (read.1.mergeSort (byTime TraceEvent.timestampNs)).filter (·.sourceIndex == i) =
        read.1.filter (·.sourceIndex == i)) ∧
    ((∃ raised, readLogs u keepUnparsed logs = .error raised) ↔
      ∃ log ∈ logs, ∃ raw ∈ rawLines (newlines log.text), TooLong u (raw.rdropWhile (· == '\n'))) :=
  ⟨mergedSorted u showSource keepUnparsed logs,fun _ _ _ ordered => timeKept ordered,logsRaise⟩

/- Lines with one time stamp in two logs, and one without. -/
def twoLogs : List Log :=
  [⟨"a".toList,"p [0] 2.5: x\r\nq\n\np [1] 3.0: y".toList⟩,⟨"b".toList,"r [0] f 2.5: z\n".toList⟩]

def twoEvents : List TraceEvent :=
  [⟨2500000000,0,1,"a".toList,"p [0] 2.5: x".toList⟩,
    ⟨3000000000,0,4,"a".toList,"p [1] 3.0: y".toList⟩,
    ⟨2500000000,1,1,"b".toList,"r [0] f 2.5: z".toList⟩]

theorem twoByTime : readLogs ascii false twoLogs = .ok (twoEvents,1) ∧
    (twoEvents.mergeSort (byTime TraceEvent.timestampNs)).filter (·.sourceIndex == 0) =
      twoEvents.filter (·.sourceIndex == 0) :=
  ⟨rfl,(mergedByTime ascii false false twoLogs).2.1 (twoEvents,1) rfl 0 (by decide)⟩

end

/-! Logs whose lines are known. -/
section
open LogLines

/- Lines that stand in a log as they are, with what the script finds in them. -/
structure Readable (u : Unicode) (lines : List LogLine) : Prop where
  some_ : ∀ l ∈ lines, l.text ≠ []
  solid : ∀ l ∈ lines, '\n' ∉ l.text ∧ '\r' ∉ l.text
  parsed : ∀ l ∈ lines, parseTraceLine u l.text = .ok l.time

def kept (keepUnparsed : Bool) (l : LogLine) : Bool := l.time.isSome || keepUnparsed

def sortTime (l : LogLine) : Nat := l.time.getD sysMaxsize

def lineEvents (keepUnparsed : Bool) (name : List Char) (sourceIndex lineNumber : Nat)
    (l : LogLine) : List TraceEvent :=
  if kept keepUnparsed l then [⟨sortTime l,sourceIndex,lineNumber,name,l.text⟩] else []

def eventsFrom (keepUnparsed : Bool) (name : List Char) (sourceIndex : Nat) :
    Nat → List LogLine → List TraceEvent
  | _,[] => []
  | n,l::lines => lineEvents keepUnparsed name sourceIndex n l ++
      eventsFrom keepUnparsed name sourceIndex (n + 1) lines

def unparsed (lines : List LogLine) : Nat := lines.countP (·.time.isNone)

/- What is left of an event where the place does not matter. -/
def bare (e : TraceEvent) : Nat × List Char := (e.timestampNs,e.line)

def bareLine (l : LogLine) : Nat × List Char := (sortTime l,l.text)

variable {u : Unicode} {keepUnparsed : Bool} {name : List Char} {sourceIndex n : Nat} {l : LogLine}
    {lines : List LogLine}

theorem readableRest (ok : Readable u (l::lines)) : Readable u lines :=
  ⟨fun l' member => ok.some_ l' (List.mem_cons_of_mem _ member),
    fun l' member => ok.solid l' (List.mem_cons_of_mem _ member),
    fun l' member => ok.parsed l' (List.mem_cons_of_mem _ member)⟩

theorem lineGives (ok : Readable u (l::lines)) :
    readLine u keepUnparsed name sourceIndex n (l.text ++ ['\n']) =
    .ok (lineEvents keepUnparsed name sourceIndex n l,if l.time.isNone then 1 else 0) := by
  unfold readLine
  rw [lineStripped (ok.solid l List.mem_cons_self).1]
  dsimp only
  rw [if_neg (ok.some_ l List.mem_cons_self),ok.parsed l List.mem_cons_self]
  unfold lineEvents kept sortTime
  cases l.time with
  | some time => rfl
  | none => cases keepUnparsed <;> rfl

theorem linesGive (ok : Readable u lines) :
    gather (readLine u keepUnparsed name sourceIndex) n (lines.map fun l => l.text ++ ['\n']) =
    .ok (eventsFrom keepUnparsed name sourceIndex n lines,unparsed lines) := by
  induction lines generalizing n with
  | nil => rfl
  | cons l lines ih =>
    refine gatherCons.mpr ⟨_,_,lineGives ok,ih (readableRest ok),?_⟩
    rw [eventsFrom,unparsed,List.countP_cons]
    exact congrArg (Prod.mk _) (Nat.add_comm _ _)

theorem logGives (ok : Readable u lines) :
    readEvents u keepUnparsed sourceIndex ⟨name,linesText lines⟩ =
    .ok (eventsFrom keepUnparsed name sourceIndex 1 lines,unparsed lines) := by
  have solid : ∀ line ∈ lines.map LogLine.text, '\n' ∉ line := by
    intro line member
    obtain ⟨l,inside,rfl⟩ := List.mem_map.mp member
    exact (ok.solid l inside).1
  have plain : '\r' ∉ linesText lines := by
    intro inside
    obtain ⟨l,member,here⟩ := List.mem_flatMap.mp inside
    rcases List.mem_append.mp here with text | newline
    · exact (ok.solid l member).2 text
    · exact absurd newline (by decide)
  have raws : rawLines (linesText lines) = lines.map fun l => l.text ++ ['\n'] := by
    have split := rawText solid
    rwa [List.flatMap_map,List.map_map] at split
  unfold readEvents
  rw [newlinesSame plain,raws]
  exact linesGive ok

theorem bareEvents : (eventsFrom keepUnparsed name sourceIndex n lines).map bare =
    (lines.filter (kept keepUnparsed)).map bareLine := by
  induction lines generalizing n with
  | nil => rfl
  | cons l lines ih =>
    rw [eventsFrom,List.map_append,ih,lineEvents]
    by_cases keep : kept keepUnparsed l = true
    · rw [if_pos keep,List.filter_cons_of_pos keep]
      rfl
    · rw [if_neg keep,List.filter_cons_of_neg keep]
      rfl

def linesLog (log : List Char × List LogLine) : Log := ⟨log.1,linesText log.2⟩

theorem logsGive {logs : List (List Char × List LogLine)} (ok : ∀ log ∈ logs, Readable u log.2) :
    ∃ events, gather (readEvents u keepUnparsed) n (logs.map linesLog) =
      .ok (events,unparsed (logs.flatMap Prod.snd)) ∧
      events.map bare = ((logs.flatMap Prod.snd).filter (kept keepUnparsed)).map bareLine := by
  induction logs generalizing n with
  | nil => exact ⟨[],rfl,rfl⟩
  | cons log logs ih =>
    obtain ⟨events,read,same⟩ :=
      @ih (n + 1) fun log' member => ok log' (List.mem_cons_of_mem _ member)
    refine ⟨eventsFrom keepUnparsed log.1 n 1 log.2 ++ events,
      gatherCons.mpr ⟨_,_,logGives (ok log List.mem_cons_self),read,?_⟩,?_⟩
    · simp only [List.flatMap_cons,unparsed,List.countP_append]
    · rw [List.map_append,bareEvents,same,List.flatMap_cons,List.filter_append,List.map_append]

def mergedLines (keepUnparsed : Bool) (lines : List LogLine) : List LogLine :=
  (lines.filter (kept keepUnparsed)).mergeSort (byTime sortTime)

theorem mergedGive {logs : List (List Char × List LogLine)} (ok : ∀ log ∈ logs, Readable u log.2) :
    mergeLogs u false keepUnparsed (logs.map linesLog) =
      .ok (linesText (mergedLines keepUnparsed (logs.flatMap Prod.snd)),
        unparsed (logs.flatMap Prod.snd)) := by
  obtain ⟨events,read,same⟩ := @logsGive u keepUnparsed 0 logs ok
  have whole : mergeLogs u false keepUnparsed (logs.map linesLog) =
      .ok (eventsText false (events.mergeSort (byTime TraceEvent.timestampNs)),
        unparsed (logs.flatMap Prod.snd)) := by
    rw [mergedSorted,readLogs,read]
    rfl
  have sortedBare : (events.mergeSort (byTime TraceEvent.timestampNs)).map bare =
      (mergedLines keepUnparsed (logs.flatMap Prod.snd)).map bareLine := by
    have sorted : (events.mergeSort (byTime TraceEvent.timestampNs)).map bare =
        (events.map bare).mergeSort (byTime Prod.fst) :=
      @timeMapped TraceEvent (Nat × List Char) Prod.fst bare events
    have sorted' := @timeMapped LogLine (Nat × List Char) Prod.fst bareLine
        ((logs.flatMap Prod.snd).filter (kept keepUnparsed))
    rw [sorted,same]
    exact sorted'.symm
  have texts := congrArg (List.flatMap fun b : Nat × List Char => b.2 ++ ['\n']) sortedBare
  rw [List.flatMap_map,List.flatMap_map] at texts
  rw [whole]
  exact congrArg (fun text => Except.ok (text,unparsed (logs.flatMap Prod.snd))) texts

/-! What was merged is merged again. -/
def eventLine (u : Unicode) (e : TraceEvent) : LogLine := ⟨e.line,match parseTraceLine u e.line with
  | .ok time => time
  | .error _ => none⟩

theorem stampedTime {e : TraceEvent} (stamped : Stamped u keepUnparsed e) :
    parseTraceLine u e.line = .ok (eventLine u e).time ∧
    sortTime (eventLine u e) = e.timestampNs ∧ kept keepUnparsed (eventLine u e) = true ∧
      ((eventLine u e).time.isNone = true → keepUnparsed = true) := by
  unfold eventLine sortTime kept
  rcases stamped.stamp with parsed | ⟨keep,parsed,last⟩
  · rw [parsed]
    exact ⟨rfl,rfl,rfl,fun none_ => by cases none_⟩
  · rw [parsed,keep,last]
    exact ⟨rfl,rfl,rfl,fun _ => rfl⟩

theorem gatherCount {α : Type} {f : Nat → α → Except Raised (List TraceEvent × Nat)} {xs : List α}
    {r : List TraceEvent × Nat} {p : TraceEvent → Bool}
    (one : ∀ m x r, f m x = .ok r → r.2 = r.1.countP p) (read : gather f n xs = .ok r) :
    r.2 = r.1.countP p := by
  induction xs generalizing n r with
  | nil =>
    obtain rfl := Except.ok.inj read
    rfl
  | cons x xs ih =>
    obtain ⟨first,later,here,rest,rfl⟩ := gatherCons.mp read
    rw [List.countP_append,one n x first here,ih rest]

theorem lineCount {rawLine : List Char} {r : List TraceEvent × Nat}
    (read : readLine u true name sourceIndex n rawLine = .ok r) :
    r.2 = r.1.countP fun e => (eventLine u e).time.isNone := by
  unfold readLine at read
  dsimp only at read
  split at read
  · obtain rfl := Except.ok.inj read
    rfl
  · cases parsed : parseTraceLine u (rawLine.rdropWhile (· == '\n')) with
    | error raised =>
      rw [parsed] at read
      cases read
    | ok time =>
      rw [parsed] at read
      obtain rfl := Except.ok.inj read
      cases time <;> simp [eventLine,parsed]

theorem logsCount {logs : List Log} {r : List TraceEvent × Nat}
    (read : readLogs u true logs = .ok r) :
    r.2 = r.1.countP fun e => (eventLine u e).time.isNone :=
  gatherCount (fun _ _ _ readLog =>
    gatherCount (fun _ _ _ readLine_ => lineCount readLine_) readLog) read

theorem againReadable {events : List TraceEvent}
    (each : ∀ e ∈ events, Stamped u keepUnparsed e ∧ '\n' ∉ e.line ∧ '\r' ∉ e.line) :
    Readable u (events.map (eventLine u)) := by
  refine ⟨fun l member => ?_,fun l member => ?_,fun l member => ?_⟩ <;> obtain ⟨e,inside,rfl⟩ :=
    List.mem_map.mp member
  · exact (each e inside).1.some_
  · exact (each e inside).2
  · exact (stampedTime (each e inside).1).1

theorem againSorted {events : List TraceEvent} (each : ∀ e ∈ events, Stamped u keepUnparsed e)
    (sorted : events.Pairwise fun a b => a.timestampNs ≤ b.timestampNs) :
    mergedLines keepUnparsed (events.map (eventLine u)) = events.map (eventLine u) := by
  have all : (events.map (eventLine u)).filter (kept keepUnparsed) = events.map (eventLine u) := by
    refine List.filter_eq_self.mpr fun l member => ?_
    obtain ⟨e,inside,rfl⟩ := List.mem_map.mp member
    exact (stampedTime (each e inside)).2.2.1
  rw [mergedLines,all]
  refine timeAlready (List.pairwise_map.mpr (sorted.imp_of_mem fun {a b} here there order => ?_))
  rwa [(stampedTime (each a here)).2.1,(stampedTime (each b there)).2.1]

/-- A merged log is a log like any other: merging it once more, with the same choice about lines
without a time stamp, gives it back as it is. -/
theorem mergedAgain (u : Unicode) (keepUnparsed : Bool) (logs : List Log) (name output : List Char)
    (skipped : Nat)
    (merged : mergeLogs u false keepUnparsed logs = .ok (output,skipped)) :
    mergeLogs u false keepUnparsed [⟨name,output⟩] =
      .ok (output,if keepUnparsed then skipped else 0) := by
  rw [mergedSorted] at merged
  cases read : readLogs u keepUnparsed logs with
  | error raised =>
    rw [read] at merged
    cases merged
  | ok r =>
    rw [read] at merged
    obtain ⟨rfl,rfl⟩ := Prod.mk.inj (Except.ok.inj merged)
    have shuffled := List.mergeSort_perm r.1 (byTime TraceEvent.timestampNs)
    have each : ∀ e ∈ r.1.mergeSort (byTime TraceEvent.timestampNs), Stamped u keepUnparsed e ∧
        '\n' ∉ e.line ∧ '\r' ∉ e.line :=
      fun e member => logsStamped read e (shuffled.mem_iff.mp member)
    have same : eventsText false (r.1.mergeSort (byTime TraceEvent.timestampNs)) =
        linesText ((r.1.mergeSort (byTime TraceEvent.timestampNs)).map (eventLine u)) := by
      rw [linesText,List.flatMap_map]
      rfl
    have again := @mergedGive u keepUnparsed
        [(name,(r.1.mergeSort (byTime TraceEvent.timestampNs)).map (eventLine u))]
        (by simpa using againReadable each)
    have count : unparsed ((r.1.mergeSort (byTime TraceEvent.timestampNs)).map (eventLine u)) =
        if keepUnparsed then r.2 else 0 := by
      rw [unparsed,List.countP_map]
      cases keepUnparsed with
      | true =>
        rw [if_pos rfl,logsCount read]
        exact shuffled.countP_eq _
      | false =>
        rw [if_neg (by simp),List.countP_eq_zero]
        exact fun e member none_ => by cases (stampedTime (each e member).1).2.2.2 none_
    simp only [List.map_cons,List.map_nil,List.flatMap_cons,List.flatMap_nil,List.append_nil,
      linesLog] at again
    rw [same,again,againSorted (fun e member => (each e member).1) (timeSorted r.1),count]

/- A log in order, with a line that has no time stamp at its end. -/
def oneLog : List LogLine := [⟨"p [0] 2.5: x".toList,some 2500000000⟩,⟨"q".toList,none⟩]

theorem oneAgain :
    mergeLogs ascii false true [linesLog ("a".toList,oneLog)] = .ok (linesText oneLog,1) ∧
    mergeLogs ascii false true [⟨"b".toList,linesText oneLog⟩] = .ok (linesText oneLog,1) := by
  have merged : mergeLogs ascii false true [linesLog ("a".toList,oneLog)] =
      .ok (linesText oneLog,1) := by
    have given := @mergedGive ascii true [("a".toList,oneLog)]
        (by simpa using ⟨by decide,by decide,by simpa [oneLog] using ⟨rfl,rfl⟩⟩)
    have already : mergedLines true (oneLog ++ []) = oneLog := timeAlready (l := oneLog) (by decide)
    simp only [List.map_cons,List.map_nil,List.flatMap_cons,List.flatMap_nil] at given
    rw [given,already]
    rfl
  exact ⟨merged,mergedAgain ascii true _ "b".toList _ 1 merged⟩

/- A log with a name: who wrote it, and what was handed to it. -/
structure Traced where
  name : List Char
  tracer : LogText.Tracer
  cache : EventLog.EntryCache
  records : List LogText.Record

def Traced.written (x : Traced) : List LogLine := logLines x.tracer x.cache x.records

def Traced.log (x : Traced) : Log :=
  ⟨x.name,(LogText.logWritten x.tracer x.cache x.records).getD []⟩

/- No name breaks a line or looks like a processor, and the walks over formats come to an end. -/
structure Traced.Orderly (x : Traced) : Prop where
  settles : Settles x.tracer x.records
  stamps : Stamps x.records
  comm : ∀ c ∈ x.tracer.comm, plain c
  newline : Proper x.tracer '\n' x.records
  return_ : Proper x.tracer '\r' x.records

theorem tracedReadable {x : Traced} (orderly : x.Orderly) : Readable u x.written := by
  refine ⟨fun l member none_ => ?_,
    fun l member => ⟨linesSolid (by decide) (by decide) orderly.newline member,
    linesSolid (by decide) (by decide) orderly.return_ member⟩,
      fun l member => linesParsed u orderly.stamps orderly.comm orderly.newline member⟩
  exact linesSome member none_

theorem tracedLog {x : Traced} (orderly : x.Orderly) : x.log = linesLog (x.name,x.written) := by
  rw [Traced.log,written orderly.settles]
  rfl

/-- Of logs of the tracer, the output is the lines of all events that were not suppressed, sorted
by the time stamps of the events themselves, and the lines for losses are counted and left out,
or sorted in as if the last possible moment of the signed range was their stamp. -/
theorem tracedMerged (u : Unicode) (keepUnparsed : Bool) (traced : List Traced)
    (orderly : ∀ x ∈ traced, x.Orderly) :
    mergeLogs u false keepUnparsed (traced.map Traced.log) =
      .ok (linesText (mergedLines keepUnparsed (traced.flatMap Traced.written)),
        unparsed (traced.flatMap Traced.written)) := by
  have same : traced.map Traced.log = (traced.map fun x => (x.name,x.written)).map linesLog := by
    rw [List.map_map]
    exact List.map_congr_left fun x member => tracedLog (orderly x member)
  have readable : ∀ log ∈ traced.map fun x => (x.name,x.written), Readable u log.2 := by
    intro log member
    obtain ⟨x,inside,rfl⟩ := List.mem_map.mp member
    exact tracedReadable (orderly x inside)
  have whole := @mergedGive u keepUnparsed _ readable
  rw [List.flatMap_map] at whole
  rw [same,whole]

def printfTraced : List Traced :=
  [⟨"a.log".toList,printfTracer,.zero,printfRecords⟩,
    ⟨"b.log".toList,printfTracer,.zero,printfRecords⟩]

theorem printfMerged : mergeLogs ascii false false (printfTraced.map Traced.log) =
    .ok (linesText (mergedLines false (printfTraced.flatMap Traced.written)),
      unparsed (printfTraced.flatMap Traced.written)) := by
  refine tracedMerged ascii false printfTraced fun x member => ?_
  simp only [printfTraced,List.mem_cons,List.not_mem_nil,or_false] at member
  rcases member with rfl | rfl <;> exact ⟨printfSettles,printfStamps,printfComm,printfProper.1,
    printfProper.2⟩

end

end ZeroTrace.MergeLogs
