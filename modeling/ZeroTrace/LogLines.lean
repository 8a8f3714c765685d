import ZeroTrace.LogText

/-! Every event gives one line of the log or, if it is suppressed, none, whatever the target's
memory holds, and the script that merges logs finds the event's time stamp in it. A line for lost
events has no time stamp for it. -/
namespace ZeroTrace.LogLines
open TraceBuffer EventLog NumberTexts EventFormat EventBounds EventTexts ListTexts LogText
  LogMerge Backtracking
open ProbeTable (Name Probe callActionArgCap)
open TextRow (Row textAt)
open BoundedText (Filled)

section
variable {c : Char} (unprinted : Unprinted c)
include unprinted

theorem valueSolid (event : Event) (i : Nat) : c ∉ value event i := addressSolid _ unprinted

theorem argsSolid (event : Event) : c ∉ itemsText (callArgItems event) := by
  refine textSolid unprinted fun item member => ?_
  obtain ⟨i,_,rfl⟩ := List.mem_map.mp member
  exact addressSolid _ unprinted

omit unprinted in
theorem rowSolid {p : Probe} (nul : c ≠ '\x00') (name : c ∉ p.target.symbol) :
    c ∉ textAt (symbolRow p) 0 := fun inside => by
  have there := (List.takeWhile_prefix _).subset inside
  rw [List.drop_zero,symbolRow,List.mem_append,List.mem_singleton] at there
  exact there.elim name nul

end

theorem argsFit (event : Event) : (itemsText (callArgItems event)).length < callArgsSize := by
  have short : ∀ item ∈ callArgItems event, item.length ≤ 18 := by
    intro item member
    obtain ⟨i,_,rfl⟩ := List.mem_map.mp member
    exact addressLength _
  have few : (callArgItems event).length ≤ callActionArgCap := by
    simp only [callArgItems,List.length_map,List.length_take]
    split <;> omega
  have length := textLength short 0
  have most : (callArgItems event).length * (18 + 2) ≤ callActionArgCap * (18 + 2) :=
    Nat.mul_le_mul_right _ few
  have room : callActionArgCap * (18 + 2) < callArgsSize := by decide
  exact Nat.lt_of_le_of_lt (Nat.le_trans length most) room

theorem argsWritten (event : Event) (stack : Nat → Char) :
    textIn callArgsSize (formatCallArgs event stack callArgsSize) =
      itemsText (callArgItems event) := by
  refine textPrinted (fun item member => ?_) (argsFit event)
  obtain ⟨i,_,rfl⟩ := List.mem_map.mp member
  exact addressSolid _ (by decide)

/-! What a line says behind its head, without the newline. -/
section
variable (t : Tracer) (at_ : Place)

/- The text with names and values, if the signature is known and the text has room. -/
def typedText (probe : Option Probe) (matched : Option Event)
    (event : Event) : Option (List Char) := probe.bind fun p =>
  (lineText at_.mem at_.stack t.table (symbolRow p) (matched.map registers) (event.field .eventType)
    (registers event)).filter
    (·.length < formattedSize)

def lineKind : Line → Kind
  | .call _ _ _ => .call
  | .shown _ _ event _ =>
    if event.field .eventType = EventType.entry.code then .entry else if event.field .eventType =
      EventType.ret.code then .ret else .event

def lineSays : Line → List Char
  | .call symbol callee event =>
      symbol ++ " => ".toList ++ callee ++ "(".toList ++ itemsText (callArgItems event) ++
        ") -> ".toList ++
      value event 1 ++ " callee=".toList ++ value event 0 ++ ['\n']
  | .shown probe matched event seq =>
      (typedText t at_ probe matched event).getD (plainLine (symbolOf probe) event seq).2

def lineNames : Line → List Name
  | .call symbol callee _ => [symbol,callee]
  | .shown probe _ _ _ => [symbolOf probe]

/- Formats that are read for the event end properly. -/
def WholeFor (r : Event) (probe : Option Probe) : Prop :=
  ∀ p, probe = some p → WholeFormats at_.mem t.table (symbolRow p) (registers r)

end

section
variable {t : Tracer} {at_ : Place} {probe : Option Probe} {matched : Option Event} {event : Event}
    {seq : Nat} {line : Line}

theorem textEnds {mem stack table row entry type registers_ text}
    (found : lineText mem stack table row entry type registers_ = some text) :
    ∃ body, text = body ++ ['\n'] ∧ ∀ c, Unprinted c → c ∉ textAt row 0 → c ∉ body := by
  obtain ⟨sig,_,found⟩ := Option.bind_eq_some_iff.mp found
  split at found
  · rw [← Option.some.inj found]
    refine ⟨textAt row 0 ++ ['('] ++ paramsText mem stack sig registers_ 0 0 0 sig.params ++
      (if sig.variadic then variadicText mem stack sig registers_ else []) ++ [')'],
        by simp [entryText],fun c unprinted name => ?_⟩
    have more : c ∉ if sig.variadic then variadicText mem stack sig registers_ else [] := by
      split
      · unfold variadicText
        split
        · exact runSolid unprinted _ _
        · exact unprintedOut unprinted (by decide)
      · exact List.not_mem_nil
    exact List.not_mem_append
      (List.not_mem_append
      (List.not_mem_append (List.not_mem_append name (unprintedOut unprinted (by decide)))
      (paramsSolid unprinted _ _ _ _)) more) (unprintedOut unprinted (by decide))
  · split at found
    · rw [← Option.some.inj found]
      refine ⟨_,rfl,fun c unprinted name => ?_⟩
      exact List.not_mem_append
        (List.not_mem_append (List.not_mem_append name (unprintedOut unprinted (by decide)))
        (EventTexts.valueSolid _ _ _ _ unprinted)) (returnPartSolid unprinted _)
    · cases found

theorem textTyped {mem stack table row entry type registers_ text}
    (found : lineText mem stack table row entry type registers_ = some text) :
    type = EventType.entry.code ∨ type = EventType.ret.code := by
  obtain ⟨sig,_,found⟩ := Option.bind_eq_some_iff.mp found
  split at found
  · next entry_ => exact .inl entry_
  · split at found
    · next ret => exact .inr ret
    · cases found

theorem formattedTyped (whole : WholeFor t at_ event probe)
    (enough : VariadicArgs.fmtSize ≤ at_.fuel) :
    formatted t at_ probe matched event = some (typedText t at_ probe matched event) := by
  cases probe with
  | none => rfl
  | some p =>
    obtain ⟨r,ran,settled⟩ :=
      @formatSettled at_.mem at_.stack t.table (symbolRow p) (matched.map registers)
      (event.field .eventType)
      (registers event) at_.stack formattedSize (whole p rfl) at_.fuel enough
    simp only [formatted,ran,Option.map_some,typedText,Option.bind_some]
    cases well : r.2 with
    | true =>
      obtain ⟨text,found,filled⟩ := settled.shown well
      obtain ⟨body,rfl,solid⟩ := textEnds found
      have nul : '\x00' ∉ body ++ ['\n'] :=
        List.not_mem_append (solid '\x00' (by decide) (probeSolid _)) (by decide)
      have there : textIn formattedSize r.1.cells = body ++ ['\n'] := by
        rw [filled.cells]
        exact textInStore nul filled.fits
      rw [found,if_pos rfl,there,Option.filter_some,if_pos (decide_eq_true filled.fits)]
    | false =>
      rw [if_neg (by simp)]
      cases found : lineText at_.mem at_.stack t.table (symbolRow p) (matched.map registers)
        (event.field .eventType) (registers event) with
      | none => rfl
      | some text =>
        have full := (refusedSome found).mp (settled.failed.mp well)
        rw [Option.filter_some,if_neg (by simpa using full)]

theorem plainKind : plainLine (symbolOf probe) event seq =
    (lineKind (.shown probe matched event seq),(plainLine (symbolOf probe) event seq).2) := by
  unfold plainLine lineKind
  dsimp only
  split
  · rfl
  · split <;> rfl

theorem partsSay (whole : ∀ p m e s, line = .shown p m e s → WholeFor t at_ e p)
    (enough : VariadicArgs.fmtSize ≤ at_.fuel) :
    lineParts t at_ line = some (lineKind line,lineSays t at_ line) := by
  cases line with
  | call symbol callee event => simp only [lineParts,callLine,argsWritten,lineKind,lineSays]
  | shown probe matched event seq =>
    rw [lineParts,formattedTyped (whole _ _ _ _ rfl) enough,Option.map_some,lineSays]
    cases found : typedText t at_ probe matched event with
    | none => exact congrArg some plainKind
    | some text =>
      obtain ⟨p,_,found⟩ := Option.bind_eq_some_iff.mp found
      have kind : phase event = lineKind (.shown probe matched event seq) := by
        unfold phase lineKind
        rcases textTyped (Option.eq_some_of_filter_eq_some found) with entry | ret
        · rw [if_neg (by rw [entry]; decide)]
          exact (if_pos entry).symm
        · rw [if_pos ret]
          exact ((if_neg (by rw [ret]; decide)).trans (if_pos ret)).symm
      exact congrArg (fun kind => some (kind,text)) kind

theorem plainEnds (symbol : Name) (event : Event) (seq : Nat) :
    ∃ body, (plainLine symbol event seq).2 = body ++ ['\n'] ∧ ∀ c, Unprinted c → c ∉ symbol →
      c ∉ body := by
  unfold plainLine
  have solid : ∀ {c} {s : List Char}, Unprinted c → s.all (fun d => !decide (Unprinted d)) = true →
      c ∉ s := fun unprinted printed => unprintedOut unprinted printed
  split
  · refine ⟨symbol ++ "(arg0=".toList ++ value event 0 ++ ", arg1=".toList ++ value event 1 ++
      ", arg2=".toList ++ value event 2 ++
      ", arg3=".toList ++ value event 3 ++ ", arg4=".toList ++ value event 4 ++ ", arg5=".toList ++
        value event 5 ++ [')'],?_,fun c unprinted name => ?_⟩
    · simp [plainEntry]
    · have words := valueSolid unprinted event
      simp only [List.mem_append,not_or]
      exact ⟨⟨⟨⟨⟨⟨⟨⟨⟨⟨⟨⟨⟨name,solid unprinted (by decide)⟩,words 0⟩,solid unprinted (by decide)⟩,
        words 1⟩,solid unprinted (by decide)⟩,words 2⟩,
        solid unprinted (by decide)⟩,words 3⟩,solid unprinted (by decide)⟩,words 4⟩,
          solid unprinted (by decide)⟩,words 5⟩,solid unprinted (by decide)⟩
  · split
    · refine ⟨_,rfl,fun c unprinted name => ?_⟩
      exact List.not_mem_append (List.not_mem_append name (solid unprinted (by decide)))
        (valueSolid unprinted event 0)
    · refine ⟨_,rfl,fun c unprinted name => ?_⟩
      exact List.not_mem_append
        (List.not_mem_append
        (List.not_mem_append (List.not_mem_append name (solid unprinted (by decide)))
        (decimalSolid unprinted _)) (solid unprinted (by decide))) (decimalSolid unprinted _)

theorem saysEnds (line : Line) : ∃ body, lineSays t at_ line = body ++ ['\n'] ∧
    ∀ c, Unprinted c → c ≠ '\x00' → (∀ n ∈ lineNames line, c ∉ n) → c ∉ body := by
  cases line with
  | call symbol callee event =>
    refine ⟨_,rfl,fun c unprinted _ names => ?_⟩
    have symbol_ := names symbol List.mem_cons_self
    have callee_ := names callee (List.mem_cons_of_mem _ List.mem_cons_self)
    have solid : ∀ {s : List Char}, s.all (fun d => !decide (Unprinted d)) = true → c ∉ s :=
      fun printed => unprintedOut unprinted printed
    simp only [List.mem_append,not_or]
    exact ⟨⟨⟨⟨⟨⟨⟨⟨symbol_,solid (by decide)⟩,callee_⟩,solid (by decide)⟩,argsSolid unprinted event⟩,
      solid (by decide)⟩,valueSolid unprinted event 1⟩,
      solid (by decide)⟩,valueSolid unprinted event 0⟩
  | shown probe matched event seq =>
    rw [lineSays]
    cases found : typedText t at_ probe matched event with
    | none =>
      obtain ⟨body,same,solid⟩ := plainEnds (symbolOf probe) event seq
      exact ⟨body,same,fun c unprinted _ names => solid c unprinted (names _ List.mem_cons_self)⟩
    | some text =>
      obtain ⟨p,rfl,found⟩ := Option.bind_eq_some_iff.mp found
      obtain ⟨body,same,solid⟩ := textEnds (Option.eq_some_of_filter_eq_some found)
      exact ⟨body,same,fun c unprinted nul names =>
        solid c unprinted (rowSolid nul (names _ List.mem_cons_self))⟩

end

/-! The line that comes out for an event. -/
theorem lineCases {cache : EntryCache} {r : Reading} {line : Line}
    (shown : (dumpOneTraceEvent cache r).2 = some line) :
    line = .call (symbolOf r.probe) (calleeName r r.probe) r.event ∨
      ∃ matched, line = .shown r.probe matched r.event r.seq := by
  unfold dumpOneTraceEvent at shown
  dsimp only at shown
  split at shown
  · exact .inl (Option.some.inj shown).symm
  · split at shown
    · split at shown
      · cases shown
      · exact .inr ⟨_,(Option.some.inj shown).symm⟩
    · split at shown
      · split at shown
        · split at shown
          · cases shown
          · exact .inr ⟨_,(Option.some.inj shown).symm⟩
        · exact .inr ⟨_,(Option.some.inj shown).symm⟩
      · exact .inr ⟨_,(Option.some.inj shown).symm⟩

def readingNames (r : Reading) : List Name :=
  unknownName::(r.callSymbols.map Prod.snd ++ r.probe.elim [] fun p =>
    [p.target.symbol,p.callSymbol])

theorem symbolListed (r : Reading) : symbolOf r.probe ∈ readingNames r := by
  unfold symbolOf readingNames
  cases r.probe with
  | none => exact List.mem_cons_self
  | some p => simp

theorem calleeListed (r : Reading) : calleeName r r.probe ∈ readingNames r := by
  unfold calleeName readingNames
  dsimp only
  split
  · next name _ known =>
    unfold findCallSymbol at known
    split at known
    · cases known
    · obtain ⟨entry,found,rfl⟩ := Option.map_eq_some_iff.mp known
      exact List.mem_cons_of_mem _
        (List.mem_append_left _ (List.mem_map_of_mem (List.mem_of_find?_eq_some found)))
  · next p _ probe =>
    rw [probe]
    split
    · simp
    · exact List.mem_cons_self
  · exact List.mem_cons_self

theorem namesListed {cache : EntryCache} {r : Reading} {line : Line}
    (shown : (dumpOneTraceEvent cache r).2 = some line) :
    ∀ n ∈ lineNames line, n ∈ readingNames r := by
  rcases lineCases shown with rfl | ⟨matched,rfl⟩
  · simpa [lineNames] using ⟨symbolListed r,calleeListed r⟩
  · simpa [lineNames] using symbolListed r

/-! The head of a line, and the line for lost events. -/
theorem headSolid {c : Char} (unprinted : Unprinted c) {comm : List Char} (other : c ∉ comm)
    (pid : Int) (event : Event) (kind : Kind) :
    c ∉ printEventPrefix comm pid event kind := by
  have number : ∀ n, c ∉ LogMerge.decimal n := fun n => decimalSolid unprinted n
  have solid : ∀ {s : List Char}, s.all (fun d => !decide (Unprinted d)) = true → c ∉ s :=
    fun printed => unprintedOut unprinted printed
  have wide : ∀ {fill : Char} (width n : Nat), ¬ Unprinted fill → c ∉ filled fill width n :=
    fun width n printed =>
    List.not_mem_append
      (fun inside => unprintedNe unprinted printed (List.eq_of_mem_replicate inside)) (number n)
  have pid_ : c ∉ signedDecimal pid := signedSolid unprinted pid
  have kind_ : c ∉ kind.text := solid (by cases kind <;> decide)
  simp only [printEventPrefix,List.mem_append,not_or]
  exact ⟨⟨⟨⟨⟨⟨⟨⟨⟨⟨⟨⟨⟨other,solid (by decide)⟩,pid_⟩,solid (by decide)⟩,number _⟩,solid (by decide)⟩,
    wide 3 _ (by decide)⟩,solid (by decide)⟩,
    wide 5 _ (by decide)⟩,solid (by decide)⟩,wide 9 _ (by decide)⟩,solid (by decide)⟩,kind_⟩,
      solid (by decide)⟩

/- A bracket that no digit follows is no processor. -/
theorem bracketSearched (u : Unicode) {a b : List Char} {d : Char} (front : '[' ∉ a)
    (behind : '[' ∉ d::b) (other : u.digit d = false) :
    search (traceLineRe u) (a ++ '['::d::b) = none := by
  have nothing : results (traceLineRe u) 0 (a ++ '['::d::b) = [] := by
    refine seqNothing fun f start => ?_
    obtain rfl : f = ⟨0,a ++ '['::d::b,[]⟩ := List.mem_singleton.mp start
    refine manyNowhere fun k => ?_
    cases left : (a ++ '['::d::b).drop k with
    | nil => rfl
    | cons x more =>
      by_cases bracket : x = '['
      · rw [bracket] at left ⊢
        have split := List.take_append_drop k (a ++ '['::d::b)
        rw [left] at split
        obtain ⟨_,_,rfl⟩ := (List.append_cons_inj_of_notMem front behind).mp split.symm
        refine seqNothing fun f one => ?_
        rw [oneMatches (p := (· == '[')) rfl] at one
        obtain rfl := List.mem_singleton.mp one
        refine seqNothing fun f digits => ?_
        rw [manyNone (endsCons other) (by decide)] at digits
        exact absurd digits List.not_mem_nil
      · refine seqNothing fun f one => ?_
        rw [oneFails (p := (· == '[')) (beq_eq_false_iff_ne.mpr bracket)] at one
        exact absurd one List.not_mem_nil
  rw [search,nothing]
  rfl

section
variable (t : Tracer)

def lostSays (firstLost lostCount writeSeq : Nat) : List Char :=
  t.comm ++ "-".toList ++ signedDecimal t.pid ++ " [---] ztrace:lost: dropped ".toList ++
    NumberTexts.decimal lostCount ++
    " events starting at seq=".toList ++ NumberTexts.decimal firstLost ++ " (write_seq=".toList ++
      NumberTexts.decimal writeSeq ++
    " capacity=".toList ++ NumberTexts.decimal eventCapacity ++ [')']

theorem lostSolid {c : Char} (unprinted : Unprinted c) (other : c ∉ t.comm)
    (firstLost lostCount writeSeq : Nat) :
    c ∉ lostSays t firstLost lostCount writeSeq := by
  have number : ∀ n, c ∉ NumberTexts.decimal n := fun n => decimalSolid unprinted n
  have solid : ∀ {s : List Char}, s.all (fun d => !decide (Unprinted d)) = true → c ∉ s :=
    fun printed => unprintedOut unprinted printed
  have pid_ : c ∉ signedDecimal t.pid := signedSolid unprinted t.pid
  simp only [lostSays,List.mem_append,not_or]
  exact ⟨⟨⟨⟨⟨⟨⟨⟨⟨⟨⟨other,solid (by decide)⟩,pid_⟩,solid (by decide)⟩,number _⟩,solid (by decide)⟩,
    number _⟩,solid (by decide)⟩,number _⟩,
    solid (by decide)⟩,number _⟩,solid (by decide)⟩

theorem digitOther {n : Nat} : '[' ∉ NumberTexts.decimal n :=
  fun inside => (plainDigit (LogMerge.decimalDigits n inside)).1 rfl

theorem lostParsed (u : Unicode) (commPlain : ∀ c ∈ t.comm, plain c)
    (firstLost lostCount writeSeq : Nat) :
    parseTraceLine u (lostSays t firstLost lostCount writeSeq) = .ok none := by
  have shape : lostSays t firstLost lostCount writeSeq =
      (t.comm ++ "-".toList ++ signedDecimal t.pid ++ [' ']) ++
      '[':: '-'::("--] ztrace:lost: dropped ".toList ++ NumberTexts.decimal lostCount ++
        " events starting at seq=".toList ++
        NumberTexts.decimal firstLost ++ " (write_seq=".toList ++ NumberTexts.decimal writeSeq ++
          " capacity=".toList ++
        NumberTexts.decimal eventCapacity ++ [')']) := by simp [lostSays]
  have front : '[' ∉ t.comm ++ "-".toList ++ signedDecimal t.pid ++ [' '] := by
    simp only [List.mem_append,not_or]
    exact ⟨⟨⟨fun inside => (commPlain _ inside).1 rfl,by decide⟩,
      fun inside => (plainSigned t.pid inside).1 rfl⟩,by decide⟩
  have behind : '[' ∉
      '-'::("--] ztrace:lost: dropped ".toList ++ NumberTexts.decimal lostCount ++
      " events starting at seq=".toList ++
        NumberTexts.decimal firstLost ++ " (write_seq=".toList ++ NumberTexts.decimal writeSeq ++
          " capacity=".toList ++
        NumberTexts.decimal eventCapacity ++ [')']) := by
    refine List.not_mem_cons_of_ne_of_not_mem (by decide) ?_
    simp only [List.mem_append,not_or]
    exact ⟨⟨⟨⟨⟨⟨⟨⟨by decide,digitOther⟩,by decide⟩,digitOther⟩,by decide⟩,digitOther⟩,by decide⟩,
      digitOther⟩,by decide⟩
  have minus : u.digit '-' = false := by rw [u.digitAscii '-' (by decide)]; rfl
  unfold parseTraceLine
  rw [shape,bracketSearched u front behind minus]

structure LogLine where
  text : List Char
  time : Option Nat
  deriving DecidableEq, Repr

def eventLine (at_ : Place) (line : Line) : LogLine :=
  ⟨printEventPrefix t.comm t.pid (lineEvent line) (lineKind line) ++ (lineSays t at_ line).dropLast,
    some ((lineEvent line).field .timestampNs)⟩

def recordLines (cache : EntryCache) : Record → EntryCache × List LogLine
  | .event r at_ => ((dumpOneTraceEvent cache r).1,
    ((dumpOneTraceEvent cache r).2.map (eventLine t at_)).toList)
  | .lost firstLost lostCount writeSeq =>
      (cache,if lostCount = 0 then [] else [⟨lostSays t firstLost lostCount writeSeq,none⟩])

def logLines (cache : EntryCache) : List Record → List LogLine
  | [] => []
  | record::rest => (recordLines t cache record).2 ++ logLines (recordLines t cache record).1 rest

def linesText (lines : List LogLine) : List Char := lines.flatMap fun l => l.text ++ ['\n']

/- No name has this character. -/
structure Proper (c : Char) (records : List Record) : Prop where
  comm : c ∉ t.comm
  names : ∀ r at_, .event r at_ ∈ records → ∀ n ∈ readingNames r, c ∉ n

def Stamps (records : List Record) : Prop := ∀ r at_, .event r at_ ∈ records →
    r.event.field .timestampNs < 2^64

/- The walks over formats come to an end. -/
structure Settles (records : List Record) : Prop where
  fuel : ∀ r at_, .event r at_ ∈ records → VariadicArgs.fmtSize ≤ at_.fuel
  whole : ∀ r at_, .event r at_ ∈ records → WholeFor t at_ r.event r.probe

variable {t} {at_ : Place} {line : Line} {r : Reading} {cache : EntryCache} {record : Record}
    {records : List Record}

theorem lineSaid (whole : ∀ p m e s, line = .shown p m e s → WholeFor t at_ e p)
    (enough : VariadicArgs.fmtSize ≤ at_.fuel) :
    lineWritten t at_ line = some ((eventLine t at_ line).text ++ ['\n']) := by
  obtain ⟨body,said,_⟩ := @saysEnds t at_ line
  rw [lineWritten,partsSay whole enough,Option.map_some,eventLine,said,List.dropLast_concat,
    List.append_assoc]

theorem lineSolid {c : Char} (unprinted : Unprinted c) (nul : c ≠ '\x00') (comm : c ∉ t.comm)
    (names : ∀ n ∈ lineNames line, c ∉ n) :
    c ∉ (eventLine t at_ line).text := by
  obtain ⟨body,said,solid⟩ := @saysEnds t at_ line
  rw [eventLine,said,List.dropLast_concat]
  exact List.not_mem_append (headSolid unprinted comm _ _ _) (solid c unprinted nul names)

theorem lineParsed (u : Unicode) (word : (lineEvent line).field .timestampNs < 2^64)
    (commPlain : ∀ c ∈ t.comm, plain c)
    (names : ∀ n ∈ lineNames line, '\n' ∉ n) :
    parseTraceLine u (eventLine t at_ line).text = .ok (eventLine t at_ line).time := by
  obtain ⟨body,said,solid⟩ := @saysEnds t at_ line
  rw [eventLine,said,List.dropLast_concat]
  obtain ⟨last,found⟩ :=
    lineSearched u t.pid (lineEvent line) (lineKind line) commPlain
    (solid '\n' (by decide) (by decide) names)
  simp only [parseTraceLine,found]
  rw [stampValue u word]
  rfl

theorem eventSaid (shown : (dumpOneTraceEvent cache r).2 = some line)
    (whole : WholeFor t at_ r.event r.probe) (enough : VariadicArgs.fmtSize ≤ at_.fuel) :
    lineWritten t at_ line = some ((eventLine t at_ line).text ++ ['\n']) := by
  refine lineSaid (fun p m e s same => ?_) enough
  rcases lineCases shown with rfl | ⟨matched,rfl⟩
  · cases same
  · cases same
    exact whole

theorem recordRead {c : Char} (unprinted : Unprinted c) (nul : c ≠ '\x00') (comm : c ∉ t.comm)
    (names : ∀ r at_, record = .event r at_ → ∀ n ∈ readingNames r, c ∉ n) {l : LogLine}
    (member : l ∈ (recordLines t cache record).2) : c ∉ l.text := by
  cases record with
  | event r at_ =>
    obtain ⟨line,shown,rfl⟩ := Option.map_eq_some_iff.mp (Option.mem_toList.mp member)
    exact lineSolid unprinted nul comm fun n listed =>
      names r at_ rfl n (namesListed shown n listed)
  | lost firstLost lostCount writeSeq =>
    simp only [recordLines] at member
    split at member
    · exact absurd member List.not_mem_nil
    · rw [List.mem_singleton.mp member]
      exact lostSolid t unprinted comm _ _ _

theorem lineStamp (shown : (dumpOneTraceEvent cache r).2 = some line) : lineEvent line =
    r.event := by
  rcases lineCases shown with rfl | ⟨matched,rfl⟩ <;> rfl

theorem recordParsed (u : Unicode)
    (word : ∀ r at_, record = .event r at_ → r.event.field .timestampNs < 2^64)
    (commPlain : ∀ c ∈ t.comm, plain c)
    (names : ∀ r at_, record = .event r at_ → ∀ n ∈ readingNames r, '\n' ∉ n)
    {l : LogLine} (member : l ∈ (recordLines t cache record).2) :
    parseTraceLine u l.text = .ok l.time := by
  cases record with
  | event r at_ =>
    obtain ⟨line,shown,rfl⟩ := Option.map_eq_some_iff.mp (Option.mem_toList.mp member)
    have stamped : (lineEvent line).field .timestampNs < 2^64 := by
      rw [lineStamp shown]
      exact word r at_ rfl
    exact lineParsed u stamped commPlain fun n listed =>
      names r at_ rfl n (namesListed shown n listed)
  | lost firstLost lostCount writeSeq =>
    simp only [recordLines] at member
    split at member
    · exact absurd member List.not_mem_nil
    · rw [List.mem_singleton.mp member]
      exact lostParsed t u commPlain _ _ _

theorem linesAppend (lines lines' : List LogLine) :
    linesText (lines ++ lines') = linesText lines ++ linesText lines' := List.flatMap_append

theorem settlesRest (settles : Settles t (record::records)) : Settles t records :=
  ⟨fun r at_ member => settles.fuel r at_ (List.mem_cons_of_mem _ member),
    fun r at_ member => settles.whole r at_ (List.mem_cons_of_mem _ member)⟩

theorem properRest {c : Char} (proper : Proper t c (record::records)) : Proper t c records :=
  ⟨proper.comm,fun r at_ member => proper.names r at_ (List.mem_cons_of_mem _ member)⟩

theorem properFirst {c : Char} (proper : Proper t c (record::records)) :
    ∀ r at_, record = .event r at_ → ∀ n ∈ readingNames r, c ∉ n := by
  rintro r at_ rfl
  exact proper.names r at_ List.mem_cons_self

/- The whole log, by induction on what is handed to it. -/
theorem written (settles : Settles t records) :
    logWritten t cache records = some (linesText (logLines t cache records)) := by
  induction records generalizing cache with
  | nil => rfl
  | cons record rest ih =>
    have later := @ih (recordLines t cache record).1 (settlesRest settles)
    rw [logLines,linesAppend]
    cases record with
    | event r at_ =>
      have whole := settles.whole r at_ List.mem_cons_self
      have enough := settles.fuel r at_ List.mem_cons_self
      simp only [logWritten,eventWritten]
      cases shown : (dumpOneTraceEvent cache r).2 with
      | none =>
        simp only [Option.elim_none,Option.bind_some,recordLines,shown,Option.map_none,
          Option.toList_none]
        simp only [recordLines] at later
        rw [later]
        rfl
      | some line =>
        simp only [Option.elim_some,eventSaid shown whole enough,Option.bind_some,recordLines,shown,
          Option.map_some,Option.toList_some]
        simp only [recordLines] at later
        rw [later]
        simp [linesText]
    | lost firstLost lostCount writeSeq =>
      simp only [logWritten,recordLines]
      simp only [recordLines] at later
      rw [later,Option.map_some]
      unfold lostWritten
      split
      · rfl
      · simp [linesText,lostSays]

theorem linesSolid {c : Char} (unprinted : Unprinted c) (nul : c ≠ '\x00')
    (proper : Proper t c records) {l : LogLine}
    (member : l ∈ logLines t cache records) : c ∉ l.text := by
  induction records generalizing cache with
  | nil => exact absurd member List.not_mem_nil
  | cons record rest ih =>
    rcases List.mem_append.mp member with here | later
    · exact recordRead unprinted nul proper.comm (properFirst proper) here
    · exact ih (properRest proper) later

theorem linesSome {l : LogLine} (member : l ∈ logLines t cache records) : l.text ≠ [] := by
  induction records generalizing cache with
  | nil => exact absurd member List.not_mem_nil
  | cons record rest ih =>
    rcases List.mem_append.mp member with here | later
    · cases record with
      | event r at_ =>
        obtain ⟨line,_,rfl⟩ := Option.map_eq_some_iff.mp (Option.mem_toList.mp here)
        simp [eventLine,printEventPrefix]
      | lost firstLost lostCount writeSeq =>
        simp only [recordLines] at here
        split at here
        · exact absurd here List.not_mem_nil
        · rw [List.mem_singleton.mp here]
          simp [lostSays]
    · exact ih later

theorem linesParsed (u : Unicode) (stamps : Stamps records) (commPlain : ∀ c ∈ t.comm, plain c)
    (proper : Proper t '\n' records)
    {l : LogLine} (member : l ∈ logLines t cache records) : parseTraceLine u l.text =
      .ok l.time := by
  induction records generalizing cache with
  | nil => exact absurd member List.not_mem_nil
  | cons record rest ih =>
    rcases List.mem_append.mp member with here | later
    · exact recordParsed u (fun r at_ same => stamps r at_ (same ▸ List.mem_cons_self)) commPlain
        (properFirst proper) here
    · exact ih (fun r at_ listed => stamps r at_ (List.mem_cons_of_mem _ listed))
        (properRest proper) later

end

/-- A log is one line for each event that is not suppressed and one for each loss, in this order,
and no line has a newline in it: neither a value nor a preview of the target's memory tears one. The
script that merges logs finds in each the time stamp of its event, and none in those for losses. -/
theorem logByLines (u : Unicode) (t : Tracer) (cache : EntryCache) (records : List Record)
    (settles : Settles t records)
    (stamps : Stamps records) (commPlain : ∀ c ∈ t.comm, plain c) (proper : Proper t '\n' records) :
    logWritten t cache records = some (linesText (logLines t cache records)) ∧
      ∀ l ∈ logLines t cache records, '\n' ∉ l.text ∧ parseTraceLine u l.text = .ok l.time :=
  ⟨written settles,fun _ member =>
    ⟨linesSolid (by decide) (by decide) proper member,linesParsed u stamps commPlain proper member⟩⟩

/- A call of printf, its return, and three events that are lost. -/
def printfProbe : Probe :=
  { Probe.zero with
      probeId := 1, target := ⟨"printf".toList,"/lib/libc.so".toList,4096⟩, state := .installed }

def printfFields (type : EventType) : Field → Nat
  | .probeId => 1
  | .eventType => type.code
  | .callId => 9
  | .timestampNs => 1500000000
  | .arg i => if i.val = 0 then 0x1000 else 7
  | _ => 0

def printfReading (type : EventType) : Reading :=
  ⟨⟨2,1,fun _ => printfProbe⟩,[],1,⟨1,printfFields type⟩⟩

def printfTracer : Tracer := ⟨"demo".toList,42,[printfSig]⟩

def printfPlace : Place := ⟨numberFormat,fun _ => 'x',192⟩

def printfRecords : List Record :=
  [.event (printfReading .entry) printfPlace,.event (printfReading .ret) printfPlace,.lost 3 3 4101]

theorem printfWhole (type : EventType) :
    WholeFor printfTracer printfPlace (printfReading type).event (printfReading type).probe := by
  intro p probe sig known format read
  have symbol : textAt (symbolRow p) 0 = "printf".toList := by
    obtain rfl := Option.some.inj
      (probe.symm.trans (show (printfReading type).probe = some printfProbe by cases type <;> rfl))
    rfl
  have found : Signatures.sigconfFind [printfSig] "printf".toList = some printfSig := by decide
  rw [symbol] at known
  obtain rfl := Option.some.inj (known.symm.trans found)
  have here : formatText numberFormat printfSig (registers (printfReading type).event) =
      some "n=%d".toList := by cases type <;> decide
  obtain rfl := Option.some.inj (read.symm.trans here)
  decide

theorem printfListed {r : Reading} {at_ : Place} (member : Record.event r at_ ∈ printfRecords) :
    (r = printfReading .entry ∨ r = printfReading .ret) ∧ at_ = printfPlace := by
  simpa [printfRecords,or_and_right] using member

theorem printfSettles : Settles printfTracer printfRecords := by
  refine ⟨fun r at_ member => ?_,fun r at_ member => ?_⟩
  · obtain ⟨_,rfl⟩ := printfListed member
    decide
  · obtain ⟨rfl | rfl,rfl⟩ := printfListed member <;> exact printfWhole _

theorem printfStamps : Stamps printfRecords := by
  intro r at_ member
  obtain ⟨rfl | rfl,_⟩ := printfListed member <;> decide

theorem printfComm : ∀ c ∈ printfTracer.comm, plain c := by simp [printfTracer,plain]

theorem printfProper : Proper printfTracer '\n' printfRecords ∧
    Proper printfTracer '\r' printfRecords := by
  refine ⟨⟨by decide,fun r at_ member => ?_⟩,⟨by decide,fun r at_ member => ?_⟩⟩ <;>
    obtain ⟨rfl | rfl,_⟩ := printfListed member <;> decide

theorem printfByLines : logWritten printfTracer .zero printfRecords =
    some (linesText (logLines printfTracer .zero printfRecords)) ∧
    ∀ l ∈ logLines printfTracer .zero printfRecords, '\n' ∉ l.text ∧
      parseTraceLine ascii l.text = .ok l.time :=
  logByLines ascii printfTracer .zero printfRecords printfSettles printfStamps printfComm
    printfProper.1

end ZeroTrace.LogLines
