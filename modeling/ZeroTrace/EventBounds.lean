import ZeroTrace.EventTexts

/-! The text of a whole line, and that it is what comes into the caller's buffer if it has room
for it, and nothing else. -/
namespace ZeroTrace.EventBounds
open Attempts BoundedText Cells EventFormat EventTexts Signatures VariadicArgs
open FormatGrammar (Found conversions)
open FormatWalk (Args At strchr cutOff skipFormatLength)
open BufferPreviews
  (SigType Event eventArgValue eventFpArgValue sigTypeIsFp bufferPreviewLen bufferPreviewLenReturn)
open RemoteStrings (MemoryMap readRemoteCstr snprintf)
open TextRow (Row textAt)
open TraceBuffer (EventType)

section
variable (mem : MemoryMap) (stack : Nat → Char) (sig : FuncSig) (event : Event)

def previewPart (before : List Char) (addr : UInt64) (len : Nat) : List Char :=
  if len > 0 then match previewText mem addr len with
    | some preview => before ++ preview
    | none => []
  else []

def paramsText : Nat → Nat → Nat → List SigParam → List Char
  | _,_,_,[] => []
  | i,gpIndex,fpIndex,p::ps =>
    let fp := sigTypeIsFp p.type
    let rawValue := if fp then eventFpArgValue event fpIndex else eventArgValue event gpIndex
    (if i > 0 then separator else []) ++ (valueText mem stack p.type rawValue ++
      ((if p.type = .constBuf then
        previewPart mem ['='] rawValue (bufferPreviewLen sig.types event i).1 else []) ++
        paramsText (i + 1) (if fp then gpIndex else gpIndex + 1)
          (if fp then fpIndex + 1 else fpIndex) ps))

def argText (args : Args) (conv : Char) : List Char :=
  if strchr fpConversions conv then
    separator ++ valueText mem stack .double (eventFpArgValue event args.fpIndex)
  else match eventArgValueExt event args.gpIndex with
    | none => unreadable
    | some value => separator ++ match conversionType conv with
      | some type => valueText mem stack type value
      | none => unknownArg

def runText : List Found → Args → List Char
  | [],_ => []
  | f::fs,args =>
    let args : Args := ⟨args.gpIndex + f.stars,args.fpIndex⟩
    if f.conv = 'm' then runText fs args else argText mem stack event args f.conv ++
      runText fs (nextArgs args f.conv)

def formatText : Option (List Char) := (findFormatParamIndex sig).bind fun i =>
    (eventArgValueExt event i).bind fun addr => remoteText mem addr (fmtSize - 1)

def variadicText : List Char := match formatText mem sig event with
  | some format => runText mem stack event (conversions format) ⟨(countFixedParamRegs sig).1,
      (countFixedParamRegs sig).2⟩
  | none => dots

variable (symbol : List Char)

def entryText : List Char :=
  symbol ++ ['('] ++ paramsText mem stack sig event 0 0 0 sig.params ++
    (if sig.variadic then variadicText mem stack sig event else []) ++ [')','\n']

def returnPart (entry : Option Event) : List Char :=
  match sig.params.findIdx? fun p => p.type == .buf,entry with
  | some i,some args =>
      previewPart mem [' '] (eventArgValue args i) (bufferPreviewLenReturn sig.types args event i).1
  | _,_ => []

def returnText (entry : Option Event) : List Char :=
  symbol ++ [' ','-','>',' '] ++ valueText mem stack sig.ret.type
    (if sigTypeIsFp sig.ret.type then event.fp0 else event.value0) ++
    returnPart mem sig event entry ++ ['\n']

end

def lineText (mem : MemoryMap) (stack : Nat → Char) (table : List FuncSig) (probe : Row)
    (entry : Option Event) (type : Nat) (event : Event) : Option (List Char) :=
  (sigconfFind table (textAt probe 0)).bind fun sig =>
    if type = EventType.entry.code then some (entryText mem stack sig event (textAt probe 0))
    else if type = EventType.ret.code then
      some (returnText mem stack sig event (textAt probe 0) entry)
    else none

/-! Every part puts its text behind what is there. -/
section
variable {mem : MemoryMap} {stack : Nat → Char} {sig : FuncSig} {event : Event} {size : Nat}
    {start : Nat → Char}

theorem appendsRaw (text : List Char) : Appends '\x00' size start text fun out =>
    appendRaw size out text := appendsText text

theorem appendsValue (type : SigType) (value : UInt64) :
    Appends '\x00' size start (valueText mem stack type value) fun out =>
      (printer mem stack size).appendValue out type value := by
  have same : (fun out => (printer mem stack size).appendValue out type value) = fun out =>
      appendRaw size out (valueText mem stack type value) := by
    funext out
    exact if_neg (Nat.not_le.mpr (valueFits mem stack type value))
  rw [same]
  exact appendsText _

theorem appendsPreview (before : List Char) (addr : UInt64) (len : Nat) :
    Appends '\x00' size start (previewPart mem before addr len)
      (appendPreview mem stack (printer mem stack size) before addr len) := by
  unfold appendPreview previewPart
  by_cases asked : len > 0
  · simp only [if_pos asked]
    cases found : previewText mem addr len with
    | some preview =>
      obtain ⟨solid,fits⟩ := previewFits found
      simp only [@previewSome _ _ _ stack _ found,if_true,textInStore solid fits]
      exact appendsThen (appendsRaw before) (appendsRaw preview)
    | none =>
      simp only [@previewNone _ _ _ stack found]
      exact appendsNone
  · simp only [if_neg asked]
    exact appendsNone

theorem appendsParams (ps : List SigParam) (i gpIndex fpIndex : Nat) :
    Appends '\x00' size start (paramsText mem stack sig event i gpIndex fpIndex ps)
      (entryParams mem stack (printer mem stack size) sig event i gpIndex fpIndex ps) := by
  induction ps generalizing i gpIndex fpIndex with
  | nil => exact appendsNone
  | cons p ps ih =>
    have comma : Appends '\x00' size start (if i > 0 then separator else [])
        fun out => if i > 0 then (printer mem stack size).appendRaw out separator
          else (out,true) := by
      split
      · exact appendsRaw separator
      · exact appendsNone
    have preview : ∀ addr,
        Appends '\x00' size start (if p.type = .constBuf then
        previewPart mem ['='] addr (bufferPreviewLen sig.types event i).1 else [])
        fun out => if p.type = .constBuf then appendPreview mem stack (printer mem stack size) ['=']
          addr (bufferPreviewLen sig.types event i).1 out else (out,true) := by
      intro addr
      split
      · exact appendsPreview _ _ _
      · exact appendsNone
    exact appendsThen comma
      (appendsThen (appendsValue p.type _) (appendsThen (preview _) (ih (i + 1) _ _)))

theorem appendsArg (args : Args) (conv : Char) :
    Appends '\x00' size start (argText mem stack event args conv) fun out =>
      (appendVariadicArg (printer mem stack size) event out args conv).1 := by
  unfold appendVariadicArg argText
  cases fp : strchr fpConversions conv with
  | true => exact appendsThen (appendsRaw separator) (appendsValue _ _)
  | false =>
    cases value : eventArgValueExt event args.gpIndex with
    | none => exact appendsRaw unreadable
    | some value_ =>
      cases type : conversionType conv with
      | none => exact appendsThen (appendsRaw separator) (appendsRaw unknownArg)
      | some type_ => exact appendsThen (appendsRaw separator) (appendsValue _ _)

theorem argNext {σ : Type} (o : Printer σ) (out : σ) (args : Args) (conv : Char) :
    (appendVariadicArg o event out args conv).2 = nextArgs args conv := by
  unfold appendVariadicArg nextArgs eventArgValueExt
  cases strchr fpConversions conv with
  | true => rfl
  | false =>
    by_cases low : args.gpIndex < BufferPreviews.gpArgCount
    · simp only [if_pos low]
      rfl
    · simp only [if_neg low]
      rfl

theorem appendsRun (fs : List Found) (args : Args) :
    Appends '\x00' size start (runText mem stack event fs args) fun out =>
      runFound (printer mem stack size) event fs out args := by
  induction fs generalizing args with
  | nil => exact appendsNone
  | cons f fs ih =>
    unfold runText
    by_cases errno : f.conv = 'm'
    · simp only [runFound,if_pos errno]
      exact ih _
    · simp only [runFound,if_neg errno,argNext]
      exact appendsThen (appendsArg _ f.conv) (ih _)

/- Formats whose text, as far as it is read, does not end inside a conversion. -/
def Whole (mem : MemoryMap) (sig : FuncSig) (event : Event) : Prop :=
  ∀ format, formatText mem sig event = some format → cutOff format = false

theorem variadicNone (missing : formatText mem sig event = none) {σ : Type} (o : Printer σ)
    (k : Nat) (out : σ) :
    appendVariadicArgs o event mem sig stack k out = some (o.appendRaw out dots) := by
  unfold appendVariadicArgs
  unfold formatText at missing
  cases index : findFormatParamIndex sig with
  | none => rfl
  | some i =>
    cases value : eventArgValueExt event i with
    | none => simp only [value]
    | some addr =>
      rw [index,Option.bind_some,value,Option.bind_some] at missing
      simp only [value,@cstrNone stack _ _ _ (by decide) missing]
      rfl

theorem variadicSome {format : List Char} (found : formatText mem sig event = some format)
    {σ : Type} (o : Printer σ) (k : Nat) (out : σ) :
    appendVariadicArgs o event mem sig stack k out =
      formatArgs o event (store stack 0 (format ++ ['\x00'])) k 0 out ⟨(countFixedParamRegs sig).1,
        (countFixedParamRegs sig).2⟩ := by
  unfold appendVariadicArgs
  obtain ⟨i,index,found⟩ := Option.bind_eq_some_iff.mp found
  obtain ⟨addr,value,found⟩ := Option.bind_eq_some_iff.mp found
  simp only [index,value,@cstrSome stack _ _ _ _ (by decide) found,if_true]

theorem formatFits {format : List Char} (found : formatText mem sig event = some format) :
    '\x00' ∉ format ∧ format.length < fmtSize := by
  obtain ⟨i,_,found⟩ := Option.bind_eq_some_iff.mp found
  obtain ⟨addr,_,found⟩ := Option.bind_eq_some_iff.mp found
  obtain ⟨solid,fits⟩ := remoteFits found
  exact ⟨solid,Nat.lt_of_le_of_lt fits (by decide)⟩

theorem appendsVariadic (whole : Whole mem sig event) {k : Nat} (enough : fmtSize ≤ k) :
    ∃ f, Appends '\x00' size start (variadicText mem stack sig event) f ∧
    ∀ out, appendVariadicArgs (printer mem stack size) event mem sig stack k out =
      some (f out) := by
  unfold variadicText
  cases found : formatText mem sig event with
  | none => exact ⟨_,appendsRaw dots,fun out => variadicNone found _ k out⟩
  | some format =>
    obtain ⟨solid,fits⟩ := formatFits found
    have at_ : At (store stack 0 (format ++ ['\x00'])) format.length 0 format :=
      ⟨holdsStore fun c member nul => solid (nul ▸ member),Nat.zero_add _⟩
    refine ⟨_,appendsRun _ _,fun out => ?_⟩
    rw [variadicSome found,formatRuns k at_ (whole format found) (by omega)]

/-! Whatever the format is, and however long the walk is. -/
section
variable {c : Char} (unprinted : NumberTexts.Unprinted c)
include unprinted

theorem partSolid {before : List Char} (solid : c ∉ before) (addr : UInt64) (len : Nat) :
    c ∉ previewPart mem before addr len := by
  unfold previewPart
  split
  · cases found : previewText mem addr len with
    | none => simp
    | some preview => exact List.not_mem_append solid (previewTextSolid unprinted found)
  · simp

theorem paramsSolid (ps : List SigParam) (i gpIndex fpIndex : Nat) :
    c ∉ paramsText mem stack sig event i gpIndex fpIndex ps := by
  induction ps generalizing i gpIndex fpIndex with
  | nil => simp [paramsText]
  | cons p ps ih =>
    refine List.not_mem_append ?_
      (List.not_mem_append (valueSolid mem stack _ _ unprinted) (List.not_mem_append ?_ (ih _ _ _)))
    · split
      · exact NumberTexts.unprintedOut unprinted (by decide)
      · exact List.not_mem_nil
    · split
      · exact partSolid unprinted (NumberTexts.unprintedOut unprinted (by decide)) _ _
      · exact List.not_mem_nil

theorem argSolid (args : Args) (conv : Char) : c ∉ argText mem stack event args conv := by
  have behind : ∀ {s}, c ∉ s → c ∉ separator ++ s :=
    fun solid => List.not_mem_append (NumberTexts.unprintedOut unprinted (by decide)) solid
  unfold argText
  split
  · exact behind (valueSolid mem stack _ _ unprinted)
  · split
    · exact NumberTexts.unprintedOut unprinted (by decide)
    · refine behind ?_
      split
      · exact valueSolid mem stack _ _ unprinted
      · exact NumberTexts.unprintedOut unprinted (by decide)

theorem runSolid (fs : List Found) (args : Args) : c ∉ runText mem stack event fs args := by
  induction fs generalizing args with
  | nil => exact List.not_mem_nil
  | cons f fs ih =>
    unfold runText
    dsimp only
    split
    · exact ih _
    · exact List.not_mem_append (argSolid unprinted _ _) (ih _)

theorem returnPartSolid (entry : Option Event) : c ∉ returnPart mem sig event entry := by
  unfold returnPart
  split
  · exact partSolid unprinted (NumberTexts.unprintedOut unprinted (by decide)) _ _
  · simp

end

theorem argKeeps (args : Args) (conv : Char) : Keeps '\x00' size start fun out =>
    (appendVariadicArg (printer mem stack size) event out args conv).1 :=
  appendsKeeps (appendsArg args conv) (argSolid (by decide) args conv)

theorem argsSound {fmt : Nat → Char} {r : Attempt (Out Char)} (k p : Nat) {text : List Char}
    {out : Out Char} {args : Args} (solid : '\x00' ∉ text)
    (filled : Filled '\x00' size start text out)
    (ran : formatArgs (printer mem stack size) event fmt k p out args = some r) :
    Sound '\x00' size start r := by
  have still : ∀ {text out}, '\x00' ∉ text → Filled '\x00' size start text out →
      Sound '\x00' size start (out,true) := fun solid filled =>
    ⟨⟨_,solid,filled.toHeld⟩,fun _ => ⟨_,solid,filled⟩⟩
  induction k generalizing p text out args with
  | zero => cases ran
  | succ k ih =>
    unfold formatArgs at ran
    split at ran
    · rw [← Option.some.inj ran]
      exact still solid filled
    · split at ran
      · exact ih _ solid filled ran
      · split at ran
        · exact ih _ solid filled ran
        · split at ran
          · cases ran
          · next skipped _ =>
            unfold convertArg at ran
            split at ran
            · rw [← Option.some.inj ran]
              exact still solid filled
            · split at ran
              · exact ih _ solid filled ran
              · have printed := @argKeeps mem stack event size start ⟨skipped.1.2,args.fpIndex⟩
                  (fmt (skipFormatLength fmt skipped.1.1).1) text out solid filled
                simp only at ran
                split at ran
                · next well =>
                  obtain ⟨text',solid',filled'⟩ := printed.filled well
                  exact ih _ solid' filled' ran
                · rw [← Option.some.inj ran]
                  exact printed

theorem variadicSound {r : Attempt (Out Char)} {k : Nat} {text : List Char} {out : Out Char}
    (solid : '\x00' ∉ text) (filled : Filled '\x00' size start text out)
    (ran : appendVariadicArgs (printer mem stack size) event mem sig stack k out = some r) :
    Sound '\x00' size start r := by
  cases found : formatText mem sig event with
  | none =>
    rw [variadicNone found] at ran
    rw [← Option.some.inj ran]
    exact appendsKeeps (appendsRaw dots) (by decide) text out solid filled
  | some format =>
    rw [variadicSome found] at ran
    exact argsSound k 0 solid filled ran

variable {symbol : List Char} {entry : Option Event} {k : Nat}

theorem wroteBegun (room : 0 < size) (text : List Char) :
    Wrote '\x00' size start text (begun start size text) := by
  have cut : (text.take (size - 1)).length < size := by rw [List.length_take]; omega
  unfold begun
  by_cases full : text.length ≥ size
  · rw [if_pos full]
    exact ⟨iff_of_false (by simp) (by omega),fun well => absurd well (by simp),text.take (size - 1),
      List.take_prefix _ _,cut,rfl⟩
  · have whole : text.take (size - 1) = text := List.take_of_length_le (by omega)
    have filled : Filled '\x00' size start text ⟨snprintf start size text,text.length⟩ :=
      ⟨⟨by omega,by rw [snprintf,whole]⟩,rfl⟩
    rw [if_neg full]
    exact ⟨iff_of_true rfl (by omega),fun _ => filled,text,List.prefix_rfl,filled.toHeld⟩

theorem entryWrote (room : 0 < size) (whole : Whole mem sig event) (enough : fmtSize ≤ k) :
    ∃ r, formatEntry mem stack sig symbol event start size k = some r ∧
      Wrote '\x00' size start (entryText mem stack sig event symbol) r := by
  obtain ⟨f,appends,runs⟩ := @appendsVariadic mem stack sig event size start whole k enough
  have front := wroteThen (wroteBegun room (symbol ++ ['(']))
      (@appendsParams mem stack sig event size start sig.params 0 0 0)
  unfold formatEntry entryText
  simp only [runs]
  generalize andThen (begun start size (symbol ++ ['(']))
    (entryParams mem stack (printer mem stack size) sig event 0 0 0 sig.params) = line at front
  cases sig.variadic with
  | true =>
    have same : (if line.2 = true ∧ true = true then some (f line.1) else some line) =
        some (andThen line f) := by
      unfold andThen
      split
      · next both => rw [if_pos both.1]
      · next some_ => rw [if_neg fun well => some_ ⟨well,rfl⟩]
    rw [same]
    exact ⟨_,rfl,wroteThen (wroteThen front appends) (appendsRaw _)⟩
  | false =>
    have same : (if line.2 = true ∧ false = true then some (f line.1) else some line) = some line :=
      if_neg (by simp)
    rw [same]
    refine ⟨_,rfl,wroteThen ?_ (appendsRaw _)⟩
    rw [if_neg (by simp),List.append_nil]
    exact front

theorem appendsReturn :
    Appends '\x00' size start (returnPart mem sig event entry)
    (returnPreview mem stack (printer mem stack size) sig entry event) := by
  unfold returnPreview returnPart
  cases entry with
  | none => cases sig.params.findIdx? fun p => p.type == .buf <;> exact appendsNone
  | some args =>
    cases sig.params.findIdx? fun p => p.type == .buf with
    | none => exact appendsNone
    | some i => exact appendsPreview _ _ _

theorem returnWrote (room : 0 < size) :
    Wrote '\x00' size start (returnText mem stack sig event symbol entry)
    (formatReturn mem stack sig symbol entry event start size) :=
  wroteThen (wroteThen (wroteThen (wroteBegun room _) (appendsValue _ _)) appendsReturn)
    (appendsRaw _)

theorem lastLine {line : Attempt (Out Char)} (sound : Sound '\x00' size start line)
    (tail : List Char) (solid : '\x00' ∉ tail) :
    Sound '\x00' size start (andThen line fun out => appendRaw size out (tail ++ ['\n'])) ∧
    ((andThen line fun out => appendRaw size out (tail ++ ['\n'])).2 = true →
      ∃ text, '\x00' ∉ text ∧
      Filled '\x00' size start (text ++ ['\n'])
        (andThen line fun out => appendRaw size out (tail ++ ['\n'])).1) := by
  have solid' : '\x00' ∉ tail ++ ['\n'] := List.not_mem_append solid (by decide)
  refine ⟨soundThen sound (appendsKeeps (appendsRaw _) solid'),fun well => ?_⟩
  cases done : line.2 with
  | false =>
    rw [andThenFailed done,done] at well
    cases well
  | true =>
    obtain ⟨text,plain,filled⟩ := sound.filled done
    rw [andThenWell done] at well ⊢
    have wrote := (appendsRaw (tail ++ ['\n']) text line.1 filled).whole well
    rw [← List.append_assoc] at wrote
    exact ⟨text ++ tail,List.not_mem_append plain solid,wrote⟩

theorem begunSound (room : 0 < size) {text : List Char} (solid : '\x00' ∉ text) {tail : List Char}
    (solid' : '\x00' ∉ tail) :
    Sound '\x00' size start (begun start size (text ++ tail)) :=
  wroteSound (wroteBegun room _) (List.not_mem_append solid solid')

theorem entrySound (room : 0 < size) (solid : '\x00' ∉ symbol) {r : Attempt (Out Char)}
    (ran : formatEntry mem stack sig symbol event start size k = some r) :
    Sound '\x00' size start r ∧
      (r.2 = true → ∃ text, '\x00' ∉ text ∧ Filled '\x00' size start (text ++ ['\n']) r.1) := by
  have front := soundThen (@begunSound size start room symbol solid ['('] (by decide))
    (appendsKeeps (@appendsParams mem stack sig event size start sig.params 0 0 0)
      (paramsSolid (by decide) _ _ _ _))
  obtain ⟨line,middle,rfl⟩ := Option.map_eq_some_iff.mp ran
  refine lastLine ?_ [')'] (by decide)
  split at middle
  · next both =>
    obtain ⟨text,plain,filled⟩ := front.filled both.1
    exact variadicSound plain filled middle
  · rw [← Option.some.inj middle]
    exact front

theorem returnSound (room : 0 < size) (solid : '\x00' ∉ symbol) :
    Sound '\x00' size start (formatReturn mem stack sig symbol entry event start size) ∧
    ((formatReturn mem stack sig symbol entry event start size).2 = true → ∃ text, '\x00' ∉ text ∧
      Filled '\x00' size start (text ++ ['\n'])
        (formatReturn mem stack sig symbol entry event start size).1) := by
  have front := fun value =>
      soundThen (@begunSound size start room symbol solid [' ','-','>',' '] (by decide))
    (appendsKeeps (@appendsValue mem stack size start sig.ret.type value)
      (valueSolid mem stack sig.ret.type value (by decide)))
  exact lastLine (soundThen (front _) (appendsKeeps appendsReturn (returnPartSolid (by decide) _)))
    [] (by simp)

structure Ended (size : Nat) (out : Out Char) : Prop where
  within : out.offset < size
  nul : out.cells out.offset = '\x00'
  solid : ∀ i, i < out.offset → out.cells i ≠ '\x00'
  some_ : 0 < out.offset
  newline : out.cells (out.offset - 1) = '\n'

theorem endedFilled {text : List Char} {out : Out Char} (solid : '\x00' ∉ text)
    (filled : Filled '\x00' size start (text ++ ['\n']) out) : Ended size out := by
  have length : (text ++ ['\n']).length = text.length + 1 := by rw [List.length_append]; rfl
  have offset := filled.offset
  have fits := filled.fits
  refine ⟨by omega,filledMark filled,fun i low nul => ?_,by omega,?_⟩
  · have low' : i < (text ++ ['\n']).length := by omega
    rw [filledAt filled low'] at nul
    exact List.not_mem_append solid (by decide) (nul ▸ List.getElem_mem low')
  · have low : out.offset - 1 < (text ++ ['\n']).length := by omega
    rw [filledAt filled low,List.getElem_append_right (by omega)]
    simp

end

section
variable (mem : MemoryMap) (stack : Nat → Char) (table : List FuncSig) (probe : Row)
    (entry : Option Event) (type : Nat) (event : Event) (out : Nat → Char) (size : Nat)

theorem probeSolid : '\x00' ∉ textAt probe 0 := fun inside => by
  have other := List.mem_takeWhile_imp inside
  simp at other

/- Whatever the memory and the format are, and however long the walk over it is. -/
theorem formatSound {k : Nat} {r : Attempt (Out Char)}
    (ran : formatTraceEventWithSig mem stack table probe entry type event out size k = some r) :
    (∀ i, size ≤ i → r.1.cells i = out i) ∧ (r.2 = true → Ended size r.1) := by
  have refused : ∀ {r}, some ((⟨out,0⟩,false) : Attempt (Out Char)) = some r →
      (∀ i, size ≤ i → r.1.cells i = out i) ∧ (r.2 = true → Ended size r.1) := by
    intro r same
    rw [← Option.some.inj same]
    exact ⟨fun _ _ => rfl,fun well => by cases well⟩
  have shown : ∀ {r}, Sound '\x00' size out r ∧
      (r.2 = true → ∃ text, '\x00' ∉ text ∧ Filled '\x00' size out (text ++ ['\n']) r.1) →
      (∀ i, size ≤ i → r.1.cells i = out i) ∧ (r.2 = true → Ended size r.1) := by
    intro r ⟨sound,ends⟩
    obtain ⟨text,_,held⟩ := sound.held
    refine ⟨fun i outside => heldOutside held outside,fun well => ?_⟩
    obtain ⟨line,solid,filled⟩ := ends well
    exact endedFilled solid filled
  unfold formatTraceEventWithSig at ran
  simp only at ran
  split at ran
  · exact refused ran
  · next some_ =>
    have room : 0 < size := Nat.pos_of_ne_zero some_
    split at ran
    · exact refused ran
    · split at ran
      · exact shown (entrySound room (probeSolid probe) ran)
      · split at ran
        · rw [← Option.some.inj ran]
          exact shown (returnSound room (probeSolid probe))
        · exact refused ran

def WholeFormats (mem : MemoryMap) (table : List FuncSig) (probe : Row) (event : Event) : Prop :=
  ∀ sig, sigconfFind table (textAt probe 0) = some sig → Whole mem sig event

/- Why there is no line: the symbol, the kind of the event, or the room for the text. -/
def Refused : Prop :=
  sigconfFind table (textAt probe 0) = none ∨
    (type ≠ EventType.entry.code ∧ type ≠ EventType.ret.code) ∨
    ∃ text, lineText mem stack table probe entry type event = some text ∧ size ≤ text.length

variable {mem stack table probe entry type event size out}

theorem refusedNone (none_ : lineText mem stack table probe entry type event = none) :
    Refused mem stack table probe entry type event size := by
  unfold lineText at none_
  cases known : sigconfFind table (textAt probe 0) with
  | none => exact .inl known
  | some sig =>
    rw [known,Option.bind_some] at none_
    split at none_
    · cases none_
    · next entry_ =>
      split at none_
      · cases none_
      · next ret => exact .inr (.inl ⟨entry_,ret⟩)

theorem refusedSome {text : List Char}
    (line : lineText mem stack table probe entry type event = some text) :
    Refused mem stack table probe entry type event size ↔ size ≤ text.length := by
  constructor
  · unfold lineText at line
    rintro (unknown | ⟨entry_,ret⟩ | ⟨text',line',full⟩)
    · rw [unknown] at line
      cases line
    · obtain ⟨sig,_,line⟩ := Option.bind_eq_some_iff.mp line
      rw [if_neg entry_,if_neg ret] at line
      cases line
    · rwa [← Option.some.inj (line'.symm.trans line)]
  · exact fun full => .inr (.inr ⟨text,line,full⟩)

structure Settled (mem : MemoryMap) (stack : Nat → Char) (table : List FuncSig) (probe : Row)
    (entry : Option Event) (type : Nat) (event : Event)
    (out : Nat → Char) (size : Nat) (r : Attempt (Out Char)) : Prop where
  shown : r.2 = true → ∃ text, lineText mem stack table probe entry type event = some text ∧
    Filled '\x00' size out text r.1
  failed : r.2 = false ↔ Refused mem stack table probe entry type event size

theorem settledWrote {text : List Char} {r : Attempt (Out Char)}
    (line : lineText mem stack table probe entry type event = some text)
    (wrote : Wrote '\x00' size out text r) :
    Settled mem stack table probe entry type event out size r := by
  refine ⟨fun well => ⟨text,line,wrote.whole well⟩,?_⟩
  rw [refusedSome line,← Nat.not_lt,← wrote.well,Bool.not_eq_true]

theorem settledRefused (because : Refused mem stack table probe entry type event size) :
    Settled mem stack table probe entry type event out size (⟨out,0⟩,false) :=
  ⟨fun well => absurd well (by simp),iff_of_true rfl because⟩

theorem formatSettled (whole : WholeFormats mem table probe event) {k : Nat}
    (enough : fmtSize ≤ k) :
    ∃ r, formatTraceEventWithSig mem stack table probe entry type event out size k = some r ∧
      Settled mem stack table probe entry type event out size r := by
  unfold formatTraceEventWithSig
  simp only
  by_cases none_ : size = 0
  · rw [if_pos none_]
    refine ⟨_,rfl,settledRefused ?_⟩
    cases line : lineText mem stack table probe entry type event with
    | none => exact refusedNone line
    | some text => exact (refusedSome line).mpr (by omega)
  · have room : 0 < size := Nat.pos_of_ne_zero none_
    rw [if_neg none_]
    cases known : sigconfFind table (textAt probe 0) with
    | none => exact ⟨_,rfl,settledRefused (.inl known)⟩
    | some sig =>
      simp only
      by_cases isEntry : type = EventType.entry.code
      · have line : lineText mem stack table probe entry type event =
          some (entryText mem stack sig event (textAt probe 0)) := by
          rw [lineText,known,Option.bind_some,if_pos isEntry]
        obtain ⟨r,ran,wrote⟩ :=
          @entryWrote mem stack sig event size out (textAt probe 0) k room (whole sig known) enough
        rw [if_pos isEntry,ran]
        exact ⟨r,rfl,settledWrote line wrote⟩
      · rw [if_neg isEntry]
        by_cases isReturn : type = EventType.ret.code
        · have line : lineText mem stack table probe entry type event =
            some (returnText mem stack sig event (textAt probe 0) entry) := by
            rw [lineText,known,Option.bind_some,if_neg isEntry,if_pos isReturn]
          rw [if_pos isReturn]
          exact ⟨_,rfl,settledWrote line (returnWrote room)⟩
        · rw [if_neg isReturn]
          exact ⟨_,rfl,settledRefused (.inr (.inl ⟨isEntry,isReturn⟩))⟩

end

/-- Nothing is written behind the buffer. Where 0 is returned, it holds the whole line, of the
tracked length and with its newline; where not, there is no such line or no room for it, and no
value or preview is too long for its own buffer. -/
theorem formatWithinRoom (mem : MemoryMap) (stack : Nat → Char) (table : List FuncSig) (probe : Row)
    (entry : Option Event) (type : Nat) (event : Event)
    (out : Nat → Char) (size : Nat) :
    (∀ k r, formatTraceEventWithSig mem stack table probe entry type event out size k = some r →
      (∀ i, size ≤ i → r.1.cells i = out i) ∧ (r.2 = true → Ended size r.1)) ∧
    (WholeFormats mem table probe event → ∀ k, fmtSize ≤ k →
      ∃ r, formatTraceEventWithSig mem stack table probe entry type event out size k = some r ∧
        Settled mem stack table probe entry type event out size r) ∧
    (∀ type value, (valueText mem stack type value).length < valueSize) ∧
    ∀ addr len, (∀ i, previewSize ≤ i → (readRemoteBufPreview mem addr len stack previewSize).1 i =
      stack i) ∧
      ((readRemoteBufPreview mem addr len stack previewSize).2 = false ↔ addr ≠ 0 ∧
        readRemoteBytesWithFallback mem addr (BufferPreviews.capPreviewLen len) = none) := by
  exact ⟨fun k r ran => formatSound mem stack table probe entry type event out size ran,
    fun whole k enough => formatSettled whole enough,
    valueFits mem stack,previewWithin mem stack⟩

/- A call of printf with one number, which has its format at an address of its own. -/
def numberFormat : MemoryMap := fun a =>
  if a = 0x1000 then some 0x6e else if a = 0x1001 then some 0x3d else if a = 0x1002 then
    some 0x25 else if a = 0x1003 then some 0x64
  else if a = 0x1004 then some 0 else none

def printfSig : FuncSig :=
  ⟨"printf".toList,⟨"int".toList,[],.int⟩,[⟨"const char *".toList,"fmt".toList,.cstr⟩],
    by decide,true⟩

def printfCall : Event := ⟨fun i => if i.val = 0 then 0x1000 else 7,fun _ => 0⟩

theorem printfWithinRoom :
    ∃ r, formatTraceEventWithSig numberFormat (fun _ => 'x') [printfSig] "printf\x00".toList none 0
    printfCall (fun _ => 'x') 32 192 = some r ∧
    Settled numberFormat (fun _ => 'x') [printfSig] "printf\x00".toList none 0 printfCall
      (fun _ => 'x') 32 r := by
  refine (formatWithinRoom numberFormat (fun _ => 'x') [printfSig] "printf\x00".toList none 0
    printfCall (fun _ => 'x') 32).2.1 ?_ 192 (Nat.le_refl _)
  intro sig known format read
  have found : sigconfFind [printfSig] (textAt "printf\x00".toList 0) = some printfSig := by decide
  have here : formatText numberFormat printfSig printfCall = some "n=%d".toList := by decide
  rw [Option.some.inj (known.symm.trans found),here] at read
  rw [← Option.some.inj read]
  decide

end ZeroTrace.EventBounds
