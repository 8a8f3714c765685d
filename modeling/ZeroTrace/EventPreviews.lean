import ZeroTrace.EventBounds

/-! The lines whose previews are looked at on their own are those of the formatter: what is put
out is the same, and so is where it fails. -/
namespace ZeroTrace.EventPreviews
open Attempts BoundedText EventFormat EventBounds Signatures VariadicArgs
open BufferPreviews
  (SigType Event Output eventArgValue eventFpArgValue sigTypeIsFp bufferPreviewLen
  bufferPreviewLenReturn)
open RemoteStrings (MemoryMap snprintf)

section
variable {σ : Type}

def given (r : Attempt σ) : Option σ := if r.2 then some r.1 else none

@[simp] theorem givenWell (out : σ) : given (out,true) = some out := rfl

@[simp] theorem givenThen (r : Attempt σ) (f : σ → Attempt σ) :
    given (andThen r f) = (given r).bind fun out => given (f out) := by
  cases well : r.2 with
  | true => rw [andThenWell well,given,given,well,if_pos rfl,Option.bind_some]; rfl
  | false => rw [andThenFailed well,given,well,if_neg (by simp),Option.bind_none]

variable (o : Printer σ) (mem : MemoryMap) (stack : Nat → Char) (sig : FuncSig) (k : Nat)

def outputOf : Output σ where
  appendRaw out text := given (o.appendRaw out text)
  appendValue out type value := given (o.appendValue out type value)
  appendVariadicArgs out _ event := (appendVariadicArgs o event mem sig stack k out).bind given
  readBufPreview addr len :=
    let preview := readRemoteBufPreview mem addr len stack previewSize
    if preview.2 then some (textIn previewSize preview.1) else none

theorem previewGiven (before : List Char) (addr : UInt64) (len : Nat) (out : σ) :
    BufferPreviews.appendPreview (outputOf o mem stack sig k) out before addr len =
      given (appendPreview mem stack o before addr len out) := by
  unfold BufferPreviews.appendPreview appendPreview outputOf
  by_cases asked : len > 0
  · simp only [if_pos asked]
    cases (readRemoteBufPreview mem addr len stack previewSize).2 with
    | true => exact (givenThen _ _).symm
    | false => rfl
  · simp only [if_neg asked,givenWell]

theorem previewsStep (output : Output σ) (types : BufferPreviews.FuncSig) (event : Event)
    (i gpIndex fpIndex : Nat) (out : σ) (t : SigType) (ts : List SigType) :
    (BufferPreviews.entryParams output types event i gpIndex fpIndex out (t::ts)).2 =
      (if i > 0 then output.appendRaw out separator else some out).bind fun out =>
        (output.appendValue out t (if sigTypeIsFp t then
          eventFpArgValue event fpIndex else eventArgValue event gpIndex)).bind fun out =>
          (if t = .constBuf then BufferPreviews.appendPreview output out ['=']
              (if sigTypeIsFp t then eventFpArgValue event fpIndex else eventArgValue event gpIndex)
                (bufferPreviewLen types event i).1 else some out).bind fun out =>
            (BufferPreviews.entryParams output types event (i + 1)
              (if sigTypeIsFp t then gpIndex else gpIndex + 1)
              (if sigTypeIsFp t then fpIndex + 1 else fpIndex) out ts).2 := by
  rw [BufferPreviews.entryParams]
  have comma : (if i > 0 then output.appendRaw out separator else some out) = if i > 0 then
      output.appendRaw out [',',' '] else some out := rfl
  rw [comma]
  cases (if i > 0 then output.appendRaw out [',',' '] else some out) with
  | none => rfl
  | some out =>
    simp only [Option.bind_some]
    cases output.appendValue out t
      (if sigTypeIsFp t then eventFpArgValue event fpIndex else eventArgValue event gpIndex) with
    | none => rfl
    | some out =>
      simp only [Option.bind_some]
      by_cases buffer : t = .constBuf
      · simp only [if_pos buffer]
        cases BufferPreviews.appendPreview output out ['=']
          (if sigTypeIsFp t then eventFpArgValue event fpIndex else eventArgValue event gpIndex)
            (bufferPreviewLen types event i).1 <;> rfl
      · simp only [if_neg buffer]
        rfl

theorem paramsGiven (event : Event) (ps : List SigParam) (i gpIndex fpIndex : Nat) (out : σ) :
    (BufferPreviews.entryParams (outputOf o mem stack sig k) sig.types event i gpIndex fpIndex out
      (ps.map SigParam.type)).2 =
      given (entryParams mem stack o sig event i gpIndex fpIndex ps out) := by
  induction ps generalizing i gpIndex fpIndex out with
  | nil => rfl
  | cons p ps ih =>
    have comma : ∀ out : σ,
        (if i > 0 then (outputOf o mem stack sig k).appendRaw out separator else some out) =
        given (if i > 0 then o.appendRaw out separator else (out,true)) := fun out => by
          split <;> rfl
    have preview : ∀ (out : σ) addr,
        (if p.type = .constBuf then BufferPreviews.appendPreview (outputOf o mem stack sig k) out
        ['='] addr (bufferPreviewLen sig.types event i).1
        else some out) = given
          (if p.type = .constBuf then
          appendPreview mem stack o ['='] addr (bufferPreviewLen sig.types event i).1 out
          else (out,true)) := by
      intro out addr
      split
      · exact previewGiven o mem stack sig k _ _ _ _
      · rfl
    rw [List.map_cons,previewsStep,entryParams,comma]
    simp only [givenThen,preview,ih]
    rfl

end

section
variable (mem : MemoryMap) (stack : Nat → Char) (sig : FuncSig) (event : Event) (out : Nat → Char)
    (size k : Nat)

theorem begunGiven (text : List Char) :
    (outputOf (printer mem stack size) mem stack sig k).appendRaw ⟨out,0⟩ text =
    given (begun out size text) := by
  have same : given (append '\x00' size ⟨out,0⟩ text) = given (begun out size text) := by
    unfold append begun
    simp only [Nat.zero_add]
    by_cases full : text.length ≥ size
    · rw [if_pos full,if_pos full]
      rfl
    · have whole : text.take (size - 1) = text := List.take_of_length_le (by omega)
      rw [if_neg full,if_neg full,snprintf,whole]
  exact same

theorem givenNone {σ : Type} {r : Attempt σ} (failed : r.2 = false) : given r = none :=
  if_neg (by rw [failed]; simp)

theorem endGiven (line : Attempt (Out Char)) :
    ((given line).bind fun out =>
      (if sig.variadic then
      (outputOf (printer mem stack size) mem stack sig k).appendVariadicArgs out sig.types event
      else some out).bind fun out =>
        (outputOf (printer mem stack size) mem stack sig k).appendRaw out [')','\n']) =
      ((if line.2 ∧ sig.variadic then
        appendVariadicArgs (printer mem stack size) event mem sig stack k line.1 else some line).map
        fun line =>
        andThen line fun out => (printer mem stack size).appendRaw out [')','\n']).bind given := by
  cases going : line.2 with
  | false =>
    have failed : given
        (andThen line fun out => (printer mem stack size).appendRaw out [')','\n']) = none := by
          rw [andThenFailed going,givenNone going]
    rw [givenNone going,if_neg (by simp)]
    exact failed.symm
  | true =>
    have some_ : given line = some line.1 := if_pos going
    rw [some_,Option.bind_some]
    cases sig.variadic with
    | false =>
      rw [if_neg (by simp),if_neg (by simp)]
      simp only [Option.map_some,Option.bind_some,givenThen,some_]
      rfl
    | true =>
      rw [if_pos rfl,if_pos ⟨rfl,rfl⟩]
      show ((appendVariadicArgs (printer mem stack size) event mem sig stack k line.1).bind
        given).bind _ = _
      cases appendVariadicArgs (printer mem stack size) event mem sig stack k line.1 with
      | none => rfl
      | some line => exact (givenThen line _).symm

/-- The line of a call. -/
theorem entryAsLookedAt :
    (BufferPreviews.formatEntry (outputOf (printer mem stack size) mem stack sig k) sig.types event
    ⟨out,0⟩).2 =
    (formatEntry mem stack sig sig.symbol event out size k).bind given := by
  have symbol : sig.types.symbol = sig.symbol := rfl
  have steps : (BufferPreviews.formatEntry (outputOf (printer mem stack size) mem stack sig k)
      sig.types event ⟨out,0⟩).2 =
      (given (begun out size (sig.symbol ++ ['(']))).bind fun out =>
        (given (entryParams mem stack (printer mem stack size) sig event 0 0 0 sig.params out)).bind
          fun out =>
          (if sig.variadic then
            (outputOf (printer mem stack size) mem stack sig k).appendVariadicArgs out sig.types
            event else some out).bind fun out =>
            (outputOf (printer mem stack size) mem stack sig k).appendRaw out [')','\n'] := by
    unfold BufferPreviews.formatEntry
    rw [symbol,begunGiven]
    simp only [← paramsGiven _ mem stack sig k]
    cases given (begun out size (sig.symbol ++ ['('])) with
    | none => rfl
    | some out =>
      have variadic : sig.types.variadic = sig.variadic := rfl
      simp only [Option.bind_some,variadic]
      cases sig.variadic <;> rfl
  rw [steps,← Option.bind_assoc,← givenThen,endGiven]
  rfl

/-- The line of a return whose call is known. -/
theorem returnAsLookedAt (entry : Event) :
    (BufferPreviews.formatReturn (outputOf (printer mem stack size) mem stack sig k) sig.types entry
    event ⟨out,0⟩).2 =
    given (formatReturn mem stack sig sig.symbol (some entry) event out size) := by
  have symbol : sig.types.symbol = sig.symbol := rfl
  have first : sig.types.params.findIdx? (· == .buf) = sig.params.findIdx? fun p =>
      p.type == .buf := by
    unfold FuncSig.types
    rw [List.findIdx?_map]
    rfl
  have ret : sig.types.ret = sig.ret.type := rfl
  unfold BufferPreviews.formatReturn formatReturn
  rw [symbol,begunGiven,first,ret]
  simp only [givenThen]
  have value : ∀ out, (outputOf (printer mem stack size) mem stack sig k).appendValue out
      sig.ret.type (if sigTypeIsFp sig.ret.type then event.fp0 else event.value0) =
      given ((printer mem stack size).appendValue out sig.ret.type
        (if sigTypeIsFp sig.ret.type then event.fp0 else event.value0)) := fun _ => rfl
  simp only [value]
  cases ((given (begun out size (sig.symbol ++ [' ','-','>',' ']))).bind fun out =>
      given ((printer mem stack size).appendValue out sig.ret.type
        (if sigTypeIsFp sig.ret.type then event.fp0 else event.value0))) with
  | none => rfl
  | some out =>
    unfold returnPreview
    cases sig.params.findIdx? fun p => p.type == .buf with
    | none => rfl
    | some i =>
      simp only [Option.bind_some,← previewGiven _ mem stack sig k]
      rfl

end

end ZeroTrace.EventPreviews
