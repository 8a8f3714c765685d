import Mathlib.Data.List.Basic

/-! The lines printed for a call and its return, with the registers their buffer previews are
taken from. -/
namespace ZeroTrace.BufferPreviews

inductive SigType where
  | unknown | int | long | ulong | size | ssize | ptr | cstr | buf | constBuf | float | double | void
  deriving DecidableEq, Repr

def maxParams : Nat := 6
def gpArgCount : Nat := 6
def fpArgCount : Nat := 8

structure FuncSig where
  symbol : List Char
  ret : SigType
  params : List SigType
  few : params.length ≤ maxParams
  variadic : Bool

/- The first captured register is also the value that a return event carries. -/
structure Event where
  args : Fin gpArgCount → UInt64
  fpArgs : Fin fpArgCount → UInt64

def Event.value0 (e : Event) : UInt64 := e.args ⟨0,by decide⟩
def Event.fp0 (e : Event) : UInt64 := e.fpArgs ⟨0,by decide⟩

def eventArgValue (e : Event) (index : Nat) : UInt64 :=
  if h : index < gpArgCount then e.args ⟨index,h⟩ else 0

def eventFpArgValue (e : Event) (index : Nat) : UInt64 :=
  if h : index < fpArgCount then e.fpArgs ⟨index,h⟩ else 0

def sigTypeIsNumeric : SigType → Bool
  | .int | .long | .ulong | .size | .ssize => true
  | _ => false

def sigParamIsNumeric (sig : FuncSig) (index : Nat) : Bool :=
  sig.params[index]?.any sigTypeIsNumeric

def sigTypeIsFp (t : SigType) : Bool := t == .float || t == .double

def capPreviewLen (len : Nat) : Nat := if len > 32 then 32 else len

/- A register that is taken for the size of a buffer, and the parameter it is taken for. -/
abbrev Size := Nat × UInt64

def sizeFor (args : Event) (param : Nat) : Size := (param,eventArgValue args param)

def bufferPreviewLen (sig : FuncSig) (args : Event) (paramIndex : Nat) : Nat × List Size :=
  if sigParamIsNumeric sig (paramIndex + 1) && sigParamIsNumeric sig (paramIndex + 2) then
    let next := sizeFor args (paramIndex + 1)
    let next2 := sizeFor args (paramIndex + 2)
    (capPreviewLen (next.2 * next2.2).toNat,[next,next2])
  else if sigParamIsNumeric sig (paramIndex + 1) then
    let next := sizeFor args (paramIndex + 1)
    (capPreviewLen next.2.toNat,[next])
  else (0,[])

/- The same for a return, with a value of the return event that is signed. -/
def bufferPreviewLenReturn (sig : FuncSig) (args ret : Event)
    (paramIndex : Nat) : Nat × List Size :=
  if ret.value0.toInt64 ≤ 0 then (0,[])
  else if sigParamIsNumeric sig (paramIndex + 1) && sigParamIsNumeric sig (paramIndex + 2) then
    let next := sizeFor args (paramIndex + 1)
    (capPreviewLen (ret.value0 * next.2).toNat,[next])
  else if sigParamIsNumeric sig (paramIndex + 1) then
    let next := sizeFor args (paramIndex + 1)
    (capPreviewLen (if ret.value0 < next.2 then ret.value0 else next.2).toNat,[next])
  else (capPreviewLen ret.value0.toNat,[])

/- Where the text goes, and the target's memory. Nothing is given back where the text has no
room, and no preview where the memory cannot be read. -/
structure Output (σ : Type) where
  appendRaw : σ → List Char → Option σ
  appendValue : σ → SigType → UInt64 → Option σ
  appendVariadicArgs : σ → FuncSig → Event → Option σ
  readBufPreview : UInt64 → Nat → Option (List Char)

/- What a line shows: the value of a parameter, or a preview of it, from this address if there
is one to show, with these sizes. -/
inductive Shown where
  | value (param : Nat) (raw : UInt64)
  | preview (param : Nat) (addr : Option UInt64) (sizes : List Size)

section
variable {σ : Type} (o : Output σ) (sig : FuncSig)

def appendPreview (out : σ) (before : List Char) (addr : UInt64) (len : Nat) : Option σ :=
  if len > 0 then match o.readBufPreview addr len with
    | some text => (o.appendRaw out before).bind fun out => o.appendRaw out text
    | none => some out
  else some out

def asked (addr : UInt64) (len : Nat) : Option UInt64 := if len > 0 then some addr else none

def entryParams (event : Event) : Nat → Nat → Nat → σ → List SigType → List Shown × Option σ
  | _,_,_,out,[] => ([],some out)
  | i,gpIndex,fpIndex,out,t::ts =>
    match if i > 0 then o.appendRaw out [',',' '] else some out with
    | none => ([],none)
    | some out =>
      let rawValue := if sigTypeIsFp t then
        eventFpArgValue event fpIndex else eventArgValue event gpIndex
      let gpNext := if sigTypeIsFp t then gpIndex else gpIndex + 1
      let fpNext := if sigTypeIsFp t then fpIndex + 1 else fpIndex
      match o.appendValue out t rawValue with
      | none => ([.value i rawValue],none)
      | some out =>
        if t = .constBuf then
          let preview := bufferPreviewLen sig event i
          match appendPreview o out ['='] rawValue preview.1 with
          | none => ([.value i rawValue,.preview i (asked rawValue preview.1) preview.2],none)
          | some out =>
            let rest := entryParams event (i + 1) gpNext fpNext out ts
            (.value i rawValue::.preview i (asked rawValue preview.1) preview.2::rest.1,rest.2)
        else
          let rest := entryParams event (i + 1) gpNext fpNext out ts
          (.value i rawValue::rest.1,rest.2)

def formatEntry (event : Event) (out : σ) : List Shown × Option σ :=
  match o.appendRaw out (sig.symbol ++ ['(']) with
  | none => ([],none)
  | some out =>
    let line := entryParams o sig event 0 0 0 out sig.params
    (line.1,do
      let out ← line.2
      let out ← if sig.variadic then o.appendVariadicArgs out sig event else some out
      o.appendRaw out [')','\n'])

def formatReturn (entry event : Event) (out : σ) : List Shown × Option σ :=
  match (o.appendRaw out (sig.symbol ++ [' ','-','>',' '])).bind fun out =>
      o.appendValue out sig.ret (if sigTypeIsFp sig.ret then event.fp0 else event.value0) with
  | none => ([],none)
  | some out => match sig.params.findIdx? (· == .buf) with
    | none => ([],o.appendRaw out ['\n'])
    | some i =>
      let preview := bufferPreviewLenReturn sig entry event i
      let addr := eventArgValue entry i
      ([.preview i (asked addr preview.1) preview.2],
        (appendPreview o out [' '] addr preview.1).bind fun out => o.appendRaw out ['\n'])

end

/-! The registers of the calling convention: a parameter that is no floating-point number is in
the next integer register. -/
def gpIndex (params : List SigType) (j : Nat) : Nat :=
  (params.take j).countP fun t => !sigTypeIsFp t

def assigned (sig : FuncSig) (e : Event) (j : Nat) : UInt64 :=
  eventArgValue e (gpIndex sig.params j)

def Right (sig : FuncSig) (e : Event) : Shown → Prop
  | .value i raw => sig.params[i]?.any sigTypeIsFp = false → raw = assigned sig e i
  | .preview i addr sizes => (∀ a, addr = some a → a = assigned sig e i) ∧
      ∀ p ∈ sizes, p.2 = assigned sig e p.1

def Leading (sig : FuncSig) (i : Nat) : Prop := ∀ t ∈ sig.params.take i, sigTypeIsFp t = false

variable {sig : FuncSig} {e : Event} {i j : Nat}

theorem indexNext {params : List SigType} {t : SigType} (here : params[i]? = some t) :
    gpIndex params (i + 1) = if sigTypeIsFp t then gpIndex params i else gpIndex params i + 1 := by
  rw [gpIndex,List.take_add_one,here,List.countP_append]
  cases fp : sigTypeIsFp t <;> simp [gpIndex,fp]

theorem leadingIndex (within : i ≤ sig.params.length) : gpIndex sig.params i = i ↔
    Leading sig i := by
  have length : (sig.params.take i).length = i := by rw [List.length_take,Nat.min_eq_left within]
  unfold gpIndex Leading
  conv => lhs; rhs; rw [← length]
  rw [List.countP_eq_length]
  simp

theorem numericHere {index : Nat} (numeric : sigParamIsNumeric sig index = true) :
    ∃ t, sig.params[index]? = some t ∧ sigTypeIsFp t = false := by
  unfold sigParamIsNumeric at numeric
  cases here : sig.params[index]? with
  | none => rw [here] at numeric; cases numeric
  | some t =>
    rw [here] at numeric
    refine ⟨t,rfl,?_⟩
    cases t <;> first | rfl | cases numeric

theorem withinParams {t : SigType} (here : sig.params[i]? = some t) : i < sig.params.length :=
  (List.getElem?_eq_some_iff.mp here).1

/- Behind a leading parameter that is no floating-point number, positions are registers. -/
theorem leadingNext {t : SigType} (here : sig.params[i]? = some t) (plain : sigTypeIsFp t = false)
    (leads : gpIndex sig.params i = i) :
    gpIndex sig.params (i + 1) = i + 1 := by
  rw [indexNext here,plain,leads]
  rfl

theorem sizesRight {t : SigType} (here : sig.params[i]? = some t) (plain : sigTypeIsFp t = false)
    (leads : gpIndex sig.params i = i) :
    ∀ p ∈ (bufferPreviewLen sig e i).2, p.2 = assigned sig e p.1 := by
  have next := leadingNext here plain leads
  have first : (sizeFor e (i + 1)).2 = assigned sig e (i + 1) := by rw [assigned,next]; rfl
  unfold bufferPreviewLen
  split
  · next numeric =>
    obtain ⟨u,there,other⟩ := numericHere (Bool.and_eq_true_iff.mp numeric).1
    have second : (sizeFor e (i + 2)).2 = assigned sig e (i + 2) := by
      rw [assigned,leadingNext there other next]; rfl
    intro p member
    simp only [List.mem_cons,List.not_mem_nil,or_false] at member
    rcases member with rfl | rfl
    · exact first
    · exact second
  · split
    · intro p member
      rw [List.mem_singleton.mp member]
      exact first
    · simp

theorem returnSizesRight {ret : Event} {t : SigType} (here : sig.params[i]? = some t)
    (plain : sigTypeIsFp t = false) (leads : gpIndex sig.params i = i) :
    ∀ p ∈ (bufferPreviewLenReturn sig e ret i).2, p.2 = assigned sig e p.1 := by
  have next := leadingNext here plain leads
  have first : ∀ p ∈ [sizeFor e (i + 1)], p.2 = assigned sig e p.1 := by
    intro p member
    rw [List.mem_singleton.mp member,assigned]
    show _ = eventArgValue e (gpIndex sig.params (i + 1))
    rw [next]
    rfl
  unfold bufferPreviewLenReturn
  split
  · simp
  · split
    · exact first
    · split
      · exact first
      · simp

/- Parameters whose previews are taken by position: those with a size behind them on the line of
the call, and the first buffer that is filled on the line of the return. -/
structure PreviewsLead (sig : FuncSig) : Prop where
  sized : ∀ i, sig.params[i]? = some .constBuf → sigParamIsNumeric sig (i + 1) = true →
    Leading sig i
  filled : ∀ i, sig.params.findIdx? (· == .buf) = some i → Leading sig i

theorem askedIs {addr a : UInt64} {len : Nat} (is : asked addr len = some a) : a = addr := by
  unfold asked at is
  split at is
  · cases is; rfl
  · cases is

theorem constRight (lead : PreviewsLead sig) (here : sig.params[i]? = some .constBuf)
    {addr : UInt64} (is : addr = assigned sig e i) {len : Nat} :
    Right sig e (.preview i (asked addr len) (bufferPreviewLen sig e i).2) := by
  refine ⟨fun a found => (askedIs found).trans is,?_⟩
  by_cases numeric : sigParamIsNumeric sig (i + 1) = true
  · exact sizesRight here rfl
      ((leadingIndex (Nat.le_of_lt (withinParams here))).mpr (lead.sized i here numeric))
  · have none_ : (bufferPreviewLen sig e i).2 = [] := by simp [bufferPreviewLen,numeric]
    rw [none_]
    simp

section
variable {σ : Type} {o : Output σ}

theorem entryRight (lead : PreviewsLead sig) {fp : Nat} {out : σ} {ts : List SigType}
    (left : sig.params.drop i = ts) :
    ∀ shown ∈ (entryParams o sig e i (gpIndex sig.params i) fp out ts).1, Right sig e shown := by
  induction ts generalizing i fp out with
  | nil => simp [entryParams]
  | cons t ts ih =>
    have here : sig.params[i]? = some t := by
      have := congrArg List.head? left
      rwa [List.head?_drop] at this
    have rest : sig.params.drop (i + 1) = ts := by rw [← List.tail_drop,left]; rfl
    have next := indexNext here
    have value : Right sig e
        (.value i (if sigTypeIsFp t then
        eventFpArgValue e fp else eventArgValue e (gpIndex sig.params i))) := by
      intro plain
      rw [here,Option.any_some] at plain
      rw [plain,if_neg (by simp)]
      rfl
    rw [entryParams]
    split
    · simp
    · simp only
      rw [← next]
      split
      · simpa using value
      · split
        · next buffer =>
          subst buffer
          have const := fun len =>
              @constRight sig e i lead here (eventArgValue e (gpIndex sig.params i)) rfl len
          split
          · intro shown member
            simp only [List.mem_cons,List.not_mem_nil,or_false] at member
            rcases member with rfl | rfl
            · exact value
            · exact const _
          · intro shown member
            simp only [List.mem_cons] at member
            rcases member with rfl | rfl | later
            · exact value
            · exact const _
            · exact ih rest shown later
        · intro shown member
          rcases List.mem_cons.mp member with rfl | later
          · exact value
          · exact ih rest shown later

theorem returnRight (lead : PreviewsLead sig) {ret : Event} {out : σ} :
    ∀ shown ∈ (formatReturn o sig e ret out).1, Right sig e shown := by
  unfold formatReturn
  split
  · simp
  · split
    · simp
    · next i first =>
      obtain ⟨within,is⟩ := List.findIdx?_eq_some_iff_getElem.mp first
      have here : sig.params[i]? = some .buf := by
        rw [List.getElem?_eq_getElem within]
        exact congrArg some (beq_iff_eq.mp is.1)
      have leads := (leadingIndex (Nat.le_of_lt within)).mpr (lead.filled i first)
      intro shown member
      rw [List.mem_singleton.mp member]
      refine ⟨fun a found => (askedIs found).trans ?_,returnSizesRight here rfl leads⟩
      rw [assigned,leads]

end

/-! The other way round: output that never fails, and registers that are all different and none
of them zero. -/
def silent : Output Unit :=
  ⟨fun out _ => some out,fun out _ _ => some out,fun out _ _ => some out,fun _ _ => some []⟩

def counted : Event := ⟨fun k => UInt64.ofNat (k.val + 1),fun _ => 0⟩

theorem countedValue (low : i < gpArgCount) : (eventArgValue counted i).toNat = i + 1 := by
  unfold eventArgValue
  rw [dif_pos low]
  refine UInt64.toNat_ofNat_of_lt ?_
  exact Nat.lt_of_le_of_lt low (by decide)

theorem countedApart (low : i < gpArgCount) (low' : j < gpArgCount)
    (same : eventArgValue counted i = eventArgValue counted j) : i = j := by
  have := congrArg UInt64.toNat same
  rw [countedValue low,countedValue low'] at this
  omega

theorem indexBelow : gpIndex sig.params i ≤ i :=
  Nat.le_trans List.countP_le_length (by rw [List.length_take]; exact Nat.min_le_left _ _)

theorem registerHere (within : i < sig.params.length) : i < gpArgCount :=
  Nat.lt_of_lt_of_le within sig.few

theorem silentPreview {before : List Char} {addr : UInt64} {len : Nat} :
    appendPreview silent () before addr len = some () := by
  unfold appendPreview
  split <;> rfl

theorem silentParams {gp fp : Nat} {t : SigType} {ts : List SigType} :
    ∃ raw gp' fp', (entryParams silent sig e i gp fp () (t::ts)).1 =
    .value i raw::((if t = .constBuf then
      [.preview i (asked raw (bufferPreviewLen sig e i).1) (bufferPreviewLen sig e i).2] else []) ++
      (entryParams silent sig e (i + 1) gp' fp' () ts).1) := by
  have raw : (if i > 0 then silent.appendRaw () [',',' '] else some ()) = some () := by
    split <;> rfl
  have value : ∀ v, silent.appendValue () t v = some () := fun _ => rfl
  rw [entryParams,raw]
  simp only [value]
  split
  · rw [silentPreview]
    exact ⟨_,_,_,rfl⟩
  · exact ⟨_,_,_,rfl⟩

/- Every buffer of the call gets its preview. -/
theorem silentShows {gp fp : Nat} {ts : List SigType} (here : ts[j]? = some .constBuf) :
    ∃ addr, .preview (i + j) addr (bufferPreviewLen sig e (i + j)).2 ∈
      (entryParams silent sig e i gp fp () ts).1 := by
  induction ts generalizing i j gp fp with
  | nil => simp at here
  | cons t ts ih =>
    obtain ⟨raw,gp',fp',shown⟩ := @silentParams sig e i gp fp t ts
    rw [shown]
    cases j with
    | zero =>
      obtain rfl : t = .constBuf := by simpa using here
      exact ⟨_,.tail _ (List.mem_append_left _ (List.mem_singleton.mpr rfl))⟩
    | succ j =>
      obtain ⟨addr,member⟩ := @ih (i + 1) j gp' fp' (by simpa using here)
      rw [show i + (j + 1) = i + 1 + j by omega]
      exact ⟨addr,.tail _ (List.mem_append_right _ member)⟩

theorem firstSize (numeric : sigParamIsNumeric sig (i + 1) = true) :
    sizeFor e (i + 1) ∈ (bufferPreviewLen sig e i).2 := by
  simp only [bufferPreviewLen,numeric,Bool.true_and]
  split <;> exact .head _

def returned : Event := ⟨fun _ => 1,fun _ => 0⟩

theorem returnedAsks : (bufferPreviewLenReturn sig counted returned i).1 > 0 := by
  have next : sigParamIsNumeric sig (i + 1) = true →
      (eventArgValue counted (i + 1)).toNat = i + 2 := fun numeric => by
    obtain ⟨t,there,_⟩ := numericHere numeric
    exact countedValue (registerHere (withinParams there))
  have cap : ∀ n, n > 0 → capPreviewLen n > 0 := fun n some_ => by
    unfold capPreviewLen
    split
    · decide
    · exact some_
  unfold bufferPreviewLenReturn
  rw [if_neg (by decide)]
  have one : returned.value0 = 1 := rfl
  split
  · next numeric =>
    refine cap _ ?_
    have := next (Bool.and_eq_true_iff.mp numeric).1
    rw [one,UInt64.one_mul]
    show 0 < (eventArgValue counted (i + 1)).toNat
    omega
  · split
    · next numeric =>
      refine cap _ ?_
      have := next numeric
      rw [one]
      split
      · decide
      · show 0 < (eventArgValue counted (i + 1)).toNat
        omega
    · exact cap returned.value0.toNat (by decide)

/-- All previews are taken from the registers of their parameters, whatever is printed where,
exactly when no floating-point parameter comes before those that are looked up by position. -/
theorem previewsRight (sig : FuncSig) : (∀ (σ : Type) (o : Output σ) (out : σ) (entry ret : Event),
    (∀ shown ∈ (formatEntry o sig entry out).1, Right sig entry shown) ∧
      ∀ shown ∈ (formatReturn o sig entry ret out).1, Right sig entry shown) ↔
      PreviewsLead sig := by
  constructor
  · intro all
    obtain ⟨entry,exit⟩ := all Unit silent () counted returned
    refine ⟨fun i here numeric => ?_,fun i first => ?_⟩
    · obtain ⟨addr,shown⟩ := @silentShows sig counted 0 i 0 0 sig.params here
      rw [Nat.zero_add] at shown
      have same := (entry _ shown).2 _ (firstSize numeric)
      obtain ⟨t,there,_⟩ := numericHere numeric
      have low := registerHere (withinParams there)
      have index := countedApart low (Nat.lt_of_le_of_lt indexBelow low) same
      rw [indexNext here] at index
      exact (leadingIndex (Nat.le_of_lt (withinParams here))).mp
        (by simpa [sigTypeIsFp] using index.symm)
    · obtain ⟨within,_⟩ := List.findIdx?_eq_some_iff_getElem.mp first
      have asks := @returnedAsks sig i
      have shown : .preview i (some (eventArgValue counted i))
          (bufferPreviewLenReturn sig counted returned i).2 ∈
          (formatReturn silent sig counted returned ()).1 := by
        simp only [formatReturn,silent,Option.bind_some,first,asked,asks,if_true]
        exact .head _
      have same := (exit _ shown).1 _ rfl
      have low := registerHere within
      exact (leadingIndex (Nat.le_of_lt within)).mp
        (countedApart low (Nat.lt_of_le_of_lt indexBelow low) same).symm
  · intro lead σ o out entry ret
    refine ⟨?_,returnRight lead⟩
    unfold formatEntry
    split
    · simp
    · exact entryRight (i := 0) lead rfl

/- fill(double, buf, size) and emit(double, const buf, size) -/
def fillScaled : FuncSig := ⟨['f','i','l','l'],.void,[.double,.buf,.size],by decide,false⟩
def emitScaled : FuncSig := ⟨['e','m','i','t'],.void,[.double,.constBuf,.size],by decide,false⟩

theorem scaledPreviewsWrong :
    (∃ shown ∈ (formatReturn silent fillScaled counted returned ()).1,
      ¬ Right fillScaled counted shown) ∧
    ∃ shown ∈ (formatEntry silent emitScaled counted ()).1, ¬ Right emitScaled counted shown := by
  refine ⟨⟨.preview 1 (some 2) [(2,3)],.head _,?_⟩,
    ⟨.preview 1 (some 1) [(2,3)],.tail _ (.tail _ (.head _)),?_⟩⟩
  · intro right
    exact absurd (right.1 2 rfl) (by decide)
  · intro right
    exact absurd (right.2 (2,3) (.head _)) (by decide)

end ZeroTrace.BufferPreviews
