import ZeroTrace.BoundedText
import ZeroTrace.FormatGrammar
import ZeroTrace.Signatures

/-! The arguments behind the fixed ones, printed as the format in the target asks for them. -/
namespace ZeroTrace.VariadicArgs
open Attempts FormatWalk FormatGrammar Signatures
open BufferPreviews (SigType Event gpArgCount fpArgCount eventArgValue eventFpArgValue sigTypeIsFp)
open RemoteStrings (MemoryMap readRemoteCstr)

/- Where the text goes. -/
structure Printer (σ : Type) where
  appendRaw : σ → List Char → Attempt σ
  appendValue : σ → SigType → UInt64 → Attempt σ

def fpConversions : List Char := ['a','A','e','E','f','F','g','G']

def conversionType (conv : Char) : Option SigType :=
  if conv = 'd' ∨ conv = 'i' then some .long
  else if conv = 'u' ∨ conv = 'o' ∨ conv = 'x' ∨ conv = 'X' then some .ulong
  else if conv = 'p' ∨ conv = 'n' then some .ptr
  else if conv = 's' then some .cstr
  else if conv = 'c' then some .int
  else none

def separator : List Char := [',',' ']
def unreadable : List Char := [',',' ','<','u','n','r','e','a','d','a','b','l','e','>']
def unknownArg : List Char := ['<','a','r','g','>']
def dots : List Char := [',',' ','.','.','.']

section
variable {σ : Type} (o : Printer σ) (event : Event)

def appendVariadicArg (out : σ) (args : Args) (conv : Char) : Attempt σ × Args :=
  if strchr fpConversions conv then
    (andThen (o.appendRaw out separator) fun out =>
      o.appendValue out .double (eventFpArgValue event args.fpIndex),
      ⟨args.gpIndex,args.fpIndex + 1⟩)
  else match eventArgValueExt event args.gpIndex with
    | none => (o.appendRaw out unreadable,args)
    | some value =>
      (andThen (o.appendRaw out separator) fun out => match conversionType conv with
        | some type => o.appendValue out type value
        | none => o.appendRaw out unknownArg,⟨args.gpIndex + 1,args.fpIndex⟩)

def convertArg (fmt : Nat → Char) (next : Nat → σ → Args → Option (Attempt σ)) (p : Nat) (out : σ)
    (args : Args) : Option (Attempt σ) :=
  if fmt p = '\x00' then some (out,true)
  else if fmt p = 'm' then next (p + 1) out args
  else
    let printed := appendVariadicArg o event out args (fmt p)
    if printed.1.2 then next (p + 1) printed.1.1 printed.2 else some printed.1

/- The walk is over after so many turns, or it is not known how it ends. -/
def formatArgs (fmt : Nat → Char) : Nat → Nat → σ → Args → Option (Attempt σ)
  | 0,_,_,_ => none
  | k+1,p,out,args =>
    if fmt p = '\x00' then some (out,true)
    else if fmt p ≠ '%' then formatArgs fmt k (p + 1) out args
    else if fmt (p + 1) = '%' then formatArgs fmt k (p + 2) out args
    else match skipFormatFlags fmt k (p + 1) args.gpIndex with
      | none => none
      | some skipped => convertArg o event fmt (formatArgs fmt k)
          (skipFormatLength fmt skipped.1.1).1 out ⟨skipped.1.2,args.fpIndex⟩

def fmtSize : Nat := 192

/- The buffer is what the stack holds when the format is read. -/
def appendVariadicArgs (mem : MemoryMap) (sig : FuncSig) (buffer : Nat → Char) (k : Nat)
    (out : σ) : Option (Attempt σ) :=
  match findFormatParamIndex sig with
  | none => some (o.appendRaw out dots)
  | some index => match eventArgValueExt event index with
    | none => some (o.appendRaw out dots)
    | some addr =>
      let fmt := readRemoteCstr mem addr buffer fmtSize
      if fmt.2 then formatArgs o event fmt.1 k 0 out ⟨(countFixedParamRegs sig).1,
        (countFixedParamRegs sig).2⟩
      else some (o.appendRaw out dots)

/-! The walk prints what is found, one after the other. -/
def runFound : List Found → σ → Args → Attempt σ
  | [],out,_ => (out,true)
  | f::fs,out,args =>
    let args : Args := ⟨args.gpIndex + f.stars,args.fpIndex⟩
    if f.conv = 'm' then runFound fs out args
    else
      let printed := appendVariadicArg o event out args f.conv
      if printed.1.2 then runFound fs printed.1.1 printed.2 else printed.1

end

section Walk
variable {σ : Type} {o : Printer σ} {event : Event} {fmt : Nat → Char} {n p : Nat} {s : List Char}

theorem formatBegun (o : Printer σ) (event : Event) (out : σ) (args : Args) {k : Nat}
    (here : fmt p = '%') (other : fmt (p + 1) ≠ '%') (next : At fmt n (p + 1) s)
    (enough : s.length < k) : ∃ q, At fmt n q (flagsRest s) ∧
      formatArgs o event fmt (k + 1) p out args =
      convertArg o event fmt (formatArgs o event fmt k) (skipFormatLength fmt q).1 out
        ⟨args.gpIndex + starCount s,args.fpIndex⟩ := by
  rcases flagsAt next k args.gpIndex with ⟨x,reads,skipped,_,at_,stars⟩ | ⟨_,few⟩
  · refine ⟨x.1,at_,?_⟩
    rw [formatArgs,here,if_neg (by decide),if_neg (by simp),if_neg other,skipped]
    simp only
    rw [stars]
  · exact absurd enough few

theorem headAt (h : At fmt n p s) : s.head? = some '%' ↔ fmt p = '%' := by
  cases s with
  | nil =>
    rw [(atEnd h).1]
    decide
  | cons c s =>
    rw [(atNext h).1]
    simp

theorem formatRuns (k : Nat) {out : σ} {args : Args} (h : At fmt n p s)
    (whole : cutFrom .text s = false) (enough : s.length < k) :
    formatArgs o event fmt k p out args = some (runFound o event (conversions s) out args) := by
  induction k generalizing p s out args with
  | zero => exact absurd enough (Nat.not_lt_zero _)
  | succ k ih =>
    cases s with
    | nil =>
      rw [formatArgs,if_pos (atEnd h).1,conversions]
      rfl
    | cons c s =>
      obtain ⟨first,some_,next⟩ := atNext h
      rw [List.length_cons] at enough
      by_cases percent : c = '%'
      · subst percent
        by_cases again : fmt (p + 1) = '%'
        · obtain ⟨t,rfl,after⟩ := percentAgain next again
          rw [formatArgs,first,if_neg some_,if_neg (by simp),if_pos again,percentFound]
          rw [List.length_cons] at enough
          exact ih after whole (by omega)
        · obtain ⟨q,at_,turn⟩ :=
            formatBegun o event out args first again next (show s.length < k by omega)
          have flags := (cutBegun next again).symm.trans whole
          have head := mt (headAt next).mp again
          have fewer := foundShorter '%' s
          rw [List.length_cons] at fewer
          cases rest : flagsRest s with
          | nil => rw [rest] at flags; cases flags
          | cons d t =>
            rw [rest] at at_ fewer flags
            have modified := (lengthAt at_).1
            rw [cutLength] at flags
            cases left : lengthRest (d::t) with
            | nil =>
              rw [left] at modified
              rw [turn,convertArg,if_pos (atEnd modified).1,noneFound head (by rw [rest,left])]
              rfl
            | cons e u =>
              rw [left] at modified flags fewer
              rw [List.length_cons] at fewer
              obtain ⟨conv,solid,behind⟩ := atNext modified
              have after : cutFrom .text u = false := flags
              rw [turn,convertArg,conv,if_neg solid,convFound head (by rw [rest,left]),runFound]
              by_cases errno : e = 'm'
              · simp only [if_pos errno]
                exact ih behind after (by omega)
              · simp only [if_neg errno]
                rw [ih behind after (by omega)]
                exact (apply_ite some _ _ _).symm
      · rw [formatArgs,first,if_neg some_,if_pos percent,textFound percent]
        exact ih next ((cutText percent).symm.trans whole) (by omega)

/- Where the text is cut off in a conversion and nothing fails, the walk comes to the character
behind the NUL and takes it for the conversion's. -/
theorem formatCrosses (never : ∀ out args c, (appendVariadicArg o event out args c).1.2 = true)
    (k : Nat) {out : σ} {args : Args}
    (h : At fmt n p s) (cut : cutFrom .text s = true) (enough : s.length < k) :
    ∃ left out' args', k ≤ left + s.length ∧ formatArgs o event fmt k p out args =
      convertArg o event fmt (formatArgs o event fmt left) (n + 1) out' args' := by
  induction k generalizing p s out args with
  | zero => exact absurd enough (Nat.not_lt_zero _)
  | succ k ih =>
    -- What is left of the walk behind so many characters.
    have further : ∀ {q t out args}, At fmt n q t → cutFrom .text t = true → t.length < s.length →
        ∃ left out' args', k + 1 ≤ left + s.length ∧ formatArgs o event fmt k q out args =
          convertArg o event fmt (formatArgs o event fmt left) (n + 1) out' args' := by
      intro q t out args at_ cut' shorter
      obtain ⟨left,out',args',many,same⟩ := @ih q t out args at_ cut' (by omega)
      exact ⟨left,out',args',by omega,same⟩
    cases s with
    | nil => cases cut
    | cons c s =>
      obtain ⟨first,some_,next⟩ := atNext h
      rw [List.length_cons] at enough
      by_cases percent : c = '%'
      · subst percent
        by_cases again : fmt (p + 1) = '%'
        · obtain ⟨t,rfl,after⟩ := percentAgain next again
          rw [formatArgs,first,if_neg some_,if_neg (by simp),if_pos again]
          exact further after cut (by simp only [List.length_cons]; omega)
        · obtain ⟨q,at_,turn⟩ :=
            formatBegun o event out args first again next (show s.length < k by omega)
          have flags := (cutBegun next again).symm.trans cut
          have fewer := foundShorter '%' s
          rw [turn]
          cases rest : flagsRest s with
          | nil =>
            rw [rest] at at_
            rw [lengthEnd at_,(atEnd at_).2]
            exact ⟨k,out,_,by rw [List.length_cons]; omega,rfl⟩
          | cons d t =>
            rw [rest] at at_ fewer flags
            have modified := (lengthAt at_).1
            rw [cutLength] at flags
            cases left : lengthRest (d::t) with
            | nil => rw [left] at flags; cases flags
            | cons e u =>
              rw [left] at modified flags fewer
              obtain ⟨conv,solid,behind⟩ := atNext modified
              have shorter : u.length < ('%'::s).length := by rw [List.length_cons] at fewer; omega
              rw [convertArg,conv,if_neg solid]
              by_cases errno : e = 'm'
              · rw [if_pos errno]
                exact further behind flags shorter
              · simp only [if_neg errno,never,if_true]
                exact further behind flags shorter
      · rw [formatArgs,first,if_neg some_,if_pos percent]
        exact further next ((cutText percent).symm.trans cut) (by rw [List.length_cons]; omega)

end Walk

/-! What is printed, as it would be recorded. -/
inductive Item where
  | text (t : List Char)
  | value (type : SigType) (raw : UInt64)
  deriving DecidableEq, Repr

/- The register that an argument is shown from, if it is in one. -/
inductive Shown where
  | value (raw : UInt64)
  | unreadable
  deriving DecidableEq, Repr

def Item.shown : Item → Option Shown
  | .text t => if t = VariadicArgs.unreadable then some .unreadable else none
  | .value _ raw => some (.value raw)

def values (items : List Item) : List Shown := items.filterMap Item.shown

/- As long as there is room. -/
def record (room : List Item → Bool) (items : List Item) (item : Item) : Attempt (List Item) :=
  if room items then (items ++ [item],true) else (items,false)

def recorder (room : List Item → Bool) : Printer (List Item) :=
  ⟨fun items t => record room items (.text t),
    fun items type raw => record room items (.value type raw)⟩

section Recorded
variable {event : Event} {room : List Item → Bool} {items : List Item} {args : Args}

/- What one argument shows, and what is taken for the next. -/
def shownArg (event : Event) (args : Args) (conv : Char) : Shown :=
  if strchr fpConversions conv then .value (eventFpArgValue event args.fpIndex)
  else match eventArgValueExt event args.gpIndex with
    | none => .unreadable
    | some value => .value value

def nextArgs (args : Args) (conv : Char) : Args :=
  if strchr fpConversions conv then ⟨args.gpIndex,args.fpIndex + 1⟩
  else if args.gpIndex < gpArgCount then ⟨args.gpIndex + 1,args.fpIndex⟩ else args

def Adds (items : List Item) (shown : List Shown) (r : Attempt (List Item)) : Prop :=
  r.2 = true ∧ values r.1 = values items ++ shown ∨ r.2 = false ∧
    values r.1 <+: values items ++ shown

theorem addsRecord (item : Item) : Adds items item.shown.toList (record room items item) := by
  unfold record
  split
  · refine .inl ⟨rfl,?_⟩
    rw [values,List.filterMap_append]
    cases shown : item.shown <;> simp [values,shown]
  · exact .inr ⟨rfl,List.prefix_append _ _⟩

theorem addsThen {r : Attempt (List Item)} {f : List Item → Attempt (List Item)} {a b : List Shown}
    (first : Adds items a r)
    (rest : ∀ items', Adds items' b (f items')) : Adds items (a ++ b) (andThen r f) := by
  rcases first with ⟨well,shown⟩ | ⟨failed,shown⟩
  · have next := rest r.1
    rw [Adds,shown,List.append_assoc] at next
    rwa [andThenWell well]
  · rw [andThenFailed failed]
    exact .inr ⟨failed,shown.trans (by rw [← List.append_assoc]; exact List.prefix_append _ _)⟩

theorem addsValue (type : SigType) (raw : UInt64) :
    Adds items [.value raw] (andThen ((recorder room).appendRaw items separator)
      fun items => (recorder room).appendValue items type raw) :=
  addsThen (addsRecord (.text separator)) fun _ => addsRecord (.value type raw)

theorem addsUnreadable : Adds items [.unreadable] ((recorder room).appendRaw items unreadable) :=
  addsRecord (.text unreadable)

def Known (conv : Char) : Prop := strchr fpConversions conv = true ∨ conversionType conv ≠ none

theorem argRecorded {conv : Char} (known : Known conv) :
    Adds items [shownArg event args conv]
    (appendVariadicArg (recorder room) event items args conv).1 ∧
    (appendVariadicArg (recorder room) event items args conv).2 = nextArgs args conv := by
  unfold appendVariadicArg shownArg nextArgs
  cases fp : strchr fpConversions conv with
  | true => exact ⟨addsValue _ _,rfl⟩
  | false =>
    have typed : conversionType conv ≠ none := known.resolve_left (by rw [fp]; simp)
    unfold eventArgValueExt
    by_cases low : args.gpIndex < gpArgCount
    · cases type : conversionType conv with
      | none => exact absurd type typed
      | some type_ =>
        simp only [if_pos low]
        exact ⟨addsValue _ _,rfl⟩
    · simp only [if_neg low]
      exact ⟨addsUnreadable,rfl⟩

def shownBy (event : Event) : List Found → Args → List Shown
  | [],_ => []
  | f::fs,args =>
    let args : Args := ⟨args.gpIndex + f.stars,args.fpIndex⟩
    if f.conv = 'm' then
      shownBy event fs args else shownArg event args f.conv::shownBy event fs (nextArgs args f.conv)

theorem runRecorded {fs : List Found} (known : ∀ f ∈ fs, f.conv ≠ 'm' → Known f.conv) :
    Adds items (shownBy event fs args) (runFound (recorder room) event fs items args) := by
  induction fs generalizing items args with
  | nil => exact .inl ⟨rfl,by simp [runFound,shownBy]⟩
  | cons f fs ih =>
    have rest : ∀ g ∈ fs, g.conv ≠ 'm' → Known g.conv := fun g member => known g (.tail _ member)
    rw [runFound,shownBy]
    by_cases errno : f.conv = 'm'
    · simp only [if_pos errno]
      exact ih rest
    · simp only [if_neg errno]
      obtain ⟨here,next⟩ :=
        @argRecorded event room items ⟨args.gpIndex + f.stars,args.fpIndex⟩ f.conv
        (known f (.head _) errno)
      rw [next]
      exact addsThen here fun _ => ih rest

end Recorded

/-! The registers of the calling convention: behind the fixed parameters and in the order of the
format, integers take the next of six registers and floating-point numbers the next of eight. -/
def isFpConv : Conv → Bool
  | .a | .A | .e | .E | .f | .F | .g | .G => true
  | _ => false

def fpRegister (event : Event) (index : Nat) : Shown :=
  if index < fpArgCount then .value (eventFpArgValue event index) else .unreadable

def gpRegister (event : Event) (index : Nat) : Shown :=
  if index < gpArgCount then .value (eventArgValue event index) else .unreadable

def assignedArgs (event : Event) : List Piece → Args → List Shown
  | [],_ => []
  | .conversion spec _ conv::ps,args =>
    let gp := args.gpIndex + spec.stars
    if conv = .m then assignedArgs event ps ⟨gp,args.fpIndex⟩
    else if isFpConv conv then
      fpRegister event args.fpIndex::assignedArgs event ps ⟨gp,args.fpIndex + 1⟩
    else gpRegister event gp::assignedArgs event ps ⟨gp + 1,args.fpIndex⟩
  | .text _ _ _::ps,args | .percent::ps,args => assignedArgs event ps args

def isFpPiece : Piece → Bool
  | .conversion _ _ conv => isFpConv conv
  | _ => false

section Assigned
variable {event : Event} {ps rest : List Piece} {a b : Args}

/- Integer registers that have run out are alike. -/
def Alike (a b : Args) : Prop :=
  a.fpIndex = b.fpIndex ∧ min a.gpIndex gpArgCount = min b.gpIndex gpArgCount

theorem fpIs (conv : Conv) : strchr fpConversions conv.char = isFpConv conv := by cases conv <;> rfl

theorem errnoIs (conv : Conv) : conv.char = 'm' ↔ conv = .m := by cases conv <;> decide

theorem convKnown {conv : Conv} (other : conv ≠ .m) : Known conv.char := by
  unfold Known
  cases conv with
  | m => exact absurd rfl other
  | _ => decide

theorem foundKnown : ∀ f ∈ foundIn ps, f.conv ≠ 'm' → Known f.conv := by
  intro f member other
  obtain ⟨p,_,inside⟩ := List.mem_flatMap.mp member
  cases p with
  | text b solid plain => cases inside
  | percent => cases inside
  | conversion spec length conv =>
    rw [List.mem_singleton.mp inside] at other ⊢
    exact convKnown fun errno => other ((errnoIs conv).mpr errno)

theorem alikeStars (alike : Alike a b) (n : Nat) :
    Alike ⟨a.gpIndex + n,a.fpIndex⟩ ⟨b.gpIndex + n,b.fpIndex⟩ := by
  obtain ⟨fp,gp⟩ := alike
  exact ⟨fp,by simp only; omega⟩

theorem gpShown {conv : Conv} (alike : Alike a b) (integer : isFpConv conv = false) :
    shownArg event a conv.char = gpRegister event b.gpIndex ∧
    Alike (nextArgs a conv.char) ⟨b.gpIndex + 1,b.fpIndex⟩ := by
  obtain ⟨fp,gp⟩ := alike
  unfold shownArg nextArgs gpRegister eventArgValueExt
  simp only [fpIs,integer,Bool.false_eq_true,if_false]
  by_cases low : a.gpIndex < gpArgCount
  · have same : a.gpIndex = b.gpIndex := by omega
    rw [if_pos low,if_pos low,← same,if_pos low]
    exact ⟨rfl,fp,by simp only⟩
  · rw [if_neg low,if_neg low,if_neg (by omega)]
    exact ⟨rfl,fp,by simp only; omega⟩

theorem fpShown {conv : Conv} (alike : Alike a b) (real : isFpConv conv = true) :
    (shownArg event a conv.char = fpRegister event b.fpIndex ↔ b.fpIndex < fpArgCount) ∧
    Alike (nextArgs a conv.char) ⟨b.gpIndex,b.fpIndex + 1⟩ := by
  obtain ⟨fp,gp⟩ := alike
  unfold shownArg nextArgs fpRegister
  simp only [fpIs,real,if_true,fp]
  refine ⟨?_,rfl,gp⟩
  by_cases low : b.fpIndex < fpArgCount <;> simp [low]

theorem shownAssigned (alike : Alike a b) (few : b.fpIndex ≤ fpArgCount) :
    shownBy event (foundIn ps) a <+: assignedArgs event (ps ++ rest) b ↔
      b.fpIndex + ps.countP isFpPiece ≤ fpArgCount := by
  induction ps generalizing a b with
  | nil => exact iff_of_true List.nil_prefix few
  | cons p ps ih =>
    cases p with
    | text c solid plain => exact ih alike few
    | percent => exact ih alike few
    | conversion spec length conv =>
      have alike' := alikeStars alike spec.stars
      have found : foundIn (.conversion spec length conv::ps) =
          ⟨spec.stars,conv.char⟩::foundIn ps := rfl
      rw [found,shownBy,List.cons_append,assignedArgs,List.countP_cons]
      by_cases errno : conv = .m
      · have silent : isFpPiece (.conversion spec length conv) = false := by rw [errno]; rfl
        simp only [if_pos errno,if_pos ((errnoIs conv).mpr errno),silent]
        exact ih alike' few
      · simp only [if_neg errno,if_neg (mt (errnoIs conv).mp errno)]
        cases real : isFpConv conv with
        | false =>
          have integer : isFpPiece (.conversion spec length conv) = false := real
          obtain ⟨same,next⟩ := @gpShown event _ _ conv alike' real
          simp only [Bool.false_eq_true,if_false,integer]
          rw [same,List.cons_prefix_cons,ih next few]
          simp
        | true =>
          have fp : isFpPiece (.conversion spec length conv) = true := real
          obtain ⟨same,next⟩ := @fpShown event _ _ conv alike' real
          simp only [if_true,fp]
          rw [List.cons_prefix_cons,same]
          by_cases low : b.fpIndex < fpArgCount
          · rw [ih next low]
            simp only [low,true_and]
            omega
          · simp only [low,false_and,false_iff]
            omega

theorem assignedLength : (shownBy event (foundIn ps) a).length =
    (assignedArgs event ps b).length := by
  induction ps generalizing a b with
  | nil => rfl
  | cons p ps ih =>
    cases p with
    | text c solid plain => exact ih
    | percent => exact ih
    | conversion spec length conv =>
      have found : foundIn (.conversion spec length conv::ps) =
          ⟨spec.stars,conv.char⟩::foundIn ps := rfl
      rw [found,shownBy,assignedArgs]
      by_cases errno : conv = .m
      · simp only [if_pos errno,if_pos ((errnoIs conv).mpr errno)]
        exact ih
      · simp only [if_neg errno,if_neg (mt (errnoIs conv).mp errno),List.length_cons]
        split <;> exact congrArg Nat.succ ih

end Assigned

/-! All of it, for a signature and a format. -/

/- The registers that the convention has for the first argument behind the fixed parameters. -/
def fixedArgs (sig : FuncSig) : Args :=
  ⟨BufferPreviews.gpIndex sig.types.params sig.params.length,
    fpIndex sig.types.params sig.params.length⟩

/- The format is there, as far as it is looked at. -/
def Begins (mem : MemoryMap) (addr : UInt64) (ps : List Piece) : Prop :=
  addr ≠ 0 ∧ RemoteStrings.Reaches mem addr (fmtSize - 1) ((bytesOf ps).take (fmtSize - 1))

/- Whatever the registers, the memory and the stack hold and wherever the output ends, the walk
comes to an end, and what it shows are the registers of the arguments, one after the other; all of
them where there is room and the format is read to its end. -/
def Right (sig : FuncSig) (ps : List Piece) : Prop :=
  ∀ (event : Event) (mem : MemoryMap) (buffer : Nat → Char) (room : List Item → Bool),
    (∀ i, findFormatParamIndex sig = some i →
      Begins mem (BufferPreviews.assigned sig.types event i) ps) →
    ∃ result, (∀ k, fmtSize ≤ k → appendVariadicArgs (recorder room) event mem sig buffer k [] =
      some result) ∧
      values result.1 <+: assignedArgs event ps (fixedArgs sig) ∧
      (findFormatParamIndex sig ≠ none → (∀ items, room items = true) →
        (charsOf ps).length < fmtSize →
        values result.1 = assignedArgs event ps (fixedArgs sig))

def readChars (ps : List Piece) : List Char := (charsOf ps).take (fmtSize - 1)

/- The format's parameter is looked up at its own register, the floating-point registers last as
long as the format is read, and what is read of it is not cut off in a conversion. -/
structure Lasts (sig : FuncSig) (ps : List Piece) (i : Nat) : Prop where
  leading : BufferPreviews.Leading sig.types i
  few : (fixedArgs sig).fpIndex + (readPieces (fmtSize - 1) ps).countP isFpPiece ≤ fpArgCount
  whole : cutOff (readChars ps) = false

section Main
variable {sig : FuncSig} {event : Event} {mem : MemoryMap} {buffer : Nat → Char} {ps : List Piece}
    {i : Nat} {room : List Item → Bool} {addr : UInt64}

theorem readSolid (ps : List Piece) : ∀ c ∈ readChars ps, c ≠ '\x00' :=
  fun c member => charsSolid ps c ((List.take_prefix _ _).subset member)

theorem holdsStore {b : Nat → Char} {p : Nat} {s : List Char} (solid : ∀ c ∈ s, c ≠ '\x00') :
    Holds (Cells.store b p (s ++ ['\x00'])) p s := by
  induction s generalizing b p with
  | nil =>
    have here := @Cells.storeAt Char b p ['\x00'] 0 (by simp)
    rwa [Nat.add_zero] at here
  | cons c s ih =>
    have here := @Cells.storeAt Char b p (c::(s ++ ['\x00'])) 0 (by simp)
    refine ⟨by rwa [Nat.add_zero] at here,solid c (.head _),?_⟩
    rw [List.cons_append,← Cells.storeCons]
    exact ih fun d member => solid d (.tail _ member)

theorem formatRead (begins : Begins mem addr ps) : readRemoteCstr mem addr buffer fmtSize =
    (Cells.store buffer 0 (readChars ps ++ ['\x00']),true) := by
  have text := @RemoteStrings.cstrText mem addr fmtSize buffer _ begins.1 (by decide) begins.2
  rwa [List.map_take,formatBytes] at text

theorem formatStarts (buffer : Nat → Char) (ps : List Piece) :
    At (Cells.store buffer 0 (readChars ps ++ ['\x00'])) (readChars ps).length 0 (readChars ps) :=
  ⟨holdsStore (readSolid ps),Nat.zero_add _⟩

theorem readFound (whole : cutOff (readChars ps) = false) :
    conversions (readChars ps) = foundIn (readPieces (fmtSize - 1) ps) := by
  obtain ⟨rest,taken,kind⟩ := takeChars (fmtSize - 1) ps
  have none_ : conversions rest = [] := by
    rcases kind with rfl | ⟨p,part,other⟩
    · rw [conversions]
    · refine partFound part other ?_
      have solid : ∀ c ∈ rest, c ≠ '\x00' := fun c member => pieceSolid p c (part.subset member)
      rw [readChars,taken] at whole
      exact (piecesCut _ solid).symm.trans whole
  rw [readChars,taken,piecesFound,none_,List.append_nil]

theorem appendsFound (o : Printer (List Item)) (found : findFormatParamIndex sig = some i)
    (begins : Begins mem (eventArgValue event i) ps) (k : Nat) (items : List Item) :
    appendVariadicArgs o event mem sig buffer k items =
      formatArgs o event (Cells.store buffer 0 (readChars ps ++ ['\x00'])) k 0 items
        (fixedArgs sig) := by
  have register : eventArgValueExt event i = some (eventArgValue event i) :=
    if_pos (formatRegister found)
  rw [appendVariadicArgs,found]
  simp only [register,formatRead begins,if_true]
  rw [fixedCounted]
  rfl

theorem runsToEnd (found : findFormatParamIndex sig = some i)
    (begins : Begins mem (eventArgValue event i) ps) (whole : cutOff (readChars ps) = false)
    {k : Nat} (enough : fmtSize ≤ k) :
    appendVariadicArgs (recorder room) event mem sig buffer k [] =
      some (runFound (recorder room) event (foundIn (readPieces (fmtSize - 1) ps)) []
        (fixedArgs sig)) := by
  have length : (readChars ps).length ≤ fmtSize - 1 := List.length_take_le _ _
  have room_ : 0 < fmtSize := by decide
  rw [appendsFound (recorder room) found begins,
    formatRuns k (formatStarts buffer ps) whole (by omega),readFound whole]

/- Where the output never ends, nothing fails. -/
theorem argEndless (endless : ∀ items, room items = true) (items : List Item) (args : Args)
    (conv : Char) :
    (appendVariadicArg (recorder room) event items args conv).1.2 = true := by
  unfold appendVariadicArg recorder record andThen
  simp only [endless,if_true]
  split
  · rfl
  · split
    · rfl
    · split <;> rfl

theorem runEndless (endless : ∀ items, room items = true) (fs : List Found) (items : List Item)
    (args : Args) :
    (runFound (recorder room) event fs items args).2 = true := by
  induction fs generalizing items args with
  | nil => rfl
  | cons f fs ih =>
    rw [runFound]
    split
    · exact ih _ _
    · simp only [argEndless endless,if_true]
      exact ih _ _

theorem endlessShows (endless : ∀ items, room items = true) {fs : List Found}
    (known : ∀ f ∈ fs, f.conv ≠ 'm' → Known f.conv) (items : List Item)
    (args : Args) : values (runFound (recorder room) event fs items args).1 =
      values items ++ shownBy event fs args := by
  rcases @runRecorded event room items args fs known with ⟨_,shown⟩ | ⟨failed,_⟩
  · exact shown
  · rw [runEndless endless] at failed
    cases failed

theorem fixedWithin (sig : FuncSig) : (fixedArgs sig).fpIndex ≤ fpArgCount :=
  Nat.le_trans (fixedFew sig) (by decide)

theorem alikeRefl (a : Args) : Alike a a := ⟨rfl,rfl⟩

theorem shownRead :
    shownBy event (foundIn (readPieces (fmtSize - 1) ps)) (fixedArgs sig) <+: assignedArgs event ps
    (fixedArgs sig) ↔
    (fixedArgs sig).fpIndex + (readPieces (fmtSize - 1) ps).countP isFpPiece ≤ fpArgCount := by
  obtain ⟨rest,split⟩ := readPrefix (fmtSize - 1) ps
  have shown := @shownAssigned event (readPieces (fmtSize - 1) ps) rest _ _
      (alikeRefl (fixedArgs sig)) (fixedWithin sig)
  rwa [split] at shown

theorem lastsRight (lasts : ∀ i, findFormatParamIndex sig = some i → Lasts sig ps i) :
    Right sig ps := by
  intro event mem buffer room begins
  cases found : findFormatParamIndex sig with
  | none =>
    refine ⟨(recorder room).appendRaw [] dots,fun k _ => by rw [appendVariadicArgs,found],?_,
      fun some_ => absurd rfl some_⟩
    rcases @addsRecord room [] (.text dots) with ⟨_,shown⟩ | ⟨_,shown⟩
    · exact shown ▸ List.nil_prefix
    · exact shown.trans List.nil_prefix
  | some i =>
    have last := lasts i found
    have at_ := begins i found
    rw [BufferPreviews.assigned,(formatIndex found).mpr last.leading] at at_
    have known : ∀ f ∈ foundIn (readPieces (fmtSize - 1) ps), f.conv ≠ 'm' → Known f.conv :=
      foundKnown
    have whole := (@shownRead sig event ps).mpr last.few
    refine ⟨_,fun k enough => runsToEnd found at_ last.whole enough,?_,fun _ endless short => ?_⟩
    · rcases @runRecorded event room [] (fixedArgs sig) _ known with ⟨_,shown⟩ | ⟨_,shown⟩
      · rw [shown]
        exact whole
      · exact shown.trans whole
    · have all : readPieces (fmtSize - 1) ps = ps := readAll (by omega)
      rw [endlessShows endless known]
      rw [all] at whole ⊢
      exact whole.eq_of_length assignedLength

def formatAddr : UInt64 := 0x1000
def otherAddr : UInt64 := 0x800

/- The format at its address, and a short one of a single conversion at another. -/
def twoFormats (ps : List Piece) (conv : UInt8) : MemoryMap := fun x =>
  if x = otherAddr then some 0x25 else if x = otherAddr + 1 then some conv else if x =
    otherAddr + 2 then some 0
  else some (((bytesOf ps)[(x - formatAddr).toNat]?).getD 0)

theorem apart {k : Nat} (low : k < fmtSize) :
    (formatAddr + UInt64.ofNat k ≠ otherAddr ∧ formatAddr + UInt64.ofNat k ≠ otherAddr + 1 ∧
    formatAddr + UInt64.ofNat k ≠ otherAddr + 2) ∧
      (formatAddr + UInt64.ofNat k - formatAddr).toNat = k := by
  have small : k < 192 := low
  have value : (UInt64.ofNat k).toNat = k :=
    UInt64.toNat_ofNat_of_lt (by simp only [UInt64.size]; omega)
  have total : (formatAddr + UInt64.ofNat k).toNat = 0x1000 + k := by
    rw [UInt64.toNat_add,value]
    exact Nat.mod_eq_of_lt (by unfold formatAddr; simp; omega)
  refine ⟨⟨fun same => ?_,fun same => ?_,fun same => ?_⟩,?_⟩
  · rw [same] at total
    exact absurd total (by unfold otherAddr; simp; omega)
  · rw [same] at total
    exact absurd total (by unfold otherAddr; simp; omega)
  · rw [same] at total
    exact absurd total (by unfold otherAddr; simp; omega)
  · rw [UInt64.add_comm,UInt64.add_sub_cancel,value]

theorem formatByte (conv : UInt8) {k : Nat} (low : k < fmtSize) :
    twoFormats ps conv (formatAddr + UInt64.ofNat k) = some (((bytesOf ps)[k]?).getD 0) := by
  obtain ⟨⟨first,second,third⟩,distance⟩ := apart low
  rw [twoFormats,if_neg first,if_neg second,if_neg third,distance]

theorem formatBegins (ps : List Piece) (conv : UInt8) :
    Begins (twoFormats ps conv) formatAddr ps where
  left := by decide
  right := by
    have length : ((bytesOf ps).take (fmtSize - 1)).length =
        min (fmtSize - 1) (bytesOf ps).length := List.length_take
    have size : fmtSize = 192 := rfl
    refine ⟨fun k low => ?_,fun zero => bytesSolid ps (List.mem_of_mem_take zero),
      List.length_take_le _ _,?_⟩
    · rw [formatByte conv (by omega),List.getElem?_eq_getElem (by omega),List.getElem_take]
      rfl
    · rw [length]
      rcases Nat.le_total (fmtSize - 1) (bytesOf ps).length with long | short
      · exact .inl (Nat.min_eq_left long)
      · rw [Nat.min_eq_right short,formatByte conv (by omega),List.getElem?_eq_none (Nat.le_refl _)]
        exact .inr rfl

def single (conv : Conv) : List Piece :=
  [.conversion ⟨[],[],[],by simp,⟨.inr (by simp),by simp⟩,.inl rfl⟩ .none conv]

theorem otherBegins (ps : List Piece) (conv : Conv) :
    Begins (twoFormats ps (toByte conv.char)) otherAddr (single conv) where
  left := by decide
  right := by
    have bytes : (bytesOf (single conv)).take (fmtSize - 1) = [0x25,toByte conv.char] := rfl
    have solid : 0 ∉ (bytesOf (single conv)).take (fmtSize - 1) :=
      fun zero => bytesSolid _ (List.mem_of_mem_take zero)
    rw [bytes] at solid ⊢
    refine ⟨fun k low => ?_,solid,(by decide : 2 ≤ fmtSize - 1),.inr ?_⟩
    · rcases k with _ | _ | k
      · exact if_pos rfl
      · exact (if_neg (by decide)).trans (if_pos rfl)
      · exact absurd low (by simp)
    · have third : otherAddr + UInt64.ofNat [0x25,toByte conv.char].length = otherAddr + 2 := rfl
      rw [third]
      exact ((if_neg (by decide)).trans (if_neg (by decide))).trans (if_pos rfl)

/- Both formats have a register; the floating-point registers hold what no other does. -/
def twoArgs (format other : Nat) : Event :=
  ⟨fun r => if r.val = format then formatAddr else if r.val = other then otherAddr else 0,
    fun _ => 7⟩

theorem twoArgsFormat {format other : Nat} (low : format < gpArgCount) :
    eventArgValue (twoArgs format other) format = formatAddr := by
  simp [eventArgValue,low,twoArgs]

theorem twoArgsOther {format other : Nat} (low : other < gpArgCount) (apart : other ≠ format) :
    eventArgValue (twoArgs format other) other = otherAddr := by
  simp [eventArgValue,low,twoArgs,apart]

theorem twoArgsSeven {format other r : Nat} : eventArgValue (twoArgs format other) r ≠ 7 := by
  unfold eventArgValue
  split
  · unfold twoArgs
    simp only
    split
    · decide
    · split <;> decide
  · decide

theorem singleShown (conv : Conv) (known : conv ≠ .m) (a : Args) :
    shownBy event (foundIn (single conv)) a = [shownArg event a conv.char] := by
  have found : foundIn (single conv) = [⟨0,conv.char⟩] := rfl
  rw [found,shownBy]
  simp [(errnoIs conv).not.mpr known,shownBy]

theorem singleRead (conv : Conv) : cutOff (readChars (single conv)) = false ∧
    readPieces (fmtSize - 1) (single conv) = single conv := by
  cases conv <;> exact ⟨rfl,rfl⟩

/- What a format from the other register shows begins what is assigned. -/
theorem otherShown (right : Right sig ps) (found : findFormatParamIndex sig = some i)
    (moved : BufferPreviews.gpIndex sig.types.params i ≠ i) {conv : Conv}
    (known : conv ≠ .m) :
    [shownArg (twoArgs (BufferPreviews.gpIndex sig.types.params i) i) (fixedArgs sig) conv.char] <+:
      assignedArgs (twoArgs (BufferPreviews.gpIndex sig.types.params i) i) ps (fixedArgs sig) := by
  have low := formatRegister found
  have few := indexFew sig.types.params i
  have formatIs : BufferPreviews.assigned sig.types
      (twoArgs (BufferPreviews.gpIndex sig.types.params i) i) i = formatAddr :=
      twoArgsFormat (by omega)
  have otherIs := twoArgsOther low (Ne.symm moved)
  obtain ⟨result,runs,shown,_⟩ :=
    right (twoArgs (BufferPreviews.gpIndex sig.types.params i) i) (twoFormats ps (toByte conv.char))
    (fun _ => 'x')
    (fun _ => true) fun j same => by
      rw [Option.some.inj (same.symm.trans found),formatIs]
      exact formatBegins ps _
  have ran := @runsToEnd sig _ (twoFormats ps (toByte conv.char)) (fun _ => 'x') (single conv) i
      (fun _ => true) found
    (otherIs ▸ otherBegins ps conv) (singleRead conv).1 fmtSize (Nat.le_refl _)
  rw [runs fmtSize (Nat.le_refl _),(singleRead conv).2] at ran
  rw [Option.some.inj ran,endlessShows (fun _ => rfl) foundKnown,singleShown conv known] at shown
  exact shown

/- The format is read from the wrong register where floating-point parameters come before it. -/
theorem rightLeads (right : Right sig ps) (found : findFormatParamIndex sig = some i) :
    BufferPreviews.Leading sig.types i := by
  rw [← formatIndex found]
  by_contra moved
  have few := fixedFew sig
  -- The first argument shown would be a floating-point register and an integer one.
  obtain ⟨rest,real⟩ := @otherShown sig ps i right found moved .f (by decide)
  obtain ⟨rest',integer⟩ := @otherShown sig ps i right found moved .d (by decide)
  have same := List.head_eq_of_cons_eq (real.trans integer.symm)
  have seven : shownArg (twoArgs (BufferPreviews.gpIndex sig.types.params i) i) (fixedArgs sig)
      Conv.f.char = .value 7 := by
    have low : fpIndex sig.types.params sig.params.length < fpArgCount :=
      Nat.lt_of_le_of_lt few (by decide)
    simp [shownArg,show strchr fpConversions Conv.f.char = true from rfl,fixedArgs,eventFpArgValue,
      low,twoArgs]
  have other : shownArg (twoArgs (BufferPreviews.gpIndex sig.types.params i) i) (fixedArgs sig)
      Conv.d.char ≠ .value 7 := by
    have plain : ¬ strchr fpConversions Conv.d.char = true := by decide
    unfold shownArg eventArgValueExt
    rw [if_neg plain]
    by_cases low : (fixedArgs sig).gpIndex < gpArgCount
    · rw [if_pos low]
      exact fun value => twoArgsSeven (Shown.value.inj value)
    · rw [if_neg low]
      exact Shown.noConfusion
  exact other (same.symm.trans seven)

/- Registers that all hold the address of the format. -/
def allFormat : Event := ⟨fun _ => formatAddr,fun _ => 0⟩

theorem allFormatValue {r : Nat} (low : r < gpArgCount) : eventArgValue allFormat r = formatAddr :=
  by simp [eventArgValue,low,allFormat]

def manyArgs (n : Nat) : List Piece := (List.replicate n (single .d)).flatten

/- What the stack may hold behind the format: a conversion's character and so many conversions. -/
def behindFormat (n : Nat) : Nat → Char :=
  fun j => (('d'::charsOf (manyArgs n))[j - fmtSize]?).getD '\x00'

theorem manyFound (n : Nat) : foundIn (manyArgs n) = List.replicate n ⟨0,'d'⟩ := by
  induction n with
  | zero => rfl
  | succ n ih =>
    rw [manyArgs,List.replicate_succ,List.flatten_cons,← manyArgs,foundIn,List.flatMap_append,
      ← foundIn,← foundIn,ih]
    rfl

theorem manyShown (n : Nat) (a : Args) : (shownBy event (foundIn (manyArgs n)) a).length = n := by
  rw [manyFound]
  induction n generalizing a with
  | zero => rfl
  | succ n ih =>
    rw [List.replicate_succ,shownBy,if_neg (by decide),List.length_cons,ih]

theorem holdsAt {fmt : Nat → Char} {p : Nat} {s : List Char}
    (cells : ∀ k, fmt (p + k) = (s[k]?).getD '\x00')
    (solid : ∀ c ∈ s, c ≠ '\x00') : Holds fmt p s := by
  induction s generalizing p with
  | nil => exact cells 0
  | cons c s ih =>
    refine ⟨cells 0,solid c (.head _),ih (fun k => ?_) fun d member => solid d (.tail _ member)⟩
    rw [Nat.add_assoc,Nat.add_comm 1]
    exact cells (k + 1)

theorem cutFull (cut : cutOff (readChars ps) = true) : (readChars ps).length = fmtSize - 1 := by
  rw [readChars,List.length_take]
  rcases Nat.le_total (fmtSize - 1) (charsOf ps).length with long | short
  · exact Nat.min_eq_left long
  · have whole := piecesCut (s := []) ps (by simp)
    rw [readChars,List.take_of_length_le short] at cut
    rw [List.append_nil] at whole
    rw [cutOff,whole] at cut
    cases cut

theorem manyRead (n : Nat) : cutFrom .text (charsOf (manyArgs n)) = false ∧
    conversions (charsOf (manyArgs n)) = foundIn (manyArgs n) := by
  have cut := piecesCut (s := []) (manyArgs n) (by simp)
  have read := piecesFound (manyArgs n) []
  rw [List.append_nil] at cut read
  rw [conversions,List.append_nil] at read
  exact ⟨cut,read⟩

/- Behind a format that is cut off, all that the stack holds is shown. -/
theorem crossedShows {fmt : Nat → Char} {n many : Nat} {s : List Char} {args : Args}
    (h : At fmt n 0 s) (cut : cutFrom .text s = true)
    (cells : ∀ k, fmt (n + 1 + k) = (('d'::charsOf (manyArgs many))[k]?).getD '\x00')
    (least : Nat) :
    ∃ k r, least ≤ k ∧ formatArgs (recorder fun _ => true) event fmt k 0 [] args = some r ∧
      many < (values r.1).length := by
  have endless : ∀ items : List Item, (fun _ => true) items = true := fun _ => rfl
  have at_ : At fmt (n + 2 + (charsOf (manyArgs many)).length) (n + 2)
      (charsOf (manyArgs many)) := by
    refine ⟨holdsAt (fun k => ?_) (charsSolid _),rfl⟩
    have place : n + 2 + k = n + 1 + (k + 1) := by omega
    rw [place]
    exact cells (k + 1)
  obtain ⟨whole,read⟩ := manyRead many
  let k := least + s.length + (charsOf (manyArgs many)).length + 1
  obtain ⟨left,out,args',enough,crossed⟩ :=
    @formatCrosses _ (recorder fun _ => true) event fmt n 0 s (argEndless endless) k [] args h cut
    (by omega)
  have letter : fmt (n + 1) = 'd' := cells 0
  have printed := @argEndless event (fun _ => true) endless out args' 'd'
  have rest := @formatRuns _ (recorder fun _ => true) event fmt _ _ _ left
      (appendVariadicArg (recorder fun _ => true) event out args' 'd').1.1
    (appendVariadicArg (recorder fun _ => true) event out args' 'd').2 at_ whole (by omega)
  refine ⟨k,_,by omega,
    by rw [crossed,convertArg,letter,if_neg (by decide),if_neg (by decide)]; simp only [printed,if_true]; exact rest,?_⟩
  have one : values (appendVariadicArg (recorder fun _ => true) event out args' 'd').1.1 =
      values out ++ [shownArg event args' 'd'] := by
    rcases (@argRecorded event (fun _ => true) out args' 'd' (.inr (by decide))).1
      with ⟨_,shown⟩ | ⟨failed,_⟩
    · exact shown
    · rw [printed] at failed
      cases failed
  rw [read,endlessShows endless foundKnown,List.length_append,manyShown,one,List.length_append,
    List.length_singleton]
  omega

/- The walk leaves the format and shows more than there are arguments. -/
theorem rightWhole (right : Right sig ps) (found : findFormatParamIndex sig = some i) :
    cutOff (readChars ps) = false := by
  have leads := (formatIndex found).mpr (rightLeads right found)
  have begins : Begins (twoFormats ps 0) (eventArgValue allFormat i) ps :=
    allFormatValue (formatRegister found) ▸ formatBegins ps 0
  cases cut : cutOff (readChars ps) with
  | false => rfl
  | true =>
    have full := cutFull cut
    have size : fmtSize = 192 := rfl
    have many : ∃ n, n = (assignedArgs allFormat ps (fixedArgs sig)).length := ⟨_,rfl⟩
    obtain ⟨n,many⟩ := many
    have cells : ∀ k, Cells.store (behindFormat n) 0 (readChars ps ++ ['\x00'])
        ((readChars ps).length + 1 + k) =
        (('d'::charsOf (manyArgs n))[k]?).getD '\x00' := fun k => by
      have distance : (readChars ps).length + 1 + k - fmtSize = k := by omega
      rw [Cells.storeBehind (by simp),behindFormat,distance]
    obtain ⟨k,r,enough,ran,more⟩ :=
      @crossedShows allFormat _ _ n _ (fixedArgs sig) (formatStarts (behindFormat n) ps) cut cells
      fmtSize
    obtain ⟨result,runs,shown,_⟩ :=
      right allFormat (twoFormats ps 0) (behindFormat n) (fun _ => true) fun j same => by
      rw [Option.some.inj (same.symm.trans found),BufferPreviews.assigned,leads]
      exact begins
    have same := runs k enough
    rw [appendsFound (recorder fun _ => true) found begins,ran] at same
    rw [← Option.some.inj same] at shown
    have fewer := shown.length_le
    omega

theorem rightFew (right : Right sig ps) (found : findFormatParamIndex sig = some i) :
    (fixedArgs sig).fpIndex + (readPieces (fmtSize - 1) ps).countP isFpPiece ≤ fpArgCount := by
  have leads := (formatIndex found).mpr (rightLeads right found)
  have low := formatRegister found
  obtain ⟨result,runs,shown,_⟩ :=
    right allFormat (twoFormats ps 0) (fun _ => 'x') (fun _ => true) fun j same => by
    rw [Option.some.inj (same.symm.trans found),BufferPreviews.assigned,leads,allFormatValue low]
    exact formatBegins ps _
  have ran := @runsToEnd sig allFormat (twoFormats ps 0) (fun _ => 'x') ps i (fun _ => true) found
    (allFormatValue low ▸ formatBegins ps 0) (rightWhole right found) fmtSize (Nat.le_refl _)
  rw [runs fmtSize (Nat.le_refl _)] at ran
  rw [Option.some.inj ran,endlessShows (fun _ => rfl) foundKnown] at shown
  exact (@shownRead sig allFormat ps).mp shown

/- The arguments that are shown are those of the calling convention exactly if the format's
parameter has the register of its position, at most eight floating-point numbers are read, and
what is read of the format is not cut off in a conversion. -/
theorem variadicArgsRight (sig : FuncSig) (ps : List Piece) :
    Right sig ps ↔ ∀ i, findFormatParamIndex sig = some i → Lasts sig ps i :=
  ⟨fun right _ found => ⟨rightLeads right found,rightFew right found,rightWhole right found⟩,
    lastsRight⟩

end Main

/- int printf(char *fmt, ...), and a function with a number in front of its format. -/
def printfSig : FuncSig :=
  ⟨['p','r','i','n','t','f'],⟨['i','n','t'],[],.int⟩,
    [⟨['c','h','a','r',' ','*'],['f','m','t'],.cstr⟩],by decide,true⟩

def emitSig : FuncSig :=
  ⟨['e','m','i','t'],⟨['i','n','t'],[],.int⟩,
    [⟨['d','o','u','b','l','e'],['x'],.double⟩,⟨['c','h','a','r',' ','*'],['f','m','t'],.cstr⟩],
    by decide,true⟩

def nineFloats : List Piece := (List.replicate 9 (single .f)).flatten

/- A conversion that what is read of the format ends in. -/
def lateInt : List Piece := List.replicate 190 (.text 0x61 (by decide) (by decide)) ++ single .d

/- The ninth number is shown as zero, the format is looked for in the wrong register, and the
format is left behind. -/
set_option maxRecDepth 8000 in
theorem variadicArgsWrong : ¬ Right printfSig nineFloats ∧ ¬ Right emitSig (single .d) ∧
    ¬ Right printfSig lateInt := by
  have first : findFormatParamIndex printfSig = some 0 := by decide
  have second : findFormatParamIndex emitSig = some 1 := by decide
  refine ⟨fun right => ?_,fun right => ?_,fun right => ?_⟩
  · exact absurd (rightFew right first) (by decide)
  · have leads := rightLeads right second .double (by decide)
    cases leads
  · exact absurd (rightWhole right first) (by decide)

end ZeroTrace.VariadicArgs
