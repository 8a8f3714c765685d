import ZeroTrace.CText
import ZeroTrace.ProbeTable
import ZeroTrace.Signatures
import ZeroTrace.TextRow

/-! A line of the signature file, taken apart in its buffer. -/
namespace ZeroTrace.SigLine
open CText Signatures TextRow
open BufferPreviews (SigType maxParams)
open ProbeTable (probeSymbolMax)

def declSize : Nat := 64
def nameSize : Nat := 32
def paramSize : Nat := 64

/- White space at the end becomes NULs, down to the first character. -/
def clearBack (s : Nat) : Nat → Row → Row
  | 0,l => l
  | e+1,l => if s < e + 1 ∧ l[e + 1]?.any isSpace = true then clearBack s e (l.set (e + 1) '\x00')
      else l

def trim (l : Row) (p : Nat) : Row × Nat :=
  let s := p + ((textAt l p).takeWhile isSpace).length
  if textAt l s = [] then (l,s) else (clearBack s (s + (textAt l s).length - 1) l,s)

def copyStr (size : Nat) (src : List Char) : List Char := src.take (size - 1)

def isIdent (c : Char) : Bool := c.isAlphanum || c == '_'

def findTrailingIdentSpan (spec : List Char) : Option (Nat × Nat) :=
  let end_ := backWhile isSpace spec spec.length
  let start := backWhile isIdent spec end_
  if start = end_ ∨ start = 0 then none else some (start,end_)

def stripParamName (spec : Row) : Row :=
  match findTrailingIdentSpan (textAt spec 0) with
  | none => spec
  | some span =>
    if spec[span.1 - 1]? = some '*' then spec.set span.1 '\x00'
    else spec.set (backWhile isSpace (textAt spec 0) span.1) '\x00'

def extractParamName (spec : List Char) (size : Nat) : List Char :=
  match findTrailingIdentSpan spec with
  | none => []
  | some span => (spec.drop span.1).take
      (if span.2 - span.1 ≥ size then size - 1 else span.2 - span.1)

def exactSigTypes : List (String × SigType) :=
  [("void",.void),("buffer",.buf),("const buffer",.constBuf),("float",.float),("double",.double),
    ("size_t",.size),("ssize_t",.ssize),
    ("unsigned long",.ulong),("time_t",.ulong),("long",.long),("off_t",.long),("int",
      .int),("unsigned int",.int),("pid_t",.int),
    ("mode_t",.int),("uid_t",.int),("gid_t",.int),("socklen_t",.int)]

def parseSigType (decl : List Char) : SigType :=
  if decl = [] then .unknown
  else match exactSigTypes.find? fun exact => decl == exact.1.toList with
    | some exact => exact.2
    | none =>
      if (strstr decl 0 "char *".toList).isSome then .cstr
      else if (strchr decl 0 '*').isSome then .ptr
      else .unknown

def parseParam (trimmed : List Char) : SigParam :=
  let buf := copyStr paramSize trimmed
  let stripped := trim (stripParamName (buf ++ ['\x00'])) 0
  let decl := copyStr declSize (textAt stripped.1 stripped.2)
  ⟨decl,extractParamName buf nameSize,parseSigType decl⟩

/- What is known of the signature so far. -/
structure Parsed where
  params : List SigParam
  few : params.length ≤ maxParams
  variadic : Bool

def dots : List Char := ['.','.','.']

def Parsed.add (parsed : Parsed) (trimmed : List Char) : Parsed :=
  if trimmed = dots then ⟨parsed.params,parsed.few,true⟩
  else if room : trimmed ≠ [] ∧ parsed.params.length < maxParams then
    ⟨parsed.params ++ [parseParam trimmed],by rw [List.length_append]; exact room.2,parsed.variadic⟩
  else parsed

def Parsed.sig (parsed : Parsed) (symbol ret : List Char) : FuncSig :=
  ⟨symbol,⟨ret,[],parseSigType ret⟩,parsed.params,parsed.few,parsed.variadic⟩

theorem clearLength (s e : Nat) (l : Row) : (clearBack s e l).length = l.length := by
  induction e generalizing l with
  | zero => rfl
  | succ e ih =>
    rw [clearBack]
    split
    · rw [ih,List.length_set]
    · rfl

theorem trimLength (l : Row) (p : Nat) : (trim l p).1.length = l.length := by
  unfold trim
  simp only
  split
  · rfl
  · exact clearLength _ _ l

def parseParams (l : Row) (p : Nat) (parsed : Parsed) : Row × Parsed :=
  match _found : (strtok l p ',').2 with
  | none => ((strtok l p ',').1,parsed)
  | some token =>
    let trimmed := trim (strtok l p ',').1 token.start
    parseParams trimmed.1 token.save (parsed.add (textAt trimmed.1 trimmed.2))
termination_by l.length - p
decreasing_by
  have further := tokenFurther _found
  rw [trimLength,tokenLength]
  omega

def parseSigLine (line : Row) : Option FuncSig :=
  match strchr line 0 '(',strrchr line 0 ')',strstr line 0 ['-','>'] with
  | some openParen,some closeParen,some arrow =>
    if closeParen < openParen then none
    else
      let name := trim (line.set openParen '\x00') 0
      let symbol := copyStr probeSymbolMax (textAt name.1 name.2)
      if symbol = [] then none
      else
        let parsed := parseParams (name.1.set closeParen '\x00') (openParen + 1) ⟨[],Nat.zero_le _,
          false⟩
        let ret := trim parsed.1 (arrow + 2)
        some (parsed.2.sig symbol (copyStr declSize (textAt ret.1 ret.2)))
  | _,_,_ => none

/-! White space at the two ends of a text. -/
def trimmed (s : List Char) : List Char := (skipSpaces s).rdropWhile isSpace

structure Tight (s : List Char) : Prop where
  front : ∀ c, s.head? = some c → isSpace c = false
  back : ∀ c, s.getLast? = some c → isSpace c = false

section
variable {g g' w t u v z : List Char} {c : Char} {l : Row}

theorem trimmedIs (before : Blank g) (tight : Tight w) (behind : Blank g') :
    trimmed (g ++ (w ++ g')) = w := by
  cases w with
  | nil =>
    have all : Blank (g ++ g') :=
      fun c member => (List.mem_append.mp member).elim (before c) (behind c)
    have nothing : skipSpaces (g ++ ([] ++ g')) = [] := List.dropWhile_eq_nil_iff.mpr all
    rw [trimmed,nothing]
    rfl
  | cons c w =>
    have first : skipSpaces (c::w ++ g') = c::w ++ g' := skipPlain fun d head => tight.front d head
    rw [trimmed,skipBlank before,first]
    induction g' using List.reverseRecOn with
    | nil =>
      rw [List.append_nil]
      refine List.rdropWhile_eq_self_iff.mpr fun some_ last => ?_
      rw [tight.back _ (List.getLast?_eq_some_getLast some_)] at last
      cases last
    | append_singleton g' d ih =>
      rw [← List.append_assoc,List.rdropWhile_concat_pos _ _ _ (behind d (by simp))]
      exact ih (fun e member => behind e (List.mem_append_left _ member))
        (skipPlain fun e head => tight.front e head)

theorem clearStop (s : Nat) (l : Row) : clearBack s s l = l := by
  cases s with
  | zero => rfl
  | succ s => rw [clearBack,if_neg fun both => Nat.lt_irrefl _ both.1]

theorem clearNext (a : Row) (some_ : w ≠ []) (c : Char) (z : Row) :
    clearBack a.length (a.length + w.length) (a ++ (w ++ c::z)) =
    if isSpace c = true then clearBack a.length (a.length + w.length - 1) (a ++ (w ++ '\x00'::z))
      else a ++ (w ++ c::z) := by
  have length := List.length_pos_iff.mpr some_
  obtain ⟨e,place⟩ : ∃ e, a.length + w.length = e + 1 := ⟨a.length + w.length - 1,by omega⟩
  have length' : (a ++ w).length = e + 1 := by rw [List.length_append,place]
  have here : (a ++ w ++ c::z)[e + 1]? = some c := by
    rw [← length',List.getElem?_append_right (Nat.le_refl _),Nat.sub_self]
    rfl
  have cut : (a ++ w ++ c::z).set (e + 1) '\x00' = a ++ w ++ '\x00'::z := by
    rw [← length',setBehind]
  have low : a.length < e + 1 := by omega
  rw [← List.append_assoc,← List.append_assoc,place,clearBack,here,cut,Option.any_some]
  simp only [low,true_and,Nat.add_sub_cancel]

theorem cleared (a : Row) (first : ∀ c, w.head? = some c → isSpace c = false) (some_ : w ≠ [])
    (z : Row) :
    ∃ nuls, nuls.length + (w.rdropWhile isSpace).length = w.length ∧
      clearBack a.length (a.length + w.length - 1) (a ++ (w ++ '\x00'::z)) =
        a ++ (w.rdropWhile isSpace ++ (nuls ++ '\x00'::z)) ∧
      ∀ c ∈ nuls, c = '\x00' := by
  induction w using List.reverseRecOn generalizing z with
  | nil => exact absurd rfl some_
  | append_singleton w c ih =>
    have last : a.length + (w ++ [c]).length - 1 = a.length + w.length := by
      rw [List.length_append]; rfl
    have row : a ++ ((w ++ [c]) ++ '\x00'::z) = a ++ (w ++ c :: '\x00'::z) := by simp
    rw [last,row]
    by_cases single : w = []
    · subst single
      have kept : ([] ++ [c]).rdropWhile isSpace = [c] :=
        List.rdropWhile_concat_neg _ _ _ (by rw [first c rfl]; simp)
      rw [kept]
      exact ⟨[],rfl,clearStop _ _,by simp⟩
    · rw [clearNext a single]
      cases space : isSpace c with
      | false =>
        rw [List.rdropWhile_concat_neg _ _ _ (by rw [space]; simp),if_neg (by simp)]
        exact ⟨[],Nat.zero_add _,by simp,by simp⟩
      | true =>
        obtain ⟨nuls,length,same,all⟩ :=
          ih (fun d head => first d (by rw [List.head?_append,head]; rfl)) single ('\x00'::z)
        rw [List.rdropWhile_concat_pos _ _ _ space,if_pos rfl,same]
        refine ⟨nuls ++ ['\x00'],?_,by simp,fun d member => ?_⟩
        · simp only [List.length_append,List.length_singleton]
          omega
        · exact (List.mem_append.mp member).elim (all d) List.mem_singleton.mp

theorem textNuls (solid : '\x00' ∉ t) (nuls : ∀ c ∈ u, c = '\x00') :
    textAt (t ++ (u ++ '\x00'::z)) 0 = t := by
  cases u with
  | nil => exact textHere solid
  | cons c u =>
    rw [nuls c (.head _)]
    exact textHere solid

theorem trimRow (a : Row) (solid : '\x00' ∉ t) (z : Row) : ∃ t', t'.length = t.length ∧
    (trim (a ++ (t ++ '\x00'::z)) a.length).1 = a ++ (t' ++ '\x00'::z) ∧
    textAt (trim (a ++ (t ++ '\x00'::z)) a.length).1 (trim (a ++ (t ++ '\x00'::z)) a.length).2 =
      trimmed t := by
  obtain ⟨g,blank,parts⟩ := skipFront t
  have front : t.takeWhile isSpace = g := by
    have whole := @List.takeWhile_append_dropWhile _ isSpace t
    exact List.append_cancel_right (whole.trans parts)
  have row : a ++ (t ++ '\x00'::z) = (a ++ g) ++ (skipSpaces t ++ '\x00'::z) := by
    conv => lhs; rw [parts]
    simp
  have inner : '\x00' ∉ skipSpaces t :=
    fun inside => solid (by rw [parts]; exact List.mem_append_right _ inside)
  have text := textBehind a solid (z := z)
  have rest := textBehind (a ++ g) inner (z := z)
  rw [← row,List.length_append] at rest
  rw [trim,text,front]
  simp only [rest]
  by_cases empty : skipSpaces t = []
  · rw [if_pos empty]
    refine ⟨t,rfl,rfl,?_⟩
    rw [rest,trimmed,empty]
    rfl
  · rw [if_neg empty,row,← List.length_append]
    have head : ∀ c, (skipSpaces t).head? = some c → isSpace c = false := fun c first => by
      have stops := List.head?_dropWhile_not isSpace t
      rw [← skipSpaces,first] at stops
      simpa using stops
    obtain ⟨nuls,length,same,all⟩ := cleared (a ++ g) head empty z
    rw [same,textFrom]
    refine ⟨g ++ (trimmed t ++ nuls),?_,by simp [trimmed],
      textNuls (fun inside => inner ((List.rdropWhile_prefix _ _).subset inside)) all⟩
    conv => rhs; rw [parts]
    simp only [List.length_append,trimmed]
    omega

/-! The parameters, one token after the other. -/
theorem paramsTurn (l : Row) (p : Nat) (parsed : Parsed) :
    parseParams l p parsed = match (strtok l p ',').2 with
    | none => ((strtok l p ',').1,parsed)
    | some token =>
      let trimmed := trim (strtok l p ',').1 token.start
      parseParams trimmed.1 token.save (parsed.add (textAt trimmed.1 trimmed.2)) := by
  rw [parseParams]
  split
  · next found => rw [found]
  · next found => rw [found]

theorem paramsOver (a z : Row) (parsed : Parsed) :
    parseParams (a ++ '\x00'::z) a.length parsed = (a ++ '\x00'::z,parsed) := by
  have nothing : textAt (a ++ '\x00'::z) a.length = [] := @textBehind [] z a (by simp)
  rw [paramsTurn,tokenNone nothing]

structure Item (t : List Char) : Prop where
  some_ : t ≠ []
  solid : '\x00' ∉ t
  whole : ',' ∉ t

theorem joinedWithout {ts : List (List Char)} (other : c ≠ ',') (each : ∀ t ∈ ts, c ∉ t) :
    c ∉ [','].intercalate ts := by
  induction ts with
  | nil => simp
  | cons t ts ih =>
    have rest := ih fun u member => each u (.tail _ member)
    cases ts with
    | nil => simpa using each t (.head _)
    | cons u ts =>
      rw [List.intercalate_cons_cons,List.append_assoc]
      exact List.not_mem_append (each t (.head _)) (List.not_mem_append (by simpa using other) rest)

theorem paramsRun {ts : List (List Char)} (each : ∀ t ∈ ts, Item t) (a z : Row) (parsed : Parsed) :
    ∃ b, b.length = ([','].intercalate ts).length ∧
      parseParams (a ++ ([','].intercalate ts ++ '\x00'::z)) a.length parsed =
        (a ++ (b ++ '\x00'::z),ts.foldl (fun p t => p.add (trimmed t)) parsed) := by
  induction ts generalizing a parsed with
  | nil => exact ⟨[],rfl,paramsOver a z parsed⟩
  | cons t ts ih =>
    obtain ⟨some_,solid,whole⟩ := each t (.head _)
    have rest := fun u member => each u (.tail _ member)
    cases ts with
    | nil =>
      obtain ⟨t',length,row,text⟩ := trimRow a solid z
      refine ⟨t',by rw [List.intercalate_singleton]; exact length,?_⟩
      have behind : a.length + t.length = (a ++ t').length := by rw [List.length_append,length]
      rw [paramsTurn,List.intercalate_singleton,tokenText a some_ solid whole z]
      simp only
      rw [text,row,behind,← List.append_assoc,paramsOver]
      rfl
    | cons u ts =>
      obtain ⟨t',length,row,text⟩ := trimRow a solid ([','].intercalate (u::ts) ++ '\x00'::z)
      obtain ⟨b,same,run⟩ := ih rest (a ++ (t' ++ ['\x00'])) (parsed.add (trimmed t))
      have apart : [','].intercalate (t::u::ts) ++ '\x00'::z =
          t ++ ','::([','].intercalate (u::ts) ++ '\x00'::z) := by
        rw [List.intercalate_cons_cons]
        simp
      have behind : a.length + t.length + 1 = (a ++ (t' ++ ['\x00'])).length := by
        simp only [List.length_append,List.length_singleton,length]
        omega
      have joined : a ++ (t' ++ '\x00'::([','].intercalate (u::ts) ++ '\x00'::z)) =
          (a ++ (t' ++ ['\x00'])) ++ ([','].intercalate (u::ts) ++ '\x00'::z) := by simp
      refine ⟨t' ++ '\x00'::b,?_,?_⟩
      · rw [List.intercalate_cons_cons]
        simp only [List.length_append,List.length_cons,List.length_nil,length,same]
        omega
      · rw [apart,paramsTurn,
          tokenCut a some_ solid whole (by decide)
            (joinedWithout (by decide) fun v member => (rest v member).solid) z]
        simp only
        rw [text,row,behind,joined,run]
        simp

end

end ZeroTrace.SigLine
