import ZeroTrace.SigLine

/-! Signatures as they are written, with any white space around what keeps their parts apart. A
line is read as the signature that it was written from. -/
namespace ZeroTrace.SigRoundTrip
open CText Signatures TextRow SigLine
open BufferPreviews (maxParams)
open ProbeTable (probeSymbolMax)

/- Where a line ends, or is taken apart. -/
def cuts : List Char := ['\x00','(',')',',']

structure Plain (s : List Char) : Prop where
  whole : ∀ c ∈ cuts, c ∉ s
  arrow : ¬ ['-','>'] <:+: s

/- The name stands behind white space or a star. -/
structure ParamText where
  type : List Char
  gap : List Char
  name : List Char
  plain : Plain type
  tight : Tight type
  typed : type ≠ []
  blank : Blank gap
  behind : gap ≠ [] ∨ type.getLast? = some '*'
  named : name ≠ []
  ident : ∀ c ∈ name, isIdent c = true
  shortName : name.length < nameSize
  short : (type ++ (gap ++ name)).length < paramSize

def ParamText.chars (p : ParamText) : List Char := p.type ++ (p.gap ++ p.name)

def ParamText.param (p : ParamText) : SigParam := ⟨p.type,p.name,parseSigType p.type⟩

structure SigText where
  symbol : List Char
  some_ : symbol ≠ []
  plain : Plain symbol
  solid : ∀ c ∈ symbol, isSpace c = false
  short : symbol.length < probeSymbolMax
  params : List ParamText
  few : params.length ≤ maxParams
  variadic : Bool
  ret : List Char
  plainRet : Plain ret
  tightRet : Tight ret
  shortRet : ret.length < declSize

abbrev Gap := {g : List Char // Blank g}

structure Spacing where
  front : Gap
  symbol : Gap
  around : Nat → Gap × Gap
  params : Gap
  arrow : Gap
  back : Gap

def spaced (around : Nat → Gap × Gap) : Nat → List (List Char) → List (List Char)
  | _,[] => []
  | i,t::ts => ((around i).1.val ++ (t ++ (around i).2.val))::spaced around (i + 1) ts

section
variable (s : SigText) (sp : Spacing)

def SigText.items : List (List Char) :=
  s.params.map ParamText.chars ++ if s.variadic then [dots] else []

/- Where there are no parameters there may still be white space. -/
def SigText.texts : List (List Char) := if s.items = [] then [[]] else s.items

def SigText.body : List Char := [','].intercalate (spaced sp.around 0 s.texts)

def SigText.head : List Char := sp.front.val ++ (s.symbol ++ sp.symbol.val)

def SigText.tail : List Char := sp.arrow.val ++ (s.ret ++ sp.back.val)

def SigText.line : List Char :=
  s.head sp ++ '('::(s.body sp ++ ')'::(sp.params.val ++ '-':: '>'::s.tail sp))

def SigText.sig : FuncSig :=
  ⟨s.symbol,⟨s.ret,[],parseSigType s.ret⟩,s.params.map ParamText.param,
    by rw [List.length_map]; exact s.few,s.variadic⟩

end

section
variable {c : Char} {g t : List Char}

theorem identNoSpace (ident : isIdent c = true) : isSpace c = false := by
  cases space : isSpace c with
  | false => rfl
  | true =>
    simp only [isSpace,Bool.or_eq_true,beq_iff_eq] at space
    rcases space with ((((rfl | rfl) | rfl) | rfl) | rfl) | rfl <;> cases ident

theorem cutSolid (cut : c ∈ cuts) : isSpace c = false := by
  have all : cuts.all (fun c => !isSpace c) = true := by decide
  simpa using List.all_eq_true.mp all c cut

theorem cutOther (cut : c ∈ cuts) : isIdent c = false := by
  have all : cuts.all (fun c => !isIdent c) = true := by decide
  simpa using List.all_eq_true.mp all c cut

theorem blankWithout (blank : Blank g) (solid : isSpace c = false) : c ∉ g := fun inside => by
  rw [blank c inside] at solid
  cases solid

theorem gapWithout (g : Gap) (solid : isSpace c = false) : c ∉ g.val :=
  blankWithout g.property solid

theorem aroundWithout {g g' : List Char} (before : c ∉ g) (without : c ∉ t)
    (behind : c ∉ g') : c ∉ g ++ (t ++ g') :=
  List.not_mem_append before (List.not_mem_append without behind)

theorem aroundApart (g g' : Gap)
    (apart : Apart '-' '>' t) : Apart '-' '>' (g.val ++ (t ++ g'.val)) :=
  apartFront (gapWithout g rfl) (apartBehind apart (gapWithout g' rfl))

theorem trimmedAround (g g' : Gap) (tight : Tight t) : trimmed (g.val ++ (t ++ g'.val)) = t :=
  trimmedIs g.property tight g'.property

theorem trimmedSelf (tight : Tight t) : trimmed t = t := by
  have same := @trimmedIs [] [] t (by simp [Blank]) tight (by simp [Blank])
  rwa [List.nil_append,List.append_nil] at same

theorem solidTight (solid : ∀ c ∈ t, isSpace c = false) : Tight t :=
  ⟨fun c head => solid c (List.mem_of_head? head),fun c last => solid c (List.mem_of_getLast? last)⟩

theorem copyWhole {size : Nat} (short : t.length < size) : copyStr size t = t :=
  List.take_of_length_le (by omega)

theorem lastHere {u v : List Char} (some_ : u ≠ []) : (u ++ v)[u.length - 1]? = u.getLast? := by
  have length := List.length_pos_iff.mpr some_
  rw [List.getElem?_append_left (by omega),List.getLast?_eq_getElem?]

end

section
variable (p : ParamText)

theorem paramLast : ∃ c, p.chars.getLast? = some c ∧ isIdent c = true := by
  have some_ : p.gap ++ p.name ≠ [] := fun none => p.named (List.append_eq_nil_iff.mp none).2
  refine ⟨p.name.getLast p.named,?_,p.ident _ (List.getLast_mem _)⟩
  rw [ParamText.chars,List.getLast?_append_of_ne_nil _ some_,
    List.getLast?_append_of_ne_nil _ p.named,List.getLast?_eq_some_getLast p.named]

theorem paramTight : Tight p.chars where
  front c head := by
    rw [ParamText.chars,List.head?_append_of_ne_nil _ p.typed] at head
    exact p.tight.front c head
  back c last := by
    obtain ⟨d,same,ident⟩ := paramLast p
    rw [same] at last
    cases last
    exact identNoSpace ident

theorem paramSome : p.chars ≠ [] := fun none => p.typed (List.append_eq_nil_iff.mp none).1

theorem paramNoDots : p.chars ≠ dots := fun same => by
  obtain ⟨c,last,ident⟩ := paramLast p
  rw [same] at last
  cases last
  cases ident

theorem paramWithout {c : Char} (cut : c ∈ cuts) : c ∉ p.chars := by
  refine aroundWithout (p.plain.whole c cut) (blankWithout p.blank (cutSolid cut)) fun inside => ?_
  have ident := p.ident c inside
  rw [cutOther cut] at ident
  cases ident

theorem paramApart : Apart '-' '>' p.chars := by
  have name : '>' ∉ p.name := fun inside => absurd (p.ident _ inside) (by decide)
  exact apartBehind (apartOf p.plain.arrow) (List.not_mem_append (blankWithout p.blank rfl) name)

theorem beforeName : ∀ c, (p.type ++ p.gap).getLast? = some c → isIdent c = false := by
  intro c last
  by_cases empty : p.gap = []
  · rw [empty,List.append_nil,p.behind.resolve_left (not_not_intro empty)] at last
    cases last
    rfl
  · rw [List.getLast?_append_of_ne_nil _ empty] at last
    have space := p.blank c (List.mem_of_getLast? last)
    cases ident : isIdent c with
    | false => rfl
    | true => rw [identNoSpace ident] at space; cases space

theorem nameSpan : findTrailingIdentSpan p.chars =
    some ((p.type ++ p.gap).length,p.chars.length) := by
  have chars : p.chars = (p.type ++ p.gap) ++ (p.name ++ []) := by simp [ParamText.chars]
  have end_ : backWhile isSpace p.chars p.chars.length = p.chars.length := by
    have over_ := @backOver p.chars [] isSpace [] (by simp) fun c last => (paramTight p).back c last
    rwa [List.append_nil,List.append_nil,List.length_nil,Nat.add_zero] at over_
  have start : backWhile isIdent p.chars p.chars.length = (p.type ++ p.gap).length := by
    have over_ := backOver [] p.ident (beforeName p)
    have length : p.chars.length = (p.type ++ p.gap).length + p.name.length := by
      rw [chars,List.append_nil,List.length_append]
    rwa [← chars,← length] at over_
  have some_ := List.length_pos_iff.mpr p.named
  have typed := List.length_pos_iff.mpr p.typed
  have other : ¬ ((p.type ++ p.gap).length = p.chars.length ∨ (p.type ++ p.gap).length = 0) := by
    rw [chars]
    simp only [List.length_append,List.length_nil]
    omega
  rw [findTrailingIdentSpan,end_,start]
  exact if_neg other

theorem nameExtracted : extractParamName p.chars nameSize = p.name := by
  have chars : p.chars = (p.type ++ p.gap) ++ p.name := by simp [ParamText.chars]
  have length : p.chars.length - (p.type ++ p.gap).length = p.name.length := by
    rw [chars,List.length_append,Nat.add_sub_cancel_left]
  have fits : ¬ p.name.length ≥ nameSize := Nat.not_le.mpr p.shortName
  rw [extractParamName,nameSpan]
  simp only [length,if_neg fits]
  rw [chars,List.drop_left,List.take_length]

theorem nameStripped : ∃ rest, stripParamName (p.chars ++ ['\x00']) = p.type ++ '\x00'::rest := by
  have text : textAt (p.chars ++ ['\x00']) 0 = p.chars := textHere (paramWithout p (.head _))
  have row : p.chars ++ ['\x00'] = (p.type ++ p.gap) ++ (p.name ++ ['\x00']) := by
    simp [ParamText.chars]
  have some_ : p.type ++ p.gap ≠ [] := fun none => p.typed (List.append_eq_nil_iff.mp none).1
  have last : (p.chars ++ ['\x00'])[(p.type ++ p.gap).length - 1]? = (p.type ++ p.gap).getLast? :=
    by rw [row,lastHere some_]
  have cut : ∀ u, u ≠ [] → ∃ rest, (p.type ++ u).set p.type.length '\x00' =
      p.type ++ '\x00'::rest := fun u more => by
    obtain ⟨c,v,rfl⟩ := List.exists_cons_of_ne_nil more
    exact ⟨v,setBehind p.type c '\x00' v⟩
  rw [stripParamName,text,nameSpan]
  simp only [last]
  by_cases empty : p.gap = []
  · have star := p.behind.resolve_left (not_not_intro empty)
    have whole : p.chars ++ ['\x00'] = p.type ++ (p.name ++ ['\x00']) := by
      rw [row,empty,List.append_nil]
    rw [empty,List.append_nil,if_pos star,whole]
    exact cut _ (by simp)
  · have space : (p.type ++ p.gap).getLast? ≠ some '*' := by
      rw [List.getLast?_append_of_ne_nil _ empty]
      exact fun same => blankWithout p.blank rfl (List.mem_of_getLast? same)
    have back : backWhile isSpace p.chars (p.type ++ p.gap).length = p.type.length := by
      rw [List.length_append]
      exact backOver p.name p.blank p.tight.back
    have whole : p.chars ++ ['\x00'] = p.type ++ (p.gap ++ (p.name ++ ['\x00'])) := by
      rw [row,List.append_assoc]
    rw [if_neg space,back,whole]
    exact cut _ (by simp)

theorem paramParsed : parseParam p.chars = p.param := by
  obtain ⟨rest,stripped⟩ := nameStripped p
  obtain ⟨t,_,_,text⟩ := trimRow [] (p.plain.whole '\x00' (.head _)) rest
  have short : p.type.length < declSize := by
    have all := p.short
    rw [List.length_append] at all
    exact Nat.lt_of_le_of_lt (Nat.le_add_right _ _) all
  rw [List.nil_append,List.length_nil,trimmedSelf p.tight] at text
  have whole : copyStr paramSize p.chars = p.chars := copyWhole p.short
  rw [parseParam,whole,stripped]
  simp only [text,copyWhole short,nameExtracted]
  rfl

end

section
variable {ts : List (List Char)} {parsed : Parsed}

theorem addDots : parsed.add dots = ⟨parsed.params,parsed.few,true⟩ := by rw [Parsed.add,if_pos rfl]

theorem addNothing : parsed.add [] = parsed := by
  rw [Parsed.add,if_neg (by decide),dif_neg fun room => room.1 rfl]

theorem addSolid {t : List Char} (other : t ≠ dots) (some_ : t ≠ [])
    (room : parsed.params.length < maxParams) :
    (parsed.add t).params = parsed.params ++ [parseParam t] ∧
      (parsed.add t).variadic = parsed.variadic := by
  rw [Parsed.add,if_neg other,dif_pos ⟨some_,room⟩]
  exact ⟨rfl,rfl⟩

theorem addParam (p : ParamText) (room : parsed.params.length < maxParams) :
    (parsed.add p.chars).params = parsed.params ++ [p.param] ∧
      (parsed.add p.chars).variadic = parsed.variadic := by
  rw [← paramParsed p]
  exact addSolid (paramNoDots p) (paramSome p) room

theorem addParams (ps : List ParamText) (room : parsed.params.length + ps.length ≤ maxParams) :
    ((ps.map ParamText.chars).foldl Parsed.add parsed).params =
      parsed.params ++ ps.map ParamText.param ∧
    ((ps.map ParamText.chars).foldl Parsed.add parsed).variadic = parsed.variadic := by
  induction ps generalizing parsed with
  | nil => simp
  | cons p ps ih =>
    rw [List.length_cons] at room
    obtain ⟨params,variadic⟩ := @addParam parsed p (by omega)
    have rest := @ih (parsed.add p.chars)
        (by rw [params,List.length_append,List.length_singleton]; omega)
    rw [params,variadic] at rest
    rw [List.map_cons,List.foldl_cons,List.map_cons]
    exact ⟨by rw [rest.1,List.append_assoc]; rfl,rest.2⟩

theorem spacedFold (around : Nat → Gap × Gap) (i : Nat) (tight : ∀ t ∈ ts, Tight t) :
    (spaced around i ts).foldl (fun p t => p.add (trimmed t)) parsed =
      ts.foldl Parsed.add parsed := by
  induction ts generalizing i parsed with
  | nil => rfl
  | cons t ts ih =>
    rw [spaced,List.foldl_cons,List.foldl_cons,trimmedAround _ _ (tight t (.head _))]
    exact ih (i + 1) fun u member => tight u (.tail _ member)

theorem spacedEach {ok : List Char → Prop} (around : Nat → Gap × Gap) (i : Nat)
    (each : ∀ t ∈ ts, ∀ g g' : Gap, ok (g.val ++ (t ++ g'.val))) :
    ∀ t ∈ spaced around i ts, ok t := by
  induction ts generalizing i with
  | nil => simp [spaced]
  | cons t ts ih =>
    intro u member
    rcases List.mem_cons.mp member with rfl | later
    · exact each t (.head _) _ _
    · exact ih (i + 1) (fun v inside => each v (.tail _ inside)) u later

theorem joinedApart (each : ∀ t ∈ ts, Apart '-' '>' t) : Apart '-' '>' ([','].intercalate ts) := by
  induction ts with
  | nil => exact .nil
  | cons t ts ih =>
    have rest := ih fun u member => each u (.tail _ member)
    cases ts with
    | nil => simpa using each t (.head _)
    | cons u ts =>
      have comma : ([',','>'].contains '>') = true := rfl
      rw [List.intercalate_cons_cons,List.append_assoc]
      exact apartAppend (each t (.head _)) (apartFront (by decide) rest) (.inr (by simp))

end

section
variable (s : SigText) (sp : Spacing)

theorem itemCases {t : List Char} (member : t ∈ s.items) : (∃ p, t = ParamText.chars p) ∨
    t = dots := by
  rcases List.mem_append.mp member with param | last
  · obtain ⟨p,_,rfl⟩ := List.mem_map.mp param
    exact .inl ⟨p,rfl⟩
  · split at last
    · exact .inr (List.mem_singleton.mp last)
    · cases last

theorem dotsTight : Tight dots := solidTight (by simp [dots,isSpace])

theorem textCases {t : List Char} (member : t ∈ s.texts) : (∃ p, t = ParamText.chars p) ∨ t = dots ∨
    t = [] := by
  unfold SigText.texts at member
  split at member
  · exact .inr (.inr (List.mem_singleton.mp member))
  · exact (itemCases s member).imp_right .inl

theorem textTight : ∀ t ∈ s.texts, Tight t := by
  intro t member
  rcases textCases s member with ⟨p,rfl⟩ | rfl | rfl
  · exact paramTight p
  · exact dotsTight
  · exact ⟨by simp,by simp⟩

theorem textWithout {c : Char} (cut : c ∈ cuts) : ∀ t ∈ s.texts, c ∉ t := by
  intro t member
  rcases textCases s member with ⟨p,rfl⟩ | rfl | rfl
  · exact paramWithout p cut
  · have all : cuts.all (fun c => !dots.contains c) = true := by decide
    simpa using List.all_eq_true.mp all c cut
  · simp

theorem textApart : ∀ t ∈ s.texts, Apart '-' '>' t := by
  intro t member
  rcases textCases s member with ⟨p,rfl⟩ | rfl | rfl
  · exact paramApart p
  · exact apartWithout (by decide)
  · exact .nil

theorem bodyWithout {c : Char} (cut : c ∈ cuts) (other : c ≠ ',') : c ∉ s.body sp :=
  joinedWithout other (spacedEach _ 0 fun t member g g' =>
    aroundWithout (gapWithout g (cutSolid cut)) (textWithout s cut t member)
      (gapWithout g' (cutSolid cut)))

theorem bodyApart : Apart '-' '>' (s.body sp) :=
  joinedApart (spacedEach _ 0 fun t member g g' => aroundApart g g' (textApart s t member))

theorem headWithout {c : Char} (cut : c ∈ cuts) : c ∉ s.head sp :=
  aroundWithout (gapWithout _ (cutSolid cut)) (s.plain.whole c cut) (gapWithout _ (cutSolid cut))

theorem tailWithout {c : Char} (cut : c ∈ cuts) : c ∉ s.tail sp :=
  aroundWithout (gapWithout _ (cutSolid cut)) (s.plainRet.whole c cut) (gapWithout _ (cutSolid cut))

theorem textsAdded : s.texts.foldl Parsed.add ⟨[],Nat.zero_le _,false⟩ =
    ⟨s.params.map ParamText.param,s.sig.few,s.variadic⟩ := by
  have params := @addParams ⟨[],Nat.zero_le _,false⟩ s.params
      (by rw [List.length_nil,Nat.zero_add]; exact s.few)
  have items : s.texts.foldl Parsed.add ⟨[],Nat.zero_le _,false⟩ =
      s.items.foldl Parsed.add ⟨[],Nat.zero_le _,false⟩ := by
    unfold SigText.texts
    split
    · next none => rw [none]; rfl
    · rfl
  rw [items,SigText.items,List.foldl_append]
  generalize before : (s.params.map ParamText.chars).foldl Parsed.add ⟨[],Nat.zero_le _,false⟩ =
    parsed at params
  obtain ⟨ps,few,variadic⟩ := parsed
  obtain ⟨rfl,rfl⟩ := params
  cases s.variadic with
  | true => exact addDots
  | false => rfl

theorem itemSome {t : List Char} (member : t ∈ s.items) : t ≠ [] := by
  rcases itemCases s member with ⟨p,rfl⟩ | rfl
  · exact paramSome p
  · decide

/- A text is empty only where it is the only one. -/
theorem spacedEmpty (none : [] ∈ spaced sp.around 0 s.texts) : spaced sp.around 0 s.texts =
    [[]] := by
  unfold SigText.texts at none ⊢
  split at none
  · next empty =>
    rw [if_pos empty]
    exact congrArg (·::[]) (List.mem_singleton.mp none).symm
  · refine absurd rfl
      (@spacedEach _ (fun t => t ≠ []) sp.around 0
      (fun t member g g' nothing => itemSome s member ?_) [] none)
    exact (List.append_eq_nil_iff.mp (List.append_eq_nil_iff.mp nothing).2).1

theorem bodyRun (a z : Row) : ∃ b, b.length = (s.body sp).length ∧
    parseParams (a ++ (s.body sp ++ '\x00'::z)) a.length ⟨[],Nat.zero_le _,false⟩ =
      (a ++ (b ++ '\x00'::z),⟨s.params.map ParamText.param,s.sig.few,s.variadic⟩) := by
  have whole := fun c (cut : c ∈ cuts) =>
      @spacedEach _ (fun t => c ∉ t) sp.around 0 fun t member g g' =>
    aroundWithout (gapWithout g (cutSolid cut)) (textWithout s cut t member)
      (gapWithout g' (cutSolid cut))
  rw [← textsAdded,← spacedFold sp.around 0 (textTight s)]
  by_cases empty : [] ∈ spaced sp.around 0 s.texts
  · have only := spacedEmpty s sp empty
    rw [SigText.body,only]
    refine ⟨[],rfl,?_⟩
    have nothing : trimmed [] = [] := rfl
    rw [List.intercalate_singleton,List.foldl_cons,nothing,addNothing]
    exact paramsOver a z _
  · exact paramsRun (fun t member =>
      ⟨fun none => empty (none ▸ member),whole _ (.head _) t member,whole ',' (by decide) t member⟩)
      a z _

end

/-! What stands before, between and behind the parentheses. -/
section
variable {head body gap tail : List Char}

def parts (head body gap tail : List Char) : List Char :=
  head ++ '('::(body ++ ')'::(gap ++ '-':: '>'::tail))

theorem partsFound (solid : '\x00' ∉ parts head body gap tail) (first : '(' ∉ head)
    (last : ')' ∉ gap ++ '-':: '>'::tail)
    (front : Apart '-' '>' (head ++ '('::(body ++ ')'::gap))) (rest : Row) :
    strchr (parts head body gap tail ++ '\x00'::rest) 0 '(' = some head.length ∧
    strrchr (parts head body gap tail ++ '\x00'::rest) 0 ')' = some (head ++ '('::body).length ∧
    strstr (parts head body gap tail ++ '\x00'::rest) 0 ['-','>'] =
      some (head ++ '('::(body ++ ')'::gap)).length := by
  have text : textAt (parts head body gap tail ++ '\x00'::rest) 0 = parts head body gap tail :=
    textHere solid
  have second : parts head body gap tail = (head ++ '('::body) ++ ')'::(gap ++ '-':: '>'::tail) :=
    by simp [parts]
  have third : parts head body gap tail = (head ++ '('::(body ++ ')'::gap)) ++ '-':: '>'::tail := by
    simp [parts]
  exact ⟨charFirst first text,charLast last (text.trans second),
    textFirst (by decide) front (text.trans third)⟩

theorem partsRead {parsed : Parsed} (solid : '\x00' ∉ parts head body gap tail) (first : '(' ∉ head)
    (last : ')' ∉ gap ++ '-':: '>'::tail)
    (front : Apart '-' '>' (head ++ '('::(body ++ ')'::gap)))
    (symbol : copyStr probeSymbolMax (trimmed head) ≠ [])
    (run : ∀ a z : Row, ∃ b, b.length = body.length ∧
      parseParams (a ++ (body ++ '\x00'::z)) a.length ⟨[],Nat.zero_le _,false⟩ =
        (a ++ (b ++ '\x00'::z),parsed)) (rest : Row) :
    parseSigLine (parts head body gap tail ++ '\x00'::rest) =
      some (parsed.sig (copyStr probeSymbolMax (trimmed head))
        (copyStr declSize (trimmed tail))) := by
  have solids : '\x00' ∉ head ∧ '\x00' ∉ tail := by
    simp only [parts,List.mem_append,List.mem_cons,not_or] at solid
    exact ⟨solid.1,solid.2.2.2.2.2.2.2⟩
  obtain ⟨opening,closing,arrow⟩ := partsFound solid first last front rest
  have order : ¬ (head ++ '('::body).length < head.length := by simp
  -- The NUL at the end of the symbol.
  have opened : (parts head body gap tail ++ '\x00'::rest).set head.length '\x00' =
      head ++ '\x00'::(body ++ ')'::(gap ++ '-':: '>'::(tail ++ '\x00'::rest))) := by
    have row : parts head body gap tail ++ '\x00'::rest =
        head ++ '('::(body ++ ')'::(gap ++ '-':: '>'::(tail ++ '\x00'::rest))) := by simp [parts]
    rw [row,setBehind]
  obtain ⟨head',length,cleared,name⟩ :=
    trimRow [] solids.1 (body ++ ')'::(gap ++ '-':: '>'::(tail ++ '\x00'::rest)))
  rw [List.nil_append,List.nil_append,List.length_nil] at cleared
  rw [List.nil_append,List.length_nil] at name
  -- The NUL behind the last parameter.
  have closed : (head' ++ '\x00'::(body ++ ')'::(gap ++ '-':: '>'::(tail ++ '\x00'::rest)))).set
      (head ++ '('::body).length '\x00' =
      (head' ++ ['\x00']) ++ (body ++ '\x00'::(gap ++ '-':: '>'::(tail ++ '\x00'::rest))) := by
    have row : head' ++ '\x00'::(body ++ ')'::(gap ++ '-':: '>'::(tail ++ '\x00'::rest))) =
        (head' ++ '\x00'::body) ++ ')'::(gap ++ '-':: '>'::(tail ++ '\x00'::rest)) := by simp
    have place : (head ++ '('::body).length = (head' ++ '\x00'::body).length := by simp [length]
    rw [row,place,setBehind]
    simp
  obtain ⟨body',length',ran⟩ := run (head' ++ ['\x00']) (gap ++ '-':: '>'::(tail ++ '\x00'::rest))
  have start : head.length + 1 = (head' ++ ['\x00']).length := by
    rw [List.length_append,length]; rfl
  obtain ⟨_,_,_,ret⟩ :=
    trimRow (head' ++ '\x00'::(body' ++ '\x00'::(gap ++ ['-','>']))) solids.2 rest
  have place : (head ++ '('::(body ++ ')'::gap)).length + 2 =
      (head' ++ '\x00'::(body' ++ '\x00'::(gap ++ ['-','>']))).length := by
    simp only [List.length_append,List.length_cons,List.length_nil,length,length']
    omega
  have left : (head' ++ ['\x00']) ++ (body' ++ '\x00'::(gap ++ '-':: '>'::(tail ++ '\x00'::rest))) =
      (head' ++ '\x00'::(body' ++ '\x00'::(gap ++ ['-','>']))) ++ (tail ++ '\x00'::rest) := by simp
  rw [parseSigLine,opening,closing,arrow]
  simp only [if_neg order]
  rw [opened,name,if_neg symbol,cleared,closed,start,ran,left,place,ret]

end

section
variable (s : SigText) (sp : Spacing)

theorem lineParts : s.line sp = parts (s.head sp) (s.body sp) sp.params.val (s.tail sp) := rfl

theorem behindWithout {c : Char} (cut : c ∈ cuts) : c ∉ sp.params.val ++ '-':: '>'::s.tail sp := by
  have all : cuts.all (fun c => !(['-','>'].contains c)) = true := by decide
  exact aroundWithout (t := ['-','>']) (gapWithout _ (cutSolid cut))
    (by simpa using List.all_eq_true.mp all c cut) (tailWithout s sp cut)

theorem lineSolid : '\x00' ∉ s.line sp :=
  aroundWithout (t := ['(']) (headWithout s sp (.head _)) (by decide)
    (aroundWithout (t := [')']) (bodyWithout s sp (.head _) (by decide)) (by decide)
      (behindWithout s sp (.head _)))

theorem frontApart : Apart '-' '>' (s.head sp ++ '('::(s.body sp ++ ')'::sp.params.val)) := by
  have head : Apart '-' '>' (s.head sp) := aroundApart _ _ (apartOf s.plain.arrow)
  have behind : '>' ∉ ')'::sp.params.val := by
    rw [List.mem_cons,not_or]
    exact ⟨by decide,gapWithout _ rfl⟩
  have inner : Apart '-' '>' ('('::(s.body sp ++ ')'::sp.params.val)) :=
    apartFront (u := ['(']) (by decide) (apartBehind (bodyApart s sp) behind)
  exact apartAppend head inner (.inr (by simp))

theorem lineRead (rest : Row) : parseSigLine (s.line sp ++ '\x00'::rest) = some s.sig := by
  have symbol : copyStr probeSymbolMax (trimmed (s.head sp)) = s.symbol := by
    rw [SigText.head,trimmedAround _ _ (solidTight s.solid),copyWhole s.short]
  have ret : copyStr declSize (trimmed (s.tail sp)) = s.ret := by
    rw [SigText.tail,trimmedAround _ _ s.tightRet,copyWhole s.shortRet]
  have read := partsRead (lineSolid s sp) (headWithout s sp (by decide))
      (behindWithout s sp (by decide))
    (frontApart s sp) (by rw [symbol]; exact s.some_) (bodyRun s sp) rest
  rw [symbol,ret] at read
  rw [lineParts,read]
  rfl

/-- A line is read as the signature that it was written from. -/
theorem readAsWritten (rest : Row) : parseSigLine (s.line sp ++ '\x00'::rest) = some s.sig :=
  lineRead s sp rest

end

def formatText : ParamText where
  type := "const char *".toList
  gap := []
  name := "fmt".toList
  plain := ⟨by simp [cuts],by decide⟩
  tight := ⟨by simp [isSpace],by simp [isSpace]⟩
  typed := by decide
  blank := by decide
  behind := .inr rfl
  named := by decide
  ident := List.all_eq_true.mp (by decide)
  shortName := by decide
  short := by decide

def printfText : SigText where
  symbol := "printf".toList
  some_ := by decide
  plain := ⟨by simp [cuts],by decide⟩
  solid := plainAll (by decide)
  short := by decide
  params := [formatText]
  few := by decide
  variadic := true
  ret := "int".toList
  plainRet := ⟨by simp [cuts],by decide⟩
  tightRet := ⟨by simp [isSpace],by simp [isSpace]⟩
  shortRet := by decide

def blank : Gap := ⟨[' '],by decide⟩
def none_ : Gap := ⟨[],by decide⟩

def printfSpacing : Spacing := ⟨none_,blank,fun _ => (none_,blank),blank,blank,⟨['\n'],by decide⟩⟩

theorem printfRead : parseSigLine ("printf (const char *fmt ,... ) -> int\n".toList ++ ['\x00']) =
    some ⟨"printf".toList,⟨"int".toList,[],.int⟩,[⟨"const char *".toList,"fmt".toList,.cstr⟩],
      by decide,true⟩ :=
  readAsWritten printfText printfSpacing []

end ZeroTrace.SigRoundTrip
