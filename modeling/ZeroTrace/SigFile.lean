import ZeroTrace.FileLines
import ZeroTrace.SigRoundTrip

/-! The signature file: read line by line into the table that an event's signature is looked up
in, and what is found there of what was written. -/
namespace ZeroTrace.SigFile
open CText TextRow FileLines Signatures SigLine SigRoundTrip

def maxFuncs : Nat := 256
def lineSize : Nat := 512

def isComment (text : List Char) : Bool := text.head? == some '#' || text.head? == some ';'

/- Behind the NUL the line's buffer has what `stale` says. -/
def sigconfLines (stale : Nat → Row) : Nat → List FuncSig → List (List Char) → List FuncSig
  | _,table,[] => table
  | i,table,chunk::more =>
    let line := trim (chunk ++ '\x00'::stale i) 0
    let trimmed := textAt line.1 line.2
    if trimmed = [] ∨ isComment trimmed = true then sigconfLines stale (i + 1) table more
    else if maxFuncs ≤ table.length then table
    else match parseSigLine (line.1.drop line.2) with
      | some sig => sigconfLines stale (i + 1) (table ++ [sig]) more
      | none => sigconfLines stale (i + 1) table more

structure SigConf where
  table : List FuncSig
  loaded : Bool

def sigconfLoad (stale : Nat → Row) (file : Option (List Char)) (s : SigConf) : SigConf × Bool :=
  match file with
  | none => (s,false)
  | some text => (⟨sigconfLines stale 0 [] (chunks (lineSize - 1) text),true⟩,true)

def sigconfLoadDefault (stale : Nat → Row) (file : Option (List Char))
    (s : SigConf) : SigConf × Bool :=
  if s.loaded then (s,true) else sigconfLoad stale file s

inductive Item where
  | blank (g : Gap)
  | comment (g : Gap) (mark : Char) (text : List Char)
  | sig (s : SigText) (sp : Spacing)
  | refused (text : List Char)

def Item.line : Item → List Char
  | .blank g => g.val
  | .comment g mark text => g.val ++ mark::text
  | .sig s sp => s.line sp
  | .refused text => text

def Item.kept : Item → Option FuncSig
  | .sig s _ => some s.sig
  | _ => none

/- Nothing that the parser accepts, whatever is behind it. -/
def Refused (text : List Char) : Prop := ∀ rest, parseSigLine (trimmed text ++ '\x00'::rest) = none

def Item.Is : Item → Prop
  | .blank _ => True
  | .comment _ mark _ => mark = '#' ∨ mark = ';'
  | .sig s _ => isComment s.symbol = false
  | .refused text => Refused text

/- A line of a text file that there is room for. -/
structure Item.Fits (item : Item) : Prop where
  is : item.Is
  inner : '\n' ∉ item.line
  solid : '\x00' ∉ item.line
  short : item.line.length < lineSize - 1

section
variable {g t w z : List Char} {c : Char} {l : Row} {p : Nat} {item : Item}

theorem blankTrimmed (blank : Blank t) : trimmed t = [] := by
  have nothing : skipSpaces t = [] := List.dropWhile_eq_nil_iff.mpr blank
  rw [trimmed,nothing]
  rfl

theorem solidHead (blank : Blank g) (solid : isSpace c = false) :
    (trimmed (g ++ c::t)).head? = some c := by
  have first : skipSpaces (c::t) = c::t := skipPlain fun d head => by
    obtain rfl : c = d := Option.some.inj head
    exact solid
  have some_ : (c::t).rdropWhile isSpace ≠ [] := fun none => by
    have all := List.rdropWhile_eq_nil_iff.mp none c (.head _)
    rw [solid] at all
    cases all
  rw [trimmed,skipBlank blank,first]
  obtain ⟨rest,whole⟩ := List.rdropWhile_prefix isSpace (l := c::t)
  cases here : (c::t).rdropWhile isSpace with
  | nil => exact absurd here some_
  | cons d l =>
    rw [here] at whole
    exact congrArg some (List.cons.inj whole).1

theorem newlineTrimmed : trimmed (t ++ ['\n']) = trimmed t := by
  rw [trimmed,trimmed,skipSpaces,List.dropWhile_append]
  split
  · next none =>
    rw [skipSpaces,List.isEmpty_iff.mp none]
    rfl
  · exact List.rdropWhile_concat_pos _ _ _ rfl

theorem textDrop (nul : '\x00' ∈ l.drop p) : ∃ z, l.drop p = textAt l p ++ '\x00'::z := by
  have whole := @List.takeWhile_append_dropWhile _ (· != '\x00') (l.drop p)
  cases behind : (l.drop p).dropWhile (· != '\x00') with
  | nil =>
    have none_ := List.dropWhile_eq_nil_iff.mp behind '\x00' nul
    exact absurd none_ (by simp)
  | cons c z =>
    have first := List.head?_dropWhile_not (· != '\x00') (l.drop p)
    rw [behind] at first whole
    obtain rfl : c = '\x00' := by simpa using first
    exact ⟨z,whole.symm⟩

theorem trimPlace (l : Row)
    (p : Nat) : (trim l p).2 = p + ((textAt l p).takeWhile isSpace).length := by
  simp only [trim]
  split <;> rfl

theorem lineTrimmed (solid : '\x00' ∉ t) (z : Row) :
    textAt (trim (t ++ '\n':: '\x00'::z) 0).1 (trim (t ++ '\n':: '\x00'::z) 0).2 = trimmed t ∧
    ∃ rest, (trim (t ++ '\n':: '\x00'::z) 0).1.drop (trim (t ++ '\n':: '\x00'::z) 0).2 =
      trimmed t ++ '\x00'::rest := by
  have row : t ++ '\n':: '\x00'::z = [] ++ ((t ++ ['\n']) ++ '\x00'::z) := by simp
  have inner : '\x00' ∉ t ++ ['\n'] := List.not_mem_append solid (by decide)
  obtain ⟨t',length,cleared,text⟩ := trimRow [] inner z
  rw [newlineTrimmed,← row] at text
  rw [← row] at cleared
  refine ⟨text,?_⟩
  rw [List.length_nil] at text cleared
  have nul : '\x00' ∈ (trim (t ++ '\n':: '\x00'::z) 0).1.drop
      (trim (t ++ '\n':: '\x00'::z) 0).2 := by
    have here : textAt (t ++ '\n':: '\x00'::z) 0 = t ++ ['\n'] := by
      rw [row,List.nil_append]
      exact textHere inner
    have place : (trim (t ++ '\n':: '\x00'::z) 0).2 ≤ t'.length := by
      rw [trimPlace,here,length,Nat.zero_add]
      exact (List.takeWhile_prefix _).length_le
    rw [cleared,List.nil_append,List.drop_append_of_le_length place]
    exact List.mem_append_right _ (.head _)
  obtain ⟨rest,same⟩ := textDrop nul
  exact ⟨rest,same.trans (congrArg (· ++ '\x00'::rest) text)⟩

end

section
variable (s : SigText) (sp : Spacing)

/- As the readers see it, without what is around it. -/
def bare : Spacing :=
  { sp with front := none_, arrow := if s.ret = [] then none_ else sp.arrow, back := none_ }

def cutBehind : List Char := if s.ret = [] then sp.arrow.val ++ sp.back.val else sp.back.val

theorem cutBlank : Blank (cutBehind s sp) := by
  unfold cutBehind
  split
  · exact fun c member =>
      (List.mem_append.mp member).elim (sp.arrow.property c) (sp.back.property c)
  · exact sp.back.property

theorem bareParts : s.line sp = sp.front.val ++ (s.line (bare s sp) ++ cutBehind s sp) := by
  have body : s.body (bare s sp) = s.body sp := rfl
  rw [SigText.line,SigText.line,body]
  simp only [SigText.head,SigText.tail,bare,none_,cutBehind]
  split
  · next none => simp [none]
  · simp

theorem bareTight : Tight (s.line (bare s sp)) where
  front c head := by
    obtain ⟨d,symbol,here⟩ := List.exists_cons_of_ne_nil s.some_
    have first : (s.line (bare s sp)).head? = some d := by
      simp [SigText.line,SigText.head,bare,none_,here]
    obtain rfl : d = c := Option.some.inj (first.symm.trans head)
    exact s.solid d (here ▸ .head _)
  back c last := by
    by_cases none : s.ret = []
    · have arrow : (s.line (bare s sp)).getLast? = some '>' := by
        have whole : s.line (bare s sp) =
            (s.head (bare s sp) ++ '('::(s.body sp ++ ')'::(sp.params.val ++ ['-']))) ++ ['>'] := by
          simp only [SigText.line,SigText.tail,bare,none_,none,if_true]
          simp
          rfl
        rw [whole,List.getLast?_concat]
      obtain rfl : '>' = c := Option.some.inj (arrow.symm.trans last)
      rfl
    · have whole : s.line (bare s sp) =
        (s.head (bare s sp) ++
        '('::(s.body sp ++ ')'::(sp.params.val ++ '-':: '>'::sp.arrow.val))) ++ s.ret := by
        simp only [SigText.line,SigText.tail,bare,none_,none,if_false]
        simp
        rfl
      rw [whole,List.getLast?_append_of_ne_nil _ none] at last
      exact s.tightRet.back c last

theorem bareTrimmed : trimmed (s.line sp) = s.line (bare s sp) := by
  rw [bareParts]
  exact trimmedIs sp.front.property (bareTight s sp) (cutBlank s sp)

end

section
variable {stale : Nat → Row} {i : Nat} {table : List FuncSig} {more : List (List Char)}
    {item : Item}

theorem fullStays (full : maxFuncs ≤ table.length) : sigconfLines stale i table more = table := by
  induction more generalizing i with
  | nil => rfl
  | cons chunk more ih =>
    rw [sigconfLines]
    simp only [if_pos full,ih,ite_self]

theorem itemText (fits : item.Fits) :
    (trimmed item.line = [] ∨ isComment (trimmed item.line) = true) ∧ item.kept = none ∨
    ¬ (trimmed item.line = [] ∨ isComment (trimmed item.line) = true) ∧
      ∀ rest, parseSigLine (trimmed item.line ++ '\x00'::rest) = item.kept := by
  cases item with
  | blank g => exact .inl ⟨.inl (blankTrimmed g.property),rfl⟩
  | comment g mark text =>
    have solid : isSpace mark = false ∧ isComment [mark] = true := by
      rcases fits.is with rfl | rfl <;> exact ⟨rfl,rfl⟩
    refine .inl ⟨.inr ?_,rfl⟩
    rw [isComment,Item.line,solidHead g.property solid.1]
    exact solid.2
  | sig s sp =>
    obtain ⟨c,symbol,here⟩ := List.exists_cons_of_ne_nil s.some_
    have first : (s.line (bare s sp)).head? = some c := by
      simp [SigText.line,SigText.head,bare,none_,here]
    refine .inr ⟨?_,fun rest => ?_⟩
    · rw [Item.line,bareTrimmed]
      rintro (none | comment)
      · rw [none] at first
        cases first
      · have other := fits.is
        rw [Item.Is,isComment,here] at other
        rw [isComment,first] at comment
        exact absurd (other.symm.trans comment) (by simp)
    · rw [Item.line,bareTrimmed,lineRead]
      rfl
  | refused text =>
    by_cases skipped : trimmed text = [] ∨ isComment (trimmed text) = true
    · exact .inl ⟨skipped,rfl⟩
    · exact .inr ⟨skipped,fits.is⟩

theorem lineLoaded (fits : item.Fits) (room : table.length < maxFuncs) :
    sigconfLines stale i table ((item.line ++ ['\n'])::more) =
      sigconfLines stale (i + 1) (table ++ item.kept.toList) more := by
  have row : (item.line ++ ['\n']) ++ '\x00'::stale i = item.line ++ '\n':: '\x00'::stale i :=
    by simp
  obtain ⟨text,rest,drop⟩ := lineTrimmed fits.solid (stale i)
  rw [sigconfLines]
  simp only [row,text,drop]
  rcases itemText fits with ⟨skipped,none_⟩ | ⟨looked,parsed⟩
  · rw [if_pos skipped,none_,Option.toList_none,List.append_nil]
  · rw [if_neg looked,if_neg (Nat.not_le.mpr room),parsed]
    cases item.kept with
    | none => simp
    | some sig => rfl

end

theorem linesLoaded {items : List Item} (fits : ∀ item ∈ items, item.Fits) (stale : Nat → Row)
    (i : Nat) {table : List FuncSig}
    (few : table.length ≤ maxFuncs) :
    sigconfLines stale i table (items.map fun item => item.line ++ ['\n']) =
      (table ++ items.filterMap Item.kept).take maxFuncs := by
  induction items generalizing i table with
  | nil => rw [List.map_nil,sigconfLines,List.filterMap_nil,List.append_nil,
      List.take_of_length_le few]
  | cons item items ih =>
    by_cases full : maxFuncs ≤ table.length
    · rw [fullStays full,List.take_append_of_le_length full,List.take_of_length_le few]
    · have room := Nat.not_le.mp full
      have kept : (item::items).filterMap Item.kept =
          item.kept.toList ++ items.filterMap Item.kept := by
        rw [List.filterMap_cons]
        cases item.kept <;> rfl
      have one : (table ++ item.kept.toList).length ≤ maxFuncs := by
        rw [List.length_append]
        cases item.kept with
        | none => exact few
        | some sig => exact room
      rw [List.map_cons,lineLoaded (fits item (.head _)) room,
        ih (fun item member => fits item (.tail _ member)) (i + 1) one,kept,List.append_assoc]

theorem findFirst {before after : List FuncSig} {sig : FuncSig}
    (others : ∀ other ∈ before, other.symbol ≠ sig.symbol) :
    sigconfFind (before ++ sig::after) sig.symbol = some sig := by
  have none_ : before.find? (fun other => other.symbol == sig.symbol) = none :=
    List.find?_eq_none.mpr fun other member => by simpa using others other member
  rw [sigconfFind,List.find?_append,none_,Option.none_or,List.find?_cons,beq_self_eq_true]

/-- A signature file of comments, empty lines, lines that are no signatures and signatures, with
any white space where it may stand, is loaded as the signatures that it was written from, in
their order and as many as the table has room for. The first one that is written for a symbol
is found for it, and nothing for a symbol without one; no later trace loads it anew. -/
theorem foundAsWritten {items : List Item} (fits : ∀ item ∈ items, item.Fits) (stale : Nat → Row)
    (s : SigConf) :
    let loaded := sigconfLoad stale (some (linesText (items.map Item.line))) s
    loaded.1.table = (items.filterMap Item.kept).take maxFuncs ∧
    (∀ before sig sp after, items = before ++ .sig sig sp::after →
      (∀ other ∈ before.filterMap Item.kept, other.symbol ≠ sig.symbol) →
      (before.filterMap Item.kept).length < maxFuncs →
        sigconfFind loaded.1.table sig.symbol = some sig.sig) ∧
    (∀ symbol, (∀ sig ∈ items.filterMap Item.kept, sig.symbol ≠ symbol) →
      sigconfFind loaded.1.table symbol = none) ∧
    ∀ stale file, (sigconfLoadDefault stale file loaded.1).1 = loaded.1 := by
  have lines : chunks (lineSize - 1) (linesText (items.map Item.line)) = items.map fun item =>
      item.line ++ ['\n'] := by
    rw [chunksLines,List.map_map]
    · rfl
    · intro line member
      obtain ⟨item,among,rfl⟩ := List.mem_map.mp member
      exact (fits item among).inner
    · intro line member
      obtain ⟨item,among,rfl⟩ := List.mem_map.mp member
      exact (fits item among).short
  have table : (sigconfLoad stale (some (linesText (items.map Item.line))) s).1.table =
      (items.filterMap Item.kept).take maxFuncs := by
    rw [sigconfLoad,lines]
    exact (linesLoaded fits stale 0 (Nat.zero_le _)).trans (by rw [List.nil_append])
  refine ⟨table,fun before sig sp after parts others room => ?_,fun symbol others => ?_,
    fun _ _ => rfl⟩
  · have kept : (before ++ .sig sig sp::after).filterMap Item.kept = before.filterMap Item.kept ++
      sig.sig::after.filterMap Item.kept := by
      rw [List.filterMap_append,List.filterMap_cons]
      rfl
    have next : maxFuncs - (before.filterMap Item.kept).length =
        (maxFuncs - (before.filterMap Item.kept).length - 1) + 1 := by omega
    rw [table,parts,kept,List.take_append,List.take_of_length_le (Nat.le_of_lt room),next,
      List.take_succ_cons]
    exact findFirst others
  · rw [table]
    exact List.find?_eq_none.mpr fun sig member =>
      by simpa using others sig (List.mem_of_mem_take member)

theorem withoutParen {text : List Char} (solid : '\x00' ∉ text)
    (none_ : '(' ∉ text) : Refused text := by
  intro rest
  have inside : ∀ c, c ∈ trimmed text → c ∈ text := fun c member =>
    (List.dropWhile_suffix _).subset ((List.rdropWhile_prefix _ _).subset member)
  have opening : strchr (trimmed text ++ '\x00'::rest) 0 '(' = none := by
    rw [strchr,textHere fun nul => solid (inside _ nul),Option.map_eq_none_iff]
    exact List.findIdx?_eq_none_iff.mpr fun c member => by
      have other : c ≠ '(' := fun same => none_ (same ▸ inside c member)
      simpa using other
  rw [parseSigLine,opening]

/- A comment, an empty line, printf twice, and what is no signature. -/
def printfTwice : List Item :=
  [.comment none_ '#' " demo".toList,.blank blank,.refused "gcc".toList,
    .sig printfText ⟨blank,none_,fun _ => (none_,none_),blank,blank,none_⟩,
    .sig { printfText with variadic := false } ⟨none_,none_,fun _ => (none_,none_),none_,none_,
      none_⟩]

theorem printfFound :
    sigconfFind (sigconfLoad (fun _ => []) (some (linesText (printfTwice.map Item.line)))
    ⟨[],false⟩).1.table "printf".toList =
    some printfText.sig := by
  have fits : ∀ item ∈ printfTwice, item.Fits := by
    simp only [printfTwice,List.forall_mem_cons]
    exact ⟨⟨.inl rfl,by decide,by decide,by decide⟩,⟨trivial,by decide,by decide,by decide⟩,
      ⟨withoutParen (by decide) (by decide),by decide,by decide,by decide⟩,
        ⟨rfl,by decide,by decide,by decide⟩,⟨rfl,by decide,by decide,by decide⟩,by simp⟩
  exact (foundAsWritten fits (fun _ => []) ⟨[],false⟩).2.1 [.comment none_ '#' " demo".toList,
    .blank blank,.refused "gcc".toList] printfText _ _ rfl
    (by simp [Item.kept]) (by decide)

end ZeroTrace.SigFile
