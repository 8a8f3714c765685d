import ZeroTrace.CallActions
import ZeroTrace.CliSession
import ZeroTrace.CommandLine
import ZeroTrace.FilterPrinter
import ZeroTrace.ListTexts
import ZeroTrace.NumberReads

/-! What is typed to change a probe's filter or its call action, and what is shown of them. -/
namespace ZeroTrace.UpdateCommand
open CText NumberTexts NumberReads ListTexts CommandLine
open ProbeTable (Name CallArg CallAction Probe Session callActionArgCap probeSymbolMax
  probeFindById)
open CallActions (argConst argEntryArg validateCallActionArgs)
open CliSession (Target cliFindProbe)
open FilterSyntax (ProbeFilter)
open FilterLexer (argName gpArgCount probeFilterCompile)
open EventFormat (textIn)

/- A number and the rest of the text, which is the whole text where there is no number. -/
def strtol (s : List Char) (base : Nat) : Int × List Char :=
  let (negative,t) := sign (skipSpaces s)
  let (base,t) := radix base t
  let digits := t.takeWhile (isDigitIn base)
  let n := valueOf base digits
  if digits.isEmpty then (0,s)
  else (if negative then (if n > 2^63 then -2^63 else -n) else (if n ≥ 2^63 then 2^63 - 1 else n),
    t.dropWhile (isDigitIn base))

def readTarget (target : List Char) : Target :=
  let id := strtol target 10
  if target ≠ id.2 ∧ id.2 = [] ∧ id.1 > 0 then .id id.1.toNat else .symbol target

def parseCallArg (text : List Char) : Option CallArg :=
  if text.take 3 = argName then
    let entryArg := strtoull (text.drop 3) 10
    if entryArg.range = false ∧ text.drop 3 ≠ entryArg.rest ∧ entryArg.rest = [] ∧
      entryArg.value.toNat < gpArgCount
    then some ⟨argEntryArg,entryArg.value.toNat⟩ else none
  else
    let value := strtoull text 0
    if value.range = true ∨ text = value.rest ∨
      value.rest ≠ [] then none else some ⟨argConst,value.value.toNat⟩

def readCallArgs : Nat → Scan → Option (List CallArg)
  | room,s => match nextArg s with
    | (_,none) => some []
    | (s,some text) => match room with
      | 0 => none
      | room+1 => (parseCallArg text).bind fun arg => (readCallArgs room s).map (arg::·)

def updateUsage : List Char :=
  "Usage: update <symbol|id> if <expr> | clear | call <symbol|clear> [arg0|...|arg5|0x...]\n".toList
def updateCallUsage : List Char :=
  "Usage: update <symbol|id> call <symbol|clear> [arg0|...|arg5|0x...]\n".toList

/- What the tracer is asked for, or what is printed instead. -/
inductive Updating where
  | refused (text : List Char)
  | clear (id : Nat)
  | filter (id : Nat) (filter : ProbeFilter)
  | clearCall (id : Nat)
  | call (id : Nat) (callee : Name) (args : List CallArg)

def updateClear (id : Nat) (s : Scan) : Updating := match nextArg s with
  | (_,some _) => .refused "Usage: update <symbol|id> clear\n".toList
  | (_,none) => .clear id

def updateCall (id : Nat) (s : Scan) : Updating := match nextArg s with
  | (_,none) => .refused updateCallUsage
  | (s,some callee) => match readCallArgs callActionArgCap s with
    | none => .refused updateCallUsage
    | some args =>
      if callee = "clear".toList then
        if args ≠ [] then .refused "Usage: update <symbol|id> call clear\n".toList
          else .clearCall id
      else .call id callee args

/- The filter is all that is left of the line. -/
def updateFilter (id : Nat) (mode : List Char) (s : Scan) : Updating :=
  if mode ≠ "if".toList then .refused updateUsage
  else match nextToken '\n' s with
    | (_,none) => .refused updateUsage
    | (_,some expr) => match probeFilterCompile expr with
      | (0,filter) => .filter id filter
      | _ => .refused updateUsage

def cmdUpdate (session : Session) (s : Scan) : Updating := match nextArg s with
  | (_,none) => .refused updateUsage
  | (s,some target) => match nextArg s with
    | (_,none) => .refused updateUsage
    | (s,some mode) => match cliFindProbe session (readTarget target) with
      | none => .refused ("Probe not found: ".toList ++ target ++ ['\n'])
      | some id =>
        if mode = "clear".toList then updateClear id s
        else if mode = "call".toList then updateCall id s
        else updateFilter id mode s

/-! What info shows of a probe. -/
def argText (arg : CallArg) : List Char :=
  if arg.kind = argEntryArg then argName ++ decimal arg.value else '0':: 'x'::hexadecimal arg.value

def argItems (action : CallAction) : List (List Char) :=
  ((List.finRange 6).take action.argCount).map fun i => argText (action.args i)

def callArgsSize : Nat := 160

def formatCallArgs (action : CallAction) (buffer : Nat → Char) (size : Nat) : Nat → Char :=
  formatItems buffer size (argItems action)

def infoFilter (p : Probe) : List Char :=
  if p.filter.enabled ∧ p.filter.expr ≠ [] then "     filter: ".toList ++ p.filter.expr ++ ['\n']
    else []

def infoCall (p : Probe) (stack : Nat → Char) : List Char :=
  if p.callAction.enabled ≠ 0 ∧ p.callSymbol ≠ [] then
    "       call: ".toList ++ p.callSymbol ++ "(".toList ++
      textIn callArgsSize (formatCallArgs p.callAction stack callArgsSize) ++ ")\n".toList
  else []

section
variable {arg : CallArg} {args : List CallArg} {text t : List Char} {s s' : Scan}
    {session : Session} {id : Nat}

/- What an action may have: a constant, or which of the arguments. -/
def Proper (arg : CallArg) : Prop := arg.kind = argConst ∧ arg.value < 2^64 ∨
    arg.kind = argEntryArg ∧ arg.value < gpArgCount

theorem parsedProper (parsed : parseCallArg text = some arg) : Proper arg := by
  unfold parseCallArg at parsed
  split at parsed
  · simp only at parsed
    split at parsed
    · next good =>
      obtain rfl := Option.some.inj parsed
      exact .inr ⟨rfl,good.2.2.2⟩
    · cases parsed
  · simp only at parsed
    split at parsed
    · cases parsed
    · obtain rfl := Option.some.inj parsed
      exact .inl ⟨rfl,UInt64.toNat_lt _⟩

theorem valueBack {n : Nat} (fits : n < 2^64) : (UInt64.ofNat n).toNat = n := by
  rw [UInt64.toNat_ofNat']
  exact Nat.mod_eq_of_lt fits

theorem textParsed (proper : Proper arg) : parseCallArg (argText arg) = some arg := by
  obtain ⟨kind,value⟩ := arg
  rcases proper with ⟨const,fits⟩ | ⟨entry,low⟩
  · simp only at const fits
    subst const
    have read := hexadecimalReads (r := []) fits (by simp [Stops])
    rw [List.append_nil] at read
    have shown : argText ⟨argConst,value⟩ = '0':: 'x'::hexadecimal value :=
      if_neg (show argConst ≠ argEntryArg by decide)
    have plain : ('0':: 'x'::hexadecimal value).take 3 ≠ argName := fun same => by
      cases (List.cons.inj same).1
    simp only [shown,parseCallArg,if_neg plain,read,valueBack fits]
    simp
  · simp only at entry low
    subst entry
    have fits : value < 2^64 := Nat.lt_trans low (by decide)
    have read := decimalReads (r := []) fits (by simp [Stops])
    rw [List.append_nil] at read
    have some_ : decimal value ≠ [] := Nat.toDigits_ne_nil
    have shown : argText ⟨argEntryArg,value⟩ = argName ++ decimal value := if_pos rfl
    have front : (argName ++ decimal value).take 3 = argName := rfl
    have rest : (argName ++ decimal value).drop 3 = decimal value := rfl
    simp only [shown,parseCallArg,if_pos front,rest,read,valueBack fits]
    simp [some_,low]

theorem textsParsed (proper : ∀ arg ∈ args, Proper arg) :
    (args.map argText).mapM parseCallArg = some args := by
  induction args with
  | nil => rfl
  | cons arg args ih =>
    have first := textParsed (proper arg List.mem_cons_self)
    have rest := ih fun arg member => proper arg (List.mem_cons_of_mem _ member)
    rw [List.map_cons,List.mapM_cons,first,rest]
    rfl

/-! The arguments of a command. -/
theorem argsRead {room : Nat} (at_ : At s t) : readCallArgs room s = if (words t).length ≤ room then
    (words t).mapM parseCallArg else none := by
  induction room generalizing s t with
  | zero =>
    have comes := scanComes at_
    generalize words t = ws at comes ⊢
    cases comes with
    | none same => simp [readCallArgs,same]
    | some some_ whole next left => simp [readCallArgs,next]
  | succ room ih =>
    have comes := scanComes at_
    generalize words t = ws at comes ⊢
    cases comes with
    | none same => simp [readCallArgs,same]
    | @some w rest s' some_ whole next left =>
      simp only [readCallArgs,next,ih left,List.length_cons,Nat.add_le_add_iff_right,List.mapM_cons]
      split
      · cases parseCallArg w with
        | none => rfl
        | some arg => cases (words rest).mapM parseCallArg <;> rfl
      · cases parseCallArg w <;> rfl

theorem argsProper {room : Nat} (read : readCallArgs room s = some args) :
    args.length ≤ room ∧ ∀ arg ∈ args, Proper arg := by
  induction room generalizing s args with
  | zero =>
    unfold readCallArgs at read
    split at read
    · obtain rfl := Option.some.inj read
      exact ⟨Nat.le_refl 0,by simp⟩
    · cases read
  | succ room ih =>
    unfold readCallArgs at read
    split at read
    · obtain rfl := Option.some.inj read
      exact ⟨Nat.zero_le _,by simp⟩
    · obtain ⟨arg,first,read⟩ := Option.bind_eq_some_iff.mp read
      obtain ⟨more,rest,rfl⟩ := Option.map_eq_some_iff.mp read
      obtain ⟨length,proper⟩ := ih rest
      exact ⟨Nat.succ_le_succ length,List.forall_mem_cons.mpr ⟨parsedProper first,proper⟩⟩

inductive Accepts (session : Session) : Updating → Prop where
  | refused (text : List Char) : Accepts session (.refused text)
  | clear {id : Nat} (known : cliFindProbe session (.id id) = some id) : Accepts session (.clear id)
  | filter {id : Nat} {f : ProbeFilter} (known : cliFindProbe session (.id id) = some id)
      (compiled : probeFilterCompile f.expr = (0,f))
      (line : '\n' ∉ f.expr ∧ '\x00' ∉ f.expr) : Accepts session (.filter id f)
  | clearCall {id : Nat} (known : cliFindProbe session (.id id) = some id) :
      Accepts session (.clearCall id)
  | call {id : Nat} {callee : Name} {args : List CallArg}
      (known : cliFindProbe session (.id id) = some id)
      (word : callee ≠ [] ∧ ' ' ∉ callee ∧ '\x00' ∉ callee) (other : callee ≠ "clear".toList)
      (few : args.length ≤ callActionArgCap) (proper : ∀ arg ∈ args, Proper arg) :
        Accepts session (.call id callee args)

theorem knownById {target : Target} (found : cliFindProbe session target = some id) :
    cliFindProbe session (.id id) = some id := by
  cases target with
  | id n =>
    obtain ⟨i,_,rfl⟩ := Option.map_eq_some_iff.mp found
    exact found
  | symbol name =>
    obtain ⟨i,search,rfl⟩ := Option.map_eq_some_iff.mp found
    have live := (ProbeTable.findBySymbolSome search).1
    have same : probeFindById session (session.probes i).probeId ≠ none := by
      rw [probeFindById,if_neg live]
      intro none_
      exact absurd (List.find?_eq_none.mp none_ i (List.mem_finRange i)) (by simp)
    obtain ⟨j,search'⟩ := Option.ne_none_iff_exists'.mp same
    rw [cliFindProbe,search']
    rfl

theorem compiledAgain {expr : List Char} {f : ProbeFilter}
    (compiled : probeFilterCompile expr = (0,f)) :
    f.expr = skipSpaces expr ∧ probeFilterCompile f.expr = (0,f) := by
  have same : f.expr = skipSpaces expr := by
    have short : (skipSpaces expr).length < FilterLexer.exprMax := by
      rw [probeFilterCompile] at compiled
      simp only at compiled
      split at compiled
      · cases compiled
      · omega
    obtain ⟨_,_,_,_,_,_,rfl⟩ := (FilterLexer.compiledIff short).mp compiled
    rfl
  refine ⟨same,?_⟩
  rw [same]
  simpa only [probeFilterCompile,skipTwice] using compiled

theorem updateAccepts : Accepts session (cmdUpdate session s) := by
  unfold cmdUpdate
  split
  · exact .refused _
  · split
    · exact .refused _
    · split
      · exact .refused _
      · next found =>
        have known := knownById found
        split
        · unfold updateClear
          split
          · exact .refused _
          · exact .clear known
        · split
          · unfold updateCall
            split
            · exact .refused _
            · next next_ =>
              split
              · exact .refused _
              · next args read =>
                obtain ⟨few,proper⟩ := argsProper read
                split
                · split
                  · exact .refused _
                  · exact .clearCall known
                · next other => exact .call known (tokenWord next_) other few proper
          · unfold updateFilter
            split
            · exact .refused _
            · split
              · exact .refused _
              · next expr next_ =>
                split
                · next f compiled =>
                  obtain ⟨same,again⟩ := compiledAgain compiled
                  have word := tokenWord next_
                  have inside : ∀ c ∈ f.expr, c ∈ expr :=
                    fun c member => (List.dropWhile_suffix _).subset (same ▸ member)
                  exact .filter known again ⟨fun member => word.2.1 (inside _ member),
                    fun member => word.2.2 (inside _ member)⟩
                · exact .refused _

/-! A command typed from what is shown. -/
theorem decimalTarget {n : Nat} (some_ : 0 < n)
    (fits : n < 2^63) : readTarget (decimal n) = .id n := by
  obtain ⟨digits,value,_⟩ := digitsWrite (show 1 < 10 by decide) (by decide) n
  have read : strtol (decimal n) 10 = ((n : Int),[]) := by
    unfold decimal
    cases is : Nat.toDigits 10 n with
    | nil => exact absurd is Nat.toDigits_ne_nil
    | cons c front =>
      rw [is] at digits value
      have all : (c::front).takeWhile (isDigitIn 10) = c::front :=
        List.takeWhile_eq_self_iff.mpr digits
      have none_ : (c::front).dropWhile (isDigitIn 10) = [] := List.dropWhile_eq_nil_iff.mpr digits
      have base : radix 10 (c::front) = (10,c::front) := rfl
      have low : ¬ n ≥ 2^63 := by omega
      simp only [strtol,digitFirst (digits c (.head _)),base,all,none_,value,if_neg low]
      rfl
  have word : decimal n ≠ [] := Nat.toDigits_ne_nil
  simp only [readTarget,read]
  simp [word,some_]

theorem digitsApart {base : Nat} (some_ : 1 < base) (few : base ≤ 16) (n : Nat) {c : Char}
    (other : isDigitIn base c = false) : c ∉ Nat.toDigits base n := fun inside => by
  rw [(digitsWrite some_ few n).digits c inside] at other
  cases other

theorem decimalWord (n : Nat) : decimal n ≠ [] ∧ ' ' ∉ decimal n ∧ '\x00' ∉ decimal n :=
  ⟨Nat.toDigits_ne_nil,digitsApart (by decide) (by decide) n (by decide),
    digitsApart (by decide) (by decide) n (by decide)⟩

theorem argWord (arg : CallArg) : argText arg ≠ [] ∧ ' ' ∉ argText arg ∧ '\x00' ∉ argText arg := by
  unfold argText
  split
  · obtain ⟨_,blank,nul⟩ := decimalWord arg.value
    exact ⟨by simp [argName],List.not_mem_append (by decide) blank,
      List.not_mem_append (by decide) nul⟩
  · have blank : ' ' ∉ hexadecimal arg.value := digitsApart (by decide) (by decide) _ (by decide)
    have nul : '\x00' ∉ hexadecimal arg.value := digitsApart (by decide) (by decide) _ (by decide)
    exact ⟨by simp,by simp [blank],by simp [nul]⟩

def typedMode : Updating → List Char
  | .refused _ => []
  | .clear _ => "clear".toList
  | .filter _ f => "if ".toList ++ f.expr
  | .clearCall _ => "call clear".toList
  | .call _ callee args => "call ".toList ++ (callee ++ (args.map argText).flatMap (' '::·))

def Updating.probe : Updating → Nat
  | .refused _ => 0
  | .clear id | .filter id _ | .clearCall id | .call id _ _ => id

def typed (u : Updating) : List Char := "update ".toList ++ (decimal u.probe ++ ' '::typedMode u)

theorem typedBegins {u : Updating} (solid : '\x00' ∉ typedMode u) :
    ∃ s s', beginCommand (typed u) = some ("update".toList,s) ∧
    nextArg s = (s',some (decimal u.probe)) ∧ At s' (typedMode u) := by
  obtain ⟨some_,blank,nul⟩ := decimalWord u.probe
  have line : typed u = "update".toList ++ ' '::(decimal u.probe ++ ' '::typedMode u) := rfl
  have solids : '\x00' ∉ typed u := by
    rw [line]
    exact List.not_mem_append (by decide) (by simp [nul,solid])
  have these : words (typed u) = "update".toList::words (decimal u.probe ++ ' '::typedMode u) := by
    rw [line,wordsApart,wordAlone (by decide) (by decide)]
    rfl
  have begins := commandBegins (typed u) solids
  rw [these] at begins
  obtain ⟨s,rest,began,left,_,text⟩ := begins
  have zero : leading (typed u) = 0 := rfl
  have same : rest = decimal u.probe ++ ' '::typedMode u := by
    rcases text zero with here | ⟨here,_⟩
    · rw [line] at here
      exact (List.cons.inj (List.append_cancel_left here)).2.symm
    · rw [line] at here
      exact absurd (List.append_right_eq_self.mp here) (by simp)
  subst same
  obtain ⟨s',next,at_⟩ := nextFirst some_ blank left
  exact ⟨s,s',began,next,at_⟩

theorem properValid (few : args.length ≤ callActionArgCap) (proper : ∀ arg ∈ args, Proper arg) :
    validateCallActionArgs args = true := by
  rw [validateCallActionArgs,decide_eq_true few,Bool.true_and,List.all_eq_true]
  intro arg member
  rcases proper arg member with ⟨const,_⟩ | ⟨entry,low⟩
  · simp [const,argConst,argEntryArg]
  · have within : arg.value < callActionArgCap := low
    simp [entry,within]

theorem typedSolid {u : Updating} (accepts : Accepts session u) : '\x00' ∉ typedMode u := by
  cases accepts with
  | refused text => exact List.not_mem_nil
  | clear => exact fun inside => absurd inside (show '\x00' ∉ "clear".toList by decide)
  | filter known compiled line => exact List.not_mem_append (by decide) line.2
  | clearCall => exact fun inside => absurd inside (show '\x00' ∉ "call clear".toList by decide)
  | @call id callee args known word other few proper =>
    refine List.not_mem_append (by decide) (List.not_mem_append word.2.2 fun inside => ?_)
    obtain ⟨text,member,here⟩ := List.mem_flatMap.mp inside
    obtain ⟨arg,_,rfl⟩ := List.mem_map.mp member
    exact (argWord arg).2.2 ((List.mem_cons.mp here).resolve_left (by decide))

theorem callTyped {callee : Name} (at_ : At s (callee ++ (args.map argText).flatMap (' '::·)))
    (word : callee ≠ [] ∧ ' ' ∉ callee)
    (other : callee ≠ "clear".toList) (few : args.length ≤ callActionArgCap)
    (proper : ∀ arg ∈ args, Proper arg) : updateCall id s = .call id callee args := by
  have plain : ∀ text ∈ args.map argText, text ≠ [] ∧ ' ' ∉ text := by
    intro text member
    obtain ⟨arg,_,rfl⟩ := List.mem_map.mp member
    exact ⟨(argWord arg).1,(argWord arg).2.1⟩
  have comes := scanComes at_
  rw [wordsSpaced word plain] at comes
  generalize same : callee::args.map argText = ws at comes
  cases comes with
  | none => cases same
  | @some w rest s' _ _ next left =>
    obtain ⟨rfl,these⟩ := List.cons.inj same
    have read : readCallArgs callActionArgCap s' = _ := argsRead left
    rw [← these,List.length_map,if_pos few,textsParsed proper] at read
    simp only [updateCall,next,read,if_neg other]

theorem modeRead {s'' : Scan} {mode : List Char} (known : cliFindProbe session (.id id) = some id)
    (low : id < 2^63)
    (first : nextArg s = (s',some (decimal id)))
    (next : nextArg s' = (s'',some mode)) : cmdUpdate session s =
      if mode = "clear".toList then updateClear id s'' else if mode = "call".toList then
        updateCall id s'' else updateFilter id mode s'' := by
  obtain ⟨i,found,_⟩ := Option.map_eq_some_iff.mp known
  have target := decimalTarget (Nat.pos_of_ne_zero (ProbeTable.findByIdSome found).1) low
  simp only [cmdUpdate,first,next,target,known]

theorem nextLast {w : List Char} (some_ : w ≠ []) (whole : ' ' ∉ w) (at_ : At s w) :
    ∃ s', nextArg s = (s',some w) ∧ (nextArg s').2 = none := by
  have comes := scanComes at_
  rw [wordAlone some_ whole] at comes
  generalize same : [w] = ws at comes
  cases comes with
  | none => cases same
  | @some w' rest s' _ _ next left =>
    obtain ⟨rfl,none_⟩ := List.cons.inj same
    have ends := scanComes left
    rw [← none_] at ends
    cases ends with
    | none same => exact ⟨s',next,by rw [same]⟩

theorem acceptedTyped {u : Updating} (accepts : Accepts session u) (low : u.probe < 2^63)
    (does : ∀ text, u ≠ .refused text) :
    ∃ s', beginCommand (typed u) = some ("update".toList,s') ∧ cmdUpdate session s' = u := by
  obtain ⟨s,s',began,first,at_⟩ := typedBegins (typedSolid accepts)
  refine ⟨s,began,?_⟩
  cases accepts with
  | refused text => exact absurd rfl (does text)
  | @clear id known =>
    obtain ⟨s'',mode,last⟩ := nextLast (show "clear".toList ≠ [] by decide) (by decide) at_
    rw [modeRead known low first mode,if_pos rfl,updateClear]
    split
    · next next => rw [next] at last; cases last
    · rfl
  | @filter id f known compiled line =>
    obtain ⟨s'',mode,left⟩ := nextFirst (show "if".toList ≠ [] by decide) (by decide) at_
    have some_ : f.expr ≠ [] := fun none_ => by
      rw [none_] at compiled
      cases compiled
    obtain ⟨s3,expr⟩ := nextWhole some_ line.1 left
    rw [modeRead known low first mode,if_neg (by decide),if_neg (by decide),updateFilter,
      if_neg (by decide)]
    simp only [expr,compiled]
  | @clearCall id known =>
    obtain ⟨s'',mode,left⟩ := nextFirst (show "call".toList ≠ [] by decide) (by decide) at_
    obtain ⟨s3,callee,last⟩ := nextLast (show "clear".toList ≠ [] by decide) (by decide) left
    have none_ : readCallArgs callActionArgCap s3 = some [] := by
      unfold readCallArgs
      split
      · rfl
      · next next => rw [next] at last; cases last
    rw [modeRead known low first mode,if_neg (by decide),if_pos rfl]
    simp only [updateCall,callee,none_]
    rfl
  | @call id callee args known word other few proper =>
    obtain ⟨s'',mode,left⟩ := nextFirst (show "call".toList ≠ [] by decide) (by decide) at_
    rw [modeRead known low first mode,if_neg (by decide),if_pos rfl]
    exact callTyped left ⟨word.1,word.2.1⟩ other few proper

theorem argShort {arg : CallArg} (proper : Proper arg) : (argText arg).length ≤ 18 := by
  obtain ⟨kind,value⟩ := arg
  rcases proper with ⟨const,fits⟩ | ⟨entry,low⟩
  · simp only at const fits
    subst const
    have digits := hexadecimalLength (n := value) (k := 16) (Nat.lt_of_lt_of_eq fits (by decide))
        (by decide)
    rw [argText,if_neg (show argConst ≠ argEntryArg by decide),List.length_cons,List.length_cons]
    exact Nat.add_le_add_right digits 2
  · simp only at entry low
    subst entry
    have digits := decimalLength (n := value) (k := 1) (Nat.lt_trans low (by decide)) (by decide)
    rw [argText,if_pos rfl,List.length_append]
    exact Nat.le_trans (Nat.add_le_add_left digits argName.length) (by decide)

theorem actionItems {u : CallActions.Update} (few : u.args.length ≤ callActionArgCap) :
    argItems u.action = u.args.map argText := by
  have within : u.args.length ≤ 6 := few
  refine List.ext_getElem (by simp [argItems,CallActions.Update.action,within]) fun i low low' => ?_
  simp only [List.length_map] at low'
  simp [argItems,CallActions.Update.action,low']

theorem argsShown {u : CallActions.Update} (few : u.args.length ≤ callActionArgCap)
    (proper : ∀ arg ∈ u.args, Proper arg) (stack : Nat → Char) :
    textIn callArgsSize (formatCallArgs u.action stack callArgsSize) =
      itemsText (u.args.map argText) := by
  have within : u.args.length ≤ 6 := few
  have short : ∀ item ∈ u.args.map argText, item.length ≤ 18 := by
    intro item member
    obtain ⟨arg,inside,rfl⟩ := List.mem_map.mp member
    exact argShort (proper arg inside)
  have length := textLength short 0
  rw [List.length_map] at length
  rw [formatCallArgs,actionItems few]
  refine textPrinted (fun item member => ?_) ?_
  · obtain ⟨arg,_,rfl⟩ := List.mem_map.mp member
    exact (argWord arg).2.2
  · have size : callArgsSize = 160 := rfl
    rw [itemsText,size]
    omega

def Shown : Updating → Prop
  | .refused _ | .clear _ | .clearCall _ => True
  | .filter _ f => ∀ p : Probe, infoFilter (ProbeLifecycle.setProbeFilter p (some f)) =
      "     filter: ".toList ++ f.expr ++ ['\n']
  | .call id callee args => validateCallActionArgs args = true ∧
      ∀ (epoch addr : Nat) (p : Probe) (stack : Nat → Char), epoch ≠ 0 →
      infoCall { p with callAction := (⟨epoch,id,addr,args⟩ :
        CallActions.Update).action, callSymbol := callee.take (probeSymbolMax - 1) } stack =
        "       call: ".toList ++ callee.take (probeSymbolMax - 1) ++ "(".toList ++
          itemsText (args.map argText) ++ ")\n".toList

/- The request that info shows: of a callee's name no more than the tracer keeps. -/
def asShown : Updating → Updating
  | .call id callee args => .call id (callee.take (probeSymbolMax - 1)) args
  | u => u

theorem acceptsShown {u : Updating}
    (accepts : Accepts session u) : Accepts session (asShown u) := by
  cases accepts with
  | refused text => exact .refused text
  | clear known => exact .clear known
  | filter known compiled line => exact .filter known compiled line
  | clearCall known => exact .clearCall known
  | @call id callee args known word other few proper =>
    have inside : ∀ {c}, c ∈ callee.take (probeSymbolMax - 1) → c ∈ callee :=
      fun member => List.mem_of_mem_take member
    have some_ : callee.take (probeSymbolMax - 1) ≠ [] := by
      cases callee with
      | nil => exact absurd rfl word.1
      | cons c rest => exact List.cons_ne_nil _ _
    refine .call known ⟨some_,fun blank => word.2.1 (inside blank),fun nul => word.2.2 (inside nul)⟩
      (fun cut => other ?_) few proper
    have length := congrArg List.length cut
    have short : callee.length ≤ probeSymbolMax - 1 := by
      by_contra long
      rw [List.length_take,Nat.min_eq_left (by omega)] at length
      exact absurd length (by decide)
    rwa [List.take_of_length_le short] at cut

theorem shownShort {id : Nat} {callee : Name} {args : List CallArg}
    (short : callee.length < probeSymbolMax) :
    asShown (.call id callee args) = .call id callee args := by
  rw [asShown,List.take_of_length_le (by omega)]

/-- A command that changes a probe can be typed again from what is shown afterwards, with the
probe's id, the text of the filter or the items of the call, and asks for the same again; of a
callee's name with 64 characters or more, that is its first 63. The list of the items is never
cut, and its action passes the tracer's check. -/
theorem shownTypedBack {u : Updating} (few : ∀ i, (session.probes i).probeId < 2^63)
    (asked : cmdUpdate session s = u) (does : ∀ text, u ≠ .refused text) :
    (∃ s', beginCommand (typed (asShown u)) = some ("update".toList,s') ∧
      cmdUpdate session s' = asShown u) ∧
      (∀ id callee args, u = .call id callee args →
        callee.length < probeSymbolMax → asShown u = u) ∧ Shown u := by
  have accepts : Accepts session u := asked ▸ updateAccepts
  have known : ∀ {id : Nat}, cliFindProbe session (.id id) = some id → id < 2^63 := by
    intro id found
    obtain ⟨i,search,_⟩ := Option.map_eq_some_iff.mp found
    exact (ProbeTable.findByIdSome search).2 ▸ few i
  have low : u.probe < 2^63 := by
    cases accepts with
    | refused => exact Nat.two_pow_pos 63
    | clear found | filter found | clearCall found | call found => exact known found
  have same : (asShown u).probe = u.probe := by cases u <;> rfl
  have does' : ∀ text, asShown u ≠ .refused text := by
    cases u with
    | refused text => exact absurd rfl (does text)
    | _ => exact fun _ bad => nomatch bad
  refine ⟨acceptedTyped (acceptsShown accepts) (same ▸ low) does',?_,?_⟩
  · rintro id callee args rfl short
    exact shownShort short
  cases accepts with
  | refused | clear | clearCall => trivial
  | @filter id f known compiled line =>
    intro p
    have parts := FilterPrecedence.compiledParts compiled
    have some_ : f.expr ≠ [] := fun none_ => by
      rw [none_] at compiled
      cases compiled
    exact if_pos ⟨parts.1,some_⟩
  | @call id callee args known word other few proper =>
    refine ⟨properValid few proper,fun epoch addr p stack live => ?_⟩
    have symbol : callee.take (probeSymbolMax - 1) ≠ [] := by
      cases callee with
      | nil => exact absurd rfl word.1
      | cons c rest => exact List.cons_ne_nil _ _
    have shown := @argsShown ⟨epoch,id,addr,args⟩ few proper stack
    exact (if_pos ⟨live,symbol⟩).trans (by rw [shown])

def oneProbe : Session := (ProbeTable.registerProbe .init ['f'] (some (['m'],4096))).1

def callTypedText : Scan := ⟨"update\x00f call g arg1 0x10 7\x00".toList,7⟩

theorem callShown :
    (∃ s', beginCommand "update 1 call g arg1 0x10 0x7".toList = some ("update".toList,s') ∧
      cmdUpdate oneProbe s' = .call 1 ['g'] [⟨2,1⟩,⟨1,16⟩,⟨1,7⟩]) ∧
        Shown (.call 1 ['g'] [⟨2,1⟩,⟨1,16⟩,⟨1,7⟩]) := by
  obtain ⟨again,same,shown⟩ :=
    @shownTypedBack callTypedText oneProbe (.call 1 ['g'] [⟨2,1⟩,⟨1,16⟩,⟨1,7⟩]) (by decide) rfl
      (fun text bad => by cases bad)
  rw [same 1 ['g'] _ rfl (by decide)] at again
  exact ⟨again,shown⟩

end

end ZeroTrace.UpdateCommand
