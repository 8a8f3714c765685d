import ZeroTrace.ActionTable
import ZeroTrace.LogLines
import ZeroTrace.StubContext
import ZeroTrace.UpdateCommand

/-! A call action from the command that sets it to its line in the log: the payload resolves its
arguments from the context of the call it interrupts, calls the function, and logs what it gave. -/
namespace ZeroTrace.PayloadAction
open SharedRead CallActions ActionTable EventLog ListTexts
open LogText (Place callArgItems registers callLine lineWritten eventWritten)
open ProbeTable (Name Probe CallArg CallAction callActionArgCap probeSymbolMax probeFindById
  findByIdSome)
open TraceBuffer (Header Emission)
open StubContext (Field gpArgs)
open EventFormat (address)
open UpdateCommand (Proper)

def callSymbolCacheCap : Nat := 64

/- Symbols of callees for the log. The first entry of an address is rewritten; a new address is only
taken while there is room. -/
def rememberCallSymbol (symbols : List (Nat × Name)) (addr : Nat)
    (symbol : Name) : List (Nat × Name) :=
  if addr = 0 ∨ symbol = [] then symbols
  else
    let entry := (addr,symbol.take (probeSymbolMax - 1))
    match symbols.findIdx? fun s => s.1 == addr with
    | some i => symbols.set i entry
    | none => if symbols.length ≥ callSymbolCacheCap then symbols else symbols ++ [entry]

abbrev Context := Field → UInt64

def contextGpArg (context : Context) (index : Nat) : Nat :=
  (gpArgs[index]?).elim 0 fun f => (context f).toNat

def resolveCallArgs (action : CallAction) (context : Context) (i : Fin 6) : Nat :=
  let arg := action.args i
  if i.val ≥ action.argCount then 0
  else if arg.kind = argConst then arg.value
  else if arg.kind = argEntryArg then contextGpArg context arg.value
  else 0

structure Invocation where
  callee : Nat
  args : List Nat
  deriving DecidableEq, Repr

/- As many arguments as the action has, or six. -/
def callActionInvoke (callee argCount : Nat) (args : Fin 6 → Nat) : Invocation :=
  ⟨callee,((List.finRange 6).take argCount).map args⟩

structure Stamp where
  callId : Nat
  timestampNs : Nat
  tid : Nat
  cpuId : Nat

/- `inCallAction` is the thread's own. `returns` is what the called function gives back. -/
def runCallAction (context : Context) (inCallAction : Bool) (returns : Invocation → Nat)
    (stamp : Stamp) : Copy (Option (Invocation × Emission)) :=
  if inCallAction then .done none
  else do
    match ← findCallAction (context .funcId).toNat with
    | none => .done none
    | some action =>
      let callArgs := resolveCallArgs action context
      let call := callActionInvoke action.calleeAddr action.argCount callArgs
      .done (some (call,
        .call ⟨(context .funcId).toNat,stamp.callId,stamp.timestampNs,stamp.tid,
        stamp.cpuId⟩ action.calleeAddr (returns call) action.argCount callArgs))

def given (context : Context) (arg : CallArg) : Nat :=
  if arg.kind = argConst then arg.value else contextGpArg context arg.value

section
variable {context : Context} {t : Tracer} {i : Fin 32} {id : Nat} {symbols : List (Nat × Name)}
    {addr : Nat} {symbol : Name}

/-! The arguments of an update. -/
theorem argResolved {u : Update} (proper : ∀ arg ∈ u.args, Proper arg) {k : Fin 6}
    (low : k.val < u.args.length) :
    resolveCallArgs u.action context k = given context u.args[k.val] := by
  have within : ¬ k.val ≥ u.args.length := Nat.not_le.mpr low
  have one : u.args.getD k.val ⟨0,0⟩ = u.args[k.val] := by simp [low]
  have kind := proper u.args[k.val] (List.getElem_mem low)
  simp only [resolveCallArgs,Update.action,if_neg within,one,given]
  rcases kind with ⟨const,_⟩ | ⟨entry,_⟩
  · rw [if_pos const,if_pos const]
  · have other : u.args[k.val].kind ≠ argConst := by
      rw [entry]
      decide
    rw [if_neg other,if_pos entry,if_neg other]

theorem invoked {u : Update} (proper : ∀ arg ∈ u.args, Proper arg)
    (few : u.args.length ≤ callActionArgCap) :
    callActionInvoke u.calleeAddr u.args.length (resolveCallArgs u.action context) =
      ⟨u.calleeAddr,u.args.map (given context)⟩ := by
  have within : u.args.length ≤ 6 := few
  refine congrArg (Invocation.mk u.calleeAddr)
    (List.ext_getElem (by simp [within]) fun k low low' => ?_)
  have here : k < u.args.length := by simpa using low'
  have one := @argResolved context u proper ⟨k,Nat.lt_of_lt_of_le here within⟩ here
  simpa using one

theorem itemsGiven {u : Update} (proper : ∀ arg ∈ u.args, Proper arg)
    (few : u.args.length ≤ callActionArgCap) {header : Header} {retval : Nat}
    {event : TraceBuffer.Event}
    (carries : ∀ w ∈ (Emission.call header u.calleeAddr retval u.args.length
    (resolveCallArgs u.action context)).writes, event.field w.1 = w.2) :
    callArgItems event = u.args.map fun arg => address (UInt64.ofNat (given context arg)) := by
  have within : u.args.length ≤ 6 := few
  have count : event.field (.arg ⟨2,by decide⟩) = u.args.length :=
    carries (.arg 2,_) (by simp [Emission.writes,TraceBuffer.initEventHeader])
  have one : ∀ k : Fin 6, event.field (.fpArg (k.castLE (by decide))) =
      resolveCallArgs u.action context k := fun k =>
    carries (.fpArg (k.castLE (by decide)),resolveCallArgs u.action context k)
      (List.mem_append_right _ (List.mem_map_of_mem (List.mem_finRange k)))
  simp only [callArgItems,count]
  refine List.ext_getElem ?_ fun k low low' => ?_
  · have small : ¬ u.args.length > callActionArgCap := Nat.not_lt.mpr few
    have room : u.args.length ≤ BufferPreviews.fpArgCount := Nat.le_trans within (by decide)
    simp [small,room]
  · have here : k < u.args.length := by simpa using low'
    have word := one ⟨k,Nat.lt_of_lt_of_le here within⟩
    rw [argResolved proper here] at word
    simp only [List.getElem_map,List.getElem_take,List.getElem_finRange,registers]
    exact congrArg (fun v => address (UInt64.ofNat v)) word

/-! The tables after the command. -/
theorem probeUpdated {args : List CallArg} {order : List ActionWord} (h : Mirrors t)
    (found : probeFindById t.session id = some i)
    (valid : validateCallActionArgs args = true) (complete : Complete order) : ∃ slot,
      (performOp t (.update id symbol (some addr) args order)).1.session.probes i =
        { t.session.probes i with
        callActionSlot := slot
        callAction := (Update.mk (nextCallActionEpoch t.epoch) id addr args).action
        callSymbol := symbol.take (probeSymbolMax - 1) } := by
  obtain ⟨nonzero,mine⟩ := findByIdSome found
  have live : (t.session.probes i).live := fun zero => nonzero (mine.symm.trans zero)
  obtain ⟨c,assign,_⟩ := assigned h live
  refine ⟨(c.val : Int),?_⟩
  have checked : ¬ ((id = 0 : Bool) || !validateCallActionArgs args) = true := by
    simp [nonzero,valid]
  unfold performOp updateProbeCallActionArgs
  simp only [if_neg checked,found,assign]
  rw [settleUpdate complete rfl]
  simp

theorem probeKnown {args : List CallArg} {order : List ActionWord} (h : Mirrors t)
    (found : probeFindById t.session id = some i)
    (valid : validateCallActionArgs args = true) (real : addr ≠ 0) (complete : Complete order) :
    probeFindById (performOp t (.update id symbol (some addr) args order)).1.session id =
      some i := by
  obtain ⟨nonzero,mine⟩ := findByIdSome found
  obtain ⟨slot,now⟩ := @probeUpdated t i id addr symbol args order h found valid complete
  have later : Mirrors (performOp t (.update id symbol (some addr) args order)).1 :=
    updateMirrors h (fun same => real (Option.some.inj same)) complete
  have same : ((performOp t (.update id symbol (some addr) args order)).1.session.probes
      i).probeId = id := by rw [now,mine]
  have live : ((performOp t (.update id symbol (some addr) args order)).1.session.probes i).live :=
    fun zero => nonzero (same.symm.trans zero)
  have known := ProbeInvariant.findLive later.entries live
  rwa [same] at known

def keys (symbols : List (Nat × Name)) : List Nat := symbols.map Prod.fst

theorem findMore {l : List (Nat × Name)} {s : Nat × Name} {a : Nat} (other : s.1 ≠ a)
    (m : List (Nat × Name)) :
    (l ++ s::m).find? (fun s => s.1 == a) = (l ++ m).find? fun s => s.1 == a := by
  simp [List.find?_append,other]

theorem remembered (real : addr ≠ 0) (some_ : symbol ≠ []) :
    keys (rememberCallSymbol symbols addr symbol) =
      (if addr ∈ keys symbols ∨ symbols.length ≥ callSymbolCacheCap then
      keys symbols else keys symbols ++ [addr]) ∧
    ∀ a, findCallSymbol (rememberCallSymbol symbols addr symbol) a =
      if a = addr ∧ (addr ∈ keys symbols ∨ symbols.length < callSymbolCacheCap) then
        some (symbol.take (probeSymbolMax - 1)) else findCallSymbol symbols a := by
  have both : ¬ (addr = 0 ∨ symbol = []) := fun either => either.elim real some_
  simp only [rememberCallSymbol,if_neg both]
  cases place : symbols.findIdx? fun s => s.1 == addr with
  | some k =>
    dsimp only
    obtain ⟨low,same,first⟩ := List.findIdx?_eq_some_iff_getElem.mp place
    have here : symbols[k].1 = addr := by simpa using same
    have listed : addr ∈ keys symbols := here ▸ List.mem_map_of_mem (List.getElem_mem low)
    have parts : symbols.set k (addr,symbol.take (probeSymbolMax - 1)) =
        symbols.take k ++ (addr,symbol.take (probeSymbolMax - 1))::symbols.drop (k + 1) := by
      rw [List.set_eq_take_append_cons_drop,if_pos low]
    have whole : symbols = symbols.take k ++ symbols[k]::symbols.drop (k + 1) := by
      rw [List.getElem_cons_drop,List.take_append_drop]
    have front : (symbols.take k).find? (fun s => s.1 == addr) = none := by
      refine List.find?_eq_none.mpr fun s member => ?_
      obtain ⟨j,small,rfl⟩ := List.getElem_of_mem member
      rw [List.getElem_take]
      exact first j (Nat.lt_of_lt_of_le small (List.length_take_le _ _))
    constructor
    · rw [if_pos (.inl listed)]
      conv_rhs => rw [whole]
      simp only [parts,keys,List.map_append,List.map_cons,here]
    · intro a
      by_cases zero : a = 0
      · subst zero
        rw [if_neg fun same => real same.1.symm,findCallSymbol,findCallSymbol,if_pos rfl,if_pos rfl]
      · by_cases mine : a = addr
        · subst mine
          rw [if_pos ⟨rfl,.inl listed⟩,findCallSymbol,if_neg zero]
          simp only [parts,List.find?_append,front,List.find?_cons]
          simp
        · have new_ := findMore (l := symbols.take k) (s := (addr,symbol.take (probeSymbolMax - 1)))
            (a := a) (fun same => mine same.symm) (symbols.drop (k + 1))
          have old := findMore (l := symbols.take k) (s := symbols[k]) (a := a)
              (fun same => mine (same.symm.trans here)) (symbols.drop (k + 1))
          rw [if_neg fun same => mine same.1,findCallSymbol,findCallSymbol,if_neg zero,if_neg zero,
            parts,new_,← old,← whole]
  | none =>
    have out : addr ∉ keys symbols := fun member => by
      obtain ⟨s,inside,same⟩ := List.mem_map.mp member
      simpa [same] using List.findIdx?_eq_none_iff.mp place s inside
    dsimp only
    by_cases full : symbols.length ≥ callSymbolCacheCap
    · simp only [if_pos full]
      rw [if_pos (.inr full)]
      refine ⟨rfl,fun a => ?_⟩
      rw [if_neg fun same => same.2.elim out (Nat.not_lt.mpr full)]
    · simp only [if_neg full]
      rw [if_neg fun either => either.elim out full]
      refine ⟨by simp [keys],fun a => ?_⟩
      by_cases zero : a = 0
      · subst zero
        rw [if_neg fun same => real same.1.symm,findCallSymbol,findCallSymbol,if_pos rfl,if_pos rfl]
      · rw [findCallSymbol,findCallSymbol,if_neg zero,if_neg zero,List.find?_append]
        by_cases mine : a = addr
        · subst mine
          have none_ : symbols.find? (fun s => s.1 == a) = none :=
            List.find?_eq_none.mpr fun s inside same =>
            out (by simpa [keys] using ⟨s.2,by rw [← beq_iff_eq.mp same]; exact inside⟩)
          rw [if_pos ⟨rfl,.inr (Nat.not_le.mp full)⟩,none_]
          simp
        · rw [if_neg fun same => mine same.1]
          have other : ¬ addr = a := fun same => mine same.symm
          simp [other]

theorem unlisted (out : addr ∉ keys symbols) : findCallSymbol symbols addr = none := by
  unfold findCallSymbol
  split
  · rfl
  · rw [List.find?_eq_none.mpr]
    · rfl
    · intro s inside same
      exact out (beq_iff_eq.mp same ▸ List.mem_map_of_mem inside)

def rememberAll (history : List (Nat × Name)) : List (Nat × Name) :=
  history.foldl (fun symbols s => rememberCallSymbol symbols s.1 s.2) []

def listedOf (history : List (Nat × Name)) : List Nat :=
  (keys history).eraseDups.take callSymbolCacheCap

def lastSymbol (history : List (Nat × Name)) (a : Nat) : Option Name :=
  (history.reverse.find? fun s => s.1 == a).map Prod.snd

theorem listedSnoc (history : List (Nat × Name)) (s : Nat × Name) : listedOf (history ++ [s]) =
    if s.1 ∈ listedOf history ∨ (listedOf history).length ≥ callSymbolCacheCap then
      listedOf history else listedOf history ++ [s.1] := by
  have more : (keys (history ++ [s])).eraseDups = (keys history).eraseDups ++
      ([s.1].removeAll (keys history)).eraseDups := by
    rw [keys,List.map_append]
    exact List.eraseDups_append
  have length : (listedOf history).length =
      min callSymbolCacheCap (keys history).eraseDups.length := List.length_take
  rw [listedOf,more]
  by_cases known : s.1 ∈ keys history
  · have none_ : [s.1].removeAll (keys history) = [] := by simp [List.removeAll,known]
    rw [none_,List.eraseDups_nil,List.append_nil]
    refine (if_pos ?_).symm
    by_cases few : (keys history).eraseDups.length ≤ callSymbolCacheCap
    · left
      rw [listedOf,List.take_of_length_le few]
      exact List.mem_eraseDups.mpr known
    · right
      omega
  · have one : ([s.1].removeAll (keys history)).eraseDups = [s.1] := by
      simp [List.removeAll,known,List.eraseDups_cons]
    have out : s.1 ∉ listedOf history :=
      fun member => known (List.mem_eraseDups.mp (List.mem_of_mem_take member))
    rw [one]
    by_cases few : (keys history).eraseDups.length < callSymbolCacheCap
    · have room : ¬ (s.1 ∈ listedOf history ∨ (listedOf history).length ≥ callSymbolCacheCap) :=
        fun either => either.elim out (by omega)
      rw [if_neg room,listedOf,List.take_of_length_le (Nat.le_of_lt few),List.take_of_length_le]
      rw [List.length_append,List.length_singleton]
      omega
    · rw [if_pos (.inr (by omega)),listedOf,List.take_append_of_le_length (by omega)]

/-- The tracer's table of symbols after any updates: it has room for the first addresses that were
used, and for each of them the symbol it was used with last. -/
theorem symbolsKept {history : List (Nat × Name)} (usable : ∀ s ∈ history, s.1 ≠ 0 ∧ s.2 ≠ []) :
    keys (rememberAll history) = listedOf history ∧ ∀ a, findCallSymbol (rememberAll history) a =
      if a ∈ listedOf history then (lastSymbol history a).map (List.take (probeSymbolMax - 1))
        else none := by
  induction history using List.reverseRecOn with
  | nil => exact ⟨rfl,fun a => by simp [findCallSymbol,rememberAll,listedOf,keys]⟩
  | append_singleton history s ih =>
    obtain ⟨names,found⟩ := ih fun s member => usable s (List.mem_append_left _ member)
    obtain ⟨real,some_⟩ := usable s (List.mem_append_right _ (List.mem_singleton_self s))
    have next : rememberAll (history ++ [s]) =
        rememberCallSymbol (rememberAll history) s.1 s.2 := by
      rw [rememberAll,List.foldl_append]
      rfl
    have length : (rememberAll history).length = (listedOf history).length := by
      rw [← names,keys,List.length_map]
    obtain ⟨names',found'⟩ := @remembered (rememberAll history) s.1 s.2 real some_
    rw [names,length] at names'
    refine ⟨by rw [next,names',listedSnoc],fun a => ?_⟩
    have last : lastSymbol (history ++ [s]) a = if s.1 = a then
        some s.2 else lastSymbol history a := by
      rw [lastSymbol,List.reverse_append,List.reverse_singleton,List.singleton_append]
      split
      · next mine => rw [List.find?_cons_of_pos (by simpa using mine),Option.map_some]
      · next other => rw [List.find?_cons_of_neg (by simpa using other),lastSymbol]
    rw [next,found' a,names,length,listedSnoc,last,found a]
    by_cases mine : a = s.1
    · subst mine
      by_cases listed : s.1 ∈ listedOf history
      · simp [listed]
      · by_cases full : (listedOf history).length ≥ callSymbolCacheCap
        · simp [listed,full]
        · simp [listed,full,Nat.not_le.mp full]
    · have other : ¬ s.1 = a := fun same => mine same.symm
      simp only [mine,other,false_and,if_false]
      split <;> split <;> simp_all

theorem latestSymbol : findCallSymbol (rememberAll [(8,['g']),(16,['h']),(8,['k'])]) 8 =
    some ['k'] :=
  ((@symbolsKept [(8,['g']),(16,['h']),(8,['k'])] (by decide)).2 8).trans rfl

theorem calleeNamed {p : Probe} {event : TraceBuffer.Event} {session : ProbeTable.Session}
    {seq : Nat} (real : addr ≠ 0) (some_ : symbol ≠ [])
    (callee : event.field (.arg ⟨0,by decide⟩) = addr)
    (on : p.callAction.enabled ≠ 0 ∧ p.callAction.calleeAddr = addr)
    (name : p.callSymbol = symbol.take (probeSymbolMax - 1)) :
    calleeName ⟨session,rememberCallSymbol symbols addr symbol,seq,event⟩ (some p) =
      symbol.take (probeSymbolMax - 1) := by
  have whole : p.callSymbol ≠ [] := by
    rw [name]
    cases symbol with
    | nil => exact absurd rfl some_
    | cons c rest => exact List.cons_ne_nil _ _
  simp only [calleeName,callee]
  rw [(remembered real some_).2 addr]
  by_cases room : addr ∈ keys symbols ∨ symbols.length < callSymbolCacheCap
  · rw [if_pos ⟨rfl,room⟩]
  · rw [if_neg fun same => room same.2,unlisted fun listed => room (.inl listed)]
    exact (if_pos ⟨on.1,on.2,whole⟩).trans name

theorem runEval {action : CallAction} {returns : Invocation → Nat} {stamp : Stamp} (h : Mirrors t)
    (known : configured t.session (context .funcId).toNat = some action) :
    (runCallAction context false returns stamp).eval t.word =
      let call := callActionInvoke action.calleeAddr action.argCount
        (resolveCallArgs action context)
      some (call,.call ⟨(context .funcId).toNat,stamp.callId,stamp.timestampNs,stamp.tid,
        stamp.cpuId⟩ action.calleeAddr (returns call) action.argCount
        (resolveCallArgs action context)) := by
  rw [runCallAction,if_neg Bool.false_ne_true]
  simp only [evalBind,findEval h,known]
  rfl

/-- A call action that was typed calls the function at the address its symbol has, with the
constants as they were typed and the registers the interrupted call has its arguments in. Its
line in the log has the name that was typed, up to its array, and the same arguments. -/
theorem typedCallLogged {start : Tracer} (begins : Begins start) (run : TableRun start t)
    {s : CommandLine.Scan} {callee : Name} {args : List CallArg}
    (asked : UpdateCommand.cmdUpdate t.session s = .call id callee args) (real : addr ≠ 0)
    {order : List ActionWord} (complete : Complete order)
    (here : (context .funcId).toNat = id) (returns : Invocation → Nat) (stamp : Stamp) :
    let t' := (performOp t (.update id callee (some addr) args order)).1
    let call : Invocation := ⟨addr,args.map (given context)⟩
    ∃ i e, probeFindById t.session id = some i ∧
      (runCallAction context false returns stamp).eval t'.word = some (call,e) ∧
      ∀ event : TraceBuffer.Event, (∀ w ∈ e.writes, event.field w.1 = w.2) →
        ∀ (log : LogText.Tracer) (at_ : Place) (cache : EntryCache) (symbols seq),
        eventWritten log at_ cache ⟨t'.session,rememberCallSymbol symbols addr callee,seq,event⟩ =
          (cache,some (
          LogMerge.printEventPrefix log.comm log.pid event .call ++
            ((t.session.probes i).target.symbol ++ " => ".toList ++
            callee.take (probeSymbolMax - 1) ++ "(".toList ++
            itemsText (call.args.map fun v => address (UInt64.ofNat v)) ++ ") -> ".toList ++
              address (UInt64.ofNat (returns call)) ++
            " callee=".toList ++ address (UInt64.ofNat addr) ++ ['\n']))) := by
  intro t' call
  have accepts : UpdateCommand.Accepts t.session (.call id callee args) :=
    asked ▸ UpdateCommand.updateAccepts
  obtain ⟨known,word,few,proper⟩ : CliSession.cliFindProbe t.session (.id id) = some id ∧
    callee ≠ [] ∧ args.length ≤ callActionArgCap ∧ ∀ arg ∈ args, Proper arg := by
    cases accepts with
    | call known word other few proper => exact ⟨known,word.1,few,proper⟩
  have h := runMirrors begins run
  have valid := UpdateCommand.properValid few proper
  obtain ⟨i,found,_⟩ := Option.map_eq_some_iff.mp known
  obtain ⟨slot,now⟩ := @probeUpdated t i id addr callee args order h found valid complete
  have again := @probeKnown t i id addr callee args order h found valid real complete
  have later : Mirrors t' := updateMirrors h (fun same => real (Option.some.inj same)) complete
  let u : Update := ⟨nextCallActionEpoch t.epoch,id,addr,args⟩
  have live : u.action.enabled ≠ 0 := nextEpochLive t.epoch
  have set_ : (t'.session.probes i).callAction = u.action := congrArg Probe.callAction now
  have named : (t'.session.probes i).callSymbol = callee.take (probeSymbolMax - 1) :=
    congrArg Probe.callSymbol now
  have symbol : (t'.session.probes i).target.symbol = (t.session.probes i).target.symbol := by
    have target := congrArg Probe.target now
    exact congrArg ProbeTable.SymbolTarget.symbol target
  have action : configured t'.session (context .funcId).toNat = some u.action := by
    rw [here,configured,again]
    simp only [set_]
    exact if_pos live
  have ran : (runCallAction context false returns stamp).eval t'.word = _ := runEval later action
  have invoked_ : callActionInvoke u.calleeAddr u.args.length (resolveCallArgs u.action context) =
      call := invoked proper few
  refine ⟨i,_,found,ran.trans (congrArg some (Prod.ext invoked_ rfl)),?_⟩
  intro event carries log at_ cache symbols seq
  have type : event.field .eventType = TraceBuffer.EventType.call.code :=
    carries (.eventType,TraceBuffer.EventType.call.code)
    (by simp [Emission.writes,TraceBuffer.initEventHeader])
  have probe : event.field .probeId = id :=
    (carries (.probeId,(context .funcId).toNat)
    (by simp [Emission.writes,TraceBuffer.initEventHeader])).trans here
  have first : event.field (.arg ⟨0,by decide⟩) = addr :=
    carries (.arg 0,addr) (by simp [Emission.writes,TraceBuffer.initEventHeader,u,Update.action])
  have second : event.field (.arg ⟨1,by decide⟩) = returns call := by
    rw [← invoked_]
    exact carries (.arg 1,_) (by simp [Emission.writes,TraceBuffer.initEventHeader,u,Update.action])
  have items := @itemsGiven context u proper few _ _ event carries
  have shown : (dumpOneTraceEvent cache ⟨t'.session,rememberCallSymbol symbols addr callee,seq,
      event⟩) =
      (cache,some (.call (t.session.probes i).target.symbol (callee.take (probeSymbolMax - 1))
        event)) := by
    have mine : (⟨t'.session,rememberCallSymbol symbols addr callee,seq,event⟩ : Reading).probe =
        some (t'.session.probes i) := by
      rw [Reading.probe,probe,again]
      rfl
    have name := @calleeNamed symbols addr callee (t'.session.probes i) event t'.session seq real
        word first
      (by rw [set_]; exact ⟨live,rfl⟩) named
    unfold dumpOneTraceEvent
    simp only [if_pos type,mine,name,Option.elim_some,symbol]
  have argsText : itemsText (callArgItems event) =
      itemsText (call.args.map fun v => address (UInt64.ofNat v)) := by
    rw [items,List.map_map]
    rfl
  have zero : LogText.value event 0 = address (UInt64.ofNat addr) :=
    congrArg (fun v => address (UInt64.ofNat v)) first
  have one : LogText.value event 1 = address (UInt64.ofNat (returns call)) :=
    congrArg (fun v => address (UInt64.ofNat v)) second
  rw [eventWritten,shown]
  simp only [Option.elim_some,lineWritten,LogText.lineParts,Option.map_some,LogText.lineEvent,
    callLine,LogLines.argsWritten,argsText,zero,one]

/- update f call g arg1 0x10 7, and a call of f with 42 in its second register. -/
def typedArgs : List CallArg := [⟨2,1⟩,⟨1,16⟩,⟨1,7⟩]

def typedContext : Context := fun f => if f = .funcId then 1 else if f = .gpArg1 then 42 else 0

theorem typedCallOnce :
    ((runCallAction typedContext false (fun call => call.args.sum) ⟨1,0,9,0⟩).eval
    (performOp collidingStart (.update 1 ['g'] (some 8192) typedArgs ActionWord.all)).1.word).map
      Prod.fst = some ⟨8192,[42,16,7]⟩ := by
  obtain ⟨_,e,_,ran,_⟩ :=
    @typedCallLogged typedContext collidingStart 1 8192 collidingStart collidingBegins .start
    ⟨"update\x00f call g arg1 0x10 7\x00".toList,7⟩ ['g'] typedArgs rfl (by decide) ActionWord.all
      (by decide) rfl (fun call => call.args.sum) ⟨1,0,9,0⟩
  rw [ran]
  rfl

end

end ZeroTrace.PayloadAction
