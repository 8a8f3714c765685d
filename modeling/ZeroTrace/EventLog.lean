import ZeroTrace.TraceBuffer
import ZeroTrace.FilterEval
import ZeroTrace.ProbeTable

/-! From the events of the ring to the lines of the log. A return line needs its entry
event again; entries wait for their returns in a cache with one slot for every residue
of the call id. What a line says is made from the values kept here; its text is not. -/
namespace ZeroTrace.EventLog
open TraceBuffer FilterSyntax FilterEval ProbeTable

structure CacheSlot where
  callId : Nat
  event : Event
  suppressed : Bool

abbrev EntryCache := Nat → CacheSlot

/- `g_entry_cache` after `zt_trace_reset_active`. -/
def EntryCache.zero : EntryCache := fun _ => ⟨0,.zero,false⟩

/- `seq` and the tables the tracer has at the time the event is handed over. -/
structure Reading where
  session : Session
  callSymbols : List (Nat × Name)
  seq : Nat
  event : Event

def Reading.callId (r : Reading) : Nat := r.event.field .callId
def Reading.isEntry (r : Reading) : Bool := r.event.field .eventType == EventType.entry.code
def Reading.isReturn (r : Reading) : Bool := r.event.field .eventType == EventType.ret.code
def Reading.probe (r : Reading) : Option Probe :=
  (probeFindById r.session (r.event.field .probeId)).map r.session.probes

/- A line of the log: a call action, or an event with the entry it is formatted with. -/
inductive Line where
  | call (symbol callee : Name) (event : Event)
  | shown (probe : Option Probe) (matched : Option Event) (event : Event) (seq : Nat)

def Line.matched : Line → Option Event
  | .call _ _ _ => none
  | .shown _ matched _ _ => matched

def eventArgs (event : Event) : Args := fun i => UInt64.ofNat (event.field (.arg i))

def eventIsSuppressed (probe : Option Probe) (r : Reading) : Bool := match probe with
  | none => false
  | some p =>
    if !r.isEntry then false
    else if !p.filter.enabled then false
    else probeFilterEval p.filter (eventArgs r.event) == 0

def unknownName : Name := "<unknown>".toList

def findCallSymbol (symbols : List (Nat × Name)) (addr : Nat) : Option Name :=
  if addr = 0 then none else (symbols.find? fun s => s.1 == addr).map Prod.snd

def calleeName (r : Reading) (probe : Option Probe) : Name :=
  let addr := r.event.field (.arg ⟨0,by decide⟩)
  match findCallSymbol r.callSymbols addr,probe with
  | some name,_ => name
  | none,some p =>
    if p.callAction.enabled ≠ 0 ∧ p.callAction.calleeAddr = addr ∧
      p.callSymbol ≠ [] then p.callSymbol else unknownName
  | none,none => unknownName

def cacheSlot (callId : Nat) : Nat := callId % eventCapacity

def dumpOneTraceEvent (cache : EntryCache) (r : Reading) : EntryCache × Option Line :=
  let probe := r.probe
  let symbol := probe.elim unknownName fun p => p.target.symbol
  if r.event.field .eventType = EventType.call.code then
    (cache,some (.call symbol (calleeName r probe) r.event))
  else if r.isEntry && r.callId != 0 then
    let suppressed := eventIsSuppressed probe r
    let cache := Function.update cache (cacheSlot r.callId) ⟨r.callId,r.event,suppressed⟩
    if suppressed then (cache,none) else (cache,some (.shown probe none r.event r.seq))
  else if r.isReturn && r.callId != 0 then
    let slot := cache (cacheSlot r.callId)
    if slot.callId = r.callId then
      let cache := Function.update cache (cacheSlot r.callId)
        { slot with callId := 0, suppressed := false }
      if slot.suppressed then
        (cache,none) else (cache,some (.shown probe (some slot.event) r.event r.seq))
    else (cache,some (.shown probe none r.event r.seq))
  else (cache,some (.shown probe none r.event r.seq))

def cacheAfter (cache : EntryCache) : List Reading → EntryCache
  | [] => cache
  | r::rest => cacheAfter (dumpOneTraceEvent cache r).1 rest

def printed (before : List Reading) (r : Reading) : Option Line :=
  (dumpOneTraceEvent (cacheAfter .zero before) r).2

/- Call ids are not zero, each is on one entry and on one return at most, and no return
comes before its entry. -/
structure Paired (stream : List Reading) : Prop where
  live : ∀ r ∈ stream, r.isEntry || r.isReturn → r.callId ≠ 0
  entries : ((stream.filter Reading.isEntry).map Reading.callId).Nodup
  returns : ((stream.filter Reading.isReturn).map Reading.callId).Nodup
  ordered : ∀ before r after, stream = before ++ r::after → r.isReturn →
    ∃ e ∈ before, e.isEntry ∧ e.callId = r.callId

/- A call of the stream: its entry, what comes in between, and its return. -/
structure Call (stream before : List Reading) (e : Reading) (between : List Reading) (r : Reading)
    (after : List Reading) : Prop where
  split : stream = before ++ e::(between ++ r::after)
  entry : e.isEntry
  ret : r.isReturn
  same : e.callId = r.callId

def Faithful (stream : List Reading) : Prop :=
  ∀ before e between r after, Call stream before e between r after →
  ((printed (before ++ e::between) r).isSome ↔ (printed before e).isSome) ∧
    ∀ line, printed (before ++ e::between) r = some line → line.matched = some e.event

/- No entry with the same residue comes between an entry and its return. -/
def Uncrowded (stream : List Reading) : Prop :=
  ∀ before e between r after, Call stream before e between r after →
  ∀ x ∈ between, x.isEntry → cacheSlot x.callId ≠ cacheSlot e.callId

theorem entryPrinted {cache r} (entry : r.isEntry) (live : r.callId ≠ 0) :
    dumpOneTraceEvent cache r =
      (Function.update cache (cacheSlot r.callId) ⟨r.callId,r.event,eventIsSuppressed r.probe r⟩,
        if eventIsSuppressed r.probe r then
          none else some (.shown r.probe none r.event r.seq)) := by
  have type : r.event.field .eventType = EventType.entry.code := by
    simpa [Reading.isEntry] using entry
  unfold dumpOneTraceEvent
  dsimp only
  rw [if_neg (by rw [type]; decide),if_pos (by simp [entry,live])]
  split <;> rfl

theorem returnPrinted {cache r} (ret : r.isReturn) (live : r.callId ≠ 0) :
    dumpOneTraceEvent cache r =
      if (cache (cacheSlot r.callId)).callId = r.callId then
        (Function.update cache (cacheSlot r.callId)
          { cache (cacheSlot r.callId) with callId := 0, suppressed := false },
          if (cache (cacheSlot r.callId)).suppressed then none
          else some (.shown r.probe (some (cache (cacheSlot r.callId)).event) r.event r.seq))
      else (cache,some (.shown r.probe none r.event r.seq)) := by
  have type : r.event.field .eventType = EventType.ret.code := by simpa [Reading.isReturn] using ret
  have other : r.isEntry = false := by rw [Reading.isEntry,type]; rfl
  unfold dumpOneTraceEvent
  dsimp only
  rw [if_neg (by rw [type]; decide),if_neg (by simp [other]),if_pos (by simp [ret,live])]
  split
  · split <;> rfl
  · rfl

theorem otherPrinted {cache r} (plain : ¬ ((r.isEntry || r.isReturn) ∧ r.callId ≠ 0)) :
    (dumpOneTraceEvent cache r).1 = cache := by
  simp only [Bool.or_eq_true,not_and,not_not] at plain
  unfold dumpOneTraceEvent
  dsimp only
  split
  · rfl
  · split
    · next entry =>
      simp only [Bool.and_eq_true,bne_iff_ne] at entry
      exact absurd (plain (.inl entry.1)) entry.2
    · split
      · next ret =>
        simp only [Bool.and_eq_true,bne_iff_ne] at ret
        exact absurd (plain (.inr ret.1)) ret.2
      · rfl

/- A waiting entry is touched only by an entry in its slot and by its own return. -/
theorem slotKept {cache : EntryCache} {r : Reading} {c : Nat}
    (waits : (cache (cacheSlot c)).callId = c)
    (entry : r.isEntry → cacheSlot r.callId ≠ cacheSlot c) (ret : r.isReturn → r.callId ≠ c) :
    (dumpOneTraceEvent cache r).1 (cacheSlot c) = cache (cacheSlot c) := by
  by_cases event : (r.isEntry || r.isReturn) ∧ r.callId ≠ 0
  · obtain ⟨kind,live⟩ := event
    cases isEntry : r.isEntry with
    | true =>
      rw [entryPrinted isEntry live]
      exact Function.update_of_ne (Ne.symm (entry isEntry)) _ _
    | false =>
      have isReturn : r.isReturn := by simpa [isEntry] using kind
      rw [returnPrinted isReturn live]
      split
      · next own =>
        refine Function.update_of_ne (fun same => ?_) _ _
        rw [← same,waits] at own
        exact ret isReturn own.symm
      · rfl
  · rw [otherPrinted event]

/- Only its entry brings a call id into the cache. -/
theorem foreignKept {cache : EntryCache} {r : Reading} {c : Nat} (live : c ≠ 0)
    (foreign : (cache (cacheSlot c)).callId ≠ c) (entry : r.isEntry → r.callId ≠ c) :
    ((dumpOneTraceEvent cache r).1 (cacheSlot c)).callId ≠ c := by
  by_cases event : (r.isEntry || r.isReturn) ∧ r.callId ≠ 0
  · obtain ⟨kind,some_⟩ := event
    cases isEntry : r.isEntry with
    | true =>
      rw [entryPrinted isEntry some_]
      by_cases same : cacheSlot c = cacheSlot r.callId
      · rw [same]
        simpa using entry isEntry
      · dsimp only
        rwa [Function.update_of_ne same]
    | false =>
      have isReturn : r.isReturn := by simpa [isEntry] using kind
      rw [returnPrinted isReturn some_]
      split
      · by_cases same : cacheSlot c = cacheSlot r.callId
        · rw [same]
          simpa using Ne.symm live
        · dsimp only
          rwa [Function.update_of_ne same]
      · exact foreign
  · rwa [otherPrinted event]

theorem cacheAppend (cache : EntryCache) (before after : List Reading) :
    cacheAfter cache (before ++ after) = cacheAfter (cacheAfter cache before) after := by
  induction before generalizing cache with
  | nil => rfl
  | cons r rest ih => exact ih _

theorem slotWaits {cache : EntryCache} {between : List Reading} {c : Nat}
    (waits : (cache (cacheSlot c)).callId = c)
    (entries : ∀ x ∈ between, x.isEntry → cacheSlot x.callId ≠ cacheSlot c)
    (returns : ∀ x ∈ between, x.isReturn → x.callId ≠ c) :
    cacheAfter cache between (cacheSlot c) = cache (cacheSlot c) := by
  induction between generalizing cache with
  | nil => rfl
  | cons x rest ih =>
    have step := slotKept waits (entries x (.head _)) (returns x (.head _))
    have waits' : ((dumpOneTraceEvent cache x).1 (cacheSlot c)).callId = c := by
      rw [step]; exact waits
    have later := ih waits' (fun y low => entries y (.tail _ low)) fun y low =>
        returns y (.tail _ low)
    exact later.trans step

theorem foreignWaits {cache : EntryCache} {between : List Reading} {c : Nat} (live : c ≠ 0)
    (foreign : (cache (cacheSlot c)).callId ≠ c)
    (entries : ∀ x ∈ between, x.isEntry → x.callId ≠ c) :
    (cacheAfter cache between (cacheSlot c)).callId ≠ c := by
  induction between generalizing cache with
  | nil => exact foreign
  | cons x rest ih =>
    exact ih (foreignKept live foreign (entries x (.head _))) fun y low => entries y (.tail _ low)

variable {stream before between after : List Reading} {e r : Reading}

theorem uniqueBetween {kind : Reading → Bool} {l : List Reading} {x y : Reading}
    {front middle back : List Reading}
    (unique : ((l.filter kind).map Reading.callId).Nodup)
    (split : l = front ++ x::(middle ++ y::back))
    (first : kind x) (last : kind y) : x.callId ≠ y.callId := by
  rw [split] at unique
  simp only [List.filter_append,List.filter_cons_of_pos first,List.filter_cons_of_pos last,
    List.map_append,
    List.map_cons] at unique
  intro same
  have tail := (List.nodup_append.mp unique).2.1
  refine (List.nodup_cons.mp tail).1 ?_
  simp [same]

/- No other entry and no other return of the call lies in between. -/
theorem callAlone (ok : Paired stream) (call : Call stream before e between r after) :
    e.callId ≠ 0 ∧ (∀ x ∈ between, x.isEntry → x.callId ≠ e.callId) ∧
      ∀ x ∈ between, x.isReturn → x.callId ≠ e.callId := by
  refine ⟨ok.live e ?_ (by simp [call.entry]),fun x low entry => ?_,fun x low ret => ?_⟩
  · rw [call.split]; simp
  · obtain ⟨left,right,rfl⟩ := List.append_of_mem low
    have split : stream = before ++ e::(left ++ x::(right ++ r::after)) := by rw [call.split]; simp
    exact Ne.symm (uniqueBetween ok.entries split call.entry entry)
  · obtain ⟨left,right,rfl⟩ := List.append_of_mem low
    have split : stream = (before ++ e::left) ++ x::(right ++ r::after) := by rw [call.split]; simp
    rw [call.same]
    exact uniqueBetween ok.returns split ret call.ret

theorem returnLine (ok : Paired stream) (call : Call stream before e between r after)
    (free : ∀ x ∈ between, x.isEntry → cacheSlot x.callId ≠ cacheSlot e.callId) :
    printed (before ++ e::between) r =
      if eventIsSuppressed e.probe e then
        none else some (.shown r.probe (some e.event) r.event r.seq) := by
  obtain ⟨live,_,returns⟩ := callAlone ok call
  have stored : (cacheAfter .zero (before ++ [e])) (cacheSlot e.callId) =
      ⟨e.callId,e.event,eventIsSuppressed e.probe e⟩ := by
    rw [cacheAppend,cacheAfter,entryPrinted call.entry live,cacheAfter]
    simp
  have own : (cacheAfter .zero (before ++ [e]) (cacheSlot e.callId)).callId = e.callId := by
    rw [stored]
  have waits := slotWaits own free returns
  rw [stored,← cacheAppend] at waits
  have at_ : before ++ e::between = before ++ [e] ++ between := by simp
  rw [printed,at_,returnPrinted call.ret (call.same ▸ live),← call.same,waits,if_pos rfl]

theorem entryLine (ok : Paired stream) (call : Call stream before e between r after) :
    printed before e = if eventIsSuppressed e.probe e then
      none else some (.shown e.probe none e.event e.seq) := by
  rw [printed,entryPrinted call.entry (callAlone ok call).1]

/- An entry in the same slot takes the place for good. -/
theorem crowdedLine (ok : Paired stream) (call : Call stream before e between r after) {x}
    (inside : x ∈ between)
    (entry : x.isEntry) (crowds : cacheSlot x.callId = cacheSlot e.callId) :
    printed (before ++ e::between) r = some (.shown r.probe none r.event r.seq) := by
  obtain ⟨live,entries,_⟩ := callAlone ok call
  obtain ⟨left,right,rfl⟩ := List.append_of_mem inside
  have other := entries x inside entry
  have some_ : x.callId ≠ 0 := ok.live x (by rw [call.split]; simp) (by simp [entry])
  have taken : (cacheAfter .zero (before ++ e::left ++ [x]) (cacheSlot e.callId)).callId ≠
      e.callId := by
    rw [cacheAppend,cacheAfter,entryPrinted entry some_,cacheAfter,← crowds]
    simpa using other
  have later : ∀ y ∈ right, y.isEntry → y.callId ≠ e.callId :=
    fun y low => entries y (by simp [low])
  have gone := foreignWaits live taken later
  rw [← cacheAppend] at gone
  have at_ : before ++ e::(left ++ x::right) = before ++ e::left ++ [x] ++ right := by simp
  rw [printed,at_,returnPrinted call.ret (call.same ▸ live),← call.same,if_neg gone]

/-- In a stream without losses, returns are printed with their entries exactly if no
entry with the same residue of the call id comes between an entry and its return. -/
theorem returnsFollowEntries (stream : List Reading) (ok : Paired stream) :
    Faithful stream ↔ Uncrowded stream := by
  constructor
  · intro faithful before e between r after call x inside entry crowds
    have line := (faithful before e between r after call).2 _
        (crowdedLine ok call inside entry crowds)
    cases line
  · intro free before e between r after call
    have last := returnLine ok call (free before e between r after call)
    rw [last,entryLine ok call]
    split
    · exact ⟨by simp,fun line bad => by cases bad⟩
    · refine ⟨by simp,fun line shown => ?_⟩
      cases shown
      rfl

def filteredSession : Session :=
  Session.init.set 0 { Probe.zero with probeId := 1, filter := ⟨1,true,[],[⟨.num,0,0⟩]⟩ }

def reading (type : EventType) (callId : Nat) : Reading :=
  ⟨filteredSession,[],0,(Event.zero.set .probeId 1).set .eventType type.code |>.set .callId callId⟩

theorem twoPaired (id : Nat) (live : id ≠ 0) : Paired [reading .entry id,reading .ret id] where
  live := by
    intro r member _
    simp only [List.mem_cons,List.not_mem_nil,or_false] at member
    rcases member with rfl | rfl <;> exact live
  entries := by simp [reading,Reading.isEntry,Event.set,EventType.code]
  returns := by simp [reading,Reading.isReturn,Event.set,EventType.code]
  ordered := by
    intro before r after split ret
    match before with
    | [] =>
      cases split
      exact absurd ret (by simp [reading,Reading.isReturn,Event.set,EventType.code])
    | [e] =>
      cases split
      exact ⟨_,.head _,rfl,rfl⟩
    | _::_::rest => simp at split

theorem suppressedCallFaithful : Paired [reading .entry 1,reading .ret 1] ∧
    Faithful [reading .entry 1,reading .ret 1] := by
  have ok := twoPaired 1 (by decide)
  refine ⟨ok,(returnsFollowEntries _ ok).mpr ?_⟩
  intro before e between r after call x inside
  have split := call.split
  match before,between with
  | [],[] => cases inside
  | [],_::_ => simp at split
  | [_],_ => simp at split
  | _::_::_,_ => simp at split

/- A call with the same residue begins while the first call is under way. -/
def crowdedStream : List Reading := [reading .entry 1,reading .entry 4097,reading .ret 1]

theorem crowdedPaired : Paired crowdedStream where
  live := by
    intro r member _
    simp only [crowdedStream,List.mem_cons,List.not_mem_nil,or_false] at member
    rcases member with rfl | rfl | rfl <;> exact (by decide)
  entries := by simp [crowdedStream,reading,Reading.isEntry,Reading.callId,Event.set,EventType.code]
  returns := by simp [crowdedStream,reading,Reading.isReturn,Event.set,EventType.code]
  ordered := by
    intro before r after split ret
    match before with
    | [] =>
      cases split
      exact absurd ret (by simp [reading,Reading.isReturn,Event.set,EventType.code])
    | [_] =>
      cases split
      exact absurd ret (by simp [reading,Reading.isReturn,Event.set,EventType.code])
    | [_,_] =>
      cases split
      exact ⟨_,.head _,rfl,rfl⟩
    | _::_::_::rest => simp [crowdedStream] at split

theorem suppressedCallReturnPrinted : Paired crowdedStream ∧ ¬ Faithful crowdedStream := by
  refine ⟨crowdedPaired,fun faithful => ?_⟩
  have call : Call crowdedStream [] (reading .entry 1) [reading .entry 4097] (reading .ret 1) [] :=
    ⟨rfl,rfl,rfl,rfl⟩
  have pair := (faithful _ _ _ _ _ call).1
  have hidden : (printed [] (reading .entry 1)).isSome = false := by decide +kernel
  have shown : (printed ([] ++ reading .entry 1::[reading .entry 4097]) (reading .ret 1)).isSome =
      true := by decide +kernel
  rw [hidden,shown] at pair
  exact absurd (pair.mp rfl) (by decide)

end ZeroTrace.EventLog
