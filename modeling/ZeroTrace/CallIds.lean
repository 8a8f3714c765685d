import ZeroTrace.ShadowStack

/-! The ids that tie the entry event of a call to its return event. `zt_handle_entry`
leaves the id in a thread-local variable, and `save_probe_frame_c` takes it from there;
a call action runs the target's code in between. -/
namespace ZeroTrace.CallIds
open ShadowStack

/- The calls of a thread that have an id, with their probe: first those that have
returned, then those on the stack. -/
def calls (th : Thread) : List (Nat × Nat) :=
  th.exits.map (fun e => (e.funcId,e.callId)) ++
    (th.stack.filter fun f => f.phase ≠ .entered).map fun f => (f.funcId,f.callId)

/- No probed function is entered from a call action, and the counter does not wrap. -/
def Plain (s : System) (t : Nat) : Step → Prop
  | .call _ _ => ∀ f rest, (s.threads t).stack = f::rest → f.phase ≠ .acting
  | .takeCallId => s.callIdSeq + 1 < 2^64
  | _ => True

instance (s : System) (t : Nat) (a : Step) : Decidable (Plain s t a) := match a with
  | .call _ _ => match top : (s.threads t).stack with
    | [] => isTrue fun f rest same => by rw [top] at same; cases same
    | g::_ => decidable_of_iff (g.phase ≠ .acting)
        ⟨fun other f rest same => by rw [top] at same; cases same; exact other,
          fun all => all g _ top⟩
  | .takeCallId => inferInstanceAs (Decidable (s.callIdSeq + 1 < 2^64))
  | .logEntry _ | .beginAction _ | .endAction
      _ | .saveFrame | .redirect | .ret | .peekProbe | .logReturn _ | .resume =>
    isTrue trivial

inductive PlainlyReached (start : System) : System → Prop where
  | start : PlainlyReached start start
  | step {s s' : System} {t a} (before : PlainlyReached start s) (plain : Plain s t a)
      (next : step s t a = some s') (within : Within start s') : PlainlyReached start s'

theorem plainlyReached {start s : System} (run : PlainlyReached start s) : Reached start s := by
  induction run with
  | start => exact .start
  | step _ _ next within ih => exact .step ih next within

/-! What a step does to the ids of its thread. -/

def Open (f : Frame) : Prop := f.phase ≠ .entered ∧ f.saved = false

structure Carried (th : Thread) (f f' : Frame) (v : Tls) : Prop where
  call : f'.funcId = f.funcId ∧ f'.callId = f.callId ∧ f'.recorded = f.recorded
  phase : f.phase ≠ .entered ∧ f'.phase ≠ .entered
  saved : f'.saved = f.saved
  tls : v.savedFrames = th.tls.savedFrames ∧ v.callStackIdx = th.tls.callStackIdx ∧
    v.lastCallId = th.tls.lastCallId

inductive Numbers (t seq : Nat) (th : Thread) : Step → Nat → Thread → Prop where
  | call (probe ret : Nat) (can : canCall th.stack = true) :
      Numbers t seq th (.call probe ret)
        seq { th with stack := ⟨.address ret,probe,0,.entered,none,ret⟩::th.stack }
  | number {f rest} (top : th.stack = f::rest) (phase : f.phase = .entered) :
      Numbers t seq th .takeCallId ((seq + 1) % 2^64) { th with
        tls := { th.tls with lastCallId := (seq + 1) % 2^64 }
        stack := { f with callId := (seq + 1) % 2^64, phase := .numbered }::rest }
  | carry {a f f' rest v context} (top : th.stack = f::rest) (same : Carried th f f' v) :
      Numbers t seq th a seq { th with tls := v, context := context, stack := f'::rest }
  | save {f rest addr} (top : th.stack = f::rest) (phase : f.phase = .handled) :
      Numbers t seq th .saveFrame seq
        { th with tls := (saveProbeFrame th.tls addr f.funcId).1, stack :=
          { f with phase := .framed }::rest }
  | log {a f rest} (top : th.stack = f::rest) (phase : f.phase = .peeked) :
      Numbers t seq th a seq { th with
        stack := { f with phase := .returned, recorded := some ⟨t,.ret,th.context,
          peekCallId th.tls⟩ }::rest }
  | resume {a f rest} (top : th.stack = f::rest) (phase : f.phase = .returned) :
      Numbers t seq th a seq { th with
        tls := (getRetAddr th.tls).1, stack := rest
        exits := th.exits ++ [⟨f.origin,f.funcId,f.callId,(getRetAddr th.tls).2,f.recorded⟩] }

def Entered (s s' : System) (t : Nat) : Prop := ∀ ev ∈ s'.events, ev ∈ s.events ∨
    (ev.type = .entry →
  ev.tid = t ∧ ∃ f rest, (s'.threads t).stack = f::rest ∧ f.phase ≠ .entered ∧
    ev.probeId = f.funcId ∧ ev.callId = f.callId)

theorem carriedPhase {th f v slot phase} (numbered : f.phase ≠ .entered ∧ phase ≠ .entered)
    (saved : ({ f with slot := slot, phase := phase } : Frame).saved = f.saved)
    (tls : v.savedFrames = th.tls.savedFrames ∧ v.callStackIdx = th.tls.callStackIdx ∧
      v.lastCallId = th.tls.lastCallId) :
    Carried th f { f with slot := slot, phase := phase } v := ⟨⟨rfl,rfl,rfl⟩,numbered,saved,tls⟩

theorem stepNumbers {s s' : System} {t a} (h : step s t a = some s') :
    ∃ th, s'.threads = Function.update s.threads t th ∧ Numbers t s.callIdSeq (s.threads t) a s'.callIdSeq th := by
  obtain ⟨th,events,changed,_,does⟩ := stepDid h
  refine ⟨th,changed,?_⟩
  generalize s'.callIdSeq = seq at does
  cases does with
  | call probe ret can => exact .call probe ret can
  | number top phase => exact .number top phase
  | save top phase => exact .save top phase
  | log top phase => exact .log top phase
  | resume top phase => exact .resume top phase
  | entry top phase | noEntry top phase | noAction top phase | action top phase | acted top phase | redirect top phase | ret top phase
    | peek top phase | noLog top phase =>
    exact .carry top (carriedPhase (by simp [phase]) (by simp [Frame.saved,phase]) ⟨rfl,rfl,rfl⟩)

theorem stepEntered {s s' : System} {t a} (h : step s t a = some s') : Entered s s' t := by
  obtain ⟨th,events,changed,more,does⟩ := stepDid h
  intro ev member
  rw [more] at member
  rcases List.mem_append.mp member with old | new
  · exact .inl old
  · refine .inr fun entered => ?_
    rw [changed]
    generalize s'.callIdSeq = seq at does
    cases does with
    | @entry f rest top phase =>
      cases List.mem_singleton.mp new
      exact ⟨rfl,{ f with phase := .logged },rest,by simp,by simp,rfl,rfl⟩
    | @acted f rest reserved top phase =>
      cases reserved with
      | true => cases List.mem_singleton.mp new; cases entered
      | false => cases new
    | log => cases List.mem_singleton.mp new; cases entered
    | _ => cases new

/- From the topmost call down, the saved frame of each call has the id of the call. -/
def Labels (saved : Nat → SavedFrame) : List Frame → Nat → Prop
  | [],_ => True
  | f::rest,idx => if f.saved then ∃ k, idx = k + 1 ∧ (saved k).callId = f.callId ∧
      Labels saved rest k
      else Labels saved rest idx

theorem labelsBelow {saved saved' : Nat → SavedFrame} {stack idx}
    (same : ∀ k, k < idx → saved' k = saved k)
    (h : Labels saved stack idx) : Labels saved' stack idx := by
  induction stack generalizing idx with
  | nil => exact h
  | cons f rest ih =>
    unfold Labels at h ⊢
    split at h
    · next framed =>
      rw [if_pos framed]
      obtain ⟨k,top,id,below⟩ := h
      exact ⟨k,top,by rw [same k (by omega)]; exact id,ih (fun j low => same j (by omega)) below⟩
    · next open_ =>
      rw [if_neg open_]
      exact ih same h

theorem labelsTop {saved : Nat → SavedFrame} {f f' rest idx} (h : Labels saved (f::rest) idx)
    (framed : f'.saved = f.saved) (id : f'.callId = f.callId) : Labels saved (f'::rest) idx := by
  unfold Labels at h ⊢
  rw [framed,id]
  exact h

structure Labelled (th : Thread) : Prop where
  labels : Labels th.tls.savedFrames th.stack th.tls.callStackIdx
  current : ∀ f rest, th.stack = f::rest → Open f → th.tls.lastCallId = f.callId
  waiting : ∀ f ∈ th.stack.tail, f.phase = .running
  fresh : ∀ f ∈ th.stack, f.phase = .entered → f.recorded = none
  recorded : ∀ f ∈ th.stack, ∀ r, f.recorded = some r → r.callId = f.callId
  exits : ∀ e ∈ th.exits, ∀ r, e.recorded = some r → r.callId = e.callId

theorem labelledCall {th : Thread} (probe ret : Nat) (h : Labelled th)
    (can : canCall th.stack = true)
    (plain : ∀ f rest, th.stack = f::rest → f.phase ≠ .acting) :
    Labelled { th with stack := ⟨.address ret,probe,0,.entered,none,ret⟩::th.stack } where
  labels := h.labels
  current := by
    intro f rest same open_
    cases same
    exact absurd rfl open_.1
  waiting := by
    intro f member
    have old : f ∈ th.stack := member
    cases stack : th.stack with
    | nil => rw [stack] at old; cases old
    | cons g rest =>
      rw [stack] at old can
      rcases List.mem_cons.mp old with rfl | low
      · have either : f.phase = .running ∨ f.phase = .acting := by simpa [canCall] using can
        exact either.resolve_right (plain f rest stack)
      · exact h.waiting f (by rw [stack]; exact low)
  fresh := by
    intro f member entered
    rcases List.mem_cons.mp member with rfl | old
    · rfl
    · exact h.fresh f old entered
  recorded := by
    intro f member r found
    rcases List.mem_cons.mp member with rfl | old
    · cases found
    · exact h.recorded f old r found
  exits := h.exits

theorem labelledTop {th : Thread} {f f' rest v context} (h : Labelled th) (top : th.stack = f::rest)
    (numbered : f'.phase ≠ .entered) (labels : Labels v.savedFrames (f'::rest) v.callStackIdx)
    (current : Open f' → v.lastCallId = f'.callId)
    (recorded : ∀ r, f'.recorded = some r → r.callId = f'.callId) :
    Labelled { th with tls := v, context := context, stack := f'::rest } where
  labels := labels
  current := by
    intro g below same
    cases same
    exact current
  waiting := fun g member => h.waiting g (by rw [top]; exact member)
  fresh := by
    intro g member entered
    rcases List.mem_cons.mp member with rfl | old
    · exact absurd entered numbered
    · exact h.fresh g (by rw [top]; exact .tail _ old) entered
  recorded := by
    intro g member
    rcases List.mem_cons.mp member with rfl | old
    · exact recorded
    · exact h.recorded g (by rw [top]; exact .tail _ old)
  exits := h.exits

theorem topLabel {th : Thread} {f rest} (h : Labelled th) (top : th.stack = f::rest)
    (framed : f.saved = true) :
    ∃ k, th.tls.callStackIdx = k + 1 ∧ (th.tls.savedFrames k).callId = f.callId ∧
      Labels th.tls.savedFrames rest k := by
  have labels := h.labels
  rw [top] at labels
  unfold Labels at labels
  rwa [if_pos framed] at labels

theorem topKept {th : Thread} {f rest} (h : Labelled th) (top : th.stack = f::rest) :
    ∀ r, f.recorded = some r → r.callId = f.callId := h.recorded f (by rw [top]; exact .head _)

theorem labelledNumber {th : Thread} {f rest id} (h : Labelled th) (top : th.stack = f::rest)
    (phase : f.phase = .entered) :
    Labelled { th with
      tls := { th.tls with lastCallId := id }, stack :=
  { f with callId := id, phase := .numbered }::rest } := by
  have unrecorded := h.fresh f (by rw [top]; exact .head _) phase
  have labels := h.labels
  rw [top] at labels
  unfold Labels at labels
  rw [if_neg (by simp [Frame.saved,phase])] at labels
  refine labelledTop h top (by simp) ?_ (fun _ => rfl) fun r found => ?_
  · unfold Labels
    rwa [if_neg (by simp [Frame.saved])]
  · rw [show f.recorded = some r from found] at unrecorded
    cases unrecorded

theorem labelledCarry {th : Thread} {f f' rest v context} (h : Labelled th)
    (top : th.stack = f::rest)
    (same : Carried th f f' v) :
    Labelled { th with tls := v, context := context, stack := f'::rest } := by
  have labels := h.labels
  rw [top] at labels
  refine labelledTop h top same.phase.2 ?_ (fun open_ => ?_) fun r found => ?_
  · rw [same.tls.1,same.tls.2.1]
    exact labelsTop labels same.saved same.call.2.1
  · rw [same.tls.2.2,same.call.2.1]
    exact h.current f rest top ⟨same.phase.1,same.saved.symm.trans open_.2⟩
  · rw [same.call.2.1]
    exact topKept h top r (same.call.2.2.symm.trans found)

theorem labelledSave {th : Thread} {f rest a} (h : Labelled th) (top : th.stack = f::rest)
    (phase : f.phase = .handled)
    (room : th.tls.callStackIdx < maxSavedRetAddr) :
    Labelled { th with tls := (saveProbeFrame th.tls a f.funcId).1, stack :=
  { f with phase := .framed }::rest } := by
  have unsaved : f.saved = false := by simp [Frame.saved,phase]
  have last := h.current f rest top ⟨by simp [phase],unsaved⟩
  have labels := h.labels
  rw [top] at labels
  unfold Labels at labels
  rw [if_neg (by simp [unsaved])] at labels
  have kept := topKept h top
  refine labelledTop h top (by simp) ?_ (fun open_ => absurd open_.2 (by simp [Frame.saved])) kept
  unfold saveProbeFrame
  rw [if_neg (Nat.not_le_of_lt room)]
  have framed : ({ f with phase := .framed } : Frame).saved = true := rfl
  unfold Labels
  rw [if_pos framed]
  refine ⟨th.tls.callStackIdx,rfl,by simp [last],labelsBelow (fun k low => ?_) labels⟩
  exact Function.update_of_ne (Nat.ne_of_lt low) _ _

theorem labelledLog {t} {th : Thread} {f rest} (h : Labelled th) (top : th.stack = f::rest)
    (phase : f.phase = .peeked) :
    Labelled { th with
      stack := { f with phase := .returned, recorded := some ⟨t,.ret,th.context,
        peekCallId th.tls⟩ }::rest } := by
  have framed : f.saved = true := by simp [Frame.saved,phase]
  obtain ⟨k,idx,id,_⟩ := topLabel h top framed
  have labels := h.labels
  rw [top] at labels
  refine labelledTop h top (by simp) (labelsTop labels (by simp [Frame.saved,phase]) rfl)
    (fun open_ => absurd open_.2 (by simp [Frame.saved])) fun r found => ?_
  cases found
  simp [peekCallId,idx,id]

theorem labelledResume {th : Thread} {f rest} (h : Labelled th) (top : th.stack = f::rest)
    (phase : f.phase = .returned) :
    Labelled { th with
      tls := (getRetAddr th.tls).1, stack := rest
      exits := th.exits ++ [⟨f.origin,f.funcId,f.callId,(getRetAddr th.tls).2,f.recorded⟩] } := by
  have framed : f.saved = true := by simp [Frame.saved,phase]
  obtain ⟨k,idx,_,below⟩ := topLabel h top framed
  have back : (getRetAddr th.tls).1 = { th.tls with callStackIdx := k } := by simp [getRetAddr,idx]
  have waiting : ∀ g ∈ rest, g.phase = .running :=
    fun g member => h.waiting g (by rw [top]; exact member)
  constructor
  · rw [back]
    exact below
  · intro g lower same open_
    have member : g ∈ rest := by rw [show rest = _ from same]; exact .head _
    exact absurd open_.2 (by simp [Frame.saved,waiting g member])
  · exact fun g member => waiting g (List.mem_of_mem_tail member)
  · exact fun g member => h.fresh g (by rw [top]; exact .tail _ member)
  · exact fun g member => h.recorded g (by rw [top]; exact .tail _ member)
  · intro e member
    rcases List.mem_append.mp member with old | new
    · exact h.exits e old
    · cases List.mem_singleton.mp new
      exact topKept h top

theorem labelledNumbers {s : System} {t seq : Nat} {a th} (h : Labelled (s.threads t))
    (numbers : Numbers t s.callIdSeq (s.threads t) a seq th) (plain : Plain s t a)
    (room : ∀ f rest, (s.threads t).stack = f::rest → f.phase = .handled →
      (s.threads t).tls.callStackIdx < maxSavedRetAddr) : Labelled th := by
  cases numbers with
  | call probe ret can => exact labelledCall probe ret h can plain
  | number top phase => exact labelledNumber h top phase
  | carry top same => exact labelledCarry h top same
  | save top phase => exact labelledSave h top phase (room _ _ top phase)
  | log top phase => exact labelledLog h top phase
  | resume top phase => exact labelledResume h top phase

structure Distinct (s : System) : Prop where
  once : ∀ t, ((calls (s.threads t)).map Prod.snd).Nodup
  apart : ∀ t u, t ≠ u → ∀ c ∈ calls (s.threads t), ∀ d ∈ calls (s.threads u), c.2 ≠ d.2
  drawn : ∀ t, ∀ c ∈ calls (s.threads t), c.2 ≤ s.callIdSeq

theorem numbersCalls
    {s : System} {t seq : Nat} {a th} (numbers : Numbers t s.callIdSeq (s.threads t) a seq th)
    (plain : Plain s t a) :
    (seq = s.callIdSeq ∧ calls th = calls (s.threads t)) ∨
    (seq = s.callIdSeq + 1 ∧ ∃ left right probe, calls (s.threads t) = left ++ right ∧
      calls th = left ++ (probe,s.callIdSeq + 1)::right) := by
  cases numbers with
  | call probe ret can => exact .inl ⟨rfl,by simp [calls]⟩
  | @number f rest top phase =>
    have next : (s.callIdSeq + 1) % 2^64 = s.callIdSeq + 1 := Nat.mod_eq_of_lt plain
    refine .inr ⟨next,(s.threads t).exits.map fun e => (e.funcId,e.callId),
      (rest.filter fun f => f.phase ≠ .entered).map fun f => (f.funcId,f.callId),f.funcId,?_,?_⟩
    · simp [calls,top,phase]
    · rw [next]; simp [calls]
  | carry top same => exact .inl ⟨rfl,by simp [calls,top,same.phase.1,same.phase.2,same.call.1,same.call.2.1]⟩
  | save top phase => exact .inl ⟨rfl,by simp [calls,top,phase]⟩
  | log top phase => exact .inl ⟨rfl,by simp [calls,top,phase]⟩
  | resume top phase => exact .inl ⟨rfl,by simp [calls,top,phase]⟩

theorem distinctStep {s s' : System} {t a th} (h : Distinct s) (plain : Plain s t a)
    (changed : s'.threads = Function.update s.threads t th)
    (numbers : Numbers t s.callIdSeq (s.threads t) a s'.callIdSeq th) : Distinct s' := by
  have here : s'.threads t = th := by rw [changed]; simp
  have other : ∀ u, u ≠ t → s'.threads u = s.threads u := fun u differ => by
    rw [changed]; simp [differ]
  rcases numbersCalls numbers plain with ⟨seq,same⟩ | ⟨seq,left,right,probe,before,after⟩
  · have all : ∀ u, calls (s'.threads u) = calls (s.threads u) := by
      intro u
      by_cases at_ : u = t
      · subst at_; rw [here,same]
      · rw [other u at_]
    constructor
    · intro u; rw [all]; exact h.once u
    · intro u v differ; rw [all,all]; exact h.apart u v differ
    · intro u; rw [all,seq]; exact h.drawn u
  · have member : ∀ u, ∀ c ∈ calls (s'.threads u), c ∈ calls (s.threads u) ∨ u = t ∧
      c.2 = s.callIdSeq + 1 := by
      intro u c inside
      by_cases at_ : u = t
      · subst at_
        rw [here,after] at inside
        rcases List.mem_append.mp inside with low | high
        · exact .inl (by rw [before]; exact List.mem_append_left _ low)
        · rcases List.mem_cons.mp high with rfl | low
          · exact .inr ⟨rfl,rfl⟩
          · exact .inl (by rw [before]; exact List.mem_append_right _ low)
      · rw [other u at_] at inside
        exact .inl inside
    constructor
    · intro u
      by_cases at_ : u = t
      · subst at_
        have once := h.once u
        rw [before,List.map_append] at once
        rw [here,after,List.map_append,List.map_cons]
        refine (List.perm_middle.nodup_iff).mpr (List.nodup_cons.mpr ⟨fun old => ?_,once⟩)
        rw [← List.map_append,← before] at old
        obtain ⟨c,inside,same⟩ := List.mem_map.mp old
        have low := h.drawn u c inside
        omega
      · rw [other u at_]; exact h.once u
    · intro u v differ c inside d inside' same
      rcases member u c inside with old | ⟨rfl,new⟩ <;> rcases member v d inside'
        with old' | ⟨rfl,new'⟩
      · exact h.apart u v differ c old d old' same
      · have low := h.drawn u c old
        omega
      · have low := h.drawn v d old'
        omega
      · exact differ rfl
    · intro u c inside
      rw [seq]
      rcases member u c inside with old | ⟨_,new⟩
      · exact Nat.le_succ_of_le (h.drawn u c old)
      · exact Nat.le_of_eq new

def Traced (s : System) : Prop := ∀ ev ∈ s.events, ev.type = .entry →
    (ev.probeId,ev.callId) ∈ calls (s.threads ev.tid)

theorem tracedStep {s s' : System} {t a th} (h : Traced s) (plain : Plain s t a)
    (next : step s t a = some s')
    (changed : s'.threads = Function.update s.threads t th)
    (numbers : Numbers t s.callIdSeq (s.threads t) a s'.callIdSeq th) : Traced s' := by
  have kept : ∀ u, ∀ c ∈ calls (s.threads u), c ∈ calls (s'.threads u) := by
    intro u c inside
    rw [changed]
    by_cases at_ : u = t
    · subst at_
      rw [Function.update_self]
      rcases numbersCalls numbers plain with ⟨_,same⟩ | ⟨_,left,right,probe,before,after⟩
      · rw [same]; exact inside
      · rw [before] at inside
        rw [after]
        rcases List.mem_append.mp inside with low | high
        · exact List.mem_append_left _ low
        · exact List.mem_append_right _ (.tail _ high)
    · rw [Function.update_of_ne at_]; exact inside
  intro ev member entry
  rcases stepEntered next ev member with old | new
  · exact kept ev.tid _ (h ev old entry)
  · obtain ⟨tid,f,rest,top,numbered,probe,id⟩ := new entry
    rw [tid,calls,top,probe,id]
    refine List.mem_append_right _ (List.mem_map.mpr ⟨f,List.mem_filter.mpr ⟨.head _,?_⟩,rfl⟩)
    simpa using numbered

structure Idle (s : System) : Prop where
  fresh : Fresh s
  silent : s.events = []

theorem plainlyLabelled {start s : System} (idle : Idle start) (run : PlainlyReached start s) :
    (∀ t, Labelled (s.threads t)) ∧ Distinct s ∧ Traced s := by
  induction run with
  | start =>
    have none_ : ∀ t, calls (start.threads t) = [] := fun t => by
      obtain ⟨empty,exits⟩ := idle.fresh t
      simp [calls,empty,exits]
    refine ⟨fun t => ?_,⟨?_,?_,?_⟩,?_⟩
    · obtain ⟨empty,exits⟩ := idle.fresh t
      constructor
      · rw [empty]; trivial
      · simp [empty]
      · simp [empty]
      · simp [empty]
      · simp [empty]
      · simp [exits]
    · simp [none_]
    · simp [none_]
    · simp [none_]
    · simp [Traced,idle.silent]
  | @step s s' t a before plain next within ih =>
    obtain ⟨labelled,distinct,traced⟩ := ih
    obtain ⟨th,changed,numbers⟩ := stepNumbers next
    refine ⟨fun u => ?_,distinctStep distinct plain changed numbers,
      tracedStep traced plain next changed numbers⟩
    rw [changed]
    by_cases at_ : u = t
    · subst at_
      rw [Function.update_self]
      refine labelledNumbers (labelled u) numbers plain fun f rest top phase => ?_
      -- The call to be saved is still on the stack, but not among the saved frames.
      have good := reachedGood idle.fresh (plainlyReached before) u
      have mirrors := good.mirrors
      rw [top] at mirrors
      unfold Mirrors at mirrors
      rw [if_neg (by simp [Frame.saved,phase])] at mirrors
      have height := mirrorsHeight mirrors
      cases before with
      | start =>
        rw [(idle.fresh u).1] at top
        cases top
      | step _ _ _ room =>
        have bound := room u
        rw [top,List.length_cons] at bound
        omega
    · rw [Function.update_of_ne at_]
      exact labelled u

/-- As long as no call action enters a probed function and the counter does not wrap:
the return event of a call has the id of the call, every entry event is that of a call
of its thread with its id, and no two calls have the same id. -/
theorem callIdsPaired {start s : System} (idle : Idle start) (run : PlainlyReached start s) :
    (∀ t, ∀ e ∈ (s.threads t).exits, ∀ r, e.recorded = some r → r.callId = e.callId) ∧
    (∀ ev ∈ s.events, ev.type = .entry → (ev.probeId,ev.callId) ∈ calls (s.threads ev.tid)) ∧
    (∀ t, ((calls (s.threads t)).map Prod.snd).Nodup) ∧
    ∀ t u, t ≠ u → ∀ c ∈ calls (s.threads t), ∀ d ∈ calls (s.threads u), c.2 ≠ d.2 := by
  obtain ⟨labelled,distinct,traced⟩ := plainlyLabelled idle run
  exact ⟨fun t => (labelled t).exits,traced,distinct.once,distinct.apart⟩

def plainSteps (s : System) : List (Nat × Step) → Bool
  | [] => true
  | (t,a)::rest => decide (Plain s t a) && match step s t a with
    | none => false
    | some s' => plainSteps s' rest

/- Fewer steps than there are frames stay within the bound. -/
theorem shortPlainly {start s s' : System} {l : List (Nat × Step)} (before : PlainlyReached start s)
    (short : ∀ t, (start.threads t).tls.callStackIdx + (s.threads t).stack.length + l.length ≤
      maxSavedRetAddr)
    (plain : plainSteps s l = true) (run : runSteps s l = some s') : PlainlyReached start s' := by
  induction l generalizing s with
  | nil => cases run; exact before
  | cons head rest ih =>
    obtain ⟨t,a⟩ := head
    obtain ⟨s1,next,later⟩ := Option.bind_eq_some_iff.mp run
    have low := fun u => heightLeft next u (short u)
    simp only [plainSteps,next,Bool.and_eq_true,decide_eq_true_eq] at plain
    exact ih (.step before plain.1 next fun u => by have := low u; omega) low plain.2 later

theorem interleavedIdsPaired : ∃ s, runSteps quiet interleaved = some s ∧
    (s.threads 0).exits.length = 2 ∧
    ∀ e ∈ (s.threads 0).exits, ∀ r, e.recorded = some r → r.callId = e.callId := by
  have done : ((runSteps quiet interleaved).map fun s => (s.threads 0).exits.length) = some 2 := by
    decide +kernel
  have plain : plainSteps quiet interleaved = true := by decide +kernel
  cases run : runSteps quiet interleaved with
  | none => rw [run] at done; cases done
  | some s =>
    rw [run] at done
    have idle : Idle quiet := ⟨fun _ => ⟨rfl,rfl⟩,rfl⟩
    have short : 0 + ([] : List Frame).length + interleaved.length ≤ maxSavedRetAddr := by decide
    have reached := shortPlainly .start (fun _ => short) plain run
    exact ⟨s,rfl,Option.some.inj done,(callIdsPaired idle reached).1 0⟩

/- The call action of probe 7 calls the function of probe 8. -/
def nested : List (Nat × Step) :=
  [(0,.call 7 0x400),(0,.takeCallId),(0,.logEntry true),(0,.beginAction true),
    (0,.call 8 0x700),(0,.takeCallId),(0,.logEntry true),(0,.beginAction true),(0,.saveFrame),(0,
      .redirect),(0,.ret),
    (0,.peekProbe),(0,.logReturn true),(0,.resume),
    (0,.endAction true),(0,.saveFrame),(0,.redirect),(0,.ret),(0,.peekProbe),(0,.logReturn true),
      (0,.resume)]

theorem actionTakesCallId : ∃ s, Reached quiet s ∧ ⟨0,.entry,7,1⟩ ∈ s.events ∧
    ∃ e ∈ (s.threads 0).exits, ∃ r, e.recorded = some r ∧ e.funcId = 7 ∧ e.callId = 1 ∧
      r.callId = 2 := by
  have done : ((runSteps quiet nested).map fun s => (s.events[0]?,(s.threads 0).exits[1]?)) =
      some (some ⟨0,.entry,7,1⟩,some ⟨0x400,7,1,0x400,some ⟨0,.ret,7,2⟩⟩) := by decide +kernel
  cases run : runSteps quiet nested with
  | none => rw [run] at done; cases done
  | some s =>
    rw [run] at done
    have short : 0 + ([] : List Frame).length + nested.length ≤ maxSavedRetAddr := by decide
    have both := Prod.mk.inj (Option.some.inj done)
    exact ⟨s,shortReached .start (fun _ => short) run,List.mem_of_getElem? both.1,_,
      List.mem_of_getElem? both.2,_,
      rfl,rfl,rfl,rfl⟩

end ZeroTrace.CallIds
