import Mathlib.Tactic.IntervalCases
import ZeroTrace.ShadowStack

/-! A signal arrives while a thread is in `save_probe_frame_c` or `get_ret_addr_c`, and its
handler makes probed calls of its own. The two functions are written out as their single
accesses to thread-local memory, in source order. -/
namespace ZeroTrace.SignalReentry
open ShadowStack

inductive Cell where
  | idx
  | last
  | ret (k : Nat)
  | probe (k : Nat)
  | call (k : Nat)
  deriving DecidableEq, Repr

def read (v : Tls) : Cell → Nat
  | .idx => v.callStackIdx
  | .last => v.lastCallId
  | .ret k => (v.savedFrames k).retAddr
  | .probe k => (v.savedFrames k).probeId
  | .call k => (v.savedFrames k).callId

def write (v : Tls) (c : Cell) (x : Nat) : Tls := match c with
  | .idx => { v with callStackIdx := x }
  | .last => { v with lastCallId := x }
  | .ret k => { v with savedFrames := Function.update v.savedFrames k { v.savedFrames k
      with retAddr := x } }
  | .probe k => { v with savedFrames := Function.update v.savedFrames k { v.savedFrames k
      with probeId := x } }
  | .call k => { v with savedFrames := Function.update v.savedFrames k { v.savedFrames k
      with callId := x } }

inductive Code where
  | done (result : Nat)
  | load (c : Cell) (next : Nat → Code)
  | store (c : Cell) (x : Nat) (next : Code)

def Code.run : Code → Tls → Tls × Nat
  | .done r,v => (v,r)
  | .load c next,v => (next (read v c)).run v
  | .store c x next,v => next.run (write v c x)

def Code.reached : Code → Nat → Tls → Tls
  | .done _,_,v => v
  | .load _ _,0,v => v
  | .store _ _ _,0,v => v
  | .load c next,n+1,v => (next (read v c)).reached n v
  | .store c x next,n+1,v => next.reached n (write v c x)

def Code.interrupted (handler : Tls → Tls) : Code → Nat → Tls → Tls × Nat
  | .done r,_,v => (v,r)
  | .load c next,0,v => (Code.load c next).run (handler v)
  | .store c x next,0,v => (Code.store c x next).run (handler v)
  | .load c next,n+1,v => (next (read v c)).interrupted handler n v
  | .store c x next,n+1,v => next.interrupted handler n (write v c x)

/- `++call_stack_idx` and `--call_stack_idx` are a load and a store. -/
def saveCode (retAddr funcId : Nat) : Code :=
  .load .idx fun full => if maxSavedRetAddr ≤ full then .done 1 else
    .load .idx fun i => .store (.ret i) retAddr <|
    .load .idx fun i => .store (.probe i) funcId <|
    .load .idx fun i => .load .last fun id => .store (.call i) id <|
    .load .idx fun i => .store .idx (i + 1) <|
    .done 0

def popCode : Code :=
  .load .idx fun empty => if empty = 0 then .done 0 else
    .load .idx fun i => .store .idx (i - 1) <|
    .load .idx fun i => .load (.ret i) fun addr => .done addr

theorem saveCodeRun (v : Tls) (retAddr funcId : Nat) : (saveCode retAddr funcId).run v = saveProbeFrame v retAddr funcId := by
  by_cases full : maxSavedRetAddr ≤ v.callStackIdx
  · simp [saveCode,saveProbeFrame,Code.run,read,full]
  · simp [saveCode,saveProbeFrame,Code.run,read,write,full]

theorem popCodeRun (v : Tls) : popCode.run v = getRetAddr v := by
  by_cases empty : v.callStackIdx = 0
  · simp [popCode,getRetAddr,Code.run,read,empty]
  · simp [popCode,getRetAddr,Code.run,read,write,empty]

/- Probed calls one after the other, each with the calls of its call action and of its body.
`others` is how many ids other threads take before it takes its own. -/
inductive Calls where
  | none
  | call (ret probe others : Nat) (action body rest : Calls)
  deriving DecidableEq, Repr

def handleAction (run : Tls × Nat → Tls × Nat) (v : Tls) (seq : Nat) : Tls × Nat :=
  if v.inCallAction then (v,seq) else
    let r := run ({ v with inCallAction := true },seq)
    ({ r.1 with inCallAction := false },r.2)

/- One probed call: `zt_handle_entry` with its call action, the frame, the body, the return. -/
def callOnce (action body : Tls × Nat → Tls × Nat) (ret probe others : Nat)
    (w : Tls × Nat) : Tls × Nat :=
  let id := (w.2 + others + 1) % 2^64
  let acted := handleAction action { w.1 with lastCallId := id } id
  let inside := body ((saveProbeFrame acted.1 ret probe).1,acted.2)
  ((getRetAddr inside.1).1,inside.2)

def Calls.run : Calls → Tls × Nat → Tls × Nat
  | .none,w => w
  | .call ret probe others action body rest,w =>
      rest.run (callOnce action.run body.run ret probe others w)

/- No call is made with every frame in use. -/
def Calls.Fits : Calls → Nat → Prop
  | .none,_ => True
  | .call _ _ _ action body rest,idx => action.Fits idx ∧ idx < maxSavedRetAddr ∧
      body.Fits (idx + 1) ∧ rest.Fits idx

/- The return address and the probe of the last call that is made from the handler itself. -/
def Calls.last : Calls → Option (Nat × Nat)
  | .none => Option.none
  | .call ret probe _ _ _ rest => rest.last.or (some (ret,probe))

def Calls.taken : Calls → Nat
  | .none => 0
  | .call _ _ others action body rest => others + 1 + action.taken + body.taken + rest.taken

structure Kept (v v' : Tls) : Prop where
  idx : v'.callStackIdx = v.callStackIdx
  frames : ∀ k, k < v.callStackIdx → v'.savedFrames k = v.savedFrames k

theorem keptTrans {v v' v'' : Tls} (first : Kept v v') (second : Kept v' v'') : Kept v v'' where
  idx := second.idx.trans first.idx
  frames k low := (second.frames k (by rw [first.idx]; exact low)).trans (first.frames k low)

structure Counts (n : Nat) (w r : Tls × Nat) : Prop where
  low : w.2 ≤ r.2
  high : r.2 ≤ w.2 + n
  last : r.1.lastCallId = w.1.lastCallId ∧ r.2 = w.2 ∨ w.2 < r.1.lastCallId

/- What the handler leaves behind: the frames in use, and above them the frame of its last
call, under a new id. -/
structure Leaves (h : Calls) (w r : Tls × Nat) : Prop where
  kept : Kept w.1 r.1
  last : ∀ ret probe, h.last = some (ret,probe) →
    (r.1.savedFrames w.1.callStackIdx).retAddr = ret ∧
      (r.1.savedFrames w.1.callStackIdx).probeId = probe
  counts : w.2 + h.taken < 2^64 → Counts h.taken w r ∧
    (h ≠ .none → w.2 < r.1.lastCallId ∧ w.2 < (r.1.savedFrames w.1.callStackIdx).callId)

theorem actionLeaves {h : Calls} {v : Tls} {seq : Nat}
    (inner : ∀ w : Tls × Nat, w.1.callStackIdx = v.callStackIdx → Leaves h w (h.run w)) :
    Kept v (handleAction h.run v seq).1 ∧
      (seq + h.taken < 2^64 → Counts h.taken (v,seq) (handleAction h.run v seq)) := by
  unfold handleAction
  split
  · exact ⟨⟨rfl,fun _ _ => rfl⟩,fun _ => ⟨Nat.le_refl _,Nat.le_add_right _ _,.inl ⟨rfl,rfl⟩⟩⟩
  · have left := inner ({ v with inCallAction := true },seq) rfl
    refine ⟨⟨left.kept.idx,left.kept.frames⟩,fun few => ?_⟩
    obtain ⟨counts,_⟩ := left.counts few
    exact ⟨counts.low,counts.high,counts.last⟩

theorem bodyKept {v v' : Tls} {ret probe : Nat} (room : v.callStackIdx < maxSavedRetAddr)
    (body : Kept (saveProbeFrame v ret probe).1 v') :
    Kept v (getRetAddr v').1 ∧ (getRetAddr v').1.savedFrames v.callStackIdx =
      ⟨ret,probe,v.lastCallId⟩ := by
  have saved : saveProbeFrame v ret probe = ({ v with
      savedFrames := Function.update v.savedFrames v.callStackIdx ⟨ret,probe,v.lastCallId⟩
      callStackIdx := v.callStackIdx + 1 },0) := if_neg (Nat.not_le_of_lt room)
  rw [saved] at body
  have idx : v'.callStackIdx = v.callStackIdx + 1 := body.idx
  have back : (getRetAddr v').1 = { v' with callStackIdx := v.callStackIdx } := by
    simp [getRetAddr,idx]
  rw [back]
  refine ⟨⟨rfl,fun k low => ?_⟩,?_⟩
  · refine (body.frames k (Nat.lt_succ_of_lt low)).trans ?_
    exact Function.update_of_ne (Nat.ne_of_lt low) _ _
  · refine (body.frames v.callStackIdx (Nat.lt_succ_self _)).trans ?_
    exact Function.update_self _ _ _

section Once
variable {action body : Calls} {ret probe others : Nat} {w : Tls × Nat}

theorem onceLeaves (room : w.1.callStackIdx < maxSavedRetAddr)
    (acting : ∀ w' : Tls × Nat, w'.1.callStackIdx = w.1.callStackIdx →
      Leaves action w' (action.run w'))
    (inside : ∀ w' : Tls × Nat, w'.1.callStackIdx = w.1.callStackIdx + 1 →
      Leaves body w' (body.run w')) :
    Leaves (.call ret probe others action body .none) w
      (callOnce action.run body.run ret probe others w) := by
  let id := (w.2 + others + 1) % 2^64
  obtain ⟨acted,ids⟩ := @actionLeaves action { w.1 with lastCallId := id } id acting
  unfold callOnce
  dsimp only
  generalize handleAction action.run { w.1 with lastCallId := id } id = a at acted ids ⊢
  have idx : a.1.callStackIdx = w.1.callStackIdx := acted.idx
  have free : a.1.callStackIdx < maxSavedRetAddr := by rw [idx]; exact room
  have saved : (saveProbeFrame a.1 ret probe).1.callStackIdx = w.1.callStackIdx + 1 ∧
      (saveProbeFrame a.1 ret probe).1.lastCallId = a.1.lastCallId := by
    rw [saveProbeFrame,if_neg (Nat.not_le_of_lt free),idx]
    exact ⟨rfl,rfl⟩
  have ran := inside ((saveProbeFrame a.1 ret probe).1,a.2) saved.1
  generalize body.run ((saveProbeFrame a.1 ret probe).1,a.2) = b at ran ⊢
  obtain ⟨back,frame⟩ := bodyKept free ran.kept
  rw [idx] at frame
  refine ⟨keptTrans ⟨acted.idx,acted.frames⟩ back,fun ret' probe' found => ?_,fun few => ?_⟩
  · cases found
    dsimp only
    rw [frame]
    exact ⟨rfl,rfl⟩
  · simp only [Calls.taken] at few
    have mine : id = w.2 + others + 1 := Nat.mod_eq_of_lt (by omega)
    obtain ⟨low,high,last⟩ := ids (by omega)
    obtain ⟨⟨low',high',last'⟩,_⟩ := ran.counts (by dsimp only at *; omega)
    dsimp only at low high last low' high' last'
    have kept : (getRetAddr b.1).1.lastCallId = b.1.lastCallId := by
      unfold getRetAddr; split <;> rfl
    rw [saved.2] at last'
    refine ⟨⟨?_,?_,?_⟩,fun _ => ⟨?_,?_⟩⟩ <;> simp only [Calls.taken,kept,frame] <;> omega

end Once

theorem lastSome {h : Calls} (some_ : h ≠ .none) : ∃ ret probe, h.last = some (ret,probe) := by
  cases h with
  | none => exact absurd rfl some_
  | call ret probe others action body rest =>
    cases tail : rest.last with
    | some f => exact ⟨f.1,f.2,by rw [Calls.last,tail]; rfl⟩
    | none => exact ⟨ret,probe,by rw [Calls.last,tail]; rfl⟩

theorem callsLeave {h : Calls} {w : Tls × Nat} (fits : h.Fits w.1.callStackIdx) :
    Leaves h w (h.run w) := by
  induction h generalizing w with
  | none =>
    have same : Counts 0 w w := ⟨Nat.le_refl _,Nat.le_refl _,.inl ⟨rfl,rfl⟩⟩
    exact ⟨⟨rfl,fun _ _ => rfl⟩,fun _ _ bad => (by cases bad),
      fun _ => ⟨same,fun bad => absurd rfl bad⟩⟩
  | call ret probe others action body rest ihAction ihBody ihRest =>
    obtain ⟨fitsAction,room,fitsBody,fitsRest⟩ := fits
    have once := @onceLeaves action body ret probe others w room
        (fun w' same => ihAction (by rw [same]; exact fitsAction))
      (fun w' same => ihBody (by rw [same]; exact fitsBody))
    unfold Calls.run
    generalize callOnce action.run body.run ret probe others w = w' at once ⊢
    by_cases end_ : rest = .none
    · subst end_
      exact once
    · have idx := once.kept.idx
      have more := @ihRest w' (by rw [idx]; exact fitsRest)
      generalize rest.run w' = r at more ⊢
      obtain ⟨ret',probe',tail⟩ := lastSome end_
      refine ⟨keptTrans once.kept more.kept,fun ret'' probe'' found => ?_,fun few => ?_⟩
      · rw [← idx]
        rw [Calls.last,tail] at found
        cases found
        exact more.last _ _ tail
      · simp only [Calls.taken] at few
        obtain ⟨⟨low,high,_⟩,_⟩ := once.counts (by simp only [Calls.taken]; omega)
        simp only [Calls.taken] at high
        obtain ⟨⟨low',high',_⟩,new⟩ := more.counts (by omega)
        obtain ⟨last,frame⟩ := new end_
        rw [idx] at frame
        refine ⟨⟨by omega,by simp only [Calls.taken]; omega,.inr ?_⟩,fun _ => ⟨?_,?_⟩⟩ <;> omega

inductive Op where
  | save (retAddr funcId : Nat)
  | pop
  deriving DecidableEq, Repr

def Op.code : Op → Code
  | .save retAddr funcId => saveCode retAddr funcId
  | .pop => popCode

/- How many accesses it makes, where it does not return at once. -/
def Op.accesses : Op → Nat
  | .save _ _ => 10
  | .pop => 5

def Op.Ready (v : Tls) : Op → Prop
  | .save _ _ => v.callStackIdx < maxSavedRetAddr
  | .pop => 0 < v.callStackIdx

/- The operation comes to the result and to the frames that it comes to undisturbed. -/
def Survives (op : Op) (n : Nat) (h : Calls) (v : Tls) (seq : Nat) : Prop :=
  let plain := op.code.run v
  let broken := op.code.interrupted (fun v => (h.run (v,seq)).1) n v
  broken.2 = plain.2 ∧ Kept plain.1 broken.1

/- The handler makes no probed call; or the index has not been stored back yet; or the last
call of the handler has put into the frame what belongs there. -/
def Harmless (op : Op) (n : Nat) (h : Calls) (v : Tls) : Prop := h = .none ∨ match op with
  | .save retAddr funcId => n = 7 ∧ h.last = some (retAddr,funcId)
  | .pop => n ≤ 2 ∨ ∃ probe, h.last = some ((v.savedFrames (v.callStackIdx - 1)).retAddr,probe)

theorem undisturbed (c : Code) (n : Nat) (v : Tls) : c.interrupted (fun v => v) n v = c.run v := by
  induction c generalizing n v with
  | done r => rfl
  | load c next ih => cases n with
    | zero => rfl
    | succ n => exact ih _ n v
  | store c x next ih => cases n with
    | zero => rfl
    | succ n => exact ih n _

section Save
variable {retAddr funcId n : Nat} {v : Tls} {handler : Tls → Tls}

theorem saveReached (room : v.callStackIdx < maxSavedRetAddr) (inside : n < 10) : Kept v ((saveCode retAddr funcId).reached n v) := by
  have full : ¬ maxSavedRetAddr ≤ v.callStackIdx := Nat.not_le_of_lt room
  have other : ∀ k, k < v.callStackIdx → k ≠ v.callStackIdx := fun k low => Nat.ne_of_lt low
  constructor
  · interval_cases n <;> simp [saveCode,Code.reached,read,write,full]
  · intro k low
    interval_cases n <;> simp [saveCode,Code.reached,read,write,full,other k low]

/- The fields that are stored after the interruption are right, but for an id that is loaded
after it; the others are as the handler leaves them. -/
theorem saveInterrupted (room : v.callStackIdx < maxSavedRetAddr) (inside : n < 10)
    (idx : (handler ((saveCode retAddr funcId).reached n v)).callStackIdx = v.callStackIdx) :
    let left := handler ((saveCode retAddr funcId).reached n v)
    let frame := left.savedFrames v.callStackIdx
    (saveCode retAddr funcId).interrupted handler n v = ({ left with
      savedFrames := Function.update left.savedFrames v.callStackIdx
        ⟨if n < 3 then retAddr else frame.retAddr,if n < 5 then funcId else frame.probeId,
          if n < 7 then left.lastCallId else if n = 7 then v.lastCallId else frame.callId⟩
      callStackIdx := v.callStackIdx + 1 },0) := by
  have full : ¬ maxSavedRetAddr ≤ v.callStackIdx := Nat.not_le_of_lt room
  interval_cases n <;> simp [saveCode,Code.reached,read,write,full] at idx <;>
    simp [saveCode,Code.interrupted,Code.reached,Code.run,read,write,full,idx]

variable {h : Calls} {seq : Nat}

/- The frame that is pushed after an interruption, against the one that should be. -/
theorem saveSurvives (room : v.callStackIdx < maxSavedRetAddr) (inside : n < 10)
    (left : Leaves h ((saveCode retAddr funcId).reached n v,seq) (h.run ((saveCode retAddr funcId).reached n v,seq))) :
    let frame := (h.run ((saveCode retAddr funcId).reached n v,seq)).1.savedFrames v.callStackIdx
    Survives (.save retAddr funcId) n h v seq ↔ (n < 3 ∨ frame.retAddr = retAddr) ∧ (n < 5 ∨
      frame.probeId = funcId) ∧
      (n = 7 ∨ (if n < 7 then (h.run ((saveCode retAddr funcId).reached n v,seq)).1.lastCallId
        else frame.callId) = v.lastCallId) := by
  have reached := @saveReached retAddr funcId n v room inside
  have idx := left.kept.idx.trans reached.idx
  have broken := @saveInterrupted retAddr funcId n v (fun v => (h.run (v,seq)).1) room inside idx
  have plain : (saveCode retAddr funcId).run v = ({ v with
      savedFrames := Function.update v.savedFrames v.callStackIdx ⟨retAddr,funcId,v.lastCallId⟩
      callStackIdx := v.callStackIdx + 1 },0) :=
        (saveCodeRun v retAddr funcId).trans (if_neg (Nat.not_le_of_lt room))
  have older : ∀ k, k < v.callStackIdx →
      (h.run ((saveCode retAddr funcId).reached n v,seq)).1.savedFrames k = v.savedFrames k :=
    fun k low => (left.kept.frames k (by rw [reached.idx]; exact low)).trans (reached.frames k low)
  simp only [Survives,Op.code,broken,plain]
  generalize h.run ((saveCode retAddr funcId).reached n v,seq) = r at older
  constructor
  · rintro ⟨_,kept⟩
    have top := kept.frames v.callStackIdx (Nat.lt_succ_self _)
    simp only [Function.update_self,SavedFrame.mk.injEq] at top
    grind
  · intro right
    refine ⟨trivial,rfl,fun k low => ?_⟩
    by_cases top : k = v.callStackIdx
    · subst top
      simp only [Function.update_self,SavedFrame.mk.injEq]
      grind
    · have below : k < v.callStackIdx := Nat.lt_of_le_of_ne (Nat.le_of_lt_succ low) top
      simp only [Function.update_of_ne top]
      exact older k below

/- Only a frame whose fields are all the same, or whose id is loaded but not stored. -/
theorem saveHarmless (room : v.callStackIdx < maxSavedRetAddr) (inside : n < 10)
    (left : Leaves h ((saveCode retAddr funcId).reached n v,seq)
      (h.run ((saveCode retAddr funcId).reached n v,seq)))
    (some_ : h ≠ .none) :
    (n = 7 ∧ h.last = some (retAddr,funcId) → Survives (.save retAddr funcId) n h v seq) ∧
    (v.lastCallId ≤ seq → seq + h.taken < 2^64 → Survives (.save retAddr funcId) n h v seq →
      n = 7 ∧ h.last = some (retAddr,funcId)) := by
  have reached := @saveReached retAddr funcId n v room inside
  obtain ⟨ret,probe,last⟩ := lastSome some_
  have frame := left.last ret probe last
  rw [reached.idx] at frame
  have exactly := saveSurvives room inside left
  dsimp only at exactly
  rw [exactly,frame.1,frame.2,last]
  constructor
  · rintro ⟨seven,same⟩
    cases same
    exact ⟨.inr rfl,.inr rfl,.inl seven⟩
  · rintro old few ⟨first,second,third⟩
    obtain ⟨_,new⟩ := left.counts few
    have ids := new some_
    rw [reached.idx] at ids
    have seven : n = 7 := by
      rcases third with seven | same
      · exact seven
      · split at same <;> dsimp only at ids <;> omega
    refine ⟨seven,?_⟩
    rw [first.resolve_left (by omega),second.resolve_left (by omega)]

end Save

section Pop
variable {n : Nat} {v : Tls} {handler : Tls → Tls} {h : Calls} {seq : Nat}

theorem popReached (some_ : 0 < v.callStackIdx) (inside : n < 5) :
    popCode.reached n v = { v with callStackIdx := if n ≤ 2 then v.callStackIdx
      else v.callStackIdx - 1 } := by
  have idx : v.callStackIdx ≠ 0 := Nat.pos_iff_ne_zero.mp some_
  interval_cases n <;> simp [popCode,Code.reached,read,write,idx]

theorem popInterrupted (some_ : 0 < v.callStackIdx) (inside : n < 5)
    (idx : (handler (popCode.reached n v)).callStackIdx = (popCode.reached n v).callStackIdx) :
    let left := handler (popCode.reached n v)
    let broken := popCode.interrupted handler n v
    broken.2 = (left.savedFrames (v.callStackIdx -
      1)).retAddr ∧ broken.1.callStackIdx = v.callStackIdx - 1 ∧
      broken.1.savedFrames = left.savedFrames := by
  have nonzero : v.callStackIdx ≠ 0 := Nat.pos_iff_ne_zero.mp some_
  interval_cases n <;> simp [popCode,Code.reached,read,write,nonzero] at idx <;>
    simp [popCode,Code.interrupted,Code.reached,Code.run,read,write,nonzero,idx]

/- Before the index is stored the frame is in use, and after that it is not. -/
theorem popHarmless (some_ : 0 < v.callStackIdx) (inside : n < 5) (calls : h ≠ .none)
    (left : Leaves h (popCode.reached n v,seq) (h.run (popCode.reached n v,seq))) :
    Survives .pop n h v seq ↔ n ≤ 2 ∨
      ∃ probe, h.last = some ((v.savedFrames (v.callStackIdx - 1)).retAddr,probe) := by
  have reached := popReached some_ inside
  obtain ⟨result,idx,same⟩ :=
    @popInterrupted n v (fun v => (h.run (v,seq)).1) some_ inside left.kept.idx
  have plain : popCode.run v = ({ v with callStackIdx := v.callStackIdx - 1 },
      (v.savedFrames (v.callStackIdx - 1)).retAddr) :=
    (popCodeRun v).trans (if_neg (Nat.pos_iff_ne_zero.mp some_))
  obtain ⟨ret,probe,last⟩ := lastSome calls
  have frame := left.last ret probe last
  have frames := left.kept.frames
  simp only [Survives,Op.code,plain,result]
  rw [← same] at frame frames
  rw [← same]
  generalize popCode.interrupted (fun v => (h.run (v,seq)).1) n v = r at frame frames idx
  rw [reached] at frame frames
  dsimp only at frame frames
  have older : ∀ k, k < v.callStackIdx - 1 → r.1.savedFrames k = v.savedFrames k :=
    fun k low => frames k (by split <;> omega)
  rw [last]
  by_cases early : n ≤ 2
  · simp only [if_pos early] at frames
    have top := frames (v.callStackIdx - 1) (by omega)
    exact ⟨fun _ => .inl early,fun _ => ⟨by rw [top],idx,older⟩⟩
  · simp only [if_neg early] at frame
    rw [frame.1]
    refine ⟨fun both => .inr ⟨probe,by rw [both.1]⟩,fun right => ?_⟩
    obtain ⟨probe',found⟩ := right.resolve_left early
    cases found
    exact ⟨rfl,idx,older⟩

end Pop

/-- A probed call in a handler that interrupts `save_probe_frame_c` or `get_ret_addr_c`, at
any point and with calls nested in any way, changes what is pushed or popped except in these
cases. The converse is for call ids that have not wrapped around. -/
theorem reentrySurvived {op : Op} {n : Nat} {h : Calls} {v : Tls} {seq : Nat} (ready : op.Ready v)
    (inside : n < op.accesses)
    (fits : h.Fits (op.code.reached n v).callStackIdx) :
    (Harmless op n h v → Survives op n h v seq) ∧
    (v.lastCallId ≤ seq → seq + h.taken < 2^64 → Survives op n h v seq → Harmless op n h v) := by
  by_cases quiet : h = .none
  · subst quiet
    refine ⟨fun _ => ?_,fun _ _ _ => .inl rfl⟩
    rw [Survives,show (fun v => (Calls.none.run (v,seq)).1) = fun v => v from rfl,undisturbed]
    exact ⟨rfl,rfl,fun _ _ => rfl⟩
  · have left := @callsLeave h (op.code.reached n v,seq) fits
    cases op with
    | save retAddr funcId =>
      obtain ⟨enough,only⟩ := saveHarmless ready inside left quiet
      exact ⟨fun harmless => enough (harmless.resolve_left quiet),fun old few survived =>
        .inr (only old few survived)⟩
    | pop =>
      have exactly := popHarmless ready inside quiet left
      exact ⟨fun harmless => exactly.mpr (harmless.resolve_left quiet),
        fun _ _ survived => .inr (exactly.mp survived)⟩

def twoFrames : Tls := ⟨fun k => ⟨0x400 + k,7,k + 1⟩,2,2,false⟩

def oneProbed : Calls := .call 0x900 8 0 .none .none .none

theorem oneProbedFits {idx : Nat} (room : idx < maxSavedRetAddr) : oneProbed.Fits idx :=
  ⟨trivial,room,trivial,trivial⟩

theorem earlyPopSurvives : Survives .pop 2 oneProbed twoFrames 2 :=
  (@reentrySurvived .pop 2 oneProbed twoFrames 2 (Nat.zero_lt_succ _) (by decide)
    (oneProbedFits (by decide))).1 (.inr (.inl (Nat.le_refl _)))

/- The signal comes between `zt_handle_entry` and `save_probe_frame_c`, after the address is
stored, before the index is stored, or between the decrement and the load. -/
theorem handlerCallOverwrites :
    (∀ n ∈ [0,3,9], oneProbed.Fits ((saveCode 0x500 9).reached n twoFrames).callStackIdx ∧
      ¬ Survives (.save 0x500 9) n oneProbed twoFrames 2) ∧
    oneProbed.Fits (popCode.reached 3 twoFrames).callStackIdx ∧ ¬ Survives .pop
      3 oneProbed twoFrames 2 := by
  refine ⟨fun n member => ?_,oneProbedFits (by decide),fun survived => ?_⟩
  · have inside : n < 10 ∧ n ≠ 7 := by revert n; decide
    have room : twoFrames.callStackIdx < maxSavedRetAddr := by decide
    have idx := (@saveReached 0x500 9 n twoFrames room inside.1).idx
    have fits : oneProbed.Fits ((saveCode 0x500 9).reached n twoFrames).callStackIdx :=
      oneProbedFits (by rw [idx]; exact room)
    refine ⟨fits,fun survived => inside.2 ?_⟩
    exact ((saveHarmless room inside.1 (callsLeave fits) (by decide)).2 (by decide)
      (by decide) survived).1
  · have fits : oneProbed.Fits (popCode.reached 3
      twoFrames).callStackIdx := oneProbedFits (by decide)
    rcases (popHarmless (by decide) (by decide) (by decide) (callsLeave fits)).mp survived
      with early | ⟨probe,same⟩
    · exact absurd early (by decide)
    · cases same

end ZeroTrace.SignalReentry
