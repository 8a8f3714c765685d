import ZeroTrace.ShadowStack
import ZeroTrace.StubContext

/-! Runs of one thread of the target, seen from the stubs: probed functions are entered and
left, and anything may happen in between. Nothing here knows a machine. -/
namespace ZeroTrace.ProbedRuns
open WordMemory StubContext ShadowStack

structure Call where
  probeId : UInt64
  retAddr : UInt64
  deriving DecidableEq, Repr

inductive Shown where
  | entry (c : Call)
  | ret (c : Call)
  deriving DecidableEq, Repr

/- The calls that are open at the end, if every return belongs to the innermost one of those
open before it. -/
def bracketed (calls : List Call) : List Shown → Option (List Call)
  | [] => some calls
  | .entry c::l => bracketed (c::calls) l
  | .ret c::l => match calls with
    | c'::calls => if c = c' then bracketed calls l else none
    | [] => none

theorem bracketedAppend {calls : List Call} {l l' : List Shown} :
    bracketed calls (l ++ l') = (bracketed calls l).bind (bracketed · l') := by
  induction l generalizing calls with
  | nil => rfl
  | cons e l ih => cases e with
    | entry c => exact ih
    | ret c => cases calls with
      | nil => rfl
      | cons c' calls =>
        rw [List.cons_append,bracketed,bracketed]
        split
        · exact ih
        · rfl

def callOf (f : SavedFrame) : Call := ⟨UInt64.ofNat f.probeId,UInt64.ofNat f.retAddr⟩

structure Same (v v' : Tls) : Prop where
  height : v'.callStackIdx = v.callStackIdx
  below : ∀ k < v.callStackIdx, v'.savedFrames k = v.savedFrames k

structure Pushed (v v' : Tls) (c : Call) : Prop where
  height : v'.callStackIdx = v.callStackIdx + 1
  below : ∀ k < v.callStackIdx, v'.savedFrames k = v.savedFrames k
  top : callOf (v'.savedFrames v.callStackIdx) = c

structure Popped (v v' : Tls) (c : Call) : Prop where
  height : v.callStackIdx = v'.callStackIdx + 1
  below : ∀ k < v'.callStackIdx, v'.savedFrames k = v.savedFrames k
  top : callOf (v.savedFrames v'.callStackIdx) = c

section Frames
variable {v v' v'' : Tls} {c : Call}

theorem savePushes (room : v.callStackIdx < maxSavedRetAddr) (retAddr id : UInt64) :
    Pushed v (saveProbeFrame v retAddr.toNat id.toNat).1 ⟨id,retAddr⟩ := by
  rw [saveProbeFrame,if_neg (Nat.not_le.mpr room)]
  refine ⟨rfl,fun k low => Function.update_of_ne (Nat.ne_of_lt low) _ _,?_⟩
  simp only [Function.update_self,callOf,UInt64.ofNat_toNat]

theorem getPops (some_ : 0 < v.callStackIdx) :
    Popped v (getRetAddr v).1 ⟨UInt64.ofNat (peekProbeId v),UInt64.ofNat (getRetAddr v).2⟩ := by
  have other : v.callStackIdx ≠ 0 := Nat.ne_of_gt some_
  rw [getRetAddr,if_neg other,peekProbeId,if_neg other]
  exact ⟨(Nat.sub_add_cancel some_).symm,fun _ _ => rfl,rfl⟩

theorem peekSame (same : Same v v') : peekProbeId v' = peekProbeId v := by
  rw [peekProbeId,peekProbeId,same.height]
  split
  · rfl
  · next other => rw [same.below _ (Nat.sub_lt (Nat.pos_of_ne_zero other) Nat.one_pos)]

theorem samePushed (same : Same v v') (pushed : Pushed v' v'' c) : Pushed v v'' c := by
  refine ⟨by rw [pushed.height,same.height],fun k low => ?_,?_⟩
  · rw [pushed.below k (same.height.symm ▸ low),same.below k low]
  · rw [← same.height]
    exact pushed.top

theorem samePopped (same : Same v v') (popped : Popped v' v'' c) : Popped v v'' c := by
  have height : v.callStackIdx = v''.callStackIdx + 1 := same.height.symm.trans popped.height
  refine ⟨height,fun k low => ?_,?_⟩
  · rw [popped.below k low,same.below k (by omega)]
  · rw [← same.below _ (by omega)]
    exact popped.top

/- The frames from a height on are those of the open calls, the innermost one on top. -/
def Stacked (saved : Nat → SavedFrame) (base : Nat) : List Call → Nat → Prop
  | [],height => height = base
  | c::calls,height => ∃ below, height = below + 1 ∧ callOf (saved below) = c ∧
      Stacked saved base calls below

theorem stackedBelow {saved saved' : Nat → SavedFrame} {base height : Nat} {calls : List Call}
    (same : ∀ k < height, saved' k = saved k)
    (stacked : Stacked saved base calls height) : Stacked saved' base calls height := by
  induction calls generalizing height with
  | nil => exact stacked
  | cons c calls ih =>
    obtain ⟨below,rfl,top,rest⟩ := stacked
    refine ⟨below,rfl,?_,ih (fun k low => same k (Nat.lt_succ_of_lt low)) rest⟩
    rw [same below (Nat.lt_succ_self below)]
    exact top

end Frames

section Runs
variable {σ : Type} (tls : σ → Tls) (aside : σ → σ → Prop) (enters leaves : σ → Call → σ → Prop)

/- So many probed calls are open, and this is what the handlers were shown so far. A probed
function is entered while there is room for its frame, and left only when it was entered. -/
inductive Run (start : σ) : Nat → List Shown → σ → Prop where
  | start : Run start 0 [] start
  | aside {n l s s'} (run : Run start n l s) (step : aside s s') : Run start n l s'
  | enter {n l s u c} (run : Run start n l s) (room : (tls s).callStackIdx < maxSavedRetAddr)
      (step : enters s c u) :
      Run start (n + 1) (l ++ [.entry c]) u
  | leave {n l s s' c} (run : Run start (n + 1) l s) (step : leaves s c s') :
      Run start n (l ++ [.ret c]) s'

structure Steps : Prop where
  aside : ∀ s s', aside s s' → Same (tls s) (tls s')
  enters : ∀ s c u, (tls s).callStackIdx < maxSavedRetAddr → enters s c u → Pushed (tls s) (tls u) c
  leaves : ∀ s c s', 0 < (tls s).callStackIdx → leaves s c s' → Popped (tls s) (tls s') c

variable {tls aside enters leaves} {start s : σ} {n : Nat} {l : List Shown}

theorem runBracketed (steps : Steps tls aside enters leaves)
    (run : Run tls aside enters leaves start n l s) :
    ∃ calls, bracketed [] l = some calls ∧ calls.length = n ∧
      Stacked (tls s).savedFrames (tls start).callStackIdx calls (tls s).callStackIdx := by
  induction run with
  | start => exact ⟨[],rfl,rfl,rfl⟩
  | @aside n l s s' _ step ih =>
    obtain ⟨calls,shown,length,stacked⟩ := ih
    have same := steps.aside s s' step
    refine ⟨calls,shown,length,?_⟩
    rw [same.height]
    exact stackedBelow same.below stacked
  | @enter n l s u c _ room step ih =>
    obtain ⟨calls,shown,length,stacked⟩ := ih
    have pushed := steps.enters s c u room step
    refine ⟨c::calls,?_,by rw [List.length_cons,length],(tls s).callStackIdx,pushed.height,
      pushed.top,stackedBelow pushed.below stacked⟩
    rw [bracketedAppend,shown]
    rfl
  | @leave n l s s' c _ step ih =>
    obtain ⟨calls,shown,length,stacked⟩ := ih
    obtain ⟨c',calls,rfl⟩ := List.exists_cons_of_length_eq_add_one length
    obtain ⟨below,height,top,rest⟩ := stacked
    have popped := steps.leaves s c s' (by omega) step
    have same : below = (tls s').callStackIdx := by
      have both := popped.height
      omega
    subst same
    have is : c = c' := popped.top.symm.trans top
    refine ⟨calls,?_,by simpa using length,stackedBelow popped.below rest⟩
    rw [bracketedAppend,shown]
    exact if_pos is

end Runs

structure Abi (σ : Type) where
  mem : σ → Mem
  first : σ → UInt64
  second : σ → UInt64
  result : σ → UInt64

/- What they do to the thread-local variables, when they are called. The handlers leave the
saved frames as they are. -/
structure Implements {σ : Type} (abi : Abi σ) (payload : Callee → σ → σ) (tls : Mem → Tls)
    (called : σ → Prop) : Prop where
  handles : ∀ f t, called t → f = .ztHandleEntry ∨ f = .ztHandleReturn →
    Same (tls (abi.mem t)) (tls (abi.mem (payload f t)))
  saves : ∀ t, called t →
    tls (abi.mem (payload .saveProbeFrameC t)) =
      (saveProbeFrame (tls (abi.mem t)) (abi.first t).toNat (abi.second t).toNat).1
  peeks : ∀ t, called t → tls (abi.mem (payload .peekProbeIdC t)) = tls (abi.mem t) ∧
    abi.result (payload .peekProbeIdC t) = UInt64.ofNat (peekProbeId (tls (abi.mem t)))
  gets : ∀ t, called t → tls (abi.mem (payload .getRetAddrC t)) = (getRetAddr (tls (abi.mem t))).1 ∧
    abi.result (payload .getRetAddrC t) = UInt64.ofNat (getRetAddr (tls (abi.mem t))).2

section Calls
variable {σ : Type} {abi : Abi σ} {payload : Callee → σ → σ} {tls : Mem → Tls} {called : σ → Prop}
    {m m' : Mem} {t₁ t₂ t₃ : σ}

/- The two calls of `entry_stub`. The stub itself does not touch the variables. -/
theorem entryPushes (implements : Implements abi payload tls called)
    (room : (tls m).callStackIdx < maxSavedRetAddr) (first : called t₁)
    (second : called t₂) (opens : tls (abi.mem t₁) = tls m)
    (between : tls (abi.mem t₂) = tls (abi.mem (payload .ztHandleEntry t₁)))
    (closes : tls m' = tls (abi.mem (payload .saveProbeFrameC t₂))) :
    Pushed (tls m) (tls m') ⟨abi.second t₂,abi.first t₂⟩ := by
  have same := implements.handles .ztHandleEntry t₁ first (.inl rfl)
  rw [opens,← between] at same
  rw [closes,implements.saves t₂ second]
  exact samePushed same (savePushes (by rw [same.height]; exact room) _ _)

/- The three calls of `exit_stub`. -/
theorem exitPops (implements : Implements abi payload tls called) (some_ : 0 < (tls m).callStackIdx)
    (first : called t₁) (second : called t₂)
    (third : called t₃) (opens : tls (abi.mem t₁) = tls m)
    (between : tls (abi.mem t₂) = tls (abi.mem (payload .peekProbeIdC t₁)))
    (behind : t₃ = payload .ztHandleReturn t₂)
    (closes : tls m' = tls (abi.mem (payload .getRetAddrC t₃))) :
    Popped (tls m) (tls m') ⟨abi.result (payload .peekProbeIdC t₁),
      abi.result (payload .getRetAddrC t₃)⟩ := by
  have same := implements.handles .ztHandleReturn t₂ second (.inr rfl)
  rw [between,(implements.peeks t₁ first).1,opens,← behind] at same
  rw [closes,(implements.gets t₃ third).1,(implements.gets t₃ third).2,
    (implements.peeks t₁ first).2,opens,← peekSame same]
  exact samePopped same (getPops (by rw [same.height]; exact some_))

end Calls

/- Where there is room for a stub, where a function that is called returns to, what the entry
handler is called with and the state in which the function then starts, and what the return
handler is called with and where it then goes on. -/
structure Stubs (σ : Type) where
  abi : Abi σ
  room : σ → Prop
  retAddr : σ → UInt64
  enter : σ → σ → σ → Prop
  leave : σ → σ → UInt64 → σ → Prop

namespace Stubs
variable {σ : Type} (stubs : Stubs σ) (tls : Mem → Tls) (P : UInt64 → Prop)

def shownId (t : σ) : UInt64 := Field.read (stubs.abi.mem t) (stubs.abi.first t) .funcId

def tlsOf (s : σ) : Tls := tls (stubs.abi.mem s)

/- The program between the stubs leaves the payload's memory alone. -/
def Aside (s s' : σ) : Prop := ∀ a, P a → stubs.abi.mem s' a = stubs.abi.mem s a

def Enters (s : σ) (c : Call) (u : σ) : Prop := stubs.room s ∧ ∃ t, stubs.enter s t u ∧
    c = ⟨stubs.shownId t,stubs.retAddr s⟩

def Leaves (s : σ) (c : Call) (s' : σ) : Prop :=
  stubs.room s ∧ ∃ t target, stubs.leave s t target s' ∧ c = ⟨stubs.shownId t,target⟩

abbrev Runs : σ → Nat → List Shown → σ → Prop :=
  Run (stubs.tlsOf tls) (stubs.Aside P) stubs.Enters stubs.Leaves

structure Keep : Prop where
  reads : ∀ m m', (∀ a, P a → m' a = m a) → tls m' = tls m
  enters : ∀ s t u, stubs.room s → stubs.enter s t u →
    (stubs.tlsOf tls s).callStackIdx < maxSavedRetAddr →
    Pushed (stubs.tlsOf tls s) (stubs.tlsOf tls u) ⟨stubs.shownId t,stubs.retAddr s⟩
  leaves : ∀ s t target s', stubs.room s → stubs.leave s t target s' →
    0 < (stubs.tlsOf tls s).callStackIdx →
    Popped (stubs.tlsOf tls s) (stubs.tlsOf tls s') ⟨stubs.shownId t,target⟩

variable {stubs tls P}

theorem keepSteps (keep : stubs.Keep tls P) :
    Steps (stubs.tlsOf tls) (stubs.Aside P) stubs.Enters stubs.Leaves where
  aside s s' step := by
    rw [tlsOf,tlsOf,keep.reads _ _ step]
    exact ⟨rfl,fun _ _ => rfl⟩
  enters s c u free step := by
    obtain ⟨room,t,ran,rfl⟩ := step
    exact keep.enters s t u room ran free
  leaves s c s' some_ step := by
    obtain ⟨room,t,target,ran,rfl⟩ := step
    exact keep.leaves s t target s' room ran some_

theorem keepBracketed {start s : σ} {n : Nat} {l : List Shown} (keep : stubs.Keep tls P)
    (run : stubs.Runs tls P start n l s) :
    ∃ calls, bracketed [] l = some calls ∧ calls.length = n ∧
      Stacked (stubs.tlsOf tls s).savedFrames (stubs.tlsOf tls start).callStackIdx calls
        (stubs.tlsOf tls s).callStackIdx :=
  runBracketed (keepSteps keep) run

end Stubs

/-! The variables as words: the index, the last call id, and three words for each frame. -/
def frameOffset (k : Nat) : Nat := 24 * k + 16

def cellsSize : Nat := 24 * maxSavedRetAddr + 16

def frameAt (base : UInt64) (m : Mem) (k : Nat) : SavedFrame :=
  if k < maxSavedRetAddr then
    ⟨(word m (base + UInt64.ofNat (frameOffset k))).toNat,
      (word m (base + UInt64.ofNat (frameOffset k + 8))).toNat,
      (word m (base + UInt64.ofNat (frameOffset k + 16))).toNat⟩
  else ⟨0,0,0⟩

def tlsAt (base : UInt64) (m : Mem) : Tls :=
  ⟨frameAt base m,(word m (base + UInt64.ofNat 0)).toNat,(word m (base + UInt64.ofNat 8)).toNat,
    false⟩

def frameWords (idx : Nat) (retAddr funcId callId : UInt64) : List (Nat × UInt64) :=
  [(frameOffset idx,retAddr),(frameOffset idx + 8,funcId),(frameOffset idx + 16,callId),
    (0,UInt64.ofNat (idx + 1))]

def saveCells (base : UInt64) (m : Mem) (retAddr funcId : UInt64) : Mem :=
  let idx := (tlsAt base m).callStackIdx
  if maxSavedRetAddr ≤ idx then
    m else storeAll m base (frameWords idx retAddr funcId (word m (base + UInt64.ofNat 8)))

def popCells (base : UInt64) (m : Mem) : Mem :=
  let idx := (tlsAt base m).callStackIdx
  if idx = 0 then m else storeAll m base [(0,UInt64.ofNat (idx - 1))]

section Cells
variable {base retAddr funcId callId : UInt64} {m m' : Mem} {idx k offset : Nat}

theorem frameInside (low : k < maxSavedRetAddr) : frameOffset k + 24 ≤ cellsSize := by
  simp only [frameOffset,cellsSize,maxSavedRetAddr] at *
  omega

theorem frameWithin (low : idx < maxSavedRetAddr) :
    WordMemory.Within cellsSize (frameWords idx retAddr funcId callId) := by
  have inside := frameInside low
  simp only [WordMemory.Within,frameWords,List.forall_mem_cons]
  exact ⟨by omega,by omega,by omega,by decide,by simp⟩

theorem frameSpread : Spread ((frameWords idx retAddr funcId callId).map Prod.fst) := by
  simp only [Spread,frameWords,List.map_cons,List.map_nil,List.pairwise_cons,List.forall_mem_cons,
    frameOffset]
  refine ⟨⟨?_,?_,?_,by simp⟩,⟨?_,?_,by simp⟩,⟨?_,by simp⟩,by simp,.nil⟩ <;> omega

theorem tlsReads (same : ∀ a, Inside base cellsSize a → m' a = m a) : tlsAt base m' =
    tlsAt base m := by
  have cells : ∀ offset, offset + 8 ≤ cellsSize → word m' (base + UInt64.ofNat offset) =
      word m (base + UInt64.ofNat offset) := fun offset fits =>
    wordCongr fun k byte => same _ (wordInside fits (by decide) byte)
  have frames : frameAt base m' = frameAt base m := by
    funext k
    rw [frameAt,frameAt]
    split
    · next low =>
      have inside := frameInside low
      rw [cells _ (by omega),cells _ (by omega),cells _ (by omega)]
    · rfl
  rw [tlsAt,tlsAt,frames,cells 0 (by decide),cells 8 (by decide)]

theorem saveOutside {a : UInt64} (outside : ¬ Inside base cellsSize a) :
    saveCells base m retAddr funcId a = m a := by
  simp only [saveCells]
  split
  · rfl
  · next room => exact storeOutside (frameWithin (Nat.not_le.mp room)) (by decide) outside

theorem popOutside {a : UInt64} (outside : ¬ Inside base cellsSize a) : popCells base m a =
    m a := by
  simp only [popCells]
  split
  · rfl
  · exact storeOutside (by simp [WordMemory.Within,cellsSize]) (by decide) outside

theorem frameWhole (low : idx < maxSavedRetAddr) :
    WordMemory.Within (2^64) (frameWords idx retAddr funcId callId) := fun p member =>
  Nat.le_trans (frameWithin low p member) (by decide)

theorem framesStored (low : idx < maxSavedRetAddr) :
    frameAt base (storeAll m base (frameWords idx retAddr funcId callId)) =
    Function.update (frameAt base m) idx ⟨retAddr.toNat,funcId.toNat,callId.toNat⟩ := by
  have saved : Saved (storeAll m base (frameWords idx retAddr funcId callId)) base
      (frameWords idx retAddr funcId callId) :=
    savedStore frameSpread (frameWhole low)
  funext k
  by_cases here : k = idx
  · subst here
    rw [Function.update_self,frameAt,if_pos low,saved (frameOffset k,retAddr) (.head _),
      saved (frameOffset k + 8,funcId) (.tail _ (.head _)),
      saved (frameOffset k + 16,callId) (.tail _ (.tail _ (.head _)))]
  · rw [Function.update_of_ne here,frameAt,frameAt]
    split
    · next inside =>
      have fits := frameInside inside
      have kept : ∀ offset, frameOffset k ≤ offset → offset + 8 ≤ frameOffset k + 24 →
          word (storeAll m base (frameWords idx retAddr funcId callId))
            (base + UInt64.ofNat offset) = word m (base + UInt64.ofNat offset) := by
        intro offset above below
        refine storeApart ?_ (frameWhole low) (Nat.le_trans below (Nat.le_trans fits (by decide)))
        simp only [frameOffset] at above below
        simp only [frameWords,List.forall_mem_cons,frameOffset]
        exact ⟨by omega,by omega,by omega,by omega,by simp⟩
      rw [kept _ (by omega) (by omega),kept _ (by omega) (by omega),kept _ (by omega) (by omega)]
    · rfl

theorem cellsSaved : tlsAt base (saveCells base m retAddr funcId) =
    (saveProbeFrame (tlsAt base m) retAddr.toNat funcId.toNat).1 := by
  simp only [saveCells,saveProbeFrame]
  split
  · rfl
  · next room =>
    generalize height : (tlsAt base m).callStackIdx = idx at room ⊢
    have low : idx < maxSavedRetAddr := Nat.not_le.mp room
    have index : word (storeAll m base
        (frameWords idx retAddr funcId (word m (base + UInt64.ofNat 8)))) (base + UInt64.ofNat 0) =
        UInt64.ofNat (idx + 1) :=
      savedStore frameSpread (frameWhole low) (0,UInt64.ofNat (idx + 1))
        (.tail _ (.tail _ (.tail _ (.head _))))
    have last : word (storeAll m base
        (frameWords idx retAddr funcId (word m (base + UInt64.ofNat 8)))) (base + UInt64.ofNat 8) =
        word m (base + UInt64.ofNat 8) := by
      refine storeApart ?_ (frameWhole low) (by decide)
      simp only [frameWords,List.forall_mem_cons,frameOffset]
      exact ⟨by omega,by omega,by omega,by omega,by simp⟩
    have next : (UInt64.ofNat (idx + 1)).toNat = idx + 1 :=
      offsetNat (by simp only [maxSavedRetAddr] at low; omega)
    rw [tlsAt,framesStored low,index,last,next]
    rfl

theorem cellsPopped : tlsAt base (popCells base m) = (getRetAddr (tlsAt base m)).1 := by
  simp only [popCells,getRetAddr]
  split
  · rfl
  · generalize height : (tlsAt base m).callStackIdx = idx
    have bound : idx < 2^64 := by
      rw [← height]
      exact UInt64.toNat_lt _
    have kept : ∀ offset, 8 ≤ offset → offset + 8 ≤ 2^64 →
        word (storeAll m base [(0,UInt64.ofNat (idx - 1))]) (base + UInt64.ofNat offset) =
        word m (base + UInt64.ofNat offset) := fun offset above fits => by
      refine storeApart (fun p member => ?_) (fun p member => ?_) fits <;>
        rw [List.mem_singleton.mp member]
      · exact .inl above
      · exact Nat.le_trans above (Nat.le_trans (Nat.le_add_right _ _) fits)
    have frames : frameAt base (storeAll m base [(0,UInt64.ofNat (idx - 1))]) = frameAt base m := by
      funext k
      rw [frameAt,frameAt]
      split
      · next low =>
        have inside : frameOffset k + 24 ≤ 2^64 := Nat.le_trans (frameInside low) (by decide)
        have above : 8 ≤ frameOffset k := by simp only [frameOffset]; omega
        rw [kept _ above (by omega),kept _ (by omega) (by omega),kept _ (by omega) (by omega)]
      · rfl
    have index : word (storeAll m base [(0,UInt64.ofNat (idx - 1))]) (base + UInt64.ofNat 0) =
        UInt64.ofNat (idx - 1) := wordSame _ _ _
    rw [tlsAt,frames,index,kept 8 (by decide) (by decide),offsetNat (by omega)]
    rfl

end Cells

end ZeroTrace.ProbedRuns
