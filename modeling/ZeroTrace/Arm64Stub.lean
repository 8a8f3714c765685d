import ZeroTrace.StubContext
import ZeroTrace.Arm64Flow

/-! The aarch64 stubs. The payload's functions are arbitrary, as long as they keep to the
calling convention and leave the stub's frame alone. -/
namespace ZeroTrace.Arm64Stub
open WordMemory StubContext CodeListing Arm64Replay

/- The vector registers by their numbers, and the two floating-point registers that are
moved as a whole. -/
structure Rest where
  q : Nat → Vec
  fpcr : UInt64
  fpsr : UInt64

abbrev Cpu := State Rest

def nzcvWord (f : Flags) : UInt64 :=
  UInt64.ofNat (f.n.toNat * 2^31 + f.z.toNat * 2^30 + f.c.toNat * 2^29 + f.v.toNat * 2^28)

def nzcvOf (v : UInt64) : Flags :=
  ⟨v.toNat.testBit 31,v.toNat.testBit 30,v.toNat.testBit 29,v.toNat.testBit 28⟩

inductive Base where
  | sp
  | x (r : Nat)

inductive Sys where
  | nzcv | fpcr | fpsr

inductive Instr where
  | subSp (n : Nat)
  | addSp (n : Nat)
  | addFromSp (d n : Nat)
  | mov (d r : Nat)
  | stp (r r' offset : Nat)
  | ldp (r r' offset : Nat)
  | stpQ (i j offset : Nat)
  | ldpQ (i j offset : Nat)
  | str (r : Nat) (base : Base) (offset : Nat)
  | ldr (r : Nat) (base : Base) (offset : Nat)
  | mrs (r : Nat) (sys : Sys)
  | msr (sys : Sys) (r : Nat)
  | adrpExitStub (d : Nat)
  | addLo12ExitStub (d : Nat)

/- Where `exit_stub` is, and what a call of a payload function does until it has returned. -/
structure World where
  exitStub : UInt64
  payload : Callee → Cpu → Cpu

def address (s : Cpu) : Base → UInt64
  | .sp => s.sp
  | .x r => s.get r

def Sys.read (s : Cpu) : Sys → UInt64
  | .nzcv => nzcvWord s.flags
  | .fpcr => s.rest.fpcr
  | .fpsr => s.rest.fpsr

def Sys.write (v : UInt64) (s : Cpu) : Sys → Cpu
  | .nzcv => { s with flags := nzcvOf v }
  | .fpcr => { s with rest := { s.rest with fpcr := v } }
  | .fpsr => { s with rest := { s.rest with fpsr := v } }

def loads (base : UInt64) (l : List (Nat × Nat)) (s : Cpu) : Cpu :=
  l.foldl (fun s p => s.set p.1 (word s.mem (base + UInt64.ofNat p.2))) s

def exec (w : World) (i : Instr) (s : Cpu) : Cpu := match i with
  | .subSp n => { s with sp := s.sp - UInt64.ofNat n }
  | .addSp n => { s with sp := s.sp + UInt64.ofNat n }
  | .addFromSp d n => s.set d (s.sp + UInt64.ofNat n)
  | .mov d r => s.set d (s.get r)
  | .stp r r' offset =>
      { s with mem := storeAll s.mem s.sp [(offset,s.get r),(offset + 8,s.get r')] }
  | .ldp r r' offset => loads s.sp [(r,offset),(r',offset + 8)] s
  | .stpQ i j offset => { s with mem := storeAll s.mem s.sp (vecWords offset (s.rest.q i) ++
      vecWords (offset + 16) (s.rest.q j)) }
  | .ldpQ i j offset =>
    let q := Function.update s.rest.q i (vecAt s.mem (s.sp + UInt64.ofNat offset))
    { s with rest := { s.rest
      with q := Function.update q j (vecAt s.mem (s.sp + UInt64.ofNat (offset + 16))) } }
  | .str r base offset => { s with mem := storeAll s.mem (address s base) [(offset,s.get r)] }
  | .ldr r base offset => loads (address s base) [(r,offset)] s
  | .mrs r sys => s.set r (sys.read s)
  | .msr sys r => sys.write (s.get r) s
  | .adrpExitStub d => s.set d (w.exitStub - w.exitStub % 0x1000)
  | .addLo12ExitStub d => s.set d (s.get d + w.exitStub % 0x1000)

def ret (s : Cpu) : UInt64 × Cpu := (s.get 30,s)

def gpArg5Off : Nat := 48
def gpArg4Off : Nat := 56
def gpArg0Off : Nat := 64
def gpArg1Off : Nat := 72
def gpArg2Off : Nat := 88
def gpArg3Off : Nat := 96
def gpRetval0Off : Nat := 112
def statusFlagsOff : Nat := 120
def savedRetOff : Nat := 128
def funcIdOff : Nat := 136

def frameRegsOff : Nat := 0
def frameRetaddrOff : Nat := 240
def frameCtxOff : Nat := 256
def frameFpcrOff : Nat := 448
def frameFpsrOff : Nat := 456
def frameFpOff : Nat := 512
def frameSize : Nat := 640

def saveEntryGprs : List Instr :=
  [.stp 6 7 (frameRegsOff + 0),.stp 8 18 (frameRegsOff + 16),.stp 19 20 (frameRegsOff + 32),
    .stp 29 30 (frameRegsOff + 48)]

def restoreEntryGprs : List Instr :=
  [.ldr 0 (.x 19) gpArg0Off,.ldr 1 (.x 19) gpArg1Off,.ldr 2 (.x 19) gpArg2Off,
    .ldr 3 (.x 19) gpArg3Off,.ldr 4 (.x 19) gpArg4Off,
    .ldr 5 (.x 19) gpArg5Off,.ldp 6 7 (frameRegsOff + 0),.ldp 8 18 (frameRegsOff + 16),.ldp 19 20
      (frameRegsOff + 32),
    .ldp 29 30 (frameRegsOff + 48)]

def saveReturnGprs : List Instr :=
  [.stp 0 1 (frameRegsOff + 0),.stp 2 3 (frameRegsOff + 16),.stp 4 5 (frameRegsOff + 32),
    .stp 6 7 (frameRegsOff + 48),.stp 8 18 (frameRegsOff + 64),
    .stp 19 20 (frameRegsOff + 80),.stp 29 30 (frameRegsOff + 96)]

def restoreReturnGprs : List Instr :=
  [.ldp 0 1 (frameRegsOff + 0),.ldp 2 3 (frameRegsOff + 16),.ldp 4 5 (frameRegsOff + 32),
    .ldp 6 7 (frameRegsOff + 48),.ldp 8 18 (frameRegsOff + 64),
    .ldp 19 20 (frameRegsOff + 80),.ldp 29 30 (frameRegsOff + 96)]

def saveFpSnapshot : List Instr :=
  [.mrs 20 .fpcr,.str 20 .sp frameFpcrOff,.mrs 20 .fpsr,.str 20 .sp frameFpsrOff,
    .stpQ 0 1 (frameFpOff + 0),.stpQ 2 3 (frameFpOff + 32),
    .stpQ 4 5 (frameFpOff + 64),.stpQ 6 7 (frameFpOff + 96)]

def restoreFpSnapshot : List Instr :=
  [.ldpQ 0 1 (frameFpOff + 0),.ldpQ 2 3 (frameFpOff + 32),.ldpQ 4 5 (frameFpOff + 64),
    .ldpQ 6 7 (frameFpOff + 96),.ldr 20 .sp frameFpcrOff,
    .msr .fpcr 20,.ldr 20 .sp frameFpsrOff,.msr .fpsr 20]

def entryOpens : List Instr :=
  [.subSp frameSize] ++
    (saveEntryGprs ++ (saveFpSnapshot ++
    [.addFromSp 19 frameCtxOff,.mrs 20 .nzcv,.str 0 (.x 19) gpArg0Off,
    .str 1 (.x 19) gpArg1Off,.str 2 (.x 19) gpArg2Off,.str 3 (.x 19) gpArg3Off,.str 4 (.x 19)
      gpArg4Off,.str 5 (.x 19) gpArg5Off,
    .str 20 (.x 19) statusFlagsOff,.str 15 (.x 19) savedRetOff,.str 17 (.x 19) funcIdOff,.mov 0 19,
      .addFromSp 1 frameFpOff]))

def entrySaves : List Instr := [.ldr 0 (.x 19) savedRetOff,.ldr 1 (.x 19) funcIdOff]

def entryCloses : List Instr :=
  restoreFpSnapshot ++
    ([.ldr 20 (.x 19) statusFlagsOff,.msr .nzcv 20] ++
    (restoreEntryGprs ++ [.adrpExitStub 15,.addLo12ExitStub 15,.addSp frameSize]))

def entryStub : List (Line Instr) :=
  entryOpens.map .plain ++
    .call .ztHandleEntry::(entrySaves.map .plain ++
    .call .saveProbeFrameC::(entryCloses.map .plain ++ [.ret]))

def exitOpens : List Instr :=
  [.subSp frameSize] ++
    (saveReturnGprs ++
    (saveFpSnapshot ++ [.addFromSp 19 frameCtxOff,.mrs 20 .nzcv,.str 0 (.x 19) gpRetval0Off,
    .str 20 (.x 19) statusFlagsOff]))

def exitHands : List Instr := [.str 0 (.x 19) funcIdOff,.mov 0 19,.addFromSp 1 frameFpOff]

def exitCloses : List Instr :=
  [.str 0 .sp frameRetaddrOff] ++
    (restoreFpSnapshot ++ ([.ldr 20 (.x 19) statusFlagsOff,.msr .nzcv 20] ++ (restoreReturnGprs ++
    [.ldr 30 .sp frameRetaddrOff,.addSp frameSize])))

def exitStub : List (Line Instr) :=
  exitOpens.map .plain ++
    .call .peekProbeIdC::(exitHands.map .plain ++
    .call .ztHandleReturn::.call .getRetAddrC::(exitCloses.map .plain ++ [.ret]))

theorem nzcvBack (f : Flags) : nzcvOf (nzcvWord f) = f := by
  rcases f with ⟨_ | _,_ | _,_ | _,_ | _⟩ <;> decide

variable {w : World} {s : Cpu}

def run (w : World) (block : List Instr) (s : Cpu) : Cpu := block.foldl (fun s i => exec w i s) s

theorem runCons (i : Instr) (l : List Instr) : run w (i::l) s = run w l (exec w i s) := rfl

theorem runAppend (l l' : List Instr) : run w (l ++ l') s = run w l' (run w l s) :=
  List.foldl_append

theorem getSame {r : Nat} {v : UInt64} (low : r < 31) : (s.set r v).get r = v := by
  simp [State.get,State.set,low]

theorem getOther {r q : Nat} {v : UInt64} (other : q ≠ r) : (s.set r v).get q = s.get q := by
  simp [State.get,State.set,other]

theorem getOf {t : Cpu} (same : s.reg = t.reg) (r : Nat) : s.get r = t.get r := by
  rw [State.get,State.get,same]

def pairWords (s : Cpu) (pairs : List (Nat × Nat × Nat)) : List (Nat × UInt64) :=
  pairs.flatMap fun p => [(p.2.2,s.get p.1),(p.2.2 + 8,s.get p.2.1)]

theorem runPairs {pairs : List (Nat × Nat × Nat)} :
    run w (pairs.map fun p => .stp p.1 p.2.1 p.2.2) s =
    ⟨s.reg,s.sp,s.flags,storeAll s.mem s.sp (pairWords s pairs),s.rest⟩ := by
  induction pairs generalizing s with
  | nil => rfl
  | cons p pairs ih =>
    have parts : pairWords s (p::pairs) = [(p.2.2,s.get p.1),(p.2.2 + 8,s.get p.2.1)] ++ pairWords s
        pairs := List.flatMap_cons
    rw [List.map_cons,runCons,ih,parts,storeAppend]
    rfl

theorem runSlots {slots : List (Nat × Nat)} {r : Nat} :
    run w (slots.map fun p => .str p.1 (.x r) p.2) s =
    ⟨s.reg,s.sp,s.flags,storeAll s.mem (s.get r) (slots.map fun p => (p.2,s.get p.1)),s.rest⟩ := by
  induction slots generalizing s with
  | nil => rfl
  | cons p slots ih =>
    rw [List.map_cons,runCons,ih]
    rfl

theorem runVectors {l : List (Nat × Nat × Nat)} : run w (l.map fun p => .stpQ p.1 p.2.1 p.2.2) s =
    ⟨s.reg,s.sp,s.flags,
      storeAll s.mem s.sp
        (l.flatMap fun p => vecWords p.2.2 (s.rest.q p.1) ++
        vecWords (p.2.2 + 16) (s.rest.q p.2.1)),s.rest⟩ := by
  induction l generalizing s with
  | nil => rfl
  | cons p l ih =>
    rw [List.map_cons,runCons,ih,List.flatMap_cons,storeAppend]
    rfl

def vectorPairs : List (Nat × Nat × Nat) :=
  [(0,1,frameFpOff + 0),(2,3,frameFpOff + 32),(4,5,frameFpOff + 64),(6,7,frameFpOff + 96)]

def fpWords (s : Cpu) : List (Nat × UInt64) :=
  [(frameFpcrOff,s.rest.fpcr),(frameFpsrOff,s.rest.fpsr)] ++
    shifted frameFpOff (vectorWords s.rest.q)

/- A system register goes through x20. -/
theorem runMrs {sys : Sys} {offset : Nat} : run w [.mrs 20 sys,.str 20 .sp offset] s =
    ⟨(s.set 20 (sys.read s)).reg,s.sp,s.flags,storeAll s.mem s.sp [(offset,sys.read s)],
      s.rest⟩ := by
  rw [runCons,runCons,exec,exec,getSame (by decide)]
  rfl

theorem runMsr {sys : Sys} {base : Base} {offset : Nat} {v : UInt64}
    (here : word s.mem (address s base + UInt64.ofNat offset) = v) :
    run w [.ldr 20 base offset,.msr sys 20] s = sys.write v (s.set 20 v) := by
  have load : exec w (.ldr 20 base offset) s = s.set 20 v := by
    rw [← here]
    rfl
  rw [runCons,load,runCons,exec,getSame (by decide)]
  rfl

theorem fpSaved : ∃ v, run w saveFpSnapshot s =
    ⟨(s.set 20 v).reg,s.sp,s.flags,storeAll s.mem s.sp (fpWords s),s.rest⟩ := by
  refine ⟨s.rest.fpsr,?_⟩
  have words : (vectorPairs.flatMap fun p => vecWords p.2.2 (s.rest.q p.1) ++
      vecWords (p.2.2 + 16) (s.rest.q p.2.1)) =
      shifted frameFpOff (vectorWords s.rest.q) := rfl
  have parts : saveFpSnapshot = [.mrs 20 .fpcr,.str 20 .sp frameFpcrOff] ++
      ([.mrs 20 .fpsr,.str 20 .sp frameFpsrOff] ++
    vectorPairs.map fun p => .stpQ p.1 p.2.1 p.2.2) := rfl
  have twice := congrArg State.reg (setSet s 20 s.rest.fpcr s.rest.fpsr)
  have first : run w [.mrs 20 .fpcr,.str 20 .sp frameFpcrOff] s =
    ⟨(s.set 20 s.rest.fpcr).reg,s.sp,s.flags,storeAll s.mem s.sp [(frameFpcrOff,s.rest.fpcr)],
      s.rest⟩ := runMrs
  have second : ∀ m, run w [.mrs 20 .fpsr,.str 20 .sp frameFpsrOff] ⟨(s.set 20 s.rest.fpcr).reg,
      s.sp,s.flags,m,s.rest⟩ =
      ⟨(s.set 20 s.rest.fpsr).reg,s.sp,s.flags,storeAll m s.sp [(frameFpsrOff,s.rest.fpsr)],
        s.rest⟩ := fun m => by
    rw [← twice]
    exact runMrs
  rw [parts,runAppend,first,runAppend,second,runVectors,fpWords,storeAppend,← words]
  rfl

theorem loadsBack {base : UInt64} {l : List (Nat × Nat)} {v : Nat → UInt64}
    (low : ∀ p ∈ l, p.1 < 31)
    (words : ∀ p ∈ l, word s.mem (base + UInt64.ofNat p.2) = v p.1) (r : Nat) :
    (loads base l s).get r = if r ∈ l.map Prod.fst then v r else s.get r := by
  induction l generalizing s with
  | nil => simp [loads]
  | cons p l ih =>
    have tail := ih (s := s.set p.1 (v p.1)) (fun q member => low q (.tail _ member))
        fun q member => words q (.tail _ member)
    rw [loads,List.foldl_cons,words p (.head _)]
    refine tail.trans ?_
    by_cases here : r = p.1
    · rw [here,getSame (low p (.head _))]
      simp
    · rw [getOther here]
      simp only [List.map_cons,List.mem_cons,here,false_or]

theorem loadsOnly {base : UInt64} {l : List (Nat × Nat)} :
    loads base l s = ⟨(loads base l s).reg,s.sp,s.flags,s.mem,s.rest⟩ := by
  induction l generalizing s with
  | nil => rfl
  | cons p l ih => exact ih (s := s.set p.1 (word s.mem (base + UInt64.ofNat p.2)))

theorem runLdps {pairs : List (Nat × Nat × Nat)} : run w
    (pairs.map fun p => .ldp p.1 p.2.1 p.2.2) s =
    loads s.sp (pairs.flatMap fun p => [(p.1,p.2.2),(p.2.1,p.2.2 + 8)]) s := by
  induction pairs generalizing s with
  | nil => rfl
  | cons p pairs ih =>
    rw [List.map_cons,runCons,ih,List.flatMap_cons,loads,loads,List.foldl_append]
    rfl

theorem runLdrs {slots : List (Nat × Nat)} {r : Nat} (free : r ∉ slots.map Prod.fst) :
    run w (slots.map fun p => .ldr p.1 (.x r) p.2) s =
    loads (s.get r) slots s := by
  induction slots generalizing s with
  | nil => rfl
  | cons p slots ih =>
    obtain ⟨other,rest⟩ := not_or.mp (fun among => free (List.mem_cons.mpr among))
    have one : exec w (.ldr p.1 (.x r) p.2) s =
        s.set p.1 (word s.mem (s.get r + UInt64.ofNat p.2)) := rfl
    rw [List.map_cons,runCons,one,ih rest,getOther other]
    rfl

theorem runLdpQs {l : List (Nat × Nat × Nat)} {v : Nat → Vec}
    (first : ∀ p ∈ l, vecAt s.mem (s.sp + UInt64.ofNat p.2.2) = v p.1)
    (second : ∀ p ∈ l, vecAt s.mem (s.sp + UInt64.ofNat (p.2.2 + 16)) = v p.2.1) :
    run w (l.map fun p => .ldpQ p.1 p.2.1 p.2.2) s =
      ⟨s.reg,s.sp,s.flags,s.mem,
        ⟨fun i => if i ∈ l.flatMap (fun p => [p.1,p.2.1]) then v i else s.rest.q i,s.rest.fpcr,
        s.rest.fpsr⟩⟩ := by
  induction l generalizing s with
  | nil => rfl
  | cons p l ih =>
    have tail := ih (s := exec w (.ldpQ p.1 p.2.1 p.2.2) s)
        (fun q member => first q (.tail _ member)) fun q member => second q (.tail _ member)
    rw [List.map_cons,runCons,tail]
    simp only [exec,first p (.head _),second p (.head _)]
    congr 2
    funext i
    have member : i ∈ (p::l).flatMap (fun p => [p.1,p.2.1]) ↔ i = p.1 ∨ i = p.2.1 ∨
        i ∈ l.flatMap fun p => [p.1,p.2.1] := by
      rw [List.flatMap_cons,List.mem_append,List.mem_cons,List.mem_singleton,or_assoc]
    simp only [member]
    by_cases two : i = p.2.1
    · simp [two]
    · by_cases one : i = p.1
      · have kept : Function.update (Function.update s.rest.q p.1 (v p.1)) p.2.1 (v p.2.1) i =
          v i := by
          rw [Function.update_of_ne two,one,Function.update_self]
        rw [kept,ite_self,if_pos (.inl one)]
      · simp only [Function.update_of_ne two,Function.update_of_ne one,one,two,false_or]

def opening (pairs : List (Nat × Nat × Nat)) (slots : List (Nat × Nat)) : List Instr :=
  [.subSp frameSize] ++
    (pairs.map (fun p => .stp p.1 p.2.1 p.2.2) ++
    (saveFpSnapshot ++ ([.addFromSp 19 frameCtxOff,.mrs 20 .nzcv] ++
    slots.map fun p => .str p.1 (.x 19) p.2)))

/- By then x20 has the flags. -/
def slotValue (s : Cpu) (r : Nat) : UInt64 := if r = 20 then nzcvWord s.flags else s.get r

def frameWords (s : Cpu) (pairs : List (Nat × Nat × Nat))
    (slots : List (Nat × Nat)) : List (Nat × UInt64) :=
  pairWords s pairs ++ (fpWords s ++ shifted frameCtxOff (slots.map fun p => (p.2,slotValue s p.1)))

def frameBelow (s : Cpu) : UInt64 := s.sp - UInt64.ofNat frameSize

structure Held (s : Cpu) (words : List (Nat × UInt64)) (t : Cpu) : Prop where
  sp : t.sp = frameBelow s
  context : t.get 19 = frameBelow s + UInt64.ofNat frameCtxOff
  kept : ∀ r, 21 ≤ r → r ≤ 28 → t.get r = s.get r
  saved : Saved t.mem (frameBelow s) words

section Held
variable {pairs : List (Nat × Nat × Nat)} {slots : List (Nat × Nat)}

def atSlots (s : Cpu) (v : UInt64) (m : Mem) : Cpu :=
  State.set (State.set ⟨(s.set 20 v).reg,frameBelow s,s.flags,m,s.rest⟩ 19
    (frameBelow s + UInt64.ofNat frameCtxOff)) 20 (nzcvWord s.flags)

theorem atSlotsContext {v : UInt64} {m : Mem} :
    (atSlots s v m).get 19 = frameBelow s + UInt64.ofNat frameCtxOff := by
  rw [atSlots,getOther (by decide),getSame (by decide)]

theorem atSlotsValue {v : UInt64} {m : Mem} {r : Nat} (other : r ≠ 19) :
    (atSlots s v m).get r = slotValue s r := by
  rw [atSlots,slotValue]
  split
  · next is => rw [is,getSame (by decide)]
  · next is =>
    rw [getOther is,getOther other]
    exact getOther is

theorem runOpening (free : ∀ p ∈ slots, p.1 ≠ 19) : ∃ v m, run w (opening pairs slots) s =
    ⟨(atSlots s v m).reg,frameBelow s,
      s.flags,storeAll s.mem (frameBelow s) (frameWords s pairs slots),s.rest⟩ := by
  have sub : exec w (.subSp frameSize) s = ⟨s.reg,frameBelow s,s.flags,s.mem,s.rest⟩ := rfl
  have gprs : run w (pairs.map fun p => .stp p.1 p.2.1 p.2.2) ⟨s.reg,frameBelow s,s.flags,s.mem,
      s.rest⟩ =
    ⟨s.reg,frameBelow s,s.flags,storeAll s.mem (frameBelow s) (pairWords s pairs),s.rest⟩ :=
      runPairs
  obtain ⟨v,fp⟩ := fpSaved (w := w)
    (s := ⟨s.reg,frameBelow s,s.flags,storeAll s.mem (frameBelow s) (pairWords s pairs),s.rest⟩)
  have filled : ∀ m, run
      w [.addFromSp 19 frameCtxOff,.mrs 20 .nzcv] ⟨(s.set 20 v).reg,frameBelow s,s.flags,m,s.rest⟩ =
      atSlots s v m := fun _ => rfl
  have values : ∀ m, (slots.map fun p => (p.2,(atSlots s v m).get p.1)) = slots.map fun p =>
      (p.2,slotValue s p.1) := fun m =>
    List.map_congr_left fun p member => by rw [atSlotsValue (free p member)]
  refine ⟨v,storeAll (storeAll s.mem (frameBelow s) (pairWords s pairs)) (frameBelow s) (fpWords s),
    ?_⟩
  rw [opening,List.cons_append,List.nil_append,runCons,sub,runAppend,gprs,runAppend,fp,runAppend]
  refine (congrArg _ (filled _)).trans ?_
  rw [runSlots,values,atSlotsContext,frameWords,storeAppend,storeAppend,storeShifted]
  rfl

theorem heldOpened (free : ∀ p ∈ slots, p.1 ≠ 19)
    (spread : Spread ((frameWords s pairs slots).map Prod.fst))
    (within : Within frameSize (frameWords s pairs slots)) :
    Held s (frameWords s pairs slots) (run w (opening pairs slots) s) := by
  obtain ⟨v,m,opened⟩ := @runOpening w s pairs slots free
  rw [opened]
  refine ⟨rfl,atSlotsContext (m := m) (v := v),fun r low high => ?_,
    savedStore spread fun p member => (within p member).trans (by decide)⟩
  have value := atSlotsValue (s := s) (v := v) (m := m) (r := r) (by omega)
  rw [slotValue,if_neg (by omega)] at value
  exact value

/- What the calls have to keep, when they are made with the stack pointer where the stub
has it. -/
structure Conforms (w : World) (frame : UInt64) : Prop where
  registers : ∀ f t, t.sp = frame → ∀ r, 19 ≤ r → r ≤ 29 → (w.payload f t).get r = t.get r
  sp : ∀ f t, t.sp = frame → (w.payload f t).sp = t.sp
  memory : ∀ f t, t.sp = frame → ∀ a, Inside frame frameSize a → (w.payload f t).mem a = t.mem a

theorem heldCall {words : List (Nat × UInt64)} {t : Cpu} {f : Callee}
    (conforms : Conforms w (frameBelow s)) (within : Within frameSize words)
    (held : Held s words t) : Held s words (w.payload f t) := by
  refine ⟨?_,?_,fun r low high => ?_,?_⟩
  · rw [conforms.sp f t held.sp,held.sp]
  · rw [conforms.registers f t held.sp 19 (by decide) (by decide),held.context]
  · rw [conforms.registers f t held.sp r (by omega) (by omega),held.kept r low high]
  · exact savedKept held.saved within (by decide) (conforms.memory f t held.sp)

theorem heldSet {words : List (Nat × UInt64)} {t : Cpu} {r : Nat} {v : UInt64}
    (held : Held s words t) (low : r < 19) : Held s words (t.set r v) := by
  refine ⟨held.sp,?_,fun q first last => ?_,held.saved⟩
  · rw [getOther (by omega),held.context]
  · rw [getOther (by omega),held.kept q first last]

structure Restored (s t u : Cpu) : Prop where
  sp : u.sp = t.sp
  memory : u.mem = t.mem
  registers : ∀ r, r ≠ 20 → u.get r = t.get r
  flags : u.flags = s.flags
  fpcr : u.rest.fpcr = s.rest.fpcr
  fpsr : u.rest.fpsr = s.rest.fpsr
  vectors : ∀ i < 8, u.rest.q i = s.rest.q i

def restoring : List Instr := restoreFpSnapshot ++ [.ldr 20 (.x 19) statusFlagsOff,.msr .nzcv 20]

theorem fpRestored {words : List (Nat × UInt64)} {t : Cpu} (held : Held s words t)
    (vectors : ∀ p ∈ fpWords s, p ∈ words) :
    run w (vectorPairs.map fun p => .ldpQ p.1 p.2.1 p.2.2) t = ⟨t.reg,t.sp,t.flags,t.mem,
      ⟨fun i => if i ∈ vectorPairs.flatMap (fun p => [p.1,p.2.1]) then s.rest.q i else t.rest.q i,
        t.rest.fpcr,t.rest.fpsr⟩⟩ := by
  have saved : Saved t.mem (t.sp + UInt64.ofNat frameFpOff) (vectorWords s.rest.q) := by
    rw [held.sp]
    exact savedShifted fun p member => held.saved p (vectors p (List.mem_append_right _ member))
  have slot : ∀ i < 8, vecAt t.mem (t.sp + UInt64.ofNat (frameFpOff + 16 * i)) = s.rest.q i :=
    fun i low => by
    rw [UInt64.ofNat_add,← UInt64.add_assoc]
    exact vectorSaved saved low
  refine runLdpQs ?_ ?_
  · simp only [vectorPairs,List.forall_mem_cons]
    exact ⟨slot 0 (by decide),slot 2 (by decide),slot 4 (by decide),slot 6 (by decide),by simp⟩
  · simp only [vectorPairs,List.forall_mem_cons]
    exact ⟨slot 1 (by decide),slot 3 (by decide),slot 5 (by decide),slot 7 (by decide),by simp⟩

theorem heldRestored {words : List (Nat × UInt64)} {t : Cpu} (held : Held s words t)
    (vectors : ∀ p ∈ fpWords s, p ∈ words)
    (status : (frameCtxOff + statusFlagsOff,nzcvWord s.flags) ∈ words) :
    Restored s t (run w restoring t) := by
  have fpcr : word t.mem (t.sp + UInt64.ofNat frameFpcrOff) = s.rest.fpcr := by
    rw [held.sp]
    exact held.saved (frameFpcrOff,s.rest.fpcr) (vectors _ (.head _))
  have fpsr : word t.mem (t.sp + UInt64.ofNat frameFpsrOff) = s.rest.fpsr := by
    rw [held.sp]
    exact held.saved (frameFpsrOff,s.rest.fpsr) (vectors _ (.tail _ (.head _)))
  have nzcv : word t.mem (t.get 19 + UInt64.ofNat statusFlagsOff) = nzcvWord s.flags := by
    rw [held.context,UInt64.add_assoc,← UInt64.ofNat_add]
    exact held.saved (frameCtxOff + statusFlagsOff,nzcvWord s.flags) status
  have eight : ∀ i < 8, i ∈ vectorPairs.flatMap fun p => [p.1,p.2.1] := by decide
  have parts : restoring = (vectorPairs.map fun p => .ldpQ p.1 p.2.1 p.2.2) ++
      ([.ldr 20 .sp frameFpcrOff,.msr .fpcr 20] ++
    ([.ldr 20 .sp frameFpsrOff,.msr .fpsr 20] ++ [.ldr 20 (.x 19) statusFlagsOff,.msr .nzcv 20])) :=
      rfl
  have first : ∀ rest,
      run w [.ldr 20 .sp frameFpcrOff,.msr .fpcr 20] ⟨t.reg,t.sp,t.flags,t.mem,rest⟩ =
      ⟨(t.set 20 s.rest.fpcr).reg,t.sp,t.flags,t.mem,⟨rest.q,s.rest.fpcr,rest.fpsr⟩⟩ :=
        fun rest => runMsr fpcr
  have second : ∀ reg rest,
      run w [.ldr 20 .sp frameFpsrOff,.msr .fpsr 20] ⟨reg,t.sp,t.flags,t.mem,rest⟩ =
      ⟨fun i => if i.val = 20 then s.rest.fpsr else reg i,t.sp,t.flags,t.mem,
        ⟨rest.q,rest.fpcr,s.rest.fpsr⟩⟩ := fun reg rest => runMsr fpsr
  have third : ∀ u : Cpu, u.get 19 = t.get 19 → u.mem = t.mem →
      run w [.ldr 20 (.x 19) statusFlagsOff,.msr .nzcv 20] u =
      ⟨(u.set 20 (nzcvWord s.flags)).reg,u.sp,s.flags,u.mem,u.rest⟩ := fun u same memory => by
    have found : word u.mem (address u (.x 19) + UInt64.ofNat statusFlagsOff) =
        nzcvWord s.flags := by
      rw [address,same,memory]
      exact nzcv
    rw [runMsr found,Sys.write,nzcvBack]
    rfl
  have others : ∀ (rest : Rest) r, r ≠ 20 →
      State.get ⟨fun i => if i.val = 20 then s.rest.fpsr else (t.set 20 s.rest.fpcr).reg i,t.sp,
        t.flags,t.mem,rest⟩ r = t.get r :=
    fun rest r other =>
      (getOther (s := t.set 20 s.rest.fpcr) (v := s.rest.fpsr) other).trans (getOther other)
  rw [parts,runAppend,fpRestored held vectors,runAppend,first,runAppend,second,
    third _ (others _ 19 (by decide)) rfl]
  exact ⟨rfl,rfl,fun r other => (getOther other).trans (others t.rest r other),rfl,rfl,rfl,
    fun i low => if_pos (eight i low)⟩

theorem heldStore {words : List (Nat × UInt64)} {t : Cpu} {r k offset : Nat} {base : Base}
    (held : Held s words t) (within : Within frameSize words)
    (place : address t base + UInt64.ofNat k = frameBelow s + UInt64.ofNat offset)
    (fits : offset + 8 ≤ frameSize)
    (apart : ∀ p ∈ words, offset + 8 ≤ p.1 ∨ p.1 + 8 ≤ offset) :
    Held s ((offset,t.get r)::words) (exec w (.str r base k) t) := by
  have small : frameSize ≤ 2^64 := by decide
  have memory : (exec w (.str r base k) t).mem =
      setWord t.mem (frameBelow s + UInt64.ofNat offset) (t.get r) := by
    rw [← place]
    rfl
  refine ⟨held.sp,held.context,held.kept,?_⟩
  rw [memory]
  intro p member
  rcases List.mem_cons.mp member with rfl | among
  · exact wordSame _ _ _
  · exact savedSet held.saved (fun q inside => (within q inside).trans small) (fits.trans small)
      apart p among

theorem pairSaved {m : Mem} {F : UInt64} (saved : Saved m F (frameWords s pairs slots))
    {p : Nat × Nat}
    (member : p ∈ pairs.flatMap fun p => [(p.1,p.2.2),(p.2.1,p.2.2 + 8)]) :
    word m (F + UInt64.ofNat p.2) = s.get p.1 := by
  obtain ⟨q,among,here⟩ := List.mem_flatMap.mp member
  have found : (p.2,s.get p.1) ∈ pairWords s pairs := by
    refine List.mem_flatMap.mpr ⟨q,among,?_⟩
    rcases List.mem_cons.mp here with rfl | last
    · exact .head _
    · rw [List.mem_singleton.mp last]
      exact .tail _ (.head _)
  exact saved (p.2,s.get p.1) (List.mem_append_left _ found)

theorem slotSaved {m : Mem} {F : UInt64} (saved : Saved m F (frameWords s pairs slots))
    {p : Nat × Nat} (member : p ∈ slots) :
    word m (F + UInt64.ofNat frameCtxOff + UInt64.ofNat p.2) = slotValue s p.1 := by
  have context : Saved m F (shifted frameCtxOff (slots.map fun p => (p.2,slotValue s p.1))) :=
    fun q among =>
    saved q (List.mem_append_right _ (List.mem_append_right _ among))
  exact savedShifted context (p.2,slotValue s p.1)
    (List.mem_map_of_mem (f := fun p => (p.2,slotValue s p.1)) member)

theorem frameVectors : ∀ p ∈ fpWords s, p ∈ frameWords s pairs slots :=
  fun _ member => List.mem_append_right _ (List.mem_append_left _ member)

theorem frameStatus (status : (20,statusFlagsOff) ∈ slots) :
    (frameCtxOff + statusFlagsOff,nzcvWord s.flags) ∈ frameWords s pairs slots := by
  refine List.mem_append_right _ (List.mem_append_right _ ?_)
  have slot : (statusFlagsOff,nzcvWord s.flags) ∈ slots.map fun p => (p.2,slotValue s p.1) :=
    List.mem_map_of_mem (f := fun p => (p.2,slotValue s p.1)) status
  exact List.mem_map_of_mem (f := fun p => (frameCtxOff + p.1,p.2)) slot

end Held

structure Intact (s s' : Cpu) : Prop where
  registers : ∀ r, r ≤ 8 ∨ 18 ≤ r ∧ r ≤ 29 → s'.get r = s.get r
  sp : s'.sp = s.sp
  flags : s'.flags = s.flags
  fpcr : s'.rest.fpcr = s.rest.fpcr
  fpsr : s'.rest.fpsr = s.rest.fpsr
  vectors : ∀ i < 8, s'.rest.q i = s.rest.q i

def entryPairs : List (Nat × Nat × Nat) :=
  [(6,7,frameRegsOff + 0),(8,18,frameRegsOff + 16),(19,20,frameRegsOff + 32),
    (29,30,frameRegsOff + 48)]

def argSlots : List (Nat × Nat) :=
  [(0,gpArg0Off),(1,gpArg1Off),(2,gpArg2Off),(3,gpArg3Off),(4,gpArg4Off),(5,gpArg5Off)]

def entrySlots : List (Nat × Nat) :=
  argSlots ++ [(20,statusFlagsOff),(15,savedRetOff),(17,funcIdOff)]

def exitPairs : List (Nat × Nat × Nat) :=
  [(0,1,frameRegsOff + 0),(2,3,frameRegsOff + 16),(4,5,frameRegsOff + 32),(6,7,frameRegsOff + 48),
    (8,18,frameRegsOff + 64),
    (19,20,frameRegsOff + 80),(29,30,frameRegsOff + 96)]

def exitSlots : List (Nat × Nat) := [(0,gpRetval0Off),(20,statusFlagsOff)]

theorem entryOpensIs :
    entryOpens = opening entryPairs entrySlots ++ [.mov 0 19,.addFromSp 1 frameFpOff] := rfl

theorem exitOpensIs : exitOpens = opening exitPairs exitSlots := rfl

theorem entryClosesIs : entryCloses = restoring ++ (argSlots.map (fun p => .ldr p.1 (.x 19) p.2) ++
    (entryPairs.map (fun p => .ldp p.1 p.2.1 p.2.2) ++
      [.adrpExitStub 15,.addLo12ExitStub 15,.addSp frameSize])) := rfl

theorem exitClosesIs :
    exitCloses = [.str 0 .sp frameRetaddrOff] ++
    (restoring ++ (exitPairs.map (fun p => .ldp p.1 p.2.1 p.2.2) ++
    [.ldr 30 .sp frameRetaddrOff,.addSp frameSize])) := rfl

def entryOffsets : List Nat :=
  [0,8,16,24,32,40,48,56,448,456,512,520,528,536,544,552,560,568,576,584,592,600,608,616,624,632,
    320,328,344,352,312,304,376,384,392]

def exitOffsets : List Nat :=
  [0,8,16,24,32,40,48,56,64,72,80,88,96,104,448,456,512,520,528,536,544,552,560,568,576,584,592,600,
    608,616,624,632,368,376]

theorem entryFrame : (frameWords s entryPairs entrySlots).map Prod.fst = entryOffsets := rfl

theorem exitFrame : (frameWords s exitPairs exitSlots).map Prod.fst = exitOffsets := rfl

theorem withinOffsets {words : List (Nat × UInt64)} {offsets : List Nat}
    (are : words.map Prod.fst = offsets) (low : ∀ i ∈ offsets, i + 8 ≤ frameSize) :
    Within frameSize words :=
  fun p member => low p.1 (are ▸ List.mem_map_of_mem (f := Prod.fst) member)

theorem entryWithin : Within frameSize (frameWords s entryPairs entrySlots) :=
  withinOffsets entryFrame (by decide)

theorem exitWithin : Within frameSize (frameWords s exitPairs exitSlots) :=
  withinOffsets exitFrame (by decide)

theorem entryHeld :
    Held s (frameWords s entryPairs entrySlots) (run w (opening entryPairs entrySlots) s) := by
  refine heldOpened (by decide) ?_ entryWithin
  rw [entryFrame,Spread]
  decide

theorem exitHeld : Held s (frameWords s exitPairs exitSlots) (run w exitOpens s) := by
  rw [exitOpensIs]
  refine heldOpened (by decide) ?_ exitWithin
  rw [exitFrame,Spread]
  decide

structure Loaded (u u' : Cpu) : Prop where
  sp : u'.sp = u.sp
  memory : u'.mem = u.mem
  flags : u'.flags = u.flags
  rest : u'.rest = u.rest

theorem loadsLoaded {base : UInt64} {l : List (Nat × Nat)}
    {u : Cpu} : Loaded u (loads base l u) := by
  rw [loadsOnly]
  exact ⟨rfl,rfl,rfl,rfl⟩

def pairRegs (pairs : List (Nat × Nat × Nat)) : List Nat := pairs.flatMap fun p => [p.1,p.2.1]

theorem pairRegsAre (pairs : List (Nat × Nat × Nat)) :
    (pairs.flatMap fun p => [(p.1,p.2.2),(p.2.1,p.2.2 + 8)]).map Prod.fst = pairRegs pairs := by
  rw [List.map_flatMap]
  rfl

theorem ldpsBack {u : Cpu} {pairs : List (Nat × Nat × Nat)} {slots : List (Nat × Nat)}
    (saved : Saved u.mem u.sp (frameWords s pairs slots))
    (low : ∀ r ∈ pairRegs pairs, r < 31) :
    Loaded u (run w (pairs.map fun p => .ldp p.1 p.2.1 p.2.2) u) ∧
      ∀ r, (run w (pairs.map fun p => .ldp p.1 p.2.1 p.2.2) u).get r = if r ∈ pairRegs pairs then
        s.get r else u.get r := by
  rw [runLdps,← pairRegsAre]
  refine ⟨loadsLoaded,loadsBack (fun p member => low p.1 ?_) fun p member => pairSaved saved member⟩
  rw [← pairRegsAre]
  exact List.mem_map_of_mem member

theorem argsBack {u : Cpu} (context : u.get 19 = u.sp + UInt64.ofNat frameCtxOff)
    (saved : Saved u.mem u.sp (frameWords s entryPairs entrySlots)) :
    Loaded u (run w (argSlots.map fun p => .ldr p.1 (.x 19) p.2) u) ∧
      ∀ r, (run w (argSlots.map fun p => .ldr p.1 (.x 19) p.2) u).get r =
        if r ∈ argSlots.map Prod.fst then s.get r else u.get r := by
  have numbers : ∀ p ∈ argSlots, p.1 < 20 := by decide
  rw [runLdrs (by decide)]
  refine ⟨loadsLoaded,
    loadsBack (fun p member => (numbers p member).trans (by decide)) fun p member => ?_⟩
  rw [context,slotSaved saved (List.mem_append_left _ member),slotValue,
    if_neg (Nat.ne_of_lt (numbers p member))]

theorem backOnTop : frameBelow s + UInt64.ofNat frameSize = s.sp := by
  rw [frameBelow]
  grind

theorem wholeAddress (e : UInt64) : e - e % 0x1000 + e % 0x1000 = e := UInt64.sub_add_cancel _ _

structure Hijacked (w : World) (u u' : Cpu) : Prop where
  sp : u'.sp = u.sp + UInt64.ofNat frameSize
  flags : u'.flags = u.flags
  rest : u'.rest = u.rest
  exit : u'.get 15 = w.exitStub
  registers : ∀ r, r ≠ 15 → u'.get r = u.get r

theorem runHijack {u : Cpu} :
    Hijacked w u (run w [.adrpExitStub 15,.addLo12ExitStub 15,.addSp frameSize] u) := by
  have both := setGet u 15 (w.exitStub - w.exitStub % 0x1000) (· + w.exitStub % 0x1000)
  simp only [wholeAddress] at both
  have regs : (run w [.adrpExitStub 15,.addLo12ExitStub 15,.addSp frameSize] u).reg =
      (u.set 15 w.exitStub).reg := by
    rw [runCons,runCons,exec,exec,both]
    rfl
  refine ⟨rfl,rfl,rfl,?_,fun r other => ?_⟩
  · rw [getOf regs,getSame (by decide)]
  · rw [getOf regs,getOther other]

theorem entryClosed {t : Cpu} (held : Held s (frameWords s entryPairs entrySlots) t) :
    Intact s (run w entryCloses t) ∧ (run w entryCloses t).get 15 = w.exitStub ∧
      (run w entryCloses t).get 30 = s.get 30 := by
  have restored := heldRestored (w := w) held frameVectors (frameStatus (by decide))
  have saved := held.saved
  rw [← held.sp,← restored.sp,← restored.memory] at saved
  have context : (run w restoring t).get 19 = (run w restoring t).sp +
      UInt64.ofNat frameCtxOff := by
    rw [restored.registers 19 (by decide),restored.sp,held.sp,held.context]
  obtain ⟨args,argsGet⟩ := argsBack (w := w) context saved
  rw [← args.memory,← args.sp] at saved
  obtain ⟨pairs,pairsGet⟩ := ldpsBack (w := w) saved (by decide)
  rw [entryClosesIs,runAppend,runAppend,runAppend]
  have last := runHijack (w := w) (u := run w (entryPairs.map fun p => .ldp p.1 p.2.1 p.2.2)
    (run w (argSlots.map fun p => .ldr p.1 (.x 19) p.2) (run w restoring t)))
  refine ⟨⟨fun r listed => ?_,?_,?_,?_,?_,fun i low => ?_⟩,last.exit,?_⟩
  · rw [last.registers r (by omega),pairsGet,argsGet]
    by_cases pair : r ∈ pairRegs entryPairs
    · rw [if_pos pair]
    · by_cases arg : r ∈ argSlots.map Prod.fst
      · rw [if_neg pair,if_pos arg]
      · -- Only x21 to x28 are left, which the calls keep.
        have range : 21 ≤ r ∧ r ≤ 28 := by
          simp only [pairRegs,entryPairs,argSlots,List.flatMap_cons,List.flatMap_nil,List.map_cons,
            List.map_nil,List.cons_append,List.nil_append,
            List.mem_cons,List.not_mem_nil,or_false,not_or] at pair arg
          omega
        rw [if_neg pair,if_neg arg,restored.registers r (by omega),held.kept r range.1 range.2]
  · rw [last.sp,pairs.sp,args.sp,restored.sp,held.sp,backOnTop]
  · rw [last.flags,pairs.flags,args.flags,restored.flags]
  · rw [last.rest,pairs.rest,args.rest,restored.fpcr]
  · rw [last.rest,pairs.rest,args.rest,restored.fpsr]
  · rw [last.rest,pairs.rest,args.rest,restored.vectors i low]
  · rw [last.registers 30 (by decide),pairsGet,if_pos (by decide)]

structure Resumed (u u' : Cpu) (back : UInt64) : Prop where
  sp : u'.sp = u.sp + UInt64.ofNat frameSize
  flags : u'.flags = u.flags
  rest : u'.rest = u.rest
  link : u'.get 30 = back
  registers : ∀ r, r ≠ 30 → u'.get r = u.get r

theorem runResume {u : Cpu} {back : UInt64}
    (found : word u.mem (u.sp + UInt64.ofNat frameRetaddrOff) = back) :
    Resumed u (run w [.ldr 30 .sp frameRetaddrOff,.addSp frameSize] u) back := by
  have load : exec w (.ldr 30 .sp frameRetaddrOff) u = u.set 30 back := by
    rw [← found]
    rfl
  have regs : (run w [.ldr 30 .sp frameRetaddrOff,.addSp frameSize] u).reg =
      (u.set 30 back).reg := by
    rw [runCons,load]
    rfl
  refine ⟨rfl,rfl,rfl,?_,fun r other => ?_⟩
  · rw [getOf regs,getSame (by decide)]
  · rw [getOf regs,getOther other]

theorem exitClosed {t : Cpu} {words : List (Nat × UInt64)} {back : UInt64}
    (held : Held s ((frameRetaddrOff,back)::words) t)
    (all : ∀ p ∈ frameWords s exitPairs exitSlots, p ∈ words) :
    Intact s (run w (restoring ++
      (exitPairs.map (fun p => .ldp p.1 p.2.1 p.2.2) ++
      [.ldr 30 .sp frameRetaddrOff,.addSp frameSize])) t) ∧
      (run w (restoring ++
        (exitPairs.map (fun p => .ldp p.1 p.2.1 p.2.2) ++
        [.ldr 30 .sp frameRetaddrOff,.addSp frameSize])) t).get 30 = back := by
  have restored := heldRestored (w := w) held
      (fun p member => .tail _ (all p (frameVectors p member)))
      (.tail _ (all _ (frameStatus (by decide))))
  have saved : Saved t.mem (frameBelow s) (frameWords s exitPairs exitSlots) :=
    fun p member => held.saved p (.tail _ (all p member))
  rw [← held.sp,← restored.sp,← restored.memory] at saved
  obtain ⟨pairs,pairsGet⟩ := ldpsBack (w := w) saved (by decide)
  have last := @runResume w
      (run w (exitPairs.map fun p => .ldp p.1 p.2.1 p.2.2) (run w restoring t)) back (by
    rw [pairs.memory,pairs.sp,restored.memory,restored.sp,held.sp]
    exact held.saved (frameRetaddrOff,back) (.head _))
  rw [runAppend,runAppend]
  refine ⟨⟨fun r listed => ?_,?_,?_,?_,?_,fun i low => ?_⟩,last.link⟩
  · rw [last.registers r (by omega),pairsGet]
    by_cases pair : r ∈ pairRegs exitPairs
    · rw [if_pos pair]
    · have range : 21 ≤ r ∧ r ≤ 28 := by
        simp only [pairRegs,exitPairs,List.flatMap_cons,List.flatMap_nil,List.cons_append,
          List.nil_append,List.mem_cons,List.not_mem_nil,or_false,
          not_or] at pair
        omega
      rw [if_neg pair,restored.registers r (by omega),held.kept r range.1 range.2]
  · rw [last.sp,pairs.sp,restored.sp,held.sp,backOnTop]
  · rw [last.flags,pairs.flags,restored.flags]
  · rw [last.rest,pairs.rest,restored.fpcr]
  · rw [last.rest,pairs.rest,restored.fpsr]
  · rw [last.rest,pairs.rest,restored.vectors i low]

section Writes
variable {t : Cpu}

def writes : Instr → Bool
  | .stp _ _ _ | .stpQ _ _ _ | .str _ _ _ => true
  | _ => false

theorem execStill {i : Instr} (not : writes i = false) : (exec w i s).mem = s.mem := by
  cases i with
  | stp | stpQ | str => cases not
  | ldp | ldr => exact loadsLoaded.memory
  | msr sys r => cases sys <;> rfl
  | _ => rfl

theorem runStill {block : List Instr} (none_ : block.all fun i => !writes i) :
    (run w block s).mem = s.mem := by
  induction block generalizing s with
  | nil => rfl
  | cons i block ih =>
    obtain ⟨first,rest⟩ := Bool.and_eq_true_iff.mp none_
    rw [runCons,ih rest,execStill (by simpa using first)]

theorem entryOpensMemory :
    (run w entryOpens s).mem =
    storeAll s.mem (frameBelow s) (frameWords s entryPairs entrySlots) := by
  obtain ⟨v,m,opened⟩ := @runOpening w s entryPairs entrySlots (by decide)
  rw [entryOpensIs,runAppend,runStill rfl,opened]

theorem exitOpensMemory :
    (run w exitOpens s).mem = storeAll s.mem (frameBelow s) (frameWords s exitPairs exitSlots) := by
  obtain ⟨v,m,opened⟩ := @runOpening w s exitPairs exitSlots (by decide)
  rw [exitOpensIs,opened]

theorem exitHandsMemory : (run w exitHands t).mem =
    storeAll t.mem (t.get 19) [(funcIdOff,t.get 0)] := by
  rw [exitHands,runCons,runStill rfl]
  rfl

theorem exitClosesMemory :
    (run w exitCloses t).mem = storeAll t.mem t.sp [(frameRetaddrOff,t.get 0)] := by
  rw [exitCloses,List.cons_append,List.nil_append,runCons,runStill rfl]
  rfl

end Writes

abbrev through (w : World) (code : List (Line Instr)) (s : Cpu) : Option (List (Leaves Cpu)) :=
  follow (exec w) ret w.payload code s

/- What entry_stub does to the memory around the two calls. Outside its frame it replaces
nothing: the return address is in the link register. -/
structure EntryMemory (w : World) (s t₁ t₂ u : Cpu) : Prop where
  opened : SameBut (Inside (frameBelow s) frameSize) s.mem t₁.mem
  between : t₂.mem = (w.payload .ztHandleEntry t₁).mem
  closed : u.mem = (w.payload .saveProbeFrameC t₂).mem

structure ExitMemory (w : World) (s t₁ t₂ t₃ u : Cpu) : Prop where
  opened : SameBut (Inside (frameBelow s) frameSize) s.mem t₁.mem
  handed : SameBut (Inside (frameBelow s) frameSize) (w.payload .peekProbeIdC t₁).mem t₂.mem
  between : t₃ = w.payload .ztHandleReturn t₂
  closed : SameBut (Inside (frameBelow s) frameSize) (w.payload .getRetAddrC t₃).mem u.mem

section Memory
variable {t t₁ t₂ t₃ u : Cpu} {a : UInt64}

theorem entryStays (memory : EntryMemory w s t₁ t₂ u) (own : ¬ Inside (frameBelow s) frameSize a)
    (entry : (w.payload .ztHandleEntry t₁).mem a = t₁.mem a)
    (frame : (w.payload .saveProbeFrameC t₂).mem a = t₂.mem a) : u.mem a = s.mem a := by
  rw [memory.closed,frame,memory.between,entry,memory.opened a own]

theorem exitStays (memory : ExitMemory w s t₁ t₂ t₃ u) (own : ¬ Inside (frameBelow s) frameSize a)
    (peek : (w.payload .peekProbeIdC t₁).mem a = t₁.mem a)
    (handler : (w.payload .ztHandleReturn t₂).mem a = t₂.mem a)
    (pop : (w.payload .getRetAddrC t₃).mem a = t₃.mem a) : u.mem a = s.mem a := by
  rw [memory.closed a own,pop,memory.between,handler,memory.handed a own,peek,memory.opened a own]

theorem frameOwn {m : Mem} {F : UInt64} {words : List (Nat × UInt64)}
    (within : WordMemory.Within frameSize words) :
    SameBut (Inside F frameSize) m (storeAll m F words) :=
  fun _ outside => storeOutside within (by decide) outside

theorem wordOwn {m : Mem} {F v : UInt64} {offset : Nat} (fits : offset + 8 ≤ frameSize) :
    SameBut (Inside F frameSize) m (storeAll m F [(offset,v)]) := frameOwn fun p member => by
  rw [List.mem_singleton.mp member]; exact fits

end Memory

theorem throughBlock {block : List Instr} {l : List (Line Instr)} {t : Cpu} :
    through w (block.map .plain ++ l) t = through w l (run w block t) :=
  followBlock

theorem throughCall {f : Callee} {l : List (Line Instr)} {t : Cpu} :
    through w (.call f::l) t = (through w l (w.payload f t)).map (.call f t::·) :=
  followCall

theorem throughRet {l : List (Line Instr)} {t : Cpu} :
    through w (.ret::l) t = some [.ret (t.get 30) t] := followRet

theorem entryShown {m : Mem} {F : UInt64} (saved : Saved m F (frameWords s entryPairs entrySlots)) :
    ShownEntry m (F + UInt64.ofNat frameCtxOff) (F + UInt64.ofNat frameFpOff)
      ([0,1,2,3,4,5].map s.get) s.rest.q (s.get 17) := by
  have vectors : Saved m (F + UInt64.ofNat frameFpOff) (vectorWords s.rest.q) :=
    savedShifted fun p member => saved p (frameVectors p (List.mem_append_right _ member))
  have field : ∀ f r, (r,Field.offset f) ∈ entrySlots →
      f.read m (F + UInt64.ofNat frameCtxOff) = slotValue s r := fun f r member =>
    slotSaved saved (p := (r,f.offset)) member
  refine ⟨?_,fun i low => vectorSaved vectors low,field .funcId 17 (by decide)⟩
  simp only [gpArgs,List.map_cons,List.map_nil]
  rw [field .gpArg0 0 (by decide),field .gpArg1 1 (by decide),field .gpArg2 2 (by decide),
    field .gpArg3 3 (by decide),field .gpArg4 4 (by decide),
    field .gpArg5 5 (by decide)]
  rfl

theorem heldHands {words : List (Nat × UInt64)} {u : Cpu} (held : Held s words u) :
    Held s words (run w [.mov 0 19,.addFromSp 1 frameFpOff] u) ∧
    (run w [.mov 0 19,.addFromSp 1 frameFpOff] u).get 0 = frameBelow s + UInt64.ofNat frameCtxOff ∧
      (run w [.mov 0 19,.addFromSp 1 frameFpOff] u).get 1 =
        frameBelow s + UInt64.ofNat frameFpOff := by
  have moved : run w [.mov 0 19,.addFromSp 1 frameFpOff] u =
      (u.set 0 (frameBelow s + UInt64.ofNat frameCtxOff)).set
        1 (frameBelow s + UInt64.ofNat frameFpOff) := by
    rw [← held.context,← held.sp]
    rfl
  rw [moved]
  refine ⟨heldSet (heldSet held (by decide)) (by decide),?_,getSame (by decide)⟩
  rw [getOther (by decide),getSame (by decide)]

def frameSlots : List (Nat × Nat) := [(0,savedRetOff),(1,funcIdOff)]

theorem entrySavesIs : entrySaves = frameSlots.map fun p => .ldr p.1 (.x 19) p.2 := rfl

def frameValue (s : Cpu) (r : Nat) : UInt64 := if r = 0 then s.get 15 else s.get 17

theorem entrySaved {t : Cpu} (held : Held s (frameWords s entryPairs entrySlots) t) :
    Held s (frameWords s entryPairs entrySlots) (run w entrySaves t) ∧
      (run w entrySaves t).get 0 = s.get 15 ∧
      (run w entrySaves t).get 1 = s.get 17 := by
  have found : ∀ p ∈ frameSlots, word t.mem (t.get 19 + UInt64.ofNat p.2) = frameValue s p.1 := by
    have ret : word t.mem (t.get 19 + UInt64.ofNat savedRetOff) = slotValue s 15 := by
      rw [held.context]
      exact slotSaved held.saved (p := (15,savedRetOff)) (by decide)
    have id : word t.mem (t.get 19 + UInt64.ofNat funcIdOff) = slotValue s 17 := by
      rw [held.context]
      exact slotSaved held.saved (p := (17,funcIdOff)) (by decide)
    intro p member
    rcases List.mem_cons.mp member with rfl | last
    · rw [ret,slotValue,if_neg (by decide),frameValue,if_pos rfl]
    · rw [List.mem_singleton.mp last,id,slotValue,if_neg (by decide),frameValue,if_neg (by decide)]
  have back := loadsBack (by decide) found
  have only := @loadsLoaded (t.get 19) frameSlots t
  have others : ∀ r, 2 ≤ r → (loads (t.get 19) frameSlots t).get r = t.get r := fun r high => by
    rw [back,if_neg]
    simp only [frameSlots,List.map_cons,List.map_nil,List.mem_cons,List.not_mem_nil,or_false]
    omega
  rw [entrySavesIs,runLdrs (by decide)]
  refine ⟨⟨only.sp.trans held.sp,?_,fun r low high => ?_,?_⟩,?_,?_⟩
  · rw [others 19 (by decide),held.context]
  · rw [others r (by omega),held.kept r low high]
  · rw [only.memory]
    exact held.saved
  · rw [back,if_pos (by decide),frameValue,if_pos rfl]
  · rw [back,if_pos (by decide),frameValue,if_neg (by decide)]

theorem entryRun : through w entryStub t = some [.call .ztHandleEntry (run w entryOpens t),
    .call .saveProbeFrameC (run w entrySaves (w.payload .ztHandleEntry (run w entryOpens t))),
    .ret ((run w entryCloses
      (w.payload .saveProbeFrameC
      (run w entrySaves (w.payload .ztHandleEntry (run w entryOpens t))))).get 30)
      (run w entryCloses
        (w.payload .saveProbeFrameC
        (run w entrySaves (w.payload .ztHandleEntry (run w entryOpens t)))))] := by
  rw [entryStub,throughBlock,throughCall,throughBlock,throughCall,throughBlock,throughRet,
    Option.map_some,Option.map_some]

theorem exitRun : through w exitStub t = some [.call .peekProbeIdC (run w exitOpens t),
    .call .ztHandleReturn (run w exitHands (w.payload .peekProbeIdC (run w exitOpens t))),
    .call .getRetAddrC
      (w.payload .ztHandleReturn (run w exitHands (w.payload .peekProbeIdC (run w exitOpens t)))),
    .ret ((run w exitCloses
      (w.payload .getRetAddrC
      (w.payload .ztHandleReturn
      (run w exitHands (w.payload .peekProbeIdC (run w exitOpens t)))))).get 30)
      (run w exitCloses (w.payload .getRetAddrC
        (w.payload .ztHandleReturn
        (run w exitHands (w.payload .peekProbeIdC (run w exitOpens t))))))] := by
  rw [exitStub,throughBlock,throughCall,throughBlock,throughCall,throughCall,throughBlock,
    throughRet,Option.map_some,Option.map_some,Option.map_some]

theorem entryThrough (conforms : Conforms w (frameBelow s)) :
    ∃ t₁ t₂ s', through w entryStub s =
      some [.call .ztHandleEntry t₁,.call .saveProbeFrameC t₂,.ret (s.get 30) s'] ∧
      ShownEntry t₁.mem (t₁.get 0) (t₁.get 1) ([0,1,2,3,4,5].map s.get) s.rest.q (s.get 17) ∧
        (t₂.get 0 = s.get 15 ∧ t₂.get 1 = s.get 17) ∧
        Intact s s' ∧ s'.get 15 = w.exitStub ∧ (t₁.sp = frameBelow s ∧ t₂.sp = frameBelow s) ∧
          EntryMemory w s t₁ t₂ s' := by
  obtain ⟨held₁,context,area⟩ := heldHands (w := w) (entryHeld (w := w) (s := s))
  rw [← runAppend,← entryOpensIs] at held₁ context area
  obtain ⟨held₂,ret,id⟩ :=
    entrySaved (w := w) (heldCall (f := .ztHandleEntry) conforms entryWithin held₁)
  obtain ⟨intact,exit,link⟩ :=
    entryClosed (w := w) (heldCall (f := .saveProbeFrameC) conforms entryWithin held₂)
  refine ⟨run w entryOpens s,_,_,?_,?_,⟨ret,id⟩,intact,exit,⟨held₁.sp,held₂.sp⟩,
    ⟨?_,runStill rfl,runStill rfl⟩⟩
  · rw [entryRun,link]
  · rw [context,area]
    exact entryShown held₁.saved
  · rw [entryOpensMemory]
    exact frameOwn entryWithin

def exitWords (s : Cpu) (id : UInt64) : List (Nat × UInt64) :=
  (frameCtxOff + funcIdOff,id)::frameWords s exitPairs exitSlots

theorem exitWordsFrame {id : UInt64} :
    (exitWords s id).map Prod.fst = (frameCtxOff + funcIdOff)::exitOffsets :=
  congrArg ((frameCtxOff + funcIdOff)::·) exitFrame

theorem exitWordsWithin {id : UInt64} : Within frameSize (exitWords s id) :=
  withinOffsets exitWordsFrame (by decide)

theorem apartFrom {words : List (Nat × UInt64)} {offsets : List Nat} {offset : Nat}
    (are : words.map Prod.fst = offsets)
    (free : ∀ i ∈ offsets, offset + 8 ≤ i ∨ i + 8 ≤ offset) : ∀ p ∈ words, offset + 8 ≤ p.1 ∨
      p.1 + 8 ≤ offset :=
  fun p member => free p.1 (are ▸ List.mem_map_of_mem (f := Prod.fst) member)

theorem exitHanded {t : Cpu} (held : Held s (frameWords s exitPairs exitSlots) t) :
    Held s (exitWords s (t.get 0)) (run w exitHands t) ∧
    (run w exitHands t).get 0 = frameBelow s + UInt64.ofNat frameCtxOff ∧
      (run w exitHands t).get 1 = frameBelow s + UInt64.ofNat frameFpOff := by
  have place : address t (.x 19) + UInt64.ofNat funcIdOff =
      frameBelow s + UInt64.ofNat (frameCtxOff + funcIdOff) := by
    rw [address,held.context,UInt64.add_assoc,← UInt64.ofNat_add]
  rw [exitHands,runCons]
  exact heldHands (heldStore held exitWithin place (by decide) (apartFrom exitFrame (by decide)))

theorem exitShown {m : Mem} {F id : UInt64} (saved : Saved m F (exitWords s id)) :
    ShownReturn m (F + UInt64.ofNat frameCtxOff) (F + UInt64.ofNat frameFpOff) (s.get 0) s.rest.q
      id := by
  have frame : Saved m F (frameWords s exitPairs exitSlots) :=
    fun p member => saved p (.tail _ member)
  have vectors : Saved m (F + UInt64.ofNat frameFpOff) (vectorWords s.rest.q) :=
    savedShifted fun p member => frame p (frameVectors p (List.mem_append_right _ member))
  have retval : word m (F + UInt64.ofNat frameCtxOff + UInt64.ofNat gpRetval0Off) = slotValue s 0 :=
    slotSaved frame (p := (0,gpRetval0Off)) (by decide)
  have funcId : word m (F + UInt64.ofNat frameCtxOff + UInt64.ofNat funcIdOff) = id := by
    rw [UInt64.add_assoc,← UInt64.ofNat_add]
    exact saved (frameCtxOff + funcIdOff,id) (.head _)
  have retvalAt : Field.offset .gpRetval0 = gpRetval0Off := rfl
  have funcIdAt : Field.offset .funcId = funcIdOff := rfl
  refine ⟨?_,fun i low => vectorSaved vectors low,?_⟩
  · rw [Field.read,retvalAt,retval,slotValue,if_neg (by decide)]
  · rw [Field.read,funcIdAt,funcId]

theorem exitBack {t : Cpu} {id : UInt64} (held : Held s (exitWords s id) t) :
    Intact s (run w exitCloses t) ∧ (run w exitCloses t).get 30 = t.get 0 := by
  have place : address t .sp + UInt64.ofNat frameRetaddrOff =
      frameBelow s + UInt64.ofNat frameRetaddrOff := by rw [address,held.sp]
  have stored := heldStore (w := w) (r := 0) held exitWordsWithin place (by decide)
      (apartFrom exitWordsFrame (by decide))
  rw [exitClosesIs,List.cons_append,List.nil_append,runCons]
  exact exitClosed stored fun p member => .tail _ member

theorem exitThrough (conforms : Conforms w (frameBelow s)) :
    ∃ t₁ t₂ t₃ s', through w exitStub s =
      some [.call .peekProbeIdC t₁,.call .ztHandleReturn t₂,.call .getRetAddrC t₃,
      .ret ((w.payload .getRetAddrC t₃).get 0) s'] ∧
      ShownReturn t₂.mem (t₂.get 0) (t₂.get 1) (s.get 0) s.rest.q
        ((w.payload .peekProbeIdC t₁).get 0) ∧ Intact s s' ∧
        (t₁.sp = frameBelow s ∧ t₂.sp = frameBelow s ∧ t₃.sp = frameBelow s) ∧
          ExitMemory w s t₁ t₂ t₃ s' := by
  have held₁ := exitHeld (w := w) (s := s)
  have after₁ := heldCall (f := .peekProbeIdC) conforms exitWithin held₁
  obtain ⟨held₂,context,area⟩ := exitHanded (w := w) after₁
  have held₃ := heldCall (f := .ztHandleReturn) conforms exitWordsWithin held₂
  have after₃ := heldCall (f := .getRetAddrC) conforms exitWordsWithin held₃
  obtain ⟨intact,link⟩ := exitBack (w := w) after₃
  refine ⟨run w exitOpens s,run w exitHands (w.payload .peekProbeIdC (run w exitOpens s)),
    w.payload .ztHandleReturn
      (run w exitHands (w.payload .peekProbeIdC (run w exitOpens s))),_,?_,?_,intact,
    ⟨held₁.sp,held₂.sp,held₃.sp⟩,⟨?_,?_,rfl,?_⟩⟩
  · rw [exitRun,link]
  · rw [context,area]
    exact exitShown held₂.saved
  · rw [exitOpensMemory]
    exact frameOwn exitWithin
  · rw [exitHandsMemory,after₁.context,storeShifted]
    exact wordOwn (by decide : frameCtxOff + funcIdOff + 8 ≤ frameSize)
  · rw [exitClosesMemory,after₃.sp]
    exact wordOwn (by decide)

def stubPrefix (probeId : Nat) (entryStubAddr : UInt64) : List Arm64Flow.Op :=
  .move 15 30::((Arm64Flow.stubCall probeId entryStubAddr).map .body ++ [.move 30 15])

theorem trampolineStarts (probeId : Nat) (insns : List Arm64Trampoline.Insn)
    (entryStubAddr continueAddr : UInt64) :
    ∃ rest, Arm64Flow.trampoline probeId insns entryStubAddr continueAddr =
      stubPrefix probeId entryStubAddr ++ rest := by
  refine ⟨(relocated insns continueAddr).map .body,?_⟩
  simp [Arm64Flow.trampoline,stubPrefix]

/- The stub, as what is called; it is back when it has returned to the link register. -/
def entered (w : World) (e : Exit Rest) : Option Cpu :=
  (through w entryStub e.state).bind (returned (e.state.get 30))

def prologue (a : UInt64) (_ : Nat) (s : Cpu) : Option (List (Exit Rest)) := some [⟨.jump,a,s⟩]

/- The stub's calls see the function's arguments, and the prologue starts with everything as
it was but for the link register. -/
def EntryKeeps (w : World) (s : Cpu) : Prop :=
  ∀ (isa : Isa Rest) (a : UInt64) (probeId : Nat) (entryStubAddr : UInt64), ∃ t₁ t₂ s' u,
  through w entryStub (Arm64Flow.atStub a probeId entryStubAddr s) =
    some [.call .ztHandleEntry t₁,.call .saveProbeFrameC t₂,
    .ret (a + UInt64.ofNat (Arm64Flow.stubReturn probeId entryStubAddr)) s'] ∧
  walk Arm64Flow.opSize (Arm64Flow.opStep isa) (Arm64Flow.comesBack (entered w)) prologue a 0
    (stubPrefix probeId entryStubAddr) s =
    some [⟨.call,entryStubAddr,Arm64Flow.atStub a probeId entryStubAddr s⟩,
      ⟨.jump,a + UInt64.ofNat (Arm64Flow.bodyStart probeId entryStubAddr),u⟩] ∧
  ShownEntry t₁.mem (t₁.get 0) (t₁.get 1) ([0,1,2,3,4,5].map s.get) s.rest.q
    (UInt64.ofNat probeId) ∧
  (t₂.get 0 = s.get 30 ∧ t₂.get 1 = UInt64.ofNat probeId) ∧ Intact s u ∧ u.get 30 = w.exitStub ∧
  EntryMemory w s t₁ t₂ u

/- The stub's calls see what is returned, and the caller goes on where the payload says with
everything as it was. -/
def ExitKeeps (w : World) (s : Cpu) : Prop := ∃ t₁ t₂ t₃ u,
  through w exitStub s = some [.call .peekProbeIdC t₁,.call .ztHandleReturn t₂,
    .call .getRetAddrC t₃,.ret ((w.payload .getRetAddrC t₃).get 0) u] ∧
  ShownReturn t₂.mem (t₂.get 0) (t₂.get 1) (s.get 0) s.rest.q ((w.payload .peekProbeIdC t₁).get 0) ∧
    Intact s u ∧
  ExitMemory w s t₁ t₂ t₃ u

section Trampoline
variable {isa : Isa Rest} {a entryStubAddr : UInt64} {probeId : Nat}

theorem atStubOther {r : Nat} (listed : r ≤ 8 ∨ 18 ≤ r ∧ r ≤ 29) :
    (Arm64Flow.atStub a probeId entryStubAddr s).get r = s.get r := by
  rw [Arm64Flow.atStub,getOther (by omega),getOther (by omega),getOther (by omega),
    getOther (by omega)]

theorem atStubId : (Arm64Flow.atStub a probeId entryStubAddr s).get 17 = UInt64.ofNat probeId := by
  rw [Arm64Flow.atStub,getOther (by decide),getOther (by decide),getSame (by decide)]

theorem atStubLink : (Arm64Flow.atStub a probeId entryStubAddr s).get 15 = s.get 30 := by
  rw [Arm64Flow.atStub,getOther (by decide),getOther (by decide),getOther (by decide),
    getSame (by decide)]

theorem atStubReturn : (Arm64Flow.atStub a probeId entryStubAddr s).get 30 =
    a + UInt64.ofNat (Arm64Flow.stubReturn probeId entryStubAddr) := by
  rw [Arm64Flow.atStub,getSame (by decide)]

theorem enteredBack {t : Cpu} {target : UInt64} {t₁ t₂ : Leaves Cpu} {s' : Cpu}
    (stub : through w entryStub t = some [t₁,t₂,.ret (t.get 30) s']) :
    Arm64Flow.comesBack (entered w) ⟨.call,target,t⟩ = some s' := by
  rw [Arm64Flow.comesBack,if_pos rfl,entered,stub,Option.bind_some,returnedLast]

theorem prefixRun {back : Exit Rest → Option Cpu} {s' : Cpu}
    (here : Arm64Flow.comesBack back ⟨.call,entryStubAddr,
      Arm64Flow.atStub a probeId entryStubAddr s⟩ = some s') :
    walk Arm64Flow.opSize (Arm64Flow.opStep isa) (Arm64Flow.comesBack back) prologue a 0
      (stubPrefix probeId entryStubAddr) s =
      some [⟨.call,entryStubAddr,Arm64Flow.atStub a probeId entryStubAddr s⟩,
        ⟨.jump,a + UInt64.ofNat (Arm64Flow.bodyStart probeId entryStubAddr),
          s'.set 30 (s'.get 15)⟩] := by
  have link : a + UInt64.ofNat Arm64Trampoline.insnSize +
      UInt64.ofNat (codeSize emittedSize (Arm64Flow.stubCall probeId entryStubAddr)) =
      a + UInt64.ofNat (Arm64Flow.stubReturn probeId entryStubAddr) := by
        rw [Arm64Flow.stubReturn,UInt64.ofNat_add,UInt64.add_assoc]
  have start : a + UInt64.ofNat (Arm64Flow.stubReturn probeId entryStubAddr) +
      UInt64.ofNat Arm64Trampoline.insnSize =
      a + UInt64.ofNat (Arm64Flow.bodyStart probeId entryStubAddr) := by
        rw [Arm64Flow.bodyStart,UInt64.ofNat_add,UInt64.add_assoc]
  have emitted : ∀ (fall : UInt64 → Nat → Cpu → Option (List (Exit Rest))) a n l s,
      walk Arm64Flow.opSize (Arm64Flow.opStep isa) (Arm64Flow.comesBack back) fall a n
        (l.map .body) s =
        walk emittedSize (step isa) (Arm64Flow.comesBack back) fall a n l s :=
          fun fall a n l s => walkMap (fun _ => rfl) fun _ _ _ => rfl
  have first : Arm64Flow.opStep isa a (.move 15 30) s = .next (0,s.set 15 (s.get 30)) := rfl
  have last : ∀ b, Arm64Flow.opStep isa b (.move 30 15) s' = .next (0,s'.set 30 (s'.get 15)) :=
    fun _ => rfl
  rw [stubPrefix,walkNext first,walkAppend,emitted,Arm64Flow.stubRun]
  simp only [Arm64Flow.opSize]
  rw [link]
  refine (handedBack here).trans ?_
  rw [walkNext (last _)]
  simp only [Arm64Flow.opSize]
  rw [start,walkNil,prologue,Option.map_some]

theorem entryKeeps (conforms : Conforms w (frameBelow s)) : EntryKeeps w s := by
  intro isa a probeId entryStubAddr
  obtain ⟨t₁,t₂,s',stub,shown,⟨link,id⟩,intact,hijacked,_,memory⟩ :=
    entryThrough (w := w) (s := Arm64Flow.atStub a probeId entryStubAddr s) conforms
  have args : [0,1,2,3,4,5].map (Arm64Flow.atStub a probeId entryStubAddr s).get =
      [0,1,2,3,4,5].map s.get :=
    List.map_congr_left fun r member => atStubOther (.inl (by
      have all : ∀ r ∈ [0,1,2,3,4,5], r ≤ 8 := by decide
      exact all r member))
  rw [args,atStubId] at shown
  refine ⟨t₁,t₂,s',_,?_,prefixRun (enteredBack stub),shown,⟨?_,?_⟩,?_,?_,
    ⟨memory.opened,memory.between,memory.closed⟩⟩
  · rw [stub,atStubReturn]
  · rw [link,atStubLink]
  · rw [id,atStubId]
  · refine ⟨fun r listed => ?_,intact.sp,intact.flags,intact.fpcr,intact.fpsr,intact.vectors⟩
    rw [getOther (by omega),intact.registers r listed,atStubOther listed]
  · rw [getSame (by decide),hijacked]

theorem exitKeeps (conforms : Conforms w (frameBelow s)) : ExitKeeps w s := by
  obtain ⟨t₁,t₂,t₃,u,stub,shown,intact,_,memory⟩ := exitThrough conforms
  exact ⟨t₁,t₂,t₃,u,stub,shown,intact,memory⟩

end Trampoline

end ZeroTrace.Arm64Stub
