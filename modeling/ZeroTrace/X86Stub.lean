import Mathlib.Data.Nat.Bitwise
import ZeroTrace.StubContext
import ZeroTrace.X86Flow

/-! The x86_64 stubs. The payload's functions are arbitrary, as long as they keep to the
calling convention and leave the stub's context and vector slots alone. -/
namespace ZeroTrace.X86Stub
open WordMemory StubContext CodeListing X86Replay

/- The flags that popfq loads besides those of `Flags`. -/
structure OtherFlags where
  trap : Bool
  nested : Bool
  alignment : Bool
  identification : Bool
  deriving DecidableEq, Repr

structure Rest where
  xmm : Nat → Vec
  others : OtherFlags

abbrev Cpu := State Rest

/- The flags register as pushfq stores it. Bit 1 is always set, and so is the interrupt flag
as far as a program can see. -/
def flagBit (f : Flags) (o : OtherFlags) (bit : Nat) : Bool := match bit with
  | 0 => f.carry
  | 1 => true
  | 2 => f.parity
  | 4 => f.adjust
  | 6 => f.zero
  | 7 => f.sign
  | 8 => o.trap
  | 9 => true
  | 10 => f.direction
  | 11 => f.overflow
  | 14 => o.nested
  | 18 => o.alignment
  | 21 => o.identification
  | _ => false

def rflags (f : Flags) (o : OtherFlags) : UInt64 :=
  UInt64.ofNat (Nat.ofBits fun i : Fin 22 => flagBit f o i.val)

def flagsOf (v : UInt64) : Flags :=
  ⟨v.toNat.testBit 0,v.toNat.testBit 2,v.toNat.testBit 4,v.toNat.testBit 6,v.toNat.testBit 7,
    v.toNat.testBit 10,v.toNat.testBit 11⟩

def othersOf (v : UInt64) : OtherFlags :=
  ⟨v.toNat.testBit 8,v.toNat.testBit 14,v.toNat.testBit 18,v.toNat.testBit 21⟩

inductive Instr where
  | pushfq
  | popfq
  | push (r : Reg)
  | pushImm (v : UInt64)
  | pop (r : Reg)
  | mov (d r : Reg)
  | sub (r : Reg) (v : UInt64)
  | and (r : Reg) (v : UInt64)
  | lea (d base : Reg) (offset : Nat)
  | leaExitStub (d : Reg)
  | load (d base : Reg) (offset : Nat)
  | store (base : Reg) (offset : Nat) (r : Reg)
  | movdquStore (offset xmm : Nat)
  | movdquLoad (xmm offset : Nat)

/- What the code does not say: where `exit_stub` is, what sub and `and` leave in the flags,
and what a call of a payload function does until it has returned. -/
structure World where
  exitStub : UInt64
  arithmetic : Cpu → Flags
  payload : Callee → Cpu → Cpu

def exec (w : World) (i : Instr) (s : Cpu) : Cpu := match i with
  | .pushfq => s.push (rflags s.flags s.rest.others)
  | .popfq =>
    let v := word s.mem (s.reg .rsp)
    { s.set .rsp (s.reg .rsp + 8)
      with flags := flagsOf v, rest := { s.rest with others := othersOf v } }
  | .push r => s.push (s.reg r)
  | .pushImm v => s.push v
  | .pop r => s.pop r
  | .mov d r => s.set d (s.reg r)
  | .sub r v => { s.set r (s.reg r - v) with flags := w.arithmetic s }
  | .and r v => { s.set r (s.reg r &&& v) with flags := w.arithmetic s }
  | .lea d base offset => s.set d (s.reg base + UInt64.ofNat offset)
  | .leaExitStub d => s.set d w.exitStub
  | .load d base offset => s.set d (word s.mem (s.reg base + UInt64.ofNat offset))
  | .store base offset r =>
      { s with mem := setWord s.mem (s.reg base + UInt64.ofNat offset) (s.reg r) }
  | .movdquStore offset xmm =>
      { s with mem := storeAll s.mem (s.reg .rsp) (vecWords offset (s.rest.xmm xmm)) }
  | .movdquLoad xmm offset =>
    { s with
      rest := { s.rest with
        xmm := Function.update s.rest.xmm xmm (vecAt s.mem (s.reg .rsp + UInt64.ofNat offset)) } }

def ret (s : Cpu) : UInt64 × Cpu := (word s.mem (s.reg .rsp),s.set .rsp (s.reg .rsp + 8))

theorem retMemory (s : Cpu) : (ret s).2.mem = s.mem := rfl

def pushAll : List Instr :=
  [.pushfq,.push .rax,.push .rbx,.push .rcx,.push .rdx,.push .rbp,.push .rsi,.push .rdi,.push .r8,
    .push .r9,.push .r10,.push .r11,.push .r12,
    .push .r13,.push .r14,.push .r15]

def popAll : List Instr :=
  [.pop .r15,.pop .r14,.pop .r13,.pop .r12,.pop .r11,.pop .r10,.pop .r9,.pop .r8,.pop .rdi,
    .pop .rsi,.pop .rbp,.pop .rdx,.pop .rcx,.pop .rbx,
    .pop .rax,.popfq]

def saveFp : List Instr :=
  [.sub .rsp 143,.and .rsp 0xFFFFFFFFFFFFFFF0,.movdquStore 0x00 0,.movdquStore 0x10 1,
    .movdquStore 0x20 2,.movdquStore 0x30 3,.movdquStore 0x40 4,
    .movdquStore 0x50 5,.movdquStore 0x60 6,.movdquStore 0x70 7]

def restoreFp : List Instr :=
  [.movdquLoad 0 0x00,.movdquLoad 1 0x10,.movdquLoad 2 0x20,.movdquLoad 3 0x30,.movdquLoad 4 0x40,
    .movdquLoad 5 0x50,.movdquLoad 6 0x60,
    .movdquLoad 7 0x70]

def entryOpens : List Instr :=
  pushAll ++ ([.mov .r12 .rsp] ++ (saveFp ++ [.mov .rdi .r12,.mov .rsi .rsp]))

def entrySaves : List Instr := [.load .rdi .r12 0x90,.load .rsi .r12 0x88]

def entryCloses : List Instr :=
  [.leaExitStub .rax,.store .r12 0x90 .rax] ++ (restoreFp ++ ([.mov .rsp .r12] ++ popAll))

def entryStub : List (Line Instr) :=
  entryOpens.map .plain ++
    .call .ztHandleEntry::(entrySaves.map .plain ++
    .call .saveProbeFrameC::(entryCloses.map .plain ++ [.ret]))

def exitOpens : List Instr := [.pushImm 0,.pushImm 0] ++ (pushAll ++ ([.mov .r12 .rsp] ++ saveFp))

def exitHands : List Instr := [.store .r12 0x88 .rax,.mov .rdi .r12,.mov .rsi .rsp]

def exitCloses : List Instr :=
  [.store .r12 0x88 .rax] ++ (restoreFp ++ ([.mov .rsp .r12] ++ (popAll ++ [.lea .rsp .rsp 8])))

def exitStub : List (Line Instr) :=
  exitOpens.map .plain ++
    .call .peekProbeIdC::(exitHands.map .plain ++
    .call .ztHandleReturn::.call .getRetAddrC::(exitCloses.map .plain ++ [.ret]))

theorem rflagsBit (f : Flags) (o : OtherFlags) {bit : Nat} (low : bit < 22) :
    (rflags f o).toNat.testBit bit = flagBit f o bit := by
  have small : Nat.ofBits (fun i : Fin 22 => flagBit f o i.val) < 2^64 :=
    (Nat.ofBits_lt_two_pow _).trans (by decide)
  rw [rflags,offsetNat small,Nat.testBit_ofBits_lt _ _ low]

theorem flagsBack (f : Flags) (o : OtherFlags) : flagsOf (rflags f o) = f := by
  simp only [flagsOf,rflagsBit f o,Nat.reduceLT,flagBit]

theorem othersBack (f : Flags) (o : OtherFlags) : othersOf (rflags f o) = o := by
  simp only [othersOf,rflagsBit f o,Nat.reduceLT,flagBit]

variable {w : World} {s : Cpu}

def run (w : World) (block : List Instr) (s : Cpu) : Cpu := block.foldl (fun s i => exec w i s) s

theorem runCons (i : Instr) (l : List Instr) : run w (i::l) s = run w l (exec w i s) := rfl

theorem runAppend (l l' : List Instr) : run w (l ++ l') s = run w l' (run w l s) :=
  List.foldl_append

theorem pushReg {r : Reg} (v : UInt64) (other : r ≠ .rsp) : (s.push v).reg r = s.reg r :=
  Function.update_of_ne other _ _

theorem setOther {r q : Reg} {v : UInt64} (other : q ≠ r) : (s.set r v).reg q = s.reg q :=
  Function.update_of_ne other _ _

theorem pushSp (v : UInt64) : (s.push v).reg .rsp = s.reg .rsp - 8 := by simp [State.push]

theorem runPushes {rs : List Reg} (none_ : .rsp ∉ rs) :
    run w (rs.map .push) s = (rs.map s.reg).foldl State.push s := by
  induction rs generalizing s with
  | nil => rfl
  | cons r rs ih =>
    have rest : .rsp ∉ rs := fun member => none_ (.tail _ member)
    have same : rs.map (s.push (s.reg r)).reg = rs.map s.reg := List.map_congr_left fun q member =>
        pushReg _ fun is => rest (is ▸ member)
    have tail := ih (s := s.push (s.reg r)) rest
    rw [same] at tail
    exact tail

theorem pushesRow {c : UInt64} {vs : List UInt64}
    (top : s.reg .rsp = c + UInt64.ofNat (8 * vs.length)) :
    vs.foldl State.push s = ⟨Function.update s.reg .rsp c,s.flags,storeAll s.mem c (descending vs),
      s.rest⟩ := by
  induction vs generalizing s with
  | nil =>
    have here : s.reg .rsp = c := top.trans (UInt64.add_zero c)
    simp only [List.foldl_nil,← here,Function.update_eq_self]
    rfl
  | cons v vs ih =>
    have down : s.reg .rsp - 8 = c + UInt64.ofNat (8 * vs.length) := by
      rw [top,List.length_cons,Nat.mul_add,UInt64.ofNat_add]
      grind
    have next : (s.push v).reg .rsp = c + UInt64.ofNat (8 * vs.length) := (pushSp v).trans down
    rw [List.foldl_cons,ih next]
    simp only [State.push,Function.update_idem,down]
    rfl

theorem popsBack {rs : List Reg} {v : Reg → UInt64} (none_ : .rsp ∉ rs)
    (words : ∀ i r, rs[i]? = some r → word s.mem (s.reg .rsp + UInt64.ofNat (8 * i)) = v r) :
    run w (rs.map .pop) s =
      { s with reg := fun r => if r = .rsp then s.reg .rsp + UInt64.ofNat (8 * rs.length)
      else if r ∈ rs then v r else s.reg r } := by
  induction rs generalizing s with
  | nil =>
    have top : s.reg .rsp + UInt64.ofNat (8 * ([] : List Reg).length) = s.reg .rsp :=
      UInt64.add_zero _
    have same : (fun r => if r = Reg.rsp then s.reg .rsp else s.reg r) = s.reg := by
      funext r
      split
      · next is => rw [is]
      · rfl
    simp only [List.map_nil,top,List.not_mem_nil,if_false,same]
    rfl
  | cons r rs ih =>
    have other : r ≠ .rsp := fun is => none_ (is ▸ .head _)
    have first : word s.mem (s.reg .rsp) = v r := by
      have zero := words 0 r rfl
      rwa [Nat.mul_zero,show s.reg .rsp + UInt64.ofNat 0 = s.reg .rsp from UInt64.add_zero _]
        at zero
    have popped : s.pop r = (s.set .rsp (s.reg .rsp + 8)).set r (v r) := by rw [← first]; rfl
    have top : (s.pop r).reg .rsp = s.reg .rsp + 8 := by simp [popped,State.set,other.symm]
    have step : ∀ n, s.reg .rsp + 8 + UInt64.ofNat (8 * n) = s.reg .rsp +
        UInt64.ofNat (8 * (n + 1)) := fun n => by
      rw [Nat.mul_add,UInt64.ofNat_add]
      grind
    have tail := ih (s := s.pop r) (fun member => none_ (.tail _ member)) fun i q found => by
      rw [top,step]
      exact words (i + 1) q found
    refine Eq.trans tail ?_
    rw [top,step,popped]
    simp only [State.set]
    congr 1
    funext q
    by_cases sp : q = .rsp
    · simp [sp]
    · by_cases here : q = r
      · simp [here,other]
      · simp [sp,here]

theorem maskedNat {n : Nat} (small : n < 2^64) : n &&& 0xFFFFFFFFFFFFFFF0 = n / 16 * 16 := by
  have shift : n / 16 * 16 = n >>> 4 <<< 4 := by simp [Nat.shiftRight_eq_div_pow,Nat.shiftLeft_eq]
  have mask : 0xFFFFFFFFFFFFFFF0 = (2^60 - 1) <<< 4 := by decide
  rw [shift,mask]
  refine Nat.eq_of_testBit_eq fun i => ?_
  rw [Nat.testBit_and,Nat.testBit_shiftLeft,Nat.testBit_shiftLeft,Nat.testBit_two_pow_sub_one,
    Nat.testBit_shiftRight]
  by_cases low : 4 ≤ i
  · by_cases high : i < 64
    · have inside : i - 4 < 60 := by omega
      have place : 4 + (i - 4) = i := by omega
      simp [low,inside,place]
    · have outside : ¬ i - 4 < 60 := by omega
      have place : 4 + (i - 4) = i := by omega
      have none_ : n.testBit i = false :=
        Nat.testBit_lt_two_pow (small.trans_le (Nat.pow_le_pow_right (by decide) (by omega)))
      simp [outside,place,none_]
  · simp [low]

def fpArea (c : UInt64) : UInt64 := (c - 143) &&& 0xFFFFFFFFFFFFFFF0

theorem fpAreaNat (c : UInt64) : (fpArea c).toNat = (c - 143).toNat / 16 * 16 := by
  rw [fpArea,UInt64.toNat_and]
  exact maskedNat (c - 143).toNat_lt

theorem fpAreaBelow (c : UInt64) : (fpArea c).toNat % 16 = 0 ∧ 143 ≤ (c - fpArea c).toNat ∧
    (c - fpArea c).toNat < 159 := by
  have area := fpAreaNat c
  have low := UInt64.toNat_sub c 143
  have distance := UInt64.toNat_sub c (fpArea c)
  have top := c.toNat_lt
  have bound := (c - 143).toNat_lt
  have number : (143 : UInt64).toNat = 143 := rfl
  rw [number] at low
  refine ⟨?_,?_,?_⟩ <;> omega

theorem areasApart {c x : UInt64} {length : Nat} (small : length ≤ 2^63)
    (inside : Inside c length x) : ¬ Inside (fpArea c) 128 x := by
  obtain ⟨_,above,near⟩ := fpAreaBelow c
  have split : x = c + UInt64.ofNat (x - c).toNat := by
    rw [UInt64.ofNat_toNat]
    grind
  unfold Inside at inside ⊢
  rw [split,@insideOffset (fpArea c) c _ _ rfl (by omega)]
  omega

theorem runStores {l : List (Nat × Nat)} : run w (l.map fun p => .movdquStore p.1 p.2) s =
    { s with mem := storeAll s.mem (s.reg .rsp) (l.flatMap
      fun p => vecWords p.1 (s.rest.xmm p.2)) } := by
  induction l generalizing s with
  | nil => rfl
  | cons p l ih =>
    rw [List.flatMap_cons,storeAppend]
    exact ih

theorem runLoads {l : List (Nat × Nat)} {v : Nat → Vec}
    (slots : ∀ p ∈ l, vecAt s.mem (s.reg .rsp + UInt64.ofNat p.2) = v p.1) :
    run w (l.map fun p => .movdquLoad p.1 p.2) s =
      { s with rest := ⟨fun i => if i ∈ l.map Prod.fst then
        v i else s.rest.xmm i,s.rest.others⟩ } := by
  induction l generalizing s with
  | nil => rfl
  | cons p l ih =>
    have tail := ih (s := exec w (.movdquLoad p.1 p.2) s) fun q member => slots q (.tail _ member)
    refine Eq.trans tail ?_
    simp only [exec,slots p (.head _)]
    congr 2
    funext i
    by_cases here : i = p.1
    · simp [here]
    · simp only [Function.update_of_ne here,List.map_cons,List.mem_cons,here,false_or]

def gprs : List Reg := [.rax,.rbx,.rcx,.rdx,.rbp,.rsi,.rdi,.r8,.r9,.r10,.r11,.r12,.r13,.r14,.r15]

/- What is on the stack from the context on: two words, the flags and the registers. -/
def frame (s : Cpu) (x y : UInt64) : List (Nat × UInt64) :=
  descending (x::y::rflags s.flags s.rest.others::gprs.map s.reg)

theorem frameOffsets (s : Cpu) (x y : UInt64) :
    (frame s x y).map Prod.fst = [136,128,120,112,104,96,88,80,72,64,56,48,40,32,24,16,8,0] := rfl

theorem frameSpread (s : Cpu) (x y : UInt64) : Spread ((frame s x y).map Prod.fst) := by
  rw [frameOffsets,Spread]
  decide

theorem frameWithin (s : Cpu) (x y : UInt64) : Within ctxSize (frame s x y) := by
  intro p member
  have offset := List.mem_map_of_mem (f := Prod.fst) member
  rw [frameOffsets] at offset
  have all : ∀ i ∈ [136,128,120,112,104,96,88,80,72,64,56,48,40,32,24,16,8,0], i + 8 ≤ ctxSize := by
    decide
  exact all p.1 offset

structure Held (s : Cpu) (x y c : UInt64) (t : Cpu) : Prop where
  context : t.reg .r12 = c
  sp : t.reg .rsp = fpArea c
  words : Saved t.mem c (frame s x y)
  vectors : Saved t.mem (fpArea c) (vectorWords s.rest.xmm)

theorem pushAllIs : pushAll = .pushfq::gprs.map .push := rfl

theorem pushedAll {c : UInt64} (x y : UInt64) (top : s.reg .rsp = c + 144) :
    run w pushAll ((s.push x).push y) =
      ⟨Function.update s.reg .rsp c,s.flags,storeAll s.mem c (frame s x y),s.rest⟩ := by
  have flags : exec w .pushfq ((s.push x).push y) = ((s.push x).push y).push
      (rflags s.flags s.rest.others) := rfl
  have same : gprs.map (((s.push x).push y).push (rflags s.flags s.rest.others)).reg =
      gprs.map s.reg :=
    List.map_congr_left fun r member => by
      have other : r ≠ .rsp := fun is => absurd (is ▸ member) (by decide)
      rw [pushReg _ other,pushReg _ other,pushReg _ other]
  rw [pushAllIs,runCons,flags,runPushes (by decide),same,frame,← pushesRow top]
  simp only [List.foldl_cons]

theorem saveFpIs :
    saveFp = [.sub .rsp 143,.and .rsp 0xFFFFFFFFFFFFFFF0] ++
    ((List.range 8).map fun i => (16 * i,i)).map fun p => .movdquStore p.1 p.2 := rfl

theorem fpDown {c : UInt64} (here : s.reg .rsp = c) :
    ∃ f, run w ([.mov .r12 .rsp] ++ [.sub .rsp 143,.and .rsp 0xFFFFFFFFFFFFFFF0]) s =
      ⟨Function.update (Function.update s.reg .r12 c) .rsp (fpArea c),f,s.mem,s.rest⟩ := by
  have mov : exec w (.mov .r12 .rsp) s = s.set .r12 c := by rw [exec,here]
  have still : (s.set .r12 c).reg .rsp = c := by rw [setOther (by decide),here]
  have sub : exec w (.sub .rsp 143) (s.set .r12 c) =
      { (s.set .r12 c).set .rsp (c - 143) with flags := w.arithmetic (s.set .r12 c) } := by
    rw [exec,still]
  refine ⟨w.arithmetic
    { (s.set .r12 c).set .rsp (c - 143) with flags := w.arithmetic (s.set .r12 c) },?_⟩
  rw [List.cons_append,List.nil_append,runCons,runCons,runCons,mov,sub,exec]
  simp only [State.set,Function.update_self,Function.update_idem]
  rfl

theorem fpSaved {c : UInt64} (here : s.reg .rsp = c) : ∃ f, run w ([.mov .r12 .rsp] ++ saveFp) s =
    ⟨Function.update (Function.update s.reg .r12 c) .rsp (fpArea c),f,
      storeAll s.mem (fpArea c) (vectorWords s.rest.xmm),s.rest⟩ := by
  obtain ⟨f,down⟩ := fpDown (w := w) here
  refine ⟨f,?_⟩
  rw [saveFpIs,← List.append_assoc,runAppend,down,runStores,List.flatMap_map]
  simp only [Function.update_self]
  rfl

section Held
variable {x y c : UInt64} {t : Cpu}

theorem heldOpened (top : s.reg .rsp = c + 144) :
    Held s x y c (run w (pushAll ++ ([.mov .r12 .rsp] ++ saveFp)) ((s.push x).push y)) := by
  obtain ⟨f,saved⟩ :=
    fpSaved (w := w) (s := ⟨Function.update s.reg .rsp c,s.flags,
      storeAll s.mem c (frame s x y),s.rest⟩) (c := c) (by simp)
  rw [runAppend,pushedAll x y top,saved]
  have words : Saved (storeAll s.mem c (frame s x y)) c (frame s x y) :=
    savedStore (frameSpread s x y) fun p member => (frameWithin s x y p member).trans (by decide)
  refine ⟨by simp,by simp,savedKept words (frameWithin s x y) (by decide) fun a inside => ?_,?_⟩
  · exact storeOutside (vectorWithin _) (by decide) (areasApart (by decide) inside)
  · exact savedStore (vectorSpread _) fun p member => (vectorWithin _ p member).trans (by decide)

theorem heldSet {r : Reg} {v : UInt64} (held : Held s x y c t) (context : .r12 ≠ r)
    (sp : .rsp ≠ r) : Held s x y c (t.set r v) :=
  ⟨(setOther context).trans held.context,(setOther sp).trans held.sp,held.words,held.vectors⟩

theorem vectorsApart {v : UInt64} {k : Nat} (held : Held s x y c t) (near : k ≤ 144) :
    Saved (setWord t.mem (c + UInt64.ofNat k) v) (fpArea c) (vectorWords s.rest.xmm) := by
  obtain ⟨_,above,close⟩ := fpAreaBelow c
  have place : c + UInt64.ofNat k = fpArea c + UInt64.ofNat ((c - fpArea c).toNat + k) := by
    rw [UInt64.ofNat_add,UInt64.ofNat_toNat]
    grind
  rw [place]
  refine savedSet held.vectors (fun p member => (vectorWithin _ p member).trans (by decide))
    (by omega) fun p member => .inr ?_
  have fits := vectorWithin _ p member
  omega

theorem heldBehind
    {r : Reg} (held : Held s x y c t) : Held s x y c (exec w (.store .r12 0x90 r) t) := by
  refine ⟨held.context,held.sp,?_,?_⟩ <;> simp only [exec,held.context]
  · refine savedSet held.words
      (fun p member => (frameWithin s x y p member).trans (by decide)) (by decide) fun p member =>
      .inr ?_
    exact frameWithin s x y p member
  · exact vectorsApart held (by decide)

theorem heldLast {r : Reg}
    (held : Held s x y c t) : Held s (t.reg r) y c (exec w (.store .r12 0x88 r) t) := by
  refine ⟨held.context,held.sp,?_,?_⟩ <;> simp only [exec,held.context]
  · have others : Saved (setWord t.mem (c + UInt64.ofNat 136) (t.reg r)) c (frame s x y).tail := by
      refine savedSet (fun p member => held.words p (List.mem_of_mem_tail member))
        (fun p member => (frameWithin s x y p (List.mem_of_mem_tail member)).trans (by decide))
          (by decide) fun p member => .inr ?_
      have apart : 136 + 8 ≤ p.1 ∨
          p.1 + 8 ≤ 136 := (List.pairwise_cons.mp (frameSpread s x y)).1 p.1
          (List.mem_map_of_mem member)
      have fits := frameWithin s x y p (List.mem_of_mem_tail member)
      simp only [ctxSize,fields,List.length_cons,List.length_nil] at fits
      omega
    intro p member
    rcases List.mem_cons.mp member with rfl | rest
    · exact wordSame _ _ _
    · exact others p rest
  · exact vectorsApart held (by decide)

/- What the calls have to keep, when they are made with the stack pointer where the stub
has it. -/
structure Conforms (w : World) (c : UInt64) : Prop where
  registers : ∀ f t, t.reg .rsp = fpArea c → ∀ r ∈ [Reg.rbx,.rbp,.rsp,.r12,.r13,.r14,.r15],
    (w.payload f t).reg r = t.reg r
  memory : ∀ f t, t.reg .rsp = fpArea c → ∀ a, Inside c ctxSize a ∨ Inside (fpArea c) 128 a →
    (w.payload f t).mem a = t.mem a

theorem heldCall {f : Callee} (conforms : Conforms w c) (held : Held s x y c t) :
    Held s x y c (w.payload f t) := by
  refine ⟨?_,?_,?_,?_⟩
  · rw [conforms.registers f t held.sp .r12 (by simp)]
    exact held.context
  · rw [conforms.registers f t held.sp .rsp (by simp)]
    exact held.sp
  · exact savedKept held.words (frameWithin s x y) (by decide) fun a inside =>
      conforms.memory f t held.sp a (.inl inside)
  · exact savedKept held.vectors (vectorWithin _) (by decide) fun a inside =>
      conforms.memory f t held.sp a (.inr inside)

theorem restoreFpIs : restoreFp = ((List.range 8).map fun i => (i,16 * i)).map fun p =>
    .movdquLoad p.1 p.2 := rfl

theorem popAllIs : popAll = gprs.reverse.map .pop ++ [.popfq] := rfl

theorem gprsAll {r : Reg} (other : r ≠ .rsp) : r ∈ gprs.reverse := by
  cases r with
  | rsp => exact absurd rfl other
  | _ => decide

theorem fpRestored (held : Held s x y c t) :
    run w restoreFp t =
      ⟨t.reg,t.flags,t.mem,
      ⟨fun i => if i < 8 then s.rest.xmm i else t.rest.xmm i,t.rest.others⟩⟩ := by
  have slots : ∀ p ∈ (List.range 8).map fun i => (i,16 * i),
      vecAt t.mem (t.reg .rsp + UInt64.ofNat p.2) = s.rest.xmm p.1 := by
    intro p member
    obtain ⟨i,low,rfl⟩ := List.mem_map.mp member
    rw [held.sp]
    exact vectorSaved held.vectors (List.mem_range.mp low)
  have which : ∀ i, i ∈ ((List.range 8).map fun i => (i,16 * i)).map Prod.fst ↔ i < 8 := fun i => by
    rw [List.map_map]
    exact List.mem_map.trans (by simp)
  rw [restoreFpIs,runLoads slots]
  simp only [which]

theorem allPopped {u : Cpu} (here : u.reg .rsp = c) (words : Saved u.mem c (frame s x y)) :
    run w (gprs.reverse.map .pop) u =
      ⟨Function.update s.reg .rsp (c + 120),u.flags,u.mem,u.rest⟩ := by
  have each : ∀ i r, gprs.reverse[i]? = some r → word u.mem (u.reg .rsp + UInt64.ofNat (8 * i)) =
      s.reg r := by
    intro i r found
    rw [here]
    refine words (8 * i,s.reg r) (.tail _ (.tail _ (.tail _ (descendingAt ?_))))
    rw [← List.map_reverse,List.getElem?_map,found]
    rfl
  rw [popsBack (by decide) each]
  congr 1
  funext r
  by_cases sp : r = .rsp
  · rw [if_pos sp,sp,Function.update_self,here]
    rfl
  · rw [if_neg sp,if_pos (gprsAll sp),Function.update_of_ne sp]

structure Closed (s : Cpu) (c : UInt64) (t s' : Cpu) : Prop where
  registers : s'.reg = Function.update s.reg .rsp (c + 128)
  flags : s'.flags = s.flags
  others : s'.rest.others = s.rest.others
  vectors : ∀ i < 8, s'.rest.xmm i = s.rest.xmm i
  memory : s'.mem = t.mem

theorem heldClosed (held : Held s x y c t) :
    Closed s c t (run w (restoreFp ++ ([.mov .rsp .r12] ++ popAll)) t) := by
  have flags : word t.mem (c + 120) = rflags s.flags s.rest.others :=
    held.words (120,_) (.tail _ (.tail _ (.head _)))
  have top : c + 120 + 8 = c + 128 := by grind
  have mov : ∀ rest,
      exec w (.mov .rsp .r12) ⟨t.reg,t.flags,t.mem,rest⟩ =
      ⟨Function.update t.reg .rsp c,t.flags,t.mem,rest⟩ := fun rest => by
    rw [exec,State.set,held.context]
  have pops : ∀ rest,
      run w (gprs.reverse.map .pop) ⟨Function.update t.reg .rsp c,t.flags,t.mem,rest⟩ =
      ⟨Function.update s.reg .rsp (c + 120),t.flags,t.mem,rest⟩ :=
        fun rest => allPopped (by simp) held.words
  rw [runAppend,fpRestored held,List.cons_append,List.nil_append,runCons,mov,popAllIs,runAppend,
    pops,runCons,exec]
  simp only [State.set,Function.update_self,Function.update_idem,flags,flagsBack,othersBack,top]
  exact ⟨rfl,rfl,rfl,fun i low => if_pos low,rfl⟩

theorem frameField {f : Field} {k : Nat} {v : UInt64} (held : Held s x y c t)
    (found : (frame s x y)[k]? = some (f.offset,v)) :
    Field.read t.mem c f = v := held.words (f.offset,v) (List.mem_of_getElem? found)

theorem heldShown (held : Held s x y c t) :
    ShownEntry t.mem c (fpArea c) ([Reg.rdi,.rsi,.rdx,.rcx,.r8,.r9].map s.reg) s.rest.xmm x ∧
      ShownReturn t.mem c (fpArea c) (s.reg .rax) s.rest.xmm x := by
  have id : Field.read t.mem c .funcId = x := frameField (k := 0) held rfl
  have args : gpArgs.map (Field.read t.mem c) = [Reg.rdi,.rsi,.rdx,.rcx,.r8,.r9].map s.reg := by
    simp only [gpArgs,List.map_cons,List.map_nil]
    rw [frameField (f := .gpArg0) (k := 9) (v := s.reg .rdi) held rfl,
      frameField (f := .gpArg1) (k := 8) (v := s.reg .rsi) held rfl,
      frameField (f := .gpArg2) (k := 6) (v := s.reg .rdx) held rfl,frameField
        (f := .gpArg3) (k := 5) (v := s.reg .rcx) held rfl,
      frameField (f := .gpArg4) (k := 10) (v := s.reg .r8) held rfl,
        frameField (f := .gpArg5) (k := 11) (v := s.reg .r9) held rfl]
  exact ⟨⟨args,fun i low => vectorSaved held.vectors low,id⟩,
    ⟨frameField (k := 3) held rfl,fun i low => vectorSaved held.vectors low,id⟩⟩

end Held

section Writes
variable {t : Cpu} {c id back : UInt64}

def writes : Instr → Bool
  | .pushfq | .push _ | .pushImm _ | .store _ _ _ | .movdquStore _ _ => true
  | _ => false

theorem runStill {block : List Instr} (none_ : block.all fun i => !writes i) : (run w block s).mem =
    s.mem := by
  induction block generalizing s with
  | nil => rfl
  | cons i block ih =>
    obtain ⟨first,rest⟩ := Bool.and_eq_true_iff.mp none_
    rw [runCons,ih rest]
    cases i with
    | pushfq | push | pushImm | store | movdquStore => cases first
    | _ => rfl

theorem openedMemory (x y : UInt64) (top : s.reg .rsp = c + 144) :
    (run w (pushAll ++ ([.mov .r12 .rsp] ++ saveFp)) ((s.push x).push y)).mem =
    storeAll (storeAll s.mem c (frame s x y)) (fpArea c) (vectorWords s.rest.xmm) := by
  obtain ⟨f,saved⟩ :=
    fpSaved (w := w) (s := ⟨Function.update s.reg .rsp c,s.flags,
      storeAll s.mem c (frame s x y),s.rest⟩) (c := c) (by simp)
  rw [runAppend,pushedAll x y top,saved]

theorem entryOpensMemory (top : s.reg .rsp = c + 144) :
    (run w entryOpens ((s.push id).push back)).mem =
    storeAll (storeAll s.mem c (frame s id back)) (fpArea c) (vectorWords s.rest.xmm) := by
  have parts : entryOpens =
      (pushAll ++ ([.mov .r12 .rsp] ++ saveFp)) ++ [.mov .rdi .r12,.mov .rsi .rsp] := rfl
  rw [parts,runAppend,runStill rfl,openedMemory id back top]

theorem exitOpensMemory (top : s.reg .rsp = c + 144) : (run w exitOpens s).mem =
    storeAll (storeAll s.mem c (frame s 0 0)) (fpArea c) (vectorWords s.rest.xmm) := by
  rw [exitOpens,List.cons_append,List.cons_append,List.nil_append,runCons,runCons]
  exact openedMemory 0 0 top

theorem entryClosesMemory : (run w entryCloses t).mem =
    setWord t.mem (t.reg .r12 + 144) w.exitStub := by
  rw [entryCloses,List.cons_append,List.cons_append,List.nil_append,runCons,runCons,runStill rfl]
  simp only [exec,setOther (show Reg.r12 ≠ .rax by decide),setSame]
  rfl

theorem exitHandsMemory : (run w exitHands t).mem = setWord t.mem (t.reg .r12 + 136)
    (t.reg .rax) := by
  rw [exitHands,runCons,runStill rfl]
  rfl

theorem exitClosesMemory : (run w exitCloses t).mem = setWord t.mem (t.reg .r12 + 136)
    (t.reg .rax) := by
  rw [exitCloses,List.cons_append,List.nil_append,runCons,runStill rfl]
  rfl

theorem openedOutside {m : Mem} {x y v : UInt64} (context : ¬ Inside c 144 v)
    (vectors : ¬ Inside (fpArea c) 128 v) :
    storeAll (storeAll m c (frame s x y)) (fpArea c) (vectorWords s.rest.xmm) v = m v := by
  rw [storeOutside (vectorWithin _) (by decide) vectors,
    storeOutside (frameWithin s x y) (by decide) context]

theorem openedSlot {m : Mem} {x y : UInt64} :
    word (storeAll (storeAll m c (frame s x y)) (fpArea c) (vectorWords s.rest.xmm)) (c + 144) =
    word m (c + 144) := by
  refine wordCongr fun k low => ?_
  have distance : (c + 144 + UInt64.ofNat k - c).toNat = 144 + k :=
    insideOffset (offsetDistance c (i := 144) (by decide)) (by omega)
  have above : ¬ Inside c 144 (c + 144 + UInt64.ofNat k) := by
    rw [Inside,distance]
    omega
  have inside : Inside c 152 (c + 144 + UInt64.ofNat k) := by
    rw [Inside,distance]
    omega
  exact openedOutside above (areasApart (by decide) inside)

theorem entrySavesLink {x y : UInt64} (held : Held s x y c t) : (run w entrySaves t).reg .rdi =
    word t.mem (c + 144) := by
  rw [entrySaves,runCons,runCons,exec,exec,held.context]
  exact (setOther (by decide)).trans (setSame _ _ _)

end Writes

/- The bytes that a stub has for itself: its context and the vector slots. -/
def Own (c a : UInt64) : Prop := Inside c ctxSize a ∨ Inside (fpArea c) 128 a

/- What entry_stub does to the memory around the two calls. The return address, which the
second call is given, is the only word that it replaces outside its own. -/
structure EntryMemory (w : World) (c : UInt64) (s t₁ t₂ u : Cpu) : Prop where
  opened : SameBut (Own c) s.mem t₁.mem
  caller : word t₁.mem (s.reg .rsp) = word s.mem (s.reg .rsp)
  between : t₂.mem = (w.payload .ztHandleEntry t₁).mem
  link : t₂.reg .rdi = word t₂.mem (s.reg .rsp)
  replaced : SameBut (Inside (s.reg .rsp) 8) (w.payload .saveProbeFrameC t₂).mem u.mem

structure ExitMemory (w : World) (c : UInt64) (s t₁ t₂ t₃ u : Cpu) : Prop where
  opened : SameBut (Own c) s.mem t₁.mem
  handed : SameBut (Own c) (w.payload .peekProbeIdC t₁).mem t₂.mem
  between : t₃ = w.payload .ztHandleReturn t₂
  closed : SameBut (Own c) (w.payload .getRetAddrC t₃).mem u.mem

section Memory
variable {c : UInt64} {t t₁ t₂ t₃ u : Cpu}

theorem entryStays (memory : EntryMemory w c s t₁ t₂ u) {a : UInt64} (own : ¬ Own c a)
    (slot : ¬ Inside (s.reg .rsp) 8 a)
    (entry : (w.payload .ztHandleEntry t₁).mem a = t₁.mem a)
    (frame : (w.payload .saveProbeFrameC t₂).mem a = t₂.mem a) : u.mem a = s.mem a := by
  rw [memory.replaced a slot,frame,memory.between,entry,memory.opened a own]

theorem exitStays (memory : ExitMemory w c s t₁ t₂ t₃ u) {a : UInt64} (own : ¬ Own c a)
    (peek : (w.payload .peekProbeIdC t₁).mem a = t₁.mem a)
    (handler : (w.payload .ztHandleReturn t₂).mem a = t₂.mem a)
    (pop : (w.payload .getRetAddrC t₃).mem a = t₃.mem a) : u.mem a = s.mem a := by
  rw [memory.closed a own,pop,memory.between,handler,memory.handed a own,peek,memory.opened a own]

/- A handler that leaves the return address alone has it saved. -/
theorem callerSaved (memory : EntryMemory w c s t₁ t₂ u)
    (alone : ∀ a, Inside (s.reg .rsp) 8 a → (w.payload .ztHandleEntry t₁).mem a = t₁.mem a) :
    t₂.reg .rdi = word s.mem (s.reg .rsp) := by
  rw [memory.link,memory.between,← memory.caller]
  refine wordCongr fun k low => alone _ ?_
  rw [Inside,offsetDistance _ (by omega)]
  exact low

theorem openedOwn {x y : UInt64} :
    SameBut (Own c) s.mem
    (storeAll (storeAll s.mem c (frame s x y)) (fpArea c) (vectorWords s.rest.xmm)) :=
  fun _ outside => openedOutside (fun inside => outside (.inl inside)) fun inside =>
    outside (.inr inside)

theorem lastOwn {m : Mem} {v : UInt64} : SameBut (Own c) m (setWord m (c + 136) v) := by
  have fits : Within ctxSize [(136,v)] := fun p member => by
    rw [List.mem_singleton.mp member]
    exact (by decide : 136 + 8 ≤ ctxSize)
  have same : setWord m (c + 136) v = storeAll m c [(136,v)] := rfl
  rw [same]
  exact fun a outside => storeOutside fits (by decide) fun inside => outside (.inl inside)

end Memory

structure Intact (s s' : Cpu) : Prop where
  registers : s'.reg = s.reg
  flags : s'.flags = s.flags
  others : s'.rest.others = s.rest.others
  vectors : ∀ i < 8, s'.rest.xmm i = s.rest.xmm i

abbrev through (w : World) (code : List (Line Instr)) (s : Cpu) : Option (List (Leaves Cpu)) :=
  follow (exec w) ret w.payload code s

def contextBelow (s : Cpu) : UInt64 := s.reg .rsp - 144

section Through
variable {c : UInt64} {id back : UInt64}

theorem entryOpened (top : s.reg .rsp = c + 144) : ∃ u, Held s id back c u ∧
    run w entryOpens ((s.push id).push back) = (u.set .rdi c).set .rsi (fpArea c) := by
  have held := heldOpened (w := w) (x := id) (y := back) top
  refine ⟨_,held,?_⟩
  have parts : entryOpens =
      (pushAll ++ ([.mov .r12 .rsp] ++ saveFp)) ++ [.mov .rdi .r12,.mov .rsi .rsp] := rfl
  rw [parts,runAppend,runCons,runCons,exec,exec,setOther (by decide),held.context,held.sp]
  rfl

theorem entryClosed {t : Cpu} (held : Held s id back c t) :
    ∃ u, Held s id back c u ∧ word u.mem (c + 144) = w.exitStub ∧
    Closed s c u (run w entryCloses t) := by
  have replaced : Held s id back c
      (exec w (.store .r12 0x90 .rax) (t.set .rax w.exitStub)) :=
      heldBehind (heldSet held (by decide) (by decide))
  refine ⟨_,replaced,?_,?_⟩
  · have place : (t.set .rax w.exitStub).reg .r12 + UInt64.ofNat 0x90 = c + 144 := by
      rw [setOther (by decide),held.context]
      rfl
    have value : (t.set .rax w.exitStub).reg .rax = w.exitStub := setSame _ _ _
    simp only [exec,place,value]
    exact wordSame _ _ _
  · rw [entryCloses,List.cons_append,List.cons_append,List.nil_append,runCons,runCons,exec]
    exact heldClosed replaced

theorem closedReturn {u s' : Cpu} (top : s.reg .rsp = c + 144) (held : Held s id back c u)
    (closed : Closed s c u s') :
    (ret s').1 = back ∧ Intact s ((ret s').2.set .rsp ((ret s').2.reg .rsp + 8)) := by
  have sp : s'.reg .rsp = c + 128 := by rw [closed.registers,Function.update_self]
  have last : c + 128 + 8 + 8 = s.reg .rsp := by rw [top]; grind
  refine ⟨?_,⟨?_,closed.flags,closed.others,closed.vectors⟩⟩
  · rw [ret,sp,closed.memory]
    exact held.words (128,back) (.tail _ (.head _))
  · simp only [ret,State.set,closed.registers,Function.update_self,Function.update_idem,last,
      Function.update_eq_self]

theorem throughBlock {block : List Instr} {l : List (Line Instr)} {t : Cpu} :
    through w (block.map .plain ++ l) t = through w l (run w block t) :=
  followBlock

theorem throughCall {f : Callee} {l : List (Line Instr)} {t : Cpu} :
    through w (.call f::l) t = (through w l (w.payload f t)).map (.call f t::·) :=
  followCall

theorem throughRet {l : List (Line Instr)} {t : Cpu} :
    through w (.ret::l) t = some [.ret (ret t).1 (ret t).2] := followRet

theorem entryRun : through w entryStub t = some [.call .ztHandleEntry (run w entryOpens t),
    .call .saveProbeFrameC (run w entrySaves (w.payload .ztHandleEntry (run w entryOpens t))),
    .ret (ret (run w entryCloses
      (w.payload .saveProbeFrameC
      (run w entrySaves (w.payload .ztHandleEntry (run w entryOpens t)))))).1
      (ret (run w entryCloses
        (w.payload .saveProbeFrameC
        (run w entrySaves (w.payload .ztHandleEntry (run w entryOpens t)))))).2] := by
  rw [entryStub,throughBlock,throughCall,throughBlock,throughCall,throughBlock,throughRet,
    Option.map_some,Option.map_some]

theorem exitRun : through w exitStub t = some [.call .peekProbeIdC (run w exitOpens t),
    .call .ztHandleReturn (run w exitHands (w.payload .peekProbeIdC (run w exitOpens t))),
    .call .getRetAddrC
      (w.payload .ztHandleReturn (run w exitHands (w.payload .peekProbeIdC (run w exitOpens t)))),
    .ret (ret (run w exitCloses
      (w.payload .getRetAddrC
      (w.payload .ztHandleReturn
      (run w exitHands (w.payload .peekProbeIdC (run w exitOpens t))))))).1
      (ret (run w exitCloses
        (w.payload .getRetAddrC
        (w.payload .ztHandleReturn
        (run w exitHands (w.payload .peekProbeIdC (run w exitOpens t))))))).2] := by
  rw [exitStub,throughBlock,throughCall,throughBlock,throughCall,throughCall,throughBlock,
    throughRet,Option.map_some,Option.map_some,Option.map_some]

theorem entryThrough (conforms : Conforms w c) (top : s.reg .rsp = c + 144) :
    ∃ t₁ t₂ s', through w entryStub ((s.push id).push back) =
      some [.call .ztHandleEntry t₁,.call .saveProbeFrameC t₂,.ret back s'] ∧
      (t₁.reg .rdi = c ∧ t₁.reg .rsi = fpArea c ∧ Held s id back c t₁) ∧
        (t₂.reg .rsi = id ∧ Held s id back c t₂) ∧
        Intact s (s'.set .rsp (s'.reg .rsp + 8)) ∧ word s'.mem (c + 144) = w.exitStub ∧
          EntryMemory w c s t₁ t₂ s' := by
  obtain ⟨u,opened,run₁⟩ := @entryOpened w s c id back top
  have held₁ : Held s id back c ((u.set .rdi c).set .rsi (fpArea c)) :=
    heldSet (heldSet opened (by decide) (by decide)) (by decide) (by decide)
  have after₁ := heldCall (f := .ztHandleEntry) conforms held₁
  have filled : ((u.set .rdi c).set .rsi (fpArea c)).mem =
      storeAll (storeAll s.mem c (frame s id back)) (fpArea c) (vectorWords s.rest.xmm) := by
    rw [← run₁,entryOpensMemory top]
  have held₂ : Held s id back
      c (run w entrySaves (w.payload .ztHandleEntry ((u.set .rdi c).set .rsi (fpArea c)))) := by
    rw [entrySaves,runCons,runCons,exec,exec]
    exact heldSet (heldSet after₁ (by decide) (by decide)) (by decide) (by decide)
  have after₂ := heldCall (f := .saveProbeFrameC) conforms held₂
  obtain ⟨v,above,hijacked,closed⟩ := entryClosed (w := w) after₂
  obtain ⟨target,intact⟩ := closedReturn top above closed
  refine ⟨_,_,_,?_,⟨?_,setSame _ _ _,held₁⟩,⟨?_,held₂⟩,intact,?_,⟨?_,?_,runStill rfl,?_,?_⟩⟩
  · rw [entryRun,run₁,target]
  · rw [setOther (by decide),setSame]
  · rw [entrySaves,runCons,runCons,exec,exec]
    refine (setSame _ _ _).trans ?_
    rw [setOther (by decide),after₁.context]
    exact after₁.words (136,id) (.head _)
  · rw [retMemory,closed.memory,hijacked]
  · rw [filled]
    exact openedOwn
  · rw [filled,top,openedSlot]
  · rw [entrySavesLink after₁,runStill rfl,top]
  · intro a outside
    rw [top] at outside
    rw [retMemory,entryClosesMemory,after₂.context]
    exact setOutside outside

theorem exitOpened (top : s.reg .rsp = c + 144) : Held s 0 0 c (run w exitOpens s) := by
  rw [exitOpens,List.cons_append,List.cons_append,List.nil_append,runCons,runCons]
  exact heldOpened top

/- Without the word above the flags, the return goes by the context's last word. -/
theorem closedCaller {u s' : Cpu} {x : UInt64} (top : s.reg .rsp = c + 144)
    (held : Held s x back c u) (closed : Closed s c u s') :
    (ret (exec w (.lea .rsp .rsp 8) s')).1 = x ∧
      Intact s (ret (exec w (.lea .rsp .rsp 8) s')).2 := by
  have last : c + 128 + UInt64.ofNat 8 = c + UInt64.ofNat 136 := by
    rw [UInt64.add_assoc]
    rfl
  have sp : c + UInt64.ofNat 136 + 8 = s.reg .rsp := by
    rw [top,UInt64.add_assoc]
    rfl
  simp only [exec,ret,State.set,closed.registers,closed.memory,Function.update_self,
    Function.update_idem,last,sp,Function.update_eq_self]
  exact ⟨held.words (136,x) (.head _),rfl,closed.flags,closed.others,closed.vectors⟩

theorem exitClosed {t : Cpu} {x : UInt64} (top : s.reg .rsp = c + 144) (held : Held s x back c t) :
    (ret (run w exitCloses t)).1 = t.reg .rax ∧ Intact s (ret (run w exitCloses t)).2 := by
  have replaced := heldLast (w := w) (r := .rax) held
  have pops : restoreFp ++ ([Instr.mov .rsp .r12] ++ (popAll ++ [.lea .rsp .rsp 8])) =
      (restoreFp ++ ([.mov .rsp .r12] ++ popAll)) ++ [.lea .rsp .rsp 8] := by
        simp only [List.append_assoc]
  rw [exitCloses,List.cons_append,List.nil_append,runCons,pops,runAppend,runCons]
  exact closedCaller (w := w) top replaced (heldClosed replaced)

theorem exitThrough (conforms : Conforms w c) (top : s.reg .rsp = c + 144) :
    ∃ t₁ t₂ t₃ s', through w exitStub s =
      some [.call .peekProbeIdC t₁,.call .ztHandleReturn t₂,.call .getRetAddrC t₃,
      .ret ((w.payload .getRetAddrC t₃).reg .rax) s'] ∧ t₁.reg .rsp = fpArea c ∧
      (t₂.reg .rdi = c ∧ t₂.reg .rsi = fpArea c ∧
        Held s ((w.payload .peekProbeIdC t₁).reg .rax) 0 c t₂) ∧ t₃.reg .rsp = fpArea c ∧
        Intact s s' ∧ ExitMemory w c s t₁ t₂ t₃ s' := by
  have held₁ := exitOpened (w := w) top
  have after₁ := heldCall (f := .peekProbeIdC) conforms held₁
  have stored := heldLast (w := w) (r := .rax) after₁
  have hands : run w exitHands (w.payload .peekProbeIdC (run w exitOpens s)) =
      ((exec w (.store .r12 0x88 .rax) (w.payload .peekProbeIdC (run w exitOpens s))).set
        .rdi c).set .rsi (fpArea c) := by
    rw [exitHands,runCons,runCons,runCons,exec,exec,setOther (by decide),stored.context,stored.sp]
    rfl
  have held₂ := heldSet (heldSet stored (r := .rdi) (v := c) (by decide) (by decide))
      (r := .rsi) (v := fpArea c) (by decide) (by decide)
  rw [← hands] at held₂
  have held₃ := heldCall (f := .ztHandleReturn) conforms held₂
  have after₃ := heldCall (f := .getRetAddrC) conforms held₃
  obtain ⟨target,intact⟩ := exitClosed (w := w) top after₃
  refine ⟨_,_,_,_,?_,held₁.sp,⟨?_,?_,held₂⟩,held₃.sp,intact,⟨?_,?_,rfl,?_⟩⟩
  · rw [exitRun,target]
  · rw [hands,setOther (by decide),setSame]
  · rw [hands,setSame]
  · rw [exitOpensMemory top]
    exact openedOwn
  · rw [exitHandsMemory,after₁.context]
    exact lastOwn
  · rw [retMemory,exitClosesMemory,after₃.context]
    exact lastOwn

end Through

def stubPrefix (id disp : UInt64) : List X86Flow.Op := [.pushImm id,.callMem disp,.leaRsp]

theorem trampolineStarts (probeId : Nat) (insns : List X86Trampoline.Insn)
    (entryStubAddr continueAddr : UInt64) :
    ∃ rest, X86Flow.trampoline probeId insns entryStubAddr continueAddr =
      stubPrefix (UInt64.ofNat probeId) (UInt64.ofNat (X86Flow.bodySize insns + 11)) ++ rest :=
  ⟨_,rfl⟩

/- The stub, as what is called; it is back when it has returned to the word on the stack. -/
def entered (w : World) (e : Exit Rest) : Option Cpu :=
  (through w entryStub e.state).bind (returned (e.state.word (e.state.reg .rsp)))

def prologue (a : UInt64) (_ : Nat) (s : Cpu) : Option (List (Exit Rest)) := some [⟨.jump,a,s⟩]

/- The stub's calls see the function's arguments, and the prologue starts with everything as
it was but for the return address. -/
def EntryKeeps (w : World) (s : Cpu) : Prop :=
  ∀ (isa : Isa Rest) (load : UInt64 → UInt64) (a id disp : UInt64), ∃ t₁ t₂ s' u,
  through w entryStub ((s.push id).push (a + 11)) =
    some [.call .ztHandleEntry t₁,.call .saveProbeFrameC t₂,.ret (a + 11) s'] ∧
  walk X86Flow.opSize (X86Flow.opStep isa load) (X86Flow.comesBack (entered w)) prologue a 0
    (stubPrefix id disp) s =
    some [⟨.call,load (a + 11 + disp),(s.push id).push (a + 11)⟩,⟨.jump,a + 16,u⟩] ∧
  ShownEntry t₁.mem (t₁.reg .rdi) (t₁.reg .rsi) ([Reg.rdi,.rsi,.rdx,.rcx,.r8,.r9].map s.reg)
    s.rest.xmm id ∧ t₂.reg .rsi = id ∧
  ((t₁.reg .rsp).toNat % 16 = 0 ∧ (t₂.reg .rsp).toNat % 16 = 0) ∧ Intact s u ∧
    word u.mem (u.reg .rsp) = w.exitStub ∧
  EntryMemory w (contextBelow s) s t₁ t₂ u

/- The stub's calls see what is returned, and the caller goes on where the payload says with
everything as it was. -/
def ExitKeeps (w : World) (s : Cpu) : Prop := ∃ t₁ t₂ t₃ u,
  through w exitStub s = some [.call .peekProbeIdC t₁,.call .ztHandleReturn t₂,
    .call .getRetAddrC t₃,.ret ((w.payload .getRetAddrC t₃).reg .rax) u] ∧
  ShownReturn t₂.mem (t₂.reg .rdi) (t₂.reg .rsi) (s.reg .rax) s.rest.xmm
    ((w.payload .peekProbeIdC t₁).reg .rax) ∧
  ((t₁.reg .rsp).toNat % 16 = 0 ∧ (t₂.reg .rsp).toNat % 16 = 0 ∧ (t₃.reg .rsp).toNat % 16 = 0) ∧
    Intact s u ∧
  ExitMemory w (contextBelow s) s t₁ t₂ t₃ u

section Trampoline
variable {isa : Isa Rest} {load : UInt64 → UInt64} {a id disp : UInt64}

theorem contextTop : s.reg .rsp = contextBelow s + 144 := by
  rw [contextBelow]
  grind

theorem wordIs (a : UInt64) : s.word a = word s.mem a := rfl

theorem pushedWord (v : UInt64) : (s.push v).word ((s.push v).reg .rsp) = v := by
  have memory : (s.push v).mem = setWord s.mem (s.reg .rsp - 8) v := rfl
  rw [wordIs,pushSp,memory,wordSame]

theorem enteredBack {t : Cpu} {target v : UInt64} {t₁ t₂ : Leaves Cpu} {s' : Cpu}
    (stub : through w entryStub (t.push v) = some [t₁,t₂,.ret v s']) :
    X86Flow.comesBack (entered w) ⟨.call,target,t.push v⟩ = some s' := by
  rw [X86Flow.comesBack,if_pos rfl,entered,pushedWord,stub,Option.bind_some,returnedLast]

theorem stubCalled : X86Flow.opStep isa load (a + 5) (.callMem disp) (s.push id) =
    .leave ⟨.call,load (a + 11 + disp),(s.push id).push (a + 11)⟩ := by
  have six : a + 5 + 6 = a + 11 := by grind
  rw [X86Flow.opStep,six]

theorem prefixRun {back : Exit Rest → Option Cpu} {s' : Cpu}
    (here : back ⟨.call,load (a + 11 + disp),(s.push id).push (a + 11)⟩ = some s') :
    walk X86Flow.opSize (X86Flow.opStep isa load) back prologue a 0 (stubPrefix id disp) s =
      some [⟨.call,load (a + 11 + disp),(s.push id).push (a + 11)⟩,
        ⟨.jump,a + 16,s'.set .rsp (s'.reg .rsp + 8)⟩] := by
  obtain ⟨five,eleven,sixteen⟩ := @X86Flow.opPlaces a id disp
  have push : X86Flow.opStep isa load a (.pushImm id) s = .next (0,s.push id) := rfl
  have lea : X86Flow.opStep isa load (a + 11) .leaRsp s' =
      .next (0,s'.set .rsp (s'.reg .rsp + 8)) := rfl
  rw [stubPrefix,walkNext push,five,walkLeave stubCalled,handedBack here,eleven,walkNext lea,
    sixteen,walkNil,prologue,Option.map_some]

theorem heldAligned {x y c : UInt64} {t : Cpu}
    (held : Held s x y c t) : (t.reg .rsp).toNat % 16 = 0 := by
  rw [held.sp]
  exact (fpAreaBelow c).1

theorem entryKeeps (conforms : Conforms w (contextBelow s)) : EntryKeeps w s := by
  intro isa load a id disp
  obtain ⟨t₁,t₂,s',stub,⟨context,area,held₁⟩,⟨frame,held₂⟩,intact,hijacked,memory⟩ :=
    @entryThrough w s _ id (a + 11) conforms contextTop
  refine ⟨t₁,t₂,s',_,stub,prefixRun (enteredBack stub),?_,frame,
    ⟨heldAligned held₁,heldAligned held₂⟩,intact,?_,
    ⟨memory.opened,memory.caller,memory.between,memory.link,memory.replaced⟩⟩
  · rw [context,area]
    exact (heldShown held₁).1
  · rw [intact.registers,contextTop (s := s)]
    exact hijacked

theorem exitKeeps (conforms : Conforms w (contextBelow s)) : ExitKeeps w s := by
  obtain ⟨t₁,t₂,t₃,u,stub,sp₁,⟨context,area,held⟩,sp₃,intact,memory⟩ :=
    exitThrough conforms contextTop
  have aligned := (fpAreaBelow (contextBelow s)).1
  refine ⟨t₁,t₂,t₃,u,stub,?_,⟨?_,heldAligned held,?_⟩,intact,memory⟩
  · rw [context,area]
    exact (heldShown held).2
  · rw [sp₁]
    exact aligned
  · rw [sp₃]
    exact aligned

end Trampoline

end ZeroTrace.X86Stub
