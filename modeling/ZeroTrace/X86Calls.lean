import ZeroTrace.ProbedRuns
import ZeroTrace.X86Stub

/-! Probed calls on x86_64, from the call to the return. The function itself, the functions
that it calls and the other threads' doings are whatever they are, as long as they leave the
payload's memory alone. -/
namespace ZeroTrace.X86Calls
open WordMemory StubContext ShadowStack ProbedRuns X86Replay X86Stub

def abi : Abi Cpu := ⟨fun s => s.mem,fun s => s.reg .rdi,fun s => s.reg .rsi,fun s => s.reg .rax⟩

/- The stack that the stubs use when the context is at `c`, up to the return address, is not
the payload's memory. -/
def Room (P : UInt64 → Prop) (c : UInt64) : Prop := ∀ a, Inside (c - 159) 311 a → ¬ P a

def Called (P : UInt64 → Prop) (t : Cpu) : Prop := ∃ c, Room P c ∧ t.reg .rsp = fpArea c

/- The payload's functions keep to the calling convention, leave the return address alone,
and do their part with the thread-local variables. -/
structure Lawful (w : World) (tls : Mem → Tls) (P : UInt64 → Prop) : Prop where
  conforms : ∀ c, Room P c → Conforms w c
  slot : ∀ c f t, Room P c → t.reg .rsp = fpArea c → ∀ a, Inside (c + 144) 8 a →
    (w.payload f t).mem a = t.mem a
  reads : ∀ m m', (∀ a, P a → m' a = m a) → tls m' = tls m
  implements : Implements abi w.payload tls (Called P)

/- A probed function is entered through the trampoline at `a`: what the handler is called
with, and the state in which the prologue starts. -/
def enter (w : World) (a id : UInt64) (s : Cpu) : Option (Cpu × Cpu) :=
  match through w entryStub ((s.push id).push (a + 11)) with
  | some [.call .ztHandleEntry t,.call .saveProbeFrameC _,.ret back s'] =>
      if back = a + 11 then some (t,s'.set .rsp (s'.reg .rsp + 8)) else none
  | _ => none

/- It has returned into exit_stub: what the handler is called with, and where it goes on. -/
def leave (w : World) (s : Cpu) : Option (Cpu × UInt64 × Cpu) := match through w exitStub s with
  | some [.call .peekProbeIdC _,.call .ztHandleReturn t,.call .getRetAddrC _,.ret target s'] =>
      some (t,target,s')
  | _ => none

def stubs (w : World) (P : UInt64 → Prop) : Stubs Cpu where
  abi := abi
  room s := Room P (contextBelow s)
  retAddr s := word s.mem (s.reg .rsp)
  enter s t u := ∃ a id, enter w a id s = some (t,u)
  leave s t target s' := leave w s = some (t,target,s')

variable {w : World} {tls : Mem → Tls} {P : UInt64 → Prop} {s t u : Cpu} {c a id back : UInt64}

theorem inRoom {k n : Nat} {x : UInt64} (fits : k + n ≤ 152)
    (inside : Inside (c + UInt64.ofNat k) n x) : Inside (c - 159) 311 x := by
  have place : c + UInt64.ofNat k = (c - 159) + UInt64.ofNat (159 + k) := by
    rw [UInt64.ofNat_add]
    grind
  have split : x = c + UInt64.ofNat k + UInt64.ofNat (x - (c + UInt64.ofNat k)).toNat := by
    rw [UInt64.ofNat_toNat]
    grind
  have distance : (c + UInt64.ofNat k - (c - 159)).toNat = 159 + k := by
    rw [place]
    exact offsetDistance _ (by omega)
  unfold Inside at inside ⊢
  rw [split,insideOffset distance (by omega)]
  omega

theorem vectorsInRoom {x : UInt64} (inside : Inside (fpArea c) 128 x) : Inside (c - 159) 311 x := by
  obtain ⟨_,above,near⟩ := fpAreaBelow c
  have split : x = fpArea c + UInt64.ofNat (x - fpArea c).toNat := by
    rw [UInt64.ofNat_toNat]
    grind
  have distance : (fpArea c - (c - 159)).toNat = 159 - (c - fpArea c).toNat := by
    have shift : fpArea c - (c - 159) = 159 - (c - fpArea c) := by grind
    rw [shift,UInt64.toNat_sub]
    have number : (159 : UInt64).toNat = 159 := rfl
    rw [number]
    omega
  unfold Inside at inside ⊢
  rw [split,insideOffset distance (by omega)]
  omega

theorem ownAside (room : Room P c) (v : UInt64) (payload : P v) : ¬ Own c v := by
  rintro (context | vectors)
  · exact room v (inRoom (k := 0) (n := ctxSize) (by decide)
      (by rwa [show c + UInt64.ofNat 0 = c from UInt64.add_zero c])) payload
  · exact room v (vectorsInRoom vectors) payload

theorem slotAside (room : Room P c) (v : UInt64) (payload : P v) :
    ¬ Inside (c + UInt64.ofNat 144) 8 v :=
  fun inside => room v (inRoom (by decide) inside) payload

structure Entered (w : World) (tls : Mem → Tls) (s : Cpu) (id : UInt64) (t u : Cpu) : Prop where
  shown : ShownEntry t.mem (t.reg .rdi) (t.reg .rsi) ([Reg.rdi,.rsi,.rdx,.rcx,.r8,.r9].map s.reg)
    s.rest.xmm id
  intact : Intact s u
  hijacked : word u.mem (u.reg .rsp) = w.exitStub
  pushed : (tls s.mem).callStackIdx < maxSavedRetAddr →
    Pushed (tls s.mem) (tls u.mem) ⟨id,word s.mem (s.reg .rsp)⟩

theorem entered (law : Lawful w tls P) (room : Room P (contextBelow s)) :
    ∃ t u, enter w a id s = some (t,u) ∧ Entered w tls s id t u := by
  have top := @contextTop s
  generalize contextBelow s = c at room top
  obtain ⟨t₁,t₂,s',stub,⟨context,area,held₁⟩,⟨frame,held₂⟩,intact,hijacked,memory⟩ :=
    @entryThrough w s c id (a + 11) (law.conforms c room) top
  have shown := (heldShown held₁).1
  rw [← area] at shown
  nth_rewrite 1 [← context] at shown
  have link : t₂.reg .rdi = word s.mem (s.reg .rsp) := callerSaved memory (by
    rw [top]
    exact law.slot c .ztHandleEntry t₁ room held₁.sp)
  have opens : ∀ v, P v → t₁.mem v = s.mem v :=
    fun v payload => memory.opened v (ownAside room v payload)
  have closes : ∀ v, P v → (s'.set .rsp (s'.reg .rsp + 8)).mem v =
      (w.payload .saveProbeFrameC t₂).mem v := fun v payload =>
    memory.replaced v (by rw [top]; exact slotAside room v payload)
  refine ⟨t₁,_,?_,shown,intact,?_,fun free => ?_⟩
  · rw [enter,stub]
    exact if_pos rfl
  · rw [intact.registers,top]
    exact hijacked
  · have pushed : Pushed (tls s.mem) _ ⟨t₂.reg .rsi,t₂.reg .rdi⟩ :=
      entryPushes law.implements free ⟨c,room,held₁.sp⟩ ⟨c,room,held₂.sp⟩
      (law.reads _ _ opens) (congrArg tls memory.between) (law.reads _ _ closes)
    rwa [frame,link] at pushed

structure Left (tls : Mem → Tls) (s t : Cpu) (target : UInt64) (s' : Cpu) : Prop where
  shown : ShownReturn t.mem (t.reg .rdi) (t.reg .rsi) (s.reg .rax) s.rest.xmm
    (Field.read t.mem (t.reg .rdi) .funcId)
  intact : Intact s s'
  popped : 0 < (tls s.mem).callStackIdx →
    Popped (tls s.mem) (tls s'.mem) ⟨Field.read t.mem (t.reg .rdi) .funcId,target⟩

theorem left (law : Lawful w tls P) (room : Room P (contextBelow s)) :
    ∃ t target s', leave w s = some (t,target,s') ∧ Left tls s t target s' := by
  have top := @contextTop s
  generalize contextBelow s = c at room top
  obtain ⟨t₁,t₂,t₃,s',stub,sp₁,⟨context,area,held₂⟩,sp₃,intact,memory⟩ :=
    @exitThrough w s c (law.conforms c room) top
  have shown := (heldShown held₂).2
  rw [← area] at shown
  nth_rewrite 1 [← context] at shown
  have opens : ∀ v, P v → t₁.mem v = s.mem v :=
    fun v payload => memory.opened v (ownAside room v payload)
  have between : ∀ v, P v → t₂.mem v = (w.payload .peekProbeIdC t₁).mem v :=
    fun v payload => memory.handed v (ownAside room v payload)
  have closes : ∀ v, P v → s'.mem v = (w.payload .getRetAddrC t₃).mem v :=
    fun v payload => memory.closed v (ownAside room v payload)
  refine ⟨t₂,(w.payload .getRetAddrC t₃).reg .rax,s',?_,?_,intact,fun some_ => ?_⟩
  · rw [leave,stub]
  · rw [shown.funcId]
    exact shown
  · rw [shown.funcId]
    exact exitPops law.implements some_ ⟨c,room,sp₁⟩ ⟨c,room,held₂.sp⟩ ⟨c,room,sp₃⟩
      (law.reads _ _ opens) (law.reads _ _ between) memory.between
      (law.reads _ _ closes)

theorem keep (law : Lawful w tls P) : (stubs w P).Keep tls P where
  reads := law.reads
  enters s t u room ran free := by
    obtain ⟨a,id,ran⟩ := ran
    obtain ⟨t',u',again,entered⟩ := @entered w tls P s a id law room
    obtain ⟨rfl,rfl⟩ := Prod.mk.inj (Option.some.inj (again.symm.trans ran))
    have pushed := entered.pushed free
    rwa [← entered.shown.funcId] at pushed
  leaves s t target s' room ran some_ := by
    obtain ⟨t₀,target₀,s₀,again,left⟩ := @left w tls P s law room
    obtain ⟨rfl,both⟩ := Prod.mk.inj (Option.some.inj (again.symm.trans ran))
    obtain ⟨rfl,rfl⟩ := Prod.mk.inj both
    exact left.popped some_

section Built
open CodeListing X86Trampoline X86Flow
variable {decode : Decoder} {p : ProbeTable.Probe} {entryStubAddr : UInt64} {room : Nat}
    {out : CodeBuffer.Bytes}

def trampolineRuns (w : World) (isa : Isa Rest) (decode : Decoder) (p : ProbeTable.Probe)
    (entryStubAddr a : UInt64) (out : CodeBuffer.Bytes) (s : Cpu) :
    Option (List (Exit Rest)) :=
  walk opSize (opStep isa (wordAt a out)) (comesBack (X86Stub.entered w)) nowhere a 0
    (trampoline p.probeId (insnsOf decode p) entryStubAddr
      (UInt64.ofNat (p.target.remoteAddr + p.origLen))) s

def functionRuns (w : World) (isa : Isa Rest) (decode : Decoder) (p : ProbeTable.Probe) (a : UInt64)
    (u : Cpu) : Option (List (Exit Rest)) :=
  replay emittedSize expand (moved isa) (comesBack (X86Stub.entered w)) resume
    (fun _ s => some [⟨.jump,UInt64.ofNat (p.target.remoteAddr + p.origLen),s⟩]) (a + 16)
      (insnsOf decode p) u

theorem builtEnters (lawful : decode.Lawful)
    (ok : buildTrampoline decode p entryStubAddr a room = some out)
    (ran : enter w a (UInt64.ofNat p.probeId) s = some (t,u)) (isa : Isa Rest) :
    trampolineRuns w isa decode p entryStubAddr a out s =
      (functionRuns w isa decode p a u).map
        (⟨.call,entryStubAddr,(s.push (UInt64.ofNat p.probeId)).push (a + 11)⟩::·) := by
  obtain ⟨entry,last⟩ := slotWords lawful ok
  unfold enter at ran
  split at ran
  · next t' t₂ back s' stub =>
    by_cases here : back = a + 11
    · rw [if_pos here] at ran
      obtain ⟨_,rfl⟩ := Prod.mk.inj (Option.some.inj ran)
      rw [here] at stub
      rw [trampolineRuns,trampolineRun entry last,handedBack (enteredBack stub)]
      rfl
    · rw [if_neg here] at ran
      cases ran
  · cases ran

end Built

/- A payload that does nothing but keep its variables, at 0x10000. -/
def keeping : World where
  exitStub := 0x7100
  arithmetic _ := ⟨true,true,true,true,true,true,true⟩
  payload
    | .saveProbeFrameC,t => { t with mem := saveCells 0x10000 t.mem (t.reg .rdi) (t.reg .rsi) }
    | .peekProbeIdC,t => t.set .rax (UInt64.ofNat (peekProbeId (tlsAt 0x10000 t.mem)))
    | .getRetAddrC,t =>
        { t with mem := popCells 0x10000 t.mem }.set .rax
          (UInt64.ofNat (getRetAddr (tlsAt 0x10000 t.mem)).2)
    | _,t => t

theorem keepingOutside {f : Callee} {v : UInt64} (outside : ¬ Inside 0x10000 cellsSize v) :
    (keeping.payload f t).mem v = t.mem v := by
  cases f with
  | saveProbeFrameC => exact saveOutside outside
  | getRetAddrC => exact popOutside outside
  | _ => rfl

theorem keepingRegister {f : Callee} {r : Reg} (other : r ≠ .rax) :
    (keeping.payload f t).reg r = t.reg r := by
  cases f with
  | peekProbeIdC | getRetAddrC => exact setOther other
  | _ => rfl

theorem keepingLawful : Lawful keeping (tlsAt 0x10000) (Inside 0x10000 cellsSize) where
  conforms c room := by
    refine ⟨fun f t _ r saved => keepingRegister fun is => absurd (is ▸ saved) (by decide),
      fun f t _ v inside => keepingOutside fun payload => ?_⟩
    rcases inside with context | vectors
    · exact room v (inRoom (k := 0) (n := ctxSize) (by decide)
        (by rwa [show c + UInt64.ofNat 0 = c from UInt64.add_zero c])) payload
    · exact room v (vectorsInRoom vectors) payload
  slot c f t room _ v inside :=
    keepingOutside fun payload => room v (inRoom (k := 144) (by decide) inside) payload
  reads _ _ same := tlsReads same
  implements := by
    refine ⟨fun f t _ handler => ?_,fun t _ => cellsSaved,fun t _ => ⟨rfl,?_⟩,
      fun t _ => ⟨cellsPopped,?_⟩⟩
    · rcases handler with rfl | rfl <;> exact ⟨rfl,fun _ _ => rfl⟩
    · exact setSame t .rax _
    · exact setSame { t with mem := popCells 0x10000 t.mem } .rax _

def calling (retAddr : UInt64) : Cpu :=
  ⟨fun r => if r = .rsp then 0x7FFF1000 else 0x33,⟨true,false,true,false,true,false,true⟩,
    setWord (fun _ => 0) 0x7FFF1000 retAddr,
    ⟨fun _ => ⟨0x44,0x55⟩,⟨false,false,false,false⟩⟩⟩

theorem roomAt {c : UInt64} (low : 0x7FFF0000 ≤ c.toNat) (high : c.toNat < 0x7FFF2000) :
    Room (Inside 0x10000 cellsSize) c := by
  intro v inside payload
  have size : cellsSize = 6160 := rfl
  have first := UInt64.toNat_sub v (c - 159)
  have second := UInt64.toNat_sub c 159
  have third := UInt64.toNat_sub v 0x10000
  have number : (159 : UInt64).toNat = 159 := rfl
  have address : (0x10000 : UInt64).toNat = 0x10000 := rfl
  have bound := v.toNat_lt
  unfold Inside at inside payload
  rw [number] at second
  rw [address] at third
  omega

end ZeroTrace.X86Calls
