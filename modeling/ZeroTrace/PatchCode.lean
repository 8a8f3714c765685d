import Mathlib.Algebra.Group.Nat.Defs
import ZeroTrace.ByteMemory

/-! The jump that replaces a function's first bytes, and how many bytes it takes.
The x86_64 disassembler is not part of this repository: a list of instruction sizes
is an answer from outside. -/
namespace ZeroTrace.PatchCode
open ByteMemory

inductive Isa where
  | x86_64 | aarch64
  deriving DecidableEq, Repr

def byteAt (v : UInt64) (k : Nat) : UInt8 := UInt8.ofNat (v.toNat / 256^k)

def leBytes (count : Nat) (v : UInt64) : List UInt8 := (List.range count).map (byteAt v)

def probePatchLen : Isa → Nat
  | .x86_64 => 14
  | .aarch64 => 16

-- jmp qword ptr [rip + 0] and the address; ldr x16, #8, br x16 and the address.
def jumpPatch : Isa → UInt64 → List UInt8
  | .x86_64,target => [0xFF,0x25,0,0,0,0] ++ leBytes 8 target
  | .aarch64,target => leBytes 4 0x58000050 ++ leBytes 4 0xD61F0200 ++ leBytes 8 target

@[simp] theorem jumpLength (isa target) : (jumpPatch isa target).length = probePatchLen isa := by
  cases isa <;> simp [jumpPatch,probePatchLen,leBytes]

theorem byteAtSame {v w k} (same : byteAt v k = byteAt w k) :
    v.toNat / 256^k % 256 = w.toNat / 256^k % 256 := by
  have digits := congrArg UInt8.toNat same
  simpa [byteAt] using digits

theorem digitsSame {n m : Nat} (count : Nat)
    (digit : ∀ k, k < count → n / 256^k % 256 = m / 256^k % 256) :
    n % 256^count = m % 256^count := by
  induction count with
  | zero => simp [Nat.mod_one]
  | succ count ih =>
    rw [Nat.mod_pow_succ,Nat.mod_pow_succ,ih fun k low => digit k (Nat.lt_succ_of_lt low),
      digit count (Nat.lt_succ_self _)]

theorem leBytesInj {v w : UInt64} (same : leBytes 8 v = leBytes 8 w) : v = w := by
  have digit : ∀ k, k < 8 → v.toNat / 256^k % 256 = w.toNat / 256^k % 256 := by
    intro k low
    have found := congrArg (fun bytes => bytes[k]?) same
    simp only [leBytes,List.getElem?_map,List.getElem?_range low,Option.map_some,
      Option.some.injEq] at found
    exact byteAtSame found
  have whole := digitsSame 8 digit
  have size : 256^8 = 2^64 := by decide
  rw [size,Nat.mod_eq_of_lt v.toNat_lt,Nat.mod_eq_of_lt w.toNat_lt] at whole
  exact UInt64.toNat_inj.mp whole

theorem jumpInj {isa v w} (same : jumpPatch isa v = jumpPatch isa w) : v = w := by
  cases isa <;> exact leBytesInj (List.append_cancel_left same)

def spanOf (minLen : Nat) : Nat → List Nat → Option Nat
  | _,[] => none
  | total,size::rest =>
      if minLen ≤ total + size then some (total + size) else spanOf minLen (total + size) rest

abbrev Disassembler := List UInt8 → List Nat

def calcPatchSpan (isa : Isa) (disasm : Disassembler) (opened : Bool) (code : List UInt8)
    (minLen : Nat) : Option Nat :=
  if code.length < minLen then none else match isa with
    | .x86_64 => if opened then spanOf minLen 0 (disasm code) else none
    | .aarch64 =>
      let span := (minLen + 3) / 4 * 4
      if code.length < span then none else some span

/- What an instruction is depends on its own bytes only: code that agrees up to the
end of the span decodes to the same span. -/
def Local (disasm : Disassembler) : Prop :=
  ∀ minLen code code' n, spanOf minLen 0 (disasm code) = some n → code.length = code'.length →
    code.take n = code'.take n → spanOf minLen 0 (disasm code') = some n

theorem spanLocal {isa disasm opened code code' minLen n} (lawful : Local disasm)
    (found : calcPatchSpan isa disasm opened code minLen = some n)
    (length : code.length = code'.length)
    (same : code.take n = code'.take n) : calcPatchSpan isa disasm true code' minLen = some n := by
  unfold calcPatchSpan at found ⊢
  rw [← length]
  split at found
  · cases found
  · next long =>
    rw [if_neg long]
    cases isa with
    | aarch64 => exact found
    | x86_64 =>
      cases opened with
      | false => cases found
      | true => exact lawful minLen code code' n found length same

end ZeroTrace.PatchCode
