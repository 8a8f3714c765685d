import Mathlib.Algebra.Group.Nat.Defs
import ZeroTrace.ByteMemory

/-! Texts read from the target, in chunks where they can be read and byte by byte where not. -/
namespace ZeroTrace.RemoteStrings
open Cells

abbrev MemoryMap := UInt64 → Option UInt8

def allBytes (mem : MemoryMap) (addr : UInt64) : Nat → Option (List UInt8)
  | 0 => some []
  | size+1 => match mem addr with
    | none => none
    | some b => (allBytes mem (addr + 1) size).map (b::·)

def readRemoteMemory (mem : MemoryMap) (addr : UInt64) (size : Nat) : Option (List UInt8) :=
  if size = 0 then none else allBytes mem addr size

def isPrint (b : UInt8) : Bool := 0x20 ≤ b && b ≤ 0x7e

def shown (b : UInt8) : Char := if isPrint b then Char.ofNat b.toNat else '.'

theorem shownNat (b : UInt8) : (shown b).toNat = if isPrint b then b.toNat else 46 := by
  unfold shown
  split
  · have small := b.toNat_lt
    have valid : b.toNat.isValidChar := .inl (by omega)
    rw [Char.ofNat,dif_pos valid]
    rfl
  · rfl

theorem printNat {b : UInt8} (print : isPrint b = true) : 0x20 ≤ b.toNat := by
  have low := (Bool.and_eq_true_iff.mp print).1
  exact UInt8.le_iff_toNat_le.mp (of_decide_eq_true low)

theorem shownSolid (b : UInt8) : shown b ≠ '\x00' := by
  intro nul
  have value := shownNat b
  rw [nul] at value
  split at value
  · next print =>
    have low := printNat print
    rw [← value] at low
    cases low
  · cases value

/- Into a buffer that has room for at least the NUL. -/
def snprintf (buffer : Nat → Char) (size : Nat) (text : List Char) : Nat → Char :=
  store buffer 0 (text.take (size - 1) ++ ['\x00'])

/- The bytes that are in the chunk afterwards. -/
def readRemoteChunkOrByte (mem : MemoryMap) (addr : UInt64) (len : Nat) : Option (List UInt8) :=
  if len = 0 then none
  else match readRemoteMemory mem addr len with
    | some bytes => some bytes
    | none => readRemoteMemory mem addr 1

inductive Copied where
  | ended (buffer : Nat → Char)
  | next (i : Nat) (buffer : Nat → Char)

def copyChunk (size : Nat) : List UInt8 → Nat → (Nat → Char) → Copied
  | [],i,buffer => .next i buffer
  | ch::chunk,i,buffer =>
    if i + 1 < size then
      if ch = 0 then .ended (store buffer i ['\x00'])
        else copyChunk size chunk (i + 1) (store buffer i [shown ch])
    else .next i buffer

section Chunks
variable {mem : MemoryMap} {addr : UInt64} {size i : Nat} {chunk : List UInt8} {buffer : Nat → Char}

theorem allLength (found : allBytes mem addr size = some chunk) : chunk.length = size := by
  induction size generalizing addr chunk with
  | zero => cases found; rfl
  | succ size ih =>
    unfold allBytes at found
    split at found
    · cases found
    · obtain ⟨rest,read,rfl⟩ := Option.map_eq_some_iff.mp found
      rw [List.length_cons,ih read]

theorem oneByte : allBytes mem addr 1 = (mem addr).map fun b => [b] := by
  unfold allBytes
  cases mem addr <;> rfl

/- Some bytes from the address on, or the first of them cannot be read. -/
structure Chunk (mem : MemoryMap) (addr : UInt64) (len : Nat) (chunk : List UInt8) : Prop where
  found : allBytes mem addr chunk.length = some chunk
  some_ : 0 < chunk.length
  fits : chunk.length ≤ len

theorem chunkRead {len : Nat} (room : 0 < len) : match readRemoteChunkOrByte mem addr len with
    | some chunk => Chunk mem addr len chunk
    | none => mem addr = none := by
  have more : len ≠ 0 := by omega
  rw [readRemoteChunkOrByte,if_neg more,readRemoteMemory,if_neg more]
  cases whole : allBytes mem addr len with
  | some bytes =>
    have length := allLength whole
    exact ⟨by rw [length,whole],by omega,by omega⟩
  | none =>
    rw [readRemoteMemory,if_neg (by decide),oneByte]
    cases byte : mem addr with
    | none => rfl
    | some b => exact ⟨by rw [List.length_singleton,oneByte,byte]; rfl,Nat.one_pos,room⟩

theorem copyNext {i' : Nat} {buffer' : Nat → Char}
    (next : copyChunk size chunk i buffer = .next i' buffer') (some_ : 0 < chunk.length)
    (room : i + 1 < size) : i < i' := by
  have onward : ∀ chunk i buffer, copyChunk size chunk i buffer = .next i' buffer' → i ≤ i' := by
    intro chunk
    induction chunk with
    | nil => intro i buffer next; cases next; exact Nat.le_refl _
    | cons ch chunk ih =>
      intro i buffer next
      unfold copyChunk at next
      split at next
      · split at next
        · cases next
        · exact Nat.le_of_succ_le (ih _ _ next)
      · cases next
        exact Nat.le_refl _
  cases chunk with
  | nil => cases some_
  | cons ch chunk =>
    rw [copyChunk,if_pos room] at next
    split at next
    · cases next
    · exact onward _ _ _ next

end Chunks

def cstrLoop (mem : MemoryMap) (addr : UInt64) (size i : Nat)
    (buffer : Nat → Char) : (Nat → Char) × Bool :=
  if room : i + 1 < size then
    match _read : readRemoteChunkOrByte mem (addr + UInt64.ofNat i) (min 64 (size - 1 - i)) with
    | none => (buffer,false)
    | some chunk => match _copied : copyChunk size chunk i buffer with
      | .ended buffer => (buffer,true)
      | .next i' buffer => cstrLoop mem addr size i' buffer
  else (store buffer (size - 1) ['\x00'],true)
termination_by size - i
decreasing_by
  have found := @chunkRead mem (addr + UInt64.ofNat i) (min 64 (size - 1 - i)) (by omega)
  rw [_read] at found
  have := copyNext _copied found.some_ room
  omega

def readRemoteCstr (mem : MemoryMap) (addr : UInt64) (buffer : Nat → Char)
    (size : Nat) : (Nat → Char) × Bool :=
  if size = 0 then (buffer,false)
  else if addr = 0 then (snprintf buffer size ['N','U','L','L'],true)
  else cstrLoop mem addr size 0 buffer

section Bytewise
variable {mem : MemoryMap} {addr : UInt64} {size i : Nat} {chunk front rest : List UInt8}
    {buffer : Nat → Char}

def cstrBytes (mem : MemoryMap) (addr : UInt64) : Nat → Option (List UInt8)
  | 0 => some []
  | n+1 => match mem addr with
    | none => none
    | some b => if b = 0 then some [] else (cstrBytes mem (addr + 1) n).map (b::·)

theorem addrNext (addr : UInt64)
    (n : Nat) : addr + 1 + UInt64.ofNat n = addr + UInt64.ofNat (n + 1) := by
  rw [UInt64.ofNat_add,UInt64.add_assoc,UInt64.add_comm (UInt64.ofNat n)]
  rfl

theorem allTail {ch : UInt8} (found : allBytes mem addr (ch::chunk).length = some (ch::chunk)) :
    mem addr = some ch ∧ allBytes mem (addr + 1) chunk.length = some chunk := by
  rw [List.length_cons,allBytes] at found
  split at found
  · cases found
  · next b byte =>
    obtain ⟨tail,read,same⟩ := Option.map_eq_some_iff.mp found
    cases same
    exact ⟨byte,read⟩

theorem bytesWhole (k : Nat) (found : allBytes mem addr chunk.length = some chunk)
    (solid : 0 ∉ chunk) :
    cstrBytes mem addr (chunk.length + k) =
      (cstrBytes mem (addr + UInt64.ofNat chunk.length) k).map (chunk ++ ·) := by
  induction chunk generalizing addr with
  | nil => simp
  | cons ch chunk ih =>
    obtain ⟨byte,tail⟩ := allTail found
    have nonzero : ch ≠ 0 := fun zero => solid (by rw [zero]; exact .head _)
    have length : (ch::chunk).length + k = chunk.length + k + 1 := by rw [List.length_cons]; omega
    rw [length,cstrBytes,byte]
    simp only [if_neg nonzero]
    rw [ih tail fun inside => solid (.tail _ inside),addrNext,List.length_cons,Option.map_map]
    rfl

theorem bytesEnd (k : Nat)
    (found : allBytes mem addr (front ++ 0::rest).length = some (front ++ 0::rest))
    (solid : 0 ∉ front) :
    cstrBytes mem addr ((front ++ 0::rest).length + k) = some front := by
  induction front generalizing addr with
  | nil =>
    have length : ([] ++ 0::rest).length + k = rest.length + k + 1 := by simp; omega
    rw [length,cstrBytes,(allTail found).1]
    rfl
  | cons ch front ih =>
    obtain ⟨byte,tail⟩ := allTail found
    have nonzero : ch ≠ 0 := fun zero => solid (by rw [zero]; exact .head _)
    have length : (ch::front ++ 0::rest).length + k = (front ++ 0::rest).length + k + 1 := by
      rw [List.cons_append,List.length_cons]; omega
    rw [length,cstrBytes,byte]
    simp only [if_neg nonzero]
    rw [ih tail fun inside => solid (.tail _ inside)]
    rfl

theorem copyWhole (room : i + chunk.length < size) (solid : 0 ∉ chunk) :
    copyChunk size chunk i buffer =
      .next (i + chunk.length) (store buffer i (chunk.map shown)) := by
  induction chunk generalizing i buffer with
  | nil => simp [copyChunk]
  | cons ch chunk ih =>
    have nonzero : ch ≠ 0 := fun zero => solid (by rw [zero]; exact .head _)
    rw [List.length_cons] at room
    rw [copyChunk,if_pos (by omega),if_neg nonzero,ih (by omega) fun inside =>
      solid (.tail _ inside),storeCons]
    rw [List.length_cons,List.map_cons,Nat.add_assoc,Nat.add_comm 1]

theorem copyEnd (room : i + (front ++ 0::rest).length < size) (solid : 0 ∉ front) :
    copyChunk size (front ++ 0::rest) i buffer =
      .ended (store buffer i (front.map shown ++ ['\x00'])) := by
  induction front generalizing i buffer with
  | nil =>
    rw [List.nil_append,List.length_cons] at room
    rw [List.nil_append,copyChunk,if_pos (by omega),if_pos rfl]
    rfl
  | cons ch front ih =>
    have nonzero : ch ≠ 0 := fun zero => solid (by rw [zero]; exact .head _)
    rw [List.cons_append,List.length_cons] at room
    rw [List.cons_append,copyChunk,if_pos (by omega),if_neg nonzero,ih (by omega) fun inside =>
      solid (.tail _ inside),storeCons]
    rfl

theorem cstrTurn (room : i + 1 < size) : cstrLoop mem addr size i buffer =
    match readRemoteChunkOrByte mem (addr + UInt64.ofNat i) (min 64 (size - 1 - i)) with
    | none => (buffer,false)
    | some chunk => match copyChunk size chunk i buffer with
      | .ended buffer => (buffer,true)
      | .next i' buffer => cstrLoop mem addr size i' buffer := by
  rw [cstrLoop,dif_pos room]
  split
  · next read => rw [read]
  · next read =>
    simp only [read]
    split
    · next copied => rw [copied]
    · next copied => rw [copied]

/- The text, or nothing but characters of it before its room is used up. -/
def Reads (mem : MemoryMap) (addr : UInt64) (size i : Nat) (buffer : Nat → Char)
    (result : (Nat → Char) × Bool) : Prop :=
  match cstrBytes mem (addr + UInt64.ofNat i) (size - 1 - i) with
  | some text => result = (store buffer i (text.map shown ++ ['\x00']),true)
  | none => ∃ text : List Char, i + text.length < size ∧ result = (store buffer i text,false)

theorem readsOn {result : (Nat → Char) × Bool}
    (found : allBytes mem (addr + UInt64.ofNat i) chunk.length = some chunk) (solid : 0 ∉ chunk)
    (room : i + chunk.length < size)
    (rest : Reads mem addr size (i + chunk.length) (store buffer i (chunk.map shown)) result) :
    Reads mem addr size i buffer result := by
  have behind : addr + UInt64.ofNat (i + chunk.length) =
      addr + UInt64.ofNat i + UInt64.ofNat chunk.length := by
    rw [UInt64.ofNat_add,UInt64.add_assoc]
  have left : size - 1 - i = chunk.length + (size - 1 - (i + chunk.length)) := by omega
  have place : i + chunk.length = i + (chunk.map shown).length := by rw [List.length_map]
  rw [Reads,behind] at rest
  rw [Reads,left,bytesWhole _ found solid]
  cases tail : cstrBytes mem (addr + UInt64.ofNat i + UInt64.ofNat chunk.length)
    (size - 1 - (i + chunk.length)) with
  | some text =>
    rw [tail] at rest
    simp only [Option.map_some,List.map_append,List.append_assoc]
    rw [rest,place,storeAppend]
  | none =>
    rw [tail] at rest
    obtain ⟨text,fits,same⟩ := rest
    refine ⟨chunk.map shown ++ text,by rw [List.length_append,List.length_map]; omega,?_⟩
    rw [same,place,storeAppend]

theorem cstrLoopReads (within : i < size) :
    Reads mem addr size i buffer (cstrLoop mem addr size i buffer) := by
  induction left : size - i using Nat.strongRecOn generalizing i buffer with
  | ind left_ ih =>
    by_cases room : i + 1 < size
    · rw [cstrTurn room]
      have read := @chunkRead mem (addr + UInt64.ofNat i) (min 64 (size - 1 - i)) (by omega)
      cases chunkIs : readRemoteChunkOrByte mem (addr + UInt64.ofNat i) (min 64 (size - 1 - i)) with
      | none =>
        rw [chunkIs] at read
        have more : size - 1 - i = (size - 1 - i - 1) + 1 := by omega
        rw [Reads,more,cstrBytes,read]
        exact ⟨[],within,by rw [storeNil]⟩
      | some chunk =>
        rw [chunkIs] at read
        obtain ⟨found,some_,fits⟩ := read
        by_cases zero : 0 ∈ chunk
        · obtain ⟨front,rest,rfl,solid⟩ := List.eq_append_cons_of_mem zero
          have left : size - 1 - i = (front ++ 0::rest).length +
              (size - 1 - i - (front ++ 0::rest).length) := by omega
          rw [Reads,left,bytesEnd _ found solid]
          simp only
          rw [copyEnd (by omega) solid]
        · simp only
          rw [copyWhole (by omega) zero]
          exact readsOn found zero (by omega) (ih _ (by omega) (by omega) rfl)
    · have last : size - 1 = i := by omega
      rw [cstrLoop,dif_neg room,Reads,last,Nat.sub_self]
      rfl

/- These are the bytes up to the first NUL, or the first n of them if there is none, and all of
them can be read. -/
structure Reaches (mem : MemoryMap) (addr : UInt64) (n : Nat) (text : List UInt8) : Prop where
  bytes : ∀ k (low : k < text.length), mem (addr + UInt64.ofNat k) = some text[k]
  solid : 0 ∉ text
  fits : text.length ≤ n
  ends : text.length = n ∨ mem (addr + UInt64.ofNat text.length) = some 0

variable {n : Nat} {text : List UInt8}

theorem atStart (addr : UInt64) : addr + UInt64.ofNat 0 = addr := UInt64.add_zero addr

theorem reachesNil : Reaches mem addr (n + 1) [] ↔ mem addr = some 0 := by
  constructor
  · intro reaches
    rcases reaches.ends with none | last
    · cases none
    · rwa [List.length_nil,atStart] at last
  · intro last
    exact ⟨fun k low => absurd low (Nat.not_lt_zero k),by simp,Nat.zero_le _,
      .inr (by rwa [List.length_nil,atStart])⟩

theorem reachesCons {b : UInt8} : Reaches mem addr (n + 1) (b::text) ↔ mem addr = some b ∧ b ≠ 0 ∧
    Reaches mem (addr + 1) n text := by
  constructor
  · intro reaches
    have first := reaches.bytes 0 (Nat.zero_lt_succ _)
    rw [atStart] at first
    refine ⟨first,fun zero => reaches.solid (by rw [zero]; exact .head _),fun k low => ?_,
      fun zero => reaches.solid (.tail _ zero),
      Nat.le_of_succ_le_succ reaches.fits,?_⟩
    · rw [addrNext]
      exact reaches.bytes (k + 1) (Nat.succ_lt_succ low)
    · rw [addrNext]
      exact reaches.ends.imp_left Nat.succ.inj
  · rintro ⟨here,nonzero,reaches⟩
    refine ⟨fun k low => ?_,?_,Nat.succ_le_succ reaches.fits,?_⟩
    · cases k with
      | zero => rwa [atStart]
      | succ k =>
        rw [← addrNext]
        exact reaches.bytes k (Nat.lt_of_succ_lt_succ low)
    · intro zero
      rcases List.mem_cons.mp zero with first | later
      · exact nonzero first.symm
      · exact reaches.solid later
    · have ends := reaches.ends
      rw [addrNext] at ends
      exact ends.imp_left (congrArg Nat.succ)

theorem bytesNil : cstrBytes mem addr (n + 1) = some [] ↔ mem addr = some 0 := by
  rw [cstrBytes]
  cases mem addr with
  | none => simp
  | some b => by_cases zero : b = 0 <;> simp [zero]

theorem bytesCons {b : UInt8} : cstrBytes mem addr (n + 1) = some (b::text) ↔ mem addr = some b ∧
    b ≠ 0 ∧ cstrBytes mem (addr + 1) n = some text := by
  rw [cstrBytes]
  cases mem addr with
  | none => simp
  | some c =>
    by_cases zero : c = 0
    · simp only [if_pos zero,Option.some.injEq]
      exact iff_of_false (by simp) fun ⟨same,nonzero,_⟩ => nonzero (same.symm.trans zero)
    · simp only [if_neg zero,Option.map_eq_some_iff,Option.some.injEq,List.cons.injEq]
      constructor
      · rintro ⟨rest,read,same,rfl⟩
        exact ⟨same,same ▸ zero,read⟩
      · rintro ⟨same,_,read⟩
        exact ⟨text,read,same,rfl⟩

theorem bytesReach : cstrBytes mem addr n = some text ↔ Reaches mem addr n text := by
  induction n generalizing addr text with
  | zero =>
    constructor
    · intro found
      cases found
      exact ⟨fun k low => absurd low (Nat.not_lt_zero k),by simp,Nat.le_refl 0,.inl rfl⟩
    · intro reaches
      rw [List.length_eq_zero_iff.mp (Nat.le_zero.mp reaches.fits)]
      rfl
  | succ n ih =>
    cases text with
    | nil => rw [bytesNil,reachesNil]
    | cons b text => rw [bytesCons,reachesCons,ih]

structure Shown (text : List UInt8) (buffer buffer' : Nat → Char) : Prop where
  bytes : ∀ k (low : k < text.length), buffer' k = shown text[k]
  nul : buffer' text.length = '\x00'
  rest : ∀ k, text.length < k → buffer' k = buffer k

theorem shownStore (text : List UInt8) (buffer : Nat → Char) :
    Shown text buffer (store buffer 0 (text.map shown ++ ['\x00'])) where
  bytes k low := by
    have there : k < (text.map shown ++ ['\x00']).length := by simp; omega
    have found := storeAt (b := buffer) (i := 0) there
    rw [Nat.zero_add] at found
    rw [found,List.getElem_append_left (by simpa using low),List.getElem_map]
  nul := by
    have there : text.length < (text.map shown ++ ['\x00']).length := by simp
    have found := storeAt (b := buffer) (i := 0) there
    rw [Nat.zero_add] at found
    rw [found,List.getElem_append_right (by simp)]
    simp
  rest k behind := storeBehind (by simp; omega)

theorem cstrReads (nonzero : addr ≠ 0) (room : 0 < size) :
    Reads mem addr size 0 buffer (readRemoteCstr mem addr buffer size) := by
  rw [readRemoteCstr,if_neg (by omega),if_neg nonzero]
  exact cstrLoopReads room

theorem cstrText (nonzero : addr ≠ 0) (room : 0 < size)
    (reaches : Reaches mem addr (size - 1) text) :
    readRemoteCstr mem addr buffer size = (store buffer 0 (text.map shown ++ ['\x00']),true) := by
  have reads := @cstrReads mem addr size buffer nonzero room
  rwa [Reads,atStart,Nat.sub_zero,bytesReach.mpr reaches] at reads

theorem readsWithin {result : (Nat → Char) × Bool} (reads : Reads mem addr size 0 buffer result)
    (room : 0 < size) :
    ∀ k, size ≤ k → result.1 k = buffer k := by
  intro k behind
  rw [Reads,Nat.sub_zero] at reads
  cases found : cstrBytes mem (addr + UInt64.ofNat 0) (size - 1) with
  | some text =>
    rw [found] at reads
    have fits := (bytesReach.mp found).fits
    have past : 0 + (text.map shown ++ ['\x00']).length ≤ k := by simp; omega
    rw [reads]
    exact storeBehind past
  | none =>
    rw [found] at reads
    obtain ⟨begun,fits,same⟩ := reads
    have past : 0 + begun.length ≤ k := by omega
    rw [same]
    exact storeBehind past

theorem chunkedAsBytewise (mem : MemoryMap) {addr : UInt64} (nonzero : addr ≠ 0)
    (buffer : Nat → Char) {size : Nat} (room : 0 < size) :
    ((readRemoteCstr mem addr buffer size).2 = true ↔ ∃ text, Reaches mem addr (size - 1) text) ∧
    (∀ text, Reaches mem addr (size - 1) text →
      Shown text buffer (readRemoteCstr mem addr buffer size).1) ∧
    ∀ k, size ≤ k → (readRemoteCstr mem addr buffer size).1 k = buffer k := by
  have reads := @cstrReads mem addr size buffer nonzero room
  refine ⟨?_,?_,readsWithin reads room⟩
  · rw [Reads,atStart,Nat.sub_zero] at reads
    cases found : cstrBytes mem addr (size - 1) with
    | some text =>
      rw [found] at reads
      rw [reads]
      exact iff_of_true rfl ⟨text,bytesReach.mp found⟩
    | none =>
      rw [found] at reads
      obtain ⟨begun,fits,same⟩ := reads
      rw [same]
      refine iff_of_false (by simp) fun ⟨text,reaches⟩ => ?_
      rw [bytesReach.mpr reaches] at found
      cases found
  · intro text reaches
    rw [cstrText nonzero room reaches]
    exact shownStore text buffer

end Bytewise

/- A text of three bytes right in front of a page that cannot be read. -/
def lastBytes : MemoryMap := fun a => if a = 0xffc then some 0x68 else if a = 0xffd then
    some 0x07 else if a = 0xffe then some 0x69 else if a = 0xfff then some 0 else none

theorem chunkedLastBytes :
    ((readRemoteCstr lastBytes 0xffc (fun _ => 'x') 64).2 = true ↔
    ∃ text, Reaches lastBytes 0xffc (64 - 1) text) ∧
    (∀ text, Reaches lastBytes 0xffc (64 - 1) text →
      Shown text (fun _ => 'x') (readRemoteCstr lastBytes 0xffc (fun _ => 'x') 64).1) ∧
    ∀ k, 64 ≤ k → (readRemoteCstr lastBytes 0xffc (fun _ => 'x') 64).1 k = 'x' :=
  chunkedAsBytewise lastBytes (by decide) (fun _ => 'x') (by decide)

end ZeroTrace.RemoteStrings
