import ZeroTrace.CodeBuffer
import ZeroTrace.WordMemory

/-! Bytes of the target read and written, in one system call or word by word where that gives
up. Nobody else changes the target's memory meanwhile. -/
namespace ZeroTrace.RemoteMemory
open ByteMemory (Memory read write writeNil writeAppend writeAgain readWrite)
open PatchCode (leBytes byteAt)
open CodeBuffer (leValue)
open WordMemory

def ssize (size : Nat) : Int := (UInt64.ofNat size).toInt64.toInt

def bytesAt (m : Mem) (a : UInt64) (count : Nat) : List UInt8 :=
  (List.range count).map fun k => m (a + UInt64.ofNat k)

def setBytes (m : Mem) (a : UInt64) (bytes : List UInt8) : Mem :=
  fun x => (bytes[(x - a).toNat]?).getD (m x)

/- What process_vm_readv or process_vm_writev comes to: it may move some of the bytes and then
give up, and has moved all of them when it returns their number. -/
structure Transfer (size : Nat) where
  moved : Nat
  ret : Int
  within : moved ≤ size
  whole : ret = (size : Int) → moved = size

structure Reads (size : Nat) where
  readv : Transfer size
  peeks : Nat → Bool

structure Writes (size : Nat) where
  writev : Transfer size
  tail : Reads 8
  pokes : Nat → Bool

def peekData (m : Mem) (a : UInt64) (ok : Bool) : UInt64 × Nat :=
  if ok then (word m a,0) else (-1,5)

def peekLoop (m : Mem) (addr : UInt64) (size : Nat) (peeks : Nat → Bool) (copied : Nat)
    (buffer : Memory) : Memory × Bool :=
  if copied < size then
    let peeked := peekData m (addr + UInt64.ofNat copied) (peeks copied)
    if peeked.1 = -1 ∧ peeked.2 ≠ 0 then (buffer,false)
    else
      let chunk := min (size - copied) 8
      peekLoop m addr size peeks (copied + chunk)
        (write buffer copied ((leBytes 8 peeked.1).take chunk))
  else (buffer,true)
termination_by size - copied

def readRemoteMemory (m : Mem) (addr : UInt64) (size : Nat) (k : Reads size)
    (buffer : Memory) : Memory × Bool :=
  if size = 0 then (buffer,false)
  else
    let buffer := write buffer 0 (bytesAt m addr k.readv.moved)
    if k.readv.ret = ssize size then (buffer,true) else peekLoop m addr size k.peeks 0 buffer

def wordIn (temp : Memory) : UInt64 := UInt64.ofNat (leValue (read temp 0 8))

/- Before a short chunk the word that is there is fetched. -/
def tempBefore (m : Mem) (a : UInt64) (chunk : Nat) (tail : Reads 8)
    (temp : Memory) : Memory × Bool :=
  if chunk ≠ 8 then readRemoteMemory m a 8 tail temp else (temp,true)

def pokeLoop (addr : UInt64) (src : List UInt8) (k : Writes src.length) (copied : Nat)
    (temp : Memory) (m : Mem) : Mem × Bool :=
  if copied < src.length then
    let chunk := min (src.length - copied) 8
    let a := addr + UInt64.ofNat copied
    let ready := tempBefore m a chunk k.tail temp
    if ready.2 = false then (m,false)
    else
      let temp := write ready.1 0 ((src.drop copied).take chunk)
      if k.pokes copied then pokeLoop addr src k (copied + chunk) temp (setWord m a (wordIn temp))
        else (m,false)
  else (m,true)
termination_by src.length - copied

def writeRemoteMemory (m : Mem) (addr : UInt64) (src : List UInt8) (k : Writes src.length)
    (temp : Memory) : Mem × Bool :=
  if src.length = 0 then (m,false)
  else
    let m := setBytes m addr (src.take k.writev.moved)
    if k.writev.ret = ssize src.length then (m,true) else pokeLoop addr src k 0 temp m

/-! Bytes of a memory whose addresses wrap around. -/
section Bytes
variable {m : Mem} {a x : UInt64} {xs ys : List UInt8}

@[simp] theorem bytesAtLength (m : Mem) (a : UInt64) (count : Nat) :
    (bytesAt m a count).length = count := by simp [bytesAt]

theorem bytesAtGet {count k : Nat} (low : k < count) :
    (bytesAt m a count)[k]? = some (m (a + UInt64.ofNat k)) := by
  simp [bytesAt,low]

theorem bytesAtDrop (m : Mem) (a : UInt64) (k n : Nat) :
    (bytesAt m a (k + n)).drop k = bytesAt m (a + UInt64.ofNat k) n := by
  apply List.ext_getElem? fun i => ?_
  rw [List.getElem?_drop]
  by_cases low : i < n
  · rw [bytesAtGet low,bytesAtGet (Nat.add_lt_add_left low k),UInt64.ofNat_add,UInt64.add_assoc]
  · rw [List.getElem?_eq_none (by simpa using low),List.getElem?_eq_none (by simpa using low)]

theorem bytesAtTake (m : Mem) (a : UInt64) {k n : Nat} (less : k ≤ n) :
    (bytesAt m a n).take k = bytesAt m a k := by
  simp [bytesAt,← List.map_take,List.take_range,Nat.min_eq_left less]

theorem bytesAtSplit (m : Mem) (a : UInt64) (k n : Nat) :
    bytesAt m a (k + n) = bytesAt m a k ++ bytesAt m (a + UInt64.ofNat k) n := by
  rw [← bytesAtDrop,← bytesAtTake m a (Nat.le_add_right k n),List.take_append_drop]

theorem setBytesNil : setBytes m a [] = m := rfl

theorem setBytesInside (inside : Inside a xs.length x) :
    some (setBytes m a xs x) = xs[(x - a).toNat]? := by
  simp [setBytes,List.getElem?_eq_getElem (show (x - a).toNat < xs.length from inside)]

theorem setBytesOutside (outside : ¬ Inside a xs.length x) : setBytes m a xs x = m x := by
  simp [setBytes,List.getElem?_eq_none (Nat.not_lt.mp outside)]

theorem distanceFrom {k : Nat} (small : k < 2^64) (far : k ≤ (x - a).toNat) :
    (x - (a + UInt64.ofNat k)).toNat = (x - a).toNat - k := by
  have split : x - (a + UInt64.ofNat k) = (x - a) - UInt64.ofNat k := by grind
  have whole : UInt64.ofNat k ≤ x - a := by rwa [UInt64.le_iff_toNat_le,offsetNat small]
  rw [split,UInt64.toNat_sub_of_le _ _ whole,offsetNat small]

theorem distanceAround {k : Nat} (small : k < 2^64) (near : (x - a).toNat < k) :
    (x - (a + UInt64.ofNat k)).toNat = 2^64 + (x - a).toNat - k := by
  have split : x - (a + UInt64.ofNat k) = (x - a) - UInt64.ofNat k := by grind
  have bound := (x - a).toNat_lt
  rw [split,UInt64.toNat_sub,offsetNat small]
  omega

theorem setBytesAppend (small : (xs ++ ys).length < 2^64) :
    setBytes (setBytes m a xs) (a + UInt64.ofNat xs.length) ys = setBytes m a (xs ++ ys) := by
  rw [List.length_append] at small
  funext x
  have front : xs.length < 2^64 := by omega
  by_cases near : (x - a).toNat < xs.length
  · have beyond : ys.length ≤ (x - (a + UInt64.ofNat xs.length)).toNat := by
      rw [distanceAround front near]; omega
    rw [setBytes,List.getElem?_eq_none beyond,setBytes,setBytes,List.getElem?_append_left near]
    rfl
  · have far : xs.length ≤ (x - a).toNat := Nat.not_lt.mp near
    have before : setBytes m a xs x = m x := setBytesOutside near
    rw [setBytes,distanceFrom front far,before,setBytes,List.getElem?_append_right far]

theorem setBytesAgain (k : Nat) : setBytes (setBytes m a (xs.take k)) a xs = setBytes m a xs := by
  funext x
  by_cases inside : Inside a xs.length x
  · exact Option.some.inj (by rw [setBytesInside inside,setBytesInside inside])
  · have shorter : ¬ Inside a (xs.take k).length x :=
      fun within => inside (Nat.lt_of_lt_of_le within (List.length_take_le' _ _))
    rw [setBytesOutside inside,setBytesOutside inside,setBytesOutside shorter]

theorem setBytesKept {n : Nat} :
    setBytes m a (xs ++ (bytesAt m a n).drop xs.length) = setBytes m a xs := by
  funext x
  by_cases near : (x - a).toNat < xs.length
  · rw [setBytes,List.getElem?_append_left near,setBytes]
  · have far : xs.length ≤ (x - a).toNat := Nat.not_lt.mp near
    rw [setBytesOutside near,setBytes,List.getElem?_append_right far,List.getElem?_drop,
      Nat.add_sub_cancel' far]
    by_cases within : (x - a).toNat < n
    · have back : a + UInt64.ofNat (x - a).toNat = x := by rw [UInt64.ofNat_toNat]; grind
      rw [bytesAtGet within,back]
      rfl
    · rw [List.getElem?_eq_none (by simpa using within)]
      rfl

end Bytes

section Words
variable {m : Mem} {a : UInt64}

theorem leValueSmall (bytes : List UInt8) : leValue bytes < 256^bytes.length := by
  induction bytes with
  | nil => decide
  | cons b bytes ih =>
    have digit := b.toNat_lt
    rw [leValue,List.length_cons,Nat.pow_succ']
    omega

theorem leValueDigit (bytes : List UInt8) (k : Nat) :
    UInt8.ofNat (leValue bytes / 256^k) = (bytes[k]?).getD 0 := by
  induction bytes generalizing k with
  | nil => simp [leValue]
  | cons b bytes ih =>
    have digit := b.toNat_lt
    cases k with
    | zero =>
      apply UInt8.toNat_inj.mp
      simp only [leValue,UInt8.toNat_ofNat',List.getElem?_cons_zero,Option.getD_some]
      omega
    | succ k =>
      have rest : leValue (b::bytes) / 256^(k + 1) = leValue bytes / 256^k := by
        rw [Nat.pow_succ',← Nat.div_div_eq_div_mul,leValue]
        congr 1
        omega
      rw [rest,ih,List.getElem?_cons_succ]

theorem wordDigit {bytes : List UInt8} (eight : bytes.length = 8) (k : Nat) :
    UInt8.ofNat ((UInt64.ofNat (leValue bytes)).toNat / 256^k) = (bytes[k]?).getD 0 := by
  have small := leValueSmall bytes
  rw [eight] at small
  rw [offsetNat small,leValueDigit]

theorem setWordBytes {bytes : List UInt8} (eight : bytes.length = 8) :
    setWord m a (UInt64.ofNat (leValue bytes)) = setBytes m a bytes := by
  funext x
  by_cases inside : (x - a).toNat < 8
  · have found : (x - a).toNat < bytes.length := by omega
    rw [setWord,if_pos inside,wordDigit eight,setBytes,List.getElem?_eq_getElem found]
    rfl
  · rw [setOutside inside,setBytesOutside (by rwa [Inside,eight])]

theorem wordBytes (m : Mem) (a : UInt64) : word m a = UInt64.ofNat (leValue (bytesAt m a 8)) := by
  refine wordOf fun k low => ?_
  have digit := congrArg UInt8.toNat (wordDigit (bytesAtLength m a 8) k)
  rw [bytesAtGet low,UInt8.toNat_ofNat'] at digit
  exact digit.symm

theorem leBytesWord (m : Mem) (a : UInt64) : leBytes 8 (word m a) = bytesAt m a 8 := by
  refine List.map_congr_left fun k low => ?_
  rw [byteAt,wordBytes,wordDigit (bytesAtLength m a 8),bytesAtGet (List.mem_range.mp low)]
  rfl

end Words

section Reading
variable {m : Mem} {addr : UInt64} {size : Nat}

theorem peekFails {ok : Bool} : (peekData m addr ok).1 = -1 ∧ (peekData m addr ok).2 ≠ 0 ↔
    ok = false := by
  cases ok <;> simp [peekData]

theorem peekLoopReads {peeks : Nat → Bool} {copied : Nat} {buffer : Memory}
    (done : (peekLoop m addr size peeks copied buffer).2 = true) :
    (peekLoop m addr size peeks copied buffer).1 =
      write buffer copied (bytesAt m (addr + UInt64.ofNat copied) (size - copied)) := by
  induction copied, buffer using peekLoop.induct m addr size peeks with
  | case1 copied buffer more peeked failed =>
    rw [peekLoop,if_pos more,if_pos failed] at done
    cases done
  | case2 copied buffer more peeked fine chunk ih =>
    rw [peekLoop,if_pos more,if_neg fine] at done ⊢
    have ok : peeks copied = true := by simpa using mt peekFails.mpr fine
    have bytes : (leBytes 8 peeked.1).take chunk =
        bytesAt m (addr + UInt64.ofNat copied) chunk := by
      have value : peeked.1 = word m (addr + UInt64.ofNat copied) := by simp [peeked,peekData,ok]
      rw [value,leBytesWord,bytesAtTake _ _ (Nat.min_le_right _ _)]
    have behind : addr + UInt64.ofNat (copied + chunk) = addr + UInt64.ofNat copied +
        UInt64.ofNat chunk := by
      rw [UInt64.ofNat_add,UInt64.add_assoc]
    have split : size - copied = chunk + (size - (copied + chunk)) := by omega
    have joined := writeAppend buffer copied (bytesAt m (addr + UInt64.ofNat copied) chunk)
      (bytesAt m (addr + UInt64.ofNat copied + UInt64.ofNat chunk) (size - (copied + chunk)))
    rw [bytesAtLength] at joined
    rw [ih done,bytes,behind,joined,← bytesAtSplit,← split]
  | case3 copied buffer past =>
    rw [peekLoop,if_neg past,Nat.sub_eq_zero_of_le (Nat.not_lt.mp past)]
    rw [bytesAt,List.range_zero,List.map_nil,writeNil]

theorem readLooped {k : Reads size} {buffer : Memory} (gaveUp : k.readv.ret ≠ ssize size)
    (done : (readRemoteMemory m addr size k buffer).2 = true) :
    (readRemoteMemory m addr size k buffer).1 = write buffer 0 (bytesAt m addr size) := by
  unfold readRemoteMemory at done ⊢
  by_cases empty : size = 0
  · rw [if_pos empty] at done
    cases done
  · rw [if_neg empty,if_neg gaveUp] at done ⊢
    have start : addr + UInt64.ofNat 0 = addr := UInt64.add_zero addr
    have filled := peekLoopReads done
    rw [start,Nat.sub_zero] at filled
    rw [filled]
    exact writeAgain buffer 0 (by simpa using k.readv.within)

theorem readFills {k : Reads size} {buffer : Memory} (signed : ssize size = size)
    (done : (readRemoteMemory m addr size k buffer).2 = true) :
    (readRemoteMemory m addr size k buffer).1 = write buffer 0 (bytesAt m addr size) := by
  by_cases bulk : k.readv.ret = ssize size
  · unfold readRemoteMemory at done ⊢
    by_cases empty : size = 0
    · rw [if_pos empty] at done
      cases done
    · rw [if_neg empty,if_pos bulk,k.readv.whole (bulk.trans signed)]
  · exact readLooped bulk done

end Reading

section Writing
variable {m : Mem} {addr : UInt64} {src : List UInt8} {k : Writes src.length}

/- The word that is poked holds the next bytes and, behind them, what is there already. -/
theorem pokedWord {a : UInt64} {tail : Reads 8} {temp : Memory} {bytes : List UInt8}
    (atMost : bytes.length ≤ 8)
    (done : (tempBefore m a bytes.length tail temp).2 = true) :
    setWord m a (wordIn (write (tempBefore m a bytes.length tail temp).1 0 bytes)) =
      setBytes m a bytes := by
  have whole : read (write (tempBefore m a bytes.length tail temp).1 0 bytes) 0 8 =
      bytes ++ (bytesAt m a 8).drop bytes.length := by
    rw [readWrite _ _ atMost]
    by_cases short : bytes.length ≠ 8
    · rw [tempBefore,if_pos short] at done ⊢
      have eight : (bytesAt m a 8).length ≤ 8 := by simp
      have none : (read temp 0 8).drop 8 = [] := List.drop_eq_nil_of_le (by simp)
      rw [readFills rfl done,readWrite _ _ eight,bytesAtLength,none,List.append_nil]
    · have full : bytes.length = 8 := not_not.mp short
      rw [List.drop_eq_nil_of_le (by simp [full]),List.drop_eq_nil_of_le (by simp [full])]
  rw [wordIn,setWordBytes (by simp),whole,setBytesKept]

theorem pokeLoopWrites {copied : Nat} {temp : Memory} (small : src.length < 2^64)
    (done : (pokeLoop addr src k copied temp m).2 = true) :
    (pokeLoop addr src k copied temp m).1 =
      setBytes m (addr + UInt64.ofNat copied) (src.drop copied) := by
  induction copied, temp, m using pokeLoop.induct addr src k with
  | case1 copied temp m more chunk a ready failed =>
    have turn : pokeLoop addr src k copied temp m = (m,false) := by
      rw [pokeLoop,if_pos more]
      exact if_pos failed
    rw [turn] at done
    cases done
  | case2 copied temp m more chunk a ready fine next poked ih =>
    have turn : pokeLoop addr src k copied temp m =
        pokeLoop addr src k (copied + chunk) next (setWord m a (wordIn next)) := by
      rw [pokeLoop,if_pos more]
      exact (if_neg fine).trans (if_pos poked)
    have length : ((src.drop copied).take chunk).length = chunk := by simp [chunk]
    have behind : addr + UInt64.ofNat (copied + chunk) =
        a + UInt64.ofNat ((src.drop copied).take chunk).length := by
      rw [length,UInt64.ofNat_add,UInt64.add_assoc]
    have split : (src.drop copied).take chunk ++ src.drop (copied + chunk) = src.drop copied := by
      rw [← List.drop_drop,List.take_append_drop]
    have set := @pokedWord m a k.tail temp ((src.drop copied).take chunk) (by omega)
    rw [length] at set
    have joined := @setBytesAppend m a ((src.drop copied).take chunk) (src.drop (copied + chunk))
        (by rw [split,List.length_drop]; omega)
    rw [turn] at done ⊢
    rw [ih done,set (by simpa using fine),behind,joined,split]
  | case3 copied temp m more chunk a ready fine refused =>
    have turn : pokeLoop addr src k copied temp m = (m,false) := by
      rw [pokeLoop,if_pos more]
      exact (if_neg fine).trans (if_neg refused)
    rw [turn] at done
    cases done
  | case4 copied temp m past =>
    rw [pokeLoop,if_neg past,List.drop_eq_nil_of_le (Nat.not_lt.mp past),setBytesNil]

theorem writeLooped {temp : Memory} (small : src.length < 2^64)
    (gaveUp : k.writev.ret ≠ ssize src.length)
    (done : (writeRemoteMemory m addr src k temp).2 = true) :
    (writeRemoteMemory m addr src k temp).1 = setBytes m addr src := by
  unfold writeRemoteMemory at done ⊢
  by_cases empty : src.length = 0
  · rw [if_pos empty] at done
    cases done
  · rw [if_neg empty,if_neg gaveUp] at done ⊢
    have start : addr + UInt64.ofNat 0 = addr := UInt64.add_zero addr
    have wrote := pokeLoopWrites small done
    rw [start,List.drop_zero] at wrote
    rw [wrote,setBytesAgain]

end Writing

/-! What both come to where the one system call gives up. -/
section Fallback
variable (m : Mem) (addr : UInt64)

/- The bytes are there, nothing else has changed, and the one call would have left the
same memory. -/
structure Written (src : List UInt8) (temp : Memory) (m' : Mem) : Prop where
  inside : ∀ i (low : i < src.length), m' (addr + UInt64.ofNat i) = src[i]
  outside : ∀ x, ¬ WordMemory.Inside addr src.length x → m' x = m x
  asOneCall : ∀ full : Writes src.length, full.writev.ret = ssize src.length →
    full.writev.moved = src.length →
    writeRemoteMemory m addr src full temp = (m',true)

structure Filled (size : Nat) (buffer buffer' : Memory) : Prop where
  inside : ∀ i < size, buffer' i = m (addr + UInt64.ofNat i)
  outside : ∀ i, size ≤ i → buffer' i = buffer i

theorem writtenSet {src : List UInt8} (temp : Memory) (some : src ≠ [])
    (small : src.length < 2^64) :
    Written m addr src temp (setBytes m addr src) where
  inside i low := by
    have there : WordMemory.Inside addr src.length (addr + UInt64.ofNat i) := by
      rwa [WordMemory.Inside,offsetDistance addr (by omega)]
    have found := setBytesInside (m := m) there
    rw [offsetDistance addr (by omega),List.getElem?_eq_getElem low] at found
    exact Option.some.inj found
  outside _ := setBytesOutside
  asOneCall full ret moved := by
    have more : src.length ≠ 0 := fun empty => some (List.length_eq_zero_iff.mp empty)
    rw [writeRemoteMemory,if_neg more,if_pos ret,moved,List.take_length]

theorem filledWrite (size : Nat) (buffer : Memory) :
    Filled m addr size buffer (write buffer 0 (bytesAt m addr size)) where
  inside i low := by
    have there : ByteMemory.Inside 0 (bytesAt m addr size).length i :=
      ⟨Nat.zero_le i,by rw [bytesAtLength]; omega⟩
    have found := ByteMemory.writeInside buffer there
    rw [Nat.sub_zero,bytesAtGet low] at found
    exact Option.some.inj found
  outside i high := ByteMemory.writeOutside _ fun within =>
    Nat.not_lt.mpr high (by have := within.2; rw [bytesAtLength] at this; omega)

theorem wordwiseAsBulk :
    (∀ (src : List UInt8) (k : Writes src.length) (temp : Memory), src.length < 2^64 →
      k.writev.ret ≠ ssize src.length →
      (writeRemoteMemory m addr src k temp).2 = true →
        Written m addr src temp (writeRemoteMemory m addr src k temp).1) ∧
    ∀ (size : Nat) (k : Reads size) (buffer : Memory), k.readv.ret ≠ ssize size →
      (readRemoteMemory m addr size k buffer).2 = true →
        Filled m addr size buffer (readRemoteMemory m addr size k buffer).1 := by
  constructor
  · intro src k temp small gaveUp done
    have some : src ≠ [] := fun empty => by simp [writeRemoteMemory,empty] at done
    rw [writeLooped small gaveUp done]
    exact writtenSet m addr temp some small
  · intro size k buffer gaveUp done
    rw [readLooped gaveUp done]
    exact filledWrite m addr size buffer

end Fallback

/-! Where no word fails the loops come through. -/
theorem peekLoopDone {m : Mem} {addr : UInt64} {size copied : Nat} {peeks : Nat → Bool}
    {buffer : Memory} (fine : ∀ n, peeks n = true) :
    (peekLoop m addr size peeks copied buffer).2 = true := by
  induction copied, buffer using peekLoop.induct m addr size peeks with
  | case1 copied buffer more peeked failed =>
    have refused := peekFails.mp failed
    rw [fine] at refused
    cases refused
  | case2 copied buffer more peeked passed chunk ih =>
    rw [peekLoop,if_pos more,if_neg passed]
    exact ih
  | case3 copied buffer past => rw [peekLoop,if_neg past]

theorem readDone {m : Mem} {addr : UInt64} {size : Nat} {k : Reads size} {buffer : Memory}
    (some : size ≠ 0) (fine : ∀ n, k.peeks n = true) :
    (readRemoteMemory m addr size k buffer).2 = true := by
  rw [readRemoteMemory,if_neg some]
  split
  · rfl
  · exact peekLoopDone fine

theorem pokeLoopDone {m : Mem} {addr : UInt64} {src : List UInt8} {k : Writes src.length}
    {copied : Nat} {temp : Memory}
    (peeked : ∀ n, k.tail.peeks n = true) (poked : ∀ n, k.pokes n = true) :
    (pokeLoop addr src k copied temp m).2 = true := by
  induction copied, temp, m using pokeLoop.induct addr src k with
  | case1 copied temp m more chunk a ready failed =>
    have fetched : ready.2 = true := by
      simp only [ready,tempBefore]
      split
      · exact readDone (by decide) peeked
      · rfl
    rw [fetched] at failed
    cases failed
  | case2 copied temp m more chunk a ready fine next passed ih =>
    rw [pokeLoop,if_pos more]
    exact ((congrArg Prod.snd (if_neg fine)).trans (congrArg Prod.snd (if_pos passed))).trans ih
  | case3 copied temp m more chunk a ready fine refused => exact absurd (poked copied) refused
  | case4 copied temp m past => rw [pokeLoop,if_neg past]

theorem writeDone {m : Mem} {addr : UInt64} {src : List UInt8} {k : Writes src.length}
    {temp : Memory} (some : src ≠ [])
    (peeked : ∀ n, k.tail.peeks n = true) (poked : ∀ n, k.pokes n = true) :
    (writeRemoteMemory m addr src k temp).2 = true := by
  have more : src.length ≠ 0 := fun empty => some (List.length_eq_zero_iff.mp empty)
  rw [writeRemoteMemory,if_neg more]
  split
  · rfl
  · exact pokeLoopDone peeked poked

/- Eleven bytes to an odd address, three of them written before the one call gave up. -/
def lowBytes : Mem := fun x => x.toUInt8

def elevenWrites : Writes 11 :=
  ⟨⟨3,-1,by decide,by decide⟩,⟨⟨0,-1,by decide,by decide⟩,fun _ => true⟩,fun _ => true⟩

def elevenReads : Reads 11 := ⟨⟨3,-1,by decide,by decide⟩,fun _ => true⟩

theorem wordwiseEleven :
    Written lowBytes 0x1003 [1,2,3,4,5,6,7,8,9,10,11] (fun _ => 0)
      (writeRemoteMemory lowBytes 0x1003 [1,2,3,4,5,6,7,8,9,10,11] elevenWrites fun _ => 0).1 ∧
    Filled lowBytes 0x1003 11 (fun _ => 0)
      (readRemoteMemory lowBytes 0x1003 11 elevenReads fun _ => 0).1 :=
  ⟨(wordwiseAsBulk lowBytes 0x1003).1 [1,2,3,4,5,6,7,8,9,10,11] elevenWrites (fun _ => 0)
    (by decide) (by decide)
      (writeDone (by decide) (fun _ => rfl) fun _ => rfl),
    (wordwiseAsBulk lowBytes 0x1003).2 11 elevenReads (fun _ => 0) (by decide)
      (readDone (by decide) fun _ => rfl)⟩

end ZeroTrace.RemoteMemory
