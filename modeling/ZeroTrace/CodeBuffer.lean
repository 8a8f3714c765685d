import ZeroTrace.PatchCode

/-! A buffer of bounded size that code is written into from the front. Both trampoline
builders use it; nothing here knows an instruction. -/
namespace ZeroTrace.CodeBuffer

abbrev Bytes := List UInt8

/- `room` is the size of the buffer; the bytes so far are those before the offset. -/
def emitBytes (room : Nat) (buf src : Bytes) : Option Bytes :=
  if room < buf.length + src.length then none else some (buf ++ src)

def emitAll (room : Nat) (buf : Bytes) : List Bytes → Option Bytes
  | [] => some buf
  | src::rest => do emitAll room (← emitBytes room buf src) rest

/- A copy over bytes that are there; what would lie behind the last of them is written
over by whatever comes next. -/
def overwrite (buf : Bytes) (offset : Nat) (src : Bytes) : Bytes :=
  buf.mapIdx fun k b => if offset ≤ k then (src[k - offset]?).getD b else b

@[simp] theorem overwriteLength (buf : Bytes) (offset src) :
    (overwrite buf offset src).length = buf.length := by
  simp [overwrite]

theorem emitBytesSome {room buf src out}
    (ok : emitBytes room buf src = some out) : out = buf ++ src := by
  unfold emitBytes at ok
  split at ok
  · cases ok
  · exact (Option.some.inj ok).symm

theorem emitAllSome {room : Nat} {buf out : Bytes} {parts : List Bytes}
    (ok : emitAll room buf parts = some out) :
    out = buf ++ parts.flatten := by
  induction parts generalizing buf with
  | nil => simpa [emitAll] using ok.symm
  | cons src parts ih =>
    obtain ⟨next,first,rest⟩ := Option.bind_eq_some_iff.mp ok
    rw [ih rest,emitBytesSome first]
    simp

theorem emitBytesRoom {room buf src out} (ok : emitBytes room buf src = some out) : out.length ≤
    room := by
  unfold emitBytes at ok
  split at ok
  · cases ok
  · next fits =>
    rw [← Option.some.inj ok,List.length_append]
    omega

theorem emitBytesFits {room : Nat} {buf src : Bytes} (fits : buf.length + src.length ≤ room) :
    emitBytes room buf src = some (buf ++ src) :=
  if_neg (Nat.not_lt.mpr fits)

theorem emitAllRoom {room : Nat} {buf out : Bytes} {parts : List Bytes}
    (ok : emitAll room buf parts = some out) (some_ : parts ≠ []) :
    out.length ≤ room := by
  induction parts generalizing buf with
  | nil => exact absurd rfl some_
  | cons src parts ih =>
    obtain ⟨next,first,rest⟩ := Option.bind_eq_some_iff.mp ok
    cases parts with
    | nil =>
      rw [← Option.some.inj rest]
      exact emitBytesRoom first
    | cons => exact ih rest (by simp)

theorem emitAllFits {room : Nat} {buf : Bytes} {parts : List Bytes}
    (fits : buf.length + parts.flatten.length ≤ room) :
    emitAll room buf parts = some (buf ++ parts.flatten) := by
  induction parts generalizing buf with
  | nil => simp [emitAll]
  | cons src parts ih =>
    rw [List.flatten_cons,List.length_append] at fits
    rw [emitAll,emitBytesFits (by omega)]
    refine (ih (by rw [List.length_append]; omega)).trans ?_
    rw [List.flatten_cons,List.append_assoc]

theorem overwriteMiddle {buf front src back : Bytes} {offset : Nat} (old : Bytes)
    (whole : buf = front ++ (old ++ back))
    (here : offset = front.length) (same : old.length = src.length) :
    overwrite buf offset src = front ++ (src ++ back) := by
  subst whole here
  apply List.ext_getElem? fun k => ?_
  simp only [overwrite,List.getElem?_mapIdx]
  by_cases before : k < front.length
  · have high : ¬ front.length ≤ k := by omega
    simp [List.getElem?_append_left before,high]
  · have low : front.length ≤ k := Nat.le_of_not_lt before
    rw [List.getElem?_append_right low,List.getElem?_append_right low]
    by_cases inside : k - front.length < src.length
    · rw [List.getElem?_append_left inside,List.getElem?_append_left (same ▸ inside)]
      simp [low,inside,same ▸ inside]
    · have out : src.length ≤ k - front.length := Nat.le_of_not_lt inside
      rw [List.getElem?_append_right out,List.getElem?_append_right (same ▸ out),same]
      simp [low,out]

theorem partsBack {buf front field back : Bytes} {k n : Nat}
    (whole : buf = front ++ (field ++ back)) (here : front.length = k)
    (width : field.length = n) : buf.take k = front ∧ (buf.drop k).take n = field ∧
      buf.drop (k + n) = back := by
  subst whole here width
  rw [← List.drop_drop,List.take_left,List.drop_left,List.take_left,List.drop_left]
  exact ⟨rfl,rfl,rfl⟩

theorem partsOf {buf : Bytes} {k n : Nat} (inside : k + n ≤ buf.length) :
    ∃ front field back, buf = front ++ (field ++ back) ∧ front.length = k ∧ field.length = n := by
  refine ⟨buf.take k,(buf.drop k).take n,buf.drop (k + n),?_,?_,?_⟩
  · rw [← List.drop_drop,List.take_append_drop,List.take_append_drop]
  · rw [List.length_take]
    omega
  · rw [List.length_take,List.length_drop]
    omega

theorem overwriteBehind (front bytes : Bytes) (offset : Nat) (src : Bytes) :
    overwrite (front ++ bytes) (front.length + offset) src =
      front ++ overwrite bytes offset src := by
  apply List.ext_getElem? fun k => ?_
  simp only [overwrite,List.getElem?_mapIdx]
  by_cases before : k < front.length
  · have high : ¬ front.length + offset ≤ k := by omega
    simp [List.getElem?_append_left before,high]
  · have low : front.length ≤ k := Nat.le_of_not_lt before
    rw [List.getElem?_append_right low,List.getElem?_append_right low,List.getElem?_mapIdx]
    have same : front.length + offset ≤ k ↔ offset ≤ k - front.length := by omega
    simp only [same,Nat.sub_sub]

section Numbers
open PatchCode

def leValue : Bytes → Nat
  | [] => 0
  | b::bytes => b.toNat + 256 * leValue bytes

theorem leValueFrom (v : UInt64) (k n : Nat) :
    leValue ((List.range' k n).map (byteAt v)) = v.toNat / 256^k % 256^n := by
  induction n generalizing k with
  | zero => simp [leValue,Nat.mod_one]
  | succ n ih =>
    have digit : (byteAt v k).toNat = v.toNat / 256^k % 256 := by simp [byteAt]
    have rest : v.toNat / 256^k % 256^(n + 1) = v.toNat / 256^k % 256 + 256 *
        (v.toNat / 256^(k + 1) % 256^n) := by
      rw [Nat.pow_succ' (n := n),Nat.mod_mul,Nat.div_div_eq_div_mul,Nat.pow_succ]
    rw [List.range'_succ,List.map_cons,leValue,digit,ih,rest]

theorem leValueBytes (v : UInt64) (n : Nat) : leValue (leBytes n v) = v.toNat % 256^n := by
  have all := leValueFrom v 0 n
  rwa [← List.range_eq_range',Nat.pow_zero,Nat.div_one] at all

theorem leValueWord (v : UInt64) : UInt64.ofNat (leValue (leBytes 8 v)) = v := by
  have whole : v.toNat % 256^8 = v.toNat := Nat.mod_eq_of_lt v.toNat_lt
  rw [leValueBytes,whole,UInt64.ofNat_toNat]

/- What a field of four bytes means where it is widened to a word. -/
def signExtend (n : Nat) : UInt64 :=
  if n < 2^31 then UInt64.ofNat n else UInt64.ofNat (n + (2^64 - 2^32))

theorem signExtendBytes {v : UInt64} (fits : v.toNat < 2^31 ∨ 2^64 - 2^31 ≤ v.toNat) :
    signExtend (leValue (leBytes 4 v)) = v := by
  rw [leValueBytes]
  apply UInt64.toNat_inj.mp
  have bound := v.toNat_lt
  unfold signExtend
  split <;> simp only [UInt64.toNat_ofNat'] <;> omega

end Numbers

end ZeroTrace.CodeBuffer
