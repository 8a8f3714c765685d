import ZeroTrace.EventFormat

/-! What the buffers on the stack hold for a value and for a preview: texts of which each fits in
its buffer, whatever the target's memory holds. -/
namespace ZeroTrace.EventTexts
open Cells NumberTexts EventFormat VariadicArgs
open BufferPreviews (SigType capPreviewLen)
open RemoteStrings
  (MemoryMap readRemoteMemory readRemoteCstr isPrint shown shownNat printNat snprintf allBytes
  allLength cstrBytes Reads Reaches bytesReach cstrReads atStart)
open TextRow (textHere)

section
variable {buffer : Nat → Char} {t : List Char} {size n : Nat}

theorem textInStore (solid : '\x00' ∉ t) (fits : t.length < size) :
    textIn size (store buffer 0 (t ++ ['\x00'])) = t := by
  have front : ((List.range size).map (store buffer 0 (t ++ ['\x00']))).take (t.length + 1) =
      t ++ ['\x00'] := by
    refine List.ext_getElem (by simp; omega) fun i low low' => ?_
    have found := storeAt (b := buffer) (i := 0) low'
    rw [Nat.zero_add] at found
    rw [List.getElem_take,List.getElem_map,List.getElem_range,found]
  have whole := List.take_append_drop (t.length + 1)
      ((List.range size).map (store buffer 0 (t ++ ['\x00'])))
  rw [front,List.append_assoc] at whole
  rw [textIn,← whole]
  exact textHere solid

variable {mem : MemoryMap} {addr : UInt64}

def remoteText (mem : MemoryMap) (addr : UInt64) (n : Nat) : Option (List Char) :=
  if addr = 0 then some (['N','U','L','L'].take n) else (cstrBytes mem addr n).map fun bytes =>
    bytes.map shown

theorem shownPrinted (b : UInt8) : ¬ Unprinted (shown b) := by
  unfold Unprinted
  rw [shownNat]
  split
  · next print =>
    have high := UInt8.le_iff_toNat_le.mp (of_decide_eq_true (Bool.and_eq_true_iff.mp print).2)
    have low := printNat print
    change b.toNat ≤ 0x7e at high
    omega
  · decide

theorem shownText {c : Char} (unprinted : Unprinted c) (bytes : List UInt8) : c ∉ bytes.map shown :=
  fun inside => by
  obtain ⟨b,_,rfl⟩ := List.mem_map.mp inside
  exact shownPrinted b unprinted

theorem remoteSolid {c : Char} (unprinted : Unprinted c)
    (found : remoteText mem addr n = some t) : c ∉ t := by
  unfold remoteText at found
  split at found
  · obtain rfl := Option.some.inj found
    exact fun inside =>
      unprintedOut unprinted (s := ['N','U','L','L']) (by decide) (List.mem_of_mem_take inside)
  · obtain ⟨bytes,read,rfl⟩ := Option.map_eq_some_iff.mp found
    exact shownText unprinted bytes

theorem remoteFits (found : remoteText mem addr n = some t) : '\x00' ∉ t ∧ t.length ≤ n := by
  unfold remoteText at found
  split at found
  · obtain rfl := Option.some.inj found
    exact ⟨fun inside => absurd (List.mem_of_mem_take inside) (by decide),List.length_take_le _ _⟩
  · obtain ⟨bytes,read,rfl⟩ := Option.map_eq_some_iff.mp found
    exact ⟨shownText (by decide) bytes,by rw [List.length_map]; exact (bytesReach.mp read).fits⟩

theorem cstrSome (room : 0 < size) (found : remoteText mem addr (size - 1) = some t) :
    readRemoteCstr mem addr buffer size = (store buffer 0 (t ++ ['\x00']),true) := by
  unfold remoteText at found
  split at found
  · next null =>
    obtain rfl := Option.some.inj found
    rw [readRemoteCstr,if_neg (by omega),if_pos null]
    rfl
  · next nonzero =>
    obtain ⟨bytes,read,rfl⟩ := Option.map_eq_some_iff.mp found
    have reads := @cstrReads mem addr size buffer nonzero room
    rwa [Reads,atStart,Nat.sub_zero,read] at reads

theorem cstrNone (room : 0 < size) (missing : remoteText mem addr (size - 1) = none) :
    (readRemoteCstr mem addr buffer size).2 = false := by
  unfold remoteText at missing
  split at missing
  · cases missing
  · next nonzero =>
    have read := Option.map_eq_none_iff.mp missing
    have reads := @cstrReads mem addr size buffer nonzero room
    rw [Reads,atStart,Nat.sub_zero,read] at reads
    obtain ⟨_,_,same⟩ := reads
    rw [same]

end

section
variable (mem : MemoryMap) (stack : Nat → Char) (type : SigType) (value : UInt64) {c : Char}
    (unprinted : Unprinted c)

include unprinted in
theorem addressSolid : c ∉ address value :=
  unprintedCons unprinted (by decide)
    (unprintedCons unprinted (by decide) (hexadecimalSolid unprinted _))

theorem addressLength : (address value).length ≤ 18 := by
  have digits := hexadecimalLength (n := value.toNat) (k := 16)
      (Nat.lt_of_lt_of_eq value.toNat_lt (by decide)) (by decide)
  rw [address,List.length_cons,List.length_cons]
  omega

theorem cstrValue :
    (∃ t, remoteText mem value (strSize - 1) = some t ∧
    valueText mem stack .cstr value = '\"'::(t ++ ['\"'])) ∨
    valueText mem stack .cstr value = address value := by
  unfold valueText
  cases found : remoteText mem value (strSize - 1) with
  | some t =>
    obtain ⟨solid,fits⟩ := remoteFits found
    have room : t.length < strSize := Nat.lt_of_le_of_lt fits (by decide)
    simp only [@cstrSome stack _ _ _ _ (by decide) found,if_true,textInStore solid room]
    exact .inl ⟨t,rfl,rfl⟩
  | none =>
    simp only [@cstrNone stack _ _ _ (by decide) found]
    exact .inr rfl

include unprinted in
theorem valueSolid : c ∉ valueText mem stack type value := by
  cases type with
  | int | long | ssize => exact signedSolid unprinted _
  | ulong | size => exact decimalSolid unprinted _
  | float | double => exact generalSolid unprinted _
  | cstr =>
    rcases cstrValue mem stack value with ⟨t,found,same⟩ | same
    · rw [same]
      exact unprintedCons unprinted (by decide) (List.not_mem_append (remoteSolid unprinted found)
        (unprintedCons unprinted (by decide) List.not_mem_nil))
    · rw [same]
      exact addressSolid value unprinted
  | void => exact unprintedOut unprinted (s := ['v','o','i','d']) (by decide)
  | unknown | ptr | buf | constBuf => exact addressSolid value unprinted

theorem valueFits : (valueText mem stack type value).length < valueSize := by
  have enough : ∀ {n}, n ≤ 21 → n < valueSize := fun small => Nat.lt_of_le_of_lt small (by decide)
  cases type with
  | int =>
    have low := value.toUInt32.toInt32.le_toInt
    have high := value.toUInt32.toInt32.toInt_lt
    exact enough (signedLength (k := 20) (by omega) (by decide))
  | long | ssize =>
    have low := value.toInt64.le_toInt
    have high := value.toInt64.toInt_lt
    exact enough (signedLength (k := 20) (by omega) (by decide))
  | ulong | size => exact enough (Nat.le_succ_of_le
      (decimalLength (k := 20) (Nat.lt_trans value.toNat_lt (by decide)) (by decide)))
  | float => exact enough (Nat.le_trans (generalLength (k := 4) (by decide) (by decide))
      (by decide))
  | double => exact enough (Nat.le_trans (generalLength (k := 4) (by decide) (by decide))
      (by decide))
  | cstr =>
    rcases cstrValue mem stack value with ⟨t,found,same⟩ | same
    · have fits := (remoteFits found).2
      rw [same,List.length_cons,List.length_append,List.length_singleton]
      unfold strSize at fits
      unfold valueSize
      omega
    · rw [same]
      exact enough (Nat.le_trans (addressLength value) (by decide))
  | void => exact (by decide : 4 < 96)
  | unknown | ptr | buf | constBuf => exact enough (Nat.le_trans (addressLength value) (by decide))

end

section
variable {mem : MemoryMap} {addr : UInt64} {bytes : List UInt8} {len size offset : Nat}
    {buffer : Nat → Char}

def previewChars (ch : UInt8) : List Char := if isPlain ch then [Char.ofNat ch.toNat] else escape ch

def quoted (bytes : List UInt8) : List Char := '\"'::(bytes.flatMap previewChars ++ ['\"'])

def previewText (mem : MemoryMap) (addr : UInt64) (len : Nat) : Option (List Char) :=
  if addr = 0 then some ['N','U','L','L']
    else (readRemoteBytesWithFallback mem addr (capPreviewLen len)).map quoted

theorem plainPrinted {ch : UInt8}
    (plain : isPlain ch = true) : ¬ Unprinted (Char.ofNat ch.toNat) := by
  have print : isPrint ch = true := (Bool.and_eq_true_iff.mp (Bool.and_eq_true_iff.mp plain).1).1
  have same : shown ch = Char.ofNat ch.toNat := if_pos print
  rw [← same]
  exact shownPrinted ch

section
variable {c : Char} (unprinted : Unprinted c)
include unprinted

theorem escapeSolid (ch : UInt8) : c ∉ escape ch :=
  unprintedCons unprinted (by decide)
    (unprintedCons unprinted (by decide) (filledSolid unprinted 2 (hexadecimalSolid unprinted _)))

theorem previewSolid (ch : UInt8) : c ∉ previewChars ch := by
  unfold previewChars
  split
  · next plain => exact unprintedCons unprinted (plainPrinted plain) List.not_mem_nil
  · exact escapeSolid unprinted ch

theorem quotedSolid (bytes : List UInt8) : c ∉ quoted bytes := by
  refine unprintedCons unprinted (by decide)
    (List.not_mem_append (fun inside => ?_) (unprintedCons unprinted (by decide) List.not_mem_nil))
  obtain ⟨ch,_,here⟩ := List.mem_flatMap.mp inside
  exact previewSolid unprinted ch here

theorem previewTextSolid {t : List Char} (found : previewText mem addr len = some t) : c ∉ t := by
  unfold previewText at found
  split at found
  · obtain rfl := Option.some.inj found
    exact unprintedOut unprinted (by decide)
  · obtain ⟨bytes,_,rfl⟩ := Option.map_eq_some_iff.mp found
    exact quotedSolid unprinted bytes

end

theorem escapeLength (ch : UInt8) : (escape ch).length = 4 := by
  have digits := hexadecimalLength (n := ch.toNat) (k := 2) ch.toNat_lt (by decide)
  rw [escape,List.length_cons,List.length_cons,zeroFilled,List.length_leftpad]
  omega

theorem charsLength (bytes : List UInt8) : (bytes.flatMap previewChars).length ≤
    4 * bytes.length := by
  induction bytes with
  | nil => exact Nat.le_refl 0
  | cons ch bytes ih =>
    have one : (previewChars ch).length ≤ 4 := by
      unfold previewChars
      split
      · exact (by decide : 1 ≤ 4)
      · exact Nat.le_of_eq (escapeLength ch)
    rw [List.flatMap_cons,List.length_append,List.length_cons]
    omega

theorem oneByOneLength (read : oneByOne mem addr len = some bytes) : bytes.length = len := by
  induction len generalizing addr bytes with
  | zero => rw [← Option.some.inj read]; rfl
  | succ len ih =>
    unfold oneByOne at read
    split at read
    · cases read
    · next byte first =>
      obtain ⟨rest,later,rfl⟩ := Option.map_eq_some_iff.mp read
      have one : byte.length = 1 := by
        rw [readRemoteMemory,if_neg (by decide)] at first
        exact allLength first
      rw [List.length_append,one,ih later,Nat.add_comm]

theorem fallbackLength (read : readRemoteBytesWithFallback mem addr len = some bytes) :
    bytes.length = len := by
  unfold readRemoteBytesWithFallback at read
  split at read
  · next none_ => rw [← Option.some.inj read,none_]; rfl
  · next some_ =>
    split at read
    · next whole =>
      rw [readRemoteMemory,if_neg some_] at whole
      rw [← Option.some.inj read]
      exact allLength whole
    · exact oneByOneLength read

theorem capFew (len : Nat) : capPreviewLen len ≤ 32 := by
  unfold capPreviewLen
  split <;> omega

theorem previewRun (room : offset + (bytes.flatMap previewChars).length + 2 < size) :
    previewBytes size bytes offset buffer =
      (store buffer offset (bytes.flatMap previewChars ++ ['\"','\x00']),true) := by
  induction bytes generalizing offset buffer with
  | nil =>
    rw [List.flatMap_nil,List.length_nil] at room
    rw [previewBytes,if_neg (by omega),storeCons]
    rfl
  | cons ch bytes ih =>
    have parts : (ch::bytes).flatMap previewChars = previewChars ch ++ bytes.flatMap previewChars :=
      List.flatMap_cons
    rw [parts,List.length_append] at room
    rw [previewBytes,parts,List.append_assoc]
    cases plain : isPlain ch with
    | true =>
      have chars : previewChars ch = [Char.ofNat ch.toNat] := if_pos plain
      rw [chars,List.length_singleton] at room
      rw [if_pos rfl,if_neg (by omega),ih (by omega),chars]
      congr 1
      exact storeAppend buffer offset [Char.ofNat ch.toNat] _
    | false =>
      have chars : previewChars ch = escape ch := if_neg (by rw [plain]; simp)
      have length := escapeLength ch
      rw [chars] at room
      have written : snprintfAt buffer offset size (escape ch) =
          store buffer offset (escape ch ++ ['\x00']) := by
        rw [snprintfAt,if_neg (by omega),List.take_of_length_le (by omega)]
      rw [if_neg (by simp)]
      simp only [written,if_neg (show ¬ (escape ch).length ≥ size - offset by omega)]
      rw [ih (by omega),chars,storeOn _ _ _ _ (by simp)]

theorem charsFew (read : readRemoteBytesWithFallback mem addr (capPreviewLen len) = some bytes) :
    (bytes.flatMap previewChars).length ≤ 128 := by
  have length := fallbackLength read
  have few := capFew len
  have chars := charsLength bytes
  omega

theorem previewFits {t : List Char} (found : previewText mem addr len = some t) :
    '\x00' ∉ t ∧ t.length < previewSize := by
  refine ⟨previewTextSolid (by decide) found,?_⟩
  unfold previewText at found
  split at found
  · obtain rfl := Option.some.inj found
    decide
  · obtain ⟨bytes,read,rfl⟩ := Option.map_eq_some_iff.mp found
    have few := charsFew read
    rw [quoted,List.length_cons,List.length_append,List.length_singleton]
    unfold previewSize
    omega

theorem previewSome {t : List Char} (found : previewText mem addr len = some t) :
    readRemoteBufPreview mem addr len buffer previewSize =
      (store buffer 0 (t ++ ['\x00']),true) := by
  unfold previewText at found
  split at found
  · next null =>
    obtain rfl := Option.some.inj found
    rw [readRemoteBufPreview,if_neg (by decide),if_pos null]
    rfl
  · next nonzero =>
    obtain ⟨bytes,read,rfl⟩ := Option.map_eq_some_iff.mp found
    have few := charsFew read
    rw [readRemoteBufPreview,if_neg (by decide),if_neg nonzero,if_neg (by decide),read]
    simp only
    rw [previewRun (by unfold previewSize; omega)]
    congr 1
    rw [storeCons buffer 0 '\"' _,quoted,List.cons_append,List.append_assoc]
    rfl

theorem previewNone (missing : previewText mem addr len = none) :
    readRemoteBufPreview mem addr len buffer previewSize = (store buffer 0 ['\"'],false) := by
  unfold previewText at missing
  split at missing
  · cases missing
  · next nonzero =>
    rw [readRemoteBufPreview,if_neg (by decide),if_neg nonzero,if_neg (by decide),
      Option.map_eq_none_iff.mp missing]

theorem previewWithin (mem : MemoryMap) (buffer : Nat → Char) (addr : UInt64) (len : Nat) :
    (∀ i, previewSize ≤ i → (readRemoteBufPreview mem addr len buffer previewSize).1 i = buffer i) ∧
    ((readRemoteBufPreview mem addr len buffer previewSize).2 = false ↔ addr ≠ 0 ∧
      readRemoteBytesWithFallback mem addr (capPreviewLen len) = none) := by
  have missing : previewText mem addr len = none ↔ addr ≠ 0 ∧
      readRemoteBytesWithFallback mem addr (capPreviewLen len) = none := by
    unfold previewText
    by_cases null : addr = 0 <;> simp [null]
  rw [← missing]
  cases found : previewText mem addr len with
  | some t =>
    have fits := (previewFits found).2
    rw [previewSome found]
    refine ⟨fun i outside => ?_,iff_of_false (by simp) (by simp)⟩
    have past : 0 + (t ++ ['\x00']).length ≤ i := by
      rw [List.length_append,List.length_singleton]; omega
    exact storeBehind past
  | none =>
    rw [previewNone found]
    refine ⟨fun i outside => ?_,iff_of_true rfl rfl⟩
    have past : 0 + ['\"'].length ≤ i := Nat.le_trans (by decide) outside
    exact storeBehind past

end

end ZeroTrace.EventTexts
