import ZeroTrace.BoundedSearch
import ZeroTrace.CodeBuffer

/-! A symbol looked up in an ELF file. Where something outside of a table's bytes would be looked
at, nothing is given back; a header or a symbol is inside with all of its bytes or not at all. -/
namespace ZeroTrace.ElfSymbols
open CodeBuffer (Bytes leValue)
open BoundedSearch

def field (entry : Bytes) (offset count : Nat) : Nat := leValue ((entry.drop offset).take count)

structure Ehdr where
  shoff : Nat
  shentsize : Nat
  shnum : Nat
  deriving DecidableEq, Repr

structure Shdr where
  type : Nat
  offset : Nat
  size : Nat
  link : Nat
  entsize : Nat
  deriving DecidableEq, Repr

structure Sym where
  name : Nat
  info : Nat
  shndx : Nat
  value : Nat
  deriving DecidableEq, Repr

def ehdrSize : Nat := 64
def shdrSize : Nat := 64
def symSize : Nat := 24

def toShdr (entry : Bytes) : Shdr :=
  ⟨field entry 4 4,field entry 24 8,field entry 32 8,field entry 40 4,field entry 56 8⟩

def toSym (entry : Bytes) : Sym := ⟨field entry 0 4,field entry 4 1,field entry 6 2,field entry 8 8⟩

def maxRead : Nat := 0x7ffff000

/- The offset is a signed one of 64 bits. -/
def pread (file : Bytes) (count offset : Nat) : Int × Bytes :=
  if 2^63 ≤ offset then (-1,[])
  else
    let bytes := (file.drop offset).take (min count maxRead)
    (bytes.length,bytes)

def ssize (size : Nat) : Int := if size < 2^63 then size else (size : Int) - (2^64 : Nat)

def readElfHeader (file : Bytes) : Option Ehdr :=
  let header := pread file ehdrSize 0
  if header.1 ≠ ssize ehdrSize then none
  else if header.2.take 4 ≠ [0x7f,0x45,0x4c,0x46] then none
  else if (header.2.drop 4).take 3 ≠ [2,1,1] then none
  else some ⟨field header.2 40 8,field header.2 58 2,field header.2 60 2⟩

/- The tables that memory is asked for; a request of half of the address space or more fails. -/
inductive Table where
  | headers | symbols (i : Nat) | strings (i : Nat)
  deriving DecidableEq, Repr

structure Heap where
  grants : Table → Nat → Bool
  most : ∀ t n, grants t n = true → n < 2^63

/- The product of two numbers of 16 bits as a number of 32 with a sign, and that as a size. -/
def headersSize (ehdr : Ehdr) : Nat :=
  let product := ehdr.shentsize * ehdr.shnum
  if product < 2^31 then product else product + (2^64 - 2^32)

def entryAt (table : Bytes) (size i : Nat) : Bytes := (table.drop (size * i)).take size

def checked (table : Bytes) (size i : Nat) : Option Bytes :=
  if size * (i + 1) ≤ table.length then some (entryAt table size i) else none

/- Compares a text in a table, which may have no NUL, with a text of C. -/
def strcmp : Bytes → Bytes → Option Bool
  | [],_ => none
  | c::_,[] => some (c == 0)
  | c::text,d::name => if c = d then strcmp text name else some false

def isDefined (sym : Sym) : Bool := sym.shndx != 0 && sym.value != 0

def isCallable (sym : Sym) : Bool := sym.info % 16 == 2 || sym.info % 16 == 10 || sym.info % 16 == 0

def isSymbolTable (symtab : Shdr) : Bool := symtab.type == 2 || symtab.type == 11

def isLinked (ehdr : Ehdr) (symtab : Shdr) : Bool :=
  isSymbolTable symtab && !(ehdr.shnum ≤ symtab.link || symtab.entsize == 0)

inductive Answer where
  | failed | found (addr : Nat)
  deriving DecidableEq, Repr

inductive Tables where
  | refused | unread | read (symbols strings : Bytes)
  deriving DecidableEq, Repr

section
variable (heap : Heap) (file name : Bytes)

def readTables (i : Nat) (symtab strtab : Shdr) : Tables :=
  if !heap.grants (.symbols i) symtab.size || !heap.grants (.strings i) strtab.size then .refused
  else
    let symbols := pread file symtab.size symtab.offset
    let strings := pread file strtab.size strtab.offset
    if symbols.1 ≠ ssize symtab.size ∨ strings.1 ≠ ssize strtab.size then
      .unread else .read symbols.2 strings.2

def lookSymbol (strtab : Shdr) (symbols strings : Bytes) (j : Nat) : Look Answer :=
  match checked symbols symSize j with
  | none => none
  | some entry =>
    let sym := toSym entry
    if strtab.size ≤ sym.name then some none
    else match strcmp (strings.drop sym.name) name with
      | none => none
      | some same => if same && isDefined sym &&
          isCallable sym then some (some (.found sym.value)) else some none

def lookSection (ehdr : Ehdr) (headers : Bytes) (i : Nat) : Look Answer :=
  match checked headers shdrSize i with
  | none => none
  | some entry =>
    let symtab := toShdr entry
    if !isLinked ehdr symtab then some none
    else match checked headers shdrSize symtab.link with
      | none => none
      | some entry =>
        let strtab := toShdr entry
        match readTables heap file i symtab strtab with
        | .refused => some (some .failed)
        | .unread => some none
        | .read symbols strings =>
            search (lookSymbol name strtab symbols strings) (symtab.size / symtab.entsize) 0

def readHeaders (ehdr : Ehdr) : Option Bytes :=
  if !heap.grants .headers (headersSize ehdr) then none
  else
    let headers := pread file (headersSize ehdr) ehdr.shoff
    if headers.1 ≠ ssize (headersSize ehdr) then none else some headers.2

def findSymbolAddr : Option Answer :=
  match readElfHeader file with
  | none => some .failed
  | some ehdr => match readHeaders heap file ehdr with
    | none => some .failed
    | some headers => (search (lookSection heap file name ehdr headers) ehdr.shnum 0).map
        fun answer => answer.getD .failed

/-! What lies inside, as far as the lookup goes. -/
def symbolAt (symbols : Bytes) (j : Nat) : Sym := toSym (entryAt symbols symSize j)

def headerAt (headers : Bytes) (i : Nat) : Shdr := toShdr (entryAt headers shdrSize i)

def Wanted (strtab : Shdr) (symbols strings : Bytes) (j : Nat) : Prop :=
  (symbolAt symbols j).name < strtab.size ∧ name ++ [0] <+: strings.drop (symbolAt symbols j).name ∧
  isDefined (symbolAt symbols j) = true ∧ isCallable (symbolAt symbols j) = true

/- The symbol has all of its bytes, and its name does not break off within the name that is
looked for or right behind it. -/
def SymbolFits (strtab : Shdr) (symbols strings : Bytes) (j : Nat) : Prop :=
  symSize * (j + 1) ≤ symbols.length ∧
  ((symbolAt symbols j).name < strtab.size → ¬ strings.drop (symbolAt symbols j).name <+: name)

def HasTables (ehdr : Ehdr) (headers : Bytes) (i : Nat) (tables : Tables) : Prop :=
  isLinked ehdr (headerAt headers i) = true ∧
  readTables heap file i (headerAt headers i) (headerAt headers (headerAt headers i).link) = tables

def count (symtab : Shdr) : Nat := symtab.size / symtab.entsize

def SectionFits (ehdr : Ehdr) (headers : Bytes) (i : Nat) : Prop :=
  shdrSize * (i + 1) ≤ headers.length ∧
  (isLinked ehdr (headerAt headers i) = true → shdrSize * ((headerAt headers i).link + 1) ≤
    headers.length) ∧
  ∀ symbols strings, HasTables heap file ehdr headers i (.read symbols strings) →
    AllInside (SymbolFits name (headerAt headers (headerAt headers i).link) symbols strings)
      (Wanted name (headerAt headers (headerAt headers i).link) symbols strings)
        (count (headerAt headers i)) 0

def SectionEnds (ehdr : Ehdr) (headers : Bytes) (i : Nat) : Prop :=
  HasTables heap file ehdr headers i .refused ∨
  ∃ symbols strings, HasTables heap file ehdr headers i (.read symbols strings) ∧
    Ended (Wanted name (headerAt headers (headerAt headers i).link) symbols strings)
      (count (headerAt headers i)) 0

def Fits : Prop := ∀ ehdr headers, readElfHeader file = some ehdr →
    readHeaders heap file ehdr = some headers →
  AllInside (SectionFits heap file name ehdr headers) (SectionEnds heap file name ehdr headers)
    ehdr.shnum 0

end

section
variable {heap : Heap} {file name table : Bytes} {strtab : Shdr} {symbols strings text : Bytes}
    {i j size : Nat}

theorem strcmpNone : strcmp text name = none ↔ text <+: name := by
  induction text generalizing name with
  | nil => simp [strcmp]
  | cons c text ih =>
    cases name with
    | nil => simp [strcmp]
    | cons d name =>
      rw [strcmp,List.cons_prefix_cons]
      by_cases same : c = d
      · rw [if_pos same,ih]
        simp [same]
      · rw [if_neg same]
        simp [same]

theorem strcmpSame : strcmp text name = some true ↔ name ++ [0] <+: text := by
  induction text generalizing name with
  | nil => simp [strcmp]
  | cons c text ih =>
    cases name with
    | nil => simp [strcmp,eq_comm (a := c)]
    | cons d name =>
      rw [strcmp,List.cons_append,List.cons_prefix_cons]
      by_cases same : c = d
      · rw [if_pos same,ih]
        simp [same]
      · rw [if_neg same]
        simp [Ne.symm same]

theorem checkedSome (fits : size * (i + 1) ≤ table.length) :
    checked table size i = some (entryAt table size i) := if_pos fits

theorem checkedNone (outside : ¬ size * (i + 1) ≤ table.length) : checked table size i = none :=
  if_neg outside

theorem lookOutside (outside : ¬ symSize * (j + 1) ≤ symbols.length) :
    lookSymbol name strtab symbols strings j = none := by
  rw [lookSymbol,checkedNone outside]

theorem lookUnnamed (fits : symSize * (j + 1) ≤ symbols.length)
    (unnamed : ¬ (symbolAt symbols j).name < strtab.size) :
    lookSymbol name strtab symbols strings j = some none := by
  rw [lookSymbol,checkedSome fits]
  exact if_pos (Nat.not_lt.mp unnamed)

theorem lookNamed (fits : symSize * (j + 1) ≤ symbols.length)
    (named : (symbolAt symbols j).name < strtab.size) :
    lookSymbol name strtab symbols strings j =
      (strcmp (strings.drop (symbolAt symbols j).name) name).map fun same =>
      if same && isDefined (symbolAt symbols j) && isCallable (symbolAt symbols j) then
        some (.found (symbolAt symbols j).value) else none := by
  rw [lookSymbol,checkedSome fits]
  refine (if_neg (Nat.not_le.mpr named)).trans ?_
  unfold symbolAt
  cases strcmp (strings.drop (toSym (entryAt symbols symSize j)).name) name with
  | none => rfl
  | some same => exact (apply_ite some _ _ _).symm

theorem symbolSpec :
    Spec (lookSymbol name strtab symbols strings) (SymbolFits name strtab symbols strings)
    (Wanted name strtab symbols strings) where
  inside j := by
    unfold SymbolFits
    by_cases fits : symSize * (j + 1) ≤ symbols.length
    · by_cases named : (symbolAt symbols j).name < strtab.size
      · simp [lookNamed fits named,fits,named,strcmpNone]
      · simp [lookUnnamed fits named,fits,named]
    · simp [lookOutside fits,fits]
  stops j inside := by
    unfold Wanted
    by_cases named : (symbolAt symbols j).name < strtab.size
    · rw [lookNamed inside.1 named,← strcmpSame]
      cases strcmp (strings.drop (symbolAt symbols j).name) name with
      | none => simp
      | some same => simp [named,and_assoc]
    · simp [lookUnnamed inside.1 named,named]

variable {ehdr : Ehdr} {headers : Bytes}

theorem sectionOutside (outside : ¬ shdrSize * (i + 1) ≤ headers.length) :
    lookSection heap file name ehdr headers i = none := by
  rw [lookSection,checkedNone outside]

theorem sectionSkipped (fits : shdrSize * (i + 1) ≤ headers.length)
    (skipped : isLinked ehdr (headerAt headers i) = false) :
    lookSection heap file name ehdr headers i = some none := by
  rw [lookSection,checkedSome fits]
  exact if_pos (by rw [headerAt] at skipped; rw [skipped]; rfl)

theorem sectionUnlinked (fits : shdrSize * (i + 1) ≤ headers.length)
    (linked : isLinked ehdr (headerAt headers i) = true)
    (outside : ¬ shdrSize * ((headerAt headers i).link + 1) ≤ headers.length) :
    lookSection heap file name ehdr headers i = none := by
  rw [lookSection,checkedSome fits]
  unfold headerAt at linked outside
  simp only [linked,checkedNone outside]
  rfl

theorem sectionLooked (fits : shdrSize * (i + 1) ≤ headers.length)
    (linked : isLinked ehdr (headerAt headers i) = true)
    (inside : shdrSize * ((headerAt headers i).link + 1) ≤ headers.length) :
    lookSection heap file name ehdr headers i = match readTables heap file i (headerAt headers i)
      (headerAt headers (headerAt headers i).link) with
      | .refused => some (some .failed)
      | .unread => some none
      | .read symbols strings =>
          search (lookSymbol name (headerAt headers (headerAt headers i).link) symbols strings)
            (count (headerAt headers i)) 0 := by
  rw [lookSection,checkedSome fits]
  unfold headerAt at linked inside ⊢
  simp only [linked,checkedSome inside]
  rfl

theorem sectionSpec :
    Spec (lookSection heap file name ehdr headers) (SectionFits heap file name ehdr headers)
    (SectionEnds heap file name ehdr headers) where
  inside i := by
    unfold SectionFits HasTables
    by_cases fits : shdrSize * (i + 1) ≤ headers.length
    · cases linked : isLinked ehdr (headerAt headers i) with
      | false => simp [sectionSkipped fits linked,fits]
      | true =>
        by_cases within : shdrSize * ((headerAt headers i).link + 1) ≤ headers.length
        · rw [sectionLooked fits linked within]
          cases readTables heap file i (headerAt headers i)
            (headerAt headers (headerAt headers i).link) with
          | refused => simp [fits,within]
          | unread => simp [fits,within]
          | read symbols strings => simp [fits,within,searchInside symbolSpec]
        · simp [sectionUnlinked fits linked within,within]
    · simp [sectionOutside fits,fits]
  stops i inside := by
    obtain ⟨fits,links,tables⟩ := inside
    unfold SectionEnds
    unfold HasTables at tables ⊢
    cases linked : isLinked ehdr (headerAt headers i) with
    | false => simp [sectionSkipped fits linked]
    | true =>
      rw [sectionLooked fits linked (links linked)]
      cases found : readTables heap file i (headerAt headers i)
        (headerAt headers (headerAt headers i).link) with
      | refused => simp
      | unread => simp
      | read symbols strings => simp [searchEnds symbolSpec (tables symbols strings ⟨linked,found⟩)]

/- Nothing outside of the bytes read is looked at exactly if everything fits as far as the lookup
goes. -/
theorem lookupInside (heap : Heap) (file name : Bytes) : findSymbolAddr heap file name ≠ none ↔
    Fits heap file name := by
  unfold findSymbolAddr Fits
  cases accepted : readElfHeader file with
  | none => simp
  | some ehdr =>
    cases got : readHeaders heap file ehdr with
    | none =>
      refine iff_of_true (by simp [got]) fun ehdr' headers same => ?_
      cases same
      simp [got]
    | some headers =>
      simp only [got,ne_eq,Option.map_eq_none_iff]
      rw [← ne_eq,searchInside sectionSpec]
      constructor
      · intro all ehdr' headers' same same'
        cases same
        rw [got] at same'
        cases same'
        exact all
      · intro all
        exact all ehdr headers rfl got

/-! Files with sections of the usual sizes and names that end. -/
theorem preadWhole {offset : Nat} (small : size < 2^63)
    (whole : (pread file size offset).1 = ssize size) : (pread file size offset).2.length =
    size := by
  unfold pread at whole ⊢
  split at whole
  · rw [ssize,if_pos small] at whole
    omega
  · next low =>
    rw [if_neg low]
    rw [ssize,if_pos small] at whole
    exact Int.ofNat_inj.mp whole

theorem headersRead (got : readHeaders heap file ehdr = some headers) :
    headers.length = headersSize ehdr := by
  unfold readHeaders at got
  split at got
  · cases got
  · next granted =>
    simp only at got
    split at got
    · cases got
    · next whole =>
      cases got
      exact preadWhole (heap.most .headers _ (by simpa using granted)) (not_not.mp whole)

theorem tablesRead {symtab strtab : Shdr}
    (got : readTables heap file i symtab strtab = .read symbols strings) :
    symbols.length = symtab.size ∧ strings.length = strtab.size := by
  unfold readTables at got
  split at got
  · cases got
  · next granted =>
    simp only [Bool.or_eq_true,Bool.not_eq_true',not_or,Bool.not_eq_false] at granted
    simp only at got
    split at got
    · cases got
    · next whole =>
      simp only [not_or,not_not] at whole
      cases got
      exact ⟨preadWhole (heap.most _ _ granted.1) whole.1,
        preadWhole (heap.most _ _ granted.2) whole.2⟩

/- Headers and symbols of at least the usual size, and a NUL behind every name. -/
structure Usual (heap : Heap) (file : Bytes) : Prop where
  headers : ∀ ehdr, readElfHeader file = some ehdr → shdrSize ≤ ehdr.shentsize
  entries : ∀ ehdr headers i, readElfHeader file = some ehdr →
    readHeaders heap file ehdr = some headers → i < ehdr.shnum →
    isLinked ehdr (headerAt headers i) = true → symSize ≤ (headerAt headers i).entsize
  names : ∀ ehdr headers i symbols strings, readElfHeader file = some ehdr →
    readHeaders heap file ehdr = some headers → i < ehdr.shnum →
    HasTables heap file ehdr headers i (.read symbols strings) → strings.getLast? = some 0

theorem headersFit (usual : shdrSize ≤ ehdr.shentsize)
    (got : readHeaders heap file ehdr = some headers) (low : i < ehdr.shnum) :
    shdrSize * (i + 1) ≤ headers.length := by
  have product : shdrSize * (i + 1) ≤ ehdr.shentsize * ehdr.shnum := Nat.mul_le_mul usual low
  rw [headersRead got,headersSize]
  split <;> omega

theorem usualFits (usual : Usual heap file) (plain : 0 ∉ name) : Fits heap file name := by
  intro ehdr headers accepted got i _ low _
  rw [Nat.zero_add] at low
  have large := usual.headers ehdr accepted
  refine ⟨headersFit large got low,fun linked => headersFit large got ?_,
    fun symbols strings tables j _ below _ => ?_⟩
  · unfold isLinked at linked
    simp at linked
    omega
  · have sizes := tablesRead tables.2
    have entries := usual.entries ehdr headers i accepted got low tables.1
    constructor
    · have enough : symSize * (count (headerAt headers i)) ≤ (headerAt headers i).size :=
        Nat.le_trans (Nat.mul_le_mul_right _ entries) (Nat.mul_div_le _ _)
      have more : symSize * (j + 1) ≤ symSize * count (headerAt headers i) :=
        Nat.mul_le_mul_left _ (by omega)
      omega
    · intro named front
      have ends := usual.names ehdr headers i symbols strings accepted got low tables
      have last : (strings.drop (symbolAt symbols j).name).getLast? = some 0 := by
        rw [List.getLast?_drop,if_neg (by omega),ends]
      exact plain (front.subset (List.mem_of_getLast? last))

end

/-! Three files that are accepted and whose tables are too short: headers of one byte, a symbol
table of entries of eight bytes, and a name without its end. -/
section
def elfHeader (shoff shentsize shnum : UInt8) : Bytes :=
  [0x7f,0x45,0x4c,0x46,2,1,1] ++ List.replicate 33 0 ++ [shoff,0,0,0,0,0,0,0] ++
    List.replicate 10 0 ++ [shentsize,0,shnum,0,0,0]

def sectionHeader (type offset size link entsize : UInt8) : Bytes :=
  [0,0,0,0,type,0,0,0] ++ List.replicate 16 0 ++ [offset,0,0,0,0,0,0,0,size,0,0,0,0,0,0,0,link,0,0,
    0] ++ List.replicate 12 0 ++ [entsize,0,0,0,0,0,0,0]

def generous : Heap := ⟨fun _ n => decide (n < 2^63),fun _ _ granted => of_decide_eq_true granted⟩

def shortHeaders : Bytes := elfHeader 0 1 1

def shortEntries : Bytes := elfHeader 64 64 1 ++ sectionHeader 2 0 24 0 8

def openName : Bytes :=
  elfHeader 64 64 2 ++ sectionHeader 2 192 24 1 24 ++ sectionHeader 3 216 2 0 0 ++
    [0,0,0,0,0x12,0,1,0,0x40,0,0,0,0,0,0,0,0,0,0,0,0,0,0,0,0x6d,0x61]

set_option maxRecDepth 4000 in
theorem shortTablesOverrun :
    (readElfHeader shortHeaders ≠ none ∧
      findSymbolAddr generous shortHeaders [0x6d,0x61,0x69,0x6e] = none) ∧
    (readElfHeader shortEntries ≠ none ∧
      findSymbolAddr generous shortEntries [0x6d,0x61,0x69,0x6e] = none) ∧
    (readElfHeader openName ≠ none ∧ findSymbolAddr generous openName [0x6d,0x61,0x69,0x6e] =
      none) := by
  refine ⟨⟨?_,?_⟩,⟨?_,?_⟩,⟨?_,?_⟩⟩ <;> decide

end

end ZeroTrace.ElfSymbols
