import Basic65816.Builder.Reload
import Basic65816.Builder.StringUsage
import Basic65816.Loops.ForNext
import Basic65816.Storage.VariableRuns

/-!
# The variables in an image (`showdump.py`)

`listVariableType` follows the sixteen chains of a type of variables in the image of a workspace, and
writes their names and their data. The characters of a string are read at the address that is the data
of its variable, so that the listing fails if this is no address of a string. In every state of a run
it comes to an end and has the integer and the string variables that have been created, each of them
once.

## Main definitions

* `Builder.BasicBlock.listVariableType`: the listing of the variables of a type
* `Builder.identifierText`, `Builder.dataText`: the name and the data of a variable in the listing

## Main results

* `Builder.identifierText_ident`: the name of a variable
* `Builder.BasicBlock.variable_list`: what is listed in a state of a run
-/

namespace Basic65816.Builder

/-- `_diChar`. -/
def diChar (c : ℕ) : List ℕ := if c = 0 then [] else if c ≤ 26 then [c + 96] else decimal (c - 27)

/-- The format `x`. -/
def hexadecimal (n : ℕ) : List ℕ := (Nat.toDigits 16 n).map Char.toNat

/-- The format `04x`. -/
def hexadecimalWord (n : ℕ) : List ℕ :=
  List.replicate (4 - (hexadecimal n).length) 48 ++ hexadecimal n

/-- The formats `12` and `16` of a text. -/
def padText (n : ℕ) (s : List ℕ) : List ℕ := s ++ List.replicate (n - s.length) 32

/-- Python's `str` of an integer. -/
def integerText (v : ℤ) : List ℕ := (if v < 0 then [45] else []) ++ decimal v.natAbs

/-- What `output` is called with: the name of a variable, the address of its record, the number of its
chain and its data. -/
structure Shown where
  identifier : List ℕ
  address : ℕ
  hashEntry : ℕ
  data : List ℕ
  deriving DecidableEq, Repr

/-- `output`: the line of a variable. -/
def output (v : Shown) : List ℕ :=
  9 :: padText 12 v.identifier ++ 32 :: 35 :: hexadecimal v.hashEntry ++ ord " @$" ++
    hexadecimalWord v.address ++ ord " : " ++ v.data ++ [10]

/-- The headline of a type. -/
def headline (typeName : List ℕ) (hashTableBase : ℕ) : List ℕ :=
  10 :: ord "Type : " ++ padText 16 typeName ++ ord " Hash Table at : $" ++
    hexadecimalWord hashTableBase ++ [10]

namespace BasicBlock

/-- `_formatItem`. No address below the base address can be read. -/
def formatItem (b : BasicBlock) (item : ℤ) (isString : Bool) : Option (List ℕ) :=
  if !isString then some (integerText item)
  else if item = 0 then some (ord "*BUG*")
  else if item < 0 then none
  else do
    let length ← b.readByte item.toNat
    let s ← (List.range length).mapM fun i => b.readByte (item.toNat + 1 + i)
    some (34 :: s ++ 34 :: ord "@$" ++ hexadecimalWord item.toNat)

/-- `_formatList`. -/
def formatList (b : BasicBlock) (dataList : List ℤ) (isString isArray : Bool) : Option (List ℕ) := do
  let items ← dataList.mapM fun item => b.formatItem item isString
  let slist := (ord ",").intercalate items
  some (if isArray then ord "[" ++ slist ++ ord "]" else slist)

/-- `readLong`. -/
def readLong (b : BasicBlock) (addr : ℕ) : Option ℤ := do
  let low ← b.readWord addr
  let high ← b.readWord (addr + 2)
  let val := low + 0x10000 * high
  some (if val &&& 0x80000000 ≠ 0 then (val : ℤ) - 0x100000000 else val)

/-- The loop of `decodeIdentifier`. Every round moves `addr` upwards, so that the block size bounds
the number of rounds before an assertion fails. -/
def decodeIdentifierLoop (b : BasicBlock) : ℕ → ℕ → Option (List ℕ)
  | 0, _ => none
  | n + 1, addr => do
    let token ← b.readWord addr
    let t1 := token &&& 0x07FF
    let s := diChar (t1 % 45) ++ diChar (t1 / 45)
    if token &&& 0x0800 = 0 then some s
    else do
      let more ← b.decodeIdentifierLoop n (addr + 2)
      some (s ++ more)

/-- `decodeIdentifier`. -/
def decodeIdentifier (b : BasicBlock) (addr : ℕ) : Option (List ℕ) := do
  let firstToken ← b.readWord addr
  let s ← b.decodeIdentifierLoop (b.blockSize + 1) addr
  some ((s ++ ((if firstToken &&& 0x2000 ≠ 0 then [36] else []) ++
    if firstToken &&& 0x1000 ≠ 0 then [40, 41] else [])).map lowerChar)

/-- A long of the record; the data of a string is compared with the low memory pointer. -/
def readData (b : BasicBlock) (typeID addr : ℕ) : Option ℤ := do
  let v ← b.readLong addr
  if 2 ≤ typeID then do
    let _ ← b.readWord (b.baseAddress + blockLowMemoryPtr)
    some v
  else some v

/-- The data of the record at `addr`. The word behind the links of an array is taken as its largest
subscript. -/
def variableData (b : BasicBlock) (typeID addr : ℕ) : Option (List ℤ) :=
  if typeID % 2 = 0 then do
    let v ← b.readData typeID (addr + 4)
    some [v]
  else do
    let last ← b.readWord (addr + 4)
    (List.range (last + 1)).mapM fun i => b.readData typeID (i * 4 + (addr + 6))

/-- The records of a chain. If the links have an end there are no more of them than bytes. -/
def followChain (b : BasicBlock) (typeID hashEntry : ℕ) : ℕ → ℕ → Option (List Shown)
  | 0, _ => none
  | n + 1, addr =>
    if addr ≠ 0 then do
      let data ← b.variableData typeID addr
      let name ← b.readWord (addr + 2)
      let name ← b.decodeIdentifier name
      let data ← b.formatList data (2 ≤ typeID) (typeID % 2 ≠ 0)
      let next ← b.readWord addr
      let more ← b.followChain typeID hashEntry n next
      some (⟨name, addr, hashEntry, data⟩ :: more)
    else some []

/-- The part of the hash table that `listVariables` has a type listed from. -/
def typeHashTable (b : BasicBlock) (typeID : ℕ) : ℕ :=
  b.baseAddress + blockHashTable + blockHashTableEntrySize * typeID * 2

/-- `listVariableType`: what is written. -/
def listVariableType (b : BasicBlock) (hashTableBase typeID : ℕ) (typeName : List ℕ) :
    Option (List ℕ) := do
  let out ← (List.range blockHashTableEntrySize).mapM fun hashEntry => do
    let addr ← b.readWord (hashTableBase + hashEntry * 2)
    b.followChain typeID hashEntry (b.blockSize + 1) addr
  some (headline typeName hashTableBase ++ out.flatten.flatMap output)

end BasicBlock

/-! ## Names -/

/-- The characters of one word of an identifier. -/
def wordText (w : ℕ) : List ℕ := diChar ((w &&& 0x07FF) % 45) ++ diChar ((w &&& 0x07FF) / 45)

/-- The name that is put out for an identifier. -/
def identifierText (ws : List ℕ) : List ℕ :=
  (ws.flatMap wordText ++ ((if ws.headD 0 &&& 0x2000 ≠ 0 then [36] else []) ++
    if ws.headD 0 &&& 0x1000 ≠ 0 then [40, 41] else [])).map lowerChar

section

variable {c : ℕ} {name : List ℕ}

theorem diChar_convert (hc : isNameChar c) : diChar (convert c) = [lowerChar c] := by
  simp only [isNameChar, Bool.or_eq_true, Bool.and_eq_true, decide_eq_true_eq] at hc
  unfold diChar convert lowerChar
  split_ifs <;> first | omega | (rw [decimal_of_lt (by omega)]; congr 1; omega) | (congr 1; omega)

theorem wordText_ident (isString isArray more : Bool) {x : ℕ} (hx : x < 0x800) :
    wordText (typeBits isString isArray + x + if more then 0x0800 else 0) =
      diChar (x % 45) ++ diChar (x / 45) := by
  obtain ⟨-, hlow, -⟩ := identWord_fields isString isArray more hx
  have hmask := (Nat.and_two_pow_sub_one_eq_mod _ 11).trans hlow
  unfold wordText
  rw [show (0x07FF : ℕ) = 2 ^ 11 - 1 from rfl, hmask]

/-- By pairs of characters. -/
theorem flatMap_wordText (isString isArray : Bool) {cs : List ℕ} (hcs : cs ≠ [])
    (hcode : ∀ c ∈ cs, IsCode c) :
    (identWords isString isArray (padEven cs)).flatMap wordText = cs.flatMap diChar := by
  match cs with
  | [a] =>
    have ha := hcode a (by simp)
    unfold IsCode at ha
    have hone := wordText_ident (x := a) isString isArray false (by omega)
    rw [show a % 45 = a by omega, show a / 45 = 0 by omega] at hone
    rw [identWords_single]
    simpa [diChar] using hone
  | a :: b :: cs =>
    have ha := hcode a (by simp)
    have hb := hcode b (by simp)
    unfold IsCode at ha hb
    have hone := wordText_ident (x := a + b * 45) isString isArray (cs ≠ []) (by omega)
    rw [show (a + b * 45) % 45 = a by omega, show (a + b * 45) / 45 = b by omega] at hone
    rw [identWords_cons_cons, List.flatMap_cons]
    by_cases hc : cs = []
    · subst hc
      simpa [identWords, padEven] using hone
    · rw [flatMap_wordText isString isArray hc fun d hd => hcode d (by simp [hd])]
      simp only [hc, ne_eq, not_false_eq_true, decide_true, if_true, if_false] at hone ⊢
      rw [hone]
      simp only [List.flatMap_cons, List.append_assoc]

theorem flatMap_diChar {w : List ℕ} (hw : ∀ c ∈ w, isNameChar c) :
    (w.map convert).flatMap diChar = w.map lowerChar := by
  induction w with
  | nil => rfl
  | cons c w ih =>
    rw [List.map_cons, List.flatMap_cons, diChar_convert (hw c (by simp)),
      ih fun d hd => hw d (by simp [hd])]
    rfl

theorem lowerChar_lowerChar (c : ℕ) : lowerChar (lowerChar c) = lowerChar c := by
  unfold lowerChar
  split_ifs <;> omega

/-- The first word of an identifier tells its type. -/
theorem headD_ident (h : Named name) (isString isArray : Bool) :
    ((Item.ident name isString isArray).words.headD 0 &&& 0x2000 = 0 ↔ isString = false) ∧
      ((Item.ident name isString isArray).words.headD 0 &&& 0x1000 = 0 ↔ isArray = false) := by
  obtain ⟨hne, hcodes⟩ := convert_codes h
  obtain ⟨ws, w, hwords, -, -, hall⟩ := identWords_form isString isArray hne hcodes
  change ((identWords isString isArray (padEven (name.map convert))).headD 0 &&& 0x2000 = 0 ↔ _) ∧
    ((identWords isString isArray (padEven (name.map convert))).headD 0 &&& 0x1000 = 0 ↔ _)
  rw [hwords]
  have hmem : (ws ++ [w]).headD 0 ∈ ws ++ [w] := by
    cases ws with
    | nil => exact List.mem_singleton_self w
    | cons u us => exact List.mem_cons_self ..
  exact (hall _ hmem).2

/-- **The name of a variable** is put out in small letters, with its `$` and a pair of brackets. -/
theorem identifierText_ident (h : Named name) (isString isArray : Bool) :
    identifierText (Item.ident name isString isArray).words =
      name.map lowerChar ++ ((if isString then [36] else []) ++ if isArray then [40, 41] else []) := by
  obtain ⟨hne, hcodes⟩ := convert_codes h
  obtain ⟨hstring, harray⟩ := headD_ident h isString isArray
  have htext : (Item.ident name isString isArray).words.flatMap wordText = name.map lowerChar :=
    (flatMap_wordText isString isArray hne hcodes).trans (flatMap_diChar h.chars)
  unfold identifierText
  simp only [htext, ne_eq, hstring, harray, List.map_append, List.map_map]
  congr 1
  · exact List.map_congr_left fun c _ => lowerChar_lowerChar c
  · cases isString <;> cases isArray <;> rfl

/-- The chains of a type. -/
theorem chainOf_ident (h : Named name) (isString isArray : Bool) :
    chainOf ((Item.ident name isString isArray).words.headD 0) / blockHashTableEntrySize =
      (if isString then 2 else 0) + if isArray then 1 else 0 := by
  obtain ⟨hstring, harray⟩ := headD_ident h isString isArray
  generalize (Item.ident name isString isArray).words.headD 0 = t at hstring harray ⊢
  have hhash : t &&& blockHashMask ≤ 15 := Nat.and_le_right
  have hmask : t &&& (idTypeMask + idArrayMask) = (t &&& 2 ^ 13) ||| (t &&& 2 ^ 12) := by
    rw [← Nat.and_or_distrib_left]
    rfl
  change t &&& 2 ^ 13 = 0 ↔ _ at hstring
  change t &&& 2 ^ 12 = 0 ↔ _ at harray
  unfold chainOf blockHashTableEntrySize
  have hbit : ∀ (k : ℕ) (flag : Bool), (t &&& 2 ^ k = 0 ↔ flag = false) →
      t &&& 2 ^ k = if flag then 2 ^ k else 0 := by
    intro k flag h
    rw [Nat.and_two_pow] at h ⊢
    generalize t.testBit k = bit at h ⊢
    cases flag <;> cases bit <;> simp_all
  rw [hmask, hbit 13 isString hstring, hbit 12 isArray harray]
  cases isString <;> cases isArray <;> simp <;> omega

end

namespace BasicBlock

/-! ## The walk -/

/-- What is put out for the data at `y`: the value of an integer, the characters of a string and its
address. -/
def dataText (m : Machine) (isString : Bool) (y : ℕ) : List ℕ :=
  if !isString then integerText (signedLong (m.index y))
  else if m.bank.word y = 0 then ord "*BUG*"
  else 34 :: m.bank.bytes (m.bank.word y + 1) (m.bank.byte (m.bank.word y)) ++ 34 :: ord "@$" ++
    hexadecimalWord (m.bank.word y)

/-- What is put out for the variable with the identifier and the data address `e`. -/
def shown (m : Machine) (e : List ℕ × ℕ) : Shown :=
  ⟨identifierText e.1, e.2 - 4, chainOf (e.1.headD 0) % blockHashTableEntrySize,
    dataText m (2 ≤ identifierType e.1) e.2⟩

section

variable {b : BasicBlock} {m : Machine} {a n k y typeID lo : ℕ} {ws bs : List ℕ} {r : Record}
  {rs : List Record} {ys : Set ℕ}

theorem mapM_eq_some_map {α β : Type} {f : α → Option β} {g : α → β} {l : List α}
    (h : ∀ x ∈ l, f x = some (g x)) : l.mapM f = some (l.map g) := by
  induction l with
  | nil => rfl
  | cons x l ih =>
    rw [List.mapM_cons, h x (List.mem_cons_self ..), ih fun y hy => h y (List.mem_cons_of_mem _ hy)]
    rfl

theorem Images.readLong (h : b.Images m) (ha : m.dBaseAddress ≤ a) (hlt : a + 3 < m.dHighAddress) :
    b.readLong a = some (signedLong (m.index a)) := by
  have hlow := m.bank.word_lt a
  have hhigh := m.bank.word_lt (a + 2)
  have hsign : (m.bank.word a + 0x10000 * m.bank.word (a + 2)) &&& 0x80000000 = 0 ↔
      (m.bank.word a + 0x10000 * m.bank.word (a + 2)) / 2 ^ 31 % 2 = 0 :=
    and_two_pow_eq_zero _ 31
  rw [BasicBlock.readLong, h.readWord ha (by omega), h.readWord (by omega) (by omega)]
  simp only [Option.bind_eq_bind, Option.bind_some]
  refine congrArg some ?_
  unfold signedLong Machine.index
  dsimp only
  by_cases hneg : m.bank.word (a + 2) < 0x8000
  · rw [if_neg (not_not_intro (hsign.mpr (by omega))), if_pos hneg]
    push_cast
    rfl
  · rw [if_pos (fun hzero => by have := hsign.mp hzero; omega), if_neg hneg]
    push_cast
    rfl

theorem Images.decodeIdentifierLoop (h : b.Images m) (hi : Identifier ws)
    (hw : m.bank.WordsAt a ws) (ha : m.dBaseAddress ≤ a)
    (hlt : a + 2 * ws.length ≤ m.dHighAddress) (hn : ws.length ≤ n) :
    b.decodeIdentifierLoop n a = some (ws.flatMap wordText) := by
  induction hi generalizing a n with
  | last hw' hcont =>
    obtain ⟨n, rfl⟩ := Nat.exists_eq_add_of_le' hn
    simp only [List.length_singleton] at hlt
    rw [List.length_singleton, BasicBlock.decodeIdentifierLoop, h.readWord ha (by omega), hw.1]
    simp only [Option.bind_eq_bind, Option.bind_some]
    rw [if_pos (show _ &&& 0x0800 = 0 from hcont), List.flatMap_singleton]
    rfl
  | more hw' hcont hi ih =>
    obtain ⟨n, rfl⟩ := Nat.exists_eq_add_of_le' hn
    simp only [List.length_cons] at hlt
    have hmore := ih hw.2 (n := n + _) (by omega) (by omega) (Nat.le_add_left _ n)
    rw [List.length_cons, ← Nat.add_assoc, BasicBlock.decodeIdentifierLoop,
      h.readWord ha (by omega), hw.1]
    simp only [Option.bind_eq_bind, Option.bind_some]
    rw [if_neg (show ¬ _ &&& 0x0800 = 0 from hcont), hmore]
    rfl

theorem Images.decodeIdentifier (h : b.Images m) (hi : Identifier ws) (hw : m.bank.WordsAt a ws)
    (ha : m.dBaseAddress ≤ a) (hlt : a + 2 * ws.length ≤ m.dHighAddress) :
    b.decodeIdentifier a = some (identifierText ws) := by
  have hbase := h.base
  have htop := h.top
  unfold endAddress at htop
  have hpos : 1 ≤ ws.length := by cases hi <;> simp
  have hfirst : m.bank.word a = ws.headD 0 := by
    cases hi with
    | last => exact hw.1
    | more => exact hw.1
  rw [BasicBlock.decodeIdentifier, h.readWord ha (by omega),
    h.decodeIdentifierLoop hi hw ha hlt (by omega), hfirst]
  rfl

/-- The string of a cell: its characters are in the block. -/
theorem Images.formatItem_cell (h : b.Images m) (hh : m.Heap ys bs) (hy : y ∈ ys)
    (hzero : m.bank.word (y + 2) = 0) :
    b.formatItem (signedLong (m.index y)) true = some (dataText m true y) := by
  have hvalue : signedLong (m.index y) = (m.bank.word y : ℤ) := by
    unfold signedLong Machine.index
    dsimp only
    rw [hzero, if_pos (by decide)]
    exact Int.add_zero _
  rw [hvalue, BasicBlock.formatItem, dataText]
  simp only [Bool.not_true, Bool.false_eq_true, if_false]
  by_cases hne : m.bank.word y = 0
  · rw [if_pos hne, if_pos (by omega)]
  · obtain ⟨c, hc, hword, -⟩ := hh.block_of_cell hy hne
    have habove := hh.above hc
    have hfits := hh.fits c hc
    have hlow := hh.low
    have hfree := hh.free
    rw [hword, if_neg (by omega), if_neg (by omega), if_neg (Nat.succ_ne_zero c), Int.toNat_natCast,
      h.readByte (by omega) (by omega)]
    -- the characters end before the block does
    have hchars : (List.range (m.bank.byte (c + 1))).mapM (fun i => b.readByte (c + 1 + 1 + i)) =
        some ((List.range (m.bank.byte (c + 1))).map fun i => m.bank.byte (c + 1 + 1 + i)) :=
      mapM_eq_some_map fun i hi => by
        have hi := List.mem_range.mp hi
        exact h.readByte (by omega) (by omega)
    simp only [Option.bind_eq_bind, Option.bind_some, hchars]
    rfl

/-- The data of a record. -/
theorem Images.recordData (h : b.Images m) (htype : typeID % 2 = 0) (hr : identifierType r.words = typeID)
    (ha : m.dBaseAddress + 0x200 ≤ r.address) (hlt : r.address + 8 ≤ m.dHighAddress)
    (hitem : 2 ≤ typeID → b.formatItem (signedLong (m.index (r.address + 4))) true =
      some (dataText m true (r.address + 4))) :
    (b.variableData typeID r.address >>= fun data =>
      b.formatList data (2 ≤ typeID) (typeID % 2 ≠ 0)) =
      some (dataText m (2 ≤ identifierType r.words) (r.address + 4)) := by
  have hbase := h.base
  have hlong := h.readLong (a := r.address + 4) (by omega) (by omega)
  have hdata : b.readData typeID (r.address + 4) = some (signedLong (m.index (r.address + 4))) := by
    rw [BasicBlock.readData, hlong, hbase, h.readWord (by omega)
      (by unfold blockLowMemoryPtr; omega)]
    simp
  have hformat : b.formatItem (signedLong (m.index (r.address + 4))) (2 ≤ typeID) =
      some (dataText m (2 ≤ typeID) (r.address + 4)) := by
    by_cases hstring : 2 ≤ typeID
    · rw [decide_eq_true hstring]
      exact hitem hstring
    · rw [decide_eq_false hstring]
      rfl
  rw [BasicBlock.variableData, if_pos htype, hdata, hr]
  simp only [Option.bind_eq_bind, Option.bind_some, BasicBlock.formatList, List.mapM_cons,
    List.mapM_nil, hformat]
  simp [htype, List.intercalate]

/-- The records of one chain. -/
theorem Images.followChain (h : b.Images m)
    (hc : m.bank.ChainAt a (rs.map Record.address)) (hn : rs.length < n)
    (hrs : ∀ r ∈ rs, r.At m.bank ∧ m.dBaseAddress ≤ r.address ∧ r.address + 8 ≤ m.dHighAddress ∧
      m.dBaseAddress ≤ r.name ∧ r.name + 2 * r.words.length ≤ m.dHighAddress ∧
        r.chain % blockHashTableEntrySize = k)
    (hdata : ∀ r ∈ rs, (b.variableData typeID r.address >>= fun data =>
      b.formatList data (2 ≤ typeID) (typeID % 2 ≠ 0)) =
        some (dataText m (2 ≤ identifierType r.words) (r.address + 4))) :
    b.followChain typeID k n (m.bank.word a) = some (rs.map fun r => shown m r.entry) := by
  induction rs generalizing a n with
  | nil =>
    obtain ⟨n, rfl⟩ := Nat.exists_eq_add_of_lt hn
    have hend : m.bank.word a = 0 := hc
    rw [BasicBlock.followChain, if_neg (not_not_intro hend)]
    rfl
  | cons r rs ih =>
    obtain ⟨n, rfl⟩ := Nat.exists_eq_add_of_lt hn
    obtain ⟨hne, hword, hc⟩ := hc
    obtain ⟨hat, h₁, h₂, h₃, h₄, hk⟩ := hrs r (List.mem_cons_self ..)
    have hmore := ih hc (n := (r :: rs).length + n) (by rw [List.length_cons]; omega)
      (fun s hs => hrs s (List.mem_cons_of_mem _ hs)) fun s hs => hdata s (List.mem_cons_of_mem _ hs)
    -- the reads of the loop in their order: data, name, identifier, link
    obtain ⟨data, hdata, hformat⟩ := Option.bind_eq_some_iff.mp (hdata r (List.mem_cons_self ..))
    rw [BasicBlock.followChain, hword, if_pos hne, hdata, h.readWord (by omega) (by omega),
      hat.pointer, h.readWord h₁ (by omega)]
    simp only [Option.bind_eq_bind, Option.bind_some]
    rw [h.decodeIdentifier hat.ident hat.spelling h₃ h₄, Option.bind_some, hformat, Option.bind_some,
      hmore]
    simp only [Option.bind_some, List.map_cons]
    rw [← hk]
    rfl

/-- The elements of a list with the keys from `k` to `k + n`, key by key. -/
theorem flatMap_filter_perm {α : Type} (l : List α) (f : α → ℕ) (k n : ℕ) :
    ((List.range n).flatMap fun c => l.filter fun x => f x = k + c).Perm
      (l.filter fun x => k ≤ f x ∧ f x < k + n) := by
  induction n with
  | zero =>
    refine .of_eq (List.filter_eq_nil_iff.mpr fun x _ => ?_).symm
    simp
  | succ n ih =>
    rw [List.range_succ, List.flatMap_append, List.flatMap_singleton]
    refine (ih.append_right _).trans ?_
    refine .trans (.of_eq ?_) (List.filter_append_perm (fun x => f x < k + n)
      (l.filter fun x => k ≤ f x ∧ f x < k + (n + 1)))
    rw [List.filter_filter, List.filter_filter]
    congr 1
    · refine List.filter_congr fun x _ => ?_
      rw [← Bool.decide_and, decide_eq_decide]
      omega
    · refine List.filter_congr fun x _ => ?_
      rw [← decide_not, ← Bool.decide_and, decide_eq_decide]
      omega

/-- The lists of the chains of a type together. -/
theorem Images.listVariableType (h : b.Images m) (hs : m.Store lo rs)
    (hroom : m.block blockLowMemoryPtr ≤ m.dHighAddress) (htype : typeID < 4 ∧ typeID % 2 = 0)
    (hitems : 2 ≤ typeID → ∀ r ∈ rs, identifierType r.words = typeID →
      b.formatItem (signedLong (m.index (r.address + 4))) true =
        some (dataText m true (r.address + 4))) (typeName : List ℕ) :
    ∃ out : List Shown, b.listVariableType (b.typeHashTable typeID) typeID typeName =
        some (headline typeName (b.typeHashTable typeID) ++ out.flatMap output) ∧
      out.Perm ((rs.filter fun r => identifierType r.words = typeID).map
        fun r => shown m r.entry) := by
  obtain ⟨hlt, heven⟩ := htype
  have hbase := h.base
  have htop := h.top
  have hprogram := hs.program
  have hlow := hs.low
  unfold blockProgramStart at hprogram
  unfold endAddress at htop
  have hchain : ∀ c ∈ List.range blockHashTableEntrySize,
      (do
        let addr ← b.readWord (b.typeHashTable typeID + c * 2)
        b.followChain typeID c (b.blockSize + 1) addr) =
      some ((rs.filter fun r => r.chain = blockHashTableEntrySize * typeID + c).map
        fun r => shown m r.entry) := by
    intro c hc
    replace hc : c < 16 := List.mem_range.mp hc
    have hhead : b.typeHashTable typeID + c * 2 =
        m.chainHead (blockHashTableEntrySize * typeID + c) := by
      unfold typeHashTable Machine.chainHead
      omega
    have hplace : m.dBaseAddress ≤ m.chainHead (blockHashTableEntrySize * typeID + c) ∧
        m.chainHead (blockHashTableEntrySize * typeID + c) + 1 < m.dHighAddress := by
      unfold Machine.chainHead blockHashTable blockHashTableEntrySize
      omega
    have hlinks := hs.chains (blockHashTableEntrySize * typeID + c) (by
      unfold blockHashTableEntrySize
      omega)
    -- the records of this chain
    obtain ⟨rs', hrs'⟩ : ∃ rs', rs' =
      rs.filter fun r => r.chain = blockHashTableEntrySize * typeID + c := ⟨_, rfl⟩
    have hmem : ∀ r ∈ rs', r ∈ rs ∧ r.chain = blockHashTableEntrySize * typeID + c := by
      intro r hr
      rw [hrs'] at hr
      obtain ⟨hr, hk⟩ := List.mem_filter.mp hr
      exact ⟨hr, of_decide_eq_true hk⟩
    rw [← hrs'] at hlinks ⊢
    have hplaces : ∀ r ∈ rs', m.dBaseAddress ≤ r.address ∧ r.address + 8 ≤ m.dHighAddress := by
      intro r hr
      have := hs.places r (hmem r hr).1
      omega
    -- the records are at different addresses
    have hlength : rs'.length ≤ b.blockSize := by
      have hcard := Finset.card_le_card (s := (rs'.map Record.address).toFinset)
        (t := Finset.Ico m.dBaseAddress m.dHighAddress) (by
          intro x hx
          obtain ⟨r, hr, rfl⟩ := List.mem_map.mp (List.mem_toFinset.mp hx)
          have := hplaces r hr
          exact Finset.mem_Ico.mpr (by omega))
      rw [List.toFinset_card_of_nodup hlinks.nodup, List.length_map, Nat.card_Ico] at hcard
      omega
    rw [hhead, h.readWord hplace.1 hplace.2, Option.bind_eq_bind, Option.bind_some]
    refine h.followChain hlinks (Nat.lt_succ_of_le hlength) (fun r hr => ?_) fun r hr => ?_
    · obtain ⟨hr', hk⟩ := hmem r hr
      have := hs.places r hr'
      refine ⟨hs.records r hr', (hplaces r hr).1, (hplaces r hr).2, by omega, by omega, ?_⟩
      rw [hk, Nat.mul_add_mod]
      exact Nat.mod_eq_of_lt hc
    · obtain ⟨hr', hk⟩ := hmem r hr
      have htypes : identifierType r.words = typeID := by
        change r.chain / blockHashTableEntrySize = typeID
        unfold blockHashTableEntrySize at hk ⊢
        omega
      have := hs.places r hr'
      exact h.recordData heven htypes (by omega) (hplaces r hr).2
        fun hstring => hitems hstring r hr' htypes
  refine ⟨(List.range blockHashTableEntrySize).flatMap fun c =>
    (rs.filter fun r => r.chain = blockHashTableEntrySize * typeID + c).map
      fun r => shown m r.entry, ?_, ?_⟩
  · rw [BasicBlock.listVariableType, List.flatMap_def]
    rw [mapM_eq_some_map hchain]
    rfl
  · -- sixteen chains, one behind the other
    rw [← List.map_flatMap]
    refine List.Perm.map _ ((flatMap_filter_perm rs Record.chain _ _).trans (.of_eq ?_))
    refine List.filter_congr fun r _ => ?_
    rw [decide_eq_decide]
    change _ ↔ r.chain / blockHashTableEntrySize = typeID
    unfold blockHashTableEntrySize
    omega

/-- **The list of the variables.** In every state of a run the integer variables and the string
variables that have been created are listed, each of them once, with the value of the integer or the
characters and the address of the string. -/
theorem variable_list {p : Program} {es : List (List ℕ × ℕ)} {fs : List StackFrame}
    (h : VariableRun p m es fs) (hb : b.Images m) :
    (∀ (isString : Bool) (typeName : List ℕ), ∃ out : List Shown,
      b.listVariableType (b.typeHashTable (if isString then 2 else 0)) (if isString then 2 else 0)
        typeName = some (headline typeName (b.typeHashTable (if isString then 2 else 0)) ++
          out.flatMap output) ∧
      out.Perm ((es.filter fun e => identifierType e.1 = if isString then 2 else 0).map (shown m))) ∧
    ∀ (name : List ℕ) (isString isArray : Bool), Named name →
      identifierType (Item.ident name isString isArray).words =
        (if isString then 2 else 0) + (if isArray then 1 else 0) ∧
      identifierText (Item.ident name isString isArray).words = name.map lowerChar ++
        ((if isString then [36] else []) ++ if isArray then [40, 41] else []) := by
  refine ⟨fun isString typeName => ?_, fun name isString isArray hname =>
    ⟨chainOf_ident hname isString isArray, identifierText_ident hname isString isArray⟩⟩
  obtain ⟨hstore, hstring, hzero⟩ := h.runs
  obtain ⟨rs, hs, rfl⟩ := hstore.store
  obtain ⟨bs, hheap⟩ := hstring.strings.heap
  have hroom : m.block blockLowMemoryPtr ≤ m.dHighAddress := hheap.free.trans hheap.tiled.le
  have htype : (if isString then 2 else 0) < 4 ∧ (if isString then 2 else 0) % 2 = 0 := by
    cases isString <;> decide
  -- the data of a string variable is a cell of the heap, so that its string can be read
  obtain ⟨out, hout, hperm⟩ := hb.listVariableType hs hroom htype (fun hlt r hr ht => by
    have hcell : r.address + 4 ∈ stringCells (rs.map Record.entry) := by
      refine ⟨r.words, List.mem_map_of_mem hr, ?_⟩
      cases isString
      · exact absurd hlt (by decide)
      · exact ht
    exact hb.formatItem_cell hheap hcell (hzero _ hcell)) typeName
  refine ⟨out, hout, hperm.trans (.of_eq ?_)⟩
  rw [List.filter_map, List.map_map]
  rfl

/-- The listing with `ab=7` and `s$="A"`. -/
theorem variable_list_two : ∃ (m : Machine) (b : BasicBlock) (y z : ℕ), b.Images m ∧
    b.listVariableType 0x4080 0 (ord "Integer") = some
      (headline (ord "Integer") 0x4080 ++ output ⟨ord "ab", y - 4, 0xB, ord "7"⟩) ∧
    b.listVariableType 0x40C0 2 (ord "String") = some (headline (ord "String") 0x40C0 ++
      output ⟨ord "s$", z - 4, 3, 34 :: 65 :: 34 :: ord "@$" ++ hexadecimalWord (m.bank.word z)⟩) := by
  obtain ⟨m, y, z, hrun, hbase, htop, hlow, hhigh, hne, hstring⟩ := VariableRun.two_variables
  have hb : Images ⟨m.dBaseAddress, m.dHighAddress - m.dBaseAddress,
      fun i => m.bank (m.dBaseAddress + i), false, 0⟩ m :=
    ⟨rfl, by unfold endAddress; dsimp only; omega, fun _ _ => rfl⟩
  obtain ⟨hlist, -⟩ := variable_list hrun hb
  obtain ⟨out, hout, hperm⟩ := hlist false (ord "Integer")
  obtain ⟨out', hout', hperm'⟩ := hlist true (ord "String")
  have hinteger : identifierType [0xC05B] = 0 := by decide
  have htype : identifierType [0xE013] = 2 := by decide
  have hout₁ : out = [shown m ([0xC05B], y)] := by
    simpa [hinteger, htype] using hperm
  have hout₂ : out' = [shown m ([0xE013], z)] := by
    simpa [hinteger, htype] using hperm'
  -- the two lines
  have hvalue : signedLong (m.index y) = 7 := by
    unfold Machine.index
    rw [hlow, hhigh]
    rfl
  have hab : shown m ([0xC05B], y) = ⟨ord "ab", y - 4, 0xB, ord "7"⟩ := by
    have hdata : dataText m false y = integerText 7 := congrArg integerText hvalue
    unfold shown
    dsimp only
    rw [hinteger, show (decide (2 ≤ 0)) = false by decide, hdata]
    have hname : identifierText [0xC05B] = ord "ab" := by decide
    have hchain : chainOf 0xC05B % blockHashTableEntrySize = 0xB := by decide
    have hseven : integerText 7 = ord "7" := by decide
    rw [hname, hseven]
    exact congrArg (Shown.mk _ _ · _) hchain
  have hs : shown m ([0xE013], z) =
      ⟨ord "s$", z - 4, 3, 34 :: 65 :: 34 :: ord "@$" ++ hexadecimalWord (m.bank.word z)⟩ := by
    have hdata : dataText m true z =
        34 :: 65 :: 34 :: ord "@$" ++ hexadecimalWord (m.bank.word z) := by
      have hlength : m.bank.byte (m.bank.word z) = 1 := hstring.1
      have hchars : m.bank.bytes (m.bank.word z + 1) 1 = [65] := hstring.2.eq_bytes
      unfold dataText
      rw [if_neg (by decide), if_neg hne, hlength, hchars]
      rfl
    have hname : identifierText [0xE013] = ord "s$" := by decide
    have hchain : chainOf 0xE013 % blockHashTableEntrySize = 3 := by decide
    unfold shown
    dsimp only
    rw [htype, show (decide (2 ≤ 2)) = true by decide, hdata, hname]
    exact congrArg (Shown.mk _ _ · _) hchain
  have htable : ∀ typeID, typeHashTable ⟨m.dBaseAddress, m.dHighAddress - m.dBaseAddress,
      fun i => m.bank (m.dBaseAddress + i), false, 0⟩ typeID = 0x4080 + 0x10 * typeID * 2 := by
    intro typeID
    unfold typeHashTable
    dsimp only
    rw [hbase]
    rfl
  rw [hout₁, hab, List.flatMap_singleton, htable] at hout
  rw [hout₂, hs, List.flatMap_singleton, htable] at hout'
  exact ⟨m, _, y, z, hb, hout, hout'⟩

end

end BasicBlock

end Basic65816.Builder
