import Basic65816.Arithmetic.Long
import Basic65816.Stack.Statements
import Basic65816.Storage.Runs
import Basic65816.Strings.Temporary

/-!
# Arrays

`dim` allocates the elements of an array in front of the low memory pointer. It counts and adds in
sixteen bits, and looks at the carry of some of the steps only.

## Main definitions

* `dimSize`: what `dim` does in front of the allocation
* `Machine.InOrder`: the memory pointers in front of the allocation
* `Machine.Dims`, `SubscriptsWithin`: an array lies in free memory, and its subscripts stay within it
* `dimOverruns`: the largest subscripts for which a carry is lost

## Main results

* `dimArray_eq`: `dim` in two parts
* `dimArray_sound`: when `dim` makes an array or fails
-/

namespace Basic65816

/-- The part of `dim` in front of the allocation: the data address of the new variable, and the
largest subscript. -/
def dimSize (fuel : ℕ) (m : Machine) : Result (ℕ × Value × Machine) := do
  if m.token &&& idArrayMask = 0 then fail m .badDim
  else do
    let (data, m) ← variableFind fuel m
    match data with
    | some _ => fail m .cannotRedimension
    | none =>
      let (a, m) ← variableCreate fuel m
      let (v, m) ← evaluateInteger fuel m
      let m ← expectRightBracket m
      .ok (a, v, m)

/-- The memory pointers are in order, and the data at `a` of a variable lies below them. -/
structure Machine.InOrder (m : Machine) (a : ℕ) : Prop where
  data : m.dBaseAddress + blockNullString ≤ a
  low : a + 2 ≤ m.block blockLowMemoryPtr
  high : m.block blockLowMemoryPtr ≤ m.block blockHighMemoryPtr

/-- Every temporary string of the size lies in the memory that is free behind the new variable. -/
def Machine.SizeInFreeMemory (fuel : ℕ) (m : Machine) : Prop :=
  ∃ m₁ a m₂, variableFind fuel m = .ok (none, m₁) ∧ variableCreate fuel m₁ = .ok (a, m₂) ∧
    m₂.StringsInFreeMemory fuel

/-- The largest subscripts for which `dim` loses a carry, with the low and the high memory pointer:
the number of elements is 0, or the end of the block lies beyond the bank. -/
def dimOverruns (n low high : ℕ) : Prop :=
  n = 0xFFFF ∧ add16 low 2 < high ∨ 0 < n ∧ n ≤ 0x3FFE ∧ 0x10000 ≤ low + (2 + 4 * (n + 1))

/-- Between the states `m` and `m'` an array with the largest subscript `n` has been allocated below
the high memory pointer and linked to the variable at `a`, and all else is as it was. -/
structure Machine.Dims (m m' : Machine) (a n : ℕ) : Prop where
  fits : m.block blockLowMemoryPtr + (2 + 4 * (n + 1)) ≤ m.block blockHighMemoryPtr
  low : m'.block blockLowMemoryPtr = m.block blockLowMemoryPtr + (2 + 4 * (n + 1))
  link : m'.bank.word a = m.block blockLowMemoryPtr
  largest : m'.bank.word (m.block blockLowMemoryPtr) = n
  zero : ∀ i ≤ n, m'.bank.word (m.block blockLowMemoryPtr + 2 + 4 * i) = 0 ∧
    m'.bank.word (m.block blockLowMemoryPtr + 2 + 4 * i + 2) = 0
  others : ∀ b, (b < m.block blockLowMemoryPtr ∨
      m.block blockLowMemoryPtr + (2 + 4 * (n + 1)) ≤ b) → (b < a ∨ a + 2 ≤ b) →
    (b < m.dBaseAddress + blockLowMemoryPtr ∨ m.dBaseAddress + blockLowMemoryPtr + 2 ≤ b) →
    m'.bank b = m.bank b
  workspace : m.Workspace m'

/-- The subscripts of an array in `block` that is linked to the variable at `a`: those from 0 to `n`
lead to cells in the block, which are apart, and all others fail. -/
def SubscriptsWithin (a n block : ℕ) : Prop :=
  ∃ cell : ℕ → ℕ,
    (∀ i ≤ n, block + 2 ≤ cell i ∧ cell i + 4 ≤ block + (2 + 4 * (n + 1))) ∧
    (∀ i ≤ n, ∀ j ≤ n, i ≠ j → cell i + 4 ≤ cell j ∨ cell j + 4 ≤ cell i) ∧
    ∀ (ev : Evaluator) (m : Machine) (x : ℕ) (v : Value) (m₁ m₂ : Machine),
      m.bank.word a = block → evaluateNextInteger ev m x = .ok (v, m₁) →
      Long.Valid (v.a, v.y) → expectRightBracket m₁ = .ok m₂ → m₂.bank.word block = n →
      if 0 ≤ signedLong (v.a, v.y) ∧ signedLong (v.a, v.y) ≤ n then
        ∃ m₃, variableSubscript ev m x a = .ok (cell (signedLong (v.a, v.y)).toNat, m₃) ∧
          m₃.bank = m₂.bank
      else variableSubscript ev m x a = fail m₂ .badArraySubscript

/-! ## The parts -/

section

variable {m m' : Machine} {fuel a n y : ℕ} {v : Value}

/-- `dim`, part by part. -/
theorem dimArray_eq : dimArray fuel m = dimSize fuel m >>= fun r =>
    if r.2.1.y ≠ 0 then fail r.2.2 .dimTooLarge
    else if r.2.1.a = 0 then fail r.2.2 .dimTooLarge
    else dimCreateArrayBlock r.2.2 r.2.1.a >>= fun s =>
      .ok { s.2 with bank := s.2.bank.setWord r.1 s.1 } := by
  unfold dimArray dimSize
  split_ifs with h
  · rfl
  rcases hf : variableFind fuel m with s | ⟨data, m₁⟩
  · rfl
  cases data with
  | some b => rfl
  | none =>
    simp only [ok_bind]
    rcases hc : variableCreate fuel m₁ with s | ⟨b, m₂⟩
    · rfl
    simp only [ok_bind]
    rcases he : evaluateInteger fuel m₂ with s | ⟨w, m₃⟩
    · rfl
    simp only [ok_bind]
    rcases hb : expectRightBracket m₃ with s | m₄ <;> rfl

/-- What `dim` does in front of the allocation, step by step. -/
theorem dimSize_steps (h : dimSize fuel m = .ok (a, v, m')) :
    ∃ m₁ m₂ m₃, variableFind fuel m = .ok (none, m₁) ∧ variableCreate fuel m₁ = .ok (a, m₂) ∧
      evaluate fuel m₂ = .ok (v, m₃) ∧ expectRightBracket m₃ = .ok m' := by
  unfold dimSize at h
  split_ifs at h
  · cases h
  obtain ⟨⟨o, m₁⟩, hfind, h⟩ := Except.bind_eq_ok.mp h
  cases o with
  | some b => cases h
  | none =>
    obtain ⟨⟨b, m₂⟩, hcreate, h⟩ := Except.bind_eq_ok.mp h
    obtain ⟨⟨w, m₃⟩, heval, h⟩ := Except.bind_eq_ok.mp h
    obtain ⟨m₄, hbracket, h⟩ := Except.bind_eq_ok.mp h
    cases h
    obtain ⟨⟨w, m₅⟩, he, h⟩ := Except.bind_eq_ok.mp heval
    dsimp only at h
    split at h
    · cases h
    · cases h
      exact ⟨m₁, m₂, m₃, hfind, hcreate, he, hbracket⟩

/-- The memory pointers are in order in front of the allocation, if `dim` begins with the variables in
order and the strings of its size lie in the free memory. -/
theorem dimSize_inOrder {lo : ℕ} {rs : List Record} {ws : List ℕ} (hs : m.Store lo rs)
    (hi : m.AtIdentifier lo ws) (hroom : m.RoomFor ws) (hfit : m.SizeInFreeMemory fuel)
    (h : dimSize fuel m = .ok (a, v, m')) : m'.InOrder a := by
  obtain ⟨m₁, m₂, m₃, hfind, hcreate, heval, hbracket⟩ := dimSize_steps h
  obtain ⟨k₁, b, k₂, hfind', hcreate', hstrings⟩ := hfit
  cases hfind.symm.trans hfind'
  cases hcreate.symm.trans hcreate'
  -- the record
  obtain ⟨m₀, r, hset, -, hbase, hstore, -, -, -, hlow, -, hhigh, -, haddress, -⟩ := hs.created hi hroom
    (.of_outcome (fun k => variableFind_outcome fuel k m) hfind)
  have hmade : Settles (fun fuel => variableCreate fuel m₁) (.ok (a, m₂)) :=
    .of_outcome (fun k => variableCreate_outcome fuel k m₁) hcreate
  cases hmade.unique hset
  have hprogram := hs.program
  have hle := hs.low
  obtain ⟨-, hplace, -⟩ := hstore.places r (List.mem_cons_self ..)
  unfold blockProgramStart at hprogram
  -- the size
  obtain ⟨-, hbank⟩ := hstrings.eqOff heval
  have haround := evaluate_around (m := m₂) fuel
  rw [heval] at haround
  obtain rfl := expectToken_eq hbracket
  have hblock : ∀ y, y + 2 ≤ 0x100 → m₃.skipToken.block y = m₂.block y := by
    intro y hy
    change m₃.bank.word (m₃.dBaseAddress + y) = m₂.bank.word (m₂.dBaseAddress + y)
    rw [haround.post.base]
    exact hbank.word (.inl (by omega))
  refine ⟨?_, ?_, ?_⟩
  · change m₃.dBaseAddress + blockNullString ≤ _
    rw [haround.post.base, hbase]
    unfold blockNullString
    omega
  · rw [hblock _ (by decide)]
    omega
  · rw [hblock _ (by decide), hblock _ (by decide), hhigh]
    exact hlow.le

/-- Clearing within the bank writes zeros, and nothing outside. By induction on the words. -/
theorem dcabClear_bank (m : Machine) (h : y + 2 * n ≤ 0x10000) :
    Memory.EqOff y (y + 2 * n) m.bank (dcabClear n m y).bank ∧
      ∀ i < n, (dcabClear n m y).bank.word (y + 2 * i) = 0 := by
  induction n generalizing m y with
  | zero => exact ⟨Memory.EqOff.refl _ _ _, fun i hi => absurd hi (Nat.not_lt_zero i)⟩
  | succ n ih =>
    rcases Nat.eq_zero_or_pos n with rfl | hn
    · refine ⟨(Memory.EqOff.refl _ _ _).setWord (le_refl y) (le_refl _), fun i hi => ?_⟩
      obtain rfl : i = 0 := by omega
      exact Memory.word_setWord (by decide)
    · have hadd : add16 y 2 = y + 2 := add16_eq (by omega)
      obtain ⟨hoff, hzero⟩ := ih (y := y + 2) { m with bank := m.bank.setWord y 0 } (by omega)
      have hrun : dcabClear (n + 1) m y =
          dcabClear n { m with bank := m.bank.setWord y 0 } (y + 2) := by
        rw [dcabClear, hadd]
      rw [hrun]
      constructor
      · exact ((Memory.EqOff.refl y (y + 2 * (n + 1)) m.bank).setWord (le_refl y)
          (by omega)).trans (hoff.mono (by omega) (by omega))
      · rintro (_ | i) hi
        · rw [show y + 2 * 0 = y from rfl, hoff.word (.inl (le_refl _))]
          exact Memory.word_setWord (by decide)
        · have h := hzero i (by omega)
          rwa [show y + 2 + 2 * i = y + 2 * (i + 1) by omega] at h

/-- The state in which the elements are cleared. -/
def Machine.takeArray (m : Machine) (total : ℕ) : Machine :=
  { m with dTemp1 := total }.setBlock blockLowMemoryPtr
    (add16 (m.block blockLowMemoryPtr) total)

/-- The allocation, from the number of elements as it is in sixteen bits. -/
theorem dimCreateArrayBlock_eq (m : Machine) (n : ℕ) (hsize : add16 n 1 < 0x4000) :
    dimCreateArrayBlock m n =
      if m.block blockHighMemoryPtr ≤
          add16 (m.block blockLowMemoryPtr) (4 * add16 n 1 + 2) then
        fail (m.takeArray (4 * add16 n 1 + 2)) .outOfMemory
      else .ok (m.block blockLowMemoryPtr,
        { dcabClear (2 * add16 n 1 + 1) (m.takeArray (4 * add16 n 1 + 2))
            (m.block blockLowMemoryPtr) with
          bank := (dcabClear (2 * add16 n 1 + 1) (m.takeArray (4 * add16 n 1 + 2))
            (m.block blockLowMemoryPtr)).bank.setWord (m.block blockLowMemoryPtr) n }) := by
  have hhigh : (m.takeArray (4 * add16 n 1 + 2)).block blockHighMemoryPtr =
      m.block blockHighMemoryPtr := Machine.block_setBlock_of_disjoint _ (.inr (by decide))
  have hwords : (4 * add16 n 1 + 2) / 2 = 2 * add16 n 1 + 1 := by omega
  unfold dimCreateArrayBlock
  rw [if_neg (by omega), if_neg (by omega), if_neg (by omega), ← hhigh, ← hwords]
  rfl

theorem dimCreateArrayBlock_large (m : Machine) (hsize : 0x4000 ≤ add16 n 1) :
    dimCreateArrayBlock m n = fail m .outOfMemory := by
  unfold dimCreateArrayBlock
  dsimp only
  rcases le_or_gt 0x8000 (add16 n 1) with h | h
  · rw [if_pos h]
  · rw [if_neg (by omega), if_pos (by omega)]

/-- A block that ends in front of the high memory pointer is cleared, and nothing else is. -/
theorem dimCreateArrayBlock_dims (m : Machine)
    (hbase : m.dBaseAddress + blockHighMemoryPtr ≤ a) (hlow : a + 2 ≤ m.block blockLowMemoryPtr)
    (hsize : n < 0x3FFF)
    (hfits : m.block blockLowMemoryPtr + (2 + 4 * (n + 1)) < m.block blockHighMemoryPtr) :
    ∃ m₁, dimCreateArrayBlock m n = .ok (m.block blockLowMemoryPtr, m₁) ∧
      m.Dims { m₁ with bank := m₁.bank.setWord a (m.block blockLowMemoryPtr) } a n := by
  have hhigh := m.block_lt blockHighMemoryPtr
  have hone : add16 n 1 = n + 1 := add16_eq (by omega)
  have hadd : add16 (m.block blockLowMemoryPtr) (4 * (n + 1) + 2) =
      m.block blockLowMemoryPtr + (2 + 4 * (n + 1)) := by
    rw [add16_eq (by omega)]
    omega
  have heq := dimCreateArrayBlock_eq m n (by omega)
  rw [hone, hadd, if_neg (by omega)] at heq
  refine ⟨_, heq, ?_⟩
  obtain ⟨low, hl⟩ : ∃ low, low = m.block blockLowMemoryPtr := ⟨_, rfl⟩
  -- the low memory pointer is moved first, then the block is cleared
  obtain ⟨m₀, hm₀⟩ : ∃ m₀, m₀ = m.takeArray (4 * (n + 1) + 2) := ⟨_, rfl⟩
  rw [← hl] at hlow hfits hadd ⊢
  rw [← hm₀]
  have hbank : m₀.bank = m.bank.setWord (m.dBaseAddress + blockLowMemoryPtr)
      (low + (2 + 4 * (n + 1))) := by
    rw [hm₀, Machine.takeArray, ← hl, hadd]
    rfl
  obtain ⟨hoff, hzero⟩ := dcabClear_bank (n := 2 * (n + 1) + 1) (y := low) m₀ (by omega)
  have hw : m₀.Workspace (dcabClear (2 * (n + 1) + 1) m₀ low) := dcabClear_workspace _ _ _
  have hw₀ : m.Workspace m₀ := hm₀ ▸ ⟨rfl, rfl, rfl, rfl, rfl, rfl, rfl⟩
  generalize dcabClear (2 * (n + 1) + 1) m₀ low = m₁ at hoff hzero hw ⊢
  have hne : a + 2 ≤ low ∨ low + 2 ≤ a := .inl hlow
  have hptr : blockLowMemoryPtr + 2 ≤ blockHighMemoryPtr := by decide
  have hlowlt : low < 0x10000 := by omega
  -- the largest subscript is stored in the block, and its address in the record
  have hlink : ((m₁.bank.setWord low n).setWord a low).word a = low := Memory.word_setWord hlowlt
  have hcells : ∀ i, low + 2 ≤ i → ((m₁.bank.setWord low n).setWord a low).word i =
      m₁.bank.word i := by
    intro i hi
    rw [Memory.word_setWord_of_disjoint (.inr (by omega)),
      Memory.word_setWord_of_disjoint (.inr hi)]
  refine ⟨?_, ?_, ?_, ?_, ?_, ?_, ?_⟩
  · rw [← hl]
    exact hfits.le
  · rw [← hl]
    unfold Machine.block
    dsimp only
    rw [hw.base, hw₀.base, Memory.word_setWord_of_disjoint (.inl (by omega)),
      Memory.word_setWord_of_disjoint (.inl (by omega)), hoff.word (.inl (by omega)), hbank]
    exact Memory.word_setWord (by omega)
  · rw [← hl]
    exact hlink
  · rw [← hl]
    dsimp only
    rw [Memory.word_setWord_of_disjoint (.inr hlow)]
    exact Memory.word_setWord (by omega)
  · intro i hi
    rw [← hl]
    constructor
    · rw [hcells _ (by omega), show low + 2 + 4 * i = low + 2 * (2 * i + 1) by omega]
      exact hzero _ (by omega)
    · rw [hcells _ (by omega), show low + 2 + 4 * i + 2 = low + 2 * (2 * i + 2) by omega]
      exact hzero _ (by omega)
  · intro b hb ha hp
    rw [← hl] at hb
    dsimp only
    rw [Memory.setWord_of_ne (by omega) (by omega), Memory.setWord_of_ne (by omega) (by omega),
      hoff b (by omega), hbank, Memory.setWord_of_ne (by omega) (by omega)]
  · exact (hw₀.trans hw).trans ⟨rfl, rfl, rfl, rfl, rfl, rfl, rfl⟩

theorem signedLong_le_iff (hv : Long.Valid (v.a, v.y)) (hn : n < 0x8000) :
    0 ≤ signedLong (v.a, v.y) ∧ signedLong (v.a, v.y) ≤ n ↔ v.y = 0 ∧ v.a ≤ n := by
  obtain ⟨h₁, h₂⟩ := hv
  dsimp only at h₁ h₂
  unfold signedLong
  split_ifs <;> omega

/-- The subscripts of every array whose end lies in the bank stay within it. -/
theorem subscriptsWithin {block : ℕ} (h : block + (2 + 4 * (n + 1)) ≤ 0x10000) :
    SubscriptsWithin a n block := by
  refine ⟨fun i => block + 2 + 4 * i, ?_, ?_, ?_⟩
  · intro i hi
    dsimp only
    omega
  · intro i hi j hj hij
    dsimp only
    omega
  intro ev m x v m₁ m₂ hlink hev hv hbracket hlargest
  have hrun : variableSubscript ev m x a =
      if v.y ≠ 0 then fail m₂ .badArraySubscript
      else if n < v.a then fail m₂ .badArraySubscript
      else .ok (add16 (add16 block 2) (4 * v.a % 0x10000),
        { m₂ with dTemp1 := 4 * v.a % 0x10000 }) := by
    unfold variableSubscript
    rw [hlink, hev, ok_bind]
    dsimp only
    rw [hbracket, ok_bind, hlargest]
  rw [hrun]
  -- the two tests on the words are the bounds of the claim on the number
  have hin := signedLong_le_iff (n := n) hv (by omega)
  split_ifs with hr hy hn hy hn
  · exact absurd (hin.mp hr).1 hy
  · exact absurd (hin.mp hr).2 (by omega)
  · have hval : signedLong (v.a, v.y) = (v.a : ℕ) := by
      unfold signedLong
      dsimp only
      rw [not_not.mp hy]
      simp
    rw [hval, Int.toNat_natCast]
    refine ⟨{ m₂ with dTemp1 := 4 * v.a }, ?_, rfl⟩
    rw [add16_eq (a := block) (by omega), Nat.mod_eq_of_lt (by omega), add16_eq (by omega)]
  · rfl
  · rfl
  · exact absurd (hin.mpr ⟨not_not.mp hy, by omega⟩) hr

/-! ## `dim` -/

theorem dimCreateArrayBlock_overruns (m : Machine)
    (hlow : m.block blockLowMemoryPtr ≤ m.block blockHighMemoryPtr)
    (h : dimOverruns n (m.block blockLowMemoryPtr) (m.block blockHighMemoryPtr)) :
    ∃ r, dimCreateArrayBlock m n = .ok r := by
  have hlt := m.block_lt blockHighMemoryPtr
  rcases h with ⟨rfl, h⟩ | ⟨hpos, hle, h⟩
  · have hone : add16 0xFFFF 1 = 0 := by decide
    have heq := dimCreateArrayBlock_eq m 0xFFFF (by rw [hone]; decide)
    rw [hone, show 4 * 0 + 2 = 2 from rfl, if_neg (by omega)] at heq
    exact ⟨_, heq⟩
  · have hone : add16 n 1 = n + 1 := add16_eq (by omega)
    have heq := dimCreateArrayBlock_eq m n (by omega)
    have hadd : add16 (m.block blockLowMemoryPtr) (4 * (n + 1) + 2) + 0x10000 =
        m.block blockLowMemoryPtr + (4 * (n + 1) + 2) := by
      unfold add16
      omega
    rw [hone, if_neg (by omega)] at heq
    exact ⟨_, heq⟩

/-- Every other block that does not end in front of the high memory pointer is refused. -/
theorem dimCreateArrayBlock_refused (m : Machine) (hn : n < 0x10000)
    (h : ¬dimOverruns n (m.block blockLowMemoryPtr) (m.block blockHighMemoryPtr)) (hpos : 0 < n)
    (hfits : ¬(n < 0x3FFF ∧
      m.block blockLowMemoryPtr + (2 + 4 * (n + 1)) < m.block blockHighMemoryPtr)) :
    ∃ m', dimCreateArrayBlock m n = fail m' .outOfMemory := by
  unfold dimOverruns at h
  rcases le_or_gt 0x4000 (add16 n 1) with hsize | hsize
  · exact ⟨m, dimCreateArrayBlock_large m hsize⟩
  · refine ⟨_, (dimCreateArrayBlock_eq m n hsize).trans (if_pos ?_)⟩
    rcases Nat.lt_or_ge n 0xFFFF with hlt | hge
    · have hone : add16 n 1 = n + 1 := add16_eq (by omega)
      rw [hone] at hsize ⊢
      rw [add16_eq (by omega)]
      omega
    · obtain rfl : n = 0xFFFF := by omega
      have htwo : 4 * add16 0xFFFF 1 + 2 = 2 := by decide
      rw [htwo]
      omega

/-- `dim` fails, or makes an array in free memory whose subscripts stay within it, unless the number
of its elements or the end of its block wraps around. The memory pointers are in order in front of the
allocation when `dim` begins with the variables in order and makes the strings of its size in free
memory. -/
theorem dimArray_sound (h : dimSize fuel m = .ok (a, v, m')) :
    (∀ lo rs ws, m.Store lo rs → m.AtIdentifier lo ws → m.RoomFor ws → m.SizeInFreeMemory fuel →
      m'.InOrder a) ∧
    (m'.InOrder a →
      (((∃ e m₁, dimArray fuel m = fail m₁ e) ∨ ∃ m₁, dimArray fuel m = .ok m₁ ∧
          m'.Dims m₁ a (Long.toNat (v.a, v.y)) ∧
          SubscriptsWithin a (Long.toNat (v.a, v.y)) (m'.block blockLowMemoryPtr)) ↔
        ¬dimOverruns (Long.toNat (v.a, v.y)) (m'.block blockLowMemoryPtr)
          (m'.block blockHighMemoryPtr))) := by
  refine ⟨fun lo rs ws hs hi hroom hfit => dimSize_inOrder hs hi hroom hfit h, ?_⟩
  rintro ⟨hbase, hlow, hhigh⟩
  have hlt := m'.block_lt blockHighMemoryPtr
  -- from here on only the size and the memory pointers matter
  have hrun : dimArray fuel m = if v.y ≠ 0 then fail m' .dimTooLarge
      else if v.a = 0 then fail m' .dimTooLarge
      else dimCreateArrayBlock m' v.a >>= fun s =>
        .ok { s.2 with bank := s.2.bank.setWord a s.1 } := by
    rw [dimArray_eq, h]
    rfl
  obtain ⟨h₁, h₂⟩ : Long.Valid (v.a, v.y) := by
    obtain ⟨m₁, m₂, m₃, -, -, heval, -⟩ := dimSize_steps h
    exact evaluate_valid heval
  dsimp only at h₁ h₂
  obtain ⟨n, hn⟩ : ∃ n, n = Long.toNat (v.a, v.y) := ⟨_, rfl⟩
  have hval : n = v.a + 0x10000 * v.y := hn
  rw [← hn, hrun]
  split_ifs with hy hzero
  · refine iff_of_true (.inl ⟨_, _, rfl⟩) ?_
    unfold dimOverruns
    omega
  · refine iff_of_true (.inl ⟨_, _, rfl⟩) ?_
    unfold dimOverruns
    omega
  obtain rfl : n = v.a := by omega
  constructor
  · intro hprop hover
    obtain ⟨r, hok⟩ := dimCreateArrayBlock_overruns m' hhigh hover
    rw [hok, ok_bind] at hprop
    rcases hprop with ⟨e, m₁, hfail⟩ | ⟨m₁, -, hdims, -⟩
    · cases hfail
    · have hfits := hdims.fits
      unfold dimOverruns at hover
      omega
  · intro hover
    -- the block fits, or the allocation notices that it does not
    by_cases hfits : v.a < 0x3FFF ∧
        m'.block blockLowMemoryPtr + (2 + 4 * (v.a + 1)) < m'.block blockHighMemoryPtr
    · obtain ⟨m₁, hok, hdims⟩ :=
        dimCreateArrayBlock_dims m' ((Nat.add_le_add_left (by decide) _).trans hbase) hlow hfits.1 hfits.2
      rw [hok, ok_bind]
      exact .inr ⟨_, rfl, hdims, subscriptsWithin (by omega)⟩
    · obtain ⟨m₁, hfail⟩ := dimCreateArrayBlock_refused m' h₁ hover (by omega) hfits
      rw [hfail]
      exact .inl ⟨_, m₁, rfl⟩

/-- The command line `dim a(1)`. -/
theorem dimArray_sound_one : ∃ a v m',
    dimSize 6 (commandMachine [0xD001, 0x4001, rparenTokenID, 0]) = .ok (a, v, m') ∧
      v.a = 1 ∧ m'.InOrder a ∧
      (((∃ e m₁, dimArray 6 (commandMachine [0xD001, 0x4001, rparenTokenID, 0]) = fail m₁ e) ∨
        ∃ m₁, dimArray 6 (commandMachine [0xD001, 0x4001, rparenTokenID, 0]) = .ok m₁ ∧
          m'.Dims m₁ a (Long.toNat (v.a, v.y)) ∧
          SubscriptsWithin a (Long.toNat (v.a, v.y)) (m'.block blockLowMemoryPtr)) ↔
        ¬dimOverruns (Long.toNat (v.a, v.y)) (m'.block blockLowMemoryPtr)
          (m'.block blockHighMemoryPtr)) := by
  obtain ⟨⟨a, v, m'⟩, h, hva⟩ := Except.exists_of_check
    (r := dimSize 6 (commandMachine [0xD001, 0x4001, rparenTokenID, 0])) (P := fun r => r.2.1.a = 1)
    (by decide +kernel)
  have hheads : ∀ c < 64, (commandMachine [0xD001, 0x4001, rparenTokenID, 0]).bank.word
      ((commandMachine [0xD001, 0x4001, rparenTokenID, 0]).chainHead c) = 0 := by
    decide +kernel
  have hstore : (commandMachine [0xD001, 0x4001, rparenTokenID, 0]).Store 0x4206 [] :=
    { program := by decide
      low := by decide
      chains := hheads
      records := nofun
      places := nofun
      apart := nofun
      names := nofun
      distinct := List.nodup_nil }
  have hat : (commandMachine [0xD001, 0x4001, rparenTokenID, 0]).AtIdentifier 0x4206 [0xD001] :=
    ⟨identifier_words (show Named [65] from ⟨by decide, 65, [], by decide, by decide⟩) false true,
      ⟨by rfl, trivial⟩, .inl (by decide)⟩
  have hfit : (commandMachine [0xD001, 0x4001, rparenTokenID, 0]).SizeInFreeMemory 6 := by
    obtain ⟨r, hr, hnone⟩ := Except.exists_of_check
      (r := variableFind 6 (commandMachine [0xD001, 0x4001, rparenTokenID, 0]) >>= fun p =>
        variableCreate 6 p.2 >>= fun q => evaluateLevel (Handler.checked q.2.FreeMemory) 6 q.2
          (add16 q.2.dStack 16) (0 <<< tokenShift) >>= fun r => .ok (p.1, r))
      (P := fun r => r.1 = none) (by decide +kernel)
    obtain ⟨⟨o, m₁⟩, hfind, hr⟩ := Except.bind_eq_ok.mp hr
    obtain ⟨⟨b, m₂⟩, hcreate, hr⟩ := Except.bind_eq_ok.mp hr
    obtain ⟨r', hr', hr⟩ := Except.bind_eq_ok.mp hr
    cases hr
    cases hnone
    exact ⟨m₁, b, m₂, hfind, hcreate, r', hr'⟩
  obtain ⟨hstart, hiff⟩ := dimArray_sound h
  have horder : m'.InOrder a := hstart _ _ _ hstore hat
    (by unfold Machine.RoomFor; decide) hfit
  exact ⟨a, v, m', h, hva, horder, hiff horder⟩

/-- The command line `dim a(65535)` makes an array of no elements in two bytes, with the largest
subscript 65535. -/
theorem dimArray_no_elements : ∃ a v m' m₁,
    dimSize 6 (commandMachine [0xD001, 0x1001, 0xBFFF, rparenTokenID, 0]) = .ok (a, v, m') ∧
      m'.InOrder a ∧ Long.toNat (v.a, v.y) = 0xFFFF ∧
      dimArray 6 (commandMachine [0xD001, 0x1001, 0xBFFF, rparenTokenID, 0]) = .ok m₁ ∧
      m₁.block blockLowMemoryPtr = m'.block blockLowMemoryPtr + 2 ∧
      m₁.bank.word (m₁.bank.word a) = 0xFFFF ∧
      ¬((∃ e m₂, dimArray 6 (commandMachine [0xD001, 0x1001, 0xBFFF, rparenTokenID, 0]) =
          fail m₂ e) ∨
        ∃ m₂, dimArray 6 (commandMachine [0xD001, 0x1001, 0xBFFF, rparenTokenID, 0]) = .ok m₂ ∧
          m'.Dims m₂ a (Long.toNat (v.a, v.y)) ∧
          SubscriptsWithin a (Long.toNat (v.a, v.y)) (m'.block blockLowMemoryPtr)) := by
  obtain ⟨⟨a, v, m'⟩, h, ha, hva, hvy, hb, hlow, hhigh⟩ := Except.exists_of_check
    (r := dimSize 6 (commandMachine [0xD001, 0x1001, 0xBFFF, rparenTokenID, 0]))
    (P := fun r => r.1 = 0x420a ∧ r.2.1.a = 0xFFFF ∧ r.2.1.y = 0 ∧ r.2.2.dBaseAddress = 0x4000 ∧
      r.2.2.block blockLowMemoryPtr = 0x4210 ∧ r.2.2.block blockHighMemoryPtr = 0x5000)
    (by decide +kernel)
  obtain ⟨m₁, h₁, hlow₁, hlargest⟩ := Except.exists_of_check
    (r := dimArray 6 (commandMachine [0xD001, 0x1001, 0xBFFF, rparenTokenID, 0]))
    (P := fun m => m.block blockLowMemoryPtr = 0x4212 ∧ m.bank.word (m.bank.word 0x420a) = 0xFFFF)
    (by decide +kernel)
  dsimp only at ha hva hvy hb hlow hhigh
  have hn : Long.toNat (v.a, v.y) = 0xFFFF := by
    rw [hva, hvy]
    rfl
  refine ⟨a, v, m', m₁, h, ⟨?_, ?_, ?_⟩, hn, h₁, ?_, ha ▸ hlargest, ?_⟩
  · rw [hb, ha]
    decide
  · rw [ha, hlow]
    decide
  · rw [hlow, hhigh]
    decide
  · rw [hlow₁, hlow]
  · rintro (⟨e, m₂, h₂⟩ | ⟨m₂, -, hdims, -⟩)
    · rw [h₁] at h₂
      cases h₂
    · have hfits := hdims.fits
      rw [hn, hlow, hhigh] at hfits
      exact absurd hfits (by decide)

end

end Basic65816
