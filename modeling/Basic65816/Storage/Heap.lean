import Basic65816.Lib.Tiling
import Basic65816.Stack.Discipline
import Basic65816.Storage.StringAssign

/-!
# The string heap

Permanent strings are in blocks that divide the memory from the high memory pointer to the end of
the workspace. A variable or array element owns at most one block, and a block that a variable gives
up stays behind without an owner, unless it is the lowest one. The capacity of the block that a
variable owns never becomes smaller, so that a string saved by `local` can be put back without a
look at the size.

## Main definitions

* `Machine.Heap`: the strings of the cells `ys` are in the blocks `bs`
* `Machine.Assignable`: where the string of an assignment can be

## Main results

* `Machine.Heap.rewrite`: a block that is written over
* `Machine.Heap.assign`: an assignment
-/

namespace Basic65816

open Tiling

/-- The bytes that the block at `b` takes. -/
def sizeOfBlock (bank : Memory) (b : ℕ) : ℕ := bank.byte b + 2

/-- The memory from the high memory pointer on is divided into the blocks `bs`, and each of the
string cells `ys`, which are below the low memory pointer, is empty or has the address of a string in
a block of its own. -/
structure Machine.Heap (m : Machine) (ys : Set ℕ) (bs : List ℕ) : Prop where
  tiled : Tiled (sizeOfBlock m.bank) m.dHighAddress (m.block blockHighMemoryPtr) bs
  fits : ∀ b ∈ bs, m.bank.byte (b + 1) ≤ m.bank.byte b
  large : ∀ b ∈ bs, 8 ≤ m.bank.byte b
  owned : ∀ y ∈ ys, m.bank.word y = 0 ∨ ∃ b ∈ bs, m.bank.word y = b + 1
  own : ∀ y ∈ ys, ∀ z ∈ ys, y ≠ z → m.bank.word y = 0 ∨ m.bank.word y ≠ m.bank.word z
  places : ∀ y ∈ ys, m.dBaseAddress + 0xe ≤ y ∧ y + 2 ≤ m.block blockLowMemoryPtr
  apart : ∀ y ∈ ys, ∀ z ∈ ys, y ≠ z → y + 2 ≤ z ∨ z + 2 ≤ y
  low : m.dBaseAddress + 0x200 ≤ m.block blockLowMemoryPtr
  free : m.block blockLowMemoryPtr ≤ m.block blockHighMemoryPtr
  top : m.dHighAddress < 0x10000

/-- The string at `x` can be assigned to `y`: it is a constant in the code, a temporary string, which
is at least 256 bytes below the blocks, or the string of a cell. -/
structure Machine.Assignable (m : Machine) (ys : Set ℕ) (x y : ℕ) : Prop where
  header : m.dBaseAddress + 0xe ≤ x
  apart : x + 1 ≤ y ∨ y + 2 ≤ x
  place : x < m.block blockLowMemoryPtr ∨ x + m.bank.byte x + 1 + 256 ≤ m.block blockHighMemoryPtr ∨
    ∃ z ∈ ys, m.bank.word z = x ∧ x ≠ 0

/-- The capacity of the block of `y`. -/
def Machine.capacity (m : Machine) (y : ℕ) : ℕ := m.bank.byte (m.bank.word y - 1)

/-- The string of `z` and its place are the same. -/
def Machine.SameString (m m' : Machine) (z : ℕ) : Prop :=
  m'.bank.word z = m.bank.word z ∧ (m.bank.word z ≠ 0 →
    ∀ i ≤ m.capacity z + 1, m'.bank (m.bank.word z - 1 + i) = m.bank (m.bank.word z - 1 + i))

section

variable {m m' : Machine} {ys : Set ℕ} {bs : List ℕ} {b n x y z : ℕ}

theorem Machine.SameString.capacity (h : m.SameString m' z) (hz : m.bank.word z ≠ 0) :
    m'.capacity z = m.capacity z := by
  unfold Machine.capacity
  rw [h.1]
  exact Memory.byte_congr (h.2 hz 0 (Nat.zero_le _))

theorem Machine.SameString.trans {m₁ : Machine} (h : m.SameString m₁ z) (h' : m₁.SameString m' z) :
    m.SameString m' z := by
  refine ⟨h'.1.trans h.1, fun hz i hi => ?_⟩
  have hnext := h'.2 (h.1.symm ▸ hz) i (h.capacity hz ▸ hi)
  rw [h.1] at hnext
  exact hnext.trans (h.2 hz i hi)

namespace Machine.Heap

/-- A block and its string are above the high memory pointer. -/
theorem above (h : m.Heap ys bs) (hb : b ∈ bs) : m.block blockHighMemoryPtr ≤ b ∧
    b + m.bank.byte b + 2 ≤ m.dHighAddress :=
  h.tiled.bounds hb

/-- The memory outside of the cells and the blocks can change. -/
theorem congr (h : m.Heap ys bs) (hbase : m'.dBaseAddress = m.dBaseAddress)
    (htop : m'.dHighAddress = m.dHighAddress)
    (hhigh : m'.block blockHighMemoryPtr = m.block blockHighMemoryPtr)
    (hlow : m.block blockLowMemoryPtr ≤ m'.block blockLowMemoryPtr)
    (hfree : m'.block blockLowMemoryPtr ≤ m'.block blockHighMemoryPtr)
    (hmem : m.bank.EqOn (m.block blockHighMemoryPtr) m.dHighAddress m'.bank)
    (hcells : ∀ y ∈ ys, m'.bank.word y = m.bank.word y) : m'.Heap ys bs := by
  have hbyte : ∀ b ∈ bs, m'.bank.byte b = m.bank.byte b ∧
      m'.bank.byte (b + 1) = m.bank.byte (b + 1) := by
    intro b hb
    have := h.above hb
    exact ⟨hmem.byte (by omega) (by omega), hmem.byte (by omega) (by omega)⟩
  refine ⟨?_, fun b hb => ?_, fun b hb => ?_, fun y hy => ?_, fun y hy z hz hne => ?_,
    fun y hy => ?_, h.apart, ?_, hfree, htop ▸ h.top⟩
  · rw [htop, hhigh]
    refine h.tiled.congr fun b hb => ?_
    unfold sizeOfBlock
    rw [(hbyte b hb).1]
  · rw [(hbyte b hb).1, (hbyte b hb).2]
    exact h.fits b hb
  · rw [(hbyte b hb).1]
    exact h.large b hb
  · rw [hcells y hy]
    exact h.owned y hy
  · rw [hcells y hy, hcells z hz]
    exact h.own y hy z hz hne
  · have := h.places y hy
    rw [hbase]
    omega
  · rw [hbase]
    exact h.low.trans hlow

/-- The string of a cell in its block. -/
theorem block_of_cell (h : m.Heap ys bs) (hy : y ∈ ys) (hne : m.bank.word y ≠ 0) :
    ∃ b ∈ bs, m.bank.word y = b + 1 ∧ m.capacity y = m.bank.byte b := by
  obtain ⟨b, hb, hword⟩ := (h.owned y hy).resolve_left hne
  refine ⟨b, hb, hword, ?_⟩
  unfold Machine.capacity
  rw [hword, Nat.add_sub_cancel]

/-- **A string that is written over**, within the capacity of its block, leaves the blocks as they
are and all other strings alone. -/
theorem rewrite (h : m.Heap ys bs) (hy : y ∈ ys) (hne : m.bank.word y ≠ 0) (hn : n ≤ m.capacity y)
    (hbase : m'.dBaseAddress = m.dBaseAddress) (htop : m'.dHighAddress = m.dHighAddress)
    (hoff : m.bank.EqOff (m.bank.word y) (m.bank.word y + n + 1) m'.bank)
    (hlen : m'.bank.byte (m.bank.word y) ≤ m.capacity y) :
    m'.Heap ys bs ∧ m'.bank.word y = m.bank.word y ∧ m'.capacity y = m.capacity y ∧
      ∀ z ∈ ys, z ≠ y → m.SameString m' z := by
  obtain ⟨b, hb, hword, hcap⟩ := h.block_of_cell hy hne
  rw [hcap] at hn hlen
  rw [hword] at hoff hlen
  have habove := h.above hb
  have hfree := h.free
  have hlow := h.low
  have hblock : ∀ k, k < 0x100 → m'.block k = m.block k := by
    intro k hk
    unfold Machine.block
    rw [hbase]
    exact hoff.word (.inl (by omega))
  -- the cells and the pointers are below the blocks
  have hcells : ∀ z ∈ ys, m'.bank.word z = m.bank.word z := by
    intro z hz
    have := h.places z hz
    exact hoff.word (.inl (by omega))
  -- the capacity of a block is in front of the string, or in another block
  have hsize : ∀ c ∈ bs, m'.bank.byte c = m.bank.byte c := by
    intro c hc
    rcases eq_or_ne c b with rfl | hcb
    · exact hoff.byte (.inl (by omega))
    · have := h.tiled.apart hc hb hcb
      unfold sizeOfBlock at this
      exact hoff.byte (by omega)
  have hcapacity : m'.capacity y = m.capacity y := by
    unfold Machine.capacity
    rw [hcells y hy, hword, Nat.add_sub_cancel]
    exact hsize b hb
  refine ⟨⟨?_, fun c hc => ?_, fun c hc => ?_, fun z hz => ?_, fun z hz w hw hne => ?_, fun z hz => ?_,
    h.apart, ?_, ?_, htop ▸ h.top⟩, hcells y hy, hcapacity,
    fun z hz hzy => ⟨hcells z hz, fun hzero i hi => ?_⟩⟩
  · rw [htop, hblock _ (by decide)]
    refine h.tiled.congr fun c hc => ?_
    unfold sizeOfBlock
    rw [hsize c hc]
  · rw [hsize c hc]
    rcases eq_or_ne c b with rfl | hcb
    · exact hlen
    · have := h.tiled.apart hc hb hcb
      unfold sizeOfBlock at this
      rw [hoff.byte (by omega)]
      exact h.fits c hc
  · rw [hsize c hc]
    exact h.large c hc
  · rw [hcells z hz]
    exact h.owned z hz
  · rw [hcells z hz, hcells w hw]
    exact h.own z hz w hw hne
  · rw [hbase, hblock _ (by decide)]
    exact h.places z hz
  · rw [hbase, hblock _ (by decide)]
    exact hlow
  · rw [hblock _ (by decide), hblock _ (by decide)]
    exact hfree
  · -- another cell has another block
    obtain ⟨c, hc, hword', hcap'⟩ := h.block_of_cell hz hzero
    have hcb : c ≠ b := by
      rintro rfl
      exact (h.own z hz y hy hzy).elim hzero fun hne => hne (hword'.trans hword.symm)
    have := h.tiled.apart hc hb hcb
    unfold sizeOfBlock at this
    rw [hcap'] at hi
    rw [hword', Nat.add_sub_cancel]
    exact hoff _ (by omega)

end Machine.Heap

/-! ## New blocks -/

/-- The copy loop writes the length and the characters and nothing else, wherever they come from. -/
theorem saCopyStringLoop_confined (n : ℕ) (m : Machine) (x y : ℕ) (hy : y + n < 0x10000) :
    m.bank.EqOff y (y + n + 1) (saCopyStringLoop n m x y).bank ∧
      (saCopyStringLoop n m x y).bank.byte y = m.bank.byte x := by
  have hfirst : (m.bank.setByte y (m.bank.byte x)).byte y = m.bank.byte x := by
    rw [Memory.byte_setByte, Nat.mod_eq_of_lt (m.bank.byte_lt x)]
  induction n generalizing m x y with
  | zero => exact ⟨(Memory.EqOff.refl _ _ _).setByte (Nat.le_refl y) (by omega), hfirst⟩
  | succ n ih =>
    rw [saCopyStringLoop, add16_eq (a := y) (by omega)]
    obtain ⟨m₁, hm₁⟩ : ∃ m₁ : Machine,
      m₁ = { m with bank := m.bank.setByte y (m.bank.byte x) } := ⟨_, rfl⟩
    rw [← hm₁]
    obtain ⟨hoff, -⟩ := ih m₁ (add16 x 1) (y + 1) (by omega)
      (by rw [Memory.byte_setByte, Nat.mod_eq_of_lt (m₁.bank.byte_lt _)])
    have hset : m.bank.EqOff y (y + (n + 1) + 1) m₁.bank := by
      rw [hm₁]
      exact (Memory.EqOff.refl _ _ _).setByte (Nat.le_refl y) (by omega)
    refine ⟨hset.trans (hoff.mono (by omega) (by omega)), ?_⟩
    rw [hoff.byte (.inl (by omega)), hm₁]
    exact hfirst

/-- What making a new block changes: the high memory pointer, the block and the cell. -/
structure Machine.Allocates (m : Machine) (x y a : ℕ) (m' : Machine) : Prop where
  start : a + (saSize (m.bank.byte x) + 2) = m.block blockHighMemoryPtr
  free : m.block blockLowMemoryPtr ≤ a
  base : m'.dBaseAddress = m.dBaseAddress
  top : m'.dHighAddress = m.dHighAddress
  high : m'.block blockHighMemoryPtr = a
  low : m'.block blockLowMemoryPtr = m.block blockLowMemoryPtr
  size : m'.bank.byte a = saSize (m.bank.byte x)
  length : m'.bank.byte (a + 1) = m.bank.byte x
  cell : m'.bank.word y = a + 1
  same : ∀ c, m.dBaseAddress + 0xe ≤ c → (c < a ∨ m.block blockHighMemoryPtr ≤ c) →
    (c < y ∨ y + 2 ≤ c) → m'.bank c = m.bank c

theorem saAllocate_allocates (hlow : m.dBaseAddress + 0x200 ≤ m.block blockLowMemoryPtr)
    (hfree : m.block blockLowMemoryPtr ≤ m.block blockHighMemoryPtr)
    (hy : m.dBaseAddress + 0xe ≤ y ∧ y + 2 ≤ m.block blockLowMemoryPtr)
    (hx : m.dBaseAddress + 0xe ≤ x) (hxy : x + 1 ≤ y ∨ y + 2 ≤ x)
    (hplace : x < m.block blockLowMemoryPtr ∨
      x + m.bank.byte x + 1 + 256 ≤ m.block blockHighMemoryPtr ∨ m.block blockHighMemoryPtr ≤ x)
    (hok : saAllocate m x y = .ok m') : ∃ a, m.Allocates x y a m' := by
  have hS := saSize_spec (m.bank.byte x)
  have hn := hS.2 (m.bank.byte_lt x)
  have hH := m.block_lt blockHighMemoryPtr
  obtain ⟨a, ha⟩ : ∃ a, a = m.blockAddress x := ⟨_, rfl⟩
  have hstart : a + (saSize (m.bank.byte x) + 2) = m.block blockHighMemoryPtr := by
    rw [ha, Machine.blockAddress, sub16_eq hH (by omega)]
    omega
  -- otherwise the memory would have been exhausted
  have hroom : m.block blockLowMemoryPtr ≤ a := by
    by_contra hlt
    unfold saAllocate at hok
    dsimp only at hok
    rw [Machine.block_setBlock_of_disjoint _ (by decide)] at hok
    change (if m.blockAddress x < _ then _ else _) = _ at hok
    rw [if_pos (by omega)] at hok
    cases hok
  rw [saAllocate_eq (ha ▸ hroom)] at hok
  obtain rfl := Except.ok.inj hok
  -- a temporary string right below the blocks is too long to be touched by the new header
  have hlargest := saSize_eq_iff (n := m.bank.byte x)
  have hsource : x < a ∨ a + 2 ≤ x := by omega
  have hbank : ∀ c, m.dBaseAddress + 0xe ≤ c → (c < a ∨ a + 2 ≤ c) → (c < y ∨ y + 2 ≤ c) →
      (m.newBlock x y).bank c = m.bank c := fun c h₁ h₂ h₃ =>
    Machine.newBlock_bank (.inr (by unfold blockNullString; omega)) (by rw [← ha]; omega) (by omega)
  have hnew : (m.newBlock x y).bank =
      ((m.bank.setWord (m.dBaseAddress + blockHighMemoryPtr) a).setWord a
        (saSize (m.bank.byte x))).setWord y (add16 a 1) := by
    rw [ha]
    rfl
  have hbyte : (m.newBlock x y).bank.byte x = m.bank.byte x :=
    Memory.byte_congr (hbank x hx hsource (by omega))
  have hcell : (m.newBlock x y).bank.word y = a + 1 := by
    refine (Memory.word_setWord (add16_lt _ _)).trans ?_
    rw [← ha]
    exact add16_eq (by omega)
  have hcopy : saCopyString (m.newBlock x y) x y =
      saCopyStringLoop (m.bank.byte x) (m.newBlock x y) x (a + 1) := by
    rw [saCopyString, hbyte, hcell]
  obtain ⟨hoff, hlength⟩ :=
    saCopyStringLoop_confined (m.bank.byte x) (m.newBlock x y) x (a + 1) (by omega)
  rw [← hcopy] at hoff hlength
  have hwork := saCopyStringLoop_workspace (m.bank.byte x) (m.newBlock x y) x (a + 1)
  rw [← hcopy] at hwork
  have hpointer : ∀ k, k + 2 ≤ 0x10 → (saCopyString (m.newBlock x y) x y).block k =
      (m.newBlock x y).block k := by
    intro k hk
    unfold Machine.block
    rw [hwork.base]
    change (saCopyString (m.newBlock x y) x y).bank.word (m.dBaseAddress + k) = _
    rw [hoff.word (.inl (by omega))]
    rfl
  refine ⟨a, hstart, hroom, hwork.base, hwork.high, ?_, ?_, ?_, hlength.trans hbyte, ?_, ?_⟩
  · rw [hpointer _ (by decide)]
    refine (congrArg (Memory.word · (m.dBaseAddress + blockHighMemoryPtr)) hnew).trans ?_
    rw [Memory.word_setWord_of_disjoint (by unfold blockHighMemoryPtr; omega),
      Memory.word_setWord_of_disjoint (by unfold blockHighMemoryPtr; omega),
      Memory.word_setWord (by omega)]
  · rw [hpointer _ (by decide)]
    refine (congrArg (Memory.word · (m.dBaseAddress + blockLowMemoryPtr)) hnew).trans ?_
    rw [Memory.word_setWord_of_disjoint (by unfold blockLowMemoryPtr; omega),
      Memory.word_setWord_of_disjoint (by unfold blockLowMemoryPtr; omega),
      Memory.word_setWord_of_disjoint (.inl (by unfold blockLowMemoryPtr blockHighMemoryPtr; omega))]
    rfl
  · rw [hoff.byte (.inl (by omega)), hnew, Memory.byte_setWord_of_ne (by omega) (by omega),
      Memory.byte_setWord_low]
    omega
  · rw [hoff.word (.inl (by omega)), hcell]
  · intro c h₁ h₂ h₃
    rw [hoff c (by omega)]
    exact hbank c h₁ (by omega) h₃

theorem eight_le_saSize (n : ℕ) : 8 ≤ saSize n := by
  unfold saSize
  split <;> omega

/-- **A new block** for a cell that owns none of the blocks. -/
theorem Machine.Heap.allocate {a : ℕ} (h : m.Heap (ys \ {y}) bs)
    (hy : m.dBaseAddress + 0xe ≤ y ∧ y + 2 ≤ m.block blockLowMemoryPtr)
    (hapart : ∀ z ∈ ys, z ≠ y → y + 2 ≤ z ∨ z + 2 ≤ y) (ha : m.Allocates x y a m') :
    m'.Heap ys (a :: bs) ∧ m.bank.byte x ≤ m'.capacity y ∧
      ∀ z ∈ ys, z ≠ y → m.SameString m' z := by
  have hS := saSize_spec (m.bank.byte x)
  have hn := hS.2 (m.bank.byte_lt x)
  have hstart := ha.start
  have hroom := ha.free
  have hlow := h.low
  have hcells : ∀ z ∈ ys, z ≠ y → m'.bank.word z = m.bank.word z := by
    intro z hz hne
    have hp := h.places z ⟨hz, hne⟩
    have hd := hapart z hz hne
    exact Memory.word_congr (ha.same z (by omega) (by omega) (by omega))
      (ha.same (z + 1) (by omega) (by omega) (by omega))
  have hblocks : ∀ c, m.block blockHighMemoryPtr ≤ c → m'.bank c = m.bank c := fun c hc =>
    ha.same c (by omega) (.inr hc) (by omega)
  have hbyte : ∀ b ∈ bs, m'.bank.byte b = m.bank.byte b ∧
      m'.bank.byte (b + 1) = m.bank.byte (b + 1) := by
    intro b hb
    have := h.above hb
    exact ⟨Memory.byte_congr (hblocks b this.1), Memory.byte_congr (hblocks (b + 1) (by omega))⟩
  have howner : ∀ z ∈ ys, z ≠ y → m.bank.word z = 0 ∨ ∃ b ∈ bs, m.bank.word z = b + 1 :=
    fun z hz hne => h.owned z ⟨hz, hne⟩
  have hcapacity : m'.capacity y = saSize (m.bank.byte x) := by
    unfold Machine.capacity
    rw [ha.cell, Nat.add_sub_cancel, ha.size]
  -- the new block is below all others
  have hne_new : ∀ z ∈ ys, z ≠ y → m.bank.word z ≠ a + 1 := by
    intro z hz hne heq
    rcases howner z hz hne with h₀ | ⟨b, hb, hword⟩
    · omega
    · have := h.above hb
      omega
  refine ⟨⟨?_, fun b hb => ?_, fun b hb => ?_, fun z hz => ?_, fun z hz w hw hne => ?_, fun z hz => ?_,
    fun z hz w hw hne => ?_, ?_, ?_, ha.top ▸ h.top⟩, hcapacity ▸ hn,
    fun z hz hne => ⟨hcells z hz hne, fun hzero i hi => ?_⟩⟩
  · rw [ha.high, ha.top]
    refine .cons ?_
    have hsize : a + sizeOfBlock m'.bank a = m.block blockHighMemoryPtr := by
      unfold sizeOfBlock
      rw [ha.size]
      exact hstart
    rw [hsize]
    refine h.tiled.congr fun b hb => ?_
    unfold sizeOfBlock
    rw [(hbyte b hb).1]
  · rcases List.mem_cons.mp hb with rfl | hb
    · rw [ha.length, ha.size]
      exact hn
    · rw [(hbyte b hb).1, (hbyte b hb).2]
      exact h.fits b hb
  · rcases List.mem_cons.mp hb with rfl | hb
    · rw [ha.size]
      exact eight_le_saSize _
    · rw [(hbyte b hb).1]
      exact h.large b hb
  · rcases eq_or_ne z y with rfl | hne
    · exact .inr ⟨a, List.mem_cons_self .., ha.cell⟩
    · rw [hcells z hz hne]
      rcases howner z hz hne with hzero | ⟨b, hb, hword⟩
      · exact .inl hzero
      · exact .inr ⟨b, List.mem_cons_of_mem _ hb, hword⟩
  · rcases eq_or_ne z y with rfl | hzy
    · rw [ha.cell, hcells w hw hne.symm]
      exact .inr (hne_new w hw hne.symm).symm
    · rcases eq_or_ne w y with rfl | hwy
      · rw [ha.cell, hcells z hz hzy]
        exact .inr (hne_new z hz hzy)
      · rw [hcells z hz hzy, hcells w hw hwy]
        exact h.own z ⟨hz, hzy⟩ w ⟨hw, hwy⟩ hne
  · rw [ha.base, ha.low]
    rcases eq_or_ne z y with rfl | hne
    · exact hy
    · exact h.places z ⟨hz, hne⟩
  · rcases eq_or_ne z y with rfl | hzy
    · exact hapart w hw hne.symm
    · rcases eq_or_ne w y with rfl | hwy
      · exact (hapart z hz hzy).symm
      · exact h.apart z ⟨hz, hzy⟩ w ⟨hw, hwy⟩ hne
  · rw [ha.base, ha.low]
    exact hlow
  · rw [ha.low, ha.high]
    exact hroom
  · obtain ⟨b, hb, hword⟩ := (howner z hz hne).resolve_left hzero
    have := h.above hb
    rw [hword, Nat.add_sub_cancel]
    exact hblocks _ (by omega)

/-- A cell is left out. -/
theorem Machine.Heap.diff (h : m.Heap ys bs) (y : ℕ) : m.Heap (ys \ {y}) bs where
  tiled := h.tiled
  fits := h.fits
  large := h.large
  owned z hz := h.owned z hz.1
  own z hz w hw := h.own z hz.1 w hw.1
  places z hz := h.places z hz.1
  apart z hz w hw := h.apart z hz.1 w hw.1
  low := h.low
  free := h.free
  top := h.top

/-- The lowest block is given back. -/
theorem Machine.Heap.giveBack (h : m.Heap ys bs) (hy : y ∈ ys)
    (hbottom : m.bank.word y = m.block blockHighMemoryPtr + 1) :
    (∃ cs, (m.giveBack y).Heap (ys \ {y}) cs) ∧
      (m.giveBack y).block blockHighMemoryPtr = m.block blockHighMemoryPtr + m.capacity y + 2 ∧
      (m.giveBack y).block blockLowMemoryPtr = m.block blockLowMemoryPtr ∧
      ∀ z ∈ ys, z ≠ y → m.SameString (m.giveBack y) z := by
  have hne : m.bank.word y ≠ 0 := by omega
  obtain ⟨b, hb, hword, hcap⟩ := h.block_of_cell hy hne
  -- the block is the first one of the walk
  obtain rfl : b = m.block blockHighMemoryPtr := by omega
  obtain ⟨cs, rfl, htiled⟩ := h.tiled.head hb
  have habove := h.above hb
  have htop := h.top
  have hlow := h.low
  have hfree := h.free
  have hhigh : (m.giveBack y).block blockHighMemoryPtr =
      m.block blockHighMemoryPtr + m.capacity y + 2 := by
    rw [Machine.giveBack, Machine.block_setBlock _ (add16_lt _ _)]
    change add16 (m.capacity y + 2) _ = _
    rw [add16_eq (by omega)]
    omega
  have hlow' : (m.giveBack y).block blockLowMemoryPtr = m.block blockLowMemoryPtr :=
    Machine.block_setBlock_of_disjoint _ (by decide)
  -- only the high memory pointer in the header is written
  have hbank : ∀ c, m.dBaseAddress + 0xe ≤ c → (m.giveBack y).bank c = m.bank c := fun c hc =>
    Machine.giveBack_bank (by unfold blockNullString; omega)
  have hcells : ∀ z ∈ ys, (m.giveBack y).bank.word z = m.bank.word z := by
    intro z hz
    have := h.places z hz
    exact Memory.word_congr (hbank z (by omega)) (hbank (z + 1) (by omega))
  have hbyte : ∀ c, m.block blockHighMemoryPtr ≤ c → (m.giveBack y).bank.byte c = m.bank.byte c :=
    fun c hc => Memory.byte_congr (hbank c (by omega))
  refine ⟨⟨cs, ?_, fun c hc => ?_, fun c hc => ?_, fun z hz => ?_, fun z hz w hw hzw => ?_,
    fun z hz => ?_, ?_, ?_, ?_, h.top⟩, hhigh, hlow',
    fun z hz hzy => ⟨hcells z hz, fun hzero i hi => ?_⟩⟩
  · rw [hhigh, hcap]
    refine Tiled.congr htiled fun c hc => ?_
    have := h.above (List.mem_cons_of_mem _ hc)
    unfold sizeOfBlock
    rw [hbyte c this.1]
  · have := h.above (List.mem_cons_of_mem _ hc)
    rw [hbyte c this.1, hbyte (c + 1) (by omega)]
    exact h.fits c (List.mem_cons_of_mem _ hc)
  · have := h.above (List.mem_cons_of_mem _ hc)
    rw [hbyte c this.1]
    exact h.large c (List.mem_cons_of_mem _ hc)
  · rw [hcells z hz.1]
    rcases h.owned z hz.1 with hzero | ⟨c, hc, hword'⟩
    · exact .inl hzero
    refine .inr ⟨c, ?_, hword'⟩
    -- no other cell has its string in the block that is given back
    rcases List.mem_cons.mp hc with rfl | hc
    · exact absurd (hword'.trans hword.symm) ((h.own z hz.1 y hy hz.2).resolve_left (by omega))
    · exact hc
  · rw [hcells z hz.1, hcells w hw.1]
    exact h.own z hz.1 w hw.1 hzw
  · rw [hlow']
    exact h.places z hz.1
  · exact fun z hz w hw => h.apart z hz.1 w hw.1
  · rw [hlow']
    exact hlow
  · rw [hlow', hhigh]
    omega
  · obtain ⟨c, hc, hword', hcap'⟩ := h.block_of_cell hz hzero
    have := h.above hc
    rw [hword', Nat.add_sub_cancel]
    exact hbank _ (by omega)

/-- A change of the string of `y` in a heap; low memory is kept up to the cell, and high memory takes
one block more at most. -/
structure Machine.Stores (m : Machine) (ys : Set ℕ) (y : ℕ) (m' : Machine) : Prop where
  base : m'.dBaseAddress = m.dBaseAddress
  top : m'.dHighAddress = m.dHighAddress
  low : m'.block blockLowMemoryPtr = m.block blockLowMemoryPtr
  high : m.block blockHighMemoryPtr ≤ m'.block blockHighMemoryPtr + 257
  below : ∀ c, m.dBaseAddress + 0xe ≤ c → c < m.block blockLowMemoryPtr → (c < y ∨ y + 2 ≤ c) →
    m'.bank c = m.bank c
  heap : ∃ bs, m'.Heap ys bs
  nonzero : m'.bank.word y ≠ 0
  capacity : m.bank.word y ≠ 0 → m.capacity y ≤ m'.capacity y
  others : ∀ z ∈ ys, z ≠ y → m.SameString m' z

/-- A string that has not changed. -/
theorem Machine.Heap.stringAt_of_same {s : List ℕ} (h : m.Heap ys bs) (hz : z ∈ ys)
    (hne : m.bank.word z ≠ 0) (hs : m.bank.StringAt (m.bank.word z) s) (hsame : m.SameString m' z) :
    m'.bank.StringAt (m'.bank.word z) s := by
  obtain ⟨b, hb, hword, hcap⟩ := h.block_of_cell hz hne
  have hlen : s.length ≤ m.capacity z := by
    rw [hcap, ← hs.1, hword]
    exact h.fits b hb
  rw [hsame.1]
  refine Memory.BytesAt.congr hs fun c h₀ h₁ => ?_
  obtain ⟨i, rfl⟩ := Nat.exists_eq_add_of_le h₀
  rw [List.length_cons] at h₁
  have hbyte := hsame.2 hne (i + 1) (by omega)
  rwa [show m.bank.word z - 1 + (i + 1) = m.bank.word z + i by omega] at hbyte

/-- A string in low memory is kept. -/
theorem Machine.Stores.stringAt {s : List ℕ} (h : m.Stores ys y m') (hs : m.bank.StringAt x s)
    (hx : m.dBaseAddress + 0xe ≤ x) (hlow : x + s.length < m.block blockLowMemoryPtr)
    (hy : x + s.length < y) : m'.bank.StringAt x s := by
  refine Memory.BytesAt.congr hs fun c h₀ h₁ => ?_
  rw [List.length_cons] at h₁
  exact h.below c (by omega) (by omega) (.inl (by omega))

/-- **An assignment** keeps the heap and all other strings, and the capacity does not become
smaller. -/
theorem Machine.Heap.assign (h : m.Heap ys bs) (hy : y ∈ ys) (hx : m.Assignable ys x y)
    (hok : stringAssign m x y = .ok m') : m.Stores ys y m' := by
  have hplaces := h.places y hy
  have hapart : ∀ z ∈ ys, z ≠ y → y + 2 ≤ z ∨ z + 2 ≤ y := fun z hz hne => h.apart y hy z hz hne.symm
  have hlow := h.low
  have hfree := h.free
  have hplace : x < m.block blockLowMemoryPtr ∨
      x + m.bank.byte x + 1 + 256 ≤ m.block blockHighMemoryPtr ∨ m.block blockHighMemoryPtr ≤ x := by
    refine hx.place.imp_right (Or.imp_right ?_)
    rintro ⟨z, hz, hword, hzero⟩
    obtain ⟨c, hc, hword', -⟩ := h.block_of_cell hz (by omega)
    have := h.above hc
    omega
  -- three of the four ways make a new block for the cell
  have hnew : saAllocate m x y = .ok m' → (m.bank.word y ≠ 0 → m.capacity y < m.bank.byte x) →
      m.Stores ys y m' := by
    intro hok hcap
    obtain ⟨a, ha⟩ := saAllocate_allocates hlow hfree hplaces hx.header hx.apart hplace hok
    obtain ⟨hheap, hfits, hothers⟩ := (h.diff y).allocate hplaces hapart ha
    have hroom := ha.free
    have hstart := ha.start
    have hsize := (saSize_spec (m.bank.byte x)).1
    have hhigh := ha.high
    refine ⟨ha.base, ha.top, ha.low, by omega, fun c h₀ h₁ h₂ => ha.same c h₀ (.inl (by omega)) h₂,
      ⟨_, hheap⟩, ?_, fun hne => ?_, hothers⟩
    · rw [ha.cell]
      exact Nat.succ_ne_zero a
    · exact (hcap hne).le.trans hfits
  unfold stringAssign at hok
  dsimp only at hok
  by_cases hzero : m.bank.word y = 0
  · rw [if_pos hzero] at hok
    exact hnew hok fun hne => absurd hzero hne
  · obtain ⟨b, hb, hword, hcap⟩ := h.block_of_cell hy hzero
    have habove := h.above hb
    have htop := h.top
    have hmax : sub16 (m.bank.word y) 1 = m.bank.word y - 1 :=
      sub16_eq (m.bank.word_lt _) (by omega)
    rw [if_neg hzero, if_neg (by omega), hmax] at hok
    change (if m.bank.byte x ≤ m.capacity y then _ else _) = _ at hok
    by_cases hfits : m.bank.byte x ≤ m.capacity y
    · -- the string goes into the block that is there
      rw [if_pos hfits] at hok
      obtain rfl := Except.ok.inj hok
      obtain ⟨hoff, hlength⟩ :=
        saCopyStringLoop_confined (m.bank.byte x) m x (m.bank.word y) (by omega)
      have hwork := saCopyStringLoop_workspace (m.bank.byte x) m x (m.bank.word y)
      obtain ⟨hheap, hcell, hcapacity, hothers⟩ := h.rewrite hy hzero hfits
        hwork.base hwork.high hoff (hlength.trans_le hfits)
      have hpointer : ∀ k, k < 0x100 → (saCopyString m x y).block k = m.block k := by
        intro k hk
        refine (congrArg (fun a => (saCopyString m x y).bank.word (a + k)) hwork.base).trans ?_
        exact hoff.word (.inl (by omega))
      exact ⟨hwork.base, hwork.high, hpointer _ (by decide),
        (hpointer blockHighMemoryPtr (by decide)) ▸ Nat.le_add_right _ _,
        fun c _ h₁ _ => hoff c (.inl (by omega)), ⟨bs, hheap⟩, hcell ▸ hzero, fun _ => hcapacity.ge, hothers⟩
    · rw [if_neg hfits] at hok
      by_cases hbottom : m.bank.word y = m.block blockHighMemoryPtr + 1
      · -- the lowest block is given back, and a larger one takes its place
        rw [if_neg (by omega)] at hok
        obtain ⟨⟨cs, hheap₁⟩, hhigh₁, hlow₁, hothers₁⟩ := h.giveBack hy hbottom
        have hbyte : (m.giveBack y).bank.byte x = m.bank.byte x :=
          Memory.byte_congr (Machine.giveBack_bank (by
            have := hx.header
            unfold blockNullString
            omega))
        obtain ⟨a, ha⟩ := saAllocate_allocates (m := m.giveBack y) (x := x) (y := y) hheap₁.low
          hheap₁.free (hlow₁ ▸ hplaces) hx.header hx.apart (by
            rw [hlow₁, hhigh₁, hbyte]
            rcases hx.place with hx | hx | ⟨z, hz, hword', hzero'⟩
            · exact .inl hx
            · exact .inr (.inl (by omega))
            · -- the string of another block, which is above the one given back
              obtain ⟨c, hc, hword'', hcap'⟩ := h.block_of_cell hz (by omega)
              have hcb : c ≠ b := by
                rintro rfl
                have := h.fits c hc
                rw [← hword', hword''] at hfits
                omega
              have := h.tiled.apart hc hb hcb
              have := h.above hc
              unfold sizeOfBlock at *
              exact .inr (.inr (by omega))) hok
        obtain ⟨hheap, hfits', hothers⟩ := hheap₁.allocate (hlow₁ ▸ hplaces) hapart ha
        have hroom := ha.free
        have hstart := ha.start
        have hsize := (saSize_spec ((m.giveBack y).bank.byte x)).1
        have hhigh := ha.high
        refine ⟨ha.base, ha.top, ha.low.trans hlow₁, by omega, fun c h₀ h₁ h₂ => ?_, ⟨_, hheap⟩,
          ?_, fun _ => ?_, fun z hz hne => (hothers₁ z hz hne).trans (hothers z hz hne)⟩
        · refine (ha.same c h₀ (.inl (by omega)) h₂).trans (Machine.giveBack_bank ?_)
          unfold blockNullString
          omega
        · rw [ha.cell]
          exact Nat.succ_ne_zero a
        · rw [hbyte] at hfits'
          omega
      · -- the block stays behind without an owner
        rw [if_pos (by omega)] at hok
        exact hnew hok fun _ => by omega

/-- **A string in low memory** arrives in a block of its cell when there is room for any block. -/
theorem Machine.Heap.assign_constant {s : List ℕ} (h : m.Heap ys bs) (hy : y ∈ ys)
    (hs : m.bank.StringAt x s) (hheader : m.dBaseAddress + 0xe ≤ x)
    (hapart : x + s.length + 1 ≤ y ∨ y + 2 ≤ x) (hlow : x + s.length < m.block blockLowMemoryPtr)
    (hroom : m.block blockLowMemoryPtr + 257 ≤ m.block blockHighMemoryPtr) :
    ∃ m', m.Assignable ys x y ∧ stringAssign m x y = .ok m' ∧ m.Stores ys y m' ∧
      m'.bank.StringAt (m'.bank.word y) s := by
  have hplaces := h.places y hy
  have htop := h.top
  have hbound := m.block_lt blockLowMemoryPtr
  have hx : m.Assignable ys x y := ⟨hheader, by omega, .inl (by omega)⟩
  have hr : m.Room y := ⟨by unfold blockNullString; omega, hplaces.2, hroom⟩
  have hholds : m.HoldsString x y s :=
    ⟨hs, by unfold blockNullString; omega, hapart, .inl (by omega), by omega⟩
  -- the cell is empty, or has a block that a string in low memory cannot touch
  have howns : m.bank.word y < m.block blockHighMemoryPtr ∨ m.Owns y x s.length := by
    by_cases hzero : m.bank.word y = 0
    · exact .inl (by omega)
    · obtain ⟨b, hb, hword, hcap⟩ := h.block_of_cell hy hzero
      have habove := h.above hb
      have hfits := h.fits b hb
      have hsub : m.bank.word y - 1 = b := by omega
      refine .inr ⟨by omega, ?_, ?_, .inr (.inl (by omega))⟩
      · rw [hsub, hword]
        exact hfits
      · rw [hsub]
        omega
  obtain ⟨m', hok, hstring⟩ := stringAssign_spec hr hholds howns
  refine ⟨m', hx, hok, h.assign hy hx hok, hstring.mpr ?_⟩
  rintro ⟨-, htopmost, -⟩
  omega

end

end Basic65816
