import Basic65816.Builder.BasicBlock
import Basic65816.Storage.HeapRuns

/-!
# The use of the string heap (`string_usage.py`)

`analyse` walks over the blocks of the string heap in the image of a workspace and counts them. The
walk has an end only if it arrives exactly at the end of the image, and the efficiency is divided by
the sum of the capacities. In every state of a run both go well.

## Main definitions

* `Builder.BasicBlock.analyse`: the counts, and the efficiency
* `Builder.BasicBlock.Images`: the image of a workspace

## Main results

* `string_usage`: what is counted in a state of a run
-/

namespace Basic65816.Builder

/-- The counts: the blocks, their capacities, and the bytes of them that are in use. -/
structure StringUsage where
  count : ℕ
  allocated : ℕ
  used : ℕ
  deriving DecidableEq, Repr

namespace BasicBlock

/-- `readByte`. -/
def readByte (b : BasicBlock) (addr : ℕ) : Option ℕ :=
  if b.baseAddress ≤ addr ∧ addr ≤ b.endAddress ∧ addr - b.baseAddress < b.blockSize then
    some (b.data.byte (addr - b.baseAddress))
  else none

/-- The loop of `analyse`. Every round moves `pos` upwards, so that the block size bounds the number
of rounds before an assertion fails. -/
def analyseLoop (b : BasicBlock) : ℕ → ℕ → StringUsage → Option StringUsage
  | 0, _, _ => none
  | n + 1, pos, u =>
    if pos ≠ b.endAddress then do
      let link ← b.readByte pos
      let length ← b.readByte (pos + 1)
      b.analyseLoop n (pos + link + 2)
        ⟨u.count + 1, u.allocated + link, u.used + (1 + length)⟩
    else some u

/-- `analyse`: the counts, and the efficiency if there are blocks; a division by zero is `none`. -/
def analyse (b : BasicBlock) : Option (StringUsage × Option ℕ) := do
  let pos ← b.readWord (b.baseAddress + blockHighMemoryPtr)
  let u ← b.analyseLoop (b.blockSize + 1) pos ⟨0, 0, 0⟩
  if u.count ≠ 0 then
    if u.allocated = 0 then none else some (u, some (u.used * 100 / u.allocated))
  else some (u, none)

/-- The image of the workspace. -/
structure Images (b : BasicBlock) (m : Machine) : Prop where
  base : b.baseAddress = m.dBaseAddress
  top : b.endAddress = m.dHighAddress
  data : ∀ i < b.blockSize, b.data i = m.bank (m.dBaseAddress + i)

/-- The counts of the blocks `bs`. -/
def usage (bank : Memory) (bs : List ℕ) : StringUsage :=
  ⟨bs.length, (bs.map fun b => bank.byte b).sum, (bs.map fun b => 1 + bank.byte (b + 1)).sum⟩

section

variable {b : BasicBlock} {m : Machine} {ys : Set ℕ} {bs : List ℕ} {a n : ℕ}

theorem Images.readByte (h : b.Images m) (ha : m.dBaseAddress ≤ a) (hlt : a < m.dHighAddress) :
    b.readByte a = some (m.bank.byte a) := by
  have hbase := h.base
  have htop := h.top
  unfold endAddress at htop
  unfold BasicBlock.readByte endAddress
  rw [if_pos (by omega), hbase]
  unfold Memory.byte
  rw [h.data _ (by omega), Nat.add_sub_cancel' ha]

theorem Images.readWord (h : b.Images m) (ha : m.dBaseAddress ≤ a) (hlt : a + 1 < m.dHighAddress) :
    b.readWord a = some (m.bank.word a) := by
  have hbase := h.base
  have htop := h.top
  unfold endAddress at htop
  unfold BasicBlock.readWord index endAddress
  rw [if_pos (by omega), hbase]
  rw [Option.bind_eq_bind, Option.bind_some]
  unfold Memory.word Memory.byte
  rw [h.data _ (by omega), h.data _ (by omega), ← Nat.add_assoc, Nat.add_sub_cancel' ha]

/-- The loop counts the blocks that are left. -/
theorem Images.analyseLoop (h : b.Images m)
    (ht : Tiling.Tiled (sizeOfBlock m.bank) m.dHighAddress a bs) (ha : m.dBaseAddress ≤ a)
    (hn : bs.length < n) (u : StringUsage) :
    b.analyseLoop n a u = some ⟨u.count + bs.length, u.allocated + (usage m.bank bs).allocated,
      u.used + (usage m.bank bs).used⟩ := by
  induction ht generalizing n u with
  | nil =>
    obtain ⟨n, rfl⟩ := Nat.exists_eq_add_of_lt hn
    -- the walk ends at the end address exactly
    rw [BasicBlock.analyseLoop, if_neg (not_not_intro h.top.symm)]
    rfl
  | @cons a bs ht ih =>
    obtain ⟨n, rfl⟩ := Nat.exists_eq_add_of_lt hn
    have hle := ht.le
    unfold sizeOfBlock at hle
    -- both bytes of the header are inside the image
    rw [BasicBlock.analyseLoop, if_pos (by rw [h.top]; omega), h.readByte ha (by omega),
      h.readByte (by omega) (by omega)]
    dsimp only [Option.bind_eq_bind, Option.bind_some]
    refine (ih (n := (a :: bs).length + n) ?_ ?_ _).trans ?_
    · unfold sizeOfBlock
      omega
    · rw [List.length_cons]
      omega
    simp only [usage, List.length_cons, List.map_cons, List.sum_cons, Option.some.injEq,
      StringUsage.mk.injEq]
    omega

/-- No block is smaller than eight characters, and the strings fit into the blocks. -/
theorem usage_bounds (h : m.Heap ys bs) : 8 * bs.length ≤ (usage m.bank bs).allocated ∧
    (usage m.bank bs).used ≤ (usage m.bank bs).allocated + bs.length := by
  have hall : ∀ c ∈ bs, 8 ≤ m.bank.byte c ∧ m.bank.byte (c + 1) ≤ m.bank.byte c :=
    fun c hc => ⟨h.large c hc, h.fits c hc⟩
  clear h
  induction bs with
  | nil => exact ⟨Nat.le_refl _, Nat.le_refl _⟩
  | cons c bs ih =>
    have hc := hall c (List.mem_cons_self ..)
    have hbs := ih fun d hd => hall d (List.mem_cons_of_mem _ hd)
    simp only [usage, List.length_cons, List.map_cons, List.sum_cons] at hbs ⊢
    omega

/-- The walk over the heap comes to an end, and there is no division by zero. -/
theorem Images.analyse (h : b.Images m) (hh : m.Heap ys bs) :
    b.analyse = some (usage m.bank bs, if bs = [] then none else
      some ((usage m.bank bs).used * 100 / (usage m.bank bs).allocated)) := by
  have hbase := h.base
  have htop := h.top
  have hlow := hh.low
  have hfree := hh.free
  have hle := hh.tiled.le
  have hlen := hh.tiled.length_le fun c _ => Nat.succ_pos _
  have hbounds := (usage_bounds hh).1
  unfold endAddress at htop
  have hsize : (usage m.bank bs).count = bs.length := rfl
  rw [BasicBlock.analyse, hbase, h.readWord (Nat.le_add_right _ _)
    (by unfold blockHighMemoryPtr; omega)]
  change (b.analyseLoop (b.blockSize + 1) (m.block blockHighMemoryPtr) ⟨0, 0, 0⟩ >>= _) = _
  rw [h.analyseLoop hh.tiled (by omega) (by omega)]
  simp only [Nat.zero_add, Option.bind_eq_bind, Option.bind_some]
  -- an empty heap has no percentage; any other one has eight bytes at least
  rcases bs with _ | ⟨c, cs⟩
  · rfl
  · rw [if_pos (by simp), if_neg (by rw [List.length_cons] at hbounds; omega), if_neg (by simp)]
    rfl

/-- The cells that are not empty have blocks of their own. -/
theorem card_le_of_heap (h : m.Heap ys bs) (t : Finset ℕ) (ht : ∀ y ∈ t, y ∈ ys ∧ m.bank.word y ≠ 0) :
    t.card ≤ bs.length := by
  refine (Finset.card_le_card_of_injOn (fun y => m.bank.word y - 1) (t := bs.toFinset) ?_ ?_).trans
    (List.toFinset_card_le bs)
  · intro y hy
    obtain ⟨c, hc, hword, -⟩ := h.block_of_cell (ht y hy).1 (ht y hy).2
    simp only [hword, Nat.add_sub_cancel, Finset.mem_coe, List.mem_toFinset]
    exact hc
  · -- two cells with one block would be one cell
    intro y hy z hz heq
    have hy' := ht y hy
    have hz' := ht z hz
    by_contra hne
    rcases h.own y hy'.1 z hz'.1 hne with h₀ | h₀
    · exact hy'.2 h₀
    · dsimp only at heq
      omega

/-- **The use of the string heap.** In every state of a run `analyse` comes to an end on the image of
the workspace. The blocks on its way divide the memory above the high memory pointer, and each of them
has room for eight characters at least and for its string. It finds no fewer blocks than there are
strings in variables, and the strings that it counts fit into the blocks. -/
theorem string_usage {p : Program} {fs : List StackFrame} (h : StringRun p m ys fs)
    (hb : b.Images m) : ∃ bs u e,
      Tiling.Tiled (sizeOfBlock m.bank) m.dHighAddress (m.block blockHighMemoryPtr) bs ∧
      (∀ c ∈ bs, 8 ≤ m.bank.byte c ∧ m.bank.byte (c + 1) ≤ m.bank.byte c) ∧
      u = usage m.bank bs ∧ b.analyse = some (u, e) ∧ (e = none ↔ u.count = 0) ∧
      8 * u.count ≤ u.allocated ∧ u.used ≤ u.allocated + u.count ∧
      u.allocated + 2 * u.count + m.block blockHighMemoryPtr = m.dHighAddress ∧
      ∀ t : Finset ℕ, (∀ y ∈ t, y ∈ ys ∧ m.bank.word y ≠ 0) → t.card ≤ u.count := by
  obtain ⟨bs, hh⟩ := h.strings.heap
  have hbounds := usage_bounds hh
  refine ⟨bs, _, _, hh.tiled, fun c hc => ⟨hh.large c hc, hh.fits c hc⟩, rfl, hb.analyse hh, ?_,
    hbounds.1, hbounds.2, ?_, card_le_of_heap hh⟩
  · rcases bs with _ | ⟨c, cs⟩ <;> simp [usage]
  · -- the sizes of the blocks add up to the region
    have hsum := hh.tiled.sum
    have hsizes : (bs.map (sizeOfBlock m.bank)).sum =
        (usage m.bank bs).allocated + 2 * bs.length := by
      unfold sizeOfBlock
      rw [List.sum_map_add, List.map_const', List.sum_replicate, smul_eq_mul, Nat.mul_comm]
      rfl
    rw [hsizes] at hsum
    change _ + 2 * bs.length + _ = _
    omega

/-- The image of a workspace with two strings: there are two blocks at least, and each of them has room
for eight characters. -/
theorem string_usage_two : ∃ (m : Machine) (b : BasicBlock) (bs : List ℕ) (u : StringUsage)
    (e : Option ℕ), b.Images m ∧ m.bank.StringAt (m.bank.word 0x4206) (ord "A") ∧
      m.bank.StringAt (m.bank.word 0x420A) (ord "XYZ") ∧ (∀ c ∈ bs, 8 ≤ m.bank.byte c) ∧
      u = usage m.bank bs ∧ b.analyse = some (u, e) ∧ 2 ≤ u.count := by
  obtain ⟨m, hrun, hne, ha, hne', hxyz, -, hbase, htop, -⟩ := StringRun.two_strings
  have hb : Images ⟨m.dBaseAddress, m.dHighAddress - m.dBaseAddress,
      fun i => m.bank (m.dBaseAddress + i), false, 0⟩ m :=
    ⟨rfl, by unfold endAddress; dsimp only; omega, fun _ _ => rfl⟩
  obtain ⟨bs, u, e, -, hlarge, hcount, hu, -, -, -, -, hcard⟩ := string_usage hrun hb
  refine ⟨m, _, bs, u, e, hb, ha, hxyz, fun c hc => (hlarge c hc).1, hcount, hu,
    hcard {0x4206, 0x420A} fun y hy => ?_⟩
  rw [Finset.mem_insert, Finset.mem_singleton] at hy
  rcases hy with rfl | rfl
  · exact ⟨.inl rfl, hne⟩
  · exact ⟨.inr rfl, hne'⟩

end

end BasicBlock

end Basic65816.Builder
