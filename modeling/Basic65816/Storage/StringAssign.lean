import Basic65816.Expression.StringComparison
import Basic65816.Expression.Surroundings
import Basic65816.Machine.Run
import Basic65816.Storage.Record

/-!
# Storing a string

`StringAssign` copies the new string into the block the variable owns, or into a new block below the
others. A temporary string may reach up to 256 bytes below the lowest block; a new block of the
largest size takes 257 bytes, so its first byte is then the last character of that string.

## Main definitions

* `Machine.HoldsString`: a string that an expression may deliver
* `Machine.Owns`: the block a variable owns
* `Machine.TakesBlock`, `Machine.Spoils`: the assignments that make a new block, and those that spoil
  the string by it

## Main results

* `saCopyStringLoop_spec`: the copy loop copies
* `stringAssign_spec`: the variable holds the string, unless making the block has spoilt it
* `string_assignment`: the same of the statement
-/

/-! ## Strings in memory -/

section

variable {a b : ℕ} {s : List ℕ}

theorem Memory.bytesAt_iff {bank : Memory} : bank.BytesAt a s ↔ bank.bytes a s.length = s :=
  ⟨Memory.BytesAt.eq_bytes, fun h => h ▸ (bank.bytesAt_bytes s.length a)⟩

instance (bank : Memory) (a : ℕ) (s : List ℕ) : Decidable (bank.BytesAt a s) :=
  decidable_of_iff _ Memory.bytesAt_iff.symm

instance (bank : Memory) (a : ℕ) (s : List ℕ) : Decidable (bank.StringAt a s) :=
  inferInstanceAs (Decidable (bank.BytesAt a (s.length :: s)))

theorem Memory.StringAt.length_lt {bank : Memory} (h : bank.StringAt a s) : s.length < 256 :=
  h.1 ▸ bank.byte_lt a

/-- A string that is copied byte by byte is there. -/
theorem Memory.StringAt.copy {bank bank' : Memory} (h : bank.StringAt a s)
    (hc : ∀ i ≤ s.length, bank' (b + i) = bank (a + i)) : bank'.StringAt b s := by
  refine ⟨(congrArg UInt8.toNat (hc 0 (Nat.zero_le _))).trans h.1, ?_⟩
  have hchars : ∀ (t : List ℕ) (c d : ℕ), bank.BytesAt c t →
      (∀ i < t.length, bank' (d + i) = bank (c + i)) → bank'.BytesAt d t := by
    intro t
    induction t with
    | nil => intro c d _ _; trivial
    | cons v t ih =>
      intro c d ht hi
      refine ⟨(congrArg UInt8.toNat (hi 0 (by simp))).trans ht.1, ih (c + 1) (d + 1) ht.2 ?_⟩
      intro i hlt
      have := hi (i + 1) (by simpa using hlt)
      rwa [show d + 1 + i = d + (i + 1) by omega, show c + 1 + i = c + (i + 1) by omega]
  refine hchars s (a + 1) (b + 1) h.2 fun i hi => ?_
  rw [show b + 1 + i = b + (i + 1) by omega, show a + 1 + i = a + (i + 1) by omega]
  exact hc (i + 1) (by omega)

end

namespace Basic65816

/-! ## The copy loop -/

section

variable {m : Machine} {n x y : ℕ}

theorem saCopyStringLoop_spec (hx : x + n < 0x10000) (hy : y + n < 0x10000)
    (h : x + n < y ∨ y + n < x ∨ x = y) :
    Memory.EqOff y (y + n + 1) m.bank (saCopyStringLoop n m x y).bank ∧
      ∀ i ≤ n, (saCopyStringLoop n m x y).bank (y + i) = m.bank (x + i) := by
  have hbyte : ∀ (m : Machine) (x : ℕ), UInt8.ofNat (m.bank.byte x) = m.bank x := fun m x =>
    UInt8.ofNat_toNat
  induction n generalizing m x y with
  | zero =>
    refine ⟨(Memory.EqOff.refl _ _ _).setByte (Nat.le_refl y) (by omega), fun i hi => ?_⟩
    obtain rfl : i = 0 := by omega
    exact (Memory.setByte_self _ _ _).trans (hbyte m x)
  | succ n ih =>
    rw [saCopyStringLoop, add16_eq (by omega), add16_eq (by omega)]
    obtain ⟨hoff, hcopy⟩ := ih (m := { m with bank := m.bank.setByte y (m.bank.byte x) })
      (x := x + 1) (y := y + 1) (by omega) (by omega) (by omega)
    refine ⟨?_, fun i hi => ?_⟩
    · have hset : Memory.EqOff y (y + (n + 1) + 1) m.bank (m.bank.setByte y (m.bank.byte x)) :=
        (Memory.EqOff.refl _ _ _).setByte (Nat.le_refl y) (by omega)
      exact hset.trans (hoff.mono (by omega) (by omega))
    · rcases Nat.eq_zero_or_pos i with rfl | hpos
      · refine (hoff y (by omega)).trans ?_
        exact (Memory.setByte_self _ _ _).trans (hbyte m x)
      · obtain ⟨j, rfl⟩ : ∃ j, i = j + 1 := ⟨i - 1, by omega⟩
        have hj := hcopy j (by omega)
        rw [show y + (j + 1) = y + 1 + j by omega, show x + (j + 1) = x + 1 + j by omega, hj]
        exact Memory.setByte_of_ne (by omega)

/-- The loop changes nothing but the workspace and a temporary. -/
theorem saCopyStringLoop_workspace (n : ℕ) (m : Machine) (x y : ℕ) :
    m.Workspace (saCopyStringLoop n m x y) := by
  induction n generalizing m x y with
  | zero => exact ⟨rfl, rfl, rfl, rfl, rfl, rfl, rfl⟩
  | succ n ih =>
    refine Machine.Workspace.trans ?_ (ih _ _ _)
    exact ⟨rfl, rfl, rfl, rfl, rfl, rfl, rfl⟩

end

/-! ## A new block -/

namespace Machine

/-- The place of a new block for the string at `x`. -/
def blockAddress (m : Machine) (x : ℕ) : ℕ :=
  sub16 (m.block blockHighMemoryPtr) (saSize (m.bank.byte x) + 2)

/-- A new block for the string at `x` is made, and its address stored at `y`. -/
def newBlock (m : Machine) (x y : ℕ) : Machine :=
  let m₁ := m.setBlock blockHighMemoryPtr (m.blockAddress x)
  { m₁ with
    bank := (m₁.bank.setWord (m.blockAddress x) (saSize (m.bank.byte x))).setWord y
      (add16 (m.blockAddress x) 1) }

/-- There is room for a block of any size below the strings, and the data at `y` belongs to a
variable: it lies behind the pointers of the header and below the low memory pointer. -/
structure Room (m : Machine) (y : ℕ) : Prop where
  header : m.dBaseAddress + blockNullString ≤ y
  data : y + 2 ≤ m.block blockLowMemoryPtr
  free : m.block blockLowMemoryPtr + 257 ≤ m.block blockHighMemoryPtr

/-- The string `s` stands at `a` as an expression may deliver it to the variable whose data is at `y`:
behind the pointers of the header and apart from the data, and either in a block or at least 256 bytes
below the blocks, where the program ends and the temporary strings begin. -/
structure HoldsString (m : Machine) (a y : ℕ) (s : List ℕ) : Prop where
  stringAt : m.bank.StringAt a s
  header : m.dBaseAddress + blockNullString ≤ a
  apart : a + s.length + 1 ≤ y ∨ y + 2 ≤ a
  place : a + s.length + 1 + 256 ≤ m.block blockHighMemoryPtr ∨ m.block blockHighMemoryPtr < a
  bound : a + s.length < 0x10000

/-- The variable whose data is at `y` owns a block, and the string of length `n` at `a` is its own or
lies apart from that block. -/
structure Owns (m : Machine) (y a n : ℕ) : Prop where
  above : m.block blockHighMemoryPtr < m.bank.word y
  fits : m.bank.byte (m.bank.word y) ≤ m.bank.byte (m.bank.word y - 1)
  bound : m.bank.word y + m.bank.byte (m.bank.word y - 1) + 1 < 0x10000
  apart : a = m.bank.word y ∨ a + n + 2 ≤ m.bank.word y ∨
    m.bank.word y + m.bank.byte (m.bank.word y - 1) + 2 ≤ a

/-- The assignment makes a new block below the others: the variable has none, or it has one that is
too small and not the lowest. -/
def TakesBlock (m : Machine) (a y : ℕ) : Prop :=
  m.bank.word y < m.block blockHighMemoryPtr ∨
    m.bank.byte (m.bank.word y - 1) < m.bank.byte a ∧
      m.bank.word y ≠ m.block blockHighMemoryPtr + 1

/-- The assignment spoils the string: it makes a new block, of the largest size, and the string is the
topmost temporary string, whose last character is not the one that stands for that size. -/
def Spoils (m : Machine) (a y : ℕ) (s : List ℕ) : Prop :=
  m.TakesBlock a y ∧ a + s.length + 1 + 256 = m.block blockHighMemoryPtr ∧ 247 ≤ s.length ∧
    s.getLast? ≠ some 255

end Machine

theorem saSize_spec (n : ℕ) : saSize n ≤ 255 ∧ (n < 256 → n ≤ saSize n) := by
  unfold saSize
  split <;> exact ⟨by omega, fun _ => by omega⟩

/-- Only a string of 247 characters or more gets a block of the largest size. -/
theorem saSize_eq_iff {n : ℕ} : saSize n = 255 ↔ 247 ≤ n := by
  unfold saSize
  split <;> constructor <;> intro <;> omega

section

variable {m : Machine} {a y : ℕ} {s : List ℕ}

theorem saAllocate_eq (h : m.block blockLowMemoryPtr ≤ m.blockAddress a) :
    saAllocate m a y = .ok (saCopyString (m.newBlock a y) a y) := by
  unfold saAllocate
  dsimp only
  rw [Machine.block_setBlock_of_disjoint _ (by decide)]
  exact if_neg (Nat.not_lt.mpr h)

theorem Machine.blockAddress_eq (h : m.Room y) (a : ℕ) :
    m.blockAddress a + (saSize (m.bank.byte a) + 2) = m.block blockHighMemoryPtr := by
  have hS := (saSize_spec (m.bank.byte a)).1
  have hH := m.block_lt blockHighMemoryPtr
  have := h.free
  unfold Machine.blockAddress
  rw [sub16_eq hH (by omega)]
  omega

/-- Making a block changes the high memory pointer, the start of the block and the address of the
string. -/
theorem Machine.newBlock_bank {c : ℕ} (hh : c + 1 ≤ m.dBaseAddress + blockHighMemoryPtr ∨
      m.dBaseAddress + blockNullString ≤ c)
    (hp : c + 1 ≤ m.blockAddress a ∨ m.blockAddress a + 2 ≤ c) (hy : c + 1 ≤ y ∨ y + 2 ≤ c) :
    (m.newBlock a y).bank c = m.bank c := by
  unfold blockHighMemoryPtr blockNullString at hh
  refine (Memory.setWord_of_ne (by omega) (by omega)).trans ?_
  refine (Memory.setWord_of_ne (by omega) (by omega)).trans ?_
  refine Memory.setWord_of_ne ?_ ?_
  · show c ≠ m.dBaseAddress + 0x0a
    omega
  · show c ≠ m.dBaseAddress + 0x0a + 1
    omega

/-- The source is what it was when the block has been made, up to the place where the block begins. -/
theorem Machine.newBlock_source (hr : m.Room y) (h : m.HoldsString a y s) {i : ℕ} (hi : i ≤ s.length)
    (hp : a + i ≠ m.blockAddress a) : (m.newBlock a y).bank (a + i) = m.bank (a + i) := by
  have hp' := Machine.blockAddress_eq hr a
  have hS := saSize_spec (m.bank.byte a)
  have hb : m.bank.byte a = s.length := h.stringAt.1
  have := h.header
  have := h.apart
  have := h.place
  exact Machine.newBlock_bank (.inr (by omega)) (by omega) (by omega)

/-- A new block receives the string as it stands when the block has been made. -/
theorem saAllocate_spec (hr : m.Room y) (h : m.HoldsString a y s) :
    saAllocate m a y = .ok (saCopyString (m.newBlock a y) a y) ∧
    (saCopyString (m.newBlock a y) a y).bank.word y = m.blockAddress a + 1 ∧
    (∀ i ≤ s.length, (saCopyString (m.newBlock a y) a y).bank (m.blockAddress a + 1 + i) =
      (m.newBlock a y).bank (a + i)) ∧
    Memory.EqOff (m.blockAddress a + 1) (m.blockAddress a + 1 + s.length + 1) (m.newBlock a y).bank
      (saCopyString (m.newBlock a y) a y).bank := by
  have hp := Machine.blockAddress_eq hr a
  have hS := saSize_spec (m.bank.byte a)
  have hb : m.bank.byte a = s.length := h.stringAt.1
  have hl := h.stringAt.length_lt
  have hH := m.block_lt blockHighMemoryPtr
  have hn := hS.2 (m.bank.byte_lt a)
  have := h.place
  have := h.bound
  have := h.apart
  have := h.header
  obtain ⟨hy₀, hy₁, hroom⟩ := hr
  have hlow : m.block blockLowMemoryPtr ≤ m.blockAddress a := by omega
  have hword : (m.newBlock a y).bank.word y = m.blockAddress a + 1 := by
    refine (Memory.word_setWord (add16_lt _ _)).trans (add16_eq ?_)
    omega
  -- a block that begins at the source is of the largest size, and then the source is not empty
  have hne : a ≠ m.blockAddress a := by
    intro heq
    have := saSize_eq_iff.mp (show saSize (m.bank.byte a) = 255 by omega)
    omega
  have hlen : (m.newBlock a y).bank.byte a = s.length := by
    rw [← hb]
    exact Memory.byte_congr (Machine.newBlock_source (i := 0) ⟨hy₀, hy₁, hroom⟩ h (Nat.zero_le _)
      (by omega))
  have hcopy : saCopyString (m.newBlock a y) a y =
      saCopyStringLoop s.length (m.newBlock a y) a (m.blockAddress a + 1) := by
    rw [saCopyString, hlen, hword]
  obtain ⟨hoff, hbytes⟩ := saCopyStringLoop_spec (m := m.newBlock a y) (n := s.length) (x := a)
    (y := m.blockAddress a + 1) (by omega) (by omega) (by omega)
  rw [hcopy]
  refine ⟨(saAllocate_eq hlow).trans (by rw [hcopy]), ?_, hbytes, hoff⟩
  exact (hoff.word (a := y) (.inl (by omega))).trans hword

/-- The block begins within the source only where the source is spoilt. -/
theorem Machine.source_eq_blockAddress (hr : m.Room y) (h : m.HoldsString a y s) {i : ℕ}
    (hi : i ≤ s.length) (heq : a + i = m.blockAddress a) :
    i = s.length ∧ 247 ≤ s.length ∧ a + s.length + 1 + 256 = m.block blockHighMemoryPtr := by
  have hp := Machine.blockAddress_eq hr a
  have hS := saSize_spec (m.bank.byte a)
  have hb : m.bank.byte a = s.length := h.stringAt.1
  have := h.place
  have hsize : saSize (m.bank.byte a) = 255 := by omega
  have := saSize_eq_iff.mp hsize
  omega

/-- The start of the new block is its capacity. -/
theorem Machine.newBlock_blockAddress (hr : m.Room y) (a : ℕ) :
    (m.newBlock a y).bank.byte (m.blockAddress a) = saSize (m.bank.byte a) := by
  have hp := Machine.blockAddress_eq hr a
  have hS := (saSize_spec (m.bank.byte a)).1
  have := hr.data
  have := hr.free
  refine (Memory.byte_setWord_of_ne (by omega) (by omega)).trans ?_
  refine (Memory.byte_setWord_low _ _ _).trans ?_
  omega

/-- A string of which nothing but the last character has changed. -/
theorem stringAt_of_dropLast {bank bank' : Memory} {b : ℕ} (h : bank.StringAt a s)
    (hn : s ≠ []) (hc : ∀ i < s.length, bank' (b + i) = bank (a + i)) :
    bank'.StringAt b s ↔ s.getLast? = some (bank'.byte (b + s.length)) := by
  have hpos : 0 < s.length := List.length_pos_of_ne_nil hn
  have hlast : ∀ (bank : Memory) (c : ℕ), bank.StringAt c s →
      s.getLast? = some (bank.byte (c + s.length)) := by
    intro bank c hs
    have := Memory.BytesAt.get hs.2 (i := s.length - 1) (by omega)
    rw [List.getLast?_eq_getElem?, List.getElem?_eq_getElem (by omega), ← this,
      show c + 1 + (s.length - 1) = c + s.length by omega]
  refine ⟨hlast bank' b, fun hl => h.copy fun i hi => ?_⟩
  rcases Nat.lt_or_ge i s.length with hlt | hge
  · exact hc i hlt
  · obtain rfl : i = s.length := by omega
    rw [hlast bank a h] at hl
    exact UInt8.toNat_inj.mp (Option.some.inj hl).symm

/-- **A new block** holds the string, unless its start was the last character. -/
theorem stringAt_saAllocate (hr : m.Room y) (h : m.HoldsString a y s) :
    ∃ m', saAllocate m a y = .ok m' ∧ (m'.bank.StringAt (m'.bank.word y) s ↔
      ¬(a + s.length + 1 + 256 = m.block blockHighMemoryPtr ∧ 247 ≤ s.length ∧
        s.getLast? ≠ some 255)) := by
  obtain ⟨hok, hword, hcopy, -⟩ := saAllocate_spec hr h
  refine ⟨_, hok, ?_⟩
  rw [hword]
  by_cases hover : a + s.length = m.blockAddress a
  · obtain ⟨-, hlen, htop⟩ := Machine.source_eq_blockAddress hr h (Nat.le_refl _) hover
    have hsize : saSize (m.bank.byte a) = 255 := saSize_eq_iff.mpr (h.stringAt.1.symm ▸ hlen)
    have hne : s ≠ [] := by
      rintro rfl
      simp at hlen
    rw [stringAt_of_dropLast (b := m.blockAddress a + 1) h.stringAt hne]
    · have hlast : (saCopyString (m.newBlock a y) a y).bank.byte
          (m.blockAddress a + 1 + s.length) = 255 := by
        rw [Memory.byte, hcopy _ (Nat.le_refl _), hover, ← hsize]
        exact Machine.newBlock_blockAddress hr a
      rw [hlast]
      refine ⟨fun hl hbad => hbad.2.2 hl, fun hbad => ?_⟩
      by_contra hl
      exact hbad ⟨htop, hlen, hl⟩
    · intro i hi
      rw [hcopy i hi.le]
      exact Machine.newBlock_source hr h hi.le (by omega)
  · have hsame : ∀ i ≤ s.length, a + i ≠ m.blockAddress a := by
      intro i hi heq
      obtain ⟨rfl, -, -⟩ := Machine.source_eq_blockAddress hr h hi heq
      exact hover heq
    refine iff_of_true (h.stringAt.copy fun i hi => ?_) ?_
    · rw [hcopy i hi]
      exact Machine.newBlock_source hr h hi (hsame i hi)
    · rintro ⟨htop, hlen, -⟩
      have hp := Machine.blockAddress_eq hr a
      have hsize := saSize_eq_iff.mpr (h.stringAt.1.symm ▸ hlen : 247 ≤ m.bank.byte a)
      omega

/-- The old block holds a string that fits. -/
theorem stringAt_saCopyString (hr : m.Room y) (h : m.HoldsString a y s) (ho : m.Owns y a s.length)
    (hfits : m.bank.byte a ≤ m.bank.byte (m.bank.word y - 1)) :
    (saCopyString m a y).bank.StringAt ((saCopyString m a y).bank.word y) s := by
  have hb : m.bank.byte a = s.length := h.stringAt.1
  have := ho.above
  have := ho.bound
  have := ho.apart
  have := hr.data
  have := hr.free
  obtain ⟨hoff, hbytes⟩ := saCopyStringLoop_spec (m := m) (n := s.length) (x := a)
    (y := m.bank.word y) h.bound (by omega) (by omega)
  have hcopy : saCopyString m a y = saCopyStringLoop s.length m a (m.bank.word y) := by
    rw [saCopyString, hb]
  rw [hcopy, hoff.word (a := y) (.inl (by omega))]
  exact h.stringAt.copy hbytes

/-- The high memory pointer when the lowest block, that of the variable at `y`, has been given back. -/
def Machine.giveBack (m : Machine) (y : ℕ) : Machine :=
  m.setBlock blockHighMemoryPtr
    (add16 (m.bank.byte (m.bank.word y - 1) + 2) (m.block blockHighMemoryPtr))

theorem Machine.giveBack_bank {c : ℕ} (h : m.dBaseAddress + blockNullString ≤ c) :
    (m.giveBack y).bank c = m.bank c := by
  unfold blockNullString at h
  refine Memory.setWord_of_ne ?_ ?_
  · show c ≠ m.dBaseAddress + 0x0a
    omega
  · show c ≠ m.dBaseAddress + 0x0a + 1
    omega

theorem Machine.giveBack_high (h : m.bank.word y = m.block blockHighMemoryPtr + 1)
    (ho : m.Owns y a s.length) : (m.giveBack y).block blockHighMemoryPtr =
      m.block blockHighMemoryPtr + m.bank.byte (m.bank.word y - 1) + 2 := by
  have := ho.bound
  rw [giveBack, block_setBlock _ (add16_lt _ _), add16_eq (by omega)]
  omega

/-- The string is where it was when the lowest block has been given back, and there is more room. -/
theorem Machine.giveBack_spec (hr : m.Room y) (h : m.HoldsString a y s) (ho : m.Owns y a s.length)
    (hlow : m.bank.word y = m.block blockHighMemoryPtr + 1)
    (hlong : m.bank.byte (m.bank.word y - 1) < m.bank.byte a) :
    (m.giveBack y).Room y ∧ (m.giveBack y).HoldsString a y s := by
  have hhigh := Machine.giveBack_high hlow ho
  have hlo : (m.giveBack y).block blockLowMemoryPtr = m.block blockLowMemoryPtr :=
    block_setBlock_of_disjoint _ (by decide)
  have hb : m.bank.byte a = s.length := h.stringAt.1
  have hfits := ho.fits
  have hapart := ho.apart
  refine ⟨⟨hr.header, ?_, ?_⟩, ⟨?_, h.header, h.apart, ?_, h.bound⟩⟩
  · rw [hlo]
    exact hr.data
  · have := hr.free
    omega
  · exact h.stringAt.copy fun i _ => Machine.giveBack_bank (Nat.le_add_right_of_le h.header)
  · rw [hhigh]
    rcases h.place with hp | hp
    · exact .inl (by omega)
    · refine .inr ?_
      rcases hapart with rfl | hapart | hapart
      · omega
      · omega
      · omega

/-- **Storing a string.** When there is room, the variable holds the string afterwards, unless the
assignment spoils it. -/
theorem stringAssign_spec (hr : m.Room y) (h : m.HoldsString a y s)
    (ho : m.bank.word y < m.block blockHighMemoryPtr ∨ m.Owns y a s.length) :
    ∃ m', stringAssign m a y = .ok m' ∧
      (m'.bank.StringAt (m'.bank.word y) s ↔ ¬m.Spoils a y s) := by
  have hfree := hr.free
  unfold stringAssign
  by_cases hlow : m.bank.word y < m.block blockHighMemoryPtr
  · obtain ⟨m', hok, hiff⟩ := stringAt_saAllocate hr h
    refine ⟨m', ?_, hiff.trans (not_congr ⟨fun hs => ⟨.inl hlow, hs⟩, fun hs => hs.2⟩)⟩
    dsimp only
    rw [if_pos hlow, ite_self]
    exact hok
  · replace ho := ho.resolve_left hlow
    have habove := ho.above
    have hmax : sub16 (m.bank.word y) 1 = m.bank.word y - 1 :=
      sub16_eq (m.bank.word_lt _) (by omega)
    dsimp only
    rw [if_neg (by omega), if_neg hlow, hmax]
    by_cases hfits : m.bank.byte a ≤ m.bank.byte (m.bank.word y - 1)
    · refine ⟨_, if_pos hfits, iff_of_true (stringAt_saCopyString hr h ho hfits) ?_⟩
      rintro ⟨hbad | hbad, -⟩
      · exact hlow hbad
      · omega
    · rw [if_neg hfits]
      by_cases hbottom : m.bank.word y = m.block blockHighMemoryPtr + 1
      · -- the block given back leaves room above the temporary strings
        have hhigh := Machine.giveBack_high hbottom ho
        obtain ⟨hr', h'⟩ := Machine.giveBack_spec hr h ho hbottom (by omega)
        obtain ⟨m', hok, hiff⟩ := stringAt_saAllocate hr' h'
        refine ⟨m', ?_, hiff.trans (iff_of_true ?_ ?_)⟩
        · rw [if_neg (by omega)]
          exact hok
        · rintro ⟨htop, -⟩
          have := h.place
          have := ho.apart
          have := ho.fits
          have hb : m.bank.byte a = s.length := h.stringAt.1
          omega
        · rintro ⟨hbad | hbad, -⟩
          · exact hlow hbad
          · exact hbad.2 hbottom
      · obtain ⟨m', hok, hiff⟩ := stringAt_saAllocate hr h
        refine ⟨m', ?_, hiff.trans (not_congr ⟨fun hs => ⟨.inr ⟨by omega, hbottom⟩, hs⟩, fun hs => hs.2⟩)⟩
        rw [if_pos (by omega)]
        exact hok

end

/-! ## The statement -/

/-- `Command_Let` for a string: the target, the right-hand side, and `StringAssign`. -/
theorem commandLet_string {fuel : ℕ} {m m₁ m₂ : Machine} {v : Value}
    (ht : m.token &&& idTypeMask ≠ 0) (htarget : letTarget fuel m = .ok m₁)
    (hv : evaluateString fuel m₁ = .ok (v, m₂)) :
    commandLet fuel m = stringAssign m₂ v.a m₁.dVariablePtr := by
  rw [commandLet, htarget, ok_bind, if_neg ht, hv, ok_bind]
  dsimp only
  rw [evaluateString_value hv]

/-- **A string assignment stores the value** of its right-hand side, whatever that is, unless the
assignment spoils it. -/
theorem string_assignment {fuel : ℕ} {m m₁ m₂ : Machine} {v : Value} {s : List ℕ}
    (ht : m.token &&& idTypeMask ≠ 0) (htarget : letTarget fuel m = .ok m₁)
    (hv : evaluateString fuel m₁ = .ok (v, m₂)) (hr : m₂.Room m₁.dVariablePtr)
    (h : m₂.HoldsString v.a m₁.dVariablePtr s)
    (ho : m₂.bank.word m₁.dVariablePtr < m₂.block blockHighMemoryPtr ∨
      m₂.Owns m₁.dVariablePtr v.a s.length) :
    ∃ m', commandLet fuel m = .ok m' ∧
      (m'.bank.StringAt (m'.bank.word m₁.dVariablePtr) s ↔ ¬m₂.Spoils v.a m₁.dVariablePtr s) := by
  rw [commandLet_string ht htarget hv]
  exact stringAssign_spec hr h ho

/-- What an assignment finds: its target, and the string on its right-hand side. -/
def assignedString (fuel : ℕ) (m : Machine) : Result (Machine × Value × Machine) :=
  letTarget fuel m >>= fun m₁ => evaluateString fuel m₁ >>= fun r => .ok (m₁, r)

theorem assignedString_eq_ok {fuel : ℕ} {m m₁ m₂ : Machine} {v : Value}
    (h : assignedString fuel m = .ok (m₁, v, m₂)) :
    letTarget fuel m = .ok m₁ ∧ evaluateString fuel m₁ = .ok (v, m₂) := by
  obtain ⟨m₁', h₁, h⟩ := Except.bind_eq_ok.mp h
  obtain ⟨r, h₂, h⟩ := Except.bind_eq_ok.mp h
  cases h
  exact ⟨h₁, h₂⟩

/-- The command line `a$ = "hi"`. -/
theorem string_assignment_literal : ∃ m₁ v m₂,
    assignedString 6 (commandMachine [0xE001, equalTokenID, 0x0006, 0x6802, 0x0069, 0]) =
      .ok (m₁, v, m₂) ∧ ∃ m', commandLet 6
        (commandMachine [0xE001, equalTokenID, 0x0006, 0x6802, 0x0069, 0]) = .ok m' ∧
        (m'.bank.StringAt (m'.bank.word m₁.dVariablePtr) [104, 105] ↔
          ¬m₂.Spoils v.a m₁.dVariablePtr [104, 105]) := by
  obtain ⟨⟨m₁, v, m₂⟩, h, hy, hs, hb, hlow, hhigh, ha, ho⟩ := Except.exists_of_check
    (r := assignedString 6 (commandMachine [0xE001, equalTokenID, 0x0006, 0x6802, 0x0069, 0]))
    (P := fun r => r.1.dVariablePtr = 0x420a ∧ r.2.2.bank.StringAt r.2.1.a [104, 105] ∧
      r.2.2.dBaseAddress = 0x4000 ∧ r.2.2.block blockLowMemoryPtr = 0x4210 ∧
      r.2.2.block blockHighMemoryPtr = 0x5000 ∧ r.2.1.a = 0x4106 ∧ r.2.2.bank.word 0x420a = 0)
    (by decide +kernel)
  obtain ⟨h₁, h₂⟩ := assignedString_eq_ok h
  dsimp only at hy hs hb hlow hhigh ha ho
  refine ⟨m₁, v, m₂, h, string_assignment (by decide +kernel) h₁ h₂ ?_ ?_ ?_⟩
  · exact ⟨by rw [hb, hy]; decide, by rw [hlow, hy]; decide, by rw [hlow, hhigh]; decide⟩
  · refine ⟨hs, by rw [hb, ha]; decide, .inl (by rw [ha, hy]; decide), .inl ?_, by rw [ha]; decide⟩
    rw [ha, hhigh]
    decide
  · rw [hy, ho, hhigh]
    exact .inl (by decide)

/-- The command line `a$ = spc(250)`: the last character becomes a 255. -/
theorem string_assignment_spaces : ∃ m₁ v m₂ m',
    assignedString 6 (commandMachine [0xE001, equalTokenID, 0x3019, 0x40FA, rparenTokenID, 0]) =
      .ok (m₁, v, m₂) ∧ m₂.bank.StringAt v.a (List.replicate 250 32) ∧
    commandLet 6 (commandMachine [0xE001, equalTokenID, 0x3019, 0x40FA, rparenTokenID, 0]) =
      .ok m' ∧ m'.bank.StringAt (m'.bank.word m₁.dVariablePtr)
        (List.replicate 249 32 ++ [255]) := by
  obtain ⟨⟨m₁, v, m₂⟩, h, hs, hy⟩ := Except.exists_of_check
    (r := assignedString 6 (commandMachine [0xE001, equalTokenID, 0x3019, 0x40FA, rparenTokenID, 0]))
    (P := fun r => r.2.2.bank.StringAt r.2.1.a (List.replicate 250 32) ∧
      r.1.dVariablePtr = 0x420a) (by decide +kernel)
  obtain ⟨m', h', hs'⟩ := Except.exists_of_check
    (r := commandLet 6 (commandMachine [0xE001, equalTokenID, 0x3019, 0x40FA, rparenTokenID, 0]))
    (P := fun m => m.bank.StringAt (m.bank.word 0x420a) (List.replicate 249 32 ++ [255]))
    (by decide +kernel)
  dsimp only at hs hy
  exact ⟨m₁, v, m₂, m', h, hs, h', by rwa [hy]⟩

end Basic65816
