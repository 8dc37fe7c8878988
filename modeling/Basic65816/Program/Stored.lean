import Basic65816.Machine.EditLine
import Basic65816.Program.Line

/-!
# Stored programs

A program in memory is the chain of its stored lines, closed by a zero offset. The loops of the
editor walk this chain; clearing the workspace leaves it alone and writes behind it.

## Main definitions

* `StoredAt`: lines stored from an address on
* `Machine.Holds`: the workspace holds a program
* `Machine.Clear`: nothing but the program is in the workspace

## Main results

* `fceLoop_spec`, `ldLoop_found`, `ldLoop_missing`, `liFindInsertPoint_spec`: the chain walks
* `clearVariablesPointersAndStacks_spec`: clearing
-/

namespace Basic65816

/-- The lines `ls` are stored from `a` on, closed by a zero offset. -/
structure StoredAt (mem : Memory) (a : ℕ) (ls : List Line) : Prop where
  words : mem.WordsAt a (wordsOfLines ls ++ [0x0000])
  bound : a + sizeOfLines ls + 2 ≤ 0x10000

section

variable {mem mem' : Memory} {m : Machine} {a : ℕ} {l : Line} {ks ls : List Line}

theorem StoredAt.tail (h : StoredAt mem a (ks ++ ls)) :
    StoredAt mem (a + sizeOfLines ks) ls where
  words := by
    have hw := h.words
    rw [wordsOfLines_append, List.append_assoc, Memory.wordsAt_append] at hw
    exact hw.2
  bound := by
    have := h.bound
    rw [sizeOfLines_append] at this
    omega

theorem StoredAt.congr (h : StoredAt mem a ls)
    (he : Memory.EqOn a (a + sizeOfLines ls + 2) mem mem') : StoredAt mem' a ls where
  words := h.words.congr (he.mono (Nat.le_refl _) (by
    simp only [sizeOfLines, List.length_append, List.length_singleton]
    omega))
  bound := h.bound

theorem StoredAt.word_nil (h : StoredAt mem a []) : mem.word a = 0 := h.words.1

theorem StoredAt.word_offset (h : StoredAt mem a (l :: ls)) :
    mem.word a = 2 * l.tokens.length + 6 := h.words.1

theorem StoredAt.word_number (h : StoredAt mem a (l :: ls)) : mem.word (a + 2) = l.number :=
  h.words.2.1

theorem StoredAt.next (h : StoredAt mem a (l :: ls)) :
    StoredAt mem (a + (2 * l.tokens.length + 6)) ls := by
  have ht : StoredAt mem (a + sizeOfLines [l]) ls := h.tail
  simpa using ht

/-- Following the offset of a line leads to the next one. -/
theorem StoredAt.add16_offset (h : StoredAt mem a (l :: ls)) :
    add16 a (mem.word a) = a + (2 * l.tokens.length + 6) := by
  have hb := h.bound
  rw [sizeOfLines_cons] at hb
  rw [h.word_offset, add16_eq (by omega)]

/-- **The end of the program** is behind its last line. -/
theorem fceLoop_spec (h : StoredAt m.bank a ls) :
    Settles (fun fuel => fceLoop fuel m a) (.ok (a + sizeOfLines ls)) := by
  induction ls generalizing a with
  | nil =>
    refine .unfold (.of_forall fun _ => rfl) fun k => ?_
    rw [fceLoop, if_pos h.word_nil]
    rfl
  | cons l ls ih =>
    have hi := ih h.next
    rw [Nat.add_assoc, ← sizeOfLines_cons] at hi
    refine hi.unfold fun k => ?_
    rw [fceLoop, if_neg (by rw [h.word_offset]; omega), h.add16_offset]

theorem ldLoop_step {x : ℕ} (h : StoredAt m.bank a (l :: ls)) (k : ℕ) :
    ldLoop (k + 1) m x a =
      if x = l.number then .ok (some a) else ldLoop k m x (a + (2 * l.tokens.length + 6)) := by
  rw [ldLoop, if_neg (by rw [h.word_offset]; omega), h.word_number, h.add16_offset]

theorem ldLoop_missing {x : ℕ} (h : StoredAt m.bank a ls) (hx : ∀ k ∈ ls, k.number ≠ x) :
    Settles (fun fuel => ldLoop fuel m x a) (.ok none) := by
  induction ls generalizing a with
  | nil =>
    refine .unfold (.of_forall fun _ => rfl) fun k => ?_
    rw [ldLoop, if_pos h.word_nil]
  | cons l ls ih =>
    refine (ih h.next fun k hk => hx k (by simp [hk])).unfold fun k => ?_
    rw [ldLoop_step h, if_neg (hx l (by simp)).symm]

theorem ldLoop_found {x : ℕ} (h : StoredAt m.bank a (ks ++ l :: ls)) (hx : ∀ k ∈ ks, k.number ≠ x)
    (hl : l.number = x) :
    Settles (fun fuel => ldLoop fuel m x a) (.ok (some (a + sizeOfLines ks))) := by
  induction ks generalizing a with
  | nil =>
    refine .unfold (.of_forall fun _ => rfl) fun k => ?_
    rw [ldLoop_step h, if_pos hl.symm]
    rfl
  | cons k ks ih =>
    have hi := ih h.next fun k hk => hx k (by simp [hk])
    rw [Nat.add_assoc, ← sizeOfLines_cons] at hi
    refine hi.unfold fun j => ?_
    rw [List.cons_append] at h
    rw [ldLoop_step h, if_neg (hx k (by simp)).symm]

/-- **The insert point** is behind the lines with a smaller number. -/
theorem liFindInsertPoint_spec (h : StoredAt m.bank a (ks ++ ls))
    (hks : ∀ k ∈ ks, k.number < m.dTemp2) (hls : ∀ k ∈ ls, m.dTemp2 ≤ k.number) :
    Settles (fun fuel => liFindInsertPoint fuel m a) (.ok (a + sizeOfLines ks)) := by
  induction ks generalizing a with
  | nil =>
    refine .unfold (.of_forall fun _ => rfl) fun k => ?_
    cases ls with
    | nil =>
      rw [liFindInsertPoint, if_pos h.word_nil]
      rfl
    | cons l ls =>
      rw [List.nil_append] at h
      rw [liFindInsertPoint, if_neg (by rw [h.word_offset]; omega), h.word_number,
        if_pos (hls l (by simp))]
      rfl
  | cons k ks ih =>
    have hi := ih h.next fun k hk => hks k (by simp [hk])
    rw [Nat.add_assoc, ← sizeOfLines_cons] at hi
    refine hi.unfold fun j => ?_
    rw [List.cons_append] at h
    have hk := hks k (by simp)
    rw [liFindInsertPoint, if_neg (by rw [h.word_offset]; omega), h.word_number,
      if_neg (by omega), h.add16_offset]

end

/-! ## The workspace -/

/-- The workspace holds the program `p`: it is stored at the start of the program area, and there is
room for two marker words behind it. -/
structure Machine.Holds (m : Machine) (p : Program) : Prop where
  stored : StoredAt m.bank (m.dBaseAddress + blockProgramStart) p.lines
  room : m.dBaseAddress + blockProgramStart + sizeOfLines p.lines + 6 ≤ m.dHighAddress
  top : m.dHighAddress < 0x10000

/-- The address of the zero offset that closes the program `p`. -/
def Machine.codeEnd (m : Machine) (p : Program) : ℕ :=
  m.dBaseAddress + blockProgramStart + sizeOfLines p.lines

/-- Nothing but the program is in the workspace: the markers are behind it, free memory begins after
them and ends at the top, and the hash table is empty. -/
structure Machine.Clear (m : Machine) (p : Program) : Prop extends m.Holds p where
  markers : m.bank.WordsAt (m.codeEnd p + 2) [0xEEEE, 0xEEEE]
  low : m.block blockLowMemoryPtr = m.codeEnd p + 6
  high : m.block blockHighMemoryPtr = m.dHighAddress
  null : m.block blockNullString = 0
  table : ∀ i < 64, m.block (blockHashTable + 2 * i) = 0
  stack : m.dStack = basStack
  bottom : m.page.word basStack = 0
  temp : m.dTempStringPointer = 0

section

variable {m : Machine} {p : Program}

theorem Machine.Holds.programStart_eq (h : m.Holds p) :
    m.programStart = m.dBaseAddress + blockProgramStart := by
  have := h.room
  have := h.top
  rw [programStart, add16_eq (by omega), Nat.add_comm]

theorem findCodeEnd_spec (h : m.Holds p) :
    Settles (fun fuel => findCodeEnd fuel m) (.ok (m.codeEnd p)) := by
  unfold findCodeEnd
  rw [h.programStart_eq]
  exact fceLoop_spec h.stored

/-- The cells that clearing writes: three pointers, the hash table and the markers. -/
def clearCells (base codeEnd : ℕ) (a : ℕ) : Prop :=
  (base + 8 ≤ a ∧ a < base + 0xe) ∨ (base + 0x80 ≤ a ∧ a < base + 0x100) ∨
    (codeEnd + 2 ≤ a ∧ a < codeEnd + 6)

/-- The hash table after `n` rounds of the loop. -/
theorem fcLoop_rounds (m : Machine) (n : ℕ) (hn : n ≤ 64) :
    ∃ b, (List.range n).foldl (fun m i => m.setBlock (blockHashTable + 2 * i) 0x0000) m =
        { m with bank := b } ∧
      m.bank.EqOff (m.dBaseAddress + 0x80) (m.dBaseAddress + 0x80 + 2 * n) b ∧
      ∀ i < n, b.word (m.dBaseAddress + (blockHashTable + 2 * i)) = 0 := by
  induction n with
  | zero => exact ⟨m.bank, rfl, .refl _ _ _, by simp⟩
  | succ n ih =>
    obtain ⟨b, he, hoff, hz⟩ := ih (by omega)
    refine ⟨b.setWord (m.dBaseAddress + (blockHashTable + 2 * n)) 0, ?_, ?_, fun i hi => ?_⟩
    · rw [List.range_succ, List.foldl_append, he]
      rfl
    · exact (hoff.mono (Nat.le_refl _) (by omega)).setWord (by unfold blockHashTable; omega)
        (by unfold blockHashTable; omega)
    · rcases Nat.lt_succ_iff_lt_or_eq.mp hi with hi | rfl
      · rw [Memory.word_setWord_of_disjoint (.inl (by omega)), hz i hi]
      · rw [Memory.word_setWord (by decide)]

/-- The bank after clearing. -/
theorem clear_bank {b : Memory} {base codeEnd high : ℕ} (hlt : codeEnd + 6 ≤ high)
    (hhigh : high < 0x10000) (hbase : base + 0x200 ≤ codeEnd) (f : Memory)
    (hf : (((b.setWord (base + blockNullString) 0).setWord (codeEnd + 2) 0xEEEE).setWord
      (codeEnd + 4) 0xEEEE |>.setWord (base + blockLowMemoryPtr) (codeEnd + 6)).EqOff
        (base + 0x80) (base + 0x100) f) :
    let b' := f.setWord (base + blockHighMemoryPtr) high
    (∀ a, ¬ clearCells base codeEnd a → b' a = b a) ∧
      b'.WordsAt (codeEnd + 2) [0xEEEE, 0xEEEE] ∧
      b'.word (base + blockLowMemoryPtr) = codeEnd + 6 ∧
      b'.word (base + blockHighMemoryPtr) = high ∧ b'.word (base + blockNullString) = 0 := by
  intro b'
  unfold blockNullString blockLowMemoryPtr at hf
  have hread : ∀ a, a + 2 ≤ base + 0x80 ∨ base + 0x100 ≤ a →
      a + 2 ≤ base + 0xa ∨ base + 0xc ≤ a → b'.word a =
        ((((b.setWord (base + 0xc) 0).setWord (codeEnd + 2) 0xEEEE).setWord
          (codeEnd + 4) 0xEEEE).setWord (base + 8) (codeEnd + 6)).word a := fun a h₁ h₂ => by
    simp only [b', blockHighMemoryPtr]
    rw [Memory.word_setWord_of_disjoint (by omega), hf.word (by omega)]
  refine ⟨fun a ha => ?_, ⟨?_, ?_, trivial⟩, ?_, ?_, ?_⟩
  · unfold clearCells at ha
    simp only [b', blockHighMemoryPtr]
    rw [Memory.setWord_of_ne (by omega) (by omega), hf a (by omega),
      Memory.setWord_of_ne (by omega) (by omega), Memory.setWord_of_ne (by omega) (by omega),
      Memory.setWord_of_ne (by omega) (by omega), Memory.setWord_of_ne (by omega) (by omega)]
  · rw [hread _ (by omega) (by omega), Memory.word_setWord_of_disjoint (by omega),
      Memory.word_setWord_of_disjoint (by omega), Memory.word_setWord (by decide)]
  · rw [hread _ (by omega) (by omega), Memory.word_setWord_of_disjoint (by omega),
      Memory.word_setWord (by decide)]
  · unfold blockLowMemoryPtr
    rw [hread _ (by omega) (by omega), Memory.word_setWord (by omega)]
  · exact Memory.word_setWord hhigh
  · unfold blockNullString
    rw [hread _ (by omega) (by omega), Memory.word_setWord_of_disjoint (by omega),
      Memory.word_setWord_of_disjoint (by omega), Memory.word_setWord_of_disjoint (by omega),
      Memory.word_setWord (by decide)]

/-- **Clearing** keeps the program and everything else but the cells it owns. -/
theorem clearVariablesPointersAndStacks_spec (h : m.Holds p) :
    ∃ m', Settles (fun fuel => clearVariablesPointersAndStacks fuel m) (.ok m') ∧ m'.Clear p ∧
      m'.dBaseAddress = m.dBaseAddress ∧ m'.dHighAddress = m.dHighAddress ∧
      ∀ a, ¬ clearCells m.dBaseAddress (m.codeEnd p) a → m'.bank a = m.bank a := by
  have hroom := h.room
  have htop := h.top
  have hend : m.codeEnd p = m.dBaseAddress + blockProgramStart + sizeOfLines p.lines := rfl
  unfold blockProgramStart at hend hroom
  -- the null string pointer is cleared before the end of the program is looked up
  have h₁ : (Machine.setBlock { m with dStack := basStack, page := m.page.setWord basStack 0 }
      blockNullString 0x0000).Holds p := by
    refine ⟨h.stored.congr fun a h₀ h₁ => ?_, h.room, h.top⟩
    change m.dBaseAddress + 0x200 ≤ a at h₀
    have ha : a ≠ m.dBaseAddress + 0xc ∧ a ≠ m.dBaseAddress + 0xc + 1 := by omega
    exact Memory.setWord_of_ne ha.1 ha.2
  have hlow : add16 (m.codeEnd p) 6 = m.codeEnd p + 6 := add16_eq (by omega)
  obtain ⟨f, hf, hoff, hzero⟩ := fcLoop_rounds { m with
    dStack := basStack, page := m.page.setWord basStack 0
    bank := (((m.bank.setWord (m.dBaseAddress + blockNullString) 0).setWord
      (m.codeEnd p + 2) 0xEEEE).setWord (m.codeEnd p + 4) 0xEEEE).setWord
        (m.dBaseAddress + blockLowMemoryPtr) (m.codeEnd p + 6) } 64 (Nat.le_refl _)
  have hbank := clear_bank (b := m.bank) (by omega : m.codeEnd p + 6 ≤ m.dHighAddress) htop
    (by omega : m.dBaseAddress + 0x200 ≤ m.codeEnd p) f hoff
  obtain ⟨hframe, hmark, hlow', hhigh, hnull⟩ := hbank
  refine ⟨stringResetPermanent { m with
    dStack := basStack, page := m.page.setWord basStack 0, bank := f, dTempStringPointer := 0 },
    (findCodeEnd_spec h₁).bind (.of_forall fun _ => ?_), ?_, rfl, rfl, hframe⟩
  · have hloop : fcLoop { m with
        dStack := basStack, page := m.page.setWord basStack 0
        bank := (((m.bank.setWord (m.dBaseAddress + blockNullString) 0).setWord
          (m.codeEnd p + 2) 0xEEEE).setWord (m.codeEnd p + 4) 0xEEEE).setWord
            (m.dBaseAddress + blockLowMemoryPtr) (m.codeEnd p + 6) } = _ := hf
    simp only [Machine.setBlock, Machine.codeEnd] at hloop hlow ⊢
    rw [hlow, hloop]
  · have hstored : StoredAt (f.setWord (m.dBaseAddress + blockHighMemoryPtr) m.dHighAddress)
        (m.dBaseAddress + blockProgramStart) p.lines := by
      refine h.stored.congr fun a h₀ h₁ => hframe a ?_
      unfold clearCells
      unfold blockProgramStart at h₀ h₁
      omega
    refine ⟨⟨hstored, h.room, h.top⟩, hmark, hlow', hhigh, hnull, fun i hi => ?_, rfl,
      Memory.word_setWord (by decide), rfl⟩
    have hz := hzero i hi
    simp only [stringResetPermanent, Machine.block, Machine.setBlock]
    rw [Memory.word_setWord_of_disjoint (.inr (by
      unfold blockHighMemoryPtr blockHashTable
      omega)), hz]

end

end Basic65816
