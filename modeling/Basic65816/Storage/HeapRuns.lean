import Basic65816.Program.Session
import Basic65816.Storage.Array
import Basic65816.Storage.Heap

/-!
# Runs of string assignments, `local` and `endproc`

`local` pushes the string of a variable and leaves it in its block; `endproc` copies the string back
into the block that the variable owns then. As the capacity of that block has not become smaller,
the string fits, whatever has been assigned in between.

## Main definitions

* `StringStep`: an assignment, a string that is saved, a string that is restored
* `StringRun`: the states that such steps lead to

## Main results

* `Machine.OwnStrings.step`: what a step keeps
* `StringRun.dim`: the elements of a string array are cells
* `string_heap`: the heap in every state of a run
-/

namespace Basic65816

open Tiling

/-! ## Saving and restoring -/

section

variable {m : Machine} {fs : List StackFrame} {chars : List ℕ} {y : ℕ}

/-- Pushing a string changes the stack only. -/
theorem lpvPushOut_bank (n : ℕ) (m : Machine) (x : ℕ) : (lpvPushOut n m x).2.bank = m.bank ∧
    (lpvPushOut n m x).2.dBaseAddress = m.dBaseAddress ∧
    (lpvPushOut n m x).2.dHighAddress = m.dHighAddress := by
  induction n generalizing m x with
  | zero => exact ⟨rfl, rfl, rfl⟩
  | succ n ih => exact ih _ _

theorem lpvStringPush_bank (m : Machine) (y : ℕ) : (lpvStringPush m y).bank = m.bank ∧
    (lpvStringPush m y).dBaseAddress = m.dBaseAddress ∧
    (lpvStringPush m y).dHighAddress = m.dHighAddress := by
  unfold lpvStringPush
  split_ifs
  · exact ⟨rfl, rfl, rfl⟩
  · exact lpvPushOut_bank _ { m with dTemp1 := m.bank.word y } _

/-- Bytes that are copied from one below the other. -/
theorem bytesAt_of_bytesDown {page bank : Memory} {a b : ℕ} (h : page.BytesDown a chars)
    (hb : ∀ i < chars.length, bank.byte (b + i) = page.byte (a - i)) : bank.BytesAt b chars := by
  induction chars generalizing a b with
  | nil => trivial
  | cons c chars ih =>
    refine ⟨(hb 0 (Nat.succ_pos _)).trans h.1, ih h.2 fun i hi => ?_⟩
    rw [show b + 1 + i = b + (i + 1) by omega, show a - 1 - i = a - (i + 1) by omega]
    exact hb (i + 1) (Nat.succ_lt_succ hi)

/-- Restoring a string copies the bytes of the frame, the length first. -/
theorem lrRecover_bank (n : ℕ) (m : Machine) (x : ℕ) (hd : m.dTemp1 + n < 0x10000) (hx : n ≤ x)
    (hlt : x < 0x10000) :
    m.bank.EqOff m.dTemp1 (m.dTemp1 + n + 1) (lrRecover n m x).2.bank ∧
      (∀ i ≤ n, (lrRecover n m x).2.bank.byte (m.dTemp1 + i) = m.page.byte (x - i)) ∧
      (lrRecover n m x).2.dBaseAddress = m.dBaseAddress ∧
      (lrRecover n m x).2.dHighAddress = m.dHighAddress := by
  have hfirst : (m.bank.setByte m.dTemp1 (m.dp x)).byte m.dTemp1 = m.page.byte x := by
    rw [Memory.byte_setByte]
    exact Memory.word_mod _ _
  induction n generalizing m x with
  | zero =>
    refine ⟨(Memory.EqOff.refl _ _ _).setByte (Nat.le_refl _) (by omega), fun i hi => ?_, rfl, rfl⟩
    obtain rfl : i = 0 := by omega
    exact hfirst
  | succ n ih =>
    rw [lrRecover, sub16_eq hlt (by omega), add16_eq (a := m.dTemp1) (by omega)]
    obtain ⟨m₁, hm₁⟩ : ∃ m₁ : Machine, m₁ = { m with
      bank := m.bank.setByte m.dTemp1 (m.dp x), dTemp1 := m.dTemp1 + 1 } := ⟨_, rfl⟩
    rw [← hm₁]
    have hpage : m₁.page = m.page := by rw [hm₁]
    have htemp : m₁.dTemp1 = m.dTemp1 + 1 := by rw [hm₁]
    obtain ⟨hoff, hbytes, hbase, hhigh⟩ := ih m₁ (x - 1) (by omega) (by omega) (by omega)
      (by rw [Memory.byte_setByte]; exact Memory.word_mod _ _)
    rw [htemp] at hoff hbytes
    have hset : m.bank.EqOff m.dTemp1 (m.dTemp1 + (n + 1) + 1) m₁.bank := by
      rw [hm₁]
      exact (Memory.EqOff.refl _ _ _).setByte (Nat.le_refl _) (by omega)
    refine ⟨hset.trans (hoff.mono (by omega) (by omega)), fun i hi => ?_, hbase.trans (by rw [hm₁]),
      hhigh.trans (by rw [hm₁])⟩
    -- the first byte is not written again
    rcases Nat.eq_zero_or_pos i with rfl | hpos
    · rw [Nat.add_zero, hoff.byte (.inl (by omega)), hm₁]
      exact hfirst
    · obtain ⟨j, rfl⟩ := Nat.exists_eq_add_of_le' hpos
      have hj := hbytes j (by omega)
      rw [show m.dTemp1 + (j + 1) = m.dTemp1 + 1 + j by omega, hj, hpage,
        show x - (j + 1) = x - 1 - j by omega]

/-- The state in which the bytes of a frame are copied back. -/
theorem lrString_bank (hf : m.Frames (.string chars y :: fs)) (hm : m.InSpace)
    (hd : m.bank.word y + chars.length < 0x10000) :
    m.bank.EqOff (m.bank.word y) (m.bank.word y + chars.length + 1) (lrString m).bank ∧
      (lrString m).bank.StringAt (m.bank.word y) chars ∧
      (lrString m).dBaseAddress = m.dBaseAddress ∧ (lrString m).dHighAddress = m.dHighAddress := by
  have hs : m.dStack < 0x200 := hm
  have hle : basStack + (chars.length + 5) ≤ m.dStack := hf.1
  -- the address of the variable, the length and the characters are below the marker
  obtain ⟨-, hvar, hlen, hdown⟩ := id hf.2.1
  unfold basStack at hle
  have hx₂ : sub16 m.dStack 2 = m.dStack - 2 := sub16_eq (by omega) (by omega)
  have hx : sub16 (sub16 m.dStack 2) 1 = m.dStack - 3 := by
    rw [hx₂, sub16_eq (by omega) (by omega)]
    omega
  have hcell : m.dp (m.dStack - 2) = y := hvar
  obtain ⟨m₁, hm₁⟩ : ∃ m₁ : Machine, m₁ = { m with dTemp1 := m.bank.word y } := ⟨_, rfl⟩
  have hcount : m₁.dp (m.dStack - 3) % 256 = chars.length := by
    rw [hm₁]
    exact (Memory.word_mod _ _).trans hlen
  have hrec : lrString m = { (lrRecover chars.length m₁ (m.dStack - 3)).2 with
      dStack := sub16 (lrRecover chars.length m₁ (m.dStack - 3)).1 1 } := by
    rw [← hcount, ← hx, hm₁]
    unfold lrString
    dsimp only
    rw [hx₂, hcell]
  obtain ⟨hoff, hbytes, hbase, hhigh⟩ := lrRecover_bank chars.length m₁ (m.dStack - 3)
    (by rw [hm₁]; exact hd) (by omega) (by omega)
  rw [hm₁] at hoff hbytes hbase hhigh
  rw [hrec, hm₁]
  refine ⟨hoff, ⟨(hbytes 0 (Nat.zero_le _)).trans hlen, ?_⟩, hbase, hhigh⟩
  refine bytesAt_of_bytesDown hdown fun i hi => ?_
  rw [show m.bank.word y + 1 + i = m.bank.word y + (i + 1) by omega, hbytes (i + 1) (by omega),
    show m.dStack - 3 - (i + 1) = m.dStack - 4 - i by omega]

end

/-! ## Steps -/

/-- What other statements do to the strings: they leave the blocks and the cells as they are, and
the cells of new variables and arrays are in memory that was free, and are empty. -/
structure Machine.LeavesStrings (m : Machine) (ys : Set ℕ) (m' : Machine) (ys' : Set ℕ) : Prop where
  base : m'.dBaseAddress = m.dBaseAddress
  top : m'.dHighAddress = m.dHighAddress
  high : m'.block blockHighMemoryPtr = m.block blockHighMemoryPtr
  low : m.block blockLowMemoryPtr ≤ m'.block blockLowMemoryPtr
  free : m'.block blockLowMemoryPtr ≤ m'.block blockHighMemoryPtr
  blocks : m.bank.EqOn (m.block blockHighMemoryPtr) m.dHighAddress m'.bank
  cells : ∀ y ∈ ys, m'.bank.word y = m.bank.word y
  old : ys ⊆ ys'
  new : ∀ y ∈ ys' \ ys, m'.bank.word y = 0 ∧ m.block blockLowMemoryPtr ≤ y ∧
    y + 2 ≤ m'.block blockLowMemoryPtr
  apart : ∀ y ∈ ys' \ ys, ∀ z ∈ ys' \ ys, y ≠ z → y + 2 ≤ z ∨ z + 2 ≤ y

/-- A step with the frames before and after it, and the cell whose string it changes: an assignment,
a string that `local` saves, a string that `endproc` restores. -/
inductive StringStep (ys : Set ℕ) :
    Machine → List StackFrame → Option ℕ → Machine → List StackFrame → Prop
  | assign {m m' : Machine} {fs : List StackFrame} {x y : ℕ} (hy : y ∈ ys) (hx : m.Assignable ys x y)
      (h : stringAssign m x y = .ok m') : StringStep ys m fs (some y) m' fs
  | save {m : Machine} {fs : List StackFrame} {y : ℕ} (hy : y ∈ ys) (hm : m.InSpace) :
      StringStep ys m fs none (lpvStringPush m y)
        (if m.bank.word y = 0 then fs else m.stringFrame y :: fs)
  | restore {m : Machine} {fs : List StackFrame} {chars : List ℕ} {y : ℕ} (hm : m.InSpace) :
      StringStep ys m (.string chars y :: fs) (some y) (lrString m) fs

/-- The states that are reached by clearing a workspace with the program `p` and such steps, with
the string cells and the frames. In between other statements can push and pop other frames and can
drop the frames of strings. -/
inductive StringRun (p : Program) : Machine → Set ℕ → List StackFrame → Prop
  | clear {m m' : Machine} (h : m.Holds p)
      (hclear : Settles (fun fuel => clearVariablesPointersAndStacks fuel m) (.ok m')) :
      StringRun p m' ∅ []
  | step {m m' : Machine} {ys : Set ℕ} {fs fs' : List StackFrame} {target : Option ℕ}
      (h : StringRun p m ys fs) (hs : StringStep ys m fs target m' fs') : StringRun p m' ys fs'
  | other {m m' : Machine} {ys ys' : Set ℕ} {fs fs' : List StackFrame} (h : StringRun p m ys fs)
      (hs : m.LeavesStrings ys m' ys') (hf : m'.Frames fs')
      (hsub : ∀ chars y, .string chars y ∈ fs' → .string chars y ∈ fs) : StringRun p m' ys' fs'

/-- The string heap, and the frames. A string that has been saved fits into the block of its
variable. -/
structure Machine.OwnStrings (m : Machine) (ys : Set ℕ) (fs : List StackFrame) : Prop where
  heap : ∃ bs, m.Heap ys bs
  frames : m.Frames fs
  saved : ∀ chars y, .string chars y ∈ fs → y ∈ ys ∧ m.bank.word y ≠ 0 ∧ chars.length ≤ m.capacity y

section

variable {p : Program} {m m' : Machine} {ys ys' : Set ℕ} {bs : List ℕ} {fs fs' : List StackFrame}
  {target : Option ℕ} {chars : List ℕ} {y : ℕ}

/-- What a step keeps: no string is given up, no capacity becomes smaller, and one string changes at
most. -/
structure Machine.Advances (m : Machine) (ys : Set ℕ) (target : Option ℕ) (m' : Machine) :
    Prop where
  nonzero : ∀ z ∈ ys, m.bank.word z ≠ 0 → m'.bank.word z ≠ 0
  capacity : ∀ z ∈ ys, m.bank.word z ≠ 0 → m.capacity z ≤ m'.capacity z
  others : ∀ z ∈ ys, some z ≠ target → m.SameString m' z

theorem Machine.Advances.of_same (h : ∀ z ∈ ys, some z ≠ target → m.SameString m' z)
    (hy : ∀ y ∈ ys, target = some y → m.bank.word y ≠ 0 →
      m'.bank.word y ≠ 0 ∧ m.capacity y ≤ m'.capacity y) : m.Advances ys target m' := by
  have hall : ∀ z ∈ ys, m.bank.word z ≠ 0 → m'.bank.word z ≠ 0 ∧ m.capacity z ≤ m'.capacity z := by
    intro z hz hzero
    by_cases hzt : some z = target
    · exact hy z hz hzt.symm hzero
    · have hsame := h z hz hzt
      exact ⟨hsame.1 ▸ hzero, (hsame.capacity hzero).ge⟩
  exact ⟨fun z hz hzero => (hall z hz hzero).1, fun z hz hzero => (hall z hz hzero).2, h⟩

/-- The frames that are there after a step still fit. -/
theorem Machine.OwnStrings.saved_of_advances (h : m.OwnStrings ys fs) (hm : m.Advances ys target m')
    (hsub : ∀ chars y, .string chars y ∈ fs' → .string chars y ∈ fs) :
    ∀ chars y, .string chars y ∈ fs' →
      y ∈ ys ∧ m'.bank.word y ≠ 0 ∧ chars.length ≤ m'.capacity y := by
  intro chars y hf
  obtain ⟨hy, hzero, hlen⟩ := h.saved chars y (hsub chars y hf)
  exact ⟨hy, hm.nonzero y hy hzero, hlen.trans (hm.capacity y hy hzero)⟩

/-- The string of the frame on top is put back into the block of its variable. -/
theorem Machine.OwnStrings.restore (h : m.OwnStrings ys (.string chars y :: fs)) (hm : m.InSpace) :
    m.Advances ys (some y) (lrString m) ∧ (lrString m).OwnStrings ys fs ∧
      (lrString m).bank.word y = m.bank.word y ∧
      (lrString m).bank.StringAt (m.bank.word y) chars := by
  obtain ⟨bs, hheap⟩ := h.heap
  obtain ⟨hy, hzero, hlen⟩ := h.saved chars y (List.mem_cons_self ..)
  obtain ⟨b, hb, hword, hcap⟩ := hheap.block_of_cell hy hzero
  have habove := hheap.above hb
  have htop := hheap.top
  obtain ⟨hoff, hstring, hbase, hhigh⟩ := lrString_bank h.frames hm (by omega)
  obtain ⟨hheap', hcell, hcapacity, hothers⟩ :=
    hheap.rewrite hy hzero hlen hbase hhigh hoff (hstring.1.trans_le hlen)
  have hadv : m.Advances ys (some y) (lrString m) :=
    .of_same (fun z hz hne => hothers z hz fun heq => hne (heq ▸ rfl)) fun z _ hz hzero' => by
      obtain rfl := Option.some.inj hz
      exact ⟨hcell ▸ hzero', hcapacity.ge⟩
  exact ⟨hadv, ⟨⟨bs, hheap'⟩, (frames_lrString h.frames hm).1,
    h.saved_of_advances hadv fun _ _ => List.mem_cons_of_mem _⟩, hcell, hstring⟩

/-- **Every step** keeps the heap. -/
theorem Machine.OwnStrings.step (h : m.OwnStrings ys fs) (hs : StringStep ys m fs target m' fs') :
    m'.OwnStrings ys fs' ∧ m.Advances ys target m' := by
  cases hs with
  | assign hy hx hok =>
    rename_i x y
    obtain ⟨bs, hheap⟩ := h.heap
    obtain ⟨-, -, -, -, -, hheap', hnonzero, hcapacity, hothers⟩ := hheap.assign hy hx hok
    have hadv : m.Advances ys (some y) m' :=
      .of_same (fun z hz hne => hothers z hz fun heq => hne (heq ▸ rfl)) fun z _ hz hzero => by
        obtain rfl := Option.some.inj hz
        exact ⟨hnonzero, hcapacity hzero⟩
    have hstack : Outcome m.KeepsStack anyStop (stringAssign m x y) (stringAssign m x y) :=
      stringAssign_keepsStack x y ⟨rfl, fun _ _ => rfl⟩
    rw [hok] at hstack
    exact ⟨⟨hheap', hstack.2.frames h.frames, h.saved_of_advances hadv fun _ _ hf => hf⟩, hadv⟩
  | save hy hm =>
    rename_i y
    obtain ⟨bs, hheap⟩ := h.heap
    obtain ⟨hbank, hbase, htop⟩ := lpvStringPush_bank m y
    have hblock : ∀ k, (lpvStringPush m y).block k = m.block k := by
      intro k
      unfold Machine.block
      rw [hbank, hbase]
    have hadv : m.Advances ys none (lpvStringPush m y) :=
      .of_same (fun z _ _ => ⟨by rw [hbank], fun _ _ _ => by rw [hbank]⟩) fun z _ hz => by cases hz
    have hheap' : (lpvStringPush m y).Heap ys bs :=
      hheap.congr hbase htop (hblock _) (hblock _).ge (by rw [hblock, hblock]; exact hheap.free)
        (hbank ▸ .refl _ _ _) fun z _ => by rw [hbank]
    have hsaved := h.saved_of_advances hadv fun _ _ hf => hf
    by_cases hzero : m.bank.word y = 0
    · rw [if_pos hzero]
      refine ⟨⟨⟨bs, hheap'⟩, ?_, hsaved⟩, hadv⟩
      rw [lpvStringPush_zero hzero]
      exact h.frames
    · rw [if_neg hzero]
      refine ⟨⟨⟨bs, hheap'⟩, frames_lpvStringPush h.frames hm hzero, fun chars z hf => ?_⟩, hadv⟩
      rcases List.mem_cons.mp hf with heq | hf
      · -- the new frame has the string of the cell, which fits into its own block
        obtain ⟨rfl, rfl⟩ := StackFrame.string.inj heq
        obtain ⟨b, hb, hword, hcap⟩ := hheap.block_of_cell hy hzero
        have hplaces := hheap.places y hy
        have hbound := m.block_lt blockLowMemoryPtr
        have hmod : y % 0x10000 = y := Nat.mod_eq_of_lt (by omega)
        rw [hmod]
        refine ⟨hy, hadv.nonzero y hy hzero, le_trans ?_ (hadv.capacity y hy hzero)⟩
        rw [Memory.length_bytes, hcap, hword]
        exact hheap.fits b hb
      · exact hsaved chars z hf
  | restore hm =>
    obtain ⟨hadv, hstrings, -⟩ := h.restore hm
    exact ⟨hstrings, hadv⟩

/-- Other statements keep the heap. -/
theorem Machine.Heap.leaves (h : m.Heap ys bs) (hs : m.LeavesStrings ys m' ys') :
    m'.Heap ys' bs := by
  have hheap := h.congr hs.base hs.top hs.high hs.low hs.free hs.blocks hs.cells
  have hnew : ∀ z ∈ ys', z ∉ ys → m'.bank.word z = 0 ∧ m.block blockLowMemoryPtr ≤ z ∧
      z + 2 ≤ m'.block blockLowMemoryPtr := fun z hz hne => hs.new z ⟨hz, hne⟩
  have hlow := h.low
  refine ⟨hheap.tiled, hheap.fits, hheap.large, fun z hz => ?_, fun z hz w hw hne => ?_, fun z hz => ?_,
    fun z hz w hw hne => ?_, hheap.low, hheap.free, hheap.top⟩
  -- new cells are empty, so that they share no block with another one
  · by_cases hmem : z ∈ ys
    · exact hheap.owned z hmem
    · exact .inl (hnew z hz hmem).1
  · by_cases hmem : z ∈ ys
    · by_cases hmem' : w ∈ ys
      · exact hheap.own z hmem w hmem' hne
      · rw [(hnew w hw hmem').1]
        exact (Nat.eq_zero_or_pos _).imp_right Nat.ne_of_gt
    · exact .inl (hnew z hz hmem).1
  · by_cases hmem : z ∈ ys
    · exact hheap.places z hmem
    · have := hnew z hz hmem
      rw [hs.base]
      omega
  · by_cases hmem : z ∈ ys
    · by_cases hmem' : w ∈ ys
      · exact h.apart z hmem w hmem' hne
      · have := h.places z hmem
        have := hnew w hw hmem'
        omega
    · by_cases hmem' : w ∈ ys
      · have := h.places w hmem'
        have := hnew z hz hmem
        omega
      · exact hs.apart z ⟨hz, hmem⟩ w ⟨hw, hmem'⟩ hne

/-- **The invariant of a run.** -/
theorem StringRun.strings (h : StringRun p m ys fs) : m.OwnStrings ys fs := by
  induction h with
  | clear h hclear =>
    obtain ⟨m₀, hset, h, -⟩ := clearVariablesPointersAndStacks_spec h
    obtain rfl := Except.ok.inj (hset.unique hclear)
    have hlow := h.low
    have hroom := h.room
    have htop := h.top
    unfold Machine.codeEnd at hlow
    unfold blockProgramStart at hlow hroom
    refine ⟨⟨[], ?_, ?_, ?_, ?_, ?_, ?_, ?_, ?_, ?_, ?_⟩, ⟨h.stack, h.stack ▸ h.bottom⟩, ?_⟩
    · rw [h.high]
      exact .nil
    · exact fun b hb => by cases hb
    · exact fun b hb => by cases hb
    · exact fun y hy => hy.elim
    · exact fun y hy => hy.elim
    · exact fun y hy => hy.elim
    · exact fun y hy => hy.elim
    · omega
    · rw [h.high]
      omega
    · omega
    · exact fun _ _ hf => by cases hf
  | step h hs ih => exact (ih.step hs).1
  | other h hs hf hsub ih =>
    -- the cells and the blocks of saved strings have not changed
    obtain ⟨bs, hheap⟩ := ih.heap
    refine ⟨⟨bs, hheap.leaves hs⟩, hf, fun chars y hmem => ?_⟩
    obtain ⟨hy, hzero, hlen⟩ := ih.saved chars y (hsub chars y hmem)
    have hcell := hs.cells y hy
    refine ⟨hs.old hy, hcell ▸ hzero, hlen.trans (Nat.le_of_eq ?_)⟩
    obtain ⟨b, hb, hword, hcap⟩ := hheap.block_of_cell hy hzero
    have habove := hheap.above hb
    unfold Machine.capacity
    rw [hcell, hword, Nat.add_sub_cancel]
    exact (hs.blocks.byte habove.1 (by omega)).symm

/-- `dim` of a string array is such a statement; the elements of the array are new cells. -/
theorem StringRun.dim {a n : ℕ} (h : StringRun p m ys fs) (hd : m.Dims m' a n)
    (ha : m.dBaseAddress + 0xe ≤ a ∧ a + 2 ≤ m.block blockLowMemoryPtr)
    (hapart : ∀ y ∈ ys, a + 2 ≤ y ∨ y + 2 ≤ a) :
    StringRun p m' (ys ∪ {y | ∃ i ≤ n, y = m.block blockLowMemoryPtr + 2 + 4 * i}) fs := by
  obtain ⟨⟨bs, hheap⟩, hframes, -⟩ := h.strings
  have hfits := hd.fits
  have hlow := hheap.low
  have hlow' := hd.low
  have hhigh : m'.block blockHighMemoryPtr = m.block blockHighMemoryPtr := by
    have hbyte : ∀ c, m.dBaseAddress + blockHighMemoryPtr ≤ c → c < m.dBaseAddress + 0xe →
        m'.bank c = m.bank c := by
      intro c h₁ h₂
      unfold blockHighMemoryPtr at h₁
      refine hd.others c (.inl (by omega)) (.inl (by omega)) (.inr ?_)
      unfold blockLowMemoryPtr
      omega
    unfold Machine.block
    rw [hd.workspace.base]
    exact Memory.word_congr (hbyte _ (Nat.le_refl _) (by unfold blockHighMemoryPtr; omega))
      (hbyte _ (by omega) (by unfold blockHighMemoryPtr; omega))
  -- the elements end below the strings
  have hblocks : ∀ c, m.block blockHighMemoryPtr ≤ c → m'.bank c = m.bank c := fun c hc =>
    hd.others c (.inr (by omega)) (.inr (by omega)) (.inr (by unfold blockLowMemoryPtr; omega))
  refine h.other ⟨hd.workspace.base, hd.workspace.high, hhigh, by omega, by omega,
    fun c hc _ => hblocks c hc, fun y hy => ?_, Set.subset_union_left, ?_, ?_⟩ ?_ fun _ _ hf => hf
  · have hplaces := hheap.places y hy
    have hd' := hapart y hy
    have hbyte : ∀ c, y ≤ c → c < y + 2 → m'.bank c = m.bank c := fun c h₁ h₂ =>
      hd.others c (.inl (by omega)) (by omega) (.inr (by unfold blockLowMemoryPtr; omega))
    exact Memory.word_congr (hbyte y (Nat.le_refl y) (by omega))
      (hbyte (y + 1) (by omega) (by omega))
  · rintro y ⟨hy | ⟨i, hi, rfl⟩, hne⟩
    · exact absurd hy hne
    · exact ⟨(hd.zero i hi).1, by omega, by omega⟩
  · rintro y ⟨hy | ⟨i, hi, rfl⟩, hy'⟩ z ⟨hz | ⟨j, hj, rfl⟩, hz'⟩ hne
    · exact absurd hy hy'
    · exact absurd hy hy'
    · exact absurd hz hz'
    · omega
  · unfold Machine.Frames
    rw [hd.workspace.page, hd.workspace.stack]
    exact hframes

/-- The empty workspace with the identifiers `ab` and `s$` and the strings `A`, `Q` and `XYZ` in the
token buffer. -/
def emptyWorkspaceFilled : Machine :=
  { emptyWorkspace with
    bank := (((((emptyWorkspace.bank.setWord 0x4100 0xC05B).setWord 0x4102 0xE013).setWord
      0x4180 0x4101).setWord 0x4182 0x5101).setWord 0x4184 0x5803).setWord 0x4186 0x5A59 }

theorem emptyWorkspaceFilled_holds : emptyWorkspaceFilled.Holds .empty := by
  have hoff : emptyWorkspace.bank.EqOff 0x4100 0x4200 emptyWorkspaceFilled.bank :=
    ((((((Memory.EqOff.refl _ _ _).setWord (by decide) (by decide)).setWord (by decide)
      (by decide)).setWord (by decide) (by decide)).setWord (by decide) (by decide)).setWord (by decide)
      (by decide)).setWord (by decide) (by decide)
  exact ⟨emptyWorkspace_clear.stored.congr (hoff.eqOn (.inr (by decide))), by decide, by decide⟩

/-- The workspace when it has been cleared. -/
theorem emptyWorkspaceFilled_cleared : ∃ m,
    Settles (fun fuel => clearVariablesPointersAndStacks fuel emptyWorkspaceFilled) (.ok m) ∧
      m.Clear .empty ∧ m.dBaseAddress = 0x4000 ∧ m.dHighAddress = 0x8000 ∧
      m.block blockLowMemoryPtr = 0x4206 ∧ m.block blockHighMemoryPtr = 0x8000 ∧
      emptyWorkspaceFilled.bank.EqOn 0x4100 0x4200 m.bank := by
  obtain ⟨m, hclear, hm, hbase, htop, hkeeps⟩ :=
    clearVariablesPointersAndStacks_spec emptyWorkspaceFilled_holds
  replace hbase : m.dBaseAddress = 0x4000 := hbase
  replace htop : m.dHighAddress = 0x8000 := htop
  refine ⟨m, hclear, hm, hbase, htop, ?_, hm.high.trans htop, fun a h₀ h₁ => hkeeps a ?_⟩
  · rw [hm.low, Machine.codeEnd, hbase]
    rfl
  · have hend : emptyWorkspaceFilled.codeEnd .empty = 0x4200 := by decide
    change ¬ clearCells 0x4000 _ a
    unfold clearCells
    omega

/-- A run to a state with two empty variables. -/
theorem StringRun.ready : ∃ m, StringRun .empty m {0x4206, 0x420A} [] ∧ m.dBaseAddress = 0x4000 ∧
    m.dHighAddress = 0x8000 ∧ m.block blockLowMemoryPtr = 0x420E ∧
    m.block blockHighMemoryPtr = 0x8000 ∧ emptyWorkspaceFilled.bank.EqOn 0x4100 0x4200 m.bank := by
  obtain ⟨m, hclear, hm, hbase, htop, hlow, hhigh, hbuffer⟩ := emptyWorkspaceFilled_cleared
  -- two empty cells, and the low memory pointer behind them
  obtain ⟨b, hb⟩ : ∃ b, b = ((m.bank.setWord 0x4206 0).setWord 0x420A 0).setWord 0x4008 0x420E :=
    ⟨_, rfl⟩
  have hlow' : b.word 0x4008 = 0x420E := by
    rw [hb]
    exact Memory.word_setWord (by decide)
  have hcell : b.word 0x420A = 0 := by
    rw [hb, Memory.word_setWord_of_disjoint (.inr (by decide)), Memory.word_setWord (by decide)]
  have hcell' : b.word 0x4206 = 0 := by
    rw [hb, Memory.word_setWord_of_disjoint (.inr (by decide)),
      Memory.word_setWord_of_disjoint (.inl (by decide)), Memory.word_setWord (by decide)]
  have hblock : ∀ i, Machine.block { m with bank := b } i = b.word (0x4000 + i) := by
    intro i
    rw [Machine.block, hbase]
  have hlowNew : Machine.block { m with bank := b } blockLowMemoryPtr = 0x420E :=
    (hblock _).trans hlow'
  have hhigh' : Machine.block { m with bank := b } blockHighMemoryPtr = 0x8000 := by
    rw [← hhigh, hblock, Machine.block, hbase, hb]
    exact ((Memory.word_setWord_of_disjoint (.inr (by decide))).trans
      (Memory.word_setWord_of_disjoint (.inl (by decide)))).trans
      (Memory.word_setWord_of_disjoint (.inl (by decide)))
  have hkeeps : ∀ {lo hi}, 0x400A ≤ lo → hi ≤ 0x4206 ∨ 0x420E ≤ lo → m.bank.EqOn lo hi b := by
    intro lo hi h₀ h₁
    rw [hb]
    exact (((Memory.EqOn.refl _ _ _).setWord (by omega)).setWord (by omega)).setWord (.inl h₀)
  -- for the string heap this is a statement that makes new cells
  have hleaves : m.LeavesStrings ∅ { m with bank := b } {0x4206, 0x420A} := by
    refine ⟨rfl, rfl, hhigh'.trans hhigh.symm, by omega, by omega, hkeeps (by omega) (by omega),
      fun y hy => hy.elim, Set.empty_subset _, ?_, ?_⟩
    · rintro y ⟨rfl | rfl, -⟩
      · exact ⟨hcell', by omega, by omega⟩
      · exact ⟨hcell, by omega, by omega⟩
    · rintro y ⟨rfl | rfl, -⟩ z ⟨rfl | rfl, -⟩ hne <;> first | exact absurd rfl hne | omega
  have hframes : Machine.Frames { m with bank := b } [] := ⟨hm.stack, hm.stack ▸ hm.bottom⟩
  have hrun := (StringRun.clear emptyWorkspaceFilled_holds hclear).other hleaves hframes
    fun _ _ hf => hf
  exact ⟨_, hrun, hbase, htop, hlowNew, hhigh',
    hbuffer.trans (hkeeps (by decide) (.inl (by decide)))⟩

/-- The cells of the two variables. -/
def twoCells : Set ℕ := {0x4206, 0x420A}

/-- A run to a state with the strings `A` and `XYZ`; `Q` is in the token buffer. -/
theorem StringRun.two_strings : ∃ m, StringRun .empty m twoCells [] ∧
    m.bank.word 0x4206 ≠ 0 ∧ m.bank.StringAt (m.bank.word 0x4206) (ord "A") ∧
    m.bank.word 0x420A ≠ 0 ∧ m.bank.StringAt (m.bank.word 0x420A) (ord "XYZ") ∧
    m.bank.StringAt 0x4182 (ord "Q") ∧ m.dBaseAddress = 0x4000 ∧ m.dHighAddress = 0x8000 ∧
    m.block blockLowMemoryPtr = 0x420E ∧ 0x7DFE ≤ m.block blockHighMemoryPtr := by
  obtain ⟨m, hrun, hbase, htop, hlow, hhigh, hbuffer⟩ := StringRun.ready
  have hy : 0x4206 ∈ twoCells := .inl rfl
  have hz : 0x420A ∈ twoCells := .inr rfl
  have hconstant : ∀ {x : ℕ} {s : List ℕ}, emptyWorkspaceFilled.bank.StringAt x s → 0x4100 ≤ x →
      x + s.length < 0x4200 → m.bank.StringAt x s := by
    intro x s hs h₀ h₁
    exact Memory.BytesAt.congr hs (hbuffer.mono h₀ (by rw [List.length_cons]; omega))
  have hxyz : m.bank.StringAt 0x4184 (ord "XYZ") := hconstant (by decide) (by decide) (by decide)
  have hq : m.bank.StringAt 0x4182 (ord "Q") := hconstant (by decide) (by decide) (by decide)
  have hl₁ : (ord "A").length = 1 := rfl
  have hl₂ : (ord "XYZ").length = 3 := rfl
  have hl₃ : (ord "Q").length = 1 := rfl
  obtain ⟨bs, hheap⟩ := hrun.strings.heap
  -- `A` is assigned to the first variable
  obtain ⟨m₁, hx₁, hok₁, hs₁, ha₁⟩ := hheap.assign_constant (x := 0x4180) (s := ord "A") hy
    (hconstant (by decide) (by decide) (by decide)) (by omega) (by omega) (by omega) (by omega)
  replace hxyz := hs₁.stringAt hxyz (by omega) (by omega) (by omega)
  replace hq := hs₁.stringAt hq (by omega) (by omega) (by omega)
  obtain ⟨bs₁, hheap₁⟩ := hs₁.heap
  have hbase₁ := hs₁.base
  have hlow₁ := hs₁.low
  have hhigh₁ := hs₁.high
  -- `XYZ` is assigned to the second one, and the first one keeps its string
  obtain ⟨m₂, hx₂, hok₂, hs₂, hz₂⟩ := hheap₁.assign_constant hz hxyz (by omega) (by omega) (by omega)
    (by omega)
  replace hq := hs₂.stringAt hq (by omega) (by omega) (by omega)
  have hsame := hs₂.others _ hy (by decide)
  have hhigh₂ := hs₂.high
  exact ⟨m₂, (hrun.step (.assign hy hx₁ hok₁)).step (.assign hz hx₂ hok₂), hsame.1 ▸ hs₁.nonzero,
    hheap₁.stringAt_of_same hy hs₁.nonzero ha₁ hsame, hs₂.nonzero, hz₂, hq,
    (hs₂.base.trans hbase₁).trans hbase, (hs₂.top.trans hs₁.top).trans htop,
    (hs₂.low.trans hlow₁).trans hlow, by omega⟩

/-- **The string heap.** In every state of a run the memory above the high memory pointer is divided
into blocks, and each string variable that is not empty has the string of a block of its own. A step
does not make the capacity of a variable smaller and changes the string of one variable at most, and
a string that has been saved can be put back as it was. -/
theorem string_heap (h : StringRun p m ys fs) : (∃ bs, m.Heap ys bs) ∧
    (∀ target m' fs', StringStep ys m fs target m' fs' → m.Advances ys target m') ∧
    ∀ chars y fs', fs = .string chars y :: fs' → m.InSpace → chars.length ≤ m.capacity y ∧
      (lrString m).bank.word y = m.bank.word y ∧
      (lrString m).bank.StringAt (m.bank.word y) chars := by
  have hstrings := h.strings
  refine ⟨hstrings.heap, fun target m' fs' hs => (hstrings.step hs).2, ?_⟩
  rintro chars y fs' rfl hm
  obtain ⟨-, -, hlen⟩ := hstrings.saved chars y (List.mem_cons_self ..)
  obtain ⟨-, -, hcell, hstring⟩ := hstrings.restore hm
  exact ⟨hlen, hcell, hstring⟩

/-- Two variables have the strings `A` and `XYZ`. `A` is saved, `Q` takes its place, and `A` is put
back; `XYZ` has not moved. -/
theorem string_heap_two : ∃ m, StringRun .empty m twoCells [.string (ord "A") 0x4206] ∧
    (∃ bs, m.Heap twoCells bs) ∧ m.bank.StringAt (m.bank.word 0x4206) (ord "Q") ∧
    m.bank.StringAt (m.bank.word 0x420A) (ord "XYZ") ∧
    (lrString m).bank.word 0x4206 = m.bank.word 0x4206 ∧
    (lrString m).bank.StringAt (m.bank.word 0x4206) (ord "A") := by
  obtain ⟨m, hrun, hne, ha, hne', hxyz, hq, hbase, htop, hlow, hhigh⟩ := StringRun.two_strings
  have hy : 0x4206 ∈ twoCells := .inl rfl
  have hz : 0x420A ∈ twoCells := .inr rfl
  -- `A` is saved
  have hspace : m.InSpace := by
    have hstack : m.dStack = basStack := hrun.strings.frames.1
    exact hstack.trans_lt (by decide)
  have hframe : m.stringFrame 0x4206 = .string (ord "A") 0x4206 := by
    unfold Machine.stringFrame
    rw [ha.1, ha.2.eq_bytes]
  have hrun₁ := hrun.step (.save hy hspace)
  rw [if_neg hne, hframe] at hrun₁
  obtain ⟨m₁, hm₁⟩ : ∃ m₁, m₁ = lpvStringPush m 0x4206 := ⟨_, rfl⟩
  obtain ⟨hbank₁, hbase₁, -⟩ := lpvStringPush_bank m 0x4206
  rw [← hm₁] at hrun₁ hbank₁ hbase₁
  have hblock₁ : ∀ i, m₁.block i = m.block i := by
    intro i
    unfold Machine.block
    rw [hbank₁, hbase₁]
  have hlow₁ := hblock₁ blockLowMemoryPtr
  have hhigh₁ := hblock₁ blockHighMemoryPtr
  rw [← hbank₁] at hq hne' hxyz
  -- `Q` is assigned
  have hl : (ord "Q").length = 1 := rfl
  obtain ⟨bs, hheap⟩ := hrun₁.strings.heap
  obtain ⟨m₂, hx, hok, hs, hq'⟩ := hheap.assign_constant hy hq (by omega) (by omega) (by omega)
    (by omega)
  have hrun₂ := hrun₁.step (.assign hy hx hok)
  have hz' := hheap.stringAt_of_same hz hne' hxyz (hs.others _ hz (by decide))
  have hspace₂ : m₂.InSpace := by
    obtain ⟨-, -, hbottom, -⟩ := hrun₂.strings.frames
    have hsize : m₂.dStack - 6 = basStack := hbottom
    unfold basStack at hsize
    unfold Machine.InSpace
    omega
  obtain ⟨hheap₂, -, hrestore⟩ := string_heap hrun₂
  obtain ⟨-, hcell, hback⟩ := hrestore _ _ _ rfl hspace₂
  exact ⟨m₂, hrun₂, hheap₂, hq', hz', hcell, hback⟩

end

end Basic65816
