import Basic65816.Machine.Expression

/-!
# The expression stack

What a routine keeps: the direct page below its slot, and the state an expression has no business
with. Long words stored in a slot are read back, and the operations on long words stay in range.

## Main definitions

* `Long.Valid`: both words are words
* `Machine.Around`: what an evaluation in the slot at `x` never changes
* `Machine.Preserved`: nothing but slots and temporaries has changed
-/

namespace Basic65816

/-! ## Long words -/

/-- Both words are words. -/
def Long.Valid (v : Long) : Prop := v.1 < 0x10000 ∧ v.2 < 0x10000

section

variable {a b : Long}

theorem valid_zero : Long.Valid (0, 0) := ⟨by decide, by decide⟩

theorem valid_addLong (a b : Long) : Long.Valid (addLong a b) :=
  ⟨Nat.mod_lt _ (by decide), Nat.mod_lt _ (by decide)⟩

theorem valid_subLong (a b : Long) : Long.Valid (subLong a b) :=
  ⟨sub16_lt _ _, Nat.mod_lt _ (by decide)⟩

theorem valid_aslLong (a : Long) : Long.Valid (aslLong a) :=
  ⟨Nat.mod_lt _ (by decide), Nat.mod_lt _ (by decide)⟩

theorem valid_lsrLong (h : a.Valid) : Long.Valid (lsrLong a) := by
  obtain ⟨h₁, h₂⟩ := h
  refine ⟨?_, ?_⟩
  · change a.1 / 2 + a.2 % 2 * 0x8000 < 0x10000
    omega
  · change a.2 / 2 < 0x10000
    omega

theorem valid_compareLong (t : Bool) : Long.Valid (compareLong t) := by
  cases t <;> exact ⟨by decide, by decide⟩

theorem valid_iterate {f : Long → Long} (hf : ∀ a, Long.Valid a → Long.Valid (f a)) (h : a.Valid)
    (n : ℕ) : Long.Valid (f^[n] a) := by
  induction n generalizing a with
  | zero => exact h
  | succ n ih => exact ih (hf a h)

theorem valid_multiplyLoop {t r d : Long} (hr : r.Valid) (hd : d.Valid) :
    (multiplyLoop t r d).1.Valid ∧ (multiplyLoop t r d).2.Valid := by
  induction t, r, d using multiplyLoop.induct with
  | case1 t r d ht =>
    rw [multiplyLoop, dif_pos ht]
    exact ⟨hr, hd⟩
  | case2 t r d ht ih =>
    rw [multiplyLoop, dif_neg ht]
    refine ih ?_ (valid_aslLong d)
    split
    · exact hr
    · exact valid_addLong r d

theorem valid_binaryDivideLoop {d : Long} (n : ℕ) {s : Long × Long × ℕ} (hq : s.1.Valid)
    (ha : s.2.1.Valid) :
    (binaryDivideLoop d n s).1.Valid ∧ (binaryDivideLoop d n s).2.1.Valid := by
  induction n generalizing s with
  | zero => exact ⟨hq, ha⟩
  | succ n ih =>
    rw [binaryDivideLoop]
    dsimp only
    split
    · exact ih (valid_aslLong _) ⟨Nat.mod_lt _ (by decide), Nat.mod_lt _ (by decide)⟩
    · exact ih ⟨add16_lt _ _, (valid_aslLong _).2⟩ (valid_subLong _ _)

end

/-! ## Slots -/

section

variable {m : Machine} {a b v x y : ℕ} {w : Long}

theorem Machine.dp_lt (m : Machine) (a : ℕ) : m.dp a < 0x10000 := m.page.word_lt a

theorem Machine.valid_value (m : Machine) (x : ℕ) : (m.value x).Valid := ⟨m.dp_lt _, m.dp_lt _⟩

theorem Machine.dp_setDp (h : v < 0x10000) : (m.setDp a v).dp a = v := Memory.word_setWord h

theorem Machine.dp_setDp_of_disjoint (h : b + 2 ≤ a ∨ a + 2 ≤ b) : (m.setDp a v).dp b = m.dp b :=
  Memory.word_setWord_of_disjoint h

theorem Machine.dp_setValue_of_disjoint (h : b + 2 ≤ x ∨ x + 4 ≤ b) :
    (m.setValue x w).dp b = m.dp b := by
  unfold setValue exsValueL exsValueH
  rw [dp_setDp_of_disjoint (by omega), dp_setDp_of_disjoint (by omega)]

theorem Machine.value_setValue (h : w.Valid) : (m.setValue x w).value x = w := by
  unfold value setValue exsValueL exsValueH
  rw [dp_setDp_of_disjoint (by omega), dp_setDp h.1, dp_setDp h.2]

theorem Machine.value_setValue_of_disjoint (h : y + 4 ≤ x ∨ x + 4 ≤ y) :
    (m.setValue x w).value y = m.value y := by
  unfold value exsValueL exsValueH
  rw [dp_setValue_of_disjoint (by omega), dp_setValue_of_disjoint (by omega)]

theorem Machine.value_setDp_precType : (m.setDp (x + exsPrecType) v).value x = m.value x := by
  unfold value exsValueL exsValueH exsPrecType
  rw [dp_setDp_of_disjoint (by omega), dp_setDp_of_disjoint (by omega)]

theorem Machine.precType_setValue : (m.setValue x w).dp (x + exsPrecType) =
    m.dp (x + exsPrecType) :=
  dp_setValue_of_disjoint (by unfold exsPrecType; omega)

theorem Machine.precType_setValue_next : (m.setValue (x + exsNext) w).dp (x + exsPrecType) =
    m.dp (x + exsPrecType) :=
  dp_setValue_of_disjoint (by unfold exsPrecType exsNext; omega)

end

/-! ## Frames -/

/-- What an evaluation in the slot at `x` never changes. -/
structure Machine.Around (x : ℕ) (m m' : Machine) : Prop where
  page : ∀ a < x, m'.page a = m.page a
  far : m'.far = m.far
  pageNumber : m'.dPageNumber = m.dPageNumber
  base : m'.dBaseAddress = m.dBaseAddress
  high : m'.dHighAddress = m.dHighAddress
  stack : m'.dStack = m.dStack
  line : m'.dLineNumber = m.dLineNumber

/-- Nothing but the slots from `x` on and temporaries has changed. -/
structure Machine.Preserved (x : ℕ) (m m' : Machine) : Prop extends m.Around x m' where
  bank : m'.bank = m.bank
  shift : m'.dConstantShift = m.dConstantShift
  temp : m'.dTempStringPointer = m.dTempStringPointer

namespace Machine

variable {m m₁ m₂ : Machine} {x y a v : ℕ} {w : Long}

theorem Around.refl : m.Around x m := ⟨fun _ _ => rfl, rfl, rfl, rfl, rfl, rfl, rfl⟩

theorem Around.trans (h : m.Around x m₁) (h' : m₁.Around x m₂) : m.Around x m₂ where
  page a ha := (h'.page a ha).trans (h.page a ha)
  far := h'.far.trans h.far
  pageNumber := h'.pageNumber.trans h.pageNumber
  base := h'.base.trans h.base
  high := h'.high.trans h.high
  stack := h'.stack.trans h.stack
  line := h'.line.trans h.line

theorem Around.mono (h : m.Around x m₁) (hy : y ≤ x) : m.Around y m₁ :=
  { h with page := fun a ha => h.page a (by omega) }

theorem Around.dp (h : m.Around x m₁) (ha : a + 2 ≤ x) : m₁.dp a = m.dp a :=
  Memory.word_congr (h.page a (by omega)) (h.page (a + 1) (by omega))

theorem Preserved.refl : m.Preserved x m := ⟨.refl, rfl, rfl, rfl⟩

theorem Preserved.trans (h : m.Preserved x m₁) (h' : m₁.Preserved x m₂) : m.Preserved x m₂ where
  toAround := h.toAround.trans h'.toAround
  bank := h'.bank.trans h.bank
  shift := h'.shift.trans h.shift
  temp := h'.temp.trans h.temp

theorem Preserved.mono (h : m.Preserved x m₁) (hy : y ≤ x) : m.Preserved y m₁ :=
  { h with toAround := h.toAround.mono hy }

/-- Temporaries do not count. -/
theorem Preserved.temps {n b c d : ℕ} (h : m.Preserved x m₁) : m.Preserved x
    { m₁ with dSignCount := n, dTemp1 := b, dTemp1H := c, dTemp2 := d } where
  page := h.page
  far := h.far
  pageNumber := h.pageNumber
  base := h.base
  high := h.high
  stack := h.stack
  line := h.line
  bank := h.bank
  shift := h.shift
  temp := h.temp

theorem preserved_setDp (h : x ≤ a) : m.Preserved x (m.setDp a v) where
  page b hb := Memory.setWord_of_ne (by omega) (by omega)
  far := rfl
  pageNumber := rfl
  base := rfl
  high := rfl
  stack := rfl
  line := rfl
  bank := rfl
  shift := rfl
  temp := rfl

theorem preserved_setValue (h : y ≤ x) : m.Preserved y (m.setValue x w) :=
  (preserved_setDp (by unfold exsValueL; omega)).trans
    (preserved_setDp (by unfold exsValueH; omega))

end Machine

end Basic65816
