import Basic65816.Expression.Comparison
import Basic65816.Strings.Open

/-!
# Long words as numbers

Arithmetic on pairs of words is arithmetic on numbers modulo `2 ^ 32`, and the borrow out of a
subtraction is the unsigned comparison.

## Main results

* `toNat_addLong`, `toNat_subLong`, `toNat_negLong`, `toNat_aslLong`: the operations
* `signedLong_eq`, `toNat_absLong`: the sign and the magnitude
-/

namespace Basic65816

variable {a b : Long}

theorem Long.toNat_inj (ha : a.Valid) (hb : b.Valid) (h : a.toNat = b.toNat) : a = b := by
  obtain ⟨a₁, a₂⟩ := a
  obtain ⟨b₁, b₂⟩ := b
  obtain ⟨h₁, -⟩ := ha
  obtain ⟨h₂, -⟩ := hb
  simp only [Long.toNat] at h h₁ h₂
  exact Prod.ext (by omega) (by omega)

theorem toNat_addLong (a b : Long) : (addLong a b).toNat = (a.toNat + b.toNat) % 2 ^ 32 := by
  simp only [addLong, Long.toNat]
  omega

theorem toNat_aslLong (a : Long) : (aslLong a).toNat = 2 * a.toNat % 2 ^ 32 := by
  simp only [aslLong, doubleLong, Long.toNat]
  omega

/-- The borrow of the low words, as arithmetic. -/
theorem borrowLow_cases (a b : Long) :
    a.1 < b.1 ∧ borrowLow 0 a b = 1 ∨ b.1 ≤ a.1 ∧ borrowLow 0 a b = 0 := by
  unfold borrowLow
  split
  · exact .inl ⟨by omega, rfl⟩
  · exact .inr ⟨by omega, rfl⟩

/-- A borrow out of the subtraction is the unsigned comparison. -/
theorem borrow_iff (ha : a.Valid) (hb : b.Valid) :
    a.2 < b.2 + borrowLow 0 a b ↔ a.toNat < b.toNat := by
  obtain ⟨h₁, h₂⟩ := ha
  obtain ⟨h₃, h₄⟩ := hb
  have hc := borrowLow_cases a b
  unfold Long.toNat
  omega

theorem toNat_subLong (ha : a.Valid) (hb : b.Valid) :
    (subLong a b).toNat = (a.toNat + 2 ^ 32 - b.toNat) % 2 ^ 32 := by
  obtain ⟨h₁, h₂⟩ := ha
  obtain ⟨h₃, h₄⟩ := hb
  have hc := borrowLow_cases a b
  have hlow : sub16 a.1 b.1 = (a.1 + 0x10000 - b.1) % 0x10000 := by
    unfold sub16
    omega
  simp only [subLong, Long.toNat, hlow, sbc16]
  omega

theorem toNat_negLong (ha : a.Valid) : (negLong a).toNat = (2 ^ 32 - a.toNat) % 2 ^ 32 := by
  rw [negLong, toNat_subLong valid_zero ha]
  rfl

/-- The signed number is the unsigned one, less `2 ^ 32` in the upper half. -/
theorem signedLong_eq (ha : a.Valid) :
    signedLong a = if a.toNat < 2 ^ 31 then (a.toNat : ℤ) else a.toNat - 2 ^ 32 := by
  obtain ⟨h₁, h₂⟩ := ha
  unfold signedLong Long.toNat
  split_ifs <;> omega

/-- A negative number has its top bit set. -/
theorem signedLong_neg_iff (ha : a.Valid) : 0x8000 ≤ a.2 ↔ signedLong a < 0 := by
  obtain ⟨h₁, h₂⟩ := ha
  unfold signedLong
  split_ifs <;> omega

/-- The magnitude of a number, of `-2 ^ 31` too. -/
theorem toNat_absLong (ha : a.Valid) : (absLong a).toNat = (signedLong a).natAbs := by
  have hlt := ha.toNat_lt
  have hneg := signedLong_neg_iff ha
  rw [signedLong_eq ha] at hneg ⊢
  unfold absLong
  split_ifs at hneg ⊢ with h₁ h₂
  · omega
  · rw [toNat_negLong ha]
    omega
  · omega
  · omega

theorem signedLong_range (ha : a.Valid) : -2 ^ 31 ≤ signedLong a ∧ signedLong a < 2 ^ 31 := by
  have hlt := ha.toNat_lt
  rw [signedLong_eq ha]
  split_ifs <;> omega

/-- A long word is determined by its number modulo `2 ^ 32`. -/
theorem signedLong_of_toNat {z : ℤ} (ha : a.Valid) (h : (a.toNat : ℤ) = z % 2 ^ 32)
    (hz : -2 ^ 31 ≤ z) (hz' : z < 2 ^ 31) : signedLong a = z := by
  rw [signedLong_eq ha]
  split_ifs <;> omega

end Basic65816
