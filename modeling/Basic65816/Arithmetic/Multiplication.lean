import Basic65816.Arithmetic.Division
import Basic65816.Strings.Numeral

/-!
# Multiplication

Both multiplications of the interpreter shift and add. `Binary_Multiply` goes on until its multiplier
is zero and is exact modulo `2 ^ 32`. `MultiplyTemp1ByA` counts what is carried out of the additions and
out of the doublings, the one behind the last bit of the multiplier included, so that it can report an
overflow when there is none.

## Main definitions

* `multiplyRound`: one round of `_BinaryMultiply_Loop`

## Main results

* `binaryMultiply_product`: the product and the number of rounds
* `multiplyTemp1ByA_overflow`: when the carry is the overflow
-/

namespace Basic65816

/-- One round of `_BinaryMultiply_Loop`, on the multiplier, the result and the multiplicand. -/
def multiplyRound (s : Long × Long × Long) : Long × Long × Long :=
  (lsrLong s.1, if s.1.1 % 2 = 0 then s.2.1 else addLong s.2.1 s.2.2, aslLong s.2.2)

section

variable {t r d v : Long} {k : ℕ}

theorem toNat_lsrLong (h : t.Valid) : (lsrLong t).toNat = t.toNat / 2 := by
  obtain ⟨h₁, h₂⟩ := h
  simp only [lsrLong, Long.toNat]
  omega

theorem Long.toNat_eq_zero : t.toNat = 0 ↔ t.1 = 0 ∧ t.2 = 0 := by
  unfold Long.toNat
  omega

/-- The loop is its rounds, one for every bit of the multiplier. By induction on the number of bits. -/
theorem multiplyLoop_rounds (k : ℕ) {t r d : Long} (ht : t.Valid) (hk : t.toNat < 2 ^ k) :
    ∃ n ≤ k, multiplyLoop t r d = (multiplyRound^[n] (t, r, d)).2 ∧
      (multiplyRound^[n] (t, r, d)).1 = (0, 0) ∧
      ∀ j < n, (multiplyRound^[j] (t, r, d)).1 ≠ (0, 0) := by
  induction k generalizing t r d with
  | zero =>
    have hzero := Long.toNat_eq_zero.mp (Nat.lt_one_iff.mp hk)
    refine ⟨0, Nat.le_refl 0, ?_, Prod.ext hzero.1 hzero.2, fun j hj => absurd hj (Nat.not_lt_zero j)⟩
    rw [multiplyLoop, dif_pos hzero]
    rfl
  | succ k ih =>
    by_cases hzero : t.1 = 0 ∧ t.2 = 0
    · refine ⟨0, Nat.zero_le _, ?_, Prod.ext hzero.1 hzero.2, fun j hj => absurd hj (Nat.not_lt_zero j)⟩
      rw [multiplyLoop, dif_pos hzero]
      rfl
    · have hhalf : (lsrLong t).toNat < 2 ^ k := by
        rw [toNat_lsrLong ht]
        rw [Nat.pow_succ] at hk
        omega
      obtain ⟨n, hn, hloop, hend, hrounds⟩ := ih (valid_lsrLong ht) hhalf
        (r := if t.1 % 2 = 0 then r else addLong r d) (d := aslLong d)
      refine ⟨n + 1, by omega, ?_, hend, ?_⟩
      · rw [multiplyLoop, dif_neg hzero]
        exact hloop
      · intro j hj
        cases j with
        | zero => exact fun h => hzero ⟨congrArg Prod.fst h, congrArg Prod.snd h⟩
        | succ j => exact hrounds j (Nat.lt_of_succ_lt_succ hj)

/-- What is added in a round is what the multiplier loses. -/
theorem multiplyRound_invariant (ht : t.Valid) :
    (multiplyRound (t, r, d)).2.1.toNat + (multiplyRound (t, r, d)).1.toNat *
        (multiplyRound (t, r, d)).2.2.toNat ≡ r.toNat + t.toNat * d.toNat [MOD 2 ^ 32] := by
  have hodd : t.1 % 2 = t.toNat % 2 := by
    unfold Long.toNat
    omega
  have hsum : (if t.1 % 2 = 0 then r else addLong r d).toNat ≡ r.toNat + t.toNat % 2 * d.toNat
      [MOD 2 ^ 32] := by
    rw [hodd]
    rcases Nat.mod_two_eq_zero_or_one t.toNat with h | h
    · rw [if_pos h, h, Nat.zero_mul, Nat.add_zero]
    · rw [if_neg (by omega), h, Nat.one_mul, toNat_addLong]
      exact Nat.mod_modEq _ _
  have hprod : (lsrLong t).toNat * (aslLong d).toNat ≡ t.toNat / 2 * (2 * d.toNat) [MOD 2 ^ 32] := by
    rw [toNat_lsrLong ht, toNat_aslLong]
    exact Nat.ModEq.mul_left _ (Nat.mod_modEq _ _)
  have hsplit : t.toNat * d.toNat = t.toNat % 2 * d.toNat + t.toNat / 2 * (2 * d.toNat) := by
    conv_lhs => rw [← Nat.mod_add_div t.toNat 2]
    ring
  rw [hsplit, ← Nat.add_assoc]
  exact hsum.add hprod

theorem valid_multiplyRound (ht : t.Valid) : Long.Valid (multiplyRound (t, r, d)).1 := valid_lsrLong ht

/-- The invariant of the loop. -/
theorem multiplyRounds_invariant (n : ℕ) {s : Long × Long × Long} (hs : s.1.Valid) :
    (multiplyRound^[n] s).2.1.toNat + (multiplyRound^[n] s).1.toNat * (multiplyRound^[n] s).2.2.toNat ≡
      s.2.1.toNat + s.1.toNat * s.2.2.toNat [MOD 2 ^ 32] := by
  induction n generalizing s with
  | zero => exact Nat.ModEq.refl _
  | succ n ih =>
    obtain ⟨t, r, d⟩ := s
    exact (ih (valid_multiplyRound hs)).trans (multiplyRound_invariant hs)

/-- The product modulo `2 ^ 32`. -/
theorem toNat_multiplyLoop (ht : t.Valid) (hd : d.Valid) :
    (multiplyLoop t (0, 0) d).1.toNat = t.toNat * d.toNat % 2 ^ 32 := by
  obtain ⟨n, -, hloop, hend, -⟩ := multiplyLoop_rounds 32 (r := (0, 0)) (d := d) ht ht.toNat_lt
  have hlt := (valid_multiplyLoop (t := t) valid_zero hd).1.toNat_lt
  have hinv := multiplyRounds_invariant n (s := (t, (0, 0), d)) ht
  rw [hend, ← hloop] at hinv
  change (multiplyLoop t (0, 0) d).1.toNat + 0 * _ ≡ 0 + t.toNat * d.toNat [MOD 2 ^ 32] at hinv
  rw [Nat.zero_mul, Nat.add_zero, Nat.zero_add] at hinv
  rw [← Nat.mod_eq_of_lt hlt]
  exact hinv

/-- Signed factors differ from the unsigned ones by multiples of `2 ^ 32`. -/
theorem signedLong_mul (ht : t.Valid) (hd : d.Valid) (h : v.toNat = t.toNat * d.toNat % 2 ^ 32) :
    (v.toNat : ℤ) = signedLong t * signedLong d % 2 ^ 32 := by
  have hmod : ∀ a : Long, a.Valid → (a.toNat : ℤ) ≡ signedLong a [ZMOD 2 ^ 32] := by
    intro a ha
    rw [signedLong_eq ha]
    split_ifs
    · exact Int.ModEq.refl _
    · exact (Int.sub_modulus_modEq_iff.mpr (Int.ModEq.refl _)).symm
  rw [h, Int.natCast_mod, Int.natCast_mul]
  exact (hmod t ht).mul (hmod d hd)

end

/-- **Multiplication is exact modulo `2 ^ 32`.** The loop ends after at most 32 rounds, as soon as the
multiplier is zero, and leaves the product; the number is the signed product whenever that fits. -/
theorem binaryMultiply_product (m : Machine) (x : ℕ) (h : m.isString x = false)
    (h' : m.isString (x + exsNext) = false) :
    let l := m.value x
    let r := m.value (x + exsNext)
    ∃ m', binaryMultiply m x = .ok m' ∧
      (m'.value x).toNat = l.toNat * r.toNat % 2 ^ 32 ∧
      (-2 ^ 31 ≤ signedLong l * signedLong r → signedLong l * signedLong r < 2 ^ 31 →
        signedLong (m'.value x) = signedLong l * signedLong r) ∧
      ∃ n ≤ 32, m'.value x = (multiplyRound^[n] (l, (0, 0), r)).2.1 ∧
        (multiplyRound^[n] (l, (0, 0), r)).1 = (0, 0) ∧
        ∀ j < n, (multiplyRound^[j] (l, (0, 0), r)).1 ≠ (0, 0) := by
  intro l r
  have hl := m.valid_value x
  have hr := m.valid_value (x + exsNext)
  obtain ⟨m', hm', hd⟩ := binaryMultiply_integer h h'
  have hprod : (m'.value x).toNat = l.toNat * r.toNat % 2 ^ 32 := by
    rw [hd.value]
    exact toNat_multiplyLoop hl hr
  obtain ⟨n, hn, hloop, hend, hrounds⟩ := multiplyLoop_rounds 32 (r := (0, 0)) (d := r) hl hl.toNat_lt
  refine ⟨m', hm', hprod, fun hlow hhigh => ?_, n, hn, ?_, hend, hrounds⟩
  · exact signedLong_of_toNat (m'.valid_value x) (signedLong_mul hl hr hprod) hlow hhigh
  · rw [hd.value, ← hloop]

/-- `-2 * 3`. -/
theorem binaryMultiply_product_negative : ∃ m',
    binaryMultiply (divisionOperands (0xFFFE, 0xFFFF) (3, 0)) 0 = .ok m' ∧
      signedLong (m'.value 0) = -6 := by
  obtain ⟨m', hm', -, hsigned, -⟩ := binaryMultiply_product
    (divisionOperands (0xFFFE, 0xFFFF) (3, 0)) 0 (by rfl) (by rfl)
  refine ⟨m', hm', (hsigned (by decide) (by decide)).trans ?_⟩
  rfl

/-! ## `MultiplyTemp1ByA` -/

/-- Nothing is carried out of the first round when nothing is carried out of the loop. -/
theorem mtLoop_carries {x y : ℕ} {t d : Long} (ht : t.Valid)
    (hy : y + 2 * x + 2 < 0x10000) (h : (mtLoop x t d y).2.2 = 0) : mtCarries x t d y = 0 := by
  have hle := mtCarries_le x t d (y := y) (by omega)
  rw [mtLoop_eq] at h
  split_ifs at h with hx
  · exact h
  · exact (mtLoop_exact (toNat_mtSum ht).1 (valid_aslLong d) (by omega) h).1

/-- Without a carry the multiplicand has fitted after every doubling, the one behind the last bit of the
multiplier included. By induction on the rounds. -/
theorem mtLoop_fits (l : ℕ) {x y : ℕ} {t d : Long} (ht : t.Valid) (hd : d.Valid)
    (hy : y + 2 * x + 2 < 0x10000) (h : (mtLoop x t d y).2.2 = 0) (hl : 2 ^ l ≤ x) :
    d.toNat * 2 ^ (l + 1) < 2 ^ 32 := by
  have hzero := mtLoop_carries ht hy h
  have hle := mtCarries_le x t d (y := y) (by omega)
  obtain ⟨-, -, hdouble⟩ := mtSum_exact ht hd (by omega) hzero
  induction l generalizing x t d y with
  | zero =>
    have hlt := (valid_aslLong d).toNat_lt
    omega
  | succ l ih =>
    rw [Nat.pow_succ] at hl
    have hpos := Nat.two_pow_pos l
    rw [mtLoop_eq, if_neg (by omega)] at h
    have hv := (toNat_mtSum (x := x) (d := d) ht).1
    have hzero' := mtLoop_carries hv (by omega) h
    have hle' := mtCarries_le (x / 2) (mtSum x t d) (aslLong d) (y := mtCarries x t d y) (by omega)
    obtain ⟨-, -, hdouble'⟩ := mtSum_exact hv (valid_aslLong d) (by omega) hzero'
    have hrest := ih hv (valid_aslLong d) (by omega) h (by omega) hzero' hle' hdouble'
    rw [hdouble] at hrest
    calc d.toNat * 2 ^ (l + 1 + 1) = 2 * d.toNat * 2 ^ (l + 1) := by ring
      _ < 2 ^ 32 := hrest

/-- The carry: the multiplicand, doubled once for every bit of the multiplier, does not fit. -/
theorem multiplyTemp1ByA_carry_iff {m : Machine} {a : ℕ} (hv : Long.Valid (m.dTemp1, m.dTemp1H))
    (hpos : 0 < a) (ha : a < 0x7000) : (multiplyTemp1ByA m a).1 = true ↔
      2 ^ 32 ≤ Long.toNat (m.dTemp1, m.dTemp1H) * 2 ^ a.size := by
  have hsize : 0 < a.size := Nat.size_pos.mpr hpos
  constructor
  · exact multiplyTemp1ByA_carry hv (Nat.lt_size_self a) hsize
  · intro hge
    by_contra hclear
    have hzero : (mtLoop a (0, 0) (m.dTemp1, m.dTemp1H) 0).2.2 = 0 := by
      simpa [multiplyTemp1ByA] using hclear
    have hfits := mtLoop_fits (a.size - 1) valid_zero hv (by omega) hzero
      (Nat.lt_size.mp (by omega))
    rw [Nat.sub_add_cancel hsize] at hfits
    omega

/-- **The carry of `MultiplyTemp1ByA`.** The product is left modulo `2 ^ 32`. The carry tells whether it
has overflowed, unless the product fits and the number, doubled once for every bit of the multiplier,
does not. -/
theorem multiplyTemp1ByA_overflow (m : Machine) (a : ℕ) (hv : Long.Valid (m.dTemp1, m.dTemp1H))
    (h₂ : 2 ≤ a) (h₁₆ : a ≤ 16) :
    let v := Long.toNat (m.dTemp1, m.dTemp1H)
    let m' := (multiplyTemp1ByA m a).2
    (Long.toNat (m'.dTemp1, m'.dTemp1H) = v * a % 2 ^ 32 ∧
      ((multiplyTemp1ByA m a).1 = true ↔ 2 ^ 32 ≤ v * a)) ↔
    2 ^ 32 ≤ v * a ∨ v * 2 ^ a.size < 2 ^ 32 := by
  intro v m'
  have hprod : Long.toNat (m'.dTemp1, m'.dTemp1H) = v * a % 2 ^ 32 := by
    rw [Nat.mul_comm v a]
    exact (toNat_multiplyTemp1ByA m a).2
  have hcarry : (multiplyTemp1ByA m a).1 = true ↔ 2 ^ 32 ≤ v * 2 ^ a.size :=
    multiplyTemp1ByA_carry_iff hv (by omega) (by omega)
  have hle : v * a ≤ v * 2 ^ a.size := Nat.mul_le_mul_left v (Nat.lt_size_self a).le
  rw [hcarry]
  constructor
  · rintro ⟨-, hiff⟩
    by_cases hover : 2 ^ 32 ≤ v * 2 ^ a.size
    · exact .inl (hiff.mp hover)
    · exact .inr (Nat.not_le.mp hover)
  · rintro (hover | hfits)
    · exact ⟨hprod, fun _ => hover, fun _ => hover.trans hle⟩
    · exact ⟨hprod, fun hover => absurd hfits (Nat.not_lt.mpr hover), fun hover =>
        absurd hfits (Nat.not_lt.mpr (hover.trans hle))⟩

/-- `DTemp1` with the number `v`. -/
def multiplicand (v : Long) : Machine := { (default : Machine) with dTemp1 := v.1, dTemp1H := v.2 }

theorem multiplyTemp1ByA_overflow_ten :
    (multiplyTemp1ByA (multiplicand (0xFFFF, 0xFFFF)) 10).1 = true := by
  have h := (multiplyTemp1ByA_overflow (multiplicand (0xFFFF, 0xFFFF)) 10 ⟨by decide, by decide⟩
    (by decide) (by decide)).mpr (.inl (by decide))
  exact h.2.mpr (by decide)

/-- Twice `2 ^ 30` fits, and the carry is set. -/
theorem multiplyTemp1ByA_false_carry :
    (multiplyTemp1ByA (multiplicand (0x0000, 0x4000)) 2).1 = true ∧
      ¬ 2 ^ 32 ≤ Long.toNat (0x0000, 0x4000) * 2 := by
  refine ⟨?_, by decide⟩
  rw [multiplyTemp1ByA_carry_iff ⟨by decide, by decide⟩ (by decide) (by decide)]
  decide

end Basic65816
