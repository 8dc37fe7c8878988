import Mathlib

/-!
# Counting with wrap-around

A loop counts from a start towards a limit in a number range of 32 bits. It decides by the sign of the
difference between the limit and the next index, and that difference wraps around as well.

## Main definitions

* `wrap`: a signed number of 32 bits
* `Passed`, `Continues`: the limit has been passed; the sign test
* `Counts`: the decisions of a loop that runs exactly through its range

## Main results

* `exists_counts_of_fits`, `fits_of_counts`: when a loop runs exactly through its range
-/

namespace Counting

variable {start limit step j : ℤ} {n : ℕ}

/-- The signed number of 32 bits that is left of an integer. -/
def wrap (z : ℤ) : ℤ := (z + 2 ^ 31) % 2 ^ 32 - 2 ^ 31

theorem wrap_of_range (h : -2 ^ 31 ≤ j) (h' : j < 2 ^ 31) : wrap j = j := by
  unfold wrap
  omega

theorem wrap_sub_wrap (a b : ℤ) : wrap (a - wrap b) = wrap (a - b) := by
  unfold wrap
  omega

theorem wrap_wrap_add (a b : ℤ) : wrap (wrap a + b) = wrap (a + b) := by
  unfold wrap
  omega

/-- The index `j` has passed the limit. -/
def Passed (limit step j : ℤ) : Prop := if 0 < step then limit < j else j < limit

/-- The sign test: the difference is zero or has the sign of the step. -/
def Continues (limit step j : ℤ) : Prop :=
  wrap (limit - j) = 0 ∨ (wrap (limit - j) < 0 ↔ step < 0)

instance (limit step j : ℤ) : Decidable (Continues limit step j) :=
  inferInstanceAs (Decidable (_ ∨ _))

/-- The loop goes on `n` times with the limit not yet passed, and then stops with the limit passed. -/
structure Counts (start limit step : ℤ) (n : ℕ) : Prop where
  continues : ∀ k : ℕ, 1 ≤ k → k ≤ n → Continues limit step (start + k * step)
  within : ∀ k : ℕ, 1 ≤ k → k ≤ n → ¬ Passed limit step (start + k * step)
  stops : ¬ Continues limit step (start + (n + 1 : ℕ) * step)
  passed : Passed limit step (start + (n + 1 : ℕ) * step)

/-- The difference between the limit and the second index does not wrap around, or wraps around so far
that its sign is right again. A step of `-2 ^ 31` from the limit leads to a difference of `2 ^ 31`. -/
def Fits (start limit step : ℤ) : Prop :=
  let d := limit - (start + step)
  if 0 < step then -2 ^ 31 ≤ d ∧ d < 2 ^ 31 ∨ d < -2 ^ 32
  else -2 ^ 31 ≤ d ∧ d < 2 ^ 31 ∧ ¬ (step = -2 ^ 31 ∧ d = 0) ∨ 2 ^ 32 < d

instance (start limit step : ℤ) : Decidable (Fits start limit step) :=
  inferInstanceAs (Decidable (if 0 < step then _ else _))

/-- The limit is passed some time. -/
theorem exists_passed (start limit : ℤ) (hstep : step ≠ 0) :
    ∃ k : ℕ, Passed limit step (start + (k + 1 : ℕ) * step) := by
  refine ⟨(limit - start).natAbs, ?_⟩
  unfold Passed
  push_cast
  split_ifs with hpos
  · nlinarith [le_abs_self (limit - start), abs_nonneg (limit - start)]
  · have hneg : step ≤ -1 := by omega
    nlinarith [neg_abs_le (limit - start), abs_nonneg (limit - start)]

/-- The indices behind the second one lie beyond it. -/
theorem mul_bound (step : ℤ) {k : ℕ} (hk : 1 ≤ k) :
    (0 < step → step ≤ k * step) ∧ (step < 0 → k * step ≤ step) := by
  have hk' : (1 : ℤ) ≤ k := by exact_mod_cast hk
  constructor <;> intro h <;> nlinarith

/-- The second step back leads further. -/
theorem mul_second (step : ℤ) {k : ℕ} (hk : 1 ≤ k) (hstep : step < 0) :
    k * step = step ∨ k * step ≤ 2 * step := by
  rcases Nat.eq_or_lt_of_le hk with rfl | hk
  · exact .inl (by simp)
  · have hk' : (2 : ℤ) ≤ k := by exact_mod_cast hk
    exact .inr (by nlinarith)

/-- A loop whose second difference is all right counts exactly. -/
theorem exists_counts_of_fits (hs : -2 ^ 31 ≤ start) (hs' : start < 2 ^ 31) (hl : -2 ^ 31 ≤ limit)
    (hl' : limit < 2 ^ 31) (ht : -2 ^ 31 ≤ step) (ht' : step < 2 ^ 31) (hstep : step ≠ 0)
    (h : Fits start limit step) : ∃ n, Counts start limit step n := by
  classical
  have hex := exists_passed start limit hstep
  obtain ⟨n, hpassed, hmin⟩ : ∃ n : ℕ, Passed limit step (start + (n + 1 : ℕ) * step) ∧
      ∀ k : ℕ, 1 ≤ k → k ≤ n → ¬ Passed limit step (start + k * step) := by
    refine ⟨Nat.find hex, Nat.find_spec hex, fun k hk hkn => ?_⟩
    obtain ⟨i, rfl⟩ : ∃ i, k = i + 1 := ⟨k - 1, by omega⟩
    exact Nat.find_min hex (by omega)
  refine ⟨n, fun k hk hkn => ?_, hmin, ?_, hpassed⟩
  · -- the second index has not passed the limit, and the others lie between it and the limit
    have hfirst := hmin 1 (Nat.le_refl 1) (by omega)
    have hthis := hmin k hk hkn
    obtain ⟨hup, hdown⟩ := mul_bound step hk
    generalize (k : ℤ) * step = t at *
    unfold Passed at hfirst hthis
    unfold Fits at h
    unfold Continues wrap
    push_cast at hfirst
    rw [one_mul] at hfirst
    dsimp only at h
    split_ifs at h hfirst hthis with hpos
    · have := hup hpos
      omega
    · have := hdown (by omega)
      omega
  · rcases Nat.eq_zero_or_pos n with rfl | hn
    · unfold Passed at hpassed
      unfold Fits at h
      unfold Continues wrap
      simp only [Nat.zero_add, Nat.cast_one, one_mul] at hpassed ⊢
      dsimp only at h
      split_ifs at h hpassed with hpos <;> omega
    · -- the index before has not passed the limit
      have hlast := hmin n hn (Nat.le_refl n)
      have hfirst := hmin 1 (Nat.le_refl 1) hn
      have hsecond := mul_second step hn
      have hnext : ((n + 1 : ℕ) : ℤ) * step = n * step + step := by push_cast; ring
      rw [hnext] at hpassed ⊢
      generalize (n : ℤ) * step = t at *
      unfold Passed at hlast hpassed hfirst
      unfold Fits at h
      unfold Continues wrap
      rw [Nat.cast_one, one_mul] at hfirst
      dsimp only at h
      split_ifs at h hlast hpassed hfirst with hpos
      · omega
      · -- a step of `-2 ^ 31` can be taken only once
        have := hsecond (by omega)
        omega

/-- The second difference of a loop that counts exactly is all right. -/
theorem fits_of_counts (hs : -2 ^ 31 ≤ start) (hs' : start < 2 ^ 31) (hl : -2 ^ 31 ≤ limit)
    (hl' : limit < 2 ^ 31) (ht : -2 ^ 31 ≤ step) (ht' : step < 2 ^ 31) (hstep : step ≠ 0)
    (h : Counts start limit step n) : Fits start limit step := by
  rcases Nat.eq_zero_or_pos n with rfl | hn
  · have hstops := h.stops
    have hpassed := h.passed
    unfold Passed at hpassed
    unfold Continues wrap at hstops
    unfold Fits
    simp only [Nat.zero_add, Nat.cast_one, one_mul] at hpassed hstops
    dsimp only
    split_ifs at hpassed ⊢ with hpos <;> omega
  · have hfirst := h.continues 1 (Nat.le_refl 1) hn
    have hwithin := h.within 1 (Nat.le_refl 1) hn
    unfold Passed at hwithin
    unfold Continues wrap at hfirst
    unfold Fits
    rw [Nat.cast_one, one_mul] at hfirst hwithin
    dsimp only
    split_ifs at hwithin ⊢ with hpos
    · omega
    · refine .inl ⟨by omega, by omega, ?_⟩
      rintro ⟨hmin, hzero⟩
      -- the third index has passed the limit, but the difference is `-2 ^ 31`
      have hone : n = 1 := by
        by_contra hne
        have hthird := h.within 2 (by decide) (by omega)
        unfold Passed at hthird
        rw [if_neg hpos] at hthird
        push_cast at hthird
        omega
      have hstops := h.stops
      rw [hone] at hstops
      refine hstops (.inr ?_)
      unfold wrap
      push_cast
      omega

/-- The indices within the limit are in the number range. -/
theorem Counts.range (h : Counts start limit step n) (hs : -2 ^ 31 ≤ start) (hs' : start < 2 ^ 31)
    (hl : -2 ^ 31 ≤ limit) (hl' : limit < 2 ^ 31) (hstep : step ≠ 0) {k : ℕ} (hk : k ≤ n) :
    wrap (start + k * step) = start + k * step := by
  rcases Nat.eq_zero_or_pos k with rfl | hpos
  · rw [Nat.cast_zero, zero_mul, add_zero, wrap_of_range hs hs']
  · have hwithin := h.within k hpos hk
    obtain ⟨hup, hdown⟩ := mul_bound step hpos
    unfold Passed at hwithin
    refine wrap_of_range ?_ ?_ <;> split_ifs at hwithin with hsign
    · have := hup hsign
      omega
    · omega
    · omega
    · have := hdown (by omega)
      omega

end Counting
