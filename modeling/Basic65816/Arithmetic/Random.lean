import Basic65816.Arithmetic.Long
import Basic65816.Machine.Unary

/-!
# The random generator

A step of the shift register doubles the state and adds the taps when the top bit has been shifted out.
It is linear over the field with two elements, and the taps have their lowest bit clear, so a step is not
one-to-one: it forgets whether `lost` has been added.

## Main definitions

* `rndNext`: the state after a step
* `xorLong`: addition of states
* `lost`: the state that becomes zero

## Main results

* `rndNext_eq_iff`, `rndNext_eq_zero`: which states have the same successor
* `rndProcess_permutes`: when a step is as that of a permutation
-/

namespace Basic65816

/-- The state after a step. -/
def rndNext (s : Long) : Long :=
  let m := (rndProcess { (default : Machine) with dRandom := s.1, dRandomH := s.2 }).2
  (m.dRandom, m.dRandomH)

/-- Addition of states. -/
def xorLong (s t : Long) : Long := (s.1 ^^^ t.1, s.2 ^^^ t.2)

/-- The taps. -/
def taps : Long := (0xD454, 0x55D5)

/-- The state whose successor is zero. -/
def lost : Long := (0xEA2A, 0xAAEA)

variable {s t : Long}

theorem rndNext_eq (s : Long) :
    rndNext s = if s.2 / 0x8000 = 0 then aslLong s else xorLong (aslLong s) taps := by
  unfold rndNext rndProcess
  split_ifs <;> rfl

/-! ## Addition of states -/

theorem xorLong_comm (s t : Long) : xorLong s t = xorLong t s :=
  Prod.ext (Nat.xor_comm _ _) (Nat.xor_comm _ _)

theorem xorLong_assoc (s t u : Long) : xorLong (xorLong s t) u = xorLong s (xorLong t u) :=
  Prod.ext (Nat.xor_assoc _ _ _) (Nat.xor_assoc _ _ _)

theorem xorLong_self (s : Long) : xorLong s s = (0, 0) := Prod.ext (Nat.xor_self _) (Nat.xor_self _)

theorem xorLong_zero (s : Long) : xorLong s (0, 0) = s := Prod.ext (Nat.xor_zero _) (Nat.xor_zero _)

theorem xorLong_cancel (s t : Long) : xorLong (xorLong s t) t = s := by
  rw [xorLong_assoc, xorLong_self, xorLong_zero]

theorem xorLong_inj (u : Long) : xorLong s u = xorLong t u ↔ s = t := by
  constructor
  · intro h
    rw [← xorLong_cancel s u, h, xorLong_cancel]
  · exact fun h => h ▸ rfl

theorem valid_xorLong (hs : s.Valid) (ht : t.Valid) : (xorLong s t).Valid :=
  ⟨Nat.xor_lt_two_pow (n := 16) hs.1 ht.1, Nat.xor_lt_two_pow (n := 16) hs.2 ht.2⟩

theorem two_mul_add_xor {a b c d : ℕ} (hc : c < 2) (hd : d < 2) :
    (2 * a + c) ^^^ (2 * b + d) = 2 * (a ^^^ b) + (c ^^^ d) := by
  have hbit : ∀ e < 2, ∀ n, 2 * n + e = Nat.bit (decide (e = 1)) n := by
    intro e he n
    rw [Nat.bit_val]
    rcases (by omega : e = 0 ∨ e = 1) with rfl | rfl <;> rfl
  rw [hbit c hc, hbit d hd, Nat.xor_bit, Nat.bit_val]
  rcases (by omega : c = 0 ∨ c = 1) with rfl | rfl <;>
    rcases (by omega : d = 0 ∨ d = 1) with rfl | rfl <;> rfl

/-- The top bit of a word. -/
theorem xor_div_top (a b : ℕ) : (a ^^^ b) / 0x8000 = (a / 0x8000) ^^^ (b / 0x8000) := by
  have h := Nat.shiftRight_xor_distrib (a := a) (b := b) (i := 15)
  simpa only [Nat.shiftRight_eq_div_pow] using h

/-- Doubling is linear. The bit that goes from the low word to the high word comes in at the bottom. -/
theorem aslLong_xorLong (hs : s.Valid) (ht : t.Valid) :
    aslLong (xorLong s t) = xorLong (aslLong s) (aslLong t) := by
  obtain ⟨h₁, -⟩ := hs
  obtain ⟨h₂, -⟩ := ht
  have hlow : 2 * (s.1 ^^^ t.1) = (2 * s.1) ^^^ (2 * t.1) :=
    (two_mul_add_xor (a := s.1) (b := t.1) (c := 0) (d := 0) (by decide) (by decide)).symm
  have hhigh : 2 * (s.2 ^^^ t.2) + (s.1 ^^^ t.1) / 0x8000 =
      (2 * s.2 + s.1 / 0x8000) ^^^ (2 * t.2 + t.1 / 0x8000) := by
    rw [xor_div_top]
    exact (two_mul_add_xor (by omega) (by omega)).symm
  unfold aslLong doubleLong xorLong
  refine Prod.ext ?_ ?_
  · dsimp only
    rw [hlow]
    exact Nat.xor_mod_two_pow (n := 16)
  · dsimp only
    rw [hhigh]
    exact Nat.xor_mod_two_pow (n := 16)

/-- Below the top bit doubling is one-to-one. -/
theorem aslLong_inj (hs : s.Valid) (ht : t.Valid) (htop : s.2 / 0x8000 = t.2 / 0x8000)
    (h : aslLong s = aslLong t) : s = t := by
  obtain ⟨h₁, h₂⟩ := hs
  obtain ⟨h₃, h₄⟩ := ht
  have hlow := congrArg Prod.fst h
  have hhigh := congrArg Prod.snd h
  simp only [aslLong, doubleLong] at hlow hhigh
  exact Prod.ext (by omega) (by omega)

/-! ## The step -/

theorem valid_lost : lost.Valid := ⟨by decide, by decide⟩

/-- The top bits of two states differ exactly when one of them is that of the other with `lost` added. -/
theorem top_lost (hs : s.Valid) (ht : t.Valid) (htop : s.2 / 0x8000 ≠ t.2 / 0x8000) :
    s.2 / 0x8000 = (xorLong t lost).2 / 0x8000 := by
  obtain ⟨-, h₁⟩ := hs
  obtain ⟨-, h₂⟩ := ht
  change _ = (t.2 ^^^ 0xAAEA) / 0x8000
  rw [xor_div_top]
  rcases (by omega : t.2 / 0x8000 = 0 ∨ t.2 / 0x8000 = 1) with h | h
  · rw [h, show (0 ^^^ 0xAAEA / 0x8000) = 1 from rfl]
    omega
  · rw [h, show (1 ^^^ 0xAAEA / 0x8000) = 0 from rfl]
    omega

/-- A step does not see whether `lost` has been added. -/
theorem rndNext_lost (hs : s.Valid) : rndNext (xorLong s lost) = rndNext s := by
  have hasl : aslLong (xorLong s lost) = xorLong (aslLong s) taps := aslLong_xorLong hs valid_lost
  have htop : (xorLong s lost).2 / 0x8000 = (s.2 / 0x8000) ^^^ 1 := xor_div_top s.2 0xAAEA
  obtain ⟨-, h₂⟩ := hs
  rw [rndNext_eq, rndNext_eq, hasl, htop]
  rcases (by omega : s.2 / 0x8000 = 0 ∨ s.2 / 0x8000 = 1) with h | h
  · rw [h, if_neg (by decide), if_pos rfl, xorLong_cancel]
  · rw [h, if_pos (by decide), if_neg (by decide)]

/-- Among the states with one top bit a step is one-to-one. -/
theorem rndNext_inj (hs : s.Valid) (ht : t.Valid) (htop : s.2 / 0x8000 = t.2 / 0x8000)
    (h : rndNext s = rndNext t) : s = t := by
  rw [rndNext_eq, rndNext_eq, htop] at h
  split_ifs at h
  · exact aslLong_inj hs ht htop h
  · exact aslLong_inj hs ht htop ((xorLong_inj taps).mp h)

/-- Two states have the same successor when they are equal or differ by `lost`. -/
theorem rndNext_eq_iff (hs : s.Valid) (ht : t.Valid) :
    rndNext s = rndNext t ↔ s = t ∨ xorLong s t = lost := by
  constructor
  · intro h
    by_cases htop : s.2 / 0x8000 = t.2 / 0x8000
    · exact .inl (rndNext_inj hs ht htop h)
    · right
      have hlost := rndNext_inj hs (valid_xorLong ht valid_lost) (top_lost hs ht htop)
        (h.trans (rndNext_lost ht).symm)
      rw [hlost, xorLong_comm t lost, xorLong_cancel]
  · rintro (rfl | h)
    · rfl
    · rw [← rndNext_lost ht, ← h, xorLong_comm s t, ← xorLong_assoc, xorLong_self, xorLong_comm,
        xorLong_zero]

theorem rndNext_eq_zero (hs : s.Valid) : rndNext s = (0, 0) ↔ s = (0, 0) ∨ s = lost := by
  have h := rndNext_eq_iff hs valid_zero
  rwa [xorLong_zero] at h

/-- **The step of the random generator.** A step of two states other than zero is as that of a
permutation of such states exactly when neither is `lost` and they do not differ by `lost`. -/
theorem rndProcess_permutes (m n : Machine) (hm : Long.Valid (m.dRandom, m.dRandomH))
    (hn : Long.Valid (n.dRandom, n.dRandomH)) (hm₀ : (m.dRandom, m.dRandomH) ≠ (0, 0))
    (hn₀ : (n.dRandom, n.dRandomH) ≠ (0, 0)) :
    let s := (m.dRandom, m.dRandomH)
    let t := (n.dRandom, n.dRandomH)
    let s' := ((rndProcess m).2.dRandom, (rndProcess m).2.dRandomH)
    let t' := ((rndProcess n).2.dRandom, (rndProcess n).2.dRandomH)
    (s' ≠ (0, 0) ∧ t' ≠ (0, 0) ∧ (s' = t' → s = t)) ↔ s ≠ lost ∧ t ≠ lost ∧ xorLong s t ≠ lost := by
  intro s t s' t'
  have hs : s' = (0, 0) ↔ s = lost := by
    refine (rndNext_eq_zero hm).trans ?_
    exact ⟨fun h => h.resolve_left hm₀, .inr⟩
  have ht : t' = (0, 0) ↔ t = lost := by
    refine (rndNext_eq_zero hn).trans ?_
    exact ⟨fun h => h.resolve_left hn₀, .inr⟩
  have hst : s' = t' ↔ s = t ∨ xorLong s t = lost := rndNext_eq_iff hm hn
  have hne : s = t → xorLong s t ≠ lost := by
    intro h
    rw [h, xorLong_self]
    decide
  rw [ne_eq, ne_eq, hs, ht, hst]
  constructor
  · rintro ⟨h₁, h₂, h₃⟩
    exact ⟨h₁, h₂, fun h => hne (h₃ (.inr h)) h⟩
  · rintro ⟨h₁, h₂, h₃⟩
    exact ⟨h₁, h₂, fun h => h.resolve_right h₃⟩

/-- `DRandom` with the state `s`. -/
def randomState (s : Long) : Machine := { (default : Machine) with dRandom := s.1, dRandomH := s.2 }

theorem rndProcess_permutes_one : (rndProcess (randomState (1, 0))).2.dRandom ≠ 0 ∨
    (rndProcess (randomState (1, 0))).2.dRandomH ≠ 0 := by
  have h := (rndProcess_permutes (randomState (1, 0)) (randomState (2, 0)) ⟨by decide, by decide⟩
    ⟨by decide, by decide⟩ (by decide) (by decide)).mpr ⟨by decide, by decide, by decide⟩
  by_contra hzero
  push Not at hzero
  exact h.1 (Prod.ext hzero.1 hzero.2)

/-- A state other than zero becomes zero, and two states become the same. -/
theorem rndProcess_collapses :
    (rndProcess (randomState lost)).2.dRandom = 0 ∧ (rndProcess (randomState lost)).2.dRandomH = 0 ∧
      (rndProcess (randomState (1, 0))).2 = (rndProcess (randomState (xorLong (1, 0) lost))).2 :=
  ⟨by decide, by decide, rfl⟩

end Basic65816
