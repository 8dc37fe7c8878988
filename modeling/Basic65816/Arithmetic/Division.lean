import Basic65816.Arithmetic.Long

/-!
# Division

The divider moves the dividend bit by bit from the quotient register into the partial remainder and
subtracts the divisor where it fits. After `k` rounds the quotient of the first `k` bits stands in
the low bits of the register, and what is left of the dividend above it.

## Main definitions

* `Dividing`: the registers after `k` rounds

## Main results

* `dividing_round`, `dividing_loop`: one round and a run
* `divideLong_toNat`: quotient and remainder of the magnitudes
* `division_truncates`: `/` rounds towards zero
* `division_identity`: when `/` and `%` belong together
-/

namespace Basic65816

/-- The registers `q` and `a` after `k` rounds of dividing `n` by `d`: the low bits `lo` of the
dividend are still to come, `quot` is the quotient of the others. -/
def Dividing (n d k q a : ℕ) : Prop :=
  ∃ lo quot, lo < 2 ^ (32 - k) ∧ quot < 2 ^ k ∧ q = lo * 2 ^ k + quot ∧
    n = (quot * d + a) * 2 ^ (32 - k) + lo ∧ a < d

section

variable {n k : ℕ} {d q a : Long}

/-- The rotation moves the top bit of the quotient register into the partial remainder. -/
theorem rotate_toNat (hq : q.Valid) (ha : a.Valid) (h : 2 * a.toNat + 1 < 2 ^ 32) :
    let a' : Long := ((2 * a.1 + q.2 / 0x8000) % 0x10000, (2 * a.2 + a.1 / 0x8000) % 0x10000)
    a'.Valid ∧ a'.toNat = 2 * a.toNat + q.toNat / 2 ^ 31 := by
  obtain ⟨h₁, h₂⟩ := hq
  obtain ⟨h₃, h₄⟩ := ha
  refine ⟨⟨Nat.mod_lt _ (by decide), Nat.mod_lt _ (by decide)⟩, ?_⟩
  simp only [Long.toNat] at h ⊢
  omega

/-- The invariant keeps the partial remainder in the register. -/
theorem Dividing.fits {N D Q A : ℕ} (h : Dividing N D k Q A) (hd : D ≤ 2 ^ 31) :
    2 * A + 1 < 2 ^ 32 := by
  obtain ⟨lo, quot, -, -, -, -, ha⟩ := h
  omega

/-- One bit of the dividend. -/
theorem Dividing.bit {N D Q A : ℕ} (hk : k < 32) (h : Dividing N D k Q A) :
    let A' := 2 * A + Q / 2 ^ 31
    let Q' := 2 * Q % 2 ^ 32
    Q' + 1 < 2 ^ 32 ∧
      if A' < D then Dividing N D (k + 1) Q' A' else Dividing N D (k + 1) (Q' + 1) (A' - D) := by
  obtain ⟨lo, quot, hlo, hquot, rfl, rfl, ha⟩ := h
  obtain ⟨j, hj⟩ : ∃ j, 32 - k = j + 1 := ⟨31 - k, by omega⟩
  have hj' : 32 - (k + 1) = j := by omega
  have hpow : 2 ^ j * 2 ^ k = 2 ^ 31 := by rw [← Nat.pow_add, show j + k = 31 by omega]
  rw [hj, Nat.pow_succ] at hlo
  -- the top bit `t` of what is left, and the bits below it
  obtain ⟨t, lo', rfl, ht, hlo'⟩ : ∃ t lo', lo = t * 2 ^ j + lo' ∧ t ≤ 1 ∧ lo' < 2 ^ j :=
    ⟨lo / 2 ^ j, lo % 2 ^ j, (Nat.div_add_mod' lo (2 ^ j)).symm,
      Nat.lt_succ_iff.mp (Nat.div_lt_of_lt_mul (by omega)), Nat.mod_lt _ (Nat.two_pow_pos j)⟩
  have hsplit : (t * 2 ^ j + lo') * 2 ^ k + quot = t * 2 ^ 31 + (lo' * 2 ^ k + quot) := by
    rw [← hpow]
    ring
  have hlow : lo' * 2 ^ k + quot < 2 ^ 31 := calc
    lo' * 2 ^ k + quot < lo' * 2 ^ k + 2 ^ k := by omega
    _ = (lo' + 1) * 2 ^ k := by ring
    _ ≤ 2 ^ j * 2 ^ k := Nat.mul_le_mul_right _ hlo'
    _ = 2 ^ 31 := hpow
  have hdouble : lo' * 2 ^ (k + 1) = 2 * (lo' * 2 ^ k) := by ring
  have hbit : ((t * 2 ^ j + lo') * 2 ^ k + quot) / 2 ^ 31 = t := by omega
  have hshift : 2 * ((t * 2 ^ j + lo') * 2 ^ k + quot) % 2 ^ 32 = lo' * 2 ^ (k + 1) + 2 * quot := by
    omega
  have hroom : lo' * 2 ^ (k + 1) + 2 * quot + 1 < 2 ^ 32 := by omega
  dsimp only
  rw [hbit, hshift, hj]
  refine ⟨hroom, ?_⟩
  split_ifs with hfit
  · refine ⟨lo', 2 * quot, by rwa [hj'], by rw [Nat.pow_succ]; omega, rfl, ?_, hfit⟩
    rw [hj']
    ring
  · obtain ⟨r, hr⟩ : ∃ r, 2 * A + t = D + r := ⟨2 * A + t - D, by omega⟩
    refine ⟨lo', 2 * quot + 1, by rwa [hj'], by rw [Nat.pow_succ]; omega, by ring, ?_, by omega⟩
    have hdig : (quot * D + A) * 2 ^ (j + 1) + (t * 2 ^ j + lo') =
        (2 * quot * D + (2 * A + t)) * 2 ^ j + lo' := by ring
    rw [hj', hdig, hr, Nat.add_sub_cancel_left]
    ring

/-- **One round** of the divider. -/
theorem dividing_round {N : ℕ} (hk : k < 32) (hd : d.Valid) (hq : q.Valid) (ha : a.Valid)
    (h : Dividing N d.toNat k q.toNat a.toNat) (hle : d.toNat ≤ 2 ^ 31) (w : ℕ) :
    let s := binaryDivideLoop d 1 (q, a, w)
    s.1.Valid ∧ s.2.1.Valid ∧ Dividing N d.toNat (k + 1) s.1.toNat s.2.1.toNat := by
  obtain ⟨ha', hrot⟩ := rotate_toNat hq ha (h.fits hle)
  obtain ⟨hroom, hnext⟩ := h.bit hk
  have hasl := toNat_aslLong q
  have hvq := valid_aslLong q
  obtain ⟨a', hdef⟩ : ∃ a' : Long,
      a' = ((2 * a.1 + q.2 / 0x8000) % 0x10000, (2 * a.2 + a.1 / 0x8000) % 0x10000) := ⟨_, rfl⟩
  have hstep : binaryDivideLoop d 1 (q, a, w) =
      if a'.2 < d.2 + borrowLow 0 a' d then (aslLong q, a', (subLong a' d).1)
      else ((add16 (aslLong q).1 1, (aslLong q).2), subLong a' d, (subLong a' d).1) := by
    rw [hdef]
    rfl
  rw [← hdef] at ha' hrot
  rw [hstep]
  have hcmp := borrow_iff ha' hd
  rw [← hrot, ← hasl] at hnext
  rw [← hasl] at hroom
  by_cases hlt : a'.toNat < d.toNat
  · rw [if_pos (hcmp.mpr hlt)]
    rw [if_pos hlt] at hnext
    exact ⟨hvq, ha', hnext⟩
  · rw [if_neg fun h => hlt (hcmp.mp h)]
    rw [if_neg hlt] at hnext
    have hsub := toNat_subLong ha' hd
    have hlt' := ha'.toNat_lt
    have hinc : Long.toNat (add16 (aslLong q).1 1, (aslLong q).2) = (aslLong q).toNat + 1 := by
      obtain ⟨h₁, h₂⟩ := hvq
      have heven : (aslLong q).1 % 2 = 0 := by
        simp only [aslLong, doubleLong]
        omega
      unfold Long.toNat add16
      omega
    refine ⟨⟨add16_lt _ _, hvq.2⟩, valid_subLong _ _, ?_⟩
    dsimp only
    rw [hinc, hsub, show (a'.toNat + 2 ^ 32 - d.toNat) % 2 ^ 32 = a'.toNat - d.toNat by omega]
    exact hnext

theorem binaryDivideLoop_first (d : Long) (n : ℕ) (s : Long × Long × ℕ) :
    binaryDivideLoop d (n + 1) s = binaryDivideLoop d n (binaryDivideLoop d 1 s) := by
  obtain ⟨q, a, w⟩ := s
  rw [binaryDivideLoop.eq_2]
  exact (apply_ite (binaryDivideLoop d n) _ _ _).symm

theorem binaryDivideLoop_succ (d : Long) (n : ℕ) (s : Long × Long × ℕ) :
    binaryDivideLoop d (n + 1) s = binaryDivideLoop d 1 (binaryDivideLoop d n s) := by
  induction n generalizing s with
  | zero => rfl
  | succ n ih => rw [binaryDivideLoop_first, ih, ← binaryDivideLoop_first]

/-- **A run** of the divider. By induction on the rounds. -/
theorem dividing_loop {n : Long} (hn : n.Valid) (hd : d.Valid) (hpos : 0 < d.toNat)
    (hle : d.toNat ≤ 2 ^ 31) (w : ℕ) (hk : k ≤ 32) :
    let s := binaryDivideLoop d k (n, (0, 0), w)
    s.1.Valid ∧ s.2.1.Valid ∧ Dividing n.toNat d.toNat k s.1.toNat s.2.1.toNat := by
  induction k with
  | zero =>
    refine ⟨hn, valid_zero, n.toNat, 0, hn.toNat_lt, by decide, by simp [binaryDivideLoop], ?_, hpos⟩
    simp [binaryDivideLoop, Long.toNat]
  | succ k ih =>
    obtain ⟨hq, ha, h⟩ := ih (by omega)
    rw [binaryDivideLoop_succ]
    exact dividing_round (by omega) hd hq ha h hle _

/-- The remainder after 32 rounds is that of the division. -/
theorem dividing_exact {N D Q A : ℕ} (h : Dividing N D 32 Q A) : Q = N / D ∧ A = N % D := by
  obtain ⟨lo, quot, hlo, -, rfl, rfl, ha⟩ := h
  obtain rfl : lo = 0 := by simpa using hlo
  simp only [Nat.sub_self, Nat.pow_zero, Nat.mul_one, Nat.add_zero, Nat.zero_mul, Nat.zero_add]
  constructor
  · rw [Nat.mul_comm, Nat.mul_add_div (by omega), Nat.div_eq_of_lt ha, Nat.add_zero]
  · rw [Nat.mul_comm, Nat.mul_add_mod, Nat.mod_eq_of_lt ha]

end

/-! ## The operators -/

section

variable {l r : Long}

/-- The magnitudes are divided. -/
theorem divideLong_loop (hl : l.Valid) (hr : r.Valid) (h₀ : signedLong r ≠ 0) :
    let s := binaryDivideLoop (absLong r) 32 (absLong l, (0, 0), 0)
    s.1.Valid ∧ s.1.toNat = (signedLong l).natAbs / (signedLong r).natAbs ∧
      s.2.1.toNat = (signedLong l).natAbs % (signedLong r).natAbs := by
  have hlt := hr.toNat_lt
  have habs := toNat_absLong hr
  have hle : (absLong r).toNat ≤ 2 ^ 31 := by
    rw [habs, signedLong_eq hr]
    split_ifs <;> omega
  obtain ⟨hv, -, h⟩ := dividing_loop (k := 32) (valid_absLong hl) (valid_absLong hr) (by omega) hle 0
    (Nat.le_refl _)
  obtain ⟨hq, ha⟩ := dividing_exact h
  rw [toNat_absLong hl, habs] at hq ha
  exact ⟨hv, hq, ha⟩

/-- The quotient is negated when the signs differ. -/
theorem divideLong_quotient (hl : l.Valid) (hr : r.Valid) (h₀ : signedLong r ≠ 0) :
    ((divideLong l r).1.toNat : ℤ) = (signedLong l).tdiv (signedLong r) % 2 ^ 32 := by
  obtain ⟨hv, hq, -⟩ := divideLong_loop hl hr h₀
  have hlneg := signedLong_neg_iff hl
  have hrneg := signedLong_neg_iff hr
  have hlt := hv.toNat_lt
  generalize signedLong l = a at *
  generalize signedLong r = b at *
  have hdiv : (a.tdiv b).natAbs = a.natAbs / b.natAbs := Int.natAbs_tdiv a b
  rw [← hdiv] at hq
  unfold divideLong
  simp only [hlneg, hrneg]
  by_cases hsign : a < 0 ↔ b < 0
  · have hnonneg : 0 ≤ a.tdiv b := by
      by_cases ha : a < 0
      · exact Int.tdiv_nonneg_of_nonpos_of_nonpos ha.le (hsign.mp ha).le
      · exact Int.tdiv_nonneg (by omega) (by omega)
    rw [if_pos hsign, hq]
    omega
  · have hnonpos : a.tdiv b ≤ 0 := by
      by_cases ha : a < 0
      · have hflip := Int.tdiv_nonneg (show 0 ≤ -a by omega) (show 0 ≤ b by omega)
        rw [Int.neg_tdiv] at hflip
        omega
      · exact Int.tdiv_nonpos_of_nonneg_of_nonpos (by omega) (by omega)
    rw [if_neg hsign, toNat_negLong hv, hq]
    omega

/-- The remainder is that of the magnitudes. -/
theorem divideLong_remainder (hl : l.Valid) (hr : r.Valid) (h₀ : signedLong r ≠ 0) :
    (divideLong l r).2.toNat = (signedLong l).natAbs % (signedLong r).natAbs :=
  (divideLong_loop hl hr h₀).2.2

theorem signedLong_eq_zero (hr : r.Valid) : signedLong r = 0 ↔ r = (0, 0) := by
  rw [← signedLong_inj hr valid_zero]
  rfl

/-- Only the least number divided by -1 leaves the range. -/
theorem tdiv_range {a b : ℤ} (ha : -2 ^ 31 ≤ a) (ha' : a < 2 ^ 31) (h : ¬ (a = -2 ^ 31 ∧ b = -1)) :
    -2 ^ 31 ≤ a.tdiv b ∧ a.tdiv b < 2 ^ 31 := by
  have habs : (a.tdiv b).natAbs = a.natAbs / b.natAbs := Int.natAbs_tdiv a b
  by_cases hmin : a = -2 ^ 31
  · by_cases hb : b.natAbs = 1
    · have hb' : b = 1 := by omega
      subst hmin hb'
      decide
    · have hle : a.natAbs / b.natAbs ≤ a.natAbs / 2 := by
        rcases Nat.eq_zero_or_pos b.natAbs with h₀ | h₀
        · rw [h₀, Nat.div_zero]
          exact Nat.zero_le _
        · exact Nat.div_le_div_left (by omega) (by decide)
      omega
  · have hle := Nat.div_le_self a.natAbs b.natAbs
    omega

end

/-- **Division truncates towards zero.** For two integer operands the quotient is that of the
numbers, which wraps around for the least number divided by -1 only; the remainder of the magnitudes
is left in `DTemp1`. In every round the partial remainder is less than the divisor, so that the
rotation loses no bit. -/
theorem division_truncates (m : Machine) (x : ℕ) (h : m.isString x = false)
    (h' : m.isString (x + exsNext) = false) :
    let a := signedLong (m.value x)
    let b := signedLong (m.value (x + exsNext))
    (binaryDivide m x = fail m .divisionByZero ↔ b = 0) ∧
    (b ≠ 0 → ∃ m', binaryDivide m x = .ok m' ∧
      ((m'.value x).toNat : ℤ) = a.tdiv b % 2 ^ 32 ∧
      signedLong (m'.value x) = (if a = -2 ^ 31 ∧ b = -1 then -2 ^ 31 else a.tdiv b) ∧
      Long.toNat (m'.dTemp1, m'.dTemp1H) = a.natAbs % b.natAbs ∧
      m'.value x = (divideLong (m.value x) (m.value (x + exsNext))).1 ∧
      ∀ k < 32,
        let s := binaryDivideLoop (absLong (m.value (x + exsNext))) k (absLong (m.value x), (0, 0), 0)
        s.2.1.toNat < b.natAbs ∧ 2 * s.2.1.toNat + 1 < 2 ^ 32) := by
  intro a b
  have hl := m.valid_value x
  have hr := m.valid_value (x + exsNext)
  have hzero : b = 0 ↔ m.value (x + exsNext) = (0, 0) := signedLong_eq_zero hr
  have hok : b ≠ 0 → _ := fun hb => binaryDivide_integer h h' (hzero.not.mp hb)
  refine ⟨⟨fun hfail => ?_, fun hb => binaryDivide_zero h h' (hzero.mp hb)⟩, fun hb => ?_⟩
  · by_contra hb
    obtain ⟨m', hm', -⟩ := hok hb
    rw [hm'] at hfail
    cases hfail
  obtain ⟨m', hm', hd, hrem⟩ := hok hb
  have hq := divideLong_quotient hl hr hb
  have hrange := signedLong_range hl
  rw [← hd.value] at hq
  refine ⟨m', hm', hq, ?_, ?_, hd.value, fun k hk => ?_⟩
  · split_ifs with hmin
    · have hleast : (-2 ^ 31 : ℤ).tdiv (-1) = 2 ^ 31 := by decide
      rw [show signedLong (m.value x) = -2 ^ 31 from hmin.1,
        show signedLong (m.value (x + exsNext)) = -1 from hmin.2, hleast] at hq
      rw [signedLong_eq (m'.valid_value x), if_neg (by omega)]
      omega
    · obtain ⟨h₁, h₂⟩ := tdiv_range hrange.1 hrange.2 hmin
      exact signedLong_of_toNat (m'.valid_value x) hq h₁ h₂
  · rw [hrem]
    exact divideLong_remainder hl hr hb
  · have habs := toNat_absLong hr
    have hrange' := signedLong_range hr
    have hpos : 0 < (absLong (m.value (x + exsNext))).toNat := by
      rw [habs]
      exact Int.natAbs_pos.mpr hb
    have hle : (absLong (m.value (x + exsNext))).toNat ≤ 2 ^ 31 := by omega
    obtain ⟨-, -, hdiv⟩ := dividing_loop (k := k) (valid_absLong hl) (valid_absLong hr) hpos hle 0
      hk.le
    have hfits := hdiv.fits hle
    obtain ⟨lo, quot, -, -, -, -, hlt⟩ := hdiv
    exact ⟨habs ▸ hlt, hfits⟩

/-- The operands of a binary operator. -/
def divisionOperands (a b : Long) : Machine := ((default : Machine).setValue 0 a).setValue exsNext b

/-- The least number divided by -1. -/
theorem division_truncates_least : ∃ m',
    binaryDivide (divisionOperands (0, 0x8000) (0xFFFF, 0xFFFF)) 0 = .ok m' ∧
      signedLong (m'.value 0) = -2 ^ 31 := by
  obtain ⟨m', hm', -, h, -⟩ :=
    (division_truncates (divisionOperands (0, 0x8000) (0xFFFF, 0xFFFF)) 0 (by rfl)
      (by rfl)).2 (by decide)
  refine ⟨m', hm', h.trans ?_⟩
  rfl

/-- **Division and modulus** belong together exactly when the dividend is not negative or there is no
remainder: the modulus takes the remainder of the magnitudes and does not restore its sign. -/
theorem division_identity (m : Machine) (x : ℕ) (h : m.isString x = false)
    (h' : m.isString (x + exsNext) = false) (h₀ : signedLong (m.value (x + exsNext)) ≠ 0) :
    let a := signedLong (m.value x)
    let b := signedLong (m.value (x + exsNext))
    ∃ m₁ m₂, binaryDivide m x = .ok m₁ ∧ binaryModulus m x = .ok m₂ ∧
      let q := signedLong (m₁.value x)
      let r := signedLong (m₂.value x)
      ((q * b + r) % 2 ^ 32 = a % 2 ^ 32 ∧ |r| < |b| ↔ 0 ≤ a ∨ b ∣ a) := by
  intro a b
  have hl := m.valid_value x
  have hr := m.valid_value (x + exsNext)
  have hne : m.value (x + exsNext) ≠ (0, 0) := (signedLong_eq_zero hr).not.mp h₀
  obtain ⟨m₁, hm₁, hd₁, -⟩ := binaryDivide_integer h h' hne
  obtain ⟨m₂, hm₂, hd₂⟩ := binaryModulus_integer h h' hne
  refine ⟨m₁, m₂, hm₁, hm₂, ?_⟩
  intro q r
  have hq : (q - a.tdiv b) % 2 ^ 32 = 0 := by
    have hquot := divideLong_quotient hl hr h₀
    rw [← hd₁.value] at hquot
    have hsigned := signedLong_eq (m₁.valid_value x)
    change q = _ at hsigned
    change _ = a.tdiv b % 2 ^ 32 at hquot
    split_ifs at hsigned <;> omega
  have hrem : r = |a| % |b| := by
    have hmod := divideLong_remainder hl hr h₀
    rw [← hd₂.value] at hmod
    have hrange := signedLong_range hr
    have hlt : a.natAbs % b.natAbs < b.natAbs := Nat.mod_lt _ (Int.natAbs_pos.mpr h₀)
    have hsigned := signedLong_eq (m₂.valid_value x)
    change r = _ at hsigned
    change _ = a.natAbs % b.natAbs at hmod
    rw [hmod, if_pos (by omega)] at hsigned
    rw [hsigned, Int.abs_eq_natAbs, Int.abs_eq_natAbs]
    push_cast
    rfl
  have hbound : |r| < |b| := by
    have hpos : 0 < |b| := abs_pos.mpr h₀
    rw [hrem, abs_of_nonneg (Int.emod_nonneg _ hpos.ne')]
    exact Int.emod_lt_of_pos _ hpos
  -- the truncated remainder has the sign of the dividend
  have htmod : a.tmod b = if 0 ≤ a then r else -r := by
    split_ifs with ha
    · rw [Int.tmod_eq_emod_of_nonneg ha, hrem, abs_of_nonneg ha, Int.emod_abs]
    · have hneg := Int.neg_tmod a b
      rw [Int.tmod_eq_emod_of_nonneg (by omega), ← Int.emod_abs,
        ← abs_of_neg (show a < 0 by omega), ← hrem] at hneg
      omega
  have hkey : (q * b + r - a) % 2 ^ 32 = (r - a.tmod b) % 2 ^ 32 := by
    obtain ⟨j, hj⟩ := Int.dvd_of_emod_eq_zero hq
    have hdiv := Int.mul_tdiv_add_tmod a b
    have he : q * b + r - a = (r - a.tmod b) + 2 ^ 32 * (j * b) := by
      rw [show q = a.tdiv b + 2 ^ 32 * j by omega]
      linear_combination hdiv
    rw [he, Int.add_mul_emod_self_left]
  have hr₀ : r = 0 ↔ b ∣ a := by
    rw [hrem, ← Int.dvd_iff_emod_eq_zero, abs_dvd_abs]
  have hr₁ : 0 ≤ r ∧ r < 2 ^ 31 := by
    have hrange := signedLong_range (m₂.valid_value x)
    have hpos : 0 < |b| := abs_pos.mpr h₀
    exact ⟨hrem ▸ Int.emod_nonneg _ hpos.ne', hrange.2⟩
  rw [Int.emod_eq_emod_iff_emod_sub_eq_zero, hkey, htmod, ← hr₀]
  split_ifs with ha
  · simp [ha, hbound]
  · constructor
    · rintro ⟨hzero, -⟩
      exact .inr (by omega)
    · rintro (ha' | hzero)
      · exact absurd ha' ha
      · exact ⟨by rw [hzero]; decide, hbound⟩

/-- 7 divided by 2. -/
theorem division_identity_seven : ∃ m₁ m₂,
    binaryDivide (divisionOperands (7, 0) (2, 0)) 0 = .ok m₁ ∧
      binaryModulus (divisionOperands (7, 0) (2, 0)) 0 = .ok m₂ ∧
      (signedLong (m₁.value 0) * 2 + signedLong (m₂.value 0)) % 2 ^ 32 = 7 % 2 ^ 32 ∧
      |signedLong (m₂.value 0)| < 2 := by
  have ha : signedLong ((divisionOperands (7, 0) (2, 0)).value 0) = 7 := by decide
  have hb : signedLong ((divisionOperands (7, 0) (2, 0)).value (0 + exsNext)) = 2 := by decide
  obtain ⟨m₁, m₂, h₁, h₂, hiff⟩ := division_identity (divisionOperands (7, 0) (2, 0)) 0 (by rfl)
    (by rfl) (by rw [hb]; decide)
  rw [ha, hb] at hiff
  obtain ⟨hsum, hless⟩ := hiff.mpr (.inl (by decide))
  exact ⟨m₁, m₂, h₁, h₂, hsum, hless⟩

/-- -7 divided by 2 is -3, and -7 modulo 2 is 1: together -5. -/
theorem division_identity_minus_seven : ∃ m₁ m₂,
    binaryDivide (divisionOperands (0xFFF9, 0xFFFF) (2, 0)) 0 = .ok m₁ ∧
    binaryModulus (divisionOperands (0xFFF9, 0xFFFF) (2, 0)) 0 = .ok m₂ ∧
    (signedLong (m₁.value 0) * 2 + signedLong (m₂.value 0)) % 2 ^ 32 ≠ -7 % 2 ^ 32 := by
  obtain ⟨m₁, h₁, hq⟩ := Except.exists_of_check
    (r := binaryDivide (divisionOperands (0xFFF9, 0xFFFF) (2, 0)) 0)
    (P := fun m => signedLong (m.value 0) = -3) (by rfl)
  obtain ⟨m₂, h₂, hr⟩ := Except.exists_of_check
    (r := binaryModulus (divisionOperands (0xFFF9, 0xFFFF) (2, 0)) 0)
    (P := fun m => signedLong (m.value 0) = 1) (by rfl)
  exact ⟨m₁, m₂, h₁, h₂, by rw [hq, hr]; decide⟩

end Basic65816
