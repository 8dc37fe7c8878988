import Basic65816.Strings.Characters
import Basic65816.Strings.Value

/-!
# The numeral of a number

`ConvertToString` pushes the powers of the base up to the number and then counts how often each of
them can be subtracted. The multiplication reports an overflow as soon as its multiplicand has been
shifted out of the long word, once more than it needs, so that the powers of two stop at `2 ^ 30`.

## Main definitions

* `Long.ofNat`: a number as a long word
* `digitChar`: the characters that are written
* `powers`: the subtractors on the stack

## Main results

* `ctsMultiplySubtractor_powers`, `ctsScaledUp_places`: the two loops
* `convertToString_places`: the digits that are written
* `str_numeral`: when they are the canonical numeral
-/

namespace Basic65816

/-- A number as a long word. -/
def Long.ofNat (n : ℕ) : Long := (n % 0x10000, n / 0x10000 % 0x10000)

theorem Long.valid_ofNat (n : ℕ) : (Long.ofNat n).Valid :=
  ⟨Nat.mod_lt _ (by decide), Nat.mod_lt _ (by decide)⟩

theorem Long.toNat_ofNat {n : ℕ} (h : n < 2 ^ 32) : (Long.ofNat n).toNat = n := by
  simp only [Long.ofNat, Long.toNat]
  omega

theorem Long.ofNat_toNat {a : Long} (h : a.Valid) : Long.ofNat a.toNat = a :=
  Long.toNat_inj (valid_ofNat _) h (toNat_ofNat h.toNat_lt)

/-- The character of a digit. -/
def digitChar (d : ℕ) : ℕ := if d < 10 then d + 48 else d + 87

theorem ctsOutputHexDigit_eq (m : Machine) {d : ℕ} (hd : d ≤ 16) :
    ctsOutputHexDigit m d = ctsOutputA m (digitChar d) := by
  unfold ctsOutputHexDigit digitChar add16
  congr 1
  split_ifs <;> omega

theorem digitChar_lt {d : ℕ} (hd : d ≤ 16) : digitChar d < 256 := by
  unfold digitChar
  split_ifs <;> omega

/-- Digits are read as they are written. -/
theorem stiDigit_digitChar {b d : ℕ} (hb : b ≤ 16) (hd : d < b) :
    stiDigit b (digitChar d) = some d := by
  have hvalue : digitValue (digitChar d) = some d := by
    unfold digitChar digitValue
    split_ifs <;> first | omega | exact congrArg some (by omega)
  rw [stiDigit_eq, hvalue, Option.map_some, Nat.mod_eq_of_lt (by omega)]
  simp [Option.filter, hd]

theorem digitChar_ne_minus {d : ℕ} : digitChar d ≠ 45 := by
  unfold digitChar
  split_ifs <;> omega

/-! ## The powers -/

/-- The subtractors on the stack: the powers of `b` from `b ^ k` down to the one. -/
def powers (b : ℕ) : ℕ → List Long
  | 0 => [(1, 0)]
  | k + 1 => Long.ofNat (b ^ (k + 1)) :: powers b k

/-- There is no overflow as long as the multiplicand can be shifted once more than is needed. By
induction on the number of bits of the multiplier. -/
theorem mtLoop_noCarry {x l : ℕ} {t d : Long} (ht : t.Valid) (hd : d.Valid) (hx : x < 2 ^ l)
    (hl : 0 < l) (h : d.toNat * 2 ^ l < 2 ^ 32) (hsum : t.toNat + x * d.toNat < 2 ^ 32) :
    (mtLoop x t d 0).2.2 = 0 := by
  induction l generalizing x t d with
  | zero => omega
  | succ l ih =>
    have hbit : x % 2 * d.toNat ≤ x * d.toNat := Nat.mul_le_mul_right _ (Nat.mod_le x 2)
    have hdouble : 2 * d.toNat < 2 ^ 32 := by
      refine lt_of_le_of_lt ?_ h
      rw [Nat.mul_comm]
      exact Nat.mul_le_mul_left _ (Nat.le_self_pow (by omega) 2)
    obtain ⟨ht₁, ht₂⟩ := id ht
    obtain ⟨hd₁, hd₂⟩ := id hd
    have hcarry : mtCarries x t d 0 = 0 := by
      unfold mtCarries
      have hadd : ¬ (x % 2 = 1 ∧ 0x10000 ≤ t.2 + d.2 + (t.1 + d.1) / 0x10000) := by
        rintro ⟨hodd, hge⟩
        rw [hodd] at hbit
        unfold Long.toNat at hbit hsum
        omega
      rw [if_neg hadd]
      dsimp only
      rw [if_neg]
      unfold Long.toNat at hdouble
      omega
    rw [mtLoop_eq, hcarry]
    split_ifs with hx'
    · rfl
    · obtain ⟨hv, hs⟩ := toNat_mtSum (x := x) (d := d) ht
      have hasl : (aslLong d).toNat = 2 * d.toNat := by
        rw [toNat_aslLong, Nat.mod_eq_of_lt hdouble]
      have hsplit : x * d.toNat = x % 2 * d.toNat + x / 2 * (2 * d.toNat) := by
        conv_lhs => rw [← Nat.mod_add_div x 2]
        ring
      have hl' : 0 < l := by
        rcases Nat.eq_zero_or_pos l with rfl | hpos
        · omega
        · exact hpos
      rw [Nat.pow_succ] at hx
      refine ih hv (valid_aslLong d) (by omega) hl' ?_ ?_
      · rw [hasl]
        calc 2 * d.toNat * 2 ^ l = d.toNat * 2 ^ (l + 1) := by ring
          _ < 2 ^ 32 := h
      · rw [hs, hasl, Nat.mod_eq_of_lt (by omega)]
        omega

section

variable {m m₁ : Machine} {b k n p fuel : ℕ} {s : List ℕ}

/-- An overflow is reported before the product leaves the long word. -/
theorem multiplyTemp1ByA_carry {a l : ℕ} (hv : Long.Valid (m.dTemp1, m.dTemp1H)) (ha : a < 2 ^ l)
    (hl : 0 < l) (h : (multiplyTemp1ByA m a).1 = true) :
    2 ^ 32 ≤ Long.toNat (m.dTemp1, m.dTemp1H) * 2 ^ l := by
  by_contra hlt
  have hsum : Long.toNat (0, 0) + a * Long.toNat (m.dTemp1, m.dTemp1H) < 2 ^ 32 := by
    rw [show Long.toNat (0, 0) = 0 from rfl, Nat.zero_add, Nat.mul_comm]
    exact lt_of_le_of_lt (Nat.mul_le_mul_left _ ha.le) (Nat.not_le.mp hlt)
  have hzero := mtLoop_noCarry valid_zero hv ha hl (Nat.not_le.mp hlt) hsum
  exact of_decide_eq_true h hzero

/-- The subtractors stop at the highest power up to the number, or at an overflow. By induction on
the rounds. -/
theorem ctsMultiplySubtractor_powers (fuel : ℕ) (hn : (m.dTemp3, m.dTemp3H) = Long.ofNat n) (hlt : n < 2 ^ 32)
    (hm : m.dSignCount = b) (hb : 2 ≤ b) (hb' : b ≤ 16)
    (hd : (m.dTemp1, m.dTemp1H) = Long.ofNat (b ^ (k + 1))) (hpow : b ^ (k + 1) < 2 ^ 32)
    (hk : k = 0 ∨ b ^ k ≤ n) (htwo : b = 2 → k ≤ 29) (hfuel : 33 ≤ fuel + k) :
    ∃ k' m', ctsMultiplySubtractor fuel m (powers b k) = .ok (powers b k', m') ∧ m.Scratch m' ∧
      (m'.dTemp3, m'.dTemp3H) = Long.ofNat n ∧ (k' = 0 ∨ b ^ k' ≤ n) ∧ (b = 2 → k' ≤ 30) ∧
      (n < b ^ (k' + 1) ∨ ∀ l, 0 < l → b < 2 ^ l → 2 ^ 32 ≤ b ^ k' * 2 ^ l) := by
  induction fuel generalizing m k with
  | zero =>
    have hle : 2 ^ 34 ≤ b ^ (k + 1) :=
      (Nat.pow_le_pow_right (by decide) (by omega)).trans (Nat.pow_le_pow_left hb _)
    omega
  | succ fuel ih =>
    have hvn := Long.valid_ofNat n
    have hvd := Long.valid_ofNat (b ^ (k + 1))
    have hcmp : longLess (m.dTemp3, m.dTemp3H) (m.dTemp1, m.dTemp1H) ↔ n < b ^ (k + 1) := by
      rw [hn, hd, longLess, borrow_iff hvn hvd, Long.toNat_ofNat hlt, Long.toNat_ofNat hpow]
    have hscratch : m.Scratch (multiplyTemp1ByA m m.dSignCount).2 := ⟨rfl, rfl, rfl, rfl, rfl, rfl⟩
    have hpush : (m.dTemp1, m.dTemp1H) :: powers b k = powers b (k + 1) := by
      rw [hd]
      rfl
    rw [ctsMultiplySubtractor]
    by_cases hless : n < b ^ (k + 1)
    · rw [if_pos (hcmp.mpr hless)]
      exact ⟨k, m, rfl, ⟨rfl, rfl, rfl, rfl, rfl, rfl⟩, hn, hk,
        fun h => (htwo h).trans (by decide), .inl hless⟩
    rw [if_neg fun h => hless (hcmp.mp h)]
    dsimp only
    rw [hpush, hm]
    rw [hm] at hscratch
    have hle := Nat.not_lt.mp hless
    by_cases hcarry : (multiplyTemp1ByA m b).1 = true
    · rw [if_pos hcarry]
      refine ⟨k + 1, _, rfl, hscratch, hn, .inr hle, fun h => ?_, .inr fun l hl hbl => ?_⟩
      · have := htwo h
        omega
      · have h := multiplyTemp1ByA_carry (hd ▸ hvd) hbl hl hcarry
        rwa [hd, Long.toNat_ofNat hpow] at h
    · rw [if_neg hcarry]
      obtain ⟨hv', hprod⟩ := multiplyTemp1ByA_exact (hd ▸ hvd) (a := b) (by omega)
        (Bool.eq_false_iff.mpr hcarry)
      rw [hd, Long.toNat_ofNat hpow, Nat.mul_comm, ← Nat.pow_succ] at hprod
      have hnext : ((multiplyTemp1ByA m b).2.dTemp1, (multiplyTemp1ByA m b).2.dTemp1H) =
          Long.ofNat (b ^ (k + 1 + 1)) := by
        rw [← hprod, Long.ofNat_toNat hv']
      have htwo' : b = 2 → k + 1 ≤ 29 := by
        -- the double of `2 ^ 30` is reported as an overflow
        intro h
        have := htwo h
        by_contra hgt
        obtain rfl : k = 29 := by omega
        subst h
        refine hcarry ?_
        have hover : (mtLoop 2 (0, 0) (Long.ofNat (2 ^ (29 + 1))) 0).2.2 ≠ 0 := by decide +kernel
        rw [← hd] at hover
        exact decide_eq_true hover
      obtain ⟨k', m', hrun, hs', hrest⟩ := ih (m := (multiplyTemp1ByA m b).2) hn hm hnext
        (hprod ▸ hv'.toNat_lt) (.inr hle) htwo' (by omega)
      exact ⟨k', m', hrun, hscratch.trans hs', hrest⟩

/-- How often the subtractor fits. By induction on the rounds. -/
theorem ctsSubLoop_count (fuel : ℕ) {d x : ℕ} (hn : (m.dTemp3, m.dTemp3H) = Long.ofNat n) (hlt : n < 2 ^ 32)
    (hd : (m.dTemp2, m.dTemp2H) = Long.ofNat d) (hdlt : d < 2 ^ 32) (hpos : 0 < d)
    (hfuel : n / d < fuel) (hx : x + n / d < 0x10000) :
    ∃ m', ctsSubLoop fuel m x = .ok (x + n / d, m') ∧ m.Scratch m' ∧
      (m'.dTemp3, m'.dTemp3H) = Long.ofNat (n % d) := by
  induction fuel generalizing m n x with
  | zero => exact absurd hfuel (Nat.not_lt_zero _)
  | succ fuel ih =>
    have hvn := Long.valid_ofNat n
    have hvd := Long.valid_ofNat d
    have hcmp : longLess (m.dTemp3, m.dTemp3H) (m.dTemp2, m.dTemp2H) ↔ n < d := by
      rw [hn, hd, longLess, borrow_iff hvn hvd, Long.toNat_ofNat hlt, Long.toNat_ofNat hdlt]
    rw [ctsSubLoop]
    dsimp only
    by_cases hless : n < d
    · rw [if_pos (hcmp.mpr hless), Nat.div_eq_of_lt hless, Nat.mod_eq_of_lt hless]
      exact ⟨m, rfl, ⟨rfl, rfl, rfl, rfl, rfl, rfl⟩, hn⟩
    rw [if_neg fun h => hless (hcmp.mp h)]
    have hle := Nat.not_lt.mp hless
    have hdiv : n / d = (n - d) / d + 1 := Nat.div_eq_sub_div hpos hle
    have hmod : n % d = (n - d) % d := Nat.mod_eq_sub_mod hle
    have hsub : subLong (m.dTemp3, m.dTemp3H) (m.dTemp2, m.dTemp2H) = Long.ofNat (n - d) := by
      refine Long.toNat_inj (valid_subLong _ _) (Long.valid_ofNat _) ?_
      rw [hn, hd, toNat_subLong hvn hvd, Long.toNat_ofNat hlt, Long.toNat_ofNat hdlt,
        Long.toNat_ofNat (by omega)]
      omega
    have hx' : x + 1 < 0x10000 := by
      refine lt_of_le_of_lt ?_ hx
      rw [hdiv, ← Nat.add_assoc]
      exact Nat.add_le_add_left (Nat.le_add_left _ _) x
    obtain ⟨m', hrun, hscratch, hrest⟩ := ih (n := n - d) (x := x + 1)
      (m := { m with
        dTemp3 := (subLong (m.dTemp3, m.dTemp3H) (m.dTemp2, m.dTemp2H)).1
        dTemp3H := (subLong (m.dTemp3, m.dTemp3H) (m.dTemp2, m.dTemp2H)).2 })
      hsub (by omega) hd (by omega) (by omega)
    refine ⟨m', ?_, Machine.Scratch.trans ?_ hscratch, hmod ▸ hrest⟩
    · rw [add16_eq hx', hrun, hdiv, Nat.add_assoc, Nat.add_comm 1]
    · exact ⟨rfl, rfl, rfl, rfl, rfl, rfl⟩

/-- **A digit for every place.** By induction on the places. -/
theorem ctsScaledUp_places (fuel : ℕ) (h : m.Written p s t m₁) (hroom : s.length + k + 2 ≤ t)
    (hp : p + t < 0x10000) (hb : 2 ≤ b) (hb' : b ≤ 16)
    (hn : (m₁.dTemp3, m₁.dTemp3H) = Long.ofNat n) (hlt : n < 2 ^ 32) (hpow : b ^ k < 2 ^ 32)
    (hfirst : n / b ^ k ≤ 16) (hfuel : 16 < fuel) :
    ∃ m', ctsScaledUp fuel m₁ (powers b k) = .ok m' ∧
      m.Written p (s ++ (Numeral.places b k n).map digitChar) t m' := by
  induction k generalizing m₁ n s with
  | zero =>
    rw [Nat.pow_zero, Nat.div_one] at hfirst
    have hlow : m₁.dTemp3 = n := (congrArg Prod.fst hn).trans (Nat.mod_eq_of_lt (by omega))
    refine ⟨ctsOutputHexDigit m₁ m₁.dTemp3, if_pos rfl, ?_⟩
    rw [hlow, ctsOutputHexDigit_eq m₁ hfirst]
    exact written_ctsOutputA h (by omega) hp (digitChar_lt hfirst)
  | succ k ih =>
    have hpos : 0 < b ^ (k + 1) := Nat.pow_pos (by omega)
    have hone : Long.ofNat (b ^ (k + 1)) ≠ (1, 0) := by
      intro h'
      have h' := congrArg Long.toNat h'
      rw [Long.toNat_ofNat hpow] at h'
      exact absurd h' (Nat.one_lt_pow (Nat.succ_ne_zero k) hb).ne'
    obtain ⟨m₂, hrun, hscratch, hrest⟩ := ctsSubLoop_count fuel (x := 0)
      (m := { m₁ with
        dTemp2 := (Long.ofNat (b ^ (k + 1))).1, dTemp2H := (Long.ofNat (b ^ (k + 1))).2 })
      hn hlt rfl hpow hpos (by omega) (by omega)
    rw [Nat.zero_add] at hrun
    have hwritten : m.Written p s t m₂ := by
      refine (h.scratch ?_).scratch hscratch
      exact ⟨rfl, rfl, rfl, rfl, rfl, rfl⟩
    have hstep : ctsScaledUp fuel m₁ (powers b (k + 1)) =
        ctsScaledUp fuel (ctsOutputHexDigit m₂ (n / b ^ (k + 1))) (powers b k) := by
      rw [powers, ctsScaledUp, if_neg hone, hrun]
      rfl
    have hnext := written_ctsOutputA hwritten (by omega) hp (digitChar_lt hfirst)
    have hmod : n % b ^ (k + 1) < b ^ (k + 1) := Nat.mod_lt _ hpos
    have hdigit : n % b ^ (k + 1) / b ^ k < b := by
      refine Nat.div_lt_of_lt_mul ?_
      rwa [← Nat.pow_succ]
    have hpow' : b ^ k < 2 ^ 32 := (Nat.pow_le_pow_right (by omega) (Nat.le_succ k)).trans_lt hpow
    rw [hstep, ctsOutputHexDigit_eq m₂ hfirst]
    obtain ⟨m', hrun', hfinal⟩ := ih hnext (by rw [List.length_append, List.length_singleton]; omega)
      hrest (by omega) hpow' (by omega)
    refine ⟨m', hrun', ?_⟩
    rw [List.append_assoc] at hfinal
    exact hfinal

/-- The magnitude of a number is at most `2 ^ 31`, and an overflow means that there is no higher power
up to it, except for `2 ^ 31` itself in base 2. -/
theorem highest_power (hb : 2 ≤ b) (hb' : b ≤ 16) (hn : n ≤ 2 ^ 31)
    (h : n < b ^ (k + 1) ∨ ∀ l, 0 < l → b < 2 ^ l → 2 ^ 32 ≤ b ^ k * 2 ^ l) :
    n < b ^ (k + 1) ∨ b = 2 ∧ n = 2 ^ 31 ∧ k = 30 := by
  rcases h with h | h
  · exact .inl h
  by_contra hno
  obtain ⟨hle, hother⟩ := not_or.mp hno
  have hle := Nat.not_lt.mp hle
  have hlog : b < 2 ^ (Nat.log 2 b + 1) := Nat.lt_pow_succ_log_self (by decide) b
  have hover := h (Nat.log 2 b + 1) (Nat.succ_pos _) hlog
  have hdouble : b ^ k * 2 ^ (Nat.log 2 b + 1) ≤ 2 * b ^ (k + 1) := calc
    b ^ k * 2 ^ (Nat.log 2 b + 1) = 2 * (b ^ k * 2 ^ Nat.log 2 b) := by ring
    _ ≤ 2 * (b ^ k * b) :=
      Nat.mul_le_mul_left _ (Nat.mul_le_mul_left _ (Nat.pow_log_le_self 2 (by omega)))
    _ = 2 * b ^ (k + 1) := by rw [Nat.pow_succ]
  -- all of these are equal, and 31 is prime
  have hpow : b ^ (k + 1) = 2 ^ 31 := by omega
  obtain ⟨j, hj, rfl⟩ := (Nat.dvd_prime_pow Nat.prime_two).mp
    (hpow ▸ dvd_pow_self b (Nat.succ_ne_zero k))
  rw [← Nat.pow_mul] at hpow
  have hmul : j * (k + 1) = 31 := Nat.pow_right_injective (Nat.le_refl 2) hpow
  rcases (Nat.dvd_prime (by decide : Nat.Prime 31)).mp ⟨k + 1, hmul.symm⟩ with rfl | rfl
  · exact hother ⟨rfl, by omega, by omega⟩
  · exact absurd hb' (by decide)

/-- The sign and the digits that are appended to an open string for a number. -/
theorem convertToStringAlreadyAllocated_places {v : Long} (h : m.Written p s t m₁) (hv : v.Valid)
    (hb : 2 ≤ b) (hb' : b ≤ 16) (hp : p + t < 0x10000)
    (hroom : ∀ k, k = 0 ∨ k ≤ 31 ∧ b ^ k ≤ (signedLong v).natAbs →
      s.length + (if signedLong v < 0 then [45] else [] : List ℕ).length + k + 2 ≤ t)
    (hfuel : 33 ≤ fuel) :
    ∃ k m', convertToStringAlreadyAllocated fuel m₁ v b = .ok m' ∧
      m.Written p (s ++ (if signedLong v < 0 then [45] else []) ++
        (Numeral.places b k (signedLong v).natAbs).map digitChar) t m' ∧
      k ≤ 31 ∧ (k = 0 ∨ b ^ k ≤ (signedLong v).natAbs) ∧ (b = 2 → k ≤ 30) ∧
      ((signedLong v).natAbs < b ^ (k + 1) ∨
        b = 2 ∧ (signedLong v).natAbs = 2 ^ 31 ∧ k = 30) := by
  have hrange := signedLong_range hv
  have habs : absLong v = Long.ofNat (signedLong v).natAbs := by
    rw [← toNat_absLong hv, Long.ofNat_toNat (valid_absLong hv)]
  have hneg := signedLong_neg_iff hv
  obtain ⟨n, hn⟩ : ∃ n, n = (signedLong v).natAbs := ⟨_, rfl⟩
  have hle : n ≤ 2 ^ 31 := by omega
  rw [← hn] at habs hroom ⊢
  -- the state before the subtractors are made
  obtain ⟨m₂, hm₂, hopen, hbase⟩ : ∃ m₂ : Machine, convertToStringAlreadyAllocated fuel m₁ v b =
      (ctsMultiplySubtractor fuel { m₂ with dTemp1 := m₂.dSignCount, dTemp1H := 0 } [(1, 0)] >>=
        fun r => ctsScaledUp fuel r.2 r.1) ∧
      m.Written p (s ++ if signedLong v < 0 then [45] else []) t m₂ ∧
      m₂.dSignCount = b ∧ (m₂.dTemp3, m₂.dTemp3H) = Long.ofNat n := by
    unfold convertToStringAlreadyAllocated
    have hset : m.Written p s t { m₁ with dTemp3 := v.1, dTemp3H := v.2, dSignCount := b } :=
      h.scratch ⟨rfl, rfl, rfl, rfl, rfl, rfl⟩
    dsimp only
    by_cases hsign : signedLong v < 0
    · have hspace := hroom 0 (.inl rfl)
      rw [if_pos hsign, List.length_singleton] at hspace
      have hminus := written_ctsOutputA hset (by omega) hp (c := 45) (by decide)
      refine ⟨{ ctsOutputA { m₁ with dTemp3 := v.1, dTemp3H := v.2, dSignCount := b } 45 with
        dTemp3 := (subLong (0, 0) v).1, dTemp3H := (subLong (0, 0) v).2 }, ?_, ?_, rfl, ?_⟩
      · rw [if_pos (hneg.mpr hsign)]
        rfl
      · rw [if_pos hsign]
        exact hminus.scratch ⟨rfl, rfl, rfl, rfl, rfl, rfl⟩
      · rw [← habs, absLong, if_pos (hneg.mpr hsign)]
        rfl
    · refine ⟨{ m₁ with dTemp3 := v.1, dTemp3H := v.2, dSignCount := b }, ?_, ?_, rfl, ?_⟩
      · rw [if_neg fun h => hsign (hneg.mp h)]
      · rw [if_neg hsign, List.append_nil]
        exact hset
      · rw [← habs, absLong, if_neg fun h => hsign (hneg.mp h)]
  obtain ⟨hbase, htemp⟩ := hbase
  obtain ⟨k, m₃, hrun, hscratch, htemp', hk, htwo, hhigh⟩ := ctsMultiplySubtractor_powers fuel (b := b)
    (k := 0) (n := n) (m := { m₂ with dTemp1 := m₂.dSignCount, dTemp1H := 0 })
    htemp (by omega) hbase hb hb'
    (by rw [hbase, Nat.zero_add, Nat.pow_one]; simp [Long.ofNat]; omega)
    (by simp; omega) (.inl rfl) (fun _ => Nat.zero_le _) (by omega)
  have hpow := highest_power hb hb' hle hhigh
  have hklt : k ≤ 31 := by
    rcases hk with rfl | hk
    · exact Nat.zero_le _
    · have := (Nat.pow_le_pow_left hb k).trans (hk.trans hle)
      exact (Nat.pow_le_pow_iff_right (by decide)).mp this
  have hfirst : n / b ^ k ≤ 16 := by
    rcases hpow with h | ⟨rfl, hmax, rfl⟩
    · refine (Nat.div_lt_of_lt_mul ?_).le.trans hb'
      rwa [← Nat.pow_succ]
    · rw [hmax]
      decide
  have hpowlt : b ^ k < 2 ^ 32 := by
    rcases hk with rfl | hk
    · rw [Nat.pow_zero]
      decide
    · omega
  have hopen' : m.Written p (s ++ if signedLong v < 0 then [45] else []) t m₃ := by
    refine (hopen.scratch ?_).scratch hscratch
    exact ⟨rfl, rfl, rfl, rfl, rfl, rfl⟩
  have hspace := hroom k (hk.imp_right fun hk => ⟨hklt, hk⟩)
  obtain ⟨m', hrun', hwritten⟩ := ctsScaledUp_places fuel hopen'
    (by rw [List.length_append]; exact hspace) hp hb hb' htemp' (by omega) hpowlt hfirst (by omega)
  refine ⟨k, m', ?_, hwritten, hklt, hk, htwo, hpow⟩
  have hstart : ctsMultiplySubtractor fuel
      { m₂ with dTemp1 := m₂.dSignCount, dTemp1H := 0 } [(1, 0)] = .ok (powers b k, m₃) := hrun
  rw [hm₂, hstart]
  exact hrun'

/-- The sign and the digits that are written for a number. -/
theorem convertToString_places {v : Long} (hv : v.Valid) (hb : 2 ≤ b) (hb' : b ≤ 16)
    (hroom : 35 ≤ m.tempTop) (htop : m.tempTop < 0x10000) (hfuel : 33 ≤ fuel) :
    ∃ k m', convertToString fuel m v b = .ok m' ∧
      m.Written (m.tempTop - 35) ((if signedLong v < 0 then [45] else []) ++
        (Numeral.places b k (signedLong v).natAbs).map digitChar) 34 m' ∧
      k ≤ 31 ∧ (k = 0 ∨ b ^ k ≤ (signedLong v).natAbs) ∧ (b = 2 → k ≤ 30) ∧
      ((signedLong v).natAbs < b ^ (k + 1) ∨
        b = 2 ∧ (signedLong v).natAbs = 2 ^ 31 ∧ k = 30) := by
  have hplace : add16 m.tempTop (0xFFFF - 34 % 256) = m.tempTop - 35 := by
    unfold add16
    omega
  have halloc : m.Written (m.tempTop - 35) [] 34 (stringTempAllocate m 34) := by
    rw [← hplace]
    exact written_stringTempAllocate m 34 34
  have hsign : (if signedLong v < 0 then [45] else [] : List ℕ).length ≤ 1 := by
    split_ifs <;> simp
  exact convertToStringAlreadyAllocated_places halloc hv hb hb' (by omega)
    (fun k hk => by rw [List.length_nil]; omega) hfuel

/-- The string that was made is the canonical numeral of the number, and is read as that number. -/
def Machine.HasNumeral (m : Machine) (v : Long) (b : ℕ) : Prop :=
  let s := Numeral.canonicalSigned 45 digitChar b (signedLong v)
  s.length ≤ 34 ∧ m.bank.StringAt m.dStartTempString s ∧
    ∃ m', stringToInteger m m.dStartTempString b = .ok (v, m')

/-- The canonical numeral, place by place. -/
theorem canonicalSigned_eq_places {v : Long} (hb : 2 ≤ b)
    (hk : k = 0 ∨ b ^ k ≤ (signedLong v).natAbs) (h : (signedLong v).natAbs < b ^ (k + 1)) :
    Numeral.canonicalSigned 45 digitChar b (signedLong v) =
      (if signedLong v < 0 then [45] else []) ++
        (Numeral.places b k (signedLong v).natAbs).map digitChar := by
  rw [Numeral.canonicalSigned, Numeral.canonical_eq_places hb h hk]
  split_ifs <;> rfl

/-- The least number has 32 binary digits. -/
theorem length_canonicalSigned_least :
    (Numeral.canonicalSigned 45 digitChar 2 (-2 ^ 31)).length = 33 := by
  have h : Numeral.canonical digitChar 2 (2 ^ 31) = (Numeral.places 2 31 (2 ^ 31)).map digitChar :=
    Numeral.canonical_eq_places (Nat.le_refl 2) (by decide) (.inr (Nat.le_refl _))
  rw [Numeral.canonicalSigned, if_pos (by decide), show (-2 ^ 31 : ℤ).natAbs = 2 ^ 31 from rfl, h,
    List.length_cons, List.length_map, Numeral.length_places]

/-- A canonical numeral is read back. -/
theorem stringToInteger_canonicalSigned {v : Long} {a : ℕ} (hv : v.Valid) (hb : 2 ≤ b)
    (hb' : b ≤ 16)
    (hs : m.bank.StringAt a (Numeral.canonicalSigned 45 digitChar b (signedLong v)))
    (ha : a + (Numeral.canonicalSigned 45 digitChar b (signedLong v)).length < 0x10000) :
    ∃ m', stringToInteger m a b = .ok (v, m') := by
  have h := stringToInteger_reads hs ha hb'
  rw [Numeral.signed_canonicalSigned hb (fun d hd => stiDigit_digitChar hb' hd)
    fun d _ => digitChar_ne_minus] at h
  obtain ⟨v', m', hrun, hv', hval⟩ := h
  have hlt := hv.toNat_lt
  have hlt' := hv'.toNat_lt
  have heq : v' = v := by
    refine Long.toNat_inj hv' hv ?_
    rw [signedLong_eq hv] at hval
    split_ifs at hval <;> omega
  exact ⟨m', heq ▸ hrun⟩

/-- **`str$(` writes the canonical numeral**, which `val(` reads back, except for the least number in
base 2: the powers of two stop at `2 ^ 30`, so its first digit is a `2`. Only the 35 bytes of the
string are written. -/
theorem str_numeral (m : Machine) (fuel : ℕ) {v : Long} {b : ℕ} (hv : v.Valid) (hb : 2 ≤ b)
    (hb' : b ≤ 16) (hroom : 35 ≤ m.tempTop) (htop : m.tempTop < 0x10000) (hfuel : 33 ≤ fuel) :
    ∃ m', convertToString fuel m v b = .ok m' ∧
      Memory.EqOff (m.tempTop - 35) m.tempTop m.bank m'.bank ∧
      (m'.HasNumeral v b ↔ ¬ (signedLong v = -2 ^ 31 ∧ b = 2)) := by
  obtain ⟨k, m', hrun, hwritten, hklt, hk, htwo, hhigh⟩ :=
    convertToString_places hv hb hb' hroom htop hfuel
  have hrange := signedLong_range hv
  have hstart : m'.dStartTempString = m.tempTop - 35 := hwritten.start
  have hlen : ((if signedLong v < 0 then [45] else []) ++
      (Numeral.places b k (signedLong v).natAbs).map digitChar).length =
        (if signedLong v < 0 then 1 else 0) + (k + 1) := by
    rw [List.length_append, List.length_map, Numeral.length_places]
    split_ifs <;> rfl
  refine ⟨m', hrun, hwritten.bank.mono (Nat.le_refl _) (by omega), ?_, ?_⟩
  · -- the least number in base 2 gets one digit too few
    rintro ⟨-, hstring, -⟩ ⟨hmin, rfl⟩
    have hk30 : k = 30 := by
      rcases hhigh with h | ⟨-, -, h⟩
      · rw [hmin] at h
        have hle : 2 ^ (k + 1) ≤ 2 ^ 31 :=
          Nat.pow_le_pow_right (by decide) (Nat.succ_le_succ (htwo rfl))
        exact absurd h (by rw [Nat.not_lt]; exact hle)
      · exact h
    have h₁ := hstring.1
    have h₂ := hwritten.length
    rw [hlen, hmin, hk30, if_pos (by decide)] at h₂
    rw [hstart, hmin, length_canonicalSigned_least, h₂] at h₁
    exact absurd h₁ (by decide)
  · intro hne
    have hlt : (signedLong v).natAbs < b ^ (k + 1) := by
      rcases hhigh with h | ⟨hbase, hmax, -⟩
      · exact h
      · exact absurd ⟨by omega, hbase⟩ hne
    rw [← canonicalSigned_eq_places hb hk hlt] at hlen hwritten
    have hshort : (Numeral.canonicalSigned 45 digitChar b (signedLong v)).length ≤ 33 := by
      rw [hlen]
      split_ifs <;> omega
    have hstring := hwritten.stringAt (by omega)
    rw [← hstart] at hstring
    exact ⟨by omega, hstring, stringToInteger_canonicalSigned hv hb hb' hstring (by omega)⟩

/-- A machine whose temporary strings end at `0x6000`. -/
def withTempTop : Machine := { (default : Machine) with dTempStringPointer := 0x6000 }

/-- The number 255 in hexadecimal. -/
theorem str_numeral_hexadecimal : ∃ m', convertToString 33 withTempTop (255, 0) 16 = .ok m' ∧
    m'.HasNumeral (255, 0) 16 := by
  obtain ⟨m', hrun, -, h⟩ := str_numeral withTempTop 33 (v := (255, 0)) (b := 16)
    ⟨by decide, by decide⟩ (by decide) (by decide) (by decide) (by decide) (by decide)
  exact ⟨m', hrun, h.mpr (by decide)⟩

/-- The least number in base 2 is written as `-2` and thirty zeros. -/
theorem str_numeral_least : ∃ m', convertToString 33 withTempTop (0, 0x8000) 2 = .ok m' ∧
    m'.bank.StringAt m'.dStartTempString ([45, 50] ++ List.replicate 30 48) ∧
    ¬ m'.HasNumeral (0, 0x8000) 2 := by
  obtain ⟨m', hrun, hstring⟩ := Except.exists_of_check
    (r := convertToString 33 withTempTop (0, 0x8000) 2)
    (P := fun m' => m'.bank.StringAt m'.dStartTempString ([45, 50] ++ List.replicate 30 48))
    (by decide +kernel)
  refine ⟨m', hrun, hstring, ?_⟩
  rintro ⟨-, h, -⟩
  have hlen := h.1
  rw [show signedLong (0, 0x8000) = -2 ^ 31 by decide, length_canonicalSigned_least, hstring.1]
    at hlen
  exact absurd hlen (by decide)

end

end Basic65816
