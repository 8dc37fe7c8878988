import Basic65816.Expression.Frame
import Basic65816.Machine.Expression

/-!
# Open temporary strings

While a temporary string is made, its length byte and the bytes behind it are written, and no others.
The functions find out in different ways how many characters they write; here the number is a
parameter.

## Main definitions

* `Machine.Open`: a string is open, and only the bytes of its place have been written

## Main results

* `open_stringTempAllocate`, `open_stringWriteCharacter`: opening and appending
* `open_convertToString`: a number never takes more than the 34 bytes that are allocated for it
-/

namespace Basic65816

/-- The string at `p` is open and has `n` characters; since the state `m`, only the `t` bytes behind
its length byte have been written. -/
structure Machine.Open (m : Machine) (p n t : ℕ) (m' : Machine) : Prop where
  base : m'.dBaseAddress = m.dBaseAddress
  high : m'.dHighAddress = m.dHighAddress
  pointer : m'.dTempStringPointer = p
  start : m'.dStartTempString = p
  current : m'.dCurrentTempString = (p + 1 + n) % 0x10000
  length : m'.bank.byte p = n % 256
  bank : Memory.EqOff p (p + t + 1) m.bank m'.bank

section

variable {m m₁ m₂ : Machine} {p n t k : ℕ}

/-- What a string does not depend on may change. -/
theorem Machine.Open.same (h : m.Open p n t m₁) (hbase : m₂.dBaseAddress = m₁.dBaseAddress)
    (hhigh : m₂.dHighAddress = m₁.dHighAddress)
    (hptr : m₂.dTempStringPointer = m₁.dTempStringPointer)
    (hstart : m₂.dStartTempString = m₁.dStartTempString)
    (hcur : m₂.dCurrentTempString = m₁.dCurrentTempString) (hbank : m₂.bank = m₁.bank) :
    m.Open p n t m₂ where
  base := hbase.trans h.base
  high := hhigh.trans h.high
  pointer := hptr.trans h.pointer
  start := hstart.trans h.start
  current := hcur.trans h.current
  length := by rw [hbank, h.length]
  bank := hbank ▸ h.bank

/-- `StringTempAllocate` opens a string without characters. -/
theorem open_stringTempAllocate (m : Machine) (a t : ℕ) :
    m.Open (add16 m.tempTop (0xFFFF - a % 256)) 0 t (stringTempAllocate m a) where
  base := rfl
  high := rfl
  pointer := rfl
  start := rfl
  current := rfl
  length := Memory.byte_setByte _ _ _
  bank := (Memory.EqOff.refl _ _ _).setByte (Nat.le_refl _) (by omega)

/-- `StringWriteCharacter` appends a character, where there is room for it. -/
theorem open_stringWriteCharacter (h : m.Open p n t m₁) (hn : n < t) (ht : p + t < 0x10000)
    (c : ℕ) : m.Open p (n + 1) t (stringWriteCharacter m₁ c) := by
  have hcur : m₁.dCurrentTempString = p + 1 + n := by
    rw [h.current, Nat.mod_eq_of_lt (by omega)]
  have hlen : (m₁.bank.setByte m₁.dCurrentTempString c).byte p = n % 256 := by
    rw [Memory.byte_setByte_of_ne (by omega), h.length]
  refine ⟨h.base, h.high, h.pointer, h.start, ?_, ?_, ?_⟩
  · change add16 m₁.dCurrentTempString 1 = _
    rw [hcur]
    rfl
  · change ((m₁.bank.setByte m₁.dCurrentTempString c).setByte m₁.dStartTempString
      ((m₁.bank.setByte m₁.dCurrentTempString c).byte m₁.dStartTempString + 1)).byte p = _
    rw [h.start, hlen, Memory.byte_setByte]
    omega
  · have hchar := h.bank.setByte (a := m₁.dCurrentTempString) (v := c) (by omega) (by omega)
    refine hchar.setByte ?_ ?_
    · rw [h.start]
    · rw [h.start]
      omega

/-- `CTSOutputA` appends a character and a zero. -/
theorem open_ctsOutputA (h : m.Open p n t m₁) (hn : n + 1 < t) (ht : p + t < 0x10000)
    (c : ℕ) : m.Open p (n + 1) t (ctsOutputA m₁ c) := by
  have hcur : m₁.dCurrentTempString = p + 1 + n := by
    rw [h.current, Nat.mod_eq_of_lt (by omega)]
  have hlen : (m₁.bank.setWord m₁.dCurrentTempString c).byte p = n % 256 := by
    rw [Memory.byte_setWord_of_ne (by omega) (by omega), h.length]
  refine ⟨h.base, h.high, h.pointer, h.start, ?_, ?_, ?_⟩
  · change add16 m₁.dCurrentTempString 1 = _
    rw [hcur]
    rfl
  · change ((m₁.bank.setWord m₁.dCurrentTempString c).setByte m₁.dStartTempString
      ((m₁.bank.setWord m₁.dCurrentTempString c).byte m₁.dStartTempString + 1)).byte p = _
    rw [h.start, hlen, Memory.byte_setByte]
    omega
  · have hchar := h.bank.setWord (a := m₁.dCurrentTempString) (v := c) (by omega) (by omega)
    refine hchar.setByte ?_ ?_
    · rw [h.start]
    · rw [h.start]
      omega

/-! ## Copying -/

/-- `spc(`: the same character again and again. -/
theorem open_iterate (h : m.Open p n t m₁) (k c : ℕ) (hn : n + k ≤ t) (ht : p + t < 0x10000) :
    m.Open p (n + k) t ((fun m => stringWriteCharacter m c)^[k] m₁) := by
  induction k generalizing n m₁ with
  | zero => exact h
  | succ k ih =>
    have := ih (open_stringWriteCharacter h (by omega) ht c) (by omega)
    rwa [show n + 1 + k = n + (k + 1) by omega] at this

theorem open_sccCopy (h : m.Open p n t m₁) (k y : ℕ) (hn : n + k ≤ t) (ht : p + t < 0x10000) :
    m.Open p (n + k) t (sccCopy k m₁ y) := by
  induction k generalizing n m₁ y with
  | zero => exact h
  | succ k ih =>
    rw [show n + (k + 1) = n + 1 + k by omega]
    exact ih (open_stringWriteCharacter h (by omega) ht _) (add16 y 1) (by omega)

theorem open_fnd1Loop (h : m.Open p n t m₁) (k y : ℕ) (hn : n + k ≤ t) (ht : p + t < 0x10000) :
    m.Open p (n + k) t (fnd1Loop k m₁ y) := by
  induction k generalizing n m₁ y with
  | zero => exact h.same rfl rfl rfl rfl rfl rfl
  | succ k ih =>
    rw [show n + (k + 1) = n + 1 + k by omega]
    exact ih (open_stringWriteCharacter h (by omega) ht _) (add16 y 1) (by omega)

/-- The case conversion works on the characters of the string. -/
theorem open_caseLoop (h : m.Open p n t m₁) (conv : ℕ → ℕ) (k y : ℕ) (hy : p ≤ y)
    (hk : y + k ≤ p + t) (ht : p + t < 0x10000) :
    m.Open p n t (caseLoop conv k m₁ y) := by
  induction k generalizing m₁ y with
  | zero => exact h
  | succ k ih =>
    rw [caseLoop, add16_eq (by omega)]
    refine ih ?_ (y + 1) (by omega) (by omega)
    refine ⟨h.base, h.high, h.pointer, h.start, h.current, ?_, ?_⟩
    · exact (Memory.byte_setByte_of_ne (by omega)).trans h.length
    · exact h.bank.setByte (by omega) (by omega)

end

/-! ## Numbers

The subtractors of `str$(` at least double from one to the next, and the multiplication tells when
one no longer fits into a long word, so there are at most 32 of them.
-/

/-- The number a long word stands for. -/
def Long.toNat (a : Long) : ℕ := a.1 + 0x10000 * a.2

theorem Long.Valid.toNat_lt {a : Long} (h : a.Valid) : a.toNat < 2 ^ 32 := by
  obtain ⟨h₁, h₂⟩ := h
  unfold Long.toNat
  omega

/-- The count of carries after a round of `_MTLoop`. -/
def mtCarries (x : ℕ) (t d : Long) (y : ℕ) : ℕ :=
  let y := if x % 2 = 1 ∧ 0x10000 ≤ t.2 + d.2 + (t.1 + d.1) / 0x10000 then add16 y 1 else y
  if 0x8000 ≤ d.2 then add16 y 1 else y

/-- The sum after a round of `_MTLoop`. -/
def mtSum (x : ℕ) (t d : Long) : Long := if x % 2 = 0 then t else addLong t d

theorem mtLoop_eq (x : ℕ) (t d : Long) (y : ℕ) : mtLoop x t d y =
    if x / 2 = 0 then (mtSum x t d, aslLong d, mtCarries x t d y)
    else mtLoop (x / 2) (mtSum x t d) (aslLong d) (mtCarries x t d y) := by
  rw [mtLoop]
  rfl

theorem mtCarries_le (x : ℕ) (t d : Long) {y : ℕ} (hy : y + 2 < 0x10000) :
    mtCarries x t d y ≤ y + 2 ∧ (mtCarries x t d y = 0 → y = 0) := by
  unfold mtCarries add16
  dsimp only
  split <;> split <;> omega

/-- A round without carries is exact. -/
theorem mtSum_exact {x y : ℕ} {t d : Long} (ht : t.Valid) (hd : d.Valid) (hy : y + 2 < 0x10000)
    (h : mtCarries x t d y = 0) : (mtSum x t d).Valid ∧
      (mtSum x t d).toNat = t.toNat + x % 2 * d.toNat ∧ (aslLong d).toNat = 2 * d.toNat := by
  obtain ⟨ht₁, ht₂⟩ := ht
  obtain ⟨hd₁, hd₂⟩ := hd
  unfold mtCarries add16 at h
  dsimp only at h
  have hshift : d.2 < 0x8000 := by
    by_contra hge
    rw [if_pos (by omega)] at h
    split at h <;> omega
  rw [if_neg (by omega)] at h
  have hasl : (aslLong d).toNat = 2 * d.toNat := by
    simp only [aslLong, doubleLong, Long.toNat]
    omega
  rcases Nat.mod_two_eq_zero_or_one x with hx | hx
  · rw [mtSum, if_pos hx, hx]
    exact ⟨⟨ht₁, ht₂⟩, by omega, hasl⟩
  · have hsum : t.2 + d.2 + (t.1 + d.1) / 0x10000 < 0x10000 := by
      by_contra hge
      rw [if_pos ⟨hx, by omega⟩] at h
      omega
    rw [mtSum, if_neg (by omega), hx]
    refine ⟨valid_addLong t d, ?_, hasl⟩
    simp only [addLong, Long.toNat]
    omega

/-- A multiplication without carries is exact. By induction on the rounds; the count of carries does
not wrap. -/
theorem mtLoop_exact {x y : ℕ} {t d : Long} (ht : t.Valid) (hd : d.Valid)
    (hy : y + 2 * x + 2 < 0x10000) (h : (mtLoop x t d y).2.2 = 0) :
    y = 0 ∧ (mtLoop x t d y).1.Valid ∧
      (mtLoop x t d y).1.toNat = t.toNat + x * d.toNat := by
  induction x using Nat.strong_induction_on generalizing t d y with
  | _ x ih =>
    have hle := mtCarries_le x t d (y := y) (by omega)
    rw [mtLoop_eq] at h ⊢
    rcases Nat.eq_zero_or_pos (x / 2) with hx | hx
    · rw [if_pos hx] at h ⊢
      obtain ⟨hv, hs, -⟩ := mtSum_exact ht hd (by omega) h
      rw [show x % 2 = x by omega] at hs
      exact ⟨hle.2 h, hv, hs⟩
    · rw [if_neg (by omega)] at h ⊢
      have hvalid : (mtSum x t d).Valid := by
        unfold mtSum
        split
        · exact ht
        · exact valid_addLong t d
      obtain ⟨hzero, hv', hs'⟩ := ih (x / 2) (by omega) hvalid (valid_aslLong d) (by omega) h
      obtain ⟨-, hs, hasl⟩ := mtSum_exact ht hd (by omega) hzero
      refine ⟨hle.2 hzero, hv', ?_⟩
      rw [hs', hs, hasl]
      conv_rhs => rw [← Nat.mod_add_div x 2]
      ring

/-- `MultiplyTemp1ByA` is exact while the carry is clear. -/
theorem multiplyTemp1ByA_exact {m : Machine} {a : ℕ} (hv : Long.Valid (m.dTemp1, m.dTemp1H))
    (ha : a < 0x7000) (h : (multiplyTemp1ByA m a).1 = false) :
    Long.Valid ((multiplyTemp1ByA m a).2.dTemp1, (multiplyTemp1ByA m a).2.dTemp1H) ∧
      Long.toNat ((multiplyTemp1ByA m a).2.dTemp1, (multiplyTemp1ByA m a).2.dTemp1H) =
        a * Long.toNat (m.dTemp1, m.dTemp1H) := by
  have hzero : (mtLoop a (0, 0) (m.dTemp1, m.dTemp1H) 0).2.2 = 0 := by
    simpa [multiplyTemp1ByA] using h
  obtain ⟨-, hv', hs⟩ := mtLoop_exact (x := a) valid_zero hv (by omega) hzero
  refine ⟨hv', hs.trans ?_⟩
  simp [Long.toNat]

/-- Only scratch registers have changed. -/
structure Machine.Scratch (m m' : Machine) : Prop where
  base : m'.dBaseAddress = m.dBaseAddress
  high : m'.dHighAddress = m.dHighAddress
  pointer : m'.dTempStringPointer = m.dTempStringPointer
  start : m'.dStartTempString = m.dStartTempString
  current : m'.dCurrentTempString = m.dCurrentTempString
  bank : m'.bank = m.bank

section

variable {m m₁ m₂ : Machine} {p n t fuel : ℕ}

theorem Machine.Scratch.trans (h : m.Scratch m₁) (h' : m₁.Scratch m₂) : m.Scratch m₂ :=
  ⟨h'.base.trans h.base, h'.high.trans h.high, h'.pointer.trans h.pointer, h'.start.trans h.start,
    h'.current.trans h.current, h'.bank.trans h.bank⟩

theorem Machine.Open.scratch (h : m.Open p n t m₁) (h' : m₁.Scratch m₂) : m.Open p n t m₂ :=
  h.same h'.base h'.high h'.pointer h'.start h'.current h'.bank

/-- **There are at most 32 subtractors.** -/
theorem ctsMultiplySubtractor_length (fuel : ℕ) (stack : List Long) (hbase : 2 ≤ m.dSignCount)
    (hlt : m.dSignCount < 0x7000) (hv : Long.Valid (m.dTemp1, m.dTemp1H))
    (h : 2 ^ stack.length ≤ Long.toNat (m.dTemp1, m.dTemp1H)) :
    Outcome (fun r => r.1.length ≤ 32 ∧ m.Scratch r.2) (fun e => e = .outOfFuel)
      (ctsMultiplySubtractor fuel m stack) (ctsMultiplySubtractor fuel m stack) := by
  induction fuel generalizing m stack with
  | zero => exact .error rfl
  | succ fuel ih =>
    have hlen : stack.length < 32 :=
      (Nat.pow_lt_pow_iff_right (by decide)).mp (h.trans_lt hv.toNat_lt)
    refine .ite (fun _ => .ok ⟨hlen.le, ⟨rfl, rfl, rfl, rfl, rfl, rfl⟩⟩) fun _ => ?_
    have hscratch : m.Scratch (multiplyTemp1ByA m m.dSignCount).2 := ⟨rfl, rfl, rfl, rfl, rfl, rfl⟩
    refine .ite (fun _ => .ok ⟨hlen, hscratch⟩) fun hcarry => ?_
    obtain ⟨hv', hs⟩ := multiplyTemp1ByA_exact hv hlt (Bool.eq_false_iff.mpr hcarry)
    have hgrow : 2 ^ ((m.dTemp1, m.dTemp1H) :: stack).length ≤
        Long.toNat ((multiplyTemp1ByA m m.dSignCount).2.dTemp1,
          (multiplyTemp1ByA m m.dSignCount).2.dTemp1H) := by
      -- the base is at least two
      rw [hs, List.length_cons, Nat.pow_succ, Nat.mul_comm]
      exact Nat.mul_le_mul hbase h
    exact (ih (m := (multiplyTemp1ByA m m.dSignCount).2) _ hbase hlt hv' hgrow).mono
      fun r hr => ⟨hr.1, hscratch.trans hr.2⟩

theorem ctsSubLoop_scratch (k : ℕ) :
    Outcome (fun r => m.Scratch r.2) (fun e => e = .outOfFuel) (ctsSubLoop fuel m k)
      (ctsSubLoop fuel m k) := by
  induction fuel generalizing m k with
  | zero => exact .error rfl
  | succ fuel ih =>
    refine .ite (fun _ => .ok ⟨rfl, rfl, rfl, rfl, rfl, rfl⟩) fun _ => ?_
    refine (ih _).mono fun r hr => Machine.Scratch.trans ?_ hr
    exact ⟨rfl, rfl, rfl, rfl, rfl, rfl⟩

/-- One digit for every subtractor. -/
theorem open_ctsScaledUp (h : m.Open p n t m₁) (stack : List Long) (hn : n + stack.length < t)
    (ht : p + t < 0x10000) :
    Outcome (fun m' => ∃ k, m.Open p k t m') (fun e => e = .outOfFuel ∨ e = .leaves)
      (ctsScaledUp fuel m₁ stack) (ctsScaledUp fuel m₁ stack) := by
  induction stack generalizing n m₁ with
  | nil => exact .error (.inr rfl)
  | cons d stack ih =>
    rw [List.length_cons] at hn
    refine .ite (fun _ => .ok ⟨n + 1, open_ctsOutputA h (by omega) ht _⟩) fun _ => ?_
    refine ((ctsSubLoop_scratch 0).imp (fun _ h => h) fun _ he => .inl he).bind ?_
    rintro ⟨k, m₂⟩ h₂
    have hscratch : m₁.Scratch { m₁ with dTemp2 := d.1, dTemp2H := d.2 } :=
      ⟨rfl, rfl, rfl, rfl, rfl, rfl⟩
    have hopen : m.Open p n t m₂ := h.scratch (hscratch.trans h₂)
    exact ih (open_ctsOutputA hopen (by omega) ht _) (by omega)

/-- The digits, behind the sign. -/
theorem open_digits (h : m.Open p n 34 m₁) (hn : n ≤ 1) (hb : 2 ≤ m₁.dSignCount)
    (hlt : m₁.dSignCount < 0x7000) (ht : p + 34 < 0x10000) :
    Outcome (fun m' => ∃ k, m.Open p k 34 m') (fun e => e = .outOfFuel ∨ e = .leaves)
      (do
        let (stack, m) ← ctsMultiplySubtractor fuel
          { m₁ with dTemp1 := m₁.dSignCount, dTemp1H := 0 } [(1, 0)]
        ctsScaledUp fuel m stack)
      (do
        let (stack, m) ← ctsMultiplySubtractor fuel
          { m₁ with dTemp1 := m₁.dSignCount, dTemp1H := 0 } [(1, 0)]
        ctsScaledUp fuel m stack) := by
  have hscratch : m₁.Scratch { m₁ with dTemp1 := m₁.dSignCount, dTemp1H := 0 } :=
    ⟨rfl, rfl, rfl, rfl, rfl, rfl⟩
  have hvalid : Long.Valid (m₁.dSignCount, 0) := ⟨hlt.trans (by decide), Nat.zero_lt_succ _⟩
  have hsub := ctsMultiplySubtractor_length (m := { m₁ with dTemp1 := m₁.dSignCount, dTemp1H := 0 })
    fuel [(1, 0)] hb hlt hvalid (by simpa [Long.toNat] using hb)
  refine (hsub.imp (fun _ h => h) fun _ he => .inl he).bind ?_
  rintro ⟨stack, m₂⟩ ⟨hlen, h₂⟩
  dsimp only at hlen
  exact open_ctsScaledUp (h.scratch (hscratch.trans h₂)) stack (by omega) ht

/-- **A number takes at most 33 characters**, and the zero behind them: all that is allocated. -/
theorem open_convertToStringAlreadyAllocated (h : m.Open p 0 34 m₁) (v : Long) {b : ℕ} (hb : 2 ≤ b)
    (hlt : b < 0x7000) (ht : p + 34 < 0x10000) :
    Outcome (fun m' => ∃ k, m.Open p k 34 m') (fun e => e = .outOfFuel ∨ e = .leaves)
      (convertToStringAlreadyAllocated fuel m₁ v b)
      (convertToStringAlreadyAllocated fuel m₁ v b) := by
  have h₂ : m.Open p 0 34 { m₁ with dTemp3 := v.1, dTemp3H := v.2, dSignCount := b } :=
    h.scratch ⟨rfl, rfl, rfl, rfl, rfl, rfl⟩
  unfold convertToStringAlreadyAllocated
  dsimp only
  split
  · -- the sign is a character of its own
    have h₃ := open_ctsOutputA h₂ (by decide) ht 45
    exact open_digits (h₃.scratch ⟨rfl, rfl, rfl, rfl, rfl, rfl⟩) (Nat.le_refl 1) hb hlt ht
  · exact open_digits h₂ (Nat.zero_le 1) hb hlt ht

end

end Basic65816
