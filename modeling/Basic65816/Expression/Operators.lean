import Basic65816.Expression.Slots
import Basic65816.Expression.Syntax

/-!
# Operators on integers

On two integers an operator routine computes a function of the two values, leaves it in the left
slot and keeps everything outside the two slots; division and modulus by zero end in an error.

## Main definitions

* `BinaryOperator.apply`: the function an operator routine computes
* `Machine.Delivered`: a value has been delivered in the slot at `x`

## Main results

* `BinaryOperator.routine_integer`: the routines compute `BinaryOperator.apply`
-/

namespace Basic65816

/-- The magnitude of a signed long word. -/
def absLong (v : Long) : Long := if 0x8000 ≤ v.2 then negLong v else v

/-- The quotient of `Binary_Divide`, and the remainder it leaves in `DTemp1`. -/
def divideLong (l r : Long) : Long × Long :=
  let s := binaryDivideLoop (absLong r) 32 (absLong l, (0, 0), 0)
  (if (0x8000 ≤ l.2 ↔ 0x8000 ≤ r.2) then s.1 else negLong s.1, s.2.1)

/-- The value an operator routine delivers for two integers, if it delivers one. -/
def BinaryOperator.apply : BinaryOperator → Long → Long → Option Long
  | .and, l, r => some (l.1 &&& r.1, l.2 &&& r.2)
  | .or, l, r => some (l.1 ||| r.1, l.2 ||| r.2)
  | .xor, l, r => some (l.1 ^^^ r.1, l.2 ^^^ r.2)
  | .less, l, r => some (compareLong (sbcNegative 0 l r))
  | .greater, l, r => some (compareLong (!sbcNegative 1 l r))
  | .equals, l, r => some (compareLong (l = r))
  | .lessEqual, l, r => some (compareLong (sbcNegative 1 l r))
  | .greaterEqual, l, r => some (compareLong (!sbcNegative 0 l r))
  | .notEquals, l, r => some (compareLong (l ≠ r))
  | .add, l, r => some (addLong l r)
  | .subtract, l, r => some (subLong l r)
  | .multiply, l, r => some (multiplyLoop l (0, 0) r).1
  | .divide, l, r => if r = (0, 0) then none else some (divideLong l r).1
  | .modulus, l, r => if r = (0, 0) then none else some (divideLong l r).2
  | .shiftRight, l, r => some (lsrLong^[r.1 % 64] l)
  | .shiftLeft, l, r => some (aslLong^[r.1 % 64] l)

/-- An operator fails on a zero divisor only. -/
theorem BinaryOperator.apply_eq_none_iff {op : BinaryOperator} {l r : Long} :
    op.apply l r = none ↔ (op = .divide ∨ op = .modulus) ∧ r = (0, 0) := by
  cases op <;> simp [apply]

theorem valid_absLong {v : Long} (h : v.Valid) : (absLong v).Valid := by
  unfold absLong
  split
  · exact valid_subLong _ _
  · exact h

theorem valid_divideLong {l r : Long} (h : l.Valid) :
    (divideLong l r).1.Valid ∧ (divideLong l r).2.Valid := by
  obtain ⟨hq, ha⟩ := valid_binaryDivideLoop (d := absLong r) 32
    (s := (absLong l, (0, 0), 0)) (valid_absLong h) valid_zero
  refine ⟨?_, ha⟩
  change Long.Valid (if _ then _ else _)
  split
  · exact hq
  · exact valid_subLong _ _

/-- What is in the third place when the division begins does not matter. -/
theorem binaryDivideLoop_temp (d : Long) (n : ℕ) (q a : Long) (t t' : ℕ) :
    (binaryDivideLoop d n (q, a, t)).1 = (binaryDivideLoop d n (q, a, t')).1 ∧
      (binaryDivideLoop d n (q, a, t)).2.1 = (binaryDivideLoop d n (q, a, t')).2.1 := by
  cases n <;> exact ⟨rfl, rfl⟩

/-- The value `v` has been delivered in the slot at `x`, with the type that is there. -/
structure Machine.Delivered (x : ℕ) (v : Long) (m m' : Machine) : Prop extends m.Preserved x m' where
  value : m'.value x = v
  precType : m'.dp (x + exsPrecType) = m.dp (x + exsPrecType)
  code : m'.dCodePtr = m.dCodePtr

section

variable {m : Machine} {x : ℕ} {v : Long}

theorem delivered_setValue (h : v.Valid) : m.Delivered x v (m.setValue x v) where
  toPreserved := Machine.preserved_setValue (Nat.le_refl x)
  value := Machine.value_setValue h
  precType := Machine.precType_setValue
  code := rfl

theorem Machine.Delivered.isString {m' : Machine} (h : m.Delivered x v m') :
    m'.isString x = m.isString x := by
  unfold Machine.isString
  rw [h.precType]

theorem checkBothNumeric_integer (h : m.isString x = false) (h' : m.isString (x + exsNext) = false) :
    checkBothNumeric m x = .ok m := by
  unfold checkBothNumeric
  rw [h, h']
  rfl

theorem bitwise_integer {f : ℕ → ℕ → ℕ} (hf : ∀ a b, a < 0x10000 → b < 0x10000 → f a b < 0x10000)
    (h : m.isString x = false) (h' : m.isString (x + exsNext) = false) :
    ∃ m', bitwise f m x = .ok m' ∧ m.Delivered x (f (m.value x).1 (m.value (x + exsNext)).1,
      f (m.value x).2 (m.value (x + exsNext)).2) m' := by
  have hl := m.valid_value x
  have hr := m.valid_value (x + exsNext)
  refine ⟨_, ?_, delivered_setValue ⟨hf _ _ hl.1 hr.1, hf _ _ hl.2 hr.2⟩⟩
  rw [bitwise, checkBothNumeric_integer h h']
  rfl

theorem compare_integer {integer : Long → Long → Bool} {string : ℕ → Bool}
    (h : m.isString x = false) (h' : m.isString (x + exsNext) = false) :
    ∃ m', compare integer string m x = .ok m' ∧
      m.Delivered x (compareLong (integer (m.value x) (m.value (x + exsNext)))) m' := by
  refine ⟨_, ?_, delivered_setValue (valid_compareLong _)⟩
  rw [compare, compareTypeCheck, if_neg (by rw [h, h']; simp), if_neg (by rw [h]; simp)]
  rfl

/-- Temporaries do not count. -/
theorem Machine.Delivered.temps {m' : Machine} {n b c d : ℕ} (h : m.Delivered x v m') :
    m.Delivered x v { m' with dSignCount := n, dTemp1 := b, dTemp1H := c, dTemp2 := d } :=
  ⟨h.toPreserved.temps, h.value, h.precType, h.code⟩

theorem binaryMultiply_integer (h : m.isString x = false) (h' : m.isString (x + exsNext) = false) :
    ∃ m', binaryMultiply m x = .ok m' ∧
      m.Delivered x (multiplyLoop (m.value x) (0, 0) (m.value (x + exsNext))).1 m' := by
  obtain ⟨s, hs⟩ : ∃ s, s = multiplyLoop (m.value x) (0, 0) (m.value (x + exsNext)) := ⟨_, rfl⟩
  have hv := valid_multiplyLoop (t := m.value x) valid_zero (m.valid_value (x + exsNext))
  have hx : x + 4 ≤ x + exsNext := by unfold exsNext; omega
  rw [← hs] at hv ⊢
  have hd := (delivered_setValue (m := m) (x := x) hv.1).temps (n := m.dSignCount)
    (b := 0) (c := 0) (d := m.dTemp2)
  refine ⟨({ m with dTemp1 := 0, dTemp1H := 0 }.setValue x s.1).setValue (x + exsNext) s.2, ?_,
    hd.toPreserved.trans (Machine.preserved_setValue (by omega)), ?_, ?_, rfl⟩
  · rw [binaryMultiply, checkBothNumeric_integer h h', hs]
    rfl
  · rw [Machine.value_setValue_of_disjoint (.inl hx)]
    exact hd.value
  · rw [Machine.precType_setValue_next]
    exact hd.precType

end

/-! ## Division -/

section

variable {m : Machine} {x : ℕ}

theorem delivered_binaryDivNegate (m : Machine) (x : ℕ) :
    m.Delivered x (negLong (m.value x)) (binaryDivNegate m x) :=
  (delivered_setValue (valid_subLong _ _)).temps

/-- The operand at `x` is negated when it is negative, and the sign count says so. -/
theorem binaryDivAbs_spec (m : Machine) (x : ℕ) (hc : m.dSignCount ≤ 1) :
    m.Delivered x (absLong (m.value x)) (binaryDivAbs m x) ∧
      (∀ b, b + 2 ≤ x ∨ x + 4 ≤ b → (binaryDivAbs m x).dp b = m.dp b) ∧
      (binaryDivAbs m x).dSignCount =
        m.dSignCount + if 0x8000 ≤ (m.value x).2 then 1 else 0 := by
  have heq : m.dp (x + exsValueH) = (m.value x).2 := rfl
  unfold binaryDivAbs absLong
  rw [heq]
  split
  · exact ⟨delivered_binaryDivNegate m x,
      fun b hb => Machine.dp_setValue_of_disjoint hb, add16_eq (by omega)⟩
  · exact ⟨⟨.refl, rfl, rfl, rfl⟩, fun _ _ => rfl, rfl⟩

/-- **Division** of integers. -/
theorem binaryDivide_integer (h : m.isString x = false) (h' : m.isString (x + exsNext) = false)
    (h₀ : m.value (x + exsNext) ≠ (0, 0)) :
    ∃ m', binaryDivide m x = .ok m' ∧
      m.Delivered x (divideLong (m.value x) (m.value (x + exsNext))).1 m' ∧
      (m'.dTemp1, m'.dTemp1H) = (divideLong (m.value x) (m.value (x + exsNext))).2 := by
  have hx : x + 4 ≤ x + exsNext := by unfold exsNext; omega
  have hprec : x + exsPrecType + 2 = x + exsNext := rfl
  obtain ⟨m₀, hm₀⟩ : ∃ m₀ : Machine, m₀ = { m with dTemp1 := 0, dTemp1H := 0, dSignCount := 0 } :=
    ⟨_, rfl⟩
  have hp₀ : m.Preserved x m₀ := hm₀ ▸ Machine.Preserved.refl.temps
  have hdp₀ : ∀ b, m₀.dp b = m.dp b := fun b => by rw [hm₀]; rfl
  have hval₀ : ∀ y, m₀.value y = m.value y := fun y => by rw [hm₀]; rfl
  have hs₀ : m₀.dSignCount = 0 := by rw [hm₀]
  -- the right operand, then the left one
  obtain ⟨⟨hp₁, hv₁, -, hc₁⟩, hdp₁, hs₁⟩ := binaryDivAbs_spec m₀ (x + exsNext) (by omega)
  obtain ⟨m₁, hm₁⟩ : ∃ m₁, m₁ = binaryDivAbs m₀ (x + exsNext) := ⟨_, rfl⟩
  rw [← hm₁] at hp₁ hv₁ hc₁ hdp₁ hs₁
  rw [hs₀, hval₀, Nat.zero_add] at hs₁
  obtain ⟨⟨hp₂, hv₂, ht₂, hc₂⟩, hdp₂, hs₂⟩ := binaryDivAbs_spec m₁ x (by rw [hs₁]; split <;> omega)
  obtain ⟨m₂, hm₂⟩ : ∃ m₂, m₂ = binaryDivAbs m₁ x := ⟨_, rfl⟩
  rw [← hm₂] at hp₂ hv₂ ht₂ hc₂ hdp₂ hs₂
  have hl₁ : m₁.value x = m.value x := by
    unfold Machine.value exsValueL exsValueH
    rw [hdp₁ _ (by omega), hdp₁ _ (by omega), hdp₀, hdp₀]
  have hr₂ : m₂.value (x + exsNext) = absLong (m.value (x + exsNext)) := by
    rw [← hval₀, ← hv₁]
    unfold Machine.value exsValueL exsValueH
    rw [hdp₂ _ (by omega), hdp₂ _ (by omega)]
  rw [hl₁] at hv₂
  rw [hs₁, hl₁] at hs₂
  -- the rounds
  obtain ⟨hsq, hsa⟩ := binaryDivideLoop_temp (absLong (m.value (x + exsNext))) 32
    (absLong (m.value x)) (0, 0) m₂.dTemp2 0
  obtain ⟨s, hs⟩ : ∃ s, s = binaryDivideLoop (absLong (m.value (x + exsNext))) 32
    (absLong (m.value x), (0, 0), m₂.dTemp2) := ⟨_, rfl⟩
  obtain ⟨hvq, -⟩ := valid_binaryDivideLoop (d := absLong (m.value (x + exsNext))) 32
    (s := (absLong (m.value x), (0, 0), 0)) (valid_absLong (m.valid_value x)) valid_zero
  rw [← hs] at hsq hsa
  rw [← hsq] at hvq
  obtain ⟨m₃, hm₃⟩ : ∃ m₃, m₃ = binaryDivideRounds m₂ x := ⟨_, rfl⟩
  have hround : m₂.Delivered x s.1 m₃ ∧ m₃.dSignCount = m₂.dSignCount ∧
      (m₃.dTemp1, m₃.dTemp1H) = s.2.1 := by
    rw [hm₃, binaryDivideRounds, hr₂, hv₂, ← hs]
    exact ⟨(delivered_setValue hvq).temps, rfl, rfl⟩
  obtain ⟨⟨hp₃, hv₃, ht₃, hc₃⟩, hs₃, ha₃⟩ := hround
  have hd₃ : m.Delivered x s.1 m₃ := by
    refine ⟨((hp₀.trans (hp₁.mono (by omega))).trans hp₂).trans hp₃, hv₃, ?_, ?_⟩
    · rw [ht₃, ht₂, hdp₁ _ (.inl (Nat.le_of_eq hprec)), hdp₀]
    · rw [hc₃, hc₂, hc₁, hm₀]
  refine ⟨binaryDivideExit m₃ x, ?_, ?_, ?_⟩
  · rw [binaryDivide, checkBothNumeric_integer h h', ok_bind, if_neg h₀, hm₃, hm₂, hm₁, hm₀]
  · unfold binaryDivideExit divideLong
    dsimp only
    rw [← hsq, hs₃, hs₂]
    have hneg : m.Delivered x (negLong s.1) (binaryDivNegate m₃ x) := by
      obtain ⟨hp, hv, ht, hc⟩ := delivered_binaryDivNegate m₃ x
      rw [hv₃] at hv
      exact ⟨hd₃.toPreserved.trans hp, hv, ht.trans hd₃.precType, hc.trans hd₃.code⟩
    by_cases h₁ : 0x8000 ≤ (m.value x).2 <;> by_cases h₂ : 0x8000 ≤ (m.value (x + exsNext)).2
    · simpa [h₁, h₂] using hd₃
    · simpa [h₁, h₂] using hneg
    · simpa [h₁, h₂] using hneg
    · simpa [h₁, h₂] using hd₃
  · have hexit : ((binaryDivideExit m₃ x).dTemp1, (binaryDivideExit m₃ x).dTemp1H) = s.2.1 := by
      rw [← ha₃]
      unfold binaryDivideExit
      split <;> rfl
    rw [hexit, hsa]
    rfl

theorem binaryModulus_integer (h : m.isString x = false) (h' : m.isString (x + exsNext) = false)
    (h₀ : m.value (x + exsNext) ≠ (0, 0)) :
    ∃ m', binaryModulus m x = .ok m' ∧
      m.Delivered x (divideLong (m.value x) (m.value (x + exsNext))).2 m' := by
  obtain ⟨m₁, hok, hd, ha⟩ := binaryDivide_integer h h' h₀
  have hv := (valid_divideLong (r := m.value (x + exsNext)) (m.valid_value x)).2
  obtain ⟨hp, hv, ht, hc⟩ := delivered_setValue (m := m₁) (x := x) hv
  refine ⟨m₁.setValue x (divideLong (m.value x) (m.value (x + exsNext))).2, ?_,
    hd.toPreserved.trans hp, hv, ht.trans hd.precType, hc.trans hd.code⟩
  rw [binaryModulus, hok, ok_bind, ha]

theorem binaryDivide_zero (h : m.isString x = false) (h' : m.isString (x + exsNext) = false)
    (h₀ : m.value (x + exsNext) = (0, 0)) : binaryDivide m x = fail m .divisionByZero := by
  rw [binaryDivide, checkBothNumeric_integer h h', ok_bind, if_pos h₀]

end

/-! ## The operators -/

section

variable {m : Machine} {x : ℕ} {op : BinaryOperator}

/-- **An operator on integers** delivers its value. -/
theorem BinaryOperator.routine_integer {v : Long} (h : m.isString x = false)
    (h' : m.isString (x + exsNext) = false)
    (hv : op.apply (m.value x) (m.value (x + exsNext)) = some v) :
    ∃ m', op.routine m x = .ok m' ∧ m.Delivered x v m' := by
  have hbits : ∀ f : ℕ → ℕ → ℕ, (∀ a b, a < 2 ^ 16 → b < 2 ^ 16 → f a b < 2 ^ 16) →
      ∃ m', bitwise f m x = .ok m' ∧ m.Delivered x (f (m.value x).1 (m.value (x + exsNext)).1,
        f (m.value x).2 (m.value (x + exsNext)).2) m' := fun f hf => bitwise_integer hf h h'
  have hcheck := checkBothNumeric_integer h h'
  have hval := m.valid_value x
  cases op
  case divide | modulus =>
    simp only [apply] at hv
    split at hv
    · cases hv
    · have h₀ : m.value (x + exsNext) ≠ (0, 0) := by assumption
      obtain rfl := Option.some.inj hv
      first
      | exact binaryModulus_integer h h' h₀
      | obtain ⟨m', hok, hd, -⟩ := binaryDivide_integer h h' h₀
        exact ⟨m', hok, hd⟩
  all_goals obtain rfl := Option.some.inj hv
  case and => exact hbits _ fun a b ha _ => Nat.and_lt_two_pow a (by assumption)
  case or => exact hbits _ fun a b ha hb => Nat.or_lt_two_pow ha hb
  case xor => exact hbits _ fun a b ha hb => Nat.xor_lt_two_pow ha hb
  case multiply => exact binaryMultiply_integer h h'
  case add =>
    refine ⟨_, ?_, delivered_setValue (valid_addLong _ _)⟩
    rw [routine, binaryAdd, if_neg (by rw [h, h']; simp), if_neg (by rw [h]; simp)]
  case subtract =>
    refine ⟨_, ?_, delivered_setValue (valid_subLong _ _)⟩
    rw [routine, binarySubtract, hcheck]
    rfl
  case shiftRight =>
    refine ⟨_, ?_, delivered_setValue (valid_iterate (fun _ => valid_lsrLong) hval _)⟩
    rw [routine, binaryShiftRight, hcheck]
    rfl
  case shiftLeft =>
    refine ⟨_, ?_, delivered_setValue (valid_iterate (fun a _ => valid_aslLong a) hval _)⟩
    rw [routine, binaryShiftLeft, hcheck]
    rfl
  case equals => exact @compare_integer m x (fun l r => l = r) (fun a => a = 0x0000) h h'
  case notEquals => exact @compare_integer m x (fun l r => l ≠ r) (fun a => a ≠ 0x0000) h h'
  case less => exact @compare_integer m x (fun l r => sbcNegative 0 l r) (fun a => a = 0xFFFF) h h'
  case greaterEqual =>
    exact @compare_integer m x (fun l r => !sbcNegative 0 l r) (fun a => a < 0x8000) h h'
  case lessEqual =>
    exact @compare_integer m x (fun l r => sbcNegative 1 l r) (fun a => a ≠ 0x0001) h h'
  case greater =>
    exact @compare_integer m x (fun l r => !sbcNegative 1 l r) (fun a => a = 0x0001) h h'

/-- **An operator on integers** fails on a zero divisor. -/
theorem BinaryOperator.routine_none (h : m.isString x = false)
    (h' : m.isString (x + exsNext) = false)
    (hv : op.apply (m.value x) (m.value (x + exsNext)) = none) :
    op.routine m x = fail m .divisionByZero := by
  obtain ⟨rfl | rfl, h₀⟩ := apply_eq_none_iff.mp hv
  · exact binaryDivide_zero h h' h₀
  · change (do let m ← binaryDivide m x; _) = _
    rw [binaryDivide_zero h h' h₀]
    rfl

end

end Basic65816
