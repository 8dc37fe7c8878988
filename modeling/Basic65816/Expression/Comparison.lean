import Basic65816.Expression.Operators

/-!
# Comparison of integers

The six comparison operators read their result from the flags a two-step subtraction leaves. With
the overflow flag taken into account, the sign is that of the difference of the two numbers, less the
initial borrow.

## Main definitions

* `signedLong`: a long word as a two's complement number
* `BinaryOperator.order`: the relation a comparison operator stands for, in any linear order

## Main results

* `sbcNegative_iff`: the flags after the subtraction
* `comparison_integer`: the operators are the signed order
-/

namespace Basic65816

/-- A long word read as a two's complement number. -/
def signedLong (v : Long) : ℤ :=
  if v.2 < 0x8000 then v.1 + 0x10000 * v.2 else v.1 + 0x10000 * v.2 - 0x100000000

/-- Whether a comparison operator holds, from the three-way comparison of its operands. -/
def BinaryOperator.decides : BinaryOperator → Ordering → Bool
  | .less => Ordering.isLT
  | .greater => Ordering.isGT
  | .lessEqual => Ordering.isLE
  | .greaterEqual => Ordering.isGE
  | .notEquals => Ordering.isNe
  | _ => Ordering.isEq

/-- The three-way comparison in a linear order. -/
def threeWay {α : Type} [LinearOrder α] (a b : α) : Ordering := cmp a b

/-- The relation a comparison operator stands for, in any linear order. -/
def BinaryOperator.order {α : Type} [LinearOrder α] (op : BinaryOperator) (a b : α) : Prop :=
  op.decides (threeWay a b) = true

instance {α : Type} [LinearOrder α] (op : BinaryOperator) (a b : α) : Decidable (op.order a b) :=
  inferInstanceAs (Decidable (_ = _))

section

variable {α : Type} [LinearOrder α] {a b : α}

theorem threeWay_lt : threeWay a b = .lt ↔ a < b := cmp_eq_lt_iff a b

theorem threeWay_eq : threeWay a b = .eq ↔ a = b := cmp_eq_eq_iff a b

theorem threeWay_gt : threeWay a b = .gt ↔ b < a := cmp_eq_gt_iff a b

theorem order_less : BinaryOperator.less.order a b ↔ a < b := by
  change (threeWay a b).isLT = true ↔ a < b
  rw [Ordering.isLT_iff_eq_lt, threeWay_lt]

theorem order_greater : BinaryOperator.greater.order a b ↔ b < a := by
  change (threeWay a b).isGT = true ↔ b < a
  rw [Ordering.isGT_iff_eq_gt, threeWay_gt]

theorem order_equals : BinaryOperator.equals.order a b ↔ a = b := by
  change (threeWay a b).isEq = true ↔ a = b
  rw [Ordering.isEq_iff_eq_eq, threeWay_eq]

theorem order_lessEqual : BinaryOperator.lessEqual.order a b ↔ a ≤ b := by
  change (threeWay a b).isLE = true ↔ a ≤ b
  rw [← not_lt, ← threeWay_gt]
  cases threeWay a b <;> simp

theorem order_greaterEqual : BinaryOperator.greaterEqual.order a b ↔ b ≤ a := by
  change (threeWay a b).isGE = true ↔ b ≤ a
  rw [← not_lt, ← threeWay_lt]
  cases threeWay a b <;> simp

theorem order_notEquals : BinaryOperator.notEquals.order a b ↔ a ≠ b := by
  change (threeWay a b).isNe = true ↔ a ≠ b
  rw [ne_eq, ← threeWay_eq (a := a)]
  cases threeWay a b <;> simp

end

/-- The top bit of an exclusive or. -/
theorem xor_top (a b : ℕ) : (a ^^^ b) / 0x8000 % 2 = (a / 0x8000 + b / 0x8000) % 2 := by
  rw [show 0x8000 = 2 ^ 15 from rfl, Nat.xor_div_two_pow, Nat.xor_mod_two_eq]

section

variable {l r : Long}

theorem signedLong_inj (hl : l.Valid) (hr : r.Valid) : signedLong l = signedLong r ↔ l = r := by
  obtain ⟨l₁, l₂⟩ := l
  obtain ⟨r₁, r₂⟩ := r
  obtain ⟨h₁, h₂⟩ := hl
  obtain ⟨h₃, h₄⟩ := hr
  simp only at h₁ h₂ h₃ h₄
  simp only [signedLong, Prod.mk.injEq]
  split <;> split <;> omega

/-- **The flags after the subtraction**: with the overflow taken into account, the sign is that of
the difference less the borrow. -/
theorem sbcNegative_iff {b : ℕ} (hb : b ≤ 1) (hl : l.Valid) (hr : r.Valid) :
    sbcNegative b l r = true ↔ signedLong l - signedLong r - b < 0 := by
  obtain ⟨l₁, l₂⟩ := l
  obtain ⟨r₁, r₂⟩ := r
  obtain ⟨h₁, h₂⟩ := hl
  obtain ⟨h₃, h₄⟩ := hr
  simp only at h₁ h₂ h₃ h₄
  obtain ⟨c, hc⟩ : ∃ c, c = borrowLow b (l₁, l₂) (r₁, r₂) := ⟨_, rfl⟩
  have hc' : (l₁ < r₁ + b ∧ c = 1) ∨ (r₁ + b ≤ l₁ ∧ c = 0) := by
    rw [hc]
    unfold borrowLow
    split
    · exact .inl ⟨by assumption, rfl⟩
    · exact .inr ⟨by omega, rfl⟩
  obtain ⟨d, hd⟩ : ∃ d, d = sbc16 l₂ r₂ c := ⟨_, rfl⟩
  have hd' : d = (l₂ + (0x10000 - r₂) - c) % 0x10000 := hd
  unfold sbcNegative
  simp only [← hc, ← hd, xor_top, decide_eq_true_eq]
  have hsign : (if (l₂ / 0x8000 + r₂ / 0x8000) % 2 = 1 ∧ (l₂ / 0x8000 + d / 0x8000) % 2 = 1
      then d ^^^ 0x8000 else d) / 0x8000 % 2 =
      (d / 0x8000 + if (l₂ / 0x8000 + r₂ / 0x8000) % 2 = 1 ∧ (l₂ / 0x8000 + d / 0x8000) % 2 = 1
        then 1 else 0) % 2 := by
    split
    · rw [xor_top]
    · rfl
  rw [hsign]
  simp only [signedLong]
  split <;> split <;> split <;> omega

end

/-- **Comparison of integers** is the signed order: for any two long words, a comparison operator
leaves -1 when its relation holds between the two numbers, and 0 otherwise. -/
theorem comparison_integer (op : BinaryOperator) (hop : op.IsComparison) (m : Machine) (x : ℕ)
    (h : m.isString x = false) (h' : m.isString (x + exsNext) = false) :
    ∃ m', op.routine m x = .ok m' ∧ m'.value x =
      if op.order (signedLong (m.value x)) (signedLong (m.value (x + exsNext)))
      then (0xFFFF, 0xFFFF) else (0, 0) := by
  have hl := m.valid_value x
  have hr := m.valid_value (x + exsNext)
  have hless := sbcNegative_iff (b := 0) (by decide) hl hr
  have hle := sbcNegative_iff (b := 1) (by decide) hl hr
  have heq := signedLong_inj hl hr
  have happly : ∃ t : Bool, op.apply (m.value x) (m.value (x + exsNext)) = some (compareLong t) ∧
      (t = true ↔ op.order (signedLong (m.value x)) (signedLong (m.value (x + exsNext)))) := by
    cases op
    case less => exact ⟨_, rfl, hless.trans (by rw [order_less]; omega)⟩
    case lessEqual => exact ⟨_, rfl, hle.trans (by rw [order_lessEqual]; omega)⟩
    case greaterEqual =>
      refine ⟨_, rfl, ?_⟩
      rw [Bool.not_eq_true', ← Bool.not_eq_true, hless, order_greaterEqual]
      omega
    case greater =>
      refine ⟨_, rfl, ?_⟩
      rw [Bool.not_eq_true', ← Bool.not_eq_true, hle, order_greater]
      omega
    case equals => exact ⟨_, rfl, by rw [decide_eq_true_eq, order_equals, heq]⟩
    case notEquals => exact ⟨_, rfl, by rw [decide_eq_true_eq, order_notEquals, ne_eq, ne_eq, heq]⟩
    all_goals exact absurd hop (by decide)
  obtain ⟨t, ht, hiff⟩ := happly
  obtain ⟨m', hok, hd⟩ := op.routine_integer h h' ht
  refine ⟨m', hok, hd.value.trans ?_⟩
  cases t with
  | true => rw [if_pos (hiff.mp rfl)]; rfl
  | false => rw [if_neg (hiff.not.mp (by simp))]; rfl

/-- The numbers `-2147483648` and `1`, whose difference overflows, as the operands. -/
def leastAndOne : Machine :=
  ((default : Machine).setValue 0 (0, 0x8000)).setValue exsNext (1, 0)

theorem comparison_integer_overflow :
    ∃ m', BinaryOperator.less.routine leastAndOne 0 = .ok m' ∧ m'.value 0 = (0xFFFF, 0xFFFF) := by
  obtain ⟨m', hok, hv⟩ := comparison_integer .less (by decide) leastAndOne 0 (by decide) (by decide)
  exact ⟨m', hok, hv.trans (by decide)⟩

end Basic65816
