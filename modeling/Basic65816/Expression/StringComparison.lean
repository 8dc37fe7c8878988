import Basic65816.Expression.Comparison

/-!
# Comparison of strings

The loop that compares the common part of two strings counts down in a byte and ends when the byte is
negative, which it also is while more than 128 characters are left. Up to 128 common characters the
strings are compared in lexicographic order; above, only their lengths are.

## Main definitions

* `Memory.StringAt`: a string with its length byte

## Main results

* `ctcCompare_spec`: the loop is the lexicographic comparison, up to 128 common characters
* `comparison_string`: when the operators follow the lexicographic order
-/

/-- The string `s` is stored at `a`, its length first. -/
def Memory.StringAt (m : Memory) (a : ℕ) (s : List ℕ) : Prop :=
  m.BytesAt a (s.length :: s)

namespace Basic65816

/-- The value in `A` that stands for a three-way comparison. -/
def signWord : Ordering → ℕ
  | .lt => 0xFFFF
  | .eq => 0x0000
  | .gt => 0x0001

section

variable {m : Machine} {s t : List ℕ} {x : ℕ}

theorem signWord_threeWay {a b : ℕ} :
    (if a < b then 0xFFFF else if a ≠ b then 0x0001 else 0x0000) = signWord (threeWay a b) := by
  rcases Nat.lt_trichotomy a b with h | h | h
  · rw [if_pos h, threeWay_lt.mpr h]
    rfl
  · rw [if_neg (by omega), if_neg (by omega), threeWay_eq.mpr h]
    rfl
  · rw [if_neg (by omega), if_pos (by omega), threeWay_gt.mpr h]
    rfl

/-- The end of the loop compares the lengths. -/
theorem ctcEqualSoFar_eq : ctcEqualSoFar m =
    signWord (threeWay (m.bank.byte m.dTemp1) (m.bank.byte m.dTemp2)) := signWord_threeWay

theorem threeWay_cons_self (a : ℕ) (s t : List ℕ) :
    threeWay (a :: s) (a :: t) = threeWay s t := by
  rcases lt_trichotomy s t with h | h | h
  · rw [threeWay_lt.mpr h, threeWay_lt, List.cons_lt_cons_iff]
    exact .inr ⟨rfl, h⟩
  · rw [threeWay_eq.mpr h, threeWay_eq, h]
  · rw [threeWay_gt.mpr h, threeWay_gt, List.cons_lt_cons_iff]
    exact .inr ⟨rfl, h⟩

theorem threeWay_cons_of_ne {a b : ℕ} (h : a ≠ b) (s t : List ℕ) :
    threeWay (a :: s) (b :: t) = threeWay a b := by
  rcases Nat.lt_or_gt_of_ne h with h | h
  · rw [threeWay_lt.mpr h, threeWay_lt, List.cons_lt_cons_iff]
    exact .inl h
  · rw [threeWay_gt.mpr h, threeWay_gt, List.cons_lt_cons_iff]
    exact .inl h

/-- **The loop**, with `y` characters compared and at most 128 common ones left: the lexicographic
comparison of the rest. -/
theorem ctcCompare_spec {n y : ℕ} (hs : m.bank.BytesAt (m.dTemp1 + y + 1) s)
    (ht : m.bank.BytesAt (m.dTemp2 + y + 1) t) (hls : m.bank.byte m.dTemp1 = y + s.length)
    (hlt : m.bank.byte m.dTemp2 = y + t.length) (hn : n = min s.length t.length) (hle : n ≤ 128) :
    (ctcCompare m n y).1 = signWord (threeWay s t) := by
  have hy : y < 256 := by have := m.bank.byte_lt m.dTemp1; omega
  induction n generalizing y s t with
  | zero =>
    rw [ctcCompare]
    dsimp only
    rw [ctcEqualSoFar_eq, hls, hlt]
    congr 1
    cases s with
    | nil =>
      cases t with
      | nil => rw [threeWay_eq.mpr rfl, threeWay_eq.mpr rfl]
      | cons b t => rw [threeWay_lt.mpr (List.nil_lt_cons b t), threeWay_lt]; simp
    | cons a s =>
      cases t with
      | nil => rw [threeWay_gt.mpr (List.nil_lt_cons a s), threeWay_gt]; simp
      | cons b t => simp at hn
  | succ n ih =>
    obtain ⟨a, s, rfl⟩ : ∃ a s', s = a :: s' := by
      cases s with
      | nil => simp at hn
      | cons a s => exact ⟨a, s, rfl⟩
    obtain ⟨b, t, rfl⟩ : ∃ b t', t = b :: t' := by
      cases t with
      | nil => simp at hn
      | cons b t => exact ⟨b, t, rfl⟩
    simp only [List.length_cons] at hls hlt hn
    have hy₁ : add16 y 1 = y + 1 := add16_eq (by omega)
    have ha : m.bank.byte (m.dTemp1 + (y + 1)) = a := hs.1
    have hb : m.bank.byte (m.dTemp2 + (y + 1)) = b := ht.1
    rw [ctcCompare, if_neg (by omega)]
    dsimp only
    rw [hy₁, ha, hb]
    by_cases hab : a = b
    · subst hab
      rw [if_pos rfl, threeWay_cons_self]
      have hlen := m.bank.byte_lt m.dTemp1
      exact ih hs.2 ht.2 (by omega) (by omega) (by omega) (by omega) (by omega)
    · rw [if_neg hab, threeWay_cons_of_ne hab, ← signWord_threeWay]
      by_cases hlt' : a < b
      · rw [if_pos hlt', if_pos hlt']
      · rw [if_neg hlt', if_neg hlt', if_pos hab]

/-- With more than 128 common characters the loop ends at once. -/
theorem ctcCompare_long {n y : ℕ} (h : 128 < n) :
    (ctcCompare m n y).1 = signWord (threeWay (m.bank.byte m.dTemp1) (m.bank.byte m.dTemp2)) := by
  obtain ⟨k, rfl⟩ : ∃ k, n = k + 1 := ⟨n - 1, by omega⟩
  rw [ctcCompare, if_pos (by omega), ctcEqualSoFar_eq]

/-- The three-way comparison the loop comes to for two strings. -/
def stringCompare (s t : List ℕ) : Ordering :=
  if min s.length t.length ≤ 128 then threeWay s t else threeWay s.length t.length

/-- The two operands are the strings `s` and `t`. -/
structure Machine.Strings (m : Machine) (x : ℕ) (s t : List ℕ) : Prop where
  left : m.isString x = true
  right : m.isString (x + exsNext) = true
  leftAt : m.bank.StringAt (m.dp (x + exsValueL)) s
  rightAt : m.bank.StringAt (m.dp (x + exsNext + exsValueL)) t

theorem ctcStringCompare_spec (h : m.Strings x s t) :
    (ctcStringCompare m x).1 = signWord (stringCompare s t) := by
  obtain ⟨-, -, ⟨hl, hs⟩, ⟨hl', ht⟩⟩ := h
  obtain ⟨m₁, hm₁⟩ : ∃ m₁ : Machine, m₁ = { resetTypeInteger m x with
    dTemp1 := m.dp (x + exsValueL), dTemp2 := m.dp (x + exsNext + exsValueL) } := ⟨_, rfl⟩
  have hb : m₁.bank = m.bank := by rw [hm₁]; rfl
  have h₁ : m₁.dTemp1 = m.dp (x + exsValueL) := by rw [hm₁]
  have h₂ : m₁.dTemp2 = m.dp (x + exsNext + exsValueL) := by rw [hm₁]
  have heq : (ctcStringCompare m x).1 = (ctcCompare m₁
      (min (m₁.bank.byte m₁.dTemp1) (m₁.bank.byte m₁.dTemp2)) 0).1 := by
    have hd : ∀ b, b + 2 ≤ x + exsPrecType ∨ x + exsPrecType + 2 ≤ b →
        (resetTypeInteger m x).dp b = m.dp b := fun b hb => Machine.dp_setDp_of_disjoint hb
    rw [hm₁, ← hd _ (.inl (by unfold exsValueL exsPrecType; omega)),
      ← hd (x + exsNext + exsValueL) (.inr (by unfold exsValueL exsPrecType exsNext; omega))]
    rfl
  rw [heq, hb, h₁, h₂, hl, hl']
  unfold stringCompare
  split
  · exact ctcCompare_spec (y := 0) (by rw [hb, h₁]; exact hs) (by rw [hb, h₂]; exact ht)
      (by rw [hb, h₁, hl, Nat.zero_add]) (by rw [hb, h₂, hl', Nat.zero_add]) rfl (by assumption)
  · rw [ctcCompare_long (by omega), hb, h₁, h₂, hl, hl']

/-- The string test of a comparison operator. -/
theorem routine_string {op : BinaryOperator} (hop : op.IsComparison) (h : m.Strings x s t) :
    ∃ m', op.routine m x = .ok m' ∧
      m'.value x = compareLong (op.decides (stringCompare s t)) := by
  have hspec := ctcStringCompare_spec h
  have hcompare : ∀ (integer : Long → Long → Bool) (string : ℕ → Bool),
      (∀ o, string (signWord o) = op.decides o) → ∃ m', compare integer string m x = .ok m' ∧
        m'.value x = compareLong (op.decides (stringCompare s t)) := fun integer string hstring => by
    refine ⟨(ctcStringCompare m x).2.setValue x (compareLong (string (ctcStringCompare m x).1)),
      ?_, ?_⟩
    · rw [compare, compareTypeCheck, if_neg (by rw [h.left, h.right]; simp), if_pos h.left]
      rfl
    · rw [Machine.value_setValue (valid_compareLong _), hspec, hstring]
  cases op
  case less =>
    exact hcompare (fun l r => sbcNegative 0 l r) (fun a => a = 0xFFFF) (by intro o; cases o <;> rfl)
  case greater =>
    exact hcompare (fun l r => !sbcNegative 1 l r) (fun a => a = 0x0001) (by intro o; cases o <;> rfl)
  case equals => exact hcompare (fun l r => l = r) (fun a => a = 0x0000) (by intro o; cases o <;> rfl)
  case notEquals => exact hcompare (fun l r => l ≠ r) (fun a => a ≠ 0x0000) (by intro o; cases o <;> rfl)
  case lessEqual =>
    exact hcompare (fun l r => sbcNegative 1 l r) (fun a => a ≠ 0x0001) (by intro o; cases o <;> rfl)
  case greaterEqual =>
    exact hcompare (fun l r => !sbcNegative 0 l r) (fun a => a < 0x8000) (by intro o; cases o <;> rfl)
  all_goals exact absurd hop (by decide)

end

/-- **Comparison of strings.** The six operators follow the lexicographic order exactly for those
strings of which one has at most 128 characters, or whose lengths are in the order of the strings. -/
theorem comparison_string (m : Machine) (x : ℕ) (s t : List ℕ) (h : m.Strings x s t) :
    (∀ op : BinaryOperator, op.IsComparison → ∃ m', op.routine m x = .ok m' ∧ m'.value x =
      if op.order s t then (0xFFFF, 0xFFFF) else (0, 0)) ↔
    (s.length ≤ 128 ∨ t.length ≤ 128 ∨ threeWay s.length t.length = threeWay s t) := by
  have hlong : ∀ (b : Bool), compareLong b = if b = true then (0xFFFF, 0xFFFF) else (0, 0) :=
    fun b => by cases b <;> rfl
  have hcond : (s.length ≤ 128 ∨ t.length ≤ 128 ∨ threeWay s.length t.length = threeWay s t) ↔
      stringCompare s t = threeWay s t := by
    unfold stringCompare
    split
    · exact iff_of_true (by omega) rfl
    · constructor
      · rintro (h | h | h)
        · omega
        · omega
        · exact h
      · exact fun h => .inr (.inr h)
  rw [hcond]
  constructor
  · intro hall
    have hdecides : ∀ op : BinaryOperator, op.IsComparison →
        op.decides (stringCompare s t) = op.decides (threeWay s t) := fun op hop => by
      obtain ⟨m₁, hok₁, hv₁⟩ := hall op hop
      obtain ⟨m₂, hok₂, hv₂⟩ := routine_string hop h
      obtain rfl := Except.ok.inj (hok₁.symm.trans hok₂)
      have hv := hv₂.symm.trans hv₁
      by_cases ho : op.order s t
      · rw [if_pos ho] at hv
        rw [show op.decides (threeWay s t) = true from ho]
        cases hd : op.decides (stringCompare s t) with
        | true => rfl
        | false => rw [hd] at hv; exact absurd hv (by decide)
      · rw [if_neg ho] at hv
        rw [show op.decides (threeWay s t) = false from Bool.eq_false_iff.mpr ho]
        cases hd : op.decides (stringCompare s t) with
        | false => rfl
        | true => rw [hd] at hv; exact absurd hv (by decide)
    have hl := hdecides .less (by decide)
    have hg := hdecides .greater (by decide)
    simp only [BinaryOperator.decides] at hl hg
    cases h₁ : stringCompare s t <;> cases h₂ : threeWay s t <;> rw [h₁, h₂] at hl hg <;>
      first | rfl | exact absurd hl (by decide) | exact absurd hg (by decide)
  · intro heq op hop
    obtain ⟨m', hok, hv⟩ := routine_string hop h
    refine ⟨m', hok, hv.trans ?_⟩
    rw [heq, hlong]
    rfl

/-- Two strings of 129 characters that differ in the first one, as the operands. -/
def longStrings : Machine :=
  { (default : Machine) with
    page := ((((default : Memory).setWord 0 0x1000).setWord 4 0x8000).setWord 6 0x2000).setWord 10
      0x8000
    bank := ((((default : Memory).setByte 0x1000 129).setByte 0x1001 65).setByte 0x2000 129).setByte
      0x2001 66 }

theorem longStrings_strings :
    longStrings.Strings 0 (65 :: List.replicate 128 0) (66 :: List.replicate 128 0) where
  left := by decide
  right := by decide
  leftAt := by
    refine ⟨?_, by decide, ?_⟩
    · rw [List.length_cons, List.length_replicate]
      decide
    have h := Memory.bytesAt_bytes longStrings.bank 128 0x1002
    rwa [show longStrings.bank.bytes 0x1002 128 = List.replicate 128 0 by rfl] at h
  rightAt := by
    refine ⟨?_, by decide, ?_⟩
    · rw [List.length_cons, List.length_replicate]
      decide
    have h := Memory.bytesAt_bytes longStrings.bank 128 0x2002
    rwa [show longStrings.bank.bytes 0x2002 128 = List.replicate 128 0 by rfl] at h

/-- The two strings count as equal. -/
theorem comparison_string_long : ∃ m x s t, m.Strings x s t ∧ s ≠ t ∧
    ∃ m', BinaryOperator.equals.routine m x = .ok m' ∧ m'.value x = (0xFFFF, 0xFFFF) := by
  obtain ⟨m', hok, hv⟩ := @routine_string longStrings _ _ 0 .equals (by decide)
    longStrings_strings
  refine ⟨longStrings, 0, _, _, longStrings_strings, by simp, m', hok, hv.trans ?_⟩
  decide +kernel

/-- Strings of one character. -/
theorem comparison_string_short : ∃ m', BinaryOperator.less.routine { longStrings with
      bank := (longStrings.bank.setByte 0x1000 1).setByte 0x2000 1 } 0 = .ok m' ∧
    m'.value 0 = (0xFFFF, 0xFFFF) := by
  have h : Machine.Strings { longStrings with
      bank := (longStrings.bank.setByte 0x1000 1).setByte 0x2000 1 } 0 [65] [66] :=
    ⟨by decide, by decide, ⟨by decide, by decide, trivial⟩, ⟨by decide, by decide, trivial⟩⟩
  obtain ⟨m', hok, hv⟩ := (comparison_string _ _ _ _ h).mpr (.inl (by decide)) .less (by decide)
  exact ⟨m', hok, hv.trans (by decide)⟩

end Basic65816
