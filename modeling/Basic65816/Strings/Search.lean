import Basic65816.Strings.Substring

/-!
# Searching in a string

`instr(` slides a pointer over the searched string and compares from the right. Every comparison reads
characters of the two strings only, because the number of tries is the difference of the lengths.

## Main definitions

* `OccursAt`, `FirstOccurrence`: where a string stands in another one

## Main results

* `finsCompare_occurs`: one comparison
* `finsLoop_first`: the tries
* `functionInstr_first`: the function
-/

namespace Basic65816

/-- `t` stands in `s` at the position `p`, which is counted from one. -/
def OccursAt (s t : List ℕ) (p : ℕ) : Prop := 1 ≤ p ∧ midOf s p t.length = t

/-- The least position at which `t` stands in `s`, or zero. -/
def FirstOccurrence (s t : List ℕ) (p : ℕ) : Prop :=
  OccursAt s t p ∧ (∀ q < p, ¬ OccursAt s t q) ∨ p = 0 ∧ ∀ q, ¬ OccursAt s t q

instance (s t : List ℕ) (p : ℕ) : Decidable (OccursAt s t p) := inferInstanceAs (Decidable (_ ∧ _))

variable {m m' : Machine} {a p q x : ℕ} {s t : List ℕ}

theorem not_occursAt_zero : ¬ OccursAt s t 0 := fun h => absurd h.1 (by decide)

/-- A string is found inside only. -/
theorem OccursAt.le (h : OccursAt s t p) (ht : t ≠ []) : p + t.length ≤ s.length + 1 := by
  have hlen := congrArg List.length h.2
  have hpos := List.length_pos_iff.mpr ht
  rw [midOf, List.length_take, List.length_drop] at hlen
  omega

/-! ## One comparison -/

/-- The comparison from the right. By induction on the characters that are left. -/
theorem finsCompare_iff (m : Machine) (n : ℕ) : finsCompare m n = true ↔
    ∀ i < n, m.bank.byte (m.dTemp1 + 1 + i) = m.bank.byte (m.dTemp2 + 1 + i) := by
  induction n with
  | zero => exact ⟨fun _ i hi => absurd hi (Nat.not_lt_zero i), fun _ => rfl⟩
  | succ n ih =>
    have hlast : finsCompare m (n + 1) = true ↔
        m.bank.byte (m.dTemp1 + 1 + n) = m.bank.byte (m.dTemp2 + 1 + n) ∧ finsCompare m n = true := by
      rw [finsCompare, show m.dTemp1 + (n + 1) = m.dTemp1 + 1 + n by omega,
        show m.dTemp2 + (n + 1) = m.dTemp2 + 1 + n by omega]
      split_ifs with h
      · exact (and_iff_right h).symm
      · exact iff_of_false not_false fun hrest => h hrest.1
    rw [hlast, ih]
    constructor
    · rintro ⟨h, hrest⟩ i hi
      rcases Nat.lt_succ_iff_lt_or_eq.mp hi with hi | rfl
      · exact hrest i hi
      · exact h
    · intro h
      exact ⟨h n (Nat.lt_succ_self n), fun i hi => h i (by omega)⟩

/-- Behind the first `q` characters the comparison finds out whether the string stands there. -/
theorem finsCompare_occurs (ht : m.bank.StringAt m.dTemp1 t) (hs : m.bank.StringAt a s)
    (hd : m.dTemp2 = a + q) (hq : q + t.length ≤ s.length) :
    finsCompare m t.length = true ↔ OccursAt s t (q + 1) := by
  have hmid := (hs.2.middle (i := q) t.length (by omega)).eq_bytes
  rw [List.length_take, List.length_drop, Nat.min_eq_left (by omega)] at hmid
  have hocc : OccursAt s t (q + 1) ↔
      m.bank.bytes (a + 1 + q) t.length = m.bank.bytes (m.dTemp1 + 1) t.length := by
    rw [hmid, ht.2.eq_bytes]
    exact and_iff_right (by omega)
  rw [hocc, finsCompare_iff, hd, Memory.bytes, Memory.bytes, List.map_inj_left]
  simp only [List.mem_range, show a + q + 1 = a + 1 + q by omega]
  exact ⟨fun h i hi => (h i hi).symm, fun h i hi => (h i hi).symm⟩

/-! ## The tries -/

theorem Machine.value_setDp_low (m : Machine) (x : ℕ) {v : ℕ} (hv : v < 0x10000) :
    (m.setDp (x + exsValueL) v).value x = (v, (m.value x).2) := by
  refine Prod.ext (Machine.dp_setDp hv) (Machine.dp_setDp_of_disjoint ?_)
  unfold exsValueL exsValueH
  omega

/-- The search has come behind the first `q` characters of `s` without finding `t`. -/
structure Machine.Searching (m : Machine) (x a q : ℕ) (s t : List ℕ) : Prop where
  lookFor : m.bank.StringAt m.dTemp1 t
  searched : m.bank.StringAt a s
  place : m.dTemp2 = a + q
  count : m.value x = (q, 0)
  none : ∀ p ≤ q, ¬ OccursAt s t p

/-- The position is counted before the comparison. -/
def finsCount (m : Machine) (x : ℕ) : Machine :=
  m.setDp (x + exsValueL) (add16 (m.dp (x + exsValueL)) 1)

/-- The state in which the next try begins. -/
def finsSlide (m : Machine) (x : ℕ) : Machine :=
  { finsCount m x with dTemp2 := add16 m.dTemp2 1 }

theorem finsLoop_zero (m : Machine) (x : ℕ) : finsLoop x 0 m =
    if finsCompare (finsCount m x) (m.bank.byte m.dTemp1) then { finsCount m x with dTemp3 := 1 }
    else { finsSlide m x with dTemp3 := 0 }.setDp (x + exsValueL) 0 := rfl

theorem finsLoop_succ (m : Machine) (x n : ℕ) : finsLoop x (n + 1) m =
    if finsCompare (finsCount m x) (m.bank.byte m.dTemp1) then { finsCount m x with dTemp3 := n + 2 }
    else finsLoop x n (finsSlide m x) := rfl

/-- One try. -/
theorem Machine.Searching.next (h : m.Searching x a q s t) (ha : a + s.length < 0x10000)
    (hq : q + t.length ≤ s.length) (hne : t ≠ []) :
    (finsCount m x).value x = (q + 1, 0) ∧
      (finsCompare (finsCount m x) (m.bank.byte m.dTemp1) = true ↔ OccursAt s t (q + 1)) ∧
      (¬ OccursAt s t (q + 1) → (finsSlide m x).Searching x a (q + 1) s t) := by
  obtain ⟨hlook, hsearched, hplace, hcount, hnone⟩ := h
  have hpos := List.length_pos_iff.mpr hne
  have hv : (finsCount m x).value x = (q + 1, 0) := by
    rw [finsCount, show m.dp (x + exsValueL) = q from congrArg Prod.fst hcount, add16_eq (by omega),
      Machine.value_setDp_low m x (by omega), hcount]
  refine ⟨hv, ?_, fun hno => ⟨hlook, hsearched, ?_, hv, fun p hp => ?_⟩⟩
  · rw [hlook.1]
    exact finsCompare_occurs (m := finsCount m x) hlook hsearched hplace hq
  · change add16 m.dTemp2 1 = a + (q + 1)
    rw [hplace, add16_eq (by omega)]
    rfl
  · rcases Nat.le_succ_iff.mp hp with hp | rfl
    · exact hnone p hp
    · exact hno

/-- **The search**, with `n` tries left after this one. By induction on the tries. -/
theorem finsLoop_first (n : ℕ) {m : Machine} {q : ℕ} (h : m.Searching x a q s t)
    (ha : a + s.length < 0x10000) (hne : t ≠ []) (hn : q + n + t.length = s.length) :
    ∃ p, FirstOccurrence s t p ∧ (finsLoop x n m).value x = (p, 0) := by
  induction n generalizing m q with
  | zero =>
    obtain ⟨hv, hcmp, hnext⟩ := h.next ha (by omega) hne
    rw [finsLoop_zero]
    by_cases hocc : OccursAt s t (q + 1)
    · rw [if_pos (hcmp.mpr hocc)]
      exact ⟨q + 1, .inl ⟨hocc, fun p hp => h.none p (Nat.le_of_lt_succ hp)⟩, hv⟩
    · rw [if_neg (hcmp.not.mpr hocc)]
      refine ⟨0, .inr ⟨rfl, fun p hp => ?_⟩, ?_⟩
      · have hle := hp.le hne
        exact (hnext hocc).none p (by omega) hp
      · have hv' : Machine.value { finsSlide m x with dTemp3 := 0 } x = (q + 1, 0) := hv
        rw [Machine.value_setDp_low _ x (by decide), hv']
  | succ n ih =>
    obtain ⟨hv, hcmp, hnext⟩ := h.next ha (by omega) hne
    rw [finsLoop_succ]
    by_cases hocc : OccursAt s t (q + 1)
    · rw [if_pos (hcmp.mpr hocc)]
      exact ⟨q + 1, .inl ⟨hocc, fun p hp => h.none p (Nat.le_of_lt_succ hp)⟩, hv⟩
    · rw [if_neg (hcmp.not.mpr hocc)]
      exact ih (hnext hocc) (by omega)

/-! ## The function -/

/-- The search, once the arguments have been evaluated. -/
def finsSearch (m : Machine) (x s t : ℕ) : Result Machine :=
  let m := { m with dTemp1 := t, dTemp2 := s }.setValue x (0, 0)
  if m.bank.byte s < m.bank.byte t then .ok (m.setDp (x + exsValueL) 0)
  else if m.bank.byte t = 0 then
    fail { m with dTemp3 := m.bank.byte s - m.bank.byte t + 1 } .noSearchString
  else
    .ok (finsLoop x (m.bank.byte s - m.bank.byte t)
      { m with dTemp3 := m.bank.byte s - m.bank.byte t + 1 })

theorem finsSearch_first {b : ℕ} (hs : m.bank.StringAt a s) (ht : m.bank.StringAt b t)
    (ha : a + s.length < 0x10000) (hne : t ≠ []) : ∃ m' p, finsSearch m x a b = .ok m' ∧
      FirstOccurrence s t p ∧ m'.value x = (p, 0) := by
  obtain ⟨m₁, hm₁⟩ : ∃ m₁, m₁ = { m with dTemp1 := b, dTemp2 := a }.setValue x (0, 0) := ⟨_, rfl⟩
  have hv : m₁.value x = (0, 0) := by
    rw [hm₁]
    exact Machine.value_setValue valid_zero
  have hsearch : finsSearch m x a b =
      if s.length < t.length then .ok (m₁.setDp (x + exsValueL) 0)
      else if t.length = 0 then fail { m₁ with dTemp3 := s.length - t.length + 1 } .noSearchString
      else .ok (finsLoop x (s.length - t.length) { m₁ with dTemp3 := s.length - t.length + 1 }) := by
    rw [← hs.1, ← ht.1, hm₁]
    rfl
  rw [hsearch]
  by_cases hlt : s.length < t.length
  · rw [if_pos hlt]
    refine ⟨_, 0, rfl, .inr ⟨rfl, fun p hp => ?_⟩, ?_⟩
    · have hle := hp.le hne
      have hpos := hp.1
      omega
    · rw [Machine.value_setDp_low _ x (by decide), hv]
  · rw [if_neg hlt, if_neg (fun h => hne (List.length_eq_zero_iff.mp h))]
    have hsearching : Machine.Searching { m₁ with dTemp3 := s.length - t.length + 1 } x a 0 s t := by
      subst hm₁
      refine ⟨ht, hs, rfl, hv, fun p hp => ?_⟩
      rw [Nat.le_zero.mp hp]
      exact not_occursAt_zero
    obtain ⟨p, hp, hval⟩ := finsLoop_first (s.length - t.length) hsearching ha hne (by omega)
    exact ⟨_, p, rfl, hp, hval⟩

theorem finsSearch_empty {b : ℕ} (ht : m.bank.StringAt b []) :
    ∃ m', finsSearch m x a b = fail m' .noSearchString := by
  refine ⟨_, (if_neg ?_).trans (if_pos ht.1)⟩
  change ¬ m.bank.byte a < m.bank.byte b
  rw [ht.1]
  exact Nat.not_lt_zero _

theorem functionInstr_eq {ev : Evaluator} {m₁ m₂ m₃ m₄ : Machine} {v w : Value}
    (hs : evaluateNextString ev (resetTypeInteger m x) x = .ok (v, m₁))
    (hc : expectComma m₁ = .ok m₂) (ht : evaluateNextString ev m₂ x = .ok (w, m₃))
    (hb : expectRightBracket m₃ = .ok m₄) : functionInstr ev m x = finsSearch m₄ x v.a w.a := by
  unfold functionInstr
  simp only [hs, hc, ht, hb, ok_bind]
  rfl

/-- **`instr(` finds the first occurrence.** The arguments have been evaluated to the string `s` at `v.a`
and the string `t` at `w.a`. Nothing else in memory matters. -/
theorem functionInstr_first (ev : Evaluator) (m : Machine) (x : ℕ) {m₁ m₂ m₃ m₄ : Machine}
    {v w : Value} {s t : List ℕ} (hs : evaluateNextString ev (resetTypeInteger m x) x = .ok (v, m₁))
    (hc : expectComma m₁ = .ok m₂) (ht : evaluateNextString ev m₂ x = .ok (w, m₃))
    (hb : expectRightBracket m₃ = .ok m₄) (hsAt : m₄.bank.StringAt v.a s)
    (htAt : m₄.bank.StringAt w.a t) (hbound : v.a + s.length < 0x10000) :
    (t = [] → ∃ m', functionInstr ev m x = fail m' .noSearchString) ∧
    (t ≠ [] → ∃ m' p, functionInstr ev m x = .ok m' ∧ m'.value x = (p, 0) ∧
      (OccursAt s t p ∧ (∀ q < p, ¬ OccursAt s t q) ∨ p = 0 ∧ ∀ q, ¬ OccursAt s t q)) := by
  rw [functionInstr_eq hs hc ht hb]
  refine ⟨?_, fun hne => ?_⟩
  · rintro rfl
    exact finsSearch_empty htAt
  · obtain ⟨m', p, hrun, hp, hval⟩ := finsSearch_first (x := x) hsAt htAt hbound hne
    exact ⟨m', p, hrun, hval, hp⟩

/-- The two arguments of `instr(`, up to the closing bracket. -/
def instrArguments (ev : Evaluator) (m : Machine) (x : ℕ) :
    Result ((Value × Machine) × Machine × (Value × Machine) × Machine) := do
  let s ← evaluateNextString ev (resetTypeInteger m x) x
  let m₂ ← expectComma s.2
  let t ← evaluateNextString ev m₂ x
  let m₄ ← expectRightBracket t.2
  .ok (s, m₂, t, m₄)

/-- `instr("AB", "B")`, behind the opening bracket. -/
theorem functionInstr_first_two : ∃ m' p, functionInstr (evaluateLevel Handler.routine 3)
      (commandMachine [6, 0x4102, 0x0042, commaTokenID, 4, 0x4201, rparenTokenID, 0]) 0xD0 = .ok m' ∧
    m'.value 0xD0 = (p, 0) ∧ p = 2 := by
  obtain ⟨⟨⟨v, m₁⟩, m₂, ⟨w, m₃⟩, m₄⟩, hrun, hv, hw, hs, ht⟩ :=
    Except.exists_of_check
      (r := instrArguments (evaluateLevel Handler.routine 3)
        (commandMachine [6, 0x4102, 0x0042, commaTokenID, 4, 0x4201, rparenTokenID, 0]) 0xD0)
      (P := fun r => r.1.1.a = 0x4102 ∧ r.2.2.1.1.a = 0x410A ∧
        r.2.2.2.bank.StringAt 0x4102 [65, 66] ∧ r.2.2.2.bank.StringAt 0x410A [66])
      (by decide +kernel)
  obtain ⟨a₁, h₁, h⟩ := Except.bind_eq_ok.mp hrun
  obtain ⟨a₂, h₂, h⟩ := Except.bind_eq_ok.mp h
  obtain ⟨a₃, h₃, h⟩ := Except.bind_eq_ok.mp h
  obtain ⟨a₄, h₄, h⟩ := Except.bind_eq_ok.mp h
  cases h
  dsimp only at hv hw hs ht
  obtain ⟨m', p, hok, hval, hp⟩ := (functionInstr_first _ _ 0xD0 h₁ h₂ h₃ h₄ (hv ▸ hs) (hw ▸ ht)
    (by rw [hv]; decide)).2 (by decide)
  refine ⟨m', p, hok, hval, ?_⟩
  have htwo : OccursAt [65, 66] [66] 2 := by decide
  have hone : ∀ q < 2, ¬ OccursAt [65, 66] [66] q := by decide
  rcases hp with ⟨hp, hfirst⟩ | ⟨-, hnone⟩
  · refine Nat.le_antisymm ?_ ?_
    · by_contra hgt
      exact hfirst 2 (Nat.not_le.mp hgt) htwo
    · by_contra hlt
      exact hone p (Nat.not_le.mp hlt) hp
  · exact absurd htwo (hnone 2)

end Basic65816
