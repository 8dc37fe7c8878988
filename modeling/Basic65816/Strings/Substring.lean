import Basic65816.Arithmetic.Long
import Basic65816.Machine.Expression
import Basic65816.Strings.Characters

/-!
# Parts of strings

`left$(`, `right$(` and `mid$(` deliver the string itself where nothing is cut off, and otherwise
copy the characters into a new temporary string.

## Main definitions

* `leftOf`, `rightOf`, `midOf`: the parts
* `Machine.Delivers`: a string that an expression has delivered
* `Machine.HasPart`: the part has been delivered

## Main results

* `written_fnd1Loop`, `fndTemp1Characters_part`: the copy
* `substrings`: the three functions
-/

/-- The characters in the middle of a string. -/
theorem Memory.BytesAt.middle {bank : Memory} {b : ℕ} {s : List ℕ} (h : bank.BytesAt b s) {i : ℕ} (k : ℕ)
    (hi : i ≤ s.length) : bank.BytesAt (b + i) ((s.drop i).take k) := by
  have hsplit : s = s.take i ++ ((s.drop i).take k ++ (s.drop i).drop k) := by
    rw [List.take_append_drop, List.take_append_drop]
  rw [hsplit, Memory.bytesAt_append, Memory.bytesAt_append] at h
  have hmid := h.2.1
  rwa [List.length_take, Nat.min_eq_left hi] at hmid

namespace Basic65816

/-- The first `n` characters. -/
def leftOf (s : List ℕ) (n : ℕ) : List ℕ := s.take n

/-- The last `n` characters. -/
def rightOf (s : List ℕ) (n : ℕ) : List ℕ := s.drop (s.length - n)

/-- The `k` characters from the position `n` on, which is counted from one. -/
def midOf (s : List ℕ) (n k : ℕ) : List ℕ := (s.drop (n - 1)).take k

/-- The string `s` that an expression has delivered at `a`: it lies below the low memory pointer, in
the program or the command line, or among the temporary and the stored strings. There is room for a
copy of it. -/
structure Machine.Delivers (m : Machine) (a : ℕ) (s : List ℕ) : Prop where
  stringAt : m.bank.StringAt a s
  bound : a + s.length < 0x10000
  place : a + s.length < m.block blockLowMemoryPtr ∨ m.tempTop ≤ a
  room : m.block blockLowMemoryPtr + s.length + 1 ≤ m.tempTop
  top : m.tempTop < 0x10000

/-- The part `r` of the string `s` at `a` is delivered in the slot at `x`. The string is unchanged, and
nothing is written above the temporary strings or below the new one. -/
structure Machine.HasPart (m : Machine) (x a : ℕ) (s r : List ℕ) (m' : Machine) : Prop where
  part : m'.bank.StringAt (m'.value x).1 r
  source : m'.bank.StringAt a s
  frame : Memory.EqOff (m.tempTop - (s.length + 1)) m.tempTop m.bank m'.bank

variable {m m₁ : Machine} {a x : ℕ} {s r : List ℕ}

theorem Machine.Delivers.length_lt (h : m.Delivers a s) : s.length < 256 := h.stringAt.length_lt

/-- Registers do not matter. -/
theorem Machine.Delivers.of_eq (h : m.Delivers a s) (hbase : m₁.dBaseAddress = m.dBaseAddress)
    (hptr : m₁.dTempStringPointer = m.dTempStringPointer) (hbank : m₁.bank = m.bank) :
    m₁.Delivers a s := by
  have hblock : ∀ i, m₁.block i = m.block i := fun i => by
    unfold Machine.block
    rw [hbase, hbank]
  have htop : m₁.tempTop = m.tempTop := by
    unfold Machine.tempTop
    rw [hptr, hblock]
  obtain ⟨h₁, h₂, h₃, h₄, h₅⟩ := h
  exact ⟨hbank ▸ h₁, h₂, by rwa [hblock, htop], by rwa [hblock, htop], by rwa [htop]⟩

/-! ## The exits -/

theorem fnStringY_value (m : Machine) (x : ℕ) {y : ℕ} (hy : y < 0x10000) :
    ((fnStringY m x y).value x).1 = y := by
  change ((m.page.setWord (x + exsValueL) y).setWord (x + exsNext + exsValueH) 0).word
    (x + exsValueL) = y
  rw [Memory.word_setWord_of_disjoint (by unfold exsNext exsValueH exsValueL; omega),
    Memory.word_setWord hy]

/-- A new string of at most the length of the source does not touch it. -/
theorem Machine.Delivers.source {p t : ℕ} {m' : Machine} (h : m.Delivers a s)
    (hp : p + t + 1 = m.tempTop) (ht : t ≤ s.length)
    (hbank : Memory.EqOff p (p + t + 1) m.bank m'.bank) : m'.bank.StringAt a s := by
  have := h.place
  have := h.room
  refine h.stringAt.copy fun i hi => hbank _ ?_
  omega

/-- What is delivered by `FNStringY` when a new string has been made. -/
theorem Machine.Delivers.hasPart {p t : ℕ} {m' : Machine} (h : m.Delivers a s)
    (hp : p + t + 1 = m.tempTop) (ht : t ≤ s.length) (hw : m.Written p r t m') (hr : r.length ≤ t) :
    m.HasPart x a s r (fnStringY m' x p) := by
  have hlt := h.length_lt
  have htop := h.top
  refine ⟨?_, h.source hp ht hw.bank, ?_⟩
  · rw [fnStringY_value m' x (by omega)]
    exact hw.stringAt (by omega)
  · exact hw.bank.mono (by omega) (by omega)

theorem Machine.Delivers.place_eq {t : ℕ} (h : m.Delivers a s) (ht : t ≤ s.length) :
    add16 m.tempTop (0xFFFF - t % 256) + t + 1 = m.tempTop := by
  have hlt := h.length_lt
  have hroom := h.room
  have htop := h.top
  unfold add16
  omega

/-- The empty string. -/
theorem fnStringEmpty_part (h : m.Delivers a s) : m.HasPart x a s [] (fnStringEmpty m x) :=
  h.hasPart (h.place_eq (Nat.zero_le _)) (Nat.zero_le _) (written_stringTempAllocate m 0 0)
    (Nat.le_refl 0)

/-- The string itself. -/
theorem fnStringY_part (h : m.Delivers a s) : m.HasPart x a s s (fnStringY m x a) := by
  refine ⟨?_, h.stringAt, Memory.EqOff.refl _ _ _⟩
  rw [fnStringY_value m x (by have := h.bound; omega)]
  exact h.stringAt

/-! ## The copy -/

/-- The loop appends the characters at `y`. By induction on the characters. -/
theorem written_fnd1Loop {p t y : ℕ} (h : m.Written p s t m₁) (hr : m.bank.BytesAt y r)
    (hapart : y + r.length ≤ p ∨ p + t < y) (hlt : y + r.length ≤ 0x10000)
    (hn : s.length + r.length ≤ t) (ht : p + t < 0x10000) :
    m.Written p (s ++ r) t (fnd1Loop r.length m₁ y) := by
  induction r generalizing m₁ s y with
  | nil =>
    rw [List.append_nil]
    exact h.scratch ⟨rfl, rfl, rfl, rfl, rfl, rfl⟩
  | cons c r ih =>
    rw [List.length_cons] at hapart hlt hn
    have hc : m₁.bank.byte y = c := (h.bank.byte (by omega)).trans hr.1
    have hbyte : c % 256 = c := Nat.mod_eq_of_lt (hc ▸ m₁.bank.byte_lt y)
    -- one character is appended, and the rest is still at its place
    have hnext := written_stringWriteCharacter h (by omega) ht c
    rw [hbyte] at hnext
    have hrest : m.bank.BytesAt (add16 y 1) r := by
      cases r with
      | nil => trivial
      | cons c' r =>
        rw [List.length_cons] at hlt
        rw [add16_eq (by omega)]
        exact hr.2
    have hrun := ih hnext hrest
      (by unfold add16; omega) (by unfold add16; omega)
      (by rw [List.length_append, List.length_singleton]; omega)
    rw [List.append_assoc] at hrun
    rw [List.length_cons, fnd1Loop, hc]
    exact hrun

/-- **The copy**: `DTemp1` characters behind the first `i`. -/
theorem fndTemp1Characters_part (h : m.Delivers a s) {i : ℕ} (hik : i + m.dTemp1 ≤ s.length) :
    m.HasPart x a s ((s.drop i).take m.dTemp1) (fndTemp1Characters m x (a + 1 + i)) := by
  unfold fndTemp1Characters
  split_ifs with hzero
  · rw [hzero, List.take_zero]
    exact fnStringEmpty_part h
  · have hplace := h.place_eq (t := m.dTemp1) (by omega)
    have hp := h.place
    have hroom := h.room
    have htop := h.top
    have hbound := h.bound
    have hlen : ((s.drop i).take m.dTemp1).length = m.dTemp1 := by
      rw [List.length_take, List.length_drop]
      omega
    have hchars : m.bank.BytesAt (a + 1 + i) ((s.drop i).take m.dTemp1) :=
      h.stringAt.2.middle m.dTemp1 (by omega)
    -- the copy lies apart from its source, whichever side of it the source is on
    have hrun := written_fnd1Loop (written_stringTempAllocate m m.dTemp1 m.dTemp1) hchars
      (by rw [hlen]; omega) (by rw [hlen]; omega) (by rw [hlen]; simp) (by omega)
    rw [hlen, List.nil_append] at hrun
    have hstart : (fnd1Loop m.dTemp1 (stringTempAllocate m m.dTemp1) (a + 1 + i)).dStartTempString =
        add16 m.tempTop (0xFFFF - m.dTemp1 % 256) := hrun.start
    dsimp only
    rw [hstart]
    exact h.hasPart hplace (by omega) hrun hlen.le

/-! ## The functions -/

/-- A count is a word when its high word is clear. -/
theorem count_cases {v : Value} (hv : Long.Valid (v.a, v.y)) :
    v.y ≠ 0 ∧ ¬ (0 ≤ signedLong (v.a, v.y) ∧ signedLong (v.a, v.y) ≤ 65535) ∨
      v.y = 0 ∧ signedLong (v.a, v.y) = v.a := by
  obtain ⟨ha, hy⟩ := hv
  dsimp only at ha hy
  unfold signedLong
  dsimp only
  split_ifs <;> omega

section

variable {ev : Evaluator} {m₂ m₃ m₄ : Machine} {v n : Value}

/-- The bracket is skipped, whatever is in `DTemp1`. -/
theorem expectRightBracket_dTemp1 (h : expectRightBracket m₃ = .ok m₄) (a : ℕ) :
    expectRightBracket { m₃ with dTemp1 := a } = .ok { m₄ with dTemp1 := a } := by
  unfold expectRightBracket expectToken at h ⊢
  split_ifs at h with htoken
  · rw [← Except.ok.inj h]
    exact if_pos htoken
  · cases h

/-- The common part of `left$(` and `right$(`. -/
theorem leftRight_eq {start : Machine → ℕ → ℕ → ℕ × Machine}
    (hs : evaluateNextString ev (resetTypeString m x) x = .ok (v, m₁))
    (hc : expectComma m₁ = .ok m₂) (hn : evaluateNextInteger ev m₂ x = .ok (n, m₃)) :
    leftRight start ev m x =
      if n.y ≠ 0 then fail m₃ .badStringOperation
      else expectRightBracket { m₃ with dTemp1 := n.a } >>= fun m =>
        if m.bank.byte v.a = 0 then .ok (fnStringEmpty m x)
        else if m.bank.byte v.a ≤ m.dTemp1 then .ok (fnStringY m x v.a)
        else .ok (fndTemp1Characters (start m (m.bank.byte v.a) v.a).2 x
          (start m (m.bank.byte v.a) v.a).1) := by
  unfold leftRight
  simp only [hs, hc, hn, ok_bind]

/-- `left$(` and `right$(`, when `part` is what the copy makes of a string longer than the count. -/
theorem leftRight_part {start : Machine → ℕ → ℕ → ℕ × Machine} {part : List ℕ → ℕ → List ℕ}
    (hs : evaluateNextString ev (resetTypeString m x) x = .ok (v, m₁))
    (hc : expectComma m₁ = .ok m₂) (hn : evaluateNextInteger ev m₂ x = .ok (n, m₃))
    (hy : n.y = 0) (hb : expectRightBracket m₃ = .ok m₄) (h : m₄.Delivers v.a s)
    (hnil : part [] n.a = []) (hwhole : s.length ≤ n.a → part s n.a = s)
    (hcopy : ∀ m₅ : Machine, m₅ = { m₄ with dTemp1 := n.a } → n.a < s.length →
      m₅.HasPart x v.a s (part s n.a)
        (fndTemp1Characters (start m₅ s.length v.a).2 x (start m₅ s.length v.a).1)) :
    ∃ m', leftRight start ev m x = .ok m' ∧ m₄.HasPart x v.a s (part s n.a) m' := by
  rw [leftRight_eq hs hc hn, if_neg (not_not.mpr hy), expectRightBracket_dTemp1 hb, ok_bind]
  have h' : Machine.Delivers { m₄ with dTemp1 := n.a } v.a s := h.of_eq rfl rfl rfl
  have hlen : m₄.bank.byte v.a = s.length := h.stringAt.1
  dsimp only
  rw [hlen]
  -- the tests of the routine: an empty string, a string that is short enough, a copy
  split_ifs with hzero hle
  · obtain rfl := List.length_eq_zero_iff.mp hzero
    rw [hnil]
    have hpart := fnStringEmpty_part (x := x) h'
    exact ⟨_, rfl, hpart.part, hpart.source, hpart.frame⟩
  · rw [hwhole hle]
    have hpart := fnStringY_part (x := x) h'
    exact ⟨_, rfl, hpart.part, hpart.source, hpart.frame⟩
  · have hpart := hcopy _ rfl (Nat.not_le.mp hle)
    exact ⟨_, rfl, hpart.part, hpart.source, hpart.frame⟩

theorem functionLeft_part (hs : evaluateNextString ev (resetTypeString m x) x = .ok (v, m₁))
    (hc : expectComma m₁ = .ok m₂) (hn : evaluateNextInteger ev m₂ x = .ok (n, m₃))
    (hy : n.y = 0) (hb : expectRightBracket m₃ = .ok m₄) (h : m₄.Delivers v.a s) :
    ∃ m', functionLeft ev m x = .ok m' ∧ m₄.HasPart x v.a s (leftOf s n.a) m' := by
  refine leftRight_part hs hc hn hy hb h List.take_nil List.take_of_length_le ?_
  rintro m₅ rfl hlt
  have h' : Machine.Delivers { m₄ with dTemp1 := n.a } v.a s := h.of_eq rfl rfl rfl
  have hbound := h.bound
  rw [add16_eq (by omega)]
  exact fndTemp1Characters_part h' (i := 0) (by rw [Nat.zero_add]; exact hlt.le)

theorem functionRight_part (hs : evaluateNextString ev (resetTypeString m x) x = .ok (v, m₁))
    (hc : expectComma m₁ = .ok m₂) (hn : evaluateNextInteger ev m₂ x = .ok (n, m₃))
    (hy : n.y = 0) (hb : expectRightBracket m₃ = .ok m₄) (h : m₄.Delivers v.a s) :
    ∃ m', functionRight ev m x = .ok m' ∧ m₄.HasPart x v.a s (rightOf s n.a) m' := by
  refine leftRight_part hs hc hn hy hb h List.drop_nil ?_ ?_
  · intro hle
    rw [rightOf, Nat.sub_eq_zero_of_le hle, List.drop_zero]
  rintro m₅ rfl hlt
  dsimp only
  have h' : Machine.Delivers { m₄ with dTemp1 := n.a, dTemp1H := s.length - n.a } v.a s :=
    h.of_eq rfl rfl rfl
  have hbound := h.bound
  have hrest : (s.drop (s.length - n.a)).take n.a = rightOf s n.a := by
    rw [rightOf, List.take_of_length_le]
    rw [List.length_drop]
    omega
  rcases Nat.eq_zero_or_pos n.a with hzero | hpos
  · -- nothing is copied, and the place behind the string is not looked at
    rw [← hrest, hzero, List.take_zero, fndTemp1Characters, if_pos (hzero ▸ rfl)]
    have hpart := fnStringEmpty_part (x := x) h'
    rw [hzero] at hpart
    exact ⟨hpart.part, hpart.source, hpart.frame⟩
  rw [add16_eq (b := s.length - n.a) (by omega), add16_eq (by omega),
    show v.a + (s.length - n.a) + 1 = v.a + 1 + (s.length - n.a) by omega, ← hrest]
  have hpart := fndTemp1Characters_part (x := x) h' (i := s.length - n.a) (by dsimp only; omega)
  exact ⟨hpart.part, hpart.source, hpart.frame⟩

/-- `mid$(`, when `DTemp1` is the count. -/
theorem functionMid_part {m₅ m₆ : Machine}
    (hs : evaluateNextString ev (resetTypeString m x) x = .ok (v, m₁))
    (hc : expectComma m₁ = .ok m₂) (hn : evaluateNextInteger ev m₂ x = .ok (n, m₃))
    (hy : n.y = 0) (ha : n.a ≠ 0) (hm : midCount ev m₃ x = .ok m₅)
    (hb : expectRightBracket m₅ = .ok m₆) (h : m₆.Delivers v.a s) :
    ∃ m', functionMid ev m x = .ok m' ∧ m₆.HasPart x v.a s (midOf s n.a m₅.dTemp1) m' := by
  have hcount : m₆.dTemp1 = m₅.dTemp1 := by
    rw [expectToken_eq hb]
    rfl
  have hlen : m₆.bank.byte v.a = s.length := h.stringAt.1
  have hbound := h.bound
  unfold functionMid
  simp only [hs, hc, hn, hm, hb, ok_bind]
  rw [if_neg (not_not.mpr hy), if_neg ha, hlen, hcount]
  split_ifs with hlt hle
  · -- the position lies behind the string
    have h' : Machine.Delivers { m₆ with dTemp2 := n.a } v.a s := h.of_eq rfl rfl rfl
    have hnil : midOf s n.a m₅.dTemp1 = [] := by
      rw [midOf, List.drop_eq_nil_of_le (by omega), List.take_nil]
    have hpart := fnStringEmpty_part (x := x) h'
    rw [hnil]
    exact ⟨_, rfl, hpart.part, hpart.source, hpart.frame⟩
  · have h' : Machine.Delivers { m₆ with dTemp2 := n.a } v.a s := h.of_eq rfl rfl rfl
    have hpart := fndTemp1Characters_part (x := x) h' (i := n.a - 1) (by dsimp only; omega)
    dsimp only at hpart
    rw [hcount, show v.a + 1 + (n.a - 1) = v.a + n.a by omega] at hpart
    rw [add16_eq (b := n.a) (by omega)]
    exact ⟨_, rfl, hpart.part, hpart.source, hpart.frame⟩
  · -- only what is available
    have h' : Machine.Delivers { m₆ with dTemp2 := n.a, dTemp1 := s.length - n.a + 1 } v.a s :=
      h.of_eq rfl rfl rfl
    have hpart := fndTemp1Characters_part (x := x) h' (i := n.a - 1) (by dsimp only; omega)
    have hall : (s.drop (n.a - 1)).take (s.length - n.a + 1) = midOf s n.a m₅.dTemp1 := by
      rw [midOf, List.take_of_length_le, List.take_of_length_le]
      · rw [List.length_drop]
        omega
      · rw [List.length_drop]
        omega
    dsimp only at hpart
    rw [hall, show v.a + 1 + (n.a - 1) = v.a + n.a by omega] at hpart
    rw [add16_eq (b := n.a) (by omega)]
    exact ⟨_, rfl, hpart.part, hpart.source, hpart.frame⟩

theorem midCount_default (h : m₃.token ≠ commaTokenID) :
    midCount ev m₃ x = .ok { m₃ with dTemp1 := 255 } := if_pos h

theorem midCount_given {k : Value} {m₅ : Machine} (h : m₃.token = commaTokenID)
    (hk : evaluateNextInteger ev { m₃ with dTemp1 := 255 }.skipToken x = .ok (k, m₅)) :
    midCount ev m₃ x =
      if k.y ≠ 0 then fail m₅ .badStringOperation else .ok { m₅ with dTemp1 := k.a } := by
  refine (if_neg (not_not.mpr h)).trans ?_
  rw [hk]
  rfl

/-- A count that is no word is an error. -/
theorem substring_bad_count (hs : evaluateNextString ev (resetTypeString m x) x = .ok (v, m₁))
    (hc : expectComma m₁ = .ok m₂) (hn : evaluateNextInteger ev m₂ x = .ok (n, m₃))
    (hy : n.y ≠ 0) : functionLeft ev m x = fail m₃ .badStringOperation ∧
      functionRight ev m x = fail m₃ .badStringOperation ∧
        functionMid ev m x = fail m₃ .badStringOperation := by
  refine ⟨(leftRight_eq hs hc hn).trans (if_pos hy), (leftRight_eq hs hc hn).trans (if_pos hy), ?_⟩
  unfold functionMid
  simp only [hs, hc, hn, ok_bind]
  exact if_pos hy

/-- So is the position 0. -/
theorem functionMid_zero (hs : evaluateNextString ev (resetTypeString m x) x = .ok (v, m₁))
    (hc : expectComma m₁ = .ok m₂) (hn : evaluateNextInteger ev m₂ x = .ok (n, m₃))
    (hy : n.y = 0) (ha : n.a = 0) : functionMid ev m x = fail m₃ .badStringOperation := by
  unfold functionMid
  simp only [hs, hc, hn, ok_bind]
  rw [if_neg (not_not.mpr hy), if_pos ha]

theorem functionMid_bad_count {k : Value} {m₅ : Machine}
    (hs : evaluateNextString ev (resetTypeString m x) x = .ok (v, m₁))
    (hc : expectComma m₁ = .ok m₂) (hn : evaluateNextInteger ev m₂ x = .ok (n, m₃))
    (hy : n.y = 0) (ha : n.a ≠ 0) (h : m₃.token = commaTokenID)
    (hk : evaluateNextInteger ev { m₃ with dTemp1 := 255 }.skipToken x = .ok (k, m₅))
    (hky : k.y ≠ 0) : functionMid ev m x = fail m₅ .badStringOperation := by
  have hcount := midCount_given h hk
  rw [if_pos hky] at hcount
  unfold functionMid
  simp only [hs, hc, hn, hcount, ok_bind, fail_bind]
  rw [if_neg (not_not.mpr hy), if_neg ha]

/-! ## The three functions -/

theorem leftOf_append_midOf (s : List ℕ) (j k : ℕ) (hk : s.length ≤ k) :
    leftOf s j ++ midOf s (j + 1) k = s := by
  have hrest : (s.drop j).length ≤ k := by
    rw [List.length_drop]
    omega
  rw [leftOf, midOf, Nat.add_sub_cancel, List.take_of_length_le hrest, List.take_append_drop]

theorem leftOf_append_rightOf (s : List ℕ) (j : ℕ) : leftOf s (s.length - j) ++ rightOf s j = s :=
  List.take_append_drop _ s

/-- **The substring functions.** The arguments have been evaluated to the string at `v.a` and the count
`n`; the third argument of `mid$(`, if there is one, to `k`. -/
theorem substrings (ev : Evaluator) (m : Machine) (x : ℕ) {m₁ m₂ m₃ : Machine} {v n : Value}
    (hs : evaluateNextString ev (resetTypeString m x) x = .ok (v, m₁))
    (hc : expectComma m₁ = .ok m₂) (hn : evaluateNextInteger ev m₂ x = .ok (n, m₃))
    (hv : Long.Valid (n.a, n.y)) :
    let count := signedLong (n.a, n.y)
    -- errors
    (¬ (0 ≤ count ∧ count ≤ 65535) → functionLeft ev m x = fail m₃ .badStringOperation ∧
      functionRight ev m x = fail m₃ .badStringOperation) ∧
    (¬ (1 ≤ count ∧ count ≤ 65535) → functionMid ev m x = fail m₃ .badStringOperation) ∧
    -- without a third argument
    (0 ≤ count → count ≤ 65535 → ∀ m₄ s, expectRightBracket m₃ = .ok m₄ → m₄.Delivers v.a s →
      (∃ m', functionLeft ev m x = .ok m' ∧ m₄.HasPart x v.a s (leftOf s count.toNat) m') ∧
      (∃ m', functionRight ev m x = .ok m' ∧ m₄.HasPart x v.a s (rightOf s count.toNat) m') ∧
      (1 ≤ count → ∃ m', functionMid ev m x = .ok m' ∧
        m₄.HasPart x v.a s (s.drop (count.toNat - 1)) m')) ∧
    -- with a third argument
    (1 ≤ count → count ≤ 65535 → m₃.token = commaTokenID → ∀ k m₅,
      evaluateNextInteger ev { m₃ with dTemp1 := 255 }.skipToken x = .ok (k, m₅) →
      Long.Valid (k.a, k.y) →
      let third := signedLong (k.a, k.y)
      (¬ (0 ≤ third ∧ third ≤ 65535) → functionMid ev m x = fail m₅ .badStringOperation) ∧
      (0 ≤ third → third ≤ 65535 → ∀ m₆ s, expectRightBracket m₅ = .ok m₆ → m₆.Delivers v.a s →
        ∃ m', functionMid ev m x = .ok m' ∧
          m₆.HasPart x v.a s (midOf s count.toNat third.toNat) m')) ∧
    -- the parts make up the string
    ∀ s : List ℕ, s.length ≤ 255 → (∀ j, leftOf s j ++ midOf s (j + 1) 255 = s) ∧
      ∀ j ≤ s.length, leftOf s (s.length - j) ++ rightOf s j = s := by
  intro count
  have hcount := count_cases hv
  refine ⟨fun hbad => ?_, fun hbad => ?_, ?_, ?_, fun s hlen =>
    ⟨fun j => leftOf_append_midOf s j 255 hlen, fun j _ => leftOf_append_rightOf s j⟩⟩
  · have hy : n.y ≠ 0 := by
      obtain ⟨ha, -⟩ := hv
      dsimp only at ha
      omega
    obtain ⟨hleft, hright, -⟩ := substring_bad_count hs hc hn hy
    exact ⟨hleft, hright⟩
  · rcases hcount with ⟨hy, -⟩ | ⟨hy, heq⟩
    · exact (substring_bad_count hs hc hn hy).2.2
    · obtain ⟨ha, -⟩ := hv
      dsimp only at ha
      exact functionMid_zero hs hc hn hy (by omega)
  · intro h₀ h₁ m₄ s hb hd
    obtain ⟨hy, heq⟩ : n.y = 0 ∧ count = n.a := by
      rcases hcount with ⟨-, hno⟩ | h
      · exact absurd ⟨h₀, h₁⟩ hno
      · exact h
    rw [heq, Int.toNat_natCast]
    refine ⟨functionLeft_part hs hc hn hy hb hd, functionRight_part hs hc hn hy hb hd, fun hpos => ?_⟩
    have htoken : m₃.token ≠ commaTokenID := by
      intro h
      unfold expectRightBracket expectToken at hb
      rw [h, if_neg (by decide)] at hb
      cases hb
    have hd' : Machine.Delivers { m₄ with dTemp1 := 255 } v.a s := hd.of_eq rfl rfl rfl
    obtain ⟨m', hrun, hpart⟩ := functionMid_part hs hc hn hy (by omega) (midCount_default htoken)
      (expectRightBracket_dTemp1 hb 255) hd'
    have hrest : midOf s n.a 255 = s.drop (n.a - 1) := by
      have hlt := hd.length_lt
      rw [midOf, List.take_of_length_le]
      rw [List.length_drop]
      omega
    dsimp only at hpart
    rw [hrest] at hpart
    exact ⟨m', hrun, hpart.part, hpart.source, hpart.frame⟩
  · intro h₀ h₁ htoken k m₅ hk hkv third
    obtain ⟨hy, heq⟩ : n.y = 0 ∧ count = n.a := by
      rcases hcount with ⟨-, hno⟩ | h
      · exact absurd ⟨by omega, h₁⟩ hno
      · exact h
    have hgiven := midCount_given htoken hk
    rcases count_cases hkv with ⟨hky, hno⟩ | ⟨hky, hkeq⟩
    · exact ⟨fun _ => functionMid_bad_count hs hc hn hy (by omega) htoken hk hky,
        fun h h' => absurd ⟨h, h'⟩ hno⟩
    refine ⟨fun hbad => ?_, fun _ _ m₆ s hb hd => ?_⟩
    · obtain ⟨ha, -⟩ := hkv
      dsimp only at ha
      exact absurd ⟨by omega, by omega⟩ hbad
    rw [if_neg (not_not.mpr hky)] at hgiven
    have hd' : Machine.Delivers { m₆ with dTemp1 := k.a } v.a s := hd.of_eq rfl rfl rfl
    obtain ⟨m', hrun, hpart⟩ := functionMid_part hs hc hn hy (by omega) hgiven
      (expectRightBracket_dTemp1 hb k.a) hd'
    rw [heq, show third = k.a from hkeq, Int.toNat_natCast, Int.toNat_natCast]
    exact ⟨m', hrun, hpart.part, hpart.source, hpart.frame⟩

end

/-- The two arguments of a function, one after the other. -/
def substringArguments (ev : Evaluator) (m : Machine) (x : ℕ) :
    Result ((Value × Machine) × Machine × (Value × Machine) × Machine) := do
  let s ← evaluateNextString ev (resetTypeString m x) x
  let m₂ ← expectComma s.2
  let n ← evaluateNextInteger ev m₂ x
  let m₄ ← expectRightBracket n.2
  .ok (s, m₂, n, m₄)

/-- `left$("ABC", 2)`, behind the opening bracket. -/
theorem substrings_left : ∃ m', functionLeft (evaluateLevel Handler.routine 3)
      (commandMachine [6, 0x4103, 0x4342, commaTokenID, 0x4002, rparenTokenID, 0]) 0xD0 = .ok m' ∧
    m'.bank.StringAt (m'.value 0xD0).1 [65, 66] := by
  obtain ⟨⟨⟨v, m₁⟩, m₂, ⟨n, m₃⟩, m₄⟩, hrun, hv, hn, hstring, hplace, hroom, htop⟩ :=
    Except.exists_of_check
      (r := substringArguments (evaluateLevel Handler.routine 3)
        (commandMachine [6, 0x4103, 0x4342, commaTokenID, 0x4002, rparenTokenID, 0]) 0xD0)
      (P := fun r => r.1.1.a = 0x4102 ∧ (r.2.2.1.1.a, r.2.2.1.1.y) = (2, 0) ∧
        r.2.2.2.bank.StringAt 0x4102 [65, 66, 67] ∧ 0x4105 < r.2.2.2.block blockLowMemoryPtr ∧
        r.2.2.2.block blockLowMemoryPtr + 3 + 1 ≤ r.2.2.2.tempTop ∧ r.2.2.2.tempTop < 0x10000)
      (by rfl)
  obtain ⟨a₁, hs, h⟩ := Except.bind_eq_ok.mp hrun
  obtain ⟨a₂, hc, h⟩ := Except.bind_eq_ok.mp h
  obtain ⟨a₃, hi, h⟩ := Except.bind_eq_ok.mp h
  obtain ⟨a₄, hb, h⟩ := Except.bind_eq_ok.mp h
  cases h
  dsimp only at hv hn hstring hplace hroom htop
  have hvalid : Long.Valid (n.a, n.y) := by
    rw [hn]
    exact ⟨by decide, by decide⟩
  have hdelivers : m₄.Delivers v.a [65, 66, 67] :=
    ⟨hv ▸ hstring, by rw [hv]; decide, .inl (by rw [hv]; exact hplace), hroom, htop⟩
  have hcount : signedLong (n.a, n.y) = 2 := by
    rw [hn]
    decide
  obtain ⟨-, -, hparts, -⟩ := substrings _ _ 0xD0 hs hc hi hvalid
  obtain ⟨⟨m', hleft, hpart⟩, -⟩ :=
    hparts (by rw [hcount]; decide) (by rw [hcount]; decide) m₄ [65, 66, 67] hb hdelivers
  rw [hcount] at hpart
  exact ⟨m', hleft, hpart.part⟩

end Basic65816
