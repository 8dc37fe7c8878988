import Basic65816.Strings.Substring

/-!
# `chr$(` and `spc(`

Both functions look at the high word of their argument only. The string is allocated by the low byte of
the low word, while `spc(` counts with the whole low word.

## Main definitions

* `Machine.Filled`, `Fills`: a new string and the limits of the argument

## Main results

* `written_spcLoop`: the spaces
* `chr_spc_limits`: when the limits are kept
-/

namespace Basic65816

/-- The string `r` is delivered in the slot at `x`, in a block of its own that ends where the free room
for temporary strings has ended. Nothing outside the block is written. -/
structure Machine.Filled (m : Machine) (x : ℕ) (r : List ℕ) (m' : Machine) : Prop where
  string : m'.bank.StringAt (m'.value x).1 r
  block : (m'.value x).1 + r.length + 1 = m.tempTop
  frame : Memory.EqOff (m'.value x).1 m.tempTop m.bank m'.bank

/-- A function of the number `n` makes the string `r n` for a byte, and ends in the error `e` for every
other number. -/
def Fills (m : Machine) (x : ℕ) (n : ℤ) (r : ℕ → List ℕ) (e : Error) (result : Result Machine) : Prop :=
  if 0 ≤ n ∧ n ≤ 255 then ∃ m', result = .ok m' ∧ m.Filled x (r n.toNat) m' else result = fail m e

variable {m m₁ m₂ : Machine} {p t x : ℕ} {s r : List ℕ}

/-- The loop of `spc(`. By induction on the count. -/
theorem written_spcLoop (h : m.Written p s t m₁) (k : ℕ) (hk : s.length + k ≤ t) (ht : p + t < 0x10000) :
    m.Written p (s ++ List.replicate k 32) t ((fun m => stringWriteCharacter m 32)^[k] m₁) := by
  induction k generalizing s m₁ with
  | zero =>
    rw [List.replicate_zero, List.append_nil]
    exact h
  | succ k ih =>
    have hnext := ih (written_stringWriteCharacter h (by omega) ht 32)
      (by rw [List.length_append, List.length_singleton]; omega)
    rw [List.append_assoc] at hnext
    exact hnext

/-- The address of a finished string is delivered. -/
theorem Machine.Written.filled (h : m.Written p r t m₁) (hr : r.length = t)
    (hp : p + t + 1 = m.tempTop) (htop : m.tempTop < 0x10000) (ht : t < 256) :
    m.Filled x r (m₁.setValue x (m₁.dStartTempString, 0)) := by
  have hstart : ((m₁.setValue x (m₁.dStartTempString, 0)).value x).1 = p := by
    have hlt : m₁.dStartTempString < 0x10000 := by
      rw [h.start]
      omega
    rw [Machine.value_setValue ⟨hlt, Nat.zero_lt_succ _⟩]
    exact h.start
  refine ⟨?_, ?_, ?_⟩
  · rw [hstart]
    exact h.stringAt (hr ▸ ht)
  · rw [hstart, hr]
    exact hp
  · rw [hstart, ← hp]
    exact h.bank

/-- The block that is allocated for a string of at most 255 characters. -/
theorem block_eq {k : ℕ} (hk : k < 256) (hroom : 256 ≤ m.tempTop) (htop : m.tempTop < 0x10000) :
    add16 m.tempTop (0xFFFF - k % 256) + k + 1 = m.tempTop := by
  unfold add16
  omega

/-- A function whose argument is checked for a zero high word. -/
theorem fills_iff {n : Value} {f : Result Machine} {e : Error} {c : ℕ → List ℕ}
    (hv : Long.Valid (n.a, n.y)) (hhigh : n.y ≠ 0 → f = fail m e) (hlow : n.y = 0 → ∃ m', f = .ok m')
    (hfill : n.y = 0 → n.a < 256 → ∃ m', f = .ok m' ∧ m.Filled x (c n.a) m') :
    Fills m x (signedLong (n.a, n.y)) c e f ↔
      ¬ (256 ≤ signedLong (n.a, n.y) ∧ signedLong (n.a, n.y) ≤ 65535) := by
  unfold Fills
  rcases count_cases hv with ⟨hy, hno⟩ | ⟨hy, heq⟩
  · rw [if_neg (fun h => hno ⟨h.1, by omega⟩), hhigh hy]
    exact iff_of_true rfl fun h => hno ⟨by omega, h.2⟩
  · obtain ⟨ha, -⟩ := hv
    dsimp only at ha
    rw [heq, Int.toNat_natCast]
    by_cases hbyte : n.a < 256
    · rw [if_pos (by omega)]
      exact iff_of_true (hfill hy hbyte) (by omega)
    · rw [if_neg (by omega)]
      obtain ⟨m', hm'⟩ := hlow hy
      refine iff_of_false (fun h => ?_) (by omega)
      rw [hm'] at h
      cases h

section

variable {ev : Evaluator} {n : Value}

theorem functionChr_eq (hn : evaluateNextInteger ev (resetTypeString m x) x = .ok (n, m₁))
    (hb : expectRightBracket m₁ = .ok m₂) : functionChr ev m x =
      if n.y ≠ 0 then fail m₂ .badChr
      else .ok ((stringWriteCharacter (stringTempAllocate m₂ 1) n.a).setValue x
        ((stringWriteCharacter (stringTempAllocate m₂ 1) n.a).dStartTempString, 0)) := by
  unfold functionChr
  simp only [hn, hb, ok_bind]

theorem functionSpc_eq (hn : evaluateNextInteger ev (resetTypeString m x) x = .ok (n, m₁))
    (hb : expectRightBracket m₁ = .ok m₂) : functionSpc ev m x =
      if n.y ≠ 0 then fail m₂ .badSpc
      else .ok (((fun m => stringWriteCharacter m 32)^[n.a] (stringTempAllocate m₂ n.a)).setValue x
        (((fun m => stringWriteCharacter m 32)^[n.a] (stringTempAllocate m₂ n.a)).dStartTempString,
          0)) := by
  unfold functionSpc
  simp only [hn, hb, ok_bind]

/-- **The limits of `chr$(` and `spc(`** are kept exactly for the numbers that are not between 256 and
65535, whose high word is clear too. The argument has been evaluated to the number. -/
theorem chr_spc_limits (ev : Evaluator) (m : Machine) (x : ℕ) {m₁ m₂ : Machine} {n : Value}
    (hn : evaluateNextInteger ev (resetTypeString m x) x = .ok (n, m₁))
    (hb : expectRightBracket m₁ = .ok m₂) (hv : Long.Valid (n.a, n.y)) (hroom : 256 ≤ m₂.tempTop)
    (htop : m₂.tempTop < 0x10000) :
    let number := signedLong (n.a, n.y)
    (Fills m₂ x number (fun c => [c]) .badChr (functionChr ev m x) ↔
      ¬ (256 ≤ number ∧ number ≤ 65535)) ∧
    (Fills m₂ x number (fun k => List.replicate k 32) .badSpc (functionSpc ev m x) ↔
      ¬ (256 ≤ number ∧ number ≤ 65535)) := by
  intro number
  constructor
  · rw [functionChr_eq hn hb]
    refine fills_iff hv (fun hy => if_pos hy) (fun hy => ⟨_, if_neg (not_not.mpr hy)⟩)
      (fun hy hlt => ⟨_, if_neg (not_not.mpr hy), ?_⟩)
    have hplace := block_eq (k := 1) (by decide) hroom htop
    have hw := written_stringWriteCharacter (written_stringTempAllocate m₂ 1 1) (by decide) (by omega)
      n.a
    rw [List.nil_append, Nat.mod_eq_of_lt hlt] at hw
    exact hw.filled rfl hplace htop (by decide)
  · rw [functionSpc_eq hn hb]
    refine fills_iff hv (fun hy => if_pos hy) (fun hy => ⟨_, if_neg (not_not.mpr hy)⟩)
      (fun hy hlt => ⟨_, if_neg (not_not.mpr hy), ?_⟩)
    have hplace := block_eq hlt hroom htop
    have hw := written_spcLoop (written_stringTempAllocate m₂ n.a n.a) n.a (by simp) (by omega)
    rw [List.nil_append] at hw
    exact hw.filled List.length_replicate hplace htop hlt

end

/-- The argument of a function, up to the closing bracket. -/
def functionArgument (ev : Evaluator) (m : Machine) (x : ℕ) : Result ((Value × Machine) × Machine) := do
  let n ← evaluateNextInteger ev (resetTypeString m x) x
  let m₂ ← expectRightBracket n.2
  .ok (n, m₂)

/-- `spc(2)` and `chr$(2)`, behind the opening bracket. -/
theorem chr_spc_limits_two : ∃ m₁ m₂,
    functionChr (evaluateLevel Handler.routine 3) (commandMachine [0x4002, rparenTokenID, 0]) 0xD0 =
      .ok m₁ ∧ m₁.bank.StringAt (m₁.value 0xD0).1 [2] ∧
    functionSpc (evaluateLevel Handler.routine 3) (commandMachine [0x4002, rparenTokenID, 0]) 0xD0 =
      .ok m₂ ∧ m₂.bank.StringAt (m₂.value 0xD0).1 [32, 32] := by
  obtain ⟨⟨⟨n, m₁⟩, m₂⟩, hrun, hn, hroom, htop⟩ :=
    Except.exists_of_check
      (r := functionArgument (evaluateLevel Handler.routine 3)
        (commandMachine [0x4002, rparenTokenID, 0]) 0xD0)
      (P := fun r => (r.1.1.a, r.1.1.y) = (2, 0) ∧ 256 ≤ r.2.tempTop ∧ r.2.tempTop < 0x10000)
      (by rfl)
  obtain ⟨a₁, h₁, h⟩ := Except.bind_eq_ok.mp hrun
  obtain ⟨a₂, h₂, h⟩ := Except.bind_eq_ok.mp h
  cases h
  dsimp only at hn hroom htop
  have hvalid : Long.Valid (n.a, n.y) := by
    rw [hn]
    exact ⟨by decide, by decide⟩
  obtain ⟨hchr, hspc⟩ := chr_spc_limits _ _ 0xD0 h₁ h₂ hvalid hroom htop
  rw [hn] at hchr hspc
  obtain ⟨c, hc, hcs⟩ := hchr.mpr (by decide)
  obtain ⟨s, hs, hss⟩ := hspc.mpr (by decide)
  exact ⟨c, s, hc, hcs.string, hs, hss.string⟩

/-- `chr$(256)` makes a string too, and so does `spc(256)`: its length byte is zero, and 256 spaces are
written above its block. -/
theorem chr_spc_wide : (∃ m', functionChr (evaluateLevel Handler.routine 3)
      (commandMachine [0x4100, rparenTokenID, 0]) 0xD0 = .ok m') ∧
    ∃ m', functionSpc (evaluateLevel Handler.routine 3) (commandMachine [0x4100, rparenTokenID, 0]) 0xD0 =
      .ok m' ∧ m'.bank.byte (m'.value 0xD0).1 = 0 ∧ m'.bank.byte ((m'.value 0xD0).1 + 256) = 32 := by
  refine ⟨?_, Except.exists_of_check (by decide +kernel)⟩
  obtain ⟨m', hm', -⟩ := Except.exists_of_check
    (r := functionChr (evaluateLevel Handler.routine 3) (commandMachine [0x4100, rparenTokenID, 0]) 0xD0)
    (P := fun _ => True) (by decide +kernel)
  exact ⟨m', hm'⟩

end Basic65816
