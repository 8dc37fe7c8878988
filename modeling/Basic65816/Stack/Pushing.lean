import Basic65816.Stack.Statements

/-!
# Pushing and popping frames

Each kind of frame is written above the stack and read back from its top. A local string is pushed
character by character, from the last to the first, so its frame ends at an address that depends on
its length.

## Main results

* `frames_pushFrame`, `frames_lpvIntegerPush`, `frames_lpvStringPush`: pushing
* `frames_popFrame`, `frames_lrIntegerPull`, `frames_lrString`: popping
-/

namespace Basic65816

section

variable {m m' : Machine} {fs : List StackFrame} {code v x y : ℕ}

theorem Machine.Frames.le (hf : m.Frames fs) : basStack ≤ m.dStack := Memory.Frames.le hf

/-- A frame above the others. -/
theorem frames_cons {f : StackFrame} (hf : m.Frames fs) (hs : m'.dStack = m.dStack + f.size)
    (hp : ∀ a < m.dStack + 2, m'.page a = m.page a) (h : m'.page.FrameAt m'.dStack f) :
    m'.Frames (f :: fs) := by
  have hle := hf.le
  refine ⟨by omega, h, ?_⟩
  rw [hs, Nat.add_sub_cancel]
  exact Memory.Frames.congr hf hp

/-- The frames below the top one. -/
theorem frames_tail {f : StackFrame} (hf : m.Frames (f :: fs)) (hs : m'.dStack = m.dStack - f.size)
    (hp : m'.page = m.page) : m'.Frames fs := by
  unfold Machine.Frames
  rw [hs, hp]
  exact hf.2.2

theorem Machine.dp_setDp_mod (m : Machine) (a v : ℕ) : (m.setDp a v).dp a = v % 0x10000 :=
  Memory.word_setWord_mod _ _ _

theorem Machine.page_setDp (m : Machine) {a b : ℕ} (h : b < a ∨ a + 2 ≤ b) :
    (m.setDp a v).page b = m.page b :=
  Memory.setWord_of_ne (by omega) (by omega)

theorem dStack_pushFrame (hm : m.InSpace) (code token : ℕ) :
    (m.pushFrame code token).dStack = m.dStack + 6 := by
  have hs : m.dStack < 0x200 := hm
  exact add16_eq (by omega)

/-- **Pushing a code pointer and the line number.** -/
theorem frames_pushFrame (hf : m.Frames fs) (hm : m.InSpace) (code : ℕ) (kind : BlockKind) :
    (m.pushFrame code kind.token).Frames
      (.block kind (code % 0x10000) (m.dLineNumber % 0x10000) :: fs) := by
  have hd := dStack_pushFrame hm code kind.token
  have htoken : kind.token < 0x10000 := by cases kind <;> decide
  refine frames_cons hf hd (fun a ha => ?_) ⟨?_, ?_, ?_⟩
  · refine (Machine.page_setDp _ (.inl (by omega))).trans ?_
    refine (Machine.page_setDp _ (.inl (by omega))).trans ?_
    exact Machine.page_setDp _ (.inl (by omega))
  · rw [hd]
    exact Machine.dp_setDp htoken
  · rw [hd, show m.dStack + 6 - 2 = m.dStack + 4 by omega]
    refine (Machine.dp_setDp_of_disjoint (.inl (by omega))).trans ?_
    exact Machine.dp_setDp_mod _ _ _
  · rw [hd, show m.dStack + 6 - 4 = m.dStack + 2 by omega]
    refine (Machine.dp_setDp_of_disjoint (.inl (by omega))).trans ?_
    refine (Machine.dp_setDp_of_disjoint (.inl (by omega))).trans ?_
    exact Machine.dp_setDp_mod _ _ _

/-- The top frame is of the kind whose marker the stack pointer points at. -/
theorem frames_top (hf : m.Frames fs) {k : FrameKind} (h : m.dp m.dStack = k.marker) :
    ∃ f fs', fs = f :: fs' ∧ f.kind = k := by
  cases fs with
  | nil => exact absurd (h.symm.trans hf.2) k.marker_ne_zero
  | cons f fs => exact ⟨f, fs, rfl, FrameKind.marker_inj (hf.2.1.1.symm.trans h)⟩

theorem frames_marker {f : StackFrame} (hf : m.Frames (f :: fs)) : m.dp m.dStack = f.kind.marker :=
  hf.2.1.1

/-- Without a frame of the kind on top, its marker is not there. -/
theorem frames_ne {k : FrameKind} (hf : m.Frames fs) (h : ∀ f fs', fs = f :: fs' → f.kind ≠ k) :
    m.dp m.dStack ≠ k.marker := by
  intro heq
  obtain ⟨f, fs', rfl, hk⟩ := frames_top hf heq
  exact h f fs' rfl hk

theorem frames_sub {f : StackFrame} (hf : m.Frames (f :: fs)) (hm : m.InSpace) :
    sub16 m.dStack f.size = m.dStack - f.size := by
  have hle : basStack + f.size ≤ m.dStack := hf.1
  have hs : m.dStack < 0x200 := hm
  exact sub16_eq (by omega) (by omega)

/-- **Popping a code pointer and a line number.** -/
theorem frames_popFrame {kind : BlockKind} {line : ℕ} (hf : m.Frames (.block kind code line :: fs))
    (hm : m.InSpace) :
    m.popFrame.Frames fs ∧ m.popFrame.dCodePtr = code ∧ m.popFrame.dLineNumber = line := by
  have hsub := frames_sub hf hm
  change sub16 m.dStack 6 = m.dStack - 6 at hsub
  have hle : basStack + 6 ≤ m.dStack := hf.1
  obtain ⟨-, hline, hcode⟩ := id hf.2.1
  refine ⟨frames_tail hf hsub (by simp only [Machine.popFrame]), ?_, ?_⟩
  · change m.dp (sub16 m.dStack 6 + 2) = code
    rw [hsub, show m.dStack - 6 + 2 = m.dStack - 4 by omega]
    exact hcode
  · change m.dp (sub16 m.dStack 6 + 4) = line
    rw [hsub, show m.dStack - 6 + 4 = m.dStack - 2 by omega]
    exact hline

/-! ## Loops and local integers -/

/-- Push four words. -/
def Machine.pushWords (m : Machine) (v₁ v₂ v₃ v₄ : ℕ) : Machine :=
  { (((m.setDp (m.dStack + 2) v₁).setDp (m.dStack + 4) v₂).setDp (m.dStack + 6) v₃).setDp
      (m.dStack + 8) v₄ with dStack := add16 m.dStack 8 }

section

variable {v₁ v₂ v₃ v₄ : ℕ}

theorem dStack_pushWords (hm : m.InSpace) (v₁ v₂ v₃ v₄ : ℕ) :
    (m.pushWords v₁ v₂ v₃ v₄).dStack = m.dStack + 8 := by
  have hs : m.dStack < 0x200 := hm
  exact add16_eq (by omega)

theorem dCodePtr_pushWords : (m.pushWords v₁ v₂ v₃ v₄).dCodePtr = m.dCodePtr := by
  simp only [Machine.pushWords, Machine.setDp]

theorem bank_pushWords : (m.pushWords v₁ v₂ v₃ v₄).bank = m.bank := by
  simp only [Machine.pushWords, Machine.setDp]

theorem page_pushWords {a : ℕ} (ha : a < m.dStack + 2) :
    (m.pushWords v₁ v₂ v₃ v₄).page a = m.page a := by
  refine (Machine.page_setDp _ (.inl (by omega))).trans ?_
  refine (Machine.page_setDp _ (.inl (by omega))).trans ?_
  refine (Machine.page_setDp _ (.inl (by omega))).trans ?_
  exact Machine.page_setDp _ (.inl (by omega))

theorem dp_pushWords (hm : m.InSpace) (v₁ v₂ v₃ v₄ : ℕ) :
    let m' := m.pushWords v₁ v₂ v₃ v₄
    m'.dp m'.dStack = v₄ % 0x10000 ∧ m'.dp (m'.dStack - 2) = v₃ % 0x10000 ∧
      m'.dp (m'.dStack - 4) = v₂ % 0x10000 ∧ m'.dp (m'.dStack - 6) = v₁ % 0x10000 := by
  intro m'
  have hd : m'.dStack = m.dStack + 8 := dStack_pushWords hm v₁ v₂ v₃ v₄
  rw [hd, show m.dStack + 8 - 2 = m.dStack + 6 by omega,
    show m.dStack + 8 - 4 = m.dStack + 4 by omega, show m.dStack + 8 - 6 = m.dStack + 2 by omega]
  refine ⟨Machine.dp_setDp_mod _ _ _, ?_, ?_, ?_⟩
  · refine (Machine.dp_setDp_of_disjoint (.inl (by omega))).trans ?_
    exact Machine.dp_setDp_mod _ _ _
  · refine (Machine.dp_setDp_of_disjoint (.inl (by omega))).trans ?_
    refine (Machine.dp_setDp_of_disjoint (.inl (by omega))).trans ?_
    exact Machine.dp_setDp_mod _ _ _
  · refine (Machine.dp_setDp_of_disjoint (.inl (by omega))).trans ?_
    refine (Machine.dp_setDp_of_disjoint (.inl (by omega))).trans ?_
    refine (Machine.dp_setDp_of_disjoint (.inl (by omega))).trans ?_
    exact Machine.dp_setDp_mod _ _ _

/-- A `for` frame. -/
theorem frames_pushLoop (hf : m.Frames fs) (hm : m.InSpace) :
    (m.pushWords v₁ v₂ v₃ forTokenID).Frames
      (.loop (v₁ % 0x10000) (v₂ % 0x10000) (v₃ % 0x10000) :: fs) := by
  obtain ⟨h₄, h₃, h₂, h₁⟩ := dp_pushWords hm v₁ v₂ v₃ forTokenID
  exact frames_cons hf (dStack_pushWords hm _ _ _ _) (fun a ha => page_pushWords ha) ⟨h₄, h₃, h₂, h₁⟩

end

theorem frames_lpvIntegerPush (hf : m.Frames fs) (hm : m.InSpace) (y : ℕ) :
    (lpvIntegerPush m y).Frames
      (.integer (m.bank.word y) (m.bank.word (y + 2)) (y % 0x10000) :: fs) := by
  have heq : lpvIntegerPush m y = m.pushWords (m.bank.word y) (m.bank.word (y + 2)) y 0xC000 := rfl
  have hmod : ∀ a, m.bank.word a % 0x10000 = m.bank.word a := fun a =>
    Nat.mod_eq_of_lt (Memory.word_lt _ a)
  obtain ⟨h₄, h₃, h₂, h₁⟩ :=
    dp_pushWords hm (m.bank.word y) (m.bank.word (y + 2)) y 0xC000
  rw [hmod] at h₁ h₂
  rw [heq]
  exact frames_cons hf (dStack_pushWords hm _ _ _ _) (fun a ha => page_pushWords ha) ⟨h₄, h₃, h₂, h₁⟩

theorem frames_lrIntegerPull {low high var : ℕ} (hf : m.Frames (.integer low high var :: fs))
    (hm : m.InSpace) : (lrIntegerPull m).Frames fs ∧ (lrIntegerPull m).InSpace ∧
      (lrIntegerPull m).dLineNumber = m.dLineNumber := by
  have hsub := frames_sub hf hm
  change sub16 m.dStack 8 = m.dStack - 8 at hsub
  refine ⟨frames_tail hf hsub (by simp only [lrIntegerPull]), ?_, by simp only [lrIntegerPull]⟩
  change sub16 m.dStack 8 < 0x200
  rw [hsub]
  exact (Nat.sub_le _ _).trans_lt hm

/-! ## Local strings -/

/-- The bytes of a string are pushed from the last to the first. By induction on what is left. -/
theorem lpvPushOut_spec (n : ℕ) (m : Machine) (x : ℕ) (hx : x + n + 1 < 0x10000) :
    (lpvPushOut n m x).1 = x + n + 1 ∧ (lpvPushOut n m x).2.dStack = m.dStack ∧
      (∀ a < x, (lpvPushOut n m x).2.page a = m.page a) ∧
      ∀ i ≤ n, (lpvPushOut n m x).2.page.byte (x + (n - i)) = m.bank.byte (m.dTemp1 + i) := by
  induction n generalizing m x with
  | zero =>
    refine ⟨add16_eq hx, rfl, fun a ha => Machine.page_setDp _ (.inl ha), fun i hi => ?_⟩
    obtain rfl : i = 0 := by omega
    refine (Memory.byte_setWord_low _ _ _).trans ?_
    rw [Memory.word_mod]
    rfl
  | succ n ih =>
    obtain ⟨h₁, h₂, h₃, h₄⟩ := ih (m.setDp x (m.bank.word (m.dTemp1 + (n + 1)))) (x + 1) (by omega)
    rw [lpvPushOut, add16_eq (by omega)]
    refine ⟨by omega, h₂, fun a ha => ?_, fun i hi => ?_⟩
    · exact (h₃ a (by omega)).trans (Machine.page_setDp _ (.inl ha))
    · rcases Nat.lt_or_ge n i with hlt | hge
      · obtain rfl : i = n + 1 := by omega
        rw [Nat.sub_self]
        refine (Memory.byte_congr (h₃ x (Nat.lt_succ_self x))).trans ?_
        refine (Memory.byte_setWord_low _ _ _).trans ?_
        rw [Memory.word_mod]
      · have := h₄ i hge
        rwa [show x + 1 + (n - i) = x + (n + 1 - i) by omega] at this

/-- Bytes that are found one below the other. -/
theorem bytesDown_of_byte {page bank : Memory} {a b : ℕ} (n : ℕ) (hn : n ≤ a + 1)
    (h : ∀ i < n, page.byte (a - i) = bank.byte (b + i)) : page.BytesDown a (bank.bytes b n) := by
  induction n generalizing a b with
  | zero => trivial
  | succ n ih =>
    rw [Memory.bytes_succ]
    refine ⟨h 0 (Nat.succ_pos n), ?_⟩
    rcases Nat.eq_zero_or_pos n with rfl | hpos
    · trivial
    · refine ih (by omega) fun i hi => ?_
      rw [show a - 1 - i = a - (i + 1) by omega, show b + 1 + i = b + (i + 1) by omega]
      exact h (i + 1) (by omega)

/-- The frame of the string variable whose data is at `y`. -/
def Machine.stringFrame (m : Machine) (y : ℕ) : StackFrame :=
  .string (m.bank.bytes (m.bank.word y + 1) (m.bank.byte (m.bank.word y))) (y % 0x10000)

/-- A string variable that was never assigned leaves no frame. -/
theorem lpvStringPush_zero (h : m.bank.word y = 0) : lpvStringPush m y = m := if_pos h

theorem frames_lpvStringPush (hf : m.Frames fs) (hm : m.InSpace) (h : m.bank.word y ≠ 0) :
    (lpvStringPush m y).Frames (m.stringFrame y :: fs) := by
  have hs : m.dStack < 0x200 := hm
  have hb := m.bank.byte_lt (m.bank.word y)
  obtain ⟨n, hn⟩ : ∃ n, n = m.bank.byte (m.bank.word y) := ⟨_, rfl⟩
  obtain ⟨m₁, hm₁⟩ : ∃ m₁ : Machine, m₁ = { m with dTemp1 := m.bank.word y } := ⟨_, rfl⟩
  obtain ⟨h₁, h₂, h₃, h₄⟩ := lpvPushOut_spec n m₁ (m.dStack + 2) (by omega)
  obtain ⟨x, hx⟩ : ∃ x, x = (lpvPushOut n m₁ (m.dStack + 2)).1 := ⟨_, rfl⟩
  obtain ⟨m₂, hm₂⟩ : ∃ m₂, m₂ = (lpvPushOut n m₁ (m.dStack + 2)).2 := ⟨_, rfl⟩
  have heq : lpvStringPush m y = { (m₂.setDp x y).setDp (x + 2) 0xE000 with dStack := add16 x 2 } := by
    rw [lpvStringPush, if_neg h, hx, hm₂, hn, hm₁, ← add16_eq (a := m.dStack) (b := 2) (by omega)]
  rw [← hx] at h₁
  rw [← hm₂] at h₂ h₃ h₄
  have hpage : ∀ a < m.dStack + 2 + n + 1, (lpvStringPush m y).page a = m₂.page a := fun a ha => by
    rw [heq]
    refine (Machine.page_setDp _ (.inl (by omega))).trans ?_
    exact Machine.page_setDp _ (.inl (by omega))
  have hd : (lpvStringPush m y).dStack = m.dStack + n + 5 := by
    rw [heq]
    change add16 x 2 = _
    rw [add16_eq (by omega)]
    omega
  have hchars : (m.bank.bytes (m.bank.word y + 1) (m.bank.byte (m.bank.word y))).length = n := by
    rw [Memory.length_bytes, hn]
  have hbytes : ∀ i ≤ n, (lpvStringPush m y).page.byte (m.dStack + 2 + (n - i)) =
      m.bank.byte (m.bank.word y + i) := fun i hi => by
    rw [Memory.byte_congr (hpage _ (by omega)), h₄ i hi, hm₁]
  refine frames_cons hf (hd.trans ?_) (fun a ha => ?_) ⟨?_, ?_, ?_, ?_⟩
  · rw [Machine.stringFrame, StackFrame.size, hchars]
    omega
  · rw [hpage a (by omega), h₃ a ha, hm₁]
  · rw [hd, heq, show m.dStack + n + 5 = x + 2 by omega]
    exact Machine.dp_setDp (by decide)
  · rw [hd, heq, show m.dStack + n + 5 - 2 = x by omega]
    refine (Machine.dp_setDp_of_disjoint (.inl (by omega))).trans ?_
    exact Machine.dp_setDp_mod _ _ _
  · rw [hd, hchars, show m.dStack + n + 5 - 3 = m.dStack + 2 + (n - 0) by omega, hbytes 0 (by omega), hn]
    rfl
  · rw [hd, ← hn]
    refine bytesDown_of_byte n (by omega) fun i hi => ?_
    rw [show m.dStack + n + 5 - 4 - i = m.dStack + 2 + (n - (i + 1)) by omega, hbytes (i + 1) hi,
      show m.bank.word y + 1 + i = m.bank.word y + (i + 1) by omega]

/-- Restoring a string reads the stack only. -/
theorem lrRecover_spec (n : ℕ) (m : Machine) (x : ℕ) (hx : n + 1 ≤ x) (hlt : x < 0x10000) :
    (lrRecover n m x).1 = x - (n + 1) ∧ (lrRecover n m x).2.page = m.page ∧
      (lrRecover n m x).2.dLineNumber = m.dLineNumber := by
  induction n generalizing m x with
  | zero => exact ⟨sub16_eq hlt (by omega), rfl, rfl⟩
  | succ n ih =>
    rw [lrRecover, sub16_eq hlt (by omega)]
    obtain ⟨h₁, h₂⟩ := ih { m with
      bank := m.bank.setByte m.dTemp1 (m.dp x), dTemp1 := add16 m.dTemp1 1 } (x - 1)
      (by omega) (by omega)
    exact ⟨by omega, h₂⟩

theorem frames_lrString {chars : List ℕ} {var : ℕ} (hf : m.Frames (.string chars var :: fs))
    (hm : m.InSpace) : (lrString m).Frames fs ∧ (lrString m).InSpace ∧
      (lrString m).dLineNumber = m.dLineNumber := by
  have hs : m.dStack < 0x200 := hm
  have hle : basStack + (chars.length + 5) ≤ m.dStack := hf.1
  obtain ⟨-, -, hlen, -⟩ := id hf.2.1
  have hc : chars.length < 256 := hlen ▸ m.page.byte_lt _
  obtain ⟨m₁, hm₁⟩ : ∃ m₁ : Machine,
    m₁ = { m with dTemp1 := m.bank.word (m.dp (sub16 m.dStack 2)) } := ⟨_, rfl⟩
  have hx : sub16 (sub16 m.dStack 2) 1 = m.dStack - 3 := by
    rw [sub16_eq (a := m.dStack) (by omega) (by omega), sub16_eq (by omega) (by omega)]
    omega
  have hcount : m₁.dp (m.dStack - 3) % 256 = chars.length := by
    rw [hm₁]
    exact (Memory.word_mod _ _).trans hlen
  obtain ⟨h₁, h₂, h₃⟩ := lrRecover_spec chars.length m₁ (m.dStack - 3) (by omega) (by omega)
  have heq : lrString m = { (lrRecover chars.length m₁ (m.dStack - 3)).2 with
      dStack := sub16 (lrRecover chars.length m₁ (m.dStack - 3)).1 1 } := by
    rw [← hcount, ← hx, hm₁]
    rfl
  have hd : (lrString m).dStack = m.dStack - (chars.length + 5) := by
    rw [heq]
    change sub16 _ 1 = _
    rw [h₁, sub16_eq (by omega) (by unfold basStack at hle; omega)]
    omega
  refine ⟨frames_tail hf hd ?_, ?_, ?_⟩
  · rw [heq]
    exact h₂.trans (by rw [hm₁])
  · unfold Machine.InSpace
    omega
  · rw [heq]
    exact h₃.trans (by rw [hm₁])

end

end Basic65816
