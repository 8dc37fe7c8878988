import Basic65816.Expression.Surroundings
import Basic65816.Strings.Open

/-!
# What the string functions ask for

A string function evaluates its arguments, asks for a place and writes its string there. The request
is the state in which it does so, the length it asks for, and the number of bytes that it goes on to
write behind the length byte. An evaluator that looks at every request first stops at those that do
not pass its check; where it succeeds, the evaluator of the interpreter does the same.

## Main definitions

* `StringRequest`, `Handler.request`: the request of a routine
* `Handler.checked`: the routines behind a check of their requests

## Main results

* `Handler.respects_checked`: what holds of every string that passes the check holds of an evaluation
-/

namespace Basic65816

/-- A request for a temporary string: the state in which it is made, the length that is asked for and
the number of bytes written behind the length byte. -/
structure StringRequest where
  state : Machine
  size : ℕ
  touched : ℕ

/-- The place of the string: only the low byte of the length counts. -/
def StringRequest.address (r : StringRequest) : ℕ :=
  add16 r.state.tempTop (0xFFFF - r.size % 256)

/-! ## The requests -/

def chrRequest (ev : Evaluator) (m : Machine) (x : ℕ) : Result (Option StringRequest) := do
  let (_, m) ← evaluateNextInteger ev (resetTypeString m x) x
  let m ← expectRightBracket m
  .ok (some ⟨m, 1, 1⟩)

def spcRequest (ev : Evaluator) (m : Machine) (x : ℕ) : Result (Option StringRequest) := do
  let (v, m) ← evaluateNextInteger ev (resetTypeString m x) x
  let m ← expectRightBracket m
  .ok (some ⟨m, v.a, v.a⟩)

def strRequest (ev : Evaluator) (m : Machine) (x : ℕ) : Result (Option StringRequest) := do
  let (_, m) ← evaluateNextInteger ev (resetTypeString m x) x
  let (_, m) ← valGetBase ev m x
  .ok (some ⟨m, 34, 34⟩)

/-- `upper$(` and `lower$(` ask for the low byte of the address of their argument. -/
def caseconvRequest (ev : Evaluator) (m : Machine) (x : ℕ) : Result (Option StringRequest) := do
  let (v, m) ← evaluateNextString ev (resetTypeString m x) x
  let m ← expectRightBracket m
  .ok (some ⟨m, v.a, (stringTempAllocate m v.a).bank.byte v.a⟩)

/-- A string that is not longer than the count is delivered as it is. -/
def leftRightRequest (ev : Evaluator) (m : Machine) (x : ℕ) : Result (Option StringRequest) := do
  let (s, m) ← evaluateNextString ev (resetTypeString m x) x
  let m ← expectComma m
  let (n, m) ← evaluateNextInteger ev m x
  let m ← expectRightBracket { m with dTemp1 := n.a }
  if m.bank.byte s.a = 0 then .ok (some ⟨m, 0, 0⟩)
  else if m.bank.byte s.a ≤ m.dTemp1 then .ok none
  else .ok (some ⟨m, m.dTemp1, m.dTemp1⟩)

def midRequest (ev : Evaluator) (m : Machine) (x : ℕ) : Result (Option StringRequest) := do
  let (s, m) ← evaluateNextString ev (resetTypeString m x) x
  let m ← expectComma m
  let (n, m) ← evaluateNextInteger ev m x
  let m ← midCount ev m x
  let m ← expectRightBracket m
  let length := m.bank.byte s.a
  if length < n.a then .ok (some ⟨m, 0, 0⟩)
  else .ok (some ⟨m, min m.dTemp1 (length - n.a + 1), min m.dTemp1 (length - n.a + 1)⟩)

/-- `_BAConcatenateString`, up to the length it asks for. -/
def concatenateStart (m : Machine) (x : ℕ) : Machine :=
  { m with dTemp1 := m.dp (x + exsValueL), dTemp2 := m.dp (x + exsNext + exsValueL) }

def concatenateLength (m : Machine) : ℕ := m.bank.byte m.dTemp1 + m.bank.byte m.dTemp2

def concatenateOpen (m : Machine) (x : ℕ) : Machine :=
  let m := stringTempAllocate m (concatenateLength m)
  m.setValue x (m.dStartTempString, 0)

/-- The lengths are read again while the two strings are copied. -/
def concatenateTouched (m : Machine) : ℕ :=
  m.bank.byte m.dTemp1 + (stringCreateCopy m m.dTemp1).bank.byte (stringCreateCopy m m.dTemp1).dTemp2

def concatenateRequest (m : Machine) (x : ℕ) : Option StringRequest :=
  let m := concatenateStart m x
  some ⟨m, concatenateLength m, concatenateTouched (concatenateOpen m x)⟩

theorem baConcatenateString_eq (m : Machine) (x : ℕ) : baConcatenateString m x =
    if 256 ≤ concatenateLength (concatenateStart m x) then
      fail (concatenateStart m x) .stringTooLong
    else
      let m := concatenateOpen (concatenateStart m x) x
      let m := stringCreateCopy m m.dTemp1
      .ok (stringCreateCopy m m.dTemp2) := rfl

/-- The request of a routine, if it makes a string. -/
def Handler.request : Handler → Evaluator → Machine → ℕ → Result (Option StringRequest)
  | .unary .chr => chrRequest
  | .unary .spc => spcRequest
  | .unary .str => strRequest
  | .unary .lower | .unary .upper => caseconvRequest
  | .unary .left | .unary .right => leftRightRequest
  | .unary .mid => midRequest
  | .binary .add => fun _ m x => .ok (if m.isString x then concatenateRequest m x else none)
  | _ => fun _ _ _ => .ok none

/-- The routine, behind a check of its request. -/
def Handler.checked (P : StringRequest → Prop) [DecidablePred P] (h : Handler) : Routine :=
  fun fuel ev m x =>
    match h.request ev m x with
    | .ok (some r) => if P r then h.routine fuel ev m x else .error .leaves
    | _ => h.routine fuel ev m x

/-! ## Making the strings -/

/-- Making the string of the request keeps within the frame. -/
def StringRequest.Within (R : ℕ → Machine → Machine → Prop) (r : StringRequest) : Prop :=
  r.address + r.touched < 0x10000 ∧
    ∀ x m n, r.state.Open r.address n r.touched m → R x r.state m

section

variable {R : ℕ → Machine → Machine → Prop} {ev ev' : Evaluator} {m : Machine} {x fuel : ℕ}

theorem functionChr_within (hR : Frame R) (hev : Evaluator.Within R ev ev')
    (hreq : ∀ r, chrRequest ev m x = .ok (some r) → r.Within R) :
    Outcome (R x m) Stop.Spares (functionChr ev m x) (functionChr ev' m x) := by
  refine hR.functionChr hev fun v m₁ m₂ e₁ e₂ _ h => ?_
  obtain ⟨ht, hmake⟩ := hreq ⟨m₂, 1, 1⟩ (by simp only [chrRequest, e₁, e₂, ok_bind])
  refine hR.trans h (hmake x _ 1 ?_)
  exact open_stringWriteCharacter (open_stringTempAllocate m₂ 1 1) (by decide) ht _

theorem functionSpc_within (hR : Frame R) (hev : Evaluator.Within R ev ev')
    (hreq : ∀ r, spcRequest ev m x = .ok (some r) → r.Within R) :
    Outcome (R x m) Stop.Spares (functionSpc ev m x) (functionSpc ev' m x) := by
  refine hR.functionSpc hev fun v m₁ m₂ e₁ e₂ _ h => ?_
  obtain ⟨ht, hmake⟩ := hreq ⟨m₂, v.a, v.a⟩ (by simp only [spcRequest, e₁, e₂, ok_bind])
  refine hR.trans h (hmake x _ (0 + v.a) ?_)
  exact open_iterate (open_stringTempAllocate m₂ v.a v.a) v.a 32 (by omega) ht

/-- The base is between two and sixteen. -/
theorem valGetBase_base {b : ℕ} {m₁ : Machine} (h : valGetBase ev m x = .ok (b, m₁)) :
    2 ≤ b ∧ b ≤ 16 := by
  unfold valGetBase at h
  split at h
  · obtain ⟨m₂, -, h⟩ := Except.bind_eq_ok.mp h
    obtain ⟨⟨v, m₃⟩, -, h⟩ := Except.bind_eq_ok.mp h
    dsimp only at h
    split at h
    · cases h
    · obtain ⟨m₄, -, h⟩ := Except.bind_eq_ok.mp h
      cases h
      omega
  · obtain ⟨m₂, -, h⟩ := Except.bind_eq_ok.mp h
    cases h
    decide

theorem functionStr_within (hR : Frame R) (hev : Evaluator.Within R ev ev')
    (hreq : ∀ r, strRequest ev m x = .ok (some r) → r.Within R) :
    Outcome (R x m) Stop.Spares (functionStr fuel ev m x) (functionStr fuel ev' m x) := by
  refine hR.functionStr hev fun v m₁ b m₂ e₁ e₂ h => ?_
  obtain ⟨ht, hmake⟩ := hreq ⟨m₂, 34, 34⟩ (by simp only [strRequest, e₁, e₂, ok_bind])
  obtain ⟨hb, hb'⟩ := valGetBase_base e₂
  have hopen : m₂.Open _ 0 34 (stringTempAllocate { m₂ with dSignCount := b } 34) :=
    (open_stringTempAllocate m₂ 34 34).scratch ⟨rfl, rfl, rfl, rfl, rfl, rfl⟩
  refine (open_convertToStringAlreadyAllocated hopen (v.a, v.y) hb (by omega) ht).imp
    (fun m₃ ⟨k, h₃⟩ => hR.trans h (hmake x m₃ k h₃)) ?_
  rintro e (rfl | rfl)
  · trivial
  · trivial

theorem scratch_setDp (m : Machine) (a v : ℕ) : m.Scratch (m.setDp a v) :=
  ⟨rfl, rfl, rfl, rfl, rfl, rfl⟩

theorem scratch_setValue (m : Machine) (x : ℕ) (v : Long) : m.Scratch (m.setValue x v) :=
  (scratch_setDp m _ _).trans (scratch_setDp _ _ _)

/-- The conversion changes the characters that have been copied. -/
theorem open_caseconv {p t : ℕ} {m₁ : Machine} (h : m.Open p t t m₁) (conv : ℕ → ℕ) (x : ℕ)
    (ht : p + t < 0x10000) (hlt : t < 256) :
    m.Open p t t (caseLoop conv (m₁.bank.byte m₁.dStartTempString)
      (m₁.setValue x (m₁.dStartTempString, 0)) m₁.dStartTempString) := by
  have hlen : m₁.bank.byte m₁.dStartTempString = t := by
    rw [h.start, h.length, Nat.mod_eq_of_lt hlt]
  rw [hlen, h.start]
  exact open_caseLoop (h.scratch (scratch_setValue m₁ x _)) conv t p (Nat.le_refl p) (Nat.le_refl _) ht

theorem caseconv_within (hR : Frame R) (hev : Evaluator.Within R ev ev') (conv : ℕ → ℕ)
    (hreq : ∀ r, caseconvRequest ev m x = .ok (some r) → r.Within R) :
    Outcome (R x m) Stop.Spares (caseconv conv ev m x) (caseconv conv ev' m x) := by
  refine hR.caseconv hev conv fun v m₁ m₂ e₁ e₂ h => ?_
  obtain ⟨ht, hmake⟩ := hreq ⟨m₂, v.a, (stringTempAllocate m₂ v.a).bank.byte v.a⟩
    (by simp only [caseconvRequest, e₁, e₂, ok_bind])
  have hcopy := open_sccCopy (open_stringTempAllocate m₂ v.a _)
    ((stringTempAllocate m₂ v.a).bank.byte v.a) v.a (Nat.zero_add _).le ht
  rw [Nat.zero_add] at hcopy
  exact hR.trans h (hmake x _ _ (open_caseconv hcopy conv x ht (Memory.byte_lt _ _)))

theorem scratch_fnStringY (m : Machine) (x y : ℕ) : m.Scratch (fnStringY m x y) :=
  (scratch_setDp m _ _).trans (scratch_setDp _ _ _)

/-- An empty string. -/
theorem open_fnStringEmpty (m : Machine) (x : ℕ) :
    m.Open (add16 m.tempTop (0xFFFF - 0 % 256)) 0 0 (fnStringEmpty m x) :=
  (open_stringTempAllocate m 0 0).scratch (scratch_fnStringY _ _ _)

theorem open_fndTemp1Characters (m : Machine) (x y : ℕ)
    (ht : add16 m.tempTop (0xFFFF - m.dTemp1 % 256) + m.dTemp1 < 0x10000) :
    m.Open (add16 m.tempTop (0xFFFF - m.dTemp1 % 256)) m.dTemp1 m.dTemp1
      (fndTemp1Characters m x y) := by
  unfold fndTemp1Characters
  split
  · rename_i h
    rw [h]
    exact open_fnStringEmpty m x
  · have hcopy := open_fnd1Loop (open_stringTempAllocate m m.dTemp1 m.dTemp1) m.dTemp1 y
      (Nat.zero_add _).le ht
    rw [Nat.zero_add] at hcopy
    exact hcopy.scratch (scratch_fnStringY _ _ _)

/-- The state before is as good as one that differs in scratch registers. -/
theorem Machine.Open.of_scratch {p n t : ℕ} {m₁ m₂ : Machine} (h : m.Scratch m₁)
    (h' : m₁.Open p n t m₂) : m.Open p n t m₂ :=
  ⟨h'.base.trans h.base, h'.high.trans h.high, h'.pointer, h'.start, h'.current, h'.length,
    h.bank ▸ h'.bank⟩

theorem Machine.Scratch.tempTop {m₁ : Machine} (h : m.Scratch m₁) : m₁.tempTop = m.tempTop := by
  unfold Machine.tempTop Machine.block
  rw [h.pointer, h.base, h.bank]

theorem leftRight_within {start : Machine → ℕ → ℕ → ℕ × Machine} (hR : Frame R)
    (hev : Evaluator.Within R ev ev')
    (hstart : ∀ m l a, m.Scratch (start m l a).2 ∧ (start m l a).2.dTemp1 = m.dTemp1)
    (hreq : ∀ r, leftRightRequest ev m x = .ok (some r) → r.Within R) :
    Outcome (R x m) Stop.Spares (leftRight start ev m x) (leftRight start ev' m x) := by
  refine hR.leftRight hev fun s m₁ m₂ n m₃ m₄ e₁ e₂ e₃ _ e₄ h => ⟨fun h₀ => ?_, fun hl => ?_⟩
  · obtain ⟨-, hmake⟩ := hreq ⟨m₄, 0, 0⟩ (by
      simp only [leftRightRequest, e₁, e₂, e₃, e₄, ok_bind, if_pos h₀])
    exact hR.trans h (hmake x _ 0 (open_fnStringEmpty m₄ x))
  · obtain ⟨ht, hmake⟩ := hreq ⟨m₄, m₄.dTemp1, m₄.dTemp1⟩ (by
      simp only [leftRightRequest, e₁, e₂, e₃, e₄, ok_bind]
      rw [if_neg (by omega), if_neg (by omega)])
    obtain ⟨hs, htemp⟩ := hstart m₄ (m₄.bank.byte s.a) s.a
    have hchars := open_fndTemp1Characters (start m₄ (m₄.bank.byte s.a) s.a).2 x
      (start m₄ (m₄.bank.byte s.a) s.a).1
    rw [hs.tempTop, htemp] at hchars
    exact hR.trans h (hmake x _ _ ((hchars ht).of_scratch hs))

theorem functionMid_within (hR : Frame R) (hev : Evaluator.Within R ev ev')
    (hreq : ∀ r, midRequest ev m x = .ok (some r) → r.Within R) :
    Outcome (R x m) Stop.Spares (functionMid ev m x) (functionMid ev' m x) := by
  refine hR.functionMid hev fun s m₁ m₂ n m₃ m₄ m₅ e₁ e₂ e₃ _ _ e₄ e₅ h =>
    ⟨fun hl => ?_, fun hl => ?_⟩
  · obtain ⟨-, hmake⟩ := hreq ⟨m₅, 0, 0⟩ (by
      simp only [midRequest, e₁, e₂, e₃, e₄, e₅, ok_bind, if_pos hl])
    have hscratch : m₅.Scratch { m₅ with dTemp2 := n.a } := ⟨rfl, rfl, rfl, rfl, rfl, rfl⟩
    exact hR.trans h (hmake x _ 0 ((open_fnStringEmpty _ x).of_scratch hscratch))
  · obtain ⟨ht, hmake⟩ := hreq ⟨m₅, min m₅.dTemp1 (m₅.bank.byte s.a - n.a + 1),
      min m₅.dTemp1 (m₅.bank.byte s.a - n.a + 1)⟩ (by
        simp only [midRequest, e₁, e₂, e₃, e₄, e₅, ok_bind]
        rw [if_neg (by omega)])
    have hscratch : m₅.Scratch { m₅ with
        dTemp2 := n.a, dTemp1 := min m₅.dTemp1 (m₅.bank.byte s.a - n.a + 1) } :=
      ⟨rfl, rfl, rfl, rfl, rfl, rfl⟩
    have hchars := open_fndTemp1Characters { m₅ with
      dTemp2 := n.a, dTemp1 := min m₅.dTemp1 (m₅.bank.byte s.a - n.a + 1) } x (add16 s.a n.a) ht
    exact hR.trans h (hmake x _ _ (hchars.of_scratch hscratch))

theorem baConcatenateString_within (hR : Frame R)
    (hreq : ∀ r, concatenateRequest m x = some r → r.Within R) :
    Outcome (R x m) Stop.Spares (baConcatenateString m x) (baConcatenateString m x) := by
  rw [baConcatenateString_eq]
  refine .ite (fun _ => outcome_fail (by decide)) fun _ => .ok ?_
  obtain ⟨ht, hmake⟩ := hreq _ rfl
  have hstart : R x m (concatenateStart m x) :=
    hR.registers ⟨rfl, rfl, rfl, rfl, rfl, rfl, rfl, rfl, rfl⟩
  generalize concatenateStart m x = m₁ at *
  have hopen : m₁.Open (add16 m₁.tempTop (0xFFFF - concatenateLength m₁ % 256)) 0
      (concatenateTouched (concatenateOpen m₁ x)) (concatenateOpen m₁ x) :=
    (open_stringTempAllocate m₁ _ _).scratch (scratch_setValue _ _ _)
  refine hR.trans hstart (hmake x _ _ (open_sccCopy (open_sccCopy hopen _ _ ?_ ht) _ _ ?_ ht))
  · exact (Nat.zero_add _).le.trans (Nat.le_add_right _ _)
  · rw [Nat.zero_add]
    exact Nat.le_refl _

/-! ## The checked evaluator -/

theorem UnaryFunction.within (hR : Frame R) (hev : Evaluator.Within R ev ev') (f : UnaryFunction)
    (hreq : ∀ r, (Handler.unary f).request ev m x = .ok (some r) → r.Within R) :
    Outcome (R x m) Stop.Spares (f.routine fuel ev m x) (f.routine fuel ev' m x) := by
  cases f with
  | random => exact hR.functionRandom
  | sgn => exact hR.functionSgn hev
  | abs => exact hR.functionAbs hev
  | len => exact hR.functionLen hev
  | val => exact hR.functionVal hev
  | str => exact functionStr_within hR hev hreq
  | chr => exact functionChr_within hR hev hreq
  | asc => exact hR.functionAsc hev
  | spc => exact functionSpc_within hR hev hreq
  | peek => exact hR.memread hev fun m => (m.longTemp1 0 % 256, 0)
  | deek => exact hR.memread hev fun m => (m.longTemp1 0, 0)
  | leek => exact hR.memread hev fun m => (m.longTemp1 0, m.longTemp1 2)
  | lower => exact caseconv_within hR hev (fun c => if 65 ≤ c ∧ c < 91 then c + 32 else c) hreq
  | upper => exact caseconv_within hR hev (fun c => if 97 ≤ c ∧ c < 123 then c - 32 else c) hreq
  | left =>
    simp only [UnaryFunction.routine, functionLeft]
    exact leftRight_within hR hev (fun _ _ _ => ⟨⟨rfl, rfl, rfl, rfl, rfl, rfl⟩, rfl⟩) hreq
  | mid => exact functionMid_within hR hev hreq
  | right =>
    simp only [UnaryFunction.routine, functionRight]
    exact leftRight_within hR hev (fun _ _ _ => ⟨⟨rfl, rfl, rfl, rfl, rfl, rfl⟩, rfl⟩) hreq
  | instr => exact hR.functionInstr hev
  | inkey => exact hR.functionInkey

/-- A routine all of whose strings keep within the frame keeps within it. -/
theorem Handler.within (hR : Frame R) (hev : Evaluator.Within R ev ev') (h : Handler)
    (hreq : ∀ r, h.request ev m x = .ok (some r) → r.Within R) :
    Outcome (R x m) Stop.Spares (h.routine fuel ev m x) (h.routine fuel ev' m x) := by
  cases h with
  | illegalToken => exact outcome_fail (by decide)
  | binary op =>
    by_cases hop : op = .add
    · subst hop
      refine .ite (fun _ => outcome_fail (by decide)) fun _ => .ite (fun hs => ?_) fun _ =>
        .ok (hR.setValue hR.refl (Nat.le_refl x))
      refine baConcatenateString_within hR fun r hr => hreq r ?_
      simp only [Handler.request, if_pos hs, hr]
    · exact hR.binary hop
  | unary f => exact f.within hR hev hreq
  | command c => exact .error trivial

/-- **The checked routines keep within a frame that contains every string that passes.** -/
theorem Handler.respects_checked {P : StringRequest → Prop} [DecidablePred P] (hR : Frame R)
    (hP : ∀ r, P r → r.Within R) (h : Handler) : Respects R (h.checked P) h.routine := by
  intro fuel ev ev' m x hev
  unfold Handler.checked
  split
  · rename_i r hr
    split
    · rename_i hpass
      refine h.within hR hev fun r' hr' => ?_
      rw [hr] at hr'
      cases hr'
      exact hP r hpass
    · exact .error trivial
  · rename_i hnone
    exact h.within hR hev fun r hr => absurd hr (hnone r)

end

end Basic65816
