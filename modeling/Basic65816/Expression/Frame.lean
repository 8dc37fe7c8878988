import Basic65816.Lib.Outcome
import Basic65816.Expression.Slots

/-!
# What an evaluation keeps

An evaluation of arbitrary code changes the slots from its own on, registers and, when it makes a
temporary string, the workspace. A relation between the states before and after that is closed under
the first two is a `Frame`. The evaluator and every routine that makes no string respect every frame;
the routines that make strings respect it when making strings does.

The statements are about two evaluators, the second of which delivers what the first one delivers.

## Main definitions

* `Frame`: a relation closed under changes of registers and of slots
* `Stop.Spares`: an error that is not about memory
* `Respects`: a routine that keeps within a frame

## Main results

* `Frame.evaluateLevel`: the evaluator keeps within a frame that its routines respect
-/

namespace Basic65816

/-- The errors of the allocation of permanent memory. -/
def Error.IsAllocation (e : Error) : Prop := e = .outOfMemory ∨ e = .dimTooLarge

instance : DecidablePred Error.IsAllocation := fun _ => inferInstanceAs (Decidable (_ ∨ _))

/-- Not an error of the allocation of permanent memory. -/
def Stop.Spares : Stop → Prop
  | .error e _ => ¬e.IsAllocation
  | .leaves => True
  | .outOfFuel => True

theorem outcome_fail {α : Type} {Q : α → Prop} {r : Result α} {m : Machine} {e : Error}
    (h : ¬e.IsAllocation) : Outcome Q Stop.Spares (fail m e) r := h

/-- Only registers of the evaluator have changed. -/
structure Machine.Registers (m m' : Machine) : Prop where
  page : m'.page = m.page
  bank : m'.bank = m.bank
  far : m'.far = m.far
  pageNumber : m'.dPageNumber = m.dPageNumber
  base : m'.dBaseAddress = m.dBaseAddress
  high : m'.dHighAddress = m.dHighAddress
  stack : m'.dStack = m.dStack
  line : m'.dLineNumber = m.dLineNumber
  temp : m'.dTempStringPointer = m.dTempStringPointer

/-- A relation between states that is closed under changes of registers and of slots from `x` on. -/
structure Frame (R : ℕ → Machine → Machine → Prop) : Prop where
  trans : ∀ {x m m₁ m₂}, R x m m₁ → R x m₁ m₂ → R x m m₂
  mono : ∀ {x y m m₁}, R x m m₁ → y ≤ x → R y m m₁
  registers : ∀ {x m m₁}, m.Registers m₁ → R x m m₁
  setDp : ∀ {x a v m}, x ≤ a → R x m (m.setDp a v)

/-- The two evaluators keep within the frame, and the second delivers what the first delivers. -/
def Evaluator.Within (R : ℕ → Machine → Machine → Prop) (ev ev' : Evaluator) : Prop :=
  ∀ m x a, Outcome (fun r => R x m r.2) Stop.Spares (ev m x a) (ev' m x a)

/-- The two routines keep within the frame, whatever evaluators within it they are given. -/
def Respects (R : ℕ → Machine → Machine → Prop) (r r' : Routine) : Prop :=
  ∀ fuel ev ev' m x, Evaluator.Within R ev ev' →
    Outcome (R x m) Stop.Spares (r fuel ev m x) (r' fuel ev' m x)

namespace Frame

variable {R : ℕ → Machine → Machine → Prop} (hR : Frame R)

section

variable {m m₁ m₂ : Machine} {x y a v : ℕ} {w : Long}

include hR

theorem refl : R x m m := hR.registers ⟨rfl, rfl, rfl, rfl, rfl, rfl, rfl, rfl, rfl⟩

/-- A change of registers at the end. -/
theorem regs (h : R x m m₁) (h' : m₁.Registers m₂) : R x m m₂ := hR.trans h (hR.registers h')

theorem dp (h : R x m m₁) (ha : x ≤ a) : R x m (m₁.setDp a v) := hR.trans h (hR.setDp ha)

theorem setValue (h : R x m m₁) (hy : x ≤ y) : R x m (m₁.setValue y w) :=
  hR.dp (hR.dp h (by unfold exsValueL; omega)) (by unfold exsValueH; omega)

theorem typeInteger (h : R x m m₁) : R x m (resetTypeInteger m₁ x) :=
  hR.dp h (Nat.le_add_right _ _)

theorem typeString (h : R x m m₁) : R x m (resetTypeString m₁ x) :=
  hR.dp h (Nat.le_add_right _ _)

theorem skipToken (h : R x m m₁) : R x m m₁.skipToken :=
  hR.regs h ⟨rfl, rfl, rfl, rfl, rfl, rfl, rfl, rfl, rfl⟩

theorem tokenSkipped (h : R x m m₁) :
    Outcome (R x m) Stop.Spares (expectToken m₁ a) (expectToken m₁ a) :=
  .ite (fun _ => .ok (hR.skipToken h)) fun _ => outcome_fail (by decide)

theorem rightBracket (h : R x m m₁) :
    Outcome (R x m) Stop.Spares (expectRightBracket m₁) (expectRightBracket m₁) :=
  hR.tokenSkipped h

theorem comma (h : R x m m₁) :
    Outcome (R x m) Stop.Spares (expectComma m₁) (expectComma m₁) :=
  hR.tokenSkipped h

end

/-! ## Arguments -/

section

variable {ev ev' : Evaluator} {m m₁ : Machine} {x : ℕ}

include hR

theorem nextGivenLevel (hev : Evaluator.Within R ev ev') (h : R x m m₁) (a : ℕ) :
    Outcome (fun r => R x m r.2) Stop.Spares (evaluateNextGivenLevel ev m₁ x a)
      (evaluateNextGivenLevel ev' m₁ x a) :=
  (hev m₁ (x + exsNext) a).mono fun _ h' => hR.trans h (hR.mono h' (Nat.le_add_right _ _))

theorem next (hev : Evaluator.Within R ev ev') (h : R x m m₁) :
    Outcome (fun r => R x m r.2) Stop.Spares (evaluateNext ev m₁ x) (evaluateNext ev' m₁ x) :=
  hR.nextGivenLevel hev h _

theorem nextInteger (hev : Evaluator.Within R ev ev') (h : R x m m₁) :
    Outcome (fun r => R x m r.2) Stop.Spares (evaluateNextInteger ev m₁ x)
      (evaluateNextInteger ev' m₁ x) := by
  refine (hR.next hev h).bind ?_
  rintro ⟨v, m₂⟩ h₂
  exact .ite (fun _ => outcome_fail (by decide)) fun _ => .ok h₂

theorem nextString (hev : Evaluator.Within R ev ev') (h : R x m m₁) :
    Outcome (fun r => R x m r.2) Stop.Spares (evaluateNextString ev m₁ x)
      (evaluateNextString ev' m₁ x) := by
  refine (hR.next hev h).bind ?_
  rintro ⟨v, m₂⟩ h₂
  exact .ite (fun _ => .ok h₂) fun _ => outcome_fail (by decide)

end

/-! ## Functions that make no string -/

section

variable {ev ev' : Evaluator} {m : Machine} {x : ℕ}

include hR

theorem functionLen (hev : Evaluator.Within R ev ev') :
    Outcome (R x m) Stop.Spares (functionLen ev m x) (functionLen ev' m x) := by
  refine (hR.nextString hev (hR.typeInteger hR.refl)).bind ?_
  rintro ⟨v, m₁⟩ h₁
  refine (hR.rightBracket h₁).bind fun m₂ h₂ => ?_
  exact .ok (hR.setValue h₂ (Nat.le_refl x))

theorem functionAbs (hev : Evaluator.Within R ev ev') :
    Outcome (R x m) Stop.Spares (functionAbs ev m x) (functionAbs ev' m x) := by
  refine (hR.nextInteger hev (hR.typeInteger hR.refl)).bind ?_
  rintro ⟨v, m₁⟩ h₁
  refine (hR.rightBracket h₁).bind fun m₂ h₂ => ?_
  exact .ok (hR.setValue h₂ (Nat.le_refl x))

theorem functionSgn (hev : Evaluator.Within R ev ev') :
    Outcome (R x m) Stop.Spares (functionSgn ev m x) (functionSgn ev' m x) := by
  refine (hR.nextInteger hev (hR.typeInteger hR.refl)).bind ?_
  rintro ⟨v, m₁⟩ h₁
  refine (hR.rightBracket h₁).bind fun m₂ h₂ => ?_
  exact .ok (hR.setValue h₂ (Nat.le_refl x))

theorem functionAsc (hev : Evaluator.Within R ev ev') :
    Outcome (R x m) Stop.Spares (functionAsc ev m x) (functionAsc ev' m x) := by
  refine (hR.nextString hev (hR.typeInteger hR.refl)).bind ?_
  rintro ⟨v, m₁⟩ h₁
  refine (hR.rightBracket h₁).bind fun m₂ h₂ => ?_
  exact .ite (fun _ => outcome_fail (by decide)) fun _ => .ok (hR.setValue h₂ (Nat.le_refl x))

theorem functionRandom :
    Outcome (R x m) Stop.Spares (functionRandom m x) (functionRandom m x) := by
  refine (hR.rightBracket (hR.refl (x := x))).bind fun m₁ h₁ => .ok (hR.setValue ?_ (Nat.le_refl x))
  have hseed : R x m (if (resetTypeInteger m₁ x).dRandom |||
      (resetTypeInteger m₁ x).dRandomH = 0 then
        { resetTypeInteger m₁ x with dRandom := 0xB5, dRandomH := 0xEA }
      else resetTypeInteger m₁ x) := by
    split
    · exact hR.regs (hR.typeInteger h₁) ⟨rfl, rfl, rfl, rfl, rfl, rfl, rfl, rfl, rfl⟩
    · exact hR.typeInteger h₁
  exact hR.regs hseed ⟨rfl, rfl, rfl, rfl, rfl, rfl, rfl, rfl, rfl⟩

theorem functionInkey :
    Outcome (R x m) Stop.Spares (functionInkey m x) (functionInkey m x) := by
  refine (hR.rightBracket (hR.refl (x := x))).bind fun m₁ h₁ => ?_
  exact .ok (hR.setValue (hR.typeInteger h₁) (Nat.le_refl x))

theorem memread (hev : Evaluator.Within R ev ev') (read : Machine → Long) :
    Outcome (R x m) Stop.Spares (memread read ev m x) (memread read ev' m x) := by
  refine (hR.nextInteger hev (hR.typeInteger hR.refl)).bind ?_
  rintro ⟨v, m₁⟩ h₁
  refine (hR.rightBracket h₁).bind fun m₂ h₂ => .ok (hR.setValue ?_ (Nat.le_refl x))
  exact hR.regs h₂ ⟨rfl, rfl, rfl, rfl, rfl, rfl, rfl, rfl, rfl⟩

theorem getBase (hev : Evaluator.Within R ev ev') {m₁ : Machine} (h : R x m m₁) :
    Outcome (fun r => R x m r.2) Stop.Spares (valGetBase ev m₁ x) (valGetBase ev' m₁ x) := by
  refine .ite (fun _ => ?_) fun _ => ?_
  · refine (hR.comma h).bind fun m₂ h₂ => (hR.nextInteger hev h₂).bind ?_
    rintro ⟨v, m₃⟩ h₃
    refine .ite (fun _ => outcome_fail (by decide)) fun _ => ?_
    exact (hR.rightBracket h₃).bind fun m₄ h₄ => .ok h₄
  · exact (hR.rightBracket h).bind fun m₂ h₂ => .ok h₂

theorem digits (n : ℕ) {m₁ : Machine} (h : R x m m₁) :
    Outcome (R x m) Stop.Spares (stiLoop n m₁) (stiLoop n m₁) := by
  induction n generalizing m₁ with
  | zero => exact .ok h
  | succ n ih =>
    rw [stiLoop]
    dsimp only
    split
    · exact outcome_fail (by decide)
    · exact ih (hR.regs h ⟨rfl, rfl, rfl, rfl, rfl, rfl, rfl, rfl, rfl⟩)

theorem toInteger {m₁ : Machine} (h : R x m m₁) (a b : ℕ) :
    Outcome (fun r => R x m r.2) Stop.Spares (stringToInteger m₁ a b) (stringToInteger m₁ a b) := by
  refine .ite (fun _ => outcome_fail (by decide)) fun _ => ?_
  refine .ite (fun _ => outcome_fail (by decide)) fun _ => ?_
  refine (hR.digits _ ?_).bind fun m₂ h₂ =>
    .ok (hR.regs h₂ ⟨rfl, rfl, rfl, rfl, rfl, rfl, rfl, rfl, rfl⟩)
  split
  · exact hR.regs h ⟨rfl, rfl, rfl, rfl, rfl, rfl, rfl, rfl, rfl⟩
  · exact hR.regs h ⟨rfl, rfl, rfl, rfl, rfl, rfl, rfl, rfl, rfl⟩

theorem functionVal (hev : Evaluator.Within R ev ev') :
    Outcome (R x m) Stop.Spares (functionVal ev m x) (functionVal ev' m x) := by
  refine (hR.nextString hev (hR.typeInteger hR.refl)).bind ?_
  rintro ⟨v, m₁⟩ h₁
  refine (hR.getBase hev h₁).bind ?_
  rintro ⟨base, m₂⟩ h₂
  refine (hR.toInteger h₂ _ _).bind ?_
  rintro ⟨n, m₃⟩ h₃
  exact .ok (hR.setValue h₃ (Nat.le_refl x))

theorem search (n : ℕ) {m₁ : Machine} (h : R x m m₁) : R x m (finsLoop x n m₁) := by
  induction n generalizing m₁ with
  | zero =>
    rw [finsLoop]
    have h₁ : R x m (m₁.setDp (x + exsValueL) (add16 (m₁.dp (x + exsValueL)) 1)) :=
      hR.dp h (Nat.le_add_right _ _)
    split
    · exact hR.regs h₁ ⟨rfl, rfl, rfl, rfl, rfl, rfl, rfl, rfl, rfl⟩
    · refine hR.dp ?_ (Nat.le_add_right _ _)
      exact hR.regs h₁ ⟨rfl, rfl, rfl, rfl, rfl, rfl, rfl, rfl, rfl⟩
  | succ n ih =>
    rw [finsLoop]
    have h₁ : R x m (m₁.setDp (x + exsValueL) (add16 (m₁.dp (x + exsValueL)) 1)) :=
      hR.dp h (Nat.le_add_right _ _)
    split
    · exact hR.regs h₁ ⟨rfl, rfl, rfl, rfl, rfl, rfl, rfl, rfl, rfl⟩
    · exact ih (hR.regs h₁ ⟨rfl, rfl, rfl, rfl, rfl, rfl, rfl, rfl, rfl⟩)

theorem functionInstr (hev : Evaluator.Within R ev ev') :
    Outcome (R x m) Stop.Spares (functionInstr ev m x) (functionInstr ev' m x) := by
  refine (hR.nextString hev (hR.typeInteger hR.refl)).bind ?_
  rintro ⟨s, m₁⟩ h₁
  refine (hR.comma h₁).bind fun m₂ h₂ => (hR.nextString hev h₂).bind ?_
  rintro ⟨t, m₃⟩ h₃
  refine (hR.rightBracket h₃).bind fun m₄ h₄ => ?_
  have h₅ : R x m (({ m₄ with dTemp1 := t.a, dTemp2 := s.a } : Machine).setValue x (0, 0)) :=
    hR.setValue (hR.regs h₄ ⟨rfl, rfl, rfl, rfl, rfl, rfl, rfl, rfl, rfl⟩) (Nat.le_refl x)
  refine .ite (fun _ => .ok (hR.dp h₅ (Nat.le_add_right _ _))) fun _ => ?_
  refine .ite (fun _ => outcome_fail (by decide)) fun _ => .ok (hR.search _ ?_)
  exact hR.regs h₅ ⟨rfl, rfl, rfl, rfl, rfl, rfl, rfl, rfl, rfl⟩

end

/-! ## Operators that make no string -/

section

variable {m : Machine} {x : ℕ}

include hR

theorem bothNumeric :
    Outcome (R x m) Stop.Spares (checkBothNumeric m x) (checkBothNumeric m x) :=
  .ite (fun _ => outcome_fail (by decide)) fun _ => .ok hR.refl

theorem bitwise (f : ℕ → ℕ → ℕ) :
    Outcome (R x m) Stop.Spares (bitwise f m x) (bitwise f m x) :=
  hR.bothNumeric.bind fun _ h => .ok (hR.setValue h (Nat.le_refl x))

theorem compare (integer : Long → Long → Bool) (string : ℕ → Bool) :
    Outcome (R x m) Stop.Spares (compare integer string m x) (compare integer string m x) := by
  have hcheck : Outcome (fun r => R x m r.2) Stop.Spares (compareTypeCheck m x)
      (compareTypeCheck m x) := by
    refine .ite (fun _ => outcome_fail (by decide)) fun _ => .ite (fun _ => .ok ?_) fun _ =>
      .ok hR.refl
    exact hR.regs (hR.typeInteger hR.refl) ⟨rfl, rfl, rfl, rfl, rfl, rfl, rfl, rfl, rfl⟩
  refine hcheck.bind ?_
  rintro ⟨s, m₁⟩ h₁
  cases s with
  | none => exact .ok (hR.setValue h₁ (Nat.le_refl x))
  | some a => exact .ok (hR.setValue h₁ (Nat.le_refl x))

theorem binaryDivNegate {y : ℕ} {m₁ : Machine} (h : R x m m₁) (hy : x ≤ y) :
    R x m (binaryDivNegate m₁ y) :=
  hR.regs (hR.setValue h hy) ⟨rfl, rfl, rfl, rfl, rfl, rfl, rfl, rfl, rfl⟩

theorem binaryDivAbs {y : ℕ} {m₁ : Machine} (h : R x m m₁) (hy : x ≤ y) :
    R x m (binaryDivAbs m₁ y) := by
  unfold Basic65816.binaryDivAbs
  split
  · exact hR.binaryDivNegate h hy
  · exact h

theorem binaryDivideRounds {m₁ : Machine} (h : R x m m₁) : R x m (binaryDivideRounds m₁ x) :=
  hR.regs (hR.setValue h (Nat.le_refl x)) ⟨rfl, rfl, rfl, rfl, rfl, rfl, rfl, rfl, rfl⟩

theorem binaryDivide :
    Outcome (R x m) Stop.Spares (binaryDivide m x) (binaryDivide m x) := by
  refine hR.bothNumeric.bind fun m₁ h₁ => ?_
  refine .ite (fun _ => outcome_fail (by decide)) fun _ => .ok ?_
  have h₂ : R x m { m₁ with dTemp1 := 0, dTemp1H := 0, dSignCount := 0 } :=
    hR.regs h₁ ⟨rfl, rfl, rfl, rfl, rfl, rfl, rfl, rfl, rfl⟩
  have h₃ := hR.binaryDivAbs (hR.binaryDivAbs h₂ (Nat.le_add_right x exsNext)) (Nat.le_refl x)
  have h₄ := hR.binaryDivideRounds h₃
  unfold binaryDivideExit
  split
  · exact h₄
  · exact hR.binaryDivNegate h₄ (Nat.le_refl x)

theorem binaryMultiply :
    Outcome (R x m) Stop.Spares (binaryMultiply m x) (binaryMultiply m x) := by
  refine hR.bothNumeric.bind fun m₁ h₁ => .ok (hR.setValue ?_ (Nat.le_add_right x exsNext))
  exact hR.setValue (hR.regs h₁ ⟨rfl, rfl, rfl, rfl, rfl, rfl, rfl, rfl, rfl⟩) (Nat.le_refl x)

theorem numeric (f : Machine → Long) : Outcome (R x m) Stop.Spares
    (checkBothNumeric m x >>= fun m => .ok (m.setValue x (f m)))
    (checkBothNumeric m x >>= fun m => .ok (m.setValue x (f m))) :=
  hR.bothNumeric.bind fun _ h => .ok (hR.setValue h (Nat.le_refl x))

/-- Every operator but the addition keeps within the frame. -/
theorem binary {op : BinaryOperator} (hop : op ≠ .add) :
    Outcome (R x m) Stop.Spares (op.routine m x) (op.routine m x) := by
  cases op with
  | and => exact hR.bitwise (· &&& ·)
  | or => exact hR.bitwise (· ||| ·)
  | xor => exact hR.bitwise (· ^^^ ·)
  | less => exact hR.compare (fun l r => sbcNegative 0 l r) (fun a => a = 0xFFFF)
  | greater => exact hR.compare (fun l r => !sbcNegative 1 l r) (fun a => a = 0x0001)
  | equals => exact hR.compare (fun l r => l = r) (fun a => a = 0x0000)
  | lessEqual => exact hR.compare (fun l r => sbcNegative 1 l r) (fun a => a ≠ 0x0001)
  | greaterEqual => exact hR.compare (fun l r => !sbcNegative 0 l r) (fun a => a < 0x8000)
  | notEquals => exact hR.compare (fun l r => l ≠ r) (fun a => a ≠ 0x0000)
  | add => exact absurd rfl hop
  | subtract => exact hR.numeric fun m => subLong (m.value x) (m.value (x + exsNext))
  | multiply => exact hR.binaryMultiply
  | divide => exact hR.binaryDivide
  | modulus => exact hR.binaryDivide.bind fun _ h => .ok (hR.setValue h (Nat.le_refl x))
  | shiftRight =>
    exact hR.numeric fun m => lsrLong^[m.dp (x + exsNext + exsValueL) % 64] (m.value x)
  | shiftLeft =>
    exact hR.numeric fun m => aslLong^[m.dp (x + exsNext + exsValueL) % 64] (m.value x)

/-- The addition of integers keeps within the frame; so it remains to look at strings. -/
theorem binaryAdd (hcat : Outcome (R x m) Stop.Spares (baConcatenateString m x)
    (baConcatenateString m x)) :
    Outcome (R x m) Stop.Spares (binaryAdd m x) (binaryAdd m x) :=
  .ite (fun _ => outcome_fail (by decide)) fun _ => .ite (fun _ => hcat) fun _ =>
    .ok (hR.setValue hR.refl (Nat.le_refl x))

end

/-! ## Routines that make a string

Each keeps within the frame if the making of the string does, in the state that the arguments have
left.
-/

section

variable {ev ev' : Evaluator} {m : Machine} {x fuel : ℕ}

include hR

theorem functionChr (hev : Evaluator.Within R ev ev')
    (hmake : ∀ v m₁ m₂, evaluateNextInteger ev (resetTypeString m x) x = .ok (v, m₁) →
      expectRightBracket m₁ = .ok m₂ → v.y = 0 → R x m m₂ →
        R x m (stringWriteCharacter (stringTempAllocate m₂ 1) v.a)) :
    Outcome (R x m) Stop.Spares (functionChr ev m x) (functionChr ev' m x) := by
  refine (hR.nextInteger hev (hR.typeString hR.refl)).bind_eq ?_
  rintro ⟨v, m₁⟩ e₁ h₁
  refine (hR.rightBracket h₁).bind_eq fun m₂ e₂ h₂ => ?_
  refine .ite (fun _ => outcome_fail (by decide)) fun hy => .ok (hR.setValue ?_ (Nat.le_refl x))
  exact hmake v m₁ m₂ e₁ e₂ (not_not.mp hy) h₂

theorem functionSpc (hev : Evaluator.Within R ev ev')
    (hmake : ∀ v m₁ m₂, evaluateNextInteger ev (resetTypeString m x) x = .ok (v, m₁) →
      expectRightBracket m₁ = .ok m₂ → v.y = 0 → R x m m₂ →
        R x m ((fun m => stringWriteCharacter m 32)^[v.a] (stringTempAllocate m₂ v.a))) :
    Outcome (R x m) Stop.Spares (functionSpc ev m x) (functionSpc ev' m x) := by
  refine (hR.nextInteger hev (hR.typeString hR.refl)).bind_eq ?_
  rintro ⟨v, m₁⟩ e₁ h₁
  refine (hR.rightBracket h₁).bind_eq fun m₂ e₂ h₂ => ?_
  refine .ite (fun _ => outcome_fail (by decide)) fun hy => .ok (hR.setValue ?_ (Nat.le_refl x))
  exact hmake v m₁ m₂ e₁ e₂ (not_not.mp hy) h₂

theorem functionStr (hev : Evaluator.Within R ev ev')
    (hmake : ∀ v m₁ b m₂, evaluateNextInteger ev (resetTypeString m x) x = .ok (v, m₁) →
      valGetBase ev m₁ x = .ok (b, m₂) → R x m m₂ →
        Outcome (R x m) Stop.Spares (convertToString fuel { m₂ with dSignCount := b } (v.a, v.y) b)
          (convertToString fuel { m₂ with dSignCount := b } (v.a, v.y) b)) :
    Outcome (R x m) Stop.Spares (functionStr fuel ev m x) (functionStr fuel ev' m x) := by
  refine (hR.nextInteger hev (hR.typeString hR.refl)).bind_eq ?_
  rintro ⟨v, m₁⟩ e₁ h₁
  refine (hR.getBase hev h₁).bind_eq ?_
  rintro ⟨b, m₂⟩ e₂ h₂
  exact (hmake v m₁ b m₂ e₁ e₂ h₂).bind fun m₃ h₃ => .ok (hR.setValue h₃ (Nat.le_refl x))

theorem caseconv (hev : Evaluator.Within R ev ev') (conv : ℕ → ℕ)
    (hmake : ∀ v m₁ m₂, evaluateNextString ev (resetTypeString m x) x = .ok (v, m₁) →
      expectRightBracket m₁ = .ok m₂ → R x m m₂ →
        R x m (let m := (stringCreateCopy (stringTempAllocate m₂ v.a) v.a)
          caseLoop conv (m.bank.byte m.dStartTempString)
            (m.setValue x (m.dStartTempString, 0)) m.dStartTempString)) :
    Outcome (R x m) Stop.Spares (caseconv conv ev m x) (caseconv conv ev' m x) := by
  refine (hR.nextString hev (hR.typeString hR.refl)).bind_eq ?_
  rintro ⟨v, m₁⟩ e₁ h₁
  refine (hR.rightBracket h₁).bind_eq fun m₂ e₂ h₂ => ?_
  exact .ok (hmake v m₁ m₂ e₁ e₂ h₂)

/-- The arguments of `left$(` and `right$(`, down to the closing bracket. -/
theorem leftRight {start : Machine → ℕ → ℕ → ℕ × Machine} (hev : Evaluator.Within R ev ev')
    (hmake : ∀ s m₁ m₂ n m₃ m₄, evaluateNextString ev (resetTypeString m x) x = .ok (s, m₁) →
      expectComma m₁ = .ok m₂ → evaluateNextInteger ev m₂ x = .ok (n, m₃) → n.y = 0 →
      expectRightBracket { m₃ with dTemp1 := n.a } = .ok m₄ → R x m m₄ →
        (m₄.bank.byte s.a = 0 → R x m (fnStringEmpty m₄ x)) ∧
        (m₄.dTemp1 < m₄.bank.byte s.a → R x m (fndTemp1Characters
          (start m₄ (m₄.bank.byte s.a) s.a).2 x (start m₄ (m₄.bank.byte s.a) s.a).1))) :
    Outcome (R x m) Stop.Spares (leftRight start ev m x) (leftRight start ev' m x) := by
  refine (hR.nextString hev (hR.typeString hR.refl)).bind_eq ?_
  rintro ⟨s, m₁⟩ e₁ h₁
  refine (hR.comma h₁).bind_eq fun m₂ e₂ h₂ => (hR.nextInteger hev h₂).bind_eq ?_
  rintro ⟨n, m₃⟩ e₃ h₃
  refine .ite (fun _ => outcome_fail (by decide)) fun hy => ?_
  have h₄ : R x m { m₃ with dTemp1 := n.a } :=
    hR.regs h₃ ⟨rfl, rfl, rfl, rfl, rfl, rfl, rfl, rfl, rfl⟩
  refine (hR.rightBracket h₄).bind_eq fun m₅ e₅ h₅ => ?_
  have hm := hmake s m₁ m₂ n m₃ m₅ e₁ e₂ e₃ (not_not.mp hy) e₅ h₅
  refine .ite (fun h₀ => .ok (hm.1 h₀)) fun _ => .ite (fun _ => .ok ?_) fun hl =>
    .ok (hm.2 (Nat.not_le.mp hl))
  exact hR.dp (hR.dp h₅ (Nat.le_add_right _ _)) (by unfold exsNext exsValueH; omega)

theorem count (hev : Evaluator.Within R ev ev') {m₁ : Machine} (h : R x m m₁) :
    Outcome (R x m) Stop.Spares (midCount ev m₁ x) (midCount ev' m₁ x) := by
  have h₁ : R x m { m₁ with dTemp1 := 255 } :=
    hR.regs h ⟨rfl, rfl, rfl, rfl, rfl, rfl, rfl, rfl, rfl⟩
  refine .ite (fun _ => .ok h₁) fun _ => (hR.nextInteger hev (hR.skipToken h₁)).bind ?_
  rintro ⟨n, m₂⟩ h₂
  refine .ite (fun _ => outcome_fail (by decide)) fun _ => .ok ?_
  exact hR.regs h₂ ⟨rfl, rfl, rfl, rfl, rfl, rfl, rfl, rfl, rfl⟩

theorem functionMid (hev : Evaluator.Within R ev ev')
    (hmake : ∀ s m₁ m₂ n m₃ m₄ m₅, evaluateNextString ev (resetTypeString m x) x = .ok (s, m₁) →
      expectComma m₁ = .ok m₂ → evaluateNextInteger ev m₂ x = .ok (n, m₃) → n.y = 0 → n.a ≠ 0 →
      midCount ev m₃ x = .ok m₄ → expectRightBracket m₄ = .ok m₅ → R x m m₅ →
        (m₅.bank.byte s.a < n.a → R x m (fnStringEmpty { m₅ with dTemp2 := n.a } x)) ∧
        (n.a ≤ m₅.bank.byte s.a → R x m (fndTemp1Characters { m₅ with
          dTemp2 := n.a, dTemp1 := min m₅.dTemp1 (m₅.bank.byte s.a - n.a + 1) } x
            (add16 s.a n.a)))) :
    Outcome (R x m) Stop.Spares (functionMid ev m x) (functionMid ev' m x) := by
  refine (hR.nextString hev (hR.typeString hR.refl)).bind_eq ?_
  rintro ⟨s, m₁⟩ e₁ h₁
  refine (hR.comma h₁).bind_eq fun m₂ e₂ h₂ => (hR.nextInteger hev h₂).bind_eq ?_
  rintro ⟨n, m₃⟩ e₃ h₃
  refine .ite (fun _ => outcome_fail (by decide)) fun hy => ?_
  refine .ite (fun _ => outcome_fail (by decide)) fun h₀ => ?_
  refine (hR.count hev h₃).bind_eq fun m₄ e₄ h₄ => ?_
  refine (hR.rightBracket h₄).bind_eq fun m₅ e₅ h₅ => ?_
  have hm := hmake s m₁ m₂ n m₃ m₄ m₅ e₁ e₂ e₃ (not_not.mp hy) h₀ e₄ e₅ h₅
  refine .ite (fun hl => .ok (hm.1 hl)) fun hl => .ok ?_
  have hcopy := hm.2 (Nat.not_lt.mp hl)
  dsimp only at hcopy ⊢
  split
  · rwa [min_eq_left ‹_›] at hcopy
  · rwa [min_eq_right (by omega)] at hcopy

end

/-! ## Variables -/

section

variable {ev ev' : Evaluator} {m m₁ : Machine} {x : ℕ}

theorem vfCompare_spares (fuel y : ℕ) (m : Machine) :
    Outcome (fun _ => True) Stop.Spares (vfCompare fuel m y) (vfCompare fuel m y) := by
  induction fuel generalizing y with
  | zero => exact .error trivial
  | succ fuel ih =>
    exact .ite (fun _ => .ok trivial) fun _ => .ite (fun _ => ih _) fun _ => .ok trivial

include hR

theorem follow (fuel : ℕ) (h : R x m m₁) :
    Outcome (fun r => R x m r.2) Stop.Spares (vfNext fuel m₁) (vfNext fuel m₁) := by
  induction fuel generalizing m₁ with
  | zero => exact .error trivial
  | succ fuel ih =>
    refine .ite (fun _ => .ok h) fun _ => ?_
    refine (vfCompare_spares _ _ _).bind fun r _ => ?_
    cases r with
    | none => exact ih (hR.regs h ⟨rfl, rfl, rfl, rfl, rfl, rfl, rfl, rfl, rfl⟩)
    | some y => exact .ok (hR.regs h ⟨rfl, rfl, rfl, rfl, rfl, rfl, rfl, rfl, rfl⟩)

theorem find (fuel : ℕ) (h : R x m m₁) :
    Outcome (fun r => R x m r.2) Stop.Spares (variableFind fuel m₁) (variableFind fuel m₁) := by
  refine .ite (fun _ => outcome_fail (by decide)) fun _ => ?_
  refine .ite (fun _ => .ok (hR.skipToken h)) fun _ => ?_
  exact hR.follow fuel (hR.regs h ⟨rfl, rfl, rfl, rfl, rfl, rfl, rfl, rfl, rfl⟩)

theorem subscript (hev : Evaluator.Within R ev ev') (h : R x m m₁) (a : ℕ) :
    Outcome (fun r => R x m r.2) Stop.Spares (variableSubscript ev m₁ x a)
      (variableSubscript ev' m₁ x a) := by
  refine (hR.nextInteger hev h).bind ?_
  rintro ⟨v, m₂⟩ h₂
  refine (hR.rightBracket h₂).bind fun m₃ h₃ => ?_
  refine .ite (fun _ => outcome_fail (by decide)) fun _ => ?_
  refine .ite (fun _ => outcome_fail (by decide)) fun _ => .ok ?_
  exact hR.regs h₃ ⟨rfl, rfl, rfl, rfl, rfl, rfl, rfl, rfl, rfl⟩

theorem access (hev : Evaluator.Within R ev ev') (fuel : ℕ) (h : R x m m₁) :
    Outcome (fun r => R x m r.2) Stop.Spares (variableAccessExpression fuel ev m₁ x)
      (variableAccessExpression fuel ev' m₁ x) := by
  refine (hR.find fuel h).bind ?_
  rintro ⟨data, m₂⟩ h₂
  cases data with
  | none => exact outcome_fail (by decide)
  | some a =>
    have h₃ : R x m { m₂ with dVariablePtr := a } :=
      hR.regs h₂ ⟨rfl, rfl, rfl, rfl, rfl, rfl, rfl, rfl, rfl⟩
    refine .ite (fun _ => .ok h₃) fun _ => (hR.subscript hev h₃ _).bind ?_
    rintro ⟨b, m₄⟩ h₄
    exact .ok (hR.regs h₄ ⟨rfl, rfl, rfl, rfl, rfl, rfl, rfl, rfl, rfl⟩)

end

/-! ## The evaluator -/

section

variable {routine routine' : Handler → Routine} {ev ev' : Evaluator} {m m₁ : Machine} {x fuel : ℕ}

include hR

theorem elConstant (h : R x m m₁) : R x m (elConstant m₁ x) :=
  hR.skipToken (hR.regs (hR.setValue h (Nat.le_refl x)) ⟨rfl, rfl, rfl, rfl, rfl, rfl, rfl, rfl, rfl⟩)

theorem elVariable (hev : Evaluator.Within R ev ev') (h : R x m m₁) :
    Outcome (R x m) Stop.Spares (elVariable fuel ev m₁ x) (elVariable fuel ev' m₁ x) := by
  refine (hR.access hev fuel (hR.dp h (Nat.le_add_right _ _))).bind ?_
  rintro ⟨v, m₂⟩ h₂
  exact .ok (hR.dp (hR.setValue h₂ (Nat.le_refl x)) (Nat.le_add_right _ _))

theorem elExecuteY (hr : ∀ h, Respects R (routine h) (routine' h))
    (hev : Evaluator.Within R ev ev') (h : R x m m₁) (y : ℕ) :
    Outcome (R x m) Stop.Spares (elExecuteY routine fuel ev m₁ x y)
      (elExecuteY routine' fuel ev' m₁ x y) := by
  unfold Basic65816.elExecuteY
  cases commandJumpTable[y &&& 0x01FF]? with
  | none => exact .error trivial
  | some c => exact (hr c fuel ev ev' m₁ x hev).mono fun _ h' => hR.trans h h'

theorem elUnaryKeyword (hr : ∀ h, Respects R (routine h) (routine' h))
    (hev : Evaluator.Within R ev ev') (h : R x m m₁) :
    Outcome (R x m) Stop.Spares (elUnaryKeyword routine fuel ev m₁ x)
      (elUnaryKeyword routine' fuel ev' m₁ x) := by
  refine .ite (fun _ => hR.elExecuteY hr hev (hR.skipToken h) _) fun _ => ?_
  refine .ite (fun _ => (hR.next hev (hR.skipToken h)).bind ?_) fun _ =>
    (hR.nextGivenLevel hev (hR.skipToken h) _).bind ?_
  · rintro ⟨v, m₂⟩ h₂
    exact (hR.rightBracket h₂).bind fun m₃ h₃ => .ok (hR.setValue h₃ (Nat.le_refl x))
  · rintro ⟨v, m₂⟩ h₂
    exact .ite (fun _ => .ok (hR.setValue h₂ (Nat.le_refl x))) fun _ => outcome_fail (by decide)

theorem elAtom (hr : ∀ h, Respects R (routine h) (routine' h)) (hev : Evaluator.Within R ev ev')
    (h : R x m m₁) :
    Outcome (R x m) Stop.Spares (elAtom routine fuel ev m₁ x) (elAtom routine' fuel ev' m₁ x) := by
  refine .ite (fun _ => hR.elVariable hev h) fun _ => ?_
  refine .ite (fun _ => .ok (hR.elConstant h)) fun _ => ?_
  refine .ite (fun _ => .ite (fun _ => outcome_fail (by decide)) fun _ => .ok ?_) fun _ => ?_
  · have h₂ : R x m (m₁.setValue x (add16 m₁.dCodePtr 2, 0)) := hR.setValue h (Nat.le_refl x)
    refine hR.typeString (hR.regs h₂ ?_)
    exact ⟨rfl, rfl, rfl, rfl, rfl, rfl, rfl, rfl, rfl⟩
  · refine .ite (fun _ => .ok (hR.elConstant ?_)) fun _ => hR.elUnaryKeyword hr hev h
    exact hR.skipToken (hR.regs h ⟨rfl, rfl, rfl, rfl, rfl, rfl, rfl, rfl, rfl⟩)

/-- **The evaluator keeps within a frame that its routines respect**, whatever code it evaluates. By
induction on the fuel, for the two halves of the climber together. -/
theorem evaluateLevel_elGotAtom (hr : ∀ h, Respects R (routine h) (routine' h)) :
    ∀ fuel, Evaluator.Within R (evaluateLevel routine fuel) (evaluateLevel routine' fuel) ∧
      ∀ m x, Outcome (fun r => R x m r.2) Stop.Spares (elGotAtom routine fuel m x)
        (elGotAtom routine' fuel m x) := by
  intro fuel
  induction fuel with
  | zero => exact ⟨fun m x a => .error trivial, fun m x => .error trivial⟩
  | succ fuel ih =>
    obtain ⟨hev, hgot⟩ := ih
    refine ⟨fun m x a => ?_, fun m x => ?_⟩
    · rw [evaluateLevel_succ, evaluateLevel_succ]
      refine (hR.elAtom hr hev (hR.setDp (Nat.le_add_right x exsPrecType))).bind fun m₁ h₁ => ?_
      exact (hgot m₁ x).mono fun _ h₂ => hR.trans h₁ h₂
    · rw [elGotAtom, elGotAtom]
      refine .ite (fun _ => .ok hR.refl) fun _ => ?_
      have h₁ : R x m { m with dTemp1 := m.dp (x + exsPrecType) &&& 15 <<< tokenShift } :=
        hR.registers ⟨rfl, rfl, rfl, rfl, rfl, rfl, rfl, rfl, rfl⟩
      refine .ite (fun _ => .ok h₁) fun _ => ?_
      refine (hR.nextGivenLevel hev (hR.skipToken h₁) _).bind ?_
      rintro ⟨v, m₂⟩ h₂
      refine (hR.elExecuteY hr hev h₂ _).bind fun m₃ h₃ => ?_
      exact (hgot m₃ x).mono fun _ h₄ => hR.trans h₃ h₄

theorem evaluateLevel (hr : ∀ h, Respects R (routine h) (routine' h)) (fuel : ℕ) :
    Evaluator.Within R (evaluateLevel routine fuel) (evaluateLevel routine' fuel) :=
  (hR.evaluateLevel_elGotAtom hr fuel).1

end

end Frame

end Basic65816
