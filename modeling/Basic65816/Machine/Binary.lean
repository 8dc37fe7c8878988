import Basic65816.Machine.StringTemp
import Basic65816.Machine.Utility

/-!
# Binary operators (`binary/*.asm`)

An operator finds its left operand in the slot at `x` and its right operand in the next slot; it
leaves its result at `x`. Multiplication and division change the right operand too.

## Main definitions

* `compareTypeCheck`, `compareLong`: comparisons
* `multiplyLoop`, `binaryDivideLoop`: the loops on long words
* `BinaryOperator.routine`: the routine of an operator
-/

namespace Basic65816

/-! ## `arithmetic.asm` -/

/-- `_BAConcatenateString`. -/
def baConcatenateString (m : Machine) (x : ℕ) : Result Machine :=
  let m := { m with dTemp1 := m.dp (x + exsValueL), dTemp2 := m.dp (x + exsNext + exsValueL) }
  let length := m.bank.byte m.dTemp1 + m.bank.byte m.dTemp2
  if 256 ≤ length then fail m .stringTooLong
  else
    let m := stringTempAllocate m length
    let m := m.setValue x (m.dStartTempString, 0)
    let m := stringCreateCopy m m.dTemp1
    .ok (stringCreateCopy m m.dTemp2)

/-- `Binary_Add`. -/
def binaryAdd (m : Machine) (x : ℕ) : Result Machine :=
  if m.isString x ≠ m.isString (x + exsNext) then fail m .addMixTypes
  else if m.isString x then baConcatenateString m x
  else .ok (m.setValue x (addLong (m.value x) (m.value (x + exsNext))))

/-- `Binary_Subtract`. -/
def binarySubtract (m : Machine) (x : ℕ) : Result Machine := do
  let m ← checkBothNumeric m x
  .ok (m.setValue x (subLong (m.value x) (m.value (x + exsNext))))

/-- `Binary_ShiftRight`. -/
def binaryShiftRight (m : Machine) (x : ℕ) : Result Machine := do
  let m ← checkBothNumeric m x
  .ok (m.setValue x (lsrLong^[m.dp (x + exsNext + exsValueL) % 64] (m.value x)))

/-- `Binary_ShiftLeft`. -/
def binaryShiftLeft (m : Machine) (x : ℕ) : Result Machine := do
  let m ← checkBothNumeric m x
  .ok (m.setValue x (aslLong^[m.dp (x + exsNext + exsValueL) % 64] (m.value x)))

/-! ## `bitwise.asm` -/

/-- The common form of the three routines: a word operation on both words. -/
def bitwise (f : ℕ → ℕ → ℕ) (m : Machine) (x : ℕ) : Result Machine := do
  let m ← checkBothNumeric m x
  let l := m.value x
  let r := m.value (x + exsNext)
  .ok (m.setValue x (f l.1 r.1, f l.2 r.2))

/-- `Binary_And`. -/
def binaryAnd : Machine → ℕ → Result Machine := bitwise (· &&& ·)

/-- `Binary_Or`. -/
def binaryOr : Machine → ℕ → Result Machine := bitwise (· ||| ·)

/-- `Binary_Xor`. -/
def binaryXor : Machine → ℕ → Result Machine := bitwise (· ^^^ ·)

/-! ## `comparison.asm` -/

/-- `_CTCEqualSoFar`: the shorter string is the smaller one. -/
def ctcEqualSoFar (m : Machine) : ℕ :=
  if m.bank.byte m.dTemp1 < m.bank.byte m.dTemp2 then 0xFFFF
  else if m.bank.byte m.dTemp1 ≠ m.bank.byte m.dTemp2 then 0x0001 else 0x0000

/-- `_CTCCompare`, with the low byte of `DSignCount` and the index; the sign of the comparison and
the low byte that is left. The loop ends when the byte is negative after its decrement. -/
def ctcCompare (m : Machine) : ℕ → ℕ → ℕ × ℕ
  | 0, _ => (ctcEqualSoFar m, 0xFF)
  | n + 1, y =>
    if 0x80 ≤ n then (ctcEqualSoFar m, n)
    else
      let l := m.bank.byte (m.dTemp1 + add16 y 1)
      let r := m.bank.byte (m.dTemp2 + add16 y 1)
      if l = r then ctcCompare m n (add16 y 1) else (if l < r then 0xFFFF else 0x0001, n)

/-- `_CTCStringCompare`. -/
def ctcStringCompare (m : Machine) (x : ℕ) : ℕ × Machine :=
  let m := resetTypeInteger m x
  let m := { m with dTemp1 := m.dp (x + exsValueL), dTemp2 := m.dp (x + exsNext + exsValueL) }
  let (a, count) := ctcCompare m (min (m.bank.byte m.dTemp1) (m.bank.byte m.dTemp2)) 0
  (a, { m with dSignCount := m.dSignCount / 256 * 256 + count })

/-- `CompareTypeCheck`: nothing for two integers (carry clear), the sign of the comparison for two
strings (carry set). -/
def compareTypeCheck (m : Machine) (x : ℕ) : Result (Option ℕ × Machine) :=
  if m.isString x ≠ m.isString (x + exsNext) then fail m .comparisonMixedTypes
  else if m.isString x then
    let (a, m) := ctcStringCompare m x
    .ok (some a, m)
  else .ok (none, m)

/-- `Compare_Succeed` and `Compare_Fail`. -/
def compareLong (b : Bool) : Long := if b then (0xFFFF, 0xFFFF) else (0, 0)

/-- The common form of the six routines: a test on two integers, and a test on the sign of the
comparison of two strings. -/
def compare (integer : Long → Long → Bool) (string : ℕ → Bool) (m : Machine) (x : ℕ) :
    Result Machine := do
  let (s, m) ← compareTypeCheck m x
  match s with
  | none => .ok (m.setValue x (compareLong (integer (m.value x) (m.value (x + exsNext)))))
  | some a => .ok (m.setValue x (compareLong (string a)))

/-- `lda`, `sbc`, `lda`, `sbc`, `bvc *+5`, `eor #$8000`: the sign left for `bmi` and `bpl`, when
`borrow` is subtracted too. -/
def sbcNegative (borrow : ℕ) (l r : Long) : Bool :=
  let d := sbc16 l.2 r.2 (borrowLow borrow l r)
  let overflow := (l.2 ^^^ r.2) / 0x8000 % 2 = 1 ∧ (l.2 ^^^ d) / 0x8000 % 2 = 1
  decide ((if overflow then d ^^^ 0x8000 else d) / 0x8000 % 2 = 1)

/-- `Binary_Equals`. -/
def binaryEquals : Machine → ℕ → Result Machine := compare (fun l r => l = r) (fun a => a = 0x0000)

/-- `Binary_NotEquals`. -/
def binaryNotEquals : Machine → ℕ → Result Machine :=
  compare (fun l r => l ≠ r) (fun a => a ≠ 0x0000)

/-- `Binary_Less`. -/
def binaryLess : Machine → ℕ → Result Machine :=
  compare (fun l r => sbcNegative 0 l r) (fun a => a = 0xFFFF)

/-- `Binary_GreaterEqual`. -/
def binaryGreaterEqual : Machine → ℕ → Result Machine :=
  compare (fun l r => !sbcNegative 0 l r) (fun a => a < 0x8000)

/-- `Binary_LessEqual`. -/
def binaryLessEqual : Machine → ℕ → Result Machine :=
  compare (fun l r => sbcNegative 1 l r) (fun a => a ≠ 0x0001)

/-- `Binary_Greater`. -/
def binaryGreater : Machine → ℕ → Result Machine :=
  compare (fun l r => !sbcNegative 1 l r) (fun a => a = 0x0001)

/-! ## `divide.asm` -/

/-- The value `Binary_DivNegate` leaves. -/
def negLong (v : Long) : Long := subLong (0x0000, 0x0000) v

/-- `Binary_DivNegate`. -/
def binaryDivNegate (m : Machine) (x : ℕ) : Machine :=
  { m.setValue x (negLong (m.value x)) with dSignCount := add16 m.dSignCount 1 }

/-- `_BinaryDivide_Loop`, `n` rounds with the divisor `d`, on the quotient, the partial remainder in
`DTemp1` and the word in `DTemp2`, which every round overwrites. -/
def binaryDivideLoop (d : Long) : ℕ → Long × Long × ℕ → Long × Long × ℕ
  | 0, s => s
  | n + 1, (q, a, _) =>
    let a := ((2 * a.1 + q.2 / 0x8000) % 0x10000, (2 * a.2 + a.1 / 0x8000) % 0x10000)
    let q := aslLong q
    let s := subLong a d
    if a.2 < d.2 + borrowLow 0 a d then binaryDivideLoop d n (q, a, s.1)
    else binaryDivideLoop d n ((add16 q.1 1, q.2), s, s.1)

/-- The operand at `x` is negated if it is negative. -/
def binaryDivAbs (m : Machine) (x : ℕ) : Machine :=
  if 0x8000 ≤ m.dp (x + exsValueH) then binaryDivNegate m x else m

/-- `_BinaryDivide_LeftDone`: the 32 rounds on the slots at `x`. -/
def binaryDivideRounds (m : Machine) (x : ℕ) : Machine :=
  let s := binaryDivideLoop (m.value (x + exsNext)) 32 (m.value x, (0, 0), m.dTemp2)
  { m.setValue x s.1 with dTemp1 := s.2.1.1, dTemp1H := s.2.1.2, dTemp2 := s.2.2 }

/-- `_BinaryDivide_Exit`: restore the sign. -/
def binaryDivideExit (m : Machine) (x : ℕ) : Machine :=
  if m.dSignCount % 2 = 0 then m else binaryDivNegate m x

/-- `Binary_Divide`. -/
def binaryDivide (m : Machine) (x : ℕ) : Result Machine := do
  let m ← checkBothNumeric m x
  if m.value (x + exsNext) = (0, 0) then fail m .divisionByZero
  else
    let m := { m with dTemp1 := 0, dTemp1H := 0, dSignCount := 0 }
    let m := binaryDivAbs (binaryDivAbs m (x + exsNext)) x
    .ok (binaryDivideExit (binaryDivideRounds m x) x)

/-- `Binary_Modulus`. -/
def binaryModulus (m : Machine) (x : ℕ) : Result Machine := do
  let m ← binaryDivide m x
  .ok (m.setValue x (m.dTemp1, m.dTemp1H))

/-! ## `multiply.asm` -/

/-- `_BinaryMultiply_Loop`, on the multiplier in `DTemp1`, the result and the multiplicand; the
result and what is left of the multiplicand. -/
def multiplyLoop (t r d : Long) : Long × Long :=
  if _h : t.1 = 0 ∧ t.2 = 0 then (r, d)
  else multiplyLoop (lsrLong t) (if t.1 % 2 = 0 then r else addLong r d) (aslLong d)
  termination_by t.1 + 0x10000 * t.2
  decreasing_by all_goals (simp only [lsrLong]; omega)

/-- `Binary_Multiply`. -/
def binaryMultiply (m : Machine) (x : ℕ) : Result Machine := do
  let m ← checkBothNumeric m x
  let s := multiplyLoop (m.value x) (0, 0) (m.value (x + exsNext))
  .ok ({ m with dTemp1 := 0, dTemp1H := 0 }.setValue x s.1 |>.setValue (x + exsNext) s.2)

/-- The routine of an operator. -/
def BinaryOperator.routine : BinaryOperator → Machine → ℕ → Result Machine
  | .and => binaryAnd
  | .or => binaryOr
  | .xor => binaryXor
  | .less => binaryLess
  | .greater => binaryGreater
  | .equals => binaryEquals
  | .lessEqual => binaryLessEqual
  | .greaterEqual => binaryGreaterEqual
  | .notEquals => binaryNotEquals
  | .add => binaryAdd
  | .subtract => binarySubtract
  | .multiply => binaryMultiply
  | .divide => binaryDivide
  | .modulus => binaryModulus
  | .shiftRight => binaryShiftRight
  | .shiftLeft => binaryShiftLeft

end Basic65816
