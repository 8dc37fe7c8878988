import Basic65816.Machine.Workspace
import Basic65816.Machine.Tokeniser

/-!
# Expression stack and utilities (`utility.asm`)

The expression stack is a row of slots in the direct page, six bytes each: the value (low and high
word) and the word that holds the precedence level and, in bit 15, the type. The evaluator of
`expression.asm` and the routines it calls refer to each other; the routines take the evaluator as
an argument.

## Main definitions

* `Value`, `Evaluator`, `Routine`: what `EvaluateLevel` returns, and the routines around it
* `Machine.dp`, `Machine.setDp`: words of the direct page
* `expectToken`, `checkBothNumeric`, `resetTypeInteger`, `resetTypeString`
-/

namespace Basic65816

def exsValueL : ℕ := 0
def exsValueH : ℕ := 2
def exsPrecType : ℕ := 4
def exsNext : ℕ := 6

/-- The shift from the type of a token to its place in the token word. -/
def tokenShift : ℕ := 9

def minusTokenID : ℕ := 0x240b
def commaTokenID : ℕ := 0x3224
def colonTokenID : ℕ := 0x3226
def lparenTokenID : ℕ := 0x3227
def rparenTokenID : ℕ := 0x3228

/-- A long word: the low and the high word. -/
abbrev Long := ℕ × ℕ

/-- What `EvaluateLevel` returns: the value in `A` (low) and `Y` (high), and the carry, which is set
for a string. -/
structure Value where
  a : ℕ
  y : ℕ
  c : Bool
  deriving DecidableEq, Repr

/-- `EvaluateLevel`, with the expression stack offset in `X` and the shifted level in `A`. -/
abbrev Evaluator := Machine → ℕ → ℕ → Result (Value × Machine)

/-- A routine reached through the vector table while an expression is evaluated, with the expression
stack offset in `X`. -/
abbrev Routine := ℕ → Evaluator → Machine → ℕ → Result Machine

namespace Machine

variable (m : Machine)

/-- `lda a` in the direct page. -/
def dp (a : ℕ) : ℕ := m.page.word a

/-- `sta a` in the direct page. -/
def setDp (a v : ℕ) : Machine := { m with page := m.page.setWord a v }

/-- The value in the slot at `x`. -/
def value (x : ℕ) : Long := (m.dp (x + exsValueL), m.dp (x + exsValueH))

/-- Store a value in the slot at `x`. -/
def setValue (x : ℕ) (v : Long) : Machine :=
  (m.setDp (x + exsValueL) v.1).setDp (x + exsValueH) v.2

/-- Bit 15 of the precedence word: the slot holds a string. -/
def isString (x : ℕ) : Bool := decide (0x8000 ≤ m.dp (x + exsPrecType))

/-- `lda (DCodePtr)`: the next token. -/
def token : ℕ := m.bank.word m.dCodePtr

/-- `inc DCodePtr` twice: skip the next token. -/
def skipToken : Machine := { m with dCodePtr := add16 m.dCodePtr 2 }

end Machine

/-- `ExpectToken`. -/
def expectToken (m : Machine) (a : ℕ) : Result Machine :=
  if a = m.token then .ok m.skipToken else fail m .missingToken

theorem expectToken_eq {m m' : Machine} {a : ℕ} (h : expectToken m a = .ok m') :
    m' = m.skipToken := by
  unfold expectToken at h
  split_ifs at h
  · exact (Except.ok.inj h).symm
  · cases h

/-- `ExpectRightBracket`. -/
def expectRightBracket (m : Machine) : Result Machine := expectToken m rparenTokenID

/-- `ExpectComma`. -/
def expectComma (m : Machine) : Result Machine := expectToken m commaTokenID

/-- `CheckBothNumeric`. -/
def checkBothNumeric (m : Machine) (x : ℕ) : Result Machine :=
  if m.isString x || m.isString (x + exsNext) then fail m .operatorIntegerOnly else .ok m

/-- `ResetTypeInteger`. -/
def resetTypeInteger (m : Machine) (x : ℕ) : Machine :=
  m.setDp (x + exsPrecType) (m.dp (x + exsPrecType) % 0x8000)

/-- `ResetTypeString`. -/
def resetTypeString (m : Machine) (x : ℕ) : Machine :=
  m.setDp (x + exsPrecType) (m.dp (x + exsPrecType) % 0x8000 + 0x8000)

/-! ## The evaluator, seen from a function -/

section

variable (ev : Evaluator) (m : Machine) (x : ℕ)

/-- `EvaluateNextGivenLevel`: evaluate in the next slot. -/
def evaluateNextGivenLevel (a : ℕ) : Result (Value × Machine) := ev m (x + exsNext) a

/-- `EvaluateNext`. -/
def evaluateNext : Result (Value × Machine) := evaluateNextGivenLevel ev m x (0 <<< tokenShift)

/-- `EvaluateNextAtomic`. -/
def evaluateNextAtomic : Result (Value × Machine) :=
  evaluateNextGivenLevel ev m x (7 <<< tokenShift)

/-- `EvaluateNextInteger`. -/
def evaluateNextInteger : Result (Value × Machine) := do
  let (v, m) ← evaluateNext ev m x
  if v.c then fail m .numberExpected else .ok (v, m)

/-- `EvaluateNextString`. -/
def evaluateNextString : Result (Value × Machine) := do
  let (v, m) ← evaluateNext ev m x
  if v.c then .ok (v, m) else fail m .stringExpected

end

/-! ## Long arithmetic -/

/-- `clc`, `adc`, `adc`. -/
def addLong (a b : Long) : Long :=
  ((a.1 + b.1) % 0x10000, (a.2 + b.2 + (a.1 + b.1) / 0x10000) % 0x10000)

/-- The borrow out of the low words, when `borrow` is subtracted too. -/
def borrowLow (borrow : ℕ) (a b : Long) : ℕ := if a.1 < b.1 + borrow then 1 else 0

/-- `sbc` with the borrow given. -/
def sbc16 (a b borrow : ℕ) : ℕ := (a + (0x10000 - b) - borrow) % 0x10000

/-- `sec`, `sbc`, `sbc`. -/
def subLong (a b : Long) : Long := (sub16 a.1 b.1, sbc16 a.2 b.2 (borrowLow 0 a b))

/-- `asl`, `rol`. -/
def aslLong (a : Long) : Long := doubleLong a.1 a.2

/-- `lsr` of the high word, `ror` of the low word. -/
def lsrLong (a : Long) : Long := (a.1 / 2 + (a.2 % 2) * 0x8000, a.2 / 2)

end Basic65816
