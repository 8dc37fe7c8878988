import Basic65816.Machine.Binary
import Basic65816.Machine.Unary
import Basic65816.Machine.Variable

/-!
# Expression evaluation (`expression.asm`)

`EvaluateLevel` is a precedence climber: it reads an atom into the slot at `x`, then applies binary
operators as long as their level is not below the one it was called with, each right operand being
evaluated one level higher in the next slot. The routines it calls through the vector table are a
parameter.

## Main definitions

* `elAtom`, `elGotAtom`, `evaluateLevel`: the climber
* `Handler.routine`: the routines of the vector table
* `evaluate`, `evaluateInteger`, `evaluateString`: the entries for commands
-/

namespace Basic65816

def unaryFunction : ℕ := 8

/-- `_ELConstant`: the constant token, with the constant shift that was set before. -/
def elConstant (m : Machine) (x : ℕ) : Machine :=
  let a := 2 * sub16 m.token 0x4000 % 0x10000
  let shift := m.dConstantShift
  let m := m.setValue x (a / 2 + (shift % 2) * 0x8000, shift / 2)
  { m with dConstantShift := 0 }.skipToken

/-- `_ELConstantShift`. -/
def elConstantShift (m : Machine) (x : ℕ) : Machine :=
  elConstant { m with dConstantShift := m.token &&& 0x0FFF }.skipToken x

/-- `_ELStringConstant`: the address of the string that follows the token. -/
def elStringConstant (m : Machine) (x : ℕ) : Result Machine :=
  if m.token = 0 then fail m .syntaxError
  else
    let m := m.setValue x (add16 m.dCodePtr 2, 0)
    let m := { m with dCodePtr := add16 m.token m.dCodePtr }
    .ok (resetTypeString m x)

/-- `_ELVariable`: the type is shifted in as the carry. -/
def elVariable (fuel : ℕ) (ev : Evaluator) (m : Machine) (x : ℕ) : Result Machine := do
  let m := m.setDp (x + exsPrecType) (2 * m.dp (x + exsPrecType) % 0x10000)
  let (v, m) ← variableAccessExpression fuel ev m x
  let m := m.setValue x (v.a, v.y)
  .ok (m.setDp (x + exsPrecType)
    (m.dp (x + exsPrecType) / 2 + if v.c then 0x8000 else 0))

/-- `_ELCopy`: copy the value of the next slot. -/
def elCopy (m : Machine) (x : ℕ) : Machine := m.setValue x (m.value (x + exsNext))

/-- `_ELMinus`. -/
def elMinus (m : Machine) (x : ℕ) : Machine :=
  m.setValue x (subLong (0, 0) (m.value (x + exsNext)))

/-- `_ELExecuteY`: call the routine of the token `y`. -/
def elExecuteY (routine : Handler → Routine) (fuel : ℕ) (ev : Evaluator) (m : Machine) (x y : ℕ) :
    Result Machine :=
  match commandJumpTable[y &&& 0x01FF]? with
  | some h => routine h fuel ev m x
  | none => .error .leaves

/-- `_ELUnaryKeyword`: a function, a parenthesised expression or a unary operator. -/
def elUnaryKeyword (routine : Handler → Routine) (fuel : ℕ) (ev : Evaluator) (m : Machine)
    (x : ℕ) : Result Machine :=
  let y := m.token
  let m := m.skipToken
  if y &&& 15 <<< tokenShift = unaryFunction <<< tokenShift then elExecuteY routine fuel ev m x y
  else if y = lparenTokenID then do
    let (_, m) ← evaluateNext ev m x
    let m ← expectRightBracket m
    .ok (elCopy m x)
  else do
    let (_, m) ← evaluateNextAtomic ev m x
    if y = minusTokenID then .ok (elMinus m x) else fail m .syntaxError

/-- The first part of `EvaluateLevel`: read an atom into the slot at `x`. -/
def elAtom (routine : Handler → Routine) (fuel : ℕ) (ev : Evaluator) (m : Machine) (x : ℕ) :
    Result Machine :=
  if 0xC000 ≤ m.token then elVariable fuel ev m x
  else if 0x4000 ≤ m.token then .ok (elConstant m x)
  else if m.token < 0x1000 then elStringConstant m x
  else if m.token < 0x2000 then .ok (elConstantShift m x)
  else elUnaryKeyword routine fuel ev m x

/-- `_ELExit`. -/
def elExit (m : Machine) (x : ℕ) : Value × Machine :=
  ({ a := (m.value x).1, y := (m.value x).2, c := m.isString x }, m)

mutual

/-- `EvaluateLevel`. -/
def evaluateLevel (routine : Handler → Routine) : ℕ → Evaluator
  | 0 => fun _ _ _ => .error .outOfFuel
  | fuel + 1 => fun m x a => do
    let m := m.setDp (x + exsPrecType) (a % 0x8000)
    let m ← elAtom routine fuel (evaluateLevel routine fuel) m x
    elGotAtom routine fuel m x

/-- `_ELGotAtom`: apply binary operators to the atom at `x`. -/
def elGotAtom (routine : Handler → Routine) : ℕ → Machine → ℕ → Result (Value × Machine)
  | 0 => fun _ _ => .error .outOfFuel
  | fuel + 1 => fun m x =>
    let y := m.token
    if y &&& 0xF000 ≠ 0x2000 then .ok (elExit m x)
    else
      let m := { m with dTemp1 := m.dp (x + exsPrecType) &&& 15 <<< tokenShift }
      if y &&& 15 <<< tokenShift < m.dTemp1 then .ok (elExit m x)
      else do
        let (_, m) ← evaluateNextGivenLevel (evaluateLevel routine fuel) m.skipToken x
          ((y &&& 15 <<< tokenShift) + 1 <<< tokenShift)
        let m ← elExecuteY routine fuel (evaluateLevel routine fuel) m x y
        elGotAtom routine fuel m x

end

section

variable {routine : Handler → Routine} {fuel : ℕ} {m : Machine} {x : ℕ}

theorem evaluateLevel_succ (a : ℕ) : evaluateLevel routine (fuel + 1) m x a =
    (elAtom routine fuel (evaluateLevel routine fuel) (m.setDp (x + exsPrecType) (a % 0x8000)) x >>=
      fun m => elGotAtom routine fuel m x) := rfl

/-- A token that is not an operator ends the loop. -/
theorem elGotAtom_of_ne (h : m.token &&& 0xF000 ≠ 0x2000) :
    elGotAtom routine (fuel + 1) m x = .ok (elExit m x) := if_pos h

/-- An operator of a lower level ends the loop. -/
theorem elGotAtom_of_lt (h : m.token &&& 0xF000 = 0x2000) (hlt : m.token &&& 15 <<< tokenShift <
    m.dp (x + exsPrecType) &&& 15 <<< tokenShift) : elGotAtom routine (fuel + 1) m x =
      .ok (elExit { m with dTemp1 := m.dp (x + exsPrecType) &&& 15 <<< tokenShift } x) :=
  (if_neg (not_not.mpr h)).trans (if_pos hlt)

/-- Any other operator is applied. -/
theorem elGotAtom_of_le (h : m.token &&& 0xF000 = 0x2000)
    (hle : m.dp (x + exsPrecType) &&& 15 <<< tokenShift ≤ m.token &&& 15 <<< tokenShift) :
    elGotAtom routine (fuel + 1) m x =
      (evaluateLevel routine fuel
        { m with dTemp1 := m.dp (x + exsPrecType) &&& 15 <<< tokenShift }.skipToken (x + exsNext)
        ((m.token &&& 15 <<< tokenShift) + 1 <<< tokenShift) >>= fun r =>
      elExecuteY routine fuel (evaluateLevel routine fuel) r.2 x m.token >>= fun m =>
      elGotAtom routine fuel m x) :=
  (if_neg (not_not.mpr h)).trans (if_neg (Nat.not_lt.mpr hle))

end

/-- The routines of the vector table. A command is not called from here: its tokens are neither
operators nor functions. -/
def Handler.routine : Handler → Routine
  | .illegalToken => fun _ _ m _ => fail m .illegalToken
  | .binary op => fun _ _ m x => op.routine m x
  | .unary f => f.routine
  | .command _ => fun _ _ _ _ => .error .leaves

/-- `Evaluate`. -/
def evaluate (fuel : ℕ) (m : Machine) : Result (Value × Machine) :=
  evaluateLevel Handler.routine fuel m (add16 m.dStack 16) (0 <<< tokenShift)

/-- `EvaluateInteger`. -/
def evaluateInteger (fuel : ℕ) (m : Machine) : Result (Value × Machine) := do
  let (v, m) ← evaluate fuel m
  if v.c then fail m .numberExpected else .ok (v, m)

/-- `EvaluateString`. -/
def evaluateString (fuel : ℕ) (m : Machine) : Result (Value × Machine) := do
  let (v, m) ← evaluate fuel m
  if v.c then .ok (v, m) else fail m .stringExpected

end Basic65816
