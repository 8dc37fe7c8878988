import Basic65816.Machine.Unary
import Basic65816.Machine.Expression

/-!
# Printing (`print.asm`, `hwinterface.asm`)

The screen and the cursor are in the last bank of the emulated hardware. `print` calls the routines of
the hardware interface; its calls are returned beside the state.

## Main definitions

* `hwPrintChar`, `hwMoveCursor`: the hardware interface
* `printBasicString`: `PrintBASICString`
* `commandPrint`: `print`
-/

namespace Basic65816

def semicolonTokenID : ℕ := 0x3225
def squoteTokenID : ℕ := 0x3229
def printTokenID : ℕ := 0x3e35

/-! ## The hardware interface -/

def hwCursor : ℕ := 0xF8020
def hwScreen : ℕ := 0xF0000
def sWidth : ℕ := 64
def sHeight : ℕ := 32

/-- `_HWScrollUp`: `n` more words, from `x` on, are those one line below. -/
def hwScrollUp : ℕ → Memory → ℕ → Memory
  | 0, far, _ => far
  | n + 1, far, x =>
    hwScrollUp n (far.setWord (hwScreen + x) (far.word (hwScreen + sWidth + x))) (x + 2)

/-- `_HWBlank`: `n` more words, from `x` on, are blank. -/
def hwBlank : ℕ → Memory → ℕ → Memory
  | 0, far, _ => far
  | n + 1, far, x => hwBlank n (far.setWord (hwScreen + x) 0x2020) (x + 2)

/-- `HWPrintChar`: the low byte of `a` into the cell at the cursor; `$FFFF` only moves the cursor. At
the end of the screen it scrolls. -/
def hwPrintChar (far : Memory) (a : ℕ) : Memory :=
  let x := far.word hwCursor
  let far := if a = 0xFFFF then far else far.setByte (hwScreen + x) a
  let x := add16 x 1
  let far := far.setWord hwCursor x
  if x ≠ sWidth * sHeight then far
  else
    let far := far.setWord hwCursor (sub16 x sWidth)
    let far := hwScrollUp (sWidth * sHeight / 2) far 0
    hwBlank (sWidth / 2) far (sWidth * (sHeight - 1))

/-- `HWMoveCursor`: move the cursor on until its position has none of the bits of `x`. -/
def hwMoveCursor : ℕ → Memory → ℕ → Result Memory
  | 0, _, _ => .error .outOfFuel
  | fuel + 1, far, x =>
    let far := hwPrintChar far 0xFFFF
    if x &&& far.word hwCursor ≠ 0 then hwMoveCursor fuel far x else .ok far

/-- `HWNewLine`. -/
def hwNewLine (fuel : ℕ) (far : Memory) : Result Memory := hwMoveCursor fuel far (sWidth - 1)

/-- `HWTab`. -/
def hwTab (fuel : ℕ) (far : Memory) : Result Memory := hwMoveCursor fuel far 7

/-! ## `print` -/

/-- A call of the hardware interface, with `A` for a character. -/
inductive HwCall
  | printChar (a : ℕ)
  | tab
  | newLine
  deriving DecidableEq, Repr

/-- `_PBSLoop`: print `x` characters behind `y`, each loaded with the byte that follows it. -/
def pbsLoop : ℕ → Machine → ℕ → List HwCall × Machine
  | 0, m, _ => ([], m)
  | x + 1, m, y =>
    let y := add16 y 1
    let a := m.bank.word y
    let (calls, m) := pbsLoop x { m with far := hwPrintChar m.far a } y
    (.printChar a :: calls, m)

/-- `PrintBASICString`: print the string at `y`. -/
def printBasicString (m : Machine) (y : ℕ) : List HwCall × Machine :=
  pbsLoop (m.bank.byte y) m y

/-- `_FPRExitCR`: a new line, unless the word in front of the code pointer is a separator. -/
def fprExitCR (fuel : ℕ) (m : Machine) : Result (List HwCall × Machine) :=
  let a := m.bank.word (sub16 m.dCodePtr 2)
  if a = commaTokenID ∨ a = semicolonTokenID then .ok ([], m)
  else do
    let far ← hwNewLine fuel m.far
    .ok ([.newLine], { m with far := far })

/-- `_FPRExpression`: the address of the string to print, that of a number is converted. -/
def fprExpression (fuel : ℕ) (m : Machine) : Result (ℕ × Machine) := do
  let (v, m) ← evaluate fuel m
  if v.c then .ok (v.a, m)
  else do
    let m ← convertToString fuel m (v.a, v.y) 10
    .ok (m.dStartTempString, m)

/-- `Command_PRINT`: the calls of the hardware interface, and the state behind them. -/
def commandPrint : ℕ → Machine → Result (List HwCall × Machine)
  | 0, _ => .error .outOfFuel
  | fuel + 1, m =>
    let t := m.token
    if t = 0 ∨ t = colonTokenID then fprExitCR fuel m
    else if t = semicolonTokenID then commandPrint fuel m.skipToken
    else if t = squoteTokenID then do
      let far ← hwNewLine fuel m.far
      let (calls, m) ← commandPrint fuel { m with far := far }.skipToken
      .ok (.newLine :: calls, m)
    else if t = commaTokenID then do
      let far ← hwTab fuel m.far
      let (calls, m) ← commandPrint fuel { m with far := far }.skipToken
      .ok (.tab :: calls, m)
    else do
      let (y, m) ← fprExpression fuel m
      let (printed, m) := printBasicString m y
      let (calls, m) ← commandPrint fuel m
      .ok (printed ++ calls, m)

end Basic65816
