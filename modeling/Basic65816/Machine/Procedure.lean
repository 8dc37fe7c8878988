import Basic65816.Machine.Structure

/-!
# Procedures and local variables (`procedure.asm`, `local.asm`)

A local variable leaves a frame on the BASIC stack: for an integer the value, the data address and
`$C000`; for a string the characters from the last to the first, the length, the data address and
`$E000`.

## Main definitions

* `commandLocal`, `localRestore`: save and restore variables
* `commandProc`, `commandEndproc`: calls and returns
-/

namespace Basic65816

def procTokenID : ℕ := 0x3e41
def defprocTokenID : ℕ := 0x3c48

/-! ## `local.asm` -/

/-- `_LPVPushOut`: push the `n + 1` bytes of a string at `DTemp1`, from the last to the first; the
stack offset behind them. -/
def lpvPushOut : ℕ → Machine → ℕ → ℕ × Machine
  | 0, m, x => (add16 x 1, m.setDp x (m.bank.word m.dTemp1))
  | n + 1, m, x =>
    lpvPushOut n (m.setDp x (m.bank.word (m.dTemp1 + (n + 1)))) (add16 x 1)

/-- `_LPVStringPush`: save the string variable whose data is at `y`. -/
def lpvStringPush (m : Machine) (y : ℕ) : Machine :=
  if m.bank.word y = 0 then m
  else
    let m := { m with dTemp1 := m.bank.word y }
    let (x, m) := lpvPushOut (m.bank.byte m.dTemp1) m (add16 m.dStack 2)
    { (m.setDp x y).setDp (x + 2) 0xE000 with dStack := add16 x 2 }

/-- `Push a number`: save the integer variable whose data is at `y`. -/
def lpvIntegerPush (m : Machine) (y : ℕ) : Machine :=
  let x := m.dStack
  let m := (m.setDp (x + 2) (m.bank.word y)).setDp (x + 4) (m.bank.word (y + 2))
  { (m.setDp (x + 6) y).setDp (x + 8) 0xC000 with dStack := add16 x 8 }

/-- `LocalProcessVariable`: make the variable at the code pointer local; its data address, and the
carry, which is set for a string. -/
def localProcessVariable (fuel : ℕ) (m : Machine) : Result ((ℕ × Bool) × Machine) :=
  if m.token < 0xC000 then fail m .badLocalIdentifier
  else if m.token &&& idArrayMask ≠ 0 then fail m .badLocalIdentifier
  else do
    let token := m.token
    let (data, m) ← variableFind fuel m
    let (y, m) ←
      match data with
      | some a => .ok (a, m)
      | none => variableCreate fuel m
    if token &&& idTypeMask = 0 then .ok ((y, false), lpvIntegerPush m y)
    else .ok ((y, true), lpvStringPush m y)

/-- `Command_LOCAL`. -/
def commandLocal : ℕ → Machine → Result Machine
  | 0, _ => .error .outOfFuel
  | fuel + 1, m => do
    let (_, m) ← localProcessVariable fuel m
    if m.token = commaTokenID then commandLocal fuel m.skipToken else .ok m

/-- `_LRRecover`: copy `n + 1` bytes from the stack at `x` downwards to `DTemp1` upwards. -/
def lrRecover : ℕ → Machine → ℕ → ℕ × Machine
  | 0, m, x =>
    (sub16 x 1, { m with bank := m.bank.setByte m.dTemp1 (m.dp x), dTemp1 := add16 m.dTemp1 1 })
  | n + 1, m, x =>
    lrRecover n { m with bank := m.bank.setByte m.dTemp1 (m.dp x), dTemp1 := add16 m.dTemp1 1 }
      (sub16 x 1)

/-- `_LRIntegerPull`. -/
def lrIntegerPull (m : Machine) : Machine :=
  let x := sub16 m.dStack 8
  let y := m.dp (x + 6)
  { m with
    dStack := x
    bank := (m.bank.setWord y (m.dp (x + 2))).setWord (y + 2) (m.dp (x + 4)) }

/-- `_LRString`. -/
def lrString (m : Machine) : Machine :=
  let x := sub16 m.dStack 2
  let y := m.dp x
  let m := { m with dTemp1 := m.bank.word y }
  let x := sub16 x 1
  let (x, m) := lrRecover (m.dp x % 256) m x
  { m with dStack := sub16 x 1 }

/-- `LocalRestore`: restore the local variables on top of the stack. -/
def localRestore : ℕ → Machine → Result Machine
  | 0, _ => .error .outOfFuel
  | fuel + 1, m =>
    if m.dp m.dStack < 0xC000 then .ok m
    else if m.dp m.dStack = 0xC000 then localRestore fuel (lrIntegerPull m)
    else localRestore fuel (lrString m)

/-! ## `procedure.asm` -/

/-- `_FPROCompare`: compare the name at `DTemp1` with the identifier at the code pointer from offset
`y` on; the length of the name, if they match. -/
def fproCompare : ℕ → Machine → ℕ → Result (Option ℕ)
  | 0, _, _ => .error .outOfFuel
  | fuel + 1, m, y =>
    let a := m.bank.word (m.dTemp1 + y)
    if a ≠ m.bank.word (m.dCodePtr + y) then .ok none
    else if a &&& idContMask ≠ 0 then fproCompare fuel m (add16 y 2)
    else .ok (some (add16 y 2))

/-- `_FPROLoop`: find the line that begins with `defproc` and the name at the code pointer; the length
of the name and the address of the line. -/
def fproLoop : ℕ → Machine → ℕ → Result ((ℕ × ℕ) × Machine)
  | 0, _, _ => .error .outOfFuel
  | fuel + 1, m, x =>
    let next := add16 x (m.bank.word x)
    if m.bank.word x = 0 then fail m .unknownProcedure
    else if m.bank.word (x + 4) ≠ defprocTokenID then fproLoop fuel m next
    else if m.bank.word (x + 6) ≠ m.token then fproLoop fuel m next
    else do
      let m := { m with dTemp1 := add16 x 6 }
      match ← fproCompare fuel m 0 with
      | none => fproLoop fuel m next
      | some y => .ok ((y, x), m)

/-- `_FPROGetValues`: evaluate the arguments into the parameter buffer at `x`; the offset behind the
last one. -/
def fproGetValues : ℕ → Machine → ℕ → Result (ℕ × Machine)
  | 0, _, _ => .error .outOfFuel
  | fuel + 1, m, x => do
    let (v, m) ← evaluate fuel m
    let m := (m.setDp x v.a).setDp (x + 0x10) v.y
    let m := m.setDp (x + 0x20) (if v.c then 1 else 0)
    let x := add16 x 2
    let t := m.token
    let m := m.skipToken
    if t = commaTokenID then fproGetValues fuel m x
    else if t ≠ rparenTokenID then fail m .syntaxError
    else .ok (x, m.setDp (x + 0x20) 0xFFFF)

/-- One round of `_FPROSetupLoop`: make the parameter at the code pointer local and store the
argument at `x` of the buffer in it. -/
def fproSetup (fuel : ℕ) (m : Machine) (x : ℕ) : Result Machine := do
  let string := m.dp (x + 0x20) ≠ 0
  let ((y, c), m) ← localProcessVariable fuel m
  if string then
    if c then stringAssign m (m.dp x) y else fail m .badParameterType
  else
    if c then fail m .badParameterType
    else .ok { m with bank := (m.bank.setWord y (m.dp x)).setWord (y + 2) (m.dp (x + 0x10)) }

/-- `_FPROSetupLoop`. -/
def fproSetupLoop : ℕ → Machine → ℕ → Result Machine
  | 0, _, _ => .error .outOfFuel
  | fuel + 1, m, x => do
    let m ← fproSetup fuel m x
    let x := add16 x 2
    if 0x8000 ≤ m.dp (x + 0x20) then expectRightBracket m
    else do
      let m ← expectComma m
      fproSetupLoop fuel m x

/-- `_FPROParameter`: evaluate the arguments, behind the call, then set up the parameters, behind the
definition. -/
def fproParameter (fuel : ℕ) (m : Machine) : Result Machine := do
  let code := m.dCodePtr
  let x := sub16 m.dStack 4
  let (_, m) ← fproGetValues fuel { m with dCodePtr := m.dp x } prmBuffer
  let m := { m.setDp x m.dCodePtr with dCodePtr := code }
  fproSetupLoop fuel m prmBuffer

/-- `Command_PROC`. -/
def commandProc (fuel : ℕ) (m : Machine) : Result Machine := do
  let ((y, x), m) ← fproLoop fuel m m.programStart
  let code := add16 y m.dTemp1
  let m := m.pushFrame (add16 y m.dCodePtr) procTokenID
  let m := { m with dLineNumber := m.bank.word (x + 2), dCodePtr := code }
  if m.bank.word (sub16 m.dCodePtr 2) &&& idArrayMask = 0 then .ok m else fproParameter fuel m

/-- `Command_ENDPROC`. -/
def commandEndproc (fuel : ℕ) (m : Machine) : Result Machine := do
  let m ← localRestore fuel m
  if m.dp m.dStack ≠ procTokenID then fail m .endProcWithoutProc else .ok m.popFrame

end Basic65816
