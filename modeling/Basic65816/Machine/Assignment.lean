import Basic65816.Machine.Expression
import Basic65816.Machine.StringConcrete

/-!
# Assignment and arrays (`let.asm`, `dim.asm`)

## Main definitions

* `commandLet`: `let`, with or without its keyword
* `functionDim`: `dim`, one array after the other
-/

namespace Basic65816

def equalTokenID : ℕ := 0x2206

/-- The variable at the code pointer, created if it is not there and is no array; its data address
goes to `DVariablePtr`. -/
def letFind (fuel : ℕ) (m : Machine) : Result Machine := do
  let token := m.token
  let (data, m) ← variableFind fuel m
  match data with
  | some a => .ok { m with dVariablePtr := a }
  | none =>
    if token &&& idArrayMask ≠ 0 then fail { m with dVariablePtr := 0 } .undefinedArray
    else do
      let (a, m) ← variableCreate fuel { m with dVariablePtr := 0 }
      .ok { m with dVariablePtr := a }

/-- The target of an assignment, up to the equals sign; its data address is in `DVariablePtr`. -/
def letTarget (fuel : ℕ) (m : Machine) : Result Machine := do
  let token := m.token
  let m ← letFind fuel m
  let m ←
    if token &&& idArrayMask = 0 then .ok m
    else do
      let (a, m) ← variableSubscript (evaluateLevel Handler.routine fuel) m (add16 m.dStack 2)
        m.dVariablePtr
      .ok { m with dVariablePtr := a }
  if equalTokenID ≠ m.token then fail m .missingEquals else .ok m.skipToken

/-- `Command_Let`. -/
def commandLet (fuel : ℕ) (m : Machine) : Result Machine := do
  let token := m.token
  let m ← letTarget fuel m
  let y := m.dVariablePtr
  if token &&& idTypeMask = 0 then do
    let (_, m) ← evaluateInteger fuel m
    let v := m.value (add16 m.dStack 16)
    .ok { m with bank := (m.bank.setWord y v.1).setWord (y + 2) v.2 }
  else do
    let (_, m) ← evaluateString fuel m
    stringAssign m (m.value (add16 m.dStack 16)).1 y

/-- `_DCABClear`: clear `n` words from `y` on. -/
def dcabClear : ℕ → Machine → ℕ → Machine
  | 0, m, _ => m
  | n + 1, m, y => dcabClear n { m with bank := m.bank.setWord y 0 } (add16 y 2)

/-- `DIMCreateArrayBlock`: a block for the elements 0 to `a`, below the largest index; its address. -/
def dimCreateArrayBlock (m : Machine) (a : ℕ) : Result (ℕ × Machine) :=
  let size := add16 a 1
  if 0x8000 ≤ size then fail m .outOfMemory
  else if 0x8000 ≤ 2 * size then fail m .outOfMemory
  else if 0x10000 ≤ 4 * size + 2 then fail m .outOfMemory
  else
    let m := { m with dTemp1 := 4 * size + 2 }
    let y := m.block blockLowMemoryPtr
    let m := m.setBlock blockLowMemoryPtr (add16 y m.dTemp1)
    if m.block blockHighMemoryPtr ≤ add16 y m.dTemp1 then fail m .outOfMemory
    else
      let m := dcabClear (m.dTemp1 / 2) m y
      .ok (y, { m with bank := m.bank.setWord y a })

/-- One array of `Function_Dim`. -/
def dimArray (fuel : ℕ) (m : Machine) : Result Machine := do
  if m.token &&& idArrayMask = 0 then fail m .badDim
  else do
    let (data, m) ← variableFind fuel m
    match data with
    | some _ => fail m .cannotRedimension
    | none =>
      let (a, m) ← variableCreate fuel m
      let (v, m) ← evaluateInteger fuel m
      let m ← expectRightBracket m
      if v.y ≠ 0 then fail m .dimTooLarge
      else if v.a = 0 then fail m .dimTooLarge
      else do
        let (block, m) ← dimCreateArrayBlock m v.a
        .ok { m with bank := m.bank.setWord a block }

/-- `Function_Dim`. -/
def functionDim : ℕ → Machine → Result Machine
  | 0, _ => .error .outOfFuel
  | fuel + 1, m => do
    let m ← dimArray fuel m
    if m.token = commaTokenID then functionDim fuel m.skipToken else .ok m

end Basic65816
