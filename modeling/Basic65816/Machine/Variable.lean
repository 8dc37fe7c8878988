import Basic65816.Machine.Utility

/-!
# Variables (`variable.asm`)

Single-letter integer variables have fixed places; all others are records of eight bytes, linked
into one of 64 chains: link, address of the name, data. The name of a record is a list of identifier
tokens, closed by the first one without the continuation bit.

## Main definitions

* `variableFind`, `variableCreate`: look up and create the record of an identifier
* `variableSubscript`, `variableAccessExpression`: the value of a variable or array element
-/

namespace Basic65816

/-! ## `VariableFind` -/

/-- `_VFCompare`: compare the name at `DTemp2` with the identifier at the code pointer from offset
`y` on; the length of the name, if they match. -/
def vfCompare : ℕ → Machine → ℕ → Result (Option ℕ)
  | 0, _, _ => .error .outOfFuel
  | fuel + 1, m, y =>
    let a := m.bank.word (m.dTemp2 + y)
    if a ≠ m.bank.word (m.dCodePtr + y) then .ok none
    else if a &&& idContMask ≠ 0 then vfCompare fuel m (add16 y 2)
    else .ok (some (add16 y 2))

/-- `_VFNext`: follow the chain at `DTemp1`. The result is the data address (carry set), or nothing
(carry clear). -/
def vfNext : ℕ → Machine → Result (Option ℕ × Machine)
  | 0, _ => .error .outOfFuel
  | fuel + 1, m =>
    let a := m.bank.word m.dTemp1
    if a = 0 then .ok (none, m)
    else do
      let m := { m with dTemp1 := a, dTemp2 := m.bank.word (a + 2) }
      match ← vfCompare fuel m 0 with
      | none => vfNext fuel m
      | some y => .ok (some (add16 m.dTemp1 4), { m with dCodePtr := add16 y m.dCodePtr })

/-- The place of a fast variable, from its token. The carry of the second shift goes into the
additions. -/
def fastVariable (m : Machine) (token : ℕ) : ℕ :=
  let a := 2 * sub16 (token &&& 0x001F) 1 % 0x10000
  let b := 2 * a % 0x10000 + blockFastVariables + a / 0x8000
  (b % 0x10000 + m.dBaseAddress + b / 0x10000) % 0x10000

/-- The head of the chain for an identifier that begins with `token`: sixteen chains for each
combination of the type bits. -/
def hashTablePtr (m : Machine) (token : ℕ) : ℕ :=
  let a := add16 (add16 (2 * ((token &&& (idTypeMask + idArrayMask)) / 256)) blockHashTable)
    m.dBaseAddress
  add16 (2 * (token &&& blockHashMask)) a

/-- `VariableFind`: the data address of the identifier at the code pointer. -/
def variableFind (fuel : ℕ) (m : Machine) : Result (Option ℕ × Machine) :=
  if m.token < 0xC000 then fail m .missingVariable
  else if m.token < 0xC01A + 1 then .ok (some (fastVariable m m.token), m.skipToken)
  else
    let p := hashTablePtr m m.token
    vfNext fuel { m with dHashTablePtr := p, dTemp1 := p }

/-! ## Access in an expression -/

/-- `VariableSubscript`: the address of an array element. The array link is at `a`; the subscript
and the closing bracket follow. -/
def variableSubscript (ev : Evaluator) (m : Machine) (x a : ℕ) : Result (ℕ × Machine) := do
  let block := m.bank.word a
  let (v, m) ← evaluateNextInteger ev m x
  let m ← expectRightBracket m
  if v.y ≠ 0 then fail m .badArraySubscript
  else if m.bank.word block < v.a then fail m .badArraySubscript
  else
    -- the second shift leaves its carry to no addition
    let d := 4 * v.a % 0x10000
    .ok (add16 (add16 block 2) d, { m with dTemp1 := d })

/-- The end of `VariableAccessExpression`: load the data at `DVariablePtr`, with the type of the
identifier that begins with `token`. -/
def variableValue (m : Machine) (token : ℕ) : Value :=
  if token &&& idTypeMask = 0 then
    { a := m.bank.word m.dVariablePtr, y := m.bank.word (m.dVariablePtr + 2), c := false }
  else
    let a := m.bank.word m.dVariablePtr
    { a := if a = 0 then add16 blockNullString m.dBaseAddress else a, y := 0, c := true }

/-- `VariableAccessExpression`. -/
def variableAccessExpression (fuel : ℕ) (ev : Evaluator) (m : Machine) (x : ℕ) :
    Result (Value × Machine) := do
  let token := m.token
  let (data, m) ← variableFind fuel m
  match data with
  | none => fail { m with dVariablePtr := 0 } .variableUnknown
  | some a =>
    let m := { m with dVariablePtr := a }
    if token &&& idArrayMask = 0 then .ok (variableValue m token, m)
    else do
      let (a, m) ← variableSubscript ev m x m.dVariablePtr
      let m := { m with dVariablePtr := a }
      .ok (variableValue m token, m)

/-! ## `VariableCreate` -/

/-- `_VCCloneLoop`: copy the identifier at `x` to the low memory pointer. -/
def vcCloneLoop : ℕ → Machine → ℕ → Result Machine
  | 0, _, _ => .error .outOfFuel
  | fuel + 1, m, x =>
    let p := m.block blockLowMemoryPtr
    let m := m.setBlock blockLowMemoryPtr (add16 p 2)
    let a := m.bank.word x
    let m := { m with bank := m.bank.setWord p a }
    if a &&& idContMask ≠ 0 then vcCloneLoop fuel m (add16 x 2) else .ok m

/-- `VCCloneIdentifier`: copy the identifier at `a`; the address of the copy. -/
def vcCloneIdentifier (fuel : ℕ) (m : Machine) (a : ℕ) : Result (ℕ × Machine) := do
  let p := m.block blockLowMemoryPtr
  let m ← vcCloneLoop fuel m a
  .ok (p, m)

/-- `_VCSkipToken`: skip the identifier at the code pointer. -/
def vcSkipToken : ℕ → Machine → Result Machine
  | 0, _ => .error .outOfFuel
  | fuel + 1, m =>
    if m.token &&& idContMask ≠ 0 then vcSkipToken fuel m.skipToken else .ok m.skipToken

/-- `VariableCreate`: a new record for the identifier at the code pointer, in the chain that
`VariableFind` left in `DHashTablePtr`; its data address. -/
def variableCreate (fuel : ℕ) (m : Machine) : Result (ℕ × Machine) := do
  let y := m.block blockLowMemoryPtr
  let m := m.setBlock blockLowMemoryPtr (add16 y 8)
  if m.block blockHighMemoryPtr ≤ add16 y 8 then fail m .outOfMemory
  else
    let m := { m with bank := ((m.bank.setWord (y + 4) 0).setWord (y + 6) 0) }
    let m := { m with bank := m.bank.setWord y (m.bank.word m.dHashTablePtr) }
    let m := { m with dTemp1 := add16 blockProgramStart m.dBaseAddress }
    let (name, m) ←
      if m.dCodePtr < m.dTemp1 then vcCloneIdentifier fuel m m.dCodePtr else .ok (m.dCodePtr, m)
    let m := { m with bank := (m.bank.setWord (y + 2) name).setWord m.dHashTablePtr y }
    let m ← vcSkipToken fuel m
    .ok (add16 y 4, m)

end Basic65816
