import Basic65816.Machine.Workspace

/-!
# Editing the program (`editline.asm`, `basic.asm`)

A line whose first token is a number replaces, adds or removes a program line. `lineDelete` closes
the gap by moving the rest of the program down, `lineInsert` opens one by moving it up.
-/

namespace Basic65816

/-! ## Deleting -/

/-- `_LDLoop`: the address of the line `x`, searched from `y`. -/
def ldLoop : ℕ → Machine → ℕ → ℕ → Result (Option ℕ)
  | 0, _, _, _ => .error .outOfFuel
  | fuel + 1, m, x, y =>
    if m.bank.word y = 0 then .ok none
    else if x = m.bank.word (y + 2) then .ok (some y)
    else ldLoop fuel m x (add16 y (m.bank.word y))

/-- `_LDCopy`: move `x` bytes from `(DTemp2),y` down to `(DTemp1),y`. -/
def ldCopy : ℕ → Machine → ℕ → ℕ → Result Machine
  | 0, _, _, _ => .error .outOfFuel
  | fuel + 1, m, x, y =>
    let m := { m with bank := m.bank.setWord (m.dTemp1 + y) (m.bank.word (m.dTemp2 + y)) }
    let x := sub16 x 2
    if x = 0 then .ok m else ldCopy fuel m x (add16 y 2)

/-- `LineDelete`: delete line number `a`. -/
def lineDelete (fuel : ℕ) (m : Machine) (a : ℕ) : Result Machine := do
  match ← ldLoop fuel m a m.programStart with
  | none => .ok m
  | some y =>
    let m := { m with dTemp1 := y, dTemp2 := add16 y (m.bank.word y) }
    let codeEnd ← findCodeEnd fuel m
    ldCopy fuel m (add16 (sub16 codeEnd m.dTemp2) 2) 0

/-! ## Inserting -/

/-- `_LIFindLength`: skip the tokens, and the bodies of quoted strings. -/
def liFindLength : ℕ → Machine → ℕ → Result ℕ
  | 0, _, _ => .error .outOfFuel
  | fuel + 1, m, y =>
    let token := m.bank.word (m.dTemp1 + y)
    if token = 0x0000 then .ok y
    else if token < 0x0100 then liFindLength fuel m (add16 y token)
    else liFindLength fuel m (add16 y 2)

/-- `_LIFindInsertPoint`: the first line whose number is not below the one in `DTemp2`. -/
def liFindInsertPoint : ℕ → Machine → ℕ → Result ℕ
  | 0, _, _ => .error .outOfFuel
  | fuel + 1, m, y =>
    if m.bank.word y = 0 then .ok y
    else if m.dTemp2 ≤ m.bank.word (y + 2) then .ok y
    else liFindInsertPoint fuel m (add16 y (m.bank.word y))

/-- `_LICopyMove`: move the words from `DTemp4` down to `DTemp5` up by `DTemp3`. -/
def liCopyMove : ℕ → Machine → Result Machine
  | 0, _ => .error .outOfFuel
  | fuel + 1, m =>
    let m := { m with bank := m.bank.setWord m.dTemp4H (m.bank.word m.dTemp4) }
    if m.dTemp4 = m.dTemp5 then .ok m
    else liCopyMove fuel { m with dTemp4 := sub16 m.dTemp4 2, dTemp4H := sub16 m.dTemp4H 2 }

/-- `_LICopyTokens`: copy the tokens in, until the count in `DTemp3` is 4. -/
def liCopyTokens : ℕ → Machine → ℕ → Result Machine
  | 0, _, _ => .error .outOfFuel
  | fuel + 1, m, y =>
    let m := { m with
      bank := m.bank.setWord (m.dTemp5 + y) (m.bank.word m.dTemp1)
      dTemp1 := add16 m.dTemp1 2
      dTemp3 := sub16 m.dTemp3 2 }
    if m.dTemp3 = 4 then .ok m else liCopyTokens fuel m (add16 y 2)

/-- `LineInsert`: insert the code at `y` as line number `a`. -/
def lineInsert (fuel : ℕ) (m : Machine) (a y : ℕ) : Result Machine := do
  let m := { m with dTemp1 := y, dTemp2 := a }
  let length ← liFindLength fuel m 0
  let m := { m with dTemp3 := add16 length 6 }
  let point ← liFindInsertPoint fuel m m.programStart
  let m := { m with dTemp5 := point }
  let codeEnd ← findCodeEnd fuel m
  let m := { m with dTemp4 := codeEnd, dTemp4H := add16 codeEnd m.dTemp3 }
  let m ← liCopyMove fuel m
  let m := { m with bank := (m.bank.setWord m.dTemp5 m.dTemp3).setWord (m.dTemp5 + 2) m.dTemp2 }
  liCopyTokens fuel m 4

/-! ## The token buffer -/

/-- Where `ExecuteTokenBuffer` goes: to the next command, or on to run the buffer. -/
inductive Continuation
  | nextCommand
  | runExecuteTokenBuffer
  deriving DecidableEq, Repr

/-- `ExecuteTokenBuffer`: edit the program if the first token is a number. -/
def executeTokenBuffer (fuel : ℕ) (m : Machine) : Result (Continuation × Machine) := do
  let token := m.block blockTokenBuffer
  if token = 0 then .ok (.nextCommand, m)
  else if token < 0x4000 ∨ 0xC000 ≤ token then .ok (.runExecuteTokenBuffer, m)
  else if token - 0x4000 = 0 then fail m .cannotHaveLine0
  else
    let number := token - 0x4000
    let m ← lineDelete fuel m number
    let m ← clearVariablesPointersAndStacks fuel m
    let code := add16 (blockTokenBuffer + 2) m.dBaseAddress
    if m.bank.word code = 0 then .ok (.nextCommand, m)
    else do
      let m ← lineInsert fuel m number code
      let m ← clearVariablesPointersAndStacks fuel m
      .ok (.nextCommand, m)

end Basic65816
