import Basic65816.Machine.Assignment

/-!
# Loops, conditions and jumps (`for.asm`, `repeat.asm`, `while.asm`, `if.asm`, `transfer.asm`)

The opening statement of a structure leaves a frame on the BASIC stack: words from two bytes above
the old stack pointer on, the last of them the token of the statement, which the new stack pointer
points at.

## Main definitions

* `scanForwardLevel`: skip to the end of a structure
* `commandFor`, `commandNext`, `commandRepeat`, `commandUntil`, `commandWhile`, `commandWend`,
  `commandIf`, `handlerElse`, `handlerEndif`, `commandGoto`, `commandGosub`, `commandReturn`,
  `commandOngoto`
-/

namespace Basic65816

def toTokenID : ℕ := 0x382a
def stepTokenID : ℕ := 0x382b
def gotoTokenID : ℕ := 0x3e36
def gosubTokenID : ℕ := 0x3e37
def elseTokenID : ℕ := 0x3e3a
def repeatTokenID : ℕ := 0x3c44
def whileTokenID : ℕ := 0x3c45
def ifTokenID : ℕ := 0x3c46
def forTokenID : ℕ := 0x3c47
def wendTokenID : ℕ := 0x3a49
def thenTokenID : ℕ := 0x3a4b
def endifTokenID : ℕ := 0x3a4c
def nextTokenID : ℕ := 0x3a4d

/-- Push the code pointer `code`, the line number and `token`. -/
def Machine.pushFrame (m : Machine) (code token : ℕ) : Machine :=
  let x := m.dStack
  { ((m.setDp (x + 2) code).setDp (x + 4) m.dLineNumber).setDp (x + 6) token with
    dStack := add16 x 6 }

/-- Drop a frame of six bytes and go back to its code pointer and line number. -/
def Machine.popFrame (m : Machine) : Machine :=
  let x := sub16 m.dStack 6
  { m with dStack := x, dCodePtr := m.dp (x + 2), dLineNumber := m.dp (x + 4) }

/-! ## `if.asm` -/

/-- `_SFLLoop`, with the level `x` and the line number to restore on an error. -/
def sflLoop (a b line : ℕ) : ℕ → Machine → ℕ → Result (ℕ × Machine)
  | 0, _, _ => .error .outOfFuel
  | fuel + 1, m, x =>
    let t := m.token
    if x = 0 ∧ t ≠ 0 ∧ (t = a ∨ t = b) then .ok (t, m)
    else if t = 0 then
      -- the next line, if there is one
      if m.bank.word (m.dCodePtr + 2) = 0 then fail { m with dLineNumber := line } .structureImbalance
      else sflLoop a b line fuel { m with
        dLineNumber := m.bank.word (m.dCodePtr + 4), dCodePtr := add16 m.dCodePtr 6 } x
    else if t < 0x0100 then
      sflLoop a b line fuel { m with dCodePtr := add16 (t % 256) m.dCodePtr } x
    else
      let m := m.skipToken
      if t &&& 0xE000 ≠ 0x2000 then sflLoop a b line fuel m x
      else
        let type := t &&& 15 <<< 9
        if type = 15 <<< 9 ∨ type < 13 <<< 9 then sflLoop a b line fuel m x
        else if type = 14 <<< 9 then sflLoop a b line fuel m (add16 x 1)
        else if x = 0 then fail { m with dLineNumber := line } .structureImbalance
        else sflLoop a b line fuel m (x - 1)

/-- `ScanForwardLevel`: skip to the token `a` or `b` on this level; the token found. -/
def scanForwardLevel (fuel : ℕ) (m : Machine) (a b : ℕ) : Result (ℕ × Machine) :=
  sflLoop a b m.dLineNumber fuel
    { m with dTemp1 := a, dTemp1H := b, dTemp2 := m.dLineNumber } 0

/-- `_FGOSearch`: find the line numbered `x`, from the line at `y` on. -/
def fgoSearch (x : ℕ) : ℕ → Machine → ℕ → Result Machine
  | 0, _, _ => .error .outOfFuel
  | fuel + 1, m, y =>
    if m.bank.word y = 0 then fail m .unknownLineNumber
    else if x = m.bank.word (y + 2) then .ok { m with dLineNumber := x, dCodePtr := add16 y 4 }
    else fgoSearch x fuel m (add16 y (m.bank.word y))

/-- `Command_GOTO`. -/
def commandGoto (fuel : ℕ) (m : Machine) : Result Machine :=
  if m.token < 0x4000 ∨ 0xC000 ≤ m.token then fail m .badLineNumber
  else fgoSearch (m.token - 0x4000) fuel m m.programStart

/-- `_FIFEndOfLine`: skip the rest of the line. -/
def fifEndOfLine : ℕ → Machine → Result Machine
  | 0, _ => .error .outOfFuel
  | fuel + 1, m =>
    let t := m.token
    if t = 0 then .ok m
    else if t < 0x0100 then fifEndOfLine fuel { m with dCodePtr := add16 (t % 256) m.dCodePtr }
    else fifEndOfLine fuel m.skipToken

/-- `_FIFExtended`: an `if` that ends at its `endif`. -/
def fifExtended (fuel : ℕ) (m : Machine) (success : Bool) : Result Machine :=
  let m := { m with dStack := add16 m.dStack 2 }
  let m := m.setDp m.dStack ifTokenID
  if success then .ok m
  else do
    let (t, m) ← scanForwardLevel fuel m elseTokenID endifTokenID
    let m := m.skipToken
    if t = endifTokenID then .ok { m with dStack := sub16 m.dStack 2 } else .ok m

/-- `Command_IF`. -/
def commandIf (fuel : ℕ) (m : Machine) : Result Machine := do
  let (v, m) ← evaluateInteger fuel m
  let m := { m with dTemp1 := v.y }
  let success := decide (v.a ||| m.dTemp1 ≠ 0)
  if m.token ≠ thenTokenID then fifExtended fuel m success
  else
    let m := m.skipToken
    if !success then fifEndOfLine fuel m
    else if 0x4000 ≤ m.token ∧ m.token < 0xC000 then commandGoto fuel m
    else .ok m

/-- `Handler_ELSE`. -/
def handlerElse (fuel : ℕ) (m : Machine) : Result Machine :=
  if m.dp m.dStack ≠ ifTokenID then fail m .elseWithoutIf
  else do
    let (_, m) ← scanForwardLevel fuel m endifTokenID 0
    .ok { m.skipToken with dStack := sub16 m.dStack 2 }

/-- `Handler_ENDIF`. -/
def handlerEndif (m : Machine) : Result Machine :=
  if m.dp m.dStack ≠ ifTokenID then fail m .elseWithoutIf
  else .ok { m with dStack := sub16 m.dStack 2 }

/-! ## `repeat.asm` and `while.asm` -/

/-- `Command_REPEAT`. -/
def commandRepeat (m : Machine) : Machine := m.pushFrame m.dCodePtr repeatTokenID

/-- `Command_UNTIL`. -/
def commandUntil (fuel : ℕ) (m : Machine) : Result Machine :=
  if m.dp m.dStack ≠ repeatTokenID then fail m .untilWithoutRepeat
  else do
    let (v, m) ← evaluateInteger fuel m
    if v.y ≠ 0 ∨ v.a ≠ 0 then .ok { m with dStack := sub16 m.dStack 6 }
    else
      let x := sub16 m.dStack 6
      .ok { m with dCodePtr := m.dp (x + 2), dLineNumber := m.dp (x + 4) }

/-- `Command_WHILE`. -/
def commandWhile (fuel : ℕ) (m : Machine) : Result Machine := do
  let code := m.dCodePtr
  let (v, m) ← evaluateInteger fuel m
  if v.y ≠ 0 ∨ v.a ≠ 0 then .ok (m.pushFrame (sub16 code 2) whileTokenID)
  else do
    let (_, m) ← scanForwardLevel fuel m wendTokenID 0
    .ok m.skipToken

/-- `Command_WEND`. -/
def commandWend (m : Machine) : Result Machine :=
  if m.dp m.dStack ≠ whileTokenID then fail m .wendWithoutWhile else .ok m.popFrame

/-! ## `for.asm` -/

/-- The optional `step` of a `for` statement; nothing without it. -/
def forStep (fuel : ℕ) (m : Machine) : Result (Option Value × Machine) :=
  if m.token = stepTokenID then do
    let (v, m) ← evaluateInteger fuel m.skipToken
    .ok (some v, m)
  else .ok (none, m)

/-- The variable of a `for` statement, created if it is not there; its data address. -/
def forVariable (fuel : ℕ) (m : Machine) : Result (ℕ × Machine) := do
  let (data, m) ← variableFind fuel m
  match data with
  | some a => .ok (a, m)
  | none => variableCreate fuel m

/-- `Command_FOR`. -/
def commandFor (fuel : ℕ) (m : Machine) : Result Machine :=
  if m.token &&& (idTypeMask + idArrayMask) ≠ 0 then fail m .badForVariable
  else do
    let (y, m) ← forVariable fuel m
    let m ← expectToken m equalTokenID
    let (v, m) ← evaluateInteger fuel m
    let m := { m with bank := (m.bank.setWord y v.a).setWord (y + 2) v.y }
    let m ← expectToken m toTokenID
    let x := m.dStack
    let m := ((m.setDp (x + 2) m.dCodePtr).setDp (x + 4) m.dLineNumber).setDp (x + 6) y
    let m := { m.setDp (x + 8) forTokenID with dStack := add16 x 8 }
    -- the limit and the step are only skipped here
    let (_, m) ← evaluateInteger fuel m
    let (_, m) ← forStep fuel m
    .ok m

/-- The optional variable of `next`, which must be that of the frame on top. -/
def nextVariable (fuel : ℕ) (m : Machine) : Result Machine :=
  if m.token < 0xC000 then .ok m
  else do
    let (data, m) ← variableFind fuel m
    match data with
    | some a => if a = m.dp (sub16 m.dStack 2) then .ok m else fail m .badNextVariable
    | none => fail m .badNextVariable

/-- The end of `Command_NEXT`: add the step in `DTemp1` to the variable and compare it with the limit
in `DTemp2`; `code` is the code pointer behind the statement. -/
def nextContinue (m : Machine) (code : ℕ) : Machine :=
  let x := m.dStack
  let y := m.dp (x + 6)
  let v := addLong (m.bank.word y, m.bank.word (y + 2)) (m.dTemp1, m.dTemp1H)
  let m := { m with bank := (m.bank.setWord y v.1).setWord (y + 2) v.2 }
  let d := subLong (m.dTemp2, m.dTemp2H) (m.bank.word y, m.bank.word (y + 2))
  let m := { m with dTemp2 := d.1, dTemp2H := d.2 }
  if d.2 ||| d.1 = 0 ∨ (d.2 ^^^ m.dTemp1H) / 0x8000 % 2 = 0 then
    { m with dStack := add16 x 8, dLineNumber := m.dp (x + 4) }
  else { m with dCodePtr := code }

/-- `Command_NEXT`. -/
def commandNext (fuel : ℕ) (m : Machine) : Result Machine :=
  if m.dp m.dStack ≠ forTokenID then fail m .nextWithoutFor
  else do
    let m ← nextVariable fuel m
    let code := m.dCodePtr
    let m := { m with dStack := sub16 m.dStack 8 }
    let m := { m with dCodePtr := m.dp (m.dStack + 2) }
    let (limit, m) ← evaluateInteger fuel m
    let m := { m with dTemp1 := 1, dTemp1H := 0 }
    let (step, m) ← forStep fuel m
    let m :=
      match step with
      | some v => { m with dTemp1 := v.a, dTemp1H := v.y }
      | none => m
    .ok (nextContinue { m with dTemp2 := limit.a, dTemp2H := limit.y } code)

/-! ## `transfer.asm` -/

/-- `Command_GOSUB`. The frame is pushed before the line number is looked at. -/
def commandGosub (fuel : ℕ) (m : Machine) : Result Machine :=
  commandGoto fuel (m.pushFrame (add16 m.dCodePtr 2) gosubTokenID)

/-- `Command_RETURN`. -/
def commandReturn (m : Machine) : Result Machine :=
  if m.dp m.dStack ≠ gosubTokenID then fail m .returnWithoutGosub else .ok m.popFrame

/-- `_FOGoLoop`, with one less than the count in `X`. -/
def fogoLoop (fuel : ℕ) : ℕ → Machine → Result Machine
  | 0, m => commandGoto fuel m
  | x + 1, m =>
    if m.token < 0x4000 ∨ 0xC000 ≤ m.token then fail m .badLineNumber
    else expectComma m.skipToken >>= fogoLoop fuel x

/-- `Command_ONGOTO`. -/
def commandOngoto (fuel : ℕ) (m : Machine) : Result Machine := do
  let (v, m) ← evaluateInteger fuel m
  if v.y ≠ 0 ∨ v.a = 0 then fail m .badOnGotoValue
  else do
    let m ← expectToken m gotoTokenID
    fogoLoop fuel (v.a - 1) m

end Basic65816
