import Basic65816.Machine.Procedure

/-!
# Listing (`list.asm`)

`list` expands the tokens of a line into the buffer it has allocated, and prints the buffer. The
printing and the break key, which can only end the listing, are left out.

## Main definitions

* `detokenise`: a line as text
* `scanIndent`: the indentation behind a line
* `commandList`: `list`
-/

namespace Basic65816

/-! ## `_DTKDecodeKeyword` -/

/-- `_DTKDWorkThrough`: the `y`-th entry of the token text. The number 0 and those behind the table
leave it. -/
def dtkdWorkThrough : List TokenEntry → Machine → ℕ → ℕ → Result (TokenEntry × Machine)
  | [], _, _, _ => .error .leaves
  | e :: es, m, y, x =>
    if y = 1 then .ok (e, m)
    else dtkdWorkThrough es { m with dTemp1 := x } (y - 1) (x + e.byte % 16)

/-- The entry of the token `a`. -/
def dtkdEntry (m : Machine) (a : ℕ) : Result (TokenEntry × Machine) :=
  if a &&& 0x01FF = 0 then .error .leaves else dtkdWorkThrough tokenText m (a &&& 0x01FF) 0

/-- `_DTKDecodeKeyword`: the text of the token `a`, for a keyword with spaces around it. -/
def dtkDecodeKeyword (m : Machine) (a : ℕ) : Result Machine := do
  let flag := (a &&& 0x1800) ^^^ 0x1800
  let m :=
    if flag = 0 then
      let c := m.bank.byte (sub16 m.dCurrentTempString 1)
      if c = 32 ∨ c = 58 then m else stringWriteCharacter m 32
    else m
  let (e, m) ← dtkdEntry m a
  let m := e.text.foldl stringWriteCharacter m
  .ok (if flag = 0 then stringWriteCharacter m 32 else m)

/-! ## `_DTKIdentifier` -/

/-- `_DTKIOutA`. -/
def dtkiOutA (m : Machine) (a : ℕ) : Machine :=
  if a = 0 then m
  else if a < 27 then stringWriteCharacter m (add16 a 96)
  else stringWriteCharacter m (add16 (sub16 a 0x4B) 96)

/-- `_DTKIDecodeToken`: the two characters of the word `a`. -/
def dtkiDecodeToken (m : Machine) (a : ℕ) : Machine :=
  let a := a &&& 0x07FF
  dtkiOutA (dtkiOutA m (a % 45)) (a / 45)

/-- `_DTKILoop`: the words of an identifier from `y` on; the address behind them. -/
def dtkiLoop : ℕ → Machine → ℕ → Result (ℕ × Machine)
  | 0, _, _ => .error .outOfFuel
  | fuel + 1, m, y =>
    let m := dtkiDecodeToken m (m.bank.word y)
    if m.bank.word y &&& idContMask ≠ 0 then dtkiLoop fuel m (add16 y 2) else .ok (add16 y 2, m)

/-- `_DTKIdentifier`. -/
def dtkIdentifier (fuel : ℕ) (m : Machine) (y : ℕ) : Result (ℕ × Machine) := do
  let token := m.bank.word y
  let (y, m) ← dtkiLoop fuel m y
  let m := if token &&& idTypeMask = 0 then m else stringWriteCharacter m 36
  .ok (y, if token &&& idArrayMask = 0 then m else stringWriteCharacter m 40)

/-! ## `Detokenise` -/

/-- `_DTKPadLineNo`: spaces up to the length in `DTemp1`, at least one. -/
def dtkPadLineNo : ℕ → Machine → Result Machine
  | 0, _ => .error .outOfFuel
  | fuel + 1, m =>
    let m := stringWriteCharacter m 32
    if m.bank.byte m.dStartTempString = m.dTemp1 then .ok m else dtkPadLineNo fuel m

/-- `_DTKMainLoop`: the text of the tokens from `y` on. -/
def dtkMainLoop : ℕ → Machine → ℕ → Result Machine
  | 0, _, _ => .error .outOfFuel
  | fuel + 1, m, y =>
    let t := m.bank.word y
    if t = 0 then .ok m
    else if t < 0x0100 then
      let m := stringWriteCharacter m 34
      let m := stringCreateCopy m (add16 y 2)
      let m := stringWriteCharacter m 34
      dtkMainLoop fuel m (add16 y (m.bank.word y))
    else if t < 0x2000 then
      dtkMainLoop fuel { m with dConstantShift := t &&& 0x0FFF } (add16 y 2)
    else if t < 0x4000 then do
      let m ← dtkDecodeKeyword m t
      dtkMainLoop fuel m (add16 y 2)
    else if t < 0xC000 then do
      let a := 2 * (t - 0x4000) % 0x10000
      let shift := m.dConstantShift
      let m ← convertToStringAlreadyAllocated fuel { m with dConstantShift := shift / 2 }
        (a / 2 + (shift % 2) * 0x8000, shift / 2) 10
      dtkMainLoop fuel { m with dConstantShift := 0 } (add16 y 2)
    else do
      let (y, m) ← dtkIdentifier fuel m y
      dtkMainLoop fuel m y

/-- `Detokenise`: the line at `y`, expanded into the buffer at `a`. -/
def detokenise (fuel : ℕ) (m : Machine) (y a : ℕ) : Result Machine := do
  let m := { m with
    dStartTempString := a, dCurrentTempString := add16 a 1, dConstantShift := 0
    bank := m.bank.setWord a 0x0000 }
  let m ← convertToStringAlreadyAllocated fuel m (m.bank.word (y + 2), 0) 10
  let indent := if m.dIndent < m.dIndent2 then m.dIndent else m.dIndent2
  -- the carry of the shift goes into the sum
  let m := { m with dTemp1 := (2 * indent % 0x10000 + 6 + indent / 0x8000) % 0x10000 }
  let m ← dtkPadLineNo fuel m
  dtkMainLoop fuel m (add16 y 4)

/-! ## `ScanIndent` -/

/-- `_SILoop`: count the keywords that open and close a structure, from `y` on. -/
def siLoop : ℕ → Machine → ℕ → Result Machine
  | 0, _, _ => .error .outOfFuel
  | fuel + 1, m, y =>
    let t := m.bank.word y
    if t = 0 then .ok m
    else if t < 0x0100 then siLoop fuel m (add16 y t)
    else if t &&& 0xE000 ≠ 0x2000 then siLoop fuel m (add16 y 2)
    else if t &&& 15 <<< 9 = 14 <<< 9 then
      siLoop fuel { m with dIndent := add16 m.dIndent 1 } (add16 y 2)
    else if t &&& 15 <<< 9 = 13 <<< 9 then
      let indent := sub16 m.dIndent 1
      siLoop fuel { m with dIndent := if indent < 0x8000 then indent else 0 } (add16 y 2)
    else siLoop fuel m (add16 y 2)

/-- `ScanIndent`: the indentation behind the line at `y`; the one in front of it is kept. -/
def scanIndent (fuel : ℕ) (m : Machine) (y : ℕ) : Result Machine :=
  siLoop fuel { m with dIndent2 := m.dIndent } (add16 y 4)

/-! ## `Command_List` -/

/-- `_CLINextLine`: list the lines from `y` on whose numbers are in the range in `DTemp4`. -/
def cliNextLine : ℕ → Machine → ℕ → Result Machine
  | 0, _, _ => .error .outOfFuel
  | fuel + 1, m, y =>
    if m.bank.word y = 0 then .ok { m with dIndent := 0 }
    else do
      let m ← scanIndent fuel m y
      let n := m.bank.word (y + 2)
      let m ←
        if n < m.dTemp4 ∨ m.dTemp4H < n then .ok m else detokenise fuel m y m.dListBuffer
      cliNextLine fuel m (add16 y (m.bank.word y))

/-- `_CLIComma`: the number of the last line, behind the comma. -/
def cliComma (ev : Evaluator) (m : Machine) (x : ℕ) : Result Machine := do
  let m ← expectComma m
  if m.token = 0 ∨ m.token = colonTokenID then .ok { m with dTemp4H := 0x7FFF }
  else do
    let (v, m) ← evaluateNextInteger ev m x
    let m := { m with dTemp4H := v.a }
    if v.y = 0 then .ok m else fail m .syntaxError

/-- `Command_List`, up to the listing: the buffer, and the numbers of the first and the last line. -/
def cliRange (ev : Evaluator) (m : Machine) (x : ℕ) : Result Machine := do
  let m := stringTempAllocate m 255
  let m := { m with
    dListBuffer := m.dStartTempString, dIndent := 0, dIndent2 := 0, dTemp4 := 0, dTemp4H := 0x7FFF }
  if m.token = 0 ∨ m.token = colonTokenID then .ok m
  else if m.token = commaTokenID then cliComma ev m x
  else do
    let (v, m) ← evaluateNextInteger ev m x
    if v.y ≠ 0 then fail m .syntaxError
    else
      let m := { m with dTemp4 := v.a, dTemp4H := v.a }
      if m.token ≠ commaTokenID then .ok m else cliComma ev m x

/-- `Command_List`. `x` is the offset of its vector. -/
def commandList (fuel : ℕ) (m : Machine) (x : ℕ) : Result Machine := do
  let m ← cliRange (evaluateLevel Handler.routine fuel) m x
  cliNextLine fuel m m.programStart

end Basic65816
