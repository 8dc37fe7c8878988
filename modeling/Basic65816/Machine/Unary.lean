import Basic65816.Machine.StringTemp
import Basic65816.Machine.Utility

/-!
# Unary functions (`unary/*.asm`)

A function is called behind its opening bracket. It evaluates its arguments in the next slot, skips
the closing bracket and leaves its result in the slot at `x`, whose type it sets first.

## Main definitions

* `UnaryFunction.routine`: the routine of a function
* `convertToString`, `stringToInteger`: conversions
-/

namespace Basic65816

namespace Machine

/-- The byte at a 24-bit address. The direct page itself is not reached through it. -/
def longByte (m : Machine) (a : ℕ) : ℕ :=
  if a / 0x10000 = m.dPageNumber then m.bank.byte (a % 0x10000) else m.far.byte a

/-- `lda [DTemp1],y`. -/
def longTemp1 (m : Machine) (y : ℕ) : ℕ :=
  let a := m.dTemp1 + 0x10000 * (m.dTemp1H % 0x100) + y
  m.longByte a + 256 * m.longByte (a + 1)

end Machine

/-! ## `simpleunary.asm` -/

/-- `Function_Len`. -/
def functionLen (ev : Evaluator) (m : Machine) (x : ℕ) : Result Machine := do
  let m := resetTypeInteger m x
  let (_, m) ← evaluateNextString ev m x
  let m ← expectRightBracket m
  .ok (m.setValue x (m.bank.byte (m.dp (x + exsNext + exsValueL)), 0))

/-- `Function_Abs`. -/
def functionAbs (ev : Evaluator) (m : Machine) (x : ℕ) : Result Machine := do
  let m := resetTypeInteger m x
  let (_, m) ← evaluateNextInteger ev m x
  let m ← expectRightBracket m
  let v := m.value (x + exsNext)
  .ok (m.setValue x (if 0x8000 ≤ v.2 then subLong (0, 0) v else v))

/-- `Function_Sgn`. -/
def functionSgn (ev : Evaluator) (m : Machine) (x : ℕ) : Result Machine := do
  let m := resetTypeInteger m x
  let (_, m) ← evaluateNextInteger ev m x
  let m ← expectRightBracket m
  let v := m.value (x + exsNext)
  .ok (m.setValue x
    (if 0x8000 ≤ v.2 then (0xFFFF, 0xFFFF) else if v.2 ||| v.1 = 0 then (0, 0) else (1, 0)))

/-- `_Rnd_Process`: a step of the shift register; the value in `A`. -/
def rndProcess (m : Machine) : ℕ × Machine :=
  let d := aslLong (m.dRandom, m.dRandomH)
  let d := if m.dRandomH / 0x8000 = 0 then d else (d.1 ^^^ 0xD454, d.2 ^^^ 0x55D5)
  (d.1 ^^^ d.2, { m with dRandom := d.1, dRandomH := d.2 })

/-- `Function_Random`. -/
def functionRandom (m : Machine) (x : ℕ) : Result Machine := do
  let m ← expectRightBracket m
  let m := resetTypeInteger m x
  let m := if m.dRandom ||| m.dRandomH = 0 then { m with dRandom := 0xB5, dRandomH := 0xEA } else m
  let (hi, m) := rndProcess m
  let (lo, m) := rndProcess m
  .ok (m.setValue x (lo, hi))

/-- `Function_Chr`. -/
def functionChr (ev : Evaluator) (m : Machine) (x : ℕ) : Result Machine := do
  let m := resetTypeString m x
  let (v, m) ← evaluateNextInteger ev m x
  let m ← expectRightBracket m
  if v.y ≠ 0 then fail m .badChr
  else
    let m := stringWriteCharacter (stringTempAllocate m 1) v.a
    .ok (m.setValue x (m.dStartTempString, 0))

/-- `Function_Asc`. -/
def functionAsc (ev : Evaluator) (m : Machine) (x : ℕ) : Result Machine := do
  let m := resetTypeInteger m x
  let (v, m) ← evaluateNextString ev m x
  let m ← expectRightBracket m
  if m.bank.byte v.a = 0 then fail m .badAsc
  else .ok (m.setValue x (m.bank.byte (v.a + 1), 0))

/-- `Function_SPC`. The count is a word. -/
def functionSpc (ev : Evaluator) (m : Machine) (x : ℕ) : Result Machine := do
  let m := resetTypeString m x
  let (v, m) ← evaluateNextInteger ev m x
  let m ← expectRightBracket m
  if v.y ≠ 0 then fail m .badSpc
  else
    let m := (fun m => stringWriteCharacter m 32)^[v.a] (stringTempAllocate m v.a)
    .ok (m.setValue x (m.dStartTempString, 0))

/-- `HWKeyPressed`. -/
def hwKeyPressed : ℕ := 0xF8010

/-- `Function_Inkey`. -/
def functionInkey (m : Machine) (x : ℕ) : Result Machine := do
  let m ← expectRightBracket m
  let m := resetTypeInteger m x
  .ok (m.setValue x (m.far.word hwKeyPressed, 0))

/-! ## `memread.asm` -/

/-- The common form of the three routines: read at the address that is the argument. -/
def memread (read : Machine → Long) (ev : Evaluator) (m : Machine) (x : ℕ) : Result Machine := do
  let m := resetTypeInteger m x
  let (v, m) ← evaluateNextInteger ev m x
  let m ← expectRightBracket m
  let m := { m with dTemp1 := v.a, dTemp1H := v.y }
  .ok (m.setValue x (read m))

/-- `Function_Peek`. -/
def functionPeek : Evaluator → Machine → ℕ → Result Machine :=
  memread fun m => (m.longTemp1 0 % 256, 0)

/-- `Function_Deek`. -/
def functionDeek : Evaluator → Machine → ℕ → Result Machine := memread fun m => (m.longTemp1 0, 0)

/-- `Function_Leek`. -/
def functionLeek : Evaluator → Machine → ℕ → Result Machine :=
  memread fun m => (m.longTemp1 0, m.longTemp1 2)

/-! ## `val.asm` -/

/-- `VALGetBase`: an optional base and the closing bracket. -/
def valGetBase (ev : Evaluator) (m : Machine) (x : ℕ) : Result (ℕ × Machine) :=
  if m.token = commaTokenID then do
    let m ← expectComma m
    let (v, m) ← evaluateNextInteger ev m x
    if v.y ≠ 0 ∨ v.a < 2 ∨ 16 + 1 ≤ v.a then fail m .badNumberBase
    else
      let m ← expectRightBracket m
      .ok (v.a, m)
  else do
    let m ← expectRightBracket m
    .ok (10, m)

/-- The multiplication loop of `MultiplyTemp1ByA`: the result in `DTemp1`, the multiplicand in
`DTemp2` and the count of carries in `Y`, with the multiplier in `X`. -/
def mtLoop (x : ℕ) (t d : Long) (y : ℕ) : Long × Long × ℕ :=
  let carry := t.2 + d.2 + (t.1 + d.1) / 0x10000
  let t' := if x % 2 = 0 then t else addLong t d
  let y' := if x % 2 = 1 ∧ 0x10000 ≤ carry then add16 y 1 else y
  let y'' := if 0x8000 ≤ d.2 then add16 y' 1 else y'
  if _h : x / 2 = 0 then (t', aslLong d, y'') else mtLoop (x / 2) t' (aslLong d) y''

/-- `MultiplyTemp1ByA`: multiply `DTemp1`; the carry is set on overflow. -/
def multiplyTemp1ByA (m : Machine) (a : ℕ) : Bool × Machine :=
  let s := mtLoop a (0, 0) (m.dTemp1, m.dTemp1H) 0
  (decide (s.2.2 ≠ 0), { m with
    dTemp1 := s.1.1, dTemp1H := s.1.2, dTemp2 := s.2.1.1, dTemp2H := s.2.1.2 })

/-- `ConvertUpperCase`. -/
def convertUpperCase (c : ℕ) : ℕ := if 97 ≤ c ∧ c < 123 then c - 32 else c

/-- The validation of a character in `_STILoop`: the value of the digit. -/
def stiDigit (base c : ℕ) : Option ℕ :=
  let c := convertUpperCase c
  let d :=
    if c < 48 then none
    else if c < 58 then some (c % 16)
    else if c < 65 ∨ 91 ≤ c then none
    else some ((c + 9) % 16)
  match d with
  | some d => if base ≤ d then none else some d
  | none => none

/-- `_STILoop`: `n` characters are left at `DTemp3`. -/
def stiLoop : ℕ → Machine → Result Machine
  | 0, m => .ok m
  | n + 1, m =>
    let (_, m) := multiplyTemp1ByA m m.dSignCount
    match stiDigit m.dSignCount (m.bank.byte m.dTemp3) with
    | none => fail m .badConstant
    | some d =>
      let lo := d + m.dTemp1
      stiLoop n { m with
        dTemp1 := lo % 0x10000, dTemp1H := add16 m.dTemp1H (lo / 0x10000)
        dTemp3 := add16 m.dTemp3 1, dTemp3H := n }

/-- `StringToInteger`: the value of the string at `a` in base `x`. -/
def stringToInteger (m : Machine) (a x : ℕ) : Result (Long × Machine) := do
  let m := { m with dTemp3 := a, dTemp3H := m.bank.byte a }
  if m.dTemp3H = 0 then fail m .badConstant
  else
    let m := { m with dTemp3 := add16 m.dTemp3 1, dSignCount := x, dTemp1 := 0, dTemp1H := 0 }
    let first := m.bank.byte m.dTemp3
    let m := if first = 45
      then { m with dTemp3 := add16 m.dTemp3 1, dTemp3H := m.dTemp3H - 1 } else m
    if m.dTemp3H = 0 then fail m .badConstant
    else
      let m ← stiLoop m.dTemp3H m
      let v := (m.dTemp1, m.dTemp1H)
      let v := if first = 45 then subLong (0, 0) v else v
      .ok (v, { m with dTemp1 := v.1, dTemp1H := v.2 })

/-- `Function_VAL`. -/
def functionVal (ev : Evaluator) (m : Machine) (x : ℕ) : Result Machine := do
  let m := resetTypeInteger m x
  let (v, m) ← evaluateNextString ev m x
  let (base, m) ← valGetBase ev m x
  let (n, m) ← stringToInteger m v.a base
  .ok (m.setValue x n)

/-! ## `str.asm` -/

/-- `CTSOutputA`: append a character, with a zero behind it. -/
def ctsOutputA (m : Machine) (a : ℕ) : Machine :=
  let bank := m.bank.setWord m.dCurrentTempString a
  { m with
    bank := bank.setByte m.dStartTempString (bank.byte m.dStartTempString + 1)
    dCurrentTempString := add16 m.dCurrentTempString 1 }

/-- `CTSOutputHexDigit`. -/
def ctsOutputHexDigit (m : Machine) (a : ℕ) : Machine :=
  ctsOutputA m (add16 (if a < 10 then a else add16 a (65 - 58 + 32)) 48)

/-- `lda`, `sbc`, `lda`, `sbc`: the carry after a subtraction is clear. -/
def longLess (a b : Long) : Prop := a.2 < b.2 + borrowLow 0 a b

instance (a b : Long) : Decidable (longLess a b) := inferInstanceAs (Decidable (_ < _))

/-- `_CTSMultiplySubtractor`: scale the subtractor in `DTemp1` up; the subtractors on the stack. -/
def ctsMultiplySubtractor : ℕ → Machine → List Long → Result (List Long × Machine)
  | 0, _, _ => .error .outOfFuel
  | fuel + 1, m, stack =>
    if longLess (m.dTemp3, m.dTemp3H) (m.dTemp1, m.dTemp1H) then .ok (stack, m)
    else
      let stack := (m.dTemp1, m.dTemp1H) :: stack
      let (carry, m) := multiplyTemp1ByA m m.dSignCount
      if carry then .ok (stack, m) else ctsMultiplySubtractor fuel m stack

/-- `_CTSSubLoop`: how often `DTemp2` can be subtracted from `DTemp3`. -/
def ctsSubLoop : ℕ → Machine → ℕ → Result (ℕ × Machine)
  | 0, _, _ => .error .outOfFuel
  | fuel + 1, m, x =>
    let n := (m.dTemp3, m.dTemp3H)
    let d := (m.dTemp2, m.dTemp2H)
    if longLess n d then .ok (x, m)
    else
      let r := subLong n d
      ctsSubLoop fuel { m with dTemp3 := r.1, dTemp3H := r.2 } (add16 x 1)

/-- `_CTSScaledUp`: one digit for every subtractor on the stack, down to the one. -/
def ctsScaledUp (fuel : ℕ) : Machine → List Long → Result Machine
  | _, [] => .error .leaves
  | m, d :: stack =>
    if d = (1, 0) then .ok (ctsOutputHexDigit m m.dTemp3)
    else do
      let (x, m) ← ctsSubLoop fuel { m with dTemp2 := d.1, dTemp2H := d.2 } 0
      ctsScaledUp fuel (ctsOutputHexDigit m x) stack

/-- `ConvertToStringAlreadyAllocated`: the number `v` in base `x`, appended to the open string. -/
def convertToStringAlreadyAllocated (fuel : ℕ) (m : Machine) (v : Long) (x : ℕ) :
    Result Machine := do
  let m := { m with dTemp3 := v.1, dTemp3H := v.2, dSignCount := x }
  let m :=
    if 0x8000 ≤ m.dTemp3H then
      let m := ctsOutputA m 45
      let r := subLong (0, 0) (m.dTemp3, m.dTemp3H)
      { m with dTemp3 := r.1, dTemp3H := r.2 }
    else m
  let (stack, m) ←
    ctsMultiplySubtractor fuel { m with dTemp1 := m.dSignCount, dTemp1H := 0 } [(1, 0)]
  ctsScaledUp fuel m stack

/-- `ConvertToString`: the address of the string is `DStartTempString`. -/
def convertToString (fuel : ℕ) (m : Machine) (v : Long) (x : ℕ) : Result Machine :=
  convertToStringAlreadyAllocated fuel (stringTempAllocate m 34) v x

/-- `Function_Str`. -/
def functionStr (fuel : ℕ) (ev : Evaluator) (m : Machine) (x : ℕ) : Result Machine := do
  let m := resetTypeString m x
  let (v, m) ← evaluateNextInteger ev m x
  let (base, m) ← valGetBase ev m x
  let m ← convertToString fuel { m with dSignCount := base } (v.a, v.y) base
  .ok (m.setValue x (m.dStartTempString, 0))

/-! ## `string.asm` -/

/-- `FNStringY`. It clears the high word of the next slot. -/
def fnStringY (m : Machine) (x y : ℕ) : Machine :=
  (m.setDp (x + exsValueL) y).setDp (x + exsNext + exsValueH) 0

/-- `FNStringEmpty`. -/
def fnStringEmpty (m : Machine) (x : ℕ) : Machine :=
  let m := stringTempAllocate m 0
  fnStringY m x m.dStartTempString

/-- `_FND1Loop`: append the `n` characters at `y`. -/
def fnd1Loop : ℕ → Machine → ℕ → Machine
  | 0, m, _ => { m with dTemp1 := 0 }
  | n + 1, m, y => fnd1Loop n (stringWriteCharacter m (m.bank.byte y)) (add16 y 1)

/-- `FNDTemp1Characters`: a string of the `DTemp1` characters at `y`. -/
def fndTemp1Characters (m : Machine) (x y : ℕ) : Machine :=
  if m.dTemp1 = 0 then fnStringEmpty m x
  else
    let m := fnd1Loop m.dTemp1 (stringTempAllocate m m.dTemp1) y
    fnStringY m x m.dStartTempString

/-- The common form of `left$(` and `right$(`: `start m length` is the place of the first character
when the string is longer than the count in `DTemp1`. -/
def leftRight (start : Machine → ℕ → ℕ → ℕ × Machine) (ev : Evaluator) (m : Machine) (x : ℕ) :
    Result Machine := do
  let m := resetTypeString m x
  let (s, m) ← evaluateNextString ev m x
  let m ← expectComma m
  let (n, m) ← evaluateNextInteger ev m x
  if n.y ≠ 0 then fail m .badStringOperation
  else
    let m := { m with dTemp1 := n.a }
    let m ← expectRightBracket m
    let length := m.bank.byte s.a
    if length = 0 then .ok (fnStringEmpty m x)
    else if length ≤ m.dTemp1 then .ok (fnStringY m x s.a)
    else
      let (y, m) := start m length s.a
      .ok (fndTemp1Characters m x y)

/-- `Function_LEFT`. -/
def functionLeft : Evaluator → Machine → ℕ → Result Machine :=
  leftRight fun m _ y => (add16 y 1, m)

/-- `Function_RIGHT`. -/
def functionRight : Evaluator → Machine → ℕ → Result Machine :=
  leftRight fun m length y =>
    let m := { m with dTemp1H := length - m.dTemp1 }
    (add16 (add16 y m.dTemp1H) 1, m)

/-- The optional third argument of `mid$(`, 255 by default. -/
def midCount (ev : Evaluator) (m : Machine) (x : ℕ) : Result Machine :=
  let m := { m with dTemp1 := 255 }
  if m.token ≠ commaTokenID then .ok m
  else do
    let (n, m) ← evaluateNextInteger ev m.skipToken x
    if n.y ≠ 0 then fail m .badStringOperation else .ok { m with dTemp1 := n.a }

/-- `Function_MID`. -/
def functionMid (ev : Evaluator) (m : Machine) (x : ℕ) : Result Machine := do
  let m := resetTypeString m x
  let (s, m) ← evaluateNextString ev m x
  let m ← expectComma m
  let (n, m) ← evaluateNextInteger ev m x
  if n.y ≠ 0 then fail m .badStringOperation
  else if n.a = 0 then fail m .badStringOperation
  else
    let m ← midCount ev m x
    let m ← expectRightBracket m
    let m := { m with dTemp2 := n.a }
    let length := m.bank.byte s.a
    if length < m.dTemp2 then .ok (fnStringEmpty m x)
    else
      let available := length - m.dTemp2 + 1
      let m := if m.dTemp1 ≤ available then m else { m with dTemp1 := available }
      .ok (fndTemp1Characters m x (add16 s.a m.dTemp2))

/-! ## `instr.asm` -/

/-- `_FINSCompare`: do the last `n` characters of `DTemp1` match those at `DTemp2`, from the right? -/
def finsCompare (m : Machine) : ℕ → Bool
  | 0 => true
  | n + 1 =>
    if m.bank.byte (m.dTemp1 + (n + 1)) = m.bank.byte (m.dTemp2 + (n + 1)) then finsCompare m n
    else false

/-- `_FINSLoop`, with `n` matches left to try after this one. -/
def finsLoop (x : ℕ) : ℕ → Machine → Machine
  | 0, m =>
    let m := m.setDp (x + exsValueL) (add16 (m.dp (x + exsValueL)) 1)
    if finsCompare m (m.bank.byte m.dTemp1) then { m with dTemp3 := 1 }
    else { m with dTemp2 := add16 m.dTemp2 1, dTemp3 := 0 }.setDp (x + exsValueL) 0
  | n + 1, m =>
    let m := m.setDp (x + exsValueL) (add16 (m.dp (x + exsValueL)) 1)
    if finsCompare m (m.bank.byte m.dTemp1) then { m with dTemp3 := n + 2 }
    else finsLoop x n { m with dTemp2 := add16 m.dTemp2 1 }

/-- `Function_INSTR`. -/
def functionInstr (ev : Evaluator) (m : Machine) (x : ℕ) : Result Machine := do
  let m := resetTypeInteger m x
  let (s, m) ← evaluateNextString ev m x
  let m ← expectComma m
  let (t, m) ← evaluateNextString ev m x
  let m ← expectRightBracket m
  let m := { m with dTemp1 := t.a, dTemp2 := s.a }
  let m := m.setValue x (0, 0)
  let l := m.bank.byte m.dTemp2
  let k := m.bank.byte m.dTemp1
  if l < k then .ok (m.setDp (x + exsValueL) 0)
  else
    let m := { m with dTemp3 := l - k + 1 }
    if k = 0 then fail m .noSearchString
    else .ok (finsLoop x (l - k) m)

/-! ## `caseconv.asm` -/

/-- `_FUPLoop` and `_FLOLoop`: change the `n` characters behind `y`. -/
def caseLoop (conv : ℕ → ℕ) : ℕ → Machine → ℕ → Machine
  | 0, m, _ => m
  | n + 1, m, y =>
    let y := add16 y 1
    caseLoop conv n { m with bank := m.bank.setByte y (conv (m.bank.byte y)) } y

/-- The common form of the two routines. The length allocated is the low byte of the address of the
argument. -/
def caseconv (conv : ℕ → ℕ) (ev : Evaluator) (m : Machine) (x : ℕ) : Result Machine := do
  let m := resetTypeString m x
  let (v, m) ← evaluateNextString ev m x
  let m ← expectRightBracket m
  let m := stringCreateCopy (stringTempAllocate m v.a) v.a
  let m := m.setValue x (m.dStartTempString, 0)
  .ok (caseLoop conv (m.bank.byte m.dStartTempString) m m.dStartTempString)

/-- `Function_UPPER`. -/
def functionUpper : Evaluator → Machine → ℕ → Result Machine :=
  caseconv fun c => if 97 ≤ c ∧ c < 123 then c - 32 else c

/-- `Function_LOWER`. -/
def functionLower : Evaluator → Machine → ℕ → Result Machine :=
  caseconv fun c => if 65 ≤ c ∧ c < 91 then c + 32 else c

/-- The routine of a function. -/
def UnaryFunction.routine : UnaryFunction → Routine
  | .random => fun _ _ m x => functionRandom m x
  | .sgn => fun _ => functionSgn
  | .abs => fun _ => functionAbs
  | .len => fun _ => functionLen
  | .val => fun _ => functionVal
  | .str => functionStr
  | .chr => fun _ => functionChr
  | .asc => fun _ => functionAsc
  | .spc => fun _ => functionSpc
  | .peek => fun _ => functionPeek
  | .deek => fun _ => functionDeek
  | .leek => fun _ => functionLeek
  | .lower => fun _ => functionLower
  | .upper => fun _ => functionUpper
  | .left => fun _ => functionLeft
  | .mid => fun _ => functionMid
  | .right => fun _ => functionRight
  | .instr => fun _ => functionInstr
  | .inkey => fun _ _ m x => functionInkey m x

end Basic65816
