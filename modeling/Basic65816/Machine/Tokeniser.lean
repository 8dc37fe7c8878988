import Basic65816.Machine.Tokens

/-!
# The tokeniser (`tokeniser.asm`)

`tokenise` turns the zero-terminated text at a 24-bit address into words in the token buffer of the
workspace. It first capitalises the text in place, outside quotes, then scans it once.
-/

namespace Basic65816

def idTypeMask : ℕ := 0x2000
def idArrayMask : ℕ := 0x1000
def idContMask : ℕ := 0x0800

/-- `asl lo`, `rol hi`: double the long word in two cells. -/
def doubleLong (lo hi : ℕ) : ℕ × ℕ :=
  ((2 * lo) % 0x10000, (2 * hi + lo / 0x8000) % 0x10000)

namespace Machine

/-- The 24-bit address of `[DTemp1],y`. -/
def textAddress (m : Machine) (y : ℕ) : ℕ := m.dTemp1 + 0x10000 * (m.dTemp1H % 0x100) + y

/-- `lda [DTemp1],y`, `and #$00FF`. -/
def text (m : Machine) (y : ℕ) : ℕ := m.far.byte (m.textAddress y)

/-- `lda [DTemp4]`, `and #$00FF`. -/
def text4 (m : Machine) : ℕ := m.far.byte (m.dTemp4 + 0x10000 * (m.dTemp4H % 0x100))

/-- `inc DTemp1`. -/
def incTemp1 (m : Machine) : Machine := { m with dTemp1 := add16 m.dTemp1 1 }

end Machine

/-- `_TOKCap`: capitalise everything that is not in quotes. `y` is the index and `x` the number of
quotes so far; bit 0 of `x` says whether the scan is inside a string. -/
def tokCap : ℕ → Machine → ℕ → ℕ → Result Machine
  | 0, _, _, _ => .error .outOfFuel
  | fuel + 1, m, y, x =>
    let y := add16 y 1
    let c := m.text y
    if c = 0 then .ok { m with dTemp1 := sub16 m.dTemp1 1 }
    else
      let x := if c = 34 then add16 x 1 else x
      if c < 97 ∨ 123 ≤ c ∨ x % 2 = 1 then tokCap fuel m y x
      else tokCap fuel { m with far := m.far.setByte (m.textAddress y) (c - 32) } y x

/-- `TOKWriteToken`: write a word and check that the low byte of the pointer is not zero. -/
def tokWriteToken (m : Machine) (a : ℕ) : Result Machine :=
  let m := { m with bank := m.bank.setWord m.dTemp2 a, dTemp2 := add16 m.dTemp2 2 }
  if m.dTemp2 % 0x100 = 0 then fail m .lineTooLong else .ok m

/-! ## Constants -/

/-- The multiplication by ten in `_TOKINLoop`: times 4, plus the saved value, times 2. -/
def tokTimesTen (m : Machine) : Machine :=
  let d := doubleLong m.dTemp3 m.dTemp3H
  let d := doubleLong d.1 d.2
  let lo := m.dTemp3 + d.1
  let hi := m.dTemp3H + d.2 + lo / 0x10000
  let d := doubleLong (lo % 0x10000) (hi % 0x10000)
  { m with dTemp3 := d.1, dTemp3H := d.2 }

/-- `_TOKINLoop`: accumulate the digits in `DTemp3`. -/
def tokInLoop : ℕ → Machine → Result Machine
  | 0, _ => .error .outOfFuel
  | fuel + 1, m =>
    let m := tokTimesTen m
    if m.dTemp3H / 0x1000 ≠ 0 then fail m .integerTooLarge
    else
      let lo := m.text 0 % 16 + m.dTemp3
      let m := { m with dTemp3 := lo % 0x10000, dTemp3H := add16 m.dTemp3H (lo / 0x10000) }
      let m := m.incTemp1
      if 48 ≤ m.text 0 ∧ m.text 0 < 58 then tokInLoop fuel m else .ok m

/-- `TOKInteger`: extract a constant, as one token or as a constant shift and a token. -/
def tokInteger (fuel : ℕ) (m : Machine) : Result Machine := do
  let m ← tokInLoop fuel { m with dTemp3 := 0, dTemp3H := 0 }
  let token := m.dTemp3 % 0x8000 + 0x4000
  let d := doubleLong m.dTemp3 m.dTemp3H
  let m := { m with dTemp3 := d.1, dTemp3H := d.2 }
  if 0x1000 ≤ m.dTemp3H then fail m .integerTooLarge
  else if m.dTemp3H % 0x1000 = 0 then tokWriteToken m token
  else do
    let m ← tokWriteToken m (m.dTemp3H % 0x1000 ||| 0x1000)
    tokWriteToken m token

/-! ## Quoted strings -/

/-- `_TOKQFindSize`: move `DTemp1` behind the closing quote. -/
def tokqFindSize : ℕ → Machine → Result Machine
  | 0, _ => .error .outOfFuel
  | fuel + 1, m =>
    let c := m.text 0
    let m := m.incTemp1
    if c = 0 then fail m .missingClosingQuote
    else if c = 34 then .ok m
    else tokqFindSize fuel m

/-- `jsr TOKWriteToken`, `dec DTemp2`: effectively a byte write. -/
def tokWriteByte (m : Machine) (a : ℕ) : Result Machine := do
  let m ← tokWriteToken m a
  .ok { m with dTemp2 := sub16 m.dTemp2 1 }

/-- `_TOKQWriteString`: copy `x` characters from `[DTemp4]`. -/
def tokqWriteString : ℕ → Machine → Result Machine
  | 0, m => .ok m
  | x + 1, m => do
    let m ← tokWriteByte m m.text4
    tokqWriteString x { m with dTemp4 := add16 m.dTemp4 1 }

/-- `TOKQuotedString`: the header token, the length byte, the characters and a padding byte. -/
def tokQuotedString (fuel : ℕ) (m : Machine) : Result Machine := do
  let m := m.incTemp1
  let m ← tokqFindSize fuel { m with dTemp4 := m.dTemp1, dTemp4H := m.dTemp1H }
  let m := { m with dTemp3H := sub16 (sub16 m.dTemp1 m.dTemp4) 1 }
  let m ← tokWriteToken m (add16 m.dTemp3H 4 / 2 * 2)
  let m ← tokWriteByte m m.dTemp3H
  let m ← tokqWriteString m.dTemp3H m
  if m.dTemp2 % 2 = 0 then .ok m else .ok { m with dTemp2 := add16 m.dTemp2 1 }

/-! ## Keywords -/

/-- `_TOKCompare`: compare the text at `[DTemp1],y` with the text of a table entry. -/
def tokCompare (m : Machine) : ℕ → List ℕ → Bool
  | _, [] => true
  | y, c :: cs => m.text y == c && tokCompare m (y + 1) cs

/-- `_TOKScan`: search the table for an entry of length `DTemp4` that matches the text. The keyword
number is kept in `DTemp4+2`. -/
def tokScan : List TokenEntry → Machine → Option ℕ × Machine
  | [], m => (none, m)
  | e :: es, m =>
    if e.byte % 16 - 1 = m.dTemp4 ∧ tokCompare m 0 e.text then
      (some ((e.byte / 16 % 16) * 0x200 ||| m.dTemp4H ||| 0x2000),
        { m with dTemp1 := add16 m.dTemp1 m.dTemp4 })
    else tokScan es { m with dSignCount := e.byte % 16, dTemp4H := add16 m.dTemp4H 1 }

/-- `TOKKeywordSearch`: search the table for the text at `[DTemp1]` of length `x`; on success skip
the text and return the token. -/
def tokKeywordSearch (m : Machine) (x : ℕ) : Option ℕ × Machine :=
  tokScan tokenText { m with dTemp4 := x, dTemp4H := 1 }

/-! ## Identifiers -/

/-- `TOKIsIdentifierCharacter`. -/
def tokIsIdentifierCharacter (c : ℕ) : Bool := (48 ≤ c && c < 58) || (65 ≤ c && c < 91)

/-- `_TOKIToConstant`: A-Z to 1-26, 0-9 to 27-36. -/
def tokiToConstant (c : ℕ) : ℕ := if c < 65 then c % 16 + 27 else c % 32

/-- `_TOKIFindLength`: move `DTemp1` to the first character that is not alphanumeric. -/
def tokiFindLength : ℕ → Machine → Result Machine
  | 0, _ => .error .outOfFuel
  | fuel + 1, m =>
    let m := m.incTemp1
    if tokIsIdentifierCharacter (m.text 0) then tokiFindLength fuel m else .ok m

/-- `_TOKIIdentifier`: write `DTemp5` characters, two to a word, with the type bits of `DTemp3+2`
and the continuation bit on every word but the last. -/
def tokiIdentifier : ℕ → Machine → Result Machine
  | 0, m => .ok m
  | 1, m =>
    let a := tokiToConstant (m.text 0) ||| m.dTemp3H
    tokWriteToken { m.incTemp1 with dTemp5 := 0 } a
  | n + 2, m => do
    let a := tokiToConstant (m.text 0) ||| m.dTemp3H
    let m := m.incTemp1
    let c := tokiToConstant (m.text 0)
    let a := a + 45 * c
    let m := { m.incTemp1 with dSignCount := 45 * c, dTemp5 := n }
    let m ← tokWriteToken m (if n = 0 then a else a ||| idContMask)
    tokiIdentifier n m

/-- `TOKIdentifier`: a keyword if the whole identifier, with `$` and `(`, is one; otherwise the
packed identifier. -/
def tokIdentifier (fuel : ℕ) (m : Machine) : Result Machine := do
  let m ← tokiFindLength fuel { m with dTemp3 := m.dTemp1 }
  let length := sub16 m.dTemp1 m.dTemp3
  let m := { m with dTemp5 := length, dTemp5H := length, dTemp3H := 0xC000 }
  let m : Machine := if m.text 0 = 36 then
      { m.incTemp1 with dTemp5H := add16 m.dTemp5H 1, dTemp3H := m.dTemp3H ||| idTypeMask }
    else m
  let m : Machine := if m.text 0 = 40 then
      { m.incTemp1 with dTemp5H := add16 m.dTemp5H 1, dTemp3H := m.dTemp3H ||| idArrayMask }
    else m
  let m := { m with dTemp1 := m.dTemp3 }
  match tokKeywordSearch m m.dTemp5H with
  | (some token, m) => tokWriteToken m token
  | (none, m) => do
    let m ← tokiIdentifier m.dTemp5 m
    .ok { m with dTemp1 := add16 m.dTemp3 m.dTemp5H }

/-! ## The main loop -/

/-- `_TOKPunctuation`: the longest matching token of two or one characters. -/
def tokPunctuation (m : Machine) : Result Machine :=
  match tokKeywordSearch m 2 with
  | (some token, m) => tokWriteToken m token
  | (none, m) =>
    match tokKeywordSearch m 1 with
    | (some token, m) => tokWriteToken m token
    | (none, m) => fail m .cannotParseLine

/-- `_TOKMainLoop`. -/
def tokMainLoop : ℕ → Machine → Result Machine
  | 0, _ => .error .outOfFuel
  | fuel + 1, m =>
    let c := m.text 0
    if c < 32 then tokWriteToken m 0
    else if c = 32 then tokMainLoop fuel m.incTemp1
    else if c = 34 then tokQuotedString fuel m >>= tokMainLoop fuel
    else if c < 48 then tokPunctuation m >>= tokMainLoop fuel
    else if c < 58 then tokInteger fuel m >>= tokMainLoop fuel
    else if c < 65 then tokPunctuation m >>= tokMainLoop fuel
    else if c < 91 then tokIdentifier fuel m >>= tokMainLoop fuel
    else tokPunctuation m >>= tokMainLoop fuel

/-- `Tokenise`: tokenise the text at `ya` into the token buffer. -/
def tokenise (fuel : ℕ) (m : Machine) (a y : ℕ) : Result Machine := do
  let m := { m with dTemp1 := a, dTemp1H := y, dTemp2 := add16 blockTokenBuffer m.dBaseAddress }
  let m ← tokCap fuel m 0xFFFF 0
  tokMainLoop fuel m.incTemp1

end Basic65816
