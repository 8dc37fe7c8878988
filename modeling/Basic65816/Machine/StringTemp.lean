import Basic65816.Machine.Workspace

/-!
# Temporary strings (`stringtemp.asm`)

Temporary strings grow downwards from 256 bytes below the permanent strings. One of them is open at a
time: `DStartTempString` is its length byte and `DCurrentTempString` the place of its next character.
-/

namespace Basic65816

/-- The end of the room for temporary strings: the pointer, or where it starts when it is zero. -/
def Machine.tempTop (m : Machine) : ℕ :=
  if m.dTempStringPointer = 0 then sub16 (m.block blockHighMemoryPtr) 256
  else m.dTempStringPointer

/-- `StringTempAllocate`: open a string with room for the low byte of `a`. The address it returns in
`A` is `DStartTempString`. -/
def stringTempAllocate (m : Machine) (a : ℕ) : Machine :=
  let p := add16 m.tempTop (0xFFFF - a % 256)
  { m with
    dTempStringPointer := p
    bank := m.bank.setByte p 0
    dStartTempString := p
    dCurrentTempString := add16 p 1 }

/-- `StringWriteCharacter`: append a character to the open string. -/
def stringWriteCharacter (m : Machine) (a : ℕ) : Machine :=
  let bank := m.bank.setByte m.dCurrentTempString a
  { m with
    bank := bank.setByte m.dStartTempString (bank.byte m.dStartTempString + 1)
    dCurrentTempString := add16 m.dCurrentTempString 1 }

/-- `_SCCCopy`: append `n` characters from behind `y`. -/
def sccCopy : ℕ → Machine → ℕ → Machine
  | 0, m, _ => m
  | n + 1, m, y => sccCopy n (stringWriteCharacter m (m.bank.byte (add16 y 1))) (add16 y 1)

/-- `StringCreateCopy`: append the string at `a`. -/
def stringCreateCopy (m : Machine) (a : ℕ) : Machine := sccCopy (m.bank.byte a) m a

end Basic65816
