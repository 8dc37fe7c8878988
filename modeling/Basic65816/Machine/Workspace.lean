import Basic65816.Machine.State

/-!
# The workspace (`run.asm`, `stringconcrete.asm`)

Finding the end of the program and clearing everything behind it: the low memory pointer, the hash
table, the string heap and the BASIC stack.
-/

namespace Basic65816

namespace Machine

/-- The address of the program. -/
def programStart (m : Machine) : ℕ := add16 blockProgramStart m.dBaseAddress

/-- `lda (DBaseAddress),y`. -/
def block (m : Machine) (y : ℕ) : ℕ := m.bank.word (m.dBaseAddress + y)

/-- `sta (DBaseAddress),y`. -/
def setBlock (m : Machine) (y a : ℕ) : Machine :=
  { m with bank := m.bank.setWord (m.dBaseAddress + y) a }

end Machine

/-- `_FCELoop`: follow the line offsets from `y`. -/
def fceLoop : ℕ → Machine → ℕ → Result ℕ
  | 0, _, _ => .error .outOfFuel
  | fuel + 1, m, y =>
    if m.bank.word y = 0 then .ok y else fceLoop fuel m (add16 y (m.bank.word y))

/-- `FindCodeEnd`: the address of the zero offset at the end of the program. -/
def findCodeEnd (fuel : ℕ) (m : Machine) : Result ℕ := fceLoop fuel m m.programStart

/-- `StringResetPermanent`. -/
def stringResetPermanent (m : Machine) : Machine := m.setBlock blockHighMemoryPtr m.dHighAddress

/-- `_FCLoop`: clear the hash table. -/
def fcLoop (m : Machine) : Machine :=
  (List.range (blockHashTableEntrySize * 4)).foldl
    (fun m i => m.setBlock (blockHashTable + 2 * i) 0x0000) m

/-- `ClearVariablesPointersAndStacks`. -/
def clearVariablesPointersAndStacks (fuel : ℕ) (m : Machine) : Result Machine := do
  let m := { m with dStack := basStack, page := m.page.setWord basStack 0 }
  let m := m.setBlock blockNullString 0x0000
  let y ← findCodeEnd fuel m
  let m := { m with bank := (m.bank.setWord (y + 2) 0xEEEE).setWord (y + 4) 0xEEEE }
  let m := m.setBlock blockLowMemoryPtr (add16 y 6)
  let m := fcLoop m
  let m := { m with dTempStringPointer := 0 }
  .ok (stringResetPermanent m)

end Basic65816
