import Basic65816.Machine.StringTemp

/-!
# Permanent strings (`stringconcrete.asm`)

Permanent strings are stored in blocks that grow downwards from the high memory pointer. A block is
the capacity, the length and the characters; the address of a string is that of its length, one
behind the start of its block.

## Main definitions

* `stringAssign`: store a string in a variable or array element
-/

namespace Basic65816

/-- `_SACopyStringLoop`: copy `n + 1` bytes from `x` to `y`, upwards. -/
def saCopyStringLoop : ℕ → Machine → ℕ → ℕ → Machine
  | 0, m, x, y => { m with bank := m.bank.setByte y (m.bank.byte x), dTemp1 := 0xFFFF }
  | n + 1, m, x, y =>
    saCopyStringLoop n { m with bank := m.bank.setByte y (m.bank.byte x) } (add16 x 1) (add16 y 1)

/-- `_SACopyString`: copy the string at `x` over the string whose address is at `y`. -/
def saCopyString (m : Machine) (x y : ℕ) : Machine :=
  saCopyStringLoop (m.bank.byte x) m x (m.bank.word y)

/-- The capacity of a new block: eight characters more than needed, but never more than 255. -/
def saSize (length : ℕ) : ℕ := if length + 8 < 255 then length + 8 else 255

/-- `_SAAllocate`: a new block below the others, for the string at `x`; its address goes to `y`. -/
def saAllocate (m : Machine) (x y : ℕ) : Result Machine :=
  let size := saSize (m.bank.byte x)
  let a := sub16 (m.block blockHighMemoryPtr) (size + 2)
  let m := m.setBlock blockHighMemoryPtr a
  if a < m.block blockLowMemoryPtr then fail m .outOfMemory
  else
    let m := { m with bank := (m.bank.setWord a size).setWord y (add16 a 1) }
    .ok (saCopyString m x y)

/-- `StringAssign`: store the string at `a` in the variable whose data is at `y`. -/
def stringAssign (m : Machine) (a y : ℕ) : Result Machine :=
  let old := m.bank.word y
  if old = 0 then saAllocate m a y
  else if old < m.block blockHighMemoryPtr then saAllocate m a y
  else
    let max := m.bank.byte (sub16 old 1)
    if m.bank.byte a ≤ max then .ok (saCopyString m a y)
    else if sub16 old 1 ≠ m.block blockHighMemoryPtr then saAllocate m a y
    else
      -- the bottom-most block is given back first
      saAllocate (m.setBlock blockHighMemoryPtr (add16 (max + 2) (m.block blockHighMemoryPtr))) a y

end Basic65816
