import Basic65816.Machine.Run
import Basic65816.Machine.EditLine

/-!
# Running and erasing a program (`run.asm`)

The commands that begin and erase a program.

## Main definitions

* `commandRun`, `commandNew`, `commandClear`
-/

namespace Basic65816

/-- `Command_CLEAR`. -/
def commandClear (fuel : ℕ) (m : Machine) : Result Machine := clearVariablesPointersAndStacks fuel m

/-- `Command_NEW`: a zero link at the start of the program area. -/
def commandNew (fuel : ℕ) (m : Machine) : Result Machine :=
  commandClear fuel { m with bank := m.bank.setWord m.programStart 0x0000 }

/-- `Command_RUN`, up to the first instruction. -/
def commandRun (fuel : ℕ) (m : Machine) : Result Machine := do
  let m ← commandClear fuel m
  frunNextLineNumber m (add16 m.dBaseAddress blockProgramStart)

end Basic65816
