import Basic65816.Machine.Procedure

/-!
# Running instructions (`run.asm`, `miscellany.asm`)

The loop at `FRun_NextInstruction` executes the instruction at the code pointer: a keyword through the
vector table, or an assignment. The break key, which is looked at before each instruction, can only
end the run and is left out; so are the commands that write to the screen, to any address or to the
program, and those that end the run.

## Main definitions

* `commandRem`, `commandAssert`, `commandStop`: commands that check something at most
* `runCommand`: the routines of the keywords
* `frunNextInstruction`: one round of the loop
-/

namespace Basic65816

/-- `Command_STOP`. -/
def commandStop (m : Machine) : Result Machine := fail m .stop

/-- `Command_ASSERT`. -/
def commandAssert (fuel : ℕ) (m : Machine) : Result Machine := do
  let (v, m) ← evaluateInteger fuel m
  let m := { m with dTemp1 := v.y }
  if v.a ||| m.dTemp1 = 0 then fail m .assertFailed else .ok m

/-- `Command_REM`. -/
def commandRem (m : Machine) : Result Machine :=
  let t := m.token
  if t = 0 ∨ t = colonTokenID then .ok m
  else if 0x0100 ≤ t then fail m .syntaxError
  else .ok { m with dCodePtr := add16 t m.dCodePtr }

/-- The routine of a keyword; `leaves` stands for those that are not modelled. -/
def runCommand (fuel : ℕ) (m : Machine) : Command → Result Machine
  | .commandLet => commandLet fuel m
  | .functionDim => functionDim fuel m
  | .commandGoto => commandGoto fuel m
  | .commandGosub => commandGosub fuel m
  | .commandReturn => commandReturn m
  | .handlerElse => handlerElse fuel m
  | .commandProc => commandProc fuel m
  | .commandLocal => commandLocal fuel m
  | .commandRepeat => .ok (commandRepeat m)
  | .commandWhile => commandWhile fuel m
  | .commandIf => commandIf fuel m
  | .commandFor => commandFor fuel m
  | .commandWend => commandWend m
  | .commandUntil => commandUntil fuel m
  | .handlerEndif => handlerEndif m
  | .commandNext => commandNext fuel m
  | .commandEndproc => commandEndproc fuel m
  | .commandRem => commandRem m
  | .commandAssert => commandAssert fuel m
  | .commandStop => commandStop m
  | .commandOngoto => commandOngoto fuel m
  | .commandEnd | .commandRun | .commandClear | .commandCls | .commandPrint | .commandPoke
  | .commandDoke | .commandLoke | .commandList | .commandLink | .commandNew | .commandVdu =>
    .error .leaves

/-- `FRun_NextLineNumber`: begin the line whose link is at `a`. Behind the last line the program
ends. -/
def frunNextLineNumber (m : Machine) (a : ℕ) : Result Machine :=
  if m.bank.word a = 0 then .error .leaves
  else .ok { m with dLineNumber := m.bank.word (a + 2), dCodePtr := add16 a 4 }

/-- `_FRun_EndInstruction`: the end of a line; the command line ends with a warm start. -/
def frunEndInstruction (m : Machine) : Result Machine :=
  if m.dLineNumber = 0 then .error .leaves else frunNextLineNumber m (add16 m.dCodePtr 2)

/-- `FRun_NextInstruction`, up to its next round. -/
def frunNextInstruction (fuel : ℕ) (m : Machine) : Result Machine :=
  let m := { m with dTempStringPointer := 0 }
  let t := m.token
  if t = 0 then frunEndInstruction m
  else if t = colonTokenID then .ok m.skipToken
  else if t &&& 0xE800 = 0x2800 then
    match commandJumpTable[t &&& 0x01FF]? with
    | some (.command c) => runCommand fuel m.skipToken c
    | some .illegalToken => fail m.skipToken .illegalToken
    | _ => .error .leaves
  else if t < 0xC000 then fail m .syntaxError
  else commandLet fuel m

/-! ## A command line -/

/-- A workspace without a program and the command line of the tokens `ts`. -/
def commandMachine (ts : List ℕ) : Machine :=
  let bank := ts.zipIdx.foldl (fun bank t => bank.setWord (0x4100 + 2 * t.2) t.1)
    (Memory.ofBytes 0 [])
  { (default : Machine) with
    dBaseAddress := 0x4000
    dHighAddress := 0x5000
    dCodePtr := 0x4100
    dStack := basStack
    bank := ((((bank.setWord 0x4008 0x4206).setWord 0x400a 0x5000).setWord 0x4202 0xEEEE).setWord
      0x4204 0xEEEE) }

end Basic65816
