import Basic65816.Builder.BasicBlock
import Basic65816.Lexer.Python
import Basic65816.Lexer.Words

/-!
# Saving and reloading (`dump_export.py`)

A session of the development workflow loads a program from text, runs it and exports the program in
the dump of the workspace to text again. The dump is the memory of a block, indexed from zero. Lines
of text have no newline in them.

## Main definitions

* `deTokenise`, `decode`: the text of the program in a dump
* `BasicBlock.loadProgram`: a program from text
-/

namespace Basic65816.Builder

/-! ## The exporter -/

/-- `decodeC`. -/
def decodeC (c : ℕ) : List ℕ :=
  if 1 ≤ c ∧ c ≤ 26 then [96 + c]
  else if 27 ≤ c ∧ c ≤ 36 then [c - 27 + 48]
  else []

/-- `self.tokens[tokenID-1]`; the index -1 is the last token. -/
def tokenAt (tokenID : ℕ) : Option Token :=
  if tokenID = 0 then tokenList.getLast? else tokenList[tokenID - 1]?

/-- The loop of `deTokenise`. Every round moves forward, so that the size of the dump bounds the
number of rounds. -/
def deTokeniseLoop (binary : Memory) : ℕ → ℕ → ℕ → Option (List ℕ)
  | 0, _, _ => none
  | n + 1, constantShift, pos =>
    if binary.word pos = 0 then some []
    else
      let token := binary.word pos
      let pos := pos + 2
      if token < 0x100 then do
        let more ← deTokeniseLoop binary n constantShift (pos + token - 2)
        some (34 :: (binary.bytes (pos + 1) (binary.byte pos) ++ 34 :: more))
      else if token < 0x2000 then deTokeniseLoop binary n (token &&& 0xFFF) pos
      else if token < 0x4000 then do
        let t ← tokenAt (token &&& 0x1FF)
        let more ← deTokeniseLoop binary n constantShift pos
        some (32 :: (t.name.map upperChar ++ 32 :: more))
      else if token < 0xC000 then do
        let more ← deTokeniseLoop binary n 0 pos
        some (decimal (token - 0x4000 + constantShift * 2 ^ 15) ++ more)
      else do
        let n1 := token &&& 0x7FF
        let more ← deTokeniseLoop binary n constantShift pos
        some (decodeC (n1 % 45) ++ (decodeC (n1 / 45) ++
          ((if token &&& 0x800 = 0 then
            (if token &&& 0x2000 ≠ 0 then [36] else []) ++ if token &&& 0x1000 ≠ 0 then [40] else []
          else []) ++ more)))

/-- `deTokenise`. -/
def deTokenise (binary : Memory) (rounds pos : ℕ) : Option (List ℕ) :=
  deTokeniseLoop binary rounds 0 pos

/-- The loop of `decode`. -/
def decodeLoop (binary : Memory) (rounds : ℕ) : ℕ → ℕ → Option (List (List ℕ))
  | 0, _ => none
  | n + 1, pos =>
    if binary.word pos = 0 then some []
    else do
      let lineNumber := binary.word (pos + 2)
      let line ← deTokenise binary rounds (pos + 4)
      let code ← decodeLoop binary rounds n (binary.word pos + pos)
      some ((decimal lineNumber ++ 32 :: strip line) :: code)

/-- `decode`: the lines of text of the program in a dump. -/
def decode (binary : Memory) (rounds : ℕ) : Option (List (List ℕ)) :=
  decodeLoop binary rounds rounds blockProgramStart

/-! ## The loader -/

namespace BasicBlock

/-- `setBoot`: the boot flag and a line of tokens in the token buffer. -/
def setBoot (b : BasicBlock) (code : List ℕ) : Option BasicBlock := do
  let b ← b.writeWord (b.baseAddress + blockBootFlag) 1
  let tok ← tokenise code
  b.writeWords (b.baseAddress + blockTokenBuffer) (tok ++ [0])

/-- The loop of `loadProgram`: a line of the file. -/
def loadLine (b : BasicBlock) (l : List ℕ) : Option BasicBlock :=
  match strip l with
  | 64 :: l => b.setBoot (strip l)
  | l =>
    let number := l.takeWhile isDigit
    b.addBASICLine (l.dropWhile isDigit) (if number = [] then none else some (intOf number))

/-- `loadProgram`: the lines of a file. -/
def loadProgram (b : BasicBlock) (ls : List (List ℕ)) : Option BasicBlock := ls.foldlM loadLine b

/-- Lines of BASIC, with or without a number, added in order. -/
def addLines (b : BasicBlock) (codes : List (List ℕ × Option ℕ)) : Option BasicBlock :=
  codes.foldlM (fun b c => b.addBASICLine c.1 c.2) b

/-- The lines found along the links from `pos` on. -/
def linesFrom (b : BasicBlock) : ℕ → ℕ → List Line
  | 0, _ => []
  | n + 1, pos =>
    if b.data.word pos = 0 then []
    else
      { number := b.data.word (pos + 2)
        tokens := (List.range ((b.data.word pos - 6) / 2)).map fun i =>
          b.data.word (pos + 4 + 2 * i) } :: b.linesFrom n (pos + b.data.word pos)

/-- The line numbers and token words of the stored program. -/
def program (b : BasicBlock) : List Line := b.linesFrom b.blockSize blockProgramStart

end BasicBlock

end Basic65816.Builder
