import Basic65816.Machine.State

/-!
# The token table

`TokenSource` lists the token names in groups; `TokenList` numbers them from 1 and computes the
token word from the number and the type of the group; `renderInclude` writes the table `TokenText`
the interpreter searches, the vector table and the token constants.

## Main definitions

* `tokenSource`, `tokenList`: the tokens of the builder
* `tokenText`: the table of `tokens.inc`
* `BinaryOperator`, `UnaryFunction`, `Command`, `Handler`, `commandJumpTable`: the vector table
-/

namespace Basic65816

/-- The `ord` values of a Python string. -/
def ord (s : String) : List ℕ := s.toList.map Char.toNat

/-- The groups of `TokenSource`, each with the type number `TokenList` gives it. -/
def tokenSource : List (ℕ × List String) :=
  [ (0, ["&", "|", "^"]),
    (1, ["<", ">", "=", "<=", ">=", "<>"]),
    (2, ["+", "-"]),
    (3, ["*", "/", "%", ">>", "<<"]),
    -- [unary]
    (8, ["rnd(", "sgn(", "abs(", "len(", "val(", "str$(", "chr$(", "asc(", "spc(", "peek(",
      "deek(", "leek(", "lower$(", "upper$(", "left$(", "mid$(", "right$(", "instr(", "inkey("]),
    -- [syntax]
    (9, [",", ";", ":", "(", ")", "'"]),
    -- [keyword-syntax]
    (12, ["to", "step"]),
    -- [keyword]
    (15, ["rem", "let", "assert", "end", "run", "stop", "clear", "dim", "cls", "print", "goto",
      "gosub", "return", "on", "else", "poke", "doke", "loke", "list", "link", "new", "proc",
      "local", "vdu"]),
    -- [keyword+]
    (14, ["repeat", "while", "if", "for", "defproc"]),
    -- [keyword-]
    (13, ["wend", "until", "then", "endif", "next", "endproc"]) ]

/-- `Token`: the lower-case name, the type and the token word. -/
structure Token where
  name : List ℕ
  type : ℕ
  id : ℕ
  deriving DecidableEq, Repr

/-- `TokenList`: the tokens in source order, numbered from 1. -/
def tokenList : List Token :=
  (tokenSource.flatMap fun g => g.2.map fun s => (g.1, ord s)).zipIdx.map fun t =>
    { name := t.1.2, type := t.1.1, id := (t.2 + 1) + t.1.1 * 2 ^ 9 + 0x2000 }

/-- Python's `upper` on one ASCII code. -/
def upperChar (c : ℕ) : ℕ := if 97 ≤ c ∧ c ≤ 122 then c - 32 else c

/-- Python's `lower` on one ASCII code. -/
def lowerChar (c : ℕ) : ℕ := if 65 ≤ c ∧ c ≤ 90 then c + 32 else c

/-- An entry of `TokenText`: the byte `type * 16 + length + 1` and the upper-case text. -/
structure TokenEntry where
  byte : ℕ
  text : List ℕ
  deriving DecidableEq, Repr

/-- `renderInclude`'s table `TokenText`, without the closing zero byte. -/
def tokenText : List TokenEntry :=
  tokenList.map fun t =>
    { byte := (t.name.length + 1) + t.type * 16, text := t.name.map upperChar }

/-! ## The vector table -/

/-- The operators of the groups 0 to 3. -/
inductive BinaryOperator
  | and | or | xor
  | less | greater | equals | lessEqual | greaterEqual | notEquals
  | add | subtract
  | multiply | divide | modulus | shiftRight | shiftLeft
  deriving DecidableEq, Repr

/-- The functions of the group `unary`. -/
inductive UnaryFunction
  | random | sgn | abs | len | val | str | chr | asc | spc | peek | deek | leek
  | lower | upper | left | mid | right | instr | inkey
  deriving DecidableEq, Repr

/-- The routines of the keywords that begin an instruction. -/
inductive Command
  | commandRem | commandLet | commandAssert | commandEnd | commandRun | commandStop | commandClear
  | functionDim | commandCls | commandPrint | commandGoto | commandGosub | commandReturn
  | commandOngoto | handlerElse | commandPoke | commandDoke | commandLoke | commandList
  | commandLink | commandNew | commandProc | commandLocal | commandVdu
  | commandRepeat | commandWhile | commandIf | commandFor
  | commandWend | commandUntil | handlerEndif | commandNext | commandEndproc
  deriving DecidableEq, Repr

/-- The entries of the vector table. -/
inductive Handler
  | illegalToken
  | binary (op : BinaryOperator)
  | unary (f : UnaryFunction)
  | command (c : Command)
  deriving DecidableEq, Repr

/-- `CommandJumpTable`, indexed by the keyword number. -/
def commandJumpTable : List Handler :=
  [ .illegalToken,
    .binary .and, .binary .or, .binary .xor,
    .binary .less, .binary .greater, .binary .equals, .binary .lessEqual, .binary .greaterEqual,
    .binary .notEquals,
    .binary .add, .binary .subtract,
    .binary .multiply, .binary .divide, .binary .modulus, .binary .shiftRight, .binary .shiftLeft,
    .unary .random, .unary .sgn, .unary .abs, .unary .len, .unary .val, .unary .str, .unary .chr,
    .unary .asc, .unary .spc, .unary .peek, .unary .deek, .unary .leek, .unary .lower,
    .unary .upper, .unary .left, .unary .mid, .unary .right, .unary .instr, .unary .inkey,
    .illegalToken, .illegalToken, .illegalToken, .illegalToken, .illegalToken, .illegalToken,
    .illegalToken, .illegalToken,
    .command .commandRem, .command .commandLet, .command .commandAssert, .command .commandEnd,
    .command .commandRun, .command .commandStop, .command .commandClear, .command .functionDim,
    .command .commandCls, .command .commandPrint, .command .commandGoto, .command .commandGosub,
    .command .commandReturn, .command .commandOngoto, .command .handlerElse,
    .command .commandPoke, .command .commandDoke, .command .commandLoke, .command .commandList,
    .command .commandLink, .command .commandNew, .command .commandProc, .command .commandLocal,
    .command .commandVdu,
    .command .commandRepeat, .command .commandWhile, .command .commandIf, .command .commandFor,
    .illegalToken,
    .command .commandWend, .command .commandUntil, .illegalToken, .command .handlerEndif,
    .command .commandNext, .command .commandEndproc ]

/-- There is a vector for every token. -/
theorem length_commandJumpTable : commandJumpTable.length = tokenList.length + 1 := by decide

end Basic65816
