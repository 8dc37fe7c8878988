import Basic65816.Lib.Bytes
import Basic65816.Lib.Fuel

/-!
# The machine state of the interpreter

The 65816 runs with sixteen-bit registers. A routine of the source is a function of the state and of
the registers it reads, and returns the state and the registers it sets; the processor stack is the
call structure of these functions. The words of the direct page below `$80` are fields, named as in
`data.asm`; the rest of the direct page (parameter buffer, BASIC stack, expression stack) is the
memory `page`, addressed by the direct-page offset. The workspace bank is the memory `bank`; an
access through the data bank register carries into the next bank, so its addresses are not reduced
modulo `$10000`. All other banks are the memory `far`, addressed by 24 bits.

## Main definitions

* `Machine`: the state
* `Error`, `Stop`, `Result`: how a routine can end
* `add16`, `sub16`: sixteen-bit register arithmetic
-/

namespace Basic65816

/-! ## Block offsets (`block.inc`) -/

def blockFastVariables : ℕ := 0x10
def blockHashTable : ℕ := 0x80
def blockHashMask : ℕ := 0x0f
def blockLowMemoryPtr : ℕ := 0x08
def blockHighMemoryPtr : ℕ := 0x0a
def blockNullString : ℕ := 0x0c
def blockBootFlag : ℕ := 0x0e
def blockProgramStart : ℕ := 0x200
def blockTokenBuffer : ℕ := 0x100
def blockHashTableEntrySize : ℕ := 0x10

/-- Offset of the parameter buffer in the direct page. -/
def prmBuffer : ℕ := 0x80

/-- Offset of the BASIC stack in the direct page. -/
def basStack : ℕ := 0xc0

/-- The direct page, the workspace bank and the other banks. -/
structure Machine where
  dPageNumber : ℕ
  dBaseAddress : ℕ
  dHighAddress : ℕ
  dCodePtr : ℕ
  dTempStringPointer : ℕ
  dStartTempString : ℕ
  dCurrentTempString : ℕ
  dConstantShift : ℕ
  dVariablePtr : ℕ
  dHashTablePtr : ℕ
  dLineNumber : ℕ
  dSignCount : ℕ
  dStack : ℕ
  dIndent : ℕ
  dIndent2 : ℕ
  dListBuffer : ℕ
  dTemp1 : ℕ
  dTemp1H : ℕ
  dTemp2 : ℕ
  dTemp2H : ℕ
  dTemp3 : ℕ
  dTemp3H : ℕ
  dTemp4 : ℕ
  dTemp4H : ℕ
  dTemp5 : ℕ
  dTemp5H : ℕ
  dRandom : ℕ
  dRandomH : ℕ
  page : Memory
  bank : Memory
  far : Memory
  deriving Inhabited

/-- The messages of `ErrorHandler`. -/
inductive Error
  | cannotHaveLine0 | cannotParseLine | lineTooLong | integerTooLarge | missingClosingQuote
  | illegalToken | syntaxError | outOfMemory | missingToken | operatorIntegerOnly
  | numberExpected | stringExpected | variableUnknown | missingVariable | badArraySubscript
  | addMixTypes | stringTooLong | comparisonMixedTypes | divisionByZero | noSearchString
  | badChr | badAsc | badSpc | badStringOperation | badNumberBase | badConstant
  | missingEquals | undefinedArray | unknownProcedure | badParameterType | endProcWithoutProc
  | badLocalIdentifier | badForVariable | nextWithoutFor | badNextVariable | elseWithoutIf
  | structureImbalance | wendWithoutWhile | untilWithoutRepeat | break
  | badDim | cannotRedimension | dimTooLarge
  | returnWithoutGosub | unknownLineNumber | badLineNumber | badOnGotoValue | stop
  | assertFailed
  deriving DecidableEq, Repr

/-- Ways a routine can end without returning: through `ErrorHandler`, whose message and state are
kept, because control leaves the code that is modelled, or because a loop ran out of fuel. -/
inductive Stop
  | error (e : Error) (m : Machine)
  | leaves
  | outOfFuel

/-- The result of a routine. -/
abbrev Result (α : Type) := Except Stop α

/-- Leave through `ErrorHandler`. -/
def fail {α : Type} (m : Machine) (e : Error) : Result α := .error (.error e m)

@[simp] theorem ok_bind {α β : Type} (a : α) (f : α → Result β) :
    ((.ok a : Result α) >>= f) = f a := rfl

@[simp] theorem error_bind {α β : Type} (e : Stop) (f : α → Result β) :
    ((.error e : Result α) >>= f) = .error e := rfl

@[simp] theorem fail_bind {α β : Type} (m : Machine) (e : Error) (f : α → Result β) :
    (fail m e >>= f) = fail m e := rfl

/-! ## Sixteen-bit registers -/

/-- Sixteen-bit addition. -/
def add16 (a b : ℕ) : ℕ := (a + b) % 0x10000

/-- Sixteen-bit subtraction of a word. -/
def sub16 (a b : ℕ) : ℕ := (a + (0x10000 - b)) % 0x10000

theorem add16_lt (a b : ℕ) : add16 a b < 0x10000 := Nat.mod_lt _ (by decide)

theorem sub16_lt (a b : ℕ) : sub16 a b < 0x10000 := Nat.mod_lt _ (by decide)

theorem add16_eq {a b : ℕ} (h : a + b < 0x10000) : add16 a b = a + b := Nat.mod_eq_of_lt h

theorem sub16_eq {a b : ℕ} (ha : a < 0x10000) (h : b ≤ a) : sub16 a b = a - b := by
  unfold sub16
  omega

/-- Going back and forth again. -/
theorem add16_sub16 {a b : ℕ} (ha : a < 0x10000) (hb : b ≤ 0x10000) :
    add16 (sub16 a b) b = a := by
  unfold add16 sub16
  omega

end Basic65816
