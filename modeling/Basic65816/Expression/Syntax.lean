import Basic65816.Machine.Expression

/-!
# Expressions

The syntax trees of expressions, and the token streams they are written as. A tree keeps its
parentheses; `Expr.Written` says where a tree needs none.

## Main definitions

* `Expr`: expressions
* `Expr.tokens`, `Expr.Written`: written expressions
-/

namespace Basic65816

/-- The precedence level of an operator. -/
def BinaryOperator.level : BinaryOperator → ℕ
  | .and | .or | .xor => 0
  | .less | .greater | .equals | .lessEqual | .greaterEqual | .notEquals => 1
  | .add | .subtract => 2
  | .multiply | .divide | .modulus | .shiftRight | .shiftLeft => 3

/-- The token of an operator. -/
def BinaryOperator.token : BinaryOperator → ℕ
  | .and => 0x2001 | .or => 0x2002 | .xor => 0x2003
  | .less => 0x2204 | .greater => 0x2205 | .equals => 0x2206
  | .lessEqual => 0x2207 | .greaterEqual => 0x2208 | .notEquals => 0x2209
  | .add => 0x240a | .subtract => 0x240b
  | .multiply => 0x260c | .divide => 0x260d | .modulus => 0x260e
  | .shiftRight => 0x260f | .shiftLeft => 0x2610

/-- The operators of group 1. -/
def BinaryOperator.IsComparison (op : BinaryOperator) : Prop := op.level = 1

instance : DecidablePred BinaryOperator.IsComparison := fun _ => inferInstanceAs (Decidable (_ = _))

/-- The token of a function. -/
def UnaryFunction.token : UnaryFunction → ℕ
  | .random => 0x3011 | .sgn => 0x3012 | .abs => 0x3013 | .len => 0x3014 | .val => 0x3015
  | .str => 0x3016 | .chr => 0x3017 | .asc => 0x3018 | .spc => 0x3019 | .peek => 0x301a
  | .deek => 0x301b | .leek => 0x301c | .lower => 0x301d | .upper => 0x301e | .left => 0x301f
  | .mid => 0x3020 | .right => 0x3021 | .instr => 0x3022 | .inkey => 0x3023

section

variable (op : BinaryOperator) (f : UnaryFunction)

/-- The operators are in the token table, under the token and the level of `op`. -/
theorem BinaryOperator.token_mem :
    ∃ t ∈ tokenList, t.id = op.token ∧ t.type = op.level := by
  cases op <;> decide

/-- The functions are in the token table. -/
theorem UnaryFunction.token_mem : ∃ t ∈ tokenList, t.id = f.token ∧ t.type = unaryFunction := by
  cases f <;> decide

theorem BinaryOperator.token_group : op.token &&& 0xF000 = 0x2000 := by cases op <;> rfl

theorem BinaryOperator.token_level :
    op.token &&& 15 <<< tokenShift = op.level <<< tokenShift := by cases op <;> rfl

theorem BinaryOperator.vector : commandJumpTable[op.token &&& 0x01FF]? = some (.binary op) := by
  cases op <;> rfl

theorem BinaryOperator.level_le : op.level ≤ 3 := by cases op <;> decide

theorem UnaryFunction.vector : commandJumpTable[f.token &&& 0x01FF]? = some (.unary f) := by
  cases f <;> rfl

end

/-! ## Syntax trees -/

/-- The types of values. -/
inductive Ty
  | integer | string
  deriving DecidableEq, Repr

/-- Functions without an argument. -/
inductive Function0
  | random | inkey
  deriving DecidableEq, Repr

/-- Functions of one argument. -/
inductive Function1
  | sgn | abs | len | val | str | chr | asc | spc | peek | deek | leek | lower | upper
  deriving DecidableEq, Repr

/-- Functions of two arguments. -/
inductive Function2
  | val | str | left | mid | right | instr
  deriving DecidableEq, Repr

/-- The routine behind a function without an argument. -/
def Function0.function : Function0 → UnaryFunction
  | .random => .random
  | .inkey => .inkey

/-- The routine behind a function of one argument. -/
def Function1.function : Function1 → UnaryFunction
  | .sgn => .sgn | .abs => .abs | .len => .len | .val => .val | .str => .str | .chr => .chr
  | .asc => .asc | .spc => .spc | .peek => .peek | .deek => .deek | .leek => .leek
  | .lower => .lower | .upper => .upper

/-- The routine behind a function of two arguments. -/
def Function2.function : Function2 → UnaryFunction
  | .val => .val | .str => .str | .left => .left | .mid => .mid | .right => .right
  | .instr => .instr

/-- Expressions. A name is the list of its identifier tokens. -/
inductive Expr
  /-- An integer constant, with or without a constant shift token. -/
  | constant (shift : Option ℕ) (token : ℕ)
  /-- A string constant: the token with the distance to its end, and the words of the string. -/
  | literal (header : ℕ) (body : List ℕ)
  | variable (name : List ℕ)
  | element (name : List ℕ) (index : Expr)
  | call0 (f : Function0)
  | call1 (f : Function1) (a : Expr)
  | call2 (f : Function2) (a b : Expr)
  /-- `mid$(` with three arguments. -/
  | mid (s n k : Expr)
  | paren (e : Expr)
  | neg (e : Expr)
  | binary (op : BinaryOperator) (l r : Expr)
  deriving DecidableEq

/-- Identifier tokens: the continuation bit is set in all but the last. -/
def IsName : List ℕ → Prop
  | [] => False
  | [t] => 0xC000 ≤ t ∧ t &&& idContMask = 0
  | t :: u :: ts => 0xC000 ≤ t ∧ t &&& idContMask ≠ 0 ∧ IsName (u :: ts)

/-- The type an identifier token carries. -/
def tokenType (t : ℕ) : Ty := if t &&& idTypeMask = 0 then .integer else .string

namespace Expr

/-- The tokens an expression is written as. -/
def tokens : Expr → List ℕ
  | .constant shift t => shift.toList ++ [t]
  | .literal h body => h :: body
  | .variable name => name
  | .element name i => name ++ i.tokens ++ [rparenTokenID]
  | .call0 f => [f.function.token, rparenTokenID]
  | .call1 f a => f.function.token :: a.tokens ++ [rparenTokenID]
  | .call2 f a b => f.function.token :: a.tokens ++ [commaTokenID] ++ b.tokens ++ [rparenTokenID]
  | .mid s n k => UnaryFunction.mid.token :: s.tokens ++ [commaTokenID] ++ n.tokens ++
      [commaTokenID] ++ k.tokens ++ [rparenTokenID]
  | .paren e => lparenTokenID :: e.tokens ++ [rparenTokenID]
  | .neg e => minusTokenID :: e.tokens
  | .binary op l r => l.tokens ++ [op.token] ++ r.tokens

/-- The expression can be written where operators of level `p` and above are expected: operators
associate to the left, and unary minus binds tightest. -/
def Written (p : ℕ) : Expr → Prop
  | .constant shift t => (∀ s ∈ shift, 0x1000 ≤ s ∧ s < 0x2000) ∧ 0x4000 ≤ t ∧ t < 0xC000
  | .literal h body => h = 2 * body.length + 2 ∧ h < 0x1000
  | .variable name => IsName name ∧ name.headI &&& idArrayMask = 0
  | .element name i => IsName name ∧ name.headI &&& idArrayMask ≠ 0 ∧ i.Written 0
  | .call0 _ => True
  | .call1 _ a => a.Written 0
  | .call2 _ a b => a.Written 0 ∧ b.Written 0
  | .mid s n k => s.Written 0 ∧ n.Written 0 ∧ k.Written 0
  | .paren e => e.Written 0
  | .neg e => e.Written 7
  | .binary op l r => p ≤ op.level ∧ l.Written op.level ∧ r.Written (op.level + 1)

end Expr

/-- The token cannot continue an expression at level `p`: it is not an operator of that level or
above. -/
def Stops (p t : ℕ) : Prop :=
  t &&& 0xF000 = 0x2000 → t &&& 15 <<< tokenShift < p <<< tokenShift

theorem Stops.mono {p q t : ℕ} (h : Stops p t) (hpq : p ≤ q) : Stops q t := fun ht => by
  have := h ht
  simp only [Nat.shiftLeft_eq] at this ⊢
  have := Nat.mul_le_mul_right (2 ^ tokenShift) hpq
  omega

/-- An operator does not continue an expression of a higher level. -/
theorem BinaryOperator.stops (op : BinaryOperator) : Stops (op.level + 1) op.token := fun _ => by
  rw [op.token_level]
  simp only [Nat.shiftLeft_eq]
  exact Nat.mul_lt_mul_of_pos_right (Nat.lt_succ_self _) (by decide)

theorem stops_rparen (p : ℕ) : Stops p rparenTokenID := fun h => absurd h (by decide)

end Basic65816
