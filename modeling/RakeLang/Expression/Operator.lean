import RakeLang.Token.Kind

/-!
# Operators

The operators of expressions and predicates, the signs that spell them, and the levels that
order the binary ones.  All binary operators associate to the left, and an operator of a tighter
level takes its operands first.

## Main definitions

* `RakeLang.BinaryOp`, `RakeLang.UnaryOp`, `RakeLang.CompareOp` — the operators.
* `RakeLang.Level` — the levels; `RakeLang.BinaryOp.level` is the level of an operator.
* `RakeLang.Kind.binaryOp?` and its relatives — the operator that a token spells.
* `RakeLang.Kind.precedence?` — how tightly a token binds between two operands.

## Main results

* `RakeLang.Kind.precedence?_eq` — every token that binds spells an operator of that tightness.
-/

set_option relaxedAutoImplicit false
set_option autoImplicit false

namespace RakeLang

/-! ## Binary operators -/

/-- The binary operators of expressions. -/
inductive BinaryOp where
  | pipe | or | and
  | less | lessEq | greater | greaterEq | equal | notEqual
  | add | sub | mul | div | rem
  | shl | shr | rol | ror | cross
  deriving DecidableEq, Repr

/-- The levels of binary operators. -/
inductive Level where
  | pipe | or | and | compare | additive | multiplicative | shift | cross
  deriving DecidableEq, Repr

namespace Level

/-- All levels, the loosest first. -/
def all : List Level := [pipe, or, and, compare, additive, multiplicative, shift, cross]

/-- The levels of arithmetic, the loosest first. -/
def arithmetic : List Level := [additive, multiplicative, shift, cross]

/-- How tightly the operators of a level bind. -/
def tightness : Level → Nat
  | pipe => 1 | or => 2 | and => 3 | compare => 4
  | additive => 5 | multiplicative => 6 | shift => 7 | cross => 8

end Level

namespace BinaryOp

/-- The level of an operator. -/
def level : BinaryOp → Level
  | pipe => .pipe
  | or => .or
  | and => .and
  | less | lessEq | greater | greaterEq | equal | notEqual => .compare
  | add | sub => .additive
  | mul | div | rem => .multiplicative
  | shl | shr | rol | ror => .shift
  | cross => .cross

/-- The name of an operator in a syntax tree. -/
def name : BinaryOp → String
  | pipe => "Pipe" | or => "Or" | and => "And" | less => "Less" | lessEq => "LessEq"
  | greater => "Greater" | greaterEq => "GreaterEq" | equal => "Equal" | notEqual => "NotEqual"
  | add => "Add" | sub => "Sub" | mul => "Mul" | div => "Div" | rem => "Rem"
  | shl => "Shl" | shr => "Shr" | rol => "Rol" | ror => "Ror" | cross => "Cross"

end BinaryOp

/-- The binary operator that a token spells. -/
def Kind.binaryOp? : Kind → Option BinaryOp
  | symbol .pipeForward => some .pipe
  | symbol .pipePipe | keyword .or => some .or
  | symbol .ampAmp | keyword .and => some .and
  | symbol .less => some .less
  | symbol .lessEq => some .lessEq
  | symbol .greater => some .greater
  | symbol .greaterEq => some .greaterEq
  | symbol .equal => some .equal
  | symbol .notEqual => some .notEqual
  | symbol .plus => some .add
  | symbol .minus => some .sub
  | symbol .star => some .mul
  | symbol .slash => some .div
  | symbol .percent => some .rem
  | symbol .shl => some .shl
  | symbol .shr => some .shr
  | symbol .rol => some .rol
  | symbol .ror => some .ror
  | symbol .cross => some .cross
  | _ => none

/-- How tightly the binary operators that a token spells bind, as a table of its own. -/
def Kind.precedence? : Kind → Option Nat
  | symbol .pipeForward => some 1
  | symbol .pipePipe | keyword .or => some 2
  | symbol .ampAmp | keyword .and => some 3
  | symbol .less | symbol .lessEq | symbol .greater | symbol .greaterEq | symbol .equal
  | symbol .notEqual => some 4
  | symbol .plus | symbol .minus => some 5
  | symbol .star | symbol .slash | symbol .percent => some 6
  | symbol .shl | symbol .shr | symbol .rol | symbol .ror => some 7
  | symbol .cross => some 8
  | _ => none

/-- **The two tables agree**: a token that binds spells an operator, and it binds as tightly as the
level of the operator does.  So no reader comes to an operator without a meaning. -/
theorem Kind.precedence?_eq (kind : Kind) :
    kind.precedence? = kind.binaryOp?.map fun op => op.level.tightness := by
  rcases kind with _ | _ | _ | _ | _ | word | sign | _
  case keyword => cases word <;> rfl
  case symbol => cases sign <;> rfl
  all_goals rfl

/-! ## Unary operators -/

/-- The operators in front of an operand. -/
inductive UnaryOp where
  | neg | not
  deriving DecidableEq, Repr

/-- The name of an operator in a syntax tree. -/
def UnaryOp.name : UnaryOp → String
  | neg => "Neg"
  | not => "Not"

/-- The unary operator that a token spells. -/
def Kind.unaryOp? : Kind → Option UnaryOp
  | symbol .minus => some .neg
  | symbol .bang | keyword .not => some .not
  | _ => none

/-! ## Comparisons of predicates -/

/-- The comparisons of predicates. -/
inductive CompareOp where
  | less | lessEq | greater | greaterEq | equal | notEqual | is | isNot
  deriving DecidableEq, Repr

/-- The name of a comparison in a syntax tree. -/
def CompareOp.name : CompareOp → String
  | less => "Less" | lessEq => "LessEq" | greater => "Greater" | greaterEq => "GreaterEq"
  | equal => "Equal" | notEqual => "NotEqual" | is => "Is" | isNot => "IsNot"

/-- The comparison that a single token spells; `is` and `is not` are words. -/
def Kind.compareOp? : Kind → Option CompareOp
  | symbol .less => some .less
  | symbol .lessEq => some .lessEq
  | symbol .greater => some .greater
  | symbol .greaterEq => some .greaterEq
  | symbol .equal => some .equal
  | symbol .notEqual => some .notEqual
  | _ => none

end RakeLang
