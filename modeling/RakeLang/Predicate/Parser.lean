import RakeLang.Expression.Parser
import RakeLang.Predicate.Basic

/-!
# Reading predicates

A predicate is a chain of conjunctions with `or` between them, a conjunction a chain of negations
and atoms with `and` between them.  An atom is the test of a tine, a comparison, or a predicate
in parentheses.

A parenthesis opens a group or an operand of a comparison, and which of them shows only behind
its counterpart.  So a comparison is tried first; if it is refused, the cursor goes back and a
group is read.  If both are refused, the fault that shows further on is told.

## Main definitions

* `RakeLang.Parser.comparison` — reads a comparison.
* `RakeLang.Parser.predicate` — reads a predicate.
-/

set_option relaxedAutoImplicit false
set_option autoImplicit false

namespace RakeLang.Parser

/-! ## Atoms -/

/-- Reads the mention of a tine. -/
def tineRef : Parser TineRef := do
  let token ← expect .tineRef
  return ⟨String.ofList (token.lexeme.toList.dropWhile (· == '#')), token.span⟩

/-- Splits the arrow at the cursor, if one stands there. -/
def splitArrow (c : Cursor) : Cursor := c.splitArrow?.getD c

/-- Reads a comparison sign or the words of one, if they stand at the cursor behind an
operand. -/
def compareOperator? : Parser (Option CompareOp) := do
  modify splitArrow
  match ← peekKind with
  | .keyword .is =>
    let _ ← advance
    if ← eat (.keyword .not) then return some .isNot else return some .is
  | kind =>
    match kind.compareOp? with
    | none => return none
    | some op =>
      let _ ← advance
      return some op

/-- Reads a comparison of two operands.  A truth value alone stands for itself. -/
def comparison : Parser Predicate := do
  let lhs ← comparand
  match ← compareOperator? with
  | some op =>
    let rhs ← comparand
    return .compare op lhs rhs (lhs.span.merge rhs.span)
  | none =>
    match lhs with
    | .bool value span => return .const value span
    | _ => unexpected ["comparison operator"]

/-- Reads a predicate in parentheses. -/
def group (inner : Parser Predicate) : Parser Predicate := do
  let start ← expect (.symbol .lParen)
  let predicate ← inner
  let _ ← expect (.symbol .rParen)
  let span ← spanFrom start.span
  return .group predicate span

/-- Reads at the same place with `first` and, if that is refused, with `second`.  The tokens that
`first` split stay split. -/
def orElseHere {α : Type} (first second : Parser α) : Parser α := fun c =>
  match first c with
  | .ok a behind => .ok a behind
  | .error fault behind =>
    match second (behind.seek c.position) with
    | .ok a behind => .ok a behind
    | .error other behind => .error (fault.furthest other) behind

/-- Reads an atom. -/
def predicateAtom (inner : Parser Predicate) : Parser Predicate := do
  match ← peekKind with
  | .tineRef =>
    let tine ← tineRef
    return .tineTest tine
  | .symbol .lParen => orElseHere comparison (group inner)
  | _ => comparison

/-! ## Logic -/

/-- Reads a sign or a word for "not", if one stands at the cursor. -/
def notOperator? : Parser (Option Span) := do
  match ← peekKind with
  | .symbol .bang | .keyword .not =>
    let token ← advance
    return some token.span
  | _ => return none

/-- Reads a sign or a word for "and", if one stands at the cursor. -/
def andOperator? : Parser (Option Unit) := do
  match ← peekKind with
  | .symbol .ampAmp | .keyword .and =>
    let _ ← advance
    return some ()
  | _ => return none

/-- Reads a sign or a word for "or", if one stands at the cursor. -/
def orOperator? : Parser (Option Unit) := do
  match ← peekKind with
  | .symbol .pipePipe | .keyword .or =>
    let _ ← advance
    return some ()
  | _ => return none

/-- The negation of a predicate. -/
def applyNot (start : Span) (operand : Predicate) : Predicate :=
  .not operand (start.merge operand.span)

/-- The conjunction of two predicates. -/
def applyAnd (lhs : Predicate) (_ : Unit) (rhs : Predicate) : Predicate :=
  .and lhs rhs (lhs.span.merge rhs.span)

/-- The disjunction of two predicates. -/
def applyOr (lhs : Predicate) (_ : Unit) (rhs : Predicate) : Predicate :=
  .or lhs rhs (lhs.span.merge rhs.span)

/-- Reads an atom and the negations in front of it. -/
def negation (inner : Parser Predicate) : Parser Predicate :=
  prefixed notOperator? (predicateAtom inner) applyNot

/-- Reads negations with "and" between them. -/
def conjunction (inner : Parser Predicate) : Parser Predicate :=
  leftAssoc andOperator? (negation inner) applyAnd

/-- Reads a predicate whose groups hold what `inner` reads. -/
def predicateWith (inner : Parser Predicate) : Parser Predicate :=
  leftAssoc orOperator? (conjunction inner) applyOr

/-- Reads a predicate with at most `n` tokens ahead. -/
def predicateUpTo : Nat → Parser Predicate
  | 0 => unexpected ["expression"]
  | n + 1 => predicateWith (predicateUpTo n)

/-- Reads a predicate. -/
def predicate : Parser Predicate := fun c => predicateUpTo c.remaining c

end RakeLang.Parser
