import RakeLang.Proofs.Running.Program
import RakeLang.Proofs.Settling.Climbing

/-!
# The texts of the readers

Every reader of this library as a program.  The texts are those of the readers, with the bounds
taken away: a reader that goes on with itself does so by its name, and `Procedure.body` gives the
text behind the name.  In three places the text is not that of the reader.

* A chain of operands is read by precedence climbing, in one loop for all levels, and how tightly
  the token at the index binds is looked up in a table of its own.  A token that the table ranks and
  that stands for no operator is an internal fault.
* A scalar literal that does not close, and a comparison that turns out to be a group, go back to a
  position; an internal fault is not tried again.
* The place where reading goes on behind a fault is looked for one token at a time.

## Main definitions

* `RakeLang.Program.expression`, `RakeLang.Program.predicate`, `RakeLang.Program.dataType`,
  `RakeLang.Program.sourceFile` — the readers of whole phrases.
* `RakeLang.Procedure.body` — the texts behind the names.
-/

set_option relaxedAutoImplicit false
set_option autoImplicit false

namespace RakeLang

namespace Program

open RakeLang.Parser (Operands Suffix LetForm applyUnary applyNot applyAnd applyOr combined)

/-! ## Readers by their names -/

/-- Reads an expression. -/
def expression : Program Expression := invoke (.chain .full 1)

/-- Reads an operand of a comparison in a predicate. -/
def comparand : Program Expression := invoke (.chain .comparison 5)

/-- Reads a type. -/
def dataType : Program DataType := invoke .dataType

/-- Reads a predicate. -/
def predicate : Program Predicate := invoke .predicate

/-! ## Types -/

/-- Reads a type that begins with an identifier. -/
def namedType : Program DataType := do
  let start ← peek
  if start.lexeme == "mask" then
    let _ ← advance
    return .mask start.span
  else
    match LaneType.ofWord? start.lexeme with
    | none => unexpected ["type"]
    | some lane =>
      let _ ← advance
      if ← checkWord "rack" then
        let _ ← advance
        let span ← spanFrom start.span
        return .rack lane span
      else return .lane lane start.span

/-- Reads the name of a record and the word behind it. -/
def recordType : Program DataType := do
  let name ← expect .typeIdent
  if ← eat (.keyword .stack) then
    let span ← spanFrom name.span
    return .stack name.lexeme span
  else if ← eat (.keyword .single) then
    let span ← spanFrom name.span
    return .single name.lexeme span
  else if ← checkWord "pack" then
    let _ ← advance
    let span ← spanFrom name.span
    return .pack name.lexeme span
  else unexpected ["`stack`", "`single`", "`pack`"]

/-- Reads a list of types in parentheses, and the result of a function behind an arrow. -/
def listedType : Program DataType := do
  let start ← expect (.symbol .lParen)
  let items ← commaSeparated (.symbol .rParen) dataType
  let _ ← expect (.symbol .rParen)
  if ← eat (.symbol .arrow) then
    let result ← dataType
    let span ← spanFrom start.span
    return .function items result span
  else
    let span ← spanFrom start.span
    return if items.isEmpty then .unit span else .tuple items span

/-- Reads a type, by what it begins with. -/
def dataTypeBody : Program DataType := do
  match ← peekKind with
  | .ident => namedType
  | .typeIdent => recordType
  | .symbol .lParen => listedType
  | _ => unexpected ["type"]

/-! ## Numbers -/

/-- Reads an integer. -/
def intLiteral : Program Int := do
  let token ← expect .int
  match Numeral.readInt? token.lexeme with
  | some v => return v
  | none => throw (.numeral token.lexeme token.span)

/-- Reads a float. -/
def floatLiteral : Program Float := do
  let token ← expect .float
  match Numeral.readFloat? token.lexeme with
  | some v => return v
  | none => throw (.numeral token.lexeme token.span)

/-- Reads a number, if one stands at the index. -/
def number? : Program (Option Number) := do
  match ← peekKind with
  | .int =>
    let v ← intLiteral
    return some (.int v)
  | .float =>
    let v ← floatLiteral
    return some (.float v)
  | _ => return none

/-- The opposite of the number that was read last. -/
def negated (n : Number) : Program Number := do
  match n.negate? with
  | some n => return n
  | none =>
    let last : Span ← perform .previousSpan
    throw (.numeral ("-" ++ n.render) last)

/-- Reads a number, if one stands at the index, and answers its opposite. -/
def negatedNumber? : Program (Option Number) := do
  match ← number? with
  | none => return none
  | some n =>
    let n ← negated n
    return some n

/-! ## Scalar literals -/

/-- Reads a dot and the name of a field, if both stand at the index. -/
def pathField : Program (Option String) := do
  if (← check (.symbol .dot)) && (← checkAhead 1 .ident) then
    let _ ← advance
    let field ← expect .ident
    return some field.lexeme
  else return none

/-- Reads what stands behind a less-than sign that opens a scalar literal. -/
def scalarValue? : Program (Option ScalarValue) := do
  match ← peekKind with
  | .ident =>
    let root ← advance
    let fields ← many pathField
    return some (.path root.lexeme fields)
  | .symbol .minus =>
    let _ ← advance
    let n ← negatedNumber?
    return n.map .number
  | _ =>
    let n ← number?
    return n.map .number

/-- Reads the opening angle of a scalar literal and its value.  An arrow is an angle and the
minus sign of a number. -/
def openedScalar? : Program (Option ScalarValue) := do
  match ← peekKind with
  | .symbol .less =>
    let _ ← advance
    scalarValue?
  | .symbol .leftArrow =>
    let _ ← advance
    let n ← negatedNumber?
    return n.map .number
  | _ => return none

/-- Reads a scalar literal on trial.  Only a single greater-than sign closes it. -/
def scalarTrial : Program (Option ScalarLiteral) := do
  let start ← peek
  match ← openedScalar? with
  | none => return none
  | some value =>
    if ← eat (.symbol .greater) then
      let span ← spanFrom start.span
      return some ⟨value, span⟩
    else return none

/-- Reads a scalar literal.  Where the tokens do not form one, it goes back to the position where
the trial began and refuses the token there. -/
def scalarLiteral : Program ScalarLiteral := do
  let start ← perform .checkpoint
  let opening ← peek
  match ← scalarTrial with
  | some literal => return literal
  | none =>
    let _ ← perform (.rewind start)
    throw (.unclosedScalar opening.span)

/-! ## Parameters -/

/-- Reads a parameter in parentheses, which has a type. -/
def typedParameter : Program Parameter := do
  let start ← expect (.symbol .lParen)
  match ← peekKind with
  | .ident =>
    let name ← advance
    let _ ← expect (.symbol .colon)
    let type ← dataType
    let _ ← expect (.symbol .rParen)
    let span ← spanFrom start.span
    return .rack name.lexeme (some type) span
  | .symbol .less | .symbol .leftArrow =>
    let literal ← scalarLiteral
    let _ ← expect (.symbol .colon)
    let type ← dataType
    let _ ← expect (.symbol .rParen)
    let span ← spanFrom start.span
    return .scalar literal (some type) span
  | _ => unexpected ["identifier", "scalar literal"]

/-- Reads a parameter, if one begins at the index. -/
def parameter? : Program (Option Parameter) := do
  match ← peekKind with
  | .ident =>
    let name ← advance
    return some (.rack name.lexeme none name.span)
  | .symbol .less | .symbol .leftArrow =>
    let literal ← scalarLiteral
    return some (.scalar literal none literal.span)
  | .symbol .lParen =>
    let param ← typedParameter
    return some param
  | _ => return none

/-- Reads parameters, up to the first token that begins none. -/
def parameters : Program (List Parameter) := many parameter?

/-! ## Operands -/

/-- Reads a call. -/
def call : Program Expression := do
  let name ← expect .ident
  let _ ← expect (.symbol .lParen)
  let args ← commaSeparated (.symbol .rParen) expression
  let _ ← expect (.symbol .rParen)
  let span ← spanFrom name.span
  return .call name.lexeme args span

/-- Reads a field of a record expression and its value. -/
def fieldInit : Program FieldInit := do
  let name ← expect .ident
  let _ ← expect (.symbol .define)
  let value ← expression
  let span ← spanFrom name.span
  return .mk name.lexeme value span

/-- Reads a record expression. -/
def recordExpression : Program Expression := do
  let name ← expect .typeIdent
  let _ ← expect (.symbol .lBrace)
  let inits ← commaSeparated (.symbol .rBrace) fieldInit
  let _ ← expect (.symbol .rBrace)
  let span ← spanFrom name.span
  return .record name.lexeme inits span

/-- Reads what stands in parentheses: nothing, an expression, or several with commas between
them. -/
def parenthesized : Program Expression := do
  let start ← expect (.symbol .lParen)
  if ← eat (.symbol .rParen) then
    let span ← spanFrom start.span
    return .unit span
  else
    let first ← expression
    let others ← many (afterComma expression)
    let _ ← expect (.symbol .rParen)
    let span ← spanFrom start.span
    return if others.isEmpty then .paren first span else .tuple (first :: others) span

/-- Reads a number. -/
def numberExpression : Program Expression := do
  let start ← peek
  match ← number? with
  | some n => return .number n start.span
  | none => unexpected ["expression"]

/-- Reads a name, or a call if a parenthesis follows it. -/
def nameOrCall : Program Expression := do
  if ← checkAhead 1 (.symbol .lParen) then call
  else
    let name ← advance
    return .ident name.lexeme name.span

/-- Reads one token that is an expression of its own. -/
def atom (expression : Span → Expression) : Program Expression := do
  let token ← advance
  return expression token.span

/-- Reads an expression that no operator and no suffix belongs to. -/
def primary : Program Expression := do
  match ← peekKind with
  | .ident => nameOrCall
  | .typeIdent => recordExpression
  | .int | .float => numberExpression
  | .keyword .true => atom (.bool true)
  | .keyword .false => atom (.bool false)
  | .symbol .atSign => atom .laneIndex
  | .keyword .lanes => atom .lanes
  | .symbol .lParen => parenthesized
  | .symbol .less | .symbol .leftArrow =>
    let literal ← scalarLiteral
    return .scalar literal
  | _ => unexpected ["expression"]

/-- Reads a suffix, if one stands at the index. -/
def suffix? : Program (Option Suffix) := do
  match ← peekKind with
  | .symbol .dot =>
    let _ ← advance
    let name ← expect .ident
    return some (.field name.lexeme name.span)
  | .symbol .shuffle =>
    let _ ← advance
    let _ ← expect (.symbol .lBracket)
    let indices ← commaSeparated (.symbol .rBracket) intLiteral
    let last ← expect (.symbol .rBracket)
    return some (.shuffle indices last.span)
  | .symbol (.reduce op) =>
    let last ← advance
    return some (.reduce op last.span)
  | .symbol (.scan op) =>
    let last ← advance
    return some (.scan op last.span)
  | _ => return none

/-- Reads a primary and the suffixes behind it. -/
def postfixed : Program Expression := do
  let base ← primary
  let suffixes ← many suffix?
  return suffixes.foldl Suffix.attach base

/-- Reads a lambda. -/
def lambda : Program Expression := do
  let start ← expect (.keyword .funKw)
  let params ← parameters
  if params.isEmpty then unexpected ["parameter"]
  else
    let _ ← expect (.symbol .arrow)
    let body ← expression
    let span ← spanFrom start.span
    return .lambda params body span

/-- Reads the body of a let-in that began at `start`. -/
def letBody (start : Span) (name : String) (value : Expression) : Program Expression := do
  let body ← expression
  let span ← spanFrom start
  return .letIn name value body span

/-- Reads a let-in. -/
def letIn : Program Expression := do
  let start ← expect (.keyword .letKw)
  let name ← expect .ident
  let _ ← expect (.symbol .equal)
  let value ← expression
  let _ ← expect (.keyword .inKw)
  letBody start.span name.lexeme value

/-- Reads a unary operator, if one stands at the index. -/
def unaryOperator? : Program (Option (UnaryOp × Span)) := do
  match (← peekKind).unaryOp? with
  | none => return none
  | some op =>
    let token ← advance
    return some (op, token.span)

/-- Reads an operand without the unary operators in front of it. -/
def bareOperand (operands : Operands) : Program Expression := do
  match ← peekKind, operands with
  | .keyword .funKw, .full => lambda
  | .keyword .letKw, .full => letIn
  | _, _ => postfixed

/-- Reads an operand. -/
def operand (operands : Operands) : Program Expression :=
  prefixed unaryOperator? (bareOperand operands) applyUnary

/-! ## Chains of operands -/

/-- Splits the token behind an operand, if it can be split. -/
def splitBehind : Program Unit := do
  match ← peekKind with
  | .int | .float =>
    let _ ← perform .splitSign
    return ()
  | .symbol .leftArrow =>
    let _ ← perform .splitArrow
    return ()
  | _ => return ()

/-- Reads a binary operator that binds at least as tightly as `least`, if one stands at the index
behind an operand, and answers how tightly it does.  A token that binds should stand for an
operator. -/
def operatorFrom? (least : Nat) : Program (Option (BinaryOp × Nat)) := do
  splitBehind
  let kind ← peekKind
  match kind.precedence? with
  | none => return none
  | some rank =>
    if rank < least then return none
    else
      let token ← advance
      match kind.binaryOp? with
      | some op => return some (op, rank)
      | none => throw (.unresolvedOperator kind.describe token.span)

/-- One pass of the loop of precedence climbing: an operator that binds at least as tightly as
`least`, and a chain of the operators that bind tighter than that one. -/
def climbOnce (operands : Operands) (least : Nat) : Program (Option (BinaryOp × Expression)) := do
  match ← operatorFrom? least with
  | none => return none
  | some (op, rank) =>
    let rhs ← invoke (.chain operands (rank + 1))
    return some (op, rhs)

/-- Reads a chain of operands with the operators that bind at least as tightly as `least`. -/
def chainBody (operands : Operands) (least : Nat) : Program Expression := do
  let first ← operand operands
  let steps ← many (climbOnce operands least)
  return combined first steps

/-! ## Predicates -/

/-- Reads the mention of a tine. -/
def tineRef : Program TineRef := do
  let token ← expect .tineRef
  return ⟨String.ofList (token.lexeme.toList.dropWhile (· == '#')), token.span⟩

/-- Reads a comparison sign or the words of one, if they stand at the index behind an operand. -/
def compareOperator? : Program (Option CompareOp) := do
  let _ ← perform .splitArrow
  match ← peekKind with
  | .keyword .is =>
    let _ ← advance
    if ← eat (.keyword .not) then return some .isNot else return some .is
  | kind =>
    match kind.compareOp? with
    | none => return none
    | some op =>
      let _ ← advance
      return some op

/-- Reads a comparison of two operands.  A truth value alone stands for itself. -/
def comparison : Program Predicate := do
  let lhs ← comparand
  match ← compareOperator? with
  | some op =>
    let rhs ← comparand
    return .compare op lhs rhs (lhs.span.merge rhs.span)
  | none =>
    match lhs with
    | .bool value span => return .const value span
    | _ => unexpected ["comparison operator"]

/-- Reads a predicate in parentheses. -/
def group : Program Predicate := do
  let start ← expect (.symbol .lParen)
  let inner ← predicate
  let _ ← expect (.symbol .rParen)
  let span ← spanFrom start.span
  return .group inner span

/-- Reads an atom. -/
def predicateAtom : Program Predicate := do
  match ← peekKind with
  | .tineRef =>
    let tine ← tineRef
    return .tineTest tine
  | .symbol .lParen => retry comparison group
  | _ => comparison

/-- Reads a sign or a word for "not", if one stands at the index. -/
def notOperator? : Program (Option Span) := do
  match ← peekKind with
  | .symbol .bang | .keyword .not =>
    let token ← advance
    return some token.span
  | _ => return none

/-- Reads a sign or a word for "and", if one stands at the index. -/
def andOperator? : Program (Option Unit) := do
  match ← peekKind with
  | .symbol .ampAmp | .keyword .and =>
    let _ ← advance
    return some ()
  | _ => return none

/-- Reads a sign or a word for "or", if one stands at the index. -/
def orOperator? : Program (Option Unit) := do
  match ← peekKind with
  | .symbol .pipePipe | .keyword .or =>
    let _ ← advance
    return some ()
  | _ => return none

/-- Reads an atom and the negations in front of it. -/
def negation : Program Predicate :=
  prefixed notOperator? predicateAtom applyNot

/-- Reads negations with "and" between them. -/
def conjunction : Program Predicate :=
  leftAssoc andOperator? negation applyAnd

/-- Reads conjunctions with "or" between them. -/
def predicateBody : Program Predicate := leftAssoc orOperator? conjunction applyOr

/-! ## Statements -/

/-- Reads a colon and a type, if a colon stands at the index. -/
def typeAnnotation? : Program (Option DataType) := do
  if ← eat (.symbol .colon) then
    let type ← dataType
    return some type
  else return none

/-- Reads a binding. -/
def letBinding : Program LetBinding := do
  let start ← expect (.keyword .letKw)
  let name ← expect .ident
  let type ← typeAnnotation?
  let _ ← expect (.symbol .equal)
  let value ← expression
  let span ← spanFrom start.span
  return ⟨name.lexeme, type, value, span⟩

/-- Reads what the word `let` begins. -/
def letForm : Program LetForm := do
  let binding ← letBinding
  if binding.type.isSome then return .binding binding
  else if ← eat (.keyword .inKw) then
    let value ← letBody binding.span binding.name binding.value
    return .expression value
  else return .binding binding

/-- Reads an assignment. -/
def assignment : Program Statement := do
  let name ← expect .ident
  let _ ← expect (.symbol .leftArrow)
  let value ← expression
  let span ← spanFrom name.span
  return .assign name.lexeme value span

/-- Reads a pass over a pack. -/
def passOver : Program Statement := do
  let start ← expect (.keyword .overKw)
  let pack ← expression
  let _ ← expect (.symbol .comma)
  let count ← scalarLiteral
  let _ ← expect (.symbol .pipeForward)
  let binding ← expect .ident
  let _ ← expect (.symbol .colon)
  let body ← expression
  let span ← spanFrom start.span
  return .overPack pack count binding.lexeme body span

/-- Reads an expression as a statement. -/
def expressionStatement : Program Statement := do
  let value ← expression
  return .expression value

/-- Reads a statement. -/
def statement : Program Statement := do
  match ← peekKind with
  | .keyword .letKw =>
    match ← letForm with
    | .binding binding => return .letBinding binding
    | .expression value => return .expression value
  | .keyword .overKw => passOver
  | .ident =>
    if ← checkAhead 1 (.symbol .leftArrow) then assignment else expressionStatement
  | _ => expressionStatement

/-! ## Sections of rakes -/

/-- Reads a tine and its guard. -/
def tineDecl : Program TineDecl := do
  let start ← expect (.symbol .pipe)
  let tine ← tineRef
  let _ ← expect (.symbol .define)
  let _ ← expect (.symbol .lParen)
  let guard ← predicate
  let _ ← expect (.symbol .rParen)
  let span ← spanFrom start.span
  return ⟨tine, guard, span⟩

/-- Reads the guard of a through block. -/
def throughGuard : Program ThroughGuard := do
  match ← peekKind with
  | .tineRef =>
    let tine ← tineRef
    return .tine tine
  | .symbol .lParen =>
    let _ ← advance
    let guard ← predicate
    let _ ← expect (.symbol .rParen)
    return .predicate guard
  | _ => unexpected ["tine reference", "`(`"]

/-- Reads a constant. -/
def fallback : Program Fallback := do
  match ← peekKind with
  | .symbol .less | .symbol .leftArrow =>
    let literal ← scalarLiteral
    return .scalar literal
  | .keyword .true =>
    let token ← advance
    return .bool true token.span
  | .keyword .false =>
    let token ← advance
    return .bool false token.span
  | _ =>
    let start ← peek
    match ← number? with
    | some n => return .number n start.span
    | none => unexpected ["scalar literal", "number", "boolean"]

/-- Reads the word `else` and a constant, if the word stands at the index. -/
def fallback? : Program (Option Fallback) := do
  if ← eat (.keyword .elseKw) then
    let value ← fallback
    return some value
  else return none

/-- Reads a binding and what stands behind it, or a value.  A let-in among the bindings is the
value. -/
def setup : Program (List LetBinding × Expression) := do
  if ← check (.keyword .letKw) then
    match ← letForm with
    | .expression value => return ([], value)
    | .binding binding =>
      let (setup, value) ← invoke .throughBody
      return (binding :: setup, value)
  else
    let value ← expression
    return ([], value)

/-- Reads a through block. -/
def throughBlock : Program ThroughBlock := do
  let start ← expect (.keyword .through)
  let guard ← throughGuard
  let fallback ← fallback?
  let _ ← expect (.symbol .colon)
  let (setup, value) ← invoke .throughBody
  let _ ← expect (.symbol .arrow)
  let binding ← expect .ident
  let span ← spanFrom start.span
  return ⟨guard, fallback, setup, value, binding.lexeme, span⟩

/-- Reads the target of an arm. -/
def sweepTarget : Program SweepTarget := do
  if ← check .tineRef then
    let tine ← tineRef
    return .tine tine
  else if ← checkWord "_" then
    let token ← advance
    return .wildcard token.span
  else unexpected ["tine reference", "`_`"]

/-- Reads an arm. -/
def sweepArm : Program SweepArm := do
  let start ← expect (.symbol .pipe)
  let target ← sweepTarget
  let _ ← expect (.symbol .arrow)
  let value ← expression
  let span ← spanFrom start.span
  return ⟨target, value, span⟩

/-- Reads a sweep. -/
def sweepBlock : Program SweepBlock := do
  let start ← expect (.keyword .sweep)
  let _ ← expect (.symbol .colon)
  let arms ← many (whenAt (.symbol .pipe) sweepArm)
  if arms.isEmpty then misplaced .noSweepArm
  else
    let _ ← expect (.symbol .arrow)
    let binding ← expect .ident
    let span ← spanFrom start.span
    return ⟨arms, binding.lexeme, span⟩

/-! ## Definitions -/

/-- Reads the name of a result. -/
def resultName : Program String := do
  let name ← expect .ident
  return name.lexeme

/-- Reads the result of a routine. -/
def resultSpec : Program ResultSpec := do
  if ← check .ident then
    let name ← advance
    return .single name.lexeme none name.span
  else
    let start ← expect (.symbol .lParen)
    if ← check (.symbol .rParen) then misplaced .noResultName
    else if ← checkAhead 1 (.symbol .colon) then
      let name ← expect .ident
      let _ ← expect (.symbol .colon)
      let type ← dataType
      let _ ← expect (.symbol .rParen)
      let span ← spanFrom start.span
      return .single name.lexeme (some type) span
    else
      let first ← resultName
      let others ← many (afterComma resultName)
      let _ ← expect (.symbol .rParen)
      let span ← spanFrom start.span
      return .tuple (first :: others) span

/-- Reads the parameters and the result of a routine. -/
def signature : Program (List Parameter × ResultSpec) := do
  let params ← parameters
  let _ ← expect (.symbol .arrow)
  let result ← resultSpec
  let _ ← expect (.symbol .colon)
  return (params, result)

/-- Reads a field of a record. -/
def fieldDef : Program FieldDef := do
  let name ← expect .ident
  let _ ← expect (.symbol .colon)
  let type ← dataType
  let span ← spanFrom name.span
  return ⟨name.lexeme, type, span⟩

/-- Reads a record. -/
def recordDef : Program RecordDef := do
  let start ← advance
  let name ← expect .typeIdent
  let _ ← expect (.symbol .lBrace)
  let fields ← commaSeparated (.symbol .rBrace) fieldDef
  let _ ← expect (.symbol .rBrace)
  let span ← spanFrom start.span
  return ⟨name.lexeme, fields, span⟩

/-- Reads a name for a type. -/
def typeAlias : Program TypeAlias := do
  let start ← advance
  let name ← expect .typeIdent
  let _ ← expect (.symbol .equal)
  let aliased ← dataType
  let span ← spanFrom start.span
  return ⟨name.lexeme, aliased, span⟩

/-- Tells whether a definition can begin at the index. -/
def checkDefinitionStart : Program Bool := do
  match ← peekKind with
  | .keyword .stack | .keyword .single => checkAhead 1 .typeIdent
  | kind => return kind.opensDefinition

/-- Tells whether the body of a definition ends at the index. -/
def checkDefinitionBoundary : Program Bool := do
  if ← check .eof then return true else checkDefinitionStart

/-- Reads a statement, if the body of the routine goes on at the index. -/
def bodyStatement : Program (Option Statement) := do
  if ← checkDefinitionBoundary then return none
  else
    let s ← statement
    return some s

/-- Reads a routine with a body of statements. -/
def routine : Program Routine := do
  let start ← advance
  let name ← expect .ident
  let (params, result) ← signature
  let body ← many bodyStatement
  let span ← spanFrom start.span
  return ⟨name.lexeme, params, result, body, span⟩

/-- Reads the tines of the rake of the given name. -/
def tines (rake : String) : Program (List TineDecl) := do
  let tines ← many (whenAt (.symbol .pipe) tineDecl)
  if tines.isEmpty then misplaced (.noTine rake)
  else if ← check (.keyword .letKw) then misplaced (.setupBehindTine rake)
  else return tines

/-- Reads the through blocks of the rake of the given name. -/
def throughs (rake : String) : Program (List ThroughBlock) := do
  let throughs ← many (whenAt (.keyword .through) throughBlock)
  if throughs.isEmpty then misplaced (.noThrough rake) else return throughs

/-- Reads the sweep of the rake of the given name. -/
def sweep (rake : String) : Program SweepBlock := do
  match ← peekKind with
  | .keyword .sweep =>
    let block ← sweepBlock
    if ← check (.keyword .sweep) then misplaced (.secondSweep rake) else return block
  | .symbol .pipe => misplaced (.tineBehindThrough rake)
  | _ => misplaced (.noSweep rake)

/-- Reads a rake: bindings, tines, through blocks and one sweep, in this order. -/
def rakeDef : Program RakeDef := do
  let start ← advance
  let name ← expect .ident
  let (params, result) ← signature
  let setup ← many (whenAt (.keyword .letKw) letBinding)
  let tines ← tines name.lexeme
  let throughs ← throughs name.lexeme
  let sweep ← sweep name.lexeme
  let span ← spanFrom start.span
  return ⟨name.lexeme, params, result, setup, tines, throughs, sweep, span⟩

/-- Reads a definition. -/
def definition : Program Definition := do
  match ← peekKind with
  | .keyword .stack =>
    let record ← recordDef
    return .stack record
  | .keyword .single =>
    let record ← recordDef
    return .single record
  | .keyword .type =>
    let body ← typeAlias
    return .type body
  | .keyword .crunch =>
    let routine ← routine
    return .crunch routine
  | .keyword .rake =>
    let rake ← rakeDef
    return .rake rake
  | .keyword .run =>
    let routine ← routine
    return .run routine
  | _ => unexpected ["`stack`", "`single`", "`type`", "`crunch`", "`rake`", "`run`"]

/-! ## Source files -/

/-- Reads a token, unless a definition can begin at the index or the input ends there. -/
def skipOnce : Program (Option Token) := do
  if ← checkDefinitionBoundary then return none
  else
    let token ← advance
    return some token

/-- Goes to the next place where a definition can begin, or to the end of the input. -/
def skip : Program Unit := do
  let _ ← many skipOnce
  return ()

/-- Goes on behind a definition that began at the position `started` and was refused. -/
def recovery (started : Nat) : Program Unit := do
  let position ← perform .checkpoint
  let opens ← checkDefinitionStart
  if position = started ∨ opens = false then
    let _ ← advance
    skip
  else skip

/-- Attempts a definition, unless the input ends at the index, and those behind it. -/
def definitionsBody (mode : ErrorMode) : Program (List Attempt) := do
  let start ← peek
  if start.kind = .eof then return []
  else
    let started ← perform .checkpoint
    match ← caught definition with
    | .ok d =>
      let more ← invoke (.definitions mode)
      return ⟨start, .ok d⟩ :: more
    | .error fault =>
      match mode with
      | .failFast => return [⟨start, .error fault⟩]
      | .collectAll =>
        recovery started
        let more ← invoke (.definitions mode)
        return ⟨start, .error fault⟩ :: more

/-- Reads a source file, and answers the file and the faults. -/
def sourceFile (mode : ErrorMode) : Program (SourceFile × List Fault) := do
  let attempts ← invoke (.definitions mode)
  let last ← peek
  return (⟨attempts.filterMap Attempt.definition?, Span.origin.merge last.span⟩,
    attempts.filterMap Attempt.fault?)

end Program

/-- The text behind the name of a reader. -/
def Procedure.body : {α : Type} → Procedure α → Program α
  | _, chain operands least => Program.chainBody operands least
  | _, predicate => Program.predicateBody
  | _, dataType => Program.dataTypeBody
  | _, throughBody => Program.setup
  | _, definitions mode => Program.definitionsBody mode

end RakeLang
