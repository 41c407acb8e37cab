import RakeLang.Proofs.Running.Executes

/-!
# Runs of expressions

The texts of the readers of types, of scalar literals and of expressions come to the ends of the
readers.  Inner expressions and inner types begin behind a token that was read, so that there is
less ahead of them; and so does the chain behind an operator, which is read by precedence climbing
on the side of the text and level by level on the side of the reader (`Parser.climb_eq`).

## Main results

* `RakeLang.dataType_executes` — types.
* `RakeLang.scalarLiteral_executes` — scalar literals.
* `RakeLang.operatorFrom?_executes` — operators: none of them is without a meaning.
* `RakeLang.climb_executes` — chains of operands.
* `RakeLang.expression_executes`, `RakeLang.comparand_executes` — expressions and the operands of
  comparisons.
-/

set_option relaxedAutoImplicit false
set_option autoImplicit false

namespace RakeLang

open Token Parser.Operands

variable {n : Nat}

/-! ## Types -/

section Types

variable {inner : Parser DataType}

/-- Runs of types with a name. -/
instance : Executes n Program.namedType Parser.namedType := by
  unfold Program.namedType Parser.namedType
  refine .behind fun start => ?_
  split
  · infer_instance
  · rcases LaneType.ofWord? start.lexeme with _ | lane <;> infer_instance

/-- Runs of types of records. -/
instance : Executes n Program.recordType Parser.recordType := by
  unfold Program.recordType Parser.recordType; infer_instance

/-- A list of types: the types in it begin behind the parenthesis. -/
lemma listedType_executes [Executes n Program.dataType inner] [Parser.Lowers inner] :
    Executes (n + 1) Program.listedType (Parser.listedType inner) := by
  unfold Program.listedType Parser.listedType
  exact .strict_bind (fun _ => Parser.strict_expect (by simp)) fun _ => inferInstance

/-- **Types.** The bound that the reader takes from what remains cuts no type short.

**Proof sketch.** Induction on what remains.  Where nothing does, the reader refuses the token at
the cursor, as the text does; elsewhere the types in a list begin behind a parenthesis, with less
ahead of them. -/
instance dataType_executes : Executes n Program.dataType Parser.dataType := by
  refine executes_of_bounded Parser.dataTypeUpTo (F := fun inner => do
    match ← Parser.peekKind with
    | .ident => Parser.namedType
    | .typeIdent => Parser.recordType
    | .symbol .lParen => Parser.listedType inner
    | _ => Parser.unexpected ["type"]) (fun _ => rfl) ?_ ?_
  · intro c hc
    have heof := Cursor.peek_kind_of_ahead_nil (Cursor.ahead_eq_nil_of_remaining hc)
    refine .symm ((Parser.bind_of_ok (p := Parser.peekKind) rfl).trans ?_)
    rw [heof]
    rfl
  · intro m k hinner
    have : Executes m Program.dataType (Parser.dataTypeUpTo k) := hinner
    have : Parser.Lowers (Parser.dataTypeUpTo k) :=
      .of_ensures (R := Eq) (Parser.dataTypeUpTo_ensures k)
    have : Executes (m + 1) Program.listedType (Parser.listedType (Parser.dataTypeUpTo k)) :=
      listedType_executes
    refine .invoke ?_
    change Executes (m + 1) Program.dataTypeBody _
    unfold Program.dataTypeBody
    refine .behind fun kind => ?_
    -- the reader branches on the same kind as its text, so the case that is known there holds here
    split <;> (try simp only [*]) <;> infer_instance

end Types

/-! ## Numbers -/

/-- Runs of integer literals. -/
instance : Executes n Program.intLiteral Parser.intLiteral := by
  unfold Program.intLiteral Parser.intLiteral
  refine .behind fun token => ?_
  rcases Numeral.readInt? token.lexeme with _ | v <;> infer_instance

/-- Runs of float literals. -/
instance : Executes n Program.floatLiteral Parser.floatLiteral := by
  unfold Program.floatLiteral Parser.floatLiteral
  refine .behind fun token => ?_
  rcases Numeral.readFloat? token.lexeme with _ | v <;> infer_instance

/-- Runs of numbers. -/
instance : Executes n Program.number? Parser.number? := by
  unfold Program.number? Parser.number?
  refine .behind fun kind => ?_
  split <;> (try simp only [*]) <;> infer_instance

/-- Runs of opposites of numbers: where one does not fit, both sides refuse it at the token in
front. -/
instance (v : Number) : Executes n (Program.negated v) (Parser.negated v) := by
  unfold Program.negated
  rcases h : v.negate? with _ | w
  · have hreader : Parser.negated v = (Parser.perform .previousSpan >>= fun span : Span =>
        (throw (.numeral ("-" ++ v.render) span) : Parser Number)) := by
      funext c
      simp only [Parser.negated, h]
      rfl
    rw [hreader]
    infer_instance
  · have hreader : Parser.negated v = pure w := by
      funext c
      simp only [Parser.negated, h]
      rfl
    rw [hreader]
    infer_instance

/-- Runs of numbers behind a minus sign. -/
instance : Executes n Program.negatedNumber? Parser.negatedNumber? := by
  unfold Program.negatedNumber? Parser.negatedNumber?
  refine .behind fun o => ?_
  rcases o with _ | v <;> infer_instance

/-! ## Scalar literals -/

/-- Runs of fields on the path of a scalar. -/
instance : Executes n Program.pathField Parser.pathField := by
  unfold Program.pathField Parser.pathField; infer_instance

/-- Runs of the values of scalar literals. -/
instance : Executes n Program.scalarValue? Parser.scalarValue? := by
  unfold Program.scalarValue? Parser.scalarValue?
  refine .behind fun kind => ?_
  split <;> (try simp only [*]) <;> infer_instance

/-- Runs of scalar literals up to their values. -/
instance : Executes n Program.openedScalar? Parser.openedScalar? := by
  unfold Program.openedScalar? Parser.openedScalar?
  refine .behind fun kind => ?_
  split <;> (try simp only [*]) <;> infer_instance

/-- Runs of trials of scalar literals. -/
instance : Executes n Program.scalarTrial Parser.scalarTrial := by
  unfold Program.scalarTrial Parser.scalarTrial
  refine .behind fun start => .behind fun o => ?_
  rcases o with _ | v <;> infer_instance

/-- **Scalar literals.**  Where the trial finds none, the text goes back to the position where it
began, which lies in the buffer.

**Proof sketch.** The trial runs as the reader's does.  Where it finds nothing, it has split nothing
and read some tokens, so that the position where it began lies in the buffer and the text can go
back to it. -/
instance scalarLiteral_executes : Executes n Program.scalarLiteral Parser.scalarLiteral := by
  refine ⟨fun c hc => ?_⟩
  have hstart : (Program.perform .checkpoint).Run c.machine [.checkpoint] (.ok c.position)
      c.machine := .perform rfl
  have hopening : Program.peek.Run c.machine [.lookahead 0] (.ok c.peek) c.machine :=
    .perform (c.execute_machine (.lookahead 0) nofun)
  have htrial := (inferInstance : Executes n Program.scalarTrial Parser.scalarTrial).executed c hc
  rcases hq : Parser.scalarTrial c with ⟨_ | l, c₁⟩ | ⟨fault, c₁⟩
  · obtain ⟨⟨is, hrun⟩, -⟩ := htrial.runs_ok hq
    obtain ⟨⟨ts, hread⟩, -⟩ := Parser.seek_of_scalarTrial (R := SplitsTo) hq
    have hrewind : (Program.perform (.rewind c.position)).Run c₁.machine [.rewind c.position]
        (.ok ()) (c₁.seek c.position).machine := .perform (execute_rewind hread)
    exact .of_error (by rw [Parser.scalarLiteral, hq])
      ⟨_, hstart.bind (hopening.bind (hrun.bind (hrewind.bind (.throw _ _))))⟩
      (remaining_seek hread).le rfl
  · obtain ⟨⟨is, hrun⟩, hle⟩ := htrial.runs_ok hq
    exact .of_ok (by rw [Parser.scalarLiteral, hq])
      ⟨_, hstart.bind (hopening.bind (hrun.bind (.pure l _)))⟩ hle
  · obtain ⟨⟨is, hrun⟩, hle, hfault⟩ := htrial.runs_error hq
    exact .of_error (by rw [Parser.scalarLiteral, hq])
      ⟨_, hstart.bind (hopening.bind hrun.refused)⟩ hle hfault

/-! ## Parameters -/

/-- Runs of parameters with a type. -/
instance : Executes n Program.typedParameter Parser.typedParameter := by
  unfold Program.typedParameter Parser.typedParameter
  refine .behind fun start => .behind fun kind => ?_
  split <;> (try simp only [*]) <;> infer_instance

/-- Runs of parameters. -/
instance : Executes n Program.parameter? Parser.parameter? := by
  unfold Program.parameter? Parser.parameter?
  refine .behind fun kind => ?_
  split <;> (try simp only [*]) <;> infer_instance

/-- Runs of parameters in a row: each takes a token, so that the repetition comes to an end. -/
instance : Executes n Program.parameters Parser.parameters :=
  inferInstanceAs (Executes n (.many Program.parameter?) (Parser.many Parser.parameter?))

/-! ## Operands -/

/-- Runs of numbers as expressions. -/
instance : Executes n Program.numberExpression Parser.numberExpression := by
  unfold Program.numberExpression Parser.numberExpression
  refine .behind fun start => .behind fun o => ?_
  rcases o with _ | v <;> infer_instance

/-- Runs of words that are expressions by themselves. -/
instance (e : Span → Expression) : Executes n (Program.atom e) (Parser.atom e) := by
  unfold Program.atom Parser.atom; infer_instance

/-- Runs of suffixes. -/
instance : Executes n Program.suffix? Parser.suffix? := by
  unfold Program.suffix? Parser.suffix?
  refine .behind fun kind => ?_
  split <;> (try simp only [*]) <;> infer_instance

/-- Runs of unary operators. -/
instance : Executes n Program.unaryOperator? Parser.unaryOperator? := by
  unfold Program.unaryOperator? Parser.unaryOperator?
  refine .behind fun kind => ?_
  rcases kind.unaryOp? with _ | op <;> infer_instance

section Operands

variable {inner : Parser Expression} [Executes n Program.expression inner]

/-- Runs of fields of record expressions. -/
instance : Executes n Program.fieldInit (Parser.fieldInit inner) := by
  unfold Program.fieldInit Parser.fieldInit; infer_instance

/-- A lambda: its body begins behind the word at its head. -/
lemma lambda_executes : Executes (n + 1) Program.lambda (Parser.lambda inner) := by
  unfold Program.lambda Parser.lambda
  exact .strict_bind (fun _ => Parser.strict_expect (by simp)) fun _ => inferInstance

/-- Runs of the bodies of let-ins. -/
instance (start : Span) (name : String) (value : Expression) :
    Executes n (Program.letBody start name value) (Parser.letBody inner start name value) := by
  unfold Program.letBody Parser.letBody; infer_instance

/-- A let-in: its value begins behind the word at its head. -/
lemma letIn_executes : Executes (n + 1) Program.letIn (Parser.letIn inner) := by
  unfold Program.letIn Parser.letIn
  exact .strict_bind (fun _ => Parser.strict_expect (by simp)) fun _ => inferInstance

variable [Parser.Lowers inner]

/-- A call: its arguments begin behind its name. -/
lemma call_executes : Executes (n + 1) Program.call (Parser.call inner) := by
  unfold Program.call Parser.call
  exact .strict_bind (fun _ => Parser.strict_expect (by simp)) fun _ => inferInstance

/-- A record expression: its fields begin behind its name. -/
lemma recordExpression_executes :
    Executes (n + 1) Program.recordExpression (Parser.recordExpression inner) := by
  have : Parser.Lowers (Parser.fieldInit inner) := by unfold Parser.fieldInit; infer_instance
  unfold Program.recordExpression Parser.recordExpression
  exact .strict_bind (fun _ => Parser.strict_expect (by simp)) fun _ => inferInstance

/-- What stands in parentheses begins behind the opening one. -/
lemma parenthesized_executes :
    Executes (n + 1) Program.parenthesized (Parser.parenthesized inner) := by
  unfold Program.parenthesized Parser.parenthesized
  exact .strict_bind (fun _ => Parser.strict_expect (by simp)) fun _ => inferInstance

/-- A name, or a call. -/
lemma nameOrCall_executes : Executes (n + 1) Program.nameOrCall (Parser.nameOrCall inner) := by
  have : Executes (n + 1) Program.call (Parser.call inner) := call_executes
  unfold Program.nameOrCall Parser.nameOrCall
  infer_instance

/-- A primary expression, by what it begins with. -/
lemma primary_executes : Executes (n + 1) Program.primary (Parser.primary inner) := by
  have : Executes (n + 1) Program.nameOrCall (Parser.nameOrCall inner) := nameOrCall_executes
  have : Executes (n + 1) Program.recordExpression (Parser.recordExpression inner) :=
    recordExpression_executes
  have : Executes (n + 1) Program.parenthesized (Parser.parenthesized inner) :=
    parenthesized_executes
  unfold Program.primary Parser.primary
  refine .behind fun kind => ?_
  split <;> (try simp only [*]) <;> infer_instance

/-- A primary expression and its suffixes. -/
lemma postfixed_executes : Executes (n + 1) Program.postfixed (Parser.postfixed inner) := by
  have : Executes (n + 1) Program.primary (Parser.primary inner) := primary_executes
  unfold Program.postfixed Parser.postfixed
  infer_instance

/-- An operand, by what it begins with, and the unary operators in front of it. -/
lemma operand_executes (operands : Parser.Operands) :
    Executes (n + 1) (Program.operand operands) (Parser.operand operands inner) := by
  have : Executes (n + 1) Program.lambda (Parser.lambda inner) := lambda_executes
  have : Executes (n + 1) Program.letIn (Parser.letIn inner) := letIn_executes
  have : Executes (n + 1) Program.postfixed (Parser.postfixed inner) := postfixed_executes
  have : Executes (n + 1) (Program.bareOperand operands) (Parser.bareOperand operands inner) := by
    unfold Program.bareOperand Parser.bareOperand
    refine .behind fun kind => ?_
    split <;> try simp only [*]
  unfold Program.operand Parser.operand
  infer_instance

end Operands

/-! ## Chains of operands -/

/-- Splits the token behind an operand, by instructions. -/
def Parser.splitBehind : Parser Unit := do
  match ← peekKind with
  | .int | .float =>
    let _ ← perform .splitSign
    return ()
  | .symbol .leftArrow =>
    let _ ← perform .splitArrow
    return ()
  | _ => return ()

/-- Behind an operand a split is looked for where the token can be split.

**Proof sketch.** Only a number and an arrow can be split, so that the kind of the token tells
which of the two splits to try. -/
lemma modify_splitInfix_eq : (modify Cursor.splitInfix : Parser Unit) = Parser.splitBehind := by
  have hnumber {c : Cursor} (h : c.peek.kind ≠ .symbol .leftArrow) :
      c.splitInfix = c.splitSign?.getD c := by
    rw [Cursor.splitInfix, Cursor.splitArrow?_eq_none h, Option.or_none]
  have harrow {c : Cursor} (h : c.peek.kind.isNumber = false) :
      c.splitInfix = c.splitArrow?.getD c := by
    rw [Cursor.splitInfix, Cursor.splitSign?_eq_none (by simp [isSignedNumber, h]), Option.none_or]
  funext c
  refine .symm ((Parser.bind_of_ok (p := Parser.peekKind) rfl).trans ?_)
  change _ = EStateM.Result.ok () c.splitInfix
  by_cases hint : c.peek.kind = .int
  · rw [hnumber (by simp [hint]), hint]
    rfl
  by_cases hfloat : c.peek.kind = .float
  · rw [hnumber (by simp [hfloat]), hfloat]
    rfl
  have hnot : c.peek.kind.isNumber = false := by
    unfold Kind.isNumber
    split <;> first | rfl | contradiction
  rw [harrow hnot]
  by_cases hleft : c.peek.kind = .symbol .leftArrow
  · rw [hleft]
    rfl
  · rw [Cursor.splitArrow?_eq_none hleft]
    generalize c.peek.kind = kind at hint hfloat hleft
    split
    · exact absurd rfl hint
    · exact absurd rfl hfloat
    · exact absurd rfl hleft
    · rfl

/-- The split of the token behind an operand. -/
lemma splitBehind_executes :
    Executes n Program.splitBehind (modify Cursor.splitInfix : Parser Unit) := by
  rw [modify_splitInfix_eq]
  unfold Program.splitBehind Parser.splitBehind
  refine .behind fun kind => ?_
  split <;> (try simp only [*]) <;> infer_instance

/-- **Every token that binds stands for an operator**, so that the text meets no internal fault. -/
instance operatorFrom?_executes (least : Nat) :
    Executes n (Program.operatorFrom? least) (Parser.operatorFrom? least) := by
  have : Executes n Program.splitBehind (modify Cursor.splitInfix : Parser Unit) :=
    splitBehind_executes
  unfold Program.operatorFrom? Parser.operatorFrom?
  refine .behind fun _ => .behind fun kind => ?_
  rw [Kind.precedence?_eq]
  rcases kind.binaryOp? with _ | op
  · exact inferInstanceAs (Executes n (pure none) (pure none))
  · simp only [Option.map_some]
    infer_instance

section Chains

variable {m : Nat} {operands : Parser.Operands} {inner : Parser Expression} [Parser.Lowers inner]

/-- One pass of the loop of precedence climbing: the chain behind an operator begins behind a token
that was read.

**Proof sketch.** Without an operator the pass is over.  Behind an operator less is ahead, since its
token was read, and the chain there is one of those that are known to run. -/
lemma climbOnce_executes {operand : Parser Expression} (least : Nat)
    (hchain : ∀ least, Executes n (.invoke (.chain operands least)) (Parser.climb operand least)) :
    Executes (n + 1) (Program.climbOnce operands least) (Parser.climbOnce operand least) where
  executed c hc := by
    refine (Executed.here hc).bind (q := Parser.operatorFrom? least) fun o c₁ ho => ?_
    rcases o with _ | ⟨op, rank⟩
    · exact .here (Nat.lt_succ_self _)
    · have hlt := Parser.operatorFrom?_some_lt ho
      have := hchain (rank + 1)
      have hrhs : Executes n (.invoke (.chain operands (rank + 1)) >>= fun rhs =>
            (pure (some (op, rhs)) : Program (Option (BinaryOp × Expression))))
          (Parser.climb operand (rank + 1) >>= fun rhs => pure (some (op, rhs))) := inferInstance
      exact hrhs.executed c₁ (by omega)

/-- **A chain of operands** is read by precedence climbing.

**Proof sketch.** Induction on what remains.  The chain is an operand and the loop behind it
(`Parser.climb_eq`); behind the operator of a pass there is less ahead. -/
theorem climb_executes [Executes m Program.expression inner]
    [hoperand : Parser.Lowers (Parser.operand operands inner)] (hn : n ≤ m + 1) :
    ∀ least, Executes n (.invoke (.chain operands least))
      (Parser.climb (Parser.operand operands inner) least) := by
  induction n with
  | zero => exact fun least => .zero _ _
  | succ n ih =>
    intro least
    have : Executes (n + 1) (Program.operand operands) (Parser.operand operands inner) :=
      (operand_executes operands).mono hn
    have : Executes (n + 1) (Program.climbOnce operands least)
        (Parser.climbOnce (Parser.operand operands inner) least) :=
      climbOnce_executes least (ih (by omega))
    rw [Parser.climb_eq]
    refine .invoke ?_
    change Executes (n + 1) (Program.chainBody operands least) _
    unfold Program.chainBody
    infer_instance

end Chains

/-- **Expressions.** The bound that the reader takes from what remains cuts no expression short. -/
instance expression_executes : Executes n Program.expression Parser.expression := by
  refine executes_of_bounded Parser.expressionUpTo (F := Parser.expressionWith) (fun _ => rfl) ?_ ?_
  · intro c hc
    exact (Parser.expressionUpTo_eof 1
      (Cursor.peek_kind_of_ahead_nil (Cursor.ahead_eq_nil_of_remaining hc))).symm
  · intro m k hinner
    have : Executes m Program.expression (Parser.expressionUpTo k) := hinner
    have : Parser.Lowers (Parser.operand .full (Parser.expressionUpTo k)) :=
      .of_ensures (Parser.operand_ensures (Parser.expressionUpTo_ensures k))
    have hchain : Executes (m + 1) Program.expression
        (Parser.climb (Parser.operand .full (Parser.expressionUpTo k)) 1) := climb_executes le_rfl 1
    rwa [Parser.climb_eq_binary _ (by decide)] at hchain

/-- **Operands of comparisons.** -/
instance comparand_executes : Executes n Program.comparand Parser.comparand := by
  have : Parser.Lowers (Parser.operand .comparison Parser.expression) :=
    .of_ensures (Parser.operand_ensures Parser.expression_places)
  have hchain : Executes n Program.comparand
      (Parser.climb (Parser.operand .comparison Parser.expression) 5) :=
    climb_executes (Nat.le_succ n) 5
  rwa [Parser.climb_eq_binary _ (by decide)] at hchain

end RakeLang
