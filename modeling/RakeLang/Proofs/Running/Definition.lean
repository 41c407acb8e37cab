import RakeLang.Proofs.Rereading.Definition
import RakeLang.Proofs.Running.Expression

/-!
# Runs of predicates and definitions

The texts of the readers of predicates, of statements, of the sections of a rake and of definitions
come to the ends of the readers.

A comparison is tried at a parenthesis before a group is read, at every level of parentheses, so
that the same tokens are read over and over.  But a group is inside the parenthesis that it began
with, so that less is ahead of what it holds, however often that is read.

## Main results

* `RakeLang.predicate_executes` — predicates.
* `RakeLang.statement_executes` — statements.
* `RakeLang.throughBody_executes` — the bodies of through blocks.
* `RakeLang.definition_executes` — definitions.
-/

set_option relaxedAutoImplicit false
set_option autoImplicit false

namespace RakeLang

open Token

variable {n : Nat}

/-! ## Predicates -/

section Predicates

/-- Runs of references to tines. -/
instance : Executes n Program.tineRef Parser.tineRef := by
  unfold Program.tineRef Parser.tineRef; infer_instance

/-- The split of the arrow behind an operand, as an instruction. -/
lemma Parser.modify_splitArrow_bind {α : Type} (p : Parser α) :
    ((modify splitArrow : Parser Unit) >>= fun _ => p) = perform .splitArrow >>= fun _ => p :=
  rfl

/-- Runs of operators of comparisons: an arrow is split before the operator is looked for. -/
instance : Executes n Program.compareOperator? Parser.compareOperator? := by
  unfold Program.compareOperator? Parser.compareOperator?
  rw [Parser.modify_splitArrow_bind]
  refine .behind fun _ => .behind fun kind => ?_
  -- the reader branches on the same kind as its text, so the case that is known there holds here
  split <;> try simp only [*]
  · infer_instance
  · rcases kind.compareOp? with _ | op <;> infer_instance

/-- Runs of comparisons, and of truth values alone. -/
instance comparison_executes : Executes n Program.comparison Parser.comparison := by
  unfold Program.comparison Parser.comparison
  refine .behind fun lhs => .behind fun o => ?_
  rcases o with _ | op
  · rcases lhs <;> infer_instance
  · infer_instance

/-- Runs of negation signs. -/
instance : Executes n Program.notOperator? Parser.notOperator? := by
  unfold Program.notOperator? Parser.notOperator?
  refine .behind fun kind => ?_
  split <;> (try simp only [*]) <;> infer_instance

/-- Runs of signs of conjunctions. -/
instance : Executes n Program.andOperator? Parser.andOperator? := by
  unfold Program.andOperator? Parser.andOperator?
  refine .behind fun kind => ?_
  split <;> (try simp only [*]) <;> infer_instance

/-- Runs of signs of disjunctions. -/
instance : Executes n Program.orOperator? Parser.orOperator? := by
  unfold Program.orOperator? Parser.orOperator?
  refine .behind fun kind => ?_
  split <;> (try simp only [*]) <;> infer_instance

section Inner

variable {inner : Parser Predicate} [Executes n Program.predicate inner]

/-- A predicate in parentheses begins behind the opening one. -/
lemma group_executes : Executes (n + 1) Program.group (Parser.group inner) := by
  unfold Program.group Parser.group
  exact .strict_bind (fun _ => Parser.strict_expect (by simp)) fun _ => inferInstance

/-- An atom.  At a parenthesis a comparison is tried, and where it is refused, the text goes back to
the parenthesis and a group is read. -/
lemma predicateAtom_executes :
    Executes (n + 1) Program.predicateAtom (Parser.predicateAtom inner) where
  executed c hc := by
    unfold Program.predicateAtom Parser.predicateAtom
    refine (Executed.here hc).bind (q := Parser.peekKind) fun kind c₁ h => ?_
    obtain ⟨rfl, rfl⟩ := EStateM.Result.ok.inj h
    split <;> rename_i hkind <;> try simp only [hkind]
    · exact .here hc
    · have hensures := Parser.comparison_ensures (c := c) (by simp [Parser.NoNegation, hkind])
      exact orElseHere_executed (.here hc) hensures.error
        fun c₁ hremaining => group_executes.executed c₁ (hremaining ▸ hc)
    · exact .here hc

/-- A predicate whose groups begin behind a token: atoms, negations, conjunctions and disjunctions
are the layers of it. -/
lemma predicateWith_executes (hinner : ∀ c, inner.Ensures SplitsTo c (Parser.Guard 0)) :
    Executes (n + 1) Program.predicateBody (Parser.predicateWith inner) := by
  have : Executes (n + 1) Program.predicateAtom (Parser.predicateAtom inner) :=
    predicateAtom_executes
  have : Parser.Lowers (Parser.predicateAtom inner) := Parser.lowers_predicateAtom hinner
  have : Executes (n + 1) Program.negation (Parser.negation inner) := prefixed_executes
  have : Parser.Lowers (Parser.negation inner) := .of_ensures (Parser.negation_ensures hinner)
  have : Executes (n + 1) Program.conjunction (Parser.conjunction inner) := leftAssoc_executes
  have : Parser.Lowers (Parser.conjunction inner) :=
    .of_ensures (Parser.conjunction_ensures hinner)
  exact leftAssoc_executes

end Inner

end Predicates

namespace Parser

/-- At the end of the input no predicate begins.

**Proof sketch.** No sign of negation stands at the end of the input, so that the predicate is its
first atom.  The atom is a comparison, which begins with an operand, and `operand_refused` says how
that is refused.  The fault is passed on through every layer unchanged. -/
lemma predicateUpTo_eof (k : Nat) {c : Cursor} (hc : c.peek.kind = .eof) :
    predicateUpTo k c = .error (.unexpected ["expression"] c.peek.found c.peek.span) c := by
  rcases k with _ | k
  · rfl
  have hcomparison : comparison c
      = .error (.unexpected ["expression"] c.peek.found c.peek.span) c :=
    bind_of_error
      (binary_of_error (operand_refused .comparison expression (.inl hc)) Level.arithmetic)
  have hatom : predicateAtom (predicateUpTo k) c
      = .error (.unexpected ["expression"] c.peek.found c.peek.span) c := by
    rw [predicateAtom_eq_comparison _ (by simp [hc]) (by simp [hc]), hcomparison]
  have hnot : many notOperator? c = .ok [] c :=
    bind_eq_ok.2 ⟨none, c, bind_eq_ok.2 ⟨_, c, rfl, by rw [hc]; rfl⟩, rfl⟩
  have hnegation : negation (predicateUpTo k) c
      = .error (.unexpected ["expression"] c.peek.found c.peek.span) c :=
    (bind_of_ok hnot).trans (bind_of_error hatom)
  exact bind_of_error (bind_of_error hnegation)

end Parser

/-- **Predicates.**  What is read over and over, at parentheses in parentheses, has less ahead with
each of them. -/
instance predicate_executes : Executes n Program.predicate Parser.predicate := by
  refine executes_of_bounded Parser.predicateUpTo (F := Parser.predicateWith) (fun _ => rfl) ?_ ?_
  · intro c hc
    have heof := Cursor.peek_kind_of_ahead_nil (Cursor.ahead_eq_nil_of_remaining hc)
    rw [Parser.predicateUpTo_eof 0 heof, Parser.predicateUpTo_eof 1 heof]
  · intro m k hinner
    have : Executes m Program.predicate (Parser.predicateUpTo k) := hinner
    exact .invoke (predicateWith_executes (Parser.predicateUpTo_ensures k))

/-! ## Statements -/

/-- Runs of types behind a colon. -/
instance : Executes n Program.typeAnnotation? Parser.typeAnnotation? := by
  unfold Program.typeAnnotation? Parser.typeAnnotation?; infer_instance

/-- Runs of bindings. -/
instance : Executes n Program.letBinding Parser.letBinding := by
  unfold Program.letBinding Parser.letBinding; infer_instance

/-- Runs of what the word `let` begins. -/
instance : Executes n Program.letForm Parser.letForm := by
  unfold Program.letForm Parser.letForm; infer_instance

/-- Runs of assignments. -/
instance : Executes n Program.assignment Parser.assignment := by
  unfold Program.assignment Parser.assignment; infer_instance

/-- Runs of passes over packs. -/
instance : Executes n Program.passOver Parser.passOver := by
  unfold Program.passOver Parser.passOver; infer_instance

/-- Runs of expressions as statements. -/
instance : Executes n Program.expressionStatement Parser.expressionStatement := by
  unfold Program.expressionStatement Parser.expressionStatement; infer_instance

/-- **Statements**, by the token that they begin with. -/
instance statement_executes : Executes n Program.statement Parser.statement := by
  unfold Program.statement Parser.statement
  refine .behind fun kind => ?_
  split <;> try simp only [*]
  · refine .behind fun form => ?_
    rcases form with binding | value <;> infer_instance
  all_goals infer_instance

/-! ## The sections of rakes -/

/-- Runs of tines. -/
instance : Executes n Program.tineDecl Parser.tineDecl := by
  unfold Program.tineDecl Parser.tineDecl; infer_instance

/-- Runs of guards of through blocks. -/
instance : Executes n Program.throughGuard Parser.throughGuard := by
  unfold Program.throughGuard Parser.throughGuard
  refine .behind fun kind => ?_
  split <;> (try simp only [*]) <;> infer_instance

/-- Runs of constants. -/
instance : Executes n Program.fallback Parser.fallback := by
  unfold Program.fallback Parser.fallback
  refine .behind fun kind => ?_
  split <;> try simp only [*]
  case h_5 =>
    refine .behind fun start => .behind fun o => ?_
    rcases o with _ | v <;> infer_instance
  all_goals infer_instance

/-- Runs of fallbacks. -/
instance : Executes n Program.fallback? Parser.fallback? := by
  unfold Program.fallback? Parser.fallback?; infer_instance

/-- The body of a through block.  Every binding in front of the value takes a token. -/
instance throughBody_executes : Executes n (.invoke .throughBody) Parser.throughBody := by
  refine executes_of_bounded Parser.throughBodyUpTo (F := fun rest => do
    if ← Parser.check (.keyword .letKw) then
      match ← Parser.letForm with
      | .expression value => return ([], value)
      | .binding binding =>
        let (setup, value) ← rest
        return (binding :: setup, value)
    else
      let value ← Parser.expression
      return ([], value)) (fun _ => rfl) ?_ ?_
  · intro c hc
    have heof := Cursor.peek_kind_of_ahead_nil (Cursor.ahead_eq_nil_of_remaining hc)
    rw [Parser.throughBodyUpTo_of_ne 0 (by simp [heof]),
      Parser.throughBodyUpTo_of_ne 1 (by simp [heof])]
  · intro m k hrest
    have := hrest
    refine .invoke ?_
    change Executes (m + 1) Program.setup _
    unfold Program.setup
    refine .behind fun stands => ?_
    split
    · refine .strict_bind Parser.strict_letForm fun form => ?_
      rcases form with binding | value <;> infer_instance
    · infer_instance

/-- Runs of through blocks. -/
instance : Executes n Program.throughBlock Parser.throughBlock := by
  unfold Program.throughBlock Parser.throughBlock; infer_instance

/-- Runs of targets of sweep arms. -/
instance : Executes n Program.sweepTarget Parser.sweepTarget := by
  unfold Program.sweepTarget Parser.sweepTarget; infer_instance

/-- Runs of arms of sweeps. -/
instance : Executes n Program.sweepArm Parser.sweepArm := by
  unfold Program.sweepArm Parser.sweepArm; infer_instance

/-- Runs of sweeps. -/
instance : Executes n Program.sweepBlock Parser.sweepBlock := by
  have : Parser.Rounds (Parser.whenAt (.symbol .pipe) Parser.sweepArm) :=
    Parser.rounds_whenAt Parser.strict_sweepArm (by simp)
  unfold Program.sweepBlock Parser.sweepBlock
  infer_instance

/-! ## Definitions -/

/-- Runs of names of results. -/
instance : Executes n Program.resultName Parser.resultName := by
  unfold Program.resultName Parser.resultName; infer_instance

/-- Runs of results. -/
instance : Executes n Program.resultSpec Parser.resultSpec := by
  unfold Program.resultSpec Parser.resultSpec
  refine .behind fun stands => ?_
  split
  · infer_instance
  refine .behind fun start => .behind fun closes => ?_
  split
  · infer_instance
  refine .behind fun colon => ?_
  split <;> infer_instance

/-- Runs of signatures. -/
instance : Executes n Program.signature Parser.signature := by
  unfold Program.signature Parser.signature; infer_instance

/-- Runs of fields of records. -/
instance : Executes n Program.fieldDef Parser.fieldDef := by
  unfold Program.fieldDef Parser.fieldDef; infer_instance

/-- Runs of records. -/
instance : Executes n Program.recordDef Parser.recordDef := by
  unfold Program.recordDef Parser.recordDef; infer_instance

/-- Runs of aliases of types. -/
instance : Executes n Program.typeAlias Parser.typeAlias := by
  unfold Program.typeAlias Parser.typeAlias; infer_instance

/-! ## The ends of definitions -/

namespace Parser

/-- Tells whether a definition can begin at the cursor. -/
def checkDefinitionStart : Parser Bool := do
  match ← peekKind with
  | .keyword .stack | .keyword .single => checkAhead 1 .typeIdent
  | kind => return kind.opensDefinition

/-- Tells whether the body of a definition ends at the cursor. -/
def checkDefinitionBoundary : Parser Bool := do
  if ← check .eof then return true else checkDefinitionStart

/-- Whether a definition can begin shows at the token at the cursor and at the one behind it. -/
lemma checkDefinitionStart_eq (c : Cursor) :
    checkDefinitionStart c = .ok c.atDefinitionStart c := by
  refine (bind_of_ok (p := peekKind) rfl).trans ?_
  rw [Cursor.atDefinitionStart]
  rcases c.peek.kind with _ | _ | _ | _ | _ | word | sign | _
  case keyword => cases word <;> rfl
  all_goals rfl

/-- A body ends at the end of the input and where a definition can begin. -/
lemma checkDefinitionBoundary_eq (c : Cursor) :
    checkDefinitionBoundary c = .ok c.atDefinitionBoundary c := by
  refine (bind_of_ok (p := check .eof) rfl).trans ?_
  rw [Cursor.atDefinitionBoundary, Cursor.atEnd]
  split
  · rename_i heof
    rw [heof]
    rfl
  · rename_i hne
    rw [checkDefinitionStart_eq, Bool.eq_false_iff.2 hne, Bool.false_or]

/-- A round of a body looks whether the body ends there. -/
lemma bodyStatement_eq : bodyStatement = (do
    if ← checkDefinitionBoundary then return none
    else
      let s ← statement
      return some s) := by
  funext c
  refine .symm ((bind_of_ok (checkDefinitionBoundary_eq c)).trans ?_)
  rw [bodyStatement, map_eq_pure_bind]
  split <;> rfl

end Parser

/-- The check whether a definition begins looks at a token ahead at most. -/
instance : Executes n Program.checkDefinitionStart Parser.checkDefinitionStart := by
  unfold Program.checkDefinitionStart Parser.checkDefinitionStart
  refine .behind fun kind => ?_
  split <;> (try simp only [*]) <;> infer_instance

/-- The check whether a definition begins, or the input ends. -/
instance : Executes n Program.checkDefinitionBoundary Parser.checkDefinitionBoundary := by
  unfold Program.checkDefinitionBoundary Parser.checkDefinitionBoundary; infer_instance

/-- Runs of statements of bodies: where a definition begins, there is none. -/
instance : Executes n Program.bodyStatement Parser.bodyStatement := by
  rw [Parser.bodyStatement_eq]
  unfold Program.bodyStatement
  infer_instance

/-- Runs of routines. -/
instance : Executes n Program.routine Parser.routine := by
  unfold Program.routine Parser.routine; infer_instance

/-! ## Definitions as a whole -/

section Sections

variable {rake : String}

/-- Runs of tines in a row: each takes a token, so that the repetition comes to an end. -/
instance : Executes n (Program.tines rake) (Parser.tines rake) := by
  have : Parser.Rounds (Parser.whenAt (.symbol .pipe) Parser.tineDecl) :=
    Parser.rounds_whenAt Parser.strict_tineDecl (by simp)
  unfold Program.tines Parser.tines
  infer_instance

/-- Runs of through blocks in a row: each takes a token, so that the repetition comes to an end. -/
instance : Executes n (Program.throughs rake) (Parser.throughs rake) := by
  have : Parser.Rounds (Parser.whenAt (.keyword .through) Parser.throughBlock) :=
    Parser.rounds_whenAt Parser.strict_throughBlock (by simp)
  unfold Program.throughs Parser.throughs
  infer_instance

/-- Runs of the sweep of a rake. -/
instance : Executes n (Program.sweep rake) (Parser.sweep rake) := by
  unfold Program.sweep Parser.sweep
  refine .behind fun kind => ?_
  split <;> (try simp only [*]) <;> infer_instance

end Sections

/-- Runs of rakes. -/
instance : Executes n Program.rakeDef Parser.rakeDef := by
  have : Parser.Rounds (Parser.whenAt (.keyword .letKw) Parser.letBinding) :=
    Parser.rounds_whenAt Parser.strict_letBinding (by simp)
  unfold Program.rakeDef Parser.rakeDef
  infer_instance

/-- **Definitions**, by the word that they begin with. -/
instance definition_executes : Executes n Program.definition Parser.definition := by
  unfold Program.definition Parser.definition
  refine .behind fun kind => ?_
  split <;> (try simp only [*]) <;> infer_instance

end RakeLang
