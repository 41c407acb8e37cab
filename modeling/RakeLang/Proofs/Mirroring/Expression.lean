import RakeLang.Proofs.Mirroring.Parameter
import RakeLang.Proofs.Settling.Expression

/-!
# Expressions mirror each other

Behind an operand both sides split the token at the cursor, and the splits agree.  So the chains of
operands are the same on both sides, and no operand begins with a word that opens a definition.

## Main definitions

* `RakeLang.Parser.InnerMirrors` — parsers of inner expressions that mirror each other.

## Main results

* `RakeLang.Parser.expression_mirrors`, `RakeLang.Parser.comparand_mirrors` — expressions and the
  operands of comparisons are read alike.
-/

set_option relaxedAutoImplicit false
set_option autoImplicit false

namespace RakeLang.Parser

open Token

variable {M : Mirror} {c d : Cursor} {inner inner' : Parser Expression}

/-- The parsers of inner expressions mirror each other. -/
def InnerMirrors (M : Mirror) (inner inner' : Parser Expression) : Prop :=
  ∀ c d, M.Rel c d → Mirrors M inner inner' c d M.Expressions

/-! ## Primary expressions -/

section Primary

variable [Lowers inner] [Lowers inner']

/-- Calls are read alike. -/
lemma call_mirrors (hinner : InnerMirrors M inner inner') (h : M.Rel c d) :
    Mirrors M (call inner) (call inner') c d M.Expressions := by
  unfold call
  refine .expect_bind h (by simp) fun hname hrel => ?_
  refine .expect_bind hrel (by simp) fun _ hrel => ?_
  refine (Mirrors.commaSeparated hrel (by simp) rfl hinner).bind ?_
  rintro args args' c₁ d₁ hargs hrel
  refine .expect_bind hrel (by simp) fun _ hrel => ?_
  refine .spanFrom_bind hrel hname.span fun s s' hs => .pure hrel ⟨?_, hs⟩
  simp only [Mirror.Alike, Expression.mapSpans, hname.lexeme, M.view hs,
    Mirror.Expressions.of_forall₂ hargs]

omit [Lowers inner] [Lowers inner'] in
/-- The fields of record expressions are read alike. -/
lemma fieldInit_mirrors (hinner : InnerMirrors M inner inner') (h : M.Rel c d) :
    Mirrors M (fieldInit inner) (fieldInit inner') c d (M.Alike FieldInit.mapSpans) := by
  unfold fieldInit
  refine .expect_bind h (by simp) fun hname hrel => ?_
  refine .expect_bind hrel (by simp) fun _ hrel => (hinner _ _ hrel).bind ?_
  rintro e e' c₁ d₁ he hrel
  refine .spanFrom_bind hrel hname.span fun s s' hs => .pure hrel ?_
  simp only [Mirror.Alike, FieldInit.mapSpans, hname.lexeme, M.view hs]
  rw [he.1]

/-- Record expressions are read alike. -/
lemma recordExpression_mirrors (hinner : InnerMirrors M inner inner') (h : M.Rel c d) :
    Mirrors M (recordExpression inner) (recordExpression inner') c d M.Expressions := by
  have : Lowers (fieldInit inner) := by unfold fieldInit; infer_instance
  have : Lowers (fieldInit inner') := by unfold fieldInit; infer_instance
  unfold recordExpression
  refine .expect_bind h (by simp) fun hname hrel => ?_
  refine .expect_bind hrel (by simp) fun _ hrel => ?_
  refine (Mirrors.commaSeparated hrel (by simp) rfl fun _ _ h => fieldInit_mirrors hinner h).bind ?_
  rintro inits inits' c₁ d₁ hinits hrel
  refine .expect_bind hrel (by simp) fun _ hrel => ?_
  refine .spanFrom_bind hrel hname.span fun s s' hs => .pure hrel ⟨?_, hs⟩
  simp only [Mirror.Alike, Expression.mapSpans, hname.lexeme, M.view hs,
    Mirror.Alike.of_forall₂ hinits]

/-- What stands in parentheses is read alike: the unit, an expression or a tuple.

**Proof sketch.** A closing parenthesis behind the opening one makes the unit on both sides, and no
item behind the first one makes an expression in parentheses. -/
lemma parenthesized_mirrors (hinner : InnerMirrors M inner inner') (h : M.Rel c d) :
    Mirrors M (parenthesized inner) (parenthesized inner') c d M.Expressions := by
  unfold parenthesized
  refine .expect_bind h (by simp) fun hstart hrel => ?_
  refine .eat_bind hrel (by simp) rfl (fun hrel => ?_) ?_
  · refine .spanFrom_bind hrel hstart.span fun s s' hs => .pure hrel ⟨?_, hs⟩
    simp only [Mirror.Alike, Expression.mapSpans, M.view hs]
  refine (hinner _ _ hrel).bind ?_
  rintro first first' c₁ d₁ hfirst hrel
  refine (Mirrors.manyAfterComma hrel hinner).bind ?_
  rintro others others' c₂ d₂ hothers hrel
  refine .expect_bind hrel (by simp) fun _ hrel => ?_
  refine .spanFrom_bind hrel hstart.span fun s s' hs => .pure hrel ?_
  cases hothers with
  | nil =>
    refine ⟨?_, hs⟩
    simp only [Mirror.Alike, List.isEmpty_nil, if_true, Expression.mapSpans, M.view hs]
    rw [hfirst.1]
  | cons hsecond hrest =>
    refine ⟨?_, hs⟩
    have hall := Mirror.Expressions.of_forall₂ (.cons hfirst (.cons hsecond hrest))
    simp only [Mirror.Alike, List.isEmpty_cons, Bool.false_eq_true, if_false, Expression.mapSpans,
      M.view hs, hall]

omit [Lowers inner] [Lowers inner'] in
/-- Numbers are read alike as expressions. -/
lemma numberExpression_mirrors (h : M.Rel c d) (hsame : M.Same c d) :
    Mirrors M numberExpression numberExpression c d M.Expressions := by
  unfold numberExpression
  refine .peek_bind ((number?_mirrors h).bind ?_)
  rintro o _ c₁ d₁ rfl hrel
  rcases o with _ | v
  · exact .unexpected hrel
  · refine .pure hrel ⟨?_, hsame.span⟩
    simp only [Mirror.Alike, Expression.mapSpans, M.view hsame.span]

/-- Names are read alike, and so is whether a call begins with them. -/
lemma nameOrCall_mirrors (hinner : InnerMirrors M inner inner') (h : M.Rel c d)
    (hc : c.peek.kind = .ident) (hsame : M.Same c d) :
    Mirrors M (nameOrCall inner) (nameOrCall inner') c d M.Expressions := by
  unfold nameOrCall
  refine .checkAhead_cases h hsame (by simp [hc]) (by simp) rfl fun ahead => ?_
  cases ahead
  · refine .advance_bind h hsame fun hrel => .pure hrel ⟨?_, hsame.span⟩
    simp only [Mirror.Alike, Expression.mapSpans, hsame.lexeme, M.view hsame.span]
  · exact call_mirrors hinner h

omit [Lowers inner] [Lowers inner'] in
/-- Words that are expressions are read alike. -/
lemma atom_mirrors {e : Span → Expression} (h : M.Rel c d) (hsame : M.Same c d)
    (hspan : ∀ s, (e s).span = s) (hmap : ∀ f s, (e s).mapSpans f = e (f s)) :
    Mirrors M (atom e) (atom e) c d M.Expressions := by
  unfold atom
  refine .advance_bind h hsame fun hrel => .pure hrel ⟨?_, ?_⟩
  · simp only [Mirror.Alike, hmap, M.view hsame.span]
  · rw [hspan, hspan]
    exact hsame.span

/-- Primary expressions are read alike.

**Proof sketch.** Both sides have the same kind of token at the cursor, and take the same branch.
At the end of a part neither side finds a primary expression. -/
lemma primary_mirrors (hinner : InnerMirrors M inner inner') (h : M.Rel c d) :
    Mirrors M (primary inner) (primary inner') c d M.Expressions := by
  unfold primary
  refine .kind_cases h (fun _ _ _ hp => nomatch hp) fun hsame => ?_
  split
  case h_1 hc => exact nameOrCall_mirrors hinner h hc hsame
  case h_2 => exact recordExpression_mirrors hinner h
  case h_3 | h_4 => exact numberExpression_mirrors h hsame
  case h_5 | h_6 | h_7 | h_8 =>
    exact atom_mirrors h hsame (fun _ => rfl) fun _ _ => by rw [Expression.mapSpans]
  case h_9 => exact parenthesized_mirrors hinner h
  case h_10 | h_11 =>
    refine (scalarLiteral_mirrors h).bind ?_
    rintro l l' c₁ d₁ hl hrel
    refine .pure hrel ⟨?_, hl.2⟩
    simp only [Mirror.Alike, Expression.mapSpans]
    rw [hl.1]
  case h_12 => exact .unexpected h

/-! ## Suffixes -/

/-- Suffixes that make expressions of expressions that are the same up to spans. -/
def Suffix.Mirrored (M : Mirror) (s s' : Suffix) : Prop :=
  ∀ e e', M.Expressions e e' → M.Expressions (s.attach e) (s'.attach e')

omit [Lowers inner] [Lowers inner'] in
/-- Suffixes are read alike, and make expressions that mirror each other of such.

**Proof sketch.** Where the left input ends, no suffix is read on either side; elsewhere the same
kind of token tells the same suffix. -/
lemma suffix?_mirrors (h : M.Rel c d) :
    Mirrors M suffix? suffix? c d (Option.Rel (Suffix.Mirrored M)) := by
  unfold suffix?
  refine .kind_cases_or h (fun _ => rfl) (fun _ _ _ => rfl) (fun _ => rfl) (fun _ => rfl) .none
    fun hsame => ?_
  split
  case h_1 =>
    refine .advance_bind h hsame fun hrel => ?_
    refine .expect_bind hrel (by simp) fun hname hrel => .pure hrel (.some fun e e' he => ?_)
    have hs := M.merge he.2 hname.span
    refine ⟨?_, hs⟩
    simp only [Mirror.Alike, Suffix.attach, Expression.mapSpans, hname.lexeme, M.view hs]
    rw [he.1]
  case h_2 =>
    refine .advance_bind h hsame fun hrel => .expect_bind hrel (by simp) fun _ hrel => ?_
    refine (Mirrors.commaSeparated hrel (by simp) rfl fun _ _ h => intLiteral_mirrors h).bind ?_
    rintro indices indices' c₁ d₁ hindices hrel
    rw [List.forall₂_eq_eq_eq] at hindices
    refine .expect_bind hrel (by simp) fun hlast hrel => .pure hrel (.some fun e e' he => ?_)
    have hs := M.merge he.2 hlast.span
    refine ⟨?_, hs⟩
    simp only [Mirror.Alike, Suffix.attach, Expression.mapSpans, hindices, M.view hs]
    rw [he.1]
  case h_3 | h_4 =>
    refine .advance_bind h hsame fun hrel => .pure hrel (.some fun e e' he => ?_)
    have hs := M.merge he.2 hsame.span
    refine ⟨?_, hs⟩
    simp only [Mirror.Alike, Suffix.attach, Expression.mapSpans, M.view hs]
    rw [he.1]
  case h_5 => exact .pure h .none

/-- Primary expressions and their suffixes are read alike. -/
lemma postfixed_mirrors (hinner : InnerMirrors M inner inner') (h : M.Rel c d) :
    Mirrors M (postfixed inner) (postfixed inner') c d M.Expressions := by
  unfold postfixed
  refine (primary_mirrors hinner h).bind ?_
  rintro e e' c₁ d₁ he hrel
  refine (Mirrors.many (fun _ _ h => suffix?_mirrors h) hrel).bind ?_
  rintro suffixes suffixes' c₂ d₂ hall hrel
  refine .pure hrel ?_
  exact List.rel_foldl (fun _ _ he _ _ hs => hs _ _ he) he hall

omit [Lowers inner] [Lowers inner'] in
/-- No operand begins at the end of the input. -/
lemma postfixed_of_eof (hc : c.peek.kind = .eof) (e : Expression) (b : Cursor) :
    postfixed inner c ≠ .ok e b := by
  have hprimary : primary inner c
      = .error (.unexpected ["expression"] c.peek.found c.peek.span) c := by
    refine bind_eq_error.2 (.inr ⟨_, c, rfl, ?_⟩)
    rw [hc]
    rfl
  intro hp
  cases (bind_of_error hprimary).symm.trans hp

end Primary

/-! ## Operands -/

section Operands

variable [Lowers inner] [Lowers inner'] {operands : Operands}

omit [Lowers inner] [Lowers inner'] in
/-- Lambdas are read alike. -/
lemma lambda_mirrors (hinner : InnerMirrors M inner inner') (h : M.Rel c d) :
    Mirrors M (lambda inner) (lambda inner') c d M.Expressions := by
  unfold lambda
  refine .expect_bind h (by simp) fun hstart hrel => (parameters_mirrors hrel).bind ?_
  rintro params params' c₁ d₁ hparams hrel
  have hempty : params.isEmpty = params'.isEmpty := by cases hparams <;> rfl
  have hparams := Mirror.Alike.of_forall₂ hparams
  rw [← hempty]
  split
  · exact .unexpected hrel
  · refine .expect_bind hrel (by simp) fun _ hrel => (hinner _ _ hrel).bind ?_
    rintro body body' c₂ d₂ hbody hrel
    refine .spanFrom_bind hrel hstart.span fun s s' hs => .pure hrel ⟨?_, hs⟩
    simp only [Mirror.Alike, Expression.mapSpans, hparams, M.view hs]
    rw [hbody.1]

omit [Lowers inner] [Lowers inner'] in
/-- The body of a let-in behind its value. -/
lemma letBody_mirrors (hinner : InnerMirrors M inner inner') {start start' : Span}
    (hstart : M.Spans start start') {name : String} {value value' : Expression}
    (hvalue : M.Alike Expression.mapSpans value value') (h : M.Rel c d) :
    Mirrors M (letBody inner start name value) (letBody inner' start' name value') c d
      M.Expressions := by
  unfold letBody
  refine (hinner c d h).bind ?_
  rintro body body' c₁ d₁ hbody hrel
  refine .spanFrom_bind hrel hstart fun s s' hs => .pure hrel ⟨?_, hs⟩
  simp only [Mirror.Alike, Expression.mapSpans, M.view hs]
  rw [hvalue, hbody.1]

omit [Lowers inner] [Lowers inner'] in
/-- Let-ins are read alike. -/
lemma letIn_mirrors (hinner : InnerMirrors M inner inner') (h : M.Rel c d) :
    Mirrors M (letIn inner) (letIn inner') c d M.Expressions := by
  unfold letIn
  refine .expect_bind h (by simp) fun hstart hrel => ?_
  refine .expect_bind hrel (by simp) fun hname hrel => ?_
  refine .expect_bind hrel (by simp) fun _ hrel => (hinner _ _ hrel).bind ?_
  rintro value value' c₁ d₁ hvalue hrel
  refine .expect_bind hrel (by simp) fun _ hrel => ?_
  rw [hname.lexeme]
  exact letBody_mirrors hinner hstart.span hvalue.1 hrel

/-- Operands without unary operators are read alike. -/
lemma bareOperand_mirrors (hinner : InnerMirrors M inner inner') (h : M.Rel c d) :
    Mirrors M (bareOperand operands inner) (bareOperand operands inner') c d M.Expressions := by
  unfold bareOperand
  refine .kind_cases h (fun hc e b hp => postfixed_of_eof hc e b hp) fun hsame => ?_
  split
  · exact lambda_mirrors hinner h
  · exact letIn_mirrors hinner h
  · exact postfixed_mirrors hinner h

/-- Operators that are the same up to spans. -/
def UnaryMirrored (M : Mirror) (op op' : UnaryOp × Span) : Prop :=
  op.1 = op'.1 ∧ M.Spans op.2 op'.2

omit [Lowers inner] [Lowers inner'] in
/-- Unary operators are read alike. -/
lemma unaryOperator?_mirrors (h : M.Rel c d) :
    Mirrors M unaryOperator? unaryOperator? c d (Option.Rel (UnaryMirrored M)) := by
  unfold unaryOperator?
  refine .kind_cases_or h (fun _ => rfl) (fun word hword _ => ?_) (fun _ => rfl) (fun _ => rfl)
    .none fun hsame => ?_
  · cases word <;> first | rfl | cases hword
  · split
    · exact .pure h .none
    · exact .advance_bind h hsame fun hrel => .pure hrel (.some ⟨rfl, hsame.span⟩)

/-- Operands are read alike. -/
lemma operand_mirrors (hinner : InnerMirrors M inner inner') (h : M.Rel c d) :
    Mirrors M (operand operands inner) (operand operands inner') c d M.Expressions := by
  refine Mirrors.prefixed h (fun _ _ h => unaryOperator?_mirrors h)
    (fun _ _ h => bareOperand_mirrors hinner h) ?_
  rintro op op' e e' ⟨hop, hspan⟩ he
  have hs := M.merge hspan he.2
  refine ⟨?_, hs⟩
  simp only [Mirror.Alike, applyUnary, Expression.mapSpans, hop, M.view hs]
  rw [he.1]

end Operands

/-! ## Chains of operands -/

section Binary

/-- Binary operators are read alike, behind the same split. -/
lemma binaryOperator?_mirrors {level : Level} (h : M.Rel c d) :
    Mirrors M (binaryOperator? level) (binaryOperator? level) c d Eq := by
  have hrel := M.splitInfix h
  unfold binaryOperator?
  refine .modify_bind (.kind_cases_or hrel (fun _ => rfl) (fun word hword _ => ?_) (fun _ => rfl)
    (fun _ => rfl) rfl fun hsame => ?_)
  · cases word <;> first | rfl | cases hword
  · split
    · exact .pure hrel rfl
    · split
      · exact .advance_bind hrel hsame fun hrel => .pure hrel rfl
      · exact .pure hrel rfl

/-- Chains of operands mirror each other if their operands do.

**Proof sketch.** By induction on the levels.  A chain over one level is read with its operators
alike and its operands by the induction hypothesis, and folding it to the left keeps related spans,
since the span of each node is merged from the spans of its sides. -/
lemma binary_mirrors {operand operand' : Parser Expression} [Lowers operand] [Lowers operand']
    (hoperand : InnerMirrors M operand operand') (levels : List Level) :
    InnerMirrors M (binary operand levels) (binary operand' levels) := by
  induction levels with
  | nil => exact hoperand
  | cons level tighter ih =>
    intro c d h
    have := lowers_binary operand tighter
    have := lowers_binary operand' tighter
    rw [binary, binary]
    refine Mirrors.leftAssoc h (fun _ _ h => binaryOperator?_mirrors h) ih ?_
    rintro a a' op b b' ha hb
    have hs := M.merge ha.2 hb.2
    refine ⟨?_, hs⟩
    simp only [Mirror.Alike, applyBinary, Expression.mapSpans, M.view hs]
    rw [ha.1, hb.1]

end Binary

/-! ## Expressions -/

/-- Expressions with bounds that differ by no more than what the right input is longer. -/
lemma expressionUpTo_mirrors (n k : Nat) (hk : M.total → k = 0) :
    InnerMirrors M (expressionUpTo n) (expressionUpTo (n + k)) := by
  induction n with
  | zero =>
    intro c d h
    refine ⟨nofun, fun htotal fault c' hp => ?_⟩
    rw [hk htotal]
    exact (Mirrors.unexpected (P := M.Expressions) h).error htotal fault c' hp
  | succ n ih =>
    have (n : Nat) : Lowers (operand .full (expressionUpTo n)) :=
      .of_ensures (operand_ensures (expressionUpTo_ensures n))
    rw [Nat.add_right_comm]
    exact binary_mirrors (fun _ _ h => operand_mirrors ih h) Level.all

/-- **Expressions mirror each other.** -/
theorem expression_mirrors : InnerMirrors M expression expression := fun c d h => by
  obtain ⟨k, hremaining, hk⟩ := M.remaining h
  exact (expressionUpTo_mirrors c.remaining k hk c d h).congr rfl (by rw [← hremaining]; rfl)

/-- **The operands of comparisons mirror each other.** -/
theorem comparand_mirrors : InnerMirrors M comparand comparand := by
  have : Lowers (operand .comparison expression) := .of_ensures (operand_ensures expression_places)
  exact binary_mirrors (fun _ _ h => operand_mirrors expression_mirrors h) Level.arithmetic

end RakeLang.Parser
