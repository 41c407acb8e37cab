import RakeLang.Proofs.Reading.Expression
import RakeLang.Proofs.Settling.Parameter

/-!
# Expressions in step

Every expression is read in step: from a cursor before an operand on, the reading goes through the
same modes on both sides, and it stops behind an operand.  Behind an operand both sides split the
token at the cursor before they look for an operator, so that it does not matter whether it was
split already.

## Main definitions

* `RakeLang.Parser.ExpressionInStep` — what an expression leads to.
* `RakeLang.Parser.InStep` — parsers of inner expressions that are read in step.

## Main results

* `RakeLang.Parser.expression_simulates`, `RakeLang.Parser.comparand_simulates` — expressions and
  the operands of comparisons are read in step.
-/

set_option relaxedAutoImplicit false
set_option autoImplicit false

namespace RakeLang

open Token Spelling

/-- A token that is a binary operator leads from behind an operand to before one, and it cannot be
split. -/
lemma Mode.step_binaryOp {kind : Kind} {op : BinaryOp} (h : kind.binaryOp? = some op)
    (depth : Nat) :
    (behind depth).step kind = operand depth ∧ (behind depth).keeps kind = true := by
  unfold Kind.binaryOp? at h
  split at h <;> first | exact ⟨rfl, rfl⟩ | cases h

/-- A token that is a unary operator leaves the mode before an operand. -/
lemma Mode.step_unaryOp {kind : Kind} {op : UnaryOp} (h : kind.unaryOp? = some op)
    (depth : Nat) : (operand depth).step kind = operand depth := by
  unfold Kind.unaryOp? at h
  split at h <;> first | rfl | cases h

/-- A token that a split can take part in is no unary operator but a minus sign, and no suffix. -/
lemma Kind.inSplit_cases {kind : Kind} (h : kind.inSplit = true) :
    kind = .int ∨ kind = .float ∨ kind = .symbol .leftArrow ∨ kind = .symbol .minus
      ∨ kind = .symbol .less := by
  unfold inSplit at h
  split at h
  · simp
  · simp
  · unfold splits at h
    split at h <;> simp_all

namespace Parser

variable {S : Simulation} {σ τ : Mode} {c d : Cursor} {depth : Nat}
  {inner inner' : Parser Expression}

/-- What an expression leads to: alike expressions, and the mode behind an operand. -/
def ExpressionInStep (S : Simulation) (depth : Nat) (e e' : Expression) (τ : Mode) : Prop :=
  Alike S.exact Expression.withoutSpans e e' ∧ τ = .behind depth

/-- Inner expressions are read in step. -/
def InStep (S : Simulation) (inner inner' : Parser Expression) : Prop :=
  ∀ depth c d, S.Rel (.operand depth) c d →
    Simulates S inner inner' c d (ExpressionInStep S depth)

/-! ## Primary expressions -/

section Primary

variable [Lowers inner] [Lowers inner'] {n m : Nat}

/-- Calls are read in step.

**Proof sketch.** The name and the parenthesis are read in step, and the arguments are members of a
list between parentheses, one deeper.  Behind the closing parenthesis both sides are in the mode
behind an operand. -/
lemma call_simulates (hinner : InStep (S.under n m) inner inner')
    (h : (S.under (n + 1) (m + 1)).Rel (.operand depth) c d) :
    Simulates (S.under (n + 1) (m + 1)) (call inner) (call inner') c d
      (ExpressionInStep S depth) := by
  unfold call
  refine .expect_bind_under h (by simp) rfl fun _ hname hrel => ?_
  refine .expect_bind hrel (by simp) rfl fun _ _ hrel => ?_
  refine .listed (R := Alike S.exact Expression.withoutSpans) (M := (· = .operand (depth + 1)))
    (N := (· = .behind (depth + 1))) hrel rfl (by rintro _ rfl; rfl) (by rintro _ rfl; rfl) rfl
    (by simp) (by rintro _ c d rfl h; exact hinner _ c d h) ?_
  intro args args' τ c₁ d₁ hargs hτ _ hrel
  have hstep : τ.step (.symbol .rParen) = .behind depth := by rcases hτ with rfl | rfl <;> rfl
  have hargs := Alike.of_forall₂ hargs
  rw [hstep] at hrel
  refine .spanFrom_bind hrel hname.span fun s s' hs => .pure hrel ⟨⟨?_, fun he => ?_⟩, rfl⟩
  · simp [Expression.withoutSpans, hname.lexeme, hargs.1]
  · rw [hs he, hname.lexeme, hargs.2 he]

omit [Lowers inner'] in
/-- Fields of record expressions are read in step. -/
lemma fieldInit_simulates (hinner : InStep S inner inner') (h : S.Rel (.operand depth) c d) :
    Simulates S (fieldInit inner) (fieldInit inner') c d fun i i' τ =>
      Alike S.exact FieldInit.withoutSpans i i' ∧ τ = .behind depth := by
  unfold fieldInit
  refine .expect_bind h (by simp) rfl fun _ hname hrel => ?_
  refine .expect_bind hrel (by simp) rfl fun _ _ hrel => ?_
  refine (hinner depth _ _ hrel).bind ?_
  rintro e e' _ c₁ d₁ - - ⟨he, rfl⟩ hrel
  refine .spanFrom_bind hrel hname.span fun s s' hs => .pure hrel ⟨⟨?_, fun hexact => ?_⟩, rfl⟩
  · simp [FieldInit.withoutSpans, hname.lexeme, he.1]
  · rw [hs hexact, hname.lexeme, he.2 hexact]

/-- Record expressions are read in step.

**Proof sketch.** As in `call_simulates`, with braces, between which the depth stays the same.
-/
lemma recordExpression_simulates (hinner : InStep (S.under n m) inner inner')
    (h : (S.under (n + 1) (m + 1)).Rel (.operand depth) c d) :
    Simulates (S.under (n + 1) (m + 1)) (recordExpression inner) (recordExpression inner') c d
      (ExpressionInStep S depth) := by
  have : Lowers (fieldInit inner) := by unfold fieldInit; infer_instance
  have : Lowers (fieldInit inner') := by unfold fieldInit; infer_instance
  unfold recordExpression
  refine .expect_bind_under h (by simp) rfl fun _ hname hrel => ?_
  refine .expect_bind hrel (by simp) rfl fun _ _ hrel => ?_
  refine .listed (R := Alike S.exact FieldInit.withoutSpans) (M := (· = .operand depth))
    (N := (· = .behind depth)) hrel rfl (by rintro _ rfl; rfl) (by rintro _ rfl; rfl) rfl
    (by simp) (by rintro _ c d rfl h; exact fieldInit_simulates hinner h) ?_
  intro inits inits' τ c₁ d₁ hinits hτ _ hrel
  have hstep : τ.step (.symbol .rBrace) = .behind depth := by rcases hτ with rfl | rfl <;> rfl
  have hinits := Alike.of_forall₂ hinits
  rw [hstep] at hrel
  refine .spanFrom_bind hrel hname.span fun s s' hs => .pure hrel ⟨⟨?_, fun he => ?_⟩, rfl⟩
  · simp [Expression.withoutSpans, hname.lexeme, hinits.1]
  · rw [hs he, hname.lexeme, hinits.2 he]

/-- The unit, expressions in parentheses and tuples are read in step.

**Proof sketch.** Inside of the parentheses the mode is one deeper; a comma leads back to it, and
the closing parenthesis leads out. -/
lemma parenthesized_simulates (hinner : InStep (S.under n m) inner inner')
    (h : (S.under (n + 1) (m + 1)).Rel (.operand depth) c d) :
    Simulates (S.under (n + 1) (m + 1)) (parenthesized inner) (parenthesized inner') c d
      (ExpressionInStep S depth) := by
  unfold parenthesized
  refine .expect_bind_under h (by simp) rfl fun _ hstart hrel => ?_
  refine .eat_bind hrel (by simp) rfl (fun _ hrel => ?_) fun _ _ => ?_
  · refine .spanFrom_bind hrel hstart.span fun s s' hs => .pure hrel ⟨⟨?_, fun he => ?_⟩, rfl⟩
    · simp [Expression.withoutSpans]
    · rw [hs he]
  refine (hinner _ _ _ hrel).bind ?_
  rintro first first' _ c₁ d₁ - - ⟨hfirst, rfl⟩ hrel
  refine (Simulates.manyAfterComma (R := Alike S.exact Expression.withoutSpans)
    (M := (· = .operand (depth + 1))) (N := (· = .behind (depth + 1))) hrel rfl
    (by rintro _ rfl; rfl) (by rintro _ c d rfl h; exact hinner _ c d h)).bind ?_
  rintro others others' _ c₂ d₂ - - ⟨hothers, rfl⟩ hrel
  refine .expect_bind hrel (by simp) rfl fun _ _ hrel => ?_
  refine .spanFrom_bind hrel hstart.span fun s s' hs => .pure hrel ⟨?_, rfl⟩
  cases hothers with
  | nil => exact ⟨by simp [Expression.withoutSpans, hfirst.1],
      fun he => by rw [hs he, hfirst.2 he]⟩
  | cons hsecond hrest =>
    have hall := Alike.of_forall₂ (.cons hfirst (.cons hsecond hrest))
    exact ⟨by simpa [Expression.withoutSpans] using hall.1,
      fun he => by rw [hs he, hall.2 he]; rfl⟩

/-- Numbers as expressions are read in step. -/
lemma numberExpression_simulates (h : S.Rel (.operand depth) c d) (hsame : S.Same c d) :
    Simulates S numberExpression numberExpression c d (ExpressionInStep S depth) := by
  unfold numberExpression
  refine .peek_bind (.bind_of_lowers (fun o => by cases o <;> infer_instance)
    (number?_simulates (τ := .behind depth) h rfl rfl rfl) ?_)
  rintro o _ τ c₁ d₁ - - ⟨rfl, -, hsome⟩ hrel
  rcases o with _ | v
  · exact .unexpected hrel
  · refine .pure hrel ⟨⟨by simp [Expression.withoutSpans], fun he => ?_⟩, hsome (by simp)⟩
    rw [hsame.span he]

/-- Names and calls are read in step.

**Proof sketch.** Both sides look one token further for a parenthesis, which no split gives or takes
away.  With one they read a call; without one they consume the name. -/
lemma nameOrCall_simulates (hinner : InStep (S.under n m) inner inner')
    (h : (S.under (n + 1) (m + 1)).Rel (.operand depth) c d) (hc : c.peek.kind = .ident)
    (hsame : S.Same c d) :
    Simulates (S.under (n + 1) (m + 1)) (nameOrCall inner) (nameOrCall inner') c d
      (ExpressionInStep S depth) := by
  have hstep : (Mode.operand depth).step c.peek.kind = .behind depth := by rw [hc]; rfl
  unfold nameOrCall
  refine .checkAhead_cases h hsame (by simp [hc]) rfl (by simp)
    (Mode.clear_of_inSplit _ rfl) (fun _ _ => call_simulates hinner h) ?_ fun _ _ => ?_
  · intro _ e b hp
    obtain ⟨name, c₁, h₁, h₂⟩ := bind_eq_ok.1 hp
    obtain ⟨-, rfl, rfl⟩ := expect_eq_ok.1 h₁
    exact (strict_expect (by simp)).bind e b h₂
  · refine .advance_bind h hsame (by simp [hc]) rfl fun hrel => ?_
    refine .pure hrel ⟨⟨?_, fun he => ?_⟩, hstep⟩
    · simp [Expression.withoutSpans, hsame.lexeme]
    · rw [hsame.lexeme, hsame.span he]

omit [Lowers inner] [Lowers inner'] in
/-- Words that are expressions by themselves are read in step. -/
lemma atom_simulates {e : Span → Expression} (h : S.Rel (.operand depth) c d)
    (hsame : S.Same c d) (hc : c.peek.kind ≠ .eof)
    (hstep : (Mode.operand depth).step c.peek.kind = .behind depth)
    (he : ∀ s s', (e s).withoutSpans = (e s').withoutSpans) :
    Simulates S (atom e) (atom e) c d (ExpressionInStep S depth) := by
  unfold atom
  exact .advance_bind h hsame hc rfl fun hrel =>
    .pure hrel ⟨⟨he _ _, fun hexact => by rw [hsame.span hexact]⟩, hstep⟩

/-- Primary expressions are read in step.

**Proof sketch.** A primary expression takes a token, so that the same one stands on both sides, and
its kind tells what is read. -/
lemma primary_simulates (hens : ∀ c, inner.Ensures SplitsTo c Inner)
    (hinner : InStep (S.under n m) inner inner')
    (h : (S.under (n + 1) (m + 1)).Rel (.operand depth) c d) :
    Simulates (S.under (n + 1) (m + 1)) (primary inner) (primary inner') c d
      (ExpressionInStep S depth) := by
  have hstrict : Strict (primary inner) c :=
    .of_ensures (primary_ensures hens c) fun e _ _ he => e.ne_nil_of_placed he.1
  refine .of_strict_of_isBehind h rfl hstrict fun hsame => ?_
  unfold primary
  refine .peekKind_bind ?_
  rw [← hsame.kind]
  split
  case h_1 hc => exact nameOrCall_simulates hinner h hc hsame
  case h_2 => exact recordExpression_simulates hinner h
  case h_3 | h_4 => exact numberExpression_simulates h hsame
  case h_5 hc | h_6 hc | h_7 hc | h_8 hc =>
    exact atom_simulates h hsame (by simp [hc]) (by rw [hc]; rfl)
      (by simp [Expression.withoutSpans])
  case h_9 => exact parenthesized_simulates hinner h
  case h_10 | h_11 =>
    refine (scalarLiteral_simulates (Mode.angles_operand depth) h).bind ?_
    rintro l l' _ c₁ d₁ - - ⟨hl, rfl⟩ hrel
    refine .pure hrel ⟨⟨?_, fun he => ?_⟩, rfl⟩
    · simp [Expression.withoutSpans, hl.1]
    · rw [hl.2 he]
  case h_12 => exact .unexpected h

/-! ## Suffixes -/

/-- Suffixes that make alike expressions of alike ones. -/
def Suffix.InStep (S : Simulation) (s s' : Suffix) : Prop :=
  ∀ e e', Alike S.exact Expression.withoutSpans e e' →
    Alike S.exact Expression.withoutSpans (s.attach e) (s'.attach e')

/-- Every suffix takes a token. -/
instance : Rounds suffix? where
  le := (Lowers.of_ensures suffix?_ensures).le
  some_lt c s b h := by
    obtain ⟨ts, hread, hts, -⟩ := (suffix?_ensures c).ok (some s) b h
    refine hread.remaining_lt ?_
    rintro rfl
    exact s.nil_notMem_spelling hts.1
  at_end c hc := by
    have hkind := Cursor.peek_kind_of_ahead_nil hc
    exact bind_eq_ok.2 ⟨_, c, rfl, by rw [hkind]; rfl⟩

omit [Lowers inner] [Lowers inner'] in
/-- Suffixes are read in step, and so are the places where there is none.

**Proof sketch.** At the same token both sides read the same suffix.  Where the tokens differ, one
of them was split on one side only, and neither piece begins a suffix; and at the end of the right
side the left side reads none that could be left unread. -/
lemma suffix?_simulates (h : S.Rel (.behind depth) c d) :
    Simulates S suffix? suffix? c d fun o o' τ =>
      Option.Rel (Suffix.InStep S) o o' ∧ τ = .behind depth := by
  unfold suffix?
  refine .peekKind_bind ?_
  rcases S.cases h with hsame | hapart | hended
  · rw [← hsame.kind]
    split
    · rename_i hc
      refine .advance_bind h hsame (by simp [hc]) (by rw [hc]; rfl) fun hrel => ?_
      rw [hc] at hrel
      refine .expect_bind hrel (by simp) rfl fun _ hname hrel => ?_
      refine .pure hrel ⟨.some fun e e' he => ⟨?_, fun hexact => ?_⟩, rfl⟩
      · simp [Suffix.attach, Expression.withoutSpans, he.1, hname.lexeme]
      · rw [he.2 hexact, hname.lexeme, hname.span hexact]
    · rename_i hc
      refine .advance_bind h hsame (by simp [hc]) (by rw [hc]; rfl) fun hrel => ?_
      rw [hc] at hrel
      refine .expect_bind hrel (by simp) rfl fun _ _ hrel => ?_
      refine .listed (R := Eq) (M := (· = .operand depth)) (N := (· = .behind depth)) hrel rfl
        (by rintro _ rfl; rfl) (by rintro _ rfl; rfl) rfl (by simp)
        (by rintro _ c d rfl h; exact intLiteral_simulates h rfl) ?_
      intro indices indices' τ c₁ d₁ hindices hτ hlast hrel
      have hstep : τ.step (.symbol .rBracket) = .behind depth := by rcases hτ with rfl | rfl <;> rfl
      rw [List.forall₂_eq_eq_eq] at hindices
      refine .pure hrel ⟨.some fun e e' he => ⟨?_, fun hexact => ?_⟩, hstep⟩
      · simp [Suffix.attach, Expression.withoutSpans, he.1, hindices]
      · rw [he.2 hexact, hindices, hlast.span hexact]
    all_goals
      rename_i hc
      first
        | refine .advance_bind h hsame (by simp [hc]) (by rw [hc]; rfl) fun hrel =>
            .pure hrel ⟨.some fun e e' he => ⟨?_, fun hexact => ?_⟩, by rw [hc]; rfl⟩
          · simp [Suffix.attach, Expression.withoutSpans, he.1]
          · rw [he.2 hexact, hsame.span hexact]
        | exact .pure h ⟨.none, rfl⟩
  · rcases Kind.inSplit_cases hapart.2.1 with hc | hc | hc | hc | hc <;>
      rcases Kind.inSplit_cases hapart.2.2 with hd | hd | hd | hd | hd <;>
      · rw [hc, hd]
        exact .pure h ⟨.none, rfl⟩
  · rw [hended.kind]
    split
    case h_5 => exact .pure h ⟨.none, rfl⟩
    case h_1 hc | h_2 hc | h_3 hc | h_4 hc =>
      exact .ended hended (strict_advance (by simp [hc])).bind

/-- Primary expressions with their suffixes are read in step. -/
lemma postfixed_simulates (hens : ∀ c, inner.Ensures SplitsTo c Inner)
    (hinner : InStep (S.under n m) inner inner')
    (h : (S.under (n + 1) (m + 1)).Rel (.operand depth) c d) :
    Simulates (S.under (n + 1) (m + 1)) (postfixed inner) (postfixed inner') c d
      (ExpressionInStep S depth) := by
  unfold postfixed
  refine (primary_simulates hens hinner h).bind ?_
  rintro e e' _ c₁ d₁ - - ⟨he, rfl⟩ hrel
  refine (Simulates.many (R := Suffix.InStep (S.under (n + 1) (m + 1))) (M := (· = .behind depth))
    (by rintro _ c d rfl h; exact suffix?_simulates h) hrel rfl).bind ?_
  rintro suffixes suffixes' _ c₂ d₂ - - ⟨hall, rfl⟩ hrel
  refine .pure hrel ⟨?_, rfl⟩
  exact List.rel_foldl (fun _ _ he _ _ hs => hs _ _ he) he hall

end Primary

/-! ## Operands -/

section Operands

variable [Lowers inner] [Lowers inner'] {n m : Nat} {operands : Operands}

omit [Lowers inner'] in
/-- Lambdas are read in step.

**Proof sketch.** The word leads among the parameters, the colon behind them to before an operand,
where the body is read. -/
lemma lambda_simulates (hinner : InStep (S.under n m) inner inner')
    (h : (S.under (n + 1) (m + 1)).Rel (.operand depth) c d) :
    Simulates (S.under (n + 1) (m + 1)) (lambda inner) (lambda inner') c d
      (ExpressionInStep S depth) := by
  unfold lambda
  refine .expect_bind_under h (by simp) rfl fun _ hstart hrel => ?_
  change (S.under n m).Rel (.around (some depth) 0 false) _ _ at hrel
  refine (parameters_simulates hrel).bind ?_
  rintro params params' _ c₁ d₁ - - ⟨hparams, rfl⟩ hrel
  have hempty : params.isEmpty = params'.isEmpty := by cases hparams <;> rfl
  have hparams := Alike.of_forall₂ hparams
  rw [← hempty]
  split
  · exact .unexpected hrel
  · refine .expect_bind hrel (by simp) rfl fun _ _ hrel => ?_
    refine (hinner depth _ _ hrel).bind ?_
    rintro body body' _ c₂ d₂ - - ⟨hbody, rfl⟩ hrel
    refine .spanFrom_bind hrel hstart.span fun s s' hs => .pure hrel ⟨⟨?_, fun he => ?_⟩, rfl⟩
    · simp [Expression.withoutSpans, hparams.1, hbody.1]
    · rw [hs he, hparams.2 he, hbody.2 he]

omit [Lowers inner] [Lowers inner'] in
/-- The body of a let-in behind its value. -/
lemma letBody_simulates (hinner : InStep S inner inner') {start start' : Span}
    (hstart : S.exact → start = start') {name : String} {value value' : Expression}
    (hvalue : Alike S.exact Expression.withoutSpans value value')
    (h : S.Rel (.operand depth) c d) :
    Simulates S (letBody inner start name value) (letBody inner' start' name value') c d
      (ExpressionInStep S depth) := by
  unfold letBody
  refine (hinner depth c d h).bind ?_
  rintro body body' _ c₁ d₁ - - ⟨hbody, rfl⟩ hrel
  refine .spanFrom_bind hrel hstart fun s s' hs => .pure hrel ⟨⟨?_, fun he => ?_⟩, rfl⟩
  · simp [Expression.withoutSpans, hvalue.1, hbody.1]
  · rw [hs he, hvalue.2 he, hbody.2 he]

/-- The body of a let-in takes from what is ahead. -/
instance (start : Span) (name : String) (value : Expression) :
    Lowers (letBody inner start name value) := by unfold letBody; infer_instance

omit [Lowers inner'] in
/-- Let-ins are read in step. -/
lemma letIn_simulates (hinner : InStep (S.under n m) inner inner')
    (h : (S.under (n + 1) (m + 1)).Rel (.operand depth) c d) :
    Simulates (S.under (n + 1) (m + 1)) (letIn inner) (letIn inner') c d
      (ExpressionInStep S depth) := by
  unfold letIn
  refine .expect_bind_under h (by simp) rfl fun _ hstart hrel => ?_
  refine .expect_bind hrel (by simp) rfl fun _ hname hrel => ?_
  refine .expect_bind hrel (by simp) rfl fun _ _ hrel => ?_
  refine (hinner depth _ _ hrel).bind ?_
  rintro value value' _ c₁ d₁ - - ⟨hvalue, rfl⟩ hrel
  refine .expect_bind hrel (by simp) rfl fun _ _ hrel => ?_
  rw [hname.lexeme]
  exact letBody_simulates hinner hstart.span hvalue hrel

/-- Operands without unary operators are read in step. -/
lemma bareOperand_simulates (hens : ∀ c, inner.Ensures SplitsTo c Inner)
    (hinner : InStep (S.under n m) inner inner')
    (h : (S.under (n + 1) (m + 1)).Rel (.operand depth) c d) :
    Simulates (S.under (n + 1) (m + 1)) (bareOperand operands inner) (bareOperand operands inner')
      c d (ExpressionInStep S depth) := by
  have hstrict : Strict (bareOperand operands inner) c :=
    .of_ensures (bareOperand_ensures hens c) fun e _ _ he => e.ne_nil_of_placed he.1.placed
  refine .of_strict_of_isBehind h rfl hstrict fun hsame => ?_
  unfold bareOperand
  refine .peekKind_bind ?_
  rw [← hsame.kind]
  split
  · exact lambda_simulates hinner h
  · exact letIn_simulates hinner h
  · exact postfixed_simulates hens hinner h

/-- Every unary operator takes a token. -/
instance : Rounds unaryOperator? where
  le := (Lowers.of_ensures unaryOperator?_ensures).le
  some_lt c op b h := by
    obtain ⟨ts, hread, hts, -⟩ := (unaryOperator?_ensures c).ok (some op) b h
    exact hread.remaining_lt (ne_nil_of_covering hts)
  at_end c hc := by
    have hkind := Cursor.peek_kind_of_ahead_nil hc
    exact bind_eq_ok.2 ⟨_, c, rfl, by rw [hkind]; rfl⟩

/-- Operators with the same span, if it counts. -/
def UnaryInStep (S : Simulation) (op op' : UnaryOp × Span) : Prop :=
  op.1 = op'.1 ∧ (S.exact → op.2 = op'.2)

omit [Lowers inner] [Lowers inner'] in
/-- Unary operators are read in step, and so are the places where there is none.

**Proof sketch.** By cases on how the cursors are related.  With the same token both find the same
operator or none.  Before an operand the tokens are never in pieces on one side only.  At the end of
the left side no operator is there. -/
lemma unaryOperator?_simulates (h : S.Rel (.operand depth) c d) :
    Simulates S unaryOperator? unaryOperator? c d fun o o' τ =>
      Option.Rel (UnaryInStep S) o o' ∧ τ = .operand depth := by
  unfold unaryOperator?
  refine .peekKind_bind ?_
  rcases S.cases h with hsame | hapart | hended
  · rw [← hsame.kind]
    split
    · exact .pure h ⟨.none, rfl⟩
    · rename_i op hop
      have hne : c.peek.kind ≠ .eof := fun heof => by simp [heof, Kind.unaryOp?] at hop
      refine .advance_bind h hsame hne rfl fun hrel => ?_
      exact .pure hrel ⟨.some ⟨rfl, hsame.span⟩, Mode.step_unaryOp hop depth⟩
  · cases hapart.1
  · rw [hended.kind]
    split
    · exact .pure h ⟨.none, rfl⟩
    · rename_i op hop
      have hne : c.peek.kind ≠ .eof := fun heof => by simp [heof, Kind.unaryOp?] at hop
      exact .ended hended (strict_advance hne).bind

/-- Operands are read in step. -/
lemma operand_simulates (hens : ∀ c, inner.Ensures SplitsTo c Inner)
    (hinner : InStep (S.under n m) inner inner')
    (h : (S.under (n + 1) (m + 1)).Rel (.operand depth) c d) :
    Simulates (S.under (n + 1) (m + 1)) (operand operands inner) (operand operands inner') c d
      (ExpressionInStep S depth) := by
  have : Lowers (bareOperand operands inner) := .of_ensures (bareOperand_ensures hens)
  refine Simulates.prefixed (R := Alike S.exact Expression.withoutSpans)
    (O := UnaryInStep (S.under (n + 1) (m + 1))) (M := (· = .operand depth))
    (N := (· = .behind depth)) h rfl
    (by rintro _ c d rfl h; exact unaryOperator?_simulates h)
    (by rintro _ c d rfl h; exact bareOperand_simulates hens hinner h) ?_
  rintro op op' e e' ⟨hop, hspan⟩ he
  refine ⟨?_, fun hexact => ?_⟩
  · simp [applyUnary, Expression.withoutSpans, hop, he.1]
  · rw [applyUnary, applyUnary, hop, hspan hexact, he.2 hexact]

end Operands

/-! ## Chains of operands -/

section Binary

variable {level : Level}

/-- Every operator takes a token. -/
instance : Rounds (binaryOperator? level) where
  le := (Lowers.of_ensures binaryOperator?_ensures).le
  some_lt c op b h := by
    obtain ⟨ts, hread, -, hts, -⟩ := (binaryOperator?_ensures c).ok (some op) b h
    refine hread.remaining_lt ?_
    rintro rfl
    exact nil_notMem_token hts
  at_end c hc := by
    have hkind := Cursor.peek_kind_of_ahead_nil hc
    have hsplit : c.splitInfix = c :=
      Cursor.splitInfix_of_peek (by simp [isSignedNumber, Kind.isNumber, hkind]) (by simp [hkind])
    refine bind_eq_ok.2 ⟨(), c, by change EStateM.Result.ok () c.splitInfix = _; rw [hsplit], ?_⟩
    exact bind_eq_ok.2 ⟨_, c, rfl, by rw [hkind]; rfl⟩

/-- Operators of a level are read in step, and so are the places where there is none.

**Proof sketch.** Both sides split the token, so that it is the same behind the split, and whether
it is an operator of the level is answered alike. -/
lemma binaryOperator?_simulates (h : S.Rel (.behind depth) c d) :
    Simulates S (binaryOperator? level) (binaryOperator? level) c d fun o o' τ =>
      o = o' ∧ ((o = none → τ = .behind depth) ∧ (o ≠ none → τ = .operand depth)) := by
  obtain ⟨hrel, hheads⟩ := S.split h
  unfold binaryOperator?
  refine .modify_bind (.peekKind_bind ?_)
  rcases hheads with hsame | hended
  · rw [← hsame.kind]
    split
    · exact .pure hrel ⟨rfl, fun _ => rfl, fun hne => absurd rfl hne⟩
    · rename_i op hop
      split
      · have hne : c.splitInfix.peek.kind ≠ .eof := fun heof => by
          simp [heof, Kind.binaryOp?] at hop
        obtain ⟨hstep, hkeeps⟩ := Mode.step_binaryOp hop depth
        exact .advance_bind hrel hsame hne hkeeps fun hrel =>
          .pure hrel ⟨rfl, by simp, fun _ => hstep⟩
      · exact .pure hrel ⟨rfl, fun _ => rfl, fun hne => absurd rfl hne⟩
  · rw [Cursor.peek_kind_of_ahead_nil hended.2.2]
    split
    · exact .pure hrel ⟨rfl, fun _ => rfl, fun hne => absurd rfl hne⟩
    · rename_i op hop
      split
      · have hne : c.splitInfix.peek.kind ≠ .eof := fun heof => by
          simp [heof, Kind.binaryOp?] at hop
        exact .ended hended (strict_advance hne).bind
      · exact .pure hrel ⟨rfl, fun _ => rfl, fun hne => absurd rfl hne⟩

/-- A chain of operands takes from what is ahead. -/
lemma lowers_binary (operand : Parser Expression) [Lowers operand] (levels : List Level) :
    Lowers (binary operand levels) := by
  induction levels with
  | nil => assumption
  | cons level tighter ih => rw [binary]; infer_instance

/-- Chains of operands are read in step if their operands are.

**Proof sketch.** By induction on the levels.  A chain over one level is a loop of operators and
operands, which are in step by `binaryOperator?_simulates` and by the induction hypothesis. -/
lemma binary_simulates {operand operand' : Parser Expression} [Lowers operand]
    [Lowers operand'] (hoperand : InStep S operand operand') (levels : List Level) :
    InStep S (binary operand levels) (binary operand' levels) := by
  induction levels with
  | nil => exact hoperand
  | cons level tighter ih =>
    intro depth c d h
    have := lowers_binary operand tighter
    have := lowers_binary operand' tighter
    rw [binary, binary]
    refine Simulates.leftAssoc (R := Alike S.exact Expression.withoutSpans)
      (M := (· = .behind depth)) (N := (· = .operand depth)) (ih depth c d h)
      (by rintro _ c d rfl h; exact binaryOperator?_simulates h)
      (by rintro _ c d rfl h; exact ih depth c d h) ?_
    rintro a a' op b b' ha hb
    refine ⟨?_, fun he => ?_⟩
    · simp [applyBinary, Expression.withoutSpans, ha.1, hb.1]
    · rw [ha.2 he, hb.2 he]

end Binary

/-! ## Expressions -/

/-- An expression takes from what is ahead, whatever its bound. -/
instance (n : Nat) : Lowers (expressionUpTo n) := .of_ensures (expressionUpTo_ensures n)

/-- An expression takes from what is ahead. -/
instance : Lowers expression := .of_ensures expression_places

/-- The fault of the first operand is that of the chain. -/
lemma binary_of_error {operand : Parser Expression} {fault : Fault} {c c₁ : Cursor}
    (h : operand c = .error fault c₁) (levels : List Level) :
    binary operand levels c = .error fault c₁ := by
  induction levels with
  | nil => exact h
  | cons level tighter ih => exact bind_of_error ih

/-- At the end of the input and at the mention of a tine no operand begins.

**Proof sketch.** Neither token is a unary operator, so the row of signs is empty; neither
begins a primary expression, so the operand is refused at it. -/
lemma operand_refused (operands : Operands) (inner : Parser Expression) {c : Cursor}
    (hc : c.peek.kind = .eof ∨ c.peek.kind = .tineRef) : operand operands inner c
      = .error (.unexpected ["expression"] c.peek.found c.peek.span) c := by
  have hunary : many unaryOperator? c = .ok [] c := by
    refine bind_eq_ok.2 ⟨none, c, bind_eq_ok.2 ⟨_, c, rfl, ?_⟩, rfl⟩
    rcases hc with hc | hc
    all_goals
      rw [hc]
      rfl
  have hbare : bareOperand operands inner c
      = .error (.unexpected ["expression"] c.peek.found c.peek.span) c := by
    refine bind_eq_error.2 (.inr ⟨_, c, rfl, ?_⟩)
    rcases hc with hc | hc
    all_goals
      rw [hc]
      refine bind_eq_error.2 (.inl (bind_eq_error.2 (.inr ⟨_, c, rfl, ?_⟩)))
      rw [hc]
      rfl
  exact bind_eq_error.2 (.inr ⟨[], c, hunary, bind_eq_error.2 (.inl hbare)⟩)

/-- At the end of the input no expression begins. -/
lemma expressionUpTo_eof (n : Nat) {c : Cursor} (hc : c.peek.kind = .eof) :
    expressionUpTo n c = .error (.unexpected ["expression"] c.peek.found c.peek.span) c := by
  rcases n with _ | n
  · rfl
  · exact binary_of_error (operand_refused .full _ (.inl hc)) Level.all

/-- Expressions with bounds on what remains ahead.

**Proof sketch.** By induction on the bound of the left side and by cases on that of the right.  A
bound of zero means that nothing remains, and at the end of the input both sides refuse.  Otherwise
both open one level of nesting, and the induction hypothesis speaks of what is nested. -/
lemma expressionUpTo_simulates (n : Nat) :
    ∀ m, InStep (S.under n m) (expressionUpTo n) (expressionUpTo m) := by
  have hstrict (n : Nat) (c : Cursor) : Strict (expressionUpTo n) c :=
    .of_ensures (expressionUpTo_ensures n c) fun e _ _ he => e.ne_nil_of_placed he.1
  have hzero {c : Cursor} (hc : c.remaining ≤ 0) : c.peek.kind = .eof :=
    Cursor.peek_kind_of_ahead_nil (Cursor.ahead_eq_nil_of_remaining (Nat.le_zero.1 hc))
  induction n with
  | zero =>
    intro m depth c d h
    refine .of_strict_of_isBehind h rfl (hstrict 0 c) fun hsame => ?_
    exact .refused h rfl (expressionUpTo_eof m (hsame.kind.symm.trans (hzero h.2.1)))
  | succ n ih =>
    intro m depth c d h
    rcases m with _ | m
    · refine .of_strict_of_isBehind h rfl (hstrict (n + 1) c) fun hsame => ?_
      exact .refused h (expressionUpTo_eof (n + 1) (hsame.kind.trans (hzero h.2.2))) rfl
    · have (n : Nat) : Lowers (operand .full (expressionUpTo n)) :=
        .of_ensures (operand_ensures (expressionUpTo_ensures n))
      exact binary_simulates (fun _ _ _ h => operand_simulates (expressionUpTo_ensures n) (ih m) h)
        Level.all depth c d h

/-- Expressions are read in step. -/
theorem expression_simulates : InStep S expression expression := fun depth c d h =>
  ((expressionUpTo_simulates _ _ depth c d h.under).of_under).congr rfl rfl

/-- The operands of comparisons are read in step. -/
theorem comparand_simulates : InStep S comparand comparand := by
  intro depth c d h
  have : Lowers (operand .comparison expression) :=
    .of_ensures (operand_ensures expression_places)
  have hunder : (S.under (c.remaining + 1) (d.remaining + 1)).Rel (.operand depth) c d :=
    ⟨h, Nat.le_succ _, Nat.le_succ _⟩
  exact (binary_simulates (fun _ _ _ h => operand_simulates expression_places expression_simulates
    h) Level.arithmetic depth c d hunder).of_under

end Parser

end RakeLang
