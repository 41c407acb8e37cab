import RakeLang.Proofs.Canonical.Definition
import RakeLang.Proofs.Reading.Predicate

/-!
# What the readers of statements and of the sections of a rake ensure

Statements, tines, through blocks and sweeps spell the tokens that they were read from, at their
place, and the expressions in them are canonical.  A let-in and a binding begin alike; the part that
they have in common is read once, and what stands behind it completes the spelling of the one or the
other.

## Main results

* `RakeLang.Parser.statement_ensures` — statements.
* `RakeLang.Parser.tineDecl_ensures`, `RakeLang.Parser.throughBlock_ensures`,
  `RakeLang.Parser.sweepBlock_ensures` — the sections of a rake.
-/

set_option relaxedAutoImplicit false
set_option autoImplicit false

namespace RakeLang.Parser

open Spelling Token

/-! ## Statements -/

/-- What a type behind a colon is read from spells it at its place. -/
lemma typeAnnotation?_ensures {R : List Token → List Token → Prop} [Rewriting R] (c : Cursor) :
    typeAnnotation?.Ensures R c fun o ts _ => ts ∈ placedAscription o := by
  unfold typeAnnotation?
  refine .eat_bind (by simp) (fun colon hcolon => ?_) (.pure rfl)
  refine (dataType_ensures _).bind fun type ts c₁ _ htype => .pure ?_
  simpa [placedAscription, sign, hcolon] using htype.1

/-- What a binding is read from spells it at its place, and its value is canonical. -/
lemma letBinding_ensures (c : Cursor) :
    letBinding.Ensures SplitsTo c fun b ts _ => ts ∈ b.placed ∧ b.value.Canonical := by
  unfold letBinding
  refine .of_reads (.expect_bind_peek (by simp) fun hlet => ?_)
  refine .expect_bind (by simp) fun name hname => ?_
  refine (typeAnnotation?_ensures _).bind fun type ts c₁ _ htype => ?_
  refine .expect_bind (by simp) fun equal hequal => ?_
  refine (expression_places _).bind fun value us c₂ _ hvalue => ?_
  refine .spanFrom_bind (.pure fun hread => ⟨⟨?_, hread.covers⟩, hvalue.2.1⟩)
  simp only [keyword, word, sign, cons_mem_token_mul, List.append_nil]
  refine ⟨hlet, ⟨hname, trivial⟩, Language.append_mem_mul htype ?_⟩
  rw [cons_mem_token_mul]
  exact ⟨hequal, hvalue.1⟩

/-- The placed spelling of what the word `let` begins. -/
def LetForm.placed : LetForm → Language Token
  | binding b => b.placed
  | expression value => value.placed

/-- The value of a binding, or the let-in. -/
def LetForm.value : LetForm → Expression
  | binding b => b.value
  | expression value => value

/-- The words of a binding without a type, the word `in` and a body spell a let-in. -/
lemma letIn_mem_placed {b : LetBinding} {body : Expression} {inKw : Token}
    {ts us : List Token} (htype : b.type = none) (hts : ts ∈ b.placed)
    (hin : inKw.kind = .keyword .inKw) (hus : us ∈ body.placed) :
    ts ++ inKw :: us ∈ keyword .letKw * (word .ident b.name * (sign .equal
      * (b.value.placed * (keyword .inKw * body.placed)))) := by
  have hts := hts.1
  simp only [keyword, word, sign, mem_token_mul, htype, placedAscription, one_mul] at hts
  obtain ⟨letKw, -, hlet, ⟨name, -, hname, ⟨equal, vs, hequal, hvs, rfl⟩, rfl⟩, rfl⟩ := hts
  simp only [keyword, word, sign, List.cons_append, cons_mem_token_mul]
  refine ⟨hlet, hname, hequal, Language.append_mem_mul hvs ?_⟩
  rw [cons_mem_token_mul]
  exact ⟨hin, hus⟩

/-- What the word `let` begins is spelled by what it is read from, as a binding or as an expression.
-/
lemma letForm_ensures (c : Cursor) :
    letForm.Ensures SplitsTo c fun f ts _ => ts ∈ f.placed ∧ f.value.Canonical := by
  unfold letForm
  refine (letBinding_ensures c).bind fun b ts c₁ _ hb => ?_
  split
  · exact .pure (by simpa [LetForm.placed, LetForm.value] using hb)
  rename_i htype
  have htype : b.type = none := by simpa using htype
  refine .eat_bind (by simp) (fun inKw hin => ?_) (.pure ?_)
  · refine (letBody_ensures ts [inKw] expression_places hb.2 hb.1.2
      (fun body us hus => letIn_mem_placed htype hb.1 hin hus) _).bind fun e us c₂ _ he => .pure ?_
    exact ⟨by simpa [LetForm.placed] using he.1.placed, he.1.canonical⟩
  · simpa [LetForm.placed, LetForm.value] using hb

/-- What an assignment is read from spells it at its place. -/
lemma assignment_ensures (c : Cursor) :
    assignment.Ensures SplitsTo c fun s ts _ =>
      ts ∈ s.placed ∧ ∀ e ∈ s.expressions, e.Canonical := by
  unfold assignment
  refine .of_reads (.expect_bind_peek (by simp) fun hname => ?_)
  refine .expect_bind (by simp) fun arrow harrow => ?_
  refine (expression_places _).bind fun value ts c₁ _ hvalue => .spanFrom_bind ?_
  refine .pure fun hread => ⟨⟨?_, hread.covers⟩, by simpa [Statement.expressions] using hvalue.2.1⟩
  simp only [word, sign, cons_mem_token_mul, List.append_nil]
  exact ⟨⟨hname, trivial⟩, harrow, hvalue.1⟩

/-- What a pass over a pack is read from spells it at its place.

**Proof sketch.** The parts are read one behind the other, and the tokens of each make up its
factor of the spelling. -/
lemma passOver_ensures (c : Cursor) :
    passOver.Ensures SplitsTo c fun s ts _ =>
      ts ∈ s.placed ∧ ∀ e ∈ s.expressions, e.Canonical := by
  unfold passOver
  refine .of_reads (.expect_bind_peek (by simp) fun hover => ?_)
  refine (expression_places _).bind fun pack ts c₁ _ hpack => ?_
  refine .expect_bind (by simp) fun comma hcomma => ?_
  refine (scalarLiteral_ensures _).bind fun count us c₂ _ hcount => ?_
  refine .expect_bind (by simp) fun pipe hpipe => .expect_bind (by simp) fun name hname => ?_
  refine .expect_bind (by simp) fun colon hcolon => ?_
  refine (expression_places _).bind fun body vs c₃ _ hbody => .spanFrom_bind ?_
  refine .pure fun hread => ⟨⟨?_, hread.covers⟩, by
    simpa [Statement.expressions] using ⟨hpack.2.1, hbody.2.1⟩⟩
  simp only [keyword, cons_mem_token_mul, List.append_nil]
  refine ⟨hover, Language.append_mem_mul hpack.1 ?_⟩
  simp only [sign, cons_mem_token_mul]
  refine ⟨hcomma, Language.append_mem_mul hcount ?_⟩
  simp only [word, cons_mem_token_mul]
  exact ⟨hpipe, ⟨hname, trivial⟩, hcolon, hbody.1⟩

/-- What an expression as a statement is read from spells it at its place. -/
lemma expressionStatement_ensures (c : Cursor) :
    expressionStatement.Ensures SplitsTo c fun s ts _ =>
      ts ∈ s.placed ∧ ∀ e ∈ s.expressions, e.Canonical := by
  unfold expressionStatement
  refine (expression_places c).bind fun value ts c₁ _ hvalue => .pure ?_
  simpa [Statement.placed, Statement.expressions] using ⟨hvalue.1, hvalue.2.1⟩

/-- What a statement is read from spells it at its place, and the expressions in it are canonical.

**Proof sketch.** By cases on the token at the cursor, as the reader does: `let`, `over`, a name
with an arrow behind it, or an expression. -/
theorem statement_ensures (c : Cursor) :
    statement.Ensures SplitsTo c fun s ts _ =>
      ts ∈ s.placed ∧ ∀ e ∈ s.expressions, e.Canonical := by
  unfold statement
  apply Ensures.peekKind_bind
  split
  · refine (letForm_ensures c).bind fun form ts c₁ _ hform => ?_
    rcases form with b | value
    all_goals
      refine .pure ?_
      simpa [Statement.placed, Statement.expressions, LetForm.placed, LetForm.value]
        using hform
  · exact passOver_ensures c
  · apply Ensures.checkAhead_bind
    split
    · exact assignment_ensures c
    · exact expressionStatement_ensures c
  · exact expressionStatement_ensures c

/-! ## Tines -/

/-- What a tine is read from spells it at its place, and the expressions in its guard are canonical.
-/
theorem tineDecl_ensures (c : Cursor) :
    tineDecl.Ensures SplitsTo c fun d ts _ =>
      ts ∈ d.placed ∧ ∀ e ∈ d.guard.operands, e.Canonical := by
  unfold tineDecl
  refine .of_reads (.expect_bind_peek (by simp) fun hpipe => ?_)
  refine (tineRef_ensures _).bind fun tine ts c₁ _ htine => ?_
  refine .expect_bind (by simp) fun define hdefine => .expect_bind (by simp) fun lp hlp => ?_
  refine (predicate_places _).bind fun guard us c₂ _ hguard => ?_
  refine .expect_bind (by simp) fun rp hrp => .spanFrom_bind ?_
  refine .pure fun hread => ⟨⟨?_, hread.covers⟩, hguard.2.operands⟩
  simp only [sign, cons_mem_token_mul]
  refine ⟨hpipe, Language.append_mem_mul htine ?_⟩
  simp only [cons_mem_token_mul]
  exact ⟨hdefine, hlp, append_singleton_mem hguard.1 hrp⟩

/-! ## Through blocks -/

/-- What the guard of a through block is read from spells it, and the expressions in it are
canonical. -/
lemma throughGuard_ensures (c : Cursor) :
    throughGuard.Ensures SplitsTo c fun g ts _ =>
      ts ∈ g.placedWhole ∧ ∀ e ∈ g.expressions, e.Canonical := by
  unfold throughGuard
  apply Ensures.peekKind_bind
  split
  · refine (tineRef_ensures c).bind fun tine ts c₁ _ htine => .pure ?_
    simpa [ThroughGuard.placedWhole, ThroughGuard.placed, ThroughGuard.expressions] using htine
  · rename_i hlp
    refine .advance_bind (by simp [hlp]) ((predicate_places _).bind fun guard ts c₁ _ hg => ?_)
    refine .expect_bind (by simp) fun rp hrp => .pure ⟨?_, hg.2.operands⟩
    simp only [ThroughGuard.placedWhole, sign, cons_mem_token_mul]
    exact ⟨hlp, append_singleton_mem hg.1 hrp⟩
  · exact .unexpected

/-- What a fallback is read from spells it as an expression.

**Proof sketch.** By cases on the token at the cursor: a scalar literal, a truth value, or a
number; each is spelled as the expression that it stands for. -/
lemma fallback_ensures {R : List Token → List Token → Prop} [Rewriting R] (c : Cursor) :
    fallback.Ensures R c fun f ts _ => ts ∈ f.toExpression.placed := by
  unfold fallback
  apply Ensures.peekKind_bind
  split
  case h_1 | h_2 =>
    refine (scalarLiteral_ensures c).bind fun l ts c₁ _ hl => .pure ?_
    rw [Fallback.toExpression, Expression.placed, List.append_nil]
    exact hl
  case h_3 h | h_4 h =>
    refine .advance_bind (by simp [h]) (.pure ?_)
    rw [Fallback.toExpression, Expression.placed]
    exact singleton_mem_covering (by simp [truth, keyword, h])
  case h_5 =>
    refine .peek_bind ((number?_ensures c).bind fun o ts c₁ _ ho => ?_)
    rcases o with _ | n
    · exact .unexpected
    · refine .pure ?_
      rw [Fallback.toExpression, Expression.placed, List.append_nil]
      exact ho.1

/-- What is read behind the word `else` spells the fallback; without the word there is none. -/
lemma fallback?_ensures (c : Cursor) :
    fallback?.Ensures SplitsTo c fun o ts _ => ts ∈ placedAlternative o := by
  unfold fallback?
  refine .eat_bind (by simp) (fun elseKw helse => ?_) (.pure rfl)
  refine (fallback_ensures _).bind fun value ts c₁ _ hvalue => .pure ?_
  simpa [placedAlternative, keyword, helse] using hvalue

/-- What is ensured of bindings and the value behind them. -/
def Body (body : List LetBinding × Expression) (ts : List Token) (_ : Cursor) : Prop :=
  ts ∈ (body.1.map LetBinding.placed).prod * body.2.placed
    ∧ (∀ b ∈ body.1, b.value.Canonical) ∧ body.2.Canonical

/-- A value without bindings. -/
lemma expression_body (c : Cursor) :
    (do let value ← expression; return ([], value) : Parser (List LetBinding × Expression)).Ensures
      SplitsTo c Body :=
  (expression_places c).bind fun value ts c₁ _ hvalue =>
    .pure ⟨by simpa using hvalue.1, by simp, hvalue.2.1⟩

/-- What a body of bounded length is read from spells its bindings and its value.

**Proof sketch.** Induction on the bound.  At the word `let` a binding is read and the body goes on
behind it; what is no binding is the value. -/
lemma throughBodyUpTo_ensures (n : Nat) :
    ∀ c, (throughBodyUpTo n).Ensures SplitsTo c Body := by
  induction n with
  | zero => exact expression_body
  | succ n ih =>
    intro c
    unfold throughBodyUpTo
    apply Ensures.check_bind
    split
    · refine (letForm_ensures c).bind fun form ts c₁ _ hform => ?_
      rcases form with b | value
      · refine (ih c₁).bind ?_
        rintro ⟨setup, value⟩ us c₂ - ⟨hus, hsetup, hvalue⟩
        refine .pure ⟨?_, by simpa using ⟨hform.2, hsetup⟩, hvalue⟩
        rw [List.map_cons, List.prod_cons, mul_assoc, List.append_nil]
        exact Language.append_mem_mul hform.1 hus
      · refine .pure ⟨?_, by simp, hform.2⟩
        simpa [LetForm.placed] using hform.1
    · exact expression_body c

/-- What the body of a through block is read from spells its bindings and its value. -/
lemma throughBody_ensures (c : Cursor) : throughBody.Ensures SplitsTo c Body :=
  (throughBodyUpTo_ensures c.remaining c).congr rfl

/-- What a through block is read from spells it at its place, and the expressions in it are
canonical.

**Proof sketch.** The parts are read one behind the other, and the tokens of each make up its factor
of the spelling.  Each expression of the block is one of its guard, of its fallback, of its
bindings, or its value. -/
theorem throughBlock_ensures (c : Cursor) :
    throughBlock.Ensures SplitsTo c fun b ts _ =>
      ts ∈ b.placed ∧ ∀ e ∈ b.expressions, e.Canonical := by
  unfold throughBlock
  refine .of_reads (.expect_bind_peek (by simp) fun hthrough => ?_)
  refine (throughGuard_ensures _).bind fun guard ts c₁ _ hguard => ?_
  refine (fallback?_ensures c₁).bind fun fallback us c₂ _ hfallback => ?_
  refine .expect_bind (by simp) fun colon hcolon => (throughBody_ensures _).bind ?_
  rintro ⟨setup, value⟩ vs c₃ - ⟨hvs, hsetup, hvalue⟩
  refine .expect_bind (by simp) fun arrow harrow => .expect_bind (by simp) fun name hname => ?_
  refine .spanFrom_bind (.pure fun hread => ⟨⟨?_, hread.covers⟩, ?_⟩)
  · simp only [keyword, cons_mem_token_mul]
    refine ⟨hthrough, Language.append_mem_mul hguard.1 (Language.append_mem_mul hfallback ?_)⟩
    simp only [sign, cons_mem_token_mul]
    refine ⟨hcolon, Language.append_mem_mul hvs ?_⟩
    simp [word, harrow, hname]
  · intro e he
    simp only [ThroughBlock.expressions, List.mem_append, List.mem_map, Option.mem_toList,
      List.mem_singleton] at he
    rcases he with ((he | ⟨f, -, rfl⟩) | ⟨b, hb, rfl⟩) | rfl
    · exact hguard.2 e he
    · exact f.canonical_toExpression
    · exact hsetup b hb
    · exact hvalue

/-! ## Sweeps -/

/-- What the target of a sweep arm is read from spells it at its place. -/
lemma sweepTarget_ensures {R : List Token → List Token → Prop} [Rewriting R] (c : Cursor) :
    sweepTarget.Ensures R c fun t ts _ => ts ∈ t.placed := by
  unfold sweepTarget
  apply Ensures.check_bind
  split
  · refine (tineRef_ensures c).bind fun tine ts c₁ _ htine => .pure ?_
    simpa [SweepTarget.placed] using htine
  · apply Ensures.checkWord_bind
    split
    case isTrue hword =>
      have hword : c.peek.kind = .ident ∧ c.peek.lexeme = "_" := by simpa using hword
      refine .advance_bind (by simp [hword.1]) (.pure (singleton_mem_covering ?_))
      simpa [word] using hword
    case isFalse => exact .unexpected

/-- What an arm of a sweep is read from spells it at its place, and its value is canonical. -/
lemma sweepArm_ensures (c : Cursor) :
    sweepArm.Ensures SplitsTo c fun a ts _ => ts ∈ a.placed ∧ a.value.Canonical := by
  unfold sweepArm
  refine .of_reads (.expect_bind_peek (by simp) fun hpipe => ?_)
  refine (sweepTarget_ensures _).bind fun target ts c₁ _ htarget => ?_
  refine .expect_bind (by simp) fun arrow harrow => ?_
  refine (expression_places _).bind fun value us c₂ _ hvalue => .spanFrom_bind ?_
  refine .pure fun hread => ⟨⟨?_, hread.covers⟩, hvalue.2.1⟩
  simp only [sign, cons_mem_token_mul, List.append_nil]
  refine ⟨hpipe, Language.append_mem_mul htarget ?_⟩
  rw [cons_mem_token_mul]
  exact ⟨harrow, hvalue.1⟩

/-- What a sweep is read from spells it at its place, and the values of its arms are canonical. -/
theorem sweepBlock_ensures (c : Cursor) :
    sweepBlock.Ensures SplitsTo c fun b ts _ =>
      ts ∈ b.placed ∧ ∀ a ∈ b.arms, a.value.Canonical := by
  unfold sweepBlock
  refine .of_reads (.expect_bind_peek (by simp) fun hsweep => ?_)
  refine .expect_bind (by simp) fun colon hcolon => ?_
  refine (Ensures.many (Ensures.whenAt sweepArm_ensures) _).bind fun arms ts c₁ _ harms => ?_
  split
  · exact .misplaced
  refine .expect_bind (by simp) fun arrow harrow => .expect_bind (by simp) fun name hname => ?_
  refine .spanFrom_bind (.pure fun hread => ⟨⟨?_, hread.covers⟩, harms.2⟩)
  simp only [keyword, sign, cons_mem_token_mul]
  refine ⟨hsweep, hcolon, Language.append_mem_mul harms.1 ?_⟩
  simp [word, harrow, hname]

end RakeLang.Parser
