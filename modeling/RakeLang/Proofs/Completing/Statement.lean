import RakeLang.Proofs.Canonical.SourceFile
import RakeLang.Proofs.Completing.Spelling

/-!
# Reading statements is complete

Every canonical statement is read from each of its spellings, in front of what can stand behind an
expression and does not begin with the word `in`.  The word `let` has three readings.  A binding
without a type and a let-in are told apart behind the value only, by the word `in`; an expression
that begins with `let` is a let-in as a whole, since a let-in is no left operand.  A name begins an
assignment only if a left arrow stands behind it, and no expression goes on with one.

## Main results

* `RakeLang.Expression.Canonical.exists_letIn`, `RakeLang.Expression.leftArrow_not_second` — the
  first two tokens of an expression.
* `RakeLang.Parser.letForm_leads_binding`, `RakeLang.Parser.letForm_leads_letIn` — what the word
  `let` begins.
* `RakeLang.Parser.statement_leads` — statements.
-/

set_option relaxedAutoImplicit false
set_option autoImplicit false

namespace RakeLang

open Spelling

/-! ## The first tokens of expressions and statements -/

namespace Expression

/-- A canonical expression that begins with the word `let` is a let-in.

**Proof sketch.** Induction along the left operands, none of which reaches as far as it can. -/
theorem Canonical.exists_letIn :
    ∀ {e : Expression} {ts rest : List Token}, e.Canonical → ts ∈ e.spelling →
      headKind (ts ++ rest) = .keyword .letKw →
        ∃ name value body span, e = .letIn name value body span
  | .binary op lhs rhs span, ts, rest, hcan, hts, hhead => by
    rw [Canonical, Everywhere] at hcan
    rw [Expression.spelling] at hts
    obtain ⟨us, hus, vs, -, rfl⟩ := Language.mem_mul.1 hts
    rw [List.append_assoc] at hhead
    obtain ⟨name, value, body, span', rfl⟩ := Canonical.exists_letIn hcan.2.1 hus hhead
    cases hcan.1.1.2.2
  | .unary op operand span, ts, rest, _, hts, hhead => by
    rw [Expression.spelling] at hts
    obtain ⟨t, us, ht, -, rfl⟩ := mem_token_mul.1 hts
    rw [List.cons_append, headKind_cons] at hhead
    simp [hhead, Kind.unaryOp?] at ht
  | .lambda params body span, ts, rest, _, hts, hhead => by
    rw [Expression.spelling] at hts
    obtain ⟨t, us, ht, -, rfl⟩ := mem_token_mul.1 hts
    simp [ht] at hhead
  | .letIn name value body span, _, _, _, _, _ => ⟨name, value, body, span, rfl⟩
  | .call .., ts, rest, hcan, hts, hhead | .field .., ts, rest, hcan, hts, hhead
  | .scalar .., ts, rest, hcan, hts, hhead | .record .., ts, rest, hcan, hts, hhead
  | .reduce .., ts, rest, hcan, hts, hhead | .scan .., ts, rest, hcan, hts, hhead
  | .shuffle .., ts, rest, hcan, hts, hhead | .ident .., ts, rest, hcan, hts, hhead
  | .number .., ts, rest, hcan, hts, hhead | .bool .., ts, rest, hcan, hts, hhead
  | .laneIndex .., ts, rest, hcan, hts, hhead | .lanes .., ts, rest, hcan, hts, hhead
  | .unit .., ts, rest, hcan, hts, hhead | .paren .., ts, rest, hcan, hts, hhead
  | .tuple .., ts, rest, hcan, hts, hhead => by
    have hopens := opensPrimary_of_mem hcan rfl hts rest
    rw [hhead] at hopens
    cases hopens

/-- Where no left arrow stands behind an expression, none stands behind a name at its head.

**Proof sketch.** Induction along the left operands and the operands of suffixes: behind each of
them stands an operator or a suffix, and neither is a left arrow. -/
theorem leftArrow_not_second :
    ∀ {e : Expression} {ts rest : List Token}, ts ∈ e.spelling →
      headKind rest ≠ .symbol .leftArrow → headKind (ts ++ rest) = .ident →
        headKind (ts ++ rest).tail ≠ .symbol .leftArrow
  | .binary op lhs rhs span, ts, rest, hts, hrest, hhead => by
    rw [Expression.spelling] at hts
    obtain ⟨us, hus, _, hws, rfl⟩ := Language.mem_mul.1 hts
    obtain ⟨t, vs, ht, -, rfl⟩ := mem_token_mul.1 hws
    rw [List.append_assoc] at hhead ⊢
    exact leftArrow_not_second hus (Parser.endsOperand_of_binaryOp? ht).arrow hhead
  | .field base _ _, ts, rest, hts, hrest, hhead
  | .shuffle base _ _, ts, rest, hts, hrest, hhead => by
    rw [Expression.spelling] at hts
    obtain ⟨us, hus, _, hws, rfl⟩ := Language.mem_mul.1 hts
    obtain ⟨t, vs, ht, -, rfl⟩ := mem_token_mul.1 hws
    rw [List.append_assoc] at hhead ⊢
    exact leftArrow_not_second hus (by simp [ht]) hhead
  | .reduce _ base _, ts, rest, hts, hrest, hhead
  | .scan _ base _, ts, rest, hts, hrest, hhead => by
    rw [Expression.spelling] at hts
    obtain ⟨us, hus, _, ⟨t, ht, rfl⟩, rfl⟩ := Language.mem_mul.1 hts
    rw [List.append_assoc] at hhead ⊢
    exact leftArrow_not_second hus (by simp [ht]) hhead
  | .ident name span, ts, rest, hts, hrest, _ => by
    rw [Expression.spelling] at hts
    obtain ⟨t, -, rfl⟩ := hts
    exact hrest
  | .call name args span, ts, rest, hts, _, _ => by
    rw [Expression.spelling] at hts
    obtain ⟨t, _, -, hws, rfl⟩ := mem_token_mul.1 hts
    obtain ⟨lp, us, hlp, -, rfl⟩ := mem_token_mul.1 hws
    simp [hlp]
  | .unary op operand span, ts, rest, hts, _, hhead => by
    rw [Expression.spelling] at hts
    obtain ⟨t, us, ht, -, rfl⟩ := mem_token_mul.1 hts
    rw [List.cons_append, headKind_cons] at hhead
    simp [hhead, Kind.unaryOp?] at ht
  | .scalar literal, ts, rest, hts, _, hhead => by
    rw [Expression.spelling] at hts
    rcases Parser.headKind_of_mem_scalar hts rest with h | h <;> simp [h] at hhead
  | .number value span, ts, rest, hts, _, hhead => by
    rw [Expression.spelling] at hts
    obtain ⟨t, ht, rfl⟩ := hts
    have hnumber := Parser.isNumber_of_number? ht
    rw [List.singleton_append, headKind_cons] at hhead
    simp [hhead, Kind.isNumber] at hnumber
  | .bool value span, ts, rest, hts, _, hhead => by
    rw [Expression.spelling] at hts
    cases value
    all_goals
      obtain ⟨t, ht, rfl⟩ := hts
      simp [ht] at hhead
  | .laneIndex span, ts, rest, hts, _, hhead | .lanes span, ts, rest, hts, _, hhead => by
    rw [Expression.spelling] at hts
    obtain ⟨t, ht, rfl⟩ := hts
    simp [ht] at hhead
  | .record .., ts, rest, hts, _, hhead | .lambda .., ts, rest, hts, _, hhead
  | .letIn .., ts, rest, hts, _, hhead | .unit .., ts, rest, hts, _, hhead
  | .paren .., ts, rest, hts, _, hhead | .tuple .., ts, rest, hts, _, hhead => by
    rw [Expression.spelling] at hts
    obtain ⟨t, us, ht, -, rfl⟩ := mem_token_mul.1 hts
    simp [ht] at hhead

end Expression

/-- A canonical expression begins with a token that opens one. -/
lemma Expression.Canonical.begins {e : Expression} (h : e.Canonical) (K : Language Token) :
    Begins (fun kind => kind.opensExpression = true) (e.spelling * K) := by
  intro ts hts
  obtain ⟨us, hus, rest, -, rfl⟩ := Language.mem_mul.1 hts
  exact Expression.opensExpression_of_mem h hus rest

/-- Does a token of this kind begin a statement? -/
def Kind.opensStatement : Kind → Bool
  | keyword .overKw => true
  | kind => kind.opensExpression

/-- A canonical statement begins with a token that opens one.

**Proof sketch.** By cases on the statement.  Bindings, assignments and passes spell their first
token; an expression begins with a token of its own, by `Expression.Canonical.begins`, and each of
those opens a statement. -/
lemma Statement.Canonical.begins {s : Statement} (h : s.Canonical) (K : Language Token) :
    Begins (fun kind => kind.opensStatement = true) (s.spelling * K) := by
  cases s with
  | letBinding binding => exact binding.begins.imp fun _ hkind => by rw [hkind]; rfl
  | assign name value span =>
    rw [Statement.spelling, mul_assoc]
    exact begins_word.imp fun _ hkind => by rw [hkind]; rfl
  | overPack pack count binding body span =>
    rw [Statement.spelling, mul_assoc]
    exact begins_keyword.imp fun _ hkind => by rw [hkind]; rfl
  | expression value =>
    refine (Expression.Canonical.begins h K).imp fun kind hkind => ?_
    unfold Kind.opensStatement
    split
    · rfl
    · exact hkind

namespace Parser

variable {M : Language Token}

/-! ## Values and bindings -/

/-- An expression is read, in front of what ends it. -/
lemma expression_leads {e : Expression} (he : e.Canonical)
    (hM : ∀ ts ∈ M, EndsExpression ts) :
    expression.Leads (e.spelling * M) M fun e' => e'.withoutSpans = e.withoutSpans :=
  .of_accepts fun _ hts rest hrest => expression_accepts he hts (hM rest hrest)

/-- A type is read, in front of what ends it. -/
lemma dataType_leads {t : DataType} (ht : t.Canonical) (hM : ∀ ts ∈ M, EndsType ts) :
    dataType.Leads (t.spelling * M) M fun t' => t'.withoutSpans = t.withoutSpans :=
  .of_accepts fun _ hts rest hrest => dataType_accepts ht hts (hM rest hrest)

/-- A type behind a colon is read, or none, up to the sign of a definition. -/
lemma typeAnnotation?_leads {type : Option DataType} (htype : ∀ t ∈ type, t.Canonical)
    (hM : Begins (· = .symbol .equal) M) :
    typeAnnotation?.Leads (ascription type * M) M fun o =>
      o.map DataType.withoutSpans = type.map DataType.withoutSpans := by
  unfold typeAnnotation?
  rcases type with _ | type
  · rw [ascription, one_mul]
    exact .eat_bind_false (hM.ne_of_eq (by simp)) (.pure rfl)
  · rw [ascription, mul_assoc]
    have hends : ∀ ts ∈ M, EndsType ts := fun ts hts =>
      endsType_of_headKind (by simp [hM ts hts]) (by simp [hM ts hts])
    refine .eat_bind_true (fun _ ht => ht) ?_
    exact (dataType_leads (htype type rfl) hends).bind fun t ht => .pure (by simp [ht])

/-- A binding is read in front of what can stand behind its value. -/
lemma letBinding_leads {b : LetBinding} (hb : b.Canonical) (hM : ∀ ts ∈ M, EndsExpression ts) :
    letBinding.Leads (b.spelling * M) M fun b' => b'.withoutSpans = b.withoutSpans := by
  unfold letBinding
  simp only [LetBinding.spelling, mul_assoc]
  refine .expect_bind (fun _ ht => ht) fun start _ => ?_
  refine .expect_bind (fun _ ht => ht.1) fun name hname => ?_
  refine (typeAnnotation?_leads hb.type begins_sign).bind fun type htype => ?_
  refine .expect_bind (fun _ ht => ht) fun _ _ => ?_
  refine (expression_leads hb.value hM).bind fun value hvalue => .spanFrom_bind fun span => .pure ?_
  simp [LetBinding.withoutSpans, hname.2, htype, hvalue]

/-! ## What the word `let` begins -/

/-- Whether a binding has a type does not depend on its places. -/
lemma isSome_type_of_withoutSpans {b b' : LetBinding} (h : b'.withoutSpans = b.withoutSpans) :
    b'.type.isSome = b.type.isSome := by
  simpa [LetBinding.withoutSpans] using congrArg (fun b => b.type.isSome) h

/-- Where the word `in` does not stand behind a binding, a binding is read. -/
theorem letForm_leads_binding {b : LetBinding} (hb : b.Canonical)
    (hM : ∀ ts ∈ M, EndsExpression ts) (hin : Begins (· ≠ .keyword .inKw) M) :
    letForm.Leads (b.spelling * M) M fun f =>
      ∃ b', f = .binding b' ∧ b'.withoutSpans = b.withoutSpans := by
  unfold letForm
  refine (letBinding_leads hb hM).bind fun b' hb' => ?_
  split
  · exact .pure ⟨b', rfl, hb'⟩
  · exact .eat_bind_false hin (.pure ⟨b', rfl, hb'⟩)

/-- The tokens of a let-in up to the word `in` are those of a binding; behind it stands the
body.

**Proof sketch.** Up to the word `in`, which ends the value, a let-in is spelled like a binding
without a type. -/
theorem letForm_leads_letIn {name : String} {value body : Expression} {span : Span}
    (h : (Expression.letIn name value body span).Canonical) (hM : ∀ ts ∈ M, EndsExpression ts) :
    letForm.Leads ((Expression.letIn name value body span).spelling * M) M fun f =>
      ∃ e, f = .expression e
        ∧ e.withoutSpans = (Expression.letIn name value body span).withoutSpans := by
  rw [Expression.Canonical, Expression.Everywhere] at h
  obtain ⟨-, hvalue, hbody⟩ := h
  have hspelling : (Expression.letIn name value body span).spelling * M
      = (⟨name, none, value, span⟩ : LetBinding).spelling
        * (keyword .inKw * (body.spelling * M)) := by
    simp only [Expression.spelling, LetBinding.spelling, ascription, one_mul, mul_assoc]
  have hends : ∀ ts ∈ keyword .inKw * (body.spelling * M), EndsExpression ts :=
    fun ts hts => endsExpression_of_headKind (.inr (.inr (.inr (.inl (begins_keyword ts hts)))))
  have hbinding : LetBinding.Canonical ⟨name, none, value, span⟩ := ⟨by simp, hvalue⟩
  rw [hspelling]
  unfold letForm
  refine (letBinding_leads hbinding hends).bind fun b hb => ?_
  have htype := isSome_type_of_withoutSpans hb
  simp only [LetBinding.withoutSpans, LetBinding.mk.injEq] at hb
  rw [if_neg (by simp [htype])]
  refine .eat_bind_true (fun _ ht => ht) ?_
  unfold letBody
  simp only [if_true, bind_assoc, pure_bind]
  refine (expression_leads hbody hM).bind fun body' hbody' => .spanFrom_bind fun span' => ?_
  refine .pure ⟨_, rfl, ?_⟩
  rw [Expression.withoutSpans, Expression.withoutSpans, hb.1, hb.2.2.1, hbody']

/-! ## Statements -/

/-- An assignment is read. -/
lemma assignment_leads {name : String} {value : Expression} {span : Span}
    (h : value.Canonical) (hM : ∀ ts ∈ M, EndsExpression ts) :
    assignment.Leads ((Statement.assign name value span).spelling * M) M fun s =>
      s.withoutSpans = (Statement.assign name value span).withoutSpans := by
  unfold assignment
  simp only [Statement.spelling, mul_assoc]
  refine .expect_bind (fun _ ht => ht.1) fun t ht => .expect_bind (fun _ ht => ht) fun _ _ => ?_
  refine (expression_leads h hM).bind fun value' hvalue' => .spanFrom_bind fun span' => .pure ?_
  simp [Statement.withoutSpans, ht.2, hvalue']

/-- A scalar literal is read. -/
lemma scalarLiteral_leads {l : ScalarLiteral} :
    scalarLiteral.Leads (l.spelling * M) M fun l' => l'.withoutSpans = l.withoutSpans :=
  .of_accepts fun _ hts _ _ => scalarLiteral_accepts hts

/-- A pass over a pack is read; its signs end the expressions in it.

**Proof sketch.** The parts are read one behind the other.  The pack ends before the comma, which no
expression goes over; the body ends where `M` says so. -/
lemma passOver_leads {pack body : Expression} {count : ScalarLiteral} {binding : String}
    {span : Span} (hpack : pack.Canonical) (hbody : body.Canonical)
    (hM : ∀ ts ∈ M, EndsExpression ts) :
    passOver.Leads ((Statement.overPack pack count binding body span).spelling * M) M fun s =>
      s.withoutSpans = (Statement.overPack pack count binding body span).withoutSpans := by
  unfold passOver
  simp only [Statement.spelling, mul_assoc]
  refine .expect_bind (fun _ ht => ht) fun start _ => ?_
  have hcomma {L : Language Token} : ∀ ts ∈ sign .comma * L, EndsExpression ts :=
    fun ts hts => endsExpression_of_headKind (.inl (begins_sign ts hts))
  refine (expression_leads hpack hcomma).bind fun pack' hpack' => ?_
  refine .expect_bind (fun _ ht => ht) fun _ _ => scalarLiteral_leads.bind fun count' hcount' => ?_
  refine .expect_bind (fun _ ht => ht) fun _ _ => ?_
  refine .expect_bind (fun _ ht => ht.1) fun name hname => ?_
  refine .expect_bind (fun _ ht => ht) fun _ _ => ?_
  refine (expression_leads hbody hM).bind fun body' hbody' => .spanFrom_bind fun span' => .pure ?_
  simp [Statement.withoutSpans, hpack', hcount', hname.2, hbody']

/-- An expression is read as a statement. -/
lemma expressionStatement_leads {value : Expression} (h : value.Canonical)
    (hM : ∀ ts ∈ M, EndsExpression ts) :
    expressionStatement.Leads (value.spelling * M) M fun s =>
      s.withoutSpans = (Statement.expression value).withoutSpans := by
  unfold expressionStatement
  exact (expression_leads h hM).bind fun value' hvalue' =>
    .pure (congrArg Statement.expression hvalue')

/-- An expression is read as a statement, whatever the kind of its first token.

**Proof sketch.** An expression that begins with `let` is a let-in.  One that begins with a name
does not go on with a left arrow.  No expression begins with `over`, and all others are read as
expressions at once. -/
lemma statement_leads_expression {value : Expression} (h : value.Canonical)
    (hM : ∀ ts ∈ M, EndsExpression ts) :
    statement.Leads (value.spelling * M) M fun s =>
      s.withoutSpans = (Statement.expression value).withoutSpans := by
  refine .of_forall fun ws hws => ?_
  have hle : ({ws} : Language Token) ≤ value.spelling * M := by rintro _ rfl; exact hws
  have hkind : Begins (· = headKind ws) {ws} := by rintro _ rfl; rfl
  unfold statement
  refine .peekKind_bind hkind ?_
  split
  case h_1 hlet =>
    obtain ⟨us, hus, rest, -, rfl⟩ := Language.mem_mul.1 hws
    obtain ⟨name, bound, body, span, rfl⟩ := Expression.Canonical.exists_letIn h hus hlet
    refine ((letForm_leads_letIn h hM).mono_left hle).bind ?_
    rintro _ ⟨e, rfl, he⟩
    exact .pure (congrArg Statement.expression he)
  case h_2 hover => exact absurd hover ((h.begins M).ne_of_test rfl ws hws)
  case h_3 hident =>
    obtain ⟨us, hus, rest, hrest, rfl⟩ := Language.mem_mul.1 hws
    have harrow := Expression.leftArrow_not_second hus (hM rest hrest).arrow hident
    refine .checkAhead_bind (b := false) (by rintro _ rfl; exact beq_eq_false_iff_ne.2 harrow) ?_
    exact (expressionStatement_leads h hM).mono_left hle
  case h_4 => exact (expressionStatement_leads h hM).mono_left hle

/-- **Statements** are read from their spellings, in front of what can stand behind an expression
and does not begin with the word `in`.

**Proof sketch.** By the constructor of the statement.  Its first token tells it, but for an
assignment, which the left arrow behind the name tells. -/
theorem statement_leads {s : Statement} (h : s.Canonical) (hM : ∀ ts ∈ M, EndsExpression ts)
    (hin : Begins (· ≠ .keyword .inKw) M) :
    statement.Leads (s.spelling * M) M fun s' => s'.withoutSpans = s.withoutSpans := by
  cases s with
  | letBinding binding =>
    unfold statement
    refine .peekKind_bind binding.begins ((letForm_leads_binding h hM hin).bind ?_)
    rintro _ ⟨b, rfl, hb⟩
    exact .pure (congrArg Statement.letBinding hb)
  | assign name value span =>
    have hspelling : (Statement.assign name value span).spelling * M
        = word .ident name * (sign .leftArrow * (value.spelling * M)) := by
      simp only [Statement.spelling, mul_assoc]
    have hident : Begins (· = .ident) ((Statement.assign name value span).spelling * M) := by
      rw [hspelling]
      exact begins_word
    unfold statement
    refine .peekKind_bind hident (.checkAhead_bind (b := true) ?_ (assignment_leads h hM))
    intro ts hts
    rw [hspelling] at hts
    obtain ⟨t, _, -, hus, rfl⟩ := mem_token_mul.1 hts
    obtain ⟨arrow, us, harrow, -, rfl⟩ := mem_token_mul.1 hus
    simp [harrow]
  | overPack pack count binding body span =>
    have hover : Begins (· = .keyword .overKw)
        ((Statement.overPack pack count binding body span).spelling * M) := by
      rw [Statement.spelling, mul_assoc]
      exact begins_keyword
    unfold statement
    exact .peekKind_bind hover (passOver_leads h.1 h.2 hM)
  | expression value => exact statement_leads_expression h hM

end Parser

end RakeLang
