import RakeLang.Proofs.Reading.Statement
import RakeLang.Proofs.Rereading.Alongside
import RakeLang.Proofs.Rereading.Spanless

/-!
# Reading statements alongside the whole

The statements of a routine are read from a slice as they are read from the whole, and what stands
inside of them is found in the whole.  A statement begins with an expression, and so the lexer must
not have joined a minus sign at its head with what follows: no statement ends before a minus sign.

## Main results

* `RakeLang.Parser.letForm_alongside` — bindings and let-ins.
* `RakeLang.Parser.statement_alongside` — statements.
-/

set_option relaxedAutoImplicit false
set_option autoImplicit false

namespace RakeLang

open Token Spelling Node

/-! ## Values that match -/

section Matches

variable {α β : Type} {whole : List Token} {strip : α → β} {node : α → Node}

/-- Lists that match one by one are the same up to spans. -/
lemma map_eq_of_matches {as bs : List α} (h : List.Forall₂ (Matches whole strip node) as bs) :
    as.map strip = bs.map strip := by
  induction h with
  | nil => rfl
  | cons hab _ ih => rw [List.map_cons, List.map_cons, hab.1, ih]

/-- What matches one by one is found in the whole. -/
lemma grounded_of_matches {as bs : List α} (h : List.Forall₂ (Matches whole strip node) as bs) :
    ∀ a ∈ as, (node a).Grounded whole := by
  induction h with
  | nil => exact nofun
  | cons hab _ ih => exact List.forall_mem_cons.2 ⟨hab.2, ih⟩

/-- What may be there is the same up to spans, if it matches. -/
lemma map_eq_of_optionMatches {o o' : Option α} (h : Option.Rel (Matches whole strip node) o o') :
    o.map strip = o'.map strip := by
  cases h with
  | none => rfl
  | some hab => exact congrArg some hab.1

/-- What may be there is found in the whole, if it matches. -/
lemma grounded_of_optionMatches {o o' : Option α}
    (h : Option.Rel (Matches whole strip node) o o') : ∀ a ∈ o, (node a).Grounded whole := by
  cases h with
  | none => exact nofun
  | some hab =>
    rintro a ⟨⟩
    exact hab.2

end Matches

namespace Parser

variable {α β γ δ : Type} {whole rest : List Token} {k : Nat} {c d : Cursor}

/-! ## Single tokens -/

section Single

variable {kind : Kind} {Q : γ → δ → Mode → Prop}

/-- Both sides expect a token; behind one that ends no operand an expression can begin. -/
lemma expect_alongside {f : Token → Parser γ} {g : Token → Parser δ} [∀ t, Lowers (f t)]
    (h : (alongside whole rest k).Rel .closed c d) (hkind : kind ≠ .eof)
    (hf : c.peek.kind = kind → c.peek.lexeme = d.peek.lexeme →
      (alongside whole rest k).Rel .closed c.advance d.advance →
      (kind.endsOperand = false → Fresh whole c.advance.ahead) →
      Simulates (alongside whole rest k) (f c.peek) (g d.peek) c.advance d.advance Q) :
    Simulates (alongside whole rest k) (expect kind >>= f) (expect kind >>= g) c d Q := by
  refine .expect_bind h hkind (Mode.clear_of_isBehind rfl _) fun hc hsame hrel => ?_
  exact hf hc hsame.lexeme hrel fun hends =>
    Alongside.fresh_advance h (hc ▸ hkind) (hc ▸ hends)

/-- Both sides read a token, if it stands there. -/
lemma eat_alongside {f : Bool → Parser γ} {g : Bool → Parser δ} [Lowers (f true)]
    (h : (alongside whole rest k).Rel .closed c d) (hkind : kind ≠ .eof)
    (htrue : (alongside whole rest k).Rel .closed c.advance d.advance →
      (kind.endsOperand = false → Fresh whole c.advance.ahead) →
      Simulates (alongside whole rest k) (f true) (g true) c.advance d.advance Q)
    (hfalse : Simulates (alongside whole rest k) (f false) (g false) c d Q) :
    Simulates (alongside whole rest k) (eat kind >>= f) (eat kind >>= g) c d Q := by
  refine .eat_bind h hkind (Mode.clear_of_isBehind rfl _) (fun hc hrel => ?_) fun _ _ => hfalse
  exact htrue hrel fun hends => Alongside.fresh_advance h (hc ▸ hkind) (hc ▸ hends)

/-- The spans on both sides need not be the same. -/
lemma spanFrom_alongside {s s' : Span} {f : Span → Parser γ} {g : Span → Parser δ} {σ : Mode}
    (h : (alongside whole rest k).Rel σ c d)
    (hf : ∀ s s', Simulates (alongside whole rest k) (f s) (g s') c d Q) :
    Simulates (alongside whole rest k) (spanFrom s >>= f) (spanFrom s' >>= g) c d Q :=
  .spanFrom_bind h (fun h : False => h.elim) fun _ _ _ => hf _ _

end Single

/-! ## Types, parameters and scalar literals -/

section Parts

/-- What is read without a split lies in the whole. -/
lemma exists_eq_append_of_reads {us : List Token} {c' : Cursor}
    (h : (alongside whole rest k).Rel .closed c d) (hread : c.Reads Eq us c') :
    ∃ before after, whole = before ++ (us ++ after) := by
  obtain ⟨before, rfl⟩ := Alongside.suffix h
  exact ⟨before, c'.ahead, by rw [hread.ahead]⟩

/-- Types are read alike, and they are found in the whole. -/
lemma dataType_alongside (h : (alongside whole rest k).Rel .closed c d) :
    Simulates (alongside whole rest k) dataType dataType c d fun t t' τ =>
      Matches whole DataType.withoutSpans .dataType t t' ∧ τ = .closed := by
  have hrel : (alongside whole rest k).Rel (.around none (0 + 1) false) c d := h
  refine ((dataType_simulates hrel).and_left
    (P := fun t => (Node.dataType t).Grounded whole) fun t c' hp => ?_).imp ?_
  · obtain ⟨us, hread, hus, hcan⟩ := (dataType_ensures (R := Eq) c).ok t c' hp
    obtain ⟨before, after, hwhole⟩ := exists_eq_append_of_reads h hread
    exact grounded_dataType hcan hwhole hus
  · rintro t t' τ ⟨⟨halike, -, rfl⟩, hgrounded⟩
    exact ⟨⟨halike.1, hgrounded⟩, rfl⟩

/-- Parameters are read alike, and their types are found in the whole.

**Proof sketch.** The parameters are read in step.  That their types are found in the whole follows
from what the reader is known to read: the tokens of all parameters stand in the whole in a row, and
a parameter has its place in that row. -/
lemma parameters_alongside (h : (alongside whole rest k).Rel .closed c d) :
    Simulates (alongside whole rest k) parameters parameters c d fun ps ps' τ =>
      List.Forall₂ (Matches whole Parameter.withoutSpans .parameter) ps ps' ∧ τ = .closed := by
  have hrel : (alongside whole rest k).Rel (.around none 0 false) c d := h
  refine ((parameters_simulates hrel).and_left
    (P := fun ps => ∀ p ∈ ps, (Node.parameter p).Grounded whole) fun ps c' hp => ?_).imp ?_
  · obtain ⟨us, hread, hus, hcan⟩ := (parameters_ensures (R := Eq) c).ok ps c' hp
    obtain ⟨before, after, hwhole⟩ := exists_eq_append_of_reads h hread
    intro p hp
    have hrows : (ps.map Parameter.placed).prod ≤ rows (ps.map .parameter) :=
      prod_le_rows fun p _ => le_rows_singleton (n := .parameter p)
    obtain ⟨inner, vs, outer, rfl, hvs⟩ := (hrows hus).exists_placed (List.mem_map_of_mem hp)
    have hplace : whole = (before ++ inner) ++ (vs ++ (outer ++ after)) := by simp [hwhole]
    exact grounded_parameter (hcan p hp) hplace hvs
  · rintro ps ps' τ ⟨⟨halike, rfl⟩, hgrounded⟩
    refine ⟨?_, rfl⟩
    induction halike with
    | nil => exact .nil
    | cons hp _ ih =>
      rw [List.forall_mem_cons] at hgrounded
      exact .cons ⟨hp.1, hgrounded.1⟩ (ih hgrounded.2)

/-- Scalar literals are read alike, and they are found in the whole as expressions. -/
lemma scalarLiteral_alongside (h : (alongside whole rest k).Rel .closed c d) :
    Simulates (alongside whole rest k) scalarLiteral scalarLiteral c d fun l l' τ =>
      Matches whole ScalarLiteral.withoutSpans (fun l => .expression (.scalar l)) l l'
        ∧ τ = .closed := by
  refine ((scalarLiteral_simulates (Mode.angles_around none 0 false) h).and_left
    (P := fun l => (Node.expression (.scalar l)).Grounded whole) fun l c' hp => ?_).imp ?_
  · obtain ⟨us, hread, hus⟩ := (scalarLiteral_ensures (R := Eq) c).ok l c' hp
    obtain ⟨before, after, hwhole⟩ := exists_eq_append_of_reads h hread
    exact grounded_scalar hwhole hus
  · rintro l l' τ ⟨⟨halike, rfl⟩, hgrounded⟩
    exact ⟨⟨halike.1, hgrounded⟩, rfl⟩

end Parts

/-! ## Bindings -/

/-- A type behind a colon takes from what is ahead. -/
instance : Lowers typeAnnotation? := .of_ensures (R := Eq) typeAnnotation?_ensures

/-- A binding takes from what is ahead. -/
instance : Lowers letBinding := .of_ensures letBinding_ensures

/-- Types behind a colon are read alike, and so are the places where there is none. -/
lemma typeAnnotation?_alongside (h : (alongside whole rest k).Rel .closed c d) :
    Simulates (alongside whole rest k) typeAnnotation? typeAnnotation? c d fun o o' τ =>
      Option.Rel (Matches whole DataType.withoutSpans .dataType) o o' ∧ τ = .closed := by
  unfold typeAnnotation?
  refine eat_alongside h (by simp) (fun hrel _ => ?_) (.pure h ⟨.none, rfl⟩)
  refine (dataType_alongside hrel).bind ?_
  rintro type type' _ c₁ d₁ - - ⟨htype, rfl⟩ hrel
  exact .pure hrel ⟨.some htype, rfl⟩

/-- Bindings are read alike, and what stands inside of them is found in the whole.

**Proof sketch.** The parts are read alike one behind the other.  The children of the binding are
its type, if it has one, and its value, and both are found in the whole. -/
lemma letBinding_alongside (h : (alongside whole rest k).Rel .closed c d) :
    Simulates (alongside whole rest k) letBinding letBinding c d fun b b' τ =>
      Matches whole LetBinding.withoutSpans .letBinding b b' ∧ τ = .closed := by
  unfold letBinding
  refine expect_alongside h (by simp) fun _ _ hrel _ => ?_
  refine expect_alongside hrel (by simp) fun _ hname hrel _ => ?_
  refine (typeAnnotation?_alongside hrel).bind ?_
  rintro type type' _ c₁ d₁ - - ⟨htype, rfl⟩ hrel
  refine expect_alongside hrel (by simp) fun _ _ hrel hfresh => ?_
  refine (expression_alongside hrel (hfresh rfl)).bind ?_
  rintro value value' _ c₂ d₂ - - ⟨hvalue, rfl⟩ hrel
  refine spanFrom_alongside hrel fun s s' => .pure hrel ⟨⟨?_, ?_⟩, rfl⟩
  · simp [LetBinding.withoutSpans, hname, map_eq_of_optionMatches htype, hvalue.1]
  · refine grounded_of_children trivial fun m hm => ?_
    rcases List.mem_append.1 hm with hm | hm
    · obtain ⟨t, ht, rfl⟩ := List.mem_map.1 hm
      exact grounded_of_optionMatches htype t (Option.mem_toList.1 ht)
    · obtain rfl := List.mem_singleton.1 hm
      exact hvalue.2

/-! ### Where statements end -/

section Beyond

variable {start : Span} {name : String} {value : Expression}

/-- A let-in ends where its body does. -/
lemma letBody_beyond (c : Cursor) :
    (letBody expression start name value).Ensures SplitsTo c fun _ _ c' => c'.Beyond Level.all := by
  unfold letBody
  exact (expression_places c).bind fun _ _ _ _ hbody => .spanFrom_bind (.pure hbody.2.2)

/-- A binding ends where its value does. -/
lemma letBinding_beyond (c : Cursor) :
    letBinding.Ensures SplitsTo c fun _ _ c' => c'.Beyond Level.all := by
  unfold letBinding
  refine .expect_bind (by simp) fun start _ => .expect_bind (by simp) fun name _ => ?_
  refine (typeAnnotation?_ensures _).bind fun type _ _ _ _ => .expect_bind (by simp) fun _ _ => ?_
  exact (expression_places _).bind fun _ _ _ _ hvalue => .spanFrom_bind (.pure hvalue.2.2)

/-- What the word `let` begins ends where its last expression does. -/
lemma letForm_beyond (c : Cursor) :
    letForm.Ensures SplitsTo c fun _ _ c' => c'.Beyond Level.all := by
  unfold letForm
  refine (letBinding_beyond c).bind fun binding _ _ _ hbinding => ?_
  split
  · exact .pure hbinding
  · refine .eat_bind (by simp) (fun _ _ => ?_) (.pure hbinding)
    exact (letBody_beyond _).bind fun _ _ _ _ hvalue => .pure hvalue

/-- A statement ends where its last expression does.

**Proof sketch.** By the kind of the first token: each form of a statement ends with an
expression, which reaches as far as it can. -/
lemma statement_beyond (c : Cursor) :
    statement.Ensures SplitsTo c fun _ _ c' => c'.Beyond Level.all := by
  have hexpression : expressionStatement.Ensures SplitsTo c fun _ _ c' => c'.Beyond Level.all :=
    (expression_places c).bind fun _ _ _ _ hvalue => .pure hvalue.2.2
  unfold statement
  apply Ensures.peekKind_bind
  split
  · refine (letForm_beyond c).bind fun form _ _ _ hform => ?_
    rcases form with binding | value
    all_goals exact .pure hform
  · unfold passOver
    refine .expect_bind (by simp) fun start _ => (expression_places _).bind fun _ _ _ _ _ => ?_
    refine .expect_bind (by simp) fun _ _ => (scalarLiteral_ensures _).bind fun _ _ _ _ _ => ?_
    refine .expect_bind (by simp) fun _ _ => .expect_bind (by simp) fun _ _ => ?_
    refine .expect_bind (by simp) fun _ _ => (expression_places _).bind fun _ _ _ _ hbody => ?_
    exact .spanFrom_bind (.pure hbody.2.2)
  · apply Ensures.checkAhead_bind
    split
    · unfold assignment
      refine .expect_bind (by simp) fun name _ => .expect_bind (by simp) fun _ _ => ?_
      exact (expression_places _).bind fun _ _ _ _ hvalue => .spanFrom_bind (.pure hvalue.2.2)
    · exact hexpression
  · exact hexpression

end Beyond

/-! ## Statements -/

/-- The body of a let-in takes from what is ahead. -/
instance {start : Span} {name : String} {value : Expression} :
    Lowers (letBody expression start name value) := by unfold letBody; infer_instance

/-- A statement takes from what is ahead. -/
instance : Lowers statement := .of_ensures statement_ensures

/-- What the word `let` begins, as a part of a tree. -/
def LetForm.node : LetForm → Node
  | binding b => .letBinding b
  | expression value => .expression value

/-- Where there is no type behind a colon, the cursor stays. -/
lemma typeAnnotation?_stays (c : Cursor) :
    typeAnnotation?.Ensures SplitsTo c fun o _ c' => o = none → c' = c := by
  unfold typeAnnotation?
  refine .eat_bind (by simp) (fun _ _ => ?_) (.pure fun _ => rfl)
  exact (dataType_ensures _).bind fun _ _ _ _ _ => .pure nofun

/-- A binding without a type settles as the expression does that it may begin.

**Proof sketch.** The tokens in front of the value settle as they are, and the mode before an
operand stays through `let`, the name and the equals sign.  The value settles by
`expression_settles`. -/
lemma letBinding_settles (c : Cursor) : letBinding.Ensures SplitsTo c fun b _ c' =>
    b.type = none → Settles (.operand 0) c (.behind 0) c' c' := by
  unfold letBinding
  refine .expect_bind_peek (by simp) fun hlet => .expect_bind_peek (by simp) fun hname => ?_
  refine (typeAnnotation?_stays _).bind fun type _ c₁ _ htype => ?_
  refine .expect_bind_peek (by simp) fun hequal => (expression_settles _).bind ?_
  rintro value us c₂ - ⟨-, hvalue⟩
  refine .spanFrom_bind (.pure fun hnone => ?_)
  obtain rfl := htype hnone
  have hsettles := (Settles.refl rfl c : Settles (.operand 0) c (.operand 0) c c).advance rfl
    (by simp [hlet]) rfl
  rw [hlet] at hsettles
  have hsettles := hsettles.advance rfl (by simp [hname]) rfl
  rw [hname] at hsettles
  have hsettles := hsettles.advance rfl (by simp [hequal]) (by rw [hequal]; rfl)
  rw [hequal] at hsettles
  exact hsettles.trans hvalue

/-- What the word `let` begins settles as an expression does, if it is one. -/
lemma letForm_settles (c : Cursor) : letForm.Ensures SplitsTo c fun f _ c' =>
    ∀ e, f = .expression e → Settles (.operand 0) c (.behind 0) c' c' := by
  unfold letForm
  refine (letBinding_settles c).bind fun b _ c₁ _ hb => ?_
  split
  · exact .pure nofun
  · rename_i htype
    refine .eat_bind_peek (by simp) (fun hin => ?_) fun _ => .pure nofun
    have hsettles := (hb (by simpa using htype)).advance rfl (by simp [hin]) (by rw [hin]; rfl)
    rw [hin] at hsettles
    have hbody : (letBody expression b.span b.name b.value).Ensures SplitsTo c₁.advance
        fun _ _ c' => Settles (.operand 0) c₁.advance (.behind 0) c' c' := by
      unfold letBody
      exact (expression_settles _).bind fun _ _ _ _ hbody => .spanFrom_bind (.pure hbody.2)
    exact hbody.bind fun _ _ _ _ hvalue => .pure fun _ _ => hsettles.trans hvalue

/-- The body of a let-in behind its value. -/
lemma letBody_alongside (h : (alongside whole rest k).Rel .closed c d)
    (hfresh : Fresh whole c.ahead) {start start' : Span} (name : String) {value value' : Expression}
    (hvalue : value.withoutSpans = value'.withoutSpans) :
    Simulates (alongside whole rest k) (letBody expression start name value)
      (letBody expression start' name value') c d fun e e' τ =>
        e.withoutSpans = e'.withoutSpans ∧ τ = .closed := by
  unfold letBody
  refine (expression_alongside h hfresh).bind ?_
  rintro body body' _ c₁ d₁ - - ⟨hbody, rfl⟩ hrel
  refine spanFrom_alongside hrel fun s s' => .pure hrel ⟨?_, rfl⟩
  simp [Expression.withoutSpans, hvalue, hbody.1]

/-- **What the word `let` begins** is read alike.  A let-in is found as the expression that it is,
although its parts are read one by one.

**Proof sketch.** Both sides read a binding, and behind it a body or none.  A let-in spells the
tokens from the word `let` on, as the reading of an expression there would split them, so that it is
found as an expression. -/
theorem letForm_alongside (h : (alongside whole rest k).Rel .closed c d)
    (hfresh : Fresh whole c.ahead) :
    Simulates (alongside whole rest k) letForm letForm c d fun f f' τ =>
      Matches whole LetForm.withoutSpans LetForm.node f f' ∧ τ = .closed := by
  have hforms : Simulates (alongside whole rest k) letForm letForm c d fun f f' τ =>
      (f.withoutSpans = f'.withoutSpans
        ∧ ∀ b, f = .binding b → (Node.letBinding b).Grounded whole) ∧ τ = .closed := by
    unfold letForm
    refine (letBinding_alongside h).bind_of_lowers (fun b => by split <;> infer_instance) ?_
    rintro b b' _ c₁ d₁ - - ⟨hb, rfl⟩ hrel
    have hbinding : Simulates (alongside whole rest k) (Pure.pure (LetForm.binding b))
        (Pure.pure (LetForm.binding b')) c₁ d₁ fun f f' τ => (f.withoutSpans = f'.withoutSpans
          ∧ ∀ b, f = .binding b → (Node.letBinding b).Grounded whole) ∧ τ = .closed :=
      .pure hrel ⟨⟨congrArg LetForm.binding hb.1, by rintro _ ⟨⟩; exact hb.2⟩, rfl⟩
    have hparts := hb.1
    simp only [LetBinding.withoutSpans, LetBinding.mk.injEq] at hparts
    obtain ⟨hname, htype, hvalue, -⟩ := hparts
    have hsome : b'.type.isSome = b.type.isSome := by simpa using congrArg Option.isSome htype.symm
    rw [hsome, ← hname]
    split
    · exact hbinding
    · refine eat_alongside hrel (by simp) (fun hrel hfresh => ?_) hbinding
      refine (letBody_alongside hrel (hfresh rfl) b.name hvalue).bind ?_
      rintro value value' _ c₂ d₂ - - ⟨hvalue, rfl⟩ hrel
      exact .pure hrel ⟨⟨congrArg LetForm.expression hvalue, nofun⟩, rfl⟩
  refine (hforms.and_left (P := fun f => ∀ e, f = .expression e →
    (Node.expression e).Grounded whole) fun f c' hf => ?_).imp ?_
  · rintro e rfl
    obtain ⟨us, hread, ⟨hus, hcan⟩, hsettles⟩ :=
      ((letForm_ensures c).and (letForm_settles c)).ok (.expression e) c' hf
    exact grounded_of_settles (hsettles e rfl) hread hus hcan (Alongside.suffix h) hfresh
  · rintro f f' τ ⟨⟨⟨hstrip, hbinding⟩, rfl⟩, hexpression⟩
    refine ⟨⟨hstrip, ?_⟩, rfl⟩
    cases f with
    | binding b => exact hbinding b rfl
    | expression e => exact hexpression e rfl

/-- Assignments are read alike, and their values are found in the whole. -/
lemma assignment_alongside (h : (alongside whole rest k).Rel .closed c d) :
    Simulates (alongside whole rest k) assignment assignment c d fun s s' τ =>
      Matches whole Statement.withoutSpans .statement s s' ∧ τ = .closed := by
  unfold assignment
  refine expect_alongside h (by simp) fun _ hname hrel _ => ?_
  refine expect_alongside hrel (by simp) fun _ _ hrel hfresh => ?_
  refine (expression_alongside hrel (hfresh rfl)).bind ?_
  rintro value value' _ c₁ d₁ - - ⟨hvalue, rfl⟩ hrel
  refine spanFrom_alongside hrel fun s s' => .pure hrel ⟨⟨?_, ?_⟩, rfl⟩
  · simp [Statement.withoutSpans, hname, hvalue.1]
  · exact grounded_of_children trivial (List.forall_mem_singleton.2 hvalue.2)

/-- Passes over packs are read alike, and the expressions in them are found in the whole.

**Proof sketch.** The parts are read alike one behind the other, and the children of the
statement are the pack, the count and the body. -/
lemma passOver_alongside (h : (alongside whole rest k).Rel .closed c d) :
    Simulates (alongside whole rest k) passOver passOver c d fun s s' τ =>
      Matches whole Statement.withoutSpans .statement s s' ∧ τ = .closed := by
  unfold passOver
  refine expect_alongside h (by simp) fun _ _ hrel hfresh => ?_
  refine (expression_alongside hrel (hfresh rfl)).bind ?_
  rintro pack pack' _ c₁ d₁ - - ⟨hpack, rfl⟩ hrel
  refine expect_alongside hrel (by simp) fun _ _ hrel _ => ?_
  refine (scalarLiteral_alongside hrel).bind ?_
  rintro count count' _ c₂ d₂ - - ⟨hcount, rfl⟩ hrel
  refine expect_alongside hrel (by simp) fun _ _ hrel _ => ?_
  refine expect_alongside hrel (by simp) fun _ hbinding hrel _ => ?_
  refine expect_alongside hrel (by simp) fun _ _ hrel hfresh => ?_
  refine (expression_alongside hrel (hfresh rfl)).bind ?_
  rintro body body' _ c₃ d₃ - - ⟨hbody, rfl⟩ hrel
  refine spanFrom_alongside hrel fun s s' => .pure hrel ⟨⟨?_, ?_⟩, rfl⟩
  · simp [Statement.withoutSpans, hpack.1, hcount.1, hbinding, hbody.1]
  · refine grounded_of_children trivial ?_
    simp [Node.children, hpack.2, hcount.2, hbody.2]

/-- Expressions as statements are read alike, and they are found in the whole. -/
lemma expressionStatement_alongside (h : (alongside whole rest k).Rel .closed c d)
    (hfresh : Fresh whole c.ahead) :
    Simulates (alongside whole rest k) expressionStatement expressionStatement c d fun s s' τ =>
      Matches whole Statement.withoutSpans .statement s s' ∧ τ = .closed := by
  unfold expressionStatement
  refine (expression_alongside h hfresh).bind ?_
  rintro value value' _ c₁ d₁ - - ⟨hvalue, rfl⟩ hrel
  exact .pure hrel ⟨⟨congrArg Statement.expression hvalue.1,
    grounded_of_children trivial (List.forall_mem_singleton.2 hvalue.2)⟩, rfl⟩

/-! ### Telling statements apart -/

/-- What the word `let` begins takes a token. -/
lemma strict_letForm (c : Cursor) : Strict letForm c :=
  .of_ensures (letForm_ensures c) fun f _ _ hf => by
    rcases f with b | value
    · exact ne_nil_of_covering hf.1
    · exact value.ne_nil_of_placed hf.1

/-- A statement is spelled by at least one token. -/
lemma ne_nil_of_statement {s : Statement} {ts : List Token} (h : ts ∈ s.placed) : ts ≠ [] := by
  rcases s with b | ⟨name, value, span⟩ | ⟨pack, count, binding, body, span⟩ | value
  · exact ne_nil_of_covering h
  · exact ne_nil_of_covering h
  · exact ne_nil_of_covering h
  · exact value.ne_nil_of_placed h

/-- A statement takes a token. -/
lemma strict_statement (c : Cursor) : Strict statement c :=
  .of_ensures (statement_ensures c) fun _ _ _ hs => ne_nil_of_statement hs.1

/-- Behind its name an assignment reads an arrow at least. -/
lemma remaining_assignment {s : Statement} {c' : Cursor} (h : assignment c = .ok s c') :
    c'.remaining < c.advance.remaining := by
  obtain ⟨name, c₁, hname, hrest⟩ := bind_eq_ok.1 h
  obtain ⟨-, -, rfl⟩ := expect_eq_ok.1 hname
  exact (strict_expect (by simp)).bind s c' hrest

/-- Statements are read alike, and what stands inside of them is found in the whole.

**Proof sketch.** A statement takes a token, so that the same one stands on both sides and they read
the same form. -/
theorem statement_alongside (h : (alongside whole rest k).Rel .closed c d)
    (hfresh : Fresh whole c.ahead) :
    Simulates (alongside whole rest k) statement statement c d fun s s' τ =>
      Matches whole Statement.withoutSpans .statement s s' ∧ τ = .closed := by
  refine .of_strict_of_isBehind h rfl (strict_statement c) fun hsame => ?_
  unfold statement
  refine .peekKind_bind ?_
  rw [← hsame.kind]
  split
  · refine (letForm_alongside h hfresh).bind_of_lowers (fun f => by cases f <;> infer_instance) ?_
    rintro f f' _ c₁ d₁ - - ⟨hf, rfl⟩ hrel
    obtain ⟨hstrip, hgrounded⟩ := hf
    rcases f with b | value <;> rcases f' with b' | value' <;>
      simp only [LetForm.withoutSpans, LetForm.binding.injEq, LetForm.expression.injEq,
        reduceCtorEq] at hstrip
    · exact .pure hrel ⟨⟨congrArg Statement.letBinding hstrip,
        grounded_of_children trivial (List.forall_mem_singleton.2 hgrounded)⟩, rfl⟩
    · exact .pure hrel ⟨⟨congrArg Statement.expression hstrip,
        grounded_of_children trivial (List.forall_mem_singleton.2 hgrounded)⟩, rfl⟩
  · exact passOver_alongside h
  · rename_i hc
    refine .checkAhead_cases h hsame (by simp [hc]) rfl (by simp) (Mode.clear_of_isBehind rfl _)
      (fun _ _ => assignment_alongside h) (fun _ s c' => remaining_assignment) fun _ _ => ?_
    exact expressionStatement_alongside h hfresh
  · exact expressionStatement_alongside h hfresh

end Parser

end RakeLang
