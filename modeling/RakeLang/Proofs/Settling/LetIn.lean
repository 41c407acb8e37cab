import RakeLang.Proofs.Accepting.ScalarTrial
import RakeLang.Proofs.Rereading.Rake
import RakeLang.Proofs.Settling.Comparison

/-!
# Let-ins among expressions and among statements

The word `let` begins a let-in where an expression stands, and a binding or a let-in where a
statement stands.  A statement is read as a binding first, whose span ends at the value, and only
the word `in` makes it the beginning of a let-in; and it is not followed by a look for operators,
as every operand of an expression is.  Both readers see the same let-in nevertheless.  Its body
reaches as far as an expression can, so that no operator stands behind it and nothing is left to
split there, and the spans of both cover the tokens that were read.

## Main definitions

* `RakeLang.Parser.Bindings` — the bindings between two cursors.

## Main results

* `RakeLang.Parser.expression_splits` — behind an expression nothing is left to split.
* `RakeLang.Parser.expression_eq_letIn_iff` — an expression that begins with the word `let`.
* `RakeLang.Parser.letForm_eq_letIn_iff` — a let-in that begins as a binding.
* `RakeLang.Parser.throughBody_eq_ok_iff` — the bindings and the value of a through block.
* `RakeLang.Parser.letIn_agrees` — the let-ins of expressions, statements and through blocks agree.
-/

set_option relaxedAutoImplicit false
set_option autoImplicit false

namespace RakeLang

open Token Spelling

namespace Parser

variable {c c' : Cursor} {e : Expression}

/-! ## Operands with no operator behind them -/

/-- A chain of operators that begins with a look for one leaves nothing to split behind it.

**Proof sketch.** The loop stops behind a look for an operator that found none, and such a look
splits first.  At the end of the input there is nothing to split. -/
lemma binary_splits {operand : Parser Expression} {Q : Expression → List Token → Cursor → Prop}
    {level : Level} {tighter : List Level}
    (hoperand : ∀ c, (binary operand tighter).Ensures SplitsTo c Q) (c : Cursor) :
    (binary operand (level :: tighter)).Ensures SplitsTo c fun _ _ c' => c'.splitInfix = c' := by
  rw [binary, leftAssoc_eq]
  refine (hoperand c).bind fun first _ c₁ _ _ => ?_
  refine (Ensures.many_stops (fun c => ?_) (fun c hc => ?_) c₁).bind
    fun _ _ _ _ hstop => .pure hstop
  · refine (binaryOperator?_ensures c).bind fun o ts c₂ _ ho => ?_
    rcases o with _ | op
    · obtain ⟨-, rfl, -⟩ := ho
      exact .pure ⟨by simp, fun _ => c.splitInfix_splitInfix⟩
    · refine (hoperand c₂).bind fun rhs us c₃ _ _ => .pure ⟨fun _ hnil => ?_, by simp⟩
      obtain rfl : ts = [] := by simp_all
      exact nil_notMem_token ho.2.1
  · have heof := Cursor.peek_kind_of_ahead_nil hc
    exact Cursor.splitInfix_of_peek (by simp [isSignedNumber, Kind.isNumber, heof]) (by simp [heof])

/-- Behind an expression nothing is left to split. -/
theorem expression_splits (h : expression c = .ok e c') : c'.splitInfix = c' := by
  have hoperand (c : Cursor) : (operand .full expression).Ensures SplitsTo c (Single .full) :=
    operand_ensures expression_places c
  have hchain := binary_ensures hoperand
    [.or, .and, .compare, .additive, .multiplicative, .shift, .cross] (by decide)
  obtain ⟨-, -, hsplit⟩ := (binary_splits hchain c).ok e c' (expression_eq_ok_iff.1 h)
  exact hsplit

/-- Where no operator stands and nothing is left to split, none is found. -/
lemma binaryOperator?_of_beyond (h : c.Beyond Level.all) (hsplit : c.splitInfix = c)
    (level : Level) : binaryOperator? level c = .ok none c := by
  have hmodify : (modify Cursor.splitInfix : Parser Unit) c = .ok () c := by
    change EStateM.Result.ok () c.splitInfix = _
    rw [hsplit]
  rw [binaryOperator?, bind_of_ok hmodify, bind_of_ok (p := peekKind) rfl]
  rcases hop : c.peek.kind.binaryOp? with _ | op
  · rfl
  · exact absurd (Level.mem_all _) (h op (hsplit.symm ▸ hop))

/-- An operand with no operator behind it is a chain. -/
lemma binary_of_stops {operand : Parser Expression} (h : operand c = .ok e c')
    (hstop : ∀ level, binaryOperator? level c' = .ok none c') (levels : List Level) :
    binary operand levels c = .ok e c' := by
  induction levels with
  | nil => exact h
  | cons level tighter ih =>
    exact leftAssoc_eq_ok_iff.2 ⟨e, c', [], ih,
      bind_eq_ok.2 ⟨none, c', link_eq_none_iff.2 (hstop level), rfl⟩, rfl⟩

/-! ## Let-ins as expressions -/

section LetIn

variable (hlet : c.peek.kind = .keyword .letKw)

include hlet

/-- An operand that begins with the word `let` is a let-in. -/
lemma operand_of_let (inner : Parser Expression) :
    operand .full inner c = Parser.letIn inner c := by
  have hunary : many unaryOperator? c = .ok [] c := by
    refine bind_eq_ok.2 ⟨none, c, ?_, rfl⟩
    rw [unaryOperator?, bind_of_ok (p := peekKind) rfl, hlet]
    rfl
  have hbare : bareOperand .full inner c = Parser.letIn inner c := by
    rw [bareOperand, bind_of_ok (p := peekKind) rfl, hlet]
  rw [operand, prefixed, bind_of_ok hunary]
  rcases hrun : Parser.letIn inner c with ⟨e, c'⟩ | ⟨fault, c'⟩
  · rw [bind_of_ok (hbare.trans hrun)]
    rfl
  · rw [bind_of_error (hbare.trans hrun)]

/-- An expression that begins with the word `let` is a let-in, which no operator follows. -/
theorem expression_eq_letIn_iff :
    expression c = .ok e c' ↔ Parser.letIn expression c = .ok e c' := by
  rw [expression_eq_ok_iff, expressionWith]
  rcases hrun : Parser.letIn expression c with ⟨value, c₁⟩ | ⟨fault, c₁⟩
  · obtain ⟨start, c₂, -, h⟩ := bind_eq_ok.1 hrun
    obtain ⟨name, c₃, -, h⟩ := bind_eq_ok.1 h
    obtain ⟨equal, c₄, -, h⟩ := bind_eq_ok.1 h
    obtain ⟨bound, c₅, -, h⟩ := bind_eq_ok.1 h
    obtain ⟨word, c₆, -, h⟩ := bind_eq_ok.1 h
    obtain ⟨body, c₇, hbody, h⟩ := bind_eq_ok.1 h
    obtain ⟨-, rfl⟩ := EStateM.Result.ok.inj h
    obtain ⟨-, -, -, -, hbeyond⟩ := (expression_places c₆).ok body c₇ hbody
    rw [binary_of_stops ((operand_of_let hlet expression).trans hrun)
      (binaryOperator?_of_beyond hbeyond (expression_splits hbody)) Level.all]
  · rw [binary_of_error ((operand_of_let hlet expression).trans hrun) Level.all]

end LetIn

/-! ## Let-ins as statements -/

/-- What is read from a text stands in the order of the text. -/
lemma inOrder_of_reads {source : String} {read : List Token} (hc : c.Over source)
    (hread : c.Reads SplitsTo read c') : InOrder read := by
  have hin := (hc.reads hread).faithful.1.inOrder
  rw [Cursor.buffer, hread.past, List.reverse_append, List.reverse_reverse] at hin
  exact hin.append.1.append.2

/-- A look for a type that finds none stays where it is. -/
lemma eq_of_typeAnnotation?_none (h : typeAnnotation? c = .ok none c') : c' = c := by
  obtain ⟨-, -, hstays⟩ := (typeAnnotation?_stays c).ok none c' h
  exact hstays rfl

/-- A let-in among expressions is a binding without a type, the word `in` and a body.

**Proof sketch.** The parts of a let-in, up to the word `in`, are those of a binding without a type,
read one after the other.  Conversely, a binding without a type has no colon behind its name. -/
lemma letIn_eq_ok_iff : Parser.letIn expression c = .ok e c' ↔
    ∃ b c₁, letBinding c = .ok b c₁ ∧ b.type = none ∧ c₁.peek.kind = .keyword .inKw
      ∧ letBody expression c.peek.span b.name b.value c₁.advance = .ok e c' := by
  constructor
  · intro h
    obtain ⟨start, c₁, hstart, h⟩ := bind_eq_ok.1 h
    obtain ⟨name, c₂, hname, h⟩ := bind_eq_ok.1 h
    obtain ⟨equal, c₃, hequal, h⟩ := bind_eq_ok.1 h
    obtain ⟨value, c₄, hvalue, h⟩ := bind_eq_ok.1 h
    obtain ⟨word, c₅, hword, h⟩ := bind_eq_ok.1 h
    obtain ⟨-, rfl, -⟩ := expect_eq_ok.1 hstart
    obtain ⟨hin, -, rfl⟩ := expect_eq_ok.1 hword
    have htype : typeAnnotation? c₂ = .ok none c₂ := by
      have hcolon : c₂.peek.kind ≠ .symbol .colon := by simp [(expect_eq_ok.1 hequal).1]
      exact bind_eq_ok.2 ⟨false, c₂, eat_of_ne hcolon, rfl⟩
    refine ⟨⟨name.lexeme, none, value, c.peek.span.merge c₄.previousSpan⟩, c₄, ?_, rfl, hin, h⟩
    exact bind_eq_ok.2 ⟨_, c₁, hstart, bind_eq_ok.2 ⟨name, c₂, hname,
      bind_eq_ok.2 ⟨none, c₂, htype, bind_eq_ok.2 ⟨equal, c₃, hequal,
        bind_eq_ok.2 ⟨value, c₄, hvalue, rfl⟩⟩⟩⟩⟩
  · rintro ⟨b, c₁, hb, htype, hin, h⟩
    obtain ⟨start, c₂, hstart, hb⟩ := bind_eq_ok.1 hb
    obtain ⟨name, c₃, hname, hb⟩ := bind_eq_ok.1 hb
    obtain ⟨type, c₄, hann, hb⟩ := bind_eq_ok.1 hb
    obtain ⟨equal, c₅, hequal, hb⟩ := bind_eq_ok.1 hb
    obtain ⟨value, c₆, hvalue, hb⟩ := bind_eq_ok.1 hb
    obtain ⟨rfl, rfl⟩ := EStateM.Result.ok.inj hb
    obtain rfl : type = none := htype
    obtain rfl := eq_of_typeAnnotation?_none hann
    obtain ⟨-, rfl, -⟩ := expect_eq_ok.1 hstart
    exact bind_eq_ok.2 ⟨_, c₂, hstart, bind_eq_ok.2 ⟨name, c₄, hname, bind_eq_ok.2 ⟨equal, c₅,
      hequal, bind_eq_ok.2 ⟨value, c₆, hvalue, bind_eq_ok.2 ⟨_, _, expect_of_eq hin, h⟩⟩⟩⟩⟩

/-- A let-in among statements is a binding without a type, the word `in` and a body; its span is
counted from the span of the binding.

**Proof sketch.** Both directions follow the reader: it reads a binding, asks whether it has a type,
and looks for the word `in`.  A let-in is returned on one of its paths only. -/
lemma letForm_eq_expression_iff : letForm c = .ok (.expression e) c' ↔
    ∃ b c₁, letBinding c = .ok b c₁ ∧ b.type = none ∧ c₁.peek.kind = .keyword .inKw
      ∧ letBody expression b.span b.name b.value c₁.advance = .ok e c' := by
  constructor
  · intro h
    obtain ⟨b, c₁, hb, h⟩ := bind_eq_ok.1 h
    by_cases htype : b.type.isSome
    · rw [if_pos htype] at h
      cases h
    rw [if_neg htype] at h
    by_cases hin : c₁.peek.kind = .keyword .inKw
    · rw [bind_of_ok (eat_of_eq hin), if_pos rfl] at h
      obtain ⟨value, c₂, hvalue, h⟩ := bind_eq_ok.1 h
      obtain ⟨⟨⟩, rfl⟩ := EStateM.Result.ok.inj h
      exact ⟨b, c₁, hb, by simpa using htype, hin, hvalue⟩
    · rw [bind_of_ok (eat_of_ne hin)] at h
      cases h
  · rintro ⟨b, c₁, hb, htype, hin, h⟩
    refine bind_eq_ok.2 ⟨b, c₁, hb, ?_⟩
    rw [if_neg (by simp [htype]), bind_of_ok (eat_of_eq hin), if_pos rfl, bind_of_ok h]
    rfl

/-- What follows the value of a let-in is read alike, wherever its span is counted from. -/
lemma letBody_restart {start : Span} {name : String} {value : Expression} (start' : Span)
    (h : letBody expression start name value c = .ok e c') :
    ∃ e', letBody expression start' name value c = .ok e' c' ∧ (e'.span = e.span → e' = e) := by
  obtain ⟨body, c₁, hbody, h⟩ := bind_eq_ok.1 h
  obtain ⟨rfl, rfl⟩ := EStateM.Result.ok.inj h
  refine ⟨_, bind_eq_ok.2 ⟨body, c₁, hbody, rfl⟩, fun hspan => ?_⟩
  exact congrArg (Expression.letIn name value body) hspan

/-- Both spans of a let-in cover the tokens that were read. -/
lemma span_eq_of_letForm {source : String} {e' : Expression} (hc : c.Over source)
    (h : letForm c = .ok (.expression e) c') (h' : Parser.letIn expression c = .ok e' c') :
    e.span = e'.span := by
  obtain ⟨read, hread, hplaced, -⟩ := (letForm_ensures c).ok _ c' h
  obtain ⟨read', hread', ⟨hplaced', -⟩, -⟩ := (letIn_ensures expression_places c).ok e' c' h'
  obtain rfl := hread.unique hread'
  have hin := inOrder_of_reads hc hread
  obtain ⟨first, hfirst, last, hlast, hspan⟩ := e.covers_of_placed hplaced hin
  obtain ⟨first', hfirst', last', hlast', hspan'⟩ := e'.covers_of_placed hplaced' hin
  obtain rfl := Option.mem_unique hfirst hfirst'
  obtain rfl := Option.mem_unique hlast hlast'
  rw [hspan, hspan']

/-- A let-in that begins as a binding is the let-in of expressions, with the same span. -/
theorem letForm_eq_letIn_iff {source : String} (hc : c.Over source) :
    letForm c = .ok (.expression e) c' ↔ Parser.letIn expression c = .ok e c' := by
  constructor
  · intro h
    obtain ⟨b, c₁, hb, htype, hin, hbody⟩ := letForm_eq_expression_iff.1 h
    obtain ⟨e', hbody', heq⟩ := letBody_restart c.peek.span hbody
    have h' := letIn_eq_ok_iff.2 ⟨b, c₁, hb, htype, hin, hbody'⟩
    rwa [← heq (span_eq_of_letForm hc h h').symm]
  · intro h
    obtain ⟨b, c₁, hb, htype, hin, hbody⟩ := letIn_eq_ok_iff.1 h
    obtain ⟨e', hbody', heq⟩ := letBody_restart b.span hbody
    have h' := letForm_eq_expression_iff.2 ⟨b, c₁, hb, htype, hin, hbody'⟩
    rwa [← heq (span_eq_of_letForm hc h' h)]

/-- A statement that begins with the word `let` is an expression just if that word begins a
let-in. -/
lemma statement_eq_letForm_iff (hlet : c.peek.kind = .keyword .letKw) :
    statement c = .ok (.expression e) c' ↔ letForm c = .ok (.expression e) c' := by
  rw [statement, bind_of_ok (p := peekKind) rfl, hlet]
  constructor
  · intro h
    obtain ⟨form, c₁, hform, h⟩ := bind_eq_ok.1 h
    rcases form with b | value
    · cases h
    · obtain ⟨⟨⟩, rfl⟩ := EStateM.Result.ok.inj h
      exact hform
  · exact fun h => bind_eq_ok.2 ⟨.expression e, c', h, rfl⟩

/-! ## Bindings and the value behind them -/

/-- The bindings `setup` stand between the two cursors, one behind the other. -/
inductive Bindings : Cursor → List LetBinding → Cursor → Prop
  | nil (c : Cursor) : Bindings c [] c
  | cons {b : LetBinding} {setup : List LetBinding} {c c₁ c₂ : Cursor}
      (head : letForm c = .ok (.binding b) c₁) (tail : Bindings c₁ setup c₂) :
      Bindings c (b :: setup) c₂

/-- What the word `let` begins stands only where that word does. -/
lemma kind_of_letForm {form : LetForm} (h : letForm c = .ok form c') :
    c.peek.kind = .keyword .letKw := by
  obtain ⟨b, c₁, hb, -⟩ := bind_eq_ok.1 h
  exact kind_of_expect_bind hb

variable {source : String} {setup : List LetBinding} {value : Expression}

/-- Behind what the word `let` begins stands a cursor of the text, with less ahead. -/
lemma over_of_letForm {form : LetForm} (hc : c.Over source) (h : letForm c = .ok form c') :
    c'.Over source ∧ c'.remaining < c.remaining := by
  obtain ⟨read, hread, -⟩ := (letForm_ensures c).ok form c' h
  exact ⟨hc.reads hread, strict_letForm c form c' h⟩

/-- Behind bindings of a text stands a cursor of the text. -/
lemma Bindings.over (h : Bindings c setup c') (hc : c.Over source) : c'.Over source := by
  induction h with
  | nil => exact hc
  | cons head _ ih => exact ih (over_of_letForm hc head).1

/-- Where no word `let` stands there are no bindings, and the value is an expression. -/
lemma throughValue_eq_ok_iff (hc : c.peek.kind ≠ .keyword .letKw) :
    throughValue c = .ok (setup, value) c' ↔
      ∃ c₁, Bindings c setup c₁ ∧ expression c₁ = .ok value c' := by
  constructor
  · intro h
    obtain ⟨value', c₁, hvalue, h⟩ := bind_eq_ok.1 h
    obtain ⟨⟨⟩, rfl⟩ := EStateM.Result.ok.inj h
    exact ⟨c, .nil c, hvalue⟩
  · rintro ⟨c₁, hbindings, hvalue⟩
    cases hbindings with
    | nil => exact bind_eq_ok.2 ⟨value, c', hvalue, rfl⟩
    | cons head _ => exact absurd (kind_of_letForm head) hc

/-- With a bound that is not below what remains ahead, the bound cuts nothing short.

**Proof sketch.** Induction on the bound: each binding lowers what remains.  A let-in ends the
  bindings, and is the value that an expression in its place would be. -/
lemma throughBodyUpTo_eq_ok_iff (n : Nat) : ∀ {c : Cursor} {setup : List LetBinding},
    c.Over source → c.remaining ≤ n →
      (throughBodyUpTo n c = .ok (setup, value) c' ↔
        ∃ c₁, Bindings c setup c₁ ∧ expression c₁ = .ok value c') := by
  induction n with
  | zero =>
    intro c setup hc hn
    have hnil := Cursor.ahead_eq_nil_of_remaining (c := c) (by omega)
    have hne : c.peek.kind ≠ .keyword .letKw := by simp [Cursor.peek_kind_of_ahead_nil hnil]
    rw [throughBodyUpTo_of_ne 0 hne]
    exact throughValue_eq_ok_iff hne
  | succ n ih =>
    intro c setup hc hn
    by_cases hlet : c.peek.kind = .keyword .letKw
    swap
    · rw [throughBodyUpTo_of_ne (n + 1) hlet]
      exact throughValue_eq_ok_iff hlet
    rw [throughBodyUpTo_of_let n hlet]
    constructor
    · intro h
      obtain ⟨form, c₁, hform, h⟩ := bind_eq_ok.1 h
      rcases form with b | e
      · obtain ⟨⟨setup', value'⟩, c₂, hrest, h⟩ := bind_eq_ok.1 h
        obtain ⟨⟨⟩, rfl⟩ := EStateM.Result.ok.inj h
        obtain ⟨hc₁, hlt⟩ := over_of_letForm hc hform
        obtain ⟨c₂, hbindings, hvalue⟩ := (ih hc₁ (by omega)).1 hrest
        exact ⟨c₂, .cons hform hbindings, hvalue⟩
      · -- the let-in is the value itself
        obtain ⟨⟨⟩, rfl⟩ := EStateM.Result.ok.inj h
        exact ⟨c, .nil c, (expression_eq_letIn_iff hlet).2 ((letForm_eq_letIn_iff hc).1 hform)⟩
    · rintro ⟨c₁, hbindings, hvalue⟩
      cases hbindings with
      | nil =>
        have hform := (letForm_eq_letIn_iff hc).2 ((expression_eq_letIn_iff hlet).1 hvalue)
        exact bind_eq_ok.2 ⟨_, c', hform, rfl⟩
      | @cons b setup _ c₂ _ head tail =>
        obtain ⟨hc₂, hlt⟩ := over_of_letForm hc head
        have hrest := (ih hc₂ (by omega)).2 ⟨c₁, tail, hvalue⟩
        exact bind_eq_ok.2 ⟨_, c₂, head, bind_eq_ok.2 ⟨(setup, value), c', hrest, rfl⟩⟩

/-- The body of a through block: bindings as long as there are some, and an expression. -/
theorem throughBody_eq_ok_iff (hc : c.Over source) :
    throughBody c = .ok (setup, value) c' ↔
      ∃ c₁, Bindings c setup c₁ ∧ expression c₁ = .ok value c' :=
  throughBodyUpTo_eq_ok_iff c.remaining hc le_rfl

/-- A through block has its body between a colon and an arrow.

**Proof sketch.** The success of the block gives the success of each of its parts.  The tokens that
are read up to the body end with the colon that was expected there, and the arrow was expected
behind the body. -/
lemma body_of_throughBlock {b : ThroughBlock} (h : throughBlock c = .ok b c') :
    ∃ c₁ c₂ read, c.Reads SplitsTo read c₁ ∧ (∃ colon ∈ read.getLast?, colon.kind = .symbol .colon)
      ∧ throughBody c₁ = .ok (b.setup, b.value) c₂ ∧ c₂.peek.kind = .symbol .arrow := by
  obtain ⟨start, d₁, hstart, h⟩ := bind_eq_ok.1 h
  obtain ⟨guard, d₂, hguard, h⟩ := bind_eq_ok.1 h
  obtain ⟨constant, d₃, hconstant, h⟩ := bind_eq_ok.1 h
  obtain ⟨colon, c₁, hcolon, h⟩ := bind_eq_ok.1 h
  obtain ⟨⟨setup, value⟩, c₂, hbody, h⟩ := bind_eq_ok.1 h
  obtain ⟨arrow, d₄, harrow, h⟩ := bind_eq_ok.1 h
  obtain ⟨name, d₅, hname, h⟩ := bind_eq_ok.1 h
  obtain ⟨span, d₆, hspan, h⟩ := bind_eq_ok.1 h
  obtain ⟨rfl, rfl⟩ := EStateM.Result.ok.inj h
  obtain ⟨hthrough, -, rfl⟩ := expect_eq_ok.1 hstart
  obtain ⟨ts, hts, -⟩ := (throughGuard_ensures _).ok guard d₂ hguard
  obtain ⟨us, hus, -⟩ := (fallback?_ensures d₂).ok constant d₃ hconstant
  obtain ⟨hkind, -, rfl⟩ := expect_eq_ok.1 hcolon
  have hread := (((Cursor.reads_advance (by simp [hthrough])).trans hts).trans hus).trans
    (Cursor.reads_advance (by simp [hkind]))
  exact ⟨_, c₂, _, hread, ⟨d₃.peek, List.getLast?_concat .., hkind⟩, hbody,
    (expect_eq_ok.1 harrow).1⟩

/-- **Let-ins agree.**  At any cursor in the tokens of a text, with any of them split:

* where the word `let` stands, an expression is read just if a statement is read that is an
  expression, the same one with the same spans, and both leave the same cursor behind;
* the body of a through block is read just if bindings are read and an expression behind them, and
  has that expression for its value, which may begin with the word `let`;
* a through block has such a body between a colon and an arrow, and a value that begins with the
  word `let` is the expression that a statement in its place would be.

**Proof sketch.** At the word `let` the expression is a let-in and the statement a let form, each of
which begins with the same binding; `letForm_eq_letIn_iff` says that the two agree from there.  A
through block reads its body between the colon and the arrow (`body_of_throughBlock`), and its value
is an expression at a cursor over the same text, to which the first part applies. -/
theorem letIn_agrees (hc : c.Over source) :
    (c.peek.kind = .keyword .letKw →
      ∀ e c', expression c = .ok e c' ↔ statement c = .ok (.expression e) c')
      ∧ (∀ setup value c', throughBody c = .ok (setup, value) c' ↔
        ∃ c₁, Bindings c setup c₁ ∧ expression c₁ = .ok value c')
      ∧ ∀ b c', throughBlock c = .ok b c' → ∃ c₁ c₂ c₃ read, c.Reads SplitsTo read c₁
        ∧ (∃ colon ∈ read.getLast?, colon.kind = .symbol .colon)
        ∧ Bindings c₁ b.setup c₂ ∧ expression c₂ = .ok b.value c₃
        ∧ (c₂.peek.kind = .keyword .letKw → statement c₂ = .ok (.expression b.value) c₃)
        ∧ c₃.peek.kind = .symbol .arrow := by
  have hagree {c : Cursor} (hc : c.Over source) (hlet : c.peek.kind = .keyword .letKw)
      (e : Expression) (c' : Cursor) :
      expression c = .ok e c' ↔ statement c = .ok (.expression e) c' := by
    rw [expression_eq_letIn_iff hlet, statement_eq_letForm_iff hlet, letForm_eq_letIn_iff hc]
  refine ⟨hagree hc, fun setup value c' => throughBody_eq_ok_iff hc, fun b c' h => ?_⟩
  obtain ⟨c₁, c₃, read, hread, hcolon, hbody, harrow⟩ := body_of_throughBlock h
  have hc₁ := hc.reads hread
  obtain ⟨c₂, hbindings, hvalue⟩ := (throughBody_eq_ok_iff hc₁).1 hbody
  refine ⟨c₁, c₂, c₃, read, hread, hcolon, hbindings, hvalue, fun hlet => ?_, harrow⟩
  exact (hagree (hbindings.over hc₁) hlet _ _).1 hvalue

/-- Behind the let-in the arrow falls into a comparison and a sign, which its body takes. -/
theorem letIn_agrees_arrow :
    let c := ((Session.ofSource "let x = a in x<-b").run []).cursor
    c.Over "let x = a in x<-b" ∧ c.peek.kind = .keyword .letKw
      ∧ ∃ e c', statement c = .ok (.expression e) c' := by
  intro c
  have hstart : c = ⟨[], [⟨.keyword .letKw, "let", ⟨1, 1, 0, 3⟩⟩, ⟨.ident, "x", ⟨1, 5, 4, 5⟩⟩,
      ⟨.symbol .equal, "=", ⟨1, 7, 6, 7⟩⟩, ⟨.ident, "a", ⟨1, 9, 8, 9⟩⟩,
      ⟨.keyword .inKw, "in", ⟨1, 11, 10, 12⟩⟩, ⟨.ident, "x", ⟨1, 14, 13, 14⟩⟩,
      ⟨.symbol .leftArrow, "<-", ⟨1, 15, 14, 16⟩⟩, ⟨.ident, "b", ⟨1, 17, 16, 17⟩⟩],
      ⟨.eof, "", ⟨1, 18, 17, 17⟩⟩, rfl⟩ := rfl
  have hc : c.Over "let x = a in x<-b" := Session.over_run _ _
  have hlet : c.peek.kind = .keyword .letKw := by rw [hstart]; rfl
  obtain ⟨e, c', hread⟩ : ∃ e c', expression c = .ok e c' := by
    rw [hstart]
    exact ⟨_, _, rfl⟩
  exact ⟨hc, hlet, e, c', ((letIn_agrees hc).1 hlet e c').1 hread⟩

end Parser

end RakeLang
