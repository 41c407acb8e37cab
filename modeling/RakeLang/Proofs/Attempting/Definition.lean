import RakeLang.Definition.Parser
import RakeLang.Proofs.Attempting.Within
import RakeLang.Proofs.Reading.Definition

/-!
# No definition opens within another one

The readers stay within a definition: behind the word that opens it they meet no token that could
open another one.  Only the reader of types reads one of the words `stack` and `single`, behind the
name of a record; each reader that calls it goes on with a sign.  Where they are refused they tell
their faults of what they met.

## Main definitions

* `RakeLang.Parser.Opens` — behind its first token a parser stays within a definition.

## Main results

* `RakeLang.Parser.dataType_within`, `RakeLang.Parser.expression_within`,
  `RakeLang.Parser.predicate_within` — types, expressions and predicates.
* `RakeLang.Parser.definition_opens`, `RakeLang.Parser.definition_refused` — definitions.
-/

set_option relaxedAutoImplicit false
set_option autoImplicit false

namespace RakeLang

open Token

/-! ## Operators -/

namespace Kind

variable {kind : Kind}

/-- No binary operator opens a definition. -/
lemma isPlain_of_binaryOp? {op : BinaryOp} (h : kind.binaryOp? = some op) :
    kind.isPlain = true := by
  unfold binaryOp? at h
  split at h <;> first | rfl | cases h

/-- No unary operator opens a definition. -/
lemma isPlain_of_unaryOp? {op : UnaryOp} (h : kind.unaryOp? = some op) :
    kind.isPlain = true := by
  unfold unaryOp? at h
  split at h <;> first | rfl | cases h

/-- No comparison opens a definition. -/
lemma isPlain_of_compareOp? {op : CompareOp} (h : kind.compareOp? = some op) :
    kind.isPlain = true := by
  unfold compareOp? at h
  split at h <;> first | rfl | cases h

end Kind

/-- Behind a plain token, a definition may not have begun. -/
lemma Seam.free_plain : Seam.plain.Free := by simp [Free]

namespace Parser

variable {s : Seam}

/-! ## Numbers and scalar literals -/

/-- A token of a kind of numbers is read; where its text has no value it is refused behind it.

**Proof sketch.** By cases on whether a token of the kind stands there.  If so it is consumed, and
the seam makes a step as behind any plain token; `hf` says what then happens behind it, a value or a
refusal that quotes it.  If not, the token at the cursor is unexpected. -/
lemma literal_within {α : Type} {kind : Kind} {f : Token → Parser α}
    (hkind : kind.isNumber = true)
    (hf : ∀ t : Token, t.kind = kind → (∃ v, ∀ c, f t c = .ok v c)
      ∨ t.number? = none ∧ ∀ c, f t c = .error (.numeral t.lexeme t.span) c)
    (s : Seam) (c : Cursor) : (expect kind >>= f).Within s c Seam.Free := by
  have hstep := Seam.step_of_isPlain (s := s) (Seam.isPlain_of_isNumber hkind)
  by_cases hc : c.peek.kind = kind
  · have hpasses := Cursor.passes_advance (hc ▸ hstep)
      fun heof => by simp [← hc, heof, Kind.isNumber] at hkind
    have hread := bind_of_ok (f := f) (expect_of_eq hc)
    rcases hf c.peek hc with ⟨v, hv⟩ | ⟨hnone, hthrow⟩
    · exact .answered (hread.trans (hv _)) hpasses (by simp [Seam.run, hc, hstep])
        Seam.free_plain
    · exact .refused_behind (hread.trans (hthrow _)) hpasses
        (.numeral (by simp) (hc ▸ hkind) hnone)
  · refine .refused (bind_of_error (expect_of_ne hc)) (.unexpected (by simp) ?_)
    simpa using kind.newline_notMem_display

/-- An integer is read within a definition; a number that is too large is told with its token. -/
lemma intLiteral_within (s : Seam) (c : Cursor) : intLiteral.Within s c Seam.Free := by
  unfold intLiteral
  refine literal_within rfl (fun t ht => ?_) s c
  rcases hv : Numeral.readInt? t.lexeme with _ | v
  · exact .inr ⟨by simp [Token.number?, ht, hv], fun _ => rfl⟩
  · exact .inl ⟨v, fun _ => rfl⟩

/-- A float is read within a definition. -/
lemma floatLiteral_within (s : Seam) (c : Cursor) : floatLiteral.Within s c Seam.Free := by
  unfold floatLiteral
  refine literal_within rfl (fun t ht => ?_) s c
  rcases hv : Numeral.readFloat? t.lexeme with _ | v
  · exact .inr ⟨by simp [Token.number?, ht, hv], fun _ => rfl⟩
  · exact .inl ⟨v, fun _ => rfl⟩

/-- A number is read within a definition, if one stands there. -/
lemma number?_within (hs : s.Free) (c : Cursor) : number?.Within s c Seam.Free := by
  unfold number?
  apply Within.peekKind_bind
  split
  · exact (intLiteral_within s c).bind fun _ _ _ hs => .pure hs
  · exact (floatLiteral_within s c).bind fun _ _ _ hs => .pure hs
  · exact .pure hs

/-- A number whose opposite has no value is refused behind its token.

**Proof sketch.** The number is read within a definition.  If its opposite has no value, the fault
is that of the token that was read last. -/
lemma negatedNumber?_within (hs : s.Free) (c : Cursor) :
    negatedNumber?.Within s c Seam.Free := by
  have hnumber := number?_within hs c
  rcases hrun : number? c with ⟨_ | n, c₁⟩ | ⟨fault, c₁⟩
  · obtain ⟨read, left, rest, s', hpasses, hseam, hs'⟩ := hnumber.ok _ _ hrun
    exact .answered (bind_of_ok hrun) hpasses hseam hs'
  · obtain ⟨read, left, rest, s', hpasses, hseam, hs'⟩ := hnumber.ok _ _ hrun
    obtain ⟨us, hus, ⟨⟨t, ht, rfl⟩, -⟩, -⟩ := (number?_ensures (R := SplitsTo) c).ok _ _ hrun
    obtain rfl := hpasses.reads.unique hus
    have hspan : c₁.previousSpan = t.span := hpasses.reads.previousSpan rfl
    rcases hneg : n.negate? with _ | m
    · have hnegated : negated n c₁ = .error (.numeral ("-" ++ n.render) t.span) c₁ := by
        simp [negated, hneg, hspan]
      exact .refused_behind ((bind_of_ok hrun).trans (bind_of_error hnegated)) hpasses
        (.opposite (by simp) ht hneg)
    · have hnegated : negated n c₁ = .ok m c₁ := by simp [negated, hneg]
      exact .answered ((bind_of_ok hrun).trans (bind_of_ok hnegated)) hpasses hseam hs'
  · refine ⟨fun a c' h => ?_, fun fault' c' h => ?_⟩
    · rw [negatedNumber?, bind_of_error hrun] at h
      cases h
    · rw [negatedNumber?, bind_of_error hrun] at h
      obtain ⟨rfl, rfl⟩ := EStateM.Result.error.inj h
      exact hnumber.error _ _ hrun

/-- A field of a path is read within a definition. -/
lemma pathField_within (hs : s.Free) (c : Cursor) : pathField.Within s c Seam.Free := by
  unfold pathField
  refine .check_bind (.checkAhead_bind ?_)
  split
  case isTrue h =>
    have h : c.peek.kind = .symbol .dot ∧ (c.lookahead 1).kind = .ident := by simpa using h
    refine .advance_bind_plain (by rw [h.1]; rfl) (.expect_bind rfl fun field c => ?_)
    exact .pure Seam.free_plain
  case isFalse => exact .pure hs

/-- The value of a scalar literal is read within a definition. -/
lemma scalarValue?_within (hs : s.Free) (c : Cursor) : scalarValue?.Within s c Seam.Free := by
  unfold scalarValue?
  apply Within.peekKind_bind
  split
  case h_1 h =>
    refine .advance_bind_plain (by rw [h]; rfl) ?_
    exact (Within.many (fun _ c hs => pathField_within hs c) Seam.free_plain).bind
      fun _ _ _ hs => .pure hs
  case h_2 h =>
    refine .advance_bind_plain (by rw [h]; rfl) ?_
    exact (negatedNumber?_within Seam.free_plain _).bind fun _ _ _ hs => .pure hs
  case h_3 => exact (number?_within hs c).bind fun _ _ _ hs => .pure hs

/-- The opening of a scalar literal and its value are read within a definition. -/
lemma openedScalar?_within (hs : s.Free) (c : Cursor) : openedScalar?.Within s c Seam.Free := by
  unfold openedScalar?
  apply Within.peekKind_bind
  split
  case h_1 h => exact .advance_bind_plain (by rw [h]; rfl) (scalarValue?_within Seam.free_plain _)
  case h_2 h =>
    refine .advance_bind_plain (by rw [h]; rfl) ?_
    exact (negatedNumber?_within Seam.free_plain _).bind fun _ _ _ hs => .pure hs
  case h_3 => exact .pure hs

/-- A scalar literal is tried within a definition. -/
lemma scalarTrial_within (hs : s.Free) (c : Cursor) : scalarTrial.Within s c Seam.Free := by
  unfold scalarTrial
  refine .peek_bind ((openedScalar?_within hs c).bind fun o s c hs => ?_)
  rcases o with _ | value
  · exact .pure hs
  · exact .eat_bind rfl (fun c => .spanFrom_bind (.pure Seam.free_plain)) (.pure hs)

/-- Where no scalar literal stands, the token at the cursor is refused: an angle, or whatever stands
there where a literal has to follow.

**Proof sketch.** By cases on the outcome of the trial.  A literal and a fault of the trial are
those of the reader; a trial without a result goes back to the start, where `hc` says which token is
refused. -/
lemma scalarLiteral_within (hs : s.Free) {c : Cursor}
    (hc : c.peek.kind = .symbol .less ∨ c.peek.kind = .symbol .leftArrow ∨ c.AtCount) :
    scalarLiteral.Within s c Seam.Free := by
  have htrial := scalarTrial_within hs c
  rcases hrun : scalarTrial c with ⟨_ | literal, behind⟩ | ⟨fault, behind⟩
  · have hliteral : scalarLiteral c = .error (.unclosedScalar c.peek.span) c := by
      simp [scalarLiteral_eq, hrun]
    exact .refused hliteral (.unclosed hc)
  · have hliteral : scalarLiteral c = .ok literal behind := by simp [scalarLiteral_eq, hrun]
    refine ⟨fun a c' h => ?_, fun fault c' h => by simp [hliteral] at h⟩
    obtain ⟨-, rfl⟩ : literal = a ∧ behind = c' := by simpa [hliteral] using h
    exact htrial.ok _ _ hrun
  · have hliteral : scalarLiteral c = .error fault behind := by simp [scalarLiteral_eq, hrun]
    refine ⟨fun a c' h => by simp [hliteral] at h, fun fault' c' h => ?_⟩
    obtain ⟨rfl, rfl⟩ : fault = fault' ∧ behind = c' := by simpa [hliteral] using h
    exact htrial.error _ _ hrun

/-! ## Types -/

/-- A type that begins with an identifier is read within a definition.

**Proof sketch.** The identifier is a plain token.  Behind it the word `rack` is an identifier too,
hence plain, and without it nothing more is consumed. -/
lemma namedType_within {c : Cursor} (hc : c.peek.kind = .ident) :
    namedType.Within s c fun _ => True := by
  have hplain : c.peek.kind.isPlain = true := by rw [hc]; rfl
  unfold namedType
  apply Within.peek_bind
  split
  · exact .advance_bind_plain hplain (.pure trivial)
  · split
    · exact .unexpected (by simp) (by decide)
    · refine .advance_bind_plain hplain (.checkWord_bind ?_)
      split
      case isTrue hword =>
        have hword : c.advance.peek.kind = .ident ∧ c.advance.peek.lexeme = "rack" := by
          simpa using hword
        exact .advance_bind_plain (by rw [hword.1]; rfl) (.spanFrom_bind (.pure trivial))
      case isFalse => exact .pure trivial

/-- The word behind the name of a record is part of its type. -/
lemma recordType_within (hs : s.Free) (c : Cursor) : recordType.Within s c fun _ => True := by
  unfold recordType
  refine .expect_bind_step .typeName (if_neg hs) (by simp) fun name c => ?_
  refine .eat_bind_step .suffix rfl (by simp) (fun c => .spanFrom_bind (.pure trivial)) ?_
  refine .eat_bind_step .suffix rfl (by simp) (fun c => .spanFrom_bind (.pure trivial)) ?_
  apply Within.checkWord_bind
  split
  case isTrue hword =>
    have hword : c.peek.kind = .ident ∧ c.peek.lexeme = "pack" := by simpa using hword
    exact .advance_bind_plain (by rw [hword.1]; rfl) (.spanFrom_bind (.pure trivial))
  case isFalse => exact .unexpected (by simp) (by decide)

/-- A list of types is read within a definition: behind a comma or a parenthesis the seam is plain.
-/
lemma listedType_within {inner : Parser DataType}
    (hinner : ∀ c, inner.Within .plain c fun _ => True) (c : Cursor) :
    (listedType inner).Within s c fun _ => True := by
  unfold listedType
  refine .expect_bind rfl fun start c => ?_
  refine (Within.commaSeparated (hinner c) hinner).bind fun items s c _ => ?_
  refine .expect_bind rfl fun _ c => ?_
  refine .eat_bind rfl (fun c => ?_) (.spanFrom_bind (.pure trivial))
  exact (hinner c).bind fun _ _ _ _ => .spanFrom_bind (.pure trivial)

/-- A type under a bound is read within a definition.  Its last token may be the word `stack` or
`single`, so that nothing is said of the seam behind it. -/
lemma dataTypeUpTo_within (n : Nat) :
    ∀ (s : Seam) (c : Cursor), s.Free → (dataTypeUpTo n).Within s c fun _ => True := by
  induction n with
  | zero => exact fun s c _ => .unexpected (by simp) (by decide)
  | succ n ih =>
    intro s c hs
    unfold dataTypeUpTo
    apply Within.peekKind_bind
    split
    · exact namedType_within ‹_›
    · exact recordType_within hs c
    · exact listedType_within (fun c => ih .plain c Seam.free_plain) c
    · exact .unexpected (by simp) (by decide)

/-- A type can end with one of the words `stack` and `single`. -/
theorem dataType_within (hs : s.Free) (c : Cursor) : dataType.Within s c fun _ => True :=
  (dataTypeUpTo_within c.remaining s c hs).congr rfl

/-! ## Parameters -/

/-- A parameter with a type is read within a definition. -/
lemma typedParameter_within (s : Seam) (c : Cursor) : typedParameter.Within s c Seam.Free := by
  unfold typedParameter
  refine .expect_bind rfl fun start c => ?_
  apply Within.peekKind_bind
  split
  case h_1 h =>
    refine .advance_bind_plain (by rw [h]; rfl) (.expect_bind rfl fun _ c => ?_)
    refine (dataType_within Seam.free_plain c).bind fun type s c _ => ?_
    exact .expect_bind rfl fun _ c => .spanFrom_bind (.pure Seam.free_plain)
  case h_2 h | h_3 h =>
    refine (scalarLiteral_within Seam.free_plain (by simp [h])).bind fun literal s c _ => ?_
    refine .expect_bind rfl fun _ c => ?_
    refine (dataType_within Seam.free_plain c).bind fun type s c _ => ?_
    exact .expect_bind rfl fun _ c => .spanFrom_bind (.pure Seam.free_plain)
  case h_4 => exact .unexpected (by simp) (by decide)

/-- A parameter is read within a definition, if one stands there. -/
lemma parameter?_within (hs : s.Free) (c : Cursor) : parameter?.Within s c Seam.Free := by
  unfold parameter?
  apply Within.peekKind_bind
  split
  case h_1 h => exact .advance_bind_plain (by rw [h]; rfl) (.pure Seam.free_plain)
  case h_2 h | h_3 h =>
    exact (scalarLiteral_within hs (by simp [h])).bind fun _ _ _ hs => .pure hs
  case h_4 => exact (typedParameter_within s c).bind fun _ _ _ hs => .pure hs
  case h_5 => exact .pure hs

/-- Parameters are read within a definition. -/
lemma parameters_within (hs : s.Free) (c : Cursor) : parameters.Within s c Seam.Free :=
  .many (fun _ c hs => parameter?_within hs c) hs

/-! ## Primary expressions -/

section Inner

variable {inner : Parser Expression}

/-- A call is read within a definition. -/
lemma call_within (hinner : ∀ s c, s.Free → inner.Within s c Seam.Free) (c : Cursor) :
    (call inner).Within s c Seam.Free := by
  have hitem : ∀ c, inner.Within .plain c fun _ => True :=
    fun c => (hinner .plain c Seam.free_plain).imp fun _ _ => trivial
  unfold call
  refine .expect_bind rfl fun name c => .expect_bind rfl fun _ c => ?_
  refine (Within.commaSeparated (hitem c) hitem).bind fun args s c _ => ?_
  exact .expect_bind rfl fun _ c => .spanFrom_bind (.pure Seam.free_plain)

/-- A field of a record expression is read within a definition. -/
lemma fieldInit_within (hinner : ∀ s c, s.Free → inner.Within s c Seam.Free) (c : Cursor) :
    (fieldInit inner).Within s c fun _ => True := by
  unfold fieldInit
  refine .expect_bind rfl fun name c => .expect_bind rfl fun _ c => ?_
  exact (hinner _ c Seam.free_plain).bind fun _ _ _ _ => .spanFrom_bind (.pure trivial)

/-- A record expression is read within a definition. -/
lemma recordExpression_within (hinner : ∀ s c, s.Free → inner.Within s c Seam.Free)
    (hs : s.Free) (c : Cursor) : (recordExpression inner).Within s c Seam.Free := by
  unfold recordExpression
  refine .expect_bind_step .typeName (if_neg hs) (by simp) fun name c => ?_
  refine .expect_bind rfl fun _ c => ?_
  refine (Within.commaSeparated (fieldInit_within hinner c) (fieldInit_within hinner)).bind
    fun inits s c _ => ?_
  exact .expect_bind rfl fun _ c => .spanFrom_bind (.pure Seam.free_plain)

/-- What stands in parentheses is read within a definition. -/
lemma parenthesized_within (hinner : ∀ s c, s.Free → inner.Within s c Seam.Free) (c : Cursor) :
    (parenthesized inner).Within s c Seam.Free := by
  unfold parenthesized
  refine .expect_bind rfl fun start c => ?_
  refine .eat_bind rfl (fun c => .spanFrom_bind (.pure Seam.free_plain)) ?_
  refine (hinner _ c Seam.free_plain).bind fun first s c hs => ?_
  refine (Within.many (fun s c hs => ?_) hs).bind fun others s c _ => ?_
  · exact .afterComma (fun c => hinner _ c Seam.free_plain) hs
  · exact .expect_bind rfl fun _ c => .spanFrom_bind (.pure Seam.free_plain)

/-- A number is read as an expression within a definition. -/
lemma numberExpression_within (hs : s.Free) (c : Cursor) :
    numberExpression.Within s c Seam.Free := by
  unfold numberExpression
  refine .peek_bind ((number?_within hs c).bind fun o s c hs => ?_)
  rcases o with _ | n
  · exact .unexpected (by simp) (by decide)
  · exact .pure hs

/-- A primary expression is read within a definition.

**Proof sketch.** One case for each kind of token that a primary expression begins with.  Names,
truth values and other words are plain tokens, the composite forms have their own lemmas, and any
other token is unexpected. -/
lemma primary_within (hinner : ∀ s c, s.Free → inner.Within s c Seam.Free) (hs : s.Free)
    (c : Cursor) : (primary inner).Within s c Seam.Free := by
  unfold primary
  apply Within.peekKind_bind
  split
  case h_1 h =>
    unfold nameOrCall
    apply Within.checkAhead_bind
    split
    · exact call_within hinner c
    · exact .advance_bind_plain (by rw [h]; rfl) (.pure Seam.free_plain)
  case h_2 => exact recordExpression_within hinner hs c
  case h_3 | h_4 => exact numberExpression_within hs c
  case h_5 h | h_6 h | h_7 h | h_8 h =>
    exact .advance_bind_plain (by rw [h]; rfl) (.pure Seam.free_plain)
  case h_9 => exact parenthesized_within hinner c
  case h_10 h | h_11 h =>
    exact (scalarLiteral_within hs (by simp [h])).bind fun _ _ _ hs => .pure hs
  case h_12 => exact .unexpected (by simp) (by decide)

/-- A suffix is read within a definition, if one stands there. -/
lemma suffix?_within (hs : s.Free) (c : Cursor) : suffix?.Within s c Seam.Free := by
  unfold suffix?
  apply Within.peekKind_bind
  split
  case h_1 h =>
    refine .advance_bind_plain (by rw [h]; rfl) (.expect_bind rfl fun _ c => ?_)
    exact .pure Seam.free_plain
  case h_2 h =>
    refine .advance_bind_plain (by rw [h]; rfl) (.expect_bind rfl fun _ c => ?_)
    have hitem : ∀ c, intLiteral.Within .plain c fun _ => True :=
      fun c => (intLiteral_within .plain c).imp fun _ _ => trivial
    refine (Within.commaSeparated (hitem c) hitem).bind fun indices s c _ => ?_
    exact .expect_bind rfl fun _ c => .pure Seam.free_plain
  case h_3 h | h_4 h => exact .advance_bind_plain (by rw [h]; rfl) (.pure Seam.free_plain)
  case h_5 => exact .pure hs

/-- A primary expression and its suffixes are read within a definition. -/
lemma postfixed_within (hinner : ∀ s c, s.Free → inner.Within s c Seam.Free) (hs : s.Free)
    (c : Cursor) : (postfixed inner).Within s c Seam.Free := by
  unfold postfixed
  refine (primary_within hinner hs c).bind fun base s c hs => ?_
  exact (Within.many (fun _ c hs => suffix?_within hs c) hs).bind fun _ _ _ hs => .pure hs

/-! ## Operands -/

/-- A lambda is read within a definition. -/
lemma lambda_within (hinner : ∀ s c, s.Free → inner.Within s c Seam.Free) (c : Cursor) :
    (lambda inner).Within s c Seam.Free := by
  unfold lambda
  refine .expect_bind rfl fun start c => ?_
  refine (parameters_within Seam.free_plain c).bind fun params s c _ => ?_
  split
  · exact .unexpected (by simp) (by decide)
  · refine .expect_bind rfl fun _ c => ?_
    exact (hinner _ c Seam.free_plain).bind fun _ _ _ hs => .spanFrom_bind (.pure hs)

/-- The body of a let-in is read within a definition. -/
lemma letBody_within (hinner : ∀ s c, s.Free → inner.Within s c Seam.Free) (hs : s.Free)
    {start : Span} {name : String} {value : Expression} (c : Cursor) :
    (letBody inner start name value).Within s c Seam.Free := by
  unfold letBody
  exact (hinner s c hs).bind fun _ _ _ hs => .spanFrom_bind (.pure hs)

/-- A let-in is read within a definition. -/
lemma letIn_within (hinner : ∀ s c, s.Free → inner.Within s c Seam.Free) (c : Cursor) :
    (Parser.letIn inner).Within s c Seam.Free := by
  unfold Parser.letIn
  refine .expect_bind rfl fun start c => .expect_bind rfl fun name c => ?_
  refine .expect_bind rfl fun _ c => (hinner _ c Seam.free_plain).bind fun value s c _ => ?_
  exact .expect_bind rfl fun _ c => letBody_within hinner Seam.free_plain c

/-- A unary operator is read within a definition, if one stands there. -/
lemma unaryOperator?_within (hs : s.Free) (c : Cursor) :
    unaryOperator?.Within s c Seam.Free := by
  unfold unaryOperator?
  apply Within.peekKind_bind
  split
  · exact .pure hs
  · exact .advance_bind_plain (Kind.isPlain_of_unaryOp? ‹_›) (.pure Seam.free_plain)

/-- An operand without unary operators is read within a definition. -/
lemma bareOperand_within {operands : Operands}
    (hinner : ∀ s c, s.Free → inner.Within s c Seam.Free) (hs : s.Free) (c : Cursor) :
    (bareOperand operands inner).Within s c Seam.Free := by
  unfold bareOperand
  apply Within.peekKind_bind
  split
  · exact lambda_within hinner c
  · exact letIn_within hinner c
  · exact postfixed_within hinner hs c

/-- An operand is read within a definition. -/
lemma operand_within {operands : Operands}
    (hinner : ∀ s c, s.Free → inner.Within s c Seam.Free) (hs : s.Free) (c : Cursor) :
    (operand operands inner).Within s c Seam.Free :=
  .prefixed (fun _ c hs => unaryOperator?_within hs c)
    (fun _ c hs => bareOperand_within hinner hs c) hs

end Inner

/-! ## Chains of operands -/

/-- A binary operator is read within a definition, if one of the level stands there; the split
before it changes none of the tokens met. -/
lemma binaryOperator?_within {level : Level} (hs : s.Free) (c : Cursor) :
    (binaryOperator? level).Within s c Seam.Free := by
  unfold binaryOperator?
  refine .modify_bind (c.passes_splitInfix s) fun c => ?_
  apply Within.peekKind_bind
  split
  · exact .pure hs
  · split
    · exact .advance_bind_plain (Kind.isPlain_of_binaryOp? ‹_›) (.pure Seam.free_plain)
    · exact .pure hs

/-- A chain of operands is read within a definition, level by level. -/
lemma binary_within {operand : Parser Expression}
    (hoperand : ∀ s c, s.Free → operand.Within s c Seam.Free) (levels : List Level) :
    ∀ s c, s.Free → (binary operand levels).Within s c Seam.Free := by
  induction levels with
  | nil => exact hoperand
  | cons level tighter ih =>
    exact fun s c hs => .leftAssoc (fun _ c hs => binaryOperator?_within hs c) ih hs

/-- An expression under a bound is read within a definition. -/
lemma expressionUpTo_within (n : Nat) :
    ∀ s c, s.Free → (expressionUpTo n).Within s c Seam.Free := by
  induction n with
  | zero => exact fun s c _ => .unexpected (by simp) (by decide)
  | succ n ih => exact binary_within (fun _ c hs => operand_within ih hs c) Level.all

/-- An expression is read within a definition. -/
theorem expression_within (s : Seam) (c : Cursor) (hs : s.Free) :
    expression.Within s c Seam.Free :=
  (expressionUpTo_within c.remaining s c hs).congr rfl

/-- An operand of a comparison is read within a definition. -/
lemma comparand_within (hs : s.Free) (c : Cursor) : comparand.Within s c Seam.Free :=
  binary_within (fun _ c hs => operand_within expression_within hs c) Level.arithmetic s c hs

/-! ## Predicates -/

/-- The mention of a tine is read within a definition. -/
lemma tineRef_within (s : Seam) (c : Cursor) : tineRef.Within s c Seam.Free := by
  unfold tineRef
  exact .expect_bind rfl fun t c => .pure Seam.free_plain

/-- A comparison sign is read within a definition, if one stands there.

**Proof sketch.** To split an arrow passes from the cursor to itself with no token read.  Then the
word `is` and each comparison sign are plain tokens, and where none stands the seam is the one of
before. -/
lemma compareOperator?_within (hs : s.Free) (c : Cursor) :
    compareOperator?.Within s c Seam.Free := by
  unfold compareOperator?
  refine .modify_bind ?_ fun c => ?_
  · unfold splitArrow
    rcases ha : c.splitArrow? with _ | c'
    · exact ⟨[], _, .refl s c⟩
    · exact Cursor.passes_splitArrow s ha
  apply Within.peekKind_bind
  split
  · rename_i his
    refine .advance_bind_plain (by rw [his]; rfl) ?_
    exact .eat_bind rfl (fun _ => .pure Seam.free_plain) (.pure Seam.free_plain)
  · split
    · exact .pure hs
    · exact .advance_bind_plain (Kind.isPlain_of_compareOp? ‹_›) (.pure Seam.free_plain)

/-- A comparison is read within a definition. -/
lemma comparison_within (hs : s.Free) (c : Cursor) : comparison.Within s c Seam.Free := by
  unfold comparison
  refine (comparand_within hs c).bind fun lhs s c hs => ?_
  refine (compareOperator?_within hs c).bind fun o s c hs => ?_
  split
  · exact (comparand_within hs c).bind fun _ _ _ hs => .pure hs
  · split
    · exact .pure hs
    · exact .unexpected (by simp) (by decide)

/-- A choice between two alternatives goes back behind the first one; what this one met is ahead
again.

**Proof sketch.** Behind a refused first alternative the cursor goes back to where it began, with
everything that was met ahead of it again.  The second alternative meets the same tokens, and so
does the fault that shows further on. -/
lemma orElseHere_within {α : Type} {first second : Parser α} {c : Cursor} {Q : Seam → Prop}
    (hfirst : first.Within s c Q) (hsecond : ∀ c, second.Within s c Q) :
    (orElseHere first second).Within s c Q := by
  rcases h₁ : first c with ⟨a, c₁⟩ | ⟨fault, c₁⟩
  · have hrun : orElseHere first second c = first c := by simp [orElseHere, h₁]
    exact hfirst.congr hrun
  · obtain ⟨read, left, rest, hpasses, hshows⟩ := hfirst.error _ _ h₁
    have hback : c.Passes s [] (read ++ left) rest (c₁.seek c.position) := by
      rw [hpasses.reads.seek]
      refine ⟨⟨rfl, hpasses.reads.ahead, rfl⟩, ?_, hpasses.met, hpasses.within⟩
      rw [hpasses.ahead, List.append_assoc]
    constructor
    · intro a c₂ h
      rcases h₂ : second (c₁.seek c.position) with ⟨b, c₃⟩ | ⟨other, c₃⟩
      · obtain ⟨rfl, rfl⟩ : b = a ∧ c₃ = c₂ := by simpa [orElseHere, h₁, h₂] using h
        obtain ⟨us, _, _, s₂, hpasses₂, hrun, hs₂⟩ := (hsecond _).ok _ _ h₂
        obtain ⟨left', rest', hall, -, -⟩ := hback.trans rfl hpasses₂
        exact ⟨us, left', rest', s₂, hall, hrun, hs₂⟩
      · simp [orElseHere, h₁, h₂] at h
    · intro fault' c₂ h
      rcases h₂ : second (c₁.seek c.position) with ⟨b, c₃⟩ | ⟨other, c₃⟩
      · simp [orElseHere, h₁, h₂] at h
      · obtain ⟨rfl, rfl⟩ : fault.furthest other = fault' ∧ c₃ = c₂ := by
          simpa [orElseHere, h₁, h₂] using h
        obtain ⟨us, _, _, hpasses₂, hshows₂⟩ := (hsecond _).error _ _ h₂
        obtain ⟨left', rest', hall, hrest, hrest₂⟩ := hback.trans rfl hpasses₂
        have hother := (hshows₂.suffix hrest₂).behind hback.reads
        exact ⟨us, left', rest', hall, (hshows.suffix hrest).furthest hother⟩

section Guard

variable {inner : Parser Predicate}

/-- A predicate in parentheses is read within a definition. -/
lemma group_within (hinner : ∀ s c, s.Free → inner.Within s c Seam.Free) (c : Cursor) :
    (group inner).Within s c Seam.Free := by
  unfold group
  refine .expect_bind rfl fun start c => (hinner _ c Seam.free_plain).bind fun p s c _ => ?_
  exact .expect_bind rfl fun _ c => .spanFrom_bind (.pure Seam.free_plain)

/-- An atom is read within a definition; where a comparison is refused at a parenthesis, the group
is read from there. -/
lemma predicateAtom_within (hinner : ∀ s c, s.Free → inner.Within s c Seam.Free) (hs : s.Free)
    (c : Cursor) : (predicateAtom inner).Within s c Seam.Free := by
  unfold predicateAtom
  apply Within.peekKind_bind
  split
  · exact (tineRef_within s c).bind fun _ _ _ hs => .pure hs
  · exact orElseHere_within (comparison_within hs c) (group_within hinner)
  · exact comparison_within hs c

/-- A negation is read within a definition, if one stands there. -/
lemma notOperator?_within (hs : s.Free) (c : Cursor) : notOperator?.Within s c Seam.Free := by
  unfold notOperator?
  apply Within.peekKind_bind
  split
  case h_1 h | h_2 h => exact .advance_bind_plain (by rw [h]; rfl) (.pure Seam.free_plain)
  case h_3 => exact .pure hs

/-- The sign or the word for "and" is read within a definition, if it stands there. -/
lemma andOperator?_within (hs : s.Free) (c : Cursor) : andOperator?.Within s c Seam.Free := by
  unfold andOperator?
  apply Within.peekKind_bind
  split
  case h_1 h | h_2 h => exact .advance_bind_plain (by rw [h]; rfl) (.pure Seam.free_plain)
  case h_3 => exact .pure hs

/-- The sign or the word for "or" is read within a definition, if it stands there. -/
lemma orOperator?_within (hs : s.Free) (c : Cursor) : orOperator?.Within s c Seam.Free := by
  unfold orOperator?
  apply Within.peekKind_bind
  split
  case h_1 h | h_2 h => exact .advance_bind_plain (by rw [h]; rfl) (.pure Seam.free_plain)
  case h_3 => exact .pure hs

/-- A predicate is read within a definition if its groups are. -/
lemma predicateWith_within (hinner : ∀ s c, s.Free → inner.Within s c Seam.Free) :
    ∀ s c, s.Free → (predicateWith inner).Within s c Seam.Free := by
  have hnegation : ∀ s c, s.Free → (negation inner).Within s c Seam.Free := fun s c hs =>
    .prefixed (fun _ c hs => notOperator?_within hs c)
      (fun _ c hs => predicateAtom_within hinner hs c) hs
  have hconjunction : ∀ s c, s.Free → (conjunction inner).Within s c Seam.Free := fun s c hs =>
    .leftAssoc (fun _ c hs => andOperator?_within hs c) hnegation hs
  exact fun s c hs => .leftAssoc (fun _ c hs => orOperator?_within hs c) hconjunction hs

end Guard

/-- A predicate under a bound is read within a definition. -/
lemma predicateUpTo_within (n : Nat) :
    ∀ s c, s.Free → (predicateUpTo n).Within s c Seam.Free := by
  induction n with
  | zero => exact fun s c _ => .unexpected (by simp) (by decide)
  | succ n ih => exact predicateWith_within ih

/-- A predicate is read within a definition. -/
theorem predicate_within (hs : s.Free) (c : Cursor) : predicate.Within s c Seam.Free :=
  (predicateUpTo_within c.remaining s c hs).congr rfl

/-! ## Statements -/

/-- A binding is read within a definition.  Its type may end with the word `stack`; the sign behind
it is plain. -/
lemma letBinding_within (s : Seam) (c : Cursor) : letBinding.Within s c Seam.Free := by
  unfold letBinding typeAnnotation?
  refine .expect_bind rfl fun start c => .expect_bind rfl fun name c => ?_
  refine Within.bind (P := fun _ => True) ?_ fun type s c _ => ?_
  · refine .eat_bind rfl (fun c => ?_) (.pure trivial)
    exact (dataType_within Seam.free_plain c).bind fun _ _ _ _ => .pure trivial
  · refine .expect_bind rfl fun _ c => ?_
    exact (expression_within _ c Seam.free_plain).bind fun _ _ _ hs => .spanFrom_bind (.pure hs)

/-- What the word `let` begins is read within a definition. -/
lemma letForm_within (s : Seam) (c : Cursor) : letForm.Within s c Seam.Free := by
  unfold letForm
  refine (letBinding_within s c).bind fun b s c hs => ?_
  split
  · exact .pure hs
  · refine .eat_bind rfl (fun c => ?_) (.pure hs)
    exact (letBody_within expression_within Seam.free_plain c).bind fun _ _ _ hs => .pure hs

/-- An assignment is read within a definition. -/
lemma assignment_within (s : Seam) (c : Cursor) : assignment.Within s c Seam.Free := by
  unfold assignment
  refine .expect_bind rfl fun name c => .expect_bind rfl fun _ c => ?_
  exact (expression_within _ c Seam.free_plain).bind fun _ _ _ hs => .spanFrom_bind (.pure hs)

/-- A pass over a pack is read within a definition.

**Proof sketch.** The parts are read one behind the other.  The count is the one place where a
literal that does not open may be refused at any token, so the token behind the comma has to be
shown to stand at a count: it is preceded by `over`, by the spelling of a pack, and by a comma. -/
lemma passOver_within (s : Seam) (c : Cursor) : passOver.Within s c Seam.Free := by
  unfold passOver
  refine .expect_bind_peek .plain rfl (by simp) fun hover => ?_
  refine (expression_within _ _ Seam.free_plain).bind_of_reads
    fun pack _ c₁ read hpack hread _ => ?_
  refine .expect_bind_peek .plain rfl (by simp) fun hcomma => ?_
  have hcount : c₁.advance.AtCount := by
    obtain ⟨us, hus, hplaced, -⟩ := (expression_places _).ok pack c₁ hpack
    obtain ⟨ts, hts⟩ := Cursor.exists_ahead_of_peek (c := c) (by simp [hover])
    obtain ⟨ts₁, hts₁⟩ := Cursor.exists_ahead_of_peek (c := c₁) (by simp [hcomma])
    refine ⟨c.peek, us, c₁.peek, c.past, ?_, hover, ⟨pack, hplaced⟩, hcomma⟩
    simp [Cursor.advance, hts, hts₁, hus.past]
  refine (scalarLiteral_within Seam.free_plain (.inr (.inr hcount))).bind fun count s c _ => ?_
  refine .expect_bind rfl fun _ c => .expect_bind rfl fun binding c => ?_
  refine .expect_bind rfl fun _ c => ?_
  exact (expression_within _ c Seam.free_plain).bind fun _ _ _ hs => .spanFrom_bind (.pure hs)

/-- An expression is read as a statement within a definition. -/
lemma expressionStatement_within (hs : s.Free) (c : Cursor) :
    expressionStatement.Within s c Seam.Free := by
  unfold expressionStatement
  exact (expression_within s c hs).bind fun _ _ _ hs => .pure hs

/-- A statement is read within a definition. -/
lemma statement_within (hs : s.Free) (c : Cursor) : statement.Within s c Seam.Free := by
  unfold statement
  apply Within.peekKind_bind
  split
  · refine (letForm_within s c).bind fun form s c hs => ?_
    rcases form with b | value
    all_goals exact .pure hs
  · exact passOver_within s c
  · apply Within.checkAhead_bind
    split
    · exact assignment_within s c
    · exact expressionStatement_within hs c
  · exact expressionStatement_within hs c

/-! ## Sections of a rake -/

/-- A tine and its guard are read within a definition. -/
lemma tineDecl_within (s : Seam) (c : Cursor) : tineDecl.Within s c Seam.Free := by
  unfold tineDecl
  refine .expect_bind rfl fun start c => (tineRef_within _ c).bind fun tine s c _ => ?_
  refine .expect_bind rfl fun _ c => .expect_bind rfl fun _ c => ?_
  refine (predicate_within Seam.free_plain c).bind fun guard s c _ => ?_
  exact .expect_bind rfl fun _ c => .spanFrom_bind (.pure Seam.free_plain)

/-- The guard of a through block is read within a definition. -/
lemma throughGuard_within (s : Seam) (c : Cursor) : throughGuard.Within s c Seam.Free := by
  unfold throughGuard
  apply Within.peekKind_bind
  split
  · exact (tineRef_within s c).bind fun _ _ _ hs => .pure hs
  · rename_i h
    refine .advance_bind_plain (by rw [h]; rfl) ?_
    refine (predicate_within Seam.free_plain _).bind fun guard s c _ => ?_
    exact .expect_bind rfl fun _ c => .pure Seam.free_plain
  · exact .unexpected (by simp) (by decide)

/-- A constant is read within a definition. -/
lemma fallback_within (hs : s.Free) (c : Cursor) : fallback.Within s c Seam.Free := by
  unfold fallback
  apply Within.peekKind_bind
  split
  case h_1 h | h_2 h =>
    exact (scalarLiteral_within hs (by simp [h])).bind fun _ _ _ hs => .pure hs
  case h_3 h | h_4 h => exact .advance_bind_plain (by rw [h]; rfl) (.pure Seam.free_plain)
  case h_5 =>
    refine .peek_bind ((number?_within hs c).bind fun o s c hs => ?_)
    rcases o with _ | n
    · exact .unexpected (by simp) (by decide)
    · exact .pure hs

/-- A value without bindings. -/
lemma expression_body_within (hs : s.Free) (c : Cursor) :
    (do let value ← expression; return ([], value) :
      Parser (List LetBinding × Expression)).Within s c Seam.Free :=
  (expression_within s c hs).bind fun _ _ _ hs => .pure hs

/-- The body of a through block is read within a definition, under a bound on its bindings. -/
lemma throughBodyUpTo_within (n : Nat) :
    ∀ (s : Seam) (c : Cursor), s.Free → (throughBodyUpTo n).Within s c Seam.Free := by
  induction n with
  | zero => exact fun s c hs => expression_body_within hs c
  | succ n ih =>
    intro s c hs
    unfold throughBodyUpTo
    apply Within.check_bind
    split
    · refine (letForm_within s c).bind fun form s c hs => ?_
      rcases form with b | value
      · exact (ih s c hs).bind fun _ _ _ hs => .pure hs
      · exact .pure hs
    · exact expression_body_within hs c

/-- A through block is read within a definition. -/
lemma throughBlock_within (s : Seam) (c : Cursor) : throughBlock.Within s c Seam.Free := by
  unfold throughBlock fallback?
  refine .expect_bind rfl fun start c => (throughGuard_within _ c).bind fun guard s c hs => ?_
  refine Within.bind (P := Seam.Free) ?_ fun fallback s c hs => ?_
  · refine .eat_bind rfl (fun c => ?_) (.pure hs)
    exact (fallback_within Seam.free_plain c).bind fun _ _ _ hs => .pure hs
  · refine .expect_bind rfl fun _ c => ?_
    have hbody : throughBody.Within .plain c Seam.Free :=
      (throughBodyUpTo_within c.remaining _ c Seam.free_plain).congr rfl
    refine hbody.bind fun body s c _ => ?_
    refine .expect_bind rfl fun _ c => .expect_bind rfl fun binding c => ?_
    exact .spanFrom_bind (.pure Seam.free_plain)

/-- The target of an arm is read within a definition. -/
lemma sweepTarget_within (s : Seam) (c : Cursor) : sweepTarget.Within s c Seam.Free := by
  unfold sweepTarget
  apply Within.check_bind
  split
  · exact (tineRef_within s c).bind fun _ _ _ hs => .pure hs
  · apply Within.checkWord_bind
    split
    case isTrue hword =>
      have hword : c.peek.kind = .ident ∧ c.peek.lexeme = "_" := by simpa using hword
      exact .advance_bind_plain (by rw [hword.1]; rfl) (.pure Seam.free_plain)
    case isFalse => exact .unexpected (by simp) (by decide)

/-- An arm is read within a definition. -/
lemma sweepArm_within (s : Seam) (c : Cursor) : sweepArm.Within s c Seam.Free := by
  unfold sweepArm
  refine .expect_bind rfl fun start c => (sweepTarget_within _ c).bind fun target s c _ => ?_
  refine .expect_bind rfl fun _ c => ?_
  exact (expression_within _ c Seam.free_plain).bind fun _ _ _ hs => .spanFrom_bind (.pure hs)

/-- A sweep is read within a definition. -/
lemma sweepBlock_within (s : Seam) (c : Cursor) : sweepBlock.Within s c Seam.Free := by
  unfold sweepBlock
  refine .expect_bind rfl fun start c => .expect_bind rfl fun _ c => ?_
  refine (Within.many (fun s c hs => .whenAt (sweepArm_within s c) hs) Seam.free_plain).bind
    fun arms s c _ => ?_
  split
  · exact .misplaced (by simp [Misplaced.rake?])
  · refine .expect_bind rfl fun _ c => .expect_bind rfl fun binding c => ?_
    exact .spanFrom_bind (.pure Seam.free_plain)

/-! ## Parts of definitions -/

/-- The result of a routine is read within a definition.

**Proof sketch.** A name, a name with a type, and names behind commas; the parentheses around them
are plain. -/
lemma resultSpec_within (s : Seam) (c : Cursor) : resultSpec.Within s c fun _ => True := by
  have hname : ∀ s c, resultName.Within s c fun _ => True := by
    intro s c
    unfold resultName
    exact .expect_bind rfl fun name c => .pure trivial
  unfold resultSpec
  apply Within.check_bind
  split
  case isTrue h =>
    have h : c.peek.kind = .ident := by simpa using h
    exact .advance_bind_plain (by rw [h]; rfl) (.pure trivial)
  case isFalse =>
    refine .expect_bind rfl fun start c => .check_bind ?_
    split
    · exact .misplaced (by simp [Misplaced.rake?])
    apply Within.checkAhead_bind
    split
    · refine .expect_bind rfl fun name c => .expect_bind rfl fun _ c => ?_
      refine (dataType_within Seam.free_plain c).bind fun type s c _ => ?_
      exact .expect_bind rfl fun _ c => .spanFrom_bind (.pure trivial)
    · refine (hname _ c).bind fun first s c _ => ?_
      refine (Within.many (I := fun _ => True) (fun s c _ => ?_) trivial).bind
        fun others s c _ => ?_
      · exact .afterComma (hname _) trivial
      · exact .expect_bind rfl fun _ c => .spanFrom_bind (.pure trivial)

/-- Parameters and a result are read within a definition, up to the colon behind them. -/
lemma signature_within (hs : s.Free) (c : Cursor) :
    Parser.signature.Within s c fun s => s = .plain := by
  unfold Parser.signature
  refine (parameters_within hs c).bind fun params s c _ => .expect_bind rfl fun _ c => ?_
  refine (resultSpec_within _ c).bind fun result s c _ => ?_
  exact .expect_bind rfl fun _ c => .pure rfl

/-- A field of a record is read within a definition. -/
lemma fieldDef_within (s : Seam) (c : Cursor) : fieldDef.Within s c fun _ => True := by
  unfold fieldDef
  refine .expect_bind rfl fun name c => .expect_bind rfl fun _ c => ?_
  exact (dataType_within Seam.free_plain c).bind fun _ _ _ _ => .spanFrom_bind (.pure trivial)

/-- A statement of a body is read within a definition, unless the body ends there. -/
lemma bodyStatement_within (s : Seam) (c : Cursor) (hs : s.Free) :
    bodyStatement.Within s c Seam.Free := by
  by_cases hc : c.atDefinitionBoundary = true
  · have hrun : bodyStatement c = .ok none c := by simp [bodyStatement, hc]
    exact .stay hrun hs
  · have hread : (some <$> statement).Within s c Seam.Free := by
      rw [map_eq_pure_bind]
      exact (statement_within hs c).bind fun _ _ _ hs => .pure hs
    exact hread.congr (by simp [bodyStatement, hc])

section Named

variable {rake : String} {c : Cursor}

/-- The tines of a rake are read within a definition; that there is none is told with the name of
the rake. -/
lemma tines_within (hs : s.Free) (hc : c.Named rake) : (tines rake).Within s c Seam.Free := by
  unfold tines
  refine (Within.many (fun s c hs => .whenAt (tineDecl_within s c) hs) hs).bind_of_reads
    fun tines s c _ _ hread hs => ?_
  have hc := hc.reads hread
  split
  · exact .misplaced (by simpa [Misplaced.rake?] using hc)
  · apply Within.check_bind
    split
    · exact .misplaced (by simpa [Misplaced.rake?] using hc)
    · exact .pure hs

/-- The through blocks of a rake are read within a definition. -/
lemma throughs_within (hs : s.Free) (hc : c.Named rake) :
    (throughs rake).Within s c Seam.Free := by
  unfold throughs
  refine (Within.many (fun s c hs => .whenAt (throughBlock_within s c) hs) hs).bind_of_reads
    fun throughs s c _ _ hread hs => ?_
  split
  · exact .misplaced (by simpa [Misplaced.rake?] using hc.reads hread)
  · exact .pure hs

/-- The sweep of a rake is read within a definition. -/
lemma sweep_within (s : Seam) (hc : c.Named rake) : (sweep rake).Within s c Seam.Free := by
  unfold sweep
  apply Within.peekKind_bind
  split
  · refine (sweepBlock_within s c).bind_of_reads fun b s c _ _ hread hs => .check_bind ?_
    split
    · exact .misplaced (by simpa [Misplaced.rake?] using hc.reads hread)
    · exact .pure hs
  · exact .misplaced (by simpa [Misplaced.rake?] using hc)
  · exact .misplaced (by simpa [Misplaced.rake?] using hc)

end Named

/-! ## Definitions -/

/-- Behind the token at the cursor, what `p` meets can stand within a definition. -/
def Opens {α : Type} (p : Parser α) (c : Cursor) : Prop :=
  ∃ q : Parser α, p c = q c.advance ∧ q.Within .plain c.advance fun _ => True

section Opens

variable {α β : Type} {c : Cursor}

/-- Behind its first token, a reader stays within a definition if what follows that token does. -/
lemma opens_advance_bind {f : Token → Parser α}
    (h : (f c.peek).Within .plain c.advance fun _ => True) : (advance >>= f).Opens c :=
  ⟨f c.peek, rfl, h⟩

/-- The value of a reading does not matter to what it met. -/
lemma Opens.bind_pure {p : Parser α} {f : α → β} (h : p.Opens c) :
    (do let a ← p; return f a : Parser β).Opens c := by
  obtain ⟨q, hq, hwithin⟩ := h
  refine ⟨do let a ← q; return f a, ?_, hwithin.bind fun _ _ _ _ => .pure trivial⟩
  change EStateM.bind p _ c = EStateM.bind q _ c.advance
  simp only [EStateM.bind, hq]

/-- The fields of a record behind its name. -/
def recordFields (start name : Token) : Parser RecordDef := do
  let _ ← expect (.symbol .lBrace)
  let fields ← commaSeparated (.symbol .rBrace) fieldDef
  let _ ← expect (.symbol .rBrace)
  let span ← spanFrom start.span
  return ⟨name.lexeme, fields, span⟩

/-- The fields of a record are read within a definition. -/
lemma recordFields_within (start name : Token) (s : Seam) (c : Cursor) :
    (recordFields start name).Within s c fun _ => True := by
  unfold recordFields
  refine .expect_bind rfl fun _ c => ?_
  refine (Within.commaSeparated (fieldDef_within _ c) (fieldDef_within _)).bind
    fun fields s c _ => ?_
  exact .expect_bind rfl fun _ c => .spanFrom_bind (.pure trivial)

/-- A record stays within a definition behind its first token. -/
lemma recordDef_opens (c : Cursor) : recordDef.Opens c :=
  opens_advance_bind (.expect_bind_step .typeName rfl (by simp) fun name c =>
    recordFields_within _ name .typeName c)

/-- A name for a type stays within a definition behind its first token. -/
lemma typeAlias_opens (c : Cursor) : typeAlias.Opens c := by
  refine opens_advance_bind (.expect_bind_step .typeName rfl (by simp) fun name c => ?_)
  refine .expect_bind rfl fun _ c => ?_
  exact (dataType_within Seam.free_plain c).bind fun _ _ _ _ => .spanFrom_bind (.pure trivial)

/-- A routine stays within a definition behind its first token. -/
lemma routine_opens (c : Cursor) : routine.Opens c := by
  refine opens_advance_bind (.expect_bind rfl fun name c => ?_)
  refine (signature_within Seam.free_plain c).bind ?_
  rintro ⟨params, result⟩ _ c rfl
  refine (Within.many bodyStatement_within Seam.free_plain).bind fun body s c _ => ?_
  exact .spanFrom_bind (.pure trivial)

/-- A rake stays within a definition behind its first token. -/
lemma rakeDef_opens (c : Cursor) : rakeDef.Opens c := by
  refine opens_advance_bind (.expect_bind_peek .plain rfl (by simp) fun hname => ?_)
  have hnamed : c.advance.advance.Named c.advance.peek.lexeme := by
    obtain ⟨ts, hts⟩ := Cursor.exists_ahead_of_peek (c := c.advance) (by simp [hname])
    exact ⟨c.advance.peek, by simp [Cursor.advance.eq_def c.advance, hts], rfl⟩
  refine (signature_within Seam.free_plain _).bind_of_reads ?_
  rintro ⟨params, result⟩ _ c₁ _ - hread₁ rfl
  refine (Within.many (fun s c hs => .whenAt (letBinding_within s c) hs) Seam.free_plain)
    |>.bind_of_reads fun setup s c₂ _ _ hread₂ hs => ?_
  have hnamed₂ := (hnamed.reads hread₁).reads hread₂
  refine (tines_within hs hnamed₂).bind_of_reads fun tines s c₃ _ _ hread₃ hs => ?_
  have hnamed₃ := hnamed₂.reads hread₃
  refine (throughs_within hs hnamed₃).bind_of_reads fun throughs s c₄ _ _ hread₄ _ => ?_
  exact (sweep_within s (hnamed₃.reads hread₄)).bind fun _ _ _ _ => .spanFrom_bind (.pure trivial)

/-- A look at the first token opens nothing. -/
lemma Opens.peekKind_bind {f : Kind → Parser α} (h : (f c.peek.kind).Opens c) :
    (peekKind >>= f).Opens c := h

/-- Behind the word that opens it, a definition meets no other one. -/
theorem definition_opens (hc : c.peek.kind.opensDefinition = true) : definition.Opens c := by
  unfold definition
  apply Opens.peekKind_bind
  split
  case h_1 | h_2 => exact (recordDef_opens c).bind_pure
  case h_3 => exact (typeAlias_opens c).bind_pure
  case h_4 | h_6 => exact (routine_opens c).bind_pure
  case h_5 => exact (rakeDef_opens c).bind_pure
  case h_7 hstack hsingle htype hcrunch hrake hrun =>
    unfold Kind.opensDefinition at hc
    split at hc <;> contradiction

/-- Behind the name of a record its definition meets no other one, and no other name of a record
before a plain token.

**Proof sketch.** A record reads the name of its type first, so `recordDef` is `recordFields` from
the cursor behind that name, and `recordFields_within` speaks of that cursor.  The two words for a
record differ in the constructor that is applied only. -/
lemma definition_opens_named
    (hc : c.peek.kind = .keyword .stack ∨ c.peek.kind = .keyword .single)
    (hname : c.advance.peek.kind = .typeIdent) :
    ∃ q : Parser Definition, definition c = q c.advance.advance
      ∧ q.Within .typeName c.advance.advance fun _ => True := by
  have hnamed (f : RecordDef → Definition) : ∃ q : Parser Definition,
      (do let record ← recordDef; return f record : Parser Definition) c = q c.advance.advance
        ∧ q.Within .typeName c.advance.advance fun _ => True := by
    have hread : recordDef c = recordFields c.peek c.advance.peek c.advance.advance :=
      bind_of_ok (c := c.advance) (expect_of_eq hname)
    refine ⟨do let record ← recordFields c.peek c.advance.peek; return f record, ?_,
      (recordFields_within _ _ _ _).bind fun _ _ _ _ => .pure trivial⟩
    change EStateM.bind recordDef _ c = EStateM.bind _ _ c.advance.advance
    simp only [EStateM.bind, hread]
  rcases hc with hc | hc
  all_goals
    rw [definition, bind_of_ok (p := peekKind) rfl, hc]
    exact hnamed _

/-- No definition begins with another token. -/
theorem definition_refused (hc : c.peek.kind.opensDefinition = false) :
    ∃ fault, definition c = .error fault c ∧ fault.ToldAt c [] := by
  have hpeek : ∀ f : Kind → Parser Definition, (peekKind >>= f) c = f c.peek.kind c :=
    fun _ => rfl
  have htold : (Fault.unexpected ["`stack`", "`single`", "`type`", "`crunch`", "`rake`", "`run`"]
      c.peek.found c.peek.span).ToldAt c [] := .unexpected (by simp) (by decide)
  refine ⟨_, ?_, htold⟩
  unfold definition
  rw [hpeek]
  generalize hkind : c.peek.kind = kind at hc ⊢
  rcases kind with _ | _ | _ | _ | _ | word | sign | _
  case keyword => cases word <;> first | rfl | cases hc
  all_goals rfl

/-- The fault of a definition that is refused shows where it was met. -/
lemma definition_shows {fault : Fault} {c' : Cursor} (h : definition c = .error fault c') :
    ∃ rest, fault.Shows c rest := by
  rcases hopens : c.peek.kind.opensDefinition with _ | _
  · obtain ⟨fault', hrefused, htold⟩ := definition_refused hopens
    obtain ⟨rfl, -⟩ := EStateM.Result.error.inj (hrefused.symm.trans h)
    exact ⟨c.ahead, htold.shows⟩
  · have hc : c.peek.kind ≠ .eof := fun heof => by simp [heof, Kind.opensDefinition] at hopens
    obtain ⟨q, hq, hwithin⟩ := definition_opens hopens
    obtain ⟨read, left, rest, -, hshows⟩ := hwithin.error fault c' (hq ▸ h)
    exact ⟨rest, hshows.behind (Cursor.reads_advance hc)⟩

end Opens

end Parser

end RakeLang
