import RakeLang.Proofs.Spelling.Definition

/-!
# Spellings at their place

A syntax tree holds the spans of its parts.  The *placed* spelling of a tree is its spelling by
tokens that stand where the tree says: the tokens of each part run from the beginning of the span
of that part to its end.  Tokens of a text stand one behind the other; of tokens that do not
nothing is said.

## Main definitions

* `RakeLang.Token.InOrder` — the tokens stand one behind the other.
* `RakeLang.Span.Covers` — the span runs from the first of some tokens to the last one.
* `RakeLang.Spelling.covering` — the lists of a language that a span covers.
* `RakeLang.DataType.placed`, `RakeLang.Expression.placed`, `RakeLang.Predicate.placed`,
  `RakeLang.Definition.placed` and others — the placed spelling of a tree.

## Main results

* `RakeLang.Span.Covers.merge` — a span merged with that of a later token covers what stands up to
  this token.
* `RakeLang.DataType.placed_le`, `RakeLang.Expression.placed_le`, `RakeLang.Definition.placed_le`
  and others — a placed spelling is a spelling.
-/

set_option relaxedAutoImplicit false
set_option autoImplicit false

namespace RakeLang

/-! ## Spans over tokens -/

/-- The tokens stand one behind the other. -/
structure Token.InOrder (ts : List Token) : Prop where
  start_le_stop : ∀ t ∈ ts, t.span.start ≤ t.span.stop
  ordered : ts.Pairwise fun t u => t.span.stop ≤ u.span.start

/-- The span runs from the beginning of the first token to the end of the last one. -/
def Span.Covers (s : Span) (ts : List Token) : Prop :=
  ∃ first ∈ ts.head?, ∃ last ∈ ts.getLast?,
    s = ⟨first.span.line, first.span.column, first.span.start, last.span.stop⟩

section Covers

open Token

variable {s a b : Span} {t : Token} {ts us vs : List Token}

/-- Both parts of tokens that stand one behind the other do so. -/
lemma Token.InOrder.append (h : InOrder (ts ++ us)) : InOrder ts ∧ InOrder us := by
  obtain ⟨hle, hordered⟩ := h
  rw [List.forall_mem_append] at hle
  obtain ⟨hts, hus, -⟩ := List.pairwise_append.1 hordered
  exact ⟨⟨hle.1, hts⟩, hle.2, hus⟩

/-- A span covers some tokens at least. -/
lemma Span.Covers.ne_nil (h : s.Covers ts) : ts ≠ [] := by
  rintro rfl
  obtain ⟨first, hfirst, -⟩ := h
  cases hfirst

/-- The span of a token covers it. -/
lemma Span.covers_singleton (t : Token) : t.span.Covers [t] := ⟨t, rfl, t, rfl, rfl⟩

/-- A token that stands behind the beginning of a list does not begin before the list. -/
lemma Token.InOrder.start_le (h : InOrder (t :: ts)) {u : Token} (hu : u ∈ ts) :
    t.span.start ≤ u.span.start :=
  (h.start_le_stop t List.mem_cons_self).trans (List.rel_of_pairwise_cons h.ordered hu)

/-- The first token of a list does not begin behind any token of the list. -/
lemma Token.InOrder.head_start_le (h : InOrder ts) {first : Token} (hfirst : first ∈ ts.head?)
    (ht : t ∈ ts) : first.span.start ≤ t.span.start := by
  obtain ⟨us, rfl⟩ := List.head?_eq_some_iff.1 hfirst
  rcases List.mem_cons.1 ht with rfl | ht
  · exact le_rfl
  · exact h.start_le ht

/-- The last token of a list does not end before any token of the list. -/
lemma Token.InOrder.stop_le_getLast (h : InOrder ts) {last : Token}
    (hlast : last ∈ ts.getLast?) (ht : t ∈ ts) : t.span.stop ≤ last.span.stop := by
  obtain ⟨us, rfl⟩ := List.getLast?_eq_some_iff.1 hlast
  rcases List.mem_append.1 ht with ht | ht
  · have hcross := (List.pairwise_append.1 h.ordered).2.2 t ht last (by simp)
    exact hcross.trans (h.start_le_stop last (by simp))
  · rw [List.mem_singleton.1 ht]

/-- A span merged with one that ends with the last of some later tokens covers all of them.

**Proof sketch.** The merged span begins with the first token of the first list, which begins no
later than `b` by the order.  It stops with the later of the two ends, and that is the end of the
last token of all. -/
theorem Span.Covers.merge (h : a.Covers ts) (hin : InOrder (ts ++ us)) {last : Token}
    (hlast : last ∈ us.getLast?) (hstart : ∃ u ∈ us, b.start = u.span.start)
    (hstop : b.stop = last.span.stop) : (a.merge b).Covers (ts ++ us) := by
  obtain ⟨first, hfirst, last', hlast', rfl⟩ := h
  obtain ⟨ts, rfl⟩ := List.head?_eq_some_iff.1 hfirst
  obtain ⟨u, hu, hb⟩ := hstart
  have hlast'' : last ∈ (first :: ts ++ us).getLast? :=
    List.mem_getLast?_append_of_mem_getLast? hlast
  have hle : first.span.start ≤ b.start := by
    rw [hb]
    exact hin.start_le (List.mem_append_right _ hu)
  have hle' : last'.span.stop ≤ b.stop := by
    rw [hstop]
    exact hin.stop_le_getLast hlast''
      (List.mem_append_left _ (List.mem_of_getLast? hlast'))
  refine ⟨first, rfl, last, hlast'', ?_⟩
  rw [Span.merge, if_pos hle, max_eq_right hle', hstop]

end Covers

namespace Spelling

/-- The lists of a language that the span covers if their tokens stand one behind the other. -/
def covering (s : Span) (L : Language Token) : Language Token :=
  {ts : List Token | ts ∈ L ∧ (Token.InOrder ts → s.Covers ts)}

section Covering

open Token

variable {s a b : Span} {L M K : Language Token} {t : Token} {ts vs : List Token}

/-- Tokens that a span covers are tokens of the language. -/
lemma covering_le : covering s L ≤ L := fun _ h => h.1

/-- A token is covered by its span. -/
lemma singleton_mem_covering (h : [t] ∈ L) : [t] ∈ covering t.span L :=
  ⟨h, fun _ => Span.covers_singleton t⟩

/-- What stands between the beginning of one part and the end of a later one is covered by their
spans merged. -/
lemma append_mem_covering (us : List Token) (hts : InOrder ts → a.Covers ts)
    (hvs : InOrder vs → b.Covers vs) (h : ts ++ (us ++ vs) ∈ L) :
    ts ++ (us ++ vs) ∈ covering (a.merge b) L := by
  refine ⟨h, fun hin => ?_⟩
  obtain ⟨first, hfirst, last, hlast, hb⟩ := hvs (hin.append.2.append.2)
  have hlast' : last ∈ (us ++ vs).getLast? := List.mem_getLast?_append_of_mem_getLast? hlast
  have hfirst' : first ∈ us ++ vs := List.mem_append_right _ (List.mem_of_head? hfirst)
  exact (hts hin.append.1).merge hin hlast' ⟨first, hfirst', by rw [hb]⟩ (by rw [hb])

end Covering

/-! ## Products and lists grow with their parts -/

section Mono

variable {α : Type} {L M : α → Language Token} {as : List α}

/-- Rows of larger languages are larger. -/
lemma prod_mono (h : ∀ a ∈ as, L a ≤ M a) : (as.map L).prod ≤ (as.map M).prod := by
  induction as with
  | nil => exact le_rfl
  | cons a as ih =>
    rw [List.forall_mem_cons] at h
    simp only [List.map_cons, List.prod_cons]
    exact mul_le_mul' h.1 (ih h.2)

/-- Larger languages with commas between them are larger. -/
lemma separated_mono (h : ∀ a ∈ as, L a ≤ M a) :
    separated (as.map L) ≤ separated (as.map M) := by
  rcases as with _ | ⟨a, as⟩
  · exact le_rfl
  · rw [List.forall_mem_cons] at h
    simp only [List.map_cons, separated, List.map_map]
    exact mul_le_mul' h.1 (prod_mono fun b hb => mul_le_mul' le_rfl (h.2 b hb))

end Mono

end Spelling

open Spelling

/-! ## Types and parameters -/

/-- The placed spelling of a type. -/
def DataType.placed : DataType → Language Token
  | lane type span => covering span (word .ident type.word)
  | rack type span => covering span (word .ident type.word * word .ident "rack")
  | stack name span => covering span (word .typeIdent name * keyword .stack)
  | single name span => covering span (word .typeIdent name * keyword .single)
  | pack name span => covering span (word .typeIdent name * word .ident "pack")
  | mask span => covering span (word .ident "mask")
  | function params result span =>
    covering span (sign .lParen * (separated (params.map DataType.placed)
      * (sign .rParen * (sign .arrow * result.placed))))
  | tuple items span =>
    covering span (sign .lParen * (separated (items.map DataType.placed) * sign .rParen))
  | unit span => covering span (sign .lParen * sign .rParen)

/-- The placed spelling of a scalar literal. -/
def ScalarLiteral.placed (l : ScalarLiteral) : Language Token := covering l.span l.spelling

/-- The placed spelling of a parameter. -/
def Parameter.placed : Parameter → Language Token
  | rack name none span => covering span (word .ident name)
  | rack name (some type) span =>
    covering span
      (sign .lParen * (word .ident name * (sign .colon * (type.placed * sign .rParen))))
  | scalar literal none span => covering span literal.placed
  | scalar literal (some type) span =>
    covering span
      (sign .lParen * (literal.placed * (sign .colon * (type.placed * sign .rParen))))

/-! ## Expressions -/

mutual

/-- The placed spelling of an expression. -/
def Expression.placed : Expression → Language Token
  | .binary op lhs rhs span => covering span (lhs.placed * (op.spelling * rhs.placed))
  | .unary op operand span => covering span (op.spelling * operand.placed)
  | .call name args span =>
    covering span (word .ident name * (sign .lParen
      * (separated (args.map Expression.placed) * sign .rParen)))
  | .field base name span => covering span (base.placed * (sign .dot * word .ident name))
  | .scalar literal => literal.placed
  | .record name inits span =>
    covering span (word .typeIdent name * (sign .lBrace
      * (separated (inits.map FieldInit.placed) * sign .rBrace)))
  | .reduce op operand span => covering span (operand.placed * sign (.reduce op))
  | .scan op operand span => covering span (operand.placed * sign (.scan op))
  | .shuffle operand indices span =>
    covering span (operand.placed * (sign .shuffle * (sign .lBracket
      * (separated (indices.map integer) * sign .rBracket))))
  | .lambda params body span =>
    covering span
      (keyword .funKw * ((params.map Parameter.placed).prod * (sign .arrow * body.placed)))
  | .letIn name value body span =>
    covering span (keyword .letKw * (word .ident name * (sign .equal
      * (value.placed * (keyword .inKw * body.placed)))))
  | .ident name span => covering span (word .ident name)
  | .number value span => covering span value.spelling
  | .bool value span => covering span (truth value)
  | .laneIndex span => covering span (sign .atSign)
  | .lanes span => covering span (keyword .lanes)
  | .unit span => covering span (sign .lParen * sign .rParen)
  | .paren inner span => covering span (sign .lParen * (inner.placed * sign .rParen))
  | .tuple items span =>
    covering span (sign .lParen * (separated (items.map Expression.placed) * sign .rParen))

/-- The placed spelling of a field of a record expression. -/
def FieldInit.placed : FieldInit → Language Token
  | .mk name value span => covering span (word .ident name * (sign .define * value.placed))

end

/-! ## Predicates -/

/-- The placed spelling of the mention of a tine. -/
def TineRef.placed (tine : TineRef) : Language Token := covering tine.span tine.spelling

/-- The placed spelling of a predicate, where no operand of a comparison is taken for more than an
operand. -/
def Predicate.placed : Predicate → Language Token
  | or lhs rhs span => covering span (lhs.placed * (orSign * rhs.placed))
  | and lhs rhs span => covering span (lhs.placed * (andSign * rhs.placed))
  | not operand span => covering span (notSign * operand.placed)
  | compare op lhs rhs span =>
    covering span (notBeginning [.symbol .bang, .keyword .not] lhs.placed * (op.spelling
      * notBeginning (if op = .is then [.keyword .not] else []) rhs.placed))
  | tineTest tine => tine.placed
  | group inner span => covering span (sign .lParen * (inner.placed * sign .rParen))
  | const value span => covering span (truth value)

/-! ## Statements -/

/-- The placed spelling of the type of a binding, behind a colon. -/
def Spelling.placedAscription : Option DataType → Language Token
  | none => 1
  | some type => sign .colon * type.placed

/-- The placed spelling of a binding. -/
def LetBinding.placed (b : LetBinding) : Language Token :=
  covering b.span (keyword .letKw * (word .ident b.name * (placedAscription b.type
    * (sign .equal * b.value.placed))))

/-- The placed spelling of a statement. -/
def Statement.placed : Statement → Language Token
  | letBinding binding => binding.placed
  | assign name value span =>
    covering span (word .ident name * (sign .leftArrow * value.placed))
  | overPack pack count binding body span =>
    covering span (keyword .overKw * (pack.placed * (sign .comma * (count.placed
      * (sign .pipeForward * (word .ident binding * (sign .colon * body.placed)))))))
  | expression value => value.placed

/-! ## Sections of a rake -/

/-- The placed spelling of a tine and its guard. -/
def TineDecl.placed (d : TineDecl) : Language Token :=
  covering d.span (sign .pipe * (d.tine.placed * (sign .define
    * (sign .lParen * (d.guard.placed * sign .rParen)))))

/-- The placed spelling of the guard of a through block, without the parentheses of a predicate,
which its span leaves out. -/
def ThroughGuard.placed : ThroughGuard → Language Token
  | tine ref => ref.placed
  | predicate guard => guard.placed

/-- The placed spelling of the guard of a through block, with the parentheses of a predicate. -/
def ThroughGuard.placedWhole : ThroughGuard → Language Token
  | tine ref => (ThroughGuard.tine ref).placed
  | predicate guard => sign .lParen * ((ThroughGuard.predicate guard).placed * sign .rParen)

/-- The placed spelling of the constant of a through block, behind the word `else`. -/
def Spelling.placedAlternative : Option Fallback → Language Token
  | none => 1
  | some value => keyword .elseKw * value.toExpression.placed

/-- The placed spelling of a through block. -/
def ThroughBlock.placed (b : ThroughBlock) : Language Token :=
  covering b.span (keyword .through * (b.guard.placedWhole * (placedAlternative b.fallback
    * (sign .colon * ((b.setup.map LetBinding.placed).prod * b.value.placed
      * (sign .arrow * word .ident b.binding))))))

/-- The placed spelling of the target of an arm. -/
def SweepTarget.placed : SweepTarget → Language Token
  | tine ref => ref.placed
  | wildcard span => covering span (word .ident "_")

/-- The placed spelling of an arm. -/
def SweepArm.placed (a : SweepArm) : Language Token :=
  covering a.span (sign .pipe * (a.target.placed * (sign .arrow * a.value.placed)))

/-- The placed spelling of a sweep. -/
def SweepBlock.placed (b : SweepBlock) : Language Token :=
  covering b.span (keyword .sweep * (sign .colon * ((b.arms.map SweepArm.placed).prod
    * (sign .arrow * word .ident b.binding))))

/-! ## Definitions -/

/-- The placed spelling of the result of a routine. -/
def ResultSpec.placed : ResultSpec → Language Token
  | single name none span => covering span (word .ident name)
  | single name (some type) span =>
    covering span
      (sign .lParen * (word .ident name * (sign .colon * (type.placed * sign .rParen))))
  | tuple names span =>
    covering span (sign .lParen * (separated (names.map (word .ident)) * sign .rParen))

/-- The placed spelling of the parameters and the result of a routine. -/
def Spelling.placedSignature (params : List Parameter) (result : ResultSpec) : Language Token :=
  (params.map Parameter.placed).prod * (sign .arrow * (result.placed * sign .colon))

/-- The placed spelling of a field of a record. -/
def FieldDef.placed (f : FieldDef) : Language Token :=
  covering f.span (word .ident f.name * (sign .colon * f.type.placed))

/-- The placed spelling of a record behind the word that says how it is seen. -/
def RecordDef.placed (r : RecordDef) : Language Token :=
  word .typeIdent r.name * (sign .lBrace
    * (separated (r.fields.map FieldDef.placed) * sign .rBrace))

/-- The placed spelling of a name for a type behind its first word. -/
def TypeAlias.placed (a : TypeAlias) : Language Token :=
  word .typeIdent a.name * (sign .equal * a.aliased.placed)

/-- The placed spelling of a routine behind its first word. -/
def Routine.placed (r : Routine) : Language Token :=
  word .ident r.name * (placedSignature r.params r.result * (r.body.map Statement.placed).prod)

/-- The placed spelling of a rake behind its first word. -/
def RakeDef.placed (r : RakeDef) : Language Token :=
  word .ident r.name * (placedSignature r.params r.result
    * ((r.setup.map LetBinding.placed).prod * ((r.tines.map TineDecl.placed).prod
      * ((r.throughs.map ThroughBlock.placed).prod * r.sweep.placed))))

/-- The placed spelling of a definition.  The span of its body is its own, and begins with the word
that tells what it is. -/
def Definition.placed : Definition → Language Token
  | stack record => covering record.span (keyword .stack * record.placed)
  | single record => covering record.span (keyword .single * record.placed)
  | type body => covering body.span (keyword .type * body.placed)
  | crunch routine => covering routine.span (keyword .crunch * routine.placed)
  | rake body => covering body.span (keyword .rake * body.placed)
  | run routine => covering routine.span (keyword .run * routine.placed)

/-! ## Spans of placed trees -/

section Spans

variable {ts : List Token}

/-- The span of a type covers what it is spelled by at its place. -/
lemma DataType.covers_of_placed (t : DataType) (h : ts ∈ t.placed) :
    Token.InOrder ts → t.span.Covers ts := by
  cases t
  all_goals
    rw [DataType.placed] at h
    exact h.2

/-- The span of an expression covers what it is spelled by at its place. -/
lemma Expression.covers_of_placed (e : Expression) (h : ts ∈ e.placed) :
    Token.InOrder ts → e.span.Covers ts := by
  cases e
  all_goals
    rw [Expression.placed] at h
    exact h.2

/-- An expression has a token. -/
lemma Expression.ne_nil_of_placed (e : Expression) (h : ts ∈ e.placed) : ts ≠ [] := by
  rintro rfl
  exact (e.covers_of_placed h ⟨by simp, .nil⟩).ne_nil rfl

/-- The span of a predicate covers what it is spelled by at its place. -/
lemma Predicate.covers_of_placed (p : Predicate) (h : ts ∈ p.placed) :
    Token.InOrder ts → p.span.Covers ts := by
  cases p
  all_goals exact h.2

end Spans

/-! ## Placed spellings are spellings -/

/-- A type is spelled at its place by a spelling of it. -/
theorem DataType.placed_le : ∀ t : DataType, t.placed ≤ t.spelling
  | lane .. | rack .. | stack .. | single .. | pack .. | mask .. | unit .. => by
    rw [DataType.placed, DataType.spelling]
    exact covering_le
  | function params result span => by
    rw [DataType.placed, DataType.spelling]
    refine covering_le.trans (mul_le_mul' le_rfl (mul_le_mul' ?_ ?_))
    · exact separated_mono fun t ht => DataType.placed_le t
    · exact mul_le_mul' le_rfl (mul_le_mul' le_rfl (DataType.placed_le result))
  | tuple items span => by
    rw [DataType.placed, DataType.spelling]
    refine covering_le.trans (mul_le_mul' le_rfl (mul_le_mul' ?_ le_rfl))
    exact separated_mono fun t ht => DataType.placed_le t

/-- A parameter is spelled at its place by a spelling of it. -/
lemma Parameter.placed_le (p : Parameter) : p.placed ≤ p.spelling := by
  rcases p with ⟨name, _ | type, span⟩ | ⟨literal, _ | type, span⟩
  all_goals
    rw [Parameter.placed, Parameter.spelling]
    refine covering_le.trans ?_
  · exact le_rfl
  · exact mul_le_mul' le_rfl (mul_le_mul' le_rfl (mul_le_mul' le_rfl
      (mul_le_mul' type.placed_le le_rfl)))
  · exact covering_le
  · exact mul_le_mul' le_rfl (mul_le_mul' covering_le (mul_le_mul' le_rfl
      (mul_le_mul' type.placed_le le_rfl)))

mutual

/-- A placed spelling of an expression is a spelling of it.

**Proof sketch.** Induction on the expression and its fields; all ways to put languages together
keep their order. -/
theorem Expression.placed_le : ∀ e : Expression, e.placed ≤ e.spelling
  | .binary op lhs rhs span => by
    rw [Expression.placed, Expression.spelling]
    exact covering_le.trans
      (mul_le_mul' lhs.placed_le (mul_le_mul' le_rfl rhs.placed_le))
  | .unary op operand span => by
    rw [Expression.placed, Expression.spelling]
    exact covering_le.trans (mul_le_mul' le_rfl operand.placed_le)
  | .call name args span => by
    rw [Expression.placed, Expression.spelling]
    refine covering_le.trans (mul_le_mul' le_rfl (mul_le_mul' le_rfl (mul_le_mul' ?_ le_rfl)))
    exact separated_mono fun a ha => a.placed_le
  | .field base name span | .reduce op base span | .scan op base span
  | .shuffle base indices span => by
    rw [Expression.placed, Expression.spelling]
    exact covering_le.trans (mul_le_mul' base.placed_le le_rfl)
  | .record name inits span => by
    rw [Expression.placed, Expression.spelling]
    refine covering_le.trans (mul_le_mul' le_rfl (mul_le_mul' le_rfl (mul_le_mul' ?_ le_rfl)))
    exact separated_mono fun i hi => i.placed_le
  | .lambda params body span => by
    rw [Expression.placed, Expression.spelling]
    refine covering_le.trans (mul_le_mul' le_rfl (mul_le_mul' ?_ ?_))
    · exact prod_mono fun p _ => p.placed_le
    · exact mul_le_mul' le_rfl body.placed_le
  | .letIn name value body span => by
    rw [Expression.placed, Expression.spelling]
    exact covering_le.trans (mul_le_mul' le_rfl (mul_le_mul' le_rfl (mul_le_mul' le_rfl
      (mul_le_mul' value.placed_le (mul_le_mul' le_rfl body.placed_le)))))
  | .paren inner span => by
    rw [Expression.placed, Expression.spelling]
    exact covering_le.trans (mul_le_mul' le_rfl (mul_le_mul' inner.placed_le le_rfl))
  | .tuple items span => by
    rw [Expression.placed, Expression.spelling]
    refine covering_le.trans (mul_le_mul' le_rfl (mul_le_mul' ?_ le_rfl))
    exact separated_mono fun e he => e.placed_le
  | .scalar .. | .ident .. | .number .. | .bool .. | .laneIndex .. | .lanes .. | .unit .. => by
    rw [Expression.placed, Expression.spelling]
    exact covering_le

/-- A placed spelling of a field is a spelling of it. -/
lemma FieldInit.placed_le : ∀ i : FieldInit, i.placed ≤ i.spelling
  | .mk name value span => by
    rw [FieldInit.placed, FieldInit.spelling]
    exact covering_le.trans (mul_le_mul' le_rfl (mul_le_mul' le_rfl value.placed_le))

end

/-- What does not begin with some kinds, in a larger language. -/
lemma Spelling.notBeginning_mono {kinds : List Kind} {L M : Language Token} (h : L ≤ M) :
    notBeginning kinds L ≤ notBeginning kinds M := fun _ hts => ⟨h hts.1, hts.2⟩

/-- A placed spelling of a predicate is plain. -/
lemma Predicate.placed_le (p : Predicate) : p.placed ≤ p.plainSpelling := by
  induction p with
  | or lhs rhs span ihl ihr | and lhs rhs span ihl ihr =>
    exact covering_le.trans (mul_le_mul' ihl (mul_le_mul' le_rfl ihr))
  | not operand span ih => exact covering_le.trans (mul_le_mul' le_rfl ih)
  | compare op lhs rhs span =>
    exact covering_le.trans (mul_le_mul' (notBeginning_mono lhs.placed_le)
      (mul_le_mul' le_rfl (notBeginning_mono rhs.placed_le)))
  | group inner span ih =>
    exact covering_le.trans (mul_le_mul' le_rfl (mul_le_mul' ih le_rfl))
  | tineTest tine => exact covering_le
  | const value span => exact covering_le

section Definitions

/-- A binding is spelled at its place by a spelling of it. -/
lemma LetBinding.placed_le (b : LetBinding) : b.placed ≤ b.spelling := by
  refine covering_le.trans (mul_le_mul' le_rfl (mul_le_mul' le_rfl (mul_le_mul' ?_ ?_)))
  · rcases b.type with _ | type
    · exact le_rfl
    · exact mul_le_mul' le_rfl type.placed_le
  · exact mul_le_mul' le_rfl b.value.placed_le

/-- A statement is spelled at its place by a spelling of it. -/
lemma Statement.placed_le (s : Statement) : s.placed ≤ s.spelling := by
  cases s with
  | letBinding binding => exact binding.placed_le
  | assign name value span =>
    exact covering_le.trans (mul_le_mul' le_rfl (mul_le_mul' le_rfl value.placed_le))
  | overPack pack count binding body span =>
    exact covering_le.trans (mul_le_mul' le_rfl (mul_le_mul' pack.placed_le (mul_le_mul' le_rfl
      (mul_le_mul' covering_le (mul_le_mul' le_rfl (mul_le_mul' le_rfl (mul_le_mul' le_rfl
        body.placed_le)))))))
  | expression value => exact value.placed_le

/-- A tine is spelled at its place by a spelling of it. -/
lemma TineDecl.placed_le (d : TineDecl) : d.placed ≤ d.spelling := by
  refine covering_le.trans (mul_le_mul' le_rfl (mul_le_mul' covering_le (mul_le_mul' le_rfl
    (mul_le_mul' le_rfl (mul_le_mul' ?_ le_rfl)))))
  exact d.guard.placed_le.trans fun _ => Predicate.mem_spelling_of_plain

/-- The guard of a through block is spelled at its place by a spelling of it. -/
lemma ThroughGuard.placedWhole_le (g : ThroughGuard) : g.placedWhole ≤ g.spelling := by
  cases g with
  | tine ref => exact covering_le
  | predicate guard =>
    refine mul_le_mul' le_rfl (mul_le_mul' ?_ le_rfl)
    exact guard.placed_le.trans fun _ => Predicate.mem_spelling_of_plain

/-- A fallback is spelled as the expression that it stands for. -/
lemma Fallback.spelling_toExpression (f : Fallback) :
    f.toExpression.spelling = f.spelling := by
  cases f <;> rw [Fallback.toExpression, Expression.spelling, Fallback.spelling]

/-- A through block is spelled at its place by a spelling of it. -/
lemma ThroughBlock.placed_le (b : ThroughBlock) : b.placed ≤ b.spelling := by
  refine covering_le.trans (mul_le_mul' le_rfl (mul_le_mul' b.guard.placedWhole_le
    (mul_le_mul' ?_ (mul_le_mul' le_rfl (mul_le_mul' (mul_le_mul' ?_ b.value.placed_le)
      le_rfl)))))
  · rcases b.fallback with _ | value
    · exact le_rfl
    · exact mul_le_mul' le_rfl (value.toExpression.placed_le.trans value.spelling_toExpression.le)
  · exact prod_mono fun b _ => b.placed_le

/-- An arm of a sweep is spelled at its place by a spelling of it. -/
lemma SweepArm.placed_le (a : SweepArm) : a.placed ≤ a.spelling := by
  refine covering_le.trans (mul_le_mul' le_rfl (mul_le_mul' ?_
    (mul_le_mul' le_rfl a.value.placed_le)))
  cases a.target <;> exact covering_le

/-- A sweep is spelled at its place by a spelling of it. -/
lemma SweepBlock.placed_le (b : SweepBlock) : b.placed ≤ b.spelling :=
  covering_le.trans (mul_le_mul' le_rfl (mul_le_mul' le_rfl
    (mul_le_mul' (prod_mono fun a _ => a.placed_le) le_rfl)))

/-- Results are spelled at their place by a spelling of them. -/
lemma ResultSpec.placed_le (r : ResultSpec) : r.placed ≤ r.spelling := by
  rcases r with ⟨name, _ | type, span⟩ | ⟨names, span⟩
  · exact covering_le
  · exact covering_le.trans (mul_le_mul' le_rfl (mul_le_mul' le_rfl (mul_le_mul' le_rfl
      (mul_le_mul' type.placed_le le_rfl))))
  · exact covering_le

/-- A signature is spelled at its place by a spelling of it. -/
lemma Spelling.placedSignature_le (params : List Parameter) (result : ResultSpec) :
    placedSignature params result ≤ signature params result :=
  mul_le_mul' (prod_mono fun p _ => p.placed_le)
    (mul_le_mul' le_rfl (mul_le_mul' result.placed_le le_rfl))

/-- A field of a record is spelled at its place by a spelling of it. -/
lemma FieldDef.placed_le (f : FieldDef) : f.placed ≤ f.spelling :=
  covering_le.trans (mul_le_mul' le_rfl (mul_le_mul' le_rfl f.type.placed_le))

/-- A placed spelling of a definition is a spelling of it.

**Proof sketch.** By cases on the definition: a spelling is a product of languages, and a
product grows with each of its factors. -/
theorem Definition.placed_le (d : Definition) : d.placed ≤ d.spelling := by
  cases d with
  | stack record | single record =>
    exact covering_le.trans (mul_le_mul' le_rfl (mul_le_mul' le_rfl (mul_le_mul' le_rfl
      (mul_le_mul' (separated_mono fun f _ => f.placed_le) le_rfl))))
  | type body =>
    exact covering_le.trans (mul_le_mul' le_rfl (mul_le_mul' le_rfl (mul_le_mul' le_rfl
      body.aliased.placed_le)))
  | crunch routine | run routine =>
    exact covering_le.trans (mul_le_mul' le_rfl (mul_le_mul' le_rfl
      (mul_le_mul' (placedSignature_le _ _) (prod_mono fun s _ => s.placed_le))))
  | rake body =>
    refine covering_le.trans (mul_le_mul' le_rfl (mul_le_mul' le_rfl
      (mul_le_mul' (placedSignature_le _ _) ?_)))
    exact mul_le_mul' (prod_mono fun b _ => b.placed_le)
      (mul_le_mul' (prod_mono fun d _ => d.placed_le)
        (mul_le_mul' (prod_mono fun b _ => b.placed_le) body.sweep.placed_le))

end Definitions

end RakeLang
