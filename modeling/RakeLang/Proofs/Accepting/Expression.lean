import RakeLang.Proofs.Accepting.Parameter
import RakeLang.Proofs.Reading.Expression

/-!
# What the reader of expressions accepts

Every canonical expression is read from each of its spellings, before a token that cannot go on
with it.  The proof follows the spine of the expression through the levels: the left operand of a
chain is read by the rounds so far, the operator is not one of the tighter levels, and an operand
that reaches as far as it can stands last only.  The expressions inside the spine are shorter, so
that they are accepted by the inner parser.

## Main definitions

* `RakeLang.Kind.opensExpression` — the kinds of the first token of an expression.
* `RakeLang.EndsOperand`, `RakeLang.EndsExpression` — what can stand behind an operand and behind
  an expression.

## Main results

* `RakeLang.Parser.primary_accepts`, `RakeLang.Parser.operand_accepts`,
  `RakeLang.Parser.binary_accepts` — the layers of an expression.
* `RakeLang.Parser.expression_accepts` — expressions.
-/

set_option relaxedAutoImplicit false
set_option autoImplicit false

namespace RakeLang

open Spelling

/-! ## First tokens -/

namespace Kind

/-- Does a token of this kind begin a primary expression? -/
def opensPrimary : Kind → Bool
  | ident | typeIdent | int | float | keyword .true | keyword .false | keyword .lanes
  | symbol .atSign | symbol .lParen | symbol .less | symbol .leftArrow => true
  | _ => false

/-- Does a token of this kind begin an expression? -/
def opensExpression : Kind → Bool
  | keyword .funKw | keyword .letKw | keyword .not | symbol .minus | symbol .bang => true
  | kind => kind.opensPrimary

/-- Does a token of this kind begin a suffix? -/
def isSuffix : Kind → Bool
  | symbol .dot | symbol .shuffle | symbol (.reduce _) | symbol (.scan _) => true
  | _ => false

/-- A token that opens a primary expression opens an expression. -/
lemma opensExpression_of_opensPrimary {kind : Kind} (h : kind.opensPrimary = true) :
    kind.opensExpression = true := by
  unfold opensExpression
  split <;> simp_all

/-- A unary operator opens an expression. -/
lemma opensExpression_of_unaryOp? {kind : Kind} {op : UnaryOp} (h : kind.unaryOp? = some op) :
    kind.opensExpression = true := by
  unfold unaryOp? at h
  split at h <;> simp_all [opensExpression]

/-- A number opens a primary expression. -/
lemma opensPrimary_of_isNumber {kind : Kind} (h : kind.isNumber = true) :
    kind.opensPrimary = true := by
  unfold isNumber at h
  split at h <;> simp_all [opensPrimary]

/-- A token that opens a primary expression is no unary operator. -/
lemma unaryOp?_of_opensPrimary {kind : Kind} (h : kind.opensPrimary = true) :
    kind.unaryOp? = none := by
  unfold opensPrimary at h
  split at h <;> simp_all [unaryOp?]

end Kind

namespace Expression

/-- Is this an expression that a suffix can stand behind, but none with a suffix? -/
def IsPrimary : Expression → Prop
  | call .. | scalar .. | record .. | ident .. | number .. | bool .. | laneIndex .. | lanes ..
  | unit .. | paren .. | tuple .. => True
  | _ => False

/-- An expression that a suffix can stand behind has no suffix, or it is such an expression with one
suffix more.

**Proof sketch.** By the last constructor of the expression.  The four suffixes are taken off; the
base is canonical, since the expression is. -/
lemma isPrimary_or_suffixed {e : Expression} (hcan : e.Canonical) (hbase : e.isBase = true) :
    e.IsPrimary ∨ ∃ (base : Expression) (s : Parser.Suffix), base.Canonical ∧ base.isBase = true
      ∧ e.spelling = base.spelling * s.spelling
      ∧ (s.attach base).withoutSpans = e.withoutSpans := by
  cases e <;> simp only [isBase, Bool.false_eq_true] at hbase
  case field base name span =>
    rw [Canonical, Everywhere] at hcan
    refine .inr ⟨base, .field name .origin, hcan.2, hcan.1.1, by rw [Expression.spelling]; rfl, ?_⟩
    rw [Parser.Suffix.attach, Expression.withoutSpans, Expression.withoutSpans]
  case shuffle base indices span =>
    rw [Canonical, Everywhere] at hcan
    refine .inr ⟨base, .shuffle indices .origin, hcan.2, hcan.1.1,
      by rw [Expression.spelling]; rfl, ?_⟩
    rw [Parser.Suffix.attach, Expression.withoutSpans, Expression.withoutSpans]
  case reduce op base span =>
    rw [Canonical, Everywhere] at hcan
    refine .inr ⟨base, .reduce op .origin, hcan.2, hcan.1.1, by rw [Expression.spelling]; rfl, ?_⟩
    rw [Parser.Suffix.attach, Expression.withoutSpans, Expression.withoutSpans]
  case scan op base span =>
    rw [Canonical, Everywhere] at hcan
    refine .inr ⟨base, .scan op .origin, hcan.2, hcan.1.1, by rw [Expression.spelling]; rfl, ?_⟩
    rw [Parser.Suffix.attach, Expression.withoutSpans, Expression.withoutSpans]
  all_goals exact .inl trivial

/-- The first token of a primary expression.

**Proof sketch.** Each primary expression has a first token of its own in each of its spellings. -/
lemma IsPrimary.opensPrimary_of_mem {e : Expression} (h : e.IsPrimary) {ts : List Token}
    (hts : ts ∈ e.spelling) (rest : List Token) :
    (headKind (ts ++ rest)).opensPrimary = true := by
  cases e <;> simp only [IsPrimary] at h
  all_goals rw [Expression.spelling] at hts
  case scalar literal =>
    rcases Parser.headKind_of_mem_scalar hts rest with h | h <;> simp [h, Kind.opensPrimary]
  case number value span =>
    obtain ⟨t, ht, rfl⟩ := hts
    exact Kind.opensPrimary_of_isNumber (Parser.isNumber_of_number? ht)
  case bool value span =>
    cases value
    all_goals
      obtain ⟨t, ht, rfl⟩ := hts
      simp [ht, Kind.opensPrimary]
  case ident name span =>
    obtain ⟨t, ht, rfl⟩ := hts
    simp [ht.1, Kind.opensPrimary]
  case laneIndex span | lanes span =>
    obtain ⟨t, ht, rfl⟩ := hts
    simp [ht, Kind.opensPrimary]
  case call name args span | record name inits span =>
    obtain ⟨t, us, ht, -, rfl⟩ := mem_token_mul.1 hts
    simp [ht.1, Kind.opensPrimary]
  all_goals
    obtain ⟨t, us, ht, -, rfl⟩ := mem_token_mul.1 hts
    simp [ht, Kind.opensPrimary]

/-- A list of tokens of two languages, the second of which has no empty list, begins with a
shorter one of the first. -/
lemma exists_shorter_of_mem_mul {L M : Language Token} (hM : [] ∉ M) {ts : List Token}
    (hts : ts ∈ L * M) :
    ∃ us ∈ L, ∃ vs ∈ M, ts = us ++ vs ∧ us.length < ts.length := by
  obtain ⟨us, hus, vs, hvs, rfl⟩ := Language.mem_mul.1 hts
  refine ⟨us, hus, vs, hvs, rfl, ?_⟩
  have : 0 < vs.length := List.length_pos_iff.2 fun h => hM (h ▸ hvs)
  rw [List.length_append]
  omega

/-- The first token of an expression that a suffix can stand behind, canonical as it is.

**Proof sketch.** Induction along the suffixes, which shorten the list of tokens. -/
lemma opensPrimary_of_mem {e : Expression} {ts : List Token} (hcan : e.Canonical)
    (hbase : e.isBase = true) (hts : ts ∈ e.spelling) (rest : List Token) :
    (headKind (ts ++ rest)).opensPrimary = true := by
  induction hlen : ts.length using Nat.strong_induction_on generalizing e ts rest with
  | _ n ih =>
    rcases isPrimary_or_suffixed hcan hbase with h | ⟨base, s, hcan', hbase', hspelling, -⟩
    · exact h.opensPrimary_of_mem hts rest
    · rw [hspelling] at hts
      obtain ⟨us, hus, vs, -, rfl, hlt⟩ := exists_shorter_of_mem_mul s.nil_notMem_spelling hts
      rw [List.append_assoc]
      exact ih us.length (hlen ▸ hlt) hcan' hbase' hus (vs ++ rest) rfl

/-- The first token of a canonical expression.

**Proof sketch.** Induction along the left operands. -/
lemma opensExpression_of_mem :
    ∀ {e : Expression} {ts : List Token}, e.Canonical → ts ∈ e.spelling →
      ∀ rest, (headKind (ts ++ rest)).opensExpression = true
  | .binary op lhs rhs span, ts, hcan, hts, rest => by
    rw [Canonical, Everywhere] at hcan
    rw [Expression.spelling] at hts
    obtain ⟨us, hus, vs, -, rfl⟩ := Language.mem_mul.1 hts
    rw [List.append_assoc]
    exact opensExpression_of_mem hcan.2.1 hus (vs ++ rest)
  | .unary op operand span, ts, _, hts, rest => by
    rw [Expression.spelling] at hts
    obtain ⟨t, us, ht, -, rfl⟩ := mem_token_mul.1 hts
    exact Kind.opensExpression_of_unaryOp? ht
  | .lambda params body span, ts, _, hts, rest
  | .letIn name value body span, ts, _, hts, rest => by
    rw [Expression.spelling] at hts
    obtain ⟨t, us, ht, -, rfl⟩ := mem_token_mul.1 hts
    simp [ht, Kind.opensExpression]
  | .call .., ts, hcan, hts, rest | .field .., ts, hcan, hts, rest | .scalar .., ts, hcan, hts, rest
  | .record .., ts, hcan, hts, rest | .reduce .., ts, hcan, hts, rest
  | .scan .., ts, hcan, hts, rest | .shuffle .., ts, hcan, hts, rest
  | .ident .., ts, hcan, hts, rest | .number .., ts, hcan, hts, rest
  | .bool .., ts, hcan, hts, rest | .laneIndex .., ts, hcan, hts, rest
  | .lanes .., ts, hcan, hts, rest | .unit .., ts, hcan, hts, rest
  | .paren .., ts, hcan, hts, rest | .tuple .., ts, hcan, hts, rest =>
    Kind.opensExpression_of_opensPrimary (opensPrimary_of_mem hcan rfl hts rest)

/-- A canonical expression has a token. -/
lemma Canonical.nil_notMem_spelling {e : Expression} (h : e.Canonical) : [] ∉ e.spelling := by
  intro hnil
  have := opensExpression_of_mem h hnil []
  simp [Kind.opensExpression, Kind.opensPrimary] at this

end Expression

/-! ## What can stand behind -/

/-- What can stand behind an operand: no token that would go on with it, and none that would be
split. -/
structure EndsOperand (rest : List Token) : Prop where
  suffix : (headKind rest).isSuffix = false
  paren : headKind rest ≠ .symbol .lParen
  arrow : headKind rest ≠ .symbol .leftArrow
  sign : ∀ t ∈ rest.head?, t.isSignedNumber = false

/-- What can stand behind an expression: besides, no binary operator. -/
structure EndsExpression (rest : List Token) : Prop extends EndsOperand rest where
  operator : (headKind rest).binaryOp? = none

/-- What can stand behind an expression is told by the kind of its first token, if this is no
number. -/
lemma endsExpression_of_kind {rest : List Token} {kind : Kind} (h : headKind rest = kind)
    (hnumber : kind.isNumber = false) (hsuffix : kind.isSuffix = false)
    (hparen : kind ≠ .symbol .lParen) (harrow : kind ≠ .symbol .leftArrow)
    (hoperator : kind.binaryOp? = none) : EndsExpression rest := by
  subst h
  refine ⟨⟨hsuffix, hparen, harrow, fun t ht => ?_⟩, hoperator⟩
  obtain ⟨ts, rfl⟩ := List.head?_eq_some_iff.1 ht
  rw [headKind_cons] at hnumber
  simp [Token.isSignedNumber, hnumber]

/-- A token that closes a bracket or a list, or the word `in`, can stand behind an expression. -/
lemma endsExpression_of_headKind {rest : List Token}
    (h : headKind rest = .symbol .comma ∨ headKind rest = .symbol .rParen
      ∨ headKind rest = .symbol .rBrace ∨ headKind rest = .keyword .inKw
      ∨ headKind rest = .eof) : EndsExpression rest := by
  rcases h with h | h | h | h | h
  all_goals exact endsExpression_of_kind h rfl rfl (by simp) (by simp) rfl

namespace Parser

open Token Expression

/-- The inner expressions with at most `n` tokens are accepted by `inner`. -/
def Complete (inner : Parser Expression) (n : Nat) : Prop :=
  ∀ e : Expression, e.Canonical → ∀ ts ∈ e.spelling, ts.length ≤ n → ∀ rest, EndsExpression rest →
    inner.Accepts ts rest fun e' => e'.withoutSpans = e.withoutSpans

/-! ## Primary expressions -/

section Primary

variable {inner : Parser Expression} {n : Nat} {ts rest : List Token}

/-- No expression begins with a token that closes a bracket. -/
lemma headKind_ne_of_mem {e : Expression} {kind : Kind} (he : e.Canonical)
    (hts : ts ∈ e.spelling) (hkind : kind.opensExpression = false) (more : List Token) :
    headKind (ts ++ more) ≠ kind := by
  intro h
  have hopens := opensExpression_of_mem he hts more
  rw [h, hkind] at hopens
  cases hopens

/-- A call is read behind its name, before whatever stands behind its closing parenthesis.

**Proof sketch.** The parenthesis behind the name tells a call from a name.  Each argument is
shorter than the call, so that the inner reader accepts it before the comma or the parenthesis
behind it. -/
lemma call_accepts (hinner : Complete inner n) {name : String} {args : List Expression}
    {span : Span} (hcan : (Expression.call name args span).Canonical)
    (hts : ts ∈ (Expression.call name args span).spelling) (hlen : ts.length ≤ n + 1) :
    (nameOrCall inner).Accepts ts rest fun e' =>
      e'.withoutSpans = (Expression.call name args span).withoutSpans := by
  rw [Canonical, Everywhere] at hcan
  rw [Expression.spelling] at hts
  obtain ⟨t, _, ⟨ht, rfl⟩, hws, rfl⟩ := mem_token_mul.1 hts
  obtain ⟨lp, _, hlp, hvs, rfl⟩ := mem_token_mul.1 hws
  obtain ⟨us, hus, _, ⟨rp, hrp, rfl⟩, rfl⟩ := Language.mem_mul.1 hvs
  simp only [List.length_cons, List.length_append, List.length_nil] at hlen
  unfold nameOrCall
  apply Accepts.checkAhead_bind
  rw [if_pos (by simpa using hlp)]
  unfold call
  refine .expect_bind ht (.expect_bind hlp ?_)
  have hargs : (commaSeparated (.symbol .rParen) inner).Accepts us ([rp] ++ rest)
      (List.Forall₂ (fun e' e : Expression => e'.withoutSpans = e.withoutSpans) · args) := by
    refine Accepts.commaSeparated hus (fun e he vs hvs hlen' more hmore => ?_)
      (fun e he vs hvs more => headKind_ne_of_mem (hcan.2 e he) hvs rfl more) (by simp) hrp
    exact hinner e (hcan.2 e he) vs hvs (by omega) more
      (endsExpression_of_headKind (by rcases hmore with h | h <;> simp [h]))
  refine hargs.bind fun args' hargs' => .expect_bind hrp (.spanFrom_bind fun span' => .pure ?_)
  rw [Expression.withoutSpans, Expression.withoutSpans, map_eq_map hargs']

/-- A field of a record expression is read, with its value. -/
lemma fieldInit_accepts (hinner : Complete inner n) {i : FieldInit}
    (hcan : i.Everywhere fun e => e.Ranked ∧ e.Furnished) (hts : ts ∈ i.spelling)
    (hlen : ts.length ≤ n + 1) (hrest : EndsExpression rest) :
    (fieldInit inner).Accepts ts rest fun i' => i'.withoutSpans = i.withoutSpans := by
  rcases i with ⟨name, value, span⟩
  rw [FieldInit.Everywhere] at hcan
  rw [FieldInit.spelling] at hts
  obtain ⟨t, _, ⟨ht, rfl⟩, hws, rfl⟩ := mem_token_mul.1 hts
  obtain ⟨define, us, hdefine, hus, rfl⟩ := mem_token_mul.1 hws
  simp only [List.length_cons] at hlen
  unfold fieldInit
  refine .expect_bind ht (.expect_bind hdefine ?_)
  refine (hinner value hcan us hus (by omega) rest hrest).bind_nil fun value' hvalue' => ?_
  refine .spanFrom_bind fun span' => .pure ?_
  rw [FieldInit.withoutSpans, FieldInit.withoutSpans, hvalue']

/-- A record expression is read, with its fields.

**Proof sketch.** As for a call; a field begins with its name, which is no closing brace. -/
lemma recordExpression_accepts (hinner : Complete inner n) {name : String}
    {inits : List FieldInit} {span : Span} (hcan : (Expression.record name inits span).Canonical)
    (hts : ts ∈ (Expression.record name inits span).spelling) (hlen : ts.length ≤ n + 1) :
    (recordExpression inner).Accepts ts rest fun e' =>
      e'.withoutSpans = (Expression.record name inits span).withoutSpans := by
  rw [Canonical, Everywhere] at hcan
  rw [Expression.spelling] at hts
  obtain ⟨t, _, ⟨ht, rfl⟩, hws, rfl⟩ := mem_token_mul.1 hts
  obtain ⟨lb, _, hlb, hvs, rfl⟩ := mem_token_mul.1 hws
  obtain ⟨us, hus, _, ⟨rb, hrb, rfl⟩, rfl⟩ := Language.mem_mul.1 hvs
  simp only [List.length_cons, List.length_append, List.length_nil] at hlen
  unfold recordExpression
  refine .expect_bind ht (.expect_bind hlb ?_)
  have hinits : (commaSeparated (.symbol .rBrace) (fieldInit inner)).Accepts us ([rb] ++ rest)
      (List.Forall₂ (fun i' i : FieldInit => i'.withoutSpans = i.withoutSpans) · inits) := by
    refine Accepts.commaSeparated hus (fun i hi vs hvs hlen' more hmore => ?_)
      (fun i hi vs hvs more => ?_) (by simp) hrb
    · exact fieldInit_accepts hinner (hcan.2 i hi) hvs (by omega)
        (endsExpression_of_headKind (by rcases hmore with h | h <;> simp [h]))
    · rcases i with ⟨field, value, span⟩
      rw [FieldInit.spelling] at hvs
      obtain ⟨w, ws, hw, -, rfl⟩ := mem_token_mul.1 hvs
      simp [hw.1]
  refine hinits.bind fun inits' hinits' => .expect_bind hrb (.spanFrom_bind fun span' => .pure ?_)
  rw [Expression.withoutSpans, Expression.withoutSpans, map_eq_map hinits']

/-- What stands in parentheses behind the first expression: others behind commas.

**Proof sketch.** The first expression ends at a comma or at the parenthesis, whichever is next.
That there are others behind it tells a tuple from an expression in parentheses. -/
lemma parenthesized_accepts (hinner : Complete inner n) {lp rp : Token} {first : Expression}
    {others : List Expression} {us vs : List Token} (hfirst : first.Canonical)
    (hothers : ∀ e ∈ others, e.Canonical) (hlp : lp.kind = .symbol .lParen)
    (hrp : rp.kind = .symbol .rParen) (hus : us ∈ first.spelling)
    (hvs : vs ∈ (others.map fun e => sign .comma * e.spelling).prod)
    (hlen : us.length + vs.length ≤ n) :
    (parenthesized inner).Accepts (lp :: (us ++ (vs ++ [rp]))) rest fun e' =>
      e'.withoutSpans = (if others.isEmpty then Expression.paren first .origin
        else .tuple (first :: others) .origin).withoutSpans := by
  unfold parenthesized
  refine .expect_bind hlp (.eat_bind_false ?_ ?_)
  · rw [List.append_assoc]
    exact headKind_ne_of_mem hfirst hus rfl _
  have hends : EndsExpression (vs ++ [rp] ++ rest) := by
    refine endsExpression_of_headKind ?_
    rcases others with _ | ⟨e, others⟩
    · obtain rfl : vs = [] := hvs
      exact .inr (.inl hrp)
    · obtain ⟨ws, hws, xs, -, rfl⟩ := mem_prod_cons hvs
      obtain ⟨comma, ws, hcomma, -, rfl⟩ := mem_token_mul.1 hws
      exact .inl hcomma
  refine (hinner first hfirst us hus (by omega) _ hends).bind fun first' hfirst' => ?_
  have hmany : (many (afterComma inner)).Accepts vs ([rp] ++ rest)
      (List.Forall₂ (fun e' e : Expression => e'.withoutSpans = e.withoutSpans) · others) := by
    refine Accepts.many_afterComma hvs (fun e he ws hws hlen' more hmore => ?_) (by simp) hrp
    exact hinner e (hothers e he) ws hws (by omega) more
      (endsExpression_of_headKind (by rcases hmore with h | h <;> simp [h]))
  refine hmany.bind fun others' hothers' => .expect_bind hrp (.spanFrom_bind fun span' => .pure ?_)
  have hmap := map_eq_map hothers'
  cases hothers' with
  | nil =>
    simp only [List.isEmpty_nil, if_true]
    rw [Expression.withoutSpans, Expression.withoutSpans, hfirst']
  | cons h htail =>
    simp only [List.isEmpty_cons, Bool.false_eq_true, if_false]
    rw [Expression.withoutSpans, Expression.withoutSpans]
    simp only [List.map_cons] at hmap ⊢
    rw [hfirst', hmap]

/-- The empty parentheses are read. -/
lemma unit_accepts {span : Span} (hts : ts ∈ (Expression.unit span).spelling) :
    (parenthesized inner).Accepts ts rest fun e' =>
      e'.withoutSpans = (Expression.unit span).withoutSpans := by
  rw [Expression.spelling] at hts
  obtain ⟨lp, _, hlp, ⟨rp, hrp, rfl⟩, rfl⟩ := mem_token_mul.1 hts
  unfold parenthesized
  refine .expect_bind hlp (.eat_bind_true hrp (.spanFrom_bind fun span' => .pure ?_))
  rw [Expression.withoutSpans, Expression.withoutSpans]

/-- An expression in parentheses is read.

**Proof sketch.** The tokens are a parenthesis, a spelling of the inner expression and the
counterpart; `parenthesized_accepts` reads them with no further item, and an empty list of items
means a group rather than a tuple. -/
lemma paren_accepts (hinner : Complete inner n) {e : Expression} {span : Span}
    (hcan : (Expression.paren e span).Canonical) (hts : ts ∈ (Expression.paren e span).spelling)
    (hlen : ts.length ≤ n + 1) :
    (parenthesized inner).Accepts ts rest fun e' =>
      e'.withoutSpans = (Expression.paren e span).withoutSpans := by
  rw [Canonical, Everywhere] at hcan
  rw [Expression.spelling] at hts
  obtain ⟨lp, _, hlp, hws, rfl⟩ := mem_token_mul.1 hts
  obtain ⟨us, hus, _, ⟨rp, hrp, rfl⟩, rfl⟩ := Language.mem_mul.1 hws
  simp only [List.length_cons, List.length_append, List.length_nil] at hlen
  have hnil : ([] : List Token) ∈ (([] : List Expression).map
      fun e => sign .comma * e.spelling).prod := rfl
  refine (parenthesized_accepts hinner hcan.2 (by simp) hlp hrp hus hnil
    (by simp; omega)).imp fun e' he' => ?_
  simp only [List.isEmpty_nil, if_true] at he'
  rw [he', Expression.withoutSpans, Expression.withoutSpans]

/-- A tuple is read; it has a second item, so that it is no expression in parentheses.

**Proof sketch.** The first item is split off, and the others are those behind commas
(`parenthesized_accepts`). -/
lemma tuple_accepts (hinner : Complete inner n) {items : List Expression} {span : Span}
    (hcan : (Expression.tuple items span).Canonical)
    (hts : ts ∈ (Expression.tuple items span).spelling) (hlen : ts.length ≤ n + 1) :
    (parenthesized inner).Accepts ts rest fun e' =>
      e'.withoutSpans = (Expression.tuple items span).withoutSpans := by
  rw [Canonical, Everywhere] at hcan
  rw [Expression.spelling] at hts
  obtain ⟨lp, _, hlp, hws, rfl⟩ := mem_token_mul.1 hts
  obtain ⟨us, hus, _, ⟨rp, hrp, rfl⟩, rfl⟩ := Language.mem_mul.1 hws
  have htwo : 2 ≤ items.length := hcan.1.2
  rcases items with _ | ⟨first, _ | ⟨second, others⟩⟩
  · simp at htwo
  · simp at htwo
  obtain ⟨vs, hvs, ws, hws', rfl⟩ := mem_separated_cons hus
  have hothers : ∀ e ∈ second :: others, e.Canonical := fun e he =>
    hcan.2 e (List.mem_cons_of_mem _ he)
  simp only [List.length_cons, List.length_append, List.length_nil] at hlen
  rw [List.append_assoc]
  refine (parenthesized_accepts hinner (hcan.2 first (by simp)) hothers hlp hrp hvs hws'
    (by omega)).imp fun e' he' => ?_
  simp only [List.isEmpty_cons, Bool.false_eq_true, if_false] at he'
  rw [he', Expression.withoutSpans, Expression.withoutSpans]

/-- A name is accepted, unless a parenthesis behind it would make it a call. -/
lemma ident_accepts {name : String} {span : Span}
    (hts : ts ∈ (Expression.ident name span).spelling) (hrest : headKind rest ≠ .symbol .lParen) :
    (nameOrCall inner).Accepts ts rest fun e' =>
      e'.withoutSpans = (Expression.ident name span).withoutSpans := by
  rw [Expression.spelling] at hts
  obtain ⟨t, ⟨-, rfl⟩, rfl⟩ := hts
  unfold nameOrCall
  apply Accepts.checkAhead_bind
  rw [if_neg (by simpa using hrest)]
  refine .advance_bind (.pure ?_)
  rw [Expression.withoutSpans, Expression.withoutSpans]

/-- A number is read as an expression. -/
lemma numberExpression_accepts {value : Number} {t : Token} (ht : t.number? = some value) :
    numberExpression.Accepts [t] rest fun e' =>
      e'.withoutSpans = (Expression.number value .origin).withoutSpans := by
  unfold numberExpression
  refine .peek_bind ((number?_accepts ht).bind_nil ?_)
  rintro _ rfl
  refine .pure ?_
  rw [Expression.withoutSpans, Expression.withoutSpans]

/-- One token that is an expression of its own. -/
lemma atom_accepts {e : Span → Expression} {t : Token} {Q : Expression → Prop}
    (h : Q (e t.span)) : (atom e).Accepts [t] rest Q := by
  unfold atom
  exact .advance_bind (.pure h)

/-- A primary expression is accepted, unless a parenthesis behind a name would make it a call.

**Proof sketch.** The kind of the first token tells which reader goes on, for each primary
expression the one of its own.  A name is read as a name, since no parenthesis follows. -/
theorem primary_accepts (hinner : Complete inner n) {e : Expression} (hprimary : IsPrimary e)
    (hcan : e.Canonical) (hts : ts ∈ e.spelling) (hlen : ts.length ≤ n + 1)
    (hrest : headKind rest ≠ .symbol .lParen) :
    (primary inner).Accepts ts rest fun e' => e'.withoutSpans = e.withoutSpans := by
  unfold primary
  apply Accepts.peekKind_bind
  cases e <;> simp only [IsPrimary] at hprimary
  case call name args span =>
    have hhead : headKind (ts ++ rest) = .ident := by
      rw [Expression.spelling] at hts
      obtain ⟨t, us, ht, -, rfl⟩ := mem_token_mul.1 hts
      exact ht.1
    rw [hhead]
    exact call_accepts hinner hcan hts hlen
  case ident name span =>
    have hhead : headKind (ts ++ rest) = .ident := by
      rw [Expression.spelling] at hts
      obtain ⟨t, ht, rfl⟩ := hts
      exact ht.1
    rw [hhead]
    exact ident_accepts hts hrest
  case record name inits span =>
    have hhead : headKind (ts ++ rest) = .typeIdent := by
      rw [Expression.spelling] at hts
      obtain ⟨t, us, ht, -, rfl⟩ := mem_token_mul.1 hts
      exact ht.1
    rw [hhead]
    exact recordExpression_accepts hinner hcan hts hlen
  case scalar literal =>
    rw [Expression.spelling] at hts
    rcases headKind_of_mem_scalar hts rest with h | h
    all_goals
      rw [h]
      refine (scalarLiteral_accepts hts).bind_nil fun l hl => .pure ?_
      rw [Expression.withoutSpans, Expression.withoutSpans, hl]
  case number value span =>
    rw [Expression.spelling] at hts
    obtain ⟨t, ht, rfl⟩ := hts
    have haccepts : numberExpression.Accepts [t] rest fun e' =>
        e'.withoutSpans = (Expression.number value .origin).withoutSpans :=
      numberExpression_accepts ht
    have hkind := isNumber_of_number? ht
    rw [List.singleton_append, headKind_cons]
    rw [Expression.withoutSpans] at haccepts ⊢
    unfold Kind.isNumber at hkind
    split at hkind
    case h_1 h | h_2 h =>
      rw [h]
      exact haccepts
    case h_3 => cases hkind
  case bool value span =>
    rw [Expression.spelling] at hts
    cases value
    all_goals
      obtain ⟨t, ht, rfl⟩ := hts
      rw [List.singleton_append, headKind_cons, ht]
      refine atom_accepts ?_
      rw [Expression.withoutSpans, Expression.withoutSpans]
  case laneIndex span | lanes span =>
    rw [Expression.spelling] at hts
    obtain ⟨t, ht, rfl⟩ := hts
    rw [List.singleton_append, headKind_cons, ht]
    refine atom_accepts ?_
    rw [Expression.withoutSpans, Expression.withoutSpans]
  all_goals
    -- the unit, a group and a tuple begin with the same parenthesis
    have hhead : headKind (ts ++ rest) = .symbol .lParen := by
      rw [Expression.spelling] at hts
      obtain ⟨lp, us, hlp, -, rfl⟩ := mem_token_mul.1 hts
      exact hlp
    rw [hhead]
  case unit span => exact unit_accepts hts
  case paren e span => exact paren_accepts hinner hcan hts hlen
  case tuple items span => exact tuple_accepts hinner hcan hts hlen

/-! ## Suffixes -/

/-- A suffix is accepted from each of its spellings, and makes the same of the same.

**Proof sketch.** Each suffix has a first token of its own, and what it makes of a base depends
on the base without its spans only. -/
lemma suffix?_accepts {s : Suffix} (hts : ts ∈ s.spelling) :
    suffix?.Accepts ts rest fun o => ∃ s', o = some s' ∧ ∀ base' base : Expression,
      base'.withoutSpans = base.withoutSpans →
      (s'.attach base').withoutSpans = (s.attach base).withoutSpans := by
  unfold suffix?
  apply Accepts.peekKind_bind
  cases s with
  | field name last =>
    obtain ⟨dot, _, hdot, ⟨t, ⟨ht, rfl⟩, rfl⟩, rfl⟩ := mem_token_mul.1 hts
    rw [List.cons_append, headKind_cons, hdot]
    refine .advance_bind (.expect_bind ht (.pure ⟨_, rfl, fun base' base h => ?_⟩))
    rw [Suffix.attach, Suffix.attach, Expression.withoutSpans, Expression.withoutSpans, h]
  | shuffle indices last =>
    obtain ⟨shuffle, _, hshuffle, hws, rfl⟩ := mem_token_mul.1 hts
    obtain ⟨lb, _, hlb, hvs, rfl⟩ := mem_token_mul.1 hws
    obtain ⟨us, hus, _, ⟨rb, hrb, rfl⟩, rfl⟩ := Language.mem_mul.1 hvs
    rw [List.cons_append, headKind_cons, hshuffle]
    refine .advance_bind (.expect_bind hlb ?_)
    have hindices : (commaSeparated (.symbol .rBracket) intLiteral).Accepts us ([rb] ++ rest)
        (List.Forall₂ (fun v' v : Int => v' = v) · indices) := by
      refine Accepts.commaSeparated hus (fun v _ vs hvs _ _ _ => intLiteral_accepts hvs)
        (fun v _ vs hvs more => ?_) (by simp) hrb
      obtain ⟨t, ht, rfl⟩ := hvs
      simp [ht.1]
    refine hindices.bind fun indices' h => .expect_bind hrb (.pure ⟨_, rfl, ?_⟩)
    obtain rfl : indices' = indices := by rwa [List.forall₂_eq_eq_eq] at h
    intro base' base h
    rw [Suffix.attach, Suffix.attach, Expression.withoutSpans, Expression.withoutSpans, h]
  | reduce op last =>
    obtain ⟨t, ht, rfl⟩ := hts
    rw [List.singleton_append, headKind_cons, ht]
    refine .advance_bind (.pure ⟨_, rfl, fun base' base h => ?_⟩)
    rw [Suffix.attach, Suffix.attach, Expression.withoutSpans, Expression.withoutSpans, h]
  | scan op last =>
    obtain ⟨t, ht, rfl⟩ := hts
    rw [List.singleton_append, headKind_cons, ht]
    refine .advance_bind (.pure ⟨_, rfl, fun base' base h => ?_⟩)
    rw [Suffix.attach, Suffix.attach, Expression.withoutSpans, Expression.withoutSpans, h]

/-- Where no suffix stands, none is read. -/
lemma suffix?_stops (hrest : (headKind rest).isSuffix = false) :
    suffix?.Accepts [] rest (· = none) := by
  unfold suffix?
  apply Accepts.peekKind_bind
  rw [List.nil_append]
  split
  case h_5 => exact .pure rfl
  all_goals simp_all [Kind.isSuffix]

/-- The first token of a suffix is no parenthesis. -/
lemma Suffix.headKind_of_mem {s : Suffix} (hts : ts ∈ s.spelling) :
    headKind (ts ++ rest) ≠ .symbol .lParen := by
  cases s
  case field | shuffle =>
    obtain ⟨t, us, ht, -, rfl⟩ := mem_token_mul.1 hts
    simp [ht]
  all_goals
    obtain ⟨t, ht, rfl⟩ := hts
    simp [ht]

/-- One more suffix behind what was read. -/
lemma suffix_arrives {base : Expression} {s : Suffix} {us : List Token} (hts : ts ∈ s.spelling)
    (h : Arrives (primary inner) suffix? Suffix.attach us (ts ++ rest)
      fun e' => e'.withoutSpans = base.withoutSpans) :
    Arrives (primary inner) suffix? Suffix.attach (us ++ ts) rest
      fun e' => e'.withoutSpans = (s.attach base).withoutSpans := by
  refine h.next (fun hnil => s.nil_notMem_spelling (hnil ▸ hts)) ?_
  refine (suffix?_accepts hts).imp ?_
  rintro _ ⟨s', rfl, hs'⟩
  exact ⟨s', rfl, fun base' h => hs' base' base h⟩

/-- An expression that a suffix can stand behind is read by a primary expression and suffixes,
which may go on.

**Proof sketch.** Induction along the suffixes, which shorten the list of tokens. -/
lemma postfixed_arrives (hinner : Complete inner n) {e : Expression} (hbase : e.isBase = true)
    (hcan : e.Canonical) (hts : ts ∈ e.spelling) (hlen : ts.length ≤ n + 1)
    (hrest : headKind rest ≠ .symbol .lParen) :
    Arrives (primary inner) suffix? Suffix.attach ts rest
      fun e' => e'.withoutSpans = e.withoutSpans := by
  induction hk : ts.length using Nat.strong_induction_on generalizing e ts rest with
  | _ k ih =>
    rcases isPrimary_or_suffixed hcan hbase with h | ⟨base, s, hcan', hbase', hspelling, hattach⟩
    · exact .of_first (primary_accepts hinner h hcan hts hlen hrest)
    · rw [hspelling] at hts
      obtain ⟨us, hus, vs, hvs, rfl, hlt⟩ := exists_shorter_of_mem_mul s.nil_notMem_spelling hts
      have hread : Arrives (primary inner) suffix? Suffix.attach us (vs ++ rest)
          fun e' => e'.withoutSpans = base.withoutSpans :=
        ih us.length (hk ▸ hlt) hbase' hcan' hus (by omega) (Suffix.headKind_of_mem hvs) rfl
      exact (suffix_arrives hvs hread).imp fun e' he' => he'.trans hattach

/-- An expression that a suffix can stand behind is accepted, before what can stand behind an
operand. -/
lemma postfixed_accepts (hinner : Complete inner n) {e : Expression} (he : e.isBase = true)
    (hcan : e.Canonical) (hts : ts ∈ e.spelling) (hlen : ts.length ≤ n + 1)
    (hrest : EndsOperand rest) :
    (postfixed inner).Accepts ts rest fun e' => e'.withoutSpans = e.withoutSpans :=
  (postfixed_arrives hinner he hcan hts hlen hrest.paren).accepts
    (suffix?_stops hrest.suffix)

end Primary

/-! ## Operands -/

section Operands

variable {inner : Parser Expression} {operands : Operands} {n : Nat} {ts rest : List Token}

/-- A lambda is read; its body reaches as far as an expression can.

**Proof sketch.** The parameters end at the arrow, and there is one at least.  The body is shorter
than the lambda. -/
lemma lambda_accepts (hinner : Complete inner n) {params : List Parameter} {body : Expression}
    {span : Span} (hcan : (Expression.lambda params body span).Canonical)
    (hts : ts ∈ (Expression.lambda params body span).spelling) (hlen : ts.length ≤ n + 1)
    (hrest : EndsExpression rest) :
    (lambda inner).Accepts ts rest fun e' =>
      e'.withoutSpans = (Expression.lambda params body span).withoutSpans := by
  rw [Canonical, Everywhere] at hcan
  obtain ⟨⟨-, hne, hparams⟩, hbody⟩ := hcan
  rw [Expression.spelling] at hts
  obtain ⟨funKw, _, hfun, hws, rfl⟩ := mem_token_mul.1 hts
  obtain ⟨us, hus, _, hvs, rfl⟩ := Language.mem_mul.1 hws
  obtain ⟨arrow, vs, harrow, hvs', rfl⟩ := mem_token_mul.1 hvs
  simp only [List.length_cons, List.length_append] at hlen
  unfold lambda
  refine .expect_bind hfun ?_
  refine (parameters_accepts hparams hus (by simpa using harrow)).bind fun params' hparams' => ?_
  have hne' : params' ≠ [] := by
    rintro rfl
    exact hne (by simpa using hparams'.symm)
  rw [if_neg (by simpa using hne')]
  refine .expect_bind harrow ?_
  refine (hinner body hbody vs hvs' (by omega) rest hrest).bind_nil fun body' hbody' => ?_
  refine .spanFrom_bind fun span' => .pure ?_
  rw [Expression.withoutSpans, Expression.withoutSpans, hparams', hbody']

/-- A let-in is read; its value reaches up to the word `in`, and its body as far as an expression
can.

**Proof sketch.** The word `in` ends the value, so that the inner reader accepts it; and the body
ends where the let-in does. -/
lemma letIn_accepts (hinner : Complete inner n) {name : String} {value body : Expression}
    {span : Span} (hcan : (Expression.letIn name value body span).Canonical)
    (hts : ts ∈ (Expression.letIn name value body span).spelling) (hlen : ts.length ≤ n + 1)
    (hrest : EndsExpression rest) :
    (Parser.letIn inner).Accepts ts rest fun e' =>
      e'.withoutSpans = (Expression.letIn name value body span).withoutSpans := by
  rw [Canonical, Everywhere] at hcan
  obtain ⟨-, hvalue, hbody⟩ := hcan
  rw [Expression.spelling] at hts
  obtain ⟨letKw, _, hlet, hws, rfl⟩ := mem_token_mul.1 hts
  obtain ⟨t, _, ⟨ht, rfl⟩, hxs, rfl⟩ := mem_token_mul.1 hws
  obtain ⟨equal, _, hequal, hys, rfl⟩ := mem_token_mul.1 hxs
  obtain ⟨us, hus, _, hvs, rfl⟩ := Language.mem_mul.1 hys
  obtain ⟨inKw, vs, hin, hvs', rfl⟩ := mem_token_mul.1 hvs
  simp only [List.length_cons, List.length_append] at hlen
  unfold Parser.letIn
  refine .expect_bind hlet (.expect_bind ht (.expect_bind hequal ?_))
  have hends : EndsExpression (inKw :: vs ++ rest) :=
    endsExpression_of_headKind (by simp [hin])
  refine (hinner value hvalue us hus (by omega) _ hends).bind fun value' hvalue' => ?_
  refine .expect_bind hin ?_
  unfold letBody
  refine (hinner body hbody vs hvs' (by omega) rest hrest).bind_nil fun body' hbody' => ?_
  refine .spanFrom_bind fun span' => .pure ?_
  rw [Expression.withoutSpans, Expression.withoutSpans, hvalue', hbody']

/-- What can stand behind the operand `e`: behind one that reaches as far as it can, no operator
either. -/
def EndsAt (e : Expression) (rest : List Token) : Prop :=
  EndsOperand rest ∧ (e.endsOpen = true → (headKind rest).binaryOp? = none)

/-- An operand without unary operators is read, by what it begins with.

**Proof sketch.** A base is read with its suffixes.  A lambda and a let-in, which are operands of
full expressions only, begin with words of their own. -/
lemma bareOperand_accepts (hinner : Complete inner n) {e : Expression}
    (hunary : ∀ op operand span, e ≠ .unary op operand span)
    (hadmitted : e.Admitted operands []) (hcan : e.Canonical) (hts : ts ∈ e.spelling)
    (hlen : ts.length ≤ n + 1) (hrest : EndsAt e rest) :
    (bareOperand operands inner).Accepts ts rest fun e' => e'.withoutSpans = e.withoutSpans := by
  unfold bareOperand
  apply Accepts.peekKind_bind
  by_cases hbase : e.isBase = true
  · have hopens := opensPrimary_of_mem hcan hbase hts rest
    split
    · simp_all [Kind.opensPrimary]
    · simp_all [Kind.opensPrimary]
    · exact postfixed_accepts hinner hbase hcan hts hlen hrest.1
  · cases e <;> simp only [isBase, not_true_eq_false] at hbase
    case binary op lhs rhs span => exact absurd hadmitted (by simp [Admitted])
    case unary op operand span => exact absurd rfl (hunary op operand span)
    case lambda params body span =>
      obtain rfl : operands = .full := hadmitted
      have haccepts := lambda_accepts hinner hcan hts hlen ⟨hrest.1, hrest.2 rfl⟩
      rw [Expression.spelling] at hts
      obtain ⟨t, us, ht, -, rfl⟩ := mem_token_mul.1 hts
      rw [List.cons_append, headKind_cons, ht]
      exact haccepts
    case letIn name value body span =>
      obtain rfl : operands = .full := hadmitted
      have haccepts := letIn_accepts hinner hcan hts hlen ⟨hrest.1, hrest.2 rfl⟩
      rw [Expression.spelling] at hts
      obtain ⟨t, us, ht, -, rfl⟩ := mem_token_mul.1 hts
      rw [List.cons_append, headKind_cons, ht]
      exact haccepts

/-- The first token of an operand without a unary operator in front is none. -/
lemma unaryOp?_of_mem {e : Expression} (hunary : ∀ op operand span, e ≠ .unary op operand span)
    (hbinary : e.isBinary = false) (hcan : e.Canonical) (hts : ts ∈ e.spelling) :
    (headKind (ts ++ rest)).unaryOp? = none := by
  by_cases hbase : e.isBase = true
  · exact Kind.unaryOp?_of_opensPrimary (opensPrimary_of_mem hcan hbase hts rest)
  · cases e <;> simp only [isBase, isBinary, not_true_eq_false, Bool.true_eq_false] at hbase hbinary
    case unary op operand span => exact absurd rfl (hunary op operand span)
    all_goals
      rw [Expression.spelling] at hts
      obtain ⟨t, us, ht, -, rfl⟩ := mem_token_mul.1 hts
      simp [ht, Kind.unaryOp?]

/-- A unary operator is read. -/
lemma unaryOperator?_accepts {op : UnaryOp} {t : Token} (ht : t.kind.unaryOp? = some op) :
    unaryOperator?.Accepts [t] rest fun o => ∃ op', o = some op' ∧ op'.1 = op := by
  unfold unaryOperator?
  apply Accepts.peekKind_bind
  rw [List.singleton_append, headKind_cons, ht]
  exact .advance_bind (.pure ⟨_, rfl, rfl⟩)

/-- Where no unary operator stands, none is read. -/
lemma unaryOperator?_stops (h : (headKind rest).unaryOp? = none) :
    unaryOperator?.Accepts [] rest (· = none) := by
  unfold unaryOperator?
  apply Accepts.peekKind_bind
  rw [List.nil_append, h]
  exact .pure rfl

/-- An operand is read by the unary operators in front of it and the rest of it.

**Proof sketch.** Induction along the unary operators, which shorten the list of tokens. -/
lemma operand_prefixes (hinner : Complete inner n) {e : Expression} (hbinary : e.isBinary = false)
    (hadmitted : e.OnSpine (Admitted operands [])) (hcan : e.Canonical) (hts : ts ∈ e.spelling)
    (hlen : ts.length ≤ n + 1) (hrest : EndsAt e rest) :
    Prefixes unaryOperator? (bareOperand operands inner) applyUnary ts rest
      fun e' => e'.withoutSpans = e.withoutSpans := by
  induction hk : ts.length using Nat.strong_induction_on generalizing e ts with
  | _ k ih =>
    by_cases hunary : ∀ op operand span, e ≠ .unary op operand span
    · exact .of_operand (unaryOperator?_stops (unaryOp?_of_mem hunary hbinary hcan hts))
        (bareOperand_accepts hinner hunary hadmitted.root hcan hts hlen hrest)
    · simp only [not_forall, not_not] at hunary
      obtain ⟨op, operand, span, rfl⟩ := hunary
      rw [Canonical, Everywhere] at hcan
      rw [Expression.spelling] at hts
      obtain ⟨t, us, ht, hus, rfl⟩ := mem_token_mul.1 hts
      rw [List.length_cons] at hlen hk
      rw [← List.singleton_append]
      refine .cons (unaryOperator?_accepts ht) (by simp)
        (ih us.length (by omega) hcan.1.1 hadmitted.2 hcan.2 hus (by omega) hrest rfl) ?_
      intro op' operand' hop' hoperand'
      rw [applyUnary, hop', Expression.withoutSpans, Expression.withoutSpans, hoperand']

/-- An operand is accepted, with the unary operators in front of it. -/
theorem operand_accepts (hinner : Complete inner n) {e : Expression} (hbinary : e.isBinary = false)
    (hadmitted : e.OnSpine (Admitted operands [])) (hcan : e.Canonical) (hts : ts ∈ e.spelling)
    (hlen : ts.length ≤ n + 1) (hrest : EndsAt e rest) :
    (operand operands inner).Accepts ts rest fun e' => e'.withoutSpans = e.withoutSpans :=
  (operand_prefixes hinner hbinary hadmitted hcan hts hlen hrest).accepts

end Operands

/-! ## Chains of operands -/

section Binary

variable {inner : Parser Expression} {operands : Operands} {n : Nat} {level : Level}
  {tighter : List Level} {ts rest : List Token}

/-- Where nothing can be split, to split the token behind an operand does nothing.

**Proof sketch.** `Cursor.splitInfix` looks at the next token only, so it is the identity where that
token is neither a signed number nor the arrow.  The next token is the first of `ts ++ rest`, or the
end of the input, which is neither.  Since a second split changes nothing, the two splits of the
source are one. -/
lemma splitInfix_bind_accepts {α : Type} {f : Unit → Parser α} {Q : α → Prop}
    (hsign : ∀ t ∈ (ts ++ rest).head?, t.isSignedNumber = false)
    (harrow : headKind (ts ++ rest) ≠ .symbol .leftArrow) (h : (f ()).Accepts ts rest Q) :
    ((modify Cursor.splitInfix : Parser Unit) >>= f).Accepts ts rest Q := by
  intro c hc
  obtain ⟨a, ha, hf⟩ := h c hc
  refine ⟨a, ha, bind_eq_ok.2 ⟨(), c, ?_, hf⟩⟩
  have hsplit : c.splitInfix = c := by
    refine Cursor.splitInfix_of_peek ?_ (by rwa [c.peek_kind, hc])
    rcases hts : ts ++ rest with _ | ⟨t, us⟩
    · have hend := Cursor.peek_kind_of_ahead_nil (hc.trans hts)
      simp [isSignedNumber, hend, Kind.isNumber]
    · have hpeek : c.peek = t := by simp [Cursor.peek, hc, hts]
      rw [hpeek]
      exact hsign t (by simp [hts])
  rw [← hsplit]
  change EStateM.Result.ok () c.splitInfix.splitInfix = _
  rw [Cursor.splitInfix_splitInfix, hsplit]

/-- The token of a binary operator can stand behind an operand that does not reach as far as it
can. -/
lemma endsOperand_of_binaryOp? {t : Token} {op : BinaryOp} (ht : t.kind.binaryOp? = some op) :
    EndsOperand (t :: ts) := by
  have hkind : t.kind.isNumber = false ∧ t.kind.isSuffix = false ∧ t.kind ≠ .symbol .lParen
      ∧ t.kind ≠ .symbol .leftArrow := by
    unfold Kind.binaryOp? at ht
    split at ht <;> simp_all [Kind.isNumber, Kind.isSuffix]
  refine ⟨hkind.2.1, hkind.2.2.1, hkind.2.2.2, ?_⟩
  rintro _ ⟨⟩
  simp [isSignedNumber, hkind.1]

/-- A binary operator is read at its own level. -/
lemma binaryOperator?_accepts {op : BinaryOp} {t : Token} (ht : t.kind.binaryOp? = some op) :
    (binaryOperator? op.level).Accepts [t] rest fun o => ∃ op', o = some op' ∧ op' = op := by
  have hends : EndsOperand (t :: rest) := endsOperand_of_binaryOp? ht
  unfold binaryOperator?
  refine splitInfix_bind_accepts hends.sign hends.arrow (.peekKind_bind ?_)
  rw [List.singleton_append, headKind_cons, ht]
  simp only [if_true]
  exact .advance_bind (.pure ⟨op, rfl, rfl⟩)

/-- Where an operator of another level stands, or none, no operator is read. -/
lemma binaryOperator?_stops (hrest : EndsOperand rest)
    (hlevel : ∀ op, (headKind rest).binaryOp? = some op → op.level ≠ level) :
    (binaryOperator? level).Accepts [] rest (· = none) := by
  unfold binaryOperator?
  refine splitInfix_bind_accepts hrest.sign hrest.arrow (.peekKind_bind ?_)
  rw [List.nil_append]
  rcases hop : (headKind rest).binaryOp? with _ | op
  · exact .pure rfl
  · simp only [if_neg (hlevel op hop)]
    exact .pure rfl

/-- Every chain with the operators of these levels is accepted, before what can stand behind its
last operand and is no operator of these levels. -/
def Chainable (operand : Parser Expression) (operands : Operands) (n : Nat)
    (levels : List Level) : Prop :=
  ∀ (e : Expression) (ts rest : List Token), e.Canonical → e.OnSpine (Admitted operands levels) →
    ts ∈ e.spelling → ts.length ≤ n → EndsAt e rest →
    (∀ op, (headKind rest).binaryOp? = some op → op.level ∉ levels) →
    (binary operand levels).Accepts ts rest fun e' => e'.withoutSpans = e.withoutSpans

/-- A chain with the operators of a level is in progress before an operator of the level.

**Proof sketch.** Induction along the left operands of the level, which shorten the list of
tokens.  Behind the left operand stands the operator, which is not one of the tighter levels, and
the left operand does not reach as far as it can; the right operand is a chain of the tighter
levels, since it binds tighter.  An expression with no operator of the level at its root is a chain
of the tighter levels itself. -/
lemma binary_chains {operand : Parser Expression}
    (htighter : Chainable operand operands n tighter)
    (hlevels : ∀ l ∈ tighter, level.tightness < l.tightness) {e : Expression} (hcan : e.Canonical)
    (hadmitted : e.OnSpine (Admitted operands (level :: tighter))) (hts : ts ∈ e.spelling)
    (hlen : ts.length ≤ n) (hrest : EndsAt e rest)
    (hop : ∀ op, (headKind rest).binaryOp? = some op → op.level ∉ tighter) :
    Chains (binaryOperator? level) (binary operand tighter) applyBinary ts rest
      fun e' => e'.withoutSpans = e.withoutSpans := by
  have hmore : ∀ l ∈ level :: tighter, level.tightness + 1 ≤ l.tightness → l ∈ tighter := by
    intro l hl hle
    rcases List.mem_cons.1 hl with rfl | hl
    · omega
    · exact hl
  induction hk : ts.length using Nat.strong_induction_on generalizing e ts rest with
  | _ k ih =>
    by_cases hroot : ∃ op lhs rhs span, e = .binary op lhs rhs span ∧ op.level = level
    · -- the root is an operator of the level, and its left side a shorter chain
      obtain ⟨op, lhs, rhs, span, rfl, rfl⟩ := hroot
      have hcan' := hcan
      rw [Canonical, Everywhere] at hcan'
      obtain ⟨⟨⟨-, hright, hclosed⟩, -⟩, hlhs, hrhs⟩ := hcan'
      rw [Expression.spelling] at hts
      obtain ⟨us, hus, _, hws, rfl⟩ := Language.mem_mul.1 hts
      obtain ⟨t, vs, ht, hvs, rfl⟩ := mem_token_mul.1 hws
      rw [List.length_append, List.length_cons] at hlen hk
      have hfirst : Chains (binaryOperator? op.level) (binary operand tighter) applyBinary us
          ([t] ++ (vs ++ rest)) fun e' => e'.withoutSpans = lhs.withoutSpans := by
        refine ih us.length (by omega) hlhs hadmitted.2.1 hus (by omega)
          ⟨endsOperand_of_binaryOp? ht, by simp [hclosed]⟩ ?_ rfl
        intro op' hop' hmem
        obtain rfl : op = op' := Option.some.inj (ht.symm.trans hop')
        have := hlevels _ hmem
        omega
      have hsecond : (binary operand tighter).Accepts vs rest
          fun e' => e'.withoutSpans = rhs.withoutSpans :=
        htighter rhs vs rest hrhs (Canonical.onSpine hmore rhs hrhs hright hadmitted.2.2) hvs
          (by omega) hrest hop
      rw [← List.singleton_append]
      refine hfirst.next (by simp) (binaryOperator?_accepts ht) hsecond ?_
      rintro lhs' _ rhs' hlhs' rfl hrhs'
      rw [applyBinary, Expression.withoutSpans, Expression.withoutSpans, hlhs', hrhs']
    · -- the root binds tighter, so that the expression is the first operand
      have hbinds : e.BindsAtLeast (level.tightness + 1) := by
        have hadmit := hadmitted.root
        cases e <;> simp only [BindsAtLeast, Admitted] at hadmit ⊢
        case binary op lhs rhs span =>
          rcases List.mem_cons.1 hadmit with heq | hmem
          · exact absurd ⟨op, lhs, rhs, span, rfl, heq⟩ hroot
          · exact hlevels _ hmem
      exact Arrives.of_first (htighter e ts rest hcan
        (Canonical.onSpine hmore e hcan hbinds hadmitted) hts hlen hrest hop)

/-- Chains of operands are accepted with the operators of all levels from some level on.

**Proof sketch.** Induction on the levels. -/
theorem binary_accepts (hinner : Complete inner n) :
    ∀ levels : List Level, (levels.Pairwise fun l m => l.tightness < m.tightness) →
      Chainable (operand operands inner) operands (n + 1) levels := by
  intro levels
  induction levels with
  | nil =>
    intro _ e ts rest hcan hadmitted hts hlen hrest _
    have hbinary : e.isBinary = false := by
      have hadmit := hadmitted.root
      cases e <;> simp_all [isBinary, Admitted]
    exact operand_accepts hinner hbinary hadmitted hcan hts hlen hrest
  | cons level tighter ih =>
    intro hsorted e ts rest hcan hadmitted hts hlen hrest hop
    obtain ⟨hlevels, hsorted⟩ := List.pairwise_cons.1 hsorted
    have hnot : ∀ op, (headKind rest).binaryOp? = some op → op.level ∉ tighter :=
      fun op h hmem => hop op h (List.mem_cons_of_mem _ hmem)
    have hne : ∀ op, (headKind rest).binaryOp? = some op → op.level ≠ level :=
      fun op h heq => hop op h (by simp [heq])
    exact (binary_chains (ih hsorted) hlevels hcan hadmitted hts hlen hrest hnot).leftAssoc
      (binaryOperator?_stops hrest.1 hne)

end Binary

/-! ## Expressions -/

/-- Every expression is admitted with all operands and the operators of all levels. -/
lemma onSpine_admitted_full : ∀ e : Expression, e.OnSpine (Admitted .full Level.all)
  | .binary op lhs rhs _ => ⟨op.level.mem_all, onSpine_admitted_full lhs, onSpine_admitted_full rhs⟩
  | .unary _ operand _ => ⟨trivial, onSpine_admitted_full operand⟩
  | .lambda .. | .letIn .. => rfl
  | .call .. | .field .. | .scalar .. | .record .. | .reduce .. | .scan .. | .shuffle ..
  | .ident .. | .number .. | .bool .. | .laneIndex .. | .lanes .. | .unit .. | .paren ..
  | .tuple .. => trivial

/-- The reader of expressions under a bound is complete for the spellings that are no longer than
the bound. -/
lemma expressionUpTo_complete (n : Nat) : Complete (expressionUpTo n) n := by
  induction n with
  | zero =>
    intro e hcan ts hts hlen
    obtain rfl : ts = [] := by simpa using hlen
    exact absurd hts hcan.nil_notMem_spelling
  | succ n ih =>
    intro e hcan ts hts hlen rest hrest
    exact binary_accepts ih _ Level.pairwise_all e ts rest hcan (onSpine_admitted_full e) hts hlen
      ⟨hrest.toEndsOperand, fun _ => hrest.operator⟩ (by simp [hrest.operator])

/-- A canonical expression is accepted from each of its spellings, before what can stand behind an
expression. -/
theorem expression_accepts {e : Expression} {ts rest : List Token} (hcan : e.Canonical)
    (hts : ts ∈ e.spelling) (hrest : EndsExpression rest) :
    expression.Accepts ts rest fun e' => e'.withoutSpans = e.withoutSpans :=
  .of_remaining fun n hn => expressionUpTo_complete n e hcan ts hts hn rest hrest

/-- Reading expressions is complete: at a cursor with a spelling of a canonical expression ahead
and behind it what can stand behind an expression, the expression is read up to its spans, and the
cursor stops exactly behind its spelling. -/
theorem expression_complete {e : Expression} {c : Cursor} {ts rest : List Token}
    (hcan : e.Canonical) (hts : ts ∈ e.spelling) (hc : c.ahead = ts ++ rest)
    (hrest : EndsExpression rest) :
    ∃ e' c', expression c = .ok e' c' ∧ e'.withoutSpans = e.withoutSpans
      ∧ c'.past = ts.reverse ++ c.past ∧ c'.ahead = rest := by
  obtain ⟨e', he', hread⟩ := expression_accepts hcan hts hrest c hc
  exact ⟨e', c.behind ts rest, hread, he', rfl, rfl⟩

/-- A difference is read from its tokens before a parenthesis. -/
theorem expression_complete_difference :
    ∃ e' c', expression ⟨[], [⟨.ident, "a", .origin⟩, ⟨.symbol .minus, "-", .origin⟩,
        ⟨.int, "1", .origin⟩, ⟨.symbol .rParen, ")", .origin⟩],
        ⟨.eof, "", .origin⟩, rfl⟩ = .ok e' c'
      ∧ e'.withoutSpans = (Expression.binary .sub (.ident "a" .origin) (.number (.int 1) .origin)
        .origin).withoutSpans
      ∧ c'.past = [⟨.int, "1", .origin⟩, ⟨.symbol .minus, "-", .origin⟩, ⟨.ident, "a", .origin⟩]
      ∧ c'.ahead = [⟨.symbol .rParen, ")", .origin⟩] := by
  have hcan : (Expression.binary .sub (.ident "a" .origin) (.number (.int 1) .origin)
      .origin).Canonical := by
    simp [Canonical, Everywhere, Ranked, Furnished, BindsAtLeast, endsOpen]
  have hts : [⟨.ident, "a", .origin⟩, ⟨.symbol .minus, "-", .origin⟩, ⟨.int, "1", .origin⟩]
      ∈ (Expression.binary .sub (.ident "a" .origin) (.number (.int 1) .origin)
        .origin).spelling := by
    have hone : Numeral.readInt? "1" = some 1 := by decide
    simp [Expression.spelling, word, BinaryOp.spelling, Kind.binaryOp?, Number.spelling,
      Token.number?, hone]
  exact expression_complete hcan hts rfl (endsExpression_of_headKind (.inr (.inl rfl)))

end Parser

end RakeLang
