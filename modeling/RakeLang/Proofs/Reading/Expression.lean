import RakeLang.Proofs.Reading.Parameter

/-!
# What the readers of expressions ensure

An expression spells the tokens that it was read from, as they were split meanwhile, at its place,
and it is canonical.  The loop over the operators of a level keeps no record of the operators inside
the value that it has read so far.  What it needs is known of the cursor instead: behind a chain of
operands with the operators of some levels no operator of these levels stands, and behind an operand
that reaches as far as it can no operator stands at all.

## Main definitions

* `RakeLang.Cursor.Beyond` — no operator of some levels stands at a cursor.
* `RakeLang.Parser.Chained` — what is ensured of a chain of operands.

## Main results

* `RakeLang.Parser.binary_ensures` — chains of operands.
* `RakeLang.Parser.expression_places`, `RakeLang.Parser.comparand_ensures` — expressions and the
  operands of comparisons.
-/

set_option relaxedAutoImplicit false
set_option autoImplicit false

namespace RakeLang

open Spelling Token

/-! ## Where chains of operands end -/

/-- No operator of the given levels stands at the cursor behind an operand. -/
def Cursor.Beyond (levels : List Level) (c : Cursor) : Prop :=
  ∀ op, c.splitInfix.peek.kind.binaryOp? = some op → op.level ∉ levels

section Beyond

variable {levels : List Level} {c : Cursor}

/-- At the end of the input there is no operator. -/
lemma Cursor.beyond_of_ahead_nil (h : c.ahead = []) : c.Beyond levels := by
  intro op hop
  have hend := peek_kind_of_ahead_nil h
  rw [splitInfix_of_peek (by simp [isSignedNumber, Kind.isNumber, hend]) (by simp [hend]),
    hend] at hop
  cases hop

/-- To split the token behind an operand does not change which operator it is. -/
lemma Cursor.Beyond.splitInfix (h : c.Beyond levels) : c.splitInfix.Beyond levels := by
  intro op hop
  rw [splitInfix_splitInfix] at hop
  exact h op hop

end Beyond

/-- All levels are listed. -/
lemma Level.mem_all (l : Level) : l ∈ all := by cases l <;> decide

/-- The levels are listed from the loosest to the tightest. -/
lemma Level.pairwise_all : all.Pairwise fun l m => l.tightness < m.tightness := by decide

/-- The levels of arithmetic are listed from the loosest to the tightest. -/
lemma Level.pairwise_arithmetic :
    arithmetic.Pairwise fun l m => l.tightness < m.tightness := by decide

namespace Parser

open Expression

/-! ## Primary expressions -/

/-- What is ensured of an expression inside another one: it spells what was read at its place, it is
canonical, and no operator stands behind it. -/
def Inner (e : Expression) (ts : List Token) (c : Cursor) : Prop :=
  ts ∈ e.placed ∧ e.Canonical ∧ c.Beyond Level.all

/-- What is ensured of an expression that a suffix can stand behind. -/
def Base (e : Expression) (ts : List Token) (_ : Cursor) : Prop :=
  ts ∈ e.placed ∧ e.Canonical ∧ e.isBase = true

section Primary

variable {inner : Parser Expression}

/-- What is ensured of a call. -/
lemma call_ensures (hinner : ∀ c, inner.Ensures SplitsTo c Inner) (c : Cursor) :
    (call inner).Ensures SplitsTo c Base := by
  unfold call
  refine .of_reads (.expect_bind_peek (by simp) fun hname => ?_)
  refine .expect_bind (by simp) fun lp hlp => ?_
  have hitem : ∀ c, inner.Ensures SplitsTo c fun e ts _ => ts ∈ e.placed ∧ e.Canonical :=
    fun c => (hinner c).imp fun e ts c' he => ⟨he.1, he.2.1⟩
  refine (Ensures.commaSeparated hitem _).bind fun args ts c₁ _ hargs => ?_
  refine .expect_bind (by simp) fun rp hrp => .spanFrom_bind (.pure fun hread => ⟨?_, ?_, rfl⟩)
  · rw [Expression.placed]
    refine ⟨?_, hread.covers⟩
    simp only [word, sign, cons_mem_token_mul]
    exact ⟨⟨hname, trivial⟩, hlp, append_singleton_mem hargs.1 hrp⟩
  · rw [Canonical, Everywhere]
    exact ⟨⟨trivial, trivial⟩, hargs.2⟩

/-- What a field of a record expression is read from spells it at its place, and its value is
canonical. -/
lemma fieldInit_ensures (hinner : ∀ c, inner.Ensures SplitsTo c Inner) (c : Cursor) :
    (fieldInit inner).Ensures SplitsTo c fun i ts _ =>
      ts ∈ i.placed ∧ i.Everywhere fun e => e.Ranked ∧ e.Furnished := by
  unfold fieldInit
  refine .of_reads (.expect_bind_peek (by simp) fun hname => ?_)
  refine .expect_bind (by simp) fun define hdefine => ?_
  refine (hinner _).bind fun e ts c₁ _ he => .spanFrom_bind (.pure fun hread => ?_)
  rw [FieldInit.placed, FieldInit.Everywhere]
  refine ⟨⟨?_, hread.covers⟩, he.2.1⟩
  rw [List.append_nil]
  simp only [word, sign, cons_mem_token_mul]
  exact ⟨⟨hname, trivial⟩, hdefine, he.1⟩

/-- What is ensured of a record expression. -/
lemma recordExpression_ensures (hinner : ∀ c, inner.Ensures SplitsTo c Inner) (c : Cursor) :
    (recordExpression inner).Ensures SplitsTo c Base := by
  unfold recordExpression
  refine .of_reads (.expect_bind_peek (by simp) fun hname => ?_)
  refine .expect_bind (by simp) fun lb hlb => ?_
  refine (Ensures.commaSeparated (fieldInit_ensures hinner) _).bind fun inits ts c₁ _ hinits => ?_
  refine .expect_bind (by simp) fun rb hrb => .spanFrom_bind (.pure fun hread => ⟨?_, ?_, rfl⟩)
  · rw [Expression.placed]
    refine ⟨?_, hread.covers⟩
    simp only [word, sign, cons_mem_token_mul]
    exact ⟨⟨hname, trivial⟩, hlb, append_singleton_mem hinits.1 hrb⟩
  · rw [Canonical, Everywhere]
    exact ⟨⟨trivial, trivial⟩, hinits.2⟩

/-- What is ensured of the unit, of an expression in parentheses and of a tuple.

**Proof sketch.** A closing parenthesis makes the unit.  Otherwise an expression is read, and others
behind commas; without others it stands in parentheses, with them it is a tuple. -/
lemma parenthesized_ensures (hinner : ∀ c, inner.Ensures SplitsTo c Inner) (c : Cursor) :
    (parenthesized inner).Ensures SplitsTo c Base := by
  unfold parenthesized
  refine .of_reads (.expect_bind_peek (by simp) fun hlp => ?_)
  refine .eat_bind (by simp) (fun rp hrp => ?_) ?_
  · refine .spanFrom_bind (.pure fun hread => ⟨?_, ?_, rfl⟩)
    · rw [Expression.placed]
      exact ⟨by simp [sign, hlp, hrp], hread.covers⟩
    · rw [Canonical, Everywhere]
      · exact ⟨trivial, trivial⟩
      all_goals simp
  · refine (hinner _).bind fun first ts c₁ _ hfirst => ?_
    have hitem : ∀ c, inner.Ensures SplitsTo c fun e ts _ => ts ∈ e.placed ∧ e.Canonical :=
      fun c => (hinner c).imp fun e ts c' he => ⟨he.1, he.2.1⟩
    refine (Ensures.many (Ensures.afterComma hitem) c₁).bind fun others us c₂ _ hothers => ?_
    refine .expect_bind (by simp) fun rp hrp => .spanFrom_bind (.pure fun hread => ?_)
    rcases others with _ | ⟨second, others⟩
    · obtain rfl : us = [] := hothers.1
      refine ⟨?_, ?_, rfl⟩
      · simp only [List.isEmpty_nil, if_true]
        rw [Expression.placed]
        refine ⟨?_, hread.covers⟩
        simp only [sign, cons_mem_token_mul, List.nil_append]
        exact ⟨hlp, append_singleton_mem hfirst.1 hrp⟩
      · simp only [List.isEmpty_nil, if_true]
        rw [Canonical, Everywhere]
        exact ⟨⟨trivial, trivial⟩, hfirst.2.1⟩
    · simp only [List.isEmpty_cons, Bool.false_eq_true, if_false]
      refine ⟨?_, ?_, rfl⟩
      · rw [Expression.placed]
        refine ⟨?_, hread.covers⟩
        simp only [sign, cons_mem_token_mul, ← List.append_assoc]
        exact ⟨hlp, append_singleton_mem (separated_cons_mem hfirst.1 hothers.1) hrp⟩
      · rw [Canonical, Everywhere]
        refine ⟨⟨trivial, by simp [Furnished]⟩, ?_⟩
        rw [List.forall_mem_cons]
        exact ⟨hfirst.2.1, hothers.2⟩

/-- What is ensured of a number as an expression. -/
lemma numberExpression_ensures (c : Cursor) :
    numberExpression.Ensures SplitsTo c Base := by
  unfold numberExpression
  refine .peek_bind ((number?_ensures c).bind fun o ts c₁ _ ho => ?_)
  rcases o with _ | n
  · exact .unexpected
  · refine .pure ⟨?_, ?_, rfl⟩
    · rw [Expression.placed, List.append_nil]
      exact ho.1
    · rw [Canonical, Everywhere]
      · exact ⟨trivial, trivial⟩
      all_goals simp

/-- A token that is an expression of its own. -/
lemma atom_ensures {e : Span → Expression} {c : Cursor} (hc : c.peek.kind ≠ .eof)
    (he : Base (e c.peek.span) [c.peek] c.advance) : (atom e).Ensures SplitsTo c Base := by
  unfold atom
  exact .advance_bind hc (.pure he)

/-- What is ensured of a name or of a call. -/
lemma nameOrCall_ensures (hinner : ∀ c, inner.Ensures SplitsTo c Inner) {c : Cursor}
    (hc : c.peek.kind = .ident) : (nameOrCall inner).Ensures SplitsTo c Base := by
  unfold nameOrCall
  apply Ensures.checkAhead_bind
  split
  · exact call_ensures hinner c
  · refine .advance_bind (by simp [hc]) (.pure ⟨?_, ?_, rfl⟩)
    · rw [Expression.placed]
      exact singleton_mem_covering (by simp [word, hc])
    · rw [Canonical, Everywhere]
      · exact ⟨trivial, trivial⟩
      all_goals simp

/-- What is ensured of a primary expression.

**Proof sketch.** By the kind of the token at the cursor: each kind has its reader, and the
words that stand for themselves spell themselves. -/
lemma primary_ensures (hinner : ∀ c, inner.Ensures SplitsTo c Inner) (c : Cursor) :
    (primary inner).Ensures SplitsTo c Base := by
  unfold primary
  apply Ensures.peekKind_bind
  split
  · exact nameOrCall_ensures hinner ‹_›
  · exact recordExpression_ensures hinner c
  · exact numberExpression_ensures c
  · exact numberExpression_ensures c
  all_goals first
    | exact parenthesized_ensures hinner c
    | exact .unexpected
    | skip
  case h_5 hc | h_6 hc | h_7 hc | h_8 hc =>
    refine atom_ensures (by simp [hc]) ⟨?_, ?_, rfl⟩
    · rw [Expression.placed]
      exact singleton_mem_covering (by simp [truth, sign, keyword, hc])
    · rw [Canonical, Everywhere]
      · exact ⟨trivial, trivial⟩
      all_goals simp
  all_goals
    refine (scalarLiteral_ensures c).bind fun l ts c₁ _ hl => .pure ⟨?_, ?_, rfl⟩
    · rw [Expression.placed, List.append_nil]
      exact hl
    · rw [Canonical, Everywhere]
      · exact ⟨trivial, trivial⟩
      all_goals simp

/-! ## Suffixes -/

/-- The spelling of a suffix. -/
def Suffix.spelling : Suffix → Language Token
  | field name _ => sign .dot * word .ident name
  | shuffle indices _ =>
    sign .shuffle * (sign .lBracket * (separated (indices.map integer) * sign .rBracket))
  | reduce op _ => sign (.reduce op)
  | scan op _ => sign (.scan op)

/-- A suffix has a token. -/
lemma Suffix.nil_notMem_spelling (s : Suffix) : [] ∉ s.spelling := by
  cases s <;> simp [spelling, sign]

/-- The span of the last token of a suffix. -/
def Suffix.last : Suffix → Span
  | field _ last | shuffle _ last | reduce _ last | scan _ last => last

/-- The spelling of a suffix by tokens the last of which stands where the suffix says. -/
def Suffix.placed (s : Suffix) : Language Token :=
  {ts : List Token | ts ∈ s.spelling ∧ ∃ t ∈ ts.getLast?, t.span = s.last}

/-- What a suffix is read from spells it at its place.

**Proof sketch.** By the token at the cursor: a dot with a name, the sign of a shuffle with its
indices, or the sign of a reduction or of a scan. -/
lemma suffix?_ensures (c : Cursor) :
    suffix?.Ensures SplitsTo c fun o ts _ =>
      Ensures.Answers Suffix.placed (fun _ => True) o ts := by
  unfold suffix?
  apply Ensures.peekKind_bind
  split
  case h_1 hc =>
    refine .advance_bind (by simp [hc]) (.expect_bind (by simp) fun name hname => .pure ?_)
    exact ⟨⟨by simp [Suffix.spelling, sign, word, hc, hname], name, rfl, rfl⟩, trivial⟩
  case h_2 hc =>
    refine .advance_bind (by simp [hc]) (.expect_bind (by simp) fun lb hlb => ?_)
    refine (Ensures.commaSeparated (fun c => (intLiteral_ensures c).imp
      fun _ _ _ hv => ⟨hv.2, trivial⟩) _).bind fun indices ts c₁ _ hindices => ?_
    refine .expect_bind (by simp) fun rb hrb => .pure ⟨⟨?_, rb, ?_, rfl⟩, trivial⟩
    · simp only [Suffix.spelling, sign, cons_mem_token_mul]
      exact ⟨hc, hlb, append_singleton_mem hindices.1 hrb⟩
    · change rb ∈ ((c.peek :: lb :: ts) ++ [rb]).getLast?
      exact List.getLast?_concat
  case h_3 op hc | h_4 op hc =>
    refine .advance_bind (by simp [hc]) (.pure ⟨⟨?_, c.peek, rfl, rfl⟩, trivial⟩)
    simp [Suffix.spelling, sign, hc]
  case h_5 => exact .pure rfl

/-- What holds of an expression that a suffix can stand behind holds with the suffix too.

**Proof sketch.** The span of the expression covers its tokens, and the last token of the suffix
ends the merged span.  The result is no operator expression, so that a further suffix can stand
behind it. -/
lemma Base.attach {e : Expression} {ts us : List Token} {c c' : Cursor} {s : Suffix}
    (he : Base e ts c) (hs : us ∈ s.placed) : Base (s.attach e) (ts ++ us) c' := by
  obtain ⟨hts, hcan, hbase⟩ := he
  obtain ⟨hus, t, ht, hlast⟩ := hs
  have hcovers : InOrder (ts ++ us) → (e.span.merge s.last).Covers (ts ++ us) := fun hin =>
    (e.covers_of_placed hts hin.append.1).merge hin ht ⟨t, List.mem_of_getLast? ht, by rw [hlast]⟩
      (by rw [hlast])
  cases s
  all_goals
    refine ⟨?_, ?_, rfl⟩
    · simp only [Suffix.attach]
      rw [Expression.placed]
      exact ⟨Language.append_mem_mul hts hus, hcovers⟩
    · simp only [Suffix.attach]
      rw [Canonical, Everywhere]
      exact ⟨⟨hbase, trivial⟩, hcan⟩

/-- What is ensured of a primary expression with the suffixes behind it.

**Proof sketch.** The suffixes are attached one by one, and the invariant of the loop is `Base` of
what has been put together so far; `Base.attach` is its step.  A round that consumes nothing would
be an empty suffix, and none is spelled by no token. -/
lemma postfixed_ensures (hinner : ∀ c, inner.Ensures SplitsTo c Inner) (c : Cursor) :
    (postfixed inner).Ensures SplitsTo c Base := by
  unfold postfixed
  refine (primary_ensures hinner c).bind fun base ts c₁ _ hbase => ?_
  have hstep : ∀ e ts c, Base e ts c →
      suffix?.Ensures SplitsTo c (Ensures.Round Suffix.attach Base Base e ts) := by
    intro e ts c he
    refine (suffix?_ensures c).imp fun o us c' ho => ?_
    rcases o with _ | s
    · obtain rfl : us = [] := ho
      rw [Ensures.Round, List.append_nil]
      exact he
    · refine ⟨?_, he.attach ho.1⟩
      rintro rfl
      exact s.nil_notMem_spelling ho.1.1
  have hall := Ensures.many_foldl hstep (fun e ts c he _ => he) base ts hbase
  refine hall.bind fun suffixes us c₂ _ hs => .pure ?_
  rw [List.append_nil]
  exact hs

end Primary

/-! ## Operands -/

/-- What is ensured of a chain of operands with operators of the given levels between them. -/
structure Chained (operands : Operands) (levels : List Level) (e : Expression) (ts : List Token)
    (c : Cursor) : Prop where
  placed : ts ∈ e.placed
  canonical : e.Canonical
  admitted : e.OnSpine (Admitted operands levels)
  /-- No operator follows what reaches as far as it can. -/
  open_end : e.endsOpen = true → c.Beyond Level.all
  beyond : c.Beyond levels

/-- What is ensured of an operand: no binary operator is at its root. -/
def Single (operands : Operands) (e : Expression) (ts : List Token) (c : Cursor) : Prop :=
  Chained operands [] e ts c ∧ e.isBinary = false

section Operands

variable {inner : Parser Expression} {operands : Operands}

/-- What is ensured of a lambda.

**Proof sketch.** The word, the parameters, the colon and the body are read one after the other, and
the body reaches as far as it can. -/
lemma lambda_ensures (hinner : ∀ c, inner.Ensures SplitsTo c Inner) (c : Cursor) :
    (lambda inner).Ensures SplitsTo c (Single .full) := by
  unfold lambda
  refine .of_reads (.expect_bind_peek (by simp) fun hfun => ?_)
  refine (parameters_ensures _).bind fun params ts c₁ _ hparams => ?_
  split
  · exact .unexpected
  rename_i hne
  refine .expect_bind (by simp) fun arrow harrow => ?_
  refine (hinner _).bind fun body us c₂ _ hbody => .spanFrom_bind (.pure fun hread => ?_)
  refine ⟨⟨?_, ?_, rfl, fun _ => hbody.2.2, by simp [Cursor.Beyond]⟩, rfl⟩
  · rw [Expression.placed]
    refine ⟨?_, hread.covers⟩
    rw [List.append_nil]
    simp only [keyword, sign, cons_mem_token_mul]
    refine ⟨hfun, Language.append_mem_mul hparams.1 ?_⟩
    rw [cons_mem_token_mul]
    exact ⟨harrow, hbody.1⟩
  · rw [Canonical, Everywhere]
    exact ⟨⟨trivial, by simpa using hne, hparams.2⟩, hbody.2.1⟩

/-- What is ensured of a let-in behind its value, where `start` covers the first tokens of what was
read before.

**Proof sketch.** The body is read by the inner reader, and `hbefore` puts its tokens behind those
that were read before.  The span goes from the first of these to the last token of the body, since
that token was read last. -/
lemma letBody_ensures (begun between : List Token) {start : Span} {name : String}
    {value : Expression} (hinner : ∀ c, inner.Ensures SplitsTo c Inner)
    (hvalue : value.Canonical) (hstart : InOrder begun → start.Covers begun)
    (hbefore : ∀ (body : Expression) (us : List Token), us ∈ body.placed →
      begun ++ (between ++ us) ∈ keyword .letKw * (word .ident name * (sign .equal
        * (value.placed * (keyword .inKw * body.placed))))) (c : Cursor) :
    (letBody inner start name value).Ensures SplitsTo c fun e us c' =>
      Single .full e (begun ++ (between ++ us)) c' := by
  unfold letBody
  refine (hinner c).bind fun body us c₂ hread hbody => .spanFrom_bind (.pure ?_)
  refine ⟨⟨?_, ?_, rfl, fun _ => hbody.2.2, by simp [Cursor.Beyond]⟩, rfl⟩
  · rw [Expression.placed, List.append_nil]
    refine ⟨hbefore body us hbody.1, fun hin => ?_⟩
    have hcovers := body.covers_of_placed hbody.1 hin.append.2.append.2
    obtain ⟨first, hfirst, last, hlast, -⟩ := hcovers
    have hlast' : last ∈ (between ++ us).getLast? := List.mem_getLast?_append_of_mem_getLast? hlast
    rw [hread.previousSpan hlast]
    exact (hstart hin.append.1).merge hin hlast' ⟨last, List.mem_of_getLast? hlast', rfl⟩ rfl
  · rw [Canonical, Everywhere]
    exact ⟨⟨trivial, trivial⟩, hvalue, hbody.2.1⟩

/-- What is ensured of a let-in.

**Proof sketch.** The word, the name, the value, the word `in` and the body are read one after the
other, and the body reaches as far as it can. -/
lemma letIn_ensures (hinner : ∀ c, inner.Ensures SplitsTo c Inner) (c : Cursor) :
    (Parser.letIn inner).Ensures SplitsTo c (Single .full) := by
  unfold Parser.letIn
  refine .expect_bind (by simp) fun letKw hlet => .expect_bind (by simp) fun name hname => ?_
  refine .expect_bind (by simp) fun equal hequal => ?_
  refine (hinner _).bind fun value ts c₁ _ hvalue => .expect_bind (by simp) fun inKw hin => ?_
  refine (letBody_ensures [letKw] (name :: equal :: (ts ++ [inKw])) hinner
    hvalue.2.1 (fun _ => Span.covers_singleton letKw) ?_ _).imp fun e us c' he => by simpa using he
  intro body us hus
  simp only [List.cons_append, keyword, word, sign, cons_mem_token_mul, List.append_assoc,
    List.nil_append]
  refine ⟨hlet, ⟨hname, trivial⟩, hequal, Language.append_mem_mul hvalue.1 ?_⟩
  rw [cons_mem_token_mul]
  exact ⟨hin, hus⟩

/-- A base is an operand, whatever operands are admitted. -/
lemma Base.single {e : Expression} {ts : List Token} {c : Cursor} (he : Base e ts c) :
    Single operands e ts c := by
  obtain ⟨hts, hcan, hbase⟩ := he
  refine ⟨⟨hts, hcan, ?_, ?_, by simp [Cursor.Beyond]⟩, isBinary_of_isBase hbase⟩
  · exact onSpine_of_isBase hbase (admitted_of_isBase hbase operands [])
  · simp [endsOpen_of_isBase hbase]

/-- What is ensured of an operand without unary operators. -/
lemma bareOperand_ensures (hinner : ∀ c, inner.Ensures SplitsTo c Inner) (c : Cursor) :
    (bareOperand operands inner).Ensures SplitsTo c (Single operands) := by
  unfold bareOperand
  apply Ensures.peekKind_bind
  split
  · exact lambda_ensures hinner c
  · exact letIn_ensures hinner c
  · exact (postfixed_ensures hinner c).imp fun e ts c' he => he.single

/-- What a unary operator is read from spells it at its place. -/
lemma unaryOperator?_ensures (c : Cursor) :
    unaryOperator?.Ensures SplitsTo c fun o ts _ =>
      Ensures.Answers (fun op => covering op.2 op.1.spelling) (fun _ => True) o ts := by
  unfold unaryOperator?
  apply Ensures.peekKind_bind
  split
  · exact .pure rfl
  · rename_i op hop
    refine .advance_bind ?_ (.pure ⟨?_, trivial⟩)
    · intro heof
      simp [heof, Kind.unaryOp?] at hop
    · exact singleton_mem_covering (by simpa [UnaryOp.spelling] using hop)

/-- An operand behind a unary operator is an operand. -/
lemma Single.applyUnary {op : UnaryOp × Span} {e : Expression} {ts us : List Token}
    {c : Cursor} (hop : ts ∈ covering op.2 op.1.spelling) (he : Single operands e us c) :
    Single operands (applyUnary op e) (ts ++ us) c := by
  obtain ⟨⟨hus, hcan, hspine, hopen, hbeyond⟩, hbin⟩ := he
  refine ⟨⟨?_, ?_, ⟨trivial, hspine⟩, hopen, hbeyond⟩, rfl⟩
  · rw [Parser.applyUnary, Expression.placed]
    exact append_mem_covering [] hop.2 (e.covers_of_placed hus)
      (Language.append_mem_mul hop.1 hus)
  · rw [Parser.applyUnary, Canonical, Everywhere]
    exact ⟨⟨hbin, trivial⟩, hcan⟩

/-- What is ensured of an operand with the unary operators in front of it. -/
lemma operand_ensures (hinner : ∀ c, inner.Ensures SplitsTo c Inner) (c : Cursor) :
    (operand operands inner).Ensures SplitsTo c (Single operands) :=
  Ensures.prefixed (fun _ => True) (fun _ h => nil_notMem_token h.1)
    (fun c => (unaryOperator?_ensures c).imp fun _ _ _ ho => ⟨ho, fun _ => trivial⟩)
    (fun _ _ => trivial) (fun c _ => bareOperand_ensures hinner c)
    (fun _ _ _ _ _ hop he => he.applyUnary hop) c

end Operands

/-! ## Chains of operands -/

section Binary

variable {operands : Operands} {level : Level} {tighter : List Level}

/-- What an operator of a level is read from spells it; where there is none, no operator of the
level stands at the cursor, behind a split.

**Proof sketch.** The split at the beginning reads nothing.  Then the token at the cursor is an
operator of the level, which is read and spells itself, or it is none. -/
lemma binaryOperator?_ensures (c : Cursor) :
    (binaryOperator? level).Ensures SplitsTo c fun o ts c' =>
      match o with
      | none => ts = [] ∧ c' = c.splitInfix ∧ c.Beyond [level]
      | some op =>
        op.level = level ∧ ts ∈ op.spelling ∧ c.splitInfix.peek.kind.binaryOp? = some op := by
  unfold binaryOperator?
  have hsplit : (modify Cursor.splitInfix : Parser Unit).Ensures SplitsTo c fun _ ts c' =>
      ts = [] ∧ c' = c.splitInfix := by
    refine ⟨fun a c' h => ?_, (fun _ _ h => nomatch h), (fun _ _ h => nomatch h)⟩
    obtain ⟨-, rfl⟩ := EStateM.Result.ok.inj h
    exact ⟨[], c.reads_splitInfix, rfl, rfl⟩
  refine hsplit.bind ?_
  rintro _ _ _ - ⟨rfl, rfl⟩
  apply Ensures.peekKind_bind
  split
  · rename_i hnone
    refine .pure ⟨rfl, rfl, fun op hop => ?_⟩
    rw [hnone] at hop
    cases hop
  · rename_i op hop
    split
    case isTrue hlevel =>
      refine .advance_bind ?_ (.pure ⟨hlevel, ?_, hop⟩)
      · intro heof
        simp [heof, Kind.binaryOp?] at hop
      · simpa [BinaryOp.spelling] using hop
    case isFalse hlevel =>
      refine .pure ⟨rfl, rfl, fun op' hop' => ?_⟩
      obtain rfl := Option.some.inj (hop.symm.trans hop')
      simpa using hlevel

/-- What holds of the value that the loop over the operators of a level has read so far: besides
what holds of its operands, its root binds at least as tightly as the level. -/
def Looped (operands : Operands) (level : Level) (tighter : List Level) (e : Expression)
    (ts : List Token) (c : Cursor) : Prop :=
  ts ∈ e.placed ∧ e.Canonical ∧ e.OnSpine (Admitted operands (level :: tighter))
    ∧ (e.endsOpen = true → c.Beyond Level.all) ∧ c.Beyond tighter
    ∧ e.BindsAtLeast level.tightness

/-- Where every level is tighter, an operand binds tighter. -/
lemma Chained.bindsAtLeast {n : Nat} {levels : List Level} {e : Expression} {ts : List Token}
    {c : Cursor} (he : Chained operands levels e ts c) (hlevels : ∀ l ∈ levels, n ≤ l.tightness) :
    e.BindsAtLeast n := by
  have hroot := he.admitted.root
  cases e <;> simp only [BindsAtLeast, Admitted] at hroot ⊢
  exact hlevels _ hroot

/-- The first operand of a chain starts the loop. -/
lemma Chained.looped {e : Expression} {ts : List Token} {c : Cursor}
    (he : Chained operands tighter e ts c)
    (hlevels : ∀ l ∈ tighter, level.tightness < l.tightness) :
    Looped operands level tighter e ts c :=
  ⟨he.placed, he.canonical, he.admitted.imp fun _ => Admitted.mono (List.subset_cons_self _ _),
    he.open_end, he.beyond, he.bindsAtLeast fun l hl => (hlevels l hl).le⟩

/-- A round of the loop over the operators of a level.

**Proof sketch.** If an operator of the level stands at the cursor, then the value so far does not
reach as far as it can, since no operator stands behind such a value; its root binds at least as
tightly as the level by the invariant.  The operand behind the operator is a chain of the tighter
levels, so that its root binds tighter.  If no operator of the level stands there, none of the
level and none of the tighter ones does. -/
lemma looped_link {operand : Parser Expression}
    (hoperand : ∀ c, operand.Ensures SplitsTo c (Chained operands tighter))
    (hlevels : ∀ l ∈ tighter, level.tightness < l.tightness) (lhs : Expression) (ts : List Token)
    (c : Cursor) (h : Looped operands level tighter lhs ts c) :
    (binaryOperator? level).Ensures SplitsTo c
      (Ensures.Link SplitsTo operand applyBinary (Looped operands level tighter)
        (Chained operands (level :: tighter)) lhs ts) := by
  obtain ⟨hts, hcan, hspine, hopen, hbeyond, hbinds⟩ := h
  refine (binaryOperator?_ensures c).imp fun o us c₁ ho => ?_
  rcases o with _ | op
  · obtain ⟨rfl, rfl, hlevel⟩ := ho
    refine ⟨by simpa using hts, hcan, hspine, fun h => (hopen h).splitInfix, ?_⟩
    refine Cursor.Beyond.splitInfix fun op hop hmem => ?_
    rcases List.mem_cons.1 hmem with heq | hmem
    · exact hlevel op hop (by simp [heq])
    · exact hbeyond op hop hmem
  · obtain ⟨rfl, hus, hop⟩ := ho
    have hclosed : lhs.endsOpen = false := by
      by_contra hne
      exact hopen (by simpa using hne) op hop op.level.mem_all
    refine ⟨?_, (hoperand c₁).imp fun rhs vs c₂ hr => ?_⟩
    · obtain ⟨t, -, rfl⟩ := hus
      simp
    · refine ⟨?_, ?_, ⟨List.mem_cons_self, hspine, ?_⟩, hr.open_end, hr.beyond, le_rfl⟩
      · simp only [applyBinary]
        rw [Expression.placed]
        exact append_mem_covering _ (lhs.covers_of_placed hts) (rhs.covers_of_placed hr.placed)
          (Language.append_mem_mul hts (Language.append_mem_mul hus hr.placed))
      · simp only [applyBinary]
        rw [Canonical, Everywhere]
        exact ⟨⟨⟨hbinds, hr.bindsAtLeast hlevels, hclosed⟩, trivial⟩, hcan, hr.canonical⟩
      · exact hr.admitted.imp fun _ => Admitted.mono (List.subset_cons_self _ _)

/-- What is ensured of a chain of operands with operators of the given levels.

**Proof sketch.** Induction on the levels.  The loop over the operators of the first level keeps
`Looped`, which is `Chained` again where the loop ends. -/
theorem binary_ensures {operand : Parser Expression}
    (hoperand : ∀ c, operand.Ensures SplitsTo c (Single operands)) :
    ∀ levels : List Level, (levels.Pairwise fun l m => l.tightness < m.tightness) →
      ∀ c, (binary operand levels).Ensures SplitsTo c (Chained operands levels) := by
  intro levels
  induction levels with
  | nil => exact fun _ c => (hoperand c).imp fun e ts c' he => he.1
  | cons level tighter ih =>
    intro hsorted c
    obtain ⟨hlevels, hsorted⟩ := List.pairwise_cons.1 hsorted
    have hrhs := ih hsorted
    rw [binary]
    refine Ensures.leftAssoc (I := Looped operands level tighter) ?_
      (looped_link hrhs hlevels) ?_
    · exact (hrhs c).imp fun e ts c' he => he.looped hlevels
    · rintro e ts c ⟨hts, hcan, hspine, hopen, -, -⟩ hend
      exact ⟨hts, hcan, hspine, hopen, Cursor.beyond_of_ahead_nil hend⟩

end Binary

/-! ## Expressions -/

/-- A chain with the operators of all levels is an inner expression. -/
lemma Chained.inner {operands : Operands} {e : Expression} {ts : List Token} {c : Cursor}
    (he : Chained operands Level.all e ts c) : Inner e ts c :=
  ⟨he.placed, he.canonical, he.beyond⟩

/-- What is ensured of expressions of bounded depth. -/
lemma expressionUpTo_ensures (n : Nat) :
    ∀ c, (expressionUpTo n).Ensures SplitsTo c Inner := by
  induction n with
  | zero => intro c; exact .unexpected
  | succ n ih =>
    intro c
    refine (binary_ensures (operand_ensures ih) _ Level.pairwise_all c).imp ?_
    exact fun e ts c' he => he.inner

/-- What an expression is read from spells it at its place, and it is canonical; no operator stands
behind it. -/
theorem expression_places (c : Cursor) : expression.Ensures SplitsTo c Inner :=
  (expressionUpTo_ensures c.remaining c).congr rfl

/-- What an expression is read from spells it, and it is canonical; no operator stands behind
it. -/
lemma expression_ensures (c : Cursor) :
    expression.Ensures SplitsTo c fun e ts c' =>
      ts ∈ e.spelling ∧ e.Canonical ∧ c'.Beyond Level.all :=
  (expression_places c).imp fun e _ _ he => ⟨e.placed_le he.1, he.2⟩

/-- What an operand of a comparison is read from spells it at its place; it is canonical, and on its
spine there are operators of arithmetic only. -/
theorem comparand_ensures (c : Cursor) :
    comparand.Ensures SplitsTo c (Chained .comparison Level.arithmetic) :=
  binary_ensures (operand_ensures expression_places) _ Level.pairwise_arithmetic c

end Parser

end RakeLang
