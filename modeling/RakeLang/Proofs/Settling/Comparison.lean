import RakeLang.Proofs.Reading.SourceFile
import RakeLang.Proofs.Settling.SourceFile

/-!
# Comparisons of expressions and of predicates

A comparison is read by the reader of expressions and by that of predicates, from one table of
levels: the operands of a comparison in a predicate are expressions with operators of arithmetic,
in which no lambda and no let-in stands without parentheses.  The two readers see the same
comparison.  They come to it on different ways, since the one passes the levels of pipes and of
logic and the other one negations and, before a parenthesis, a trial, and since the one splits an
arrow as it looks for an operator and the other one as it looks for a comparison.

## Main definitions

* `RakeLang.CompareOp.binaryOp?` — the operator of expressions that a comparison is.
* `RakeLang.Expression.Closed` — no lambda and no let-in is on the spine.
* `RakeLang.Parser.Restricts` — a parser that succeeds where another one does with certain values.

## Main results

* `RakeLang.Parser.expression_eq_ok_iff` — an expression is made of expressions.
* `RakeLang.Parser.comparand_restricts` — the operands of comparisons among chains of arithmetic.
* `RakeLang.parsePredicate_eq_compare_iff` — a text is a comparison for both readers or for none.
-/

set_option relaxedAutoImplicit false
set_option autoImplicit false

namespace RakeLang

open Token Expression

/-! ## Operators -/

/-- The operator of expressions that a comparison of predicates is; the words are none. -/
def CompareOp.binaryOp? : CompareOp → Option BinaryOp
  | less => some .less
  | lessEq => some .lessEq
  | greater => some .greater
  | greaterEq => some .greaterEq
  | equal => some .equal
  | notEqual => some .notEqual
  | is | isNot => none

/-- The operators that are comparisons are those of the level of comparisons. -/
lemma CompareOp.level_of_binaryOp? {op : CompareOp} {op' : BinaryOp}
    (h : op.binaryOp? = some op') : op'.level = .compare := by
  cases op <;> simp only [binaryOp?, reduceCtorEq, Option.some.injEq] at h
  all_goals
    subst h
    rfl

/-- A token is a comparison just if it is the operator of that comparison. -/
lemma Kind.compareOp?_eq_some_iff {kind : Kind} {op : CompareOp} {op' : BinaryOp}
    (h : op.binaryOp? = some op') : kind.compareOp? = some op ↔ kind.binaryOp? = some op' := by
  cases op <;> simp only [CompareOp.binaryOp?, reduceCtorEq, Option.some.injEq] at h
  all_goals
    subst h
    rcases kind with _ | _ | _ | _ | _ | word | sign | _
    case keyword => cases word <;> simp [compareOp?, Kind.binaryOp?]
    case symbol => cases sign <;> simp [compareOp?, Kind.binaryOp?]
    all_goals simp [compareOp?, Kind.binaryOp?]

/-- The expression has no lambda and no let-in on its spine. -/
def Expression.Closed (e : Expression) : Prop := e.OnSpine (Admitted .comparison Level.all)

/-- No lambda and no let-in is on the spine of an operator just if none is on those of its operands.
-/
lemma Expression.closed_binary {op : BinaryOp} {lhs rhs : Expression} {span : Span} :
    (binary op lhs rhs span).Closed ↔ lhs.Closed ∧ rhs.Closed := by
  simp [Closed, OnSpine, Admitted, Level.mem_all]

/-- No lambda and no let-in is on the spine of a unary operator just if none is on that of its
operand. -/
lemma Expression.closed_unary {op : UnaryOp} {operand : Expression} {span : Span} :
    (unary op operand span).Closed ↔ operand.Closed := by
  simp [Closed, OnSpine, Admitted]

namespace Parser

/-! ## Parsers that succeed less often -/

section Restricts

variable {α β γ : Type}

/-- The parser `p` succeeds where `q` does with a value of which `P` holds, with the same value and
the same cursor behind. -/
def Restricts (p q : Parser α) (P : α → Prop) : Prop :=
  ∀ c a c', p c = .ok a c' ↔ q c = .ok a c' ∧ P a

namespace Restricts

/-- A parser succeeds where it does itself. -/
lemma refl (p : Parser α) : Restricts p p fun _ => True := fun _ _ _ => by simp

/-- An answer with the property is restricted to nothing. -/
lemma pure {a : α} {P : α → Prop} (ha : P a) : Restricts (pure a) (pure a) P := by
  intro c a' c'
  refine ⟨fun h => ?_, And.left⟩
  obtain ⟨rfl, -⟩ := EStateM.Result.ok.inj h
  exact ⟨h, ha⟩

/-- One parser behind another, where the last value tells of the first one. -/
lemma bind {p q : Parser α} {f g : α → Parser β} {P : α → Prop} {Q : β → Prop}
    (hp : Restricts p q P) (hf : ∀ a, P a → Restricts (f a) (g a) Q)
    (hback : ∀ a c b c', g a c = .ok b c' → Q b → P a) : Restricts (p >>= f) (q >>= g) Q := by
  intro c b c'
  simp only [bind_eq_ok]
  constructor
  · rintro ⟨a, c₁, ha, hb⟩
    obtain ⟨ha, hPa⟩ := (hp c a c₁).1 ha
    obtain ⟨hb, hQb⟩ := (hf a hPa c₁ b c').1 hb
    exact ⟨⟨a, c₁, ha, hb⟩, hQb⟩
  · rintro ⟨⟨a, c₁, ha, hb⟩, hQb⟩
    have hPa := hback a c₁ b c' hb hQb
    exact ⟨a, c₁, (hp c a c₁).2 ⟨ha, hPa⟩, (hf a hPa c₁ b c').2 ⟨hb, hQb⟩⟩

/-- A bounded repetition whose rounds succeed less often.

**Proof sketch.** By induction on the bound.  A round is restricted by `hstep`, the rest by the
induction hypothesis, and `P` holds of all members of a list just if it holds of the first and of
the others. -/
lemma manyUpTo {step step' : Parser (Option α)} {P : α → Prop}
    (hstep : Restricts step step' fun o => ∀ a ∈ o, P a) (n : Nat) :
    Restricts (manyUpTo step n) (manyUpTo step' n) fun as => ∀ a ∈ as, P a := by
  induction n with
  | zero => exact pure (by simp)
  | succ n ih =>
    refine hstep.bind (fun o ho => ?_) fun o c as c' h has => ?_
    · rcases o with _ | a
      · exact pure (by simp)
      · refine ih.bind (fun as has => pure (List.forall_mem_cons.2 ⟨ho a rfl, has⟩)) ?_
        intro as c as' c' h has'
        obtain ⟨rfl, -⟩ := EStateM.Result.ok.inj h
        exact (List.forall_mem_cons.1 has').2
    · rcases o with _ | a
      · simp
      · obtain ⟨as', c₁, -, h⟩ := bind_eq_ok.1 h
        obtain ⟨rfl, -⟩ := EStateM.Result.ok.inj h
        rintro _ ⟨⟩
        exact (List.forall_mem_cons.1 has).1

/-- A repetition whose rounds succeed less often.

**Proof sketch.** The bound of the rest is what remains behind the first round, which is the
same on both sides; with it the rest is restricted as in `Restricts.manyUpTo`. -/
lemma many {step step' : Parser (Option α)} {P : α → Prop}
    (hstep : Restricts step step' fun o => ∀ a ∈ o, P a) :
    Restricts (many step) (many step') fun as => ∀ a ∈ as, P a := by
  refine hstep.bind (fun o ho => ?_) fun o c as c' h has => ?_
  · rcases o with _ | a
    · exact pure (by simp)
    · refine bind (p := fun c => Parser.manyUpTo step c.remaining c)
        (q := fun c => Parser.manyUpTo step' c.remaining c)
        (fun c => hstep.manyUpTo c.remaining c)
        (fun as has => pure (List.forall_mem_cons.2 ⟨ho a rfl, has⟩)) ?_
      intro as c as' c' h has'
      obtain ⟨rfl, -⟩ := EStateM.Result.ok.inj h
      exact (List.forall_mem_cons.1 has').2
  · rcases o with _ | a
    · simp
    · obtain ⟨as', c₁, -, h⟩ := bind_eq_ok.1 h
      obtain ⟨rfl, -⟩ := EStateM.Result.ok.inj h
      rintro _ ⟨⟩
      exact (List.forall_mem_cons.1 has).1

/-- A chain whose operands succeed less often, where the value of the chain tells of the
operands.

**Proof sketch.** The rounds behind the first operand are restricted one by one, and the
property of the value is that of the first operand and of all others. -/
lemma leftAssoc {operator : Parser (Option β)} {operand operand' : Parser α}
    {combine : α → β → α → α} {P : α → Prop} (hoperand : Restricts operand operand' P)
    (hcombine : ∀ a op b, P (combine a op b) ↔ P a ∧ P b) :
    Restricts (leftAssoc operator operand combine) (leftAssoc operator operand' combine) P := by
  have hlink : Restricts (link operator operand) (link operator operand')
      fun o => ∀ s ∈ o, P s.2 := by
    refine (refl operator).bind (fun o _ => ?_) fun _ _ _ _ _ _ => trivial
    rcases o with _ | op
    · exact pure (by simp)
    · refine hoperand.bind (fun rhs hrhs => pure (by simpa using hrhs)) ?_
      intro rhs c o c' h ho
      obtain ⟨rfl, -⟩ := EStateM.Result.ok.inj h
      exact ho _ rfl
  have hfold : ∀ (steps : List (β × α)) (a : α),
      P (steps.foldl (fun lhs step => combine lhs step.1 step.2) a) ↔
        P a ∧ ∀ s ∈ steps, P s.2 := by
    intro steps
    induction steps with
    | nil => simp
    | cons s steps ih =>
      intro a
      rw [List.foldl_cons, ih, hcombine, List.forall_mem_cons, and_assoc]
  rw [leftAssoc_eq, leftAssoc_eq]
  refine hoperand.bind (fun a ha => hlink.many.bind
    (fun steps hsteps => pure ((hfold steps a).2 ⟨ha, hsteps⟩)) ?_) ?_
  · intro steps c b c' h hb
    obtain ⟨rfl, -⟩ := EStateM.Result.ok.inj h
    exact ((hfold steps a).1 hb).2
  · intro a c b c' h hb
    obtain ⟨steps, c₁, -, h⟩ := bind_eq_ok.1 h
    obtain ⟨rfl, -⟩ := EStateM.Result.ok.inj h
    exact ((hfold steps a).1 hb).1

/-- An operand that succeeds less often, behind operators that say the same of it and of what they
make of it. -/
lemma prefixed {operator : Parser (Option β)} {operand operand' : Parser α}
    {combine : β → α → α} {P : α → Prop} (hoperand : Restricts operand operand' P)
    (hcombine : ∀ op a, P (combine op a) ↔ P a) :
    Restricts (prefixed operator operand combine) (prefixed operator operand' combine) P := by
  have hfold : ∀ (ops : List β) (a : α), P (ops.foldr combine a) ↔ P a := by
    intro ops a
    induction ops with
    | nil => rfl
    | cons op ops ih => rw [List.foldr_cons, hcombine, ih]
  refine (refl _).bind (fun ops _ => hoperand.bind
    (fun a ha => pure ((hfold ops a).2 ha)) ?_) fun _ _ _ _ _ _ => trivial
  intro a c b c' h hb
  obtain ⟨rfl, -⟩ := EStateM.Result.ok.inj h
  exact (hfold ops a).1 hb

end Restricts

end Restricts

/-! ## Operands of comparisons -/

section Operands

variable {inner : Parser Expression} {c c' : Cursor} {e : Expression}

/-- A lambda reads a lambda. -/
lemma lambda_not_closed (h : lambda inner c = .ok e c') : ¬e.Closed := by
  obtain ⟨start, c₁, -, h⟩ := bind_eq_ok.1 h
  obtain ⟨params, c₂, -, h⟩ := bind_eq_ok.1 h
  split at h
  · cases h
  · obtain ⟨arrow, c₃, -, h⟩ := bind_eq_ok.1 h
    obtain ⟨body, c₄, -, h⟩ := bind_eq_ok.1 h
    obtain ⟨rfl, -⟩ := EStateM.Result.ok.inj h
    simp [Closed, OnSpine, Admitted]

/-- A let-in reads a let-in. -/
lemma letIn_not_closed (h : Parser.letIn inner c = .ok e c') : ¬e.Closed := by
  obtain ⟨start, c₁, -, h⟩ := bind_eq_ok.1 h
  obtain ⟨name, c₂, -, h⟩ := bind_eq_ok.1 h
  obtain ⟨equal, c₃, -, h⟩ := bind_eq_ok.1 h
  obtain ⟨value, c₄, -, h⟩ := bind_eq_ok.1 h
  obtain ⟨word, c₅, -, h⟩ := bind_eq_ok.1 h
  obtain ⟨body, c₆, -, h⟩ := bind_eq_ok.1 h
  obtain ⟨rfl, -⟩ := EStateM.Result.ok.inj h
  simp [Closed, OnSpine, Admitted]

/-- Where no primary expression begins, none is read. -/
lemma postfixed_of_keyword {word : Keyword} (hword : word = .funKw ∨ word = .letKw)
    (hc : c.peek.kind = .keyword word) : postfixed inner c ≠ .ok e c' := by
  intro h
  obtain ⟨base, c₁, h, -⟩ := bind_eq_ok.1 h
  rw [primary, bind_of_ok (p := peekKind) rfl, hc] at h
  rcases hword with rfl | rfl <;> cases h

/-- A lambda and a let-in are operands of expressions only.

**Proof sketch.** By cases on the token at the cursor.  The words `fun` and `let` begin no operand
of a comparison, and what they begin otherwise is an open expression, not a closed one.  On every
other token the two readers are the same, and what they read is closed. -/
lemma bareOperand_restricts (hinner : ∀ c, inner.Ensures SplitsTo c Inner) :
    Restricts (bareOperand .comparison inner) (bareOperand .full inner) Closed := by
  intro c e c'
  by_cases hfun : c.peek.kind = .keyword .funKw
  · rw [bareOperand, bareOperand, bind_of_ok (p := peekKind) rfl, bind_of_ok (p := peekKind) rfl,
      hfun]
    exact ⟨fun h => absurd h (postfixed_of_keyword (.inl rfl) hfun),
      fun h => absurd h.2 (lambda_not_closed h.1)⟩
  by_cases hlet : c.peek.kind = .keyword .letKw
  · rw [bareOperand, bareOperand, bind_of_ok (p := peekKind) rfl, bind_of_ok (p := peekKind) rfl,
      hlet]
    exact ⟨fun h => absurd h (postfixed_of_keyword (.inr rfl) hlet),
      fun h => absurd h.2 (letIn_not_closed h.1)⟩
  have hbare (operands : Operands) : bareOperand operands inner c = postfixed inner c := by
    rw [bareOperand, bind_of_ok (p := peekKind) rfl]
    refine congrFun (?_ : _ = postfixed inner) c
    split <;> first | contradiction | rfl
  rw [hbare, hbare]
  refine ⟨fun h => ⟨h, ?_⟩, And.left⟩
  obtain ⟨ts, -, -, -, hbase⟩ := (postfixed_ensures hinner c).ok e c' h
  exact onSpine_of_isBase hbase (admitted_of_isBase hbase _ _)

/-- Operands of comparisons are those operands of expressions that have no lambda and no let-in on
their spines. -/
lemma operand_restricts (hinner : ∀ c, inner.Ensures SplitsTo c Inner) :
    Restricts (operand .comparison inner) (operand .full inner) Closed :=
  (bareOperand_restricts hinner).prefixed fun _ _ => closed_unary

/-- Chains whose operands are restricted are restricted. -/
lemma binary_restricts {operand operand' : Parser Expression}
    (hoperand : Restricts operand operand' Closed) (levels : List Level) :
    Restricts (binary operand levels) (binary operand' levels) Closed := by
  induction levels with
  | nil => exact hoperand
  | cons level tighter ih => exact ih.leftAssoc fun _ _ _ => closed_binary

/-- The operands of comparisons are the chains of arithmetic with neither a lambda nor a let-in on
the spine. -/
theorem comparand_restricts :
    Restricts comparand (binary (operand .full expression) Level.arithmetic) Closed :=
  binary_restricts (operand_restricts expression_places) Level.arithmetic

end Operands

/-! ## Expressions are made of expressions -/

end Parser

/-- Every cursor goes along with itself. -/
def Simulation.identity : Simulation where
  exact := True
  total := True
  floor := 0
  Fails _ := True
  Rel _ c d := c = d
  heads h := .inl ⟨by rw [h], by rw [h], fun _ => by rw [h]⟩
  advance h _ _ _ := by rw [h]
  split h := by
    subst h
    exact ⟨rfl, .inl ⟨rfl, rfl, fun _ => rfl⟩⟩
  previous h _ := by rw [h]
  fails _ := trivial

namespace Parser

/-- What remains bounds an expression, and a larger bound reads the same. -/
lemma expressionUpTo_inStep (S : Simulation) (n m : Nat) :
    InStep (S.under n m) (expressionUpTo n) expression := fun depth c d h =>
  ((expressionUpTo_simulates n d.remaining depth c d ⟨h, h.2.1, le_rfl⟩).of_under).congr rfl rfl

/-- **Expressions are made of expressions**: the bound that the reader takes from what remains is
large enough for the expressions inside.

**Proof sketch.** Where nothing remains both sides refuse the token at the cursor.  Elsewhere the
inner expressions begin behind a token, with less ahead than the bound; readings with bounds that
are large enough are in step with themselves. -/
theorem expression_eq_ok_iff {c c' : Cursor} {e : Expression} :
    expression c = .ok e c' ↔ expressionWith expression c = .ok e c' := by
  rcases hn : c.remaining with _ | n
  · have heof := Cursor.peek_kind_of_ahead_nil (Cursor.ahead_eq_nil_of_remaining hn)
    have hzero : expression c = .error (.unexpected ["expression"] c.peek.found c.peek.span) c :=
      expressionUpTo_eof c.remaining heof
    have hwith : expressionWith expression c
        = .error (.unexpected ["expression"] c.peek.found c.peek.span) c :=
      binary_of_error (operand_refused .full expression (.inl heof)) Level.all
    rw [hzero, hwith]
  · have : Lowers (operand .full (expressionUpTo n)) :=
      .of_ensures (operand_ensures (expressionUpTo_ensures n))
    have : Lowers (operand .full expression) := .of_ensures (operand_ensures expression_places)
    have hstep : Simulates (Simulation.identity.under (n + 1) (n + 1)) (expressionUpTo (n + 1))
        (expressionWith expression) c c (ExpressionInStep _ 0) :=
      binary_simulates (fun _ _ _ h => operand_simulates (expressionUpTo_ensures n)
        (expressionUpTo_inStep _ n n) h) Level.all 0 c c ⟨rfl, hn.le, hn.le⟩
    have hexpression : expression c = expressionUpTo (n + 1) c := by rw [expression, hn]
    rw [hexpression]
    constructor
    · intro h
      obtain ⟨e', d, τ, hok, ⟨⟨-, halike⟩, -⟩, rfl, -⟩ := hstep.ok e c' h (Nat.zero_le _)
      rwa [halike trivial]
    · intro h
      rcases hrun : expressionUpTo (n + 1) c with ⟨e', d⟩ | ⟨fault, d⟩
      · obtain ⟨e'', d', τ, hok, ⟨⟨-, halike⟩, -⟩, rfl, -⟩ := hstep.ok e' d hrun (Nat.zero_le _)
        obtain ⟨rfl, rfl⟩ := EStateM.Result.ok.inj (hok.symm.trans h)
        rw [halike trivial]
      · obtain ⟨other, d', τ, hfail, -⟩ := (hstep.error rfl fault d hrun).2 trivial
        cases hfail.symm.trans h

/-! ## Loops over the operators of a level -/

section Loops

variable {α β : Type} {operator : Parser (Option β)} {operand : Parser α} {combine : α → β → α → α}
  {step : Parser (Option β)} {c c' : Cursor} {a : α}

/-- A repetition that answers nothing has stopped at once. -/
lemma many_eq_nil (h : many step c = .ok [] c') : step c = .ok none c' := by
  obtain ⟨o, c₁, hstep, h⟩ := bind_eq_ok.1 h
  rcases o with _ | b
  · obtain ⟨-, rfl⟩ := EStateM.Result.ok.inj h
    exact hstep
  · obtain ⟨rest, c₂, -, h⟩ := bind_eq_ok.1 h
    cases h

/-- A repetition that answers once has stopped behind it, or has come to its bound.

**Proof sketch.** The loop is unrolled once: its first round gave `b`.  Then either no bound was
left, or a second round was made, which answered nothing, since otherwise the list would be longer.
-/
lemma many_eq_singleton {b : β} (h : many step c = .ok [b] c') :
    ∃ c₁, step c = .ok (some b) c₁ ∧ (step c₁ = .ok none c' ∨ c₁ = c') := by
  obtain ⟨o, c₁, hstep, h⟩ := bind_eq_ok.1 h
  rcases o with _ | b'
  · cases h
  · obtain ⟨rest, c₂, hrest, h⟩ := bind_eq_ok.1 h
    obtain ⟨hlist, rfl⟩ := EStateM.Result.ok.inj h
    obtain ⟨rfl, rfl⟩ := List.cons.inj hlist
    refine ⟨c₁, hstep, ?_⟩
    rcases hn : c₁.remaining with _ | n
    · rw [hn] at hrest
      exact .inr (EStateM.Result.ok.inj hrest).2
    · rw [hn] at hrest
      obtain ⟨o, c₃, hstep', hrest⟩ := bind_eq_ok.1 hrest
      rcases o with _ | b''
      · obtain ⟨-, rfl⟩ := EStateM.Result.ok.inj hrest
        exact .inl hstep'
      · obtain ⟨more, c₄, -, hrest⟩ := bind_eq_ok.1 hrest
        cases hrest

/-- A repetition whose second round answers nothing answers once. -/
lemma many_singleton {b : β} {c₁ : Cursor} (hstep : step c = .ok (some b) c₁)
    (hstop : step c₁ = .ok none c₁) : many step c = .ok [b] c₁ := by
  have hrest : manyUpTo step c₁.remaining c₁ = .ok [] c₁ := by
    rcases c₁.remaining with _ | n
    · rfl
    · exact bind_eq_ok.2 ⟨none, c₁, hstop, rfl⟩
  exact bind_eq_ok.2 ⟨_, c₁, hstep, bind_eq_ok.2 ⟨[], c₁, hrest, rfl⟩⟩

/-- A round of a chain answers nothing where there is no operator. -/
lemma link_eq_none_iff : link operator operand c = .ok none c' ↔ operator c = .ok none c' := by
  constructor
  · intro h
    obtain ⟨o, c₁, hoperator, h⟩ := bind_eq_ok.1 h
    rcases o with _ | op
    · obtain ⟨-, rfl⟩ := EStateM.Result.ok.inj h
      exact hoperator
    · obtain ⟨rhs, c₂, -, h⟩ := bind_eq_ok.1 h
      cases h
  · exact fun h => bind_eq_ok.2 ⟨none, c', h, rfl⟩

/-- A round of a chain is an operator and the operand behind it. -/
lemma link_eq_some_iff {op : β} {rhs : α} :
    link operator operand c = .ok (some (op, rhs)) c'
      ↔ ∃ c₁, operator c = .ok (some op) c₁ ∧ operand c₁ = .ok rhs c' := by
  constructor
  · intro h
    obtain ⟨o, c₁, hoperator, h⟩ := bind_eq_ok.1 h
    rcases o with _ | op'
    · cases h
    · obtain ⟨rhs', c₂, hoperand, h⟩ := bind_eq_ok.1 h
      obtain ⟨hsome, rfl⟩ := EStateM.Result.ok.inj h
      obtain ⟨rfl, rfl⟩ := Prod.mk.inj (Option.some.inj hsome)
      exact ⟨c₁, hoperator, hoperand⟩
  · rintro ⟨c₁, hoperator, hoperand⟩
    exact bind_eq_ok.2 ⟨_, c₁, hoperator, bind_eq_ok.2 ⟨rhs, c', hoperand, rfl⟩⟩

/-- The operators of a chain are operators that were seen. -/
lemma operator_of_mem {steps : List (β × α)} (h : many (link operator operand) c = .ok steps c') :
    ∀ s ∈ steps, ∃ c₁ c₂, operator c₁ = .ok (some s.1) c₂ := by
  have hlink : Restricts (link operator operand) (link operator operand)
      fun o => ∀ s ∈ o, ∃ c₁ c₂, operator c₁ = .ok (some s.1) c₂ := by
    intro c o c'
    refine ⟨fun h => ⟨h, ?_⟩, And.left⟩
    rintro ⟨op, rhs⟩ ⟨⟩
    obtain ⟨c₁, hoperator, -⟩ := link_eq_some_iff.1 h
    exact ⟨c, c₁, hoperator⟩
  exact ((hlink.many c steps c').1 h).2

/-- A chain is an operand and what operators make of it. -/
lemma leftAssoc_eq_ok_iff : leftAssoc operator operand combine c = .ok a c' ↔
    ∃ first c₁ steps, operand c = .ok first c₁ ∧ many (link operator operand) c₁ = .ok steps c'
      ∧ steps.foldl (fun lhs step => combine lhs step.1 step.2) first = a := by
  rw [leftAssoc_eq, bind_eq_ok]
  constructor
  · rintro ⟨first, c₁, hfirst, h⟩
    obtain ⟨steps, c₂, hsteps, h⟩ := bind_eq_ok.1 h
    obtain ⟨rfl, rfl⟩ := EStateM.Result.ok.inj h
    exact ⟨first, c₁, steps, hfirst, hsteps, rfl⟩
  · rintro ⟨first, c₁, steps, hfirst, hsteps, rfl⟩
    exact ⟨first, c₁, hfirst, bind_eq_ok.2 ⟨steps, c', hsteps, rfl⟩⟩

/-- A value that no operator of a chain makes is an operand of it, where the chain stops. -/
lemma leftAssoc_eq_operand_iff
    (hcombine : ∀ c₁ op c₂, operator c₁ = .ok (some op) c₂ → ∀ lhs rhs, combine lhs op rhs ≠ a)
    (hstop : operator c' = .ok none c') (hstay : ∀ c₁, operator c₁ = .ok none c' → c₁ = c') :
    leftAssoc operator operand combine c = .ok a c' ↔ operand c = .ok a c' := by
  rw [leftAssoc_eq_ok_iff]
  constructor
  · rintro ⟨first, c₁, steps, hfirst, hsteps, hfold⟩
    rcases List.eq_nil_or_concat' steps with rfl | ⟨init, s, rfl⟩
    · obtain rfl := hstay c₁ (link_eq_none_iff.1 (many_eq_nil hsteps))
      exact hfold ▸ hfirst
    · obtain ⟨c₂, c₃, hop⟩ := operator_of_mem hsteps s (by simp)
      rw [List.foldl_append] at hfold
      exact absurd hfold (hcombine c₂ s.1 c₃ hop _ _)
  · intro h
    exact ⟨a, c', [], h, bind_eq_ok.2 ⟨none, c', link_eq_none_iff.2 hstop, rfl⟩, rfl⟩

end Loops

/-! ## Comparisons -/

section Comparisons

variable {c c' : Cursor} {level : Level} {tighter : List Level} {item : Parser Expression}
  {lhs rhs : Expression} {span : Span}

/-- Behind the end of the input no operator is found. -/
lemma binaryOperator?_eof (hc : c.peek.kind = .eof) : binaryOperator? level c = .ok none c := by
  have hsplit : c.splitInfix = c :=
    Cursor.splitInfix_of_peek (by simp [isSignedNumber, Kind.isNumber, hc]) (by simp [hc])
  refine bind_eq_ok.2 ⟨(), c, by change EStateM.Result.ok () c.splitInfix = _; rw [hsplit], ?_⟩
  exact bind_eq_ok.2 ⟨_, c, rfl, by rw [hc]; rfl⟩

/-- A look for an operator that comes to the end of the input has stayed there. -/
lemma eq_of_binaryOperator?_eof (h : binaryOperator? level c = .ok none c')
    (hc' : c'.peek.kind = .eof) : c = c' := by
  obtain ⟨ts, -, -, rfl, -⟩ := (binaryOperator?_ensures c).ok none c' h
  rcases c.peek_splitInfix with heq | hminus | hless
  · exact heq.symm
  · simp [hc'] at hminus
  · simp [hc'] at hless

/-- An operator that is found for a level is one of it. -/
lemma level_of_binaryOperator? {op : BinaryOp} (h : binaryOperator? level c = .ok (some op) c') :
    op.level = level := by
  obtain ⟨ts, -, hlevel, -⟩ := (binaryOperator?_ensures c).ok (some op) c' h
  exact hlevel

/-- A chain of a level that ends the input is one of the tighter levels if the operator at its root
is of another level. -/
lemma binary_cons_eq_ok_iff {op : BinaryOp} (hlevel : op.level ≠ level)
    (hc' : c'.peek.kind = .eof) :
    binary item (level :: tighter) c = .ok (.binary op lhs rhs span) c'
      ↔ binary item tighter c = .ok (.binary op lhs rhs span) c' := by
  refine leftAssoc_eq_operand_iff (fun c₁ op' c₂ hop' lhs' rhs' heq => ?_)
    (binaryOperator?_eof hc') fun c₁ h => eq_of_binaryOperator?_eof h hc'
  obtain ⟨rfl, -⟩ := Expression.binary.inj heq
  exact hlevel (level_of_binaryOperator? hop')

/-- A chain of a level that ends the input, with an operator of the level at its root and with none
at the root of its left operand, is an operator between two chains of the tighter levels.

**Proof sketch.** The chain is a first operand with a row of operators and operands, put together
from the left.  An operator of the level at the root is the last of a row; and since the left
operand has none at its root, it is the only one. -/
lemma binary_cons_eq_binary_iff {op : BinaryOp} (hop : op.level = level)
    (hlhs : lhs.BindsAtLeast (level.tightness + 1))
    (hitem : ∀ c e c', binary item tighter c = .ok e c' →
      e.BindsAtLeast (level.tightness + 1)) (hc' : c'.peek.kind = .eof) :
    binary item (level :: tighter) c = .ok (.binary op lhs rhs span) c'
      ↔ span = lhs.span.merge rhs.span ∧ ∃ c₁ c₂, binary item tighter c = .ok lhs c₁
        ∧ binaryOperator? level c₁ = .ok (some op) c₂
        ∧ binary item tighter c₂ = .ok rhs c' := by
  have hroot : ∀ {l r : Expression} {s : Span} {op : BinaryOp}, op.level = level →
      ¬(Expression.binary op l r s).BindsAtLeast (level.tightness + 1) := by
    intro l r s op hop h
    rw [BindsAtLeast, hop] at h
    omega
  rw [binary, leftAssoc_eq_ok_iff]
  constructor
  · rintro ⟨first, c₁, steps, hfirst, hsteps, hfold⟩
    have hlevels : ∀ s ∈ steps, s.1.level = level := by
      intro s hs
      obtain ⟨c₂, c₃, hoperator⟩ := operator_of_mem hsteps s hs
      exact level_of_binaryOperator? hoperator
    rcases List.eq_nil_or_concat' steps with rfl | ⟨init, ⟨op', rhs'⟩, rfl⟩
    · -- without a round the value is an operand, which binds tighter
      obtain rfl : first = .binary op lhs rhs span := hfold
      exact absurd (hitem c _ c₁ hfirst) (hroot hop)
    · rw [List.foldl_append] at hfold
      obtain ⟨rfl, rfl, rfl, rfl⟩ := Expression.binary.inj hfold
      refine ⟨rfl, ?_⟩
      rcases List.eq_nil_or_concat' init with rfl | ⟨init, s, rfl⟩
      · obtain ⟨c₂, hlink, hlast⟩ := many_eq_singleton hsteps
        have hc₂ : c₂ = c' := by
          rcases hlast with hstop | rfl
          · exact eq_of_binaryOperator?_eof (link_eq_none_iff.1 hstop) hc'
          · rfl
        obtain ⟨c₃, hoperator, hrhs⟩ := link_eq_some_iff.1 hlink
        exact ⟨c₁, c₃, hfirst, hoperator, hc₂ ▸ hrhs⟩
      · -- with two rounds its left side is a chain of this level
        rw [List.foldl_append] at hlhs
        exact absurd hlhs (hroot (hlevels s (by simp)))
  · rintro ⟨rfl, c₁, c₂, hl, hoperator, hr⟩
    refine ⟨lhs, c₁, [(op, rhs)], hl, many_singleton (link_eq_some_iff.2 ⟨c₂, hoperator, hr⟩) ?_,
      rfl⟩
    exact link_eq_none_iff.2 (binaryOperator?_eof hc')

/-- Two operands of comparisons stand ahead, with the operator of a comparison between them. -/
def Compares (op : BinaryOp) (lhs rhs : Expression) (span : Span) (c c' : Cursor) : Prop :=
  span = lhs.span.merge rhs.span ∧ ∃ c₁ c₂, comparand c = .ok lhs c₁
    ∧ binaryOperator? .compare c₁ = .ok (some op) c₂ ∧ comparand c₂ = .ok rhs c'

/-- A chain of arithmetic is an operand of comparisons just if it can stand on either side of
one. -/
lemma comparand_eq_ok_iff {e : Expression} : comparand c = .ok e c' ↔
    binary (operand .full expression) Level.arithmetic c = .ok e c'
      ∧ e.OnSpine (Admitted .comparison Level.arithmetic) := by
  rw [comparand_restricts c e c']
  refine ⟨fun h => ⟨h.1, ?_⟩, fun h => ⟨h.1, ?_⟩⟩
  · obtain ⟨ts, -, hchained⟩ := (comparand_ensures c).ok e c' ((comparand_restricts c e c').2 h)
    exact hchained.admitted
  · exact h.2.imp fun _ => Admitted.mono fun level _ => level.mem_all

/-- The reader of expressions reads a comparison of arithmetic at the end of the input from its
operands and the operator between them.

**Proof sketch.** The looser levels add nothing.  On the level of comparisons there is one round,
since no comparison is at the root of the left operand.  The operands are chains of arithmetic. -/
lemma expression_eq_binary_iff {op : BinaryOp} (hop : op.level = .compare)
    (hc' : c'.peek.kind = .eof) :
    (expression c = .ok (.binary op lhs rhs span) c'
        ∧ lhs.OnSpine (Admitted .comparison Level.arithmetic)
        ∧ rhs.OnSpine (Admitted .comparison Level.arithmetic))
      ↔ Compares op lhs rhs span c c' := by
  have htighter : ∀ l ∈ Level.arithmetic, Level.compare.tightness + 1 ≤ l.tightness := by decide
  have hoperand : ∀ c e c', binary (operand .full expression) Level.arithmetic c = .ok e c' →
      e.BindsAtLeast (Level.compare.tightness + 1) := by
    intro c e c' h
    obtain ⟨ts, -, hchained⟩ := (binary_ensures (operand_ensures expression_places) _
      Level.pairwise_arithmetic c).ok e c' h
    exact hchained.bindsAtLeast htighter
  have hlevels : ∀ hlhs : lhs.BindsAtLeast (Level.compare.tightness + 1),
      expression c = .ok (.binary op lhs rhs span) c' ↔ span = lhs.span.merge rhs.span
        ∧ ∃ c₁ c₂, binary (operand .full expression) Level.arithmetic c = .ok lhs c₁
          ∧ binaryOperator? .compare c₁ = .ok (some op) c₂
          ∧ binary (operand .full expression) Level.arithmetic c₂ = .ok rhs c' := by
    intro hlhs
    rw [expression_eq_ok_iff, expressionWith, Level.all, binary_cons_eq_ok_iff (by simp [hop]) hc',
      binary_cons_eq_ok_iff (by simp [hop]) hc', binary_cons_eq_ok_iff (by simp [hop]) hc']
    exact binary_cons_eq_binary_iff hop hlhs hoperand hc'
  constructor
  · rintro ⟨h, hlhs, hrhs⟩
    have hbinds : lhs.BindsAtLeast (Level.compare.tightness + 1) := by
      have hroot := hlhs.root
      cases lhs <;> simp only [BindsAtLeast, Admitted] at hroot ⊢
      exact htighter _ hroot
    obtain ⟨hspan, c₁, c₂, hl, hoperator, hr⟩ := (hlevels hbinds).1 h
    exact ⟨hspan, c₁, c₂, comparand_eq_ok_iff.2 ⟨hl, hlhs⟩, hoperator,
      comparand_eq_ok_iff.2 ⟨hr, hrhs⟩⟩
  · rintro ⟨hspan, c₁, c₂, hl, hoperator, hr⟩
    obtain ⟨hl, hlhs⟩ := comparand_eq_ok_iff.1 hl
    obtain ⟨hr, hrhs⟩ := comparand_eq_ok_iff.1 hr
    exact ⟨(hlevels (hoperand c lhs c₁ hl)).2 ⟨hspan, c₁, c₂, hl, hoperator, hr⟩, hlhs, hrhs⟩

/-- What looks at the kind of the token at the cursor goes on with what it finds. -/
lemma peekKind_bind_eq_ok {α : Type} {f : Kind → Parser α} {a : α}
    (h : (peekKind >>= f) c = .ok a c') : ∃ p, f c.peek.kind = p ∧ p c = .ok a c' :=
  ⟨_, rfl, h⟩

/-- An operator is found where its token stands, split if it can be.

**Proof sketch.** The look for an operator splits the token and then asks for its kind: it is an
operator of the level, which is read, or none is found. -/
lemma binaryOperator?_eq_some_iff {op : BinaryOp} (hop : op.level = level) :
    binaryOperator? level c = .ok (some op) c'
      ↔ c.splitInfix.peek.kind.binaryOp? = some op ∧ c.splitInfix.advance = c' := by
  constructor
  · intro h
    obtain ⟨_, c₁, hsplit, h⟩ := bind_eq_ok.1 h
    obtain ⟨-, rfl⟩ := EStateM.Result.ok.inj hsplit
    obtain ⟨p, hp, h⟩ := peekKind_bind_eq_ok h
    split at hp
    · subst hp
      cases h
    · rename_i op' hkind
      split at hp
      · subst hp
        obtain ⟨t, c₂, hadvance, h⟩ := bind_eq_ok.1 h
        obtain ⟨-, rfl⟩ := EStateM.Result.ok.inj hadvance
        obtain ⟨hsome, rfl⟩ := EStateM.Result.ok.inj h
        exact ⟨hkind.trans hsome, rfl⟩
      · subst hp
        cases h
  · rintro ⟨hkind, rfl⟩
    refine bind_eq_ok.2 ⟨(), c.splitInfix, rfl, bind_eq_ok.2 ⟨_, c.splitInfix, rfl, ?_⟩⟩
    rw [hkind]
    dsimp only
    rw [if_pos hop]
    rfl

/-- Behind an operand, the look for a comparison finds the operator that the look for an operator
finds.

**Proof sketch.** Behind an operand of arithmetic both looks split the token at the cursor, and
each comparison has one token in both tables. -/
lemma compareOperator?_eq_some_iff {op : CompareOp} {op' : BinaryOp}
    (hop : op.binaryOp? = some op') (hc : c.Beyond Level.arithmetic) :
    compareOperator? c = .ok (some op) c' ↔ binaryOperator? .compare c = .ok (some op') c' := by
  rw [compareOperator?_eq hc, binaryOperator?_eq_some_iff (op.level_of_binaryOp? hop),
    ← Kind.compareOp?_eq_some_iff hop]
  constructor
  · intro h
    obtain ⟨p, hp, h⟩ := peekKind_bind_eq_ok h
    split at hp
    · subst hp
      obtain ⟨t, c₂, -, h⟩ := bind_eq_ok.1 h
      obtain ⟨b, c₃, -, h⟩ := bind_eq_ok.1 h
      cases b
      all_goals
        obtain ⟨hsome, -⟩ := EStateM.Result.ok.inj h
        obtain rfl := Option.some.inj hsome
        cases hop
    · split at hp
      · subst hp
        cases h
      · rename_i op'' hkind
        subst hp
        obtain ⟨t, c₂, hadvance, h⟩ := bind_eq_ok.1 h
        obtain ⟨-, rfl⟩ := EStateM.Result.ok.inj hadvance
        obtain ⟨hsome, rfl⟩ := EStateM.Result.ok.inj h
        exact ⟨hkind.trans hsome, rfl⟩
  · rintro ⟨hkind, rfl⟩
    refine bind_eq_ok.2 ⟨_, c.splitInfix, rfl, ?_⟩
    have hfound : (do let _ ← advance; return some op : Parser (Option CompareOp)) c.splitInfix
        = .ok (some op) c.splitInfix.advance := rfl
    refine Eq.trans (congrFun ?_ c.splitInfix) hfound
    split
    · rename_i his
      rw [his] at hkind
      cases hkind
    · rw [hkind]

/-- The reader of comparisons reads a comparison from its operands and the operator between
them.

**Proof sketch.** The reader of comparisons reads an operand, an operator and an operand, one
after the other. -/
lemma comparison_eq_compare_iff {op : CompareOp} {op' : BinaryOp}
    (hop : op.binaryOp? = some op') :
    comparison c = .ok (.compare op lhs rhs span) c' ↔ Compares op' lhs rhs span c c' := by
  constructor
  · intro h
    obtain ⟨lhs', c₁, hl, h⟩ := bind_eq_ok.1 h
    obtain ⟨o, c₂, hoperator, h⟩ := bind_eq_ok.1 h
    rcases o with _ | op
    · cases lhs' <;> cases h
    · obtain ⟨rhs', c₃, hr, h⟩ := bind_eq_ok.1 h
      obtain ⟨heq, rfl⟩ := EStateM.Result.ok.inj h
      obtain ⟨rfl, rfl, rfl, rfl⟩ := Predicate.compare.inj heq
      obtain ⟨ts, -, hchained⟩ := (comparand_ensures c).ok _ c₁ hl
      exact ⟨rfl, c₁, c₂, hl, (compareOperator?_eq_some_iff hop hchained.beyond).1 hoperator, hr⟩
  · rintro ⟨rfl, c₁, c₂, hl, hoperator, hr⟩
    obtain ⟨ts, -, hchained⟩ := (comparand_ensures c).ok _ c₁ hl
    have hcompare := (compareOperator?_eq_some_iff hop hchained.beyond).2 hoperator
    exact bind_eq_ok.2 ⟨lhs, c₁, hl, bind_eq_ok.2 ⟨some op, c₂, hcompare,
      bind_eq_ok.2 ⟨rhs, c', hr, rfl⟩⟩⟩

/-- An atom is a comparison if it is one for the reader of comparisons: this comes first at a
parenthesis, and it refuses the mention of a tine.

**Proof sketch.** At a tine both sides read no comparison.  At a parenthesis a comparison comes
first, and where it is refused a group is read, which is no comparison.  Anywhere else an atom is a
comparison. -/
lemma predicateAtom_eq_compare_iff (inner : Parser Predicate) {op : CompareOp} :
    predicateAtom inner c = .ok (.compare op lhs rhs span) c'
      ↔ comparison c = .ok (.compare op lhs rhs span) c' := by
  by_cases htine : c.peek.kind = .tineRef
  · have hrefused : comparison c
        = .error (.unexpected ["expression"] c.peek.found c.peek.span) c :=
      bind_of_error (binary_of_error (operand_refused .comparison expression (.inr htine))
        Level.arithmetic)
    rw [hrefused, predicateAtom, bind_of_ok (p := peekKind) rfl, htine]
    refine ⟨fun h => ?_, nofun⟩
    obtain ⟨tine, c₁, -, h⟩ := bind_eq_ok.1 h
    cases h
  by_cases hparen : c.peek.kind = .symbol .lParen
  · have hatom : predicateAtom inner c = orElseHere comparison (group inner) c := by
      rw [predicateAtom, bind_of_ok (p := peekKind) rfl, hparen]
    rw [hatom, orElseHere]
    rcases comparison c with ⟨p, c₁⟩ | ⟨fault, c₁⟩
    · exact Iff.rfl
    · refine ⟨fun h => ?_, nofun⟩
      dsimp only at h
      rcases hgroup : group inner (c₁.seek c.position) with ⟨p, c₂⟩ | ⟨other, c₂⟩
      · rw [hgroup] at h
        obtain ⟨start, c₃, -, hgroup⟩ := bind_eq_ok.1 hgroup
        obtain ⟨predicate, c₄, -, hgroup⟩ := bind_eq_ok.1 hgroup
        obtain ⟨close, c₅, -, hgroup⟩ := bind_eq_ok.1 hgroup
        obtain ⟨rfl, -⟩ := EStateM.Result.ok.inj hgroup
        cases h
      · rw [hgroup] at h
        cases h
  · rw [predicateAtom_eq_comparison inner htine hparen]

/-- A look for "or" that finds none stays where it is. -/
lemma eq_of_orOperator? (h : orOperator? c = .ok none c') : c = c' := by
  obtain ⟨p, hp, h⟩ := peekKind_bind_eq_ok h
  split at hp
  all_goals
    subst hp
    first | exact (EStateM.Result.ok.inj h).2 | cases h

/-- A look for "and" that finds none stays where it is. -/
lemma eq_of_andOperator? (h : andOperator? c = .ok none c') : c = c' := by
  obtain ⟨p, hp, h⟩ := peekKind_bind_eq_ok h
  split at hp
  all_goals
    subst hp
    first | exact (EStateM.Result.ok.inj h).2 | cases h

/-- Where no negation stands, a predicate that ends the input is a comparison if it is one for the
reader of comparisons: no operator of logic makes a comparison.

**Proof sketch.** Behind the comparison the input ends, so that no operator of logic follows on any
layer, and no negation stands in front of it.  Where a predicate is a comparison its layers have one
member each. -/
lemma predicate_eq_compare_iff {op : CompareOp} (hc : NoNegation c) (hc' : c'.peek.kind = .eof) :
    predicate c = .ok (.compare op lhs rhs span) c'
      ↔ comparison c = .ok (.compare op lhs rhs span) c' := by
  rcases hn : c.remaining with _ | n
  · have heof := Cursor.peek_kind_of_ahead_nil (Cursor.ahead_eq_nil_of_remaining hn)
    have hcomparison : comparison c
        = .error (.unexpected ["expression"] c.peek.found c.peek.span) c :=
      bind_of_error (binary_of_error (operand_refused .comparison expression (.inl heof))
        Level.arithmetic)
    rw [predicate, hn, hcomparison]
    exact ⟨nofun, nofun⟩
  · have hor : orOperator? c' = .ok none c' := by
      rw [orOperator?, bind_of_ok (p := peekKind) rfl, hc']
      rfl
    have hand : andOperator? c' = .ok none c' := by
      rw [andOperator?, bind_of_ok (p := peekKind) rfl, hc']
      rfl
    have hnot : many notOperator? c = .ok [] c := by
      refine bind_eq_ok.2 ⟨none, c, ?_, rfl⟩
      rw [notOperator?, bind_of_ok (p := peekKind) rfl]
      refine congrFun (?_ : _ = pure none) c
      split
      · exact absurd (by simp [*]) hc
      · exact absurd (by simp [*]) hc
      · rfl
    rw [predicate, hn, predicateUpTo, predicateWith,
      leftAssoc_eq_operand_iff (by simp [applyOr]) hor fun _ => eq_of_orOperator?, conjunction,
      leftAssoc_eq_operand_iff (by simp [applyAnd]) hand fun _ => eq_of_andOperator?, negation,
      prefixed, bind_of_ok hnot, ← predicateAtom_eq_compare_iff (predicateUpTo n)]
    constructor
    · intro h
      obtain ⟨p, c₁, hatom, h⟩ := bind_eq_ok.1 h
      obtain ⟨rfl, rfl⟩ := EStateM.Result.ok.inj h
      exact hatom
    · exact fun h => bind_eq_ok.2 ⟨_, c', h, rfl⟩

end Comparisons

end Parser

/-- The cursor at the first token of a list stands at that token. -/
lemma Cursor.peek_kind_ofTokens (tokens : List Token) :
    (Cursor.ofTokens tokens).peek.kind = Spelling.headKind tokens := by
  rcases List.eq_nil_or_concat' tokens with rfl | ⟨front, last, rfl⟩
  · rfl
  · by_cases hlast : last.kind = .eof
    · rw [Cursor.ofTokens_append hlast]
      cases front <;> rfl
    · have hahead : (Cursor.ofTokens (front ++ [last])).ahead = front ++ [last] := by
        simp [Cursor.ofTokens, hlast]
      rw [Cursor.peek_kind, hahead]

/-- **Comparisons of expressions and of predicates.**  A text that does not begin with a sign or a
word for "not" is read as a comparison of two operands by the reader of predicates just if the
reader of expressions reads the operator of that comparison with the same operands, at the same
places, and these have no operator but those of arithmetic on their spines, and neither a lambda nor
a let-in.

**Proof sketch.** The predicate is a comparison for the reader of comparisons, which reads an
operand, an operator and an operand; the expression is the operator between two chains of the
tighter levels.  The operands are the same but for lambdas and let-ins on the spine, and the two
looks for the operator agree. -/
theorem parsePredicate_eq_compare_iff {source : String}
    (hfirst : ∀ tokens, tokenize source = .ok tokens →
      Spelling.headKind tokens ≠ .symbol .bang ∧ Spelling.headKind tokens ≠ .keyword .not)
    {op : CompareOp} {op' : BinaryOp} (hop : op.binaryOp? = some op') (lhs rhs : Expression)
    (span : Span) :
    parsePredicate source = .ok (.compare op lhs rhs span) ↔
      parseExpression source = .ok (.binary op' lhs rhs span)
        ∧ lhs.OnSpine (Admitted .comparison Level.arithmetic)
        ∧ rhs.OnSpine (Admitted .comparison Level.arithmetic) := by
  have hreaders : ∀ tokens c', tokenize source = .ok tokens → c'.peek.kind = .eof →
      (Parser.predicate (.ofTokens tokens) = .ok (.compare op lhs rhs span) c' ↔
        Parser.expression (.ofTokens tokens) = .ok (.binary op' lhs rhs span) c'
          ∧ lhs.OnSpine (Admitted .comparison Level.arithmetic)
          ∧ rhs.OnSpine (Admitted .comparison Level.arithmetic)) := by
    intro tokens c' htokens hend
    have hnone : Parser.NoNegation (.ofTokens tokens) := by
      obtain ⟨hbang, hnot⟩ := hfirst tokens htokens
      simp [Parser.NoNegation, Cursor.peek_kind_ofTokens, hbang, hnot]
    rw [Parser.predicate_eq_compare_iff hnone hend, Parser.comparison_eq_compare_iff hop,
      Parser.expression_eq_binary_iff (op.level_of_binaryOp? hop) hend]
  simp only [parsePredicate, parseExpression, parseWith_eq_ok_iff, Parser.wholeInput_eq_ok_iff]
  constructor
  · rintro ⟨tokens, htokens, c', hread, hend⟩
    obtain ⟨hread, hspines⟩ := (hreaders tokens c' htokens hend).1 hread
    exact ⟨⟨tokens, htokens, c', hread, hend⟩, hspines⟩
  · rintro ⟨⟨tokens, htokens, c', hread, hend⟩, hspines⟩
    exact ⟨tokens, htokens, c', (hreaders tokens c' htokens hend).2 ⟨hread, hspines⟩, hend⟩

/-- An operand in parentheses stands before an arrow, which is an operator and the sign of the other
operand. -/
theorem parsePredicate_eq_compare_iff_arrow :
    parsePredicate "(a)<-b" = .ok (.compare .less
      (.paren (.ident "a" ⟨1, 2, 1, 2⟩) ⟨1, 1, 0, 3⟩)
      (.unary .neg (.ident "b" ⟨1, 6, 5, 6⟩) ⟨1, 5, 4, 6⟩) ⟨1, 1, 0, 6⟩) := by
  have hread : tokenize "(a)<-b" = .ok [⟨.symbol .lParen, "(", ⟨1, 1, 0, 1⟩⟩,
      ⟨.ident, "a", ⟨1, 2, 1, 2⟩⟩, ⟨.symbol .rParen, ")", ⟨1, 3, 2, 3⟩⟩,
      ⟨.symbol .leftArrow, "<-", ⟨1, 4, 3, 5⟩⟩, ⟨.ident, "b", ⟨1, 6, 5, 6⟩⟩,
      ⟨.eof, "", ⟨1, 7, 6, 6⟩⟩] := rfl
  have hfirst : ∀ tokens, tokenize "(a)<-b" = .ok tokens →
      Spelling.headKind tokens ≠ .symbol .bang ∧ Spelling.headKind tokens ≠ .keyword .not := by
    intro tokens htokens
    obtain rfl := Except.ok.inj (hread.symm.trans htokens)
    simp
  exact (parsePredicate_eq_compare_iff hfirst rfl _ _ _).2
    ⟨parseWith_eq_ok_iff.2 ⟨_, hread, _, rfl⟩, trivial, trivial, trivial⟩

end RakeLang
