import RakeLang.Proofs.Canonical.Expression
import RakeLang.Proofs.Reading.Parameter
import RakeLang.Proofs.Settling.Repetition

/-!
# Types, scalar literals and parameters in step

Nothing is split in a type, in a scalar literal or among parameters.  They are read in two
surroundings, among the parameters of a lambda and outside of expressions, and scalar literals as
operands too.

## Main definitions

* `RakeLang.Mode.around` — the mode among the parameters of a lambda, or outside of expressions.
* `RakeLang.Mode.Angles` — the modes before, inside and behind a scalar literal.

## Main results

* `RakeLang.Parser.dataType_simulates`, `RakeLang.Parser.scalarLiteral_simulates`,
  `RakeLang.Parser.parameters_simulates` — they are read in step.
-/

set_option relaxedAutoImplicit false
set_option autoImplicit false

namespace RakeLang

open Token Spelling

/-! ## Modes -/

/-- Is this the kind of a token that changes nothing among parameters? -/
def Kind.isQuiet : Kind → Bool
  | .ident | .int | .float | .symbol .comma | .symbol .colon | .symbol .dot | .symbol .less
  | .symbol .leftArrow | .symbol .greater | .symbol .minus => true
  | _ => false

namespace Mode

/-- The mode among the parameters of a lambda that stands inside of `outer` parentheses, or the
closed mode if there is no such lambda. -/
def around (outer : Option Nat) (nest : Nat) (named : Bool) : Mode :=
  match outer with
  | none => closed
  | some depth => params depth nest named

variable {outer : Option Nat} {nest : Nat} {named : Bool} {kind : Kind}

/-- Around types no split is looked for. -/
@[simp] lemma isBehind_around : (around outer nest named).isBehind = false := by
  cases outer <;> rfl

/-- An opening parenthesis leads one deeper. -/
@[simp] lemma step_around_lParen :
    (around outer nest named).step (.symbol .lParen) = around outer (nest + 1) false := by
  cases outer <;> rfl

/-- A closing parenthesis leads out again. -/
@[simp] lemma step_around_rParen :
    (around outer (nest + 1) named).step (.symbol .rParen) = around outer nest false := by
  cases outer <;> rfl

/-- Inside of parentheses an arrow belongs to a type. -/
@[simp] lemma step_around_arrow :
    (around outer (nest + 1) named).step (.symbol .arrow) = around outer (nest + 1) false := by
  cases outer <;> rfl

/-- The name of a record leads nowhere else. -/
@[simp] lemma step_around_typeIdent :
    (around outer nest false).step .typeIdent = around outer nest false := by
  cases outer <;> rfl

/-- The word `stack` may end a type. -/
@[simp] lemma step_around_stack :
    (around outer nest named).step (.keyword .stack) = around outer nest true := by
  cases outer <;> rfl

/-- The word `single` may end a type. -/
@[simp] lemma step_around_single :
    (around outer nest named).step (.keyword .single) = around outer nest true := by
  cases outer <;> rfl

/-- A quiet token leads nowhere else. -/
lemma step_around_of_isQuiet (h : kind.isQuiet = true) :
    (around outer nest named).step kind = around outer nest false := by
  cases outer
  · rfl
  · unfold Kind.isQuiet at h
    split at h <;> first | rfl | cases h

/-- The mode `inside` holds between the angles of a scalar literal that is read in the mode
`before`, and the mode `after` behind them. -/
structure Angles (before inside after : Mode) : Prop where
  isBehind_before : before.isBehind = false
  isBehind_inside : inside.isBehind = false
  less : before.step (.symbol .less) = inside
  arrow : before.step (.symbol .leftArrow) = inside
  minus : inside.step (.symbol .minus) = inside
  ident : inside.step .ident = inside
  dot : inside.step (.symbol .dot) = inside
  int : inside.step .int = inside
  float : inside.step .float = inside
  greater : inside.step (.symbol .greater) = after

/-- The modes of a scalar literal as an operand. -/
lemma angles_operand (depth : Nat) :
    Angles (operand depth) (scalar depth) (behind depth) := by
  constructor <;> rfl

/-- The modes of a scalar literal as a parameter. -/
lemma angles_around (outer : Option Nat) (nest : Nat) (named : Bool) :
    Angles (around outer nest named) (around outer nest false) (around outer nest false) := by
  constructor
  all_goals first
    | exact isBehind_around
    | exact step_around_of_isQuiet rfl

end Mode

/-- A place has a token. -/
lemma Spelling.ne_nil_of_covering {span : Span} {L : Language Token} {ts : List Token}
    (h : ts ∈ covering span L) : ts ≠ [] := by
  rintro rfl
  exact (h.2 ⟨by simp, .nil⟩).ne_nil rfl

/-- A type is spelled by at least one token. -/
lemma DataType.ne_nil_of_placed (t : DataType) {ts : List Token} (h : ts ∈ t.placed) :
    ts ≠ [] := by
  rintro rfl
  exact (t.covers_of_placed h ⟨by simp, .nil⟩).ne_nil rfl

namespace Parser

variable {S : Simulation} {σ τ ρ : Mode} {c d : Cursor} {outer : Option Nat} {nest : Nat}
  {named : Bool}

/-! ## Types -/

section DataType

/-- What a type leads to: the types on both sides are alike, and the mode is as before but for the
word that ends the name. -/
def TypeInStep (S : Simulation) (outer : Option Nat) (nest : Nat) (t t' : DataType) (τ : Mode) :
    Prop :=
  Alike S.exact DataType.withoutSpans t t' ∧ ∃ named, τ = .around outer nest named

/-- Types with a name are read in step.

**Proof sketch.** The word is the same on both sides, and so is the question whether the word `rack`
stands behind it. -/
lemma namedType_simulates (h : S.Rel (.around outer nest named) c d)
    (hc : c.peek.kind = .ident) (hsame : S.Same c d) :
    Simulates S namedType namedType c d (TypeInStep S outer nest) := by
  have hstep : (Mode.around outer nest named).step c.peek.kind = .around outer nest false := by
    rw [hc]
    exact Mode.step_around_of_isQuiet rfl
  have hkeeps : (Mode.around outer nest named).keeps c.peek.kind = true := by simp [Mode.keeps]
  have hne : c.peek.kind ≠ .eof := by simp [hc]
  unfold namedType
  refine .peek_bind ?_
  rw [← hsame.lexeme]
  split
  · refine .advance_bind h hsame hne hkeeps fun hrel => .pure hrel ⟨⟨?_, fun he => ?_⟩, ?_⟩
    · simp [DataType.withoutSpans]
    · rw [hsame.span he]
    · exact ⟨false, hstep⟩
  split
  · exact .unexpected h
  · refine .advance_bind h hsame hne hkeeps fun hrel => ?_
    rw [hstep] at hrel
    refine .checkWord_cases hrel (fun hword hsame' => ?_) (fun hword => ?_) ?_
    · refine .advance_bind hrel hsame' (by simp [hword]) (by simp [Mode.keeps]) fun hrel' => ?_
      refine .spanFrom_bind hrel' hsame.span fun s s' hs => .pure hrel' ⟨⟨?_, fun he => ?_⟩, ?_⟩
      · simp [DataType.withoutSpans]
      · rw [hs he]
      · exact ⟨false, by rw [hword]; exact Mode.step_around_of_isQuiet rfl⟩
    · exact (strict_advance (by simp [hword])).bind
    · refine .pure hrel ⟨⟨?_, fun he => by rw [hsame.span he]⟩, false, rfl⟩
      simp [DataType.withoutSpans]

/-- Types of records are read in step.

**Proof sketch.** Behind the name both sides ask for the same three words one after the other; none
of them is made by a split. -/
lemma recordType_simulates (h : S.Rel (.around outer nest false) c d) :
    Simulates S recordType recordType c d (TypeInStep S outer nest) := by
  unfold recordType
  refine .expect_bind h (by simp) (Mode.clear_of_inSplit _ rfl) fun _ hsame hrel => ?_
  rw [Mode.step_around_typeIdent] at hrel
  -- the three words that can follow the name
  refine .eat_bind hrel (by simp) (Mode.clear_of_inSplit _ rfl) (fun _ hrel => ?_) fun _ _ => ?_
  · rw [Mode.step_around_stack] at hrel
    refine .spanFrom_bind hrel hsame.span fun s s' hs => .pure hrel ⟨⟨?_, fun he => ?_⟩, true, rfl⟩
    · simp [DataType.withoutSpans, hsame.lexeme]
    · rw [hs he, hsame.lexeme]
  refine .eat_bind hrel (by simp) (Mode.clear_of_inSplit _ rfl) (fun _ hrel => ?_) fun _ _ => ?_
  · rw [Mode.step_around_single] at hrel
    refine .spanFrom_bind hrel hsame.span fun s s' hs => .pure hrel ⟨⟨?_, fun he => ?_⟩, true, rfl⟩
    · simp [DataType.withoutSpans, hsame.lexeme]
    · rw [hs he, hsame.lexeme]
  refine .checkWord_cases hrel (fun hword hsame' => ?_) (fun hword => ?_) (.unexpected hrel)
  · refine .advance_bind hrel hsame' (by simp [hword]) (by simp [Mode.keeps]) fun hrel' => ?_
    rw [hword, Mode.step_around_of_isQuiet rfl] at hrel'
    refine .spanFrom_bind hrel' hsame.span fun s s' hs =>
      .pure hrel' ⟨⟨?_, fun he => ?_⟩, false, rfl⟩
    · simp [DataType.withoutSpans, hsame.lexeme]
    · rw [hs he, hsame.lexeme]
  · exact (strict_advance (by simp [hword])).bind

/-- Lists of values that are alike are alike. -/
lemma Alike.of_forall₂ {α β : Type} {exact : Prop} {strip : α → β}
    {as bs : List α} (h : List.Forall₂ (Alike exact strip) as bs) :
    Alike exact (List.map strip) as bs := by
  induction h with
  | nil => exact ⟨rfl, fun _ => rfl⟩
  | cons hab _ ih =>
    exact ⟨by rw [List.map_cons, List.map_cons, hab.1, ih.1],
      fun he => by rw [hab.2 he, ih.2 he]⟩

/-- Tuples of types and types of functions are read in step.

**Proof sketch.** The opening parenthesis leads one deeper, where the types are read in step with
less ahead, and the closing one leads out.  Behind it both sides ask for an arrow, which makes a
type of functions. -/
lemma listedType_simulates {inner inner' : Parser DataType} {n m : Nat} [Lowers inner]
    [Lowers inner'] (hinner : ∀ nest c d, (S.under n m).Rel (.around outer (nest + 1) false) c d →
      Simulates (S.under n m) inner inner' c d (TypeInStep S outer (nest + 1)))
    (h : (S.under (n + 1) (m + 1)).Rel (.around outer (nest + 1) false) c d) :
    Simulates (S.under (n + 1) (m + 1)) (listedType inner) (listedType inner') c d
      (TypeInStep S outer (nest + 1)) := by
  unfold listedType
  refine .expect_bind_under h (by simp) (Mode.clear_of_inSplit _ rfl) fun _ hstart hrel => ?_
  rw [Mode.step_around_lParen] at hrel
  refine .listed (R := Alike S.exact DataType.withoutSpans)
    (M := (· = .around outer (nest + 2) false))
    (N := fun τ => ∃ named, τ = .around outer (nest + 2) named) hrel rfl ?_ ?_ rfl (by simp) ?_ ?_
  · rintro _ rfl
    exact Mode.isBehind_around
  · rintro _ ⟨named, rfl⟩
    exact Mode.step_around_of_isQuiet rfl
  · rintro _ c d rfl h
    exact hinner (nest + 1) c d h
  · intro items items' τ c₁ d₁ hitems hτ _ hrel
    have hstep : τ.step (.symbol .rParen) = .around outer (nest + 1) false := by
      rcases hτ with rfl | ⟨named, rfl⟩ <;> exact Mode.step_around_rParen
    rw [hstep] at hrel
    have hitems := Alike.of_forall₂ hitems
    refine .eat_bind hrel (by simp) (Mode.clear_of_inSplit _ rfl) (fun _ hrel => ?_) fun _ _ => ?_
    · rw [Mode.step_around_arrow] at hrel
      refine (hinner nest _ _ hrel).bind ?_
      rintro result result' ρ c₂ d₂ - - ⟨hresult, hρ⟩ hrel
      refine .spanFrom_bind hrel hstart.span fun s s' hs => .pure hrel ⟨⟨?_, fun he => ?_⟩, hρ⟩
      · simp [DataType.withoutSpans, hitems.1, hresult.1]
      · rw [hs he, hitems.2 he, hresult.2 he]
    · refine .spanFrom_bind hrel hstart.span fun s s' hs => .pure hrel ⟨?_, false, rfl⟩
      have hlength := congrArg List.length hitems.1
      rw [List.length_map, List.length_map] at hlength
      rcases items with _ | ⟨t, ts⟩ <;> rcases items' with _ | ⟨t', ts'⟩
      · exact ⟨by simp [DataType.withoutSpans], fun he => by rw [hs he]⟩
      · cases hlength
      · cases hlength
      · exact ⟨by simpa [DataType.withoutSpans] using hitems.1,
          fun he => by rw [hs he, hitems.2 he]⟩

/-- Types with bounds on what remains ahead.

**Proof sketch.** Induction on the bound of the left side.  Where nothing remains both sides refuse;
elsewhere the kind of the token at the cursor tells what is read, and the types in a list begin
behind a token. -/
lemma dataTypeUpTo_simulates (n : Nat) :
    ∀ (m nest : Nat) (c d : Cursor), (S.under n m).Rel (.around outer (nest + 1) false) c d →
      Simulates (S.under n m) (dataTypeUpTo n) (dataTypeUpTo m) c d
        (TypeInStep S outer (nest + 1)) := by
  have hlowers (n : Nat) : Lowers (dataTypeUpTo n) :=
    .of_ensures (R := Eq) (dataTypeUpTo_ensures n)
  have hstrict (n : Nat) (c : Cursor) : Strict (dataTypeUpTo n) c :=
    .of_ensures (R := Eq) (dataTypeUpTo_ensures n c) fun t _ _ ht => t.ne_nil_of_placed ht.1
  have hend (n : Nat) {c : Cursor} (hc : c.peek.kind = .eof) : ∃ fault,
      dataTypeUpTo n c = .error fault c := by
    rcases n with _ | n
    · exact ⟨_, rfl⟩
    · exact ⟨_, bind_eq_error.2 (.inr ⟨_, c, rfl, by rw [hc]; rfl⟩)⟩
  have hzero {c : Cursor} (hc : c.remaining ≤ 0) : c.peek.kind = .eof :=
    Cursor.peek_kind_of_ahead_nil (Cursor.ahead_eq_nil_of_remaining (Nat.le_zero.1 hc))
  induction n with
  | zero =>
    intro m nest c d h
    refine .of_strict_of_isBehind h Mode.isBehind_around (hstrict 0 c) fun hsame => ?_
    obtain ⟨fault, hd⟩ := hend m (hsame.kind.symm.trans (hzero h.2.1))
    exact .refused h rfl hd
  | succ n ih =>
    intro m nest c d h
    refine .of_strict_of_isBehind h Mode.isBehind_around (hstrict (n + 1) c) fun hsame => ?_
    rcases m with _ | m
    · obtain ⟨fault, hc⟩ := hend (n + 1) (hsame.kind.trans (hzero h.2.2))
      exact .refused h hc rfl
    · unfold dataTypeUpTo
      refine .peekKind_bind ?_
      rw [← hsame.kind]
      split
      · rename_i hc
        exact namedType_simulates h hc hsame
      · exact recordType_simulates h
      · exact listedType_simulates (ih m) h
      · exact .unexpected h

/-- Types are read in step. -/
theorem dataType_simulates (h : S.Rel (.around outer (nest + 1) false) c d) :
    Simulates S dataType dataType c d (TypeInStep S outer (nest + 1)) :=
  ((dataTypeUpTo_simulates _ _ nest c d h.under).of_under).congr rfl rfl

/-- A type takes from what is ahead. -/
instance : Lowers dataType := .of_ensures (R := Eq) dataType_ensures

end DataType

/-! ## Numbers -/

section Number

/-- A text is read as a number, or refused, without a token. -/
lemma lowers_readInt? (t : Token) : Lowers (match Numeral.readInt? t.lexeme with
    | some v => pure v
    | none => throw (.numeral t.lexeme t.span) : Parser Int) := by
  split <;> infer_instance

/-- The value of a float literal, or its refusal, moves no cursor. -/
lemma lowers_readFloat? (t : Token) : Lowers (match Numeral.readFloat? t.lexeme with
    | some v => pure v
    | none => throw (.numeral t.lexeme t.span) : Parser Float) := by
  split <;> infer_instance

/-- Integer literals are read in step. -/
lemma intLiteral_simulates (h : S.Rel σ c d) (hσ : σ.isBehind = false) :
    Simulates S intLiteral intLiteral c d fun v v' τ => v = v' ∧ τ = σ.step .int := by
  have hlowers := lowers_readInt?
  unfold intLiteral
  refine .expect_bind h (by simp) (Mode.clear_of_isBehind hσ _) fun _ hsame hrel => ?_
  rw [← hsame.lexeme]
  split
  · exact .pure hrel ⟨rfl, rfl⟩
  · exact .refused hrel rfl rfl

/-- Float literals are read in step. -/
lemma floatLiteral_simulates (h : S.Rel σ c d) (hσ : σ.isBehind = false) :
    Simulates S floatLiteral floatLiteral c d fun v v' τ => v = v' ∧ τ = σ.step .float := by
  have hlowers := lowers_readFloat?
  unfold floatLiteral
  refine .expect_bind h (by simp) (Mode.clear_of_isBehind hσ _) fun _ hsame hrel => ?_
  rw [← hsame.lexeme]
  split
  · exact .pure hrel ⟨rfl, rfl⟩
  · exact .refused hrel rfl rfl

/-- An integer literal takes from what is ahead. -/
instance : Lowers intLiteral := .of_ensures (R := Eq) intLiteral_ensures

/-- A number behind a minus sign takes from what is ahead. -/
instance : Lowers negatedNumber? := .of_ensures (R := Eq) negatedNumber?_ensures

/-- The opposite of a number takes nothing from what is ahead. -/
instance (n : Number) : Lowers (negated n) := .of_ensures (R := Eq) (negated_ensures n)

/-- What the look for a number leads to: the same number, and the mode behind it, which does not
depend on its kind. -/
def NumberInStep (σ τ : Mode) (o o' : Option Number) (ρ : Mode) : Prop :=
  o = o' ∧ (o = none → ρ = σ) ∧ (o ≠ none → ρ = τ)

/-- Numbers are read in step, and so are the places where there is none.

**Proof sketch.** At the same token both sides read the same number.  Tokens differ only where a
split is looked for, which is not so here; and at the end of the right side the left side must leave
its tokens unread. -/
lemma number?_simulates (h : S.Rel σ c d) (hσ : σ.isBehind = false) (hint : σ.step .int = τ)
    (hfloat : σ.step .float = τ) :
    Simulates S number? number? c d (NumberInStep σ τ) := by
  unfold number?
  refine .peekKind_bind ?_
  rcases S.cases h with hsame | hapart | hended
  · rw [← hsame.kind]
    split
    · refine (intLiteral_simulates h hσ).bind ?_
      rintro v _ _ c₁ d₁ - - ⟨rfl, rfl⟩ hrel
      exact .pure hrel ⟨rfl, by simp, fun _ => hint⟩
    · refine (floatLiteral_simulates h hσ).bind ?_
      rintro v _ _ c₁ d₁ - - ⟨rfl, rfl⟩ hrel
      exact .pure hrel ⟨rfl, by simp, fun _ => hfloat⟩
    · exact .pure h ⟨rfl, fun _ => rfl, by simp⟩
  · rw [hapart.1] at hσ
    cases hσ
  · rw [hended.kind]
    split
    · refine .ended hended (Strict.bind ?_)
      exact .of_ensures (R := Eq) (intLiteral_ensures c) fun _ _ _ h => by simp [h.1]
    · refine .ended hended (Strict.bind ?_)
      exact .of_ensures (R := Eq) (floatLiteral_ensures c) fun _ _ _ h => by simp [h.1]
    · exact .pure h ⟨rfl, fun _ => rfl, by simp⟩

/-- Numbers behind a minus sign are read in step.

**Proof sketch.** The number is read in step.  Negating it consumes nothing, and its outcome depends
on the number alone, which is the same on both sides. -/
lemma negatedNumber?_simulates (h : S.Rel σ c d) (hσ : σ.isBehind = false)
    (hint : σ.step .int = τ) (hfloat : σ.step .float = τ) :
    Simulates S negatedNumber? negatedNumber? c d (NumberInStep σ τ) := by
  unfold negatedNumber?
  refine .bind_of_lowers (fun o => by cases o <;> infer_instance)
    (number?_simulates h hσ hint hfloat) ?_
  rintro o _ ρ c₁ d₁ - - ⟨rfl, hnone, hsome⟩ hrel
  rcases o with _ | n
  · exact .pure hrel ⟨rfl, hnone, by simp⟩
  · have hneg : Simulates S (negated n) (negated n) c₁ d₁ fun v v' τ => v = v' ∧ τ = ρ := by
      rcases hn : n.negate? with _ | v
      · have hrun (e : Cursor) : negated n e
            = .error (.numeral ("-" ++ n.render) e.previousSpan) e := by
          simp [negated, hn]
        exact .refused hrel (hrun c₁) (hrun d₁)
      · have hrun (e : Cursor) : negated n e = .ok v e := by simp [negated, hn]
        exact (Simulates.pure (a := v) (b := v) hrel ⟨rfl, rfl⟩).congr (hrun c₁) (hrun d₁)
    refine hneg.bind ?_
    rintro v _ _ c₂ d₂ - - ⟨rfl, rfl⟩ hrel
    exact .pure hrel ⟨rfl, by simp, fun _ => hsome (by simp)⟩

end Number

/-! ## Scalar literals -/

section Scalar

variable {before inside after : Mode}

/-- Every field on the path of a scalar takes a token. -/
instance : Rounds pathField where
  le := (Lowers.of_ensures (R := Eq) pathField_ensures).le
  some_lt c field b h := by
    obtain ⟨ts, hread, hts, -⟩ := (pathField_ensures (R := Eq) c).ok (some field) b h
    refine hread.remaining_lt ?_
    rintro rfl
    exact nil_notMem_token_mul hts
  at_end c hc := by
    have hkind := Cursor.peek_kind_of_ahead_nil hc
    refine bind_eq_ok.2 ⟨_, c, rfl, bind_eq_ok.2 ⟨_, c, rfl, ?_⟩⟩
    rw [hkind]
    rfl

/-- Fields on the path of a scalar are read in step.

**Proof sketch.** At a dot both sides look at the token behind it, which has to be a name; without a
dot there is no field. -/
lemma pathField_simulates (hangles : Mode.Angles before inside after) (h : S.Rel inside c d) :
    Simulates S pathField pathField c d fun o o' τ => Option.Rel Eq o o' ∧ τ = inside := by
  have hkeeps (kind : Kind) : inside.keeps kind = true := by
    simp [Mode.keeps, hangles.isBehind_inside]
  rcases S.cases h with hsame | hapart | hended
  · unfold pathField
    refine .check_bind ?_
    rw [← hsame.kind]
    by_cases hc : c.peek.kind = .symbol .dot
    · have hrel := S.advance h hsame (by simp [hc]) (hkeeps _)
      rw [hc, hangles.dot] at hrel
      rw [beq_iff_eq.2 hc]
      refine .checkAhead_cases h hsame (by simp [hc]) (hkeeps _) (by simp)
        (by rw [hc, hangles.dot]; exact Mode.clear_of_isBehind hangles.isBehind_inside _)
        (fun _ _ => ?_) (fun _ a b hp => ?_) fun _ _ => .pure h ⟨.none, rfl⟩
      · refine .advance_bind h hsame (by simp [hc]) (hkeeps _) fun _ => ?_
        refine .expect_bind hrel (by simp) (Mode.clear_of_inSplit _ rfl) fun _ hsame' hrel' => ?_
        rw [hangles.ident] at hrel'
        rw [hsame'.lexeme]
        exact .pure hrel' ⟨.some rfl, rfl⟩
      · exact (strict_expect (c := c.advance) (by simp)).bind a b hp
    · rw [beq_eq_false_iff_ne.2 hc]
      exact .checkAhead_bind (.pure h ⟨.none, rfl⟩)
  · have := hangles.isBehind_inside.symm.trans hapart.1
    cases this
  · exact .ended_round h hended (fun b => eq_of_answers (pathField_ensures c)) ⟨.none, rfl⟩

/-- The value of a scalar literal takes from what is ahead. -/
instance : Lowers scalarValue? := .of_ensures (R := Eq) scalarValue?_ensures

/-- A scalar literal takes from what is ahead. -/
instance : Lowers scalarLiteral := .of_ensures (R := Eq) scalarLiteral_ensures

/-- The values of scalar literals are read in step.

**Proof sketch.** By the token at the cursor, which is the same on both sides: a name with its
fields, a minus sign with a number, or a number. -/
lemma scalarValue?_simulates (hangles : Mode.Angles before inside after)
    (h : S.Rel inside c d) :
    Simulates S scalarValue? scalarValue? c d fun o o' τ => o = o' ∧ τ = inside := by
  have hkeeps (kind : Kind) : inside.keeps kind = true := by
    simp [Mode.keeps, hangles.isBehind_inside]
  have hnumber {σ τ : Mode} (hσ : σ = inside) (hτ : τ = inside) {o : Option Number} {ρ : Mode}
      (h : (o = none → ρ = σ) ∧ (o ≠ none → ρ = τ)) : ρ = inside := by
    rcases o with _ | n
    · exact (h.1 rfl).trans hσ
    · exact (h.2 (by simp)).trans hτ
  have hplain : Simulates S (number? >>= fun n => pure (n.map .number))
      (number? >>= fun n => pure (n.map .number)) c d
      fun (o o' : Option ScalarValue) τ => o = o' ∧ τ = inside := by
    refine (number?_simulates h hangles.isBehind_inside hangles.int hangles.float).bind ?_
    rintro o _ ρ c₁ d₁ - - ⟨rfl, hρ⟩ hrel
    exact .pure hrel ⟨rfl, hnumber rfl rfl hρ⟩
  unfold scalarValue?
  refine .peekKind_bind ?_
  rcases S.cases h with hsame | hapart | hended
  · rw [← hsame.kind]
    split
    · rename_i hc
      refine .advance_bind h hsame (by simp [hc]) (hkeeps _) fun hrel => ?_
      rw [hc, hangles.ident] at hrel
      have hfields := Simulates.many (R := Eq) (M := (· = inside))
        (fun σ _ _ hσ h => pathField_simulates hangles (by rwa [hσ] at h)) hrel rfl
      refine hfields.bind ?_
      rintro fields fields' τ c₁ d₁ - - ⟨hfields, hτ⟩ hrel'
      rw [List.forall₂_eq_eq_eq] at hfields
      rw [hsame.lexeme, hfields]
      exact .pure hrel' ⟨rfl, hτ⟩
    · rename_i hc
      refine .advance_bind h hsame (by simp [hc]) (hkeeps _) fun hrel => ?_
      rw [hc, hangles.minus] at hrel
      refine (negatedNumber?_simulates hrel hangles.isBehind_inside hangles.int
        hangles.float).bind ?_
      rintro o _ ρ c₁ d₁ - - ⟨rfl, hρ⟩ hrel'
      exact .pure hrel' ⟨rfl, hnumber rfl rfl hρ⟩
    · exact hplain
  · have := hangles.isBehind_inside.symm.trans hapart.1
    cases this
  · rw [hended.kind]
    split
    · rename_i hc
      exact .ended hended (strict_advance (by simp [hc])).bind
    · rename_i hc
      exact .ended hended (strict_advance (by simp [hc])).bind
    · exact hplain

/-- Scalar literals up to their values are read in step.

**Proof sketch.** A less-than sign leads to the value, an arrow to a number behind its minus sign,
and anything else opens no literal. -/
lemma openedScalar?_simulates (hangles : Mode.Angles before inside after)
    (h : S.Rel before c d) :
    Simulates S openedScalar? openedScalar? c d fun o o' τ =>
      o = o' ∧ (o ≠ none → τ = inside) := by
  have hkeeps (kind : Kind) : before.keeps kind = true := by
    simp [Mode.keeps, hangles.isBehind_before]
  unfold openedScalar?
  refine .peekKind_bind ?_
  rcases S.cases h with hsame | hapart | hended
  · rw [← hsame.kind]
    split
    · rename_i hc
      refine .advance_bind h hsame (by simp [hc]) (hkeeps _) fun hrel => ?_
      rw [hc, hangles.less] at hrel
      exact (scalarValue?_simulates hangles hrel).imp fun _ _ _ ho => ⟨ho.1, fun _ => ho.2⟩
    · rename_i hc
      refine .advance_bind h hsame (by simp [hc]) (hkeeps _) fun hrel => ?_
      rw [hc, hangles.arrow] at hrel
      refine (negatedNumber?_simulates hrel hangles.isBehind_inside hangles.int
        hangles.float).bind ?_
      rintro o _ ρ c₁ d₁ - - ⟨rfl, hρ⟩ hrel'
      refine .pure hrel' ⟨rfl, fun hne => hρ.2 ?_⟩
      rintro rfl
      exact hne rfl
    · exact .pure h ⟨rfl, fun hne => absurd rfl hne⟩
  · have := hangles.isBehind_before.symm.trans hapart.1
    cases this
  · rw [hended.kind]
    split
    · rename_i hc
      exact .ended hended (strict_advance (by simp [hc])).bind
    · rename_i hc
      exact .ended hended (strict_advance (by simp [hc])).bind
    · exact .pure h ⟨rfl, fun hne => absurd rfl hne⟩

/-- Trials of scalar literals are read in step.

**Proof sketch.** What opens the literal is read in step, and so is the closing angle, which no
split gives or takes away.  Without it both trials give nothing. -/
lemma scalarTrial_simulates (hangles : Mode.Angles before inside after)
    (h : S.Rel before c d) (hsame : S.Same c d) :
    Simulates S scalarTrial scalarTrial c d fun o o' τ =>
      Option.Rel (Alike S.exact ScalarLiteral.withoutSpans) o o' ∧ (o ≠ none → τ = after) := by
  unfold scalarTrial
  refine .peek_bind (.bind_of_lowers (fun o => by cases o <;> infer_instance)
    (openedScalar?_simulates hangles h) ?_)
  rintro o _ τ c₁ d₁ - - ⟨rfl, hτ⟩ hrel
  rcases o with _ | value
  · exact .pure hrel ⟨.none, fun hne => absurd rfl hne⟩
  · obtain rfl := hτ (by simp)
    refine .eat_bind hrel (by simp) (Mode.clear_of_inSplit _ rfl) (fun _ hrel => ?_)
      fun _ _ => .pure hrel ⟨.none, fun hne => absurd rfl hne⟩
    rw [hangles.greater] at hrel
    refine .spanFrom_bind hrel hsame.span fun s s' hs => .pure hrel ⟨.some ⟨rfl, fun he => ?_⟩,
      fun _ => rfl⟩
    rw [hs he]

/-- Scalar literals are read in step.  Where one is refused, the cursors stay.

**Proof sketch.** The trials are in step.  Where both find a literal, it is the answer; where both
find none, both cursors go back to where they began. -/
theorem scalarLiteral_simulates (hangles : Mode.Angles before inside after)
    (h : S.Rel before c d) :
    Simulates S scalarLiteral scalarLiteral c d fun l l' τ =>
      Alike S.exact ScalarLiteral.withoutSpans l l' ∧ τ = after := by
  have hstrict : Strict scalarLiteral c :=
    .of_ensures (R := Eq) (scalarLiteral_ensures c) fun _ _ _ h => ne_nil_of_covering h
  refine .of_strict_of_isBehind h hangles.isBehind_before hstrict fun hsame => ?_
  have htrial := scalarTrial_simulates hangles h hsame
  constructor
  · intro l c' hp hfloor
    rw [scalarLiteral_eq] at hp
    rcases hrun : scalarTrial c with ⟨_ | l', c₁⟩ | ⟨fault, c₁⟩
    · simp [hrun] at hp
    · simp only [hrun] at hp
      obtain ⟨rfl, rfl⟩ := EStateM.Result.ok.inj hp
      obtain ⟨o, d', τ, hd, ⟨ho, hτ⟩, hrel⟩ := htrial.ok _ _ hrun hfloor
      cases ho with
      | some hl => exact ⟨_, d', τ, by simp [scalarLiteral_eq, hd], ⟨hl, hτ (by simp)⟩, hrel⟩
    · simp [hrun] at hp
  · intro hzero fault c' hp
    rw [scalarLiteral_eq] at hp
    rcases hrun : scalarTrial c with ⟨_ | l', c₁⟩ | ⟨fault', c₁⟩
    · simp only [hrun] at hp
      obtain ⟨-, rfl⟩ := EStateM.Result.error.inj hp
      refine ⟨S.fails h, fun _ => ?_⟩
      obtain ⟨o, d', τ, hd, ⟨ho, -⟩, -⟩ := htrial.ok _ _ hrun (hzero ▸ Nat.zero_le _)
      cases ho
      exact ⟨.unclosedScalar d.peek.span, d, before, by simp [scalarLiteral_eq, hd], h⟩
    · simp [hrun] at hp
    · simp only [hrun] at hp
      obtain ⟨rfl, rfl⟩ := EStateM.Result.error.inj hp
      have herror := htrial.error hzero _ _ hrun
      refine ⟨herror.1, fun htotal => ?_⟩
      obtain ⟨other, d', τ, hd, hrel⟩ := herror.2 htotal
      exact ⟨other, d', τ, by simp [scalarLiteral_eq, hd], hrel⟩

end Scalar

/-! ## Parameters -/

section Parameter

/-- What a parameter leads to. -/
def ParameterInStep (S : Simulation) (outer : Option Nat) (p p' : Parameter) (τ : Mode) : Prop :=
  Alike S.exact Parameter.withoutSpans p p' ∧ τ = .around outer 0 false

/-- A scalar literal takes a token. -/
lemma strict_scalarLiteral (c : Cursor) : Strict scalarLiteral c :=
  .of_ensures (R := Eq) (scalarLiteral_ensures c) fun _ _ _ h => ne_nil_of_covering h

/-- A colon, a type and a closing parenthesis behind the name or the literal of a parameter.

**Proof sketch.** The colon is read in step, the type by `dataType_simulates`, and the
parenthesis in step again; each is read in the mode around a type, where nothing is split. -/
lemma ascription_simulates {f : DataType → Parser Parameter} {g : DataType → Parser Parameter}
    [∀ t, Lowers (f t)] {Q : Parameter → Parameter → Mode → Prop}
    (h : S.Rel (.around outer 1 false) c d)
    (hf : ∀ t t' c₁ d₁, Alike S.exact DataType.withoutSpans t t' →
      S.Rel (.around outer 0 false) c₁ d₁ → Simulates S (f t) (g t') c₁ d₁ Q) :
    Simulates S
      (do let _ ← expect (.symbol .colon); let t ← dataType; let _ ← expect (.symbol .rParen); f t)
      (do let _ ← expect (.symbol .colon); let t ← dataType; let _ ← expect (.symbol .rParen); g t)
      c d Q := by
  refine .expect_bind h (by simp) (Mode.clear_of_inSplit _ rfl) fun _ _ hrel => ?_
  rw [Mode.step_around_of_isQuiet rfl] at hrel
  refine (dataType_simulates hrel).bind ?_
  rintro t t' _ c₁ d₁ - - ⟨ht, named, rfl⟩ hrel
  refine .expect_bind hrel (by simp) (Mode.clear_of_inSplit _ rfl) fun _ _ hrel => ?_
  rw [Mode.step_around_rParen] at hrel
  exact hf t t' _ _ ht hrel

/-- What follows the parenthesis of a parameter is read from what is ahead.

**Proof sketch.** By cases on the kind: each branch is built from readers that never add to what
remains. -/
lemma lowers_typedParameterBehind (start : Token) (kind : Kind) : Lowers (match kind with
    | .ident => do
      let name ← advance
      let _ ← expect (.symbol .colon)
      let type ← dataType
      let _ ← expect (.symbol .rParen)
      let span ← spanFrom start.span
      return .rack name.lexeme (some type) span
    | .symbol .less | .symbol .leftArrow => do
      let literal ← scalarLiteral
      let _ ← expect (.symbol .colon)
      let type ← dataType
      let _ ← expect (.symbol .rParen)
      let span ← spanFrom start.span
      return .scalar literal (some type) span
    | _ => unexpected ["identifier", "scalar literal"] : Parser Parameter) := by
  split <;> infer_instance

/-- Parameters with a type are read in step.

**Proof sketch.** Behind the parenthesis both sides read a name or a scalar literal, then a colon, a
type and the closing parenthesis. -/
lemma typedParameter_simulates (h : S.Rel (.around outer 0 false) c d) :
    Simulates S typedParameter typedParameter c d (ParameterInStep S outer) := by
  have hlowers := lowers_typedParameterBehind
  unfold typedParameter
  refine .expect_bind h (by simp) (Mode.clear_of_inSplit _ rfl) fun _ hstart hrel => ?_
  rw [Mode.step_around_lParen] at hrel
  refine .peekKind_bind ?_
  rcases S.cases hrel with hsame | hapart | hended
  · rw [← hsame.kind]
    split
    case h_1 hc =>
      refine .advance_bind hrel hsame (by simp [hc]) (by simp [Mode.keeps]) fun hrel => ?_
      rw [hc, Mode.step_around_of_isQuiet rfl] at hrel
      refine ascription_simulates hrel fun t t' c₁ d₁ ht hrel => ?_
      refine .spanFrom_bind hrel hstart.span fun s s' hs => .pure hrel ⟨⟨?_, fun he => ?_⟩, rfl⟩
      · simp [Parameter.withoutSpans, hsame.lexeme, ht.1]
      · rw [hs he, hsame.lexeme, ht.2 he]
    case h_2 | h_3 =>
      refine (scalarLiteral_simulates (Mode.angles_around outer 1 false) hrel).bind ?_
      rintro l l' _ c₁ d₁ - - ⟨hl, rfl⟩ hrel
      refine ascription_simulates hrel fun t t' c₁ d₁ ht hrel => ?_
      refine .spanFrom_bind hrel hstart.span fun s s' hs => .pure hrel ⟨⟨?_, fun he => ?_⟩, rfl⟩
      · simp [Parameter.withoutSpans, hl.1, ht.1]
      · rw [hs he, hl.2 he, ht.2 he]
    case h_4 => exact .unexpected hrel
  · have := Mode.isBehind_around.symm.trans hapart.1
    cases this
  · refine .ended hended ?_
    split
    · rename_i hc
      exact (strict_advance (by simp [hc])).bind
    · exact (strict_scalarLiteral _).bind
    · exact (strict_scalarLiteral _).bind
    · intro a b hp
      cases hp

/-- Every parameter takes a token. -/
instance : Rounds parameter? where
  le := (Lowers.of_ensures (R := Eq) parameter?_ensures).le
  some_lt c p b h := by
    obtain ⟨ts, hread, hts, -⟩ := (parameter?_ensures (R := Eq) c).ok (some p) b h
    refine hread.remaining_lt ?_
    rintro rfl
    rcases p with ⟨_, _ | _, _⟩ | ⟨_, _ | _, _⟩ <;> exact ne_nil_of_covering hts rfl
  at_end c hc := by
    have hkind := Cursor.peek_kind_of_ahead_nil hc
    exact bind_eq_ok.2 ⟨_, c, rfl, by rw [hkind]; rfl⟩

/-- Parameters are read in step, and so are the places where there is none.

**Proof sketch.** The kind of the token at the cursor tells a rack, a literal, a parenthesis or
none; it is the same on both sides, or the right side is at its end and the left side must read
none. -/
lemma parameter?_simulates (h : S.Rel (.around outer 0 false) c d) :
    Simulates S parameter? parameter? c d fun o o' τ =>
      Option.Rel (Alike S.exact Parameter.withoutSpans) o o' ∧ τ = .around outer 0 false := by
  have hscalar : Simulates S (scalarLiteral >>= fun l => pure (some (.scalar l none l.span)))
      (scalarLiteral >>= fun l => pure (some (.scalar l none l.span))) c d
      fun (o o' : Option Parameter) τ =>
        Option.Rel (Alike S.exact Parameter.withoutSpans) o o' ∧ τ = .around outer 0 false := by
    refine (scalarLiteral_simulates (Mode.angles_around outer 0 false) h).bind ?_
    rintro l l' _ c₁ d₁ - - ⟨hl, rfl⟩ hrel
    refine .pure hrel ⟨.some ⟨?_, fun he => ?_⟩, rfl⟩
    · simp [Parameter.withoutSpans, hl.1]
    · rw [hl.2 he]
  rcases S.cases h with hsame | hapart | hended
  · unfold parameter?
    refine .peekKind_bind ?_
    rw [← hsame.kind]
    split
    · rename_i hc
      refine .advance_bind h hsame (by simp [hc]) (by simp [Mode.keeps]) fun hrel => ?_
      rw [hc, Mode.step_around_of_isQuiet rfl] at hrel
      refine .pure hrel ⟨.some ⟨?_, fun he => ?_⟩, rfl⟩
      · simp [Parameter.withoutSpans, hsame.lexeme]
      · rw [hsame.lexeme, hsame.span he]
    · exact hscalar
    · exact hscalar
    · refine (typedParameter_simulates h).bind ?_
      rintro p p' _ c₁ d₁ - - ⟨hp, rfl⟩ hrel
      exact .pure hrel ⟨.some hp, rfl⟩
    · exact .pure h ⟨.none, rfl⟩
  · have := Mode.isBehind_around.symm.trans hapart.1
    cases this
  · exact .ended_round h hended (fun b => eq_of_answers (parameter?_ensures c)) ⟨.none, rfl⟩

/-- Parameters are read in step. -/
theorem parameters_simulates (h : S.Rel (.around outer 0 false) c d) :
    Simulates S parameters parameters c d fun ps ps' τ =>
      List.Forall₂ (Alike S.exact Parameter.withoutSpans) ps ps' ∧ τ = .around outer 0 false :=
  .many (M := (· = .around outer 0 false)) (by rintro _ c d rfl h; exact parameter?_simulates h)
    h rfl

/-- Parameters take from what is ahead. -/
instance : Lowers parameters := inferInstanceAs (Lowers (many parameter?))

end Parameter

end Parser

end RakeLang
