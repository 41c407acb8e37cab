import RakeLang.Proofs.Rereading.Statement

/-!
# Reading the sections of a rake alongside the whole

The tines, the through blocks and the sweep of a rake are read from a slice as they are read from
the whole, and what stands inside of them is found in the whole.

## Main results

* `RakeLang.Parser.tineDecl_alongside`, `RakeLang.Parser.throughBlock_alongside`,
  `RakeLang.Parser.sweepBlock_alongside` — the sections.
* `RakeLang.Parser.whenAt_alongside` — a section, if the word or the sign for it stands at the
  cursor.  -/

set_option relaxedAutoImplicit false
set_option autoImplicit false

namespace RakeLang

open Token Spelling Node

namespace Parser

variable {α β γ δ : Type} {whole rest : List Token} {k : Nat} {c d : Cursor}

/-! ## Tines -/

/-- A predicate takes from what is ahead. -/
instance : Lowers predicate := .of_ensures predicate_places

/-- A tine takes from what is ahead. -/
instance : Lowers tineDecl := .of_ensures tineDecl_ensures

/-- References to tines are read alike. -/
lemma tineRef_alongside (h : (alongside whole rest k).Rel .closed c d) :
    Simulates (alongside whole rest k) tineRef tineRef c d fun r r' τ =>
      Matches whole TineRef.withoutSpans .tineRef r r' ∧ τ = .closed := by
  unfold tineRef
  refine expect_alongside h (by simp) fun _ hname hrel _ => .pure hrel ⟨⟨?_, ?_⟩, rfl⟩
  · simp [TineRef.withoutSpans, hname]
  · exact grounded_tineRef _

/-- Tines are read alike, and what stands inside of them is found in the whole. -/
theorem tineDecl_alongside (h : (alongside whole rest k).Rel .closed c d) :
    Simulates (alongside whole rest k) tineDecl tineDecl c d fun t t' τ =>
      Matches whole TineDecl.withoutSpans .tineDecl t t' ∧ τ = .closed := by
  unfold tineDecl
  refine expect_alongside h (by simp) fun _ _ hrel _ => ?_
  refine (tineRef_alongside hrel).bind ?_
  rintro tine tine' _ c₁ d₁ - - ⟨htine, rfl⟩ hrel
  refine expect_alongside hrel (by simp) fun _ _ hrel _ => ?_
  refine expect_alongside hrel (by simp) fun _ _ hrel hfresh => ?_
  refine inParens_alongside hrel (hfresh rfl) ?_
  intro guard guard' _ _ c₂ d₂ hguard hrel
  refine spanFrom_alongside hrel fun s s' => .pure hrel ⟨⟨?_, ?_⟩, rfl⟩
  · simp [TineDecl.withoutSpans, htine.1, hguard.1]
  · refine grounded_of_children trivial ?_
    simp [Node.children, htine.2, hguard.2]

/-! ## Through blocks -/

/-- The guard of a through block takes from what is ahead. -/
instance : Lowers throughGuard := .of_ensures throughGuard_ensures

/-- A constant takes from what is ahead. -/
instance : Lowers fallback := .of_ensures (R := Eq) fallback_ensures

/-- A fallback takes from what is ahead. -/
instance : Lowers fallback? := .of_ensures fallback?_ensures

/-- The body of a through block takes from what is ahead. -/
instance : Lowers throughBody := .of_ensures throughBody_ensures

/-- Guards of through blocks are read alike, and what stands inside of them is found in the whole.

**Proof sketch.** A guard takes a token, so that the same one stands on both sides: a reference to a
tine, or the parenthesis of a predicate. -/
lemma throughGuard_alongside (h : (alongside whole rest k).Rel .closed c d) :
    Simulates (alongside whole rest k) throughGuard throughGuard c d fun g g' τ =>
      Matches whole ThroughGuard.withoutSpans .throughGuard g g' ∧ τ = .closed := by
  have hstrict : Strict throughGuard c := .of_ensures (throughGuard_ensures c) fun g _ _ hg => by
    rcases g with r | p
    · exact ne_nil_of_covering hg.1
    · rintro rfl
      exact nil_notMem_token_mul hg.1
  refine .of_strict_of_isBehind h rfl hstrict fun hsame => ?_
  unfold throughGuard
  refine .peekKind_bind ?_
  rw [← hsame.kind]
  split
  · refine (tineRef_alongside h).bind ?_
    rintro r r' _ c₁ d₁ - - ⟨hr, rfl⟩ hrel
    exact .pure hrel ⟨⟨congrArg ThroughGuard.tine hr.1,
      grounded_of_children trivial (List.forall_mem_singleton.2 hr.2)⟩, rfl⟩
  · rename_i hc
    refine .advance_bind h hsame (by simp [hc]) rfl fun hrel => ?_
    have hfresh := Alongside.fresh_advance h (by simp [hc]) (by simp [hc, Kind.endsOperand])
    refine inParens_alongside hrel hfresh ?_
    intro guard guard' _ _ c₁ d₁ hguard hrel
    exact .pure hrel ⟨⟨congrArg ThroughGuard.predicate hguard.1,
      grounded_of_children trivial (List.forall_mem_singleton.2 hguard.2)⟩, rfl⟩
  · exact .unexpected h

/-- Nothing is split in a constant.

**Proof sketch.** A scalar literal is calm, and a number and a truth value are one token each,
which no split is looked for. -/
lemma grounded_fallback {f : Fallback} {before us after : List Token}
    (hwhole : whole = before ++ (us ++ after)) (hus : us ∈ f.toExpression.placed) :
    (Node.expression f.toExpression).Grounded whole := by
  have hword (t : Token) (h : (Mode.operand 0).step t.kind = .behind 0) :
      [t] ∈ Mode.calm (.operand 0) (.behind 0) := .cons rfl (h ▸ .nil _)
  rcases f with l | ⟨n, span⟩ | ⟨b, span⟩
  · rw [Fallback.toExpression, Expression.placed] at hus
    exact grounded_scalar hwhole hus
  · refine grounded_of_children (found_of_calm trivial (Fallback.canonical_toExpression _) hwhole
      hus (τ := .behind 0) ?_) (List.forall_mem_nil _)
    rw [Fallback.toExpression, Expression.placed] at hus
    obtain ⟨t, ht, rfl⟩ := hus.1
    refine hword t ?_
    rcases kind_of_number? ht with hkind | hkind <;> rw [hkind] <;> rfl
  · refine grounded_of_children (found_of_calm trivial (Fallback.canonical_toExpression _) hwhole
      hus (τ := .behind 0) ?_) (List.forall_mem_nil _)
    rw [Fallback.toExpression, Expression.placed] at hus
    cases b <;>
    · obtain ⟨t, ht, rfl⟩ := hus.1
      exact hword t (by rw [ht]; rfl)

/-- Constants are read alike, and they are found in the whole as expressions.

**Proof sketch.** A constant takes a token, so that the same one stands on both sides, and they read
the same kind of constant.  Reading one splits nothing, so that it spells tokens of the whole. -/
lemma fallback_alongside (h : (alongside whole rest k).Rel .closed c d) :
    Simulates (alongside whole rest k) fallback fallback c d fun f f' τ =>
      Matches whole Fallback.withoutSpans (fun f => .expression f.toExpression) f f'
        ∧ τ = .closed := by
  have hstrict : Strict fallback c := .of_ensures (R := Eq) (fallback_ensures c) fun f _ _ hf =>
    f.toExpression.ne_nil_of_placed hf
  have hstrip : Simulates (alongside whole rest k) fallback fallback c d fun f f' τ =>
      f.withoutSpans = f'.withoutSpans ∧ τ = .closed := by
    refine .of_strict_of_isBehind h rfl hstrict fun hsame => ?_
    unfold fallback
    refine .peekKind_bind ?_
    rw [← hsame.kind]
    split
    case h_1 | h_2 =>
      refine (scalarLiteral_alongside h).bind ?_
      rintro l l' _ c₁ d₁ - - ⟨hl, rfl⟩ hrel
      exact .pure hrel ⟨congrArg Fallback.scalar hl.1, rfl⟩
    case h_3 hc | h_4 hc =>
      exact .advance_bind h hsame (by simp [hc]) rfl fun hrel => .pure hrel ⟨rfl, rfl⟩
    case h_5 =>
      refine .peek_bind ((number?_simulates h rfl rfl rfl).bind_of_lowers
        (fun o => by cases o <;> infer_instance) ?_)
      rintro o _ _ c₁ d₁ - - ⟨rfl, hnone, hsome⟩ hrel
      rcases o with _ | n
      · exact .unexpected hrel
      · obtain rfl := hsome (by simp)
        exact .pure hrel ⟨rfl, rfl⟩
  refine (hstrip.and_left (P := fun f => (Node.expression f.toExpression).Grounded whole)
    fun f c' hf => ?_).imp fun f f' τ hf => ⟨⟨hf.1.1, hf.2⟩, hf.1.2⟩
  obtain ⟨us, hread, hus⟩ := (fallback_ensures (R := Eq) c).ok f c' hf
  obtain ⟨before, after, hwhole⟩ := exists_eq_append_of_reads h hread
  exact grounded_fallback hwhole hus

/-- Fallbacks are read alike, and so are the places where there is none. -/
lemma fallback?_alongside (h : (alongside whole rest k).Rel .closed c d) :
    Simulates (alongside whole rest k) fallback? fallback? c d fun o o' τ =>
      Option.Rel (Matches whole Fallback.withoutSpans fun f => .expression f.toExpression) o o'
        ∧ τ = .closed := by
  unfold fallback?
  refine eat_alongside h (by simp) (fun hrel _ => ?_) (.pure h ⟨.none, rfl⟩)
  refine (fallback_alongside hrel).bind ?_
  rintro f f' _ c₁ d₁ - - ⟨hf, rfl⟩ hrel
  exact .pure hrel ⟨.some hf, rfl⟩

/-! ### Bodies of through blocks -/

/-- The value of a through block, without bindings in front of it. -/
def throughValue : Parser (List LetBinding × Expression) := do
  let value ← expression
  return ([], value)

/-- Anywhere but at the word `let` the value is read. -/
lemma throughBodyUpTo_of_ne (n : Nat) (hc : c.peek.kind ≠ .keyword .letKw) :
    throughBodyUpTo n c = throughValue c := by
  rcases n with _ | n
  · rfl
  · rw [throughBodyUpTo, bind_of_ok (show check (.keyword .letKw) c = _ from rfl),
      if_neg (by simpa)]
    rfl

/-- The body of a through block behind the word `let`. -/
def throughLet (n : Nat) : Parser (List LetBinding × Expression) := do
  match ← letForm with
  | .expression value => return ([], value)
  | .binding binding =>
    let (setup, value) ← throughBodyUpTo n
    return (binding :: setup, value)

/-- At the word `let` a binding is read, or a let-in that is the value. -/
lemma throughBodyUpTo_of_let (n : Nat) (hc : c.peek.kind = .keyword .letKw) :
    throughBodyUpTo (n + 1) c = throughLet n c := by
  rw [throughBodyUpTo, bind_of_ok (show check (.keyword .letKw) c = _ from rfl), if_pos (by simpa)]
  rfl

/-- The body of a through block takes a token. -/
lemma strict_throughBodyUpTo (n : Nat) (c : Cursor) : Strict (throughBodyUpTo n) c :=
  .of_ensures (throughBodyUpTo_ensures n c) fun body ts _ hbody => by
    rintro rfl
    obtain ⟨us, -, vs, hvs, heq⟩ := Language.mem_mul.1 hbody.1
    exact body.2.ne_nil_of_placed hvs (List.append_eq_nil_iff.1 heq).2

/-- What the bodies of through blocks on both sides have in common. -/
def MatchingBodies (whole : List Token) (body body' : List LetBinding × Expression) : Prop :=
  List.Forall₂ (Matches whole LetBinding.withoutSpans .letBinding) body.1 body'.1
    ∧ Matches whole Expression.withoutSpans .expression body.2 body'.2

/-- The body of a through block takes from what is ahead, whatever its bound. -/
instance (n : Nat) : Lowers (throughBodyUpTo n) := .of_ensures (throughBodyUpTo_ensures n)

/-- Values of through blocks are read alike, and what stands inside of them is found in the whole.
-/
lemma throughValue_alongside (h : (alongside whole rest k).Rel .closed c d)
    (hfresh : Fresh whole c.ahead) :
    Simulates (alongside whole rest k) throughValue throughValue c d fun b b' τ =>
      MatchingBodies whole b b' ∧ τ = .closed := by
  unfold throughValue
  refine (expression_alongside h hfresh).bind ?_
  rintro value value' _ c₁ d₁ - - ⟨hvalue, rfl⟩ hrel
  exact .pure hrel ⟨⟨.nil, hvalue⟩, rfl⟩

/-- Bodies with bounds on what remains ahead.

**Proof sketch.** Induction on the bindings: each of them takes a token on both sides, and none of
  them ends before a minus sign. -/
lemma throughBodyUpTo_alongside (n : Nat) :
    ∀ (m : Nat) (c d : Cursor), (alongside whole rest k).Rel .closed c d →
      Fresh whole c.ahead → c.remaining ≤ n → d.remaining ≤ m →
      Simulates (alongside whole rest k) (throughBodyUpTo n) (throughBodyUpTo m) c d fun b b' τ =>
        MatchingBodies whole b b' ∧ τ = .closed := by
  have hpos {c : Cursor} (hc : c.peek.kind = .keyword .letKw) : 0 < c.remaining := by
    obtain ⟨ts, hts⟩ := Cursor.exists_ahead_of_peek (c := c) (by simp [hc])
    have := c.peek.one_le_pieces
    rw [Cursor.remaining, hts, countPieces_cons]
    omega
  induction n with
  | zero =>
    intro m c d h hfresh hn hm
    refine .of_strict_of_isBehind h rfl (strict_throughBodyUpTo 0 c) fun hsame => ?_
    have hc : c.peek.kind ≠ .keyword .letKw := fun hc => absurd (hpos hc) (by omega)
    exact (throughValue_alongside h hfresh).congr rfl (throughBodyUpTo_of_ne m (hsame.kind ▸ hc))
  | succ n ih =>
    intro m c d h hfresh hn hm
    refine .of_strict_of_isBehind h rfl (strict_throughBodyUpTo (n + 1) c) fun hsame => ?_
    by_cases hc : c.peek.kind = .keyword .letKw
    · have hd : d.peek.kind = .keyword .letKw := hsame.kind ▸ hc
      obtain ⟨m, rfl⟩ : ∃ m', m = m' + 1 := ⟨m - 1, by have := hpos hd; omega⟩
      refine Simulates.congr ?_ (throughBodyUpTo_of_let n hc) (throughBodyUpTo_of_let m hd)
      unfold throughLet
      refine (letForm_alongside h hfresh).bind_of_lowers (fun f => by cases f <;> infer_instance) ?_
      rintro f f' _ c₁ d₁ hf hf' ⟨⟨hstrip, hgrounded⟩, rfl⟩ hrel
      rcases f with b | value <;> rcases f' with b' | value' <;>
        simp only [LetForm.withoutSpans, LetForm.binding.injEq, LetForm.expression.injEq,
          reduceCtorEq] at hstrip
      · have hfresh₁ : Fresh whole c₁.ahead := by
          obtain ⟨_, -, hbeyond⟩ := (letForm_beyond c).ok _ c₁ hf
          exact fresh_of_headKind hbeyond.headKind.1
        have hc₁ := strict_letForm c _ c₁ hf
        have hd₁ := strict_letForm d _ d₁ hf'
        refine (ih m c₁ d₁ hrel hfresh₁ (by omega) (by omega)).bind ?_
        rintro ⟨setup, value⟩ ⟨setup', value'⟩ _ c₂ d₂ - - ⟨⟨hsetup, hvalue⟩, rfl⟩ hrel
        exact .pure hrel ⟨⟨.cons ⟨hstrip, hgrounded⟩ hsetup, hvalue⟩, rfl⟩
      · exact .pure hrel ⟨⟨.nil, hstrip, hgrounded⟩, rfl⟩
    · exact (throughValue_alongside h hfresh).congr (throughBodyUpTo_of_ne _ hc)
        (throughBodyUpTo_of_ne m (hsame.kind ▸ hc))

/-- Bodies of through blocks are read alike, and what stands inside of them is found in the whole.
-/
lemma throughBody_alongside (h : (alongside whole rest k).Rel .closed c d)
    (hfresh : Fresh whole c.ahead) :
    Simulates (alongside whole rest k) throughBody throughBody c d fun b b' τ =>
      MatchingBodies whole b b' ∧ τ = .closed :=
  (throughBodyUpTo_alongside c.remaining d.remaining c d h hfresh le_rfl le_rfl).congr rfl rfl

/-- Through blocks are read alike, and what stands inside of them is found in the whole.

**Proof sketch.** The words and signs, the guard, the fallback, the body and the name are read alike
one after the other. -/
theorem throughBlock_alongside (h : (alongside whole rest k).Rel .closed c d) :
    Simulates (alongside whole rest k) throughBlock throughBlock c d fun b b' τ =>
      Matches whole ThroughBlock.withoutSpans .throughBlock b b' ∧ τ = .closed := by
  unfold throughBlock
  refine expect_alongside h (by simp) fun _ _ hrel _ => ?_
  refine (throughGuard_alongside hrel).bind ?_
  rintro guard guard' _ c₁ d₁ - - ⟨hguard, rfl⟩ hrel
  refine (fallback?_alongside hrel).bind ?_
  rintro fallback fallback' _ c₂ d₂ - - ⟨hfallback, rfl⟩ hrel
  refine expect_alongside hrel (by simp) fun _ _ hrel hfresh => ?_
  refine (throughBody_alongside hrel (hfresh rfl)).bind ?_
  rintro ⟨setup, value⟩ ⟨setup', value'⟩ _ c₃ d₃ - - ⟨⟨hsetup, hvalue⟩, rfl⟩ hrel
  refine expect_alongside hrel (by simp) fun _ _ hrel _ => ?_
  refine expect_alongside hrel (by simp) fun _ hbinding hrel _ => ?_
  refine spanFrom_alongside hrel fun s s' => .pure hrel ⟨⟨?_, ?_⟩, rfl⟩
  · simp [ThroughBlock.withoutSpans, hguard.1, map_eq_of_optionMatches hfallback,
      map_eq_of_matches hsetup, hvalue.1, hbinding]
  · refine grounded_of_children trivial ?_
    have hsetup := grounded_of_matches hsetup
    have hfallback := grounded_of_optionMatches hfallback
    simp only [Node.children, List.mem_cons, List.mem_append, List.mem_map, List.not_mem_nil]
    grind [hguard.2, hvalue.2]

/-! ## Sweeps -/

/-- The target of a sweep arm takes from what is ahead. -/
instance : Lowers sweepTarget := .of_ensures (R := Eq) sweepTarget_ensures

/-- An arm of a sweep takes from what is ahead. -/
instance : Lowers sweepArm := .of_ensures sweepArm_ensures

/-- Targets of sweep arms are read alike.

**Proof sketch.** By cases on what stands at the cursor: the mention of a tine, the word `_`, or
neither, in which case both sides refuse it. -/
lemma sweepTarget_alongside (h : (alongside whole rest k).Rel .closed c d) :
    Simulates (alongside whole rest k) sweepTarget sweepTarget c d fun t t' τ =>
      Matches whole SweepTarget.withoutSpans .sweepTarget t t' ∧ τ = .closed := by
  unfold sweepTarget
  refine .check_cases h (by simp) (Mode.clear_of_isBehind rfl _) (fun _ _ => ?_) (fun _ => ?_)
    fun _ _ => ?_
  · refine (tineRef_alongside h).bind ?_
    rintro r r' _ c₁ d₁ - - ⟨hr, rfl⟩ hrel
    exact .pure hrel ⟨⟨congrArg SweepTarget.tine hr.1,
      grounded_of_children trivial (List.forall_mem_singleton.2 hr.2)⟩, rfl⟩
  · exact (Strict.of_ensures (R := Eq) (tineRef_ensures c) fun _ _ _ hr =>
      ne_nil_of_covering hr).bind
  · refine .checkWord_cases h (fun hc hsame => ?_) (fun hc => ?_) (.unexpected h)
    · exact .advance_bind h hsame (by simp [hc]) rfl fun hrel =>
        .pure hrel ⟨⟨rfl, grounded_of_children trivial nofun⟩, rfl⟩
    · exact (strict_advance (by simp [hc])).bind

/-- Arms of sweeps are read alike, and what stands inside of them is found in the whole. -/
lemma sweepArm_alongside (h : (alongside whole rest k).Rel .closed c d) :
    Simulates (alongside whole rest k) sweepArm sweepArm c d fun a a' τ =>
      Matches whole SweepArm.withoutSpans .sweepArm a a' ∧ τ = .closed := by
  unfold sweepArm
  refine expect_alongside h (by simp) fun _ _ hrel _ => ?_
  refine (sweepTarget_alongside hrel).bind ?_
  rintro target target' _ c₁ d₁ - - ⟨htarget, rfl⟩ hrel
  refine expect_alongside hrel (by simp) fun _ _ hrel hfresh => ?_
  refine (expression_alongside hrel (hfresh rfl)).bind ?_
  rintro value value' _ c₂ d₂ - - ⟨hvalue, rfl⟩ hrel
  refine spanFrom_alongside hrel fun s s' => .pure hrel ⟨⟨?_, ?_⟩, rfl⟩
  · simp [SweepArm.withoutSpans, htarget.1, hvalue.1]
  · refine grounded_of_children trivial ?_
    simp [Node.children, htarget.2, hvalue.2]

/-! ## Sections in a row -/

section WhenAt

variable {item : Parser α} {item' : Parser β} {kind : Kind} {R : α → β → Prop}

/-- A repetition of items that take a token, each at a token of a kind, makes progress. -/
lemma rounds_whenAt [Lowers item] (hstrict : ∀ c, Strict item c) (hkind : kind ≠ .eof) :
    Rounds (whenAt kind item) where
  some_lt c a b h := by
    obtain ⟨stands, c₁, hstands, h⟩ := bind_eq_ok.1 h
    obtain ⟨-, rfl⟩ := EStateM.Result.ok.inj hstands
    split at h
    · exact (hstrict c).bind _ _ h
    · cases h
  at_end c hc := by
    have hne : (c.peek.kind == kind) = false := by
      rw [Cursor.peek_kind_of_ahead_nil hc]
      exact beq_eq_false_iff_ne.2 hkind.symm
    exact bind_eq_ok.2 ⟨false, c, by rw [← hne]; rfl, rfl⟩

/-- Both sides read a section, if the word or the sign for it stands at the cursor. -/
theorem whenAt_alongside [Lowers item] (h : (alongside whole rest k).Rel .closed c d)
    (hstrict : Strict item c) (hkind : kind ≠ .eof)
    (hitem : Simulates (alongside whole rest k) item item' c d fun a b τ => R a b ∧ τ = .closed) :
    Simulates (alongside whole rest k) (whenAt kind item) (whenAt kind item') c d fun o o' τ =>
      Option.Rel R o o' ∧ τ = .closed := by
  unfold whenAt
  refine .check_cases h hkind (Mode.clear_of_isBehind rfl _) (fun _ _ => ?_)
    (fun _ => hstrict.bind) fun _ _ => .pure h ⟨.none, rfl⟩
  refine hitem.bind ?_
  rintro a b _ c₁ d₁ - - ⟨hab, rfl⟩ hrel
  exact .pure hrel ⟨.some hab, rfl⟩

/-- Sections in a row are read alike if each of them is. -/
lemma many_whenAt_alongside [Lowers item] [Lowers item']
    (h : (alongside whole rest k).Rel .closed c d) (hstrict : ∀ c, Strict item c)
    (hstrict' : ∀ d, Strict item' d) (hkind : kind ≠ .eof)
    (hitem : ∀ c d, (alongside whole rest k).Rel .closed c d →
      Simulates (alongside whole rest k) item item' c d fun a b τ => R a b ∧ τ = .closed) :
    Simulates (alongside whole rest k) (many (whenAt kind item)) (many (whenAt kind item')) c d
      fun as bs τ => List.Forall₂ R as bs ∧ τ = .closed := by
  have := rounds_whenAt hstrict hkind
  have := rounds_whenAt hstrict' hkind
  refine .many (M := (· = .closed)) ?_ h rfl
  rintro _ c d rfl h
  exact whenAt_alongside h (hstrict c) hkind (hitem c d h)

end WhenAt

/-- An arm of a sweep takes a token. -/
lemma strict_sweepArm (c : Cursor) : Strict sweepArm c :=
  .of_ensures (sweepArm_ensures c) fun _ _ _ ha => ne_nil_of_covering ha.1

/-- Sweeps are read alike, and what stands inside of them is found in the whole.

**Proof sketch.** The arms are read alike, up to the same token; there are none on both sides or on
neither. -/
theorem sweepBlock_alongside (h : (alongside whole rest k).Rel .closed c d) :
    Simulates (alongside whole rest k) sweepBlock sweepBlock c d fun b b' τ =>
      Matches whole SweepBlock.withoutSpans .sweepBlock b b' ∧ τ = .closed := by
  unfold sweepBlock
  refine expect_alongside h (by simp) fun _ _ hrel _ => ?_
  refine expect_alongside hrel (by simp) fun _ _ hrel _ => ?_
  refine (many_whenAt_alongside hrel strict_sweepArm strict_sweepArm (by simp)
    fun _ _ => sweepArm_alongside).bind ?_
  rintro arms arms' _ c₁ d₁ - - ⟨harms, rfl⟩ hrel
  have hempty : arms.isEmpty = arms'.isEmpty := by cases harms <;> rfl
  rw [← hempty]
  split
  · exact .refused hrel rfl rfl
  · refine expect_alongside hrel (by simp) fun _ _ hrel _ => ?_
    refine expect_alongside hrel (by simp) fun _ hbinding hrel _ => ?_
    refine spanFrom_alongside hrel fun s s' => .pure hrel ⟨⟨?_, ?_⟩, rfl⟩
    · simp [SweepBlock.withoutSpans, map_eq_of_matches harms, hbinding]
    · refine grounded_of_children trivial fun m hm => ?_
      obtain ⟨a, ha, rfl⟩ := List.mem_map.1 hm
      exact grounded_of_matches harms a ha

end Parser

end RakeLang
