import RakeLang.Proofs.Reading.Definition
import RakeLang.Proofs.Rereading.Rake

/-!
# Reading definitions alongside the whole

A definition is read from a slice as it is read from the whole, and what stands inside of it is
found in the whole.  Only a routine looks at what follows it: it ends where the next definition can
begin.

## Main results

* `RakeLang.Parser.signature_alongside`, `RakeLang.Parser.bodyStatement_alongside` — the parts of a
  routine.
* `RakeLang.Parser.definition_alongside` — definitions.
-/

set_option relaxedAutoImplicit false
set_option autoImplicit false

namespace RakeLang

open Token Spelling Node

namespace Parser

variable {α β γ δ : Type} {whole rest : List Token} {k : Nat} {c d : Cursor}

/-- Only a reading that succeeds has to be looked at. -/
lemma Simulates.of_ok {p : Parser α} {q : Parser β} {Q : α → β → Mode → Prop}
    (h : ∀ a c', p c = .ok a c' → Simulates (alongside whole rest k) p q c d Q) :
    Simulates (alongside whole rest k) p q c d Q where
  ok a c' hp := (h a c' hp).ok a c' hp
  error _ _ _ _ := ⟨trivial, nofun⟩

/-! ## Signatures -/

/-- The name of a result takes from what is ahead. -/
instance : Lowers resultName := .of_ensures (R := Eq) resultName_ensures

/-- Names of results are read alike. -/
lemma resultName_alongside (h : (alongside whole rest k).Rel .closed c d) :
    Simulates (alongside whole rest k) resultName resultName c d fun n n' τ =>
      n = n' ∧ τ = .closed := by
  unfold resultName
  exact expect_alongside h (by simp) fun _ hname hrel _ => .pure hrel ⟨hname, rfl⟩

/-- A result of one value with its type, behind the opening parenthesis. -/
def typedResult (start : Span) : Parser ResultSpec := do
  let name ← expect .ident
  let _ ← expect (.symbol .colon)
  let type ← dataType
  let _ ← expect (.symbol .rParen)
  let span ← spanFrom start
  return .single name.lexeme (some type) span

/-- A result of several values, behind the opening parenthesis. -/
def tupleResult (start : Span) : Parser ResultSpec := do
  let first ← resultName
  let others ← many (afterComma resultName)
  let _ ← expect (.symbol .rParen)
  let span ← spanFrom start
  return .tuple (first :: others) span

/-- A result in parentheses, behind the opening one. -/
def resultInParens (start : Span) : Parser ResultSpec := do
  if ← check (.symbol .rParen) then misplaced .noResultName
  else if ← checkAhead 1 (.symbol .colon) then typedResult start
  else tupleResult start

section Results

variable {start start' : Span}

/-- A result with a type takes from what is ahead. -/
instance : Lowers (typedResult start) := by unfold typedResult; infer_instance

/-- A list of results takes from what is ahead. -/
instance : Lowers (tupleResult start) := by unfold tupleResult; infer_instance

/-- Results in parentheses take from what is ahead. -/
instance : Lowers (resultInParens start) := by unfold resultInParens; infer_instance

/-- Results with a type are read alike. -/
lemma typedResult_alongside (h : (alongside whole rest k).Rel .closed c d) :
    Simulates (alongside whole rest k) (typedResult start) (typedResult start') c d fun r r' τ =>
      Matches whole ResultSpec.withoutSpans .resultSpec r r' ∧ τ = .closed := by
  unfold typedResult
  refine expect_alongside h (by simp) fun _ hname hrel _ => ?_
  refine expect_alongside hrel (by simp) fun _ _ hrel _ => ?_
  refine (dataType_alongside hrel).bind ?_
  rintro type type' _ c₁ d₁ - - ⟨htype, rfl⟩ hrel
  refine expect_alongside hrel (by simp) fun _ _ hrel _ => ?_
  refine spanFrom_alongside hrel fun s s' => .pure hrel ⟨⟨?_, ?_⟩, rfl⟩
  · simp [ResultSpec.withoutSpans, hname, htype.1]
  · exact grounded_of_children trivial (List.forall_mem_singleton.2 htype.2)

/-- Lists of results are read alike.

**Proof sketch.** The first name and the ones behind commas are read alike in the mode outside
of expressions, so the lists are equal; the closing parenthesis keeps that mode. -/
lemma tupleResult_alongside (h : (alongside whole rest k).Rel .closed c d) :
    Simulates (alongside whole rest k) (tupleResult start) (tupleResult start') c d fun r r' τ =>
      Matches whole ResultSpec.withoutSpans .resultSpec r r' ∧ τ = .closed := by
  unfold tupleResult
  refine (resultName_alongside h).bind ?_
  rintro first _ _ c₁ d₁ - - ⟨rfl, rfl⟩ hrel
  refine (Simulates.manyAfterComma (R := Eq) (M := (· = .closed)) (N := (· = .closed)) hrel rfl
    ?_ ?_).bind ?_
  · rintro _ rfl
    rfl
  · rintro _ c d rfl h
    exact resultName_alongside h
  rintro others others' _ c₂ d₂ - - ⟨hothers, rfl⟩ hrel
  obtain rfl := List.forall₂_eq_eq_eq ▸ hothers
  refine expect_alongside hrel (by simp) fun _ _ hrel _ => ?_
  exact spanFrom_alongside hrel fun s s' =>
    .pure hrel ⟨⟨rfl, grounded_of_children trivial nofun⟩, rfl⟩

/-- Both kinds of results in parentheses begin with a name, so that the token behind it is one of
the slice, or one that must not be read.

**Proof sketch.** The name takes a token, so that the left side does not read at the end of the
slice.  What stands behind the name is a token of the slice, which is the same on both sides, or the
token at which the slice ends, which the left side would refuse. -/
lemma resultInParens_alongside (h : (alongside whole rest k).Rel .closed c d) :
    Simulates (alongside whole rest k) (resultInParens start) (resultInParens start') c d
      fun r r' τ => Matches whole ResultSpec.withoutSpans .resultSpec r r' ∧ τ = .closed := by
  unfold resultInParens
  refine .check_cases h (by simp) (Mode.clear_of_isBehind rfl _)
    (fun _ _ => .refused h rfl rfl) (fun _ _ _ hp => nomatch hp) fun _ _ => ?_
  have hname (stands : Bool) :
      Strict (if stands then typedResult start else tupleResult start) c := by
    cases stands
    · exact ((strict_expect (by simp)).bind : Strict resultName c).bind
    · exact (strict_expect (by simp)).bind
  refine .of_strict_of_isBehind h rfl (fun a c' hp => ?_) fun hsame => .of_ok fun r c' hp => ?_
  · obtain ⟨stands, _, hstands, hp⟩ := bind_eq_ok.1 hp
    obtain ⟨-, rfl⟩ := EStateM.Result.ok.inj hstands
    exact hname stands a c' hp
  · have hc : c.peek.kind = .ident := by
      obtain ⟨stands, _, hstands, hp⟩ := bind_eq_ok.1 hp
      obtain ⟨-, rfl⟩ := EStateM.Result.ok.inj hstands
      cases stands
      · obtain ⟨first, c₁, hfirst, -⟩ := bind_eq_ok.1 hp
        exact kind_of_expect_bind hfirst
      · exact kind_of_expect_bind hp
    refine .checkAhead_cases h hsame (by simp [hc]) rfl (by simp) (Mode.clear_of_isBehind rfl _)
      (fun _ _ => typedResult_alongside h) (fun hcolon r c' hp => ?_)
      fun _ _ => tupleResult_alongside h
    obtain ⟨name, c₁, hname, hp⟩ := bind_eq_ok.1 (show typedResult start c = _ from hp)
    obtain ⟨-, -, rfl⟩ := expect_eq_ok.1 hname
    exact (strict_expect (by simp)).bind r c' hp

end Results

/-- Results take from what is ahead. -/
instance : Lowers resultSpec := .of_ensures (R := Eq) resultSpec_ensures

/-- A signature takes from what is ahead. -/
instance : Lowers Parser.signature := .of_ensures (R := Eq) signature_ensures

/-- Results are read alike. -/
lemma resultSpec_alongside (h : (alongside whole rest k).Rel .closed c d) :
    Simulates (alongside whole rest k) resultSpec resultSpec c d fun r r' τ =>
      Matches whole ResultSpec.withoutSpans .resultSpec r r' ∧ τ = .closed := by
  unfold resultSpec
  refine .check_cases h (by simp) (Mode.clear_of_isBehind rfl _) (fun hc hsame => ?_)
    (fun hc => (strict_advance (by simp [hc])).bind) fun _ _ => ?_
  · refine .advance_bind h hsame (by simp [hc]) rfl fun hrel => .pure hrel ⟨⟨?_, ?_⟩, rfl⟩
    · simp [ResultSpec.withoutSpans, hsame.lexeme]
    · exact grounded_of_children trivial nofun
  · exact expect_alongside (f := fun t => resultInParens t.span)
      (g := fun t => resultInParens t.span) h (by simp) fun _ _ hrel _ =>
        resultInParens_alongside hrel

/-- Signatures are read alike, and what stands inside of them is found in the whole. -/
theorem signature_alongside (h : (alongside whole rest k).Rel .closed c d) :
    Simulates (alongside whole rest k) Parser.signature Parser.signature c d fun s s' τ =>
      (List.Forall₂ (Matches whole Parameter.withoutSpans .parameter) s.1 s'.1
        ∧ Matches whole ResultSpec.withoutSpans .resultSpec s.2 s'.2) ∧ τ = .closed := by
  unfold Parser.signature
  refine (parameters_alongside h).bind ?_
  rintro params params' _ c₁ d₁ - - ⟨hparams, rfl⟩ hrel
  refine expect_alongside hrel (by simp) fun _ _ hrel _ => ?_
  refine (resultSpec_alongside hrel).bind ?_
  rintro result result' _ c₂ d₂ - - ⟨hresult, rfl⟩ hrel
  exact expect_alongside hrel (by simp) fun _ _ hrel _ => .pure hrel ⟨⟨hparams, hresult⟩, rfl⟩

/-! ## Records and types -/

/-- A field of a record takes from what is ahead. -/
instance : Lowers fieldDef := .of_ensures (R := Eq) fieldDef_ensures

/-- Fields of records are read alike, and what stands inside of them is found in the whole. -/
lemma fieldDef_alongside (h : (alongside whole rest k).Rel .closed c d) :
    Simulates (alongside whole rest k) fieldDef fieldDef c d fun f f' τ =>
      Matches whole FieldDef.withoutSpans .fieldDef f f' ∧ τ = .closed := by
  unfold fieldDef
  refine expect_alongside h (by simp) fun _ hname hrel _ => ?_
  refine expect_alongside hrel (by simp) fun _ _ hrel _ => ?_
  refine (dataType_alongside hrel).bind ?_
  rintro type type' _ c₁ d₁ - - ⟨htype, rfl⟩ hrel
  refine spanFrom_alongside hrel fun s s' => .pure hrel ⟨⟨?_, ?_⟩, rfl⟩
  · simp [FieldDef.withoutSpans, hname, htype.1]
  · exact grounded_of_children trivial (List.forall_mem_singleton.2 htype.2)

/-- Records are read alike, and their fields are found in the whole.

**Proof sketch.** The name and the braces are read alike.  The fields are members of a list between
the braces, each of which is found in the whole by `fieldDef_alongside`. -/
lemma recordDef_alongside (h : (alongside whole rest k).Rel .closed c d)
    (hsame : (alongside whole rest k).Same c d) (hc : c.peek.kind ≠ .eof) :
    Simulates (alongside whole rest k) recordDef recordDef c d fun r r' τ =>
      (r.withoutSpans = r'.withoutSpans ∧ ∀ f ∈ r.fields, (Node.fieldDef f).Grounded whole)
        ∧ τ = .closed := by
  unfold recordDef
  refine .advance_bind h hsame hc rfl fun hrel => ?_
  refine expect_alongside hrel (by simp) fun _ hname hrel _ => ?_
  refine expect_alongside hrel (by simp) fun _ _ hrel _ => ?_
  refine .listed (R := Matches whole FieldDef.withoutSpans .fieldDef) (M := (· = .closed))
    (N := (· = .closed)) hrel rfl ?_ ?_ rfl (by simp) ?_ ?_
  · rintro _ rfl
    rfl
  · rintro _ rfl
    rfl
  · rintro _ c d rfl h
    exact fieldDef_alongside h
  · intro fields fields' τ c₁ d₁ hfields hτ _ hrel
    obtain rfl : τ = .closed := hτ.elim id id
    refine spanFrom_alongside hrel fun s s' => .pure hrel ⟨⟨?_, grounded_of_matches hfields⟩, rfl⟩
    simp [RecordDef.withoutSpans, hname, map_eq_of_matches hfields]

/-- Aliases of types are read alike, and their types are found in the whole. -/
lemma typeAlias_alongside (h : (alongside whole rest k).Rel .closed c d)
    (hsame : (alongside whole rest k).Same c d) (hc : c.peek.kind ≠ .eof) :
    Simulates (alongside whole rest k) typeAlias typeAlias c d fun a a' τ =>
      (a.withoutSpans = a'.withoutSpans ∧ (Node.dataType a.aliased).Grounded whole)
        ∧ τ = .closed := by
  unfold typeAlias
  refine .advance_bind h hsame hc rfl fun hrel => ?_
  refine expect_alongside hrel (by simp) fun _ hname hrel _ => ?_
  refine expect_alongside hrel (by simp) fun _ _ hrel _ => ?_
  refine (dataType_alongside hrel).bind ?_
  rintro type type' _ c₁ d₁ - - ⟨htype, rfl⟩ hrel
  refine spanFrom_alongside hrel fun s s' => .pure hrel ⟨⟨?_, htype.2⟩, rfl⟩
  simp [TypeAlias.withoutSpans, hname, htype.1]

/-! ## Routines -/

/-- What a round of a body does: it stays, or it reads a statement. -/
lemma bodyStatement_cases {o : Option Statement} {c' : Cursor} (h : bodyStatement c = .ok o c') :
    o = none ∧ c' = c ∨ ∃ s, o = some s ∧ statement c = .ok s c' := by
  unfold bodyStatement at h
  split at h
  · obtain ⟨rfl, rfl⟩ := EStateM.Result.ok.inj h
    exact .inl ⟨rfl, rfl⟩
  · rw [map_eq_pure_bind] at h
    obtain ⟨s, c₁, hs, h⟩ := bind_eq_ok.1 h
    obtain ⟨rfl, rfl⟩ := EStateM.Result.ok.inj h
    exact .inr ⟨s, rfl, hs⟩

/-- Every statement of a body takes a token. -/
instance : Rounds bodyStatement where
  le c o c' h := by
    obtain ⟨-, rfl⟩ | ⟨s, -, hs⟩ := bodyStatement_cases h
    · exact le_rfl
    · exact Lowers.le c s c' hs
  some_lt c s c' h := by
    obtain ⟨hnone, -⟩ | ⟨s', -, hs⟩ := bodyStatement_cases h
    · cases hnone
    · exact strict_statement c s' c' hs
  at_end c hc := if_pos (Cursor.atDefinitionBoundary_of_ahead_nil hc)

/-- Where both cursors show the same token, a body ends at both of them or at neither.

**Proof sketch.** Both cursors show the same word.  Only behind `stack` and `single` does the
boundary depend on the next token, and there both cursors show the same next one, or the slice ends
and `hrest` excludes the name of a type. -/
lemma atDefinitionBoundary_eq (h : Alongside whole rest k .closed c d)
    (hsame : SameToken False c.peek d.peek) (hrest : headKind rest ≠ .typeIdent) :
    c.atDefinitionBoundary = d.atDefinitionBoundary := by
  have hnext (hc : c.peek.kind ∈ [.keyword .stack, .keyword .single]) :
      ((c.lookahead 1).kind == .typeIdent) = ((d.lookahead 1).kind == .typeIdent) := by
    have heof : c.peek.kind ≠ .eof := by
      intro heof
      simp [heof] at hc
    have hrel := h.advance hsame heof
    rw [Simulates.lookahead_one heof, Simulates.lookahead_one (hsame.kind ▸ heof)]
    rcases hrel.same_or_ended with hnext | ⟨-, hremaining, hd⟩
    · rw [hnext.kind]
    · -- the slice ends behind the word, and no name of a record stands there
      obtain ⟨ts, hahead, hts, -⟩ := Alongside.ahead_of_closed (hrel : Alongside _ _ _ .closed _ _)
      rw [hd, List.forall₂_nil_right_iff] at hts
      subst hts
      rw [Cursor.peek_kind, Cursor.peek_kind, hahead, hd]
      simpa [beq_eq_false_iff_ne] using hrest
  unfold Cursor.atDefinitionBoundary Cursor.atEnd Cursor.atDefinitionStart
  rw [← hsame.kind]
  congr 1
  split
  case h_1 hc | h_2 hc => exact hnext (by simp [hc])
  case h_3 => rfl

/-- Statements of bodies are read alike, also where the slice ends and the next definition opens in
the whole.

**Proof sketch.** At the same token both sides ask whether a definition opens.  At the end of the
slice the left side reads no statement; there the rest opens a definition in the whole, so that the
right side reads none either. -/
theorem bodyStatement_alongside (h : (alongside whole rest k).Rel .closed c d)
    (hfresh : Fresh whole c.ahead) (hrest : headKind rest ≠ .typeIdent) :
    Simulates (alongside whole rest k) bodyStatement bodyStatement c d fun o o' τ =>
      Option.Rel (Matches whole Statement.withoutSpans .statement) o o' ∧ τ = .closed := by
  have hsome : Simulates (alongside whole rest k) (some <$> statement) (some <$> statement) c d
      fun o o' τ =>
        Option.Rel (Matches whole Statement.withoutSpans .statement) o o' ∧ τ = .closed := by
    simp only [map_eq_pure_bind]
    refine (statement_alongside h hfresh).bind ?_
    rintro s s' _ c₁ d₁ - - ⟨hs, rfl⟩ hrel
    exact .pure hrel ⟨.some hs, rfl⟩
  rcases Alongside.same_or_ended h with hsame | hended
  · have heq := atDefinitionBoundary_eq h hsame hrest
    by_cases hc : c.atDefinitionBoundary = true
    · exact (Simulates.pure h ⟨.none, rfl⟩).congr (if_pos hc) (if_pos (heq ▸ hc))
    · exact hsome.congr (if_neg hc) (if_neg (heq ▸ hc))
  · refine .ended_round h hended (fun b hb => ?_) ⟨.none, rfl⟩
    obtain ⟨-, rfl⟩ | ⟨s, hsome, -⟩ := bodyStatement_cases hb
    · rfl
    · cases hsome

/-- A signature ends with a colon. -/
lemma fresh_of_signature {s : List Parameter × ResultSpec} {c' : Cursor}
    (h : (alongside whole rest k).Rel .closed c d) (hs : Parser.signature c = .ok s c') :
    Fresh whole c'.ahead := by
  obtain ⟨ts, hread, hts⟩ := (signature_ensures (R := Eq) c).ok s c' hs
  obtain ⟨us, -, vs, hvs, rfl⟩ := Language.mem_mul.1 hts
  obtain ⟨ws, -, xs, hxs, rfl⟩ := Language.mem_mul.1 hvs
  obtain ⟨ys, -, zs, ⟨colon, hcolon, rfl⟩, rfl⟩ := Language.mem_mul.1 hxs
  have hahead : c.ahead = (us ++ (ws ++ ys)) ++ colon :: c'.ahead := by
    rw [hread.ahead]
    simp
  refine fresh_of_cons ?_ ((hahead ▸ List.suffix_append _ _).trans (Alongside.suffix h))
  rw [hcolon]
  rfl

/-- Routines are read alike, and what stands inside of them is found in the whole.

**Proof sketch.** The word, the name and the signature are followed by the statements of the body.
The repetition stops where a definition opens, which is so at the end of the slice too. -/
lemma routine_alongside (h : (alongside whole rest k).Rel .closed c d)
    (hsame : (alongside whole rest k).Same c d) (hc : c.peek.kind ≠ .eof)
    (hrest : headKind rest ≠ .typeIdent) :
    Simulates (alongside whole rest k) routine routine c d fun r r' τ =>
      (r.withoutSpans = r'.withoutSpans
        ∧ (∀ p ∈ r.params, (Node.parameter p).Grounded whole)
        ∧ (Node.resultSpec r.result).Grounded whole
        ∧ ∀ s ∈ r.body, (Node.statement s).Grounded whole) ∧ τ = .closed := by
  unfold routine
  refine .advance_bind h hsame hc rfl fun hrel => ?_
  refine expect_alongside hrel (by simp) fun _ hname hrel _ => ?_
  refine (signature_alongside hrel).bind ?_
  rintro ⟨params, result⟩ ⟨params', result'⟩ _ c₁ d₁ hsignature - ⟨⟨hparams, hresult⟩, rfl⟩ hrel₁
  refine (Simulates.many_of (R := Matches whole Statement.withoutSpans .statement)
    (M := (· = .closed)) (P := fun c => Fresh whole c.ahead) ?_ ?_ hrel₁ rfl
    (fresh_of_signature hrel hsignature)).bind ?_
  · rintro _ c d rfl hfresh h
    exact bodyStatement_alongside h hfresh hrest
  · intro c s c' _ hs
    obtain ⟨hnone, -⟩ | ⟨s', -, hs'⟩ := bodyStatement_cases hs
    · cases hnone
    · obtain ⟨_, -, hbeyond⟩ := (statement_beyond c).ok s' c' hs'
      exact fresh_of_headKind hbeyond.headKind.1
  rintro body body' _ c₂ d₂ - - ⟨hbody, rfl⟩ hrel
  refine spanFrom_alongside hrel fun s s' => .pure hrel
    ⟨⟨?_, grounded_of_matches hparams, hresult.2, grounded_of_matches hbody⟩, rfl⟩
  simp [Routine.withoutSpans, hname, map_eq_of_matches hparams, hresult.1, map_eq_of_matches hbody]

/-! ## Rakes -/

/-- A through block takes from what is ahead. -/
instance : Lowers throughBlock := .of_ensures throughBlock_ensures

section Sections

variable {rake : String}

/-- Tines take from what is ahead. -/
instance : Lowers (tines rake) := .of_ensures (tines_ensures rake)

/-- Through blocks take from what is ahead. -/
instance : Lowers (throughs rake) := .of_ensures (throughs_ensures rake)

/-- A sweep takes from what is ahead. -/
instance : Lowers (sweep rake) := .of_ensures (sweep_ensures rake)

/-- A binding takes a token. -/
lemma strict_letBinding (c : Cursor) : Strict letBinding c :=
  .of_ensures (letBinding_ensures c) fun _ _ _ hb => ne_nil_of_covering hb.1

/-- A tine takes a token. -/
lemma strict_tineDecl (c : Cursor) : Strict tineDecl c :=
  .of_ensures (tineDecl_ensures c) fun _ _ _ hd => ne_nil_of_covering hd.1

/-- A through block takes a token. -/
lemma strict_throughBlock (c : Cursor) : Strict throughBlock c :=
  .of_ensures (throughBlock_ensures c) fun _ _ _ hb => ne_nil_of_covering hb.1

/-- Tines are read alike, and what stands inside of them is found in the whole. -/
lemma tines_alongside (h : (alongside whole rest k).Rel .closed c d) :
    Simulates (alongside whole rest k) (tines rake) (tines rake) c d fun ts ts' τ =>
      List.Forall₂ (Matches whole TineDecl.withoutSpans .tineDecl) ts ts' ∧ τ = .closed := by
  unfold tines
  refine (many_whenAt_alongside h strict_tineDecl strict_tineDecl (by simp)
    fun _ _ => tineDecl_alongside).bind ?_
  rintro ts ts' _ c₁ d₁ - - ⟨hts, rfl⟩ hrel
  have hempty : ts.isEmpty = ts'.isEmpty := by cases hts <;> rfl
  rw [← hempty]
  split
  · exact .refused hrel rfl rfl
  · exact .check_cases hrel (by simp) (Mode.clear_of_isBehind rfl _)
      (fun _ _ => .refused hrel rfl rfl) (fun _ _ _ hp => nomatch hp)
      fun _ _ => .pure hrel ⟨hts, rfl⟩

/-- Through blocks are read alike, and what stands inside of them is found in the whole. -/
lemma throughs_alongside (h : (alongside whole rest k).Rel .closed c d) :
    Simulates (alongside whole rest k) (throughs rake) (throughs rake) c d fun bs bs' τ =>
      List.Forall₂ (Matches whole ThroughBlock.withoutSpans .throughBlock) bs bs'
        ∧ τ = .closed := by
  unfold throughs
  refine (many_whenAt_alongside h strict_throughBlock strict_throughBlock (by simp)
    fun _ _ => throughBlock_alongside).bind ?_
  rintro bs bs' _ c₁ d₁ - - ⟨hbs, rfl⟩ hrel
  have hempty : bs.isEmpty = bs'.isEmpty := by cases hbs <;> rfl
  rw [← hempty]
  split
  · exact .refused hrel rfl rfl
  · exact .pure hrel ⟨hbs, rfl⟩

/-- Sweeps are read alike, and what stands inside of them is found in the whole.

**Proof sketch.** Both cursors show the same token.  A sweep is read alike, and a second one behind
it is refused at both; a bar or anything else in place of a sweep is refused at both as well. -/
lemma sweep_alongside (h : (alongside whole rest k).Rel .closed c d) :
    Simulates (alongside whole rest k) (sweep rake) (sweep rake) c d fun b b' τ =>
      Matches whole SweepBlock.withoutSpans .sweepBlock b b' ∧ τ = .closed := by
  have hstrict : Strict (sweep rake) c :=
    .of_ensures (sweep_ensures rake c) fun _ _ _ hb => ne_nil_of_covering hb.1
  refine .of_strict_of_isBehind h rfl hstrict fun hsame => ?_
  unfold sweep
  refine .peekKind_bind ?_
  rw [← hsame.kind]
  split
  · refine (sweepBlock_alongside h).bind ?_
    rintro b b' _ c₁ d₁ - - ⟨hb, rfl⟩ hrel
    exact .check_cases hrel (by simp) (Mode.clear_of_isBehind rfl _)
      (fun _ _ => .refused hrel rfl rfl) (fun _ _ _ hp => nomatch hp)
      fun _ _ => .pure hrel ⟨hb, rfl⟩
  · exact .refused h rfl rfl
  · exact .refused h rfl rfl

end Sections

/-- Rakes are read alike, and what stands inside of them is found in the whole.

**Proof sketch.** The header, the bindings, the tines, the through blocks and the sweep are read
alike one after the other; each repetition stops at the same token, which opens another section. -/
lemma rakeDef_alongside (h : (alongside whole rest k).Rel .closed c d)
    (hsame : (alongside whole rest k).Same c d) (hc : c.peek.kind ≠ .eof) :
    Simulates (alongside whole rest k) rakeDef rakeDef c d fun r r' τ =>
      Matches whole Definition.withoutSpans .definition (.rake r) (.rake r') ∧ τ = .closed := by
  unfold rakeDef
  refine .advance_bind h hsame hc rfl fun hrel => ?_
  refine expect_alongside hrel (by simp) fun _ hname hrel _ => ?_
  refine (signature_alongside hrel).bind ?_
  rintro ⟨params, result⟩ ⟨params', result'⟩ _ c₁ d₁ - - ⟨⟨hparams, hresult⟩, rfl⟩ hrel
  refine (many_whenAt_alongside hrel strict_letBinding strict_letBinding (by simp)
    fun _ _ => letBinding_alongside).bind ?_
  rintro setup setup' _ c₂ d₂ - - ⟨hsetup, rfl⟩ hrel
  rw [hname]
  refine (tines_alongside hrel).bind ?_
  rintro tines tines' _ c₃ d₃ - - ⟨htines, rfl⟩ hrel
  refine (throughs_alongside hrel).bind ?_
  rintro throughs throughs' _ c₄ d₄ - - ⟨hthroughs, rfl⟩ hrel
  refine (sweep_alongside hrel).bind ?_
  rintro sweep sweep' _ c₅ d₅ - - ⟨hsweep, rfl⟩ hrel
  refine spanFrom_alongside hrel fun s s' => .pure hrel ⟨⟨?_, ?_⟩, rfl⟩
  · simp [Definition.withoutSpans, RakeDef.withoutSpans, map_eq_of_matches hparams,
      hresult.1, map_eq_of_matches hsetup, map_eq_of_matches htines, map_eq_of_matches hthroughs,
      hsweep.1]
  · refine grounded_of_children trivial ?_
    have hparams := grounded_of_matches hparams
    have hsetup := grounded_of_matches hsetup
    have htines := grounded_of_matches htines
    have hthroughs := grounded_of_matches hthroughs
    simp only [Node.children, List.mem_cons, List.mem_append, List.mem_map, List.not_mem_nil]
    grind [hresult.2, hsweep.2]

/-! ## Definitions -/

/-- A definition takes a token. -/
lemma strict_definition (c : Cursor) : Strict definition c :=
  .of_ensures (definition_places c) fun d _ _ hd => by
    cases d <;> exact ne_nil_of_covering hd.1

/-- **Definitions** are read from a slice as they are read from the whole, up to spans, and what
stands inside of them is found in the whole.

**Proof sketch.** Both sides read the same word, since a definition takes a token, and so the
same kind of definition. -/
theorem definition_alongside (h : (alongside whole rest k).Rel .closed c d)
    (hrest : c.peek.kind ∈ [.keyword .crunch, .keyword .run] → headKind rest ≠ .typeIdent) :
    Simulates (alongside whole rest k) definition definition c d fun e e' τ =>
      Matches whole Definition.withoutSpans .definition e e' ∧ τ = .closed := by
  refine .of_strict_of_isBehind h rfl (strict_definition c) fun hsame => ?_
  unfold definition
  refine .peekKind_bind ?_
  rw [← hsame.kind]
  split
  case h_1 hc | h_2 hc =>
    refine (recordDef_alongside h hsame (by simp [hc])).bind ?_
    rintro r r' _ c₁ d₁ - - ⟨⟨hstrip, hfields⟩, rfl⟩ hrel
    exact .pure hrel ⟨⟨by rw [Definition.withoutSpans, Definition.withoutSpans, hstrip],
      grounded_of_children trivial (List.forall_mem_map.2 hfields)⟩, rfl⟩
  case h_3 hc =>
    refine (typeAlias_alongside h hsame (by simp [hc])).bind ?_
    rintro a a' _ c₁ d₁ - - ⟨⟨hstrip, htype⟩, rfl⟩ hrel
    exact .pure hrel ⟨⟨congrArg Definition.type hstrip,
      grounded_of_children trivial (List.forall_mem_singleton.2 htype)⟩, rfl⟩
  case h_4 hc | h_6 hc =>
    refine (routine_alongside h hsame (by simp [hc]) (hrest (by simp [hc]))).bind ?_
    rintro r r' _ c₁ d₁ - - ⟨⟨hstrip, hparams, hresult, hbody⟩, rfl⟩ hrel
    refine .pure hrel ⟨⟨by rw [Definition.withoutSpans, Definition.withoutSpans, hstrip], ?_⟩, rfl⟩
    refine grounded_of_children trivial ?_
    simp only [Node.children, List.mem_append, List.mem_cons, List.mem_map]
    grind
  case h_5 hc =>
    refine (rakeDef_alongside h hsame (by simp [hc])).bind ?_
    rintro r r' _ c₁ d₁ - - ⟨hrake, rfl⟩ hrel
    exact .pure hrel ⟨hrake, rfl⟩
  case h_7 => exact .unexpected h

end Parser

end RakeLang
