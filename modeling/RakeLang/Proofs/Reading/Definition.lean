import RakeLang.Proofs.Reading.Statement

/-!
# What the reader of definitions ensures

A definition spells the tokens that it was read from, as they were split meanwhile, at its place,
and the expressions in it are canonical.  The reader of each kind of definition begins behind the
word that told the kind.

## Main results

* `RakeLang.Parser.signature_ensures` — the parameters and the result of a routine.
* `RakeLang.Parser.definition_places` — definitions.
-/

set_option relaxedAutoImplicit false
set_option autoImplicit false

namespace RakeLang.Parser

open Spelling Token

/-! ## Signatures -/

section Signatures

variable {R : List Token → List Token → Prop} [Rewriting R]

/-- The name of a result spells itself. -/
lemma resultName_ensures (c : Cursor) :
    resultName.Ensures R c fun name ts _ => ts ∈ word .ident name ∧ True := by
  unfold resultName
  refine .expect_bind (by simp) fun name hname => .pure ?_
  simp [word, hname]

/-- What results are read from spells them at their place.

**Proof sketch.** A name alone spells itself.  In parentheses, the token behind the name tells a
name with a type from a list of names; each of them is spelled with its parentheses. -/
lemma resultSpec_ensures (c : Cursor) :
    resultSpec.Ensures R c fun r ts _ => ts ∈ r.placed := by
  unfold resultSpec
  refine .of_reads (.check_bind ?_)
  split
  case isTrue hname =>
    have hname : c.peek.kind = .ident := by simpa using hname
    refine .advance_bind (by simp [hname]) (.pure fun _ => singleton_mem_covering ?_)
    simp [word, hname]
  case isFalse =>
    refine .expect_bind_peek (by simp) fun hlp => .check_bind ?_
    split
    · exact .misplaced
    apply Ensures.checkAhead_bind
    split
    · refine .expect_bind (by simp) fun name hname => ?_
      refine .expect_bind (by simp) fun colon hcolon => ?_
      refine (dataType_ensures _).bind fun type ts c₁ _ htype => ?_
      refine .expect_bind (by simp) fun rp hrp => .spanFrom_bind ?_
      refine .pure fun hread => ⟨?_, hread.covers⟩
      simp only [sign, word, cons_mem_token_mul]
      exact ⟨hlp, ⟨hname, trivial⟩, hcolon, append_singleton_mem htype.1 hrp⟩
    · refine (resultName_ensures _).bind fun first ts c₁ _ hfirst => ?_
      refine (Ensures.many (Ensures.afterComma resultName_ensures) _).bind
        fun others us c₂ _ hothers => ?_
      refine .expect_bind (by simp) fun rp hrp => .spanFrom_bind ?_
      refine .pure fun hread => ⟨?_, hread.covers⟩
      simp only [sign, cons_mem_token_mul, ← List.append_assoc]
      exact ⟨hlp, append_singleton_mem (separated_cons_mem hfirst.1 hothers.1) hrp⟩

/-- What the parameters and the result of a routine are read from spells them. -/
theorem signature_ensures (c : Cursor) :
    Parser.signature.Ensures R c fun s ts _ => ts ∈ placedSignature s.1 s.2 := by
  unfold Parser.signature
  refine (parameters_ensures c).bind fun params ts c₁ _ hparams => ?_
  refine .expect_bind (by simp) fun arrow harrow => ?_
  refine (resultSpec_ensures _).bind fun result us c₂ _ hresult => ?_
  refine .expect_bind (by simp) fun colon hcolon => .pure ?_
  refine Language.append_mem_mul hparams.1 ?_
  simp only [sign, cons_mem_token_mul]
  exact ⟨harrow, append_singleton_mem hresult hcolon⟩

/-! ## Records and types -/

/-- What a field of a record is read from spells it at its place. -/
lemma fieldDef_ensures (c : Cursor) :
    fieldDef.Ensures R c fun f ts _ => ts ∈ f.placed ∧ True := by
  unfold fieldDef
  refine .of_reads (.expect_bind_peek (by simp) fun hname => ?_)
  refine .expect_bind (by simp) fun colon hcolon => ?_
  refine (dataType_ensures _).bind fun type ts c₁ _ htype => .spanFrom_bind ?_
  refine .pure fun hread => ⟨⟨?_, hread.covers⟩, trivial⟩
  simp only [word, sign, cons_mem_token_mul, List.append_nil]
  exact ⟨⟨hname, trivial⟩, hcolon, htype.1⟩

/-- A record is read from the word at its head, which is the token at the cursor, and from what
spells it behind this word. -/
lemma recordDef_ensures {c : Cursor} (hc : c.peek.kind ≠ .eof) :
    recordDef.Ensures R c fun r ts _ =>
      ∃ us, ts = c.peek :: us ∧ us ∈ r.placed ∧ (InOrder ts → r.span.Covers ts) := by
  unfold recordDef
  refine .of_reads (.advance_bind hc (.expect_bind (by simp) fun name hname => ?_))
  refine .expect_bind (by simp) fun lb hlb => ?_
  refine (Ensures.commaSeparated fieldDef_ensures _).bind fun fields ts c₁ _ hfields => ?_
  refine .expect_bind (by simp) fun rb hrb => .spanFrom_bind ?_
  refine .pure fun hread => ⟨_, rfl, ?_, hread.covers⟩
  simp only [RecordDef.placed, word, sign, cons_mem_token_mul]
  exact ⟨⟨hname, trivial⟩, hlb, append_singleton_mem hfields.1 hrb⟩

/-- An alias of a type is read from the word at its head and from what spells it behind this word.
-/
lemma typeAlias_ensures {c : Cursor} (hc : c.peek.kind ≠ .eof) :
    typeAlias.Ensures R c fun a ts _ =>
      ∃ us, ts = c.peek :: us ∧ us ∈ a.placed ∧ (InOrder ts → a.span.Covers ts) := by
  unfold typeAlias
  refine .of_reads (.advance_bind hc (.expect_bind (by simp) fun name hname => ?_))
  refine .expect_bind (by simp) fun equal hequal => ?_
  refine (dataType_ensures _).bind fun type ts c₁ _ htype => .spanFrom_bind ?_
  refine .pure fun hread => ⟨_, rfl, ?_, hread.covers⟩
  simp only [TypeAlias.placed, word, sign, cons_mem_token_mul, List.append_nil]
  exact ⟨⟨hname, trivial⟩, hequal, htype.1⟩

end Signatures

/-! ## Routines -/

/-- What a statement of a body is read from spells it at its place, and the expressions in it are
canonical. -/
lemma bodyStatement_ensures (c : Cursor) :
    bodyStatement.Ensures SplitsTo c fun o ts _ =>
      Ensures.Answers Statement.placed (fun s => ∀ e ∈ s.expressions, e.Canonical) o ts := by
  unfold bodyStatement
  by_cases hc : c.atDefinitionBoundary = true
  · exact .stay (if_pos hc) rfl
  · have hread : (some <$> statement).Ensures SplitsTo c fun o ts _ =>
        Ensures.Answers Statement.placed (fun s => ∀ e ∈ s.expressions, e.Canonical) o ts := by
      rw [map_eq_pure_bind]
      refine (statement_ensures c).bind fun s ts c₁ _ hs => .pure ?_
      rw [List.append_nil]
      exact hs
    exact hread.congr (if_neg hc)

/-- A routine is read from the word at its head and from what spells it behind this word, and the
expressions in its body are canonical. -/
lemma routine_ensures {c : Cursor} (hc : c.peek.kind ≠ .eof) :
    routine.Ensures SplitsTo c fun r ts _ =>
      (∃ us, ts = c.peek :: us ∧ us ∈ r.placed ∧ (InOrder ts → r.span.Covers ts))
        ∧ ∀ s ∈ r.body, ∀ e ∈ s.expressions, e.Canonical := by
  unfold routine
  refine .of_reads (.advance_bind hc (.expect_bind (by simp) fun name hname => ?_))
  refine (signature_ensures _).bind ?_
  rintro ⟨params, result⟩ ts c₁ - hsignature
  refine (Ensures.many bodyStatement_ensures _).bind fun body us c₂ _ hbody => ?_
  refine .spanFrom_bind (.pure fun hread => ⟨⟨_, rfl, ?_, hread.covers⟩, hbody.2⟩)
  simp only [Routine.placed, word, cons_mem_token_mul, List.append_nil]
  exact ⟨⟨hname, trivial⟩, Language.append_mem_mul hsignature hbody.1⟩

/-! ## Rakes -/

/-- What tines are read from spells them one behind the other, and the expressions in their guards
are canonical. -/
lemma tines_ensures (rake : String) (c : Cursor) :
    (tines rake).Ensures SplitsTo c fun ds ts _ =>
      ts ∈ (ds.map TineDecl.placed).prod ∧ ∀ d ∈ ds, ∀ e ∈ d.guard.operands, e.Canonical := by
  unfold tines
  refine (Ensures.many (Ensures.whenAt tineDecl_ensures) c).bind fun ds ts c₁ _ hds => ?_
  split
  · exact .misplaced
  apply Ensures.check_bind
  split
  · exact .misplaced
  · exact .pure (by simpa using hds)

/-- What through blocks are read from spells them one behind the other, and the expressions in them
are canonical. -/
lemma throughs_ensures (rake : String) (c : Cursor) :
    (throughs rake).Ensures SplitsTo c fun bs ts _ =>
      ts ∈ (bs.map ThroughBlock.placed).prod ∧ ∀ b ∈ bs, ∀ e ∈ b.expressions, e.Canonical := by
  unfold throughs
  refine (Ensures.many (Ensures.whenAt throughBlock_ensures) c).bind fun bs ts c₁ _ hbs => ?_
  split
  · exact .misplaced
  · exact .pure (by simpa using hbs)

/-- What a sweep is read from spells it at its place, and the values of its arms are canonical. -/
lemma sweep_ensures (rake : String) (c : Cursor) :
    (sweep rake).Ensures SplitsTo c fun b ts _ =>
      ts ∈ b.placed ∧ ∀ a ∈ b.arms, a.value.Canonical := by
  unfold sweep
  apply Ensures.peekKind_bind
  split
  · refine (sweepBlock_ensures c).bind fun b ts c₁ _ hb => .check_bind ?_
    split
    · exact .misplaced
    · exact .pure (by simpa using hb)
  · exact .misplaced
  · exact .misplaced

/-- A rake is read from the word at its head and from what spells it behind this word, and the
expressions in it are canonical.

**Proof sketch.** The word, the name and the signature are followed by the bindings, the tines, the
through blocks and the sweep, which are read one after the other and spelled in this order. -/
lemma rakeDef_ensures {c : Cursor} (hc : c.peek.kind ≠ .eof) :
    rakeDef.Ensures SplitsTo c fun r ts _ =>
      (∃ us, ts = c.peek :: us ∧ us ∈ r.placed ∧ (InOrder ts → r.span.Covers ts))
        ∧ ∀ e ∈ r.expressions, e.Canonical := by
  unfold rakeDef
  refine .of_reads (.advance_bind hc (.expect_bind (by simp) fun name hname => ?_))
  refine (signature_ensures _).bind ?_
  rintro ⟨params, result⟩ ts c₁ - hsignature
  refine (Ensures.many (Ensures.whenAt letBinding_ensures) _).bind fun setup us c₂ _ hsetup => ?_
  refine (tines_ensures _ _).bind fun tines vs c₃ _ htines => ?_
  refine (throughs_ensures _ _).bind fun throughs ws c₄ _ hthroughs => ?_
  refine (sweep_ensures _ _).bind fun sweep xs c₅ _ hsweep => .spanFrom_bind ?_
  refine .pure fun hread => ⟨⟨_, rfl, ?_, hread.covers⟩, ?_⟩
  · simp only [RakeDef.placed, word, cons_mem_token_mul, List.append_nil]
    refine ⟨⟨hname, trivial⟩, Language.append_mem_mul hsignature ?_⟩
    refine Language.append_mem_mul hsetup.1 (Language.append_mem_mul htines.1 ?_)
    exact Language.append_mem_mul hthroughs.1 hsweep.1
  · intro e he
    simp only [RakeDef.expressions, List.mem_append, List.mem_map, List.mem_flatMap] at he
    rcases he with ((⟨b, hb, rfl⟩ | ⟨d, hd, he⟩) | ⟨b, hb, he⟩) | ⟨a, ha, rfl⟩
    · exact hsetup.2 b hb
    · exact htines.2 d hd e he
    · exact hthroughs.2 b hb e he
    · exact hsweep.2 a ha

/-! ## Definitions -/

/-- What a definition is read from spells it at its place, and the expressions in it are
canonical.

**Proof sketch.** By the kind of the token at the cursor, which is the word at the head: the
reader of each kind of definition gives what spells the definition behind this word. -/
theorem definition_places (c : Cursor) :
    definition.Ensures SplitsTo c fun d ts _ =>
      ts ∈ d.placed ∧ ∀ e ∈ d.expressions, e.Canonical := by
  unfold definition
  apply Ensures.peekKind_bind
  split
  case h_1 h | h_2 h =>
    refine (recordDef_ensures (by simp [h])).bind ?_
    rintro r _ c₁ - ⟨ts, rfl, hr, hcovers⟩
    refine .pure ?_
    rw [List.append_nil]
    refine ⟨⟨?_, hcovers⟩, by simp [Definition.expressions]⟩
    simpa [keyword, h] using hr
  case h_3 h =>
    refine (typeAlias_ensures (by simp [h])).bind ?_
    rintro a _ c₁ - ⟨ts, rfl, ha, hcovers⟩
    refine .pure ?_
    rw [List.append_nil]
    refine ⟨⟨?_, hcovers⟩, by simp [Definition.expressions]⟩
    simpa [keyword, h] using ha
  case h_4 h | h_6 h =>
    refine (routine_ensures (by simp [h])).bind ?_
    rintro r _ c₁ - ⟨⟨ts, rfl, hr, hcovers⟩, hcan⟩
    refine .pure ?_
    rw [List.append_nil]
    refine ⟨⟨?_, hcovers⟩, ?_⟩
    · simpa [keyword, h] using hr
    · intro e he
      obtain ⟨s, hs, he⟩ := List.mem_flatMap.1 he
      exact hcan s hs e he
  case h_5 h =>
    refine (rakeDef_ensures (by simp [h])).bind ?_
    rintro r _ c₁ - ⟨⟨ts, rfl, hr, hcovers⟩, hcan⟩
    refine .pure ?_
    rw [List.append_nil]
    refine ⟨⟨?_, hcovers⟩, hcan⟩
    simpa [keyword, h] using hr
  case h_7 => exact .unexpected

/-- What a definition is read from spells it, and the expressions in it are canonical. -/
lemma definition_ensures (c : Cursor) :
    definition.Ensures SplitsTo c fun d ts _ =>
      ts ∈ d.spelling ∧ ∀ e ∈ d.expressions, e.Canonical :=
  (definition_places c).imp fun d _ _ hd => ⟨d.placed_le hd.1, hd.2⟩

end RakeLang.Parser
