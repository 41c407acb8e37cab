import RakeLang.Proofs.Completing.Rake
import RakeLang.Proofs.Rereading.Ends

/-!
# Reading definitions is complete

Every canonical definition is read from its plain spellings in front of the next definition or the
end of the input.  The sections of a rake begin with different words and signs, so that each of them
ends where the next one begins; the statements of a routine end where the next definition can
begin, which no statement does.

## Main definitions

* `RakeLang.Spelling.AtBoundary` — in front of the lists of a language a definition ends.

## Main results

* `RakeLang.Parser.signature_leads` — the parameters and the result of a routine.
* `RakeLang.Parser.recordDef_leads`, `RakeLang.Parser.typeAlias_leads`,
  `RakeLang.Parser.routine_leads`, `RakeLang.Parser.rakeDef_leads` — the bodies of definitions.
* `RakeLang.Parser.definition_leads` — definitions.
-/

set_option relaxedAutoImplicit false
set_option autoImplicit false

namespace RakeLang

open Spelling

/-! ## Where a definition ends -/

/-- In front of each list of the language the body of a definition ends. -/
def Spelling.AtBoundary (L : Language Token) : Prop :=
  ∀ c : Cursor, c.ahead ∈ L → c.atDefinitionBoundary = true

/-- A definition ends in front of the end of the input or of a word that opens one. -/
lemma Spelling.AtBoundary.begins {L : Language Token} (h : AtBoundary L) :
    Begins (fun kind => kind = .eof ∨ kind.opensDefinition = true) L := by
  intro ts hts
  exact Parser.headKind_of_atDefinitionBoundary (h ⟨[], ts, ⟨.eof, "", .origin⟩, rfl⟩ hts)

/-- A token that neither ends the input nor opens a definition does not stand behind one. -/
lemma Spelling.AtBoundary.ne {L : Language Token} (h : AtBoundary L) {kind : Kind}
    (heof : kind ≠ .eof) (hopens : kind.opensDefinition = false) : Begins (· ≠ kind) L := by
  refine h.begins.imp fun other hother heq => ?_
  subst heq
  rcases hother with hother | hother
  · exact heof hother
  · rw [hopens] at hother
    cases hother

/-- In front of the end of the input a definition ends. -/
lemma Spelling.atBoundary_one : AtBoundary 1 := by
  intro c hc
  have hnil : c.ahead = [] := hc
  exact Cursor.atDefinitionBoundary_of_ahead_nil hnil

/-- In front of a definition another one ends.  Behind the words `stack` and `single` the name of a
type tells that they open one.

**Proof sketch.** By cases on the definition.  The words `type`, `crunch`, `rake` and `run` open one
by themselves; behind `stack` and `single` the definition spells the name of a type, which is what
the look ahead asks for. -/
lemma Definition.atBoundary (d : Definition) (K : Language Token) :
    AtBoundary (d.spellingBefore K) := by
  intro c hc
  suffices hstart : c.atDefinitionStart = true by simp [Cursor.atDefinitionBoundary, hstart]
  cases d with
  | stack record | single record =>
    simp only [spellingBefore, RecordDef.spelling, mul_assoc] at hc
    obtain ⟨t, _, ht, hus, hahead⟩ := mem_token_mul.1 hc
    obtain ⟨name, us, hname, -, rfl⟩ := mem_token_mul.1 hus
    have hkind : (c.lookahead 1).kind = .typeIdent := by
      rw [c.lookahead_one_kind, hahead]
      exact hname.1
    rw [Cursor.atDefinitionStart, c.peek_kind, hahead, headKind_cons, ht]
    simp [hkind]
  | type | crunch | rake | run =>
    obtain ⟨t, us, ht, -, hahead⟩ := mem_token_mul.1 hc
    rw [Cursor.atDefinitionStart, c.peek_kind, hahead, headKind_cons, ht]
    rfl

/-- No token that opens a statement opens a definition. -/
lemma Kind.opensDefinition_of_opensStatement {kind : Kind} (h : kind.opensStatement = true) :
    kind ≠ .eof ∧ kind.opensDefinition = false := by
  constructor
  · rintro rfl
    cases h
  · by_contra hopens
    unfold Kind.opensDefinition at hopens
    split at hopens <;> simp_all [opensStatement, opensExpression, opensPrimary]

namespace Parser

variable {M : Language Token} {k : Keyword}

/-! ## Signatures -/

/-- The name of a result is read. -/
lemma resultName_leads {name : String} :
    resultName.Leads (word .ident name * M) M (· = name) := by
  unfold resultName
  exact .expect_bind (fun _ ht => ht.1) fun t ht => .pure ht.2

/-- The names of a result behind the first one are read up to the closing parenthesis.

**Proof sketch.** An instance of `Leads.many`: each name is spelled behind its comma, and the
closing parenthesis, which is no comma, ends the loop.  What is read are the names themselves, so
the lists agree. -/
lemma resultNames_leads {names : List String} :
    (many (afterComma resultName)).Leads
      ((names.map fun name => sign .comma * word .ident name).prod * (sign .rParen * M))
      (sign .rParen * M) (· = names) := by
  have hmany : (many (afterComma resultName)).Leads
      ((names.map fun name => sign .comma * word .ident name).prod * (sign .rParen * M))
      (sign .rParen * M) (List.Forall₂ (· = ·) · names) := by
    rw [prod_mul_eq_foldr]
    refine .many (F := fun _ => True) (fun name _ K _ => ?_) (fun _ _ _ _ => trivial) trivial ?_
    · unfold afterComma
      rw [mul_assoc]
      exact .eat_bind_true (fun _ ht => ht) (resultName_leads.bind fun _ h => .pure ⟨_, rfl, h⟩)
    · intro c hc
      obtain ⟨t, us, ht, -, hahead⟩ := mem_token_mul.1 hc
      exact (Accepts.afterComma_stops (by simp [ht])).eq_none hahead
  exact hmany.imp fun _ h => by rwa [List.forall₂_eq_eq_eq] at h

/-- The result of a routine is read: a name, a name with its type in parentheses, or names behind
commas.

**Proof sketch.** The first token tells a name from parentheses, and the token behind the first name
tells a type from a list of names. -/
lemma resultSpec_leads {r : ResultSpec} (hr : r.Canonical) :
    resultSpec.Leads (r.spelling * M) M fun r' => r'.withoutSpans = r.withoutSpans := by
  unfold resultSpec
  rcases r with ⟨name, _ | type, span⟩ | ⟨_ | ⟨name, names⟩, span⟩
  · refine .check_bind_true begins_word ?_
    exact .advance_bind fun t ht => .pure (by simp [ResultSpec.withoutSpans, ht.2])
  · simp only [ResultSpec.spelling, mul_assoc]
    refine .check_bind_false (begins_sign.ne_of_eq (by simp)) ?_
    refine .expect_bind (fun _ ht => ht) fun start _ => ?_
    refine .check_bind_false (begins_word.ne_of_eq (by simp)) ?_
    refine .checkAhead_bind (b := true) (fun ts hts => ?_) ?_
    · obtain ⟨t, _, -, hus, rfl⟩ := mem_token_mul.1 hts
      obtain ⟨colon, us, hcolon, -, rfl⟩ := mem_token_mul.1 hus
      simp [hcolon]
    refine .expect_bind (fun _ ht => ht.1) fun t ht => .expect_bind (fun _ ht => ht) fun _ _ => ?_
    have hends : ∀ ts ∈ sign .rParen * M, EndsType ts := fun ts hts => by
      obtain ⟨rp, us, hrp, -, rfl⟩ := mem_token_mul.1 hts
      exact endsType_of_headKind (by simp [hrp]) (by simp [hrp])
    refine (dataType_leads (hr type rfl) hends).bind fun type' htype' => ?_
    refine .expect_bind (fun _ ht => ht) fun _ _ => .spanFrom_bind fun span' => .pure ?_
    simp [ResultSpec.withoutSpans, ht.2, htype']
  · exact absurd rfl hr
  · simp only [ResultSpec.spelling, List.map_cons, separated, List.map_map, mul_assoc]
    refine .check_bind_false (begins_sign.ne_of_eq (by simp)) ?_
    refine .expect_bind (fun _ ht => ht) fun start _ => ?_
    refine .check_bind_false (begins_word.ne_of_eq (by simp)) ?_
    refine .checkAhead_bind (b := false) (fun ts hts => ?_) ?_
    · have hbegins : Begins (· ≠ .symbol .colon)
          ((names.map fun name => sign .comma * word .ident name).prod * (sign .rParen * M)) := by
        rw [prod_mul_eq_foldr]
        refine begins_foldr (fun _ _ K => ?_) (begins_sign.ne_of_eq (by simp))
        rw [mul_assoc]
        exact begins_sign.ne_of_eq (by simp)
      obtain ⟨t, us, -, hus, rfl⟩ := mem_token_mul.1 hts
      exact beq_eq_false_iff_ne.2 (hbegins us hus)
    refine resultName_leads.bind fun first hfirst => resultNames_leads.bind fun others hothers => ?_
    refine .expect_bind (fun _ ht => ht) fun _ _ => .spanFrom_bind fun span' => .pure ?_
    simp [ResultSpec.withoutSpans, hfirst, hothers]

/-- The parameters and the result of a routine are read, up to the colon. -/
theorem signature_leads {params : List Parameter} {result : ResultSpec}
    (hparams : ∀ p ∈ params, p.Canonical) (hresult : result.Canonical) :
    Parser.signature.Leads (Spelling.signature params result * M) M fun s =>
      s.1.map Parameter.withoutSpans = params.map Parameter.withoutSpans
        ∧ s.2.withoutSpans = result.withoutSpans := by
  unfold Parser.signature
  simp only [Spelling.signature, mul_assoc]
  have hleads : parameters.Leads ((params.map Parameter.spelling).prod
      * (sign .arrow * (result.spelling * (sign .colon * M))))
      (sign .arrow * (result.spelling * (sign .colon * M)))
      fun ps => ps.map Parameter.withoutSpans = params.map Parameter.withoutSpans :=
    .of_accepts fun _ hts rest hrest => parameters_accepts hparams hts (begins_sign rest hrest)
  refine hleads.bind fun params' hparams' => .expect_bind (fun _ ht => ht) fun _ _ => ?_
  refine (resultSpec_leads hresult).bind fun result' hresult' => ?_
  exact .expect_bind (fun _ ht => ht) fun _ _ => .pure ⟨hparams', hresult'⟩

/-! ## Records and types -/

/-- A field of a record is read, where its type ends. -/
lemma fieldDef_accepts {f : FieldDef} {ts rest : List Token} (hf : f.type.Canonical)
    (hts : ts ∈ f.spelling) (hrest : EndsType rest) :
    fieldDef.Accepts ts rest fun f' => f'.withoutSpans = f.withoutSpans := by
  obtain ⟨name, _, hname, hws, rfl⟩ := mem_token_mul.1 hts
  obtain ⟨colon, us, hcolon, hus, rfl⟩ := mem_token_mul.1 hws
  unfold fieldDef
  refine .expect_bind hname.1 (.expect_bind hcolon ?_)
  refine (dataType_accepts hf hus hrest).bind_nil fun type htype => .spanFrom_bind fun span => ?_
  exact .pure (by simp [FieldDef.withoutSpans, hname.2, htype])

/-- The fields of a record are read up to the closing brace. -/
lemma fieldDefs_leads {fields : List FieldDef} (hfields : ∀ f ∈ fields, f.type.Canonical) :
    (commaSeparated (.symbol .rBrace) fieldDef).Leads
      (separated (fields.map FieldDef.spelling) * (sign .rBrace * M)) (sign .rBrace * M)
      (List.Forall₂ (fun f' f => f'.withoutSpans = f.withoutSpans) · fields) := by
  refine .of_accepts fun ts hts rest hrest => ?_
  obtain ⟨rb, more, hrb, -, rfl⟩ := mem_token_mul.1 hrest
  refine Accepts.commaSeparated hts (fun f hf us hus _ more hmore => ?_) (fun f _ us hus more => ?_)
    (by simp) hrb
  · exact fieldDef_accepts (hfields f hf) hus
      (by rcases hmore with h | h <;> exact endsType_of_headKind (by simp [h]) (by simp [h]))
  · obtain ⟨name, us, hname, -, rfl⟩ := mem_token_mul.1 hus
    simp [hname.1]

/-- A record is read behind its first word; its brace closes it. -/
theorem recordDef_leads {r : RecordDef} (hr : ∀ f ∈ r.fields, f.type.Canonical) :
    recordDef.Leads (keyword k * (r.spelling * M)) M fun r' =>
      r'.withoutSpans = r.withoutSpans := by
  unfold recordDef
  simp only [RecordDef.spelling, mul_assoc]
  refine .advance_bind fun start _ => .expect_bind (fun _ ht => ht.1) fun name hname => ?_
  refine .expect_bind (fun _ ht => ht) fun _ _ => (fieldDefs_leads hr).bind fun fields hfields => ?_
  refine .expect_bind (fun _ ht => ht) fun _ _ => .spanFrom_bind fun span => .pure ?_
  simp [RecordDef.withoutSpans, hname.2, map_eq_map hfields]

/-- A name for a type is read behind its first word, where the type ends. -/
theorem typeAlias_leads {a : TypeAlias} (ha : a.aliased.Canonical) (hM : ∀ ts ∈ M, EndsType ts) :
    typeAlias.Leads (keyword k * (a.spelling * M)) M fun a' =>
      a'.withoutSpans = a.withoutSpans := by
  unfold typeAlias
  simp only [TypeAlias.spelling, mul_assoc]
  refine .advance_bind fun start _ => .expect_bind (fun _ ht => ht.1) fun name hname => ?_
  refine .expect_bind (fun _ ht => ht) fun _ _ => ?_
  refine (dataType_leads ha hM).bind fun aliased haliased => .spanFrom_bind fun span => .pure ?_
  simp [TypeAlias.withoutSpans, hname.2, haliased]

/-! ## Routines -/

/-- A statement does not begin where the body of a routine ends.

**Proof sketch.** The statement is read by `statement_leads`.  It remains to see that the body does
not end in front of it: at the boundary of a definition stands a word that opens one or the end of
the input, and a canonical statement begins with neither. -/
lemma bodyStatement_leads {s : Statement} (hs : s.Canonical)
    (hM : Begins (· ≠ .keyword .inKw) M) :
    bodyStatement.Leads (s.spellingBefore M) M fun o =>
      ∃ s', o = some s' ∧ s'.withoutSpans = s.withoutSpans := by
  have hstatement : (some <$> statement).Leads (s.spellingBefore M) M fun o =>
      ∃ s', o = some s' ∧ s'.withoutSpans = s.withoutSpans := by
    rw [map_eq_pure_bind]
    have hleads := statement_leads hs (M := ending M) (fun _ hts => hts.2) (hM.mono (ending_le M))
    exact (hleads.mono_right (ending_le M)).bind fun s' hs' => .pure ⟨s', rfl, hs'⟩
  intro c hc
  have hopens := Kind.opensDefinition_of_opensStatement (hs.begins (ending M) c.ahead hc)
  have hbody : ¬ c.atDefinitionBoundary = true := fun hboundary => by
    rcases headKind_of_atDefinitionBoundary hboundary with h | h
    · exact hopens.1 h
    · exact absurd h (by simp [hopens.2])
  obtain ⟨o, c', hp, ho⟩ := hstatement c hc
  exact ⟨o, c', (if_neg hbody).trans hp, ho⟩

/-- A routine is read behind its first word.  Its statements end where a definition ends. -/
theorem routine_leads {r : Routine} (hr : r.Canonical) (hM : AtBoundary M) :
    routine.Leads (keyword k * r.spellingBefore M) M fun r' =>
      r'.withoutSpans = r.withoutSpans := by
  unfold routine Routine.spellingBefore
  refine .advance_bind fun start _ => .expect_bind (fun _ ht => ht.1) fun name hname => ?_
  refine (signature_leads hr.params hr.result).bind ?_
  rintro ⟨params, result⟩ ⟨hparams, hresult⟩
  have hbody : (many bodyStatement).Leads (r.body.foldr Statement.spellingBefore M) M
      (List.Forall₂ (fun s' s => s'.withoutSpans = s.withoutSpans) · r.body) :=
    .many (F := Begins (· ≠ .keyword .inKw))
      (fun s hs _ hK => bodyStatement_leads (hr.body s hs) hK)
      (fun s hs K _ => ((hr.body s hs).begins (ending K)).ne_of_test rfl) (hM.ne (by simp) rfl)
      fun c hc => if_pos (hM c hc)
  refine hbody.bind fun body hbody => .spanFrom_bind fun span => .pure ?_
  simp [Routine.withoutSpans, hname.2, hparams, hresult, map_eq_map hbody]

/-! ## Rakes -/

section Sections

variable {rake : String}

/-- The bindings of a rake are read, up to what begins with another word. -/
lemma setup_leads {setup : List LetBinding} (hsetup : ∀ b ∈ setup, b.Canonical)
    (hM : Begins (· ≠ .keyword .letKw) M) :
    (many (whenAt (.keyword .letKw) letBinding)).Leads
      (setup.foldr LetBinding.spellingBefore M) M
      (List.Forall₂ (fun b' b => b'.withoutSpans = b.withoutSpans) · setup) :=
  .many_whenAt (F := fun _ => True) strict_letBinding (by simp)
    (fun b hb K _ => (letBinding_leads (hsetup b hb) fun _ hts => hts.2).mono_right (ending_le K))
    (fun b _ _ => b.begins) (fun _ _ _ _ => trivial) trivial hM

/-- The tines of a rake are read, up to the through blocks. -/
lemma tines_leads {ds : List TineDecl} (hne : ds ≠ []) (hds : ∀ d ∈ ds, d.guard.Canonical)
    (hM : Begins (· = .keyword .through) M) :
    (tines rake).Leads ((ds.map TineDecl.plainSpelling).prod * M) M fun ds' =>
      ds'.map TineDecl.withoutSpans = ds.map TineDecl.withoutSpans := by
  have hmany : (many (whenAt (.symbol .pipe) tineDecl)).Leads
      ((ds.map TineDecl.plainSpelling).prod * M) M
      (List.Forall₂ (fun d' d => d'.withoutSpans = d.withoutSpans) · ds) := by
    rw [prod_mul_eq_foldr]
    exact .many_whenAt (F := fun _ => True) strict_tineDecl (by simp)
      (fun d hd _ _ => tineDecl_leads (hds d hd)) (fun d _ _ => d.begins)
      (fun _ _ _ _ => trivial) trivial (hM.ne_of_eq (by simp))
  unfold tines
  refine hmany.bind fun ds' hds' => ?_
  rw [if_neg (by simp [isEmpty_eq_false hds' hne])]
  exact .check_bind_false (hM.ne_of_eq (by simp)) (.pure (map_eq_map hds'))

/-- The through blocks of a rake are read, up to the sweep. -/
lemma throughs_leads {bs : List ThroughBlock} (hne : bs ≠ []) (hbs : ∀ b ∈ bs, b.Canonical)
    (hM : Begins (· = .keyword .sweep) M) :
    (throughs rake).Leads (bs.foldr ThroughBlock.spellingBefore M) M fun bs' =>
      bs'.map ThroughBlock.withoutSpans = bs.map ThroughBlock.withoutSpans := by
  have hmany : (many (whenAt (.keyword .through) throughBlock)).Leads
      (bs.foldr ThroughBlock.spellingBefore M) M
      (List.Forall₂ (fun b' b => b'.withoutSpans = b.withoutSpans) · bs) :=
    .many_whenAt (F := fun _ => True) strict_throughBlock (by simp)
      (fun b hb _ _ => throughBlock_leads (hbs b hb)) (fun b _ _ => b.begins)
      (fun _ _ _ _ => trivial) trivial (hM.ne_of_eq (by simp))
  unfold throughs
  refine hmany.bind fun bs' hbs' => ?_
  rw [if_neg (by simp [isEmpty_eq_false hbs' hne])]
  exact .pure (map_eq_map hbs')

/-- The sweep of a rake is read, where no second one follows. -/
lemma sweep_leads {b : SweepBlock} (hb : b.Canonical) (hM : Begins (· ≠ .keyword .sweep) M) :
    (sweep rake).Leads (b.spelling * M) M fun b' => b'.withoutSpans = b.withoutSpans := by
  unfold sweep
  refine .peekKind_bind b.begins ((sweepBlock_leads hb).bind fun b' hb' => ?_)
  exact .check_bind_false hM (.pure hb')

end Sections

/-- A rake is read behind its first word.

**Proof sketch.** Each section begins with a word or sign of its own, and through blocks and a sweep
there are, so that the sections before them end. -/
theorem rakeDef_leads {r : RakeDef} (hr : r.Canonical) (hM : AtBoundary M) :
    rakeDef.Leads (keyword k * r.spellingBefore M) M fun r' =>
      r'.withoutSpans = r.withoutSpans := by
  have hthrough : Begins (· = .keyword .through)
      (r.throughs.foldr ThroughBlock.spellingBefore (r.sweep.spelling * M)) := by
    obtain ⟨b, bs, hbs⟩ := List.exists_cons_of_ne_nil hr.throughs_ne_nil
    rw [hbs]
    exact b.begins
  have htine : Begins (· ≠ .keyword .letKw) ((r.tines.map TineDecl.plainSpelling).prod
      * r.throughs.foldr ThroughBlock.spellingBefore (r.sweep.spelling * M)) := by
    rw [prod_mul_eq_foldr]
    exact begins_foldr (fun d _ _ => d.begins.ne_of_eq (by simp)) (hthrough.ne_of_eq (by simp))
  unfold rakeDef RakeDef.spellingBefore
  refine .advance_bind fun start _ => .expect_bind (fun _ ht => ht.1) fun name hname => ?_
  refine (signature_leads hr.params hr.result).bind ?_
  rintro ⟨params, result⟩ ⟨hparams, hresult⟩
  refine (setup_leads hr.setup htine).bind fun setup hsetup => ?_
  refine (tines_leads hr.tines_ne_nil hr.tines hthrough).bind fun tines htines => ?_
  refine (throughs_leads hr.throughs_ne_nil hr.throughs r.sweep.begins).bind ?_
  intro throughs hthroughs
  refine (sweep_leads hr.sweep (hM.ne (by simp) rfl)).bind fun sweep hsweep => ?_
  refine .spanFrom_bind fun span => .pure ?_
  simp [RakeDef.withoutSpans, hname.2, hparams, hresult, map_eq_map hsetup, htines, hthroughs,
    hsweep]

/-! ## Definitions -/

/-- **Definitions** are read from their plain spellings, in front of the next one or the end of the
input.

**Proof sketch.** The word at the head tells which definition it is; each of them has its lemma. -/
theorem definition_leads {d : Definition} (hd : d.Canonical) (hM : AtBoundary M) :
    definition.Leads (d.spellingBefore M) M fun d' => d'.withoutSpans = d.withoutSpans := by
  unfold definition
  cases d with
  | stack record =>
    refine .peekKind_bind begins_keyword ?_
    exact (recordDef_leads hd).bind fun r hr => .pure (congrArg Definition.stack hr)
  | single record =>
    refine .peekKind_bind begins_keyword ?_
    exact (recordDef_leads hd).bind fun r hr => .pure (congrArg Definition.single hr)
  | type body =>
    have hends : ∀ ts ∈ M, EndsType ts := fun ts hts =>
      endsType_of_headKind (hM.ne (by simp) rfl ts hts) (hM.ne (by simp) rfl ts hts)
    refine .peekKind_bind begins_keyword ?_
    exact (typeAlias_leads hd hends).bind fun a ha => .pure (congrArg Definition.type ha)
  | crunch routine =>
    refine .peekKind_bind begins_keyword ?_
    exact (routine_leads hd hM).bind fun r hr => .pure (congrArg Definition.crunch hr)
  | rake body =>
    refine .peekKind_bind begins_keyword ?_
    exact (rakeDef_leads hd hM).bind fun r hr => .pure (congrArg Definition.rake hr)
  | run routine =>
    refine .peekKind_bind begins_keyword ?_
    exact (routine_leads hd hM).bind fun r hr => .pure (congrArg Definition.run hr)

end Parser

end RakeLang
