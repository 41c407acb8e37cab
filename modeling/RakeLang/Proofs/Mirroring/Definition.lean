import RakeLang.Proofs.Mirroring.Predicate
import RakeLang.Proofs.Mirroring.Statement
import RakeLang.Proofs.Rereading.Definition

/-!
# Definitions mirror each other

The readers of definitions are taken over a reader of predicates that mirrors itself.  A body ends
at the end of its input or where another definition can begin, which is the same place on both
sides.

## Main results

* `RakeLang.Parser.routine_mirrors`, `RakeLang.Parser.rakeDefWith_mirrors`,
  `RakeLang.Parser.definitionWith_mirrors` — definitions are read alike.
-/

set_option relaxedAutoImplicit false
set_option autoImplicit false

namespace RakeLang.Parser

open Token

variable {M : Mirror} {c d : Cursor} {predicate : Parser Predicate}

/-! ## The sections of a rake -/

section Sections

/-- Tines are read alike; a parenthesis closes the guard. -/
lemma tineDeclWith_mirrors (hpredicate : GuardMirrors M (closed predicate) (closed predicate))
    (h : M.Begins c d) : Mirrors M (tineDeclWith predicate) (tineDeclWith predicate) c d
      (M.Alike TineDecl.mapSpans) := by
  unfold tineDeclWith
  refine .expect_begins h (by simp) fun hstart hrel => (tineRef_mirrors hrel).bind ?_
  rintro tine tine' c₁ d₁ htine hrel
  refine .expect_bind hrel (by simp) fun _ hrel => ?_
  refine .expect_bind hrel (by simp) fun _ hrel => closed_bind hpredicate hrel ?_
  rintro guard guard' c₂ d₂ hguard hrel
  refine .spanFrom_bind hrel hstart.span fun s s' hs => .pure hrel ?_
  simp only [Mirror.Alike, TineDecl.mapSpans, M.view hs]
  rw [htine.1, hguard.1]

/-- The guards of through blocks are read alike. -/
lemma throughGuardWith_mirrors (hpredicate : GuardMirrors M (closed predicate) (closed predicate))
    (h : M.Rel c d) :
    Mirrors M (throughGuardWith predicate) (throughGuardWith predicate) c d
      (M.Alike ThroughGuard.mapSpans) := by
  unfold throughGuardWith
  refine .kind_cases h (fun _ _ _ hp => nomatch hp) fun hsame => ?_
  split
  · refine (tineRef_mirrors h).bind ?_
    rintro tine tine' c₁ d₁ htine hrel
    exact .pure hrel (congrArg ThroughGuard.tine htine.1)
  · refine .advance_bind h hsame fun hrel => closed_bind hpredicate hrel ?_
    rintro guard guard' c₁ d₁ hguard hrel
    exact .pure hrel (congrArg ThroughGuard.predicate hguard.1)
  · exact .unexpected h

/-- Constants are read alike.

**Proof sketch.** Where the left input ends, no constant is read, since a number stands nowhere at
the end.  Elsewhere both sides go by the same kind of token. -/
lemma fallback_mirrors (h : M.Rel c d) :
    Mirrors M fallback fallback c d (M.Alike Fallback.mapSpans) := by
  unfold fallback
  refine .kind_cases h (fun hc value b hp => ?_) fun hsame => ?_
  · obtain ⟨t, c₀, hpeek, hp⟩ := bind_eq_ok.1 hp
    obtain ⟨rfl, rfl⟩ := EStateM.Result.ok.inj hpeek
    obtain ⟨o, c₁, hnumber, hp⟩ := bind_eq_ok.1 hp
    have hnone := number?_of_kind (e := c) (by rw [hc]; rfl)
    obtain ⟨rfl, rfl⟩ := EStateM.Result.ok.inj (hnone.symm.trans hnumber)
    cases hp
  split
  case h_1 | h_2 =>
    refine (scalarLiteral_mirrors h).bind ?_
    rintro l l' c₁ d₁ hl hrel
    exact .pure hrel (congrArg Fallback.scalar hl.1)
  case h_3 | h_4 =>
    refine .advance_bind h hsame fun hrel => .pure hrel ?_
    simp only [Mirror.Alike, Fallback.mapSpans, M.view hsame.span]
  case h_5 =>
    refine .peek_bind ((number?_mirrors h).bind ?_)
    rintro o _ c₁ d₁ rfl hrel
    rcases o with _ | n
    · exact .unexpected hrel
    · refine .pure hrel ?_
      simp only [Mirror.Alike, Fallback.mapSpans, M.view hsame.span]

/-- Constants behind the word `else` are read alike. -/
lemma fallback?_mirrors (h : M.Rel c d) :
    Mirrors M fallback? fallback? c d (Option.Rel (M.Alike Fallback.mapSpans)) := by
  unfold fallback?
  refine .eat_bind h (by simp) rfl (fun hrel => ?_) (.pure h .none)
  refine (fallback_mirrors hrel).bind ?_
  rintro value value' c₁ d₁ hvalue hrel
  exact .pure hrel (.some hvalue)

/-- What the body of a through block leads to. -/
def BodiesAlike (M : Mirror) (body body' : List LetBinding × Expression) : Prop :=
  List.Forall₂ (M.Alike LetBinding.mapSpans) body.1 body'.1
    ∧ M.Alike Expression.mapSpans body.2 body'.2

/-- Values of through blocks are read alike, where no binding stands. -/
lemma throughValue_mirrors (h : M.Rel c d) :
    Mirrors M throughValue throughValue c d (BodiesAlike M) := by
  unfold throughValue
  refine (expression_mirrors _ _ h).bind ?_
  rintro value value' c₁ d₁ hvalue hrel
  exact .pure hrel ⟨.nil, hvalue.1⟩

/-- Bodies with bounds that differ by no more than what the right input is longer.

**Proof sketch.** Induction on the bound of the left side.  Where it is spent there is nothing left
to read on the left side, so that a body is refused there; otherwise a binding takes a token. -/
lemma throughBodyUpTo_mirrors (n k : Nat) (hk : M.total → k = 0) :
    ∀ c d, c.remaining ≤ n → M.Rel c d →
      Mirrors M (throughBodyUpTo n) (throughBodyUpTo (n + k)) c d (BodiesAlike M) := by
  induction n with
  | zero =>
    intro c d hc h
    have hvalue := throughValue_mirrors h
    refine ⟨fun body b hp => ?_, fun htotal fault b hp => ?_⟩
    · have := strict_throughBodyUpTo 0 c body b hp
      omega
    · rw [hk htotal]
      exact hvalue.error htotal fault b hp
  | succ n ih =>
    intro c d hc h
    rw [Nat.add_right_comm]
    refine .of_strict h (strict_throughBodyUpTo (n + 1) c) fun hsame => ?_
    have hne (hended : M.Ended c d) : d.peek.kind ≠ .keyword .letKw := by
      rw [← hsame.kind, hended.kind]
      simp
    refine .check_cases h (by simp) hne (fun _ hlet => ?_) (throughValue_mirrors h)
    refine (letForm_mirrors h).bind_of_run ?_
    rintro (b | value) (b' | value') c₁ d₁ hrun hform hrel
    · have hlt := strict_letForm c _ c₁ hrun
      refine (ih c₁ d₁ (by omega) hrel).bind ?_
      rintro body body' c₂ d₂ ⟨hsetup, hvalue⟩ hrel
      exact .pure hrel ⟨.cons (LetForm.binding.inj hform) hsetup, hvalue⟩
    · cases hform
    · cases hform
    · exact .pure hrel ⟨.nil, LetForm.expression.inj hform⟩

/-- The bodies of through blocks are read alike. -/
lemma throughBody_mirrors (h : M.Rel c d) :
    Mirrors M throughBody throughBody c d (BodiesAlike M) := by
  obtain ⟨k, hremaining, hk⟩ := M.remaining h
  exact (throughBodyUpTo_mirrors c.remaining k hk c d le_rfl h).congr rfl
    (by rw [← hremaining]; rfl)

/-- Through blocks are read alike.

**Proof sketch.** The word `through` is there on both sides by `h`, and from it the parts are read
one behind the other.  The block that is returned has related spans because both of its ends have,
and its parts agree by what is known of their readers. -/
lemma throughBlockWith_mirrors (hpredicate : GuardMirrors M (closed predicate) (closed predicate))
    (h : M.Begins c d) :
    Mirrors M (throughBlockWith predicate) (throughBlockWith predicate) c d
      (M.Alike ThroughBlock.mapSpans) := by
  unfold throughBlockWith
  refine .expect_begins h (by simp) fun hstart hrel =>
    (throughGuardWith_mirrors hpredicate hrel).bind ?_
  rintro guard guard' c₁ d₁ hguard hrel
  refine (fallback?_mirrors hrel).bind ?_
  rintro fallback fallback' c₂ d₂ hfallback hrel
  refine .expect_bind hrel (by simp) fun _ hrel => (throughBody_mirrors hrel).bind ?_
  rintro ⟨setup, value⟩ ⟨setup', value'⟩ c₃ d₃ ⟨hsetup, hvalue⟩ hrel
  refine .expect_bind hrel (by simp) fun _ hrel => ?_
  refine .expect_bind hrel (by simp) fun hbinding hrel => ?_
  refine .spanFrom_bind hrel hstart.span fun s s' hs => .pure hrel ?_
  simp only [Mirror.Alike, ThroughBlock.mapSpans, hbinding.lexeme, M.view hs,
    Mirror.Alike.of_rel hfallback, Mirror.Alike.of_forall₂ hsetup]
  rw [hguard, hvalue]

/-- The targets of arms are read alike. -/
lemma sweepTarget_mirrors (h : M.Rel c d) :
    Mirrors M sweepTarget sweepTarget c d (M.Alike SweepTarget.mapSpans) := by
  unfold sweepTarget
  refine .check_cases h (by simp) (·.kind_ne rfl) (fun _ _ => ?_) ?_
  · refine (tineRef_mirrors h).bind ?_
    rintro tine tine' c₁ d₁ htine hrel
    exact .pure hrel (congrArg SweepTarget.tine htine.1)
  · refine .checkWord_cases h (fun hsame => ?_) (.unexpected h)
    refine .advance_bind h hsame fun hrel => .pure hrel ?_
    simp only [Mirror.Alike, SweepTarget.mapSpans, M.view hsame.span]

/-- Arms are read alike. -/
lemma sweepArm_mirrors (h : M.Rel c d) :
    Mirrors M sweepArm sweepArm c d (M.Alike SweepArm.mapSpans) := by
  unfold sweepArm
  refine .expect_bind h (by simp) fun hstart hrel => (sweepTarget_mirrors hrel).bind ?_
  rintro target target' c₁ d₁ htarget hrel
  refine .expect_bind hrel (by simp) fun _ hrel => (expression_mirrors _ _ hrel).bind ?_
  rintro value value' c₂ d₂ hvalue hrel
  refine .spanFrom_bind hrel hstart.span fun s s' hs => .pure hrel ?_
  simp only [Mirror.Alike, SweepArm.mapSpans, M.view hs]
  rw [htarget, hvalue.1]

/-- Sweeps are read alike.

**Proof sketch.** The arms are read alike as long as a bar follows; behind them an arrow is read, so
that the left input does not end there. -/
lemma sweepBlock_mirrors (h : M.Begins c d) :
    Mirrors M sweepBlock sweepBlock c d (M.Alike SweepBlock.mapSpans) := by
  have : Rounds (whenAt (.symbol .pipe) sweepArm) := rounds_whenAt strict_sweepArm (by simp)
  unfold sweepBlock
  refine .expect_begins h (by simp) fun hstart hrel => .expect_bind hrel (by simp) fun _ hrel => ?_
  -- behind the arms the left side goes on, so that it does not end where an arm could follow
  refine Mirrors.many_bind (R := M.Alike SweepArm.mapSpans) (fun c d h hsame => ?_) hrel
    (fun arms c hc block b hp => ?_) ?_
  · have hne (hended : M.Ended c d) : d.peek.kind ≠ .symbol .pipe := by
      rw [← hsame.kind, hended.kind]
      simp
    exact .whenAt h (by simp) hne fun _ => sweepArm_mirrors h
  · split at hp
    · cases hp
    · have hkind : c.peek.kind ≠ .symbol .arrow := by simp [Cursor.peek_kind_of_ahead_nil hc]
      exact absurd (kind_of_expect_bind hp) hkind
  intro arms arms' c₁ d₁ harms hrel
  have hempty : arms.isEmpty = arms'.isEmpty := by cases harms <;> rfl
  rw [← hempty]
  split
  · exact .misplaced hrel
  · refine .expect_bind hrel (by simp) fun _ hrel => ?_
    refine .expect_bind hrel (by simp) fun hbinding hrel => ?_
    refine .spanFrom_bind hrel hstart.span fun s s' hs => .pure hrel ?_
    simp only [Mirror.Alike, SweepBlock.mapSpans, hbinding.lexeme, M.view hs,
      Mirror.Alike.of_forall₂ harms]

end Sections

/-! ## Signatures -/

section Signatures

/-- The names of results are read alike. -/
lemma resultName_mirrors (h : M.Rel c d) : Mirrors M resultName resultName c d Eq := by
  unfold resultName
  exact .expect_bind h (by simp) fun hname hrel => .pure hrel hname.lexeme

/-- Results with a type are read alike. -/
lemma typedResult_mirrors {start start' : Span} (h : M.Rel c d) (hstart : M.Spans start start') :
    Mirrors M (typedResult start) (typedResult start') c d (M.Alike ResultSpec.mapSpans) := by
  unfold typedResult
  refine .expect_bind h (by simp) fun hname hrel => ?_
  refine .expect_bind hrel (by simp) fun _ hrel => (dataType_mirrors hrel).bind ?_
  rintro type type' c₁ d₁ htype hrel
  refine .expect_bind hrel (by simp) fun _ hrel => ?_
  refine .spanFrom_bind hrel hstart fun s s' hs => .pure hrel ?_
  simp only [Mirror.Alike, ResultSpec.mapSpans, Option.map_some, hname.lexeme, M.view hs]
  rw [htype]

/-- Results with several names are read alike. -/
lemma tupleResult_mirrors {start start' : Span} (h : M.Rel c d) (hstart : M.Spans start start') :
    Mirrors M (tupleResult start) (tupleResult start') c d (M.Alike ResultSpec.mapSpans) := by
  unfold tupleResult
  refine (resultName_mirrors h).bind ?_
  rintro first _ c₁ d₁ rfl hrel
  refine (Mirrors.manyAfterComma hrel fun _ _ h => resultName_mirrors h).bind ?_
  rintro others others' c₂ d₂ hothers hrel
  rw [List.forall₂_eq_eq_eq] at hothers
  refine .expect_bind hrel (by simp) fun _ hrel => ?_
  refine .spanFrom_bind hrel hstart fun s s' hs => .pure hrel ?_
  simp only [Mirror.Alike, ResultSpec.mapSpans, hothers, M.view hs]

/-- Behind the opening parenthesis both sides look at the second token ahead.  If the first one is
no name, the look does not matter, since the result is refused in any case.

**Proof sketch.** Behind a name both sides look at the same second token, or the left input ends
there and the right one goes on with no colon. -/
lemma resultInParens_mirrors {start start' : Span} (h : M.Rel c d)
    (hstart : M.Spans start start') :
    Mirrors M (resultInParens start) (resultInParens start') c d (M.Alike ResultSpec.mapSpans) := by
  have hrefused (e : Cursor) (he : e.peek.kind ≠ .ident) (s : Span) :
      (checkAhead 1 (.symbol .colon) >>= fun typed =>
        if typed = true then typedResult s else tupleResult s) e
        = (expect .ident >>= fun _ => (unexpected [] : Parser ResultSpec)) e := by
    rw [bind_of_error (expect_of_ne he),
      bind_of_ok (show checkAhead 1 (.symbol .colon) e = .ok _ e from rfl)]
    split
    · exact bind_of_error (expect_of_ne he)
    · exact bind_of_error (bind_of_error (expect_of_ne he))
  unfold resultInParens
  refine .check_cases h (by simp) (·.kind_ne rfl) (fun _ _ => .misplaced h) ?_
  by_cases hc : c.peek.kind = .ident
  · rcases Mirror.cases h with hsame | hended
    · refine .checkAhead_cases h hsame (by simp [hc]) (by simp) rfl fun typed => ?_
      cases typed
      · exact tupleResult_mirrors h hstart
      · exact typedResult_mirrors h hstart
    · rw [hended.kind] at hc
      cases hc
  · have hd : d.peek.kind ≠ .ident := by
      rcases Mirror.cases h with hsame | hended
      · exact hsame.kind ▸ hc
      · exact hended.kind_ne rfl
    exact (Mirrors.expect_bind h (by simp) fun _ hrel => .unexpected hrel).congr
      (hrefused c hc start) (hrefused d hd start')

/-- The results of routines are read alike. -/
lemma resultSpec_mirrors (h : M.Rel c d) :
    Mirrors M resultSpec resultSpec c d (M.Alike ResultSpec.mapSpans) := by
  unfold resultSpec
  refine .check_cases h (by simp) (·.kind_ne rfl) (fun hsame _ => ?_) ?_
  · refine .advance_bind h hsame fun hrel => .pure hrel ?_
    simp only [Mirror.Alike, ResultSpec.mapSpans, hsame.lexeme, M.view hsame.span, Option.map_none]
  · exact .expect_bind (f := fun t => resultInParens t.span) (g := fun t => resultInParens t.span) h
      (by simp) fun hstart hrel => resultInParens_mirrors hrel hstart.span

/-- What a signature leads to. -/
def SignaturesAlike (M : Mirror) (s s' : List Parameter × ResultSpec) : Prop :=
  List.Forall₂ (M.Alike Parameter.mapSpans) s.1 s'.1 ∧ M.Alike ResultSpec.mapSpans s.2 s'.2

/-- Parameters and results are read alike. -/
lemma signature_mirrors (h : M.Rel c d) :
    Mirrors M Parser.signature Parser.signature c d (SignaturesAlike M) := by
  unfold Parser.signature
  refine (parameters_mirrors h).bind ?_
  rintro params params' c₁ d₁ hparams hrel
  refine .expect_bind hrel (by simp) fun _ hrel => (resultSpec_mirrors hrel).bind ?_
  rintro result result' c₂ d₂ hresult hrel
  exact .expect_bind hrel (by simp) fun _ hrel => .pure hrel ⟨hparams, hresult⟩

end Signatures

/-! ## Records and types -/

section Records

/-- The fields of records are read alike. -/
lemma fieldDef_mirrors (h : M.Rel c d) :
    Mirrors M fieldDef fieldDef c d (M.Alike FieldDef.mapSpans) := by
  unfold fieldDef
  refine .expect_bind h (by simp) fun hname hrel => ?_
  refine .expect_bind hrel (by simp) fun _ hrel => (dataType_mirrors hrel).bind ?_
  rintro type type' c₁ d₁ htype hrel
  refine .spanFrom_bind hrel hname.span fun s s' hs => .pure hrel ?_
  simp only [Mirror.Alike, FieldDef.mapSpans, hname.lexeme, M.view hs]
  rw [htype]

/-- A reader of definitions begins with the token at the cursors, behind which they are related. -/
def BehindMirrors {α : Type} (M : Mirror) (p : Parser α) (mapSpans : (Span → Span) → α → α)
    (c d : Cursor) : Prop :=
  M.Same c d → M.Rel c.advance d.advance → Mirrors M p p c d (M.Alike mapSpans)

/-- Records are read alike behind their first word. -/
lemma recordDef_mirrors : BehindMirrors M recordDef RecordDef.mapSpans c d := by
  intro hstart hrel
  unfold recordDef
  refine .behind_bind ?_
  refine .expect_bind hrel (by simp) fun hname hrel => ?_
  refine .expect_bind hrel (by simp) fun _ hrel => ?_
  refine (Mirrors.commaSeparated hrel (by simp) rfl fun _ _ h => fieldDef_mirrors h).bind ?_
  rintro fields fields' c₁ d₁ hfields hrel
  refine .expect_bind hrel (by simp) fun _ hrel => ?_
  refine .spanFrom_bind hrel hstart.span fun s s' hs => .pure hrel ?_
  simp only [Mirror.Alike, RecordDef.mapSpans, hname.lexeme, M.view hs,
    Mirror.Alike.of_forall₂ hfields]

/-- Names for types are read alike behind their first word. -/
lemma typeAlias_mirrors : BehindMirrors M typeAlias TypeAlias.mapSpans c d := by
  intro hstart hrel
  unfold typeAlias
  refine .behind_bind ?_
  refine .expect_bind hrel (by simp) fun hname hrel => ?_
  refine .expect_bind hrel (by simp) fun _ hrel => (dataType_mirrors hrel).bind ?_
  rintro type type' c₁ d₁ htype hrel
  refine .spanFrom_bind hrel hstart.span fun s s' hs => .pure hrel ?_
  simp only [Mirror.Alike, TypeAlias.mapSpans, hname.lexeme, M.view hs]
  rw [htype]

end Records

/-! ## Routines -/

section Routines

/-- A body ends on both sides or goes on with the same statement. -/
lemma bodyStatement_mirrors [M.EndsAtDefinitions] (h : M.Rel c d) :
    Mirrors M bodyStatement bodyStatement c d (Option.Rel (M.Alike Statement.mapSpans)) := by
  have hboundary := Mirror.atDefinitionBoundary_eq h
  by_cases hc : c.atDefinitionBoundary = true
  · exact (Mirrors.pure h .none).congr (if_pos hc) (if_pos (hboundary ▸ hc))
  · refine Mirrors.congr ?_ (if_neg hc) (if_neg (hboundary ▸ hc))
    rw [map_eq_pure_bind]
    refine (statement_mirrors h).bind ?_
    rintro s s' c₁ d₁ hs hrel
    exact .pure hrel (.some hs)

/-- Routines are read alike behind their first word. -/
theorem routine_mirrors [M.EndsAtDefinitions] : BehindMirrors M routine Routine.mapSpans c d := by
  intro hstart hrel
  unfold routine
  refine .behind_bind ?_
  refine .expect_bind hrel (by simp) fun hname hrel => (signature_mirrors hrel).bind ?_
  rintro ⟨params, result⟩ ⟨params', result'⟩ c₁ d₁ ⟨hparams, hresult⟩ hrel
  refine (Mirrors.many (fun _ _ h => bodyStatement_mirrors h) hrel).bind ?_
  rintro body body' c₂ d₂ hbody hrel
  refine .spanFrom_bind hrel hstart.span fun s s' hs => .pure hrel ?_
  simp only [Mirror.Alike, Routine.mapSpans, hname.lexeme, M.view hs,
    Mirror.Alike.of_forall₂ hparams, Mirror.Alike.of_forall₂ hbody]
  rw [hresult]

end Routines

/-! ## Rakes -/

section Rakes

variable [Lowers predicate] [M.EndsAtDefinitions] (rake : String)

/-- The tines of a rake are read alike.

**Proof sketch.** The loop of tines is mirrored round by round, each of which consumes the bar at
least.  The lists on both sides have as many members, so the check for an empty list and the look at
a stray binding take the same branch. -/
lemma tinesWith_mirrors (hpredicate : GuardMirrors M (closed predicate) (closed predicate))
    (h : M.Rel c d) : Mirrors M (tinesWith predicate rake) (tinesWith predicate rake) c d
      (List.Forall₂ (M.Alike TineDecl.mapSpans)) := by
  have hlowers : Lowers (tineDeclWith predicate) := by unfold tineDeclWith; infer_instance
  have hstrict (c : Cursor) : Strict (tineDeclWith predicate) c := (strict_expect (by simp)).bind
  have : Rounds (whenAt (.symbol .pipe) (tineDeclWith predicate)) := rounds_whenAt hstrict (by simp)
  unfold tinesWith
  refine (Mirrors.many (fun _ _ h => .whenAt h (by simp) (·.kind_ne_of_definition rfl) fun _ =>
    tineDeclWith_mirrors hpredicate (.inl h)) h).bind ?_
  rintro tines tines' c₁ d₁ htines hrel
  have hempty : tines.isEmpty = tines'.isEmpty := by cases htines <;> rfl
  rw [← hempty]
  split
  · exact .misplaced hrel
  · exact .check_cases hrel (by simp) (·.kind_ne_of_definition rfl) (fun _ _ => .misplaced hrel)
      (.pure hrel htines)

/-- The through blocks of a rake are read alike.

**Proof sketch.** As in `tinesWith_mirrors`: a round consumes the word `through`, and the check
for an empty list takes the same branch on both sides. -/
lemma throughsWith_mirrors (hpredicate : GuardMirrors M (closed predicate) (closed predicate))
    (h : M.Rel c d) : Mirrors M (throughsWith predicate rake) (throughsWith predicate rake) c d
      (List.Forall₂ (M.Alike ThroughBlock.mapSpans)) := by
  have hguard : Lowers (throughGuardWith predicate) := by
    unfold throughGuardWith
    refine @Lowers.bind _ _ _ _ _ fun kind => ?_
    split <;> infer_instance
  have hlowers : Lowers (throughBlockWith predicate) := by unfold throughBlockWith; infer_instance
  have hstrict (c : Cursor) : Strict (throughBlockWith predicate) c :=
    (strict_expect (by simp)).bind
  have : Rounds (whenAt (.keyword .through) (throughBlockWith predicate)) :=
    rounds_whenAt hstrict (by simp)
  unfold throughsWith
  refine (Mirrors.many (fun _ _ h => .whenAt h (by simp) (·.kind_ne_of_definition rfl) fun _ =>
    throughBlockWith_mirrors hpredicate (.inl h)) h).bind ?_
  rintro throughs throughs' c₁ d₁ hthroughs hrel
  have hempty : throughs.isEmpty = throughs'.isEmpty := by cases hthroughs <;> rfl
  rw [← hempty]
  split
  · exact .misplaced hrel
  · exact .pure hrel hthroughs

omit [Lowers predicate] in
/-- The sweep of a rake is read alike. -/
lemma sweep_mirrors (h : M.Rel c d) :
    Mirrors M (sweep rake) (sweep rake) c d (M.Alike SweepBlock.mapSpans) := by
  unfold sweep
  refine .kind_cases h (fun _ _ _ hp => nomatch hp) fun _ => ?_
  split
  · refine (sweepBlock_mirrors (.inl h)).bind ?_
    rintro block block' c₁ d₁ hblock hrel
    exact .check_cases hrel (by simp) (·.kind_ne_of_definition rfl) (fun _ _ => .misplaced hrel)
      (.pure hrel hblock)
  · exact .misplaced h
  · exact .misplaced h

omit rake in
/-- Rakes are read alike behind their first word.

**Proof sketch.** Section by section, each of which is read alike and leaves related cursors. -/
theorem rakeDefWith_mirrors (hpredicate : GuardMirrors M (closed predicate) (closed predicate)) :
    BehindMirrors M (rakeDefWith predicate) RakeDef.mapSpans c d := by
  intro hstart hrel
  have : Rounds (whenAt (.keyword .letKw) letBinding) := rounds_whenAt strict_letBinding (by simp)
  unfold rakeDefWith
  refine .behind_bind ?_
  refine .expect_bind hrel (by simp) fun hname hrel => (signature_mirrors hrel).bind ?_
  rintro ⟨params, result⟩ ⟨params', result'⟩ c₁ d₁ ⟨hparams, hresult⟩ hrel
  refine (Mirrors.many (R := M.Alike LetBinding.mapSpans) (fun _ _ h => .whenAt h (by simp)
    (·.kind_ne_of_definition rfl) fun _ => (letBinding_mirrors (.inl h)).imp fun _ _ hb => hb.1)
    hrel).bind ?_
  rintro setup setup' c₂ d₂ hsetup hrel
  rw [← hname.lexeme]
  refine (tinesWith_mirrors _ hpredicate hrel).bind ?_
  rintro tines tines' c₃ d₃ htines hrel
  refine (throughsWith_mirrors _ hpredicate hrel).bind ?_
  rintro throughs throughs' c₄ d₄ hthroughs hrel
  refine (sweep_mirrors _ hrel).bind ?_
  rintro sweep sweep' c₅ d₅ hsweep hrel
  refine .spanFrom_bind hrel hstart.span fun s s' hs => .pure hrel ?_
  simp only [Mirror.Alike, RakeDef.mapSpans, M.view hs, Mirror.Alike.of_forall₂ hparams,
    Mirror.Alike.of_forall₂ hsetup, Mirror.Alike.of_forall₂ htines,
    Mirror.Alike.of_forall₂ hthroughs]
  rw [hresult, hsweep]

end Rakes

/-! ## Definitions -/

/-- **Definitions mirror each other.**

**Proof sketch.** The word at the head is the same on both sides and tells the definition; each
of them mirrors itself. -/
theorem definitionWith_mirrors [Lowers predicate] [M.EndsAtDefinitions]
    (hpredicate : GuardMirrors M (closed predicate) (closed predicate))
    (hopens : c.peek.kind.opensDefinition = true) :
    BehindMirrors M (definitionWith predicate) Definition.mapSpans c d := by
  intro hsame hrel
  unfold definitionWith
  refine .peekKind_bind ?_
  rw [← hsame.kind]
  split
  · refine (recordDef_mirrors hsame hrel).bind ?_
    rintro r r' c₁ d₁ hr hrel
    exact .pure hrel (congrArg Definition.stack hr)
  · refine (recordDef_mirrors hsame hrel).bind ?_
    rintro r r' c₁ d₁ hr hrel
    exact .pure hrel (congrArg Definition.single hr)
  · refine (typeAlias_mirrors hsame hrel).bind ?_
    rintro r r' c₁ d₁ hr hrel
    exact .pure hrel (congrArg Definition.type hr)
  · refine (routine_mirrors hsame hrel).bind ?_
    rintro r r' c₁ d₁ hr hrel
    exact .pure hrel (congrArg Definition.crunch hr)
  · refine (rakeDefWith_mirrors hpredicate hsame hrel).bind ?_
    rintro r r' c₁ d₁ hr hrel
    exact .pure hrel (congrArg Definition.rake hr)
  · refine (routine_mirrors hsame hrel).bind ?_
    rintro r r' c₁ d₁ hr hrel
    exact .pure hrel (congrArg Definition.run hr)
  · rename_i h₁ h₂ h₃ h₄ h₅ h₆
    unfold Kind.opensDefinition at hopens
    split at hopens <;> contradiction

end RakeLang.Parser
