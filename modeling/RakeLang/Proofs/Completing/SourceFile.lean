import RakeLang.Proofs.Completing.Definition
import RakeLang.SourceFile.Parse

/-!
# Reading source files is complete

Every list of canonical definitions is read from each of its plain spellings.  Nothing but the
definitions themselves tells where one of them ends and the next one begins.

## Main results

* `RakeLang.attemptsUpTo_complete` — the attempts at the definitions of a file.
* `RakeLang.parseTokens_complete` — source files.
-/

set_option relaxedAutoImplicit false
set_option autoImplicit false

namespace RakeLang

open Spelling

/-- In front of a row of definitions, and behind the last one, a definition ends. -/
lemma atBoundary_definitions (ds : List Definition) :
    AtBoundary (ds.foldr Definition.spellingBefore 1) := by
  cases ds with
  | nil => exact atBoundary_one
  | cons d ds => exact d.atBoundary _

/-- Each attempt at the definitions that are spelled by the tokens ahead gives one of them.

**Proof sketch.** Induction on the definitions.  A definition that is read lowers what remains
ahead, so that the bound allows for the next one. -/
theorem attemptsUpTo_complete (mode : ErrorMode) {ds : List Definition}
    (hds : ∀ d ∈ ds, d.Canonical) :
    ∀ (n : Nat) (c : Cursor), c.remaining ≤ n → c.ahead ∈ ds.foldr Definition.spellingBefore 1 →
      (attemptsUpTo mode n c).1.filterMap Attempt.fault? = []
        ∧ ((attemptsUpTo mode n c).1.filterMap Attempt.definition?).map Definition.withoutSpans
          = ds.map Definition.withoutSpans := by
  induction ds with
  | nil =>
    intro n c _ hc
    have hnil : c.ahead = [] := hc
    have hend : c.atEnd = true := by simp [Cursor.atEnd, Cursor.peek_kind_of_ahead_nil hnil]
    have hnone : attemptsUpTo mode n c = ([], c) := by
      cases n with
      | zero => rfl
      | succ n => rw [attemptsUpTo, if_pos hend]
    simp [hnone]
  | cons d ds ih =>
    intro n c hn hc
    obtain ⟨d', c', hdef, hd', hc'⟩ :=
      Parser.definition_leads (hds d (by simp)) (atBoundary_definitions ds) c hc
    have hlt : c'.remaining < c.remaining := Parser.strict_definition c d' c' hdef
    have hend : ¬ c.atEnd = true := fun hend =>
      Parser.ne_of_opensDefinition (Parser.opens_of_definition hdef) rfl (beq_iff_eq.1 hend)
    obtain ⟨n, rfl⟩ : ∃ m, n = m + 1 := Nat.exists_eq_succ_of_ne_zero (by omega)
    obtain ⟨hfaults, hdefinitions⟩ := ih (fun d hd => hds d (by simp [hd])) n c' (by omega) hc'
    rw [attemptsUpTo, if_neg hend, hdef]
    refine ⟨by simpa [Attempt.fault?] using hfaults, ?_⟩
    simpa [Attempt.definition?, Except.toOption, hd'] using hdefinitions

/-- **Reading source files is complete.**  Where canonical definitions are spelled with plain
guards, and no token behind the value of a statement or of a binding goes on with it, the tokens are
read as these definitions, up to spans. -/
theorem parseTokens_complete {f : SourceFile} {ts : List Token} {eof : Token}
    (hcan : ∀ d ∈ f.definitions, d.Canonical) (hts : ts ∈ f.plainSpelling)
    (heof : eof.kind = .eof) :
    ∃ file, parseTokens (ts ++ [eof]) = .ok file
      ∧ file.definitions.map Definition.withoutSpans
        = f.definitions.map Definition.withoutSpans := by
  obtain ⟨hfaults, hdefinitions⟩ :=
    attemptsUpTo_complete .failFast hcan _ ⟨[], ts, eof, heof⟩ le_rfl hts
  refine ⟨(readDefinitions .failFast ⟨[], ts, eof, heof⟩).file, ?_, hdefinitions⟩
  have hnone : (readDefinitions .failFast ⟨[], ts, eof, heof⟩).faults = [] := hfaults
  rw [parseTokens, Cursor.ofTokens_append heof]
  simp only [hnone]

/-- A rake with a binding, and a routine of two statements behind it, are read from their tokens. -/
theorem parseTokens_complete_rake :
    ∃ file', parseTokens (
    [⟨.keyword .rake, "rake", .origin⟩, ⟨.ident, "f", .origin⟩, ⟨.ident, "x", .origin⟩,
      ⟨.symbol .arrow, "->", .origin⟩, ⟨.ident, "y", .origin⟩, ⟨.symbol .colon, ":", .origin⟩,
      ⟨.keyword .letKw, "let", .origin⟩, ⟨.ident, "k", .origin⟩, ⟨.symbol .equal, "=", .origin⟩,
      ⟨.ident, "x", .origin⟩, ⟨.symbol .pipe, "|", .origin⟩, ⟨.tineRef, "#a", .origin⟩,
      ⟨.symbol .define, ":=", .origin⟩, ⟨.symbol .lParen, "(", .origin⟩,
      ⟨.keyword .true, "true", .origin⟩, ⟨.symbol .rParen, ")", .origin⟩,
      ⟨.keyword .through, "through", .origin⟩, ⟨.tineRef, "#a", .origin⟩,
      ⟨.symbol .colon, ":", .origin⟩, ⟨.ident, "k", .origin⟩, ⟨.symbol .arrow, "->", .origin⟩,
      ⟨.ident, "u", .origin⟩, ⟨.keyword .sweep, "sweep", .origin⟩, ⟨.symbol .colon, ":", .origin⟩,
      ⟨.symbol .pipe, "|", .origin⟩, ⟨.tineRef, "#a", .origin⟩, ⟨.symbol .arrow, "->", .origin⟩,
      ⟨.ident, "u", .origin⟩, ⟨.symbol .arrow, "->", .origin⟩, ⟨.ident, "y", .origin⟩,
      ⟨.keyword .run, "run", .origin⟩, ⟨.ident, "g", .origin⟩, ⟨.ident, "x", .origin⟩,
      ⟨.symbol .arrow, "->", .origin⟩, ⟨.ident, "y", .origin⟩, ⟨.symbol .colon, ":", .origin⟩,
      ⟨.keyword .letKw, "let", .origin⟩, ⟨.ident, "k", .origin⟩, ⟨.symbol .equal, "=", .origin⟩,
      ⟨.ident, "x", .origin⟩, ⟨.ident, "y", .origin⟩, ⟨.symbol .leftArrow, "<-", .origin⟩,
      ⟨.ident, "k", .origin⟩] ++ [⟨.eof, "", .origin⟩]) = .ok file'
      ∧ file'.definitions.map Definition.withoutSpans
        = ([.rake ⟨"f", [.rack "x" none .origin], .single "y" none .origin,
            [⟨"k", none, .ident "x" .origin, .origin⟩],
            [⟨⟨"a", .origin⟩, .const true .origin, .origin⟩],
            [⟨.tine ⟨"a", .origin⟩, none, [], .ident "k" .origin, "u", .origin⟩],
            ⟨[⟨.tine ⟨"a", .origin⟩, .ident "u" .origin, .origin⟩], "y", .origin⟩, .origin⟩,
          .run ⟨"g", [.rack "x" none .origin], .single "y" none .origin,
            [.letBinding ⟨"k", none, .ident "x" .origin, .origin⟩,
              .assign "y" (.ident "k" .origin) .origin], .origin⟩] : List Definition).map
          Definition.withoutSpans := by
  have hident (name : String) : (Expression.ident name .origin).Canonical := by
    rw [Expression.Canonical, Expression.Everywhere]
    · exact ⟨trivial, trivial⟩
    all_goals simp
  have hrake : RakeDef.Canonical ⟨"f", [.rack "x" none .origin], .single "y" none .origin,
      [⟨"k", none, .ident "x" .origin, .origin⟩],
      [⟨⟨"a", .origin⟩, .const true .origin, .origin⟩],
      [⟨.tine ⟨"a", .origin⟩, none, [], .ident "k" .origin, "u", .origin⟩],
      ⟨[⟨.tine ⟨"a", .origin⟩, .ident "u" .origin, .origin⟩], "y", .origin⟩, .origin⟩ := {
    params := by simp [Parameter.Canonical]
    result := by simp [ResultSpec.Canonical]
    setup := by simpa using ⟨by simp, hident "x"⟩
    tines_ne_nil := by simp
    tines := by simp [Predicate.Canonical]
    throughs_ne_nil := by simp
    throughs := by simpa using ⟨trivial, by simp, hident "k"⟩
    sweep := ⟨by simp, by simpa using hident "u"⟩ }
  have hroutine : Routine.Canonical ⟨"g", [.rack "x" none .origin], .single "y" none .origin,
      [.letBinding ⟨"k", none, .ident "x" .origin, .origin⟩,
        .assign "y" (.ident "k" .origin) .origin], .origin⟩ := {
    params := by simp [Parameter.Canonical]
    result := by simp [ResultSpec.Canonical]
    body := by simpa using ⟨⟨by simp, hident "x"⟩, hident "k"⟩ }
  have hends {kind : Kind} {lexeme : String} {rest : List Token}
      (h : kind = .symbol .pipe ∨ kind = .ident) :
      EndsExpression (⟨kind, lexeme, .origin⟩ :: rest) := by
    rcases h with rfl | rfl <;> exact endsExpression_of_kind rfl rfl rfl (by simp) (by simp) rfl
  have hnil : EndsExpression [] := endsExpression_of_headKind (by simp)
  refine parseTokens_complete (f := ⟨_, .origin⟩) (by simpa using ⟨hrake, hroutine⟩) ?_ rfl
  simp [SourceFile.plainSpelling, Definition.spellingBefore, RakeDef.spellingBefore,
    Routine.spellingBefore, Spelling.signature, Parameter.spelling, ResultSpec.spelling,
    LetBinding.spellingBefore, LetBinding.spelling, ascription, Expression.spelling,
    TineDecl.plainSpelling, Predicate.plainSpelling, truth, ThroughBlock.spellingBefore,
    ThroughGuard.plainSpelling, alternative, SweepBlock.spelling, SweepArm.spelling,
    SweepTarget.spelling, TineRef.spelling, Statement.spellingBefore, Statement.spelling, sign,
    keyword, word, mul_assoc, mem_ending, hends, hnil]

end RakeLang
