import Mathlib.Data.List.Infix
import RakeLang.SourceFile.Parse

/-!
# The first fault

A source can be read up to its first fault, or to its end with all faults collected; and its tokens
can be made one after the other or all in advance.  All these readings tell the same first fault,
and none of them gives another file where there is no fault.

## Main results

* `RakeLang.attemptsUpTo_failFast` — to stop at a fault is to cut off the attempts behind it.
* `RakeLang.tokenize_eq` — the tokens of a text, or the first of its unrecognised characters.
* `RakeLang.parse_modes_agree` — the ways to read a source file agree.
-/

set_option relaxedAutoImplicit false
set_option autoImplicit false

namespace RakeLang

/-! ## Attempts -/

/-- The attempts up to the first fault are the first ones of all attempts, and they end with the
first fault of all.  Where they have no fault they are all attempts.

**Proof sketch.** Induction on the bound: the two readings go the same way behind a definition, and
behind a fault the one that stops has nothing more. -/
theorem attemptsUpTo_failFast (n : Nat) :
    ∀ c : Cursor, (attemptsUpTo .failFast n c).1 <+: (attemptsUpTo .collectAll n c).1
      ∧ (attemptsUpTo .failFast n c).1.filterMap Attempt.fault?
        = ((attemptsUpTo .collectAll n c).1.filterMap Attempt.fault?).take 1
      ∧ ((attemptsUpTo .collectAll n c).1.filterMap Attempt.fault? = [] →
        attemptsUpTo .failFast n c = attemptsUpTo .collectAll n c) := by
  induction n with
  | zero => exact fun c => ⟨List.prefix_rfl, rfl, fun _ => rfl⟩
  | succ n ih =>
    intro c
    rw [attemptsUpTo, attemptsUpTo]
    by_cases hend : c.atEnd = true
    · simp only [if_pos hend]
      exact ⟨List.prefix_rfl, rfl, fun _ => trivial⟩
    · rw [if_neg hend, if_neg hend]
      rcases Parser.definition c with ⟨d, behind⟩ | ⟨fault, behind⟩
      · obtain ⟨hinitial, hfaults, hall⟩ := ih behind
        refine ⟨List.cons_prefix_cons.2 ⟨rfl, hinitial⟩, hfaults, fun hnone => ?_⟩
        have hsame := hall hnone
        simp only [hsame]
      · refine ⟨List.cons_prefix_cons.2 ⟨rfl, List.nil_prefix⟩, rfl, fun hnone => ?_⟩
        cases hnone

/-! ## Tokens -/

/-- Where each item is a token the items are read as tokens; otherwise the first unrecognised
character is told. -/
lemma LexItem.mapM_toExcept (items : List LexItem) :
    items.mapM toExcept =
      match items.filterMap fault? with
      | [] => .ok (items.filterMap token?)
      | fault :: _ => .error fault := by
  induction items with
  | nil => rfl
  | cons item items ih =>
    rw [List.mapM_cons, ih]
    rcases item with t | ⟨char, span⟩
    · have hfaults : (token t :: items).filterMap fault? = items.filterMap fault? := rfl
      have htokens : (token t :: items).filterMap token? = t :: items.filterMap token? := rfl
      rw [hfaults, htokens]
      rcases items.filterMap fault? with _ | ⟨fault, faults⟩ <;> rfl
    · rfl

/-- The tokens of a text, or the first of its unrecognised characters. -/
theorem tokenize_eq (source : String) :
    tokenize source =
      match (lex source).filterMap LexItem.fault? with
      | [] => .ok ((lex source).filterMap LexItem.token?)
      | fault :: _ => .error fault :=
  LexItem.mapM_toExcept (lex source)

/-! ## Source files -/

/-- The readings of the definitions from a cursor on, up to the first fault and with all faults. -/
lemma readDefinitions_failFast (c : Cursor) :
    let stopped := readDefinitions .failFast c
    let whole := readDefinitions .collectAll c
    stopped.file.definitions <+: whole.file.definitions ∧ stopped.faults = whole.faults.take 1
      ∧ (whole.faults = [] → stopped = whole) := by
  obtain ⟨hinitial, hfaults, hall⟩ := attemptsUpTo_failFast c.remaining c
  refine ⟨hinitial.filterMap Attempt.definition?, hfaults, fun hnone => ?_⟩
  have hsame : attempts .failFast c = attempts .collectAll c := hall hnone
  simp only [readDefinitions, hsame]

section ParseSource

variable {sourceId source : String}

/-- Without an unrecognised character a source is read as its tokens are. -/
lemma parseSource_of_lexical_nil {mode : ErrorMode}
    (h : (lex source).filterMap LexItem.fault? = []) :
    parseSource sourceId source mode =
      ⟨(readDefinitions mode (.ofTokens ((lex source).filterMap LexItem.token?))).file, ⟨sourceId,
        (readDefinitions mode (.ofTokens ((lex source).filterMap LexItem.token?))).faults⟩⟩ := by
  simp only [parseSource, h, List.nil_append]

/-- A reading that stops at a fault stops at the first unrecognised character. -/
lemma parseSource_of_lexical_cons {fault : Fault} {faults : List Fault}
    (h : (lex source).filterMap LexItem.fault? = fault :: faults) :
    parseSource sourceId source .failFast = ⟨⟨[], .origin⟩, ⟨sourceId, [fault]⟩⟩ := by
  simp only [parseSource, h]

/-- To parse a source is to read it up to the first fault, and to tell the fault or the file. -/
lemma parse_eq_failFast :
    parse source =
      match (parseSource sourceId source .failFast).diagnostics.faults with
      | [] => .ok (parseSource sourceId source .failFast).file
      | fault :: _ => .error fault := by
  rw [parse, tokenize_eq]
  rcases hlexical : (lex source).filterMap LexItem.fault? with _ | ⟨fault, faults⟩
  · rw [parseSource_of_lexical_nil hlexical]
    rcases hfaults : (readDefinitions .failFast
      (.ofTokens ((lex source).filterMap LexItem.token?))).faults with _ | ⟨fault, faults⟩
    all_goals simp only [Except.bind, parseTokens, hfaults]
  · rw [parseSource_of_lexical_cons hlexical]
    simp only [Except.bind]

/-- The two readings of a source, up to the first fault and with all faults.

**Proof sketch.** By the first unrecognised character.  With one, the reading that stops at it gives
nothing else; without one, both readings attempt the same tokens, and to stop at a fault is to cut
off the attempts behind it (`attemptsUpTo_failFast`). -/
lemma parseSource_failFast (sourceId source : String) :
    (parseSource sourceId source .failFast).diagnostics.faults
        = (parseSource sourceId source .collectAll).diagnostics.faults.take 1
      ∧ (parseSource sourceId source .failFast).file.definitions
        <+: (parseSource sourceId source .collectAll).file.definitions
      ∧ ((parseSource sourceId source .collectAll).diagnostics.faults = [] →
        (parseSource sourceId source .failFast).file
          = (parseSource sourceId source .collectAll).file)
      ∧ ∀ fault, ((lex source).filterMap LexItem.fault?).head? = some fault →
        (parseSource sourceId source .collectAll).diagnostics.faults.head? = some fault
          ∧ (parseSource sourceId source .failFast).file.definitions = [] := by
  rcases hlexical : (lex source).filterMap LexItem.fault? with _ | ⟨fault, faults⟩
  · obtain ⟨hinitial, hfaults, hall⟩ :=
      readDefinitions_failFast (.ofTokens ((lex source).filterMap LexItem.token?))
    rw [parseSource_of_lexical_nil hlexical, parseSource_of_lexical_nil hlexical]
    dsimp only
    exact ⟨hfaults, hinitial, fun hnone => congrArg FileReading.file (hall hnone),
      fun fault h => nomatch h⟩
  · have hwhole : (parseSource sourceId source .collectAll).diagnostics.faults = fault :: (faults
        ++ (readDefinitions .collectAll
          (.ofTokens ((lex source).filterMap LexItem.token?))).faults) := by
      simp only [parseSource, hlexical, List.cons_append]
    rw [parseSource_of_lexical_cons hlexical, hwhole]
    exact ⟨rfl, List.nil_prefix, fun hnone => (List.cons_ne_nil _ _ hnone).elim,
      fun other h => ⟨h, rfl⟩⟩

end ParseSource

/-- The ways to read a source file agree.

* The fault of a reading that stops at a fault, if there is one, is the first one of the reading
  that collects all faults, and its definitions are the first ones of this reading.
* Without a fault both give the same file, and the source parses as this file; otherwise the first
  fault is what parsing the source tells.
* The first unrecognised character of the source comes before all other faults, and where there is
  one the reading that stops at it has no definition.

**Proof sketch.** The two readings of the source are compared (`parseSource_failFast`), and
parsing tells the first fault of the one that stops (`parse_eq_failFast`). -/
theorem parse_modes_agree (sourceId source : String) :
    (parseSource sourceId source .failFast).diagnostics.faults
        = (parseSource sourceId source .collectAll).diagnostics.faults.take 1
      ∧ (parseSource sourceId source .failFast).file.definitions
        <+: (parseSource sourceId source .collectAll).file.definitions
      ∧ ((parseSource sourceId source .collectAll).diagnostics.faults = []
        ↔ (parseSource sourceId source .failFast).diagnostics.faults = [])
      ∧ ((parseSource sourceId source .collectAll).diagnostics.faults = [] →
        (parseSource sourceId source .failFast).file
            = (parseSource sourceId source .collectAll).file
          ∧ parse source = .ok (parseSource sourceId source .collectAll).file)
      ∧ (∀ fault,
        (parseSource sourceId source .collectAll).diagnostics.faults.head? = some fault →
        parse source = .error fault)
      ∧ ∀ fault, ((lex source).filterMap LexItem.fault?).head? = some fault →
        (parseSource sourceId source .collectAll).diagnostics.faults.head? = some fault
          ∧ (parseSource sourceId source .failFast).file.definitions = [] := by
  have hparse := @parse_eq_failFast sourceId source
  obtain ⟨hfaults, hinitial, hsame, hlexical⟩ := parseSource_failFast sourceId source
  generalize parseSource sourceId source .failFast = stopped at *
  generalize parseSource sourceId source .collectAll = whole at *
  refine ⟨hfaults, hinitial, ?_, fun hnone => ⟨hsame hnone, ?_⟩, fun fault hfault => ?_, hlexical⟩
  · rw [hfaults, List.take_eq_nil_iff]
    simp
  · rw [hparse, hfaults, hnone, ← hsame hnone]
    rfl
  · obtain ⟨more, hmore⟩ := List.head?_eq_some_iff.1 hfault
    rw [hparse, hfaults, hmore]
    rfl

end RakeLang
