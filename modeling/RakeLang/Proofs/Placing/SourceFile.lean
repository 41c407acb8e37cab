import RakeLang.Proofs.Placing.Node
import RakeLang.Proofs.Placing.Token
import RakeLang.Proofs.Reading.SourceFile

/-!
# Spans are exact

The parts of a source file stand where their spans say.  The tokens of a text stand one behind the
other and stay so when they are split, each definition spells some of them at its place, and so do
all parts of it.  A fault shows at one of the tokens, or at an unrecognised character.

## Main definitions

* `RakeLang.Node.Exact` — what the span of a part tells, and how the spans of its children lie.

## Main results

* `RakeLang.attemptsUpTo_places` — the definitions of a row of attempts stand in a row, and its
  faults show at tokens.
* `RakeLang.parseSource_exact` — the spans of a source file and of its faults are exact.
-/

set_option relaxedAutoImplicit false
set_option autoImplicit false

namespace RakeLang

open Spelling Token

/-! ## Going on behind a fault -/

namespace Cursor

variable {c : Cursor}

/-- To advance is to read a token, or nothing at the end of the input. -/
lemma exists_reads_advance (c : Cursor) : ∃ read, c.Reads SplitsTo read c.advance := by
  rcases hc : c.ahead with _ | ⟨t, ts⟩
  · have hstay : c.advance = c := by simp [advance, hc]
    rw [hstay]
    exact ⟨[], .refl c⟩
  · refine ⟨[t], Reads.of_eq ⟨?_, ?_, ?_⟩⟩
    all_goals simp [advance, hc]

/-- At the end of the input a body ends. -/
lemma atDefinitionBoundary_of_ahead_nil (hc : c.ahead = []) : c.atDefinitionBoundary = true := by
  simp [atDefinitionBoundary, atEnd, peek_kind_of_ahead_nil hc]

/-- Skipping stays where a definition can begin or the input ends, and else goes on behind the next
token. -/
lemma skipToDefinition_eq (c : Cursor) : c.skipToDefinition
    = if c.atDefinitionBoundary then c else c.advance.skipToDefinition := by
  rcases h : c.ahead with _ | ⟨t, ts⟩
  · rw [if_pos (atDefinitionBoundary_of_ahead_nil h)]
    simp [skipToDefinition, skipToDefinition.go, h]
  · have hadvance : c.advance.ahead = ts := by simp [advance, h]
    simp only [skipToDefinition, h, List.length_cons, skipToDefinition.go, hadvance]

/-- What holds where skipping stays, and in front of each token that is skipped, holds of skipping
as a whole.

**Proof sketch.** By induction on the number of tokens ahead.  Without any the cursor stands at a
boundary, since the end of the input is one.  Otherwise it stays, or goes on behind one token, with
one fewer ahead. -/
lemma skipToDefinition_induction {P : Cursor → Cursor → Prop}
    (hstay : ∀ c, c.atDefinitionBoundary = true → P c c)
    (hskip : ∀ c c', c.atDefinitionBoundary = false → P c.advance c' → P c c') (c : Cursor) :
    P c c.skipToDefinition := by
  induction hlength : c.ahead.length generalizing c with
  | zero =>
    have hboundary := atDefinitionBoundary_of_ahead_nil (List.length_eq_zero_iff.1 hlength)
    rw [skipToDefinition_eq, if_pos hboundary]
    exact hstay c hboundary
  | succ k ih =>
    have hadvance : c.advance.ahead.length = k := by
      obtain ⟨t, ts, hts⟩ := List.exists_cons_of_length_eq_add_one hlength
      simpa [advance, hts] using hlength
    rw [skipToDefinition_eq]
    split
    · exact hstay c ‹_›
    · rename_i hboundary
      exact hskip c _ (Bool.eq_false_iff.2 hboundary) (ih c.advance hadvance)

/-- Skipping to a definition is a reading. -/
lemma exists_reads_skipToDefinition (c : Cursor) :
    ∃ read, c.Reads SplitsTo read c.skipToDefinition := by
  refine skipToDefinition_induction (P := fun c c' => ∃ read, c.Reads SplitsTo read c')
    (fun c _ => ⟨[], .refl c⟩) (fun c c' _ h => ?_) c
  obtain ⟨ts, hts⟩ := c.exists_reads_advance
  obtain ⟨us, hus⟩ := h
  exact ⟨ts ++ us, hts.trans hus⟩

/-- To go on behind a fault is to read on, to the next definition. -/
lemma exists_reads_recover (started : Nat) (c : Cursor) :
    ∃ read, c.Reads SplitsTo read (c.recover started) := by
  unfold recover
  split
  · obtain ⟨ts, hts⟩ := c.exists_reads_advance
    obtain ⟨us, hus⟩ := c.advance.exists_reads_skipToDefinition
    exact ⟨ts ++ us, hts.trans hus⟩
  · exact c.exists_reads_skipToDefinition

end Cursor

/-! ## Attempts -/

/-- The definitions that a row of attempts gives are spelled at their places by the tokens that it
reads, one behind the other, and each of its faults shows at a token that it meets.

**Proof sketch.** Induction on the bound.  A definition spells what its attempt reads.  Behind a
fault the row ends or goes on at a later token. -/
theorem attemptsUpTo_places (mode : ErrorMode) (n : Nat) :
    ∀ c : Cursor, ∃ read, c.Reads SplitsTo read (attemptsUpTo mode n c).2
      ∧ Node.Row (((attemptsUpTo mode n c).1.filterMap Attempt.definition?).map Node.definition)
          read
      ∧ ∀ fault ∈ (attemptsUpTo mode n c).1.filterMap Attempt.fault?,
          Parser.ShowsFrom SplitsTo c fault := by
  induction n with
  | zero => exact fun c => ⟨[], .refl c, .nil _, by simp [attemptsUpTo]⟩
  | succ n ih =>
    intro c
    rw [attemptsUpTo]
    split
    · exact ⟨[], .refl c, .nil _, by simp⟩
    rcases hdef : Parser.definition c with ⟨d, behind⟩ | ⟨fault, behind⟩
    · obtain ⟨ts, hread, hplaced, -⟩ := (Parser.definition_places c).ok d behind hdef
      obtain ⟨us, hread', hrow, hshows⟩ := ih behind
      refine ⟨ts ++ us, hread.trans hread', ?_, ?_⟩
      · have hrow := Node.Row.cons (n := .definition d) [] hplaced hrow
        simpa [Attempt.definition?, Except.toOption] using hrow
      · intro fault hfault
        exact (hshows fault (by simpa [Attempt.fault?] using hfault)).behind hread
    · have hensures := Parser.definition_places c
      obtain ⟨ts, hread⟩ := hensures.error fault behind hdef
      have hshows := hensures.shows fault behind hdef
      cases mode with
      | failFast =>
        refine ⟨ts, hread, ?_, ?_⟩
        · rw [List.filterMap_cons_none rfl]
          exact .nil ts
        · simpa [Attempt.fault?] using hshows
      | collectAll =>
        -- what is skipped stands between this attempt and the next ones
        obtain ⟨us, hread'⟩ := behind.exists_reads_recover c.position
        obtain ⟨vs, hread'', hrow, hshows'⟩ := ih (behind.recover c.position)
        refine ⟨ts ++ (us ++ vs), hread.trans (hread'.trans hread''), ?_, ?_⟩
        · rw [List.filterMap_cons_none rfl]
          exact (hrow.append_left us).append_left ts
        · have hbehind : ∀ fault, Parser.ShowsFrom SplitsTo (behind.recover c.position) fault →
              Parser.ShowsFrom SplitsTo c fault := fun fault h =>
            .behind hread (.behind hread' h)
          simpa [Attempt.fault?, hshows] using fun fault a ha hfault =>
            hbehind fault (hshows' fault (List.mem_filterMap.2 ⟨a, ha, hfault⟩))

/-! ## Exact parts -/

namespace Token

/-- Tokens of a text stand one behind the other. -/
lemma Faithful.inOrder {source : List Char} {ts : List Token} (h : Faithful source ts) :
    InOrder ts :=
  ⟨fun t ht => (h.standsIn t ht).start_le_stop, h.ordered⟩

end Token

/-- The span of a part is exact and runs from the beginning of the first token of the part to the
end of its last one; the children of the part lie in it and follow each other. -/
structure Node.Exact (source : String) (tokens : List Token) (n : Node) : Prop where
  exact : n.span.Exact source
  covers : ∃ before us after, tokens = before ++ (us ++ after) ∧ us ∈ n.spelling ∧ n.span.Covers us
  inside : ∀ m ∈ n.children, n.span.start ≤ m.span.start ∧ m.span.stop ≤ n.span.stop
  ordered : n.children.Pairwise fun m k => m.span.stop ≤ k.span.start

section Exact

variable {source : String} {ts us : List Token}

/-- A span over tokens of a text is exact. -/
lemma Span.Covers.exact {s : Span} (h : s.Covers ts)
    (hts : Faithful source.toList ts) : s.Exact source := by
  have hin := hts.inOrder
  obtain ⟨first, hfirst, last, hlast, rfl⟩ := h
  have hexact : ∀ t ∈ ts, t.span.Exact source := fun t ht => (hts.standsIn t ht).exact
  have hf := hexact first (List.mem_of_head? hfirst)
  have hl := hexact last (List.mem_of_getLast? hlast)
  refine ⟨?_, hl.stop_le, hf.start_valid, hl.stop_valid, hf.line_eq, hf.column_eq⟩
  exact (hin.head_start_le hfirst (List.mem_of_getLast? hlast)).trans hl.start_le_stop

/-- A part that is spelled at its place by tokens of a text is exact. -/
lemma Node.exact_of_placed {n : Node} {before after : List Token}
    (hts : Faithful source.toList (before ++ (us ++ after))) (hus : us ∈ n.placed) :
    n.Exact source (before ++ (us ++ after)) := by
  have hfaithful : Faithful source.toList us := by
    refine ⟨fun t ht => hts.standsIn t (by simp [ht]), fun t ht => hts.isLexed t (by simp [ht]), ?_⟩
    exact hts.inOrder.append.2.append.1.ordered
  have hcovers := n.covers_of_placed hus hfaithful.inOrder
  have hrow := n.placed_le_rows hus
  exact ⟨hcovers.exact hfaithful, ⟨before, us, after, rfl, n.placed_le hus, hcovers⟩,
    hrow.inside hfaithful.inOrder hcovers, hrow.ordered hfaithful.inOrder⟩

end Exact

/-! ## Source files -/

/-- The file has the part: it is one of the definitions, or inside one. -/
def SourceFile.Has (file : SourceFile) (n : Node) : Prop :=
  ∃ d ∈ file.definitions, (Node.definition d).Has n

section SourceFile

variable {source : String} {tokens : List Token}

/-- The cursor at the first of the tokens of a text. -/
def Cursor.atStart (source : String) (tokens : List Token) : Cursor :=
  ⟨[], tokens, Token.atEnd source.toList, rfl⟩

/-- Where the reading of a text has come, the tokens that it has read and those ahead are tokens of
the text, with splits. -/
lemma Cursor.Reads.faithful {read : List Token} {c : Cursor}
    (h : (Cursor.atStart source tokens).Reads SplitsTo read c)
    (htokens : Faithful source.toList tokens) :
    c.tokens = read ++ c.ahead ++ [Token.atEnd source.toList] ∧ SplitsTo tokens (read ++ c.ahead)
      ∧ Faithful source.toList (read ++ c.ahead) := by
  refine ⟨?_, h.ahead, htokens.splitsTo h.ahead⟩
  rw [Cursor.tokens, h.past, h.closing]
  simp [Cursor.atStart]

/-- The token at a cursor that has come somewhere in a text stands in the text, behind what was
read.

**Proof sketch.** The tokens that were read and those ahead are faithful to the text and in order.
If a token is ahead, it stands in the text behind those that were read; if none is, the cursor looks
at the end of the text, behind which nothing stops. -/
lemma Cursor.Reads.peek_standsIn {read : List Token} {c : Cursor}
    (h : (Cursor.atStart source tokens).Reads SplitsTo read c)
    (htokens : Faithful source.toList tokens) :
    c.peek.StandsIn source.toList ∧ ∀ t ∈ read, t.span.stop ≤ c.peek.span.stop := by
  obtain ⟨-, -, hfaithful⟩ := h.faithful htokens
  have hclosing : c.closing = Token.atEnd source.toList := h.closing
  rcases hahead : c.ahead with _ | ⟨t, ts⟩
  · have hpeek : c.peek = Token.atEnd source.toList := by simp [Cursor.peek, hahead, hclosing]
    rw [hpeek]
    refine ⟨standsIn_atEnd _, fun t ht => ?_⟩
    have hle := (hfaithful.standsIn t (by simp [ht])).exact.stop_le
    have hend : (Token.atEnd source.toList).span.stop = source.utf8ByteSize := by
      simp [Token.atEnd, Span.between, Place.offset_after_start]
    rwa [hend]
  · have hpeek : c.peek = t := by simp [Cursor.peek, hahead]
    rw [hahead] at hfaithful
    rw [hpeek]
    refine ⟨hfaithful.standsIn t (by simp), fun u hu => ?_⟩
    have hcross := (List.pairwise_append.1 hfaithful.ordered).2.2 u hu t (by simp)
    exact hcross.trans (hfaithful.standsIn t (by simp)).start_le_stop

/-- The span from the beginning of a text to the end of one of its tokens is exact. -/
lemma Token.StandsIn.exact_merge_origin {t : Token} (h : t.StandsIn source.toList) :
    (Span.origin.merge t.span).Exact source := by
  obtain ⟨before, after, hsource, hspan⟩ := h
  have hmerge : Span.origin.merge t.span
      = .between (Place.start.after [])
        (Place.start.after ([] ++ (before ++ t.lexeme.toList))) := by
    rw [hspan, Span.merge_eq (Nat.zero_le _) (Nat.zero_le _)]
    rfl
  rw [hmerge]
  have hsource' : source.toList = [] ++ (before ++ t.lexeme.toList) ++ after := hsource
  exact Span.exact_between hsource'

/-- What a reading of the tokens of a text gives is exact.

**Proof sketch.** The attempts read tokens that split from those of the text, and the definitions
spell them at their places, in a row.  The tokens stay faithful when they are split, so that the
spans of the parts, which run from a token to a token, are exact. -/
lemma readDefinitions_exact (mode : ErrorMode) (htokens : Faithful source.toList tokens) :
    let reading := readDefinitions mode (Cursor.atStart source tokens)
    ∃ buffer, reading.behind.tokens = buffer ++ [Token.atEnd source.toList] ∧ SplitsTo tokens buffer
      ∧ (∀ n, reading.file.Has n → n.Exact source buffer)
      ∧ reading.file.span.Exact source
      ∧ (∀ d ∈ reading.file.definitions,
          reading.file.span.start ≤ d.span.start ∧ d.span.stop ≤ reading.file.span.stop)
      ∧ (reading.file.definitions.Pairwise fun d e => d.span.stop ≤ e.span.start)
      ∧ ∀ fault ∈ reading.faults, ∃ span, fault.span? = some span ∧ span.Exact source := by
  intro reading
  obtain ⟨read, hread, hrow, hshows⟩ :=
    attemptsUpTo_places mode (Cursor.atStart source tokens).remaining (Cursor.atStart source tokens)
  obtain ⟨hbuffer, hsplits, hfaithful⟩ := hread.faithful htokens
  obtain ⟨hpeek, hstop⟩ := hread.peek_standsIn htokens
  have hin := hfaithful.inOrder.append.1
  refine ⟨_, hbuffer, hsplits, ?_, hpeek.exact_merge_origin, ?_, ?_, ?_⟩
  · -- a part of a definition is placed in a stretch of the tokens that were read
    rintro n ⟨d, hd, hn⟩
    obtain ⟨before, us, after, hbefore, hus⟩ :=
      hrow.exists_placed (List.mem_map_of_mem (f := Node.definition) hd)
    obtain ⟨before', vs, after', rfl, hvs⟩ := hn.exists_placed hus
    have hsplit : read ++ (attempts mode (Cursor.atStart source tokens)).2.ahead
        = (before ++ before') ++ (vs ++ (after' ++ after
          ++ (attempts mode (Cursor.atStart source tokens)).2.ahead)) := by
      rw [hbefore]
      simp
    have hexact : n.Exact source _ := Node.exact_of_placed (hsplit ▸ hfaithful) hvs
    rwa [← hsplit] at hexact
  · -- the span of the file goes up to the token where reading ended
    intro d hd
    refine ⟨Nat.zero_le _, ?_⟩
    obtain ⟨before, us, after, hbefore, hus⟩ :=
      hrow.exists_placed (List.mem_map_of_mem (f := Node.definition) hd)
    have hus' : InOrder us := by
      rw [hbefore] at hin
      exact hin.append.2.append.1
    obtain ⟨_, _, last, hlast, hspan⟩ := (Node.definition d).covers_of_placed hus hus'
    have hle := hstop last (by simp [hbefore, List.mem_of_getLast? hlast])
    have hd : d.span.stop = last.span.stop := by
      have hspan' : d.span = _ := hspan
      rw [hspan']
    rw [hd]
    exact hle.trans (le_max_right _ _)
  · exact List.pairwise_map.1 (hrow.ordered hin)
  · intro fault hfault
    obtain ⟨ts, c, hc, t, ht, hspan⟩ := hshows fault hfault
    refine ⟨t.span, hspan, ?_⟩
    obtain ⟨htokens', -, hfaithful'⟩ := hc.faithful htokens
    rw [htokens'] at ht
    rcases List.mem_append.1 ht with ht | ht
    · exact (hfaithful'.standsIn t ht).exact
    · rw [List.mem_singleton.1 ht]
      exact (standsIn_atEnd _).exact

/-- Spans are exact.  The tokens of a source, without the one at its end, fall by the splits that
the reader makes into `buffer`, and in both modes

* every part of the file that is read has an exact span, which runs from the beginning of the first
  of the tokens that spell the part to the end of the last one, and the children of the part lie in
  this span and follow each other in the order of the fields;
* the span of the file is exact, and the definitions lie in it and follow each other;
* every fault has a span, which is exact.

**Proof sketch.** The parts and the syntactic faults are those of the reading of the tokens; the
lexical faults show at unrecognised characters, whose spans the lexer counts. -/
theorem parseSource_exact (sourceId source : String) (mode : ErrorMode) :
    let parsed := parseSource sourceId source mode
    ∃ tokens buffer, (lex source).filterMap LexItem.token? = tokens ++ [Token.atEnd source.toList]
      ∧ SplitsTo tokens buffer
      ∧ (∀ n, parsed.file.Has n → n.Exact source buffer)
      ∧ parsed.file.span.Exact source
      ∧ (∀ d ∈ parsed.file.definitions,
          parsed.file.span.start ≤ d.span.start ∧ d.span.stop ≤ parsed.file.span.stop)
      ∧ (parsed.file.definitions.Pairwise fun d e => d.span.stop ≤ e.span.start)
      ∧ ∀ fault ∈ parsed.diagnostics.faults,
          ∃ span, fault.span? = some span ∧ span.Exact source := by
  intro parsed
  obtain ⟨tokens, hlex, htokens, hlexical⟩ := faithful_of_lex source
  have hreading := readDefinitions_exact mode htokens
  have hstart : Cursor.ofTokens ((lex source).filterMap LexItem.token?)
      = Cursor.atStart source tokens := by
    rw [hlex, Cursor.ofTokens_append rfl]
    rfl
  simp only at hreading
  rw [← hstart] at hreading
  obtain ⟨buffer, -, hsplits, hparts, hfile, hinside, hordered, hfaults⟩ := hreading
  refine ⟨tokens, buffer, hlex, hsplits, ?_⟩
  have hparsed : parsed = parseSource sourceId source mode := rfl
  unfold parseSource at hparsed
  simp only at hparsed
  split at hparsed
  case h_1 fault more hfault =>
    -- the reading ends before it begins, with the first unrecognised character
    rw [hparsed]
    refine ⟨?_, ?_, by simp, .nil, ?_⟩
    · rintro n ⟨d, hd, -⟩
      cases hd
    · have hsource : source.toList = [] ++ [] ++ source.toList := rfl
      exact Span.exact_between hsource
    · intro fault' hfault'
      rw [List.mem_singleton.1 hfault']
      exact hlexical fault (by rw [hfault]; exact List.mem_cons_self)
  case h_2 =>
    rw [hparsed]
    refine ⟨hparts, hfile, hinside, hordered, fun fault hfault => ?_⟩
    rcases List.mem_append.1 hfault with hfault | hfault
    · exact hlexical fault hfault
    · exact hfaults fault hfault

end SourceFile

end RakeLang
