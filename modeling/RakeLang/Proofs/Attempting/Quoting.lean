import RakeLang.Proofs.Attempting.Ordered

/-!
# What faults quote

A fault says what it was told of in the words of the text: the character that begins no lexeme, the
token that was found, the number that has no value.  Its span covers just these words.  Where the
opposite of a number is refused, the number is the smallest integer, and it is told with its value.

No such word has a newline in it, and neither have the kinds of tokens that were expected, so that
a fault is told on one line.  Where the name of the source is on one line too, the diagnostics have
a line for each fault.

## Main definitions

* `RakeLang.Fault.Quotes` — the parts of a fault are those of the text at its span.
* `RakeLang.Text.lines` — the lines of a text.

## Main results

* `RakeLang.Fault.Shows.quotes` — a fault that is told on the way from a cursor in a text.
* `RakeLang.diagnostics_quote` — the faults of a source, and their lines.
-/

set_option relaxedAutoImplicit false
set_option autoImplicit false

namespace RakeLang

open Token

/-! ## Quotations -/

/-- What the fault says is so in the text.

* A character that begins no token is the text of its span.
* Some token was expected; what was found is the text of the span in backquotes, or the end of the
  input if the span is the end of the text.
* A scalar literal is opened by what the span covers, or the span is that of the token which stands
  where the number of tokens in a pass is told.
* A part out of place is one of those that are told, and the name in it is that of a token.
* A number is an integer that has no value, and the span covers it; or it covers the smallest
  integer, which has no opposite. -/
def Fault.Quotes (source : String) : Fault → Prop
  | .unrecognized char span => span.slice source = char.toString
  | .unexpected expected found span =>
    expected ≠ []
      ∧ (found = "end of input" ↔
        span.start = source.utf8ByteSize ∧ span.stop = source.utf8ByteSize)
      ∧ (found = "end of input" ∨ found = "`" ++ span.slice source ++ "`")
  | .unclosedScalar span =>
    span.slice source = "<" ∨ span.slice source = "<-"
      ∨ ∃ c : Cursor, c.Over source ∧ c.AtCount ∧ span = c.peek.span
  | .structural construct message span =>
    ∃ part : Misplaced, .structural construct message span = part.fault span
      ∧ ∀ rake ∈ part.rake?, ∃ t : Token, t.StandsIn source.toList ∧ t.IsLexeme ∧ t.lexeme = rake
  | .numeral lexeme span =>
    Numeral.readInt? (span.slice source) = none ∧ lexeme = span.slice source
      ∨ Numeral.readInt? (span.slice source) = some Numeral.smallest
        ∧ lexeme = "-" ++ toString Numeral.smallest
  | .unresolvedOperator .. | .unreadable _ => False

/-! ## Texts on one line -/

namespace Text

/-- The text has no newline in it. -/
def OnLine (text : String) : Prop := '\n' ∉ text.toList

/-- Whether a text is on one line can be decided. -/
instance (text : String) : Decidable (OnLine text) :=
  inferInstanceAs (Decidable (_ ∉ _))

/-- Two texts are on one line together if each of them is. -/
lemma onLine_append {first second : String} :
    OnLine (first ++ second) ↔ OnLine first ∧ OnLine second := by
  unfold OnLine
  rw [String.toList_append, List.mem_append, not_or]

/-- A text between two others. -/
lemma onLine_around {first middle last : String} (hfirst : OnLine first)
    (hmiddle : OnLine middle) (hlast : OnLine last) : OnLine (first ++ middle ++ last) :=
  onLine_append.2 ⟨onLine_append.2 ⟨hfirst, hmiddle⟩, hlast⟩

/-- Texts on one line are so together. -/
lemma onLine_intercalate {separator : String} (hseparator : OnLine separator)
    {texts : List String} (h : ∀ text ∈ texts, OnLine text) :
    OnLine (separator.intercalate texts) := by
  induction texts with
  | nil => simp [OnLine]
  | cons text texts ih =>
    obtain ⟨htext, htexts⟩ := List.forall_mem_cons.1 h
    rcases texts with _ | ⟨next, texts⟩
    · simpa using htext
    · rw [String.intercalate_cons_cons, onLine_append, onLine_append]
      exact ⟨⟨htext, hseparator⟩, ih htexts⟩

/-- A text without white space is on one line. -/
lemma onLine_of_isBlank {text : String} (h : ∀ c ∈ text.toList, isBlank c = false) :
    OnLine text :=
  fun hmem => absurd (h _ hmem) (by decide)

end Text

/-- Every lexeme is on one line. -/
lemma Token.IsLexeme.onLine {t : Token} (h : t.IsLexeme) : Text.OnLine t.lexeme := by
  obtain ⟨_, hmatches⟩ := h
  exact Text.onLine_of_isBlank fun c hc => (hmatches.visible c hc).isBlank_eq_false

/-! ## Tokens around a cursor -/

namespace Cursor.Over

variable {source : String} {c : Cursor} {t : Token}

/-- A token around a cursor in a text is a lexeme, or else it ends the text. -/
lemma isLexeme_or_eq_atEnd (hc : c.Over source) (ht : t ∈ c.tokens) :
    t.IsLexeme ∨ t = Token.atEnd source.toList := by
  obtain ⟨-, hlexemes, hclosing⟩ := hc.faithful
  rw [Cursor.tokens_eq, List.mem_append, List.mem_singleton] at ht
  exact ht.imp (hlexemes t) fun h => h.trans hclosing

/-- The end of the input is the token that begins and stops where the text ends. -/
lemma kind_eq_eof_iff (hc : c.Over source) (ht : t ∈ c.tokens) :
    t.kind = .eof ↔ t.span.start = source.utf8ByteSize ∧ t.span.stop = source.utf8ByteSize := by
  rcases hc.isLexeme_or_eq_atEnd ht with hlexeme | rfl
  · obtain ⟨_, hmatches⟩ := id hlexeme
    have hlt := (hc.standsIn t ht).start_lt_stop hlexeme
    exact iff_of_false hmatches.ne.2 fun ⟨hstart, hstop⟩ => (hstart ▸ hstop ▸ hlt).false
  · exact iff_of_true rfl (by simp [Token.atEnd, Span.between, Place.offset_after_start])

/-- What is found at a token is the text of its span. -/
lemma found_spec (hc : c.Over source) (ht : t ∈ c.tokens) :
    (t.found = "end of input" ↔
        t.span.start = source.utf8ByteSize ∧ t.span.stop = source.utf8ByteSize)
      ∧ (t.found = "end of input" ∨ t.found = "`" ++ t.span.slice source ++ "`")
      ∧ Text.OnLine t.found := by
  rw [← hc.kind_eq_eof_iff ht, (hc.standsIn t ht).slice_eq, Token.found]
  split
  · rename_i heof
    exact ⟨iff_of_true rfl heof, .inl rfl, by decide⟩
  · rename_i heof
    refine ⟨iff_of_false (fun h => ?_) heof, .inr rfl, ?_⟩
    · have hquote := congrArg (fun text => text.toList.head?) h
      simp at hquote
    · have hlexeme := (hc.isLexeme_or_eq_atEnd ht).resolve_right (by rintro rfl; exact heof rfl)
      exact Text.onLine_around (by decide) hlexeme.onLine (by decide)

/-- A symbol at a cursor in a text is the text of its span. -/
lemma slice_peek_of_symbol {s : Symbol} (hc : c.Over source) (h : c.peek.kind = .symbol s) :
    c.peek.span.slice source = String.ofList s.chars := by
  have ht := c.peek_mem_tokens
  have hlexeme := (hc.isLexeme_or_eq_atEnd ht).resolve_right fun hend => by
    rw [hend] at h
    cases h
  rw [(hc.standsIn _ ht).slice_eq, ← hlexeme.toList_of_symbol h, String.ofList_toList]

/-- The tokens that were read in a text stand in it, and are lexemes. -/
lemma past (hc : c.Over source) : ∀ t ∈ c.past, t.StandsIn source.toList ∧ t.IsLexeme := by
  obtain ⟨hfaithful, hlexemes, -⟩ := hc.faithful
  intro t ht
  have hmem : t ∈ c.buffer := List.mem_append_left _ (List.mem_reverse.2 ht)
  exact ⟨hfaithful.standsIn t hmem, hlexemes t hmem⟩

end Cursor.Over

/-! ## Faults of definitions -/

/-- The only integer without an opposite is the smallest one. -/
lemma Numeral.eq_smallest_of_fits {v : Int} (hfits : fits v = true)
    (hopposite : fits (-v) = false) : v = smallest := by
  have hnot : ¬fits (-v) = true := by simp [hopposite]
  rw [fits_iff] at hfits hnot
  unfold smallest
  omega

namespace Fault

variable {source lexeme : String} {span : Span} {fault : Fault} {c : Cursor}
  {read rest : List Token}

/-- A number is refused if it is an integer that is too large, or the smallest one where its
opposite is asked for. -/
lemma ToldAt.refusedInteger (hlexemes : ∀ t ∈ read, t.IsLexeme)
    (h : (Fault.numeral lexeme span).ToldAt c read) :
    ∃ t ∈ read, t.RefusedInteger true (.numeral lexeme span) := by
  cases h with
  | @numeral t ht hkind hnone =>
    have hmem := List.mem_of_getLast? ht
    exact ⟨t, hmem, (hlexemes t hmem).refused_of_number? true hkind hnone⟩
  | @opposite t n ht hn hnone =>
    have hmem := List.mem_of_getLast? ht
    exact ⟨t, hmem, (hlexemes t hmem).refused_of_negate? hn hnone⟩

/-- What a fault says of a refused integer is so in the text, and has no newline in it. -/
lemma quotes_of_refusedInteger {t : Token} (hstands : t.StandsIn source.toList)
    (hlexeme : t.IsLexeme) {negated : Bool} (h : t.RefusedInteger negated fault) :
    fault.Quotes source ∧ Text.OnLine fault.message := by
  cases h with
  | value _ hkind hfits =>
    refine ⟨.inl ⟨?_, hstands.slice_eq.symm⟩,
      Text.onLine_around (by decide) hlexeme.onLine (by decide)⟩
    rw [hstands.slice_eq, hlexeme.readInt? hkind]
    simp [Numeral.fitted, hfits]
  | opposite hkind hfits hopposite =>
    have hsmallest := Numeral.eq_smallest_of_fits hfits hopposite
    rw [hsmallest]
    refine ⟨.inr ⟨?_, rfl⟩, Text.onLine_around (by decide) (by decide) (by decide)⟩
    rw [hstands.slice_eq, hlexeme.readInt? hkind, hsmallest]
    rfl

/-- Expected things that are on one line are told so. -/
lemma onLine_expectation {expected : List String} (h : ∀ text ∈ expected, Text.OnLine text) :
    Text.OnLine (expectation expected) := by
  unfold expectation
  split
  · decide
  · exact h _ (by simp)
  · exact Text.onLine_append.2 ⟨by decide, Text.onLine_intercalate (by decide) h⟩

/-- A part out of place is told on one line if the name in it is. -/
lemma onLine_misplaced {part : Misplaced} (h : ∀ rake ∈ part.rake?, Text.OnLine rake) :
    Text.OnLine part.message := by
  rcases part with rake | rake | rake | rake | rake | rake | _ | _
  case noSweepArm | noResultName => decide
  all_goals exact Text.onLine_around (by decide) (h rake rfl) (by decide)

/-- **What a fault says that is told in a text** on the way from a cursor is so in the text, and is
told on one line.

**Proof sketch.** By the kinds of faults that are told.  What is found is a token of the text, a
number that is refused is one of the tokens that were read, and the name of a rake is that of a
token behind the cursor. -/
theorem Shows.quotes (hc : c.Over source) (h : fault.Shows c rest) :
    fault.Quotes source ∧ Text.OnLine fault.message := by
  obtain ⟨read, left, c', hread, -, htold⟩ := h
  have hc' := hc.reads hread
  have hread' : ∀ t ∈ read, t.StandsIn source.toList ∧ t.IsLexeme := fun t ht =>
    hc'.past t (by simp [hread.past, ht])
  have hnumeral : ∀ {lexeme span}, (Fault.numeral lexeme span).ToldAt c' read →
      (Fault.numeral lexeme span).Quotes source
        ∧ Text.OnLine (Fault.numeral lexeme span).message := by
    intro lexeme span htold
    obtain ⟨t, ht, hrefused⟩ := htold.refusedInteger fun t ht => (hread' t ht).2
    exact quotes_of_refusedInteger (hread' t ht).1 (hread' t ht).2 hrefused
  cases htold with
  | @unexpected expected hne hlines =>
    obtain ⟨hend, hquoted, hline⟩ := hc'.found_spec c'.peek_mem_tokens
    have hexpected : Text.OnLine ("expected " ++ expectation expected ++ ", found ") :=
      Text.onLine_around (by decide) (onLine_expectation hlines) (by decide)
    exact ⟨⟨hne, hend, hquoted⟩, Text.onLine_append.2 ⟨hexpected, hline⟩⟩
  | misplaced part hrake =>
    have hnamed : ∀ rake ∈ part.rake?, ∃ t : Token, t.StandsIn source.toList ∧ t.IsLexeme
        ∧ t.lexeme = rake := fun rake hmem => by
      obtain ⟨t, ht, hname⟩ := hrake rake hmem
      exact ⟨t, (hc'.past t ht).1, (hc'.past t ht).2, hname⟩
    refine ⟨⟨part, rfl, hnamed⟩, onLine_misplaced fun rake hmem => ?_⟩
    obtain ⟨t, -, hlexeme, rfl⟩ := hnamed rake hmem
    exact hlexeme.onLine
  | unclosed h =>
    refine ⟨?_, (by decide : Text.OnLine (message (.unclosedScalar .origin)))⟩
    rcases h with h | h | h
    · exact .inl (hc'.slice_peek_of_symbol h)
    · exact .inr (.inl (hc'.slice_peek_of_symbol h))
    · exact .inr (.inr ⟨c', hc', h, rfl⟩)
  | numeral ht hkind hnone => exact hnumeral (.numeral ht hkind hnone)
  | opposite ht hn hnone => exact hnumeral (.opposite ht hn hnone)

end Fault

/-! ## Unrecognised characters -/

/-- An unrecognised character is that of its span, and is no newline.

**Proof sketch.** Every item of the lexer stands behind a gap of blanks and comments, and an
unrecognised character is the one at which the rest begins.  Its span is therefore the slice that
holds that character alone; and since a gap is as long as it can be, the character is no blank, in
particular no newline. -/
lemma quotes_of_unrecognized {source : String} {fault : Fault}
    (h : fault ∈ (lex source).filterMap LexItem.fault?) :
    fault.Quotes source ∧ Text.OnLine fault.message := by
  obtain ⟨items, hitems, -, hall⟩ := Lexer.exists_items_munched source
  rw [hitems, List.filterMap_append] at h
  obtain ⟨_ | ⟨char, span⟩, hitem, hfault⟩ := List.mem_filterMap.1 (by
    simpa [LexItem.fault?] using h)
  · cases hfault
  obtain rfl := Option.some.inj hfault
  obtain ⟨before, after, hsplit⟩ := List.append_of_mem hitem
  obtain ⟨passed, gap, _, hsource, -, hgap, ⟨tail, rfl⟩, rfl, -⟩ := hall before _ after hsplit
  have hslice : source.toList = passed ++ gap ++ [char] ++ tail := by simp [hsource]
  refine ⟨(Span.slice_between hslice).trans ?_,
    Text.onLine_around (by decide) (Text.onLine_of_isBlank fun c hc => ?_) (by decide)⟩
  · rw [Char.toString_eq_singleton, String.singleton_eq_ofList]
  · obtain rfl : c = char := by simpa using hc
    exact hgap.head?_rest c rfl

/-! ## Lines -/

namespace Text

/-- The lines of a text: what stands before, between and behind its newlines.  An empty text has
none. -/
def lines (text : String) : List String :=
  if text = "" then [] else (text.toList.splitOn '\n').map String.ofList

/-- Texts on one line each are the lines of what they make up together. -/
lemma lines_intercalate {texts : List String} (hne : ∀ text ∈ texts, text ≠ "")
    (h : ∀ text ∈ texts, OnLine text) : lines (String.intercalate "\n" texts) = texts := by
  rcases texts with _ | ⟨text, texts⟩
  · rfl
  have htexts : String.intercalate "\n" (text :: texts) ≠ "" := by
    intro hempty
    rcases texts with _ | ⟨next, texts⟩
    · exact hne text (by simp) (by simpa using hempty)
    · rw [String.intercalate_cons_cons] at hempty
      simpa using congrArg String.toList hempty
  have hnewline : ∀ line ∈ (text :: texts).map String.toList, '\n' ∉ line :=
    List.forall_mem_map.2 h
  rw [lines, if_neg htexts, String.toList_intercalate]
  exact (congrArg _ (List.splitOn_intercalate '\n' hnewline (by simp))).trans (by simp)

/-- The digits of a number are on one line. -/
lemma onLine_toString (n : Nat) : OnLine (toString n) := by
  rw [Nat.toString_eq_repr]
  refine onLine_of_isBlank fun c hc => ?_
  rw [Nat.toList_repr] at hc
  have hdigit := Nat.isDigit_of_mem_toDigits (by decide) (by decide) hc
  exact (Lexeme.Digit.visible (Lexeme.isDigit_iff.1 hdigit)).isBlank_eq_false

end Text

/-! ## Source files -/

/-- What is told of a fault begins with the name of the source and the place of the fault. -/
lemma Diagnostics.line_eq {sourceId : String} {fault : Fault} {span : Span}
    (h : fault.span? = some span) :
    line sourceId fault
      = sourceId ++ ":" ++ toString span.line ++ ":" ++ toString span.column ++ ": "
        ++ fault.message := by
  have hcolon : toString ":" = ":" := rfl
  simp [line, h, Span.render, String.append_assoc, hcolon]

/-- On one line is what is told of a fault whose place is known. -/
lemma Diagnostics.onLine_line {sourceId : String} {fault : Fault} {span : Span}
    (hid : Text.OnLine sourceId) (hmessage : Text.OnLine fault.message)
    (h : fault.span? = some span) : Text.OnLine (line sourceId fault) := by
  rw [line_eq h]
  simp only [Text.onLine_append]
  exact ⟨⟨⟨⟨⟨⟨hid, by decide⟩, Text.onLine_toString _⟩, by decide⟩, Text.onLine_toString _⟩,
    by decide⟩, hmessage⟩

/-- Where the name of the source and the wordings are on one line each, the diagnostics have a line
for each fault. -/
lemma Diagnostics.lines_render {d : Diagnostics} (hid : Text.OnLine d.sourceId)
    (h : ∀ fault ∈ d.faults, (∃ span, fault.span? = some span) ∧ Text.OnLine fault.message) :
    Text.lines d.render = d.faults.map (line d.sourceId) := by
  refine Text.lines_intercalate (List.forall_mem_map.2 fun fault hfault hempty => ?_)
    (List.forall_mem_map.2 fun fault hfault => ?_)
  all_goals obtain ⟨⟨span, hspan⟩, hmessage⟩ := h fault hfault
  · rw [line_eq hspan] at hempty
    simpa using congrArg String.toList hempty
  · exact onLine_line hid hmessage hspan

/-- The diagnostics of a source have its name. -/
lemma sourceId_parseSource (sourceId source : String) (mode : ErrorMode) :
    (parseSource sourceId source mode).diagnostics.sourceId = sourceId := by
  unfold parseSource
  dsimp only
  split <;> rfl

/-- A fault of a source is an unrecognised character, or it is told on the way from a cursor in the
tokens of the source.

**Proof sketch.** The faults of a source are those of the lexer, followed by those of the attempts.
A fault of an attempt is one of reading a definition at a cursor over the source, where
`Parser.definition_shows` says what it tells.  To the first fault only one of them is kept, which is
one of the lexer's as soon as there is any. -/
lemma mem_lexical_or_shows {sourceId source : String} {mode : ErrorMode} {fault : Fault}
    (h : fault ∈ (parseSource sourceId source mode).diagnostics.faults) :
    fault ∈ (lex source).filterMap LexItem.fault?
      ∨ ∃ c rest, c.Over source ∧ fault.Shows c rest := by
  let start : Cursor := .ofTokens ((lex source).filterMap LexItem.token?)
  have hstart : start.Over source := Session.over_run source []
  have hsyntactic : fault ∈ (readDefinitions mode start).faults →
      ∃ c rest, c.Over source ∧ fault.Shows c rest := by
    intro hfault
    obtain ⟨c, c', hc, hrun⟩ := exists_of_fault mode start.remaining start hstart fault hfault
    obtain ⟨rest, hshows⟩ := Parser.definition_shows hrun
    exact ⟨c, rest, hc, hshows⟩
  rcases hlexical : (lex source).filterMap LexItem.fault? with _ | ⟨first, faults⟩
  · rw [parseSource_of_lexical_nil hlexical] at h
    exact .inr (hsyntactic h)
  · cases mode with
    | failFast =>
      rw [parseSource_of_lexical_cons hlexical] at h
      exact .inl (List.mem_singleton.1 h ▸ List.mem_cons_self)
    | collectAll =>
      exact (List.mem_append.1 h).imp (fun hmem => hlexical ▸ hmem) hsyntactic

/-- **Diagnostics quote the source.**  In both modes, what the faults of a source say is so in the
source.  Where the name of the source is on one line, the diagnostics have a line for each fault,
which begins with the name of the source and the place of the fault.

**Proof sketch.** The faults of a source are unrecognised characters, which quote themselves, or
faults that show on the way from a cursor (`Fault.Shows.quotes`).  Each of them is on one line, so
that the lines of the text that is rendered are the lines of the faults. -/
theorem diagnostics_quote (sourceId source : String) (mode : ErrorMode) :
    let diagnostics := (parseSource sourceId source mode).diagnostics
    (∀ fault ∈ diagnostics.faults, fault.Quotes source)
      ∧ (Text.OnLine sourceId →
        List.Forall₂ (fun line fault => ∃ span ∈ fault.span?,
          line = sourceId ++ ":" ++ toString span.line ++ ":" ++ toString span.column ++ ": "
            ++ fault.message)
          (Text.lines diagnostics.render) diagnostics.faults) := by
  intro diagnostics
  have hquotes : ∀ fault ∈ diagnostics.faults, fault.Quotes source ∧ Text.OnLine fault.message := by
    intro fault hfault
    rcases mem_lexical_or_shows hfault with hlexical | ⟨c, rest, hc, hshows⟩
    · exact quotes_of_unrecognized hlexical
    · exact hshows.quotes hc
  have hspan : ∀ fault ∈ diagnostics.faults, ∃ span, fault.span? = some span := by
    intro fault hfault
    obtain ⟨hquote, -⟩ := hquotes fault hfault
    rcases fault
    case unreadable => exact hquote.elim
    all_goals exact ⟨_, rfl⟩
  refine ⟨fun fault hfault => (hquotes fault hfault).1, fun hid => ?_⟩
  have hsource : diagnostics.sourceId = sourceId := sourceId_parseSource sourceId source mode
  have hlines := Diagnostics.lines_render (hsource ▸ hid) fun fault hfault =>
    ⟨hspan fault hfault, (hquotes fault hfault).2⟩
  rw [hlines, hsource, List.forall₂_map_left_iff, List.forall₂_same]
  intro fault hfault
  obtain ⟨span, h⟩ := hspan fault hfault
  exact ⟨span, h, Diagnostics.line_eq h⟩

/-- A character that begins no lexeme and the end of the input are told on two lines. -/
theorem diagnostics_quote_two_lines :
    Text.OnLine "a.rk"
      ∧ (Text.lines (parseSource "a.rk" "crunch é" .collectAll).diagnostics.render).length = 2 :=
  ⟨by decide, ((diagnostics_quote "a.rk" "crunch é" .collectAll).2 (by decide)).length_eq.trans
    (by decide +kernel)⟩

end RakeLang
