import RakeLang.Proofs.Attempting.FirstFault
import RakeLang.Proofs.Mirroring.Continued
import RakeLang.Proofs.Mirroring.Lexing

/-!
# Source files can be put one behind the other

A source without faults is followed by a line break and by a second source, which begins with a word
that opens a definition.  Both together have the definitions of the first one and behind them what
comes of the second one, its definitions and its faults, further down in the text.

The lexer remembers the last token of the first source, but only for the sign of a number, and no
number stands at the beginning of the second one.  And a fault in the second source is found behind
its first word, where nothing of the first source is looked at any more.

## Main definitions

* `RakeLang.Span.shift` — a span that stands further down in a text.

## Main results

* `RakeLang.Lexer.Lexes.behind_line` — the items of a text behind another one.
* `RakeLang.parseSource_append` — the definitions and the faults of both sources.
-/

set_option relaxedAutoImplicit false
set_option autoImplicit false

namespace RakeLang

open Token Lexer

/-! ## Texts behind a line break -/

namespace Lexeme

variable {b : Bool} {gap cs lexeme : List Char} {kind : Kind}

/-- A line break ends the comment that may stand at the end of a text. -/
lemma Gap.filler_line (h : Gap gap []) : Filler (gap ++ ['\n']) := by
  generalize hrest : ([] : List Char) = rest at h
  induction h with
  | nil =>
    subst hrest
    exact .blank (by decide) .nil
  | blank hblank _ ih => exact .blank hblank (ih hrest)
  | @comment text gap rest htext hline hgap ih =>
    subst hrest
    rw [List.cons_append, List.cons_append, List.append_assoc]
    rcases gap with _ | ⟨c, gap⟩
    · exact .comment htext .nil
    · obtain rfl : c = '\n' := hline c rfl
      cases ih rfl with
      | blank _ hfiller => exact .comment htext hfiller

/-- What stands before a lexeme matters only for a number with a sign, which stands behind no
operand. -/
lemma Matches.with_memory {b' : Bool} (h : Matches b' kind lexeme)
    (hsign : b' = true ∨ kind.isNumber = false) : Matches b kind lexeme := by
  cases h with
  | keyword word => exact .keyword word
  | ident hstart hpart hword => exact .ident hstart hpart hword
  | typeIdent hstart hpart => exact .typeIdent hstart hpart
  | tineRef hstart hpart => exact .tineRef hstart hpart
  | number hnumber => exact .number hnumber
  | signed hbefore hnumber => simp [hbefore, hnumber.isNumber] at hsign
  | symbol sign => exact .symbol sign

/-- A lexeme that is no number is the longest one whatever stands before it. -/
lemma longest?_of_not_number (h : longest? false cs = some (kind, lexeme))
    (hkind : kind.isNumber = false) : longest? b cs = some (kind, lexeme) := by
  rcases b with _ | _
  · exact h
  obtain ⟨hhead, hmatches, hlongest⟩ := longest?_eq_some_iff.1 h
  exact longest?_eq_some_iff.2 ⟨hhead, hmatches.with_memory (.inr hkind), fun k t ht hmatch =>
    hlongest k t ht (hmatch.with_memory (.inl rfl))⟩

/-- What begins no lexeme begins none behind an operand. -/
lemma longest?_eq_none (h : longest? false cs = none) : longest? b cs = none := by
  rcases b with _ | _
  · exact h
  · exact longest?_eq_none_iff.2 fun kind text htext hmatches =>
      longest?_eq_none_iff.1 h kind text htext (hmatches.with_memory (.inl rfl))

end Lexeme

namespace Place

variable {lines : Option Nat}

/-- A text in front, with a line break behind it, moves a text down and not to the side. -/
lemma furtherOn_behind_line (cs : List Char) :
    start.FurtherOn ((String.ofList cs).utf8ByteSize + 1) (some (cs.count '\n' + 1))
      (start.after (cs ++ ['\n'])) := by
  refine ⟨?_, fun n hn => ?_⟩
  · rw [offset_after_start, String.ofList_append, String.utf8ByteSize_append]
    exact (Nat.zero_add _).symm
  · obtain rfl := Option.mem_some_iff.1 hn
    refine ⟨?_, ?_⟩
    · rw [line_after_start, List.count_append]
      rfl
    · rw [after_append_singleton]
      rfl

end Place

namespace Lexer

variable {p : Place} {items : List LexItem} {text : List Char}

/-- A text without a number at its beginning is read alike whatever stands before it. -/
lemma Lexes.with_memory (h : Lexes false p items text)
    (hfirst : ∀ t ∈ (items.filterMap LexItem.token?).head?, t.kind.isNumber = false) (b : Bool) :
    Lexes b p items text := by
  generalize hb : false = b' at h
  induction h with
  | done hgap => exact .done hgap
  | token hgap hlongest h =>
    subst hb
    exact .token hgap (Lexeme.longest?_of_not_number hlongest (hfirst _ rfl)) h
  | unrecognized hgap hnone _ ih =>
    subst hb
    exact .unrecognized hgap (Lexeme.longest?_eq_none hnone) (ih hfirst rfl)

/-- **The items of a text behind another one**, with a line break in between, stand further on.

**Proof sketch.** The first text is cut in front of the end of its input; what is left there is a
gap, to which the line break belongs.  The second text is lexed as by itself, since the memory of
the last token matters to the sign of a number only. -/
theorem Lexes.behind_line {ts : List Token} {eof : Token} {cs : List Char}
    (hfirst : Lexes false .start ((ts ++ [eof]).map .token) cs) (heof : eof.kind = .eof)
    (hsecond : Lexes false .start items text)
    (hnumber : ∀ t ∈ (items.filterMap LexItem.token?).head?, t.kind.isNumber = false) :
    ∃ items', Lexes false .start (ts.map .token ++ items') (cs ++ '\n' :: text)
      ∧ List.Forall₂ (LexItem.FurtherOn ((String.ofList cs).utf8ByteSize + 1)
        (some (cs.count '\n' + 1))) items items' := by
  rw [List.map_append] at hfirst
  obtain ⟨passed, rest, rfl, -, -, hrest, hexchange⟩ := hfirst.cut (by simp)
  obtain ⟨items', hitems', hfurther⟩ :=
    (hsecond.with_memory hnumber (Tokenizes.memory false ts)).furtherOn
      (Place.furtherOn_behind_line (passed ++ rest))
  refine ⟨items', ?_, hfurther⟩
  have hgap : Lexeme.Gap rest [] := by
    cases hrest with
    | done hgap => exact hgap
    | token _ hlongest => exact absurd heof (Lexeme.longest?_fits hlongest).2.1
  rw [List.append_assoc, Place.after_append] at hitems'
  have hbreaks : Lexeme.Breaks (rest ++ '\n' :: text) := by
    cases hgap with
    | nil =>
      rintro _ ⟨⟩
      exact .inl (by decide)
    | blank hblank =>
      rintro _ ⟨⟩
      exact .inl hblank
    | comment =>
      rintro _ ⟨⟩
      exact .inr rfl
  have hline := hgap.filler_line
  have hall := hexchange items' ((rest ++ ['\n']) ++ text)
    (.of_cases (.inl (by simpa using hbreaks))) (hitems'.filler hline)
  simpa using hall

end Lexer

/-! ## What is read -/

/-- The span further down in a text, by some bytes and some lines. -/
def Span.shift (bytes lines : Nat) (s : Span) : Span :=
  ⟨s.line + lines, s.column, s.start + bytes, s.stop + bytes⟩

/-- Everything stands further down. -/
def Displacement.down (bytes lines : Nat) : Displacement :=
  ⟨(· + bytes), some lines, fun _ _ h => Nat.add_lt_add_right h bytes⟩

section Reading

variable {k n : Nat} {c d : Cursor} {items items' : List LexItem} {us : List Token}
  {b : Bool} {p : Place} {text : List Char}

/-- A span that stands further on, and further down, is the shifted one. -/
lemma Span.FurtherOn.eq_shift {s s' : Span} (h : s.FurtherOn k (some n) s') :
    s' = s.shift k n := by
  obtain ⟨hline, hcolumn⟩ := h.place n rfl
  rw [Span.shift, ← h.start, ← h.stop, ← hline, ← hcolumn]

/-- The tokens and the faults of items that stand further on. -/
lemma LexItem.FurtherOn.parts (h : List.Forall₂ (LexItem.FurtherOn k (some n)) items items') :
    List.Forall₂ (Token.FurtherOn k (some n)) (items.filterMap LexItem.token?)
        (items'.filterMap LexItem.token?)
      ∧ items'.filterMap LexItem.fault?
        = (items.filterMap LexItem.fault?).map (Fault.mapSpans (.shift k n)) := by
  induction h with
  | nil => exact ⟨.nil, rfl⟩
  | cons hitem _ ih =>
    obtain ⟨htokens, hfaults⟩ := ih
    cases hitem with
    | token h => exact ⟨.cons h htokens, hfaults⟩
    | @unrecognized c s s' h =>
      refine ⟨htokens, congrArg₂ List.cons ?_ hfaults⟩
      exact congrArg (Fault.unrecognized c) h.eq_shift

/-- The tokens of a text that stands further down are displaced. -/
lemma Lexer.Lexes.abreast (h : Lexes b p items text)
    (hfurther : List.Forall₂ (Token.FurtherOn k (some n)) (items.filterMap LexItem.token?) us) :
    Abreast (.down k n) (items.filterMap LexItem.token?) us := by
  refine Token.FurtherOn.abreast (δ := .down k n) hfurther fun t ht u htu => ?_
  obtain ⟨item, hitem, htoken⟩ := List.mem_filterMap.1 ht
  have heq : item = .token t := by
    cases item with
    | token => exact congrArg LexItem.token (Option.some.inj htoken)
    | unrecognized => cases htoken
  exact htu.displaced (fun _ _ => rfl) (fun _ => rfl) (h.arrow t (heq ▸ hitem))

/-- An attempt at the first token of an input, on the right side behind other tokens.

**Proof sketch.** The first tokens on both sides are abreast, so they have the same kind and related
spans.  Behind them the mirror looks at no more than the token that was read last, which stands on
both sides. -/
lemma Token.Abreast.starts_behind {δ : Displacement} (h : Abreast δ c.ahead d.ahead)
    (hclosing : Displaced δ c.closing d.closing) (hc : c.past = []) (hahead : c.ahead ≠ []) :
    (δ.mirror d.past).Starts c d := by
  obtain ⟨t, ts, hts⟩ := List.exists_cons_of_ne_nil hahead
  rw [hts] at h
  generalize hd : d.ahead = ds at h
  cases h with
  | @cons _ u _ us htu hjoins hrest =>
    have hcpeek : c.peek = t := by simp [Cursor.peek, hts]
    have hdpeek : d.peek = u := by simp [Cursor.peek, hd]
    refine ⟨?_, fun _ => ?_, ?_⟩
    · rw [Mirror.Same, hcpeek, hdpeek]
      exact htu.twin
    · refine ⟨⟨[u], ?_, ?_, ?_⟩, ?_, .inr ?_⟩
      · simp [Cursor.advance, hd]
      · simp [Cursor.advance, hts, hc]
      · simpa [Cursor.advance, hts, hd, hc] using Abreast.cons htu hjoins hrest
      · simpa [Cursor.advance, hts, hd] using hclosing
      · simp [Cursor.advance, hts]
    · simp [Cursor.position, hc, Displacement.mirror]

end Reading

/-- The tokens of a source without faults are read without faults.

**Proof sketch.** A source that is parsed is tokenized, so that its items are tokens; the
reading up to the first fault met none, and so does the one that collects all faults. -/
lemma exists_tokens_of_parse {source : String} {file : SourceFile} (h : parse source = .ok file) :
    ∃ ts, Lexes false .start ((ts ++ [Token.atEnd source.toList]).map .token) source.toList
      ∧ (∀ t ∈ ts, t.kind ≠ .eof)
      ∧ (readDefinitions .collectAll ⟨[], ts, .atEnd source.toList, rfl⟩).faults = []
      ∧ (readDefinitions .collectAll ⟨[], ts, .atEnd source.toList, rfl⟩).file = file := by
  rcases htokenize : tokenize source with fault | tokens
  · simp [parse, htokenize, Except.bind] at h
  have hparse : parseTokens tokens = .ok file := by
    simpa [parse, htokenize, Except.bind] using h
  have hlexes := tokenize_eq_ok_iff.1 htokenize
  obtain ⟨ts, hts, -⟩ := faithful_of_lex source
  have htokens : tokens = ts ++ [.atEnd source.toList] := by
    rw [← hts, lexes_iff.2 hlexes, List.filterMap_map]
    exact List.filterMap_some.symm
  subst htokens
  rw [parseTokens, Cursor.ofTokens_append rfl] at hparse
  obtain ⟨-, htake, hsame⟩ := readDefinitions_failFast ⟨[], ts, .atEnd source.toList, rfl⟩
  have hnone : (readDefinitions .failFast ⟨[], ts, .atEnd source.toList, rfl⟩).faults = [] := by
    by_contra hne
    obtain ⟨fault, faults, hfaults⟩ := List.exists_cons_of_ne_nil hne
    simp [hfaults] at hparse
  have hall : (readDefinitions .collectAll ⟨[], ts, .atEnd source.toList, rfl⟩).faults = [] := by
    rw [hnone] at htake
    exact (List.take_eq_nil_iff.1 htake.symm).resolve_left (by simp)
  refine ⟨ts, hlexes, fun t ht => (isLexeme_of_lex hts t ht).choose_spec.ne.2, hall, ?_⟩
  simp only [hsame hall, hall] at hparse
  exact Except.ok.inj hparse

/-- The first token of an input, if a definition can begin there. -/
lemma Cursor.exists_opens {e : Cursor} (he : e.atDefinitionStart = true) :
    ∃ t ts, e.ahead = t :: ts ∧ t.kind.opensDefinition = true := by
  have hopens := Mirror.opensDefinition_of_atDefinitionStart he
  rcases hahead : e.ahead with _ | ⟨t, ts⟩
  · rw [Cursor.peek_kind_of_ahead_nil hahead] at hopens
    cases hopens
  · exact ⟨t, ts, rfl, by simpa [Cursor.peek, hahead] using hopens⟩

/-- **Tokens of a source without faults, in front of the displaced tokens of another one**, are read
like those of both.

**Proof sketch.** Behind the definitions of the first tokens an attempt begins at the first one of
the others, and behind it both cursors are related. -/
theorem readDefinitions_append {k n : Nat} {ts us vs : List Token} {last eof eof' : Token}
    (hlast : last.kind = .eof) (heof : eof.kind = .eof) (heof' : eof'.kind = .eof)
    (hkinds : ∀ t ∈ ts, t.kind ≠ .eof)
    (hnone : (readDefinitions .collectAll ⟨[], ts, last, hlast⟩).faults = [])
    (hstart : (⟨[], us, eof, heof⟩ : Cursor).atDefinitionStart = true)
    (habreast : Abreast (.down k n) us vs) (hclosing : Displaced (.down k n) eof eof') :
    (readDefinitions .collectAll ⟨[], ts ++ vs, eof', heof'⟩).file.definitions
        = (readDefinitions .collectAll ⟨[], ts, last, hlast⟩).file.definitions
          ++ (readDefinitions .collectAll ⟨[], us, eof, heof⟩).file.definitions.map
            (Definition.mapSpans (.shift k n))
      ∧ (readDefinitions .collectAll ⟨[], ts ++ vs, eof', heof'⟩).faults
        = (readDefinitions .collectAll ⟨[], us, eof, heof⟩).faults.map
            (Fault.mapSpans (.shift k n)) := by
  have hrel : (Displacement.mirror (.down k n) []).Rel ⟨[], us, eof, heof⟩ ⟨[], vs, eof', heof'⟩ :=
    ⟨⟨[], rfl, rfl, habreast⟩, hclosing, .inl rfl⟩
  have hstart' := hstart
  rw [Mirror.atDefinitionStart_eq hrel (Mirror.same_of_total trivial hrel)] at hstart'
  obtain ⟨d, hahead, hdclosing, hattempts⟩ := attempts_continued hstart' _ ⟨[], ts, last, hlast⟩
    ⟨[], ts ++ vs, eof', heof'⟩ ⟨rfl, rfl, rfl⟩ le_rfl hkinds hnone
  obtain ⟨t, rest, ht, -⟩ := Cursor.exists_opens hstart
  have hstarts : (Displacement.mirror (.down k n) d.past).Starts ⟨[], us, eof, heof⟩ d :=
    Abreast.starts_behind (hahead ▸ habreast) (hdclosing ▸ hclosing) rfl
      (ht ▸ List.cons_ne_nil t rest)
  have hremaining : (⟨[], us, eof, heof⟩ : Cursor).remaining = d.remaining := by
    rw [Cursor.remaining, Cursor.remaining, hahead, habreast.countPieces]
  obtain ⟨hdefinitions, hfaults⟩ :=
    @readDefinitions_mirrors _ .collectAll _ _ trivial hstarts hremaining
  have hright : (Displacement.mirror (.down k n) d.past).right = id := rfl
  have hleft : (Displacement.mirror (.down k n) d.past).left = .shift k n := rfl
  rw [hleft, hright, Definition.mapSpans_id, List.map_id] at hdefinitions
  rw [hleft, hright, Fault.mapSpans_id, List.map_id] at hfaults
  rw [hdefinitions, hfaults]
  constructor
  · exact (congrArg (List.filterMap Attempt.definition?) hattempts).trans (List.filterMap_append ..)
  · refine (congrArg (List.filterMap Attempt.fault?) hattempts).trans ?_
    rw [List.filterMap_append]
    exact (congrArg (· ++ _) hnone).trans (List.nil_append _)

/-- **Source files can be put one behind the other.**  A source without faults, a line break and a
source that begins with a word that opens a definition have together the definitions of the first
source, behind them those of the second one, and the faults of the second one.  What comes of the
second source stands further down by the bytes and the lines in front of it, in the same columns.

**Proof sketch.**  The tokens are those of the first source and behind them those of the second one,
displaced, by `Lexer.Lexes.behind_line`.  The attempts at the definitions of the first source are as
before, by `attempts_continued`.  Those that follow mirror the attempts at the second source alone:
they begin at its first token, and behind it both cursors are related. -/
theorem parseSource_append {first second : String} {file : SourceFile} (sourceId : String)
    (hfirst : parse first = .ok file)
    (hsecond : (Cursor.ofTokens ((lex second).filterMap LexItem.token?)).atDefinitionStart = true) :
    (parseSource sourceId (first ++ "\n" ++ second) .collectAll).file.definitions
        = file.definitions ++ (parseSource sourceId second .collectAll).file.definitions.map
          (Definition.mapSpans (.shift (first.utf8ByteSize + 1) (first.toList.count '\n' + 1)))
      ∧ (parseSource sourceId (first ++ "\n" ++ second) .collectAll).diagnostics.faults
        = (parseSource sourceId second .collectAll).diagnostics.faults.map
          (Fault.mapSpans (.shift (first.utf8ByteSize + 1) (first.toList.count '\n' + 1))) := by
  obtain ⟨ts, hts, hkinds, hnone, rfl⟩ := exists_tokens_of_parse hfirst
  obtain ⟨us, hus, -⟩ := faithful_of_lex second
  have hitems := lexes_iff.1 (rfl : lex second = lex second)
  rw [hus, Cursor.ofTokens_append rfl] at hsecond
  obtain ⟨t, rest, ht, hopens⟩ := Cursor.exists_opens hsecond
  obtain rfl : us = t :: rest := ht
  have hnumber : ∀ u ∈ ((lex second).filterMap LexItem.token?).head?, u.kind.isNumber = false := by
    rw [hus]
    rintro _ ⟨⟩
    rcases hkind : t.kind <;> rw [hkind] at hopens <;> first | rfl | cases hopens
  -- the newline ends what came before, and the second text is lexed as by itself
  obtain ⟨items, hlexes, hfurther⟩ := hts.behind_line rfl hitems hnumber
  have hlex : lex (first ++ "\n" ++ second) = ts.map .token ++ items :=
    lexes_iff.2 (by simpa using hlexes)
  obtain ⟨htokens, hfaults⟩ := LexItem.FurtherOn.parts hfurther
  have habreast := hitems.abreast htokens
  rw [hus] at habreast
  -- the tokens of the second text, further on, and the end of the input behind them
  obtain ⟨vs, eof, hvs⟩ : ∃ vs eof, items.filterMap LexItem.token? = vs ++ [eof] := by
    rcases List.eq_nil_or_concat (items.filterMap LexItem.token?) with hnil | ⟨vs, eof, hvs⟩
    · rw [hnil] at habreast
      simpa using habreast.length
    · exact ⟨vs, eof, by rw [hvs, List.concat_eq_append]⟩
  rw [hvs] at habreast
  obtain ⟨hahead, hclosing⟩ := habreast.of_concat
  have heof : eof.kind = .eof := hclosing.kind.symm
  have hall : (lex (first ++ "\n" ++ second)).filterMap LexItem.token? = ts ++ vs ++ [eof] := by
    rw [hlex, List.filterMap_append, hvs, List.filterMap_map, List.append_assoc]
    exact congrArg (· ++ _) List.filterMap_some
  have hlexical : (lex (first ++ "\n" ++ second)).filterMap LexItem.fault?
      = items.filterMap LexItem.fault? := by
    rw [hlex, List.filterMap_append, List.filterMap_map]
    exact (congrArg (· ++ _) (List.filterMap_eq_nil_iff.2 fun _ _ => rfl)).trans (List.nil_append _)
  have hread := readDefinitions_append rfl rfl heof hkinds hnone hsecond hahead hclosing
  rw [String.ofList_toList] at hread hfaults
  simp only [parseSource, hall, hlexical, hus, Cursor.ofTokens_append heof,
    Cursor.ofTokens_append (show (Token.atEnd second.toList).kind = .eof from rfl), hread, hfaults,
    List.map_append, and_self]

/-- The first routine ends where the second one, which is broken off, begins. -/
theorem parseSource_append_routine :
    ∃ file, parse "crunch f x -> y: y <- x" = .ok file
      ∧ (Cursor.ofTokens ((lex "run g @ x ->").filterMap LexItem.token?)).atDefinitionStart = true
      ∧ (parseSource "" ("crunch f x -> y: y <- x" ++ "\n" ++ "run g @ x ->")
            .collectAll).file.definitions
          = file.definitions ++ (parseSource "" "run g @ x ->" .collectAll).file.definitions.map
            (Definition.mapSpans (.shift ("crunch f x -> y: y <- x".utf8ByteSize + 1)
              ("crunch f x -> y: y <- x".toList.count '\n' + 1)))
      ∧ (parseSource "" ("crunch f x -> y: y <- x" ++ "\n" ++ "run g @ x ->")
            .collectAll).diagnostics.faults
          = (parseSource "" "run g @ x ->" .collectAll).diagnostics.faults.map
            (Fault.mapSpans (.shift ("crunch f x -> y: y <- x".utf8ByteSize + 1)
              ("crunch f x -> y: y <- x".toList.count '\n' + 1))) := by
  have hok : (parse "crunch f x -> y: y <- x").toOption.isSome = true := by decide +kernel
  have hstart : (Cursor.ofTokens ((lex "run g @ x ->").filterMap
      LexItem.token?)).atDefinitionStart = true := by decide +kernel
  rcases h : parse "crunch f x -> y: y <- x" with fault | file
  · simp [h, Except.toOption] at hok
  · exact ⟨file, rfl, hstart, parseSource_append "" h hstart⟩

end RakeLang
