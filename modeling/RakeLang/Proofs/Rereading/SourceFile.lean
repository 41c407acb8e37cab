import RakeLang.Proofs.Attempting.FirstFault
import RakeLang.Proofs.Rereading.Ends

/-!
# Source files that are read again

Each definition of a source file, each expression, each predicate and each type in it is read again
from its own text as the tree that it is in the file, up to spans.  A definition is read from the
text alongside the whole; what stands inside of it was found on the way.  Where an attempt at a
definition is refused, reading goes on where a tail of the tokens of the source is ahead, so that no
split in the refused part bears on what is read later.

## Main definitions

* `RakeLang.Node.ReadAgain` — the text of a part is read as that part.

## Main results

* `RakeLang.Definition.parse_slice`, `RakeLang.DataType.parse_slice` — the text of a definition and
  of a type is read as what it was read as.
* `RakeLang.suffix_recover` — where reading goes on behind a definition that is refused.
* `RakeLang.readAgain_of_has` — all parts of a source file are read again.
-/

set_option relaxedAutoImplicit false
set_option autoImplicit false

namespace RakeLang

open Token Spelling

/-! ## Where the next attempt begins -/

section Recover

variable {source : List Char} {whole : List Token} {c c' : Cursor}

/-- What is ahead behind a reading that splits nothing is a tail of what was ahead. -/
lemma Cursor.suffix_of_reads {read : List Token} (h : c.Reads Eq read c') :
    c'.ahead <:+ c.ahead := h.ahead ▸ List.suffix_append read c'.ahead

/-- What is ahead behind a step is a tail of what was ahead. -/
lemma Cursor.suffix_advance (c : Cursor) : c.advance.ahead <:+ c.ahead := by
  rcases hc : c.ahead with _ | ⟨t, ts⟩
  · simp [advance, hc]
  · simp [advance, hc]

/-- What is ahead behind some skipped tokens is a tail of what was ahead. -/
lemma Cursor.Skips.suffix (h : c.Skips c') : c'.ahead <:+ c.ahead := by
  obtain ⟨skipped, hread⟩ := h.reads
  exact suffix_of_reads hread

/-- A definition that is read alongside itself: a tail of the whole is ahead behind it, and what
stands inside of it is found in the whole. -/
lemma Parser.definition_suffix {d : Definition} (hc : c.ahead <:+ whole)
    (h : definition c = .ok d c') : c'.ahead <:+ whole ∧ (Node.definition d).Grounded whole := by
  have hrel : (alongside whole [] 0).Rel .closed c c :=
    ⟨rfl, .tail hc, c.ahead, [], (List.append_nil _).symm, shifted_zero _,
      .inl ⟨rfl, fun _ _ _ _ hu => nomatch hu⟩⟩
  obtain ⟨_, _, _, -, ⟨⟨-, hgrounded⟩, rfl⟩, hrel'⟩ :=
    (definition_alongside hrel fun _ => by simp).ok d c' h (Nat.zero_le _)
  exact ⟨Alongside.suffix hrel', hgrounded⟩

/-- Skipping ends where a definition can begin. -/
lemma Cursor.atDefinitionBoundary_skipToDefinition (c : Cursor) :
    c.skipToDefinition.atDefinitionBoundary = true :=
  skipToDefinition_induction (P := fun _ c' => c'.atDefinitionBoundary = true) (fun _ h => h)
    (fun _ _ _ h => h) c

/-- Recovery ends at a boundary of definitions. -/
lemma Cursor.atDefinitionBoundary_recover (started : Nat) (c : Cursor) :
    (c.recover started).atDefinitionBoundary = true := by
  unfold recover
  split
  · exact c.advance.atDefinitionBoundary_skipToDefinition
  · exact c.atDefinitionBoundary_skipToDefinition

/-- Within a definition no other one begins, unless the word `stack` or `single` is the last token
before what stands behind, and the name of a record stands there.

**Proof sketch.** A definition opens with one of six words, and within a definition none of them
follows another token, but for the two words that end a type.  Behind these the seam is broken by
the name of a record. -/
lemma Seam.eq_nil_of_atDefinitionStart {s : Seam} {u : Token} {ts rest : List Token}
    (hrun : s.run (u :: ts) ≠ none) (hahead : c.ahead = u :: ts ++ rest)
    (hstart : c.atDefinitionStart = true) :
    ts = [] ∧ (u.kind = .keyword .stack ∨ u.kind = .keyword .single)
      ∧ (c.lookahead 1).kind = .typeIdent := by
  have hpeek : c.peek = u := by simp [Cursor.peek, hahead]
  unfold Cursor.atDefinitionStart at hstart
  rw [hpeek] at hstart
  rw [run] at hrun
  split at hstart
  case h_1 hkind | h_2 hkind =>
    refine ⟨?_, by simp [hkind], by simpa using hstart⟩
    rcases ts with _ | ⟨v, ts⟩
    · rfl
    · have hv : v.kind = .typeIdent := by simpa [Cursor.lookahead, hahead] using hstart
      rw [hkind] at hrun
      by_cases hs : s = typeName <;> simp [step, run, hs, hv] at hrun
  case h_3 hstack hsingle =>
    have hstep : s.step u.kind = none := by
      revert hstart hstack hsingle
      generalize u.kind = kind
      intro hstack hsingle hopens
      rcases kind with _ | _ | _ | _ | _ | word | _ | _
      case keyword => cases word <;> first | rfl | contradiction
      all_goals cases hopens
    simp [hstep] at hrun

/-- **Where reading goes on** behind a definition that is refused, a tail of the whole is ahead.

**Proof sketch.** Splits that the attempt made are left at most in the tokens that it met and did
  not read.  Among those no definition begins, unless with the last one of them, which no split took
  part in. -/
theorem suffix_recover {fault : Fault} (hwhole : Faithful source whole) (hc : c.ahead <:+ whole)
    (h : Parser.definition c = .error fault c') : (c'.recover c.position).ahead <:+ whole := by
  rcases hopens : c.peek.kind.opensDefinition with _ | _
  · -- nothing was read
    obtain ⟨fault', hrefused, -⟩ := Parser.definition_refused hopens
    obtain ⟨-, rfl⟩ := EStateM.Result.error.inj (hrefused.symm.trans h)
    have hrecover : c.recover c.position = c.advance.skipToDefinition := by simp [Cursor.recover]
    rw [hrecover]
    exact ((c.advance.skips_skipToDefinition.suffix).trans c.suffix_advance).trans hc
  · have heof : c.peek.kind ≠ .eof := Parser.ne_of_opensDefinition hopens rfl
    obtain ⟨q, hq, hwithin⟩ := Parser.definition_opens hopens
    obtain ⟨read, left, rest, hpasses, -⟩ := hwithin.error fault c' (hq ▸ h)
    obtain ⟨touched, hahead, -⟩ := hpasses.met
    have hleft := hpasses.ahead
    have hposition : c'.position ≠ c.position := by
      obtain ⟨ts, hts⟩ := Cursor.exists_ahead_of_peek heof
      simp [Cursor.position, hpasses.reads.past, Cursor.advance, hts]
      omega
    have hadvance : touched ++ rest <:+ whole := hahead ▸ c.suffix_advance.trans hc
    have hsplits : SplitsTo (touched ++ rest) (read ++ (left ++ rest)) := by
      rw [← hahead, ← hleft]
      exact hpasses.reads.ahead
    obtain ⟨skipped, hskipped⟩ := (Cursor.skips_recover hposition).suffix
    have hboundary := c'.atDefinitionBoundary_recover c.position
    generalize c'.recover c.position = c₁ at hskipped hboundary ⊢
    rw [hleft] at hskipped
    rcases List.append_eq_append_iff.1 hskipped with ⟨met, rfl, hmet⟩ | ⟨met, -, hmet⟩
    · rcases met with _ | ⟨u, met⟩
      · exact hmet ▸ (List.suffix_append touched rest).trans hadvance
      · -- the definition begins with the last token that the attempt met
        have hlexed := (hwhole.sublist hadvance.sublist).splitsTo hsplits
        have heof : u.kind ≠ .eof := (hlexed.isLexed u (by simp)).1
        have hstart : c₁.atDefinitionStart = true := by
          simpa [Cursor.atDefinitionBoundary, Cursor.atEnd, Cursor.peek, hmet, heof] using hboundary
        have hwithin := hpasses.within
        rw [← List.append_assoc] at hwithin
        obtain ⟨s, -, hrun⟩ := Seam.exists_run hwithin
        obtain ⟨rfl, hkind, -⟩ := Seam.eq_nil_of_atDefinitionStart hrun hmet hstart
        have hu : u.kind.inSplit = false := by
          rcases hkind with hkind | hkind <;> rw [hkind] <;> rfl
        have hsplits' : SplitsTo (touched ++ rest) (read ++ skipped ++ [u] ++ rest) := by
          simpa using hsplits
        obtain ⟨met, rfl⟩ := hsplits'.of_concat hu
        rw [hmet]
        rw [List.append_assoc] at hadvance
        exact (List.suffix_append met _).trans hadvance
    · exact ((hmet ▸ List.suffix_append met c₁.ahead).trans (List.suffix_append touched rest)).trans
        hadvance

/-- The definitions of a file are read where a tail of the whole is ahead.

**Proof sketch.** Induction on the bound.  Behind a definition a tail of the whole is ahead, and
behind a fault the recovery goes on at one too. -/
lemma exists_of_attempt (hwhole : Faithful source whole) (n : Nat) :
    ∀ c : Cursor, c.ahead <:+ whole →
      ∀ d ∈ (attemptsUpTo .collectAll n c).1.filterMap Attempt.definition?,
        ∃ c₁ c₂, c₁.ahead <:+ whole ∧ c₁.closing = c.closing ∧ Parser.definition c₁ = .ok d c₂ := by
  induction n with
  | zero => exact fun _ _ _ hd => nomatch hd
  | succ n ih =>
    intro c hc d hd
    rw [attemptsUpTo] at hd
    split at hd
    · cases hd
    rcases hrun : Parser.definition c with ⟨e, c'⟩ | ⟨fault, c'⟩
    · obtain ⟨read, hread, -⟩ := (Parser.definition_places c).ok e c' hrun
      simp only [hrun] at hd
      rcases List.mem_cons.1 hd with rfl | hd
      · exact ⟨c, c', hc, rfl, hrun⟩
      · obtain ⟨c₁, c₂, hc₁, hclosing, hrun₁⟩ := ih c' (Parser.definition_suffix hc hrun).1 d hd
        exact ⟨c₁, c₂, hc₁, hclosing.trans hread.closing, hrun₁⟩
    · obtain ⟨read, hread⟩ := (Parser.definition_places c).error fault c' hrun
      obtain ⟨read', hread'⟩ := c'.exists_reads_recover c.position
      simp only [hrun] at hd
      obtain ⟨c₁, c₂, hc₁, hclosing, hrun₁⟩ :=
        ih (c'.recover c.position) (suffix_recover hwhole hc hrun) d hd
      exact ⟨c₁, c₂, hc₁, hclosing.trans (hread'.closing.trans hread.closing), hrun₁⟩

end Recover

/-! ## Reading again -/

section Parse

variable {source : String} {tokens us : List Token} {eof : Token} {c c' : Cursor} {d : Definition}

/-- A text is read as a file with one definition if the definition takes all of its tokens.

**Proof sketch.** The first attempt gives the definition, and behind it the input is at its end.
-/
lemma parse_of_definition {heof : eof.kind = .eof}
    (hsource : tokenize source = .ok (us ++ [eof]))
    (h : Parser.definition ⟨[], us, eof, heof⟩ = .ok d c') (hc' : c'.ahead = []) :
    ∃ file, parse source = .ok file ∧ file.definitions = [d] := by
  have hrest (n : Nat) : attemptsUpTo .failFast n c' = ([], c') := by
    rcases n with _ | n
    · rfl
    · rw [attemptsUpTo, if_pos (by simp [Cursor.atEnd, Cursor.peek_kind_of_ahead_nil hc'])]
  have hattempts : attempts .failFast ⟨[], us, eof, heof⟩
      = ([⟨(⟨[], us, eof, heof⟩ : Cursor).peek, .ok d⟩], c') := by
    have hlt : c'.remaining < (⟨[], us, eof, heof⟩ : Cursor).remaining :=
      Parser.strict_definition _ d c' h
    obtain ⟨n, hn⟩ : ∃ n, (⟨[], us, eof, heof⟩ : Cursor).remaining = n + 1 :=
      ⟨_, (Nat.succ_pred_eq_of_pos (by omega)).symm⟩
    have hend : ¬(⟨[], us, eof, heof⟩ : Cursor).atEnd = true := fun hend =>
      Parser.ne_of_opensDefinition (Parser.opens_of_definition h) (by rfl) (beq_iff_eq.1 hend)
    rw [attempts, hn, attemptsUpTo, if_neg hend, h]
    simp [hrest]
  refine ⟨⟨[d], Span.origin.merge c'.peek.span⟩, ?_, rfl⟩
  rw [parse, hsource, Except.bind, parseTokens, Cursor.ofTokens_append heof, readDefinitions,
    hattempts]
  rfl

/-- The token that ends the input has no text. -/
lemma lexeme_of_tokenize (h : tokenize source = .ok (us ++ [eof])) : eof.lexeme = "" := by
  obtain ⟨tokens, htokens, -⟩ := faithful_of_lex source
  rw [tokenize_eq, htokens] at h
  split at h
  · obtain ⟨-, heof⟩ := List.append_inj' (Except.ok.inj h) rfl
    rw [← List.singleton_inj.1 heof]
    rfl
  · cases h

/-- **The text of a definition** is read as a file with this definition, up to spans.

**Proof sketch.** What the definition was read from are the tokens of its text, and they are read
alongside the whole; the end of the input stands where the whole goes on. -/
theorem Definition.parse_slice (hsource : tokenize source = .ok (tokens ++ [eof]))
    (htokens : Faithful source.toList tokens) (hc : c.ahead <:+ tokens)
    (hclosing : c.closing.lexeme = "") (h : Parser.definition c = .ok d c') :
    ∃ file, parse (d.span.slice source) = .ok file
      ∧ file.definitions.map Definition.withoutSpans = [d.withoutSpans] := by
  obtain ⟨raw, hextent⟩ := Parser.exists_extent htokens hc (Parser.definition_suffix hc h).1 h
  obtain ⟨first, hfirst, last, hlast, hspan⟩ := hextent.covers
  obtain ⟨raw, rfl⟩ := List.head?_eq_some_iff.1 hfirst
  obtain ⟨before, hbefore⟩ := hc
  have hpeek : c.peek = first := by simp [Cursor.peek, hextent.ahead]
  have hminus : first.kind ≠ .symbol .minus :=
    Parser.ne_of_opensDefinition (hpeek ▸ Parser.opens_of_definition h) rfl
  rw [← hbefore, hextent.ahead] at hsource
  obtain ⟨k, us, eof', hread, heof, hshifted⟩ := tokenize_slice (s := d.span) hsource
    (fun hkind => absurd hkind hminus) (by rw [hspan]) fun t ht => by
      rw [hspan, Option.some.inj (hlast.symm.trans ht)]
  have hrel : (alongside tokens c'.ahead k).Rel .closed c ⟨[], us, eof', heof⟩ :=
    ⟨hclosing.trans (lexeme_of_tokenize hread).symm, .tail ⟨before, hbefore⟩, _, _, hextent.ahead,
      hshifted, .inl ⟨rfl, hextent.severed⟩⟩
  have hrest (hc : c.peek.kind ∈ [.keyword .crunch, .keyword .run]) :
      headKind c'.ahead ≠ .typeIdent := by
    obtain ⟨_, -, ⟨-, hstop⟩ | ⟨hne, -⟩⟩ := (Parser.definition_ends c).ok d c' h
    · rcases Parser.headKind_of_atDefinitionBoundary hstop with heq | hopens
      · simp [heq]
      · exact Parser.ne_of_opensDefinition hopens rfl
    · exact absurd hc hne
  obtain ⟨e, d', _, hok, ⟨⟨hstrip, -⟩, rfl⟩, hrel'⟩ :=
    (Parser.definition_alongside hrel hrest).ok d c' h le_rfl
  obtain ⟨ts, hts, hshifted', -⟩ := Alongside.ahead_of_closed hrel'
  obtain rfl : ts = [] := by simpa using hts
  obtain ⟨file, hfile, hdefinitions⟩ :=
    parse_of_definition hread hok (List.forall₂_nil_left_iff.1 hshifted')
  exact ⟨file, hfile, by rw [hdefinitions, List.map_singleton, hstrip]⟩

/-- **The text of a type** is read as the type, up to spans: no token of it was split.

**Proof sketch.** No token of a type is split, so that its tokens are tokens of the source.  The
first of them is no minus sign, so that the text of the type has these tokens, but for a shift. -/
theorem DataType.parse_slice {t : DataType} {before part after : List Token}
    (hsource : tokenize source = .ok (tokens ++ [eof])) (htokens : Faithful source.toList tokens)
    (hcan : t.Canonical) (hpart : part ∈ t.placed) (heq : tokens = before ++ (part ++ after)) :
    ∃ t', parseType (t.span.slice source) = .ok t' ∧ t'.withoutSpans = t.withoutSpans := by
  have hspelling := t.placed_le hpart
  have hin : InOrder part := (heq ▸ htokens).inOrder.append.2.append.1
  obtain ⟨first, hfirst, last, hlast, hspan⟩ := t.covers_of_placed hpart hin
  obtain ⟨part, rfl⟩ := List.head?_eq_some_iff.1 hfirst
  have hminus : first.kind ≠ .symbol .minus := by
    intro hminus
    rcases t.headKind_of_mem hspelling [] with hkind | hkind | hkind <;>
      simp [hminus] at hkind
  rw [heq] at hsource
  obtain ⟨k, us, eof', hread, heof, hshifted⟩ := tokenize_slice (s := t.span) hsource
    (fun hkind => absurd hkind hminus) (by rw [hspan]) fun u hu => by
      rw [hspan, Option.some.inj (hlast.symm.trans hu)]
  have hspelled := t.stable_spelling _ hspelling us (map_content_of_shifted hshifted)
  have hends : EndsType [] := endsType_of_headKind (by simp) (by simp)
  obtain ⟨t', ht', hok⟩ := Parser.dataType_accepts hcan hspelled hends ⟨[], us, eof', heof⟩
    (List.append_nil us).symm
  rw [← Cursor.ofTokens_append heof] at hok
  exact ⟨t', parseWith_eq_ok_iff.2 ⟨_, hread, _, Parser.wholeInput_eq_ok_iff.2
    ⟨hok, Cursor.peek_kind_of_ahead_nil rfl⟩⟩, ht'⟩

end Parse

/-! ## The parts of a source file -/

namespace Node

/-- The text of a definition, an expression, a predicate or a type is read as that tree, up to
spans; for any other part this says nothing. -/
def ReadAgain (source : String) : Node → Prop
  | definition d => ∃ file, parse (d.span.slice source) = .ok file
      ∧ file.definitions.map Definition.withoutSpans = [d.withoutSpans]
  | expression e => ∃ e', parseExpression (e.span.slice source) = .ok e'
      ∧ e'.withoutSpans = e.withoutSpans
  | predicate p => ∃ p', parsePredicate (p.span.slice source) = .ok p'
      ∧ p'.withoutSpans = p.withoutSpans
  | dataType t => ∃ t', parseType (t.span.slice source) = .ok t'
      ∧ t'.withoutSpans = t.withoutSpans
  | _ => True

section ReadAgain

variable {source : String} {tokens : List Token} {eof : Token} {n : Node}

/-- There is no definition inside of another part. -/
lemma definition_notMem_children (n : Node) (d : Definition) : definition d ∉ n.children := by
  unfold children
  split <;> simp

/-- What is found in the tokens of a source is read again from its text.

**Proof sketch.** By cases on the kind of the part.  For expressions, predicates and types it is the
lemma on slices, `parse_slice`, whose hypotheses are what `Found` says; for other parts nothing is
read again. -/
lemma Found.readAgain (hsource : tokenize source = .ok (tokens ++ [eof]))
    (htokens : Faithful source.toList tokens) (hn : ∀ d, n ≠ definition d) (h : n.Found tokens) :
    n.ReadAgain source := by
  cases n with
  | definition d => exact absurd rfl (hn d)
  | expression e =>
    obtain ⟨depth, part, hpart, hcan, hlies⟩ := h
    exact e.parse_slice hsource htokens hcan hpart
      (e.covers_of_placed hpart (hlies.faithful htokens).inOrder) hlies
  | predicate p =>
    obtain ⟨depth, part, hpart, hcan, hlies⟩ := h
    exact p.parse_slice hsource htokens hcan hpart
      (p.covers_of_placed hpart (hlies.faithful htokens).inOrder) hlies
  | dataType t =>
    obtain ⟨before, part, after, hpart, hcan, heq⟩ := h
    exact t.parse_slice hsource htokens hcan hpart heq
  | _ => exact trivial

end ReadAgain

end Node

/-- **A part of a source file means the same alone**: if a source has no unrecognised characters,
each definition, expression, predicate and type of what it is read as, with or without faults, is
read again from its own text, up to spans.

**Proof sketch.** A definition of the file was read where a tail of the tokens of the source was
  ahead, whatever was refused before it.  So it is read again from the tokens of its text; what
  stands inside of it was found in the tokens of the source, which have the tokens of its text as a
  part. -/
theorem readAgain_of_has {source : String} {tokens : List Token}
    (h : tokenize source = .ok tokens) :
    (∀ sourceId mode n, (parseSource sourceId source mode).file.Has n → n.ReadAgain source)
      ∧ ∀ file, parse source = .ok file → ∀ n, file.Has n → n.ReadAgain source := by
  obtain ⟨tokens', hlex, htokens, -⟩ := faithful_of_lex source
  have hsource : tokenize source = .ok (tokens' ++ [Token.atEnd source.toList])
      ∧ (lex source).filterMap LexItem.fault? = [] := by
    rw [tokenize_eq, hlex] at h ⊢
    split at h
    · exact ⟨rfl, by assumption⟩
    · cases h
  have hmode (sourceId : String) (mode : ErrorMode) (n : Node)
      (hn : (parseSource sourceId source mode).file.Has n) : n.ReadAgain source := by
    obtain ⟨d, hd, hm⟩ := hn
    rw [parseSource_of_lexical_nil hsource.2, hlex, Cursor.ofTokens_append rfl] at hd
    have hd' : d ∈ (attempts .collectAll
        (Cursor.atStart source tokens')).1.filterMap Attempt.definition? := by
      cases mode with
      | collectAll => exact hd
      | failFast => exact ((attemptsUpTo_failFast _ _).1.filterMap _).subset hd
    obtain ⟨c, c', hc, hclosing, hrun⟩ := exists_of_attempt htokens _ _ List.suffix_rfl d hd'
    rcases hm.cases_tail with rfl | ⟨k, -, hk⟩
    · exact Definition.parse_slice hsource.1 htokens hc (by rw [hclosing]; rfl) hrun
    · refine ((Parser.definition_suffix hc hrun).2 n hm).readAgain hsource.1 htokens ?_
      rintro e rfl
      exact Node.definition_notMem_children k e hk
  refine ⟨hmode, fun file hfile n hn => hmode "" .failFast n ?_⟩
  rw [show parse source = _ from @parse_eq_failFast "" source] at hfile
  split at hfile
  · rwa [Except.ok.inj hfile]
  · cases hfile

/-- A comparison with a negative number is assigned. -/
lemma parse_comparison_shape :
    (match parse "crunch f x -> y: y <- x <-1" with
      | .ok ⟨[.crunch ⟨_, _, _, [.assign name e _], _⟩], _⟩ =>
        name == "y" && e.span.slice "crunch f x -> y: y <- x <-1" == "x <-1"
      | _ => false) = true := by
  decide +kernel

/-- The value that is assigned and the routine are read again, although the arrow in the value was
read as the sign of a comparison and that of a number.

**Proof sketch.** What the source is read as is checked by computation; the definition and the
value of the statement are parts of the file, so that the general theorem applies to both. -/
theorem readAgain_of_has_comparison :
    ∃ (file : SourceFile) (r : Routine) (e : Expression) (s : Span),
      parse "crunch f x -> y: y <- x <-1" = .ok file ∧ file.definitions = [.crunch r]
        ∧ r.body = [.assign "y" e s]
        ∧ e.span.slice "crunch f x -> y: y <- x <-1" = "x <-1"
        ∧ (Node.definition (.crunch r)).ReadAgain "crunch f x -> y: y <- x <-1"
        ∧ (Node.expression e).ReadAgain "crunch f x -> y: y <- x <-1" := by
  have hshape := parse_comparison_shape
  have htokens : (tokenize "crunch f x -> y: y <- x <-1").toOption.isSome = true := by
    decide +kernel
  rcases hsource : tokenize "crunch f x -> y: y <- x <-1" with fault | tokens
  · simp [hsource, Except.toOption] at htokens
  rcases hfile : parse "crunch f x -> y: y <- x <-1" with fault | file
  · simp [hfile] at hshape
  rw [hfile] at hshape
  split at hshape
  case h_2 => cases hshape
  case h_1 f params result name e s span span' heq =>
    obtain rfl := Except.ok.inj heq
    obtain ⟨rfl, hslice⟩ : name = "y" ∧ _ := by simpa using hshape
    refine ⟨_, _, e, s, rfl, rfl, rfl, hslice, ?_, ?_⟩
    · exact (readAgain_of_has hsource).2 _ hfile _ ⟨_, List.mem_singleton_self _, .refl⟩
    · refine (readAgain_of_has hsource).2 _ hfile _ ⟨_, List.mem_singleton_self _, ?_⟩
      refine .head (b := .statement (.assign "y" e s)) ?_ (.single ?_)
      · simp [Node.children]
      · simp [Node.children]

end RakeLang
