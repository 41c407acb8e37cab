import RakeLang.Proofs.Accepting.ScalarTrial
import RakeLang.Proofs.Rereading.SourceFile

/-!
# Faults in order

Where all faults of a source are collected, they show further and further on, the unrecognised
characters first and then the faults of the definitions.  An attempt that is refused may have met
tokens that are ahead again, and its fault shows as far as at the first token that it did not meet.
Reading goes on at a word that opens a definition; no such word is among the tokens that were met,
unless `stack` or `single` is the last of them.  Behind such a word the next fault shows, and behind
`stack` or `single` even the name of a record is passed before it.

## Main definitions

* `RakeLang.Fault.Before` — one fault shows before another.
* `RakeLang.Cursor.Clears` — attempts from the cursor on tell only faults behind a byte.

## Main results

* `RakeLang.Fault.Shows.bounds` — between which tokens a fault shows.
* `RakeLang.clears_recover` — where reading goes on, what was told before is passed.
* `RakeLang.pairwise_attemptsUpTo` — the faults of a row of attempts.
* `RakeLang.collectAll_ordered` — the faults of a source.
-/

set_option relaxedAutoImplicit false
set_option autoImplicit false

namespace RakeLang

open Token Spelling

/-! ## The order of cursors -/

section Order

variable {source : String} {c c' : Cursor} {read ts us : List Token}

/-- Splits leave alone where the first token begins. -/
lemma Token.SplitsTo.headD_start (h : SplitsTo ts us) (last : Token) :
    (us.headD last).span.start = (ts.headD last).span.start := by
  induction h with
  | refl => rfl
  | tail _ hstep ih =>
    rw [← ih]
    cases hstep with
    | @sign t minus number before after h =>
      obtain ⟨-, rfl, -⟩ := eq_of_splitSign? h
      rcases before with _ | ⟨u, before⟩ <;> rfl
    | arrow before h =>
      obtain ⟨arrow, rest, rfl, -, ⟨next, more, -, -, rfl⟩ | rfl⟩ := cases_of_splitArrow? h
      all_goals rcases before with _ | ⟨u, before⟩ <;> rfl

/-- The cursor stands where the first of the tokens begins that are read from it on. -/
lemma Cursor.Reads.headD_start (h : c.Reads SplitsTo read c') :
    ((read ++ c'.ahead).headD c'.closing).span.start = c.peek.span.start := by
  rw [h.closing]
  exact h.ahead.headD_start c.closing

/-- The tokens that are read in a text, and those behind them, begin one behind the other. -/
lemma Cursor.Over.pairwise_reads (hc : c.Over source) (h : c.Reads SplitsTo read c') :
    (read ++ (c'.ahead ++ [c'.closing])).Pairwise fun t u => t.span.start < u.span.start := by
  have hpairwise := (hc.reads h).pairwise_start_lt
  rw [Cursor.tokens, h.past, List.reverse_append, List.reverse_reverse, List.append_assoc,
    List.append_assoc] at hpairwise
  exact (List.pairwise_append.1 hpairwise).2.1

/-- The token at a cursor is the first one of those ahead and the end of the input. -/
lemma Cursor.peek_mem_ahead (c : Cursor) : c.peek ∈ c.ahead ++ [c.closing] := by
  rcases hc : c.ahead with _ | ⟨t, ts⟩ <;> simp [peek, hc]

/-- Reading goes on in a text. -/
lemma Cursor.Over.peek_start_le (hc : c.Over source) (h : c.Reads SplitsTo read c') :
    c.peek.span.start ≤ c'.peek.span.start := by
  have hpairwise := hc.pairwise_reads h
  rw [← h.headD_start]
  rcases read with _ | ⟨t, read⟩
  · exact le_rfl
  · exact (List.rel_of_pairwise_cons hpairwise
      (List.mem_append_right _ c'.peek_mem_ahead)).le

/-- Behind a token that was read in a text reading stands further on. -/
lemma Cursor.Over.peek_start_lt (hc : c.Over source) (h : c.Reads SplitsTo read c')
    (hread : read ≠ []) : c.peek.span.start < c'.peek.span.start := by
  obtain ⟨t, read, rfl⟩ := List.exists_cons_of_ne_nil hread
  rw [← h.headD_start]
  exact List.rel_of_pairwise_cons (hc.pairwise_reads h)
    (List.mem_append_right _ c'.peek_mem_ahead)

/-- Where tokens begin one behind the other, each of some first ones begins behind the first, and
before those that follow.

**Proof sketch.** By cases on whether any token was met.  If none was, the token is the first of the
rest.  Otherwise it lies between the first token that was met and the first of the rest, by the
order of the whole row. -/
lemma Token.start_bounds {met rest : List Token} {last t : Token}
    (h : (met ++ (rest ++ [last])).Pairwise fun t u => t.span.start < u.span.start)
    (ht : t ∈ met ∨ t = rest.headD last) :
    ((met ++ rest).headD last).span.start ≤ t.span.start
      ∧ t.span.start ≤ (rest.headD last).span.start := by
  obtain ⟨hmet, -, hcross⟩ := List.pairwise_append.1 h
  have hnext : rest.headD last ∈ rest ++ [last] := by
    rcases rest with _ | ⟨u, rest⟩ <;> simp
  rcases met with _ | ⟨u, us⟩
  · obtain rfl : t = rest.headD last := by simpa using ht
    exact ⟨le_rfl, le_rfl⟩
  · rcases ht with ht | rfl
    · refine ⟨?_, (hcross t ht _ hnext).le⟩
      rcases List.mem_cons.1 ht with rfl | ht
      · exact le_rfl
      · exact (List.rel_of_pairwise_cons hmet ht).le
    · exact ⟨(hcross u List.mem_cons_self _ hnext).le, le_rfl⟩

end Order

/-! ## Where a fault shows -/

namespace Fault

variable {source : String} {fault : Fault} {c : Cursor} {read rest : List Token}

/-- A fault is told of the token at the cursor or of one that was read. -/
lemma ToldAt.exists_token (h : fault.ToldAt c read) :
    ∃ t, fault.span? = some t.span ∧ (t = c.peek ∨ t ∈ read) := by
  cases h with
  | unexpected | misplaced | unclosed => exact ⟨c.peek, rfl, .inl rfl⟩
  | numeral ht | opposite ht => exact ⟨_, rfl, .inr (List.mem_of_getLast? ht)⟩

/-- A fault that is told of tokens in a text shows at one of them, or at the first one behind. -/
theorem Shows.bounds (hc : c.Over source) (h : fault.Shows c rest) :
    ∃ span ∈ fault.span?, c.peek.span.start ≤ span.start
      ∧ span.start ≤ (rest.headD c.closing).span.start := by
  obtain ⟨read, left, c', hread, hahead, htold⟩ := h
  obtain ⟨t, hspan, ht⟩ := htold.exists_token
  refine ⟨t.span, hspan, ?_⟩
  have hpairwise := hc.pairwise_reads hread
  rw [← hread.closing, ← hread.headD_start, hahead, ← List.append_assoc]
  rw [hahead, List.append_assoc, ← List.append_assoc] at hpairwise
  have hmem : t ∈ read ++ left ∨ t = rest.headD c'.closing := by
    rcases ht with rfl | ht
    · rcases left with _ | ⟨u, left⟩ <;> simp [Cursor.peek, hahead]
    · exact .inl (List.mem_append_left _ ht)
  exact start_bounds hpairwise hmem

/-- The fault shows before the other one. -/
def Before (fault other : Fault) : Prop :=
  ∃ s ∈ fault.span?, ∃ t ∈ other.span?, s.start < t.start

end Fault

/-! ## Attempts that go on behind a fault -/

/-- What attempts from the cursor on tell shows behind the byte `n`: they begin behind it, or with a
word there that opens a definition, or with the word `stack` or `single` and the name of a record
there. -/
inductive Cursor.Clears (n : Nat) (c : Cursor) : Prop
  | ended (h : c.atEnd = true)
  | behind (h : n < c.peek.span.start)
  | opening (hopens : c.peek.kind.opensDefinition = true) (h : n ≤ c.peek.span.start)
  | named (hkind : c.peek.kind = .keyword .stack ∨ c.peek.kind = .keyword .single)
      (hname : c.advance.peek.kind = .typeIdent) (h : n ≤ c.advance.peek.span.start)

section Attempts

variable {source : String} {c c' : Cursor} {fault : Fault} {d : Definition} {n : Nat}

/-- The fault of an attempt shows at the token where the attempt began or behind it. -/
lemma start_le_of_definition (hc : c.Over source) (h : Parser.definition c = .error fault c') :
    ∃ span ∈ fault.span?, c.peek.span.start ≤ span.start := by
  obtain ⟨rest, hshows⟩ := Parser.definition_shows h
  obtain ⟨span, hspan, hle, -⟩ := hshows.bounds hc
  exact ⟨span, hspan, hle⟩

/-- The fault of an attempt at a definition that a word opens shows behind that word, and among the
tokens behind the word that were met or at the first one that was not. -/
lemma exists_passes_of_definition (hopens : c.peek.kind.opensDefinition = true)
    (h : Parser.definition c = .error fault c') :
    ∃ read left rest, c.advance.Passes .plain read left rest c' ∧ fault.Shows c.advance rest := by
  obtain ⟨q, hq, hwithin⟩ := Parser.definition_opens hopens
  exact hwithin.error fault c' (hq ▸ h)

/-- What an attempt tells that is refused shows behind what is cleared.

**Proof sketch.** By cases on why the place is cleared.  At the end of the input no attempt is made.
A fault shows at the start of its attempt at the earliest, which settles the second case.  In the
other two the attempt consumes one token, or two, that lie behind what is cleared, and shows its
fault behind these. -/
lemma Cursor.Clears.error (hclears : c.Clears n) (hc : c.Over source) (hend : c.atEnd = false)
    (h : Parser.definition c = .error fault c') : ∃ span ∈ fault.span?, n < span.start := by
  cases hclears with
  | ended hended => simp [hended] at hend
  | behind hlt =>
    obtain ⟨span, hspan, hle⟩ := start_le_of_definition hc h
    exact ⟨span, hspan, hlt.trans_le hle⟩
  | opening hopens hle =>
    have hread := Cursor.reads_advance (R := SplitsTo) (Parser.ne_of_opensDefinition hopens rfl)
    obtain ⟨_, _, _, -, hshows⟩ := exists_passes_of_definition hopens h
    obtain ⟨span, hspan, hle', -⟩ := hshows.bounds (hc.reads hread)
    exact ⟨span, hspan, (hle.trans_lt (hc.peek_start_lt hread (by simp))).trans_le hle'⟩
  | named hkind hname hle =>
    have hread := Cursor.reads_advance (R := SplitsTo) (c := c) (by
      rcases hkind with h | h <;> simp [h])
    have hread' := Cursor.reads_advance (R := SplitsTo) (c := c.advance) (by simp [hname])
    have hc₁ := hc.reads hread
    obtain ⟨q, hq, hwithin⟩ := Parser.definition_opens_named hkind hname
    obtain ⟨_, _, _, -, hshows⟩ := hwithin.error fault c' (hq ▸ h)
    obtain ⟨span, hspan, hle', -⟩ := hshows.bounds (hc₁.reads hread')
    exact ⟨span, hspan, (hle.trans_lt (hc₁.peek_start_lt hread' (by simp))).trans_le hle'⟩

/-- Behind a definition that was read, attempts begin behind what is cleared.

**Proof sketch.** A definition that is read consumes at least its first token, so the next attempt
begins strictly behind the first token of this one.  That is behind what is cleared, at once in the
first three cases, and in the last one because the definition consumes the name of the type as well.
-/
lemma Cursor.Clears.ok (hclears : c.Clears n) (hc : c.Over source) (hend : c.atEnd = false)
    (h : Parser.definition c = .ok d c') : c'.Clears n := by
  have hpeek : c.peek.kind ≠ .eof := by simpa [Cursor.atEnd] using hend
  obtain ⟨inner, hread⟩ := (tries_definition hpeek h).reads
  have hlt := hc.peek_start_lt hread (by simp)
  refine .behind ?_
  cases hclears with
  | ended hended => simp [hended] at hend
  | behind hn => exact hn.trans hlt
  | opening _ hn => exact hn.trans_lt hlt
  | named hkind hname hn =>
    have hread₁ := hc.reads (Cursor.reads_advance hpeek)
    have hread₂ := Cursor.reads_advance (R := SplitsTo) (c := c.advance) (by simp [hname])
    obtain ⟨q, hq, hwithin⟩ := Parser.definition_opens_named hkind hname
    obtain ⟨_, _, _, _, hpasses, -⟩ := hwithin.ok d c' (hq ▸ h)
    exact (hn.trans_lt (hread₁.peek_start_lt hread₂ (by simp))).trans_le
      ((hread₁.reads hread₂).peek_start_le hpasses.reads)

/-- Where the token at the cursor opens no definition, the fault shows there, and reading goes on
behind it. -/
lemma clears_recover_of_not_opens {span : Span} (hc : c.Over source) (hend : c.atEnd = false)
    (hopens : c.peek.kind.opensDefinition = false) (h : Parser.definition c = .error fault c')
    (hspan : span ∈ fault.span?) : (c'.recover c.position).Clears span.start := by
  obtain ⟨fault', hrefused, htold⟩ := Parser.definition_refused hopens
  obtain ⟨rfl, rfl⟩ := EStateM.Result.error.inj (hrefused.symm.trans h)
  obtain ⟨t, ht, rfl | ht'⟩ := htold.exists_token
  · obtain rfl := Option.some.inj (ht.symm.trans hspan)
    have hadvance := Cursor.reads_advance (R := SplitsTo) (by simpa [Cursor.atEnd] using hend)
    obtain ⟨read, hread⟩ := c.advance.exists_reads_skipToDefinition
    have hrecover : c.recover c.position = c.advance.skipToDefinition := by simp [Cursor.recover]
    rw [hrecover]
    exact .behind (hc.peek_start_lt (hadvance.trans hread) (by simp))
  · cases ht'

/-- Where tokens that were met are followed by others, what is skipped of all of them ends behind
the ones that were met, or in front of one of them. -/
lemma skipped_cases {left rest skipped ahead : List Token}
    (h : left ++ rest = skipped ++ ahead) :
    (∃ more, skipped = left ++ more ∧ rest = more ++ ahead)
      ∨ ∃ u met, left = skipped ++ u :: met ∧ ahead = u :: met ++ rest := by
  rcases List.append_eq_append_iff.1 h with ⟨more, hmore, hrest⟩ | ⟨_ | ⟨u, met⟩, hleft, hmet⟩
  · exact .inl ⟨more, hmore, hrest⟩
  · exact .inl ⟨[], by simpa using hleft.symm, by simpa using hmet.symm⟩
  · exact .inr ⟨u, met, hleft, hmet⟩

/-- **Where reading goes on** behind a definition that was refused, its fault is passed.

**Proof sketch.** The fault shows at the latest at the first token that was not met.  Where the word
  at which reading goes on is not one of those that were met, it is that token or one behind it.
  Otherwise it is the last one of them, the word `stack` or `single`, and what was not met begins
  with the name of a record. -/
theorem clears_recover {span : Span} (hc : c.Over source) (hend : c.atEnd = false)
    (h : Parser.definition c = .error fault c') (hspan : span ∈ fault.span?) :
    (c'.recover c.position).Clears span.start := by
  rcases hopens : c.peek.kind.opensDefinition with _ | _
  · exact clears_recover_of_not_opens hc hend hopens h hspan
  have hpeek : c.peek.kind ≠ .eof := Parser.ne_of_opensDefinition hopens rfl
  obtain ⟨read, left, rest, hpasses, hshows⟩ := exists_passes_of_definition hopens h
  have hc₁ := hc.reads (Cursor.reads_advance hpeek)
  obtain ⟨span', hspan', -, hle⟩ := hshows.bounds hc₁
  obtain rfl := Option.mem_unique hspan hspan'
  have hposition : c'.position ≠ c.position := by
    obtain ⟨ts, hts⟩ := Cursor.exists_ahead_of_peek hpeek
    simp [Cursor.position, hpasses.reads.past, Cursor.advance, hts]
    omega
  obtain ⟨skipped, hskipped⟩ := (Cursor.skips_recover hposition).reads
  have hboundary := c'.atDefinitionBoundary_recover c.position
  generalize c'.recover c.position = c₂ at hskipped hboundary ⊢
  rcases Bool.or_eq_true_iff.1 hboundary with hended | hstart
  · exact .ended hended
  rw [← hpasses.reads.closing] at hle
  rcases skipped_cases (hpasses.ahead.symm.trans hskipped.ahead) with
    ⟨more, rfl, rfl⟩ | ⟨u, met, rfl, hmet⟩
  · -- from the first token that was not met on, reading skips to the next definition
    let c₃ : Cursor := ⟨left.reverse ++ c'.past, more ++ c₂.ahead, c'.closing, c'.closing_kind⟩
    have hread₃ : c'.Reads SplitsTo left c₃ := .of_eq ⟨rfl, hpasses.ahead, rfl⟩
    have hread₂ : c₃.Reads SplitsTo more c₂ :=
      .of_eq ⟨by simp [c₃, hskipped.past], rfl, hskipped.closing⟩
    have hle₂ := ((hc₁.reads hpasses.reads).reads hread₃).peek_start_le hread₂
    rcases Parser.headKind_of_atDefinitionBoundary hboundary with heof | hopens₂
    · exact .ended (by simp [Cursor.atEnd, Cursor.peek_kind, heof])
    · exact .opening (c₂.peek_kind ▸ hopens₂) (hle.trans hle₂)
  · -- reading goes on with the last token that was met
    have hwithin := hpasses.within
    rw [← List.append_assoc] at hwithin
    obtain ⟨s, -, hrun⟩ := Seam.exists_run hwithin
    obtain ⟨rfl, hkind, hname⟩ := Seam.eq_nil_of_atDefinitionStart hrun hmet hstart
    have hpeek₂ : c₂.peek = u := by simp [Cursor.peek, hmet]
    have hnext : c₂.advance.peek = rest.headD c'.closing := by
      simp [Cursor.peek, Cursor.advance, hmet, hskipped.closing]
    have hahead₂ : c₂.lookahead 1 = rest.headD c'.closing := by
      simp [Cursor.lookahead, hmet, hskipped.closing]
    exact .named (hpeek₂ ▸ hkind) (by rwa [hnext, ← hahead₂]) (by rwa [hnext])

/-- A fault of a row of attempts is told by an attempt at a cursor in the text.

**Proof sketch.** Induction on the bound of the attempts.  The fault is that of the first attempt,
or one of the attempts behind a definition or behind the recovery, where the cursor is in the text
again. -/
lemma exists_of_fault (mode : ErrorMode) (n : Nat) : ∀ c : Cursor, c.Over source →
    ∀ fault ∈ (attemptsUpTo mode n c).1.filterMap Attempt.fault?,
      ∃ c₁ c₂ : Cursor, c₁.Over source ∧ Parser.definition c₁ = .error fault c₂ := by
  induction n with
  | zero => exact fun _ _ _ hfault => nomatch hfault
  | succ n ih =>
    intro c hc fault hfault
    rw [attemptsUpTo] at hfault
    split at hfault
    · cases hfault
    rcases hrun : Parser.definition c with ⟨d, c'⟩ | ⟨other, c'⟩
    · obtain ⟨read, hread, -⟩ := (Parser.definition_places c).ok d c' hrun
      rw [hrun] at hfault
      exact ih c' (hc.reads hread) fault hfault
    · obtain ⟨read, hread⟩ := (Parser.definition_places c).error other c' hrun
      obtain ⟨read', hread'⟩ := c'.exists_reads_recover c.position
      rw [hrun] at hfault
      cases mode with
      | failFast =>
        obtain rfl : fault = other := by simpa [Attempt.fault?] using hfault
        exact ⟨c, c', hc, hrun⟩
      | collectAll =>
        rcases List.mem_cons.1 hfault with rfl | hfault
        · exact ⟨c, c', hc, hrun⟩
        · exact ih _ ((hc.reads hread).reads hread') fault hfault

/-- The faults of a row of attempts show one behind the other, and behind what is cleared where the
row begins.

**Proof sketch.** Induction on the bound of the row.  What an attempt tells is cleared where reading
  goes on. -/
theorem pairwise_attemptsUpTo (n : Nat) : ∀ c : Cursor, c.Over source →
    ((attemptsUpTo .collectAll n c).1.filterMap Attempt.fault?).Pairwise Fault.Before
      ∧ ∀ k, c.Clears k → ∀ fault ∈ (attemptsUpTo .collectAll n c).1.filterMap Attempt.fault?,
        ∃ span ∈ fault.span?, k < span.start := by
  induction n with
  | zero => exact fun _ _ => ⟨.nil, fun _ _ _ hfault => absurd hfault List.not_mem_nil⟩
  | succ n ih =>
    intro c hc
    rw [attemptsUpTo]
    by_cases hend : c.atEnd = true
    · rw [if_pos hend]
      exact ⟨.nil, fun _ _ _ hfault => absurd hfault List.not_mem_nil⟩
    rw [if_neg hend]
    have hend : c.atEnd = false := Bool.eq_false_iff.2 hend
    rcases hrun : Parser.definition c with ⟨d, c'⟩ | ⟨fault, c'⟩
    · obtain ⟨read, hread, -⟩ := (Parser.definition_places c).ok d c' hrun
      obtain ⟨hpairwise, hbehind⟩ := ih c' (hc.reads hread)
      exact ⟨hpairwise, fun k hk => hbehind k (hk.ok hc hend hrun)⟩
    · obtain ⟨read, hread⟩ := (Parser.definition_places c).error fault c' hrun
      obtain ⟨read', hread'⟩ := c'.exists_reads_recover c.position
      obtain ⟨hpairwise, hbehind⟩ := ih _ ((hc.reads hread).reads hread')
      obtain ⟨span, hspan, -⟩ := start_le_of_definition hc hrun
      have hlater := hbehind span.start (clears_recover hc hend hrun hspan)
      refine ⟨List.pairwise_cons.2 ⟨fun other hother => ⟨span, hspan, hlater other hother⟩,
        hpairwise⟩, fun k hk => List.forall_mem_cons.2 ⟨hk.error hc hend hrun, ?_⟩⟩
      intro other hother
      obtain ⟨span', hspan', hlt⟩ := hk.error hc hend hrun
      obtain rfl := Option.mem_unique hspan hspan'
      obtain ⟨span', hspan', hlt'⟩ := hlater other hother
      exact ⟨span', hspan', hlt.trans hlt'⟩

end Attempts

/-! ## Source files -/

/-- The unrecognised characters of a text are told in the order of the text.

**Proof sketch.** The items of a lexed text follow each other in the text, and an unrecognised
character takes room. -/
lemma pairwise_unrecognized (source : String) :
    ((lex source).filterMap LexItem.fault?).Pairwise Fault.Before
      ∧ ∀ fault ∈ (lex source).filterMap LexItem.fault?,
        ∃ char span, fault = .unrecognized char span := by
  obtain ⟨items, hitems, -, hall⟩ := Lexer.exists_items_munched source
  have hfaults : (lex source).filterMap LexItem.fault? = items.filterMap LexItem.fault? := by
    rw [hitems, List.filterMap_append]
    exact List.append_nil _
  rw [hfaults]
  constructor
  · refine List.pairwise_filterMap.2 ((LexItem.pairwise_of_munched hall).1.imp_of_mem ?_)
    rintro (_ | ⟨char, span⟩) (_ | ⟨char', span'⟩) hitem - hle fault hfault other hother
    case unrecognized.unrecognized =>
      obtain rfl := Option.some.inj hfault
      obtain rfl := Option.some.inj hother
      obtain ⟨before, after, hsplit⟩ := List.append_of_mem hitem
      obtain ⟨passed, gap, rest, -, -, -, -, hspan, -⟩ := hall before _ after hsplit
      have hlt : span.start < span.stop := by
        rw [hspan, Place.after_append _ (passed ++ gap)]
        exact Place.offset_lt_after _ char []
      exact ⟨span, rfl, span', rfl, hlt.trans_le hle⟩
    all_goals simp [LexItem.fault?] at hfault hother
  · intro fault hfault
    obtain ⟨_ | ⟨char, span⟩, -, hitem⟩ := List.mem_filterMap.1 hfault
    · cases hitem
    · exact ⟨char, span, (Option.some.inj hitem).symm⟩

/-- **Faults are told in order.**  Where all faults of a source are collected, these are the
unrecognised characters, each one behind the one before it, and then the faults of the definitions,
each one behind the one before it.  All of them show somewhere, so that none is told twice.

**Proof sketch.** The unrecognised characters come from the lexer, and the other faults from
attempts at definitions (`exists_of_fault`), which tell no unrecognised character.  Attempts tell
their faults in order, since each of them clears what is met before the next one
(`pairwise_attemptsUpTo`). -/
theorem collectAll_ordered (sourceId source : String) :
    ∃ lexical syntactic,
      (parseSource sourceId source .collectAll).diagnostics.faults = lexical ++ syntactic
        ∧ (∀ fault ∈ lexical, ∃ char span, fault = .unrecognized char span)
        ∧ (∀ fault ∈ syntactic, ∀ char span, fault ≠ .unrecognized char span)
        ∧ (∀ fault ∈ lexical ++ syntactic, ∃ span, fault.span? = some span)
        ∧ lexical.Pairwise Fault.Before ∧ syntactic.Pairwise Fault.Before := by
  let start : Cursor := .ofTokens ((lex source).filterMap LexItem.token?)
  have hstart : start.Over source := Session.over_run source []
  obtain ⟨hlexical, hunrecognized⟩ := pairwise_unrecognized source
  have hattempt := exists_of_fault .collectAll start.remaining start hstart
  refine ⟨_, (attempts .collectAll start).1.filterMap Attempt.fault?, rfl, hunrecognized, ?_,
    fun fault hfault => ?_, hlexical, (pairwise_attemptsUpTo start.remaining start hstart).1⟩
  · rintro fault hfault char span rfl
    obtain ⟨c₁, c₂, -, hrun⟩ := hattempt _ hfault
    obtain ⟨_, _, _, _, -, -, htold⟩ := Parser.definition_shows hrun
    cases htold
  · rcases List.mem_append.1 hfault with hfault | hfault
    · obtain ⟨char, span, rfl⟩ := hunrecognized fault hfault
      exact ⟨span, rfl⟩
    · obtain ⟨c₁, c₂, hc₁, hrun⟩ := hattempt fault hfault
      obtain ⟨span, hspan, -⟩ := start_le_of_definition hc₁ hrun
      exact ⟨span, hspan⟩

end RakeLang
