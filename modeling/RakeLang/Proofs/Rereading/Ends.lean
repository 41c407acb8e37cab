import RakeLang.Proofs.Attempting.Recovery
import RakeLang.Proofs.Rereading.Definition

/-!
# Where definitions end

No split reaches beyond the definition for which it was made: a definition ends with a token that no
split takes part in, or, if it is a routine, where the next definition begins.  The tokens that it
was read from are therefore tokens of the whole, and what stands behind them does not bear on how
they are read.

## Main definitions

* `RakeLang.Spelling.firm` — lists of tokens with a last one that no split takes part in.
* `RakeLang.Parser.Extent` — the tokens that a definition was read from.

## Main results

* `RakeLang.Token.SplitsTo.of_append_cons` — splits on both sides of a token that no split takes
  part in.
* `RakeLang.Parser.exists_extent` — what a definition was read from.
-/

set_option relaxedAutoImplicit false
set_option autoImplicit false

namespace RakeLang

open Token Spelling

/-! ## Splits around a token -/

/-- A place in a list of three parts that does not lie in the middle one.

**Proof sketch.** The place is compared with the two seams.  If it lies before the first one, it is
in `outer`; otherwise it is in `mid`, which `ha` excludes, or behind the second seam. -/
lemma append_cons_cases {α : Type} {outer mid more before after : List α} {a : α}
    (h : outer ++ (mid ++ more) = before ++ a :: after) (ha : a ∉ mid) :
    (∃ inner, outer = before ++ a :: inner ∧ after = inner ++ (mid ++ more))
      ∨ ∃ inner, more = inner ++ a :: after ∧ before = outer ++ (mid ++ inner) := by
  rcases List.append_eq_append_iff.1 h with ⟨inner, rfl, hmid⟩ | ⟨inner, rfl, hmid⟩
  · rcases List.append_eq_append_iff.1 hmid with ⟨inner', rfl, rfl⟩ | ⟨inner', rfl, hmore⟩
    · exact .inr ⟨inner', rfl, rfl⟩
    · rcases inner' with _ | ⟨b, inner'⟩
      · exact .inr ⟨[], hmore.symm, by simp⟩
      · obtain ⟨rfl, -⟩ := List.cons.inj hmore
        simp at ha
  · rcases inner with _ | ⟨b, inner⟩
    · rcases mid with _ | ⟨b, mid⟩
      · exact .inr ⟨[], hmid.symm, by simp⟩
      · obtain ⟨rfl, -⟩ := List.cons.inj hmid
        simp at ha
    · obtain ⟨rfl, rfl⟩ := List.cons.inj hmid
      exact .inl ⟨inner, rfl, rfl⟩

namespace Token

variable {ts us before after more : List Token} {t first second : Token}

section Splits

/-- A token that no split takes part in is none of the pieces of another one. -/
lemma Halves.notMem (h : Halves ts first second more) (ht : t.kind.inSplit = false) :
    t ∉ [first, second] := by
  have hkind {u : Token} (hu : u.kind.inSplit = true) : t ≠ u := by
    rintro rfl
    rw [ht] at hu
    cases hu
  have hfirst : first.kind.inSplit = true := by
    rcases h.first_kind with hk | hk <;> rw [hk] <;> rfl
  have hsecond : second.kind.inSplit = true := by
    rcases h.second_kind with hk | hk
    · rw [hk]
      rfl
    · generalize second.kind = kind at hk
      cases kind <;> first | rfl | cases hk
  simp [hkind hfirst, hkind hsecond]

/-- What stands on both sides of a token that no split takes part in is split by itself.

**Proof sketch.** Induction on the splits.  The token is none of the pieces of the last split, so
that this split is of a token in front of it or behind it, and does not reach over it. -/
theorem SplitsTo.of_append_cons (h : SplitsTo ts us) (hus : us = before ++ t :: after)
    (ht : t.kind.inSplit = false) :
    ∃ before' after', ts = before' ++ t :: after' ∧ SplitsTo before' before
      ∧ SplitsTo after' after := by
  induction h generalizing before after with
  | refl => exact ⟨before, after, hus, .refl, .refl⟩
  | tail _ hstep ih =>
    obtain ⟨outer, rest, first, second, more, rfl, hhalves, rfl⟩ := hstep.exists_halves
    obtain ⟨taken, -, rfl, -, htaken⟩ := hhalves.exists_append
    rcases append_cons_cases hus (hhalves.notMem ht) with ⟨inner, rfl, rfl⟩ | ⟨inner, rfl, rfl⟩
    · obtain ⟨before', after', rfl, hbefore, hafter⟩ :=
        ih (show _ = before ++ t :: (inner ++ (taken ++ more)) by simp)
      exact ⟨before', after', rfl, hbefore, hafter.tail (hhalves.splitStep inner)⟩
    · obtain ⟨before', after', rfl, hbefore, hafter⟩ :=
        ih (show _ = (outer ++ (taken ++ inner)) ++ t :: after by simp)
      have hinner := htaken inner fun _ next hnext => by
        rcases inner with _ | ⟨u, inner⟩
        · cases hnext
        · exact hnext
      exact ⟨before', after', rfl, hbefore.tail (hinner.splitStep outer), hafter⟩

/-- Two ways to cut some tokens that leave as many pieces behind are the same. -/
lemma append_inj_of_countPieces {rest rest' : List Token} (h : ts ++ rest = us ++ rest')
    (hcount : countPieces rest = countPieces rest') : ts = us ∧ rest = rest' := by
  obtain ⟨between, rfl, rfl⟩ := Parser.exists_between h hcount.ge
  have hbetween : between = [] := by
    have := Cursor.length_le_countPieces between
    rw [countPieces_append] at hcount
    exact List.length_eq_zero_iff.1 (by omega)
  simp [hbetween]

/-- If no split takes part in the last token that is left of the tokens, it is the last one of those
that were there. -/
lemma SplitsTo.of_concat {rest : List Token} (h : SplitsTo (ts ++ rest) (us ++ [t] ++ rest))
    (ht : t.kind.inSplit = false) : ∃ ts', ts = ts' ++ [t] := by
  obtain ⟨before, after, heq, -, hafter⟩ := h.of_append_cons (List.append_cons us t rest).symm ht
  rw [List.append_cons] at heq
  obtain ⟨rfl, -⟩ := append_inj_of_countPieces heq hafter.countPieces_eq
  exact ⟨before, rfl⟩

/-- Before a token that no split takes part in, tokens are split by themselves. -/
lemma SplitsTo.of_append_right {rest : List Token} (h : SplitsTo (ts ++ rest) (us ++ rest))
    (hrest : ∀ t ∈ rest.head?, t.kind.inSplit = false) : SplitsTo ts us := by
  rcases rest with _ | ⟨t, rest⟩
  · simpa using h
  · obtain ⟨before, after, heq, hbefore, hafter⟩ := h.of_append_cons rfl (hrest t rfl)
    obtain ⟨rfl, -⟩ := append_inj_of_countPieces heq (by
      rw [countPieces_cons, countPieces_cons, hafter.countPieces_eq])
    exact hbefore

end Splits

end Token

/-! ## Last tokens -/

namespace Spelling

/-- Lists of tokens with a last one that no split takes part in. -/
def firm : Language Token := {ts : List Token | ∃ us t, ts = us ++ [t] ∧ t.kind.inSplit = false}

section Firm

variable {L M : Language Token}

/-- What ends firmly does so behind anything. -/
lemma mul_le_firm (hM : M ≤ firm) : L * M ≤ firm := by
  rintro _ ⟨us, -, vs, hvs, rfl⟩
  obtain ⟨ws, t, rfl, ht⟩ := hM hvs
  exact ⟨us ++ ws, t, (List.append_assoc us ws [t]).symm, ht⟩

/-- What ends firmly does so with its span. -/
lemma covering_le_firm {s : Span} (hL : L ≤ firm) : covering s L ≤ firm :=
  covering_le.trans hL

/-- A token that no split takes part in is a firm end. -/
lemma token_le_firm {P : Token → Prop} (h : ∀ t, P t → t.kind.inSplit = false) :
    token P ≤ firm := by
  rintro _ ⟨t, ht, rfl⟩
  exact ⟨[], t, rfl, h t ht⟩

/-- A sign that no split takes part in is a firm end. -/
lemma sign_le_firm {s : Symbol} (h : (Kind.symbol s).inSplit = false) : sign s ≤ firm :=
  token_le_firm fun t ht => by rwa [ht]

/-- A keyword is a firm end. -/
lemma keyword_le_firm (k : Keyword) : keyword k ≤ firm :=
  token_le_firm fun t ht => by
    rw [ht]
    rfl

/-- A word that no split takes part in is a firm end. -/
lemma word_le_firm {k : Kind} {text : String} (h : k.inSplit = false) : word k text ≤ firm :=
  token_le_firm fun t ht => by rwa [ht.1]

end Firm

end Spelling

/-- A type ends with a name, a keyword or a parenthesis, which no split takes part in.

**Proof sketch.** By recursion on the type.  A function ends where its result does; every other type
spells its last token itself. -/
lemma DataType.spelling_le_firm : ∀ t : DataType, t.spelling ≤ firm
  | lane .. | mask .. => by
    rw [DataType.spelling]
    exact word_le_firm rfl
  | rack .. | pack .. => by
    rw [DataType.spelling]
    exact mul_le_firm (word_le_firm rfl)
  | stack .. | single .. => by
    rw [DataType.spelling]
    exact mul_le_firm (keyword_le_firm _)
  | function params result _ => by
    rw [DataType.spelling]
    exact mul_le_firm (mul_le_firm (mul_le_firm (mul_le_firm result.spelling_le_firm)))
  | tuple .. => by
    rw [DataType.spelling]
    exact mul_le_firm (mul_le_firm (sign_le_firm rfl))
  | unit .. => by
    rw [DataType.spelling]
    exact mul_le_firm (sign_le_firm rfl)

/-- A record ends with its closing parenthesis. -/
lemma RecordDef.placed_le_firm (r : RecordDef) : r.placed ≤ firm :=
  mul_le_firm (mul_le_firm (mul_le_firm (sign_le_firm rfl)))

/-- An alias ends with its type. -/
lemma TypeAlias.placed_le_firm (a : TypeAlias) : a.placed ≤ firm :=
  mul_le_firm (mul_le_firm (a.aliased.placed_le.trans a.aliased.spelling_le_firm))

/-- A rake ends with the name behind its sweep. -/
lemma RakeDef.placed_le_firm (r : RakeDef) : r.placed ≤ firm := by
  have hsweep : r.sweep.placed ≤ firm :=
    covering_le_firm (mul_le_firm (mul_le_firm (mul_le_firm (mul_le_firm (word_le_firm rfl)))))
  exact mul_le_firm (mul_le_firm (mul_le_firm (mul_le_firm (mul_le_firm hsweep))))

namespace Parser

variable {c c' : Cursor} {d : Definition}

/-! ## Ends of routines -/

/-- A routine ends where the next definition can begin.

**Proof sketch.** The loop of statements stops where the body is at a boundary: a round without
an answer is one at a boundary, and a round with one consumes a token, since a statement is not
spelled by nothing. -/
lemma routine_stops (hc : c.peek.kind ≠ .eof) :
    routine.Ensures SplitsTo c fun _ _ c' => c'.atDefinitionBoundary = true := by
  have hbody (c : Cursor) : bodyStatement.Ensures SplitsTo c fun o us c' =>
      (o ≠ none → us ≠ []) ∧ (o = none → c'.atDefinitionBoundary = true) := by
    unfold bodyStatement
    by_cases hc : c.atDefinitionBoundary = true
    · exact .stay (if_pos hc) ⟨fun h => absurd rfl h, fun _ => hc⟩
    · refine Ensures.congr (p := some <$> statement) ?_ (if_neg hc)
      rw [map_eq_pure_bind]
      refine (statement_ensures c).bind fun s ts c₁ _ hs => .pure ⟨fun _ => ?_, nofun⟩
      rw [List.append_nil]
      exact ne_nil_of_statement hs.1
  unfold routine
  refine .advance_bind hc (.expect_bind (by simp) fun name _ => ?_)
  refine (signature_ensures _).bind ?_
  rintro ⟨params, result⟩ ts c₁ - -
  exact (Ensures.many_stops hbody (fun _ => Cursor.atDefinitionBoundary_of_ahead_nil) _).bind
    fun _ _ _ _ hstop => .spanFrom_bind (.pure hstop)

/-- A definition is a routine, or it ends with a token that no split takes part in.

**Proof sketch.** By the word at the head.  Records, aliases and rakes end with a token that no
split takes part in; a routine ends where its body does, which is at a boundary of definitions. -/
lemma definition_ends (c : Cursor) : definition.Ensures SplitsTo c fun d _ c' =>
    c.peek.kind ∈ [.keyword .crunch, .keyword .run] ∧ c'.atDefinitionBoundary = true
      ∨ c.peek.kind ∉ [.keyword .crunch, .keyword .run] ∧ d.placed ≤ firm := by
  have hlast {L : Language Token} {s : Span} {k : Keyword} (hL : L ≤ firm) :
      covering s (keyword k * L) ≤ firm := covering_le_firm (mul_le_firm hL)
  unfold definition
  apply Ensures.peekKind_bind
  split
  case h_1 hc | h_2 hc =>
    exact (recordDef_ensures (by simp [hc])).bind fun r _ _ _ _ =>
      .pure (.inr ⟨by simp [hc], hlast r.placed_le_firm⟩)
  case h_3 hc =>
    exact (typeAlias_ensures (by simp [hc])).bind fun a _ _ _ _ =>
      .pure (.inr ⟨by simp [hc], hlast a.placed_le_firm⟩)
  case h_4 hc | h_6 hc =>
    exact (routine_stops (by simp [hc])).bind fun _ _ _ _ hstop =>
      .pure (.inl ⟨by simp [hc], hstop⟩)
  case h_5 hc =>
    exact (rakeDef_ensures (by simp [hc])).bind fun r _ _ _ _ =>
      .pure (.inr ⟨by simp [hc], hlast r.placed_le_firm⟩)
  case h_7 => exact .unexpected

/-! ## The tokens of a definition -/

/-- The definition was read from the tokens `raw`, in which what was read stands. -/
structure Extent (c : Cursor) (d : Definition) (raw : List Token) (c' : Cursor) : Prop where
  ahead : c.ahead = raw ++ c'.ahead
  covers : d.span.Covers raw
  severed : Severed raw c'.ahead

/-- A token that opens a definition is not of a kind that opens none. -/
lemma ne_of_opensDefinition {kind other : Kind} (h : kind.opensDefinition = true)
    (hother : other.opensDefinition = false) : kind ≠ other :=
  ne_of_apply_ne Kind.opensDefinition (by simp [h, hother])

/-- A definition is read where one opens. -/
lemma opens_of_definition (h : definition c = .ok d c') :
    c.peek.kind.opensDefinition = true := by
  by_contra hc
  obtain ⟨fault, hfault, -⟩ := definition_refused (Bool.eq_false_iff.2 hc)
  cases hfault.symm.trans h

/-- At a boundary of definitions the input ends or a definition opens. -/
lemma headKind_of_atDefinitionBoundary (hc : c.atDefinitionBoundary = true) :
    headKind c.ahead = .eof ∨ (headKind c.ahead).opensDefinition = true := by
  rw [← c.peek_kind]
  simp only [Cursor.atDefinitionBoundary, Cursor.atEnd, Bool.or_eq_true, beq_iff_eq] at hc
  refine hc.imp_right fun hstart => ?_
  unfold Cursor.atDefinitionStart at hstart
  split at hstart
  case h_1 hkind | h_2 hkind =>
    rw [hkind]
    rfl
  case h_3 => exact hstart

/-- Where the tokens of a definition end, and how.

**Proof sketch.** Behind a routine the next definition opens, or the input ends, and neither begins
with a token of a split, so that the last token is split by itself.  Otherwise the last token takes
part in no split, so that what stands in front of it and behind it is split by itself. -/
lemma ends_of_definition {source : List Char} {raw ts : List Token}
    (hraw : Faithful source (raw ++ c'.ahead)) (h : definition c = .ok d c') (hts : ts ∈ d.placed)
    (hsplits : SplitsTo (raw ++ c'.ahead) (ts ++ c'.ahead)) :
    (raw.getLast?.map fun t => t.span.stop) = (ts.getLast?.map fun t => t.span.stop)
      ∧ Severed raw c'.ahead := by
  obtain ⟨_, -, ⟨-, hstop⟩ | ⟨-, hfirm⟩⟩ := (definition_ends c).ok d c' h
  · have hhead := headKind_of_atDefinitionBoundary hstop
    have hkind : ∀ t ∈ c'.ahead.head?, t.kind.inSplit = false ∧ t.kind.isNumber = false := by
      intro t ht
      obtain ⟨more, hmore⟩ := List.head?_eq_some_iff.1 ht
      rw [hmore, headKind_cons] at hhead
      generalize t.kind = kind at hhead ⊢
      rcases hhead with rfl | hopens
      · exact ⟨rfl, rfl⟩
      · cases kind <;> first | exact ⟨rfl, rfl⟩ | cases hopens
    refine ⟨?_, fun t _ _ u hu => ?_⟩
    · have hsplit := hsplits.of_append_right fun t ht => (hkind t ht).1
      exact (stop_splitsTo (hraw.sublist (List.sublist_append_left raw _)) hsplit).symm
    · simp [joinsArrow, (hkind u hu).2]
  · obtain ⟨us, t, rfl, ht⟩ := hfirm hts
    obtain ⟨ts', rfl⟩ := hsplits.of_concat ht
    refine ⟨by simp, fun u hu harrow => ?_⟩
    obtain rfl : t = u := by simpa using hu
    rw [harrow] at ht
    cases ht

/-- **What a definition was read from**: if tails of the whole are ahead before and behind it, it
was read from the tokens between them.

**Proof sketch.** Of the two tails the one behind is shorter, so that tokens stand between them.
They split into those that spell the definition and end where these do. -/
theorem exists_extent {source : List Char} {whole : List Token} (hwhole : Faithful source whole)
    (hc : c.ahead <:+ whole) (hc' : c'.ahead <:+ whole) (h : definition c = .ok d c') :
    ∃ raw, Extent c d raw c' := by
  have heof : c.peek.kind ≠ .eof := ne_of_opensDefinition (opens_of_definition h) rfl
  have hlt : c'.remaining < c.remaining := strict_definition c d c' h
  obtain ⟨raw, hraw⟩ : ∃ raw, c.ahead = raw ++ c'.ahead := by
    rcases List.suffix_or_suffix_of_suffix hc' hc with ⟨raw, hraw⟩ | ⟨raw, hraw⟩
    · exact ⟨raw, hraw.symm⟩
    · rw [Cursor.remaining, Cursor.remaining, ← hraw, countPieces_append] at hlt
      omega
  obtain ⟨ts, hread, hts, -⟩ := (definition_places c).ok d c' h
  obtain ⟨inner, hread'⟩ := (tries_definition heof h).reads
  obtain rfl := hread.unique hread'
  have hsplits : SplitsTo (raw ++ c'.ahead) (c.peek :: inner ++ c'.ahead) := hraw ▸ hread.ahead
  have hahead : Faithful source (raw ++ c'.ahead) := hwhole.sublist (hraw ▸ hc.sublist)
  obtain ⟨hstop, hsevered⟩ := ends_of_definition hahead h hts hsplits
  refine ⟨raw, hraw, ?_, hsevered⟩
  obtain ⟨first, hfirst, last, hlast, hspan⟩ := (Node.definition d).covers_of_placed hts
    (hahead.splitsTo hsplits).inOrder.append.1
  obtain ⟨last', hlast', hstop'⟩ := Option.map_eq_some_iff.1
    (hstop.trans (congrArg (Option.map fun t => t.span.stop) hlast))
  refine ⟨first, ?_, last', hlast', hstop' ▸ hspan⟩
  obtain ⟨ts, hpeek⟩ := Cursor.exists_ahead_of_peek heof
  rcases raw with _ | ⟨t, raw⟩
  · cases hlast'
  · rw [hpeek, List.cons_append] at hraw
    rw [(List.cons.inj hraw).1] at hfirst
    exact hfirst

end Parser

end RakeLang
