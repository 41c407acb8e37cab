import Mathlib.Logic.Relation
import RakeLang.Proofs.Mirroring.Lexing
import RakeLang.Proofs.Mirroring.SourceFile

/-!
# Layout is insignificant

White space and whole comments can be put between any two tokens of a text without a change in what
is read, spans apart.  For a lexeme never reaches over a blank or a tilde, and the sign of a number
depends on the token in front of it and not on what stands between.

The one place where layout counts is between an arrow and a number that touches it, because the
minus sign of the arrow becomes the sign of the number where the arrow is split.

## Main definitions

* `RakeLang.Token.Boundary` — the places between two tokens.
* `RakeLang.Insertion` — a text with white space or comments put in at such a place.
* `RakeLang.upToSpans` — what came of a reading, spans apart.

## Main results

* `RakeLang.Insertion.abreast` — the tokens stay the same, in other places.
* `RakeLang.layout_insignificant` — so does all that is read.
-/

set_option relaxedAutoImplicit false
set_option autoImplicit false

namespace RakeLang

open Token Lexer

/-! ## Results up to spans -/

/-- A fault without its places. -/
def Fault.withoutSpans (fault : Fault) : Fault := fault.mapSpans fun _ => .origin

/-- A source file without its places. -/
def SourceFile.withoutSpans (file : SourceFile) : SourceFile := file.mapSpans fun _ => .origin

/-- A file without spans has the definitions of the file without theirs. -/
lemma SourceFile.definitions_withoutSpans (file : SourceFile) :
    file.withoutSpans.definitions = file.definitions.map Definition.withoutSpans := by
  rw [withoutSpans, mapSpans, Definition.mapSpans_origin]

/-- What came of a reading, with the spans taken away from the tree or from the fault. -/
def upToSpans {α : Type} (strip : α → α) : Except Fault α → Except Fault α
  | .ok a => .ok (strip a)
  | .error fault => .error fault.withoutSpans

/-! ## Insertions -/

/-- The text `before` ends between the tokens `ts` and the token `next`: `next` begins there, or
behind the last of `ts` there are only white space and whole comments. -/
inductive Token.Boundary (ts : List Token) (next : Token) (before : List Char) : Prop
  | starts (h : next.span.start = (Place.start.after before).offset)
  | behind {passed filler : List Char} (htext : before = passed ++ filler)
      (hfiller : Lexeme.Filler filler) (h : (Place.start.after passed).offset = stopFrom .start ts)

/-- The text `s'` is `s` with white space and whole comments put in at a boundary between two
tokens, which is not that between an arrow and a number that touches it. -/
inductive Insertion (s s' : String) : Prop
  | mk {before filler after : List Char} {ts us : List Token} {next : Token}
      (htext : s.toList = before ++ after) (htext' : s'.toList = before ++ (filler ++ after))
      (hfiller : Lexeme.Filler filler) (htokens : tokenize s = .ok (ts ++ next :: us))
      (hboundary : Boundary ts next before)
      (hapart : ∀ t ∈ ts.getLast?, t.kind = .symbol .leftArrow → joinsArrow t next = false)

/-- Everything from `p` on stands `n` bytes further on. -/
def Displacement.insertion (p n : Nat) : Displacement where
  place x := if x < p then x else x + n
  lines := none
  strictMono x y hxy := by
    dsimp only
    split_ifs <;> omega

/-! ## Texts with something put in -/

section Texts

variable {before after filler gap rest : List Char} {p : Place}

/-- Two initial parts of a text that end at the same byte are the same. -/
lemma Place.eq_of_offset_after_eq (hall : before ++ after = gap ++ rest)
    (h : (p.after before).offset = (p.after gap).offset) : before = gap := by
  refine Place.eq_of_offset_eq (List.prefix_append before after)
    (hall ▸ List.prefix_append gap rest) ?_
  rw [Place.offset_after] at h ⊢
  rw [Place.offset_after] at h ⊢
  omega

/-- Of two initial parts of a text, the one that ends later begins with the other. -/
lemma Place.exists_append_of_offset_le (hall : before ++ after = gap ++ rest)
    (h : (p.after gap).offset ≤ (p.after before).offset) : ∃ more, before = gap ++ more := by
  rcases List.append_eq_append_iff.1 hall with ⟨more, rfl, -⟩ | ⟨more, rfl, -⟩
  · rw [Place.after_append] at h
    rcases more with _ | ⟨c, more⟩
    · exact ⟨[], by simp⟩
    · exact absurd h (Nat.not_le_of_lt (Place.offset_lt_after _ c more))
  · exact ⟨more, rfl⟩

/-- A gap that is not empty breaks lexemes. -/
lemma Lexeme.Gap.breaks (h : Lexeme.Gap gap rest) (hgap : gap ≠ []) (cs : List Char) :
    Lexeme.Breaks (gap ++ cs) := by
  cases h with
  | nil => exact absurd rfl hgap
  | blank hblank =>
    rintro _ ⟨⟩
    exact .inl hblank
  | comment =>
    rintro _ ⟨⟩
    exact .inr rfl

/-- Behind a text everything stands further on by its bytes. -/
lemma Place.furtherOn_after (p : Place) (cs : List Char) :
    p.FurtherOn (String.ofList cs).utf8ByteSize none (p.after cs) :=
  ⟨p.offset_after cs, nofun⟩

/-- A filler behind white space and whole comments, in front of the first item. -/
lemma Lexer.Lexes.insert_filler {b : Bool} {items : List LexItem}
    (h : Lexes b p items (before ++ after)) (hbefore : Lexeme.Filler before)
    (hfiller : Lexeme.Filler filler) :
    ∃ items', Lexes b p items' (before ++ (filler ++ after))
      ∧ List.Forall₂ (LexItem.FurtherOn (String.ofList filler).utf8ByteSize none) items items'
      ∧ (Lexeme.Breaks (before ++ (filler ++ after)) ∨ before ++ filler = [])
      ∧ ∀ i ∈ items, (p.after before).offset ≤ i.span.start := by
  have hbehind := h.of_filler hbefore
  obtain ⟨items', h', hitems⟩ := hbehind.furtherOn (Place.furtherOn_after _ filler)
  refine ⟨items', (h'.filler hfiller).filler hbefore, hitems, ?_, hbehind.le_start⟩
  by_cases hempty : before ++ filler = []
  · exact .inr hempty
  · rw [← List.append_assoc]
    exact .inl ((hbefore.append hfiller).gap_end.breaks hempty after)

/-- A filler in front of the first item, anywhere in the gap there but inside a comment, or at the
end of the gap.

**Proof sketch.** Where the place is inside the gap, the filler belongs to the gap; at its end
it stands right before the item, which the gap does not reach into. -/
lemma Lexer.Lexes.insert {b : Bool} {next : Token} {items : List LexItem}
    (h : Lexes b p (.token next :: items) (before ++ after))
    (hbefore : Lexeme.Filler before ∨ next.span.start = (p.after before).offset)
    (hfiller : Lexeme.Filler filler) :
    ∃ items', Lexes b p items' (before ++ (filler ++ after))
      ∧ List.Forall₂ (LexItem.FurtherOn (String.ofList filler).utf8ByteSize none)
        (.token next :: items) items'
      ∧ (Lexeme.Breaks (before ++ (filler ++ after)) ∨ before ++ filler = [])
      ∧ ∀ i ∈ .token next :: items, (p.after before).offset ≤ i.span.start := by
  have hinside (hbefore : Lexeme.Filler before) := h.insert_filler hbefore hfiller
  rcases hbefore with hbefore | hstart
  · exact hinside hbefore
  generalize hitems : LexItem.token next :: items = all at h
  generalize htext : before ++ after = text at h
  cases h with
  | unrecognized => cases (List.cons.inj hitems).1
  | @token _ _ gap lexeme text kind items' hgap hlongest h =>
    obtain ⟨hnext, rfl⟩ := List.cons.inj hitems
    obtain rfl := LexItem.token.inj hnext
    obtain rfl := Place.eq_of_offset_after_eq htext hstart.symm
    exact hitems ▸ hinside (hgap.isFiller (by simp [(Lexeme.longest?_fits hlongest).1]))
  | done hgap =>
    -- the text ends with the gap, which may be a comment without the end of its line
    obtain ⟨hnext, rfl⟩ := List.cons.inj hitems
    obtain rfl := LexItem.token.inj hnext
    rw [← List.append_nil text] at htext
    obtain rfl := Place.eq_of_offset_after_eq htext hstart.symm
    obtain rfl := List.append_cancel_left htext
    rw [List.append_nil]
    refine ⟨_, .done (hgap.append_filler hfiller), .cons (.token ⟨rfl, ?_⟩) .nil, ?_, ?_⟩
    · have hfurther := Place.furtherOn_after (p.after before) filler
      rw [Place.after_append]
      exact hfurther.between hfurther
    · by_cases hempty : before ++ filler = []
      · exact .inr hempty
      · have hbreaks := (hgap.append_filler hfiller).breaks hempty []
        rw [List.append_nil] at hbreaks
        exact .inl hbreaks
    · rw [List.forall_mem_singleton]
      exact le_rfl

/-- The insertion is in front of the first token behind the place where the tokens before it end.

**Proof sketch.** By cases on the boundary.  At the start of the next token the insertion lies
behind what was passed by the offsets.  Behind a filler, the filler begins where the tokens before
it end, which is the place that was passed. -/
lemma Token.Boundary.exists_more {ts : List Token} {next : Token} {passed : List Char}
    (h : Boundary ts next before) (hall : before ++ after = passed ++ rest)
    (hstop : (Place.start.after passed).offset = stopFrom .start ts)
    (hnext : (Place.start.after passed).offset ≤ next.span.start) :
    ∃ more, before = passed ++ more ∧ (Lexeme.Filler more
      ∨ next.span.start = ((Place.start.after passed).after more).offset) := by
  cases h with
  | starts hstart =>
    rw [hstart] at hnext
    obtain ⟨more, rfl⟩ := Place.exists_append_of_offset_le hall hnext
    exact ⟨more, rfl, .inr (by rwa [Place.after_append] at hstart)⟩
  | @behind passed' filler' hbefore hfiller' hbehind =>
    subst hbefore
    rw [List.append_assoc] at hall
    obtain rfl := Place.eq_of_offset_after_eq hall (hbehind.trans hstop.symm)
    exact ⟨filler', rfl, .inl hfiller'⟩

end Texts

/-! ## Tokens around an insertion -/

section Insertion

variable {t u u' : Token} {ts us us' : List Token} {n p x : Nat}

/-- In front of an insertion every byte stays where it is. -/
lemma Displacement.insertion_of_lt (h : x < p) : (insertion p n).place x = x := if_pos h

/-- Behind an insertion every byte stands further on. -/
lemma Displacement.insertion_of_le (h : p ≤ x) : (insertion p n).place x = x + n :=
  if_neg (Nat.not_lt.2 h)

/-- A number behind an arrow that does not touch it does not touch it from further on. -/
lemma joinsArrow_eq_false_of_furtherOn (hu : u.FurtherOn n none u')
    (hle : t.span.stop ≤ u.span.start) (h : joinsArrow t u = false) :
    joinsArrow t u' = false := by
  have hcontent := Prod.mk.inj hu.content
  have hstart := hu.span.start
  simp only [joinsArrow, hasSign, ← hcontent.1, ← hcontent.2, Bool.and_eq_false_iff,
    beq_eq_false_iff_ne] at h ⊢
  exact h.imp_left (Or.imp_right fun hne => by omega)

/-- The tokens in front of an insertion stay where they are, and those behind it stand further on.

**Proof sketch.** In front of the insertion nothing is moved, and behind it everything by the same.
The seam joins nothing, since no arrow touches a number there. -/
lemma Token.Abreast.insertion (hlast : ∀ t ∈ ts, t.span.start + t.pieces ≤ p)
    (hstart : ∀ u ∈ us, p ≤ u.span.start)
    (harrow : ∀ t ∈ ts ++ us, t.kind = .symbol .leftArrow → t.span.stop = t.span.start + 2)
    (hapart : Severed ts us) (hus : List.Forall₂ (Token.FurtherOn n none) us us') :
    Abreast (.insertion p n) (ts ++ us) (ts ++ us') := by
  refine .append ?_ ?_ fun t ht t' ht' hkind u hu u' hu' => ?_
  · refine Token.FurtherOn.abreast (k := 0)
      (List.forall₂_same.2 fun t _ => ⟨rfl, rfl, rfl, nofun⟩) fun t ht u hu =>
        hu.displaced (fun i hi => ?_) nofun (harrow t (List.mem_append_left _ ht))
    exact Displacement.insertion_of_lt (by have := hlast t ht; omega)
  · refine Token.FurtherOn.abreast (k := n) hus fun t ht u hu =>
      hu.displaced (fun i _ => ?_) nofun (harrow t (List.mem_append_right _ ht))
    exact Displacement.insertion_of_le ((hstart t ht).trans (Nat.le_add_right _ i))
  · obtain rfl := Option.some.inj (ht.symm.trans ht')
    cases hus with
    | nil => cases hu
    | cons hfirst =>
      have hmem := List.mem_of_getLast? ht
      have hstop := harrow t (List.mem_append_left _ hmem) hkind
      have hfits := hlast t hmem
      rw [pieces_arrow hkind, ← hstop] at hfits
      obtain rfl := Option.mem_some_iff.1 hu
      obtain rfl := Option.mem_some_iff.1 hu'
      have hnot := hapart t ht hkind _ rfl
      rw [hnot, joinsArrow_eq_false_of_furtherOn hfirst
        (hfits.trans (hstart _ List.mem_cons_self)) hnot]

end Insertion

/-- **The tokens of a text stay the same** where something is put in between them.

**Proof sketch.** The text is cut behind the last token in front of the insertion.  The tokens up to
there end at a blank or a tilde, if they did not end so before; those behind it stand further on.
An arrow in front of the insertion touches no number on either side. -/
theorem Insertion.abreast {s s' : String} (h : Insertion s s') :
    ∃ (δ : Displacement) (tokens tokens' : List Token), δ.lines = none
      ∧ tokenize s = .ok tokens ∧ tokenize s' = .ok tokens' ∧ Abreast δ tokens tokens' := by
  obtain ⟨htext, htext', hfiller, htokens, hboundary, hapart⟩ := h
  rename_i before filler after ts us next
  have hlexes := tokenize_eq_ok_iff.1 htokens
  have harrow := hlexes.arrow
  rw [htext, List.map_append] at hlexes
  obtain ⟨passed, rest, hall, hstop, hwithin, hrest, hexchange⟩ := hlexes.cut (by simp)
  rw [List.map_cons] at hrest
  obtain ⟨more, rfl, hmore⟩ :=
    hboundary.exists_more hall hstop (hrest.le_start _ List.mem_cons_self)
  rw [List.append_assoc, List.append_cancel_left_eq] at hall
  subst hall
  obtain ⟨items', hitems', hfurther, hbreaks, hstarts⟩ := hrest.insert hmore hfiller
  rw [← List.map_cons] at hfurther hstarts
  obtain ⟨us', rfl, htokens'⟩ := LexItem.FurtherOn.tokens hfurther
  have hread := hexchange _ _ (.of_cases (hbreaks.imp_right fun hempty => by
    obtain ⟨rfl, rfl⟩ := List.append_eq_nil_iff.1 hempty
    rfl)) hitems'
  rw [← List.map_append, ← List.append_assoc, ← List.append_assoc, List.append_assoc,
    ← htext', ← tokenize_eq_ok_iff] at hread
  refine ⟨.insertion ((Place.start.after passed).after more).offset _, _, _, rfl, htokens, hread,
    .insertion (fun t ht => ?_) (fun u hu => ?_) (fun t ht => harrow t (List.mem_map_of_mem ht))
      (fun t ht hkind u hu => ?_) htokens'⟩
  · exact (hwithin t ht).trans (Place.offset_le_after _ more)
  · exact hstarts _ (List.mem_map_of_mem hu)
  · obtain rfl := Option.mem_some_iff.1 hu
    exact hapart t ht hkind

/-! ## What is read from tokens abreast -/

section Readings

variable {δ : Displacement} {ts us : List Token}

/-- Without lines, the view of the left spans is empty. -/
lemma Displacement.left_eq (hlines : δ.lines = none) : δ.left = fun _ => .origin := by
  rw [left, hlines]

/-- Without lines, the view of the right spans is empty. -/
lemma Displacement.right_eq (hlines : δ.lines = none) : δ.right = fun _ => .origin := by
  rw [right, hlines]

/-- The whole input is read alike, if what is read of it is.

**Proof sketch.** Where lines are not compared, both sides of a mirror forget every span.  The
readers of the whole input are alike by `wholeInput_mirrors`, so they give the same value or the
same fault, spans apart. -/
lemma upToSpans_wholeInput {α : Type} {parser : Parser α} {mapSpans : (Span → Span) → α → α}
    {c d : Cursor} (hlines : δ.lines = none)
    (h : Parser.Mirrors (δ.mirror []) parser parser c d ((δ.mirror []).Alike mapSpans)) :
    upToSpans (mapSpans fun _ => .origin)
        (match parser.wholeInput c with | .ok a _ => .ok a | .error fault _ => .error fault)
      = upToSpans (mapSpans fun _ => .origin)
        (match parser.wholeInput d with | .ok a _ => .ok a | .error fault _ => .error fault) := by
  have hwhole := Parser.wholeInput_mirrors trivial h
  have hleft : (δ.mirror []).left = fun _ => .origin := δ.left_eq hlines
  have hright : (δ.mirror []).right = fun _ => .origin := δ.right_eq hlines
  rcases hc : parser.wholeInput c with ⟨a, c'⟩ | ⟨fault, c'⟩
  · obtain ⟨b, d', hd, halike, -⟩ := hwhole.ok a c' hc
    rw [Mirror.Alike, hleft, hright] at halike
    rw [hd]
    exact congrArg Except.ok halike
  · obtain ⟨other, d', hd, hfaults, -⟩ := hwhole.error trivial fault c' hc
    have halike := hfaults.1
    rw [Mirror.Alike, hleft, hright] at halike
    rw [hd]
    exact congrArg Except.error halike

/-- Tokens on both sides are read as the same source file, spans apart.

**Proof sketch.** The two buffers have the same measure, so the definitions are read with the same
bound and mirror each other.  What they give is alike with all spans forgotten; the first fault on
one side is the first on the other. -/
lemma upToSpans_parseTokens (hlines : δ.lines = none)
    (h : (δ.mirror []).Rel (.ofTokens ts) (.ofTokens us)) :
    upToSpans SourceFile.withoutSpans (parseTokens ts)
      = upToSpans SourceFile.withoutSpans (parseTokens us) := by
  have hremaining : (Cursor.ofTokens ts).remaining = (Cursor.ofTokens us).remaining := by
    obtain ⟨k, hk, hzero⟩ := (δ.mirror []).remaining h
    rw [hk, hzero trivial, Nat.add_zero]
  obtain ⟨hdefinitions, hfaults⟩ := @readDefinitions_mirrors (δ.mirror []) .failFast _ _ trivial
    (Mirror.starts_of_rel trivial h) hremaining
  have hleft : (δ.mirror []).left = fun _ => .origin := δ.left_eq hlines
  have hright : (δ.mirror []).right = fun _ => .origin := δ.right_eq hlines
  rw [hleft, hright] at hdefinitions hfaults
  unfold parseTokens
  rcases hc : (readDefinitions .failFast (.ofTokens ts)).faults with _ | ⟨fault, faults⟩ <;>
    rcases hd : (readDefinitions .failFast (.ofTokens us)).faults with _ | ⟨other, others⟩ <;>
    simp only [hc, hd, List.map_nil, List.map_cons, reduceCtorEq, List.cons.injEq] at hfaults
  · simp only [hc, hd, upToSpans, SourceFile.withoutSpans, SourceFile.mapSpans, hdefinitions]
  · simp only [hc, hd, upToSpans, Fault.withoutSpans, hfaults.1]

end Readings

/-! ## Layout -/

/-- The texts have the same tokens, and the same is read from them, spans apart. -/
structure SameReadings (s s' : String) : Prop where
  tokens : (tokenize s).map (List.map Token.content) = (tokenize s').map (List.map Token.content)
  file : upToSpans SourceFile.withoutSpans (parse s) = upToSpans SourceFile.withoutSpans (parse s')
  expression : upToSpans Expression.withoutSpans (parseExpression s)
    = upToSpans Expression.withoutSpans (parseExpression s')
  predicate : upToSpans Predicate.withoutSpans (parsePredicate s)
    = upToSpans Predicate.withoutSpans (parsePredicate s')
  type : upToSpans DataType.withoutSpans (parseType s)
    = upToSpans DataType.withoutSpans (parseType s')

/-- Texts with the same readings as a third one have the same readings. -/
lemma SameReadings.trans {s s' s'' : String} (h : SameReadings s s') (h' : SameReadings s' s'') :
    SameReadings s s'' :=
  ⟨h.tokens.trans h'.tokens, h.file.trans h'.file, h.expression.trans h'.expression,
    h.predicate.trans h'.predicate, h.type.trans h'.type⟩

/-- One insertion changes no more than spans.

**Proof sketch.** The tokens before and after the insertion are abreast, so cursors at their starts
are related by a mirror that forgets spans.  The tokens agree in content at once, and each entry
point by the lemma that mirrors its reader. -/
lemma Insertion.sameReadings {s s' : String} (h : Insertion s s') : SameReadings s s' := by
  obtain ⟨δ, tokens, tokens', hlines, hs, hs', habreast⟩ := h.abreast
  obtain ⟨ts, eof, htokens, heof, -⟩ := exists_of_tokenize hs
  have hrel : (δ.mirror []).Rel (.ofTokens tokens) (.ofTokens tokens') := by
    refine habreast.starts (fun t ht => ?_) (by simp [htokens])
    rw [htokens, List.getLast?_concat] at ht
    exact Option.mem_some_iff.1 ht ▸ heof
  refine ⟨?_, ?_, ?_, ?_, ?_⟩
  · rw [hs, hs']
    exact congrArg Except.ok habreast.map_content
  · rw [parse, parse, hs, hs']
    exact upToSpans_parseTokens hlines hrel
  · rw [parseExpression, parseExpression, parseWith, parseWith, hs, hs',
      ← Expression.mapSpans_origin']
    exact upToSpans_wholeInput hlines ((Parser.expression_mirrors _ _ hrel).imp fun _ _ h => h.1)
  · rw [parsePredicate, parsePredicate, parseWith, parseWith, hs, hs',
      ← Predicate.mapSpans_origin]
    exact upToSpans_wholeInput hlines
      ((Parser.predicate_mirrors trivial _ _ hrel).imp fun _ _ h => h.1)
  · rw [parseType, parseType, parseWith, parseWith, hs, hs', ← DataType.mapSpans_origin']
    exact upToSpans_wholeInput hlines (Parser.dataType_mirrors hrel)

/-- **Layout is insignificant**: where white space and whole comments are put into a text that
consists of tokens, at any number of boundaries between these, but not between an arrow and a number
that touches it, the tokens keep their kinds and their texts, and the text is read as the same file,
expression, predicate or type, or refused with the same fault, spans apart.

**Proof sketch.** By `Insertion.abreast` one insertion leaves the tokens abreast, and readings of
tokens abreast mirror each other. -/
theorem layout_insignificant {s s' : String} {tokens : List Token} (h : tokenize s = .ok tokens)
    (hs : Relation.ReflTransGen Insertion s s') :
    (∃ tokens', tokenize s' = .ok tokens' ∧ tokens'.map Token.content = tokens.map Token.content)
      ∧ upToSpans SourceFile.withoutSpans (parse s')
        = upToSpans SourceFile.withoutSpans (parse s)
      ∧ upToSpans Expression.withoutSpans (parseExpression s')
        = upToSpans Expression.withoutSpans (parseExpression s)
      ∧ upToSpans Predicate.withoutSpans (parsePredicate s')
        = upToSpans Predicate.withoutSpans (parsePredicate s)
      ∧ upToSpans DataType.withoutSpans (parseType s')
        = upToSpans DataType.withoutSpans (parseType s) := by
  have hsame : SameReadings s s' := by
    induction hs with
    | refl => exact ⟨rfl, rfl, rfl, rfl, rfl⟩
    | tail _ hstep ih => exact ih.trans hstep.sameReadings
  refine ⟨?_, hsame.file.symm, hsame.expression.symm, hsame.predicate.symm, hsame.type.symm⟩
  have htokens := hsame.tokens
  rw [h] at htokens
  rcases hs' : tokenize s' with fault | tokens'
  · rw [hs'] at htokens
    cases htokens
  · rw [hs'] at htokens
    exact ⟨tokens', rfl, (Except.ok.inj htokens).symm⟩

/-- A comment in front of an arrow and a blank behind it, where no number follows: the arrow is
split into a comparison and a minus sign as before.

**Proof sketch.** One insertion behind the other, each of them at a boundary of the tokens; then
the general theorem applies. -/
theorem layout_insignificant_arrow :
    (∃ tokens', tokenize "a ~~ left\n<- b" = .ok tokens' ∧ tokens'.map Token.content
      = [(.ident, "a"), (.symbol .leftArrow, "<-"), (.ident, "b"), (.eof, "")])
      ∧ upToSpans Expression.withoutSpans (parseExpression "a ~~ left\n<- b")
        = upToSpans Expression.withoutSpans (parseExpression "a<-b") := by
  have htokens : tokenize "a<-b" = .ok ([⟨.ident, "a", ⟨1, 1, 0, 1⟩⟩]
      ++ ⟨.symbol .leftArrow, "<-", ⟨1, 2, 1, 3⟩⟩
        :: [⟨.ident, "b", ⟨1, 4, 3, 4⟩⟩, ⟨.eof, "", ⟨1, 5, 4, 4⟩⟩]) := by
    rfl
  have hfirst : Insertion "a<-b" "a ~~ left\n<-b" := by
    have htext : "a ~~ left\n<-b".toList = ['a'] ++ (" ~~ left\n".toList ++ "<-b".toList) := rfl
    have hcomment : Lexeme.Filler (' ' :: '~' :: '~' :: (" left".toList ++ '\n' :: [])) :=
      .blank (by decide) (.comment (by decide) .nil)
    refine .mk rfl htext hcomment htokens (.starts rfl) fun t ht hkind => ?_
    obtain rfl := Option.mem_some_iff.1 ht
    cases hkind
  have hsecond : Insertion "a ~~ left\n<-b" "a ~~ left\n<- b" := by
    have htext : "a ~~ left\n<- b".toList = "a ~~ left\n<-".toList ++ ([' '] ++ ['b']) := rfl
    have htokens' : tokenize "a ~~ left\n<-b" = .ok ([⟨.ident, "a", ⟨1, 1, 0, 1⟩⟩,
        ⟨.symbol .leftArrow, "<-", ⟨2, 1, 10, 12⟩⟩] ++ ⟨.ident, "b", ⟨2, 3, 12, 13⟩⟩
          :: [⟨.eof, "", ⟨2, 4, 13, 13⟩⟩]) := by
      rfl
    refine .mk rfl htext (.blank (by decide) .nil) htokens' (.starts rfl) fun t ht _ => ?_
    obtain rfl := Option.mem_some_iff.1 ht
    rfl
  have hread := layout_insignificant htokens (.tail (.single hfirst) hsecond)
  exact ⟨hread.1, hread.2.2.1⟩

end RakeLang
