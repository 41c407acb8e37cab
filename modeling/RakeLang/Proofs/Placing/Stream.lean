import RakeLang.Proofs.Placing.Slice

/-!
# Nothing of a text is lost

A text is made of the items that the lexer yields and of the gaps before, between and behind them:
put together again they are the text.  Each item has the span of its own text, so that the spans
rise and do not overlap; a gap is white space and comments, and no token has white space in it.
Behind the last item comes the end of the input, once, and then nothing.

## Main definitions

* `RakeLang.LexItem.text` — the text of an item.
* `RakeLang.LexItem.Tiles` — gaps and items that make up a text.
* `RakeLang.Lexer.pull` — the lexer after it was asked for an item.

## Main results

* `RakeLang.Lexeme.Matches.visible` — no lexeme has white space in it.
* `RakeLang.Lexer.itemsUpTo_tiles` — the items of a lexer and the gaps around them make up what is
  left of the text.
* `RakeLang.Lexer.next?_pull` — the lexer answers its items one by one, and then nothing.
* `RakeLang.lex_lossless` — the items of a text and the gaps around them make up the text.
-/

set_option relaxedAutoImplicit false
set_option autoImplicit false

namespace RakeLang

/-! ## Lexemes without white space -/

namespace Lexeme

/-- A character of seven bits that is neither a control character nor a space. -/
def Visible (c : Char) : Prop := '!'.toNat ≤ c.toNat ∧ c.toNat ≤ '~'.toNat

/-- A visible character is not blank. -/
lemma Visible.isBlank_eq_false {c : Char} (h : Visible c) : Text.isBlank c = false := by
  have hlow : 33 ≤ c.toNat := h.1
  have hhigh : c.toNat ≤ 126 := h.2
  simp only [Text.isBlank, Text.blankRanges, List.any_cons, List.any_nil, Bool.or_false,
    Bool.or_eq_false_iff, Bool.and_eq_false_iff, decide_eq_false_iff_not]
  omega

/-- A character between two visible ones is visible. -/
lemma visible_of_le {low high c : Char} (hlow : Visible low) (hhigh : Visible high)
    (h : low ≤ c ∧ c ≤ high) : Visible c :=
  ⟨hlow.1.trans h.1, Nat.le_trans h.2 hhigh.2⟩

/-- Digits are visible. -/
lemma Digit.visible {c : Char} (h : Digit c) : Visible c :=
  visible_of_le ⟨by decide, by decide⟩ ⟨by decide, by decide⟩ h

/-- Capital letters are visible. -/
lemma CapitalLetter.visible {c : Char} (h : CapitalLetter c) : Visible c :=
  visible_of_le ⟨by decide, by decide⟩ ⟨by decide, by decide⟩ h

/-- What may open a name is visible. -/
lemma OpensName.visible {c : Char} (h : OpensName c) : Visible c := by
  rcases h with h | rfl
  · exact visible_of_le ⟨by decide, by decide⟩ ⟨by decide, by decide⟩ h
  · exact ⟨by decide, by decide⟩

/-- What may stand in a name is visible. -/
lemma InName.visible {c : Char} (h : InName c) : Visible c := by
  rcases h with h | h | h | h
  · exact OpensName.visible (.inl h)
  · exact h.visible
  · exact h.visible
  · exact OpensName.visible (.inr h)

/-- Characters that are checked one by one are visible. -/
lemma visible_of_all {cs : List Char}
    (h : (cs.all fun c => '!'.toNat ≤ c.toNat && c.toNat ≤ '~'.toNat) = true) :
    ∀ c ∈ cs, Visible c := by
  simp only [List.all_eq_true, Bool.and_eq_true, decide_eq_true_eq] at h
  exact h

/-- The characters of keywords are visible. -/
lemma visible_of_mem_keyword (k : Keyword) : ∀ c ∈ k.chars, Visible c :=
  visible_of_all (by cases k <;> rfl)

/-- The characters of signs are visible. -/
lemma visible_of_mem_symbol (s : Symbol) : ∀ c ∈ s.chars, Visible c := by
  refine visible_of_all ?_
  cases s with
  | reduce op => cases op <;> rfl
  | scan op => cases op <;> rfl
  | _ => rfl

/-- The characters of a number are digits, a point, and those of an exponent.

**Proof sketch.** By cases on the number, and on its exponent: digits, the point, the letter of
the exponent and its sign are visible, each one by itself. -/
lemma IsNumber.visible {kind : Kind} {text : List Char} (h : IsNumber kind text) :
    ∀ c ∈ text, Visible c := by
  have hdigits {cs : List Char} (hcs : ∀ c ∈ cs, Digit c) : ∀ c ∈ cs, Visible c :=
    fun c hc => (hcs c hc).visible
  cases h with
  | int hwhole => exact hdigits hwhole.2
  | float hwhole hfraction hexponent =>
    simp only [List.forall_mem_append, List.forall_mem_cons]
    refine ⟨hdigits hwhole.2, ⟨by decide, by decide⟩, hdigits hfraction, ?_⟩
    cases hexponent with
    | none => simp
    | some hletter hsign hexponent =>
      simp only [List.forall_mem_append, List.forall_mem_cons]
      refine ⟨?_, ?_, hdigits hexponent.2⟩
      · rcases hletter with rfl | rfl <;> exact ⟨by decide, by decide⟩
      · rcases hsign with rfl | rfl | rfl
        · simp
        all_goals simpa using ⟨by decide, by decide⟩

/-- The characters of a lexeme are visible. -/
theorem Matches.visible {afterOperand : Bool} {kind : Kind} {text : List Char}
    (h : Matches afterOperand kind text) : ∀ c ∈ text, Visible c := by
  cases h with
  | keyword word => exact visible_of_mem_keyword word
  | ident hstart hpart =>
    exact List.forall_mem_cons.2 ⟨hstart.visible, fun c hc => (hpart c hc).visible⟩
  | typeIdent hstart hpart =>
    exact List.forall_mem_cons.2 ⟨hstart.visible, fun c hc => (hpart c hc).visible⟩
  | tineRef hstart hpart =>
    refine List.forall_mem_cons.2 ⟨⟨by decide, by decide⟩, List.forall_mem_cons.2 ?_⟩
    exact ⟨hstart.visible, fun c hc => (hpart c hc).visible⟩
  | number hnumber => exact hnumber.visible
  | signed _ hnumber => exact List.forall_mem_cons.2 ⟨⟨by decide, by decide⟩, hnumber.visible⟩
  | symbol sign => exact visible_of_mem_symbol sign

end Lexeme

/-! ## Gaps and items -/

namespace LexItem

/-- The text of an item. -/
def text : LexItem → List Char
  | token t => t.lexeme.toList
  | unrecognized c _ => [c]

/-- The text of some items, each with the gap in front of it. -/
def textOf (pieces : List (List Char × LexItem)) : List Char :=
  pieces.flatMap fun piece => piece.1 ++ piece.2.text

/-- The item takes some text, and if it is a token it is not the end of the input and has no white
space in it. -/
def Solid (item : LexItem) : Prop :=
  item.text ≠ [] ∧ ∀ t, item = token t → t.kind ≠ .eof ∧ ∀ c ∈ item.text, Text.isBlank c = false

/-- Behind the text `passed` there are the items, each with the gap in front of it, and behind them
the gap `last` at the end of the text.  Each item has the span of its text. -/
structure Tiles (passed : List Char) (pieces : List (List Char × LexItem)) (last : List Char) :
    Prop where
  gap : ∀ before gap item after, pieces = before ++ (gap, item) :: after →
    Lexeme.Gap gap (item.text ++ (textOf after ++ last))
  span : ∀ before gap item after, pieces = before ++ (gap, item) :: after →
    item.span = .between (Place.start.after (passed ++ textOf before ++ gap))
      (Place.start.after (passed ++ textOf before ++ gap ++ item.text))
  solid : ∀ piece ∈ pieces, piece.2.Solid
  last_gap : Lexeme.Gap last []

section Tiles

variable {passed gap last : List Char} {item : LexItem} {pieces : List (List Char × LexItem)}

/-- No items and a gap up to the end of the text. -/
lemma Tiles.nil (h : Lexeme.Gap last []) : Tiles passed [] last := by
  refine ⟨?_, ?_, by simp, h⟩
  all_goals
    intro before gap item after hpieces
    simp at hpieces

/-- A gap and an item stand in front of gaps and items.

**Proof sketch.** A piece of the longer row is the new one in front, for which the hypotheses
speak, or one of the rest with the new one in front of the pieces before it. -/
lemma Tiles.cons (h : Tiles (passed ++ gap ++ item.text) pieces last)
    (hgap : Lexeme.Gap gap (item.text ++ (textOf pieces ++ last)))
    (hspan : item.span = .between (Place.start.after (passed ++ gap))
      (Place.start.after (passed ++ gap ++ item.text))) (hsolid : item.Solid) :
    Tiles passed ((gap, item) :: pieces) last := by
  refine ⟨?_, ?_, List.forall_mem_cons.2 ⟨hsolid, h.solid⟩, h.last_gap⟩
  · rintro (_ | ⟨first, before⟩) gap' item' after hpieces
    · obtain ⟨hfirst, rfl⟩ := List.cons.inj hpieces
      obtain ⟨rfl, rfl⟩ := Prod.mk.inj hfirst
      exact hgap
    · exact h.gap before gap' item' after (List.cons.inj hpieces).2
  · rintro (_ | ⟨first, before⟩) gap' item' after hpieces
    · obtain ⟨hfirst, rfl⟩ := List.cons.inj hpieces
      obtain ⟨rfl, rfl⟩ := Prod.mk.inj hfirst
      simpa [textOf] using hspan
    · obtain ⟨rfl, htail⟩ := List.cons.inj hpieces
      simpa [textOf] using h.span before gap' item' after htail

end Tiles

end LexItem

/-! ## The items of a lexer -/

namespace Lexer

/-- Before the end of the text the lexer reads an item off the text and stands behind it.

**Proof sketch.** Where a lexeme stands, the item is the longest one, which is not empty and has
no blank in it; otherwise it is the next character. -/
lemma read_text {l : Lexer} (h : l.rest ≠ []) :
    l.rest = l.read.1.text ++ l.read.2.rest
      ∧ l.read.1.span = .between l.place (l.place.after l.read.1.text)
      ∧ l.read.2.place = l.place.after l.read.1.text ∧ l.read.1.Solid := by
  obtain ⟨c, cs, hcs⟩ := List.exists_cons_of_ne_nil h
  rcases hlong : Lexeme.longest? l.afterOperand (c :: cs) with _ | ⟨kind, text⟩
  · have hread : l.read = (.unrecognized c (.between l.place (l.place.next c)),
        { l with rest := cs, place := l.place.next c }) := by
      simp only [Lexer.read, hcs, hlong]
    rw [hread, hcs]
    exact ⟨rfl, rfl, rfl, by simp [LexItem.Solid, LexItem.text]⟩
  · have hread : l.read = (.token ⟨kind, String.ofList text, .between l.place (l.place.after text)⟩,
        { l with
          rest := (c :: cs).drop text.length, place := l.place.after text,
          afterOperand := kind.endsOperand }) := by
      simp only [Lexer.read, hcs, hlong]
    have htext : (LexItem.token
        ⟨kind, String.ofList text, .between l.place (l.place.after text)⟩).text = text :=
      String.toList_ofList
    obtain ⟨hinitial, hmatches, -⟩ := Lexeme.longest?_eq_some_iff.1 hlong
    obtain ⟨hne, hkind, -⟩ := Lexeme.longest?_fits hlong
    rw [hread, hcs, htext]
    refine ⟨(List.prefix_iff_eq_append.1 hinitial).symm, rfl, rfl, by rwa [htext], ?_⟩
    rintro t ht
    rw [htext]
    exact ⟨LexItem.token.inj ht ▸ hkind, fun c hc => (hmatches.visible c hc).isBlank_eq_false⟩

/-- The items of a lexer that stands behind the text `passed`, and the gaps around them, make up
what is left of the text.

**Proof sketch.** Induction on the bound, which stays beyond the characters left.  The first gap is
what the lexer skips; behind the first item it stands behind `passed`, the gap and the item. -/
theorem itemsUpTo_tiles (n : Nat) :
    ∀ (l : Lexer) (passed : List Char), l.place = Place.start.after passed → l.finished = false →
      l.rest.length < n →
      ∃ pieces last, l.itemsUpTo n = pieces.map Prod.snd ++ [.token (.atEnd (passed ++ l.rest))]
        ∧ l.rest = LexItem.textOf pieces ++ last ∧ LexItem.Tiles passed pieces last := by
  induction n with
  | zero => intro l passed _ _ hn; omega
  | succ n ih =>
    intro l passed hplace hfinished hn
    have hitems : l.itemsUpTo (n + 1)
        = l.skipTrivia.read.1 :: l.skipTrivia.read.2.itemsUpTo n := by
      simp [itemsUpTo, next?, hfinished]
    have hgap := Lexeme.gap_trivia l.rest
    have hsplit : Lexeme.trivia l.rest ++ l.skipTrivia.rest = l.rest :=
      Lexeme.trivia_append_drop l.rest
    have hplace' : l.skipTrivia.place = Place.start.after (passed ++ Lexeme.trivia l.rest) := by
      rw [Place.after_append, ← hplace]
      rfl
    change Lexeme.Gap _ l.skipTrivia.rest at hgap
    by_cases hrest : l.skipTrivia.rest = []
    · -- nothing is left behind the gap: the end of the input is the last item
      have hall : Lexeme.trivia l.rest = l.rest := by
        rwa [hrest, List.append_nil] at hsplit
      have hread : l.skipTrivia.read.1 = .token (.atEnd (passed ++ l.rest)) := by
        unfold read
        rw [hrest, hplace', hall]
        rfl
      obtain ⟨_, hend, -⟩ := read_of_rest_nil hrest
      refine ⟨[], l.rest, ?_, rfl, .nil ?_⟩
      · rw [hitems, hread, itemsUpTo_of_finished (by rw [hend])]
        rfl
      · rwa [hall, hrest] at hgap
    · -- an item is left, with the tiles of the rest behind it
      obtain ⟨htext, hspan, hbehind, hsolid⟩ := read_text hrest
      obtain ⟨hfinished', hshorter, -⟩ := read_of_rest_ne_nil hrest
      have hskip : l.skipTrivia.rest.length ≤ l.rest.length := by simp [skipTrivia]
      rw [hplace', ← Place.after_append] at hspan hbehind
      obtain ⟨pieces, last, hitems', hrest', htiles⟩ :=
        ih _ _ hbehind (hfinished'.trans hfinished) (by omega)
      refine ⟨(Lexeme.trivia l.rest, l.skipTrivia.read.1) :: pieces, last, ?_, ?_, ?_⟩
      · rw [hitems, hitems', List.map_cons, List.cons_append, List.append_assoc, List.append_assoc,
          ← htext, hsplit]
      · calc l.rest
            = Lexeme.trivia l.rest ++ (l.skipTrivia.read.1.text ++ l.skipTrivia.read.2.rest) := by
              rw [← htext, hsplit]
          _ = _ := by
              rw [hrest']
              simp [LexItem.textOf]
      · refine htiles.cons ?_ hspan hsolid
        rw [← hrest', ← htext]
        exact hgap

/-! ## One item after the other -/

/-- The lexer after it was asked for an item, whether it had one or not. -/
def pull (l : Lexer) : Lexer := (l.next?.map Prod.snd).getD l

/-- The answers of the lexer are its items, one after the other, and then nothing.

**Proof sketch.** Induction on how often the lexer was asked before.  It answers its first item, and
what it answers from then on is what the lexer behind this item answers. -/
theorem next?_pull (k : Nat) :
    ∀ (n : Nat) (l : Lexer), l.finished = true ∨ l.rest.length < n →
      ((pull^[k] l).next?).map Prod.fst = (l.itemsUpTo n)[k]? := by
  induction k with
  | zero =>
    intro n l hn
    rcases n with _ | n
    · have hfinished : l.finished = true := hn.resolve_right (Nat.not_lt_zero _)
      simp [next?, hfinished, itemsUpTo]
    · rcases hnext : l.next? with _ | ⟨item, behind⟩ <;> simp [itemsUpTo, hnext]
  | succ k ih =>
    intro n l hn
    rw [Function.iterate_succ_apply]
    by_cases hfinished : l.finished = true
    · have hpull : l.pull = l := by simp [pull, next?, hfinished]
      rw [hpull, ih n l (.inl hfinished), itemsUpTo_of_finished hfinished, List.getElem?_nil,
        List.getElem?_nil]
    · rcases n with _ | n
      · exact absurd hn (by simp [hfinished])
      · have hpull : l.pull = l.skipTrivia.read.2 := by simp [pull, next?, hfinished]
        have hitems : l.itemsUpTo (n + 1)
            = l.skipTrivia.read.1 :: l.skipTrivia.read.2.itemsUpTo n := by
          simp [itemsUpTo, next?, hfinished]
        rw [hpull, hitems, List.getElem?_cons_succ]
        refine ih n _ ?_
        by_cases hrest : l.skipTrivia.rest = []
        · obtain ⟨_, hend, -⟩ := read_of_rest_nil hrest
          exact .inl (by rw [hend])
        · obtain ⟨-, hshorter, -⟩ := read_of_rest_ne_nil hrest
          have hskip : l.skipTrivia.rest.length ≤ l.rest.length := by simp [skipTrivia]
          have hlt : l.rest.length < n + 1 := hn.resolve_left hfinished
          exact .inr (by omega)

end Lexer

/-! ## Texts -/

namespace LexItem.Tiles

variable {source : String} {pieces : List (List Char × LexItem)} {last : List Char}
  {item : LexItem}

/-- An item stands in the text that the gaps and items make up. -/
lemma exists_eq_append (h : Tiles [] pieces last)
    (hsource : source.toList = textOf pieces ++ last) (hitem : item ∈ pieces.map Prod.snd) :
    ∃ before after, source.toList = before ++ item.text ++ after ∧ item.span
      = .between (Place.start.after before) (Place.start.after (before ++ item.text)) := by
  obtain ⟨⟨gap, _⟩, hpiece, rfl⟩ := List.mem_map.1 hitem
  obtain ⟨before, after, rfl⟩ := List.append_of_mem hpiece
  refine ⟨textOf before ++ gap, textOf after ++ last, ?_, ?_⟩
  · rw [hsource]
    simp [textOf]
  · simpa using h.span before gap _ after rfl

end LexItem.Tiles

/-- Nothing of a text is lost by lexing.  There are gaps and items, and a last gap, such that

* the gaps and the texts of the items, one after the other, are the text, and each item has the
  span of its text there; a gap is white space and comments up to the end of the line or the text;
* the items are what the lexer yields, and behind them it yields the end of the input, at the end
  of the text; asked again and again, it answers these one by one and then nothing for ever;
* each item takes some text, which its span covers, and no token among them ends the input or has
  white space in it;
* the spans of all that is yielded rise without an overlap, and their lines and columns are those
  of their beginnings.

**Proof sketch.** The gaps and the items tile the text, which gives their spans and their order.
The end of the input is what the lexer yields behind the last gap, and it yields no item after it.
-/
theorem lex_lossless (source : String) :
    ∃ (pieces : List (List Char × LexItem)) (last : List Char) (eof : Token),
      source.toList = LexItem.textOf pieces ++ last ∧ LexItem.Tiles [] pieces last
        ∧ lex source = pieces.map Prod.snd ++ [.token eof]
        ∧ eof.kind = .eof ∧ eof.lexeme = "" ∧ eof.span.start = source.utf8ByteSize
        ∧ eof.span.stop = source.utf8ByteSize
        ∧ (∀ k, ((Lexer.pull^[k] (.ofSource source)).next?).map Prod.fst = (lex source)[k]?)
        ∧ (∀ item ∈ pieces.map Prod.snd, item.Solid ∧ item.span.start < item.span.stop
          ∧ item.span.slice source = String.ofList item.text)
        ∧ (lex source).Pairwise (fun i j => i.span.stop ≤ j.span.start)
        ∧ ∀ item ∈ lex source, item.span.Exact source := by
  obtain ⟨pieces, last, hlex, hsource, htiles⟩ :=
    Lexer.itemsUpTo_tiles _ (.ofSource source) [] rfl rfl (Nat.lt_succ_self _)
  change lex source = _ at hlex
  change source.toList = _ at hsource
  rw [List.nil_append] at hlex
  change lex source = pieces.map Prod.snd ++ [.token (.atEnd source.toList)] at hlex
  obtain ⟨items, hitems, hstop, hmunched⟩ := Lexer.exists_items_munched source
  obtain rfl : items = pieces.map Prod.snd := List.append_cancel_right (hitems.symm.trans hlex)
  obtain ⟨hordered, hbelow⟩ := LexItem.pairwise_of_munched hmunched
  have hend : (Place.start.after source.toList).offset = source.utf8ByteSize := by
    rw [Place.offset_after_start, String.ofList_toList]
  refine ⟨pieces, last, .atEnd source.toList, hsource, htiles, hlex, rfl, rfl, hend, hend, ?_, ?_,
    ?_, ?_⟩
  · exact fun k => Lexer.next?_pull k _ _ (.inr (Nat.lt_succ_self _))
  · intro item hitem
    obtain ⟨before, after, htext, hspan⟩ := htiles.exists_eq_append hsource hitem
    obtain ⟨piece, hpiece, rfl⟩ := List.mem_map.1 hitem
    have hsolid := htiles.solid piece hpiece
    refine ⟨hsolid, ?_, ?_⟩
    · obtain ⟨c, cs, hcs⟩ := List.exists_cons_of_ne_nil hsolid.1
      rw [hspan, hcs, Place.after_append]
      exact Place.offset_lt_after _ c cs
    · rw [hspan, Span.slice_between htext]
  · rw [hlex]
    refine List.pairwise_append.2 ⟨hordered, List.pairwise_singleton _ _, fun i hi j hj => ?_⟩
    rw [List.mem_singleton.1 hj]
    exact (hbelow i hi).trans hstop
  · intro item hitem
    rw [hlex] at hitem
    rcases List.mem_append.1 hitem with hitem | hitem
    · obtain ⟨before, after, htext, hspan⟩ := htiles.exists_eq_append hsource hitem
      rw [hspan]
      exact Span.exact_between htext
    · rw [List.mem_singleton.1 hitem]
      exact (Token.standsIn_atEnd source.toList).exact

end RakeLang
