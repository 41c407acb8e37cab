import RakeLang.Proofs.Lexing.Grammar
import RakeLang.Proofs.Lexing.Stream

/-!
# Every item is the longest one

The lexer cuts a text at its gaps and, between them, into the longest lexemes.  Which lexemes there
are depends on the last token before them, since a minus sign belongs to a number only where no
operand stands in front of it; a character that begins no lexeme is passed over and does not count
as a token before.

## Main definitions

* `RakeLang.Lexeme.Gap` — the white space and the comments in front of a text.
* `RakeLang.LexItem.Munched` — the item that has to stand behind given ones in a text.

## Main results

* `RakeLang.Lexeme.gap_trivia` — what is skipped is a gap.
* `RakeLang.Lexer.exists_items_munched` — the items of a text are munched, and behind them stands
  the end of the input.
* `RakeLang.lex_munches` — every item of a text, but the end of the input, is the longest one.
-/

set_option relaxedAutoImplicit false
set_option autoImplicit false

namespace RakeLang

/-! ## Gaps -/

namespace Lexeme

/-- White space and comments in front of `rest`, and nothing of either at the head of `rest`.  A
comment is two tildes and what follows them up to the end of the line. -/
inductive Gap : List Char → List Char → Prop where
  | nil {rest : List Char} (hblank : ∀ c ∈ rest.head?, Text.isBlank c = false)
      (hcomment : ¬ ['~', '~'] <+: rest) : Gap [] rest
  | blank {c : Char} {gap rest : List Char} (hblank : Text.isBlank c = true) (hgap : Gap gap rest) :
      Gap (c :: gap) rest
  | comment {text gap rest : List Char} (htext : '\n' ∉ text)
      (hline : ∀ c ∈ (gap ++ rest).head?, c = '\n') (hgap : Gap gap rest) :
      Gap ('~' :: '~' :: (text ++ gap)) rest

/-- What is skipped is the head of the text. -/
lemma triviaFrom_isPrefix (inComment : Bool) (cs : List Char) :
    triviaFrom inComment cs <+: cs := by
  fun_induction triviaFrom inComment cs with
  | case1 => exact List.prefix_rfl
  | case2 c cs ih => exact List.cons_prefix_cons.2 ⟨rfl, ih⟩
  | case3 cs ih => exact List.cons_prefix_cons.2 ⟨rfl, List.cons_prefix_cons.2 ⟨rfl, ih⟩⟩
  | case4 c cs _ hblank ih => exact List.cons_prefix_cons.2 ⟨rfl, ih⟩
  | case5 => exact List.nil_prefix

/-- What is skipped and what is left are the text. -/
lemma trivia_append_drop (cs : List Char) : trivia cs ++ cs.drop (trivia cs).length = cs :=
  List.prefix_iff_eq_append.1 (triviaFrom_isPrefix _ cs)

/-- Outside a comment a gap is skipped; inside one, the rest of the comment and the gap behind it.

**Proof sketch.** Induction along the characters that are skipped.  The end of a line leads out of a
comment, and a comment sign into one. -/
lemma triviaFrom_spec (inComment : Bool) (cs : List Char) :
    (inComment = false →
      Gap (triviaFrom inComment cs) (cs.drop (triviaFrom inComment cs).length))
    ∧ (inComment = true → ∃ text gap, triviaFrom inComment cs = text ++ gap ∧ '\n' ∉ text
      ∧ (∀ c ∈ (gap ++ cs.drop (triviaFrom inComment cs).length).head?, c = '\n')
      ∧ Gap gap (cs.drop (triviaFrom inComment cs).length)) := by
  fun_induction triviaFrom inComment cs with
  | case1 =>
    have hnil : Gap [] [] := .nil (by simp) (by simp)
    exact ⟨fun _ => hnil, fun _ => ⟨[], [], rfl, by simp, by simp, hnil⟩⟩
  | case2 c cs ih =>
    refine ⟨by simp, fun _ => ?_⟩
    by_cases hc : c = '\n'
    · have hgap := ih.1 (by simp [hc])
      exact ⟨[], _, rfl, by simp, by simp [hc], .blank (by rw [hc]; decide) hgap⟩
    · obtain ⟨text, gap, htrivia, htext, hline, hgap⟩ := ih.2 (by simpa using hc)
      exact ⟨c :: text, gap, by rw [htrivia, List.cons_append], by simp [htext, Ne.symm hc], hline,
        hgap⟩
  | case3 cs ih =>
    refine ⟨fun _ => ?_, by simp⟩
    obtain ⟨text, gap, htrivia, htext, hline, hgap⟩ := ih.2 rfl
    simp only [List.length_cons, List.drop_succ_cons]
    have hcomment := Gap.comment htext hline hgap
    rwa [← htrivia] at hcomment
  | case4 c cs _ hblank ih => exact ⟨fun _ => .blank hblank (ih.1 rfl), by simp⟩
  | case5 c cs hcomment hblank =>
    refine ⟨fun _ => .nil (by simpa using hblank) ?_, by simp⟩
    rintro ⟨rest, hrest⟩
    obtain ⟨hc, hcs⟩ := List.cons.inj hrest
    exact hcomment rest hc.symm hcs.symm

/-- What the lexer skips is a gap. -/
theorem gap_trivia (cs : List Char) : Gap (trivia cs) (cs.drop (trivia cs).length) :=
  (triviaFrom_spec false cs).1 rfl

end Lexeme

/-! ## Items -/

namespace LexItem

/-- Where the item stands. -/
def span : LexItem → Span
  | token t => t.span
  | unrecognized _ span => span

/-- The number of bytes before the end of the last of some items. -/
def stopOf (items : List LexItem) : Nat := (items.getLast?.map fun item => item.span.stop).getD 0

/-- Can the last token among some items end an operand?  Unrecognised characters do not count. -/
def endsOperand (items : List LexItem) : Bool :=
  (items.filterMap token?).getLast?.any fun t => t.kind.endsOperand

/-- The end of some items is the end of the last one. -/
lemma stopOf_append (items : List LexItem) (item : LexItem) :
    stopOf (items ++ [item]) = item.span.stop := by
  simp [stopOf]

/-- Behind a token, the token tells whether an operand ends. -/
lemma endsOperand_append_token (items : List LexItem) (t : Token) :
    endsOperand (items ++ [token t]) = t.kind.endsOperand := by
  simp [endsOperand, token?]

/-- An unrecognised character does not count as a token before. -/
lemma endsOperand_append_unrecognized (items : List LexItem) (c : Char) (span : Span) :
    endsOperand (items ++ [unrecognized c span]) = endsOperand items := by
  simp [endsOperand, token?]

/-- The item stands in the text behind the items `before` and the gap that follows them.  A token is
the longest lexeme there; a character is unrecognised where no lexeme begins.  Either has the span
of its text. -/
def Munched (source : List Char) (before : List LexItem) (item : LexItem) : Prop :=
  ∃ passed gap rest, source = passed ++ gap ++ rest
    ∧ (Place.start.after passed).offset = stopOf before ∧ Lexeme.Gap gap rest
    ∧ match item with
      | token t =>
        Lexeme.IsLongest (endsOperand before) rest t.kind t.lexeme.toList
          ∧ t.span = .between (Place.start.after (passed ++ gap))
            (Place.start.after (passed ++ gap ++ t.lexeme.toList))
      | unrecognized c span =>
        (∃ tail, rest = c :: tail)
          ∧ span = .between (Place.start.after (passed ++ gap))
            (Place.start.after (passed ++ gap ++ [c]))
          ∧ ∀ kind text, text <+: rest → ¬ Lexeme.Matches (endsOperand before) kind text

end LexItem

/-- The token at the end of a text. -/
def Token.atEnd (source : List Char) : Token :=
  ⟨.eof, "", .between (Place.start.after source) (Place.start.after source)⟩

/-- A place behind a text is further on. -/
lemma Place.offset_le_after (p : Place) (cs : List Char) : p.offset ≤ (p.after cs).offset := by
  induction cs generalizing p with
  | nil => exact le_rfl
  | cons c cs ih =>
    have hnext : p.offset ≤ (p.next c).offset := by
      unfold next
      split <;> simp
    exact hnext.trans (ih _)

namespace Lexer

/-- The lexer stands in the text behind the items `seen`. -/
structure Behind (source : List Char) (seen : List LexItem) (l : Lexer) : Prop where
  /-- What is left is what is not passed. -/
  exists_passed : ∃ passed, source = passed ++ l.rest ∧ l.place = Place.start.after passed
  /-- The place is the end of the last item. -/
  stopOf_seen : l.place.offset = LexItem.stopOf seen
  /-- The memory is that of the last token. -/
  endsOperand_seen : l.afterOperand = LexItem.endsOperand seen

/-- At the beginning of a text the lexer has seen nothing. -/
lemma behind_ofSource (source : String) : Behind source.toList [] (ofSource source) :=
  ⟨⟨[], rfl, rfl⟩, rfl, rfl⟩

/-- Before the end of the text, the next item is munched, and behind it the lexer has seen one item
more.

**Proof sketch.** What is skipped is a gap, and what is read behind it is the longest lexeme, if
there is one, or else a character that begins none.  The place and the memory of the lexer are those
behind the new item. -/
lemma Behind.read {source : List Char} {seen : List LexItem} {l : Lexer}
    (h : Behind source seen l) (hrest : l.skipTrivia.rest ≠ []) :
    LexItem.Munched source seen l.skipTrivia.read.1
      ∧ Behind source (seen ++ [l.skipTrivia.read.1]) l.skipTrivia.read.2 := by
  obtain ⟨⟨passed, hsource, hplace⟩, hstop, hmemory⟩ := h
  have hgap := Lexeme.gap_trivia l.rest
  have hsplit := Lexeme.trivia_append_drop l.rest
  have hafter : l.skipTrivia.place = Place.start.after (passed ++ Lexeme.trivia l.rest) := by
    rw [Place.after_append, ← hplace]
    rfl
  have hsource' : source = passed ++ Lexeme.trivia l.rest ++ l.skipTrivia.rest := by
    rw [List.append_assoc]
    exact hsource.trans (congrArg (passed ++ ·) hsplit.symm)
  have hmemory' : l.skipTrivia.afterOperand = LexItem.endsOperand seen := hmemory
  have hstop' : (Place.start.after passed).offset = LexItem.stopOf seen := hplace ▸ hstop
  change Lexeme.Gap _ l.skipTrivia.rest at hgap
  generalize l.skipTrivia = m at *
  have hnext (text : List Char) : m.place.after text
      = Place.start.after (passed ++ Lexeme.trivia l.rest ++ text) := by
    rw [Place.after_append _ _ text, ← hafter]
  rcases hlong : Lexeme.longest? m.afterOperand m.rest with _ | ⟨kind, text⟩
  · -- no lexeme stands here: one character is passed, and the memory stays as it was
    obtain ⟨c, cs, hcs⟩ := List.exists_cons_of_ne_nil hrest
    have hnext' : m.place.next c = Place.start.after (passed ++ Lexeme.trivia l.rest ++ [c]) :=
      hnext [c]
    rw [read_of_longest?_eq_none hcs (hcs ▸ hlong), hnext']
    refine ⟨⟨passed, _, m.rest, hsource', hstop', hgap, ⟨cs, hcs⟩, by rw [hafter], ?_⟩,
      ⟨_, ?_, rfl⟩, ?_, ?_⟩
    · rw [← hmemory']
      exact Lexeme.longest?_eq_none_iff.1 hlong
    · rw [hsource', hcs]
      simp
    · rw [LexItem.stopOf_append]
      rfl
    · rw [LexItem.endsOperand_append_unrecognized]
      exact hmemory'
  · -- the longest lexeme is passed, and remembered
    have hlongest := Lexeme.longest?_eq_some_iff.1 hlong
    rw [read_of_longest?_eq_some hlong, hnext text]
    refine ⟨⟨passed, _, m.rest, hsource', hstop', hgap, ?_, ?_⟩, ⟨_, ?_, rfl⟩, ?_, ?_⟩
    · rw [← hmemory', String.toList_ofList]
      exact hlongest
    · rw [hafter, String.toList_ofList]
    · rw [hsource', List.append_assoc (passed ++ _)]
      exact congrArg _ (List.prefix_iff_eq_append.1 hlongest.1).symm
    · rw [LexItem.stopOf_append]
      rfl
    · rw [LexItem.endsOperand_append_token]

/-- At the end of the text the lexer reads the end of the input, which stands behind all items.

**Proof sketch.** Where nothing remains behind the gap, the gap is all that was left, so the place
behind it is the end of the source.  The items end before the gap, and places only grow. -/
lemma Behind.read_end {source : List Char} {seen : List LexItem} {l : Lexer}
    (h : Behind source seen l) (hrest : l.skipTrivia.rest = []) :
    l.skipTrivia.read = (.token (.atEnd source), { l.skipTrivia with finished := true })
      ∧ LexItem.stopOf seen ≤ (Place.start.after source).offset := by
  obtain ⟨⟨passed, hsource, hplace⟩, hstop, -⟩ := h
  have hgap : Lexeme.trivia l.rest = l.rest := by
    have hsplit := Lexeme.trivia_append_drop l.rest
    have hnil : l.rest.drop (Lexeme.trivia l.rest).length = [] := hrest
    rwa [hnil, List.append_nil] at hsplit
  have hafter : l.skipTrivia.place = Place.start.after source := by
    have : l.skipTrivia.place = l.place.after (Lexeme.trivia l.rest) := rfl
    rw [this, hgap, hplace, ← Place.after_append, ← hsource]
  refine ⟨?_, ?_⟩
  · generalize l.skipTrivia = m at *
    obtain ⟨rest, place, afterOperand, finished⟩ := m
    simp only at hrest hafter
    subst hrest hafter
    rfl
  · rw [← hstop, hplace, hsource, Place.after_append]
    exact Place.offset_le_after _ _

/-- The items of a lexer are munched, up to the end of the input.

**Proof sketch.** Induction on the bound, which stays beyond the characters left.  The first item is
munched since the lexer stands behind what it has seen; the others come from the lexer behind the
first, which has seen one item more. -/
lemma itemsUpTo_munched {source : List Char} (n : Nat) :
    ∀ (l : Lexer) (seen : List LexItem), Behind source seen l → l.finished = false →
      l.rest.length < n →
      ∃ items, l.itemsUpTo n = items ++ [.token (.atEnd source)]
        ∧ LexItem.stopOf (seen ++ items) ≤ (Place.start.after source).offset
        ∧ ∀ before item after, items = before ++ item :: after →
          LexItem.Munched source (seen ++ before) item := by
  induction n with
  | zero => intro l seen _ _ hn; omega
  | succ n ih =>
    intro l seen hbehind hfinished hn
    have hskip : l.skipTrivia.rest.length ≤ l.rest.length := by simp [skipTrivia]
    have hitems : l.itemsUpTo (n + 1)
        = l.skipTrivia.read.1 :: l.skipTrivia.read.2.itemsUpTo n := by
      simp [itemsUpTo, next?, hfinished]
    by_cases hrest : l.skipTrivia.rest = []
    · obtain ⟨hread, hstop⟩ := hbehind.read_end hrest
      refine ⟨[], ?_, by simpa using hstop, by simp⟩
      rw [hitems, hread, itemsUpTo_of_finished rfl, List.nil_append]
    · obtain ⟨hmunched, hbehind'⟩ := hbehind.read hrest
      obtain ⟨hfinished', hshorter, -⟩ := read_of_rest_ne_nil hrest
      obtain ⟨items, hitems', hstop, hall⟩ :=
        ih _ _ hbehind' (hfinished'.trans hfinished) (by omega)
      refine ⟨l.skipTrivia.read.1 :: items, by rw [hitems, hitems', List.cons_append], ?_, ?_⟩
      · rwa [List.append_assoc] at hstop
      · rintro (_ | ⟨first, before⟩) item after h
        · obtain ⟨rfl, -⟩ := List.cons.inj h
          rwa [List.append_nil]
        · obtain ⟨rfl, htail⟩ := List.cons.inj h
          have := hall before item after htail
          rwa [List.append_assoc] at this

/-- The items of a text are munched, up to the end of the input. -/
theorem exists_items_munched (source : String) :
    ∃ items, lex source = items ++ [.token (.atEnd source.toList)]
      ∧ LexItem.stopOf items ≤ (Place.start.after source.toList).offset
      ∧ ∀ before item after, items = before ++ item :: after →
        LexItem.Munched source.toList before item :=
  itemsUpTo_munched _ _ _ (behind_ofSource source) rfl (Nat.lt_succ_self _)

end Lexer

/-- The lexer cuts a text into the longest lexemes: behind the items before it and the gap that
follows them, each item but the end of the input is the longest lexeme there, and it is an
unrecognised character exactly where no lexeme begins. -/
theorem lex_munches (source : String) :
    ∃ items eof, lex source = items ++ [.token eof] ∧ eof.kind = .eof
      ∧ ∀ before item after, items = before ++ item :: after →
        LexItem.Munched source.toList before item := by
  obtain ⟨items, hitems, -, hall⟩ := Lexer.exists_items_munched source
  exact ⟨items, _, hitems, rfl, hall⟩

end RakeLang
