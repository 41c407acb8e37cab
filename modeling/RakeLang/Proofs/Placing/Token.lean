import RakeLang.Proofs.Lexing.Longest
import RakeLang.Proofs.Reading.Cursor

/-!
# Where tokens stand

The lexer counts bytes, lines and columns as it goes.  The place that it counts behind a text is the
one that the text alone determines, so that each token has the span of its own text.  The halves
that a token falls into by a split, and the number that takes the minus sign of an arrow, have the
spans of their texts too.

## Main definitions

* `RakeLang.Span.Exact` — the span of a stretch of a text, said without counting along.
* `RakeLang.Token.StandsIn` — the token is a stretch of a text, and has its span.
* `RakeLang.Token.Faithful` — tokens of a text, one behind the other.

## Main results

* `RakeLang.Span.exact_between` — the span between two places of a text is exact.
* `RakeLang.Token.faithful_of_lex` — the tokens of a text are faithful.
* `RakeLang.Token.Faithful.splitsTo` — they stay so when they are split.
-/

set_option relaxedAutoImplicit false
set_option autoImplicit false

namespace RakeLang

/-! ## Places -/

namespace Place

/-- The bytes in front of the place behind a text are those of the text. -/
lemma offset_after (p : Place) (cs : List Char) :
    (p.after cs).offset = p.offset + (String.ofList cs).utf8ByteSize := by
  induction cs generalizing p with
  | nil => rfl
  | cons c cs ih =>
    have hnext : (p.next c).offset = p.offset + c.utf8Size := by
      unfold next
      split <;> rfl
    rw [after_cons, ih, hnext, String.ofList_cons, String.utf8ByteSize_append,
      String.utf8ByteSize_singleton, Nat.add_assoc]

/-- The place behind a text and one more character. -/
lemma after_append_singleton (p : Place) (cs : List Char) (c : Char) :
    p.after (cs ++ [c]) = (p.after cs).next c := by
  rw [after_append, after_cons, after_nil]

/-- The line of the place behind a text counts the newlines of the text. -/
lemma line_after_start (cs : List Char) : (start.after cs).line = 1 + cs.count '\n' := by
  induction cs using List.reverseRecOn with
  | nil => rfl
  | append_singleton cs c ih =>
    rw [after_append_singleton, List.count_append, ← Nat.add_assoc, ← ih, next]
    split
    · rename_i hc
      simp [hc]
    · rename_i hc
      simp [hc]

/-- The column of the place behind a text counts the characters behind its last newline. -/
lemma column_after_start (cs : List Char) :
    (start.after cs).column = 1 + (cs.reverse.takeWhile (· != '\n')).length := by
  induction cs using List.reverseRecOn with
  | nil => rfl
  | append_singleton cs c ih =>
    rw [after_append_singleton, List.reverse_append, List.reverse_singleton,
      List.singleton_append, List.takeWhile_cons, next]
    split
    · rename_i hc
      simp [hc]
    · rename_i hc
      simp [hc, ih, Nat.add_assoc]

/-- A text has its bytes in front of the place behind it. -/
lemma offset_after_start (cs : List Char) :
    (start.after cs).offset = (String.ofList cs).utf8ByteSize := by
  rw [offset_after]
  exact Nat.zero_add _

/-- Behind a character the place is further on. -/
lemma offset_lt_after (p : Place) (c : Char) (cs : List Char) :
    p.offset < (p.after (c :: cs)).offset := by
  have hnext : (p.next c).offset = p.offset + c.utf8Size := by
    unfold next
    split <;> rfl
  have hpos := c.utf8Size_pos
  have hle := offset_le_after (p.next c) cs
  rw [after_cons]
  omega

/-- Initial parts of a text that end at the same byte are the same. -/
lemma eq_of_offset_eq {source cs ds : List Char} (hc : cs <+: source) (hd : ds <+: source)
    (h : (start.after cs).offset = (start.after ds).offset) : cs = ds := by
  -- the longer one goes on behind the shorter one, by nothing
  have hshorter : ∀ as bs : List Char, as <+: bs →
      (start.after as).offset = (start.after bs).offset → as = bs := by
    rintro as _ ⟨rest, rfl⟩ heq
    rcases rest with _ | ⟨c, rest⟩
    · rw [List.append_nil]
    · rw [after_append] at heq
      exact absurd heq (offset_lt_after _ c rest).ne
  rcases List.prefix_or_prefix_of_prefix hc hd with hle | hle
  · exact hshorter cs ds hle h
  · exact (hshorter ds cs hle h.symm).symm

end Place

/-! ## Spans -/

/-- The span is that of a stretch of the text: it begins and ends between two characters of it, and
its line and its column are those of its beginning. -/
structure Span.Exact (source : String) (s : Span) : Prop where
  start_le_stop : s.start ≤ s.stop
  stop_le : s.stop ≤ source.utf8ByteSize
  start_valid : String.Pos.Raw.IsValid source ⟨s.start⟩
  stop_valid : String.Pos.Raw.IsValid source ⟨s.stop⟩
  /-- A line more than there are newlines in front. -/
  line_eq : ∀ before after : String, source = before ++ after → before.utf8ByteSize = s.start →
    s.line = 1 + before.toList.count '\n'
  /-- A column more than there are characters between the last newline in front and the
  beginning. -/
  column_eq : ∀ before after : String, source = before ++ after → before.utf8ByteSize = s.start →
    s.column = 1 + (before.toList.reverse.takeWhile (· != '\n')).length

namespace Span

/-- A span and one behind it: from the beginning of the one to the end of the other. -/
lemma merge_eq {a b : Span} (hstart : a.start ≤ b.start) (hstop : a.stop ≤ b.stop) :
    a.merge b = ⟨a.line, a.column, a.start, b.stop⟩ := by
  rw [merge, if_pos hstart, max_eq_right hstop]

section Between

variable {source : String} {before text after : List Char}

/-- The span between two places of a text is exact.

**Proof sketch.** The number of bytes in front of a place determines the text in front of it, since
the numbers of bytes in front of two places of a text differ.  So the line and the column are those
of this text. -/
theorem exact_between (h : source.toList = before ++ text ++ after) :
    (between (Place.start.after before) (Place.start.after (before ++ text))).Exact source := by
  have hsource : source = String.ofList before ++ String.ofList text ++ String.ofList after := by
    rw [← String.ofList_append, ← String.ofList_append, ← h, String.ofList_toList]
  have hstop : (Place.start.after (before ++ text)).offset
      = (String.ofList before ++ String.ofList text).utf8ByteSize := by
    rw [Place.offset_after_start, String.ofList_append]
  have hbefore : ∀ before' after' : String, source = before' ++ after' →
      before'.utf8ByteSize = (Place.start.after before).offset → before'.toList = before := by
    intro before' after' hsplit hsize
    have hbefore' : before'.toList <+: source.toList := by
      rw [hsplit, String.toList_append]
      exact List.prefix_append _ _
    have hbefore : before <+: source.toList := by
      rw [h, List.append_assoc]
      exact List.prefix_append _ _
    refine Place.eq_of_offset_eq hbefore' hbefore ?_
    rw [Place.offset_after_start, String.ofList_toList, hsize]
  constructor
  · rw [Place.after_append]
    exact Place.offset_le_after _ _
  · simp only [between, hstop, hsource, String.utf8ByteSize_append]
    omega
  · have hsplit : source = String.ofList before ++ (String.ofList text ++ String.ofList after) :=
      hsource.trans (String.append_assoc ..)
    exact String.Pos.Raw.isValid_iff_exists_append.2
      ⟨_, _, hsplit, congrArg _ (Place.offset_after_start before)⟩
  · exact String.Pos.Raw.isValid_iff_exists_append.2 ⟨_, _, hsource, congrArg _ hstop⟩
  · intro before' after' hsplit hsize
    rw [hbefore before' after' hsplit hsize]
    exact Place.line_after_start before
  · intro before' after' hsplit hsize
    rw [hbefore before' after' hsplit hsize]
    exact Place.column_after_start before

end Between

end Span

/-! ## Tokens -/

namespace Token

/-- The token is a stretch of the text, and has its span. -/
def StandsIn (source : List Char) (t : Token) : Prop :=
  ∃ before after, source = before ++ t.lexeme.toList ++ after
    ∧ t.span = .between (Place.start.after before) (Place.start.after (before ++ t.lexeme.toList))

/-- The tokens are stretches of the text, with texts that fit their kinds, and each one ends before
the next ones begin. -/
structure Faithful (source : List Char) (ts : List Token) : Prop where
  standsIn : ∀ t ∈ ts, t.StandsIn source
  isLexed : ∀ t ∈ ts, t.IsLexed
  ordered : ts.Pairwise fun t u => t.span.stop ≤ u.span.start

section StandsIn

variable {source : List Char} {t : Token}

/-- A token of a text does not end before it begins. -/
lemma StandsIn.start_le_stop (h : t.StandsIn source) : t.span.start ≤ t.span.stop := by
  obtain ⟨before, after, -, hspan⟩ := h
  rw [hspan, Place.after_append]
  exact Place.offset_le_after _ _

/-- The span of a token of a text is exact. -/
lemma StandsIn.exact {source : String} (h : t.StandsIn source.toList) : t.span.Exact source := by
  obtain ⟨before, after, hsource, hspan⟩ := h
  rw [hspan]
  exact Span.exact_between hsource

/-- A token with a first character of one byte, on the line of the rest, falls into this character
and the rest.

**Proof sketch.** The first character takes one byte and one column, so that the place behind it
is the middle that the spans of the halves have. -/
lemma StandsIn.halves {c : Char} {cs : List Char} (h : t.StandsIn source)
    (hlexeme : t.lexeme.toList = c :: cs) (hsize : c.utf8Size = 1) (hc : c ≠ '\n')
    {first second : Token} (hfirst : first.lexeme.toList = [c] ∧ first.span = t.span.firstByte)
    (hsecond : second.lexeme.toList = cs ∧ second.span = t.span.afterFirstByte) :
    first.StandsIn source ∧ second.StandsIn source := by
  obtain ⟨before, after, hsource, hspan⟩ := h
  rw [hlexeme] at hsource hspan
  have hnext : Place.start.after (before ++ [c]) = ⟨(Place.start.after before).offset + 1,
      (Place.start.after before).line, (Place.start.after before).column + 1⟩ := by
    rw [Place.after_append_singleton, Place.next, if_neg hc, hsize]
  have hstop : Place.start.after (before ++ [c] ++ cs) = Place.start.after (before ++ c :: cs) := by
    rw [List.append_assoc, List.singleton_append]
  constructor
  · refine ⟨before, cs ++ after, ?_, ?_⟩
    · rw [hfirst.1, hsource]
      simp
    · rw [hfirst.1, hfirst.2, hspan, hnext]
      rfl
  · refine ⟨before ++ [c], after, ?_, ?_⟩
    · rw [hsecond.1, hsource]
      simp
    · rw [hsecond.1, hsecond.2, hspan, hstop, hnext]
      rfl

/-- Two tokens without a gap between them form one token.

**Proof sketch.** The second token begins where the first one ends, so that the text in front of
it is the text in front of the first one and the first one. -/
lemma StandsIn.joins {a b : Token} (ha : a.StandsIn source) (hb : b.StandsIn source)
    (hnext : b.span.start = a.span.stop)
    (hlexeme : t.lexeme.toList = a.lexeme.toList ++ b.lexeme.toList)
    (hspan : t.span = a.span.merge b.span) : t.StandsIn source := by
  have ha' := ha.start_le_stop
  have hb' := hb.start_le_stop
  obtain ⟨before, after, hsource, haspan⟩ := ha
  obtain ⟨before', after', hsource', hbspan⟩ := hb
  have hbefore : before' = before ++ a.lexeme.toList := by
    have hb : before' <+: source := by
      rw [hsource', List.append_assoc]
      exact List.prefix_append _ _
    have ha : before ++ a.lexeme.toList <+: source := by
      rw [hsource]
      exact List.prefix_append _ _
    rw [hbspan, haspan] at hnext
    exact Place.eq_of_offset_eq hb ha hnext
  refine ⟨before, after', ?_, ?_⟩
  · rw [hlexeme, hsource', hbefore]
    simp
  · rw [hlexeme, hspan, Span.merge_eq (by omega) (by omega), haspan, hbspan, hbefore,
      List.append_assoc]
    rfl

end StandsIn

/-! ## Splits -/

section Splits

variable {source : List Char} {ts us : List Token}

/-- Tokens in order stay so where some of them are replaced by others that take no more room.

**Proof sketch.** Order within the three stretches is given.  Across a seam it goes through a token
that was replaced: a new token begins no earlier than some old one begins, and stops no later than
some old one stops. -/
lemma pairwise_replace {before after : List Token} (mid mid' : List Token)
    (h : (before ++ (mid ++ after)).Pairwise fun t u => t.span.stop ≤ u.span.start)
    (hmid : mid'.Pairwise fun t u => t.span.stop ≤ u.span.start)
    (hstart : ∀ x ∈ mid', ∃ m ∈ mid, m.span.start ≤ x.span.start)
    (hstop : ∀ x ∈ mid', ∃ m ∈ mid, x.span.stop ≤ m.span.stop) :
    (before ++ (mid' ++ after)).Pairwise fun t u => t.span.stop ≤ u.span.start := by
  obtain ⟨hbefore, hrest, hcross⟩ := List.pairwise_append.1 h
  obtain ⟨-, hafter, hcross'⟩ := List.pairwise_append.1 hrest
  refine List.pairwise_append.2 ⟨hbefore, List.pairwise_append.2 ⟨hmid, hafter, ?_⟩, ?_⟩
  · intro x hx u hu
    obtain ⟨m, hm, hle⟩ := hstop x hx
    exact hle.trans (hcross' m hm u hu)
  · intro t ht x hx
    rcases List.mem_append.1 hx with hx | hx
    · obtain ⟨m, hm, hle⟩ := hstart x hx
      exact (hcross t ht m (List.mem_append_left _ hm)).trans hle
    · exact hcross t ht x (List.mem_append_right _ hx)

/-- The text of a minus sign. -/
lemma toList_lexeme_minusAt (span : Span) : (minusAt span).lexeme.toList = ['-'] := by
  simp [minusAt]

/-- The text of a less-than sign. -/
lemma toList_lexeme_lessAt (span : Span) : (lessAt span).lexeme.toList = ['<'] := by
  simp [lessAt]

/-- The halves of a signed number stand where it stood. -/
lemma StandsIn.of_splitSign? {t minus number : Token} (h : t.StandsIn source)
    (hsplit : t.splitSign? = some (minus, number)) :
    minus.StandsIn source ∧ number.StandsIn source := by
  obtain ⟨hsigned, rfl, rfl⟩ := eq_of_splitSign? hsplit
  simp only [isSignedNumber, hasSign, Bool.and_eq_true, beq_iff_eq,
    List.head?_eq_some_iff] at hsigned
  obtain ⟨-, cs, hcs⟩ := hsigned
  exact h.halves hcs rfl (by decide) ⟨toList_lexeme_minusAt _, rfl⟩
    ⟨by simp [withoutSign, hcs], rfl⟩

/-- The halves of an arrow stand where it stood. -/
lemma StandsIn.of_arrow {arrow : Token} (h : arrow.StandsIn source) (hlexed : arrow.IsLexed)
    (hkind : arrow.kind = .symbol .leftArrow) :
    (lessAt arrow.span.firstByte).StandsIn source
      ∧ (minusAt arrow.span.afterFirstByte).StandsIn source := by
  have hlexeme : arrow.lexeme.toList = ['<', '-'] := by
    have hfits := hlexed.2
    rw [hkind] at hfits
    exact hfits
  exact h.halves hlexeme rfl (by decide) ⟨toList_lexeme_lessAt _, rfl⟩
    ⟨toList_lexeme_minusAt _, rfl⟩

/-- A number with the minus sign of the arrow that it follows stands where they stood. -/
lemma StandsIn.joined {arrow next : Token} (harrow : arrow.StandsIn source)
    (hlexed : arrow.IsLexed) (hkind : arrow.kind = .symbol .leftArrow)
    (hnext : next.StandsIn source) (hjoins : joinsArrow arrow next = true) :
    (joined arrow next).StandsIn source := by
  simp only [joinsArrow, Bool.and_eq_true, beq_iff_eq] at hjoins
  have hminus := (harrow.of_arrow hlexed hkind).2
  refine hminus.joins hnext hjoins.1.2 ?_ rfl
  simp [Token.joined, minusAt]

/-- A minus sign could have been lexed. -/
lemma lexed_minusAt (span : Span) : (minusAt span).IsLexed := by
  simp [IsLexed, Kind.Fits, minusAt, Symbol.chars]

/-- A less-than sign could have been lexed. -/
lemma lexed_lessAt (span : Span) : (lessAt span).IsLexed := by
  simp [IsLexed, Kind.Fits, lessAt, Symbol.chars]

/-- A number could have been lexed. -/
lemma lexed_of_isNumber {t : Token} (h : t.kind.isNumber = true) : t.IsLexed := by
  unfold Kind.isNumber at h
  split at h <;> simp_all [IsLexed, Kind.Fits]

/-- Faithful tokens stay faithful where some of them, from `t` to `u`, are replaced by two that
begin where `t` does and end where `u` does.

**Proof sketch.** The two tokens lie between the first and the last one that they replace, so
that what is in front of these and behind them stays in order. -/
lemma Faithful.halved {before after : List Token} {first second t u : Token} (mid : List Token)
    (h : Faithful source (before ++ (mid ++ after))) (ht : t ∈ mid) (hu : u ∈ mid)
    (hfirst : first.StandsIn source ∧ first.IsLexed)
    (hsecond : second.StandsIn source ∧ second.IsLexed)
    (hstart : first.span.start = t.span.start) (hmiddle : first.span.stop ≤ second.span.start)
    (hstop : second.span.stop = u.span.stop) :
    Faithful source (before ++ first :: second :: after) := by
  obtain ⟨hstands, hlexed, hordered⟩ := h
  have hle := hfirst.1.start_le_stop
  have hle' := hsecond.1.start_le_stop
  simp only [List.forall_mem_append] at hstands hlexed
  refine ⟨?_, ?_, pairwise_replace mid [first, second] hordered (by simpa using hmiddle) ?_ ?_⟩
  · simp only [List.forall_mem_append, List.forall_mem_cons]
    exact ⟨hstands.1, hfirst.1, hsecond.1, hstands.2.2⟩
  · simp only [List.forall_mem_append, List.forall_mem_cons]
    exact ⟨hlexed.1, hfirst.2, hsecond.2, hlexed.2.2⟩
  · intro x hx
    refine ⟨t, ht, ?_⟩
    rcases List.mem_pair.1 hx with rfl | rfl <;> omega
  · intro x hx
    refine ⟨u, hu, ?_⟩
    rcases List.mem_pair.1 hx with rfl | rfl <;> omega

/-- Faithful tokens stay faithful where one of them is split.

**Proof sketch.** By the split.  A signed number falls into two halves; an arrow leaves a less-than
sign, and its minus sign stands by itself or is joined with the number that it touches. -/
lemma Faithful.splitStep (h : Faithful source ts) (hstep : SplitStep ts us) :
    Faithful source us := by
  cases hstep with
  | @sign t minus number before after hsplit =>
    obtain ⟨hminus, hnumber⟩ := (h.standsIn t (by simp)).of_splitSign? hsplit
    obtain ⟨hsigned, rfl, rfl⟩ := eq_of_splitSign? hsplit
    simp only [isSignedNumber, Bool.and_eq_true] at hsigned
    have ht : t ∈ [t] := List.mem_singleton_self t
    exact h.halved [t] ht ht ⟨hminus, lexed_minusAt _⟩ ⟨hnumber, lexed_of_isNumber hsigned.1⟩
      rfl le_rfl rfl
  | @arrow before ts' us' hsplit =>
    obtain ⟨arrow, rest, rfl, harrow, hcases⟩ := cases_of_splitArrow? hsplit
    have hstands := h.standsIn arrow (by simp)
    have hlexed := h.isLexed arrow (by simp)
    obtain ⟨hless, hminus⟩ := hstands.of_arrow hlexed harrow
    obtain ⟨next, more, rfl, hjoins, rfl⟩ | rfl := hcases
    · have hnext := h.standsIn next (by simp)
      have hjoined := hstands.joined hlexed harrow hnext hjoins
      have hnumber : next.kind.isNumber = true := by
        simp only [joinsArrow, Bool.and_eq_true] at hjoins
        exact hjoins.1.1
      have hbehind : arrow.span.stop ≤ next.span.start :=
        List.rel_of_pairwise_cons (List.pairwise_append.1 h.ordered).2.1 (by simp)
      have hmerge : arrow.span.afterFirstByte.merge next.span
          = ⟨arrow.span.line, arrow.span.column + 1, arrow.span.start + 1, next.span.stop⟩ := by
        have hfirst : arrow.span.afterFirstByte.start ≤ arrow.span.stop := hminus.start_le_stop
        exact Span.merge_eq (hfirst.trans hbehind) (hbehind.trans hnext.start_le_stop)
      exact h.halved [arrow, next] (t := arrow) (u := next) (by simp) (by simp)
        ⟨hless, lexed_lessAt _⟩ ⟨hjoined, lexed_of_isNumber hnumber⟩ rfl
        (by rw [Token.joined, hmerge]; rfl) (by rw [Token.joined, hmerge])
    · have hmem : arrow ∈ [arrow] := List.mem_singleton_self arrow
      exact h.halved [arrow] hmem hmem ⟨hless, lexed_lessAt _⟩ ⟨hminus, lexed_minusAt _⟩
        rfl le_rfl rfl

/-- Faithful tokens stay faithful where some of them are split. -/
theorem Faithful.splitsTo (h : Faithful source ts) (hsplits : SplitsTo ts us) :
    Faithful source us := by
  induction hsplits with
  | refl => exact h
  | tail _ hstep ih => exact ih.splitStep hstep

end Splits

end Token

/-! ## The tokens of a text -/

namespace LexItem

section Munched

variable {source : List Char} {before : List LexItem}

/-- An item begins behind the items before it, and ends behind its beginning.

**Proof sketch.** The items before stop where what was passed ends, and between this place and the
beginning of the item lies a gap; places only grow.  The item ends behind its lexeme, or behind its
one character. -/
lemma Munched.stopOf_le {item : LexItem} (h : Munched source before item) :
    stopOf before ≤ item.span.start ∧ item.span.start ≤ item.span.stop := by
  obtain ⟨passed, gap, rest, -, hstop, -, hitem⟩ := h
  have hgap : stopOf before ≤ (Place.start.after (passed ++ gap)).offset := by
    rw [← hstop, Place.after_append]
    exact Place.offset_le_after _ _
  rcases item with t | ⟨c, span⟩
  · refine ⟨?_, ?_⟩
    all_goals rw [LexItem.span, hitem.2]
    · exact hgap
    · rw [Place.after_append _ (passed ++ gap)]
      exact Place.offset_le_after _ _
  · refine ⟨?_, ?_⟩
    all_goals rw [LexItem.span, hitem.2.1]
    · exact hgap
    · rw [Place.after_append _ (passed ++ gap)]
      exact Place.offset_le_after _ _

/-- A token that is munched stands in the text, and the text has it inside. -/
lemma Munched.token {t : Token} (h : Munched source before (.token t)) :
    t.StandsIn source ∧ t.IsLexed := by
  obtain ⟨passed, gap, rest, hsource, -, -, hlongest, hspan⟩ := h
  obtain ⟨-, hkind, hfits⟩ := Lexeme.longest?_fits (Lexeme.longest?_eq_some_iff.2 hlongest)
  obtain ⟨after, rfl⟩ := hlongest.1
  exact ⟨⟨passed ++ gap, after, by rw [hsource, List.append_assoc (passed ++ gap)], hspan⟩, hkind,
    hfits⟩

/-- The span of an unrecognised character is exact. -/
lemma Munched.unrecognized {source : String} {c : Char} {span : Span}
    (h : Munched source.toList before (.unrecognized c span)) : span.Exact source := by
  obtain ⟨passed, gap, _, hsource, -, -, ⟨tail, rfl⟩, hspan, -⟩ := h
  have hsplit : source.toList = passed ++ gap ++ [c] ++ tail := by
    rw [hsource, List.append_assoc _ [c], List.singleton_append]
  rw [hspan]
  exact Span.exact_between hsplit

/-- Items that are munched stand in order, up to the end of the last one.

**Proof sketch.** By induction on the items from the right.  The last item begins behind the end of
all items before it, and ends the longer row. -/
lemma pairwise_of_munched {items : List LexItem}
    (h : ∀ before item after, items = before ++ item :: after → Munched source before item) :
    items.Pairwise (fun i j => i.span.stop ≤ j.span.start)
      ∧ ∀ i ∈ items, i.span.stop ≤ stopOf items := by
  induction items using List.reverseRecOn with
  | nil => simp
  | append_singleton items item ih =>
    obtain ⟨hpairwise, hstop⟩ := ih fun before i after hitems => h before i (after ++ [item]) (by
      rw [hitems, List.append_assoc, List.cons_append])
    obtain ⟨hle, hle'⟩ := (h items item [] rfl).stopOf_le
    rw [stopOf_append]
    refine ⟨List.pairwise_append.2 ⟨hpairwise, List.pairwise_singleton _ _, ?_⟩, ?_⟩
    · intro i hi j hj
      rw [List.mem_singleton.1 hj]
      exact (hstop i hi).trans hle
    · intro i hi
      rcases List.mem_append.1 hi with hi | hi
      · exact (hstop i hi).trans (hle.trans hle')
      · rw [List.mem_singleton.1 hi]

end Munched

end LexItem

namespace Token

/-- The end of the input stands behind the last character of a text. -/
lemma standsIn_atEnd (source : List Char) : (atEnd source).StandsIn source :=
  ⟨source, [], by simp [atEnd], by simp [atEnd]⟩

/-- The tokens of a text are faithful; behind them stands the end of the input.  The unrecognised
characters of the text have exact spans.

**Proof sketch.** Each item of the text stands behind what the lexer passed over, with the span
between its places, and the items follow each other; the tokens are those items that are tokens. -/
theorem faithful_of_lex (source : String) :
    ∃ tokens, (lex source).filterMap LexItem.token? = tokens ++ [atEnd source.toList]
      ∧ Faithful source.toList tokens
      ∧ ∀ fault ∈ (lex source).filterMap LexItem.fault?, ∃ span, fault.span? = some span
        ∧ span.Exact source := by
  obtain ⟨items, hitems, -, hall⟩ := Lexer.exists_items_munched source
  have hmem : ∀ item ∈ items, ∃ before, LexItem.Munched source.toList before item := by
    intro item hitem
    obtain ⟨before, after, hsplit⟩ := List.append_of_mem hitem
    exact ⟨before, hall before item after hsplit⟩
  have htoken : ∀ t ∈ items.filterMap LexItem.token?,
      t.StandsIn source.toList ∧ t.IsLexed := by
    intro t ht
    obtain ⟨_ | _, hitem, hitem'⟩ := List.mem_filterMap.1 ht
    · obtain rfl := Option.some.inj hitem'
      obtain ⟨before, hmunched⟩ := hmem _ hitem
      exact hmunched.token
    · cases hitem'
  refine ⟨items.filterMap LexItem.token?, ?_, ⟨fun t ht => (htoken t ht).1,
    fun t ht => (htoken t ht).2, ?_⟩, ?_⟩
  · rw [hitems, List.filterMap_append]
    rfl
  · refine List.pairwise_filterMap.2 ((LexItem.pairwise_of_munched hall).1.imp ?_)
    intro i j hij t ht u hu
    rcases i with t' | _ <;> rcases j with u' | _ <;> simp [LexItem.token?] at ht hu
    exact ht ▸ hu ▸ hij
  · intro fault hfault
    rw [hitems, List.filterMap_append] at hfault
    obtain ⟨_ | ⟨c, span⟩, hitem, hitem'⟩ := List.mem_filterMap.1 (by
      simpa [LexItem.fault?] using hfault)
    · cases hitem'
    · obtain rfl := Option.some.inj hitem'
      obtain ⟨before, hmunched⟩ := hmem _ hitem
      exact ⟨span, rfl, hmunched.unrecognized⟩

end Token

end RakeLang
