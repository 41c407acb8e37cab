import Mathlib.Data.String.Basic
import RakeLang.Proofs.Mirroring.Lexing
import RakeLang.Proofs.Placing.Buffer

/-!
# A split is a space

A parser that takes a token apart does what a space behind the first character of the token would
have done.  A number loses its sign, which stands by itself then.  Of an arrow a less-than sign is
left, and its minus sign is the sign of a number that directly follows, for in front of a number a
minus sign belongs to it wherever no operand stands before it.  Only where a greater-than sign
directly follows, the space would make another arrow of the two.

The tokens in front stay the same, since they are read before the space, and those behind as well:
what a lexer remembers of the pieces is what it remembers of the token.

## Main definitions

* `RakeLang.Lexer.Yields` — the kinds and texts of the tokens of a text.
* `RakeLang.withSpace` — a text with a space in it.

## Main results

* `RakeLang.Lexer.Yields.token` — the first token of a text and those behind it.
* `RakeLang.splits_like_space` — a split gives the kinds and texts that a space would.
-/

set_option relaxedAutoImplicit false
set_option autoImplicit false

namespace RakeLang

open Token

/-! ## Kinds and texts -/

namespace Lexer

/-- Wherever the text begins, a lexer with the memory `b` reads tokens of these kinds and texts. -/
def Yields (b : Bool) (text : List Char) (contents : List (Kind × String)) : Prop :=
  ∀ p, ∃ ts : List Token, Lexes b p (ts.map .token) text ∧ ts.map Token.content = contents

section Yields

variable {b : Bool} {p : Place} {kind : Kind} {ts : List Token} {gap lexeme text : List Char}
  {contents : List (Kind × String)}

/-- Behind the last gap the end of the input is all that is read. -/
lemma Yields.done (hgap : Lexeme.Gap gap []) : Yields b gap [(.eof, "")] :=
  fun _ => ⟨[_], .done hgap, rfl⟩

/-- A lexeme behind its gap is read, and then what is read of the rest. -/
theorem Yields.token (hgap : Lexeme.Gap gap (lexeme ++ text))
    (hlongest : Lexeme.longest? b (lexeme ++ text) = some (kind, lexeme))
    (h : Yields kind.endsOperand text contents) :
    Yields b (gap ++ (lexeme ++ text)) ((kind, String.ofList lexeme) :: contents) := by
  intro p
  obtain ⟨ts, hts, rfl⟩ := h ((p.after gap).after lexeme)
  exact ⟨_ :: ts, .token hgap hlongest hts, rfl⟩

/-- A token with nothing in front of it. -/
lemma Yields.cons (hlongest : Lexeme.longest? b (lexeme ++ text) = some (kind, lexeme))
    (h : Yields kind.endsOperand text contents) :
    Yields b (lexeme ++ text) ((kind, String.ofList lexeme) :: contents) := by
  have hgap : Lexeme.Gap [] (lexeme ++ text) := Lexeme.gap_nil_of_longest? hlongest
  simpa using Yields.token hgap hlongest h

/-- A space in front changes nothing. -/
lemma Yields.space (h : Yields b text contents) : Yields b (' ' :: text) contents := by
  intro p
  obtain ⟨ts, hts, rfl⟩ := h (p.after [' '])
  exact ⟨ts, hts.filler (.blank (by decide) .nil), rfl⟩

/-- The tokens that are read from a place have the kinds and texts of those read from any other. -/
lemma Lexes.yields (h : Lexes b p (ts.map .token) text) :
    Yields b text (ts.map Token.content) := by
  generalize hitems : ts.map LexItem.token = items at h
  induction h generalizing ts with
  | @done b p gap hgap =>
    obtain ⟨t, rfl, ht⟩ := List.map_eq_singleton_iff.1 hitems
    obtain rfl := LexItem.token.inj ht
    exact .done hgap
  | token hgap hlongest _ ih =>
    obtain ⟨t, ts, rfl, ht, hts⟩ := List.map_eq_cons_iff.1 hitems
    obtain rfl := LexItem.token.inj ht
    exact .token hgap hlongest (ih hts)
  | unrecognized =>
    obtain ⟨t, ts, rfl, ht, -⟩ := List.map_eq_cons_iff.1 hitems
    cases ht

/-- What is read of a whole source is what its tokens are. -/
lemma Yields.tokenize {source : String} (h : Yields false source.toList contents) :
    ∃ ts, tokenize source = .ok ts ∧ ts.map Token.content = contents := by
  obtain ⟨ts, hts, hcontents⟩ := h .start
  exact ⟨ts, tokenize_eq_ok_iff.2 hts, hcontents⟩

end Yields

end Lexer

/-! ## Pieces -/

namespace Lexeme

variable {b : Bool} {cs : List Char}

/-- A less-than sign in front of a space stands by itself. -/
lemma longest?_less : longest? b ('<' :: ' ' :: cs) = some (.symbol .less, ['<']) := by
  simp [longest?, isNameStart, symbol?, Symbol.all, Symbol.chars, List.find?, List.isPrefixOf]

/-- A minus sign stands alone before anything but a digit or a greater-than sign. -/
lemma longest?_minus_of_not (hdigit : startsWith Char.isDigit cs = false)
    (hgreater : cs.head? ≠ some '>') : longest? b ('-' :: cs) = some (.symbol .minus, ['-']) := by
  rcases cs with _ | ⟨c, cs⟩
  · simp [longest?, isNameStart, startsWith, symbol?, Symbol.all, Symbol.chars, List.find?,
      List.isPrefixOf]
  · exact longest?_minus b hdigit fun hc => hgreater (by rw [hc]; rfl)

/-- There is no gap where a digit stands. -/
lemma Gap.eq_nil {gap rest : List Char} (h : Gap gap rest)
    (hdigit : startsWith Char.isDigit (gap ++ rest) = true) : gap = [] := by
  have hnil := trivia_of_gap (gap_nil_of_startsWith hdigit)
  rwa [List.nil_append, trivia_of_gap h] at hnil

end Lexeme

namespace Lexer

variable {m : Bool} {p : Place} {t eof : Token} {after : List Token} {rest : List Char}

/-- **A number that loses its sign** is read from the text with a space behind the sign.

**Proof sketch.** The lexeme of the number is its sign and the lexeme without it.  In front of a
space the minus sign stands by itself; behind it no operand was read, but the digits need no sign to
be a number, so that they are read as before. -/
theorem yields_sign (h : Lexes m p ((t :: after).map .token) rest)
    (hsigned : t.isSignedNumber = true) :
    ∃ gap cs, rest = gap ++ '-' :: cs ∧ t.span.start = (p.after gap).offset
      ∧ Yields m (gap ++ '-' :: ' ' :: cs)
        ((.symbol .minus, "-") :: t.withoutSign.content :: after.map Token.content) := by
  rw [List.map_cons] at h
  generalize hall : LexItem.token t :: after.map .token = all at h
  cases h with
  | done =>
    obtain rfl := LexItem.token.inj (List.cons.inj hall).1
    cases hsigned
  | unrecognized => cases (List.cons.inj hall).1
  | @token _ _ gap lexeme text kind _ hgap hlongest h =>
    obtain ⟨ht, rfl⟩ := List.cons.inj hall
    obtain rfl := LexItem.token.inj ht
    simp only [isSignedNumber, hasSign, Bool.and_eq_true, beq_iff_eq, String.toList_ofList]
      at hsigned
    obtain ⟨hnumber, hsign⟩ := hsigned
    obtain ⟨c, digits, rfl⟩ := List.exists_cons_of_ne_nil (Lexeme.longest?_fits hlongest).1
    obtain rfl : c = '-' := Option.some.inj hsign
    rcases Lexeme.number_of_longest? hlongest hnumber with ⟨hdigit, -⟩ | ⟨-, hdigit, _, heq, hread⟩
    · exact absurd hdigit (by decide)
    obtain rfl := (List.cons.inj heq).2
    refine ⟨gap, digits ++ text, rfl, rfl, ?_⟩
    have hdigits := (Lexeme.longest?_of_startsWith hdigit false).trans (congrArg some hread)
    have hminus : Lexeme.longest? m (['-'] ++ ' ' :: (digits ++ text))
        = some (.symbol .minus, ['-']) := Lexeme.longest?_minus m (by decide) (by decide)
    have hbehind := (Yields.cons hdigits h.yields).space
    have hyields := hbehind.token (hgap.before_lexeme (by simp) hminus) hminus
    simpa [content, withoutSign] using hyields

/-- A number joins an arrow exactly if a digit directly follows the arrow.

**Proof sketch.** The number touches the arrow exactly if there is no gap between them, and then
its first digit is the first character behind the arrow. -/
lemma joinsArrow_eq {arrow next : Token} {items : List LexItem} {text : List Char} {b : Bool}
    (h : Lexes b p (.token next :: items) text) (hstop : arrow.span.stop = p.offset) :
    joinsArrow arrow next = Lexeme.startsWith Char.isDigit text := by
  generalize hall : LexItem.token next :: items = all at h
  rw [Bool.eq_iff_iff]
  cases h with
  | done hgap =>
    obtain rfl := LexItem.token.inj (List.cons.inj hall).1
    refine ⟨fun hjoins => by simp [joinsArrow, Kind.isNumber] at hjoins, fun hdigit => ?_⟩
    obtain rfl := hgap.eq_nil (by rwa [List.append_nil])
    cases hdigit
  | unrecognized => cases (List.cons.inj hall).1
  | @token _ _ gap lexeme text kind _ hgap hlongest _ =>
    obtain rfl := LexItem.token.inj (List.cons.inj hall).1
    obtain ⟨c, lexeme, rfl⟩ := List.exists_cons_of_ne_nil (Lexeme.longest?_fits hlongest).1
    simp only [joinsArrow, hasSign, Bool.and_eq_true, beq_iff_eq, Bool.not_eq_true',
      beq_eq_false_iff_ne, String.toList_ofList, Span.between, hstop]
    constructor
    · rintro ⟨⟨hnumber, htouch⟩, hsign⟩
      obtain rfl : gap = [] := by
        rcases gap with _ | ⟨d, ds⟩
        · rfl
        · exact absurd htouch (Place.offset_lt_after _ d ds).ne'
      rcases Lexeme.number_of_longest? hlongest hnumber with ⟨hdigit, -⟩ | ⟨rfl, -⟩
      · exact hdigit
      · exact absurd rfl hsign
    · intro hdigit
      obtain rfl := hgap.eq_nil hdigit
      have hread := (Lexeme.longest?_of_startsWith hdigit b).symm.trans hlongest
      have hkind : (Lexeme.number _).1 = kind := congrArg Prod.fst (Option.some.inj hread)
      have hc : c.isDigit = true := hdigit
      refine ⟨⟨hkind ▸ Lexeme.isNumber_number _, rfl⟩, fun hsign => ?_⟩
      obtain rfl := Option.some.inj hsign
      exact absurd hc (by decide)

/-- The minus sign of an arrow belongs to a number that directly follows, and stands by itself
before anything else but a greater-than sign.

**Proof sketch.** In front of a digit the minus sign belongs to the number, which is what joining
the arrow gives.  In front of anything else the sign stands by itself, since only a greater-than
sign would make an arrow of it. -/
lemma yields_minus (arrow : Token) {text : List Char}
    (h : Lexes false p ((after ++ [eof]).map .token) text) (heof : eof.kind = .eof)
    (harrow : arrow.kind = .symbol .leftArrow) (hstop : arrow.span.stop = p.offset)
    (hgreater : text.head? ≠ some '>') :
    ∃ ts, Token.splitArrow? (arrow :: after) = some (lessAt arrow.span.firstByte :: ts)
      ∧ Yields false ('-' :: text) ((ts ++ [eof]).map Token.content) := by
  by_cases hdigit : Lexeme.startsWith Char.isDigit text = true
  · -- a digit follows: with the minus sign it is one number, as the joined one
    have hsign := Lexeme.longest?_sign hdigit
    rcases after with _ | ⟨next, more⟩
    · have hjoins := (joinsArrow_eq h hstop).trans hdigit
      simp [joinsArrow, heof, Kind.isNumber] at hjoins
    · rw [List.cons_append, List.map_cons] at h
      have hjoins := (joinsArrow_eq h hstop).trans hdigit
      refine ⟨joined arrow next :: more, by simp [Token.splitArrow?, harrow, hjoins], ?_⟩
      generalize hall : LexItem.token next :: (more ++ [eof]).map .token = all at h
      cases h with
      | done =>
        obtain rfl := LexItem.token.inj (List.cons.inj hall).1
        simp [joinsArrow, Kind.isNumber] at hjoins
      | unrecognized => cases (List.cons.inj hall).1
      | @token _ _ gap lexeme text kind _ hgap hlongest h =>
        obtain ⟨hnext, rfl⟩ := List.cons.inj hall
        obtain rfl := LexItem.token.inj hnext
        obtain rfl := hgap.eq_nil hdigit
        rw [List.nil_append] at hdigit hsign
        have hread := (Lexeme.longest?_of_startsWith hdigit false).symm.trans hlongest
        rw [Option.some.inj hread] at hsign
        have hsigned : Lexeme.longest? false (('-' :: lexeme) ++ text)
            = some (kind, '-' :: lexeme) := hsign
        simpa [content, joined] using Yields.cons hsigned h.yields
  · -- no digit follows: the minus sign stands by itself
    rw [Bool.not_eq_true] at hdigit
    refine ⟨minusAt arrow.span.afterFirstByte :: after, ?_, ?_⟩
    · rcases after with _ | ⟨next, more⟩
      · simp [Token.splitArrow?, harrow]
      · have hjoins := (joinsArrow_eq h hstop).trans hdigit
        simp [Token.splitArrow?, harrow, hjoins]
    · have hminus : Lexeme.longest? false (['-'] ++ text) = some (.symbol .minus, ['-']) :=
        Lexeme.longest?_minus_of_not hdigit hgreater
      exact Yields.cons hminus h.yields

/-- **An arrow that is split** is read from the text with a space in the arrow, unless a
greater-than sign directly follows.

**Proof sketch.** The less-than sign stands by itself in front of the space; what the minus sign
is read as is the lemma before. -/
theorem yields_arrow (h : Lexes m p ((t :: (after ++ [eof])).map .token) rest)
    (heof : eof.kind = .eof) (harrow : t.kind = .symbol .leftArrow) :
    ∃ gap cs, rest = gap ++ '<' :: '-' :: cs ∧ t.span.start = (p.after gap).offset
      ∧ t.span.stop = (p.after (gap ++ ['<', '-'])).offset
      ∧ (cs.head? ≠ some '>' → ∃ ts, Token.splitArrow? (t :: after) = some ts
        ∧ Yields m (gap ++ '<' :: ' ' :: '-' :: cs) ((ts ++ [eof]).map Token.content)) := by
  rw [List.map_cons] at h
  generalize hall : LexItem.token t :: (after ++ [eof]).map .token = all at h
  cases h with
  | done =>
    obtain rfl := LexItem.token.inj (List.cons.inj hall).1
    cases harrow
  | unrecognized => cases (List.cons.inj hall).1
  | @token _ _ gap lexeme text kind _ hgap hlongest h =>
    obtain ⟨ht, rfl⟩ := List.cons.inj hall
    obtain rfl := LexItem.token.inj ht
    obtain rfl : kind = .symbol .leftArrow := harrow
    obtain rfl : lexeme = ['<', '-'] := (Lexeme.longest?_fits hlongest).2.2
    rw [← Place.after_append] at h
    refine ⟨gap, text, rfl, rfl, by rw [Place.after_append]; rfl, fun hgreater => ?_⟩
    have hstop : (Span.between (p.after gap) ((p.after gap).after ['<', '-'])).stop
        = (p.after (gap ++ ['<', '-'])).offset := by
      rw [Place.after_append]
      rfl
    obtain ⟨ts, hsplit, hyields⟩ := yields_minus ⟨_, _, _⟩ h heof rfl hstop hgreater
    refine ⟨_, hsplit, ?_⟩
    have hless : Lexeme.longest? m (['<'] ++ ' ' :: '-' :: text) = some (.symbol .less, ['<']) :=
      Lexeme.longest?_less
    exact hyields.space.token (hgap.before_lexeme (by simp) hless) hless

end Lexer

/-! ## Texts with a space in them -/

/-- The text with a space put in behind its first `n` bytes. -/
def withSpace (source : String) (n : Nat) : String :=
  String.Pos.Raw.extract source ⟨0⟩ ⟨n⟩ ++ " "
    ++ String.Pos.Raw.extract source ⟨n⟩ ⟨source.utf8ByteSize⟩

/-- The character that stands behind the first `n` bytes of the text. -/
def charBehind (source : String) (n : Nat) : Option Char := String.Pos.Raw.get? source ⟨n⟩

section Texts

variable {source : String} {front behind : List Char}

/-- The space is put behind the characters that take as many bytes as are in front of it. -/
lemma toList_withSpace (h : source.toList = front ++ behind) :
    (withSpace source (Place.start.after front).offset).toList = front ++ ' ' :: behind := by
  obtain rfl : source = String.ofList (front ++ behind) := by rw [← h, String.ofList_toList]
  have hfront := String.extract_of_valid [] front behind
  have hbehind := String.extract_of_valid front behind []
  rw [List.nil_append, String.utf8Len_nil, Nat.zero_add] at hfront
  rw [List.append_nil] at hbehind
  rw [withSpace, Place.offset_after_start_eq, String.utf8ByteSize_ofList, String.utf8Len_append,
    hfront, hbehind]
  simp

/-- The character at a byte offset is the first one of what is behind the characters in front. -/
lemma charBehind_eq (h : source.toList = front ++ behind) :
    charBehind source (Place.start.after front).offset = behind.head? := by
  obtain rfl : source = String.ofList (front ++ behind) := by rw [← h, String.ofList_toList]
  rw [charBehind, Place.offset_after_start_eq]
  exact String.get?_of_valid front behind

end Texts

/-! ## Splits -/

/-- Going to a token of a list ends there. -/
lemma Cursor.seek_eq {before ahead : List Token} {closing : Token} (h : closing.kind = .eof) :
    (⟨[], before ++ ahead, closing, h⟩ : Cursor).seek before.length
      = ⟨before.reverse, ahead, closing, h⟩ := by
  have hat : StandsAt ⟨[], before ++ ahead, closing, h⟩ before.length
      (seek ⟨[], before ++ ahead, closing, h⟩ before.length) :=
    standsAt_seek (by simp [Cursor.buffer])
  rcases hc : seek ⟨[], before ++ ahead, closing, h⟩ before.length with ⟨past, ahead', closing', h'⟩
  rw [hc] at hat
  obtain ⟨hposition, hbuffer, hclosing⟩ := hat
  obtain rfl : closing' = closing := hclosing
  have hlength : past.reverse.length = before.length := by rw [List.length_reverse]; exact hposition
  have hall : past.reverse ++ ahead' = before ++ ahead := hbuffer
  obtain ⟨hpast, rfl⟩ := List.append_inj hall hlength
  rw [← hpast, List.reverse_reverse]

/-- The cursor at a token of a list that ends with the end of the input.

**Proof sketch.** The token that ends the input is the last of the list, so that anything in
front of it is ahead of the cursor, and a cursor at the end stands behind them all. -/
lemma Cursor.seek_ofTokens {before after tokens : List Token} {t eof : Token}
    (heof : eof.kind = .eof) (hall : before ++ t :: after = tokens ++ [eof]) :
    let c := (ofTokens (before ++ t :: after)).seek before.length
    (c.peek = t ∧ c.tokens = before ++ t :: after)
      ∧ (t.kind ≠ .eof → ∃ more, after = more ++ [eof] ∧ c = ⟨before.reverse, t :: more, eof, heof⟩)
      := by
  intro c
  rcases List.eq_nil_or_concat after with rfl | ⟨more, last, rfl⟩
  · obtain ⟨rfl, hlast⟩ := List.append_inj' hall rfl
    obtain rfl := List.singleton_injective hlast
    have hc : c = ⟨before.reverse, [], t, heof⟩ := by
      have hseek : (⟨[], before ++ [], t, heof⟩ : Cursor).seek before.length
          = ⟨before.reverse, [], t, heof⟩ := seek_eq heof
      rw [List.append_nil] at hseek
      rw [← hseek, ← ofTokens_append heof]
    rw [hc]
    exact ⟨⟨rfl, by simp [Cursor.tokens]⟩, fun hne => absurd heof hne⟩
  · rw [List.concat_eq_append, ← List.cons_append, ← List.append_assoc] at hall
    obtain ⟨rfl, hlast⟩ := List.append_inj' hall rfl
    obtain rfl := List.singleton_injective hlast
    have hc : c = ⟨before.reverse, t :: more, last, heof⟩ := by
      rw [← seek_eq heof, ← ofTokens_append heof]
      simp [c]
    rw [hc]
    exact ⟨⟨rfl, by simp [Cursor.tokens]⟩, fun _ => ⟨more, by simp, rfl⟩⟩

/-- A space behind the first character of a token leaves the tokens in front of it as they are.

**Proof sketch.** The tokens in front are read as before, since the text behind them is
exchanged for one that begins with the same gap and the same character. -/
lemma tokenize_withSpace {source : String} {before : List Token} {b : Bool}
    {passed gap cs : List Char} {first : Char} {contents : List (Kind × String)}
    (hsource : source.toList = passed ++ (gap ++ first :: cs)) (hfirst : first.utf8Size = 1)
    (hexchange : ∀ items' rest', Lexeme.Exchange (gap ++ first :: cs) rest' →
      Lexer.Lexes b (Place.start.after passed) items' rest' →
      Lexer.Lexes false .start (before.map .token ++ items') (passed ++ rest'))
    (hyields : Lexer.Yields b (gap ++ first :: ' ' :: cs) contents) :
    ∃ tokens', tokenize (withSpace source (((Place.start.after passed).after gap).offset + 1))
        = .ok tokens' ∧ tokens'.map Token.content = before.map Token.content ++ contents := by
  obtain ⟨ts, hts, rfl⟩ := hyields (Place.start.after passed)
  refine ⟨before ++ ts, ?_, List.map_append⟩
  have hexchanged : Lexeme.Exchange (gap ++ first :: cs) (gap ++ first :: ' ' :: cs) := by
    refine ⟨gap ++ [first], cs, ' ' :: cs, by simp, by simp, ?_⟩
    rintro _ ⟨⟩
    exact .inl (by decide)
  have hplace : ((Place.start.after passed).after gap).offset + 1
      = (Place.start.after (passed ++ gap ++ [first])).offset := by
    rw [Place.after_append, Place.after_append, Place.offset_after _ [first],
      String.utf8ByteSize_ofList, String.utf8Len_cons, String.utf8Len_nil, hfirst]
  have hparts : source.toList = (passed ++ gap ++ [first]) ++ cs := by rw [hsource]; simp
  rw [tokenize_eq_ok_iff, hplace, toList_withSpace hparts, List.map_append]
  simpa using hexchange _ _ hexchanged hts

/-- **A split is a space.**  Let a text have only recognised characters, and let the cursor stand at
one of its tokens.

* If that is a number with a sign, the split succeeds, and then the tokens have the kinds and the
  texts of those that are read from the text with a space behind the sign.
* If that is an arrow and no greater-than sign directly follows, the split succeeds, and then the
  tokens have the kinds and the texts of those that are read from the text with a space in the
  arrow.

**Proof sketch.** The text is cut in front of the token.  What is read before the cut does not reach
beyond the first character of the token, so the space, behind which nothing is looked at, changes
nothing there.  Behind the cut, the pieces are read from the text with the space; with them ends
what the lexer remembers of the token, and what follows is the same text. -/
theorem splits_like_space {source : String} {before after : List Token} {t : Token}
    (h : tokenize source = .ok (before ++ t :: after)) :
    let c := (Cursor.ofTokens (before ++ t :: after)).seek before.length
    (c.peek = t ∧ c.tokens = before ++ t :: after)
      ∧ (t.isSignedNumber = true → ∃ c' tokens', c.splitSign? = some c'
        ∧ tokenize (withSpace source (t.span.start + 1)) = .ok tokens'
        ∧ c'.tokens.map Token.content = tokens'.map Token.content)
      ∧ (t.kind = .symbol .leftArrow → charBehind source t.span.stop ≠ some '>' →
        ∃ c' tokens', c.splitArrow? = some c'
          ∧ tokenize (withSpace source (t.span.start + 1)) = .ok tokens'
          ∧ c'.tokens.map Token.content = tokens'.map Token.content) := by
  intro c
  obtain ⟨tokens, eof, hall, heof, -⟩ := exists_of_tokenize h
  obtain ⟨hat, hcursor⟩ := Cursor.seek_ofTokens heof hall
  have hlexes := tokenize_eq_ok_iff.1 h
  rw [List.map_append] at hlexes
  obtain ⟨passed, rest, hsource, -, -, hrest, hexchange⟩ := hlexes.cut (by simp)
  refine ⟨hat, fun hsigned => ?_, fun harrow hgreater => ?_⟩
  · have hne : t.kind ≠ .eof := by
      intro hkind
      simp [isSignedNumber, hkind, Kind.isNumber] at hsigned
    obtain ⟨more, rfl, hc⟩ := hcursor hne
    obtain ⟨gap, cs, rfl, hstart, hyields⟩ := Lexer.yields_sign hrest hsigned
    obtain ⟨tokens', htokens', hcontents⟩ :=
      tokenize_withSpace hsource (by decide) hexchange hyields
    rw [hstart]
    refine ⟨⟨before.reverse, minusAt t.span.firstByte :: t.withoutSign :: more, eof, heof⟩, tokens',
      ?_, htokens', ?_⟩
    · rw [show c = _ from hc]
      simp [Cursor.splitSign?, Token.splitSign?, hsigned]
    · rw [hcontents]
      simp [Cursor.tokens, minusAt, content]
  · have hne : t.kind ≠ .eof := by simp [harrow]
    obtain ⟨more, rfl, hc⟩ := hcursor hne
    obtain ⟨gap, cs, rfl, hstart, hstop, hsplit⟩ := Lexer.yields_arrow hrest heof harrow
    have hbehind : source.toList = passed ++ (gap ++ ['<', '-']) ++ cs := by rw [hsource]; simp
    rw [hstop, ← Place.after_append, charBehind_eq hbehind] at hgreater
    obtain ⟨ts, hts, hyields⟩ := hsplit hgreater
    obtain ⟨tokens', htokens', hcontents⟩ :=
      tokenize_withSpace hsource (by decide) hexchange hyields
    rw [hstart]
    refine ⟨⟨before.reverse, ts, eof, heof⟩, tokens', ?_, htokens', ?_⟩
    · rw [show c = _ from hc]
      simp [Cursor.splitArrow?, hts]
    · rw [hcontents]
      simp [Cursor.tokens]

/-- An arrow in front of a number with a sign of its own: the minus sign of the arrow stands by
itself. -/
theorem splits_like_space_arrow :
    ∃ c' tokens', ((Cursor.ofTokens [⟨.ident, "x", ⟨1, 1, 0, 1⟩⟩,
        ⟨.symbol .leftArrow, "<-", ⟨1, 2, 1, 3⟩⟩, ⟨.int, "-1", ⟨1, 4, 3, 5⟩⟩,
        ⟨.eof, "", ⟨1, 6, 5, 5⟩⟩]).seek 1).splitArrow? = some c'
      ∧ tokenize "x< --1" = .ok tokens'
      ∧ c'.tokens.map Token.content = tokens'.map Token.content := by
  have htokens : tokenize "x<--1" = .ok ([⟨.ident, "x", ⟨1, 1, 0, 1⟩⟩]
      ++ ⟨.symbol .leftArrow, "<-", ⟨1, 2, 1, 3⟩⟩
        :: [⟨.int, "-1", ⟨1, 4, 3, 5⟩⟩, ⟨.eof, "", ⟨1, 6, 5, 5⟩⟩]) := by
    rfl
  exact (splits_like_space htokens).2.2 rfl (by decide)

end RakeLang
