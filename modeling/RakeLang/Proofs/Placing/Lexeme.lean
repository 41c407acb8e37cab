import RakeLang.Proofs.Placing.Stream
import RakeLang.Proofs.Placing.Token

/-!
# The lexemes of a text

Each token of a text is a lexeme of its kind.  A split gives lexemes again: the minus sign and the
number in a signed number, the less-than sign and the minus sign in an arrow, and the number that
takes the minus sign as its own.  The texts of the tokens, one after the other, stay the same.

## Main definitions

* `RakeLang.Token.IsLexeme` — the text of a token is a lexeme of its kind.
* `RakeLang.Token.lexemes` — the texts of some tokens, one after the other.

## Main results

* `RakeLang.Token.splitStep_lexemes` — a split gives lexemes, which make up the same text.
* `RakeLang.Token.isLexeme_of_lex` — the tokens of a text are lexemes.
-/

set_option relaxedAutoImplicit false
set_option autoImplicit false

namespace RakeLang

namespace Lexeme

/-- A text that is written as a number has the kind of a number. -/
lemma IsNumber.isNumber {kind : Kind} {text : List Char} (h : IsNumber kind text) :
    kind.isNumber = true := by
  cases h <;> rfl

/-- A lexeme has a text, and is not the end of the input. -/
lemma Matches.ne {afterOperand : Bool} {kind : Kind} {text : List Char}
    (h : Matches afterOperand kind text) : text ≠ [] ∧ kind ≠ .eof := by
  cases h with
  | keyword word => exact ⟨by cases word <;> decide, by simp⟩
  | number hnumber =>
    obtain ⟨c, cs, rfl, -⟩ := hnumber.exists_cons
    refine ⟨by simp, ?_⟩
    rintro rfl
    cases hnumber.isNumber
  | signed _ hnumber =>
    refine ⟨by simp, ?_⟩
    rintro rfl
    cases hnumber.isNumber
  | symbol sign => exact ⟨chars_ne_nil sign, by simp⟩
  | _ => simp

end Lexeme

namespace Token

/-- The text of the token is a lexeme of its kind, behind an operand or elsewhere. -/
def IsLexeme (t : Token) : Prop :=
  ∃ afterOperand, Lexeme.Matches afterOperand t.kind t.lexeme.toList

/-- The texts of some tokens, one after the other. -/
def lexemes (ts : List Token) : List Char := ts.flatMap fun t => t.lexeme.toList

section Lexemes

variable {t : Token} {ts us : List Token}

/-- The texts of tokens, part by part. -/
lemma lexemes_append (ts us : List Token) : lexemes (ts ++ us) = lexemes ts ++ lexemes us :=
  List.flatMap_append

/-- The text of a token, and those of the tokens behind it. -/
lemma lexemes_cons (t : Token) (ts : List Token) :
    lexemes (t :: ts) = t.lexeme.toList ++ lexemes ts := List.flatMap_cons

/-- A symbol has its text. -/
lemma IsLexeme.toList_of_symbol {s : Symbol} (h : t.IsLexeme) (hkind : t.kind = .symbol s) :
    t.lexeme.toList = s.chars := by
  obtain ⟨afterOperand, h⟩ := h
  rw [hkind] at h
  generalize t.lexeme.toList = text at h
  cases h with
  | number hnumber => cases hnumber
  | signed _ hnumber => cases hnumber
  | symbol => rfl

/-- A lexeme that is a number has digits, behind a minus sign if it begins with one. -/
lemma IsLexeme.number_cases (h : t.IsLexeme) (hkind : t.kind.isNumber = true) :
    (Lexeme.IsNumber t.kind t.lexeme.toList ∧ t.hasSign = false)
      ∨ ∃ digits, Lexeme.IsNumber t.kind digits ∧ t.lexeme.toList = '-' :: digits := by
  obtain ⟨afterOperand, h⟩ := h
  have hsign : t.hasSign = (t.lexeme.toList.head? == some '-') := rfl
  rw [hsign]
  generalize t.lexeme.toList = text at *
  generalize t.kind = kind at *
  cases h with
  | number hnumber =>
    refine .inl ⟨hnumber, ?_⟩
    obtain ⟨c, cs, rfl, hc⟩ := hnumber.exists_cons
    simpa using (Lexeme.ne_sign_of_isDigit hc).2
  | signed _ hnumber => exact .inr ⟨_, hnumber, rfl⟩
  | _ => cases hkind

/-- A minus sign is a lexeme, wherever it stands. -/
lemma isLexeme_minusAt (span : Span) : (minusAt span).IsLexeme :=
  ⟨true, by rw [toList_lexeme_minusAt]; exact .symbol .minus⟩

/-- A less-than sign is a lexeme, wherever it stands. -/
lemma isLexeme_lessAt (span : Span) : (lessAt span).IsLexeme :=
  ⟨true, by rw [toList_lexeme_lessAt]; exact .symbol .less⟩

/-- The number in a signed number is a lexeme. -/
lemma IsLexeme.withoutSign (h : t.IsLexeme) (hsigned : t.isSignedNumber = true) :
    t.withoutSign.IsLexeme ∧ t.lexeme.toList = '-' :: t.withoutSign.lexeme.toList := by
  simp only [isSignedNumber, Bool.and_eq_true] at hsigned
  rcases h.number_cases hsigned.1 with ⟨-, hsign⟩ | ⟨digits, hnumber, hlexeme⟩
  · simp [hsign] at hsigned
  · have hdigits : t.withoutSign.lexeme.toList = digits := by simp [Token.withoutSign, hlexeme]
    rw [hdigits]
    exact ⟨⟨true, by rw [hdigits]; exact .number hnumber⟩, hlexeme⟩

/-- A number without a sign that takes the minus sign of an arrow is a lexeme. -/
lemma IsLexeme.joined {arrow next : Token} (h : next.IsLexeme)
    (hjoins : joinsArrow arrow next = true) :
    (joined arrow next).IsLexeme
      ∧ (joined arrow next).lexeme.toList = '-' :: next.lexeme.toList := by
  simp only [joinsArrow, Bool.and_eq_true] at hjoins
  have hlexeme : (Token.joined arrow next).lexeme.toList = '-' :: next.lexeme.toList := by
    simp [Token.joined]
  refine ⟨⟨false, ?_⟩, hlexeme⟩
  rcases h.number_cases hjoins.1.1 with ⟨hnumber, -⟩ | ⟨digits, -, hsign⟩
  · rw [hlexeme]
    exact .signed rfl hnumber
  · simp [hasSign, hsign] at hjoins

/-- A split gives lexemes, which make up the same text.

**Proof sketch.** By cases on the step.  A number with a sign falls into the sign and the number
without it; an arrow into the angle and a minus sign, which is by itself or in front of the number
behind the arrow.  In each case the texts of the parts make up the text that was split. -/
theorem splitStep_lexemes (hstep : SplitStep ts us) (h : ∀ t ∈ ts, t.IsLexeme) :
    (∀ u ∈ us, u.IsLexeme) ∧ lexemes us = lexemes ts := by
  cases hstep with
  | @sign t minus number before after hsplit =>
    obtain ⟨hsigned, rfl, rfl⟩ := eq_of_splitSign? hsplit
    simp only [List.forall_mem_append, List.forall_mem_cons] at h ⊢
    obtain ⟨hnumber, hlexeme⟩ := h.2.1.withoutSign hsigned
    refine ⟨⟨h.1, isLexeme_minusAt _, hnumber, h.2.2⟩, ?_⟩
    simp only [lexemes_append, lexemes_cons, toList_lexeme_minusAt, hlexeme]
    rfl
  | @arrow before ts' us' hsplit =>
    obtain ⟨arrow, rest, rfl, harrow, hcases⟩ := cases_of_splitArrow? hsplit
    simp only [List.forall_mem_append, List.forall_mem_cons] at h
    have hlexeme : arrow.lexeme.toList = ['<', '-'] := h.2.1.toList_of_symbol harrow
    obtain ⟨next, more, rfl, hjoins, rfl⟩ | rfl := hcases
    · simp only [List.forall_mem_append, List.forall_mem_cons] at h ⊢
      obtain ⟨hjoined, hlexeme'⟩ := h.2.2.1.joined hjoins
      refine ⟨⟨h.1, isLexeme_lessAt _, hjoined, h.2.2.2⟩, ?_⟩
      simp only [lexemes_append, lexemes_cons, toList_lexeme_lessAt, hlexeme, hlexeme']
      rfl
    · simp only [List.forall_mem_append, List.forall_mem_cons]
      refine ⟨⟨h.1, isLexeme_lessAt _, isLexeme_minusAt _, h.2.2⟩, ?_⟩
      simp only [lexemes_append, lexemes_cons, toList_lexeme_lessAt, toList_lexeme_minusAt, hlexeme]
      rfl

/-- Splits give lexemes, which make up the same text. -/
lemma SplitsTo.lexemes_eq (hsplits : SplitsTo ts us) (h : ∀ t ∈ ts, t.IsLexeme) :
    (∀ u ∈ us, u.IsLexeme) ∧ lexemes us = lexemes ts := by
  induction hsplits with
  | refl => exact ⟨h, rfl⟩
  | tail _ hstep ih =>
    obtain ⟨hlexeme, hsame⟩ := splitStep_lexemes hstep ih.1
    exact ⟨hlexeme, hsame.trans ih.2⟩

/-- No token gets lost by splits. -/
lemma SplitsTo.length_le (hsplits : SplitsTo ts us) : ts.length ≤ us.length := by
  induction hsplits with
  | refl => exact le_rfl
  | tail _ hstep ih =>
    refine ih.trans ?_
    cases hstep with
    | sign before after h => simp
    | arrow before h =>
      obtain ⟨arrow, rest, rfl, -, ⟨next, more, rfl, -, rfl⟩ | rfl⟩ := cases_of_splitArrow? h
      all_goals simp

/-- A lexeme that stands in a text takes room there. -/
lemma StandsIn.start_lt_stop {source : List Char} (h : t.StandsIn source)
    (hlexeme : t.IsLexeme) : t.span.start < t.span.stop := by
  obtain ⟨before, after, -, hspan⟩ := h
  obtain ⟨afterOperand, hmatches⟩ := hlexeme
  obtain ⟨c, cs, hcs⟩ := List.exists_cons_of_ne_nil hmatches.ne.1
  rw [hspan, hcs, Place.after_append]
  exact Place.offset_lt_after _ c cs

end Lexemes

/-- The tokens of a text, without the one at its end, are lexemes. -/
theorem isLexeme_of_lex {source : String} {tokens : List Token}
    (hlex : (lex source).filterMap LexItem.token? = tokens ++ [atEnd source.toList]) :
    ∀ t ∈ tokens, t.IsLexeme := by
  obtain ⟨items, hitems, -, hall⟩ := Lexer.exists_items_munched source
  have htokens : tokens = items.filterMap LexItem.token? := by
    rw [hitems, List.filterMap_append] at hlex
    exact (List.append_cancel_right hlex).symm
  subst htokens
  intro t ht
  obtain ⟨_ | _, hitem, hitem'⟩ := List.mem_filterMap.1 ht
  · obtain rfl := Option.some.inj hitem'
    obtain ⟨before, after, hsplit⟩ := List.append_of_mem hitem
    obtain ⟨passed, gap, rest, -, -, -, hlongest, -⟩ := hall before _ after hsplit
    exact ⟨_, hlongest.2.1⟩
  · cases hitem'

end Token

end RakeLang
