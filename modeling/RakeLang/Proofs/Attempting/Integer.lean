import RakeLang.Proofs.Attempting.FirstFault
import RakeLang.Proofs.Attempting.Quoting

/-!
# The integers of a text

An integer is written with digits, behind a minus sign that the lexer takes for a part of it or
leaves alone; in a scalar literal a sign of its own may stand in front of it, or the one in an
arrow.  Whatever is split or joined on the way, the value in the tree is that of the digits with all
the signs in front of them.  A number is refused only where this value has no 64 bits, and then it
is told with as many signs as it has.  Floats are never refused.

## Main definitions

* `RakeLang.Numeral.Writes` — the digits and the signs of an integer.
* `RakeLang.Text.Tells`, `RakeLang.Text.Gives` — what comes of a text, read in any way.
* `RakeLang.Fault.IsOfLarge` — the number that a fault is told of is an integer that is too large.
* `RakeLang.Expression.Writes` — the integers in an expression are those in its tokens.

## Main results

* `RakeLang.Text.Tells.shows` — faults are unrecognised characters or told on the way.
* `RakeLang.Text.Gives.exact` — the parts of trees have exact spans.
* `RakeLang.integers_exact` — the integers of trees and of faults.
-/

set_option relaxedAutoImplicit false
set_option autoImplicit false

open scoped Computability

namespace RakeLang

open Token Spelling

/-! ## Written integers -/

namespace Numeral

/-- The text is that of an integer: digits, behind a number of minus signs, of which two cancel each
other. -/
def Writes (text : List Char) (signs : Nat) (v : Int) : Prop :=
  ∃ digits, text = List.replicate signs '-' ++ digits ∧ Lexeme.IsDigits digits
    ∧ v = if signs % 2 = 0 then (Nat.ofDigitChars 10 digits 0 : Int)
      else -Nat.ofDigitChars 10 digits 0

/-- A minus sign in front makes the opposite integer. -/
lemma Writes.neg {text : List Char} {signs : Nat} {v : Int} (h : Writes text signs v) :
    Writes ('-' :: text) (signs + 1) (-v) := by
  obtain ⟨digits, rfl, hdigits, rfl⟩ := h
  refine ⟨digits, by rw [List.replicate_succ, List.cons_append], hdigits, ?_⟩
  split <;> split <;> omega

/-- No float is written like an integer. -/
lemma Writes.not_float {text : List Char} {signs : Nat} {v : Int} (h : Writes text signs v)
    (afterOperand : Bool) : ¬Lexeme.Matches afterOperand .float text := by
  have hpoint : '.' ∉ text := by
    obtain ⟨digits, rfl, hdigits, -⟩ := h
    simp only [List.mem_append, List.mem_replicate, not_or]
    exact ⟨by simp, fun hmem => absurd (Lexeme.isDigit_iff.2 (hdigits.2 _ hmem)) (by decide)⟩
  intro hmatches
  cases hmatches with
  | number hnumber | signed _ hnumber =>
    cases hnumber
    simp at hpoint

end Numeral

namespace Token

variable {t : Token} {v : Int}

/-- The text of an integer writes the integer that it names, with a sign at the most.

**Proof sketch.** The lexeme of an integer is a row of digits, or such a row behind a minus sign.
The first writes its value with no sign, since a digit is no sign; the second with one. -/
lemma IsLexeme.writes (h : t.IsLexeme) (hkind : t.kind = .int) :
    ∃ signs ≤ 1, Numeral.Writes t.lexeme.toList signs (Numeral.integer t.lexeme) := by
  have hdigits : ∀ {digits : List Char}, Lexeme.IsNumber t.kind digits →
      Lexeme.IsDigits digits := by
    intro digits hnumber
    rw [hkind] at hnumber
    cases hnumber with
    | int hwhole => exact hwhole
  rcases h.number_cases (by simp [hkind, Kind.isNumber]) with ⟨hnumber, -⟩ | ⟨digits, hnumber, ht⟩
  · obtain ⟨c, cs, hcs, hc⟩ := hnumber.exists_cons
    have hunsigned : Numeral.unsigned t.lexeme.toList = (false, t.lexeme.toList) := by
      rw [hcs]
      exact Numeral.unsigned_of_isDigit hc
    refine ⟨0, by simp, _, rfl, hdigits hnumber, ?_⟩
    rw [Numeral.integer, hunsigned]
    rfl
  · refine ⟨1, le_rfl, digits, ht, hdigits hnumber, ?_⟩
    simp [Numeral.integer, Numeral.withSign, ht, Numeral.unsigned]

/-- A token that spells an integer writes it. -/
lemma IsLexeme.writes_of_number? (h : t.IsLexeme) (hv : t.number? = some (.int v)) :
    ∃ signs ≤ 1, Numeral.Writes t.lexeme.toList signs v := by
  obtain ⟨hkind, -, rfl⟩ := h.integer_of_number? hv
  exact h.writes hkind

/-- A token that spells the opposite of an integer writes it, behind a sign of its own. -/
lemma IsLexeme.writes_of_opposite (h : t.IsLexeme) (hv : [t] ∈ (Number.int v).oppositeSpelling) :
    ∃ signs ≤ 2, Numeral.Writes ('-' :: t.lexeme.toList) signs v := by
  obtain ⟨n, hn, hnegate⟩ := singleton_mem_token.1 hv
  rcases n with m | m
  · obtain ⟨signs, hsigns, hwrites⟩ := h.writes_of_number? hn
    obtain ⟨-, rfl⟩ : _ ∧ -m = v := by simpa [Number.negate?] using hnegate
    exact ⟨signs + 1, by omega, hwrites.neg⟩
  · cases hnegate

end Token

/-! ## Integers in expressions -/

/-- The integers in an expression are those that its tokens `us` write: a number in its span, the
number between the angles of a scalar literal with the signs in front of it, and the indices of a
shuffle, with commas between them, in their brackets. -/
def Expression.Writes (source : String) (us : List Token) : Expression → Prop
  | .number (.int v) span => ∃ signs ≤ 1, Numeral.Writes (span.slice source).toList signs v
  | .scalar ⟨.number (.int v), _⟩ =>
    ∃ text, lexemes us = '<' :: (text ++ ['>']) ∧ ∃ signs ≤ 2, Numeral.Writes text signs v
  | .shuffle _ indices _ =>
    ∃ operand texts, lexemes us = operand ++ '~' :: '>' :: '[' :: ([','].intercalate texts ++ [']'])
      ∧ List.Forall₂ (fun text v => ∃ signs ≤ 1, Numeral.Writes text signs v) texts indices
  | _ => True

section Spelling

variable {source : String} {us : List Token}

/-- The text of a single token. -/
lemma lexemes_singleton (t : Token) : lexemes [t] = t.lexeme.toList := by simp [lexemes]

/-- A scalar literal that holds an integer is written between angles, with two signs at the most.

**Proof sketch.** The alternatives of the spelling: the number stands behind the angle, behind an
angle and a minus sign, or behind an arrow, which is both. -/
lemma ScalarLiteral.writes_of_spelling {v : Int} {span : Span}
    (hlexemes : ∀ t ∈ us, t.IsLexeme)
    (h : us ∈ (⟨.number (.int v), span⟩ : ScalarLiteral).spelling) :
    ∃ text, lexemes us = '<' :: (text ++ ['>']) ∧ ∃ signs ≤ 2, Numeral.Writes text signs v := by
  obtain ⟨us, hus, _, ⟨greater, hgreater, rfl⟩, rfl⟩ := Language.mem_mul.1 h
  have hclose : lexemes [greater] = ['>'] := by
    rw [lexemes_singleton, (hlexemes greater (by simp)).toList_of_symbol hgreater]
    rfl
  have hsymbol : ∀ {s : Symbol}, ∀ t ∈ us, t.kind = .symbol s → t.lexeme.toList = s.chars :=
    fun t ht => (hlexemes t (by simp [ht])).toList_of_symbol
  have hopposite : ∀ t ∈ us, [t] ∈ (Number.int v).oppositeSpelling →
      ∃ signs ≤ 2, Numeral.Writes ('-' :: t.lexeme.toList) signs v :=
    fun t ht => (hlexemes t (by simp [ht])).writes_of_opposite
  rw [lexemes_append, hclose]
  rcases hus with hus | hus
  · obtain ⟨less, ws, hless, hws, rfl⟩ := mem_token_mul.1 hus
    have hopen := hsymbol less (by simp) hless
    rcases hws with ⟨t, ht, rfl⟩ | hws
    · obtain ⟨signs, hsigns, hwrites⟩ := (hlexemes t (by simp)).writes_of_number? ht
      refine ⟨t.lexeme.toList, ?_, signs, by omega, hwrites⟩
      simp only [lexemes_cons, hopen]
      simp [lexemes, Symbol.chars]
    · obtain ⟨minus, _, hminus, ⟨t, ht, rfl⟩, rfl⟩ := mem_token_mul.1 hws
      refine ⟨'-' :: t.lexeme.toList, ?_, hopposite t (by simp) ⟨t, ht, rfl⟩⟩
      simp only [lexemes_cons, hopen, hsymbol minus (by simp) hminus]
      simp [lexemes, Symbol.chars]
  · obtain ⟨arrow, _, harrow, ⟨t, ht, rfl⟩, rfl⟩ := mem_token_mul.1 hus
    refine ⟨'-' :: t.lexeme.toList, ?_, hopposite t (by simp) ⟨t, ht, rfl⟩⟩
    simp only [lexemes_cons, hsymbol arrow (by simp) harrow]
    simp [lexemes, Symbol.chars]

/-- Integers that are spelled with commas between them are written so.

**Proof sketch.** Induction on the integers.  Behind the first one stands nothing, or a comma and
the others. -/
lemma writes_of_separated (indices : List Int) : ∀ {us : List Token}, (∀ t ∈ us, t.IsLexeme) →
    us ∈ separated (indices.map integer) →
    ∃ texts, lexemes us = [','].intercalate texts
      ∧ List.Forall₂ (fun text v => ∃ signs ≤ 1, Numeral.Writes text signs v) texts indices := by
  induction indices with
  | nil =>
    rintro us - rfl
    exact ⟨[], rfl, .nil⟩
  | cons v indices ih =>
    intro us hlexemes h
    obtain ⟨_, ⟨t, ⟨hkind, hread⟩, rfl⟩, vs, hvs, rfl⟩ := mem_separated_cons h
    have hv : t.number? = some (.int v) := by simp [number?, hkind, hread]
    have hwrites := (hlexemes t (by simp)).writes_of_number? hv
    rcases indices with _ | ⟨w, indices⟩
    · obtain rfl : vs = [] := hvs
      exact ⟨[t.lexeme.toList], by simp [lexemes], .cons hwrites .nil⟩
    · have hrest : vs ∈ sign .comma * separated ((w :: indices).map integer) := by
        rw [List.map_cons, List.prod_cons, mul_assoc] at hvs
        rwa [List.map_cons, separated, List.map_map]
      obtain ⟨comma, ws, hcomma, hws, rfl⟩ := mem_token_mul.1 hrest
      obtain ⟨texts, htexts, hall⟩ := ih (fun t ht => hlexemes t (by simp [ht])) hws
      refine ⟨t.lexeme.toList :: texts, ?_, .cons hwrites hall⟩
      have hsymbol := (hlexemes comma (by simp)).toList_of_symbol hcomma
      obtain ⟨text, texts, rfl⟩ : ∃ text more, texts = text :: more := by
        cases hall
        exact ⟨_, _, rfl⟩
      rw [List.intercalate_cons_cons, ← htexts, List.singleton_append, lexemes_cons, lexemes_cons,
        hsymbol]
      simp [Symbol.chars]

/-- What spells a shuffle writes its indices.

**Proof sketch.** The spelling is taken apart into the operand, the sign, the opening bracket, the
separated indices and the closing bracket.  The texts of the symbols are known, and
`writes_of_separated` gives those of the indices. -/
lemma Expression.writes_of_shuffle {operand : Expression} {indices : List Int} {span : Span}
    (hlexemes : ∀ t ∈ us, t.IsLexeme) (h : us ∈ (shuffle operand indices span).spelling) :
    (shuffle operand indices span).Writes source us := by
  rw [Expression.spelling] at h
  obtain ⟨os, hos, ts, hts, rfl⟩ := Language.mem_mul.1 h
  obtain ⟨sign, _, hsign, hrest, rfl⟩ := mem_token_mul.1 hts
  obtain ⟨bracket, _, hbracket, hinner, rfl⟩ := mem_token_mul.1 hrest
  obtain ⟨vs, hvs, _, ⟨close, hclose, rfl⟩, rfl⟩ := Language.mem_mul.1 hinner
  obtain ⟨texts, htexts, hall⟩ :=
    writes_of_separated indices (fun t ht => hlexemes t (by simp [ht])) hvs
  refine ⟨lexemes os, texts, ?_, hall⟩
  rw [lexemes_append, lexemes_cons, lexemes_cons, lexemes_append, lexemes_singleton, htexts,
    (hlexemes sign (by simp)).toList_of_symbol hsign,
    (hlexemes bracket (by simp)).toList_of_symbol hbracket,
    (hlexemes close (by simp)).toList_of_symbol hclose]
  rfl

/-- What spells an expression writes its integers.

**Proof sketch.** Only a number, a scalar literal and a shuffle have integers of their own. -/
lemma Expression.writes_of_spelling {e : Expression}
    (hstands : ∀ t ∈ us, t.StandsIn source.toList) (hlexemes : ∀ t ∈ us, t.IsLexeme)
    (hcovers : e.span.Covers us) (h : us ∈ e.spelling) : e.Writes source us := by
  cases e
  case number value span =>
    rcases value with v | v
    · rw [Expression.spelling] at h
      obtain ⟨t, ht, rfl⟩ := h
      obtain ⟨_, hfirst, _, hlast, hspan⟩ := hcovers
      obtain rfl := Option.some.inj hfirst
      obtain rfl := Option.some.inj hlast
      have hspan : span = t.span := hspan
      obtain ⟨signs, hsigns, hwrites⟩ := (hlexemes t (by simp)).writes_of_number? ht
      refine ⟨signs, hsigns, ?_⟩
      rwa [hspan, (hstands t (by simp)).slice_eq]
    · trivial
  case scalar literal =>
    obtain ⟨_ | (v | v), span⟩ := literal
    case number.int =>
      rw [Expression.spelling] at h
      exact ScalarLiteral.writes_of_spelling hlexemes h
    all_goals trivial
  case shuffle => exact writes_of_shuffle hlexemes h
  all_goals trivial

end Spelling

/-! ## Refused numbers -/

/-- Where the fault is that of a number, the number is an integer that is too large: the fault tells
it with two signs at the most, and its value has no 64 bits.  What it is told of is an integer in
the text, and no float. -/
def Fault.IsOfLarge (source : String) : Fault → Prop
  | .numeral lexeme span =>
    (∃ signs ≤ 2, ∃ v, Numeral.Writes lexeme.toList signs v
        ∧ ¬(-9223372036854775808 ≤ v ∧ v ≤ 9223372036854775807))
      ∧ (∃ afterOperand, Lexeme.Matches afterOperand .int (span.slice source).toList)
      ∧ ∀ afterOperand, ¬Lexeme.Matches afterOperand .float (span.slice source).toList
  | _ => True

section Refused

variable {source : String} {fault : Fault} {c : Cursor} {rest : List Token}

/-- The value of a refused integer has no 64 bits: it is that of the text, or the opposite of the
smallest one.

**Proof sketch.** The number itself does not fit, and its text is told; or it fits and its
opposite does not, which makes it the smallest integer. -/
lemma Fault.isOfLarge_of_refusedInteger {t : Token} {negated : Bool}
    (hstands : t.StandsIn source.toList) (hlexeme : t.IsLexeme)
    (h : t.RefusedInteger negated fault) : fault.IsOfLarge source := by
  have hint : ∀ hkind : t.kind = .int,
      (∃ afterOperand, Lexeme.Matches afterOperand .int (t.span.slice source).toList)
        ∧ ∀ afterOperand, ¬Lexeme.Matches afterOperand .float (t.span.slice source).toList := by
    intro hkind
    rw [hstands.slice_eq]
    obtain ⟨signs, -, hwrites⟩ := hlexeme.writes hkind
    obtain ⟨afterOperand, hmatches⟩ := hlexeme
    exact ⟨⟨afterOperand, hkind ▸ hmatches⟩, hwrites.not_float⟩
  cases h with
  | value _ hkind hfits =>
    obtain ⟨signs, hsigns, hwrites⟩ := hlexeme.writes hkind
    refine ⟨⟨signs, by omega, _, hwrites, fun hlarge => ?_⟩, hint hkind⟩
    rw [Numeral.fits_iff.2 hlarge] at hfits
    cases hfits
  | opposite hkind hfits hopposite =>
    rw [Numeral.eq_smallest_of_fits hfits hopposite]
    have hdigits : Lexeme.IsDigits "9223372036854775808".toList :=
      ⟨by decide, fun c hc => Lexeme.isDigit_iff.1 (List.all_eq_true.1 (by decide) c hc)⟩
    exact ⟨⟨2, le_rfl, 9223372036854775808, ⟨_, by decide, hdigits, by decide⟩, by decide⟩,
      hint hkind⟩

/-- A number that is refused on the way from a cursor in a text is an integer that is too large. -/
lemma Fault.Shows.isOfLarge (hc : c.Over source) (h : fault.Shows c rest) :
    fault.IsOfLarge source := by
  obtain ⟨read, left, c', hread, -, htold⟩ := h
  have hread' : ∀ t ∈ read, t.StandsIn source.toList ∧ t.IsLexeme := fun t ht =>
    (hc.reads hread).past t (by simp [hread.past, ht])
  cases fault with
  | numeral lexeme span =>
    obtain ⟨t, ht, hrefused⟩ := htold.refusedInteger fun t ht => (hread' t ht).2
    exact isOfLarge_of_refusedInteger (hread' t ht).1 (hread' t ht).2 hrefused
  | _ => trivial

end Refused

/-! ## What comes of a text -/

namespace Text

variable {source : String} {fault : Fault} {n : Node}

/-- The fault is told where the text is read in one of the ways that there are. -/
inductive Tells (source : String) (fault : Fault) : Prop
  | parse (h : parse source = .error fault)
  | parseSource (sourceId : String) (mode : ErrorMode)
      (h : fault ∈ (parseSource sourceId source mode).diagnostics.faults)
  | parseExpression (h : parseExpression source = .error fault)
  | parsePredicate (h : parsePredicate source = .error fault)
  | parseType (h : parseType source = .error fault)

/-- The part is in the tree that is given where the text is read in one of the ways that there
are. -/
inductive Gives (source : String) (n : Node) : Prop
  | parse {file : SourceFile} (h : parse source = .ok file) (hn : file.Has n)
  | parseSource (sourceId : String) (mode : ErrorMode)
      (hn : (parseSource sourceId source mode).file.Has n)
  | parseExpression {e : Expression} (h : parseExpression source = .ok e)
      (hn : (Node.expression e).Has n)
  | parsePredicate {p : Predicate} (h : parsePredicate source = .ok p)
      (hn : (Node.predicate p).Has n)
  | parseType {t : DataType} (h : parseType source = .ok t) (hn : (Node.dataType t).Has n)

/-- The fault of a reading of the whole text is an unrecognised character, or it is told on the way
from a cursor in its tokens.

**Proof sketch.** The lexer comes first: its first fault is the one that is told, if it has any.
Without one the reader runs from the first token, and `hp`, followed by the check that nothing is
left over, says where its fault shows. -/
lemma shows_of_parseWith {α : Type} {p : Parser α} {Q : Seam → Prop}
    (hp : ∀ c, p.Within .plain c Q) (h : parseWith p source = .error fault) :
    fault ∈ (lex source).filterMap LexItem.fault?
      ∨ ∃ c rest, c.Over source ∧ fault.Shows c rest := by
  rw [parseWith, tokenize_eq] at h
  rcases hlexical : (lex source).filterMap LexItem.fault? with _ | ⟨first, faults⟩
  · rw [hlexical] at h
    let start : Cursor := .ofTokens ((lex source).filterMap LexItem.token?)
    have hwhole : p.wholeInput.Within .plain start fun _ => True := by
      refine .bind (hp start) fun a s c _ => .check_bind ?_
      split
      · exact .pure trivial
      · exact .unexpected (by simp) (by decide)
    rcases hrun : p.wholeInput start with ⟨a, c'⟩ | ⟨fault', c'⟩
    · simp [Except.bind, start, hrun] at h
    · obtain rfl : fault' = fault := by simpa [Except.bind, start, hrun] using h
      obtain ⟨_, _, rest, -, hshows⟩ := hwhole.error _ _ hrun
      exact .inr ⟨start, rest, Session.over_run source [], hshows⟩
  · rw [hlexical] at h
    obtain rfl : first = fault := by simpa [Except.bind] using h
    exact .inl List.mem_cons_self

/-- However a text is read, a fault is an unrecognised character, or it is told on the way from a
cursor in the tokens of the text.

**Proof sketch.** By cases on how the text is read.  A file read to its first fault tells the first
one of its diagnostics, which are in `mem_lexical_or_shows`; the readers of an expression, of a
predicate and of a type go through `shows_of_parseWith`. -/
theorem Tells.shows (h : Tells source fault) :
    fault ∈ (lex source).filterMap LexItem.fault?
      ∨ ∃ c rest, c.Over source ∧ fault.Shows c rest := by
  cases h with
  | parse h =>
    have hparse := @parse_eq_failFast "" source
    rw [h] at hparse
    rcases hfaults : (RakeLang.parseSource "" source .failFast).diagnostics.faults with
      _ | ⟨first, faults⟩
    · simp [hfaults] at hparse
    · obtain rfl : fault = first := by simpa [hfaults] using hparse
      exact mem_lexical_or_shows (hfaults ▸ List.mem_cons_self)
  | parseSource sourceId mode h => exact mem_lexical_or_shows h
  | parseExpression h =>
    exact shows_of_parseWith (fun c => Parser.expression_within .plain c Seam.free_plain) h
  | parsePredicate h =>
    exact shows_of_parseWith (fun c => Parser.predicate_within Seam.free_plain c) h
  | parseType h => exact shows_of_parseWith (fun c => Parser.dataType_within Seam.free_plain c) h

/-- The tokens of a text, of which some are split. -/
def Splits (source : String) (buffer : List Token) : Prop :=
  ∃ tokens, (lex source).filterMap LexItem.token? = tokens ++ [Token.atEnd source.toList]
    ∧ SplitsTo tokens buffer

/-- The parts of what is read from the whole text have exact spans.

**Proof sketch.** The tokens of a text are faithful to it, and reading keeps that for what the
tokens are split into.  The node that was read is placed in the tokens that were consumed, its part
is placed in a stretch of them, and a node placed in a stretch of faithful tokens has an exact span.
-/
lemma exact_of_parseWith {α : Type} {p : Parser α} {a : α} (node : α → Node)
    (hp : ∀ c, p.Ensures SplitsTo c fun a ts _ => ts ∈ (node a).placed)
    (h : parseWith p source = .ok a) (hn : (node a).Has n) :
    ∃ buffer, Splits source buffer ∧ n.Exact source buffer := by
  obtain ⟨all, hall, c', hwhole⟩ := parseWith_eq_ok_iff.1 h
  obtain ⟨hrun, -⟩ := Parser.wholeInput_eq_ok_iff.1 hwhole
  obtain ⟨tokens, hlex, htokens, -⟩ := faithful_of_lex source
  obtain rfl : (lex source).filterMap LexItem.token? = all := by
    rw [tokenize_eq] at hall
    split at hall
    · exact Except.ok.inj hall
    · cases hall
  rw [hlex, Cursor.ofTokens_append rfl] at hrun
  obtain ⟨read, hread, hplaced⟩ := (hp (Cursor.atStart source tokens)).ok a c' hrun
  obtain ⟨-, hsplits, hfaithful⟩ := hread.faithful htokens
  obtain ⟨before, us, after, rfl, hus⟩ := hn.exists_placed hplaced
  have hsplit : before ++ (us ++ after) ++ c'.ahead = before ++ (us ++ (after ++ c'.ahead)) := by
    simp
  rw [hsplit] at hsplits hfaithful
  exact ⟨_, ⟨tokens, hlex, hsplits⟩, Node.exact_of_placed hfaithful hus⟩

/-- However a text is read, the parts of what it gives have exact spans.

**Proof sketch.** Whatever was read, its parts have exact spans by the theorem for source files
or the one for parts of them. -/
theorem Gives.exact (h : Gives source n) :
    ∃ buffer, Splits source buffer ∧ n.Exact source buffer := by
  have hsource : ∀ sourceId mode, (RakeLang.parseSource sourceId source mode).file.Has n →
      ∃ buffer, Splits source buffer ∧ n.Exact source buffer := by
    intro sourceId mode hn
    obtain ⟨tokens, buffer, hlex, hsplits, hexact, -⟩ := parseSource_exact sourceId source mode
    exact ⟨buffer, ⟨tokens, hlex, hsplits⟩, hexact n hn⟩
  cases h with
  | @parse file h hn =>
    have hparse := @parse_eq_failFast "" source
    rw [h] at hparse
    split at hparse
    · obtain rfl := Except.ok.inj hparse
      exact hsource _ _ hn
    · cases hparse
  | parseSource sourceId mode hn => exact hsource sourceId mode hn
  | parseExpression h hn =>
    exact exact_of_parseWith .expression
      (fun c => (Parser.expression_places c).imp fun _ _ _ h => h.1) h hn
  | parsePredicate h hn =>
    exact exact_of_parseWith .predicate
      (fun c => (Parser.predicate_places c).imp fun _ _ _ h => h.1) h hn
  | parseType h hn =>
    exact exact_of_parseWith .dataType
      (fun c => (Parser.dataType_ensures c).imp fun _ _ _ h => h.1) h hn

end Text

/-- The integers in a part are written in the tokens of the text that its span covers. -/
def Node.WritesIntegers (source : String) : Node → Prop
  | .expression e =>
    ∃ before us after, Text.Splits source (before ++ (us ++ after)) ∧ e.span.Covers us
      ∧ e.Writes source us
  | _ => True

/-- **Numbers are refused only if they are too large.**  However a text is read,

* a number that is refused is an integer, and the value that is told, with two signs at the most,
  has no 64 bits;
* every float has a value;
* the integers in the tree are those that the text writes, with their signs.

**Proof sketch.** A fault that is told of a text is told at a cursor in the text (`Tells.shows`),
where a refused number is too large.  A float has a value whatever its exponent is.  The parts of a
tree have exact spans (`Gives.exact`), so that an integer is spelled by the tokens at its span,
which write it. -/
theorem integers_exact (source : String) :
    (∀ fault, Text.Tells source fault → fault.IsOfLarge source)
      ∧ (∀ (afterOperand : Bool) (text : String),
        Lexeme.Matches afterOperand .float text.toList → ∃ v, Numeral.readFloat? text = some v)
      ∧ ∀ n, Text.Gives source n → n.WritesIntegers source := by
  refine ⟨fun fault h => ?_, fun afterOperand text h => ?_, fun n h => ?_⟩
  · rcases h.shows with hlexical | ⟨c, rest, hc, hshows⟩
    · obtain ⟨char, span, rfl⟩ := (pairwise_unrecognized source).2 fault hlexical
      trivial
    · exact hshows.isOfLarge hc
  · have hlexeme : (⟨.float, text, .origin⟩ : Token).IsLexeme := ⟨afterOperand, h⟩
    exact hlexeme.exists_readFloat? rfl
  · obtain ⟨buffer, ⟨tokens, hlex, hsplits⟩, hexact⟩ := h.exact
    cases n with
    | expression e =>
      have hover : (Cursor.atStart source buffer).Over source := ⟨tokens, hlex, hsplits⟩
      obtain ⟨hfaithful, hlexemes, -⟩ := hover.faithful
      obtain ⟨before, us, after, rfl, hus, hcovers⟩ := hexact.covers
      have hmem : ∀ t ∈ us, t ∈ (Cursor.atStart source (before ++ (us ++ after))).buffer :=
        fun t ht => by simp [Cursor.buffer, Cursor.atStart, ht]
      exact ⟨before, us, after, ⟨tokens, hlex, hsplits⟩, hcovers,
        e.writes_of_spelling (fun t ht => hfaithful.standsIn t (hmem t ht))
          (fun t ht => hlexemes t (hmem t ht)) hcovers hus⟩
    | _ => trivial

/-- The opposite of the smallest integer is refused, and told with two signs. -/
example : (match parseExpression "<--9223372036854775808>" with
    | .error (.numeral lexeme span) => lexeme == "--9223372036854775808" && span.start == 2
    | _ => false) = true := by decide +kernel

end RakeLang
