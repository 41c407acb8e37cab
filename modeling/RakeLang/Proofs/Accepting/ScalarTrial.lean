import RakeLang.Proofs.Accepting.NegativeScalar
import RakeLang.Proofs.Placing.Buffer

/-!
# Scalar literals on trial

Between its angles a scalar literal has a chain of names, a number, or a minus sign and a number;
an arrow is an angle and the minus sign of a number.  Anywhere in the tokens of a text, with any of
them split, a scalar literal is read just where such tokens stand ahead and the integer among them
has 64 bits, behind a minus sign its opposite too.  The cursor then stands behind these tokens.  An
integer that is too large is refused, and where anything else stands ahead the trial leaves no
trace: the cursor and the tokens around it are what they were.

## Main definitions

* `RakeLang.Cursor.Over` — the cursor stands in the tokens of a text.
* `RakeLang.Spelling.scalarShape` — the tokens of scalar literals, with conditions on the numbers.
* `RakeLang.Token.RefusedInteger` — the faults of integers that are too large.

## Main results

* `RakeLang.Spelling.mem_scalarShape_iff` — the tokens of scalar literals are the spellings of
  their values.
* `RakeLang.Parser.scalarLiteral_exact` — what is read, what is refused, and what is left of the
  cursor.
-/

set_option relaxedAutoImplicit false
set_option autoImplicit false

open scoped Computability

namespace RakeLang

open Token Spelling

/-! ## Cursors in the tokens of a text -/

/-- The cursor stands somewhere in the tokens of the text, of which any may be split. -/
def Cursor.Over (source : String) (c : Cursor) : Prop :=
  ∃ tokens, (lex source).filterMap LexItem.token? = tokens ++ [c.closing]
    ∧ SplitsTo tokens c.buffer

/-- Whatever has been done to the cursor at the first token of a text, it stands in its tokens. -/
lemma Session.over_run (source : String) (operations : List Operation) :
    ((Session.ofSource source).run operations).cursor.Over source := by
  obtain ⟨tokens, hlex, -⟩ := faithful_of_lex source
  have hstart : (Session.ofSource source).cursor = Cursor.atStart source tokens := by
    rw [Session.ofSource, hlex, Cursor.ofTokens_append rfl]
    rfl
  have hsound : ((Session.ofSource source).run operations).Sound tokens
      (Token.atEnd source.toList) :=
    .run operations ⟨by rw [hstart]; exact .refl, by rw [hstart]; rfl, by simp [ofSource]⟩
  exact ⟨tokens, by rw [hsound.closing, hlex], hsound.splitsTo⟩

section Over

variable {source : String} {c c' : Cursor}

namespace Cursor.Over

/-- What is read from a text leaves a cursor in the tokens of the text. -/
lemma reads {read : List Token} (h : c.Over source) (hread : c.Reads SplitsTo read c') :
    c'.Over source := by
  obtain ⟨tokens, hlex, hsplits⟩ := h
  exact ⟨tokens, by rw [hread.closing, hlex], hsplits.trans hread.buffer⟩

/-- The tokens around a cursor in a text are faithful lexemes, and behind them is its end. -/
lemma faithful (h : c.Over source) : Faithful source.toList c.buffer
    ∧ (∀ t ∈ c.buffer, t.IsLexeme) ∧ c.closing = Token.atEnd source.toList := by
  obtain ⟨tokens, hlex, hsplits⟩ := h
  obtain ⟨tokens', hlex', hfaithful, -⟩ := faithful_of_lex source
  obtain ⟨rfl, hclosing⟩ := List.append_inj' (hlex.symm.trans hlex') rfl
  exact ⟨hfaithful.splitsTo hsplits, (hsplits.lexemes_eq (isLexeme_of_lex hlex')).1,
    by simpa using hclosing⟩

/-- The tokens ahead in a text are lexemes, one behind the other. -/
lemma ahead (h : c.Over source) : (∀ t ∈ c.ahead, t.IsLexeme) ∧ InOrder c.ahead := by
  obtain ⟨hfaithful, hlexemes, -⟩ := h.faithful
  exact ⟨fun t ht => hlexemes t (List.mem_append_right _ ht), hfaithful.inOrder.append.2⟩

/-- Each token around a cursor in a text stands in the text. -/
lemma standsIn (h : c.Over source) : ∀ t ∈ c.tokens, t.StandsIn source.toList := by
  obtain ⟨hfaithful, -, hclosing⟩ := h.faithful
  intro t ht
  rw [Cursor.tokens_eq, List.mem_append, List.mem_singleton] at ht
  rcases ht with ht | rfl
  · exact hfaithful.standsIn t ht
  · exact hclosing ▸ standsIn_atEnd _

/-- Each token around a cursor in a text begins behind the one in front of it. -/
lemma pairwise_start_lt (h : c.Over source) :
    c.tokens.Pairwise fun t u => t.span.start < u.span.start := by
  obtain ⟨hfaithful, hlexemes, hclosing⟩ := h.faithful
  have hlt : ∀ t ∈ c.buffer, t.span.start < t.span.stop := fun t ht =>
    (hfaithful.standsIn t ht).start_lt_stop (hlexemes t ht)
  have hend : c.closing.span.start = source.utf8ByteSize := by
    simp [hclosing, Token.atEnd, Span.between, Place.offset_after_start]
  rw [Cursor.tokens_eq]
  refine List.pairwise_append.2 ⟨?_, List.pairwise_singleton _ _, fun t ht u hu => ?_⟩
  · exact hfaithful.ordered.imp_of_mem fun ht _ htu => (hlt _ ht).trans_le htu
  · rw [List.mem_singleton.1 hu, hend]
    exact (hlt t ht).trans_le (hfaithful.standsIn t ht).exact.stop_le

end Cursor.Over

end Over

/-! ## Integers of any size -/

/-- The integer that a numeral names, of whatever size. -/
def Numeral.integer (text : String) : Int :=
  withSign (unsigned text.toList).1 (Nat.ofDigitChars 10 (unsigned text.toList).2 0)

namespace Token

variable {t : Token}

/-- The token is a number, and one of 64 bits if it is an integer. -/
def IsFitting (t : Token) : Prop :=
  t.kind.isNumber = true ∧ (t.kind = .int → Numeral.fits (Numeral.integer t.lexeme) = true)

/-- The token is a number, and one of 64 bits with an opposite of 64 bits if it is an integer. -/
def IsFittingNegated (t : Token) : Prop :=
  t.IsFitting ∧ (t.kind = .int → Numeral.fits (-Numeral.integer t.lexeme) = true)

/-- The text of an integer has the value that it names, if that fits.

**Proof sketch.** The lexeme is a row of digits, with or without a sign in front.  In both cases
`Numeral.unsigned` separates the sign from the digits, and a row of digits is read as the natural
number that it writes. -/
lemma IsLexeme.readInt? (h : t.IsLexeme) (hkind : t.kind = .int) :
    Numeral.readInt? t.lexeme = Numeral.fitted (Numeral.integer t.lexeme) := by
  have hdigits : ∀ {digits : List Char}, Lexeme.IsNumber .int digits → Lexeme.IsDigits digits := by
    rintro digits ⟨hdigits⟩
    exact hdigits
  obtain ⟨negative, digits, hunsigned, hdigits⟩ : ∃ negative digits,
      Numeral.unsigned t.lexeme.toList = (negative, digits) ∧ Lexeme.IsDigits digits := by
    rcases h.number_cases (by simp [hkind, Kind.isNumber]) with ⟨hnumber, -⟩ | ⟨digits, hnumber, ht⟩
    · rw [hkind] at hnumber
      obtain ⟨negative, hunsigned⟩ := Numeral.unsigned_append (.inl rfl) (hdigits hnumber)
      exact ⟨negative, _, hunsigned, hdigits hnumber⟩
    · rw [hkind] at hnumber
      exact ⟨true, digits, by simp [ht, Numeral.unsigned], hdigits hnumber⟩
  simp only [Numeral.readInt?, Numeral.integer, hunsigned, Numeral.readNat?_of_isDigits hdigits,
    Option.bind_some]
  rfl

/-- The text of a float has a value.

**Proof sketch.** The digits behind the sign, if there is one, are the text of a float, and such
a text has a value; a sign in front negates it. -/
lemma IsLexeme.exists_readFloat? (h : t.IsLexeme) (hkind : t.kind = .float) :
    ∃ v, Numeral.readFloat? t.lexeme = some v := by
  have hnumeral : ∀ {digits : List Char}, Lexeme.IsNumber t.kind digits →
      Lexeme.IsNumber .float (String.ofList digits).toList := by
    intro digits hdigits
    rw [hkind] at hdigits
    simpa using hdigits
  rcases h.number_cases (by simp [hkind, Kind.isNumber]) with ⟨hnumber, -⟩ | ⟨digits, hnumber, ht⟩
  · obtain ⟨v, hv, -⟩ := Numeral.exists_readFloat? (hnumeral hnumber)
    exact ⟨v, by simpa using hv⟩
  · obtain ⟨v, -, hv⟩ := Numeral.exists_readFloat? (hnumeral hnumber)
    refine ⟨-v, ?_⟩
    rw [← hv]
    congr 1
    apply String.toList_injective
    simp [ht]

/-- What spells an integer is one. -/
lemma kind_of_number?_int {v : Int} (h : t.number? = some (.int v)) : t.kind = .int := by
  unfold Token.number? at h
  split at h <;> simp_all

/-- An integer of a text spells a number just if it fits. -/
lemma IsLexeme.number?_int (h : t.IsLexeme) (hkind : t.kind = .int) :
    t.number? = (Numeral.fitted (Numeral.integer t.lexeme)).map .int := by
  simp [Token.number?, hkind, h.readInt? hkind]

/-- A token that spells an integer names it, and it fits. -/
lemma IsLexeme.integer_of_number? {v : Int} (h : t.IsLexeme) (hv : t.number? = some (.int v)) :
    t.kind = .int ∧ Numeral.fits v = true ∧ Numeral.integer t.lexeme = v := by
  have hkind := kind_of_number?_int hv
  rw [h.number?_int hkind] at hv
  obtain ⟨hfits, rfl⟩ : Numeral.fits (Numeral.integer t.lexeme) = true
      ∧ Numeral.integer t.lexeme = v := by simpa [Numeral.fitted] using hv
  exact ⟨hkind, hfits, rfl⟩

/-- The numbers that have a value are those that fit. -/
lemma IsLexeme.exists_number?_iff (h : t.IsLexeme) :
    (∃ n, t.number? = some n) ↔ t.IsFitting := by
  rcases hkind : t.kind
  case int =>
    simp [h.number?_int hkind, IsFitting, hkind, Kind.isNumber, Numeral.fitted]
  case float =>
    obtain ⟨v, hv⟩ := h.exists_readFloat? hkind
    simp [Token.number?, IsFitting, hkind, hv, Kind.isNumber]
  all_goals simp [Token.number?, IsFitting, hkind, Kind.isNumber]

/-- The numbers that have an opposite are those that fit with their opposites.

**Proof sketch.** A float always has an opposite.  An integer has one iff its negation fits, and
`h.integer_of_number?` identifies the value with the integer that the lexeme writes, of which
`IsFittingNegated` speaks. -/
lemma IsLexeme.exists_opposite_iff (h : t.IsLexeme) :
    (∃ n : Number, [t] ∈ n.oppositeSpelling) ↔ t.IsFittingNegated := by
  simp only [Number.oppositeSpelling, singleton_mem_token, IsFittingNegated,
    ← h.exists_number?_iff]
  constructor
  · rintro ⟨n, m, hm, hn⟩
    refine ⟨⟨m, hm⟩, fun hkind => ?_⟩
    obtain ⟨v, -, rfl⟩ := Option.map_eq_some_iff.1 ((h.number?_int hkind).symm.trans hm)
    obtain ⟨-, -, rfl⟩ := h.integer_of_number? hm
    by_contra hfits
    simp [Number.negate?, hfits] at hn
  · rintro ⟨⟨m, hm⟩, hfits⟩
    rcases m with v | v
    · obtain ⟨hkind, -, rfl⟩ := h.integer_of_number? hm
      exact ⟨.int (-Numeral.integer t.lexeme), .int _, hm,
        by simp [Number.negate?, hfits hkind]⟩
    · exact ⟨.float (-v), .float v, hm, rfl⟩

end Token

/-! ## The tokens of scalar literals -/

namespace Spelling

variable {ts : List Token}

/-- A name, or names with dots between them. -/
def chain : Language Token :=
  token (·.kind = .ident) * (sign .dot * token (·.kind = .ident))∗

/-- The tokens of scalar literals, where `plain` holds of a number without a minus sign in front of
it and `negated` of one with it. -/
def scalarShape (plain negated : Token → Prop) : Language Token :=
  (sign .less * (chain + token plain + sign .minus * token negated)
    + sign .leftArrow * token negated) * sign .greater

/-- A row of fields, each behind a dot.

**Proof sketch.** Induction on the rounds, and on the fields.  Each round is a dot and a name. -/
lemma mem_kstar_field_iff : ts ∈ (sign .dot * token (·.kind = .ident))∗ ↔
    ∃ fields : List String, ts ∈ (fields.map fun f => sign .dot * word .ident f).prod := by
  rw [Language.mem_kstar]
  constructor
  · rintro ⟨rounds, rfl, hrounds⟩
    induction rounds with
    | nil => exact ⟨[], rfl⟩
    | cons us rounds ih =>
      obtain ⟨hus, hmore⟩ := List.forall_mem_cons.1 hrounds
      obtain ⟨dot, _, hdot, ⟨field, hfield, rfl⟩, rfl⟩ := mem_token_mul.1 hus
      obtain ⟨fields, hfields⟩ := ih hmore
      refine ⟨field.lexeme :: fields, ?_⟩
      rw [List.flatten_cons]
      exact prod_cons_mem (cons_mem_token_mul.2 ⟨hdot, by simp [word, hfield]⟩) hfields
  · rintro ⟨fields, hts⟩
    induction fields generalizing ts with
    | nil => exact ⟨[], hts, by simp⟩
    | cons field fields ih =>
      obtain ⟨us, hus, vs, hvs, rfl⟩ := mem_prod_cons hts
      obtain ⟨rounds, rfl, hrounds⟩ := ih hvs
      obtain ⟨dot, _, hdot, ⟨name, hname, rfl⟩, rfl⟩ := mem_token_mul.1 hus
      refine ⟨[dot, name] :: rounds, rfl, List.forall_mem_cons.2 ⟨?_, hrounds⟩⟩
      exact cons_mem_token_mul.2 ⟨hdot, singleton_mem_token.2 hname.1⟩

/-- A chain of names spells the path of its names. -/
lemma mem_chain_iff {less : Token} (hless : less.kind = .symbol .less) :
    ts ∈ chain ↔ ∃ root fields, less :: ts ∈ (ScalarValue.path root fields).spelling := by
  simp only [chain, ScalarValue.spelling, sign, cons_mem_token_mul, hless, true_and]
  constructor
  · intro hts
    obtain ⟨name, us, hname, hus, rfl⟩ := mem_token_mul.1 hts
    obtain ⟨fields, hfields⟩ := mem_kstar_field_iff.1 hus
    exact ⟨name.lexeme, fields, cons_mem_token_mul.2 ⟨⟨hname, rfl⟩, hfields⟩⟩
  · rintro ⟨root, fields, hts⟩
    obtain ⟨name, us, hname, hus, rfl⟩ := mem_token_mul.1 hts
    exact cons_mem_token_mul.2 ⟨hname.1, mem_kstar_field_iff.2 ⟨fields, hus⟩⟩

/-- Among the tokens of a text, those of a scalar literal are what the values between angles are
spelled by.

**Proof sketch.** Alternative by alternative.  A lexeme that is a number spells a number just if it
fits, and an opposite just if its opposite fits. -/
theorem mem_scalarShape_iff (hlexemes : ∀ t ∈ ts, t.IsLexeme) :
    ts ∈ scalarShape IsFitting IsFittingNegated ↔ ∃ l : ScalarLiteral, ts ∈ l.spelling := by
  constructor
  · intro hts
    obtain ⟨us, hus, _, ⟨greater, hgreater, rfl⟩, rfl⟩ := Language.mem_mul.1 hts
    obtain ⟨v, hv⟩ : ∃ v : ScalarValue, us ∈ v.spelling := by
      rcases hus with hus | hus
      · obtain ⟨less, ws, hless, (hws | ⟨t, ht, rfl⟩) | hws, rfl⟩ := mem_token_mul.1 hus
        · obtain ⟨root, fields, hpath⟩ := (mem_chain_iff hless).1 hws
          exact ⟨_, hpath⟩
        · obtain ⟨n, hn⟩ := (hlexemes t (by simp)).exists_number?_iff.2 ht
          exact ⟨.number n, .inl (cons_mem_token_mul.2 ⟨hless, .inl ⟨t, hn, rfl⟩⟩)⟩
        · obtain ⟨minus, _, hminus, ⟨t, ht, rfl⟩, rfl⟩ := mem_token_mul.1 hws
          obtain ⟨n, hn⟩ := (hlexemes t (by simp)).exists_opposite_iff.2 ht
          exact ⟨.number n, .inl (cons_mem_token_mul.2
            ⟨hless, .inr (cons_mem_token_mul.2 ⟨hminus, hn⟩)⟩)⟩
      · -- the arrow holds the minus sign, so that the number behind it is negated
        obtain ⟨arrow, _, harrow, ⟨t, ht, rfl⟩, rfl⟩ := mem_token_mul.1 hus
        obtain ⟨n, hn⟩ := (hlexemes t (by simp)).exists_opposite_iff.2 ht
        exact ⟨.number n, .inr (cons_mem_token_mul.2 ⟨harrow, hn⟩)⟩
    exact ⟨⟨v, .origin⟩, append_singleton_mem hv hgreater⟩
  · rintro ⟨⟨v, span⟩, hts⟩
    obtain ⟨us, hus, _, ⟨greater, hgreater, rfl⟩, rfl⟩ := Language.mem_mul.1 hts
    refine append_singleton_mem ?_ hgreater
    cases v with
    | path root fields =>
      obtain ⟨less, ws, hless, -, rfl⟩ := mem_token_mul.1 hus
      exact .inl (cons_mem_token_mul.2
        ⟨hless, .inl (.inl ((mem_chain_iff hless).2 ⟨root, fields, hus⟩))⟩)
    | number n =>
      have hopposite {t : Token} (ht : t.IsLexeme) (h : [t] ∈ n.oppositeSpelling) :
          t.IsFittingNegated := ht.exists_opposite_iff.1 ⟨n, h⟩
      rcases hus with hus | hus
      · obtain ⟨less, _, hless, ⟨t, ht, rfl⟩ | hws, rfl⟩ := mem_token_mul.1 hus
        · have hfits := (hlexemes t (by simp)).exists_number?_iff.1 ⟨n, ht⟩
          exact .inl (cons_mem_token_mul.2 ⟨hless, .inl (.inr ⟨t, hfits, rfl⟩)⟩)
        · obtain ⟨minus, _, hminus, ⟨t, ht, rfl⟩, rfl⟩ := mem_token_mul.1 hws
          have hfits := hopposite (hlexemes t (by simp)) ⟨t, ht, rfl⟩
          exact .inl (cons_mem_token_mul.2
            ⟨hless, .inr (cons_mem_token_mul.2 ⟨hminus, t, hfits, rfl⟩)⟩)
      · obtain ⟨arrow, _, harrow, ⟨t, ht, rfl⟩, rfl⟩ := mem_token_mul.1 hus
        have hfits := hopposite (hlexemes t (by simp)) ⟨t, ht, rfl⟩
        exact .inr (cons_mem_token_mul.2 ⟨harrow, t, hfits, rfl⟩)

end Spelling

/-! ## Faults -/

/-- The faults of an integer that is too large: it has no 64 bits, or, if `negated` says that a
minus sign stands in front of it, its opposite has none. -/
inductive Token.RefusedInteger (t : Token) : (negated : Bool) → Fault → Prop
  | value (negated : Bool) (hkind : t.kind = .int)
      (hfits : Numeral.fits (Numeral.integer t.lexeme) = false) :
      RefusedInteger t negated (.numeral t.lexeme t.span)
  | opposite (hkind : t.kind = .int) (hfits : Numeral.fits (Numeral.integer t.lexeme) = true)
      (hopposite : Numeral.fits (-Numeral.integer t.lexeme) = false) :
      RefusedInteger t true (.numeral ("-" ++ toString (Numeral.integer t.lexeme)) t.span)

/-- A number without a value is an integer that has no 64 bits. -/
lemma Token.IsLexeme.refused_of_number? {t : Token} (h : t.IsLexeme) (negated : Bool)
    (hnumber : t.kind.isNumber = true) (hnone : t.number? = none) :
    t.RefusedInteger negated (.numeral t.lexeme t.span) := by
  have hnot : ¬t.IsFitting := by simp [← h.exists_number?_iff, hnone]
  obtain ⟨hint, hfits⟩ : t.kind = .int ∧ ¬Numeral.fits (Numeral.integer t.lexeme) = true := by
    simpa [IsFitting, hnumber] using hnot
  exact .value negated hint (by simpa using hfits)

/-- A number without an opposite is an integer whose opposite has no 64 bits. -/
lemma Token.IsLexeme.refused_of_negate? {t : Token} (h : t.IsLexeme) {n : Number}
    (hn : t.number? = some n) (hnone : n.negate? = none) :
    t.RefusedInteger true (.numeral ("-" ++ n.render) t.span) := by
  rcases n with v | v
  · obtain ⟨hkind, hfits, rfl⟩ := h.integer_of_number? hn
    exact .opposite hkind hfits (by simpa [Number.negate?] using hnone)
  · cases hnone

namespace Parser

variable {c c' : Cursor} {fault : Fault}

/-- A number is refused if it is an integer that is too large.

**Proof sketch.** Where a number stands, it has no value, and then it is an integer beyond 64
bits; where none stands, nothing is refused. -/
lemma number?_of_error (hlexemes : ∀ t ∈ c.ahead, t.IsLexeme)
    (h : number? c = .error fault c') :
    ∃ t rest, c.ahead = t :: rest ∧ c' = c.behind [t] rest ∧ t.RefusedInteger false fault := by
  by_cases hnumber : c.peek.kind.isNumber = true
  · obtain ⟨rest, hahead⟩ := Cursor.exists_ahead_of_peek (c := c) (by
      intro heof
      simp [heof, Kind.isNumber] at hnumber)
    have hlexeme := hlexemes c.peek (by simp [hahead])
    rcases hnum : c.peek.number? with _ | n
    · obtain ⟨rfl, rfl⟩ := EStateM.Result.error.inj ((number?_of_none hnumber hnum).symm.trans h)
      exact ⟨c.peek, rest, hahead, Cursor.advance_eq_behind hahead,
        hlexeme.refused_of_number? false hnumber hnum⟩
    · obtain ⟨o, -, hok⟩ := number?_accepts hnum c hahead
      cases hok.symm.trans h
  · have hnone : number? c = .ok none c := by
      rw [number?, bind_of_ok (p := peekKind) rfl]
      rcases hkind : c.peek.kind
      case int | float => simp [hkind, Kind.isNumber] at hnumber
      all_goals rfl
    cases hnone.symm.trans h

/-- Behind a minus sign, a number is refused if it is an integer that is too large, or if its
opposite is.

**Proof sketch.** The number is refused, or its opposite is. -/
lemma negatedNumber?_of_error (hlexemes : ∀ t ∈ c.ahead, t.IsLexeme)
    (h : negatedNumber? c = .error fault c') :
    ∃ t rest, c.ahead = t :: rest ∧ c' = c.behind [t] rest ∧ t.RefusedInteger true fault := by
  rcases bind_eq_error.1 h with h | ⟨_ | n, c₁, hread, h⟩
  · obtain ⟨t, rest, hahead, hbehind, hfault⟩ := number?_of_error hlexemes h
    cases hfault with
    | value _ hkind hfits => exact ⟨t, rest, hahead, hbehind, .value true hkind hfits⟩
  · cases h
  · obtain ⟨ts, hreads, ⟨⟨t, ht, rfl⟩, -⟩, -⟩ := (number?_ensures (R := Eq) c).ok _ _ hread
    have hahead : c.ahead = t :: c₁.ahead := hreads.ahead
    rcases bind_eq_error.1 h with h | ⟨m, c₂, -, h⟩
    · unfold negated at h
      split at h
      · cases h
      · rename_i hnone
        obtain ⟨rfl, rfl⟩ := EStateM.Result.error.inj h
        have hspan : c₁.previousSpan = t.span := by simp [Cursor.previousSpan, hreads.past]
        exact ⟨t, c₁.ahead, hahead, hreads.eq_behind,
          hspan ▸ (hlexemes t (by simp [hahead])).refused_of_negate? ht hnone⟩
    · cases h

/-- A repetition of what never fails never fails.

**Proof sketch.** Induction on the bound of the repetition. -/
lemma many_ne_error {α : Type} {step : Parser (Option α)}
    (hstep : ∀ c fault c', step c ≠ .error fault c') : many step c ≠ .error fault c' := by
  have hrounds : ∀ n c fault c', manyUpTo step n c ≠ .error fault c' := by
    intro n
    induction n with
    | zero => exact fun _ _ _ h => nomatch h
    | succ n ih =>
      intro c fault c' h
      rcases bind_eq_error.1 h with h | ⟨_ | a, c₁, -, h⟩
      · exact hstep _ _ _ h
      · cases h
      · rcases bind_eq_error.1 h with h | ⟨_, _, -, h⟩
        · exact ih _ _ _ h
        · cases h
  intro h
  rcases bind_eq_error.1 h with h | ⟨_ | a, c₁, -, h⟩
  · exact hstep _ _ _ h
  · cases h
  · rcases bind_eq_error.1 h with h | ⟨_, _, -, h⟩
    · exact hrounds _ _ _ _ h
    · cases h

/-- To look for a field never fails: the name is seen before the dot is read.

**Proof sketch.** The reader looks ahead for a dot and a name, and consumes them only where it saw
both.  Behind the dot stands therefore a name, and `expect` cannot fail. -/
lemma pathField_ne_error : pathField c ≠ .error fault c' := by
  intro h
  have hlook : pathField c = (if c.peek.kind == .symbol .dot && (c.lookahead 1).kind == .ident
      then (do let _ ← advance; let field ← expect .ident; return some field.lexeme)
      else return none : Parser (Option String)) c := rfl
  rw [hlook] at h
  split at h
  · rename_i hdot
    simp only [Bool.and_eq_true, beq_iff_eq] at hdot
    obtain ⟨rest, hahead⟩ := Cursor.exists_ahead_of_peek (c := c) (by simp [hdot.1])
    have hname : c.advance.peek.kind = .ident := by
      rw [Cursor.peek_kind, Cursor.advance_eq_behind hahead, Cursor.ahead_behind, ← hdot.2,
        Cursor.lookahead_one_kind, hahead, List.tail_cons]
    rw [bind_of_ok (p := Parser.advance) rfl, bind_of_ok (expect_of_eq hname)] at h
    cases h
  · cases h

/-- What looks at the kind of the token at the cursor goes on with what it finds. -/
lemma peekKind_bind_eq_error {α : Type} {f : Kind → Parser α}
    (h : (peekKind >>= f) c = .error fault c') :
    ∃ p, f c.peek.kind = p ∧ p c = .error fault c' :=
  ⟨_, rfl, h⟩

/-- Behind an opening angle, an integer is refused if it is too large.

**Proof sketch.** A path is never refused.  Behind a minus sign the fault is that of an opposite,
otherwise that of a number. -/
lemma scalarValue?_of_error (hlexemes : ∀ t ∈ c.ahead, t.IsLexeme)
    (h : scalarValue? c = .error fault c') :
    (∃ t rest, c.ahead = t :: rest ∧ c' = c.behind [t] rest ∧ t.RefusedInteger false fault)
      ∨ ∃ minus t rest, minus.kind = .symbol .minus ∧ c.ahead = minus :: t :: rest
        ∧ c' = c.behind [minus, t] rest ∧ t.RefusedInteger true fault := by
  obtain ⟨p, hp, h⟩ := peekKind_bind_eq_error h
  split at hp
  · subst hp
    rcases bind_eq_error.1 h with h | ⟨root, c₁, -, h⟩
    · cases h
    · rcases bind_eq_error.1 h with h | ⟨fields, c₂, -, h⟩
      · exact absurd h (many_ne_error fun _ _ _ => pathField_ne_error)
      · cases h
  · rename_i hminus
    subst hp
    obtain ⟨rest, hahead⟩ := Cursor.exists_ahead_of_peek (c := c) (by simp [hminus])
    rw [bind_of_ok (p := Parser.advance) rfl, Cursor.advance_eq_behind hahead] at h
    rcases bind_eq_error.1 h with h | ⟨n, c₁, -, h⟩
    · obtain ⟨t, more, hrest, rfl, hfault⟩ := negatedNumber?_of_error
        (fun t ht => hlexemes t (by simp_all)) h
      obtain rfl : rest = t :: more := hrest
      exact .inr ⟨c.peek, t, more, hminus, hahead, Cursor.behind_behind, hfault⟩
    · cases h
  · subst hp
    rcases bind_eq_error.1 h with h | ⟨n, c₁, -, h⟩
    · exact .inl (number?_of_error hlexemes h)
    · cases h

/-- What is refused on the trial of a scalar literal is an integer that is too large.

**Proof sketch.** Behind a less-than sign the fault is that of a value; behind an arrow, which
stands for an angle and a minus sign, it is that of an opposite. -/
lemma openedScalar?_of_error (hlexemes : ∀ t ∈ c.ahead, t.IsLexeme)
    (h : openedScalar? c = .error fault c') :
    ∃ front t rest, c.ahead = front ++ t :: rest ∧ c' = c.behind (front ++ [t]) rest
      ∧ (front ∈ sign .less ∧ t.RefusedInteger false fault
        ∨ front ∈ sign .less * sign .minus + sign .leftArrow ∧ t.RefusedInteger true fault) := by
  obtain ⟨p, hp, h⟩ := peekKind_bind_eq_error h
  split at hp
  · rename_i hless
    subst hp
    obtain ⟨rest, hahead⟩ := Cursor.exists_ahead_of_peek (c := c) (by simp [hless])
    rw [bind_of_ok (p := Parser.advance) rfl, Cursor.advance_eq_behind hahead] at h
    rcases scalarValue?_of_error (fun t ht => hlexemes t (by simp_all)) h with
      ⟨t, more, hrest, rfl, hfault⟩ | ⟨minus, t, more, hminus, hrest, rfl, hfault⟩
    · obtain rfl : rest = t :: more := hrest
      exact ⟨[c.peek], t, more, hahead, Cursor.behind_behind, .inl ⟨⟨_, hless, rfl⟩, hfault⟩⟩
    · obtain rfl : rest = minus :: t :: more := hrest
      refine ⟨[c.peek, minus], t, more, hahead, Cursor.behind_behind, .inr ⟨.inl ?_, hfault⟩⟩
      exact cons_mem_token_mul.2 ⟨hless, _, hminus, rfl⟩
  · rename_i harrow
    subst hp
    obtain ⟨rest, hahead⟩ := Cursor.exists_ahead_of_peek (c := c) (by simp [harrow])
    rw [bind_of_ok (p := Parser.advance) rfl, Cursor.advance_eq_behind hahead] at h
    rcases bind_eq_error.1 h with h | ⟨n, c₁, -, h⟩
    · obtain ⟨t, more, hrest, rfl, hfault⟩ := negatedNumber?_of_error
        (fun t ht => hlexemes t (by simp_all)) h
      obtain rfl : rest = t :: more := hrest
      exact ⟨[c.peek], t, more, hahead, Cursor.behind_behind,
        .inr ⟨.inr ⟨_, harrow, rfl⟩, hfault⟩⟩
    · cases h
  · subst hp
    cases h

/-- Behind the value nothing is refused: the closing angle is only looked for. -/
lemma openedScalar?_of_scalarTrial (h : scalarTrial c = .error fault c') :
    openedScalar? c = .error fault c' := by
  rw [scalarTrial, bind_of_ok (p := peek) rfl] at h
  rcases bind_eq_error.1 h with h | ⟨_ | v, c₁, -, hclose⟩
  · exact h
  · cases hclose
  · change (eat (.symbol .greater) >>= _) c₁ = _ at hclose
    by_cases hgreater : c₁.peek.kind = .symbol .greater
    · rw [bind_of_ok (eat_of_eq hgreater)] at hclose
      cases hclose
    · rw [bind_of_ok (eat_of_ne hgreater)] at hclose
      cases hclose

/-- **Scalar literals on trial.**  Wherever the cursor stands in the tokens of a text, of which any
may be split:

* a scalar literal is read just if its tokens stand ahead and the integer among them has 64 bits,
  behind a minus sign its opposite too;
* then the cursor stands behind exactly these tokens, and the literal is what they spell, at their
  place;
* otherwise either the literal is not closed, which is reported at the token at the cursor, and
  nothing has changed, or the number behind the opening is an integer that is too large.

**Proof sketch.** What is read spells the tokens and splits none of them (`scalarLiteral_ensures`),
and the tokens of the text that spell a literal are those of the shape (`mem_scalarShape_iff`),
which are accepted.  A fault is that of the opening, or of the literal that is not closed
(`scalarLiteral_eq`). -/
theorem scalarLiteral_exact {source : String} (hc : c.Over source) :
    ((∃ l c', scalarLiteral c = .ok l c') ↔
      ∃ ts rest, c.ahead = ts ++ rest ∧ ts ∈ scalarShape IsFitting IsFittingNegated)
    ∧ (∀ l c', scalarLiteral c = .ok l c' → ∃ ts rest, c.ahead = ts ++ rest
      ∧ ts ∈ scalarShape IsFitting IsFittingNegated ∧ c' = c.behind ts rest
      ∧ ts ∈ l.spelling ∧ l.span.Covers ts)
    ∧ ∀ fault c', scalarLiteral c = .error fault c' →
      fault = .unclosedScalar c.peek.span ∧ c' = c
      ∨ ∃ front t rest, c.ahead = front ++ t :: rest ∧ c' = c.behind (front ++ [t]) rest
        ∧ (front ∈ sign .less ∧ t.RefusedInteger false fault
          ∨ front ∈ sign .less * sign .minus + sign .leftArrow ∧ t.RefusedInteger true fault) := by
  obtain ⟨hlexemes, horder⟩ := hc.ahead
  have hok : ∀ l c', scalarLiteral c = .ok l c' → ∃ ts rest, c.ahead = ts ++ rest
      ∧ ts ∈ scalarShape IsFitting IsFittingNegated ∧ c' = c.behind ts rest
      ∧ ts ∈ l.spelling ∧ l.span.Covers ts := by
    intro l c' h
    obtain ⟨ts, hread, hts, hcovers⟩ := (scalarLiteral_ensures (R := Eq) c).ok l c' h
    have hahead : c.ahead = ts ++ c'.ahead := hread.ahead
    rw [hahead] at hlexemes horder
    have hshape := (mem_scalarShape_iff (List.forall_mem_append.1 hlexemes).1).2 ⟨l, hts⟩
    exact ⟨ts, c'.ahead, hahead, hshape, hread.eq_behind, hts, hcovers horder.append.1⟩
  refine ⟨⟨?_, ?_⟩, hok, ?_⟩
  · rintro ⟨l, c', h⟩
    obtain ⟨ts, rest, hahead, hshape, -⟩ := hok l c' h
    exact ⟨ts, rest, hahead, hshape⟩
  · rintro ⟨ts, rest, hahead, hshape⟩
    rw [hahead] at hlexemes
    obtain ⟨l, hl⟩ := (mem_scalarShape_iff (List.forall_mem_append.1 hlexemes).1).1 hshape
    obtain ⟨l', -, hread⟩ := scalarLiteral_accepts hl c hahead
    exact ⟨l', _, hread⟩
  · intro fault c' h
    rw [scalarLiteral_eq] at h
    split at h
    · cases h
    · obtain ⟨rfl, rfl⟩ := EStateM.Result.error.inj h
      exact .inl ⟨rfl, rfl⟩
    · rename_i htrial
      obtain ⟨rfl, rfl⟩ := EStateM.Result.error.inj h
      exact .inr (openedScalar?_of_error hlexemes (openedScalar?_of_scalarTrial htrial))

/-- Where the arrow behind a name is split, a negative number stands between angles. -/
theorem scalarLiteral_exact_split :
    let c := ((Session.ofSource "x<-2>").run [.advance, .splitArrow]).cursor
    c.Over "x<-2>" ∧ ∃ l c', scalarLiteral c = .ok l c' := by
  intro c
  have hc : c.Over "x<-2>" := Session.over_run _ _
  have hahead : c.ahead = [⟨.symbol .less, "<", ⟨1, 2, 1, 2⟩⟩, ⟨.int, "-2", ⟨1, 3, 2, 4⟩⟩]
      ++ [⟨.symbol .greater, ">", ⟨1, 5, 4, 5⟩⟩] := by decide
  have hnumber : (⟨.int, "-2", ⟨1, 3, 2, 4⟩⟩ : Token).IsFitting := ⟨rfl, fun _ => by decide⟩
  have hopened : [⟨.symbol .less, "<", ⟨1, 2, 1, 2⟩⟩, ⟨.int, "-2", ⟨1, 3, 2, 4⟩⟩]
      ∈ sign .less * (chain + token IsFitting + sign .minus * token IsFittingNegated) :=
    cons_mem_token_mul.2 ⟨rfl, .inl (.inr ⟨_, hnumber, rfl⟩)⟩
  exact ⟨hc, (scalarLiteral_exact hc).1.2 ⟨c.ahead, [], (List.append_nil _).symm,
    hahead ▸ append_singleton_mem (.inl hopened) rfl⟩⟩

end Parser

end RakeLang
