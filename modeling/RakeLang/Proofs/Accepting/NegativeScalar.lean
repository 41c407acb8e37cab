import RakeLang.Proofs.Accepting.Expression
import RakeLang.Proofs.Mirroring.Split
import RakeLang.Proofs.Settling.SourceFile

/-!
# Negative numbers between angles

A negative number between angles can be written in three ways.  The minus sign stands right behind
the angle, and the two are one token; or right in front of the number, which then has a sign; or by
itself.  Where the sign belongs to the number, the value is read with it.  In the other two
spellings the number is read without its sign and the opposite is taken, so that the number needs a
value of its own.

Integers have 64 bits, and of the smallest one the opposite needs more.  So the spellings say the
same of every number but `9223372036854775808`, which only the spelling that reads the sign
together with the number accepts.

## Main definitions

* `RakeLang.negativeScalars` — the spellings of a negative number between angles.
* `RakeLang.SpellingsAgree` — texts that are all the same scalar literal, or all refused.

## Main results

* `RakeLang.Parser.expression_of_openedScalar?` — an expression that is a scalar literal.
* `RakeLang.spellingsAgree_negativeScalars_iff` — for which numbers the spellings agree.
-/

set_option relaxedAutoImplicit false
set_option autoImplicit false

namespace RakeLang

open Token

/-! ## Numerals and their opposites -/

namespace Numeral

open Lexeme

variable {text digits : List Char}

/-- The value of a row of digits. -/
def magnitude (number : String) : Nat := Nat.ofDigitChars 10 number.toList 0

/-- An integer that fits, and nothing for any other. -/
def fitted (v : Int) : Option Int := if fits v then some v else none

/-- The integers that fit are those between the two bounds. -/
lemma fits_iff {v : Int} :
    fits v = true ↔ -9223372036854775808 ≤ v ∧ v ≤ 9223372036854775807 := by
  simp only [fits, Bool.and_eq_true, decide_eq_true_eq]
  exact Iff.rfl

/-- An integer that fits is kept. -/
lemma fitted_of_fits {v : Int} (h : -9223372036854775808 ≤ v ∧ v ≤ 9223372036854775807) :
    fitted v = some v :=
  if_pos (fits_iff.2 h)

/-- An integer that does not fit is none. -/
lemma fitted_of_not {v : Int} (h : ¬(-9223372036854775808 ≤ v ∧ v ≤ 9223372036854775807)) :
    fitted v = none :=
  if_neg fun hfits => h (fits_iff.1 hfits)

/-- A text that begins with a digit has no sign. -/
lemma unsigned_of_isDigit {c : Char} {cs : List Char} (hc : c.isDigit = true) :
    unsigned (c :: cs) = (false, c :: cs) := by
  obtain ⟨hplus, hminus⟩ := ne_sign_of_isDigit hc
  simp [unsigned, hminus, hplus]

/-- Digits are read as a natural number. -/
lemma readNat?_of_isDigits (h : IsDigits digits) :
    readNat? digits = some (Nat.ofDigitChars 10 digits 0) := by
  have hall : digits.all Char.isDigit = true :=
    List.all_eq_true.2 fun c hc => isDigit_iff.2 (h.2 c hc)
  have hne : digits.isEmpty = false := by simpa using h.1
  simp [readNat?, hall, hne]

/-- A sign or none in front of digits. -/
lemma unsigned_append {sgn : List Char} (hsign : sgn = [] ∨ sgn = ['+'] ∨ sgn = ['-'])
    (h : IsDigits digits) : ∃ negative, unsigned (sgn ++ digits) = (negative, digits) := by
  obtain ⟨d, ds, rfl⟩ := List.exists_cons_of_ne_nil h.1
  rcases hsign with rfl | rfl | rfl
  · exact ⟨false, unsigned_of_isDigit (isDigit_iff.2 (h.2 d (by simp)))⟩
  · exact ⟨false, by simp [unsigned]⟩
  · exact ⟨true, by simp [unsigned]⟩

/-- The value of an integer without a sign. -/
lemma readInt?_of_isNumber {number : String} (h : IsNumber .int number.toList) :
    readInt? number = fitted (magnitude number) := by
  cases h with
  | int hwhole =>
    obtain ⟨c, cs, hcs⟩ := List.exists_cons_of_ne_nil hwhole.1
    have hc : c.isDigit = true := isDigit_iff.2 (hwhole.2 c (by simp [hcs]))
    have hunsigned : unsigned number.toList = (false, number.toList) := by
      rw [hcs]
      exact unsigned_of_isDigit hc
    simp only [readInt?, hunsigned, readNat?_of_isDigits hwhole, Option.bind_some]
    rfl

/-- The value of an integer with a minus sign in front of it. -/
lemma readInt?_neg_of_isNumber {number : String} (h : IsNumber .int number.toList) :
    readInt? ("-" ++ number) = fitted (-magnitude number) := by
  cases h with
  | int hwhole =>
    have hunsigned : unsigned ("-" ++ number).toList = (true, number.toList) := by
      simp [unsigned]
    simp only [readInt?, hunsigned, readNat?_of_isDigits hwhole, Option.bind_some]
    rfl

/-- Every exponent has a value. -/
lemma exists_readExponent? (h : IsExponent text) : ∃ e, readExponent? text = some e := by
  cases h with
  | none => exact ⟨0, rfl⟩
  | some hletter hsign hdigits =>
    obtain ⟨negative, hunsigned⟩ := unsigned_append hsign hdigits
    exact ⟨withSign negative _, by
      simp [readExponent?, hletter, hunsigned, readNat?_of_isDigits hdigits]; rfl⟩

/-- No exponent begins with a digit. -/
lemma span_isDigit_of_isExponent (h : IsExponent text) :
    text.takeWhile Char.isDigit = [] ∧ text.dropWhile Char.isDigit = text := by
  cases h with
  | none => exact ⟨rfl, rfl⟩
  | some hletter =>
    rcases hletter with rfl | rfl
    · exact ⟨rfl, rfl⟩
    · exact ⟨rfl, rfl⟩

/-- Every float has digits and an exponent, whatever its sign.

**Proof sketch.** The digits before the point end at the point, and those behind it at the letter of
the exponent or at the end.  The exponent is read by itself (`exists_readExponent?`). -/
lemma exists_readDecimal? (h : IsNumber .float text) :
    ∃ (digits : Nat) (exponent : Int), ∀ (source : String) (negative : Bool),
      unsigned source.toList = (negative, text) →
        readDecimal? source = some ⟨negative, digits, exponent⟩ := by
  cases h with
  | @float whole fraction exponent hwhole hfraction hexponent =>
    obtain ⟨e, he⟩ := exists_readExponent? hexponent
    have hdigit {cs : List Char} (hcs : ∀ c ∈ cs, Digit c) : ∀ c ∈ cs, c.isDigit = true :=
      fun c hc => isDigit_iff.2 (hcs c hc)
    obtain ⟨htake, hdrop⟩ := span_isDigit_of_isExponent hexponent
    have hfrac : (fraction ++ exponent).takeWhile Char.isDigit = fraction := by
      rw [List.takeWhile_append_of_pos (hdigit hfraction), htake, List.append_nil]
    have hexp : (fraction ++ exponent).dropWhile Char.isDigit = exponent := by
      rw [List.dropWhile_append_of_pos (hdigit hfraction), hdrop]
    have hpoint : (whole ++ '.' :: (fraction ++ exponent)).takeWhile Char.isDigit = whole :=
      digits_append_cons hwhole.2 (by decide)
    have hrest : (whole ++ '.' :: (fraction ++ exponent)).dropWhile Char.isDigit
        = '.' :: (fraction ++ exponent) := by
      rw [List.dropWhile_append_of_pos (hdigit hwhole.2)]
      rfl
    have hne : whole.isEmpty = false := by simpa using hwhole.1
    refine ⟨Nat.ofDigitChars 10 (whole ++ fraction) 0, e - fraction.length,
      fun source negative hsource => ?_⟩
    simp only [readDecimal?, hsource, hpoint, hrest, readFraction, hfrac, hexp, he, hne,
      Bool.false_and, Bool.false_eq_true, if_false, Option.map_some]

/-- Every float has a value, and with a minus sign in front of it the opposite one. -/
lemma exists_readFloat? {number : String} (h : IsNumber .float number.toList) :
    ∃ v, readFloat? number = some v ∧ readFloat? ("-" ++ number) = some (-v) := by
  obtain ⟨c, cs, hcs, hc⟩ := h.exists_cons
  obtain ⟨digits, exponent, hread⟩ := exists_readDecimal? h
  have hplain : readDecimal? number = some ⟨false, digits, exponent⟩ :=
    hread number false (by rw [hcs]; exact unsigned_of_isDigit hc)
  have hsigned : readDecimal? ("-" ++ number) = some ⟨true, digits, exponent⟩ :=
    hread ("-" ++ number) true (by simp [unsigned])
  exact ⟨_, by rw [readFloat?, hplain, Option.map_some], by
    rw [readFloat?, hsigned, Option.map_some]
    rfl⟩

end Numeral

/-! ## Lexemes before a closing angle -/

namespace Lexeme

variable {kind : Kind} {text rest : List Char}

/-- Before a closing angle, the whole number is read.

**Proof sketch.** The angle is no digit and no letter of an exponent, so that neither the digits
nor the exponent go on with it. -/
lemma IsNumber.number_append_greater (h : IsNumber kind text) :
    number (text ++ '>' :: rest) = (kind, text) := by
  have hgreater : ('>' : Char).isDigit = false := by decide
  cases h with
  | int hwhole => simp [number, digits_append_cons hwhole.2 hgreater]
  | @float whole fraction exp hwhole hfraction hexponent =>
    have htext : whole ++ '.' :: (fraction ++ exp) ++ '>' :: rest
        = whole ++ '.' :: (fraction ++ (exp ++ '>' :: rest)) := by simp
    have hdigits : digits (whole ++ '.' :: (fraction ++ (exp ++ '>' :: rest))) = whole :=
      digits_append_cons hwhole.2 (by decide)
    obtain ⟨hfrac, hexp⟩ : digits (fraction ++ (exp ++ '>' :: rest)) = fraction
        ∧ exponent (exp ++ '>' :: rest) = exp := by
      cases hexponent with
      | none => exact ⟨digits_append_cons hfraction hgreater, rfl⟩
      | @some letter sgn ds hletter hsign hds =>
        have hnot : letter.isDigit = false := by rcases hletter with rfl | rfl <;> decide
        have hread : sign (sgn ++ (ds ++ '>' :: rest)) = sgn := sign_append_digits hsign hds
        have hds' : digits (ds ++ '>' :: rest) = ds := digits_append_cons hds.2 hgreater
        refine ⟨digits_append_cons hfraction hnot, ?_⟩
        simp [exponent, hletter, hread, hds', hds.1]
    rw [htext]
    simp only [number, hdigits, List.drop_left, hfrac, hexp]

/-- A number begins with a digit, whatever follows. -/
lemma IsNumber.startsWith_append (h : IsNumber kind text) (rest : List Char) :
    startsWith Char.isDigit (text ++ rest) = true := by
  obtain ⟨c, cs, rfl, hc⟩ := h.exists_cons
  exact hc

/-- A number is an integer or a float. -/
lemma IsNumber.kind_cases (h : IsNumber kind text) : kind = .int ∨ kind = .float := by
  cases h
  · exact .inl rfl
  · exact .inr rfl

/-- The longest lexeme at an angle and a minus sign is the arrow. -/
lemma longest?_leftArrow {b : Bool} {cs : List Char} :
    longest? b ('<' :: '-' :: cs) = some (.symbol .leftArrow, ['<', '-']) := by
  simp [longest?, isNameStart, symbol?, Symbol.all, Symbol.chars, List.find?, List.isPrefixOf]

end Lexeme

/-! ## Refused expressions -/

namespace Parser

section Refused

variable {inner : Parser Expression} {fault : Fault} {c c₁ : Cursor}

/-- Can a scalar literal begin at the cursor? -/
def AtAngle (c : Cursor) : Prop :=
  c.peek.kind = .symbol .less ∨ c.peek.kind = .symbol .leftArrow

/-- At an angle, the fault of an operand is that of a scalar literal.

**Proof sketch.** An angle is no unary operator and opens no other primary expression than a
scalar literal, so that the readers around it pass the fault on. -/
lemma operand_of_atAngle (hopen : AtAngle c) (h : scalarLiteral c = .error fault c₁) :
    operand .full inner c = .error fault c₁ := by
  have hoperator : unaryOperator? c = .ok none c := by
    rw [unaryOperator?, bind_of_ok (p := peekKind) rfl]
    rcases hopen with hkind | hkind
    all_goals
      rw [hkind]
      rfl
  have hprimary : primary inner c = .error fault c₁ := by
    rw [primary, bind_of_ok (p := peekKind) rfl]
    rcases hopen with hkind | hkind
    all_goals
      rw [hkind]
      exact bind_of_error h
  have hnone : many unaryOperator? c = .ok [] c := bind_eq_ok.2 ⟨none, c, hoperator, rfl⟩
  rw [operand, prefixed, bind_of_ok hnone]
  refine bind_of_error ?_
  rw [bareOperand, bind_of_ok (p := peekKind) rfl]
  rcases hopen with hkind | hkind
  all_goals
    rw [hkind]
    exact bind_of_error hprimary

/-- At an angle, the fault of an expression is that of what stands behind the angle. -/
theorem expression_of_openedScalar? (hopen : AtAngle c)
    (h : openedScalar? c = .error fault c₁) : expression c = .error fault c₁ := by
  obtain ⟨n, hn⟩ : ∃ n, c.remaining = n + 1 := by
    refine Nat.exists_eq_succ_of_ne_zero fun hzero => ?_
    have hkind := Cursor.peek_kind_of_ahead_nil (Cursor.ahead_eq_nil_of_remaining hzero)
    rcases hopen with hless | harrow
    · simp [hless] at hkind
    · simp [harrow] at hkind
  have htrial : scalarTrial c = .error fault c₁ := by
    rw [scalarTrial, bind_of_ok (p := peek) rfl, bind_of_error h]
  have hscalar : scalarLiteral c = .error fault c₁ := by rw [scalarLiteral, htrial]
  rw [expression, hn, expressionUpTo, expressionWith]
  exact binary_of_error (operand_of_atAngle hopen hscalar) Level.all

/-- A number that has no value is refused.

**Proof sketch.** By cases on the two kinds of a number.  In each the token is consumed before its
lexeme is read, so the fault is raised behind the token; that the lexeme has no value is the
hypothesis, with the kind put in. -/
lemma number?_of_none (hkind : c.peek.kind.isNumber = true) (h : c.peek.number? = none) :
    number? c = .error (.numeral c.peek.lexeme c.peek.span) c.advance := by
  unfold Kind.isNumber at hkind
  rw [number?, bind_of_ok (p := peekKind) rfl]
  split at hkind
  · rename_i hint
    have hnone : Numeral.readInt? c.peek.lexeme = none := by
      simpa [Token.number?, hint] using h
    rw [hint]
    refine bind_of_error ?_
    rw [intLiteral, bind_of_ok (expect_of_eq hint), hnone]
    rfl
  · rename_i hfloat
    have hnone : Numeral.readFloat? c.peek.lexeme = none := by
      simpa [Token.number?, hfloat] using h
    rw [hfloat]
    refine bind_of_error ?_
    rw [floatLiteral, bind_of_ok (expect_of_eq hfloat), hnone]
    rfl
  · cases hkind

/-- Behind an arrow, a number is read without its sign. -/
lemma openedScalar?_of_arrow (harrow : c.peek.kind = .symbol .leftArrow)
    (h : number? c.advance = .error fault c₁) : openedScalar? c = .error fault c₁ := by
  rw [openedScalar?, bind_of_ok (p := peekKind) rfl, harrow]
  refine (bind_of_ok (p := Parser.advance) rfl).trans (bind_of_error ?_)
  exact bind_of_error h

/-- Behind an angle, what is read is the value. -/
lemma openedScalar?_of_less (hless : c.peek.kind = .symbol .less)
    (h : scalarValue? c.advance = .error fault c₁) : openedScalar? c = .error fault c₁ := by
  rw [openedScalar?, bind_of_ok (p := peekKind) rfl, hless]
  exact (bind_of_ok (p := Parser.advance) rfl).trans h

/-- A scalar value that begins with a number meets the fault of the number. -/
lemma scalarValue?_of_number (hkind : c.peek.kind.isNumber = true)
    (h : number? c = .error fault c₁) : scalarValue? c = .error fault c₁ := by
  rw [scalarValue?, bind_of_ok (p := peekKind) rfl]
  unfold Kind.isNumber at hkind
  split at hkind
  · rename_i hint
    rw [hint]
    exact bind_of_error h
  · rename_i hfloat
    rw [hfloat]
    exact bind_of_error h
  · cases hkind

/-- A scalar value that begins with a minus sign meets the fault of the number behind it. -/
lemma scalarValue?_of_minus (hminus : c.peek.kind = .symbol .minus)
    (h : number? c.advance = .error fault c₁) : scalarValue? c = .error fault c₁ := by
  rw [scalarValue?, bind_of_ok (p := peekKind) rfl, hminus]
  refine (bind_of_ok (p := Parser.advance) rfl).trans (bind_of_error ?_)
  exact bind_of_error h

end Refused

end Parser

/-! ## The spellings -/

section Spellings

variable {kind : Kind} {number source : String} {value : Number}

/-- The spellings of a negative number between angles: the minus sign joins the angle, or the
number, or neither. -/
def negativeScalars (number : String) : List String :=
  ["<-" ++ number ++ ">", "< -" ++ number ++ ">", "< - " ++ number ++ ">"]

/-- A statement about all spellings is one about each of the three. -/
lemma forall_negativeScalars {P : String → Prop} :
    (∀ source ∈ negativeScalars number, P source) ↔
      P ("<-" ++ number ++ ">") ∧ P ("< -" ++ number ++ ">") ∧ P ("< - " ++ number ++ ">") := by
  simp [negativeScalars]

/-- The text as a whole is a scalar literal of the number. -/
def IsScalar (source : String) (value : Number) : Prop :=
  ∃ span, parseExpression source = .ok (.scalar ⟨.number value, span⟩)

/-- The text is refused for a number without a value. -/
def LacksValue (source : String) : Prop :=
  ∃ lexeme span, parseExpression source = .error (.numeral lexeme span)

/-- The texts are all scalar literals of the same number, or all are refused. -/
def SpellingsAgree (sources : List String) : Prop :=
  (∃ value, ∀ source ∈ sources, IsScalar source value)
    ∨ ∀ source ∈ sources, ∃ fault, parseExpression source = .error fault

/-- A text that is refused is no scalar literal. -/
lemma LacksValue.not_isScalar (h : LacksValue source) : ¬IsScalar source value := by
  obtain ⟨lexeme, span, herror⟩ := h
  rintro ⟨_, hok⟩
  cases herror.symm.trans hok

namespace Lexer

/-- A closing angle at the end of a text is lexed as such. -/
lemma yields_greater (b : Bool) : Yields b ['>'] [(.symbol .greater, ">"), (.eof, "")] := by
  have hgreater : Lexeme.longest? b (['>'] ++ []) = some (.symbol .greater, ['>']) := by
    cases b <;> rfl
  exact Yields.cons hgreater (.done (.nil (by simp) (by simp)))

/-- A number and a closing angle. -/
lemma yields_number (h : Lexeme.IsNumber kind number.toList) (b : Bool) :
    Yields b (number.toList ++ ['>'])
      [(kind, number), (.symbol .greater, ">"), (.eof, "")] := by
  have hlongest := Lexeme.longest?_of_startsWith (h.startsWith_append ['>']) b
  rw [h.number_append_greater] at hlongest
  simpa using Yields.cons hlongest (yields_greater _)

/-- A number with a sign, and a closing angle. -/
lemma yields_signedNumber (h : Lexeme.IsNumber kind number.toList) :
    Yields false ('-' :: (number.toList ++ ['>']))
      [(kind, "-" ++ number), (.symbol .greater, ">"), (.eof, "")] := by
  have hlongest := Lexeme.longest?_sign (h.startsWith_append ['>'])
  rw [h.number_append_greater] at hlongest
  have hsigned : Lexeme.longest? false (('-' :: number.toList) ++ ['>'])
      = some (kind, '-' :: number.toList) := hlongest
  simpa using Yields.cons hsigned (yields_greater _)

end Lexer

/-- The tokens of a text in front of the end of the input. -/
lemma exists_of_yields {contents : List (Kind × String)}
    (h : Lexer.Yields false source.toList (contents ++ [(.eof, "")])) :
    ∃ ts eof, tokenize source = .ok (ts ++ [eof]) ∧ eof.kind = .eof
      ∧ ts.map Token.content = contents := by
  obtain ⟨ts, htokens, hcontents⟩ := h.tokenize
  obtain ⟨us, last, rfl, hus, hlast⟩ := List.map_eq_append_iff.1 hcontents
  obtain ⟨eof, rfl, heof⟩ := List.map_eq_singleton_iff.1 hlast
  exact ⟨us, eof, htokens, (Prod.mk.inj heof).1, hus⟩

/-- The tokens of the spelling in which the minus sign joins the angle. -/
lemma tokenize_joinedAngle (h : Lexeme.IsNumber kind number.toList) :
    ∃ ts eof, tokenize ("<-" ++ number ++ ">") = .ok (ts ++ [eof]) ∧ eof.kind = .eof
      ∧ ts.map Token.content
        = [(.symbol .leftArrow, "<-"), (kind, number), (.symbol .greater, ">")] := by
  refine exists_of_yields ?_
  have harrow : Lexeme.longest? false (['<', '-'] ++ (number.toList ++ ['>']))
      = some (.symbol .leftArrow, ['<', '-']) := Lexeme.longest?_leftArrow
  simpa using Lexer.Yields.cons harrow (Lexer.yields_number h _)

/-- The tokens of the spelling in which the minus sign joins the number. -/
lemma tokenize_joinedNumber (h : Lexeme.IsNumber kind number.toList) :
    ∃ ts eof, tokenize ("< -" ++ number ++ ">") = .ok (ts ++ [eof]) ∧ eof.kind = .eof
      ∧ ts.map Token.content
        = [(.symbol .less, "<"), (kind, "-" ++ number), (.symbol .greater, ">")] := by
  refine exists_of_yields ?_
  have hless : Lexeme.longest? false (['<'] ++ ' ' :: '-' :: (number.toList ++ ['>']))
      = some (.symbol .less, ['<']) := Lexeme.longest?_less
  simpa using Lexer.Yields.cons hless (Lexer.yields_signedNumber h).space

/-- The tokens of the spelling in which the minus sign stands by itself. -/
lemma tokenize_apart (h : Lexeme.IsNumber kind number.toList) :
    ∃ ts eof, tokenize ("< - " ++ number ++ ">") = .ok (ts ++ [eof]) ∧ eof.kind = .eof
      ∧ ts.map Token.content = [(.symbol .less, "<"), (.symbol .minus, "-"), (kind, number),
        (.symbol .greater, ">")] := by
  refine exists_of_yields ?_
  have hless : Lexeme.longest? false (['<'] ++ ' ' :: '-' :: ' ' :: (number.toList ++ ['>']))
      = some (.symbol .less, ['<']) := Lexeme.longest?_less
  have hminus : Lexeme.longest? false (['-'] ++ ' ' :: (number.toList ++ ['>']))
      = some (.symbol .minus, ['-']) := Lexeme.longest?_minus false (by decide) (by decide)
  have hyields := Lexer.Yields.cons hminus (Lexer.yields_number h _).space
  simpa using Lexer.Yields.cons hless hyields.space

/-! ## What the spellings say -/

/-- A text that is spelled like a scalar literal is one.

**Proof sketch.** The scalar literal is a canonical expression, so that its spelling is read as
a whole (`Parser.expression_accepts`); and no other expression is the same without spans. -/
lemma isScalar_of_mem {ts : List Token} {eof : Token} (h : tokenize source = .ok (ts ++ [eof]))
    (heof : eof.kind = .eof) (hts : ts ∈ (⟨.number value, .origin⟩ : ScalarLiteral).spelling) :
    IsScalar source value := by
  have hcan : (Expression.scalar ⟨.number value, .origin⟩).Canonical := by
    simp [Expression.Canonical, Expression.Everywhere, Expression.Ranked, Expression.Furnished]
  have hspelled : ts ∈ (Expression.scalar ⟨.number value, .origin⟩).spelling := by
    rwa [Expression.spelling]
  have hends : EndsExpression [] := endsExpression_of_headKind (by simp)
  obtain ⟨e, he, hread⟩ := Parser.expression_accepts hcan hspelled hends (.ofTokens (ts ++ [eof]))
    (by rw [Cursor.ofTokens_append heof, List.append_nil])
  have hwhole : parseExpression source = .ok e :=
    parseWith_eq_ok_iff.2 ⟨_, h, _, Parser.wholeInput_eq_ok_iff.2
      ⟨hread, by rw [Cursor.ofTokens_append heof]; exact heof⟩⟩
  cases e with
  | scalar literal =>
    obtain ⟨v, span⟩ := literal
    simp only [Expression.withoutSpans, ScalarLiteral.withoutSpans, Expression.scalar.injEq,
      ScalarLiteral.mk.injEq, and_true] at he
    exact ⟨span, he ▸ hwhole⟩
  | _ => simp [Expression.withoutSpans] at he

/-- A text that is refused behind the opening angle, for a number without a value. -/
lemma lacksValue_of_openedScalar? {ts : List Token} {eof : Token}
    (h : tokenize source = .ok (ts ++ [eof])) (heof : eof.kind = .eof)
    (hopen : Parser.AtAngle ⟨[], ts, eof, heof⟩)
    (hrefused : ∃ lexeme span c₁,
      Parser.openedScalar? ⟨[], ts, eof, heof⟩ = .error (.numeral lexeme span) c₁) :
    LacksValue source := by
  obtain ⟨lexeme, span, c₁, hrefused⟩ := hrefused
  have hwhole : Parser.expression.wholeInput ⟨[], ts, eof, heof⟩
      = .error (.numeral lexeme span) c₁ :=
    Parser.bind_of_error (Parser.expression_of_openedScalar? hopen hrefused)
  refine ⟨lexeme, span, ?_⟩
  simp [parseExpression, parseWith, h, Except.bind, Cursor.ofTokens_append heof, hwhole]

/-- The number of a kind and a text. -/
def numberOf (kind : Kind) (lexeme : String) : Option Number :=
  (⟨kind, lexeme, .origin⟩ : Token).number?

/-- The number that a token spells is that of its kind and its text. -/
lemma numberOf_eq {t : Token} {lexeme : String} (h : t.content = (kind, lexeme)) :
    t.number? = numberOf kind lexeme := by
  obtain ⟨rfl, rfl⟩ := Prod.mk.inj h
  rfl

/-- Where the minus sign joins the angle, the number is read without it.

**Proof sketch.** Lexing gives an arrow, a number and a closing angle.  If the number has a value
whose opposite exists, the arrow and the number spell that opposite.  If it has none, reading the
number is refused behind the arrow already, and `lacksValue_of_openedScalar?` carries the refusal to
every entry point. -/
lemma joinedAngle_spec (h : Lexeme.IsNumber kind number.toList) :
    (∀ m value, numberOf kind number = some m → m.negate? = some value →
      IsScalar ("<-" ++ number ++ ">") value)
      ∧ (numberOf kind number = none → LacksValue ("<-" ++ number ++ ">")) := by
  obtain ⟨ts, eof, htokens, heof, hcontents⟩ := tokenize_joinedAngle h
  simp only [List.map_eq_cons_iff, List.map_eq_nil_iff] at hcontents
  obtain ⟨arrow, _, rfl, harrow, t, _, rfl, ht, greater, _, rfl, hgreater, rfl⟩ := hcontents
  have harrow := (Prod.mk.inj harrow).1
  have hgreater := (Prod.mk.inj hgreater).1
  refine ⟨fun m value hm hneg => isScalar_of_mem htokens heof ?_, fun hnone => ?_⟩
  · have ht' : t.number? = some m := (numberOf_eq ht).trans hm
    have hvalue : [arrow, t] ∈ (ScalarValue.number value).spelling :=
      .inr (Spelling.cons_mem_token_mul.2 ⟨harrow, Spelling.singleton_mem_token.2 ⟨m, ht', hneg⟩⟩)
    exact Spelling.append_singleton_mem hvalue hgreater
  · have hkind : t.kind.isNumber = true := (Prod.mk.inj ht).1 ▸ h.isNumber
    have ht' : t.number? = none := (numberOf_eq ht).trans hnone
    exact lacksValue_of_openedScalar? htokens heof (.inr harrow)
      ⟨_, _, _, Parser.openedScalar?_of_arrow harrow (Parser.number?_of_none hkind ht')⟩

/-- Where the minus sign joins the number, the number is read with it.

**Proof sketch.** As in `joinedAngle_spec`, with an angle in place of the arrow and a number
whose lexeme carries the sign: here the value that is read is the value of the signed lexeme, with
no opposite taken. -/
lemma joinedNumber_spec (h : Lexeme.IsNumber kind number.toList) :
    (∀ value, numberOf kind ("-" ++ number) = some value →
      IsScalar ("< -" ++ number ++ ">") value)
      ∧ (numberOf kind ("-" ++ number) = none → LacksValue ("< -" ++ number ++ ">")) := by
  obtain ⟨ts, eof, htokens, heof, hcontents⟩ := tokenize_joinedNumber h
  simp only [List.map_eq_cons_iff, List.map_eq_nil_iff] at hcontents
  obtain ⟨less, _, rfl, hless, t, _, rfl, ht, greater, _, rfl, hgreater, rfl⟩ := hcontents
  have hless := (Prod.mk.inj hless).1
  have hgreater := (Prod.mk.inj hgreater).1
  refine ⟨fun value hvalue => isScalar_of_mem htokens heof ?_, fun hnone => ?_⟩
  · have ht' : t.number? = some value := (numberOf_eq ht).trans hvalue
    have hvalue : [less, t] ∈ (ScalarValue.number value).spelling :=
      .inl (Spelling.cons_mem_token_mul.2 ⟨hless, .inl (Spelling.singleton_mem_token.2 ht')⟩)
    exact Spelling.append_singleton_mem hvalue hgreater
  · have hkind : t.kind.isNumber = true := (Prod.mk.inj ht).1 ▸ h.isNumber
    have ht' : t.number? = none := (numberOf_eq ht).trans hnone
    exact lacksValue_of_openedScalar? htokens heof (.inl hless)
      ⟨_, _, _, Parser.openedScalar?_of_less hless
        (Parser.scalarValue?_of_number hkind (Parser.number?_of_none hkind ht'))⟩

/-- Where the minus sign stands by itself, the number is read without it.

**Proof sketch.** As in `joinedAngle_spec`, with the angle and the minus sign as two tokens.  The
second half goes through `openedScalar?_of_less`, since the sign is met only once the angle is
behind. -/
lemma apart_spec (h : Lexeme.IsNumber kind number.toList) :
    (∀ m value, numberOf kind number = some m → m.negate? = some value →
      IsScalar ("< - " ++ number ++ ">") value)
      ∧ (numberOf kind number = none → LacksValue ("< - " ++ number ++ ">")) := by
  obtain ⟨ts, eof, htokens, heof, hcontents⟩ := tokenize_apart h
  simp only [List.map_eq_cons_iff, List.map_eq_nil_iff] at hcontents
  obtain ⟨less, _, rfl, hless, minus, _, rfl, hminus, t, _, rfl, ht, greater, _, rfl, hgreater,
    rfl⟩ := hcontents
  have hless := (Prod.mk.inj hless).1
  have hminus := (Prod.mk.inj hminus).1
  have hgreater := (Prod.mk.inj hgreater).1
  refine ⟨fun m value hm hneg => isScalar_of_mem htokens heof ?_, fun hnone => ?_⟩
  · have ht' : t.number? = some m := (numberOf_eq ht).trans hm
    have hopposite : [minus, t] ∈ Spelling.sign .minus * value.oppositeSpelling :=
      Spelling.cons_mem_token_mul.2 ⟨hminus, Spelling.singleton_mem_token.2 ⟨m, ht', hneg⟩⟩
    have hvalue : [less, minus, t] ∈ (ScalarValue.number value).spelling :=
      .inl (Spelling.cons_mem_token_mul.2 ⟨hless, .inr hopposite⟩)
    exact Spelling.append_singleton_mem hvalue hgreater
  · have hkind : t.kind.isNumber = true := (Prod.mk.inj ht).1 ▸ h.isNumber
    have ht' : t.number? = none := (numberOf_eq ht).trans hnone
    exact lacksValue_of_openedScalar? htokens heof (.inl hless)
      ⟨_, _, _, Parser.openedScalar?_of_less hless
        (Parser.scalarValue?_of_minus hminus (Parser.number?_of_none hkind ht'))⟩

/-! ## Where the spellings agree -/

/-- A float has an opposite in every spelling. -/
lemma isScalar_of_float (h : Lexeme.IsNumber .float number.toList) :
    ∃ v, Numeral.readFloat? number = some v
      ∧ ∀ source ∈ negativeScalars number, IsScalar source (.float (-v)) := by
  obtain ⟨v, hplain, hsigned⟩ := Numeral.exists_readFloat? h
  have hnumber : numberOf .float number = some (.float v) := by
    simp [numberOf, Token.number?, hplain]
  have hopposite : numberOf .float ("-" ++ number) = some (.float (-v)) := by
    simp [numberOf, Token.number?, hsigned]
  exact ⟨v, hplain, forall_negativeScalars.2 ⟨(joinedAngle_spec h).1 _ _ hnumber rfl,
    (joinedNumber_spec h).1 _ hopposite, (apart_spec h).1 _ _ hnumber rfl⟩⟩

section Integers

variable (h : Lexeme.IsNumber .int number.toList)

include h

/-- The digits of an integer are read as their magnitude, and behind a minus sign as its opposite;
both only if they fit. -/
lemma numberOf_int :
    numberOf .int number = (Numeral.fitted (Numeral.magnitude number)).map .int
      ∧ numberOf .int ("-" ++ number)
        = (Numeral.fitted (-Numeral.magnitude number)).map .int := by
  simp [numberOf, Token.number?, Numeral.readInt?_of_isNumber h,
    Numeral.readInt?_neg_of_isNumber h]

/-- An integer that fits has an opposite in every spelling. -/
lemma isScalar_of_lt (hlt : Numeral.magnitude number < 2 ^ 63) :
    ∀ source ∈ negativeScalars number, IsScalar source (.int (-Numeral.magnitude number)) := by
  obtain ⟨hnumber, hopposite⟩ := numberOf_int h
  rw [Numeral.fitted_of_fits (by omega), Option.map_some] at hnumber hopposite
  have hneg : (Number.int (Numeral.magnitude number)).negate?
      = some (.int (-Numeral.magnitude number)) := by
    rw [Number.negate?, if_pos (Numeral.fits_iff.2 (by omega))]
  exact forall_negativeScalars.2 ⟨(joinedAngle_spec h).1 _ _ hnumber hneg,
    (joinedNumber_spec h).1 _ hopposite, (apart_spec h).1 _ _ hnumber hneg⟩

/-- An integer without a value is refused where it is read without its sign. -/
lemma lacksValue_of_le (hle : 2 ^ 63 ≤ Numeral.magnitude number) :
    LacksValue ("<-" ++ number ++ ">") ∧ LacksValue ("< - " ++ number ++ ">") := by
  have hnumber : numberOf .int number = none := by
    rw [(numberOf_int h).1, Numeral.fitted_of_not (by omega), Option.map_none]
  exact ⟨(joinedAngle_spec h).2 hnumber,
    (apart_spec h).2 hnumber⟩

/-- Where the opposite of an integer does not fit either, every spelling is refused. -/
lemma lacksValue_of_lt (hlt : 2 ^ 63 < Numeral.magnitude number) :
    ∀ source ∈ negativeScalars number, LacksValue source := by
  have hopposite : numberOf .int ("-" ++ number) = none := by
    rw [(numberOf_int h).2, Numeral.fitted_of_not (by omega), Option.map_none]
  obtain ⟨hangle, hapart⟩ := lacksValue_of_le h hlt.le
  exact forall_negativeScalars.2
    ⟨hangle, (joinedNumber_spec h).2 hopposite, hapart⟩

/-- The smallest integer is read together with its sign. -/
lemma isScalar_smallest (heq : Numeral.magnitude number = 2 ^ 63) :
    IsScalar ("< -" ++ number ++ ">") (.int Numeral.smallest) := by
  refine (joinedNumber_spec h).1 _ ?_
  rw [(numberOf_int h).2, heq]
  rfl

/-- At the smallest integer the spellings do not agree. -/
lemma not_spellingsAgree (heq : Numeral.magnitude number = 2 ^ 63) :
    ¬SpellingsAgree (negativeScalars number) := by
  obtain ⟨hangle, -⟩ := lacksValue_of_le h heq.ge
  obtain ⟨span, hread⟩ := isScalar_smallest h heq
  rintro (⟨value, hall⟩ | hall)
  · exact hangle.not_isScalar (hall _ (by simp [negativeScalars]))
  · obtain ⟨fault, hfault⟩ := hall ("< -" ++ number ++ ">") (by simp [negativeScalars])
    cases hread.symm.trans hfault

end Integers

/-- **Negative numbers between angles.**  The spellings of the opposite of a number agree, but for
the integer of which the opposite is the smallest one.

* A float is accepted in every spelling, with the opposite value.
* An integer below that one is accepted in every spelling, with the opposite value, and an integer
  beyond it in none.
* That integer itself is accepted only where the minus sign joins the number, although its opposite
  fits.

**Proof sketch.** Each spelling reads the number with the sign or without it (`joinedAngle_spec`,
`joinedNumber_spec`, `apart_spec`).  Both ways agree for floats, for integers whose opposites fit
without the sign, and for those beyond; only at the bound does the sign matter. -/
theorem spellingsAgree_negativeScalars_iff (h : Lexeme.IsNumber kind number.toList) :
    (SpellingsAgree (negativeScalars number)
        ↔ ¬(kind = .int ∧ Numeral.magnitude number = 2 ^ 63))
      ∧ (kind = .float → ∃ v, Numeral.readFloat? number = some v
        ∧ ∀ source ∈ negativeScalars number, IsScalar source (.float (-v)))
      ∧ (kind = .int → ∀ source ∈ negativeScalars number,
        (Numeral.magnitude number < 2 ^ 63 → IsScalar source (.int (-Numeral.magnitude number)))
          ∧ (2 ^ 63 < Numeral.magnitude number → LacksValue source))
      ∧ (kind = .int → Numeral.magnitude number = 2 ^ 63 →
        IsScalar ("< -" ++ number ++ ">") (.int Numeral.smallest)
          ∧ LacksValue ("<-" ++ number ++ ">") ∧ LacksValue ("< - " ++ number ++ ">")) := by
  refine ⟨⟨?_, fun hnot => ?_⟩, ?_, ?_, ?_⟩
  · rintro hagree ⟨rfl, heq⟩
    exact not_spellingsAgree h heq hagree
  · rcases h.kind_cases with rfl | rfl
    · rcases Nat.lt_trichotomy (Numeral.magnitude number) (2 ^ 63) with hlt | heq | hlt
      · exact .inl ⟨_, isScalar_of_lt h hlt⟩
      · exact absurd ⟨rfl, heq⟩ hnot
      · refine .inr fun source hsource => ?_
        obtain ⟨lexeme, span, hfault⟩ := lacksValue_of_lt h hlt source hsource
        exact ⟨_, hfault⟩
    · obtain ⟨v, -, hall⟩ := isScalar_of_float h
      exact .inl ⟨_, hall⟩
  · rintro rfl
    exact isScalar_of_float h
  · rintro rfl source hsource
    exact ⟨fun hlt => isScalar_of_lt h hlt source hsource,
      fun hlt => lacksValue_of_lt h hlt source hsource⟩
  · rintro rfl heq
    exact ⟨isScalar_smallest h heq, lacksValue_of_le h heq.ge⟩

/-- A text of digits only is an integer. -/
lemma isNumber_of_all (h : number.toList ≠ [] ∧ number.toList.all Char.isDigit = true) :
    Lexeme.IsNumber .int number.toList :=
  .int ⟨h.1, fun c hc => Lexeme.isDigit_iff.1 (List.all_eq_true.1 h.2 c hc)⟩

/-- All spellings of the opposite of one. -/
theorem spellingsAgree_negativeScalars_one :
    ¬(Kind.int = .int ∧ Numeral.magnitude "1" = 2 ^ 63) ∧ SpellingsAgree (negativeScalars "1") := by
  have hnumber : Lexeme.IsNumber .int "1".toList := isNumber_of_all (by decide)
  have hne : ¬(Kind.int = .int ∧ Numeral.magnitude "1" = 2 ^ 63) := by decide
  exact ⟨hne, (spellingsAgree_negativeScalars_iff hnumber).1.2 hne⟩

/-- The spellings of the smallest integer do not agree. -/
theorem not_spellingsAgree_smallest :
    ¬SpellingsAgree (negativeScalars "9223372036854775808") := by
  have hnumber : Lexeme.IsNumber .int "9223372036854775808".toList :=
    isNumber_of_all (by decide)
  exact not_spellingsAgree hnumber (by decide)

end Spellings

end RakeLang
