import Mathlib.Data.List.TakeWhile
import Mathlib.Tactic.Tauto
import RakeLang.Token.Lexeme

/-!
# The lexical grammar

Which texts are lexemes, and of which kind, said by shapes of texts and not by a way to read them.
The reader of lexemes answers the longest of the lexemes at the head of a text: no other lexeme
there is longer, and one of the same length has the same kind.

## Main definitions

* `RakeLang.Lexeme.IsNumber` — the numbers without a sign.
* `RakeLang.Lexeme.Matches` — the lexemes of a kind; a number has a sign only where no operand
  stands before it.
* `RakeLang.Lexeme.IsLongest` — a lexeme at the head of a text that no other one there exceeds.

## Main results

* `RakeLang.Lexeme.matches_of_longest?` — what is read is a lexeme at the head of the text.
* `RakeLang.Lexeme.exists_longest?_ge` — whatever lexeme stands at the head, one at least as long
  is read.
* `RakeLang.Lexeme.longest?_eq_some_iff`, `RakeLang.Lexeme.longest?_eq_none_iff` — the longest
  lexeme is read, and nothing is read only where there is none.
-/

set_option relaxedAutoImplicit false
set_option autoImplicit false

namespace RakeLang.Lexeme

/-! ## Characters -/

/-- A digit of a number. -/
def Digit (c : Char) : Prop := '0' ≤ c ∧ c ≤ '9'

/-- A small letter. -/
def SmallLetter (c : Char) : Prop := 'a' ≤ c ∧ c ≤ 'z'

/-- A capital letter. -/
def CapitalLetter (c : Char) : Prop := 'A' ≤ c ∧ c ≤ 'Z'

/-- A character that opens a name. -/
def OpensName (c : Char) : Prop := SmallLetter c ∨ c = '_'

/-- A character inside a name. -/
def InName (c : Char) : Prop := SmallLetter c ∨ CapitalLetter c ∨ Digit c ∨ c = '_'

/-- The digits. -/
lemma isDigit_iff {c : Char} : c.isDigit = true ↔ Digit c := by
  simp [Char.isDigit, Digit, Char.le_def]

/-- The small letters. -/
lemma isLower_iff {c : Char} : c.isLower = true ↔ SmallLetter c :=
  (Bool.and_eq_true _ _).to_iff.trans (and_congr decide_eq_true_iff decide_eq_true_iff)

/-- The capital letters. -/
lemma isUpper_iff {c : Char} : c.isUpper = true ↔ CapitalLetter c := decide_eq_true_iff

/-- The characters that open a name. -/
lemma isNameStart_iff {c : Char} : isNameStart c = true ↔ OpensName c := by
  simp [isNameStart, OpensName, isLower_iff]

/-- The characters in a name. -/
lemma isNamePart_iff {c : Char} : isNamePart c = true ↔ InName c := by
  have halpha : c.isAlpha = (c.isUpper || c.isLower) := rfl
  simp only [isNamePart, Char.isAlphanum, halpha, Bool.or_eq_true, isLower_iff, isUpper_iff,
    isDigit_iff, beq_iff_eq, InName]
  tauto

/-! ## Texts -/

/-- A row of digits, at least one. -/
def IsDigits (cs : List Char) : Prop := cs ≠ [] ∧ ∀ c ∈ cs, Digit c

/-- The part of a float behind its fraction: nothing, or the letter of the exponent, a sign or
none, and digits. -/
inductive IsExponent : List Char → Prop where
  | none : IsExponent []
  | some {letter : Char} {sign digits : List Char} (hletter : letter = 'e' ∨ letter = 'E')
      (hsign : sign = [] ∨ sign = ['+'] ∨ sign = ['-']) (hdigits : IsDigits digits) :
      IsExponent (letter :: (sign ++ digits))

/-- A number without a sign: digits, and for a float a point, further digits or none, and an
exponent or none. -/
inductive IsNumber : Kind → List Char → Prop where
  | int {whole : List Char} (hwhole : IsDigits whole) : IsNumber .int whole
  | float {whole fraction exponent : List Char} (hwhole : IsDigits whole)
      (hfraction : ∀ c ∈ fraction, Digit c) (hexponent : IsExponent exponent) :
      IsNumber .float (whole ++ '.' :: (fraction ++ exponent))

/-- The lexemes of a kind.  A word that is spelled like a keyword is one, any other word is an
identifier. -/
inductive Matches (afterOperand : Bool) : Kind → List Char → Prop where
  | keyword (word : Keyword) : Matches afterOperand (.keyword word) word.chars
  | ident {c : Char} {cs : List Char} (hstart : OpensName c) (hpart : ∀ d ∈ cs, InName d)
      (hword : ∀ word : Keyword, word.chars ≠ c :: cs) : Matches afterOperand .ident (c :: cs)
  | typeIdent {c : Char} {cs : List Char} (hstart : CapitalLetter c) (hpart : ∀ d ∈ cs, InName d) :
      Matches afterOperand .typeIdent (c :: cs)
  | tineRef {c : Char} {cs : List Char} (hstart : OpensName c) (hpart : ∀ d ∈ cs, InName d) :
      Matches afterOperand .tineRef ('#' :: c :: cs)
  | number {kind : Kind} {cs : List Char} (hnumber : IsNumber kind cs) :
      Matches afterOperand kind cs
  | signed {kind : Kind} {cs : List Char} (hbefore : afterOperand = false)
      (hnumber : IsNumber kind cs) : Matches afterOperand kind ('-' :: cs)
  | symbol (sign : Symbol) : Matches afterOperand (.symbol sign) sign.chars

/-- The text is a lexeme of the kind at the head of `cs`, and no lexeme there is longer; one that
is as long has the same kind. -/
def IsLongest (afterOperand : Bool) (cs : List Char) (kind : Kind) (text : List Char) : Prop :=
  text <+: cs ∧ Matches afterOperand kind text
    ∧ ∀ kind' text', text' <+: cs → Matches afterOperand kind' text' →
      text'.length ≤ text.length ∧ (text'.length = text.length → kind' = kind)

/-! ## Rows of characters -/

section Rows

variable {p : Char → Bool}

/-- A row of characters of a class, with anything behind it, begins what the class takes. -/
lemma prefix_takeWhile {cs text : List Char} (htext : ∀ c ∈ text, p c = true) (h : text <+: cs) :
    text <+: cs.takeWhile p := by
  obtain ⟨rest, rfl⟩ := h
  rw [List.takeWhile_append_of_pos htext]
  exact List.prefix_append _ _

/-- A row of characters of a class is all that the class takes, if another character follows. -/
lemma takeWhile_append_cons {text : List Char} {c : Char} {rest : List Char}
    (htext : ∀ c ∈ text, p c = true) (hc : p c = false) :
    (text ++ c :: rest).takeWhile p = text := by
  rw [List.takeWhile_append_of_pos htext, List.takeWhile_cons_of_neg (by simp [hc]),
    List.append_nil]

/-- An initial part goes on with an initial part of what is behind it. -/
lemma append_isPrefix {a b cs : List Char} (ha : a <+: cs) (hb : b <+: cs.drop a.length) :
    a ++ b <+: cs := by
  obtain ⟨rest, rfl⟩ := ha
  rw [List.drop_left] at hb
  exact (List.prefix_append_right_inj _).2 hb

end Rows

/-! ## Numbers -/

/-- The digits at the head of a text that begins with one are digits. -/
lemma isDigits_digits {c : Char} {cs : List Char} (hc : c.isDigit = true) :
    IsDigits (digits (c :: cs)) :=
  ⟨by simp [digits, hc], fun _ hd => isDigit_iff.1 (List.mem_takeWhile_imp hd)⟩

/-- The digits at the head of a text are the head of it. -/
lemma digits_isPrefix (cs : List Char) : digits cs <+: cs := List.takeWhile_prefix _

/-- Digits behind which no digit follows are all the digits at the head. -/
lemma digits_append_cons {whole : List Char} {c : Char} {rest : List Char}
    (hwhole : ∀ c ∈ whole, Digit c) (hc : c.isDigit = false) :
    digits (whole ++ c :: rest) = whole :=
  takeWhile_append_cons (fun d hd => isDigit_iff.2 (hwhole d hd)) hc

/-- Digits at the head of a text are among all the digits there. -/
lemma IsDigits.prefix_digits {ds cs : List Char} (hds : IsDigits ds) (h : ds <+: cs) :
    ds <+: digits cs :=
  prefix_takeWhile (fun d hd => isDigit_iff.2 (hds.2 d hd)) h

/-- The sign at the head of a text is the head of it. -/
lemma sign_isPrefix (cs : List Char) : sign cs <+: cs := by
  unfold sign
  split
  · split_ifs <;> simp
  · exact List.prefix_rfl

/-- A sign is missing, a plus sign or a minus sign. -/
lemma sign_cases (cs : List Char) : sign cs = [] ∨ sign cs = ['+'] ∨ sign cs = ['-'] := by
  unfold sign
  split
  · split_ifs with h
    · rcases h with rfl | rfl <;> simp
    · exact .inl rfl
  · exact .inl rfl

/-- A digit is no sign. -/
lemma ne_sign_of_isDigit {c : Char} (h : c.isDigit = true) : c ≠ '+' ∧ c ≠ '-' := by
  constructor
  all_goals
    rintro rfl
    exact absurd h (by decide)

/-- A sign or none in front of digits is what is read as the sign. -/
lemma sign_append_digits {sgn ds rest : List Char} (hsign : sgn = [] ∨ sgn = ['+'] ∨ sgn = ['-'])
    (hds : IsDigits ds) : sign (sgn ++ (ds ++ rest)) = sgn := by
  obtain ⟨d, ds, rfl⟩ := List.exists_cons_of_ne_nil hds.1
  obtain ⟨hplus, hminus⟩ := ne_sign_of_isDigit (isDigit_iff.2 (hds.2 d (by simp)))
  rcases hsign with rfl | rfl | rfl
  · simp [sign, hplus, hminus]
  · simp [sign]
  · simp [sign]

/-- What is read as an exponent is one, at the head of the text. -/
lemma exponent_spec (cs : List Char) : IsExponent (exponent cs) ∧ exponent cs <+: cs := by
  rcases cs with _ | ⟨letter, cs⟩
  · exact ⟨.none, List.prefix_rfl⟩
  by_cases hletter : letter = 'e' ∨ letter = 'E'
  · by_cases hempty : (digits (cs.drop (sign cs).length)).isEmpty = true
    · simp only [exponent, if_pos hletter, hempty, if_true]
      exact ⟨.none, List.nil_prefix⟩
    · simp only [exponent, if_pos hletter, if_neg hempty]
      have hne : digits (cs.drop (sign cs).length) ≠ [] := by simpa using hempty
      refine ⟨.some hletter (sign_cases cs) ⟨hne, fun d hd => ?_⟩, ?_⟩
      · exact isDigit_iff.1 (List.mem_takeWhile_imp hd)
      · exact List.cons_prefix_cons.2 ⟨rfl, append_isPrefix (sign_isPrefix cs) (digits_isPrefix _)⟩
  · simp only [exponent, if_neg hletter]
    exact ⟨.none, List.nil_prefix⟩

/-- An exponent at the head of a text is no longer than the one that is read.

**Proof sketch.** An exponent with digits is a letter, a sign and the digits.  The same sign is read
from it, since what follows the sign is a digit; the digits that are read are at least those of the
exponent, and not none, so the exponent that is read is not empty. -/
lemma IsExponent.length_le {text : List Char} (h : IsExponent text) (rest : List Char) :
    text.length ≤ (exponent (text ++ rest)).length := by
  cases h with
  | none => simp
  | @some letter sgn ds hletter hsign hdigits =>
    have hread : sign (sgn ++ ds ++ rest) = sgn := by
      rw [List.append_assoc]
      exact sign_append_digits hsign hdigits
    have hdrop : (sgn ++ ds ++ rest).drop sgn.length = ds ++ rest := by simp
    have hle := (hdigits.prefix_digits (List.prefix_append ds rest)).length_le
    have hpos := List.length_pos_iff.2 hdigits.1
    have hne : (digits (ds ++ rest)).isEmpty = false := by
      rw [List.isEmpty_eq_false_iff, ← List.length_pos_iff]
      omega
    rw [List.cons_append]
    simp only [exponent, if_pos hletter, hread, hdrop, hne, Bool.false_eq_true, if_false,
      List.length_cons, List.length_append]
    omega

/-- What is read as a number is one, at the head of the text. -/
lemma number_spec {c : Char} {cs : List Char} (hc : c.isDigit = true) :
    IsNumber (number (c :: cs)).1 (number (c :: cs)).2 ∧ (number (c :: cs)).2 <+: c :: cs := by
  have hdigits : IsDigits (digits (c :: cs)) := isDigits_digits hc
  simp only [number]
  split
  · rename_i more hmore
    refine ⟨.float hdigits (fun d hd => isDigit_iff.1 (List.mem_takeWhile_imp hd))
      (exponent_spec _).1, append_isPrefix (digits_isPrefix _) ?_⟩
    rw [hmore]
    exact List.cons_prefix_cons.2 ⟨rfl, append_isPrefix (digits_isPrefix more) (exponent_spec _).2⟩
  · exact ⟨.int hdigits, digits_isPrefix _⟩

/-- A number at the head of a text is no longer than the one that is read, and if it is as long, it
has the same kind.

**Proof sketch.** An integer is part of the digits at the head, and if a float is read, it is
longer.  A float has its point behind all the digits at the head, so that a float is read, with at
least its fraction and its exponent. -/
lemma IsNumber.length_le {kind : Kind} {text cs : List Char} (h : IsNumber kind text)
    (hcs : text <+: cs) :
    text.length ≤ (number cs).2.length
      ∧ (text.length = (number cs).2.length → kind = (number cs).1) := by
  cases h with
  | int hwhole =>
    have hle := (hwhole.prefix_digits hcs).length_le
    simp only [number]
    split
    · -- a point follows the digits, and the number that is read is longer
      simp only [List.length_append, List.length_cons]
      exact ⟨by omega, fun heq => by omega⟩
    · exact ⟨hle, fun _ => rfl⟩
  | @float whole fraction exp hwhole hfraction hexponent =>
    obtain ⟨rest, rfl⟩ := hcs
    have hcs : whole ++ '.' :: (fraction ++ exp) ++ rest
        = whole ++ '.' :: (fraction ++ (exp ++ rest)) := by simp
    have hdigits : digits (whole ++ '.' :: (fraction ++ (exp ++ rest))) = whole :=
      digits_append_cons hwhole.2 (by decide)
    have hnumber : number (whole ++ '.' :: (fraction ++ (exp ++ rest)))
        = (.float, whole ++ '.' :: (digits (fraction ++ (exp ++ rest))
            ++ exponent ((fraction ++ (exp ++ rest)).drop
              (digits (fraction ++ (exp ++ rest))).length))) := by
      simp only [number, hdigits, List.drop_left]
    rw [hcs, hnumber]
    refine ⟨?_, fun _ => rfl⟩
    simp only [List.length_append, List.length_cons]
    cases hexponent with
    | none =>
      have hle := (prefix_takeWhile (p := Char.isDigit) (fun d hd => isDigit_iff.2 (hfraction d hd))
        (List.prefix_append fraction ([] ++ rest))).length_le
      simp only [digits, List.nil_append, List.length_nil] at hle ⊢
      omega
    | @some letter sgn ds hletter hsign hds =>
      have hnot : letter.isDigit = false := by rcases hletter with rfl | rfl <;> decide
      have hfrac : digits (fraction ++ (letter :: (sgn ++ ds) ++ rest)) = fraction :=
        digits_append_cons hfraction hnot
      have hle := (IsExponent.some hletter hsign hds).length_le rest
      rw [hfrac, List.drop_left]
      simp only [List.length_cons, List.length_append] at hle ⊢
      omega

/-- A number begins with a digit. -/
lemma IsNumber.exists_cons {kind : Kind} {text : List Char} (h : IsNumber kind text) :
    ∃ c cs, text = c :: cs ∧ c.isDigit = true := by
  have hdigits : ∀ whole tail : List Char, IsDigits whole →
      ∃ c cs, whole ++ tail = c :: cs ∧ c.isDigit = true := by
    intro whole tail hwhole
    obtain ⟨c, cs, rfl⟩ := List.exists_cons_of_ne_nil hwhole.1
    exact ⟨c, cs ++ tail, rfl, isDigit_iff.2 (hwhole.2 c (by simp))⟩
  cases h with
  | int hwhole => simpa using hdigits _ [] hwhole
  | float hwhole hfraction hexponent => exact hdigits _ _ hwhole

/-! ## Words -/

/-- Characters of a name at the head of a text are no more than are read there, and all of them if
they are as many. -/
lemma takeWhile_isNamePart_ge {ds : List Char} (rest : List Char) (hpart : ∀ d ∈ ds, InName d) :
    ds.length ≤ ((ds ++ rest).takeWhile isNamePart).length
      ∧ (ds.length = ((ds ++ rest).takeWhile isNamePart).length →
        (ds ++ rest).takeWhile isNamePart = ds) := by
  have hinit := prefix_takeWhile (fun d hd => isNamePart_iff.2 (hpart d hd))
    (List.prefix_append ds rest)
  exact ⟨hinit.length_le, fun heq => (hinit.eq_of_length heq).symm⟩

/-- The kind of a word is the keyword with its spelling, or that of an identifier if there is
none. -/
lemma wordKind_cases (word : List Char) :
    (∃ k : Keyword, wordKind word = .keyword k ∧ k.chars = word)
      ∨ (wordKind word = .ident ∧ ∀ k : Keyword, k.chars ≠ word) := by
  unfold wordKind
  split
  · rename_i k hk
    have hchars := List.find?_some hk
    exact .inl ⟨k, rfl, eq_of_beq hchars⟩
  · rename_i hnone
    exact .inr ⟨rfl, fun k hk => by simpa [hk] using List.find?_eq_none.1 hnone k k.mem_all⟩

/-- A keyword is told by its text. -/
lemma wordKind_chars (k : Keyword) : wordKind k.chars = .keyword k := by cases k <;> rfl

/-- The spelling of a keyword is a word. -/
lemma keyword_chars_eq (k : Keyword) :
    ∃ c cs, k.chars = c :: cs ∧ isNameStart c = true ∧ ∀ d ∈ cs, isNamePart d = true := by
  cases k <;> exact ⟨_, _, rfl, by decide, List.all_eq_true.1 (by decide)⟩

/-- A word is a lexeme of its kind. -/
lemma matches_word {afterOperand : Bool} {c : Char} {cs : List Char}
    (hstart : isNameStart c = true) (hpart : ∀ d ∈ cs, isNamePart d = true) :
    Matches afterOperand (wordKind (c :: cs)) (c :: cs) := by
  rcases wordKind_cases (c :: cs) with ⟨k, hkind, hchars⟩ | ⟨hkind, hnone⟩
  · rw [hkind, ← hchars]
    exact .keyword k
  · rw [hkind]
    exact .ident (isNameStart_iff.1 hstart) (fun d hd => isNamePart_iff.1 (hpart d hd)) hnone

/-! ## Symbols -/

/-- The spelling of a symbol begins with a character that begins no other lexeme, but for a minus
sign. -/
lemma symbol_chars_eq (s : Symbol) :
    ∃ c cs, s.chars = c :: cs ∧ c.isDigit = false ∧ isNameStart c = false ∧ c.isUpper = false
      ∧ c ≠ '#' := by
  cases s with
  | reduce op => cases op <;> exact ⟨_, _, rfl, by decide, by decide, by decide, by decide⟩
  | scan op => cases op <;> exact ⟨_, _, rfl, by decide, by decide, by decide, by decide⟩
  | _ => exact ⟨_, _, rfl, by decide, by decide, by decide, by decide⟩

/-- The symbols that begin with a minus sign are that sign and the arrow. -/
lemma symbol_eq_minus_or_arrow {s : Symbol} {cs : List Char} (h : s.chars = '-' :: cs) :
    cs = [] ∨ cs = ['>'] := by
  cases s with
  | reduce op => cases op <;> simp [Symbol.chars] at h
  | scan op => cases op <;> simp [Symbol.chars] at h
  | minus | arrow => simp_all [Symbol.chars]
  | _ => simp [Symbol.chars] at h

/-- No symbol begins with the spelling of one that is listed before it. -/
lemma pairwise_not_isPrefix : Symbol.all.Pairwise fun a b => ¬ a.chars <+: b.chars := by decide

/-- The symbol that is read is the longest one at the head of the text.

**Proof sketch.** The symbols are looked for in an order in which none stands before one that it
is an initial part of. -/
lemma exists_symbol?_ge {s : Symbol} {cs : List Char} (h : s.chars <+: cs) :
    ∃ s', symbol? cs = some s' ∧ s.chars.length ≤ s'.chars.length
      ∧ (s'.chars.length = s.chars.length → s' = s) := by
  rcases hread : symbol? cs with _ | s'
  · have hnot := List.find?_eq_none.1 hread s s.mem_all
    exact absurd (List.isPrefixOf_iff_prefix.2 h) hnot
  refine ⟨s', rfl, ?_⟩
  obtain ⟨hs', before, after, hall, hbefore⟩ := List.find?_eq_some_iff_append.1 hread
  have hinit' : s'.chars <+: cs := List.isPrefixOf_iff_prefix.1 hs'
  have hmem : s ∈ before ++ s' :: after := hall ▸ s.mem_all
  rcases List.mem_append.1 hmem with hmem | hmem
  · have hnot := hbefore s hmem
    simp [List.isPrefixOf_iff_prefix.2 h] at hnot
  rcases List.mem_cons.1 hmem with rfl | hmem
  · exact ⟨le_rfl, fun _ => rfl⟩
  -- the symbol stands behind the one that is read, of which it is then a proper initial part
  have hpairwise : ∀ b ∈ after, ¬ s'.chars <+: b.chars := by
    have hall' := pairwise_not_isPrefix
    rw [hall] at hall'
    exact (List.pairwise_cons.1 (List.pairwise_append.1 hall').2.1).1
  have hlt : s.chars.length < s'.chars.length := by
    by_contra hle
    exact hpairwise s hmem (List.prefix_of_prefix_length_le hinit' h (by omega))
  exact ⟨hlt.le, fun heq => by omega⟩

/-- The symbol that is read is the head of the text. -/
lemma symbol?_isPrefix {s : Symbol} {cs : List Char} (h : symbol? cs = some s) :
    s.chars <+: cs := by
  have hinit := List.find?_some h
  exact List.isPrefixOf_iff_prefix.1 hinit

/-! ## Tokens -/

/-- A character that opens a name is no digit and no minus sign. -/
lemma isDigit_of_isNameStart {c : Char} (h : isNameStart c = true) :
    c.isDigit = false ∧ c ≠ '-' := by
  refine ⟨?_, by rintro rfl; exact absurd h (by decide)⟩
  rw [Bool.eq_false_iff]
  intro hdigit
  have hnine : c ≤ '9' := (isDigit_iff.1 hdigit).2
  rcases isNameStart_iff.1 h with hsmall | rfl
  · exact absurd (Char.le_trans hsmall.1 hnine) (by decide)
  · exact absurd hnine (by decide)

/-- A capital letter is no digit, no minus sign and opens no name. -/
lemma isNameStart_of_isUpper {c : Char} (h : c.isUpper = true) :
    c.isDigit = false ∧ c ≠ '-' ∧ isNameStart c = false := by
  have hcapital := isUpper_iff.1 h
  refine ⟨?_, by rintro rfl; exact absurd hcapital.1 (by decide), ?_⟩
  · rw [Bool.eq_false_iff]
    intro hdigit
    exact absurd (Char.le_trans hcapital.1 (isDigit_iff.1 hdigit).2) (by decide)
  · rw [Bool.eq_false_iff]
    intro hstart
    rcases isNameStart_iff.1 hstart with hsmall | rfl
    · exact absurd (Char.le_trans hsmall.1 hcapital.2) (by decide)
    · exact absurd hcapital.2 (by decide)

section Reading

variable {afterOperand : Bool} {c : Char} {cs : List Char}

/-- At a digit a number is read. -/
lemma longest?_digit (h : c.isDigit = true) :
    longest? afterOperand (c :: cs) = some (number (c :: cs)) := by
  simp [longest?, h]

/-- At a minus sign before a digit a signed number is read, where no operand stands before it. -/
lemma longest?_signed (h : startsWith Char.isDigit cs = true) :
    longest? false ('-' :: cs) = some ((number cs).1, '-' :: (number cs).2) := by
  have hminus : ('-').isDigit = false := by decide
  simp [longest?, hminus, h]

/-- At the beginning of a name a word is read. -/
lemma longest?_name (h : isNameStart c = true) :
    longest? afterOperand (c :: cs)
      = some (wordKind (c :: cs.takeWhile isNamePart), c :: cs.takeWhile isNamePart) := by
  obtain ⟨hdigit, hminus⟩ := isDigit_of_isNameStart h
  simp [longest?, hdigit, hminus, h]

/-- At a capital letter the name of a record is read. -/
lemma longest?_upper (h : c.isUpper = true) :
    longest? afterOperand (c :: cs) = some (.typeIdent, c :: cs.takeWhile isNamePart) := by
  obtain ⟨hdigit, hminus, hstart⟩ := isNameStart_of_isUpper h
  simp [longest?, hdigit, hminus, hstart, h]

/-- At a sharp sign before a name the mention of a tine is read. -/
lemma longest?_sharp (h : startsWith isNameStart cs = true) :
    longest? afterOperand ('#' :: cs) = some (.tineRef, '#' :: cs.takeWhile isNamePart) := by
  have hdigit : ('#').isDigit = false := by decide
  have hstart : isNameStart '#' = false := by decide
  have hupper : ('#').isUpper = false := by decide
  simp [longest?, hdigit, hstart, hupper, h]

/-- At any other character a symbol is read, if one stands there. -/
lemma longest?_symbol (hdigit : c.isDigit = false)
    (hminus : ¬ (c = '-' ∧ startsWith Char.isDigit cs = true ∧ afterOperand = false))
    (hstart : isNameStart c = false) (hupper : c.isUpper = false) (hsharp : c ≠ '#') :
    longest? afterOperand (c :: cs)
      = (symbol? (c :: cs)).map fun s => (.symbol s, s.chars) := by
  simp only [longest?, hdigit, Bool.false_eq_true, if_false, if_neg hminus, hstart, hupper,
    if_neg hsharp]

end Reading

/-- A text that starts with a character of a class has a first character. -/
lemma startsWith_eq_true {p : Char → Bool} {cs : List Char} (h : startsWith p cs = true) :
    ∃ c tail, cs = c :: tail ∧ p c = true := by
  rcases cs with _ | ⟨c, tail⟩
  · simp [startsWith] at h
  · exact ⟨c, tail, rfl, h⟩

/-- What is read is a lexeme at the head of the text.

**Proof sketch.** By the first character, as the reader decides.  Each reader takes the characters
of its lexeme and no others. -/
theorem matches_of_longest? {afterOperand : Bool} {cs text : List Char} {kind : Kind}
    (h : longest? afterOperand cs = some (kind, text)) :
    text <+: cs ∧ Matches afterOperand kind text := by
  rcases cs with _ | ⟨c, cs⟩
  · simp [longest?] at h
  have hnames : ∀ d ∈ cs.takeWhile isNamePart, InName d :=
    fun d hd => isNamePart_iff.1 (List.mem_takeWhile_imp hd)
  have hinit : c :: cs.takeWhile isNamePart <+: c :: cs :=
    List.cons_prefix_cons.2 ⟨rfl, List.takeWhile_prefix _⟩
  simp only [longest?] at h
  split_ifs at h with hdigit hminus hname hupper hsharp hstart
  · obtain ⟨rfl, rfl⟩ := Prod.mk.inj (Option.some.inj h)
    exact ⟨(number_spec hdigit).2, .number (number_spec hdigit).1⟩
  · obtain ⟨rfl, rfl⟩ := Prod.mk.inj (Option.some.inj h)
    obtain ⟨rfl, hdigit', hbefore⟩ := hminus
    obtain ⟨d, ds, rfl, hd⟩ := startsWith_eq_true hdigit'
    exact ⟨List.cons_prefix_cons.2 ⟨rfl, (number_spec hd).2⟩, .signed hbefore (number_spec hd).1⟩
  · obtain ⟨rfl, rfl⟩ := Prod.mk.inj (Option.some.inj h)
    exact ⟨hinit, matches_word hname fun d hd => isNamePart_iff.2 (hnames d hd)⟩
  · obtain ⟨rfl, rfl⟩ := Prod.mk.inj (Option.some.inj h)
    exact ⟨hinit, .typeIdent (isUpper_iff.1 hupper) hnames⟩
  · obtain ⟨rfl, rfl⟩ := Prod.mk.inj (Option.some.inj h)
    obtain ⟨d, ds, rfl, hd⟩ := startsWith_eq_true hstart
    refine ⟨hinit, ?_⟩
    have hpart : isNamePart d = true := by
      rw [isNamePart_iff]
      rcases isNameStart_iff.1 hd with hsmall | rfl
      · exact .inl hsmall
      · exact .inr (.inr (.inr rfl))
    rw [List.takeWhile_cons_of_pos hpart] at hnames ⊢
    rw [hsharp]
    exact .tineRef (isNameStart_iff.1 hd) fun e he => hnames e (List.mem_cons_of_mem _ he)
  · obtain ⟨s, hs, heq⟩ := Option.map_eq_some_iff.1 h
    obtain ⟨rfl, rfl⟩ := Prod.mk.inj heq
    exact ⟨symbol?_isPrefix hs, .symbol s⟩

/-- Where the spelling of a symbol stands at the head of a text, one at least as long is read; one
that is as long is that symbol.

**Proof sketch.** By cases on whether the minus sign begins a number.  If so, a number is read,
which is longer than the sign, and the arrow `->` is excluded since its second character is no
digit.  If not, the first character begins no other class, and the longest symbol is read. -/
lemma exists_longest?_ge_symbol {afterOperand : Bool} (s : Symbol) (rest : List Char) :
    ∃ kind text, longest? afterOperand (s.chars ++ rest) = some (kind, text)
      ∧ s.chars.length ≤ text.length ∧ (s.chars.length = text.length → .symbol s = kind) := by
  obtain ⟨c, ds, hchars, hdigit, hstart, hupper, hsharp⟩ := symbol_chars_eq s
  obtain ⟨s', hread, hle, heq⟩ := exists_symbol?_ge (List.prefix_append s.chars rest)
  rw [hchars, List.cons_append] at hread ⊢
  by_cases hminus : c = '-' ∧ startsWith Char.isDigit (ds ++ rest) = true ∧ afterOperand = false
  · -- the sign of a number: the spellings with more than the minus sign have no digit in it
    obtain ⟨rfl, hnext, rfl⟩ := hminus
    obtain ⟨d, tail, htail, hd⟩ := startsWith_eq_true hnext
    rcases symbol_eq_minus_or_arrow hchars with rfl | rfl
    · rw [List.nil_append] at htail hnext
      have hspec : IsNumber (number (d :: tail)).1 (number (d :: tail)).2 := (number_spec hd).1
      obtain ⟨e, es, hnumber, -⟩ := hspec.exists_cons
      refine ⟨_, _, longest?_signed hnext, by simp, fun heq => ?_⟩
      simp [htail, hnumber] at heq
    · obtain rfl : '>' = d := (List.cons.inj htail).1
      exact absurd hd (by decide)
  · refine ⟨.symbol s', s'.chars, ?_, by simpa [hchars] using hle, fun hlength => ?_⟩
    · rw [longest?_symbol hdigit hminus hstart hupper hsharp, hread, Option.map_some]
    · rw [heq (by simpa [hchars] using hlength.symm)]

/-- Whatever lexeme stands at the head of a text, one at least as long is read; one that is as long
has the same kind.

**Proof sketch.** By the kind of the lexeme that stands there.  Its first characters tell which
reader is at work, and that one takes at least as many characters of the same kind. -/
theorem exists_longest?_ge {afterOperand : Bool} {cs text : List Char} {kind : Kind}
    (hinit : text <+: cs) (h : Matches afterOperand kind text) :
    ∃ kind' text', longest? afterOperand cs = some (kind', text') ∧ text.length ≤ text'.length
      ∧ (text.length = text'.length → kind = kind') := by
  obtain ⟨rest, rfl⟩ := hinit
  cases h with
  | keyword k =>
    obtain ⟨c, ds, hchars, hstart, hpart⟩ := keyword_chars_eq k
    obtain ⟨hle, hall⟩ :=
      takeWhile_isNamePart_ge rest fun d hd => isNamePart_iff.1 (hpart d hd)
    rw [← wordKind_chars k, hchars, List.cons_append]
    refine ⟨_, _, longest?_name hstart, by simpa using hle, fun heq => ?_⟩
    rw [hall (by simpa using heq)]
  | @ident c ds hstart hpart hword =>
    obtain ⟨hle, hall⟩ := takeWhile_isNamePart_ge rest hpart
    refine ⟨_, _, longest?_name (isNameStart_iff.2 hstart), by simpa using hle, fun heq => ?_⟩
    rw [List.append_eq, hall (by simpa using heq)]
    -- a word of this length is the identifier itself, which is no keyword
    rcases wordKind_cases (c :: ds) with ⟨k, -, hchars⟩ | ⟨hkind, -⟩
    · exact absurd hchars (hword k)
    · exact hkind.symm
  | typeIdent hstart hpart =>
    obtain ⟨hle, -⟩ := takeWhile_isNamePart_ge rest hpart
    exact ⟨_, _, longest?_upper (isUpper_iff.2 hstart), by simpa using hle, fun _ => rfl⟩
  | @tineRef c ds hstart hpart =>
    have hpart' : ∀ d ∈ c :: ds, InName d := by
      intro d hd
      rcases List.mem_cons.1 hd with rfl | hd
      · exact hstart.imp_right fun h => .inr (.inr h)
      · exact hpart d hd
    obtain ⟨hle, -⟩ := takeWhile_isNamePart_ge rest hpart'
    have hsharp : startsWith isNameStart (c :: ds ++ rest) = true := isNameStart_iff.2 hstart
    exact ⟨_, _, longest?_sharp hsharp, Nat.succ_le_succ hle, fun _ => rfl⟩
  | number hnumber =>
    obtain ⟨c, ds, rfl, hdigit⟩ := hnumber.exists_cons
    exact ⟨_, _, longest?_digit hdigit, hnumber.length_le (List.prefix_append _ _)⟩
  | @signed _ ds hbefore hnumber =>
    obtain ⟨c, ds, rfl, hdigit⟩ := hnumber.exists_cons
    obtain ⟨hle, hkind⟩ := hnumber.length_le (List.prefix_append (c :: ds) rest)
    subst hbefore
    exact ⟨_, _, longest?_signed hdigit, Nat.succ_le_succ hle,
      fun heq => hkind (Nat.succ.inj heq)⟩
  | symbol s => exact exists_longest?_ge_symbol s rest

/-! ## The longest lexeme -/

section Longest

variable {afterOperand : Bool} {cs text : List Char} {kind : Kind}

/-- Exactly the longest lexeme at the head of a text is read.

**Proof sketch.** What is read is a lexeme at the head of the text, and every lexeme at the head has
one at least as long that is read.  Since only one is read, it is the longest; conversely the
longest one and the one that is read are heads of one text with the same length, hence equal, and
with them their kinds. -/
theorem longest?_eq_some_iff :
    longest? afterOperand cs = some (kind, text) ↔ IsLongest afterOperand cs kind text := by
  constructor
  · intro h
    obtain ⟨hinit, hmatches⟩ := matches_of_longest? h
    refine ⟨hinit, hmatches, fun kind' text' hinit' hmatches' => ?_⟩
    obtain ⟨kind'', text'', hread, hle, hkind⟩ := exists_longest?_ge hinit' hmatches'
    obtain ⟨rfl, rfl⟩ := Prod.mk.inj (Option.some.inj (h.symm.trans hread))
    exact ⟨hle, hkind⟩
  · rintro ⟨hinit, hmatches, hlongest⟩
    obtain ⟨kind', text', hread, hle, hkind⟩ := exists_longest?_ge hinit hmatches
    obtain ⟨hinit', hmatches'⟩ := matches_of_longest? hread
    have hlength : text.length = text'.length :=
      le_antisymm hle (hlongest kind' text' hinit' hmatches').1
    have htext : text = text' :=
      (List.prefix_of_prefix_length_le hinit hinit' hle).eq_of_length hlength
    rw [hread, ← htext, hkind hlength]

/-- Nothing is read exactly where no lexeme begins. -/
theorem longest?_eq_none_iff :
    longest? afterOperand cs = none
      ↔ ∀ kind text, text <+: cs → ¬ Matches afterOperand kind text := by
  constructor
  · intro h kind text hinit hmatches
    obtain ⟨kind', text', hread, -⟩ := exists_longest?_ge hinit hmatches
    simp [h] at hread
  · intro h
    rcases hread : longest? afterOperand cs with _ | ⟨kind, text⟩
    · rfl
    · obtain ⟨hinit, hmatches⟩ := matches_of_longest? hread
      exact absurd hmatches (h kind text hinit)

end Longest

end RakeLang.Lexeme
