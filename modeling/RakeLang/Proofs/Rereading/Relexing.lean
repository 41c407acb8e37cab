import RakeLang.Proofs.Accepting.Expression
import RakeLang.Proofs.Placing.Slice
import RakeLang.Proofs.Placing.Stream
import RakeLang.Proofs.Rereading.Shift

/-!
# Reading the tokens of a part of a text

The tokens of a text are those of each of its parts, put together: the part of a text from the first
character of one token to the last one of another has the same tokens, closer to its beginning.  For
nothing that stands behind a token makes it shorter, and all that is remembered from before it is
whether an operand may have ended; this tells only for a minus sign, which could be the sign of a
number.  The second piece of a token that was split begins such a part too.

## Main definitions

* `RakeLang.Lexer.Tokenizes` — a lexer reads some tokens from a text.

## Main results

* `RakeLang.Lexer.Tokenizes.shift` — without what stands behind the text, and at another place, the
  tokens are the same but for a shift.
* `RakeLang.tokenize_slice` — the tokens of a part of a text.
* `RakeLang.tokenize_slice_of_halves` — those of a part that begins with the second piece of a
  token.
-/

set_option relaxedAutoImplicit false
set_option autoImplicit false

namespace RakeLang

open Token Spelling

/-! ## Lexemes and what stands behind them -/

namespace Lexeme

variable {b : Bool} {kind : Kind} {gap text cs tail : List Char}

/-- Where no comment begins, the white space ends with the first character that is none. -/
lemma triviaFrom_cons {c : Char} (h : ¬['~', '~'] <+: c :: cs) :
    triviaFrom false (c :: cs) = if Text.isBlank c then c :: triviaFrom false cs else [] := by
  conv_lhs => unfold triviaFrom
  split
  · contradiction
  · contradiction
  · rename_i heq
    exact absurd ⟨_, heq.symm⟩ h
  · rename_i heq
    obtain ⟨rfl, rfl⟩ := List.cons.inj heq
    rfl

/-- A comment reaches to the end of its line.

**Proof sketch.** By induction on the text of the comment.  Within it no character is the newline,
so each is skipped; behind it stands the newline or nothing, which ends the comment and begins the
rest of the gap. -/
lemma triviaFrom_comment {rest : List Char} (htext : '\n' ∉ text)
    (hline : ∀ c ∈ (gap ++ rest).head?, c = '\n') (hgap : triviaFrom false (gap ++ rest) = gap) :
    triviaFrom true (text ++ (gap ++ rest)) = text ++ gap := by
  induction text with
  | nil =>
    rw [List.nil_append, List.nil_append]
    rcases hall : gap ++ rest with _ | ⟨c, cs⟩
    · rw [(List.append_eq_nil_iff.1 hall).1]
      rfl
    · obtain rfl : c = '\n' := hline c (by rw [hall]; rfl)
      have hblank : Text.isBlank '\n' = true := by decide
      rw [hall, triviaFrom_cons (by simp), if_pos hblank] at hgap
      simpa [triviaFrom] using hgap
  | cons c text ih =>
    rw [List.mem_cons, not_or] at htext
    have hc : (c != '\n') = true := by simpa [bne_iff_ne] using Ne.symm htext.1
    rw [List.cons_append, triviaFrom, hc, ih htext.2, List.cons_append]

/-- The white space and the comments in front of a token are recognised as such.

**Proof sketch.** By induction on the gap.  A blank is skipped where no comment is open, and a
comment to the end of its line (`triviaFrom_comment`); behind the gap stands neither a blank nor the
beginning of a comment. -/
lemma trivia_of_gap {rest : List Char} (h : Gap gap rest) : trivia (gap ++ rest) = gap := by
  unfold trivia
  induction h with
  | @nil rest hblank hnot =>
    rcases rest with _ | ⟨c, cs⟩
    · rfl
    · rw [List.nil_append, triviaFrom_cons hnot, hblank c rfl]
      rfl
  | @blank c gap rest hblank hgap ih =>
    have hc : c ≠ '~' := by
      rintro rfl
      exact absurd hblank (by decide)
    rw [List.cons_append, triviaFrom_cons (by simp [hc.symm]), if_pos hblank, ih]
  | @comment text gap rest htext hline hgap ih =>
    rw [List.cons_append, List.cons_append, List.append_assoc]
    simp only [triviaFrom]
    rw [triviaFrom_comment htext hline ih]

/-- Behind a gap there is none. -/
lemma Gap.behind {rest : List Char} (h : Gap gap rest) : Gap [] rest := by
  induction h with
  | nil hblank hnot => exact .nil hblank hnot
  | blank _ _ ih => exact ih
  | comment _ _ _ ih => exact ih

/-- Behind a gap there is no white space. -/
lemma Gap.head?_rest {rest : List Char} (h : Gap gap rest) :
    ∀ c ∈ rest.head?, Text.isBlank c = false := by
  cases h.behind with
  | nil hblank => exact hblank

/-- A gap in front of a token does not depend on what follows the token.

**Proof sketch.** By induction on the gap.  Where it ends, the next character is the first of the
token, which is the same in both texts; and two tildes at the head of the shorter text are at the
head of the longer one too. -/
lemma Gap.truncate (h : Gap gap (text ++ (cs ++ tail))) (htext : text ≠ []) :
    Gap gap (text ++ cs) := by
  have hhead : (text ++ cs).head? = (text ++ (cs ++ tail)).head? := by
    obtain ⟨c, text, rfl⟩ := List.exists_cons_of_ne_nil htext
    rfl
  have hmore : text ++ cs <+: text ++ (cs ++ tail) := by
    rw [← List.append_assoc]
    exact List.prefix_append _ _
  generalize hwhole : text ++ (cs ++ tail) = whole at h hhead hmore
  generalize text ++ cs = part at hhead hmore
  clear hwhole
  induction h with
  | nil hblank hnot => exact .nil (by rwa [hhead]) fun h => hnot (h.trans hmore)
  | blank hblank _ ih => exact .blank hblank (ih hhead hmore)
  | @comment comment gap rest htext hline _ ih =>
    refine .comment htext ?_ (ih hhead hmore)
    rcases gap with _ | ⟨c, gap⟩
    · rw [List.nil_append] at hline ⊢
      rwa [hhead]
    · exact hline

/-- The longest token stays the longest where less stands behind it. -/
lemma longest?_truncate (h : longest? b (text ++ (cs ++ tail)) = some (kind, text)) :
    longest? b (text ++ cs) = some (kind, text) := by
  obtain ⟨-, hmatches, hlongest⟩ := longest?_eq_some_iff.1 h
  refine longest?_eq_some_iff.2 ⟨List.prefix_append _ _, hmatches, ?_⟩
  intro kind' text' hinitial hmatches'
  refine hlongest kind' text' (hinitial.trans ?_) hmatches'
  rw [← List.append_assoc]
  exact List.prefix_append _ _

/-- Where no minus sign was read behind an operand, none is the sign of a number without one.

**Proof sketch.** The memory tells only whether a minus sign in front of a digit begins a number.
Where it was read behind an operand, it was a sign by itself, which is left out here. -/
lemma longest?_forget (h : longest? b cs = some (kind, text))
    (hminus : kind = .symbol .minus → b = false) : longest? false cs = some (kind, text) := by
  rcases b with _ | _
  · exact h
  rcases cs with _ | ⟨c, cs⟩
  · exact h
  by_cases hsign : c = '-' ∧ startsWith Char.isDigit cs = true
  · obtain ⟨rfl, hdigit⟩ := hsign
    obtain ⟨d, cs, rfl⟩ : ∃ d ds, cs = d :: ds := by
      rcases cs with _ | ⟨d, ds⟩
      · cases hdigit
      · exact ⟨d, ds, rfl⟩
    have hd : '>' ≠ d := by
      rintro rfl
      have hgreater : Char.isDigit '>' = true := hdigit
      exact absurd hgreater (by decide)
    have hread : longest? true ('-' :: d :: cs) = some (.symbol .minus, ['-']) := by
      have hsymbol : symbol? ('-' :: d :: cs) = some .minus := by
        simp [symbol?, Symbol.all, Symbol.chars, List.find?, List.isPrefixOf,
          beq_eq_false_iff_ne.2 hd]
      simp [longest?, isNameStart, hsymbol, Symbol.chars]
    rw [hread] at h
    obtain ⟨rfl, -⟩ := Prod.mk.inj (Option.some.inj h)
    cases hminus rfl
  · rw [← h]
    simp [longest?, hsign]

/-- A number begins with a digit, or with its sign and a digit.

**Proof sketch.** By the first character: a digit begins a number, and so does a minus sign with
a digit behind it; words and signs are no numbers. -/
lemma number_of_longest? {c : Char} (h : longest? b (c :: cs) = some (kind, text))
    (hkind : kind.isNumber = true) :
    c.isDigit = true ∧ number (c :: cs) = (kind, text)
      ∨ c = '-' ∧ startsWith Char.isDigit cs = true
        ∧ ∃ digits, text = '-' :: digits ∧ number cs = (kind, digits) := by
  have hword (word : List Char) : (wordKind word).isNumber = false := by
    unfold wordKind
    split <;> rfl
  simp only [longest?] at h
  split_ifs at h with hdigit hminus hname hupper hsharp hstart
  · exact .inl ⟨hdigit, Option.some.inj h⟩
  · obtain ⟨rfl, rfl⟩ := Prod.mk.inj (Option.some.inj h)
    exact .inr ⟨hminus.1, hminus.2.1, (number cs).2, by rw [hminus.1], rfl⟩
  · obtain ⟨rfl, -⟩ := Prod.mk.inj (Option.some.inj h)
    rw [hword] at hkind
    cases hkind
  · obtain ⟨rfl, -⟩ := Prod.mk.inj (Option.some.inj h)
    cases hkind
  · obtain ⟨rfl, -⟩ := Prod.mk.inj (Option.some.inj h)
    cases hkind
  · obtain ⟨s, -, hs⟩ := Option.map_eq_some_iff.1 h
    obtain ⟨rfl, -⟩ := Prod.mk.inj hs
    cases hkind

/-- In front of a digit a number is read, whatever was read before. -/
lemma longest?_of_startsWith (h : startsWith Char.isDigit cs = true) (b : Bool) :
    longest? b cs = some (number cs) := by
  rcases cs with _ | ⟨c, cs⟩
  · cases h
  · have hc : c.isDigit = true := h
    simp [longest?, hc]

/-- A minus sign with a digit behind it is the sign of a number. -/
lemma longest?_sign (h : startsWith Char.isDigit cs = true) :
    longest? false ('-' :: cs) = some ((number cs).1, '-' :: (number cs).2) := by
  simp [longest?, h]

/-- A minus sign with neither a digit nor a greater-than sign behind it stands alone. -/
lemma longest?_minus (b : Bool) {c : Char} (hdigit : c.isDigit = false) (hgreater : c ≠ '>') :
    longest? b ('-' :: c :: cs) = some (.symbol .minus, ['-']) := by
  have hsymbol : symbol? ('-' :: c :: cs) = some .minus := by
    simp [symbol?, Symbol.all, Symbol.chars, List.find?, List.isPrefixOf,
      beq_eq_false_iff_ne.2 hgreater.symm]
  simp [longest?, isNameStart, startsWith, hdigit, hsymbol, Symbol.chars]

/-- No token with which an expression can begin begins with a greater-than sign.

**Proof sketch.** A greater-than sign begins a sign of its own, and none of the signs that begin
with it can begin an expression. -/
lemma ne_greater_of_longest? {c : Char} (h : longest? b (c :: cs) = some (kind, text))
    (hkind : kind.opensExpression = true) : c ≠ '>' := by
  rintro rfl
  have hsymbol : longest? b ('>' :: cs)
      = (symbol? ('>' :: cs)).map fun s => (.symbol s, s.chars) := by
    simp [longest?, isNameStart]
  rw [hsymbol] at h
  obtain ⟨s, hs, heq⟩ := Option.map_eq_some_iff.1 h
  obtain ⟨rfl, -⟩ := Prod.mk.inj heq
  have hinitial := List.find?_some hs
  have hhead : s.chars.head? = some '>' := by
    obtain ⟨d, ds, hds⟩ := List.exists_cons_of_ne_nil (chars_ne_nil s)
    rw [hds] at hinitial ⊢
    simp only [List.isPrefixOf, Bool.and_eq_true, beq_iff_eq] at hinitial
    rw [hinitial.1]
    rfl
  clear hs heq hinitial h hsymbol
  revert hhead hkind
  cases s with
  | reduce op => cases op <;> simp [Symbol.chars]
  | scan op => cases op <;> simp [Symbol.chars]
  | _ => simp [Symbol.chars, Kind.opensExpression, Kind.opensPrimary]

end Lexeme

/-! ## Lexers and the text that they read -/

namespace Lexer

/-- A lexer at the place `p`, with the memory `b` and with `text ++ rest` ahead, reads the tokens
`ts` from `text`, and `rest` is left. -/
inductive Tokenizes : Bool → Place → List Token → List Char → List Char → Prop
  | nil (b : Bool) (p : Place) (rest : List Char) : Tokenizes b p [] [] rest
  | cons {b : Bool} {p : Place} {gap lexeme text rest : List Char} {kind : Kind} {ts : List Token}
      (hgap : Lexeme.Gap gap (lexeme ++ (text ++ rest)))
      (hlongest : Lexeme.longest? b (lexeme ++ (text ++ rest)) = some (kind, lexeme))
      (h : Tokenizes kind.endsOperand ((p.after gap).after lexeme) ts text rest) :
      Tokenizes b p
        (⟨kind, String.ofList lexeme,
          .between (p.after gap) ((p.after gap).after lexeme)⟩ :: ts)
        (gap ++ (lexeme ++ text)) rest

namespace Tokenizes

variable {b : Bool} {p : Place} {t : Token} {ts us : List Token} {text rest : List Char}

/-- The memory behind the tokens `ts`, where it was `b` before them. -/
def memory (b : Bool) (ts : List Token) : Bool :=
  (ts.getLast?.map fun t => t.kind.endsOperand).getD b

/-- Tokens are read part by part: the text falls in two, and what is remembered behind the first
part goes on to the second.

**Proof sketch.** Induction on the tokens in front.  What is remembered behind them is whether the
last of them ends an operand. -/
lemma append_iff : Tokenizes b p (ts ++ us) text rest ↔
    ∃ text₁ text₂, text = text₁ ++ text₂ ∧ Tokenizes b p ts text₁ (text₂ ++ rest)
      ∧ Tokenizes (memory b ts) (p.after text₁) us text₂ rest := by
  induction ts generalizing b p text with
  | nil =>
    constructor
    · intro h
      exact ⟨[], text, rfl, .nil _ _ _, h⟩
    · rintro ⟨text₁, text₂, rfl, h₁, h₂⟩
      cases h₁
      exact h₂
  | cons t ts ih =>
    have hmemory : memory b (t :: ts) = memory t.kind.endsOperand ts := by
      simp only [memory, List.getLast?_cons, Option.map_some, Option.getD_some]
      cases ts.getLast? <;> rfl
    constructor
    · intro h
      cases h with
      | @cons _ _ gap lexeme text _ kind _ hgap hlongest h =>
        obtain ⟨text₁, text₂, rfl, h₁, h₂⟩ := ih.1 h
        refine ⟨gap ++ (lexeme ++ text₁), text₂, by simp, .cons ?_ ?_ h₁, ?_⟩
        · simpa using hgap
        · simpa using hlongest
        · rw [hmemory]
          simpa [Place.after_append] using h₂
    · rintro ⟨text₁, text₂, rfl, h₁, h₂⟩
      cases h₁ with
      | @cons _ _ gap lexeme text _ kind _ hgap hlongest h =>
        rw [List.append_assoc, List.append_assoc]
        refine .cons ?_ ?_ (ih.2 ⟨text, text₂, rfl, h, ?_⟩)
        · simpa using hgap
        · simpa using hlongest
        · rw [hmemory] at h₂
          simpa [Place.after_append] using h₂

/-- **The tokens of a text without what stands behind it**, at another place.

**Proof sketch.** Induction on the tokens; the longest token stays the longest where less stands
behind it. -/
theorem shift {k : Nat} (h : Tokenizes b p ts text rest) :
    ∀ {q : Place}, p.offset = q.offset + k →
      ∃ us, Tokenizes b q us text [] ∧ List.Forall₂ (Shifted k) ts us := by
  induction h with
  | nil b p rest => exact fun _ => ⟨[], .nil _ _ _, .nil⟩
  | @cons b p gap lexeme text rest kind ts hgap hlongest _ ih =>
    intro q hq
    have hoffset (cs : List Char) : (p.after cs).offset = (q.after cs).offset + k := by
      rw [Place.offset_after, Place.offset_after]
      omega
    have hbehind : ((p.after gap).after lexeme).offset
        = ((q.after gap).after lexeme).offset + k := by
      simpa [Place.after_append] using hoffset (gap ++ lexeme)
    obtain ⟨us, hus, hshifted⟩ := ih hbehind
    have hne := (Lexeme.longest?_fits hlongest).1
    have hgap' := hgap.truncate hne
    have hlongest' := Lexeme.longest?_truncate hlongest
    rw [← List.append_nil text] at hgap' hlongest'
    exact ⟨_, .cons hgap' hlongest' hus, .cons ⟨rfl, hoffset gap, hbehind⟩ hshifted⟩

/-- The gap in front of the first token can be left out. -/
lemma exists_gap (h : Tokenizes b p (t :: ts) text rest) :
    ∃ gap text', text = gap ++ text' ∧ Tokenizes b (p.after gap) (t :: ts) text' rest
      ∧ t.span.start = (p.after gap).offset := by
  cases h with
  | @cons _ _ gap lexeme text _ kind _ hgap hlongest h =>
    exact ⟨gap, lexeme ++ text, rfl, .cons (p := p.after gap) hgap.behind hlongest h, rfl⟩

/-- No memory is needed where the first token is no minus sign behind an operand. -/
lemma forget (h : Tokenizes b p (t :: ts) text rest)
    (hminus : t.kind = .symbol .minus → b = false) : Tokenizes false p (t :: ts) text rest := by
  cases h with
  | cons hgap hlongest h => exact .cons hgap (Lexeme.longest?_forget hlongest hminus) h

/-- The last token ends where the text does. -/
lemma stop_getLast (h : Tokenizes b p ts text rest) {last : Token} (hlast : last ∈ ts.getLast?) :
    last.span.stop = (p.after text).offset := by
  induction h with
  | nil => cases hlast
  | @cons b p gap lexeme text rest kind ts hgap hlongest h ih =>
    rw [Place.after_append, Place.after_append]
    rcases ts with _ | ⟨u, us⟩
    · cases h
      obtain rfl := Option.mem_some_iff.1 hlast
      rfl
    · rw [List.getLast?_cons_cons] at hlast
      exact ih hlast

end Tokenizes

/-- A lexer in front of a gap passes over the whole of it. -/
lemma skipTrivia_of_gap {b : Bool} {p : Place} {gap text : List Char}
    (h : Lexeme.Gap gap text) :
    (⟨gap ++ text, p, b, false⟩ : Lexer).skipTrivia = ⟨text, p.after gap, b, false⟩ := by
  simp only [skipTrivia, Lexeme.trivia_of_gap h, List.drop_left]

/-- Behind a gap a lexeme is yielded as a token. -/
lemma next?_of_gap {b : Bool} {p : Place} {gap lexeme text : List Char} {kind : Kind}
    (hgap : Lexeme.Gap gap (lexeme ++ text))
    (hlongest : Lexeme.longest? b (lexeme ++ text) = some (kind, lexeme)) :
    next? ⟨gap ++ (lexeme ++ text), p, b, false⟩
      = some (.token ⟨kind, String.ofList lexeme,
            .between (p.after gap) ((p.after gap).after lexeme)⟩,
          ⟨text, (p.after gap).after lexeme, kind.endsOperand, false⟩) := by
  rw [next?, skipTrivia_of_gap hgap, read_of_longest?_eq_some hlongest, List.drop_left]
  rfl

/-- A lexer that yields tokens up to the end of the input reads them, and a gap is left.

**Proof sketch.** Induction on the bound.  The lexer passes over a gap and reads a lexeme, which is
what a rule asks for; where it reads the end, the gap is what is left. -/
lemma tokenizes_of_itemsUpTo (n : Nat) :
    ∀ (l : Lexer) (ts : List Token) (eof : Token), l.finished = false → l.rest.length < n →
      l.itemsUpTo n = ts.map LexItem.token ++ [.token eof] →
      ∃ text rest, l.rest = text ++ rest ∧ Tokenizes l.afterOperand l.place ts text rest := by
  induction n with
  | zero => intro l _ _ _ hn; omega
  | succ n ih =>
    intro l ts eof hl hn hitems
    have hgap : Lexeme.Gap (Lexeme.trivia l.rest) l.skipTrivia.rest := Lexeme.gap_trivia l.rest
    have hall : Lexeme.trivia l.rest ++ l.skipTrivia.rest = l.rest :=
      Lexeme.trivia_append_drop l.rest
    have hnext : l.itemsUpTo (n + 1) = l.skipTrivia.read.1 :: l.skipTrivia.read.2.itemsUpTo n := by
      simp [itemsUpTo, next?, hl]
    rw [hnext] at hitems
    rcases ts with _ | ⟨t, ts⟩
    · exact ⟨[], l.rest, rfl, .nil _ _ _⟩
    obtain ⟨hread, hmore⟩ := List.cons.inj hitems
    by_cases hend : l.skipTrivia.rest = []
    · obtain ⟨eof', heof, -⟩ := read_of_rest_nil hend
      rw [heof, itemsUpTo_of_finished rfl] at hmore
      exact absurd hmore.symm (by simp)
    rcases hlong : Lexeme.longest? l.skipTrivia.afterOperand l.skipTrivia.rest
      with _ | ⟨kind, lexeme⟩
    · obtain ⟨c, cs, hcs⟩ := List.exists_cons_of_ne_nil hend
      rw [read_of_longest?_eq_none hcs (hcs ▸ hlong)] at hread
      cases hread
    · obtain ⟨tail, htail⟩ := (Lexeme.longest?_eq_some_iff.1 hlong).1
      rw [read_of_longest?_eq_some hlong, ← htail, List.drop_left] at hread hmore
      rw [← htail] at hgap hall hlong
      have hlength : tail.length < n := by
        have hshorter := congrArg List.length hall
        have hpos := List.length_pos_iff.2 (Lexeme.longest?_fits hlong).1
        rw [List.length_append, List.length_append] at hshorter
        omega
      obtain rfl := LexItem.token.inj hread
      obtain ⟨text, rest, htext, h⟩ := ih ⟨tail, l.skipTrivia.place.after lexeme,
        kind.endsOperand, l.finished⟩ ts eof hl hlength hmore
      obtain rfl : tail = text ++ rest := htext
      exact ⟨Lexeme.trivia l.rest ++ (lexeme ++ text), rest,
        hall.symm.trans (by simp only [List.append_assoc]), .cons hgap hlong h⟩

/-- A lexer that reads tokens up to the end of the text yields them.

**Proof sketch.** Induction on the rules: the gap of a rule is what the lexer skips, and its lexeme
is the longest one.  Behind the last of them there is nothing. -/
lemma itemsUpTo_of_tokenizes {b : Bool} {p : Place} {ts : List Token} {text : List Char}
    (h : Tokenizes b p ts text []) :
    ∀ n, text.length < n → ∃ eof, eof.kind = .eof
      ∧ itemsUpTo n ⟨text, p, b, false⟩ = ts.map LexItem.token ++ [.token eof] := by
  generalize hrest : ([] : List Char) = rest at h
  induction h with
  | nil b p rest =>
    rintro (_ | n) hn
    · simp at hn
    · refine ⟨⟨.eof, "", .between p p⟩, rfl, ?_⟩
      subst hrest
      simp [itemsUpTo, next?, skipTrivia, read, Lexeme.trivia, Lexeme.triviaFrom,
        itemsUpTo_of_finished]
  | @cons b p gap lexeme text rest kind ts hgap hlongest _ ih =>
    subst hrest
    rintro (_ | n) hn
    · simp at hn
    have hpos := List.length_pos_iff.2 (Lexeme.longest?_fits hlongest).1
    obtain ⟨eof, heof, hitems⟩ := ih rfl n (by
      simp only [List.length_append] at hn
      omega)
    rw [List.append_nil] at hgap hlongest
    refine ⟨eof, heof, ?_⟩
    rw [itemsUpTo, next?_of_gap hgap hlongest]
    simp only [hitems]
    rfl

end Lexer

/-! ## Parts of a text -/

/-- Where all items are tokens, the text has no fault. -/
lemma LexItem.mapM_token (ts : List Token) :
    (ts.map LexItem.token).mapM LexItem.toExcept = .ok ts := by
  induction ts with
  | nil => rfl
  | cons t ts ih =>
    rw [List.map_cons, List.mapM_cons, ih]
    rfl

section Parts

variable {source : String} {s : Span} {b : Bool} {p : Place} {t eof : Token} {ts : List Token}
  {part rest : List Char}

/-- The tokens of a source are read from a part of its text, and a gap is left. -/
lemma tokenizes_of_tokenize (h : tokenize source = .ok (ts ++ [eof])) :
    ∃ text rest, source.toList = text ++ rest ∧ Lexer.Tokenizes false .start ts text rest := by
  have hitems := LexItem.eq_map_of_mapM h
  rw [List.map_append] at hitems
  exact Lexer.tokenizes_of_itemsUpTo _ (Lexer.ofSource source) ts eof rfl (Nat.lt_succ_self _)
    hitems

/-- Tokens that are read from the whole of a text are the tokens of this text. -/
lemma tokenize_of_tokenizes (h : Lexer.Tokenizes false .start ts part []) :
    ∃ eof, eof.kind = .eof ∧ tokenize (String.ofList part) = .ok (ts ++ [eof]) := by
  obtain ⟨eof, heof, hitems⟩ := Lexer.itemsUpTo_of_tokenizes h _ (Nat.lt_succ_self _)
  refine ⟨eof, heof, ?_⟩
  have hlex : lex (String.ofList part) = (ts ++ [eof]).map LexItem.token := by
    rw [List.map_append]
    simpa [lex, Lexer.items, Lexer.ofSource] using hitems
  rw [tokenize, hlex, LexItem.mapM_token]

/-- **The tokens of a part of a text** that begins with one of its tokens, or with the second piece
of one, and ends with one.

**Proof sketch.** The slice begins behind the gap of the first token and ends where the last one
does, so that it is the text of these tokens.  It is read without what stands behind it and from
another place, which shifts the tokens, and without a memory of what stood in front, which the first
token does not need. -/
theorem Lexer.Tokenizes.tokenize_slice (h : Lexer.Tokenizes b p (t :: ts) part rest)
    {before : List Char} (hsource : source.toList = before ++ (part ++ rest))
    (hp : p = Place.start.after before) (hminus : t.kind = .symbol .minus → b = false)
    (hstart : s.start = t.span.start)
    (hstop : ∀ last ∈ (t :: ts).getLast?, s.stop = last.span.stop) :
    ∃ k us eof, tokenize (s.slice source) = .ok (us ++ [eof]) ∧ eof.kind = .eof
      ∧ List.Forall₂ (Shifted k) (t :: ts) us := by
  subst hp
  obtain ⟨gap, part, rfl, h, hfirst⟩ := h.exists_gap
  obtain ⟨last, hlast⟩ : ∃ last, last ∈ (t :: ts).getLast? :=
    ⟨_, List.getLast?_eq_some_getLast (List.cons_ne_nil t ts)⟩
  have hend := (hstop last hlast).trans (h.stop_getLast hlast)
  obtain ⟨us, hus, hshifted⟩ := (h.forget hminus).shift
    (q := .start) (k := ((Place.start.after before).after gap).offset) (Nat.zero_add _).symm
  obtain ⟨eof, heof, hread⟩ := tokenize_of_tokenizes hus
  refine ⟨_, us, eof, ?_, heof, hshifted⟩
  rw [← hread]
  congr 1
  have hparts : source.toList = before ++ gap ++ part ++ rest := by rw [hsource]; simp
  rw [← Span.slice_between hparts]
  simp only [Span.slice, Span.between, Place.after_append]
  rw [hstart, hfirst, hend]

/-- **The tokens of a part of a text** are those of the text.

**Proof sketch.** The lexer of the whole text reaches the part with the memory of the token in
front of it, which tells for a minus sign only. -/
theorem tokenize_slice {before after : List Token}
    (h : tokenize source = .ok (before ++ (t :: ts ++ after) ++ [eof]))
    (hminus : t.kind = .symbol .minus → ∀ p ∈ before.getLast?, p.kind.endsOperand = false)
    (hstart : s.start = t.span.start)
    (hstop : ∀ last ∈ (t :: ts).getLast?, s.stop = last.span.stop) :
    ∃ k us eof, tokenize (s.slice source) = .ok (us ++ [eof]) ∧ eof.kind = .eof
      ∧ List.Forall₂ (Shifted k) (t :: ts) us := by
  obtain ⟨text, rest, hsource, hall⟩ := tokenizes_of_tokenize h
  obtain ⟨text₁, text₂, rfl, -, hmore⟩ := Lexer.Tokenizes.append_iff.1 hall
  obtain ⟨part, text₃, rfl, hpart, -⟩ := Lexer.Tokenizes.append_iff.1 hmore
  have hplace : source.toList = text₁ ++ (part ++ (text₃ ++ rest)) := by simpa using hsource
  refine hpart.tokenize_slice hplace rfl (fun hkind => ?_) hstart hstop
  have hlast := hminus hkind
  unfold Lexer.Tokenizes.memory
  rcases hp : before.getLast? with _ | p
  · rfl
  · exact hlast p hp

/-- The place behind one byte of a span. -/
lemma Span.between_next {p q : Place} {c : Char} (hc : c ≠ '\n') (hsize : c.utf8Size = 1) :
    Span.between (p.next c) q = (Span.between p q).afterFirstByte := by
  simp [Span.between, Span.afterFirstByte, Place.next, hc, hsize]

/-- No gap stands in front of a character that is neither blank nor a tilde. -/
lemma Lexeme.gap_nil_cons {c : Char} {cs : List Char} (hblank : Text.isBlank c = false)
    (hc : c ≠ '~') : Lexeme.Gap [] (c :: cs) := by
  refine .nil (fun d hd => ?_) (by simp [hc.symm])
  obtain rfl := Option.mem_some_iff.1 hd
  exact hblank

/-- No gap stands in front of a digit. -/
lemma Lexeme.gap_nil_of_startsWith {cs : List Char}
    (h : Lexeme.startsWith Char.isDigit cs = true) : Lexeme.Gap [] cs := by
  rcases cs with _ | ⟨c, cs⟩
  · cases h
  · have hdigit : c.isDigit = true := h
    refine Lexeme.gap_nil_cons ?_ ?_
    · exact (Lexeme.isDigit_iff.1 hdigit).visible.isBlank_eq_false
    · rintro rfl
      exact absurd hdigit (by decide)

/-- Behind the sign of a number there is a number.

**Proof sketch.** Behind the minus sign stand the digits, and no operand was read there.  Digits are
a number with or without a sign in front, so that they are the lexeme without its sign. -/
lemma Lexer.Tokenizes.of_sign (h : Lexer.Tokenizes b p (t :: ts) part rest)
    (hsigned : t.isSignedNumber = true) :
    ∃ passed part', part = passed ++ part'
      ∧ Lexer.Tokenizes false (p.after passed) (t.withoutSign :: ts) part' rest := by
  cases h with
  | @cons _ _ gap lexeme text _ kind _ hgap hlongest h =>
    simp only [isSignedNumber, hasSign, Bool.and_eq_true, beq_iff_eq, String.toList_ofList]
      at hsigned
    obtain ⟨hnumber, hsign⟩ := hsigned
    obtain ⟨c, digits, rfl⟩ := List.exists_cons_of_ne_nil (Lexeme.longest?_fits hlongest).1
    obtain rfl : c = '-' := Option.some.inj hsign
    rcases Lexeme.number_of_longest? hlongest hnumber with ⟨hdigit, -⟩ | ⟨-, hdigit, _, heq, hread⟩
    · exact absurd hdigit (by decide)
    obtain rfl := (List.cons.inj heq).2
    refine ⟨gap ++ ['-'], digits ++ text, by simp, ?_⟩
    have hnext := (Lexeme.longest?_of_startsWith hdigit false).trans (congrArg some hread)
    have hcons := Lexer.Tokenizes.cons (p := (p.after gap).next '-')
      (Lexeme.gap_nil_of_startsWith hdigit) hnext h
    have hspan := Span.between_next (p := p.after gap)
      (q := ((p.after gap).next '-').after digits) (c := '-') (by decide) (by decide)
    rw [Place.after_append]
    simpa [withoutSign, ← hspan] using hcons

/-- Behind the first character of an arrow that a number joins there is a number with a sign.

**Proof sketch.** The number touches the arrow, so that no gap is between them.  The minus sign of
the arrow and the digits are a number with a sign, since no operand was read in front of it. -/
lemma Lexer.Tokenizes.of_joined {next : Token} {more : List Token}
    (h : Lexer.Tokenizes b p (t :: next :: more) part rest) (harrow : t.kind = .symbol .leftArrow)
    (hjoins : joinsArrow t next = true) :
    ∃ passed part', part = passed ++ part'
      ∧ Lexer.Tokenizes false (p.after passed) (joined t next :: more) part' rest := by
  cases h with
  | @cons _ _ gap lexeme text _ kind _ hgap hlongest h =>
    obtain rfl : kind = .symbol .leftArrow := harrow
    obtain rfl : lexeme = ['<', '-'] := (Lexeme.longest?_fits hlongest).2.2
    cases h with
    | @cons _ _ gap' lexeme text _ kind _ hgap' hlongest' h =>
      simp only [joinsArrow, hasSign, Bool.and_eq_true, beq_iff_eq, Span.between,
        String.toList_ofList, Bool.not_eq_true', beq_eq_false_iff_ne] at hjoins
      obtain ⟨⟨hnumber, htouch⟩, hsign⟩ := hjoins
      obtain rfl : gap' = [] := by
        rcases gap' with _ | ⟨c, cs⟩
        · rfl
        · exact absurd htouch (Place.offset_lt_after _ c cs).ne'
      obtain ⟨c, digits, rfl⟩ := List.exists_cons_of_ne_nil (Lexeme.longest?_fits hlongest').1
      have hdigit : Lexeme.startsWith Char.isDigit (c :: digits ++ (text ++ rest)) = true
          ∧ Lexeme.number (c :: digits ++ (text ++ rest)) = (kind, c :: digits) := by
        rcases Lexeme.number_of_longest? hlongest' hnumber with hread | ⟨rfl, -⟩
        · exact hread
        · exact absurd rfl hsign
      have hread := Lexeme.longest?_sign hdigit.1
      rw [hdigit.2] at hread
      refine ⟨gap ++ ['<'], '-' :: (c :: digits) ++ text, by simp, ?_⟩
      have hgap : Lexeme.Gap [] ('-' :: (c :: digits) ++ (text ++ rest)) :=
        Lexeme.gap_nil_cons (by decide) (by decide)
      have hcons := Lexer.Tokenizes.cons (p := (p.after gap).next '<') hgap hread
        (by simpa using h)
      have hspan := Span.between_next (p := p.after gap)
        (q := ((p.after gap).next '<').next '-') (c := '<') (by decide) (by decide)
      have hmerge (q : Place) : (Span.between q (q.next '-')).merge
          (Span.between (q.next '-') (((q.next '-').next c).after digits))
          = Span.between q (((q.next '-').next c).after digits) := by
        rw [Span.merge_eq (Place.offset_le_after q ['-'])
          (Place.offset_le_after (q.next '-') (c :: digits))]
        rfl
      rw [Place.after_append]
      simpa [joined, ← hspan, hmerge] using hcons

/-- A gap begins with no digit and no greater-than sign. -/
lemma Lexeme.Gap.head_ne {c : Char} {gap cs : List Char} (h : Lexeme.Gap (c :: gap) cs) :
    c.isDigit = false ∧ c ≠ '>' := by
  cases h with
  | blank hblank _ =>
    constructor
    · by_contra hdigit
      rw [Bool.not_eq_false] at hdigit
      rw [(Lexeme.isDigit_iff.1 hdigit).visible.isBlank_eq_false] at hblank
      cases hblank
    · rintro rfl
      exact absurd hblank (by decide)
  | comment _ _ _ => exact ⟨by decide, by decide⟩

/-- Behind an arrow that no number joins, the minus sign of the arrow stands for itself, unless the
next token makes an arrow of it.

**Proof sketch.** In front of a digit the sign would belong to a number that touches the arrow,
and in front of a greater-than sign it would make another arrow, with which no expression begins. -/
lemma Lexer.Tokenizes.longest?_minus {gap : List Char}
    (h : Lexer.Tokenizes false ((p.after gap).after ['<', '-']) ts part rest)
    (hjoins : ∀ next ∈ ts.head?, joinsArrow ⟨.symbol .leftArrow, String.ofList ['<', '-'],
      .between (p.after gap) ((p.after gap).after ['<', '-'])⟩ next = false)
    (hopens : (headKind ts).opensExpression = true) :
    Lexeme.longest? false ('-' :: (part ++ rest)) = some (.symbol .minus, ['-']) := by
  cases h with
  | nil => cases hopens
  | @cons _ _ gap' lexeme text _ kind _ hgap' hlongest' h =>
    rcases gap' with _ | ⟨c, gap'⟩
    · obtain ⟨c, lexeme, rfl⟩ := List.exists_cons_of_ne_nil (Lexeme.longest?_fits hlongest').1
      refine Lexeme.longest?_minus false ?_ (Lexeme.ne_greater_of_longest? hlongest' hopens)
      -- a digit would begin a number that touches the arrow
      have hnot := hjoins _ rfl
      by_contra hdigit
      rw [Bool.not_eq_false] at hdigit
      have hstarts : Lexeme.startsWith Char.isDigit (c :: lexeme ++ (text ++ rest)) = true :=
        hdigit
      have hnumber := (Lexeme.longest?_of_startsWith hstarts _).symm.trans hlongest'
      have hfst : (Lexeme.number _).1 = kind := congrArg Prod.fst (Option.some.inj hnumber)
      have hkind : kind.isNumber = true := hfst ▸ Lexeme.isNumber_number _
      have hsign : c ≠ '-' := (Lexeme.ne_sign_of_isDigit hdigit).2
      simp [joinsArrow, hkind, hasSign, Span.between, hsign] at hnot
    · obtain ⟨hdigit, hgreater⟩ := hgap'.head_ne
      exact Lexeme.longest?_minus false hdigit hgreater

/-- Behind the first character of an arrow that no number joins there is a minus sign, unless the
next token makes an arrow of it.

**Proof sketch.** The text of the arrow is `<-`.  Behind its first character the lexer reads the
minus sign alone: no number stands there to be joined, by `hjoins`, and no angle that would make an
arrow of it, since the next token opens an expression. -/
lemma Lexer.Tokenizes.of_arrow (h : Lexer.Tokenizes b p (t :: ts) part rest)
    (harrow : t.kind = .symbol .leftArrow) (hjoins : ∀ next ∈ ts.head?, joinsArrow t next = false)
    (hopens : (headKind ts).opensExpression = true) :
    ∃ passed part', part = passed ++ part'
      ∧ Lexer.Tokenizes false (p.after passed) (minusAt t.span.afterFirstByte :: ts) part'
        rest := by
  cases h with
  | @cons _ _ gap lexeme text _ kind _ hgap hlongest h =>
    obtain rfl : kind = .symbol .leftArrow := harrow
    obtain rfl : lexeme = ['<', '-'] := (Lexeme.longest?_fits hlongest).2.2
    have hread := h.longest?_minus hjoins hopens
    refine ⟨gap ++ ['<'], '-' :: text, by simp, ?_⟩
    have hgap : Lexeme.Gap [] (['-'] ++ (text ++ rest)) :=
      Lexeme.gap_nil_cons (by decide) (by decide)
    have hcons := Lexer.Tokenizes.cons (p := (p.after gap).next '<') hgap hread h
    have hspan := Span.between_next (p := p.after gap)
      (q := ((p.after gap).next '<').next '-') (c := '<') (by decide) (by decide)
    rw [Place.after_append]
    simpa [minusAt, ← hspan] using hcons

/-- Where the first token is in two pieces, the text behind its first character has its second piece
and what follows. -/
lemma Lexer.Tokenizes.of_halves {first second : Token} {more : List Token}
    (h : Lexer.Tokenizes b p ts part rest) (hhalves : Halves ts first second more)
    (hopens : second.kind = .symbol .minus → (headKind more).opensExpression = true) :
    ∃ passed part', part = passed ++ part'
      ∧ Lexer.Tokenizes false (p.after passed) (second :: more) part' rest := by
  cases hhalves with
  | sign _ hsigned => exact h.of_sign hsigned
  | joined _ harrow hjoins => exact h.of_joined harrow hjoins
  | arrow _ harrow hjoins => exact h.of_arrow harrow hjoins (hopens rfl)

/-- **The tokens of a part of a text** that begins with the second piece of a token are that piece
and those of the text.

**Proof sketch.** The text is cut where the tokens `before` end, and again behind the first piece.
From there the second piece and the tokens up to `after` are tokenized, and the slice of the text is
what they were tokenized from, at a place `k` bytes further on. -/
theorem tokenize_slice_of_halves {before more after : List Token} {first second : Token}
    (h : tokenize source = .ok (before ++ ts ++ [eof]))
    (hhalves : Halves ts first second (more ++ after))
    (hopens : second.kind = .symbol .minus → (headKind (more ++ after)).opensExpression = true)
    (hstart : s.start = second.span.start)
    (hstop : ∀ last ∈ (second :: more).getLast?, s.stop = last.span.stop) :
    ∃ k us eof, tokenize (s.slice source) = .ok (us ++ [eof]) ∧ eof.kind = .eof
      ∧ List.Forall₂ (Shifted k) (second :: more) us := by
  obtain ⟨text, rest, hsource, hall⟩ := tokenizes_of_tokenize h
  obtain ⟨text₁, text₂, rfl, -, hmore⟩ := Lexer.Tokenizes.append_iff.1 hall
  obtain ⟨passed, part, rfl, hpart⟩ := hmore.of_halves hhalves hopens
  rw [← List.cons_append] at hpart
  obtain ⟨part, text₃, rfl, hpart, -⟩ := Lexer.Tokenizes.append_iff.1 hpart
  have hplace : source.toList = text₁ ++ passed ++ (part ++ (text₃ ++ rest)) := by
    rw [hsource]
    simp
  exact hpart.tokenize_slice hplace (by rw [Place.after_append]) (fun _ => rfl) hstart hstop

end Parts

end RakeLang
