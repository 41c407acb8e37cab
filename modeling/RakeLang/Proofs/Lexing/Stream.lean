import Mathlib.Data.List.Basic
import RakeLang.Token.Lexer

/-!
# What the token stream consists of

A lexeme has a character, so that every item but the last one takes a character and the bound on
the number of items cuts nothing short.  The stream ends with the token at the end of the input,
and this kind of token stands nowhere else.  The text of a token follows from its kind, but for
names and numbers.

## Main definitions

* `RakeLang.Kind.Fits` — the texts that a token of a kind can have.
* `RakeLang.Token.IsLexed` — a token inside a text.

## Main results

* `RakeLang.Lexeme.longest?_fits` — a lexeme has a character, and it fits its kind.
* `RakeLang.Lexer.exists_items_eq` — the items of a text end at the end of the input.
* `RakeLang.exists_of_tokenize` — so do its tokens.
-/

set_option relaxedAutoImplicit false
set_option autoImplicit false

namespace RakeLang

/-! ## Lexemes -/

/-- Can a token of this kind have the given text?  A keyword and a symbol have one spelling, and the
mention of a tine is a name behind one number sign; this says nothing about names and numbers. -/
def Kind.Fits (kind : Kind) (text : List Char) : Prop :=
  match kind with
  | .keyword k => text = k.chars
  | .symbol s => text = s.chars
  | .tineRef => text = '#' :: text.dropWhile (· == '#')
  | _ => True

/-- The token does not end the input, and its text fits its kind. -/
def Token.IsLexed (t : Token) : Prop := t.kind ≠ .eof ∧ t.kind.Fits t.lexeme.toList

namespace Lexeme

/-- A number has a digit. -/
lemma number_ne_nil {c : Char} {cs : List Char} (hc : c.isDigit = true) :
    (number (c :: cs)).2 ≠ [] := by
  have hdigits : digits (c :: cs) = c :: digits cs := by simp [digits, hc]
  simp only [number]
  split
  · simp
  · simp [hdigits]

/-- The kind of a number is that of an integer or of a float. -/
lemma isNumber_number (cs : List Char) : (number cs).1.isNumber = true := by
  simp only [number]
  split <;> rfl

/-- A number that is read is a number, with any text. -/
lemma number_kind_fits (cs text : List Char) :
    (number cs).1 ≠ .eof ∧ (number cs).1.Fits text := by
  simp only [number]
  split <;> simp [Kind.Fits]

/-- A word is a keyword with this spelling, or a name. -/
lemma wordKind_fits (word : List Char) : wordKind word ≠ .eof ∧ (wordKind word).Fits word := by
  unfold wordKind
  split
  · rename_i k hk
    have hchars := List.find?_some hk
    exact ⟨by simp, (eq_of_beq hchars).symm⟩
  · simp [Kind.Fits]

/-- A number sign in front of a name is one number sign. -/
lemma fits_tineRef {cs : List Char} (h : startsWith isNameStart cs = true) :
    Kind.tineRef.Fits ('#' :: cs.takeWhile isNamePart) := by
  rcases cs with _ | ⟨c, cs⟩
  · simp [startsWith] at h
  have hsharp : (c == '#') = false := by
    rw [beq_eq_false_iff_ne]
    rintro rfl
    have hname : isNameStart '#' = true := h
    exact absurd hname (by decide)
  have hdrop : ((c :: cs).takeWhile isNamePart).dropWhile (· == '#')
      = (c :: cs).takeWhile isNamePart := by
    rw [List.takeWhile_cons]
    split <;> simp [hsharp]
  rw [Kind.Fits, List.dropWhile_cons_of_pos rfl, hdrop]

/-- The spelling of a symbol has a character. -/
lemma chars_ne_nil (s : Symbol) : s.chars ≠ [] := by
  cases s with
  | reduce op => cases op <;> simp [Symbol.chars]
  | scan op => cases op <;> simp [Symbol.chars]
  | _ => simp [Symbol.chars]

/-- A lexeme has a character, and it fits its kind, which is not the end of the input.

**Proof sketch.** One case for each class of lexemes, in the order in which they are tried.  In each
the lexeme begins with the character that the class was chosen by, so it is not empty, and the kind
is the one of its class. -/
theorem longest?_fits {afterOperand : Bool} {cs lexeme : List Char} {kind : Kind}
    (h : longest? afterOperand cs = some (kind, lexeme)) :
    lexeme ≠ [] ∧ kind ≠ .eof ∧ kind.Fits lexeme := by
  rcases cs with _ | ⟨c, cs⟩
  · simp [longest?] at h
  simp only [longest?] at h
  split_ifs at h with hdigit hminus hname hupper hsharp hstart
  · obtain ⟨hkind, hlexeme⟩ := Prod.mk.inj (Option.some.inj h)
    exact ⟨hlexeme ▸ number_ne_nil hdigit, hkind ▸ number_kind_fits _ _⟩
  · obtain ⟨hkind, rfl⟩ := Prod.mk.inj (Option.some.inj h)
    exact ⟨by simp, hkind ▸ number_kind_fits _ _⟩
  · obtain ⟨hkind, rfl⟩ := Prod.mk.inj (Option.some.inj h)
    exact ⟨by simp, hkind ▸ wordKind_fits _⟩
  · obtain ⟨rfl, rfl⟩ := Prod.mk.inj (Option.some.inj h)
    simp [Kind.Fits]
  · obtain ⟨rfl, rfl⟩ := Prod.mk.inj (Option.some.inj h)
    rw [hsharp]
    exact ⟨by simp, by simp, fits_tineRef hstart⟩
  · obtain ⟨s, -, hs⟩ := Option.map_eq_some_iff.1 h
    obtain ⟨rfl, rfl⟩ := Prod.mk.inj hs
    exact ⟨chars_ne_nil s, by simp, rfl⟩

end Lexeme

/-! ## Items -/

namespace Lexer

/-- A lexer that has yielded the end of the input yields nothing more. -/
lemma itemsUpTo_of_finished {l : Lexer} (hl : l.finished = true) (n : Nat) :
    l.itemsUpTo n = [] := by
  rcases n with _ | n
  · rfl
  · simp [itemsUpTo, next?, hl]

/-- At the end of the text the lexer reads the end of the input. -/
lemma read_of_rest_nil {l : Lexer} (h : l.rest = []) :
    ∃ eof, l.read = (.token eof, { l with finished := true }) ∧ eof.kind = .eof := by
  unfold read
  rw [h]
  exact ⟨_, rfl, rfl⟩

/-- At a lexeme the lexer reads a token, and stands behind it then. -/
lemma read_of_longest?_eq_some {l : Lexer} {kind : Kind} {lexeme : List Char}
    (h : Lexeme.longest? l.afterOperand l.rest = some (kind, lexeme)) :
    l.read = (.token ⟨kind, String.ofList lexeme, .between l.place (l.place.after lexeme)⟩,
      ⟨l.rest.drop lexeme.length, l.place.after lexeme, kind.endsOperand, l.finished⟩) := by
  unfold read
  rcases hrest : l.rest with _ | ⟨c, cs⟩ <;> rw [hrest] at h
  · cases h
  · simp only [h]

/-- At a character that begins no lexeme the lexer passes over it. -/
lemma read_of_longest?_eq_none {l : Lexer} {c : Char} {cs : List Char} (hrest : l.rest = c :: cs)
    (h : Lexeme.longest? l.afterOperand (c :: cs) = none) :
    l.read = (.unrecognized c (.between l.place (l.place.next c)),
      ⟨cs, l.place.next c, l.afterOperand, l.finished⟩) := by
  simp only [read, hrest, h]

/-- Before the end of the text the lexer reads an item that takes a character, and a token is one
that the text has inside.

**Proof sketch.** By cases on whether a lexeme stands at the head.  If not, the first character is
reported and dropped; if so, the lexeme, which has a character, is dropped, and it fits its kind by
`Lexeme.longest?_fits`. -/
lemma read_of_rest_ne_nil {l : Lexer} (h : l.rest ≠ []) :
    l.read.2.finished = l.finished ∧ l.read.2.rest.length < l.rest.length
      ∧ ∀ t, l.read.1 = .token t → t.IsLexed := by
  rcases hlong : Lexeme.longest? l.afterOperand l.rest with _ | ⟨kind, lexeme⟩
  · obtain ⟨c, cs, hcs⟩ := List.exists_cons_of_ne_nil h
    rw [read_of_longest?_eq_none hcs (hcs ▸ hlong), hcs]
    exact ⟨rfl, Nat.lt_succ_self _, nofun⟩
  · obtain ⟨hne, hkind, hfits⟩ := Lexeme.longest?_fits hlong
    have hpos := List.length_pos_iff.2 hne
    have hrest := List.length_pos_iff.2 h
    rw [read_of_longest?_eq_some hlong]
    refine ⟨rfl, ?_, ?_⟩
    · rw [List.length_drop]
      omega
    · rintro _ ⟨⟩
      exact ⟨hkind, by simpa using hfits⟩

/-- The items of a lexer, with a bound beyond the characters that are left, end with the end of
the input, before which only tokens stand that a text has inside.

**Proof sketch.** Induction on the bound.  An item behind which the input has not ended takes a
character. -/
lemma itemsUpTo_eq (n : Nat) :
    ∀ l : Lexer, l.finished = false → l.rest.length < n →
      ∃ items eof, l.itemsUpTo n = items ++ [.token eof] ∧ eof.kind = .eof
        ∧ ∀ t, LexItem.token t ∈ items → t.IsLexed := by
  induction n with
  | zero => intro l _ hn; omega
  | succ n ih =>
    intro l hl hn
    have hskip : l.skipTrivia.rest.length ≤ l.rest.length := by simp [skipTrivia]
    have hnext : l.itemsUpTo (n + 1)
        = l.skipTrivia.read.1 :: l.skipTrivia.read.2.itemsUpTo n := by
      simp [itemsUpTo, next?, hl]
    by_cases hrest : l.skipTrivia.rest = []
    · obtain ⟨eof, hread, heof⟩ := read_of_rest_nil hrest
      refine ⟨[], eof, ?_, heof, by simp⟩
      rw [hnext, hread, itemsUpTo_of_finished rfl, List.nil_append]
    · obtain ⟨hfinished, hshorter, hkind⟩ := read_of_rest_ne_nil hrest
      obtain ⟨items, eof, hitems, heof, hnot⟩ :=
        ih l.skipTrivia.read.2 (hfinished.trans hl) (by omega)
      refine ⟨l.skipTrivia.read.1 :: items, eof, ?_, heof, ?_⟩
      · rw [hnext, hitems, List.cons_append]
      · intro t ht
        rcases List.mem_cons.1 ht with ht | ht
        · exact hkind t ht.symm
        · exact hnot t ht

/-- The items of a text end with the end of the input, before which only tokens stand that a text
has inside. -/
theorem exists_items_eq (source : String) :
    ∃ items eof, lex source = items ++ [.token eof] ∧ eof.kind = .eof
      ∧ ∀ t, LexItem.token t ∈ items → t.IsLexed :=
  itemsUpTo_eq _ _ rfl (Nat.lt_succ_self _)

end Lexer

/-! ## Tokens -/

/-- Where every item is a token, the tokens are the items.

**Proof sketch.** By induction on the items.  A first item that is no token makes the whole row
fail, and a token is the first one of the result. -/
lemma LexItem.eq_map_of_mapM {items : List LexItem} :
    ∀ {tokens : List Token}, items.mapM LexItem.toExcept = .ok tokens →
      items = tokens.map LexItem.token := by
  induction items with
  | nil =>
    intro tokens h
    obtain rfl : [] = tokens := by simpa [pure, Except.pure] using h
    rfl
  | cons item items ih =>
    intro tokens h
    rw [List.mapM_cons] at h
    rcases item with t | ⟨char, span⟩
    · rcases hrest : items.mapM toExcept with fault | ts
      · simp [toExcept, hrest, bind, Except.bind] at h
      · obtain rfl : t :: ts = tokens := by
          simpa [toExcept, hrest, bind, Except.bind, pure, Except.pure] using h
        rw [List.map_cons, ih hrest]
    · simp [toExcept, bind, Except.bind] at h

/-- The tokens of a text end with the end of the input, before which only tokens stand that a text
has inside. -/
theorem exists_of_tokenize {source : String} {all : List Token} (h : tokenize source = .ok all) :
    ∃ tokens eof, all = tokens ++ [eof] ∧ eof.kind = .eof ∧ ∀ t ∈ tokens, t.IsLexed := by
  obtain ⟨items, eof, hitems, heof, hnot⟩ := Lexer.exists_items_eq source
  have hmap := LexItem.eq_map_of_mapM h
  rw [hitems] at hmap
  obtain ⟨tokens, last, rfl, htokens, hlast⟩ := List.append_eq_map_iff.1 hmap
  obtain ⟨eof', rfl, heq⟩ : ∃ t, last = [t] ∧ LexItem.token t = .token eof := by
    simpa [List.map_eq_singleton_iff] using hlast
  obtain rfl := LexItem.token.inj heq
  refine ⟨tokens, eof', rfl, heof, fun t ht => hnot t ?_⟩
  rw [← htokens]
  exact List.mem_map_of_mem ht

end RakeLang
