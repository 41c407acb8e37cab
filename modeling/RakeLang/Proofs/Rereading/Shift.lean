import RakeLang.Proofs.Settling.Mode
import RakeLang.Proofs.Spelling.Definition

/-!
# Tokens that are shifted

What a part of a text is spelled by does not depend on where it stands: a spelling tells the kinds
and the texts of tokens and nothing of their spans.  And the splits of tokens do not depend on it
either, but for the question whether two tokens touch, which a shift of both leaves as it is.

## Main definitions

* `RakeLang.Token.content` — the kind and the text of a token.
* `RakeLang.Spelling.Stable` — a language that tells nothing but kinds and texts.
* `RakeLang.Token.Shifted` — the same token some bytes further back.

## Main results

* `RakeLang.Expression.stable_spelling`, `RakeLang.Predicate.stable_plainSpelling` — spellings are
  stable.
* `RakeLang.settle_shifted` — tokens that are shifted are settled alike.
-/

set_option relaxedAutoImplicit false
set_option autoImplicit false

namespace RakeLang

open Token

/-! ## Stable languages -/

/-- The kind and the text of a token. -/
def Token.content (t : Token) : Kind × String := (t.kind, t.lexeme)

namespace Spelling

/-- With a list of tokens the language has all lists with the same kinds and texts. -/
def Stable (L : Language Token) : Prop :=
  ∀ ts ∈ L, ∀ us : List Token, us.map content = ts.map content → us ∈ L

/-- Tokens with the same kinds and texts begin alike. -/
lemma headKind_of_content {ts us : List Token} (h : us.map content = ts.map content) :
    headKind us = headKind ts := by
  rcases ts with _ | ⟨t, ts⟩ <;> rcases us with _ | ⟨u, us⟩
  · rfl
  · cases h
  · cases h
  · simp only [List.map_cons, content, List.cons.injEq, Prod.mk.injEq] at h
    exact h.1.1

section Stable

variable {L M : Language Token}

/-- No tokens are told by kinds and texts. -/
lemma stable_one : Stable 1 := by
  rintro ts rfl us h
  exact List.map_eq_nil_iff.1 h

/-- A token is told by its kind and its text. -/
lemma stable_token {P : Kind → String → Prop} : Stable (token fun t => P t.kind t.lexeme) := by
  rintro _ ⟨t, ht, rfl⟩ us h
  obtain ⟨u, rfl, hu⟩ := List.map_eq_singleton_iff.1 h
  simp only [content, Prod.mk.injEq] at hu
  refine ⟨u, ?_, rfl⟩
  change P u.kind u.lexeme
  rwa [hu.1, hu.2]

/-- A concatenation of stable languages is stable. -/
lemma Stable.mul (hL : Stable L) (hM : Stable M) : Stable (L * M) := by
  rintro _ h us hus
  obtain ⟨ts, hts, vs, hvs, rfl⟩ := Language.mem_mul.1 h
  rw [List.map_append] at hus
  obtain ⟨us₁, us₂, rfl, h₁, h₂⟩ := List.map_eq_append_iff.1 hus
  exact Language.append_mem_mul (hL ts hts us₁ h₁) (hM vs hvs us₂ h₂)

/-- A choice of stable languages is stable. -/
lemma Stable.add (hL : Stable L) (hM : Stable M) : Stable (L + M) := by
  rintro ts (h | h) us hus
  · exact .inl (hL ts h us hus)
  · exact .inr (hM ts h us hus)

/-- What does not begin with some kinds is stable. -/
lemma Stable.notBeginning (hL : Stable L) (kinds : List Kind) :
    Stable (notBeginning kinds L) := fun ts h us hus =>
  ⟨hL ts h.1 us hus, by rw [headKind_of_content hus]; exact h.2⟩

/-- A row of stable languages is stable. -/
lemma stable_prod {α : Type} {F : α → Language Token} {as : List α}
    (h : ∀ a ∈ as, Stable (F a)) : Stable (as.map F).prod := by
  induction as with
  | nil => exact stable_one
  | cons a as ih =>
    rw [List.forall_mem_cons] at h
    rw [List.map_cons, List.prod_cons]
    exact h.1.mul (ih h.2)

/-- A sign tells a kind. -/
lemma stable_sign (s : Symbol) : Stable (sign s) :=
  stable_token (P := fun kind _ => kind = .symbol s)

/-- A keyword tells a kind. -/
lemma stable_keyword (k : Keyword) : Stable (keyword k) :=
  stable_token (P := fun kind _ => kind = .keyword k)

/-- A word tells a kind and a text. -/
lemma stable_word (k : Kind) (text : String) : Stable (word k text) :=
  stable_token (P := fun kind lexeme => kind = k ∧ lexeme = text)

/-- Stable languages with commas between them are stable. -/
lemma stable_separated {α : Type} {F : α → Language Token} {as : List α}
    (h : ∀ a ∈ as, Stable (F a)) : Stable (separated (as.map F)) := by
  rcases as with _ | ⟨a, as⟩
  · exact stable_one
  · rw [List.forall_mem_cons] at h
    rw [List.map_cons, separated, List.map_map]
    exact h.1.mul (stable_prod fun b hb => (stable_sign .comma).mul (h.2 b hb))

end Stable

end Spelling

open Spelling

/-! ## The spellings of trees -/

/-- The spelling of a type tells nothing but kinds and texts. -/
lemma DataType.stable_spelling : ∀ t : DataType, Stable t.spelling
  | lane .. | rack .. | stack .. | single .. | pack .. | mask .. | unit .. => by
    rw [DataType.spelling]
    first
      | exact stable_word _ _
      | exact (stable_word _ _).mul (stable_word _ _)
      | exact (stable_word _ _).mul (stable_keyword _)
      | exact (stable_sign _).mul (stable_sign _)
  | function params result _ => by
    rw [DataType.spelling]
    exact (stable_sign _).mul ((stable_separated fun t _ => t.stable_spelling).mul
      ((stable_sign _).mul ((stable_sign _).mul result.stable_spelling)))
  | tuple items _ => by
    rw [DataType.spelling]
    exact (stable_sign _).mul ((stable_separated fun t _ => t.stable_spelling).mul (stable_sign _))

/-- The number that a token spells is told by its kind and its text. -/
lemma Number.stable_spelling (n : Number) : Stable n.spelling :=
  stable_token (P := fun kind lexeme => Token.number? ⟨kind, lexeme, .origin⟩ = some n)

/-- The spelling of a number behind a minus sign tells nothing but kinds and texts. -/
lemma Number.stable_oppositeSpelling (n : Number) : Stable n.oppositeSpelling :=
  stable_token
    (P := fun kind lexeme =>
      ∃ m, Token.number? ⟨kind, lexeme, .origin⟩ = some m ∧ m.negate? = some n)

/-- The spelling of a scalar literal tells nothing but kinds and texts. -/
lemma ScalarLiteral.stable_spelling (l : ScalarLiteral) : Stable l.spelling := by
  refine Stable.mul ?_ (stable_sign _)
  cases l.value with
  | path root fields =>
    exact (stable_sign _).mul ((stable_word _ _).mul
      (stable_prod fun _ _ => (stable_sign _).mul (stable_word _ _)))
  | number n =>
    exact ((stable_sign _).mul (n.stable_spelling.add
      ((stable_sign _).mul n.stable_oppositeSpelling))).add
        ((stable_sign _).mul n.stable_oppositeSpelling)

/-- The spelling of a parameter tells nothing but kinds and texts. -/
lemma Parameter.stable_spelling (p : Parameter) : Stable p.spelling := by
  rcases p with ⟨name, _ | type, span⟩ | ⟨literal, _ | type, span⟩
  · exact stable_word _ _
  · exact (stable_sign _).mul ((stable_word _ _).mul ((stable_sign _).mul
      (type.stable_spelling.mul (stable_sign _))))
  · exact literal.stable_spelling
  · exact (stable_sign _).mul (literal.stable_spelling.mul ((stable_sign _).mul
      (type.stable_spelling.mul (stable_sign _))))

/-- The spelling of a truth value tells nothing but kinds. -/
lemma Spelling.stable_truth (value : Bool) : Stable (truth value) := by
  cases value <;> exact stable_keyword _

/-- The spelling of a binary operator tells nothing but a kind. -/
lemma BinaryOp.stable_spelling (op : BinaryOp) : Stable op.spelling :=
  stable_token (P := fun kind _ => kind.binaryOp? = some op)

/-- The spelling of a unary operator tells nothing but a kind. -/
lemma UnaryOp.stable_spelling (op : UnaryOp) : Stable op.spelling :=
  stable_token (P := fun kind _ => kind.unaryOp? = some op)

mutual

/-- The spelling of an expression tells nothing but kinds and texts.

**Proof sketch.** Induction on the expression: each factor of its spelling is a token of some
kind and text, or the spelling of an expression inside of it. -/
theorem Expression.stable_spelling : ∀ e : Expression, Stable e.spelling
  | .binary op lhs rhs _ => by
    rw [Expression.spelling]
    exact lhs.stable_spelling.mul (op.stable_spelling.mul rhs.stable_spelling)
  | .unary op operand _ => by
    rw [Expression.spelling]
    exact op.stable_spelling.mul operand.stable_spelling
  | .call _ args _ => by
    rw [Expression.spelling]
    exact (stable_word _ _).mul ((stable_sign _).mul
      ((stable_separated fun a _ => a.stable_spelling).mul (stable_sign _)))
  | .field base _ _ => by
    rw [Expression.spelling]
    exact base.stable_spelling.mul ((stable_sign _).mul (stable_word _ _))
  | .scalar literal => by
    rw [Expression.spelling]
    exact literal.stable_spelling
  | .record _ inits _ => by
    rw [Expression.spelling]
    exact (stable_word _ _).mul ((stable_sign _).mul
      ((stable_separated fun i _ => i.stable_spelling).mul (stable_sign _)))
  | .reduce _ operand _ | .scan _ operand _ => by
    rw [Expression.spelling]
    exact operand.stable_spelling.mul (stable_sign _)
  | .shuffle operand indices _ => by
    rw [Expression.spelling]
    exact operand.stable_spelling.mul ((stable_sign _).mul ((stable_sign _).mul
      ((stable_separated fun v _ => stable_token
        (P := fun kind lexeme => kind = .int ∧ Numeral.readInt? lexeme = some v)).mul
          (stable_sign _))))
  | .lambda params body _ => by
    rw [Expression.spelling]
    exact (stable_keyword _).mul ((stable_prod fun p _ => p.stable_spelling).mul
      ((stable_sign _).mul body.stable_spelling))
  | .letIn _ value body _ => by
    rw [Expression.spelling]
    exact (stable_keyword _).mul ((stable_word _ _).mul ((stable_sign _).mul
      (value.stable_spelling.mul ((stable_keyword _).mul body.stable_spelling))))
  | .ident .. => by
    rw [Expression.spelling]
    exact stable_word _ _
  | .number value _ => by
    rw [Expression.spelling]
    exact value.stable_spelling
  | .bool value _ => by
    rw [Expression.spelling]
    exact stable_truth value
  | .laneIndex _ => by
    rw [Expression.spelling]
    exact stable_sign _
  | .lanes _ => by
    rw [Expression.spelling]
    exact stable_keyword _
  | .unit _ => by
    rw [Expression.spelling]
    exact (stable_sign _).mul (stable_sign _)
  | .paren inner _ => by
    rw [Expression.spelling]
    exact (stable_sign _).mul (inner.stable_spelling.mul (stable_sign _))
  | .tuple items _ => by
    rw [Expression.spelling]
    exact (stable_sign _).mul ((stable_separated fun e _ => e.stable_spelling).mul (stable_sign _))

/-- The spelling of a field of a record expression tells nothing but kinds and texts. -/
lemma FieldInit.stable_spelling : ∀ i : FieldInit, Stable i.spelling
  | .mk _ value _ => by
    rw [FieldInit.spelling]
    exact (stable_word _ _).mul ((stable_sign _).mul value.stable_spelling)

end

/-- The spelling of an operator of comparisons tells nothing but kinds. -/
lemma CompareOp.stable_spelling (op : CompareOp) : Stable op.spelling := by
  cases op with
  | is => exact stable_keyword _
  | isNot => exact (stable_keyword _).mul (stable_keyword _)
  | _ => exact stable_token (P := fun kind _ => kind.compareOp? = some _)

/-- The plain spelling of a predicate tells nothing but kinds and texts.

**Proof sketch.** By induction on the predicate: languages of single tokens that look at kinds
and texts are stable, and so are products of stable languages. -/
theorem Predicate.stable_plainSpelling (p : Predicate) : Stable p.plainSpelling := by
  induction p with
  | or lhs rhs span ihl ihr =>
    exact ihl.mul ((stable_token
      (P := fun kind _ => kind = .symbol .pipePipe ∨ kind = .keyword .or)).mul ihr)
  | and lhs rhs span ihl ihr =>
    exact ihl.mul ((stable_token
      (P := fun kind _ => kind = .symbol .ampAmp ∨ kind = .keyword .and)).mul ihr)
  | not operand span ih =>
    exact (stable_token (P := fun kind _ => kind = .symbol .bang ∨ kind = .keyword .not)).mul ih
  | compare op lhs rhs span =>
    exact (lhs.stable_spelling.notBeginning _).mul
      (op.stable_spelling.mul (rhs.stable_spelling.notBeginning _))
  | tineTest tine =>
    exact stable_token (P := fun kind lexeme => kind = .tineRef
      ∧ String.ofList (lexeme.toList.dropWhile (· == '#')) = tine.name)
  | group inner span ih => exact (stable_sign _).mul (ih.mul (stable_sign _))
  | const value span => exact stable_truth value

/-! ## Tokens in two pieces -/

namespace Token

/-- A list of tokens with its first token in two pieces, and what follows them. -/
inductive Halves : List Token → Token → Token → List Token → Prop
  | sign {t : Token} (ts : List Token) (h : t.isSignedNumber = true) :
      Halves (t :: ts) (minusAt t.span.firstByte) t.withoutSign ts
  | joined {t next : Token} (more : List Token) (h : t.kind = .symbol .leftArrow)
      (hjoins : joinsArrow t next = true) :
      Halves (t :: next :: more) (lessAt t.span.firstByte) (joined t next) more
  | arrow {t : Token} (ts : List Token) (h : t.kind = .symbol .leftArrow)
      (hjoins : ∀ next ∈ ts.head?, joinsArrow t next = false) :
      Halves (t :: ts) (lessAt t.span.firstByte) (minusAt t.span.afterFirstByte) ts

section Halves

variable {ts us more : List Token} {first second : Token}

/-- What falls into halves is split into these. -/
lemma Halves.splitHead_eq (h : Halves ts first second more) :
    splitHead ts = first :: second :: more := by
  cases h with
  | sign _ h => simp [splitHead, splitSign?, h]
  | joined _ h hjoins =>
    simp [splitHead, splitSign?, isSignedNumber, h, Kind.isNumber, splitArrow?, hjoins]
  | arrow _ h hjoins =>
    rcases more with _ | ⟨next, rest⟩
    · simp [splitHead, splitSign?, isSignedNumber, h, Kind.isNumber, splitArrow?]
    · simp [splitHead, splitSign?, isSignedNumber, h, Kind.isNumber, splitArrow?,
        hjoins next rfl]

/-- The first token stays, or it is in two pieces. -/
lemma splitHead_eq_or_halves (ts : List Token) :
    (∀ t ∈ ts.head?, t.isSignedNumber = false ∧ t.kind ≠ .symbol .leftArrow)
      ∨ ∃ first second more, Halves ts first second more := by
  rcases ts with _ | ⟨t, ts⟩
  · exact .inl (by simp)
  by_cases hsigned : t.isSignedNumber = true
  · exact .inr ⟨_, _, _, .sign ts hsigned⟩
  rw [Bool.not_eq_true] at hsigned
  by_cases harrow : t.kind = .symbol .leftArrow
  · by_cases hjoins : ∀ next ∈ ts.head?, joinsArrow t next = false
    · exact .inr ⟨_, _, _, .arrow ts harrow hjoins⟩
    · rcases ts with _ | ⟨next, more⟩
      · simp at hjoins
      · exact .inr ⟨_, _, _, .joined more harrow (by simpa using hjoins)⟩
  · exact .inl (by simp [hsigned, harrow])

/-- What follows the pieces is what followed the token, without a number that joined them; it may be
replaced, but not so that a number joins an arrow.

**Proof sketch.** By the way in which the token was split.  Only in front of an arrow that no number
joins does it matter what follows. -/
lemma Halves.exists_append (h : Halves ts first second more) :
    ∃ taken, taken ≠ [] ∧ ts = taken ++ more
      ∧ (second.kind = .symbol .minus → ∀ t ∈ taken, t.kind = .symbol .leftArrow)
      ∧ ∀ more' : List Token,
        (second.kind = .symbol .minus → ∀ next ∈ more'.head?, next ∈ more.head?) →
          Halves (taken ++ more') first second more' := by
  cases h with
  | @sign t _ h =>
    refine ⟨[t], by simp, rfl, fun hminus => ?_, fun more' _ => .sign _ h⟩
    simp only [isSignedNumber, Bool.and_eq_true] at h
    rw [show t.kind = .symbol .minus from hminus] at h
    cases h.1
  | @joined t next _ h hjoins =>
    refine ⟨[t, next], by simp, rfl, fun hminus => ?_, fun more' _ => .joined _ h hjoins⟩
    simp only [joinsArrow, Bool.and_eq_true] at hjoins
    rw [show next.kind = .symbol .minus from hminus] at hjoins
    cases hjoins.1.1
  | @arrow t _ h hjoins =>
    refine ⟨[t], by simp, rfl, fun _ u hu => ?_, fun more' hmore => .arrow _ h fun next hnext => ?_⟩
    · rw [List.mem_singleton.1 hu]
      exact h
    · exact hjoins next (hmore rfl next hnext)

/-- The first half is a minus sign or a less-than sign. -/
lemma Halves.first_kind (h : Halves ts first second more) :
    first.kind = .symbol .minus ∨ first.kind = .symbol .less := by
  cases h with
  | sign => exact .inl rfl
  | joined | arrow => exact .inr rfl

/-- The second half is a minus sign or a number. -/
lemma Halves.second_kind (h : Halves ts first second more) :
    second.kind = .symbol .minus ∨ second.kind.isNumber = true := by
  cases h with
  | sign _ h =>
    simp only [isSignedNumber, Bool.and_eq_true] at h
    exact .inr h.1
  | joined _ h hjoins =>
    simp only [joinsArrow, Bool.and_eq_true] at hjoins
    exact .inr hjoins.1.1
  | arrow => exact .inl rfl

/-- A second piece that cannot end an operand is a minus sign. -/
lemma Halves.second_eq_minus (h : Halves ts first second more)
    (hends : second.kind.endsOperand = false) : second.kind = .symbol .minus := by
  rcases h.second_kind with hminus | hnumber
  · exact hminus
  · revert hnumber hends
    cases second.kind <;> simp [Kind.isNumber, Kind.endsOperand]

/-- A token that stays does not depend on what follows it. -/
lemma splitHead_cons {t : Token} (h : t.isSignedNumber = false ∧ t.kind ≠ .symbol .leftArrow)
    (ts : List Token) : splitHead (t :: ts) = t :: ts := by
  simp [splitHead, splitSign?, splitArrow?, h.1, h.2]

end Halves

end Token

/-! ## Shifted tokens -/

/-- The tokens have the same kind and text, and `t` stands `k` bytes behind the place of `u`. -/
structure Token.Shifted (k : Nat) (t u : Token) : Prop where
  content : u.content = t.content
  start : t.span.start = u.span.start + k
  stop : t.span.stop = u.span.stop + k

namespace Token

variable {k : Nat} {t u : Token} {ts us : List Token}

/-- A token keeps its kind when it is shifted. -/
lemma Shifted.kind (h : Shifted k t u) : t.kind = u.kind := (congrArg Prod.fst h.content).symm

/-- A token keeps its text when it is shifted. -/
lemma Shifted.lexeme (h : Shifted k t u) : t.lexeme = u.lexeme :=
  (congrArg Prod.snd h.content).symm

/-- Shifted tokens have the same kinds and texts. -/
lemma map_content_of_shifted (h : List.Forall₂ (Shifted k) ts us) :
    us.map content = ts.map content := by
  induction h with
  | nil => rfl
  | cons h _ ih => rw [List.map_cons, List.map_cons, h.content, ih]

/-- Tokens are shifted by nothing from themselves. -/
lemma shifted_zero (ts : List Token) : List.Forall₂ (Shifted 0) ts ts :=
  List.forall₂_same.2 fun _ _ => ⟨rfl, rfl, rfl⟩

/-- A shifted token is a number with a sign if the token is. -/
lemma Shifted.isSignedNumber (h : Shifted k t u) : t.isSignedNumber = u.isSignedNumber := by
  simp only [Token.isSignedNumber, hasSign, h.kind, h.lexeme]

/-- A token at the first byte of a span is shifted with the span. -/
lemma Shifted.firstByte {f : Span → Token} (h : Shifted k t u)
    (hf : ∀ s s', (f s).content = (f s').content) (hspan : ∀ s, (f s).span = s) :
    Shifted k (f t.span.firstByte) (f u.span.firstByte) := by
  refine ⟨hf _ _, ?_, ?_⟩
  · simpa [hspan, Span.firstByte] using h.start
  · simp only [hspan, Span.firstByte, h.start]
    omega

/-- A token behind the first byte of a span is shifted with the span. -/
lemma Shifted.afterFirstByte {f : Span → Token} (h : Shifted k t u)
    (hf : ∀ s s', (f s).content = (f s').content) (hspan : ∀ s, (f s).span = s) :
    Shifted k (f t.span.afterFirstByte) (f u.span.afterFirstByte) := by
  refine ⟨hf _ _, ?_, ?_⟩
  · simp only [hspan, Span.afterFirstByte, h.start]
    omega
  · simpa [hspan, Span.afterFirstByte] using h.stop

/-- The number without its sign is shifted with the number. -/
lemma Shifted.withoutSign (h : Shifted k t u) : Shifted k t.withoutSign u.withoutSign := by
  refine ⟨?_, ?_, h.stop⟩
  · simp only [Token.withoutSign, Token.content, h.kind, h.lexeme]
  · simp only [Token.withoutSign, Span.afterFirstByte, h.start]
    omega

/-- Whether an arrow joins the number behind it does not depend on where both stand. -/
lemma Shifted.joinsArrow {next next' : Token} (h : Shifted k t u) (hnext : Shifted k next next') :
    Token.joinsArrow t next = Token.joinsArrow u next' := by
  have htouch : (next.span.start == t.span.stop) = (next'.span.start == u.span.stop) := by
    rw [hnext.start, h.stop]
    exact decide_eq_decide.2 (Nat.add_right_cancel_iff)
  simp only [Token.joinsArrow, hasSign, hnext.kind, hnext.lexeme, htouch]

/-- A number that takes the sign of an arrow is shifted with both. -/
lemma Shifted.joined {next next' : Token} (h : Shifted k t u) (hnext : Shifted k next next') :
    Shifted k (Token.joined t next) (Token.joined u next') := by
  have hstart : t.span.afterFirstByte.start = u.span.afterFirstByte.start + k := by
    simp only [Span.afterFirstByte, h.start]
    omega
  refine ⟨?_, ?_, ?_⟩
  · simp only [Token.joined, Token.content, hnext.kind, hnext.lexeme]
  · simp only [Token.joined, Span.merge, hstart, hnext.start, Nat.add_le_add_iff_right]
    split
    · exact hstart
    · exact hnext.start
  · simp only [Token.joined, Span.merge, Span.afterFirstByte, h.stop, hnext.stop]
    omega

/-- Tokens that are shifted split alike.

**Proof sketch.** The splits ask for the kind and the text of the first token, and whether the
next one touches it; both sides answer alike, and the pieces are at the first byte and behind it. -/
lemma splitHead_shifted (h : List.Forall₂ (Shifted k) ts us) :
    List.Forall₂ (Shifted k) (splitHead ts) (splitHead us) := by
  rcases h with _ | ⟨ht, hrest⟩
  · exact .nil
  rename_i t u ts us
  have hless : Shifted k (lessAt t.span.firstByte) (lessAt u.span.firstByte) :=
    ht.firstByte (fun _ _ => rfl) fun _ => rfl
  have hminus : Shifted k (minusAt t.span.afterFirstByte) (minusAt u.span.afterFirstByte) :=
    ht.afterFirstByte (fun _ _ => rfl) fun _ => rfl
  have hsign : Shifted k (minusAt t.span.firstByte) (minusAt u.span.firstByte) :=
    ht.firstByte (fun _ _ => rfl) fun _ => rfl
  simp only [splitHead, splitSign?, splitArrow?, ht.isSignedNumber, ht.kind]
  by_cases hsigned : u.isSignedNumber = true
  · simp only [hsigned, if_true]
    exact .cons hsign (.cons ht.withoutSign hrest)
  by_cases harrow : u.kind = .symbol .leftArrow
  · simp only [hsigned, harrow, if_true, Bool.false_eq_true, if_false]
    rcases hrest with _ | ⟨hnext, hmore⟩
    · exact .cons hless (.cons hminus .nil)
    · simp only [ht.joinsArrow hnext]
      split
      · exact .cons hless (.cons (ht.joined hnext) hmore)
      · exact .cons hless (.cons hminus (.cons hnext hmore))
  · simp only [hsigned, harrow, Bool.false_eq_true, if_false, Option.getD_none]
    exact .cons ht hrest

end Token

/-- Tokens that are shifted are settled alike.

**Proof sketch.** Induction on the number of pieces, which each token that is settled lowers. -/
theorem settle_shifted {k : Nat} (n : Nat) :
    ∀ (σ : Mode) {ts us : List Token}, countPieces ts = n → List.Forall₂ (Shifted k) ts us →
      List.Forall₂ (Shifted k) (settle σ ts) (settle σ us) := by
  induction n using Nat.strong_induction_on with
  | h n ih =>
    intro σ ts us hn h
    have hsplit : List.Forall₂ (Shifted k) (σ.split ts) (σ.split us) := by
      cases σ with
      | behind depth => exact splitHead_shifted h
      | _ => exact h
    have hpieces := σ.countPieces_split ts
    rcases hts : σ.split ts with _ | ⟨t, ts'⟩
    · obtain rfl : us = [] := by simpa [hts] using hsplit
      obtain rfl : ts = [] := by simpa using hts
      simp
    · rw [hts] at hsplit hpieces
      obtain ⟨u, us', ht, hrest, hus⟩ := List.forall₂_cons_left_iff.1 hsplit
      have hpos := t.one_le_pieces
      rw [countPieces_cons] at hpieces
      rw [settle_of_split hts, settle_of_split hus, ← ht.kind]
      exact .cons ht (ih _ (by omega) (σ.step t.kind) rfl hrest)

end RakeLang
