import RakeLang.Proofs.Mirroring.Respan
import RakeLang.Proofs.Settling.Repetition
import RakeLang.Predicate.Parser

/-!
# Readings that mirror each other

Two inputs show the same tokens, but at other places.  A reading looks at the kinds and at the texts
of tokens; places only go into spans and into faults, and with one exception nothing depends on
them: an arrow joins a number that touches it.  So where the splits agree, the two readings mirror
each other: they answer the same trees up to spans, and the same faults up to where these show.

A `Mirror` is such a relation between cursors, with a clause for each way to move a cursor.  The
left input may also be a beginning of the right one that ends where another definition opens, or
where another section of a rake does; then only the successes of the left side are mirrored.

## Main definitions

* `RakeLang.Mirror` — the relations; `RakeLang.Mirror.Alike` and `RakeLang.Mirror.Faults` say what
  is the same up to spans.
* `RakeLang.Kind.opensPart` — the tokens at which the left input may end.
* `RakeLang.Mirror.EndsAtDefinitions` — the left input ends where another definition opens.
* `RakeLang.Parser.Mirrors` — the judgement.

## Main results

* `RakeLang.Parser.Mirrors.bind`, `RakeLang.Parser.Mirrors.expect_bind` and their relatives — single
  steps.
* `RakeLang.Parser.Mirrors.many`, `RakeLang.Parser.Mirrors.commaSeparated`,
  `RakeLang.Parser.Mirrors.leftAssoc`, `RakeLang.Parser.Mirrors.prefixed` — repetitions, lists and
  chains.
-/

set_option relaxedAutoImplicit false
set_option autoImplicit false

namespace RakeLang

open Token

/-! ## Mirrors -/

/-- Does a token of this kind open a definition or a section of a rake, or end the input? -/
def Kind.opensPart : Kind → Bool
  | .keyword .letKw | .keyword .through | .keyword .sweep | .symbol .pipe | .eof => true
  | kind => kind.opensDefinition

/-- A token that opens a definition opens a part. -/
lemma Kind.opensPart_of_opensDefinition {kind : Kind} (h : kind.opensDefinition = true) :
    kind.opensPart = true := by
  unfold opensPart
  split <;> first | rfl | exact h

/-- The tokens have the same kind and the same text, and their spans are related. -/
structure Token.Twin (Spans : Span → Span → Prop) (t u : Token) : Prop where
  kind : t.kind = u.kind
  lexeme : t.lexeme = u.lexeme
  span : Spans t.span u.span

/-- A relation between the cursors of two inputs, the left and the right one, that no reading can
tell apart. -/
structure Mirror where
  /-- How the spans of the left side are looked at when they are compared. -/
  left : Span → Span
  /-- How those of the right side are looked at. -/
  right : Span → Span
  Spans : Span → Span → Prop
  /-- Are the two inputs equally long from related cursors on? -/
  total : Prop
  /-- How many more tokens were read on the right side. -/
  older : Nat
  Rel : Cursor → Cursor → Prop
  /-- Where the right cursor can stand when the left one is at the end of its input. -/
  Fence : Cursor → Prop
  opensPart : ∀ {d}, Fence d → d.peek.kind.opensPart = true
  view : ∀ {s s'}, Spans s s' → left s = right s'
  merge : ∀ {s s' t t'}, Spans s s' → Spans t t' → Spans (s.merge t) (s'.merge t')
  order : ∀ {s s' t t'}, Spans s s' → Spans t t' → (s.start ≤ t.start ↔ s'.start ≤ t'.start)
  /-- Related cursors show the same token, or the left one is at the end of its input and the right
  one where another part opens. -/
  heads : ∀ {c d}, Rel c d → Twin Spans c.peek d.peek ∨ (¬ total ∧ c.ahead = [] ∧ Fence d)
  advance : ∀ {c d}, Rel c d → Twin Spans c.peek d.peek → Rel c.advance d.advance
  splitInfix : ∀ {c d}, Rel c d → Rel c.splitInfix d.splitInfix
  splitArrow : ∀ {c d}, Rel c d → Rel (Parser.splitArrow c) (Parser.splitArrow d)
  seek : ∀ {c d c₀ d₀}, total → Rel c d → Rel c₀ d₀ → Rel (c.seek c₀.position) (d.seek d₀.position)
  previous : ∀ {c d}, Rel c d → Spans c.previousSpan d.previousSpan
  position : ∀ {c d}, Rel c d → d.position = c.position + older
  remaining : ∀ {c d}, Rel c d → ∃ k, d.remaining = c.remaining + k ∧ (total → k = 0)
  length : ∀ {c d}, total → Rel c d → c.ahead.length = d.ahead.length

namespace Mirror

variable {M : Mirror} {c d : Cursor}

/-- The cursors show the same token. -/
def Same (M : Mirror) (c d : Cursor) : Prop := Twin M.Spans c.peek d.peek

/-- The left cursor is at the end of its input, and at the right one another part opens. -/
def Ended (M : Mirror) (c d : Cursor) : Prop := ¬ M.total ∧ c.ahead = [] ∧ M.Fence d

/-- The left input ends only where another definition opens in the right one. -/
class EndsAtDefinitions (M : Mirror) : Prop where
  atDefinitionStart : ∀ {c d}, M.Ended c d → d.atDefinitionStart = true

/-- A total relation ends at definitions: there is no end of the left input to look at. -/
lemma EndsAtDefinitions.of_total (htotal : M.total) : M.EndsAtDefinitions :=
  ⟨fun hended => absurd htotal hended.1⟩

/-- At related cursors the same token stands, or the left input is at its end. -/
lemma cases (h : M.Rel c d) : M.Same c d ∨ M.Ended c d := M.heads h

/-- Where the inputs are equally long the cursors show the same token. -/
lemma same_of_total (htotal : M.total) (h : M.Rel c d) : M.Same c d :=
  (cases h).resolve_right fun hended => hended.1 htotal

/-- A word that opens a definition stands at a place where one can begin. -/
lemma opensDefinition_of_atDefinitionStart (h : d.atDefinitionStart = true) :
    d.peek.kind.opensDefinition = true := by
  unfold Cursor.atDefinitionStart at h
  split at h
  · rename_i hk
    rw [hk]
    rfl
  · rename_i hk
    rw [hk]
    rfl
  · exact h

/-- Where the left input is at its end, another part opens on the right side. -/
lemma Ended.opens (h : M.Ended c d) : d.peek.kind.opensPart = true := M.opensPart h.2.2

/-- Where the left input is at its end, no token is ahead of it. -/
lemma Ended.kind (h : M.Ended c d) : c.peek.kind = .eof := Cursor.peek_kind_of_ahead_nil h.2.1

/-- Where the left input is at its end, a token that opens no part does not stand on the right. -/
lemma Ended.kind_ne {kind : Kind} (h : M.Ended c d) (hopens : kind.opensPart = false) :
    d.peek.kind ≠ kind := by
  rintro rfl
  rw [h.opens] at hopens
  cases hopens

/-- Where the left input ends at a definition, no section opens. -/
lemma Ended.kind_ne_of_definition [hends : M.EndsAtDefinitions] {kind : Kind}
    (h : M.Ended c d) (hopens : kind.opensDefinition = false) : d.peek.kind ≠ kind := by
  rintro rfl
  rw [opensDefinition_of_atDefinitionStart (hends.atDefinitionStart h)] at hopens
  cases hopens

/-- A reader begins at related cursors, or at a token that both show and behind which they are
related. -/
def Begins (M : Mirror) (c d : Cursor) : Prop :=
  M.Rel c d ∨ (¬ M.total ∧ M.Same c d ∧ M.Rel c.advance d.advance)

/-! ## What is the same up to spans -/

/-- The values are the same up to spans. -/
def Alike (M : Mirror) {α : Type} (mapSpans : (Span → Span) → α → α) (a b : α) : Prop :=
  mapSpans M.left a = mapSpans M.right b

/-- The expressions are the same up to spans, and they stand at related places. -/
def Expressions (M : Mirror) (e e' : Expression) : Prop :=
  M.Alike Expression.mapSpans e e' ∧ M.Spans e.span e'.span

/-- The predicates are the same up to spans, and they stand at related places. -/
def Predicates (M : Mirror) (p p' : Predicate) : Prop :=
  M.Alike Predicate.mapSpans p p' ∧ M.Spans p.span p'.span

/-- The faults are the same up to spans, and they show at related places. -/
def Faults (M : Mirror) (fault other : Fault) : Prop :=
  M.Alike Fault.mapSpans fault other
    ∧ ∃ s s', fault.span? = some s ∧ other.span? = some s' ∧ M.Spans s s'

/-- Lists that are alike one by one are alike. -/
lemma Alike.of_forall₂ {α : Type} {mapSpans : (Span → Span) → α → α} {as bs : List α}
    (h : List.Forall₂ (M.Alike mapSpans) as bs) :
    as.map (mapSpans M.left) = bs.map (mapSpans M.right) := by
  induction h with
  | nil => rfl
  | cons hab _ ih => rw [List.map_cons, List.map_cons, hab, ih]

/-- What may be there is alike if it is on both sides or on none. -/
lemma Alike.of_rel {α : Type} {mapSpans : (Span → Span) → α → α} {o o' : Option α}
    (h : Option.Rel (M.Alike mapSpans) o o') :
    o.map (mapSpans M.left) = o'.map (mapSpans M.right) := by
  cases h with
  | some hab => rw [Option.map_some, Option.map_some, hab]
  | none => rfl

/-- Expressions that are alike one by one are alike as lists. -/
lemma Expressions.of_forall₂ {es es' : List Expression} (h : List.Forall₂ M.Expressions es es') :
    es.map (Expression.mapSpans M.left) = es'.map (Expression.mapSpans M.right) :=
  Alike.of_forall₂ (h.imp fun _ _ he => he.1)

/-- At the same token a fault quotes the same. -/
lemma Same.found (h : M.Same c d) : c.peek.found = d.peek.found := by
  simp only [Token.found, h.kind, h.lexeme]

/-- Of two pairs of faults the ones that show further on are the same. -/
lemma Faults.furthest {first first' second second' : Fault} (h : M.Faults first first')
    (h' : M.Faults second second') :
    M.Faults (first.furthest second) (first'.furthest second') := by
  obtain ⟨s, s', hs, hs', hspans⟩ := h.2
  obtain ⟨t, t', ht, ht', hspans'⟩ := h'.2
  have horder := M.order hspans hspans'
  simp only [Fault.furthest, hs, hs', ht, ht', Option.map_some, Option.getD_some]
  by_cases hle : s.start ≤ t.start
  · rwa [if_pos hle, if_pos (horder.1 hle)]
  · rwa [if_neg hle, if_neg (mt horder.2 hle)]

/-! ## Where definitions begin -/

/-- The token behind the one at the cursors, as far as its kind tells anything. -/
lemma lookahead_kind {kind : Kind} (h : M.Rel c d) (hsame : M.Same c d)
    (hc : c.peek.kind ≠ .eof) (hkind : kind ≠ .eof) (hopens : kind.opensPart = false) :
    ((c.lookahead 1).kind == kind) = ((d.lookahead 1).kind == kind) := by
  rw [Parser.Simulates.lookahead_one hc, Parser.Simulates.lookahead_one (hsame.kind ▸ hc)]
  rcases cases (M.advance h hsame) with hnext | hended
  · rw [hnext.kind]
  · rw [hended.kind, beq_eq_false_iff_ne.2 hkind.symm,
      beq_eq_false_iff_ne.2 (hended.kind_ne hopens)]

/-- A definition begins on both sides or on none. -/
lemma atDefinitionStart_eq (h : M.Rel c d) (hsame : M.Same c d) :
    c.atDefinitionStart = d.atDefinitionStart := by
  unfold Cursor.atDefinitionStart
  rw [← hsame.kind]
  split
  · rename_i hk
    exact lookahead_kind h hsame (by simp [hk]) (by simp) rfl
  · rename_i hk
    exact lookahead_kind h hsame (by simp [hk]) (by simp) rfl
  · rfl

/-- The body of a definition ends on both sides or on none. -/
lemma atDefinitionBoundary_eq [hends : M.EndsAtDefinitions] (h : M.Rel c d) :
    c.atDefinitionBoundary = d.atDefinitionBoundary := by
  rcases cases h with hsame | hended
  · rw [Cursor.atDefinitionBoundary, Cursor.atDefinitionBoundary, Cursor.atEnd, Cursor.atEnd,
      hsame.kind, atDefinitionStart_eq h hsame]
  · rw [Cursor.atDefinitionBoundary, Cursor.atDefinitionBoundary, Cursor.atEnd, hended.kind,
      hends.atDefinitionStart hended, Bool.or_true]
    rfl

end Mirror

namespace Parser

variable {α β γ δ : Type}

/-! ## The judgement -/

/-- Where `p` succeeds at `c`, `q` succeeds at `d`, with a value that `Q` relates to that of `p` and
behind it at a related cursor.  Where the inputs are equally long, the refusals of `p` are mirrored
as well. -/
structure Mirrors (M : Mirror) (p : Parser α) (q : Parser β) (c d : Cursor)
    (Q : α → β → Prop) : Prop where
  ok : ∀ a c', p c = .ok a c' → ∃ b d', q d = .ok b d' ∧ Q a b ∧ M.Rel c' d'
  error : M.total → ∀ fault c', p c = .error fault c' →
    ∃ other d', q d = .error other d' ∧ M.Faults fault other ∧ M.Rel c' d'

namespace Mirrors

variable {M : Mirror} {c d : Cursor} {kind : Kind}

section Basic

variable {p : Parser α} {q : Parser β} {f : α → Parser γ} {g : β → Parser δ}
  {P : α → β → Prop} {Q : γ → δ → Prop}

/-- Readings that mirror each other do so with weaker answers. -/
lemma imp {P' : α → β → Prop} (h : Mirrors M p q c d P) (himp : ∀ a b, P a b → P' a b) :
    Mirrors M p q c d P' where
  ok a c' hp := by
    obtain ⟨b, d', hq, hP, hrel⟩ := h.ok a c' hp
    exact ⟨b, d', hq, himp a b hP, hrel⟩
  error := h.error

/-- What is mirrored depends on the two runs only. -/
lemma congr {p' : Parser α} {q' : Parser β} {c' d' : Cursor} (h : Mirrors M p' q' c' d' P)
    (hp : p c = p' c') (hq : q d = q' d') : Mirrors M p q c d P where
  ok a c₁ h₁ := hq ▸ h.ok a c₁ (hp ▸ h₁)
  error htotal fault c₁ h₁ := hq ▸ h.error htotal fault c₁ (hp ▸ h₁)

/-- Readings that answer without a move mirror each other. -/
lemma pure {a : α} {b : β} (h : M.Rel c d) (hP : P a b) :
    Mirrors M (pure a) (pure b) c d P where
  ok a' c' hp := by
    obtain ⟨rfl, rfl⟩ := EStateM.Result.ok.inj hp
    exact ⟨b, d, rfl, hP, h⟩
  error _ _ _ hp := nomatch hp

/-- Two refusals at related cursors. -/
lemma refused {fault other : Fault} (h : M.Rel c d) (hp : p c = .error fault c)
    (hq : q d = .error other d) (hfaults : M.total → M.Faults fault other) :
    Mirrors M p q c d P where
  ok a c' hp' := by cases hp.symm.trans hp'
  error htotal fault' c' hp' := by
    obtain ⟨rfl, rfl⟩ := EStateM.Result.error.inj (hp.symm.trans hp')
    exact ⟨other, d, hq, hfaults htotal, h⟩

/-- Refusals of the token at the cursor mirror each other. -/
lemma unexpected {expected : List String} (h : M.Rel c d) :
    Mirrors M (unexpected expected) (unexpected expected) c d P := by
  refine refused h rfl rfl fun htotal => ?_
  have hsame := Mirror.same_of_total htotal h
  refine ⟨?_, _, _, rfl, rfl, hsame.span⟩
  change Fault.unexpected expected c.peek.found (M.left c.peek.span)
    = .unexpected expected d.peek.found (M.right d.peek.span)
  rw [hsame.found, M.view hsame.span]

/-- Refusals of a part out of its place mirror each other. -/
lemma misplaced {part : Misplaced} (h : M.Rel c d) :
    Mirrors M (misplaced part) (misplaced part) c d P := by
  refine refused h rfl rfl fun htotal => ?_
  have hsame := Mirror.same_of_total htotal h
  refine ⟨?_, _, _, rfl, rfl, hsame.span⟩
  change (Misplaced.fault part (M.left c.peek.span)) = part.fault (M.right d.peek.span)
  rw [M.view hsame.span]

/-- At the end of the left input there is nothing to mirror of a reading that is refused there. -/
lemma of_refused_at_end (h : M.Rel c d) (hp : c.ahead = [] → ∀ a b, p c ≠ .ok a b)
    (hsame : M.Same c d → Mirrors M p q c d P) : Mirrors M p q c d P := by
  rcases Mirror.cases h with h' | h'
  · exact hsame h'
  · exact ⟨fun a b hab => absurd hab (hp h'.2.1 a b), fun htotal => absurd htotal h'.1⟩

/-- A reading of at least one token need not be looked at where the left input ends. -/
lemma of_strict (h : M.Rel c d) (hp : Strict p c) (hsame : M.Same c d → Mirrors M p q c d P) :
    Mirrors M p q c d P := by
  refine of_refused_at_end h (fun hc a b hab => ?_) hsame
  have hlt := hp a b hab
  have hzero : c.remaining = 0 := by simp [Cursor.remaining, hc]
  omega

/-- One parser behind another, on both sides, where the first one is known to have run. -/
lemma bind_of_run (h : Mirrors M p q c d P)
    (hfg : ∀ a b c₁ d₁, p c = .ok a c₁ → P a b → M.Rel c₁ d₁ → Mirrors M (f a) (g b) c₁ d₁ Q) :
    Mirrors M (p >>= f) (q >>= g) c d Q where
  ok a' c₂ h' := by
    obtain ⟨a, c₁, h₁, h₂⟩ := bind_eq_ok.1 h'
    obtain ⟨b, d₁, hq, hP, hrel⟩ := h.ok a c₁ h₁
    obtain ⟨b', d₂, hg, hQ, hrel'⟩ := (hfg a b c₁ d₁ h₁ hP hrel).ok a' c₂ h₂
    exact ⟨b', d₂, bind_eq_ok.2 ⟨b, d₁, hq, hg⟩, hQ, hrel'⟩
  error htotal fault c₂ h' := by
    rcases bind_eq_error.1 h' with h₁ | ⟨a, c₁, h₁, h₂⟩
    · obtain ⟨other, d₂, hq, hfaults, hrel⟩ := h.error htotal fault c₂ h₁
      exact ⟨other, d₂, bind_eq_error.2 (.inl hq), hfaults, hrel⟩
    · obtain ⟨b, d₁, hq, hP, hrel⟩ := h.ok a c₁ h₁
      obtain ⟨other, d₂, hg, hfaults, hrel'⟩ :=
        (hfg a b c₁ d₁ h₁ hP hrel).error htotal fault c₂ h₂
      exact ⟨other, d₂, bind_eq_error.2 (.inr ⟨b, d₁, hq, hg⟩), hfaults, hrel'⟩

/-- One parser behind another, on both sides. -/
theorem bind (h : Mirrors M p q c d P)
    (hfg : ∀ a b c₁ d₁, P a b → M.Rel c₁ d₁ → Mirrors M (f a) (g b) c₁ d₁ Q) :
    Mirrors M (p >>= f) (q >>= g) c d Q :=
  h.bind_of_run fun a b c₁ d₁ _ => hfg a b c₁ d₁

end Basic

/-! ## Single tokens -/

section Single

variable {Q : γ → δ → Prop}

/-- Both sides look at the token at the cursor. -/
lemma peek_bind {f : Token → Parser γ} {g : Token → Parser δ}
    (h : Mirrors M (f c.peek) (g d.peek) c d Q) :
    Mirrors M (peek >>= f) (peek >>= g) c d Q := h.congr rfl rfl

/-- Both sides look at the kind of the token at the cursor. -/
lemma peekKind_bind {f : Kind → Parser γ} {g : Kind → Parser δ}
    (h : Mirrors M (f c.peek.kind) (g d.peek.kind) c d Q) :
    Mirrors M (peekKind >>= f) (peekKind >>= g) c d Q := h.congr rfl rfl

/-- The span up to the token that was read last. -/
lemma spanFrom_bind {s s' : Span} {f : Span → Parser γ} {g : Span → Parser δ}
    (h : M.Rel c d) (hs : M.Spans s s')
    (hf : ∀ t u, M.Spans t u → Mirrors M (f t) (g u) c d Q) :
    Mirrors M (spanFrom s >>= f) (spanFrom s' >>= g) c d Q :=
  (hf (s.merge c.previousSpan) (s'.merge d.previousSpan) (M.merge hs (M.previous h))).congr rfl rfl

/-- Both sides advance, and what they read from there on mirrors each other. -/
lemma behind_bind {f : Token → Parser γ} {g : Token → Parser δ}
    (hf : Mirrors M (f c.peek) (g d.peek) c.advance d.advance Q) :
    Mirrors M (advance >>= f) (advance >>= g) c d Q := hf.congr rfl rfl

/-- Both sides advance over the same token. -/
lemma advance_bind {f : Token → Parser γ} {g : Token → Parser δ} (h : M.Rel c d)
    (hsame : M.Same c d)
    (hf : M.Rel c.advance d.advance → Mirrors M (f c.peek) (g d.peek) c.advance d.advance Q) :
    Mirrors M (advance >>= f) (advance >>= g) c d Q := behind_bind (hf (M.advance h hsame))

/-- Both sides expect a token; behind it the cursors are related. -/
theorem expect_bind {f : Token → Parser γ} {g : Token → Parser δ} (h : M.Rel c d)
    (hkind : kind ≠ .eof)
    (hf : M.Same c d → M.Rel c.advance d.advance →
      Mirrors M (f c.peek) (g d.peek) c.advance d.advance Q) :
    Mirrors M (expect kind >>= f) (expect kind >>= g) c d Q := by
  refine of_refused_at_end h (fun hc a b hab => ?_) fun hsame => ?_
  · have hne : c.peek.kind ≠ kind := by
      rw [Cursor.peek_kind_of_ahead_nil hc]
      exact hkind.symm
    exact absurd (kind_of_expect_bind hab) hne
  · by_cases hc : c.peek.kind = kind
    · exact (hf hsame (M.advance h hsame)).congr (bind_of_ok (expect_of_eq hc))
        (bind_of_ok (expect_of_eq (hsame.kind.symm.trans hc)))
    · refine refused h (bind_of_error (expect_of_ne hc))
        (bind_of_error (expect_of_ne fun hd => hc (hsame.kind.trans hd))) fun _ => ?_
      refine ⟨?_, _, _, rfl, rfl, hsame.span⟩
      change Fault.unexpected _ c.peek.found (M.left c.peek.span)
        = .unexpected _ d.peek.found (M.right d.peek.span)
      rw [hsame.found, M.view hsame.span]

/-- Both sides expect the token with which an attempt begins. -/
lemma expect_begins {f : Token → Parser γ} {g : Token → Parser δ} (h : M.Begins c d)
    (hkind : kind ≠ .eof)
    (hf : M.Same c d → M.Rel c.advance d.advance →
      Mirrors M (f c.peek) (g d.peek) c.advance d.advance Q) :
    Mirrors M (expect kind >>= f) (expect kind >>= g) c d Q := by
  rcases h with hrel | ⟨htotal, hsame, hrel⟩
  · exact expect_bind hrel hkind hf
  · by_cases hc : c.peek.kind = kind
    · exact (hf hsame hrel).congr (bind_of_ok (expect_of_eq hc))
        (bind_of_ok (expect_of_eq (hsame.kind.symm.trans hc)))
    · refine ⟨fun a c' hp => ?_, fun h => absurd h htotal⟩
      exact absurd (kind_of_expect_bind hp) hc

/-- Both sides look whether a token of some kind stands at the cursor. -/
lemma check_cases {f : Bool → Parser γ} {g : Bool → Parser δ} (h : M.Rel c d)
    (hkind : kind ≠ .eof) (hne : M.Ended c d → d.peek.kind ≠ kind)
    (htrue : M.Same c d → c.peek.kind = kind → Mirrors M (f true) (g true) c d Q)
    (hfalse : Mirrors M (f false) (g false) c d Q) :
    Mirrors M (check kind >>= f) (check kind >>= g) c d Q := by
  suffices hf : Mirrors M (f (c.peek.kind == kind)) (g (d.peek.kind == kind)) c d Q from
    hf.congr rfl rfl
  rcases Mirror.cases h with hsame | hended
  · rw [← hsame.kind]
    by_cases hc : c.peek.kind = kind
    · rw [beq_iff_eq.2 hc]
      exact htrue hsame hc
    · rw [beq_eq_false_iff_ne.2 hc]
      exact hfalse
  · rw [hended.kind, beq_eq_false_iff_ne.2 hkind.symm,
      beq_eq_false_iff_ne.2 (hne hended)]
    exact hfalse

/-- Both sides read a token that they both show, if it has the right kind. -/
lemma eat_bind_of_same {f : Bool → Parser γ} {g : Bool → Parser δ} (h : M.Rel c d)
    (hsame : M.Same c d)
    (htrue : M.Rel c.advance d.advance → Mirrors M (f true) (g true) c.advance d.advance Q)
    (hfalse : Mirrors M (f false) (g false) c d Q) :
    Mirrors M (eat kind >>= f) (eat kind >>= g) c d Q := by
  by_cases hc : c.peek.kind = kind
  · exact (htrue (M.advance h hsame)).congr (bind_of_ok (eat_of_eq hc))
      (bind_of_ok (eat_of_eq (hsame.kind.symm.trans hc)))
  · exact hfalse.congr (bind_of_ok (eat_of_ne hc))
      (bind_of_ok (eat_of_ne fun hd => hc (hsame.kind.trans hd)))

/-- Both sides read a token that opens no part, if it stands there. -/
lemma eat_bind {f : Bool → Parser γ} {g : Bool → Parser δ} (h : M.Rel c d)
    (hkind : kind ≠ .eof) (hopens : kind.opensPart = false)
    (htrue : M.Rel c.advance d.advance → Mirrors M (f true) (g true) c.advance d.advance Q)
    (hfalse : Mirrors M (f false) (g false) c d Q) :
    Mirrors M (eat kind >>= f) (eat kind >>= g) c d Q := by
  rcases Mirror.cases h with hsame | hended
  · exact eat_bind_of_same h hsame htrue hfalse
  · refine hfalse.congr (bind_of_ok (eat_of_ne ?_)) (bind_of_ok (eat_of_ne (hended.kind_ne hopens)))
    rw [hended.kind]
    exact hkind.symm

/-- Both sides look for a word. -/
lemma checkWord_cases {word : String} {f : Bool → Parser γ} {g : Bool → Parser δ}
    (h : M.Rel c d) (htrue : M.Same c d → Mirrors M (f true) (g true) c d Q)
    (hfalse : Mirrors M (f false) (g false) c d Q) :
    Mirrors M (checkWord word >>= f) (checkWord word >>= g) c d Q := by
  suffices hf : Mirrors M (f (c.peek.kind == .ident && c.peek.lexeme == word))
      (g (d.peek.kind == .ident && d.peek.lexeme == word)) c d Q from hf.congr rfl rfl
  rcases Mirror.cases h with hsame | hended
  · rw [← hsame.kind, ← hsame.lexeme]
    rcases c.peek.kind == .ident && c.peek.lexeme == word
    · exact hfalse
    · exact htrue hsame
  · rw [hended.kind, beq_eq_false_iff_ne.2 (hended.kind_ne rfl)]
    exact hfalse

/-- Both sides look at the token behind the one that they both show. -/
lemma checkAhead_cases {f : Bool → Parser γ} {g : Bool → Parser δ} (h : M.Rel c d)
    (hsame : M.Same c d) (hc : c.peek.kind ≠ .eof) (hkind : kind ≠ .eof)
    (hopens : kind.opensPart = false) (hf : ∀ b, Mirrors M (f b) (g b) c d Q) :
    Mirrors M (checkAhead 1 kind >>= f) (checkAhead 1 kind >>= g) c d Q := by
  suffices hf : Mirrors M (f ((c.lookahead 1).kind == kind)) (g ((d.lookahead 1).kind == kind)) c d
      Q from hf.congr rfl rfl
  rw [Mirror.lookahead_kind h hsame hc hkind hopens]
  exact hf _

/-- Both sides choose by the kind of the token at the cursor, where the end of the input is
refused. -/
lemma kind_cases {f : Kind → Parser γ} {g : Kind → Parser δ} (h : M.Rel c d)
    (hend : c.peek.kind = .eof → ∀ a b, f .eof c ≠ .ok a b)
    (hsame : M.Same c d → Mirrors M (f c.peek.kind) (g c.peek.kind) c d Q) :
    Mirrors M (peekKind >>= f) (peekKind >>= g) c d Q := by
  refine of_refused_at_end h (fun hc a b hab => ?_) fun hs => ?_
  · have hkind := Cursor.peek_kind_of_ahead_nil hc
    exact hend hkind a b ((congrArg (fun kind => f kind c) hkind).symm.trans hab)
  · have hrest := hsame hs
    exact hrest.congr rfl (congrArg (fun kind => g kind d) hs.kind.symm)

/-- Both sides choose by the kind of the token at the cursor, where at the end of the input and
where another part opens nothing is read.

**Proof sketch.** At the same token both sides go the same way.  At the end of the left input the
left side reads nothing, and on the right side there is a token that opens a part, which is a word,
a pipe or the end. -/
lemma kind_cases_or {f : Kind → Parser γ} {g : Kind → Parser δ} {a : γ} {b : δ} (h : M.Rel c d)
    (hend : c.peek.kind = .eof → f .eof c = .ok a c)
    (hword : ∀ word, (Kind.keyword word).opensPart = true → d.peek.kind = .keyword word →
      g (.keyword word) d = .ok b d)
    (hpipe : d.peek.kind = .symbol .pipe → g (.symbol .pipe) d = .ok b d)
    (hclosing : d.peek.kind = .eof → g .eof d = .ok b d) (hab : Q a b)
    (hsame : M.Same c d → Mirrors M (f c.peek.kind) (g c.peek.kind) c d Q) :
    Mirrors M (peekKind >>= f) (peekKind >>= g) c d Q := by
  rcases Mirror.cases h with hs | hended
  · have hrest := hsame hs
    exact hrest.congr rfl (congrArg (fun kind => g kind d) hs.kind.symm)
  · refine (pure h hab).congr
      ((congrArg (fun kind => f kind c) hended.kind).trans (hend hended.kind)) ?_
    have hopens := hended.opens
    rcases hd : d.peek.kind with _ | _ | _ | _ | _ | word | sign | _
    case keyword => exact (congrArg (fun kind => g kind d) hd).trans (hword word (hd ▸ hopens) hd)
    case symbol =>
      obtain rfl : sign = .pipe := by
        rw [hd] at hopens
        cases sign <;> first | rfl | cases hopens
      exact (congrArg (fun kind => g kind d) hd).trans (hpipe hd)
    case eof => exact (congrArg (fun kind => g kind d) hd).trans (hclosing hd)
    all_goals
      rw [hd] at hopens
      cases hopens

/-- Both sides move the cursor in the same way. -/
lemma modify_bind {k : Cursor → Cursor} {f : Unit → Parser γ} {g : Unit → Parser δ}
    (h : Mirrors M (f ()) (g ()) (k c) (k d) Q) :
    Mirrors M (modify k >>= f) (modify k >>= g) c d Q := h.congr rfl rfl

end Single

/-! ## Repetitions -/

section Many

variable {p : Parser (Option α)} {q : Parser (Option β)} [Rounds p] [Rounds q] {R : α → β → Prop}

omit [Rounds p] [Rounds q] in
/-- Repetitions with the same bound. -/
lemma manyUpTo (hstep : ∀ c d, M.Rel c d → Mirrors M p q c d (Option.Rel R)) (n : Nat) :
    ∀ c d, M.Rel c d → Mirrors M (manyUpTo p n) (manyUpTo q n) c d (List.Forall₂ R) := by
  induction n with
  | zero => exact fun c d h => pure h .nil
  | succ n ih =>
    intro c d h
    refine bind (hstep c d h) ?_
    rintro o o' c₁ d₁ ho hrel
    cases ho with
    | none => exact pure hrel .nil
    | some hab =>
      refine (ih c₁ d₁ hrel).bind ?_
      rintro as bs c₂ d₂ has hrel
      exact pure hrel (.cons hab has)

/-- Repetitions. -/
theorem many (hstep : ∀ c d, M.Rel c d → Mirrors M p q c d (Option.Rel R)) (h : M.Rel c d) :
    Mirrors M (many p) (many q) c d (List.Forall₂ R) := by
  refine bind (hstep c d h) ?_
  rintro o o' c₁ d₁ ho hrel
  cases ho with
  | none => exact pure hrel .nil
  | some hab =>
    have htail : Mirrors M (fun c => Parser.manyUpTo p c.remaining c)
        (fun d => Parser.manyUpTo q d.remaining d) c₁ d₁ (List.Forall₂ R) :=
      (manyUpTo hstep (max c₁.remaining d₁.remaining) c₁ d₁ hrel).congr
        (manyUpTo_eq _ _ c₁ le_rfl (le_max_left _ _)) (manyUpTo_eq _ _ d₁ le_rfl (le_max_right _ _))
    refine bind (p := fun c => Parser.manyUpTo p c.remaining c) htail ?_
    rintro as bs c₂ d₂ has hrel
    exact pure hrel (.cons hab has)

omit [Rounds q] in
/-- Repetitions with the same bound that stop before the end of the left input.

**Proof sketch.** Induction on the bound.  While something is ahead behind the repetition, the left
input was not at its end at any round, so that the same token stood there and both sides went the
same way. -/
lemma manyUpTo_of_ahead (hstep : ∀ c d, M.Rel c d → M.Same c d → Mirrors M p q c d (Option.Rel R))
    (n : Nat) : ∀ as c d c₁, M.Rel c d → Parser.manyUpTo p n c = .ok as c₁ → c₁.ahead ≠ [] →
      ∃ bs d₁, Parser.manyUpTo q n d = .ok bs d₁ ∧ List.Forall₂ R as bs ∧ M.Rel c₁ d₁ := by
  induction n with
  | zero =>
    intro as c d c₁ h hrun _
    obtain ⟨rfl, rfl⟩ := EStateM.Result.ok.inj hrun
    exact ⟨[], d, rfl, .nil, h⟩
  | succ n ih =>
    intro as c d c₁ h hrun hahead
    have hsame : M.Same c d := by
      refine (Mirror.cases h).resolve_right fun hended => hahead ?_
      have hle := (lowers_manyUpTo (n + 1)).le c as c₁ hrun
      have hzero : c.remaining = 0 := by rw [Cursor.remaining, hended.2.1, countPieces_nil]
      exact Cursor.ahead_eq_nil_of_remaining (by omega)
    obtain ⟨o, c₂, ho, hrun⟩ := bind_eq_ok.1 hrun
    obtain ⟨o', d₂, ho', hR, hrel⟩ := (hstep c d h hsame).ok o c₂ ho
    cases hR with
    | none =>
      obtain ⟨rfl, rfl⟩ := EStateM.Result.ok.inj hrun
      exact ⟨[], d₂, bind_eq_ok.2 ⟨none, d₂, ho', rfl⟩, .nil, hrel⟩
    | @some a b hab =>
      obtain ⟨more, c₃, hmore, hrun⟩ := bind_eq_ok.1 hrun
      obtain ⟨rfl, rfl⟩ := EStateM.Result.ok.inj hrun
      obtain ⟨bs, d₃, hbs, hall, hrel⟩ := ih more c₂ d₂ c₃ hrel hmore hahead
      exact ⟨b :: bs, d₃, bind_eq_ok.2 ⟨some b, d₂, ho', bind_eq_ok.2 ⟨bs, d₃, hbs, rfl⟩⟩,
        .cons hab hall, hrel⟩

/-- Repetitions behind which the end of the input is refused: no round need be looked at there. -/
lemma many_bind {f : List α → Parser γ} {g : List β → Parser δ} {Q : γ → δ → Prop}
    (hstep : ∀ c d, M.Rel c d → M.Same c d → Mirrors M p q c d (Option.Rel R)) (h : M.Rel c d)
    (hend : ∀ as c, c.ahead = [] → ∀ a b, f as c ≠ .ok a b)
    (hrest : ∀ as bs c d, List.Forall₂ R as bs → M.Rel c d → Mirrors M (f as) (g bs) c d Q) :
    Mirrors M (Parser.many p >>= f) (Parser.many q >>= g) c d Q := by
  by_cases htotal : M.total
  · exact (many (fun c d h => hstep c d h (Mirror.same_of_total htotal h)) h).bind hrest
  refine ⟨fun a c₂ hrun => ?_, fun h => absurd h htotal⟩
  obtain ⟨as, c₁, hmany, hf⟩ := bind_eq_ok.1 hrun
  obtain ⟨bs, d₁, hbs, hall, hrel⟩ := manyUpTo_of_ahead hstep _ as c d c₁ h
    ((many_eq_manyUpTo (max c.remaining d.remaining) c (le_max_left _ _)).symm.trans hmany)
    fun hahead => hend as c₁ hahead a c₂ hf
  obtain ⟨b, d₂, hg, hQ, hrel⟩ := (hrest as bs c₁ d₁ hall hrel).ok a c₂ hf
  exact ⟨b, d₂, bind_eq_ok.2 ⟨bs, d₁, (many_eq_manyUpTo _ d (le_max_right _ _)).trans hbs, hg⟩,
    hQ, hrel⟩

end Many

section Lists

variable {item : Parser α} {item' : Parser β} {R : α → β → Prop}

/-- An item behind a token of some kind, if one stands at the cursors. -/
lemma whenAt (h : M.Rel c d) (hkind : kind ≠ .eof) (hne : M.Ended c d → d.peek.kind ≠ kind)
    (hitem : M.Same c d → Mirrors M item item' c d R) :
    Mirrors M (whenAt kind item) (whenAt kind item') c d (Option.Rel R) := by
  refine check_cases (f := fun found => if found = true then item >>= fun a => Pure.pure (some a)
    else Pure.pure none) h hkind hne (fun hsame _ => ?_) (pure h .none)
  refine (hitem hsame).bind ?_
  rintro a b c₁ d₁ hab hrel
  exact pure hrel (.some hab)

/-- Both sides read an item behind a comma, if there is one. -/
lemma afterComma (h : M.Rel c d) (hitem : ∀ c d, M.Rel c d → Mirrors M item item' c d R) :
    Mirrors M (afterComma item) (afterComma item') c d (Option.Rel R) := by
  refine eat_bind (f := fun eaten => if eaten = true then item >>= fun a => Pure.pure (some a)
    else Pure.pure none) h (by simp) rfl (fun hrel => ?_) (pure h .none)
  refine (hitem _ _ hrel).bind ?_
  rintro a b c₁ d₁ hab hrel
  exact pure hrel (.some hab)

/-- Both sides read items behind commas, as many as there are. -/
lemma manyAfterComma [Lowers item] [Lowers item'] (h : M.Rel c d)
    (hitem : ∀ c d, M.Rel c d → Mirrors M item item' c d R) :
    Mirrors M (Parser.many (Parser.afterComma item)) (Parser.many (Parser.afterComma item')) c d
      (List.Forall₂ R) :=
  many (fun _ _ h => afterComma h hitem) h

/-- Both sides read items with commas between them, up to a closing token. -/
theorem commaSeparated [Lowers item] [Lowers item'] (h : M.Rel c d) (hkind : kind ≠ .eof)
    (hopens : kind.opensPart = false)
    (hitem : ∀ c d, M.Rel c d → Mirrors M item item' c d R) :
    Mirrors M (commaSeparated kind item) (commaSeparated kind item') c d (List.Forall₂ R) := by
  refine check_cases (f := fun closed => if closed = true then Pure.pure [] else do
    let first ← item
    let rest ← Parser.many (Parser.afterComma item)
    return first :: rest) h hkind (fun hended => hended.kind_ne hopens)
      (fun _ _ => pure h .nil) ?_
  refine (hitem c d h).bind ?_
  rintro a b c₁ d₁ hab hrel
  refine (manyAfterComma hrel hitem).bind ?_
  rintro as bs c₂ d₂ has hrel
  exact pure hrel (.cons hab has)

end Lists

/-! ## Operators -/

section Operators

variable {operator : Parser (Option γ)} [Rounds operator] {operand : Parser α}
  {operand' : Parser β} {R : α → β → Prop}

/-- Both sides read a chain with the same operators, and put it together from the left.

**Proof sketch.** The first operand is read on both sides.  The repetition of operators and operands
gives lists that are related one by one, and related lists are put together to related answers. -/
theorem leftAssoc [Lowers operand] [Lowers operand'] {combine : α → γ → α → α}
    {combine' : β → γ → β → β} (h : M.Rel c d)
    (hoperator : ∀ c d, M.Rel c d → Mirrors M operator operator c d Eq)
    (hoperand : ∀ c d, M.Rel c d → Mirrors M operand operand' c d R)
    (hcombine : ∀ a a' op b b', R a a' → R b b' → R (combine a op b) (combine' a' op b')) :
    Mirrors M (leftAssoc operator operand combine) (leftAssoc operator operand' combine') c d
      R := by
  rw [leftAssoc_eq, leftAssoc_eq]
  refine (hoperand c d h).bind ?_
  rintro a b c₁ d₁ hab hrel
  have hsteps := many (M := M) (R := fun (s : γ × α) (s' : γ × β) => s.1 = s'.1 ∧ R s.2 s'.2)
    (p := link operator operand) (q := link operator operand') ?_ hrel
  · refine hsteps.bind ?_
    rintro steps steps' c₂ d₂ hall hrel
    exact pure hrel (rel_chain hcombine hab hall)
  · intro c d h
    refine bind (hoperator c d h) ?_
    rintro o _ c₁ d₁ rfl hrel
    rcases o with _ | op
    · exact pure hrel .none
    · refine (hoperand c₁ d₁ hrel).bind ?_
      rintro a b c₂ d₂ hab hrel
      exact pure hrel (.some ⟨rfl, hab⟩)

/-- Both sides read operators in front of an operand. -/
theorem prefixed {O : γ → γ → Prop} {combine : γ → α → α} {combine' : γ → β → β} (h : M.Rel c d)
    (hoperator : ∀ c d, M.Rel c d → Mirrors M operator operator c d (Option.Rel O))
    (hoperand : ∀ c d, M.Rel c d → Mirrors M operand operand' c d R)
    (hcombine : ∀ op op' a b, O op op' → R a b → R (combine op a) (combine' op' b)) :
    Mirrors M (prefixed operator operand combine) (prefixed operator operand' combine') c d R := by
  unfold Parser.prefixed
  refine (many hoperator h).bind ?_
  rintro ops ops' c₁ d₁ hops hrel
  refine (hoperand c₁ d₁ hrel).bind ?_
  rintro a b c₂ d₂ hab hrel
  refine pure hrel (List.rel_foldr ?_ hab hops)
  exact fun _ _ hop _ _ h => hcombine _ _ _ _ hop h

end Operators

end Mirrors

end Parser

end RakeLang
