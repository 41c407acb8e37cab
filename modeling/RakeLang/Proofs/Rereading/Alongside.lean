import RakeLang.Proofs.Rereading.Phrase

/-!
# Reading a slice alongside the whole

A definition is read from the tokens of its own slice as it was read from the tokens of the whole
source.  Both cursors show the same tokens, up to their place, until those of the slice are at their
end; what follows there in the whole source, the `rest`, must not have been read.  Reading splits
nothing but the token behind an operand, so that where no expression is being read a tail of the
whole is ahead.

## Main definitions

* `RakeLang.Token.Nears` — a tail of some tokens, but for a split of its first token.
* `RakeLang.alongside` — the simulation between a cursor in the whole and one in the slice.
* `RakeLang.Fresh` — an expression can be read here whatever the lexer remembers.

## Main results

* `RakeLang.Parser.expression_alongside` — expressions are read alike, and what stands inside of
  them is found in the whole.
* `RakeLang.Parser.inParens_alongside` — so are predicates in parentheses.
-/

set_option relaxedAutoImplicit false
set_option autoImplicit false

namespace RakeLang

open Token Spelling

/-! ## Tails that are split at their head -/

/-- The tokens are a tail of `whole`, but that the first one is split behind an operand, or that the
first half of it has been read already. -/
inductive Token.Nears (whole : List Token) : Mode → List Token → Prop
  | tail {σ : Mode} {ts : List Token} (h : ts <:+ whole) : Nears whole σ ts
  | halved {depth : Nat} {ts : List Token} (h : ts <:+ whole) :
      Nears whole (.behind depth) (splitHead ts)
  | half {depth : Nat} {ts more : List Token} {first second : Token} (h : ts <:+ whole)
      (hhalves : Halves ts first second more) : Nears whole (.operand depth) (second :: more)

namespace Token

section Nears

variable {whole ts us more rest : List Token} {t first second : Token} {σ : Mode} {depth : Nat}

/-- Tokens stay near a tail of the whole behind the first of them.

**Proof sketch.** By whether the first token was split: behind its first piece the second one stands
in front of the tail, and behind a whole token the tail is shorter by it. -/
lemma Nears.advance (h : Nears whole σ (t :: ts)) : Nears whole (σ.step t.kind) ts := by
  generalize hus : t :: ts = us at h
  cases h with
  | tail h => exact .tail ((hus ▸ List.suffix_cons t ts).trans h)
  | @halved depth vs h =>
    rcases splitHead_eq_or_halves vs with hstays | ⟨first, second, more, hhalves⟩
    · have hvs : splitHead vs = vs := by
        rcases vs with _ | ⟨v, vs⟩
        · rfl
        · exact splitHead_cons (hstays v rfl) vs
      rw [hvs] at hus
      exact .tail ((hus ▸ List.suffix_cons t ts).trans h)
    · rw [hhalves.splitHead_eq] at hus
      obtain ⟨rfl, rfl⟩ := List.cons.inj hus
      rw [Mode.step_of_halves hhalves]
      exact .half h hhalves
  | half h hhalves =>
    obtain ⟨rfl, rfl⟩ := List.cons.inj hus
    obtain ⟨taken, -, rfl, -⟩ := hhalves.exists_append
    exact .tail ((List.suffix_append taken ts).trans h)

/-- Tokens stay near a tail of the whole when the first of them is split. -/
lemma Nears.splitHead (h : Nears whole (.behind depth) ts) :
    Nears whole (.behind depth) (splitHead ts) := by
  cases h with
  | tail h => exact .halved h
  | halved h =>
    rw [splitHead_splitHead]
    exact .halved h

/-- A tail whose first token is not the first half of one is not split. -/
lemma splitHead_eq_of_headKind (hminus : headKind (Token.splitHead ts) ≠ .symbol .minus)
    (hless : headKind (Token.splitHead ts) ≠ .symbol .less) : Token.splitHead ts = ts := by
  rcases splitHead_cases ts with heq | ⟨_, _, first, second, more, -, -, heq, hfirst, -⟩
  · exact heq
  · rw [heq, headKind_cons] at hminus hless
    rcases hfirst with hkind | hkind
    · exact absurd hkind hminus
    · exact absurd hkind hless

/-- Tokens near a tail of the whole are a tail of it, if the first of them is no sign that a split
leaves. -/
lemma Nears.suffix (h : Nears whole σ ts) (hoperand : ∀ depth, σ ≠ .operand depth)
    (hminus : headKind ts ≠ .symbol .minus) (hless : headKind ts ≠ .symbol .less) :
    ts <:+ whole := by
  cases h with
  | tail h => exact h
  | halved h => rwa [splitHead_eq_of_headKind hminus hless]
  | half => exact absurd rfl (hoperand _)

end Nears

/-! ## Tokens that are cut apart -/

/-- No arrow at the end of `ts` can be joined with the first token of `rest`. -/
def Severed (ts rest : List Token) : Prop :=
  ∀ t ∈ ts.getLast?, t.kind = .symbol .leftArrow → ∀ u ∈ rest.head?, joinsArrow t u = false

section Severed

variable {ts us rest : List Token} {t : Token}

/-- In front of nothing, nothing joins what follows. -/
lemma severed_nil (rest : List Token) : Severed [] rest := fun _ h => nomatch h

/-- A tail of severed tokens is severed. -/
lemma Severed.of_suffix (h : Severed ts rest) (hus : us <:+ ts) : Severed us rest := by
  obtain ⟨before, rfl⟩ := hus
  rcases us with _ | ⟨u, us⟩
  · exact severed_nil rest
  · rwa [Severed, List.getLast?_append_of_ne_nil _ (List.cons_ne_nil u us)] at h

/-- Tokens stay severed behind one that is no arrow. -/
lemma Severed.cons (ht : t.kind ≠ .symbol .leftArrow) (h : Severed ts rest) :
    Severed (t :: ts) rest := by
  rcases ts with _ | ⟨u, us⟩
  · intro v hv harrow
    obtain rfl : t = v := by simpa using hv
    exact absurd harrow ht
  · rwa [Severed, List.getLast?_cons_cons]

/-- The split of a first token is the same whether or not the rest stands behind.

**Proof sketch.** By cases on whether the first token is in two pieces.  If it is not, it is not
with more tokens behind it either.  If it is, the same pieces are taken from the longer list: for a
lone arrow at the end of `ts` because the list is severed there, so that nothing in `rest` joins it.
-/
lemma splitHead_append (h : Severed ts rest) (hts : ts ≠ []) :
    splitHead (ts ++ rest) = splitHead ts ++ rest ∧ Severed (splitHead ts) rest := by
  have hhalved {t u : Token} {more : List Token} (hhalves : Halves ts t u more) :
      Severed (t :: u :: more) rest := by
    obtain ⟨taken, -, rfl, -⟩ := hhalves.exists_append
    refine .cons (fun hkind => ?_) (.cons (fun hkind => ?_) (h.of_suffix (List.suffix_append _ _)))
    · rcases hhalves.first_kind with hk | hk <;> cases hk.symm.trans hkind
    · rcases hhalves.second_kind with hk | hk <;> rw [hkind] at hk <;> cases hk
  rcases splitHead_eq_or_halves ts with hstays | ⟨first, second, more, hhalves⟩
  · obtain ⟨t, us, rfl⟩ := List.exists_cons_of_ne_nil hts
    rw [List.cons_append, splitHead_cons (hstays t rfl), splitHead_cons (hstays t rfl)]
    exact ⟨rfl, h⟩
  · have hlonger : Halves (ts ++ rest) first second (more ++ rest) := by
      cases hhalves with
      | sign ts hsign => exact .sign _ hsign
      | joined more harrow hjoins => exact .joined _ harrow hjoins
      | @arrow t us harrow hjoins =>
        refine .arrow _ harrow fun next hnext => ?_
        rcases more with _ | ⟨u, more⟩
        · exact h t rfl harrow next hnext
        · exact hjoins next hnext
    rw [hhalves.splitHead_eq, hlonger.splitHead_eq]
    exact ⟨rfl, hhalved hhalves⟩

end Severed

end Token

/-! ## The simulation -/

/-- The cursor `c` stands in the tokens of `whole`, and `d` in those of a slice behind which `rest`
follows in the whole: both show the same tokens until the slice ends. -/
structure Alongside (whole rest : List Token) (k : Nat) (σ : Mode) (c d : Cursor) : Prop where
  closing : c.closing.lexeme = d.closing.lexeme
  nears : Nears whole σ c.ahead
  ahead : ∃ ts us, c.ahead = ts ++ us ∧ List.Forall₂ (Shifted k) ts d.ahead
    ∧ (us = rest ∧ Severed ts rest
      ∨ ts = [] ∧ (∃ depth, σ = .behind depth) ∧ us = splitHead rest)

namespace Alongside

variable {whole rest : List Token} {k : Nat} {σ : Mode} {c d : Cursor} {depth : Nat}

/-- At cursors alongside, the same token stands, or the slice is at its end and the rest is ahead in
the whole.

**Proof sketch.** While something is ahead in the slice, it is what is ahead in the whole up to
places; at the end of the slice what remains in the whole is the rest. -/
lemma same_or_ended (h : Alongside whole rest k σ c d) : SameToken False c.peek d.peek
    ∨ (0 < countPieces rest ∧ c.remaining = countPieces rest ∧ d.ahead = []) := by
  obtain ⟨ts, us, hahead, hshifted, hus⟩ := h.ahead
  rcases hd : d.ahead with _ | ⟨u, ds⟩
  · rw [hd, List.forall₂_nil_right_iff] at hshifted
    subst hshifted
    have hcount : countPieces us = countPieces rest := by
      rcases hus with ⟨rfl, -⟩ | ⟨-, -, rfl⟩
      · rfl
      · exact countPieces_splitHead rest
    rcases us with _ | ⟨v, vs⟩
    · refine .inl ⟨?_, ?_, nofun⟩
      · rw [Cursor.peek_kind_of_ahead_nil hahead, Cursor.peek_kind_of_ahead_nil hd]
      · simpa [Cursor.peek, hahead, hd] using h.closing
    · refine .inr ⟨?_, ?_, rfl⟩
      · have := v.one_le_pieces
        rw [← hcount, countPieces_cons]
        omega
      · rw [Cursor.remaining, hahead, List.nil_append, hcount]
  · rw [hd] at hshifted
    rcases hshifted with _ | ⟨htu, -⟩
    exact .inl ⟨by simpa [Cursor.peek, hahead, hd] using htu.kind,
      by simpa [Cursor.peek, hahead, hd] using htu.lexeme, nofun⟩

/-- Cursors stay alongside behind the same token.

**Proof sketch.** What remains goes down by the pieces of the token on both sides, and the rest
stays ahead in the whole. -/
lemma advance (h : Alongside whole rest k σ c d) (hsame : SameToken False c.peek d.peek)
    (hc : c.peek.kind ≠ .eof) :
    Alongside whole rest k (σ.step c.peek.kind) c.advance d.advance := by
  obtain ⟨ts, us, hahead, hshifted, hus⟩ := h.ahead
  obtain ⟨ds, hd⟩ := Cursor.exists_ahead_of_peek (hsame.kind ▸ hc)
  rw [hd] at hshifted
  rcases hshifted with _ | ⟨htu, hmore⟩
  rename_i t ts
  have hpeek : c.peek = t := by simp [Cursor.peek, hahead]
  have hnears := h.nears
  rw [hahead, List.cons_append] at hnears
  refine ⟨?_, ?_, ts, us, ?_, ?_, ?_⟩
  · simpa [Cursor.advance, hahead, hd] using h.closing
  · rw [hpeek]
    simpa [Cursor.advance, hahead] using hnears.advance
  · simp [Cursor.advance, hahead]
  · simpa [Cursor.advance, hd] using hmore
  · rcases hus with ⟨rfl, hsevered⟩ | ⟨hnil, -⟩
    · exact .inl ⟨rfl, hsevered.of_suffix (List.suffix_cons t ts)⟩
    · cases hnil

/-- Cursors stay alongside where both sides split the token behind an operand. -/
lemma split (h : Alongside whole rest k (.behind depth) c d) :
    Alongside whole rest k (.behind depth) c.splitInfix d.splitInfix := by
  obtain ⟨ts, us, hahead, hshifted, hus⟩ := h.ahead
  have hsplit := splitHead_shifted hshifted
  refine ⟨by simpa using h.closing, by simpa using h.nears.splitHead, ?_⟩
  rw [Cursor.ahead_splitInfix, Cursor.ahead_splitInfix, hahead]
  rcases eq_or_ne ts [] with rfl | hts
  · refine ⟨[], splitHead us, rfl, hsplit, .inr ⟨rfl, ⟨depth, rfl⟩, ?_⟩⟩
    rcases hus with ⟨rfl, -⟩ | ⟨-, -, rfl⟩
    · rfl
    · rw [splitHead_splitHead]
  · rcases hus with ⟨rfl, hsevered⟩ | ⟨hnil, -⟩
    · obtain ⟨heq, hsevered'⟩ := splitHead_append hsevered hts
      exact ⟨splitHead ts, us, heq, hsplit, .inl ⟨rfl, hsevered'⟩⟩
    · exact absurd hnil hts

/-- Where no expression is being read, a tail of the whole is ahead. -/
lemma suffix (h : Alongside whole rest k .closed c d) : c.ahead <:+ whole := by
  cases h.nears with
  | tail htail => exact htail

/-- Where no expression is being read, what follows behind the slice is not split. -/
lemma ahead_of_closed (h : Alongside whole rest k .closed c d) :
    ∃ ts, c.ahead = ts ++ rest ∧ List.Forall₂ (Shifted k) ts d.ahead ∧ Severed ts rest := by
  obtain ⟨ts, us, hahead, hshifted, ⟨rfl, hsevered⟩ | ⟨-, ⟨_, hclosed⟩, -⟩⟩ := h.ahead
  · exact ⟨ts, hahead, hshifted, hsevered⟩
  · cases hclosed

/-- Where no expression is being read, one can begin. -/
lemma enter (h : Alongside whole rest k .closed c d) :
    Alongside whole rest k (.operand depth) c d := by
  obtain ⟨ts, hahead, hshifted, hsevered⟩ := h.ahead_of_closed
  exact ⟨h.closing, .tail h.suffix, ts, rest, hahead, hshifted, .inl ⟨rfl, hsevered⟩⟩

end Alongside

/-- A slice of the tokens is read alongside the whole. -/
def alongside (whole rest : List Token) (k : Nat) : Simulation where
  exact := False
  total := False
  floor := countPieces rest
  Fails _ := True
  Rel := Alongside whole rest k
  heads h := h.same_or_ended.imp_right .inr
  advance h hsame hc _ := h.advance hsame hc
  split h := ⟨h.split, h.split.same_or_ended⟩
  previous _ h := h.elim
  fails _ := trivial

/-! ## Where expressions end and begin -/

/-- The tokens ahead settle to those that were read from there on and those still ahead. -/
lemma Settles.settle_eq {R : List Token → List Token → Prop} {first σ : Mode}
    {start c d : Cursor} {us : List Token} (h : Settles first start σ c d)
    (hread : start.Reads R us c) : settle first start.ahead = us ++ settle σ c.ahead := by
  obtain ⟨read, hpast, -, hrun⟩ := h.run
  obtain rfl : us = read :=
    List.reverse_injective (List.append_cancel_right (hread.past.symm.trans hpast))
  exact hrun

/-- Behind an expression no token is split, and no sign of an operator stands there. -/
lemma Cursor.Beyond.headKind {c : Cursor} (h : c.Beyond Level.all) :
    headKind c.ahead ≠ .symbol .minus ∧ headKind c.ahead ≠ .symbol .less := by
  have hnone : c.splitInfix.peek.kind.binaryOp? = none := by
    rcases hop : c.splitInfix.peek.kind.binaryOp? with _ | op
    · rfl
    · exact absurd op.level.mem_all (h op hop)
  rcases c.peek_splitInfix with heq | hkind | hkind
  · rw [heq, c.peek_kind] at hnone
    constructor <;> intro hkind <;> rw [hkind] at hnone <;> cases hnone
  · rw [hkind] at hnone
    cases hnone
  · rw [hkind] at hnone
    cases hnone

/-- Behind an expression that is read alongside the whole, a tail of the whole is ahead again. -/
lemma Alongside.leave {whole rest : List Token} {k depth : Nat} {c d : Cursor}
    (h : Alongside whole rest k (.behind depth) c d) (hc : c.Beyond Level.all) :
    Alongside whole rest k .closed c d := by
  obtain ⟨hminus, hless⟩ := hc.headKind
  obtain ⟨ts, us, hahead, hshifted, hus⟩ := h.ahead
  refine ⟨h.closing, .tail (h.nears.suffix nofun hminus hless), ts, us, hahead, hshifted, .inl ?_⟩
  rcases hus with hus | ⟨rfl, -, rfl⟩
  · exact hus
  · rw [hahead] at hminus hless
    exact ⟨splitHead_eq_of_headKind hminus hless, severed_nil rest⟩

/-- If a minus sign stands at the head of this tail of `whole`, the token before it ends no operand:
the lexer reads the tail alone as it reads it in the whole. -/
def Fresh (whole ts : List Token) : Prop :=
  ∀ before, whole = before ++ ts → headKind ts = .symbol .minus →
    ∀ p ∈ before.getLast?, p.kind.endsOperand = false

section Fresh

variable {whole ts rest : List Token} {t : Token} {k : Nat} {c d : Cursor}

/-- Anywhere but at a minus sign an expression can be read. -/
lemma fresh_of_headKind (h : headKind ts ≠ .symbol .minus) : Fresh whole ts :=
  fun _ _ hminus => absurd hminus h

/-- Behind a token that ends no operand. -/
lemma fresh_of_cons (ht : t.kind.endsOperand = false) (h : t :: ts <:+ whole) :
    Fresh whole ts := by
  obtain ⟨before, rfl⟩ := h
  intro before' heq _ p hp
  have hbefore : before ++ [t] = before' := by
    rw [List.append_cons] at heq
    exact List.append_cancel_right heq
  rw [← hbefore, List.getLast?_concat] at hp
  obtain rfl := Option.some.inj hp
  exact ht

/-- An expression can be read behind a token that ends no operand. -/
lemma Alongside.fresh_advance (h : Alongside whole rest k .closed c d)
    (hc : c.peek.kind ≠ .eof) (hends : c.peek.kind.endsOperand = false) :
    Fresh whole c.advance.ahead := by
  obtain ⟨ts, hts⟩ := Cursor.exists_ahead_of_peek hc
  have hsuffix := h.suffix
  rw [hts] at hsuffix
  simpa [Cursor.advance, hts] using fresh_of_cons hends hsuffix

end Fresh

/-! ## Expressions -/

/-- The values are the same up to spans, and what stands inside of the first one is found. -/
def Matches {α β : Type} (whole : List Token) (strip : α → β) (node : α → Node) (a b : α) : Prop :=
  strip a = strip b ∧ (node a).Grounded whole

namespace Parser

variable {α β : Type} {whole rest : List Token} {k : Nat} {c d : Cursor}

/-- What a parser answers is a fact about one side. -/
lemma Simulates.and_left {S : Simulation} {p : Parser α} {q : Parser β}
    {Q : α → β → Mode → Prop} {P : α → Prop} (h : Simulates S p q c d Q)
    (hP : ∀ a c', p c = .ok a c' → P a) : Simulates S p q c d fun a b τ => Q a b τ ∧ P a where
  ok a c' hp hfloor := by
    obtain ⟨b, d', τ, hq, hQ, hrel⟩ := h.ok a c' hp hfloor
    exact ⟨b, d', τ, hq, ⟨hQ, hP a c' hp⟩, hrel⟩
  error := h.error

/-- The tokens ahead of an expression settle to those that spell it and those behind it. -/
lemma expression_settles (c : Cursor) : expression.Ensures SplitsTo c fun e us c' =>
    Inner e us c' ∧ Settles (.operand 0) c (.behind 0) c' c' := by
  refine (expression_places c).and ⟨fun e c' h => ?_, (expression_places c).error,
    (expression_places c).shows⟩
  obtain ⟨us, hread, -⟩ := (expression_places c).ok e c' h
  obtain ⟨e', c'', τ, h', ⟨-, rfl⟩, hrel⟩ := (expression_simulates (S := settling (.operand 0) c)
    0 c c (Settles.refl rfl c)).ok e c' h (Nat.zero_le _)
  obtain ⟨rfl, rfl⟩ := EStateM.Result.ok.inj (h.symm.trans h')
  exact ⟨us, hread, hrel⟩

/-- An expression that the tokens ahead settle to is found in the whole. -/
lemma grounded_of_settles {e : Expression} {us : List Token} {c' d' : Cursor}
    (h : Settles (.operand 0) c (.behind 0) c' d') (hread : c.Reads SplitsTo us c')
    (hus : us ∈ e.placed) (hcan : e.Canonical) (hc : c.ahead <:+ whole)
    (hfresh : Fresh whole c.ahead) : (Node.expression e).Grounded whole := by
  obtain ⟨before, rfl⟩ := hc
  exact Node.grounded_of_settle (n := .expression e) rfl (hfresh before rfl) (h.settle_eq hread) rfl
    hcan hus

/-- Expressions are read alike, and what stands inside of them is found in the whole. -/
theorem expression_alongside (h : (alongside whole rest k).Rel .closed c d)
    (hfresh : Fresh whole c.ahead) :
    Simulates (alongside whole rest k) expression expression c d fun e e' τ =>
      Matches whole Expression.withoutSpans .expression e e' ∧ τ = .closed where
  ok e c' hp hfloor := by
    have hrel : (alongside whole rest k).Rel (.operand 0) c d := Alongside.enter h
    obtain ⟨e', d', τ, hq, ⟨halike, rfl⟩, hrel'⟩ :=
      (expression_simulates 0 c d hrel).ok e c' hp hfloor
    obtain ⟨us, hread, ⟨hus, hcan, hbeyond⟩, hsettles⟩ := (expression_settles c).ok e c' hp
    exact ⟨e', d', .closed, hq, ⟨⟨halike.1, grounded_of_settles hsettles hread hus hcan
      (Alongside.suffix h) hfresh⟩, rfl⟩, Alongside.leave hrel' hbeyond⟩
  error _ _ _ _ := ⟨trivial, nofun⟩

/-! ## Predicates in parentheses -/

/-- Two ways to cut some tokens: the later one has more of the pieces in front. -/
lemma exists_between {ts us vs ws : List Token} (h : ts ++ us = vs ++ ws)
    (hcount : countPieces ws ≤ countPieces us) :
    ∃ between, vs = ts ++ between ∧ us = between ++ ws := by
  rcases List.append_eq_append_iff.1 h with ⟨between, rfl, rfl⟩ | ⟨between, rfl, rfl⟩
  · exact ⟨between, rfl, rfl⟩
  · rcases between with _ | ⟨t, between⟩
    · exact ⟨[], by simp, by simp⟩
    · have := t.one_le_pieces
      simp only [List.cons_append, countPieces_cons, countPieces_append] at hcount
      omega

/-- What stands against tokens in two pieces falls into two pieces. -/
lemma exists_of_forall₂_append {R : Token → Token → Prop} {ts us vs : List Token}
    (h : List.Forall₂ R (ts ++ us) vs) :
    ∃ ts' us', vs = ts' ++ us' ∧ List.Forall₂ R ts ts' ∧ List.Forall₂ R us us' :=
  ⟨vs.take ts.length, vs.drop ts.length, (List.take_append_drop _ _).symm,
    (List.forall₂_take_append vs ts us h.flip).flip,
    (List.forall₂_drop_append vs ts us h.flip).flip⟩

/-- The tokens ahead of a predicate in parentheses settle to those that spell it, and behind the
parenthesis that closes it nothing is split.

**Proof sketch.** The predicate spells the tokens that it was read from, as they were split, and it
settles them.  The parenthesis behind it ends the mode in which a split is looked for, so that what
follows is as it was. -/
lemma predicate_settles_inParens {p : Predicate} {c' : Cursor} (h : predicate c = .ok p c')
    (hc' : c'.peek.kind = .symbol .rParen) :
    ∃ us, us ∈ p.placed ∧ p.Canonical ∧ c'.advance.closing = c.closing ∧ ∃ part,
      c.ahead = part ++ c'.advance.ahead
        ∧ ∀ vs, settle (.operand 0) (part ++ vs) = us ++ c'.peek :: vs := by
  obtain ⟨us, hread, hus, hcan⟩ := (predicate_places c).ok p c' h
  obtain ⟨d', -, hsettles⟩ := (predicate_settles c p).1 c' h
  obtain ⟨more, hmore⟩ := Cursor.exists_ahead_of_peek (c := c') (by simp [hc'])
  have hkeeps : (Mode.behind 0).keeps c'.peek.kind = true := by
    rw [hc']
    rfl
  have hstep : (Mode.behind 0).step c'.peek.kind = .closed := by
    rw [hc']
    rfl
  have hafter : (Mode.operand 0).after (us ++ [c'.peek]) = .closed := by
    rw [Mode.after_append, (p.placed_le_courses 0 hus).after_eq, Mode.after_cons, hstep,
      Mode.after_nil]
  have hsettle : settle (.operand 0) c.ahead = (us ++ [c'.peek]) ++ more := by
    rw [hsettles.settle_eq hread, hmore, settle_cons hkeeps, hstep, settle_closed,
      List.append_assoc]
    rfl
  obtain ⟨part, more', hahead, hpart⟩ := exists_settle_prefix _ le_rfl hsettle (by simp [hafter])
  simp only [hafter, settle_closed] at hpart
  obtain rfl : more' = more := by
    rw [hahead, hpart] at hsettle
    exact List.append_cancel_left hsettle
  refine ⟨us, hus, hcan, ?_, part, ?_, fun vs => ?_⟩
  · rw [Cursor.advance, hmore]
    exact hread.closing
  · rw [hahead, Cursor.advance, hmore]
  · rw [hpart, List.append_assoc]
    rfl

/-- Tokens that settle to a spelling of a predicate, with a parenthesis behind it, are read as the
predicate, and then the parenthesis. -/
lemma predicateAfresh_accepts_settled {p : Predicate} {us more : List Token} {paren : Token}
    (hcan : p.Canonical) (hus : us ∈ p.plainSpelling) (hparen : paren.kind = .symbol .rParen)
    (hd : settle (.operand 0) d.ahead = us ++ paren :: more) :
    ∃ p' d₁ d₂, p'.withoutSpans = p.withoutSpans ∧ predicateAfresh d = .ok p' d₁
      ∧ expect (.symbol .rParen) d₁ = .ok paren d₂ ∧ d₂.ahead = more ∧ d₂.closing = d.closing := by
  have hends : EndsPredicate 0 (paren :: more) := .inl hparen
  obtain ⟨p', hp', hok⟩ := predicate_accepts hcan hus hends
    { d with ahead := settle (.operand 0) d.ahead } hd
  obtain ⟨p'', d₁, τ, hafresh, ⟨rfl, rfl⟩, hrel⟩ := (predicate_simulates (.operand 0) _ 0 _ _
    (settles_settle d)).ok _ _ hok (Nat.zero_le _)
  exact ⟨p', d₁, _, hp', hafresh, (expect_rParen_of_settles hrel _ _).1 (expect_of_eq hparen), rfl,
    rfl⟩

/-- **Predicates in parentheses**, and what follows them, are read alike.

**Proof sketch.** The parenthesis that closes the predicate ends every expression, so the tokens up
  to it settle by themselves: those of the slice settle to the same ones, up to their place, and
  spell the same predicate. -/
theorem inParens_alongside {f : Predicate → Token → Parser α} {g : Predicate → Token → Parser β}
    [hlowers : ∀ p t, Lowers (f p t)] {Q : α → β → Mode → Prop}
    (h : (alongside whole rest k).Rel .closed c d) (hfresh : Fresh whole c.ahead)
    (hf : ∀ p p' t t' c₁ d₁, Matches whole Predicate.withoutSpans .predicate p p' →
      (alongside whole rest k).Rel .closed c₁ d₁ →
      Simulates (alongside whole rest k) (f p t) (g p' t') c₁ d₁ Q) :
    Simulates (alongside whole rest k)
      (predicate >>= fun p => expect (.symbol .rParen) >>= f p)
      (predicate >>= fun p => expect (.symbol .rParen) >>= g p) c d Q where
  ok a c₂ hp hfloor := by
    have h : Alongside whole rest k .closed c d := h
    obtain ⟨p, c₁, hpredicate, hp⟩ := bind_eq_ok.1 hp
    obtain ⟨t, c', hclose, hp⟩ := bind_eq_ok.1 hp
    obtain ⟨hc₁, rfl, rfl⟩ := expect_eq_ok.1 hclose
    obtain ⟨us, hus, hcan, hclosing, part, hahead, hpart⟩ :=
      predicate_settles_inParens hpredicate hc₁
    -- what follows in the whole stands behind the parenthesis
    obtain ⟨ts, hts, hshifted, hsevered⟩ := h.ahead_of_closed
    obtain ⟨between, rfl, hbetween⟩ := exists_between (hahead.symm.trans hts)
      (hfloor.trans ((hlowers p c₁.peek).le _ a c₂ hp))
    -- the slice settles to a spelling of the predicate as well
    have hsettle := settle_shifted _ (.operand 0) rfl hshifted
    rw [hpart] at hsettle
    obtain ⟨us', vs', hd, hus', hvs'⟩ := exists_of_forall₂_append hsettle
    rcases hvs' with _ | ⟨hparen, hmore⟩
    obtain ⟨p', d₁, d₂, hp', hafresh, hclose', hahead', hclosing'⟩ :=
      predicateAfresh_accepts_settled hcan
        (p.stable_plainSpelling us (p.placed_le hus) us' (map_content_of_shifted hus'))
        (hparen.kind.symm.trans hc₁) hd
    have halongside : Alongside whole rest k .closed c₁.advance d₂ := by
      refine ⟨?_, .tail ((hahead ▸ List.suffix_append part _).trans h.suffix), between, rest,
        hbetween, hahead' ▸ hmore, .inl ⟨rfl, hsevered.of_suffix (List.suffix_append part between)⟩⟩
      rw [hclosing, hclosing', h.closing]
    have hmatches : Matches whole Predicate.withoutSpans .predicate p p' := by
      have hwhole : settle (.operand 0) c.ahead = us ++ c₁.peek :: c₁.advance.ahead := by
        rw [hahead]
        exact hpart _
      obtain ⟨before, rfl⟩ := h.suffix
      exact ⟨hp'.symm, Node.grounded_of_settle (n := .predicate p) rfl (hfresh before rfl) hwhole
        rfl hcan hus⟩
    obtain ⟨b, d', τ, hg, hQ, hrel⟩ :=
      (hf p p' _ _ _ _ hmatches halongside).ok a c₂ hp hfloor
    exact ⟨b, d', τ, (agrees_inParens g d b d').2 (bind_eq_ok.2
      ⟨p', d₁, hafresh, bind_eq_ok.2 ⟨_, d₂, hclose', hg⟩⟩), hQ, hrel⟩
  error _ _ _ _ := ⟨trivial, nofun⟩

end Parser

end RakeLang
