import RakeLang.Proofs.Accepting.Parser
import RakeLang.Proofs.Settling.Mode

/-!
# Readings in step

A reading learns of the tokens ahead only by looking at the one at the cursor.  So two cursors that
show the same token, and that go on doing so as they advance and as they split the token behind an
operand, are read alike.  A `Simulation` is a family of relations between cursors, one for each
mode, with these properties.  `Parser.Simulates` says that two parsers, run at related cursors,
answer related values and stop at related cursors.  Its lemmas follow the combinators from which
the parsers are built, as those of `Parser.Ensures` do.

The right side may end earlier than the left one: it is then at the end of the input where the left
side has as many pieces ahead as its `floor` tells, and only those readings of the left side count
that leave them unread.

## Main definitions

* `RakeLang.Simulation` — the families of relations; `RakeLang.Simulation.under` bounds what
  remains ahead.
* `RakeLang.Parser.Simulates` — the judgement.
* `RakeLang.Parser.Lowers` — parsers that never put tokens back.

## Main results

* `RakeLang.Parser.manyUpTo_eq` — any bound beyond what remains is as good for a repetition.
* `RakeLang.Parser.Simulates.bind`, `RakeLang.Parser.Simulates.expect_bind` — single steps.
-/

set_option relaxedAutoImplicit false
set_option autoImplicit false

namespace RakeLang

open Token

/-! ## Related cursors -/

/-- The tokens have the same kind and the same text and, if `exact` asks for it, the same span. -/
structure SameToken (exact : Prop) (t u : Token) : Prop where
  kind : t.kind = u.kind
  lexeme : t.lexeme = u.lexeme
  span : exact → t.span = u.span

/-- The values are the same up to what `strip` takes from them and, if `exact` asks for it, they
are equal. -/
def Alike {α β : Type} (exact : Prop) (strip : α → β) (a b : α) : Prop :=
  strip a = strip b ∧ (exact → a = b)

/-- A family of relations between two cursors, the modes being its indices. -/
structure Simulation where
  /-- Do related cursors show the same spans? -/
  exact : Prop
  /-- Is a refusal on the left side one on the right side too? -/
  total : Prop
  /-- What remains ahead on the left side where the right side is at the end of the input. -/
  floor : Nat
  /-- What is known of the cursor that a refusal leaves behind on the left side. -/
  Fails : Cursor → Prop
  Rel : Mode → Cursor → Cursor → Prop
  /-- Related cursors show the same token, or two that a split can tell apart, or the right one is
  at the end of the input. -/
  heads : ∀ {σ c d}, Rel σ c d → SameToken exact c.peek d.peek
    ∨ (σ.isBehind = true ∧ c.peek.kind.inSplit = true ∧ d.peek.kind.inSplit = true)
    ∨ (0 < floor ∧ c.remaining = floor ∧ d.ahead = [])
  advance : ∀ {σ c d}, Rel σ c d → SameToken exact c.peek d.peek → c.peek.kind ≠ .eof →
    σ.keeps c.peek.kind = true → Rel (σ.step c.peek.kind) c.advance d.advance
  split : ∀ {depth c d}, Rel (.behind depth) c d → Rel (.behind depth) c.splitInfix d.splitInfix
    ∧ (SameToken exact c.splitInfix.peek d.splitInfix.peek
      ∨ (0 < floor ∧ c.splitInfix.remaining = floor ∧ d.splitInfix.ahead = []))
  previous : ∀ {σ c d}, Rel σ c d → exact → c.previousSpan = d.previousSpan
  fails : ∀ {σ c d}, Rel σ c d → Fails c

namespace Simulation

variable {S : Simulation} {σ : Mode} {c d : Cursor}

/-- The cursors show the same token. -/
def Same (S : Simulation) (c d : Cursor) : Prop := SameToken S.exact c.peek d.peek

/-- The right cursor is at the end of the input, and the left one where it must not read on. -/
def Ended (S : Simulation) (c d : Cursor) : Prop :=
  0 < S.floor ∧ c.remaining = S.floor ∧ d.ahead = []

/-- Two tokens that a split can tell apart stand at the cursors, behind an operand. -/
def Apart (σ : Mode) (c d : Cursor) : Prop :=
  σ.isBehind = true ∧ c.peek.kind.inSplit = true ∧ d.peek.kind.inSplit = true

/-- At related cursors the same token stands, or a split tells the two apart, or the right side is
at its end. -/
lemma cases (h : S.Rel σ c d) : S.Same c d ∨ Apart σ c d ∨ S.Ended c d := S.heads h

/-- At the end of the input there is nothing to read. -/
lemma Ended.kind (h : S.Ended c d) : d.peek.kind = .eof := Cursor.peek_kind_of_ahead_nil h.2.2

/-- The simulation between cursors before which no more than `n` and `m` pieces remain. -/
def under (S : Simulation) (n m : Nat) : Simulation where
  exact := S.exact
  total := S.total
  floor := S.floor
  Fails := S.Fails
  Rel σ c d := S.Rel σ c d ∧ c.remaining ≤ n ∧ d.remaining ≤ m
  heads h := S.heads h.1
  advance {σ c d} h hsame hc hkeeps := by
    refine ⟨S.advance h.1 hsame hc hkeeps, ?_, ?_⟩
    · have := (Cursor.reads_advance (R := Eq) hc).remaining
      omega
    · have := (Cursor.reads_advance (R := Eq) (hsame.kind ▸ hc)).remaining
      omega
  split h := by
    obtain ⟨hrel, hsame⟩ := S.split h.1
    exact ⟨⟨hrel, by simpa using h.2⟩, hsame⟩
  previous h := S.previous h.1
  fails h := S.fails h.1

/-- What is related is related with what remains as the bounds. -/
lemma Rel.under (h : S.Rel σ c d) : (S.under c.remaining d.remaining).Rel σ c d :=
  ⟨h, le_rfl, le_rfl⟩

end Simulation

namespace Parser

variable {α β γ δ : Type}

/-! ## Runs on a single token -/

section Single

variable {c : Cursor} {kind : Kind}

/-- One parser behind another, where the first one succeeds. -/
lemma bind_of_ok {p : Parser α} {f : α → Parser β} {a : α} {c₁ : Cursor}
    (h : p c = .ok a c₁) : (p >>= f) c = f a c₁ := by
  change EStateM.bind p f c = _
  rw [EStateM.bind, h]

/-- One parser behind another, where the first one is refused. -/
lemma bind_of_error {p : Parser α} {f : α → Parser β} {fault : Fault} {c₁ : Cursor}
    (h : p c = .error fault c₁) : (p >>= f) c = .error fault c₁ := by
  change EStateM.bind p f c = _
  rw [EStateM.bind, h]

/-- What stands behind two parsers that come to the same end does so too. -/
lemma bind_at {p q : Parser α} (f : α → Parser β) {c c' : Cursor} (h : p c = q c') :
    (p >>= f) c = (q >>= f) c' := by
  change EStateM.bind p f c = EStateM.bind q f c'
  rw [EStateM.bind, EStateM.bind, h]

/-- A token of the kind is passed over. -/
lemma eat_of_eq (h : c.peek.kind = kind) : eat kind c = .ok true c.advance := by
  refine bind_eq_ok.2 ⟨_, c, rfl, ?_⟩
  rw [if_pos (by simpa using h)]
  rfl

/-- A token of another kind is left. -/
lemma eat_of_ne (h : c.peek.kind ≠ kind) : eat kind c = .ok false c := by
  refine bind_eq_ok.2 ⟨_, c, rfl, ?_⟩
  rw [if_neg (by simpa using h)]
  rfl

/-- A token of the kind that is expected is read. -/
lemma expect_of_eq (h : c.peek.kind = kind) : expect kind c = .ok c.peek c.advance := by
  refine bind_eq_ok.2 ⟨_, c, rfl, ?_⟩
  rw [if_pos (by simpa using h)]
  rfl

/-- A token of another kind than the one that is expected is refused. -/
lemma expect_of_ne (h : c.peek.kind ≠ kind) :
    expect kind c = .error (.unexpected [kind.display] c.peek.found c.peek.span) c := by
  refine bind_eq_error.2 (.inr ⟨_, c, rfl, ?_⟩)
  rw [if_neg (by simpa using h)]
  rfl

/-- A token is read just if it is of the kind that is expected. -/
lemma expect_eq_ok {t : Token} {c' : Cursor} :
    expect kind c = .ok t c' ↔ c.peek.kind = kind ∧ c.peek = t ∧ c.advance = c' := by
  by_cases hc : c.peek.kind = kind
  · simp [expect_of_eq hc, hc]
  · simp [expect_of_ne hc, hc]

/-- What begins with a token of some kind is read only where one stands. -/
lemma kind_of_expect_bind {f : Token → Parser α} {a : α} {c' : Cursor}
    (h : (expect kind >>= f) c = .ok a c') : c.peek.kind = kind := by
  obtain ⟨t, c₁, ht, -⟩ := bind_eq_ok.1 h
  exact (expect_eq_ok.1 ht).1

end Single

/-! ## Parsers that put nothing back -/

/-- What remains ahead never grows. -/
class Lowers (p : Parser α) : Prop where
  le : ∀ c a b, p c = .ok a b → b.remaining ≤ c.remaining

/-- Where the parser succeeds at the cursor it reads a token. -/
def Strict (p : Parser α) (c : Cursor) : Prop :=
  ∀ a b, p c = .ok a b → b.remaining < c.remaining

section Lowers

variable {p : Parser α} {f : α → Parser β} {c : Cursor} {kind : Kind}

/-- A parser that leaves a cursor behind what it reads never puts tokens back. -/
lemma Lowers.of_ensures {R : List Token → List Token → Prop} [Rewriting R]
    {Q : Cursor → α → List Token → Cursor → Prop} (h : ∀ c, p.Ensures R c (Q c)) : Lowers p where
  le c a b hp := by
    obtain ⟨ts, hread, -⟩ := (h c).ok a b hp
    have := hread.remaining
    omega

/-- A parser that reads at least one token where it succeeds. -/
lemma Strict.of_ensures {R : List Token → List Token → Prop} [Rewriting R]
    {Q : α → List Token → Cursor → Prop} (h : p.Ensures R c Q)
    (hQ : ∀ a ts c', Q a ts c' → ts ≠ []) : Strict p c := by
  intro a b hp
  obtain ⟨ts, hread, ha⟩ := h.ok a b hp
  exact hread.remaining_lt (hQ a ts b ha)

/-- An answer takes nothing from what is ahead. -/
instance (a : α) : Lowers (pure a : Parser α) where
  le c a b h := by
    obtain ⟨-, rfl⟩ := EStateM.Result.ok.inj h
    exact le_rfl

/-- A refusal of the token at the cursor takes nothing from what is ahead. -/
instance (expected : List String) : Lowers (unexpected expected : Parser α) where
  le _ _ _ h := nomatch h

/-- A refusal of a part takes nothing from what is ahead. -/
instance (part : Misplaced) : Lowers (misplaced part : Parser α) where
  le _ _ _ h := nomatch h

/-- A refusal takes nothing from what is ahead. -/
instance (fault : Fault) : Lowers (throw fault : Parser α) where
  le _ _ _ h := nomatch h

/-- A parser that only looks at the cursor. -/
lemma lowers_of_look {p : Parser α} {g : Cursor → α} (h : ∀ c, p c = .ok (g c) c) :
    Lowers p where
  le c a b hp := by
    obtain ⟨-, rfl⟩ := EStateM.Result.ok.inj ((h c).symm.trans hp)
    exact le_rfl

/-- A look at the kind of the token at the cursor takes nothing from what is ahead. -/
instance : Lowers peekKind := lowers_of_look fun _ => rfl

/-- A check of the token at the cursor takes nothing from what is ahead. -/
instance : Lowers (check kind) := lowers_of_look fun _ => rfl

/-- A check of a token ahead takes nothing from what is ahead. -/
instance (n : Nat) : Lowers (checkAhead n kind) := lowers_of_look fun _ => rfl

/-- A check of the word at the cursor takes nothing from what is ahead. -/
instance (word : String) : Lowers (checkWord word) := lowers_of_look fun _ => rfl

/-- A span takes nothing from what is ahead. -/
instance (start : Span) : Lowers (spanFrom start) := lowers_of_look fun _ => rfl

/-- To advance lowers what remains, unless the input is at its end. -/
lemma remaining_advance (c : Cursor) :
    c.advance.remaining ≤ c.remaining
      ∧ (c.peek.kind ≠ .eof → c.advance.remaining < c.remaining) := by
  rcases hc : c.ahead with _ | ⟨t, ts⟩
  · exact ⟨by simp [Cursor.advance, hc],
      fun h => absurd (Cursor.peek_kind_of_ahead_nil hc) h⟩
  · have := t.one_le_pieces
    simp only [Cursor.advance, hc, Cursor.remaining, countPieces_cons]
    omega

/-- A step takes from what is ahead. -/
instance : Lowers advance where
  le c a b h := by
    obtain ⟨-, rfl⟩ := EStateM.Result.ok.inj h
    exact (remaining_advance c).1

/-- One parser behind another takes from what is ahead, if both do. -/
instance Lowers.bind [hp : Lowers p] [hf : ∀ a, Lowers (f a)] : Lowers (p >>= f) where
  le c b c₂ h := by
    obtain ⟨a, c₁, h₁, h₂⟩ := bind_eq_ok.1 h
    exact ((hf a).le c₁ b c₂ h₂).trans (hp.le c a c₁ h₁)

/-- A choice takes from what is ahead, if both sides do. -/
instance {b : Prop} [Decidable b] {p q : Parser α} [hp : Lowers p] [hq : Lowers q] :
    Lowers (if b then p else q) := by
  split
  · exact hp
  · exact hq

/-- A token that is expected takes from what is ahead. -/
instance : Lowers (expect kind) := by unfold expect; infer_instance

/-- A token that may be passed over takes from what is ahead. -/
instance : Lowers (eat kind) := by unfold eat; infer_instance

/-- An item at a token of a kind takes from what is ahead. -/
instance [hp : Lowers p] : Lowers (whenAt kind p) := by unfold whenAt; infer_instance

/-- An item behind a comma takes from what is ahead. -/
instance [hp : Lowers p] : Lowers (afterComma p) := by unfold afterComma; infer_instance

/-- A bounded repetition takes from what is ahead. -/
lemma lowers_manyUpTo {step : Parser (Option α)} [hs : Lowers step] (n : Nat) :
    Lowers (manyUpTo step n) := by
  induction n with
  | zero => exact inferInstanceAs (Lowers (pure []))
  | succ n ih =>
    refine ⟨fun c as c₂ h => ?_⟩
    obtain ⟨o, c₁, h₁, h₂⟩ := bind_eq_ok.1 h
    have hle := hs.le c o c₁ h₁
    rcases o with _ | a
    · obtain ⟨-, rfl⟩ := EStateM.Result.ok.inj h₂
      exact hle
    · obtain ⟨rest, c₃, h₃, h₄⟩ := bind_eq_ok.1 h₂
      obtain ⟨-, rfl⟩ := EStateM.Result.ok.inj h₄
      exact (ih.le c₁ rest c₃ h₃).trans hle

/-- A repetition takes from what is ahead. -/
instance {step : Parser (Option α)} [hs : Lowers step] : Lowers (many step) where
  le c as c₂ h := by
    obtain ⟨o, c₁, h₁, h₂⟩ := bind_eq_ok.1 h
    have hle := hs.le c o c₁ h₁
    rcases o with _ | a
    · obtain ⟨-, rfl⟩ := EStateM.Result.ok.inj h₂
      exact hle
    · obtain ⟨rest, c₃, h₃, h₄⟩ := bind_eq_ok.1 h₂
      obtain ⟨-, rfl⟩ := EStateM.Result.ok.inj h₄
      exact ((lowers_manyUpTo c₁.remaining).le c₁ rest c₃ h₃).trans hle

/-- A list takes from what is ahead. -/
instance [hp : Lowers p] : Lowers (commaSeparated kind p) := by
  unfold commaSeparated; infer_instance

/-- One parser behind another reads a token if the first one does. -/
lemma Strict.bind (h : Strict p c) [hf : ∀ a, Lowers (f a)] : Strict (p >>= f) c := by
  intro b c₂ hp
  obtain ⟨a, c₁, h₁, h₂⟩ := bind_eq_ok.1 hp
  exact ((hf a).le c₁ b c₂ h₂).trans_lt (h a c₁ h₁)

/-- A step takes a token, where one is ahead. -/
lemma strict_advance (hc : c.peek.kind ≠ .eof) : Strict advance c := by
  intro a b h
  obtain ⟨-, rfl⟩ := EStateM.Result.ok.inj h
  exact (remaining_advance c).2 hc

/-- A token that is expected is taken. -/
lemma strict_expect (hkind : kind ≠ .eof) : Strict (expect kind) c := by
  by_cases hc : c.peek.kind = kind
  · intro a b h
    exact strict_advance (hc ▸ hkind) a b ((expect_of_eq hc).symm.trans h)
  · intro a b h
    cases (expect_of_ne hc).symm.trans h

end Lowers

/-- A round of a repetition: where it answers something it reads a token, and at the end of the
input it answers nothing. -/
class Rounds (step : Parser (Option α)) : Prop extends Lowers step where
  some_lt : ∀ c a b, step c = .ok (some a) b → b.remaining < c.remaining
  at_end : ∀ c : Cursor, c.ahead = [] → step c = .ok none c

section Rounds

variable {step : Parser (Option α)}

/-- The bound of a repetition cuts nothing short, so that any two bounds that are large enough are
as good as each other.

**Proof sketch.** Induction on the first bound.  A round that answers something takes a token, so
that less remains behind it and both bounds are still large enough; and where nothing remains a
round answers nothing. -/
theorem manyUpTo_eq [hs : Rounds step] (n : Nat) :
    ∀ (m : Nat) (c : Cursor), c.remaining ≤ n → c.remaining ≤ m →
      manyUpTo step n c = manyUpTo step m c := by
  have hzero (m : Nat) (c : Cursor) (hc : c.remaining = 0) : manyUpTo step m c = .ok [] c := by
    rcases m with _ | m
    · rfl
    · exact bind_eq_ok.2 ⟨none, c, hs.at_end c (Cursor.ahead_eq_nil_of_remaining hc), rfl⟩
  induction n with
  | zero =>
    intro m c hn _
    rw [hzero 0 c (by omega), hzero m c (by omega)]
  | succ n ih =>
    intro m c hn hm
    rcases m with _ | m
    · rw [hzero (n + 1) c (by omega), hzero 0 c (by omega)]
    · change EStateM.bind step _ c = EStateM.bind step _ c
      unfold EStateM.bind
      rcases hstep : step c with ⟨o, c₁⟩ | ⟨fault, c₁⟩
      · rcases o with _ | a
        · rfl
        · have hlt := hs.some_lt c a c₁ hstep
          change EStateM.bind (manyUpTo step n) _ c₁ = EStateM.bind (manyUpTo step m) _ c₁
          rw [EStateM.bind, EStateM.bind, ih m c₁ (by omega) (by omega)]
      · rfl

/-- Any bound that is large enough is as good as that of a repetition.

**Proof sketch.** A repetition is bounded by what remains behind its first round.  That bound and
`n` both are at least as large as what remains there, and bounds that are large enough agree, by
`manyUpTo_eq`. -/
lemma many_eq_manyUpTo [Rounds step] (n : Nat) (c : Cursor) (hn : c.remaining ≤ n) :
    many step c = manyUpTo step n c := by
  rw [manyUpTo_eq n (n + 1) c hn (by omega)]
  rw [many, manyUpTo]
  rcases hstep : step c with ⟨o, c₁⟩ | ⟨fault, c₁⟩
  · rw [bind_of_ok hstep, bind_of_ok hstep]
    rcases o with _ | a
    · rfl
    · have hle := Lowers.le c (some a) c₁ hstep
      have hmore : manyUpTo step c₁.remaining c₁ = manyUpTo step n c₁ :=
        manyUpTo_eq _ n c₁ le_rfl (hle.trans hn)
      dsimp only
      rcases hrest : manyUpTo step n c₁ with ⟨as, c₂⟩ | ⟨fault, c₂⟩
      · rw [bind_of_ok hrest]
        exact bind_of_ok (p := fun c => manyUpTo step c.remaining c) (hmore.trans hrest)
      · rw [bind_of_error hrest]
        exact bind_of_error (p := fun c => manyUpTo step c.remaining c) (hmore.trans hrest)
  · rw [bind_of_error hstep, bind_of_error hstep]

section Many

variable {c c₁ : Cursor}

/-- A repetition ends where a round answers nothing. -/
lemma many_of_none (h : step c = .ok none c₁) : many step c = .ok [] c₁ := by
  rw [many, bind_of_ok h]
  rfl

/-- A repetition is refused where a round is. -/
lemma many_of_error {fault : Fault} (h : step c = .error fault c₁) :
    many step c = .error fault c₁ :=
  bind_of_error h

/-- Behind a round that answers something, a repetition goes on as at its beginning: the bound on
its rounds cuts nothing short. -/
lemma many_of_some [hs : Rounds step] {a : α} (h : step c = .ok (some a) c₁) :
    many step c = (many step >>= fun rest => pure (a :: rest)) c₁ := by
  rw [many, bind_of_ok h]
  exact bind_at (p := fun c => manyUpTo step c.remaining c) _
    (many_eq_manyUpTo c₁.remaining c₁ le_rfl).symm

/-- A repetition that comes to its end ends as a round does that answers nothing.

**Proof sketch.** By strong induction on what remains.  A round without an answer ends the
repetition where it ended; a round with one leaves less remaining, and the rest of the repetition
ends as the induction hypothesis says. -/
lemma many_ends [hs : Rounds step] {P : Cursor → Prop}
    (hend : ∀ c c₁, step c = .ok none c₁ → P c₁) {as : List α} {c' : Cursor}
    (h : many step c = .ok as c') : P c' := by
  induction hn : c.remaining using Nat.strong_induction_on generalizing c as with
  | _ n ih =>
    subst hn
    rcases hround : step c with ⟨_ | a, c₁⟩ | ⟨fault, c₁⟩
    · rw [many_of_none hround] at h
      obtain ⟨-, rfl⟩ := EStateM.Result.ok.inj h
      exact hend c c₁ hround
    · rw [many_of_some hround] at h
      obtain ⟨rest, c₂, hrest, hpure⟩ := bind_eq_ok.1 h
      obtain ⟨-, rfl⟩ := EStateM.Result.ok.inj hpure
      exact ih c₁.remaining (hs.some_lt c a c₁ hround) hrest rfl
    · rw [many_of_error hround] at h
      cases h

end Many

/-- A round that splits nothing stays where it answers nothing. -/
lemma eq_of_answers {L : α → Language Token} {P : α → Prop} {c b : Cursor}
    (h : step.Ensures Eq c fun o ts _ => Ensures.Answers L P o ts) (hnone : step c = .ok none b) :
    b = c := by
  obtain ⟨ts, hread, hts⟩ := h.ok none b hnone
  obtain rfl : ts = [] := hts
  rcases b with ⟨past, ahead, closing, hclosing⟩
  rcases c with ⟨past', ahead', closing', hclosing'⟩
  obtain ⟨hpast, hahead, hcl⟩ := hread
  simp only [List.reverse_nil, List.nil_append] at hpast hahead hcl
  subst hpast hahead hcl
  rfl

/-- Every item behind a comma takes a token. -/
instance {item : Parser α} [hi : Lowers item] : Rounds (afterComma item) where
  some_lt c a b h := by
    obtain ⟨eaten, c₁, h₁, h₂⟩ := bind_eq_ok.1 h
    by_cases hc : c.peek.kind = .symbol .comma
    · obtain ⟨rfl, rfl⟩ := EStateM.Result.ok.inj ((eat_of_eq hc).symm.trans h₁)
      obtain ⟨a', c₂, h₃, h₄⟩ := bind_eq_ok.1 h₂
      obtain ⟨-, rfl⟩ := EStateM.Result.ok.inj h₄
      exact (hi.le _ a' c₂ h₃).trans_lt ((remaining_advance c).2 (by simp [hc]))
    · obtain ⟨rfl, rfl⟩ := EStateM.Result.ok.inj ((eat_of_ne hc).symm.trans h₁)
      cases h₂
  at_end c hc := by
    have hkind := Cursor.peek_kind_of_ahead_nil hc
    exact bind_eq_ok.2 ⟨false, c, eat_of_ne (by simp [hkind]), rfl⟩

end Rounds

/-! ## The judgement -/

/-- Where `p` succeeds at `c`, with no less than the floor ahead, `q` succeeds at `d`, the values
are related by `Q`, and so are the cursors behind them in the mode that `Q` tells.  Where the floor
is zero, the refusals of `p` are those that the simulation asks for. -/
structure Simulates (S : Simulation) (p : Parser α) (q : Parser β) (c d : Cursor)
    (Q : α → β → Mode → Prop) : Prop where
  ok : ∀ a c', p c = .ok a c' → S.floor ≤ c'.remaining →
    ∃ b d' τ, q d = .ok b d' ∧ Q a b τ ∧ S.Rel τ c' d'
  error : S.floor = 0 → ∀ fault c', p c = .error fault c' →
    S.Fails c' ∧ (S.total → ∃ other d' τ, q d = .error other d' ∧ S.Rel τ c' d')

namespace Simulates

variable {S : Simulation} {σ τ : Mode} {c d : Cursor} {kind : Kind}

section Basic

variable {p : Parser α} {q : Parser β} {f : α → Parser γ} {g : β → Parser δ}
  {P : α → β → Mode → Prop} {Q : γ → δ → Mode → Prop}

/-- Readings that are in step are so with weaker answers. -/
lemma imp {P' : α → β → Mode → Prop} (h : Simulates S p q c d P)
    (himp : ∀ a b τ, P a b τ → P' a b τ) : Simulates S p q c d P' where
  ok a c' hp hfloor := by
    obtain ⟨b, d', τ, hq, hP, hrel⟩ := h.ok a c' hp hfloor
    exact ⟨b, d', τ, hq, himp a b τ hP, hrel⟩
  error := h.error

/-- Answers are in step. -/
lemma pure {a : α} {b : β} (h : S.Rel σ c d) (hP : P a b σ) :
    Simulates S (pure a) (pure b) c d P where
  ok a' c' hp hfloor := by
    obtain ⟨rfl, rfl⟩ := EStateM.Result.ok.inj hp
    exact ⟨b, d, σ, rfl, hP, h⟩
  error _ _ _ hp := nomatch hp

/-- Two refusals at related cursors. -/
lemma refused {fault other : Fault} (h : S.Rel σ c d) (hp : p c = .error fault c)
    (hq : q d = .error other d) : Simulates S p q c d P where
  ok a c' hp' := by cases hp.symm.trans hp'
  error _ fault' c' hp' := by
    obtain ⟨-, rfl⟩ := EStateM.Result.error.inj (hp.symm.trans hp')
    exact ⟨S.fails h, fun _ => ⟨other, d, σ, hq, h⟩⟩

/-- Refusals of the token at the cursor are in step. -/
lemma unexpected {expected other : List String} (h : S.Rel σ c d) :
    Simulates S (unexpected expected) (unexpected other) c d P := refused h rfl rfl

/-- Where the right side is at the end of the input, the left side must not read on. -/
lemma ended (h : S.Ended c d) (hp : Strict p c) : Simulates S p q c d P where
  ok a c' hpa hfloor := by
    have := hp a c' hpa
    have := h.2.1
    omega
  error hfloor := by
    have := h.1
    omega

/-- Where the right side is at the end of the input, a round answers nothing on both sides. -/
lemma ended_round {step : Parser (Option α)} {step' : Parser (Option β)} [hs : Rounds step]
    [hs' : Rounds step'] {P : Option α → Option β → Mode → Prop} (h : S.Rel σ c d)
    (hended : S.Ended c d) (hstay : ∀ b, step c = .ok none b → b = c) (hP : P none none σ) :
    Simulates S step step' c d P where
  ok o c' hp hfloor := by
    rcases o with _ | a
    · obtain rfl := hstay c' hp
      exact ⟨none, d, σ, hs'.at_end d hended.2.2, hP, h⟩
    · have := hs.some_lt c a c' hp
      have := hended.2.1
      omega
  error hzero := by
    have := hended.1
    omega

/-- A reading of at least one token need not be looked at where the right side is at its end. -/
lemma of_strict (h : S.Rel σ c d) (hp : Strict p c)
    (hsame : S.Same c d → Simulates S p q c d P)
    (hapart : Simulation.Apart σ c d → Simulates S p q c d P) : Simulates S p q c d P := by
  rcases S.cases h with h' | h' | h'
  · exact hsame h'
  · exact hapart h'
  · exact ended h' hp

/-- A reading of at least one token that does not begin behind an operand. -/
lemma of_strict_of_isBehind (h : S.Rel σ c d) (hσ : σ.isBehind = false) (hp : Strict p c)
    (hsame : S.Same c d → Simulates S p q c d P) : Simulates S p q c d P :=
  of_strict h hp hsame fun hapart => by
    rw [hapart.1] at hσ
    cases hσ

/-- One parser behind another, on both sides.

**Proof sketch.** The floor of the right side is kept through the first parser because the second
one does not add to what remains.  A fault is one of the first parser, or one of the second behind
it. -/
lemma bind_of_lowers (hf : ∀ a, Lowers (f a)) (h : Simulates S p q c d P)
    (hfg : ∀ a b τ c₁ d₁, p c = .ok a c₁ → q d = .ok b d₁ → P a b τ → S.Rel τ c₁ d₁ →
      Simulates S (f a) (g b) c₁ d₁ Q) : Simulates S (p >>= f) (q >>= g) c d Q where
  ok a' c₂ h' hfloor := by
    obtain ⟨a, c₁, h₁, h₂⟩ := bind_eq_ok.1 h'
    obtain ⟨b, d₁, τ, hq, hP, hrel⟩ := h.ok a c₁ h₁ (hfloor.trans ((hf a).le c₁ a' c₂ h₂))
    obtain ⟨b', d₂, ρ, hg, hQ, hrel'⟩ := (hfg a b τ c₁ d₁ h₁ hq hP hrel).ok a' c₂ h₂ hfloor
    exact ⟨b', d₂, ρ, bind_eq_ok.2 ⟨b, d₁, hq, hg⟩, hQ, hrel'⟩
  error hzero fault c₂ h' := by
    rcases bind_eq_error.1 h' with h₁ | ⟨a, c₁, h₁, h₂⟩
    · refine ⟨(h.error hzero fault c₂ h₁).1, fun htotal => ?_⟩
      obtain ⟨other, d₂, τ, hq, hrel⟩ := (h.error hzero fault c₂ h₁).2 htotal
      exact ⟨other, d₂, τ, bind_eq_error.2 (.inl hq), hrel⟩
    · obtain ⟨b, d₁, τ, hq, hP, hrel⟩ := h.ok a c₁ h₁ (hzero ▸ Nat.zero_le _)
      have hrest := (hfg a b τ c₁ d₁ h₁ hq hP hrel).error hzero fault c₂ h₂
      refine ⟨hrest.1, fun htotal => ?_⟩
      obtain ⟨other, d₂, ρ, hg, hrel'⟩ := hrest.2 htotal
      exact ⟨other, d₂, ρ, bind_eq_error.2 (.inr ⟨b, d₁, hq, hg⟩), hrel'⟩

/-- One parser behind another, on both sides. -/
theorem bind [∀ a, Lowers (f a)] (h : Simulates S p q c d P)
    (hfg : ∀ a b τ c₁ d₁, p c = .ok a c₁ → q d = .ok b d₁ → P a b τ → S.Rel τ c₁ d₁ →
      Simulates S (f a) (g b) c₁ d₁ Q) : Simulates S (p >>= f) (q >>= g) c d Q :=
  bind_of_lowers (fun _ => inferInstance) h hfg

/-- What holds with bounds on what remains holds without them. -/
lemma of_under {n m : Nat} (h : Simulates (S.under n m) p q c d P) : Simulates S p q c d P where
  ok a c' hp hfloor := by
    obtain ⟨b, d', τ, hq, hP, hrel⟩ := h.ok a c' hp hfloor
    exact ⟨b, d', τ, hq, hP, hrel.1⟩
  error hzero fault c' hp := by
    refine ⟨(h.error hzero fault c' hp).1, fun htotal => ?_⟩
    obtain ⟨other, d', τ, hq, hrel⟩ := (h.error hzero fault c' hp).2 htotal
    exact ⟨other, d', τ, hq, hrel.1⟩

/-- Larger bounds are kept too. -/
lemma under_mono {n m n' m' : Nat} (hn : n ≤ n') (hm : m ≤ m')
    (h : Simulates (S.under n m) p q c d P) : Simulates (S.under n' m') p q c d P where
  ok a c' hp hfloor := by
    obtain ⟨b, d', τ, hq, hP, hrel, hc, hd⟩ := h.ok a c' hp hfloor
    exact ⟨b, d', τ, hq, hP, hrel, hc.trans hn, hd.trans hm⟩
  error hzero fault c' hp := by
    refine ⟨(h.error hzero fault c' hp).1, fun htotal => ?_⟩
    obtain ⟨other, d', τ, hq, hrel, hc, hd⟩ := (h.error hzero fault c' hp).2 htotal
    exact ⟨other, d', τ, hq, hrel, hc.trans hn, hd.trans hm⟩

end Basic

/-! ## Single tokens -/

section Single

variable {f : Token → Parser γ} {g : Token → Parser δ} {Q : γ → δ → Mode → Prop}

/-- What is simulated depends on the two runs only. -/
lemma congr {p p' : Parser α} {q q' : Parser β} {c' d' : Cursor} {P : α → β → Mode → Prop}
    (h : Simulates S p' q' c' d' P) (hp : p c = p' c') (hq : q d = q' d') :
    Simulates S p q c d P where
  ok a c₁ h₁ := hq ▸ h.ok a c₁ (hp ▸ h₁)
  error hzero fault c₁ h₁ := hq ▸ h.error hzero fault c₁ (hp ▸ h₁)

/-- Both sides look at the token at the cursor. -/
lemma peek_bind (h : Simulates S (f c.peek) (g d.peek) c d Q) :
    Simulates S (peek >>= f) (peek >>= g) c d Q := h.congr rfl rfl

/-- Both sides look at the kind of the token at the cursor. -/
lemma peekKind_bind {f : Kind → Parser γ} {g : Kind → Parser δ}
    (h : Simulates S (f c.peek.kind) (g d.peek.kind) c d Q) :
    Simulates S (peekKind >>= f) (peekKind >>= g) c d Q := h.congr rfl rfl

/-- Both sides move the cursor in the same way. -/
lemma modify_bind {k : Cursor → Cursor} {f : Unit → Parser γ} {g : Unit → Parser δ}
    (h : Simulates S (f ()) (g ()) (k c) (k d) Q) :
    Simulates S (modify k >>= f) (modify k >>= g) c d Q := h.congr rfl rfl

/-- Both sides check the kind of the token at the cursor. -/
lemma check_bind {f : Bool → Parser γ} {g : Bool → Parser δ}
    (h : Simulates S (f (c.peek.kind == kind)) (g (d.peek.kind == kind)) c d Q) :
    Simulates S (check kind >>= f) (check kind >>= g) c d Q := h.congr rfl rfl

/-- Both sides check the kind of a token ahead. -/
lemma checkAhead_bind {n : Nat} {f : Bool → Parser γ} {g : Bool → Parser δ}
    (h : Simulates S (f ((c.lookahead n).kind == kind)) (g ((d.lookahead n).kind == kind)) c d Q) :
    Simulates S (checkAhead n kind >>= f) (checkAhead n kind >>= g) c d Q := h.congr rfl rfl

/-- Both sides check the word at the cursor. -/
lemma checkWord_bind {word : String} {f : Bool → Parser γ} {g : Bool → Parser δ}
    (h : Simulates S (f (c.peek.kind == .ident && c.peek.lexeme == word))
      (g (d.peek.kind == .ident && d.peek.lexeme == word)) c d Q) :
    Simulates S (checkWord word >>= f) (checkWord word >>= g) c d Q := h.congr rfl rfl

/-- The span up to the token that was read last. -/
lemma spanFrom_bind {s s' : Span} {f : Span → Parser γ} {g : Span → Parser δ}
    (h : S.Rel σ c d) (hs : S.exact → s = s')
    (hf : ∀ t u, (S.exact → t = u) → Simulates S (f t) (g u) c d Q) :
    Simulates S (spanFrom s >>= f) (spanFrom s' >>= g) c d Q :=
  (hf (s.merge c.previousSpan) (s'.merge d.previousSpan) fun he => by
    rw [hs he, S.previous h he]).congr rfl rfl

/-- Both sides advance over the same token. -/
lemma advance_bind (h : S.Rel σ c d) (hsame : S.Same c d) (hc : c.peek.kind ≠ .eof)
    (hkeeps : σ.keeps c.peek.kind = true)
    (hf : S.Rel (σ.step c.peek.kind) c.advance d.advance →
      Simulates S (f c.peek) (g d.peek) c.advance d.advance Q) :
    Simulates S (advance >>= f) (advance >>= g) c d Q :=
  (hf (S.advance h hsame hc hkeeps)).congr rfl rfl

/-- Both sides expect a token that no split can take part in.

**Proof sketch.** By cases on whether the token stands at the left cursor.  With the same token at
both it stands at both or at neither.  With a token in pieces on one side, neither side has the one
that is expected, since no split takes part in it. -/
theorem expect_bind [∀ t, Lowers (f t)] (h : S.Rel σ c d) (hkind : kind ≠ .eof)
    (hclear : σ.clear kind = true)
    (hf : c.peek.kind = kind → S.Same c d → S.Rel (σ.step kind) c.advance d.advance →
      Simulates S (f c.peek) (g d.peek) c.advance d.advance Q) :
    Simulates S (expect kind >>= f) (expect kind >>= g) c d Q := by
  refine of_strict h (strict_expect hkind).bind (fun hsame => ?_) fun hapart => ?_
  · by_cases hc : c.peek.kind = kind
    · have hrel := S.advance h hsame (hc ▸ hkind) (hc ▸ Mode.keeps_of_clear hclear)
      rw [hc] at hrel
      refine (hf hc hsame hrel).congr ?_ ?_
      · exact bind_of_ok (expect_of_eq hc)
      · exact bind_of_ok (expect_of_eq (hsame.kind.symm.trans hc))
    · exact refused h (bind_of_error (expect_of_ne hc))
        (bind_of_error (expect_of_ne fun hd => hc (hsame.kind.trans hd)))
  · have hne {k : Kind} (hk : k.inSplit = true) : k ≠ kind := by
      rintro rfl
      simp [Mode.clear, hapart.1, hk] at hclear
    exact refused h (bind_of_error (expect_of_ne (hne hapart.2.1)))
      (bind_of_error (expect_of_ne (hne hapart.2.2)))

/-- Behind a token that both sides expect less remains. -/
lemma expect_bind_under {n m : Nat} [∀ t, Lowers (f t)] (h : (S.under (n + 1) (m + 1)).Rel σ c d)
    (hkind : kind ≠ .eof) (hclear : σ.clear kind = true)
    (hf : c.peek.kind = kind → S.Same c d → (S.under n m).Rel (σ.step kind) c.advance d.advance →
      Simulates (S.under n m) (f c.peek) (g d.peek) c.advance d.advance Q) :
    Simulates (S.under (n + 1) (m + 1)) (expect kind >>= f) (expect kind >>= g) c d Q := by
  refine expect_bind h hkind hclear fun hc hsame hrel => ?_
  have hn := (remaining_advance c).2 (hc ▸ hkind)
  have hm := (remaining_advance d).2 (hsame.kind ▸ hc ▸ hkind)
  have hc' := h.2.1
  have hd' := h.2.2
  exact (hf hc hsame ⟨hrel.1, by omega, by omega⟩).under_mono (Nat.le_succ n) (Nat.le_succ m)

/-- Both sides read a token that no split can take part in, if it stands there.

**Proof sketch.** At the same token both sides read it or leave it.  Tokens that a split tells apart
take part in splits, and the one looked for does not; and at the end of the right side the left side
would read a token that it must leave. -/
lemma eat_bind {f : Bool → Parser γ} {g : Bool → Parser δ} [Lowers (f true)] (h : S.Rel σ c d)
    (hkind : kind ≠ .eof) (hclear : σ.clear kind = true)
    (htrue : c.peek.kind = kind → S.Rel (σ.step kind) c.advance d.advance →
      Simulates S (f true) (g true) c.advance d.advance Q)
    (hfalse : c.peek.kind ≠ kind → d.peek.kind ≠ kind → Simulates S (f false) (g false) c d Q) :
    Simulates S (eat kind >>= f) (eat kind >>= g) c d Q := by
  have hno (hc : c.peek.kind ≠ kind) (hd : d.peek.kind ≠ kind) :
      Simulates S (eat kind >>= f) (eat kind >>= g) c d Q :=
    (hfalse hc hd).congr (bind_of_ok (eat_of_ne hc)) (bind_of_ok (eat_of_ne hd))
  rcases S.cases h with hsame | hapart | hended
  · by_cases hc : c.peek.kind = kind
    · have hrel := S.advance h hsame (hc ▸ hkind) (hc ▸ Mode.keeps_of_clear hclear)
      rw [hc] at hrel
      exact (htrue hc hrel).congr (bind_of_ok (eat_of_eq hc))
        (bind_of_ok (eat_of_eq (hsame.kind.symm.trans hc)))
    · exact hno hc fun hd => hc (hsame.kind.trans hd)
  · have hne {k : Kind} (hk : k.inSplit = true) : k ≠ kind := by
      rintro rfl
      simp [Mode.clear, hapart.1, hk] at hclear
    exact hno (hne hapart.2.1) (hne hapart.2.2)
  · by_cases hc : c.peek.kind = kind
    · refine ended hended fun a b hp => ?_
      rw [bind_of_ok (eat_of_eq hc)] at hp
      exact (Lowers.le _ _ _ hp).trans_lt ((remaining_advance c).2 (hc ▸ hkind))
    · exact hno hc (by rw [hended.kind]; exact hkind.symm)

/-- Both sides look whether a token of some kind stands at the cursor.

**Proof sketch.** At the same token the check is answered alike.  Tokens that a split tells apart
take part in splits, and the one looked for does not; and at the end of the right side what follows
would read a token that must be left. -/
lemma check_cases {f : Bool → Parser γ} {g : Bool → Parser δ} (h : S.Rel σ c d)
    (hkind : kind ≠ .eof) (hclear : σ.clear kind = true)
    (htrue : c.peek.kind = kind → S.Same c d → Simulates S (f true) (g true) c d Q)
    (hstrict : c.peek.kind = kind → Strict (f true) c)
    (hfalse : c.peek.kind ≠ kind → d.peek.kind ≠ kind → Simulates S (f false) (g false) c d Q) :
    Simulates S (check kind >>= f) (check kind >>= g) c d Q := by
  refine check_bind ?_
  have hbool {e : Cursor} (he : e.peek.kind ≠ kind) : (e.peek.kind == kind) = false :=
    beq_eq_false_iff_ne.2 he
  rcases S.cases h with hsame | hapart | hended
  · rw [← hsame.kind]
    by_cases hc : c.peek.kind = kind
    · rw [beq_iff_eq.2 hc]
      exact htrue hc hsame
    · rw [hbool hc]
      exact hfalse hc (hsame.kind ▸ hc)
  · have hne {k : Kind} (hk : k.inSplit = true) : k ≠ kind := by
      rintro rfl
      simp [Mode.clear, hapart.1, hk] at hclear
    rw [hbool (hne hapart.2.1), hbool (hne hapart.2.2)]
    exact hfalse (hne hapart.2.1) (hne hapart.2.2)
  · have hd : d.peek.kind ≠ kind := by
      rw [hended.kind]
      exact hkind.symm
    rw [hbool hd]
    by_cases hc : c.peek.kind = kind
    · rw [beq_iff_eq.2 hc]
      exact ended hended (hstrict hc)
    · rw [hbool hc]
      exact hfalse hc hd

/-- Both sides look for a word.

**Proof sketch.** At the same token the check is answered alike.  Names take part in no split, so
that at tokens that a split tells apart there is no word; and at the end of the right side what
follows would read a token that must be left. -/
lemma checkWord_cases {word : String} {f : Bool → Parser γ} {g : Bool → Parser δ}
    (h : S.Rel σ c d)
    (htrue : c.peek.kind = .ident → S.Same c d → Simulates S (f true) (g true) c d Q)
    (hstrict : c.peek.kind = .ident → Strict (f true) c)
    (hfalse : Simulates S (f false) (g false) c d Q) :
    Simulates S (checkWord word >>= f) (checkWord word >>= g) c d Q := by
  refine checkWord_bind ?_
  have hbool {e : Cursor} (he : e.peek.kind ≠ .ident) :
      (e.peek.kind == .ident && e.peek.lexeme == word) = false := by simp [he]
  rcases S.cases h with hsame | hapart | hended
  · rw [← hsame.kind, ← hsame.lexeme]
    rcases hc : c.peek.kind == .ident && c.peek.lexeme == word
    · exact hfalse
    · rw [Bool.and_eq_true, beq_iff_eq] at hc
      exact htrue hc.1 hsame
  · have hne {k : Kind} (hk : k.inSplit = true) : k ≠ .ident := by
      rintro rfl
      cases hk
    rw [hbool (hne hapart.2.1), hbool (hne hapart.2.2)]
    exact hfalse
  · have hd : d.peek.kind ≠ .ident := by
      rw [hended.kind]
      simp
    rw [hbool hd]
    rcases hc : c.peek.kind == .ident && c.peek.lexeme == word
    · exact hfalse
    · rw [Bool.and_eq_true, beq_iff_eq] at hc
      exact ended hended (hstrict hc.1)

/-- The token behind the one at the cursor. -/
lemma lookahead_one {c : Cursor} (h : c.peek.kind ≠ .eof) : c.lookahead 1 = c.advance.peek := by
  obtain ⟨ts, hts⟩ := Cursor.exists_ahead_of_peek h
  rw [Cursor.lookahead, Cursor.advance, hts]
  rfl

/-- Both sides look at the token behind the one that they both show.  Where the right side ends
behind it, the left side must not read two tokens.

**Proof sketch.** The token behind the one that both sides show is the one at the cursor behind
a step, so that the cases are those of the cursors there. -/
lemma checkAhead_cases {f : Bool → Parser γ} {g : Bool → Parser δ} (h : S.Rel σ c d)
    (hsame : S.Same c d) (hc : c.peek.kind ≠ .eof) (hkeeps : σ.keeps c.peek.kind = true)
    (hkind : kind ≠ .eof) (hclear : (σ.step c.peek.kind).clear kind = true)
    (htrue : c.advance.peek.kind = kind → d.advance.peek.kind = kind →
      Simulates S (f true) (g true) c d Q)
    (hstrict : c.advance.peek.kind = kind →
      ∀ a b, f true c = .ok a b → b.remaining < c.advance.remaining)
    (hfalse : c.advance.peek.kind ≠ kind → d.advance.peek.kind ≠ kind →
      Simulates S (f false) (g false) c d Q) :
    Simulates S (checkAhead 1 kind >>= f) (checkAhead 1 kind >>= g) c d Q := by
  have hrel := S.advance h hsame hc hkeeps
  refine checkAhead_bind ?_
  rw [lookahead_one hc, lookahead_one (hsame.kind ▸ hc)]
  have hbool {e : Cursor} (he : e.peek.kind ≠ kind) : (e.peek.kind == kind) = false :=
    beq_eq_false_iff_ne.2 he
  rcases S.cases hrel with hnext | hapart | hended
  · rw [← hnext.kind]
    by_cases hk : c.advance.peek.kind = kind
    · rw [beq_iff_eq.2 hk]
      exact htrue hk (hnext.kind ▸ hk)
    · rw [hbool hk]
      exact hfalse hk (hnext.kind ▸ hk)
  · have hne {k : Kind} (hk : k.inSplit = true) : k ≠ kind := by
      rintro rfl
      simp [Mode.clear, hapart.1, hk] at hclear
    rw [hbool (hne hapart.2.1), hbool (hne hapart.2.2)]
    exact hfalse (hne hapart.2.1) (hne hapart.2.2)
  · have hd : d.advance.peek.kind ≠ kind := by
      rw [hended.kind]
      exact hkind.symm
    rw [hbool hd]
    by_cases hk : c.advance.peek.kind = kind
    · rw [beq_iff_eq.2 hk]
      refine ⟨fun a b hp hfloor => ?_, fun hzero => absurd hended.1 (by omega)⟩
      have := hstrict hk a b hp
      have := hended.2.1
      omega
    · rw [hbool hk]
      exact hfalse hk hd

end Single

end Simulates

end Parser

end RakeLang
