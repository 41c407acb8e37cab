import RakeLang.Proofs.Settling.Simulation

/-!
# Cursors that settle to the same tokens

Two cursors before which the same tokens stand, once these are settled, are read in step: what one
side has split already the other side splits before it matters.  What was read from a first cursor
on is settled too, and so the tokens ahead of the first cursor settle to what was read and what is
still ahead.

## Main definitions

* `RakeLang.Settles` — the relation, with the mode and the cursor where the reading began.
* `RakeLang.settling` — the simulation that it is.

## Main results

* `RakeLang.Settles.seek` — a cursor that goes back to where the reading began, before
  tokens that have been split meanwhile, settles to the same tokens as before.
-/

set_option relaxedAutoImplicit false
set_option autoImplicit false

namespace RakeLang

open Token

/-- The cursors stand behind the same tokens, which were read from the cursor `start` on, and the
tokens ahead of them settle to the same. -/
structure Settles (first : Mode) (start : Cursor) (σ : Mode) (c d : Cursor) : Prop where
  past : c.past = d.past
  closing : c.closing = d.closing
  ahead : settle σ c.ahead = settle σ d.ahead
  /-- Something stands before what is behind an operand. -/
  begun : σ.isBehind = true → c.past ≠ []
  run : ∃ read, c.past = read.reverse ++ start.past ∧ Through first read σ
    ∧ settle first start.ahead = read ++ settle σ c.ahead

open Cursor

namespace Settles

variable {first σ : Mode} {start c d : Cursor}

/-- At the beginning nothing was read. -/
lemma refl (hfirst : first.isBehind = false) (start : Cursor) :
    Settles first start first start start :=
  ⟨rfl, rfl, rfl, fun h => by simp [hfirst] at h, [], rfl, .nil first, rfl⟩

/-- The heads of the tokens ahead, once they are split as the mode asks for it. -/
lemma split_ahead (h : Settles first start σ c d) :
    c.ahead = [] ∧ d.ahead = [] ∨ ∃ t ts us, σ.split c.ahead = t :: ts
      ∧ σ.split d.ahead = t :: us ∧ settle (σ.step t.kind) ts = settle (σ.step t.kind) us := by
  have hahead := h.ahead
  rcases hc : σ.split c.ahead with _ | ⟨t, ts⟩
  · rw [Mode.split_eq_nil] at hc
    rw [hc, settle_nil] at hahead
    exact .inl ⟨hc, settle_eq_nil.1 hahead.symm⟩
  · rcases hd : σ.split d.ahead with _ | ⟨u, us⟩
    · rw [Mode.split_eq_nil.1 hd, settle_nil, settle_of_split hc] at hahead
      cases hahead
    · rw [settle_of_split hc, settle_of_split hd] at hahead
      obtain ⟨rfl, htail⟩ := List.cons.inj hahead
      exact .inr ⟨t, ts, us, rfl, rfl, htail⟩

/-- Where nothing can be split at the cursors, they show the same token. -/
lemma peek_eq (h : Settles first start σ c d) (hc : σ.split c.ahead = c.ahead)
    (hd : σ.split d.ahead = d.ahead) : c.peek = d.peek := by
  rcases h.split_ahead with ⟨hc', hd'⟩ | ⟨t, ts, us, hc', hd', -⟩
  · simp [peek, hc', hd', h.closing]
  · rw [hc] at hc'
    rw [hd] at hd'
    simp [peek, hc', hd']

/-- The tokens at the cursors are the same, or a split can tell them apart.

**Proof sketch.** Where no split is looked for, the tokens have settled at their heads.  Behind an
operand they are the same once the first one is split; if it is another one then, it was split, and
both it and its first piece take part in splits. -/
lemma peek_cases (h : Settles first start σ c d) :
    c.peek = d.peek ∨ σ.isBehind = true ∧ c.peek.kind.inSplit = true
      ∧ d.peek.kind.inSplit = true := by
  rcases hσ : σ.isBehind
  · exact .inl (h.peek_eq (σ.split_of_isBehind hσ _) (σ.split_of_isBehind hσ _))
  · obtain ⟨depth, rfl⟩ : ∃ depth, σ = .behind depth := by
      cases σ <;> first | exact ⟨_, rfl⟩ | cases hσ
    rcases h.split_ahead with ⟨hc, hd⟩ | ⟨t, ts, us, hc, hd, -⟩
    · exact .inl (h.peek_eq (by simp [hc]) (by simp [hd]))
    · have hin {e : Cursor} {vs : List Token} (he : splitHead e.ahead = t :: vs) :
          e.peek = t ∨ e.peek.kind.inSplit = true ∧ t.kind.inSplit = true := by
        rcases hahead : e.ahead with _ | ⟨u, ws⟩
        · rw [hahead, splitHead_nil] at he
          cases he
        · have hpeek : e.peek = u := by simp [peek, hahead]
          rw [hahead] at he
          rcases inSplit_of_splitHead he with ⟨rfl, -⟩ | ⟨hu, ht, -⟩
          · exact .inl hpeek
          · rw [hpeek]
            exact .inr ⟨Kind.inSplit_of_splits hu, ht⟩
      rcases hin hc with hc' | ⟨hc', ht⟩ <;> rcases hin hd with hd' | ⟨hd', ht'⟩
      · exact .inl (hc'.trans hd'.symm)
      · exact .inr ⟨rfl, hc' ▸ ht', hd'⟩
      · exact .inr ⟨rfl, hc', hd' ▸ ht⟩
      · exact .inr ⟨rfl, hc', hd'⟩

/-- Both cursors advance over the same token.

**Proof sketch.** Neither token is split in this mode, so both cursors advance over the same token,
and what is settled ahead loses its first token on both sides.  The token joins those that were
passed since `start`. -/
lemma advance (h : Settles first start σ c d) (hsame : c.peek.kind = d.peek.kind)
    (hc : c.peek.kind ≠ .eof) (hkeeps : σ.keeps c.peek.kind = true) :
    Settles first start (σ.step c.peek.kind) c.advance d.advance := by
  obtain ⟨ts, hts⟩ := exists_ahead_of_peek hc
  obtain ⟨us, hus⟩ := exists_ahead_of_peek (hsame ▸ hc)
  have hpeek : c.peek = d.peek := h.peek_eq (by rw [hts]; exact σ.split_of_keeps hkeeps ts)
    (by rw [hus]; exact σ.split_of_keeps (hsame ▸ hkeeps) us)
  have hahead := h.ahead
  rw [hts, hus, settle_cons hkeeps, settle_cons (hsame ▸ hkeeps), ← hpeek] at hahead
  obtain ⟨read, hpast, hthrough, hrun⟩ := h.run
  refine ⟨?_, ?_, ?_, ?_, read ++ [c.peek], ?_, hthrough.trans (.singleton hkeeps), ?_⟩
  · simp [Cursor.advance, hts, hus, h.past, hpeek]
  · simp [Cursor.advance, hts, hus, h.closing]
  · simpa [Cursor.advance, hts, hus] using hahead
  · simp [Cursor.advance, hts]
  · simp [Cursor.advance, hts, hpast]
  · rw [hrun, hts, settle_cons hkeeps]
    simp [Cursor.advance, hts]

/-- Both cursors split the token behind an operand. -/
lemma splitInfix {depth : Nat} (h : Settles first start (.behind depth) c d) :
    Settles first start (.behind depth) c.splitInfix d.splitInfix := by
  have hsplit (ts : List Token) :
      settle (.behind depth) (splitHead ts) = settle (.behind depth) ts :=
    settle_split (.behind depth) ts
  obtain ⟨read, hpast, hthrough, hrun⟩ := h.run
  refine ⟨?_, ?_, ?_, ?_, read, ?_, hthrough, ?_⟩
  · simpa using h.past
  · simpa using h.closing
  · simpa [hsplit] using h.ahead
  · simpa using h.begun
  · simpa using hpast
  · simpa [hsplit] using hrun

/-- The cursor that goes back to where the reading began stands before tokens that settle to the
same as those that stood there then. -/
theorem seek (h : Settles first start σ c d) {read : List Token}
    (hread : start.Reads SplitsTo read c) :
    (c.seek start.position).past = start.past ∧ (c.seek start.position).closing = start.closing
      ∧ settle first (c.seek start.position).ahead = settle first start.ahead := by
  obtain ⟨ts, hpast, hthrough, hrun⟩ := h.run
  obtain rfl : read = ts := by
    have := hread.past.symm.trans hpast
    exact List.reverse_injective (List.append_cancel_right this)
  rw [hread.seek]
  exact ⟨rfl, rfl, (hthrough c.ahead).trans hrun.symm⟩

/-- One reading behind another. -/
lemma trans {τ : Mode} {c' d' : Cursor} (h : Settles first start σ c d)
    (h' : Settles σ c τ c' d') : Settles first start τ c' d' := by
  obtain ⟨read, hpast, hthrough, hrun⟩ := h.run
  obtain ⟨read', hpast', hthrough', hrun'⟩ := h'.run
  refine ⟨h'.past, h'.closing, h'.ahead, h'.begun, read ++ read', ?_, hthrough.trans hthrough', ?_⟩
  · rw [hpast', hpast, List.reverse_append, List.append_assoc]
  · rw [hrun, hrun', List.append_assoc]

/-- Tokens ahead can be exchanged for others that settle to the same. -/
lemma exchange {c' d' : Cursor} (h : Settles first start σ c d)
    (hc : c'.past = c.past ∧ c'.closing = c.closing ∧ settle σ c'.ahead = settle σ c.ahead)
    (hd : d'.past = d.past ∧ d'.closing = d.closing ∧ settle σ d'.ahead = settle σ d.ahead) :
    Settles first start σ c' d' := by
  obtain ⟨read, hpast, hthrough, hrun⟩ := h.run
  refine ⟨?_, ?_, ?_, fun hσ => hc.1 ▸ h.begun hσ, read, hc.1.trans hpast, hthrough, ?_⟩
  · rw [hc.1, hd.1, h.past]
  · rw [hc.2.1, hd.2.1, h.closing]
  · rw [hc.2.2, hd.2.2, h.ahead]
  · rw [hrun, hc.2.2]

/-- From related cursors on, nothing was read yet. -/
lemma here (h : Settles first start σ c d) : Settles σ c σ c d :=
  ⟨h.past, h.closing, h.ahead, h.begun, [], rfl, .nil σ, rfl⟩

end Settles

/-- The simulation between cursors that settle to the same tokens. -/
def settling (first : Mode) (start : Cursor) : Simulation where
  exact := True
  total := True
  floor := 0
  Fails _ := True
  Rel := Settles first start
  heads h := by
    rcases h.peek_cases with heq | hapart
    · exact .inl ⟨by rw [heq], by rw [heq], fun _ => by rw [heq]⟩
    · exact .inr (.inl hapart)
  advance h hsame hc hkeeps := h.advance hsame.kind hc hkeeps
  split {depth c d} h := by
    refine ⟨h.splitInfix, .inl ?_⟩
    have hpeek : c.splitInfix.peek = d.splitInfix.peek := h.splitInfix.peek_eq
      (by simp [Mode.split, splitHead_splitHead]) (by simp [Mode.split, splitHead_splitHead])
    exact ⟨by rw [hpeek], by rw [hpeek], fun _ => by rw [hpeek]⟩
  previous {σ c d} h _ := by
    rcases hpast : c.past with _ | ⟨t, ts⟩
    · have hσ : σ.isBehind = false := by
        rcases hσ : σ.isBehind
        · rfl
        · exact absurd hpast (h.begun hσ)
      have hpeek := h.peek_eq (σ.split_of_isBehind hσ _) (σ.split_of_isBehind hσ _)
      simp [Cursor.previousSpan, ← h.past, hpast, hpeek]
    · simp [Cursor.previousSpan, ← h.past, hpast]
  fails _ := trivial

/-- Neither of two cursors that settle to the same tokens is at its end before the other one. -/
lemma settling_cases {first σ : Mode} {start c d : Cursor}
    (h : (settling first start).Rel σ c d) :
    (settling first start).Same c d ∨ Simulation.Apart σ c d := by
  rcases (settling first start).cases h with hsame | hapart | hended
  · exact .inl hsame
  · exact .inr hapart
  · exact absurd hended.1 (Nat.lt_irrefl 0)

end RakeLang
