import Mathlib.Data.List.Induction
import Mathlib.Logic.Relation
import RakeLang.Cursor
import RakeLang.Proofs.Spelling.Placed

/-!
# What a reading does to a cursor

A reading moves the cursor over the tokens that it reads.  The tokens that it met may have been
split meanwhile, those that it read and those that it left ahead; nothing else happens to them.
The relation between the tokens ahead before and after is a parameter here: it is equality for a
reading that splits nothing.

## Main definitions

* `RakeLang.Token.SplitsTo` — a list of tokens falls into another one by splits.
* `RakeLang.Token.Rewriting` — what the relation between the tokens ahead has to satisfy.
* `RakeLang.Cursor.Reads` — the cursor behind a reading, with the tokens that were read.

## Main results

* `RakeLang.Token.SplitsTo.countPieces_eq` — splits change the number of tokens, but not the number
  of pieces.
* `RakeLang.Cursor.Reads.trans` — one reading behind another.
* `RakeLang.Cursor.Reads.remaining` — a reading lowers what remains by what it reads.
* `RakeLang.Cursor.Reads.seek` — the cursor that goes back to where a reading began.
-/

set_option relaxedAutoImplicit false
set_option autoImplicit false

namespace RakeLang

/-! ## Splits -/

namespace Token

/-- One split: a signed number falls into a minus sign and a number, or a left arrow into a
less-than sign and a minus sign, which an adjacent number takes as its own. -/
inductive SplitStep : List Token → List Token → Prop
  | sign {t minus number : Token} (before after : List Token)
      (h : t.splitSign? = some (minus, number)) :
      SplitStep (before ++ t :: after) (before ++ minus :: number :: after)
  | arrow (before : List Token) {after split : List Token} (h : splitArrow? after = some split) :
      SplitStep (before ++ after) (before ++ split)

/-- Splits turn the first list of tokens into the second one. -/
def SplitsTo : List Token → List Token → Prop := Relation.ReflTransGen SplitStep

/-- A relation between lists of tokens that a reading can compose, and that keeps the number of
pieces. -/
class Rewriting (R : List Token → List Token → Prop) : Prop where
  refl (ts : List Token) : R ts ts
  trans {ts us vs : List Token} : R ts us → R us vs → R ts vs
  cons (t : Token) {ts us : List Token} : R ts us → R (t :: ts) (t :: us)
  countPieces_eq {ts us : List Token} : R ts us → countPieces us = countPieces ts

/-- Equality is a rewriting: nothing is split. -/
instance : Rewriting Eq where
  refl _ := rfl
  trans := Eq.trans
  cons _ := congrArg _
  countPieces_eq h := by rw [h]

/-- A split behind a token is a split. -/
lemma SplitStep.cons (t : Token) {ts us : List Token} (h : SplitStep ts us) :
    SplitStep (t :: ts) (t :: us) := by
  cases h with
  | sign before after h => exact .sign (t :: before) after h
  | arrow before h => exact .arrow (t :: before) h

/-- A relation that a reading can compose leaves the tokens in front alone. -/
lemma Rewriting.append {R : List Token → List Token → Prop} [Rewriting R] (before : List Token)
    {ts us : List Token} (h : R ts us) : R (before ++ ts) (before ++ us) := by
  induction before with
  | nil => exact h
  | cons t before ih => exact Rewriting.cons t ih

/-- A signed number falls into a minus sign and the number without its sign. -/
lemma eq_of_splitSign? {t minus number : Token} (h : t.splitSign? = some (minus, number)) :
    t.isSignedNumber = true ∧ minus = minusAt t.span.firstByte ∧ number = t.withoutSign := by
  unfold splitSign? at h
  split_ifs at h with hsigned
  obtain ⟨rfl, rfl⟩ := Prod.mk.inj (Option.some.inj h)
  exact ⟨hsigned, rfl, rfl⟩

/-- A left arrow falls into a less-than sign and the number behind it with a minus sign in front,
or into a less-than sign and a minus sign. -/
lemma cases_of_splitArrow? {ts us : List Token} (h : splitArrow? ts = some us) :
    ∃ arrow rest, ts = arrow :: rest ∧ arrow.kind = .symbol .leftArrow
      ∧ ((∃ next more, rest = next :: more ∧ joinsArrow arrow next = true
          ∧ us = lessAt arrow.span.firstByte :: joined arrow next :: more)
        ∨ us = lessAt arrow.span.firstByte :: minusAt arrow.span.afterFirstByte :: rest) := by
  rcases ts with _ | ⟨arrow, rest⟩
  · simp [splitArrow?] at h
  simp only [splitArrow?] at h
  split_ifs at h with harrow
  refine ⟨arrow, rest, rfl, harrow, ?_⟩
  rcases rest with _ | ⟨next, more⟩
  · exact .inr (Option.some.inj h).symm
  simp only at h
  split_ifs at h with hjoins
  · exact .inl ⟨next, more, rfl, hjoins, (Option.some.inj h).symm⟩
  · exact .inr (Option.some.inj h).symm

/-- A signed number has one piece more than the number without its sign. -/
lemma pieces_of_splitSign? {t minus number : Token} (h : t.splitSign? = some (minus, number)) :
    minus.pieces + number.pieces = t.pieces := by
  obtain ⟨hsigned, rfl, rfl⟩ := eq_of_splitSign? h
  simp only [isSignedNumber, hasSign, Bool.and_eq_true, beq_iff_eq,
    List.head?_eq_some_iff] at hsigned
  obtain ⟨hkind, cs, hcs⟩ := hsigned
  rcases t with ⟨kind, lexeme, span⟩
  cases kind <;> simp [Kind.isNumber] at hkind
  all_goals
    simp only [pieces, minusAt, withoutSign] at hcs ⊢
    simp [hcs]
    omega

/-- Joining a number without a sign and a minus sign gives the number one more piece. -/
lemma pieces_joined {arrow next : Token} (h : joinsArrow arrow next = true) :
    (joined arrow next).pieces = next.pieces + 1 := by
  simp only [joinsArrow, Bool.and_eq_true] at h
  obtain ⟨⟨hk, -⟩, -⟩ := h
  rcases next with ⟨kind, lexeme, span⟩
  cases kind <;> simp [Kind.isNumber] at hk
  all_goals simp [pieces, joined]

/-- The pieces of the tokens that a left arrow falls into. -/
lemma countPieces_of_splitArrow? {ts us : List Token} (h : splitArrow? ts = some us) :
    countPieces us = countPieces ts := by
  obtain ⟨arrow, rest, rfl, harrow, hcases⟩ := cases_of_splitArrow? h
  have hpieces : arrow.pieces = 2 := by simp [pieces, harrow]
  obtain ⟨next, more, rfl, hjoins, rfl⟩ | rfl := hcases
  · have hjoined := pieces_joined hjoins
    simp only [countPieces_cons, hpieces]
    simp only [pieces, lessAt] at hjoined ⊢
    omega
  · simp only [countPieces_cons, hpieces]
    simp only [pieces, lessAt, minusAt]
    omega

/-- Splits do not change the number of pieces. -/
theorem SplitsTo.countPieces_eq {ts us : List Token} (h : SplitsTo ts us) :
    countPieces us = countPieces ts := by
  induction h with
  | refl => rfl
  | tail _ hstep ih =>
    rw [← ih]
    cases hstep with
    | sign before after h =>
      have hp := pieces_of_splitSign? h
      simp only [countPieces_append, countPieces_cons]
      omega
    | arrow before h =>
      have hp := countPieces_of_splitArrow? h
      simp only [countPieces_append]
      omega

/-- Splits are a rewriting: they keep the number of pieces, and split tokens can be split again. -/
instance : Rewriting SplitsTo where
  refl _ := .refl
  trans := .trans
  cons t _ _ h := Relation.ReflTransGen.lift (t :: ·) (fun _ _ => SplitStep.cons t) _ _ h
  countPieces_eq := SplitsTo.countPieces_eq

end Token

/-! ## Readings -/

namespace Cursor

open Token

/-- The cursor `c'` stands behind the tokens `read`, which were read from the cursor `c` on; the
tokens ahead of `c` have been rewritten as `R` tells. -/
structure Reads (R : List Token → List Token → Prop) (c : Cursor) (read : List Token)
    (c' : Cursor) : Prop where
  past : c'.past = read.reverse ++ c.past
  ahead : R c.ahead (read ++ c'.ahead)
  closing : c'.closing = c.closing

section Reads

variable {R : List Token → List Token → Prop} [Rewriting R] {c c₁ c₂ : Cursor}
  {ts us : List Token}

/-- To stay is to read nothing. -/
lemma Reads.refl (c : Cursor) : c.Reads R [] c := ⟨rfl, Rewriting.refl _, rfl⟩

/-- What is read by one reading behind another stands one behind the other. -/
theorem Reads.trans (h : c.Reads R ts c₁) (h' : c₁.Reads R us c₂) : c.Reads R (ts ++ us) c₂ where
  past := by rw [h'.past, h.past, List.reverse_append, List.append_assoc]
  ahead := by
    rw [List.append_assoc]
    exact Rewriting.trans h.ahead (Rewriting.append ts h'.ahead)
  closing := h'.closing.trans h.closing

omit [Rewriting R] in
/-- The tokens that were read are those by which there are more behind the cursor. -/
lemma Reads.unique (h : c.Reads R ts c₁) (h' : c.Reads R us c₁) : ts = us := by
  have hpast := h.past.symm.trans h'.past
  exact List.reverse_injective (List.append_cancel_right hpast)

/-- A reading that splits nothing is a reading. -/
lemma Reads.of_eq (h : c.Reads Eq ts c₁) : c.Reads R ts c₁ :=
  ⟨h.past, h.ahead ▸ Rewriting.refl _, h.closing⟩

end Reads

/-! ## Single tokens -/

/-- Where the token at the cursor does not end the input, it is the first one ahead. -/
lemma exists_ahead_of_peek {c : Cursor} (h : c.peek.kind ≠ .eof) :
    ∃ ts, c.ahead = c.peek :: ts := by
  rcases hc : c.ahead with _ | ⟨t, ts⟩
  · simp [peek, hc, c.closing_kind] at h
  · exact ⟨ts, by simp [peek, hc]⟩

/-- Behind the last token there is only the end of the input. -/
lemma peek_kind_of_ahead_nil {c : Cursor} (h : c.ahead = []) : c.peek.kind = .eof := by
  simp [peek, h, c.closing_kind]

/-- The kind of the token at the cursor is that of the first token ahead. -/
lemma peek_kind (c : Cursor) : c.peek.kind = Spelling.headKind c.ahead := by
  rcases c with ⟨past, _ | ⟨t, ts⟩, closing, h⟩
  · exact h
  · rfl

/-- To advance is to read the token at the cursor. -/
lemma reads_advance {R : List Token → List Token → Prop} [Rewriting R] {c : Cursor}
    (h : c.peek.kind ≠ .eof) : c.Reads R [c.peek] c.advance := by
  obtain ⟨ts, hts⟩ := exists_ahead_of_peek h
  refine Reads.of_eq ⟨?_, ?_, ?_⟩
  all_goals simp [advance, hts]

/-- The token at the cursor is one of its tokens. -/
lemma peek_mem_tokens (c : Cursor) : c.peek ∈ c.tokens := by
  rcases hc : c.ahead with _ | ⟨t, ts⟩ <;> simp [tokens, peek, hc]

/-- The token that was read last, or the one at the cursor if none was read, is one of its
tokens. -/
lemma headD_past_mem_tokens (c : Cursor) : c.past.headD c.peek ∈ c.tokens := by
  rcases hc : c.past with _ | ⟨t, ts⟩
  · exact c.peek_mem_tokens
  · simp [tokens, hc]

/-- A token that was read is one of the tokens of the cursor behind it. -/
lemma mem_tokens_advance {c : Cursor} (h : c.peek.kind ≠ .eof) : c.peek ∈ c.advance.tokens := by
  obtain ⟨ts, hts⟩ := exists_ahead_of_peek h
  simp [advance, hts, tokens]

/-- Behind a reading that read something, the token that was read last is its last one. -/
lemma Reads.previousSpan {R : List Token → List Token → Prop} {c c' : Cursor}
    {read : List Token} (h : c.Reads R read c') {last : Token} (hlast : last ∈ read.getLast?) :
    c'.previousSpan = last.span := by
  obtain ⟨ts, rfl⟩ := List.getLast?_eq_some_iff.1 hlast
  simp [Cursor.previousSpan, h.past]

/-- The span from the first token of a reading to the one that was read last covers what was
read. -/
lemma Reads.covers {R : List Token → List Token → Prop} {c c' : Cursor} {t : Token}
    {ts : List Token} (h : c.Reads R (t :: ts) c') (hin : InOrder (t :: ts)) :
    (t.span.merge c'.previousSpan).Covers (t :: ts) := by
  obtain ⟨last, hlast⟩ : ∃ last, last ∈ (t :: ts).getLast? :=
    ⟨_, List.getLast?_eq_some_getLast (List.cons_ne_nil t ts)⟩
  rw [h.previousSpan hlast]
  rcases ts with _ | ⟨u, us⟩
  · obtain rfl : t = last := by simpa using hlast
    exact ⟨t, rfl, t, rfl, by simp [Span.merge]⟩
  · have hlast' : last ∈ (u :: us).getLast? := by simpa using hlast
    exact (Span.covers_singleton t).merge hin hlast' ⟨last, List.mem_of_getLast? hlast', rfl⟩ rfl

/-! ## What remains -/

/-- A reading lowers what remains by the pieces of the tokens that it reads. -/
theorem Reads.remaining {R : List Token → List Token → Prop} [Rewriting R] {c c' : Cursor}
    {read : List Token} (h : c.Reads R read c') :
    c.remaining = countPieces read + c'.remaining := by
  have hcount := Rewriting.countPieces_eq h.ahead
  rw [countPieces_append] at hcount
  exact hcount.symm

/-- A list of tokens has at least as many pieces as tokens. -/
lemma length_le_countPieces (ts : List Token) : ts.length ≤ countPieces ts := by
  induction ts with
  | nil => simp
  | cons t ts ih =>
    have := one_le_pieces t
    simp only [List.length_cons, countPieces_cons]
    omega

/-- There are at least as many pieces ahead as tokens. -/
lemma length_ahead_le_remaining (c : Cursor) : c.ahead.length ≤ c.remaining :=
  length_le_countPieces c.ahead

/-- A reading that reads a token lowers what remains. -/
lemma Reads.remaining_lt {R : List Token → List Token → Prop} [Rewriting R] {c c' : Cursor}
    {read : List Token} (h : c.Reads R read c') (hread : read ≠ []) :
    c'.remaining < c.remaining := by
  have hpos := List.length_pos_iff.2 hread
  have hlen := length_le_countPieces read
  have hrem := h.remaining
  omega

/-- Where nothing remains no token is ahead. -/
lemma ahead_eq_nil_of_remaining {c : Cursor} (h : c.remaining = 0) : c.ahead = [] := by
  have := c.length_ahead_le_remaining
  exact List.length_eq_zero_iff.1 (by omega)

/-! ## Going back -/

/-- Going back as many steps as tokens were read puts these tokens ahead again. -/
lemma repeat_retreat (read : List Token) :
    ∀ (past ahead : List Token) (closing : Token) (h : closing.kind = .eof),
      Nat.repeat retreat read.length ⟨read ++ past, ahead, closing, h⟩
        = ⟨past, read.reverse ++ ahead, closing, h⟩ := by
  induction read using List.reverseRecOn with
  | nil => intro past ahead closing h; rfl
  | append_singleton read t ih =>
    intro past ahead closing h
    have ih' := ih (t :: past) ahead closing h
    rw [List.length_append, List.length_singleton, Nat.repeat]
    rw [List.append_assoc, List.singleton_append, ih']
    simp [retreat]

/-- The cursor that goes back from the end of a reading stands where the reading began, before
the tokens that were read and the tokens that were left. -/
theorem Reads.seek {R : List Token → List Token → Prop} {c c' : Cursor} {read : List Token}
    (h : c.Reads R read c') :
    c'.seek c.position = { c with ahead := read ++ c'.ahead } := by
  rcases c with ⟨past, ahead, closing, hclosing⟩
  rcases c' with ⟨past', ahead', closing', hclosing'⟩
  obtain ⟨hpast, -, hcl⟩ := h
  simp only at hpast hcl
  subst hpast hcl
  have hback := repeat_retreat read.reverse past ahead' closing' hclosing
  simp only [Cursor.seek, position, List.length_append, List.length_reverse]
  rw [if_pos (by omega), show read.length + past.length - past.length = read.reverse.length by simp,
    hback, List.reverse_reverse]

/-! ## Splitting -/

/-- The tokens ahead, where a signed number at their head is split. -/
lemma splitsTo_of_splitSign? {c c' : Cursor} (h : c.splitSign? = some c') :
    c.Reads SplitsTo [] c' := by
  unfold splitSign? at h
  rcases hc : c.ahead with _ | ⟨t, ts⟩
  · simp [hc] at h
  · simp only [hc, Option.map_eq_some_iff] at h
    obtain ⟨⟨minus, number⟩, hsplit, rfl⟩ := h
    exact ⟨rfl, hc ▸ Relation.ReflTransGen.single (.sign [] ts hsplit), rfl⟩

/-- The tokens ahead, where a left arrow at their head is split. -/
lemma splitsTo_of_splitArrow? {c c' : Cursor} (h : c.splitArrow? = some c') :
    c.Reads SplitsTo [] c' := by
  simp only [splitArrow?, Option.map_eq_some_iff] at h
  obtain ⟨ahead, hsplit, rfl⟩ := h
  exact ⟨rfl, Relation.ReflTransGen.single (.arrow [] hsplit), rfl⟩

/-- To split the token behind an operand reads nothing. -/
lemma reads_splitInfix (c : Cursor) : c.Reads SplitsTo [] c.splitInfix := by
  unfold splitInfix
  rcases hs : c.splitSign? with _ | c'
  · rcases ha : c.splitArrow? with _ | c'
    · exact .refl c
    · exact splitsTo_of_splitArrow? ha
  · exact splitsTo_of_splitSign? hs

/-- A token that is neither a signed number nor a left arrow is not split. -/
lemma splitInfix_of_peek {c : Cursor} (hsign : c.peek.isSignedNumber = false)
    (harrow : c.peek.kind ≠ .symbol .leftArrow) : c.splitInfix = c := by
  rcases c with ⟨past, _ | ⟨t, ts⟩, closing, hclosing⟩
  · rfl
  · have hs : t.splitSign? = none := by
      rw [Token.splitSign?, if_neg (by simpa [peek] using hsign)]
    have ha : Token.splitArrow? (t :: ts) = none := by
      rw [Token.splitArrow?, if_neg (by simpa [peek] using harrow)]
    simp [splitInfix, splitSign?, splitArrow?, hs, ha]

/-- Behind a split the cursor stands at the sign that it gave. -/
lemma peek_splitInfix (c : Cursor) :
    c.splitInfix = c ∨ c.splitInfix.peek.kind = .symbol .minus
      ∨ c.splitInfix.peek.kind = .symbol .less := by
  rcases c with ⟨past, _ | ⟨t, ts⟩, closing, hclosing⟩
  · exact .inl rfl
  · rcases hs : t.splitSign? with _ | ⟨minus, number⟩
    · rcases ha : Token.splitArrow? (t :: ts) with _ | us
      · exact .inl (by simp [splitInfix, splitSign?, splitArrow?, hs, ha])
      · obtain ⟨arrow, rest, -, -, ⟨next, more, -, -, rfl⟩ | rfl⟩ := cases_of_splitArrow? ha
        all_goals simp [splitInfix, splitSign?, splitArrow?, hs, ha, peek, lessAt]
    · obtain ⟨-, rfl, -⟩ := eq_of_splitSign? hs
      simp [splitInfix, splitSign?, hs, peek, minusAt]

/-- Behind a sign or an arrow that was split nothing is left to split. -/
lemma splitInfix_splitInfix (c : Cursor) : c.splitInfix.splitInfix = c.splitInfix := by
  rcases c.peek_splitInfix with h | h | h
  · rw [h, h]
  all_goals exact splitInfix_of_peek (by simp [isSignedNumber, Kind.isNumber, h]) (by simp [h])

end Cursor

end RakeLang
