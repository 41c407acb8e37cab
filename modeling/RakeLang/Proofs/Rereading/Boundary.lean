import RakeLang.Proofs.Placing.SourceFile
import RakeLang.Proofs.Rereading.Relexing

/-!
# Parts of settled tokens

Tokens that are settled from one mode on are taken apart: what settles to a part of them is a part
of the tokens, or the second piece of one of them with what follows.  A part that begins before an
operand has no operand right in front of it, neither among the tokens nor among those that they
settle to, so that the text of the part has the tokens of the part.

## Main definitions

* `RakeLang.Mode.after` — the mode behind some tokens.
* `RakeLang.Token.Lies` — a part of what some tokens settle to.

## Main results

* `RakeLang.exists_settle_prefix` — what settles to an initial part.
* `RakeLang.exists_settle_suffix` — what settles to a final part.
* `RakeLang.lies_of_settle` — what settles to a part between a place before an operand and one
  behind it.
* `RakeLang.Token.Lies.exists_tokenize` — the tokens of the text of such a part settle to the part.
-/

set_option relaxedAutoImplicit false
set_option autoImplicit false

namespace RakeLang

open Token Spelling

/-! ## The mode behind some tokens -/

namespace Mode

/-- The mode behind the tokens `ts`. -/
def after (σ : Mode) (ts : List Token) : Mode := ts.foldl (fun σ t => σ.step t.kind) σ

/-- Behind no tokens the mode is the same. -/
@[simp] lemma after_nil (σ : Mode) : σ.after [] = σ := rfl

/-- Behind a token and others. -/
@[simp] lemma after_cons (σ : Mode) (t : Token) (ts : List Token) :
    σ.after (t :: ts) = (σ.step t.kind).after ts := rfl

/-- The mode behind tokens is found part by part. -/
lemma after_append (σ : Mode) (ts us : List Token) :
    σ.after (ts ++ us) = (σ.after ts).after us := List.foldl_append

/-- A token behind which an operand is due ends none. -/
lemma endsOperand_of_turn {kind : Kind} {n depth : Nat} (h : turn n kind = operand depth) :
    kind.endsOperand = false := by
  cases kind with
  | symbol s =>
    cases s with
    | rParen => rcases n with _ | n <;> cases h
    | _ => simp_all [turn, Kind.opensDefinition, Kind.endsOperand]
  | keyword k => cases k <;> simp_all [turn, Kind.opensDefinition, Kind.endsOperand]
  | _ => simp_all [turn, Kind.opensDefinition, Kind.endsOperand]

/-- No token that can end an operand leads before one.

**Proof sketch.** By cases on the mode.  A step to the mode before an operand is a turn of the modes
around operands, which only tokens that end no operand make, or the arrow behind parameters. -/
lemma endsOperand_of_step {σ : Mode} {kind : Kind} {depth : Nat}
    (h : σ.step kind = operand depth) : kind.endsOperand = false := by
  unfold step at h
  split at h
  · cases h
  · cases h
  · exact endsOperand_of_turn h
  · exact endsOperand_of_turn h
  · cases h
  · split at h <;> cases h
  · unfold paramsStep at h
    split at h
    · cases h
    · cases h
    · rfl
    · cases h
    · cases h
    · split at h <;> cases h
    · split at h <;> cases h
  · cases h

/-- Behind the first piece of a token an operand begins. -/
lemma step_of_halves {ts more : List Token} {first second : Token}
    (h : Halves ts first second more) (depth : Nat) :
    (behind depth).step first.kind = operand depth := by
  rcases h.first_kind with hkind | hkind <;> rw [hkind] <;> rfl

end Mode

/-! ## Splits in the middle of others -/

namespace Token

section Splits

variable {ts us more : List Token} {first second : Token}

/-- What falls into halves is split. -/
lemma Halves.splitStep (h : Halves ts first second more) (before : List Token) :
    SplitStep (before ++ ts) (before ++ first :: second :: more) := by
  cases h with
  | sign _ h => exact .sign before more (by simp [splitSign?, h])
  | joined _ h hjoins => exact .arrow before (by simp [splitArrow?, h, hjoins])
  | arrow _ h hjoins =>
    refine .arrow before ?_
    rcases more with _ | ⟨next, more⟩
    · simp [splitArrow?, h]
    · simp [splitArrow?, h, hjoins next rfl]

/-- A split is of one token, which falls into halves, with other tokens in front and behind. -/
lemma SplitStep.exists_halves (h : SplitStep ts us) :
    ∃ outer rest first second more, ts = outer ++ rest ∧ Halves rest first second more
      ∧ us = outer ++ ([first, second] ++ more) := by
  cases h with
  | sign before after h =>
    obtain ⟨hsigned, rfl, rfl⟩ := eq_of_splitSign? h
    exact ⟨before, _, _, _, after, rfl, .sign after hsigned, rfl⟩
  | @arrow before rest split h =>
    obtain ⟨arrow, rest, rfl, harrow, -⟩ := cases_of_splitArrow? h
    have hsplit : splitHead (arrow :: rest) = split := by
      simp [splitHead, splitSign?, isSignedNumber, harrow, Kind.isNumber, h]
    rcases splitHead_eq_or_halves (arrow :: rest) with hstays | ⟨first, second, more, hhalves⟩
    · exact absurd harrow (hstays arrow rfl).2
    · exact ⟨before, _, first, second, more, rfl, hhalves,
        by rw [← hsplit, hhalves.splitHead_eq]; rfl⟩

/-- Some of faithful tokens are faithful. -/
lemma Faithful.sublist {source : List Char} (h : Faithful source ts) (hus : us.Sublist ts) :
    Faithful source us :=
  ⟨fun t ht => h.standsIn t (hus.subset ht), fun t ht => h.isLexed t (hus.subset ht),
    h.ordered.sublist hus⟩

/-- Splits do not move the end of the last token.

**Proof sketch.** By induction on the splits.  A split in front of other tokens leaves the last one
as it is.  A split of the last token ends where that token ended; if the arrow takes the number
behind it, the joined number ends where the number did, since the two touch. -/
lemma stop_splitsTo {source : List Char} (hts : Faithful source ts) (h : SplitsTo ts us) :
    (us.getLast?.map fun t => t.span.stop) = ts.getLast?.map fun t => t.span.stop := by
  induction h with
  | refl => rfl
  | @tail vs ws hsplits hstep ih =>
    rw [← ih]
    have hin := (hts.splitsTo hsplits).inOrder
    obtain ⟨outer, rest, first, second, more, rfl, hhalves, rfl⟩ := hstep.exists_halves
    rcases eq_or_ne more [] with rfl | hmore
    · cases hhalves with
      | sign | arrow => simp [withoutSign, minusAt, Span.afterFirstByte]
      | @joined t next _ harrow hjoins =>
        have htouch : next.span.start = t.span.stop := by
          simp only [joinsArrow, Bool.and_eq_true, beq_iff_eq] at hjoins
          exact hjoins.1.2
        have hnext := hin.start_le_stop next (by simp)
        simp [joined, Span.merge, Span.afterFirstByte]
        omega
    · obtain ⟨taken, -, rfl, -⟩ := hhalves.exists_append
      simp only [List.getLast?_append_of_ne_nil _ (List.append_ne_nil_of_right_ne_nil _ hmore),
        List.getLast?_append_of_ne_nil _ hmore]

end Splits

end Token

/-! ## Settling a token after the other -/

section Settle

variable {σ : Mode} {t : Token} {ts us before after : List Token}

/-- The first token is settled as it is, or it is in two pieces, which are settled then.

**Proof sketch.** Only in the mode behind an operand is anything split.  There the first token is in
two pieces or it is not, by `splitHead_eq_or_halves`, and what the pieces are depends on no other
token than those that they are taken from. -/
lemma settle_cases (σ : Mode) (t : Token) (ts : List Token) :
    (∀ us, settle σ (t :: us) = t :: settle (σ.step t.kind) us)
      ∨ ∃ depth first second more, σ = .behind depth ∧ Halves (t :: ts) first second more
        ∧ ∀ us more', Halves us first second more' → settle σ us
          = first :: second :: settle ((Mode.operand depth).step second.kind) more' := by
  by_cases hσ : σ.isBehind = false
  · exact .inl fun us => settle_of_split (σ.split_of_isBehind hσ _)
  obtain ⟨depth, rfl⟩ : ∃ depth, σ = .behind depth := by
    cases σ with
    | behind depth => exact ⟨depth, rfl⟩
    | _ => exact absurd rfl hσ
  rcases splitHead_eq_or_halves (t :: ts) with hstays | ⟨first, second, more, hhalves⟩
  · exact .inl fun us => settle_of_split (splitHead_cons (hstays t rfl) us)
  · refine .inr ⟨depth, first, second, more, rfl, hhalves, fun us more' h => ?_⟩
    rw [settle_of_split (show (Mode.behind depth).split us = _ from h.splitHead_eq),
      Mode.step_of_halves h, settle_of_split (Mode.split_of_isBehind rfl _)]

/-- **What settles to an initial part** whose end is no place before an operand: the part has tokens
of its own, whatever follows them.

**Proof sketch.** Induction on the length of the part.  The end of the part is not between two
  pieces of a token, since the place between them is before an operand.  Nor is it behind an arrow
  that a number could join: so is the place behind the minus sign of an arrow. -/
theorem exists_settle_prefix (n : Nat) :
    ∀ {σ : Mode} {ts before after : List Token}, before.length ≤ n →
      settle σ ts = before ++ after → (∀ depth, σ.after before ≠ .operand depth) →
      ∃ part rest, ts = part ++ rest
        ∧ ∀ us, settle σ (part ++ us) = before ++ settle (σ.after before) us := by
  induction n using Nat.strong_induction_on with
  | h n ih =>
    intro σ ts before after hn h hends
    rcases before with _ | ⟨b, before⟩
    · exact ⟨[], ts, rfl, fun _ => rfl⟩
    rcases ts with _ | ⟨t, ts⟩
    · simp at h
    rw [List.length_cons] at hn
    rcases settle_cases σ t ts with hstays | ⟨depth, first, second, more, rfl, hhalves, hsettle⟩
    · rw [hstays, List.cons_append, List.cons.injEq] at h
      obtain ⟨rfl, h⟩ := h
      obtain ⟨part, rest, rfl, hpart⟩ := ih before.length (by omega) le_rfl h hends
      refine ⟨t :: part, rest, rfl, fun us => ?_⟩
      rw [List.cons_append, hstays, hpart]
      rfl
    · rw [hsettle _ _ hhalves, List.cons_append, List.cons.injEq] at h
      obtain ⟨rfl, h⟩ := h
      rw [Mode.after_cons, Mode.step_of_halves hhalves] at hends
      rcases before with _ | ⟨b, before⟩
      · exact absurd rfl (hends depth)
      rw [List.cons_append, List.cons.injEq] at h
      obtain ⟨rfl, h⟩ := h
      rw [List.length_cons] at hn
      obtain ⟨part, rest, rfl, hpart⟩ := ih before.length (by omega) le_rfl h hends
      obtain ⟨taken, -, htaken, -, hreplace⟩ := hhalves.exists_append
      refine ⟨taken ++ part, rest, by rw [htaken, List.append_assoc], fun us => ?_⟩
      rw [List.append_assoc, hsettle _ _ (hreplace (part ++ us) fun hminus => ?_), hpart,
        Mode.after_cons, Mode.step_of_halves hhalves]
      · rfl
      · -- Behind the minus sign of an arrow an operand begins, so that the part goes on.
        rcases part with _ | ⟨u, part⟩
        · have hnil := hpart []
          rw [List.append_nil, settle_nil, settle_nil, List.append_nil] at hnil
          rw [← hnil, Mode.after_cons, hminus] at hends
          exact absurd rfl (hends depth)
        · exact fun next hnext => hnext

/-- **What settles to a final part**: a final part of the tokens, or the second piece of one of them
and what follows.  A final part that begins before an operand has no operand right in front of it.

**Proof sketch.** Induction on the length of what is in front.  In front of the place behind two
pieces is a number, which leads behind an operand, or an arrow. -/
theorem exists_settle_suffix (n : Nat) :
    ∀ {σ : Mode} {ts before after : List Token}, before.length ≤ n →
      settle σ ts = before ++ after →
      ∃ passed rest, ts = passed ++ rest
        ∧ ((settle (σ.after before) rest = after ∧ (passed = [] → before = [])
            ∧ ((∃ depth, σ.after before = .operand depth) →
              ∀ p ∈ passed.getLast?, p.kind.endsOperand = false))
          ∨ ∃ depth first second more, Halves rest first second more
            ∧ σ.after before = .operand depth
            ∧ settle (.operand depth) (second :: more) = after) := by
  induction n using Nat.strong_induction_on with
  | h n ih =>
    intro σ ts before after hn h
    rcases before with _ | ⟨b, before⟩
    · exact ⟨[], ts, rfl, .inl ⟨h, fun _ => rfl, by simp⟩⟩
    rcases ts with _ | ⟨t, ts⟩
    · simp at h
    rw [List.length_cons] at hn
    rcases settle_cases σ t ts with hstays | ⟨depth, first, second, more, rfl, hhalves, hsettle⟩
    · rw [hstays, List.cons_append, List.cons.injEq] at h
      obtain ⟨rfl, h⟩ := h
      obtain ⟨passed, rest, rfl, hcases⟩ := ih before.length (by omega) le_rfl h
      refine ⟨t :: passed, rest, rfl, hcases.imp_left fun ⟨hrest, hnil, hlast⟩ => ?_⟩
      refine ⟨hrest, by simp, fun hoperand p hp => ?_⟩
      rcases passed with _ | ⟨u, passed⟩
      · obtain rfl := Option.mem_some_iff.1 hp
        obtain rfl := hnil rfl
        exact Mode.endsOperand_of_step hoperand.choose_spec
      · exact hlast hoperand p (by rwa [List.getLast?_cons_cons] at hp)
    · -- the first token falls into two pieces, and the cut may lie between them
      have hmode := Mode.step_of_halves hhalves depth
      rw [hsettle _ _ hhalves, List.cons_append, List.cons.injEq] at h
      obtain ⟨rfl, h⟩ := h
      rcases before with _ | ⟨b, before⟩
      · refine ⟨[], _, rfl, .inr ⟨depth, first, second, more, hhalves, hmode, ?_⟩⟩
        rw [settle_of_split (Mode.split_of_isBehind rfl _)]
        exact h
      rw [List.cons_append, List.cons.injEq] at h
      obtain ⟨rfl, h⟩ := h
      rw [List.length_cons] at hn
      obtain ⟨passed, rest, rfl, hcases⟩ := ih before.length (by omega) le_rfl h
      obtain ⟨taken, hne, htaken, harrow, -⟩ := hhalves.exists_append
      rw [Mode.after_cons, hmode, Mode.after_cons]
      refine ⟨taken ++ passed, rest, by rw [htaken, List.append_assoc],
        hcases.imp_left fun ⟨hrest, hnil, hlast⟩ => ?_⟩
      refine ⟨hrest, by simp [hne], fun hoperand p hp => ?_⟩
      rcases passed with _ | ⟨u, passed⟩
      · obtain rfl := hnil rfl
        have hminus := hhalves.second_eq_minus (Mode.endsOperand_of_step hoperand.choose_spec)
        rw [List.append_nil] at hp
        rw [harrow hminus p (List.mem_of_mem_getLast? hp)]
        rfl
      · rw [List.getLast?_append_of_ne_nil _ (by simp)] at hp
        exact hlast hoperand p hp

/-- To settle tokens is to split some of them.

**Proof sketch.** By strong induction on the number of tokens.  The first token stays, and the rest
is settled; or it falls into two pieces, which is a split, and what is settled behind them has fewer
tokens. -/
lemma splitsTo_settle (n : Nat) :
    ∀ {σ : Mode} {ts : List Token}, ts.length ≤ n → SplitsTo ts (settle σ ts) := by
  induction n using Nat.strong_induction_on with
  | h n ih =>
    intro σ ts hn
    rcases ts with _ | ⟨t, ts⟩
    · rw [settle_nil]
      exact .refl
    rw [List.length_cons] at hn
    rcases settle_cases σ t ts with hstays | ⟨depth, first, second, more, rfl, hhalves, hsettle⟩
    · rw [hstays]
      exact Rewriting.cons (R := SplitsTo) t (ih ts.length (by omega) le_rfl)
    · obtain ⟨taken, hne, htaken, -⟩ := hhalves.exists_append
      have hlength := congrArg List.length htaken
      have hpos := List.length_pos_iff.2 hne
      rw [List.length_cons, List.length_append] at hlength
      rw [hsettle _ _ hhalves]
      exact .head (hhalves.splitStep []) (Rewriting.append (R := SplitsTo) [first, second]
        (ih more.length (by omega) le_rfl))

/-- The first token before an operand, and inside of brackets, is settled as it is. -/
lemma head_settle {σ : Mode} (hσ : σ.isBehind = false) (ts : List Token) :
    (settle σ ts).head? = ts.head? := by
  rcases ts with _ | ⟨t, ts⟩
  · simp
  · rw [settle_of_split (σ.split_of_isBehind hσ _)]
    rfl

end Settle

/-! ## Parts -/

/-- The tokens `part` are what a part of the tokens `ts` settles to that begins before an operand,
inside of `depth` parentheses.  The part begins with one of the tokens `ts`, and then no token that
can end an operand stands in front of a minus sign; or it begins with the second piece of one. -/
inductive Token.Lies (ts : List Token) (depth : Nat) (part : List Token) : Prop
  | whole (before raw after : List Token) (heq : ts = before ++ (raw ++ after))
      (hsettle : settle (.operand depth) raw = part)
      (hminus : headKind raw = .symbol .minus →
        ∀ p ∈ before.getLast?, p.kind.endsOperand = false)
  | piece (before rest more after : List Token) (first second : Token) (heq : ts = before ++ rest)
      (hhalves : Halves rest first second (more ++ after))
      (hsettle : settle (.operand depth) (second :: more) = part)

section Lies

variable {source : String} {k depth d : Nat} {t eof : Token}
  {ts us outer rest before part after : List Token}

/-- **A part between a place before an operand and one behind it** is settled alone as it is settled
among others.

**Proof sketch.** The part ends where some of the tokens do, as they settle to the tokens up to
  there whatever follows.  Of these tokens the last ones settle to the part, or the second piece of
  one does with what follows. -/
theorem lies_of_settle (hts : ts = outer ++ rest)
    (hminus : headKind rest = .symbol .minus → ∀ p ∈ outer.getLast?, p.kind.endsOperand = false)
    (h : settle (.operand d) rest = before ++ (part ++ after))
    (hbefore : (Mode.operand d).after before = .operand depth)
    (hpart : (Mode.operand depth).after part = .behind depth) : Lies ts depth part := by
  have hends (ρ : Nat) : (Mode.operand depth).after part ≠ .operand ρ := by simp [hpart]
  obtain ⟨passed, rest, rfl, hcases⟩ := exists_settle_suffix _ le_rfl h
  rw [hbefore] at hcases
  rcases hcases with ⟨hsettle, hnil, hlast⟩ | ⟨ρ, first, second, more, hhalves, hρ, hsettle⟩
  · obtain ⟨raw, rest, rfl, hraw⟩ := exists_settle_prefix _ le_rfl hsettle hends
    have hraw : settle (.operand depth) raw = part := by simpa using hraw []
    refine .whole (outer ++ passed) raw rest (by simp [hts]) hraw fun hkind p hp => ?_
    rcases passed with _ | ⟨u, passed⟩
    · refine hminus ?_ p (by simpa using hp)
      rw [List.nil_append, headKind_append, hkind]
      rintro rfl
      cases hkind
    · rw [List.getLast?_append_of_ne_nil _ (by simp)] at hp
      exact hlast ⟨depth, rfl⟩ p hp
  · obtain rfl : depth = ρ := Mode.operand.inj hρ
    obtain ⟨raw, rest', heq, hraw⟩ := exists_settle_prefix _ le_rfl hsettle hends
    have hraw : settle (.operand depth) raw = part := by simpa using hraw []
    rcases raw with _ | ⟨u, raw⟩
    · rw [settle_nil] at hraw
      subst hraw
      cases hpart
    · rw [List.cons_append, List.cons.injEq] at heq
      obtain ⟨rfl, rfl⟩ := heq
      exact .piece (outer ++ passed) rest raw rest' first second (by simp [hts]) hhalves hraw

/-- Where no split is looked for, settling leaves the first token. -/
lemma headKind_settle {σ : Mode} (hσ : σ.isBehind = false) (ts : List Token) :
    headKind (settle σ ts) = headKind ts := by
  have hhead := head_settle hσ ts
  revert hhead
  rcases settle σ ts with _ | ⟨t, us⟩ <;> rcases ts with _ | ⟨u, ts⟩ <;> simp_all

/-- A part of what faithful tokens settle to is faithful. -/
lemma Token.Lies.faithful {text : List Char} (h : Lies ts depth part)
    (hts : Faithful text ts) : Faithful text part := by
  rcases h with ⟨before, raw, after, rfl, rfl, -⟩
    | ⟨before, rest, more, after, first, second, rfl, hhalves, rfl⟩
  · exact (hts.sublist ((List.sublist_append_left raw after).trans
      (List.sublist_append_right before _))).splitsTo (splitsTo_settle _ le_rfl)
  · exact ((hts.splitStep (hhalves.splitStep before)).sublist
      (((List.sublist_append_left (second :: more) after).trans
        (List.sublist_cons_self first _)).trans (List.sublist_append_right before _))).splitsTo
      (splitsTo_settle _ le_rfl)

/-- **The text of a part** has tokens that settle to the part, but for a shift.

**Proof sketch.** The part begins with a token of the source or with the second piece of one, and
ends with a token of it.  The text between is lexed again: the first token is the one of the part,
since no operand stands in front of it, and the others are those of the source, which settle as they
did. -/
theorem Token.Lies.exists_tokenize (h : Lies ts depth part)
    (hsource : tokenize source = .ok (ts ++ [eof])) (hts : Faithful source.toList ts) {s : Span}
    (hs : s.Covers part)
    (hopens : ∀ t us, part = t :: us → t.kind = .symbol .minus →
      (headKind us).opensExpression = true) :
    ∃ k us eof, tokenize (s.slice source) = .ok (us ++ [eof]) ∧ eof.kind = .eof
      ∧ List.Forall₂ (Shifted k) part (settle (.operand depth) us) := by
  obtain ⟨first, hfirst, last, hlast, hspan⟩ := hs
  have hend (raw : List Token) (hin : Faithful source.toList raw)
      (hraw : settle (.operand depth) raw = part) :
      ∀ t ∈ raw.getLast?, s.stop = t.span.stop := by
    intro t ht
    have hstop := stop_splitsTo hin (splitsTo_settle (σ := .operand depth) _ le_rfl)
    rw [hraw, Option.mem_def.1 hlast, Option.mem_def.1 ht, Option.map_some, Option.map_some,
      Option.some.injEq] at hstop
    rw [hspan]
    exact hstop
  rcases h with ⟨before, raw, after, rfl, hsettle, hminus⟩
    | ⟨before, rest, more, after, first', second, rfl, hhalves, hsettle⟩
  · -- the part begins with a token of the text
    have hhead := head_settle (σ := .operand depth) rfl raw
    rw [hsettle, Option.mem_def.1 hfirst] at hhead
    rcases raw with _ | ⟨t, raw⟩
    · cases hhead
    obtain rfl := Option.some.inj hhead
    have hraw : Faithful source.toList (first :: raw) := hts.sublist
      ((List.sublist_append_left _ after).trans (List.sublist_append_right before _))
    obtain ⟨k, us, eof', hread, heof, hshifted⟩ := tokenize_slice (s := s) hsource hminus
      (by rw [hspan]) (hend _ hraw hsettle)
    exact ⟨k, us, eof', hread, heof, hsettle ▸ settle_shifted _ _ rfl hshifted⟩
  · -- the part begins with the second piece of a token
    have hpart : part = second :: settle ((Mode.operand depth).step second.kind) more := by
      rw [← hsettle, settle_of_split (Mode.split_of_isBehind rfl _)]
    obtain rfl : second = first := by
      rw [hpart] at hfirst
      exact Option.some.inj hfirst
    have hin : Faithful source.toList (second :: more) :=
      (hts.splitStep (hhalves.splitStep before)).sublist (((List.sublist_append_left _ after).trans
        (List.sublist_cons_self first' _)).trans (List.sublist_append_right before _))
    have hmore : second.kind = .symbol .minus →
        (headKind (more ++ after)).opensExpression = true := by
      intro hminus
      have hmore := hopens _ _ hpart hminus
      rw [hminus, headKind_settle (by rfl)] at hmore
      have hne : more ≠ [] := by
        rintro rfl
        cases hmore
      rwa [headKind_append hne]
    obtain ⟨k, us, eof', hread, heof, hshifted⟩ := tokenize_slice_of_halves (s := s) hsource hhalves
      hmore (by rw [hspan]) (hend _ hin hsettle)
    exact ⟨k, us, eof', hread, heof, hsettle ▸ settle_shifted _ _ rfl hshifted⟩

end Lies

end RakeLang
