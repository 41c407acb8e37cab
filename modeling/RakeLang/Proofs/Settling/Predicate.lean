import RakeLang.Proofs.Reading.Predicate
import RakeLang.Proofs.Settling.Expression
import RakeLang.Proofs.Settling.Settled

/-!
# Failed trials leave no trace

At a parenthesis a comparison is tried, and if it is refused the cursor goes back, but the tokens
that were split on the way stay split.  A reader that tries the comparison on a copy and reads the
group from the tokens as they were reads the same predicates.  For all that the comparison splits
stands behind operands, and the tokens settle to the same before and after it.

## Main definitions

* `RakeLang.Parser.orElseAfresh` — the ordered choice with a copy for the first attempt.
* `RakeLang.Parser.predicateAfresh` — the reader of predicates with this choice.

## Main results

* `RakeLang.Parser.predicate_simulates` — both readers of predicates are in step.
* `RakeLang.Parser.predicate_settles` — both readers succeed at the same cursors, with the same
  predicate, and leave tokens ahead that settle to the same.
-/

set_option relaxedAutoImplicit false
set_option autoImplicit false

namespace RakeLang

open Token Spelling

/-- A token that is a comparison leads from behind an operand to before one, and it cannot be
split. -/
lemma Mode.step_compareOp {kind : Kind} {op : CompareOp}
    (h : kind.compareOp? = some op) (depth : Nat) :
    (behind depth).step kind = operand depth ∧ (behind depth).keeps kind = true := by
  unfold Kind.compareOp? at h
  split at h <;> first | exact ⟨rfl, rfl⟩ | cases h

namespace Parser

/-! ## The reader with a copy -/

/-- Reads with `first` on a copy of the cursor and, if that is refused, with `second` at the cursor
as it was. -/
def orElseAfresh {α : Type} (first second : Parser α) : Parser α := fun c =>
  match first c with
  | .ok a behind => .ok a behind
  | .error fault _ =>
    match second c with
    | .ok a behind => .ok a behind
    | .error other behind => .error (fault.furthest other) behind

/-- Reads an atom, with a copy for the attempt at a comparison. -/
def predicateAtomAfresh (inner : Parser Predicate) : Parser Predicate := do
  match ← peekKind with
  | .tineRef =>
    let tine ← tineRef
    return .tineTest tine
  | .symbol .lParen => orElseAfresh comparison (group inner)
  | _ => comparison

/-- Reads an atom and the negations in front of it, with copies for the attempts. -/
def negationAfresh (inner : Parser Predicate) : Parser Predicate :=
  prefixed notOperator? (predicateAtomAfresh inner) applyNot

/-- Reads negations with "and" between them, with copies for the attempts. -/
def conjunctionAfresh (inner : Parser Predicate) : Parser Predicate :=
  leftAssoc andOperator? (negationAfresh inner) applyAnd

/-- Reads a predicate whose groups hold what `inner` reads, with copies for the attempts. -/
def predicateAfreshWith (inner : Parser Predicate) : Parser Predicate :=
  leftAssoc orOperator? (conjunctionAfresh inner) applyOr

/-- Reads a predicate with at most `n` tokens ahead, with copies for the attempts. -/
def predicateAfreshUpTo : Nat → Parser Predicate
  | 0 => unexpected ["expression"]
  | n + 1 => predicateAfreshWith (predicateAfreshUpTo n)

/-- Reads a predicate, with copies for the attempts. -/
def predicateAfresh : Parser Predicate := fun c => predicateAfreshUpTo c.remaining c

/-! ## Comparisons -/

section Comparison

variable {S : Simulation} {c d : Cursor} {depth : Nat}

/-- Behind an operand of a comparison an arrow is all that can be left to split. -/
lemma splitArrow_eq (h : c.Beyond Level.arithmetic) : splitArrow c = c.splitInfix := by
  unfold splitArrow Cursor.splitInfix
  rcases hsign : c.splitSign? with _ | c'
  · rfl
  · have hminus : c.splitInfix.peek.kind = .symbol .minus := by
      rw [Cursor.splitInfix, hsign]
      rcases c with ⟨past, _ | ⟨t, ts⟩, closing, hclosing⟩
      · simp [Cursor.splitSign?] at hsign
      · simp only [Cursor.splitSign?, Option.map_eq_some_iff] at hsign
        obtain ⟨⟨minus, number⟩, hsplit, rfl⟩ := hsign
        obtain ⟨-, rfl, -⟩ := eq_of_splitSign? hsplit
        rfl
    exact absurd (by decide) (h .sub (by rw [hminus]; rfl))

/-- Reads a comparison sign or the words of one behind an operand whose token was split. -/
def splitCompareOperator? : Parser (Option CompareOp) := do
  match ← peekKind with
  | .keyword .is =>
    let _ ← advance
    if ← eat (.keyword .not) then return some .isNot else return some .is
  | kind =>
    match kind.compareOp? with
    | none => return none
    | some op =>
      let _ ← advance
      return some op

/-- Behind an operand of arithmetic, the look for a comparison splits the token as the look for an
operator does. -/
lemma compareOperator?_eq (h : c.Beyond Level.arithmetic) :
    compareOperator? c = splitCompareOperator? c.splitInfix := by
  rw [← splitArrow_eq h]
  rfl

/-- What the look for a comparison leads to. -/
def CompareInStep (depth : Nat) (o o' : Option CompareOp) (τ : Mode) : Prop :=
  o = o' ∧ (o = none → τ = .behind depth) ∧ (o ≠ none → τ = .operand depth)

/-- Operators of comparisons are read in step behind operands of arithmetic.

**Proof sketch.** Both sides split the token as behind an operand, so that it is the same behind the
split; the word `not` behind the word `is` takes part in no split. -/
lemma compareOperator?_simulates (h : S.Rel (.behind depth) c d)
    (hc : c.Beyond Level.arithmetic) (hd : d.Beyond Level.arithmetic) :
    Simulates S compareOperator? compareOperator? c d (CompareInStep depth) := by
  obtain ⟨hrel, hsame | hended⟩ := S.split h
  · refine Simulates.congr ?_ (compareOperator?_eq hc) (compareOperator?_eq hd)
    unfold splitCompareOperator?
    refine .peekKind_bind ?_
    rw [← hsame.kind]
    split
    · rename_i hk
      refine .advance_bind hrel hsame (by simp [hk]) (by rw [hk]; rfl) fun hrel => ?_
      rw [hk] at hrel
      exact .eat_bind hrel (by simp) rfl (fun _ hrel => .pure hrel ⟨rfl, by simp, fun _ => rfl⟩)
        fun _ _ => .pure hrel ⟨rfl, by simp, fun _ => rfl⟩
    · split
      · exact .pure hrel ⟨rfl, fun _ => rfl, fun hne => absurd rfl hne⟩
      · rename_i op hop
        have hne : c.splitInfix.peek.kind ≠ .eof := fun heof => by
          simp [heof, Kind.compareOp?] at hop
        obtain ⟨hstep, hkeeps⟩ := Mode.step_compareOp hop depth
        exact .advance_bind hrel hsame hne hkeeps fun hrel =>
          .pure hrel ⟨rfl, by simp, fun _ => hstep⟩
  · refine Simulates.congr ?_ (compareOperator?_eq hc) (compareOperator?_eq hd)
    unfold splitCompareOperator?
    refine .peekKind_bind ?_
    rw [Cursor.peek_kind_of_ahead_nil hended.2.2]
    split
    · rename_i hk
      exact .ended hended (strict_advance (by simp [hk])).bind
    · split
      · exact .pure hrel ⟨rfl, fun _ => rfl, fun hne => absurd rfl hne⟩
      · rename_i op hop
        have hne : c.splitInfix.peek.kind ≠ .eof := fun heof => by
          simp [heof, Kind.compareOp?] at hop
        exact .ended hended (strict_advance hne).bind

/-- An operand of a comparison takes from what is ahead. -/
instance : Lowers comparand :=
  .of_ensures (Q := fun _ => Chained .comparison Level.arithmetic) comparand_ensures

/-- An operator of comparisons takes from what is ahead. -/
instance : Lowers compareOperator? := .of_ensures compareOperator?_ensures

/-- What a predicate leads to: the same predicate, and the mode behind an operand. -/
def PredicateInStep (depth : Nat) (p p' : Predicate) (τ : Mode) : Prop :=
  p = p' ∧ τ = .behind depth

/-- A truth value is the same with its span and without. -/
lemma withoutSpans_eq_bool_iff {e : Expression} {value : Bool} :
    e.withoutSpans = .bool value .origin ↔ ∃ s, e = .bool value s := by
  cases e <;> simp [Expression.withoutSpans]

/-- What follows the left side of a comparison is read from what is ahead. -/
lemma lowers_comparisonBehind (lhs : Expression) (o : Option CompareOp) : Lowers (match o with
    | some op => do
      let rhs ← comparand
      return .compare op lhs rhs (lhs.span.merge rhs.span)
    | none =>
      match lhs with
      | .bool value span => return .const value span
      | _ => unexpected ["comparison operator"] : Parser Predicate) := by
  rcases o with _ | op
  · dsimp only
    split <;> infer_instance
  · dsimp only
    infer_instance

/-- Comparisons are read in step, up to spans if these are not the same.

**Proof sketch.** The operands and the operator are read in step.  Where there is no operator, the
operand is a truth value on both sides or on none, which spans do not bear on. -/
lemma comparison_alike (h : S.Rel (.operand depth) c d) :
    Simulates S comparison comparison c d fun p p' τ =>
      Alike S.exact Predicate.withoutSpans p p' ∧ τ = .behind depth := by
  have hrest := lowers_comparisonBehind
  unfold comparison
  refine (comparand_simulates depth c d h).bind ?_
  rintro lhs lhs' _ c₁ d₁ hrun hrun' ⟨hlhs, rfl⟩ hrel
  obtain ⟨_, -, hc⟩ := (comparand_ensures c).ok lhs c₁ hrun
  obtain ⟨_, -, hd⟩ := (comparand_ensures d).ok lhs' d₁ hrun'
  refine (compareOperator?_simulates hrel hc.beyond hd.beyond).bind ?_
  rintro o _ τ c₂ d₂ - - ⟨rfl, hnone, hsome⟩ hrel
  rcases o with _ | op
  · obtain rfl := hnone rfl
    by_cases hbool : ∃ value, lhs.withoutSpans = .bool value .origin
    · obtain ⟨value, hvalue⟩ := hbool
      obtain ⟨s, rfl⟩ := withoutSpans_eq_bool_iff.1 hvalue
      obtain ⟨s', rfl⟩ := withoutSpans_eq_bool_iff.1 (hlhs.1.symm.trans hvalue)
      exact .pure hrel ⟨⟨rfl, fun he => by rw [(Expression.bool.inj (hlhs.2 he)).2]⟩, rfl⟩
    · dsimp only
      split
      · exact absurd ⟨_, withoutSpans_eq_bool_iff.2 ⟨_, rfl⟩⟩ hbool
      · split
        · exact absurd ⟨_, hlhs.1.trans (withoutSpans_eq_bool_iff.2 ⟨_, rfl⟩)⟩ hbool
        · exact .unexpected hrel
  · obtain rfl := hsome (by simp)
    refine (comparand_simulates depth c₂ d₂ hrel).bind ?_
    rintro rhs rhs' _ c₃ d₃ - - ⟨hrhs, rfl⟩ hrel
    refine .pure hrel ⟨⟨?_, fun he => by rw [hlhs.2 he, hrhs.2 he]⟩, rfl⟩
    simp only [Predicate.withoutSpans, hlhs.1, hrhs.1]

/-- Comparisons are read in step. -/
lemma comparison_simulates {first : Mode} {start : Cursor}
    (h : (settling first start).Rel (.operand depth) c d) :
    Simulates (settling first start) comparison comparison c d (PredicateInStep depth) :=
  (comparison_alike h).imp fun _ _ _ hp => ⟨hp.1.2 trivial, hp.2⟩

end Comparison

/-! ## Atoms -/

section Atom

variable {first : Mode} {start c d : Cursor} {depth : Nat} {inner inner' : Parser Predicate}

/-- Predicates are read in step, wherever the reading began. -/
def PredicatesInStep (inner inner' : Parser Predicate) : Prop :=
  ∀ first start depth c d, (settling first start).Rel (.operand depth) c d →
    Simulates (settling first start) inner inner' c d (PredicateInStep depth)

/-- Groups are read in step. -/
lemma group_simulates [Lowers inner] (hinner : PredicatesInStep inner inner')
    (h : (settling first start).Rel (.operand depth) c d) :
    Simulates (settling first start) (group inner) (group inner') c d (PredicateInStep depth) := by
  unfold group
  refine .expect_bind h (by simp) rfl fun _ hstart hrel => ?_
  refine (hinner first start (depth + 1) _ _ hrel).bind ?_
  rintro p _ _ c₁ d₁ - - ⟨rfl, rfl⟩ hrel
  refine .expect_bind hrel (by simp) rfl fun _ _ hrel => ?_
  exact .spanFrom_bind hrel hstart.span fun s s' hs => .pure hrel ⟨by rw [hs trivial], rfl⟩

/-- Where a comparison is refused on both sides, the groups are read in step, although the left side
reads its group from the tokens that the attempt has split.

**Proof sketch.** The comparison on the left side is in step with itself from where it begins, so
that the tokens that it leaves settle to the same ones.  The left cursor that goes back is in step
with the right one, which is where it was, and the groups are read in step from there. -/
lemma orElse_simulates [Lowers inner] (hinner : PredicatesInStep inner inner')
    (h : (settling first start).Rel (.operand depth) c d)
    (hens : comparison.Ensures SplitsTo c fun _ _ _ => True) :
    Simulates (settling first start) (orElseHere comparison (group inner))
      (orElseAfresh comparison (group inner')) c d (PredicateInStep depth) := by
  have htrial : Simulates (settling (.operand depth) c) comparison comparison c d
      (PredicateInStep depth) := comparison_simulates h.here
  -- a comparison is refused on both sides, and the splits that it made settle
  have hgroup (fault : Fault) (c₁ : Cursor) (hrun : comparison c = .error fault c₁) :
      (∃ other d₁, comparison d = .error other d₁)
        ∧ Simulates (settling first start) (group inner) (group inner') (c₁.seek c.position) d
          (PredicateInStep depth) := by
    obtain ⟨other, d₁, τ, hrun', hrel⟩ := (htrial.error rfl fault c₁ hrun).2 trivial
    obtain ⟨read, hread⟩ := hens.error fault c₁ hrun
    exact ⟨⟨other, d₁, hrun'⟩,
      group_simulates hinner (h.exchange (hrel.seek hread) ⟨rfl, rfl, rfl⟩)⟩
  constructor
  · intro p c' hp hfloor
    unfold orElseHere at hp
    rcases hrun : comparison c with ⟨p₁, c₁⟩ | ⟨fault, c₁⟩
    · simp only [hrun] at hp
      obtain ⟨rfl, rfl⟩ := EStateM.Result.ok.inj hp
      obtain ⟨p', d', τ, hd, hp', hrel⟩ := htrial.ok p₁ c₁ hrun hfloor
      exact ⟨p', d', τ, by simp [orElseAfresh, hd], hp', h.trans hrel⟩
    · obtain ⟨⟨other, d₁, hd⟩, hsim⟩ := hgroup fault c₁ hrun
      rcases hrun₂ : group inner (c₁.seek c.position) with ⟨p₂, c₂⟩ | ⟨fault₂, c₂⟩
      · simp only [hrun, hrun₂] at hp
        obtain ⟨rfl, rfl⟩ := EStateM.Result.ok.inj hp
        obtain ⟨p', d', τ, hd₂, hp', hrel⟩ := hsim.ok p₂ c₂ hrun₂ hfloor
        exact ⟨p', d', τ, by simp [orElseAfresh, hd, hd₂], hp', hrel⟩
      · simp [hrun, hrun₂] at hp
  · intro _ fault c' hp
    refine ⟨trivial, fun _ => ?_⟩
    unfold orElseHere at hp
    rcases hrun : comparison c with ⟨p₁, c₁⟩ | ⟨fault₁, c₁⟩
    · simp [hrun] at hp
    · obtain ⟨⟨other, d₁, hd⟩, hsim⟩ := hgroup fault₁ c₁ hrun
      rcases hrun₂ : group inner (c₁.seek c.position) with ⟨p₂, c₂⟩ | ⟨fault₂, c₂⟩
      · simp [hrun, hrun₂] at hp
      · simp only [hrun, hrun₂] at hp
        obtain ⟨-, rfl⟩ := EStateM.Result.error.inj hp
        obtain ⟨other₂, d₂, τ, hd₂, hrel⟩ := (hsim.error rfl fault₂ c₂ hrun₂).2 trivial
        exact ⟨other.furthest other₂, d₂, τ, by simp [orElseAfresh, hd, hd₂], hrel⟩

/-- A reference to a tine takes from what is ahead. -/
instance : Lowers tineRef := .of_ensures (R := Eq) tineRef_ensures

/-- References to tines are read in step. -/
lemma tineRef_simulates (h : (settling first start).Rel (.operand depth) c d) :
    Simulates (settling first start) tineRef tineRef c d fun t t' τ =>
      t = t' ∧ τ = .behind depth := by
  unfold tineRef
  refine .expect_bind h (by simp) rfl fun _ hsame hrel => ?_
  rw [hsame.lexeme, hsame.span trivial]
  exact .pure hrel ⟨rfl, rfl⟩

/-- Anywhere but at a tine and at a parenthesis, an atom is a comparison. -/
lemma predicateAtom_eq_comparison (inner : Parser Predicate) (htine : c.peek.kind ≠ .tineRef)
    (hgroup : c.peek.kind ≠ .symbol .lParen) : predicateAtom inner c = comparison c := by
  unfold predicateAtom
  rw [bind_of_ok (show peekKind c = .ok c.peek.kind c from rfl)]
  refine congrFun (?_ : _ = comparison) c
  split <;> first | contradiction | rfl

/-- Anywhere but at a tine and at a parenthesis, an atom that is read with a copy is a comparison.
-/
lemma predicateAtomAfresh_eq_comparison (inner : Parser Predicate)
    (htine : c.peek.kind ≠ .tineRef) (hgroup : c.peek.kind ≠ .symbol .lParen) :
    predicateAtomAfresh inner c = comparison c := by
  unfold predicateAtomAfresh
  rw [bind_of_ok (show peekKind c = .ok c.peek.kind c from rfl)]
  refine congrFun (?_ : _ = comparison) c
  split <;> first | contradiction | rfl

/-- Atoms are read in step, with a copy on the right side and without one on the left.

**Proof sketch.** By cases on the token at both cursors.  The mention of a tine is read in step, a
parenthesis leads to the two ways of trying a comparison before a group, which `orElse_simulates`
compares, and otherwise both sides read a comparison. -/
lemma predicateAtom_simulates [Lowers inner] (hinner : PredicatesInStep inner inner')
    (h : (settling first start).Rel (.operand depth) c d) :
    Simulates (settling first start) (predicateAtom inner) (predicateAtomAfresh inner') c d
      (PredicateInStep depth) := by
  rcases settling_cases h with hsame | hapart
  · by_cases htine : c.peek.kind = .tineRef
    · unfold predicateAtom predicateAtomAfresh
      refine .peekKind_bind ?_
      simp only [← hsame.kind, htine]
      refine (tineRef_simulates h).bind ?_
      rintro t _ _ c₁ d₁ - - ⟨rfl, rfl⟩ hrel
      exact .pure hrel ⟨rfl, rfl⟩
    by_cases hgroup : c.peek.kind = .symbol .lParen
    · unfold predicateAtom predicateAtomAfresh
      refine .peekKind_bind ?_
      simp only [← hsame.kind, hgroup]
      exact orElse_simulates hinner h
        ((comparison_ensures (by simp [NoNegation, hgroup])).imp fun _ _ _ _ => trivial)
    · exact (comparison_simulates h).congr (predicateAtom_eq_comparison inner htine hgroup)
        (predicateAtomAfresh_eq_comparison inner' (hsame.kind ▸ htine) (hsame.kind ▸ hgroup))
  · cases hapart.1

end Atom

/-! ## Logic -/

section Logic

variable {first : Mode} {start c d : Cursor} {depth : Nat} {inner inner' : Parser Predicate}

/-- A comparison takes from what is ahead. -/
instance : Lowers comparison := by
  have hrest := lowers_comparisonBehind
  unfold comparison
  infer_instance

/-- A group takes from what is ahead. -/
instance [Lowers inner] : Lowers (group inner) := by unfold group; infer_instance

/-- A choice with a copy takes from what is ahead, if both alternatives do. -/
instance {α : Type} {p q : Parser α} [hp : Lowers p] [hq : Lowers q] :
    Lowers (orElseAfresh p q) where
  le c a b h := by
    unfold orElseAfresh at h
    rcases hrun : p c with ⟨a₁, c₁⟩ | ⟨fault, c₁⟩
    · simp only [hrun] at h
      obtain ⟨rfl, rfl⟩ := EStateM.Result.ok.inj h
      exact hp.le c a₁ c₁ hrun
    · rcases hrun₂ : q c with ⟨a₂, c₂⟩ | ⟨other, c₂⟩
      · simp only [hrun, hrun₂] at h
        obtain ⟨rfl, rfl⟩ := EStateM.Result.ok.inj h
        exact hq.le c a₂ c₂ hrun₂
      · simp [hrun, hrun₂] at h

/-- An atom that is read with a copy takes from what is ahead. -/
instance [Lowers inner] : Lowers (predicateAtomAfresh inner) := by
  unfold predicateAtomAfresh
  refine @Lowers.bind _ _ _ _ _ fun kind => ?_
  split <;> infer_instance

/-- An atom is read from what is ahead, although the cursor goes back at a parenthesis. -/
lemma lowers_predicateAtom (hinner : ∀ c, inner.Ensures SplitsTo c (Guard 0)) :
    Lowers (predicateAtom inner) where
  le c p b h := by
    by_cases hc : NoNegation c
    · obtain ⟨ts, hread, -⟩ := (predicateAtom_ensures hinner hc).ok p b h
      exact hread.remaining ▸ Nat.le_add_left _ _
    · have hkind : c.peek.kind = .symbol .bang ∨ c.peek.kind = .keyword .not := by
        simpa [NoNegation, or_iff_not_imp_left] using hc
      have hrun := predicateAtom_eq_comparison (c := c) inner
        (by rcases hkind with hkind | hkind <;> simp [hkind])
        (by rcases hkind with hkind | hkind <;> simp [hkind])
      exact Lowers.le c p b (hrun ▸ h)

/-- Every negation sign takes a token. -/
instance : Rounds notOperator? where
  le := (Lowers.of_ensures notOperator?_ensures).le
  some_lt c op b h := by
    obtain ⟨ts, hread, hts, -⟩ := (notOperator?_ensures c).ok (some op) b h
    exact hread.remaining_lt (ne_nil_of_covering hts.1)
  at_end c hc := by
    have hkind := Cursor.peek_kind_of_ahead_nil hc
    exact bind_eq_ok.2 ⟨_, c, rfl, by rw [hkind]; rfl⟩

/-- Negation signs are read in step. -/
lemma notOperator?_simulates (h : (settling first start).Rel (.operand depth) c d) :
    Simulates (settling first start) notOperator? notOperator? c d fun o o' τ =>
      Option.Rel Eq o o' ∧ τ = .operand depth := by
  rcases settling_cases h with hsame | hapart
  · unfold notOperator?
    refine .peekKind_bind ?_
    rw [← hsame.kind]
    split
    case h_1 hk | h_2 hk =>
      refine .advance_bind h hsame (by simp [hk]) rfl fun hrel => ?_
      rw [hk] at hrel
      exact .pure hrel ⟨.some (hsame.span trivial), rfl⟩
    · exact .pure h ⟨.none, rfl⟩
  · cases hapart.1

/-- What the look for an operator leads to. -/
def OperatorInStep (depth : Nat) (o o' : Option Unit) (τ : Mode) : Prop :=
  o = o' ∧ (o = none → τ = .behind depth) ∧ (o ≠ none → τ = .operand depth)

/-- The parser looks for one of the tokens `signs`.  They stand between operands, and no split can
take part in them. -/
structure LooksFor (operator : Parser (Option Unit)) (signs : List Kind) : Prop where
  run : ∀ c : Cursor, operator c
    = if c.peek.kind ∈ signs then .ok (some ()) c.advance else .ok none c
  ne_eof : .eof ∉ signs
  inSplit : ∀ kind ∈ signs, kind.inSplit = false
  step : ∀ kind ∈ signs, ∀ depth, (Mode.behind depth).step kind = .operand depth

namespace LooksFor

variable {operator : Parser (Option Unit)} {signs : List Kind}

/-- A sign that is looked for takes a token. -/
lemma rounds (hop : LooksFor operator signs) : Rounds operator where
  le c o b h := by
    rw [hop.run] at h
    split at h <;> obtain ⟨-, rfl⟩ := EStateM.Result.ok.inj h
    · exact (remaining_advance c).1
    · exact le_rfl
  some_lt c o b h := by
    rw [hop.run] at h
    split at h
    · rename_i hmem
      obtain ⟨-, rfl⟩ := EStateM.Result.ok.inj h
      exact (remaining_advance c).2 fun heof => hop.ne_eof (heof ▸ hmem)
    · cases h
  at_end c hc := by
    rw [hop.run, Cursor.peek_kind_of_ahead_nil hc, if_neg hop.ne_eof]

/-- A sign that is looked for is read in step.

**Proof sketch.** The signs take part in no split.  At the same token both sides answer alike; where
the tokens differ, neither of them is a sign. -/
lemma simulates (hop : LooksFor operator signs)
    (h : (settling first start).Rel (.behind depth) c d) :
    Simulates (settling first start) operator operator c d (OperatorInStep depth) := by
  have hnone (hc : c.peek.kind ∉ signs) (hd : d.peek.kind ∉ signs) :
      Simulates (settling first start) operator operator c d (OperatorInStep depth) :=
    (Simulates.pure (a := none) (b := none) h
        ⟨rfl, fun _ => rfl, fun hne => absurd rfl hne⟩).congr
      (by rw [hop.run, if_neg hc]; rfl) (by rw [hop.run, if_neg hd]; rfl)
  rcases settling_cases h with hsame | hapart
  · by_cases hc : c.peek.kind ∈ signs
    · have hne : c.peek.kind ≠ .eof := fun heof => hop.ne_eof (heof ▸ hc)
      have hclear := (Mode.behind depth).clear_of_inSplit (hop.inSplit _ hc)
      have hrel := (settling first start).advance h hsame hne (Mode.keeps_of_clear hclear)
      rw [hop.step _ hc] at hrel
      exact (Simulates.pure (a := some ()) (b := some ()) hrel
          ⟨rfl, by simp, fun _ => rfl⟩).congr
        (by rw [hop.run, if_pos hc]; rfl) (by rw [hop.run, if_pos (hsame.kind ▸ hc)]; rfl)
    · exact hnone hc (hsame.kind ▸ hc)
  · refine hnone (fun hc => ?_) fun hd => ?_
    · have := hop.inSplit _ hc
      simp [hapart.2.1] at this
    · have := hop.inSplit _ hd
      simp [hapart.2.2] at this

end LooksFor

/-- The sign of a conjunction is looked for. -/
lemma looksFor_andOperator? : LooksFor andOperator? [.symbol .ampAmp, .keyword .and] where
  run c := by
    unfold andOperator?
    rw [bind_of_ok (show peekKind c = .ok c.peek.kind c from rfl)]
    by_cases hfirst : c.peek.kind = .symbol .ampAmp
    · rw [if_pos (by simp [hfirst]), hfirst]
      rfl
    by_cases hsecond : c.peek.kind = .keyword .and
    · rw [if_pos (by simp [hsecond]), hsecond]
      rfl
    rw [if_neg (by simp [hfirst, hsecond])]
    refine congrFun (?_ : _ = (pure none : Parser (Option Unit))) c
    split <;> first | contradiction | rfl
  ne_eof := by simp
  inSplit := by simp [Kind.inSplit, Kind.splits]
  step := by simp [Mode.step, Mode.turn, Kind.opensDefinition, Kind.endsOperand]

/-- The sign of a disjunction is looked for. -/
lemma looksFor_orOperator? : LooksFor orOperator? [.symbol .pipePipe, .keyword .or] where
  run c := by
    unfold orOperator?
    rw [bind_of_ok (show peekKind c = .ok c.peek.kind c from rfl)]
    by_cases hfirst : c.peek.kind = .symbol .pipePipe
    · rw [if_pos (by simp [hfirst]), hfirst]
      rfl
    by_cases hsecond : c.peek.kind = .keyword .or
    · rw [if_pos (by simp [hsecond]), hsecond]
      rfl
    rw [if_neg (by simp [hfirst, hsecond])]
    refine congrFun (?_ : _ = (pure none : Parser (Option Unit))) c
    split <;> first | contradiction | rfl
  ne_eof := by simp
  inSplit := by simp [Kind.inSplit, Kind.splits]
  step := by simp [Mode.step, Mode.turn, Kind.opensDefinition, Kind.endsOperand]

/-- Every sign of a conjunction takes a token. -/
instance : Rounds andOperator? := looksFor_andOperator?.rounds

/-- Every sign of a disjunction takes a token. -/
instance : Rounds orOperator? := looksFor_orOperator?.rounds

/-- A negation that is read with a copy takes from what is ahead. -/
instance [Lowers inner] : Lowers (negationAfresh inner) := by
  unfold negationAfresh prefixed
  infer_instance

/-- A conjunction that is read with a copy takes from what is ahead. -/
instance [Lowers inner] : Lowers (conjunctionAfresh inner) := by
  unfold conjunctionAfresh
  infer_instance

/-- A predicate is read in step if the predicates in its groups are.

**Proof sketch.** Negations, conjunctions and disjunctions are prefixes and chains over atoms,
and the signs of each layer are looked for in step. -/
lemma predicateWith_simulates [Lowers inner'] (hens : ∀ c, inner.Ensures SplitsTo c (Guard 0))
    (hinner : PredicatesInStep inner inner') :
    PredicatesInStep (predicateWith inner) (predicateAfreshWith inner') := by
  have := Lowers.of_ensures hens
  have := lowers_predicateAtom hens
  have := Lowers.of_ensures (negation_ensures hens)
  have := Lowers.of_ensures (conjunction_ensures hens)
  have hnegation (first start depth c d) (h : (settling first start).Rel (.operand depth) c d) :
      Simulates (settling first start) (negation inner) (negationAfresh inner') c d
        fun p p' τ => p = p' ∧ τ = .behind depth :=
    Simulates.prefixed (M := (· = .operand depth)) (N := (· = .behind depth)) h rfl
      (by rintro _ c d rfl h; exact notOperator?_simulates h)
      (by rintro _ c d rfl h; exact predicateAtom_simulates hinner h)
      (by rintro _ _ _ _ rfl rfl; rfl)
  have hconjunction (first start depth c d)
      (h : (settling first start).Rel (.operand depth) c d) :
      Simulates (settling first start) (conjunction inner) (conjunctionAfresh inner') c d
        fun p p' τ => p = p' ∧ τ = .behind depth :=
    Simulates.leftAssoc (M := (· = .behind depth)) (N := (· = .operand depth))
      (hnegation first start depth c d h)
      (by rintro _ c d rfl h; exact looksFor_andOperator?.simulates h)
      (by rintro _ c d rfl h; exact hnegation first start depth c d h)
      (by rintro _ _ _ _ _ rfl rfl; rfl)
  intro first start depth c d h
  exact Simulates.leftAssoc (M := (· = .behind depth)) (N := (· = .operand depth))
    (hconjunction first start depth c d h)
    (by rintro _ c d rfl h; exact looksFor_orOperator?.simulates h)
    (by rintro _ c d rfl h; exact hconjunction first start depth c d h)
    (by rintro _ _ _ _ _ rfl rfl; rfl)

end Logic

/-! ## Predicates -/

/-- Both readers of predicates are in step, with the same bound. -/
lemma predicateUpTo_simulates (n : Nat) :
    PredicatesInStep (predicateUpTo n) (predicateAfreshUpTo n) := by
  have hlowers (n : Nat) : Lowers (predicateAfreshUpTo n) := by
    induction n with
    | zero => exact inferInstanceAs (Lowers (unexpected _))
    | succ n ih =>
      rw [predicateAfreshUpTo, predicateAfreshWith]
      infer_instance
  induction n with
  | zero => exact fun _ _ _ _ _ h => .unexpected h
  | succ n ih =>
    have := hlowers n
    exact predicateWith_simulates (predicateUpTo_ensures n) ih

/-- Both readers of predicates are in step. -/
theorem predicate_simulates : PredicatesInStep predicate predicateAfresh := by
  intro first start depth c d h
  refine (predicateUpTo_simulates c.remaining first start depth c d h).congr rfl ?_
  have hremaining : c.remaining = d.remaining := by
    rw [Cursor.remaining, Cursor.remaining, ← countPieces_settle (.operand depth) c.ahead,
      ← countPieces_settle (.operand depth) d.ahead, h.ahead]
  rw [predicateAfresh, ← hremaining]

/-- Where one of the readers succeeds so does the other, with the same predicate, and what they
leave ahead settles to the same.

**Proof sketch.** From the left to the right it is the simulation.  From the right to the left, the
left side either succeeds, with the same predicate by the simulation, or fails, and then the right
side would have failed too. -/
theorem predicate_settles (c : Cursor) (p : Predicate) :
    (∀ c', predicate c = .ok p c' → ∃ d', predicateAfresh c = .ok p d'
      ∧ Settles (.operand 0) c (.behind 0) c' d')
    ∧ ∀ d', predicateAfresh c = .ok p d' → ∃ c', predicate c = .ok p c'
      ∧ Settles (.operand 0) c (.behind 0) c' d' := by
  have hsim := predicate_simulates (.operand 0) c 0 c c (Settles.refl rfl c)
  have hok (c' : Cursor) (hc : predicate c = .ok p c') : ∃ d', predicateAfresh c = .ok p d'
      ∧ Settles (.operand 0) c (.behind 0) c' d' := by
    obtain ⟨_, d', _, hd, ⟨rfl, rfl⟩, hrel⟩ := hsim.ok p c' hc (Nat.zero_le _)
    exact ⟨d', hd, hrel⟩
  refine ⟨hok, fun d' hd => ?_⟩
  rcases hc : predicate c with ⟨p', c'⟩ | ⟨fault, c'⟩
  · obtain ⟨_, d₁, _, hd₁, ⟨rfl, rfl⟩, hrel⟩ := hsim.ok p' c' hc (Nat.zero_le _)
    obtain ⟨rfl, rfl⟩ := EStateM.Result.ok.inj (hd₁.symm.trans hd)
    exact ⟨c', rfl, hrel⟩
  · obtain ⟨other, d₁, _, hd₁, -⟩ := (hsim.error rfl fault c' hc).2 trivial
    cases hd₁.symm.trans hd

end Parser

end RakeLang
