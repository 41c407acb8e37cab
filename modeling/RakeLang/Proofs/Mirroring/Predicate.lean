import RakeLang.Proofs.Mirroring.Expression
import RakeLang.Proofs.Settling.Predicate

/-!
# Predicates mirror each other

Where the inputs are equally long, a comparison that is refused on the left side is refused on the
right one too, the groups are read from the same place, and the fault that shows further on is the
same.

## Main definitions

* `RakeLang.Parser.GuardMirrors` — the judgement for readers of predicates.
* `RakeLang.Parser.closed` — a predicate up to the parenthesis that closes it.

## Main results

* `RakeLang.Parser.predicate_mirrors` — predicates, for inputs that are equally long.
-/

set_option relaxedAutoImplicit false
set_option autoImplicit false

namespace RakeLang.Parser

open Token

variable {M : Mirror} {c d : Cursor} {inner inner' : Parser Predicate}

/-- The parsers of inner predicates mirror each other. -/
def GuardMirrors (M : Mirror) (inner inner' : Parser Predicate) : Prop :=
  ∀ c d, M.Rel c d → Mirrors M inner inner' c d M.Predicates

/-! ## Atoms -/

section Atom

/-- References to tines mirror each other, and with them their spans. -/
lemma tineRef_mirrors (h : M.Rel c d) :
    Mirrors M tineRef tineRef c d fun r r' =>
      M.Alike TineRef.mapSpans r r' ∧ M.Spans r.span r'.span := by
  unfold tineRef
  refine .expect_bind h (by simp) fun hsame hrel => .pure hrel ⟨?_, hsame.span⟩
  simp only [Mirror.Alike, TineRef.mapSpans, hsame.lexeme, M.view hsame.span]

/-- Operators of comparisons mirror each other. -/
lemma compareOperator?_mirrors (h : M.Rel c d) :
    Mirrors M compareOperator? compareOperator? c d Eq := by
  have hrel := M.splitArrow h
  unfold compareOperator?
  refine .modify_bind (.kind_cases_or hrel (fun _ => rfl) (fun word hword _ => ?_) (fun _ => rfl)
    (fun _ => rfl) rfl fun hsame => ?_)
  · cases word <;> first | rfl | cases hword
  · split
    · refine .advance_bind hrel hsame fun hrel => ?_
      exact .eat_bind hrel (by simp) rfl (fun hrel => .pure hrel rfl) (.pure hrel rfl)
    · split
      · exact .pure hrel rfl
      · exact .advance_bind hrel hsame fun hrel => .pure hrel rfl

/-- Comparisons mirror each other.

**Proof sketch.** The operands and the operators mirror each other.  Where no operator stands behind
the operand, both sides ask whether it is a truth value, which is the same for expressions that are
alike up to spans. -/
lemma comparison_mirrors (h : M.Rel c d) :
    Mirrors M comparison comparison c d M.Predicates := by
  unfold comparison
  refine (comparand_mirrors c d h).bind ?_
  rintro lhs lhs' c₁ d₁ hlhs hrel
  refine (compareOperator?_mirrors hrel).bind ?_
  rintro o _ c₂ d₂ rfl hrel
  rcases o with _ | op
  · have halike : lhs.mapSpans M.left = lhs'.mapSpans M.right := hlhs.1
    by_cases hbool : ∃ value s, lhs = .bool value s
    · obtain ⟨value, s, rfl⟩ := hbool
      obtain ⟨s', rfl, hs⟩ := Expression.exists_bool_of_mapSpans_eq halike
      exact .pure hrel ⟨by simp only [Mirror.Alike, Predicate.mapSpans, hs], hlhs.2⟩
    · simp only
      split
      case h_1 value s => exact absurd ⟨value, s, rfl⟩ hbool
      split
      case h_1 value s' =>
        obtain ⟨s, rfl, -⟩ := Expression.exists_bool_of_mapSpans_eq halike.symm
        exact absurd ⟨value, s, rfl⟩ hbool
      exact .unexpected hrel
  · refine (comparand_mirrors c₂ d₂ hrel).bind ?_
    rintro rhs rhs' c₃ d₃ hrhs hrel
    have hs := M.merge hlhs.2 hrhs.2
    refine .pure hrel ⟨?_, hs⟩
    simp only [Mirror.Alike, Predicate.mapSpans, M.view hs]
    rw [hlhs.1, hrhs.1]

/-- Reads with `inner` up to the parenthesis that closes what is read. -/
def closed (inner : Parser Predicate) : Parser Predicate := do
  let p ← inner
  let _ ← expect (.symbol .rParen)
  return p

/-- Predicates with their closing parentheses mirror each other, if the predicates do. -/
lemma GuardMirrors.closed (h : GuardMirrors M inner inner') :
    GuardMirrors M (closed inner) (closed inner') := fun c d hrel => by
  refine (h c d hrel).bind ?_
  rintro p p' c₁ d₁ hp hrel
  exact .expect_bind hrel (by simp) fun _ hrel => .pure hrel hp

/-- What goes on behind a predicate and the parenthesis that closes it. -/
lemma closed_bind {α β : Type} {f : Predicate → Parser α} {g : Predicate → Parser β}
    {Q : α → β → Prop} (hclosed : GuardMirrors M (closed inner) (closed inner')) (h : M.Rel c d)
    (hfg : ∀ p p' c d, M.Predicates p p' → M.Rel c d → Mirrors M (f p) (g p') c d Q) :
    Mirrors M (inner >>= fun p => expect (.symbol .rParen) >>= fun _ => f p)
      (inner' >>= fun p => expect (.symbol .rParen) >>= fun _ => g p) c d Q := by
  have hassoc {γ : Type} (inner : Parser Predicate) (f : Predicate → Parser γ) :
      (inner >>= fun p => expect (.symbol .rParen) >>= fun _ => f p) = closed inner >>= f := by
    simp only [closed, bind_assoc, pure_bind]
  rw [hassoc, hassoc]
  exact (hclosed c d h).bind fun p p' c₁ d₁ hp hrel => hfg p p' c₁ d₁ hp hrel

/-- Groups mirror each other. -/
lemma group_mirrors (hinner : GuardMirrors M (closed inner) (closed inner')) (h : M.Rel c d) :
    Mirrors M (group inner) (group inner') c d M.Predicates := by
  unfold group
  refine .expect_bind h (by simp) fun hstart hrel => closed_bind hinner hrel ?_
  rintro p p' c₁ d₁ hp hrel
  refine .spanFrom_bind hrel hstart.span fun s s' hs => .pure hrel ⟨?_, hs⟩
  simp only [Mirror.Alike, Predicate.mapSpans, M.view hs]
  rw [hp.1]

/-- Two readings at the same place, for inputs that are equally long.  The second one begins where
the first one began, on both sides, and of the two faults the same one shows further on.

**Proof sketch.** The first readings mirror each other.  Where they are refused, both cursors are
moved back to where they began, which are related since the inputs are equally long, and the second
readings mirror each other from there.  Positions of faults are moved alike, so that the same one
shows further on. -/
lemma orElseHere_mirrors {α : Type} {p q p' q' : Parser α} {Q : α → α → Prop}
    (htotal : M.total) (h : M.Rel c d) (hfirst : Mirrors M p p' c d Q)
    (hsecond : ∀ c d, M.Rel c d → Mirrors M q q' c d Q) :
    Mirrors M (orElseHere p q) (orElseHere p' q') c d Q := by
  constructor
  · intro a c' hp
    unfold orElseHere at hp
    rcases hrun : p c with ⟨a₁, c₁⟩ | ⟨fault, c₁⟩
    · obtain ⟨b, d', hd, hQ, hrel⟩ := hfirst.ok a₁ c₁ hrun
      simp only [hrun] at hp
      obtain ⟨rfl, rfl⟩ := EStateM.Result.ok.inj hp
      exact ⟨b, d', by simp [orElseHere, hd], hQ, hrel⟩
    · obtain ⟨other, d₁, hd, -, hrel⟩ := hfirst.error htotal fault c₁ hrun
      have hgroup := hsecond _ _ (M.seek htotal hrel h)
      rcases hrun₂ : q (c₁.seek c.position) with ⟨a₂, c₂⟩ | ⟨fault₂, c₂⟩
      · obtain ⟨b, d', hd₂, hQ, hrel'⟩ := hgroup.ok a₂ c₂ hrun₂
        simp only [hrun, hrun₂] at hp
        obtain ⟨rfl, rfl⟩ := EStateM.Result.ok.inj hp
        exact ⟨b, d', by simp [orElseHere, hd, hd₂], hQ, hrel'⟩
      · simp [hrun, hrun₂] at hp
  · intro _ fault c' hp
    unfold orElseHere at hp
    rcases hrun : p c with ⟨a₁, c₁⟩ | ⟨fault₁, c₁⟩
    · simp [hrun] at hp
    · obtain ⟨other, d₁, hd, hfaults, hrel⟩ := hfirst.error htotal fault₁ c₁ hrun
      have hgroup := hsecond _ _ (M.seek htotal hrel h)
      rcases hrun₂ : q (c₁.seek c.position) with ⟨a₂, c₂⟩ | ⟨fault₂, c₂⟩
      · simp [hrun, hrun₂] at hp
      · obtain ⟨other₂, d', hd₂, hfaults₂, hrel'⟩ := hgroup.error htotal fault₂ c₂ hrun₂
        simp only [hrun, hrun₂] at hp
        obtain ⟨rfl, rfl⟩ := EStateM.Result.error.inj hp
        exact ⟨_, d', by simp [orElseHere, hd, hd₂], hfaults.furthest hfaults₂, hrel'⟩

/-- Reads an atom, where `parens` reads what begins with a parenthesis. -/
def atomWith (parens : Parser Predicate) : Parser Predicate := do
  match ← peekKind with
  | .tineRef =>
    let tine ← tineRef
    return .tineTest tine
  | .symbol .lParen => parens
  | _ => comparison

/-- At a parenthesis, an atom is what is read there. -/
lemma atomWith_of_lParen {parens : Parser Predicate} (hgroup : c.peek.kind = .symbol .lParen) :
    atomWith parens c = parens c := by
  unfold atomWith
  rw [bind_of_ok (show peekKind c = .ok c.peek.kind c from rfl), hgroup]

/-- Where no parenthesis stands, it does not matter how one would be read. -/
lemma atomWith_congr (parens parens' : Parser Predicate)
    (hgroup : c.peek.kind ≠ .symbol .lParen) : atomWith parens c = atomWith parens' c := by
  unfold atomWith
  rw [bind_of_ok (show peekKind c = .ok c.peek.kind c from rfl),
    bind_of_ok (show peekKind c = .ok c.peek.kind c from rfl)]
  refine congrFun (?_ : _ = _) c
  split <;> first | contradiction | rfl

/-- Anywhere but at a tine and at a parenthesis, an atom is a comparison. -/
lemma atomWith_eq_comparison {parens : Parser Predicate} (htine : c.peek.kind ≠ .tineRef)
    (hgroup : c.peek.kind ≠ .symbol .lParen) : atomWith parens c = comparison c := by
  unfold atomWith
  rw [bind_of_ok (show peekKind c = .ok c.peek.kind c from rfl)]
  refine congrFun (?_ : _ = comparison) c
  split <;> first | contradiction | rfl

/-- Atoms mirror each other, if what is read at their parentheses does. -/
lemma atomWith_mirrors {parens parens' : Parser Predicate}
    (hparens : GuardMirrors M parens parens') :
    GuardMirrors M (atomWith parens) (atomWith parens') := by
  intro c d h
  rcases Mirror.cases h with hsame | hended
  · unfold atomWith
    refine .peekKind_bind ?_
    rw [← hsame.kind]
    split
    · refine (tineRef_mirrors h).bind ?_
      rintro r r' c₁ d₁ hr hrel
      refine .pure hrel ⟨?_, hr.2⟩
      simp only [Mirror.Alike, Predicate.mapSpans]
      rw [hr.1]
    · exact hparens c d h
    · exact comparison_mirrors h
  · -- neither the end of the input nor a token that opens another part begins a tine or a group
    exact (comparison_mirrors h).congr
      (atomWith_eq_comparison (by simp [hended.kind]) (by simp [hended.kind]))
      (atomWith_eq_comparison (hended.kind_ne rfl) (hended.kind_ne rfl))

end Atom

/-! ## Logic -/

section Logic

/-- Negation signs mirror each other. -/
lemma notOperator?_mirrors (h : M.Rel c d) :
    Mirrors M notOperator? notOperator? c d (Option.Rel M.Spans) := by
  unfold notOperator?
  refine .kind_cases_or h (fun _ => rfl) (fun word hword _ => ?_) (fun _ => rfl) (fun _ => rfl)
    .none fun hsame => ?_
  · cases word <;> first | rfl | cases hword
  · split
    case h_1 | h_2 => exact .advance_bind h hsame fun hrel => .pure hrel (.some hsame.span)
    case h_3 => exact .pure h .none

/-- Signs of conjunctions mirror each other. -/
lemma andOperator?_mirrors (h : M.Rel c d) :
    Mirrors M andOperator? andOperator? c d Eq := by
  unfold andOperator?
  refine .kind_cases_or h (fun _ => rfl) (fun word hword _ => ?_) (fun _ => rfl) (fun _ => rfl)
    rfl fun hsame => ?_
  · cases word <;> first | rfl | cases hword
  · split
    case h_1 | h_2 => exact .advance_bind h hsame fun hrel => .pure hrel rfl
    case h_3 => exact .pure h rfl

/-- Signs of disjunctions mirror each other. -/
lemma orOperator?_mirrors (h : M.Rel c d) :
    Mirrors M orOperator? orOperator? c d Eq := by
  unfold orOperator?
  refine .kind_cases_or h (fun _ => rfl) (fun word hword _ => ?_) (fun _ => rfl) (fun _ => rfl)
    rfl fun hsame => ?_
  · cases word <;> first | rfl | cases hword
  · split
    case h_1 | h_2 => exact .advance_bind h hsame fun hrel => .pure hrel rfl
    case h_3 => exact .pure h rfl

/-- Negations of predicates that are alike are alike. -/
lemma applyNot_alike {s s' : Span} {p p' : Predicate} (hs : M.Spans s s')
    (hp : M.Predicates p p') : M.Predicates (applyNot s p) (applyNot s' p') := by
  have hs := M.merge hs hp.2
  refine ⟨?_, hs⟩
  simp only [Mirror.Alike, applyNot, Predicate.mapSpans, M.view hs]
  rw [hp.1]

/-- Conjunctions of predicates that are alike are alike. -/
lemma applyAnd_alike {a a' b b' : Predicate} (ha : M.Predicates a a') (hb : M.Predicates b b') :
    M.Predicates (applyAnd a () b) (applyAnd a' () b') := by
  have hs := M.merge ha.2 hb.2
  refine ⟨?_, hs⟩
  simp only [Mirror.Alike, applyAnd, Predicate.mapSpans, M.view hs]
  rw [ha.1, hb.1]

/-- Disjunctions of predicates that are alike are alike. -/
lemma applyOr_alike {a a' b b' : Predicate} (ha : M.Predicates a a') (hb : M.Predicates b b') :
    M.Predicates (applyOr a () b) (applyOr a' () b') := by
  have hs := M.merge ha.2 hb.2
  refine ⟨?_, hs⟩
  simp only [Mirror.Alike, applyOr, Predicate.mapSpans, M.view hs]
  rw [ha.1, hb.1]

/-- Reads a predicate whose atoms are read by `atom`. -/
def logicWith (atom : Parser Predicate) : Parser Predicate :=
  leftAssoc orOperator? (leftAssoc andOperator? (prefixed notOperator? atom applyNot) applyAnd)
    applyOr

/-- The signs of a negation and its atom take from what is ahead. -/
instance lowers_negated (p : Parser Predicate) [Lowers p] :
    Lowers (prefixed notOperator? p applyNot) := by
  unfold prefixed
  infer_instance

/-- Predicates over atoms that mirror each other do so themselves. -/
lemma logicWith_mirrors {atom atom' : Parser Predicate} [Lowers atom] [Lowers atom']
    (hatom : GuardMirrors M atom atom') :
    GuardMirrors M (logicWith atom) (logicWith atom') := by
  have hnegation : GuardMirrors M (prefixed notOperator? atom applyNot)
      (prefixed notOperator? atom' applyNot) := fun c d h =>
    .prefixed h (fun _ _ h => notOperator?_mirrors h) hatom fun _ _ _ _ hs hp =>
      applyNot_alike hs hp
  have hconjunction : GuardMirrors M
      (leftAssoc andOperator? (prefixed notOperator? atom applyNot) applyAnd)
      (leftAssoc andOperator? (prefixed notOperator? atom' applyNot) applyAnd) := fun c d h =>
    .leftAssoc h (fun _ _ h => andOperator?_mirrors h) hnegation fun _ _ _ _ _ ha hb =>
      applyAnd_alike ha hb
  exact fun c d h => .leftAssoc h (fun _ _ h => orOperator?_mirrors h) hconjunction
    fun _ _ _ _ _ ha hb => applyOr_alike ha hb

end Logic

/-! ## Predicates -/

/-- Predicates of bounded depth mirror each other. -/
lemma predicateUpTo_mirrors (htotal : M.total) (n : Nat) :
    GuardMirrors M (predicateUpTo n) (predicateUpTo n) := by
  induction n with
  | zero => exact fun c d h => .unexpected h
  | succ n ih =>
    have := lowers_predicateAtom (predicateUpTo_ensures n)
    refine logicWith_mirrors (atomWith_mirrors fun c d h => ?_)
    exact orElseHere_mirrors htotal h (comparison_mirrors h) fun _ _ h =>
      group_mirrors ih.closed h

/-- **Predicates mirror each other** where the inputs are equally long. -/
theorem predicate_mirrors (htotal : M.total) : GuardMirrors M predicate predicate := fun c d h => by
  obtain ⟨k, hremaining, hk⟩ := M.remaining h
  rw [hk htotal, Nat.add_zero] at hremaining
  exact (predicateUpTo_mirrors htotal c.remaining c d h).congr rfl (by rw [← hremaining]; rfl)

end RakeLang.Parser
