import RakeLang.Predicate.Basic
import RakeLang.Proofs.Canonical.Expression

/-!
# Canonical predicates

A predicate that a text can be read as has three layers: disjunctions nest to the left over
conjunctions, these nest to the left over negations and atoms, and a negation negates a negation
or an atom.  The operands of a comparison are canonical expressions, and no operator but those of
arithmetic is on their spine, nor a lambda nor a let-in.

## Main definitions

* `RakeLang.Expression.IsComparand` — the expressions that can be an operand of a comparison.
* `RakeLang.Predicate.Canonical` — canonical predicates.
* `RakeLang.Predicate.operands` — the expressions in a predicate.
* `RakeLang.Predicate.withoutSpans` — the tree without its places, for equality up to spans.

## Main results

* `RakeLang.Predicate.Canonical.operands` — the expressions in a canonical predicate are
  canonical.
-/

set_option relaxedAutoImplicit false
set_option autoImplicit false

namespace RakeLang

/-- A canonical expression with operators of arithmetic only on its spine, and without a lambda
or a let-in there. -/
def Expression.IsComparand (e : Expression) : Prop :=
  e.Canonical ∧ e.OnSpine (Expression.Admitted .comparison Level.arithmetic)

namespace Predicate

/-- How tightly the root of a predicate binds: a disjunction looser than a conjunction, and this
looser than all others. -/
def tightness : Predicate → Nat
  | or .. => 0
  | and .. => 1
  | _ => 2

/-- The layers of the predicate are nested as they are read, and the operands of its comparisons
are those that can be. -/
def Canonical : Predicate → Prop
  | or lhs rhs _ => 1 ≤ rhs.tightness ∧ lhs.Canonical ∧ rhs.Canonical
  | and lhs rhs _ =>
    1 ≤ lhs.tightness ∧ 2 ≤ rhs.tightness ∧ lhs.Canonical ∧ rhs.Canonical
  | not operand _ => 2 ≤ operand.tightness ∧ operand.Canonical
  | compare _ lhs rhs _ => lhs.IsComparand ∧ rhs.IsComparand
  | group inner _ => inner.Canonical
  | tineTest _ | const _ _ => True

/-- The operands of the comparisons in a predicate. -/
def operands : Predicate → List Expression
  | or lhs rhs _ | and lhs rhs _ => lhs.operands ++ rhs.operands
  | not operand _ => operand.operands
  | compare _ lhs rhs _ => [lhs, rhs]
  | group inner _ => inner.operands
  | tineTest _ | const _ _ => []

/-- The predicate with the empty span at the origin for all spans. -/
def withoutSpans : Predicate → Predicate
  | or lhs rhs _ => or lhs.withoutSpans rhs.withoutSpans .origin
  | and lhs rhs _ => and lhs.withoutSpans rhs.withoutSpans .origin
  | not operand _ => not operand.withoutSpans .origin
  | compare op lhs rhs _ => compare op lhs.withoutSpans rhs.withoutSpans .origin
  | tineTest tine => tineTest ⟨tine.name, .origin⟩
  | group inner _ => group inner.withoutSpans .origin
  | const value _ => const value .origin

/-- The operands of the comparisons in a canonical predicate are canonical.

**Proof sketch.** Induction on the predicate: being canonical is asked of its parts, and of both
operands of a comparison. -/
theorem Canonical.operands {p : Predicate} (h : p.Canonical) :
    ∀ e ∈ p.operands, e.Canonical := by
  induction p with
  | or lhs rhs span ihl ihr =>
    intro e he
    rcases List.mem_append.1 he with he | he
    · exact ihl h.2.1 e he
    · exact ihr h.2.2 e he
  | and lhs rhs span ihl ihr =>
    intro e he
    rcases List.mem_append.1 he with he | he
    · exact ihl h.2.2.1 e he
    · exact ihr h.2.2.2 e he
  | not operand span ih => exact ih h.2
  | compare op lhs rhs span =>
    intro e he
    obtain rfl | rfl : e = lhs ∨ e = rhs := by simpa [Predicate.operands] using he
    · exact h.1.1
    · exact h.2.1
  | group inner span ih => exact ih h
  | tineTest tine => simp [Predicate.operands]
  | const value span => simp [Predicate.operands]

end Predicate

end RakeLang
