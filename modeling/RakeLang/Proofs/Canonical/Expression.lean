import Mathlib.Tactic.Lemma
import RakeLang.Expression.Parser

/-!
# Canonical types and expressions

Not every syntax tree is one that a text can be read as.  The operands of an operator bind at
least as tightly as the table of levels asks for, suffixes stand behind operands that need no
parentheses, and lists have the lengths that tell their constructors apart.  A tree that keeps
these rules everywhere is *canonical*.

## Main definitions

* `RakeLang.DataType.Canonical`, `RakeLang.Parameter.Canonical` — canonical types and parameters.
* `RakeLang.Expression.Everywhere` — a property of all expressions inside an expression.
* `RakeLang.Expression.Ranked` — the rules of the table of levels at the root of an expression.
* `RakeLang.Expression.Canonical` — canonical expressions.
* `RakeLang.Expression.OnSpine` — a property of the parts that no parentheses set apart.
* `RakeLang.Expression.withoutSpans` — the tree without its places, for equality up to spans.

## Main results

* `RakeLang.Expression.Canonical.onSpine` — the operators on the spine of a canonical expression
  bind at least as tightly as the one at its root.
-/

set_option relaxedAutoImplicit false
set_option autoImplicit false

namespace RakeLang

/-! ## Types and parameters -/

/-- No tuple in the type is empty: an empty list in parentheses is the unit type. -/
def DataType.Canonical : DataType → Prop
  | function params result _ => (∀ p ∈ params, p.Canonical) ∧ result.Canonical
  | tuple items _ => items ≠ [] ∧ ∀ t ∈ items, t.Canonical
  | _ => True

/-- The type of the parameter is canonical, if it has one. -/
def Parameter.Canonical : Parameter → Prop
  | rack _ type _ | scalar _ type _ => ∀ t ∈ type, t.Canonical

/-! ## Roots and edges -/

namespace Expression

/-- Is there a binary operator at the root? -/
def isBinary : Expression → Bool
  | binary .. => true
  | _ => false

/-- Can a suffix stand behind the expression without parentheses around it? -/
def isBase : Expression → Bool
  | binary .. | unary .. | lambda .. | letIn .. => false
  | _ => true

/-- Does the right edge, as far as no parentheses set it apart, end with a lambda or a let-in?
Such an expression reaches as far as it can. -/
def endsOpen : Expression → Bool
  | binary _ _ rhs _ => rhs.endsOpen
  | unary _ operand _ => operand.endsOpen
  | lambda .. | letIn .. => true
  | _ => false

/-- A binary operator at the root binds at least as tightly as `n`. -/
def BindsAtLeast (n : Nat) : Expression → Prop
  | binary op _ _ _ => n ≤ op.level.tightness
  | _ => True

/-- The rules of the table of levels at the root.  The left operand of a binary operator binds at
least as tightly as the operator, the right operand tighter, and the left operand does not reach
as far as it can; a unary operator has no binary operator at the root of its operand; a suffix
stands behind an operand that needs no parentheses. -/
def Ranked : Expression → Prop
  | binary op lhs rhs _ =>
    lhs.BindsAtLeast op.level.tightness ∧ rhs.BindsAtLeast (op.level.tightness + 1)
      ∧ lhs.endsOpen = false
  | unary _ operand _ => operand.isBinary = false
  | field base _ _ | reduce _ base _ | scan _ base _ | shuffle base _ _ => base.isBase = true
  | _ => True

/-- The rules for the lists at the root: a lambda has a parameter and its parameters are
canonical, and a tuple has at least two items. -/
def Furnished : Expression → Prop
  | lambda params _ _ => params ≠ [] ∧ ∀ p ∈ params, p.Canonical
  | tuple items _ => 2 ≤ items.length
  | _ => True

end Expression

/-! ## All parts of an expression -/

mutual

/-- `P` holds of the expression and of all expressions inside it. -/
def Expression.Everywhere (P : Expression → Prop) : Expression → Prop
  | .binary op lhs rhs span =>
    P (.binary op lhs rhs span) ∧ lhs.Everywhere P ∧ rhs.Everywhere P
  | .unary op operand span => P (.unary op operand span) ∧ operand.Everywhere P
  | .call name args span => P (.call name args span) ∧ ∀ a ∈ args, a.Everywhere P
  | .field base name span => P (.field base name span) ∧ base.Everywhere P
  | .record name inits span => P (.record name inits span) ∧ ∀ i ∈ inits, i.Everywhere P
  | .reduce op operand span => P (.reduce op operand span) ∧ operand.Everywhere P
  | .scan op operand span => P (.scan op operand span) ∧ operand.Everywhere P
  | .shuffle operand indices span => P (.shuffle operand indices span) ∧ operand.Everywhere P
  | .lambda params body span => P (.lambda params body span) ∧ body.Everywhere P
  | .letIn name value body span =>
    P (.letIn name value body span) ∧ value.Everywhere P ∧ body.Everywhere P
  | .paren inner span => P (.paren inner span) ∧ inner.Everywhere P
  | .tuple items span => P (.tuple items span) ∧ ∀ e ∈ items, e.Everywhere P
  | e => P e

/-- `P` holds of the value of the field and of all expressions inside it. -/
def FieldInit.Everywhere (P : Expression → Prop) : FieldInit → Prop
  | .mk _ value _ => value.Everywhere P

end

namespace Expression

/-- The expression keeps the rules of the table of levels and those for lists everywhere. -/
def Canonical (e : Expression) : Prop := e.Everywhere fun e => e.Ranked ∧ e.Furnished

/-- `P` holds of the parts that no parentheses set apart: of the expression itself, and of the
operands of binary and unary operators down to where there are no more. -/
def OnSpine (P : Expression → Prop) : Expression → Prop
  | binary op lhs rhs span => P (binary op lhs rhs span) ∧ lhs.OnSpine P ∧ rhs.OnSpine P
  | unary op operand span => P (unary op operand span) ∧ operand.OnSpine P
  | e => P e

/-- What can stand on the spine of an expression that is read with the given operands and with
operators of the given levels. -/
def Admitted (operands : Parser.Operands) (levels : List Level) : Expression → Prop
  | binary op _ _ _ => op.level ∈ levels
  | lambda .. | letIn .. => operands = .full
  | _ => True

end Expression

/-! ## Trees without places -/

/-- The type with the empty span at the origin for all spans. -/
def DataType.withoutSpans : DataType → DataType
  | lane type _ => lane type .origin
  | rack type _ => rack type .origin
  | stack name _ => stack name .origin
  | single name _ => single name .origin
  | pack name _ => pack name .origin
  | mask _ => mask .origin
  | function params result _ =>
    function (params.map DataType.withoutSpans) result.withoutSpans .origin
  | tuple items _ => tuple (items.map DataType.withoutSpans) .origin
  | unit _ => unit .origin

/-- The scalar literal with the empty span at the origin. -/
def ScalarLiteral.withoutSpans (l : ScalarLiteral) : ScalarLiteral := ⟨l.value, .origin⟩

/-- The parameter with the empty span at the origin for all spans. -/
def Parameter.withoutSpans : Parameter → Parameter
  | rack name type _ => rack name (type.map DataType.withoutSpans) .origin
  | scalar literal type _ =>
    scalar literal.withoutSpans (type.map DataType.withoutSpans) .origin

mutual

/-- The expression with the empty span at the origin for all spans. -/
def Expression.withoutSpans : Expression → Expression
  | .binary op lhs rhs _ => .binary op lhs.withoutSpans rhs.withoutSpans .origin
  | .unary op operand _ => .unary op operand.withoutSpans .origin
  | .call name args _ => .call name (args.map Expression.withoutSpans) .origin
  | .field base name _ => .field base.withoutSpans name .origin
  | .scalar literal => .scalar literal.withoutSpans
  | .record name inits _ => .record name (inits.map FieldInit.withoutSpans) .origin
  | .reduce op operand _ => .reduce op operand.withoutSpans .origin
  | .scan op operand _ => .scan op operand.withoutSpans .origin
  | .shuffle operand indices _ => .shuffle operand.withoutSpans indices .origin
  | .lambda params body _ =>
    .lambda (params.map Parameter.withoutSpans) body.withoutSpans .origin
  | .letIn name value body _ => .letIn name value.withoutSpans body.withoutSpans .origin
  | .ident name _ => .ident name .origin
  | .number value _ => .number value .origin
  | .bool value _ => .bool value .origin
  | .laneIndex _ => .laneIndex .origin
  | .lanes _ => .lanes .origin
  | .unit _ => .unit .origin
  | .paren inner _ => .paren inner.withoutSpans .origin
  | .tuple items _ => .tuple (items.map Expression.withoutSpans) .origin

/-- The field with the empty span at the origin for all spans. -/
def FieldInit.withoutSpans : FieldInit → FieldInit
  | .mk name value _ => .mk name value.withoutSpans .origin

end

/-! ## Properties of all parts -/

/-- What holds everywhere holds at the root. -/
lemma Expression.Everywhere.root {P : Expression → Prop} {e : Expression}
    (h : e.Everywhere P) : P e := by
  cases e <;> simp only [Everywhere] at h
  all_goals first | exact h | exact h.1

mutual

/-- What holds everywhere implies everywhere what it implies.

**Proof sketch.** Induction on the expression and its fields. -/
lemma Expression.Everywhere.imp {P Q : Expression → Prop} (hPQ : ∀ e, P e → Q e) :
    ∀ e : Expression, e.Everywhere P → e.Everywhere Q
  | .binary op lhs rhs span, h => by
    rw [Expression.Everywhere] at h ⊢
    exact ⟨hPQ _ h.1, Expression.Everywhere.imp hPQ lhs h.2.1,
      Expression.Everywhere.imp hPQ rhs h.2.2⟩
  | .unary op operand span, h => by
    rw [Expression.Everywhere] at h ⊢
    exact ⟨hPQ _ h.1, Expression.Everywhere.imp hPQ operand h.2⟩
  | .call name args span, h => by
    rw [Expression.Everywhere] at h ⊢
    exact ⟨hPQ _ h.1, fun a ha => Expression.Everywhere.imp hPQ a (h.2 a ha)⟩
  | .field base name span, h => by
    rw [Expression.Everywhere] at h ⊢
    exact ⟨hPQ _ h.1, Expression.Everywhere.imp hPQ base h.2⟩
  | .record name inits span, h => by
    rw [Expression.Everywhere] at h ⊢
    exact ⟨hPQ _ h.1, fun i hi => FieldInit.Everywhere.imp hPQ i (h.2 i hi)⟩
  | .reduce op operand span, h => by
    rw [Expression.Everywhere] at h ⊢
    exact ⟨hPQ _ h.1, Expression.Everywhere.imp hPQ operand h.2⟩
  | .scan op operand span, h => by
    rw [Expression.Everywhere] at h ⊢
    exact ⟨hPQ _ h.1, Expression.Everywhere.imp hPQ operand h.2⟩
  | .shuffle operand indices span, h => by
    rw [Expression.Everywhere] at h ⊢
    exact ⟨hPQ _ h.1, Expression.Everywhere.imp hPQ operand h.2⟩
  | .lambda params body span, h => by
    rw [Expression.Everywhere] at h ⊢
    exact ⟨hPQ _ h.1, Expression.Everywhere.imp hPQ body h.2⟩
  | .letIn name value body span, h => by
    rw [Expression.Everywhere] at h ⊢
    exact ⟨hPQ _ h.1, Expression.Everywhere.imp hPQ value h.2.1,
      Expression.Everywhere.imp hPQ body h.2.2⟩
  | .paren inner span, h => by
    rw [Expression.Everywhere] at h ⊢
    exact ⟨hPQ _ h.1, Expression.Everywhere.imp hPQ inner h.2⟩
  | .tuple items span, h => by
    rw [Expression.Everywhere] at h ⊢
    exact ⟨hPQ _ h.1, fun e he => Expression.Everywhere.imp hPQ e (h.2 e he)⟩
  | .scalar _, h | .ident _ _, h | .number _ _, h | .bool _ _, h | .laneIndex _, h
  | .lanes _, h | .unit _, h => by
    rw [Expression.Everywhere] at h ⊢
    all_goals first | exact hPQ _ h | simp

/-- What holds everywhere in a field implies everywhere what it implies. -/
lemma FieldInit.Everywhere.imp {P Q : Expression → Prop} (hPQ : ∀ e, P e → Q e) :
    ∀ i : FieldInit, i.Everywhere P → i.Everywhere Q
  | .mk name value span, h => by
    rw [FieldInit.Everywhere] at h ⊢
    exact Expression.Everywhere.imp hPQ value h

end

/-! ## The spine of an expression -/

namespace Expression

section Spine

variable {P Q : Expression → Prop} {e : Expression}

/-- What holds on the spine holds at the root. -/
lemma OnSpine.root (h : e.OnSpine P) : P e := by
  cases e <;> simp only [OnSpine] at h
  all_goals first | exact h | exact h.1

/-- What holds on the spine implies on the spine what it implies. -/
lemma OnSpine.imp (hPQ : ∀ e, P e → Q e) : ∀ {e : Expression}, e.OnSpine P → e.OnSpine Q
  | binary .., h => ⟨hPQ _ h.1, OnSpine.imp hPQ h.2.1, OnSpine.imp hPQ h.2.2⟩
  | unary .., h => ⟨hPQ _ h.1, OnSpine.imp hPQ h.2⟩
  | call .., h | field .., h | scalar .., h | record .., h | reduce .., h | scan .., h
  | shuffle .., h | lambda .., h | letIn .., h | ident .., h | number .., h | bool .., h
  | laneIndex .., h | lanes .., h | unit .., h | paren .., h | tuple .., h => hPQ _ h

/-- The spine of an expression that a suffix can stand behind is the expression itself. -/
lemma onSpine_of_isBase (he : e.isBase = true) (h : P e) : e.OnSpine P := by
  cases e <;> simp_all [isBase, OnSpine]

/-- An expression that a suffix can stand behind does not reach as far as it can. -/
lemma endsOpen_of_isBase (he : e.isBase = true) : e.endsOpen = false := by
  cases e <;> simp_all [isBase, endsOpen]

/-- No binary operator is at the root of an expression that a suffix can stand behind. -/
lemma isBinary_of_isBase (he : e.isBase = true) : e.isBinary = false := by
  cases e <;> simp_all [isBase, isBinary]

/-- An expression that a suffix can stand behind is admitted with all operands and levels. -/
lemma admitted_of_isBase (he : e.isBase = true) (operands : Parser.Operands)
    (levels : List Level) : e.Admitted operands levels := by
  cases e <;> simp_all [isBase, Admitted]

/-- What is admitted with some levels is admitted with more of them. -/
lemma Admitted.mono {operands : Parser.Operands} {levels more : List Level}
    (hsub : levels ⊆ more) (h : e.Admitted operands levels) : e.Admitted operands more := by
  cases e <;> simp only [Admitted] at h ⊢
  all_goals first | exact hsub h | exact h

end Spine

/-- What binds tightly binds as tightly as less asks for. -/
lemma BindsAtLeast.mono {m n : Nat} (hmn : m ≤ n) {e : Expression} (h : e.BindsAtLeast n) :
    e.BindsAtLeast m := by
  cases e <;> simp only [BindsAtLeast] at h ⊢
  exact Nat.le_trans hmn h

/-- What is no chain of an operator binds as tightly as anything asks for. -/
lemma bindsAtLeast_of_isBinary {e : Expression} (h : e.isBinary = false) (n : Nat) :
    e.BindsAtLeast n := by
  cases e <;> simp_all [isBinary, BindsAtLeast]

/-- The operators on the spine of a canonical expression bind at least as tightly as the one at
its root, so that its levels can be restricted to those that do.

**Proof sketch.** Induction along the spine.  The operands of a binary operator bind at least as
tightly as it does, and below a unary operator there is no binary one. -/
theorem Canonical.onSpine {operands : Parser.Operands} {levels tighter : List Level} {n : Nat}
    (hlevels : ∀ l ∈ levels, n ≤ l.tightness → l ∈ tighter) :
    ∀ e : Expression, e.Canonical → e.BindsAtLeast n → e.OnSpine (Admitted operands levels) →
      e.OnSpine (Admitted operands tighter)
  | binary op lhs rhs span, hcan, hn, h => by
    rw [Canonical, Everywhere] at hcan
    obtain ⟨⟨⟨hl, hr, -⟩, -⟩, hlhs, hrhs⟩ := hcan
    have hn : n ≤ op.level.tightness := hn
    exact ⟨hlevels _ h.1 hn, Canonical.onSpine hlevels lhs hlhs (hl.mono hn) h.2.1,
      Canonical.onSpine hlevels rhs hrhs (hr.mono (by omega)) h.2.2⟩
  | unary op operand span, hcan, _, h => by
    rw [Canonical, Everywhere] at hcan
    obtain ⟨⟨hbin, -⟩, hoperand⟩ := hcan
    exact ⟨trivial,
      Canonical.onSpine hlevels operand hoperand (bindsAtLeast_of_isBinary hbin n) h.2⟩
  | call .., _, _, h | field .., _, _, h | scalar .., _, _, h | record .., _, _, h
  | reduce .., _, _, h | scan .., _, _, h | shuffle .., _, _, h | lambda .., _, _, h
  | letIn .., _, _, h | ident .., _, _, h | number .., _, _, h | bool .., _, _, h
  | laneIndex .., _, _, h | lanes .., _, _, h | unit .., _, _, h | paren .., _, _, h
  | tuple .., _, _, h => h

end Expression

end RakeLang
