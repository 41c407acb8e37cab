import RakeLang.Proofs.Rereading.Spanless
import RakeLang.SourceFile.Basic

/-!
# Trees with other spans

A tree is moved to another place by a function on spans, which is applied to each of its spans.
Everything else in the tree stays.  To take the spans away is to move all of them to the start of
the text.

## Main definitions

* `RakeLang.DataType.mapSpans`, `RakeLang.Expression.mapSpans`, `RakeLang.Definition.mapSpans` and
  their relatives — trees with a function applied to all spans.
* `RakeLang.Fault.mapSpans` — a fault that shows somewhere else.

## Main results

* `RakeLang.Definition.mapSpans_origin` — all spans at the start of the text is no spans at all.
-/

set_option relaxedAutoImplicit false
set_option autoImplicit false

namespace RakeLang

/-! ## Types, literals and parameters -/

/-- The type with `f` applied to all spans. -/
def DataType.mapSpans (f : Span → Span) : DataType → DataType
  | lane type span => lane type (f span)
  | rack type span => rack type (f span)
  | stack name span => stack name (f span)
  | single name span => single name (f span)
  | pack name span => pack name (f span)
  | mask span => mask (f span)
  | function params result span =>
    function (params.map (DataType.mapSpans f)) (result.mapSpans f) (f span)
  | tuple items span => tuple (items.map (DataType.mapSpans f)) (f span)
  | unit span => unit (f span)

/-- A scalar literal with a function applied to its span. -/
def ScalarLiteral.mapSpans (f : Span → Span) (l : ScalarLiteral) : ScalarLiteral :=
  ⟨l.value, f l.span⟩

/-- A parameter with a function applied to all its spans. -/
def Parameter.mapSpans (f : Span → Span) : Parameter → Parameter
  | rack name type span => rack name (type.map (DataType.mapSpans f)) (f span)
  | scalar literal type span =>
    scalar (literal.mapSpans f) (type.map (DataType.mapSpans f)) (f span)

/-! ## Expressions and predicates -/

mutual

/-- The expression with `f` applied to all spans. -/
def Expression.mapSpans (f : Span → Span) : Expression → Expression
  | .binary op lhs rhs span => .binary op (lhs.mapSpans f) (rhs.mapSpans f) (f span)
  | .unary op operand span => .unary op (operand.mapSpans f) (f span)
  | .call name args span => .call name (args.map (Expression.mapSpans f)) (f span)
  | .field base name span => .field (base.mapSpans f) name (f span)
  | .scalar literal => .scalar (literal.mapSpans f)
  | .record name inits span => .record name (inits.map (FieldInit.mapSpans f)) (f span)
  | .reduce op operand span => .reduce op (operand.mapSpans f) (f span)
  | .scan op operand span => .scan op (operand.mapSpans f) (f span)
  | .shuffle operand indices span => .shuffle (operand.mapSpans f) indices (f span)
  | .lambda params body span =>
    .lambda (params.map (Parameter.mapSpans f)) (body.mapSpans f) (f span)
  | .letIn name value body span => .letIn name (value.mapSpans f) (body.mapSpans f) (f span)
  | .ident name span => .ident name (f span)
  | .number value span => .number value (f span)
  | .bool value span => .bool value (f span)
  | .laneIndex span => .laneIndex (f span)
  | .lanes span => .lanes (f span)
  | .unit span => .unit (f span)
  | .paren inner span => .paren (inner.mapSpans f) (f span)
  | .tuple items span => .tuple (items.map (Expression.mapSpans f)) (f span)

/-- The field with `f` applied to all spans. -/
def FieldInit.mapSpans (f : Span → Span) : FieldInit → FieldInit
  | .mk name value span => .mk name (value.mapSpans f) (f span)

end

/-- Only a truth value is the same as one up to spans. -/
lemma Expression.exists_bool_of_mapSpans_eq {f g : Span → Span} {value : Bool} {s : Span}
    {e : Expression} (h : (Expression.bool value s).mapSpans f = e.mapSpans g) :
    ∃ s', e = .bool value s' ∧ f s = g s' := by
  cases e
  case bool value' s' =>
    simp only [Expression.mapSpans, Expression.bool.injEq] at h
    exact ⟨s', by rw [h.1], h.2⟩
  all_goals simp [Expression.mapSpans] at h

/-- A reference to a tine with a function applied to its span. -/
def TineRef.mapSpans (f : Span → Span) (r : TineRef) : TineRef := ⟨r.name, f r.span⟩

/-- The predicate with `f` applied to all spans. -/
def Predicate.mapSpans (f : Span → Span) : Predicate → Predicate
  | or lhs rhs span => or (lhs.mapSpans f) (rhs.mapSpans f) (f span)
  | and lhs rhs span => and (lhs.mapSpans f) (rhs.mapSpans f) (f span)
  | not operand span => not (operand.mapSpans f) (f span)
  | compare op lhs rhs span => compare op (lhs.mapSpans f) (rhs.mapSpans f) (f span)
  | tineTest tine => tineTest (tine.mapSpans f)
  | group inner span => group (inner.mapSpans f) (f span)
  | const value span => const value (f span)

/-! ## Statements -/

/-- A binding with a function applied to all its spans. -/
def LetBinding.mapSpans (f : Span → Span) (b : LetBinding) : LetBinding :=
  ⟨b.name, b.type.map (DataType.mapSpans f), b.value.mapSpans f, f b.span⟩

/-- What the word `let` begins with a function applied to all its spans. -/
def Parser.LetForm.mapSpans (f : Span → Span) : LetForm → LetForm
  | binding b => binding (b.mapSpans f)
  | expression value => expression (value.mapSpans f)

/-- A statement with a function applied to all its spans. -/
def Statement.mapSpans (f : Span → Span) : Statement → Statement
  | letBinding binding => letBinding (binding.mapSpans f)
  | assign name value span => assign name (value.mapSpans f) (f span)
  | overPack pack count binding body span =>
    overPack (pack.mapSpans f) (count.mapSpans f) binding (body.mapSpans f) (f span)
  | expression value => expression (value.mapSpans f)

/-! ## The sections of a rake -/

/-- A tine with a function applied to all its spans. -/
def TineDecl.mapSpans (f : Span → Span) (d : TineDecl) : TineDecl :=
  ⟨d.tine.mapSpans f, d.guard.mapSpans f, f d.span⟩

/-- The guard of a through block with a function applied to all its spans. -/
def ThroughGuard.mapSpans (f : Span → Span) : ThroughGuard → ThroughGuard
  | tine ref => tine (ref.mapSpans f)
  | predicate guard => predicate (guard.mapSpans f)

/-- A fallback with a function applied to all its spans. -/
def Fallback.mapSpans (f : Span → Span) : Fallback → Fallback
  | scalar literal => scalar (literal.mapSpans f)
  | number value span => number value (f span)
  | bool value span => bool value (f span)

/-- A through block with a function applied to all its spans. -/
def ThroughBlock.mapSpans (f : Span → Span) (b : ThroughBlock) : ThroughBlock :=
  ⟨b.guard.mapSpans f, b.fallback.map (Fallback.mapSpans f), b.setup.map (LetBinding.mapSpans f),
    b.value.mapSpans f, b.binding, f b.span⟩

/-- The target of a sweep arm with a function applied to its span. -/
def SweepTarget.mapSpans (f : Span → Span) : SweepTarget → SweepTarget
  | tine ref => tine (ref.mapSpans f)
  | wildcard span => wildcard (f span)

/-- An arm of a sweep with a function applied to all its spans. -/
def SweepArm.mapSpans (f : Span → Span) (a : SweepArm) : SweepArm :=
  ⟨a.target.mapSpans f, a.value.mapSpans f, f a.span⟩

/-- A sweep with a function applied to all its spans. -/
def SweepBlock.mapSpans (f : Span → Span) (b : SweepBlock) : SweepBlock :=
  ⟨b.arms.map (SweepArm.mapSpans f), b.binding, f b.span⟩

/-! ## Definitions -/

/-- The results of a routine with a function applied to all their spans. -/
def ResultSpec.mapSpans (f : Span → Span) : ResultSpec → ResultSpec
  | single name type span => single name (type.map (DataType.mapSpans f)) (f span)
  | tuple names span => tuple names (f span)

/-- A field of a record with a function applied to all its spans. -/
def FieldDef.mapSpans (f : Span → Span) (d : FieldDef) : FieldDef :=
  ⟨d.name, d.type.mapSpans f, f d.span⟩

/-- A record with a function applied to all its spans. -/
def RecordDef.mapSpans (f : Span → Span) (r : RecordDef) : RecordDef :=
  ⟨r.name, r.fields.map (FieldDef.mapSpans f), f r.span⟩

/-- An alias of a type with a function applied to all its spans. -/
def TypeAlias.mapSpans (f : Span → Span) (a : TypeAlias) : TypeAlias :=
  ⟨a.name, a.aliased.mapSpans f, f a.span⟩

/-- A routine with a function applied to all its spans. -/
def Routine.mapSpans (f : Span → Span) (r : Routine) : Routine :=
  ⟨r.name, r.params.map (Parameter.mapSpans f), r.result.mapSpans f,
    r.body.map (Statement.mapSpans f), f r.span⟩

/-- A rake with a function applied to all its spans. -/
def RakeDef.mapSpans (f : Span → Span) (r : RakeDef) : RakeDef :=
  ⟨r.name, r.params.map (Parameter.mapSpans f), r.result.mapSpans f,
    r.setup.map (LetBinding.mapSpans f), r.tines.map (TineDecl.mapSpans f),
    r.throughs.map (ThroughBlock.mapSpans f), r.sweep.mapSpans f, f r.span⟩

/-- The definition with `f` applied to all spans. -/
def Definition.mapSpans (f : Span → Span) : Definition → Definition
  | stack record => stack (record.mapSpans f)
  | single record => single (record.mapSpans f)
  | type body => type (body.mapSpans f)
  | crunch routine => crunch (routine.mapSpans f)
  | rake body => rake (body.mapSpans f)
  | run routine => run (routine.mapSpans f)

/-- The file with `f` applied to all spans. -/
def SourceFile.mapSpans (f : Span → Span) (s : SourceFile) : SourceFile :=
  ⟨s.definitions.map (Definition.mapSpans f), f s.span⟩

/-- The fault with `f` applied to the span where it shows. -/
def Fault.mapSpans (f : Span → Span) : Fault → Fault
  | unrecognized char span => unrecognized char (f span)
  | unclosedScalar span => unclosedScalar (f span)
  | unexpected expected found span => unexpected expected found (f span)
  | structural construct message span => structural construct message (f span)
  | numeral lexeme span => numeral lexeme (f span)
  | unresolvedOperator operator span => unresolvedOperator operator (f span)
  | unreadable reason => unreadable reason

/-! ## All spans at the start of the text -/

/-- A type with all spans at the start of the text has no spans. -/
lemma DataType.mapSpans_origin : ∀ t : DataType, t.mapSpans (fun _ => .origin) = t.withoutSpans
  | lane .. | rack .. | stack .. | single .. | pack .. | mask _ | unit _ => by
    simp [mapSpans, withoutSpans]
  | function params result _ => by
    simp only [mapSpans, withoutSpans, result.mapSpans_origin,
      List.map_congr_left fun p (_ : p ∈ params) => p.mapSpans_origin]
  | tuple items _ => by
    simp only [mapSpans, withoutSpans,
      List.map_congr_left fun t (_ : t ∈ items) => t.mapSpans_origin]

/-- As functions: types with all spans at the start of the text have no spans. -/
@[simp] lemma DataType.mapSpans_origin' :
    DataType.mapSpans (fun _ => .origin) = DataType.withoutSpans :=
  funext DataType.mapSpans_origin

/-- Scalar literals with all spans at the start of the text have no spans. -/
@[simp] lemma ScalarLiteral.mapSpans_origin :
    ScalarLiteral.mapSpans (fun _ => .origin) = ScalarLiteral.withoutSpans := rfl

/-- Parameters with all spans at the start of the text have no spans. -/
@[simp] lemma Parameter.mapSpans_origin :
    Parameter.mapSpans (fun _ => .origin) = Parameter.withoutSpans := by
  funext p
  cases p <;> simp [mapSpans, withoutSpans]

mutual

/-- An expression with all spans at the start of the text has no spans. -/
lemma Expression.mapSpans_origin :
    ∀ e : Expression, e.mapSpans (fun _ => .origin) = e.withoutSpans
  | .binary _ lhs rhs _ => by
    simp only [Expression.mapSpans, Expression.withoutSpans, lhs.mapSpans_origin,
      rhs.mapSpans_origin]
  | .unary _ e _ | .field e _ _ | .reduce _ e _ | .scan _ e _ | .shuffle e _ _ | .paren e _ => by
    simp only [Expression.mapSpans, Expression.withoutSpans, e.mapSpans_origin]
  | .call _ es _ | .tuple es _ => by
    simp only [Expression.mapSpans, Expression.withoutSpans,
      List.map_congr_left fun e (_ : e ∈ es) => e.mapSpans_origin]
  | .record _ inits _ => by
    simp only [Expression.mapSpans, Expression.withoutSpans,
      List.map_congr_left fun i (_ : i ∈ inits) => i.mapSpans_origin]
  | .lambda _ body _ => by
    simp only [Expression.mapSpans, Expression.withoutSpans, body.mapSpans_origin,
      Parameter.mapSpans_origin]
  | .letIn _ value body _ => by
    simp only [Expression.mapSpans, Expression.withoutSpans, value.mapSpans_origin,
      body.mapSpans_origin]
  | .scalar _ | .ident .. | .number .. | .bool .. | .laneIndex _ | .lanes _ | .unit _ => by
    simp only [Expression.mapSpans, Expression.withoutSpans, ScalarLiteral.mapSpans_origin]

/-- A field of a record expression with all spans at the start of the text has no spans. -/
lemma FieldInit.mapSpans_origin :
    ∀ i : FieldInit, i.mapSpans (fun _ => .origin) = i.withoutSpans
  | .mk _ value _ => by
    simp only [FieldInit.mapSpans, FieldInit.withoutSpans, value.mapSpans_origin]

end

/-- As functions: expressions with all spans at the start of the text have no spans. -/
@[simp] lemma Expression.mapSpans_origin' :
    Expression.mapSpans (fun _ => .origin) = Expression.withoutSpans :=
  funext Expression.mapSpans_origin

/-- Predicates with all spans at the start of the text have no spans. -/
@[simp] lemma Predicate.mapSpans_origin :
    Predicate.mapSpans (fun _ => .origin) = Predicate.withoutSpans := by
  funext p
  induction p <;> simp_all [mapSpans, withoutSpans, TineRef.mapSpans]

/-- Bindings with all spans at the start of the text have no spans. -/
@[simp] lemma LetBinding.mapSpans_origin :
    LetBinding.mapSpans (fun _ => .origin) = LetBinding.withoutSpans := by
  funext b
  simp [mapSpans, withoutSpans]

/-- Statements with all spans at the start of the text have no spans. -/
@[simp] lemma Statement.mapSpans_origin :
    Statement.mapSpans (fun _ => .origin) = Statement.withoutSpans := by
  funext s
  cases s <;> simp [mapSpans, withoutSpans]

/-- References to tines with all spans at the start of the text have no spans. -/
@[simp] lemma TineRef.mapSpans_origin :
    TineRef.mapSpans (fun _ => .origin) = TineRef.withoutSpans := rfl

/-- Tines with all spans at the start of the text have no spans. -/
@[simp] lemma TineDecl.mapSpans_origin :
    TineDecl.mapSpans (fun _ => .origin) = TineDecl.withoutSpans := by
  funext d
  simp [mapSpans, withoutSpans]

/-- Fallbacks with all spans at the start of the text have no spans. -/
@[simp] lemma Fallback.mapSpans_origin :
    Fallback.mapSpans (fun _ => .origin) = Fallback.withoutSpans := by
  funext v
  cases v <;> simp [mapSpans, withoutSpans]

/-- Through blocks with all spans at the start of the text have no spans. -/
@[simp] lemma ThroughBlock.mapSpans_origin :
    ThroughBlock.mapSpans (fun _ => .origin) = ThroughBlock.withoutSpans := by
  funext b
  rcases b with ⟨guard, fallback, setup, value, binding, span⟩
  cases guard <;> simp [mapSpans, withoutSpans, ThroughGuard.mapSpans, ThroughGuard.withoutSpans]

/-- Arms of sweeps with all spans at the start of the text have no spans. -/
@[simp] lemma SweepArm.mapSpans_origin :
    SweepArm.mapSpans (fun _ => .origin) = SweepArm.withoutSpans := by
  funext a
  rcases a with ⟨target, value, span⟩
  cases target <;> simp [mapSpans, withoutSpans, SweepTarget.mapSpans, SweepTarget.withoutSpans]

/-- Results with all spans at the start of the text have no spans. -/
@[simp] lemma ResultSpec.mapSpans_origin :
    ResultSpec.mapSpans (fun _ => .origin) = ResultSpec.withoutSpans := by
  funext r
  cases r <;> simp [mapSpans, withoutSpans]

/-- Fields of records with all spans at the start of the text have no spans. -/
@[simp] lemma FieldDef.mapSpans_origin :
    FieldDef.mapSpans (fun _ => .origin) = FieldDef.withoutSpans := by
  funext d
  simp [mapSpans, withoutSpans]

/-- All spans at the start of the text is no spans at all. -/
@[simp] theorem Definition.mapSpans_origin :
    Definition.mapSpans (fun _ => .origin) = Definition.withoutSpans := by
  funext d
  cases d <;> simp [mapSpans, withoutSpans, RecordDef.mapSpans, RecordDef.withoutSpans,
    TypeAlias.mapSpans, TypeAlias.withoutSpans, Routine.mapSpans, Routine.withoutSpans,
    RakeDef.mapSpans, RakeDef.withoutSpans, SweepBlock.mapSpans, SweepBlock.withoutSpans]

/-! ## All spans where they are -/

/-- A type stays as it is if no span of it changes. -/
lemma DataType.mapSpans_id : ∀ t : DataType, t.mapSpans id = t
  | lane .. | rack .. | stack .. | single .. | pack .. | mask _ | unit _ => by
    simp only [mapSpans, id_eq]
  | function params result _ => by
    simp only [mapSpans, result.mapSpans_id, id_eq,
      List.map_congr_left fun p (_ : p ∈ params) => p.mapSpans_id, List.map_id']
  | tuple items _ => by
    simp only [mapSpans, id_eq, List.map_congr_left fun t (_ : t ∈ items) => t.mapSpans_id,
      List.map_id']

/-- As functions: types stay as they are if no span of them changes. -/
@[simp] lemma DataType.mapSpans_id' : DataType.mapSpans id = id := funext DataType.mapSpans_id

/-- Scalar literals stay as they are if no span of them changes. -/
@[simp] lemma ScalarLiteral.mapSpans_id : ScalarLiteral.mapSpans id = id := rfl

/-- Parameters stay as they are if no span of them changes. -/
@[simp] lemma Parameter.mapSpans_id : Parameter.mapSpans id = id := by
  funext p
  cases p <;> simp [mapSpans]

mutual

/-- An expression stays as it is if no span of it changes. -/
lemma Expression.mapSpans_id : ∀ e : Expression, e.mapSpans id = e
  | .binary _ lhs rhs _ => by
    simp only [Expression.mapSpans, lhs.mapSpans_id, rhs.mapSpans_id, id_eq]
  | .unary _ e _ | .field e _ _ | .reduce _ e _ | .scan _ e _ | .shuffle e _ _ | .paren e _ => by
    simp only [Expression.mapSpans, e.mapSpans_id, id_eq]
  | .call _ es _ | .tuple es _ => by
    simp only [Expression.mapSpans, id_eq,
      List.map_congr_left fun e (_ : e ∈ es) => e.mapSpans_id, List.map_id']
  | .record _ inits _ => by
    simp only [Expression.mapSpans, id_eq,
      List.map_congr_left fun i (_ : i ∈ inits) => i.mapSpans_id, List.map_id']
  | .lambda _ body _ => by
    simp only [Expression.mapSpans, body.mapSpans_id, Parameter.mapSpans_id, List.map_id, id_eq]
  | .letIn _ value body _ => by
    simp only [Expression.mapSpans, value.mapSpans_id, body.mapSpans_id, id_eq]
  | .scalar _ | .ident .. | .number .. | .bool .. | .laneIndex _ | .lanes _ | .unit _ => by
    simp only [Expression.mapSpans, ScalarLiteral.mapSpans_id, id_eq]

/-- A field of a record expression stays as it is if no span of it changes. -/
lemma FieldInit.mapSpans_id : ∀ i : FieldInit, i.mapSpans id = i
  | .mk _ value _ => by simp only [FieldInit.mapSpans, value.mapSpans_id, id_eq]

end

/-- As functions: expressions stay as they are if no span of them changes. -/
@[simp] lemma Expression.mapSpans_id' : Expression.mapSpans id = id :=
  funext Expression.mapSpans_id

/-- Predicates stay as they are if no span of them changes. -/
@[simp] lemma Predicate.mapSpans_id : Predicate.mapSpans id = id := by
  funext p
  induction p <;> simp_all [mapSpans, TineRef.mapSpans]

/-- Bindings stay as they are if no span of them changes. -/
@[simp] lemma LetBinding.mapSpans_id : LetBinding.mapSpans id = id := by
  funext b
  simp [mapSpans]

/-- Statements stay as they are if no span of them changes. -/
@[simp] lemma Statement.mapSpans_id : Statement.mapSpans id = id := by
  funext s
  cases s <;> simp [mapSpans]

/-- Tines stay as they are if no span of them changes. -/
@[simp] lemma TineDecl.mapSpans_id : TineDecl.mapSpans id = id := by
  funext d
  simp [mapSpans, TineRef.mapSpans]

/-- Through blocks stay as they are if no span of them changes. -/
@[simp] lemma ThroughBlock.mapSpans_id : ThroughBlock.mapSpans id = id := by
  have hfallback : Fallback.mapSpans id = id := by
    funext v
    cases v <;> simp [Fallback.mapSpans]
  funext b
  rcases b with ⟨guard, fallback, setup, value, binding, span⟩
  cases guard <;> simp [mapSpans, ThroughGuard.mapSpans, TineRef.mapSpans, hfallback]

/-- Sweeps stay as they are if no span of them changes. -/
@[simp] lemma SweepBlock.mapSpans_id : SweepBlock.mapSpans id = id := by
  have harm : SweepArm.mapSpans id = id := by
    funext a
    rcases a with ⟨target, value, span⟩
    cases target <;> simp [SweepArm.mapSpans, SweepTarget.mapSpans, TineRef.mapSpans]
  funext b
  simp [mapSpans, harm]

/-- Records stay as they are if no span of them changes. -/
@[simp] lemma RecordDef.mapSpans_id : RecordDef.mapSpans id = id := by
  have hfield : FieldDef.mapSpans id = id := by
    funext d
    simp [FieldDef.mapSpans]
  funext r
  simp [mapSpans, hfield]

/-- Results stay as they are if no span of them changes. -/
@[simp] lemma ResultSpec.mapSpans_id : ResultSpec.mapSpans id = id := by
  funext r
  cases r <;> simp [mapSpans]

/-- A definition with all spans where they are is the same. -/
@[simp] lemma Definition.mapSpans_id : Definition.mapSpans id = id := by
  funext d
  cases d <;> simp [mapSpans, TypeAlias.mapSpans, Routine.mapSpans, RakeDef.mapSpans]

/-- A fault stays as it is if its span does not change. -/
@[simp] lemma Fault.mapSpans_id : Fault.mapSpans id = id := by
  funext fault
  cases fault <;> rfl

end RakeLang
