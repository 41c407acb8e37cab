import Mathlib.Logic.Relation
import RakeLang.Proofs.Spelling.Placed

/-!
# The parts of a tree at their place

A definition is made of parts, each with a span: fields, types, parameters, statements, expressions,
predicates and the sections of a rake.  The parts of a tree that is spelled at its place stand in a
row: the tokens of a part lie among those of the part around it, and the parts that stand side by
side follow each other, in the order of the fields of the tree.

## Main definitions

* `RakeLang.Node` — a part of a source file with a span.
* `RakeLang.Node.children` — the parts right inside a part, in the order of its fields.
* `RakeLang.Node.Row` — parts that are spelled one behind the other.
* `RakeLang.Node.Has` — a part has itself and all parts inside it.

## Main results

* `RakeLang.Node.placed_le_rows` — what spells a part at its place spells its children in a row.
* `RakeLang.Node.Row.inside`, `RakeLang.Node.Row.ordered` — the spans of parts in a row.
* `RakeLang.Node.Has.exists_placed` — the tokens of a part lie among those of the part around it.
-/

set_option relaxedAutoImplicit false
set_option autoImplicit false

namespace RakeLang

open Spelling Token

/-- A part of a source file with a span.  The body of a definition is the definition itself, whose
span it has. -/
inductive Node where
  | definition (d : Definition)
  | fieldDef (f : FieldDef)
  | dataType (t : DataType)
  | parameter (p : Parameter)
  | resultSpec (r : ResultSpec)
  | statement (s : Statement)
  | letBinding (b : LetBinding)
  | expression (e : Expression)
  | fieldInit (i : FieldInit)
  | predicate (p : Predicate)
  | tineRef (r : TineRef)
  | tineDecl (d : TineDecl)
  | throughGuard (g : ThroughGuard)
  | throughBlock (b : ThroughBlock)
  | sweepTarget (t : SweepTarget)
  | sweepArm (a : SweepArm)
  | sweepBlock (b : SweepBlock)

namespace Node

/-- Where a part stands. -/
def span : Node → Span
  | definition d => d.span
  | fieldDef f => f.span
  | dataType t => t.span
  | parameter p => p.span
  | resultSpec r => r.span
  | statement s => s.span
  | letBinding b => b.span
  | expression e => e.span
  | fieldInit (.mk _ _ span) => span
  | predicate p => p.span
  | tineRef r => r.span
  | tineDecl d => d.span
  | throughGuard g => g.span
  | throughBlock b => b.span
  | sweepTarget t => t.span
  | sweepArm a => a.span
  | sweepBlock b => b.span

/-- The spelling of a part.  The guard of a through block is spelled without the parentheses around
a predicate, which are no part of it. -/
def spelling : Node → Language Token
  | definition d => d.spelling
  | fieldDef f => f.spelling
  | dataType t => t.spelling
  | parameter p => p.spelling
  | resultSpec r => r.spelling
  | statement s => s.spelling
  | letBinding b => b.spelling
  | expression e => e.spelling
  | fieldInit i => i.spelling
  | predicate p => p.spelling
  | tineRef r => r.spelling
  | tineDecl d => d.spelling
  | throughGuard (.tine ref) => ref.spelling
  | throughGuard (.predicate guard) => guard.spelling
  | throughBlock b => b.spelling
  | sweepTarget t => t.spelling
  | sweepArm a => a.spelling
  | sweepBlock b => b.spelling

/-- The placed spelling of a part. -/
def placed : Node → Language Token
  | definition d => d.placed
  | fieldDef f => f.placed
  | dataType t => t.placed
  | parameter p => p.placed
  | resultSpec r => r.placed
  | statement s => s.placed
  | letBinding b => b.placed
  | expression e => e.placed
  | fieldInit i => i.placed
  | predicate p => p.placed
  | tineRef r => r.placed
  | tineDecl d => d.placed
  | throughGuard g => g.placed
  | throughBlock b => b.placed
  | sweepTarget t => t.placed
  | sweepArm a => a.placed
  | sweepBlock b => b.placed

/-- A placed spelling of a part is a spelling of it.

**Proof sketch.** By cases on the kind of the part, each of which has the inclusion as a lemma of
its own.  A predicate has spellings in which tokens are joined too, so its plain ones are only some
of them. -/
lemma placed_le (n : Node) : n.placed ≤ n.spelling := by
  cases n with
  | definition d => exact d.placed_le
  | fieldDef f => exact f.placed_le
  | dataType t => exact t.placed_le
  | parameter p => exact p.placed_le
  | resultSpec r => exact r.placed_le
  | statement s => exact s.placed_le
  | letBinding b => exact b.placed_le
  | expression e => exact e.placed_le
  | fieldInit i => exact i.placed_le
  | predicate p => exact p.placed_le.trans fun _ => Predicate.mem_spelling_of_plain
  | tineRef r => exact covering_le
  | tineDecl d => exact d.placed_le
  | throughGuard g =>
    cases g with
    | tine ref => exact covering_le
    | predicate guard => exact guard.placed_le.trans fun _ => Predicate.mem_spelling_of_plain
  | throughBlock b => exact b.placed_le
  | sweepTarget t => cases t <;> exact covering_le
  | sweepArm a => exact a.placed_le
  | sweepBlock b => exact b.placed_le

/-- The span of a part covers what it is spelled by at its place.

**Proof sketch.** A placed spelling is one of a span that covers it, for every part but for
those that share the span of a part within them, such as an expression that stands as a statement.
-/
lemma covers_of_placed {ts : List Token} (n : Node) (h : ts ∈ n.placed) :
    InOrder ts → n.span.Covers ts := by
  cases n with
  | definition d => cases d <;> exact h.2
  | dataType t => exact t.covers_of_placed h
  | parameter p => rcases p with ⟨_, _ | _, _⟩ | ⟨_, _ | _, _⟩ <;> exact h.2
  | resultSpec r => rcases r with ⟨_, _ | _, _⟩ | _ <;> exact h.2
  | statement s =>
    cases s with
    | expression value => exact value.covers_of_placed h
    | letBinding | assign | overPack => exact h.2
  | expression e => exact e.covers_of_placed h
  | fieldInit i =>
    obtain ⟨name, value, span⟩ := i
    rw [placed, FieldInit.placed] at h
    exact h.2
  | predicate p => exact p.covers_of_placed h
  | throughGuard g =>
    cases g with
    | tine ref => exact h.2
    | predicate guard => exact guard.covers_of_placed h
  | sweepTarget t => cases t <;> exact h.2
  | fieldDef | letBinding | tineRef | tineDecl | throughBlock | sweepArm | sweepBlock => exact h.2

/-! ## Parts inside a part -/

/-- The parts right inside a part, in the order of its fields. -/
def children : Node → List Node
  | definition (.stack record) | definition (.single record) => record.fields.map fieldDef
  | definition (.type body) => [dataType body.aliased]
  | definition (.crunch routine) | definition (.run routine) =>
    routine.params.map parameter ++ resultSpec routine.result :: routine.body.map statement
  | definition (.rake body) =>
    body.params.map parameter ++ resultSpec body.result :: (body.setup.map letBinding
      ++ (body.tines.map tineDecl ++ (body.throughs.map throughBlock ++ [sweepBlock body.sweep])))
  | fieldDef f => [dataType f.type]
  | dataType (.function params result _) => params.map dataType ++ [dataType result]
  | dataType (.tuple items _) => items.map dataType
  | dataType _ => []
  | parameter (.rack _ type _) => type.toList.map dataType
  | parameter (.scalar literal type _) =>
    expression (.scalar literal) :: type.toList.map dataType
  | resultSpec (.single _ type _) => type.toList.map dataType
  | resultSpec (.tuple ..) => []
  | statement (.letBinding binding) => [letBinding binding]
  | statement (.assign _ value _) => [expression value]
  | statement (.overPack pack count _ body _) =>
    [expression pack, expression (.scalar count), expression body]
  | statement (.expression value) => [expression value]
  | letBinding b => b.type.toList.map dataType ++ [expression b.value]
  | expression (.binary _ lhs rhs _) => [expression lhs, expression rhs]
  | expression (.unary _ operand _) => [expression operand]
  | expression (.call _ args _) => args.map expression
  | expression (.field base _ _) => [expression base]
  | expression (.record _ inits _) => inits.map fieldInit
  | expression (.reduce _ operand _) | expression (.scan _ operand _)
  | expression (.shuffle operand _ _) => [expression operand]
  | expression (.lambda params body _) => params.map parameter ++ [expression body]
  | expression (.letIn _ value body _) => [expression value, expression body]
  | expression (.paren inner _) => [expression inner]
  | expression (.tuple items _) => items.map expression
  | expression _ => []
  | fieldInit (.mk _ value _) => [expression value]
  | predicate (.or lhs rhs _) | predicate (.and lhs rhs _) => [predicate lhs, predicate rhs]
  | predicate (.not operand _) => [predicate operand]
  | predicate (.compare _ lhs rhs _) => [expression lhs, expression rhs]
  | predicate (.tineTest tine) => [tineRef tine]
  | predicate (.group inner _) => [predicate inner]
  | predicate (.const ..) => []
  | tineRef _ => []
  | tineDecl d => [tineRef d.tine, predicate d.guard]
  | throughGuard (.tine ref) => [tineRef ref]
  | throughGuard (.predicate guard) => [predicate guard]
  | throughBlock b =>
    throughGuard b.guard :: (b.fallback.toList.map (fun f => expression f.toExpression)
      ++ (b.setup.map letBinding ++ [expression b.value]))
  | sweepTarget (.tine ref) => [tineRef ref]
  | sweepTarget (.wildcard _) => []
  | sweepArm a => [sweepTarget a.target, expression a.value]
  | sweepBlock b => b.arms.map sweepArm

/-- A part has itself and all parts inside it. -/
def Has : Node → Node → Prop := Relation.ReflTransGen fun n m => m ∈ n.children

/-! ## Parts in a row -/

/-- The parts are spelled at their place one behind the other, with other tokens before, between
and behind them. -/
inductive Row : List Node → List Token → Prop
  | nil (ts : List Token) : Row [] ts
  | cons {n : Node} {ns : List Node} {us after : List Token} (before : List Token)
      (h : us ∈ n.placed) (hrest : Row ns after) : Row (n :: ns) (before ++ (us ++ after))

/-- The lists of tokens that spell the parts one behind the other. -/
def rows (ns : List Node) : Language Token := {ts : List Token | Row ns ts}

section Rows

variable {n : Node} {ns ms : List Node} {ts us : List Token} {L M : Language Token}

/-- A row stays one behind other tokens. -/
lemma Row.append_left (h : Row ns us) (ts : List Token) : Row ns (ts ++ us) := by
  cases h with
  | nil => exact .nil _
  | cons before h hrest =>
    rw [← List.append_assoc]
    exact .cons _ h hrest

/-- Rows, one behind the other, are a row. -/
lemma Row.append (h : Row ns ts) (h' : Row ms us) : Row (ns ++ ms) (ts ++ us) := by
  induction h with
  | nil ts => exact h'.append_left ts
  | cons before h hrest ih =>
    rw [List.append_assoc, List.append_assoc]
    exact .cons before h ih

/-- Any tokens are a row of no parts. -/
lemma le_rows_nil : L ≤ rows [] := fun ts _ => .nil ts

/-- The tokens that spell a part at its place are a row of this part. -/
lemma le_rows_singleton : n.placed ≤ rows [n] := fun ts h => by
  have hrow := Row.cons [] h (.nil [])
  rwa [List.nil_append, List.append_nil] at hrow

/-- What spells a row and then another one spells a row of both. -/
lemma mul_le_rows (hL : L ≤ rows ns) (hM : M ≤ rows ms) : L * M ≤ rows (ns ++ ms) := by
  rintro ts hts
  obtain ⟨us, hus, vs, hvs, rfl⟩ := Language.mem_mul.1 hts
  exact (hL hus).append (hM hvs)

/-- Tokens that are no part of the row may stand in front of it. -/
lemma mul_le_rows_right (hM : M ≤ rows ms) : L * M ≤ rows ms :=
  (mul_le_rows le_rows_nil hM : L * M ≤ rows ([] ++ ms))

/-- Tokens that are no part of the row may stand behind it. -/
lemma mul_le_rows_left (hL : L ≤ rows ns) : L * M ≤ rows ns := by
  have h : L * M ≤ rows (ns ++ []) := mul_le_rows hL le_rows_nil
  rwa [List.append_nil] at h

/-- A part stands in front of a row. -/
lemma mul_le_rows_cons (hL : L ≤ rows [n]) (hM : M ≤ rows ns) : L * M ≤ rows (n :: ns) :=
  (mul_le_rows hL hM : L * M ≤ rows ([n] ++ ns))

section Lists

variable {α : Type} {F : α → Language Token} {f : α → Node} {as : List α}

/-- Parts that are spelled one behind the other are in a row. -/
lemma prod_le_rows (h : ∀ a ∈ as, F a ≤ rows [f a]) : (as.map F).prod ≤ rows (as.map f) := by
  induction as with
  | nil => exact le_rows_nil
  | cons a as ih =>
    rw [List.forall_mem_cons] at h
    simp only [List.map_cons, List.prod_cons]
    exact mul_le_rows_cons h.1 (ih h.2)

/-- Parts that are spelled with commas between them are in a row. -/
lemma separated_le_rows (h : ∀ a ∈ as, F a ≤ rows [f a]) :
    separated (as.map F) ≤ rows (as.map f) := by
  rcases as with _ | ⟨a, as⟩
  · exact le_rows_nil
  · rw [List.forall_mem_cons] at h
    simp only [List.map_cons, separated, List.map_map]
    refine mul_le_rows_cons h.1 (prod_le_rows fun b hb => ?_)
    exact mul_le_rows_right (h.2 b hb)

end Lists

end Rows

/-! ## A part and its children -/

section Children

/-- A type behind a colon is in a row. -/
lemma ascription_le_rows (type : Option DataType) :
    placedAscription type ≤ rows (type.toList.map dataType) := by
  rcases type with _ | type
  · exact le_rows_nil
  · exact mul_le_rows_right (le_rows_singleton (n := dataType type))

/-- The parameters and the results of a signature are in a row. -/
lemma signature_le_rows (params : List Parameter) (result : ResultSpec) :
    placedSignature params result ≤ rows (params.map parameter ++ [resultSpec result]) :=
  mul_le_rows (prod_le_rows fun p _ => le_rows_singleton (n := parameter p))
    (mul_le_rows_right (mul_le_rows_left (le_rows_singleton (n := resultSpec result))))

/-- The tokens of a type have its children in a row. -/
lemma dataType_le_rows (t : DataType) : t.placed ≤ rows (dataType t).children := by
  cases t with
  | function params result span =>
    rw [DataType.placed]
    refine covering_le.trans (mul_le_rows_right (mul_le_rows ?_ ?_))
    · exact separated_le_rows fun t _ => le_rows_singleton (n := dataType t)
    · exact mul_le_rows_right (mul_le_rows_right (le_rows_singleton (n := dataType result)))
  | tuple items span =>
    rw [DataType.placed]
    refine covering_le.trans (mul_le_rows_right (mul_le_rows_left ?_))
    exact separated_le_rows fun t _ => le_rows_singleton (n := dataType t)
  | lane | rack | stack | single | pack | mask | unit => exact le_rows_nil

/-- The tokens of a parameter have its children in a row. -/
lemma parameter_le_rows (p : Parameter) : p.placed ≤ rows (parameter p).children := by
  have hliteral : ∀ literal : ScalarLiteral,
      literal.placed ≤ rows [expression (.scalar literal)] := by
    intro literal
    have h := le_rows_singleton (n := expression (.scalar literal))
    rwa [placed, Expression.placed] at h
  rcases p with ⟨name, _ | type, span⟩ | ⟨literal, _ | type, span⟩
  · exact le_rows_nil
  · exact covering_le.trans (mul_le_rows_right (mul_le_rows_right (mul_le_rows_right
      (mul_le_rows_left (le_rows_singleton (n := dataType type))))))
  · exact covering_le.trans (hliteral literal)
  · refine covering_le.trans (mul_le_rows_right (mul_le_rows (hliteral literal) ?_))
    exact mul_le_rows_right (mul_le_rows_left (le_rows_singleton (n := dataType type)))

/-- The tokens of an expression have its children in a row.

**Proof sketch.** By the form of the expression: each factor of its spelling is a token, which
belongs to no child, or spells a child or a list of children. -/
lemma expression_le_rows (e : Expression) : e.placed ≤ rows (expression e).children := by
  have hself : ∀ e : Expression, e.placed ≤ rows [expression e] := fun e =>
    le_rows_singleton (n := expression e)
  cases e
  case binary op lhs rhs span =>
    rw [Expression.placed]
    exact covering_le.trans (mul_le_rows (hself lhs) (mul_le_rows_right (hself rhs)))
  case unary op operand span =>
    rw [Expression.placed]
    exact covering_le.trans (mul_le_rows_right (hself operand))
  case call name args span =>
    rw [Expression.placed]
    refine covering_le.trans (mul_le_rows_right (mul_le_rows_right (mul_le_rows_left ?_)))
    exact separated_le_rows fun a _ => hself a
  case field base name span =>
    rw [Expression.placed]
    exact covering_le.trans (mul_le_rows_left (hself base))
  case record name inits span =>
    rw [Expression.placed]
    refine covering_le.trans (mul_le_rows_right (mul_le_rows_right (mul_le_rows_left ?_)))
    exact separated_le_rows fun i _ => le_rows_singleton (n := fieldInit i)
  case reduce op operand span | scan op operand span | shuffle operand indices span =>
    rw [Expression.placed]
    exact covering_le.trans (mul_le_rows_left (hself operand))
  case lambda params body span =>
    rw [Expression.placed]
    refine covering_le.trans (mul_le_rows_right (mul_le_rows ?_ (mul_le_rows_right (hself body))))
    exact prod_le_rows fun p _ => le_rows_singleton (n := parameter p)
  case letIn name value body span =>
    rw [Expression.placed]
    exact covering_le.trans (mul_le_rows_right (mul_le_rows_right (mul_le_rows_right
      (mul_le_rows (hself value) (mul_le_rows_right (hself body))))))
  case paren inner span =>
    rw [Expression.placed]
    exact covering_le.trans (mul_le_rows_right (mul_le_rows_left (hself inner)))
  case tuple items span =>
    rw [Expression.placed]
    refine covering_le.trans (mul_le_rows_right (mul_le_rows_left ?_))
    exact separated_le_rows fun e _ => hself e
  all_goals exact le_rows_nil

/-- The tokens of a predicate have its children in a row.

**Proof sketch.** By cases on the predicate: its spelling is a product in which the children
stand in their order, with signs between them, and a row has room for any tokens between its
members. -/
lemma predicate_le_rows (p : Predicate) : p.placed ≤ rows (predicate p).children := by
  have hself : ∀ p : Predicate, p.placed ≤ rows [predicate p] := fun p =>
    le_rows_singleton (n := predicate p)
  have hoperand : ∀ (kinds : List Kind) (e : Expression),
      notBeginning kinds e.placed ≤ rows [expression e] := fun kinds e ts hts =>
    le_rows_singleton (n := expression e) hts.1
  cases p with
  | or lhs rhs span | and lhs rhs span =>
    exact covering_le.trans (mul_le_rows (hself lhs) (mul_le_rows_right (hself rhs)))
  | not operand span => exact covering_le.trans (mul_le_rows_right (hself operand))
  | compare op lhs rhs span =>
    exact covering_le.trans (mul_le_rows (hoperand _ lhs) (mul_le_rows_right (hoperand _ rhs)))
  | tineTest tine => exact le_rows_singleton (n := tineRef tine)
  | group inner span =>
    exact covering_le.trans (mul_le_rows_right (mul_le_rows_left (hself inner)))
  | const value span => exact le_rows_nil

/-- The tokens of a statement have its children in a row. -/
lemma statement_le_rows (s : Statement) : s.placed ≤ rows (statement s).children := by
  have hself : ∀ e : Expression, e.placed ≤ rows [expression e] := fun e =>
    le_rows_singleton (n := expression e)
  cases s with
  | letBinding binding => exact le_rows_singleton (n := letBinding binding)
  | assign name value span =>
    exact covering_le.trans (mul_le_rows_right (mul_le_rows_right (hself value)))
  | overPack pack count binding body span =>
    refine covering_le.trans (mul_le_rows_right (mul_le_rows (hself pack) ?_))
    have hcount := hself (.scalar count)
    rw [Expression.placed] at hcount
    refine mul_le_rows_right (mul_le_rows hcount ?_)
    exact mul_le_rows_right (mul_le_rows_right (mul_le_rows_right (hself body)))
  | expression value => exact hself value

/-- The tokens of a through block have its children in a row. -/
lemma throughBlock_le_rows (b : ThroughBlock) : b.placed ≤ rows (throughBlock b).children := by
  refine covering_le.trans (mul_le_rows_right (mul_le_rows_cons ?_
    (mul_le_rows ?_ (mul_le_rows_right (mul_le_rows_left (mul_le_rows ?_ ?_))))))
  · cases b.guard with
    | tine ref => exact le_rows_singleton (n := throughGuard (.tine ref))
    | predicate guard =>
      exact mul_le_rows_right
        (mul_le_rows_left (le_rows_singleton (n := throughGuard (.predicate guard))))
  · rcases b.fallback with _ | value
    · exact le_rows_nil
    · exact mul_le_rows_right (le_rows_singleton (n := expression value.toExpression))
  · exact prod_le_rows fun b _ => le_rows_singleton (n := letBinding b)
  · exact le_rows_singleton (n := expression b.value)

/-- The tokens of a definition have its children in a row.

**Proof sketch.** By the form of the definition: behind the words and the name, its parameters,
results and body are factors of the spelling, in this order. -/
lemma definition_le_rows (d : Definition) : d.placed ≤ rows (definition d).children := by
  have hcons : ∀ (params : List Parameter) (result : ResultSpec) (ns : List Node),
      rows (params.map parameter ++ [resultSpec result] ++ ns)
        = rows (params.map parameter ++ resultSpec result :: ns) := by
    intro params result ns
    rw [List.append_assoc, List.singleton_append]
  cases d with
  | stack record | single record =>
    refine covering_le.trans (mul_le_rows_right (mul_le_rows_right (mul_le_rows_right
      (mul_le_rows_left ?_))))
    exact separated_le_rows fun f _ => le_rows_singleton (n := fieldDef f)
  | type body =>
    exact covering_le.trans (mul_le_rows_right (mul_le_rows_right (mul_le_rows_right
      (le_rows_singleton (n := dataType body.aliased)))))
  | crunch routine | run routine =>
    rw [children, ← hcons]
    refine covering_le.trans (mul_le_rows_right (mul_le_rows_right (mul_le_rows
      (signature_le_rows _ _) ?_)))
    exact prod_le_rows fun s _ => le_rows_singleton (n := statement s)
  | rake body =>
    rw [children, ← hcons]
    refine covering_le.trans (mul_le_rows_right (mul_le_rows_right (mul_le_rows
      (signature_le_rows _ _) (mul_le_rows ?_ (mul_le_rows ?_ (mul_le_rows ?_ ?_))))))
    · exact prod_le_rows fun b _ => le_rows_singleton (n := letBinding b)
    · exact prod_le_rows fun d _ => le_rows_singleton (n := tineDecl d)
    · exact prod_le_rows fun b _ => le_rows_singleton (n := throughBlock b)
    · exact le_rows_singleton (n := sweepBlock body.sweep)

/-- What spells a part at its place spells its children at their places, in a row.

**Proof sketch.** By the kind of the part; the larger kinds have lemmas of their own above. -/
theorem placed_le_rows (n : Node) : n.placed ≤ rows n.children := by
  cases n with
  | definition d => exact definition_le_rows d
  | fieldDef f =>
    exact covering_le.trans (mul_le_rows_right (mul_le_rows_right
      (le_rows_singleton (n := dataType f.type))))
  | dataType t => exact dataType_le_rows t
  | parameter p => exact parameter_le_rows p
  | resultSpec r =>
    rcases r with ⟨name, _ | type, span⟩ | ⟨names, span⟩
    · exact le_rows_nil
    · exact covering_le.trans (mul_le_rows_right (mul_le_rows_right (mul_le_rows_right
        (mul_le_rows_left (le_rows_singleton (n := dataType type))))))
    · exact le_rows_nil
  | statement s => exact statement_le_rows s
  | letBinding b =>
    exact covering_le.trans (mul_le_rows_right (mul_le_rows_right (mul_le_rows
      (ascription_le_rows b.type)
      (mul_le_rows_right (le_rows_singleton (n := expression b.value))))))
  | expression e => exact expression_le_rows e
  | fieldInit i =>
    obtain ⟨name, value, span⟩ := i
    rw [placed, FieldInit.placed]
    exact covering_le.trans (mul_le_rows_right (mul_le_rows_right
      (le_rows_singleton (n := expression value))))
  | predicate p => exact predicate_le_rows p
  | tineRef r => exact le_rows_nil
  | tineDecl d =>
    exact covering_le.trans (mul_le_rows_right (mul_le_rows
      (le_rows_singleton (n := tineRef d.tine)) (mul_le_rows_right (mul_le_rows_right
        (mul_le_rows_left (le_rows_singleton (n := predicate d.guard)))))))
  | throughGuard g =>
    cases g with
    | tine ref => exact le_rows_singleton (n := tineRef ref)
    | predicate guard => exact le_rows_singleton (n := predicate guard)
  | throughBlock b => exact throughBlock_le_rows b
  | sweepTarget t =>
    cases t with
    | tine ref => exact le_rows_singleton (n := tineRef ref)
    | wildcard span => exact le_rows_nil
  | sweepArm a =>
    exact covering_le.trans (mul_le_rows_right (mul_le_rows
      (le_rows_singleton (n := sweepTarget a.target))
      (mul_le_rows_right (le_rows_singleton (n := expression a.value)))))
  | sweepBlock b =>
    refine covering_le.trans (mul_le_rows_right (mul_le_rows_right (mul_le_rows_left ?_)))
    exact prod_le_rows fun a _ => le_rows_singleton (n := sweepArm a)

end Children

/-! ## Spans in a row -/

section Spans

variable {n m : Node} {ns : List Node} {ts : List Token}

/-- The tokens of a part of a row lie in the row. -/
lemma Row.exists_placed (h : Row ns ts) (hm : m ∈ ns) :
    ∃ before us after, ts = before ++ (us ++ after) ∧ us ∈ m.placed := by
  induction h with
  | nil => cases hm
  | @cons n ns us after before hn hrest ih =>
    rcases List.mem_cons.1 hm with rfl | hm
    · exact ⟨before, us, after, rfl, hn⟩
    · obtain ⟨before', vs, after', rfl, hvs⟩ := ih hm
      exact ⟨before ++ (us ++ before'), vs, after', by simp, hvs⟩

/-- What covers the tokens of a row has the parts of the row inside. -/
theorem Row.inside (h : Row ns ts) (hin : InOrder ts) {s : Span} (hs : s.Covers ts) :
    ∀ m ∈ ns, s.start ≤ m.span.start ∧ m.span.stop ≤ s.stop := by
  intro m hm
  obtain ⟨before, us, after, rfl, hus⟩ := h.exists_placed hm
  obtain ⟨u, hu, v, hv, hm⟩ := m.covers_of_placed hus hin.append.2.append.1
  obtain ⟨first, hfirst, last, hlast, rfl⟩ := hs
  have hu : u ∈ before ++ (us ++ after) := by simp [List.mem_of_head? hu]
  have hv : v ∈ before ++ (us ++ after) := by simp [List.mem_of_getLast? hv]
  rw [hm]
  exact ⟨hin.head_start_le hfirst hu, hin.stop_le_getLast hlast hv⟩

/-- The parts of a row follow each other. -/
theorem Row.ordered (h : Row ns ts) (hin : InOrder ts) :
    ns.Pairwise fun m k => m.span.stop ≤ k.span.start := by
  induction h with
  | nil => exact .nil
  | @cons n ns us after before hn hrest ih =>
    refine List.pairwise_cons.2 ⟨fun m hm => ?_, ih hin.append.2.append.2⟩
    obtain ⟨before', vs, after', rfl, hvs⟩ := hrest.exists_placed hm
    obtain ⟨_, _, v, hv, hnspan⟩ := n.covers_of_placed hn hin.append.2.append.1
    obtain ⟨w, hw, _, _, hmspan⟩ := m.covers_of_placed hvs hin.append.2.append.2.append.2.append.1
    have hcross := (List.pairwise_append.1 hin.append.2.ordered).2.2 v (List.mem_of_getLast? hv) w
      (by simp [List.mem_of_head? hw])
    rw [hnspan, hmspan]
    exact hcross

/-- The tokens of a part lie among those of the part around it. -/
theorem Has.exists_placed (h : n.Has m) (hts : ts ∈ n.placed) :
    ∃ before us after, ts = before ++ (us ++ after) ∧ us ∈ m.placed := by
  induction h with
  | refl => exact ⟨[], ts, [], by simp, hts⟩
  | @tail m k _ hk ih =>
    obtain ⟨before, us, after, rfl, hus⟩ := ih
    obtain ⟨before', vs, after', rfl, hvs⟩ := (m.placed_le_rows hus).exists_placed hk
    exact ⟨before ++ before', vs, after' ++ after, by simp, hvs⟩

end Spans

end Node

end RakeLang
