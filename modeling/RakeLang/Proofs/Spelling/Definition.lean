import RakeLang.Proofs.Spelling.Expression
import RakeLang.SourceFile.Basic

/-!
# The spelling of source files

The spelling of predicates, statements, the sections of a rake and definitions.  A source file is
spelled by its definitions, one after the other; nothing stands between them.

## Main definitions

* `RakeLang.Predicate.spelling`, `RakeLang.Statement.spelling` — the spelling of predicates and
  statements.
* `RakeLang.Predicate.plainSpelling` — the spelling of a predicate where no operand of a
  comparison is taken for more than an operand.
* `RakeLang.TineDecl.spelling`, `RakeLang.ThroughBlock.spelling`, `RakeLang.SweepBlock.spelling` —
  the spelling of the sections of a rake.
* `RakeLang.Definition.spelling`, `RakeLang.SourceFile.spelling` — the spelling of definitions and
  of a file.
-/

set_option relaxedAutoImplicit false
set_option autoImplicit false

namespace RakeLang

open Spelling

/-! ## Predicates -/

/-- The name of a tine stands behind a number sign. -/
def TineRef.spelling (tine : TineRef) : Language Token :=
  token fun t =>
    t.kind = .tineRef ∧ String.ofList (t.lexeme.toList.dropWhile (· == '#')) = tine.name

namespace Spelling

/-- The sign or the word for "not". -/
def notSign : Language Token := token fun t => t.kind = .symbol .bang ∨ t.kind = .keyword .not

/-- The sign or the word for "and". -/
def andSign : Language Token := token fun t => t.kind = .symbol .ampAmp ∨ t.kind = .keyword .and

/-- The sign or the word for "or". -/
def orSign : Language Token := token fun t => t.kind = .symbol .pipePipe ∨ t.kind = .keyword .or

end Spelling

/-- The spelling of a predicate. -/
def Predicate.spelling : Predicate → Language Token
  | or lhs rhs _ => lhs.spelling * (orSign * rhs.spelling)
  | and lhs rhs _ => lhs.spelling * (andSign * rhs.spelling)
  | not operand _ => notSign * operand.spelling
  | compare op lhs rhs _ => lhs.spelling * (op.spelling * rhs.spelling)
  | tineTest tine => tine.spelling
  | group inner _ => sign .lParen * (inner.spelling * sign .rParen)
  | const value _ => truth value

namespace Predicate

/-- The spelling of a predicate where no operand of a comparison is taken for more than an operand:
the left one begins with no negation, which would be that of the comparison, and the right one of
`is` does not begin with the word `not`, which would be that of `is not`. -/
def plainSpelling : Predicate → Language Token
  | or lhs rhs _ => lhs.plainSpelling * (orSign * rhs.plainSpelling)
  | and lhs rhs _ => lhs.plainSpelling * (andSign * rhs.plainSpelling)
  | not operand _ => notSign * operand.plainSpelling
  | compare op lhs rhs _ =>
    notBeginning [.symbol .bang, .keyword .not] lhs.spelling * (op.spelling
      * notBeginning (if op = .is then [.keyword .not] else []) rhs.spelling)
  | tineTest tine => tine.spelling
  | group inner _ => sign .lParen * (inner.plainSpelling * sign .rParen)
  | const value _ => truth value

/-- A plain spelling is a spelling.

**Proof sketch.** Induction on the predicate.  Only at a comparison do the two differ: a plain
spelling asks more of the operands. -/
lemma mem_spelling_of_plain {p : Predicate} :
    ∀ {ts : List Token}, ts ∈ p.plainSpelling → ts ∈ p.spelling := by
  induction p with
  | or lhs rhs span ihl ihr | and lhs rhs span ihl ihr =>
    intro ts hts
    obtain ⟨us, hus, _, hws, rfl⟩ := Language.mem_mul.1 hts
    obtain ⟨t, vs, ht, hvs, rfl⟩ := mem_token_mul.1 hws
    exact Language.append_mem_mul (ihl hus) (cons_mem_token_mul.2 ⟨ht, ihr hvs⟩)
  | not operand span ih =>
    intro ts hts
    obtain ⟨t, us, ht, hus, rfl⟩ := mem_token_mul.1 hts
    exact cons_mem_token_mul.2 ⟨ht, ih hus⟩
  | compare op lhs rhs span =>
    intro ts hts
    obtain ⟨us, ⟨hus, -⟩, _, hws, rfl⟩ := Language.mem_mul.1 hts
    obtain ⟨os, hos, vs, ⟨hvs, -⟩, rfl⟩ := Language.mem_mul.1 hws
    exact Language.append_mem_mul hus (Language.append_mem_mul hos hvs)
  | group inner span ih =>
    intro ts hts
    obtain ⟨lp, _, hlp, hws, rfl⟩ := mem_token_mul.1 hts
    obtain ⟨us, hus, _, ⟨rp, hrp, rfl⟩, rfl⟩ := Language.mem_mul.1 hws
    exact cons_mem_token_mul.2 ⟨hlp, append_singleton_mem (ih hus) hrp⟩
  | tineTest | const => exact fun hts => hts

end Predicate

/-! ## Statements -/

namespace Spelling

/-- The type of a binding stands behind a colon. -/
def ascription : Option DataType → Language Token
  | none => 1
  | some type => sign .colon * type.spelling

end Spelling

/-- The spelling of a binding. -/
def LetBinding.spelling (b : LetBinding) : Language Token :=
  keyword .letKw * (word .ident b.name * (ascription b.type * (sign .equal * b.value.spelling)))

/-- The spelling of a statement. -/
def Statement.spelling : Statement → Language Token
  | letBinding binding => binding.spelling
  | assign name value _ => word .ident name * (sign .leftArrow * value.spelling)
  | overPack pack count binding body _ =>
    keyword .overKw * (pack.spelling * (sign .comma * (count.spelling * (sign .pipeForward
      * (word .ident binding * (sign .colon * body.spelling))))))
  | expression value => value.spelling

/-! ## Sections of a rake -/

/-- The spelling of a tine and its guard. -/
def TineDecl.spelling (d : TineDecl) : Language Token :=
  sign .pipe * (d.tine.spelling * (sign .define
    * (sign .lParen * (d.guard.spelling * sign .rParen))))

/-- The spelling of the guard of a through block. -/
def ThroughGuard.spelling : ThroughGuard → Language Token
  | tine ref => ref.spelling
  | predicate guard => sign .lParen * (guard.spelling * sign .rParen)

/-- The spelling of a constant. -/
def Fallback.spelling : Fallback → Language Token
  | scalar literal => literal.spelling
  | number value _ => value.spelling
  | bool value _ => truth value

namespace Spelling

/-- The constant of a through block stands behind the word `else`. -/
def alternative : Option Fallback → Language Token
  | none => 1
  | some value => keyword .elseKw * value.spelling

end Spelling

/-- The spelling of a through block. -/
def ThroughBlock.spelling (b : ThroughBlock) : Language Token :=
  keyword .through * (b.guard.spelling * (alternative b.fallback * (sign .colon
    * ((b.setup.map LetBinding.spelling).prod * b.value.spelling
      * (sign .arrow * word .ident b.binding)))))

/-- The spelling of the target of an arm. -/
def SweepTarget.spelling : SweepTarget → Language Token
  | tine ref => ref.spelling
  | wildcard _ => word .ident "_"

/-- The spelling of an arm. -/
def SweepArm.spelling (a : SweepArm) : Language Token :=
  sign .pipe * (a.target.spelling * (sign .arrow * a.value.spelling))

/-- The spelling of a sweep. -/
def SweepBlock.spelling (b : SweepBlock) : Language Token :=
  keyword .sweep * (sign .colon * ((b.arms.map SweepArm.spelling).prod
    * (sign .arrow * word .ident b.binding)))

/-! ## Definitions -/

/-- The spelling of the result of a routine. -/
def ResultSpec.spelling : ResultSpec → Language Token
  | single name none _ => word .ident name
  | single name (some type) _ =>
    sign .lParen * (word .ident name * (sign .colon * (type.spelling * sign .rParen)))
  | tuple names _ => sign .lParen * (separated (names.map (word .ident)) * sign .rParen)

namespace Spelling

/-- The spelling of the parameters and the result of a routine. -/
def signature (params : List Parameter) (result : ResultSpec) : Language Token :=
  (params.map Parameter.spelling).prod * (sign .arrow * (result.spelling * sign .colon))

end Spelling

/-- The spelling of a field of a record. -/
def FieldDef.spelling (f : FieldDef) : Language Token :=
  word .ident f.name * (sign .colon * f.type.spelling)

/-- The spelling of a record behind the word that says how it is seen. -/
def RecordDef.spelling (r : RecordDef) : Language Token :=
  word .typeIdent r.name * (sign .lBrace
    * (separated (r.fields.map FieldDef.spelling) * sign .rBrace))

/-- The spelling of a name for a type behind its first word. -/
def TypeAlias.spelling (a : TypeAlias) : Language Token :=
  word .typeIdent a.name * (sign .equal * a.aliased.spelling)

/-- The spelling of a routine behind its first word. -/
def Routine.spelling (r : Routine) : Language Token :=
  word .ident r.name * (signature r.params r.result * (r.body.map Statement.spelling).prod)

/-- The spelling of a rake behind its first word. -/
def RakeDef.spelling (r : RakeDef) : Language Token :=
  word .ident r.name * (signature r.params r.result
    * ((r.setup.map LetBinding.spelling).prod * ((r.tines.map TineDecl.spelling).prod
      * ((r.throughs.map ThroughBlock.spelling).prod * r.sweep.spelling))))

/-- The spelling of a definition. -/
def Definition.spelling : Definition → Language Token
  | stack record => keyword .stack * record.spelling
  | single record => keyword .single * record.spelling
  | type body => keyword .type * body.spelling
  | crunch routine => keyword .crunch * routine.spelling
  | rake body => keyword .rake * body.spelling
  | run routine => keyword .run * routine.spelling

/-- The spelling of a file: its definitions, one after the other. -/
def SourceFile.spelling (f : SourceFile) : Language Token :=
  (f.definitions.map Definition.spelling).prod

end RakeLang
