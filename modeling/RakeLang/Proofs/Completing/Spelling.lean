import RakeLang.Proofs.Accepting.Trial
import RakeLang.Proofs.Completing.Leads

/-!
# Spellings without a joint

Statements follow one another with nothing between them, and so do the bindings of a rake, its
sections and the definitions of a file.  A value is read as far as it goes, so that a statement is
read from its tokens only if those behind it do not go on with its value.  The spelling of a
definition *before* a language is made of its spellings in front of the lists of this language in
which no value goes on like that.

## Main definitions

* `RakeLang.Spelling.ending` — the lists of a language that can stand behind an expression.
* `RakeLang.LetBinding.spellingBefore`, `RakeLang.Statement.spellingBefore` — a binding and a
  statement in front of what does not go on with its value.
* `RakeLang.TineDecl.plainSpelling`, `RakeLang.ThroughBlock.spellingBefore` — the sections of a
  rake, with plain guards.
* `RakeLang.Definition.spellingBefore`, `RakeLang.SourceFile.plainSpelling` — definitions and
  files.

## Main results

* `RakeLang.Definition.spellingBefore_le`, `RakeLang.SourceFile.plainSpelling_le` — these are
  spellings.
-/

set_option relaxedAutoImplicit false
set_option autoImplicit false

namespace RakeLang

open Spelling

/-! ## Statements -/

/-- The lists of a language that can stand behind an expression. -/
def Spelling.ending (K : Language Token) : Language Token :=
  {ts : List Token | ts ∈ K ∧ EndsExpression ts}

/-- What ends an expression in a language. -/
lemma Spelling.mem_ending {K : Language Token} {ts : List Token} :
    ts ∈ ending K ↔ ts ∈ K ∧ EndsExpression ts := Iff.rfl

/-- What ends an expression in a language is in the language. -/
lemma Spelling.ending_le (K : Language Token) : ending K ≤ K := fun _ hts => hts.1

/-- A binding in front of what does not go on with its value. -/
def LetBinding.spellingBefore (b : LetBinding) (K : Language Token) : Language Token :=
  b.spelling * ending K

/-- A statement in front of what does not go on with its value. -/
def Statement.spellingBefore (s : Statement) (K : Language Token) : Language Token :=
  s.spelling * ending K

/-- The spellings of a binding before a language, among all in front of it. -/
lemma LetBinding.spellingBefore_le (b : LetBinding) (K : Language Token) :
    b.spellingBefore K ≤ b.spelling * K :=
  mul_le_mul' le_rfl (ending_le K)

/-- The spellings of a statement before a language, among all in front of it. -/
lemma Statement.spellingBefore_le (s : Statement) (K : Language Token) :
    s.spellingBefore K ≤ s.spelling * K :=
  mul_le_mul' le_rfl (ending_le K)

/-! ## Sections of a rake -/

/-- The spelling of a tine with a plain guard. -/
def TineDecl.plainSpelling (d : TineDecl) : Language Token :=
  sign .pipe * (d.tine.spelling * (sign .define
    * (sign .lParen * (d.guard.plainSpelling * sign .rParen))))

/-- The spelling of the guard of a through block, which is plain if it is a predicate. -/
def ThroughGuard.plainSpelling : ThroughGuard → Language Token
  | tine ref => ref.spelling
  | predicate guard => sign .lParen * (guard.plainSpelling * sign .rParen)

/-- A through block with a plain guard in front of a language; nothing goes on with the value of
one of its bindings. -/
def ThroughBlock.spellingBefore (b : ThroughBlock) (K : Language Token) : Language Token :=
  keyword .through * (b.guard.plainSpelling * (alternative b.fallback * (sign .colon
    * b.setup.foldr LetBinding.spellingBefore
        (b.value.spelling * (sign .arrow * (word .ident b.binding * K))))))

/-- The plain spellings of a tine are spellings of it. -/
lemma TineDecl.plainSpelling_le (d : TineDecl) : d.plainSpelling ≤ d.spelling :=
  mul_le_mul' le_rfl (mul_le_mul' le_rfl (mul_le_mul' le_rfl (mul_le_mul' le_rfl
    (mul_le_mul' (fun _ => Predicate.mem_spelling_of_plain) le_rfl))))

/-- The plain spellings of a guard are spellings of it. -/
lemma ThroughGuard.plainSpelling_le (g : ThroughGuard) : g.plainSpelling ≤ g.spelling := by
  cases g with
  | tine ref => exact le_rfl
  | predicate guard =>
    exact mul_le_mul' le_rfl (mul_le_mul' (fun _ => Predicate.mem_spelling_of_plain) le_rfl)

/-- The spellings of a through block before a language, among all in front of it. -/
lemma ThroughBlock.spellingBefore_le (b : ThroughBlock) (K : Language Token) :
    b.spellingBefore K ≤ b.spelling * K := by
  simp only [ThroughBlock.spelling, mul_assoc]
  exact mul_le_mul' le_rfl (mul_le_mul' b.guard.plainSpelling_le (mul_le_mul' le_rfl
    (mul_le_mul' le_rfl (foldr_le_prod_mul LetBinding.spellingBefore_le _ _))))

/-! ## Definitions -/

/-- The spelling of a routine behind its first word, in front of a language. -/
def Routine.spellingBefore (r : Routine) (K : Language Token) : Language Token :=
  word .ident r.name * (signature r.params r.result * r.body.foldr Statement.spellingBefore K)

/-- The spelling of a rake behind its first word, in front of a language. -/
def RakeDef.spellingBefore (r : RakeDef) (K : Language Token) : Language Token :=
  word .ident r.name * (signature r.params r.result
    * r.setup.foldr LetBinding.spellingBefore ((r.tines.map TineDecl.plainSpelling).prod
      * r.throughs.foldr ThroughBlock.spellingBefore (r.sweep.spelling * K)))

/-- A definition in front of a language. -/
def Definition.spellingBefore : Definition → Language Token → Language Token
  | stack record, K => keyword .stack * (record.spelling * K)
  | single record, K => keyword .single * (record.spelling * K)
  | type body, K => keyword .type * (body.spelling * K)
  | crunch routine, K => keyword .crunch * routine.spellingBefore K
  | rake body, K => keyword .rake * body.spellingBefore K
  | run routine, K => keyword .run * routine.spellingBefore K

/-- The spelling of a file with plain guards, where nothing goes on with the value of a statement
or of a binding. -/
def SourceFile.plainSpelling (f : SourceFile) : Language Token :=
  f.definitions.foldr Definition.spellingBefore 1

/-- The spellings of a routine before a language, among all in front of it. -/
lemma Routine.spellingBefore_le (r : Routine) (K : Language Token) :
    r.spellingBefore K ≤ r.spelling * K := by
  rw [Routine.spelling, mul_assoc, mul_assoc]
  exact mul_le_mul' le_rfl (mul_le_mul' le_rfl
    (foldr_le_prod_mul Statement.spellingBefore_le r.body K))

/-- The spellings of a rake before a language, among all in front of it. -/
lemma RakeDef.spellingBefore_le (r : RakeDef) (K : Language Token) :
    r.spellingBefore K ≤ r.spelling * K := by
  simp only [RakeDef.spelling, mul_assoc]
  refine mul_le_mul' le_rfl (mul_le_mul' le_rfl ?_)
  refine (foldr_le_prod_mul LetBinding.spellingBefore_le _ _).trans (mul_le_mul' le_rfl ?_)
  exact mul_le_mul' (prod_mono fun d _ => d.plainSpelling_le)
    (foldr_le_prod_mul ThroughBlock.spellingBefore_le _ _)

/-- What spells a definition in front of a language is a spelling of it and a list of this
language. -/
theorem Definition.spellingBefore_le (d : Definition) (K : Language Token) :
    d.spellingBefore K ≤ d.spelling * K := by
  cases d with
  | stack record | single record => rw [spelling, mul_assoc]; exact le_rfl
  | type body => rw [spelling, mul_assoc]; exact le_rfl
  | crunch routine | run routine =>
    rw [spelling, mul_assoc]
    exact mul_le_mul' le_rfl (routine.spellingBefore_le K)
  | rake body =>
    rw [spelling, mul_assoc]
    exact mul_le_mul' le_rfl (body.spellingBefore_le K)

/-- A plain spelling of a file is a spelling of it. -/
theorem SourceFile.plainSpelling_le (f : SourceFile) : f.plainSpelling ≤ f.spelling := by
  have h := foldr_le_prod_mul Definition.spellingBefore_le f.definitions 1
  rwa [mul_one] at h

/-! ## The beginnings of spellings -/

section Begins

variable {K : Language Token}

/-- A binding begins with the word `let`. -/
lemma LetBinding.begins (b : LetBinding) : Begins (· = .keyword .letKw) (b.spelling * K) := by
  rw [LetBinding.spelling, mul_assoc]
  exact begins_keyword

/-- The mention of a tine is a token of its own kind. -/
lemma TineRef.begins (tine : TineRef) : Begins (· = .tineRef) (tine.spelling * K) :=
  begins_token_mul fun _ ht => ht.1

/-- A tine begins with a bar. -/
lemma TineDecl.begins (d : TineDecl) : Begins (· = .symbol .pipe) (d.plainSpelling * K) := by
  rw [TineDecl.plainSpelling, mul_assoc]
  exact begins_sign

/-- A through block begins with the word `through`. -/
lemma ThroughBlock.begins (b : ThroughBlock) :
    Begins (· = .keyword .through) (b.spellingBefore K) :=
  begins_keyword

/-- An arm begins with a bar. -/
lemma SweepArm.begins (a : SweepArm) : Begins (· = .symbol .pipe) (a.spelling * K) := by
  rw [SweepArm.spelling, mul_assoc]
  exact begins_sign

/-- A sweep begins with the word `sweep`. -/
lemma SweepBlock.begins (b : SweepBlock) : Begins (· = .keyword .sweep) (b.spelling * K) := by
  rw [SweepBlock.spelling, mul_assoc]
  exact begins_keyword

end Begins

end RakeLang
