import RakeLang.Proofs.Placing.Node
import RakeLang.Proofs.Rereading.Boundary
import RakeLang.Proofs.Settling.Predicate

/-!
# The modes in which the parts of a phrase stand

An expression or a predicate leads from a place before an operand to one behind it, inside of as
many parentheses, and each expression and each predicate inside of it stands before an operand too.
The parameters of a lambda stand where no token is split, and so do types and scalar literals.

## Main definitions

* `RakeLang.Mode.calm` — tokens among which nothing is split.
* `RakeLang.Node.courses` — tokens that lead from one mode to another, with parts at their places
  among them.

## Main results

* `RakeLang.Parameter.spelling_le_calm` — nothing is split in the parameters of a lambda.
* `RakeLang.Expression.placed_le_courses`, `RakeLang.Predicate.placed_le_courses` — the modes in
  which the parts of an expression and of a predicate stand.  -/

set_option relaxedAutoImplicit false
set_option autoImplicit false

namespace RakeLang

open Token Spelling

/-! ## Tokens among which nothing is split -/

namespace Mode

/-- The tokens lead from `σ` to `τ`, and no mode on the way is one behind an operand. -/
inductive Calm : Mode → List Token → Mode → Prop
  | nil (σ : Mode) : Calm σ [] σ
  | cons {σ τ : Mode} {t : Token} {ts : List Token} (hσ : σ.isBehind = false)
      (h : Calm (σ.step t.kind) ts τ) : Calm σ (t :: ts) τ

/-- The lists of tokens that lead from `σ` to `τ` with nothing split among them. -/
def calm (σ τ : Mode) : Language Token := {ts : List Token | Calm σ ts τ}

section Calm

variable {σ τ ρ : Mode} {ts us rest : List Token} {L M : Language Token}

/-- Calm tokens, one part behind the other, are calm. -/
lemma Calm.append (h : Calm σ ts ρ) (h' : Calm ρ us τ) : Calm σ (ts ++ us) τ := by
  induction h with
  | nil => exact h'
  | cons hσ _ ih => exact .cons hσ (ih h')

/-- Calm tokens lead to the mode that is named. -/
lemma Calm.after_eq (h : Calm σ ts τ) : σ.after ts = τ := by
  induction h with
  | nil => rfl
  | cons _ _ ih => exact ih

/-- Tokens among which nothing is split are settled as they are. -/
lemma Calm.settle_eq (h : Calm σ ts τ) : settle σ ts = ts := by
  induction h with
  | nil => simp
  | cons hσ _ ih => rw [settle_of_split (split_of_isBehind hσ _), ih]

/-- What settles to tokens among which nothing is split begins with them. -/
lemma Calm.exists_append (h : Calm σ ts τ) (hsettle : settle σ us = ts ++ rest) :
    ∃ more, us = ts ++ more := by
  induction h generalizing us with
  | nil => exact ⟨us, rfl⟩
  | @cons σ τ t ts hσ _ ih =>
    rcases us with _ | ⟨u, us⟩
    · simp at hsettle
    rw [settle_of_split (split_of_isBehind hσ _), List.cons_append, List.cons.injEq] at hsettle
    obtain ⟨rfl, hsettle⟩ := hsettle
    obtain ⟨more, rfl⟩ := ih hsettle
    exact ⟨more, rfl⟩

/-- A concatenation of calm languages is calm. -/
lemma mul_le_calm (hL : L ≤ calm σ ρ) (hM : M ≤ calm ρ τ) : L * M ≤ calm σ τ := by
  rintro ts hts
  obtain ⟨us, hus, vs, hvs, rfl⟩ := Language.mem_mul.1 hts
  exact (hL hus).append (hM hvs)

/-- A choice of calm languages is calm. -/
lemma add_le_calm (hL : L ≤ calm σ τ) (hM : M ≤ calm σ τ) : L + M ≤ calm σ τ := by
  rintro ts (h | h)
  · exact hL h
  · exact hM h

/-- No tokens at all are calm. -/
lemma one_le_calm : 1 ≤ calm σ σ := by
  rintro ts rfl
  exact .nil σ

/-- A token is calm where no split is looked for. -/
lemma token_le_calm {P : Token → Prop} (hσ : σ.isBehind = false)
    (h : ∀ t, P t → σ.step t.kind = τ) : token P ≤ calm σ τ := by
  rintro _ ⟨t, ht, rfl⟩
  exact .cons hσ (h t ht ▸ .nil _)

/-- A sign is calm where no split is looked for. -/
lemma sign_le_calm {s : Symbol} (hσ : σ.isBehind = false) (h : σ.step (.symbol s) = τ) :
    sign s ≤ calm σ τ :=
  token_le_calm hσ fun _ ht => ht ▸ h

/-- A keyword is calm where no split is looked for. -/
lemma keyword_le_calm {k : Keyword} (hσ : σ.isBehind = false) (h : σ.step (.keyword k) = τ) :
    keyword k ≤ calm σ τ :=
  token_le_calm hσ fun _ ht => ht ▸ h

/-- A word is calm where no split is looked for. -/
lemma word_le_calm {k : Kind} {text : String} (hσ : σ.isBehind = false) (h : σ.step k = τ) :
    word k text ≤ calm σ τ :=
  token_le_calm hσ fun _ ht => ht.1 ▸ h

/-- A row of calm parts is calm, if each leads back to where it began. -/
lemma prod_le_calm {α : Type} {F : α → Language Token} {as : List α}
    (h : ∀ a ∈ as, F a ≤ calm σ σ) : (as.map F).prod ≤ calm σ σ := by
  induction as with
  | nil => exact one_le_calm
  | cons a as ih =>
    rw [List.forall_mem_cons] at h
    rw [List.map_cons, List.prod_cons]
    exact mul_le_calm h.1 (ih h.2)

end Calm

end Mode

open Mode hiding operand behind scalar params closed

/-- A token that spells a number is an integer or a float. -/
lemma Token.kind_of_number? {t : Token} {n : Number} (h : t.number? = some n) :
    t.kind = .int ∨ t.kind = .float := by
  unfold number? at h
  split at h
  · exact .inl (by assumption)
  · exact .inr (by assumption)
  · cases h

/-- Nothing is split in a scalar literal.

**Proof sketch.** By cases on the value.  The mode changes at the sign that opens the literal and at
the angle that closes it, and stays the same at every token between them, be it a name, a dot, a
number or a sign. -/
lemma ScalarLiteral.spelling_le_calm {before inside behind : Mode}
    (h : Angles before inside behind) (l : ScalarLiteral) : l.spelling ≤ calm before behind := by
  have hnumber {t : Token} {n : Number} (ht : t.number? = some n) :
      inside.step t.kind = inside := by
    rcases kind_of_number? ht with hkind | hkind <;> rw [hkind]
    · exact h.int
    · exact h.float
  have hopposite (n : Number) : n.oppositeSpelling ≤ calm inside inside :=
    token_le_calm h.isBehind_inside fun t ⟨_, ht, _⟩ => hnumber ht
  refine mul_le_calm ?_ (sign_le_calm h.isBehind_inside h.greater)
  cases l.value with
  | path root fields =>
    refine mul_le_calm (sign_le_calm h.isBehind_before h.less)
      (mul_le_calm (word_le_calm h.isBehind_inside h.ident) (prod_le_calm fun f _ => ?_))
    exact mul_le_calm (sign_le_calm h.isBehind_inside h.dot)
      (word_le_calm h.isBehind_inside h.ident)
  | number n =>
    refine add_le_calm (mul_le_calm (sign_le_calm h.isBehind_before h.less) (add_le_calm ?_ ?_)) ?_
    · exact token_le_calm h.isBehind_inside fun t ht => hnumber ht
    · exact mul_le_calm (sign_le_calm h.isBehind_inside h.minus) (hopposite n)
    · exact mul_le_calm (sign_le_calm h.isBehind_before h.arrow) (hopposite n)

section Types

variable {outer : Option Nat} {nest : Nat} {named : Bool}

/-- The lists of tokens among which nothing is split and that keep inside of the parentheses of a
type. -/
def Mode.typeCalm (outer : Option Nat) (nest : Nat) : Language Token :=
  {ts : List Token | ∃ named, Calm (around outer nest false) ts (around outer nest named)}

/-- A type and calm tokens behind it are calm, if these are so behind a name and behind none. -/
lemma Mode.mul_le_calm_of_type {σ : Mode} {L M : Language Token} (hL : L ≤ typeCalm outer nest)
    (hM : ∀ named, M ≤ calm (around outer nest named) σ) :
    L * M ≤ calm (around outer nest false) σ := by
  rintro ts hts
  obtain ⟨us, hus, vs, hvs, rfl⟩ := Language.mem_mul.1 hts
  obtain ⟨named, hus⟩ := hL hus
  exact hus.append (hM named hvs)

/-- Calm tokens are calm as types are. -/
lemma Mode.calm_le_typeCalm :
    calm (around outer nest false) (around outer nest named) ≤ typeCalm outer nest :=
  fun _ h => ⟨named, h⟩

/-- Calm tokens in front of a type are calm as types are. -/
lemma Mode.mul_le_typeCalm {L M : Language Token}
    (hL : L ≤ calm (around outer nest false) (around outer nest false))
    (hM : M ≤ typeCalm outer nest) : L * M ≤ typeCalm outer nest := by
  rintro ts hts
  obtain ⟨us, hus, vs, hvs, rfl⟩ := Language.mem_mul.1 hts
  obtain ⟨named, hvs⟩ := hM hvs
  exact ⟨named, (hL hus).append hvs⟩

/-- Types with commas between them are calm as types are.

**Proof sketch.** Induction on the types.  A comma leads back to the mode in front of a type,
whether a name was read last or not. -/
lemma Mode.separated_le_typeCalm {α : Type} {F : α → Language Token} {as : List α}
    (h : ∀ a ∈ as, F a ≤ typeCalm outer nest) : separated (as.map F) ≤ typeCalm outer nest := by
  have hrest (as : List α) (h : ∀ a ∈ as, F a ≤ typeCalm outer nest) (named : Bool) :
      ∀ ts ∈ (as.map fun a => sign .comma * F a).prod,
        ∃ named', Calm (around outer nest named) ts (around outer nest named') := by
    induction as generalizing named with
    | nil =>
      rintro ts rfl
      exact ⟨named, .nil _⟩
    | cons a as ih =>
      rw [List.forall_mem_cons] at h
      intro ts hts
      obtain ⟨us, hus, vs, hvs, rfl⟩ := mem_prod_cons hts
      obtain ⟨t, us, ht, hitem, rfl⟩ := mem_token_mul.1 hus
      obtain ⟨named₁, hitem⟩ := h.1 hitem
      obtain ⟨named₂, hvs⟩ := ih h.2 named₁ vs hvs
      refine ⟨named₂, .cons isBehind_around ?_⟩
      rw [ht, step_around_of_isQuiet (by rfl)]
      exact hitem.append hvs
  rcases as with _ | ⟨a, as⟩
  · rintro ts rfl
    exact ⟨false, .nil _⟩
  · rw [List.forall_mem_cons] at h
    intro ts hts
    obtain ⟨us, hus, vs, hvs, rfl⟩ := mem_separated_cons hts
    obtain ⟨named, hus⟩ := h.1 hus
    obtain ⟨named', hvs⟩ := hrest as h.2 named vs hvs
    exact ⟨named', hus.append hvs⟩

/-- Nothing is split in a type.

**Proof sketch.** Induction on the type.  Its words and its signs are calm inside of parentheses,
and those of the types in it are by the induction hypothesis, one parenthesis deeper. -/
lemma DataType.spelling_le_typeCalm :
    ∀ (t : DataType) (nest : Nat), t.spelling ≤ typeCalm outer (nest + 1)
  | lane .., nest | mask .., nest => by
    rw [DataType.spelling]
    exact (word_le_calm (τ := around outer (nest + 1) false) isBehind_around
      (step_around_of_isQuiet (by rfl))).trans calm_le_typeCalm
  | rack .., nest => by
    rw [DataType.spelling]
    exact (mul_le_calm (word_le_calm isBehind_around (step_around_of_isQuiet (by rfl)))
      (word_le_calm isBehind_around (step_around_of_isQuiet (by rfl)))).trans calm_le_typeCalm
  | stack .., nest => by
    rw [DataType.spelling]
    exact (mul_le_calm (word_le_calm isBehind_around step_around_typeIdent)
      (keyword_le_calm isBehind_around step_around_stack)).trans calm_le_typeCalm
  | single .., nest => by
    rw [DataType.spelling]
    exact (mul_le_calm (word_le_calm isBehind_around step_around_typeIdent)
      (keyword_le_calm isBehind_around step_around_single)).trans calm_le_typeCalm
  | pack .., nest => by
    rw [DataType.spelling]
    exact (mul_le_calm (word_le_calm isBehind_around step_around_typeIdent)
      (word_le_calm isBehind_around (step_around_of_isQuiet (by rfl)))).trans calm_le_typeCalm
  | function params result _, nest => by
    rw [DataType.spelling]
    have hlist : sign .lParen * (separated (params.map DataType.spelling)
        * (sign .rParen * sign .arrow))
          ≤ calm (around outer (nest + 1) false) (around outer (nest + 1) false) :=
      mul_le_calm (sign_le_calm isBehind_around step_around_lParen)
        (mul_le_calm_of_type (separated_le_typeCalm fun t _ => t.spelling_le_typeCalm (nest + 1))
          fun _ => mul_le_calm (sign_le_calm isBehind_around step_around_rParen)
            (sign_le_calm isBehind_around step_around_arrow))
    simpa only [mul_assoc] using mul_le_typeCalm hlist (result.spelling_le_typeCalm nest)
  | tuple items _, nest => by
    rw [DataType.spelling]
    refine le_trans (mul_le_calm (sign_le_calm isBehind_around step_around_lParen)
      (mul_le_calm_of_type (separated_le_typeCalm fun t _ => t.spelling_le_typeCalm (nest + 1))
        fun named => sign_le_calm isBehind_around step_around_rParen)) calm_le_typeCalm
  | unit _, nest => by
    rw [DataType.spelling]
    exact (mul_le_calm (sign_le_calm isBehind_around step_around_lParen)
      (sign_le_calm isBehind_around step_around_rParen)).trans calm_le_typeCalm

/-- Nothing is split in a parameter. -/
theorem Parameter.spelling_le_calm (p : Parameter) (outer : Option Nat) :
    p.spelling ≤ calm (around outer 0 false) (around outer 0 false) := by
  have hascription (type : DataType) : sign .colon * (type.spelling * sign .rParen)
      ≤ calm (around outer 1 false) (around outer 0 false) :=
    mul_le_calm (sign_le_calm isBehind_around (step_around_of_isQuiet (by rfl)))
      (mul_le_calm_of_type (type.spelling_le_typeCalm 0)
        fun _ => sign_le_calm isBehind_around step_around_rParen)
  rcases p with ⟨name, _ | type, span⟩ | ⟨literal, _ | type, span⟩
  · exact word_le_calm isBehind_around (step_around_of_isQuiet (by rfl))
  · exact mul_le_calm (sign_le_calm isBehind_around step_around_lParen)
      (mul_le_calm (word_le_calm isBehind_around (step_around_of_isQuiet (by rfl)))
        (hascription type))
  · exact literal.spelling_le_calm (angles_around outer 0 false)
  · exact mul_le_calm (sign_le_calm isBehind_around step_around_lParen)
      (mul_le_calm (literal.spelling_le_calm (angles_around outer 1 false)) (hascription type))

end Types

/-! ## Parts at their places -/

namespace Node

/-- The mode before a part: an expression and a predicate stand before an operand, a parameter
stands among the parameters of a lambda. -/
def Opens : Node → Mode → Prop
  | expression _, σ | fieldInit _, σ | predicate _, σ => ∃ depth, σ = .operand depth
  | parameter _, σ => ∃ depth, σ = .params depth 0 false
  | dataType _, _ | tineRef _, _ => True
  | _, _ => False

/-- The tokens lead from `σ` to `τ`, with the parts at their places among them, each where it can
stand. -/
inductive Course : Mode → List Node → List Token → Mode → Prop
  | nil (σ : Mode) : Course σ [] [] σ
  | token {σ τ : Mode} {ns : List Node} {t : Token} {ts : List Token}
      (h : Course (σ.step t.kind) ns ts τ) : Course σ ns (t :: ts) τ
  | part {σ τ : Mode} {n : Node} {ns : List Node} {us ts : List Token} (hus : us ∈ n.placed)
      (hopens : n.Opens σ) (h : Course (σ.after us) ns ts τ) : Course σ (n :: ns) (us ++ ts) τ

/-- The lists of tokens that lead from `σ` to `τ` with the parts among them. -/
def courses (σ : Mode) (ns : List Node) (τ : Mode) : Language Token :=
  {ts : List Token | Course σ ns ts τ}

section Courses

variable {σ τ ρ : Mode} {n : Node} {ns ms : List Node} {ts us : List Token} {L M : Language Token}

/-- A course leads to the mode that is named. -/
lemma Course.after_eq (h : Course σ ns ts τ) : σ.after ts = τ := by
  induction h with
  | nil => rfl
  | token _ ih => exact ih
  | part _ _ _ ih => rw [Mode.after_append, ih]

/-- Courses, one behind the other, are a course. -/
lemma Course.append (h : Course σ ns ts ρ) (h' : Course ρ ms us τ) :
    Course σ (ns ++ ms) (ts ++ us) τ := by
  induction h with
  | nil => exact h'
  | token _ ih => exact .token (ih h')
  | part hus hopens _ ih =>
    rw [List.append_assoc]
    exact .part hus hopens (ih h')

/-- A part stands among the tokens, in a mode where it can. -/
lemma Course.exists_part (h : Course σ ns ts τ) (hn : n ∈ ns) :
    ∃ before us after, ts = before ++ (us ++ after) ∧ us ∈ n.placed ∧ n.Opens (σ.after before) := by
  induction h with
  | nil => cases hn
  | token _ ih =>
    obtain ⟨before, us, after, rfl, hus, hopens⟩ := ih hn
    exact ⟨_ :: before, us, after, rfl, hus, hopens⟩
  | @part σ τ m ns vs ts hvs hm _ ih =>
    rcases List.mem_cons.1 hn with rfl | hn
    · exact ⟨[], vs, ts, rfl, hvs, hm⟩
    · obtain ⟨before, us, after, rfl, hus, hopens⟩ := ih hn
      refine ⟨vs ++ before, us, after, by simp, hus, ?_⟩
      rwa [Mode.after_append]

/-- A concatenation of courses is a course. -/
lemma mul_le_courses (hL : L ≤ courses σ ns ρ) (hM : M ≤ courses ρ ms τ) :
    L * M ≤ courses σ (ns ++ ms) τ := by
  rintro ts hts
  obtain ⟨us, hus, vs, hvs, rfl⟩ := Language.mem_mul.1 hts
  exact (hL hus).append (hM hvs)

/-- A token in front of a course makes a course. -/
lemma token_mul_le_courses {P : Token → Prop} (hP : ∀ t, P t → σ.step t.kind = ρ)
    (hM : M ≤ courses ρ ns τ) : token P * M ≤ courses σ ns τ := by
  rintro ts hts
  obtain ⟨t, us, ht, hus, rfl⟩ := mem_token_mul.1 hts
  exact .token (hP t ht ▸ hM hus)

/-- A token is a course without parts. -/
lemma token_le_courses {P : Token → Prop} (hP : ∀ t, P t → σ.step t.kind = τ) :
    token P ≤ courses σ [] τ := by
  rintro _ ⟨t, ht, rfl⟩
  exact .token (hP t ht ▸ .nil _)

/-- Calm tokens are a course without parts. -/
lemma calm_le_courses : calm σ τ ≤ courses σ [] τ := by
  intro ts h
  induction h with
  | nil σ => exact .nil σ
  | cons _ _ ih => exact .token ih

/-- A part alone, where it leads from one mode to another. -/
lemma placed_le_courses (hopens : n.Opens σ) (h : ∀ us ∈ n.placed, σ.after us = τ) :
    n.placed ≤ courses σ [n] τ := by
  intro us hus
  have hcourse : Course σ [n] (us ++ []) τ := .part hus hopens (h us hus ▸ .nil _)
  rwa [List.append_nil] at hcourse

section Lists

variable {α : Type} {F : α → Language Token} {f : α → List Node} {as : List α}

/-- A row of courses is one, if each leads back to where it began. -/
lemma prod_le_courses (h : ∀ a ∈ as, F a ≤ courses σ (f a) σ) :
    (as.map F).prod ≤ courses σ (as.flatMap f) σ := by
  induction as with
  | nil =>
    rintro ts rfl
    exact .nil σ
  | cons a as ih =>
    rw [List.forall_mem_cons] at h
    rw [List.map_cons, List.prod_cons, List.flatMap_cons]
    exact mul_le_courses h.1 (ih h.2)

/-- Items with commas between them, each of which leads from `σ` to `τ`, and a bracket behind them;
there may be none. -/
lemma separated_mul_le_courses (hcomma : τ.step (.symbol .comma) = σ)
    (h : ∀ a ∈ as, F a ≤ courses σ (f a) τ) (hnil : M ≤ courses σ [] ρ) (hM : M ≤ courses τ [] ρ) :
    separated (as.map F) * M ≤ courses σ (as.flatMap f) ρ := by
  rcases as with _ | ⟨a, as⟩
  · simpa [separated] using hnil
  · rw [List.forall_mem_cons] at h
    rw [List.map_cons, separated, List.map_map, mul_assoc, List.flatMap_cons]
    refine mul_le_courses h.1 ?_
    have hrest : (as.map fun b => sign .comma * F b).prod ≤ courses τ (as.flatMap f) τ :=
      prod_le_courses fun b hb => token_mul_le_courses (fun t ht => ht ▸ hcomma) (h.2 b hb)
    have hmul := mul_le_courses hrest hM
    rwa [List.append_nil] at hmul

end Lists

end Courses

/-- An expression leads behind an operand. -/
lemma expression_le_courses {e : Expression} {depth : Nat}
    (h : e.placed ≤ courses (.operand depth) (expression e).children (.behind depth)) :
    e.placed ≤ courses (.operand depth) [expression e] (.behind depth) :=
  placed_le_courses (n := expression e) ⟨depth, rfl⟩ fun _ hus => (h hus).after_eq

end Node

open Node (courses token_mul_le_courses token_le_courses mul_le_courses prod_le_courses
  separated_mul_le_courses expression_le_courses calm_le_courses)

mutual

/-- **The parts of an expression**: an expression leads from a place before an operand to one behind
it, and so do the expressions inside of it.

**Proof sketch.** Induction on the expression, token by token and part by part. -/
theorem Expression.placed_le_courses :
    ∀ (e : Expression) (depth : Nat), e.placed
      ≤ courses (.operand depth) (Node.expression e).children (.behind depth)
  | .binary op lhs rhs _, depth => by
    rw [Expression.placed]
    refine covering_le.trans (mul_le_courses (expression_le_courses (lhs.placed_le_courses depth))
      (token_mul_le_courses (fun t ht => (Mode.step_binaryOp ht depth).1) ?_))
    exact expression_le_courses (rhs.placed_le_courses depth)
  | .unary op operand _, depth => by
    rw [Expression.placed]
    exact covering_le.trans (token_mul_le_courses (fun t ht => Mode.step_unaryOp ht depth)
      (expression_le_courses (operand.placed_le_courses depth)))
  | .call name args _, depth => by
    rw [Expression.placed, Node.children, List.map_eq_flatMap (f := Node.expression)]
    refine covering_le.trans (token_mul_le_courses (ρ := .behind depth) (fun t ht => ht.1 ▸ rfl)
      (token_mul_le_courses (ρ := .operand (depth + 1)) (fun t ht => ht ▸ rfl)
        (separated_mul_le_courses (τ := .behind (depth + 1)) rfl (fun a _ => ?_) ?_ ?_)))
    · exact expression_le_courses (a.placed_le_courses (depth + 1))
    · exact token_le_courses fun t ht => ht ▸ rfl
    · exact token_le_courses fun t ht => ht ▸ rfl
  | .field base name _, depth => by
    rw [Expression.placed]
    exact covering_le.trans (mul_le_courses (expression_le_courses (base.placed_le_courses depth))
      (token_mul_le_courses (ρ := .operand depth) (fun t ht => ht ▸ rfl)
        (token_le_courses fun t ht => ht.1 ▸ rfl)))
  | .scalar literal, depth => by
    rw [Expression.placed]
    exact covering_le.trans ((literal.spelling_le_calm (angles_operand depth)).trans
      calm_le_courses)
  | .record name inits _, depth => by
    rw [Expression.placed, Node.children, List.map_eq_flatMap (f := Node.fieldInit)]
    refine covering_le.trans (token_mul_le_courses (ρ := .behind depth) (fun t ht => ht.1 ▸ rfl)
      (token_mul_le_courses (ρ := .operand depth) (fun t ht => ht ▸ rfl)
        (separated_mul_le_courses (τ := .behind depth) rfl (fun i _ => ?_) ?_ ?_)))
    · exact Node.placed_le_courses (n := .fieldInit i) ⟨depth, rfl⟩ fun _ hus =>
        (i.placed_le_courses depth hus).after_eq
    · exact token_le_courses fun t ht => ht ▸ rfl
    · exact token_le_courses fun t ht => ht ▸ rfl
  | .reduce op base _, depth | .scan op base _, depth => by
    rw [Expression.placed]
    exact covering_le.trans (mul_le_courses (expression_le_courses (base.placed_le_courses depth))
      (token_le_courses fun t ht => ht ▸ rfl))
  | .shuffle base indices _, depth => by
    rw [Expression.placed]
    have hindices : separated (indices.map integer) * sign .rBracket
        ≤ courses (.operand depth) (indices.flatMap fun _ => []) (.behind depth) :=
      separated_mul_le_courses (τ := .behind depth) rfl
        (fun v _ => token_le_courses fun t ht => ht.1 ▸ rfl)
        (token_le_courses fun t ht => ht ▸ rfl) (token_le_courses fun t ht => ht ▸ rfl)
    have hnil : (indices.flatMap fun _ => ([] : List Node)) = [] := by simp
    rw [hnil] at hindices
    exact covering_le.trans (mul_le_courses (expression_le_courses (base.placed_le_courses depth))
      (token_mul_le_courses (ρ := .operand depth) (fun t ht => ht ▸ rfl)
        (token_mul_le_courses (ρ := .operand depth) (fun t ht => ht ▸ rfl) hindices)))
  | .lambda params body _, depth => by
    rw [Expression.placed, Node.children, List.map_eq_flatMap (f := Node.parameter)]
    refine covering_le.trans (token_mul_le_courses (ρ := .params depth 0 false)
      (fun t ht => ht ▸ rfl) (mul_le_courses (prod_le_courses fun p _ => ?_)
        (token_mul_le_courses (ρ := .operand depth) (fun t ht => ht ▸ rfl) ?_)))
    · exact Node.placed_le_courses (n := .parameter p) ⟨depth, rfl⟩ fun us hus =>
        (p.spelling_le_calm (some depth) (p.placed_le hus)).after_eq
    · exact expression_le_courses (body.placed_le_courses depth)
  | .letIn name value body _, depth => by
    rw [Expression.placed]
    exact covering_le.trans (token_mul_le_courses (ρ := .operand depth) (fun t ht => ht ▸ rfl)
      (token_mul_le_courses (ρ := .behind depth) (fun t ht => ht.1 ▸ rfl)
        (token_mul_le_courses (ρ := .operand depth) (fun t ht => ht ▸ rfl)
          (mul_le_courses (expression_le_courses (value.placed_le_courses depth))
            (token_mul_le_courses (ρ := .operand depth) (fun t ht => ht ▸ rfl)
              (expression_le_courses (body.placed_le_courses depth)))))))
  | .ident name _, depth => by
    rw [Expression.placed]
    exact covering_le.trans (token_le_courses fun t ht => ht.1 ▸ rfl)
  | .number value _, depth => by
    rw [Expression.placed]
    refine covering_le.trans (token_le_courses fun t ht => ?_)
    rcases kind_of_number? ht with hkind | hkind <;> rw [hkind] <;> rfl
  | .bool value _, depth => by
    rw [Expression.placed]
    cases value <;> exact covering_le.trans (token_le_courses fun t ht => ht ▸ rfl)
  | .laneIndex _, depth | .lanes _, depth => by
    rw [Expression.placed]
    exact covering_le.trans (token_le_courses fun t ht => ht ▸ rfl)
  | .unit _, depth => by
    rw [Expression.placed]
    exact covering_le.trans (token_mul_le_courses (ρ := .operand (depth + 1)) (fun t ht => ht ▸ rfl)
      (token_le_courses fun t ht => ht ▸ rfl))
  | .paren inner _, depth => by
    rw [Expression.placed]
    exact covering_le.trans (token_mul_le_courses (ρ := .operand (depth + 1)) (fun t ht => ht ▸ rfl)
      (mul_le_courses (expression_le_courses (inner.placed_le_courses (depth + 1)))
        (token_le_courses fun t ht => ht ▸ rfl)))
  | .tuple items _, depth => by
    rw [Expression.placed, Node.children, List.map_eq_flatMap (f := Node.expression)]
    refine covering_le.trans (token_mul_le_courses (ρ := .operand (depth + 1))
      (fun t ht => ht ▸ rfl)
        (separated_mul_le_courses (τ := .behind (depth + 1)) rfl (fun e _ => ?_) ?_ ?_))
    · exact expression_le_courses (e.placed_le_courses (depth + 1))
    · exact token_le_courses fun t ht => ht ▸ rfl
    · exact token_le_courses fun t ht => ht ▸ rfl

/-- The value of a field stands before an operand. -/
lemma FieldInit.placed_le_courses :
    ∀ (i : FieldInit) (depth : Nat), i.placed
      ≤ courses (.operand depth) (Node.fieldInit i).children (.behind depth)
  | .mk name value _, depth => by
    rw [FieldInit.placed]
    exact covering_le.trans (token_mul_le_courses (ρ := .behind depth) (fun t ht => ht.1 ▸ rfl)
      (token_mul_le_courses (ρ := .operand depth) (fun t ht => ht ▸ rfl)
        (expression_le_courses (value.placed_le_courses depth))))

end

/-- The sign or the word of a comparison stands between two operands. -/
lemma CompareOp.spelling_le_courses (op : CompareOp) (depth : Nat) :
    op.spelling ≤ courses (.behind depth) [] (.operand depth) := by
  cases op with
  | is => exact token_le_courses fun t ht => ht ▸ rfl
  | isNot =>
    exact token_mul_le_courses (ρ := .operand depth) (fun t ht => ht ▸ rfl)
      (token_le_courses fun t ht => ht ▸ rfl)
  | _ => exact token_le_courses fun t ht => (Mode.step_compareOp ht depth).1

/-- **The parts of a predicate**: the predicates and the expressions inside of it stand before an
operand.

**Proof sketch.** Induction on the predicate.  The signs of logic and the operators of comparisons
lead from behind an operand to before one, parentheses lead one deeper and back, and the operands
are expressions. -/
theorem Predicate.placed_le_courses (p : Predicate) :
    ∀ depth, p.placed ≤ courses (.operand depth) (Node.predicate p).children (.behind depth) := by
  have hpart {p : Predicate} {depth : Nat}
      (h : p.placed ≤ courses (.operand depth) (Node.predicate p).children (.behind depth)) :
      p.placed ≤ courses (.operand depth) [Node.predicate p] (.behind depth) :=
    Node.placed_le_courses (n := .predicate p) ⟨depth, rfl⟩ fun _ hus => (h hus).after_eq
  induction p with
  | or lhs rhs span ihl ihr | and lhs rhs span ihl ihr =>
    intro depth
    refine covering_le.trans (mul_le_courses (hpart (ihl depth))
      (token_mul_le_courses (fun t ht => ?_) (hpart (ihr depth))))
    rcases ht with hkind | hkind <;> rw [hkind] <;> rfl
  | not operand span ih =>
    intro depth
    refine covering_le.trans (token_mul_le_courses (fun t ht => ?_) (hpart (ih depth)))
    rcases ht with hkind | hkind <;> rw [hkind] <;> rfl
  | compare op lhs rhs span =>
    intro depth
    have hlhs := expression_le_courses (lhs.placed_le_courses depth)
    have hrhs := expression_le_courses (rhs.placed_le_courses depth)
    exact covering_le.trans (mul_le_courses (fun _ h => hlhs h.1)
      (mul_le_courses (op.spelling_le_courses depth) fun _ h => hrhs h.1))
  | tineTest tine =>
    intro depth
    refine Node.placed_le_courses (n := .tineRef tine) trivial fun us hus => ?_
    obtain ⟨t, ht, rfl⟩ := hus.1
    rw [Mode.after_cons, ht.1]
    rfl
  | group inner span ih =>
    intro depth
    exact covering_le.trans (token_mul_le_courses (ρ := .operand (depth + 1)) (fun t ht => ht ▸ rfl)
      (mul_le_courses (hpart (ih (depth + 1))) (token_le_courses fun t ht => ht ▸ rfl)))
  | const value span =>
    intro depth
    cases value <;> exact covering_le.trans (token_le_courses fun t ht => ht ▸ rfl)

end RakeLang
