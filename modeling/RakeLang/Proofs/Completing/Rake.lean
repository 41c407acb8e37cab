import RakeLang.Proofs.Accepting.Predicate
import RakeLang.Proofs.Completing.Statement

/-!
# Reading the sections of a rake is complete

The canonical sections of a rake are read from their plain spellings.  A through block holds
bindings and a value with nothing between them: the bindings end where the word `let` does not stand
at the cursor, or where what it begins turns out to be a let-in, which is then the value.

## Main results

* `RakeLang.Parser.throughBody_leads` — the bindings and the value of a through block.
* `RakeLang.Parser.tineDecl_leads`, `RakeLang.Parser.throughBlock_leads`,
  `RakeLang.Parser.sweepBlock_leads` — the sections of a rake.
-/

set_option relaxedAutoImplicit false
set_option autoImplicit false

namespace RakeLang

open Spelling

namespace Parser

variable {M : Language Token}

/-! ## Tines -/

/-- The mention of a tine is read. -/
lemma tineRef_leads {tine : TineRef} :
    tineRef.Leads (tine.spelling * M) M fun t => t.withoutSpans = tine.withoutSpans := by
  unfold tineRef
  refine .expect_bind (fun _ ht => ht.1) fun token ht => .pure ?_
  rw [TineRef.withoutSpans, ht.2, TineRef.withoutSpans]

/-- A predicate is read in front of a closing parenthesis. -/
lemma predicate_leads {p : Predicate} (hp : p.Canonical) (hM : Begins (· = .symbol .rParen) M) :
    predicate.Leads (p.plainSpelling * M) M fun p' => p'.withoutSpans = p.withoutSpans :=
  .of_accepts fun _ hts rest hrest => predicate_accepts hp hts (.inl (hM rest hrest))

/-- A tine and its guard are read; the parenthesis closes the guard. -/
theorem tineDecl_leads {d : TineDecl} (hd : d.guard.Canonical) :
    tineDecl.Leads (d.plainSpelling * M) M fun d' => d'.withoutSpans = d.withoutSpans := by
  unfold tineDecl
  simp only [TineDecl.plainSpelling, mul_assoc]
  refine .expect_bind (fun _ ht => ht) fun start _ => tineRef_leads.bind fun tine htine => ?_
  refine .expect_bind (fun _ ht => ht) fun _ _ => .expect_bind (fun _ ht => ht) fun _ _ => ?_
  refine (predicate_leads hd begins_sign).bind fun guard hguard => ?_
  refine .expect_bind (fun _ ht => ht) fun _ _ => .spanFrom_bind fun span => .pure ?_
  simp [TineDecl.withoutSpans, htine, hguard]

/-! ## Through blocks -/

/-- The guard of a through block is read. -/
lemma throughGuard_leads {g : ThroughGuard} (hg : g.Canonical) :
    throughGuard.Leads (g.plainSpelling * M) M fun g' => g'.withoutSpans = g.withoutSpans := by
  unfold throughGuard
  cases g with
  | tine ref =>
    refine .peekKind_bind ref.begins ?_
    exact tineRef_leads.bind fun tine htine => .pure (congrArg ThroughGuard.tine htine)
  | predicate guard =>
    simp only [ThroughGuard.plainSpelling, mul_assoc]
    refine .peekKind_bind begins_sign ?_
    refine .advance_bind fun _ _ => ?_
    refine (predicate_leads hg begins_sign).bind fun guard' hguard' => ?_
    exact .expect_bind (fun _ ht => ht) fun _ _ => .pure (congrArg ThroughGuard.predicate hguard')

/-- A constant is read.

**Proof sketch.** By what the constant begins with: an angle, one of the two truth values, or a
number. -/
lemma fallback_accepts {f : Fallback} {ts rest : List Token} (hts : ts ∈ f.spelling) :
    fallback.Accepts ts rest fun f' => f'.withoutSpans = f.withoutSpans := by
  unfold fallback
  apply Accepts.peekKind_bind
  cases f with
  | scalar literal =>
    rcases headKind_of_mem_scalar (show ts ∈ literal.spelling from hts) rest with h | h
    all_goals
      rw [h]
      exact (scalarLiteral_accepts hts).bind_nil fun l hl => .pure (congrArg Fallback.scalar hl)
  | number value span =>
    obtain ⟨t, ht, rfl⟩ := hts
    have hnumber := isNumber_of_number? ht
    rw [List.singleton_append, headKind_cons]
    split
    case h_5 =>
      refine .peek_bind ((number?_accepts ht).bind_nil ?_)
      rintro _ rfl
      exact .pure rfl
    all_goals simp_all [Kind.isNumber]
  | bool value span =>
    cases value
    all_goals
      obtain ⟨t, ht, rfl⟩ := hts
      rw [List.singleton_append, headKind_cons, ht]
      exact .advance_bind (.pure rfl)

/-- The constant behind the word `else` is read, up to the colon. -/
lemma fallback?_leads {o : Option Fallback} (hM : Begins (· = .symbol .colon) M) :
    fallback?.Leads (alternative o * M) M fun o' =>
      o'.map Fallback.withoutSpans = o.map Fallback.withoutSpans := by
  unfold fallback?
  rcases o with _ | value
  · rw [alternative, one_mul]
    exact .eat_bind_false (hM.ne_of_eq (by simp)) (.pure rfl)
  · rw [alternative, mul_assoc]
    have hfallback : fallback.Leads (value.spelling * M) M fun f =>
        f.withoutSpans = value.withoutSpans := .of_accepts fun _ hts _ _ => fallback_accepts hts
    exact .eat_bind_true (fun _ ht => ht) (hfallback.bind fun f hf => .pure (by simp [hf]))

section Body

variable {setup : List LetBinding} {value : Expression}

/-- A value without bindings is read, whether or not it is a let-in.

**Proof sketch.** A let-in begins like a binding and turns out to be the value; any other
expression does not begin with `let`. -/
lemma throughBodyUpTo_leads_value (h : value.Canonical) (hM : ∀ ts ∈ M, EndsExpression ts)
    (n : Nat) :
    (throughBodyUpTo n).Leads (value.spelling * M) M fun body =>
      body.1 = [] ∧ body.2.withoutSpans = value.withoutSpans := by
  have hexpression : Leads (do let value ← expression; return ([], value))
      (value.spelling * M) M fun body : List LetBinding × Expression =>
        body.1 = [] ∧ body.2.withoutSpans = value.withoutSpans :=
    (expression_leads h hM).bind fun value' hvalue' => .pure ⟨rfl, hvalue'⟩
  cases n with
  | zero => exact hexpression
  | succ n =>
    refine .of_forall fun ws hws => ?_
    have hle : ({ws} : Language Token) ≤ value.spelling * M := by rintro _ rfl; exact hws
    unfold throughBodyUpTo
    by_cases hlet : headKind ws = .keyword .letKw
    · refine .check_bind_true (by rintro _ rfl; exact hlet) ?_
      obtain ⟨us, hus, rest, -, rfl⟩ := Language.mem_mul.1 hws
      obtain ⟨name, bound, body, span, rfl⟩ := Expression.Canonical.exists_letIn h hus hlet
      refine ((letForm_leads_letIn h hM).mono_left hle).bind ?_
      rintro _ ⟨e, rfl, he⟩
      exact .pure ⟨rfl, he⟩
    · exact .check_bind_false (by rintro _ rfl; exact hlet) (hexpression.mono_left hle)

/-- Bindings and the value behind them are read, if the bound allows for the bindings.

**Proof sketch.** Induction on the bindings.  Behind a binding stands another one or the value, so
that the word `in` does not. -/
lemma throughBodyUpTo_leads (hsetup : ∀ b ∈ setup, b.Canonical) (h : value.Canonical)
    (hM : ∀ ts ∈ M, EndsExpression ts) :
    ∀ n, setup.length ≤ n →
      (throughBodyUpTo n).Leads (setup.foldr LetBinding.spellingBefore (value.spelling * M)) M
        fun body => body.1.map LetBinding.withoutSpans = setup.map LetBinding.withoutSpans
          ∧ body.2.withoutSpans = value.withoutSpans := by
  induction setup with
  | nil =>
    intro n _
    exact (throughBodyUpTo_leads_value h hM n).imp fun body hbody => ⟨by simp [hbody.1], hbody.2⟩
  | cons b bs ih =>
    intro n hn
    obtain ⟨n, rfl⟩ : ∃ k, n = k + 1 := Nat.exists_eq_succ_of_ne_zero (by simp at hn; omega)
    have hin : Begins (· ≠ .keyword .inKw)
        (bs.foldr LetBinding.spellingBefore (value.spelling * M)) := by
      refine begins_foldr (fun b' _ K => ?_) ((h.begins M).ne_of_test rfl)
      exact b'.begins.ne_of_eq (by simp)
    unfold throughBodyUpTo
    refine .check_bind_true b.begins ?_
    have hletForm := (letForm_leads_binding (hsetup b (by simp)) (fun ts hts => hts.2)
      (hin.mono (ending_le _))).mono_right (ending_le _)
    refine hletForm.bind ?_
    rintro _ ⟨b', rfl, hb'⟩
    refine (ih (fun b hb => hsetup b (by simp [hb])) n (by simpa using hn)).bind ?_
    rintro ⟨setup', value'⟩ ⟨hsetup', hvalue'⟩
    exact .pure ⟨by simp [hb', hsetup'], hvalue'⟩

/-- There are no more bindings than tokens. -/
lemma length_le_of_mem_bindings {K : Language Token} {ts : List Token}
    (h : ts ∈ setup.foldr LetBinding.spellingBefore K) : setup.length ≤ ts.length := by
  induction setup generalizing ts with
  | nil => exact Nat.zero_le _
  | cons b bs ih =>
    obtain ⟨us, hus, vs, hvs, rfl⟩ := Language.mem_mul.1 h
    obtain ⟨t, us, -, -, rfl⟩ := mem_token_mul.1 hus
    have := ih hvs.1
    simp only [List.length_cons, List.length_append]
    omega

/-- The bindings of a through block and its value are read in front of what can stand behind the
value. -/
theorem throughBody_leads (hsetup : ∀ b ∈ setup, b.Canonical) (h : value.Canonical)
    (hM : ∀ ts ∈ M, EndsExpression ts) :
    throughBody.Leads (setup.foldr LetBinding.spellingBefore (value.spelling * M)) M fun body =>
      body.1.map LetBinding.withoutSpans = setup.map LetBinding.withoutSpans
        ∧ body.2.withoutSpans = value.withoutSpans := by
  intro c hc
  have hlen := (length_le_of_mem_bindings hc).trans c.length_ahead_le_remaining
  exact throughBodyUpTo_leads hsetup h hM c.remaining hlen c hc

end Body

/-- An arrow ends a value. -/
lemma endsExpression_of_arrow {K : Language Token} :
    ∀ ts ∈ sign .arrow * K, EndsExpression ts :=
  fun ts hts => endsExpression_of_kind (begins_sign ts hts) rfl rfl (by simp) (by simp) rfl

/-- A through block is read; the arrow ends its value. -/
theorem throughBlock_leads {b : ThroughBlock} (hb : b.Canonical) :
    throughBlock.Leads (b.spellingBefore M) M fun b' => b'.withoutSpans = b.withoutSpans := by
  unfold throughBlock ThroughBlock.spellingBefore
  refine .expect_bind (fun _ ht => ht) fun start _ => ?_
  refine (throughGuard_leads hb.guard).bind fun guard hguard => ?_
  refine (fallback?_leads begins_sign).bind fun fallback hfallback => ?_
  refine .expect_bind (fun _ ht => ht) fun _ _ => ?_
  refine (throughBody_leads hb.setup hb.value endsExpression_of_arrow).bind ?_
  rintro ⟨setup, value⟩ ⟨hsetup, hvalue⟩
  refine .expect_bind (fun _ ht => ht) fun _ _ => .expect_bind (fun _ ht => ht.1) fun t ht => ?_
  refine .spanFrom_bind fun span => .pure ?_
  simp [ThroughBlock.withoutSpans, hguard, hfallback, hsetup, hvalue, ht.2]

/-! ## Sweeps -/

/-- The target of an arm is read. -/
lemma sweepTarget_leads {target : SweepTarget} :
    sweepTarget.Leads (target.spelling * M) M fun t => t.withoutSpans = target.withoutSpans := by
  unfold sweepTarget
  cases target with
  | tine ref =>
    refine .check_bind_true ref.begins ?_
    exact tineRef_leads.bind fun tine htine => .pure (congrArg SweepTarget.tine htine)
  | wildcard span =>
    refine .check_bind_false (begins_word.ne_of_eq (by simp)) ?_
    refine .checkWord_bind (fun _ ht => ht) ?_
    exact .advance_bind fun token _ => .pure rfl

/-- An arm is read, where its value ends. -/
lemma sweepArm_leads {a : SweepArm} (ha : a.value.Canonical) (hM : ∀ ts ∈ M, EndsExpression ts) :
    sweepArm.Leads (a.spelling * M) M fun a' => a'.withoutSpans = a.withoutSpans := by
  unfold sweepArm
  simp only [SweepArm.spelling, mul_assoc]
  refine .expect_bind (fun _ ht => ht) fun start _ => ?_
  refine sweepTarget_leads.bind fun target htarget => .expect_bind (fun _ ht => ht) fun _ _ => ?_
  refine (expression_leads ha hM).bind fun value hvalue => .spanFrom_bind fun span => .pure ?_
  simp [SweepArm.withoutSpans, htarget, hvalue]

/-- What is read for the items of a row is not empty if the row is not. -/
lemma isEmpty_eq_false {α β : Type} {V : α → β → Prop} {as : List α} {bs : List β}
    (h : List.Forall₂ V as bs) (hbs : bs ≠ []) : as.isEmpty = false := by
  cases h with
  | nil => exact absurd rfl hbs
  | cons => rfl

/-- The arms of a sweep are read up to the arrow behind them.  Each ends where the next one
begins. -/
lemma sweepArms_leads {arms : List SweepArm} (harms : ∀ a ∈ arms, a.value.Canonical) :
    (many (whenAt (.symbol .pipe) sweepArm)).Leads
      ((arms.map SweepArm.spelling).prod * (sign .arrow * M)) (sign .arrow * M)
      (List.Forall₂ (fun a' a => a'.withoutSpans = a.withoutSpans) · arms) := by
  rw [prod_mul_eq_foldr]
  refine .many_whenAt (F := fun K => ∀ ts ∈ K, EndsExpression ts) strict_sweepArm (by simp)
    (fun a ha K hK => sweepArm_leads (harms a ha) hK) (fun a _ K => a.begins) ?_
    endsExpression_of_arrow (begins_sign.ne_of_eq (by simp))
  intro a _ K _ ts hts
  exact endsExpression_of_kind (a.begins ts hts) rfl rfl (by simp) (by simp) rfl

/-- A sweep is read; the arrow behind the last arm ends it. -/
theorem sweepBlock_leads {b : SweepBlock} (hb : b.Canonical) :
    sweepBlock.Leads (b.spelling * M) M fun b' => b'.withoutSpans = b.withoutSpans := by
  unfold sweepBlock
  simp only [SweepBlock.spelling, mul_assoc]
  refine .expect_bind (fun _ ht => ht) fun start _ => .expect_bind (fun _ ht => ht) fun _ _ => ?_
  refine (sweepArms_leads hb.values).bind fun arms harms => ?_
  rw [if_neg (by simp [isEmpty_eq_false harms hb.ne_nil])]
  refine .expect_bind (fun _ ht => ht) fun _ _ => .expect_bind (fun _ ht => ht.1) fun t ht => ?_
  refine .spanFrom_bind fun span => .pure ?_
  simp [SweepBlock.withoutSpans, map_eq_map harms, ht.2]

end Parser

end RakeLang
