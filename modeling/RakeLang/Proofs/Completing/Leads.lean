import RakeLang.Proofs.Rereading.Rake

/-!
# Readings that lead from one language to another

A parser leads from a language to another one if, wherever a list of the first stands ahead, it
succeeds and leaves a list of the second ahead.  What stands behind a syntax tree is thus a part of
the language before it is read, and each sign, word and part of the tree that is read takes one
factor from the front of this language.  The lemmas follow the combinators, as those of
`Parser.Accepts` do.

## Main definitions

* `RakeLang.Spelling.Begins` — a property of the first tokens of the lists of a language.
* `RakeLang.Parser.Leads` — the judgement.

## Main results

* `RakeLang.Parser.Leads.bind`, `RakeLang.Parser.Leads.expect_bind` — single steps.
* `RakeLang.Parser.Leads.many`, `RakeLang.Parser.Leads.many_whenAt` — repetitions, the items of
  which are spelled before what stands behind them.
-/

set_option relaxedAutoImplicit false
set_option autoImplicit false

namespace RakeLang

open Spelling

variable {α β : Type}

/-! ## The beginnings of a language -/

namespace Spelling

/-- The first token of each list of the language has a kind of which `S` holds; that of an empty
list is the end of the input. -/
def Begins (S : Kind → Prop) (L : Language Token) : Prop := ∀ ts ∈ L, S (headKind ts)

section Begins

variable {S S' : Kind → Prop} {P : Token → Prop} {L K : Language Token}

/-- A weaker property of first tokens. -/
lemma Begins.imp (h : Begins S L) (himp : ∀ kind, S kind → S' kind) : Begins S' L :=
  fun ts hts => himp _ (h ts hts)

/-- What all lists of a language begin with, those of a smaller one begin with. -/
lemma Begins.mono (h : Begins S L) (hK : K ≤ L) : Begins S K := fun ts hts => h ts (hK hts)

/-- What begins with one kind of token does not begin with another one. -/
lemma Begins.ne_of_eq {kind other : Kind} (h : Begins (· = kind) L) (hother : kind ≠ other) :
    Begins (· ≠ other) L :=
  h.imp fun _ hkind heq => hother (hkind.symm.trans heq)

/-- A test that tells the tokens at the head from those of a kind. -/
lemma Begins.ne_of_test {test : Kind → Bool} {kind : Kind}
    (h : Begins (fun kind => test kind = true) L) (hkind : test kind = false) :
    Begins (· ≠ kind) L := by
  refine h.imp fun other hother heq => ?_
  rw [heq, hkind] at hother
  cases hother

/-- A token in front tells what the lists begin with. -/
lemma begins_token_mul (h : ∀ t, P t → S t.kind) : Begins S (token P * L) := by
  intro ts hts
  obtain ⟨t, us, ht, -, rfl⟩ := mem_token_mul.1 hts
  exact h t ht

/-- A sign in front is what the lists begin with. -/
lemma begins_sign {s : Symbol} : Begins (· = .symbol s) (sign s * L) :=
  begins_token_mul fun _ ht => ht

/-- A word in front is what the lists begin with. -/
lemma begins_keyword {k : Keyword} : Begins (· = .keyword k) (keyword k * L) :=
  begins_token_mul fun _ ht => ht

/-- A token with a given text in front tells the kind that the lists begin with. -/
lemma begins_word {kind : Kind} {text : String} : Begins (· = kind) (word kind text * L) :=
  begins_token_mul fun _ ht => ht.1

/-- A row begins as its items do, and as what stands behind it does. -/
lemma begins_foldr {before : β → Language Token → Language Token} {bs : List β}
    (hbefore : ∀ b ∈ bs, ∀ M, Begins S (before b M)) (hK : Begins S K) :
    Begins S (bs.foldr before K) := by
  cases bs with
  | nil => exact hK
  | cons b bs => exact hbefore b (by simp) _

end Begins

/-- A row of items before a language, one item at a time. -/
lemma prod_mul_eq_foldr (L : β → Language Token) (bs : List β) (K : Language Token) :
    (bs.map L).prod * K = bs.foldr (fun b M => L b * M) K := by
  induction bs with
  | nil => rw [List.map_nil, List.prod_nil, one_mul, List.foldr_nil]
  | cons b bs ih => rw [List.map_cons, List.prod_cons, mul_assoc, ih, List.foldr_cons]

/-- Where each item stands in front of what stands behind it, they stand in a row. -/
lemma foldr_le_prod_mul {before : β → Language Token → Language Token} {L : β → Language Token}
    (h : ∀ b M, before b M ≤ L b * M) (bs : List β) (K : Language Token) :
    bs.foldr before K ≤ (bs.map L).prod * K := by
  rw [prod_mul_eq_foldr]
  induction bs with
  | nil => exact le_rfl
  | cons b bs ih => exact (h b _).trans (mul_le_mul' le_rfl ih)

end Spelling

/-! ## The judgement -/

namespace Parser

/-- Where a list of `L` stands ahead, the parser succeeds, answers a value of which `Q` holds, and
leaves a list of `K` ahead. -/
def Leads (p : Parser α) (L K : Language Token) (Q : α → Prop) : Prop :=
  ∀ c : Cursor, c.ahead ∈ L → ∃ a c', p c = .ok a c' ∧ Q a ∧ c'.ahead ∈ K

namespace Leads

section Basic

variable {p : Parser α} {f : α → Parser β} {L M K : Language Token} {P P' : α → Prop}
  {Q : β → Prop} {T : Token → Prop} {kind : Kind}

/-- A weaker condition on the value. -/
lemma imp (h : p.Leads L K P) (himp : ∀ a, P a → P' a) : p.Leads L K P' := by
  intro c hc
  obtain ⟨a, c', hp, ha, hc'⟩ := h c hc
  exact ⟨a, c', hp, himp a ha, hc'⟩

/-- From a smaller language. -/
lemma mono_left (h : p.Leads L K P) (hM : M ≤ L) : p.Leads M K P := fun c hc => h c (hM hc)

/-- To a larger language. -/
lemma mono_right (h : p.Leads L K P) (hM : K ≤ M) : p.Leads L M P := by
  intro c hc
  obtain ⟨a, c', hp, ha, hc'⟩ := h c hc
  exact ⟨a, c', hp, ha, hM hc'⟩

/-- The lists of a language can be looked at one by one. -/
lemma of_forall (h : ∀ ts ∈ L, p.Leads {ts} K P) : p.Leads L K P :=
  fun c hc => h c.ahead hc c rfl

/-- What is accepted in front of the lists of a language is read there. -/
lemma of_accepts (h : ∀ ts ∈ L, ∀ rest ∈ K, p.Accepts ts rest P) : p.Leads (L * K) K P := by
  intro c hc
  obtain ⟨ts, hts, rest, hrest, hahead⟩ := Language.mem_mul.1 hc
  obtain ⟨a, ha, hp⟩ := h ts hts rest hrest c hahead.symm
  exact ⟨a, c.behind ts rest, hp, ha, hrest⟩

/-- A value is answered without a token. -/
lemma pure {a : α} (h : P a) : (pure a : Parser α).Leads K K P := fun c hc => ⟨a, c, rfl, h, hc⟩

/-- One parser behind another. -/
theorem bind (hp : p.Leads L M P) (hf : ∀ a, P a → (f a).Leads M K Q) :
    (p >>= f).Leads L K Q := by
  intro c hc
  obtain ⟨a, c₁, hpa, ha, hc₁⟩ := hp c hc
  obtain ⟨b, c₂, hfb, hb, hc₂⟩ := hf a ha c₁ hc₁
  exact ⟨b, c₂, bind_eq_ok.2 ⟨a, c₁, hpa, hfb⟩, hb, hc₂⟩

/-! ### Looking -/

/-- A parser that only looks at the cursor. -/
lemma look_bind {look : Parser α} {g : Cursor → α} {a : α} (hlook : ∀ c, look c = .ok (g c) c)
    (hg : ∀ c : Cursor, c.ahead ∈ L → g c = a) (h : (f a).Leads L K Q) :
    (look >>= f).Leads L K Q := by
  have hleads : look.Leads L L (· = a) := fun c hc => ⟨g c, c, hlook c, hg c hc, hc⟩
  exact hleads.bind (by rintro _ rfl; exact h)

/-- A look at the kind of the first token. -/
lemma peekKind_bind {f : Kind → Parser β} (hL : Begins (· = kind) L)
    (h : (f kind).Leads L K Q) : (peekKind >>= f).Leads L K Q :=
  look_bind (fun _ => rfl) (fun c hc => c.peek_kind.trans (hL _ hc)) h

/-- A test of the first token that succeeds. -/
lemma check_bind_true {f : Bool → Parser β} (hL : Begins (· = kind) L)
    (h : (f true).Leads L K Q) : (check kind >>= f).Leads L K Q :=
  look_bind (fun _ => rfl) (fun c hc => by rw [c.peek_kind, hL _ hc, beq_self_eq_true]) h

/-- A test of the first token that fails. -/
lemma check_bind_false {f : Bool → Parser β} (hL : Begins (· ≠ kind) L)
    (h : (f false).Leads L K Q) : (check kind >>= f).Leads L K Q :=
  look_bind (fun _ => rfl) (fun c hc => by rw [c.peek_kind, beq_eq_false_iff_ne.2 (hL _ hc)]) h

/-- A test of the second token. -/
lemma checkAhead_bind {f : Bool → Parser β} {b : Bool}
    (hL : ∀ ts ∈ L, (headKind ts.tail == kind) = b) (h : (f b).Leads L K Q) :
    (checkAhead 1 kind >>= f).Leads L K Q :=
  look_bind (fun _ => rfl) (fun c hc => by rw [c.lookahead_one_kind, hL _ hc]) h

/-- The look for a word finds it. -/
lemma checkWord_bind {text : String} {f : Bool → Parser β}
    (hT : ∀ t, T t → t.kind = .ident ∧ t.lexeme = text)
    (h : (f true).Leads (token T * L) K Q) :
    (checkWord text >>= f).Leads (token T * L) K Q := by
  refine look_bind (fun _ => rfl) (fun c hc => ?_) h
  obtain ⟨t, us, ht, -, hahead⟩ := mem_token_mul.1 hc
  simp [Cursor.peek, hahead, hT t ht]

/-- A span, of which nothing is asked. -/
lemma spanFrom_bind {start : Span} {f : Span → Parser β} (h : ∀ span, (f span).Leads L K Q) :
    (spanFrom start >>= f).Leads L K Q := by
  have hleads : (spanFrom start).Leads L L fun _ => True := fun c hc => ⟨_, c, rfl, trivial, hc⟩
  exact hleads.bind fun span _ => h span

/-! ### Single tokens -/

/-- A token is read, whatever it is. -/
lemma advance : advance.Leads (token T * K) K T := by
  intro c hc
  obtain ⟨t, us, ht, hus, hahead⟩ := mem_token_mul.1 hc
  refine ⟨c.peek, c.advance, rfl, ?_, ?_⟩
  · simpa [Cursor.peek, hahead] using ht
  · rwa [Cursor.advance_eq_behind hahead]

/-- A token is read, and what follows goes on with it. -/
lemma advance_bind {f : Token → Parser β} (h : ∀ t, T t → (f t).Leads L K Q) :
    (Parser.advance >>= f).Leads (token T * L) K Q :=
  advance.bind h

/-- A token that is asked for is read. -/
theorem expect_bind {f : Token → Parser β} (hT : ∀ t, T t → t.kind = kind)
    (h : ∀ t, T t → (f t).Leads L K Q) : (expect kind >>= f).Leads (token T * L) K Q := by
  have hexpect : (expect kind).Leads (token T * L) L T := by
    intro c hc
    obtain ⟨t, c', hadvance, ht, hc'⟩ := advance c hc
    obtain ⟨rfl, rfl⟩ := EStateM.Result.ok.inj hadvance
    exact ⟨c.peek, c.advance, expect_of_eq (hT _ ht), ht, hc'⟩
  exact hexpect.bind h

/-- A token that may stand there is read. -/
lemma eat_bind_true {f : Bool → Parser β} (hT : ∀ t, T t → t.kind = kind)
    (h : (f true).Leads L K Q) : (eat kind >>= f).Leads (token T * L) K Q := by
  have heat : (eat kind).Leads (token T * L) L (· = true) := by
    unfold eat
    exact check_bind_true (begins_token_mul hT) (advance_bind fun _ _ => pure rfl)
  exact heat.bind (by rintro _ rfl; exact h)

/-- A token that may stand there is missing. -/
lemma eat_bind_false {f : Bool → Parser β} (hL : Begins (· ≠ kind) L)
    (h : (f false).Leads L K Q) : (eat kind >>= f).Leads L K Q := by
  have heat : (eat kind).Leads L L (· = false) := by
    unfold eat
    exact check_bind_false hL (pure rfl)
  exact heat.bind (by rintro _ rfl; exact h)

end Basic

/-! ### Repetition -/

section Repetition

variable {step : Parser (Option α)} {item : Parser α} {kind : Kind} {L K : Language Token}
  {before : β → Language Token → Language Token} {V : α → β → Prop} {P : α → Prop}
  {F : Language Token → Prop} {bs : List β}

/-- A repetition reads a row of items, each of which is spelled before what stands behind it, if
`F` holds of what can stand there.

**Proof sketch.** Induction on the items: `F` holds of what stands behind the row and is handed on,
item by item, to what stands behind each of them. -/
theorem many [hrounds : Rounds step]
    (hstep : ∀ b ∈ bs, ∀ M, F M → step.Leads (before b M) M fun o => ∃ a, o = some a ∧ V a b)
    (hbefore : ∀ b ∈ bs, ∀ M, F M → F (before b M)) (hK : F K)
    (hstop : ∀ c : Cursor, c.ahead ∈ K → step c = .ok none c) :
    (Parser.many step).Leads (bs.foldr before K) K (List.Forall₂ V · bs) := by
  have hruns : F (bs.foldr before K) ∧ ∀ c : Cursor, c.ahead ∈ bs.foldr before K →
      ∃ as c', Runs step c as c' ∧ List.Forall₂ V as bs ∧ c'.ahead ∈ K := by
    induction bs with
    | nil => exact ⟨hK, fun c hc => ⟨[], c, .stop c, .nil, hc⟩⟩
    | cons b bs ih =>
      obtain ⟨hF, ih⟩ := ih (fun b' hb' => hstep b' (by simp [hb']))
        (fun b' hb' => hbefore b' (by simp [hb']))
      refine ⟨hbefore b (by simp) _ hF, fun c hc => ?_⟩
      obtain ⟨_, c₁, hpa, ⟨a, rfl, ha⟩, hc₁⟩ := hstep b (by simp) _ hF c hc
      obtain ⟨as, c₂, hrun, has, hc₂⟩ := ih c₁ hc₁
      exact ⟨a :: as, c₂, .next hpa (hrounds.some_lt c a c₁ hpa) hrun, .cons ha has, hc₂⟩
  intro c hc
  obtain ⟨as, c', hrun, has, hc'⟩ := hruns.2 c hc
  exact ⟨as, c', hrun.many (hstop c' hc'), has, hc'⟩

/-- An item that its first token tells is read. -/
lemma whenAt (hL : Begins (· = kind) L) (hitem : item.Leads L K P) :
    (Parser.whenAt kind item).Leads L K fun o => ∃ a, o = some a ∧ P a := by
  unfold Parser.whenAt
  exact check_bind_true hL (hitem.bind fun a ha => pure ⟨a, rfl, ha⟩)

/-- Where another token stands, the item is missing. -/
lemma whenAt_stops {c : Cursor} (hc : headKind c.ahead ≠ kind) :
    Parser.whenAt kind item c = .ok none c := by
  have hcheck : (c.peek.kind == kind) = false := by
    rw [c.peek_kind]
    exact beq_eq_false_iff_ne.2 hc
  exact bind_eq_ok.2 ⟨false, c, by rw [← hcheck]; rfl, rfl⟩

/-- A repetition of items that begin with tokens of one kind, up to a token of another kind. -/
theorem many_whenAt [Lowers item] (hstrict : ∀ c, Strict item c) (hkind : kind ≠ .eof)
    (hitem : ∀ b ∈ bs, ∀ M, F M → item.Leads (before b M) M (V · b))
    (hbegins : ∀ b ∈ bs, ∀ M, Begins (· = kind) (before b M))
    (hbefore : ∀ b ∈ bs, ∀ M, F M → F (before b M)) (hK : F K) (hstop : Begins (· ≠ kind) K) :
    (Parser.many (Parser.whenAt kind item)).Leads (bs.foldr before K) K
      (List.Forall₂ V · bs) := by
  have := rounds_whenAt hstrict hkind
  exact many (fun b hb M hM => whenAt (hbegins b hb M) (hitem b hb M hM)) hbefore hK
    fun c hc => whenAt_stops (hstop _ hc)

end Repetition

end Leads

end Parser

end RakeLang
