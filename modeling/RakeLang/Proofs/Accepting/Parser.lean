import RakeLang.Proofs.Reading.Parser

/-!
# What a parser accepts

A parser accepts a list of tokens before another list if, wherever these tokens stand ahead, it
succeeds, stops behind the first list, and has split nothing.  Accepting looks from the tokens to
the value, as `Ensures` looks from the value to the tokens; its lemmas follow the combinators in
the same way.

## Main definitions

* `RakeLang.Parser.Accepts` — the judgement.
* `RakeLang.Parser.Runs` — the rounds of a repetition.
* `RakeLang.Parser.Arrives`, `RakeLang.Parser.Chains`, `RakeLang.Parser.Prefixes` — chains in
  progress, with rounds or operators behind a value and with operators in front of it.

## Main results

* `RakeLang.Parser.Accepts.bind` — one parser behind another.
* `RakeLang.Parser.Accepts.many`, `RakeLang.Parser.Accepts.commaSeparated` — repetitions and lists.
* `RakeLang.Parser.Chains.leftAssoc`, `RakeLang.Parser.Prefixes.accepts` — chains.
-/

set_option relaxedAutoImplicit false
set_option autoImplicit false

namespace RakeLang

open Token Spelling

/-! ## The cursor behind some tokens -/

namespace Cursor

/-- The kind of the token behind the one at the cursor. -/
lemma lookahead_one_kind (c : Cursor) : (c.lookahead 1).kind = headKind c.ahead.tail := by
  rcases c with ⟨past, _ | ⟨t, _ | ⟨u, ts⟩⟩, closing, h⟩
  · exact h
  · exact h
  · rfl

/-- The cursor behind the tokens `ts`, with `rest` ahead. -/
def behind (c : Cursor) (ts rest : List Token) : Cursor :=
  { c with past := ts.reverse ++ c.past, ahead := rest }

section Behind

variable {c : Cursor} {t : Token} {ts us rest : List Token}

/-- What is ahead of a cursor behind tokens. -/
@[simp] lemma ahead_behind : (c.behind ts rest).ahead = rest := rfl

/-- Behind some tokens, and then behind others, is behind both. -/
lemma behind_behind {more : List Token} :
    (c.behind ts more).behind us rest = c.behind (ts ++ us) rest := by
  simp [behind]

/-- Behind no tokens the cursor stays. -/
lemma behind_nil (h : c.ahead = rest) : c.behind [] rest = c := by
  subst h
  rfl

/-- To read a token is to go behind it. -/
lemma advance_eq_behind (h : c.ahead = t :: rest) : c.advance = c.behind [t] rest := by
  simp [advance, h, behind]

/-- To go behind tokens that stand ahead is a reading that splits nothing. -/
lemma reads_behind (h : c.ahead = ts ++ rest) : c.Reads Eq ts (c.behind ts rest) :=
  ⟨rfl, h, rfl⟩

/-- A reading that splits nothing goes behind the tokens that it reads. -/
lemma Reads.eq_behind {c' : Cursor} (h : c.Reads Eq ts c') : c' = c.behind ts c'.ahead := by
  obtain ⟨hpast, -, hclosing⟩ := h
  cases c'
  simp_all [behind]

/-- Behind tokens less remains. -/
lemma remaining_behind_lt (h : c.ahead = ts ++ rest) (hts : ts ≠ []) :
    (c.behind ts rest).remaining < c.remaining :=
  (reads_behind h).remaining_lt hts

end Behind

end Cursor

namespace Parser

variable {α β γ δ : Type}

/-- Before `rest`, the parser reads exactly `ts`, splits nothing and answers a value of which `Q`
holds. -/
def Accepts (p : Parser α) (ts rest : List Token) (Q : α → Prop) : Prop :=
  ∀ c : Cursor, c.ahead = ts ++ rest → ∃ a, Q a ∧ p c = .ok a (c.behind ts rest)

namespace Accepts

section Basic

variable {p : Parser α} {f : α → Parser β} {ts us rest : List Token} {t : Token} {kind : Kind}
  {P : α → Prop} {Q : β → Prop}

/-- What is accepted with a property is accepted with a weaker one. -/
lemma imp {P' : α → Prop} (h : p.Accepts ts rest P) (himp : ∀ a, P a → P' a) :
    p.Accepts ts rest P' := by
  intro c hc
  obtain ⟨a, ha, hp⟩ := h c hc
  exact ⟨a, himp a ha, hp⟩

/-- One parser behind another accepts what the two accept, one behind the other. -/
theorem bind (hp : p.Accepts ts (us ++ rest) P) (hf : ∀ a, P a → (f a).Accepts us rest Q) :
    (p >>= f).Accepts (ts ++ us) rest Q := by
  intro c hc
  obtain ⟨a, ha, hpa⟩ := hp c (by rw [hc, List.append_assoc])
  obtain ⟨b, hb, hfb⟩ := hf a ha (c.behind ts (us ++ rest)) rfl
  exact ⟨b, hb, bind_eq_ok.2 ⟨a, _, hpa, by rw [hfb, Cursor.behind_behind]⟩⟩

/-- A parser that reads nothing behind another one. -/
lemma bind_nil (hp : p.Accepts ts rest P) (hf : ∀ a, P a → (f a).Accepts [] rest Q) :
    (p >>= f).Accepts ts rest Q := by
  rw [← List.append_nil ts]
  exact hp.bind hf

/-- A value is answered without a token. -/
lemma pure {a : α} (h : P a) : (pure a : Parser α).Accepts [] rest P :=
  fun c hc => ⟨a, h, by rw [Cursor.behind_nil (by simpa using hc)]; rfl⟩

/-- A parser that only looks at the cursor. -/
lemma look_bind {look : Parser α} {g : Cursor → α} (hlook : ∀ c, look c = .ok (g c) c)
    (h : ∀ c : Cursor, c.ahead = ts ++ rest → (f (g c)).Accepts ts rest Q) :
    (look >>= f).Accepts ts rest Q := by
  intro c hc
  obtain ⟨b, hb, hfb⟩ := h c hc c hc
  exact ⟨b, hb, bind_eq_ok.2 ⟨_, c, hlook c, hfb⟩⟩

/-- A look at the next token. -/
lemma peek_bind {f : Token → Parser β} (h : (f t).Accepts (t :: ts) rest Q) :
    (peek >>= f).Accepts (t :: ts) rest Q :=
  look_bind (fun _ => rfl) fun c hc => by simpa [Cursor.peek, hc] using h

/-- A look at the kind of the next token. -/
lemma peekKind_bind {f : Kind → Parser β} (h : (f (headKind (ts ++ rest))).Accepts ts rest Q) :
    (peekKind >>= f).Accepts ts rest Q :=
  look_bind (fun _ => rfl) fun c hc => by rwa [c.peek_kind, hc]

/-- A test of the kind of the next token. -/
lemma check_bind {f : Bool → Parser β}
    (h : (f (headKind (ts ++ rest) == kind)).Accepts ts rest Q) :
    (check kind >>= f).Accepts ts rest Q :=
  look_bind (fun _ => rfl) fun c hc => by rwa [c.peek_kind, hc]

/-- A test of the kind of the token behind the next one. -/
lemma checkAhead_bind {f : Bool → Parser β}
    (h : (f (headKind (ts ++ rest).tail == kind)).Accepts ts rest Q) :
    (checkAhead 1 kind >>= f).Accepts ts rest Q :=
  look_bind (fun _ => rfl) fun c hc => by rwa [c.lookahead_one_kind, hc]

/-- A span, of which nothing is asked. -/
lemma spanFrom_bind {start : Span} {f : Span → Parser β}
    (h : ∀ span, (f span).Accepts ts rest Q) : (spanFrom start >>= f).Accepts ts rest Q :=
  look_bind (fun _ => rfl) fun _ _ => h _

/-- A token that is read, whatever it is. -/
lemma advance_bind {f : Token → Parser β} (h : (f t).Accepts ts rest Q) :
    (advance >>= f).Accepts (t :: ts) rest Q := by
  have hadvance : advance.Accepts [t] (ts ++ rest) (· = t) := by
    intro c hc
    refine ⟨t, rfl, ?_⟩
    rw [advance, Cursor.peek, Cursor.advance_eq_behind hc, hc]
    rfl
  exact hadvance.bind (by rintro _ rfl; exact h)

/-- A token that is asked for and stands there. -/
lemma expect_bind {f : Token → Parser β} (ht : t.kind = kind)
    (h : (f t).Accepts ts rest Q) : (expect kind >>= f).Accepts (t :: ts) rest Q := by
  unfold expect
  intro c hc
  obtain ⟨b, hb, hfb⟩ := advance_bind h c hc
  have hkind : (c.peek.kind == kind) = true := by simp [c.peek_kind, hc, ht]
  refine ⟨b, hb, ?_⟩
  rw [← hfb]
  change EStateM.bind (EStateM.bind (check kind) _) f c = EStateM.bind advance f c
  simp [EStateM.bind, check, hkind]

/-- A token that may stand there, and does. -/
lemma eat_bind_true {f : Bool → Parser β} (ht : t.kind = kind)
    (h : (f true).Accepts ts rest Q) : (eat kind >>= f).Accepts (t :: ts) rest Q := by
  have heat : (eat kind).Accepts [t] (ts ++ rest) (· = true) := by
    unfold eat
    refine check_bind ?_
    rw [if_pos (by simpa using ht)]
    exact advance_bind (pure rfl)
  exact heat.bind (by rintro _ rfl; exact h)

/-- A token that may stand there, and does not. -/
lemma eat_bind_false {f : Bool → Parser β} (hrest : headKind (ts ++ rest) ≠ kind)
    (h : (f false).Accepts ts rest Q) : (eat kind >>= f).Accepts ts rest Q := by
  have heat : (eat kind).Accepts [] (ts ++ rest) (· = false) := by
    unfold eat
    refine check_bind ?_
    rw [if_neg (by simpa using hrest)]
    exact pure rfl
  exact heat.bind (by rintro _ rfl; exact h)

/-- Where a word does not stand, the look for it finds nothing. -/
lemma checkWord_bind_false {text : String} {f : Bool → Parser β}
    (hrest : ∀ t ∈ (ts ++ rest).head?, t.kind = .ident → t.lexeme ≠ text)
    (h : (f false).Accepts ts rest Q) : (checkWord text >>= f).Accepts ts rest Q :=
  look_bind (fun _ => rfl) fun c hc => by
    have hword : (c.peek.kind == .ident && c.peek.lexeme == text) = false := by
      rcases hahead : c.ahead with _ | ⟨t, more⟩
      · simp [Cursor.peek_kind_of_ahead_nil hahead]
      · simpa [Cursor.peek, hahead] using hrest t (by simp [← hc, hahead])
    rwa [hword]

/-- Where a word stands, the look for it compares its text. -/
lemma checkWord_bind {text : String} {f : Bool → Parser β}
    (h : (f (t.kind == .ident && t.lexeme == text)).Accepts (t :: ts) rest Q) :
    (checkWord text >>= f).Accepts (t :: ts) rest Q :=
  look_bind (fun _ => rfl) fun c hc => by simpa [Cursor.peek, hc] using h

/-- What is accepted at a cursor is ensured there, with the tokens that are read. -/
lemma ensures (h : p.Accepts ts rest P) {c : Cursor} (hc : c.ahead = ts ++ rest) :
    p.Ensures Eq c fun a us c' => P a ∧ us = ts ∧ c'.ahead = rest := by
  obtain ⟨a, ha, hp⟩ := h c hc
  constructor
  · intro a' c' hp'
    obtain ⟨rfl, rfl⟩ := EStateM.Result.ok.inj (hp.symm.trans hp')
    exact ⟨ts, Cursor.reads_behind hc, ha, rfl, rfl⟩
  · intro fault c' hp'
    cases hp.symm.trans hp'
  · intro fault c' hp'
    cases hp.symm.trans hp'

/-- A parser that is bounded by what remains has a bound that is large enough. -/
lemma of_remaining {p : Nat → Parser α} (h : ∀ n, ts.length ≤ n → (p n).Accepts ts rest P) :
    Accepts (fun c => p c.remaining c) ts rest P := by
  intro c hc
  refine h c.remaining ?_ c hc
  have := c.length_ahead_le_remaining
  rw [hc, List.length_append] at this
  omega

end Basic

end Accepts

/-! ## Repetition -/

/-- Rounds of a repetition, each of which answers something and lowers what remains. -/
inductive Runs (step : Parser (Option β)) : Cursor → List β → Cursor → Prop
  | stop (c : Cursor) : Runs step c [] c
  | next {c c₁ c₂ : Cursor} {b : β} {bs : List β} (hstep : step c = .ok (some b) c₁)
      (hlt : c₁.remaining < c.remaining) (h : Runs step c₁ bs c₂) : Runs step c (b :: bs) c₂

namespace Runs

variable {step : Parser (Option β)} {c c₁ c₂ : Cursor} {b : β} {bs : List β}

/-- There are no more rounds than what remains. -/
lemma length_le (h : Runs step c bs c₁) : bs.length + c₁.remaining ≤ c.remaining := by
  induction h with
  | stop c => simp
  | next hstep hlt h ih =>
    rw [List.length_cons]
    omega

/-- One more round behind others. -/
lemma snoc (h : Runs step c bs c₁) (hstep : step c₁ = .ok (some b) c₂)
    (hlt : c₂.remaining < c₁.remaining) : Runs step c (bs ++ [b]) c₂ := by
  induction h with
  | stop c => exact .next hstep hlt (.stop c₂)
  | next hstep' hlt' h ih => exact .next hstep' hlt' (ih hstep hlt)

/-- A repetition under a bound makes the rounds, if there are no more of them than the bound. -/
lemma manyUpTo (h : Runs step c bs c₁) (hstop : step c₁ = .ok none c₁) :
    ∀ n, bs.length ≤ n → manyUpTo step n c = .ok bs c₁ := by
  induction h with
  | stop c =>
    intro n hn
    rcases n with _ | n
    · rfl
    · exact bind_eq_ok.2 ⟨none, c, hstop, rfl⟩
  | next hstep hlt h ih =>
    intro n hn
    rcases n with _ | n
    · simp at hn
    · refine bind_eq_ok.2 ⟨_, _, hstep, bind_eq_ok.2 ⟨_, _, ih hstop n (by simpa using hn), rfl⟩⟩

/-- A repetition answers the rounds up to where nothing is answered. -/
lemma many (h : Runs step c bs c₁) (hstop : step c₁ = .ok none c₁) :
    many step c = .ok bs c₁ := by
  cases h with
  | stop => exact bind_eq_ok.2 ⟨none, c, hstop, rfl⟩
  | next hstep hlt h =>
    have hlen := h.length_le
    have htail := h.manyUpTo hstop _ (Nat.le_of_add_right_le hlen)
    exact bind_eq_ok.2 ⟨_, _, hstep, bind_eq_ok.2 ⟨_, _, htail, rfl⟩⟩

end Runs

namespace Accepts

section Repetition

variable {step : Parser (Option α)} {item : Parser α} {L : β → Language Token}
  {V : α → β → Prop} {F : List Token → Prop} {ts us rest : List Token} {close : Kind}

/-- A step that answers nothing stays. -/
lemma eq_none (h : step.Accepts [] rest (· = none)) {c : Cursor} (hc : c.ahead = rest) :
    step c = .ok none c := by
  obtain ⟨_, rfl, ha⟩ := h c hc
  rwa [Cursor.behind_nil hc] at ha

/-- A repetition accepts the tokens of its items, one after the other, if each item is accepted
before what can follow it.

**Proof sketch.** Induction on the items. -/
theorem many {bs : List β} (hts : ts ∈ (bs.map L).prod)
    (hstep : ∀ b ∈ bs, ∀ us ∈ L b, us.length ≤ ts.length → ∀ more, F more →
      step.Accepts us more fun o => ∃ a, o = some a ∧ V a b)
    (hnil : ∀ b ∈ bs, [] ∉ L b) (hmore : ∀ b ∈ bs, ∀ us ∈ L b, ∀ more, F (us ++ more))
    (hrest : F rest) (hstop : step.Accepts [] rest (· = none)) :
    (Parser.many step).Accepts ts rest fun as => List.Forall₂ V as bs := by
  have hruns : ∀ c : Cursor, c.ahead = ts ++ rest →
      ∃ as, List.Forall₂ V as bs ∧ Runs step c as (c.behind ts rest) := by
    clear hstop
    induction bs generalizing ts with
    | nil =>
      intro c hc
      obtain rfl : ts = [] := hts
      exact ⟨[], .nil, by rw [Cursor.behind_nil (by simpa using hc)]; exact .stop c⟩
    | cons b bs ih =>
      intro c hc
      obtain ⟨us, hus, vs, hvs, rfl⟩ := mem_prod_cons hts
      rw [List.append_assoc] at hc
      have hfollows : F (vs ++ rest) := by
        rcases bs with _ | ⟨b', bs⟩
        · obtain rfl : vs = [] := hvs
          exact hrest
        · obtain ⟨us', hus', vs', -, rfl⟩ := mem_prod_cons hvs
          rw [List.append_assoc]
          exact hmore b' (by simp) us' hus' _
      obtain ⟨_, ⟨a, rfl, ha⟩, hpa⟩ := hstep b (by simp) us hus (by simp) _ hfollows c hc
      obtain ⟨as, has, hrun⟩ := ih hvs
        (fun b' hb' us' hus' hlen => hstep b' (by simp [hb']) us' hus' (by simp; omega))
        (fun b' hb' => hnil b' (by simp [hb'])) (fun b' hb' => hmore b' (by simp [hb']))
        (c.behind us (vs ++ rest)) rfl
      refine ⟨a :: as, .cons ha has, .next hpa ?_ ?_⟩
      · exact Cursor.remaining_behind_lt hc fun h => hnil b (by simp) (h ▸ hus)
      · rwa [Cursor.behind_behind] at hrun
  intro c hc
  obtain ⟨as, has, hrun⟩ := hruns c hc
  exact ⟨as, has, hrun.many (hstop.eq_none rfl)⟩

/-- Where a step answers nothing at once, its repetition answers an empty list. -/
lemma many_nil (hstop : step.Accepts [] rest (· = none)) :
    (Parser.many step).Accepts [] rest (· = []) := by
  intro c hc
  rw [Cursor.behind_nil (by simpa using hc)]
  exact ⟨[], rfl, (Runs.stop c).many (hstop.eq_none hc)⟩

/-- Where no comma stands, no item stands behind it. -/
lemma afterComma_stops (hrest : headKind rest ≠ .symbol .comma) :
    (afterComma item).Accepts [] rest (· = none) := by
  unfold afterComma
  exact eat_bind_false hrest (pure rfl)

/-- Items behind commas, up to a token that is no comma.

**Proof sketch.** An instance of `many` in which an item may stand before a comma or before `close`.
Each item spells its comma first, so what follows an item that is not the last begins with a comma;
at the end `close` is no comma, and the loop stops. -/
lemma many_afterComma {bs : List β} (hts : ts ∈ (bs.map fun b => sign .comma * L b).prod)
    (hitem : ∀ b ∈ bs, ∀ us ∈ L b, us.length ≤ ts.length → ∀ more,
      headKind more = .symbol .comma ∨ headKind more = close → item.Accepts us more (V · b))
    (hclose : close ≠ .symbol .comma) (hrest : headKind rest = close) :
    (Parser.many (afterComma item)).Accepts ts rest fun as => List.Forall₂ V as bs := by
  refine many (F := fun more => headKind more = .symbol .comma ∨ headKind more = close) hts
    ?_ (by simp [sign]) ?_ (.inr hrest) ?_
  · intro b hb us hus hlen more hmore
    obtain ⟨comma, vs, hcomma, hvs, rfl⟩ := mem_token_mul.1 hus
    unfold afterComma
    refine eat_bind_true hcomma ?_
    refine (hitem b hb vs hvs (by simp at hlen; omega) more hmore).bind_nil ?_
    exact fun a ha => pure ⟨a, rfl, ha⟩
  · intro b hb us hus more
    obtain ⟨comma, us, hcomma, -, rfl⟩ := mem_token_mul.1 hus
    exact .inl hcomma
  · exact afterComma_stops (by rw [hrest]; exact hclose)

/-- A list with commas, up to the bracket that closes it.

**Proof sketch.** The list is empty if the bracket stands at once.  Otherwise every item ends at a
comma or at the bracket: the first one, and those behind commas (`many_afterComma`). -/
theorem commaSeparated {bs : List β} (hts : ts ∈ separated (bs.map L))
    (hitem : ∀ b ∈ bs, ∀ us ∈ L b, us.length ≤ ts.length → ∀ more,
      headKind more = .symbol .comma ∨ headKind more = close → item.Accepts us more (V · b))
    (hopen : ∀ b ∈ bs, ∀ us ∈ L b, ∀ more, headKind (us ++ more) ≠ close)
    (hclose : close ≠ .symbol .comma) (hrest : headKind rest = close) :
    (Parser.commaSeparated close item).Accepts ts rest fun as => List.Forall₂ V as bs := by
  unfold Parser.commaSeparated
  refine check_bind ?_
  rcases bs with _ | ⟨b, bs⟩
  · obtain rfl : ts = [] := hts
    rw [if_pos (by simpa using hrest)]
    exact pure .nil
  · obtain ⟨us, hus, vs, hvs, rfl⟩ := mem_separated_cons hts
    rw [if_neg (by simpa using hopen b (by simp) us hus _)]
    have hfollows : headKind (vs ++ rest) = .symbol .comma ∨ headKind (vs ++ rest) = close := by
      rcases bs with _ | ⟨b', bs⟩
      · obtain rfl : vs = [] := hvs
        exact .inr hrest
      · obtain ⟨us', hus', vs', -, rfl⟩ := mem_prod_cons hvs
        obtain ⟨comma, us', hcomma, -, rfl⟩ := mem_token_mul.1 hus'
        exact .inl hcomma
    refine (hitem b (by simp) us hus (by simp) _ hfollows).bind fun a ha => ?_
    have htail : (Parser.many (afterComma item)).Accepts vs rest fun as => List.Forall₂ V as bs :=
      many_afterComma hvs (fun b' hb' us' hus' hlen => hitem b' (by simp [hb']) us' hus'
        (by simp; omega)) hclose hrest
    exact htail.bind_nil fun as has => pure (.cons ha has)

end Repetition

end Accepts

/-! ## Chains -/

section Arrives

variable {first : Parser α} {step : Parser (Option β)} {g : α → β → α} {ts us rest : List Token}
  {P Q : α → Prop}

/-- Before `rest`, a value and the rounds behind it read exactly `ts`, and `Q` holds of what `g`
makes of them; the rounds may go on. -/
def Arrives (first : Parser α) (step : Parser (Option β)) (g : α → β → α) (ts rest : List Token)
    (Q : α → Prop) : Prop :=
  ∀ c : Cursor, c.ahead = ts ++ rest → ∃ a c₁ bs,
    first c = .ok a c₁ ∧ Runs step c₁ bs (c.behind ts rest) ∧ Q (bs.foldl g a)

namespace Arrives

/-- The value alone. -/
lemma of_first (h : first.Accepts ts rest Q) : Arrives first step g ts rest Q := by
  intro c hc
  obtain ⟨a, ha, hp⟩ := h c hc
  exact ⟨a, _, [], hp, .stop _, ha⟩

/-- One more round. -/
lemma next (h : Arrives first step g ts (us ++ rest) P) (hus : us ≠ [])
    (hstep : step.Accepts us rest fun o => ∃ b, o = some b ∧ ∀ a, P a → Q (g a b)) :
    Arrives first step g (ts ++ us) rest Q := by
  intro c hc
  rw [List.append_assoc] at hc
  obtain ⟨a, c₁, bs, hfirst, hruns, ha⟩ := h c hc
  obtain ⟨_, ⟨b, rfl, hb⟩, hpb⟩ := hstep (c.behind ts (us ++ rest)) rfl
  refine ⟨a, c₁, bs ++ [b], hfirst, ?_, ?_⟩
  · rw [← Cursor.behind_behind]
    exact hruns.snoc hpb (Cursor.remaining_behind_lt rfl hus)
  · rw [List.foldl_append]
    exact hb _ ha

/-- A chain that arrives with a property arrives with a weaker one. -/
lemma imp (h : Arrives first step g ts rest P) (himp : ∀ a, P a → Q a) :
    Arrives first step g ts rest Q := by
  intro c hc
  obtain ⟨a, c₁, bs, hfirst, hruns, ha⟩ := h c hc
  exact ⟨a, c₁, bs, hfirst, hruns, himp _ ha⟩

/-- Where no round goes on, the value and the rounds behind it are accepted. -/
lemma accepts (h : Arrives first step g ts rest Q) (hstop : step.Accepts [] rest (· = none)) :
    Parser.Accepts (do
      let a ← first
      let bs ← many step
      return bs.foldl g a) ts rest Q := by
  intro c hc
  obtain ⟨a, c₁, bs, hfirst, hruns, ha⟩ := h c hc
  have hmany := hruns.many (hstop.eq_none rfl)
  exact ⟨_, ha, bind_eq_ok.2 ⟨a, c₁, hfirst, bind_eq_ok.2 ⟨bs, _, hmany, rfl⟩⟩⟩

end Arrives

end Arrives

section LeftAssoc

variable {operator : Parser (Option β)} {operand : Parser α} {combine : α → β → α → α}
  {ts us vs rest : List Token} {P P' Q : α → Prop} {O : β → Prop}

/-- A round of a chain: an operator and the operand behind it. -/
def link (operator : Parser (Option β)) (operand : Parser α) : Parser (Option (β × α)) := do
  match ← operator with
  | none => return none
  | some op =>
    let rhs ← operand
    return some (op, rhs)

/-- A chain of operands that are combined from the left, in progress. -/
def Chains (operator : Parser (Option β)) (operand : Parser α) (combine : α → β → α → α) :
    List Token → List Token → (α → Prop) → Prop :=
  Arrives operand (link operator operand) fun lhs step => combine lhs step.1 step.2

namespace Chains

/-- One more operator and operand. -/
lemma next (h : Chains operator operand combine ts (us ++ (vs ++ rest)) P) (hus : us ≠ [])
    (hoperator : operator.Accepts us (vs ++ rest) fun o => ∃ op, o = some op ∧ O op)
    (hoperand : operand.Accepts vs rest P')
    (hcombine : ∀ a op b, P a → O op → P' b → Q (combine a op b)) :
    Chains operator operand combine (ts ++ (us ++ vs)) rest Q := by
  rw [← List.append_assoc us] at h
  refine Arrives.next h (by simp [hus]) ?_
  unfold link
  refine hoperator.bind ?_
  rintro _ ⟨op, rfl, hop⟩
  refine hoperand.bind_nil fun b hb => .pure ⟨_, rfl, fun a ha => hcombine a op b ha hop hb⟩

/-- Where no operator follows, the chain is accepted. -/
theorem leftAssoc (h : Chains operator operand combine ts rest Q)
    (hstop : operator.Accepts [] rest (· = none)) :
    (leftAssoc operator operand combine).Accepts ts rest Q := by
  have hlink : (link operator operand).Accepts [] rest (· = none) := by
    unfold link
    refine hstop.bind_nil ?_
    rintro _ rfl
    exact .pure rfl
  exact Arrives.accepts h hlink

end Chains

end LeftAssoc

section Prefixes

variable {operator : Parser (Option β)} {operand : Parser α} {combine : β → α → α}
  {ts us rest : List Token} {O : β → Prop} {P Q : α → Prop}

/-- Before `rest`, operators and the operand behind them read exactly `ts`, and `Q` holds of what
`combine` makes of them. -/
def Prefixes (operator : Parser (Option β)) (operand : Parser α) (combine : β → α → α)
    (ts rest : List Token) (Q : α → Prop) : Prop :=
  ∀ c : Cursor, c.ahead = ts ++ rest → ∃ ops c₁ a, Runs operator c ops c₁
    ∧ operator c₁ = .ok none c₁ ∧ operand c₁ = .ok a (c.behind ts rest)
    ∧ Q (ops.foldr combine a)

namespace Prefixes

/-- The operand alone. -/
lemma of_operand (hstop : operator.Accepts [] (ts ++ rest) (· = none))
    (h : operand.Accepts ts rest Q) : Prefixes operator operand combine ts rest Q := by
  intro c hc
  obtain ⟨a, ha, hp⟩ := h c hc
  exact ⟨[], c, a, .stop c, hstop.eq_none hc, hp, ha⟩

/-- One more operator in front. -/
lemma cons (hoperator : operator.Accepts us (ts ++ rest) fun o => ∃ op, o = some op ∧ O op)
    (hus : us ≠ []) (h : Prefixes operator operand combine ts rest P)
    (hcombine : ∀ op a, O op → P a → Q (combine op a)) :
    Prefixes operator operand combine (us ++ ts) rest Q := by
  intro c hc
  rw [List.append_assoc] at hc
  obtain ⟨_, ⟨op, rfl, hop⟩, hpo⟩ := hoperator c hc
  obtain ⟨ops, c₁, a, hruns, hstop, hpa, ha⟩ := h (c.behind us (ts ++ rest)) rfl
  refine ⟨op :: ops, c₁, a, ?_, hstop, ?_, hcombine op _ hop ha⟩
  · exact .next hpo (Cursor.remaining_behind_lt hc hus) hruns
  · rwa [Cursor.behind_behind] at hpa

/-- Operators and the operand behind them are accepted. -/
theorem accepts (h : Prefixes operator operand combine ts rest Q) :
    (prefixed operator operand combine).Accepts ts rest Q := by
  intro c hc
  obtain ⟨ops, c₁, a, hruns, hstop, hpa, ha⟩ := h c hc
  have hmany := hruns.many hstop
  exact ⟨_, ha, bind_eq_ok.2 ⟨ops, c₁, hmany, bind_eq_ok.2 ⟨a, _, hpa, rfl⟩⟩⟩

end Prefixes

end Prefixes

end Parser

end RakeLang
