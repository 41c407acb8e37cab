import RakeLang.Parser
import RakeLang.Proofs.Reading.Cursor

/-!
# What a parser ensures

A parser that succeeds has read some tokens and answers a value; a parser that is refused has
read some tokens too.  `Parser.Ensures` says what holds of the value, of the tokens that were read
and of the cursor behind them.  The lemmas of this file follow the combinators from which the
parsers are built, so that the proof about a parser has the shape of the parser.

## Main definitions

* `RakeLang.Parser.Ensures` — the judgement.
* `RakeLang.Parser.Ensures.Answers` — what an optional answer says about the tokens that were
  read.

## Main results

* `RakeLang.Parser.Ensures.bind` — one parser behind another.
* `RakeLang.Parser.Ensures.many`, `RakeLang.Parser.Ensures.commaSeparated` — repetitions and lists
  spell their items.
* `RakeLang.Parser.Ensures.many_foldl`, `RakeLang.Parser.Ensures.prefixed` — chains of operators
  and operators in front.
-/

set_option relaxedAutoImplicit false
set_option autoImplicit false

namespace RakeLang.Parser

open Token Spelling

variable {α β : Type} {R : List Token → List Token → Prop} [Rewriting R] {c : Cursor}

/-- The fault shows at a token that a reading from `c` on meets. -/
def ShowsFrom (R : List Token → List Token → Prop) (c : Cursor) (fault : Fault) : Prop :=
  ∃ read c', c.Reads R read c' ∧ ∃ t ∈ c'.tokens, fault.span? = some t.span

/-- What is read from `c` on by `p` rewrites the tokens ahead as `R` tells, and if `p` succeeds,
`Q` holds of the value, of the tokens that were read and of the cursor behind them.  If `p` is
refused, its fault shows at a token that it met. -/
structure Ensures (R : List Token → List Token → Prop) (p : Parser α) (c : Cursor)
    (Q : α → List Token → Cursor → Prop) : Prop where
  ok : ∀ a c', p c = .ok a c' → ∃ read, c.Reads R read c' ∧ Q a read c'
  error : ∀ fault c', p c = .error fault c' → ∃ read, c.Reads R read c'
  shows : ∀ fault c', p c = .error fault c' → ShowsFrom R c fault

/-- A fault that shows at a token of the cursor. -/
lemma ShowsFrom.here {fault : Fault} {t : Token} (ht : t ∈ c.tokens)
    (hspan : fault.span? = some t.span) : ShowsFrom R c fault :=
  ⟨[], c, .refl c, t, ht, hspan⟩

/-- What shows behind a reading shows from where the reading began. -/
lemma ShowsFrom.behind {fault : Fault} {c₁ : Cursor} {ts : List Token}
    (hread : c.Reads R ts c₁) (h : ShowsFrom R c₁ fault) : ShowsFrom R c fault := by
  obtain ⟨us, c₂, hus, ht⟩ := h
  exact ⟨ts ++ us, c₂, hread.trans hus, ht⟩

section Bind

variable {p : Parser α} {f : α → Parser β}

/-- A success of one parser behind another is a success of both. -/
lemma bind_eq_ok {b : β} {c c₂ : Cursor} :
    (p >>= f) c = .ok b c₂ ↔ ∃ a c₁, p c = .ok a c₁ ∧ f a c₁ = .ok b c₂ := by
  change EStateM.bind p f c = .ok b c₂ ↔ _
  unfold EStateM.bind
  rcases p c with ⟨a, c₁⟩ | ⟨fault, c₁⟩
  · simp
  · simp

/-- A refusal of one parser behind another is a refusal of one of them. -/
lemma bind_eq_error {fault : Fault} {c c₂ : Cursor} :
    (p >>= f) c = .error fault c₂ ↔
      p c = .error fault c₂ ∨ ∃ a c₁, p c = .ok a c₁ ∧ f a c₁ = .error fault c₂ := by
  change EStateM.bind p f c = .error fault c₂ ↔ _
  unfold EStateM.bind
  rcases p c with ⟨a, c₁⟩ | ⟨fault, c₁⟩
  · simp
  · simp

end Bind

namespace Ensures

section Basic

variable {p : Parser α} {f : α → Parser β} {P : α → List Token → Cursor → Prop}
  {Q : β → List Token → Cursor → Prop}

omit [Rewriting R] in
/-- What is ensured may be weakened. -/
lemma imp {P' : α → List Token → Cursor → Prop} (h : p.Ensures R c P)
    (himp : ∀ a ts c', P a ts c' → P' a ts c') : p.Ensures R c P' where
  ok a c' hp := by
    obtain ⟨read, hread, ha⟩ := h.ok a c' hp
    exact ⟨read, hread, himp a read c' ha⟩
  error := h.error
  shows := h.shows

omit [Rewriting R] in
/-- What is ensured twice is ensured of the same tokens. -/
lemma and {P' : α → List Token → Cursor → Prop} (h : p.Ensures R c P) (h' : p.Ensures R c P') :
    p.Ensures R c fun a ts c' => P a ts c' ∧ P' a ts c' where
  ok a c' hp := by
    obtain ⟨ts, hread, ha⟩ := h.ok a c' hp
    obtain ⟨us, hread', ha'⟩ := h'.ok a c' hp
    obtain rfl := hread.unique hread'
    exact ⟨ts, hread, ha, ha'⟩
  error := h.error
  shows := h.shows

omit [Rewriting R] in
/-- What is ensured can be shown with the reading at hand. -/
lemma of_reads (h : p.Ensures R c fun a ts c' => c.Reads R ts c' → P a ts c') :
    p.Ensures R c P where
  ok a c' hp := by
    obtain ⟨read, hread, ha⟩ := h.ok a c' hp
    exact ⟨read, hread, ha hread⟩
  error := h.error
  shows := h.shows

omit [Rewriting R] in
/-- What is ensured at a cursor depends on the run from this cursor only. -/
lemma congr {q : Parser α} (h : p.Ensures R c P) (hq : q c = p c) : q.Ensures R c P :=
  ⟨fun a c' hqc => h.ok a c' (hq ▸ hqc), fun fault c' hqc => h.error fault c' (hq ▸ hqc),
    fun fault c' hqc => h.shows fault c' (hq ▸ hqc)⟩

/-- One parser behind another reads on from where the first one stopped.

**Proof sketch.** What the first parser read and what the second one read stand one behind the
other.  A fault is one of the first, or one of the second behind what the first one read. -/
theorem bind (hp : p.Ensures R c P)
    (hf : ∀ a ts c₁, c.Reads R ts c₁ → P a ts c₁ →
      (f a).Ensures R c₁ fun b us c₂ => Q b (ts ++ us) c₂) :
    (p >>= f).Ensures R c Q where
  ok b c₂ h := by
    obtain ⟨a, c₁, h₁, h₂⟩ := bind_eq_ok.1 h
    obtain ⟨ts, hts, ha⟩ := hp.ok a c₁ h₁
    obtain ⟨us, hus, hb⟩ := (hf a ts c₁ hts ha).ok b c₂ h₂
    exact ⟨ts ++ us, hts.trans hus, hb⟩
  error fault c₂ h := by
    rcases bind_eq_error.1 h with h₁ | ⟨a, c₁, h₁, h₂⟩
    · exact hp.error fault c₂ h₁
    · obtain ⟨ts, hts, ha⟩ := hp.ok a c₁ h₁
      obtain ⟨us, hus⟩ := (hf a ts c₁ hts ha).error fault c₂ h₂
      exact ⟨ts ++ us, hts.trans hus⟩
  shows fault c₂ h := by
    rcases bind_eq_error.1 h with h₁ | ⟨a, c₁, h₁, h₂⟩
    · exact hp.shows fault c₂ h₁
    · obtain ⟨ts, hts, ha⟩ := hp.ok a c₁ h₁
      exact ((hf a ts c₁ hts ha).shows fault c₂ h₂).behind hts

/-- A parser that stays where it is and succeeds. -/
lemma stay {a : α} (hp : p c = .ok a c) (h : P a [] c) : p.Ensures R c P where
  ok a' c' hp' := by
    obtain ⟨rfl, rfl⟩ : a = a' ∧ c = c' := by simpa [hp] using hp'
    exact ⟨[], .refl c, h⟩
  error fault c' hp' := by simp [hp] at hp'
  shows fault c' hp' := by simp [hp] at hp'

/-- A parser that is refused where it stands, with a fault that shows at a token there. -/
lemma refused {fault : Fault} {t : Token} (hp : p c = .error fault c) (ht : t ∈ c.tokens)
    (hspan : fault.span? = some t.span) : p.Ensures R c P where
  ok a c' hp' := by simp [hp] at hp'
  error fault' c' hp' := by
    obtain ⟨-, rfl⟩ : fault = fault' ∧ c = c' := by simpa [hp] using hp'
    exact ⟨[], .refl c⟩
  shows fault' c' hp' := by
    obtain ⟨rfl, -⟩ : fault = fault' ∧ c = c' := by simpa [hp] using hp'
    exact .here ht hspan

/-- An answer without a move reads no token. -/
lemma pure {a : α} (h : P a [] c) : (pure a : Parser α).Ensures R c P := stay rfl h

/-- A refusal of the token at the cursor ensures anything of an answer. -/
lemma unexpected {expected : List String} : (unexpected expected : Parser α).Ensures R c P :=
  refused rfl c.peek_mem_tokens rfl

/-- A refusal of a part out of its place ensures anything of an answer. -/
lemma misplaced {part : Misplaced} : (misplaced part : Parser α).Ensures R c P :=
  refused rfl c.peek_mem_tokens rfl

/-- A refusal that shows at a token ensures anything of an answer. -/
lemma throw {fault : Fault} {t : Token} (ht : t ∈ c.tokens) (hspan : fault.span? = some t.span) :
    (throw fault : Parser α).Ensures R c P := refused rfl ht hspan

end Basic

/-! ## Single tokens -/

section Single

variable {Q : β → List Token → Cursor → Prop} {kind : Kind}

omit [Rewriting R] in
/-- A look at the token at the cursor. -/
lemma peek_bind {f : Token → Parser β} (h : (f c.peek).Ensures R c Q) :
    (peek >>= f).Ensures R c Q := ⟨h.ok, h.error, h.shows⟩

omit [Rewriting R] in
/-- A look at the kind of the token at the cursor. -/
lemma peekKind_bind {f : Kind → Parser β} (h : (f c.peek.kind).Ensures R c Q) :
    (peekKind >>= f).Ensures R c Q := ⟨h.ok, h.error, h.shows⟩

omit [Rewriting R] in
/-- A check of the kind of the token at the cursor. -/
lemma check_bind {f : Bool → Parser β} (h : (f (c.peek.kind == kind)).Ensures R c Q) :
    (check kind >>= f).Ensures R c Q := ⟨h.ok, h.error, h.shows⟩

omit [Rewriting R] in
/-- A check of the kind of a token ahead. -/
lemma checkAhead_bind {n : Nat} {f : Bool → Parser β}
    (h : (f ((c.lookahead n).kind == kind)).Ensures R c Q) :
    (checkAhead n kind >>= f).Ensures R c Q := ⟨h.ok, h.error, h.shows⟩

omit [Rewriting R] in
/-- A check of the word at the cursor. -/
lemma checkWord_bind {text : String} {f : Bool → Parser β}
    (h : (f (c.peek.kind == .ident && c.peek.lexeme == text)).Ensures R c Q) :
    (checkWord text >>= f).Ensures R c Q := ⟨h.ok, h.error, h.shows⟩

omit [Rewriting R] in
/-- The span up to the token in front of the cursor. -/
lemma spanFrom_bind {start : Span} {f : Span → Parser β}
    (h : (f (start.merge c.previousSpan)).Ensures R c Q) : (spanFrom start >>= f).Ensures R c Q :=
  ⟨h.ok, h.error, h.shows⟩

/-- To advance from a token that does not end the input is to read it. -/
lemma advance (hc : c.peek.kind ≠ .eof) :
    Parser.advance.Ensures R c fun t ts c' => t = c.peek ∧ ts = [c.peek] ∧ c' = c.advance where
  ok t c' h := by
    obtain ⟨rfl, rfl⟩ : c.peek = t ∧ c.advance = c' := by simpa [Parser.advance] using h
    exact ⟨[c.peek], Cursor.reads_advance hc, rfl, rfl, rfl⟩
  error fault c' h := by simp [Parser.advance] at h
  shows fault c' h := by simp [Parser.advance] at h

/-- The token that is read by advancing stands in front of what is read behind it. -/
lemma advance_bind {f : Token → Parser β} (hc : c.peek.kind ≠ .eof)
    (h : (f c.peek).Ensures R c.advance fun b us c' => Q b (c.peek :: us) c') :
    (Parser.advance >>= f).Ensures R c Q := by
  refine bind (advance hc) ?_
  rintro _ _ _ - ⟨rfl, rfl, rfl⟩
  exact h

/-- A token that is expected is read if it stands at the cursor; otherwise the reading is
refused. -/
lemma expect_bind_peek {f : Token → Parser β} (hkind : kind ≠ .eof)
    (h : c.peek.kind = kind → (f c.peek).Ensures R c.advance fun b us c' => Q b (c.peek :: us) c') :
    (expect kind >>= f).Ensures R c Q := by
  refine bind (P := fun t ts c' => c.peek.kind = kind ∧ t = c.peek ∧ ts = [c.peek]
    ∧ c' = c.advance) ?_ ?_
  · unfold expect
    refine check_bind ?_
    split
    case isTrue hc =>
      have hc : c.peek.kind = kind := by simpa using hc
      refine (advance (hc ▸ hkind)).imp ?_
      rintro t ts c' ⟨rfl, hts, hc'⟩
      exact ⟨hc, rfl, hts, hc'⟩
    case isFalse => exact unexpected
  · rintro _ _ _ - ⟨hc, rfl, rfl, rfl⟩
    exact h hc

/-- A token that is expected is read, or the reading is refused. -/
lemma expect_bind {f : Token → Parser β} (hkind : kind ≠ .eof)
    (h : ∀ t, t.kind = kind → (f t).Ensures R c.advance fun b us c' => Q b (t :: us) c') :
    (expect kind >>= f).Ensures R c Q :=
  expect_bind_peek hkind (h c.peek)

/-- A token that is expected and does not stand at the cursor is refused. -/
lemma expect_refused {f : Token → Parser β} (hc : c.peek.kind ≠ kind) :
    (expect kind >>= f).Ensures R c Q := by
  refine bind (P := fun _ _ _ => False) ?_ (fun _ _ _ _ h => h.elim)
  unfold expect
  refine check_bind ?_
  rw [if_neg (by simpa using hc)]
  exact unexpected

/-- A token that may stand at the cursor is read if it does. -/
lemma eat_bind_peek {f : Bool → Parser β} (hkind : kind ≠ .eof)
    (htrue : c.peek.kind = kind →
      (f true).Ensures R c.advance fun b us c' => Q b (c.peek :: us) c')
    (hfalse : c.peek.kind ≠ kind → (f false).Ensures R c Q) : (eat kind >>= f).Ensures R c Q := by
  refine bind (P := fun b ts c' =>
    b = true ∧ c.peek.kind = kind ∧ ts = [c.peek] ∧ c' = c.advance ∨
      b = false ∧ c.peek.kind ≠ kind ∧ ts = [] ∧ c' = c) ?_ ?_
  · unfold eat
    refine check_bind ?_
    split
    case isTrue hc =>
      have hc : c.peek.kind = kind := by simpa using hc
      exact advance_bind (hc ▸ hkind) (pure (.inl ⟨rfl, hc, rfl, rfl⟩))
    case isFalse hc => exact pure (.inr ⟨rfl, by simpa using hc, rfl, rfl⟩)
  · rintro b ts c' - (⟨rfl, hc, rfl, rfl⟩ | ⟨rfl, hc, rfl, rfl⟩)
    · exact htrue hc
    · exact hfalse hc

/-- A token that may stand at the cursor is read if it does. -/
lemma eat_bind {f : Bool → Parser β} (hkind : kind ≠ .eof)
    (htrue : ∀ t, t.kind = kind → (f true).Ensures R c.advance fun b us c' => Q b (t :: us) c')
    (hfalse : (f false).Ensures R c Q) : (eat kind >>= f).Ensures R c Q :=
  eat_bind_peek hkind (htrue c.peek) fun _ => hfalse

/-- A token that does not stand at the cursor is not read. -/
lemma eat_bind_of_ne {f : Bool → Parser β} (hc : c.peek.kind ≠ kind)
    (hfalse : (f false).Ensures R c Q) : (eat kind >>= f).Ensures R c Q := by
  refine bind (P := fun b ts c' => b = false ∧ ts = [] ∧ c' = c) ?_ ?_
  · unfold eat
    refine check_bind ?_
    rw [if_neg (by simpa using hc)]
    exact pure ⟨rfl, rfl, rfl⟩
  · rintro _ _ _ - ⟨rfl, rfl, rfl⟩
    exact hfalse

end Single

/-! ## Repetition -/

section Repetition

variable {L : α → Language Token} {P : α → Prop} {item : Parser α} {kind : Kind}

/-- Where nothing is answered nothing was read; otherwise the tokens that were read spell the
answer, and `P` holds of it. -/
def Answers (L : α → Language Token) (P : α → Prop) : Option α → List Token → Prop
  | none, ts => ts = []
  | some a, ts => ts ∈ L a ∧ P a

/-- An item is read where a token of its kind stands, and elsewhere nothing is. -/
lemma whenAt (h : ∀ c, item.Ensures R c fun a ts _ => ts ∈ L a ∧ P a) (c : Cursor) :
    (whenAt kind item).Ensures R c fun o ts _ => Answers L P o ts := by
  unfold Parser.whenAt
  refine check_bind ?_
  split
  · exact (h c).bind fun a ts c' _ ha => pure (by simpa [Answers] using ha)
  · exact pure rfl

/-- An item is read behind a comma, which spells in front of it, and elsewhere nothing is. -/
lemma afterComma (h : ∀ c, item.Ensures R c fun a ts _ => ts ∈ L a ∧ P a) (c : Cursor) :
    (afterComma item).Ensures R c fun o ts _ => Answers (sign .comma * L ·) P o ts := by
  unfold Parser.afterComma
  refine eat_bind (by simp) (fun comma hcomma => ?_) (pure rfl)
  refine (h _).bind fun a ts c' _ ha => pure ?_
  simpa [Answers, sign, hcomma] using ha

/-- The rounds of a bounded repetition spell their items one behind the other.

**Proof sketch.** By induction on the bound.  A round without an item consumes nothing and ends the
loop; a round with an item puts its tokens in front of those of the rest. -/
lemma manyUpTo {step : Parser (Option α)}
    (h : ∀ c, step.Ensures R c fun o ts _ => Answers L P o ts) (n : Nat) :
    ∀ c : Cursor, (manyUpTo step n).Ensures R c fun as ts _ =>
      ts ∈ (as.map L).prod ∧ ∀ a ∈ as, P a := by
  induction n with
  | zero => intro c; exact pure (by simp)
  | succ n ih =>
    intro c
    unfold Parser.manyUpTo
    refine (h c).bind fun o ts c₁ _ ho => ?_
    rcases o with _ | a
    · obtain rfl : ts = [] := ho
      exact pure (by simp)
    · refine (ih c₁).bind fun as us c₂ _ has => pure ?_
      rw [List.append_nil]
      exact ⟨prod_cons_mem ho.1 has.1, by simpa using ⟨ho.2, has.2⟩⟩

/-- What a repetition reads spells its items, one after the other. -/
theorem many {step : Parser (Option α)}
    (h : ∀ c, step.Ensures R c fun o ts _ => Answers L P o ts) (c : Cursor) :
    (many step).Ensures R c fun as ts _ => ts ∈ (as.map L).prod ∧ ∀ a ∈ as, P a := by
  unfold Parser.many
  refine (h c).bind fun o ts c₁ _ ho => ?_
  rcases o with _ | a
  · obtain rfl : ts = [] := ho
    exact pure (by simp)
  · refine bind ((manyUpTo h c₁.remaining c₁).congr rfl) fun as us c₂ _ has => pure ?_
    rw [List.append_nil]
    exact ⟨prod_cons_mem ho.1 has.1, by simpa using ⟨ho.2, has.2⟩⟩

/-- What a list reads spells its items, with commas between them. -/
theorem commaSeparated (h : ∀ c, item.Ensures R c fun a ts _ => ts ∈ L a ∧ P a) (c : Cursor) :
    (commaSeparated kind item).Ensures R c fun as ts _ =>
      ts ∈ separated (as.map L) ∧ ∀ a ∈ as, P a := by
  unfold Parser.commaSeparated
  refine check_bind ?_
  split
  · exact pure (by simp [separated])
  · refine (h c).bind fun a ts c₁ _ ha => ?_
    refine (many (afterComma h) c₁).bind fun as us c₂ _ has => pure ?_
    rw [List.append_nil]
    exact ⟨separated_cons_mem ha.1 has.1, by simpa using ⟨ha.2, has.2⟩⟩

end Repetition

/-! ## Operators -/

section Operators

variable {step : Parser (Option β)} {g : α → β → α} {I F : α → List Token → Cursor → Prop}

/-- A round of a repetition behind `ts`, which gave the value `a`: where it answers nothing `F`
holds of the value; otherwise it has read a token, and `I` holds of the value that `g` makes of
the answer. -/
def Round (g : α → β → α) (I F : α → List Token → Cursor → Prop) (a : α) (ts : List Token) :
    Option β → List Token → Cursor → Prop
  | none, us, c => F a (ts ++ us) c
  | some b, us, c => us ≠ [] ∧ I (g a b) (ts ++ us) c

/-- A repetition that folds its answers into a value keeps the invariant `I` of that value, and
ends with `F` where it ends because nothing was answered.  The bound of the repetition cuts
nothing short, since each answer reads a token.

**Proof sketch.** Induction on the bound, which stays at least what remains ahead.  With no
bound left nothing remains, so that no token is ahead. -/
lemma manyUpTo_foldl
    (hstep : ∀ a ts c, I a ts c → step.Ensures R c (Round g I F a ts))
    (hend : ∀ a ts c, I a ts c → c.ahead = [] → F a ts c) (n : Nat) :
    ∀ a ts c, I a ts c → c.remaining ≤ n →
      (Parser.manyUpTo step n).Ensures R c fun bs us c' =>
        F (bs.foldl g a) (ts ++ us) c' := by
  induction n with
  | zero =>
    intro a ts c ha hc
    refine pure ?_
    have hnil := Cursor.ahead_eq_nil_of_remaining (c := c) (by omega)
    simpa using hend a ts c ha hnil
  | succ n ih =>
    intro a ts c ha hc
    unfold Parser.manyUpTo
    refine (hstep a ts c ha).bind fun o us c₁ hread ho => ?_
    rcases o with _ | b
    · exact pure (by simpa [Round] using ho)
    · have hlt := hread.remaining_lt ho.1
      refine (ih _ _ c₁ ho.2 (by omega)).bind fun bs vs c₂ _ hbs => pure ?_
      simpa using hbs

/-- A repetition that folds its answers into a value, as `manyUpTo_foldl` has it. -/
theorem many_foldl
    (hstep : ∀ a ts c, I a ts c → step.Ensures R c (Round g I F a ts))
    (hend : ∀ a ts c, I a ts c → c.ahead = [] → F a ts c) (a : α) (ts : List Token)
    (ha : I a ts c) :
    (Parser.many step).Ensures R c fun bs us c' => F (bs.foldl g a) (ts ++ us) c' := by
  unfold Parser.many
  refine (hstep a ts c ha).bind fun o us c₁ hread ho => ?_
  rcases o with _ | b
  · exact pure (by simpa [Round] using ho)
  · have hrest := manyUpTo_foldl hstep hend c₁.remaining _ _ c₁ ho.2 le_rfl
    refine bind (hrest.congr rfl) fun bs vs c₂ _ hbs => pure ?_
    simpa using hbs

/-- A repetition ends where nothing is answered. -/
lemma many_stops {Stop : Cursor → Prop}
    (hstep : ∀ c, step.Ensures R c fun o us c' => (o ≠ none → us ≠ []) ∧ (o = none → Stop c'))
    (hend : ∀ c : Cursor, c.ahead = [] → Stop c) (c : Cursor) :
    (Parser.many step).Ensures R c fun _ _ c' => Stop c' := by
  refine many_foldl (g := fun (_ : Unit) _ => ()) (I := fun _ _ _ => True)
    (F := fun _ _ c => Stop c) (fun _ _ c _ => (hstep c).imp ?_) (fun _ _ c _ => hend c) () []
    trivial
  rintro (_ | b) us c' ⟨hsome, hnone⟩
  · exact hnone rfl
  · exact ⟨hsome (by simp), trivial⟩

/-- A look for an operator behind `ts`, which gave the value `a`: where there is none `F` holds
of the value; otherwise a token was read, and behind the operand that follows `I` holds of the
value that the operator makes. -/
def Link (R : List Token → List Token → Prop) (operand : Parser α) (combine : α → β → α → α)
    (I F : α → List Token → Cursor → Prop) (a : α) (ts : List Token) :
    Option β → List Token → Cursor → Prop
  | none, us, c => F a (ts ++ us) c
  | some op, us, c =>
    us ≠ [] ∧ operand.Ensures R c fun b vs c' => I (combine a op b) (ts ++ (us ++ vs)) c'

/-- A chain of operands that are combined from the left keeps the invariant `I` of the value so far,
and ends with `F`.

**Proof sketch.** The first operand gives the invariant, and each round of an operator with its
operand keeps it for the value that is combined so far; this is `many_foldl`.  At the end of the
loop the invariant gives `F`. -/
lemma leftAssoc {operator : Parser (Option β)} {operand : Parser α} {combine : α → β → α → α}
    (hfirst : operand.Ensures R c I)
    (hoperator : ∀ a ts c, I a ts c →
      operator.Ensures R c (Link R operand combine I F a ts))
    (hend : ∀ a ts c, I a ts c → c.ahead = [] → F a ts c) :
    (leftAssoc operator operand combine).Ensures R c F := by
  unfold Parser.leftAssoc
  refine hfirst.bind fun first ts c₁ _ hfirst => ?_
  refine (many_foldl (g := fun lhs (step : β × α) => combine lhs step.1 step.2) ?_ hend
    first ts hfirst).bind fun steps us c₂ _ hsteps => pure (by rwa [List.append_nil])
  intro a ts c ha
  refine (hoperator a ts c ha).bind fun o us c₁ _ ho => ?_
  rcases o with _ | op
  · exact pure (by rwa [List.append_nil])
  · refine ho.2.bind fun b vs c₂ _ hb => pure ?_
    exact ⟨by simp [ho.1], by simpa using hb⟩

/-- Where no operator stands behind an operand, a chain ensures what its operand does. -/
lemma leftAssoc_of_stops {operator : Parser (Option β)} {operand : Parser α}
    {combine : α → β → α → α} (hfirst : operand.Ensures R c F)
    (hstop : ∀ a ts c, F a ts c → operator c = .ok none c) :
    (Parser.leftAssoc operator operand combine).Ensures R c F := by
  refine leftAssoc hfirst (fun a ts c ha => stay (hstop a ts c ha) ?_) fun _ _ _ ha _ => ha
  rwa [Link, List.append_nil]

section Prefixed

variable {operator : Parser (Option β)} {operand : Parser α} {combine : β → α → α}
  {M : β → Language Token} {Q : α → List Token → Cursor → Prop}

/-- Operators in front of a value keep what holds of the value. -/
lemma foldr_combine
    (hcombine : ∀ op a ts us c, ts ∈ M op → Q a us c → Q (combine op a) (ts ++ us) c) {a : α}
    {us : List Token} {c : Cursor} (ha : Q a us c) (ops : List β) :
    ∀ ts, ts ∈ (ops.map M).prod → Q (ops.foldr combine a) (ts ++ us) c := by
  induction ops with
  | nil =>
    intro ts hts
    obtain rfl : ts = [] := hts
    exact ha
  | cons op ops ih =>
    intro ts hts
    obtain ⟨ts₁, h₁, ts₂, h₂, rfl⟩ := mem_prod_cons hts
    rw [List.append_assoc]
    exact hcombine op _ ts₁ _ c h₁ (ih ts₂ h₂)

/-- Operators in front of an operand keep what holds of the operand, which begins where no operator
stands.

**Proof sketch.** The loop of operators is known in two ways: what it reads spells the operators,
and where it stops none stands.  The operand is read from there, and the operators are put around it
from the right. -/
theorem prefixed (Stop : Cursor → Prop) (hM : ∀ op, [] ∉ M op)
    (hop : ∀ c, operator.Ensures R c fun o ts c' =>
      Answers M (fun _ => True) o ts ∧ (o = none → Stop c'))
    (hend : ∀ c : Cursor, c.ahead = [] → Stop c) (hinner : ∀ c, Stop c → operand.Ensures R c Q)
    (hcombine : ∀ op a ts us c, ts ∈ M op → Q a us c → Q (combine op a) (ts ++ us) c)
    (c : Cursor) : (Parser.prefixed operator operand combine).Ensures R c Q := by
  unfold Parser.prefixed
  have hspelled := many (fun c => (hop c).imp fun _ _ _ ho => ho.1) c
  refine (hspelled.and (many_stops (fun c => (hop c).imp fun o ts c' ho => ⟨?_, ho.2⟩) hend c)).bind
    fun ops ts c₁ _ hops => ?_
  · rintro hne rfl
    obtain ⟨op, rfl⟩ := Option.ne_none_iff_exists'.1 hne
    exact hM op ho.1.1
  · refine (hinner c₁ hops.2).bind fun a us c₂ _ ha => pure ?_
    rw [List.append_nil]
    exact foldr_combine hcombine ha ops ts hops.1.1

end Prefixed

end Operators

end Ensures

end RakeLang.Parser
