import RakeLang.Proofs.Attempting.Telling
import RakeLang.Proofs.Settling.Simulation

/-!
# Staying within a definition

Behind its first word a definition has no word in it that opens another one.  The words `stack` and
`single` also end the name of a type; there they stand behind the name of a record, and no name of a
record stands behind them.  So it is for the tokens that a reading meets, whether it succeeds or is
refused: those that it reads, and those that it met on a trial and left ahead.  If it is refused,
its fault shows among them or at the first token behind them.

## Main definitions

* `RakeLang.Seam` — what the last token tells about the next one.
* `RakeLang.Seam.run` — the seam behind some tokens, if they can stand within a definition.
* `RakeLang.Cursor.Passes` — a cursor that is left behind, with the tokens that were met.
* `RakeLang.Parser.Within` — what a parser meets can stand within a definition.

## Main results

* `RakeLang.Cursor.Passes.trans` — one reading behind another.
* `RakeLang.Parser.Within.bind`, `RakeLang.Parser.Within.many` — parsers and repetitions.
-/

set_option relaxedAutoImplicit false
set_option autoImplicit false

namespace RakeLang

open Token

/-! ## Seams -/

/-- What the token that was read last tells about the next one. -/
inductive Seam where
  /-- Behind the name of a record, where the word `stack` or `single` can follow. -/
  | typeName
  /-- Behind that word, where no name of a record can follow. -/
  | suffix
  /-- Behind any other token. -/
  | plain
  deriving DecidableEq, Repr

/-- Is a token of this kind none of those on which a seam depends, and not the end of the input? -/
def Kind.isPlain : Kind → Bool
  | .typeIdent | .eof => false
  | kind => !kind.opensDefinition

/-- A kind of tokens is told on one line. -/
lemma Kind.newline_notMem_display (kind : Kind) : '\n' ∉ kind.display.toList := by
  rcases kind with _ | _ | _ | _ | _ | word | sign | _
  case keyword => cases word <;> decide
  case symbol =>
    cases sign
    case reduce op => cases op <;> decide
    case scan op => cases op <;> decide
    all_goals decide
  all_goals decide

namespace Seam

/-- The seam behind a token of the given kind, if it can stand within a definition. -/
def step (s : Seam) : Kind → Option Seam
  | .keyword .stack | .keyword .single => if s = typeName then some suffix else none
  | .typeIdent => if s = suffix then none else some typeName
  | kind => if kind.opensDefinition then none else some plain

/-- The seam behind some tokens, if they can stand within a definition. -/
def run (s : Seam) : List Token → Option Seam
  | [] => some s
  | t :: ts => (s.step t.kind).bind fun s' => s'.run ts

section Run

variable {s s' : Seam} {kind : Kind} {ts us : List Token}

/-- Behind a plain token the seam is plain. -/
lemma step_of_isPlain (h : kind.isPlain = true) : s.step kind = some plain := by
  rcases kind with _ | _ | _ | _ | _ | word | sign | _
  case keyword => cases word <;> first | rfl | cases h
  all_goals first | rfl | cases h

/-- Behind plain tokens the seam is plain. -/
lemma run_of_isPlain {t : Token} (h : ∀ u ∈ t :: ts, u.kind.isPlain = true) :
    s.run (t :: ts) = some plain := by
  induction ts generalizing s t with
  | nil => simp [run, step_of_isPlain (h t (by simp))]
  | cons u us ih =>
    rw [run, step_of_isPlain (h t (by simp)), Option.bind_some]
    exact ih fun v hv => h v (List.mem_cons_of_mem _ hv)

/-- A number is plain. -/
lemma isPlain_of_isNumber (h : kind.isNumber = true) : kind.isPlain = true := by
  cases kind <;> first | rfl | cases h

/-- The seam behind two rows of tokens. -/
lemma run_append (s : Seam) (ts us : List Token) :
    s.run (ts ++ us) = (s.run ts).bind fun s' => s'.run us := by
  induction ts generalizing s with
  | nil => rfl
  | cons t ts ih =>
    rw [List.cons_append, run, run]
    rcases s.step t.kind with _ | s'
    · rfl
    · exact ih s'

/-- Where some tokens can stand within a definition, their last ones can behind the others. -/
lemma exists_run (h : s.run (ts ++ us) ≠ none) : ∃ s', s.run ts = some s' ∧ s'.run us ≠ none := by
  rw [run_append] at h
  rcases hts : s.run ts with _ | s'
  · simp [hts] at h
  · exact ⟨s', rfl, by simpa [hts] using h⟩

end Run

end Seam

/-! ## Readings -/

namespace Cursor

/-- The cursor `c'` is left behind by a reading from `c` on.  The tokens `read` were read and the
tokens `left` were met on a trial and are ahead again; the tokens `rest` behind them are as they
were.  All that were met can stand within a definition, behind the seam `s`, as the tokens could
that they were made of. -/
structure Passes (s : Seam) (c : Cursor) (read left rest : List Token) (c' : Cursor) : Prop where
  reads : c.Reads SplitsTo read c'
  ahead : c'.ahead = left ++ rest
  met : ∃ touched, c.ahead = touched ++ rest ∧ ∀ s : Seam, s.run touched = s.run (read ++ left)
  within : s.run (read ++ left) ≠ none

section Passes

variable {s s₁ : Seam} {c c₁ c₂ : Cursor} {ts us left left' rest rest' : List Token}

/-- To stay is to meet nothing. -/
lemma Passes.refl (s : Seam) (c : Cursor) : c.Passes s [] [] c.ahead c :=
  ⟨.refl c, rfl, ⟨[], rfl, fun _ => rfl⟩, by simp [Seam.run]⟩

/-- One reading behind another meets what either of them meets.

**Proof sketch.** The second one meets tokens that the first one left, and beyond them tokens that
the first one did not meet, if it comes so far. -/
theorem Passes.trans (h : c.Passes s ts left rest c₁) (hs : s.run ts = some s₁)
    (h' : c₁.Passes s₁ us left' rest' c₂) :
    ∃ left rest'', c.Passes s (ts ++ us) left rest'' c₂ ∧ rest'' <:+ rest ∧ rest'' <:+ rest' := by
  obtain ⟨touched, hahead, hrun⟩ := h.met
  obtain ⟨touched', hahead', hrun'⟩ := h'.met
  rcases List.append_eq_append_iff.1 (h.ahead.symm.trans hahead') with
    ⟨beyond, rfl, rfl⟩ | ⟨beyond, rfl, rfl⟩
  · have hall : ∀ s : Seam, s.run (touched ++ beyond) = s.run (ts ++ us ++ left') := by
      intro s
      rw [Seam.run_append, hrun, ← Seam.run_append, List.append_assoc, List.append_assoc,
        Seam.run_append, Seam.run_append s ts]
      simp only [hrun']
    refine ⟨left', rest', ⟨h.reads.trans h'.reads, h'.ahead, ⟨touched ++ beyond, ?_, hall⟩, ?_⟩,
      List.suffix_append _ _, List.suffix_rfl⟩
    · rw [hahead, List.append_assoc]
    · rw [List.append_assoc, Seam.run_append, hs]
      exact h'.within
  · have hall : ∀ s : Seam, s.run touched = s.run (ts ++ us ++ (left' ++ beyond)) := by
      intro s
      rw [hrun, List.append_assoc, Seam.run_append, Seam.run_append s ts]
      congr 1
      funext s'
      rw [Seam.run_append, hrun', ← Seam.run_append, List.append_assoc]
    refine ⟨left' ++ beyond, rest, ⟨h.reads.trans h'.reads, ?_, ⟨touched, hahead, hall⟩, ?_⟩,
      List.suffix_rfl, List.suffix_append _ _⟩
    · rw [h'.ahead, List.append_assoc]
    · rw [← hall, hrun]
      exact h.within

/-- To advance from a token that can stand behind the seam is to pass it. -/
lemma passes_advance (h : s.step c.peek.kind = some s₁) (hc : c.peek.kind ≠ .eof) :
    c.Passes s [c.peek] [] c.advance.ahead c.advance := by
  obtain ⟨rest, hrest⟩ := exists_ahead_of_peek hc
  refine ⟨reads_advance hc, rfl, ⟨[c.peek], ?_, fun _ => rfl⟩, ?_⟩
  · simp [advance, hrest]
  · simp [Seam.run, h]

/-- To replace plain tokens by plain ones is to meet them. -/
lemma passes_of_isPlain {t u : Token} (ts us : List Token) (s : Seam)
    (hreads : c.Reads SplitsTo [] c₁) (hahead : c.ahead = t :: ts ++ rest)
    (hahead₁ : c₁.ahead = u :: us ++ rest) (hts : ∀ v ∈ t :: ts, v.kind.isPlain = true)
    (hus : ∀ v ∈ u :: us, v.kind.isPlain = true) : c.Passes s [] (u :: us) rest c₁ := by
  refine ⟨hreads, hahead₁, ⟨t :: ts, hahead, fun s => ?_⟩, ?_⟩
  · rw [List.nil_append, Seam.run_of_isPlain hts, Seam.run_of_isPlain hus]
  · simp [Seam.run_of_isPlain hus]

/-- To split a signed number is to meet its sign and its number. -/
lemma passes_splitSign (s : Seam) (h : c.splitSign? = some c₁) :
    ∃ left rest, c.Passes s [] left rest c₁ := by
  have hreads := splitsTo_of_splitSign? h
  unfold splitSign? at h
  rcases hahead : c.ahead with _ | ⟨t, rest⟩
  · simp [hahead] at h
  simp only [hahead, Option.map_eq_some_iff] at h
  obtain ⟨⟨minus, number⟩, hsplit, rfl⟩ := h
  obtain ⟨hsigned, rfl, rfl⟩ := eq_of_splitSign? hsplit
  simp only [isSignedNumber, Bool.and_eq_true] at hsigned
  have ht := Seam.isPlain_of_isNumber hsigned.1
  exact ⟨_, _, passes_of_isPlain [] [t.withoutSign] s hreads hahead rfl (by simpa)
    (by simpa using ⟨rfl, ht⟩)⟩

/-- To split an arrow is to meet its two signs, and the number that takes the minus sign. -/
lemma passes_splitArrow (s : Seam) (h : c.splitArrow? = some c₁) :
    ∃ left rest, c.Passes s [] left rest c₁ := by
  have hreads := splitsTo_of_splitArrow? h
  simp only [splitArrow?, Option.map_eq_some_iff] at h
  obtain ⟨ahead, hsplit, rfl⟩ := h
  obtain ⟨arrow, rest, hahead, harrow, hcases⟩ := cases_of_splitArrow? hsplit
  have ha : arrow.kind.isPlain = true := by rw [harrow]; rfl
  obtain ⟨next, more, rfl, hjoins, rfl⟩ | rfl := hcases
  · simp only [joinsArrow, Bool.and_eq_true] at hjoins
    have hnext := Seam.isPlain_of_isNumber hjoins.1.1
    exact ⟨_, _, passes_of_isPlain [next] [joined arrow next] s hreads hahead rfl
      (by simpa using ⟨ha, hnext⟩) (by simpa using ⟨rfl, hnext⟩)⟩
  · exact ⟨_, _, passes_of_isPlain [] [minusAt arrow.span.afterFirstByte] s hreads
      hahead rfl (by simpa) (by simpa using ⟨rfl, rfl⟩)⟩

/-- To split the token behind an operand is to meet what it falls into. -/
lemma passes_splitInfix (s : Seam) (c : Cursor) :
    ∃ left rest, c.Passes s [] left rest c.splitInfix := by
  unfold splitInfix
  rcases hs : c.splitSign? with _ | c'
  · rcases ha : c.splitArrow? with _ | c'
    · exact ⟨[], _, .refl s c⟩
    · exact passes_splitArrow s ha
  · exact passes_splitSign s hs

end Passes

end Cursor

/-! ## Parsers -/

/-- Can the name of a record stand behind the seam? -/
def Seam.Free (s : Seam) : Prop := s ≠ .suffix

namespace Parser

variable {α β : Type} {s s₁ : Seam} {c : Cursor} {P Q : Seam → Prop}

/-- What `p` meets from `c` on can stand within a definition, behind the seam `s`, whether `p`
succeeds or is refused.  If it succeeds, `Q` holds of the seam behind what it read; if it is
refused, its fault shows among what it met or at the head of what is behind. -/
structure Within (p : Parser α) (s : Seam) (c : Cursor) (Q : Seam → Prop) : Prop where
  ok : ∀ a c', p c = .ok a c' →
    ∃ read left rest s', c.Passes s read left rest c' ∧ s.run read = some s' ∧ Q s'
  error : ∀ fault c', p c = .error fault c' →
    ∃ read left rest, c.Passes s read left rest c' ∧ fault.Shows c rest

namespace Within

section Basic

variable {p : Parser α} {f : α → Parser β} {read left rest : List Token} {c' : Cursor}

/-- A weaker condition on the seam. -/
lemma imp (h : p.Within s c P) (himp : ∀ s, P s → Q s) : p.Within s c Q where
  ok a c' hp := by
    obtain ⟨read, left, rest, s', hpasses, hrun, hs'⟩ := h.ok a c' hp
    exact ⟨read, left, rest, s', hpasses, hrun, himp s' hs'⟩
  error := h.error

/-- Another parser with the same end at the cursor. -/
lemma congr {q : Parser α} (h : p.Within s c Q) (hq : q c = p c) : q.Within s c Q :=
  ⟨fun a c' hqc => h.ok a c' (hq ▸ hqc), fun fault c' hqc => h.error fault c' (hq ▸ hqc)⟩

/-- One parser behind another goes on behind the seam of the first one, with the reading of the
first one at hand.

**Proof sketch.** The runs of the two parsers are put together.  The first one leaves the seam `s₁`,
from which the second goes on, so the seam runs over the tokens of both.  A fault of the second
shows behind the tokens of the first, and before what these leave to be read. -/
lemma bind_of_reads (hp : p.Within s c P)
    (hf : ∀ a s₁ c₁ read, p c = .ok a c₁ → c.Reads SplitsTo read c₁ → P s₁ →
      (f a).Within s₁ c₁ Q) : (p >>= f).Within s c Q where
  ok b c₂ h := by
    obtain ⟨a, c₁, h₁, h₂⟩ := bind_eq_ok.1 h
    obtain ⟨ts, _, _, s₁, hpasses, hrun, hs₁⟩ := hp.ok a c₁ h₁
    obtain ⟨us, _, _, s₂, hpasses', hrun', hs₂⟩ := (hf a s₁ c₁ ts h₁ hpasses.reads hs₁).ok b c₂ h₂
    obtain ⟨left, rest, hall, -, -⟩ := hpasses.trans hrun hpasses'
    refine ⟨ts ++ us, left, rest, s₂, hall, ?_, hs₂⟩
    rw [Seam.run_append, hrun, Option.bind_some, hrun']
  error fault c₂ h := by
    rcases bind_eq_error.1 h with h₁ | ⟨a, c₁, h₁, h₂⟩
    · exact hp.error fault c₂ h₁
    · obtain ⟨ts, _, _, s₁, hpasses, hrun, hs₁⟩ := hp.ok a c₁ h₁
      obtain ⟨us, _, _, hpasses', hshows⟩ :=
        (hf a s₁ c₁ ts h₁ hpasses.reads hs₁).error fault c₂ h₂
      obtain ⟨left, rest, hall, -, hrest⟩ := hpasses.trans hrun hpasses'
      exact ⟨ts ++ us, left, rest, hall, (hshows.suffix hrest).behind hpasses.reads⟩

/-- One parser behind another goes on behind the seam of the first one. -/
theorem bind (hp : p.Within s c P) (hf : ∀ a s₁ c₁, P s₁ → (f a).Within s₁ c₁ Q) :
    (p >>= f).Within s c Q :=
  hp.bind_of_reads fun a s₁ c₁ _ _ _ => hf a s₁ c₁

/-- A parser that succeeds behind what it passes. -/
lemma answered {a : α} {s' : Seam} (hp : p c = .ok a c') (hpasses : c.Passes s read left rest c')
    (hrun : s.run read = some s') (h : Q s') : p.Within s c Q where
  ok a' c'' hp' := by
    obtain ⟨-, rfl⟩ : a = a' ∧ c' = c'' := by simpa [hp] using hp'
    exact ⟨read, left, rest, s', hpasses, hrun, h⟩
  error fault c'' hp' := by simp [hp] at hp'

/-- A parser that is refused behind what it passes, and tells its fault there. -/
lemma refused_behind {fault : Fault} (hp : p c = .error fault c')
    (hpasses : c.Passes s read left rest c') (htold : fault.ToldAt c' read) : p.Within s c Q where
  ok a c'' hp' := by simp [hp] at hp'
  error fault' c'' hp' := by
    obtain ⟨rfl, rfl⟩ : fault = fault' ∧ c' = c'' := by simpa [hp] using hp'
    exact ⟨read, left, rest, hpasses, read, left, c', hpasses.reads, hpasses.ahead, htold⟩

/-- A parser that stays where it is and succeeds. -/
lemma stay {a : α} (hp : p c = .ok a c) (h : Q s) : p.Within s c Q :=
  answered hp (.refl s c) rfl h

/-- A parser that is refused where it stands. -/
lemma refused {fault : Fault} (hp : p c = .error fault c) (htold : fault.ToldAt c []) :
    p.Within s c Q :=
  refused_behind hp (.refl s c) htold

/-- A value is answered without a token. -/
lemma pure {a : α} (h : Q s) : (pure a : Parser α).Within s c Q := stay rfl h

/-- A token that is refused is told with what was expected. -/
lemma unexpected {expected : List String} (hne : expected ≠ [])
    (hlines : ∀ text ∈ expected, '\n' ∉ text.toList) :
    (unexpected expected : Parser α).Within s c Q := refused rfl (.unexpected hne hlines)

/-- A part that is misplaced is told with the name of the rake. -/
lemma misplaced {part : Misplaced} (hrake : ∀ rake ∈ part.rake?, c.Named rake) :
    (misplaced part : Parser α).Within s c Q := refused rfl (.misplaced part hrake)

/-- A parser that only splits the token at the cursor. -/
lemma modify_bind {g : Cursor → Cursor} {f : Unit → Parser β}
    (hg : ∃ left rest, c.Passes s [] left rest (g c)) (h : ∀ c, (f ()).Within s c Q) :
    ((modify g : Parser Unit) >>= f).Within s c Q := by
  obtain ⟨left, rest, hpasses⟩ := hg
  refine bind (P := fun s₁ => s₁ = s) (answered rfl hpasses rfl rfl) ?_
  rintro _ s₁ c₁ rfl
  exact h c₁

end Basic

/-! ### Single tokens -/

section Single

variable {kind : Kind}

/-- A look at the next token. -/
lemma peek_bind {f : Token → Parser β} (h : (f c.peek).Within s c Q) :
    (peek >>= f).Within s c Q := ⟨h.ok, h.error⟩

/-- A look at the kind of the next token. -/
lemma peekKind_bind {f : Kind → Parser β} (h : (f c.peek.kind).Within s c Q) :
    (peekKind >>= f).Within s c Q := ⟨h.ok, h.error⟩

/-- A test of the kind of the next token. -/
lemma check_bind {f : Bool → Parser β} (h : (f (c.peek.kind == kind)).Within s c Q) :
    (check kind >>= f).Within s c Q := ⟨h.ok, h.error⟩

/-- A test of the kind of a token further on. -/
lemma checkAhead_bind {n : Nat} {f : Bool → Parser β}
    (h : (f ((c.lookahead n).kind == kind)).Within s c Q) :
    (checkAhead n kind >>= f).Within s c Q := ⟨h.ok, h.error⟩

/-- A test of the next token for a word. -/
lemma checkWord_bind {text : String} {f : Bool → Parser β}
    (h : (f (c.peek.kind == .ident && c.peek.lexeme == text)).Within s c Q) :
    (checkWord text >>= f).Within s c Q := ⟨h.ok, h.error⟩

/-- A span. -/
lemma spanFrom_bind {start : Span} {f : Span → Parser β}
    (h : (f (start.merge c.previousSpan)).Within s c Q) : (spanFrom start >>= f).Within s c Q :=
  ⟨h.ok, h.error⟩

/-- The token that is read by advancing goes in front of what is met behind it. -/
lemma advance_bind {f : Token → Parser β} (hstep : s.step c.peek.kind = some s₁)
    (hc : c.peek.kind ≠ .eof) (h : (f c.peek).Within s₁ c.advance Q) :
    (advance >>= f).Within s c Q := by
  have hrun : s.run [c.peek] = some s₁ := by simp [Seam.run, hstep]
  refine bind_of_reads (P := fun s' => s' = s₁)
    (answered rfl (Cursor.passes_advance hstep hc) hrun rfl) ?_
  rintro t _ c₁ - hadvance - rfl
  obtain ⟨rfl, rfl⟩ := EStateM.Result.ok.inj hadvance
  exact h

/-- A plain token can be read anywhere. -/
lemma advance_bind_plain {f : Token → Parser β} (hc : c.peek.kind.isPlain = true)
    (h : (f c.peek).Within .plain c.advance Q) : (advance >>= f).Within s c Q :=
  advance_bind (Seam.step_of_isPlain hc) (fun heof => by simp [heof, Kind.isPlain] at hc) h

/-- A token that can stand behind the seam is read where it is expected, or refused. -/
lemma expect_bind_peek {f : Token → Parser β} (s₁ : Seam) (hstep : s.step kind = some s₁)
    (hkind : kind ≠ .eof) (h : c.peek.kind = kind → (f c.peek).Within s₁ c.advance Q) :
    (expect kind >>= f).Within s c Q := by
  by_cases hc : c.peek.kind = kind
  · exact (advance_bind (hc ▸ hstep) (hc ▸ hkind) (h hc)).congr (bind_of_ok (expect_of_eq hc))
  · refine refused (bind_of_error (expect_of_ne hc)) (.unexpected (by simp) ?_)
    simpa using kind.newline_notMem_display

/-- A token that can stand behind the seam can be expected there. -/
lemma expect_bind_step {f : Token → Parser β} (s₁ : Seam) (hstep : s.step kind = some s₁)
    (hkind : kind ≠ .eof) (h : ∀ t c, (f t).Within s₁ c Q) : (expect kind >>= f).Within s c Q :=
  expect_bind_peek s₁ hstep hkind fun _ => h _ _

/-- A plain token can be expected anywhere. -/
lemma expect_bind {f : Token → Parser β} (hkind : kind.isPlain = true)
    (h : ∀ t c, (f t).Within .plain c Q) : (expect kind >>= f).Within s c Q :=
  expect_bind_step .plain (Seam.step_of_isPlain hkind)
    (fun heof => by simp [heof, Kind.isPlain] at hkind) h

/-- A token that can stand behind the seam can be eaten there. -/
lemma eat_bind_step {f : Bool → Parser β} (s₁ : Seam) (hstep : s.step kind = some s₁)
    (hkind : kind ≠ .eof) (htrue : ∀ c, (f true).Within s₁ c Q)
    (hfalse : (f false).Within s c Q) : (eat kind >>= f).Within s c Q := by
  unfold eat
  rw [bind_assoc]
  refine check_bind ?_
  split
  case isTrue hc =>
    have hc : c.peek.kind = kind := by simpa using hc
    rw [bind_assoc]
    exact advance_bind (hc ▸ hstep) (hc ▸ hkind) (htrue _)
  case isFalse => exact hfalse

/-- A plain token can be eaten anywhere. -/
lemma eat_bind {f : Bool → Parser β} (hkind : kind.isPlain = true)
    (htrue : ∀ c, (f true).Within .plain c Q) (hfalse : (f false).Within s c Q) :
    (eat kind >>= f).Within s c Q :=
  eat_bind_step .plain (Seam.step_of_isPlain hkind)
    (fun heof => by simp [heof, Kind.isPlain] at hkind) htrue hfalse

end Single

/-! ### Repetition -/

section Repetition

variable {item : Parser α} {kind : Kind} {I : Seam → Prop}

/-- An item that may be missing. -/
lemma whenAt (h : item.Within s c Q) (hs : Q s) : (whenAt kind item).Within s c Q := by
  unfold Parser.whenAt
  refine check_bind ?_
  split
  · exact h.bind fun a s₁ c₁ hs₁ => pure hs₁
  · exact pure hs

/-- What stands behind a comma stands behind a plain token. -/
lemma afterComma (h : ∀ c, item.Within .plain c Q) (hs : Q s) :
    (afterComma item).Within s c Q := by
  unfold Parser.afterComma
  refine eat_bind rfl (fun c => ?_) (pure hs)
  exact (h c).bind fun a s₁ c₁ hs₁ => pure hs₁

/-- A repetition under a bound, with an invariant of the seams. -/
lemma manyUpTo {step : Parser (Option α)} (h : ∀ s c, I s → step.Within s c I) (n : Nat) :
    ∀ s c, I s → (manyUpTo step n).Within s c I := by
  induction n with
  | zero => exact fun s c hs => pure hs
  | succ n ih =>
    intro s c hs
    unfold Parser.manyUpTo
    refine (h s c hs).bind fun o s₁ c₁ hs₁ => ?_
    rcases o with _ | a
    · exact pure hs₁
    · exact (ih s₁ c₁ hs₁).bind fun as s₂ c₂ hs₂ => pure hs₂

/-- A repetition keeps what each round keeps. -/
theorem many {step : Parser (Option α)} (h : ∀ s c, I s → step.Within s c I) (hs : I s) :
    (many step).Within s c I := by
  unfold Parser.many
  refine (h s c hs).bind fun o s₁ c₁ hs₁ => ?_
  rcases o with _ | a
  · exact pure hs₁
  · exact bind ((manyUpTo h c₁.remaining s₁ c₁ hs₁).congr rfl) fun as s₂ c₂ hs₂ => pure hs₂

/-- The items of a list stand behind commas, but for the first one. -/
lemma commaSeparated (hfirst : item.Within s c fun _ => True)
    (h : ∀ c, item.Within .plain c fun _ => True) :
    (commaSeparated kind item).Within s c fun _ => True := by
  unfold Parser.commaSeparated
  refine check_bind ?_
  split
  · exact pure trivial
  · refine hfirst.bind fun a s₁ c₁ _ => ?_
    refine (many (I := fun _ => True) (fun _ _ _ => afterComma h trivial) trivial).bind ?_
    exact fun _ _ _ _ => pure trivial

/-- A chain of operands, with an invariant of the seams. -/
lemma leftAssoc {operator : Parser (Option β)} {operand : Parser α} {combine : α → β → α → α}
    (hoperator : ∀ s c, I s → operator.Within s c I) (hoperand : ∀ s c, I s → operand.Within s c I)
    (hs : I s) : (leftAssoc operator operand combine).Within s c I := by
  unfold Parser.leftAssoc
  refine (hoperand s c hs).bind fun first s₁ c₁ hs₁ => ?_
  refine (many (fun s c hs => ?_) hs₁).bind fun _ _ _ hs₂ => pure hs₂
  refine (hoperator s c hs).bind fun o s₁ c₁ hs₁ => ?_
  rcases o with _ | op
  · exact pure hs₁
  · exact (hoperand s₁ c₁ hs₁).bind fun _ _ _ hs₂ => pure hs₂

/-- An operand behind operators, with an invariant of the seams. -/
lemma prefixed {operator : Parser (Option β)} {operand : Parser α} {combine : β → α → α}
    (hoperator : ∀ s c, I s → operator.Within s c I) (hoperand : ∀ s c, I s → operand.Within s c I)
    (hs : I s) : (prefixed operator operand combine).Within s c I := by
  unfold Parser.prefixed
  refine (many hoperator hs).bind fun ops s₁ c₁ hs₁ => ?_
  exact (hoperand s₁ c₁ hs₁).bind fun _ _ _ hs₂ => pure hs₂

end Repetition

end Within

end Parser

end RakeLang
