import RakeLang.Proofs.Running.Run
import RakeLang.Proofs.Settling.Repetition

/-!
# Readers and their texts

The readers of this library bound their repetitions and their recursions by what remains ahead, and
they move a cursor, which cannot leave its tokens.  `Executes` says that the text of a reader, run
without bounds on the buffer of a cursor, comes to the end that the reader comes to at the cursor:
to the same value or fault, with the machine of the cursor that the reader leaves.

The judgement goes along the text.  One reader behind another needs the same of both; and where the
first one reads a token, there is less ahead of the second, so that a reader that goes on with
itself behind a token is an induction on what remains.

## Main definitions

* `RakeLang.Executed`, `RakeLang.Executes` — the judgement, at a cursor and from all cursors with
  less than so many pieces ahead.

## Main results

* `RakeLang.Executes.bind`, `RakeLang.Executes.strict_bind` — one reader behind another; behind a
  token that was read there is less ahead.
* `RakeLang.many_executes`, `RakeLang.orElseHere_executed` — repetitions, and readings that are
  tried at the same place.
* `RakeLang.executes_of_bounded` — readers that go on with themselves.
-/

set_option relaxedAutoImplicit false
set_option autoImplicit false

namespace RakeLang

open Token

variable {α β γ : Type}

/-! ## Ends of readings -/

namespace Parser

/-- A single instruction as a reader. -/
def perform (i : Instruction) : Parser i.Answer := fun c => .ok (c.execute i).1 (c.execute i).2

/-- Reads with `p`; where that is refused, the fault is the answer. -/
def caught (p : Parser α) : Parser (Except Fault α) := fun c =>
  match p c with
  | .ok a behind => .ok (.ok a) behind
  | .error fault behind => .ok (.error fault) behind

/-- The value or the fault of a reading. -/
def outcome (p : Parser α) (c : Cursor) : Except Fault α :=
  match p c with
  | .ok a _ => .ok a
  | .error fault _ => .error fault

section Outcome

variable {p : Parser α} {c c₁ : Cursor} {a : α} {fault : Fault}

/-- The end of a reading that succeeds. -/
lemma outcome_of_ok (h : p c = .ok a c₁) : p.outcome c = .ok a ∧ p.leaves c = c₁ := by
  simp [outcome, leaves, h]

/-- The end of a reading that is refused. -/
lemma outcome_of_error (h : p c = .error fault c₁) :
    p.outcome c = .error fault ∧ p.leaves c = c₁ := by
  simp [outcome, leaves, h]

/-- A reading that succeeds, with its end as the answer. -/
lemma caught_of_ok (h : p c = .ok a c₁) : caught p c = .ok (.ok a) c₁ := by rw [caught, h]

/-- A reading that is refused, with its end as the answer. -/
lemma caught_of_error (h : p c = .error fault c₁) : caught p c = .ok (.error fault) c₁ := by
  rw [caught, h]

/-- Two readings that come to the same end. -/
lemma outcome_at {q : Parser α} {c' : Cursor} (h : p c = q c') :
    p.outcome c = q.outcome c' ∧ p.leaves c = q.leaves c' := by
  simp only [outcome, leaves, h, and_self]

end Outcome

end Parser

/-! ## The judgement -/

/-- The program `p`, run on the buffer of the cursor, comes to the end that the reader `q` comes to
at the cursor, with no more ahead and no internal fault. -/
structure Executed (p : Program α) (q : Parser α) (c : Cursor) : Prop where
  runs : ∃ is, p.Run c.machine is (q.outcome c) (q.leaves c).machine
  le : (q.leaves c).remaining ≤ c.remaining
  external : ∀ fault, q.outcome c = .error fault → fault.isInternal = false

/-- The program `p` comes to the end that the reader `q` comes to, from every cursor with less than
`n` pieces ahead. -/
class Executes (n : Nat) (p : Program α) (q : Parser α) : Prop where
  executed : ∀ c, c.remaining < n → Executed p q c

/-- The judgement at a cursor, from that on all cursors. -/
lemma Executed.here {n : Nat} {p : Program α} {q : Parser α} [h : Executes n p q] {c : Cursor}
    (hc : c.remaining < n) : Executed p q c :=
  h.executed c hc

namespace Executed

variable {p : Program α} {q : Parser α} {f : α → Program β} {g : α → Parser β} {c : Cursor}

/-- A reading that succeeds. -/
lemma of_ok {a : α} {c₁ : Cursor} (h : q c = .ok a c₁)
    (hruns : ∃ is, p.Run c.machine is (.ok a) c₁.machine) (hle : c₁.remaining ≤ c.remaining) :
    Executed p q c := by
  obtain ⟨houtcome, hleaves⟩ := Parser.outcome_of_ok h
  refine ⟨by rwa [houtcome, hleaves], by rwa [hleaves], fun fault hfault => ?_⟩
  rw [houtcome] at hfault
  cases hfault

/-- A reading that is refused where it stands. -/
lemma of_error {fault : Fault} {c₁ : Cursor} (h : q c = .error fault c₁)
    (hruns : ∃ is, p.Run c.machine is (.error fault) c₁.machine)
    (hle : c₁.remaining ≤ c.remaining) (hexternal : fault.isInternal = false) :
    Executed p q c := by
  obtain ⟨houtcome, hleaves⟩ := Parser.outcome_of_error h
  refine ⟨by rwa [houtcome, hleaves], by rwa [hleaves], fun other hother => ?_⟩
  rw [houtcome] at hother
  obtain rfl := Except.error.inj hother
  exact hexternal

/-- The run of a reading that succeeds. -/
lemma runs_ok (h : Executed p q c) {a : α} {c₁ : Cursor} (hq : q c = .ok a c₁) :
    (∃ is, p.Run c.machine is (.ok a) c₁.machine) ∧ c₁.remaining ≤ c.remaining := by
  obtain ⟨houtcome, hleaves⟩ := Parser.outcome_of_ok hq
  exact ⟨houtcome ▸ hleaves ▸ h.runs, hleaves ▸ h.le⟩

/-- The run of a reading that is refused. -/
lemma runs_error (h : Executed p q c) {fault : Fault} {c₁ : Cursor}
    (hq : q c = .error fault c₁) :
    (∃ is, p.Run c.machine is (.error fault) c₁.machine) ∧ c₁.remaining ≤ c.remaining
      ∧ fault.isInternal = false := by
  obtain ⟨houtcome, hleaves⟩ := Parser.outcome_of_error hq
  exact ⟨houtcome ▸ hleaves ▸ h.runs, hleaves ▸ h.le, h.external fault houtcome⟩

/-- One reader behind another, at a cursor. -/
lemma bind (h : Executed p q c)
    (hf : ∀ a c₁, q c = .ok a c₁ → Executed (f a) (g a) c₁) : Executed (p >>= f) (q >>= g) c := by
  rcases hq : q c with ⟨a, c₁⟩ | ⟨fault, c₁⟩
  · obtain ⟨⟨is, hruns⟩, hle⟩ := h.runs_ok hq
    obtain ⟨⟨js, hruns'⟩, hle', hexternal⟩ := hf a c₁ hq
    obtain ⟨houtcome, hleaves⟩ := Parser.outcome_at (Parser.bind_of_ok (f := g) hq)
    rw [← houtcome] at hruns' hexternal
    rw [← hleaves] at hruns' hle'
    exact ⟨⟨_, hruns.bind hruns'⟩, hle'.trans hle, hexternal⟩
  · obtain ⟨⟨is, hruns⟩, hle, hexternal⟩ := h.runs_error hq
    exact .of_error (Parser.bind_of_error hq) ⟨_, hruns.refused⟩ hle hexternal

/-- A reader that is named is run as its text. -/
lemma invoke {r : Procedure α} (h : Executed r.body q c) : Executed (.invoke r) q c where
  runs := h.runs.imp fun _ hruns => hruns.invoke
  le := h.le
  external := h.external

/-- Another reader with the same end. -/
lemma congr {q' : Parser α} (h : Executed p q c) (heq : q' c = q c) : Executed p q' c := by
  obtain ⟨houtcome, hleaves⟩ := Parser.outcome_at heq
  exact ⟨by rw [houtcome, hleaves]; exact h.runs, by rw [hleaves]; exact h.le,
    by rw [houtcome]; exact h.external⟩

/-- Where a reader is refused, the reader that answers its end is not. -/
lemma caught (h : Executed p q c) : Executed (.caught p) (Parser.caught q) c := by
  rcases hq : q c with ⟨a, c₁⟩ | ⟨fault, c₁⟩
  · obtain ⟨⟨is, hruns⟩, hle⟩ := h.runs_ok hq
    exact .of_ok (Parser.caught_of_ok hq) ⟨_, hruns.caught⟩ hle
  · obtain ⟨⟨is, hruns⟩, hle, -⟩ := h.runs_error hq
    exact .of_ok (Parser.caught_of_error hq) ⟨_, hruns.caught⟩ hle

/-- An instruction that moves no token to the side of those ahead. -/
lemma perform {i : Instruction} (hrewind : ∀ n, i = .rewind n → n ≤ c.buffer.length)
    (hle : (c.execute i).2.remaining ≤ c.remaining) :
    Executed (.perform i) (Parser.perform i) c :=
  .of_ok rfl ⟨_, .perform (c.execute_machine i hrewind)⟩ hle

end Executed

namespace Executes

variable {n m : Nat} {p : Program α} {q : Parser α} {f : α → Program β} {g : α → Parser β}

/-- One reader behind another. -/
instance bind [hp : Executes n p q] [hf : ∀ a, Executes n (f a) (g a)] :
    Executes n (p >>= f) (q >>= g) where
  executed c hc := by
    have hexecuted := hp.executed c hc
    refine hexecuted.bind fun a c₁ hq => (hf a).executed c₁ ?_
    exact (hexecuted.runs_ok hq).2.trans_lt hc

/-- **One reader behind another that reads a token**: there is less ahead of the second one. -/
theorem strict_bind [hp : Executes (n + 1) p q] (hstrict : ∀ c, Parser.Strict q c)
    (hf : ∀ a, Executes n (f a) (g a)) : Executes (n + 1) (p >>= f) (q >>= g) where
  executed c hc := by
    refine (hp.executed c hc).bind fun a c₁ hq => (hf a).executed c₁ ?_
    have := hstrict c a c₁ hq
    omega

/-- The judgement from fewer cursors. -/
lemma mono (h : Executes n p q) (hle : m ≤ n) : Executes m p q :=
  ⟨fun c hc => h.executed c (hc.trans_le hle)⟩

/-- One reader behind another, step by step. -/
lemma behind [Executes n p q] (hf : ∀ a, Executes n (f a) (g a)) :
    Executes n (p >>= f) (q >>= g) :=
  inferInstance

/-- No cursor has less than nothing ahead. -/
lemma zero (p : Program α) (q : Parser α) : Executes 0 p q :=
  ⟨fun _ hc => absurd hc (Nat.not_lt_zero _)⟩

/-- A reader that is named is run as its text. -/
lemma invoke {r : Procedure α} (h : Executes n r.body q) : Executes n (.invoke r) q :=
  ⟨fun c hc => (h.executed c hc).invoke⟩

end Executes

/-! ## Single steps -/

section Steps

variable {n : Nat} {kind : Kind}

/-- An answer takes no instruction. -/
instance (a : α) : Executes n (pure a : Program α) (pure a) :=
  ⟨fun _ _ => .of_ok rfl ⟨_, .pure a _⟩ le_rfl⟩

/-- A fault of the text, and not of the reader. -/
lemma throw_executes {fault : Fault} (h : fault.isInternal = false) :
    Executes n (.throw fault : Program α) (throw fault) :=
  ⟨fun _ _ => .of_error rfl ⟨_, .throw fault _⟩ le_rfl h⟩

/-- A fault about a number takes no instruction. -/
instance (lexeme : String) (span : Span) :
    Executes n (.throw (.numeral lexeme span) : Program α) (throw (.numeral lexeme span)) :=
  throw_executes rfl

/-- Both sides go the same way. -/
instance {b : Prop} [Decidable b] {p p' : Program α} {q q' : Parser α} [hp : Executes n p q]
    [hp' : Executes n p' q'] : Executes n (if b then p else p') (if b then q else q') := by
  split
  · exact hp
  · exact hp'

/-- A look at a token ahead. -/
instance (k : Nat) : Executes n (.perform (.lookahead k)) (Parser.perform (.lookahead k)) :=
  ⟨fun _ _ => .perform nofun le_rfl⟩

/-- A step of the cursor. -/
instance : Executes n (.perform .advance) (Parser.perform .advance) :=
  ⟨fun c _ => .perform nofun (Parser.remaining_advance c).1⟩

/-- A look at the span of the token in front. -/
instance : Executes n (.perform .previousSpan) (Parser.perform .previousSpan) :=
  ⟨fun _ _ => .perform nofun le_rfl⟩

/-- A checkpoint. -/
instance : Executes n (.perform .checkpoint) (Parser.perform .checkpoint) :=
  ⟨fun _ _ => .perform nofun le_rfl⟩

/-- The split of a signed number changes nothing of what remains. -/
lemma remaining_splitSign (c : Cursor) : (c.splitSign?.getD c).remaining = c.remaining := by
  rcases hsplit : c.splitSign? with _ | c'
  · rfl
  · simpa using (Cursor.splitsTo_of_splitSign? hsplit).remaining.symm

/-- The split of an arrow changes nothing of what remains. -/
lemma remaining_splitArrow (c : Cursor) : (c.splitArrow?.getD c).remaining = c.remaining := by
  rcases hsplit : c.splitArrow? with _ | c'
  · rfl
  · simpa using (Cursor.splitsTo_of_splitArrow? hsplit).remaining.symm

/-- A split of a number with a sign. -/
instance : Executes n (.perform .splitSign) (Parser.perform .splitSign) :=
  ⟨fun c _ => .perform nofun (remaining_splitSign c).le⟩

/-- A split of an arrow. -/
instance : Executes n (.perform .splitArrow) (Parser.perform .splitArrow) :=
  ⟨fun c _ => .perform nofun (remaining_splitArrow c).le⟩

/-- A look at the token at the cursor. -/
instance : Executes n Program.peek Parser.peek :=
  inferInstanceAs (Executes n (.perform (.lookahead 0)) (Parser.perform (.lookahead 0)))

/-- A look at the kind of the token at the cursor. -/
instance : Executes n Program.peekKind Parser.peekKind :=
  inferInstanceAs (Executes n (do let t ← Program.peek; return t.kind)
    (do let t ← Parser.peek; return t.kind))

/-- A check of the kind of the token at the cursor. -/
instance : Executes n (Program.check kind) (Parser.check kind) :=
  inferInstanceAs (Executes n (do let t ← Program.peek; return t.kind == kind)
    (do let t ← Parser.peek; return t.kind == kind))

/-- A check of the kind of a token ahead. -/
instance (k : Nat) : Executes n (Program.checkAhead k kind) (Parser.checkAhead k kind) :=
  inferInstanceAs (Executes n
    (Program.perform (.lookahead k) >>= fun t : Token => (pure (t.kind == kind) : Program Bool))
    (Parser.perform (.lookahead k) >>= fun t : Token => (pure (t.kind == kind) : Parser Bool)))

/-- A check of the word at the cursor. -/
instance (word : String) : Executes n (Program.checkWord word) (Parser.checkWord word) :=
  inferInstanceAs (Executes n
    (do let t ← Program.peek; return t.kind == .ident && t.lexeme == word)
    (do let t ← Parser.peek; return t.kind == .ident && t.lexeme == word))

/-- A step over the token at the cursor, which is the value. -/
instance : Executes n Program.advance Parser.advance :=
  inferInstanceAs (Executes n (.perform .advance) (Parser.perform .advance))

/-- The span from somewhere to the token in front. -/
instance (start : Span) : Executes n (Program.spanFrom start) (Parser.spanFrom start) :=
  inferInstanceAs (Executes n
    (Program.perform .previousSpan >>= fun s : Span => (pure (start.merge s) : Program Span))
    (Parser.perform .previousSpan >>= fun s : Span => (pure (start.merge s) : Parser Span)))

/-- A token that is refused. -/
lemma refusal_executes (fault : Token → Fault) (h : ∀ t, (fault t).isInternal = false) :
    Executes n (Program.peek >>= fun t => .throw (fault t) : Program α)
      (Parser.peek >>= fun t => throw (fault t)) := by
  have := fun t => throw_executes (α := α) (n := n) (h t)
  infer_instance

/-- The refusal of the token at the cursor. -/
instance (expected : List String) :
    Executes n (Program.unexpected expected : Program α) (Parser.unexpected expected) :=
  refusal_executes (fun t => .unexpected expected t.found t.span) fun _ => rfl

/-- The refusal of a part that is out of its place. -/
instance (part : Misplaced) :
    Executes n (Program.misplaced part : Program α) (Parser.misplaced part) :=
  refusal_executes (fun t => part.fault t.span) fun _ => by cases part <;> rfl

/-- A token that has to be of a kind. -/
instance : Executes n (Program.expect kind) (Parser.expect kind) := by
  unfold Program.expect Parser.expect; infer_instance

/-- A token that is passed over if it is of a kind. -/
instance : Executes n (Program.eat kind) (Parser.eat kind) := by
  unfold Program.eat Parser.eat; infer_instance

end Steps

/-! ## Combinators -/

section Combinators

variable {n : Nat} {kind : Kind} {p : Program α} {q : Parser α}

/-- An item, if a token of its kind stands at the cursor. -/
instance [Executes n p q] : Executes n (Program.whenAt kind p) (Parser.whenAt kind q) := by
  unfold Program.whenAt Parser.whenAt; infer_instance

/-- An item behind a comma, if one stands at the cursor. -/
instance [Executes n p q] : Executes n (Program.afterComma p) (Parser.afterComma q) := by
  unfold Program.afterComma Parser.afterComma; infer_instance

section Many

variable {step : Program (Option α)} {step' : Parser (Option α)}

/-- **A repetition without a bound** comes to the end of the one with a bound.

**Proof sketch.** Induction on what remains.  A round that answers something leaves less ahead, and
behind it the repetition goes on as at its beginning, on both sides. -/
instance many_executes [hs : Parser.Rounds step'] [hp : Executes n step step'] :
    Executes n (.many step) (Parser.many step') where
  executed c hc := by
    induction hn : c.remaining using Nat.strong_induction_on generalizing c with
    | _ k ih =>
      subst hn
      have hround := hp.executed c hc
      rcases hstep : step' c with ⟨_ | a, c₁⟩ | ⟨fault, c₁⟩
      · obtain ⟨⟨is, hruns⟩, hle⟩ := hround.runs_ok hstep
        exact .of_ok (Parser.many_of_none hstep) ⟨_, .many (hruns.bind (.pure [] _))⟩ hle
      · obtain ⟨⟨is, hruns⟩, hle⟩ := hround.runs_ok hstep
        have hlt := hs.some_lt c a c₁ hstep
        have hmore := (ih c₁.remaining hlt c₁ (hlt.trans hc) rfl).bind
          (f := fun rest => pure (a :: rest)) (g := fun rest => pure (a :: rest))
          fun rest c₂ _ => .here (Nat.lt_succ_self _)
        obtain ⟨⟨js, hruns'⟩, hle', hexternal⟩ := hmore
        obtain ⟨houtcome, hleaves⟩ := Parser.outcome_at (Parser.many_of_some hstep)
        rw [← houtcome] at hruns' hexternal
        rw [← hleaves] at hruns' hle'
        exact ⟨⟨_, .many (hruns.bind hruns')⟩, hle'.trans hle, hexternal⟩
      · obtain ⟨⟨is, hruns⟩, hle, hexternal⟩ := hround.runs_error hstep
        exact .of_error (Parser.many_of_error hstep) ⟨_, .many hruns.refused⟩ hle hexternal

end Many

/-- Items with commas between them, up to a closing token. -/
instance [Executes n p q] [Parser.Lowers q] :
    Executes n (Program.commaSeparated kind p) (Parser.commaSeparated kind q) := by
  unfold Program.commaSeparated Parser.commaSeparated; infer_instance

section Operators

variable {operator : Program (Option γ)} {operator' : Parser (Option γ)}

/-- An operator and the operand behind it. -/
instance [ho : Executes n operator operator'] [hp : Executes n p q] :
    Executes n (Program.link operator p) (Parser.link operator' q) := by
  unfold Program.link Parser.link
  refine .behind fun o => ?_
  rcases o with _ | op <;> infer_instance

/-- A chain of operands that is put together from the left. -/
instance leftAssoc_executes [Executes n operator operator'] [Executes n p q]
    [Parser.Rounds operator'] [Parser.Lowers q] {combine : α → γ → α → α} :
    Executes n (Program.leftAssoc operator p combine) (Parser.leftAssoc operator' q combine) := by
  rw [Parser.leftAssoc_eq]
  unfold Program.leftAssoc
  infer_instance

/-- Operators in front of an operand. -/
instance prefixed_executes [Executes n operator operator'] [Executes n p q]
    [Parser.Rounds operator'] {combine : γ → α → α} :
    Executes n (Program.prefixed operator p combine) (Parser.prefixed operator' q combine) := by
  unfold Program.prefixed Parser.prefixed; infer_instance

end Operators

/-! ## Readings that are tried at the same place -/

/-- The machine goes back to where a reading began. -/
lemma execute_rewind {c c₁ : Cursor} {ts : List Token} (h : c.Reads SplitsTo ts c₁) :
    c₁.machine.execute (.rewind c.position) = some ((), (c₁.seek c.position).machine) := by
  refine Cursor.execute_machine (.rewind c.position) fun n hn => ?_
  obtain rfl := Instruction.rewind.inj hn
  have hposition : c.position ≤ c₁.position := by simp [Cursor.position, h.past]
  exact hposition.trans c₁.position_le

/-- Where a reading began, as much is ahead as before it. -/
lemma remaining_seek {c c₁ : Cursor} {ts : List Token} (h : c.Reads SplitsTo ts c₁) :
    (c₁.seek c.position).remaining = c.remaining := by
  rw [h.seek, h.remaining]
  simp [Cursor.remaining]

/-- The run of a reader that goes back behind a fault.

**Proof sketch.** The machine goes back to the mark and runs the second reader with its fault
caught.  By cases on what comes of it: a value is returned, and of two faults the one that lies
further on is told again.  Neither fault is an internal one, so that neither is passed on in place
of the choice. -/
lemma run_goBack {second : Program α} {m m₁ m₂ : Machine} {is : List Instruction}
    {r : Except Fault α} {start : Nat} {fault : Fault} (hfault : fault.isInternal = false)
    (hrewind : m.execute (.rewind start) = some ((), m₁)) (h : second.Run m₁ is r m₂)
    (hr : ∀ other, r = .error other → other.isInternal = false) :
    ∃ js, (Program.goBack start fault second).Run m js (r.mapError fault.furthest) m₂ := by
  unfold Program.goBack
  rw [if_neg (by simp [hfault])]
  have hrewind : (Program.perform (.rewind start)).Run m [.rewind start] (.ok ()) m₁ :=
    .perform hrewind
  rcases r with other | a
  · have hthrow : (Program.throw (if other.isInternal then other else fault.furthest other)
        : Program α).Run m₂ [] (.error (fault.furthest other)) m₂ := by
      rw [if_neg (by simp [hr other rfl])]
      exact .throw _ _
    exact ⟨_, hrewind.bind (h.caught.bind hthrow)⟩
  · exact ⟨_, hrewind.bind (h.caught.bind (.pure a _))⟩

/-- Of two faults that are not internal, the one that shows further on is not internal. -/
lemma isInternal_furthest {fault other : Fault} (h : fault.isInternal = false)
    (h' : other.isInternal = false) : (fault.furthest other).isInternal = false := by
  simp only [Fault.furthest]
  split
  · exact h'
  · exact h

/-- **A reading that is tried, and another one at the same place** where the first is refused.

**Proof sketch.** The first reader left the cursor behind what it read, so that the position where
it began lies in the buffer, and as much is ahead of it as before.  The fault of the first reader is
not internal, so that the second one is tried. -/
theorem orElseHere_executed {first second : Program α} {first' second' : Parser α} {c : Cursor}
    (hfirst : Executed first first' c)
    (hreads : ∀ fault c₁, first' c = .error fault c₁ → ∃ ts, c.Reads SplitsTo ts c₁)
    (hsecond : ∀ c₁, c₁.remaining = c.remaining → Executed second second' c₁) :
    Executed (Program.retry first second) (Parser.orElseHere first' second') c := by
  have hcheckpoint : (Program.perform .checkpoint).Run c.machine [.checkpoint] (.ok c.position)
      c.machine := .perform rfl
  rcases hq : first' c with ⟨a, c₁⟩ | ⟨fault, c₁⟩
  · obtain ⟨⟨is, hrun⟩, hle⟩ := hfirst.runs_ok hq
    exact .of_ok (by rw [Parser.orElseHere, hq])
      ⟨_, hcheckpoint.bind (hrun.caught.bind (.pure a _))⟩ hle
  · obtain ⟨⟨is, hrun⟩, -, hfault⟩ := hfirst.runs_error hq
    obtain ⟨ts, hread⟩ := hreads fault c₁ hq
    have hremaining := remaining_seek hread
    obtain ⟨⟨js, hrun'⟩, hle, hexternal⟩ := hsecond (c₁.seek c.position) hremaining
    obtain ⟨ks, hgoBack⟩ := run_goBack hfault (execute_rewind hread) hrun' hexternal
    have hend : (Parser.orElseHere first' second').outcome c
          = (second'.outcome (c₁.seek c.position)).mapError fault.furthest
        ∧ (Parser.orElseHere first' second').leaves c = second'.leaves (c₁.seek c.position) := by
      simp only [Parser.outcome, Parser.leaves, Parser.orElseHere, hq]
      rcases second' (c₁.seek c.position) with ⟨a, c₂⟩ | ⟨other, c₂⟩ <;> exact ⟨rfl, rfl⟩
    refine ⟨?_, by rw [hend.2]; omega, fun other hother => ?_⟩
    · rw [hend.1, hend.2]
      exact ⟨_, hcheckpoint.bind (hrun.caught.bind hgoBack)⟩
    · rw [hend.1] at hother
      rcases hsecond : second'.outcome (c₁.seek c.position) with other' | a
      · rw [hsecond] at hother
        obtain rfl := Except.error.inj hother
        exact isInternal_furthest hfault (hexternal other' hsecond)
      · rw [hsecond] at hother
        cases hother

/-! ## Recursions -/

/-- **A reader that goes on with itself** comes to the end of one that goes on with the same reader
under a smaller bound.

**Proof sketch.** Induction on the bound.  Where the text goes on with the reader there is less
ahead, so that there too the bound is large enough. -/
theorem executes_of_bounded {F : Parser α → Parser α} (bounded : Nat → Parser α)
    (hsucc : ∀ k, bounded (k + 1) = F (bounded k))
    (hzero : ∀ c : Cursor, c.remaining = 0 → bounded 0 c = bounded 1 c)
    (hF : ∀ m k, Executes m p (bounded k) → Executes (m + 1) p (F (bounded k))) :
    Executes n p fun c => bounded c.remaining c := by
  have hstep {m k : Nat} (h : Executes m p (bounded k)) : Executes (m + 1) p (bounded (k + 1)) := by
    rw [hsucc]
    exact hF m k h
  have hall (k : Nat) : Executes (k + 1) p (bounded k) := by
    induction k with
    | zero => exact ⟨fun c hc => ((hstep (.zero p (bounded 0))).executed c hc).congr
        (hzero c (by omega))⟩
    | succ k ih => exact hstep ih
  exact ⟨fun c _ => ((hall c.remaining).executed c (Nat.lt_succ_self _)).congr rfl⟩

end Combinators

end RakeLang
