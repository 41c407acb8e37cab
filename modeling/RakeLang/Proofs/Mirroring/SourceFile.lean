import RakeLang.Proofs.Mirroring.Definition

/-!
# Source files mirror each other

For inputs that are equally long, the attempts at definitions are the same on both sides: each
begins at the same token, gives the same definition or the same fault up to spans, and behind a
fault both sides go on at the same place.

At the first token of an input nothing was read before it, which may be so on one side only.  So an
attempt asks for no more than that the cursors are related behind its first token.

## Main definitions

* `RakeLang.Mirror.Starts` — cursors at which attempts begin.
* `RakeLang.Mirror.Outcomes` — attempts that gave the same up to spans.

## Main results

* `RakeLang.attemptsUpTo_mirrors` — the attempts are the same.
* `RakeLang.readDefinitions_mirrors` — the definitions and the faults of a file are the same.
* `RakeLang.Parser.wholeInput_mirrors` — readings of whole inputs.
-/

set_option relaxedAutoImplicit false
set_option autoImplicit false

namespace RakeLang

open Token RakeLang.Parser

namespace Mirror

variable {M : Mirror} {c d c' d' : Cursor}

/-- The cursors show the same token, and they are related behind it. -/
structure Starts (M : Mirror) (c d : Cursor) : Prop where
  same : M.Same c d
  behind : c.peek.kind ≠ .eof → M.Rel c.advance d.advance
  position : d.position = c.position + M.older

/-- In a total relation, an attempt may begin at any related cursors. -/
lemma starts_of_rel (htotal : M.total) (h : M.Rel c d) : M.Starts c d :=
  ⟨same_of_total htotal h, fun _ => M.advance h (same_of_total htotal h), M.position h⟩

/-- The attempts gave definitions that are the same up to spans, or faults that are. -/
def Outcomes (M : Mirror) (a a' : Attempt) : Prop :=
  match a.outcome, a'.outcome with
  | .ok definition, .ok definition' => M.Alike Definition.mapSpans definition definition'
  | .error fault, .error fault' => M.Faults fault fault'
  | _, _ => False

/-! ## Going on behind a fault -/

/-- Both sides go on at the same place where a definition can begin. -/
lemma skipToDefinition (htotal : M.total) (h : M.Rel c d) :
    M.Rel c.skipToDefinition d.skipToDefinition := by
  have := EndsAtDefinitions.of_total htotal
  have hgo (n : Nat) : ∀ c d, M.Rel c d →
      M.Rel (Cursor.skipToDefinition.go n c) (Cursor.skipToDefinition.go n d) := by
    induction n with
    | zero => exact fun _ _ h => h
    | succ n ih =>
      intro c d h
      simp only [Cursor.skipToDefinition.go, ← atDefinitionBoundary_eq h]
      split
      · exact h
      · exact ih _ _ (M.advance h (same_of_total htotal h))
  rw [Cursor.skipToDefinition, Cursor.skipToDefinition, ← M.length htotal h]
  exact hgo _ c d h

/-- Behind a fault both sides go on at related cursors. -/
lemma recover (htotal : M.total) (hstart : d.position = c.position + M.older)
    (h : M.Rel c' d') : M.Rel (c'.recover c.position) (d'.recover d.position) := by
  have hsame := same_of_total htotal h
  have hposition : (c'.position = c.position) = (d'.position = d.position) := by
    rw [M.position h, hstart, Nat.add_right_cancel_iff]
  simp only [Cursor.recover, ← hposition, ← atDefinitionStart_eq h hsame]
  split
  · exact skipToDefinition htotal (M.advance h hsame)
  · exact skipToDefinition htotal h

/-- An attempt that is refused at its first token goes on behind it. -/
lemma Starts.recover (htotal : M.total) (h : M.Starts c d) (hc : c.peek.kind ≠ .eof) :
    M.Rel (c.recover c.position) (d.recover d.position) := by
  simp only [Cursor.recover, true_or, if_true]
  exact skipToDefinition htotal (h.behind hc)

end Mirror

namespace Parser

variable {M : Mirror} {c d : Cursor}

/-- Where no word that opens a definition stands, the token there is refused. -/
lemma definition_of_not_opens (hc : c.peek.kind.opensDefinition = false) :
    definition c = .error (.unexpected ["`stack`", "`single`", "`type`", "`crunch`", "`rake`",
      "`run`"] c.peek.found c.peek.span) c := by
  change (peekKind >>= _) c = _
  rw [bind_of_ok (show peekKind c = .ok c.peek.kind c from rfl)]
  generalize hkind : c.peek.kind = kind at hc
  rcases kind with _ | _ | _ | _ | _ | word | sign | _
  case keyword => cases word <;> first | rfl | cases hc
  all_goals rfl

end Parser

/-! ## Attempts -/

section Attempts

variable {M : Mirror} {mode : ErrorMode}

/-- Attempts at related cursors.

**Proof sketch.** Induction on the bound.  An attempt at a word that opens a definition is mirrored
from behind that word on; any other token is refused on both sides, and reading goes on behind
it. -/
theorem attemptsUpTo_mirrors (htotal : M.total) (n : Nat) :
    ∀ c d, M.Starts c d → List.Forall₂ M.Outcomes (attemptsUpTo mode n c).1
      (attemptsUpTo mode n d).1 := by
  have := Mirror.EndsAtDefinitions.of_total htotal
  induction n with
  | zero => exact fun _ _ _ => .nil
  | succ n ih =>
    intro c d h
    have hend : c.atEnd = d.atEnd := by rw [Cursor.atEnd, Cursor.atEnd, h.same.kind]
    by_cases hc : c.atEnd = true
    · simp only [attemptsUpTo, hc, hend ▸ hc, if_true]
      exact .nil
    have heof : c.peek.kind ≠ .eof := fun heof => hc (by simp [Cursor.atEnd, heof])
    simp only [attemptsUpTo, ← hend, hc, Bool.false_eq_true, if_false]
    rcases hopens : c.peek.kind.opensDefinition with _ | _
    · rw [definition_of_not_opens hopens, definition_of_not_opens (h.same.kind ▸ hopens)]
      have hfaults : M.Faults (.unexpected ["`stack`", "`single`", "`type`", "`crunch`", "`rake`",
          "`run`"] c.peek.found c.peek.span) (.unexpected ["`stack`", "`single`", "`type`",
          "`crunch`", "`rake`", "`run`"] d.peek.found d.peek.span) := by
        refine ⟨?_, _, _, rfl, rfl, h.same.span⟩
        simp only [Mirror.Alike, Fault.mapSpans, h.same.found, M.view h.same.span]
      cases mode
      · exact .cons hfaults .nil
      · exact .cons hfaults (ih _ _ (Mirror.starts_of_rel htotal (h.recover htotal heof)))
    · have hdefinition : Mirrors M definition definition c d (M.Alike Definition.mapSpans) :=
        definitionWith_mirrors (predicate_mirrors htotal).closed hopens h.same (h.behind heof)
      rcases hrun : definition c with ⟨a, c'⟩ | ⟨fault, c'⟩
      · obtain ⟨b, d', hd, halike, hrel⟩ := hdefinition.ok a c' hrun
        rw [hd]
        exact .cons halike (ih c' d' (Mirror.starts_of_rel htotal hrel))
      · obtain ⟨other, d', hd, hfaults, hrel⟩ := hdefinition.error htotal fault c' hrun
        rw [hd]
        cases mode
        · exact .cons hfaults .nil
        · exact .cons hfaults (ih _ _ (Mirror.starts_of_rel htotal
            (Mirror.recover htotal h.position hrel)))

variable {as bs : List Attempt}

/-- Attempts that gave the same gave the same definitions. -/
lemma definitions_of_outcomes (h : List.Forall₂ M.Outcomes as bs) :
    (as.filterMap Attempt.definition?).map (Definition.mapSpans M.left)
      = (bs.filterMap Attempt.definition?).map (Definition.mapSpans M.right) := by
  induction h with
  | nil => rfl
  | @cons a b as bs hab _ ih =>
    rcases a with ⟨start, fault | definition⟩ <;> rcases b with ⟨start', fault' | definition'⟩
    · exact ih
    · exact hab.elim
    · exact hab.elim
    · exact congrArg₂ List.cons hab ih

/-- Attempts that gave the same gave the same faults. -/
lemma faults_of_outcomes (h : List.Forall₂ M.Outcomes as bs) :
    (as.filterMap Attempt.fault?).map (Fault.mapSpans M.left)
      = (bs.filterMap Attempt.fault?).map (Fault.mapSpans M.right) := by
  induction h with
  | nil => rfl
  | @cons a b as bs hab _ ih =>
    rcases a with ⟨start, fault | definition⟩ <;> rcases b with ⟨start', fault' | definition'⟩
    · exact congrArg₂ List.cons hab.1 ih
    · exact hab.elim
    · exact hab.elim
    · exact ih

/-- **Source files mirror each other**: their definitions and their faults are the same up to
spans. -/
theorem readDefinitions_mirrors {c d : Cursor} (htotal : M.total) (h : M.Starts c d)
    (hremaining : c.remaining = d.remaining) :
    (readDefinitions mode c).file.definitions.map (Definition.mapSpans M.left)
        = (readDefinitions mode d).file.definitions.map (Definition.mapSpans M.right)
      ∧ (readDefinitions mode c).faults.map (Fault.mapSpans M.left)
        = (readDefinitions mode d).faults.map (Fault.mapSpans M.right) := by
  have hattempts : List.Forall₂ M.Outcomes (attempts mode c).1 (attempts mode d).1 := by
    rw [attempts, attempts, ← hremaining]
    exact attemptsUpTo_mirrors htotal c.remaining c d h
  exact ⟨definitions_of_outcomes hattempts, faults_of_outcomes hattempts⟩

end Attempts

/-! ## Whole inputs -/

/-- **Readings of whole inputs mirror each other** if what they read does. -/
theorem Parser.wholeInput_mirrors {α : Type} {M : Mirror} {p : Parser α} {c d : Cursor}
    {Q : α → α → Prop} (htotal : M.total) (h : Mirrors M p p c d Q) :
    Mirrors M p.wholeInput p.wholeInput c d Q := by
  unfold wholeInput
  refine h.bind fun a b c₁ d₁ hab hrel => ?_
  have hsame := Mirror.same_of_total htotal hrel
  have hcheck : Mirrors M
      (if (c₁.peek.kind == .eof) = true then pure a else unexpected ["end of input"])
      (if (d₁.peek.kind == .eof) = true then pure b else unexpected ["end of input"]) c₁ d₁ Q := by
    rw [← hsame.kind]
    split
    · exact .pure hrel hab
    · exact .unexpected hrel
  exact hcheck.congr rfl rfl

end RakeLang
