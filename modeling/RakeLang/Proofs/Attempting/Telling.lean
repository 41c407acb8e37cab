import RakeLang.Proofs.Reading.Predicate

/-!
# Where faults are told

A reader that is refused tells a fault of the token at the cursor, or of the number that it has just
read.  What the fault says it takes from there: the text of that token, the kinds of tokens that
could stand instead of it, and the name of the rake around it.  So it is behind a trial too.  The
fault that is told in the end was told by one of the alternatives, at a cursor that has been left
since; it shows at a token that was met, or at the first one that was not.

## Main definitions

* `RakeLang.Cursor.AtCount` — the place of the number of tokens in a pass over a pack.
* `RakeLang.Fault.ToldAt` — the faults that a reader tells at a cursor.
* `RakeLang.Fault.Shows` — a fault that is told on the way from a cursor.

## Main results

* `RakeLang.Fault.Shows.behind`, `RakeLang.Fault.Shows.suffix` — readings that go on.
-/

set_option relaxedAutoImplicit false
set_option autoImplicit false

namespace RakeLang

open Token

/-! ## What a fault is told of -/

/-- The rake that a fault names. -/
def Misplaced.rake? : Misplaced → Option String
  | noTine rake | setupBehindTine rake | noThrough rake | tineBehindThrough rake | noSweep rake
  | secondSweep rake => some rake
  | noSweepArm | noResultName => none

namespace Cursor

/-- The name is the text of a token that was read. -/
def Named (c : Cursor) (name : String) : Prop := ∃ t ∈ c.past, t.lexeme = name

/-- The cursor stands behind the word `over`, a pack and a comma, where the number of tokens of a
pass over the pack is told. -/
def AtCount (c : Cursor) : Prop :=
  ∃ first pack comma before, c.past = comma :: (pack.reverse ++ first :: before)
    ∧ first.kind = .keyword .overKw ∧ (∃ e : Expression, pack ∈ e.placed)
    ∧ comma.kind = .symbol .comma

/-- The name of a rake stays that of a token behind the cursor. -/
lemma Named.reads {R : List Token → List Token → Prop} {c c' : Cursor} {name : String}
    {read : List Token} (h : c.Named name) (hread : c.Reads R read c') : c'.Named name := by
  obtain ⟨t, ht, hname⟩ := h
  exact ⟨t, hread.past ▸ List.mem_append_right _ ht, hname⟩

end Cursor

namespace Fault

/-- What a reader tells where it stands at the cursor, behind the tokens that it has read: a token
where one of some kinds should stand, a part of a definition out of place, an angle or any other
token where a scalar literal should stand, or the number that was read last, if it has no value or
the value has no opposite. -/
inductive ToldAt (c : Cursor) (read : List Token) : Fault → Prop
  | unexpected {expected : List String} (hne : expected ≠ [])
      (hlines : ∀ text ∈ expected, '\n' ∉ text.toList) :
      ToldAt c read (.unexpected expected c.peek.found c.peek.span)
  | misplaced (part : Misplaced) (hrake : ∀ rake ∈ part.rake?, c.Named rake) :
      ToldAt c read (part.fault c.peek.span)
  | unclosed (h : c.peek.kind = .symbol .less ∨ c.peek.kind = .symbol .leftArrow ∨ c.AtCount) :
      ToldAt c read (.unclosedScalar c.peek.span)
  | numeral {t : Token} (ht : t ∈ read.getLast?) (hkind : t.kind.isNumber = true)
      (hnone : t.number? = none) : ToldAt c read (.numeral t.lexeme t.span)
  | opposite {t : Token} {n : Number} (ht : t ∈ read.getLast?) (hn : t.number? = some n)
      (hnone : n.negate? = none) : ToldAt c read (.numeral ("-" ++ n.render) t.span)

/-- The fault is told on the way from `c` on: at a token that was met there, or at the head of the
tokens `rest` behind these. -/
def Shows (fault : Fault) (c : Cursor) (rest : List Token) : Prop :=
  ∃ read left c', c.Reads SplitsTo read c' ∧ c'.ahead = left ++ rest ∧ fault.ToldAt c' read

section Shows

variable {fault other : Fault} {c c₁ : Cursor} {ts rest rest' : List Token}

/-- What is told behind a number is told behind all that was read in front of it. -/
lemma ToldAt.append {us : List Token} (h : fault.ToldAt c us) : fault.ToldAt c (ts ++ us) := by
  cases h with
  | unexpected hne hlines => exact .unexpected hne hlines
  | misplaced part hrake => exact .misplaced part hrake
  | unclosed h => exact .unclosed h
  | numeral ht hkind hnone =>
    exact .numeral (List.mem_getLast?_append_of_mem_getLast? ht) hkind hnone
  | opposite ht hn hnone => exact .opposite (List.mem_getLast?_append_of_mem_getLast? ht) hn hnone

/-- What is told at the cursor shows there. -/
lemma ToldAt.shows (h : fault.ToldAt c []) : fault.Shows c c.ahead := ⟨[], [], c, .refl c, rfl, h⟩

/-- What shows behind a reading shows from where the reading began. -/
theorem Shows.behind (hread : c.Reads SplitsTo ts c₁) (h : fault.Shows c₁ rest) :
    fault.Shows c rest := by
  obtain ⟨us, left, c₂, hus, hahead, htold⟩ := h
  exact ⟨ts ++ us, left, c₂, hread.trans hus, hahead, htold.append⟩

/-- More tokens may have been met than those among which a fault shows. -/
theorem Shows.suffix (h : fault.Shows c rest) (hrest : rest' <:+ rest) : fault.Shows c rest' := by
  obtain ⟨read, left, c', hread, hahead, htold⟩ := h
  obtain ⟨more, rfl⟩ := hrest
  exact ⟨read, left ++ more, c', hread, by rw [hahead, List.append_assoc], htold⟩

/-- The furthest of two faults shows where both do. -/
lemma Shows.furthest (h : fault.Shows c rest) (h' : other.Shows c rest) :
    (fault.furthest other).Shows c rest := by
  rcases furthest_cases fault other with heq | heq <;> rw [heq]
  exacts [h, h']

end Shows

end Fault

end RakeLang
