import RakeLang.Proofs.Attempting.Recovery
import RakeLang.Proofs.Mirroring.Closed
import RakeLang.Proofs.Mirroring.Displaced
import RakeLang.Proofs.Mirroring.SourceFile

/-!
# Inputs that go on behind their end

An input is followed by further tokens, the first of which opens a definition.  The definitions that
are read from the input alone are read from both together, and nothing of them changes: a body ends
there as it ends at the end of the input, and no other reader looks beyond a word that opens a
definition.

## Main definitions

* `RakeLang.Cursor.Continued` — a cursor in an input and one in the longer input.
* `RakeLang.Mirror.continued` — the mirror between them.

## Main results

* `RakeLang.Parser.definition_continued` — definitions are read from the longer input as well.
* `RakeLang.attempts_continued` — so are all definitions of an input without faults, and reading
  goes on with what follows it.
-/

set_option relaxedAutoImplicit false
set_option autoImplicit false

namespace RakeLang

open Token RakeLang.Parser

/-! ## Tokens that are followed by a part -/

namespace Token

variable {ts rest : List Token}

/-- No arrow joins a token that opens a part. -/
lemma severed_of_opens (h : (Spelling.headKind rest).opensPart = true) (ts : List Token) :
    Severed ts rest := by
  rintro t - - u hu
  obtain ⟨us, rfl⟩ := List.head?_eq_some_iff.1 hu
  rw [Spelling.headKind_cons] at h
  have hnumber : u.kind.isNumber = false := by
    rcases hkind : u.kind <;>
      simp [hkind, Kind.opensPart, Kind.opensDefinition, Kind.isNumber] at h ⊢
  simp [joinsArrow, hnumber]

/-- No word that opens a part of a definition is split. -/
lemma splitHead_of_opens (h : (Spelling.headKind rest).opensPart = true) :
    splitHead rest = rest ∧ splitArrowHead rest = rest := by
  rcases rest with _ | ⟨t, rest⟩
  · exact ⟨rfl, rfl⟩
  rw [Spelling.headKind_cons] at h
  have harrow : t.kind ≠ .symbol .leftArrow := fun hkind => by
    simp [hkind, Kind.opensPart, Kind.opensDefinition] at h
  have hsigned : t.isSignedNumber = false := by
    rcases hkind : t.kind <;>
      simp [hkind, Kind.opensPart, Kind.opensDefinition, Kind.isNumber, isSignedNumber] at h ⊢
  constructor
  · simp [splitHead, splitSign?, hsigned, splitArrow?, harrow]
  · simp [splitArrowHead, splitArrow?, harrow]

/-- The split of a first token is the same whether or not a part follows. -/
lemma splitHead_append_of_opens (h : (Spelling.headKind rest).opensPart = true) :
    splitHead (ts ++ rest) = splitHead ts ++ rest := by
  rcases eq_or_ne ts [] with rfl | hts
  · exact (splitHead_of_opens h).1
  · exact (splitHead_append (severed_of_opens h ts) hts).1

/-- An arrow in front of such a word is split as it is at the end of the input. -/
lemma splitArrowHead_append_of_opens (h : (Spelling.headKind rest).opensPart = true) :
    splitArrowHead (ts ++ rest) = splitArrowHead ts ++ rest := by
  rcases ts with _ | ⟨t, ts⟩
  · exact (splitHead_of_opens h).2
  by_cases harrow : t.kind = .symbol .leftArrow
  · rcases ts with _ | ⟨u, ts⟩
    · have hjoins := severed_of_opens h [t] t rfl harrow
      rcases rest with _ | ⟨v, rest⟩
      · simp [splitArrowHead, splitArrow?, harrow]
      · simp [splitArrowHead, splitArrow?, harrow, hjoins v rfl]
    · rcases hjoins : joinsArrow t u <;> simp [splitArrowHead, splitArrow?, harrow, hjoins]
  · simp [splitArrowHead, splitArrow?, harrow]

end Token

/-! ## Cursors in both inputs -/

/-- Some part opens at the cursor, or the input ends there. -/
structure Cursor.AtPart (e : Cursor) : Prop where
  opens : e.peek.kind.opensPart = true
  ends : e.peek.kind = .eof → e.ahead = []

/-- Where a definition can begin, a part of one does. -/
lemma Cursor.AtPart.of_atDefinitionStart {e : Cursor} (h : e.atDefinitionStart = true) :
    e.AtPart where
  opens := Kind.opensPart_of_opensDefinition (Mirror.opensDefinition_of_atDefinitionStart h)
  ends heof := by
    have hopens := Mirror.opensDefinition_of_atDefinitionStart h
    rw [heof] at hopens
    cases hopens

/-- The tokens that were read before `c` were read before `d`, behind `before`, and what is ahead of
`d` is what is ahead of `c`, followed by what is ahead of `e`. -/
structure Cursor.Continued (before : List Token) (e c d : Cursor) : Prop where
  past : d.past = c.past ++ before
  ahead : d.ahead = c.ahead ++ e.ahead
  closing : d.closing = e.closing

namespace Cursor.Continued

variable {before : List Token} {e c d : Cursor}

/-- Before the end of the shorter input both sides look at the same token. -/
lemma peek_eq (h : Continued before e c d) (hc : c.ahead ≠ []) : d.peek = c.peek := by
  obtain ⟨t, ts, hts⟩ := List.exists_cons_of_ne_nil hc
  rw [Cursor.peek, h.ahead, Cursor.peek, hts]
  rfl

/-- Before the end of the shorter input both sides read the same token. -/
lemma advance (h : Continued before e c d) (hc : c.ahead ≠ []) :
    c.advance.past ≠ [] ∧ Continued before e c.advance d.advance := by
  obtain ⟨t, ts, hts⟩ := List.exists_cons_of_ne_nil hc
  have hd : d.ahead = t :: (ts ++ e.ahead) := by rw [h.ahead, hts, List.cons_append]
  simp only [Cursor.advance, hd, hts]
  exact ⟨List.cons_ne_nil _ _, by rw [h.past, List.cons_append], rfl, h.closing⟩

/-- What changes the tokens of the shorter input only is done to both sides. -/
lemma exchange {f : List Token → List Token} (h : Continued before e c d)
    (hf : ∀ ts, f (ts ++ e.ahead) = f ts ++ e.ahead) :
    Continued before e { c with ahead := f c.ahead } { d with ahead := f d.ahead } :=
  ⟨h.past, by rw [h.ahead, hf], h.closing⟩

/-- In the longer input, what follows remains as well. -/
lemma remaining (h : Continued before e c d) : d.remaining = c.remaining + e.remaining := by
  rw [Cursor.remaining, h.ahead, countPieces_append]
  rfl

end Cursor.Continued

/-- An input that goes on behind its end with another part is read as before. -/
def Mirror.continued (before : List Token) (e : Cursor) (he : e.AtPart) : Mirror where
  left := id
  right := id
  Spans := Eq
  total := False
  older := before.length
  Rel c d := c.past ≠ [] ∧ Cursor.Continued before e c d
  Fence d := d.ahead = e.ahead ∧ d.closing = e.closing
  opensPart {d} h := by
    have hpeek : d.peek = e.peek := by simp only [Cursor.peek, h.1, h.2]
    rw [hpeek]
    exact he.opens
  view h := h
  merge h h' := by rw [h, h']
  order h h' := by rw [h, h']
  heads {c d} h := by
    by_cases hc : c.ahead = []
    · exact .inr ⟨id, hc, by rw [h.2.ahead, hc, List.nil_append], h.2.closing⟩
    · rw [h.2.peek_eq hc]
      exact .inl ⟨rfl, rfl, rfl⟩
  advance {c d} h hsame := by
    by_cases hc : c.ahead = []
    · -- where both inputs are at their end, neither cursor moves
      have hd : d.ahead = e.ahead := by rw [h.2.ahead, hc, List.nil_append]
      have hpeek : d.peek = e.peek := by simp only [Cursor.peek, hd, h.2.closing]
      have hend : e.ahead = [] :=
        he.ends (by rw [← hpeek, ← hsame.kind, Cursor.peek_kind_of_ahead_nil hc])
      have hstay {b : Cursor} (hb : b.ahead = []) : b.advance = b := by
        rw [Cursor.advance, hb]
      rwa [hstay hc, hstay (hd.trans hend)]
    · exact h.2.advance hc
  splitInfix {c d} h := by
    have hopens := he.opens
    rw [e.peek_kind] at hopens
    rw [c.splitInfix_eq, d.splitInfix_eq]
    exact ⟨h.1, h.2.exchange fun _ => splitHead_append_of_opens hopens⟩
  splitArrow {c d} h := by
    have hopens := he.opens
    rw [e.peek_kind] at hopens
    rw [splitArrow_eq_splitArrowHead, splitArrow_eq_splitArrowHead]
    exact ⟨h.1, h.2.exchange fun _ => splitArrowHead_append_of_opens hopens⟩
  seek := nofun
  previous {c d} h := by
    obtain ⟨t, ts, hts⟩ := List.exists_cons_of_ne_nil h.1
    simp only [Cursor.previousSpan, h.2.past, hts, List.cons_append, List.headD_cons]
  position {c d} h := by
    rw [Cursor.position, h.2.past, List.length_append]
    rfl
  remaining h := ⟨e.remaining, h.2.remaining, nofun⟩
  length := nofun

namespace Mirror

variable {before : List Token} {e : Cursor} {he : e.AtPart}

/-- A token of the shorter input is shown by both. -/
lemma continued_same {c d : Cursor} (h : Cursor.Continued before e c d) (hc : c.ahead ≠ []) :
    Same (continued before e he) c d := by
  rw [Same, h.peek_eq hc]
  exact ⟨rfl, rfl, rfl⟩

/-- What is the same in both inputs up to spans is the same. -/
lemma eq_of_continued {α : Type} {mapSpans : (Span → Span) → α → α} (hmap : mapSpans id = id)
    {a b : α} (h : Alike (continued before e he) mapSpans a b) : a = b := by
  change mapSpans id a = mapSpans id b at h
  rwa [hmap] at h

/-- Where the shorter input ends a definition can begin in the longer one. -/
lemma continued_endsAtDefinitions (before : List Token) {e : Cursor} (he : e.AtPart)
    (hstart : e.atDefinitionStart = true) : (continued before e he).EndsAtDefinitions where
  atDefinitionStart {c d} hended := by
    have hahead : d.ahead = e.ahead := hended.2.2.1
    have hclosing : d.closing = e.closing := hended.2.2.2
    simpa only [Cursor.atDefinitionStart, Cursor.peek, Cursor.lookahead, hahead, hclosing]
      using hstart

end Mirror

/-! ## Definitions -/

namespace Parser

variable {before : List Token} {e c c' d : Cursor}

/-- **A definition is read from the longer input as well**, where it is read from the shorter one.

**Proof sketch.** A definition that is read opens with one of the words of a definition, so the
cursor has a token and the two sides begin alike.  Definitions mirror each other for readers of
guards that look at the untouched buffer, and these readers agree with the readers of the program
where a definition is read. -/
theorem definition_continued (hstart : e.atDefinitionStart = true)
    (h : Cursor.Continued before e c d) {a : Definition} (hc : definition c = .ok a c') :
    ∃ d', definition d = .ok a d' ∧ Cursor.Continued before e c' d' := by
  have he := Cursor.AtPart.of_atDefinitionStart hstart
  have := Mirror.continued_endsAtDefinitions before he hstart
  have hopens : c.peek.kind.opensDefinition = true := by
    by_contra hno
    rw [Bool.not_eq_true] at hno
    cases (definition_of_not_opens hno).symm.trans hc
  have hne : c.ahead ≠ [] := fun hnil => by
    rw [Cursor.peek_kind_of_ahead_nil hnil] at hopens
    cases hopens
  have hmirrors : Mirrors (.continued before e he) (definitionWith predicateAfresh)
      (definitionWith predicateAfresh) c d
      (Mirror.Alike (.continued before e he) Definition.mapSpans) :=
    definitionWith_mirrors (closed_mirrors id) hopens (Mirror.continued_same h hne) (h.advance hne)
  obtain ⟨b, d', hd, halike, hrel⟩ := hmirrors.ok a c' ((definition_agrees c a c').1 hc)
  obtain rfl := Mirror.eq_of_continued Definition.mapSpans_id halike
  exact ⟨d', (definition_agrees d a d').2 hd, hrel.2⟩

end Parser

/-! ## Attempts -/

section Attempts

variable {mode : ErrorMode} {before : List Token} {e : Cursor}

/-- The bound cuts no attempts off where it is large enough.

**Proof sketch.** Induction on the bound.  Where nothing remains there is no attempt, and every
attempt leaves less than there was. -/
lemma attemptsUpTo_eq_of_le (n : Nat) : ∀ (m : Nat) (c : Cursor), c.remaining ≤ n →
    c.remaining ≤ m → attemptsUpTo mode n c = attemptsUpTo mode m c := by
  have hzero (m : Nat) (c : Cursor) (hc : c.remaining = 0) : attemptsUpTo mode m c = ([], c) := by
    have hend : c.atEnd = true := by
      simp [Cursor.atEnd, Cursor.peek_kind_of_ahead_nil (Cursor.ahead_eq_nil_of_remaining hc)]
    rcases m with _ | m
    · rfl
    · rw [attemptsUpTo, if_pos hend]
  induction n with
  | zero =>
    intro m c hn _
    rw [hzero 0 c (by omega), hzero m c (by omega)]
  | succ n ih =>
    rintro (_ | m) c hn hm
    · rw [hzero _ c (by omega), hzero _ c (by omega)]
    rw [attemptsUpTo, attemptsUpTo]
    by_cases hend : c.atEnd = true
    · rw [if_pos hend, if_pos hend]
    rw [if_neg hend, if_neg hend]
    have hpeek : c.peek.kind ≠ .eof := by simpa [Cursor.atEnd] using hend
    have hmore {c' : Cursor} (h : c.Tries c') :
        attemptsUpTo mode n c' = attemptsUpTo mode m c' := by
      obtain ⟨inner, hreads⟩ := h.reads
      have hlt := hreads.remaining_lt (List.cons_ne_nil _ _)
      exact ih m c' (by omega) (by omega)
    rcases hdef : definition c with ⟨a, behind⟩ | ⟨fault, behind⟩
    · simp only [hmore (tries_definition hpeek hdef)]
    · simp only [hmore (tries_recover hpeek hdef)]

/-- **An input without faults is read as before in front of further definitions**, and where it ends
reading goes on with these.

**Proof sketch.** Induction on the bound.  Each attempt gives the same definition on both sides.
The bounds differ, but both are large enough. -/
theorem attempts_continued (he : e.atDefinitionStart = true) (n : Nat) :
    ∀ c d : Cursor, Cursor.Continued before e c d → c.remaining ≤ n →
      (∀ t ∈ c.ahead, t.kind ≠ .eof) →
      (attemptsUpTo .collectAll n c).1.filterMap Attempt.fault? = [] →
      ∃ d' : Cursor, d'.ahead = e.ahead ∧ d'.closing = e.closing
        ∧ (attempts .collectAll d).1
          = (attemptsUpTo .collectAll n c).1 ++ (attempts .collectAll d').1 := by
  have hnone (c d : Cursor) (h : Cursor.Continued before e c d) (hc : c.ahead = []) :
      ∃ d' : Cursor, d'.ahead = e.ahead ∧ d'.closing = e.closing
        ∧ (attempts .collectAll d).1 = [] ++ (attempts .collectAll d').1 :=
    ⟨d, by rw [h.ahead, hc, List.nil_append], h.closing, rfl⟩
  induction n with
  | zero =>
    intro c d h hn _ _
    exact hnone c d h (Cursor.ahead_eq_nil_of_remaining (by omega))
  | succ n ih =>
    intro c d h hn hkinds hfaults
    rw [attemptsUpTo] at hfaults ⊢
    by_cases hend : c.atEnd = true
    · rw [if_pos hend]
      refine hnone c d h ?_
      rcases hc : c.ahead with _ | ⟨t, ts⟩
      · rfl
      · have hkind : t.kind = .eof := by simpa [Cursor.atEnd, Cursor.peek, hc] using hend
        exact absurd hkind (hkinds t (by simp [hc]))
    rw [if_neg hend] at hfaults ⊢
    have hpeek : c.peek.kind ≠ .eof := by simpa [Cursor.atEnd] using hend
    rcases hdef : definition c with ⟨a, c₁⟩ | ⟨fault, c₁⟩
    · obtain ⟨d₁, hd, h₁⟩ := definition_continued he h hdef
      obtain ⟨inner, hreads⟩ := (tries_definition hpeek hdef).reads
      have hlt := hreads.remaining_lt (List.cons_ne_nil _ _)
      rw [hdef] at hfaults
      obtain ⟨d', hahead, hclosing, heq⟩ := ih c₁ d₁ h₁ (by omega)
        (fun t ht => SplitsTo.kind_ne hreads.ahead hkinds t (List.mem_append_right _ ht)) hfaults
      -- the attempts on the right side have a bound of their own, which is lowered too
      have hd₁ : d₁.remaining < d.remaining := by
        rw [h.remaining, h₁.remaining]
        omega
      have hsame : d.peek = c.peek :=
        h.peek_eq fun hnil => hpeek (Cursor.peek_kind_of_ahead_nil hnil)
      have hdend : d.atEnd = c.atEnd := by rw [Cursor.atEnd, Cursor.atEnd, hsame]
      obtain ⟨m, hm⟩ := Nat.exists_eq_add_of_lt hd₁
      have hbound : attemptsUpTo .collectAll (d₁.remaining + m) d₁ = attempts .collectAll d₁ :=
        attemptsUpTo_eq_of_le _ _ d₁ (Nat.le_add_right _ _) le_rfl
      refine ⟨d', hahead, hclosing, ?_⟩
      rw [attempts, hm, attemptsUpTo, hdend, if_neg hend, hd]
      simp only [hbound, heq, hsame, List.cons_append]
    · rw [hdef] at hfaults
      cases hfaults

end Attempts

end RakeLang
