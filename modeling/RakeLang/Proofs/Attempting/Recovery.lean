import RakeLang.Proofs.Attempting.Definition
import RakeLang.Proofs.Placing.Lexeme
import RakeLang.Proofs.Placing.SourceFile

/-!
# No definition is lost behind a fault

Where a definition is refused, reading goes on at the next place where one can begin.  A definition
that is read meets no such place before its end, and one that is refused meets none before its
fault, but for one of the words `stack` and `single` at the end of a type.  So every word that opens
a definition is tried.

## Main definitions

* `RakeLang.Token.Begins` — a token that a definition has to begin with.
* `RakeLang.Token.definitionStarts` — all of them among some tokens.
* `RakeLang.Cursor.Skips`, `RakeLang.Cursor.Tries` — a stretch without such tokens, and a stretch
  with none of them behind its first token.
* `RakeLang.Tried` — a row of attempts that tries all of them.

## Main results

* `RakeLang.Token.mem_definitionStarts_iff` — what is listed.
* `RakeLang.tries_definition`, `RakeLang.tries_recover` — what an attempt and the recovery behind it
  take.
* `RakeLang.tried_attemptsUpTo` — the attempts of a whole reading.
* `RakeLang.collectAll_recovers` — no definition of a source is lost.
-/

set_option relaxedAutoImplicit false
set_option autoImplicit false

namespace RakeLang

open Spelling Token

/-! ## Tokens that begin a definition -/

namespace Token

/-- A definition has to begin with the token, behind the tokens `before` and in front of the tokens
`after`.  The words `stack` and `single` have the name of a record behind them, and none in front,
where they would end a type. -/
def Begins (before : List Token) (t : Token) (after : List Token) : Prop :=
  t.kind ∈ [.keyword .crunch, .keyword .rake, .keyword .run, .keyword .type]
    ∨ t.kind ∈ [.keyword .stack, .keyword .single] ∧ headKind after = .typeIdent
      ∧ ∀ u ∈ before.getLast?, u.kind ≠ .typeIdent

/-- Does a definition have to begin with a token of the kind, in front of one of the kind `next`,
and behind the name of a record or not? -/
def begins (behindName : Bool) (kind next : Kind) : Bool :=
  match kind with
  | .keyword .stack | .keyword .single => next == .typeIdent && !behindName
  | kind => kind.opensDefinition

/-- The tokens that a definition has to begin with, where `behindName` tells whether the name of a
record stands in front. -/
def definitionStarts (behindName : Bool) : List Token → List Token
  | [] => []
  | t :: ts =>
    if begins behindName t.kind (headKind ts) then t :: definitionStarts (t.kind == .typeIdent) ts
    else definitionStarts (t.kind == .typeIdent) ts

section Starts

variable {t : Token} {ts us : List Token} {b : Bool}

/-- What begins a definition: one of four words, or `stack` or `single` in front of the name of a
record that does not stand behind another one. -/
lemma begins_eq_true_iff {kind next : Kind} :
    begins b kind next = true ↔
      kind ∈ [.keyword .crunch, .keyword .rake, .keyword .run, .keyword .type]
        ∨ kind ∈ [.keyword .stack, .keyword .single] ∧ next = .typeIdent ∧ b = false := by
  rcases kind with _ | _ | _ | _ | _ | word | sign | _
  case keyword => cases word <;> simp [begins, Kind.opensDefinition]
  all_goals simp [begins, Kind.opensDefinition]

/-- What is listed are the tokens that a definition has to begin with.

**Proof sketch.** Induction on the tokens.  That the token before is the name of a record is carried
along. -/
theorem mem_definitionStarts_iff :
    t ∈ definitionStarts b ts ↔ ∃ before after, ts = before ++ t :: after
      ∧ begins ((before.getLast?.map fun u => u.kind == .typeIdent).getD b) t.kind
        (headKind after) = true := by
  induction ts generalizing b with
  | nil => simp [definitionStarts]
  | cons u us ih =>
    -- what stands before `t` is not empty any more, so that its last token decides
    have hmore : t ∈ definitionStarts (u.kind == .typeIdent) us ↔
        ∃ before after, u :: us = (u :: before) ++ t :: after
          ∧ begins (((u :: before).getLast?.map fun u => u.kind == .typeIdent).getD b) t.kind
            (headKind after) = true := by
      rw [ih]
      refine exists_congr fun before => exists_congr fun after => ?_
      rcases before with _ | ⟨v, before⟩
      · simp
      · rw [List.getLast?_cons_cons, List.getLast?_eq_some_getLast (List.cons_ne_nil v before)]
        simp
    constructor
    · intro ht
      rw [definitionStarts] at ht
      have hor : (u = t ∧ begins b u.kind (headKind us) = true)
          ∨ t ∈ definitionStarts (u.kind == .typeIdent) us := by
        split at ht
        · rcases List.mem_cons.1 ht with rfl | ht
          · exact .inl ⟨rfl, ‹_›⟩
          · exact .inr ht
        · exact .inr ht
      rcases hor with ⟨rfl, hu⟩ | ht
      · exact ⟨[], us, rfl, hu⟩
      · obtain ⟨before, after, hsplit, hbegins⟩ := hmore.1 ht
        exact ⟨_, after, hsplit, hbegins⟩
    · rintro ⟨_ | ⟨v, before⟩, after, hsplit, hbegins⟩
      · obtain ⟨rfl, rfl⟩ := List.cons.inj hsplit
        have hbegins : begins b u.kind (headKind us) = true := hbegins
        rw [definitionStarts, if_pos hbegins]
        exact List.mem_cons_self
      · obtain ⟨rfl, -⟩ := List.cons.inj hsplit
        have ht := hmore.2 ⟨before, after, hsplit, hbegins⟩
        rw [definitionStarts]
        split
        · exact List.mem_cons_of_mem _ ht
        · exact ht

/-- A token that a definition has to begin with is listed. -/
lemma Begins.mem {before after : List Token} (h : Begins before t after) :
    t ∈ definitionStarts false (before ++ t :: after) := by
  refine mem_definitionStarts_iff.2 ⟨before, after, rfl, begins_eq_true_iff.2 ?_⟩
  rcases h with h | ⟨hkind, hnext, hlast⟩
  · exact .inl h
  · refine .inr ⟨hkind, hnext, ?_⟩
    rcases hbefore : before.getLast? with _ | u
    · rfl
    · simpa using hlast u hbefore

/-- A plain token is not listed. -/
lemma definitionStarts_cons_of_isPlain (h : t.kind.isPlain = true) :
    definitionStarts b (t :: ts) = definitionStarts false ts := by
  have hname : (t.kind == Kind.typeIdent) = false := by
    rcases hk : t.kind with _ | _ | _ | _ | _ | word | sign | _ <;> simp [hk, Kind.isPlain] at h ⊢
  have hbegins : begins b t.kind (headKind ts) = false := by
    rcases hk : t.kind with _ | _ | _ | _ | _ | word | sign | _
    case keyword =>
      rw [hk] at h
      cases word <;> first | rfl | cases h
    all_goals rfl
  rw [definitionStarts, hbegins, hname, if_neg (by simp)]

/-- A plain token is no name of a record. -/
lemma headKind_ne_typeIdent_of_isPlain (h : t.kind.isPlain = true) :
    headKind (t :: ts) ≠ .typeIdent := by
  intro hname
  rw [headKind_cons] at hname
  rw [hname] at h
  cases h

/-- What is listed in front of others depends on them only as far as they begin with the name of a
type.

**Proof sketch.** By induction on what stands in front.  Whether a token begins a definition depends
on its own kind and on whether the next token is the name of a type; the next token is a common one,
or the first of what stands behind, on which the two rows agree by `hhead`. -/
lemma definitionStarts_append (before : List Token)
    (hhead : headKind us = .typeIdent ↔ headKind ts = .typeIdent)
    (hstarts : ∀ b, definitionStarts b us = definitionStarts b ts) :
    ∀ b, definitionStarts b (before ++ us) = definitionStarts b (before ++ ts) := by
  induction before with
  | nil => exact hstarts
  | cons t before ih =>
    intro b
    have hnext : headKind (before ++ us) = .typeIdent ↔ headKind (before ++ ts) = .typeIdent := by
      rcases before with _ | ⟨u, before⟩
      · exact hhead
      · rfl
    have hbegins : begins b t.kind (headKind (before ++ us))
        = begins b t.kind (headKind (before ++ ts)) := by
      rw [Bool.eq_iff_iff, begins_eq_true_iff, begins_eq_true_iff, hnext]
    rw [List.cons_append, List.cons_append, definitionStarts, definitionStarts, hbegins, ih]

/-- A split changes nothing about the tokens that a definition has to begin with.

**Proof sketch.** What a split makes is plain, and so is what it splits; plain tokens begin no
definition and are no name of a record. -/
lemma definitionStarts_splitStep (h : SplitStep ts us) :
    ∀ b, definitionStarts b us = definitionStarts b ts := by
  have hless : ∀ span, (lessAt span).kind.isPlain = true := fun _ => rfl
  have hminus : ∀ span, (minusAt span).kind.isPlain = true := fun _ => rfl
  cases h with
  | @sign t minus number before after h =>
    obtain ⟨hsigned, rfl, rfl⟩ := eq_of_splitSign? h
    simp only [isSignedNumber, Bool.and_eq_true] at hsigned
    have ht := Seam.isPlain_of_isNumber hsigned.1
    have hnumber : t.withoutSign.kind.isPlain = true := ht
    refine definitionStarts_append before ?_ fun b => ?_
    · simp only [headKind_ne_typeIdent_of_isPlain (hminus _), headKind_ne_typeIdent_of_isPlain ht]
    · rw [definitionStarts_cons_of_isPlain (hminus _), definitionStarts_cons_of_isPlain hnumber,
        definitionStarts_cons_of_isPlain ht]
  | arrow before h =>
    obtain ⟨arrow, rest, rfl, harrow, hcases⟩ := cases_of_splitArrow? h
    have ha : arrow.kind.isPlain = true := by rw [harrow]; rfl
    obtain ⟨next, more, rfl, hjoins, rfl⟩ | rfl := hcases
    · simp only [joinsArrow, Bool.and_eq_true] at hjoins
      have hnext := Seam.isPlain_of_isNumber hjoins.1.1
      have hjoined : (joined arrow next).kind.isPlain = true := hnext
      refine definitionStarts_append before ?_ fun b => ?_
      · simp only [headKind_ne_typeIdent_of_isPlain (hless _), headKind_ne_typeIdent_of_isPlain ha]
      · rw [definitionStarts_cons_of_isPlain (hless _), definitionStarts_cons_of_isPlain hjoined,
          definitionStarts_cons_of_isPlain ha, definitionStarts_cons_of_isPlain hnext]
    · refine definitionStarts_append before ?_ fun b => ?_
      · simp only [headKind_ne_typeIdent_of_isPlain (hless _), headKind_ne_typeIdent_of_isPlain ha]
      · rw [definitionStarts_cons_of_isPlain (hless _), definitionStarts_cons_of_isPlain (hminus _),
          definitionStarts_cons_of_isPlain ha]

/-- Splits change nothing about the tokens that a definition has to begin with. -/
lemma definitionStarts_splitsTo (h : SplitsTo ts us) (b : Bool) :
    definitionStarts b us = definitionStarts b ts := by
  induction h with
  | refl => rfl
  | tail _ hstep ih => rw [definitionStarts_splitStep hstep, ih]

/-- No token that can stand within a definition has to begin another one.

**Proof sketch.** By induction on the tokens, along the run of the seam.  A step of the seam is
defined exactly where the token does not begin a definition, and it remembers whether the token was
the name of a type, which is all that `definitionStarts` remembers. -/
lemma definitionStarts_of_run {s s' : Seam} (h : s.run ts = some s') :
    definitionStarts (s == .typeName) (ts ++ us) = definitionStarts (s' == .typeName) us := by
  induction ts generalizing s with
  | nil =>
    obtain rfl := Option.some.inj h
    rfl
  | cons t ts ih =>
    obtain ⟨s₁, hstep, hrun⟩ := Option.bind_eq_some_iff.1 h
    have hname : (t.kind == Kind.typeIdent) = (s₁ == Seam.typeName) := by
      unfold Seam.step at hstep
      split at hstep <;> split_ifs at hstep <;> cases hstep <;> simp_all
    have hbegins : begins (s == .typeName) t.kind (headKind (ts ++ us)) = false := by
      unfold Seam.step at hstep
      unfold begins
      split at hstep <;> split_ifs at hstep <;> simp_all [Kind.opensDefinition]
    rw [List.cons_append, definitionStarts, hbegins, hname, if_neg (by simp)]
    exact ih hrun

/-- The end of the input is not listed. -/
lemma definitionStarts_concat_eof {eof : Token} (h : eof.kind = .eof) :
    definitionStarts b (ts ++ [eof]) = definitionStarts b ts := by
  induction ts generalizing b with
  | nil => simp [definitionStarts, begins, h, Kind.opensDefinition]
  | cons t ts ih =>
    have hbegins : begins b t.kind (headKind (ts ++ [eof])) = begins b t.kind (headKind ts) := by
      rcases ts with _ | ⟨u, us⟩
      · rw [Bool.eq_iff_iff, begins_eq_true_iff, begins_eq_true_iff]
        simp [h]
      · rfl
    rw [List.cons_append, definitionStarts, definitionStarts, hbegins, ih]

end Starts

end Token

/-! ## Going on behind a fault -/

namespace Cursor

/-- From `c` to `c'` there is no token that a definition has to begin with. -/
structure Skips (c c' : Cursor) : Prop where
  reads : ∃ skipped, c.Reads Eq skipped c'
  starts : ∀ b, ∃ b', definitionStarts b c.ahead = definitionStarts b' c'.ahead

/-- From `c` to `c'` there is no token that a definition has to begin with, but for the one at `c`,
which is read. -/
structure Tries (c c' : Cursor) : Prop where
  reads : ∃ inner, c.Reads SplitsTo (c.peek :: inner) c'
  starts : ∀ b, ∃ b', (definitionStarts b c.ahead).Sublist
    (c.peek :: definitionStarts b' c'.ahead)

section Skips

variable {c c₁ c₂ : Cursor}

/-- To stay skips nothing. -/
lemma Skips.refl (c : Cursor) : c.Skips c := ⟨⟨[], .refl c⟩, fun b => ⟨b, rfl⟩⟩

/-- One stretch that skips nothing behind another. -/
lemma Skips.trans (h : c.Skips c₁) (h' : c₁.Skips c₂) : c.Skips c₂ := by
  obtain ⟨ts, hts⟩ := h.reads
  obtain ⟨us, hus⟩ := h'.reads
  refine ⟨⟨ts ++ us, hts.trans hus⟩, fun b => ?_⟩
  obtain ⟨b₁, h₁⟩ := h.starts b
  obtain ⟨b₂, h₂⟩ := h'.starts b₁
  exact ⟨b₂, h₁.trans h₂⟩

/-- A stretch that skips nothing behind an attempt. -/
lemma Tries.skips (h : c.Tries c₁) (h' : c₁.Skips c₂) : c.Tries c₂ := by
  obtain ⟨inner, hinner⟩ := h.reads
  obtain ⟨skipped, hskipped⟩ := h'.reads
  refine ⟨⟨inner ++ skipped, hinner.trans hskipped.of_eq⟩, fun b => ?_⟩
  obtain ⟨b₁, h₁⟩ := h.starts b
  obtain ⟨b₂, h₂⟩ := h'.starts b₁
  exact ⟨b₂, h₂ ▸ h₁⟩

/-- Where no definition can begin, none has to. -/
lemma begins_of_atDefinitionStart {t : Token} {ts : List Token} (hahead : c.ahead = t :: ts)
    (h : c.atDefinitionStart = false) (b : Bool) : begins b t.kind (headKind ts) = false := by
  have hpeek : c.peek.kind = t.kind := by simp [peek, hahead]
  have hnext : headKind ts = .typeIdent → (c.lookahead 1).kind = .typeIdent := by
    rcases ts with _ | ⟨u, us⟩ <;> simp [lookahead, hahead]
  rw [atDefinitionStart, hpeek] at h
  unfold begins
  split at h <;> simp_all

/-- A token where no definition can begin is skipped. -/
lemma skips_advance (h : c.atDefinitionStart = false) : c.Skips c.advance := by
  rcases hahead : c.ahead with _ | ⟨t, ts⟩
  · rw [show c.advance = c by simp [advance, hahead]]
    exact .refl c
  · refine ⟨⟨[t], ?_, ?_, ?_⟩, fun b => ⟨t.kind == .typeIdent, ?_⟩⟩
    · simp [advance, hahead]
    · simp [advance, hahead]
    · simp [advance, hahead]
    · rw [hahead, definitionStarts, begins_of_atDefinitionStart hahead h, if_neg (by simp)]
      simp [advance, hahead]

/-- Where the next definition can begin is looked for without skipping one. -/
lemma skips_skipToDefinition (c : Cursor) : c.Skips c.skipToDefinition := by
  refine skipToDefinition_induction (P := Skips) (fun c _ => .refl c) (fun c c' hboundary h => ?_) c
  rw [atDefinitionBoundary, Bool.or_eq_false_iff] at hboundary
  exact (skips_advance hboundary.2).trans h

/-- Behind a fault that was met further on, nothing is lost by going on. -/
lemma skips_recover {started : Nat} (h : c.position ≠ started) :
    c.Skips (c.recover started) := by
  unfold recover
  split
  · rename_i hor
    exact (skips_advance (hor.resolve_left h)).trans (skips_skipToDefinition _)
  · exact skips_skipToDefinition c

end Skips

end Cursor

/-! ## An attempt -/

section Attempt

variable {c c' : Cursor}

/-- The tokens between the word that opens a definition and the place where reading it ends have to
begin no definition.

**Proof sketch.** The word that opens the definition is the only one in the stretch that begins one:
by `definitionStarts_of_run` the tokens that were passed begin none, and splitting tokens changes no
start.  Hence the starts before the attempt are those behind it, with its own in front. -/
lemma tries_of_passes {read left rest : List Token} {s' : Seam} (hc : c.peek.kind ≠ .eof)
    (hopens : c.peek.kind.opensDefinition = true) (h : c.advance.Passes .plain read left rest c')
    (hrun : Seam.plain.run read = some s') : c.Tries c' := by
  obtain ⟨ts, hts⟩ := Cursor.exists_ahead_of_peek hc
  have hadvance : c.advance.ahead = ts := by simp [Cursor.advance, hts]
  refine ⟨⟨read, (Cursor.reads_advance hc).trans h.reads⟩, fun b => ⟨s' == .typeName, ?_⟩⟩
  have hname : (c.peek.kind == Kind.typeIdent) = (Seam.plain == Seam.typeName) := by
    have hne : c.peek.kind ≠ .typeIdent := fun hname => by
      simp [hname, Kind.opensDefinition] at hopens
    simpa using hne
  have hstarts : definitionStarts (Seam.plain == Seam.typeName) ts
      = definitionStarts (s' == .typeName) c'.ahead := by
    have hsplits := h.reads.ahead
    rw [hadvance] at hsplits
    rw [← definitionStarts_splitsTo hsplits, definitionStarts_of_run hrun]
  rw [hts, definitionStarts, hname, hstarts]
  split
  · exact List.Sublist.refl _
  · exact List.sublist_cons_self _ _

/-- A definition that is read takes no token but its first one that another definition has to begin
with. -/
theorem tries_definition {d : Definition} (hc : c.peek.kind ≠ .eof)
    (h : Parser.definition c = .ok d c') : c.Tries c' := by
  rcases hopens : c.peek.kind.opensDefinition with _ | _
  · obtain ⟨fault, hrefused, -⟩ := Parser.definition_refused hopens
    rw [hrefused] at h
    cases h
  · obtain ⟨q, hq, hwithin⟩ := Parser.definition_opens hopens
    obtain ⟨read, left, rest, s', hpasses, hrun, -⟩ := hwithin.ok d c' (hq ▸ h)
    exact tries_of_passes hc hopens hpasses hrun

/-- Behind a definition that is refused reading goes on so that no token but the first one is lost
that a definition has to begin with.

**Proof sketch.** If no definition opens at the token, it is refused there, and the token is passed.
Otherwise nothing that was met behind it opens a definition, unless it is the last token that was
met; there reading goes on, at that token or behind it. -/
theorem tries_recover {fault : Fault} (hc : c.peek.kind ≠ .eof)
    (h : Parser.definition c = .error fault c') : c.Tries (c'.recover c.position) := by
  obtain ⟨ts, hts⟩ := Cursor.exists_ahead_of_peek hc
  rcases hopens : c.peek.kind.opensDefinition with _ | _
  · obtain ⟨fault', hrefused, -⟩ := Parser.definition_refused hopens
    obtain ⟨-, rfl⟩ : fault' = fault ∧ c = c' := by simpa [hrefused] using h
    have hstart : c.atDefinitionStart = false := by
      unfold Cursor.atDefinitionStart
      split
      · simp [*, Kind.opensDefinition] at hopens
      · simp [*, Kind.opensDefinition] at hopens
      · exact hopens
    have hrecover : c.recover c.position = c.advance.skipToDefinition := by simp [Cursor.recover]
    rw [hrecover]
    refine Cursor.Tries.skips ⟨⟨[], Cursor.reads_advance hc⟩, fun b => ?_⟩
      c.advance.skips_skipToDefinition
    obtain ⟨b', hb'⟩ := (Cursor.skips_advance hstart).starts b
    exact ⟨b', hb' ▸ List.sublist_cons_self _ _⟩
  · obtain ⟨q, hq, hwithin⟩ := Parser.definition_opens hopens
    obtain ⟨read, left, rest, hpasses, -⟩ := hwithin.error fault c' (hq ▸ h)
    obtain ⟨s', hrun, -⟩ := Seam.exists_run hpasses.within
    refine (tries_of_passes hc hopens hpasses hrun).skips (Cursor.skips_recover ?_)
    have hpast := hpasses.reads.past
    simp [Cursor.position, hpast, Cursor.advance, hts]
    omega

end Attempt

/-! ## Rows of attempts -/

/-- The attempts from `c` on read the tokens `read`, to the end of the input.  They begin at some of
these, at all of those that a definition has to begin with, and each definition spells what is read
of it at its place. -/
structure Tried (c : Cursor) (tried : List Attempt) (read : List Token) (c' : Cursor) : Prop where
  reads : c.Reads SplitsTo read c'
  ended : c'.ahead = []
  starts : (tried.map Attempt.start).Sublist read
  placed : ∀ a ∈ tried, ∀ d, a.definition? = some d →
    ∃ before us after, read = before ++ (a.start :: us) ++ after ∧ a.start :: us ∈ d.placed
  complete : ∀ b, (definitionStarts b c.ahead).Sublist (tried.map Attempt.start)

section Tried

variable {c c₁ c' : Cursor} {tried : List Attempt} {read inner : List Token} {a : Attempt}

/-- An attempt in front of a row.

**Proof sketch.** The first attempt begins at the token at the cursor and tries what it meets;
the others follow it. -/
lemma Tried.cons (h : Tried c₁ tried read c') (hstart : a.start = c.peek)
    (hreads : c.Reads SplitsTo (c.peek :: inner) c₁) (htries : c.Tries c₁)
    (hplaced : ∀ d, a.definition? = some d → c.peek :: inner ∈ d.placed) :
    Tried c (a :: tried) (c.peek :: inner ++ read) c' where
  reads := hreads.trans h.reads
  ended := h.ended
  starts := by
    rw [List.map_cons, hstart]
    exact (h.starts.trans (List.sublist_append_right inner read)).cons_cons _
  placed a' ha' d hd := by
    rcases List.mem_cons.1 ha' with rfl | ha'
    · refine ⟨[], inner, read, by rw [hstart]; rfl, ?_⟩
      rw [hstart]
      exact hplaced d hd
    · obtain ⟨before, us, after, hread, hus⟩ := h.placed a' ha' d hd
      refine ⟨c.peek :: inner ++ before, us, after, ?_, hus⟩
      rw [hread]
      simp
  complete b := by
    obtain ⟨b', hb'⟩ := htries.starts b
    rw [List.map_cons, hstart]
    exact hb'.trans ((h.complete b').cons_cons _)

/-- The attempts of a reading that goes on behind each fault try all tokens that a definition has to
begin with.

**Proof sketch.** Induction on the bound, which stays at least what remains ahead.  An attempt reads
its first token, whether it gives a definition or a fault, so that less remains behind it. -/
theorem tried_attemptsUpTo (n : Nat) :
    ∀ c : Cursor, c.remaining ≤ n → (∀ t ∈ c.ahead, t.kind ≠ .eof) →
      ∃ read, Tried c (attemptsUpTo .collectAll n c).1 read (attemptsUpTo .collectAll n c).2 := by
  have hnone : ∀ c : Cursor, c.ahead = [] → ∃ read, Tried c [] read c := fun c hc =>
    ⟨[], .refl c, hc, .slnil, by simp, fun b => by simp [hc, definitionStarts]⟩
  induction n with
  | zero =>
    intro c hc _
    exact hnone c (Cursor.ahead_eq_nil_of_remaining (Nat.le_zero.1 hc))
  | succ n ih =>
    intro c hc hahead
    rw [attemptsUpTo]
    by_cases hend : c.atEnd = true
    · rw [if_pos hend]
      refine hnone c ?_
      by_contra hne
      obtain ⟨t, ts, hts⟩ := List.exists_cons_of_ne_nil hne
      have hkind : t.kind = .eof := by simpa [Cursor.atEnd, Cursor.peek, hts] using hend
      exact hahead t (by simp [hts]) hkind
    rw [if_neg hend]
    have hpeek : c.peek.kind ≠ .eof := by simpa [Cursor.atEnd] using hend
    -- behind an attempt less remains, and the row goes on
    have hmore : ∀ (a : Attempt) {c₁ : Cursor}, a.start = c.peek → c.Tries c₁ →
        (∀ d inner, a.definition? = some d → c.Reads SplitsTo (c.peek :: inner) c₁ →
          c.peek :: inner ∈ d.placed) →
        ∃ read, Tried c (a :: (attemptsUpTo .collectAll n c₁).1) read
          (attemptsUpTo .collectAll n c₁).2 := by
      intro a c₁ hstart htries hplaced
      obtain ⟨inner, hreads⟩ := htries.reads
      have hlt := hreads.remaining_lt (List.cons_ne_nil _ _)
      have hahead₁ : ∀ t ∈ c₁.ahead, t.kind ≠ .eof := fun t ht =>
        SplitsTo.kind_ne hreads.ahead hahead t (List.mem_append_right _ ht)
      obtain ⟨read, hread⟩ := ih c₁ (by omega) hahead₁
      exact ⟨_, hread.cons hstart hreads htries fun d hd => hplaced d inner hd hreads⟩
    rcases hdef : Parser.definition c with ⟨d, behind⟩ | ⟨fault, behind⟩
    · refine hmore ⟨c.peek, .ok d⟩ rfl (tries_definition hpeek hdef) fun d' inner hd' hreads => ?_
      obtain rfl : d = d' := by simpa [Attempt.definition?, Except.toOption] using hd'
      obtain ⟨ts, hts, hplaced, -⟩ := (Parser.definition_places c).ok d behind hdef
      rwa [← hts.unique hreads]
    · exact hmore ⟨c.peek, .error fault⟩ rfl (tries_recover hpeek hdef) fun d _ hd => by cases hd

end Tried

/-! ## Source files -/

/-- Among attempts at the starts of definitions, there are at least as many faults as starts without
a definition that begins there.

**Proof sketch.** The starts are among those of the attempts, so it is enough to count over all
attempts.  By induction on these: an attempt without a fault is not counted by `hp`, and one with a
fault adds one to the right and at most one to the left. -/
lemma length_filter_starts_le {tried : List Attempt} {starts : List Token} {p : Token → Bool}
    (hstarts : starts.Sublist (tried.map Attempt.start))
    (hp : ∀ a ∈ tried, a.fault? = none → p a.start = false) :
    (starts.filter p).length ≤ (tried.filterMap Attempt.fault?).length := by
  refine ((hstarts.filter p).length_le).trans ?_
  clear hstarts
  induction tried with
  | nil => simp
  | cons a tried ih =>
    have ih := ih fun a' ha' => hp a' (List.mem_cons_of_mem _ ha')
    rcases hfault : a.fault? with _ | fault
    · rw [List.map_cons, List.filter_cons_of_neg (by simp [hp a List.mem_cons_self hfault]),
        List.filterMap_cons_none hfault]
      exact ih
    · rw [List.filterMap_cons_some hfault, List.map_cons, List.filter_cons]
      split
      · simpa using ih
      · exact ih.trans (Nat.le_succ _)

/-- No definition is lost behind a fault.  Where a source is read with all faults collected, its
tokens are tried one attempt after the other, up to the end of the input, and

* the definitions of the file, and the faults behind the unrecognised characters, are those that the
  attempts gave;
* the attempts begin further and further on;
* each attempt gives a definition, which begins at the first token of the attempt, or a fault, and
  not both;
* every token that a definition has to begin with is the first one of an attempt;
* there are at least as many faults as such tokens where no definition of the file begins.

**Proof sketch.** The attempts from the first token on try every token that begins a definition
(`tried_attemptsUpTo`), and each of them begins further on.  The definitions and the faults of the
file are theirs.  An attempt that gives a definition begins at its first token, so that the tokens
where no definition begins are first tokens of refused attempts; these are as many as the faults. -/
theorem collectAll_recovers (sourceId source : String) :
    let tokens := (lex source).filterMap LexItem.token?
    let parsed := parseSource sourceId source .collectAll
    let tried := (attempts .collectAll (.ofTokens tokens)).1
    (attempts .collectAll (.ofTokens tokens)).2.atEnd = true
      ∧ parsed.file.definitions = tried.filterMap Attempt.definition?
      ∧ parsed.diagnostics.faults
        = (lex source).filterMap LexItem.fault? ++ tried.filterMap Attempt.fault?
      ∧ (tried.Pairwise fun a b => a.start.span.start < b.start.span.start)
      ∧ (∀ a ∈ tried,
          (∃ d, a.definition? = some d ∧ a.fault? = none ∧ d.span.start = a.start.span.start
            ∧ d.span.line = a.start.span.line ∧ d.span.column = a.start.span.column)
          ∨ ∃ fault, a.fault? = some fault ∧ a.definition? = none)
      ∧ (∀ before t after, tokens = before ++ t :: after → Begins before t after →
          ∃ a ∈ tried, a.start = t)
      ∧ ((definitionStarts false tokens).filter fun t =>
          !(parsed.file.definitions.any fun d => d.span.start == t.span.start)).length
        ≤ (tried.filterMap Attempt.fault?).length := by
  intro tokens parsed tried
  obtain ⟨ts, hlex, hfaithful, -⟩ := faithful_of_lex source
  have hlexemes := isLexeme_of_lex hlex
  have htokens : tokens = ts ++ [Token.atEnd source.toList] := hlex
  have hstart : Cursor.ofTokens tokens = Cursor.atStart source ts := by
    rw [htokens, Cursor.ofTokens_append rfl]
    rfl
  have hkinds : ∀ t ∈ ts, t.kind ≠ .eof := by
    intro t ht
    obtain ⟨_, hmatches⟩ := hlexemes t ht
    exact hmatches.ne.2
  obtain ⟨read, hread⟩ := tried_attemptsUpTo _ (Cursor.atStart source ts) le_rfl hkinds
  have htried : tried = (attemptsUpTo .collectAll (Cursor.atStart source ts).remaining
      (Cursor.atStart source ts)).1 := by
    simp only [tried, attempts, hstart]
  rw [← htried] at hread
  have hdefinitions : parsed.file.definitions = tried.filterMap Attempt.definition? := rfl
  -- the tokens that were read are those of the text, with splits
  have hsplits : SplitsTo ts read := by
    have hahead := hread.reads.ahead
    rwa [hread.ended, List.append_nil] at hahead
  have hbuffer := hfaithful.splitsTo hsplits
  have hlexemes' := (hsplits.lexemes_eq hlexemes).1
  have hspans : ∀ a ∈ tried, ∀ d, a.definition? = some d → d.span.start = a.start.span.start
      ∧ d.span.line = a.start.span.line ∧ d.span.column = a.start.span.column := by
    intro a ha d hd
    obtain ⟨before, us, after, rfl, hus⟩ := hread.placed a ha d hd
    have hin : InOrder (a.start :: us) := hbuffer.inOrder.append.1.append.2
    obtain ⟨first, hfirst, last, -, hspan⟩ := (Node.definition d).covers_of_placed hus hin
    obtain rfl : a.start = first := by simpa using hfirst
    have hspan' : d.span = _ := hspan
    rw [hspan']
    exact ⟨rfl, rfl, rfl⟩
  have hstarts : (definitionStarts false tokens).Sublist (tried.map Attempt.start) := by
    rw [htokens, definitionStarts_concat_eof rfl]
    exact hread.complete false
  refine ⟨?_, hdefinitions, rfl, ?_, ?_, ?_, ?_⟩
  · have hend := Cursor.peek_kind_of_ahead_nil hread.ended
    simp only [attempts, hstart, Cursor.atEnd, hend]
    rfl
  · have hordered : read.Pairwise fun t u => t.span.start < u.span.start := by
      refine hbuffer.ordered.imp_of_mem fun {t u} ht _ htu => ?_
      exact ((hbuffer.standsIn t ht).start_lt_stop (hlexemes' t ht)).trans_le htu
    exact (List.pairwise_map (f := Attempt.start)).1 (hordered.sublist hread.starts)
  · rintro ⟨start, fault | d⟩ ha
    · exact .inr ⟨fault, rfl, rfl⟩
    · exact .inl ⟨d, rfl, rfl, hspans _ ha d rfl⟩
  · intro before t after hsplit hbegins
    have ht : t ∈ definitionStarts false tokens := hsplit ▸ hbegins.mem
    obtain ⟨a, ha, hat⟩ := List.mem_map.1 (hstarts.subset ht)
    exact ⟨a, ha, hat⟩
  · refine length_filter_starts_le hstarts fun a ha hfault => ?_
    rcases a with ⟨start, fault | d⟩
    · cases hfault
    · have hd : d ∈ parsed.file.definitions := by
        rw [hdefinitions]
        exact List.mem_filterMap.2 ⟨_, ha, rfl⟩
      simp only [Bool.not_eq_false', List.any_eq_true, beq_iff_eq]
      exact ⟨d, hd, (hspans _ ha d rfl).1⟩

end RakeLang
