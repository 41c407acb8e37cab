import RakeLang.Proofs.Settling.Predicate
import RakeLang.SourceFile.Parse

/-!
# No trial is seen in what is read

The readers of definitions and of whole texts are taken with the reader of predicates as a
parameter.  With the reader that tries comparisons on a copy they succeed on the same texts as
those that try them in place, and read the same.

A predicate in a definition stands in parentheses, and behind the closing one nothing of a refused
trial is left: the tokens that were split early are behind the cursor by then, where they had been
split in any case.

## Main definitions

* `RakeLang.Parser.definitionWith`, `RakeLang.parseTokensWith` — definitions and source files, over
  a reader of predicates.
* `RakeLang.parseAfresh`, `RakeLang.parsePredicateAfresh` — the readers of texts that try
  comparisons on a copy.
* `RakeLang.Parser.Agrees` — parsers that succeed at the same cursors with the same results.

## Main results

* `RakeLang.parse_eq_ok_iff_afresh` — both ways to try comparisons read the same from each text.
-/

set_option relaxedAutoImplicit false
set_option autoImplicit false

namespace RakeLang

namespace Parser

/-! ## Definitions over a reader of predicates -/

section With

variable (predicate : Parser Predicate)

/-- Reads a tine and its guard. -/
def tineDeclWith : Parser TineDecl := do
  let start ← expect (.symbol .pipe)
  let tine ← tineRef
  let _ ← expect (.symbol .define)
  let _ ← expect (.symbol .lParen)
  let guard ← predicate
  let _ ← expect (.symbol .rParen)
  let span ← spanFrom start.span
  return ⟨tine, guard, span⟩

/-- Reads the guard of a through block. -/
def throughGuardWith : Parser ThroughGuard := do
  match ← peekKind with
  | .tineRef =>
    let tine ← tineRef
    return .tine tine
  | .symbol .lParen =>
    let _ ← advance
    let guard ← predicate
    let _ ← expect (.symbol .rParen)
    return .predicate guard
  | _ => unexpected ["tine reference", "`(`"]

/-- Reads a through block. -/
def throughBlockWith : Parser ThroughBlock := do
  let start ← expect (.keyword .through)
  let guard ← throughGuardWith predicate
  let fallback ← fallback?
  let _ ← expect (.symbol .colon)
  let (setup, value) ← throughBody
  let _ ← expect (.symbol .arrow)
  let binding ← expect .ident
  let span ← spanFrom start.span
  return ⟨guard, fallback, setup, value, binding.lexeme, span⟩

/-- Reads the tines of the rake of the given name. -/
def tinesWith (rake : String) : Parser (List TineDecl) := do
  let tines ← many (whenAt (.symbol .pipe) (tineDeclWith predicate))
  if tines.isEmpty then misplaced (.noTine rake)
  else if ← check (.keyword .letKw) then misplaced (.setupBehindTine rake)
  else return tines

/-- Reads the through blocks of the rake of the given name. -/
def throughsWith (rake : String) : Parser (List ThroughBlock) := do
  let throughs ← many (whenAt (.keyword .through) (throughBlockWith predicate))
  if throughs.isEmpty then misplaced (.noThrough rake) else return throughs

/-- Reads a rake. -/
def rakeDefWith : Parser RakeDef := do
  let start ← advance
  let name ← expect .ident
  let (params, result) ← signature
  let setup ← many (whenAt (.keyword .letKw) letBinding)
  let tines ← tinesWith predicate name.lexeme
  let throughs ← throughsWith predicate name.lexeme
  let sweep ← sweep name.lexeme
  let span ← spanFrom start.span
  return ⟨name.lexeme, params, result, setup, tines, throughs, sweep, span⟩

/-- Reads a definition. -/
def definitionWith : Parser Definition := do
  match ← peekKind with
  | .keyword .stack =>
    let record ← recordDef
    return .stack record
  | .keyword .single =>
    let record ← recordDef
    return .single record
  | .keyword .type =>
    let body ← typeAlias
    return .type body
  | .keyword .crunch =>
    let routine ← routine
    return .crunch routine
  | .keyword .rake =>
    let rake ← rakeDefWith predicate
    return .rake rake
  | .keyword .run =>
    let routine ← routine
    return .run routine
  | _ => unexpected ["`stack`", "`single`", "`type`", "`crunch`", "`rake`", "`run`"]

end With

/-- With the reader of predicates itself, these are the readers of definitions. -/
lemma definitionWith_predicate : definitionWith predicate = definition := rfl

end Parser

/-! ## Source files over a reader of predicates -/

/-- At most `n` attempts from a cursor on, up to the first fault, and the cursor behind. -/
def attemptsUpToWith (predicate : Parser Predicate) : Nat → Cursor → List Attempt × Cursor
  | 0, c => ([], c)
  | n + 1, c =>
    if c.atEnd then ([], c)
    else
      match Parser.definitionWith predicate c with
      | .ok definition behind =>
        let (more, last) := attemptsUpToWith predicate n behind
        (⟨c.peek, .ok definition⟩ :: more, last)
      | .error fault behind => ([⟨c.peek, .error fault⟩], behind)

/-- Reads a source file from its tokens, up to the first fault. -/
def parseTokensWith (predicate : Parser Predicate) (tokens : List Token) :
    Except Fault SourceFile :=
  let c := Cursor.ofTokens tokens
  let (attempts, behind) := attemptsUpToWith predicate c.remaining c
  match attempts.filterMap Attempt.fault? with
  | [] =>
    .ok ⟨attempts.filterMap Attempt.definition?, Span.origin.merge behind.peek.span⟩
  | fault :: _ => .error fault

/-- Reads a source file, up to the first fault, and tries comparisons on a copy. -/
def parseAfresh (source : String) : Except Fault SourceFile :=
  (tokenize source).bind (parseTokensWith Parser.predicateAfresh)

/-- Reads a text as a predicate, and tries comparisons on a copy. -/
def parsePredicateAfresh (source : String) : Except Fault Predicate :=
  parseWith Parser.predicateAfresh source

/-- With the reader of predicates itself, these are the attempts that stop at a fault. -/
lemma attemptsUpToWith_predicate (n : Nat) (c : Cursor) :
    attemptsUpToWith Parser.predicate n c = attemptsUpTo .failFast n c := by
  induction n generalizing c with
  | zero => rfl
  | succ n ih =>
    rw [attemptsUpToWith, attemptsUpTo, Parser.definitionWith_predicate]
    by_cases hend : c.atEnd = true
    · rw [if_pos hend, if_pos hend]
    · rw [if_neg hend, if_neg hend]
      rcases Parser.definition c with ⟨definition, behind⟩ | ⟨fault, behind⟩
      · dsimp only
        rw [ih]
      · rfl

/-- With the reader of predicates itself, this is the reader of source files up to the first
fault. -/
lemma parseTokensWith_predicate : parseTokensWith Parser.predicate = parseTokens := by
  funext tokens
  unfold parseTokensWith
  simp only [attemptsUpToWith_predicate]
  rfl

/-! ## Parsers that agree -/

namespace Parser

variable {α β : Type}

/-- The parsers succeed at the same cursors, with the same values, and stop at the same cursors. -/
def Agrees (p q : Parser α) : Prop := ∀ c a c', p c = .ok a c' ↔ q c = .ok a c'

namespace Agrees

variable {p q : Parser α} {f g : α → Parser β}

/-- A parser agrees with itself. -/
lemma refl (p : Parser α) : Agrees p p := fun _ _ _ => Iff.rfl

/-- Agreement goes both ways. -/
lemma symm (h : Agrees p q) : Agrees q p := fun c a c' => (h c a c').symm

/-- Parsers, one behind the other, agree if both do. -/
lemma bind (h : Agrees p q) (hfg : ∀ a, Agrees (f a) (g a)) :
    Agrees (p >>= f) (q >>= g) := by
  intro c b c₂
  simp only [bind_eq_ok, h c, hfg _ _ b c₂]

/-- The same parser before two that agree. -/
lemma before (p : Parser α) (hfg : ∀ a, Agrees (f a) (g a)) : Agrees (p >>= f) (p >>= g) :=
  (refl p).bind hfg

/-- Two parsers that agree before the same. -/
lemma andThen (h : Agrees p q) (f : α → Parser β) : Agrees (p >>= f) (q >>= f) :=
  h.bind fun a => refl (f a)

/-- Items at a token of a kind agree if the items do. -/
lemma whenAt (h : Agrees p q) (kind : Kind) : Agrees (whenAt kind p) (whenAt kind q) := by
  refine before _ fun stands => ?_
  cases stands
  · exact refl _
  · exact h.andThen _

/-- Bounded repetitions agree if their rounds do. -/
lemma manyUpTo {p q : Parser (Option α)} (h : Agrees p q) (n : Nat) :
    Agrees (manyUpTo p n) (manyUpTo q n) := by
  induction n with
  | zero => exact refl _
  | succ n ih =>
    refine h.bind fun o => ?_
    cases o with
    | none => exact refl _
    | some a => exact ih.andThen _

/-- Repetitions agree if their rounds do. -/
lemma many {p q : Parser (Option α)} (h : Agrees p q) : Agrees (many p) (many q) := by
  refine h.bind fun o => ?_
  cases o with
  | none => exact refl _
  | some a =>
    refine andThen (p := fun c => Parser.manyUpTo p c.remaining c)
      (q := fun c => Parser.manyUpTo q c.remaining c) ?_ _
    exact fun c => h.manyUpTo c.remaining c

end Agrees

/-! ## Predicates at their end -/

section Closing

variable {first : Mode} {start c d : Cursor} {depth : Nat} {β : Type}

/-- Behind the end of every expression, cursors that settle to the same tokens are the same. -/
lemma eq_of_settles_closed (h : Settles first start .closed c d) : c = d := by
  obtain ⟨past, ahead, closing, hclosing⟩ := c
  obtain ⟨past', ahead', closing', hclosing'⟩ := d
  obtain rfl : past = past' := h.past
  obtain rfl : closing = closing' := h.closing
  obtain rfl : ahead = ahead' := by simpa using h.ahead
  rfl

/-- The parenthesis that closes a predicate is at both cursors or at none of them, and behind it
they are the same.

**Proof sketch.** Behind an operand both cursors show the same token, or one of them shows a token
in pieces, which is no parenthesis.  Behind the parenthesis no mode splits, so that cursors which
settle to the same are equal. -/
lemma expect_rParen_of_settles (h : Settles first start (.behind 0) c d) :
    (∀ t c', expect (.symbol .rParen) c = .ok t c' ↔ expect (.symbol .rParen) d = .ok t c') := by
  have hrefused (e : Cursor) (he : e.peek.kind ≠ .symbol .rParen) (t : Token) (e' : Cursor) :
      expect (.symbol .rParen) e ≠ .ok t e' := fun hok => by
    cases (expect_of_ne he).symm.trans hok
  intro t c'
  rcases h.peek_cases with hpeek | ⟨-, hc, hd⟩
  · by_cases hc : c.peek.kind = .symbol .rParen
    · have hadvance := h.advance (by rw [hpeek]) (by simp [hc]) (by rw [hc]; rfl)
      rw [hc] at hadvance
      rw [expect_of_eq hc, expect_of_eq (hpeek ▸ hc), hpeek, eq_of_settles_closed hadvance]
    · exact iff_of_false (hrefused c hc t c') (hrefused d (hpeek ▸ hc) t c')
  · have hne {kind : Kind} (hkind : kind.inSplit = true) : kind ≠ .symbol .rParen := by
      rintro rfl
      cases hkind
    exact iff_of_false (hrefused c (hne hc) t c') (hrefused d (hne hd) t c')

/-- A predicate in parentheses leaves no trace of the trials in it. -/
lemma agrees_inParens (f : Predicate → Token → Parser β) :
    Agrees (predicate >>= fun guard => expect (.symbol .rParen) >>= f guard)
      (predicateAfresh >>= fun guard => expect (.symbol .rParen) >>= f guard) := by
  intro c b c₂
  simp only [bind_eq_ok]
  constructor
  · rintro ⟨guard, c₁, hguard, t, c', hclose, hrest⟩
    obtain ⟨d₁, hd, hsettles⟩ := (predicate_settles c guard).1 c₁ hguard
    exact ⟨guard, d₁, hd, t, c', (expect_rParen_of_settles hsettles t c').1 hclose, hrest⟩
  · rintro ⟨guard, d₁, hguard, t, c', hclose, hrest⟩
    obtain ⟨c₁, hc, hsettles⟩ := (predicate_settles c guard).2 d₁ hguard
    exact ⟨guard, c₁, hc, t, c', (expect_rParen_of_settles hsettles t c').2 hclose, hrest⟩

/-- A text as a whole is read where its end is behind the value.

**Proof sketch.** The check behind the value consumes nothing and succeeds at the end of the
input only. -/
lemma wholeInput_eq_ok_iff {α : Type} {p : Parser α} {c c' : Cursor} {a : α} :
    p.wholeInput c = .ok a c' ↔ p c = .ok a c' ∧ c'.peek.kind = .eof := by
  have hend (a' : α) (e : Cursor) : (check .eof >>= fun atEnd =>
      if atEnd = true then pure a' else unexpected ["end of input"]) e = .ok a c'
      ↔ a' = a ∧ e = c' ∧ e.peek.kind = .eof := by
    rw [bind_of_ok (show check .eof e = .ok (e.peek.kind == .eof) e from rfl)]
    by_cases he : e.peek.kind = .eof
    · rw [beq_iff_eq.2 he, if_pos rfl]
      exact ⟨fun h => by obtain ⟨rfl, rfl⟩ := EStateM.Result.ok.inj h; exact ⟨rfl, rfl, he⟩,
        fun ⟨ha, hc, _⟩ => ha ▸ hc ▸ rfl⟩
    · rw [beq_eq_false_iff_ne.2 he, if_neg (by simp)]
      exact iff_of_false (fun h => nomatch h) fun h => he h.2.2
  unfold wholeInput
  simp only [bind_eq_ok (p := p), hend]
  constructor
  · rintro ⟨a', e, hp, rfl, rfl, he⟩
    exact ⟨hp, he⟩
  · rintro ⟨hp, he⟩
    exact ⟨a, c', hp, rfl, rfl, he⟩

/-- A predicate up to the end of the input leaves no trace of the trials in it.

**Proof sketch.** By `predicate_settles` the two readers succeed together, and what they leave
settles to the same.  So one of them stands at the end of the input just if the other does. -/
lemma wholeInput_predicate_iff (c : Cursor) (p : Predicate) :
    (∃ c', predicate.wholeInput c = .ok p c') ↔ ∃ c', predicateAfresh.wholeInput c = .ok p c' := by
  have hend {e e' : Cursor} (h : Settles (.operand 0) c (.behind 0) e e') :
      e.peek.kind = .eof ↔ e'.peek.kind = .eof := by
    rcases h.peek_cases with hpeek | ⟨-, he, he'⟩
    · rw [hpeek]
    · refine iff_of_false (fun h => ?_) fun h => ?_
      · cases h ▸ he
      · cases h ▸ he'
  simp only [wholeInput_eq_ok_iff]
  constructor
  · rintro ⟨c', hp, hc⟩
    obtain ⟨d', hd, hsettles⟩ := (predicate_settles c p).1 c' hp
    exact ⟨d', hd, (hend hsettles).1 hc⟩
  · rintro ⟨d', hp, hd⟩
    obtain ⟨c', hc, hsettles⟩ := (predicate_settles c p).2 d' hp
    exact ⟨c', hc, (hend hsettles).2 hd⟩

end Closing

/-! ## Definitions -/

/-- Tines are the same with a copy for trials and without one. -/
lemma tineDecl_agrees : Agrees (tineDeclWith predicate) (tineDeclWith predicateAfresh) :=
  .before _ fun _ => .before _ fun _ => .before _ fun _ => .before _ fun _ => agrees_inParens _

/-- Guards of through blocks are the same with a copy for trials and without one. -/
lemma throughGuard_agrees :
    Agrees (throughGuardWith predicate) (throughGuardWith predicateAfresh) := by
  refine .before _ fun kind => ?_
  split
  · exact .refl _
  · exact .before _ fun _ => agrees_inParens _
  · exact .refl _

/-- Through blocks are the same with a copy for trials and without one. -/
lemma throughBlock_agrees :
    Agrees (throughBlockWith predicate) (throughBlockWith predicateAfresh) :=
  .before _ fun _ => throughGuard_agrees.andThen _

/-- The tines of a rake are the same with a copy for trials and without one. -/
lemma tines_agrees (rake : String) :
    Agrees (tinesWith predicate rake) (tinesWith predicateAfresh rake) :=
  (tineDecl_agrees.whenAt _).many.andThen _

/-- The through blocks of a rake are the same with a copy for trials and without one. -/
lemma throughs_agrees (rake : String) :
    Agrees (throughsWith predicate rake) (throughsWith predicateAfresh rake) :=
  (throughBlock_agrees.whenAt _).many.andThen _

/-- Rakes are the same with a copy for trials and without one. -/
lemma rakeDef_agrees : Agrees (rakeDefWith predicate) (rakeDefWith predicateAfresh) :=
  .before _ fun _ => .before _ fun _ => .before _ fun _ => .before _ fun _ =>
    (tines_agrees _).bind fun _ => (throughs_agrees _).andThen _

/-- Definitions leave no trace of the trials in them. -/
lemma definition_agrees :
    Agrees (definitionWith predicate) (definitionWith predicateAfresh) := by
  refine .before _ fun kind => ?_
  split
  case h_5 => exact rakeDef_agrees.andThen _
  all_goals exact .refl _

end Parser

/-! ## Texts -/

section Texts

variable {p q : Parser Predicate}

/-- A row of attempts without a fault is the same over readers that agree on definitions.

**Proof sketch.** By induction on the bound.  No attempt has a fault, so each one reads a
definition, and the two readers agree on that one and on the cursor behind it. -/
lemma attemptsUpToWith_eq (h : Parser.Agrees (Parser.definitionWith p) (Parser.definitionWith q))
    {n : Nat} {c : Cursor} (hfaults : (attemptsUpToWith p n c).1.filterMap Attempt.fault? = []) :
    attemptsUpToWith q n c = attemptsUpToWith p n c := by
  induction n generalizing c with
  | zero => rfl
  | succ n ih =>
    rw [attemptsUpToWith] at hfaults ⊢
    rw [attemptsUpToWith]
    by_cases hend : c.atEnd = true
    · simp [hend]
    · rw [if_neg hend] at hfaults
      rw [if_neg hend, if_neg hend]
      rcases hrun : Parser.definitionWith p c with ⟨definition, behind⟩ | ⟨fault, behind⟩
      · rw [(h c definition behind).1 hrun]
        simp only [hrun, List.filterMap_cons] at hfaults ⊢
        rw [ih hfaults]
      · rw [hrun] at hfaults
        cases hfaults

/-- Readers that agree on definitions agree on source files. -/
lemma parseTokensWith_eq_ok
    (h : Parser.Agrees (Parser.definitionWith p) (Parser.definitionWith q)) {tokens : List Token}
    {file : SourceFile} (hp : parseTokensWith p tokens = .ok file) :
    parseTokensWith q tokens = .ok file := by
  unfold parseTokensWith at hp ⊢
  rcases hfaults : (attemptsUpToWith p (Cursor.ofTokens tokens).remaining
      (Cursor.ofTokens tokens)).1.filterMap Attempt.fault? with _ | ⟨fault, faults⟩
  · dsimp only at hp ⊢
    rw [attemptsUpToWith_eq h hfaults]
    exact hp
  · dsimp only at hp
    rw [hfaults] at hp
    cases hp

/-- A text is read as a whole if its tokens are. -/
lemma parseWith_eq_ok_iff {α : Type} {p : Parser α} {source : String} {a : α} :
    parseWith p source = .ok a ↔
      ∃ tokens, tokenize source = .ok tokens
        ∧ ∃ c', p.wholeInput (.ofTokens tokens) = .ok a c' := by
  unfold parseWith
  rcases tokenize source with fault | tokens
  · simp [Except.bind]
  · rcases hrun : p.wholeInput (.ofTokens tokens) with ⟨a', c'⟩ | ⟨fault, c'⟩
    · simp [Except.bind, hrun]
    · simp [Except.bind, hrun]

/-- **No trial is seen.**  Source files and predicates are read from the same texts, and read the
same, whether a comparison is tried in place or on a copy of what is ahead.

**Proof sketch.**  `Parser.predicate_settles`: what either reader of predicates leaves ahead
settles to the same tokens.  A predicate in a definition has a closing parenthesis behind it, and
behind that nothing is split, so that the tokens ahead are the same (`Parser.agrees_inParens`). -/
theorem parse_eq_ok_iff_afresh (source : String) :
    (∀ file, parse source = .ok file ↔ parseAfresh source = .ok file)
      ∧ ∀ p, parsePredicate source = .ok p ↔ parsePredicateAfresh source = .ok p := by
  refine ⟨fun file => ?_, fun p => ?_⟩
  · rcases htokens : tokenize source with fault | tokens
    · simp [parse, parseAfresh, htokens, Except.bind]
    · simp only [parse, parseAfresh, htokens, Except.bind, ← parseTokensWith_predicate]
      exact ⟨parseTokensWith_eq_ok Parser.definition_agrees,
        parseTokensWith_eq_ok Parser.definition_agrees.symm⟩
  · simp only [parsePredicate, parsePredicateAfresh, parseWith_eq_ok_iff,
      Parser.wholeInput_predicate_iff]

end Texts

end RakeLang
