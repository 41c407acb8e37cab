import RakeLang.Proofs.Mirroring.Continued
import RakeLang.Proofs.Placing.Buffer
import RakeLang.Proofs.Running.Definition

/-!
# Runs of source files

Reading a source file ends.  Lexing it does, and so does the loop that attempts one definition after
the other, although it splits tokens as it goes, goes back at parentheses and goes on behind faults.

The position alone does not show that it ends, since going back lowers it and a split lengthens the
buffer.  What shows it is the number of pieces ahead, where a token is counted with the pieces that
it can fall into: no split changes it, and every round lowers it.  The pieces of the whole buffer
stay as many as they were, so that they also bound its growth.

## Main definitions

* `RakeLang.Lexer.Run` — the items of a lexer that goes on until it yields none.
* `RakeLang.Parser.definitionsWith` — a round of the loop, and the rounds behind it.
* `RakeLang.Parser.behindAttempt` — a round of the loop that goes on.

## Main results

* `RakeLang.skip_executes`, `RakeLang.definitions_executes`, `RakeLang.sourceFile_executes` — the
  loops, and source files.
* `RakeLang.Parser.definitionsWith_cases` — a round of the loop moves on or leaves it.
* `RakeLang.Token.countPieces_of_isLexeme` — the pieces of lexemes.
* `RakeLang.readDefinitions_ends` — reading a source ends, and the buffer grows no further than its
  arrows and signed numbers allow.
-/

set_option relaxedAutoImplicit false
set_option autoImplicit false

namespace RakeLang

open Token

variable {n : Nat}

/-! ## Going on behind a fault -/

namespace Parser

/-- Reads a token, unless a definition can begin at the cursor or the input ends there. -/
def skipOnce : Parser (Option Token) := do
  if ← checkDefinitionBoundary then return none
  else
    let token ← advance
    return some token

/-- Goes to the next place where a definition can begin, or to the end of the input. -/
def skip : Parser Unit := fun c => .ok () c.skipToDefinition

/-- Goes on behind a definition that began at the position `started` and was refused. -/
def recovery (started : Nat) : Parser Unit := do
  let position ← perform .checkpoint
  let opens ← checkDefinitionStart
  if position = started ∨ opens = false then
    let _ ← advance
    skip
  else skip

section SkipOnce

variable {c : Cursor}

/-- Skipping stays where a definition can begin and where the input ends. -/
lemma skipOnce_stays (h : c.atDefinitionBoundary = true) : skipOnce c = .ok none c := by
  refine (bind_of_ok (checkDefinitionBoundary_eq c)).trans ?_
  rw [h]
  rfl

/-- Skipping reads any other token. -/
lemma skipOnce_moves (h : c.atDefinitionBoundary = false) :
    skipOnce c = .ok (some c.peek) c.advance := by
  refine (bind_of_ok (checkDefinitionBoundary_eq c)).trans ?_
  rw [h]
  rfl

/-- A round of skipping reads a token or none. -/
lemma skipOnce_cases {o : Option Token} {c' : Cursor} (h : skipOnce c = .ok o c') :
    o = none ∧ c' = c ∨ ∃ token, o = some token ∧ c'.remaining < c.remaining := by
  rcases hboundary : c.atDefinitionBoundary with _ | _
  · rw [skipOnce_moves hboundary] at h
    obtain ⟨rfl, rfl⟩ := EStateM.Result.ok.inj h
    have hend : c.atEnd = false := (Bool.or_eq_false_iff.1 hboundary).1
    exact .inr ⟨_, rfl, (remaining_advance c).2 (by simpa [Cursor.atEnd] using hend)⟩
  · rw [skipOnce_stays hboundary] at h
    obtain ⟨rfl, rfl⟩ := EStateM.Result.ok.inj h
    exact .inl ⟨rfl, rfl⟩

end SkipOnce

/-- A round of skipping that goes on takes a token. -/
instance : Rounds skipOnce where
  le c o c' h := by
    obtain ⟨-, rfl⟩ | ⟨token, -, hlt⟩ := skipOnce_cases h
    · exact le_rfl
    · exact hlt.le
  some_lt c token c' h := by
    obtain ⟨hnone, -⟩ | ⟨token', -, hlt⟩ := skipOnce_cases h
    · cases hnone
    · exact hlt
  at_end c h := skipOnce_stays (Cursor.atDefinitionBoundary_of_ahead_nil h)

/-- **Skipping is a repetition** without a bound of its own.

**Proof sketch.** Induction on the way to the next place where a definition can begin. -/
theorem skip_eq : skip = (do
    let _ ← many skipOnce
    return ()) := by
  funext c
  refine Cursor.skipToDefinition_induction
    (P := fun c c' => EStateM.Result.ok () c' = (many skipOnce >>= fun _ => pure ()) c)
    (fun c hstay => ?_) (fun c c' hmoves h => ?_) c
  · exact (bind_of_ok (f := fun _ => pure ()) (many_of_none (skipOnce_stays hstay))).symm
  · rw [h]
    obtain ⟨tokens, c₁, hmany⟩ : ∃ tokens c₁, many skipOnce c.advance = .ok tokens c₁ := by
      obtain ⟨tokens, c₁, hmany, -⟩ := bind_eq_ok.1 h.symm
      exact ⟨tokens, c₁, hmany⟩
    rw [bind_of_ok hmany]
    have hround := (many_of_some (skipOnce_moves hmoves)).trans (bind_of_ok hmany)
    exact (bind_of_ok (f := fun _ => pure ()) hround).symm

/-- Where reading goes on behind a fault is where the next definition can begin. -/
lemma recovery_eq (started : Nat) (c : Cursor) :
    recovery started c = .ok () (c.recover started) := by
  refine (bind_of_ok (p := perform .checkpoint) rfl).trans ?_
  refine (bind_of_ok (checkDefinitionStart_eq c)).trans ?_
  rw [Cursor.recover]
  by_cases h : c.position = started ∨ c.atDefinitionStart = false
  · rw [if_pos h]
    exact congrFun (if_pos h) c
  · rw [if_neg h]
    exact congrFun (if_neg h) c

end Parser

/-- Runs of rounds of skipping. -/
instance : Executes n Program.skipOnce Parser.skipOnce := by
  unfold Program.skipOnce Parser.skipOnce; infer_instance

/-- Skipping without a bound ends where skipping with one does. -/
instance skip_executes : Executes n Program.skip Parser.skip := by
  rw [Parser.skip_eq]
  unfold Program.skip
  infer_instance

/-- Runs of recoveries: the skipping comes to an end, since each round takes a token. -/
instance (started : Nat) : Executes n (Program.recovery started) (Parser.recovery started) := by
  unfold Program.recovery Parser.recovery; infer_instance

/-! ## Attempts -/

section Definitions

variable {mode : ErrorMode} {c : Cursor}

namespace Parser

/-- Attempts definitions up to the end of the input. -/
def definitions (mode : ErrorMode) : Parser (List Attempt) := fun c =>
  .ok (attempts mode c).1 (attempts mode c).2

/-- Attempts a definition and, with `rest`, those behind it. -/
def definitionsWith (mode : ErrorMode) (rest : Parser (List Attempt)) : Parser (List Attempt) := do
  let start ← peek
  if start.kind = .eof then return []
  else
    let started ← perform .checkpoint
    match ← caught definition with
    | .ok d =>
      let more ← rest
      return ⟨start, .ok d⟩ :: more
    | .error fault =>
      match mode with
      | .failFast => return [⟨start, .error fault⟩]
      | .collectAll =>
        recovery started
        let more ← rest
        return ⟨start, .error fault⟩ :: more

/-- Reads a source file, and answers the file and the faults. -/
def sourceFile (mode : ErrorMode) : Parser (SourceFile × List Fault) := do
  let attempts ← definitions mode
  let last ← peek
  return (⟨attempts.filterMap Attempt.definition?, Span.origin.merge last.span⟩,
    attempts.filterMap Attempt.fault?)

/-- The attempts behind one, with it in front. -/
def behindAttempt (a : Attempt) (rest : Parser (List Attempt)) : Parser (List Attempt) := do
  let more ← rest
  return a :: more

/-- What a round of the loop does before the end of the input.

**Proof sketch.** The round is run through from its beginning: it looks at the token, takes a mark,
and reads a definition with its fault caught.  By cases on what comes of it and on the mode, it goes
on behind the definition, stops, or recovers first. -/
lemma definitionsWith_eq (mode : ErrorMode) (rest : Parser (List Attempt))
    (hc : c.peek.kind ≠ .eof) :
    definitionsWith mode rest c = match definition c with
      | .ok d behind => behindAttempt ⟨c.peek, .ok d⟩ rest behind
      | .error fault behind =>
        match mode with
        | .failFast => .ok [⟨c.peek, .error fault⟩] behind
        | .collectAll => behindAttempt ⟨c.peek, .error fault⟩ rest (behind.recover c.position) := by
  refine (bind_of_ok (p := peek) rfl).trans ?_
  rw [if_neg hc]
  refine (bind_of_ok (p := perform .checkpoint) rfl).trans ?_
  rcases hdef : definition c with ⟨d, behind⟩ | ⟨fault, behind⟩
  · exact bind_of_ok (caught_of_ok hdef)
  · refine (bind_of_ok (caught_of_error hdef)).trans ?_
    cases mode with
    | failFast => rfl
    | collectAll => exact bind_of_ok (recovery_eq c.position behind)

/-- **Every round of the loop moves on or leaves the loop.**  Either the round does not go on with
what is behind it, whatever that is, or it goes on at a position that lies further on.

**Proof sketch.** At the end of the input, and behind a fault that ends the reading, the round is
over.  Behind a definition tokens were read, and behind a fault that is collected the recovery
passes over at least one. -/
theorem definitionsWith_cases (mode : ErrorMode) (c : Cursor) :
    (∃ as c', ∀ rest, definitionsWith mode rest c = .ok as c')
      ∨ ∃ a c', c.position < c'.position ∧ c'.remaining < c.remaining
        ∧ ∀ rest, definitionsWith mode rest c = behindAttempt a rest c' := by
  by_cases hc : c.peek.kind = .eof
  · refine .inl ⟨[], c, fun rest => (bind_of_ok (p := peek) rfl).trans ?_⟩
    exact congrFun (if_pos hc) c
  have htries {c' : Cursor} (h : c.Tries c') :
      c.position < c'.position ∧ c'.remaining < c.remaining := by
    obtain ⟨inner, hreads⟩ := h.reads
    refine ⟨?_, hreads.remaining_lt (List.cons_ne_nil _ _)⟩
    simp [Cursor.position, hreads.past]
    omega
  have hround (rest : Parser (List Attempt)) := definitionsWith_eq mode rest hc
  rcases hdef : definition c with ⟨d, behind⟩ | ⟨fault, behind⟩
  · simp only [hdef] at hround
    obtain ⟨hposition, hremaining⟩ := htries (tries_definition hc hdef)
    exact .inr ⟨_, behind, hposition, hremaining, hround⟩
  · simp only [hdef] at hround
    cases mode with
    | failFast => exact .inl ⟨_, behind, hround⟩
    | collectAll =>
      obtain ⟨hposition, hremaining⟩ := htries (tries_recover hc hdef)
      exact .inr ⟨_, _, hposition, hremaining, hround⟩

/-- The attempts are those of a round of the loop, and of the rounds behind it.

**Proof sketch.** The bound of the attempts is what remains, and it cuts none off: behind an
attempt less remains, so that any bound beyond that is as good as another. -/
lemma definitions_eq (mode : ErrorMode) (c : Cursor) :
    definitions mode c = definitionsWith mode (definitions mode) c := by
  by_cases hc : c.peek.kind = .eof
  · have hend : c.atEnd = true := by simp [Cursor.atEnd, hc]
    have hattempts : attempts mode c = ([], c) := by
      rw [attempts]
      rcases c.remaining with _ | k
      · rfl
      · rw [attemptsUpTo, if_pos hend]
    rw [definitions, hattempts]
    refine .symm ((bind_of_ok (p := peek) rfl).trans ?_)
    exact congrFun (if_pos hc) c
  have hend : ¬c.atEnd = true := by simpa [Cursor.atEnd] using hc
  have hbehind {c' : Cursor} {k : Nat} (h : c.Tries c') (hk : c.remaining = k + 1) :
      attemptsUpTo mode k c' = attempts mode c' := by
    obtain ⟨inner, hreads⟩ := h.reads
    have hlt := hreads.remaining_lt (List.cons_ne_nil _ _)
    exact attemptsUpTo_eq_of_le _ _ c' (by omega) le_rfl
  obtain ⟨k, hk⟩ : ∃ k, c.remaining = k + 1 := Nat.exists_eq_succ_of_ne_zero fun hzero =>
    hc (Cursor.peek_kind_of_ahead_nil (Cursor.ahead_eq_nil_of_remaining hzero))
  rw [definitionsWith_eq mode _ hc, definitions, attempts, hk, attemptsUpTo, if_neg hend]
  rcases hdef : definition c with ⟨d, behind⟩ | ⟨fault, behind⟩
  · simp only [hbehind (tries_definition hc hdef) hk]
    rfl
  · cases mode with
    | failFast => rfl
    | collectAll =>
      simp only [hbehind (tries_recover hc hdef) hk]
      rfl

/-- A source file is read as it is with bounds. -/
lemma sourceFile_eq (mode : ErrorMode) (c : Cursor) :
    sourceFile mode c = .ok ((readDefinitions mode c).file, (readDefinitions mode c).faults)
      (readDefinitions mode c).behind := rfl

end Parser

/-- A round of the loop, where the rounds behind it come to their end.

**Proof sketch.** The text looks at the token, marks the position and catches the fault of a
definition.  In each case it goes on as the round of the reader does, with the rounds behind it
where these go on. -/
lemma definitionsBody_executed {rest : Parser (List Attempt)}
    (hrest : ∀ c', c.Tries c' → Executed (.invoke (.definitions mode)) rest c') :
    Executed (Program.definitionsBody mode) (Parser.definitionsWith mode rest) c := by
  unfold Program.definitionsBody Parser.definitionsWith
  refine (Executed.here (Nat.lt_succ_self _)).bind (q := Parser.peek) fun start c₁ h => ?_
  obtain ⟨rfl, rfl⟩ := EStateM.Result.ok.inj h
  split
  · exact .here (Nat.lt_succ_self _)
  rename_i hc
  have hmore (a : Attempt) {c' : Cursor} (h : c.Tries c') :
      Executed (.invoke (.definitions mode) >>= fun more => (pure (a :: more) : Program _))
        (Parser.behindAttempt a rest) c' :=
    (hrest c' h).bind fun more c₂ _ => .here (Nat.lt_succ_self _)
  refine (Executed.here (Nat.lt_succ_self _)).bind (q := Parser.perform .checkpoint)
    fun started c₁ h => ?_
  rw [show Parser.perform .checkpoint c = .ok c.position c from rfl] at h
  obtain ⟨rfl, rfl⟩ := EStateM.Result.ok.inj h
  refine (Executed.caught (q := Parser.definition) (.here (Nat.lt_succ_self _))).bind
    fun outcome c₁ h => ?_
  rcases hdef : Parser.definition c with ⟨d, behind⟩ | ⟨fault, behind⟩
  · rw [Parser.caught_of_ok hdef] at h
    obtain ⟨rfl, rfl⟩ := EStateM.Result.ok.inj h
    exact hmore _ (tries_definition hc hdef)
  · rw [Parser.caught_of_error hdef] at h
    obtain ⟨rfl, rfl⟩ := EStateM.Result.ok.inj h
    cases mode with
    | failFast => exact .here (Nat.lt_succ_self _)
    | collectAll =>
      refine (Executed.here (Nat.lt_succ_self _)).bind (q := Parser.recovery c.position)
        fun _ c₂ h => ?_
      rw [Parser.recovery_eq] at h
      obtain ⟨-, rfl⟩ := EStateM.Result.ok.inj h
      exact hmore _ (tries_recover hc hdef)

/-- **The loop without a bound** comes to the end of the one with a bound.

**Proof sketch.** Induction on what remains ahead, which every round that goes on lowers. -/
instance definitions_executes :
    Executes n (.invoke (.definitions mode)) (Parser.definitions mode) := by
  refine ⟨fun c _ => ?_⟩
  induction hk : c.remaining using Nat.strong_induction_on generalizing c with
  | h k ih =>
    refine .invoke (.congr (definitionsBody_executed fun c' h => ?_)
      (Parser.definitions_eq mode c))
    obtain ⟨inner, hreads⟩ := h.reads
    have hlt := hreads.remaining_lt (List.cons_ne_nil _ _)
    exact ih c'.remaining (by omega) c' (by omega) rfl

/-- **Source files.** -/
instance sourceFile_executes :
    Executes n (Program.sourceFile mode) (Parser.sourceFile mode) := by
  unfold Program.sourceFile Parser.sourceFile; infer_instance

end Definitions

/-! ## Lexers -/

namespace Lexer

/-- The items that a lexer yields, one after the other, until it yields none. -/
inductive Run : Lexer → List LexItem → Prop
  | ended {l : Lexer} (h : l.next? = none) : Run l []
  | next {l l' : Lexer} {item : LexItem} {items : List LexItem} (h : l.next? = some (item, l'))
    (hitems : Run l' items) : Run l (item :: items)

/-- A bound beyond the characters that are left cuts no items off.

**Proof sketch.** Induction on the bound.  What is left behind an item is shorter than what was
there, so that the bound is large enough for it too. -/
lemma run_itemsUpTo (n : Nat) :
    ∀ l : Lexer, l.finished = true ∨ l.rest.length < n → l.Run (l.itemsUpTo n) := by
  have hended {l : Lexer} (hl : l.finished = true) (n : Nat) : l.Run (l.itemsUpTo n) := by
    rw [itemsUpTo_of_finished hl]
    exact .ended (by simp [next?, hl])
  induction n with
  | zero => exact fun l hl => hended (hl.resolve_right (Nat.not_lt_zero _)) 0
  | succ n ih =>
    intro l hl
    rcases hfinished : l.finished with _ | _
    · have hlt := hl.resolve_left (by simp [hfinished])
      have hskip : l.skipTrivia.rest.length ≤ l.rest.length := by simp [skipTrivia]
      have hnext : l.next? = some (l.skipTrivia.read.1, l.skipTrivia.read.2) := by
        simp [next?, hfinished]
      rw [itemsUpTo, hnext]
      refine .next hnext (ih _ ?_)
      by_cases hrest : l.skipTrivia.rest = []
      · obtain ⟨eof, hread, -⟩ := read_of_rest_nil hrest
        exact .inl (by rw [hread])
      · have hshorter := (read_of_rest_ne_nil hrest).2.1
        exact .inr (by omega)
    · exact hended hfinished _

/-- Lexing a text ends. -/
lemma run_lex (source : String) : (ofSource source).Run (lex source) :=
  run_itemsUpTo _ _ (.inr (Nat.lt_succ_self _))

end Lexer

/-! ## The growth of the buffer -/

namespace Token

variable {t : Token} {ts : List Token}

/-- A lexeme that is a number has no more than one sign. -/
lemma IsLexeme.isSignedNumber_withoutSign (h : t.IsLexeme) (hsigned : t.isSignedNumber = true) :
    t.withoutSign.isSignedNumber = false := by
  obtain ⟨hnumber, hsign⟩ := Bool.and_eq_true_iff.1 hsigned
  obtain ⟨-, hno⟩ | ⟨digits, hdigits, htext⟩ := h.number_cases hnumber
  · simp [hno] at hsign
  · obtain ⟨c, cs, rfl, hc⟩ := hdigits.exists_cons
    have hne : c ≠ '-' := (Lexeme.ne_sign_of_isDigit hc).2
    simp [isSignedNumber, hasSign, Token.withoutSign, htext, hne]

/-- An arrow and a signed number are two pieces, and any other lexeme is one. -/
lemma IsLexeme.pieces_eq (h : t.IsLexeme) :
    t.pieces = 1 + (if t.kind == .symbol .leftArrow then 1 else 0)
      + if t.isSignedNumber then 1 else 0 := by
  by_cases harrow : t.kind = .symbol .leftArrow
  · have hsigned : t.isSignedNumber = false := by simp [isSignedNumber, harrow, Kind.isNumber]
    simp [pieces_arrow harrow, hsigned, harrow]
  by_cases hsigned : t.isSignedNumber = true
  · have hwithout : t.withoutSign.pieces = 1 :=
      pieces_eq_one (h.isSignedNumber_withoutSign hsigned) harrow
    simp [(pieces_withoutSign hsigned).1, hwithout, hsigned, harrow]
  · rw [Bool.not_eq_true] at hsigned
    simp [pieces_eq_one hsigned harrow, hsigned, harrow]

/-- The pieces of lexemes are the lexemes, and one more for each arrow and each signed number. -/
theorem countPieces_of_isLexeme (h : ∀ t ∈ ts, t.IsLexeme) :
    countPieces ts = ts.length + ts.countP (·.kind == .symbol .leftArrow)
      + ts.countP isSignedNumber := by
  induction ts with
  | nil => rfl
  | cons t ts ih =>
    have hpieces := (h t List.mem_cons_self).pieces_eq
    have hrest := ih fun u hu => h u (List.mem_cons_of_mem t hu)
    rw [countPieces_cons, hpieces, hrest, List.countP_cons, List.countP_cons, List.length_cons]
    omega

end Token

/-- Instructions leave no more tokens in the buffer than pieces were in it. -/
lemma Machine.length_le_of_executeAll {instructions : List Instruction} {m m' : Machine}
    (h : m.executeAll instructions = some m') : m'.tokens.length ≤ countPieces m.tokens := by
  rw [← (splitsTo_of_executeAll h).countPieces_eq]
  exact Cursor.length_le_countPieces _

/-- The first instructions of a row that is executed are executed. -/
lemma Machine.exists_executeAll_of_initial {done instructions : List Instruction} {m m' : Machine}
    (hdone : done <+: instructions) (h : m.executeAll instructions = some m') :
    ∃ m₁, m.executeAll done = some m₁ := by
  obtain ⟨rest, rfl⟩ := hdone
  rw [executeAll_append] at h
  obtain ⟨m₁, hm₁, -⟩ := Option.bind_eq_some_iff.1 h
  exact ⟨m₁, hm₁⟩

/-! ## Sources -/

/-- **Reading a source ends**, whatever the source is and however faults are dealt with.

* Lexing it ends.
* The program of the reader, which has no bounds, runs on the buffer of its tokens, and comes to
  what the reader comes to.  At no time during the run, whatever was tried and given up meanwhile,
  has the buffer grown by more tokens than arrows and signed numbers were lexed.
* Every round of the loop either does not go on with the rounds behind it, whatever these are, or
  goes on with them at a position that lies further on.
* Where faults are collected the run ends at the end of the input, with no token ahead.

**Proof sketch.** The text of the reader of source files runs as the reader does, and every part of
a run has an outcome.  No instruction changes the number of pieces of the buffer, which is at most
the number of its tokens and one more for each arrow and each number with a sign, and each token has
a piece. -/
theorem readDefinitions_ends (source : String) (mode : ErrorMode) :
    let tokens := (lex source).filterMap LexItem.token?
    let reading := readDefinitions mode (.ofTokens tokens)
    (Lexer.ofSource source).Run (lex source)
      ∧ (∃ is, (Program.sourceFile mode).Run ⟨tokens, 0⟩ is
            (.ok (reading.file, reading.faults)) reading.behind.machine
          ∧ ∀ done, done <+: is → ∃ m, Machine.executeAll done ⟨tokens, 0⟩ = some m
            ∧ m.tokens.length ≤ tokens.length + tokens.countP (·.kind == .symbol .leftArrow)
              + tokens.countP isSignedNumber)
      ∧ (∀ c, (∃ as c', ∀ rest, Parser.definitionsWith mode rest c = .ok as c')
          ∨ ∃ a c', c.position < c'.position
            ∧ ∀ rest, Parser.definitionsWith mode rest c = Parser.behindAttempt a rest c')
      ∧ (mode = .collectAll → reading.behind.atEnd = true ∧ reading.behind.ahead = []) := by
  intro tokens reading
  obtain ⟨ts, hlex, -, -⟩ := faithful_of_lex source
  have htokens : tokens = ts ++ [Token.atEnd source.toList] := hlex
  have hlexemes := isLexeme_of_lex hlex
  have hstart : Cursor.ofTokens tokens = ⟨[], ts, Token.atEnd source.toList, rfl⟩ := by
    rw [htokens]
    exact Cursor.ofTokens_append rfl
  have hmachine : (Cursor.ofTokens tokens).machine = ⟨tokens, 0⟩ := by
    rw [hstart, htokens]
    rfl
  refine ⟨Lexer.run_lex source, ?_, fun c => ?_, ?_⟩
  · obtain ⟨is, hrun⟩ :=
      (sourceFile_executes.executed (Cursor.ofTokens tokens) (Nat.lt_succ_self _)).runs
    rw [hmachine] at hrun
    refine ⟨is, hrun, fun done hdone => ?_⟩
    obtain ⟨m, hm⟩ := Machine.exists_executeAll_of_initial hdone hrun.executeAll
    refine ⟨m, hm, (Machine.length_le_of_executeAll hm).trans (le_of_eq ?_)⟩
    have hpieces : countPieces [Token.atEnd source.toList] = 1 := rfl
    have harrow : [Token.atEnd source.toList].countP (·.kind == .symbol .leftArrow) = 0 := rfl
    have hsigned : [Token.atEnd source.toList].countP isSignedNumber = 0 := rfl
    rw [htokens, countPieces_append, countPieces_of_isLexeme hlexemes, hpieces, List.countP_append,
      List.countP_append, harrow, hsigned, List.length_append, List.length_singleton]
    omega
  · obtain h | ⟨a, c', hposition, -, h⟩ := Parser.definitionsWith_cases mode c
    · exact .inl h
    · exact .inr ⟨a, c', hposition, h⟩
  · rintro rfl
    have hkinds : ∀ t ∈ (Cursor.ofTokens tokens).ahead, t.kind ≠ .eof := by
      intro t ht
      rw [hstart] at ht
      obtain ⟨afterOperand, hmatches⟩ := hlexemes t ht
      exact hmatches.ne.2
    obtain ⟨read, htried⟩ := tried_attemptsUpTo _ (Cursor.ofTokens tokens) le_rfl hkinds
    have hahead : reading.behind.ahead = [] := htried.ended
    exact ⟨by simp [Cursor.atEnd, Cursor.peek_kind_of_ahead_nil hahead], hahead⟩

end RakeLang
