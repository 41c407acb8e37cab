import RakeLang.Proofs.Placing.Lexeme
import RakeLang.Proofs.Placing.SourceFile
import RakeLang.SourceFile.Parse

/-!
# A buffer of tokens and what is done to it

The tokens of a text make up a buffer with a cursor in it.  Whatever is done to the cursor, by
single steps, by going to positions that were marked before, by splits or by whole readings that
succeed or fail, the buffer stays a row of lexemes of the text, at their places and in their order,
and no mark leads out of it.

## Main definitions

* `RakeLang.Cursor.buffer` — the tokens around a cursor, without the one that closes them.
* `RakeLang.Session` — a cursor with the positions that were marked on its way.
* `RakeLang.Operation` — what can be done to a cursor.

## Main results

* `RakeLang.Cursor.Reads.buffer`, `RakeLang.Cursor.standsAt_seek` — a reading splits tokens of the
  buffer, and going to a position in the buffer changes none.
* `RakeLang.Session.Sound.apply`, `RakeLang.Session.Sound.run` — what one operation keeps, and what
  any row of operations keeps.
* `RakeLang.run_faithful` — the buffer of a text stays faithful to the text.
-/

set_option relaxedAutoImplicit false
set_option autoImplicit false

namespace RakeLang

open Token

/-! ## Buffers -/

namespace Cursor

variable {c c' : Cursor}

/-- The tokens that have been read and those ahead, without the one that closes them. -/
def buffer (c : Cursor) : List Token := c.past.reverse ++ c.ahead

/-- The tokens around a cursor are those of the buffer and the one that closes them. -/
lemma tokens_eq (c : Cursor) : c.tokens = c.buffer ++ [c.closing] := rfl

/-- A cursor stands in its buffer or right behind it. -/
lemma position_le (c : Cursor) : c.position ≤ c.buffer.length := by
  simp [position, buffer]

/-- The token `n` places ahead is the one at that position, or the last one of all if the position
is beyond it.

**Proof sketch.** Both sides are taken relative to the tokens behind the position: an index
among the tokens ahead gives that token, and any index beyond them gives the closing one. -/
lemma getElem?_lookahead (c : Cursor) (n : Nat) :
    c.tokens[min (c.position + n) (c.tokens.length - 1)]? = some (c.lookahead n) := by
  have hlength : c.tokens.length - 1 = c.position + c.ahead.length := by
    simp [tokens, position]
  have hindex : min (c.position + n) (c.tokens.length - 1)
      = c.past.reverse.length + min n c.ahead.length := by
    simp only [hlength, List.length_reverse, position]
    omega
  rw [hindex, tokens, List.append_assoc, List.getElem?_append_right (Nat.le_add_right _ _),
    Nat.add_sub_cancel_left, lookahead]
  rcases lt_or_ge n c.ahead.length with hn | hn
  · rw [Nat.min_eq_left hn.le, List.getElem?_append_left hn, List.headD_eq_head?_getD,
      List.head?_drop, List.getElem?_eq_getElem hn]
    rfl
  · rw [Nat.min_eq_right hn, List.drop_eq_nil_of_le hn]
    simp

/-! ### Reading -/

/-- A reading splits tokens of the buffer, and closes it with the same token. -/
theorem Reads.buffer {read : List Token} (h : c.Reads SplitsTo read c') :
    SplitsTo c.buffer c'.buffer := by
  have hbuffer : c'.buffer = c.past.reverse ++ (read ++ c'.ahead) := by
    simp [Cursor.buffer, h.past]
  rw [hbuffer]
  exact Rewriting.append _ h.ahead

/-! ### Going to a position -/

/-- The cursor `c'` stands at the position `n` of the buffer of `c`. -/
structure StandsAt (c : Cursor) (n : Nat) (c' : Cursor) : Prop where
  position : c'.position = n
  buffer : c'.buffer = c.buffer
  closing : c'.closing = c.closing

/-- A step back ends one position earlier. -/
lemma standsAt_retreat {n : Nat} (h : c.StandsAt (n + 1) c') : c.StandsAt n c'.retreat := by
  obtain ⟨hposition, hbuffer, hclosing⟩ := h
  rcases c' with ⟨_ | ⟨t, ts⟩, ahead, closing, hkind⟩
  · cases hposition
  · refine ⟨Nat.succ.inj hposition, ?_, hclosing⟩
    rw [← hbuffer]
    simp [retreat, Cursor.buffer]

/-- A step forth inside the buffer ends one position later. -/
lemma standsAt_advance {n : Nat} (h : c.StandsAt n c') (hn : n < c.buffer.length) :
    c.StandsAt (n + 1) c'.advance := by
  obtain ⟨hposition, hbuffer, hclosing⟩ := h
  rcases c' with ⟨past, _ | ⟨t, ts⟩, closing, hkind⟩
  · rw [← hbuffer, ← hposition] at hn
    simp [Cursor.buffer, Cursor.position] at hn
  · refine ⟨congrArg (· + 1) hposition, ?_, hclosing⟩
    rw [← hbuffer]
    simp [advance, Cursor.buffer]

/-- Going to a position inside the buffer ends there, and changes nothing else.

**Proof sketch.** Going to a position is so many steps back from the cursor, or so many forth; each
keeps the buffer.  Induction on the number of steps. -/
theorem standsAt_seek {n : Nat} (hn : n ≤ c.buffer.length) : c.StandsAt n (c.seek n) := by
  have hback : ∀ k ≤ c.position, c.StandsAt (c.position - k) (Nat.repeat retreat k c) := by
    intro k
    induction k with
    | zero => exact fun _ => ⟨rfl, rfl, rfl⟩
    | succ k ih =>
      intro hk
      refine standsAt_retreat ?_
      rw [show c.position - (k + 1) + 1 = c.position - k by omega]
      exact ih (by omega)
  have hon : ∀ k, c.position + k ≤ c.buffer.length →
      c.StandsAt (c.position + k) (Nat.repeat advance k c) := by
    intro k
    induction k with
    | zero => exact fun _ => ⟨rfl, rfl, rfl⟩
    | succ k ih => exact fun hk => standsAt_advance (ih (by omega)) (Nat.lt_of_succ_le hk)
  unfold seek
  split
  · have hat := hback (c.position - n) (Nat.sub_le _ _)
    rwa [show c.position - (c.position - n) = n by omega] at hat
  · have hat := hon (n - c.position) (by omega)
    rwa [show c.position + (n - c.position) = n by omega] at hat

end Cursor

/-! ## Operations -/

/-- The cursor that a reading leaves behind, whether it succeeds or is refused. -/
def Parser.leaves {α : Type} (p : Parser α) (c : Cursor) : Cursor :=
  match p c with
  | .ok _ c' => c'
  | .error _ c' => c'

/-- A cursor, with the positions that were marked on its way, the latest first. -/
structure Session where
  cursor : Cursor
  marks : List Nat

/-- What can be done to a cursor. -/
inductive Operation where
  /-- Reads the token at the cursor. -/
  | advance
  /-- Looks at the token `n` places ahead. -/
  | lookahead (n : Nat)
  /-- Marks the position of the cursor. -/
  | checkpoint
  /-- Goes to a position that was marked, counted from the latest mark. -/
  | rewind (mark : Nat)
  /-- Splits the signed number at the cursor, if one stands there. -/
  | splitSign
  /-- Splits the left arrow at the cursor, if one stands there. -/
  | splitArrow
  /-- Reads an expression. -/
  | expression
  /-- Reads a predicate. -/
  | predicate
  /-- Reads a type. -/
  | dataType
  /-- Reads a source file. -/
  | sourceFile (mode : ErrorMode)
  deriving DecidableEq, Repr

/-- What is left of a session behind an operation. -/
def Session.apply (s : Session) : Operation → Session
  | .advance => { s with cursor := s.cursor.advance }
  | .lookahead _ => s
  | .checkpoint => { s with marks := s.cursor.position :: s.marks }
  | .rewind mark =>
    match s.marks[mark]? with
    | none => s
    | some n => { s with cursor := s.cursor.seek n }
  | .splitSign => { s with cursor := s.cursor.splitSign?.getD s.cursor }
  | .splitArrow => { s with cursor := s.cursor.splitArrow?.getD s.cursor }
  | .expression => { s with cursor := Parser.expression.leaves s.cursor }
  | .predicate => { s with cursor := Parser.predicate.leaves s.cursor }
  | .dataType => { s with cursor := Parser.dataType.leaves s.cursor }
  | .sourceFile mode => { s with cursor := (readDefinitions mode s.cursor).behind }

/-- What is left of a session behind operations, one after the other. -/
def Session.run (s : Session) (operations : List Operation) : Session :=
  operations.foldl Session.apply s

namespace Session

/-- The session is over `tokens` and the token `closing` at their end, with splits, and its marks
lie in the buffer. -/
structure Sound (tokens : List Token) (closing : Token) (s : Session) : Prop where
  splitsTo : SplitsTo tokens s.cursor.buffer
  closing : s.cursor.closing = closing
  marks : ∀ n ∈ s.marks, n ≤ s.cursor.buffer.length

section Sound

variable {tokens : List Token} {closing : Token} {s : Session}

/-- A reading keeps a session sound: the buffer grows, so that no mark falls out of it. -/
lemma Sound.reads {read : List Token} {c : Cursor} (h : s.Sound tokens closing)
    (hread : s.cursor.Reads SplitsTo read c) : Sound tokens closing { s with cursor := c } where
  splitsTo := h.splitsTo.trans hread.buffer
  closing := hread.closing.trans h.closing
  marks n hn := (h.marks n hn).trans hread.buffer.length_le

/-- A parser keeps a session sound. -/
lemma Sound.leaves {α : Type} {p : Parser α} {Q : α → List Token → Cursor → Prop}
    (h : s.Sound tokens closing) (hp : p.Ensures SplitsTo s.cursor Q) :
    Sound tokens closing { s with cursor := p.leaves s.cursor } := by
  unfold Parser.leaves
  rcases hrun : p s.cursor with ⟨a, c⟩ | ⟨fault, c⟩
  · obtain ⟨read, hread, -⟩ := hp.ok a c hrun
    exact h.reads hread
  · obtain ⟨read, hread⟩ := hp.error fault c hrun
    exact h.reads hread

/-- An operation keeps a session sound.

**Proof sketch.** By operation.  An advance and a split are readings, which split tokens of the
buffer at most; a lookahead changes nothing; a checkpoint is a position in the buffer; and going to
a mark keeps the buffer, for the mark lies in it. -/
theorem Sound.apply (h : s.Sound tokens closing) (operation : Operation) :
    (s.apply operation).Sound tokens closing := by
  cases operation with
  | advance =>
    obtain ⟨read, hread⟩ := s.cursor.exists_reads_advance
    exact h.reads hread
  | lookahead n => exact h
  | checkpoint =>
    exact ⟨h.splitsTo, h.closing, List.forall_mem_cons.2 ⟨s.cursor.position_le, h.marks⟩⟩
  | rewind mark =>
    rcases hmark : s.marks[mark]? with _ | n
    · simpa only [Session.apply, hmark] using h
    · have hat := Cursor.standsAt_seek (h.marks n (List.mem_of_getElem? hmark))
      simp only [Session.apply, hmark]
      refine ⟨?_, hat.closing.trans h.closing, ?_⟩
      · simpa only [hat.buffer] using h.splitsTo
      · simpa only [hat.buffer] using h.marks
  | splitSign =>
    rcases hsplit : s.cursor.splitSign? with _ | c
    · simpa only [Session.apply, hsplit, Option.getD_none] using h
    · simpa only [Session.apply, hsplit, Option.getD_some] using
        h.reads (Cursor.splitsTo_of_splitSign? hsplit)
  | splitArrow =>
    rcases hsplit : s.cursor.splitArrow? with _ | c
    · simpa only [Session.apply, hsplit, Option.getD_none] using h
    · simpa only [Session.apply, hsplit, Option.getD_some] using
        h.reads (Cursor.splitsTo_of_splitArrow? hsplit)
  | expression => exact h.leaves (Parser.expression_places s.cursor)
  | predicate => exact h.leaves (Parser.predicate_ensures s.cursor)
  | dataType => exact h.leaves (Parser.dataType_ensures s.cursor)
  | sourceFile mode =>
    obtain ⟨read, hread, -⟩ := attemptsUpTo_places mode s.cursor.remaining s.cursor
    exact h.reads hread

/-- Operations keep a session sound, one after the other. -/
theorem Sound.run (operations : List Operation) :
    ∀ {s : Session}, s.Sound tokens closing → (s.run operations).Sound tokens closing := by
  induction operations with
  | nil => exact fun h => h
  | cons operation operations ih => exact fun h => ih (h.apply operation)

end Sound

/-- The session at the first token of a text. -/
def ofSource (source : String) : Session :=
  ⟨.ofTokens ((lex source).filterMap LexItem.token?), []⟩

end Session

/-! ## Texts -/

/-- Whatever is done to the cursor at the first token of a text, where unrecognised characters are
left out, and however often:

* the tokens around the cursor end with the end of the input, which closed them at the beginning,
  and with no earlier one; the cursor stands at one of them, and looks at them by their positions;
* a position that was marked lies among them, and going there ends there and changes none of them;
* each of them is the text at its span, with the line and the column of its beginning, each but the
  last one is a lexeme of its kind and takes room, and they follow each other without an overlap;
* their texts, one after the other, are those that were there at the beginning.

**Proof sketch.** A session that begins at the first token is sound, and stays so.  What it says of
the buffer is that it splits from the tokens of the text, which are faithful and lexemes, and splits
keep them so. -/
theorem run_faithful (source : String) (operations : List Operation) :
    let s := (Session.ofSource source).run operations
    ∃ buffer, s.cursor.tokens = buffer ++ [Token.atEnd source.toList]
      ∧ s.cursor.position < s.cursor.tokens.length
      ∧ (∀ n, s.cursor.tokens[min (s.cursor.position + n) (s.cursor.tokens.length - 1)]?
          = some (s.cursor.lookahead n))
      ∧ (∀ n ∈ s.marks, n < s.cursor.tokens.length ∧ (s.cursor.seek n).position = n
          ∧ (s.cursor.seek n).tokens = s.cursor.tokens)
      ∧ (∀ t ∈ s.cursor.tokens, t.span.slice source = t.lexeme ∧ t.span.Exact source)
      ∧ (∀ t ∈ buffer, t.IsLexeme ∧ t.kind ≠ .eof ∧ t.span.start < t.span.stop)
      ∧ s.cursor.tokens.Pairwise (fun t u => t.span.stop ≤ u.span.start)
      ∧ lexemes s.cursor.tokens = lexemes (Session.ofSource source).cursor.tokens := by
  intro s
  obtain ⟨tokens, hlex, hfaithful, -⟩ := faithful_of_lex source
  have hstart : Session.ofSource source = ⟨Cursor.atStart source tokens, []⟩ := by
    rw [Session.ofSource, hlex, Cursor.ofTokens_append rfl]
    rfl
  have hsound : s.Sound tokens (Token.atEnd source.toList) := by
    refine Session.Sound.run operations ?_
    rw [hstart]
    exact ⟨.refl, rfl, by simp⟩
  -- splits keep tokens in their places, and the text that their lexemes make up
  have hbuffer := hfaithful.splitsTo hsound.splitsTo
  obtain ⟨hlexemes, hsame⟩ := hsound.splitsTo.lexemes_eq (isLexeme_of_lex hlex)
  have htokens : s.cursor.tokens = s.cursor.buffer ++ [Token.atEnd source.toList] := by
    rw [Cursor.tokens_eq, hsound.closing]
  have hlength : s.cursor.tokens.length = s.cursor.buffer.length + 1 := by simp [htokens]
  have hstands : ∀ t ∈ s.cursor.tokens, t.StandsIn source.toList := by
    intro t ht
    rw [htokens] at ht
    rcases List.mem_append.1 ht with ht | ht
    · exact hbuffer.standsIn t ht
    · exact List.mem_singleton.1 ht ▸ standsIn_atEnd _
  refine ⟨s.cursor.buffer, htokens, ?_, s.cursor.getElem?_lookahead, ?_, ?_, ?_, ?_, ?_⟩
  · have := s.cursor.position_le
    omega
  · intro n hn
    have hle := hsound.marks n hn
    have hat := Cursor.standsAt_seek hle
    refine ⟨by omega, hat.position, ?_⟩
    rw [Cursor.tokens_eq, hat.buffer, hat.closing, Cursor.tokens_eq]
  · exact fun t ht => ⟨(hstands t ht).slice_eq, (hstands t ht).exact⟩
  · intro t ht
    obtain ⟨_, hmatches⟩ := hlexemes t ht
    exact ⟨hlexemes t ht, hmatches.ne.2, (hbuffer.standsIn t ht).start_lt_stop (hlexemes t ht)⟩
  · rw [htokens]
    refine List.pairwise_append.2
      ⟨hbuffer.ordered, List.pairwise_singleton _ _, fun t ht u hu => ?_⟩
    have hend : (Token.atEnd source.toList).span.start = source.utf8ByteSize := by
      simp [Token.atEnd, Span.between, Place.offset_after_start]
    rw [List.mem_singleton.1 hu, hend]
    exact (hbuffer.standsIn t ht).exact.stop_le
  · rw [htokens, hstart, lexemes_append, hsame]
    exact (lexemes_append tokens _).symm

end RakeLang
