import RakeLang.Proofs.Placing.Buffer

/-!
# Buffers that are read by index

A cursor is a place between two lists, where nothing can be out of range.  A program that keeps its
tokens in one buffer, and its place as a number, has to be careful: an index must lie in the buffer,
and a difference must not fall below zero.  A `Machine` is such a buffer with an index, and its
instructions have no outcome where the program would break off.

The instructions of the machine do what those of the cursor do, with the same answers, and always
have an outcome.  Only a machine that is sent back must be sent to a place in its buffer.

## Main definitions

* `RakeLang.Machine`, `RakeLang.Cursor.machine` — buffers with an index; the buffer of a cursor.
* `RakeLang.Instruction` — what is done to them.
* `RakeLang.Machine.execute`, `RakeLang.Cursor.execute` — an instruction on both sides.

## Main results

* `RakeLang.Machine.ofTokens?_eq` — the machine at the first token of a list.
* `RakeLang.Cursor.execute_machine` — the machine does what the cursor does.
* `RakeLang.Machine.splitsTo_of_executeAll` — instructions leave the buffer, with splits.
-/

set_option relaxedAutoImplicit false
set_option autoImplicit false

namespace RakeLang

open Token

/-! ## Machines -/

/-- A buffer of tokens, and the index at which it is read. -/
structure Machine where
  tokens : List Token
  position : Nat

namespace Machine

/-- The difference of two numbers, unless it falls below zero. -/
def difference? (a b : Nat) : Option Nat := if b ≤ a then some (a - b) else none

/-- The tokens with another one at an index, which must be in range. -/
def replace? (tokens : List Token) (i : Nat) (t : Token) : Option (List Token) :=
  if i < tokens.length then some (tokens.set i t) else none

/-- The tokens with one more at an index, which may be the one behind the last token. -/
def insert? (tokens : List Token) (i : Nat) (t : Token) : Option (List Token) :=
  if i ≤ tokens.length then some (tokens.insertIdx i t) else none

/-- The text behind the first byte of a text, where a character must begin. -/
def behindFirstByte? (text : String) : Option String :=
  match text.toList with
  | c :: cs => if c.utf8Size = 1 then some (String.ofList cs) else none
  | [] => none

/-- The machine at the first token of a list.  A list without a token at its end that closes the
input gets one, just behind its last token. -/
def ofTokens? (tokens : List Token) : Option Machine :=
  if tokens.getLast?.any (·.kind == .eof) then some ⟨tokens, 0⟩
  else do
    let last := (tokens.getLast?.map Token.span).getD .origin
    let length ← difference? last.stop last.start
    return ⟨tokens ++ [⟨.eof, "", ⟨last.line, last.column + length, last.stop, last.stop⟩⟩], 0⟩

/-- The token `n` places ahead, or the last one if there is none so far ahead. -/
def lookahead? (m : Machine) (n : Nat) : Option Token := do
  let last ← difference? m.tokens.length 1
  m.tokens[min (m.position + n) last]?

/-- The token at the index, and the machine behind it. -/
def advance? (m : Machine) : Option (Token × Machine) := do
  let last ← difference? m.tokens.length 1
  let token ← m.tokens[m.position]?
  return (token, if m.position < last then { m with position := m.position + 1 } else m)

/-- The span of the token before the index; of the one at the index if there is none before. -/
def previousSpan? (m : Machine) : Option Span :=
  match m.position with
  | 0 => (m.lookahead? 0).map Token.span
  | i + 1 => m.tokens[i]?.map Token.span

/-- Splits the signed number at the index, if one stands there, and tells whether it did. -/
def splitSign? (m : Machine) : Option (Bool × Machine) := do
  let token ← m.tokens[m.position]?
  if token.isSignedNumber then
    let lexeme ← behindFirstByte? token.lexeme
    let tokens ← replace? m.tokens m.position (minusAt token.span.firstByte)
    let tokens ← insert? tokens (m.position + 1) ⟨token.kind, lexeme, token.span.afterFirstByte⟩
    return (true, { m with tokens })
  else return (false, m)

/-- Splits the arrow at the index, if one stands there, and tells whether it did. -/
def splitArrow? (m : Machine) : Option (Bool × Machine) := do
  let arrow ← m.tokens[m.position]?
  if arrow.kind = .symbol .leftArrow then
    let next ← m.tokens[m.position + 1]?
    let tokens ← replace? m.tokens m.position (lessAt arrow.span.firstByte)
    if joinsArrow arrow next then
      let tokens ← replace? tokens (m.position + 1) (joined arrow next)
      return (true, { m with tokens })
    else
      let tokens ← insert? tokens (m.position + 1) (minusAt arrow.span.afterFirstByte)
      return (true, { m with tokens })
  else return (false, m)

end Machine

/-! ## Instructions -/

/-- What is done to a buffer with an index. -/
inductive Instruction where
  /-- Looks at the token `n` places ahead. -/
  | lookahead (n : Nat)
  /-- Reads the token at the index. -/
  | advance
  /-- Looks at the span of the token that was read last. -/
  | previousSpan
  /-- Looks at the index. -/
  | checkpoint
  /-- Sets the index. -/
  | rewind (position : Nat)
  /-- Splits a signed number. -/
  | splitSign
  /-- Splits an arrow. -/
  | splitArrow
  deriving DecidableEq, Repr

/-- What an instruction answers. -/
@[reducible] def Instruction.Answer : Instruction → Type
  | lookahead _ | advance => Token
  | previousSpan => Span
  | checkpoint => Nat
  | rewind _ => Unit
  | splitSign | splitArrow => Bool

/-- The answer of an instruction, and the machine behind it. -/
def Machine.execute : (i : Instruction) → Machine → Option (i.Answer × Machine)
  | .lookahead n, m => (m.lookahead? n).map fun t => (t, m)
  | .advance, m => m.advance?
  | .previousSpan, m => m.previousSpan?.map fun s => (s, m)
  | .checkpoint, m => some (m.position, m)
  | .rewind n, m => some ((), { m with position := n })
  | .splitSign, m => m.splitSign?
  | .splitArrow, m => m.splitArrow?

/-- The machine behind instructions, one after the other. -/
def Machine.executeAll : List Instruction → Machine → Option Machine
  | [], m => some m
  | i :: is, m => (m.execute i).bind fun (_, m) => executeAll is m

/-- The answer of an instruction at a cursor, and the cursor behind it. -/
def Cursor.execute : (i : Instruction) → Cursor → i.Answer × Cursor
  | .lookahead n, c => (c.lookahead n, c)
  | .advance, c => (c.peek, c.advance)
  | .previousSpan, c => (c.previousSpan, c)
  | .checkpoint, c => (c.position, c)
  | .rewind n, c => ((), c.seek n)
  | .splitSign, c => (c.splitSign?.isSome, c.splitSign?.getD c)
  | .splitArrow, c => (c.splitArrow?.isSome, c.splitArrow?.getD c)

/-! ## The machine does what the cursor does -/

namespace Cursor

variable {c : Cursor}

/-- The buffer around a cursor, with its position as the index. -/
def machine (c : Cursor) : Machine := ⟨c.tokens, c.position⟩

/-- The machine of a cursor has the tokens of the cursor. -/
@[simp] lemma machine_tokens (c : Cursor) : c.machine.tokens = c.tokens := rfl

/-- The machine of a cursor stands where the cursor does. -/
@[simp] lemma machine_position (c : Cursor) : c.machine.position = c.position := rfl

/-- The tokens of a cursor, where one is ahead. -/
lemma tokens_of_ahead {t : Token} {ts : List Token} (h : c.ahead = t :: ts) :
    c.tokens = c.past.reverse ++ t :: (ts ++ [c.closing]) := by
  simp [tokens, h]

/-- The tokens of a cursor, where none is ahead. -/
lemma tokens_of_ahead_nil (h : c.ahead = []) : c.tokens = c.past.reverse ++ [c.closing] := by
  simp [tokens, h]

/-- How many tokens a cursor has. -/
lemma length_tokens (c : Cursor) : c.tokens.length = c.position + c.ahead.length + 1 := by
  simp [tokens, position, Nat.add_assoc]

/-- The token at the index is the one at the cursor. -/
lemma getElem?_peek (c : Cursor) : c.tokens[c.position]? = some c.peek := by
  rcases h : c.ahead with _ | ⟨t, ts⟩
  · simp [tokens_of_ahead_nil h, position, peek, h]
  · simp [tokens_of_ahead h, position, peek, h]

/-- The last token has an index, since there is one. -/
lemma difference?_length_tokens (c : Cursor) :
    Machine.difference? c.tokens.length 1 = some (c.tokens.length - 1) :=
  if_pos (by simp [length_tokens])

/-- A look ahead is never out of range: it stops at the last token. -/
lemma lookahead?_machine (c : Cursor) (n : Nat) :
    c.machine.lookahead? n = some (c.lookahead n) := by
  simp [Machine.lookahead?, difference?_length_tokens, getElem?_lookahead]

/-- A step is never out of range: at the last token the machine stays. -/
lemma advance?_machine (c : Cursor) : c.machine.advance? = some (c.peek, c.advance.machine) := by
  have hmachine : c.machine.advance? = some (c.peek, if c.position < c.tokens.length - 1
      then ⟨c.tokens, c.position + 1⟩ else c.machine) := by
    simp only [Machine.advance?, machine_tokens, machine_position, difference?_length_tokens,
      getElem?_peek, Option.bind_eq_bind, Option.bind_some]
    rfl
  rw [hmachine, length_tokens]
  rcases h : c.ahead with _ | ⟨t, ts⟩
  · simp [advance, h]
  · simp [advance, h, machine, tokens, position]

/-- A look at the token in front is never out of range: at the first token there is none to look at.
-/
lemma previousSpan?_machine (c : Cursor) : c.machine.previousSpan? = some c.previousSpan := by
  rcases h : c.past with _ | ⟨t, ts⟩
  · have hposition : c.machine.position = 0 := by simp [position, h]
    have hlookahead := c.lookahead?_machine 0
    simp only [Machine.previousSpan?, hposition, hlookahead, previousSpan, h]
    rfl
  · have hposition : c.machine.position = ts.length + 1 := by simp [position, h]
    have hbefore : c.tokens[ts.length]? = some t := by simp [tokens, h]
    simp only [Machine.previousSpan?, hposition, machine_tokens, hbefore, previousSpan, h]
    rfl

/-! ### Splits -/

/-- The token behind some others is replaced. -/
lemma replace?_append (before after : List Token) (t u : Token) :
    Machine.replace? (before ++ t :: after) before.length u = some (before ++ u :: after) := by
  simp [Machine.replace?]

/-- The token behind the one that stands behind some others is replaced. -/
lemma replace?_append_cons (before after : List Token) (first t u : Token) :
    Machine.replace? (before ++ first :: t :: after) (before.length + 1) u
      = some (before ++ first :: u :: after) := by
  have hreplace := replace?_append (before ++ [first]) after t u
  simpa only [List.length_append, List.length_singleton, List.append_assoc,
    List.singleton_append] using hreplace

/-- The token behind the one that stands behind some others is the second of them. -/
lemma getElem?_append_cons (before after : List Token) (first t : Token) :
    (before ++ first :: t :: after)[before.length + 1]? = some t := by
  simp

/-- A token is put in behind the one that stands behind some others. -/
lemma insert?_append (before after : List Token) (t u : Token) :
    Machine.insert? (before ++ t :: after) (before.length + 1) u
      = some (before ++ t :: u :: after) := by
  have hinsert : (before ++ t :: after).insertIdx (before.length + 1) u
      = before ++ t :: u :: after := by
    induction before with
    | nil => rfl
    | cons b before ih => simpa using ih
  rw [Machine.insert?, hinsert]
  simp

/-- The text of a signed number begins with a character of one byte. -/
lemma behindFirstByte?_of_isSignedNumber {t : Token} (h : t.isSignedNumber = true) :
    Machine.behindFirstByte? t.lexeme = some t.withoutSign.lexeme := by
  simp only [isSignedNumber, hasSign, Bool.and_eq_true, beq_iff_eq,
    List.head?_eq_some_iff] at h
  obtain ⟨-, cs, hcs⟩ := h
  simp only [Machine.behindFirstByte?, hcs, withoutSign, List.drop_succ_cons, List.drop_zero]
  rfl

/-- Any other token than a signed number is left alone. -/
lemma splitSign?_eq_none (h : c.peek.isSignedNumber = false) : c.splitSign? = none := by
  rcases hahead : c.ahead with _ | ⟨t, ts⟩
  · simp [splitSign?, hahead]
  · simp only [peek, hahead, List.headD_cons] at h
    simp [splitSign?, hahead, Token.splitSign?, h]

/-- Any other token than an arrow is left alone. -/
lemma splitArrow?_eq_none (h : c.peek.kind ≠ .symbol .leftArrow) : c.splitArrow? = none := by
  rcases hahead : c.ahead with _ | ⟨t, ts⟩
  · simp [splitArrow?, hahead, Token.splitArrow?]
  · simp only [peek, hahead, List.headD_cons] at h
    simp [splitArrow?, hahead, Token.splitArrow?, h]

/-- A number with a sign falls into the same tokens on both sides, and the indexes used are in
range.

**Proof sketch.** By cases on whether the token at the cursor has a sign.  If it does, it is no end
of the input, so it stands among the tokens ahead, and its text has a byte behind the first one; the
two writes to the buffer are at its position, which is in range. -/
lemma splitSign?_machine (c : Cursor) :
    c.machine.splitSign? = some (c.splitSign?.isSome, (c.splitSign?.getD c).machine) := by
  simp only [Machine.splitSign?, machine_tokens, machine_position, getElem?_peek,
    Option.bind_eq_bind, Option.bind_some]
  by_cases hsigned : c.peek.isSignedNumber = true
  · have hne : c.peek.kind ≠ .eof := fun heof => by
      simp [isSignedNumber, heof, Kind.isNumber] at hsigned
    obtain ⟨ts, hahead⟩ := exists_ahead_of_peek hne
    have hsplit : c.splitSign? = some { c with
        ahead := minusAt c.peek.span.firstByte :: c.peek.withoutSign :: ts } := by
      simp [splitSign?, hahead, Token.splitSign?, hsigned]
    have hlength : c.position = c.past.reverse.length := by simp [position]
    rw [if_pos hsigned, hsplit, behindFirstByte?_of_isSignedNumber hsigned, Option.bind_some,
      tokens_of_ahead hahead, hlength, replace?_append, Option.bind_some, insert?_append]
    simp [machine, tokens, position, withoutSign]
  · rw [if_neg hsigned, splitSign?_eq_none (by simpa using hsigned)]
    rfl

/-- What an arrow falls into does not depend on whether the token behind it is the last one, which
ends the input.

**Proof sketch.** By what stands behind the arrow.  The last token is no number, so that it joins no
arrow, and the machine that looks at it does what the cursor does that sees nothing there. -/
lemma splitArrow?_machine (c : Cursor) :
    c.machine.splitArrow? = some (c.splitArrow?.isSome, (c.splitArrow?.getD c).machine) := by
  simp only [Machine.splitArrow?, machine_tokens, machine_position, getElem?_peek,
    Option.bind_eq_bind, Option.bind_some]
  by_cases harrow : c.peek.kind = .symbol .leftArrow
  · obtain ⟨ts, hahead⟩ := exists_ahead_of_peek (by simp [harrow] : c.peek.kind ≠ .eof)
    have hlength : c.position = c.past.reverse.length := by simp [position]
    have hfirst := tokens_of_ahead hahead
    rw [if_pos harrow, hfirst, hlength, replace?_append]
    rcases ts with _ | ⟨next, more⟩
    · have hjoins : joinsArrow c.peek c.closing = false := by
        simp [joinsArrow, c.closing_kind, Kind.isNumber]
      have hsplit : c.splitArrow? = some { c with
          ahead := [lessAt c.peek.span.firstByte, minusAt c.peek.span.afterFirstByte] } := by
        simp [splitArrow?, hahead, Token.splitArrow?, harrow]
      rw [List.nil_append, getElem?_append_cons, hsplit]
      simp only [Option.bind_some, hjoins, Bool.false_eq_true, if_false, insert?_append]
      simp [machine, tokens, position]
    · rw [List.cons_append, getElem?_append_cons]
      by_cases hjoins : joinsArrow c.peek next = true
      · have hsplit : c.splitArrow? = some { c with
            ahead := lessAt c.peek.span.firstByte :: joined c.peek next :: more } := by
          simp [splitArrow?, hahead, Token.splitArrow?, harrow, hjoins]
        rw [hsplit]
        simp only [Option.bind_some, hjoins, if_true, replace?_append_cons]
        simp [machine, tokens, position]
      · have hsplit : c.splitArrow? = some { c with
            ahead := lessAt c.peek.span.firstByte :: minusAt c.peek.span.afterFirstByte
              :: next :: more } := by
          simp [splitArrow?, hahead, Token.splitArrow?, harrow, hjoins]
        rw [hsplit]
        simp only [Option.bind_some, hjoins, Bool.false_eq_true, if_false, insert?_append]
        simp [machine, tokens, position]
  · rw [if_neg harrow, splitArrow?_eq_none harrow]
    rfl

/-- **The machine does what the cursor does.**  Every instruction has an outcome: its indices are in
range, and its differences do not fall below zero.

**Proof sketch.** One case for each instruction, with the lemma that its part of the machine has.
Only going back needs a hypothesis: the position lies in the buffer, so that the tokens before it
and behind it make up the same buffer. -/
theorem execute_machine (i : Instruction)
    (hrewind : ∀ n, i = .rewind n → n ≤ c.buffer.length) :
    c.machine.execute i = some ((c.execute i).1, (c.execute i).2.machine) := by
  cases i with
  | lookahead n =>
    simp only [Machine.execute, lookahead?_machine]
    rfl
  | advance => exact c.advance?_machine
  | previousSpan =>
    simp only [Machine.execute, previousSpan?_machine]
    rfl
  | checkpoint => rfl
  | rewind n =>
    have hat := standsAt_seek (hrewind n rfl)
    have htokens : (c.seek n).tokens = c.tokens := by
      rw [tokens_eq, hat.buffer, hat.closing, tokens_eq]
    simp only [Machine.execute, execute, machine, htokens, hat.position]
  | splitSign => exact c.splitSign?_machine
  | splitArrow => exact c.splitArrow?_machine

end Cursor

namespace Machine

/-- The machine at the first token of a list is that of the cursor there, if no span ends before it
begins. -/
theorem ofTokens?_eq {tokens : List Token} (h : ∀ t ∈ tokens, t.span.start ≤ t.span.stop) :
    ofTokens? tokens = some (Cursor.ofTokens tokens).machine := by
  rcases List.eq_nil_or_concat tokens with rfl | ⟨before, last, rfl⟩
  · rfl
  · rw [List.concat_eq_append] at h ⊢
    by_cases heof : last.kind = .eof
    · rw [Cursor.ofTokens_append heof]
      simp [ofTokens?, heof, Cursor.machine, Cursor.tokens, Cursor.position]
    · have hle : last.span.start ≤ last.span.stop := h last (by simp)
      have hlast : Cursor.ofTokens (before ++ [last])
          = ⟨[], before ++ [last], .closing last.span, rfl⟩ := by
        simp [Cursor.ofTokens, heof]
      simp [ofTokens?, heof, difference?, hle, hlast, Cursor.machine, Cursor.tokens,
        Cursor.position, Token.closing, Span.closing, Span.length]

/-! ## Buffers grow by splits -/

section Splits

variable {m m' : Machine}

/-- A token at an index parts the buffer. -/
lemma exists_eq_append {tokens : List Token} {i : Nat} {t : Token} (h : tokens[i]? = some t) :
    ∃ before after, tokens = before ++ t :: after ∧ before.length = i := by
  obtain ⟨hi, rfl⟩ := List.getElem?_eq_some_iff.1 h
  exact ⟨tokens.take i, tokens.drop (i + 1), by simp, by simp; omega⟩

/-- The split of a number with a sign splits a token of the buffer.

**Proof sketch.** By cases on whether the index is in range and the token there has a sign.  If so,
what is written is the sign and the number without it, which is a split; if not, nothing is written.
-/
lemma splitsTo_of_splitSign? {b : Bool} (h : m.splitSign? = some (b, m')) :
    SplitsTo m.tokens m'.tokens := by
  rcases m with ⟨tokens, i⟩
  rcases htoken : tokens[i]? with _ | t
  · simp [splitSign?, htoken] at h
  obtain ⟨before, after, rfl, rfl⟩ := exists_eq_append htoken
  by_cases hsigned : t.isSignedNumber = true
  · simp only [splitSign?, htoken, Option.bind_eq_bind, Option.bind_some, if_pos hsigned,
      Cursor.behindFirstByte?_of_isSignedNumber hsigned, Cursor.replace?_append,
      Cursor.insert?_append, Option.pure_def, Option.some.injEq, Prod.mk.injEq] at h
    obtain ⟨-, rfl⟩ := h
    have hsplit : t.splitSign? = some (minusAt t.span.firstByte, t.withoutSign) := by
      simp [Token.splitSign?, hsigned]
    exact .single (.sign before after hsplit)
  · simp only [splitSign?, htoken, Option.bind_eq_bind, Option.bind_some, if_neg hsigned,
      Option.pure_def, Option.some.injEq, Prod.mk.injEq] at h
    obtain ⟨-, rfl⟩ := h
    exact .refl

/-- The split of an arrow splits a token of the buffer.

**Proof sketch.** The token at the index has tokens in front and behind, and the machine replaces it
and puts one in, or replaces the two that are joined. -/
lemma splitsTo_of_splitArrow? {b : Bool} (h : m.splitArrow? = some (b, m')) :
    SplitsTo m.tokens m'.tokens := by
  rcases m with ⟨tokens, i⟩
  rcases htoken : tokens[i]? with _ | arrow
  · simp [splitArrow?, htoken] at h
  obtain ⟨before, after, rfl, rfl⟩ := exists_eq_append htoken
  by_cases harrow : arrow.kind = .symbol .leftArrow
  · rcases after with _ | ⟨next, more⟩
    · simp [splitArrow?, harrow] at h
    simp only [splitArrow?, htoken, Cursor.getElem?_append_cons, Option.bind_eq_bind,
      Option.bind_some, if_pos harrow, Cursor.replace?_append, Option.pure_def] at h
    by_cases hjoins : joinsArrow arrow next = true
    · simp only [if_pos hjoins, Cursor.replace?_append_cons, Option.bind_some, Option.some.injEq,
        Prod.mk.injEq] at h
      obtain ⟨-, rfl⟩ := h
      exact .single (.arrow before (by simp [Token.splitArrow?, harrow, hjoins]))
    · simp only [if_neg hjoins, Cursor.insert?_append, Option.bind_some, Option.some.injEq,
        Prod.mk.injEq] at h
      obtain ⟨-, rfl⟩ := h
      exact .single (.arrow before (by simp [Token.splitArrow?, harrow, hjoins]))
  · simp only [splitArrow?, htoken, Option.bind_eq_bind, Option.bind_some, if_neg harrow,
      Option.pure_def, Option.some.injEq, Prod.mk.injEq] at h
    obtain ⟨-, rfl⟩ := h
    exact .refl

/-- An instruction leaves the buffer as it is, or with a token of it split.

**Proof sketch.** By cases on the instruction.  All but the two splits leave the tokens as they are.
-/
lemma splitsTo_of_execute {i : Instruction} {a : i.Answer} (h : m.execute i = some (a, m')) :
    SplitsTo m.tokens m'.tokens := by
  cases i with
  | lookahead n | previousSpan =>
    obtain ⟨_, -, heq⟩ := Option.map_eq_some_iff.1 h
    obtain ⟨-, rfl⟩ := Prod.mk.inj heq
    exact .refl
  | advance =>
    obtain ⟨last, -, h⟩ := Option.bind_eq_some_iff.1 h
    obtain ⟨token, -, h⟩ := Option.bind_eq_some_iff.1 h
    obtain ⟨-, rfl⟩ := Prod.mk.inj (Option.some.inj h)
    split <;> exact .refl
  | checkpoint | rewind n =>
    obtain ⟨-, rfl⟩ := Prod.mk.inj (Option.some.inj h)
    exact .refl
  | splitSign => exact splitsTo_of_splitSign? h
  | splitArrow => exact splitsTo_of_splitArrow? h

/-- Instructions, one after the other, leave the buffer with splits. -/
theorem splitsTo_of_executeAll {instructions : List Instruction} :
    ∀ {m m' : Machine}, m.executeAll instructions = some m' → SplitsTo m.tokens m'.tokens := by
  induction instructions with
  | nil =>
    intro m m' h
    obtain rfl := Option.some.inj h
    exact .refl
  | cons i is ih =>
    intro m m' h
    obtain ⟨⟨a, m₁⟩, h₁, h₂⟩ := Option.bind_eq_some_iff.1 h
    exact (splitsTo_of_execute h₁).trans (ih h₂)

/-- Instructions are executed part by part. -/
lemma executeAll_append (is js : List Instruction) (m : Machine) :
    m.executeAll (is ++ js) = (m.executeAll is).bind (executeAll js) := by
  induction is generalizing m with
  | nil => rfl
  | cons i is ih =>
    simp only [List.cons_append, executeAll]
    rcases m.execute i with _ | ⟨a, m₁⟩
    · rfl
    · exact ih m₁

end Splits

end Machine

end RakeLang
