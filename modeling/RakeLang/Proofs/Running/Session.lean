import RakeLang.Proofs.Running.SourceFile

/-!
# Runs of operations

Whatever is done to a buffer of tokens, one operation after the other, every one of them comes to
its end, uses no index that is out of range and meets no internal fault.  The tokens need not come
from a text: the end of the input may stand among them, a number may have any text, and reading goes
on wherever a refused reading stopped.

An operation is a program here, so that its run is the run of its text: of what it looks at, of what
it tries and gives up, and of its rounds without a bound.

## Main definitions

* `RakeLang.Operation.program`, `RakeLang.Operation.programs` — operations as programs.
* `RakeLang.Operation.reader`, `RakeLang.Operation.readers` — operations as readers.
* `RakeLang.Session.Runs` — a program and a reader lead from one session to another.

## Main results

* `RakeLang.Session.runs_program`, `RakeLang.Session.runs_programs` — one operation, and any row of
  them.
* `RakeLang.operations_run` — operations on the buffer of any tokens.
-/

set_option relaxedAutoImplicit false
set_option autoImplicit false

namespace RakeLang

open Token

/-! ## Operations as programs and as readers -/

/-- The fault of an outcome, if it is one. -/
def faultsOf {α : Type} : Except Fault α → List Fault
  | .ok _ => []
  | .error fault => [fault]

/-- An instruction, which answers the marks behind it and no fault. -/
def Program.marking (i : Instruction) (marks : i.Answer → List Nat) :
    Program (List Nat × List Fault) := do
  let a ← perform i
  return (marks a, [])

/-- A reading that answers the marks behind it, and its fault if it is refused. -/
def Program.telling {α : Type} (p : Program α) (marks : List Nat) :
    Program (List Nat × List Fault) := do
  let outcome ← caught p
  return (marks, faultsOf outcome)

/-- An instruction as a reader that answers the marks behind it, and no fault. -/
def Parser.marking (i : Instruction) (marks : i.Answer → List Nat) :
    Parser (List Nat × List Fault) := do
  let a ← perform i
  return (marks a, [])

/-- A reading that answers the marks behind it, and its fault if it is refused. -/
def Parser.telling {α : Type} (p : Parser α) (marks : List Nat) :
    Parser (List Nat × List Fault) := do
  let outcome ← caught p
  return (marks, faultsOf outcome)

namespace Operation

/-- An operation as a program that answers the marks behind it and the faults that it met. -/
def program (marks : List Nat) : Operation → Program (List Nat × List Fault)
  | .advance => .marking .advance fun _ => marks
  | .lookahead n => .marking (.lookahead n) fun _ => marks
  | .checkpoint => .marking .checkpoint fun position : Nat => position :: marks
  | .rewind mark =>
    match marks[mark]? with
    | none => return (marks, [])
    | some n => .marking (.rewind n) fun _ => marks
  | .splitSign => .marking .splitSign fun _ => marks
  | .splitArrow => .marking .splitArrow fun _ => marks
  | .expression => Program.expression.telling marks
  | .predicate => Program.predicate.telling marks
  | .dataType => Program.dataType.telling marks
  | .sourceFile mode => do
    let (_, faults) ← Program.sourceFile mode
    return (marks, faults)

/-- Operations as a program, one after the other. -/
def programs (marks : List Nat) : List Operation → Program (List Nat × List Fault)
  | [] => return (marks, [])
  | operation :: operations => do
    let (marks, faults) ← operation.program marks
    let (marks, more) ← programs marks operations
    return (marks, faults ++ more)

/-- An operation as a reader that answers the marks behind it and the faults that it met. -/
def reader (marks : List Nat) : Operation → Parser (List Nat × List Fault)
  | .advance => .marking .advance fun _ => marks
  | .lookahead n => .marking (.lookahead n) fun _ => marks
  | .checkpoint => .marking .checkpoint fun position : Nat => position :: marks
  | .rewind mark =>
    match marks[mark]? with
    | none => return (marks, [])
    | some n => .marking (.rewind n) fun _ => marks
  | .splitSign => .marking .splitSign fun _ => marks
  | .splitArrow => .marking .splitArrow fun _ => marks
  | .expression => Parser.expression.telling marks
  | .predicate => Parser.predicate.telling marks
  | .dataType => Parser.dataType.telling marks
  | .sourceFile mode => do
    let (_, faults) ← Parser.sourceFile mode
    return (marks, faults)

/-- Operations as a reader, one after the other. -/
def readers (marks : List Nat) : List Operation → Parser (List Nat × List Fault)
  | [] => return (marks, [])
  | operation :: operations => do
    let (marks, faults) ← operation.reader marks
    let (marks, more) ← readers marks operations
    return (marks, faults ++ more)

end Operation

/-! ## Runs -/

/-- From the session `s` to the session `s'` lead the reader `q`, at the cursor, and the program
`p`, on the machine of the cursor.  Both meet the same faults, of which none is internal. -/
def Session.Runs (s s' : Session) (p : Program (List Nat × List Fault))
    (q : Parser (List Nat × List Fault)) : Prop :=
  ∃ faults is, q s.cursor = .ok (s'.marks, faults) s'.cursor
    ∧ p.Run s.cursor.machine is (.ok (s'.marks, faults)) s'.cursor.machine
    ∧ ∀ fault ∈ faults, fault.isInternal = false

/-- No fault of an attempt is internal.

**Proof sketch.** Induction on the bound.  An attempt is a definition that is read, and the fault of
a definition is not internal, since the run of its text meets the same fault. -/
lemma isInternal_of_attemptsUpTo {mode : ErrorMode} (n : Nat) :
    ∀ c, ∀ fault ∈ (attemptsUpTo mode n c).1.filterMap Attempt.fault?,
      fault.isInternal = false := by
  induction n with
  | zero => simp [attemptsUpTo]
  | succ n ih =>
    intro c fault
    rw [attemptsUpTo]
    split
    · simp
    rcases hdef : Parser.definition c with ⟨d, behind⟩ | ⟨other, behind⟩
    · exact ih behind fault
    have hother : other.isInternal = false :=
      ((definition_executes.executed c (Nat.lt_succ_self _)).runs_error hdef).2.2
    cases mode with
    | failFast =>
      intro hfault
      obtain rfl : fault = other := by simpa [Attempt.fault?] using hfault
      exact hother
    | collectAll =>
      simp only [List.filterMap_cons_some (show Attempt.fault? ⟨c.peek, .error other⟩ = some other
        from rfl), List.mem_cons]
      rintro (rfl | hfault)
      · exact hother
      · exact ih _ fault hfault

namespace Session

variable {s : Session} {tokens : List Token} {closing : Token}

/-- A single instruction has an outcome on the machine. -/
lemma runs_marking (i : Instruction)
    (hrewind : ∀ n, i = .rewind n → n ≤ s.cursor.buffer.length) (marks : i.Answer → List Nat) :
    s.Runs ⟨(s.cursor.execute i).2, marks (s.cursor.execute i).1⟩ (.marking i marks)
      (.marking i marks) :=
  ⟨[], _, rfl, (Program.Run.perform (s.cursor.execute_machine i hrewind)).bind (.pure _ _),
    by simp⟩

/-- A reading comes to its end, whether it is refused or not. -/
lemma runs_telling {α : Type} {p : Program α} {q : Parser α} (h : Executed p q s.cursor) :
    s.Runs { s with cursor := q.leaves s.cursor } (p.telling s.marks) (q.telling s.marks) := by
  rcases hq : q s.cursor with ⟨a, c⟩ | ⟨fault, c⟩
  · obtain ⟨⟨is, hrun⟩, -⟩ := h.runs_ok hq
    rw [show q.leaves s.cursor = c by rw [Parser.leaves, hq]]
    exact ⟨[], _, Parser.bind_of_ok (Parser.caught_of_ok hq), hrun.caught.bind (.pure _ _), by simp⟩
  · obtain ⟨⟨is, hrun⟩, -, hfault⟩ := h.runs_error hq
    rw [show q.leaves s.cursor = c by rw [Parser.leaves, hq]]
    exact ⟨[fault], _, Parser.bind_of_ok (Parser.caught_of_error hq), hrun.caught.bind (.pure _ _),
      by simp [hfault]⟩

/-- A reading of a source file comes to its end. -/
lemma runs_sourceFile (mode : ErrorMode) :
    s.Runs (s.apply (.sourceFile mode)) (Operation.program s.marks (.sourceFile mode))
      (Operation.reader s.marks (.sourceFile mode)) := by
  have h : Executed (Program.sourceFile mode) (Parser.sourceFile mode) s.cursor :=
    .here (Nat.lt_succ_self _)
  obtain ⟨⟨is, hrun⟩, -⟩ := h.runs_ok (Parser.sourceFile_eq mode s.cursor)
  exact ⟨_, _, rfl, hrun.bind (.pure _ _), isInternal_of_attemptsUpTo _ s.cursor⟩

/-- **An operation comes to its end** in every sound session.  That the session is sound is needed
where it goes back: its marks lie in the buffer.

**Proof sketch.** By cases on the operation.  The instructions of a cursor run by themselves, going
back to a mark because a sound session has its marks in the buffer.  The readers of expressions,
predicates and types run from here within the bound `remaining + 1`, and the reader of a file by its
own lemma. -/
theorem runs_program (h : s.Sound tokens closing) (operation : Operation) :
    s.Runs (s.apply operation) (operation.program s.marks) (operation.reader s.marks) := by
  cases operation with
  | advance => exact runs_marking .advance (by simp) fun _ => s.marks
  | lookahead n => exact runs_marking (.lookahead n) (by simp) fun _ => s.marks
  | checkpoint => exact runs_marking .checkpoint (by simp) fun position : Nat => position :: s.marks
  | rewind mark =>
    rcases hmark : s.marks[mark]? with _ | n
    · simp only [Operation.program, Operation.reader, Session.apply, hmark]
      exact ⟨[], _, rfl, .pure _ _, by simp⟩
    · simp only [Operation.program, Operation.reader, Session.apply, hmark]
      refine runs_marking (.rewind n) (fun k hk => ?_) fun _ => s.marks
      obtain rfl := Instruction.rewind.inj hk
      exact h.marks n (List.mem_of_getElem? hmark)
  | splitSign => exact runs_marking .splitSign (by simp) fun _ => s.marks
  | splitArrow => exact runs_marking .splitArrow (by simp) fun _ => s.marks
  | expression | predicate | dataType => exact runs_telling (.here (Nat.lt_succ_self _))
  | sourceFile mode => exact runs_sourceFile mode

/-- **Operations come to their ends**, one after the other.

**Proof sketch.** Induction on the operations.  Each of them leaves a sound session behind, from
which the others go on. -/
theorem runs_programs (operations : List Operation) :
    ∀ {s : Session}, s.Sound tokens closing → s.Runs (s.run operations)
      (Operation.programs s.marks operations) (Operation.readers s.marks operations) := by
  induction operations with
  | nil => exact fun _ => ⟨[], [], rfl, .pure _ _, by simp⟩
  | cons operation operations ih =>
    intro s h
    obtain ⟨faults, is, hq, hrun, hfaults⟩ := runs_program h operation
    obtain ⟨more, js, hq', hrun', hmore⟩ := ih (h.apply operation)
    refine ⟨faults ++ more, _, ?_, hrun.bind (hrun'.bind (.pure _ _)), ?_⟩
    · exact (Parser.bind_of_ok hq).trans (Parser.bind_of_ok hq')
    · exact fun fault hfault => (List.mem_append.1 hfault).elim (hfaults fault) (hmore fault)

/-- In a sound session every instruction has an outcome, which is that of the cursor. -/
lemma Sound.execute (h : s.Sound tokens closing) (i : Instruction)
    (hrewind : ∀ n, i = .rewind n → n ∈ s.marks) :
    s.cursor.machine.execute i
      = some ((s.cursor.execute i).1, (s.cursor.execute i).2.machine) :=
  s.cursor.execute_machine i fun n hn => h.marks n (hrewind n hn)

end Session

/-! ## Buffers -/

/-- **No buffer of tokens breaks a reader.**  Let no token end before it begins; its kind, its text
and its place may be any.  Whatever is done from the first token on, and however often,

* the buffer with its index is built without a difference below zero;
* the program of the operations, which has no bounds, has one run on it.  In the run every
  instruction has an outcome, with all indices in range and no difference below zero, and at its end
  stand the marks and the faults that the readers answer, and the cursor that they leave;
* behind them the index is one of the buffer, and every instruction has an outcome, which is that of
  the cursor, if it goes back to no other place than one that was marked;
* none of the faults that were met is internal.  A token is ranked as an operator if and only if it
  stands for one, and by its level.

**Proof sketch.** The session is sound at every time (`Session.Sound.run`), which gives the outcomes
of single instructions; every operation has a run (`Session.runs_programs`), and a program has no
two of them (`Program.Run.unique`). -/
theorem operations_run {tokens : List Token} (h : ∀ t ∈ tokens, t.span.start ≤ t.span.stop)
    (operations : List Operation) :
    let s := Session.run ⟨.ofTokens tokens, []⟩ operations
    ∃ m is faults, Machine.ofTokens? tokens = some m
      ∧ (Operation.programs [] operations).Run m is (.ok (s.marks, faults)) s.cursor.machine
      ∧ (∀ js r m', (Operation.programs [] operations).Run m js r m' →
          js = is ∧ r = .ok (s.marks, faults) ∧ m' = s.cursor.machine)
      ∧ m.executeAll is = some s.cursor.machine
      ∧ Operation.readers [] operations (.ofTokens tokens) = .ok (s.marks, faults) s.cursor
      ∧ s.cursor.machine.position < s.cursor.machine.tokens.length
      ∧ (∀ i : Instruction, (∀ n, i = .rewind n → n ∈ s.marks) →
          s.cursor.machine.execute i
            = some ((s.cursor.execute i).1, (s.cursor.execute i).2.machine))
      ∧ (∀ fault ∈ faults, fault.isInternal = false)
      ∧ ∀ kind : Kind, kind.precedence? = kind.binaryOp?.map fun op => op.level.tightness := by
  intro s
  have hstart : Session.Sound (Cursor.ofTokens tokens).buffer (Cursor.ofTokens tokens).closing
      ⟨.ofTokens tokens, []⟩ := ⟨.refl, rfl, by simp⟩
  have hsound : s.Sound (Cursor.ofTokens tokens).buffer (Cursor.ofTokens tokens).closing :=
    Session.Sound.run operations hstart
  obtain ⟨faults, is, hreaders, hrun, hfaults⟩ := Session.runs_programs operations hstart
  refine ⟨_, is, faults, Machine.ofTokens?_eq h, hrun, fun js r m' hother => hrun.unique hother,
    hrun.executeAll, hreaders, ?_, hsound.execute, hfaults, Kind.precedence?_eq⟩
  simp only [Cursor.machine_position, Cursor.machine_tokens, Cursor.length_tokens]
  omega

/-- A number with two signs, an end of the input in the middle and a word with the text of an arrow,
where reading goes on behind what was refused. -/
theorem operations_run_signs :
    let tokens : List Token := [⟨.ident, "x", ⟨1, 1, 0, 1⟩⟩, ⟨.int, "--5", ⟨1, 2, 1, 4⟩⟩,
      ⟨.eof, "", ⟨1, 5, 4, 4⟩⟩, ⟨.keyword .rake, "<-", ⟨1, 5, 4, 6⟩⟩]
    let operations : List Operation := [.expression, .sourceFile .failFast, .advance,
      .sourceFile .collectAll, .predicate]
    let s := Session.run ⟨.ofTokens tokens, []⟩ operations
    (∀ t ∈ tokens, t.span.start ≤ t.span.stop)
      ∧ ∃ is faults, (Operation.programs [] operations).Run
          ⟨tokens ++ [⟨.eof, "", ⟨1, 7, 6, 6⟩⟩], 0⟩ is (.ok (s.marks, faults)) s.cursor.machine
        ∧ Machine.executeAll is ⟨tokens ++ [⟨.eof, "", ⟨1, 7, 6, 6⟩⟩], 0⟩ = some s.cursor.machine
        ∧ ∀ fault ∈ faults, fault.isInternal = false := by
  intro tokens operations s
  have hspans : ∀ t ∈ tokens, t.span.start ≤ t.span.stop := by simp [tokens]
  obtain ⟨m, is, faults, hm, hrun, -, hexecuted, -, -, -, hfaults, -⟩ :=
    operations_run hspans operations
  have hmachine : Machine.ofTokens? tokens = some ⟨tokens ++ [⟨.eof, "", ⟨1, 7, 6, 6⟩⟩], 0⟩ := rfl
  obtain rfl := Option.some.inj (hmachine.symm.trans hm)
  exact ⟨hspans, is, faults, hrun, hexecuted, hfaults⟩

end RakeLang
