import RakeLang.Proofs.Running.Texts

/-!
# Runs of programs

A run follows a program from one instruction to the next, on a buffer that is read by index.  It is
a finite row of instructions, each of which has an outcome.  So a program that goes on for ever has
no run, and neither has one that uses an index out of range.  What the next instruction is shows in
the text of the program, so that no program has two runs from the same machine.

## Main definitions

* `RakeLang.Program.Run` — runs.

## Main results

* `RakeLang.Program.Run.executeAll` — a run is executed by the machine.
* `RakeLang.Program.Run.unique` — a program has one run.
-/

set_option relaxedAutoImplicit false
set_option autoImplicit false

namespace RakeLang

namespace Program

variable {α : Type}

/-- The run of a program on a machine: the instructions that are executed, one after the other, the
value or the fault at their end, and the machine that they leave. -/
inductive Run : {α : Type} → Program α → Machine → List Instruction → Except Fault α → Machine →
    Prop
  /-- A value is answered at once. -/
  | pure {α : Type} (a : α) (m : Machine) : Run (.pure a) m [] (.ok a) m
  /-- A fault ends the run. -/
  | throw {α : Type} (fault : Fault) (m : Machine) :
    Run (.throw fault : Program α) m [] (.error fault) m
  /-- An instruction is executed, if it has an outcome. -/
  | perform {i : Instruction} {a : i.Answer} {m m' : Machine} (h : m.execute i = some (a, m')) :
    Run (.perform i) m [i] (.ok a) m'
  /-- A program goes on with the answer of another one. -/
  | bind {α β : Type} {p : Program α} {f : α → Program β} {a : α} {r : Except Fault β}
    {is js : List Instruction} {m m₁ m₂ : Machine} (hp : Run p m is (.ok a) m₁)
    (hf : Run (f a) m₁ js r m₂) : Run (.bind p f) m (is ++ js) r m₂
  /-- Behind a fault nothing is executed. -/
  | refused {α β : Type} {p : Program α} {f : α → Program β} {fault : Fault}
    {is : List Instruction} {m m₁ : Machine} (hp : Run p m is (.error fault) m₁) :
    Run (.bind p f) m is (.error fault) m₁
  /-- The end of a program is answered. -/
  | caught {α : Type} {p : Program α} {r : Except Fault α} {is : List Instruction}
    {m m₁ : Machine} (hp : Run p m is r m₁) : Run (.caught p) m is (.ok r) m₁
  /-- A repetition is a round and the repetition behind it. -/
  | many {α : Type} {step : Program (Option α)} {r : Except Fault (List α)} {is : List Instruction}
    {m m₁ : Machine} (h : Run (manyWith step (.many step)) m is r m₁) : Run (.many step) m is r m₁
  /-- A reader that is named is its text. -/
  | invoke {α : Type} {procedure : Procedure α} {r : Except Fault α} {is : List Instruction}
    {m m₁ : Machine} (h : Run procedure.body m is r m₁) : Run (.invoke procedure) m is r m₁

namespace Run

/-- The instructions of a run lead the machine from its beginning to its end. -/
theorem executeAll {p : Program α} {m m' : Machine} {is : List Instruction} {r : Except Fault α}
    (h : Run p m is r m') : m.executeAll is = some m' := by
  induction h with
  | pure | throw => rfl
  | perform h =>
    rw [Machine.executeAll, h]
    rfl
  | bind _ _ ih₁ ih₂ => rw [Machine.executeAll_append, ih₁, Option.bind_some, ih₂]
  | refused _ ih | caught _ ih | many _ ih | invoke _ ih => exact ih

/-- What a run of a program is made of, by the text of the program. -/
def Parts : {α : Type} → Program α → Machine → List Instruction → Except Fault α → Machine → Prop
  | _, .pure a, m, is, r, m' => is = [] ∧ r = .ok a ∧ m' = m
  | _, .throw fault, m, is, r, m' => is = [] ∧ r = .error fault ∧ m' = m
  | _, .perform i, m, is, r, m' => ∃ a, m.execute i = some (a, m') ∧ is = [i] ∧ r = .ok a
  | _, .bind p f, m, is, r, m' =>
    (∃ a m₁ js ks, Run p m js (.ok a) m₁ ∧ Run (f a) m₁ ks r m' ∧ is = js ++ ks)
      ∨ ∃ fault, Run p m is (.error fault) m' ∧ r = .error fault
  | _, .caught p, m, is, r, m' => ∃ outcome, Run p m is outcome m' ∧ r = .ok outcome
  | _, .many step, m, is, r, m' => Run (manyWith step (.many step)) m is r m'
  | _, .invoke procedure, m, is, r, m' => Run procedure.body m is r m'

/-- A run is made of the parts that the text of its program asks for. -/
lemma parts {p : Program α} {m m' : Machine} {is : List Instruction} {r : Except Fault α}
    (h : Run p m is r m') : Parts p m is r m' := by
  cases h with
  | pure | throw => exact ⟨rfl, rfl, rfl⟩
  | perform h => exact ⟨_, h, rfl, rfl⟩
  | bind hp hf => exact .inl ⟨_, _, _, _, hp, hf, rfl⟩
  | refused hp => exact .inr ⟨_, hp, rfl⟩
  | caught hp => exact ⟨_, hp, rfl⟩
  | many h | invoke h => exact h

/-- **A program has one run** from a machine: the instructions, the end and the machine that is left
are determined.

**Proof sketch.** Induction on the one run.  The text of the program tells what the other run is
made of, and the answer of an instruction is determined by the machine. -/
theorem unique {p : Program α} {m m₁ : Machine} {is : List Instruction} {r : Except Fault α}
    (h : Run p m is r m₁) : ∀ {js : List Instruction} {r' : Except Fault α} {m₂ : Machine},
      Run p m js r' m₂ → js = is ∧ r' = r ∧ m₂ = m₁ := by
  induction h with
  | pure | throw => exact fun h' => h'.parts
  | perform h =>
    intro js r' m₂ h'
    obtain ⟨a', hexecute, rfl, rfl⟩ := h'.parts
    obtain ⟨rfl, rfl⟩ := Prod.mk.inj (Option.some.inj (hexecute.symm.trans h))
    exact ⟨rfl, rfl, rfl⟩
  | bind _ _ ih₁ ih₂ =>
    intro js r' m₂ h'
    obtain ⟨a', m₁', js', ks', hp', hf', rfl⟩ | ⟨fault, hp', rfl⟩ := h'.parts
    · obtain ⟨rfl, ha, rfl⟩ := ih₁ hp'
      obtain rfl := Except.ok.inj ha
      obtain ⟨rfl, rfl, rfl⟩ := ih₂ hf'
      exact ⟨rfl, rfl, rfl⟩
    · cases (ih₁ hp').2.1
  | refused _ ih =>
    intro js r' m₂ h'
    obtain ⟨a', m₁', js', ks', hp', -, rfl⟩ | ⟨fault, hp', rfl⟩ := h'.parts
    · cases (ih hp').2.1
    · obtain ⟨rfl, hfault, rfl⟩ := ih hp'
      obtain rfl := Except.error.inj hfault
      exact ⟨rfl, rfl, rfl⟩
  | caught _ ih =>
    intro js r' m₂ h'
    obtain ⟨outcome, hp', rfl⟩ := h'.parts
    obtain ⟨rfl, rfl, rfl⟩ := ih hp'
    exact ⟨rfl, rfl, rfl⟩
  | many _ ih | invoke _ ih => exact fun h' => ih h'.parts

end Run

end Program

end RakeLang
