import RakeLang.Proofs.Settling.Expression

/-!
# Precedence climbing

`Parser.binary` reads a chain of operands level by level: each level is a loop over the operators of
that level, whose operands are chains of the tighter levels.  Precedence climbing has one loop for
all levels instead.  It takes the least precedence that an operator must have; a pass of the loop
reads an operator that binds at least as tightly, and behind it a chain whose operators bind tighter
than that operator does.

Both read the same trees from the same tokens, with the same splits and the same faults.  The one
difference is at the tightest end: the loop looks for an operator behind an operand, and splits the
token there, even where no level is left, where `Parser.binary` reads the operand and no more.  So
`Parser.climb` is a chain with the token behind it split.

## Main definitions

* `RakeLang.Level.atLeast` — the levels from some tightness on.
* `RakeLang.Parser.climb` — a chain of operands, with the token behind it split.
* `RakeLang.Parser.climbOnce` — one pass of the loop of precedence climbing.

## Main results

* `RakeLang.Parser.climb_eq` — a chain is an operand and the loop behind it.
* `RakeLang.Parser.climb_eq_binary` — where a level is left, the token behind a chain is split
  anyway.
-/

set_option relaxedAutoImplicit false
set_option autoImplicit false

namespace RakeLang

open Token

/-! ## Levels by their tightness -/

/-- The levels whose operators bind at least as tightly as `least`, the loosest first. -/
def Level.atLeast (least : Nat) : List Level := all.filter (least ≤ ·.tightness)

/-- A level is listed if it is tight enough. -/
@[simp] lemma Level.mem_atLeast {least : Nat} {level : Level} :
    level ∈ atLeast least ↔ least ≤ level.tightness := by
  simp [atLeast, level.mem_all]

/-- Every level has a tightness between one and eight. -/
lemma Level.tightness_mem (level : Level) : 1 ≤ level.tightness ∧ level.tightness ≤ 8 := by
  cases level <;> decide

/-- The levels from the tightness of a level on are that level and the tighter ones. -/
lemma Level.atLeast_tightness (level : Level) :
    atLeast level.tightness = level :: atLeast (level.tightness + 1) := by
  cases level <;> rfl

/-- Each tightness between one and eight is that of a level. -/
lemma Level.exists_tightness {least : Nat} (hpos : 1 ≤ least) (hle : least ≤ 8) :
    ∃ level : Level, level.tightness = least := by
  obtain rfl | rfl | rfl | rfl | rfl | rfl | rfl | rfl : least = 1 ∨ least = 2 ∨ least = 3
      ∨ least = 4 ∨ least = 5 ∨ least = 6 ∨ least = 7 ∨ least = 8 := by omega
  exacts [⟨pipe, rfl⟩, ⟨or, rfl⟩, ⟨and, rfl⟩, ⟨compare, rfl⟩, ⟨additive, rfl⟩,
    ⟨multiplicative, rfl⟩, ⟨shift, rfl⟩, ⟨cross, rfl⟩]

/-- Two levels that bind equally tightly are the same. -/
lemma Level.tightness_injective {level level' : Level} (h : level.tightness = level'.tightness) :
    level = level' := by
  cases level <;> cases level' <;> first | rfl | cases h

/-- No level binds tighter than the eighth. -/
lemma Level.atLeast_eq_nil {least : Nat} (h : 8 < least) : atLeast least = [] := by
  refine List.eq_nil_iff_forall_not_mem.2 fun level hmem => ?_
  have hle := mem_atLeast.1 hmem
  have := level.tightness_mem
  omega

namespace Parser

/-! ## The loop -/

/-- Reads a chain of operands with the operators that bind at least as tightly as `least`, and
splits the token behind it. -/
def climb (operand : Parser Expression) (least : Nat) : Parser Expression := do
  let e ← binary operand (Level.atLeast least)
  modify Cursor.splitInfix
  return e

/-- Reads a binary operator that binds at least as tightly as `least`, if one stands at the cursor
behind an operand, and answers how tightly it does.  A token that binds should stand for an
operator. -/
def operatorFrom? (least : Nat) : Parser (Option (BinaryOp × Nat)) := do
  modify Cursor.splitInfix
  let kind ← peekKind
  match kind.precedence? with
  | none => return none
  | some rank =>
    if rank < least then return none
    else
      let token ← advance
      match kind.binaryOp? with
      | some op => return some (op, rank)
      | none => throw (.unresolvedOperator kind.describe token.span)

/-- One pass of the loop of precedence climbing: an operator that binds at least as tightly as
`least`, and a chain of the operators that bind tighter than that one. -/
def climbOnce (operand : Parser Expression) (least : Nat) :
    Parser (Option (BinaryOp × Expression)) := do
  match ← operatorFrom? least with
  | none => return none
  | some (op, rank) =>
    let rhs ← climb operand (rank + 1)
    return some (op, rhs)

/-! ### The outcomes of a pass -/

section Pass

variable {operand : Parser Expression} {least : Nat} {level : Level} {op : BinaryOp} {c : Cursor}

/-- Behind an operand, either no operator binds tightly enough or one does. -/
lemma beyond_or_operator (least : Nat) (c : Cursor) :
    c.Beyond (Level.atLeast least) ∨
      ∃ op, c.splitInfix.peek.kind.binaryOp? = some op ∧ least ≤ op.level.tightness := by
  refine or_iff_not_imp_right.2 fun h op hop hmem => h ⟨op, hop, Level.mem_atLeast.1 hmem⟩

/-- Where no operator binds tightly enough, nothing is read behind the split. -/
lemma operatorFrom?_of_beyond (h : c.Beyond (Level.atLeast least)) :
    operatorFrom? least c = .ok none c.splitInfix := by
  rw [operatorFrom?, bind_of_ok (p := modify Cursor.splitInfix) rfl, bind_of_ok (p := peekKind) rfl,
    Kind.precedence?_eq]
  rcases hop : c.splitInfix.peek.kind.binaryOp? with _ | op
  · rfl
  · have hlt : op.level.tightness < least := by simpa using h op hop
    exact congrFun (if_pos hlt) c.splitInfix

/-- Where an operator binds tightly enough, it is read: every token that binds stands for one. -/
lemma operatorFrom?_of_operator (hop : c.splitInfix.peek.kind.binaryOp? = some op)
    (hle : least ≤ op.level.tightness) :
    operatorFrom? least c = .ok (some (op, op.level.tightness)) c.splitInfix.advance := by
  rw [operatorFrom?, bind_of_ok (p := modify Cursor.splitInfix) rfl, bind_of_ok (p := peekKind) rfl,
    Kind.precedence?_eq, hop]
  exact congrFun (if_neg hle.not_gt) c.splitInfix

/-- A pass without an operator that binds tightly enough ends the loop. -/
lemma climbOnce_of_beyond (h : c.Beyond (Level.atLeast least)) :
    climbOnce operand least c = .ok none c.splitInfix := by
  rw [climbOnce, bind_of_ok (operatorFrom?_of_beyond h)]
  rfl

/-- A pass with an operator that binds tightly enough goes on with the chain behind it. -/
lemma climbOnce_of_operator (hop : c.splitInfix.peek.kind.binaryOp? = some op)
    (hle : least ≤ op.level.tightness) :
    climbOnce operand least c
      = (climb operand (op.level.tightness + 1) >>= fun rhs => pure (some (op, rhs)))
          c.splitInfix.advance := by
  rw [climbOnce, bind_of_ok (operatorFrom?_of_operator hop hle)]

/-- A pass begins with a split, so that a split before it changes nothing. -/
lemma climbOnce_splitInfix (operand : Parser Expression) (least : Nat) (c : Cursor) :
    climbOnce operand least c.splitInfix = climbOnce operand least c := by
  have hmodify : (modify Cursor.splitInfix : Parser Unit) c.splitInfix
      = (modify Cursor.splitInfix : Parser Unit) c := by
    change EStateM.Result.ok () c.splitInfix.splitInfix = .ok () c.splitInfix
    rw [c.splitInfix_splitInfix]
  exact bind_at _ (bind_at _ hmodify)

/-- A pass that answers nothing found no operator that binds tightly enough. -/
lemma climbOnce_eq_none {c₁ : Cursor} (h : climbOnce operand least c = .ok none c₁) :
    c.Beyond (Level.atLeast least) ∧ c₁ = c.splitInfix := by
  obtain hbeyond | ⟨op, hop, hle⟩ := beyond_or_operator least c
  · rw [climbOnce_of_beyond hbeyond] at h
    obtain ⟨-, rfl⟩ := EStateM.Result.ok.inj h
    exact ⟨hbeyond, rfl⟩
  · rw [climbOnce_of_operator hop hle] at h
    obtain ⟨rhs, c₂, -, hrhs⟩ := bind_eq_ok.1 h
    cases hrhs

/-- A split changes nothing of what remains. -/
lemma remaining_splitInfix (c : Cursor) : c.splitInfix.remaining = c.remaining := by
  rw [c.reads_splitInfix.remaining, countPieces_nil, Nat.zero_add]

/-- Behind an operator there is less. -/
lemma remaining_advance_operator (hop : c.splitInfix.peek.kind.binaryOp? = some op) :
    c.splitInfix.advance.remaining < c.remaining := by
  rw [← remaining_splitInfix c]
  exact (remaining_advance c.splitInfix).2 fun heof => by simp [heof, Kind.binaryOp?] at hop

/-- A split leaves what remains as it is. -/
instance : Lowers (modify Cursor.splitInfix : Parser Unit) where
  le c u b h := by
    obtain ⟨-, rfl⟩ := EStateM.Result.ok.inj h
    exact (remaining_splitInfix c).le

/-- Behind an operator that was read there is less. -/
lemma operatorFrom?_some_lt {a : BinaryOp × Nat} {c₁ : Cursor}
    (h : operatorFrom? least c = .ok (some a) c₁) : c₁.remaining < c.remaining := by
  obtain hbeyond | ⟨op, hop, hle⟩ := beyond_or_operator least c
  · rw [operatorFrom?_of_beyond hbeyond] at h
    cases h
  · rw [operatorFrom?_of_operator hop hle] at h
    obtain ⟨-, rfl⟩ := EStateM.Result.ok.inj h
    exact remaining_advance_operator hop

variable [Lowers operand]

/-- A chain that is climbed takes from what is ahead. -/
instance : Lowers (climb operand least) := by
  have := lowers_binary operand (Level.atLeast least)
  unfold climb
  infer_instance

/-- A pass that answers something reads an operator. -/
lemma climbOnce_some_lt {a : BinaryOp × Expression} {c₁ : Cursor}
    (h : climbOnce operand least c = .ok (some a) c₁) : c₁.remaining < c.remaining := by
  obtain hbeyond | ⟨op, hop, hle⟩ := beyond_or_operator least c
  · rw [climbOnce_of_beyond hbeyond] at h
    cases h
  · rw [climbOnce_of_operator hop hle] at h
    obtain ⟨rhs, c₂, hrhs, hpure⟩ := bind_eq_ok.1 h
    obtain ⟨-, rfl⟩ := EStateM.Result.ok.inj hpure
    exact (Lowers.le _ rhs c₂ hrhs).trans_lt (remaining_advance_operator hop)

/-- Every pass of the loop takes a token. -/
instance : Rounds (climbOnce operand least) where
  le c o c₁ h := by
    rcases o with _ | a
    · obtain ⟨-, rfl⟩ := climbOnce_eq_none h
      exact (remaining_splitInfix c).le
    · exact (climbOnce_some_lt h).le
  some_lt c a c₁ h := climbOnce_some_lt h
  at_end c hc := by
    have heof := Cursor.peek_kind_of_ahead_nil hc
    have hsplit : c.splitInfix = c :=
      Cursor.splitInfix_of_peek (by simp [isSignedNumber, Kind.isNumber, heof]) (by simp [heof])
    rw [climbOnce_of_beyond (Cursor.beyond_of_ahead_nil hc), hsplit]

end Pass

/-! ### The loop ends where no operator stands -/

section Loop

variable {operand : Parser Expression} [Lowers operand] {least : Nat}

/-- The loop ends where no operator binds tightly enough, behind the last split. -/
lemma many_climbOnce_ends {steps : List (BinaryOp × Expression)} {c c' : Cursor}
    (h : many (climbOnce operand least) c = .ok steps c') :
    c'.splitInfix = c' ∧ c'.Beyond (Level.atLeast least) := by
  refine many_ends (P := fun c => c.splitInfix = c ∧ c.Beyond (Level.atLeast least)) ?_ h
  intro c c₁ hpass
  obtain ⟨hbeyond, rfl⟩ := climbOnce_eq_none hpass
  exact ⟨c.splitInfix_splitInfix, hbeyond.splitInfix⟩

/-- The loop begins with a split, so that a split before it changes nothing. -/
lemma many_climbOnce_splitInfix (operand : Parser Expression) (least : Nat) (c : Cursor) :
    many (climbOnce operand least) c.splitInfix = many (climbOnce operand least) c :=
  bind_at _ (climbOnce_splitInfix operand least c)

/-- **The loop by levels**: first the passes whose operators bind tighter, then the others.

**Proof sketch.** Induction on what remains.  While an operator binds tighter than `least`, a pass
reads the same for `least` as for the next level.  Where none does, the loop of the next level ends,
having split the token, and the split changes nothing of what is read from there. -/
theorem many_climbOnce_append (c : Cursor) :
    many (climbOnce operand least) c
      = (do
          let tighter ← many (climbOnce operand (least + 1))
          let rest ← many (climbOnce operand least)
          return tighter ++ rest) c := by
  induction hn : c.remaining using Nat.strong_induction_on generalizing c with
  | _ n ih =>
    subst hn
    obtain hbeyond | ⟨op, hop, hle⟩ := beyond_or_operator (least + 1) c
    · rw [bind_of_ok (many_of_none (climbOnce_of_beyond hbeyond))]
      simp only [List.nil_append, bind_pure]
      exact (many_climbOnce_splitInfix operand least c).symm
    · have hsame : climbOnce operand least c = climbOnce operand (least + 1) c := by
        rw [climbOnce_of_operator hop (by omega), climbOnce_of_operator hop hle]
      rcases hpass : climbOnce operand (least + 1) c with ⟨_ | a, c₁⟩ | ⟨fault, c₁⟩
      · exact absurd ((climbOnce_eq_none hpass).1 op hop) (by simpa using hle)
      · have hmore := ih c₁.remaining (climbOnce_some_lt hpass) c₁ rfl
        rw [many_of_some (hsame.trans hpass), bind_at _ hmore, bind_at _ (many_of_some hpass)]
        simp only [bind_assoc, pure_bind, List.cons_append]
      · rw [many_of_error (hsame.trans hpass), bind_of_error (many_of_error hpass)]

end Loop

/-! ### One level of the loop -/

section Level

variable {operand : Parser Expression} {level : Level} {op : BinaryOp} {c : Cursor}

/-- Where no operator binds as tightly as a level, none of the level stands. -/
lemma link_of_beyond (h : c.Beyond (Level.atLeast level.tightness)) :
    link (binaryOperator? level) operand c = .ok none c.splitInfix := by
  have hnone : binaryOperator? level c = .ok none c.splitInfix := by
    rw [binaryOperator?, bind_of_ok (p := modify Cursor.splitInfix) rfl,
      bind_of_ok (p := peekKind) rfl]
    rcases hop : c.splitInfix.peek.kind.binaryOp? with _ | op
    · rfl
    · have hne : op.level ≠ level := fun heq => h op hop (by simp [heq])
      exact congrFun (if_neg hne) c.splitInfix
  rw [link, bind_of_ok hnone]
  rfl

/-- An operator of a level and the operand behind it. -/
lemma link_of_operator (hop : c.splitInfix.peek.kind.binaryOp? = some op) (h : op.level = level) :
    link (binaryOperator? level) operand c
      = (operand >>= fun rhs => pure (some (op, rhs))) c.splitInfix.advance := by
  have hsome : binaryOperator? level c = .ok (some op) c.splitInfix.advance := by
    rw [binaryOperator?, bind_of_ok (p := modify Cursor.splitInfix) rfl,
      bind_of_ok (p := peekKind) rfl, hop]
    exact congrFun (if_pos h) c.splitInfix
  rw [link, bind_of_ok hsome]

/-- A look for an operator of a level begins with a split, so that a split before it changes
nothing. -/
lemma link_splitInfix (operand : Parser Expression) (level : Level) (c : Cursor) :
    link (binaryOperator? level) operand c.splitInfix = link (binaryOperator? level) operand c := by
  have hmodify : (modify Cursor.splitInfix : Parser Unit) c.splitInfix
      = (modify Cursor.splitInfix : Parser Unit) c := by
    change EStateM.Result.ok () c.splitInfix.splitInfix = .ok () c.splitInfix
    rw [c.splitInfix_splitInfix]
  exact bind_at _ (bind_at _ hmodify)

/-- A chain that is read at all is read with the token behind it split. -/
lemma climb_of_ok {least : Nat} {e : Expression} {c₁ : Cursor}
    (h : binary operand (Level.atLeast least) c = .ok e c₁) :
    climb operand least c = .ok e c₁.splitInfix := by
  rw [climb, bind_of_ok h]
  rfl

/-- A chain that is refused is refused at the same place. -/
lemma climb_of_error {least : Nat} {fault : Fault} {c₁ : Cursor}
    (h : binary operand (Level.atLeast least) c = .error fault c₁) :
    climb operand least c = .error fault c₁ :=
  bind_of_error h

variable [Lowers operand]

/-- Where no tighter operator stands, the loop reads the operators of one level: behind each operand
there is no tighter one again.

**Proof sketch.** Induction on what remains.  An operator that binds tightly enough, and no tighter
than the level, is one of the level.  The operand behind it is a chain of the tighter levels, behind
which no tighter operator stands. -/
lemma many_climbOnce_eq_link
    (hends : ∀ c e c', climb operand (level.tightness + 1) c = .ok e c' →
      c'.Beyond (Level.atLeast (level.tightness + 1)))
    (hc : c.Beyond (Level.atLeast (level.tightness + 1))) :
    many (climbOnce operand level.tightness) c
      = many (link (binaryOperator? level)
          (binary operand (Level.atLeast (level.tightness + 1)))) c := by
  have := lowers_binary operand (Level.atLeast (level.tightness + 1))
  induction hn : c.remaining using Nat.strong_induction_on generalizing c with
  | _ n ih =>
    subst hn
    obtain hbeyond | ⟨op, hop, hle⟩ := beyond_or_operator level.tightness c
    · rw [many_of_none (climbOnce_of_beyond hbeyond), many_of_none (link_of_beyond hbeyond)]
    · have hnot : ¬ level.tightness + 1 ≤ op.level.tightness := by simpa using hc op hop
      obtain rfl : op.level = level := Level.tightness_injective (by omega)
      have hpass : climbOnce operand op.level.tightness c = _ := climbOnce_of_operator hop hle
      have hlink : link (binaryOperator? op.level)
          (binary operand (Level.atLeast (op.level.tightness + 1))) c = _ :=
        link_of_operator hop rfl
      rcases hchain : binary operand (Level.atLeast (op.level.tightness + 1)) c.splitInfix.advance
        with ⟨e, c₁⟩ | ⟨fault, c₁⟩
      · have hclimb := climb_of_ok hchain
        rw [bind_of_ok hclimb] at hpass
        rw [bind_of_ok hchain] at hlink
        have hlt := climbOnce_some_lt hpass
        rw [many_of_some hpass, many_of_some hlink]
        refine bind_at _ ((ih _ hlt (hends _ e _ hclimb) rfl).trans ?_)
        exact bind_at _ (link_splitInfix _ _ c₁)
      · rw [bind_of_error (climb_of_error hchain)] at hpass
        rw [bind_of_error hchain] at hlink
        rw [many_of_error hpass, many_of_error hlink]

end Level

/-! ### All levels -/

section Climb

variable {operand : Parser Expression} {least : Nat}

/-- The operand and the operators with their operands, combined from the left. -/
def combined (first : Expression) (steps : List (BinaryOp × Expression)) : Expression :=
  steps.foldl (fun lhs step => applyBinary lhs step.1 step.2) first

/-- Reads an operand and goes on with the loop of precedence climbing. -/
def climbFrom (operand : Parser Expression) (least : Nat) : Parser Expression := do
  let first ← operand
  let steps ← many (climbOnce operand least)
  return combined first steps

/-- Beyond the tightest level the loop ends at once. -/
lemma climb_eq_of_lt (h : 8 < least) : climb operand least = climbFrom operand least := by
  have hbeyond (c : Cursor) : c.Beyond (Level.atLeast least) := by
    rw [Level.atLeast_eq_nil h]
    exact fun _ _ => List.not_mem_nil
  funext c
  rw [climb, climbFrom, Level.atLeast_eq_nil h, binary]
  rcases hfirst : operand c with ⟨e, c₁⟩ | ⟨fault, c₁⟩
  · rw [bind_of_ok hfirst, bind_of_ok hfirst,
      bind_of_ok (many_of_none (climbOnce_of_beyond (hbeyond c₁)))]
    rfl
  · rw [bind_of_error hfirst, bind_of_error hfirst]

/-- No operator binds more loosely than the first level. -/
lemma climb_zero :
    climb operand 0 = climb operand 1 ∧ climbFrom operand 0 = climbFrom operand 1 := by
  have honce : climbOnce operand 0 = climbOnce operand 1 := by
    funext c
    obtain hbeyond | ⟨op, hop, hle⟩ := beyond_or_operator 1 c
    · have hbeyond' : c.Beyond (Level.atLeast 0) := fun op hop hmem =>
        hbeyond op hop (Level.mem_atLeast.2 op.level.tightness_mem.1)
      rw [climbOnce_of_beyond hbeyond, climbOnce_of_beyond hbeyond']
    · rw [climbOnce_of_operator hop hle, climbOnce_of_operator hop (Nat.zero_le _)]
  exact ⟨rfl, by rw [climbFrom, climbFrom, honce]⟩

variable [Lowers operand]

/-- The loop of a level goes on where that of the next one ended. -/
lemma climbFrom_eq_append (h : climb operand (least + 1) = climbFrom operand (least + 1)) :
    climbFrom operand least = (do
      let first ← climb operand (least + 1)
      let steps ← many (climbOnce operand least)
      return combined first steps) := by
  have happend : many (climbOnce operand least) = (do
      let tighter ← many (climbOnce operand (least + 1))
      let rest ← many (climbOnce operand least)
      return tighter ++ rest) := funext many_climbOnce_append
  have hfold (first : Expression) (tighter rest : List (BinaryOp × Expression)) :
      combined first (tighter ++ rest) = combined (combined first tighter) rest :=
    List.foldl_append
  rw [h, climbFrom, climbFrom]
  conv_lhs => rw [happend]
  simp only [bind_assoc, pure_bind, hfold]

/-- The step from the tighter levels to a level.

**Proof sketch.** A chain of the tighter levels is followed by a loop over the operators of the
level.  The loop of precedence climbing does the same, since behind a chain of the tighter levels no
operator of these is left: a pass of it finds an operator of the level or none. -/
lemma climb_tightness {level : Level}
    (h : climb operand (level.tightness + 1) = climbFrom operand (level.tightness + 1)) :
    climb operand level.tightness = climbFrom operand level.tightness := by
  have hends (c : Cursor) (e : Expression) (c' : Cursor)
      (hclimb : climb operand (level.tightness + 1) c = .ok e c') :
      c'.Beyond (Level.atLeast (level.tightness + 1)) := by
    rw [h] at hclimb
    obtain ⟨first, c₁, -, hloop⟩ := bind_eq_ok.1 hclimb
    obtain ⟨steps, c₂, hsteps, hpure⟩ := bind_eq_ok.1 hloop
    obtain ⟨-, rfl⟩ := EStateM.Result.ok.inj hpure
    exact (many_climbOnce_ends hsteps).2
  rw [climbFrom_eq_append h]
  funext c
  rw [climb, Level.atLeast_tightness, binary, leftAssoc_eq]
  rcases hchain : binary operand (Level.atLeast (level.tightness + 1)) c with ⟨e, c₁⟩ | ⟨fault, c₁⟩
  · have hloop := many_climbOnce_eq_link hends (hends c e _ (climb_of_ok hchain))
    have hsplit : many (link (binaryOperator? level)
          (binary operand (Level.atLeast (level.tightness + 1)))) c₁.splitInfix
        = many (link (binaryOperator? level)
          (binary operand (Level.atLeast (level.tightness + 1)))) c₁ :=
      bind_at _ (link_splitInfix _ _ c₁)
    rw [bind_of_ok (climb_of_ok hchain), bind_at _ (hloop.trans hsplit)]
    simp only [bind_assoc, pure_bind]
    rw [bind_of_ok hchain]
    rcases hsteps : many (link (binaryOperator? level)
        (binary operand (Level.atLeast (level.tightness + 1)))) c₁ with ⟨steps, c₂⟩ | ⟨fault, c₂⟩
    · obtain ⟨hsettled, -⟩ := many_climbOnce_ends ((hloop.trans hsplit).trans hsteps)
      rw [bind_of_ok hsteps, bind_of_ok hsteps]
      change EStateM.Result.ok _ c₂.splitInfix = _
      rw [hsettled]
      rfl
    · rw [bind_of_error hsteps, bind_of_error hsteps]
  · rw [bind_of_error (climb_of_error hchain), bind_of_error (bind_of_error hchain)]

/-- **Precedence climbing.**  A chain of operands with the operators that bind at least as tightly
as `least` is an operand and, behind it, one pass of the loop after the other: each splits the token
behind an operand, ends the loop where that token does not bind or binds more loosely than `least`,
and otherwise reads it and, behind it, a chain of the operators that bind tighter than it does.
Trees, cursors and faults are the same.

**Proof sketch.** Induction from the tightest level down.  The chain of a level is the chain of the
next one and a loop over the operators of the level, whose operands are chains of the next one.  By
induction the former is an operand and the loop of the next level, which ends where no tighter
operator stands; and from there on the loop of precedence climbing finds the operators of the level
alone (`many_climbOnce_eq_link`).  Together the two are one loop (`many_climbOnce_append`). -/
theorem climb_eq (operand : Parser Expression) [Lowers operand] (least : Nat) :
    climb operand least = (do
      let first ← operand
      let steps ← many (climbOnce operand least)
      return combined first steps) := by
  change climb operand least = climbFrom operand least
  induction hn : 9 - least using Nat.strong_induction_on generalizing least with
  | _ n ih =>
    subst hn
    by_cases hlt : 8 < least
    · exact climb_eq_of_lt hlt
    · rcases Nat.eq_zero_or_pos least with rfl | hpos
      · rw [climb_zero.1, climb_zero.2]
        exact ih 8 (by omega) 1 rfl
      · obtain ⟨level, rfl⟩ := Level.exists_tightness hpos (by omega)
        exact climb_tightness (ih _ (by omega) _ rfl)

/-- Behind a chain with a level in it, nothing is left to split.

**Proof sketch.** The chain ends as its loop does (`many_ends`), and the loop ends with a look for
an operator that found none.  Such a look splits first, and to split twice is to split once. -/
lemma splitInfix_of_binary {level : Level} {levels : List Level} {e : Expression} {c c' : Cursor}
    (h : binary operand (level :: levels) c = .ok e c') : c'.splitInfix = c' := by
  have := lowers_binary operand levels
  rw [binary, leftAssoc_eq] at h
  obtain ⟨first, c₁, -, hloop⟩ := bind_eq_ok.1 h
  obtain ⟨steps, c₂, hsteps, hpure⟩ := bind_eq_ok.1 hloop
  obtain ⟨-, rfl⟩ := EStateM.Result.ok.inj hpure
  refine many_ends (P := fun c => c.splitInfix = c) (fun c c₁ hround => ?_) hsteps
  obtain ⟨o, c₂, hoperator, hrest⟩ := bind_eq_ok.1 hround
  obtain ⟨ts, -, ho⟩ := (binaryOperator?_ensures c).ok o c₂ hoperator
  rcases o with _ | op
  · obtain ⟨-, rfl, -⟩ := ho
    obtain ⟨-, rfl⟩ := EStateM.Result.ok.inj hrest
    exact c.splitInfix_splitInfix
  · obtain ⟨rhs, c₃, -, hsome⟩ := bind_eq_ok.1 hrest
    cases hsome

/-- Where a level is left, a chain splits the token behind it of itself. -/
theorem climb_eq_binary (operand : Parser Expression) [Lowers operand] (h : least ≤ 8) :
    climb operand least = binary operand (Level.atLeast least) := by
  obtain ⟨level, levels, hlevels⟩ : ∃ level levels, Level.atLeast least = level :: levels := by
    rcases Nat.eq_zero_or_pos least with rfl | hpos
    · exact ⟨.pipe, _, rfl⟩
    · obtain ⟨level, rfl⟩ := Level.exists_tightness hpos h
      exact ⟨level, _, level.atLeast_tightness⟩
  funext c
  rcases hchain : binary operand (Level.atLeast least) c with ⟨e, c₁⟩ | ⟨fault, c₁⟩
  · have hsplit : c₁.splitInfix = c₁ := splitInfix_of_binary (hlevels ▸ hchain)
    rw [climb_of_ok hchain, hsplit]
  · exact climb_of_error hchain

end Climb

end Parser

end RakeLang
