import RakeLang.Proofs.Reading.Cursor

/-!
# Settled tokens

Which tokens a reading of an expression splits can be told from the tokens alone.  Reading goes
through few modes: it expects an operand, it stands behind one, it is inside the angles of a
scalar literal, or it is among the parameters of a lambda.  Each token that is read leads from one
mode to the next one, and a token is split where it is met behind an operand.  To *settle* a list
of tokens is to split it in this way from its head to its end.

A parenthesis without a counterpart, and the word at the head of a definition, end every
expression.  Behind them the mode is closed, and nothing is split any more.

## Main definitions

* `RakeLang.Token.splitHead` — the tokens with the first one split, as behind an operand.
* `RakeLang.Mode`, `RakeLang.Mode.step` — the modes and what a token does to them.
* `RakeLang.settle` — the tokens as a reading that begins in a mode will have split them.
* `RakeLang.Through` — tokens that are settled whatever follows, and the mode behind them.

## Main results

* `RakeLang.settle_split` — to split the first token early changes nothing.
* `RakeLang.countPieces_settle` — settling keeps the number of pieces.
-/

set_option relaxedAutoImplicit false
set_option autoImplicit false

namespace RakeLang

open Token

/-! ## Splitting the first token -/

/-- Can a token of this kind be split behind an operand? -/
def Kind.splits : Kind → Bool
  | int | float | symbol .leftArrow => true
  | _ => false

/-- Can a token of this kind be split behind an operand, or be the first part of one that was? -/
def Kind.inSplit : Kind → Bool
  | symbol .minus | symbol .less => true
  | kind => kind.splits

/-- A token that can be split takes part in splits. -/
lemma Kind.inSplit_of_splits {kind : Kind} (h : kind.splits = true) : kind.inSplit = true := by
  unfold inSplit
  split <;> first | rfl | exact h

namespace Token

/-- The tokens with the first one split, as behind an operand. -/
def splitHead : List Token → List Token
  | [] => []
  | t :: ts =>
    match t.splitSign? with
    | some (minus, number) => minus :: number :: ts
    | none => (splitArrow? (t :: ts)).getD (t :: ts)

/-- Of no tokens none is split. -/
@[simp] lemma splitHead_nil : splitHead [] = [] := rfl

/-- The split of the first token leaves it as it is, or gives a minus sign or a less-than sign, and
behind it a number or a minus sign.

**Proof sketch.** A number with a sign falls into the sign and the number; an arrow into a
less-than sign and a minus sign, or a number that the sign was joined with; and any other token
stays. -/
lemma splitHead_cases (ts : List Token) :
    splitHead ts = ts ∨ ∃ t rest first second more, ts = t :: rest ∧ t.kind.splits = true
      ∧ splitHead ts = first :: second :: more
      ∧ (first.kind = .symbol .minus ∨ first.kind = .symbol .less)
      ∧ (second.kind = .symbol .minus ∨ second.kind.isNumber = true) ∧ more <:+ rest := by
  rcases ts with _ | ⟨t, rest⟩
  · exact .inl rfl
  rcases hs : t.splitSign? with _ | ⟨minus, number⟩
  · rcases ha : splitArrow? (t :: rest) with _ | us
    · exact .inl (by simp [splitHead, hs, ha])
    · have hsplit : splitHead (t :: rest) = us := by simp [splitHead, hs, ha]
      obtain ⟨arrow, rest', heq, hkind, hcases⟩ := cases_of_splitArrow? ha
      obtain ⟨rfl, rfl⟩ := List.cons.inj heq
      refine .inr ⟨t, rest, ?_⟩
      obtain ⟨next, more, rfl, hjoins, rfl⟩ | rfl := hcases
      · refine ⟨_, _, _, rfl, by simp [hkind, Kind.splits], hsplit, .inr rfl, .inr ?_,
          List.suffix_cons next more⟩
        simp only [joinsArrow, Bool.and_eq_true] at hjoins
        exact hjoins.1.1
      · exact ⟨_, _, _, rfl, by simp [hkind, Kind.splits], hsplit, .inr rfl, .inl rfl,
          List.suffix_rfl⟩
  · obtain ⟨hsigned, rfl, rfl⟩ := eq_of_splitSign? hs
    simp only [isSignedNumber, Bool.and_eq_true] at hsigned
    refine .inr ⟨t, rest, minusAt t.span.firstByte, t.withoutSign, rest, rfl, ?_,
      by simp [splitHead, hs], .inl rfl, .inr hsigned.1, List.suffix_rfl⟩
    obtain ⟨hnumber, -⟩ := hsigned
    revert hnumber
    cases t.kind <;> simp [Kind.isNumber, Kind.splits]

/-- A token that cannot be split stays. -/
lemma splitHead_of_kind {t : Token} (h : t.kind.splits = false) (ts : List Token) :
    splitHead (t :: ts) = t :: ts := by
  rcases splitHead_cases (t :: ts) with heq | ⟨u, rest, _, _, _, heq, hu, -⟩
  · exact heq
  · obtain ⟨rfl, rfl⟩ := List.cons.inj heq
    rw [h] at hu
    cases hu

/-- Behind a split nothing is left to split. -/
lemma splitHead_splitHead (ts : List Token) : splitHead (splitHead ts) = splitHead ts := by
  rcases splitHead_cases ts with h | ⟨_, _, first, second, more, -, -, h, hfirst, -⟩
  · rw [h, h]
  · rw [h]
    refine splitHead_of_kind ?_ _
    rcases hfirst with hk | hk <;> rw [hk] <;> rfl

/-- Splitting leaves some tokens just if there are some. -/
@[simp] lemma splitHead_eq_nil {ts : List Token} : splitHead ts = [] ↔ ts = [] := by
  refine ⟨fun h => ?_, fun h => by rw [h]; rfl⟩
  rcases splitHead_cases ts with heq | ⟨_, _, _, _, _, -, -, heq, -⟩
  · exact heq ▸ h
  · rw [heq] at h
    cases h

/-- The first token behind a split cannot differ from the one before it but by a split. -/
lemma inSplit_of_splitHead {t u : Token} {ts us : List Token}
    (h : splitHead (t :: ts) = u :: us) :
    t = u ∧ ts = us ∨ t.kind.splits = true ∧ u.kind.inSplit = true ∧ u.kind.splits = false := by
  rcases splitHead_cases (t :: ts) with heq | ⟨_, _, first, _, _, heq, ht, hsplit, hfirst, -⟩
  · rw [heq] at h
    exact .inl (List.cons.inj h)
  · obtain ⟨rfl, -⟩ := List.cons.inj heq
    obtain ⟨rfl, -⟩ := List.cons.inj (hsplit.symm.trans h)
    refine .inr ⟨ht, ?_⟩
    rcases hfirst with hk | hk <;> rw [hk] <;> exact ⟨rfl, rfl⟩

/-- Splitting the first token leaves the number of pieces. -/
lemma countPieces_splitHead (ts : List Token) :
    countPieces (splitHead ts) = countPieces ts := by
  rcases ts with _ | ⟨t, rest⟩
  · rfl
  rcases hs : t.splitSign? with _ | ⟨minus, number⟩
  · rcases ha : splitArrow? (t :: rest) with _ | us
    · simp [splitHead, hs, ha]
    · simpa [splitHead, hs, ha] using countPieces_of_splitArrow? ha
  · have := pieces_of_splitSign? hs
    simp [splitHead, hs]
    omega

end Token

/-- The cursor behind an operand splits its first token ahead. -/
lemma Cursor.splitInfix_eq (c : Cursor) :
    c.splitInfix = { c with ahead := splitHead c.ahead } := by
  rcases c with ⟨past, _ | ⟨t, ts⟩, closing, hclosing⟩
  · rfl
  · rcases hs : t.splitSign? with _ | ⟨minus, number⟩
    · rcases ha : Token.splitArrow? (t :: ts) with _ | us
      all_goals simp [splitInfix, splitSign?, splitArrow?, splitHead, hs, ha]
    · simp [splitInfix, splitSign?, splitHead, hs]

/-- A split at the cursor splits the first token ahead. -/
@[simp] lemma Cursor.ahead_splitInfix (c : Cursor) :
    c.splitInfix.ahead = splitHead c.ahead := by
  rw [c.splitInfix_eq]

/-- A split at the cursor leaves what was read. -/
@[simp] lemma Cursor.past_splitInfix (c : Cursor) : c.splitInfix.past = c.past := by
  rw [c.splitInfix_eq]

/-- A split at the cursor leaves the token that ends the input. -/
@[simp] lemma Cursor.closing_splitInfix (c : Cursor) : c.splitInfix.closing = c.closing := by
  rw [c.splitInfix_eq]

/-- A split at the cursor leaves what remains. -/
@[simp] lemma Cursor.remaining_splitInfix (c : Cursor) :
    c.splitInfix.remaining = c.remaining := by
  rw [remaining, ahead_splitInfix, countPieces_splitHead, remaining]

/-! ## Modes -/

/-- Where a reading of an expression stands. -/
inductive Mode where
  /-- Before an operand, inside of `depth` parentheses. -/
  | operand (depth : Nat)
  /-- Behind an operand. -/
  | behind (depth : Nat)
  /-- Inside the angles of a scalar literal that is an operand. -/
  | scalar (depth : Nat)
  /-- Among the parameters of a lambda, inside of `nest` parentheses more.  `named` tells that the
  word read last can end the name of a type as well as begin a definition. -/
  | params (depth nest : Nat) (named : Bool)
  /-- Behind the end of every expression. -/
  | closed
  deriving DecidableEq, Repr

namespace Mode

/-- Does the reading stand behind an operand? -/
def isBehind : Mode → Bool
  | behind _ => true
  | _ => false

/-- The mode behind a token outside of angles and of the parameters of lambdas. -/
def turn (depth : Nat) : Kind → Mode
  | .keyword .funKw => params depth 0 false
  | .symbol .lParen => operand (depth + 1)
  | .symbol .rParen =>
    match depth with
    | 0 => closed
    | depth + 1 => behind depth
  | .tineRef => behind depth
  | kind =>
    if kind.opensDefinition then closed
    else if kind.endsOperand then behind depth else operand depth

/-- The mode behind a token among the parameters of a lambda. -/
def paramsStep (depth nest : Nat) (named : Bool) : Kind → Mode
  | .symbol .lParen => params depth (nest + 1) false
  | .symbol .rParen => params depth (nest - 1) false
  | .symbol .arrow => if nest = 0 then operand depth else params depth nest false
  | .keyword .stack | .keyword .single => params depth nest true
  | .typeIdent => if named then closed else params depth nest false
  | kind => if kind.opensDefinition then closed else params depth nest false

/-- The mode behind a token of the given kind. -/
def step : Mode → Kind → Mode
  | operand depth, .symbol .less | operand depth, .symbol .leftArrow => scalar depth
  | operand depth, kind => turn depth kind
  | behind depth, kind => turn depth kind
  | scalar depth, .symbol .greater => behind depth
  | scalar depth, kind => if kind.opensDefinition then closed else scalar depth
  | params depth nest named, kind => paramsStep depth nest named kind
  | closed, _ => closed

/-- Behind the end of an expression the mode stays closed. -/
@[simp] lemma step_closed (kind : Kind) : closed.step kind = closed := rfl

/-- The tokens with the first one split, if the mode asks for it. -/
def split : Mode → List Token → List Token
  | behind _, ts => splitHead ts
  | _, ts => ts

/-- No token of this kind is split in the mode. -/
def keeps (σ : Mode) (kind : Kind) : Bool := !(σ.isBehind && kind.splits)

/-- No token of this kind can take part in a split in the mode. -/
def clear (σ : Mode) (kind : Kind) : Bool := !(σ.isBehind && kind.inSplit)

/-- A token that takes part in no split can stand anywhere. -/
lemma clear_of_inSplit (σ : Mode) {kind : Kind} (h : kind.inSplit = false) :
    σ.clear kind = true := by
  simp [clear, h]

/-- Where no split is looked for, any token can stand. -/
lemma clear_of_isBehind {σ : Mode} (h : σ.isBehind = false) (kind : Kind) :
    σ.clear kind = true := by
  simp [clear, h]

/-- A token that a split cannot make is kept as it is. -/
lemma keeps_of_clear {σ : Mode} {kind : Kind} (h : σ.clear kind = true) :
    σ.keeps kind = true := by
  unfold clear at h
  unfold keeps
  cases hs : kind.splits
  · simp
  · have hin : kind.inSplit = true := by
      unfold Kind.inSplit
      split <;> first | rfl | exact hs
    simpa [hin] using h

section Split

variable {σ : Mode} {t : Token} {ts : List Token}

/-- Where no split is looked for, none is made. -/
lemma split_of_isBehind (h : σ.isBehind = false) (ts : List Token) : σ.split ts = ts := by
  cases σ <;> simp_all [isBehind, split]

/-- A token that is kept as it is is not split. -/
lemma split_of_keeps (h : σ.keeps t.kind = true) (ts : List Token) :
    σ.split (t :: ts) = t :: ts := by
  cases σ <;> simp_all [keeps, isBehind, split, splitHead_of_kind]

/-- Splitting twice is splitting once. -/
lemma split_split (σ : Mode) (ts : List Token) : σ.split (σ.split ts) = σ.split ts := by
  cases σ <;> simp [split, splitHead_splitHead]

/-- Of no tokens none is split. -/
@[simp] lemma split_nil (σ : Mode) : σ.split [] = [] := by cases σ <;> rfl

/-- Splitting leaves some tokens just if there are some. -/
@[simp] lemma split_eq_nil : σ.split ts = [] ↔ ts = [] := by cases σ <;> simp [split]

/-- Splitting leaves the number of pieces. -/
lemma countPieces_split (σ : Mode) (ts : List Token) :
    countPieces (σ.split ts) = countPieces ts := by
  cases σ <;> simp [split, countPieces_splitHead]

end Split

end Mode

/-! ## Settling -/

/-- The tokens as a reading that begins in the mode `σ` will have split them. -/
def settle (σ : Mode) (ts : List Token) : List Token :=
  match _h : σ.split ts with
  | [] => []
  | t :: us => t :: settle (σ.step t.kind) us
termination_by countPieces ts
decreasing_by
  have hpieces := σ.countPieces_split ts
  have := t.one_le_pieces
  rw [_h, countPieces_cons] at hpieces
  omega

section Settle

variable {σ τ : Mode} {t : Token} {ts us : List Token}

/-- No tokens settle to none. -/
@[simp] lemma settle_nil (σ : Mode) : settle σ [] = [] := by
  rw [settle]
  split
  · rfl
  · rename_i h
    simp at h

/-- Behind the first token, split if it can be, the others settle in the mode behind it. -/
lemma settle_of_split (h : σ.split ts = t :: us) :
    settle σ ts = t :: settle (σ.step t.kind) us := by
  rw [settle]
  split
  · rename_i h'
    cases h.symm.trans h'
  · rename_i h'
    obtain ⟨rfl, rfl⟩ := List.cons.inj (h.symm.trans h')
    rfl

/-- A token that the mode does not split is settled. -/
lemma settle_cons (h : σ.keeps t.kind = true) (ts : List Token) :
    settle σ (t :: ts) = t :: settle (σ.step t.kind) ts :=
  settle_of_split (σ.split_of_keeps h ts)

/-- To split the first token early changes nothing. -/
theorem settle_split (σ : Mode) (ts : List Token) : settle σ (σ.split ts) = settle σ ts := by
  rcases h : σ.split ts with _ | ⟨t, us⟩
  · rw [Mode.split_eq_nil] at h
    rw [h]
  · rw [settle_of_split h, settle_of_split (by rw [← h, Mode.split_split])]

/-- Some tokens settle to some tokens. -/
@[simp] lemma settle_eq_nil : settle σ ts = [] ↔ ts = [] := by
  refine ⟨fun h => ?_, fun h => by rw [h, settle_nil]⟩
  rcases hs : σ.split ts with _ | ⟨t, us⟩
  · exact Mode.split_eq_nil.1 hs
  · rw [settle_of_split hs] at h
    cases h

/-- In the closed mode nothing is split. -/
@[simp] lemma settle_closed (ts : List Token) : settle .closed ts = ts := by
  induction ts with
  | nil => exact settle_nil _
  | cons t ts ih => rw [settle_cons rfl, Mode.step_closed, ih]

/-- Settling keeps the number of pieces. -/
theorem countPieces_settle (σ : Mode) (ts : List Token) :
    countPieces (settle σ ts) = countPieces ts := by
  induction h : countPieces ts using Nat.strong_induction_on generalizing σ ts with
  | h n ih =>
    rcases hs : σ.split ts with _ | ⟨t, us⟩
    · rw [Mode.split_eq_nil.1 hs, settle_nil, ← h, Mode.split_eq_nil.1 hs]
    · have hpieces := σ.countPieces_split ts
      have hpos := t.one_le_pieces
      rw [hs, countPieces_cons] at hpieces
      rw [settle_of_split hs, countPieces_cons, ih _ (by omega) (σ.step t.kind) us rfl]
      omega

end Settle

/-! ## Tokens that are settled -/

/-- The tokens `read` are settled from the mode `σ` on, whatever follows, and lead to the mode
`τ`. -/
def Through (σ : Mode) (read : List Token) (τ : Mode) : Prop :=
  ∀ ts, settle σ (read ++ ts) = read ++ settle τ ts

section Through

variable {σ τ ρ : Mode} {t : Token} {ts us : List Token}

/-- Reading nothing leads to the same mode. -/
lemma Through.nil (σ : Mode) : Through σ [] σ := fun _ => rfl

/-- Readings, one behind the other, lead to the mode behind the second. -/
lemma Through.trans (h : Through σ ts τ) (h' : Through τ us ρ) : Through σ (ts ++ us) ρ := by
  intro vs
  rw [List.append_assoc, h, h', List.append_assoc]

/-- Reading a token that is kept leads to the mode behind it. -/
lemma Through.singleton (h : σ.keeps t.kind = true) : Through σ [t] (σ.step t.kind) :=
  fun ts => settle_cons h ts

end Through

end RakeLang
