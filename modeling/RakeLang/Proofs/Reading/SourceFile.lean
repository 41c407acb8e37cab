import RakeLang.Proofs.Lexing.Stream
import RakeLang.Proofs.Reading.Definition
import RakeLang.SourceFile.Parse

/-!
# Nothing is lost, doubled or moved by parsing

A source file that is read without a fault spells the tokens of its text, as the reading split
them: every token is in the tree, once and in its place.

## Main results

* `RakeLang.attemptsUpTo_reads` — a row of attempts without a fault spells the tokens ahead.
* `RakeLang.parse_spells` — so does a source file that is parsed.
-/

set_option relaxedAutoImplicit false
set_option autoImplicit false

namespace RakeLang

open Spelling Token

/-! ## The tokens behind splits -/

section Splits

variable {P : Token → Prop} {ts us : List Token}

/-- What holds of the signs that a split gives, and of all numbers, still holds behind a split.

**Proof sketch.** By cases on the step.  Its new tokens are a minus sign, an angle, or a number that
takes a sign or loses one; the others stood there before. -/
lemma Token.SplitStep.forall_mem (h : SplitStep ts us)
    (hsigns : ∀ span, P (minusAt span) ∧ P (lessAt span))
    (hnumbers : ∀ t : Token, t.kind.isNumber = true → P t) (hts : ∀ t ∈ ts, P t) :
    ∀ t ∈ us, P t := by
  cases h with
  | @sign t minus number before after h =>
    obtain ⟨hsigned, rfl, rfl⟩ := eq_of_splitSign? h
    simp only [isSignedNumber, Bool.and_eq_true] at hsigned
    simp only [List.forall_mem_append, List.forall_mem_cons] at hts ⊢
    obtain ⟨hbefore, -, hafter⟩ := hts
    exact ⟨hbefore, (hsigns _).1, hnumbers _ hsigned.1, hafter⟩
  | arrow before h =>
    obtain ⟨arrow, rest, rfl, -, hcases⟩ := cases_of_splitArrow? h
    simp only [List.forall_mem_append, List.forall_mem_cons] at hts ⊢
    obtain ⟨hbefore, -, hrest⟩ := hts
    refine ⟨hbefore, ?_⟩
    obtain ⟨next, more, rfl, hjoins, rfl⟩ | rfl := hcases
    · simp only [joinsArrow, Bool.and_eq_true] at hjoins
      simp only [List.forall_mem_cons] at hrest ⊢
      exact ⟨(hsigns _).2, hnumbers _ hjoins.1.1, hrest.2⟩
    · simp only [List.forall_mem_cons]
      exact ⟨(hsigns _).2, (hsigns _).1, hrest⟩

/-- What holds of the signs that a split gives, and of all numbers, still holds behind splits. -/
lemma Token.SplitsTo.forall_mem (h : SplitsTo ts us)
    (hsigns : ∀ span, P (minusAt span) ∧ P (lessAt span))
    (hnumbers : ∀ t : Token, t.kind.isNumber = true → P t) (hts : ∀ t ∈ ts, P t) :
    ∀ t ∈ us, P t := by
  induction h with
  | refl => exact hts
  | tail _ hstep ih => exact hstep.forall_mem hsigns hnumbers ih

/-- Splits give no end of the input. -/
lemma Token.SplitsTo.kind_ne (h : SplitsTo ts us) (hts : ∀ t ∈ ts, t.kind ≠ .eof) :
    ∀ t ∈ us, t.kind ≠ .eof := by
  refine h.forall_mem (fun span => by simp [minusAt, lessAt]) (fun t ht heof => ?_) hts
  simp [heof, Kind.isNumber] at ht

/-- Splits give tokens whose text fits their kind. -/
lemma Token.SplitsTo.isLexed (h : SplitsTo ts us) (hts : ∀ t ∈ ts, t.IsLexed) :
    ∀ t ∈ us, t.IsLexed := by
  refine h.forall_mem (fun span => ?_) (fun t ht => ?_) hts
  · simp [IsLexed, Kind.Fits, minusAt, lessAt, Symbol.chars]
  · unfold Kind.isNumber at ht
    split at ht <;> simp_all [IsLexed, Kind.Fits]

end Splits

/-- A list of tokens that ends with the end of the input is read from its first token on. -/
lemma Cursor.ofTokens_append {tokens : List Token} {eof : Token} (h : eof.kind = .eof) :
    Cursor.ofTokens (tokens ++ [eof]) = ⟨[], tokens, eof, h⟩ := by
  simp [ofTokens, h]

/-! ## Attempts -/

/-- A definition has a token. -/
lemma Definition.nil_notMem_spelling (d : Definition) : [] ∉ d.spelling := by
  cases d <;> simp [spelling, keyword]

/-- A row of attempts without a fault reads all tokens ahead, and its definitions spell them.

**Proof sketch.** Induction on the bound, which stays at least what remains ahead; a definition
that was read lowers it.  The row ends at the end of the input only, since an attempt that is
refused gives a fault. -/
theorem attemptsUpTo_reads (mode : ErrorMode) (n : Nat) :
    ∀ c : Cursor, c.remaining ≤ n → (∀ t ∈ c.ahead, t.kind ≠ .eof) →
      (attemptsUpTo mode n c).1.filterMap Attempt.fault? = [] →
      ∃ read, c.Reads SplitsTo read (attemptsUpTo mode n c).2
        ∧ (attemptsUpTo mode n c).2.ahead = []
        ∧ read ∈ (((attemptsUpTo mode n c).1.filterMap Attempt.definition?).map
            Definition.spelling).prod := by
  induction n with
  | zero =>
    intro c hc _ _
    exact ⟨[], .refl c, Cursor.ahead_eq_nil_of_remaining (Nat.le_zero.1 hc), rfl⟩
  | succ n ih =>
    intro c hc hahead hfaults
    rw [attemptsUpTo] at hfaults ⊢
    by_cases hend : c.atEnd = true
    · rw [if_pos hend]
      have hnil : c.ahead = [] := by
        by_contra hne
        obtain ⟨t, ts, hts⟩ := List.exists_cons_of_ne_nil hne
        have hkind : t.kind = .eof := by simpa [Cursor.atEnd, Cursor.peek, hts] using hend
        exact hahead t (by simp [hts]) hkind
      exact ⟨[], .refl c, hnil, rfl⟩
    rw [if_neg hend] at hfaults ⊢
    rcases hdef : Parser.definition c with ⟨d, behind⟩ | ⟨fault, behind⟩
    · obtain ⟨ts, hread, hspelled, -⟩ := (Parser.definition_ensures c).ok d behind hdef
      have hne : ts ≠ [] := fun h => d.nil_notMem_spelling (h ▸ hspelled)
      have hlt := hread.remaining_lt hne
      have hbehind : ∀ t ∈ behind.ahead, t.kind ≠ .eof := fun t ht =>
        SplitsTo.kind_ne hread.ahead hahead t (by simp [ht])
      simp only [hdef] at hfaults ⊢
      obtain ⟨us, hread', hnil, hspelled'⟩ := ih behind (by omega) hbehind (by
        simpa [Attempt.fault?] using hfaults)
      refine ⟨ts ++ us, hread.trans hread', hnil, ?_⟩
      simpa [Attempt.definition?, Except.toOption] using prod_cons_mem hspelled hspelled'
    · simp only [hdef] at hfaults
      cases mode <;> simp [Attempt.fault?] at hfaults

/-! ## Source files -/

/-- Nothing is lost, doubled or moved by parsing: the tokens of a source that is parsed, without
the one at the end of the input, fall by the splits that the parser made into the tokens that it
left behind, and these are spelled by the definitions of the file, one after the other.  Their
texts follow from their kinds, but for names, which the spelling holds, and numbers.

**Proof sketch.** The attempts have no fault, so that the definitions spell all tokens up to the
end of the input, as the attempts split them; and splits of lexed tokens are lexed. -/
theorem parse_spells {source : String} {file : SourceFile} (h : parse source = .ok file) :
    ∃ (tokens : List Token) (eof : Token) (read : List Token),
      tokenize source = .ok (tokens ++ [eof]) ∧ eof.kind = .eof ∧ (∀ t ∈ tokens, t.kind ≠ .eof)
        ∧ (readDefinitions .failFast (.ofTokens (tokens ++ [eof]))).behind.tokens = read ++ [eof]
        ∧ SplitsTo tokens read ∧ (∀ t ∈ read, t.IsLexed) ∧ read ∈ file.spelling := by
  rcases htokenize : tokenize source with fault | all
  · simp [parse, htokenize, Except.bind] at h
  obtain ⟨tokens, eof, rfl, heof, hlexed⟩ := exists_of_tokenize htokenize
  have hkinds : ∀ t ∈ tokens, t.kind ≠ .eof := fun t ht => (hlexed t ht).1
  have hparse : parseTokens (tokens ++ [eof]) = .ok file := by
    simpa [parse, htokenize, Except.bind] using h
  refine ⟨tokens, eof, ?_⟩
  unfold parseTokens at hparse
  rw [Cursor.ofTokens_append heof] at hparse ⊢
  simp only at hparse
  split at hparse
  case h_2 => simp at hparse
  case h_1 hfaults =>
    obtain rfl := Except.ok.inj hparse
    obtain ⟨read, hread, hnil, hspelled⟩ :=
      attemptsUpTo_reads .failFast _ ⟨[], tokens, eof, heof⟩ le_rfl hkinds hfaults
    have hsplits : SplitsTo tokens read := by
      have hahead := hread.ahead
      rwa [hnil, List.append_nil] at hahead
    refine ⟨read, rfl, heof, hkinds, ?_, hsplits, hsplits.isLexed hlexed, hspelled⟩
    have htokens : (attempts .failFast ⟨[], tokens, eof, heof⟩).2.tokens = read ++ [eof] := by
      rw [Cursor.tokens, attempts, hnil, hread.past, hread.closing]
      simp
    exact htokens

/-- The statements of this routine are spelled by its tokens with an arrow and a signed number
split. -/
theorem parse_spells_assignment :
    ∃ file, parse "crunch f x -> y: y <- x <-1 y - 1" = .ok file
      ∧ ∃ (tokens : List Token) (eof : Token) (read : List Token),
        tokenize "crunch f x -> y: y <- x <-1 y - 1" = .ok (tokens ++ [eof]) ∧ eof.kind = .eof
          ∧ (∀ t ∈ tokens, t.kind ≠ .eof)
          ∧ (readDefinitions .failFast (.ofTokens (tokens ++ [eof]))).behind.tokens = read ++ [eof]
          ∧ SplitsTo tokens read ∧ (∀ t ∈ read, t.IsLexed) ∧ read ∈ file.spelling := by
  have hok : (parse "crunch f x -> y: y <- x <-1 y - 1").toOption.isSome = true := by
    decide +kernel
  rcases h : parse "crunch f x -> y: y <- x <-1 y - 1" with fault | file
  · simp [h, Except.toOption] at hok
  · exact ⟨file, rfl, parse_spells h⟩

end RakeLang
