import RakeLang.Proofs.Mirroring.Mirror
import RakeLang.Proofs.Settling.Parameter

/-!
# Types, scalar literals and parameters mirror each other

The word `stack` or `single` behind the name of a record is the one place where a reading could go
on with a token that opens a definition.  Where the left input ends there, the type is refused on
the left side, so that there is nothing to mirror.

## Main results

* `RakeLang.Parser.dataType_mirrors`, `RakeLang.Parser.scalarLiteral_mirrors`,
  `RakeLang.Parser.parameters_mirrors` — they are read alike.
-/

set_option relaxedAutoImplicit false
set_option autoImplicit false

namespace RakeLang.Parser

open Token

variable {M : Mirror} {c d : Cursor}

/-! ## Types -/

section DataType

/-- What a type leads to. -/
abbrev TypesAlike (M : Mirror) (t t' : DataType) : Prop := M.Alike DataType.mapSpans t t'

/-- Types with a name mirror each other. -/
lemma namedType_mirrors (h : M.Rel c d) (hsame : M.Same c d) :
    Mirrors M namedType namedType c d (TypesAlike M) := by
  unfold namedType
  refine .peek_bind ?_
  rw [← hsame.lexeme]
  split
  · refine .advance_bind h hsame fun hrel => .pure hrel ?_
    simp only [TypesAlike, Mirror.Alike, DataType.mapSpans, M.view hsame.span]
  · split
    · exact .unexpected h
    · refine .advance_bind h hsame fun hrel => ?_
      refine .checkWord_cases hrel (fun hsame' => ?_) ?_
      · refine .advance_bind hrel hsame' fun hrel' => ?_
        refine .spanFrom_bind hrel' hsame.span fun s s' hs => .pure hrel' ?_
        simp only [TypesAlike, Mirror.Alike, DataType.mapSpans, M.view hs]
      · refine .pure hrel ?_
        simp only [TypesAlike, Mirror.Alike, DataType.mapSpans, M.view hsame.span]

/-- Types of records mirror each other.

**Proof sketch.** Behind the name a word must stand.  At the end of the left input there is none, so
that the left side refuses; elsewhere the same token stands on both sides, and they go the same way.
-/
lemma recordType_mirrors (h : M.Rel c d) :
    Mirrors M recordType recordType c d (TypesAlike M) := by
  unfold recordType
  refine .expect_bind h (by simp) fun hname hrel => ?_
  -- at the end of the left input, none of the words stands behind the name
  refine .of_refused_at_end hrel (fun hc a b hab => ?_) fun hsame => ?_
  · have hkind := Cursor.peek_kind_of_ahead_nil hc
    rw [bind_of_ok (eat_of_ne (by simp [hkind]))] at hab
    simp only [Bool.false_eq_true, if_false] at hab
    rw [bind_of_ok (eat_of_ne (by simp [hkind]))] at hab
    simp only [Bool.false_eq_true, if_false] at hab
    have hword : checkWord "pack" c.advance = .ok false c.advance := by simp [checkWord, hkind]
    rw [bind_of_ok hword] at hab
    cases hab
  refine .eat_bind_of_same hrel hsame (fun hrel => ?_) ?_
  · refine .spanFrom_bind hrel hname.span fun s s' hs => .pure hrel ?_
    simp only [TypesAlike, Mirror.Alike, DataType.mapSpans, hname.lexeme, M.view hs]
  refine .eat_bind_of_same hrel hsame (fun hrel => ?_) ?_
  · refine .spanFrom_bind hrel hname.span fun s s' hs => .pure hrel ?_
    simp only [TypesAlike, Mirror.Alike, DataType.mapSpans, hname.lexeme, M.view hs]
  refine .checkWord_cases hrel (fun _ => ?_) (.unexpected hrel)
  refine .advance_bind hrel hsame fun hrel => ?_
  refine .spanFrom_bind hrel hname.span fun s s' hs => .pure hrel ?_
  simp only [TypesAlike, Mirror.Alike, DataType.mapSpans, hname.lexeme, M.view hs]

/-- Tuples of types and types of functions mirror each other. -/
lemma listedType_mirrors {inner inner' : Parser DataType} [Lowers inner] [Lowers inner']
    (hinner : ∀ c d, M.Rel c d → Mirrors M inner inner' c d (TypesAlike M)) (h : M.Rel c d) :
    Mirrors M (listedType inner) (listedType inner') c d (TypesAlike M) := by
  unfold listedType
  refine .expect_bind h (by simp) fun hstart hrel => ?_
  refine (Mirrors.commaSeparated hrel (by simp) rfl hinner).bind ?_
  rintro items items' c₁ d₁ hitems hrel
  have hempty : items.isEmpty = items'.isEmpty := by cases hitems <;> rfl
  have hitems := Mirror.Alike.of_forall₂ hitems
  refine .expect_bind hrel (by simp) fun _ hrel => ?_
  refine .eat_bind hrel (by simp) rfl (fun hrel => ?_) ?_
  · refine (hinner _ _ hrel).bind ?_
    rintro result result' c₂ d₂ hresult hrel
    refine .spanFrom_bind hrel hstart.span fun s s' hs => .pure hrel ?_
    simp only [TypesAlike, Mirror.Alike, DataType.mapSpans, hitems, M.view hs]
    rw [hresult]
  · refine .spanFrom_bind hrel hstart.span fun s s' hs => .pure hrel ?_
    rw [← hempty]
    split
    · simp only [TypesAlike, Mirror.Alike, DataType.mapSpans, M.view hs]
    · simp only [TypesAlike, Mirror.Alike, DataType.mapSpans, hitems, M.view hs]

/-- Types with bounds that differ by no more than what the right input is longer.

**Proof sketch.** Induction on the bound of the left side.  Where it is spent the type is refused
on the left side, and on the right one as well if the bounds are equal. -/
lemma dataTypeUpTo_mirrors (n k : Nat) (hk : M.total → k = 0) :
    ∀ c d, M.Rel c d → Mirrors M (dataTypeUpTo n) (dataTypeUpTo (n + k)) c d (TypesAlike M) := by
  induction n with
  | zero =>
    intro c d h
    refine ⟨nofun, fun htotal fault c' hp => ?_⟩
    rw [hk htotal]
    exact (Mirrors.unexpected (P := TypesAlike M) h).error htotal fault c' hp
  | succ n ih =>
    intro c d h
    have : Lowers (dataTypeUpTo n) := .of_ensures (R := Eq) (dataTypeUpTo_ensures n)
    have : Lowers (dataTypeUpTo (n + k)) := .of_ensures (R := Eq) (dataTypeUpTo_ensures (n + k))
    rw [Nat.add_right_comm]
    refine .kind_cases h (fun _ _ _ hp => nomatch hp) fun hsame => ?_
    split
    · exact namedType_mirrors h hsame
    · exact recordType_mirrors h
    · exact listedType_mirrors ih h
    · exact .unexpected h

/-- **Types mirror each other.** -/
theorem dataType_mirrors (h : M.Rel c d) : Mirrors M dataType dataType c d (TypesAlike M) := by
  obtain ⟨k, hremaining, hk⟩ := M.remaining h
  exact (dataTypeUpTo_mirrors c.remaining k hk c d h).congr rfl (by rw [← hremaining]; rfl)

end DataType

/-! ## Numbers -/

section Number

/-- A refusal of the numeral that both sides show. -/
lemma numeral_refused {α β : Type} {Q : α → β → Prop} {lexeme : String} {s s' : Span}
    (h : M.Rel c d) (hs : M.Spans s s') :
    Mirrors M (throw (.numeral lexeme s)) (throw (.numeral lexeme s')) c d Q :=
  .refused h rfl rfl fun _ =>
    ⟨congrArg (Fault.numeral lexeme) (M.view hs), s, s', rfl, rfl, hs⟩

/-- Integer literals mirror each other. -/
lemma intLiteral_mirrors (h : M.Rel c d) : Mirrors M intLiteral intLiteral c d Eq := by
  unfold intLiteral
  refine .expect_bind h (by simp) fun hsame hrel => ?_
  rw [← hsame.lexeme]
  rcases Numeral.readInt? c.peek.lexeme with _ | v
  · exact numeral_refused hrel hsame.span
  · exact .pure hrel rfl

/-- Float literals mirror each other. -/
lemma floatLiteral_mirrors (h : M.Rel c d) : Mirrors M floatLiteral floatLiteral c d Eq := by
  unfold floatLiteral
  refine .expect_bind h (by simp) fun hsame hrel => ?_
  rw [← hsame.lexeme]
  rcases Numeral.readFloat? c.peek.lexeme with _ | v
  · exact numeral_refused hrel hsame.span
  · exact .pure hrel rfl

/-- Numbers mirror each other. -/
lemma number?_mirrors (h : M.Rel c d) : Mirrors M number? number? c d Eq := by
  unfold number?
  refine .kind_cases_or h (fun _ => rfl) (fun _ _ _ => rfl) (fun _ => rfl) (fun _ => rfl) rfl
    fun hsame => ?_
  · split
    · refine (intLiteral_mirrors h).bind ?_
      rintro v _ c₁ d₁ rfl hrel
      exact .pure hrel rfl
    · refine (floatLiteral_mirrors h).bind ?_
      rintro v _ c₁ d₁ rfl hrel
      exact .pure hrel rfl
    · exact .pure h rfl

/-- The opposite of a number mirrors itself: where it does not fit, it is refused on both sides. -/
lemma negated_mirrors (n : Number) (h : M.Rel c d) :
    Mirrors M (negated n) (negated n) c d Eq := by
  rcases hn : n.negate? with _ | m
  · have hrun (e : Cursor) :
        negated n e = .error (.numeral ("-" ++ n.render) e.previousSpan) e := by
      simp [negated, hn]
    exact (numeral_refused h (M.previous h)).congr (hrun c) (hrun d)
  · exact (Mirrors.pure (a := m) (b := m) h rfl).congr (by simp [negated, hn]; rfl)
      (by simp [negated, hn]; rfl)

/-- Numbers behind a minus sign mirror each other. -/
lemma negatedNumber?_mirrors (h : M.Rel c d) :
    Mirrors M negatedNumber? negatedNumber? c d Eq := by
  unfold negatedNumber?
  refine (number?_mirrors h).bind ?_
  rintro o _ c₁ d₁ rfl hrel
  rcases o with _ | n
  · exact .pure hrel rfl
  · refine (negated_mirrors n hrel).bind ?_
    rintro m _ c₂ d₂ rfl hrel
    exact .pure hrel rfl

end Number

/-! ## Scalar literals -/

section Scalar

/-- Fields on the path of a scalar mirror each other. -/
lemma pathField_mirrors (h : M.Rel c d) :
    Mirrors M pathField pathField c d (Option.Rel Eq) := by
  unfold pathField
  refine .check_cases h (by simp) (·.kind_ne rfl) (fun hsame hc => ?_) (.pure h .none)
  refine .checkAhead_cases h hsame (by simp [hc]) (by simp) rfl fun ahead => ?_
  rcases ahead
  · exact .pure h .none
  · refine .advance_bind h hsame fun hrel => ?_
    refine .expect_bind hrel (by simp) fun hfield hrel => .pure hrel (.some hfield.lexeme)

/-- No number is read where none stands. -/
lemma number?_of_kind {e : Cursor} (h : e.peek.kind.isNumber = false) :
    number? e = .ok none e := by
  refine bind_eq_ok.2 ⟨_, e, rfl, ?_⟩
  refine congrFun (?_ : _ = (pure none : Parser (Option Number))) e
  split
  · rename_i hkind
    rw [hkind] at h
    cases h
  · rename_i hkind
    rw [hkind] at h
    cases h
  · rfl

/-- The values of scalar literals mirror each other. -/
lemma scalarValue?_mirrors (h : M.Rel c d) : Mirrors M scalarValue? scalarValue? c d Eq := by
  unfold scalarValue?
  refine .kind_cases_or (a := none) (b := none) h
    (fun hc => bind_of_ok (number?_of_kind (by rw [hc]; rfl)))
    (fun word _ hd => bind_of_ok (number?_of_kind (by rw [hd]; rfl)))
    (fun hd => bind_of_ok (number?_of_kind (by rw [hd]; rfl)))
    (fun hd => bind_of_ok (number?_of_kind (by rw [hd]; rfl))) rfl fun hsame => ?_
  split
  · refine .advance_bind h hsame fun hrel => ?_
    refine (Mirrors.many (fun _ _ h => pathField_mirrors h) hrel).bind ?_
    rintro fields fields' c₁ d₁ hfields hrel
    rw [List.forall₂_eq_eq_eq] at hfields
    rw [hsame.lexeme, hfields]
    exact .pure hrel rfl
  · refine .advance_bind h hsame fun hrel => (negatedNumber?_mirrors hrel).bind ?_
    rintro o _ c₁ d₁ rfl hrel
    exact .pure hrel rfl
  · refine (number?_mirrors h).bind ?_
    rintro o _ c₁ d₁ rfl hrel
    exact .pure hrel rfl

/-- Scalar literals behind their opening tokens mirror each other. -/
lemma openedScalar?_mirrors (h : M.Rel c d) :
    Mirrors M openedScalar? openedScalar? c d Eq := by
  unfold openedScalar?
  refine .kind_cases_or h (fun _ => rfl) (fun _ _ _ => rfl) (fun _ => rfl) (fun _ => rfl) rfl
    fun hsame => ?_
  · split
    · exact .advance_bind h hsame scalarValue?_mirrors
    · refine .advance_bind h hsame fun hrel => (negatedNumber?_mirrors hrel).bind ?_
      rintro o _ c₁ d₁ rfl hrel
      exact .pure hrel rfl
    · exact .pure h rfl

/-- What a scalar literal leads to. -/
def LiteralsAlike (M : Mirror) (l l' : ScalarLiteral) : Prop :=
  M.Alike ScalarLiteral.mapSpans l l' ∧ M.Spans l.span l'.span

/-- Trials of scalar literals mirror each other. -/
lemma scalarTrial_mirrors (h : M.Rel c d) (hsame : M.Same c d) :
    Mirrors M scalarTrial scalarTrial c d (Option.Rel (LiteralsAlike M)) := by
  unfold scalarTrial
  refine .peek_bind ((openedScalar?_mirrors h).bind ?_)
  rintro o _ c₁ d₁ rfl hrel
  rcases o with _ | value
  · exact .pure hrel .none
  · refine .eat_bind hrel (by simp) rfl (fun hrel => ?_) (.pure hrel .none)
    refine .spanFrom_bind hrel hsame.span fun s s' hs => .pure hrel (.some ⟨?_, hs⟩)
    simp only [Mirror.Alike, ScalarLiteral.mapSpans, M.view hs]

/-- **Scalar literals mirror each other.**  Where one is refused on both sides, the cursors stay.

**Proof sketch.** The trials mirror each other.  Where they find a literal, so do both sides; where
they find none, both sides go back to the token at which they began and refuse it. -/
theorem scalarLiteral_mirrors (h : M.Rel c d) :
    Mirrors M scalarLiteral scalarLiteral c d (LiteralsAlike M) := by
  refine .of_strict h (strict_scalarLiteral c) fun hsame => ?_
  have htrial := scalarTrial_mirrors h hsame
  constructor
  · intro l c' hp
    rw [scalarLiteral_eq] at hp
    rcases hrun : scalarTrial c with ⟨_ | l', c₁⟩ | ⟨fault, c₁⟩
    · simp [hrun] at hp
    · simp only [hrun] at hp
      obtain ⟨rfl, rfl⟩ := EStateM.Result.ok.inj hp
      obtain ⟨o, d', hd, ho, hrel⟩ := htrial.ok _ _ hrun
      cases ho with
      | some hl => exact ⟨_, d', by simp [scalarLiteral_eq, hd], hl, hrel⟩
    · simp [hrun] at hp
  · intro htotal fault c' hp
    rw [scalarLiteral_eq] at hp
    rcases hrun : scalarTrial c with ⟨_ | l', c₁⟩ | ⟨fault', c₁⟩
    · simp only [hrun] at hp
      obtain ⟨rfl, rfl⟩ := EStateM.Result.error.inj hp
      obtain ⟨o, d', hd, ho, -⟩ := htrial.ok _ _ hrun
      cases ho
      exact ⟨.unclosedScalar d.peek.span, d, by simp [scalarLiteral_eq, hd],
        ⟨congrArg Fault.unclosedScalar (M.view hsame.span), _, _, rfl, rfl, hsame.span⟩, h⟩
    · simp [hrun] at hp
    · simp only [hrun] at hp
      obtain ⟨rfl, rfl⟩ := EStateM.Result.error.inj hp
      obtain ⟨other, d', hd, hfaults, hrel⟩ := htrial.error htotal _ _ hrun
      exact ⟨other, d', by simp [scalarLiteral_eq, hd], hfaults, hrel⟩

end Scalar

/-! ## Parameters -/

section Parameter

/-- A colon, a type and a closing parenthesis behind the name or the literal of a parameter. -/
lemma ascription_mirrors {α β : Type} {f : DataType → Parser α} {g : DataType → Parser β}
    {Q : α → β → Prop} (h : M.Rel c d)
    (hf : ∀ t t' c₁ d₁, TypesAlike M t t' → M.Rel c₁ d₁ → Mirrors M (f t) (g t') c₁ d₁ Q) :
    Mirrors M
      (do let _ ← expect (.symbol .colon); let t ← dataType; let _ ← expect (.symbol .rParen); f t)
      (do let _ ← expect (.symbol .colon); let t ← dataType; let _ ← expect (.symbol .rParen); g t)
      c d Q := by
  refine .expect_bind h (by simp) fun _ hrel => (dataType_mirrors hrel).bind ?_
  rintro t t' c₁ d₁ ht hrel
  exact .expect_bind hrel (by simp) fun _ hrel => hf t t' _ _ ht hrel

/-- Parameters with a type mirror each other. -/
lemma typedParameter_mirrors (h : M.Rel c d) :
    Mirrors M typedParameter typedParameter c d (M.Alike Parameter.mapSpans) := by
  unfold typedParameter
  refine .expect_bind h (by simp) fun hstart hrel => ?_
  refine .kind_cases hrel (fun _ _ _ hp => nomatch hp) fun hsame => ?_
  split
  case h_1 =>
    refine .advance_bind hrel hsame fun hrel => ?_
    refine ascription_mirrors hrel fun t t' c₁ d₁ ht hrel => ?_
    refine .spanFrom_bind hrel hstart.span fun s s' hs => .pure hrel ?_
    simp only [Mirror.Alike, Parameter.mapSpans, Option.map_some, hsame.lexeme, M.view hs]
    rw [ht]
  case h_2 | h_3 =>
    refine (scalarLiteral_mirrors hrel).bind ?_
    rintro l l' c₁ d₁ hl hrel
    refine ascription_mirrors hrel fun t t' c₁ d₁ ht hrel => ?_
    refine .spanFrom_bind hrel hstart.span fun s s' hs => .pure hrel ?_
    simp only [Mirror.Alike, Parameter.mapSpans, Option.map_some, M.view hs]
    rw [ht, hl.1]
  case h_4 => exact .unexpected hrel

/-- Parameters mirror each other, and so do the places where there is none.

**Proof sketch.** By the kind of the token at the cursor, which is the same on both sides unless the
left input is at its end; there no parameter is read on either side. -/
lemma parameter?_mirrors (h : M.Rel c d) :
    Mirrors M parameter? parameter? c d (Option.Rel (M.Alike Parameter.mapSpans)) := by
  have hscalar : Mirrors M (scalarLiteral >>= fun l => pure (some (.scalar l none l.span)))
      (scalarLiteral >>= fun l => pure (some (.scalar l none l.span))) c d
      (Option.Rel (M.Alike Parameter.mapSpans)) := by
    refine (scalarLiteral_mirrors h).bind ?_
    rintro l l' c₁ d₁ hl hrel
    refine .pure hrel (.some ?_)
    simp only [Mirror.Alike, Parameter.mapSpans, Option.map_none, M.view hl.2]
    rw [hl.1]
  unfold parameter?
  refine .kind_cases_or h (fun _ => rfl) (fun _ _ _ => rfl) (fun _ => rfl) (fun _ => rfl) .none
    fun hsame => ?_
  split
  · refine .advance_bind h hsame fun hrel => .pure hrel (.some ?_)
    simp only [Mirror.Alike, Parameter.mapSpans, Option.map_none, hsame.lexeme, M.view hsame.span]
  · exact hscalar
  · exact hscalar
  · refine (typedParameter_mirrors h).bind ?_
    rintro p p' c₁ d₁ hp hrel
    exact .pure hrel (.some hp)
  · exact .pure h .none

/-- **Parameters mirror each other.** -/
theorem parameters_mirrors (h : M.Rel c d) :
    Mirrors M parameters parameters c d (List.Forall₂ (M.Alike Parameter.mapSpans)) :=
  .many (fun _ _ h => parameter?_mirrors h) h

end Parameter

end RakeLang.Parser
