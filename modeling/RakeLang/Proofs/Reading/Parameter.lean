import RakeLang.Proofs.Canonical.Expression
import RakeLang.Proofs.Reading.Parser
import RakeLang.Proofs.Spelling.Expression

/-!
# What the readers of types, literals and parameters ensure

Types, numbers, scalar literals and parameters spell the tokens that they were read from, at their
place, and their types are canonical.  Their readers split no token, so all statements hold for
every relation between the tokens ahead, equality included.

## Main results

* `RakeLang.Parser.dataType_ensures` — types.
* `RakeLang.Parser.number?_ensures`, `RakeLang.Parser.intLiteral_ensures` — numbers.
* `RakeLang.Parser.scalarLiteral_ensures` — scalar literals.
* `RakeLang.Parser.parameters_ensures` — parameters.
-/

set_option relaxedAutoImplicit false
set_option autoImplicit false

namespace RakeLang

open Spelling

/-- The word that names a lane type is the word of that type. -/
lemma LaneType.word_of_ofWord? {text : String} {type : LaneType}
    (h : ofWord? text = some type) : type.word = text := by
  simp only [ofWord?, Option.or_eq_some_iff, Option.map_eq_some_iff] at h
  rcases h with ⟨t, ht, rfl⟩ | ⟨-, t, ht, rfl⟩
  · simpa [LaneType.word] using List.find?_some ht
  · simpa [LaneType.word] using List.find?_some ht

namespace Parser

open Token

variable {R : List Token → List Token → Prop} [Rewriting R] {c : Cursor}

/-! ## Types -/

/-- What a type with a name is read from spells it at its place, and it is canonical.

**Proof sketch.** A mask is its word.  Any other word is the name of a lane, which is a rack if the
word `rack` stands behind it. -/
lemma namedType_ensures (hc : c.peek.kind = .ident) :
    namedType.Ensures R c fun t ts _ => ts ∈ t.placed ∧ t.Canonical := by
  unfold namedType
  refine .of_reads (.peek_bind ?_)
  split
  case isTrue hmask =>
    refine .advance_bind (by simp [hc]) (.pure fun _ => ?_)
    rw [DataType.placed]
    exact ⟨singleton_mem_covering (by simpa [word, hc] using hmask), by simp [DataType.Canonical]⟩
  case isFalse =>
    split
    · exact .unexpected
    · rename_i type htype
      have hword := LaneType.word_of_ofWord? htype
      refine .advance_bind (by simp [hc]) (.checkWord_bind ?_)
      split
      case isTrue hrack =>
        have hrack : c.advance.peek.kind = .ident ∧ c.advance.peek.lexeme = "rack" := by
          simpa using hrack
        refine .advance_bind (by simp [hrack.1]) (.spanFrom_bind (.pure fun hread => ?_))
        rw [DataType.placed]
        exact ⟨⟨by simp [word, hc, hword, hrack], hread.covers⟩, by simp [DataType.Canonical]⟩
      case isFalse =>
        refine .pure fun _ => ?_
        rw [DataType.placed]
        exact ⟨singleton_mem_covering (by simp [word, hc, hword]), by simp [DataType.Canonical]⟩

/-- What a type of records is read from spells it at its place, and it is canonical.

**Proof sketch.** One case for each word that may stand behind the name.  In each the two tokens
spell the type, and the span goes from one to the other. -/
lemma recordType_ensures :
    recordType.Ensures R c fun t ts _ => ts ∈ t.placed ∧ t.Canonical := by
  unfold recordType
  refine .of_reads (.expect_bind_peek (by simp) fun hname => ?_)
  refine .eat_bind_peek (by simp) (fun hstack => ?_) fun _ =>
    .eat_bind_peek (by simp) (fun hsingle => ?_) fun _ => .checkWord_bind ?_
  · refine .spanFrom_bind (.pure fun hread => ?_)
    rw [DataType.placed]
    exact ⟨⟨by simp [word, keyword, hname, hstack], hread.covers⟩, by simp [DataType.Canonical]⟩
  · refine .spanFrom_bind (.pure fun hread => ?_)
    rw [DataType.placed]
    exact ⟨⟨by simp [word, keyword, hname, hsingle], hread.covers⟩, by simp [DataType.Canonical]⟩
  · split
    case isTrue hpack =>
      have hpack : c.advance.peek.kind = .ident ∧ c.advance.peek.lexeme = "pack" := by
        simpa using hpack
      refine .advance_bind (by simp [hpack.1]) (.spanFrom_bind (.pure fun hread => ?_))
      rw [DataType.placed]
      exact ⟨⟨by simp [word, hname, hpack], hread.covers⟩, by simp [DataType.Canonical]⟩
    case isFalse => exact .unexpected

/-- What a tuple of types or a type of functions is read from spells it at its place, and it is
canonical.

**Proof sketch.** The types in the parentheses are read one after the other, with commas between
them.  An arrow behind the parentheses makes a type of functions of them; without one they are a
tuple. -/
lemma listedType_ensures {inner : Parser DataType}
    (hinner : ∀ c, inner.Ensures R c fun t ts _ => ts ∈ t.placed ∧ t.Canonical) :
    (listedType inner).Ensures R c fun t ts _ => ts ∈ t.placed ∧ t.Canonical := by
  unfold listedType
  refine .of_reads (.expect_bind_peek (by simp) fun hlp => ?_)
  refine (Ensures.commaSeparated hinner _).bind fun items ts c₁ _ hitems => ?_
  refine .expect_bind (by simp) fun rp hrp => ?_
  refine .eat_bind (by simp) (fun arrow harrow => ?_) (.spanFrom_bind (.pure fun hread => ?_))
  · refine (hinner _).bind fun result us c₂ _ hresult => ?_
    refine .spanFrom_bind (.pure fun hread => ?_)
    rw [DataType.placed, DataType.Canonical]
    refine ⟨⟨?_, hread.covers⟩, hitems.2, hresult.2⟩
    rw [List.append_nil]
    simp only [cons_mem_token_mul, sign]
    exact ⟨hlp, Language.append_mem_mul hitems.1 (by simpa [hrp, harrow] using hresult.1)⟩
  · rcases items with _ | ⟨t, items⟩
    · obtain rfl : ts = [] := hitems.1
      simp only [List.isEmpty_nil, if_true]
      rw [DataType.placed]
      exact ⟨⟨by simp [sign, hlp, hrp], hread.covers⟩, by simp [DataType.Canonical]⟩
    · simp only [List.isEmpty_cons, Bool.false_eq_true, if_false]
      rw [DataType.placed, DataType.Canonical]
      refine ⟨⟨?_, hread.covers⟩, by simp, hitems.2⟩
      simp only [cons_mem_token_mul, sign]
      exact ⟨hlp, append_singleton_mem hitems.1 hrp⟩

/-- What a type of bounded depth is read from spells it at its place, and it is canonical. -/
lemma dataTypeUpTo_ensures (n : Nat) :
    ∀ c, (dataTypeUpTo n).Ensures R c fun t ts _ => ts ∈ t.placed ∧ t.Canonical := by
  induction n with
  | zero => intro c; exact .unexpected
  | succ n ih =>
    intro c
    unfold dataTypeUpTo
    apply Ensures.peekKind_bind
    split
    · exact namedType_ensures ‹_›
    · exact recordType_ensures
    · exact listedType_ensures ih
    · exact .unexpected

/-- What a type is read from spells the type at its place, and the type is canonical. -/
theorem dataType_ensures (c : Cursor) :
    dataType.Ensures R c fun t ts _ => ts ∈ t.placed ∧ t.Canonical :=
  (dataTypeUpTo_ensures c.remaining c).congr rfl

/-! ## Numbers -/

/-- An integer literal is read from one token, which spells it. -/
theorem intLiteral_ensures (c : Cursor) :
    intLiteral.Ensures R c fun v ts _ => ts = [c.peek] ∧ ts ∈ integer v := by
  unfold intLiteral
  refine .expect_bind_peek (by simp) fun ht => ?_
  split
  · rename_i v hv
    exact .pure ⟨rfl, by simp [integer, ht, hv]⟩
  · exact .throw (Cursor.mem_tokens_advance (by simp [ht])) rfl

/-- A float literal is read from one token, which spells it. -/
lemma floatLiteral_ensures (c : Cursor) :
    floatLiteral.Ensures R c fun v ts _ => ts = [c.peek] ∧ ts ∈ (Number.float v).spelling := by
  unfold floatLiteral
  refine .expect_bind_peek (by simp) fun ht => ?_
  split
  · rename_i v hv
    exact .pure ⟨rfl, by simp [Number.spelling, Token.number?, ht, hv]⟩
  · exact .throw (Cursor.mem_tokens_advance (by simp [ht])) rfl

/-- A number is read from the token at the cursor, which spells it.

**Proof sketch.** By cases on the kind of the token, which is consumed if it is a number; a
value that was read is the value of its lexeme. -/
theorem number?_ensures (c : Cursor) :
    number?.Ensures R c fun o ts _ =>
      Ensures.Answers (fun n => covering c.peek.span n.spelling) (fun _ => True) o ts := by
  unfold number?
  apply Ensures.peekKind_bind
  split
  · refine (intLiteral_ensures c).bind ?_
    rintro v _ c₁ - ⟨rfl, hv⟩
    refine .pure ⟨singleton_mem_covering ?_, trivial⟩
    have hv : c.peek.kind = .int ∧ Numeral.readInt? c.peek.lexeme = some v := by
      simpa [integer] using hv
    simp [Number.spelling, Token.number?, hv]
  · refine (floatLiteral_ensures c).bind ?_
    rintro v _ c₁ - ⟨rfl, hv⟩
    exact .pure ⟨singleton_mem_covering hv, trivial⟩
  · exact .pure rfl

/-- The opposite of a number is read from no token. -/
lemma negated_ensures (n : Number) (c : Cursor) :
    (negated n).Ensures R c fun m ts _ => n.negate? = some m ∧ ts = [] := by
  rcases hn : n.negate? with _ | m
  · have hneg : negated n c = .error (.numeral ("-" ++ n.render) c.previousSpan) c := by
      simp [negated, hn]
    exact .refused hneg c.headD_past_mem_tokens rfl
  · exact .stay (a := m) (by simp [negated, hn]) (by simp)

/-- The opposite of a number is answered for a token that spells the number. -/
lemma negatedNumber?_ensures (c : Cursor) :
    negatedNumber?.Ensures R c fun o ts _ =>
      Ensures.Answers Number.oppositeSpelling (fun _ => True) o ts := by
  unfold negatedNumber?
  refine (number?_ensures c).bind fun o ts c₁ _ ho => ?_
  rcases o with _ | n
  · exact .pure (by simpa [Ensures.Answers] using ho)
  · refine (negated_ensures n c₁).bind fun m us c₂ _ hm => .pure ?_
    obtain ⟨⟨⟨t, ht, rfl⟩, -⟩, -⟩ := ho
    obtain ⟨hm, rfl⟩ := hm
    simpa [Ensures.Answers, Number.oppositeSpelling, ht] using hm

/-! ## Scalar literals -/

/-- What a field on the path of a scalar is read from spells it. -/
lemma pathField_ensures (c : Cursor) :
    pathField.Ensures R c fun o ts _ =>
      Ensures.Answers (fun f => sign .dot * word .ident f) (fun _ => True) o ts := by
  unfold pathField
  refine .check_bind (.checkAhead_bind ?_)
  split
  case isTrue hdot =>
    have hdot : c.peek.kind = .symbol .dot ∧ (c.lookahead 1).kind = .ident := by simpa using hdot
    refine .advance_bind (by simp [hdot.1]) (.expect_bind (by simp) fun field hfield => .pure ?_)
    simp [Ensures.Answers, sign, word, hdot.1, hfield]
  case isFalse => exact .pure rfl

/-- What the value of a scalar literal is read from spells the literal behind a less-than sign.

**Proof sketch.** By the token at the cursor: a number, a number behind a minus sign, or a name with
the fields of a path. -/
lemma scalarValue?_ensures (c : Cursor) :
    scalarValue?.Ensures R c fun o ts _ =>
      ∀ v ∈ o, ∀ t : Token, t.kind = .symbol .less → t :: ts ∈ v.spelling := by
  unfold scalarValue?
  apply Ensures.peekKind_bind
  split
  · rename_i hroot
    refine .advance_bind (by simp [hroot]) ?_
    refine (Ensures.many pathField_ensures _).bind fun fields ts c₁ _ hfields => .pure ?_
    rintro _ ⟨⟩ t ht
    simpa [ScalarValue.spelling, sign, word, ht, hroot] using hfields.1
  · rename_i hminus
    refine .advance_bind (by simp [hminus]) ?_
    refine (negatedNumber?_ensures _).bind fun o ts c₁ _ ho => .pure ?_
    rintro v hv t ht
    obtain ⟨n, rfl, rfl⟩ := Option.map_eq_some_iff.1 hv
    simp only [ScalarValue.spelling, sign, Language.mem_add, cons_mem_token_mul, List.append_nil]
    exact .inl ⟨ht, .inr ⟨hminus, ho.1⟩⟩
  · refine (number?_ensures _).bind fun o ts c₁ _ ho => .pure ?_
    rintro v hv t ht
    obtain ⟨n, rfl, rfl⟩ := Option.map_eq_some_iff.1 hv
    simp only [ScalarValue.spelling, sign, Language.mem_add, cons_mem_token_mul, List.append_nil]
    exact .inl ⟨ht, .inl ho.1.1⟩

/-- What a scalar literal is read from, up to its value, spells it.

**Proof sketch.** By cases on what opens the literal.  Behind an angle stands the value; behind an
arrow the number that is negated, which together with the arrow spells the opposite. -/
lemma openedScalar?_ensures (c : Cursor) :
    openedScalar?.Ensures R c fun o ts _ =>
      ∀ v ∈ o, ts ∈ v.spelling ∧ ∃ us, ts = c.peek :: us := by
  unfold openedScalar?
  apply Ensures.peekKind_bind
  split
  · rename_i hless
    refine .advance_bind (by simp [hless]) ?_
    exact (scalarValue?_ensures _).imp fun o ts c₁ ho v hv => ⟨ho v hv _ hless, ts, rfl⟩
  · rename_i harrow
    refine .advance_bind (by simp [harrow]) ?_
    refine (negatedNumber?_ensures _).bind fun o ts c₁ _ ho => .pure ?_
    rintro v hv
    obtain ⟨n, rfl, rfl⟩ := Option.map_eq_some_iff.1 hv
    refine ⟨?_, _, rfl⟩
    simp only [ScalarValue.spelling, sign, Language.mem_add, cons_mem_token_mul, List.append_nil]
    exact .inr ⟨harrow, ho.1⟩
  · exact .pure (by simp)

/-- What a trial of a scalar literal is read from spells the literal at its place, if there is one.
-/
lemma scalarTrial_ensures (c : Cursor) :
    scalarTrial.Ensures R c fun o ts _ => ∀ l ∈ o, ts ∈ l.placed := by
  unfold scalarTrial
  refine .of_reads (.peek_bind ((openedScalar?_ensures c).bind fun o ts c₁ _ ho => ?_))
  rcases o with _ | v
  · exact .pure (by simp)
  · refine .eat_bind (by simp) (fun t ht => .spanFrom_bind (.pure fun hread => ?_))
      (.pure (by simp))
    rintro _ ⟨⟩
    obtain ⟨hv, us, rfl⟩ := ho v rfl
    exact ⟨append_singleton_mem hv ht, hread.covers⟩

/-- A trial that comes to its end splits nothing, so that going back leads to where it began. -/
lemma seek_of_scalarTrial {c c₁ : Cursor} {o : Option ScalarLiteral}
    (h : scalarTrial c = .ok o c₁) :
    (∃ ts, c.Reads R ts c₁) ∧ c₁.seek c.position = c := by
  obtain ⟨ts, hread, -⟩ := (scalarTrial_ensures (R := Eq) c).ok o c₁ h
  refine ⟨⟨ts, hread.of_eq⟩, ?_⟩
  rw [hread.seek, ← hread.ahead]

/-- Where the tokens do not form a literal, a scalar literal leaves the whole cursor as it was, and
not only the position. -/
lemma scalarLiteral_eq (c : Cursor) :
    scalarLiteral c = match scalarTrial c with
      | .ok (some literal) behind => .ok literal behind
      | .ok none _ => .error (.unclosedScalar c.peek.span) c
      | .error fault behind => .error fault behind := by
  rw [scalarLiteral]
  rcases htrial : scalarTrial c with ⟨_ | literal, behind⟩ | ⟨fault, behind⟩
  · simp only [(seek_of_scalarTrial (R := Eq) htrial).2]
  · rfl
  · rfl

/-- What a scalar literal is read from spells it at its place.

**Proof sketch.** A literal is what its trial gives.  Where it is refused, the cursor goes back to a
position in front, and nothing was split. -/
theorem scalarLiteral_ensures (c : Cursor) :
    scalarLiteral.Ensures R c fun l ts _ => ts ∈ l.placed where
  ok l c' h := by
    rw [scalarLiteral_eq] at h
    split at h
    · rename_i htrial
      obtain ⟨rfl, rfl⟩ := EStateM.Result.ok.inj h
      obtain ⟨read, hread, hl⟩ := (scalarTrial_ensures (R := R) c).ok _ _ htrial
      exact ⟨read, hread, hl _ rfl⟩
    · cases h
    · cases h
  error fault c' h := by
    rw [scalarLiteral_eq] at h
    split at h
    · cases h
    · obtain ⟨-, rfl⟩ := EStateM.Result.error.inj h
      exact ⟨[], .refl c⟩
    · rename_i htrial
      obtain ⟨-, rfl⟩ := EStateM.Result.error.inj h
      exact (scalarTrial_ensures c).error _ _ htrial
  shows fault c' h := by
    rw [scalarLiteral_eq] at h
    split at h
    · cases h
    · obtain ⟨rfl, -⟩ := EStateM.Result.error.inj h
      exact .here c.peek_mem_tokens rfl
    · rename_i htrial
      obtain ⟨rfl, -⟩ := EStateM.Result.error.inj h
      exact (scalarTrial_ensures c).shows _ _ htrial

/-! ## Parameters -/

/-- What a parameter with a type is read from spells it at its place, and its type is canonical.

**Proof sketch.** By cases on what stands behind the parenthesis: a name or a scalar literal.  The
type behind the colon is canonical as it was read, and the closing parenthesis ends the span. -/
lemma typedParameter_ensures (c : Cursor) :
    typedParameter.Ensures R c fun p ts _ => ts ∈ p.placed ∧ p.Canonical := by
  unfold typedParameter
  refine .of_reads (.expect_bind_peek (by simp) fun hlp => .peekKind_bind ?_)
  split
  · rename_i hname
    refine .advance_bind (by simp [hname]) (.expect_bind (by simp) fun colon hcolon => ?_)
    refine (dataType_ensures _).bind fun type ts c₁ _ htype => ?_
    refine .expect_bind (by simp) fun rp hrp => .spanFrom_bind (.pure fun hread => ?_)
    refine ⟨⟨?_, hread.covers⟩, by simpa [Parameter.Canonical] using htype.2⟩
    simp only [sign, word, cons_mem_token_mul]
    exact ⟨hlp, ⟨hname, trivial⟩, hcolon, append_singleton_mem htype.1 hrp⟩
  all_goals try
    refine (scalarLiteral_ensures _).bind fun l us c₁ _ hl => ?_
    refine .expect_bind (by simp) fun colon hcolon => ?_
    refine (dataType_ensures _).bind fun type ts c₂ _ htype => ?_
    refine .expect_bind (by simp) fun rp hrp => .spanFrom_bind (.pure fun hread => ?_)
    refine ⟨⟨?_, hread.covers⟩, by simpa [Parameter.Canonical] using htype.2⟩
    simp only [sign, cons_mem_token_mul]
    refine ⟨hlp, Language.append_mem_mul hl ?_⟩
    rw [cons_mem_token_mul]
    exact ⟨hcolon, append_singleton_mem htype.1 hrp⟩
  exact .unexpected

/-- What a parameter is read from spells it at its place, and its type is canonical.

**Proof sketch.** By cases on the token at the cursor: a name, a scalar literal, or the parenthesis
of a parameter with a type.  Anything else consumes nothing. -/
lemma parameter?_ensures (c : Cursor) :
    parameter?.Ensures R c fun o ts _ =>
      Ensures.Answers Parameter.placed Parameter.Canonical o ts := by
  unfold parameter?
  apply Ensures.peekKind_bind
  split
  · rename_i hname
    refine .advance_bind (by simp [hname]) (.pure ⟨?_, by simp [Parameter.Canonical]⟩)
    exact singleton_mem_covering (by simp [word, hname])
  all_goals try
    refine (scalarLiteral_ensures c).bind fun l ts c₁ _ hl =>
      .pure ⟨?_, by simp [Parameter.Canonical]⟩
    rw [List.append_nil]
    exact ⟨hl, hl.2⟩
  · refine (typedParameter_ensures c).bind fun p ts c₁ _ hp => .pure ?_
    simpa [Ensures.Answers] using hp
  · exact .pure rfl

/-- What parameters are read from spells them at their place, one after the other. -/
theorem parameters_ensures (c : Cursor) :
    parameters.Ensures R c fun ps ts _ =>
      ts ∈ (ps.map Parameter.placed).prod ∧ ∀ p ∈ ps, p.Canonical :=
  Ensures.many parameter?_ensures c

end Parser

end RakeLang
