import RakeLang.Proofs.Accepting.Parser
import RakeLang.Proofs.Reading.Parameter

/-!
# What the readers of types, literals and parameters accept

Every canonical type is read from each of its spellings, if what stands behind it is neither the
word `rack` nor an arrow.  Scalar literals and parameters need no such condition, since their last
token closes them.

## Main results

* `RakeLang.Parser.dataType_accepts` — types.
* `RakeLang.Parser.dataType_exact` — types are read from their spellings and from nothing else.
* `RakeLang.Parser.number?_accepts`, `RakeLang.Parser.intLiteral_accepts` — numbers.
* `RakeLang.Parser.scalarLiteral_accepts` — scalar literals.
* `RakeLang.Parser.parameters_accepts` — parameters.
-/

set_option relaxedAutoImplicit false
set_option autoImplicit false

namespace RakeLang

open Spelling

/-- Lists whose items look alike look alike. -/
lemma Spelling.map_eq_map {α β : Type} {view : α → β} {as bs : List α}
    (h : List.Forall₂ (fun a b => view a = view b) as bs) : as.map view = bs.map view := by
  induction h with
  | nil => rfl
  | cons hab _ ih => rw [List.map_cons, List.map_cons, hab, ih]

/-! ## Types -/

/-- The word of a lane type names it. -/
lemma LaneType.ofWord?_word (type : LaneType) : ofWord? type.word = some type := by
  rcases type with t | t <;> cases t <;> decide

/-- No lane type goes by the word for masks. -/
lemma LaneType.word_ne_mask (type : LaneType) : type.word ≠ "mask" := by
  rcases type with t | t <;> cases t <;> decide

/-- A type begins with a name or a parenthesis.

**Proof sketch.** By cases on the type, each of whose spellings shows its first token: a word
for the types that have a name, the parenthesis for the others. -/
lemma DataType.headKind_of_mem {t : DataType} {ts : List Token} (h : ts ∈ t.spelling)
    (rest : List Token) : headKind (ts ++ rest) = .ident ∨ headKind (ts ++ rest) = .typeIdent
      ∨ headKind (ts ++ rest) = .symbol .lParen := by
  cases t
  all_goals
    rw [DataType.spelling] at h
    simp only [word, sign, mem_token, mem_token_mul] at h
  case lane | mask =>
    obtain ⟨t, ht, rfl⟩ := h
    simp [ht.1]
  case rack | stack | single | pack =>
    obtain ⟨t, ts, ht, -, rfl⟩ := h
    simp [ht.1]
  all_goals
    obtain ⟨t, ts, ht, -, rfl⟩ := h
    simp [ht]

/-- A type has a token. -/
lemma DataType.nil_notMem_spelling (t : DataType) : [] ∉ t.spelling := by
  intro h
  have := t.headKind_of_mem h []
  simp at this

/-- What can stand behind a type: neither the word `rack` nor an arrow. -/
def EndsType (rest : List Token) : Prop :=
  (∀ t ∈ rest.head?, t.kind = .ident → t.lexeme ≠ "rack") ∧ headKind rest ≠ .symbol .arrow

/-- What begins neither with an identifier nor with an arrow can stand behind a type. -/
lemma endsType_of_headKind {rest : List Token} (hident : headKind rest ≠ .ident)
    (harrow : headKind rest ≠ .symbol .arrow) : EndsType rest := by
  refine ⟨fun t ht hkind => ?_, harrow⟩
  obtain ⟨more, rfl⟩ := List.head?_eq_some_iff.1 ht
  exact absurd hkind hident

namespace Parser

open Token

section Types

variable {rest : List Token} {ts : List Token}

/-- A type that begins with an identifier is read: a lane, a rack or the mask.

**Proof sketch.** The word tells the mask from the lanes, and no lane is named like it.  Whether the
word `rack` follows tells a rack from a lane.  The other types begin with other kinds of tokens. -/
lemma namedType_accepts {t : DataType} (hts : ts ∈ t.spelling) (hrest : EndsType rest)
    (hhead : headKind (ts ++ rest) = .ident) :
    namedType.Accepts ts rest fun t' => t'.withoutSpans = t.withoutSpans := by
  unfold namedType
  cases t
  all_goals
    rw [DataType.spelling] at hts
    simp only [word, sign, keyword, mem_token, mem_token_mul] at hts
  case lane type span =>
    obtain ⟨w, ⟨-, hw⟩, rfl⟩ := hts
    apply Accepts.peek_bind
    rw [if_neg (by simpa [hw] using type.word_ne_mask), hw, type.ofWord?_word]
    refine .advance_bind (.checkWord_bind_false (by simpa using hrest.1) (.pure ?_))
    simp [DataType.withoutSpans]
  case rack type span =>
    obtain ⟨w, _, ⟨-, hw⟩, ⟨r, hr, rfl⟩, rfl⟩ := hts
    apply Accepts.peek_bind
    rw [if_neg (by simpa [hw] using type.word_ne_mask), hw, type.ofWord?_word]
    refine .advance_bind (.checkWord_bind ?_)
    rw [if_pos (by simpa using hr)]
    exact .advance_bind (.spanFrom_bind fun span => .pure (by simp [DataType.withoutSpans]))
  case mask span =>
    obtain ⟨w, ⟨-, hw⟩, rfl⟩ := hts
    apply Accepts.peek_bind
    rw [if_pos (by simpa using hw)]
    exact .advance_bind (.pure (by simp [DataType.withoutSpans]))
  all_goals
    obtain ⟨w, us, hw, -, rfl⟩ := hts
    simp [hw] at hhead

/-- A type that begins with the name of a record is read, by the word behind the name.

**Proof sketch.** The three kinds of records differ in the word behind the name; other types begin
with other kinds of tokens. -/
lemma recordType_accepts {t : DataType} (hts : ts ∈ t.spelling)
    (hhead : headKind (ts ++ rest) = .typeIdent) :
    recordType.Accepts ts rest fun t' => t'.withoutSpans = t.withoutSpans := by
  unfold recordType
  cases t
  all_goals
    rw [DataType.spelling] at hts
    simp only [word, sign, keyword, mem_token, mem_token_mul] at hts
  case stack name span =>
    obtain ⟨w, _, ⟨hw, rfl⟩, ⟨k, hk, rfl⟩, rfl⟩ := hts
    refine .expect_bind hw (.eat_bind_true hk (.spanFrom_bind fun span => .pure ?_))
    simp [DataType.withoutSpans]
  case single name span =>
    obtain ⟨w, _, ⟨hw, rfl⟩, ⟨k, hk, rfl⟩, rfl⟩ := hts
    refine .expect_bind hw (.eat_bind_false (by simp [hk]) ?_)
    refine .eat_bind_true hk (.spanFrom_bind fun span => .pure ?_)
    simp [DataType.withoutSpans]
  case pack name span =>
    obtain ⟨w, _, ⟨hw, rfl⟩, ⟨k, hk, rfl⟩, rfl⟩ := hts
    refine .expect_bind hw (.eat_bind_false (by simp [hk.1]) (.eat_bind_false (by simp [hk.1]) ?_))
    apply Accepts.checkWord_bind
    rw [if_pos (by simpa using hk)]
    exact .advance_bind (.spanFrom_bind fun span => .pure (by simp [DataType.withoutSpans]))
  case lane | mask =>
    obtain ⟨w, hw, rfl⟩ := hts
    simp [hw.1] at hhead
  all_goals
    obtain ⟨w, us, hw, -, rfl⟩ := hts
    simp [hw] at hhead

/-- The types with at most `n` tokens are accepted by `inner`. -/
def CompleteTypes (inner : Parser DataType) (n : Nat) : Prop :=
  ∀ t : DataType, t.Canonical → ∀ ts ∈ t.spelling, ts.length ≤ n → ∀ rest, EndsType rest →
    inner.Accepts ts rest fun t' => t'.withoutSpans = t.withoutSpans

section Listed

variable {inner : Parser DataType} {n : Nat} {span : Span}

/-- The types in a list are accepted, before the parenthesis that closes it. -/
lemma types_accepts (hinner : CompleteTypes inner n) {items : List DataType}
    (hcan : ∀ t ∈ items, t.Canonical) (hts : ts ∈ separated (items.map DataType.spelling))
    (hlen : ts.length ≤ n) (hrest : headKind rest = .symbol .rParen) :
    (commaSeparated (.symbol .rParen) inner).Accepts ts rest
      (List.Forall₂ (fun t' t => t'.withoutSpans = t.withoutSpans) · items) := by
  refine Accepts.commaSeparated hts ?_ ?_ (by simp) hrest
  · intro t ht us hus hlen' more hmore
    exact hinner t (hcan t ht) us hus (by omega) more
      (by rcases hmore with h | h <;> exact endsType_of_headKind (by simp [h]) (by simp [h]))
  · intro t _ us hus more
    rcases t.headKind_of_mem hus more with h | h | h <;> simp [h]

/-- A function type is read; its result ends where the type does.

**Proof sketch.** The parameters end at the parenthesis, and the arrow behind it tells a function
from a tuple.  Each of the types is shorter than the whole. -/
lemma functionType_accepts (hinner : CompleteTypes inner n) {params : List DataType}
    {result : DataType} (hcan : (DataType.function params result span).Canonical)
    (hts : ts ∈ (DataType.function params result span).spelling) (hlen : ts.length ≤ n + 1)
    (hrest : EndsType rest) :
    (listedType inner).Accepts ts rest fun t' =>
      t'.withoutSpans = (DataType.function params result span).withoutSpans := by
  rw [DataType.Canonical] at hcan
  rw [DataType.spelling] at hts
  obtain ⟨lp, _, hlp, hitems, rfl⟩ := mem_token_mul.1 hts
  obtain ⟨us, hus, _, hvs, rfl⟩ := Language.mem_mul.1 hitems
  obtain ⟨rp, _, hrp, hws, rfl⟩ := mem_token_mul.1 hvs
  obtain ⟨arrow, rs, harrow, hrs, rfl⟩ := mem_token_mul.1 hws
  simp only [List.length_cons, List.length_append] at hlen
  unfold listedType
  refine .expect_bind hlp ?_
  refine (types_accepts hinner hcan.1 hus (by omega) (by simpa using hrp)).bind fun ps hps => ?_
  refine .expect_bind hrp (.eat_bind_true harrow ?_)
  refine (hinner result hcan.2 rs hrs (by omega) rest hrest).bind_nil fun r hr => ?_
  refine .spanFrom_bind fun span => .pure ?_
  simp [DataType.withoutSpans, map_eq_map hps, hr]

/-- A tuple of types is read, where no arrow follows.

**Proof sketch.** The tokens are a parenthesis, the items behind commas and the counterpart.
Reading them goes through `types_accepts`; no arrow follows because of `hrest`, and the list is not
empty because the type is canonical, so that a tuple is returned. -/
lemma tupleType_accepts (hinner : CompleteTypes inner n) {items : List DataType}
    (hcan : (DataType.tuple items span).Canonical)
    (hts : ts ∈ (DataType.tuple items span).spelling) (hlen : ts.length ≤ n + 1)
    (hrest : EndsType rest) :
    (listedType inner).Accepts ts rest fun t' =>
      t'.withoutSpans = (DataType.tuple items span).withoutSpans := by
  rw [DataType.Canonical] at hcan
  rw [DataType.spelling] at hts
  obtain ⟨lp, _, hlp, hitems, rfl⟩ := mem_token_mul.1 hts
  obtain ⟨us, hus, _, ⟨rp, hrp, rfl⟩, rfl⟩ := Language.mem_mul.1 hitems
  simp only [List.length_cons, List.length_append] at hlen
  unfold listedType
  refine .expect_bind hlp ?_
  refine (types_accepts hinner hcan.2 hus (by omega) (by simpa using hrp)).bind fun ps hps => ?_
  refine .expect_bind hrp (.eat_bind_false hrest.2 (.spanFrom_bind fun span => .pure ?_))
  obtain ⟨t, items, rfl⟩ := List.exists_cons_of_ne_nil hcan.1
  rcases ps with _ | ⟨p, ps⟩
  · cases hps
  · have hmap := map_eq_map hps
    simp only [List.isEmpty_cons, Bool.false_eq_true, if_false, DataType.withoutSpans]
    rw [hmap]

/-- The unit type is read, where no arrow follows.

**Proof sketch.** The items are read from no token at all, which gives the empty list, and the
empty list without an arrow is the unit type. -/
lemma unitType_accepts (hinner : CompleteTypes inner n)
    (hts : ts ∈ (DataType.unit span).spelling) (hrest : EndsType rest) :
    (listedType inner).Accepts ts rest fun t' =>
      t'.withoutSpans = (DataType.unit span).withoutSpans := by
  rw [DataType.spelling] at hts
  obtain ⟨lp, _, hlp, ⟨rp, hrp, rfl⟩, rfl⟩ := mem_token_mul.1 hts
  unfold listedType
  refine .expect_bind hlp ?_
  have hnil : (commaSeparated (.symbol .rParen) inner).Accepts [] ([rp] ++ rest)
      (List.Forall₂ (fun t' t : DataType => t'.withoutSpans = t.withoutSpans) · []) :=
    types_accepts hinner (by simp) rfl (by simp) (by simpa using hrp)
  rw [← List.nil_append [rp]]
  refine hnil.bind fun ps hps => ?_
  obtain rfl : ps = [] := by cases hps; rfl
  refine .expect_bind hrp (.eat_bind_false hrest.2 (.spanFrom_bind fun span => .pure ?_))
  simp [DataType.withoutSpans]

/-- A type that begins with a parenthesis is read: a function, a tuple or the unit type.

**Proof sketch.** By cases on the type.  The three that begin with a parenthesis have a lemma each;
every other type begins with a word, against `hhead`. -/
lemma listedType_accepts (hinner : CompleteTypes inner n) {t : DataType} (ht : t.Canonical)
    (hts : ts ∈ t.spelling) (hlen : ts.length ≤ n + 1) (hrest : EndsType rest)
    (hhead : headKind (ts ++ rest) = .symbol .lParen) :
    (listedType inner).Accepts ts rest fun t' => t'.withoutSpans = t.withoutSpans := by
  cases t
  case function => exact functionType_accepts hinner ht hts hlen hrest
  case tuple => exact tupleType_accepts hinner ht hts hlen hrest
  case unit => exact unitType_accepts hinner hts hrest
  all_goals
    rw [DataType.spelling] at hts
    simp only [word, mem_token, mem_token_mul] at hts
  case lane | mask =>
    obtain ⟨w, hw, rfl⟩ := hts
    simp [hw.1] at hhead
  all_goals
    obtain ⟨w, us, hw, -, rfl⟩ := hts
    simp [hw.1] at hhead

end Listed

/-- The reader of types under a bound is complete for the spellings that are no longer than the
bound. -/
lemma dataTypeUpTo_accepts (n : Nat) : CompleteTypes (dataTypeUpTo n) n := by
  induction n with
  | zero =>
    intro t _ ts hts hlen
    obtain rfl : ts = [] := by simpa using hlen
    exact absurd hts t.nil_notMem_spelling
  | succ n ih =>
    intro t ht ts hts hlen rest hrest
    unfold dataTypeUpTo
    apply Accepts.peekKind_bind
    rcases t.headKind_of_mem hts rest with h | h | h
    · simpa only [h] using namedType_accepts hts hrest h
    · simpa only [h] using recordType_accepts hts h
    · simpa only [h] using listedType_accepts ih ht hts hlen hrest h

/-- A canonical type is accepted from each of its spellings, before what can stand behind it. -/
theorem dataType_accepts {t : DataType} (ht : t.Canonical) (hts : ts ∈ t.spelling)
    (hrest : EndsType rest) :
    dataType.Accepts ts rest fun t' => t'.withoutSpans = t.withoutSpans :=
  .of_remaining fun n hn => dataTypeUpTo_accepts n t ht ts hts hn rest hrest

/-- Types are read from their spellings and from nothing else, and no two types share a spelling.
What is read at a cursor is canonical and spells the tokens that were read, none of which is split.
Conversely, with a spelling of a canonical type ahead and behind it neither an arrow nor the word
`rack`, that type is read up to its spans, and the cursor stops exactly behind its spelling.

**Proof sketch.** What is read spells the tokens (`dataType_ensures`), and spellings are read
(`dataType_accepts`).  The reader is a function, so that two types that share a spelling are both
what it reads from it. -/
theorem dataType_exact :
    (∀ c t c', dataType c = .ok t c' →
      ∃ ts, c.Reads Eq ts c' ∧ ts ∈ t.spelling ∧ t.Canonical)
    ∧ (∀ (c : Cursor) (t : DataType) (ts rest : List Token), t.Canonical → ts ∈ t.spelling →
      c.ahead = ts ++ rest → EndsType rest →
        ∃ t' c', dataType c = .ok t' c' ∧ t'.withoutSpans = t.withoutSpans
          ∧ c'.past = ts.reverse ++ c.past ∧ c'.ahead = rest)
    ∧ ∀ (t t' : DataType) (ts : List Token), t.Canonical → t'.Canonical →
      ts ∈ t.spelling → ts ∈ t'.spelling → t.withoutSpans = t'.withoutSpans := by
  refine ⟨fun c t c' h => ?_, ?_, ?_⟩
  · obtain ⟨ts, hread, hts, hcan⟩ := (dataType_ensures (R := Eq) c).ok t c' h
    exact ⟨ts, hread, t.placed_le hts, hcan⟩
  · intro c t ts rest hcan hts hc hrest
    obtain ⟨t', ht', hread⟩ := dataType_accepts hcan hts hrest c hc
    exact ⟨t', c.behind ts rest, hread, ht', rfl, rfl⟩
  · -- the reader decides: with the shared spelling alone ahead it reads one type
    intro t t' ts hcan hcan' hts hts'
    have hends : EndsType [] := endsType_of_headKind (by simp) (by simp)
    have hc : (⟨[], ts, ⟨.eof, "", .origin⟩, rfl⟩ : Cursor).ahead = ts ++ [] := by simp
    obtain ⟨r, hr, hread⟩ := dataType_accepts hcan hts hends _ hc
    obtain ⟨r', hr', hread'⟩ := dataType_accepts hcan' hts' hends _ hc
    obtain ⟨rfl, -⟩ := EStateM.Result.ok.inj (hread.symm.trans hread')
    exact hr.symm.trans hr'

/-- A function from a tuple of one element to the unit type is read in front of a name. -/
theorem dataType_exact_function :
    ∃ t c', dataType ⟨[], [⟨.symbol .lParen, "(", .origin⟩, ⟨.symbol .lParen, "(", .origin⟩,
        ⟨.ident, "float", .origin⟩, ⟨.symbol .rParen, ")", .origin⟩,
        ⟨.symbol .rParen, ")", .origin⟩, ⟨.symbol .arrow, "->", .origin⟩,
        ⟨.symbol .lParen, "(", .origin⟩, ⟨.symbol .rParen, ")", .origin⟩,
        ⟨.ident, "x", .origin⟩], ⟨.eof, "", .origin⟩, rfl⟩ = .ok t c'
      ∧ t.withoutSpans = .function [.tuple [.lane (.primitive .float) .origin] .origin]
        (.unit .origin) .origin
      ∧ c'.ahead = [⟨.ident, "x", .origin⟩] ∧ t.Canonical := by
  have hcan : (DataType.function [.tuple [.lane (.primitive .float) .origin] .origin]
      (.unit .origin) .origin).Canonical := by simp [DataType.Canonical]
  have hts : [⟨.symbol .lParen, "(", .origin⟩, ⟨.symbol .lParen, "(", .origin⟩,
      ⟨.ident, "float", .origin⟩, ⟨.symbol .rParen, ")", .origin⟩,
      ⟨.symbol .rParen, ")", .origin⟩, ⟨.symbol .arrow, "->", .origin⟩,
      ⟨.symbol .lParen, "(", .origin⟩, ⟨.symbol .rParen, ")", .origin⟩]
      ∈ (DataType.function [.tuple [.lane (.primitive .float) .origin] .origin]
        (.unit .origin) .origin).spelling := by
    simp [DataType.spelling, separated, sign, word, mul_assoc, cons_mem_token_mul, LaneType.word,
      PrimitiveType.word]
  have hends : EndsType [⟨.ident, "x", .origin⟩] := ⟨by simp, by simp⟩
  obtain ⟨t, c', hread, ht, -, hahead⟩ := dataType_exact.2.1
    ⟨[], _, ⟨.eof, "", .origin⟩, rfl⟩ _ _ _ hcan hts rfl hends
  obtain ⟨-, -, -, hcan'⟩ := dataType_exact.1 _ t c' hread
  refine ⟨t, c', hread, ?_, hahead, hcan'⟩
  rw [ht]
  simp [DataType.withoutSpans]

end Types

/-! ## Numbers -/

section Numbers

variable {rest ts : List Token} {t : Token}

/-- An integer is read from its spelling. -/
theorem intLiteral_accepts {v : Int} (hts : ts ∈ integer v) :
    intLiteral.Accepts ts rest (· = v) := by
  obtain ⟨t, ⟨ht, hv⟩, rfl⟩ := hts
  unfold intLiteral
  refine .expect_bind ht ?_
  rw [hv]
  exact .pure rfl

/-- A number is accepted from a token that spells it.

**Proof sketch.** By the kind of the token: an integer and a float have readers of their own. -/
theorem number?_accepts {n : Number} (ht : t.number? = some n) :
    number?.Accepts [t] rest (· = some n) := by
  unfold Token.number? at ht
  split at ht
  · rename_i hkind
    obtain ⟨v, hv, rfl⟩ := Option.map_eq_some_iff.1 ht
    have hint : intLiteral.Accepts [t] rest (· = v) := intLiteral_accepts ⟨t, ⟨hkind, hv⟩, rfl⟩
    unfold number?
    apply Accepts.peekKind_bind
    rw [List.singleton_append, headKind_cons, hkind]
    refine hint.bind_nil ?_
    rintro _ rfl
    exact .pure rfl
  · rename_i hkind
    obtain ⟨v, hv, rfl⟩ := Option.map_eq_some_iff.1 ht
    have hfloat : floatLiteral.Accepts [t] rest (· = v) := by
      unfold floatLiteral
      refine .expect_bind hkind ?_
      rw [hv]
      exact .pure rfl
    unfold number?
    apply Accepts.peekKind_bind
    rw [List.singleton_append, headKind_cons, hkind]
    refine hfloat.bind_nil ?_
    rintro _ rfl
    exact .pure rfl
  · cases ht

/-- The kind of a token that spells a number. -/
lemma isNumber_of_number? {n : Number} (ht : t.number? = some n) : t.kind.isNumber = true := by
  unfold Token.number? at ht
  split at ht
  · simp [Kind.isNumber, *]
  · simp [Kind.isNumber, *]
  · cases ht

/-- The opposite of a number is accepted from a token that spells the number. -/
lemma negatedNumber?_accepts {n : Number} (hts : ts ∈ n.oppositeSpelling) :
    negatedNumber?.Accepts ts rest (· = some n) := by
  obtain ⟨t, ⟨m, ht, hm⟩, rfl⟩ := hts
  unfold negatedNumber?
  refine (number?_accepts ht).bind_nil ?_
  rintro _ rfl
  have hnegated : (negated m).Accepts [] rest (· = n) := fun c hc =>
    ⟨n, rfl, by rw [Cursor.behind_nil (by simpa using hc)]; simp [negated, hm]⟩
  refine hnegated.bind_nil ?_
  rintro _ rfl
  exact .pure rfl

end Numbers

/-! ## Scalar literals -/

section Scalars

variable {rest ts : List Token}

/-- A field of a path is read behind its dot. -/
lemma pathField_accepts {f : String} (hts : ts ∈ sign .dot * word .ident f) :
    pathField.Accepts ts rest fun o => ∃ a, o = some a ∧ a = f := by
  obtain ⟨dot, _, hdot, ⟨field, ⟨hfield, rfl⟩, rfl⟩, rfl⟩ := mem_token_mul.1 hts
  unfold pathField
  refine .check_bind (.checkAhead_bind ?_)
  rw [if_pos (by simp [hdot, hfield])]
  exact .advance_bind (.expect_bind hfield (.pure ⟨_, rfl, rfl⟩))

/-- Where no dot stands, a path ends. -/
lemma pathField_stops (hrest : headKind rest ≠ .symbol .dot) :
    pathField.Accepts [] rest (· = none) := by
  unfold pathField
  refine .check_bind (.checkAhead_bind ?_)
  rw [if_neg (by simp [hrest])]
  exact .pure rfl

/-- The value of a scalar literal is read behind a less-than sign, in front of the angle that closes
it.

**Proof sketch.** The first token tells a path, a number and the opposite of a number apart.  A path
ends at the closing angle, which is no dot. -/
lemma scalarValue?_accepts {v : ScalarValue} {less : Token} (hts : less :: ts ∈ v.spelling)
    (hless : less.kind = .symbol .less) (hrest : headKind rest = .symbol .greater) :
    scalarValue?.Accepts ts rest (· = some v) := by
  unfold scalarValue?
  apply Accepts.peekKind_bind
  cases v with
  | path root fields =>
    simp only [ScalarValue.spelling, sign, cons_mem_token_mul] at hts
    obtain ⟨name, us, ⟨hname, rfl⟩, hus, rfl⟩ := mem_token_mul.1 hts.2
    rw [List.cons_append, headKind_cons, hname]
    refine .advance_bind ?_
    have hfields : (many pathField).Accepts us rest
        (List.Forall₂ (fun a f => a = f) · fields) :=
      Accepts.many (F := fun _ => True) hus (fun f _ vs hvs _ _ _ => pathField_accepts hvs)
        (by simp) (fun _ _ _ _ _ => trivial) trivial (pathField_stops (by simp [hrest]))
    refine hfields.bind_nil fun as has => .pure ?_
    rw [List.forall₂_eq_eq_eq] at has
    rw [has]
  | number n =>
    simp only [ScalarValue.spelling, sign, Language.mem_add, cons_mem_token_mul] at hts
    rcases hts with ⟨-, ⟨t, ht, rfl⟩ | hts⟩ | ⟨harrow, -⟩
    · have hkind := isNumber_of_number? ht
      rw [List.singleton_append, headKind_cons]
      split
      · simp_all [Kind.isNumber]
      · simp_all [Kind.isNumber]
      · refine (number?_accepts ht).bind_nil ?_
        rintro _ rfl
        exact .pure rfl
    · obtain ⟨minus, us, hminus, hus, rfl⟩ := mem_token_mul.1 hts
      rw [List.cons_append, headKind_cons, hminus]
      refine .advance_bind ((negatedNumber?_accepts hus).bind_nil ?_)
      rintro _ rfl
      exact .pure rfl
    · simp [hless] at harrow

/-- The opening of a scalar literal is read with its value, in front of the angle that closes it.

**Proof sketch.** A value is opened by a less-than sign, or by an arrow if it is the opposite of a
number. -/
lemma openedScalar?_accepts {v : ScalarValue} (hts : ts ∈ v.spelling)
    (hrest : headKind rest = .symbol .greater) :
    openedScalar?.Accepts ts rest (· = some v) := by
  unfold openedScalar?
  apply Accepts.peekKind_bind
  have hcases : (∃ t us, t.kind = .symbol .less ∧ ts = t :: us)
      ∨ ∃ n t us, v = .number n ∧ t.kind = .symbol .leftArrow ∧ us ∈ n.oppositeSpelling
        ∧ ts = t :: us := by
    cases v with
    | path root fields =>
      obtain ⟨t, us, ht, -, rfl⟩ := mem_token_mul.1 hts
      exact .inl ⟨t, us, ht, rfl⟩
    | number n =>
      rcases hts with hts | hts
      · obtain ⟨t, us, ht, -, rfl⟩ := mem_token_mul.1 hts
        exact .inl ⟨t, us, ht, rfl⟩
      · obtain ⟨t, us, ht, hus, rfl⟩ := mem_token_mul.1 hts
        exact .inr ⟨n, t, us, rfl, ht, hus, rfl⟩
  rcases hcases with ⟨t, us, ht, rfl⟩ | ⟨n, t, us, rfl, ht, hus, rfl⟩
  · rw [List.cons_append, headKind_cons, ht]
    exact .advance_bind (scalarValue?_accepts hts ht hrest)
  · rw [List.cons_append, headKind_cons, ht]
    refine .advance_bind ((negatedNumber?_accepts hus).bind_nil ?_)
    rintro _ rfl
    exact .pure rfl

/-- A scalar literal is accepted from each of its spellings.

**Proof sketch.** The trial reads what is opened, finds the closing angle of the spelling and
returns a literal; a literal that is returned is not rewound, so the reader returns it too. -/
theorem scalarLiteral_accepts {l : ScalarLiteral} (hts : ts ∈ l.spelling) :
    scalarLiteral.Accepts ts rest fun l' => l'.withoutSpans = l.withoutSpans := by
  obtain ⟨us, hus, _, ⟨greater, hgreater, rfl⟩, rfl⟩ := Language.mem_mul.1 hts
  obtain ⟨t, us, rfl⟩ : ∃ t vs, us = t :: vs := by
    rcases us with _ | ⟨t, vs⟩
    · cases hv : l.value <;> simp [hv, ScalarValue.spelling, sign, Language.mem_add] at hus
    · exact ⟨t, vs, rfl⟩
  have htrial : scalarTrial.Accepts (t :: us ++ [greater]) rest
      fun o => ∃ l', o = some l' ∧ l'.withoutSpans = l.withoutSpans := by
    unfold scalarTrial
    apply Accepts.peek_bind
    have hrest : headKind ([greater] ++ rest) = .symbol .greater := hgreater
    refine (openedScalar?_accepts hus hrest).bind ?_
    rintro _ rfl
    refine .eat_bind_true hgreater (.spanFrom_bind fun span => .pure ⟨_, rfl, ?_⟩)
    simp [ScalarLiteral.withoutSpans]
  intro c hc
  obtain ⟨_, ⟨l', rfl, hl'⟩, hp⟩ := htrial c hc
  exact ⟨l', hl', by simp [scalarLiteral, hp]⟩

/-- A scalar literal begins with a less-than sign or a left arrow. -/
lemma headKind_of_mem_scalar {l : ScalarLiteral} (hts : ts ∈ l.spelling) (rest : List Token) :
    headKind (ts ++ rest) = .symbol .less ∨ headKind (ts ++ rest) = .symbol .leftArrow := by
  obtain ⟨us, hus, vs, -, rfl⟩ := Language.mem_mul.1 hts
  cases hv : l.value
  all_goals
    simp only [hv, ScalarValue.spelling, sign, Language.mem_add, mem_token_mul] at hus
  case path =>
    obtain ⟨t, us, ht, -, rfl⟩ := hus
    exact .inl ht
  case number =>
    rcases hus with ⟨t, us, ht, -, rfl⟩ | ⟨t, us, ht, -, rfl⟩
    · exact .inl ht
    · exact .inr ht

end Scalars

/-! ## Parameters -/

section Parameters

variable {rest ts : List Token}

/-- A parameter begins with a name, a scalar literal or a parenthesis. -/
lemma headKind_of_mem_parameter {p : Parameter} (hts : ts ∈ p.spelling) (rest : List Token) :
    headKind (ts ++ rest) = .ident ∨ headKind (ts ++ rest) = .symbol .less
      ∨ headKind (ts ++ rest) = .symbol .leftArrow ∨ headKind (ts ++ rest) = .symbol .lParen := by
  rcases p with ⟨name, _ | type, span⟩ | ⟨literal, _ | type, span⟩
  · obtain ⟨t, ht, rfl⟩ := hts
    exact .inl ht.1
  · obtain ⟨t, us, ht, -, rfl⟩ := mem_token_mul.1 hts
    exact .inr (.inr (.inr ht))
  · rcases headKind_of_mem_scalar hts rest with h | h
    · exact .inr (.inl h)
    · exact .inr (.inr (.inl h))
  · obtain ⟨t, us, ht, -, rfl⟩ := mem_token_mul.1 hts
    exact .inr (.inr (.inr ht))

/-- A parameter has a token. -/
lemma nil_notMem_parameter (p : Parameter) : [] ∉ p.spelling := by
  intro h
  have := headKind_of_mem_parameter h []
  simp at this

/-- A parameter with a type is read, in its parentheses.

**Proof sketch.** A name and a scalar literal begin differently.  The type behind the colon ends at
the closing parenthesis. -/
lemma typedParameter_accepts {p : Parameter} {type : DataType} (hp : p.Canonical)
    (htype : (∃ name span, p = .rack name (some type) span)
      ∨ ∃ literal span, p = .scalar literal (some type) span) (hts : ts ∈ p.spelling) :
    typedParameter.Accepts ts rest fun p' => p'.withoutSpans = p.withoutSpans := by
  have hends : ∀ {rp : Token} {more : List Token}, rp.kind = .symbol .rParen →
      EndsType (rp :: more) := fun hrp => by simp [EndsType, hrp]
  unfold typedParameter
  rcases htype with ⟨name, span, rfl⟩ | ⟨literal, span, rfl⟩
  · simp only [Parameter.spelling, sign, word, mem_token_mul] at hts
    obtain ⟨lp, _, hlp, ⟨t, _, ⟨ht, rfl⟩, ⟨colon, _, hcolon, hus, rfl⟩, rfl⟩, rfl⟩ := hts
    obtain ⟨us, hus', _, ⟨rp, hrp, rfl⟩, rfl⟩ := Language.mem_mul.1 hus
    refine .expect_bind hlp (.peekKind_bind ?_)
    rw [List.cons_append, headKind_cons, ht]
    refine .advance_bind (.expect_bind hcolon ?_)
    refine (dataType_accepts (hp type rfl) hus' (hends hrp)).bind fun type' htype' => ?_
    refine .expect_bind hrp (.spanFrom_bind fun span => .pure ?_)
    simp [Parameter.withoutSpans, htype']
  · simp only [Parameter.spelling, sign, mem_token_mul] at hts
    obtain ⟨lp, _, hlp, hmem, rfl⟩ := hts
    obtain ⟨vs, hvs, _, hws, rfl⟩ := Language.mem_mul.1 hmem
    obtain ⟨colon, _, hcolon, hus, rfl⟩ := mem_token_mul.1 hws
    obtain ⟨us, hus', _, ⟨rp, hrp, rfl⟩, rfl⟩ := Language.mem_mul.1 hus
    refine .expect_bind hlp (.peekKind_bind ?_)
    rw [List.append_assoc]
    rcases headKind_of_mem_scalar hvs (colon :: (us ++ [rp]) ++ rest) with h | h
    all_goals
      rw [h]
      refine (scalarLiteral_accepts hvs).bind fun l' hl' => .expect_bind hcolon ?_
      refine (dataType_accepts (hp type rfl) hus' (hends hrp)).bind fun type' htype' => ?_
      refine .expect_bind hrp (.spanFrom_bind fun span => .pure ?_)
      simp [Parameter.withoutSpans, htype', hl']

/-- A parameter is read, by what it begins with.

**Proof sketch.** By cases on the parameter and on whether it has a type.  A plain name and a plain
literal are told by their first token; a type puts a parenthesis in front, and
`typedParameter_accepts` reads the rest. -/
lemma parameter?_accepts {p : Parameter} (hp : p.Canonical) (hts : ts ∈ p.spelling) :
    parameter?.Accepts ts rest fun o => ∃ p', o = some p' ∧ p'.withoutSpans = p.withoutSpans := by
  unfold parameter?
  apply Accepts.peekKind_bind
  rcases p with ⟨name, _ | type, span⟩ | ⟨literal, _ | type, span⟩
  · obtain ⟨t, ⟨ht, rfl⟩, rfl⟩ := hts
    rw [List.singleton_append, headKind_cons, ht]
    exact .advance_bind (.pure ⟨_, rfl, by simp [Parameter.withoutSpans]⟩)
  · obtain ⟨lp, us, hlp, -, rfl⟩ := mem_token_mul.1 hts
    rw [List.cons_append, headKind_cons, hlp]
    refine (typedParameter_accepts hp (.inl ⟨name, span, rfl⟩) hts).bind_nil fun p' hp' => ?_
    exact .pure ⟨p', rfl, hp'⟩
  · rcases headKind_of_mem_scalar (show ts ∈ literal.spelling from hts) rest with h | h
    all_goals
      rw [h]
      refine (scalarLiteral_accepts hts).bind_nil fun l hl => .pure ⟨_, rfl, ?_⟩
      simp [Parameter.withoutSpans, hl]
  · obtain ⟨lp, us, hlp, -, rfl⟩ := mem_token_mul.1 hts
    rw [List.cons_append, headKind_cons, hlp]
    refine (typedParameter_accepts hp (.inr ⟨literal, span, rfl⟩) hts).bind_nil fun p' hp' => ?_
    exact .pure ⟨p', rfl, hp'⟩

/-- Parameters are accepted, one after the other, before an arrow. -/
theorem parameters_accepts {ps : List Parameter} (hps : ∀ p ∈ ps, p.Canonical)
    (hts : ts ∈ (ps.map Parameter.spelling).prod) (hrest : headKind rest = .symbol .arrow) :
    parameters.Accepts ts rest fun ps' =>
      ps'.map Parameter.withoutSpans = ps.map Parameter.withoutSpans := by
  have hmany : parameters.Accepts ts rest
      (List.Forall₂ (fun p' p => p'.withoutSpans = p.withoutSpans) · ps) := by
    refine Accepts.many (F := fun _ => True) hts ?_ (fun p _ => nil_notMem_parameter p)
      (fun _ _ _ _ _ => trivial) trivial ?_
    · exact fun p hp us hus _ more _ => parameter?_accepts (hps p hp) hus
    · unfold parameter?
      apply Accepts.peekKind_bind
      rw [List.nil_append, hrest]
      exact .pure rfl
  exact hmany.imp fun _ => map_eq_map

end Parameters

end Parser

end RakeLang
