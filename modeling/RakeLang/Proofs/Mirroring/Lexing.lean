import RakeLang.Proofs.Mirroring.Displaced
import RakeLang.Proofs.Placing.Lexeme
import RakeLang.Proofs.Rereading.Relexing

/-!
# Items and the text that they are read from

To compare what is read from two texts, reading is told as a relation between a text and its items,
with one rule for each item and one for the end of the input.  Nothing behind a blank or a tilde
changes what is read before it, for these stand in no lexeme behind its first character.

A filler is white space with whole comments.  In front of a text it adds to the first gap there, and
nothing else.

## Main definitions

* `RakeLang.Lexer.Lexes` — the items that a lexer reads from a text.
* `RakeLang.Lexeme.Filler` — white space, and comments with the end of their lines.
* `RakeLang.LexItem.FurtherOn` — an item that stands further on.

## Main results

* `RakeLang.lexes_iff` — the items of a text.
* `RakeLang.Lexeme.longest?_append_break` — what stands behind a blank or a tilde is not looked at.
* `RakeLang.Lexer.Lexes.filler` — items behind a filler.
* `RakeLang.Lexer.Lexes.furtherOn` — the items of a text that begins further on.
* `RakeLang.Lexer.Lexes.cut` — the items of a text that goes on in another way.
-/

set_option relaxedAutoImplicit false
set_option autoImplicit false

namespace RakeLang

open Token

/-! ## Fillers -/

namespace Lexeme

/-- White space, and comments with the end of their lines. -/
inductive Filler : List Char → Prop
  | nil : Filler []
  | blank {c : Char} {cs : List Char} (hblank : Text.isBlank c = true) (h : Filler cs) :
      Filler (c :: cs)
  | comment {text cs : List Char} (htext : '\n' ∉ text) (h : Filler cs) :
      Filler ('~' :: '~' :: (text ++ '\n' :: cs))

variable {b : Bool} {kind : Kind} {filler gap text lexeme cs rest tail tail' : List Char}

/-- A filler in front of a gap makes a gap. -/
lemma Filler.append_gap (h : Filler filler) (hgap : Gap gap rest) : Gap (filler ++ gap) rest := by
  induction h with
  | nil => exact hgap
  | blank hblank _ ih => exact .blank hblank ih
  | @comment text cs htext _ ih =>
    have hline : Gap ('\n' :: (cs ++ gap)) rest := .blank (by decide) ih
    have hcomment := Gap.comment htext (by simp) hline
    simpa using hcomment

/-- Two fillers, one behind the other, are a filler. -/
lemma Filler.append {filler' : List Char} (h : Filler filler) (h' : Filler filler') :
    Filler (filler ++ filler') := by
  induction h with
  | nil => exact h'
  | blank hblank _ ih => exact .blank hblank ih
  | @comment text cs htext _ ih =>
    rw [List.cons_append, List.cons_append, List.append_assoc, List.cons_append]
    exact .comment htext ih

/-- A filler is a gap at the end of a text. -/
lemma Filler.gap_end (h : Filler filler) : Gap filler [] := by
  have hnil : Gap [] [] := .nil (by simp) (by simp)
  simpa using h.append_gap hnil

/-- In front of a token, only whole comments stand in a gap. -/
lemma Gap.isFiller (h : Gap gap rest) (hrest : rest ≠ []) : Filler gap := by
  induction h with
  | nil => exact .nil
  | blank hblank _ ih => exact .blank hblank (ih hrest)
  | @comment text gap rest htext hline hgap ih =>
    rcases gap with _ | ⟨c, gap⟩
    · obtain ⟨c, rest, rfl⟩ := List.exists_cons_of_ne_nil hrest
      obtain rfl : c = '\n' := hline c rfl
      exact absurd (hgap.head?_rest '\n' rfl) (by decide)
    · obtain rfl : c = '\n' := hline c rfl
      cases ih hrest with
      | blank _ h => exact .comment htext h

/-- The gap in front of a text gets longer by a filler that is put there. -/
lemma trivia_filler (h : Filler filler) (cs : List Char) :
    trivia (filler ++ cs) = filler ++ trivia cs := by
  have hgap := h.append_gap (gap_trivia cs)
  have hread := trivia_of_gap hgap
  rwa [List.append_assoc, trivia_append_drop] at hread

/-- A filler at the head of a text is the beginning of the first gap there. -/
lemma Gap.of_filler (h : Gap gap rest) (hfiller : Filler filler)
    (htext : filler ++ cs = gap ++ rest) : ∃ gap', gap = filler ++ gap' ∧ Gap gap' rest := by
  have hgap := trivia_of_gap h
  rw [← htext, trivia_filler hfiller] at hgap
  refine ⟨trivia cs, hgap.symm, ?_⟩
  rw [← hgap, List.append_assoc, List.append_cancel_left_eq] at htext
  have hcs := gap_trivia cs
  have hrest : cs.drop (trivia cs).length = rest :=
    List.append_cancel_left ((trivia_append_drop cs).trans htext)
  rwa [hrest] at hcs

/-- A filler is skipped, also where it stands inside a comment.

**Proof sketch.** Induction on the filler.  Inside a comment a line break ends the comment, and what
follows is skipped as behind a blank; any other character is passed over as a part of the comment.
-/
lemma Filler.skipped (h : Filler filler) (inComment : Bool) :
    triviaFrom inComment filler = filler := by
  have hskip : triviaFrom false filler = filler := by
    have hread := trivia_filler h []
    simpa [trivia, triviaFrom] using hread
  rcases inComment with _ | _
  · exact hskip
  clear hskip
  induction h with
  | nil => rfl
  | @blank c cs hblank h ih =>
    rw [triviaFrom]
    by_cases hc : c = '\n'
    · have hread := trivia_filler h []
      rw [List.append_nil] at hread
      have hnil : trivia [] = [] := rfl
      rw [hnil, List.append_nil] at hread
      rw [hc, show ('\n' != '\n') = false from rfl]
      exact congrArg _ hread
    · rw [bne_iff_ne.2 hc, ih]
  | @comment text cs htext h ih =>
    have hgap : Gap ('\n' :: cs) [] := .blank (by decide) h.gap_end
    have hread := trivia_of_gap hgap
    have hline : triviaFrom true (text ++ (('\n' :: cs) ++ [])) = text ++ '\n' :: cs :=
      triviaFrom_comment htext (by simp) hread
    rw [List.append_nil] at hline
    simp only [triviaFrom, show ('~' != '\n') = true from rfl, hline]

/-- A gap at the end of a text may go on as a filler.

**Proof sketch.** A gap at the end is passed over as a whole, and a tilde at its very end cannot
open a comment with the filler, for a blank or a comment stands there.  Induction on the passing
over of the gap. -/
lemma Gap.append_filler (h : Gap gap []) (hfiller : Filler filler) : Gap (gap ++ filler) [] := by
  have hall (b : Bool) (cs : List Char) (hcs : triviaFrom b cs = cs) :
      triviaFrom b (cs ++ filler) = cs ++ filler := by
    fun_induction triviaFrom b cs with
    | case1 => exact hfiller.skipped _
    | case2 c cs ih =>
      rw [List.cons_append, triviaFrom, ih (List.cons.inj hcs).2]
    | case3 cs ih =>
      have htail := (List.cons.inj (List.cons.inj hcs).2).2
      rw [List.cons_append, List.cons_append, triviaFrom, ih htail]
    | case4 c cs hno hblank ih =>
      have hc : ¬ ['~', '~'] <+: c :: (cs ++ filler) := by
        intro hhead
        obtain rfl : '~' = c := by simpa using (List.cons_prefix_cons.1 hhead).1
        exact absurd hblank (by decide)
      rw [List.cons_append, triviaFrom_cons hc, if_pos hblank, ih (List.cons.inj hcs).2]
    | case5 => cases hcs
  have hread := trivia_of_gap h
  rw [List.append_nil] at hread
  have hgap := gap_trivia (gap ++ filler)
  rw [trivia, hall false gap hread, List.drop_length] at hgap
  exact hgap

/-! ## Where lexemes end -/

/-- No name has a tilde. -/
lemma not_inName_tilde : ¬ InName '~' := by
  unfold InName SmallLetter CapitalLetter Digit
  decide

/-- What may open a name may stand in it. -/
lemma OpensName.inName {c : Char} (h : OpensName c) : InName c :=
  h.elim .inl fun h => .inr (.inr (.inr h))

/-- Behind its first character, no lexeme has a tilde.

**Proof sketch.** By the kind of the lexeme: letters, digits, underscores and the dots and signs
of numbers are no tildes, and of the signs none has one behind its first character. -/
lemma Matches.tilde_notMem {c : Char} (h : Matches b kind (c :: cs)) : '~' ∉ cs := by
  have hpart {ds : List Char} (hds : ∀ d ∈ ds, InName d) : '~' ∉ ds := fun hmem =>
    not_inName_tilde (hds _ hmem)
  have hdigits {ds : List Char} (hds : ∀ d ∈ ds, Digit d) : '~' ∉ ds := fun hmem =>
    not_inName_tilde (.inr (.inr (.inl (hds _ hmem))))
  have hnumber {k : Kind} {ds : List Char} (hds : IsNumber k ds) : '~' ∉ ds := by
    cases hds with
    | int hwhole => exact hdigits hwhole.2
    | float hwhole hfraction hexponent =>
      simp only [List.mem_append, List.mem_cons, not_or]
      refine ⟨hdigits hwhole.2, by decide, hdigits hfraction, ?_⟩
      cases hexponent with
      | none => simp
      | some hletter hsign hexponent =>
        simp only [List.mem_cons, List.mem_append, not_or]
        refine ⟨?_, ?_, hdigits hexponent.2⟩
        · rcases hletter with rfl | rfl <;> decide
        · rcases hsign with rfl | rfl | rfl <;> decide
  generalize hall : c :: cs = all at h
  cases h with
  | keyword word =>
    have hword : '~' ∉ word.chars := by cases word <;> decide
    exact fun hmem => hword (hall ▸ List.mem_cons_of_mem c hmem)
  | ident _ hds => exact (List.cons.inj hall).2 ▸ hpart hds
  | typeIdent _ hds => exact (List.cons.inj hall).2 ▸ hpart hds
  | tineRef hstart hds =>
    rw [(List.cons.inj hall).2, List.mem_cons, not_or]
    refine ⟨?_, hpart hds⟩
    rintro rfl
    exact not_inName_tilde hstart.inName
  | number hds => exact fun hmem => hnumber hds (hall ▸ List.mem_cons_of_mem c hmem)
  | signed _ hds => exact (List.cons.inj hall).2 ▸ hnumber hds
  | symbol sign =>
    have hsign : '~' ∉ sign.chars.tail := by
      cases sign with
      | reduce op => cases op <;> decide
      | scan op => cases op <;> decide
      | _ => decide
    rwa [← hall] at hsign

/-- A text before which a lexeme ends: it is empty, or it begins with a blank or a tilde. -/
def Breaks (cs : List Char) : Prop := ∀ c ∈ cs.head?, Text.isBlank c = true ∨ c = '~'

/-- What stands behind a break is not looked at.

**Proof sketch.** A lexeme that is longer than the text in front of the break would have the break
in it, behind its first character, and neither a blank nor a tilde stands there.  So the lexemes at
hand are the same, and the longest one with them. -/
theorem longest?_append_break (hcs : cs ≠ []) (hrest : Breaks rest) :
    longest? b (cs ++ rest) = longest? b cs := by
  have hwithin {k : Kind} {t : List Char} (hmatches : Matches b k t) :
      t <+: cs ++ rest ↔ t <+: cs := by
    refine ⟨fun h => ?_, fun h => h.trans (List.prefix_append _ _)⟩
    rcases List.prefix_or_prefix_of_prefix h (List.prefix_append cs rest) with h' | ⟨more, rfl⟩
    · exact h'
    have hmore := (List.prefix_append_right_inj cs).1 h
    rcases more with _ | ⟨x, more⟩
    · rw [List.append_nil]
    obtain ⟨x', rest, rfl⟩ : ∃ y ys, rest = y :: ys := by
      rcases rest with _ | ⟨y, ys⟩
      · simp at hmore
      · exact ⟨y, ys, rfl⟩
    obtain rfl := (List.cons_prefix_cons.1 hmore).1
    obtain ⟨c, cs, rfl⟩ := List.exists_cons_of_ne_nil hcs
    have hmem : x ∈ cs ++ x :: more := by simp
    rcases hrest x rfl with hblank | rfl
    · have hvisible := hmatches.visible x (List.mem_cons_of_mem c hmem)
      rw [hvisible.isBlank_eq_false] at hblank
      cases hblank
    · exact absurd hmem hmatches.tilde_notMem
  refine Option.ext fun ⟨k, t⟩ => ?_
  simp only [longest?_eq_some_iff, IsLongest]
  constructor
  · rintro ⟨hhead, hmatches, hlongest⟩
    exact ⟨(hwithin hmatches).1 hhead, hmatches, fun k' t' hhead' hmatches' =>
      hlongest k' t' ((hwithin hmatches').2 hhead') hmatches'⟩
  · rintro ⟨hhead, hmatches, hlongest⟩
    exact ⟨(hwithin hmatches).2 hhead, hmatches, fun k' t' hhead' hmatches' =>
      hlongest k' t' ((hwithin hmatches').1 hhead') hmatches'⟩

/-- A lexeme stays the longest one where something else stands behind a break. -/
lemma longest?_of_breaks (h : longest? b (lexeme ++ (cs ++ tail)) = some (kind, lexeme))
    (htail : Breaks tail') : longest? b (lexeme ++ (cs ++ tail')) = some (kind, lexeme) := by
  have hne := (longest?_fits h).1
  rw [← List.append_assoc, longest?_append_break (by simp [hne]) htail]
  exact longest?_truncate h

/-- The texts are the same up to some place, where the second one has a break. -/
def Exchange (rest rest' : List Char) : Prop :=
  ∃ cs tail tail', rest = cs ++ tail ∧ rest' = cs ++ tail' ∧ Breaks tail'

/-- A text may be exchanged for itself, and for one that begins with a break. -/
lemma Exchange.of_cases {rest rest' : List Char} (h : Breaks rest' ∨ rest' = rest) :
    Exchange rest rest' := by
  rcases h with h | rfl
  · exact ⟨[], rest, rest', rfl, rfl, h⟩
  · exact ⟨rest', [], [], by simp, by simp, nofun⟩

/-- A lexeme stays the longest one where the text behind it is exchanged. -/
lemma longest?_of_exchange {rest rest' : List Char}
    (h : longest? b (lexeme ++ (cs ++ rest)) = some (kind, lexeme)) (hrest : Exchange rest rest') :
    longest? b (lexeme ++ (cs ++ rest')) = some (kind, lexeme) := by
  obtain ⟨more, tail, tail', rfl, rfl, hbreaks⟩ := hrest
  rw [← List.append_assoc cs] at h ⊢
  exact longest?_of_breaks h hbreaks

/-- No gap stands in front of a lexeme.

**Proof sketch.** A lexeme begins with a visible character and not with two tildes, so that no
blank and no comment stands in front of it. -/
lemma gap_nil_of_longest? (h : longest? b cs = some (kind, lexeme)) : Gap [] cs := by
  obtain ⟨hhead, hmatches, -⟩ := longest?_eq_some_iff.1 h
  obtain ⟨c, lexeme, rfl⟩ := List.exists_cons_of_ne_nil hmatches.ne.1
  obtain ⟨rest, rfl⟩ := hhead
  refine .nil (fun d hd => ?_) fun htildes => ?_
  · obtain rfl := Option.mem_some_iff.1 hd
    exact (hmatches.visible c List.mem_cons_self).isBlank_eq_false
  · obtain ⟨rfl, hmore⟩ := List.cons_prefix_cons.1 htildes
    rcases lexeme with _ | ⟨d, lexeme⟩
    · -- a tilde alone is no lexeme
      generalize hall : ['~'] = all at hmatches
      cases hmatches with
      | keyword word => cases word <;> cases hall
      | ident hstart _ =>
        obtain rfl := (List.cons.inj hall).1
        exact not_inName_tilde hstart.inName
      | typeIdent hstart _ =>
        obtain rfl := (List.cons.inj hall).1
        exact not_inName_tilde (.inr (.inl hstart))
      | tineRef => cases hall
      | number hnumber =>
        obtain ⟨c, cs, rfl, hdigit⟩ := hnumber.exists_cons
        obtain rfl := (List.cons.inj hall).1
        exact absurd hdigit (by decide)
      | signed => cases hall
      | symbol sign =>
        cases sign with
        | reduce op => cases op <;> cases hall
        | scan op => cases op <;> cases hall
        | _ => cases hall
    · obtain ⟨rfl, -⟩ := List.cons_prefix_cons.1 hmore
      exact hmatches.tilde_notMem List.mem_cons_self

/-- The gap in front of a lexeme, with another lexeme or other text behind it. -/
lemma Gap.before_lexeme (h : Gap gap rest) (hrest : rest ≠ [])
    (hlongest : longest? b cs = some (kind, lexeme)) : Gap gap cs := by
  have hgap := (h.isFiller hrest).append_gap (gap_nil_of_longest? hlongest)
  rwa [List.append_nil] at hgap

end Lexeme

/-! ## Items -/

namespace Lexer

/-- A lexer at the place `p`, with the memory `b` and with the text ahead, reads the items, the last
of which is the end of the input. -/
inductive Lexes : Bool → Place → List LexItem → List Char → Prop
  | done {b : Bool} {p : Place} {gap : List Char} (hgap : Lexeme.Gap gap []) :
      Lexes b p [.token ⟨.eof, "", .between (p.after gap) (p.after gap)⟩] gap
  | token {b : Bool} {p : Place} {gap lexeme text : List Char} {kind : Kind} {items : List LexItem}
      (hgap : Lexeme.Gap gap (lexeme ++ text))
      (hlongest : Lexeme.longest? b (lexeme ++ text) = some (kind, lexeme))
      (h : Lexes kind.endsOperand ((p.after gap).after lexeme) items text) :
      Lexes b p (.token ⟨kind, String.ofList lexeme,
        .between (p.after gap) ((p.after gap).after lexeme)⟩ :: items) (gap ++ (lexeme ++ text))
  | unrecognized {b : Bool} {p : Place} {c : Char} {gap text : List Char} {items : List LexItem}
      (hgap : Lexeme.Gap gap (c :: text)) (hnone : Lexeme.longest? b (c :: text) = none)
      (h : Lexes b ((p.after gap).next c) items text) :
      Lexes b p (.unrecognized c (.between (p.after gap) ((p.after gap).next c)) :: items)
        (gap ++ c :: text)

variable {b : Bool} {p q : Place} {items : List LexItem} {gap text cs : List Char} {k : Nat}

/-- The items are those that the lexer yields.

**Proof sketch.** Induction on the rules.  The gap of a rule is what the lexer skips, and its lexeme
is the longest one, which is what the lexer reads. -/
lemma Lexes.itemsUpTo_eq (h : Lexes b p items text) :
    ∀ n, text.length < n → itemsUpTo n ⟨text, p, b, false⟩ = items := by
  induction h with
  | @done b p gap hgap =>
    rintro (_ | n) hn
    · omega
    have hskip := skipTrivia_of_gap (p := p) (b := b) hgap
    rw [List.append_nil] at hskip
    rw [itemsUpTo, next?, hskip]
    simp [read, itemsUpTo_of_finished]
  | @token b p gap lexeme text kind items hgap hlongest _ ih =>
    rintro (_ | n) hn
    · omega
    have hpos := List.length_pos_iff.2 (Lexeme.longest?_fits hlongest).1
    simp only [List.length_append] at hn
    rw [itemsUpTo, next?_of_gap hgap hlongest]
    simp only [ih n (by omega)]
  | @unrecognized b p c gap text items hgap hnone _ ih =>
    rintro (_ | n) hn
    · omega
    simp only [List.length_append, List.length_cons] at hn
    rw [itemsUpTo, next?, skipTrivia_of_gap hgap, read_of_longest?_eq_none rfl hnone]
    simp only [Bool.false_eq_true, if_false, ih n (by omega)]

/-- Every text is read.

**Proof sketch.** Induction on a bound of the length: behind the gap there is nothing, or a
lexeme, or a character that begins none, and what is behind these is shorter. -/
lemma exists_lexes (n : Nat) :
    ∀ (b : Bool) (p : Place) (text : List Char), text.length < n →
      ∃ items, Lexes b p items text := by
  induction n with
  | zero => intro b p text hn; omega
  | succ n ih =>
    intro b p text hn
    have hgap := Lexeme.gap_trivia text
    have hall := Lexeme.trivia_append_drop text
    set gap := Lexeme.trivia text
    rcases hrest : text.drop gap.length with _ | ⟨c, cs⟩
    · rw [hrest] at hgap hall
      rw [List.append_nil] at hall
      exact hall ▸ ⟨_, .done hgap⟩
    rw [hrest] at hgap hall
    have hlength := congrArg List.length hall
    rw [List.length_append, List.length_cons] at hlength
    rcases hlong : Lexeme.longest? b (c :: cs) with _ | ⟨kind, lexeme⟩
    · obtain ⟨items, h⟩ := ih b ((p.after gap).next c) cs (by omega)
      exact hall ▸ ⟨_, .unrecognized hgap hlong h⟩
    · obtain ⟨tail, htail⟩ := (Lexeme.longest?_eq_some_iff.1 hlong).1
      have hpos := List.length_pos_iff.2 (Lexeme.longest?_fits hlong).1
      have hsum := congrArg List.length htail
      rw [List.length_append, List.length_cons] at hsum
      obtain ⟨items, h⟩ := ih kind.endsOperand ((p.after gap).after lexeme) tail (by omega)
      rw [← htail] at hgap hlong hall
      exact hall ▸ ⟨_, .token hgap hlong h⟩

/-- The first item of a text behind a filler is found behind it. -/
theorem Lexes.filler {filler : List Char} (hfiller : Lexeme.Filler filler)
    (h : Lexes b (p.after filler) items text) : Lexes b p items (filler ++ text) := by
  cases h with
  | @done _ _ _ hgap =>
    rw [← Place.after_append]
    exact .done (hfiller.append_gap hgap)
  | @token _ _ gap _ _ _ _ hgap hlongest h =>
    rw [← List.append_assoc, ← Place.after_append p filler gap]
    rw [← Place.after_append p filler gap] at h
    exact .token (hfiller.append_gap hgap) hlongest h
  | @unrecognized _ _ _ gap _ _ hgap hnone h =>
    rw [← List.append_assoc, ← Place.after_append p filler gap]
    rw [← Place.after_append p filler gap] at h
    exact .unrecognized (hfiller.append_gap hgap) hnone h

/-- A filler in front of a text can be left out.

**Proof sketch.** By cases on the first step.  In each the gap of that step begins with the filler,
since a gap is as long as it can be; what is left of the gap is a gap at the place behind the
filler. -/
lemma Lexes.of_filler {filler : List Char} (hfiller : Lexeme.Filler filler)
    (h : Lexes b p items (filler ++ text)) : Lexes b (p.after filler) items text := by
  generalize hall : filler ++ text = all at h
  cases h with
  | done hgap =>
    obtain ⟨gap', rfl, hgap'⟩ := hgap.of_filler hfiller (by rw [hall, List.append_nil])
    rw [List.append_cancel_left_eq] at hall
    rw [Place.after_append, hall]
    exact .done hgap'
  | token hgap hlongest h =>
    obtain ⟨gap', rfl, hgap'⟩ := hgap.of_filler hfiller hall
    rw [List.append_assoc, List.append_cancel_left_eq] at hall
    rw [Place.after_append p filler gap'] at h ⊢
    rw [hall]
    exact .token hgap' hlongest h
  | unrecognized hgap hnone h =>
    obtain ⟨gap', rfl, hgap'⟩ := hgap.of_filler hfiller hall
    rw [List.append_assoc, List.append_cancel_left_eq] at hall
    rw [Place.after_append p filler gap'] at h ⊢
    rw [hall]
    exact .unrecognized hgap' hnone h

end Lexer

/-- The items of a text are those that the lexer reads from its beginning. -/
theorem lexes_iff {source : String} {items : List LexItem} :
    lex source = items ↔ Lexer.Lexes false .start items source.toList := by
  have hitems {items : List LexItem} (h : Lexer.Lexes false .start items source.toList) :
      lex source = items := h.itemsUpTo_eq _ (Nat.lt_succ_self _)
  refine ⟨fun h => ?_, hitems⟩
  obtain ⟨items', h'⟩ := Lexer.exists_lexes _ false .start source.toList (Nat.lt_succ_self _)
  rwa [← h, hitems h']

/-- The tokens of a text, where every item is a token. -/
lemma tokenize_eq_ok_iff {source : String} {ts : List Token} :
    tokenize source = .ok ts ↔ Lexer.Lexes false .start (ts.map .token) source.toList := by
  rw [← lexes_iff]
  refine ⟨LexItem.eq_map_of_mapM, fun h => ?_⟩
  rw [tokenize, h, LexItem.mapM_token]

/-! ## Items further on -/

/-- The place stands `k` bytes further on, and where lines are compared, `n` lines further down in
the same column. -/
structure Place.FurtherOn (k : Nat) (lines : Option Nat) (p q : Place) : Prop where
  offset : q.offset = p.offset + k
  place : ∀ n ∈ lines, q.line = p.line + n ∧ q.column = p.column

/-- The span stands further on, like its places. -/
structure Span.FurtherOn (k : Nat) (lines : Option Nat) (s s' : Span) : Prop where
  start : s'.start = s.start + k
  stop : s'.stop = s.stop + k
  place : ∀ n ∈ lines, s'.line = s.line + n ∧ s'.column = s.column

/-- The token is the same, and it stands further on. -/
structure Token.FurtherOn (k : Nat) (lines : Option Nat) (t u : Token) : Prop where
  content : t.content = u.content
  span : t.span.FurtherOn k lines u.span

/-- The item is the same, and it stands further on. -/
inductive LexItem.FurtherOn (k : Nat) (lines : Option Nat) : LexItem → LexItem → Prop
  | token {t u : Token} (h : t.FurtherOn k lines u) :
    LexItem.FurtherOn k lines (.token t) (.token u)
  | unrecognized {c : Char} {s s' : Span} (h : s.FurtherOn k lines s') :
      LexItem.FurtherOn k lines (.unrecognized c s) (.unrecognized c s')

section FurtherOn

variable {k : Nat} {lines : Option Nat} {p q p' q' : Place}

/-- Places stay as far apart behind the same character. -/
lemma Place.FurtherOn.next (h : p.FurtherOn k lines q) (c : Char) :
    (p.next c).FurtherOn k lines (q.next c) := by
  refine ⟨?_, fun n hn => ?_⟩
  · have hoffset := h.offset
    unfold Place.next
    split <;> simp only <;> omega
  · obtain ⟨hline, hcolumn⟩ := h.place n hn
    unfold Place.next
    split
    · exact ⟨by simp only [hline]; omega, rfl⟩
    · exact ⟨hline, by simp only [hcolumn]⟩

/-- Places stay as far apart behind the same characters. -/
lemma Place.FurtherOn.after (h : p.FurtherOn k lines q) (cs : List Char) :
    (p.after cs).FurtherOn k lines (q.after cs) := by
  induction cs generalizing p q with
  | nil => exact h
  | cons c cs ih => exact ih (h.next c)

/-- Spans between places that are equally far apart are as far apart. -/
lemma Place.FurtherOn.between (h : p.FurtherOn k lines q) (h' : p'.FurtherOn k lines q') :
    (Span.between p p').FurtherOn k lines (Span.between q q') :=
  ⟨h.offset, h'.offset, h.place⟩

/-- **The items of a text that begins further on** stand further on. -/
theorem Lexer.Lexes.furtherOn {b : Bool} {items : List LexItem} {text : List Char}
    (h : Lexes b p items text) (hplace : p.FurtherOn k lines q) :
    ∃ items', Lexes b q items' text ∧ List.Forall₂ (LexItem.FurtherOn k lines) items items' := by
  induction h generalizing q with
  | @done b p gap hgap =>
    have hend := hplace.after gap
    exact ⟨_, .done hgap, .cons (.token ⟨rfl, hend.between hend⟩) .nil⟩
  | @token b p gap lexeme text kind items hgap hlongest _ ih =>
    have hstart := hplace.after gap
    have hstop := hstart.after lexeme
    obtain ⟨items', h', hfurther⟩ := ih hstop
    exact ⟨_, .token hgap hlongest h', .cons (.token ⟨rfl, hstart.between hstop⟩) hfurther⟩
  | @unrecognized b p c gap text items hgap hnone _ ih =>
    have hstart := hplace.after gap
    have hstop := hstart.next c
    obtain ⟨items', h', hfurther⟩ := ih hstop
    exact ⟨_, .unrecognized hgap hnone h', .cons (.unrecognized (hstart.between hstop)) hfurther⟩

/-- Where all items are tokens, all of those further on are. -/
lemma LexItem.FurtherOn.tokens {ts : List Token} {items : List LexItem}
    (h : List.Forall₂ (LexItem.FurtherOn k lines) (ts.map .token) items) :
    ∃ us, items = us.map .token ∧ List.Forall₂ (Token.FurtherOn k lines) ts us := by
  induction ts generalizing items with
  | nil =>
    cases h
    exact ⟨[], rfl, .nil⟩
  | cons t ts ih =>
    cases h with
    | cons hitem hitems =>
      obtain ⟨us, rfl, hus⟩ := ih hitems
      cases hitem with
      | @token _ u h => exact ⟨u :: us, rfl, .cons h hus⟩

/-- A token that stands further on is displaced, if its pieces are. -/
lemma Token.FurtherOn.displaced {δ : Displacement} {t u : Token}
    (h : t.FurtherOn k δ.lines u) (hpieces : ∀ i < t.pieces,
      δ.place (t.span.start + i) = t.span.start + i + k)
    (hplace : δ.lines.isSome → δ.place t.span.stop = t.span.stop + k)
    (harrow : t.kind = .symbol .leftArrow → t.span.stop = t.span.start + 2) :
    Displaced δ t u := by
  have hstart := h.span.start
  have hstop := h.span.stop
  have hfirst := hpieces 0 t.one_le_pieces
  refine ⟨h.content, ⟨?_, fun n hn => ?_⟩, fun i hi => ?_, fun hkind => ⟨harrow hkind, ?_⟩⟩
  · rw [hstart]
    exact hfirst.symm
  · obtain ⟨hline, hcolumn⟩ := h.span.place n hn
    have hsome : δ.lines.isSome := Option.isSome_of_mem hn
    simp only [Displacement.move, hplace hsome, ← hline, ← hcolumn, ← hstop]
    rw [Nat.add_zero] at hfirst
    rw [hfirst, ← hstart]
  · rw [hpieces i hi, hstart]
    omega
  · have htwo := harrow hkind
    omega

/-- Tokens that stand further on, all by the same number of bytes, are abreast. -/
lemma Token.FurtherOn.abreast {δ : Displacement} {ts us : List Token}
    (h : List.Forall₂ (Token.FurtherOn k δ.lines) ts us)
    (hdisplaced : ∀ t ∈ ts, ∀ u, t.FurtherOn k δ.lines u → Displaced δ t u) : Abreast δ ts us := by
  induction h with
  | nil => exact .nil
  | @cons t u ts us htu hrest ih =>
    rw [List.forall_mem_cons] at hdisplaced
    refine .cons (hdisplaced.1 u htu) (fun _ t' ht' u' hu' => ?_) (ih hdisplaced.2)
    cases hrest with
    | nil => cases ht'
    | cons htu' =>
      obtain rfl := Option.mem_some_iff.1 ht'
      obtain rfl := Option.mem_some_iff.1 hu'
      have hcontent := Prod.mk.inj htu'.content
      have htouch := htu'.span.start
      have hstop := htu.span.stop
      simp only [joinsArrow, hasSign, hcontent.1, hcontent.2, htouch, hstop]
      congr 2
      rw [Bool.eq_iff_iff, beq_iff_eq, beq_iff_eq]
      omega

end FurtherOn

/-! ## Where items stand -/

/-- A text takes at least one byte for each character. -/
lemma Place.offset_add_length_le (p : Place) (cs : List Char) :
    p.offset + cs.length ≤ (p.after cs).offset := by
  induction cs generalizing p with
  | nil => exact le_rfl
  | cons c cs ih =>
    have hnext := Place.offset_lt_after p c []
    have hmore := ih (p.next c)
    simp only [Place.after_cons, Place.after_nil, List.length_cons] at hnext hmore ⊢
    omega

/-- No sign stands in front of a number without one. -/
lemma Lexeme.IsNumber.takeWhile_sign {kind : Kind} {cs : List Char}
    (h : Lexeme.IsNumber kind cs) : cs.takeWhile (· == '-') = [] ∧ 0 < cs.length := by
  obtain ⟨c, cs, rfl, hc⟩ := h.exists_cons
  have hsign : (c == '-') = false := beq_eq_false_iff_ne.2 (Lexeme.ne_sign_of_isDigit hc).2
  simp [hsign]

/-- There is at most one sign in front of a number, and a digit behind it. -/
lemma Token.IsLexeme.length_takeWhile_sign {t : Token} (h : t.IsLexeme)
    (hkind : t.kind.isNumber = true) :
    (t.lexeme.toList.takeWhile (· == '-')).length + 1 ≤ t.lexeme.toList.length := by
  rcases h.number_cases hkind with ⟨hnumber, -⟩ | ⟨digits, hnumber, heq⟩
  · obtain ⟨hnone, hpos⟩ := hnumber.takeWhile_sign
    rw [hnone]
    exact hpos
  · obtain ⟨hnone, hpos⟩ := hnumber.takeWhile_sign
    rw [heq, List.takeWhile_cons_of_pos (by decide), hnone, List.length_cons, List.length_cons]
    exact Nat.succ_le_succ hpos

namespace Lexer

variable {b : Bool} {p : Place} {items : List LexItem} {text : List Char}

/-- No item begins before the place from which the text is read. -/
lemma Lexes.le_start (h : Lexes b p items text) : ∀ i ∈ items, p.offset ≤ i.span.start := by
  induction h with
  | @done _ p gap =>
    intro i hi
    rw [List.mem_singleton.1 hi]
    exact Place.offset_le_after p gap
  | @token b p gap lexeme text kind items hgap hlongest _ ih =>
    have hgap := Place.offset_le_after p gap
    refine List.forall_mem_cons.2 ⟨hgap, fun i hi => ?_⟩
    exact (hgap.trans (Place.offset_le_after _ lexeme)).trans (ih i hi)
  | @unrecognized b p c gap text items hgap hnone _ ih =>
    have hgap := Place.offset_le_after p gap
    refine List.forall_mem_cons.2 ⟨hgap, fun i hi => ?_⟩
    exact (hgap.trans (Place.offset_le_after _ [c])).trans (ih i hi)

/-- The items stand in the order of the text. -/
lemma Lexes.pairwise (h : Lexes b p items text) :
    items.Pairwise fun i j => i.span.stop ≤ j.span.start := by
  induction h with
  | done => exact List.pairwise_singleton _ _
  | token _ _ h ih => exact .cons h.le_start ih
  | unrecognized _ _ h ih => exact .cons h.le_start ih

/-- The pieces of a token are single bytes of it.

**Proof sketch.** Only a number with a sign and an arrow have more than one piece, and their
first characters are single bytes. -/
lemma pieces_le {cs lexeme : List Char} {kind : Kind} (p : Place)
    (h : Lexeme.longest? b cs = some (kind, lexeme)) :
    p.offset + (⟨kind, String.ofList lexeme, .between p (p.after lexeme)⟩ : Token).pieces
      ≤ (p.after lexeme).offset := by
  obtain ⟨-, hmatches, -⟩ := Lexeme.longest?_eq_some_iff.1 h
  have hpos := List.length_pos_iff.2 hmatches.ne.1
  have hlexeme : (⟨kind, String.ofList lexeme, .between p (p.after lexeme)⟩ : Token).IsLexeme :=
    ⟨b, by simpa using hmatches⟩
  have hpieces : (⟨kind, String.ofList lexeme, .between p (p.after lexeme)⟩ : Token).pieces
      ≤ lexeme.length := by
    unfold pieces
    split
    · rename_i hkind
      have harrow := hlexeme.toList_of_symbol hkind
      rw [String.toList_ofList] at harrow
      rw [harrow]
      decide
    · rename_i hkind
      simpa using hlexeme.length_takeWhile_sign (by rw [show kind = .int from hkind]; rfl)
    · rename_i hkind
      simpa using hlexeme.length_takeWhile_sign (by rw [show kind = .float from hkind]; rfl)
    · exact hpos
  exact (Nat.add_le_add_left hpieces _).trans (p.offset_add_length_le lexeme)

/-- An arrow takes two bytes. -/
lemma Lexes.arrow (h : Lexes b p items text) : ∀ t, .token t ∈ items →
    t.kind = .symbol .leftArrow → t.span.stop = t.span.start + 2 := by
  induction h with
  | done =>
    intro t ht hkind
    obtain rfl := LexItem.token.inj (List.mem_singleton.1 ht)
    cases hkind
  | @token b p gap lexeme text kind items hgap hlongest _ ih =>
    intro t ht hkind
    rcases List.mem_cons.1 ht with ht | ht
    · obtain rfl := LexItem.token.inj ht
      obtain rfl : kind = .symbol .leftArrow := hkind
      obtain rfl : lexeme = ['<', '-'] := (Lexeme.longest?_fits hlongest).2.2
      exact Place.offset_after _ _
    · exact ih t ht hkind
  | unrecognized _ _ _ ih =>
    intro t ht
    exact ih t ((List.mem_cons.1 ht).resolve_left nofun)

end Lexer

/-! ## Cutting a text -/

namespace Lexer

variable {b : Bool} {p : Place} {ts : List Token} {items : List LexItem} {text : List Char}

/-- Where the last of the tokens ends; where the text begins, if there is none. -/
def stopFrom (p : Place) (ts : List Token) : Nat :=
  (ts.getLast?.map fun t => t.span.stop).getD p.offset

/-- **A text is cut behind one of its tokens.**  What stands behind the cut can be exchanged, from
any place on, for a text that goes on with no token.

**Proof sketch.** Induction on the tokens in front.  Behind the gap and the lexeme of the first of
them the text is cut by the induction hypothesis; where there are none, the whole text is what is
exchanged. -/
theorem Lexes.cut (h : Lexes b p (ts.map .token ++ items) text) (hitems : items ≠ []) :
    ∃ passed rest, text = passed ++ rest ∧ (p.after passed).offset = stopFrom p ts
      ∧ (∀ t ∈ ts, t.span.start + t.pieces ≤ (p.after passed).offset)
      ∧ Lexes (Tokenizes.memory b ts) (p.after passed) items rest
      ∧ ∀ items' rest', Lexeme.Exchange rest rest' →
        Lexes (Tokenizes.memory b ts) (p.after passed) items' rest' →
        Lexes b p (ts.map .token ++ items') (passed ++ rest') := by
  induction ts generalizing b p text with
  | nil => exact ⟨[], text, rfl, rfl, by simp, h, fun _ _ _ h' => h'⟩
  | cons t ts ih =>
    rw [List.map_cons, List.cons_append] at h
    generalize hall : LexItem.token t :: (ts.map .token ++ items) = all at h
    cases h with
    | done =>
      exact absurd (List.append_eq_nil_iff.1 (List.cons.inj hall).2).2 hitems
    | unrecognized => cases (List.cons.inj hall).1
    | @token _ _ gap lexeme text kind _ hgap hlongest h =>
      obtain ⟨hitem, rfl⟩ := List.cons.inj hall
      obtain rfl := LexItem.token.inj hitem
      obtain ⟨passed, rest, rfl, hstop, hwithin, hrest, hexchange⟩ := ih h
      have hmemory (t : Token) :
          Tokenizes.memory b (t :: ts) = Tokenizes.memory t.kind.endsOperand ts := by
        simp only [Tokenizes.memory, List.getLast?_cons, Option.map_some, Option.getD_some]
        cases ts.getLast? <;> rfl
      have hplace : p.after (gap ++ (lexeme ++ passed))
          = ((p.after gap).after lexeme).after passed := by
        rw [Place.after_append, Place.after_append]
      refine ⟨gap ++ (lexeme ++ passed), rest, by simp, ?_, ?_, ?_,
        fun items' rest' hrest' h' => ?_⟩
      · rw [hplace, hstop]
        simp only [stopFrom, List.getLast?_cons, Option.map_some, Option.getD_some]
        cases ts.getLast? <;> rfl
      · rw [hplace]
        refine List.forall_mem_cons.2 ⟨?_, hwithin⟩
        exact (pieces_le _ hlongest).trans (Place.offset_le_after _ passed)
      · rwa [hmemory, hplace]
      · rw [hmemory, hplace] at h'
        -- in front of a rest that may be exchanged stand the same gap and lexeme
        have hmore := hexchange items' rest' hrest' h'
        have hlongest' := Lexeme.longest?_of_exchange hlongest hrest'
        have hne := (Lexeme.longest?_fits hlongest).1
        rw [List.append_assoc, List.append_assoc]
        exact .token (hgap.before_lexeme (by simp [hne]) hlongest') hlongest' hmore

end Lexer

end RakeLang
