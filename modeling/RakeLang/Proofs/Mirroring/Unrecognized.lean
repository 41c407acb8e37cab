import RakeLang.Proofs.Mirroring.Lexing
import RakeLang.Proofs.Mirroring.SourceFile

/-!
# Unrecognised characters are like spaces

Where all faults of a source are collected, a character that begins no token does no more harm than
a space in its place.  The lexer passes over it and remembers nothing of it; a token in front of it
ends there in both texts, and what is read behind it is the same.  Only a space takes one byte, and
the character may take more, so that what stands behind it has other byte offsets.

## Main definitions

* `RakeLang.withSpaces` — a source with spaces in the place of unrecognised characters.
* `RakeLang.Displacement.restoring` — where the bytes of that text stand in the source.

## Main results

* `RakeLang.Lexer.Lexes.withSpaces` — the text with spaces has the tokens of the source.
* `RakeLang.unrecognized_like_spaces` — the definitions and the faults of both texts.
-/

set_option relaxedAutoImplicit false
set_option autoImplicit false

namespace RakeLang

open Token Lexer

/-! ## Spaces for characters -/

/-- Where an unrecognised character begins, and how many bytes it has beyond the first one. -/
def LexItem.excess? : LexItem → Option (Nat × Nat)
  | token _ => none
  | unrecognized char span => some (span.start, char.utf8Size - 1)

/-- The text at the place `p`, with a space for each character that begins at one of the bytes. -/
def spacesAt (bytes : List Nat) : Place → List Char → List Char
  | _, [] => []
  | p, c :: cs => (if p.offset ∈ bytes then ' ' else c) :: spacesAt bytes (p.next c) cs

/-- The source with a space in the place of each unrecognised character. -/
def withSpaces (source : String) : String :=
  .ofList (spacesAt (((lex source).filterMap LexItem.excess?).map Prod.fst) .start source.toList)

/-- The byte at which a token begins in the source, from the byte at which it begins in the text
with spaces: in the order of the source, each unrecognised character that stands before it moves it
by the bytes that a space does not have. -/
def restored (excess : List (Nat × Nat)) (x : Nat) : Nat :=
  excess.foldl (fun x e => if e.1 < x then x + e.2 else x) x

/-- Restored in two steps is restored. -/
lemma restored_append (excess excess' : List (Nat × Nat)) (x : Nat) :
    restored (excess ++ excess') x = restored excess' (restored excess x) := List.foldl_append

/-- What stands behind something else does so in the source. -/
lemma strictMono_restored (excess : List (Nat × Nat)) : StrictMono (restored excess) := by
  induction excess with
  | nil => exact strictMono_id
  | cons e excess ih =>
    refine ih.comp fun x y hxy => ?_
    dsimp only
    split_ifs <;> omega

/-- What stands before all of the characters stays. -/
lemma restored_eq_self {excess : List (Nat × Nat)} {x : Nat} (h : ∀ e ∈ excess, x ≤ e.1) :
    restored excess x = x := by
  induction excess with
  | nil => rfl
  | cons e excess ih =>
    rw [List.forall_mem_cons] at h
    rw [restored, List.foldl_cons, if_neg (Nat.not_lt.2 h.1)]
    exact ih h.2

/-- Where the bytes of the text with spaces stand in the source. -/
def Displacement.restoring (excess : List (Nat × Nat)) : Displacement :=
  ⟨restored excess, some 0, strictMono_restored excess⟩

/-! ## Texts with spaces -/

section SpacesAt

variable {bytes : List Nat} {p : Place}

/-- Spaces are put into a text part by part. -/
lemma spacesAt_append (cs ds : List Char) :
    spacesAt bytes p (cs ++ ds) = spacesAt bytes p cs ++ spacesAt bytes (p.after cs) ds := by
  induction cs generalizing p with
  | nil => rfl
  | cons c cs ih =>
    rw [List.cons_append, spacesAt, spacesAt, ih, List.cons_append, Place.after_cons]

/-- Where none of the bytes is, nothing is exchanged. -/
lemma spacesAt_eq_self {cs : List Char}
    (h : ∀ x ∈ bytes, p.offset ≤ x → (p.after cs).offset ≤ x) : spacesAt bytes p cs = cs := by
  induction cs generalizing p with
  | nil => rfl
  | cons c cs ih =>
    have hnext := Place.offset_lt_after p c []
    have hmore := Place.offset_le_after (p.next c) cs
    simp only [Place.after_cons, Place.after_nil] at hnext h
    have hnot : p.offset ∉ bytes := fun hmem => by
      have := h _ hmem le_rfl
      omega
    rw [spacesAt, if_neg hnot, ih fun x hx hle => h x hx (by omega)]

/-- Where none of the bytes is in an initial part, it stays. -/
lemma spacesAt_append_of_behind {cs : List Char} (ds : List Char)
    (h : ∀ x ∈ bytes, p.offset ≤ x → (p.after cs).offset ≤ x) :
    spacesAt bytes p (cs ++ ds) = cs ++ spacesAt bytes (p.after cs) ds := by
  rw [spacesAt_append, spacesAt_eq_self h]

/-- Nothing is exchanged, or everything up to the first space stays. -/
lemma spacesAt_cases (bytes : List Nat) (p : Place) (cs : List Char) :
    spacesAt bytes p cs = cs ∨ ∃ same tail tail', cs = same ++ tail
      ∧ spacesAt bytes p cs = same ++ ' ' :: tail' := by
  induction cs generalizing p with
  | nil => exact .inl rfl
  | cons c cs ih =>
    by_cases hp : p.offset ∈ bytes
    · exact .inr ⟨[], c :: cs, _, rfl, by rw [spacesAt, if_pos hp]; rfl⟩
    · rw [spacesAt, if_neg hp]
      rcases ih (p.next c) with heq | ⟨same, tail, tail', rfl, heq⟩
      · exact .inl (by rw [heq])
      · exact .inr ⟨c :: same, tail, tail', rfl, by rw [heq]; rfl⟩

/-- A lexeme ends in front of a space as it does in front of the character. -/
lemma longest?_spacesAt {b : Bool} {kind : Kind} {lexeme text : List Char}
    (h : Lexeme.longest? b (lexeme ++ text) = some (kind, lexeme)) :
    Lexeme.longest? b (lexeme ++ spacesAt bytes p text) = some (kind, lexeme) := by
  rcases spacesAt_cases bytes p text with heq | ⟨same, tail, tail', rfl, heq⟩
  · rwa [heq]
  · rw [heq]
    refine Lexeme.longest?_of_breaks h ?_
    rintro _ ⟨⟩
    exact .inl (by decide)

end SpacesAt

/-! ## The tokens of the text with spaces -/

/-- The place `p` of the source and the place `q` of the text with spaces are behind the same
characters: every byte from `q` on stands behind `p` in the source, as far as only the characters
before count. -/
structure Place.Restored (before : List (Nat × Nat)) (q p : Place) : Prop where
  offset : ∀ i, restored before (q.offset + i) = p.offset + i
  line : q.line = p.line
  column : q.column = p.column

section Restored

variable {before behind : List (Nat × Nat)} {p q : Place} {lexeme : List Char}

/-- Restored places stay restored behind the same character. -/
lemma Place.Restored.next {c : Char} (h : Restored before q p) :
    Restored before (q.next c) (p.next c) := by
  obtain ⟨hoffset, hline, hcolumn⟩ := h
  have hnext (p : Place) : (p.next c).offset = p.offset + c.utf8Size := by
    unfold Place.next
    split <;> rfl
  refine ⟨fun i => ?_, ?_, ?_⟩
  · rw [hnext, hnext, Nat.add_assoc, hoffset, Nat.add_assoc]
  · unfold Place.next
    split <;> simp only [hline]
  · unfold Place.next
    split
    · rfl
    · simp only [hcolumn]

/-- Restored places stay restored behind the same characters. -/
lemma Place.Restored.after (h : Restored before q p) (cs : List Char) :
    Restored before (q.after cs) (p.after cs) := by
  induction cs generalizing p q with
  | nil => exact h
  | cons c cs ih => exact ih h.next

/-- Behind a space on one side and the character on the other. -/
lemma Place.Restored.space {c : Char} (h : Restored before q p) (hc : c ≠ '\n') :
    Restored (before ++ [(p.offset, c.utf8Size - 1)]) (q.next ' ') (p.next c) := by
  obtain ⟨hoffset, hline, hcolumn⟩ := h
  have hq : q.next ' ' = ⟨q.offset + 1, q.line, q.column + 1⟩ := rfl
  have hp : p.next c = ⟨p.offset + c.utf8Size, p.line, p.column + 1⟩ := if_neg hc
  rw [hq, hp]
  refine ⟨fun i => ?_, hline, congrArg (· + 1) hcolumn⟩
  have hsize := c.utf8Size_pos
  have hlt : p.offset < p.offset + (1 + i) := by omega
  rw [restored_append, Nat.add_assoc, hoffset]
  simp only [restored, List.foldl_cons, List.foldl_nil, if_pos hlt]
  omega

/-- A token at places that are behind the same characters, where no unrecognised character begins
inside.

**Proof sketch.** Every byte offset at which a piece of the token begins is in front of the
characters behind it, so that restoring those changes nothing there. -/
lemma Place.Restored.displaced {kind : Kind} (h : Restored before q p)
    (hbehind : ∀ e ∈ behind, (p.after lexeme).offset ≤ e.1)
    (hpieces : ∀ i < (⟨kind, String.ofList lexeme, .between q (q.after lexeme)⟩ : Token).pieces,
      p.offset + i ≤ (p.after lexeme).offset)
    (harrow : kind = .symbol .leftArrow → lexeme = ['<', '-']) :
    Displaced (.restoring (before ++ behind))
      ⟨kind, String.ofList lexeme, .between q (q.after lexeme)⟩
      ⟨kind, String.ofList lexeme, .between p (p.after lexeme)⟩ := by
  have hplace (i : Nat) (hi : p.offset + i ≤ (p.after lexeme).offset) :
      restored (before ++ behind) (q.offset + i) = p.offset + i := by
    rw [restored_append, h.offset, restored_eq_self fun e he => hi.trans (hbehind e he)]
  have hstart := hplace 0 (Place.offset_le_after p lexeme)
  have hstop : restored (before ++ behind) (q.after lexeme).offset = (p.after lexeme).offset := by
    rw [Place.offset_after q, hplace _ (Place.offset_after p lexeme).ge, Place.offset_after]
  refine ⟨rfl, ⟨hstart.symm, fun n hn => ?_⟩, fun i hi => hplace i (hpieces i hi), fun hkind => ?_⟩
  · obtain rfl := Option.mem_some_iff.1 hn
    simp only [Displacement.move, Displacement.restoring, Span.between, h.line, h.column,
      Nat.add_zero, hstop]
    rw [Nat.add_zero] at hstart
    rw [hstart]
    rfl
  · obtain rfl := harrow hkind
    exact ⟨Place.offset_after q _, Place.offset_after p _⟩

/-- A lexeme at places that are behind the same characters, with the others behind it. -/
lemma Place.Restored.displaced_lexeme {b : Bool} {kind : Kind} {text : List Char}
    (h : Restored before q p) (hbehind : ∀ e ∈ behind, (p.after lexeme).offset ≤ e.1)
    (hlongest : Lexeme.longest? b text = some (kind, lexeme)) :
    Displaced (.restoring (before ++ behind))
      ⟨kind, String.ofList lexeme, .between q (q.after lexeme)⟩
      ⟨kind, String.ofList lexeme, .between p (p.after lexeme)⟩ := by
  refine h.displaced hbehind (fun i hi => ?_) fun hkind => ?_
  · have hpieces := pieces_le p hlongest
    have hi' : i < (⟨kind, String.ofList lexeme, .between p (p.after lexeme)⟩ : Token).pieces := hi
    omega
  · subst hkind
    exact (Lexeme.longest?_fits hlongest).2.2

end Restored

/-- The characters that begin no token stand at or behind the place from which the text is read. -/
lemma Lexer.Lexes.le_excess {b : Bool} {p : Place} {items : List LexItem} {text : List Char}
    (h : Lexes b p items text) (x : Nat)
    (hx : x ∈ (items.filterMap LexItem.excess?).map Prod.fst) : p.offset ≤ x := by
  obtain ⟨e, he, rfl⟩ := List.mem_map.1 hx
  obtain ⟨item, hitem, hexcess⟩ := List.mem_filterMap.1 he
  cases item with
  | token t => cases hexcess
  | unrecognized c s =>
    obtain rfl := Option.some.inj hexcess
    exact h.le_start _ hitem

/-- **The text with spaces has the tokens of the source**, and no unrecognised character.

**Proof sketch.** Induction on the items of the source.  A token ends in front of a space as it does
in front of the character.  A space for a character adds to the gap in front of the next token; the
characters before count for where a token begins, and those behind it do not. -/
theorem Lexer.Lexes.withSpaces {b : Bool} {p : Place} {items : List LexItem} {text : List Char}
    (h : Lexes b p items text) :
    ∀ (q : Place) (before : List (Nat × Nat)) (bytes : List Nat), q.Restored before p →
      (∀ x, p.offset ≤ x → (x ∈ bytes ↔ x ∈ (items.filterMap LexItem.excess?).map Prod.fst)) →
      ∃ ts, Lexes b q (ts.map .token) (spacesAt bytes p text)
        ∧ List.Forall₂ (Displaced (.restoring (before ++ items.filterMap LexItem.excess?))) ts
          (items.filterMap LexItem.token?) := by
  induction h with
  | @done b p gap hgap =>
    intro q before bytes hq hbytes
    have hsame : spacesAt bytes p gap = gap :=
      spacesAt_eq_self fun x hx hle => nomatch (hbytes x hle).1 hx
    rw [hsame]
    refine ⟨[_], .done hgap, .cons ?_ .nil⟩
    refine @Place.Restored.displaced before [] _ _ [] .eof (hq.after gap) nofun
      (fun i hi => ?_) nofun
    have hfirst : i < 1 := hi
    rw [Place.after_nil]
    omega
  | @token b p gap lexeme text kind items hgap hlongest h ih =>
    intro q before bytes hq hbytes
    have hstart := h.le_excess
    have hpass : p.offset ≤ ((p.after gap).after lexeme).offset :=
      (Place.offset_le_after p gap).trans (Place.offset_le_after _ lexeme)
    have hsame : spacesAt bytes p (gap ++ (lexeme ++ text))
        = gap ++ (lexeme ++ spacesAt bytes ((p.after gap).after lexeme) text) := by
      rw [← List.append_assoc, spacesAt_append_of_behind text fun x hx hle => ?_,
        Place.after_append, List.append_assoc]
      rw [Place.after_append]
      exact hstart x ((hbytes x hle).1 hx)
    obtain ⟨ts, hts, hdisplaced⟩ := ih ((q.after gap).after lexeme) before bytes
      ((hq.after gap).after lexeme) fun x hx => hbytes x (hpass.trans hx)
    have hlongest' : Lexeme.longest? b
        (lexeme ++ spacesAt bytes ((p.after gap).after lexeme) text) = some (kind, lexeme) :=
      longest?_spacesAt hlongest
    have hne := (Lexeme.longest?_fits hlongest).1
    rw [hsame]
    exact ⟨_ :: ts, .token (hgap.before_lexeme (by simp [hne]) hlongest') hlongest' hts,
      .cons ((hq.after gap).displaced_lexeme (fun e he => hstart _ (List.mem_map_of_mem he))
        hlongest) hdisplaced⟩
  | @unrecognized b p c gap text items hgap hnone h ih =>
    intro q before bytes hq hbytes
    have hbad := Place.offset_lt_after (p.after gap) c []
    rw [Place.after_cons, Place.after_nil] at hbad
    have hgapend := Place.offset_le_after p gap
    have hexcess : (LexItem.unrecognized c (.between (p.after gap) ((p.after gap).next c))
        :: items).filterMap LexItem.excess?
          = ((p.after gap).offset, c.utf8Size - 1) :: items.filterMap LexItem.excess? := rfl
    rw [hexcess, List.map_cons] at hbytes
    have hsame : spacesAt bytes p (gap ++ c :: text)
        = (gap ++ [' ']) ++ spacesAt bytes ((p.after gap).next c) text := by
      have hmem : (p.after gap).offset ∈ bytes := (hbytes _ hgapend).2 List.mem_cons_self
      rw [spacesAt_append_of_behind _ fun x hx hle => ?_, spacesAt, if_pos hmem, List.append_assoc]
      · rfl
      · rcases List.mem_cons.1 ((hbytes x hle).1 hx) with rfl | hx
        · exact le_rfl
        · exact hbad.le.trans (h.le_excess x hx)
    have hc : c ≠ '\n' := by
      rintro rfl
      exact absurd (hgap.head?_rest '\n' rfl) (by decide)
    -- the space joins the gap in front of it, and the gap of the next item
    have hfiller : Lexeme.Filler (gap ++ [' ']) :=
      (hgap.isFiller (List.cons_ne_nil c text)).append (.blank (by decide) .nil)
    obtain ⟨ts, hts, hdisplaced⟩ := ih ((q.after gap).next ' ')
      (before ++ [((p.after gap).offset, c.utf8Size - 1)]) bytes ((hq.after gap).space hc)
      fun x hx => by
        rw [hbytes x (by omega), List.mem_cons, or_iff_right (by omega)]
    rw [List.append_assoc, List.singleton_append, ← hexcess] at hdisplaced
    refine ⟨ts, ?_, hdisplaced⟩
    rw [hsame]
    refine .filler hfiller ?_
    rwa [Place.after_append]

/-! ## What is read -/

/-- The span in the source, from the span in the text with spaces: line and column stay. -/
def restoredSpan (source : String) (s : Span) : Span :=
  ⟨s.line, s.column, restored ((lex source).filterMap LexItem.excess?) s.start,
    restored ((lex source).filterMap LexItem.excess?) s.stop⟩

/-- **An unrecognised character is like a space**, where all faults are collected: the text with
spaces in the place of such characters has no lexical fault, its definitions are those of the
source, on the same lines and in the same columns, with byte offsets that differ by the bytes that
the characters before have and spaces have not, and the faults of the source are the characters, in
source order, and behind them the faults of the text with spaces, at such places.

**Proof sketch.** The tokens of both texts are abreast by `Lexer.Lexes.withSpaces`, with all bytes
displaced in order, so tokens that touch in one text do so in the other.  Then readings mirror each
other. -/
theorem unrecognized_like_spaces (sourceId source : String) :
    (lex (withSpaces source)).filterMap LexItem.fault? = []
      ∧ (parseSource sourceId source .collectAll).file.definitions
        = (parseSource sourceId (withSpaces source) .collectAll).file.definitions.map
          (Definition.mapSpans (restoredSpan source))
      ∧ (parseSource sourceId source .collectAll).diagnostics.faults
        = (lex source).filterMap LexItem.fault?
          ++ (parseSource sourceId (withSpaces source) .collectAll).diagnostics.faults.map
            (Fault.mapSpans (restoredSpan source))
      ∧ (lex source).Pairwise fun item next => item.span.stop ≤ next.span.start := by
  obtain ⟨ts, hts, hdisplaced⟩ := (lexes_iff.1 (rfl : lex source = lex source)).withSpaces .start []
    (((lex source).filterMap LexItem.excess?).map Prod.fst) ⟨fun _ => rfl, rfl, rfl⟩
    fun _ _ => Iff.rfl
  have hlex : lex (withSpaces source) = ts.map .token := by
    rw [lexes_iff, withSpaces, String.toList_ofList]
    exact hts
  rw [List.nil_append] at hdisplaced
  have htokens : (lex (withSpaces source)).filterMap LexItem.token? = ts := by
    rw [hlex, List.filterMap_map]
    exact List.filterMap_some
  have hnone : (lex (withSpaces source)).filterMap LexItem.fault? = [] := by
    rw [hlex, List.filterMap_map]
    exact List.filterMap_eq_nil_iff.2 fun _ _ => rfl
  have hok : tokenize (withSpaces source) = .ok ts := by rw [tokenize, hlex, LexItem.mapM_token]
  obtain ⟨ts', eof, heq, heof, -⟩ := exists_of_tokenize hok
  -- spans are compared in full, so that tokens touch on one side if they do on the other
  have habreast := Abreast.of_exact rfl hdisplaced
  have hrel := habreast.starts (fun t ht => by
    rw [heq, List.getLast?_concat] at ht
    exact Option.mem_some_iff.1 ht ▸ heof) (by simp [heq])
  obtain ⟨k, hremaining, hzero⟩ := (Displacement.mirror _ []).remaining hrel
  rw [hzero trivial, Nat.add_zero] at hremaining
  obtain ⟨hdefinitions, hfaults⟩ :=
    @readDefinitions_mirrors (Displacement.mirror _ []) .collectAll _ _ trivial
      (Mirror.starts_of_rel trivial hrel) hremaining.symm
  have hleft : (Displacement.mirror (.restoring ((lex source).filterMap LexItem.excess?)) []).left
      = restoredSpan source := rfl
  have hright : (Displacement.mirror (.restoring ((lex source).filterMap LexItem.excess?)) []).right
      = id := rfl
  rw [hleft, hright, Definition.mapSpans_id, List.map_id] at hdefinitions
  rw [hleft, hright, Fault.mapSpans_id, List.map_id] at hfaults
  refine ⟨hnone, ?_, ?_, (lexes_iff.1 (rfl : lex source = lex source)).pairwise⟩
  · simp only [parseSource, htokens, hdefinitions]
  · simp only [parseSource, htokens, hnone, hfaults, List.nil_append]

end RakeLang
