import RakeLang.Proofs.Mirroring.Mirror
import RakeLang.Proofs.Reading.SourceFile
import RakeLang.Proofs.Rereading.Shift

/-!
# Displaced tokens

The tokens of two inputs are the same but for their places.  A displacement tells where a byte of
the left input stands in the right one.  Spans are either compared in full, lines and columns
included, or only in the order in which they begin.

Tokens can be split, so a displacement has to tell where the pieces stand, and whether an arrow
touches the number behind it must be the same on both sides.  Then two cursors at the same token are
related by a mirror.

## Main definitions

* `RakeLang.Displacement`, `RakeLang.Displacement.Spans` — displacements, and related spans.
* `RakeLang.Token.Displaced` — a token on both sides.
* `RakeLang.Token.Abreast` — a list of tokens on both sides.
* `RakeLang.Displacement.mirror` — the mirror between cursors in the two lists.

## Main results

* `RakeLang.Token.Abreast.splitHead`, `RakeLang.Token.Abreast.splitArrowHead` — splits keep tokens
  abreast.
-/

set_option relaxedAutoImplicit false
set_option autoImplicit false

namespace RakeLang

open Token

/-! ## Displacements -/

/-- Where the bytes of one input stand in another one. -/
structure Displacement where
  place : Nat → Nat
  /-- How many lines further down a token stands, its column being the same; nothing if spans are
  compared only in their order. -/
  lines : Option Nat
  strictMono : StrictMono place

namespace Displacement

variable {δ : Displacement} {s s' t t' : Span}

/-- The displaced span. -/
def move (δ : Displacement) (n : Nat) (s : Span) : Span :=
  ⟨s.line + n, s.column, δ.place s.start, δ.place s.stop⟩

/-- The span on the right side is the one on the left side, displaced. -/
structure Spans (δ : Displacement) (s s' : Span) : Prop where
  start : s'.start = δ.place s.start
  exact : ∀ n ∈ δ.lines, s' = δ.move n s

/-- How a span on the left side is looked at: displaced, or not at all. -/
def left (δ : Displacement) : Span → Span :=
  match δ.lines with
  | none => fun _ => .origin
  | some n => δ.move n

/-- How a span on the right side is looked at: as it is, or not at all. -/
def right (δ : Displacement) : Span → Span :=
  match δ.lines with
  | none => fun _ => .origin
  | some _ => id

/-- Related spans look the same from both sides. -/
lemma Spans.view (h : δ.Spans s s') : δ.left s = δ.right s' := by
  unfold left right
  rcases hlines : δ.lines with _ | n
  · rfl
  · exact (h.exact n hlines).symm

/-- To merge displaced spans is to displace the merged one. -/
lemma move_merge (n : Nat) : δ.move n (s.merge t) = (δ.move n s).merge (δ.move n t) := by
  have horder : (δ.move n s).start ≤ (δ.move n t).start ↔ s.start ≤ t.start :=
    δ.strictMono.le_iff_le
  have hstop := δ.strictMono.monotone.map_max (a := s.stop) (b := t.stop)
  by_cases hle : s.start ≤ t.start
  · simp only [Span.merge, if_pos hle, if_pos (horder.2 hle)]
    simp only [move, hstop]
  · simp only [Span.merge, if_neg hle, if_neg (mt horder.1 hle)]
    simp only [move, hstop]

/-- Related spans begin in the same order. -/
lemma Spans.order (h : δ.Spans s s') (h' : δ.Spans t t') :
    s.start ≤ t.start ↔ s'.start ≤ t'.start := by
  rw [h.start, h'.start, δ.strictMono.le_iff_le]

/-- Related spans merge to related spans. -/
lemma Spans.merge (h : δ.Spans s s') (h' : δ.Spans t t') :
    δ.Spans (s.merge t) (s'.merge t') := by
  refine ⟨?_, fun n hn => ?_⟩
  · have horder := h.order h'
    by_cases hle : s.start ≤ t.start
    · simpa only [Span.merge, if_pos hle, if_pos (horder.1 hle)] using h.start
    · simpa only [Span.merge, if_neg hle, if_neg (mt horder.2 hle)] using h'.start
  · rw [move_merge, ← h.exact n hn, ← h'.exact n hn]

end Displacement

/-! ## Tokens on both sides -/

namespace Token

variable {δ : Displacement} {t u t' u' : Token} {ts us ts' us' as bs : List Token}

/-- The token `u` of the right side is the token `t` of the left side.  The pieces that it can fall
into are single bytes at its head, each of which is displaced with it. -/
structure Displaced (δ : Displacement) (t u : Token) : Prop where
  content : t.content = u.content
  span : δ.Spans t.span u.span
  pieces : ∀ i < t.pieces, δ.place (t.span.start + i) = u.span.start + i
  arrow : t.kind = .symbol .leftArrow →
    t.span.stop = t.span.start + 2 ∧ u.span.stop = u.span.start + 2

/-- A token on both sides has the same kind. -/
lemma Displaced.kind (h : Displaced δ t u) : t.kind = u.kind := congrArg Prod.fst h.content

/-- A token on both sides has the same text. -/
lemma Displaced.lexeme (h : Displaced δ t u) : t.lexeme = u.lexeme := congrArg Prod.snd h.content

/-- A token on both sides, with its span. -/
lemma Displaced.twin (h : Displaced δ t u) : Twin δ.Spans t u := ⟨h.kind, h.lexeme, h.span⟩

/-- A token falls into as many pieces on both sides. -/
lemma Displaced.pieces_eq (h : Displaced δ t u) : t.pieces = u.pieces := by
  simp only [Token.pieces, h.kind, h.lexeme]

/-- A signed number is one on both sides. -/
lemma Displaced.isSignedNumber (h : Displaced δ t u) : t.isSignedNumber = u.isSignedNumber := by
  simp only [Token.isSignedNumber, hasSign, h.kind, h.lexeme]

/-- A token of one piece that stands at related places. -/
lemma Displaced.of_single {f : Span → Token} {s s' : Span} (h : δ.Spans s s')
    (hf : (f s).content = (f s').content) (hspan : ∀ s, (f s).span = s)
    (hpieces : (f s).pieces = 1) (hkind : (f s).kind ≠ .symbol .leftArrow) :
    Displaced δ (f s) (f s') :=
  ⟨hf, by rwa [hspan, hspan], fun i hi => by
    obtain rfl : i = 0 := by omega
    rw [hspan, hspan]
    exact h.start.symm, fun h => absurd h hkind⟩

/-- The first byte of a token that can be split is displaced with it. -/
lemma Displaced.firstByte (h : Displaced δ t u) (hpieces : 1 < t.pieces) :
    δ.Spans t.span.firstByte u.span.firstByte := by
  refine ⟨h.span.start, fun n hn => ?_⟩
  rw [h.span.exact n hn]
  have hnext := h.pieces 1 hpieces
  rw [h.span.start] at hnext
  simp only [Span.firstByte, Displacement.move, hnext]

/-- What is behind the first byte of such a token is displaced with it. -/
lemma Displaced.afterFirstByte (h : Displaced δ t u) (hpieces : 1 < t.pieces) :
    δ.Spans t.span.afterFirstByte u.span.afterFirstByte := by
  have hnext := h.pieces 1 hpieces
  refine ⟨hnext.symm, fun n hn => ?_⟩
  rw [h.span.exact n hn]
  rw [h.span.start] at hnext
  simp only [Span.afterFirstByte, Displacement.move, hnext]

/-- A number without its sign has one piece less. -/
lemma pieces_withoutSign (h : t.isSignedNumber = true) :
    t.pieces = t.withoutSign.pieces + 1 ∧ 1 < t.pieces := by
  have hsplit : t.splitSign? = some (minusAt t.span.firstByte, t.withoutSign) := by
    simp [splitSign?, h]
  have heq := pieces_of_splitSign? hsplit
  have hminus : (minusAt t.span.firstByte).pieces = 1 := rfl
  have := t.withoutSign.one_le_pieces
  omega

/-- A signed number without its sign is displaced with it. -/
lemma Displaced.withoutSign (h : Displaced δ t u) (hsigned : t.isSignedNumber = true) :
    Displaced δ t.withoutSign u.withoutSign := by
  obtain ⟨hpieces, hlt⟩ := pieces_withoutSign hsigned
  refine ⟨?_, h.afterFirstByte hlt, fun i hi => ?_, fun harrow => ?_⟩
  · simp only [Token.withoutSign, Token.content, h.kind, h.lexeme]
  · have hnext := h.pieces (i + 1) (by omega)
    simp only [Token.withoutSign, Span.afterFirstByte]
    rwa [Nat.add_assoc, Nat.add_assoc, Nat.add_comm 1 i]
  · change t.kind = _ at harrow
    simp [Token.isSignedNumber, harrow, Kind.isNumber] at hsigned

/-- An arrow falls into two pieces. -/
lemma pieces_arrow (h : t.kind = .symbol .leftArrow) : t.pieces = 2 := by
  simp only [pieces, h]

/-- Only an arrow and a signed number fall into pieces. -/
lemma pieces_eq_one (hsigned : t.isSignedNumber = false) (harrow : t.kind ≠ .symbol .leftArrow) :
    t.pieces = 1 := by
  unfold pieces
  split
  case h_1 => contradiction
  case h_4 => rfl
  all_goals
    rename_i hkind
    have hsign : t.hasSign = false := by simpa [isSignedNumber, hkind, Kind.isNumber] using hsigned
    rcases htext : t.lexeme.toList with _ | ⟨c, cs⟩
    · rfl
    · have hc : (c == '-') = false := by simpa [hasSign, htext] using hsign
      simp [hc]

/-- The number that takes the minus sign of the arrow that it touches has two pieces. -/
lemma pieces_joined_eq_two (hjoins : joinsArrow t t' = true) : (joined t t').pieces = 2 := by
  have hpieces := pieces_joined hjoins
  simp only [joinsArrow, Bool.and_eq_true, Bool.not_eq_true'] at hjoins
  obtain ⟨⟨hnumber, -⟩, hsign⟩ := hjoins
  have hsigned : t'.isSignedNumber = false := by simp [isSignedNumber, hsign]
  have harrow : t'.kind ≠ .symbol .leftArrow := fun harrow => by
    simp [harrow, Kind.isNumber] at hnumber
  rw [hpieces, pieces_eq_one hsigned harrow]

/-- The number that an arrow leaves behind, with its minus sign, is displaced with both.

**Proof sketch.** The arrow and the number touch on both sides, so that the span of the joined token
is that of the minus sign merged with that of the number. -/
lemma Displaced.joined (h : Displaced δ t u) (h' : Displaced δ t' u')
    (harrow : t.kind = .symbol .leftArrow) (hjoins : joinsArrow t t' = true)
    (hjoins' : joinsArrow u u' = true) : Displaced δ (joined t t') (joined u u') := by
  have hafter := h.afterFirstByte (by rw [pieces_arrow harrow]; decide)
  obtain ⟨hstop, hstop'⟩ := h.arrow harrow
  have htouch : t'.span.start = t.span.stop := by
    simp only [joinsArrow, Bool.and_eq_true, beq_iff_eq] at hjoins
    exact hjoins.1.2
  have htouch' : u'.span.start = u.span.stop := by
    simp only [joinsArrow, Bool.and_eq_true, beq_iff_eq] at hjoins'
    exact hjoins'.1.2
  have hspans := hafter.merge h'.span
  refine ⟨?_, hspans, fun i hi => ?_, fun hkind => ?_⟩
  · simp only [Token.joined, Token.content, h'.kind, h'.lexeme]
  · rw [pieces_joined_eq_two hjoins] at hi
    obtain rfl | rfl : i = 0 ∨ i = 1 := by omega
    · exact hspans.start.symm
    -- the one place inside is where the number began before
    have hle : t.span.afterFirstByte.start ≤ t'.span.start := by
      simp only [Span.afterFirstByte, htouch, hstop]
      omega
    have hle' : u.span.afterFirstByte.start ≤ u'.span.start := by
      simp only [Span.afterFirstByte, htouch', hstop']
      omega
    have hstart : (Token.joined t t').span.start + 1 = t'.span.start := by
      simp only [Token.joined, Span.merge, if_pos hle]
      simp only [Span.afterFirstByte, htouch, hstop]
    have hstart' : (Token.joined u u').span.start + 1 = u'.span.start := by
      simp only [Token.joined, Span.merge, if_pos hle']
      simp only [Span.afterFirstByte, htouch', hstop']
    rw [hstart, hstart', ← h'.span.start]
  · change t'.kind = _ at hkind
    simp [joinsArrow, hkind, Kind.isNumber] at hjoins

/-! ## Lists of tokens on both sides -/

/-- What follows an arrow joins it on both sides or on none. -/
def JoinsAlike (t u : Token) (ts us : List Token) : Prop :=
  t.kind = .symbol .leftArrow →
    ∀ t' ∈ ts.head?, ∀ u' ∈ us.head?, joinsArrow t t' = joinsArrow u u'

/-- The tokens `us` of the right side are the tokens `ts` of the left side. -/
inductive Abreast (δ : Displacement) : List Token → List Token → Prop
  | nil : Abreast δ [] []
  | cons {t u : Token} {ts us : List Token} (h : Displaced δ t u) (hjoins : JoinsAlike t u ts us)
      (hrest : Abreast δ ts us) : Abreast δ (t :: ts) (u :: us)

/-- Where spans are compared in full, tokens that touch on one side do so on the other.

**Proof sketch.** By induction on the rows.  Whether a token joins the arrow in front of it depends
on kinds, on lexemes, and on whether the two touch; spans that are compared in full are moved by one
injective map, so that they touch on both sides or on none. -/
lemma Abreast.of_exact {n : Nat} (hlines : δ.lines = some n)
    (h : List.Forall₂ (Displaced δ) ts us) : Abreast δ ts us := by
  induction h with
  | nil => exact .nil
  | @cons t u ts us htu hrest ih =>
    refine .cons htu (fun _ _ ht' _ hu' => ?_) ih
    cases hrest with
    | nil => cases ht'
    | @cons t' u' _ _ htu' =>
      obtain rfl := Option.mem_some_iff.1 ht'
      obtain rfl := Option.mem_some_iff.1 hu'
      have hstop : u.span.stop = δ.place t.span.stop := by rw [htu.span.exact n hlines]; rfl
      have htouch : (t'.span.start == t.span.stop) = (u'.span.start == u.span.stop) := by
        rw [Bool.eq_iff_iff, beq_iff_eq, beq_iff_eq, htu'.span.start, hstop,
          δ.strictMono.injective.eq_iff]
      simp only [joinsArrow, hasSign, htu'.kind, htu'.lexeme, htouch]

/-- Lists abreast are of the same length. -/
lemma Abreast.length (h : Abreast δ ts us) : ts.length = us.length := by
  induction h with
  | nil => rfl
  | cons _ _ _ ih => rw [List.length_cons, List.length_cons, ih]

/-- Lists abreast fall into as many pieces. -/
lemma Abreast.countPieces (h : Abreast δ ts us) : countPieces ts = countPieces us := by
  induction h with
  | nil => rfl
  | cons h _ _ ih => rw [countPieces_cons, countPieces_cons, h.pieces_eq, ih]

/-- Lists abreast have the same kinds and texts. -/
lemma Abreast.map_content (h : Abreast δ ts us) : ts.map content = us.map content := by
  induction h with
  | nil => rfl
  | cons h _ _ ih => rw [List.map_cons, List.map_cons, h.content, ih]

/-- Lists abreast have tails abreast. -/
lemma Abreast.of_append (h : Abreast δ (as ++ ts) (bs ++ us)) (hlength : as.length = bs.length) :
    Abreast δ ts us := by
  induction as generalizing bs with
  | nil =>
    obtain rfl := List.length_eq_zero_iff.1 hlength.symm
    exact h
  | cons a as ih =>
    obtain ⟨b, bs, rfl⟩ := List.exists_cons_of_length_pos (l := bs) (by
      rw [← hlength]
      exact Nat.succ_pos _)
    cases h with
    | cons _ _ hrest => exact ih hrest (Nat.succ.inj hlength)

/-- The tails of lists abreast can be exchanged for others, if an arrow in front joins those on both
sides or on none.

**Proof sketch.** Induction on the tokens in front; only the last of them can join what follows. -/
lemma Abreast.exchange (h : Abreast δ (as ++ ts) (bs ++ us)) (hlength : as.length = bs.length)
    (htail : Abreast δ ts us → Abreast δ ts' us')
    (hjoins : ∀ t u, JoinsAlike t u ts us → JoinsAlike t u ts' us') :
    Abreast δ (as ++ ts') (bs ++ us') := by
  induction as generalizing bs with
  | nil =>
    obtain rfl := List.length_eq_zero_iff.1 hlength.symm
    exact htail h
  | cons a as ih =>
    obtain ⟨b, bs, rfl⟩ := List.exists_cons_of_length_pos (l := bs) (by
      rw [← hlength]
      exact Nat.succ_pos _)
    cases h with
    | cons hab hlink hrest =>
      refine .cons hab ?_ (ih hrest (Nat.succ.inj hlength))
      rcases as with _ | ⟨a', as⟩
      · obtain rfl := List.length_eq_zero_iff.1 (Nat.succ.inj hlength).symm
        exact hjoins a b hlink
      · obtain ⟨b', bs, rfl⟩ := List.exists_cons_of_length_pos (l := bs) (by
          rw [← Nat.succ.inj hlength]
          exact Nat.succ_pos _)
        exact hlink

/-- Lists abreast can be put one behind the other, if what the seam joins is joined on both sides.

**Proof sketch.** By induction on the first rows.  The links within them stay as they are, and the
link of their last tokens with what follows is the hypothesis. -/
lemma Abreast.append (h : Abreast δ ts us) (h' : Abreast δ ts' us')
    (hjoins : ∀ t ∈ ts.getLast?, ∀ u ∈ us.getLast?, JoinsAlike t u ts' us') :
    Abreast δ (ts ++ ts') (us ++ us') := by
  induction h with
  | nil => exact h'
  | @cons t u ts us htu hlink hrest ih =>
    have hmore : Abreast δ (ts ++ ts') (us ++ us') := by
      refine ih fun t ht u hu => hjoins t ?_ u ?_
      · rw [List.getLast?_cons, Option.mem_def.1 ht]
        rfl
      · rw [List.getLast?_cons, Option.mem_def.1 hu]
        rfl
    refine .cons htu ?_ hmore
    cases hrest with
    | nil => exact hjoins t rfl u rfl
    | cons => exact hlink

/-- The last tokens of lists abreast correspond. -/
lemma Abreast.of_concat (h : Abreast δ (ts ++ [t]) (us ++ [u])) :
    Abreast δ ts us ∧ Displaced δ t u := by
  have hlength : ts.length = us.length := by simpa using h.length
  constructor
  · have hexchange : Abreast δ (ts ++ []) (us ++ []) :=
      h.exchange hlength (fun _ => .nil) fun _ _ _ _ => nofun
    simpa using hexchange
  · cases h.of_append hlength with
    | cons htu => exact htu

/-- A sign joins no arrow. -/
lemma joinsAlike_of_sign {first second : Token} (h : first.kind.isNumber = false)
    (h' : second.kind.isNumber = false) : JoinsAlike t u (first :: ts) (second :: us) := by
  rintro - _ ⟨⟩ _ ⟨⟩
  simp only [joinsArrow, h, h', Bool.false_and]

/-- The halves of an arrow are displaced with it. -/
lemma Displaced.halves_arrow (h : Displaced δ t u) (harrow : t.kind = .symbol .leftArrow) :
    Displaced δ (lessAt t.span.firstByte) (lessAt u.span.firstByte)
      ∧ Displaced δ (minusAt t.span.afterFirstByte) (minusAt u.span.afterFirstByte) := by
  have hlt : 1 < t.pieces := by rw [pieces_arrow harrow]; decide
  exact ⟨.of_single (h.firstByte hlt) rfl (fun _ => rfl) rfl (by simp [lessAt]),
    .of_single (h.afterFirstByte hlt) rfl (fun _ => rfl) rfl (by simp [minusAt])⟩

/-- The arrow at the head of both lists is split alike.

**Proof sketch.** If the arrow joins a number, it does so on both sides, and the joined numbers
correspond; otherwise the halves do.  Neither half is an arrow, so that nothing in front joins them.
-/
lemma Abreast.split_arrow (h : Abreast δ (t :: ts) (u :: us))
    (harrow : t.kind = .symbol .leftArrow) :
    ∃ ts' us', splitArrow? (t :: ts) = some ts' ∧ splitArrow? (u :: us) = some us'
      ∧ Abreast δ ts' us' ∧ ∀ p q, JoinsAlike p q ts' us' := by
  cases h with
  | cons htu hjoins hrest =>
    obtain ⟨hless, hminus⟩ := htu.halves_arrow harrow
    have harrow' : u.kind = .symbol .leftArrow := htu.kind ▸ harrow
    have hno {p q : Token} {ps qs : List Token} :
        JoinsAlike p q (lessAt t.span.firstByte :: ps) (lessAt u.span.firstByte :: qs) :=
      joinsAlike_of_sign rfl rfl
    have hnone {p q : Token} {ps qs : List Token} (hp : p.kind ≠ .symbol .leftArrow) :
        JoinsAlike p q ps qs := fun hkind => absurd hkind hp
    cases hrest with
    | nil =>
      refine ⟨[lessAt t.span.firstByte, minusAt t.span.afterFirstByte],
        [lessAt u.span.firstByte, minusAt u.span.afterFirstByte], by simp [splitArrow?, harrow],
        by simp [splitArrow?, harrow'], ?_, fun _ _ => hno⟩
      exact .cons hless (hnone (by simp [lessAt])) (.cons hminus (hnone (by simp [minusAt])) .nil)
    | @cons t' u' ts us h' hlink hrest =>
      have heq := hjoins harrow t' rfl u' rfl
      rcases hj : joinsArrow t t' with _ | _
      · refine ⟨lessAt t.span.firstByte :: minusAt t.span.afterFirstByte :: t' :: ts,
          lessAt u.span.firstByte :: minusAt u.span.afterFirstByte :: u' :: us,
          by simp [splitArrow?, harrow, hj], by simp [splitArrow?, harrow', ← heq, hj], ?_,
          fun _ _ => hno⟩
        exact .cons hless (hnone (by simp [lessAt]))
          (.cons hminus (hnone (by simp [minusAt])) (.cons h' hlink hrest))
      · refine ⟨lessAt t.span.firstByte :: joined t t' :: ts,
          lessAt u.span.firstByte :: joined u u' :: us,
          by simp [splitArrow?, harrow, hj], by simp [splitArrow?, harrow', ← heq, hj], ?_,
          fun _ _ => hno⟩
        refine .cons hless (hnone (by simp [lessAt])) (.cons (htu.joined h' harrow hj (heq ▸ hj)) ?_
          hrest)
        refine hnone fun hkind => ?_
        change t'.kind = _ at hkind
        simp [joinsArrow, hkind, Kind.isNumber] at hj

/-- The split of an arrow at the head, as a function on lists that leaves all others alone. -/
def splitArrowHead (ts : List Token) : List Token := (splitArrow? ts).getD ts

/-- The arrow at the head, if one stands there, is split alike, and an arrow in front joins what it
joined.

**Proof sketch.** By cases on whether the first token is the arrow.  If it is, `Abreast.split_arrow`
gives the rows with the two parts in its place, whose first one joins what the arrow joined.  If it
is not, neither side changes. -/
theorem Abreast.splitArrowHead (h : Abreast δ ts us) :
    Abreast δ (splitArrowHead ts) (splitArrowHead us)
      ∧ ∀ p q, JoinsAlike p q ts us → JoinsAlike p q (splitArrowHead ts) (splitArrowHead us) := by
  rcases ts with _ | ⟨t, ts⟩
  · cases h
    exact ⟨.nil, fun _ _ hjoins => hjoins⟩
  obtain ⟨u, us, rfl⟩ := List.exists_cons_of_length_pos (l := us) (by
    rw [← h.length]
    exact Nat.succ_pos _)
  by_cases harrow : t.kind = .symbol .leftArrow
  · obtain ⟨ts', us', hts, hus, habreast, hjoins⟩ := h.split_arrow harrow
    rw [Token.splitArrowHead, Token.splitArrowHead, hts, hus]
    exact ⟨habreast, fun p q _ => hjoins p q⟩
  · have harrow' : u.kind ≠ .symbol .leftArrow := by
      cases h with
      | cons htu => exact htu.kind ▸ harrow
    have hstay {v : Token} {vs : List Token} (hv : v.kind ≠ .symbol .leftArrow) :
        Token.splitArrowHead (v :: vs) = v :: vs := by
      simp [Token.splitArrowHead, splitArrow?, hv]
    rw [hstay harrow, hstay harrow']
    exact ⟨h, fun _ _ hjoins => hjoins⟩

/-- The token at the head, if it can be split, is split alike, and an arrow in front joins what it
joined.

**Proof sketch.** A signed number is split into its sign and what is left of it, on both sides; any
other token is left to `splitArrowHead`. -/
theorem Abreast.splitHead (h : Abreast δ ts us) :
    Abreast δ (splitHead ts) (splitHead us)
      ∧ ∀ p q, JoinsAlike p q ts us → JoinsAlike p q (splitHead ts) (splitHead us) := by
  rcases ts with _ | ⟨t, ts⟩
  · cases h
    exact ⟨.nil, fun _ _ hjoins => hjoins⟩
  obtain ⟨u, us, rfl⟩ := List.exists_cons_of_length_pos (l := us) (by
    rw [← h.length]
    exact Nat.succ_pos _)
  by_cases hsigned : t.isSignedNumber = true
  · cases h with
    | cons htu hjoins hrest =>
      obtain ⟨-, hlt⟩ := pieces_withoutSign hsigned
      have hsplit {v : Token} {vs : List Token} (hv : v.isSignedNumber = true) :
          Token.splitHead (v :: vs) = minusAt v.span.firstByte :: v.withoutSign :: vs := by
        simp [Token.splitHead, splitSign?, hv]
      rw [hsplit hsigned, hsplit (htu.isSignedNumber ▸ hsigned)]
      refine ⟨.cons ?_ (fun hkind => by cases hkind) (.cons (htu.withoutSign hsigned) ?_ hrest),
        fun _ _ _ => joinsAlike_of_sign rfl rfl⟩
      · exact .of_single (htu.firstByte hlt) rfl (fun _ => rfl) rfl (by simp [minusAt])
      · intro hkind
        change t.kind = _ at hkind
        simp [Token.isSignedNumber, hkind, Kind.isNumber] at hsigned
  · have hsigned' : ¬ u.isSignedNumber = true := by
      cases h with
      | cons htu => exact htu.isSignedNumber ▸ hsigned
    have hstay {v : Token} {vs : List Token} (hv : ¬ v.isSignedNumber = true) :
        Token.splitHead (v :: vs) = Token.splitArrowHead (v :: vs) := by
      simp [Token.splitHead, splitSign?, hv, Token.splitArrowHead]
    rw [hstay hsigned, hstay hsigned']
    exact h.splitArrowHead

end Token

/-! ## Cursors on both sides -/

/-- The cursors stand at the same token of two lists that are abreast.  Before the list of the right
side, `older` tokens were read, in which case a token of the list itself was read as well. -/
structure Cursor.SideBySide (δ : Displacement) (older : List Token) (c d : Cursor) : Prop where
  abreast : ∃ near, d.past = near ++ older ∧ c.past.length = near.length
    ∧ Abreast δ (c.past.reverse ++ c.ahead) (near.reverse ++ d.ahead)
  closing : Displaced δ c.closing d.closing
  begun : older = [] ∨ c.past ≠ []

namespace Cursor

variable {δ : Displacement} {older : List Token} {c d c₀ d₀ : Cursor}

/-- What is ahead of both cursors is abreast. -/
lemma SideBySide.ahead (h : SideBySide δ older c d) : Abreast δ c.ahead d.ahead := by
  obtain ⟨near, -, hlength, habreast⟩ := h.abreast
  exact habreast.of_append (by simpa using hlength)

/-- Both cursors look at the same token. -/
lemma SideBySide.peek (h : SideBySide δ older c d) : Displaced δ c.peek d.peek := by
  have hahead := h.ahead
  rw [Cursor.peek, Cursor.peek]
  rcases hc : c.ahead with _ | ⟨t, ts⟩ <;> rcases hd : d.ahead with _ | ⟨u, us⟩ <;>
    rw [hc, hd] at hahead <;> cases hahead
  · exact h.closing
  · assumption

/-- The cursor in the longer buffer has passed the older tokens too. -/
lemma SideBySide.position (h : SideBySide δ older c d) :
    d.position = c.position + older.length := by
  obtain ⟨near, hpast, hlength, -⟩ := h.abreast
  rw [Cursor.position, Cursor.position, hpast, List.length_append, hlength]

/-- Both cursors read the same token. -/
lemma SideBySide.advance (h : SideBySide δ older c d) :
    SideBySide δ older c.advance d.advance := by
  obtain ⟨near, hpast, hlength, habreast⟩ := h.abreast
  have hahead := h.ahead
  rcases hc : c.ahead with _ | ⟨t, ts⟩ <;> rcases hd : d.ahead with _ | ⟨u, us⟩ <;>
    rw [hc, hd] at hahead <;> cases hahead
  · simpa only [Cursor.advance, hc, hd] using h
  · refine ⟨⟨u :: near, ?_, ?_, ?_⟩, ?_, .inr ?_⟩
    · simp [Cursor.advance, hd, hpast]
    · simp [Cursor.advance, hc, hlength]
    · simpa [Cursor.advance, hc, hd] using habreast
    · simpa [Cursor.advance, hc, hd] using h.closing
    · simp [Cursor.advance, hc]

/-- Going back stays within the list of the right side.

**Proof sketch.** By cases on the tokens before the cursor.  Without one the cursor stays, unless
older tokens stand on the right side only, which `hc` excludes.  With one, the last token passes to
the rows ahead on both sides. -/
lemma SideBySide.retreat (h : SideBySide δ older c d) (hc : older = [] ∨ 1 < c.position) :
    SideBySide δ older c.retreat d.retreat := by
  obtain ⟨near, hpast, hlength, habreast⟩ := h.abreast
  rcases hcpast : c.past with _ | ⟨t, ps⟩
  · obtain rfl : near = [] := by simpa [hcpast] using hlength.symm
    rcases hc with rfl | hlt
    · simpa only [Cursor.retreat, hcpast, hpast, List.append_nil] using h
    · simp [Cursor.position, hcpast] at hlt
  · obtain ⟨u, qs, rfl⟩ := List.exists_cons_of_length_pos (l := near) (by
      rw [← hlength, hcpast]
      exact Nat.succ_pos _)
    refine ⟨⟨qs, ?_, ?_, ?_⟩, ?_, hc.imp_right fun hlt => ?_⟩
    · simp [Cursor.retreat, hpast]
    · simpa [Cursor.retreat, hcpast] using hlength
    · simpa [Cursor.retreat, hcpast, hpast] using habreast
    · simpa [Cursor.retreat, hcpast, hpast] using h.closing
    · rw [Cursor.position, hcpast, List.length_cons] at hlt
      simp only [Cursor.retreat, hcpast]
      rintro rfl
      simp at hlt

/-- One token earlier. -/
lemma position_retreat (c : Cursor) : c.retreat.position = c.position - 1 := by
  rcases hc : c.past with _ | ⟨t, ts⟩ <;> simp [Cursor.position, Cursor.retreat, hc]

/-- Both cursors go to where related cursors stood.

**Proof sketch.** Both cursors go as many tokens back, or on, as the other pair stands apart from
them.  Going back does not reach the older tokens, which the position shows. -/
lemma SideBySide.seek (h : SideBySide δ older c d) (h₀ : SideBySide δ older c₀ d₀) :
    SideBySide δ older (c.seek c₀.position) (d.seek d₀.position) := by
  have hretreat (n : Nat) : ∀ c d, SideBySide δ older c d → (older = [] ∨ n < c.position) →
      SideBySide δ older (Nat.repeat Cursor.retreat n c) (Nat.repeat Cursor.retreat n d) := by
    induction n with
    | zero => exact fun _ _ h _ => h
    | succ n ih =>
      intro c d h hn
      have hposition (n : Nat) (c : Cursor) :
          (Nat.repeat Cursor.retreat n c).position = c.position - n := by
        induction n with
        | zero => rfl
        | succ n ih => rw [Nat.repeat, position_retreat, ih, Nat.sub_sub]
      refine (ih c d h (hn.imp_right fun hn => by omega)).retreat (hn.imp_right fun hn => ?_)
      rw [hposition]
      omega
  have hadvance (n : Nat) : SideBySide δ older (Nat.repeat Cursor.advance n c)
      (Nat.repeat Cursor.advance n d) := by
    induction n with
    | zero => exact h
    | succ n ih => exact ih.advance
  have hbegun : older = [] ∨ 0 < c₀.position :=
    h₀.begun.imp_right fun hpast => List.length_pos_iff.2 hpast
  have hc := h.position
  have hd := h₀.position
  unfold Cursor.seek
  by_cases hle : c₀.position ≤ c.position
  · rw [if_pos hle, if_pos (by omega),
      show d.position - d₀.position = c.position - c₀.position by omega]
    exact hretreat _ c d h (hbegun.imp_right fun hpos => by omega)
  · rw [if_neg hle, if_neg (by omega),
      show d₀.position - d.position = c₀.position - c.position by omega]
    exact hadvance _

/-- What keeps lists abreast can be done to the tokens ahead of both cursors. -/
lemma SideBySide.exchange {f : List Token → List Token} (h : SideBySide δ older c d)
    (hf : ∀ ts us, Abreast δ ts us → Abreast δ (f ts) (f us)
      ∧ ∀ p q, JoinsAlike p q ts us → JoinsAlike p q (f ts) (f us)) :
    SideBySide δ older { c with ahead := f c.ahead } { d with ahead := f d.ahead } := by
  obtain ⟨near, hpast, hlength, habreast⟩ := h.abreast
  obtain ⟨htail, hjoins⟩ := hf _ _ h.ahead
  exact ⟨⟨near, hpast, hlength, habreast.exchange (by simpa using hlength) (fun _ => htail) hjoins⟩,
    h.closing, h.begun⟩

/-- The spans of the tokens that were read last are related.

**Proof sketch.** Without a token before the cursor the span is that of the next token, on both
sides, since there are no older ones.  With one, the tokens before the cursors are abreast, and so
are the last ones. -/
lemma SideBySide.previousSpan (h : SideBySide δ older c d) :
    δ.Spans c.previousSpan d.previousSpan := by
  obtain ⟨near, hpast, hlength, habreast⟩ := h.abreast
  rw [Cursor.previousSpan, Cursor.previousSpan]
  rcases hc : c.past with _ | ⟨t, ps⟩
  · obtain rfl : near = [] := by simpa [hc] using hlength.symm
    obtain rfl : older = [] := h.begun.resolve_right fun hne => hne hc
    rw [hpast]
    exact h.peek.span
  · obtain ⟨u, qs, rfl⟩ := List.exists_cons_of_length_pos (l := near) (by
      rw [← hlength, hc]
      exact Nat.succ_pos _)
    rw [hpast]
    have hall : Abreast δ (ps.reverse ++ t :: c.ahead) (qs.reverse ++ u :: d.ahead) := by
      simpa [hc] using habreast
    cases hall.of_append (by simpa [hc] using hlength) with
    | cons htu => exact htu.span

/-- At the first of some tokens on both sides. -/
lemma sideBySide_ofTokens {ts us : List Token} {t u : Token}
    (h : Abreast δ (ts ++ [t]) (us ++ [u])) (ht : t.kind = .eof) :
    SideBySide δ [] (ofTokens (ts ++ [t])) (ofTokens (us ++ [u])) := by
  obtain ⟨habreast, hclosing⟩ := h.of_concat
  rw [ofTokens_append ht, ofTokens_append (hclosing.kind ▸ ht)]
  exact ⟨⟨[], rfl, rfl, habreast⟩, hclosing, .inl rfl⟩

end Cursor

/-- To split the arrow at the cursor is to split it at the head of the tokens ahead. -/
lemma Parser.splitArrow_eq_splitArrowHead (c : Cursor) :
    splitArrow c = { c with ahead := splitArrowHead c.ahead } := by
  unfold splitArrow Cursor.splitArrow? splitArrowHead
  cases Token.splitArrow? c.ahead <;> rfl

/-- Inputs whose tokens are abreast are read alike. -/
def Displacement.mirror (δ : Displacement) (older : List Token) : Mirror where
  left := δ.left
  right := δ.right
  Spans := δ.Spans
  total := True
  older := older.length
  Rel := Cursor.SideBySide δ older
  Fence _ := False
  opensPart h := h.elim
  view h := h.view
  merge h h' := h.merge h'
  order h h' := h.order h'
  heads h := .inl h.peek.twin
  advance h _ := h.advance
  splitInfix {c d} h := by
    rw [c.splitInfix_eq, d.splitInfix_eq]
    exact h.exchange fun _ _ h => h.splitHead
  splitArrow {c d} h := by
    rw [Parser.splitArrow_eq_splitArrowHead, Parser.splitArrow_eq_splitArrowHead]
    exact h.exchange fun _ _ h => h.splitArrowHead
  seek _ h h₀ := h.seek h₀
  previous h := h.previousSpan
  position h := h.position
  remaining h := ⟨0, h.ahead.countPieces.symm, fun _ => rfl⟩
  length _ h := h.ahead.length

/-- The cursors at the first tokens of lists abreast that end with the end of the input. -/
lemma Token.Abreast.starts {δ : Displacement} {ts us : List Token} (h : Abreast δ ts us)
    (hend : ∀ t ∈ ts.getLast?, t.kind = .eof) (hne : ts ≠ []) :
    (δ.mirror []).Rel (.ofTokens ts) (.ofTokens us) := by
  have hlength := h.length
  rcases List.eq_nil_or_concat us with rfl | ⟨us, u, rfl⟩
  · exact absurd (List.length_eq_zero_iff.1 hlength) hne
  rcases List.eq_nil_or_concat ts with rfl | ⟨ts, t, rfl⟩
  · exact absurd rfl hne
  · rw [List.concat_eq_append] at h hend ⊢
    rw [List.concat_eq_append] at h ⊢
    exact Cursor.sideBySide_ofTokens h (hend t (by simp))

end RakeLang
