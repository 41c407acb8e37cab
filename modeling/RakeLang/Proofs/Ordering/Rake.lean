import RakeLang.Proofs.Ordering.Section

/-!
# The order of the sections of a rake

A rake has bindings, then tines, then through blocks and then one sweep.  Of any row of sections
behind a header it is told whether a rake begins with them: it does if they begin with sections in
this order, and then it consists of these, and what follows them is left unread.  Otherwise the rake
is refused at the first section that is out of place, or behind the last one.

## Main definitions

* `RakeLang.MakesRake` — the sections that make a rake.
* `RakeLang.OutOfPlace` — the ways in which the section behind some others is out of place.
* `RakeLang.Parser.Misplaces` — the judgement that a parser refuses a part.

## Main results

* `RakeLang.makesRake_or_outOfPlace` — there is no third case.
* `RakeLang.Parser.rakeDef_classifies` — the rakes that are read and the ones that are refused.
-/

set_option relaxedAutoImplicit false
set_option autoImplicit false

namespace RakeLang

open Token Spelling RakeLang.Parser

/-! ## Words of sections -/

section Words

variable {ss : List Section} {setup : List LetBinding} {tines : List TineDecl}
  {throughs : List ThroughBlock}

/-- The sections are bindings, then at least one tine and then at least one through block, with a
sweep behind them. -/
structure MakesRake (ss : List Section) (setup : List LetBinding) (tines : List TineDecl)
    (throughs : List ThroughBlock) (sweep : SweepBlock) : Prop where
  eq : ss = setup.map .setup ++ (tines.map .tine ++ (throughs.map .through ++ [.sweep sweep]))
  tines : tines ≠ []
  throughs : throughs ≠ []

/-- The sections are in order so far, and the section behind them, of the given role, is out of
place: the rake of the given name breaks a rule there.  There may be no section behind them. -/
inductive OutOfPlace (rake : String) : List Section → Option Section.Role → Misplaced → Prop
  | noTine {setup : List LetBinding} {next : Option Section.Role}
      (hsetup : next ≠ some .setup) (htine : next ≠ some .tine) :
      OutOfPlace rake (setup.map .setup) next (.noTine rake)
  | setupBehindTine {setup : List LetBinding} {tines : List TineDecl}
      {next : Option Section.Role} (htines : tines ≠ []) (hnext : next = some .setup) :
      OutOfPlace rake (setup.map .setup ++ tines.map .tine) next (.setupBehindTine rake)
  | noThrough {setup : List LetBinding} {tines : List TineDecl} {next : Option Section.Role}
      (htines : tines ≠ []) (hsetup : next ≠ some .setup) (htine : next ≠ some .tine)
      (hthrough : next ≠ some .through) :
      OutOfPlace rake (setup.map .setup ++ tines.map .tine) next (.noThrough rake)
  | tineBehindThrough {setup : List LetBinding} {tines : List TineDecl}
      {throughs : List ThroughBlock} {next : Option Section.Role} (htines : tines ≠ [])
      (hthroughs : throughs ≠ []) (hnext : next = some .tine) :
      OutOfPlace rake (setup.map .setup ++ (tines.map .tine ++ throughs.map .through)) next
        (.tineBehindThrough rake)
  | noSweep {setup : List LetBinding} {tines : List TineDecl} {throughs : List ThroughBlock}
      {next : Option Section.Role} (htines : tines ≠ []) (hthroughs : throughs ≠ [])
      (hnext : next = some .setup ∨ next = none) :
      OutOfPlace rake (setup.map .setup ++ (tines.map .tine ++ throughs.map .through)) next
        (.noSweep rake)
  | secondSweep {ss : List Section} {setup : List LetBinding} {tines : List TineDecl}
      {throughs : List ThroughBlock} {sweep : SweepBlock} {next : Option Section.Role}
      (horder : MakesRake ss setup tines throughs sweep) (hnext : next = some .sweep) :
      OutOfPlace rake ss next (.secondSweep rake)

/-- The sweep of a rake stands behind its other sections. -/
lemma MakesRake.exists_append {v : List WrittenSection} {sweep : SweepBlock}
    (h : MakesRake (v.map (·.body)) setup tines throughs sweep) :
    ∃ v' s, v = v' ++ [s] ∧ s.body = .sweep sweep
      ∧ v'.map (·.body) = setup.map .setup ++ (tines.map .tine ++ throughs.map .through) := by
  have heq : v.map (·.body) = (setup.map .setup ++ (tines.map .tine ++ throughs.map .through))
      ++ [.sweep sweep] := by
    simp only [h.eq, List.append_assoc]
  obtain ⟨v', v'', rfl, hv', hlast⟩ := List.map_eq_append_iff.1 heq
  obtain ⟨s, rfl, hs⟩ := List.map_eq_singleton_iff.1 hlast
  exact ⟨v', s, rfl, hs, hv'⟩

/-- The sections of one role at the beginning of a row, as far as they reach. -/
lemma exists_front {α : Type} (role : Section.Role) (wrap : α → Section)
    (hwrap : ∀ s : Section, s.role = role → ∃ a, wrap a = s) (ss : List Section) :
    ∃ (front : List α) (us : List Section),
      ss = front.map wrap ++ us ∧ us.head?.map Section.role ≠ some role := by
  induction ss with
  | nil => exact ⟨[], [], rfl, nofun⟩
  | cons s ss ih =>
    by_cases hs : s.role = role
    · obtain ⟨a, rfl⟩ := hwrap s hs
      obtain ⟨front, us, rfl, hus⟩ := ih
      exact ⟨a :: front, us, rfl, hus⟩
    · exact ⟨[], s :: ss, rfl, by simpa using hs⟩

/-- **A row of sections is in order or one of them is out of place.**  There is no third case.

**Proof sketch.** Take the bindings at the beginning, the tines behind them and the through blocks
behind these, each as far as they reach.  Where tines or through blocks are missing, what stands
there instead is out of place; otherwise the section behind the through blocks decides. -/
theorem makesRake_or_outOfPlace (rake : String) (ss : List Section) :
    (∃ vs us setup tines throughs sweep, ss = vs ++ us ∧ MakesRake vs setup tines throughs sweep
        ∧ us.head?.map Section.role ≠ some .sweep)
      ∨ ∃ vs us part, ss = vs ++ us ∧ OutOfPlace rake vs (us.head?.map Section.role) part := by
  obtain ⟨setup, ss₁, rfl, hsetup⟩ := exists_front .setup Section.setup
    (fun s hs => by cases s <;> first | exact ⟨_, rfl⟩ | cases hs) ss
  obtain ⟨tines, ss₂, rfl, htine⟩ := exists_front .tine Section.tine
    (fun s hs => by cases s <;> first | exact ⟨_, rfl⟩ | cases hs) ss₁
  rcases eq_or_ne tines [] with rfl | htines
  · exact .inr ⟨_, ss₂, _, rfl, .noTine hsetup htine⟩
  by_cases hback : ss₂.head?.map Section.role = some .setup
  · exact .inr ⟨_, ss₂, _, (List.append_assoc _ _ _).symm, .setupBehindTine htines hback⟩
  obtain ⟨throughs, ss₃, rfl, hthrough⟩ := exists_front .through Section.through
    (fun s hs => by cases s <;> first | exact ⟨_, rfl⟩ | cases hs) ss₂
  rcases eq_or_ne throughs [] with rfl | hthroughs
  · exact .inr ⟨_, ss₃, _, (List.append_assoc _ _ _).symm, .noThrough htines hback htine hthrough⟩
  have hfront : setup.map Section.setup ++ (tines.map .tine ++ (throughs.map .through ++ ss₃))
      = (setup.map .setup ++ (tines.map .tine ++ throughs.map .through)) ++ ss₃ := by
    simp only [List.append_assoc]
  rcases ss₃ with _ | ⟨s, ss₄⟩
  · exact .inr ⟨_, [], _, hfront, .noSweep htines hthroughs (.inr rfl)⟩
  cases s with
  | setup binding => exact .inr ⟨_, _, _, hfront, .noSweep htines hthroughs (.inl rfl)⟩
  | tine decl => exact .inr ⟨_, _, _, hfront, .tineBehindThrough htines hthroughs rfl⟩
  | through block => exact absurd rfl hthrough
  | sweep block =>
    have horder : MakesRake (setup.map .setup ++ (tines.map .tine ++ (throughs.map .through
        ++ [.sweep block]))) setup tines throughs block := ⟨rfl, htines, hthroughs⟩
    have hsweep : setup.map Section.setup ++ (tines.map .tine ++ (throughs.map .through
        ++ .sweep block :: ss₄)) = (setup.map .setup ++ (tines.map .tine ++ (throughs.map .through
        ++ [.sweep block]))) ++ ss₄ := by
      simp only [List.append_assoc, List.cons_append, List.nil_append]
    by_cases hsecond : ss₄.head?.map Section.role = some .sweep
    · exact .inr ⟨_, ss₄, _, hsweep, .secondSweep horder hsecond⟩
    · exact .inl ⟨_, ss₄, setup, tines, throughs, block, hsweep, horder, hsecond⟩

/-- The same of sections with their tokens.

**Proof sketch.** `makesRake_or_outOfPlace` splits the row of sections; a part of a mapped list
is the mapped part of the list, so the split is one of the sections with their tokens. -/
lemma exists_makesRake_or_outOfPlace (rake : String) (w : List WrittenSection) :
    (∃ v u setup tines throughs sweep, w = v ++ u
        ∧ MakesRake (v.map (·.body)) setup tines throughs sweep
        ∧ WrittenSection.firstRole u ≠ some .sweep)
      ∨ ∃ v u part, w = v ++ u
        ∧ OutOfPlace rake (v.map (·.body)) (WrittenSection.firstRole u) part := by
  have hrole (u : List WrittenSection) :
      (u.map (·.body)).head?.map Section.role = WrittenSection.firstRole u := by
    rw [List.head?_map, Option.map_map]
    rfl
  rcases makesRake_or_outOfPlace rake (w.map (·.body)) with
    ⟨_, _, setup, tines, throughs, sweep, hw, hmakes, hnext⟩ | ⟨_, _, part, hw, hout⟩
  · obtain ⟨v, u, rfl, rfl, rfl⟩ := List.map_eq_append_iff.1 hw
    exact .inl ⟨v, u, setup, tines, throughs, sweep, rfl, hmakes, hrole u ▸ hnext⟩
  · obtain ⟨v, u, rfl, rfl, rfl⟩ := List.map_eq_append_iff.1 hw
    exact .inr ⟨v, u, part, rfl, hrole u ▸ hout⟩

end Words

/-! ## Refusals -/

namespace Parser

variable {α β : Type} {p : Parser α} {f : α → Parser β} {ts us vs : List Token}
  {part : Misplaced} {P : α → Prop}

/-- Where the tokens `ts` are ahead, the parser refuses a part at the place where `us` are ahead. -/
def Misplaces (p : Parser α) (ts us : List Token) (part : Misplaced) : Prop :=
  ∀ c : Cursor, c.ahead = ts → ∃ c', p c = .error (part.fault c'.peek.span) c' ∧ c'.ahead = us

/-- The refusal of a part that is out of its place. -/
lemma misplaces_misplaced : (misplaced part : Parser α).Misplaces ts ts part :=
  fun c hc => ⟨c, rfl, hc⟩

/-- What refuses a part does so whatever would be read behind it. -/
lemma Misplaces.bind (h : p.Misplaces ts us part) : (p >>= f).Misplaces ts us part := by
  intro c hc
  obtain ⟨c', hp, hc'⟩ := h c hc
  exact ⟨c', bind_eq_error.2 (.inl hp), hc'⟩

/-- Behind what is read, a part is refused. -/
lemma Leads.bind_misplaces (hp : p.Leads {ts} {vs} P)
    (hf : ∀ a, P a → (f a).Misplaces vs us part) : (p >>= f).Misplaces ts us part := by
  intro c hc
  obtain ⟨a, c₁, hpa, ha, hc₁⟩ := hp c hc
  obtain ⟨c', hfa, hc'⟩ := hf a ha c₁ hc₁
  exact ⟨c', bind_eq_error.2 (.inr ⟨a, c₁, hpa, hfa⟩), hc'⟩

/-- Whether a token of a kind is at the cursor. -/
lemma leads_check {kind : Kind} {b : Bool} (h : (headKind ts == kind) = b) :
    (check kind).Leads {ts} {ts} (· = b) := by
  rintro c rfl
  exact ⟨b, c, by rw [← h, ← c.peek_kind]; rfl, rfl, rfl⟩

/-- The kind of the token at the cursor. -/
lemma leads_peekKind : peekKind.Leads {ts} {ts} (· = headKind ts) := by
  rintro c rfl
  exact ⟨_, c, rfl, c.peek_kind, rfl⟩

/-! ## The rows of a rake -/

open WrittenSection

variable {v w : List WrittenSection} {rest : List Token} {name : String}
  {setup : List LetBinding} {tines : List TineDecl} {throughs : List ThroughBlock}

/-- A row of sections of one role begins with that role. -/
lemma ReadsSections.firstRole_append {role : Section.Role} {wrap : α → Section} {item : Parser α}
    (hitem : ReadsSections role wrap item) {as : List α} (hv : v.map (·.body) = as.map wrap)
    (has : as ≠ []) (w : List WrittenSection) : firstRole (v ++ w) = some role := by
  obtain ⟨a, as, rfl⟩ := List.exists_cons_of_ne_nil has
  obtain ⟨s, v, rfl, hs, -⟩ := List.map_eq_cons_iff.1 hv
  rw [List.cons_append, firstRole, List.head?_cons, Option.map_some, hs, hitem.role_eq]

/-- The tines at the head of a row are read up to the first section that is no tine, which is no
binding either. -/
lemma tines_leads_row (hv : v.map (·.body) = tines.map .tine) (hrest : EndsRake rest)
    (htines : tines ≠ []) (htine : firstRole w ≠ some .tine) (hsetup : firstRole w ≠ some .setup) :
    (Parser.tines name).Leads {row (v ++ w) rest} {row w rest} (· = tines) := by
  unfold Parser.tines
  refine (readsSections_tineDecl.many hv hrest htine).bind ?_
  rintro _ rfl
  rw [if_neg (by simpa using htines)]
  refine (leads_check (beq_eq_false_iff_ne.2 (mt (headKind_row_eq_iff hrest).1 hsetup))).bind ?_
  rintro _ rfl
  exact .pure rfl

/-- Where a row does not begin with a tine, the tines of a rake are refused: there is none. -/
lemma tines_misplaces_none (hrest : EndsRake rest) (htine : firstRole w ≠ some .tine) :
    (Parser.tines name).Misplaces (row w rest) (row w rest) (.noTine name) := by
  have hnone : ([] : List WrittenSection).map (·.body) = ([] : List TineDecl).map .tine := rfl
  unfold Parser.tines
  refine (readsSections_tineDecl.many hnone hrest htine).bind_misplaces ?_
  rintro _ rfl
  exact misplaces_misplaced

/-- Tines are refused where a binding stands behind them. -/
lemma tines_misplaces_setup (hv : v.map (·.body) = tines.map .tine) (hrest : EndsRake rest)
    (htines : tines ≠ []) (hsetup : firstRole w = some .setup) :
    (Parser.tines name).Misplaces (row (v ++ w) rest) (row w rest) (.setupBehindTine name) := by
  unfold Parser.tines
  refine (readsSections_tineDecl.many hv hrest (by rw [hsetup]; simp)).bind_misplaces ?_
  rintro _ rfl
  rw [if_neg (by simpa using htines)]
  refine (leads_check (beq_iff_eq.2 ((headKind_row_eq_iff hrest).2 hsetup))).bind_misplaces ?_
  rintro _ rfl
  exact misplaces_misplaced

/-- The through blocks at the head of a row are read up to the first section that is none. -/
lemma throughs_leads_row (hv : v.map (·.body) = throughs.map .through) (hrest : EndsRake rest)
    (hthroughs : throughs ≠ []) (hthrough : firstRole w ≠ some .through) :
    (Parser.throughs name).Leads {row (v ++ w) rest} {row w rest} (· = throughs) := by
  unfold Parser.throughs
  refine (readsSections_throughBlock.many hv hrest hthrough).bind ?_
  rintro _ rfl
  rw [if_neg (by simpa using hthroughs)]
  exact .pure rfl

/-- Where a row does not begin with a through block, the through blocks of a rake are refused: there
is none. -/
lemma throughs_misplaces (hrest : EndsRake rest) (hthrough : firstRole w ≠ some .through) :
    (Parser.throughs name).Misplaces (row w rest) (row w rest) (.noThrough name) := by
  have hnone : ([] : List WrittenSection).map (·.body) = ([] : List ThroughBlock).map .through :=
    rfl
  unfold Parser.throughs
  refine (readsSections_throughBlock.many hnone hrest hthrough).bind_misplaces ?_
  rintro _ rfl
  exact misplaces_misplaced

/-- A sweep is read in front of the sections behind it. -/
lemma leads_sweep_row {s : WrittenSection} {block : SweepBlock} (hs : s.body = .sweep block)
    (hrest : EndsRake rest) :
    headKind (row (s :: w) rest) = .keyword .sweep
      ∧ sweepBlock.Leads {row (s :: w) rest} {row w rest} (· = block) := by
  constructor
  · rw [row_cons, s.headKind_append, hs]
    rfl
  · rw [← singleton_mul_row]
    refine leads_sweep hs ?_
    rintro _ rfl
    exact hrest.row w

/-- The sweep at the head of a row is read, if no other sweep stands behind it. -/
lemma sweep_leads_row {s : WrittenSection} {block : SweepBlock} (hs : s.body = .sweep block)
    (hrest : EndsRake rest) (hsweep : firstRole w ≠ some .sweep) :
    (Parser.sweep name).Leads {row (s :: w) rest} {row w rest} (· = block) := by
  obtain ⟨hopening, hblock⟩ := leads_sweep_row (w := w) hs hrest
  unfold Parser.sweep
  refine leads_peekKind.bind ?_
  rintro _ rfl
  rw [hopening]
  refine hblock.bind ?_
  rintro _ rfl
  refine (leads_check (beq_eq_false_iff_ne.2 (mt (headKind_row_eq_iff hrest).1 hsweep))).bind ?_
  rintro _ rfl
  exact .pure rfl

/-- A sweep is refused where another one stands behind it. -/
lemma sweep_misplaces_second {s : WrittenSection} {block : SweepBlock}
    (hs : s.body = .sweep block) (hrest : EndsRake rest) (hsweep : firstRole w = some .sweep) :
    (Parser.sweep name).Misplaces (row (s :: w) rest) (row w rest) (.secondSweep name) := by
  obtain ⟨hopening, hblock⟩ := leads_sweep_row (w := w) hs hrest
  unfold Parser.sweep
  refine leads_peekKind.bind_misplaces ?_
  rintro _ rfl
  rw [hopening]
  refine hblock.bind_misplaces ?_
  rintro _ rfl
  refine (leads_check (beq_iff_eq.2 ((headKind_row_eq_iff hrest).2 hsweep))).bind_misplaces ?_
  rintro _ rfl
  exact misplaces_misplaced

/-- In the place of the sweep, a tine is refused as one behind a through block. -/
lemma sweep_misplaces_tine (hrest : EndsRake rest) (htine : firstRole w = some .tine) :
    (Parser.sweep name).Misplaces (row w rest) (row w rest) (.tineBehindThrough name) := by
  unfold Parser.sweep
  refine leads_peekKind.bind_misplaces ?_
  rintro _ rfl
  rw [(headKind_row_eq_iff hrest).2 htine]
  exact misplaces_misplaced

/-- Where a row begins with neither a sweep nor a tine, the sweep of a rake is refused: there is
none. -/
lemma sweep_misplaces_none (hrest : EndsRake rest) (hsweep : firstRole w ≠ some .sweep)
    (htine : firstRole w ≠ some .tine) :
    (Parser.sweep name).Misplaces (row w rest) (row w rest) (.noSweep name) := by
  unfold Parser.sweep
  refine leads_peekKind.bind_misplaces ?_
  rintro _ rfl
  split
  · exact absurd ((headKind_row_eq_iff hrest).1 ‹_›) hsweep
  · exact absurd ((headKind_row_eq_iff hrest).1 ‹_›) htine
  · exact misplaces_misplaced

/-! ## Rakes -/

/-- Reads the sections of the rake of the given name that stand in front of its sweep. -/
def rakeFront (name : String) :
    Parser (List LetBinding × List TineDecl × List ThroughBlock) := do
  let setup ← many (whenAt (.keyword .letKw) letBinding)
  let tines ← Parser.tines name
  let throughs ← Parser.throughs name
  return (setup, tines, throughs)

/-- Reads a rake that begins at `start`: its header, its sections in front of the sweep and the
sweep. -/
def rakeFrom (start : Span) : Parser RakeDef := do
  let header ← rakeHeader
  let front ← rakeFront header.1
  let block ← Parser.sweep header.1
  let span ← spanFrom start
  return ⟨header.1, header.2.1, header.2.2, front.1, front.2.1, front.2.2, block, span⟩

/-- A rake is what its reader behind the word `rake` gives, with the span that begins there. -/
lemma rakeDef_eq_rakeFrom {c : Cursor} (hc : c.peek.kind = .keyword .rake) :
    rakeDef c = rakeFrom c.peek.span c := by
  simp only [rakeFrom, rakeHeader, rakeFront, bind_assoc, pure_bind]
  rw [bind_of_ok (expect_of_eq hc)]
  rfl

/-- A row that makes a rake but for its sweep, or goes on as one.

**Proof sketch.** The row is split into the bindings, the tines and the through blocks.  Each of the
three loops reads its own part, because the part behind it begins with a section of another role: a
tine, a through block, or what `w` begins with. -/
lemma rakeFront_leads
    (hv : v.map (·.body) = setup.map .setup ++ (tines.map .tine ++ throughs.map .through))
    (hrest : EndsRake rest) (htines : tines ≠ []) (hthroughs : throughs ≠ [])
    (hw : firstRole w ≠ some .through) :
    (rakeFront name).Leads {row (v ++ w) rest} {row w rest} (· = (setup, tines, throughs)) := by
  obtain ⟨v₁, v', rfl, hv₁, hv'⟩ := List.map_eq_append_iff.1 hv
  obtain ⟨v₂, v₃, rfl, hv₂, hv₃⟩ := List.map_eq_append_iff.1 hv'
  have hsecond := readsSections_tineDecl.firstRole_append hv₂ htines (v₃ ++ w)
  have hthird := readsSections_throughBlock.firstRole_append hv₃ hthroughs w
  rw [List.append_assoc, List.append_assoc]
  unfold rakeFront
  refine (readsSections_letBinding.many hv₁ hrest (by rw [hsecond]; simp)).bind ?_
  rintro _ rfl
  refine (tines_leads_row hv₂ hrest htines (by rw [hthird]; simp) (by rw [hthird]; simp)).bind ?_
  rintro _ rfl
  refine (throughs_leads_row hv₃ hrest hthroughs hw).bind ?_
  rintro _ rfl
  exact .pure rfl

/-- The readers of what stands in front of the sweep and of the sweep refuse what is out of place.

**Proof sketch.** By the way in which the section is out of place.  The sections in front of it are
read, role by role, and the reader of the section that would have to stand there refuses. -/
lemma sections_misplace {α : Type} {f : List LetBinding × List TineDecl × List ThroughBlock →
    SweepBlock → Parser α} {part : Misplaced} (hrest : EndsRake rest)
    (h : OutOfPlace name (v.map (·.body)) (firstRole w) part) :
    (rakeFront name >>= fun front => Parser.sweep name >>= f front).Misplaces
      (row (v ++ w) rest) (row w rest) part := by
  generalize hv : v.map (·.body) = ss, hnext : firstRole w = next at h
  subst hnext
  cases h with
  | noTine hsetup htine =>
    refine Misplaces.bind ((readsSections_letBinding.many hv hrest hsetup).bind_misplaces ?_)
    rintro _ rfl
    exact (tines_misplaces_none hrest htine).bind
  | setupBehindTine htines hnext =>
    obtain ⟨v₁, v₂, rfl, hv₁, hv₂⟩ := List.map_eq_append_iff.1 hv
    have hsecond := readsSections_tineDecl.firstRole_append hv₂ htines w
    rw [List.append_assoc]
    refine Misplaces.bind
      ((readsSections_letBinding.many hv₁ hrest (by rw [hsecond]; simp)).bind_misplaces ?_)
    rintro _ rfl
    exact (tines_misplaces_setup hv₂ hrest htines hnext).bind
  | noThrough htines hsetup htine hthrough =>
    obtain ⟨v₁, v₂, rfl, hv₁, hv₂⟩ := List.map_eq_append_iff.1 hv
    have hsecond := readsSections_tineDecl.firstRole_append hv₂ htines w
    rw [List.append_assoc]
    refine Misplaces.bind
      ((readsSections_letBinding.many hv₁ hrest (by rw [hsecond]; simp)).bind_misplaces ?_)
    rintro _ rfl
    refine (tines_leads_row hv₂ hrest htines htine hsetup).bind_misplaces ?_
    rintro _ rfl
    exact (throughs_misplaces hrest hthrough).bind
  | tineBehindThrough htines hthroughs hnext =>
    refine (rakeFront_leads hv hrest htines hthroughs (by rw [hnext]; simp)).bind_misplaces ?_
    rintro _ rfl
    exact (sweep_misplaces_tine hrest hnext).bind
  | noSweep htines hthroughs hnext =>
    have hne (role : Section.Role) (hrole : role ≠ .setup) : firstRole w ≠ some role := by
      rcases hnext with hnext | hnext <;> rw [hnext] <;> simp [hrole.symm]
    refine (rakeFront_leads hv hrest htines hthroughs (hne _ (by simp))).bind_misplaces ?_
    rintro _ rfl
    exact (sweep_misplaces_none hrest (hne _ (by simp)) (hne _ (by simp))).bind
  | secondSweep hmakes hnext =>
    subst hv
    obtain ⟨v', s, rfl, hs, hv'⟩ := hmakes.exists_append
    have hsweep : firstRole (s :: w) ≠ some .through := by simp [firstRole, hs, Section.role]
    rw [List.append_assoc]
    refine (rakeFront_leads hv' hrest hmakes.tines hmakes.throughs hsweep).bind_misplaces ?_
    rintro _ rfl
    exact (sweep_misplaces_second hs hrest hnext).bind

section Definition

variable {c : Cursor} (header : WrittenHeader)

/-- A cursor before a header and a row of sections stands at the word of the rake. -/
lemma peek_kind_of_header (hc : c.ahead = header.tokens ++ row w rest) :
    c.peek.kind = .keyword .rake := by
  rw [c.peek_kind, hc, header.headKind_append]

/-- The header at the head of a row is read. -/
lemma header_leads (hrest : EndsRake rest) :
    rakeHeader.Leads {header.tokens ++ row w rest} {row w rest}
      (· = (header.name, header.params, header.result)) := by
  have hsingleton : ({header.tokens ++ row w rest} : Language Token)
      = {header.tokens} * {row w rest} := Set.image2_singleton.symm
  rw [hsingleton]
  refine header.leads ?_
  rintro _ rfl
  exact hrest.row w

/-- Sections that make a rake are read as it.

**Proof sketch.** The header is read, the sections in front of the sweep and the sweep, each of
them in front of a section of another role or of what ends a rake. -/
lemma rakeDef_of_makesRake {sweep : SweepBlock} (hrest : EndsRake rest)
    (hc : c.ahead = header.tokens ++ row (v ++ w) rest)
    (h : MakesRake (v.map (·.body)) setup tines throughs sweep) (hw : firstRole w ≠ some .sweep) :
    ∃ c', rakeDef c = .ok ⟨header.name, header.params, header.result, setup, tines, throughs, sweep,
        c.peek.span.merge c'.previousSpan⟩ c'
      ∧ c'.ahead = row w rest ∧ c'.closing = c.closing := by
  have hrake := peek_kind_of_header header hc
  obtain ⟨v', s, rfl, hs, hv'⟩ := h.exists_append
  have hsweep : firstRole (s :: w) ≠ some .through := by simp [firstRole, hs, Section.role]
  have hrow : v' ++ [s] ++ w = v' ++ s :: w := List.append_assoc v' [s] w
  rw [hrow] at hc
  obtain ⟨_, c₁, hheader, rfl, hc₁⟩ := header_leads header hrest c hc
  obtain ⟨_, c₂, hfront, rfl, hc₂⟩ :=
    rakeFront_leads hv' hrest h.tines h.throughs hsweep c₁ hc₁
  obtain ⟨block, c₃, hblock, rfl, hc₃⟩ := sweep_leads_row hs hrest hw c₂ hc₂
  have hread : rakeDef c = .ok ⟨header.name, header.params, header.result, setup, tines, throughs,
      block, c.peek.span.merge c₃.previousSpan⟩ c₃ := by
    rw [rakeDef_eq_rakeFrom hrake]
    exact bind_eq_ok.2 ⟨_, c₁, hheader, bind_eq_ok.2 ⟨_, c₂, hfront,
      bind_eq_ok.2 ⟨_, c₃, hblock, rfl⟩⟩⟩
  obtain ⟨ts, hreads, -⟩ := (rakeDef_ensures (by simp [hrake])).ok _ c₃ hread
  exact ⟨c₃, hread, hc₃, hreads.closing⟩

/-- Where a section is out of place, or missing, the rake is refused. -/
lemma rakeDef_of_outOfPlace {part : Misplaced} (hrest : EndsRake rest)
    (hc : c.ahead = header.tokens ++ row (v ++ w) rest)
    (h : OutOfPlace header.name (v.map (·.body)) (firstRole w) part) :
    ∃ c', rakeDef c = .error (part.fault c'.peek.span) c'
      ∧ c'.ahead = row w rest ∧ c'.closing = c.closing := by
  have hrake := peek_kind_of_header header hc
  have hmisplaces : (rakeFrom c.peek.span).Misplaces (header.tokens ++ row (v ++ w) rest)
      (row w rest) part := by
    refine (header_leads header hrest).bind_misplaces ?_
    rintro _ rfl
    exact sections_misplace hrest h
  obtain ⟨c', hread, hc'⟩ := hmisplaces c hc
  rw [← rakeDef_eq_rakeFrom hrake] at hread
  obtain ⟨ts, hreads⟩ := (rakeDef_ensures (by simp [hrake])).error _ c' hread
  exact ⟨c', hread, hc', hreads.closing⟩

end Definition

open WrittenSection in
/-- **Rakes are classified by the order of their sections.**  Behind a header stands a row of
sections, and behind it the input ends or another definition opens.  A rake is read just if the
row begins with bindings, tines, through blocks and one sweep, in this order and at least one of
each but the bindings, with no other sweep behind it.  Then the rake consists of these sections, and
what follows them is left unread.  Otherwise it is refused at the first section that is out of
place, or behind the row if none is left.

**Proof sketch.** The tokens of a section are read in front of other sections as they are read
alone.  So the reader of a rake goes through the row section by section, and it finds each time the
role of the next one at its first token. -/
theorem rakeDef_classifies (header : WrittenHeader) (w : List WrittenSection) {rest : List Token}
    (hrest : EndsRake rest) {c : Cursor} (hc : c.ahead = header.tokens ++ row w rest) :
    ((∃ r c', rakeDef c = .ok r c') ↔ ∃ v u setup tines throughs sweep, w = v ++ u
        ∧ MakesRake (v.map (·.body)) setup tines throughs sweep ∧ firstRole u ≠ some .sweep)
      ∧ (∀ v u setup tines throughs sweep, w = v ++ u →
        MakesRake (v.map (·.body)) setup tines throughs sweep → firstRole u ≠ some .sweep →
        ∃ c', rakeDef c = .ok ⟨header.name, header.params, header.result, setup, tines, throughs,
            sweep, c.peek.span.merge c'.previousSpan⟩ c'
          ∧ c'.ahead = row u rest ∧ c'.closing = c.closing)
      ∧ (∀ v u part, w = v ++ u → OutOfPlace header.name (v.map (·.body)) (firstRole u) part →
        ∃ c', rakeDef c = .error (.structural part.construct part.message c'.peek.span) c'
          ∧ c'.ahead = row u rest ∧ c'.closing = c.closing)
      ∧ ((∃ r c', rakeDef c = .ok r c') ∨ ∃ v u part, w = v ++ u
        ∧ OutOfPlace header.name (v.map (·.body)) (firstRole u) part) := by
  have hmakes (v u setup tines throughs sweep) (hw : w = v ++ u)
      (h : MakesRake (v.map (·.body)) setup tines throughs sweep)
      (hu : firstRole u ≠ some .sweep) :=
    rakeDef_of_makesRake header hrest (hw ▸ hc) h hu
  have hout (v u part) (hw : w = v ++ u)
      (h : OutOfPlace header.name (v.map (·.body)) (firstRole u) part) :=
    rakeDef_of_outOfPlace header hrest (hw ▸ hc) h
  refine ⟨⟨?_, ?_⟩, hmakes, hout, ?_⟩
  · rintro ⟨r, c', hread⟩
    refine (exists_makesRake_or_outOfPlace header.name w).resolve_right ?_
    rintro ⟨v, u, part, hw, h⟩
    obtain ⟨c'', hfault, -⟩ := hout v u part hw h
    cases hread.symm.trans hfault
  · rintro ⟨v, u, setup, tines, throughs, sweep, hw, h, hu⟩
    obtain ⟨c', hread, -⟩ := hmakes v u setup tines throughs sweep hw h hu
    exact ⟨_, c', hread⟩
  · refine (exists_makesRake_or_outOfPlace header.name w).imp_left ?_
    rintro ⟨v, u, setup, tines, throughs, sweep, hw, h, hu⟩
    obtain ⟨c', hread, -⟩ := hmakes v u setup tines throughs sweep hw h hu
    exact ⟨_, c', hread⟩

/-! ### The shortest rake -/

/-- The header of a rake with one parameter. -/
def shortHeader : WrittenHeader where
  name := "f"
  params := [.rack "a" (some (.mask .origin)) .origin]
  result := .single "r" none .origin
  tokens := [⟨.keyword .rake, "rake", .origin⟩, ⟨.ident, "f", .origin⟩,
    ⟨.symbol .lParen, "(", .origin⟩, ⟨.ident, "a", .origin⟩, ⟨.symbol .colon, ":", .origin⟩,
    ⟨.ident, "mask", .origin⟩, ⟨.symbol .rParen, ")", .origin⟩,
    ⟨.symbol .arrow, "->", .origin⟩, ⟨.ident, "r", .origin⟩, ⟨.symbol .colon, ":", .origin⟩]
  alone := ⟨⟨.eof, "", .origin⟩, rfl, _, rfl, rfl⟩

/-- A tine that takes all lanes. -/
def shortTine : WrittenSection where
  body := .tine ⟨⟨"t", .origin⟩, .const true .origin, .origin⟩
  tokens := [⟨.symbol .pipe, "|", .origin⟩, ⟨.tineRef, "#t", .origin⟩,
    ⟨.symbol .define, ":=", .origin⟩, ⟨.symbol .lParen, "(", .origin⟩,
    ⟨.keyword .true, "true", .origin⟩, ⟨.symbol .rParen, ")", .origin⟩]
  alone := ⟨⟨.eof, "", .origin⟩, rfl, _, rfl, rfl⟩

/-- A through block that hands a value on. -/
def shortThrough : WrittenSection where
  body := .through ⟨.tine ⟨"t", .origin⟩, none, [], .ident "a" .origin, "b", .origin⟩
  tokens := [⟨.keyword .through, "through", .origin⟩, ⟨.tineRef, "#t", .origin⟩,
    ⟨.symbol .colon, ":", .origin⟩, ⟨.ident, "a", .origin⟩, ⟨.symbol .arrow, "->", .origin⟩,
    ⟨.ident, "b", .origin⟩]
  alone := ⟨⟨.eof, "", .origin⟩, rfl, _, rfl, rfl⟩

/-- A sweep with one arm. -/
def shortSweep : WrittenSection where
  body := .sweep ⟨[⟨.wildcard .origin, .ident "b" .origin, .origin⟩], "r", .origin⟩
  tokens := [⟨.keyword .sweep, "sweep", .origin⟩, ⟨.symbol .colon, ":", .origin⟩,
    ⟨.symbol .pipe, "|", .origin⟩, ⟨.ident, "_", .origin⟩, ⟨.symbol .arrow, "->", .origin⟩,
    ⟨.ident, "b", .origin⟩, ⟨.symbol .arrow, "->", .origin⟩, ⟨.ident, "r", .origin⟩]
  alone := ⟨⟨.eof, "", .origin⟩, rfl, _, rfl, rfl⟩

open WrittenSection in
/-- The shortest rake is read, and without its through block it is refused at its sweep.

**Proof sketch.** The three sections have a rake among them, and the two without the through
block have their sweep out of place, so that the general theorem applies to each of them. -/
theorem rakeDef_classifies_short :
    (∃ c', rakeDef ⟨[], shortHeader.tokens ++ row [shortTine, shortThrough, shortSweep] [],
          ⟨.eof, "", .origin⟩, rfl⟩
        = .ok ⟨"f", [.rack "a" (some (.mask .origin)) .origin], .single "r" none .origin, [],
          [⟨⟨"t", .origin⟩, .const true .origin, .origin⟩],
          [⟨.tine ⟨"t", .origin⟩, none, [], .ident "a" .origin, "b", .origin⟩],
          ⟨[⟨.wildcard .origin, .ident "b" .origin, .origin⟩], "r", .origin⟩,
          Span.origin.merge c'.previousSpan⟩ c' ∧ c'.ahead = [])
      ∧ ∃ c', rakeDef ⟨[], shortHeader.tokens ++ row [shortTine, shortSweep] [],
          ⟨.eof, "", .origin⟩, rfl⟩
        = .error (.structural "through block" "rake `f` requires at least one through block"
          .origin) c' ∧ c'.ahead = shortSweep.tokens := by
  constructor
  · have hmakes : MakesRake ([shortTine, shortThrough, shortSweep].map (·.body)) []
        [⟨⟨"t", .origin⟩, .const true .origin, .origin⟩]
        [⟨.tine ⟨"t", .origin⟩, none, [], .ident "a" .origin, "b", .origin⟩]
        ⟨[⟨.wildcard .origin, .ident "b" .origin, .origin⟩], "r", .origin⟩ :=
      ⟨rfl, List.cons_ne_nil _ _, List.cons_ne_nil _ _⟩
    obtain ⟨c', hread, hahead, -⟩ := (rakeDef_classifies shortHeader
      [shortTine, shortThrough, shortSweep] (.inl rfl)
      (c := ⟨[], _, ⟨.eof, "", .origin⟩, rfl⟩) rfl).2.1 _ [] _ _ _ _ (List.append_nil _).symm hmakes
        (by simp [firstRole])
    exact ⟨c', hread, hahead⟩
  · have hout : OutOfPlace "f" ([shortTine].map (·.body)) (firstRole [shortSweep])
        (.noThrough "f") :=
      @OutOfPlace.noThrough "f" [] [⟨⟨"t", .origin⟩, .const true .origin, .origin⟩] _
        (List.cons_ne_nil _ _) (by decide) (by decide) (by decide)
    obtain ⟨c', hread, hahead, -⟩ := (rakeDef_classifies shortHeader [shortTine, shortSweep]
      (.inl rfl) (c := ⟨[], _, ⟨.eof, "", .origin⟩, rfl⟩) rfl).2.2.1 [shortTine] [shortSweep] _ rfl
        hout
    have hspan : c'.peek.span = .origin := by
      rw [Cursor.peek, hahead]
      rfl
    rw [hspan] at hread
    exact ⟨c', hread, by rw [hahead]; rfl⟩

end Parser

end RakeLang
