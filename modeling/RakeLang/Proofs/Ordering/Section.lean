import RakeLang.Proofs.Completing.Leads
import RakeLang.Proofs.Mirroring.Continued

/-!
# Sections and where they end

A section of a rake has no mark at its end: it ends where the next section opens, where another
definition does, or at the end of the input.  So tokens that are read completely as a section, with
nothing behind them, are read as the same section in front of any of these.  The header of a rake
ends in the same way.

## Main definitions

* `RakeLang.Section`, `RakeLang.Section.Role` — the sections of a rake, in four roles.
* `RakeLang.WrittenSection`, `RakeLang.WrittenHeader` — sections and headers with the tokens that
  are read as them.

## Main results

* `RakeLang.Parser.leads_of_alone` — what is read from tokens alone is read from them in front of
  another part.
* `RakeLang.WrittenSection.leads_setup` and its relatives, `RakeLang.WrittenHeader.leads` — so are
  sections and headers.
* `RakeLang.Parser.ReadsSections.many` — rows of sections of one role.
-/

set_option relaxedAutoImplicit false
set_option autoImplicit false

namespace RakeLang

open Token Spelling RakeLang.Parser

/-! ## Parts in front of which a reading ends -/

/-- With these tokens another part opens, or they are none. -/
structure OpensPart (rest : List Token) : Prop where
  opens : (headKind rest).opensPart = true
  ends : headKind rest = .eof → rest = []

/-- Tokens open a part if the first of them does. -/
lemma OpensPart.cons {t : Token} {ts : List Token} (h : t.kind.opensPart = true)
    (ht : t.kind ≠ .eof) : OpensPart (t :: ts) := ⟨h, fun heof => absurd heof ht⟩

namespace Parser

variable {α : Type}

/-- **What is read from tokens alone is read from them in front of another part**, wherever they
stand.

**Proof sketch.** The tokens alone and the tokens in front of the other part mirror each other, with
equal spans. -/
theorem leads_of_alone {p q : Parser α} {mapSpans : (Span → Span) → α → α} (hagrees : Agrees p q)
    (hmap : mapSpans id = id)
    (hq : ∀ (M : Mirror) c d, ¬ M.total → M.Begins c d → Mirrors M q q c d (M.Alike mapSpans))
    {a : α} {ts : List Token} {closing : Token} {hclosing : closing.kind = .eof} {c' : Cursor}
    (hstrict : Strict p ⟨[], ts, closing, hclosing⟩)
    (hp : p ⟨[], ts, closing, hclosing⟩ = .ok a c') (hend : c'.ahead = []) {K : Language Token}
    (hK : ∀ rest ∈ K, OpensPart rest) : p.Leads ({ts} * K) K (· = a) := by
  intro d hd
  obtain ⟨us, hus, rest, hrest, hd⟩ := Language.mem_mul.1 hd
  obtain rfl : ts = us := (Set.mem_singleton_iff.1 hus).symm
  have hne : ts ≠ [] := by
    rintro rfl
    exact absurd (hstrict a c' hp) (Nat.not_lt_zero _)
  have he : Cursor.AtPart { d with ahead := rest } := by
    have hpeek := Cursor.peek_kind { d with ahead := rest }
    exact ⟨hpeek ▸ (hK rest hrest).opens, fun heof => (hK rest hrest).ends (hpeek ▸ heof)⟩
  have hcontinued : Cursor.Continued d.past { d with ahead := rest }
      ⟨[], ts, closing, hclosing⟩ d := ⟨rfl, hd.symm, rfl⟩
  have hbegins : (Mirror.continued d.past { d with ahead := rest } he).Begins
      ⟨[], ts, closing, hclosing⟩ d :=
    .inr ⟨id, Mirror.continued_same hcontinued hne, hcontinued.advance hne⟩
  obtain ⟨b, d', hb, halike, hrel⟩ := (hq _ _ _ id hbegins).ok a c' ((hagrees _ _ _).1 hp)
  refine ⟨b, d', (hagrees _ _ _).2 hb, (Mirror.eq_of_continued hmap halike).symm, ?_⟩
  rw [hrel.2.ahead, hend]
  exact hrest

end Parser

/-! ## Sections -/

/-- A section of a rake. -/
inductive Section where
  | setup (binding : LetBinding)
  | tine (decl : TineDecl)
  | through (block : ThroughBlock)
  | sweep (block : SweepBlock)
  deriving Repr

namespace Section

/-- The roles of sections. -/
inductive Role where
  | setup
  | tine
  | through
  | sweep
  deriving DecidableEq, Repr

/-- The role of a section. -/
def role : Section → Section.Role
  | setup _ => .setup
  | tine _ => .tine
  | through _ => .through
  | sweep _ => .sweep

/-- The kind of the token with which the sections of a role open. -/
def Role.opening : Section.Role → Kind
  | .setup => .keyword .letKw
  | .tine => .symbol .pipe
  | .through => .keyword .through
  | .sweep => .keyword .sweep

/-- Sections of different roles open with different tokens. -/
lemma Role.opening_injective : Function.Injective Role.opening := by
  intro role role' h
  cases role <;> cases role' <;> first | rfl | cases h

/-- The reader for its role reads the section at `c` and stops at `c'`. -/
def ReadAt : Section → Cursor → Cursor → Prop
  | setup binding, c, c' => Parser.letBinding c = .ok binding c'
  | tine decl, c, c' => Parser.tineDecl c = .ok decl c'
  | through block, c, c' => Parser.throughBlock c = .ok block c'
  | sweep block, c, c' => Parser.sweepBlock c = .ok block c'

/-- A section is read at the token that opens its role. -/
lemma ReadAt.opening {s : Section} {c c' : Cursor} (h : s.ReadAt c c') :
    c.peek.kind = s.role.opening := by
  cases s <;> exact kind_of_expect_bind h

end Section

/-- A section with the tokens that are read as it when they stand alone. -/
structure WrittenSection where
  body : Section
  tokens : List Token
  alone : ∃ closing hclosing c', body.ReadAt ⟨[], tokens, closing, hclosing⟩ c' ∧ c'.ahead = []

namespace WrittenSection

variable {s : WrittenSection} {rest : List Token}

/-- The first token of a section shows its role. -/
lemma exists_cons (s : WrittenSection) :
    ∃ t ts, s.tokens = t :: ts ∧ t.kind = s.body.role.opening := by
  obtain ⟨closing, hclosing, c', hread, -⟩ := s.alone
  have hopening := hread.opening
  rcases htokens : s.tokens with _ | ⟨t, ts⟩
  · rw [Cursor.peek_kind_of_ahead_nil htokens] at hopening
    cases hrole : s.body.role <;> rw [hrole] at hopening <;> cases hopening
  · exact ⟨t, ts, rfl, by simpa [Cursor.peek, htokens] using hopening⟩

/-- A written section begins with the token that opens its role. -/
lemma headKind_append (s : WrittenSection) (rest : List Token) :
    headKind (s.tokens ++ rest) = s.body.role.opening := by
  obtain ⟨t, ts, htokens, ht⟩ := s.exists_cons
  rw [htokens, List.cons_append, headKind_cons, ht]

/-- A written section opens a part. -/
lemma opensPart (s : WrittenSection) (rest : List Token) : OpensPart (s.tokens ++ rest) := by
  obtain ⟨t, ts, htokens, ht⟩ := s.exists_cons
  rw [htokens]
  refine .cons ?_ ?_ <;> rw [ht] <;> cases s.body.role <;> first | rfl | simp [Section.Role.opening]

variable {K : Language Token}

/-! ### Reading sections -/

/-- The tokens of a binding are read as it in front of another part. -/
theorem leads_setup {binding : LetBinding} (h : s.body = .setup binding)
    (hK : ∀ rest ∈ K, OpensPart rest) : letBinding.Leads ({s.tokens} * K) K (· = binding) := by
  obtain ⟨closing, hclosing, c', hread, hend⟩ := s.alone
  rw [h] at hread
  exact leads_of_alone (.refl letBinding) LetBinding.mapSpans_id
    (fun M c d _ hbegins => (letBinding_mirrors hbegins).imp fun _ _ hb => hb.1)
    (strict_letBinding _) hread hend hK

/-- The tokens of a tine are read as it in front of another part. -/
lemma leads_tine {decl : TineDecl} (h : s.body = .tine decl)
    (hK : ∀ rest ∈ K, OpensPart rest) : tineDecl.Leads ({s.tokens} * K) K (· = decl) := by
  obtain ⟨closing, hclosing, c', hread, hend⟩ := s.alone
  rw [h] at hread
  exact leads_of_alone tineDecl_agrees TineDecl.mapSpans_id
    (fun M c d htotal hbegins => tineDeclWith_mirrors (closed_mirrors htotal) hbegins)
    (strict_tineDecl _) hread hend hK

/-- The tokens of a through block are read as it in front of another part. -/
lemma leads_through {block : ThroughBlock} (h : s.body = .through block)
    (hK : ∀ rest ∈ K, OpensPart rest) : throughBlock.Leads ({s.tokens} * K) K (· = block) := by
  obtain ⟨closing, hclosing, c', hread, hend⟩ := s.alone
  rw [h] at hread
  exact leads_of_alone throughBlock_agrees ThroughBlock.mapSpans_id
    (fun M c d htotal hbegins => throughBlockWith_mirrors (closed_mirrors htotal) hbegins)
    (strict_throughBlock _) hread hend hK

/-- The tokens of a sweep are read as it in front of another part. -/
lemma leads_sweep {block : SweepBlock} (h : s.body = .sweep block)
    (hK : ∀ rest ∈ K, OpensPart rest) : sweepBlock.Leads ({s.tokens} * K) K (· = block) := by
  obtain ⟨closing, hclosing, c', hread, hend⟩ := s.alone
  rw [h] at hread
  exact leads_of_alone (.refl sweepBlock) SweepBlock.mapSpans_id
    (fun M c d _ hbegins => sweepBlock_mirrors hbegins) (strict_expect (by simp)).bind hread hend hK

end WrittenSection

/-! ## Headers -/

/-- Reads what stands in front of the sections of a rake. -/
def Parser.rakeHeader : Parser (String × List Parameter × ResultSpec) := do
  let _ ← expect (.keyword .rake)
  let name ← expect .ident
  let (params, result) ← signature
  return (name.lexeme, params, result)

/-- What stands in front of the sections of a rake, with the tokens that are read as it when they
stand alone. -/
structure WrittenHeader where
  name : String
  params : List Parameter
  result : ResultSpec
  tokens : List Token
  alone : ∃ closing hclosing c',
    Parser.rakeHeader ⟨[], tokens, closing, hclosing⟩ = .ok (name, params, result) c'
      ∧ c'.ahead = []

/-- A written header begins with the word `rake`. -/
lemma WrittenHeader.headKind_append (h : WrittenHeader) (rest : List Token) :
    headKind (h.tokens ++ rest) = .keyword .rake := by
  obtain ⟨closing, hclosing, c', hread, -⟩ := h.alone
  have hkind := kind_of_expect_bind hread
  rcases htokens : h.tokens with _ | ⟨t, ts⟩
  · rw [Cursor.peek_kind_of_ahead_nil htokens] at hkind
    cases hkind
  · simpa [Cursor.peek, htokens] using hkind

/-- Headers of rakes mirror each other. -/
lemma Parser.rakeHeader_mirrors {M : Mirror} {c d : Cursor} (h : M.Begins c d) :
    Mirrors M rakeHeader rakeHeader c d (M.Alike fun f s =>
      (s.1, s.2.1.map (Parameter.mapSpans f), s.2.2.mapSpans f)) := by
  unfold rakeHeader
  refine .expect_begins h (by simp) fun _ hrel => ?_
  refine .expect_bind hrel (by simp) fun hname hrel => (signature_mirrors hrel).bind ?_
  rintro ⟨params, result⟩ ⟨params', result'⟩ c₁ d₁ ⟨hparams, hresult⟩ hrel
  refine .pure hrel ?_
  simp only [Mirror.Alike, hname.lexeme, Mirror.Alike.of_forall₂ hparams]
  rw [hresult]

/-- The tokens of a header are read as it in front of another part. -/
theorem WrittenHeader.leads (h : WrittenHeader) {K : Language Token}
    (hK : ∀ rest ∈ K, OpensPart rest) :
    Parser.rakeHeader.Leads ({h.tokens} * K) K (· = (h.name, h.params, h.result)) := by
  obtain ⟨closing, hclosing, c', hread, hend⟩ := h.alone
  exact leads_of_alone (.refl Parser.rakeHeader) (by funext s; simp)
    (fun M c d _ hbegins => Parser.rakeHeader_mirrors hbegins) (strict_expect (by simp)).bind hread
    hend hK

/-! ## Rows of sections -/

/-- The tokens of a row of sections, and what stands behind them. -/
def WrittenSection.row (w : List WrittenSection) (rest : List Token) : List Token :=
  w.flatMap (·.tokens) ++ rest

/-- The role of the first section of a row. -/
def WrittenSection.firstRole (w : List WrittenSection) : Option Section.Role :=
  w.head?.map (·.body.role)

/-- A rake ends with these tokens: with the input, or where another definition opens. -/
def EndsRake (rest : List Token) : Prop := rest = [] ∨ (headKind rest).opensDefinition = true

section Row

open WrittenSection

variable {s : WrittenSection} {v w : List WrittenSection} {rest : List Token}
  {role : Section.Role}

/-- The row of a section and of others is its tokens and theirs. -/
lemma row_cons : row (s :: w) rest = s.tokens ++ row w rest := by
  rw [row, row, List.flatMap_cons, List.append_assoc]

/-- In terms of languages, a section in front of a row makes a longer row. -/
lemma singleton_mul_row :
    ({s.tokens} * {row w rest} : Language Token) = {row (s :: w) rest} := by
  rw [row_cons]
  exact Set.image2_singleton

/-- What ends a rake opens a part. -/
lemma EndsRake.opensPart (h : EndsRake rest) : OpensPart rest := by
  rcases h with rfl | h
  · exact ⟨rfl, fun _ => rfl⟩
  · refine ⟨Kind.opensPart_of_opensDefinition h, fun heof => ?_⟩
    rw [heof] at h
    cases h

/-- A row of sections in front of what ends a rake opens a part. -/
lemma EndsRake.row (h : EndsRake rest) (w : List WrittenSection) : OpensPart (row w rest) := by
  rcases w with _ | ⟨s, w⟩
  · exact h.opensPart
  · rw [row_cons]
    exact s.opensPart _

/-- Behind a rake no section opens. -/
lemma EndsRake.headKind_ne (h : EndsRake rest) : headKind rest ≠ role.opening := by
  rcases h with rfl | h
  · cases role <;> simp [Section.Role.opening]
  · intro heq
    rw [heq] at h
    cases role <;> cases h

/-- The first token of a row shows the role of its first section. -/
lemma headKind_row_eq_iff (h : EndsRake rest) :
    headKind (row w rest) = role.opening ↔ firstRole w = some role := by
  rcases w with _ | ⟨s, w⟩
  · exact ⟨fun heq => absurd heq h.headKind_ne, nofun⟩
  · rw [row_cons, s.headKind_append, firstRole, List.head?_cons, Option.map_some, Option.some.injEq]
    exact ⟨fun heq => Section.Role.opening_injective heq, congrArg _⟩

end Row

namespace Parser

open WrittenSection

/-- `item` reads the sections of a role, which are made from what it answers. -/
structure ReadsSections {α : Type} (role : Section.Role) (wrap : α → Section)
    (item : Parser α) : Prop where
  injective : Function.Injective wrap
  role_eq : ∀ a, (wrap a).role = role
  strict : ∀ c, Strict item c
  leads : ∀ {s : WrittenSection} {a : α} {K : Language Token}, s.body = wrap a →
    (∀ rest ∈ K, OpensPart rest) → item.Leads ({s.tokens} * K) K (· = a)

/-- The reader of bindings reads the sections of a setup. -/
lemma readsSections_letBinding : ReadsSections .setup .setup letBinding where
  injective _ _ h := Section.setup.inj h
  role_eq _ := rfl
  strict := strict_letBinding
  leads := leads_setup

/-- The reader of tines reads the sections that are tines. -/
lemma readsSections_tineDecl : ReadsSections .tine .tine tineDecl where
  injective _ _ h := Section.tine.inj h
  role_eq _ := rfl
  strict := strict_tineDecl
  leads := leads_tine

/-- The reader of through blocks reads the sections that are through blocks. -/
lemma readsSections_throughBlock : ReadsSections .through .through throughBlock where
  injective _ _ h := Section.through.inj h
  role_eq _ := rfl
  strict := strict_throughBlock
  leads := leads_through

/-- **Sections of one role are read up to the first section of another role.**

**Proof sketch.** A row is a product of languages with one factor for each section, and a repetition
leads through such a product if each round leads through its factor and stops behind the last one.
A round stops there since the next token opens another role. -/
theorem ReadsSections.many {α : Type} {role : Section.Role} {wrap : α → Section} {item : Parser α}
    [Lowers item] (hitem : ReadsSections role wrap item) {v w : List WrittenSection} {as : List α}
    {rest : List Token} (hv : v.map (·.body) = as.map wrap) (hrest : EndsRake rest)
    (hw : firstRole w ≠ some role) :
    (many (whenAt role.opening item)).Leads {row (v ++ w) rest} {row w rest} (· = as) := by
  have hrow : v.foldr (fun s M => {s.tokens} * M) {row w rest}
      = ({row (v ++ w) rest} : Language Token) := by
    clear hv
    induction v with
    | nil => rfl
    | cons s v ih =>
      rw [List.foldr_cons, ih, singleton_mul_row, List.cons_append]
  have hbegins (s : WrittenSection) (hs : s ∈ v) (M : Language Token) :
      Begins (· = role.opening) ({s.tokens} * M) := by
    obtain ⟨a, -, ha⟩ := List.mem_map.1 (hv ▸ List.mem_map_of_mem hs)
    intro ts hts
    obtain ⟨us, hus, more, -, rfl⟩ := Language.mem_mul.1 hts
    rw [Set.mem_singleton_iff.1 hus, s.headKind_append, ← ha, hitem.role_eq]
  have hmany : (Parser.many (whenAt role.opening item)).Leads
      (v.foldr (fun s M => {s.tokens} * M) {row w rest}) {row w rest}
      (List.Forall₂ (fun a s => wrap a = s.body) · v) := by
    refine .many_whenAt (F := fun M => ∀ ts ∈ M, OpensPart ts) hitem.strict
      (by cases role <;> simp [Section.Role.opening]) (fun s hs M hM => ?_) hbegins ?_ ?_ ?_
    · obtain ⟨a, -, ha⟩ := List.mem_map.1 (hv ▸ List.mem_map_of_mem hs)
      exact (hitem.leads ha.symm hM).imp fun _ hb => hb ▸ ha
    · intro s _ M _ ts hts
      obtain ⟨us, hus, more, -, rfl⟩ := Language.mem_mul.1 hts
      rw [Set.mem_singleton_iff.1 hus]
      exact s.opensPart more
    · rintro _ rfl
      exact hrest.row w
    · rintro _ rfl
      exact mt (headKind_row_eq_iff hrest).1 hw
  rw [hrow] at hmany
  refine hmany.imp fun bs hbs => hitem.injective.list_map ?_
  have hall : List.Forall₂ Eq (bs.map wrap) (v.map (·.body)) :=
    List.forall₂_map_left_iff.2 (List.forall₂_map_right_iff.2 hbs)
  rw [List.forall₂_eq_eq_eq] at hall
  exact hall.trans hv

end Parser

end RakeLang
