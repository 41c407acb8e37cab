import Mathlib.Computability.Language
import Mathlib.Order.CompletePartialOrder
import RakeLang.Expression.Operator
import RakeLang.Scalar.Basic
import RakeLang.Token.Basic

/-!
# The spelling of tokens and of their lists

A syntax tree is spelled by lists of tokens.  Its *spelling* is the language of these lists: a
token is told by its kind, and by its text where the tree holds the text, so that the only
freedom is in the two spellings of an operator of logic, in the digits of a number and in the
sign of a scalar literal.  This file has the languages of single tokens, of lists with commas,
and of numbers and scalar literals.

## Main definitions

* `RakeLang.Spelling.token` — one token of which something holds; `RakeLang.Spelling.sign`,
  `RakeLang.Spelling.keyword`, `RakeLang.Spelling.word` are its instances.
* `RakeLang.Spelling.headKind` — the kind of the first token, or the end of the input;
  `RakeLang.Spelling.notBeginning` — the lists that do not begin with some kinds.
* `RakeLang.Spelling.separated` — languages one after the other, with commas between them.
* `RakeLang.Token.number?` — the number that a token spells.
* `RakeLang.ScalarLiteral.spelling` — the spelling of a scalar literal.

## Main results

* `RakeLang.Spelling.mem_token_mul`, `RakeLang.Spelling.cons_mem_token_mul` — how a language
  that begins with one token is taken apart and put together.
* `RakeLang.Spelling.prod_cons_mem`, `RakeLang.Spelling.separated_cons_mem` — how lists are put
  together.
-/

set_option relaxedAutoImplicit false
set_option autoImplicit false

namespace RakeLang

namespace Spelling

/-! ## Single tokens -/

/-- One token of which `P` holds. -/
def token (P : Token → Prop) : Language Token := {ts : List Token | ∃ t, P t ∧ ts = [t]}

/-- The token of a symbol. -/
def sign (s : Symbol) : Language Token := token fun t => t.kind = .symbol s

/-- The token of a keyword. -/
def keyword (k : Keyword) : Language Token := token fun t => t.kind = .keyword k

/-- A token with the given kind and text. -/
def word (k : Kind) (text : String) : Language Token :=
  token fun t => t.kind = k ∧ t.lexeme = text

section Token

variable {P : Token → Prop} {L M : Language Token} {t : Token} {ts us : List Token}

/-- The lists of one token of which something holds. -/
lemma mem_token : ts ∈ token P ↔ ∃ t, P t ∧ ts = [t] := Iff.rfl

/-- A single token of which something holds. -/
@[simp] lemma singleton_mem_token : [t] ∈ token P ↔ P t := by
  simp [mem_token]

/-- A list of a language that begins with one token is that token and the rest. -/
theorem mem_token_mul : ts ∈ token P * L ↔ ∃ t us, P t ∧ us ∈ L ∧ ts = t :: us := by
  rw [Language.mem_mul]
  constructor
  · rintro ⟨_, ⟨t, ht, rfl⟩, us, hus, rfl⟩
    exact ⟨t, us, ht, hus, rfl⟩
  · rintro ⟨t, us, ht, hus, rfl⟩
    exact ⟨[t], ⟨t, ht, rfl⟩, us, hus, rfl⟩

/-- A token of which something holds, and what follows it. -/
@[simp] theorem cons_mem_token_mul : t :: ts ∈ token P * L ↔ P t ∧ ts ∈ L := by
  rw [mem_token_mul]
  constructor
  · rintro ⟨t', us, ht, hus, h⟩
    obtain ⟨rfl, rfl⟩ := List.cons.inj h
    exact ⟨ht, hus⟩
  · rintro ⟨ht, hts⟩
    exact ⟨t, ts, ht, hts, rfl⟩

/-- A token is not nothing. -/
@[simp] lemma nil_notMem_token : [] ∉ token P := by
  simp [mem_token]

/-- A token with something behind it is not nothing. -/
@[simp] lemma nil_notMem_token_mul : [] ∉ token P * L := by
  simp [mem_token_mul]

/-- The first token of two parts is that of the first part, if that is not empty. -/
lemma exists_of_cons_mem_mul (hnil : [] ∉ L) (h : t :: ts ∈ L * M) :
    ∃ us vs, t :: us ∈ L ∧ vs ∈ M ∧ ts = us ++ vs := by
  obtain ⟨us, hus, vs, hvs, heq⟩ := Language.mem_mul.1 h
  rcases us with _ | ⟨u, us⟩
  · exact absurd hus hnil
  · obtain ⟨rfl, rfl⟩ := List.cons.inj heq
    exact ⟨us, vs, hus, hvs, rfl⟩

/-- The list that ends with one token is put together from the rest and that token. -/
lemma append_singleton_mem (hts : ts ∈ L) (ht : P t) : ts ++ [t] ∈ L * token P :=
  Language.append_mem_mul hts (singleton_mem_token.2 ht)

end Token

/-! ## The first token -/

/-- The kind of the first token, or the end of the input where there is none. -/
def headKind : List Token → Kind
  | [] => .eof
  | t :: _ => t.kind

/-- Where no token is, the input ends. -/
@[simp] lemma headKind_nil : headKind [] = .eof := rfl

/-- Tokens begin with the first of them. -/
@[simp] lemma headKind_cons (t : Token) (ts : List Token) : headKind (t :: ts) = t.kind := rfl

/-- A list that is not empty keeps its first token in front of others. -/
lemma headKind_append {ts us : List Token} (h : ts ≠ []) :
    headKind (ts ++ us) = headKind ts := by
  obtain ⟨t, ts, rfl⟩ := List.exists_cons_of_ne_nil h
  rfl

/-- The lists of a language that do not begin with one of the given kinds. -/
def notBeginning (kinds : List Kind) (L : Language Token) : Language Token :=
  {ts : List Token | ts ∈ L ∧ headKind ts ∉ kinds}

/-! ## Lists -/

/-- Lists of the given languages, one after the other, each but the first one behind a comma. -/
def separated : List (Language Token) → Language Token
  | [] => 1
  | L :: Ls => L * (Ls.map (sign .comma * ·)).prod

section Lists

variable {α : Type} {L : α → Language Token} {a : α} {as : List α} {ts us : List Token}

/-- A row of items begins with the first one. -/
theorem prod_cons_mem (ht : ts ∈ L a) (hu : us ∈ (as.map L).prod) :
    ts ++ us ∈ ((a :: as).map L).prod := by
  rw [List.map_cons, List.prod_cons]
  exact Language.append_mem_mul ht hu

/-- A list with commas begins with the first item; the others stand behind commas. -/
theorem separated_cons_mem (ht : ts ∈ L a)
    (hu : us ∈ (as.map fun a => sign .comma * L a).prod) :
    ts ++ us ∈ separated ((a :: as).map L) := by
  rw [List.map_cons, separated, List.map_map]
  exact Language.append_mem_mul ht hu

/-- A row of items is taken apart at the first one. -/
lemma mem_prod_cons (h : ts ∈ ((a :: as).map L).prod) :
    ∃ us ∈ L a, ∃ vs ∈ (as.map L).prod, us ++ vs = ts := by
  rwa [List.map_cons, List.prod_cons, Language.mem_mul] at h

/-- A list with commas is taken apart at the first item. -/
lemma mem_separated_cons (h : ts ∈ separated ((a :: as).map L)) :
    ∃ us ∈ L a, ∃ vs ∈ (as.map fun a => sign .comma * L a).prod, us ++ vs = ts := by
  rwa [List.map_cons, separated, List.map_map, Language.mem_mul] at h

end Lists

end Spelling

open Spelling

/-! ## Operators -/

/-- The spelling of a binary operator: `and` and `or` have a sign and a word. -/
def BinaryOp.spelling (op : BinaryOp) : Language Token := token fun t => t.kind.binaryOp? = some op

/-- The spelling of a unary operator. -/
def UnaryOp.spelling (op : UnaryOp) : Language Token := token fun t => t.kind.unaryOp? = some op

/-- The spelling of a comparison: the words `is` and `is not`, or a sign. -/
def CompareOp.spelling : CompareOp → Language Token
  | .is => keyword .is
  | .isNot => keyword .is * keyword .not
  | op => token fun t => t.kind.compareOp? = some op

/-! ## Numbers -/

/-- The number that a token spells. -/
def Token.number? (t : Token) : Option Number :=
  match t.kind with
  | .int => (Numeral.readInt? t.lexeme).map .int
  | .float => (Numeral.readFloat? t.lexeme).map .float
  | _ => none

/-- The spelling of a number. -/
def Number.spelling (n : Number) : Language Token := token fun t => t.number? = some n

/-- The spelling of the number of which `n` is the opposite. -/
def Number.oppositeSpelling (n : Number) : Language Token :=
  token fun t => ∃ m, t.number? = some m ∧ m.negate? = some n

namespace Spelling

/-- The spelling of an integer. -/
def integer (v : Int) : Language Token :=
  token fun t => t.kind = .int ∧ Numeral.readInt? t.lexeme = some v

/-- The truth values are words. -/
def truth : Bool → Language Token
  | true => keyword .true
  | false => keyword .false

end Spelling

/-! ## Scalar literals -/

/-- The spelling of the opening angle and the value behind it.  A minus sign in front of a number
can belong to the number, stand for itself, or be one token with the angle. -/
def ScalarValue.spelling : ScalarValue → Language Token
  | path root fields =>
    sign .less * (word .ident root * (fields.map fun f => sign .dot * word .ident f).prod)
  | number n =>
    sign .less * (n.spelling + sign .minus * n.oppositeSpelling)
      + sign .leftArrow * n.oppositeSpelling

/-- The spelling of a scalar literal. -/
def ScalarLiteral.spelling (l : ScalarLiteral) : Language Token :=
  l.value.spelling * sign .greater

end RakeLang
