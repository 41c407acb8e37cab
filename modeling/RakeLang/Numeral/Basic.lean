/-!
# Numbers

The values of the number literals of the language.  Integers are those of 64 bits with a sign,
floats those of binary64; an integer that does not fit has no value, a float always has one.

## Main definitions

* `RakeLang.Numeral.readInt?` — the value of an integer numeral.
* `RakeLang.Numeral.readFloat?` — the value of a numeral with a fraction and an exponent.
* `RakeLang.Number` — the value of a number literal.
-/

set_option relaxedAutoImplicit false
set_option autoImplicit false

namespace RakeLang

namespace Numeral

/-! ## Integers -/

/-- The smallest integer of 64 bits. -/
def smallest : Int := -9223372036854775808

/-- The largest integer of 64 bits. -/
def largest : Int := 9223372036854775807

/-- Is this an integer of 64 bits? -/
def fits (v : Int) : Bool := decide (smallest ≤ v) && decide (v ≤ largest)

/-- A numeral as its sign, true for a minus sign, and the characters behind the sign. -/
def unsigned : List Char → Bool × List Char
  | [] => (false, [])
  | c :: cs => if c = '-' then (true, cs) else if c = '+' then (false, cs) else (false, c :: cs)

/-- The value of a run of digits; at least one is needed. -/
def readNat? (cs : List Char) : Option Nat :=
  if cs.isEmpty || !cs.all Char.isDigit then none else some (Nat.ofDigitChars 10 cs 0)

/-- A natural number with a sign. -/
def withSign (negative : Bool) (n : Nat) : Int := if negative then -(n : Int) else n

/-- The value of an integer numeral: a sign or none, and digits.  A value beyond 64 bits is
refused. -/
def readInt? (text : String) : Option Int :=
  let (negative, digits) := unsigned text.toList
  (readNat? digits).bind fun n =>
    let v := withSign negative n
    if fits v then some v else none

/-! ## Decimal fractions -/

/-- A decimal fraction, `digits * 10 ^ exponent` with a sign. -/
structure Decimal where
  negative : Bool
  digits : Nat
  exponent : Int
  deriving DecidableEq, Repr

/-- The value of an exponent: nothing at all, or a letter, a sign or none, and digits. -/
def readExponent? : List Char → Option Int
  | [] => some 0
  | c :: cs =>
    if c = 'e' ∨ c = 'E' then
      let (negative, digits) := unsigned cs
      (readNat? digits).map (withSign negative)
    else none

/-- The digits behind the decimal point at the head of a text, if there is one, and the text
behind them. -/
def readFraction : List Char → List Char × List Char
  | '.' :: cs => (cs.takeWhile Char.isDigit, cs.dropWhile Char.isDigit)
  | cs => ([], cs)

/-- The value of a decimal numeral: a sign or none, digits with a point before, among or behind
them, or without one, and an exponent or none. -/
def readDecimal? (text : String) : Option Decimal :=
  let (negative, cs) := unsigned text.toList
  let whole := cs.takeWhile Char.isDigit
  let (fraction, rest) := readFraction (cs.dropWhile Char.isDigit)
  if whole.isEmpty && fraction.isEmpty then none
  else (readExponent? rest).map fun exponent =>
    ⟨negative, Nat.ofDigitChars 10 (whole ++ fraction) 0, exponent - fraction.length⟩

/-- The float nearest to a decimal fraction. -/
def Decimal.toFloat (d : Decimal) : Float :=
  let magnitude := Float.ofScientific d.digits (decide (d.exponent < 0)) d.exponent.natAbs
  if d.negative then -magnitude else magnitude

/-- The value of a float numeral. -/
def readFloat? (text : String) : Option Float := (readDecimal? text).map Decimal.toFloat

end Numeral

/-! ## Number literals -/

/-- The value of a number literal. -/
inductive Number where
  | int (value : Int)
  | float (value : Float)
  deriving Repr

namespace Number

/-- The number with the opposite sign; an integer whose opposite needs more than 64 bits has
none. -/
def negate? : Number → Option Number
  | int v => if Numeral.fits (-v) then some (int (-v)) else none
  | float v => some (float (-v))

/-- The integer in a message; only integers are ever refused. -/
def render : Number → String
  | int v => toString v
  | float _ => ""

end Number

end RakeLang
