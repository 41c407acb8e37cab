import RakeLang.Numeral.Basic

/-!
# Shortest decimal digits

The text of a float: the fewest decimal digits that are read back as the same float, and of
these the nearest ones.  All arithmetic is exact, on natural numbers and on integers.

A finite float is `m * 2 ^ q`.  The reals that are rounded to it form an interval, from half way
to the float below to half way to the float above, with both ends if `m` is even.  For one digit,
two digits and so on the two decimal fractions around the float are compared with the ends; the
first number of digits for which one of them lies in the interval wins.

## Main definitions

* `RakeLang.Numeral.Binary` — a float as `m * 2 ^ q`.
* `RakeLang.Numeral.Binary.readsBack` — does a decimal fraction lie in the interval of a float?
* `RakeLang.Numeral.Binary.shortest` — the digits.
* `RakeLang.Numeral.floatText` — the text of a float.
-/

set_option relaxedAutoImplicit false
set_option autoImplicit false

namespace RakeLang.Numeral

/-- A float that is finite and not negative, `mantissa * 2 ^ exponent`. -/
structure Binary where
  mantissa : Nat
  exponent : Int
  /-- Is the gap to the float below half of the gap to the float above? -/
  narrowBelow : Bool
  deriving DecidableEq, Repr

namespace Binary

/-- The magnitude of a finite float, from its bits. -/
def ofBits (bits : UInt64) : Binary :=
  let e := ((bits >>> 52) &&& 0x7FF).toNat
  let f := (bits &&& 0xFFFFFFFFFFFFF).toNat
  if e = 0 then ⟨f, -1074, false⟩
  else ⟨Nat.pow 2 52 + f, (e : Int) - 1075, f == 0 && decide (1 < e)⟩

/-- The comparison of `a * 10 ^ i` with `n * 2 ^ j`. -/
def compareScaled (a : Nat) (i : Int) (n : Nat) (j : Int) : Ordering :=
  compare (a * Nat.pow 10 i.toNat * Nat.pow 2 (-j).toNat)
    (n * Nat.pow 2 j.toNat * Nat.pow 10 (-i).toNat)

/-- Is `digits * 10 ^ exponent` one of the reals that are rounded to `x`? -/
def readsBack (x : Binary) (digits : Nat) (exponent : Int) : Bool :=
  let low := if x.narrowBelow then 4 * x.mantissa - 1 else 4 * x.mantissa - 2
  let high := 4 * x.mantissa + 2
  let closed := x.mantissa % 2 == 0
  let fromLow := compareScaled digits exponent low (x.exponent - 2)
  let toHigh := compareScaled digits exponent high (x.exponent - 2)
  (fromLow == .gt || closed && fromLow == .eq) && (toHigh == .lt || closed && toHigh == .eq)

/-- The least `k` with `x < 10 ^ k`, for an `x` that is not zero.  The binary logarithm gives it
up to a step or two. -/
def scale (x : Binary) : Int :=
  let guess := ((x.mantissa.log2 : Int) + x.exponent) * 1233 / 4096 - 1
  let above (k : Nat) : Bool := compareScaled 1 (guess + k) x.mantissa x.exponent == .gt
  guess + (((List.range 5).find? above).getD 5 : Nat)

/-- The decimal fraction on the grid of `10 ^ grid` that is nearest to `x` among the two around
`x` that are read back as `x`; of two that are equally near, the larger one. -/
def onGrid? (x : Binary) (grid : Int) : Option Nat :=
  let numerator := x.mantissa * Nat.pow 2 x.exponent.toNat * Nat.pow 10 (-grid).toNat
  let denominator := Nat.pow 2 (-x.exponent).toNat * Nat.pow 10 grid.toNat
  let below := numerator / denominator
  let nearerBelow := decide (2 * numerator < (2 * below + 1) * denominator)
  match x.readsBack below grid, x.readsBack (below + 1) grid with
  | true, true => some (if nearerBelow then below else below + 1)
  | true, false => some below
  | false, true => some (below + 1)
  | false, false => none

/-- The fewest digits that are read back as `x`, with the power of ten that they count; where
seventeen do not suffice, all digits of `x`. -/
def shortest (x : Binary) : Nat × Int :=
  let scale := x.scale
  let attempt (count : Nat) : Option (Nat × Int) :=
    let grid := scale - (count + 1 : Nat)
    (x.onGrid? grid).map fun digits => (digits, grid)
  ((List.range 17).findSome? attempt).getD
    (x.mantissa * Nat.pow 2 x.exponent.toNat * Nat.pow 5 (-x.exponent).toNat, min x.exponent 0)

end Binary

/-- A number without the zeros at its end, and the power of ten that it counts. -/
def stripZeros : Nat → Nat × Int → Nat × Int
  | 0, d => d
  | n + 1, (digits, exponent) =>
    if digits % 10 = 0 then stripZeros n (digits / 10, exponent + 1) else (digits, exponent)

/-- The text of digits that count a power of ten: with a decimal point from `10 ^ -4` up to
`10 ^ 16`, and at least one digit on both sides of it; otherwise with an exponent behind the
first digit and a fraction if there are more digits. -/
def layOut (digits : Nat) (exponent : Int) : String :=
  let ds := Nat.toDigits 10 digits
  let point := exponent + ds.length
  let zeros (n : Int) := List.replicate n.toNat '0'
  if -4 < point ∧ point ≤ 16 then
    if point ≤ 0 then String.ofList ('0' :: '.' :: (zeros (-point) ++ ds))
    else if exponent < 0 then
      String.ofList (ds.take point.toNat ++ '.' :: ds.drop point.toNat)
    else String.ofList (ds ++ zeros exponent ++ ['.', '0'])
  else
    let mantissa := match ds with
      | d :: e :: es => d :: '.' :: e :: es
      | short => short
    String.ofList mantissa ++ "e" ++ toString (point - 1)

/-- The text of a float. -/
def floatText (x : Float) : String :=
  let bits := x.toBits
  let sign := if bits >>> 63 = 1 then "-" else ""
  let magnitude := Binary.ofBits bits
  if x.isNaN then "NaN"
  else if x.isInf then sign ++ "inf"
  else if magnitude.mantissa = 0 then sign ++ "0.0"
  else
    let (digits, exponent) := stripZeros 400 magnitude.shortest
    sign ++ layOut digits exponent

end RakeLang.Numeral
