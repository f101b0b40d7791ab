/-!
# Decimal numbers

A decimal is a sign, a whole number and a power of ten.  Doubles are read from decimals by
rounding to nearest, and written as the shortest decimal that reads back.

## Main definitions

* `Decimal`, `Decimal.toFloat` — a decimal and the nearest double.
* `Decimal.read?` — a decimal in free notation.
* `Binary`, `Decimal.shortest` — the fewest digits that read back as a double.
* `Decimal.text` — positional or scientific notation, by size.
-/

set_option relaxedAutoImplicit false
set_option autoImplicit false

namespace NeuralPlan

/-- The number `± digits * 10 ^ exponent`. -/
structure Decimal where
  negative : Bool
  digits : Nat
  exponent : Int

namespace Decimal

/-- The number of decimal digits of `n`; zero has one. -/
def digitCount (n : Nat) : Nat := (toString n).length

/-- Positive infinity. -/
def infinity : Float := 1.0 / 0.0

/-- The nearest double to `digits * 10 ^ exponent`. -/
def magnitude (digits : Nat) (exponent : Int) : Float :=
  let order := exponent + digitCount digits
  if digits = 0 || order < -400 then 0.0
  else if 400 < order then infinity
  else Float.ofScientific digits (decide (exponent < 0)) exponent.natAbs

/-- The nearest double to a decimal. -/
def toFloat (d : Decimal) : Float :=
  let m := magnitude d.digits d.exponent
  if d.negative then -m else m

/-! ## Reading -/

/-- The number that decimal digits stand for. -/
def ofDigits (digits : List Char) : Nat :=
  digits.foldl (fun n c => 10 * n + (c.toNat - '0'.toNat)) 0

/-- The leading digits, and the rest. -/
def splitDigits (cs : List Char) : List Char × List Char :=
  (cs.takeWhile Char.isDigit, cs.dropWhile Char.isDigit)

/-- The decimal of a sign, the digits before and after the point, and an exponent. -/
def ofParts (negative : Bool) (whole fraction : List Char) (exponent : Int) : Decimal :=
  ⟨negative, ofDigits (whole ++ fraction), exponent - fraction.length⟩

/-- An optional sign: whether it is a minus, and the rest. -/
def splitSign : List Char → Bool × List Char
  | '-' :: cs => (true, cs)
  | '+' :: cs => (false, cs)
  | cs => (false, cs)

/-- The digits behind a decimal point, if there is one, and the rest. -/
def splitFraction : List Char → List Char × List Char
  | '.' :: cs => splitDigits cs
  | cs => ([], cs)

/-- The exponent that all of the characters are, with its mark; none is zero. -/
def readExponent? : List Char → Option Int
  | [] => some 0
  | mark :: cs =>
    if mark == 'e' || mark == 'E' then
      let (negative, cs) := splitSign cs
      let (digits, rest) := splitDigits cs
      if digits.isEmpty || !rest.isEmpty then none
      else if negative then some (-(ofDigits digits)) else some (ofDigits digits)
    else none

/-- An unsigned decimal: digits, of which there may be none on one side of the point, and an
optional exponent. -/
def readUnsigned? (negative : Bool) (cs : List Char) : Option Decimal := do
  let (whole, cs) := splitDigits cs
  let (fraction, cs) := splitFraction cs
  if whole.isEmpty && fraction.isEmpty then none
  let exponent ← readExponent? cs
  return ofParts negative whole fraction exponent

/-- The double that a text in free notation stands for: a decimal with an optional sign, or the
name of an infinity or of a NaN in letters of any case. -/
def read? (text : String) : Option Float :=
  let (negative, cs) := splitSign text.toList
  let name := String.ofList (cs.map Char.toLower)
  if name == "inf" || name == "infinity" then some (if negative then -infinity else infinity)
  else if name == "nan" then some (0.0 / 0.0)
  else (readUnsigned? negative cs).map toFloat

/-! ## The shortest decimal -/

/-- A positive double: the number `mantissa * 2 ^ exponent`, and whether the double below is only
half as far away as the one above. -/
structure Binary where
  mantissa : Nat
  exponent : Int
  narrowBelow : Bool

/-- The positive double of some bits, the sign left aside. -/
def Binary.ofBits (bits : Nat) : Binary :=
  let fraction : Nat := bits % Nat.pow 2 52
  let field : Nat := bits / Nat.pow 2 52 % Nat.pow 2 11
  if field = 0 then ⟨fraction, -1074, false⟩
  else ⟨Nat.pow 2 52 + fraction, (field : Int) - 1075, fraction == 0 && field != 1⟩

/-- A quotient of whole numbers. -/
structure Ratio where
  num : Nat
  den : Nat

/-- The ratio `n * base ^ exponent`. -/
def Ratio.scaled (n base : Nat) (exponent : Int) : Ratio :=
  if 0 ≤ exponent then ⟨n * base.pow exponent.toNat, 1⟩ else ⟨n, base.pow exponent.natAbs⟩

/-- Whether one ratio is below another. -/
def Ratio.less (a b : Ratio) : Bool := decide (a.num * b.den < b.num * a.den)

namespace Binary

/-- The value. -/
def value (b : Binary) : Ratio := .scaled b.mantissa 2 b.exponent

/-- The midpoint to the double above. -/
def upper (b : Binary) : Ratio := .scaled (2 * b.mantissa + 1) 2 (b.exponent - 1)

/-- The midpoint to the double below. -/
def lower (b : Binary) : Ratio :=
  if b.narrowBelow then .scaled (4 * b.mantissa - 1) 2 (b.exponent - 2)
  else .scaled (2 * b.mantissa - 1) 2 (b.exponent - 1)

/-- Whether a ratio is rounded to this double: it lies between the midpoints, or on one of them
and the mantissa is even. -/
def rounds (b : Binary) (r : Ratio) : Bool :=
  if b.mantissa % 2 = 0 then !(r.less b.lower) && !(b.upper.less r)
  else b.lower.less r && r.less b.upper

/-- The power of ten of the first digit. -/
def order (b : Binary) : Int :=
  let v := b.value
  if v.den ≤ v.num then (digitCount (v.num / v.den) : Int) - 1
  else -(digitCount ((v.den + v.num - 1) / v.num - 1) : Int)

/-- Of the two multiples of `10 ^ exponent` around the value, the one that is rounded to this
double, and the nearer if both are. -/
def onGrid? (b : Binary) (exponent : Int) : Option Nat :=
  let v := b.value
  let unit := Ratio.scaled 1 10 exponent
  let below := v.num * unit.den / (v.den * unit.num)
  let above := below + 1
  match b.rounds (.scaled below 10 exponent), b.rounds (.scaled above 10 exponent) with
  | true, false => some below
  | false, true => some above
  | false, false => none
  | true, true =>
    let twice := Ratio.scaled (2 * below + 1) 10 exponent
    if v.less ⟨twice.num, 2 * twice.den⟩ then some below
    else if Ratio.less ⟨twice.num, 2 * twice.den⟩ v then some above
    else some (below + below % 2)

/-- The first grid with a number that is rounded to this double, from `exponent` down. -/
def search (b : Binary) : Nat → Int → Nat × Int
  | 0, exponent => ((b.onGrid? exponent).getD 0, exponent)
  | count + 1, exponent =>
    match b.onGrid? exponent with
    | some n => (n, exponent)
    | none => search b count (exponent - 1)

end Binary

/-- The number without the zeros at its end, of which `count` are looked for. -/
def dropZeros : Nat → Nat → Int → Nat × Int
  | 0, n, exponent => (n, exponent)
  | count + 1, n, exponent =>
    if n % 10 = 0 then dropZeros count (n / 10) (exponent + 1) else (n, exponent)

/-- The shortest decimal that reads back as a positive finite double, given by its bits.
Seventeen digits are always enough. -/
def shortestOfBits (bits : Nat) : Nat × Int :=
  let b := Binary.ofBits bits
  let (n, exponent) := b.search 16 b.order
  dropZeros 17 n exponent

/-- The shortest decimal that reads back as a finite double. -/
def shortest (x : Float) : Decimal :=
  let bits := x.toBits.toNat
  let negative := decide (Nat.pow 2 63 ≤ bits)
  let unsigned := bits % Nat.pow 2 63
  if unsigned = 0 then ⟨negative, 0, 0⟩
  else
    let (digits, exponent) := shortestOfBits unsigned
    ⟨negative, digits, exponent⟩

/-! ## Writing -/

/-- A number of zeros. -/
def zeros (count : Nat) : String := String.ofList (List.replicate count '0')

/-- The digits with a point behind the first `count`. -/
def pointed (digits : String) (count : Nat) : String :=
  let cs := digits.toList
  String.ofList (cs.take count) ++ "." ++ String.ofList (cs.drop count)

/-- Digits and an exponent in positional notation from `10 ^ (-5)` up to below `10 ^ 16`, and in
scientific notation elsewhere; a whole number in positional notation ends in `.0`. -/
def unsignedText (digits : Nat) (exponent : Int) : String :=
  let ds := toString digits
  let order := exponent + ds.length
  if digits = 0 then "0.0"
  else if -5 < order && order ≤ 0 then "0." ++ zeros order.natAbs ++ ds
  else if 0 < order && order ≤ 16 then
    if 0 ≤ exponent then ds ++ zeros exponent.toNat ++ ".0" else pointed ds order.toNat
  else
    let power := toString (order - 1)
    if ds.length = 1 then ds ++ "e" ++ power else pointed ds 1 ++ "e" ++ power

/-- A decimal as text. -/
def text (d : Decimal) : String :=
  if d.negative then "-" ++ unsignedText d.digits d.exponent
  else unsignedText d.digits d.exponent

end Decimal

end NeuralPlan
