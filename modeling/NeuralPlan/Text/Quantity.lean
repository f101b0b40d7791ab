/-!
# Quantities

Byte counts and other numbers as they are shown and as they are set.

## Main definitions

* `Quantity.bytesOfMegabytes` — a budget in megabytes as a number of bytes.
* `Quantity.bytesText` — a byte count in the largest unit that it fills, as in `1.5 MiB`.
* `Quantity.separated` — a number with a comma every three digits.
-/

set_option relaxedAutoImplicit false
set_option autoImplicit false

namespace NeuralPlan.Quantity

/-- The bytes of a megabyte. -/
def bytesPerMegabyte : Float := 1048576.0

/-- A budget in megabytes as a number of bytes, without the part of a byte that is left over.
There is no budget below zero, and none beyond the greatest word. -/
def bytesOfMegabytes (megabytes : Float) : Nat :=
  if megabytes ≤ 0.0 || megabytes.isNaN then 0 else (megabytes * bytesPerMegabyte).toUInt64.toNat

/-- The quotient of two numbers rounded to the nearest number; a half goes to the even one. -/
def roundDiv (num den : Nat) : Nat :=
  let quotient := num / den
  let twice := 2 * (num % den)
  if twice < den then quotient
  else if den < twice then quotient + 1
  else quotient + quotient % 2

/-- The number with at most 53 binary digits that is nearest to `n`; a half goes to the even
one. -/
def toDoublePrecision (n : Nat) : Nat :=
  let unit := Nat.pow 2 (n.log2 - 52)
  roundDiv n unit * unit

/-- The units above the first, each 1024 times the one before. -/
def largerUnits : List String := ["MiB", "GiB", "TiB", "PiB", "EiB"]

/-- A byte count in a unit of so many bytes, with one decimal. -/
def unitText (bytes size : Nat) (unit : String) : String :=
  let tenths := roundDiv (10 * bytes) size
  s!"{tenths / 10}.{tenths % 10} " ++ unit

/-- A byte count in a unit of so many bytes, or in the largest of the units above it that it
fills. -/
def inUnit (bytes size : Nat) (unit : String) : List String → String
  | [] => unitText bytes size unit
  | larger :: units =>
    if size * 1024 ≤ bytes then inUnit bytes (size * 1024) larger units
    else unitText bytes size unit

/-- A byte count below 1024 as it is, and any other in double precision with one decimal of the
largest unit that it fills. -/
def bytesText (bytes : Nat) : String :=
  if bytes < 1024 then s!"{bytes} B"
  else inUnit (toDoublePrecision bytes) 1024 "KiB" largerUnits

/-- Digits in groups of three from the right, the digits given last to first. -/
def groups : List Char → List Char
  | a :: b :: c :: d :: rest => a :: b :: c :: ',' :: groups (d :: rest)
  | short => short

/-- A number with a comma every three digits. -/
def separated (n : Nat) : String := String.ofList (groups (toString n).toList.reverse).reverse

end NeuralPlan.Quantity
