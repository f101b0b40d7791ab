import NeuralPlan.Failure
import NeuralPlan.Random.Stream

/-!
# Drawing from a stream

## Main definitions

* `Random.Width` — how many bits are drawn at once.
* `Random.below` — a number below a bound, each with the same chance.
* `Random.choose` — an element of an array.
* `Random.Span`, `Random.between` — a number from a closed span of doubles.
-/

set_option relaxedAutoImplicit false
set_option autoImplicit false

namespace NeuralPlan.Random

/-! ## Choices -/

/-- How many bits are drawn at once. -/
inductive Width
  | word
  | pair

namespace Width

/-- The number of bits. -/
def bits : Width → Nat
  | word => 32
  | pair => 64

/-- The number of draws of this width. -/
def limit (width : Width) : Nat := 1 <<< width.bits

/-- The next bits of this width, as a number. -/
def next (s : Stream) : Width → Nat × Stream
  | word => (s.nextWord.1.toNat, s.nextWord.2)
  | pair => (s.nextPair.1.toNat, s.nextPair.2)

/-- The width that a number below `n` is drawn with: a word, if it counts `n`. -/
def ofBound (n : Nat) : Width := if n < word.limit then word else pair

end Width

/-- The greatest low half of a product that is accepted for the bound `n`: of all products of a
draw with `n`, as many lie at or below it for each of the `n` results. -/
def acceptedBelow (width : Width) (n : Nat) : Nat := n <<< (width.bits - 1 - n.log2) - 1

/-- A number below `n`: the high half of a draw times `n`.  A product whose low half is not
accepted is drawn again, up to `retries` times. -/
def below (width : Width) (n : Nat) : Nat → Stream → Nat × Stream
  | 0, s =>
    let (drawn, s) := width.next s
    (drawn * n / width.limit, s)
  | retries + 1, s =>
    let (drawn, s) := width.next s
    if drawn * n % width.limit ≤ acceptedBelow width n then (drawn * n / width.limit, s)
    else below width n retries s

/-- How often a rejected product is drawn again.  Fewer than half of the products are rejected,
so that the last retry is not reached. -/
def maxRetries : Nat := 4096

/-- An element of an array; nothing is drawn from an empty one. -/
def choose {α : Type} (choices : Array α) (s : Stream) : Option α × Stream :=
  if choices.isEmpty then (none, s)
  else
    let (index, s) := below (.ofBound choices.size) choices.size maxRetries s
    (choices[index]?, s)

/-! ## Spans -/

/-- The greatest fraction that is drawn, `1 - 2 ^ (-52)`. -/
def greatestFraction : Float := Float.ofBits 0x3feffffffffffffe

/-- A span of doubles made ready for drawing: a fraction `u` stands for `u * scale + low`. -/
structure Span where
  low : Float
  scale : Float

namespace Span

/-- The scale, lowered double by double until the greatest fraction stays at or below `high`. -/
def lowerScale (low high : Float) : Nat → Float → Float
  | 0, scale => scale
  | count + 1, scale =>
    if scale * greatestFraction + low > high then
      lowerScale low high count (Float.ofBits (scale.toBits - 1))
    else scale

/-- How often a scale is lowered at most; rounding moves it by a few doubles only. -/
def maxLowerings : Nat := 64

/-- The span from `low` to `high`, both included. -/
def closed (low high : Float) : Result Span :=
  if low ≤ high then
    let scale := (high - low) / greatestFraction
    if scale.isFinite then .ok ⟨low, lowerScale low high maxLowerings scale⟩ else stop .badSpan
  else stop .badSpan

end Span

/-- A fraction from zero up to below one, of 52 random bits. -/
def fraction (s : Stream) : Float × Stream :=
  let (bits, s) := s.nextPair
  (Float.ofBits ((bits >>> 12) ||| 0x3ff0000000000000) - 1.0, s)

/-- A number from `low` to `high`.  Nothing is drawn where there is none. -/
def between (low high : Float) (s : Stream) : Result (Float × Stream) := do
  let span ← Span.closed low high
  let (u, s) := fraction s
  return (u * span.scale + span.low, s)

end NeuralPlan.Random
