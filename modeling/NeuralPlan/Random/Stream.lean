/-!
# Streams of random words

Random values are drawn from the key stream of the ChaCha cipher with eight rounds.  A stream is
given by its key; its words come in blocks of sixteen, numbered from zero.

## Main definitions

* `Stream.block` — the sixteen words of a block.
* `Stream.ofSeed` — the stream of a seed, whose key is drawn from a permuted congruential
  generator.
* `Stream.nextWord`, `Stream.nextPair` — the next 32 and the next 64 bits, low half first.
-/

set_option relaxedAutoImplicit false
set_option autoImplicit false

namespace NeuralPlan.Random

/-- The sixteen words of a block. -/
abbrev Block := Vector UInt32 16

/-- The bits of `x` turned by `n` places towards the high end, for `0 < n < 32`. -/
def rotateLeft (x n : UInt32) : UInt32 := (x <<< n) ||| (x >>> (32 - n))

/-- The bits of `x` turned by `n % 32` places towards the low end. -/
def rotateRight (x n : UInt32) : UInt32 := (x >>> (n % 32)) ||| (x <<< ((32 - n % 32) % 32))

namespace Block

/-- Adds word `b` to word `a`, and turns word `d`, mixed with the sum, by `n` places. -/
def mix (w : Block) (a b d : Fin 16) (n : UInt32) : Block :=
  let sum := w[a] + w[b]
  (w.set a sum).set d (rotateLeft (w[d] ^^^ sum) n)

/-- A quarter round on four words. -/
def quarterRound (w : Block) (a b c d : Fin 16) : Block :=
  (((w.mix a b d 16).mix c d b 12).mix a b d 8).mix c d b 7

/-- A round on the columns and a round on the diagonals. -/
def doubleRound (w : Block) : Block :=
  let w := w.quarterRound 0 4 8 12
  let w := w.quarterRound 1 5 9 13
  let w := w.quarterRound 2 6 10 14
  let w := w.quarterRound 3 7 11 15
  let w := w.quarterRound 0 5 10 15
  let w := w.quarterRound 1 6 11 12
  let w := w.quarterRound 2 7 8 13
  w.quarterRound 3 4 9 14

/-- The words of two blocks added place by place. -/
def add (v w : Block) : Block := v.zipWith (· + ·) w

end Block

/-- A stream: its key, the number of the next block, and the words of the present block that
are still to come. -/
structure Stream where
  key : Vector UInt32 8
  blockNumber : UInt64
  ready : List UInt32

namespace Stream

/-- The words that a block starts from: four constants, the key, the number of the block, and a
stream number of zero. -/
def seedBlock (key : Vector UInt32 8) (number : UInt64) : Block :=
  #v[0x61707865, 0x3320646e, 0x79622d32, 0x6b206574,
    key[0], key[1], key[2], key[3], key[4], key[5], key[6], key[7],
    number.toUInt32, (number >>> 32).toUInt32, 0, 0]

/-- The words of the block of a number: eight rounds over the words it starts from, which are
added to the outcome. -/
def block (key : Vector UInt32 8) (number : UInt64) : Block :=
  let start := seedBlock key number
  start.doubleRound.doubleRound.doubleRound.doubleRound.add start

/-- The next state of the generator that makes keys. -/
def nextSeed (state : UInt64) : UInt64 := state * 6364136223846793005 + 11634580027462260723

/-- The word of a key that belongs to a state. -/
def keyWord (state : UInt64) : UInt32 :=
  rotateRight (((state >>> 18) ^^^ state) >>> 27).toUInt32 (state >>> 59).toUInt32

/-- The states of eight steps from the seed. -/
def keyStates (seed : UInt64) : Vector UInt64 8 :=
  let s0 := nextSeed seed
  let s1 := nextSeed s0
  let s2 := nextSeed s1
  let s3 := nextSeed s2
  let s4 := nextSeed s3
  let s5 := nextSeed s4
  let s6 := nextSeed s5
  #v[s0, s1, s2, s3, s4, s5, s6, nextSeed s6]

/-- The stream of a seed, at its beginning. -/
def ofSeed (seed : Nat) : Stream where
  key := (keyStates (UInt64.ofNat seed)).map keyWord
  blockNumber := 0
  ready := []

/-- The next 32 bits. -/
def nextWord (s : Stream) : UInt32 × Stream :=
  match s.ready with
  | word :: ready => (word, { s with ready })
  | [] =>
    let words := block s.key s.blockNumber
    (words[0], { s with blockNumber := s.blockNumber + 1, ready := words.toList.tail })

/-- The next 64 bits, of which the low half comes first. -/
def nextPair (s : Stream) : UInt64 × Stream :=
  let (low, s) := s.nextWord
  let (high, s) := s.nextWord
  (high.toUInt64 <<< 32 ||| low.toUInt64, s)

end Stream

end NeuralPlan.Random
