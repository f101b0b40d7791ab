import NeuralPlan.Failure

/-!
# Words

Counts and positions are held in unsigned words of 64 bits, references in signed ones.  The
library computes with `Nat` and `Int` and checks where a word could not hold the result.

## Main definitions

* `Word.unsigned`, `Word.signed` — the check that a number fits.
* `Word.toSigned`, `Word.toUnsigned` — the same bits read as the other kind of word.
* `Word.total` — the sum of counts.
-/

set_option relaxedAutoImplicit false
set_option autoImplicit false

namespace NeuralPlan.Word

/-- The first number that an unsigned word does not hold. -/
def limit : Nat := 18446744073709551616

/-- The first number that a signed word does not hold. -/
def signedLimit : Nat := 9223372036854775808

/-- The greatest unsigned word. -/
def greatest : Nat := 18446744073709551615

/-- `n`, if an unsigned word holds it. -/
def unsigned (n : Nat) : Result Nat := if n < limit then .ok n else stop .overflow

/-- `i`, if a signed word holds it. -/
def signed (i : Int) : Result Int :=
  if -(signedLimit : Int) ≤ i ∧ i < signedLimit then .ok i else stop .overflow

/-- The signed word with the bits of the unsigned word `n`. -/
def toSigned (n : Nat) : Int := Int.bmod n limit

/-- The unsigned word with the bits of the signed word `i`. -/
def toUnsigned (i : Int) : Nat := (i % limit).toNat

/-- The sum of counts, without a check. -/
def total (counts : List Nat) : Nat := counts.foldr (· + ·) 0

/-! ## Laws -/

theorem unsigned_eq_ok {n : Nat} (h : n < limit) : unsigned n = .ok n := if_pos h

theorem signed_eq_ok {i : Int} (lo : -(signedLimit : Int) ≤ i) (hi : i < signedLimit) :
    signed i = .ok i := if_pos ⟨lo, hi⟩

/-- Below half the range the two readings of a word agree. -/
theorem toSigned_of_lt {n : Nat} (h : n < signedLimit) : toSigned n = n := by
  unfold toSigned limit; unfold signedLimit at h
  rw [Int.bmod_eq_of_le] <;> omega

/-- The reading of a signed word as an unsigned one is undone by the reading back. -/
theorem toSigned_toUnsigned {i : Int} (lo : -(signedLimit : Int) ≤ i) (hi : i < signedLimit) :
    toSigned (toUnsigned i) = i := by
  unfold toSigned toUnsigned limit
  unfold signedLimit at lo hi
  rw [Int.toNat_of_nonneg (by omega), Int.emod_bmod, Int.bmod_eq_of_le] <;> omega

end NeuralPlan.Word
