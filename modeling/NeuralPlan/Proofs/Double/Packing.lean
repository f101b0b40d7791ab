import NeuralPlan.Proofs.Double.Operations

/-!
# The bits of a double

A double is a word of 64 bits: a sign, eleven bits of an exponent and 52 of a mantissa, whose highest
bit is implied.  What is rounded fits the word, unless it is too great; then it becomes infinite.

For doubles that are not negative, the word as a number is in the order of the doubles, and the next
word is the next double.

## Main definitions

* `Double.Settled` — the float is one that a word stands for.
* `Double.limit` — the first power of two that is too great for a finite double.
* `Double.magnitude` — the number that a word stands for whose sign is positive.

## Main results

* `Double.unpack_pack`, `Double.settled_unpack` — words and the floats that they stand for.
* `Double.unpack_pack_overflow` — what is too great becomes infinite.
* `Double.magnitude_strictMono`, `Double.magnitude_succ_ge` — the order of the words.
-/

set_option relaxedAutoImplicit false
set_option autoImplicit false

namespace NeuralPlan.Double

open Float.Model Float.Model.UnpackedFloat

/-! ## The fields of a word -/

section Fields

variable (b : BitVec Format.binary64.numBits)

/-- The mantissa is the low part of a word. -/
theorem toNat_unpackMantissa : (unpackMantissa b).toNat = b.toNat % 2 ^ 52 := by
  simp [unpackMantissa]

/-- The exponent is the part of a word between its mantissa and its sign. -/
theorem toNat_unpackExponent : (unpackExponent b).toNat = b.toNat / 2 ^ 52 % 2 ^ 11 := by
  simp [unpackExponent, Nat.shiftRight_eq_div_pow]

/-- The sign is the highest bit of a word. -/
theorem toNat_unpackSign : (unpackSign b).toNat = b.toNat / 2 ^ 63 := by
  have hlt : b.toNat < 2 ^ 64 := b.isLt
  simp [unpackSign, Nat.shiftRight_eq_div_pow]
  omega

/-- The sign that a word is put together from is read from it. -/
theorem unpackSign_packComponents (s : Sign) (e m) :
    Sign.ofBitVec (unpackSign (packComponents Format.binary64 s e m)) = s := by
  have he : e.toNat < 2 ^ 11 := e.isLt
  have hm : m.toNat < 2 ^ 52 := m.isLt
  have hword : (packComponents Format.binary64 s e m).toNat =
      (s.toBitVec.toNat * 2 ^ 11 + e.toNat) * 2 ^ 52 + m.toNat := by
    unfold packComponents
    rw [BitVec.toNat_append, BitVec.toNat_append, ← Nat.shiftLeft_add_eq_or_of_lt hm,
      ← Nat.shiftLeft_add_eq_or_of_lt he, Nat.shiftLeft_eq, Nat.shiftLeft_eq]
  have hbits : unpackSign (packComponents Format.binary64 s e m) = s.toBitVec := by
    refine BitVec.eq_of_toNat_eq ?_
    rw [toNat_unpackSign, hword]
    omega
  rw [hbits]
  cases s <;> rfl

/-- An exponent is the greatest one if it is 2047. -/
theorem eq_neg_one_iff (e : BitVec Format.binary64.exponentBits) : e = -1#_ ↔ e.toNat = 2047 := by
  rw [← BitVec.toNat_inj]
  rfl

/-- A field is zero if its number is. -/
theorem eq_zero_iff {n : ℕ} (e : BitVec n) : e = 0#_ ↔ e.toNat = 0 := by
  rw [← BitVec.toNat_inj, BitVec.toNat_zero]

/-- The implied bit of a mantissa. -/
theorem toNat_implied (m : BitVec Format.binary64.mantissaBitsWithoutImplicit) :
    (1#1 ++ m).toNat = 2 ^ 52 + m.toNat := by
  rw [BitVec.toNat_append, ← Nat.shiftLeft_add_eq_or_of_lt m.isLt]
  rfl

end Fields

/-! ## Words and doubles -/

/-- The float is one that a word stands for: a finite one is canonical and not too great. -/
def Settled : UnpackedFloat → Prop
  | .finite s m e hm => Canonical (.finite s m e hm) ∧ e ≤ 971
  | _ => True

/-- **What is read from a word** is settled. -/
theorem settled_unpack (b : BitVec Format.binary64.numBits) :
    Settled (UnpackedFloat.unpack Format.binary64 b) := by
  unfold UnpackedFloat.unpack
  dsimp only
  have hbias : (Format.binary64.exponentBias : ℤ) = 1023 := by decide
  have hexp := toNat_unpackExponent b
  have hmant := toNat_unpackMantissa b
  rw [hbias]
  split
  · split <;> trivial
  next hfinite =>
    rw [eq_neg_one_iff] at hfinite
    split
    next hsmall =>
      split
      · trivial
      · rw [eq_zero_iff] at hsmall
        refine ⟨⟨?_, ?_, .inr ?_⟩, ?_⟩ <;> omega
    next hnormal =>
      rw [eq_zero_iff] at hnormal
      have hlong := toNat_implied (unpackMantissa b)
      refine ⟨⟨?_, ?_, .inl ?_⟩, ?_⟩ <;> omega

/-- A word of a normal double, read back. -/
theorem unpack_packComponents_normal {s : Sign} {c m : ℕ} (hc : 0 < c) (hc' : c < 2047)
    (hm : 2 ^ 52 ≤ m) (hlong : m < 2 ^ 53) :
    UnpackedFloat.unpack Format.binary64 (packComponents Format.binary64 s
      (BitVec.ofNat Format.binary64.exponentBits c)
      (BitVec.ofNat Format.binary64.mantissaBitsWithoutImplicit m)) =
        .finite s m (c - 1075) (by omega) := by
  have hbias : (Format.binary64.exponentBias : ℤ) = 1023 := by decide
  have hfield : (BitVec.ofNat Format.binary64.exponentBits c).toNat = c :=
    Nat.mod_eq_of_lt (by change c < 2 ^ 11; omega)
  have hmant : (1#1 ++ BitVec.ofNat Format.binary64.mantissaBitsWithoutImplicit m).toNat = m := by
    rw [toNat_implied]
    change 2 ^ 52 + m % 2 ^ 52 = m
    omega
  have hnot : BitVec.ofNat Format.binary64.exponentBits c ≠ -1#_ := by
    rw [Ne, eq_neg_one_iff, hfield]
    omega
  have hpos : BitVec.ofNat Format.binary64.exponentBits c ≠ 0#_ := by
    rw [Ne, eq_zero_iff, hfield]
    omega
  unfold UnpackedFloat.unpack
  simp only [unpackMantissa_packComponents, unpackExponent_packComponents,
    unpackSign_packComponents, if_neg hnot, if_neg hpos, hfield, hmant, hbias]
  rfl

/-- A word of a subnormal double, read back. -/
theorem unpack_packComponents_subnormal {s : Sign} {m : ℕ} (hm : 0 < m) (hshort : m < 2 ^ 52) :
    UnpackedFloat.unpack Format.binary64 (packComponents Format.binary64 s
      (BitVec.ofNat Format.binary64.exponentBits 0)
      (BitVec.ofNat Format.binary64.mantissaBitsWithoutImplicit m)) = .finite s m (-1074) hm := by
  have hbias : (Format.binary64.exponentBias : ℤ) = 1023 := by decide
  have hmant : (BitVec.ofNat Format.binary64.mantissaBitsWithoutImplicit m).toNat = m :=
    Nat.mod_eq_of_lt hshort
  have hnot : BitVec.ofNat Format.binary64.exponentBits 0 ≠ -1#_ := by
    rw [Ne, eq_neg_one_iff]
    decide
  have hpos : BitVec.ofNat Format.binary64.mantissaBitsWithoutImplicit m ≠ 0#_ := by
    rw [Ne, eq_zero_iff, hmant]
    omega
  unfold UnpackedFloat.unpack
  simp only [unpackMantissa_packComponents, unpackExponent_packComponents,
    unpackSign_packComponents, if_neg hnot, if_true, dif_neg hpos, hmant, hbias, BitVec.toNat_zero]
  rfl

/-- **What is settled** is read back from its word. -/
theorem unpack_pack {f : UnpackedFloat} (h : Settled f) :
    UnpackedFloat.unpack Format.binary64 (UnpackedFloat.pack Format.binary64 f) = f := by
  have hbias : (Format.binary64.exponentBias : ℤ) = 1023 := by decide
  have hbits : Format.binary64.mantissaBits = 53 := by decide
  cases f with
  | notANumber => rfl
  | infinity s => cases s <;> rfl
  | zero s => cases s <;> rfl
  | finite s m e hm =>
    obtain ⟨⟨hlong, hleast, hplace⟩, hgreatest⟩ := h
    obtain ⟨c, hc⟩ : ∃ c : ℕ, (c : ℤ) = e + 1023 + 52 :=
      ⟨(e + 1023 + 52).toNat, by omega⟩
    have hfits : ¬ 2 ^ Format.binary64.exponentBits ≤ c + 1 := by
      change ¬ 2 ^ 11 ≤ c + 1
      omega
    unfold UnpackedFloat.pack
    dsimp only
    rw [hbias, Nat.cast_ofNat, ← hc, Int.toNat_natCast, if_neg hfits, hbits]
    by_cases hnormal : 2 ^ 52 ≤ m
    · have hlog : m.log2 + 1 = 53 := by
        have hlow := (Nat.le_log2 hm.ne').mpr hnormal
        have hhigh := (Nat.log2_lt hm.ne').mpr hlong
        omega
      rw [if_pos hlog, unpack_packComponents_normal (by omega) (by omega) hnormal hlong]
      congr 1
      omega
    · have hlog : ¬ m.log2 + 1 = 53 := by
        have hhigh := (Nat.log2_lt hm.ne').mpr (by omega : m < 2 ^ 52)
        omega
      rw [if_neg hlog, unpack_packComponents_subnormal hm (by omega)]
      congr 1
      omega

/-- A finite double whose exponent is too great becomes infinite. -/
theorem unpack_pack_overflow {s : Sign} {m : ℕ} {e : ℤ} {hm : 0 < m} (h : 971 < e) :
    UnpackedFloat.unpack Format.binary64 (UnpackedFloat.pack Format.binary64 (.finite s m e hm)) =
      .infinity s := by
  have hbias : (Format.binary64.exponentBias : ℤ) = 1023 := by decide
  have hover : 2 ^ Format.binary64.exponentBits ≤ (e + 1023 + 52).toNat + 1 := by
    change 2 ^ 11 ≤ (e + 1023 + 52).toNat + 1
    omega
  unfold UnpackedFloat.pack
  dsimp only
  rw [hbias, Nat.cast_ofNat, if_pos hover]
  cases s <;> rfl

/-- The first power of two that is too great for a finite double. -/
noncomputable def limit : ℝ := 2 ^ (1024 : ℤ)

/-- The first power of two that is too great is positive. -/
theorem limit_pos : 0 < limit := by
  unfold limit
  positivity

/-- A canonical double is too great if its exponent is. -/
theorem exponent_le_iff {s : Sign} {m : ℕ} {e : ℤ} {hm : 0 < m} (h : Canonical (.finite s m e hm)) :
    e ≤ 971 ↔ (m : ℝ) * 2 ^ e < limit := by
  unfold limit
  obtain ⟨hlong, -, hplace⟩ := h
  have hunit : (0 : ℝ) < 2 ^ e := by positivity
  constructor
  · intro he
    calc (m : ℝ) * 2 ^ e < 2 ^ (53 : ℤ) * 2 ^ e := by
          refine mul_lt_mul_of_pos_right ?_ hunit
          exact_mod_cast hlong
      _ = 2 ^ (53 + e) := (zpow_add₀ (by norm_num) _ _).symm
      _ ≤ 2 ^ (1024 : ℤ) := zpow_le_zpow_right₀ (by norm_num) (by omega)
  · intro hlt
    by_contra he
    have hnormal : 2 ^ 52 ≤ m := hplace.resolve_right (by omega)
    refine absurd hlt (not_lt.mpr ?_)
    calc (2 : ℝ) ^ (1024 : ℤ) ≤ 2 ^ (52 + e) := zpow_le_zpow_right₀ (by norm_num) (by omega)
      _ = 2 ^ (52 : ℤ) * 2 ^ e := zpow_add₀ (by norm_num) _ _
      _ ≤ m * 2 ^ e := by
          refine mul_le_mul_of_nonneg_right ?_ hunit.le
          exact_mod_cast hnormal

/-! ## Words in order -/

/-- The number that a word stands for whose sign is positive, if exponents are not bounded above. -/
noncomputable def magnitude (n : ℕ) : ℝ :=
  if n < 2 ^ 52 then n * 2 ^ (-1074 : ℤ)
  else (2 ^ 52 + n % 2 ^ 52 : ℕ) * 2 ^ (((n / 2 ^ 52 : ℕ) : ℤ) - 1075)

/-- A word of positive sign stands for no negative number. -/
theorem magnitude_nonneg (n : ℕ) : 0 ≤ magnitude n := by
  unfold magnitude
  split <;> positivity

/-- What a word of positive sign stands for is a double, if exponents are not bounded above. -/
theorem representable_magnitude (n : ℕ) : Representable (magnitude n) := by
  unfold magnitude
  split
  next h =>
    refine ⟨n, -1074, ?_, le_rfl, by push_cast; rfl⟩
    rw [Nat.abs_cast]
    exact_mod_cast (by omega : n ≤ 2 ^ 53)
  next h =>
    refine ⟨((2 ^ 52 + n % 2 ^ 52 : ℕ) : ℤ), _, ?_, ?_, by rw [Int.cast_natCast]⟩
    · rw [Nat.abs_cast]
      exact_mod_cast (by omega : 2 ^ 52 + n % 2 ^ 52 ≤ 2 ^ 53)
    · have hexp : 1 ≤ n / 2 ^ 52 := by omega
      omega

/-- The number of a word, from the fields of the word. -/
theorem magnitude_eq {c m : ℕ} (hm : m < 2 ^ 52) :
    magnitude (c * 2 ^ 52 + m) =
      if c = 0 then (m : ℝ) * 2 ^ (-1074 : ℤ) else (2 ^ 52 + m : ℕ) * 2 ^ ((c : ℤ) - 1075) := by
  unfold magnitude
  by_cases hc : c = 0
  · rw [if_pos (by omega), if_pos hc, hc, zero_mul, zero_add]
  · rw [if_neg (by omega), if_neg hc]
    have hexp : (c * 2 ^ 52 + m) / 2 ^ 52 = c := by omega
    have hmant : (c * 2 ^ 52 + m) % 2 ^ 52 = m := by omega
    rw [hexp, hmant]

/-- The first word stands for zero. -/
@[simp] theorem magnitude_zero : magnitude 0 = 0 := by
  have heq := magnitude_eq (c := 0) (m := 0) (by norm_num)
  simpa using heq

/-- The next word stands for a number that is greater by a unit of a mantissa of 53 bits. -/
theorem magnitude_succ (n : ℕ) :
    ∃ m : ℕ, ∃ e : ℤ, m < 2 ^ 53 ∧ magnitude n = m * 2 ^ e ∧
      magnitude (n + 1) = (m + 1 : ℕ) * 2 ^ e := by
  obtain ⟨c, m, hm, rfl⟩ : ∃ c m, m < 2 ^ 52 ∧ n = c * 2 ^ 52 + m :=
    ⟨n / 2 ^ 52, n % 2 ^ 52, by omega, by omega⟩
  rw [magnitude_eq hm]
  rcases Nat.lt_or_ge (m + 1) (2 ^ 52) with hlt | hge
  · rw [add_assoc, magnitude_eq hlt]
    by_cases hc : c = 0
    · rw [if_pos hc, if_pos hc]
      exact ⟨m, _, by omega, rfl, rfl⟩
    · rw [if_neg hc, if_neg hc]
      exact ⟨2 ^ 52 + m, _, by omega, rfl, by rw [add_assoc]⟩
  · -- The mantissa carries into the exponent.
    obtain rfl : m = 2 ^ 52 - 1 := by omega
    have hcarry : c * 2 ^ 52 + (2 ^ 52 - 1) + 1 = (c + 1) * 2 ^ 52 + 0 := by omega
    rw [hcarry, magnitude_eq (by norm_num), if_neg (Nat.succ_ne_zero c)]
    by_cases hc : c = 0
    · rw [if_pos hc, hc]
      refine ⟨2 ^ 52 - 1, -1074, by norm_num, rfl, by norm_num⟩
    · rw [if_neg hc]
      refine ⟨2 ^ 52 + (2 ^ 52 - 1), c - 1075, by norm_num, rfl, ?_⟩
      have hexp : ((c + 1 : ℕ) : ℤ) - 1075 = 1 + (c - 1075) := by push_cast; ring
      rw [hexp, zpow_add₀ (by norm_num)]
      push_cast
      ring

/-- **Words are in the order of their numbers**. -/
theorem magnitude_strictMono : StrictMono magnitude := by
  refine strictMono_nat_of_lt_succ fun n => ?_
  obtain ⟨m, e, -, hn, hsucc⟩ := magnitude_succ n
  rw [hn, hsucc]
  refine mul_lt_mul_of_pos_right ?_ (by positivity)
  exact_mod_cast Nat.lt_succ_self m

/-- The next word stands for a number that is greater by one part in `2 ^ 53` at least. -/
theorem magnitude_succ_ge (n : ℕ) : magnitude n * (1 + 2 ^ (-53 : ℤ)) ≤ magnitude (n + 1) := by
  obtain ⟨m, e, hm, hn, hsucc⟩ := magnitude_succ n
  have hunit : (0 : ℝ) < 2 ^ e := by positivity
  have hcast : (m : ℝ) ≤ 2 ^ 53 := by exact_mod_cast hm.le
  have hpart : (m : ℝ) * 2 ^ (-53 : ℤ) ≤ 1 := by
    rw [zpow_neg, ← div_eq_mul_inv]
    exact div_le_one_of_le₀ (by exact_mod_cast hcast) (by positivity)
  rw [hn, hsucc]
  push_cast
  nlinarith

/-- A sign is positive if its bit is not set. -/
theorem ofBitVec_eq (b : BitVec 1) :
    Sign.ofBitVec b = if b.toNat = 0 then .positive else .negative :=
  if_congr (eq_zero_iff b) rfl rfl

/-- A word stands for a finite double if its exponent is not the greatest one. -/
theorem isFinite_unpack_iff (b : BitVec Format.binary64.numBits) :
    (UnpackedFloat.unpack Format.binary64 b).isFinite = true ↔
      b.toNat / 2 ^ 52 % 2 ^ 11 ≠ 2047 := by
  rw [← toNat_unpackExponent, Ne, ← eq_neg_one_iff]
  unfold UnpackedFloat.unpack
  dsimp only
  split
  next h =>
    refine iff_of_false ?_ (not_not.mpr h)
    split <;> exact Bool.false_ne_true
  next h =>
    refine iff_of_true ?_ h
    split
    · split <;> rfl
    · rfl

/-- The number of a finite double is read from the fields of its word. -/
theorem number_unpack {b : BitVec Format.binary64.numBits}
    (h : b.toNat / 2 ^ 52 % 2 ^ 11 ≠ 2047) :
    number (UnpackedFloat.unpack Format.binary64 b) =
      signed (if b.toNat / 2 ^ 63 = 0 then .positive else .negative)
        (magnitude (b.toNat % 2 ^ 63)) := by
  have hbias : (Format.binary64.exponentBias : ℤ) = 1023 := by decide
  have hexp := toNat_unpackExponent b
  have hmant := toNat_unpackMantissa b
  have hfields : b.toNat % 2 ^ 63 = b.toNat / 2 ^ 52 % 2 ^ 11 * 2 ^ 52 + b.toNat % 2 ^ 52 := by
    omega
  rw [← hexp, Ne, ← eq_neg_one_iff] at h
  rw [hfields, magnitude_eq (by omega), ← hexp, ← hmant, ← toNat_unpackSign, ← ofBitVec_eq]
  unfold UnpackedFloat.unpack
  dsimp only
  rw [hbias, if_neg h]
  split
  next hsmall =>
    have hzero := (eq_zero_iff _).mp hsmall
    rw [if_pos hzero]
    split
    next hm =>
      rw [(eq_zero_iff _).mp hm, Nat.cast_zero, zero_mul, signed_zero]
      rfl
    next =>
      rw [hzero]
      rfl
  next hnormal =>
    rw [if_neg ((eq_zero_iff _).not.mp hnormal)]
    change signed _ (((1#1 ++ unpackMantissa b).toNat : ℝ) * _) = _
    rw [toNat_implied]
    rfl

/-- What is settled is canonical. -/
theorem Settled.canonical {f : UnpackedFloat} (h : Settled f) : Canonical f := by
  cases f with
  | infinity s => trivial
  | notANumber => trivial
  | zero s => trivial
  | finite s m e hm => exact h.1

/-- **A word whose sign is positive** and whose exponent is not the greatest one stands for its
number. -/
theorem isRounded_unpack {b : BitVec Format.binary64.numBits} (h : b.toNat < 2047 * 2 ^ 52) :
    IsRounded (UnpackedFloat.unpack Format.binary64 b) (magnitude b.toNat) := by
  have hexp : b.toNat / 2 ^ 52 % 2 ^ 11 ≠ 2047 := by omega
  refine ⟨(isFinite_unpack_iff b).mpr hexp, (settled_unpack b).canonical, ?_⟩
  rw [number_unpack hexp, if_pos (by omega), Nat.mod_eq_of_lt (by omega)]
  rfl

/-- A word that stands for a positive number is such a word. -/
theorem lt_of_isRounded_unpack {b : BitVec Format.binary64.numBits} {v : ℝ}
    (h : IsRounded (UnpackedFloat.unpack Format.binary64 b) v) (hv : 0 < v) :
    b.toNat < 2047 * 2 ^ 52 ∧ v = magnitude b.toNat := by
  have hexp := (isFinite_unpack_iff b).mp h.isFinite
  have hlt : b.toNat < 2047 * 2 ^ 52 := by
    have hword : b.toNat < 2 ^ 64 := b.isLt
    have hnumber := h.number
    rw [number_unpack hexp] at hnumber
    split at hnumber
    · omega
    · have hneg := magnitude_nonneg (b.toNat % 2 ^ 63)
      rw [signed] at hnumber
      linarith
  exact ⟨hlt, h.number.symm.trans (isRounded_unpack hlt).number⟩

end NeuralPlan.Double
