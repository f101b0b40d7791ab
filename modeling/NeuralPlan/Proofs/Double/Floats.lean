import NeuralPlan.Proofs.Double.Packing

/-!
# Doubles as numbers

A finite double stands for a real number; the operations round, and overflow to infinity.

## Main definitions

* `Double.Is` — the double is finite and stands for the number.
* `Double.Rounds` — the double is the number rounded, or infinite if that is too great.

## Main results

* `Double.Is.mul`, `Double.Is.div`, `Double.Is.add`, `Double.Is.sub`, `Double.Is.sqrt`,
  `Double.rounds_ofNat` — every operation rounds.
* `Double.is_ofBits`, `Double.Is.toBits` — the number that a word stands for, and the word of a number.
-/

set_option relaxedAutoImplicit false
set_option autoImplicit false

namespace NeuralPlan.Double

open Float.Model Float.Model.UnpackedFloat

/-! ## Doubles and numbers -/

/-- The double is finite and stands for the number `v`. -/
def Is (x : Float) (v : ℝ) : Prop := IsRounded x.toModel.unpack v

/-- The greatest finite double. -/
noncomputable def greatest : ℝ := (2 ^ 53 - 1) * 2 ^ (971 : ℤ)

/-- The double is the number `v` rounded; if that is too great, then it is infinite. -/
structure Rounds (x : Float) (v : ℝ) : Prop where
  fits : |nearest v| < limit → Is x (nearest v)
  above : limit ≤ nearest v → x.toModel.unpack = .infinity .positive
  below : nearest v ≤ -limit → x.toModel.unpack = .infinity .negative

variable {x y : Float} {v w : ℝ}

/-- A double stands for one number only. -/
theorem Is.unique (h : Is x v) (h' : Is x w) : v = w := h.number.symm.trans h'.number

/-- What a double stands for is a double. -/
theorem Is.representable (h : Is x v) : Representable v := IsRounded.representable h

/-- A finite double stands for some number. -/
theorem isFinite_iff : x.isFinite = true ↔ ∃ v, Is x v :=
  ⟨fun h => ⟨_, h, (settled_unpack _).canonical, rfl⟩, fun ⟨_, h⟩ => h.isFinite⟩

/-- A double is finite, infinite or not a number. -/
theorem is_or (x : Float) : (∃ v, Is x v) ∨ (∃ s, x.toModel.unpack = .infinity s) ∨
    x.toModel.unpack = .notANumber := by
  cases h : x.toModel.unpack with
  | infinity s => exact .inr (.inl ⟨s, rfl⟩)
  | notANumber => exact .inr (.inr rfl)
  | zero s => exact .inl (isFinite_iff.mp (congrArg UnpackedFloat.isFinite h))
  | finite s m e hm => exact .inl (isFinite_iff.mp (congrArg UnpackedFloat.isFinite h))

/-- The greatest finite double is a double. -/
theorem representable_greatest : Representable greatest :=
  ⟨2 ^ 53 - 1, 971, by norm_num, by norm_num, by unfold greatest; norm_num⟩

/-- The greatest finite double is less than the first power of two that is too great. -/
theorem greatest_lt : greatest < limit := by
  unfold greatest limit
  rw [show (1024 : ℤ) = 53 + 971 by norm_num, zpow_add₀ (by norm_num)]
  refine mul_lt_mul_of_pos_right ?_ (by positivity)
  norm_num

/-- Smaller powers of two are not greater than the greatest double. -/
theorem zpow_le_greatest {k : ℤ} (h : k ≤ 1023) : 2 ^ k ≤ greatest := by
  calc (2 : ℝ) ^ k ≤ 2 ^ (52 + 971 : ℤ) := zpow_le_zpow_right₀ (by norm_num) h
    _ = 2 ^ (52 : ℤ) * 2 ^ (971 : ℤ) := zpow_add₀ (by norm_num) _ _
    _ ≤ greatest := mul_le_mul_of_nonneg_right (by norm_num) (by positivity)

/-- The greatest double is above zero. -/
theorem greatest_pos : 0 < greatest :=
  (by positivity : (0 : ℝ) < 2 ^ (0 : ℤ)).trans_le (zpow_le_greatest (by norm_num))

/-- **A finite double** is not greater than the greatest one. -/
theorem Is.abs_le (h : Is x v) : |v| ≤ greatest := by
  have hsettled : Settled x.toModel.unpack := settled_unpack _
  obtain ⟨hfinite, -, rfl⟩ := h
  cases hx : x.toModel.unpack with
  | infinity s =>
    rw [hx] at hfinite
    cases hfinite
  | notANumber =>
    rw [hx] at hfinite
    cases hfinite
  | zero s =>
    rw [number_zero, abs_zero]
    exact greatest_pos.le
  | finite s m e hm =>
    rw [hx] at hsettled
    obtain ⟨⟨hlong, -, -⟩, he⟩ := hsettled
    rw [number, abs_signed s (by positivity)]
    unfold greatest
    refine mul_le_mul ?_ (zpow_le_zpow_right₀ (by norm_num) he) (by positivity) (by norm_num)
    have hlt : (m : ℝ) + 1 ≤ 2 ^ 53 := by exact_mod_cast hlong
    linarith

/-- A number that is not greater than the greatest double does not overflow. -/
theorem abs_nearest_lt (h : |v| ≤ greatest) : |nearest v| < limit := by
  obtain ⟨hlow, hhigh⟩ := abs_le.mp h
  refine (abs_le.mpr ⟨?_, ?_⟩).trans_lt greatest_lt
  · exact le_nearest representable_greatest.neg hlow
  · exact nearest_le representable_greatest hhigh

/-- A number that is not greater than the greatest double is rounded. -/
theorem Rounds.is (h : Rounds x v) (hv : |v| ≤ greatest) : Is x (nearest v) :=
  h.fits (abs_nearest_lt hv)

/-- A number from zero up to a finite double is rounded to such a number. -/
theorem Rounds.exists_le (h : Rounds x v) {high : ℝ} (hhigh : Representable high) (hv : 0 ≤ v)
    (hvh : v ≤ high) (hgreatest : high ≤ greatest) : ∃ w, Is x w ∧ 0 ≤ w ∧ w ≤ high :=
  ⟨nearest v, h.is ((abs_of_nonneg hv).trans_le (hvh.trans hgreatest)), nearest_nonneg hv,
    nearest_le hhigh hvh⟩

/-- **Rounding and packing**: what is rounded is stored, or becomes infinite. -/
theorem rounds_of_isRounded {f : UnpackedFloat} (h : IsRounded f (nearest v))
    (hx : x.toModel.unpack =
      UnpackedFloat.unpack Format.binary64 (UnpackedFloat.pack Format.binary64 f)) :
    Rounds x v := by
  have hpower := limit_pos
  obtain ⟨hfinite, hcanonical, hnumber⟩ := h
  cases f with
  | infinity s => cases hfinite
  | notANumber => cases hfinite
  | zero s =>
    rw [unpack_pack (f := .zero s) trivial] at hx
    rw [number_zero] at hnumber
    refine ⟨fun _ => ?_, fun h => ?_, fun h => ?_⟩
    · rw [Is, hx, ← hnumber]
      exact isRounded_zero s
    · linarith
    · linarith
  | finite s m e hm =>
    have hpos : (0 : ℝ) < m * 2 ^ e := by
      have hcast : (0 : ℝ) < m := by exact_mod_cast hm
      positivity
    have habs : |nearest v| = m * 2 ^ e := by
      rw [← hnumber]
      exact abs_signed s hpos.le
    refine ⟨fun hlt => ?_, fun h => ?_, fun h => ?_⟩
    · rw [habs, ← exponent_le_iff hcanonical] at hlt
      rw [unpack_pack (f := .finite s m e hm) ⟨hcanonical, hlt⟩] at hx
      rw [Is, hx]
      exact ⟨rfl, hcanonical, hnumber⟩
    · have hover : 971 < e := by
        rw [← not_le, exponent_le_iff hcanonical, not_lt, ← habs]
        exact h.trans (le_abs_self _)
      cases s with
      | positive => rw [hx, unpack_pack_overflow hover]
      | negative =>
        change -((m : ℝ) * 2 ^ e) = _ at hnumber
        linarith
    · have hover : 971 < e := by
        rw [← not_le, exponent_le_iff hcanonical, not_lt, ← habs]
        exact (le_neg.mpr h).trans (neg_le_abs _)
      cases s with
      | positive =>
        change (m : ℝ) * 2 ^ e = _ at hnumber
        linarith
      | negative => rw [hx, unpack_pack_overflow hover]

/-! ## Operations -/

/-- **A product** is rounded. -/
theorem Is.mul (hx : Is x v) (hy : Is y w) : Rounds (x * y) (v * w) :=
  rounds_of_isRounded (IsRounded.mul hx hy) rfl

/-- **A quotient** is rounded. -/
theorem Is.div (hx : Is x v) (hy : Is y w) (hw : w ≠ 0) : Rounds (x / y) (v / w) :=
  rounds_of_isRounded (IsRounded.div hx hy hw) rfl

/-- **A sum** is rounded. -/
theorem Is.add (hx : Is x v) (hy : Is y w) : Rounds (x + y) (v + w) :=
  rounds_of_isRounded (IsRounded.add hx hy) rfl

/-- **A difference** is rounded. -/
theorem Is.sub (hx : Is x v) (hy : Is y w) : Rounds (x - y) (v - w) :=
  rounds_of_isRounded (IsRounded.sub hx hy) rfl

/-- **A square root** is rounded. -/
theorem Is.sqrt (hx : Is x v) (hv : 0 ≤ v) : Rounds x.sqrt √v :=
  rounds_of_isRounded (IsRounded.sqrt hx hv) rfl

/-- The negative of a double, taken apart. -/
theorem unpack_neg (x : Float) : (-x).toModel.unpack = x.toModel.unpack.neg := by
  have hsettled : Settled x.toModel.unpack := settled_unpack _
  refine unpack_pack (f := x.toModel.unpack.neg) ?_
  cases h : x.toModel.unpack <;> rw [h] at hsettled <;> exact hsettled

/-- The absolute value of a double, taken apart. -/
theorem unpack_abs (x : Float) : x.abs.toModel.unpack = x.toModel.unpack.abs := by
  have hsettled : Settled x.toModel.unpack := settled_unpack _
  refine unpack_pack (f := x.toModel.unpack.abs) ?_
  cases h : x.toModel.unpack <;> rw [h] at hsettled <;> exact hsettled

/-- **The negative** of a double. -/
theorem Is.neg (hx : Is x v) : Is (-x) (-v) := by
  obtain ⟨hfinite, hcanonical, rfl⟩ := hx
  rw [Is, unpack_neg]
  cases h : x.toModel.unpack with
  | infinity s => rw [h] at hfinite; cases hfinite
  | notANumber => rw [h] at hfinite; cases hfinite
  | zero s =>
    rw [number_zero, neg_zero]
    exact isRounded_zero _
  | finite s m e hm =>
    rw [h] at hcanonical
    refine ⟨rfl, hcanonical, ?_⟩
    cases s
    · exact (neg_neg _).symm
    · rfl

/-- **The absolute value** of a double. -/
theorem Is.abs (hx : Is x v) : Is x.abs |v| := by
  obtain ⟨hfinite, hcanonical, rfl⟩ := hx
  rw [Is, unpack_abs]
  cases h : x.toModel.unpack with
  | infinity s => rw [h] at hfinite; cases hfinite
  | notANumber => rw [h] at hfinite; cases hfinite
  | zero s =>
    rw [number_zero, abs_zero]
    exact isRounded_zero _
  | finite s m e hm =>
    rw [h] at hcanonical
    exact ⟨rfl, hcanonical, (abs_signed s (by positivity : (0 : ℝ) ≤ m * 2 ^ e)).symm⟩

/-- A finite absolute value is that of a finite double. -/
theorem exists_of_abs (h : Is x.abs v) : ∃ w, Is x w ∧ v = |w| := by
  have hfinite : x.abs.toModel.unpack.isFinite = true := IsRounded.isFinite h
  rw [unpack_abs] at hfinite
  have hx : x.isFinite = true := by
    change x.toModel.unpack.isFinite = true
    revert hfinite
    cases x.toModel.unpack <;> exact id
  obtain ⟨w, hw⟩ := isFinite_iff.mp hx
  exact ⟨w, hw, h.unique hw.abs⟩

/-! ## Finite results -/

/-- What is packed from an infinity or a NaN is not finite. -/
theorem isFinite_of_pack {f : UnpackedFloat}
    (h : (UnpackedFloat.unpack Format.binary64
      (UnpackedFloat.pack Format.binary64 f)).isFinite = true) :
    f.isFinite = true := by
  cases f with
  | infinity s => rwa [unpack_pack (f := .infinity s) trivial] at h
  | notANumber => rwa [unpack_pack (f := .notANumber) trivial] at h
  | zero s => rfl
  | finite s m e hm => rfl

/-- A finite product has finite factors. -/
theorem isFinite_of_mul (h : (x * y).isFinite = true) : x.isFinite = true ∧ y.isFinite = true := by
  have hf : (UnpackedFloat.mul Format.binary64 x.toModel.unpack y.toModel.unpack).isFinite = true :=
    isFinite_of_pack h
  change x.toModel.unpack.isFinite = true ∧ y.toModel.unpack.isFinite = true
  revert hf
  cases x.toModel.unpack <;> cases y.toModel.unpack <;>
    simp [UnpackedFloat.mul, UnpackedFloat.isFinite]

/-- A finite quotient has a finite dividend. -/
theorem isFinite_of_div (h : (x / y).isFinite = true) : x.isFinite = true := by
  have hf : (UnpackedFloat.div Format.binary64 x.toModel.unpack y.toModel.unpack).isFinite = true :=
    isFinite_of_pack h
  change x.toModel.unpack.isFinite = true
  revert hf
  cases x.toModel.unpack <;> cases y.toModel.unpack <;>
    simp [UnpackedFloat.div, UnpackedFloat.isFinite]

/-- A finite difference is taken from a finite double. -/
theorem isFinite_of_sub (h : (x - y).isFinite = true) : x.isFinite = true := by
  have hf : (UnpackedFloat.sub Format.binary64 x.toModel.unpack y.toModel.unpack).isFinite = true :=
    isFinite_of_pack h
  change x.toModel.unpack.isFinite = true
  revert hf
  cases x.toModel.unpack <;> cases y.toModel.unpack <;>
    simp [UnpackedFloat.sub, UnpackedFloat.isFinite]
  case infinity.infinity s t => cases s <;> cases t <;> decide

/-- A double that stands for a number is finite. -/
theorem Is.isFinite (h : Is x v) : x.isFinite = true := isFinite_iff.mpr ⟨v, h⟩

/-- A double that stands for a number is not a NaN. -/
theorem Is.isNaN (h : Is x v) : x.isNaN = false := by
  have hfinite : x.toModel.unpack.isFinite = true := IsRounded.isFinite h
  change x.toModel.unpack.isNaN = false
  cases hx : x.toModel.unpack with
  | notANumber =>
    rw [hx] at hfinite
    cases hfinite
  | infinity s => rfl
  | zero s => rfl
  | finite s m e hm => rfl

/-- A finite double is not infinite. -/
theorem ne_infinity_of_isFinite (hx : x.isFinite = true) (s : Sign) :
    x.toModel.unpack ≠ .infinity s := by
  intro hs
  change x.toModel.unpack.isFinite = true at hx
  rw [hs] at hx
  cases hx

/-- A finite double that is a number rounded is that number rounded. -/
theorem Rounds.is_of_isFinite (h : Rounds x v) (hx : x.isFinite = true) : Is x (nearest v) := by
  refine h.fits (abs_lt.mpr ⟨?_, ?_⟩)
  · exact not_le.mp fun hle => ne_infinity_of_isFinite hx _ (h.below hle)
  · exact not_le.mp fun hle => ne_infinity_of_isFinite hx _ (h.above hle)

/-- A number is rounded to a finite double exactly if it is not too great. -/
theorem Rounds.isFinite_iff (h : Rounds x v) : x.isFinite = true ↔ |nearest v| < limit :=
  ⟨fun hx => (h.is_of_isFinite hx).abs_le.trans_lt greatest_lt, fun hlt => (h.fits hlt).isFinite⟩

/-! ## Words -/

/-- **The double of a word** whose sign is positive and whose exponent is not the greatest one. -/
theorem is_ofBits {b : UInt64} (h : b.toNat < 2047 * 2 ^ 52) :
    Is (Float.ofBits b) (magnitude b.toNat) := by
  have hunpack : (Float.ofBits b).toModel.unpack =
      UnpackedFloat.unpack Format.binary64 b.toBitVec := unpack_pack (settled_unpack _)
  rw [Is, hunpack]
  exact isRounded_unpack h

/-- **The word of a positive double**. -/
theorem Is.toBits (hx : Is x v) (hv : 0 < v) :
    x.toBits.toNat < 2047 * 2 ^ 52 ∧ v = magnitude x.toBits.toNat :=
  lt_of_isRounded_unpack (b := x.toModel.toBits.toBitVec) hx hv

/-- **Two doubles for one positive number** are the same. -/
theorem Is.eq_of_pos (hx : Is x v) (hy : Is y v) (hv : 0 < v) : x = y := by
  have hbits : x.toBits = y.toBits := UInt64.toNat_inj.mp
    (magnitude_strictMono.injective ((hx.toBits hv).2.symm.trans (hy.toBits hv).2))
  obtain ⟨⟨b, hb⟩⟩ := x
  obtain ⟨⟨c, hc⟩⟩ := y
  cases hbits
  rfl

/-- The double of a normal word, from the fields of the word. -/
theorem is_ofBits_fields {b : UInt64} {c m : ℕ} (h : b.toNat = c * 2 ^ 52 + m) (hm : m < 2 ^ 52)
    (hc : 0 < c) (hc' : c < 2047) : Is (Float.ofBits b) ((2 ^ 52 + m : ℕ) * 2 ^ ((c : ℤ) - 1075)) := by
  have his := is_ofBits (b := b) (by omega)
  rwa [h, magnitude_eq hm, if_neg hc.ne'] at his

/-- Zero. -/
theorem is_zero : Is 0.0 0 := by
  have his := is_ofBits (b := 0) (by norm_num)
  rw [UInt64.toNat_zero, magnitude_zero] at his
  exact his

/-- The double of a word whose mantissa is zero is a power of two. -/
theorem is_ofBits_zpow {b : UInt64} {c : ℕ} {k : ℤ} (h : b.toNat = c * 2 ^ 52) (hc : 0 < c)
    (hc' : c < 2047) (hk : (c : ℤ) = k + 1023) : Is (Float.ofBits b) (2 ^ k) := by
  have his := is_ofBits_fields (h.trans (Nat.add_zero _).symm) (by norm_num) hc hc'
  have hvalue : ((2 ^ 52 + 0 : ℕ) : ℝ) * 2 ^ ((c : ℤ) - 1075) = 2 ^ k :=
    calc ((2 ^ 52 + 0 : ℕ) : ℝ) * 2 ^ ((c : ℤ) - 1075) = 2 ^ (52 : ℤ) * 2 ^ (k - 52) :=
          congrArg₂ (· * 2 ^ ·) (by norm_num) (by omega)
      _ = 2 ^ k := by rw [← zpow_add₀ (by norm_num), add_sub_cancel]
  rwa [hvalue] at his

/-- One. -/
theorem is_one : Is 1.0 1 := by
  have his := is_ofBits_zpow (b := 0x3ff0000000000000) (c := 1023) (k := 0) rfl (by norm_num)
    (by norm_num) (by norm_num)
  rwa [zpow_zero] at his

/-- Two. -/
theorem is_two : Is 2.0 2 := by
  have his := is_ofBits_zpow (b := 0x4000000000000000) (c := 1024) (k := 1) rfl (by norm_num)
    (by norm_num) (by norm_num)
  rwa [zpow_one] at his

/-! ## Whole numbers -/

/-- A word of at most 53 bits is converted exactly. -/
theorem is_toFloat {n : ℕ} (h : n < 2 ^ 53) : Is n.toUInt64.toFloat n := by
  have hrepresentable : Representable n := by
    rw [← Int.cast_natCast]
    refine representable_intCast ?_
    rw [Nat.abs_cast]
    exact_mod_cast h.le
  have hbound : |(n : ℝ)| ≤ greatest := by
    rw [Nat.abs_cast]
    have hcast : (n : ℝ) ≤ 2 ^ (53 : ℤ) := by exact_mod_cast h.le
    exact hcast.trans (zpow_le_greatest (by norm_num))
  have hword : n.toUInt64.toNat = n := Nat.mod_eq_of_lt (by omega)
  have hrounds : Rounds n.toUInt64.toFloat n :=
    rounds_of_isRounded (isRounded_ofNat n) (by
      change UnpackedFloat.unpack _ (UnpackedFloat.pack _
        (UnpackedFloat.ofNat Format.binary64 n.toUInt64.toNat)) = _
      rw [hword])
  have his := hrounds.is hbound
  rwa [nearest_of_representable hrepresentable] at his

/-- **A whole number** is rounded. -/
theorem rounds_ofNat (n : ℕ) : Rounds (Float.ofNat n) n := by
  change Rounds (Float.ofScientific n false 0) n
  unfold Float.ofScientific
  split
  next h =>
    -- A short number is converted exactly, and then multiplied by a power of ten, which is one.
    have hproduct := (is_toFloat h.1).mul is_one
    rw [mul_one] at hproduct
    exact hproduct
  next h =>
    have hn : n ≠ 0 := by
      rintro rfl
      exact h ⟨by norm_num, by norm_num⟩
    have hlog : (n <<< 53 * 10 ^ 0).log2 = n.log2 + 53 := by
      rw [Nat.pow_zero, Nat.mul_one]
      exact log2_shiftLeft hn 53
    have hproduct := isRounded_mul_finite .positive .positive (m := n <<< 53) (n := 10 ^ 0) (e := -53)
      (k := 0) (by rw [Nat.shiftLeft_eq]; positivity) (by norm_num)
      (by rw [targetExponent_eq, hlog]; omega)
    have hvalue : signed .positive (((n <<< 53 : ℕ) : ℝ) * 2 ^ (-53 : ℤ)) *
        signed .positive (((10 ^ 0 : ℕ) : ℝ) * 2 ^ (0 : ℤ)) = n := by
      rw [Nat.shiftLeft_eq]
      norm_num [signed]
      ring
    rw [hvalue] at hproduct
    refine rounds_of_isRounded hproduct ?_
    change UnpackedFloat.unpack _ (UnpackedFloat.pack _
      (UnpackedFloat.ofScientific Format.binary64 n 0)) = _
    unfold UnpackedFloat.ofScientific
    rw [dif_neg hn, if_neg (by norm_num), if_neg (by norm_num), if_pos le_rfl]
    rfl

end NeuralPlan.Double
