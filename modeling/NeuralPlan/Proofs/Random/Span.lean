import NeuralPlan.Random.Draw
import NeuralPlan.Proofs.Answers
import NeuralPlan.Proofs.Double.Order

/-!
# Numbers from a closed span

A number is drawn from `low` to `high` as `u * scale + low` with a fraction `u`, all in rounded
arithmetic.  The scale is the width of the span divided by the greatest fraction, lowered double by
double until the greatest fraction does not lead beyond `high`.  So no fraction leads out of the span.

The division and the subtraction round, by which the scale gets too great by five doubles at most.
Hence the bound on the number of lowerings is never reached.

## Main definitions

* `Random.reach` — where the greatest fraction leads to with a scale.
* `Random.greatestAmplitude` — the greatest amplitude whose span can be drawn from.

## Main results

* `Random.lowerScale_spec` — the lowered scale, by induction on the lowerings.
* `Random.exists_between` — a number is drawn, and it is in the span, if the scale is finite.
* `Random.isFinite_symmetric_iff` — when the scale of a span around zero is finite.
-/

set_option relaxedAutoImplicit false
set_option autoImplicit false

namespace NeuralPlan.Random

open Double

/-! ## Fractions -/

/-- The greatest fraction, as a number. -/
noncomputable def topFraction : ℝ := 1 - 2 ^ (-52 : ℤ)

/-- The greatest fraction is positive. -/
theorem topFraction_pos : 0 < topFraction := by
  unfold topFraction
  norm_num

/-- The greatest fraction is below one. -/
theorem topFraction_le_one : topFraction ≤ 1 := by
  unfold topFraction
  norm_num

/-- The double of the greatest fraction. -/
theorem is_greatestFraction : Is greatestFraction topFraction := by
  have his := is_ofBits_fields (b := 0x3feffffffffffffe) (c := 1022) (m := 2 ^ 52 - 2) rfl
    (by norm_num) (by norm_num) (by norm_num)
  have hvalue : ((2 ^ 52 + (2 ^ 52 - 2) : ℕ) : ℝ) * 2 ^ (((1022 : ℕ) : ℤ) - 1075) = topFraction := by
    unfold topFraction
    norm_num
  rwa [hvalue] at his

/-- **A fraction** is drawn from zero up to the greatest one. -/
theorem exists_fraction (s : Stream) : ∃ u, Is (fraction s).1 u ∧ 0 ≤ u ∧ u ≤ topFraction := by
  have hbits : s.nextPair.1.toNat < 2 ^ 64 := s.nextPair.1.toNat_lt
  obtain ⟨m, hm⟩ : ∃ m, m = s.nextPair.1.toNat / 2 ^ 12 := ⟨_, rfl⟩
  have hlt : m < 2 ^ 52 := by omega
  have hword : (s.nextPair.1 >>> 12 ||| 0x3ff0000000000000).toNat = 1023 * 2 ^ 52 + m := by
    rw [UInt64.toNat_or, Nat.or_comm, ← Nat.shiftLeft_eq, Nat.shiftLeft_add_eq_or_of_lt hlt, hm,
      ← Nat.shiftRight_eq_div_pow]
    rfl
  -- The bits are the mantissa of a double from one up to below two.
  have hdraw := (is_ofBits_fields hword hlt (by norm_num) (by norm_num)).sub is_one
  have hvalue : ((2 ^ 52 + m : ℕ) : ℝ) * 2 ^ (((1023 : ℕ) : ℤ) - 1075) - 1 = m * 2 ^ (-52 : ℤ) := by
    push_cast
    norm_num
    ring
  rw [hvalue] at hdraw
  have hmost : (m : ℝ) * 2 ^ (-52 : ℤ) ≤ topFraction := by
    have hcast : (m : ℝ) + 1 ≤ 2 ^ 52 := by exact_mod_cast hlt
    unfold topFraction
    norm_num
    linarith
  have hrepresentable : Representable (m * 2 ^ (-52 : ℤ)) := by
    refine ⟨m, -52, ?_, by norm_num, by norm_num⟩
    rw [Nat.abs_cast]
    exact_mod_cast (hlt.trans (by norm_num)).le
  have hnonneg : (0 : ℝ) ≤ m * 2 ^ (-52 : ℤ) := by positivity
  have hsmall : |(m : ℝ) * 2 ^ (-52 : ℤ)| ≤ greatest := by
    rw [abs_of_nonneg hnonneg]
    exact (hmost.trans topFraction_le_one).trans (zpow_le_greatest (k := 0) (by norm_num))
  have his := hdraw.is hsmall
  rw [nearest_of_representable hrepresentable] at his
  exact ⟨_, his, hnonneg, hmost⟩

/-! ## Scales -/

/-- Where the greatest fraction leads to from `l` with the scale `w`, in rounded arithmetic. -/
noncomputable def reach (l w : ℝ) : ℝ := nearest (nearest (w * topFraction) + l)

variable {low high scale : Float} {l h v w : ℝ}

/-- A greater scale leads further. -/
theorem reach_mono (hvw : v ≤ w) : reach l v ≤ reach l w :=
  nearest_mono (by
    have hproduct := nearest_mono (mul_le_mul_of_nonneg_right hvw topFraction_pos.le)
    linarith)

/-- A scale that is at most the width does not lead beyond the span. -/
theorem reach_le (hw : Representable w) (hh : Representable h) (hnonneg : 0 ≤ w) (hwidth : w ≤ h - l) :
    reach l w ≤ h :=
  nearest_le hh (by
    have hproduct := nearest_le hw (mul_le_of_le_one_right hnonneg topFraction_le_one)
    linarith)

/-- A product with a fraction does not overflow. -/
theorem abs_mul_fraction_le {a : ℝ} (hnonneg : 0 ≤ a) (hle : a ≤ topFraction) (hscale : Is scale w) :
    |a * w| ≤ greatest := by
  rw [abs_mul, abs_of_nonneg hnonneg]
  exact (mul_le_of_le_one_left (abs_nonneg w) (hle.trans topFraction_le_one)).trans hscale.abs_le

/-- A scale is lowered exactly if the greatest fraction leads beyond the span. -/
theorem exceeds_iff (hlow : Is low l) (hhigh : Is high h) (hscale : Is scale w) :
    scale * greatestFraction + low > high ↔ h < reach l w := by
  have hproduct := abs_mul_fraction_le topFraction_pos.le le_rfl hscale
  rw [mul_comm] at hproduct
  exact (((hscale.mul is_greatestFraction).is hproduct).add hlow).lt_iff hhigh

/-- **A lowered scale** does not lead beyond the span, if it starts at most as many doubles above one
that does not as it may be lowered. -/
theorem lowerScale_spec (hlow : Is low l) (hhigh : Is high h) {n : ℕ}
    (hn : reach l (magnitude n) ≤ h) (count : ℕ) (hscale : Is scale v) (hv : 0 ≤ v)
    (hcount : v ≤ magnitude (n + count)) :
    ∃ w, Is (Span.lowerScale low high count scale) w ∧ 0 ≤ w ∧ w ≤ v ∧ reach l w ≤ h := by
  induction count generalizing scale v with
  | zero => exact ⟨v, hscale, hv, le_rfl, (reach_mono hcount).trans hn⟩
  | succ count ih =>
    unfold Span.lowerScale
    split
    next hgt =>
      have hbeyond := (exceeds_iff hlow hhigh hscale).mp hgt
      have hlt : magnitude n < v := by
        by_contra hle
        exact absurd hbeyond (not_lt.mpr ((reach_mono (not_lt.mp hle)).trans hn))
      obtain ⟨hfit, hbits⟩ := hscale.toBits ((magnitude_nonneg n).trans_lt hlt)
      rw [hbits] at hlt hcount
      have hpos : n < scale.toBits.toNat := magnitude_strictMono.lt_iff_lt.mp hlt
      have hmost : scale.toBits.toNat ≤ n + (count + 1) := magnitude_strictMono.le_iff_le.mp hcount
      have hpred : (scale.toBits - 1).toNat = scale.toBits.toNat - 1 :=
        UInt64.toNat_sub_of_le _ _ (UInt64.le_iff_toNat_le.mpr (Nat.succ_le_of_lt (by omega)))
      have hnext := is_ofBits (b := scale.toBits - 1) (by omega)
      rw [hpred] at hnext
      obtain ⟨w, hw, hnonneg, hle, hreach⟩ := ih hnext (magnitude_nonneg _)
        (magnitude_strictMono.monotone (by omega))
      refine ⟨w, hw, hnonneg, hle.trans ?_, hreach⟩
      rw [hbits]
      exact magnitude_strictMono.monotone (by omega)
    next hle =>
      exact ⟨v, hscale, hv, le_rfl, not_lt.mp (mt (exceeds_iff hlow hhigh hscale).mpr hle)⟩

/-- Four doubles on, a number has grown by more than by the division through the greatest fraction. -/
theorem div_topFraction_le (n : ℕ) : magnitude n / topFraction ≤ magnitude (n + 4) := by
  have hstep : ∀ k, magnitude k * (1 + 2 ^ (-53 : ℤ)) ≤ magnitude (k + 1) := magnitude_succ_ge
  have hgrowth : (0 : ℝ) ≤ 1 + 2 ^ (-53 : ℤ) := by positivity
  have hquotient : 1 / topFraction ≤ (1 + 2 ^ (-53 : ℤ)) ^ 4 := by
    unfold topFraction
    norm_num
  calc magnitude n / topFraction = magnitude n * (1 / topFraction) := (mul_one_div _ _).symm
    _ ≤ magnitude n * (1 + 2 ^ (-53 : ℤ)) ^ 4 :=
        mul_le_mul_of_nonneg_left hquotient (magnitude_nonneg n)
    _ = magnitude n * (1 + 2 ^ (-53 : ℤ)) * (1 + 2 ^ (-53 : ℤ)) * (1 + 2 ^ (-53 : ℤ)) *
        (1 + 2 ^ (-53 : ℤ)) := by ring
    _ ≤ magnitude (n + 1) * (1 + 2 ^ (-53 : ℤ)) * (1 + 2 ^ (-53 : ℤ)) * (1 + 2 ^ (-53 : ℤ)) := by
        gcongr
        exact hstep n
    _ ≤ magnitude (n + 2) * (1 + 2 ^ (-53 : ℤ)) * (1 + 2 ^ (-53 : ℤ)) := by
        gcongr
        exact hstep (n + 1)
    _ ≤ magnitude (n + 3) * (1 + 2 ^ (-53 : ℤ)) := by
        gcongr
        exact hstep (n + 2)
    _ ≤ magnitude (n + 4) := hstep (n + 3)

/-- The scale of a span is at most five doubles above one that does not lead beyond the span. -/
theorem exists_magnitude {width : Float} (hh : Representable h) (hle : l ≤ h)
    (hwidth : Is width (nearest (h - l))) :
    ∃ n, reach l (magnitude n) ≤ h ∧ nearest (nearest (h - l) / topFraction) ≤ magnitude (n + 5) := by
  have hnonneg : 0 ≤ h - l := sub_nonneg.mpr hle
  rcases (nearest_nonneg hnonneg).eq_or_lt with hd | hd
  · refine ⟨0, ?_, ?_⟩
    · exact reach_le (representable_magnitude 0) hh (magnitude_nonneg 0)
        (magnitude_zero.trans_le hnonneg)
    · rw [← hd, zero_div, nearest_zero]
      exact magnitude_nonneg _
  · obtain ⟨-, hbits⟩ := hwidth.toBits hd
    have hpos : width.toBits.toNat ≠ 0 := by
      intro h0
      rw [hbits, h0, magnitude_zero] at hd
      exact lt_irrefl _ hd
    obtain ⟨n, hn⟩ := Nat.exists_eq_succ_of_ne_zero hpos
    rw [hn] at hbits
    refine ⟨n, reach_le (representable_magnitude n) hh (magnitude_nonneg n) ?_, ?_⟩
    · -- Otherwise the width would be rounded to at most the double before it.
      by_contra hlt
      have hround := nearest_le (representable_magnitude n) (not_le.mp hlt).le
      rw [hbits] at hround
      exact absurd (magnitude_strictMono.le_iff_le.mp hround) (by omega)
    · rw [hbits]
      exact nearest_le (representable_magnitude _) (div_topFraction_le (n + 1))

/-! ## Spans -/

/-- There is no span whose scale is not finite. -/
theorem closed_eq_badSpan (h : ((high - low) / greatestFraction).isFinite ≠ true) :
    Span.closed low high = stop .badSpan := by
  unfold Span.closed
  dsimp only
  rw [if_neg h, ite_self]

/-- **A span** whose scale is finite. -/
theorem closed_spec (hlow : Is low l) (hhigh : Is high h) (hle : l ≤ h)
    (hfinite : ((high - low) / greatestFraction).isFinite = true) :
    ∃ scale w, Span.closed low high = .ok ⟨low, scale⟩ ∧ Is scale w ∧ 0 ≤ w ∧ reach l w ≤ h := by
  have hwidth : Is (high - low) (nearest (h - l)) :=
    (hhigh.sub hlow).is_of_isFinite (isFinite_of_div hfinite)
  have hscale := (hwidth.div is_greatestFraction topFraction_pos.ne').is_of_isFinite hfinite
  obtain ⟨n, hn, hmost⟩ := exists_magnitude hhigh.representable hle hwidth
  obtain ⟨w, hw, hnonneg, -, hreach⟩ := lowerScale_spec hlow hhigh hn Span.maxLowerings hscale
    (nearest_nonneg (div_nonneg (nearest_nonneg (sub_nonneg.mpr hle)) topFraction_pos.le))
    (hmost.trans (magnitude_strictMono.monotone (by unfold Span.maxLowerings; omega)))
  refine ⟨_, w, ?_, hw, hnonneg, hreach⟩
  unfold Span.closed
  dsimp only
  rw [if_pos ((hlow.le_iff hhigh).mpr hle), if_pos hfinite]

/-- **A number is drawn** from a span whose scale is finite, and it is in the span. -/
theorem exists_between (hlow : Is low l) (hhigh : Is high h) (hle : l ≤ h)
    (hfinite : ((high - low) / greatestFraction).isFinite = true) (s : Stream) :
    ∃ x t v, between low high s = .ok (x, t) ∧ Is x v ∧ l ≤ v ∧ v ≤ h := by
  obtain ⟨scale, w, hclosed, hscale, hw, hreach⟩ := closed_spec hlow hhigh hle hfinite
  obtain ⟨u, hu, hnonneg, hmost⟩ := exists_fraction s
  have hproduct := (hu.mul hscale).is (abs_mul_fraction_le hnonneg hmost hscale)
  have hsum := hproduct.add hlow
  have hleast : l ≤ nearest (nearest (u * w) + l) :=
    le_nearest hlow.representable (by linarith [nearest_nonneg (mul_nonneg hnonneg hw)])
  have hhighest : nearest (nearest (u * w) + l) ≤ h := by
    refine le_trans (nearest_mono ?_) hreach
    rw [mul_comm w]
    linarith [nearest_mono (mul_le_mul_of_nonneg_right hmost hw)]
  have hfits : |nearest (nearest (u * w) + l)| < limit := by
    refine (abs_le.mpr ⟨?_, ?_⟩).trans_lt greatest_lt
    · exact (neg_le_of_abs_le hlow.abs_le).trans hleast
    · exact hhighest.trans (le_of_abs_le hhigh.abs_le)
  refine ⟨_, (fraction s).2, _, ?_, hsum.fits hfits, hleast, hhighest⟩
  rw [between, hclosed]
  rfl

/-- Nothing is drawn from a span whose scale is not finite. -/
theorem between_eq_badSpan (h : ((high - low) / greatestFraction).isFinite ≠ true) (s : Stream) :
    between low high s = stop .badSpan := by
  rw [between, closed_eq_badSpan h]
  rfl

/-- The scale of a span of width at most one is finite. -/
theorem isFinite_scale (hlow : Is low l) (hhigh : Is high h) (hle : l ≤ h) (hwidth : h - l ≤ 1) :
    ((high - low) / greatestFraction).isFinite = true := by
  have hnonneg : 0 ≤ h - l := sub_nonneg.mpr hle
  have hone : (1 : ℝ) ≤ 2 ^ (0 : ℤ) := by norm_num
  have hgreatest := zpow_le_greatest (k := 1) (by norm_num)
  have hdifference := (hhigh.sub hlow).is (by
    rw [abs_of_nonneg hnonneg]
    exact hwidth.trans (hone.trans (zpow_le_greatest (by norm_num))))
  have hround : nearest (h - l) ≤ 1 := nearest_le is_one.representable hwidth
  have hhalf : 1 / 2 ≤ topFraction := by
    unfold topFraction
    norm_num
  refine ((hdifference.div is_greatestFraction topFraction_pos.ne').is ?_).isFinite
  rw [abs_of_nonneg (div_nonneg (nearest_nonneg hnonneg) topFraction_pos.le),
    div_le_iff₀ topFraction_pos]
  calc nearest (h - l) ≤ 2 ^ (1 : ℤ) * topFraction := by
        norm_num
        linarith
    _ ≤ greatest * topFraction := mul_le_mul_of_nonneg_right hgreatest topFraction_pos.le

/-! ## Spans around zero -/

/-- The greatest amplitude whose span can be drawn from. -/
def greatestAmplitude : Float := Float.ofBits 0x7fdffffffffffffd

/-- The greatest amplitude is `(2 ^ 53 - 3) * 2 ^ 970`, three doubles below half of the least number
that is too great. -/
theorem is_greatestAmplitude : Is greatestAmplitude ((2 ^ 53 - 3) * 2 ^ (970 : ℤ)) := by
  have his := is_ofBits_fields (b := 0x7fdffffffffffffd) (c := 2045) (m := 2 ^ 52 - 3) rfl
    (by norm_num) (by norm_num) (by norm_num)
  have hmantissa : ((2 ^ 52 + (2 ^ 52 - 3) : ℕ) : ℝ) = 2 ^ 53 - 3 := by norm_num
  have hexponent : ((2045 : ℕ) : ℤ) - 1075 = 970 := by norm_num
  rwa [hmantissa, hexponent] at his

/-- Twice the number of a unit is that of the next one. -/
theorem double_unit (c : ℝ) : c * 2 ^ (970 : ℤ) + c * 2 ^ (970 : ℤ) = c * 2 ^ (971 : ℤ) := by
  rw [show (971 : ℤ) = 970 + 1 by norm_num, zpow_add_one₀ (by norm_num), ← mul_add, mul_two]

/-- Up to the greatest amplitude, the scale of a span around zero is finite. -/
theorem isFinite_symmetric {x : Float} (hx : Is x v) (hv : 0 ≤ v)
    (hle : v ≤ (2 ^ 53 - 3) * 2 ^ (970 : ℤ)) : ((x - -x) / greatestFraction).isFinite = true := by
  have hunit : (0 : ℝ) ≤ 2 ^ (971 : ℤ) := by positivity
  have hwidth := hx.sub hx.neg
  rw [sub_neg_eq_add] at hwidth
  have hnonneg := add_nonneg hv hv
  have hsum : v + v ≤ (2 ^ 53 - 3) * 2 ^ (971 : ℤ) := (add_le_add hle hle).trans_eq (double_unit _)
  have hround : nearest (v + v) ≤ (2 ^ 53 - 3) * 2 ^ (971 : ℤ) :=
    nearest_le ⟨2 ^ 53 - 3, 971, by norm_num, by norm_num, congrArg (· * _) (by norm_num)⟩ hsum
  have hmost : (2 ^ 53 - 3) * 2 ^ (971 : ℤ) ≤ greatest * topFraction := by
    unfold greatest
    rw [mul_right_comm]
    refine mul_le_mul_of_nonneg_right ?_ hunit
    unfold topFraction
    norm_num
  have hquotient : nearest (v + v) / topFraction ≤ greatest :=
    (div_le_iff₀ topFraction_pos).mpr (hround.trans hmost)
  have hless : greatest * topFraction ≤ greatest :=
    mul_le_of_le_one_right greatest_pos.le topFraction_le_one
  have his := hwidth.is (by
    rw [abs_of_nonneg hnonneg]
    exact hsum.trans (hmost.trans hless))
  refine ((his.div is_greatestFraction topFraction_pos.ne').is ?_).isFinite
  rwa [abs_of_nonneg (div_nonneg (nearest_nonneg hnonneg) topFraction_pos.le)]

/-- From the next double on, it is not: the quotient by the greatest fraction is `2 ^ 1024`. -/
theorem not_isFinite_symmetric {x : Float} (hx : Is x v)
    (hle : (2 ^ 53 - 2) * 2 ^ (970 : ℤ) ≤ v) : ((x - -x) / greatestFraction).isFinite ≠ true := by
  intro hfinite
  have hwidth := (hx.sub hx.neg).is_of_isFinite (isFinite_of_div hfinite)
  rw [sub_neg_eq_add] at hwidth
  have hround : (2 ^ 53 - 2) * 2 ^ (971 : ℤ) ≤ nearest (v + v) :=
    le_nearest ⟨2 ^ 53 - 2, 971, by norm_num, by norm_num, congrArg (· * _) (by norm_num)⟩
      ((double_unit _).symm.trans_le (add_le_add hle hle))
  have hscale := (hwidth.div is_greatestFraction topFraction_pos.ne').is_of_isFinite hfinite
  have hlimit : limit ≤ nearest (v + v) / topFraction := by
    rw [le_div_iff₀ topFraction_pos]
    refine le_trans (le_of_eq ?_) hround
    rw [show limit = 2 ^ (53 : ℤ) * 2 ^ (971 : ℤ) from zpow_add₀ (by norm_num) 53 971, mul_right_comm]
    refine congrArg (· * _) ?_
    unfold topFraction
    norm_num
  exact absurd ((le_nearest (representable_zpow (by norm_num)) hlimit).trans
    (le_of_abs_le hscale.abs_le)) (not_le.mpr greatest_lt)

/-- **The scale of a span around zero** is finite exactly up to the greatest amplitude. -/
theorem isFinite_symmetric_iff {x : Float} (hx : Is x v) (hv : 0 ≤ v) :
    ((x - -x) / greatestFraction).isFinite = true ↔ x ≤ greatestAmplitude := by
  rw [hx.le_iff is_greatestAmplitude]
  refine ⟨fun hfinite => not_lt.mp fun hlt => ?_, isFinite_symmetric hx hv⟩
  have hamplitude : magnitude (2045 * 2 ^ 52 + (2 ^ 52 - 3)) = (2 ^ 53 - 3) * 2 ^ (970 : ℤ) := by
    rw [magnitude_eq (by norm_num), if_neg (by norm_num)]
    exact congrArg₂ (· * 2 ^ ·) (by norm_num) (by norm_num)
  have hnext : magnitude (2045 * 2 ^ 52 + (2 ^ 52 - 2)) = (2 ^ 53 - 2) * 2 ^ (970 : ℤ) := by
    rw [magnitude_eq (by norm_num), if_neg (by norm_num)]
    exact congrArg₂ (· * 2 ^ ·) (by norm_num) (by norm_num)
  rw [← hamplitude] at hlt
  obtain ⟨-, hbits⟩ := hx.toBits ((magnitude_nonneg _).trans_lt hlt)
  rw [hbits, magnitude_strictMono.lt_iff_lt] at hlt
  refine not_isFinite_symmetric hx ?_ hfinite
  rw [← hnext, hbits]
  exact magnitude_strictMono.monotone hlt

end NeuralPlan.Random
