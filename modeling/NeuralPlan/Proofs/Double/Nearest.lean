import Mathlib

/-!
# Rounding to doubles

A double is a whole number of at most 53 bits times a power of two that is not below `2 ^ (-1074)`, and
every operation answers with the double nearest to the exact result, the even one of two that are as
near.  Here this rounding is a function on the real numbers, without a bound on the exponents above.

## Main definitions

* `Double.roundEven` — the nearest whole number.
* `Double.exponent` — the exponent of the last place of a number.
* `Double.nearest` — the nearest double.
* `Double.Representable` — the number is a double.

## Main results

* `Double.nearest_of_representable` — rounding leaves the doubles as they are.
* `Double.nearest_mono` — rounding is monotone.
-/

set_option relaxedAutoImplicit false
set_option autoImplicit false

namespace NeuralPlan.Double

/-- Two is a numeral of the real numbers.  The fact has a name, so that every module writes the same
numeral. -/
instance atLeastTwo : Nat.AtLeastTwo 2 := ⟨le_rfl⟩

/-! ## Whole numbers -/

/-- The whole number nearest to `x`, and the even one of two that are as near. -/
noncomputable def roundEven (x : ℝ) : ℤ :=
  if Int.fract x < 1 / 2 then ⌊x⌋
  else if 1 / 2 < Int.fract x then ⌊x⌋ + 1
  else ⌊x⌋ + ⌊x⌋ % 2

/-- A number is not rounded below the whole number below it. -/
theorem floor_le_roundEven (x : ℝ) : ⌊x⌋ ≤ roundEven x := by
  unfold roundEven
  split_ifs <;> omega

/-- A number is not rounded above the whole number after the one below it. -/
theorem roundEven_le_floor_add_one (x : ℝ) : roundEven x ≤ ⌊x⌋ + 1 := by
  unfold roundEven
  split_ifs <;> omega

/-- A whole number stays as it is. -/
@[simp] theorem roundEven_intCast (n : ℤ) : roundEven n = n := by
  simp [roundEven]

/-- Rounding to whole numbers is monotone. -/
theorem roundEven_mono {x y : ℝ} (h : x ≤ y) : roundEven x ≤ roundEven y := by
  rcases (Int.floor_mono h).lt_or_eq with hlt | heq
  · calc roundEven x ≤ ⌊x⌋ + 1 := roundEven_le_floor_add_one x
      _ ≤ ⌊y⌋ := hlt
      _ ≤ roundEven y := floor_le_roundEven y
  · have hfract : Int.fract x ≤ Int.fract y := by
      rw [Int.fract, Int.fract, heq]
      exact sub_le_sub_right h _
    unfold roundEven
    rw [heq]
    split_ifs <;> first | omega | linarith

/-- Rounding to whole numbers is odd. -/
theorem roundEven_neg (x : ℝ) : roundEven (-x) = -roundEven x := by
  by_cases hx : Int.fract x = 0
  · obtain ⟨n, rfl⟩ := Int.fract_eq_zero_iff.mp hx
    rw [← Int.cast_neg, roundEven_intCast, roundEven_intCast]
  · have hfract : Int.fract (-x) = 1 - Int.fract x := Int.fract_neg hx
    have hfloor : ⌊-x⌋ = -⌊x⌋ - 1 := by
      have hsum : (⌊-x⌋ : ℝ) = ((-⌊x⌋ - 1 : ℤ) : ℝ) := by
        push_cast
        linarith [Int.floor_add_fract x, Int.floor_add_fract (-x)]
      exact_mod_cast hsum
    unfold roundEven
    rw [hfract, hfloor]
    split_ifs <;> first | omega | linarith

/-- What lies between two whole numbers is rounded to a number between them. -/
theorem abs_roundEven_le {x : ℝ} {n : ℤ} (h : |x| ≤ n) : |roundEven x| ≤ n := by
  obtain ⟨hlow, hhigh⟩ := abs_le.mp h
  refine abs_le.mpr ⟨?_, ?_⟩
  · have hround := roundEven_mono hlow
    rwa [← Int.cast_neg, roundEven_intCast] at hround
  · have hround := roundEven_mono hhigh
    rwa [roundEven_intCast] at hround

/-! ## Places -/

/-- The exponent of the last place of a double near `v`. -/
noncomputable def exponent (v : ℝ) : ℤ := max (Int.log 2 |v| - 52) (-1074)

/-- The double nearest to `v`. -/
noncomputable def nearest (v : ℝ) : ℝ := roundEven (v / 2 ^ exponent v) * 2 ^ exponent v

/-- The number is a double, if exponents are not bounded above. -/
def Representable (v : ℝ) : Prop := ∃ m e : ℤ, |m| ≤ 2 ^ 53 ∧ -1074 ≤ e ∧ v = m * 2 ^ e

/-- No last place is finer than `2 ^ (-1074)`. -/
theorem le_exponent (v : ℝ) : -1074 ≤ exponent v := le_max_right _ _

/-- The place depends on the absolute value only. -/
@[simp] theorem exponent_neg (v : ℝ) : exponent (-v) = exponent v := by
  rw [exponent, abs_neg, exponent]

/-- A number has fewer than 54 bits down to its last place. -/
theorem abs_lt_exponent (v : ℝ) : |v| < 2 ^ (exponent v + 53) := by
  have hlog : |v| < (2 : ℕ) ^ (Int.log 2 |v| + 1) := Int.lt_zpow_succ_log_self (by norm_num) _
  refine hlog.trans_le ?_
  rw [Nat.cast_ofNat]
  refine zpow_le_zpow_right₀ (by norm_num) ?_
  have := le_max_left (Int.log 2 |v| - 52) (-1074)
  unfold exponent
  omega

/-- If the last place is not the finest one, then the number has 53 bits down to it. -/
theorem le_abs_of_exponent {v : ℝ} (hv : v ≠ 0) (h : -1074 < exponent v) :
    2 ^ (exponent v + 52) ≤ |v| := by
  have hlog : ((2 : ℕ) : ℝ) ^ Int.log 2 |v| ≤ |v| :=
    Int.zpow_log_le_self (by norm_num) (abs_pos.mpr hv)
  have hplace : exponent v + 52 = Int.log 2 |v| := by
    unfold exponent at h ⊢
    omega
  rw [hplace]
  exact_mod_cast hlog

/-- The place of a number in a binade. -/
theorem exponent_eq {v : ℝ} {k : ℤ} (hlow : 2 ^ k ≤ |v|) (hhigh : |v| < 2 ^ (k + 1)) :
    exponent v = max (k - 52) (-1074) := by
  have hpos : 0 < |v| := lt_of_lt_of_le (by positivity) hlow
  have hk : Int.log 2 |v| = k := by
    refine le_antisymm ?_ ?_
    · refine Int.lt_add_one_iff.mp ((Int.lt_zpow_iff_log_lt (by norm_num) hpos).mp ?_)
      exact_mod_cast hhigh
    · refine (Int.zpow_le_iff_le_log (by norm_num) hpos).mp ?_
      exact_mod_cast hlow
  rw [exponent, hk]

/-- The finest last place is that of all small numbers. -/
theorem exponent_of_lt {v : ℝ} (hv : v ≠ 0) (h : |v| < 2 ^ (-1021 : ℤ)) : exponent v = -1074 := by
  have hlog : Int.log 2 |v| < -1021 := by
    refine (Int.lt_zpow_iff_log_lt (by norm_num) (abs_pos.mpr hv)).mp ?_
    exact_mod_cast h
  unfold exponent
  omega

/-- A smaller number has no coarser last place. -/
theorem exponent_mono {v w : ℝ} (hv : v ≠ 0) (h : |v| ≤ |w|) : exponent v ≤ exponent w := by
  have hlog : Int.log 2 |v| ≤ Int.log 2 |w| := Int.log_mono_right (abs_pos.mpr hv) h
  unfold exponent
  omega

/-! ## The nearest double -/

/-- Rounding is odd. -/
@[simp] theorem nearest_neg (v : ℝ) : nearest (-v) = -nearest v := by
  rw [nearest, exponent_neg, neg_div, roundEven_neg, nearest]
  push_cast
  ring

/-- A multiple of the last place stays as it is. -/
theorem nearest_of_multiple {v : ℝ} {n : ℤ} (h : v = n * 2 ^ exponent v) : nearest v = v := by
  have hunit : (2 : ℝ) ^ exponent v ≠ 0 := by positivity
  have hquot : v / 2 ^ exponent v = n := by
    rw [div_eq_iff hunit]
    exact h
  rw [nearest, hquot, roundEven_intCast]
  exact h.symm

/-- Zero stays as it is. -/
@[simp] theorem nearest_zero : nearest 0 = 0 := nearest_of_multiple (n := 0) (by simp)

/-- A number that is a multiple of a power of two is one of all finer ones. -/
theorem exists_multiple {v : ℝ} {m e k : ℤ} (h : v = m * 2 ^ e) (hk : k ≤ e) :
    ∃ n : ℤ, v = n * 2 ^ k := by
  obtain ⟨j, rfl⟩ := Int.le.dest hk
  refine ⟨m * 2 ^ j, ?_⟩
  rw [h, zpow_add₀ (by norm_num), zpow_natCast]
  push_cast
  ring

/-- **A double stays as it is**. -/
theorem nearest_of_representable {v : ℝ} (h : Representable v) : nearest v = v := by
  obtain ⟨m, e, hm, he, hv⟩ := h
  by_cases hzero : v = 0
  · rw [hzero, nearest_zero]
  rcases le_or_gt (exponent v) e with hle | hlt
  · obtain ⟨n, hn⟩ := exists_multiple hv hle
    exact nearest_of_multiple hn
  -- The number is so great that it has just one bit more than its last place allows: a power of two.
  have hlow := le_abs_of_exponent hzero (he.trans_lt hlt)
  have habs : |v| = |m| * 2 ^ e := by
    rw [hv, abs_mul, abs_of_pos (by positivity : (0 : ℝ) < 2 ^ e), Int.cast_abs]
  have hone : exponent v = e + 1 ∧ |m| = 2 ^ 53 := by
    have hbound : (2 : ℝ) ^ (exponent v + 52) ≤ 2 ^ (e + 53) := by
      rw [habs] at hlow
      refine hlow.trans ?_
      rw [add_comm e, zpow_add₀ (by norm_num)]
      refine mul_le_mul_of_nonneg_right ?_ (by positivity)
      exact_mod_cast hm
    have hexp := (zpow_le_zpow_iff_right₀ (by norm_num : (1 : ℝ) < 2)).mp hbound
    have heq : exponent v = e + 1 := by omega
    refine ⟨heq, le_antisymm hm ?_⟩
    rw [heq, habs, show e + 1 + 52 = 53 + e by ring, zpow_add₀ (by norm_num)] at hlow
    have hcast := le_of_mul_le_mul_right hlow (by positivity : (0 : ℝ) < 2 ^ e)
    exact_mod_cast hcast
  obtain ⟨heq, hm⟩ := hone
  rcases abs_eq (by positivity : (0 : ℤ) ≤ 2 ^ 53) |>.mp hm with rfl | rfl
  · refine nearest_of_multiple (n := 2 ^ 52) ?_
    rw [heq, zpow_add₀ (by norm_num), hv]
    push_cast
    ring
  · refine nearest_of_multiple (n := -2 ^ 52) ?_
    rw [heq, zpow_add₀ (by norm_num), hv]
    push_cast
    ring

/-- Down to its last place, a number is rounded to 53 bits at most. -/
theorem abs_roundEven_exponent_le (v : ℝ) : |roundEven (v / 2 ^ exponent v)| ≤ 2 ^ 53 := by
  refine abs_roundEven_le ?_
  have hunit : (0 : ℝ) < 2 ^ exponent v := by positivity
  rw [abs_div, abs_of_pos hunit, div_le_iff₀ hunit]
  have hlt := abs_lt_exponent v
  rw [add_comm, zpow_add₀ (by norm_num)] at hlt
  refine hlt.le.trans_eq ?_
  norm_num

/-- If the last place is not the finest one, then a positive number is rounded to 53 bits at least. -/
theorem le_roundEven_exponent {v : ℝ} (hv : 0 < v) (h : -1074 < exponent v) :
    2 ^ 52 ≤ roundEven (v / 2 ^ exponent v) := by
  have hlow := le_abs_of_exponent hv.ne' h
  have hunit : (0 : ℝ) < 2 ^ exponent v := by positivity
  rw [abs_of_pos hv, add_comm, zpow_add₀ (by norm_num), ← le_div_iff₀ hunit] at hlow
  rw [← roundEven_intCast (2 ^ 52)]
  refine roundEven_mono (le_trans (le_of_eq ?_) hlow)
  norm_num

/-- What is not negative is rounded to what is not negative. -/
theorem nearest_nonneg {v : ℝ} (h : 0 ≤ v) : 0 ≤ nearest v := by
  have hround := roundEven_mono (div_nonneg h (by positivity : (0 : ℝ) ≤ 2 ^ exponent v))
  rw [show (0 : ℝ) = ((0 : ℤ) : ℝ) by norm_num, roundEven_intCast] at hround
  exact mul_nonneg (by exact_mod_cast hround) (by positivity)

/-- Rounding is monotone on numbers that are not negative. -/
theorem nearest_mono_of_nonneg {v w : ℝ} (hv : 0 ≤ v) (h : v ≤ w) : nearest v ≤ nearest w := by
  rcases hv.eq_or_lt with rfl | hpos
  · rw [nearest_zero]
    exact nearest_nonneg h
  have hw : 0 < w := hpos.trans_le h
  have habs : |v| ≤ |w| := by rwa [abs_of_pos hpos, abs_of_pos hw]
  rcases (exponent_mono hpos.ne' habs).eq_or_lt with heq | hlt
  · have hunit : (0 : ℝ) < 2 ^ exponent w := by positivity
    have hround := roundEven_mono (div_le_div_of_nonneg_right h hunit.le)
    rw [nearest, nearest, heq]
    exact mul_le_mul_of_nonneg_right (by exact_mod_cast hround) hunit.le
  · -- In different binades, the power of two between them separates the two.
    have hbelow : nearest v ≤ 2 ^ (exponent v + 53) := by
      have hround := (le_abs_self _).trans (abs_roundEven_exponent_le v)
      rw [nearest, add_comm, zpow_add₀ (by norm_num)]
      refine mul_le_mul_of_nonneg_right ?_ (by positivity)
      exact_mod_cast hround
    have habove : 2 ^ (exponent w + 52) ≤ nearest w := by
      have hround := le_roundEven_exponent hw ((le_exponent v).trans_lt hlt)
      rw [nearest, add_comm, zpow_add₀ (by norm_num)]
      refine mul_le_mul_of_nonneg_right ?_ (by positivity)
      exact_mod_cast hround
    refine hbelow.trans (le_trans ?_ habove)
    exact zpow_le_zpow_right₀ (by norm_num) (by omega)

/-- **Rounding is monotone**. -/
theorem nearest_mono {v w : ℝ} (h : v ≤ w) : nearest v ≤ nearest w := by
  rcases le_total 0 v with hv | hv
  · exact nearest_mono_of_nonneg hv h
  rcases le_total 0 w with hw | hw
  · refine le_trans ?_ (nearest_nonneg hw)
    have := nearest_nonneg (neg_nonneg.mpr hv)
    rw [nearest_neg] at this
    linarith
  · have := nearest_mono_of_nonneg (neg_nonneg.mpr hw) (neg_le_neg h)
    rw [nearest_neg, nearest_neg] at this
    linarith

/-- What is at most a double is rounded to at most this double. -/
theorem nearest_le {v w : ℝ} (hw : Representable w) (h : v ≤ w) : nearest v ≤ w :=
  (nearest_mono h).trans_eq (nearest_of_representable hw)

/-- What is at least a double is rounded to at least this double. -/
theorem le_nearest {v w : ℝ} (hw : Representable w) (h : w ≤ v) : w ≤ nearest v :=
  (nearest_of_representable hw).symm.trans_le (nearest_mono h)

/-! ## Some doubles -/

/-- Powers of two are doubles. -/
theorem representable_zpow {k : ℤ} (h : -1074 ≤ k) : Representable (2 ^ k) :=
  ⟨1, k, by norm_num, h, by norm_num⟩

/-- Whole numbers of 53 bits are doubles. -/
theorem representable_intCast {n : ℤ} (h : |n| ≤ 2 ^ 53) : Representable n :=
  ⟨n, 0, h, by norm_num, by simp⟩

/-- The negative of a double is one. -/
theorem Representable.neg {v : ℝ} (h : Representable v) : Representable (-v) := by
  obtain ⟨m, e, hm, he, rfl⟩ := h
  exact ⟨-m, e, by rwa [abs_neg], he, by push_cast; ring⟩

end NeuralPlan.Double
