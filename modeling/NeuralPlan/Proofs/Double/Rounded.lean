import NeuralPlan.Proofs.Double.Nearest

/-!
# What the operations on doubles round to

The operations take doubles apart into sign, mantissa and exponent, compute a mantissa that is long
enough with two residual bits, and shift it to its place.  The residual bits tell how the exact result
lies between two neighbours, so that the shifted mantissa is rounded to the nearest double.

## Main definitions

* `Double.Marks` — the exact number that a mantissa with residual bits stands for.
* `Double.number` — the number that a double stands for that is taken apart.
* `Double.Canonical` — the mantissa has its 53 bits, or the exponent is the least one.

## Main results

* `Double.Marks.shiftRight` — shifting keeps what the residual bits tell.
* `Double.Marks.roundedMantissa` — they tell the nearest whole number.
* `Double.isRounded_roundWithAccuracy` — the result is the nearest double.
-/

set_option relaxedAutoImplicit false
set_option autoImplicit false

namespace NeuralPlan.Double

open Float.Model Float.Model.UnpackedFloat

/-! ## Residual bits -/

/-- The number `x` lies as the residual bits tell: at the mantissa, in the half above it, halfway to the
next one, or in the half below the next one. -/
def Marks (em : ExtendedMantissa) (x : ℝ) : Prop :=
  match em.roundBit, em.stickyBit with
  | false, false => x = em.mantissa
  | false, true => (em.mantissa : ℝ) < x ∧ x < em.mantissa + 1 / 2
  | true, false => x = em.mantissa + 1 / 2
  | true, true => (em.mantissa : ℝ) + 1 / 2 < x ∧ x < em.mantissa + 1

namespace Marks

variable {em : ExtendedMantissa} {x : ℝ}

/-- The mantissa is the number rounded down. -/
theorem mantissa_le (h : Marks em x) : (em.mantissa : ℝ) ≤ x ∧ x < em.mantissa + 1 := by
  unfold Marks at h
  split at h
  · exact ⟨h.ge, by linarith⟩
  · exact ⟨h.1.le, by linarith⟩
  · exact ⟨by linarith, by linarith⟩
  · exact ⟨by linarith, h.2⟩

/-- **Shifting by one place** halves the number. -/
theorem shiftRightOne (h : Marks em x) : Marks em.shiftRightOne (x / 2) := by
  obtain ⟨m, r, s⟩ := em
  obtain ⟨k, rfl | rfl⟩ := Nat.even_or_odd' m
  · have hhalf : 2 * k / 2 = k := by omega
    have hbit : 2 * k % 2 = 0 := by omega
    cases r <;> cases s <;>
      simp only [Marks, ExtendedMantissa.shiftRightOne, hhalf, hbit, bne_self_eq_false,
        Bool.or_false, Bool.or_true] at h ⊢ <;>
      push_cast at h
    · rw [h]; ring
    all_goals exact ⟨by linarith, by linarith⟩
  · have hhalf : (2 * k + 1) / 2 = k := by omega
    have hbit : ((2 * k + 1) % 2 != 0) = true := by
      rw [Nat.mul_add_mod]
      rfl
    cases r <;> cases s <;>
      simp only [Marks, ExtendedMantissa.shiftRightOne, hhalf, hbit, Bool.or_false,
        Bool.or_true] at h ⊢ <;>
      push_cast at h
    · rw [h]; ring
    all_goals exact ⟨by linarith, by linarith⟩

/-- **Shifting by several places** divides the number. -/
theorem shiftRight (h : Marks em x) (n : ℕ) : Marks (em >>> n) (x / 2 ^ n) := by
  change Marks (n.repeat ExtendedMantissa.shiftRightOne em) _
  induction n with
  | zero => simpa [Nat.repeat] using h
  | succ n ih =>
    rw [Nat.repeat, pow_succ, ← div_div]
    exact ih.shiftRightOne

/-- **The residual bits tell the nearest whole number**. -/
theorem roundedMantissa (h : Marks em x) : (em.roundedMantissa : ℤ) = roundEven x := by
  obtain ⟨hlow, hhigh⟩ := h.mantissa_le
  have hfloor : ⌊x⌋ = (em.mantissa : ℤ) := Int.floor_eq_iff.mpr ⟨by exact_mod_cast hlow,
    by exact_mod_cast hhigh⟩
  have hfract : Int.fract x = x - em.mantissa := by
    rw [Int.fract, hfloor, Int.cast_natCast]
  unfold roundEven
  rw [hfloor, hfract]
  obtain ⟨m, r, s⟩ := em
  cases r <;> cases s <;>
    simp only [Marks, ExtendedMantissa.roundedMantissa, ExtendedMantissa.accuracy,
      Accuracy.roundToNearestEven] at h ⊢ <;>
    push_cast <;> split_ifs <;> first | rfl | linarith

end Marks

/-! ## Doubles taken apart -/

/-- The number with a sign. -/
def signed (s : Sign) (v : ℝ) : ℝ :=
  match s with
  | .negative => -v
  | .positive => v

/-- The number that a finite double stands for; zero for what is not finite. -/
noncomputable def number : UnpackedFloat → ℝ
  | .finite s m e _ => signed s (m * 2 ^ e)
  | _ => 0

/-- The mantissa has 53 bits, or it has fewer and the exponent is the least one. -/
def Canonical : UnpackedFloat → Prop
  | .finite _ m e _ => m < 2 ^ 53 ∧ -1074 ≤ e ∧ (2 ^ 52 ≤ m ∨ e = -1074)
  | _ => True

/-- The float is finite and canonical, and stands for `v`. -/
structure IsRounded (f : UnpackedFloat) (v : ℝ) : Prop where
  isFinite : f.isFinite = true
  canonical : Canonical f
  number : number f = v

/-- A zero stands for zero. -/
theorem isRounded_zero (s : Sign) : IsRounded (.zero s) 0 := ⟨rfl, trivial, rfl⟩

/-- Rounding commutes with signs. -/
theorem nearest_signed (s : Sign) (v : ℝ) : nearest (signed s v) = signed s (nearest v) := by
  cases s
  · exact nearest_neg v
  · rfl

/-- The exponent that a format asks for. -/
theorem targetExponent_eq (m : ℕ) (e : ℤ) :
    Format.binary64.targetExponent (totalExponent m e) = max (m.log2 + e - 52) (-1074) := by
  have hleast : Format.binary64.minExponent = -1074 := by decide
  have hbits : (Format.binary64.mantissaBits : ℤ) = 53 := by decide
  rw [Format.targetExponent, hleast, hbits, totalExponent]
  congr 1
  ring

/-- The exponent that a mantissa asks for is that of the last place of its number. -/
theorem exponent_eq_targetExponent {m : ℕ} {e : ℤ} {x : ℝ} (hm : m ≠ 0) (hlow : (m : ℝ) ≤ x)
    (hhigh : x < m + 1) :
    exponent (x * 2 ^ e) = Format.binary64.targetExponent (totalExponent m e) := by
  have hunit : (0 : ℝ) < 2 ^ e := by positivity
  have hx : 0 ≤ x := (Nat.cast_nonneg m).trans hlow
  rw [targetExponent_eq]
  refine exponent_eq ?_ ?_
  · rw [abs_of_nonneg (by positivity), zpow_add₀ (by norm_num), zpow_natCast]
    refine mul_le_mul_of_nonneg_right (le_trans ?_ hlow) hunit.le
    exact_mod_cast Nat.log2_self_le hm
  · rw [abs_of_nonneg (by positivity), add_right_comm, zpow_add₀ (by norm_num)]
    refine mul_lt_mul_of_pos_right (hhigh.trans_le ?_) hunit
    have hlog : m + 1 ≤ 2 ^ (m.log2 + 1) := Nat.lt_log2_self
    exact_mod_cast hlog

/-- A mantissa that is rounded may have become one bit too long; then it is a power of two, and moves
by one place. -/
theorem isRounded_of_mantissa (s : Sign) {m : ℕ} {e : ℤ} (hm : m ≤ 2 ^ 53) (he : -1074 ≤ e)
    (hplace : 2 ^ 52 ≤ m ∨ e = -1074) :
    IsRounded
      (let (final, exponent) := shiftToTargetExponent Format.binary64 m e .exact
      if h : final.mantissa = 0 then .zero s
      else .finite s final.mantissa exponent (Nat.pos_of_ne_zero h)) (signed s (m * 2 ^ e)) := by
  rcases hm.lt_or_eq with hlt | rfl
  · have hshift : (Format.binary64.targetExponent (totalExponent m e) - e).toNat = 0 := by
      have hlog : m.log2 < 53 := by
        by_cases hzero : m = 0
        · rw [hzero]
          decide
        · exact (Nat.log2_lt hzero).mpr hlt
      rw [targetExponent_eq]
      omega
    simp only [shiftToTargetExponent, shiftToExponent, hshift]
    change IsRounded (if h : m = 0 then .zero s
      else .finite s m (e + (0 : ℕ)) (Nat.pos_of_ne_zero h)) _
    rw [Nat.cast_zero, add_zero]
    split
    next hzero =>
      rw [hzero, Nat.cast_zero, zero_mul]
      refine ⟨rfl, trivial, ?_⟩
      cases s
      · exact neg_zero.symm
      · rfl
    next => exact ⟨rfl, ⟨hlt, he, hplace⟩, rfl⟩
  · have hshift : (Format.binary64.targetExponent (totalExponent (2 ^ 53) e) - e).toNat = 1 := by
      rw [targetExponent_eq, Nat.log2_two_pow]
      omega
    simp only [shiftToTargetExponent, shiftToExponent, hshift]
    change IsRounded (.finite s (2 ^ 52) (e + (1 : ℕ)) _) _
    refine ⟨rfl, ⟨by norm_num, by omega, .inl le_rfl⟩, ?_⟩
    have hvalue : ((2 ^ 52 : ℕ) : ℝ) * 2 ^ (e + (1 : ℕ)) = ((2 ^ 53 : ℕ) : ℝ) * 2 ^ e := by
      rw [zpow_add₀ (by norm_num)]
      push_cast
      ring
    exact congrArg (signed s) hvalue

/-- The exponent that a mantissa with an accuracy asks for is that of the last place of the number. -/
theorem place_eq {m : ℕ} {e : ℤ} {acc : Accuracy} {x : ℝ}
    (hx : Marks (.ofMantissaAndAccuracy m acc) x) (hm : m ≠ 0 ∨ e ≤ -1074) :
    0 < x * 2 ^ e ∧ Format.binary64.targetExponent (totalExponent m e) = exponent (x * 2 ^ e) ∨
      x * 2 ^ e = 0 ∧ Format.binary64.targetExponent (totalExponent m e) = -1074 := by
  have hmantissa : (ExtendedMantissa.ofMantissaAndAccuracy m acc).mantissa = m := by
    unfold ExtendedMantissa.ofMantissaAndAccuracy
    split <;> rfl
  obtain ⟨hlow, hhigh⟩ := hx.mantissa_le
  rw [hmantissa] at hlow hhigh
  by_cases hzero : m = 0
  · have he : e ≤ -1074 := hm.resolve_left (not_not.mpr hzero)
    have htarget : Format.binary64.targetExponent (totalExponent m e) = -1074 := by
      rw [targetExponent_eq, hzero]
      simp only [Nat.log2_zero, Nat.cast_zero]
      omega
    rw [hzero, Nat.cast_zero] at hlow
    rw [hzero, Nat.cast_zero, zero_add] at hhigh
    rcases hlow.eq_or_lt with rfl | hpos
    · exact .inr ⟨zero_mul _, htarget⟩
    · refine .inl ⟨by positivity, htarget.trans (exponent_of_lt (by positivity) ?_).symm⟩
      rw [abs_of_pos (by positivity)]
      calc x * 2 ^ e < 1 * 2 ^ e := mul_lt_mul_of_pos_right hhigh (by positivity)
        _ = 2 ^ e := one_mul _
        _ ≤ 2 ^ (-1021 : ℤ) := zpow_le_zpow_right₀ (by norm_num) (by omega)
  · have hpos : 0 < x := (Nat.cast_pos.mpr (Nat.pos_of_ne_zero hzero)).trans_le hlow
    exact .inl ⟨by positivity, (exponent_eq_targetExponent hzero hlow hhigh).symm⟩

/-- The mantissa that is rounded to its place is not too long, and if there is a finer place, then it
is not too short. -/
theorem rounded_bounds {v : ℝ} {r : ℕ} {t : ℤ}
    (ht : 0 < v ∧ t = exponent v ∨ v = 0 ∧ t = -1074) (hr : (r : ℤ) = roundEven (v / 2 ^ t)) :
    r ≤ 2 ^ 53 ∧ -1074 ≤ t ∧ (2 ^ 52 ≤ r ∨ t = -1074) ∧ (r : ℝ) * 2 ^ t = nearest v := by
  rcases ht with ⟨hv, rfl⟩ | ⟨rfl, rfl⟩
  · have hlong := (le_abs_self _).trans (abs_roundEven_exponent_le v)
    rw [← hr] at hlong
    refine ⟨by exact_mod_cast hlong, le_exponent v, ?_, ?_⟩
    · rcases (le_exponent v).eq_or_lt with hleast | hfiner
      · exact .inr hleast.symm
      · have hshort := le_roundEven_exponent hv hfiner
        rw [← hr] at hshort
        exact .inl (by exact_mod_cast hshort)
    · rw [nearest, ← hr, Int.cast_natCast]
  · have hzero : r = 0 := by
      have hround := roundEven_intCast 0
      rw [Int.cast_zero] at hround
      rw [zero_div, hround] at hr
      exact_mod_cast hr
    rw [hzero, nearest_zero]
    exact ⟨by norm_num, le_rfl, .inr rfl, by simp⟩

/-- **The operations round to the nearest double**: the mantissa with the accuracy tells the number
`x`, and is long enough for its place. -/
theorem isRounded_roundWithAccuracy (s : Sign) {m : ℕ} {e : ℤ} {acc : Accuracy} {x : ℝ}
    (hx : Marks (.ofMantissaAndAccuracy m acc) x)
    (he : e ≤ Format.binary64.targetExponent (totalExponent m e)) (hm : m ≠ 0 ∨ e ≤ -1074) :
    IsRounded (roundWithAccuracy Format.binary64 s m e acc)
      (signed s (nearest (x * 2 ^ e))) := by
  obtain ⟨t, ht⟩ : ∃ t, t = Format.binary64.targetExponent (totalExponent m e) := ⟨_, rfl⟩
  obtain ⟨n, hn⟩ : ∃ n, n = (t - e).toNat := ⟨_, rfl⟩
  have hexp : e + (n : ℤ) = t := by omega
  have hplace := place_eq hx hm
  rw [← ht] at hplace
  have hround : ((ExtendedMantissa.ofMantissaAndAccuracy m acc >>> n).roundedMantissa : ℤ) =
      roundEven (x * 2 ^ e / 2 ^ t) := by
    rw [(hx.shiftRight n).roundedMantissa, ← hexp, zpow_add₀ (by norm_num), zpow_natCast]
    congr 1
    field_simp
  obtain ⟨hlong, hleast, hshort, hnearest⟩ := rounded_bounds hplace hround
  have hfinal := isRounded_of_mantissa s hlong hleast hshort
  rw [← hnearest, ← hexp]
  rw [← hexp] at hfinal
  unfold roundWithAccuracy
  rw [shiftToTargetExponent, shiftToExponent, ← ht, ← hn]
  exact hfinal

end NeuralPlan.Double
