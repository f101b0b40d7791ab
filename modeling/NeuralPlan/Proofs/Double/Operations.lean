import NeuralPlan.Proofs.Double.Rounded

/-!
# The operations on doubles taken apart

Each operation on finite doubles answers with the double nearest to the exact result, as long as the
exponents are not bounded above.

## Main results

* `Double.IsRounded.mul`, `Double.IsRounded.div`, `Double.IsRounded.add`, `Double.IsRounded.sub`,
  `Double.IsRounded.sqrt`, `Double.isRounded_ofNat` — one for each operation.
-/

set_option relaxedAutoImplicit false
set_option autoImplicit false

namespace NeuralPlan.Double

open Float.Model Float.Model.UnpackedFloat

/-! ## Signs -/

/-- A sign keeps the absolute value. -/
theorem abs_signed (s : Sign) {v : ℝ} (hv : 0 ≤ v) : |signed s v| = v := by
  cases s
  · exact (abs_neg v).trans (abs_of_nonneg hv)
  · exact abs_of_nonneg hv

/-- Signs are multiplied. -/
theorem signed_mul (s t : Sign) (v w : ℝ) : signed s v * signed t w = signed (s * t) (v * w) := by
  cases s <;> cases t
  · exact neg_mul_neg v w
  · exact neg_mul v w
  · exact mul_neg v w
  · rfl

/-- Signs are divided. -/
theorem signed_div (s t : Sign) (v w : ℝ) : signed s v / signed t w = signed (s / t) (v / w) := by
  cases s <;> cases t
  · exact neg_div_neg_eq v w
  · exact neg_div w v
  · exact div_neg v
  · rfl

/-- A signed mantissa. -/
theorem signed_apply (s : Sign) (m : ℕ) (c : ℝ) :
    ((s.apply (m : ℤ) : ℤ) : ℝ) * c = signed s (m * c) := by
  cases s
  · simp [Sign.apply, signed]
  · simp [Sign.apply, signed]

/-- Zero has no sign. -/
@[simp] theorem signed_zero (s : Sign) : signed s 0 = 0 := by
  cases s
  · exact neg_zero
  · rfl

/-- A zero stands for zero, whatever its sign is called. -/
theorem number_zero (s : Sign) : number (.zero s) = 0 := rfl

/-! ## Canonical doubles -/

/-- A canonical mantissa is long enough for its exponent. -/
theorem Canonical.log2 {s : Sign} {m : ℕ} {e : ℤ} {hm : 0 < m} (h : Canonical (.finite s m e hm)) :
    -1074 ≤ e ∧ m.log2 < 53 ∧ (52 ≤ m.log2 ∨ e = -1074) :=
  ⟨h.2.1, (Nat.log2_lt hm.ne').mpr h.1, h.2.2.imp_left (Nat.le_log2 hm.ne').mpr⟩

/-- A canonical double stands for a double. -/
theorem IsRounded.representable {f : UnpackedFloat} {v : ℝ} (h : IsRounded f v) :
    Representable v := by
  obtain ⟨hfinite, hcanonical, rfl⟩ := h
  cases f with
  | infinity s => cases hfinite
  | notANumber => cases hfinite
  | zero s => exact ⟨0, 0, by norm_num, by norm_num, by rw [Int.cast_zero, zero_mul]; rfl⟩
  | finite s m e hm =>
    refine ⟨s.apply m, e, ?_, hcanonical.2.1, (signed_apply s m _).symm⟩
    have hlt : (m : ℤ) < 2 ^ 53 := by exact_mod_cast hcanonical.1
    cases s <;> simp only [Sign.apply, abs_neg, Nat.abs_cast] <;> exact hlt.le

/-! ## Rounding of exact results -/

/-- An exact mantissa. -/
theorem marks_exact (m : ℕ) : Marks (.ofMantissaAndAccuracy m .exact) m := rfl

/-- A mantissa with the rest of a division. -/
theorem marks_fraction (m : ℕ) {r d : ℕ} (h : r < d) :
    Marks (.ofMantissaAndAccuracy m (accuracyOfFraction r d)) (m + r / d) := by
  have hd : (0 : ℝ) < d := by exact_mod_cast (Nat.zero_le r).trans_lt h
  have hr : (r : ℝ) / d < 1 := (div_lt_one hd).mpr (by exact_mod_cast h)
  unfold accuracyOfFraction
  split
  next hzero =>
    rw [hzero, Nat.cast_zero, zero_div, add_zero]
    exact marks_exact m
  next hpos =>
    have hfraction : (0 : ℝ) < r / d := div_pos (by exact_mod_cast Nat.pos_of_ne_zero hpos) hd
    rcases hcmp : compare (2 * r) d with _ | _ | _
    · change (m : ℝ) < m + r / d ∧ (m : ℝ) + r / d < m + 1 / 2
      have hlt : (r : ℝ) / d < 1 / 2 := by
        have : ((2 * r : ℕ) : ℝ) < d := by exact_mod_cast Nat.compare_eq_lt.mp hcmp
        push_cast at this
        rw [div_lt_div_iff₀ hd (by norm_num)]
        linarith
      exact ⟨by linarith, by linarith⟩
    · have heq : (r : ℝ) / d = 1 / 2 := by
        have : ((2 * r : ℕ) : ℝ) = d := by exact_mod_cast Nat.compare_eq_eq.mp hcmp
        push_cast at this
        rw [div_eq_div_iff hd.ne' (by norm_num)]
        linarith
      rw [heq]
      rfl
    · change (m : ℝ) + 1 / 2 < m + r / d ∧ (m : ℝ) + r / d < m + 1
      have hgt : 1 / 2 < (r : ℝ) / d := by
        have : (d : ℝ) < ((2 * r : ℕ) : ℝ) := by exact_mod_cast Nat.compare_eq_gt.mp hcmp
        push_cast at this
        rw [div_lt_div_iff₀ (by norm_num) hd]
        linarith
      exact ⟨by linarith, by linarith⟩

/-- Shifting makes a mantissa longer. -/
theorem log2_shiftLeft {m : ℕ} (hm : m ≠ 0) (k : ℕ) : (m <<< k).log2 = m.log2 + k := by
  rw [Nat.shiftLeft_eq, Nat.log2_eq_iff (by positivity), add_right_comm, pow_add, pow_add]
  exact ⟨Nat.mul_le_mul_right _ (Nat.log2_self_le hm),
    Nat.mul_lt_mul_of_pos_right Nat.lt_log2_self (by positivity)⟩

/-- A mantissa that is long enough is rounded, and one that is not is made longer first. -/
theorem isRounded_round (s : Sign) {m : ℕ} (hm : m ≠ 0) (e : ℤ) :
    IsRounded (UnpackedFloat.round Format.binary64 s m e) (signed s (nearest (m * 2 ^ e))) := by
  obtain ⟨k, hk⟩ : ∃ k, k = (e - Format.binary64.targetExponent (totalExponent m e)).toNat :=
    ⟨_, rfl⟩
  have hlong : m <<< k ≠ 0 := by
    rw [Nat.shiftLeft_eq]
    positivity
  have hlog := log2_shiftLeft hm k
  have hvalue : ((m <<< k : ℕ) : ℝ) * 2 ^ (e - k) = m * 2 ^ e := by
    rw [Nat.shiftLeft_eq, zpow_sub₀ (by norm_num), zpow_natCast]
    push_cast
    field_simp
  unfold UnpackedFloat.round decreaseExponent
  dsimp only
  rw [← hk, ← hvalue]
  refine isRounded_roundWithAccuracy s (marks_exact _) ?_ (.inl hlong)
  rw [targetExponent_eq] at hk ⊢
  omega

/-- An exact sum is rounded. -/
theorem isRounded_normalize (m e : ℤ) (s : Sign) :
    IsRounded (UnpackedFloat.normalize Format.binary64 m e s) (nearest (m * 2 ^ e)) := by
  unfold UnpackedFloat.normalize
  split
  next h =>
    have hneg : m < 0 := Int.compare_eq_lt.mp h
    have hround := isRounded_round .negative (m := (-m).toNat) (by omega) e
    have hcast : (((-m).toNat : ℕ) : ℝ) = -m := by
      have : (((-m).toNat : ℤ) : ℝ) = ((-m : ℤ) : ℝ) := by
        rw [Int.toNat_of_nonneg (by omega)]
      push_cast at this
      exact this
    rw [hcast, neg_mul, nearest_neg, signed, neg_neg] at hround
    exact hround
  next h =>
    obtain rfl : m = 0 := Int.compare_eq_eq.mp h
    rw [Int.cast_zero, zero_mul, nearest_zero]
    exact isRounded_zero s
  next h =>
    have hpos : 0 < m := Int.compare_eq_gt.mp h
    have hround := isRounded_round .positive (m := m.toNat) (by omega) e
    have hcast : ((m.toNat : ℕ) : ℝ) = m := by
      have : ((m.toNat : ℤ) : ℝ) = (m : ℝ) := by rw [Int.toNat_of_nonneg hpos.le]
      exact_mod_cast this
    rw [hcast] at hround
    exact hround

/-! ## Products and quotients -/

variable {f g : UnpackedFloat} {v w : ℝ}

/-- The product of two finite doubles, taken apart. -/
theorem isRounded_mul_finite (s t : Sign) {m n : ℕ} {e k : ℤ} (hm : 0 < m) (hn : 0 < n)
    (he : e + k ≤ Format.binary64.targetExponent (totalExponent (m * n) (e + k))) :
    IsRounded (UnpackedFloat.mul Format.binary64 (.finite s m e hm) (.finite t n k hn))
      (nearest (signed s (m * 2 ^ e) * signed t (n * 2 ^ k))) := by
  have hround := isRounded_roundWithAccuracy (s * t) (marks_exact (m * n)) he
    (.inl (Nat.mul_pos hm hn).ne')
  have hvalue : ((m * n : ℕ) : ℝ) * 2 ^ (e + k) = m * 2 ^ e * (n * 2 ^ k) := by
    rw [zpow_add₀ (by norm_num)]
    push_cast
    ring
  rw [hvalue] at hround
  rw [signed_mul, nearest_signed]
  exact hround

/-- **A product** is rounded. -/
theorem IsRounded.mul (hf : IsRounded f v) (hg : IsRounded g w) :
    IsRounded (UnpackedFloat.mul Format.binary64 f g) (nearest (v * w)) := by
  obtain ⟨hfinite, hcanonical, rfl⟩ := hf
  obtain ⟨hfinite', hcanonical', rfl⟩ := hg
  cases f with
  | infinity s => cases hfinite
  | notANumber => cases hfinite
  | zero s =>
    rw [number_zero, zero_mul, nearest_zero]
    cases g with
    | infinity t => cases hfinite'
    | notANumber => cases hfinite'
    | zero t => exact isRounded_zero _
    | finite t n k hn => exact isRounded_zero _
  | finite s m e hm =>
    cases g with
    | infinity t => cases hfinite'
    | notANumber => cases hfinite'
    | zero t =>
      rw [number_zero, mul_zero, nearest_zero]
      exact isRounded_zero _
    | finite t n k hn =>
      refine isRounded_mul_finite s t hm hn ?_
      obtain ⟨he, -, hlong⟩ := hcanonical.log2
      obtain ⟨hk, hlt, hlong'⟩ := hcanonical'.log2
      have hlog : m.log2 + n.log2 ≤ (m * n).log2 := by
        rw [Nat.le_log2 (Nat.mul_pos hm hn).ne', pow_add]
        exact Nat.mul_le_mul (Nat.log2_self_le hm.ne') (Nat.log2_self_le hn.ne')
      rw [targetExponent_eq]
      omega

/-- The quotient of two mantissas that is computed has its 53 bits, or it reaches down to the finest
place. -/
theorem divCore_long {m n : ℕ} (hm : m ≠ 0) (hn : n ≠ 0) (e k : ℤ) :
    let (q, t, _) := divCore Format.binary64 m e n k
    t ≤ -1074 ∨ 52 ≤ q.log2 := by
  have hbits : (Format.binary64.mantissaBits : ℤ) = 53 := by decide
  have hleast : Format.binary64.minExponent = -1074 := by decide
  dsimp only [divCore, Format.targetExponent, totalExponent]
  rw [hbits, hleast]
  obtain ⟨t, ht⟩ : ∃ t, t = min (e - k)
    (max (m.log2 + 1 + e - (n.log2 + 1 + k) - 53) (-1074)) := ⟨_, rfl⟩
  obtain ⟨c, hc⟩ : ∃ c, c = (e - k - t).toNat := ⟨_, rfl⟩
  rw [← ht, ← hc]
  rcases le_or_gt t (-1074) with hlow | hhigh
  · exact .inl hlow
  · have hlog : 53 + n.log2 ≤ m.log2 + c := by omega
    have hlong : 2 ^ 52 ≤ m <<< c / n := by
      rw [Nat.le_div_iff_mul_le (Nat.pos_of_ne_zero hn), Nat.shiftLeft_eq]
      calc 2 ^ 52 * n ≤ 2 ^ 52 * 2 ^ (n.log2 + 1) := Nat.mul_le_mul_left _ Nat.lt_log2_self.le
        _ = 2 ^ (53 + n.log2) := by rw [← pow_add]; congr 1; omega
        _ ≤ 2 ^ (m.log2 + c) := Nat.pow_le_pow_right (by norm_num) hlog
        _ = 2 ^ m.log2 * 2 ^ c := pow_add 2 _ _
        _ ≤ m * 2 ^ c := Nat.mul_le_mul_right _ (Nat.log2_self_le hm)
    exact .inr ((Nat.le_log2 (by omega)).mpr hlong)

/-- The quotient of two finite doubles, taken apart. -/
theorem isRounded_div_finite (s t : Sign) {m n : ℕ} {e k : ℤ} (hm : 0 < m) (hn : 0 < n) :
    IsRounded (UnpackedFloat.div Format.binary64 (.finite s m e hm) (.finite t n k hn))
      (nearest (signed s (m * 2 ^ e) / signed t (n * 2 ^ k))) := by
  have hlong := divCore_long hm.ne' hn.ne' e k
  dsimp only [divCore] at hlong
  obtain ⟨c, hc⟩ : ∃ c, c = min (e - k)
    (Format.binary64.targetExponent (totalExponent m e - totalExponent n k)) := ⟨_, rfl⟩
  obtain ⟨j, hj⟩ : ∃ j, j = (e - k - c).toNat := ⟨_, rfl⟩
  rw [← hc, ← hj] at hlong
  have hn' : (n : ℝ) ≠ 0 := by exact_mod_cast hn.ne'
  have hvalue : (((m <<< j / n : ℕ) : ℝ) + (m <<< j % n : ℕ) / n) * 2 ^ c =
      m * 2 ^ e / (n * 2 ^ k) := by
    have hdivision : ((m <<< j / n : ℕ) : ℝ) + (m <<< j % n : ℕ) / n = (m * 2 ^ j : ℕ) / n := by
      have hsum : n * (m <<< j / n) + m <<< j % n = m * 2 ^ j := by
        rw [Nat.div_add_mod, Nat.shiftLeft_eq]
      rw [← hsum]
      push_cast
      field_simp
    have hexp : (2 : ℝ) ^ e = 2 ^ j * 2 ^ c * 2 ^ k := by
      rw [← zpow_natCast, ← zpow_add₀ (by norm_num), ← zpow_add₀ (by norm_num)]
      congr 1
      omega
    rw [hdivision, hexp]
    push_cast
    field_simp
  have hround := isRounded_roundWithAccuracy (s / t)
    (marks_fraction (m <<< j / n) (Nat.mod_lt (m <<< j) hn)) (e := c) ?_ ?_
  · rw [hvalue] at hround
    rw [signed_div, nearest_signed]
    unfold UnpackedFloat.div
    dsimp only [divCore]
    rw [← hc, ← hj]
    exact hround
  · rw [targetExponent_eq]
    omega
  · refine hlong.symm.imp_left fun hlog hzero => ?_
    rw [hzero] at hlog
    simp at hlog

/-- **A quotient** is rounded. -/
theorem IsRounded.div (hf : IsRounded f v) (hg : IsRounded g w) (hw : w ≠ 0) :
    IsRounded (UnpackedFloat.div Format.binary64 f g) (nearest (v / w)) := by
  obtain ⟨hfinite, -, rfl⟩ := hf
  obtain ⟨hfinite', -, rfl⟩ := hg
  cases f with
  | infinity s => cases hfinite
  | notANumber => cases hfinite
  | zero s =>
    rw [number_zero, zero_div, nearest_zero]
    cases g with
    | infinity t => cases hfinite'
    | notANumber => cases hfinite'
    | zero t => exact absurd rfl hw
    | finite t n k hn => exact isRounded_zero _
  | finite s m e hm =>
    cases g with
    | infinity t => cases hfinite'
    | notANumber => cases hfinite'
    | zero t => exact absurd rfl hw
    | finite t n k hn => exact isRounded_div_finite s t hm hn

/-! ## Sums and differences -/

/-- The mantissas of two finite doubles at one exponent. -/
theorem decreaseExponent_value (m : ℕ) {e c : ℤ} (h : c ≤ e) :
    ((decreaseExponent m e c).1 : ℝ) * 2 ^ c = m * 2 ^ e := by
  dsimp only [decreaseExponent]
  rw [Nat.shiftLeft_eq]
  push_cast
  rw [mul_assoc, ← zpow_natCast, ← zpow_add₀ (by norm_num)]
  congr 2
  omega

/-- The sum of two finite doubles, taken apart. -/
theorem isRounded_add_finite (s t : Sign) {m n : ℕ} {e k : ℤ} (hm : 0 < m) (hn : 0 < n) :
    IsRounded (UnpackedFloat.add Format.binary64 (.finite s m e hm) (.finite t n k hn))
      (nearest (signed s (m * 2 ^ e) + signed t (n * 2 ^ k))) := by
  have hround := isRounded_normalize (s.apply (decreaseExponent m e (min e k)).1 +
    t.apply (decreaseExponent n k (min e k)).1) (min e k) .positive
  rw [Int.cast_add, add_mul, signed_apply, signed_apply,
    decreaseExponent_value m (min_le_left e k), decreaseExponent_value n (min_le_right e k)]
    at hround
  exact hround

/-- The difference of two finite doubles, taken apart. -/
theorem isRounded_sub_finite (s t : Sign) {m n : ℕ} {e k : ℤ} (hm : 0 < m) (hn : 0 < n) :
    IsRounded (UnpackedFloat.sub Format.binary64 (.finite s m e hm) (.finite t n k hn))
      (nearest (signed s (m * 2 ^ e) - signed t (n * 2 ^ k))) := by
  have hround := isRounded_normalize (s.apply (decreaseExponent m e (min e k)).1 -
    t.apply (decreaseExponent n k (min e k)).1) (min e k) .positive
  rw [Int.cast_sub, sub_mul, signed_apply, signed_apply,
    decreaseExponent_value m (min_le_left e k), decreaseExponent_value n (min_le_right e k)]
    at hround
  exact hround

/-- **A sum** is rounded. -/
theorem IsRounded.add (hf : IsRounded f v) (hg : IsRounded g w) :
    IsRounded (UnpackedFloat.add Format.binary64 f g) (nearest (v + w)) := by
  have hv := hf.representable
  have hw := hg.representable
  obtain ⟨hfinite, hcanonical, rfl⟩ := hf
  obtain ⟨hfinite', hcanonical', rfl⟩ := hg
  cases f with
  | infinity s => cases hfinite
  | notANumber => cases hfinite
  | zero s =>
    rw [number_zero, zero_add, nearest_of_representable hw]
    cases g with
    | infinity t => cases hfinite'
    | notANumber => cases hfinite'
    | zero t => cases s <;> cases t <;> exact isRounded_zero _
    | finite t n k hn => exact ⟨rfl, hcanonical', rfl⟩
  | finite s m e hm =>
    cases g with
    | infinity t => cases hfinite'
    | notANumber => cases hfinite'
    | zero t =>
      rw [number_zero, add_zero, nearest_of_representable hv]
      exact ⟨rfl, hcanonical, rfl⟩
    | finite t n k hn => exact isRounded_add_finite s t hm hn

/-- **A difference** is rounded. -/
theorem IsRounded.sub (hf : IsRounded f v) (hg : IsRounded g w) :
    IsRounded (UnpackedFloat.sub Format.binary64 f g) (nearest (v - w)) := by
  have hv := hf.representable
  have hw := hg.representable
  obtain ⟨hfinite, hcanonical, rfl⟩ := hf
  obtain ⟨hfinite', hcanonical', rfl⟩ := hg
  cases f with
  | infinity s => cases hfinite
  | notANumber => cases hfinite
  | zero s =>
    rw [number_zero, zero_sub, nearest_neg, nearest_of_representable hw]
    cases g with
    | infinity t => cases hfinite'
    | notANumber => cases hfinite'
    | zero t =>
      rw [number_zero, neg_zero]
      cases s <;> cases t <;> exact isRounded_zero _
    | finite t n k hn =>
      refine ⟨rfl, hcanonical', ?_⟩
      cases t
      · exact (neg_neg _).symm
      · rfl
  | finite s m e hm =>
    cases g with
    | infinity t => cases hfinite'
    | notANumber => cases hfinite'
    | zero t =>
      rw [number_zero, sub_zero, nearest_of_representable hv]
      exact ⟨rfl, hcanonical, rfl⟩
    | finite t n k hn => exact isRounded_sub_finite s t hm hn

/-! ## Square roots -/

/-- A mantissa with the rest of a square root. -/
theorem marks_sqrt (m : ℕ) :
    Marks (.ofMantissaAndAccuracy (Nat.sqrt m) (if m - Nat.sqrt m * Nat.sqrt m = 0 then .exact
      else .inexact (if m - Nat.sqrt m * Nat.sqrt m ≤ Nat.sqrt m then .lt else .gt))) √m := by
  have hle : Nat.sqrt m * Nat.sqrt m ≤ m := Nat.sqrt_le m
  have hlow : (Nat.sqrt m : ℝ) ≤ √m := Real.nat_sqrt_le_real_sqrt
  have hhigh : √(m : ℝ) < Nat.sqrt m + 1 := Real.real_sqrt_lt_nat_sqrt_succ
  have hsquare : √(m : ℝ) * √m = m := Real.mul_self_sqrt (Nat.cast_nonneg m)
  have hroot : (0 : ℝ) ≤ Nat.sqrt m := Nat.cast_nonneg _
  have hcast : ((Nat.sqrt m * Nat.sqrt m : ℕ) : ℝ) = Nat.sqrt m * Nat.sqrt m := Nat.cast_mul _ _
  split
  next hzero =>
    have hexact : (m : ℝ) = Nat.sqrt m * Nat.sqrt m := by
      rw [← hcast]
      exact_mod_cast (by omega : m = Nat.sqrt m * Nat.sqrt m)
    change √(m : ℝ) = Nat.sqrt m
    nlinarith
  next hpos =>
    have hgap : (Nat.sqrt m : ℝ) * Nat.sqrt m + 1 ≤ m := by
      rw [← hcast]
      exact_mod_cast (by omega : Nat.sqrt m * Nat.sqrt m + 1 ≤ m)
    split
    next hrest =>
      have hbelow : (m : ℝ) ≤ Nat.sqrt m * Nat.sqrt m + Nat.sqrt m := by
        rw [← hcast]
        exact_mod_cast (by omega : m ≤ Nat.sqrt m * Nat.sqrt m + Nat.sqrt m)
      change (Nat.sqrt m : ℝ) < √m ∧ √(m : ℝ) < Nat.sqrt m + 1 / 2
      exact ⟨by nlinarith, by nlinarith⟩
    next hrest =>
      have habove : (Nat.sqrt m : ℝ) * Nat.sqrt m + Nat.sqrt m + 1 ≤ m := by
        rw [← hcast]
        exact_mod_cast (by omega : Nat.sqrt m * Nat.sqrt m + Nat.sqrt m + 1 ≤ m)
      change (Nat.sqrt m : ℝ) + 1 / 2 < √m ∧ √(m : ℝ) < Nat.sqrt m + 1
      exact ⟨by nlinarith, hhigh⟩

/-- The root of a mantissa that was shifted to 105 bits has 53 bits. -/
theorem le_log2_sqrt {m j : ℕ} (hm : 0 < m) (hlog : 104 ≤ m.log2 + j) :
    52 ≤ (Nat.sqrt (m <<< j)).log2 := by
  have hsquare : 2 ^ 52 * 2 ^ 52 ≤ m <<< j := by
    rw [Nat.shiftLeft_eq]
    calc 2 ^ 52 * 2 ^ 52 = 2 ^ 104 := by norm_num
      _ ≤ 2 ^ (m.log2 + j) := Nat.pow_le_pow_right (by norm_num) hlog
      _ = 2 ^ m.log2 * 2 ^ j := pow_add 2 _ _
      _ ≤ m * 2 ^ j := Nat.mul_le_mul_right _ (Nat.log2_self_le hm.ne')
  have hroot : 2 ^ 52 ≤ Nat.sqrt (m <<< j) := Nat.le_sqrt.mpr hsquare
  exact (Nat.le_log2 (by omega)).mpr hroot

/-- The square root of a positive double, taken apart. -/
theorem isRounded_sqrt_finite {m : ℕ} {e : ℤ} (hm : 0 < m) :
    IsRounded (UnpackedFloat.sqrt Format.binary64 (.finite .positive m e hm))
      (nearest √(m * 2 ^ e)) := by
  have hbits : (Format.binary64.mantissaBits : ℤ) = 53 := by decide
  have hleast : Format.binary64.minExponent = -1074 := by decide
  obtain ⟨c, hc⟩ : ∃ c, c = min (e.ediv 2)
    (Format.binary64.targetExponent ((totalExponent m e + 1).ediv 2)) := ⟨_, rfl⟩
  obtain ⟨j, hj⟩ : ∃ j, j = (e - 2 * c).toNat := ⟨_, rfl⟩
  have hhalf : 2 * c ≤ e := by
    have hle : c ≤ e / 2 := hc.trans_le (min_le_left _ _)
    omega
  have hvalue : √((m <<< j : ℕ) : ℝ) * 2 ^ c = √(m * 2 ^ e) := by
    have hexp : (m : ℝ) * 2 ^ e = (m <<< j : ℕ) * (2 ^ c * 2 ^ c) := by
      rw [Nat.shiftLeft_eq, ← zpow_add₀ (by norm_num)]
      push_cast
      rw [mul_assoc, ← zpow_natCast, ← zpow_add₀ (by norm_num)]
      congr 2
      omega
    rw [hexp, Real.sqrt_mul (Nat.cast_nonneg _), Real.sqrt_mul_self (by positivity)]
  have hlong : c ≤ -1074 ∨ 52 ≤ (Nat.sqrt (m <<< j)).log2 := by
    rcases le_or_gt c (-1074) with hlow | hhigh
    · exact .inl hlow
    · have hlog : 104 ≤ m.log2 + j := by
        have htarget : c ≤ (m.log2 + 1 + e + 1) / 2 - 53 := by
          have hle := hc.trans_le (min_le_right _ _)
          rw [Format.targetExponent, hbits, hleast] at hle
          rcases le_max_iff.mp hle with hle | hle
          · exact hle
          · omega
        omega
      exact .inr (le_log2_sqrt hm hlog)
  have hround := isRounded_roundWithAccuracy .positive (marks_sqrt (m <<< j)) (e := c) ?_ ?_
  · rw [hvalue] at hround
    unfold UnpackedFloat.sqrt
    dsimp only [sqrtCore]
    rw [← hc, ← hj]
    exact hround
  · rw [targetExponent_eq]
    omega
  · refine hlong.symm.imp_left fun hlog hzero => ?_
    rw [hzero] at hlog
    simp at hlog

/-- **A square root** is rounded. -/
theorem IsRounded.sqrt (hf : IsRounded f v) (hv : 0 ≤ v) :
    IsRounded (UnpackedFloat.sqrt Format.binary64 f) (nearest √v) := by
  obtain ⟨hfinite, -, rfl⟩ := hf
  cases f with
  | infinity s => cases hfinite
  | notANumber => cases hfinite
  | zero s =>
    rw [number_zero, Real.sqrt_zero, nearest_zero]
    exact isRounded_zero s
  | finite s m e hm =>
    cases s with
    | negative =>
      have hpos : (0 : ℝ) < m * 2 ^ e := by
        have : (0 : ℝ) < m := by exact_mod_cast hm
        positivity
      exact absurd hv (not_le.mpr (neg_neg_of_pos hpos))
    | positive => exact isRounded_sqrt_finite hm

/-! ## Whole numbers -/

/-- **A whole number** is rounded. -/
theorem isRounded_ofNat (n : ℕ) :
    IsRounded (UnpackedFloat.ofNat Format.binary64 n) (nearest n) := by
  have hround := isRounded_normalize (n : ℤ) 0 .positive
  rw [zpow_zero, mul_one, Int.cast_natCast] at hround
  exact hround

end NeuralPlan.Double
