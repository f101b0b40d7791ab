import NeuralPlan.Proofs.Double.Floats

/-!
# The order of doubles

Doubles that stand for numbers compare as the numbers do.

## Main results

* `Double.Is.le_iff`, `Double.Is.lt_iff`, `Double.Is.beq_iff` — every comparison is that of the numbers.
* `Double.Rounds.lt_iff` — a number rounded is compared as if it did not overflow.
-/

set_option relaxedAutoImplicit false
set_option autoImplicit false

namespace NeuralPlan.Double

open Float.Model Float.Model.UnpackedFloat

variable {x y : Float} {v w : ℝ}

/-- Canonical doubles are compared by their exponents first. -/
theorem compare_canonical {s t : Sign} {m n : ℕ} {e k : ℤ} {hm : 0 < m} {hn : 0 < n}
    (h : Canonical (.finite s m e hm)) (h' : Canonical (.finite t n k hn)) :
    (Ord.compare e k).then (Ord.compare m n) = Ord.compare ((m : ℝ) * 2 ^ e) (n * 2 ^ k) := by
  have hless : ∀ {s t : Sign} {m n : ℕ} {e k : ℤ} {hm : 0 < m} {hn : 0 < n},
      Canonical (.finite s m e hm) → Canonical (.finite t n k hn) → e < k →
      (m : ℝ) * 2 ^ e < n * 2 ^ k := by
    intro s t m n e k hm hn h h' hlt
    obtain ⟨hlong, hleast, -⟩ := h
    have hnormal : 2 ^ 52 ≤ n := h'.2.2.resolve_right (by omega)
    calc (m : ℝ) * 2 ^ e < 2 ^ (53 : ℤ) * 2 ^ e :=
          mul_lt_mul_of_pos_right (by exact_mod_cast hlong) (by positivity)
      _ = 2 ^ (53 + e) := (zpow_add₀ (by norm_num) _ _).symm
      _ ≤ 2 ^ (52 + k) := zpow_le_zpow_right₀ (by norm_num) (by omega)
      _ = 2 ^ (52 : ℤ) * 2 ^ k := zpow_add₀ (by norm_num) _ _
      _ ≤ n * 2 ^ k := mul_le_mul_of_nonneg_right (by exact_mod_cast hnormal) (by positivity)
  rcases lt_trichotomy e k with hlt | rfl | hgt
  · rw [Int.compare_eq_lt.mpr hlt, compare_lt_iff_lt.mpr (hless h h' hlt)]
    rfl
  · have hunit : (0 : ℝ) < 2 ^ e := by positivity
    rw [Int.compare_eq_eq.mpr rfl]
    change Ord.compare m n = _
    rcases lt_trichotomy m n with hlt | rfl | hgt
    · rw [Nat.compare_eq_lt.mpr hlt, compare_lt_iff_lt.mpr]
      exact mul_lt_mul_of_pos_right (by exact_mod_cast hlt) hunit
    · rw [Nat.compare_eq_eq.mpr rfl, compare_eq_iff_eq.mpr rfl]
    · rw [Nat.compare_eq_gt.mpr hgt, compare_gt_iff_gt.mpr]
      exact mul_lt_mul_of_pos_right (by exact_mod_cast hgt) hunit
  · rw [Int.compare_eq_gt.mpr hgt, compare_gt_iff_gt.mpr (hless h' h hgt)]
    rfl

/-- Negative numbers are compared the other way. -/
theorem compare_neg (v w : ℝ) : Ord.compare (-v) (-w) = (Ord.compare v w).swap := by
  rcases lt_trichotomy v w with hlt | rfl | hgt
  · rw [compare_lt_iff_lt.mpr hlt, compare_gt_iff_gt.mpr (neg_lt_neg hlt)]
    rfl
  · simp
  · rw [compare_gt_iff_gt.mpr hgt, compare_lt_iff_lt.mpr (neg_lt_neg hgt)]
    rfl

/-- **A comparison** of rounded floats is that of the numbers. -/
theorem IsRounded.compare {f g : UnpackedFloat} (hf : IsRounded f v) (hg : IsRounded g w) :
    UnpackedFloat.compare f g = some (Ord.compare v w) := by
  have hpos : ∀ {m : ℕ} (_ : 0 < m) (e : ℤ), (0 : ℝ) < m * 2 ^ e := by
    intro m hm e
    have hcast : (0 : ℝ) < m := by exact_mod_cast hm
    positivity
  obtain ⟨hfinite, hcanonical, rfl⟩ := hf
  obtain ⟨hfinite', hcanonical', rfl⟩ := hg
  cases f with
  | infinity s => cases hfinite
  | notANumber => cases hfinite
  | zero s =>
    cases g with
    | infinity t => cases hfinite'
    | notANumber => cases hfinite'
    | zero t => exact congrArg some (compare_eq_iff_eq.mpr rfl).symm
    | finite t n k hn =>
      cases t with
      | positive => exact congrArg some (compare_lt_iff_lt.mpr (hpos hn k)).symm
      | negative => exact congrArg some (compare_gt_iff_gt.mpr (neg_neg_of_pos (hpos hn k))).symm
  | finite s m e hm =>
    cases g with
    | infinity t => cases hfinite'
    | notANumber => cases hfinite'
    | zero t =>
      cases s with
      | positive => exact congrArg some (compare_gt_iff_gt.mpr (hpos hm e)).symm
      | negative => exact congrArg some (compare_lt_iff_lt.mpr (neg_neg_of_pos (hpos hm e))).symm
    | finite t n k hn =>
      cases s with
      | positive =>
        cases t with
        | positive => exact congrArg some (compare_canonical hcanonical hcanonical')
        | negative =>
          exact congrArg some (compare_gt_iff_gt.mpr
            ((neg_neg_of_pos (hpos hn k)).trans (hpos hm e))).symm
      | negative =>
        cases t with
        | positive =>
          exact congrArg some (compare_lt_iff_lt.mpr
            ((neg_neg_of_pos (hpos hm e)).trans (hpos hn k))).symm
        | negative =>
          change some _ = some (Ord.compare (-((m : ℝ) * 2 ^ e)) (-((n : ℝ) * 2 ^ k)))
          rw [compare_neg, ← compare_canonical hcanonical hcanonical']

/-- A comparison of doubles is that of the numbers. -/
theorem Is.compare (hx : Is x v) (hy : Is y w) :
    x.toModel.unpack.compare y.toModel.unpack = some (Ord.compare v w) :=
  IsRounded.compare hx hy

/-- Less or equal, taken apart. -/
theorem le_iff_compare :
    x ≤ y ↔ (x.toModel.unpack.compare y.toModel.unpack).any (·.isLE) = true :=
  decide_eq_true_iff

/-- Less, taken apart. -/
theorem lt_iff_compare :
    x < y ↔ (x.toModel.unpack.compare y.toModel.unpack == some .lt) = true :=
  decide_eq_true_iff

/-- Less or equal. -/
theorem Is.le_iff (hx : Is x v) (hy : Is y w) : x ≤ y ↔ v ≤ w := by
  rw [le_iff_compare, hx.compare hy]
  rcases lt_trichotomy v w with hlt | rfl | hgt
  · simp [compare_lt_iff_lt.mpr hlt, hlt.le]
  · simp
  · simp [compare_gt_iff_gt.mpr hgt, hgt]

/-- Less. -/
theorem Is.lt_iff (hx : Is x v) (hy : Is y w) : x < y ↔ v < w := by
  rw [lt_iff_compare, hx.compare hy, ← compare_lt_iff_lt]
  simp

/-- Equal. -/
theorem Is.beq_iff (hx : Is x v) (hy : Is y w) : (x == y) = true ↔ v = w := by
  change (x.toModel.unpack.compare y.toModel.unpack == some .eq) = true ↔ _
  rw [hx.compare hy, ← compare_eq_iff_eq]
  simp

/-- The comparison of every finite double with an infinity. -/
def besideInfinity : Sign → Ordering
  | .positive => .lt
  | .negative => .gt

/-- A finite double is compared with an infinity by its sign. -/
theorem Is.compare_infinity (hx : Is x v) (s : Sign) :
    x.toModel.unpack.compare (.infinity s) = some (besideInfinity s) := by
  have hfinite : x.toModel.unpack.isFinite = true := IsRounded.isFinite hx
  revert hfinite
  cases x.toModel.unpack <;> cases s <;> intro hfinite <;> first | rfl | cases hfinite

/-- An infinity is compared with a finite double by its sign. -/
theorem Is.infinity_compare (hx : Is x v) (s : Sign) :
    UnpackedFloat.compare (.infinity s) x.toModel.unpack = some (besideInfinity s).swap := by
  have hfinite : x.toModel.unpack.isFinite = true := IsRounded.isFinite hx
  revert hfinite
  cases x.toModel.unpack <;> cases s <;> intro hfinite <;> first | rfl | cases hfinite

/-- Nothing is compared with a NaN. -/
theorem compare_notANumber (f : UnpackedFloat) : f.compare .notANumber = none := by
  cases f <;> rfl

/-- **Two doubles in order** are two numbers in order, or one of them is infinite at its end. -/
theorem numbers_of_le (h : x ≤ y) : (∃ v w, Is x v ∧ Is y w ∧ v ≤ w) ∨
    x.toModel.unpack = .infinity .negative ∨ y.toModel.unpack = .infinity .positive := by
  rw [le_iff_compare] at h
  rcases is_or x with ⟨v, hv⟩ | ⟨s, hs⟩ | hx
  · rcases is_or y with ⟨w, hw⟩ | ⟨t, ht⟩ | hy
    · exact .inl ⟨v, w, hv, hw, (hv.le_iff hw).mp (le_iff_compare.mpr h)⟩
    · rw [ht, hv.compare_infinity] at h
      cases t with
      | positive => exact .inr (.inr ht)
      | negative => exact absurd h Bool.false_ne_true
    · rw [hy, compare_notANumber] at h
      exact absurd h Bool.false_ne_true
  · cases s with
    | positive =>
      rcases is_or y with ⟨w, hw⟩ | ⟨t, ht⟩ | hy
      · rw [hs, hw.infinity_compare] at h
        exact absurd h Bool.false_ne_true
      · cases t with
        | positive => exact .inr (.inr ht)
        | negative =>
          rw [hs, ht] at h
          exact absurd h Bool.false_ne_true
      · rw [hy, compare_notANumber] at h
        exact absurd h Bool.false_ne_true
    | negative => exact .inr (.inl hs)
  · rw [hx] at h
    exact absurd h Bool.false_ne_true

/-- What lies between two numbers is a number between them. -/
theorem exists_of_le_of_lt {z : Float} {u : ℝ} (hx : Is x v) (hz : Is z u) (hxy : x ≤ y) (hyz : y < z) :
    ∃ w, Is y w ∧ v ≤ w ∧ w < u := by
  rcases numbers_of_le hxy with ⟨a, w, ha, hy, haw⟩ | hbottom | htop
  · exact ⟨w, hy, (hx.unique ha).trans_le haw, (hy.lt_iff hz).mp hyz⟩
  · exact absurd hbottom (ne_infinity_of_isFinite hx.isFinite _)
  · rw [lt_iff_compare, htop, hz.infinity_compare] at hyz
    exact absurd hyz Bool.false_ne_true

/-- **A number rounded** is compared as if it did not overflow. -/
theorem Rounds.lt_iff (hx : Rounds x v) (hy : Is y w) : y < x ↔ w < nearest v := by
  obtain ⟨hlow, hhigh⟩ := abs_le.mp hy.abs_le
  have hlimit := greatest_lt
  rcases lt_or_ge |nearest v| limit with hfits | hover
  · exact hy.lt_iff (hx.fits hfits)
  rw [lt_iff_compare]
  rcases le_abs.mp hover with habove | hbelow
  · rw [hx.above habove, hy.compare_infinity]
    exact iff_of_true rfl (by linarith)
  · rw [hx.below (le_neg.mpr hbelow), hy.compare_infinity]
    exact iff_of_false Bool.false_ne_true (by linarith)

/-- Doubles that are not NaNs are in a total order. -/
theorem le_total_of_isNaN (hx : x.isNaN = false) (hy : y.isNaN = false) : x ≤ y ∨ y ≤ x := by
  have hnan : ∀ {z : Float}, z.isNaN = false → z.toModel.unpack ≠ .notANumber := by
    intro z hz heq
    change z.toModel.unpack.isNaN = false at hz
    rw [heq] at hz
    cases hz
  rcases is_or x with ⟨v, hv⟩ | ⟨s, hs⟩ | hx'
  · rcases is_or y with ⟨w, hw⟩ | ⟨t, ht⟩ | hy'
    · rw [hv.le_iff hw, hw.le_iff hv]
      exact le_total v w
    · rw [le_iff_compare, le_iff_compare, ht, hv.compare_infinity, hv.infinity_compare]
      cases t <;> decide
    · exact absurd hy' (hnan hy)
  · rcases is_or y with ⟨w, hw⟩ | ⟨t, ht⟩ | hy'
    · rw [le_iff_compare, le_iff_compare, hs, hw.compare_infinity, hw.infinity_compare]
      cases s <;> decide
    · rw [le_iff_compare, le_iff_compare, hs, ht]
      cases s <;> cases t <;> decide
    · exact absurd hy' (hnan hy)
  · exact absurd hx' (hnan hx)

end NeuralPlan.Double
