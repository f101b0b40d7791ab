import NeuralPlan.Proofs.Initializer.FanIn
import NeuralPlan.Proofs.Random.Span

/-!
# Draws of initial values

An initializer of random weights draws every weight and bias from a span around zero, whose amplitude
is the wanted spread divided by the expected maximum.  For a subnormal maximum this quotient can
overflow, and then there is nothing to draw from.  In all other cases a value is drawn, and it is in
its range.

## Main definitions

* `Initializer.Call.InRange` — the range of the value that a call asks for.
* `FanIn.TooWide` — some call asks for a weight or bias whose amplitude is too great.
* `Double.Subnormal` — the double is not zero, and too small for a mantissa of 53 bits.

## Main results

* `Scaled.exists_nextFor`, `Scaled.nextFor_eq_badSpan` — when a weight is drawn, and its range.
* `Scaled.exists_nextMemoryFilter` — a memory filter is always drawn.
* `FanIn.not_tooWide` — without a subnormal expectation no amplitude is too great.
* `Scaled.draws_in_range` — the answers to any calls.
-/

set_option relaxedAutoImplicit false
set_option autoImplicit false

namespace NeuralPlan

open Double

/-! ## Limits -/

section Limits

variable {x y : Float} {v w : ℝ}

/-- **A weight** is moved into `[-1, 1]`. -/
theorem limitWeight_spec (hx : Is x v) : -1.0 ≤ limitWeight x ∧ limitWeight x ≤ 1.0 := by
  have hleast : Is (-1.0) (-1) := is_one.neg
  unfold limitWeight
  split
  · rw [hleast.le_iff hleast, hleast.le_iff is_one]
    norm_num
  next hlow =>
    split
    · rw [hleast.le_iff is_one, is_one.le_iff is_one]
      norm_num
    next hhigh =>
      rw [hx.lt_iff hleast] at hlow
      rw [gt_iff_lt, is_one.lt_iff hx] at hhigh
      rw [hleast.le_iff hx, hx.le_iff is_one]
      exact ⟨not_lt.mp hlow, not_lt.mp hhigh⟩

/-- A finite memory filter is moved into `[0, 1]`. -/
theorem is_limitFilter (hx : Is x v) : Is (limitFilter x) (max 0 (min v 1)) := by
  unfold limitFilter
  split
  next hlow =>
    rw [hx.lt_iff is_zero] at hlow
    rw [max_eq_left ((min_le_left v 1).trans hlow.le)]
    exact is_zero
  next hlow =>
    rw [hx.lt_iff is_zero, not_lt] at hlow
    split
    next hhigh =>
      rw [gt_iff_lt, is_one.lt_iff hx] at hhigh
      rw [min_eq_right hhigh.le, max_eq_right zero_le_one]
      exact is_one
    next hhigh =>
      rw [gt_iff_lt, is_one.lt_iff hx, not_lt] at hhigh
      rwa [min_eq_left hhigh, max_eq_right hlow]

/-- A memory filter above all numbers is moved to one. -/
theorem limitFilter_top (hx : x.toModel.unpack = .infinity .positive) : limitFilter x = 1.0 := by
  unfold limitFilter
  rw [if_neg, if_pos]
  · rw [gt_iff_lt, lt_iff_compare, hx, is_one.compare_infinity]
    rfl
  · rw [lt_iff_compare, hx, is_zero.infinity_compare]
    exact Bool.false_ne_true

/-- A memory filter below all numbers is moved to zero. -/
theorem limitFilter_bottom (hx : x.toModel.unpack = .infinity .negative) : limitFilter x = 0.0 := by
  unfold limitFilter
  rw [if_pos]
  rw [lt_iff_compare, hx, is_zero.infinity_compare]
  rfl

/-- **A memory filter** that is not a NaN is moved into `[0, 1]`. -/
theorem exists_limitFilter (hx : x.isNaN = false) : ∃ v, Is (limitFilter x) v ∧ 0 ≤ v ∧ v ≤ 1 := by
  rcases is_or x with ⟨v, hv⟩ | ⟨s, hs⟩ | hnan
  · exact ⟨_, is_limitFilter hv, le_max_left _ _, max_le zero_le_one (min_le_right _ _)⟩
  · cases s with
    | positive => exact ⟨1, (limitFilter_top hs).symm ▸ is_one, zero_le_one, le_rfl⟩
    | negative => exact ⟨0, (limitFilter_bottom hs).symm ▸ is_zero, le_rfl, zero_le_one⟩
  · change x.toModel.unpack.isNaN = false at hx
    rw [hnan] at hx
    cases hx

/-- **The order** of memory filters is kept. -/
theorem limitFilter_mono (hxy : x ≤ y) (hx : Is (limitFilter x) v) (hy : Is (limitFilter y) w)
    (hv : 0 ≤ v ∧ v ≤ 1) (hw : 0 ≤ w ∧ w ≤ 1) : v ≤ w := by
  rcases numbers_of_le hxy with ⟨a, b, ha, hb, hab⟩ | hbottom | htop
  · rw [hx.unique (is_limitFilter ha), hy.unique (is_limitFilter hb)]
    exact max_le_max_left 0 (min_le_min_right 1 hab)
  · rw [limitFilter_bottom hbottom] at hx
    exact (hx.unique is_zero).trans_le hw.1
  · rw [limitFilter_top htop] at hy
    exact hv.2.trans_eq (is_one.unique hy)

end Limits

/-! ## Amplitudes -/

namespace FanIn

variable {fanIn : FanIn}

/-- How wide the weights are wanted for an activation, before the maximum of the inputs counts. -/
theorem exists_spread (hnumber : 1 ≤ fanIn.number) (hlt : fanIn.number < Word.limit)
    (f : Activation) :
    ∃ r, Is ((if f.isRectifier then 2.0 else 1.0) / Float.ofNat fanIn.number).sqrt r ∧
      0 ≤ r ∧ r ≤ 3 / 2 := by
  obtain ⟨p, hp, hpos, hmost⟩ :
      ∃ p : ℝ, Is (if f.isRectifier then 2.0 else 1.0) p ∧ 0 ≤ p ∧ p ≤ 2 := by
    split
    · exact ⟨2, is_two, zero_le_two, le_rfl⟩
    · exact ⟨1, is_one, zero_le_one, one_le_two⟩
  have hone := one_le_nearest hnumber
  have hcount : 0 < nearest fanIn.number := one_pos.trans_le hone
  have hquotient : p / nearest fanIn.number ≤ 2 := (div_le_self hpos hone).trans hmost
  have hnonneg : 0 ≤ p / nearest fanIn.number := div_nonneg hpos hcount.le
  obtain ⟨q, hq, hzero, htop⟩ := (hp.div (is_ofNat hlt) hcount.ne').exists_le
    is_two.representable hnonneg hquotient (le_of_abs_le is_two.abs_le)
  have hroot : √q ≤ 3 / 2 := Real.sqrt_le_iff.mpr ⟨by norm_num, htop.trans (by norm_num)⟩
  have hhalves : Representable (3 / 2) := ⟨3, -1, by norm_num, by norm_num, by norm_num⟩
  exact (hq.sqrt hzero).exists_le hhalves (Real.sqrt_nonneg q) hroot
    (le_trans (by norm_num) (le_of_abs_le is_two.abs_le))

/-- An amplitude is the least one, or the spread divided by the maximum. -/
theorem amplitude_eq_or (fanIn : FanIn) (f : Activation) : fanIn.amplitude f = leastAmplitude ∨
    fanIn.amplitude f =
      ((if f.isRectifier then 2.0 else 1.0) / Float.ofNat fanIn.number).sqrt / fanIn.maximum := by
  rw [amplitude]
  exact (ite_eq_or_eq _ _ _).symm

/-- **An amplitude** is a number that is not negative, or infinite. -/
theorem amplitude_spec (h : fanIn.Sanitised) (f : Activation) :
    (∃ v, Is (fanIn.amplitude f) v ∧ 0 ≤ v) ∨
      (fanIn.amplitude f).toModel.unpack = .infinity .positive := by
  obtain ⟨v, hv⟩ := isFinite_iff.mp h.isFinite
  have hpos : 0 < v := (is_zero.lt_iff hv).mp h.maximum_pos
  obtain ⟨r, hr, hnonneg, -⟩ := exists_spread h.number_pos h.number_lt f
  have hquotient := hr.div hv hpos.ne'
  have hround := nearest_nonneg (div_nonneg hnonneg hpos.le)
  rcases amplitude_eq_or fanIn f with heq | heq
  · rw [heq]
    exact .inl ⟨_, is_leastAmplitude, by positivity⟩
  · rw [heq]
    rcases lt_or_ge (nearest (r / v)) limit with hfits | hover
    · exact .inl ⟨_, hquotient.fits (by rwa [abs_of_nonneg hround]), hround⟩
    · exact .inr (hquotient.above hover)

/-- **Beside a maximum that is not subnormal**, no amplitude is too great. -/
theorem amplitude_le (h : fanIn.Sanitised) {v : ℝ} (hv : Is fanIn.maximum v)
    (hleast : 2 ^ (-1022 : ℤ) ≤ v) (f : Activation) :
    fanIn.amplitude f ≤ Random.greatestAmplitude := by
  have hpos : 0 < v := lt_of_lt_of_le (by positivity) hleast
  obtain ⟨r, hr, hnonneg, hmost⟩ := exists_spread h.number_pos h.number_lt f
  have hscaled : (3 : ℝ) * 2 ^ (1021 : ℤ) ≤ (2 ^ 53 - 3) * 2 ^ (970 : ℤ) := by
    rw [show (1021 : ℤ) = 51 + 970 by norm_num, zpow_add₀ (by norm_num), ← mul_assoc]
    exact mul_le_mul_of_nonneg_right (by norm_num) (by positivity)
  rcases amplitude_eq_or fanIn f with heq | heq
  · rw [heq, is_leastAmplitude.le_iff Random.is_greatestAmplitude]
    calc (2 : ℝ) ^ (-52 : ℤ) ≤ 2 ^ (1021 : ℤ) := zpow_le_zpow_right₀ (by norm_num) (by norm_num)
      _ ≤ 3 * 2 ^ (1021 : ℤ) := le_mul_of_one_le_left (by positivity) (by norm_num)
      _ ≤ (2 ^ 53 - 3) * 2 ^ (970 : ℤ) := hscaled
  · have hquotient : r / v ≤ 3 * 2 ^ (1021 : ℤ) := by
      rw [div_le_iff₀ hpos]
      calc r ≤ 3 / 2 := hmost
        _ = 3 * (2 ^ (1021 : ℤ) * 2 ^ (-1022 : ℤ)) := by
            rw [← zpow_add₀ (by norm_num)]
            norm_num
        _ = 3 * 2 ^ (1021 : ℤ) * 2 ^ (-1022 : ℤ) := (mul_assoc _ _ _).symm
        _ ≤ 3 * 2 ^ (1021 : ℤ) * v := mul_le_mul_of_nonneg_left hleast (by positivity)
    have hdouble : Representable (3 * 2 ^ (1021 : ℤ)) :=
      ⟨3, 1021, by norm_num, by norm_num, by norm_num⟩
    obtain ⟨w, hw, -, hle⟩ := (hr.div hv hpos.ne').exists_le hdouble
      (div_nonneg hnonneg hpos.le) hquotient
      (hscaled.trans (le_of_abs_le Random.is_greatestAmplitude.abs_le))
    rw [heq, hw.le_iff Random.is_greatestAmplitude]
    exact hle.trans hscaled

end FanIn

/-! ## Draws -/

namespace Scaled

variable {s : Scaled}

/-- **A weight is drawn** if the amplitude is not too great. -/
theorem exists_nextFor (hs : s.fanIn.Sanitised) {f : Activation}
    (h : s.fanIn.amplitude f ≤ Random.greatestAmplitude) :
    ∃ x t, s.nextFor f = .ok (x, { s with stream := t }) ∧ -1.0 ≤ x ∧ x ≤ 1.0 := by
  obtain ⟨v, hv, hnonneg⟩ : ∃ v, Is (s.fanIn.amplitude f) v ∧ 0 ≤ v := by
    refine (FanIn.amplitude_spec hs f).resolve_right fun htop => ?_
    rw [le_iff_compare, htop, Random.is_greatestAmplitude.infinity_compare] at h
    exact absurd h Bool.false_ne_true
  obtain ⟨x, t, w, hdraw, hx, -⟩ := Random.exists_between hv.neg hv (neg_le_self hnonneg)
    ((Random.isFinite_symmetric_iff hv hnonneg).mpr h) s.stream
  refine ⟨limitWeight x, t, ?_, limitWeight_spec hx⟩
  rw [nextFor, hdraw]
  rfl

/-- **No weight is drawn** if the amplitude is too great. -/
theorem nextFor_eq_badSpan (hs : s.fanIn.Sanitised) {f : Activation}
    (h : ¬s.fanIn.amplitude f ≤ Random.greatestAmplitude) : s.nextFor f = stop .badSpan := by
  have hinfinite : ((s.fanIn.amplitude f - -s.fanIn.amplitude f) / Random.greatestFraction).isFinite
      ≠ true := by
    rcases FanIn.amplitude_spec hs f with ⟨v, hv, hnonneg⟩ | htop
    · exact mt (Random.isFinite_symmetric_iff hv hnonneg).mp h
    · exact fun hfinite => ne_infinity_of_isFinite (isFinite_of_sub (isFinite_of_div hfinite)) _ htop
  rw [nextFor, Random.between_eq_badSpan hinfinite]
  rfl

/-- The bounds of the memory filters are in order and in `[0, 1]`. -/
def Bounded (s : Scaled) : Prop :=
  ∃ l h, Is s.memoryLow l ∧ Is s.memoryHigh h ∧ 0 ≤ l ∧ l ≤ h ∧ h ≤ 1

/-- **A memory filter is drawn** between the bounds. -/
theorem exists_nextMemoryFilter (hs : s.Bounded) :
    ∃ x t, s.nextMemoryFilter = .ok (x, { s with stream := t }) ∧
      s.memoryLow ≤ x ∧ x ≤ s.memoryHigh := by
  obtain ⟨l, h, hlow, hhigh, hl, hle, hh⟩ := hs
  obtain ⟨x, t, w, hdraw, hx, hlx, hxh⟩ := Random.exists_between hlow hhigh hle
    (Random.isFinite_scale hlow hhigh hle (by linarith)) s.stream
  refine ⟨x, t, ?_, (hlow.le_iff hx).mpr hlx, (hx.le_iff hhigh).mpr hxh⟩
  rw [nextMemoryFilter, hdraw]
  rfl

/-- The initializer of a seed has bounds in order: those that it was given, moved into `[0, 1]`. -/
theorem bounded_between (seed : ℕ) {a b : Float} (ha : a.isNaN = false) (hb : b.isNaN = false) :
    (between seed a b).Bounded ∧
      ((between seed a b).memoryLow = limitFilter a ∧ (between seed a b).memoryHigh = limitFilter b ∨
        (between seed a b).memoryLow = limitFilter b ∧
          (between seed a b).memoryHigh = limitFilter a) := by
  obtain ⟨v, hv, hv0, hv1⟩ := exists_limitFilter ha
  obtain ⟨w, hw, hw0, hw1⟩ := exists_limitFilter hb
  by_cases hab : a ≤ b
  · have hlow : (between seed a b).memoryLow = limitFilter a := by simp [between, hab]
    have hhigh : (between seed a b).memoryHigh = limitFilter b := by simp [between, hab]
    refine ⟨⟨v, w, hlow ▸ hv, hhigh ▸ hw, hv0, ?_, hw1⟩, .inl ⟨hlow, hhigh⟩⟩
    exact limitFilter_mono hab hv hw ⟨hv0, hv1⟩ ⟨hw0, hw1⟩
  · have hlow : (between seed a b).memoryLow = limitFilter b := by simp [between, hab]
    have hhigh : (between seed a b).memoryHigh = limitFilter a := by simp [between, hab]
    refine ⟨⟨w, v, hlow ▸ hw, hhigh ▸ hv, hw0, ?_, hv1⟩, .inr ⟨hlow, hhigh⟩⟩
    exact limitFilter_mono ((le_total_of_isNaN ha hb).resolve_left hab) hw hv ⟨hw0, hw1⟩ ⟨hv0, hv1⟩

end Scaled

/-! ## Calls -/

open Initializer

/-- The number is one of the two bounds or between them, whichever is the lower one. -/
def Between (a b x : Float) : Prop := (a ≤ x ∧ x ≤ b) ∨ (b ≤ x ∧ x ≤ a)

/-- The range of the value that a call asks for. -/
def Initializer.Call.InRange (a b : Float) : Call → Float → Prop
  | .memoryFilter, x => Between a b x
  | _, x => -1.0 ≤ x ∧ x ≤ 1.0

/-- The order of the bounds does not matter. -/
theorem Initializer.Call.InRange.symm {a b x : Float} {call : Call} (h : call.InRange a b x) :
    call.InRange b a x := by
  cases call with
  | memoryFilter => exact Or.symm h
  | expect count range => exact h
  | weightFor f => exact h
  | bias => exact h

/-- The double is not zero, and too small for a mantissa of 53 bits. -/
def Double.Subnormal (x : Float) : Prop := 0.0 < x.abs ∧ x.abs < Float.ofBits 0x0010000000000000

namespace FanIn

variable {fanIn : FanIn} {n : ℕ} {x : Float}

/-- Some call asks for a weight or a bias whose amplitude is too great. -/
def TooWide (fanIn : FanIn) : List Call → Prop
  | [] => False
  | .expect count range :: calls => (of count range).TooWide calls
  | .weightFor f :: calls =>
    ¬fanIn.amplitude f ≤ Random.greatestAmplitude ∨ fanIn.TooWide calls
  | .bias :: calls =>
    ¬fanIn.amplitude .identity ≤ Random.greatestAmplitude ∨ fanIn.TooWide calls
  | .memoryFilter :: calls => fanIn.TooWide calls

/-- The maximum is the least amplitude, the absolute value of what is given, or the substitute. -/
theorem maximum_of_eq_or (n : ℕ) (x : Float) : (of n x).maximum = leastAmplitude ∨
    (of n x).maximum = x.abs ∨ (of n x).maximum = greatestFloat / Float.ofNat (max n 1) := by
  unfold of
  dsimp only
  split
  · exact .inl rfl
  · split
    · exact .inr (.inl rfl)
    · exact .inr (.inr rfl)

/-- The maximum is not below `2 ^ (-1022)`. -/
def Ordinary (fanIn : FanIn) : Prop := ∃ v, Is fanIn.maximum v ∧ 2 ^ (-1022 : ℤ) ≤ v

/-- **A maximum that is made of a double that is not subnormal** is not subnormal. -/
theorem ordinary_of (hn : n < Word.limit) (hx : ¬Subnormal x) : (of n x).Ordinary := by
  obtain ⟨-, v, hv, hpos, -⟩ := of_spec hn x
  refine ⟨v, hv, ?_⟩
  rcases maximum_of_eq_or n x with heq | heq | heq
  · rw [heq] at hv
    rw [hv.unique is_leastAmplitude]
    exact zpow_le_zpow_right₀ (by norm_num) (by norm_num)
  · rw [heq] at hv
    have hleast : Is (Float.ofBits 0x0010000000000000) (2 ^ (-1022 : ℤ)) :=
      is_ofBits_zpow (c := 1) rfl (by norm_num) (by norm_num) (by norm_num)
    by_contra hlt
    exact hx ⟨(is_zero.lt_iff hv).mpr hpos, (hv.lt_iff hleast).mpr (not_le.mp hlt)⟩
  · obtain ⟨hsubstitute, hleast⟩ := is_substitute (le_max_right n 1) (max_lt hn (by decide))
    rw [heq] at hv
    rw [hv.unique hsubstitute]
    exact (zpow_le_zpow_right₀ (by norm_num) (by norm_num)).trans hleast

/-- **Without a subnormal expectation** no amplitude is too great. -/
theorem not_tooWide {calls : List Call} (h : fanIn.Sanitised) (hordinary : fanIn.Ordinary)
    (hfit : ∀ call ∈ calls, call.Fits)
    (hcalls : ∀ count range, .expect count range ∈ calls → ¬Subnormal range) :
    ¬fanIn.TooWide calls := by
  induction calls generalizing fanIn with
  | nil => exact id
  | cons call calls ih =>
    obtain ⟨hfirst, hrest⟩ := List.forall_mem_cons.mp hfit
    have hlater : ∀ count range, .expect count range ∈ calls → ¬Subnormal range :=
      fun count range hmem => hcalls count range (List.mem_cons_of_mem _ hmem)
    obtain ⟨v, hv, hleast⟩ := id hordinary
    cases call with
    | expect count range =>
      have hsubnormal := hcalls count range List.mem_cons_self
      exact ih (sanitised_of hfirst range) (ordinary_of hfirst hsubnormal) hrest hlater
    | weightFor f =>
      exact not_or.mpr ⟨not_not.mpr (amplitude_le h hv hleast f), ih h hordinary hrest hlater⟩
    | bias =>
      exact not_or.mpr ⟨not_not.mpr (amplitude_le h hv hleast _), ih h hordinary hrest hlater⟩
    | memoryFilter => exact ih h hordinary hrest hlater

end FanIn

namespace Scaled

variable {s : Scaled} {call : Call} {calls : List Call}

/-- How calls are answered: with values in their ranges, unless an amplitude is too great. -/
def Answered (s : Scaled) (calls : List Call) : Prop :=
  (¬s.fanIn.TooWide calls → ∃ values s', replay s calls = .ok (values, s') ∧
    List.Forall₂ (Call.InRange s.memoryLow s.memoryHigh) (calls.filter (·.values = 1)) values) ∧
  (s.fanIn.TooWide calls → replay s calls = stop .badSpan)

/-- A value in its range, and then the answers to further calls. -/
theorem Answered.cons {x : Float} {t : Random.Stream}
    (hrespond : respond s call = .ok ([x], { s with stream := t }))
    (hx : call.InRange s.memoryLow s.memoryHigh x) (hvalues : call.values = 1)
    (hwide : s.fanIn.TooWide (call :: calls) ↔ s.fanIn.TooWide calls)
    (h : Answered { s with stream := t } calls) : s.Answered (call :: calls) := by
  have hreplay : replay s (call :: calls) = (replay { s with stream := t } calls >>= fun y =>
      .ok (x :: y.1, y.2)) := by
    rw [replay, hrespond]
    rfl
  refine ⟨fun hnot => ?_, fun htoo => ?_⟩
  · obtain ⟨values, s', heq, hrange⟩ := h.1 (mt hwide.mpr hnot)
    refine ⟨x :: values, s', ?_, ?_⟩
    · rw [hreplay, heq]
      rfl
    · rw [List.filter_cons_of_pos (by simpa using hvalues)]
      exact .cons hx hrange
  · rw [hreplay, h.2 (hwide.mp htoo)]
    rfl

/-- A weight or a bias, and then the answers to further calls. -/
theorem answered_weight (hs : s.fanIn.Sanitised) {f : Activation}
    (hrespond : respond s call = respond s (.weightFor f)) (hvalues : call.values = 1)
    (hrange : ∀ x, -1.0 ≤ x ∧ x ≤ 1.0 → call.InRange s.memoryLow s.memoryHigh x)
    (hwide : s.fanIn.TooWide (call :: calls) ↔ s.fanIn.TooWide (.weightFor f :: calls))
    (h : ∀ t, Answered { s with stream := t } calls) : s.Answered (call :: calls) := by
  by_cases hle : s.fanIn.amplitude f ≤ Random.greatestAmplitude
  · obtain ⟨x, t, hdraw, hx⟩ := exists_nextFor hs hle
    refine Answered.cons (t := t) ?_ (hrange x hx) hvalues
      (hwide.trans (or_iff_right (not_not.mpr hle))) (h t)
    rw [hrespond]
    change (nextFor s f >>= _) = _
    rw [hdraw]
    rfl
  · refine ⟨fun hnot => absurd (hwide.mpr (.inl hle)) hnot, fun _ => ?_⟩
    rw [replay, hrespond]
    change ((nextFor s f >>= _) >>= _) = _
    rw [nextFor_eq_badSpan hs hle]
    rfl

/-- **The answers to any calls**, by induction on the calls. -/
theorem answered (hs : s.fanIn.Sanitised) (hb : s.Bounded) (hfit : ∀ call ∈ calls, call.Fits) :
    s.Answered calls := by
  induction calls generalizing s with
  | nil => exact ⟨fun _ => ⟨[], s, rfl, .nil⟩, False.elim⟩
  | cons call calls ih =>
    obtain ⟨hfirst, hrest⟩ := List.forall_mem_cons.mp hfit
    cases call with
    | expect count range =>
      unfold Answered
      rw [replay_expect]
      exact ih (s := { s with fanIn := .of count range }) (FanIn.sanitised_of hfirst range) hb hrest
    | weightFor f =>
      exact answered_weight hs rfl rfl (fun _ => id) Iff.rfl fun t =>
        ih (s := { s with stream := t }) hs hb hrest
    | bias =>
      -- A bias is drawn as a weight for the identity.
      exact answered_weight hs (f := .identity) rfl rfl (fun _ => id) Iff.rfl fun t =>
        ih (s := { s with stream := t }) hs hb hrest
    | memoryFilter =>
      obtain ⟨x, t, hdraw, hx⟩ := exists_nextMemoryFilter hb
      refine Answered.cons (t := t) (x := x) ?_ (.inl hx) rfl Iff.rfl
        (ih (s := { s with stream := t }) hs hb hrest)
      change (nextMemoryFilter s >>= _) = _
      rw [hdraw]
      rfl

/-- **Draws are in range.**  An initializer of random weights with memory filters between two bounds
that are not NaNs

1. answers every call for a weight or a bias with one in `[-1, 1]` and every call for a memory filter
   with one between the bounds, moved into `[0, 1]`, unless a weight or a bias is asked for with an
   amplitude above `(2 ^ 53 - 3) * 2 ^ 970`;
2. has no answer if one is;
3. is never asked for one as long as no expected maximum is subnormal: zero, NaNs and infinities do
   not matter. -/
theorem draws_in_range (seed : ℕ) {a b : Float} (ha : a.isNaN = false) (hb : b.isNaN = false)
    {calls : List Call} (hfit : ∀ call ∈ calls, call.Fits) :
    (¬FanIn.TooWide .standard calls →
      ∃ values s, replay (between seed a b) calls = .ok (values, s) ∧
        List.Forall₂ (Call.InRange (limitFilter a) (limitFilter b))
          (calls.filter (·.values = 1)) values) ∧
    (FanIn.TooWide .standard calls → replay (between seed a b) calls = stop .badSpan) ∧
    ((∀ count range, .expect count range ∈ calls → ¬Subnormal range) →
      ¬FanIn.TooWide .standard calls) := by
  obtain ⟨hbounded, hbounds⟩ := bounded_between seed ha hb
  obtain ⟨hok, hstop⟩ := answered (s := between seed a b) FanIn.sanitised_standard hbounded hfit
  refine ⟨fun hnot => ?_, hstop, FanIn.not_tooWide FanIn.sanitised_standard ?_ hfit⟩
  · obtain ⟨values, s, hreplay, hrange⟩ := hok hnot
    refine ⟨values, s, hreplay, ?_⟩
    rcases hbounds with ⟨hlow, hhigh⟩ | ⟨hlow, hhigh⟩
    · rwa [hlow, hhigh] at hrange
    · rw [hlow, hhigh] at hrange
      exact hrange.imp fun _ _ h => h.symm
  · exact FanIn.ordinary_of (n := 1) (by decide) (by unfold Subnormal; decide +kernel)

/-- Bounds the other way round, and an infinite expectation. -/
theorem draws_in_range_reversed :
    (0.6 : Float).isNaN = false ∧ (0.2 : Float).isNaN = false ∧
    (∀ call ∈ [Call.expect 10 5.0, .weightFor .relu, .expect 3 (1.0 / 0.0), .bias, .memoryFilter],
      call.Fits) ∧
    ∃ x y z s, replay (between 42 0.6 0.2)
        [.expect 10 5.0, .weightFor .relu, .expect 3 (1.0 / 0.0), .bias, .memoryFilter] =
          .ok ([x, y, z], s) ∧
      (-1.0 ≤ x ∧ x ≤ 1.0) ∧ (-1.0 ≤ y ∧ y ≤ 1.0) ∧
      Between (limitFilter 0.6) (limitFilter 0.2) z := by
  have ha : (0.6 : Float).isNaN = false := by decide +kernel
  have hb : (0.2 : Float).isNaN = false := by decide +kernel
  have hfit : ∀ call ∈ [Call.expect 10 5.0, .weightFor .relu, .expect 3 (1.0 / 0.0), .bias,
      .memoryFilter], call.Fits := by
    simp [Call.Fits, Word.limit]
  obtain ⟨hok, -, hordinary⟩ := draws_in_range 42 ha hb hfit
  obtain ⟨values, s, hreplay, hrange⟩ := hok (hordinary (by
    intro count range hmem
    obtain ⟨-, rfl⟩ | ⟨-, rfl⟩ : (count = 10 ∧ range = 5.0) ∨ (count = 3 ∧ range = 1.0 / 0.0) := by
      simpa using hmem
    · unfold Subnormal
      decide +kernel
    · unfold Subnormal
      decide +kernel))
  change List.Forall₂ _ [Call.weightFor .relu, .bias, .memoryFilter] values at hrange
  obtain _ | ⟨hx, _ | ⟨hy, _ | ⟨hz, _ | _⟩⟩⟩ := hrange
  exact ⟨ha, hb, hfit, _, _, _, s, hreplay, hx, hy, hz⟩

/-- **A subnormal expectation** leaves no weight to draw: one divided by `1e-310` is infinite. -/
theorem replay_subnormal_badSpan :
    (∀ call ∈ [Call.expect 1 1e-310, .weightFor .identity], call.Fits) ∧
    replay (between 0 0.0 1.0) [.expect 1 1e-310, .weightFor .identity] = stop .badSpan := by
  have hfit : ∀ call ∈ [Call.expect 1 1e-310, .weightFor .identity], call.Fits := by
    simp [Call.Fits, Word.limit]
  have hbounded := (bounded_between 0 is_zero.isNaN is_one.isNaN).1
  have hwide : ¬(FanIn.of 1 1e-310).amplitude .identity ≤ Random.greatestAmplitude := by
    decide +kernel
  exact ⟨hfit, (answered FanIn.sanitised_standard hbounded hfit).2 (.inl hwide)⟩

end Scaled

end NeuralPlan
