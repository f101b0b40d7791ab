import NeuralPlan.Proofs.Dense.Generation
import NeuralPlan.Proofs.Double.Order

/-!
# Expectations of an initializer

An expectation is made such that a weighted sum of its inputs stays finite.  Where the product of the
number and the maximum overflows, the greatest double divided by the number takes the place of the
maximum.  This quotient is rounded, and where it is rounded up, the product overflows again.  It is
off by one double at most: with every smaller maximum the product is finite.

## Main definitions

* `FanIn.Safe` — the product of number and maximum is finite.
* `FanIn.RoundedUp` — the maximum is a quotient that was rounded up.
* `FanIn.Sanitised` — what holds of every expectation that was made.
* `FanIn.after` — the expectation after calls.

## Main results

* `FanIn.of_spec` — the maximum is a positive number, and it was either kept or substituted.
* `FanIn.sanitised_of`, `FanIn.safe_of_pow` — what is made of a number and a maximum.
* `Scaled.expectation_sanitised` — the expectation after any calls.
-/

set_option relaxedAutoImplicit false
set_option autoImplicit false

namespace NeuralPlan

open Double

namespace FanIn

/-! ## Products -/

/-- The product of the number and the maximum is finite. -/
def Safe (fanIn : FanIn) : Prop := (Float.ofNat fanIn.number * fanIn.maximum).isFinite = true

/-- The maximum is the greatest double divided by the number, rounded up. -/
def RoundedUp (fanIn : FanIn) : Prop :=
  fanIn.maximum = greatestFloat / Float.ofNat fanIn.number ∧
    ∀ c v, Is (Float.ofNat fanIn.number) c → Is fanIn.maximum v → greatest < c * v

variable {n : ℕ} {x : Float} {v : ℝ}

/-- The double of a number of inputs. -/
theorem is_ofNat (hn : n < Word.limit) : Is (Float.ofNat n) (nearest n) := by
  refine (rounds_ofNat n).is ?_
  have hcast : (n : ℝ) ≤ 2 ^ (64 : ℤ) := by exact_mod_cast hn.le
  rw [Nat.abs_cast]
  exact hcast.trans (zpow_le_greatest (by norm_num))

/-- The double of a positive number of inputs is at least one. -/
theorem one_le_nearest (hn : 1 ≤ n) : 1 ≤ nearest n :=
  le_nearest (representable_zpow (k := 0) (by norm_num)) (by exact_mod_cast hn)

/-- The double of a number of inputs is at most `2 ^ 64`. -/
theorem nearest_le_limit (hn : n < Word.limit) : nearest n ≤ 2 ^ (64 : ℤ) :=
  nearest_le (representable_zpow (by norm_num)) (by exact_mod_cast hn.le)

/-- The double of the greatest number. -/
theorem is_greatestFloat : Is greatestFloat greatest := by
  have his := is_ofBits_fields (b := 0x7fefffffffffffff) (c := 2046) (m := 2 ^ 52 - 1) rfl
    (by norm_num) (by norm_num) (by norm_num)
  have hvalue : ((2 ^ 52 + (2 ^ 52 - 1) : ℕ) : ℝ) * 2 ^ (((2046 : ℕ) : ℤ) - 1075) = greatest :=
    congrArg₂ (· * 2 ^ ·) (by norm_num) (by norm_num)
  rwa [hvalue] at his

/-- The double of the least amplitude. -/
theorem is_leastAmplitude : Is leastAmplitude (2 ^ (-52 : ℤ)) :=
  is_ofBits_zpow (c := 971) rfl (by norm_num) (by norm_num) (by norm_num)

/-- A product that is not greater than the greatest double is finite. -/
theorem safe_of_le (hn : n < Word.limit) (hx : Is x v) (hv : 0 ≤ v) (h : nearest n * v ≤ greatest) :
    Safe ⟨n, x⟩ := by
  refine (((is_ofNat hn).mul hx).is ?_).isFinite
  rwa [abs_of_nonneg (mul_nonneg (nearest_nonneg n.cast_nonneg) hv)]

/-! ## The substitute -/

/-- **The substitute** is a positive number, from `2 ^ 959` on. -/
theorem is_substitute (hn : 1 ≤ n) (hlt : n < Word.limit) :
    Is (greatestFloat / Float.ofNat n) (nearest (greatest / nearest n)) ∧
      2 ^ (959 : ℤ) ≤ nearest (greatest / nearest n) := by
  have hone := one_le_nearest hn
  have hpos : 0 < nearest n := one_pos.trans_le hone
  refine ⟨(is_greatestFloat.div (is_ofNat hlt) hpos.ne').is ?_, ?_⟩
  · rw [abs_of_nonneg (div_nonneg greatest_pos.le hpos.le)]
    exact div_le_self greatest_pos.le hone
  · refine le_nearest (representable_zpow (by norm_num)) ?_
    rw [le_div_iff₀ hpos]
    calc (2 : ℝ) ^ (959 : ℤ) * nearest n ≤ 2 ^ (959 : ℤ) * 2 ^ (64 : ℤ) :=
          mul_le_mul_of_nonneg_left (nearest_le_limit hlt) (by positivity)
      _ = 2 ^ (1023 : ℤ) := (zpow_add₀ (by norm_num) 959 64).symm
      _ ≤ greatest := zpow_le_greatest (by norm_num)

/-- **Below the substitute** every product is finite. -/
theorem safe_of_lt_substitute (hn : 1 ≤ n) (hlt : n < Word.limit) (hx : Is x v) (hv : 0 ≤ v)
    (h : v < nearest (greatest / nearest n)) : Safe ⟨n, x⟩ := by
  refine safe_of_le hlt hx hv ?_
  have hexact : v ≤ greatest / nearest n := by
    by_contra hgt
    exact absurd (nearest_le hx.representable (not_le.mp hgt).le) (not_le.mpr h)
  rw [mul_comm]
  exact (le_div_iff₀ (one_pos.trans_le (one_le_nearest hn))).mp hexact

/-- The greatest double divided by a power of two is a double. -/
theorem representable_greatest_div (k : ℕ) (hk : k ≤ 64) : Representable (greatest / 2 ^ k) := by
  refine ⟨2 ^ 53 - 1, 971 - k, by norm_num, by omega, ?_⟩
  rw [zpow_sub₀ (by norm_num), zpow_natCast, ← mul_div_assoc]
  exact congrArg (· * _ / _) (by norm_num)

/-! ## Expectations -/

/-- Below a finite product are finite products. -/
theorem Safe.of_lt {y : Float} {w : ℝ} (h : Safe ⟨n, x⟩) (hn : n < Word.limit) (hx : Is x v)
    (hy : Is y w) (hw : 0 ≤ w) (hwv : w ≤ v) : Safe ⟨n, y⟩ := by
  have hcount := nearest_nonneg (n.cast_nonneg (α := ℝ))
  have hproduct : |nearest (nearest n * v)| < limit :=
    ((is_ofNat hn).mul hx).isFinite_iff.mp h
  refine ((is_ofNat hn).mul hy).isFinite_iff.mpr (lt_of_le_of_lt ?_ hproduct)
  rw [abs_of_nonneg (nearest_nonneg (mul_nonneg hcount hw)),
    abs_of_nonneg (nearest_nonneg (mul_nonneg hcount (hw.trans hwv)))]
  exact nearest_mono (mul_le_mul_of_nonneg_left hwv hcount)

/-- **What is made of a number and a maximum**: the maximum is a positive number, and either the
product is finite or the maximum was substituted. -/
theorem of_spec (hn : n < Word.limit) (x : Float) :
    (of n x).number = max n 1 ∧ ∃ v, Is (of n x).maximum v ∧ 0 < v ∧
      ((of n x).Safe ∨ (of n x).maximum = greatestFloat / Float.ofNat (max n 1)) := by
  have hpos : 1 ≤ max n 1 := le_max_right n 1
  have hlt : max n 1 < Word.limit := max_lt hn (by decide)
  unfold of
  dsimp only
  split
  · refine ⟨rfl, _, is_leastAmplitude, by positivity, .inl ?_⟩
    refine safe_of_le hlt is_leastAmplitude (by positivity) ?_
    calc nearest (max n 1 : ℕ) * 2 ^ (-52 : ℤ) ≤ 2 ^ (64 : ℤ) * 2 ^ (-52 : ℤ) :=
          mul_le_mul_of_nonneg_right (nearest_le_limit hlt) (by positivity)
      _ = 2 ^ (12 : ℤ) := (zpow_add₀ (by norm_num) 64 (-52)).symm
      _ ≤ greatest := zpow_le_greatest (by norm_num)
  next hordinary =>
    split
    next hfinite =>
      obtain ⟨v, hv⟩ := isFinite_iff.mp (isFinite_of_mul hfinite).2
      obtain ⟨w, -, rfl⟩ := exists_of_abs hv
      refine ⟨rfl, _, hv, (abs_nonneg w).lt_of_ne fun hzero => hordinary ?_, .inl hfinite⟩
      rw [(hv.beq_iff is_zero).mpr hzero.symm, Bool.true_or]
    · obtain ⟨hq, hleast⟩ := is_substitute hpos hlt
      exact ⟨rfl, _, hq, lt_of_lt_of_le (by positivity) hleast, .inr rfl⟩

/-- **A positive maximum stays as it is**, if the product is finite or it is the substitute. -/
theorem of_eq_self (hn : 1 ≤ n) (hx : Is x v) (hv : 0 < v)
    (h : Safe ⟨n, x⟩ ∨ x = greatestFloat / Float.ofNat n) : of n x = ⟨n, x⟩ := by
  have habs : x.abs = x := by
    have his := hx.abs
    rw [abs_of_pos hv] at his
    exact his.eq_of_pos hx hv
  have hordinary : ¬(x == 0.0 || x.isNaN) = true := by
    have hzero : ¬(x == 0.0) = true := fun heq => hv.ne' ((hx.beq_iff is_zero).mp heq)
    rw [hx.isNaN, Bool.or_false]
    exact hzero
  unfold of
  dsimp only
  rw [max_eq_left hn, habs, if_neg hordinary]
  split
  · rfl
  next hinfinite => rw [← h.resolve_left hinfinite]

/-- What holds of an expectation that was made. -/
structure Sanitised (fanIn : FanIn) : Prop where
  /-- There is an input. -/
  number_pos : 1 ≤ fanIn.number
  /-- A word holds their number. -/
  number_lt : fanIn.number < Word.limit
  /-- The maximum is finite. -/
  isFinite : fanIn.maximum.isFinite = true
  /-- The maximum is above zero. -/
  maximum_pos : 0.0 < fanIn.maximum
  /-- The expectation is made of itself. -/
  of_self : of fanIn.number fanIn.maximum = fanIn
  /-- With a smaller maximum, the product is finite. -/
  safe_of_lt : ∀ x : Float, 0.0 ≤ x → x < fanIn.maximum → Safe ⟨fanIn.number, x⟩
  /-- With the maximum itself, it is finite unless the maximum is a quotient that was rounded up. -/
  safe_or_roundedUp : fanIn.Safe ∨ fanIn.RoundedUp
  /-- For a power of two of inputs, the product is finite. -/
  safe_of_pow : ∀ k, fanIn.number = 2 ^ k → fanIn.Safe

/-- **What is made of a number and a maximum** is sanitised. -/
theorem sanitised_of (hn : n < Word.limit) (x : Float) : (of n x).Sanitised := by
  have hpos : 1 ≤ max n 1 := le_max_right n 1
  have hlt : max n 1 < Word.limit := max_lt hn (by decide)
  obtain ⟨hnumber, v, hv, hpositive, hor⟩ := of_spec hn x
  generalize of n x = fanIn at hnumber hv hor ⊢
  obtain ⟨number, maximum⟩ := fanIn
  subst hnumber
  dsimp only at hv hor
  have hquotient : ¬Safe ⟨max n 1, maximum⟩ → v = nearest (greatest / nearest (max n 1 : ℕ)) := by
    intro hunsafe
    have hsubstitute := hor.resolve_left hunsafe
    rw [hsubstitute] at hv
    exact hv.unique (is_substitute hpos hlt).1
  refine ⟨hpos, hlt, hv.isFinite, (is_zero.lt_iff hv).mpr hpositive,
    of_eq_self hpos hv hpositive hor, ?_, ?_, ?_⟩
  · intro y hy hless
    obtain ⟨w, hw, hnonneg, hwv⟩ := exists_of_le_of_lt is_zero hv hy hless
    by_cases hsafe : Safe ⟨max n 1, maximum⟩
    · exact hsafe.of_lt hlt hv hw hnonneg hwv.le
    · exact safe_of_lt_substitute hpos hlt hw hnonneg (hwv.trans_eq (hquotient hsafe))
  · refine or_iff_not_imp_left.mpr fun hunsafe => ⟨hor.resolve_left hunsafe, fun c w hc hw => ?_⟩
    rw [hc.unique (is_ofNat hlt), hw.unique hv]
    exact not_le.mp fun hle => hunsafe (safe_of_le hlt hv hpositive.le hle)
  · intro k hk
    dsimp only at hk
    by_contra hunsafe
    have hexponent : k ≤ 64 := by
      by_contra hgt
      rw [hk] at hlt
      exact absurd (Nat.pow_le_pow_right two_pos (not_le.mp hgt).le) (not_le.mpr hlt)
    have hcount : nearest (max n 1 : ℕ) = 2 ^ k := by
      rw [hk, Nat.cast_pow, Nat.cast_ofNat, ← zpow_natCast]
      exact nearest_of_representable (representable_zpow (by omega))
    refine hunsafe (safe_of_le hlt hv hpositive.le ?_)
    rw [hquotient hunsafe, hcount, nearest_of_representable (representable_greatest_div k hexponent),
      mul_div_cancel₀ _ (by positivity)]

/-- The standard expectation is sanitised. -/
theorem sanitised_standard : standard.Sanitised := sanitised_of (n := 1) (by decide) _

end FanIn

/-! ## Calls -/

namespace Initializer

/-- A word holds the number of inputs that a call gives. -/
def Call.Fits : Call → Prop
  | .expect count _ => count < Word.limit
  | _ => True

end Initializer

namespace Scaled

open Initializer

variable {s s' : Scaled} {call : Call} {calls : List Call} {values : List Float}

/-- One call keeps the expectation sanitised. -/
theorem sanitised_of_respond (hs : s.fanIn.Sanitised) (hfit : call.Fits)
    (h : respond s call = .ok (values, s')) : s'.fanIn.Sanitised := by
  cases call with
  | expect count range =>
    obtain ⟨-, rfl⟩ := Prod.mk.inj (Except.ok.inj h)
    exact FanIn.sanitised_of hfit range
  | weightFor f =>
    obtain ⟨x, hx, h⟩ := Result.bind_eq_ok_iff.mp h
    obtain ⟨y, -, hy⟩ := Result.bind_eq_ok_iff.mp hx
    cases hy
    cases h
    exact hs
  | bias =>
    obtain ⟨x, hx, h⟩ := Result.bind_eq_ok_iff.mp h
    obtain ⟨y, -, hy⟩ := Result.bind_eq_ok_iff.mp hx
    cases hy
    cases h
    exact hs
  | memoryFilter =>
    obtain ⟨x, hx, h⟩ := Result.bind_eq_ok_iff.mp h
    obtain ⟨y, -, hy⟩ := Result.bind_eq_ok_iff.mp hx
    cases hy
    cases h
    exact hs

/-- Calls keep the expectation sanitised. -/
theorem sanitised_of_replay (hs : s.fanIn.Sanitised) (hfit : ∀ call ∈ calls, call.Fits)
    (h : replay s calls = .ok (values, s')) : s'.fanIn.Sanitised := by
  induction calls generalizing s values with
  | nil =>
    obtain ⟨-, rfl⟩ := Prod.mk.inj (Except.ok.inj h)
    exact hs
  | cons call calls ih =>
    obtain ⟨hfirst, hrest⟩ := List.forall_mem_cons.mp hfit
    obtain ⟨x, hx, h⟩ := Result.bind_eq_ok_iff.mp h
    obtain ⟨y, hy, h⟩ := Result.bind_eq_ok_iff.mp h
    obtain ⟨-, rfl⟩ := Prod.mk.inj (Except.ok.inj h)
    exact ih (sanitised_of_respond hs hfirst hx) hrest hy

/-- Expectations never fail. -/
theorem exists_replay (hcalls : ∀ call ∈ calls, call.values = 0) :
    ∃ s', replay s calls = .ok ([], s') := by
  induction calls generalizing s with
  | nil => exact ⟨s, rfl⟩
  | cons call calls ih =>
    obtain ⟨hfirst, hrest⟩ := List.forall_mem_cons.mp hcalls
    cases call with
    | expect count range =>
      rw [replay_expect]
      exact ih hrest
    | weightFor f => exact absurd hfirst Nat.one_ne_zero
    | bias => exact absurd hfirst Nat.one_ne_zero
    | memoryFilter => exact absurd hfirst Nat.one_ne_zero

/-- **Sanitised expectations.**  Whatever an initializer of random weights is told and asked for, its
expectation afterwards

1. has an input, and a maximum that is finite and above zero,
2. is made of itself, so that making it again changes nothing,
3. has a finite product of number and maximum, unless the maximum is the greatest double divided by
   the number, rounded up; in particular if the number is a power of two, and with every smaller
   maximum.

Expectations alone never fail. -/
theorem expectation_sanitised (seed : ℕ) (a b : Float) (calls : List Call)
    (hfit : ∀ call ∈ calls, call.Fits) :
    (∀ values s, replay (between seed a b) calls = .ok (values, s) → s.fanIn.Sanitised) ∧
    ((∀ call ∈ calls, call.values = 0) → ∃ s, replay (between seed a b) calls = .ok ([], s)) :=
  ⟨fun _ _ h => sanitised_of_replay FanIn.sanitised_standard hfit h, exists_replay⟩

/-- Four inputs of a size that is too great, then three. -/
theorem expectation_sanitised_three :
    (∀ call ∈ [Call.expect 4 greatestFloat, Call.expect 3 greatestFloat], call.Fits) ∧
    ∃ s, replay (between 0 0.0 1.0) [.expect 4 greatestFloat, .expect 3 greatestFloat] = .ok ([], s) ∧
      s.fanIn.Sanitised := by
  have hfit : ∀ call ∈ [Call.expect 4 greatestFloat, Call.expect 3 greatestFloat], call.Fits :=
    List.forall_mem_cons.mpr ⟨(by decide : 4 < Word.limit),
      List.forall_mem_singleton.mpr (by decide : 3 < Word.limit)⟩
  obtain ⟨hsanitised, htotal⟩ := expectation_sanitised 0 0.0 1.0 _ hfit
  obtain ⟨s, hs⟩ := htotal (List.forall_mem_cons.mpr ⟨rfl, List.forall_mem_singleton.mpr rfl⟩)
  exact ⟨hfit, s, hs, hsanitised _ _ hs⟩

/-- **A third of the greatest double is rounded up**: three inputs of this size overflow. -/
theorem third_of_greatest_unsafe :
    ∃ s, replay (between 0 0.0 1.0) [.expect 3 greatestFloat] = .ok ([], s) ∧ ¬s.fanIn.Safe :=
  ⟨_, rfl, by unfold FanIn.Safe; decide +kernel⟩

end Scaled

end NeuralPlan
