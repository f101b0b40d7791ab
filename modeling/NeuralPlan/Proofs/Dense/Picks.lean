import NeuralPlan.Proofs.Dense.Generation

/-!
# The activations of a dense net

The activation of each neuron is drawn from those that its layer may choose from, and before the next
layer the initializer is told the greatest range of those that were drawn.

## Main results

* `Random.exists_choose` — what is drawn from an array is one of its elements.
* `Dense.mem_of_mem_picks` — the activations of a layer are among its choices.
* `Dense.isGreatest_greatestRange` — the range that the initializer is told is the greatest one.
-/

set_option relaxedAutoImplicit false
set_option autoImplicit false

namespace NeuralPlan

/-! ## Draws -/

namespace Random

variable {width : Width} {n : Nat}

/-- What is drawn is one of the draws of its width. -/
theorem Width.next_lt (s : Stream) : ∀ width : Width, (width.next s).1 < width.limit
  | word => s.nextWord.1.toNat_lt
  | pair => s.nextPair.1.toNat_lt

/-- The high half of a draw times a bound is below the bound. -/
theorem high_lt (hn : 0 < n) (s : Stream) : (width.next s).1 * n / width.limit < n :=
  Nat.div_lt_of_lt_mul (Nat.mul_lt_mul_of_pos_right (width.next_lt s) hn)

/-- A number that is drawn below a bound is below it. -/
theorem below_lt (hn : 0 < n) (retries : Nat) (s : Stream) : (below width n retries s).1 < n := by
  induction retries generalizing s with
  | zero => exact high_lt hn s
  | succ retries ih =>
    unfold below
    dsimp only
    split
    · exact high_lt hn s
    · exact ih (width.next s).2

/-- **What is drawn from an array** is one of its elements. -/
theorem exists_choose {α : Type} {choices : Array α} (hne : choices ≠ #[]) (s : Stream) :
    ∃ a ∈ choices, (choose choices s).1 = some a := by
  have hlt : (below (.ofBound choices.size) choices.size maxRetries s).1 < choices.size :=
    below_lt (Array.size_pos_iff.mpr hne) maxRetries s
  refine ⟨_, Array.getElem_mem hlt, ?_⟩
  rw [choose, if_neg (by simpa using hne)]
  exact Array.getElem?_eq_getElem hlt

end Random

/-! ## Ranges -/

/-- The ranges that can come up: none so far, and those of the activations. -/
def IsLevel (range : Float) : Prop := range = 0.0 ∨ range = 1.0 ∨ range = 50.0

/-- The range of an activation is one or fifty. -/
theorem Activation.isLevel_range (f : Activation) : IsLevel f.range := by
  cases f <;> simp [range, IsLevel]

/-- The ranges that can come up are ordered. -/
theorem IsLevel.le_trans {a b c : Float} (ha : IsLevel a) (hb : IsLevel b) (hc : IsLevel c)
    (hab : a ≤ b) (hbc : b ≤ c) : a ≤ c := by
  revert hab hbc
  rcases ha with rfl | rfl | rfl <;> rcases hb with rfl | rfl | rfl <;>
    rcases hc with rfl | rfl | rfl <;> decide +kernel

/-- The greater one of two ranges. -/
theorem IsLevel.le_max {a b : Float} (ha : IsLevel a) (hb : IsLevel b) :
    a ≤ (if a < b then b else a) ∧ b ≤ (if a < b then b else a) := by
  rcases ha with rfl | rfl | rfl <;> rcases hb with rfl | rfl | rfl <;> decide +kernel

namespace Dense

variable {fs : List Activation} {range : Float}

/-- One activation more. -/
theorem widen_cons (range : Float) (f : Activation) (fs : List Activation) :
    widen range (f :: fs) = widen (if range < f.range then f.range else range) fs := rfl

/-- A range is widened to the greatest one. -/
theorem widen_spec (hrange : IsLevel range) :
    IsLevel (widen range fs) ∧ range ≤ widen range fs ∧ (∀ f ∈ fs, f.range ≤ widen range fs) ∧
      (widen range fs = range ∨ ∃ f ∈ fs, f.range = widen range fs) := by
  induction fs generalizing range with
  | nil =>
    refine ⟨hrange, ?_, by simp, .inl rfl⟩
    rcases hrange with rfl | rfl | rfl <;> decide +kernel
  | cons f fs ih =>
    have hmax := hrange.le_max f.isLevel_range
    have hlevel : IsLevel (if range < f.range then f.range else range) := by
      split
      · exact f.isLevel_range
      · exact hrange
    obtain ⟨hend, hle, hall, hsome⟩ := ih hlevel
    rw [widen_cons]
    refine ⟨hend, hrange.le_trans hlevel hend hmax.1 hle,
      List.forall_mem_cons.mpr ⟨f.isLevel_range.le_trans hlevel hend hmax.2 hle, hall⟩, ?_⟩
    rcases hsome with hsame | ⟨g, hg, hsame⟩
    · rw [hsame]
      split
      · exact .inr ⟨f, by simp, rfl⟩
      · exact .inl rfl
    · exact .inr ⟨g, List.mem_cons_of_mem _ hg, hsame⟩

/-- **The greatest range** of some activations is the range of one of them, and no other one's is
greater. -/
theorem isGreatest_greatestRange (hne : fs ≠ []) :
    (∀ f ∈ fs, f.range ≤ greatestRange fs) ∧ ∃ f ∈ fs, f.range = greatestRange fs := by
  obtain ⟨-, -, hall, hsome⟩ :
      IsLevel (greatestRange fs) ∧ 0.0 ≤ greatestRange fs ∧ _ ∧ _ := widen_spec (.inl rfl)
  refine ⟨hall, hsome.resolve_left fun hzero => ?_⟩
  obtain ⟨f, hf⟩ := List.exists_mem_of_ne_nil fs hne
  have hle := hall f hf
  rw [hzero] at hle
  revert hle
  cases f <;> decide +kernel

/-! ## Picks -/

/-- The activations of one layer are among its choices. -/
theorem mem_of_mem_picksOf {choices : Array Activation} (hne : choices ≠ #[]) (neurons : Nat)
    (stream : Random.Stream) :
    ∀ f ∈ (picksOf choices neurons stream).1, f ∈ choices := by
  induction neurons generalizing stream with
  | zero => simp [picksOf]
  | succ neurons ih =>
    obtain ⟨f, hf, hdrawn⟩ := Random.exists_choose hne stream
    rw [picksOf]
    refine List.forall_mem_cons.mpr ⟨?_, ih _⟩
    rwa [pick, hdrawn]

/-- **The activations of every layer** are among its choices. -/
theorem mem_of_mem_picks {layers : List (Nat × Array Activation)} {stream : Random.Stream} {l : Nat}
    {layer : Nat × Array Activation} (hlayer : layers[l]? = some layer) (hne : layer.2 ≠ #[]) :
    ∀ f ∈ (picks layers stream).1.getD l [], f ∈ layer.2 := by
  induction layers generalizing l stream with
  | nil => simp at hlayer
  | cons first layers ih =>
    cases l with
    | zero =>
      obtain rfl : first = layer := by simpa using hlayer
      exact mem_of_mem_picksOf hne first.1 stream
    | succ l => exact ih hlayer

/-- There are as many activations as neurons in each layer. -/
theorem map_length_picks (layers : List (Nat × Array Activation)) (stream : Random.Stream) :
    (picks layers stream).1.map List.length = layers.map Prod.fst := by
  induction layers generalizing stream with
  | nil => rfl
  | cons layer layers ih => rw [picks, List.map_cons, List.map_cons, length_picksOf, ih]

end Dense

end NeuralPlan
