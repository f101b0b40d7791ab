import NeuralPlan.Proofs.Budget
import NeuralPlan.Proofs.Values
import NeuralPlan.Proofs.Walks

/-!
# What a draft checks

Before a draft takes a neuron in it looks up all that the neuron names.  The checks pass exactly if
the neuron is one of the net, is not in the cell yet, names positions of the table of weights, has
as many weights as references, and references only what the cell can read.

## Main definitions

* `Neuron.WellFormed` — what is asked of a neuron whatever the cell holds.
* `Draft.CanName` — a reference that the cell can read.
* `Draft.Accepts` — what the checks ask of a neuron.

## Main results

* `Draft.examine_eq_ok_iff` — the checks pass exactly if the neuron is accepted.
* `Draft.canResolve_eq` — whether the neuron inputs of a neuron can be read.
* `Draft.fits_eq_ok_iff` — whether a neuron fits.
-/

set_option relaxedAutoImplicit false
set_option autoImplicit false

namespace NeuralPlan

/-! ## Weights -/

/-- A neuron whose runs count no more references than a signed word has as many as they count. -/
theorem Neuron.length_references {n : Neuron} (h : n.size < Word.signedLimit) :
    n.references.length = n.size := by
  refine Runs.length_indices_eq fun r hr => ?_
  have hle : r.size ≤ n.size := List.single_le_sum (fun _ _ => Nat.zero_le _) _
    (List.mem_map_of_mem hr)
  omega

/-- A weight of the net, looked up as whatever. -/
theorem Net.weightAs_eq_ok_iff {net : Net} {kind : IndexKind} {i : Nat} {x : Float} :
    net.weightAs kind i = .ok x ↔ i < net.weights.size ∧ x = net.weights.getD i 0.0 := by
  unfold weightAs
  split
  next h => simp [h, eq_comm]
  next h => simp [h]

/-- What the checks ask of a neuron whatever the cell holds. -/
structure Neuron.WellFormed (net : Net) (n : Neuron) : Prop where
  bias : n.bias < net.weights.size
  memoryFilter : n.memoryFilter < net.weights.size
  weights : ∀ pos ∈ Runs.indices n.weights.toList,
    Word.IsSigned pos ∧ Word.toUnsigned pos < net.weights.size
  count : (Runs.indices n.weights.toList).length = n.size
  references : ∀ ref ∈ n.references,
    if Ref.isInput ref then (-(ref + 1)).toNat < net.inputSize else ref.toNat < net.neuronCount

instance (net : Net) (n : Neuron) : Decidable (n.WellFormed net) :=
  decidable_of_iff (n.bias < net.weights.size ∧ n.memoryFilter < net.weights.size ∧
      (∀ pos ∈ Runs.indices n.weights.toList,
        Word.IsSigned pos ∧ Word.toUnsigned pos < net.weights.size) ∧
      (Runs.indices n.weights.toList).length = n.size ∧
      ∀ ref ∈ n.references,
        if Ref.isInput ref then (-(ref + 1)).toNat < net.inputSize else ref.toNat < net.neuronCount)
    ⟨fun ⟨hbias, hfilter, hweights, hcount, hrefs⟩ => ⟨hbias, hfilter, hweights, hcount, hrefs⟩,
      fun h => ⟨h.bias, h.memoryFilter, h.weights, h.count, h.references⟩⟩

/-- The neuron inputs of a well-formed neuron are neurons of the net. -/
theorem Neuron.WellFormed.neuronInputs_lt {net : Net} {n : Neuron} (h : n.WellFormed net) {j : Nat}
    (hj : j ∈ n.neuronInputs) : j < net.neuronCount := by
  obtain ⟨ref, href, hin, rfl⟩ := Neuron.mem_neuronInputs.mp hj
  have hname := h.references ref href
  rwa [if_neg (by simp [hin])] at hname

namespace Draft

/-- The weights of a neuron are collected if their positions are words that name entries of the
table. -/
theorem collectWeights_eq_ok_iff {net : Net} {n : Neuron} {ws : Array Float} :
    collectWeights net n.weights.toList = .ok ws ↔
      (∀ pos ∈ Runs.indices n.weights.toList,
        Word.IsSigned pos ∧ Word.toUnsigned pos < net.weights.size) ∧
      ws = (net.weightsOf n).toArray := by
  have hone : ∀ (pos : Int) (x : Float), net.weight (Word.toUnsigned pos) = .ok x ↔
      Word.toUnsigned pos < net.weights.size ∧ x = net.weights.getD (Word.toUnsigned pos) 0.0 :=
    fun _ _ => Net.weightAs_eq_ok_iff
  unfold collectWeights
  rw [Runs.foldlM_eq_ok_iff, Result.foldlM_push_eq_ok_iff hone, Array.empty_append, ← and_assoc,
    forall₂_and]
  rfl

/-! ## References -/

/-- The reference names an external input that there is, or a neuron that the cell can read. -/
def CanName (d : Draft) (ref : Int) : Prop :=
  if Ref.isInput ref then (-(ref + 1)).toNat < d.net.inputSize
  else ref.toNat < d.net.neuronCount ∧ d.canRead ref.toNat = true

/-- The check of a reference passes exactly if the cell can read what it names. -/
theorem checkReference_eq_ok_iff {d : Draft} {i : Nat} {ref : Int} :
    d.checkReference i ref = .ok () ↔ d.CanName ref := by
  unfold checkReference CanName
  cases hin : Ref.isInput ref with
  | true => simp [Ref.toInput, hin, checkIndex_eq_ok_iff]
  | false =>
    simp only [Bool.false_eq_true, if_false, Result.bind_eq_ok_iff]
    constructor
    · rintro ⟨⟨⟩, hlt, hread⟩
      split at hread
      next h => exact ⟨checkIndex_eq_ok_iff.mp hlt, h⟩
      next h => cases hread
    · intro h
      exact ⟨(), checkIndex_eq_ok_iff.mpr h.1, if_pos h.2⟩

/-- What the checks ask of the neuron `n`, which is to be the neuron `i`. -/
structure Accepts (d : Draft) (i : Nat) (n : Neuron) : Prop where
  neuron : d.net.neurons[i]? = some n
  fresh : d.contains i = false
  bias : n.bias < d.net.weights.size
  memoryFilter : n.memoryFilter < d.net.weights.size
  weights : ∀ pos ∈ Runs.indices n.weights.toList,
    Word.IsSigned pos ∧ Word.toUnsigned pos < d.net.weights.size
  count : n.size < Word.limit ∧ (d.net.weightsOf n).length = n.size
  references : ∀ ref ∈ n.references, Word.IsSigned ref ∧ d.CanName ref

/-- A neuron with its weights, its bias and its memory filter. -/
def examined (net : Net) (n : Neuron) : Examined where
  neuron := n
  weights := (net.weightsOf n).toArray
  bias := net.weights.getD n.bias 0.0
  memoryFilter := net.weights.getD n.memoryFilter 0.0

/-- **The checks pass** exactly if the neuron is accepted. -/
theorem examine_eq_ok_iff {d : Draft} {i : Nat} {e : Examined} :
    d.examine i = .ok e ↔ ∃ n, d.Accepts i n ∧ e = examined d.net n := by
  have hchecks : ∀ n : Neuron,
      Runs.foldlM (fun _ ref => d.checkReference i ref) () n.inputs.toList = .ok () ↔
        ∀ ref ∈ n.references, Word.IsSigned ref ∧ d.CanName ref := by
    intro n
    rw [Runs.foldlM_eq_ok_iff, Result.foldlM_check_eq_ok_iff, forall₂_and]
    simp only [checkReference_eq_ok_iff]
    rfl
  constructor
  · intro h
    obtain ⟨n, hn, h⟩ := Result.bind_eq_ok_iff.mp h
    cases hfresh : d.contains i with
    | true => simp [hfresh] at h
    | false =>
      simp only [hfresh, Bool.false_eq_true, if_false, Result.bind_eq_ok_iff,
        Net.weightAs_eq_ok_iff, collectWeights_eq_ok_iff, Neuron.inputCount_eq_ok_iff] at h
      obtain ⟨_, ⟨hbias, hb⟩, _, ⟨hfilter, hm⟩, _, ⟨hweights, rfl⟩, _, ⟨hlimit, rfl⟩, h⟩ := h
      split at h
      next hcount => simp at h
      next hcount =>
        simp only [Result.bind_eq_ok_iff] at h
        obtain ⟨⟨⟩, hrefs, h⟩ := h
        have hlen : (d.net.weightsOf n).length = n.size := by simpa using hcount
        exact ⟨n, ⟨Net.neuron_eq_ok_iff.mp hn, hfresh, hbias, hfilter, hweights, ⟨hlimit, hlen⟩,
          (hchecks n).mp hrefs⟩, by rw [← Except.ok.inj h, hb, hm, examined]⟩
  · rintro ⟨n, h, rfl⟩
    have hbias : d.net.weightAs .biasWeight n.bias = .ok _ :=
      Net.weightAs_eq_ok_iff.mpr ⟨h.bias, rfl⟩
    have hfilter : d.net.weightAs .memoryFilterWeight n.memoryFilter = .ok _ :=
      Net.weightAs_eq_ok_iff.mpr ⟨h.memoryFilter, rfl⟩
    have hcount : n.inputCount = .ok n.size :=
      Neuron.inputCount_eq_ok_iff.mpr ⟨h.count.1, rfl⟩
    have hsize : (d.net.weightsOf n).toArray.size = n.size := by simpa using h.count.2
    simp only [examine, Net.neuron_eq_ok_iff.mpr h.neuron, Result.ok_bind, h.fresh, hbias, hfilter,
      collectWeights_eq_ok_iff.mpr ⟨h.weights, rfl⟩, hcount, hsize, (hchecks n).mpr h.references,
      Bool.false_eq_true, if_false, ne_eq, not_true_eq_false, Result.pure_eq_ok, examined]

/-- An accepted neuron is well-formed. -/
theorem Accepts.wellFormed {d : Draft} {i : Nat} {n : Neuron} (h : d.Accepts i n) :
    n.WellFormed d.net := by
  refine ⟨h.bias, h.memoryFilter, h.weights, ?_, fun ref href => ?_⟩
  · have hcount := h.count.2
    rwa [Net.weightsOf, List.length_map] at hcount
  · have hname := (h.references ref href).2
    unfold CanName at hname
    split at hname
    next hin => rwa [if_pos hin]
    next hin => rw [if_neg hin]; exact hname.1

/-- The cell can read what an accepted neuron reads. -/
theorem Accepts.canRead {d : Draft} {i : Nat} {n : Neuron} (h : d.Accepts i n) :
    ∀ j ∈ n.neuronInputs, d.canRead j = true := by
  intro j hj
  obtain ⟨ref, href, hin, rfl⟩ := Neuron.mem_neuronInputs.mp hj
  have hname := (h.references ref href).2
  rw [CanName, if_neg (by simp [hin])] at hname
  exact hname.2

/-- A well-formed neuron that is not in the cell is accepted, if the cell can read its inputs. -/
theorem accepts_of_wellFormed {d : Draft} {i : Nat} {n : Neuron} (hn : d.net.neurons[i]? = some n)
    (h : n.WellFormed d.net) (hfresh : d.contains i = false) (hsize : n.size < Word.limit)
    (hsigned : ∀ ref ∈ n.references, Word.IsSigned ref)
    (hread : ∀ j ∈ n.neuronInputs, d.canRead j = true) : d.Accepts i n := by
  refine ⟨hn, hfresh, h.bias, h.memoryFilter, h.weights, ⟨hsize, ?_⟩,
    fun ref href => ⟨hsigned ref href, ?_⟩⟩
  · rw [Net.weightsOf, List.length_map, h.count]
  · have href' := h.references ref href
    unfold CanName
    split at href'
    next hin => rwa [if_pos hin]
    next hin =>
      rw [if_neg hin]
      exact ⟨href', hread _ (Neuron.mem_neuronInputs.mpr ⟨ref, href, by simpa using hin, rfl⟩)⟩

/-! ## Queries -/

/-- **Whether the neuron inputs can be read.** -/
theorem canResolve_eq {d : Draft} {i : Nat} {n : Neuron} (hn : d.net.neurons[i]? = some n)
    (hsigned : ∀ ref ∈ n.references, Word.IsSigned ref) :
    d.canResolve i = .ok (n.neuronInputs.all d.canRead) := by
  unfold canResolve
  rw [Net.neuron_eq_ok_iff.mpr hn, Result.ok_bind, Runs.allM_of_signed _ hsigned]
  change Except.ok (n.references.all _) = _
  rw [Neuron.neuronInputs, List.all_map, List.all_filter]
  simp

/-- **Whether a neuron fits.** -/
theorem fits_eq_ok_iff {d : Draft} {i budget : Nat} {b : Bool} :
    d.fits i budget = .ok b ↔
      i < d.net.neuronCount ∧ d.net.bytesOf i < Word.limit ∧
      d.cell.sizeBytes + d.net.bytesOf i < Word.limit ∧
      b = decide (d.cell.sizeBytes + d.net.bytesOf i ≤ budget) := by
  simp only [fits, Result.bind_eq_ok_iff, Draft.costAt_eq_ok_iff, Word.unsigned_eq_ok_iff,
    Result.pure_eq_ok, Except.ok.injEq]
  constructor
  · rintro ⟨_, ⟨hi, hcost, rfl⟩, _, ⟨hsum, rfl⟩, rfl⟩
    exact ⟨hi, hcost, hsum, rfl⟩
  · rintro ⟨hi, hcost, hsum, rfl⟩
    exact ⟨_, ⟨hi, hcost, rfl⟩, _, ⟨hsum, rfl⟩, rfl⟩

end Draft

end NeuralPlan
