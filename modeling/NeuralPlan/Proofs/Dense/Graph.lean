import NeuralPlan.Proofs.Dense.Layers
import NeuralPlan.Proofs.Plan.Success

/-!
# The graph of a dense net

Each neuron of a dense net reads all neurons of the layer before its own.  So a layer can only be
solved once all of the layer before is, and as long as some of its neurons are left, these are all
that can be solved next.

## Main definitions

* `Dense.inputs` — the neurons that those of a layer read.
* `Net.IsStack` — a net whose neurons read all neurons of the layer before.
* `Dense.totalCost` — the cost of all neurons of layers.

## Main results

* `Net.IsStack.due_range` — what can be solved after the first neurons.
* `Net.IsStack.few_iff` — how many neurons are read.
* `Net.IsLayered.wellFormed` — what the neurons of a layered net name is there.
* `Dense.totalBytes_of_dense` — the cost of what has been generated.
* `Dense.isLayered_of_dense`, `Dense.isStack_of_dense` — what has been generated is layered.
-/

set_option relaxedAutoImplicit false
set_option autoImplicit false

namespace NeuralPlan

/-- The neurons that those of the layer `l` read: none if it is the first one, and all of the layer
before else. -/
def Dense.inputs (layers : List Nat) : Nat → List Nat
  | 0 => []
  | l + 1 => List.range' (layers.take l).sum (layers.getD l 0)

/-- The neurons of the net are in layers of these sizes, none of which is empty, and read the
neurons of the layer before. -/
structure Net.IsStack (net : Net) (layers : List Nat) : Prop where
  nonempty : 0 ∉ layers
  count : net.neuronCount = layers.sum
  inputs : ∀ l i, (layers.take l).sum ≤ i → i < (layers.take (l + 1)).sum →
    net.inputsOf i = Dense.inputs layers l

variable {net : Net} {layers : List Nat} {picks : List (List Activation)} {l m i j : Nat}

/-! ## Layers -/

namespace Dense

/-- The first layers have no more neurons than these and others. -/
theorem sum_take_mono (layers : List Nat) {l m : Nat} (h : l ≤ m) :
    (layers.take l).sum ≤ (layers.take m).sum := by
  have hle := sum_take_le (layers.take m) l
  rwa [List.take_take, Nat.min_eq_left h] at hle

/-- There are neurons in every layer. -/
theorem sum_take_lt (hzero : 0 ∉ layers) (hl : l < layers.length) :
    (layers.take l).sum < (layers.take (l + 1)).sum := by
  have hone := sum_take_add layers l
  have hsize : layers.getD l 0 ≠ 0 := by
    rw [List.getD_eq_getElem _ _ hl]
    exact fun h => hzero (h ▸ List.getElem_mem hl)
  omega

/-- The neurons of a layer read neurons before it. -/
theorem lt_of_mem_inputs (h : j ∈ inputs layers l) : j < (layers.take l).sum := by
  cases l with
  | zero => cases h
  | succ l =>
    have hle := List.mem_range'_1.mp h
    have hone := sum_take_add layers l
    omega

end Dense

open NeuralPlan.Dense

namespace Net.IsStack

/-- The neurons read neurons before them only, so that there are no cycles. -/
theorem acyclic (h : net.IsStack layers) : net.Acyclic := by
  refine Net.acyclic_of_rank id fun i j hij => ?_
  obtain ⟨l, -, hfirst, hlast⟩ := exists_layer_of_lt (h.count ▸ hij.lt)
  rw [Net.Reads, h.inputs l i hfirst hlast] at hij
  exact (lt_of_mem_inputs hij).trans_le hfirst

/-- **After the first neurons** it is the others of the last layer that has been begun which can be
solved, if there are any.

**Proof sketch.** What they read lies before this layer.  A neuron of a later layer reads the last
neuron of the layer before its own, which is not among the first ones. -/
theorem mem_due_range (h : net.IsStack layers) (hfirst : (layers.take l).sum ≤ m)
    (hlast : m < (layers.take (l + 1)).sum) :
    i ∈ net.due (List.range m) ↔ m ≤ i ∧ i < (layers.take (l + 1)).sum := by
  simp only [Net.mem_due, List.mem_range, h.count]
  constructor
  · rintro ⟨hi, hnew, hreads⟩
    refine ⟨Nat.le_of_not_lt hnew, ?_⟩
    -- A neuron of a later layer reads the last one of the layer before, which is not done.
    by_contra hlater
    obtain ⟨q, hq, hqi, hiq⟩ := exists_layer_of_lt hi
    have hlq : l < q := by
      by_contra hql
      have hle := sum_take_mono layers (show q + 1 ≤ l + 1 by omega)
      omega
    obtain ⟨q, rfl⟩ : ∃ r, q = r + 1 := ⟨q - 1, by omega⟩
    have hpos := sum_take_lt h.nonempty (Nat.lt_of_succ_lt hq)
    have hle := sum_take_mono layers (show l + 1 ≤ q + 1 by omega)
    have hread : net.Reads i ((layers.take (q + 1)).sum - 1) := by
      have hlayer := sum_take_add layers q
      rw [Net.Reads, h.inputs (q + 1) i hqi hiq, Dense.inputs, List.mem_range'_1]
      omega
    have hdone := hreads _ hread
    omega
  · rintro ⟨hm, hi⟩
    have hle := sum_take_le layers (l + 1)
    refine ⟨by omega, by omega, fun j hj => ?_⟩
    rw [Net.Reads, h.inputs l i (by omega) hi] at hj
    have hj := lt_of_mem_inputs hj
    omega

/-- **What can be solved after the first neurons**, in ascending order. -/
theorem due_range (h : net.IsStack layers) (hfirst : (layers.take l).sum ≤ m)
    (hlast : m < (layers.take (l + 1)).sum) :
    net.due (List.range m) = List.range' m ((layers.take (l + 1)).sum - m) := by
  have hsorted : (net.due (List.range m)).Pairwise (· < ·) := List.pairwise_lt_range.filter _
  have hperm : (net.due (List.range m)).Perm (List.range' m ((layers.take (l + 1)).sum - m)) := by
    refine (List.perm_ext_iff_of_nodup hsorted.nodup List.nodup_range').mpr fun i => ?_
    rw [h.mem_due_range hfirst hlast, List.mem_range'_1]
    omega
  exact hperm.eq_of_pairwise' hsorted List.pairwise_lt_range'

/-- After all neurons there are none to be solved. -/
theorem due_range_eq_nil (h : net.IsStack layers) (hm : layers.sum ≤ m) :
    net.due (List.range m) = [] := by
  refine List.eq_nil_iff_forall_not_mem.mpr fun i hi => ?_
  obtain ⟨hlt, hnew, -⟩ := Net.mem_due.mp hi
  rw [List.mem_range] at hnew
  rw [h.count] at hlt
  omega

/-- **No neuron reads too many** exactly if no layer but the last one has too many neurons. -/
theorem few_iff (h : net.IsStack layers) (most : Nat) :
    (∀ n ∈ net.neurons, n.neuronInputs.length ≤ most) ↔ ∀ size ∈ layers.dropLast, size ≤ most := by
  constructor
  · intro hfew size hsize
    obtain ⟨l, hl, rfl⟩ := List.mem_iff_getElem.mp hsize
    rw [List.length_dropLast] at hl
    have hpos := sum_take_lt h.nonempty (show l + 1 < layers.length by omega)
    have hle := sum_take_le layers (l + 1 + 1)
    have hi : (layers.take (l + 1)).sum < net.neuronCount := by
      rw [h.count]
      omega
    have hinputs := h.inputs (l + 1) _ le_rfl hpos
    have hn := Array.getElem?_eq_getElem hi
    have hone := hfew _ (Array.getElem_mem hi)
    rw [← Net.inputsOf_eq hn, hinputs, Dense.inputs, List.length_range',
      List.getD_eq_getElem _ _ (by omega)] at hone
    rwa [List.getElem_dropLast]
  · intro hsizes n hn
    obtain ⟨i, hi⟩ := Array.mem_iff_getElem?.mp hn
    have hlt : i < net.neuronCount := (Array.getElem?_eq_some_iff.mp hi).1
    obtain ⟨l, hl, hfirst, hlast⟩ := exists_layer_of_lt (h.count ▸ hlt)
    rw [← Net.inputsOf_eq hi, h.inputs l i hfirst hlast]
    cases l with
    | zero => exact Nat.zero_le most
    | succ l =>
      rw [Dense.inputs, List.length_range', List.getD_eq_getElem _ _ (by omega),
        ← List.getElem_dropLast (by rw [List.length_dropLast]; omega)]
      exact hsizes _ (List.getElem_mem _)

end Net.IsStack

/-! ## Layered nets -/

/-- The sources of a layer name the neurons that it reads. -/
theorem Dense.neuronInputs_eq {n : Neuron} {inputSize : Nat}
    (h : n.references = Dense.sources inputSize layers l) :
    n.neuronInputs = Dense.inputs layers l := by
  rw [Neuron.neuronInputs, h]
  cases l with
  | zero => simp [Dense.sources, Dense.inputs, List.filter_map, Function.comp_def,
      Ref.isInput_input]
  | succ l => simp [Dense.sources, Dense.inputs, List.filter_map, Function.comp_def, Ref.isInput]

namespace Net.IsLayered

/-- A layered net without an empty layer is a stack of its layers. -/
theorem isStack (h : net.IsLayered layers picks) (hpicks : picks.map List.length = layers)
    (hzero : 0 ∉ layers) : net.IsStack layers := by
  refine ⟨hzero, h.count, fun l i hfirst hlast => ?_⟩
  obtain ⟨n, hn, hreads, -⟩ := h.exists_neuron hpicks hfirst hlast
  rw [Net.inputsOf_eq hn, Dense.neuronInputs_eq hreads]

/-- The places of a neuron are places of the table. -/
theorem exists_place (h : net.IsLayered layers picks) {n : Neuron} (hn : n ∈ net.neurons)
    {pos : Int} (hpos : pos ∈ n.places) : ∃ place < net.weights.size, (place : Int) = pos := by
  have hmem : pos ∈ net.neurons.toList.flatMap Neuron.places :=
    List.mem_flatMap.mpr ⟨n, Array.mem_toList_iff.mpr hn, hpos⟩
  rw [h.places] at hmem
  simpa using hmem

/-- **What the neurons of a layered net name is there**, if signed words count the table and what
each neuron reads. -/
theorem wellFormed (h : net.IsLayered layers picks) (hpicks : picks.map List.length = layers)
    (htable : net.weights.size < Word.signedLimit)
    (hsize : ∀ n ∈ net.neurons, n.size < Word.signedLimit) :
    ∀ n ∈ net.neurons, n.WellFormed net := by
  intro n hn
  obtain ⟨i, hi⟩ := Array.mem_iff_getElem?.mp hn
  have hlt : i < net.neuronCount := (Array.getElem?_eq_some_iff.mp hi).1
  obtain ⟨l, -, hfirst, hlast⟩ := exists_layer_of_lt (h.count ▸ hlt)
  obtain ⟨n', hn', hreads, hweights⟩ := h.exists_neuron hpicks hfirst hlast
  obtain rfl : n = n' := Option.some.inj (hi.symm.trans hn')
  refine ⟨?_, ?_, fun pos hpos => ?_, ?_, fun ref href => ?_⟩
  · obtain ⟨place, hlt, hsame⟩ :=
      h.exists_place hn (show (n.bias : Int) ∈ n.places by simp [Neuron.places])
    omega
  · obtain ⟨place, hlt, hsame⟩ :=
      h.exists_place hn (show (n.memoryFilter : Int) ∈ n.places by simp [Neuron.places])
    omega
  · obtain ⟨place, hlt, rfl⟩ := h.exists_place hn (List.mem_append_left _ hpos)
    have hsigned : place < Word.signedLimit := by omega
    rw [Word.toUnsigned_natCast hsigned]
    exact ⟨Word.isSigned_of_lt hsigned, hlt⟩
  · rw [hweights, Neuron.length_references (hsize n hn)]
  · rw [hreads] at href
    cases l with
    | zero =>
      obtain ⟨input, hinput, rfl⟩ := List.mem_map.mp href
      rw [if_pos (Ref.isInput_input input)]
      have hlt := List.mem_range.mp hinput
      simp only [Ref.input]
      omega
    | succ l =>
      obtain ⟨j, hj, rfl⟩ := List.mem_map.mp href
      have hj := List.mem_range'_1.mp hj
      have hlayer := sum_take_add layers l
      rw [if_neg (by simp [Ref.isInput])]
      omega

end Net.IsLayered

/-! ## Dense nets -/

namespace Dense

/-- A neuron counts the references that its run does. -/
theorem size_neuronAt (sources : Run) (place : Nat) (f : Activation) :
    (neuronAt sources place f).size = sources.size := by
  unfold Neuron.size neuronAt
  by_cases h : sources.size = 0
  · simp [h]
  · simp [h]

/-- The neurons of a layer cost the same. -/
theorem sum_bytes_layerOf (sources : Run) (place : Nat) (fs : List Activation) :
    ((layerOf sources place fs).map Neuron.bytes).sum =
      fs.length * Neuron.costOf sources.size := by
  induction fs generalizing place with
  | nil => simp [layerOf]
  | cons f fs ih =>
    rw [layerOf, List.map_cons, List.sum_cons, ih, Neuron.bytes, size_neuronAt, List.length_cons]
    ring

/-- The cost of all neurons of layers, of which the first one reads `count` sources. -/
def totalCost (count : Nat) : List Nat → Nat
  | [] => 0
  | size :: layers => size * Neuron.costOf count + totalCost size layers

/-- The cost of the neurons of all layers depends on the sizes of these only. -/
theorem sum_bytes_neuronsOf (start : Option Nat) (count first place : Nat)
    (picks : List (List Activation)) :
    ((neuronsOf start count first place picks).map Neuron.bytes).sum =
      totalCost count (picks.map List.length) := by
  induction picks generalizing start count first place with
  | nil => rfl
  | cons fs picks ih =>
    rw [neuronsOf, List.map_append, List.sum_append, sum_bytes_layerOf, size_runOf, ih,
      List.map_cons, totalCost]

/-- The neurons cost more than the number of their places in the table. -/
theorem tableSize_le_totalCost (count : Nat) (picks : List (List Activation)) :
    40 * tableSize count picks ≤ totalCost count (picks.map List.length) := by
  induction picks generalizing count with
  | nil => simp [tableSize]
  | cons fs picks ih =>
    have hrest := ih fs.length
    have hlayer : fs.length * (40 * (count + 2)) ≤ fs.length * Neuron.costOf count :=
      Nat.mul_le_mul_left _ (by rw [Neuron.costOf_eq]; omega)
    rw [tableSize, List.map_cons, totalCost, Nat.mul_add, Nat.mul_left_comm]
    omega

variable {σ : Type} [Initializer σ] {s : NetSettings} {initializer final : σ}
  {stream : Random.Stream}

/-- What has been generated is made of activations for the layers, none of which is empty, and of as
many values as the table has places. -/
theorem dense_eq_ok (h : Net.dense s layers initializer stream = .ok (net, final)) :
    layers ≠ [] ∧ 0 ∉ layers ∧ layers.sum * neuronBytes < Word.signedLimit ∧
      ∃ inputSize last range picks values, picks.map List.length = layers ∧
        values.length = tableSize inputSize picks ∧
        net = netOf inputSize last range picks values := by
  have hdense := h
  unfold Net.dense at h
  split at h
  next inputSize range hinput hrange =>
    obtain ⟨last, hlast, h⟩ := Result.bind_eq_ok_iff.mp h
    obtain ⟨⟨⟩, hzero, h⟩ := Result.bind_eq_ok_iff.mp h
    obtain ⟨⟨⟩, hchoices, h⟩ := Result.bind_eq_ok_iff.mp h
    obtain ⟨⟨⟩, hheld, -⟩ := Result.bind_eq_ok_iff.mp h
    rw [outputNeurons_eq_ok_iff] at hlast
    rw [checkSizes_eq_ok_iff] at hzero
    rw [checkChoices_eq_ok_iff] at hchoices
    rw [checkTotal_eq_ok_iff] at hheld
    rw [dense_eq hinput hrange hlast.1 hlast.2 hzero hchoices hheld] at hdense
    obtain ⟨⟨values, final'⟩, hvalues, hnet⟩ := Result.bind_eq_ok_iff.mp hdense
    refine ⟨?_, hzero, hheld, inputSize, last, range, _, values, ?_, ?_,
      (Prod.mk.inj (Except.ok.inj hnet)).1.symm⟩
    · rintro rfl
      cases hlast.1
    · rw [map_length_picks, map_fst_withChoices hchoices]
    · exact (Initializer.length_replay hvalues).trans (sum_values_calls _ _ _)
  next => cases h

/-- The cost of a dense net is that of its layers. -/
theorem totalBytes_of_dense (h : Net.dense s layers initializer stream = .ok (net, final)) :
    net.totalBytes = totalCost net.inputSize layers := by
  obtain ⟨-, -, -, inputSize, last, range, picks, values, rfl, -, rfl⟩ := dense_eq_ok h
  exact sum_bytes_neuronsOf none inputSize 0 0 picks

/-- **What has been generated is layered**, if a word counts the costs of all neurons; then signed
words count the external inputs and the table. -/
theorem isLayered_of_dense (h : Net.dense s layers initializer stream = .ok (net, final))
    (hbytes : net.totalBytes < Word.limit) :
    0 ∉ layers ∧ net.inputSize < Word.signedLimit ∧ net.weights.size < Word.signedLimit ∧
      ∃ picks, picks.map List.length = layers ∧ net.IsLayered layers picks := by
  obtain ⟨hne, hzero, hheld, inputSize, last, range, picks, values, rfl, hvalues, rfl⟩ :=
    dense_eq_ok h
  have hcost : 40 * tableSize inputSize picks ≤
      (netOf inputSize last range picks values).totalBytes :=
    (tableSize_le_totalCost inputSize picks).trans_eq
      (sum_bytes_neuronsOf none inputSize 0 0 picks).symm
  have hlimit : Word.limit = 2 * Word.signedLimit := by decide
  have htable : tableSize inputSize picks < Word.signedLimit := by omega
  have hsum : (picks.map List.length).sum < Word.signedLimit :=
    (Nat.le_mul_of_pos_right _ (by decide)).trans_lt hheld
  refine ⟨hzero, ?_, ?_, picks, rfl, isLayered hvalues hsum htable⟩
  · cases picks with
    | nil => simp at hne
    | cons fs picks =>
      have hpos : 0 < fs.length := Nat.pos_of_ne_zero fun h => hzero (by simp [h])
      have hle := le_tableSize inputSize hpos picks
      change inputSize < Word.signedLimit
      omega
  · change values.toArray.size < Word.signedLimit
    rwa [List.size_toArray, hvalues]

/-- **A dense net is a stack** of its layers, and what its neurons name is there. -/
theorem isStack_of_dense (h : Net.dense s layers initializer stream = .ok (net, final))
    (hbytes : net.totalBytes < Word.limit) :
    net.inputSize < Word.signedLimit ∧ net.IsStack layers ∧
      ∀ n ∈ net.neurons, n.WellFormed net := by
  obtain ⟨hzero, hinputs, htable, picks, hpicks, hlayered⟩ := isLayered_of_dense h hbytes
  refine ⟨hinputs, hlayered.isStack hpicks hzero, hlayered.wellFormed hpicks htable fun n hn => ?_⟩
  obtain ⟨i, hi⟩ := Array.mem_iff_getElem?.mp hn
  have hle := net.bytesOf_le i
  have hlimit : Word.limit = 2 * Word.signedLimit := by decide
  rw [Net.bytesOf_eq hi, Neuron.bytes, Neuron.costOf_eq] at hle
  omega

end Dense

end NeuralPlan
