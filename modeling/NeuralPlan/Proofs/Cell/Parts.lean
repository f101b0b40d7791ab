import Mathlib.Algebra.Order.BigOperators.Group.List
import Mathlib.Tactic
import NeuralPlan.Cell.Solve
import NeuralPlan.Draft
import NeuralPlan.Proofs.Budget
import NeuralPlan.Proofs.Walks

/-!
# The parts of a cell

A cell flattens what it knows of its neurons into tables.  A *part* is what the tables say of one
local position; a cell that a draft makes *holds* a list of parts and a list of slots.

## Main definitions

* `Part` — what a cell knows of one neuron, with its share of each table.
* `Cell.Holds` — the tables of a cell are those of a list of parts and a list of slots.
* `Resolves` — a source stands for a reference.
* `Routes` — it does, by the local position of the neuron wherever there is one.
* `Part.Copies`, `Copies` — a part agrees with a neuron of a net, and all parts do.
* `Cell.members` — the neurons of a cell.
* `Cell.extend` — a cell with one part more.

## Main results

* `Cell.Holds.entries_eq`, `Cell.Holds.members_eq` — what the tables of a cell say, part by part.
* `Cell.Holds.sizeBytes_le` — a cell is no larger than the costs of its neurons allow.
-/

set_option relaxedAutoImplicit false
set_option autoImplicit false

namespace NeuralPlan

/-- What a list with one element more has at a place is what it had there, or the new element, which
stands after all others. -/
theorem getElem?_snoc {α : Type} {xs : List α} {x y : α} {k : Nat} (h : (xs ++ [x])[k]? = some y) :
    xs[k]? = some y ∧ (xs ++ [x]).take k = xs.take k ∨
      k = xs.length ∧ y = x ∧ (xs ++ [x]).take k = xs := by
  rcases Nat.lt_or_ge k xs.length with hk | hk
  · rw [List.getElem?_append_left hk] at h
    exact .inl ⟨h, List.take_append_of_le_length hk.le⟩
  · rw [List.getElem?_append_right hk] at h
    obtain rfl : k = xs.length := by
      have hlen := (List.getElem?_eq_some_iff.mp h).1
      rw [List.length_singleton] at hlen
      omega
    refine .inr ⟨rfl, by simpa using h.symm, ?_⟩
    rw [List.take_left]

/-- What all elements of a list bring along, split at one of them. -/
theorem flatMap_split {α β : Type} (f : α → List β) {xs : List α} {k : Nat} {x : α}
    (h : xs[k]? = some x) :
    xs.flatMap f = (xs.take k).flatMap f ++ (f x ++ (xs.drop (k + 1)).flatMap f) := by
  obtain ⟨hlt, rfl⟩ := List.getElem?_eq_some_iff.mp h
  rw [← List.flatMap_cons, ← List.flatMap_append, ← List.drop_eq_getElem_cons hlt,
    List.take_append_drop]

/-! ## Parts -/

/-- What a cell knows of one of its neurons.  The weights of the neuron, then its bias and its
memory filter stand in the table of weights from the position `first` on. -/
structure Part where
  index : Nat
  activation : Activation
  weights : List Float
  bias : Float
  memoryFilter : Float
  first : Nat
  sourceRuns : List Run

namespace Part

/-- The share of the part in the table of weights. -/
def table (p : Part) : List Float := p.weights ++ [p.bias, p.memoryFilter]

/-- The runs over the weights of the part. -/
def weightRuns (p : Part) : List Run :=
  if p.weights.length = 0 then [] else [⟨p.first, p.weights.length⟩]

/-- The sources of the part, in order. -/
def sources (p : Part) : List Int := Runs.indices p.sourceRuns

/-- The entry of the part. -/
def entry (p : Part) : Entry where
  activation := p.activation
  bias := p.first + p.weights.length
  memoryFilter := p.first + p.weights.length + 1
  weightRunCount := p.weightRuns.length
  sourceRunCount := p.sourceRuns.length

/-- A part takes two places more in the table than it has weights. -/
@[simp] theorem length_table (p : Part) : p.table.length = p.weights.length + 2 := by
  simp [table]

/-- A part has one run of weights, or none. -/
theorem length_weightRuns_le (p : Part) : p.weightRuns.length ≤ 1 := by
  unfold weightRuns
  split <;> simp

end Part

/-- The source `s` of a part, after the parts before it, stands for the reference: it is the local
position of the neuron, or the slot of the reference. -/
def Resolves (before : List Part) (slots : List Int) (s ref : Int) : Prop :=
  (0 ≤ s ∧ ∃ p, before[s.toNat]? = some p ∧ (p.index : Int) = ref) ∨
    (s < 0 ∧ slots[(-(s + 1)).toNat]? = some ref)

/-- What a source stands for does not change when slots are added. -/
theorem Resolves.mono {before : List Part} {slots : List Int} {s ref : Int}
    (h : Resolves before slots s ref) (more : List Int) :
    Resolves before (slots ++ more) s ref := by
  refine h.imp_right fun ⟨hs, hslot⟩ => ⟨hs, ?_⟩
  have hlt := (List.getElem?_eq_some_iff.mp hslot).1
  rw [List.getElem?_append_left hlt, hslot]

/-- The source stands for the reference, and is a slot only if no part before has the neuron that
the reference names. -/
def Routes (before : List Part) (slots : List Int) (s ref : Int) : Prop :=
  Resolves before slots s ref ∧ (s < 0 → ∀ p ∈ before, (p.index : Int) ≠ ref)

/-- Where a source leads to does not change when slots are added. -/
theorem Routes.mono {before : List Part} {slots : List Int} {s ref : Int}
    (h : Routes before slots s ref) (more : List Int) : Routes before (slots ++ more) s ref :=
  ⟨h.1.mono more, h.2⟩

/-! ## Cells -/

namespace Cell

/-- The neurons of a cell, in order of their local positions. -/
def members (c : Cell) : List Nat := (Runs.indices c.outputs.toList).map Word.toUnsigned

/-- The tables of the cell are those of the parts and the slots. -/
structure Holds (c : Cell) (parts : List Part) (slots : List Int) : Prop where
  outputs : Runs.Encodes c.outputs (parts.map fun p => (p.index : Int))
  slotRuns : Runs.Encodes c.slots slots
  activations : c.activations.toList = parts.map Part.activation
  weights : c.weights.toList = parts.flatMap Part.table
  weightRuns : c.weightRuns.toList = parts.flatMap Part.weightRuns
  weightRunCounts : c.weightRunCounts.toList = parts.map fun p => p.weightRuns.length
  biases : c.biases.toList = parts.map fun p => p.first + p.weights.length
  memoryFilters : c.memoryFilters.toList = parts.map fun p => p.first + p.weights.length + 1
  sourceRuns : c.sourceRuns.toList = parts.flatMap Part.sourceRuns
  sourceRunCounts : c.sourceRunCounts.toList = parts.map fun p => p.sourceRuns.length
  /-- The shares of the table of weights stand one after another. -/
  first : ∀ k p, parts[k]? = some p → p.first = ((parts.take k).flatMap Part.table).length
  /-- Every part has as many sources as weights. -/
  sources : ∀ p ∈ parts, Runs.Encodes p.sourceRuns.toArray p.sources ∧
    p.sources.length = p.weights.length
  /-- Every slot was opened for a source. -/
  slots_le : slots.length ≤ (parts.map fun p => p.weights.length).sum
  /-- Signed words count the table of weights. -/
  room : c.weights.size < Word.signedLimit

end Cell

/-- The part agrees with the neuron `n` of the net: it has the activation, the weights, the bias and
the memory filter that the neuron names, and its sources stand for the references of the neuron. -/
structure Part.Copies (net : Net) (before : List Part) (slots : List Int) (p : Part) (n : Neuron) :
    Prop where
  neuron : net.neurons[p.index]? = some n
  activation : p.activation = n.activation
  weights : (Runs.indices n.weights.toList).map (fun pos => net.weights[Word.toUnsigned pos]?) =
    p.weights.map some
  bias : net.weights[n.bias]? = some p.bias
  memoryFilter : net.weights[n.memoryFilter]? = some p.memoryFilter
  sources : List.Forall₂ (Resolves before slots) p.sources n.references

/-- Every source of such a part stands for a reference of the neuron. -/
theorem Part.Copies.exists_reference {net : Net} {before : List Part} {slots : List Int} {p : Part}
    {n : Neuron} (h : p.Copies net before slots n) {s : Int} (hs : s ∈ p.sources) :
    ∃ ref ∈ n.references, Resolves before slots s ref := by
  have hsources := h.sources
  generalize p.sources = ss at hsources hs
  generalize n.references = refs at hsources ⊢
  induction hsources with
  | nil => simp at hs
  | @cons s' ref ss refs hfirst _ ih =>
    rcases List.mem_cons.mp hs with rfl | hs
    · exact ⟨ref, by simp, hfirst⟩
    · obtain ⟨ref', href', hres⟩ := ih hs
      exact ⟨ref', List.mem_cons_of_mem _ href', hres⟩

/-- Every part agrees with a neuron of the net. -/
def Copies (net : Net) (parts : List Part) (slots : List Int) : Prop :=
  ∀ (k : Nat) (p : Part), parts[k]? = some p → ∃ n, p.Copies net (parts.take k) slots n

/-- The neurons of such parts are neurons of the net. -/
theorem Copies.index_lt {net : Net} {parts : List Part} {slots : List Int}
    (h : Copies net parts slots) {p : Part} (hp : p ∈ parts) : p.index < net.neuronCount := by
  obtain ⟨k, hk⟩ := List.mem_iff_getElem?.mp hp
  obtain ⟨n, hn⟩ := h k p hk
  exact (Array.getElem?_eq_some_iff.mp hn.neuron).1

namespace Cell

variable {c : Cell} {parts : List Part} {slots : List Int}

/-- The cell without neurons holds no parts. -/
theorem holds_empty : Cell.empty.Holds [] [] := by
  refine ⟨Runs.encodes_empty, Runs.encodes_empty, rfl, rfl, rfl, rfl, rfl, rfl, rfl, rfl,
    by simp, by simp, le_rfl, by decide⟩

/-- The entries of a cell are those of its parts. -/
theorem Holds.entries_eq (h : c.Holds parts slots) : c.entries = parts.map Part.entry := by
  unfold entries
  rw [h.activations, h.biases, h.memoryFilters, h.weightRunCounts, h.sourceRunCounts]
  clear h
  induction parts with
  | nil => rfl
  | cons p parts ih => exact congrArg (p.entry :: ·) ih

/-- A cell has one local position for every part. -/
theorem Holds.neuronCount_eq (h : c.Holds parts slots) : c.neuronCount = parts.length := by
  rw [neuronCount, ← Array.length_toList, h.activations, List.length_map]

/-- The tables of positions and of counts have one entry for every part. -/
theorem Holds.size_tables (h : c.Holds parts slots) :
    c.weightRunCounts.size = parts.length ∧ c.biases.size = parts.length ∧
      c.memoryFilters.size = parts.length ∧ c.sourceRunCounts.size = parts.length := by
  simp only [← Array.length_toList, h.weightRunCounts, h.biases, h.memoryFilters,
    h.sourceRunCounts, List.length_map, and_self]

/-- A cell is empty exactly if it has no parts. -/
theorem Holds.isEmpty_iff (h : c.Holds parts slots) : c.isEmpty = true ↔ parts = [] := by
  rw [isEmpty, Array.isEmpty_iff, ← Array.toList_eq_nil_iff, h.activations, List.map_eq_nil_iff]

/-- The neurons of a cell are those of its parts. -/
theorem Holds.members_eq (h : c.Holds parts slots)
    (hlt : ∀ p ∈ parts, p.index < Word.signedLimit) : c.members = parts.map Part.index := by
  rw [members, h.outputs.1, List.map_map]
  exact List.map_congr_left fun p hp => Word.toUnsigned_natCast (hlt p hp)

/-- The table of weights has two places more for each part than it has weights. -/
theorem Holds.size_weights (h : c.Holds parts slots) :
    c.weights.size = (parts.map fun p => p.weights.length).sum + 2 * parts.length := by
  rw [← Array.length_toList, h.weights]
  clear h
  induction parts with
  | nil => rfl
  | cons p parts ih =>
    simp only [List.flatMap_cons, List.length_append, Part.length_table, ih, List.map_cons,
      List.sum_cons, List.length_cons]
    omega

/-- There are no more runs of weights than parts. -/
theorem Holds.size_weightRuns_le (h : c.Holds parts slots) :
    c.weightRuns.size ≤ parts.length := by
  rw [← Array.length_toList, h.weightRuns]
  clear h
  induction parts with
  | nil => exact le_rfl
  | cons p parts ih =>
    have hp := p.length_weightRuns_le
    simp only [List.flatMap_cons, List.length_append, List.length_cons]
    omega

/-- There are no more runs of sources than weights. -/
theorem Holds.size_sourceRuns_le (h : c.Holds parts slots) :
    c.sourceRuns.size ≤ (parts.map fun p => p.weights.length).sum := by
  have hsources := h.sources
  rw [← Array.length_toList, h.sourceRuns]
  clear h
  induction parts with
  | nil => exact le_rfl
  | cons p parts ih =>
    obtain ⟨⟨hencodes, hlen⟩, hrest⟩ := List.forall_mem_cons.mp hsources
    have hp : p.sourceRuns.length ≤ p.sources.length := by simpa using hencodes.size_le
    have hsum := ih hrest
    simp only [List.flatMap_cons, List.length_append, List.map_cons, List.sum_cons]
    omega

/-- **A cell is no larger** than the costs of its parts allow. -/
theorem Holds.sizeBytes_le (h : c.Holds parts slots) :
    c.sizeBytes ≤ emptyBytes + (parts.map fun p => Neuron.costOf p.weights.length).sum := by
  have hcosts : (parts.map fun p => Neuron.costOf p.weights.length).sum =
      40 * (parts.map fun p => p.weights.length).sum + 81 * parts.length := by
    clear h
    induction parts with
    | nil => rfl
    | cons p parts ih =>
      rw [List.map_cons, List.sum_cons, ih, Neuron.costOf_eq]
      simp only [List.map_cons, List.sum_cons, List.length_cons]
      omega
  have houtputs : c.outputs.size ≤ parts.length := by simpa using h.outputs.size_le
  have hslots := h.slotRuns.size_le.trans h.slots_le
  have hweights := h.size_weights
  have hweightRuns := h.size_weightRuns_le
  have hsourceRuns := h.size_sourceRuns_le
  have hactivations : c.activations.size = parts.length := h.neuronCount_eq
  obtain ⟨hweightCounts, hbiases, hfilters, hsourceCounts⟩ := h.size_tables
  rw [hcosts]
  simp only [sizeBytes, runBytes, activationBytes, wordBytes, hactivations, hweights,
    hweightCounts, hbiases, hfilters, hsourceCounts]
  omega

/-! ## One part more -/

/-- The cell with one part more, and with the outputs and slots that go with it. -/
def extend (c : Cell) (p : Part) (outputs slotRuns : Array Run) : Cell where
  outputs := outputs
  slots := slotRuns
  activations := c.activations.push p.activation
  weights := c.weights ++ p.table.toArray
  weightRuns := c.weightRuns ++ p.weightRuns.toArray
  weightRunCounts := c.weightRunCounts.push p.weightRuns.length
  biases := c.biases.push (p.first + p.weights.length)
  memoryFilters := c.memoryFilters.push (p.first + p.weights.length + 1)
  sourceRuns := c.sourceRuns ++ p.sourceRuns.toArray
  sourceRunCounts := c.sourceRunCounts.push p.sourceRuns.length

/-- A cell that is extended holds one part more. -/
theorem Holds.extend (h : c.Holds parts slots) {p : Part} {new : List Int}
    {outputs slotRuns : Array Run} (hfirst : p.first = c.weights.size)
    (houtputs : Runs.Encodes outputs ((parts ++ [p]).map fun p => (p.index : Int)))
    (hslots : Runs.Encodes slotRuns (slots ++ new))
    (hsources : Runs.Encodes p.sourceRuns.toArray p.sources ∧ p.sources.length = p.weights.length)
    (hnew : new.length ≤ p.weights.length)
    (hroom : c.weights.size + p.weights.length + 2 < Word.signedLimit) :
    (c.extend p outputs slotRuns).Holds (parts ++ [p]) (slots ++ new) := by
  have hstart : (parts.flatMap Part.table).length = c.weights.size := by
    rw [← h.weights, Array.length_toList]
  refine ⟨houtputs, hslots, ?_, ?_, ?_, ?_, ?_, ?_, ?_, ?_, fun k q hq => ?_, fun q hq => ?_, ?_,
    ?_⟩
  · simp [Cell.extend, h.activations]
  · simp [Cell.extend, h.weights]
  · simp [Cell.extend, h.weightRuns]
  · simp [Cell.extend, h.weightRunCounts]
  · simp [Cell.extend, h.biases]
  · simp [Cell.extend, h.memoryFilters]
  · simp [Cell.extend, h.sourceRuns]
  · simp [Cell.extend, h.sourceRunCounts]
  · rcases getElem?_snoc hq with ⟨hq, htake⟩ | ⟨-, rfl, htake⟩
    · rw [htake]
      exact h.first k q hq
    · rw [htake, hstart, hfirst]
  · rcases List.mem_append.mp hq with hq | hq
    · exact h.sources q hq
    · rwa [List.mem_singleton.mp hq]
  · have hslots_le := h.slots_le
    simp only [List.length_append, List.map_append, List.sum_append, List.map_cons, List.map_nil,
      List.sum_cons, List.sum_nil]
    omega
  · simp only [Cell.extend, Array.size_append, List.size_toArray, Part.length_table]
    omega

end Cell

/-- The parts still agree with the net when another one that agrees with it is added. -/
theorem Copies.snoc {net : Net} {parts : List Part} {slots new : List Int} {p : Part} {n : Neuron}
    (h : Copies net parts slots) (hp : p.Copies net parts (slots ++ new) n) :
    Copies net (parts ++ [p]) (slots ++ new) := by
  intro k q hq
  rcases getElem?_snoc hq with ⟨hq, htake⟩ | ⟨-, rfl, htake⟩
  · rw [htake]
    obtain ⟨m, hm⟩ := h k q hq
    exact ⟨m, { hm with sources := hm.sources.imp fun _ _ hres => hres.mono new }⟩
  · rw [htake]
    exact ⟨n, hp⟩

end NeuralPlan
