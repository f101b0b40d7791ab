import NeuralPlan.Proofs.Cell.Reading
import NeuralPlan.Proofs.Draft.Solving

/-!
# The tables of a draft

A cell under construction keeps ten tables in step, and none of them says by itself where the share of a
local position begins: runs are counted off from the front, and slots are numbered in the order in
which they were opened.  After any calls, all of them still fit together.

## Main definitions

* `Cell.weightsAt`, `Cell.sourcesAt`, `Cell.placesAt` — what the tables say of a local position.
* `Cell.Represents` — the tables of a cell fit together, and represent neurons of a net.

## Main results

* `Cell.share_eq` — the runs of a part, counted off from the front.
* `Cell.Holds.flatMap_placesAt` — the first parts tile the beginning of the table of weights.
* `Draft.Took.represents` — the neurons taken in are represented.
* `Draft.represents_addAll` — so they are after any calls.
-/

set_option relaxedAutoImplicit false
set_option autoImplicit false

namespace NeuralPlan

namespace Cell

/-! ## What the tables say of a local position -/

/-- The positions of the weights of the local position `k` in the table of weights. -/
def weightsAt (c : Cell) (k : Nat) : List Int :=
  Runs.indices (share c.weightRuns c.weightRunCounts k)

/-- The sources of the local position `k`. -/
def sourcesAt (c : Cell) (k : Nat) : List Int :=
  Runs.indices (share c.sourceRuns c.sourceRunCounts k)

/-- All that the local position `k` has in the table of weights: its weights, its bias and its memory
filter. -/
def placesAt (c : Cell) (k : Nat) : List Int :=
  c.weightsAt k ++ (c.biases[k]?.toList ++ c.memoryFilters[k]?.toList).map fun j : Nat => (j : Int)

/-- The tables of the cell fit together, and represent the neurons `taken` of the net at the local
positions, in order. -/
structure Represents (c : Cell) (net : Net) (taken : List Nat) : Prop where
  /-- Five tables have one entry per local position. -/
  tables : c.activations.size = taken.length ∧ c.biases.size = taken.length ∧
    c.memoryFilters.size = taken.length ∧ c.weightRunCounts.size = taken.length ∧
    c.sourceRunCounts.size = taken.length
  outputs : Runs.indices c.outputs.toList = taken.map fun i : Nat => (i : Int)
  /-- The counts of runs leave none over. -/
  weightRuns : c.weightRunCounts.toList.sum = c.weightRuns.size
  sourceRuns : c.sourceRunCounts.toList.sum = c.sourceRuns.size
  /-- Every place in the table of weights belongs to one local position, in one way. -/
  places : (List.range taken.length).flatMap c.placesAt =
    (List.range c.weights.size).map fun j : Nat => (j : Int)
  weights : ∀ k < taken.length, (c.weightsAt k).length = (c.sourcesAt k).length
  /-- A source is an earlier local position or a slot. -/
  sources : ∀ k < taken.length, ∀ s ∈ c.sourcesAt k,
    0 ≤ s ∧ s < k ∨ s < 0 ∧ ∃ count : Nat, c.slotCount = .ok count ∧ -(s + 1) < count
  /-- A source stands for the reference of the neuron at the same place. -/
  reads : ∀ k i, taken[k]? = some i → List.Forall₂
    (fun s ref => if s < 0 then (Runs.indices c.slots.toList)[(-(s + 1)).toNat]? = some ref
      else ∃ j : Nat, taken[s.toNat]? = some j ∧ (j : Int) = ref)
    (c.sourcesAt k) (net.referencesOf i)
  nodup : (Runs.indices c.slots.toList).Nodup
  /-- The slots hold what the neurons read from outside, in order of first use. -/
  slots : Runs.indices c.slots.toList = (net.outsideReads taken).eraseDups

/-! ## The shares of the parts -/

variable {c : Cell} {parts : List Part} {slots : List Int} {k : Nat} {p : Part}

/-- **The runs of a part** are its share, if the runs of all parts stand one after another and are
counted part by part. -/
theorem share_eq {runs : Array Run} {counts : Array Nat} {f : Part → List Run}
    (hruns : runs.toList = parts.flatMap f)
    (hcounts : counts.toList = parts.map fun p => (f p).length) (hk : parts[k]? = some p) :
    share runs counts k = f p := by
  have hstart : (counts.toList.take k).sum = ((parts.take k).flatMap f).length := by
    rw [hcounts, ← List.map_take, List.length_flatMap]
  have hcount : counts.getD k 0 = (f p).length := by
    rw [Array.getD_eq_getD_getElem?, ← Array.getElem?_toList, hcounts, List.getElem?_map, hk]
    rfl
  rw [share, hruns, hstart, hcount, flatMap_split f hk, List.drop_left, List.take_left]

/-- The weights of a part stand in its share of the table of weights. -/
theorem Holds.weightsAt_eq (h : c.Holds parts slots) (hk : parts[k]? = some p) :
    c.weightsAt k =
      (List.range p.weights.length).map fun j : Nat => ((p.first + j : Nat) : Int) := by
  have hroom := h.first_add_le hk
  have hlimit := h.room
  rw [weightsAt, share_eq h.weightRuns h.weightRunCounts hk, indices_weightRuns (by omega)]

/-- The sources of a part. -/
theorem Holds.sourcesAt_eq (h : c.Holds parts slots) (hk : parts[k]? = some p) :
    c.sourcesAt k = p.sources := by
  rw [sourcesAt, share_eq h.sourceRuns h.sourceRunCounts hk, Part.sources]

/-- A part has its share of the table of weights, from its first place on. -/
theorem Holds.placesAt_eq (h : c.Holds parts slots) (hk : parts[k]? = some p) :
    c.placesAt k = (List.range p.table.length).map fun j : Nat => ((p.first + j : Nat) : Int) := by
  have hbias : c.biases[k]? = some (p.first + p.weights.length) := by
    rw [← Array.getElem?_toList, h.biases, List.getElem?_map, hk]
    rfl
  have hfilter : c.memoryFilters[k]? = some (p.first + p.weights.length + 1) := by
    rw [← Array.getElem?_toList, h.memoryFilters, List.getElem?_map, hk]
    rfl
  rw [placesAt, h.weightsAt_eq hk, hbias, hfilter, Part.length_table]
  simp [List.range_succ, Int.add_assoc]

/-- **The first parts tile the beginning of the table of weights**, one share after another. -/
theorem Holds.flatMap_placesAt (h : c.Holds parts slots) {m : Nat} (hm : m ≤ parts.length) :
    (List.range m).flatMap c.placesAt =
      (List.range ((parts.take m).flatMap Part.table).length).map fun j : Nat => (j : Int) := by
  induction m with
  | zero => rfl
  | succ m ih =>
    have hk : parts[m]? = some parts[m] := List.getElem?_eq_getElem hm
    have htables : (parts.take (m + 1)).flatMap Part.table =
        (parts.take m).flatMap Part.table ++ parts[m].table := by
      rw [List.take_succ_eq_append_getElem hm, List.flatMap_append, List.flatMap_singleton]
    rw [List.range_succ, List.flatMap_append, ih (Nat.le_of_succ_le hm), List.flatMap_singleton,
      h.placesAt_eq hk, h.first m _ hk, htables, List.length_append, List.range_add,
      List.map_append, List.map_map]
    rfl

/-- The slots are counted. -/
theorem Holds.slotCount_eq (h : c.Holds parts slots) : c.slotCount = .ok slots.length := by
  have hsum := h.slotRuns.sum_size
  have hslots := h.slots_le
  have hsize := h.size_weights
  have hroom := h.room
  have hword : Word.signedLimit < Word.limit := by decide
  exact Runs.size_eq_ok_iff.mpr ⟨by omega, hsum.symm⟩

end Cell

/-! ## Any calls -/

namespace Draft

variable {net : Net} {available : Array Bool} {d : Draft} {taken calls : List Nat}
  {parts : List Part} {slots : List Int}

/-- A source of a local position is an earlier one or a slot. -/
theorem Took.sources_lt (h : Took net available d taken parts slots) {k : Nat} {p : Part}
    (hp : parts[k]? = some p) {s : Int} (hs : s ∈ p.sources) :
    0 ≤ s ∧ s < k ∨ s < 0 ∧ -(s + 1) < slots.length := by
  obtain ⟨n, hcopies⟩ := h.copies k p hp
  obtain ⟨ref, -, hres⟩ := hcopies.exists_reference hs
  rcases hres with ⟨hpos, q, hq, -⟩ | ⟨hneg, hslot⟩
  · rw [List.getElem?_take, Option.ite_none_right_eq_some] at hq
    exact .inl ⟨hpos, by omega⟩
  · have hlt := (List.getElem?_eq_some_iff.mp hslot).1
    exact .inr ⟨hneg, by omega⟩

/-- The sources of a local position stand for the references of its neuron. -/
theorem Took.sources_forall₂ (h : Took net available d taken parts slots) {k : Nat} {p : Part}
    (hp : parts[k]? = some p) :
    List.Forall₂
      (fun s ref => if s < 0 then slots[(-(s + 1)).toNat]? = some ref
        else ∃ j : Nat, taken[s.toNat]? = some j ∧ (j : Int) = ref)
      p.sources (net.referencesOf p.index) := by
  obtain ⟨n, hcopies⟩ := h.copies k p hp
  have hrefs : net.referencesOf p.index = n.references := by
    simp [Net.referencesOf, hcopies.neuron]
  rw [hrefs]
  refine hcopies.sources.imp fun s ref hres => ?_
  rcases hres with ⟨hpos, q, hq, hindex⟩ | ⟨hneg, hslot⟩
  · rw [if_neg (not_lt.mpr hpos)]
    rw [List.getElem?_take, Option.ite_none_right_eq_some] at hq
    refine ⟨q.index, ?_, hindex⟩
    rw [← h.members, List.getElem?_map, hq.2]
    rfl
  · rwa [if_pos hneg]

/-- **The neurons that are taken in** are represented. -/
theorem Took.represents (h : Took net available d taken parts slots) :
    d.cell.Represents net taken := by
  have hcell := h.holds.cell
  have hlen : parts.length = taken.length := by rw [← h.members, List.length_map]
  have hslots : Runs.indices d.cell.slots.toList = slots := hcell.slotRuns.1
  have hpart : ∀ k < taken.length, ∃ p, parts[k]? = some p := fun k hk =>
    ⟨parts[k], List.getElem?_eq_getElem (hlen ▸ hk)⟩
  obtain ⟨hweightCounts, hbiases, hfilters, hsourceCounts⟩ := hcell.size_tables
  refine ⟨⟨?_, ?_, ?_, ?_, ?_⟩, ?_, ?_, ?_, ?_, fun k hk => ?_, fun k hk s hs => ?_,
    fun k i hi => ?_, ?_, ?_⟩
  · exact hcell.neuronCount_eq.trans hlen
  · exact hbiases.trans hlen
  · exact hfilters.trans hlen
  · exact hweightCounts.trans hlen
  · exact hsourceCounts.trans hlen
  · rw [hcell.outputs.1, ← h.members, List.map_map]
    rfl
  · rw [hcell.weightRunCounts, ← Array.length_toList, hcell.weightRuns, List.length_flatMap]
  · rw [hcell.sourceRunCounts, ← Array.length_toList, hcell.sourceRuns, List.length_flatMap]
  · rw [← hlen, hcell.flatMap_placesAt le_rfl, List.take_length, ← hcell.weights,
      Array.length_toList]
  · obtain ⟨p, hp⟩ := hpart k hk
    obtain ⟨-, hcount⟩ := hcell.sources p (List.mem_of_getElem? hp)
    rw [hcell.weightsAt_eq hp, hcell.sourcesAt_eq hp, hcount, List.length_map, List.length_range]
  · obtain ⟨p, hp⟩ := hpart k hk
    rw [hcell.sourcesAt_eq hp] at hs
    exact (h.sources_lt hp hs).imp_right fun ⟨hneg, hlt⟩ =>
      ⟨hneg, slots.length, hcell.slotCount_eq, hlt⟩
  · rw [← h.members, List.getElem?_map, Option.map_eq_some_iff] at hi
    obtain ⟨p, hp, rfl⟩ := hi
    rw [hcell.sourcesAt_eq hp, hslots]
    exact h.sources_forall₂ hp
  · rw [hslots]
    exact h.holds.slotOf.nodup
  · exact hslots.trans h.uses

/-- **After any calls** of a draft, failing ones included, its tables fit together and represent the
neurons of the calls that did not fail: `Cell.Represents` says of each table what this means.  All that
is asked of the sizes is that signed words count the external inputs, the neurons and the table of
weights of the cell.

**Proof sketch.** Induction on the calls: one that fails leaves the draft as it is, and one that
does not adds one part to all tables, which takes the next share of each, and the slots that the part is
the first to need. -/
theorem represents_addAll (hinputs : net.inputSize < Word.signedLimit)
    (hneurons : net.neuronCount < Word.signedLimit)
    (hcalls : (start net available).addAll calls = (d, taken))
    (hroom : d.cell.weights.size < Word.signedLimit) : d.cell.Represents net taken := by
  have hsize : ((start net available).addAll calls).1.cell.weights.size < Word.signedLimit := by
    rwa [hcalls]
  obtain ⟨⟨parts, slots, htook⟩, -⟩ := took_addAll hinputs hneurons hsize
  rw [hcalls] at htook
  exact htook.represents

/-- Three of six calls of the braid take their neurons in: the slots hold the first neuron and the two
external inputs, as the second one reads them, and nothing for the last one. -/
theorem represents_addAll_braid :
    ((start braid #[true]).addAll [2, 1, 7, 0, 0, 2]).1.cell.Represents braid [1, 0, 2] ∧
      (braid.outsideReads [1, 0, 2]).eraseDups = [0, -1, -2] := by
  have hfew : ([2, 1, 7, 0, 0, 2].map braid.placesOf).sum < Word.signedLimit := by decide
  have hroom := (size_weights_addAll_le braid #[true] [2, 1, 7, 0, 0, 2]).trans_lt hfew
  have htaken := (took_addAll (by decide) (by decide) hroom).2
  have hthree : braid.takenOf #[true] [] [2, 1, 7, 0, 0, 2] = [1, 0, 2] := by decide
  have hcalls : (start braid #[true]).addAll [2, 1, 7, 0, 0, 2] =
      (((start braid #[true]).addAll [2, 1, 7, 0, 0, 2]).1, [1, 0, 2]) :=
    Prod.ext rfl (htaken.trans hthree)
  exact ⟨represents_addAll (by decide) (by decide) hcalls hroom, by decide⟩

end Draft

end NeuralPlan
