import NeuralPlan.Proofs.Plan.Success

/-!
# The memory of a row

A collection takes neurons whose costs together stay within the memory of a row.  The costs are
those of the neurons alone: every cell adds the bytes that it has without its tables, and a row
may have any number of cells.  So the cells of a row may outgrow its memory, though by no more than
the cells without their tables.

## Main definitions

* `Cell.leastBytes` — what a neuron without references takes in a cell, its runs apart.
* `Net.trio` — a net whose plan outgrows its memory.

## Main results

* `Cell.IsMade.sizeBytes_le`, `Cell.IsMade.le_sizeBytes` — the size of a cell against its neurons.
* `Plan.compile_row_bytes` — the size of a row against its memory.
* `Plan.row_bytes_exceed_memory` — a row that outgrows its memory.
-/

set_option relaxedAutoImplicit false
set_option autoImplicit false

namespace NeuralPlan

/-! ## The size of a cell -/

namespace Cell

/-- What a neuron takes in a cell at least: a bias and a memory filter with their positions, two
counts of runs, and an activation. -/
def leastBytes : Nat := 6 * wordBytes + activationBytes

variable {c : Cell} {parts : List Part} {slots : List Int}

/-- A cell is no smaller than its parts require. -/
theorem Holds.le_sizeBytes (h : c.Holds parts slots) :
    emptyBytes + leastBytes * parts.length ≤ c.sizeBytes := by
  have hweights := h.size_weights
  have hactivations : c.activations.size = parts.length := h.neuronCount_eq
  obtain ⟨hweightCounts, hbiases, hfilters, hsourceCounts⟩ := h.size_tables
  simp only [sizeBytes, leastBytes, activationBytes, wordBytes, hactivations, hweights,
    hweightCounts, hbiases, hfilters, hsourceCounts]
  omega

variable {net : Net} {earlier : List Nat}

/-- **A cell is no larger** than it is without tables and its neurons cost. -/
theorem IsMade.sizeBytes_le (h : c.IsMade net earlier)
    (hneurons : net.neuronCount < Word.signedLimit) :
    c.sizeBytes ≤ emptyBytes + (c.members.map net.bytesOf).sum := by
  obtain ⟨parts, slots, -, hholds, hmade⟩ := h
  have hcosts : parts.map (fun p => Neuron.costOf p.weights.length) =
      c.members.map net.bytesOf := by
    rw [hmade.members_eq hneurons hholds, List.map_map]
    exact List.map_congr_left hmade.cost
  rw [← hcosts]
  exact hholds.sizeBytes_le

/-- **A cell is no smaller** than it is without tables and its neurons take at least. -/
theorem IsMade.le_sizeBytes (h : c.IsMade net earlier)
    (hneurons : net.neuronCount < Word.signedLimit) :
    emptyBytes + leastBytes * c.members.length ≤ c.sizeBytes := by
  obtain ⟨parts, slots, -, hholds, hmade⟩ := h
  rw [hmade.members_eq hneurons hholds, List.length_map]
  exact hholds.le_sizeBytes

end Cell

/-! ## The size of a row -/

variable {net : Net} {earlier : List Nat}

/-- The size of a row of cells against its neurons. -/
theorem sizeBytes_of_isMade {row : List Cell} (hrow : ∀ c ∈ row, c.IsMade net earlier)
    (hneurons : net.neuronCount < Word.signedLimit) :
    Cell.emptyBytes * row.length + Cell.leastBytes * (row.flatMap Cell.members).length ≤
        (row.map Cell.sizeBytes).sum ∧
      (row.map Cell.sizeBytes).sum ≤
        Cell.emptyBytes * row.length + ((row.flatMap Cell.members).map net.bytesOf).sum := by
  induction row with
  | nil => exact ⟨le_rfl, le_rfl⟩
  | cons c row ih =>
    obtain ⟨hc, hrest⟩ := List.forall_mem_cons.mp hrow
    have hlow := hc.le_sizeBytes hneurons
    have hhigh := hc.sizeBytes_le hneurons
    obtain ⟨hlows, hhighs⟩ := ih hrest
    simp only [List.map_cons, List.sum_cons, List.length_cons, List.flatMap_cons,
      List.length_append, List.map_append, List.sum_append, Nat.mul_add, Nat.mul_one]
    constructor
    · omega
    · omega

namespace Plan

variable {bytes : Nat} {rows : List (List Cell)} {p : Plan}

/-- The size of a row of the layout against the memory. -/
theorem Laid.row_sizeBytes (h : p.Laid net bytes rows)
    (hneurons : net.neuronCount < Word.signedLimit) {r : Nat} {row : List Cell}
    (hr : rows[r]? = some row) :
    Cell.emptyBytes * row.length + Cell.leastBytes * (row.flatMap Cell.members).length ≤
        (row.map Cell.sizeBytes).sum ∧
      (row.map Cell.sizeBytes).sum ≤ Cell.emptyBytes * row.length + bytes := by
  obtain ⟨hlow, hhigh⟩ := sizeBytes_of_isMade (h.made r row hr) hneurons
  have hwithin : Affords net.bytesOf bytes (net.due (membersOf (rows.take r)))
      (row.flatMap Cell.members) := by
    rw [h.chosen r row hr]
    exact affords_affordable
  exact ⟨hlow, hhigh.trans (Nat.add_le_add_left hwithin.within _)⟩

/-- **The size of a row against its memory.**  The cells of a row take no more than the memory of a
row and what they take without their tables; they take no less than the latter and the least that
their neurons take.

A signed word counts the neurons, as it counts the bytes of any table.

**Proof sketch.** The neurons of a row are an affordable prefix of those that are due, a cell is no
larger than its neurons cost, and induction on the columns. -/
theorem compile_row_bytes {s : PlanSettings} (hcompile : compile s net = .ok p)
    (hneurons : net.neuronCount < Word.signedLimit) :
    ∀ r < p.rows, ∃ cells, p.row r = .ok cells ∧
      Cell.emptyBytes * cells.size +
          Cell.leastBytes * (cells.toList.flatMap Cell.members).length ≤
        (cells.toList.map Cell.sizeBytes).sum ∧
      (cells.toList.map Cell.sizeBytes).sum ≤
        Cell.emptyBytes * cells.size + s.bytes.getD PlanSettings.defaultBytes := by
  obtain ⟨threads, rows, -, -, -, hlaid, -, -⟩ := compile_laid hcompile hneurons
  intro r hr
  rw [hlaid.rows_eq] at hr
  have hrow := List.getElem?_eq_getElem hr
  exact ⟨_, hlaid.row_eq hneurons hrow, hlaid.row_sizeBytes hneurons hrow⟩

end Plan

/-! ## A row that outgrows its memory -/

/-- A net of three neurons that read an external input, each at a cost of 121 bytes. -/
def Net.trio : Net where
  inputSize := 1
  outputNeurons := 1
  expectedRange := 1.0
  neurons := Array.replicate 3 ⟨.identity, 1, 2, #[⟨-1, 1⟩], #[⟨0, 1⟩]⟩
  weights := #[0.5, 0.25, 0.125]

namespace Plan

/-- With one thread and memory for the costs of its three neurons, the trio has a plan. -/
theorem compile_trio_isOk : ∃ p, compile ⟨some 1, some 363⟩ Net.trio = .ok p :=
  compile_isOk (by decide) (by decide) rfl (by decide) (by decide)
    (Net.acyclic_of_rank id fun i j hij => absurd hij (by
      have hnone : ∀ i < 3, Net.trio.inputsOf i = [] := by decide
      simp [Net.Reads, hnone i hij.lt])) (by decide)

/-- The rows of the trio are no larger than its memory and the cells without their tables. -/
theorem compile_row_bytes_trio :
    ∃ p, compile ⟨some 1, some 363⟩ Net.trio = .ok p ∧
      ∀ r < p.rows, ∃ cells, p.row r = .ok cells ∧
        (cells.toList.map Cell.sizeBytes).sum ≤ 240 * cells.size + 363 := by
  obtain ⟨p, hp⟩ := compile_trio_isOk
  refine ⟨p, hp, fun r hr => ?_⟩
  obtain ⟨cells, hcells, -, hle⟩ := compile_row_bytes hp (by decide) r hr
  exact ⟨cells, hcells, hle⟩

/-- **The first row of the trio outgrows its memory**: it holds all three neurons, as their costs
allow, and the cells that they are in take more.

**Proof sketch.** The row holds the affordable prefix of all neurons, which is all of them.  In one
cell they take 387 bytes at least; two cells take 480 even without tables. -/
theorem row_bytes_exceed_memory :
    ∃ p, compile ⟨some 1, some 363⟩ Net.trio = .ok p ∧
      ∃ cells, p.row 0 = .ok cells ∧ 363 < (cells.toList.map Cell.sizeBytes).sum := by
  obtain ⟨p, hp⟩ := compile_trio_isOk
  obtain ⟨threads, rows, -, -, -, hlaid, hall, -⟩ := compile_laid hp (by decide)
  have hpos : 0 < rows.length := by
    obtain ⟨row, hrow, -⟩ := List.mem_flatMap.mp (hall 0 (by decide))
    exact List.length_pos_of_mem hrow
  have hrow : rows[0]? = some rows[0] := List.getElem?_eq_getElem hpos
  have hmembers : rows[0].flatMap Cell.members = [0, 1, 2] := by
    rw [hlaid.chosen 0 _ hrow, List.take_zero]
    decide
  obtain ⟨hlow, -⟩ := hlaid.row_sizeBytes (by decide) hrow
  have hcols : 1 ≤ rows[0].length := by
    refine List.length_pos_iff.mpr fun hnil => ?_
    simp [hnil] at hmembers
  refine ⟨p, hp, _, hlaid.row_eq (by decide) hrow, ?_⟩
  rw [hmembers] at hlow
  simp only [Cell.emptyBytes, Cell.leastBytes, wordBytes, activationBytes, List.length_cons,
    List.length_nil] at hlow
  change 363 < (rows[0].map Cell.sizeBytes).sum
  omega

end Plan

end NeuralPlan
