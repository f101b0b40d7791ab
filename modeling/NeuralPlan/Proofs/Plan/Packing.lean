import NeuralPlan.Proofs.Draft.Growth
import NeuralPlan.Proofs.Plan.Memory
import NeuralPlan.Proofs.Plan.Structure

/-!
# Greedy packing

The neurons of a row are packed into cells from left to right: a neuron goes into the cell at hand as
long as the size of the cell and the cost of the neuron stay within the budget, and into a new cell
otherwise.  The cost is an upper estimate of what the neuron adds.  So no cell is empty, none is larger
than the budget allows, and none is closed as long as the estimate leaves room for the next neuron.

## Main definitions

* `Net.Outgrows` — a cell has no room for the first neuron of the next one.
* `Greedy` — the cells of a row are packed greedily.
* `Packing.Fills` — the invariant of the packing of a row.

## Main results

* `greedy_snoc` — one cell more.
* `Packing.Packs.fills_closeIfFull` — the cells before the one at hand.
* `Packing.Packs.fills_step`, `Packing.Packs.fills_foldlM` — one neuron more, and all neurons.
* `Plan.compile_greedy` — the rows of a plan are packed greedily.
-/

set_option relaxedAutoImplicit false
set_option autoImplicit false

namespace NeuralPlan

variable {net : Net} {budget : Nat}

/-! ## Cells that are packed greedily -/

/-- With the first neuron of the cell `d`, by its cost, the cell `c` would outgrow the budget. -/
def Net.Outgrows (net : Net) (budget : Nat) (c d : Cell) : Prop :=
  ∃ i ∈ d.members.head?, budget < c.sizeBytes + net.bytesOf i

/-- The cells are packed greedily: none is empty, none outgrows the budget, and each would with the
first neuron of the next. -/
structure Greedy (net : Net) (budget : Nat) (cells : List Cell) : Prop where
  nonempty : ∀ c ∈ cells, c.members ≠ []
  within : ∀ c ∈ cells, c.sizeBytes ≤ budget
  full : cells.IsChain (net.Outgrows budget)

/-- No cells are packed greedily. -/
theorem greedy_nil (net : Net) (budget : Nat) : Greedy net budget [] :=
  ⟨by simp, by simp, .nil⟩

/-- **One cell more** is packed greedily if it is not empty, does not outgrow the budget, and the last
one before it is full. -/
theorem greedy_snoc {cells : List Cell} {c : Cell} :
    Greedy net budget (cells ++ [c]) ↔
      Greedy net budget cells ∧ (∀ last ∈ cells.getLast?, net.Outgrows budget last c) ∧
        c.members ≠ [] ∧ c.sizeBytes ≤ budget := by
  constructor
  · rintro ⟨hnonempty, hwithin, hfull⟩
    rw [List.forall_mem_append] at hnonempty hwithin
    obtain ⟨hcells, -, hlast⟩ := List.isChain_append.mp hfull
    refine ⟨⟨hnonempty.1, hwithin.1, hcells⟩, fun last hmem => hlast last hmem c rfl, ?_, ?_⟩
    · exact hnonempty.2 c (List.mem_singleton_self c)
    · exact hwithin.2 c (List.mem_singleton_self c)
  · rintro ⟨⟨hnonempty, hwithin, hfull⟩, hlast, hc, hsize⟩
    refine ⟨?_, ?_, ?_⟩
    · rw [List.forall_mem_append]
      exact ⟨hnonempty, by simpa using hc⟩
    · rw [List.forall_mem_append]
      exact ⟨hwithin, by simpa using hsize⟩
    · apply List.isChain_append.mpr
      refine ⟨hfull, .singleton c, fun last hmem d hd => ?_⟩
      obtain rfl : c = d := by simpa using hd
      exact hlast last hmem

/-! ## The packing of a row -/

namespace Packing

variable {p p' : Packing} {earlier taken rest : List Nat} {i : Nat}

/-- The cells so far are packed greedily, and the cell at hand is empty only if it is the first. -/
structure Fills (net : Net) (budget : Nat) (p : Packing) : Prop where
  greedy : Greedy net budget p.cells.toList
  begun : p.draft.cell.isEmpty = true → p.columns = #[]

/-- The cells, if the one at hand is not empty. -/
theorem toList_cells (hcell : p.draft.cell.isEmpty = false) :
    p.cells.toList = p.columns.toList ++ [p.draft.cell] := by
  simp [cells, hcell]

/-- The neurons that are packed are those of the cells. -/
theorem Packs.members_eq (hneurons : net.neuronCount < Word.signedLimit)
    (h : p.Packs net earlier budget taken rest) :
    p.columns.toList.flatMap Cell.members ++ p.draft.cell.members = taken ∧
      (p.draft.cell.isEmpty = true ↔ p.draft.cell.members = []) := by
  obtain ⟨parts, slots, hholds, hmade, hmembers⟩ := h.made
  rw [hmade.members_eq hneurons hholds.cell]
  refine ⟨hmembers, ?_⟩
  rw [hholds.cell.isEmpty_iff, List.map_eq_nil_iff]

/-- A neuron is taken into the cell at hand. -/
theorem take_eq_ok (htake : p.take i = .ok p') :
    p'.columns = p.columns ∧ p.draft.add i = (p'.draft, .ok ()) := by
  unfold take at htake
  split at htake
  next => cases htake
  next d hadd =>
    split at htake
    next => cases htake
    next =>
      obtain rfl := Except.ok.inj htake
      exact ⟨rfl, hadd⟩

/-- The cell at hand then holds the neuron after those that it held. -/
theorem Packs.members_take (hneurons : net.neuronCount < Word.signedLimit)
    (h : p.Packs net earlier budget taken (i :: rest))
    (h' : p'.Packs net earlier budget (taken ++ [i]) rest) (htake : p.take i = .ok p') :
    p'.draft.cell.members = p.draft.cell.members ++ [i] := by
  obtain ⟨hmembers, -⟩ := h.members_eq hneurons
  obtain ⟨hmembers', -⟩ := h'.members_eq hneurons
  rw [(take_eq_ok htake).1, ← hmembers, List.append_assoc] at hmembers'
  exact List.append_cancel_left hmembers'

/-- **The cells before the one at hand** are packed greedily, and the last of them is full: it has no
room for the first neuron of the cell at hand, once this has taken in the next one.

**Proof sketch.** If the cell at hand was not closed, its first neuron is still the same, or there is
no cell before it.  If it was, the next neuron is the first of a new cell, and did not fit it. -/
theorem Packs.fills_closeIfFull (hread : net.Readable)
    (h : p.Packs net earlier budget taken (i :: rest)) (hfills : p.Fills net budget)
    (hdue : i ∈ net.due earlier) (hclose : p.closeIfFull i budget = .ok p') {d : Cell}
    (hmembers : d.members = p'.draft.cell.members ++ [i]) :
    Greedy net budget p'.columns.toList ∧
      ∀ last ∈ p'.columns.toList.getLast?, net.Outgrows budget last d := by
  rcases h.closeIfFull_eq_ok hread hdue hclose with ⟨rfl, -⟩ | ⟨rfl, hnonempty, hbig⟩
  · cases hcell : p'.draft.cell.isEmpty with
    | true => simp [hfills.begun hcell, greedy_nil]
    | false =>
      have hgreedy := hfills.greedy
      rw [toList_cells hcell, greedy_snoc] at hgreedy
      refine ⟨hgreedy.1, fun last hmem => ?_⟩
      obtain ⟨j, hj, hfull⟩ := hgreedy.2.1 last hmem
      refine ⟨j, ?_, hfull⟩
      rw [hmembers, List.head?_append_of_ne_nil _ hgreedy.2.2.1]
      exact hj
  · have hclosed : p.close.columns.toList = p.cells.toList := by
      rw [toList_cells hnonempty, Packing.close, Array.toList_push]
    rw [hclosed]
    refine ⟨hfills.greedy, fun last hmem => ⟨i, ?_, ?_⟩⟩
    · rw [hmembers]
      rfl
    · rw [toList_cells hnonempty, List.getLast?_concat] at hmem
      obtain rfl : p.draft.cell = last := by simpa using hmem
      exact hbig

/-- **One neuron more** keeps the packing greedy: it fits the cell that it is taken into, which then
holds it as well, and has grown by no more than its cost. -/
theorem Packs.fills_step (hneurons : net.neuronCount < Word.signedLimit) (hread : net.Readable)
    (h : p.Packs net earlier budget taken (i :: rest)) (hfills : p.Fills net budget)
    (hdue : i ∈ net.due earlier) (hstep : p.step i budget = .ok p') : p'.Fills net budget := by
  obtain ⟨p₁, hclose, hroom, hfits, htake⟩ := h.step_eq_ok hneurons hread hdue hstep
  have h₁ := h.closeIfFull hneurons hread hdue hclose
  have h' := h₁.take hdue hroom hfits htake
  obtain ⟨hcolumns, hadd⟩ := take_eq_ok htake
  have hmembers := h₁.members_take hneurons h' htake
  have hbefore := h.fills_closeIfFull hread hfills hdue hclose hmembers
  have hne : p'.draft.cell.members ≠ [] := by simp [hmembers]
  have hcell : p'.draft.cell.isEmpty = false := by
    rw [Bool.eq_false_iff]
    exact mt (h'.members_eq hneurons).2.mp hne
  have hsize : p'.draft.cell.sizeBytes ≤ budget := by
    have hgrowth := Draft.sizeBytes_add_le hadd
    rw [h₁.draftNet] at hgrowth
    exact hgrowth.trans hfits
  constructor
  · rw [toList_cells hcell, hcolumns, greedy_snoc]
    exact ⟨hbefore.1, hbefore.2, hne, hsize⟩
  · intro hempty
    rw [hcell] at hempty
    cases hempty

/-- **The first neurons of the subset** keep the packing greedy, one after another. -/
theorem Packs.fills_foldlM (hneurons : net.neuronCount < Word.signedLimit) (hread : net.Readable)
    (h : p.Packs net earlier budget taken rest) (hfills : p.Fills net budget)
    (hdue : ∀ i ∈ rest, i ∈ net.due earlier)
    (hfold : rest.foldlM (fun p i => p.step i budget) p = .ok p') : p'.Fills net budget := by
  induction rest generalizing p taken with
  | nil =>
    obtain rfl : p = p' := by simpa using hfold
    exact hfills
  | cons i rest ih =>
    obtain ⟨hi, hrest⟩ := List.forall_mem_cons.mp hdue
    rw [List.foldlM_cons, Result.bind_eq_ok_iff] at hfold
    obtain ⟨p₁, hstep, hfold⟩ := hfold
    exact ih (h.step hneurons hread hi hstep)
      (h.fills_step hneurons hread hfills hi hstep) hrest hfold

end Packing

/-- **The cells of a row** are packed greedily. -/
theorem packRow_greedy (hneurons : net.neuronCount < Word.signedLimit) (hread : net.Readable)
    {earlier : List Nat} {f : Frontier} (hf : f.Stands net earlier) {available : Array Bool}
    (havailable : Marks available earlier) {chosen : List Nat}
    (hchosen : chosen.Sublist (net.due earlier)) {row : Packing}
    (hrow : packRow net (f.withSubset chosen) available budget = .ok row) :
    Greedy net budget row.cells.toList := by
  have hstart := hf.packs_start havailable hchosen budget
  have hfills : Packing.Fills net budget ⟨f.withSubset chosen, .start net available, #[], #[]⟩ :=
    ⟨greedy_nil net budget, fun _ => rfl⟩
  exact (hstart.fills_foldlM hneurons hread hfills (fun i hi => hchosen.subset hi) hrow).greedy

/-! ## The rows of a plan -/

namespace Plan

variable {threads bytes : Nat} {f : Frontier} {available : Array Bool} {made p : Plan}
  {rows : List (List Cell)}

/-- A plan has one layout. -/
theorem Laid.addRow_unique (h : made.Laid net bytes rows) {cells : Array Cell}
    {rows' : List (List Cell)} (h' : (made.addRow cells).Laid net bytes rows') :
    rows' = rows ++ [cells.toList] := by
  rw [List.eq_iff_flatten_eq]
  constructor
  · rw [← h'.cells, List.flatten_append, ← h.cells]
    simp [Plan.addRow]
  · rw [← h'.cols, List.map_append, ← h.cols]
    simp [Plan.addRow]

/-- **One row more** is packed greedily. -/
theorem Underway.greedy_row (hneurons : net.neuronCount < Word.signedLimit)
    (hread : net.Readable) (hcost : net.CostsFit)
    (h : Underway net threads bytes f available made)
    (hgreedy : ∀ rows, made.Laid net bytes rows →
      ∀ row ∈ rows, Greedy net (bytes / threads) row)
    {collected : Frontier} {subset : List Nat}
    (hcollect : collectRow f threads bytes = .ok (collected, subset)) (hsubset : subset ≠ [])
    {row : Packing} (hrow : packRow net collected available (bytes / threads) = .ok row)
    (hrows : (made.addRow row.cells).Laid net bytes rows) :
    ∀ row ∈ rows, Greedy net (bytes / threads) row := by
  obtain ⟨before, hstands, -, hmarks, hlaid, -⟩ := h
  obtain ⟨rfl, hchosen⟩ := collectRow_eq_ok hstands hcost hcollect hsubset
  have hdue : subset.Sublist (net.due (membersOf before)) :=
    hchosen ▸ affordable_due_sublist net bytes (membersOf before)
  rw [hlaid.addRow_unique hrows]
  intro cells hcells
  rcases List.mem_append.mp hcells with hcells | hcells
  · exact hgreedy before hlaid cells hcells
  · rw [List.mem_singleton.mp hcells]
    exact packRow_greedy hneurons hread hstands hmarks hdue hrow

/-- **The rows of a plan that is compiled** are packed greedily. -/
theorem Laid.greedy {s : PlanSettings} (hcompile : compile s net = .ok p)
    (hthreads : s.threads = some threads) (hneurons : net.neuronCount < Word.signedLimit)
    (h : p.Laid net (s.bytes.getD PlanSettings.defaultBytes) rows) :
    ∀ row ∈ rows, Greedy net (s.bytes.getD PlanSettings.defaultBytes / threads) row := by
  obtain ⟨threads', hsome, -, hread, hrows⟩ := compile_eq_ok hcompile
  obtain rfl : threads' = threads := Option.some.inj (hsome.symm.trans hthreads)
  have hcost := costsFit_of_compile hcompile
  generalize s.bytes.getD PlanSettings.defaultBytes = bytes at h hrows ⊢
  have hstart : ∀ rows, (blank net).Laid net bytes rows →
      ∀ row ∈ rows, Greedy net (bytes / threads') row := by
    intro rows hrows
    have hcols := congrArg List.length hrows.cols
    rw [List.length_map] at hcols
    obtain rfl : rows = [] := List.length_eq_zero_iff.mp hcols.symm
    simp
  obtain ⟨f, available, -, -, hgreedy⟩ :=
    compileRows_induct (P := fun f available made => Underway net threads' bytes f available made ∧
        ∀ rows, made.Laid net bytes rows → ∀ row ∈ rows, Greedy net (bytes / threads') row)
      (fun f available made collected subset row hunder _ hcollect hsubset hrow =>
        ⟨hunder.1.row hneurons hread hcost hcollect hsubset hrow, fun _ hrows =>
          hunder.1.greedy_row hneurons hread hcost hunder.2 hcollect hsubset hrow hrows⟩)
      ⟨underway_start hread threads' bytes, hstart⟩ hrows
  exact hgreedy rows h

/-- **The rows of a plan are packed greedily.**  With any number of threads and any memory, if the net
has a plan, then for each of its rows:

1. The neurons of its columns, one column after another, are in strictly ascending order, and they
   are the longest prefix within the memory of the neurons that can be solved by then.
2. No column is empty, and none is larger than the share of one thread in the memory.
3. No column is closed early: with the cost of the first neuron of the next one it would be larger
   than this share.

A signed word counts the neurons, as it counts the bytes of any table.

**Proof sketch.** A neuron adds no more than its cost to a cell, whatever its runs look like, so that
one which fits by its cost leaves the cell within the budget.  By induction on the neurons of a row,
and on the rows, the cells stay packed greedily. -/
theorem compile_greedy {s : PlanSettings} (hcompile : compile s net = .ok p)
    (hthreads : s.threads = some threads) (hneurons : net.neuronCount < Word.signedLimit) :
    ∀ r < p.rows, ∃ cells, p.row r = .ok cells ∧
      (cells.toList.flatMap Cell.members).Pairwise (· < ·) ∧
      Affords net.bytesOf (s.bytes.getD PlanSettings.defaultBytes)
        (net.due (p.membersBefore r)) (cells.toList.flatMap Cell.members) ∧
      (∀ c ∈ cells, c.members ≠ [] ∧
        c.sizeBytes ≤ s.bytes.getD PlanSettings.defaultBytes / threads) ∧
      ∀ k c d, cells[k]? = some c → cells[k + 1]? = some d →
        ∃ i ∈ d.members.head?,
          s.bytes.getD PlanSettings.defaultBytes / threads < c.sizeBytes + net.bytesOf i := by
  obtain ⟨-, rows, -, -, -, hlaid, -⟩ := compile_laid hcompile hneurons
  intro r hr
  rw [hlaid.rows_eq] at hr
  have hrow := List.getElem?_eq_getElem hr
  have hgreedy := hlaid.greedy hcompile hthreads hneurons rows[r] (List.getElem_mem hr)
  have hchosen := hlaid.chosen r _ hrow
  refine ⟨_, hlaid.row_eq hneurons hrow, ?_, ?_, fun c hc => ?_, fun k c d hc hd => ?_⟩
  · show (rows[r].flatMap Cell.members).Pairwise (· < ·)
    rw [hchosen]
    apply List.Pairwise.sublist (affordable_due_sublist net _ _)
    exact List.pairwise_lt_range.filter _
  · rw [hlaid.membersBefore_eq hneurons, hchosen]
    exact affords_affordable
  · have hmem : c ∈ rows[r] := by simpa using hc
    exact ⟨hgreedy.nonempty c hmem, hgreedy.within c hmem⟩
  · rw [List.getElem?_toArray] at hc hd
    obtain ⟨hk, rfl⟩ := List.getElem?_eq_some_iff.mp hc
    obtain ⟨hk', rfl⟩ := List.getElem?_eq_some_iff.mp hd
    exact List.isChain_iff_getElem.mp hgreedy.full k hk'

/-- With one thread and memory for the costs of its three neurons, the rows of the trio are packed
greedily. -/
theorem compile_greedy_trio :
    ∃ p, compile ⟨some 1, some 363⟩ Net.trio = .ok p ∧
      ∀ r < p.rows, ∃ cells, p.row r = .ok cells ∧
        (∀ c ∈ cells, c.members ≠ [] ∧ c.sizeBytes ≤ 363) ∧
        ∀ k c d, cells[k]? = some c → cells[k + 1]? = some d →
          ∃ i ∈ d.members.head?, 363 < c.sizeBytes + Net.trio.bytesOf i := by
  obtain ⟨p, hp⟩ := compile_trio_isOk
  refine ⟨p, hp, fun r hr => ?_⟩
  obtain ⟨cells, hcells, -, -, hwithin, hfull⟩ := compile_greedy hp rfl (by decide) r hr
  exact ⟨cells, hcells, hwithin, hfull⟩

end Plan

end NeuralPlan
