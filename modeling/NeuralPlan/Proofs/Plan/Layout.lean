import NeuralPlan.Proofs.Frontier.Stall
import NeuralPlan.Proofs.Plan.Costs
import NeuralPlan.Proofs.Plan.Rows

/-!
# The layout of a plan

A plan that is compiled has its cells in rows.  Each row holds the longest affordable prefix of the
neurons that are due after the rows before, and its cells are made after these rows.

## Main definitions

* `Plan.membersOf` — the neurons of rows of cells.
* `Plan.Laid` — the layout of a plan.

## Main results

* `Plan.collectRow_eq_ok` — what is collected for a row.
* `Plan.compile_laid` — the layout of a plan that is compiled.
* `Plan.Laid.row_eq` — the rows of the layout are those that are addressed.
-/

set_option relaxedAutoImplicit false
set_option autoImplicit false

namespace NeuralPlan

variable {net : Net} {earlier : List Nat} {f : Frontier} {threads bytes : Nat}

/-- The flags with those of a row more. -/
theorem Marks.marked {available : Array Bool} (h : Marks available earlier) {row : Packing}
    (hlt : ∀ i ∈ row.committed.toList, i < available.size) :
    (row.marked available).size = available.size ∧
      Marks (row.marked available) (earlier ++ row.committed.toList) := by
  have hall : ∀ (l : List Nat) (xs : Array Bool) (done : List Nat), Marks xs done →
      (∀ i ∈ l, i < xs.size) →
      (l.foldl (fun xs i => xs.set! i true) xs).size = xs.size ∧
        Marks (l.foldl (fun xs i => xs.set! i true) xs) (done ++ l) := by
    intro l
    induction l with
    | nil =>
      intro xs done hmarks _
      exact ⟨rfl, by rwa [List.append_nil]⟩
    | cons i l ih =>
      intro xs done hmarks hl
      obtain ⟨hi, hl⟩ := List.forall_mem_cons.mp hl
      have hone : Marks (xs.set! i true) (done ++ [i]) := by
        intro j
        rw [List.mem_append, List.mem_singleton, ← hmarks j, Array.set!_eq_setIfInBounds,
          Array.getElem?_setIfInBounds]
        by_cases hij : i = j
        · subst hij
          simp [hi]
        · rw [if_neg hij]
          constructor
          · exact .inl
          · rintro (h | rfl)
            · exact h
            · exact absurd rfl hij
      obtain ⟨hsize, hmarked⟩ := ih (xs.set! i true) (done ++ [i]) hone (by simpa using hl)
      refine ⟨by simpa using hsize, ?_⟩
      rwa [List.append_assoc, List.singleton_append] at hmarked
  unfold Packing.marked
  rw [← Array.foldl_toList]
  exact hall _ _ _ h hlt

namespace Plan

/-! ## What is collected for a row -/

/-- If the strict collection for a row is empty, then so is the relaxed one. -/
theorem collectRow_of_strict_eq_nil (hf : f.Stands net earlier) (hcost : net.CostsFit)
    {g : Frontier} (hstrict : f.collect ⟨threads, bytes, true⟩ = (g, .ok [])) :
    ∃ h, g.collect ⟨threads, bytes, false⟩ = (h, .ok []) ∧
      collectRow f threads bytes = .ok (h, []) := by
  obtain ⟨h, hrelaxed⟩ := hf.sound.collectBy_relaxed (hf.netEq ▸ hcost) hf.subset rfl hstrict []
    ⟨threads, bytes, false⟩
  refine ⟨h, hrelaxed, ?_⟩
  unfold collectRow
  rw [hstrict]
  dsimp only
  rw [Frontier.collect, hrelaxed]

/-- If no neuron is due, nothing is collected for a row, not even when asked for less. -/
theorem collectRow_of_due_eq_nil (threads bytes : Nat) (hf : f.Stands net earlier)
    (hcost : net.CostsFit) (hdue : net.due earlier = []) :
    ∃ g, collectRow f threads bytes = .ok (g, []) := by
  have hready : f.ready = [] := hf.ready_eq.trans hdue
  have hstrict := hf.sound.collectBy_stalled (hf.netEq ▸ hcost) hf.subset hready []
    ⟨threads, bytes, true⟩
  obtain ⟨h, -, hcollect⟩ := collectRow_of_strict_eq_nil hf hcost hstrict
  exact ⟨h, hcollect⟩

/-- If the first due neuron is affordable, the longest affordable prefix is collected. -/
theorem collectRow_of_le (hf : f.Stands net earlier) (hcost : net.CostsFit) {i : Nat}
    {rest : List Nat} (hdue : net.due earlier = i :: rest) (hfit : net.bytesOf i ≤ bytes) :
    collectRow f threads bytes =
      .ok (f.withSubset (affordable net.bytesOf bytes (net.due earlier)),
        affordable net.bytesOf bytes (net.due earlier)) := by
  have hready := hf.ready_eq
  obtain ⟨hsound, rfl, hsubset, -⟩ := hf
  have hstrict : f.collectBy [] ⟨threads, bytes, true⟩ = _ :=
    hsound.collectBy_strict_of_le hcost hsubset [] rfl (by simpa [hready, hdue] using hfit)
  unfold collectRow Frontier.collect
  rw [hstrict, hready, hdue, affordable, if_pos hfit]

/-- If the first due neuron is not affordable, the budget is exhausted. -/
theorem collectRow_of_lt (hf : f.Stands net earlier) (hcost : net.CostsFit) {i : Nat}
    {rest : List Nat} (hdue : net.due earlier = i :: rest) (hbig : bytes < net.bytesOf i) :
    collectRow f threads bytes = fail (.exhausted (net.bytesOf i) bytes) := by
  have hready := hf.ready_eq
  obtain ⟨hsound, rfl, hsubset, -⟩ := hf
  have hstrict : f.collectBy [] ⟨threads, bytes, true⟩ = _ :=
    hsound.collectBy_strict_of_lt hcost hsubset [] rfl (by simp [hready, hdue]) hbig
  unfold collectRow Frontier.collect
  rw [hstrict]
  rfl

/-- **What is collected for a row** is the longest affordable prefix of the neurons that are due. -/
theorem collectRow_eq_ok (hf : f.Stands net earlier) (hcost : net.CostsFit)
    {collected : Frontier} {subset : List Nat}
    (hcollect : collectRow f threads bytes = .ok (collected, subset)) (hsubset : subset ≠ []) :
    collected = f.withSubset subset ∧
      subset = affordable net.bytesOf bytes (net.due earlier) := by
  cases hdue : net.due earlier with
  | nil =>
    obtain ⟨g, hnone⟩ := collectRow_of_due_eq_nil threads bytes hf hcost hdue
    rw [hnone] at hcollect
    exact absurd (Prod.mk.inj (Except.ok.inj hcollect)).2.symm hsubset
  | cons i rest =>
    by_cases hfit : net.bytesOf i ≤ bytes
    · rw [collectRow_of_le hf hcost hdue hfit] at hcollect
      obtain ⟨rfl, rfl⟩ := Prod.mk.inj (Except.ok.inj hcollect)
      exact ⟨rfl, by rw [hdue]⟩
    · rw [collectRow_of_lt hf hcost hdue (Nat.lt_of_not_le hfit)] at hcollect
      cases hcollect

/-! ## Rows of cells -/

/-- The neurons of rows of cells, in order. -/
def membersOf (rows : List (List Cell)) : List Nat :=
  rows.flatMap fun row => row.flatMap Cell.members

/-- The neurons of rows with one row more. -/
theorem membersOf_snoc (rows : List (List Cell)) (row : List Cell) :
    membersOf (rows ++ [row]) = membersOf rows ++ row.flatMap Cell.members := by
  simp [membersOf]

/-- The cells of the plan are in rows: each row holds the longest affordable prefix of the neurons
that are due after the rows before, in cells that are made after these. -/
structure Laid (net : Net) (bytes : Nat) (rows : List (List Cell)) (p : Plan) : Prop where
  cells : p.cells.toList = rows.flatten
  cols : p.cols.toList = rows.map List.length
  neuronCount : p.neuronCount = net.neuronCount
  outputNeurons : p.outputNeurons = net.outputNeurons
  inputSize : p.inputSize = net.inputSize
  nonempty : ∀ row ∈ rows, row.flatMap Cell.members ≠ []
  chosen : ∀ r row, rows[r]? = some row →
    row.flatMap Cell.members = affordable net.bytesOf bytes (net.due (membersOf (rows.take r)))
  made : ∀ r row, rows[r]? = some row → ∀ c ∈ row, Cell.IsMade net (membersOf (rows.take r)) c

/-- A plan without rows. -/
theorem laid_blank (net : Net) (bytes : Nat) : (blank net).Laid net bytes [] :=
  ⟨rfl, rfl, rfl, rfl, rfl, by simp, by simp, by simp⟩

variable {rows : List (List Cell)} {made p : Plan}

/-- A row more is laid. -/
theorem Laid.addRow (h : made.Laid net bytes rows) {cells : Array Cell}
    (hne : cells.toList.flatMap Cell.members ≠ [])
    (hchosen : cells.toList.flatMap Cell.members =
      affordable net.bytesOf bytes (net.due (membersOf rows)))
    (hmade : ∀ c ∈ cells, c.IsMade net (membersOf rows)) :
    (made.addRow cells).Laid net bytes (rows ++ [cells.toList]) := by
  refine ⟨?_, ?_, h.neuronCount, h.outputNeurons, h.inputSize, fun row hrow => ?_,
    fun r row hr => ?_, fun r row hr => ?_⟩
  · simp [Plan.addRow, h.cells]
  · simp [Plan.addRow, h.cols]
  · rcases List.mem_append.mp hrow with hrow | hrow
    · exact h.nonempty row hrow
    · rwa [List.mem_singleton.mp hrow]
  · rcases getElem?_snoc hr with ⟨hr, htake⟩ | ⟨-, rfl, htake⟩
    · rw [htake]
      exact h.chosen r row hr
    · rwa [htake]
  · rcases getElem?_snoc hr with ⟨hr, htake⟩ | ⟨-, rfl, htake⟩
    · rw [htake]
      exact h.made r row hr
    · rw [htake]
      simpa using hmade

/-! ## The layout of a plan that is compiled -/

/-- What every row keeps: the frontier stands after the rows made so far, the flags mark their
neurons, and the rows are laid. -/
def Underway (net : Net) (threads bytes : Nat) (f : Frontier) (available : Array Bool)
    (made : Plan) : Prop :=
  ∃ rows, f.Stands net (membersOf rows) ∧ available.size = net.neuronCount ∧
    Marks available (membersOf rows) ∧ made.Laid net bytes rows ∧
    ∀ i ∈ membersOf rows, net.Solvable (bytes / threads) i

/-- Before the first row. -/
theorem underway_start (hread : net.Readable) (threads bytes : Nat) :
    Underway net threads bytes (Frontier.initial net) (Array.replicate net.neuronCount false)
      (blank net) := by
  refine ⟨[], ⟨Frontier.sound_initial hread, rfl, rfl, fun i => ?_⟩, by simp, fun i => ?_,
    laid_blank net bytes, by simp [membersOf]⟩
  · simp [Frontier.isDone_initial, membersOf]
  · rw [Array.getElem?_replicate]
    split <;> simp [membersOf]

/-- The neurons that are due and affordable are neurons of the net, different from each other. -/
theorem affordable_due_sublist (net : Net) (bytes : Nat) (earlier : List Nat) :
    (affordable net.bytesOf bytes (net.due earlier)).Sublist (net.due earlier) :=
  affords_affordable.isPrefix.sublist

/-- **One row more** keeps a plan underway. -/
theorem Underway.row (hneurons : net.neuronCount < Word.signedLimit) (hread : net.Readable)
    (hcost : net.CostsFit) {available : Array Bool}
    (h : Underway net threads bytes f available made)
    {collected : Frontier} {subset : List Nat}
    (hcollect : collectRow f threads bytes = .ok (collected, subset)) (hsubset : subset ≠ [])
    {row : Packing} (hrow : packRow net collected available (bytes / threads) = .ok row) :
    Underway net threads bytes row.frontier (row.marked available) (made.addRow row.cells) := by
  obtain ⟨rows, hstands, hsize, hmarks, hlaid, hsolvable⟩ := h
  obtain ⟨rfl, hchosen⟩ := collectRow_eq_ok hstands hcost hcollect hsubset
  have hdue : subset.Sublist (net.due (membersOf rows)) :=
    hchosen ▸ affordable_due_sublist net bytes (membersOf rows)
  obtain ⟨hstands', hcommitted, hmembers, hmade, hsolvable'⟩ :=
    packRow_spec hneurons hread hstands hmarks hdue hrow
  have hlt : ∀ i ∈ row.committed.toList, i < available.size := by
    intro i hi
    rw [hcommitted] at hi
    rw [hsize]
    exact (Net.mem_due.mp (hdue.subset hi)).1
  obtain ⟨hsize', hmarks'⟩ := hmarks.marked hlt
  rw [hcommitted] at hmarks'
  refine ⟨rows ++ [row.cells.toList], ?_, hsize'.trans hsize, ?_,
    hlaid.addRow (hmembers ▸ hsubset) (hmembers.trans hchosen) hmade, fun i hi => ?_⟩
  · rwa [membersOf_snoc, hmembers]
  · rwa [membersOf_snoc, hmembers]
  · rw [membersOf_snoc, hmembers] at hi
    rcases List.mem_append.mp hi with hi | hi
    · exact hsolvable i hi
    · exact hsolvable' i hi

/-- **The layout of a plan that is compiled**: all neurons are in its rows, and each can be solved
by a cell of its own.

**Proof sketch.** The costs of the net fit, so that every collection is exact, and each row keeps
the plan underway.  When the frontier is finished, it stands after all neurons. -/
theorem compile_laid {s : PlanSettings} (hcompile : compile s net = .ok p)
    (hneurons : net.neuronCount < Word.signedLimit) :
    ∃ threads rows, s.threads = some threads ∧ 0 < threads ∧ net.Readable ∧
      p.Laid net (s.bytes.getD PlanSettings.defaultBytes) rows ∧
      (∀ i < net.neuronCount, i ∈ membersOf rows) ∧
      ∀ i ∈ membersOf rows,
        net.Solvable (s.bytes.getD PlanSettings.defaultBytes / threads) i := by
  obtain ⟨threads, hthreads, hpos, hread, hrows⟩ := compile_eq_ok hcompile
  have hcost := costsFit_of_compile hcompile
  obtain ⟨f, available, hfinished, rows, hstands, -, -, hlaid, hsolvable⟩ :=
    compileRows_induct (P := Underway net threads (s.bytes.getD PlanSettings.defaultBytes))
      (fun f available made collected subset row hunder _ hcollect hsubset hrow =>
        hunder.row hneurons hread hcost hcollect hsubset hrow)
      (underway_start hread threads _) hrows
  refine ⟨threads, rows, hthreads, hpos, hread, hlaid, fun i hi => ?_, hsolvable⟩
  rw [hstands.sound.finished_iff, hstands.netEq] at hfinished
  exact (hstands.done i).mp (hfinished i hi)

/-! ## Places -/

/-- The neurons of the first rows are among those of all rows. -/
theorem membersOf_take_subset (rows : List (List Cell)) (r : Nat) :
    membersOf (rows.take r) ⊆ membersOf rows :=
  ((List.take_sublist r rows).flatMap _).subset

/-- No neuron is in a plan twice. -/
theorem Laid.nodup (h : p.Laid net bytes rows) : (membersOf rows).Nodup := by
  have hall : ∀ r ≤ rows.length, (membersOf (rows.take r)).Nodup := by
    intro r
    induction r with
    | zero => simp [membersOf]
    | succ r ih =>
      intro hr
      have hrow : rows[r]? = some rows[r] := List.getElem?_eq_getElem hr
      rw [List.take_succ_eq_append_getElem hr, membersOf_snoc, h.chosen r _ hrow]
      exact Net.nodup_append_due (ih (Nat.le_of_succ_le hr)) (affordable_due_sublist net bytes _)
  simpa using hall rows.length le_rfl

/-- The neurons of a plan are neurons of the net. -/
theorem Laid.lt_of_mem (h : p.Laid net bytes rows) {i : Nat} (hi : i ∈ membersOf rows) :
    i < net.neuronCount := by
  obtain ⟨row, hrow, hi⟩ := List.mem_flatMap.mp hi
  obtain ⟨r, hr⟩ := List.mem_iff_getElem?.mp hrow
  rw [h.chosen r row hr] at hi
  exact (Net.mem_due.mp ((affordable_due_sublist net bytes _).subset hi)).1

/-- A plan has as many rows as its layout. -/
theorem Laid.rows_eq (h : p.Laid net bytes rows) : p.rows = rows.length := by
  rw [Plan.rows, ← Array.length_toList, h.cols, List.length_map]

/-- A plan has no more cells than the net has neurons. -/
theorem Laid.length_flatten_le (hneurons : net.neuronCount < Word.signedLimit)
    (h : p.Laid net bytes rows) : rows.flatten.length ≤ net.neuronCount := by
  have hcell : ∀ c ∈ rows.flatten, 1 ≤ c.members.length := by
    intro c hc
    obtain ⟨row, hrow, hc⟩ := List.mem_flatten.mp hc
    obtain ⟨r, hr⟩ := List.mem_iff_getElem?.mp hrow
    obtain ⟨parts, slots, hparts, hholds, hmade⟩ := h.made r row hr c hc
    rw [hmade.members_eq hneurons hholds, List.length_map]
    exact List.length_pos_iff.mpr hparts
  have hone : ∀ b ∈ rows.flatten.map fun c => c.members.length, 1 ≤ b := by
    intro b hb
    obtain ⟨c, hc, rfl⟩ := List.mem_map.mp hb
    exact hcell c hc
  have hsum := List.card_nsmul_le_sum _ 1 hone
  have hlen : (membersOf rows).length = (rows.flatten.map fun c => c.members.length).sum := by
    simp [membersOf, List.length_flatMap, List.map_flatten, List.sum_flatten, Function.comp_def]
  have hle : (membersOf rows).length ≤ net.neuronCount := by
    have hsub : membersOf rows ⊆ List.range net.neuronCount := fun i hi =>
      List.mem_range.mpr (h.lt_of_mem hi)
    simpa using (h.nodup.subperm hsub).length_le
  rw [List.length_map, smul_eq_mul, Nat.mul_one] at hsum
  omega

/-- The number of columns of a row. -/
theorem colsAt_eq_ok_iff {r cols : Nat} : p.colsAt r = .ok cols ↔ p.cols[r]? = some cols := by
  unfold colsAt
  split
  next hr => simp [hr]
  next hr => simp [hr]

/-- A row is addressed exactly if a word counts the cells up to its last one and there are so
many. -/
theorem row_eq_ok_iff {r : Nat} {cells : Array Cell} :
    p.row r = .ok cells ↔ ∃ cols, p.cols[r]? = some cols ∧ p.cellsBefore r + cols < Word.limit ∧
      p.cellsBefore r + cols ≤ p.cells.size ∧
      cells = p.cells.extract (p.cellsBefore r) (p.cellsBefore r + cols) := by
  simp only [Plan.row, Result.bind_eq_ok_iff, colsAt_eq_ok_iff]
  apply exists_congr
  intro cols
  apply and_congr_right
  intro _
  by_cases hfirst : Word.limit ≤ p.cellsBefore r
  · simp [hfirst]
    omega
  · by_cases hlimit : Word.limit ≤ p.cellsBefore r + cols
    · simp [hfirst, hlimit]
    · by_cases hsize : p.cells.size < p.cellsBefore r + cols
      · simp [hfirst, hlimit, hsize]
      · have hlt := Nat.lt_of_not_le hlimit
        have hle := Nat.le_of_not_lt hsize
        simp [hfirst, hlimit, hsize, hlt, hle, eq_comm]

/-- **The rows of the layout** are those that are addressed. -/
theorem Laid.row_eq (hneurons : net.neuronCount < Word.signedLimit) (h : p.Laid net bytes rows)
    {r : Nat} {row : List Cell} (hr : rows[r]? = some row) : p.row r = .ok row.toArray := by
  obtain ⟨hlt, rfl⟩ := List.getElem?_eq_some_iff.mp hr
  have hcols : p.cols[r]? = some rows[r].length := by
    rw [← Array.getElem?_toList, h.cols, List.getElem?_map, hr]
    rfl
  have hfirst : p.cellsBefore r = ((rows.map List.length).take r).sum := by
    rw [cellsBefore, Word.total_eq_sum, h.cols]
  have hlast : p.cellsBefore r + rows[r].length = ((rows.map List.length).take (r + 1)).sum := by
    rw [hfirst, List.sum_take_succ _ r (by simpa using hlt), List.getElem_map]
  have hle : ((rows.map List.length).take (r + 1)).sum ≤ p.cells.size := by
    rw [← Array.length_toList, h.cells, List.length_flatten]
    exact (List.take_sublist _ _).sum_le_sum fun _ _ => Nat.zero_le _
  have hfew : p.cells.size < Word.limit := by
    have hcells := h.length_flatten_le hneurons
    rw [← h.cells, Array.length_toList] at hcells
    exact (hcells.trans_lt hneurons).trans (by decide)
  have hextract : p.cells.extract (p.cellsBefore r) (p.cellsBefore r + rows[r].length) =
      rows[r].toArray := by
    rw [← Array.toList_inj, Array.toList_extract, h.cells, hlast, hfirst, List.extract_eq_take_drop,
      List.take_drop, Nat.add_sub_of_le (by omega),
      List.drop_take_succ_flatten_eq_getElem rows r hlt]
  rw [← hlast] at hle
  exact row_eq_ok_iff.mpr ⟨_, hcols, by omega, hle, hextract.symm⟩

/-! ## The row of a neuron -/

/-- The first row that a neuron is in. -/
def rowOf (rows : List (List Cell)) (i : Nat) : Nat :=
  rows.findIdx fun row => (row.flatMap Cell.members).contains i

/-- A neuron of one of the rows is in its first row. -/
theorem mem_rowOf {i : Nat} (hi : i ∈ membersOf rows) :
    ∃ row, rows[rowOf rows i]? = some row ∧ i ∈ row.flatMap Cell.members := by
  obtain ⟨row, hrow, hi⟩ := List.mem_flatMap.mp hi
  have hlt : rowOf rows i < rows.length :=
    List.findIdx_lt_length_of_exists ⟨row, hrow, by simpa using hi⟩
  have hmem : ((rows[rowOf rows i]).flatMap Cell.members).contains i = true :=
    List.findIdx_getElem (w := hlt)
  exact ⟨_, List.getElem?_eq_getElem hlt, by simpa using hmem⟩

/-- A neuron of one of the first rows has its row among these. -/
theorem rowOf_lt {i r : Nat} (hi : i ∈ membersOf (rows.take r)) : rowOf rows i < r := by
  obtain ⟨row, hrow, hi⟩ := List.mem_flatMap.mp hi
  obtain ⟨k, hk⟩ := List.mem_iff_getElem?.mp hrow
  rw [List.getElem?_take] at hk
  split at hk
  next hkr =>
    obtain ⟨hlt, rfl⟩ := List.getElem?_eq_some_iff.mp hk
    by_contra hge
    have hnone := List.not_of_lt_findIdx (show k < rowOf rows i by omega)
    simp only [List.contains_eq_mem, decide_eq_false_iff_not] at hnone
    exact hnone hi
  next => cases hk

/-- **The rows rank the neurons** above those that they read. -/
theorem Laid.rowOf_lt_rowOf (h : p.Laid net bytes rows)
    (hall : ∀ i < net.neuronCount, i ∈ membersOf rows) {i j : Nat} (hij : net.Reads i j) :
    rowOf rows j < rowOf rows i := by
  obtain ⟨row, hrow, hi⟩ := mem_rowOf (hall i hij.lt)
  rw [h.chosen _ _ hrow] at hi
  exact rowOf_lt ((Net.mem_due.mp ((affordable_due_sublist net bytes _).subset hi)).2.2 j hij)

end Plan

end NeuralPlan
