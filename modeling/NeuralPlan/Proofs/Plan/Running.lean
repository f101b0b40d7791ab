import NeuralPlan.Proofs.Cell.Reading
import NeuralPlan.Proofs.Plan.Commits
import NeuralPlan.Proofs.Plan.Structure

/-!
# Running any plan

A plan may come from outside, with any cells in any rows.  The values of an earlier run are still
there while it is run, and a row that reads a neuron too early could take such a value for a new
one.  A run that succeeds has not done so: if no neuron is in the plan twice, then every neuron has
the value that its cell asks for, over external inputs and final values.

## Main definitions

* `Plan.rowCells` — the cells of a row.
* `Cell.sourceRef?` — the reference that a source stands for.
* `Cell.valueAt?` — the value of a local position, over external inputs and values of neurons.
* `Plan.Ran`, `Plan.Fresh` — a row that has been run, and the values while a plan is run.

## Main results

* `Plan.Gridded.flatMap_eq` — the rows part the cells.
* `Plan.Fresh.row`, `Plan.fresh_of_runRows` — one row more is run, and all rows.
* `Plan.run_reads_final` — what a run that succeeds has read.
-/

set_option relaxedAutoImplicit false
set_option autoImplicit false

namespace NeuralPlan

/-! ## The values that a cell asks for -/

namespace Cell

/-- The reference that a source of the local position `k` stands for: that of a slot, or the neuron
of an earlier position. -/
def sourceRef? (c : Cell) (k : Nat) (source : Int) : Option Int :=
  if Ref.isInput source then (Runs.indices c.slots.toList)[(-(source + 1)).toNat]?
  else if source.toNat < k then c.members[source.toNat]?.map fun j : Nat => (j : Int)
  else none

/-- The value of the local position `k`, from external inputs, the values of all neurons and the
previous value of its own. -/
def valueAt? (c : Cell) (input values : Array Float) (k : Nat) (previous : Float) :
    Option Float :=
  c.valueFrom? (fun s => (c.sourceRef? k s).bind (Ref.read? input values)) k previous

variable {c : Cell} {input values values' : Array Float} {k : Nat} {previous value : Float}

/-- The neurons that the cell reads from outside. -/
def Needs (c : Cell) (j : Nat) : Prop :=
  ∃ ref ∈ Runs.indices c.slots.toList, Ref.isInput ref = false ∧ ref.toNat = j

/-- **The value of a local position** depends on the values of the neurons of the cell and of those
that it reads from outside. -/
theorem valueAt?_mono (hsame : ∀ j, j ∈ c.members ∨ c.Needs j → values'[j]? = values[j]?)
    (h : c.valueAt? input values k previous = some value) :
    c.valueAt? input values' k previous = some value := by
  apply valueFrom?_mono _ h
  intro s x hx
  obtain ⟨ref, href, hx⟩ := Option.bind_eq_some_iff.mp hx
  rw [href, Option.bind_some]
  unfold Ref.read? at hx ⊢
  split at hx
  next hin => rwa [if_pos hin]
  next hin =>
    rw [if_neg hin, hsame, hx]
    unfold sourceRef? at href
    split at href
    next =>
      exact .inr ⟨ref, List.mem_of_getElem? href, by simpa using hin, rfl⟩
    next =>
      split at href
      next =>
        obtain ⟨j, hj, rfl⟩ := Option.map_eq_some_iff.mp href
        exact .inl (by simpa using List.mem_of_getElem? hj)
      next => cases href

/-- What a cell that is solved has computed is what it asks for over later values, if these are its
results for its own neurons, and the same for those that it reads. -/
theorem IsSolved.valueAt?_eq {env : Surroundings} {results : Array Float}
    (h : c.IsSolved env results)
    (hresults : ∀ (q j : Nat) (x : Float), c.members[q]? = some j → results[q]? = some x →
      values[j]? = some x)
    (hsame : ∀ j, c.Needs j → values[j]? = env.values[j]?)
    (hvalue : c.valueFrom? (readLocal (c.slotValues env) results k) k previous = some value) :
    c.valueAt? env.input values k previous = some value := by
  apply valueFrom?_mono _ hvalue
  intro s x hx
  unfold readLocal slotValues at hx
  unfold sourceRef?
  split at hx
  next hin =>
    rw [if_pos hin]
    simp only [List.getElem?_toArray, List.getElem?_map, Option.map_eq_some_iff] at hx
    obtain ⟨ref, href, rfl⟩ := hx
    have hmem := List.mem_of_getElem? href
    rw [href, Option.bind_some, ← Surroundings.read?_of_canRead (h.reads ref hmem)]
    unfold Ref.read?
    split
    next => rfl
    next hneuron => exact hsame _ ⟨ref, hmem, by simpa using hneuron, rfl⟩
  next hin =>
    rw [if_neg hin]
    split at hx
    next hlt =>
      have hsize : s.toNat < c.members.length := by
        rw [← h.size]
        exact (Array.getElem?_eq_some_iff.mp hx).1
      have hmember := List.getElem?_eq_getElem hsize
      rw [if_pos hlt, hmember]
      rw [Option.map_some, Option.bind_some, Ref.read?_natCast]
      exact hresults _ _ x hmember hx
    next => cases hx

end Cell

namespace Plan

/-! ## The rows of a plan -/

/-- The cells of a row, none if it cannot be addressed. -/
def rowCells (p : Plan) (r : Nat) : List Cell :=
  match p.row r with
  | .ok cells => cells.toList
  | .error _ => []

/-- The neurons of a row are those of its cells. -/
theorem rowMembers_eq (p : Plan) (r : Nat) :
    p.rowMembers r = (p.rowCells r).flatMap Cell.members := by
  unfold rowMembers rowCells
  cases p.row r with
  | ok cells => rfl
  | error e => rfl

/-- The neurons of the rows up to `r`. -/
theorem membersBefore_succ (p : Plan) (r : Nat) :
    p.membersBefore (r + 1) = p.membersBefore r ++ p.rowMembers r := by
  simp [membersBefore, List.range_succ]

/-- The neurons of earlier rows are in the rows before. -/
theorem membersBefore_subset {p : Plan} {q r : Nat} (h : q ≤ r) :
    p.membersBefore q ⊆ p.membersBefore r := by
  intro i hi
  simp only [membersBefore, List.mem_flatMap, List.mem_range] at hi ⊢
  obtain ⟨m, hm, hi⟩ := hi
  exact ⟨m, by omega, hi⟩

/-- A row adds its columns to the cells before. -/
theorem cellsBefore_succ {p : Plan} {r cols : Nat} (h : p.cols[r]? = some cols) :
    p.cellsBefore (r + 1) = p.cellsBefore r + cols := by
  simp only [cellsBefore, Word.total_eq_sum, List.take_add_one, Array.getElem?_toList, h]
  simp

/-- The cells before the end of all rows are counted by all columns. -/
theorem cellsBefore_rows (p : Plan) : p.cellsBefore p.rows = Word.total p.cols.toList := by
  rw [cellsBefore, rows, ← Array.length_toList, List.take_length]

/-- The cells of the rows up to `r` are the first cells of the plan. -/
theorem take_cellsBefore_succ {p : Plan} {r : Nat} {cells : Array Cell}
    (h : p.row r = .ok cells) :
    p.cells.toList.take (p.cellsBefore (r + 1)) =
      p.cells.toList.take (p.cellsBefore r) ++ cells.toList := by
  obtain ⟨cols, hcols, -, -, hcells⟩ := row_eq_ok_iff.mp h
  rw [cellsBefore_succ hcols, List.take_add, hcells, Array.toList_extract,
    List.extract_eq_take_drop, Nat.add_sub_cancel_left]

/-- The cells of the first `r` rows are the first cells of the plan. -/
def Gridded (p : Plan) (r : Nat) : Prop :=
  (List.range r).flatMap p.rowCells = p.cells.toList.take (p.cellsBefore r)

/-- One row more that can be addressed holds the next cells. -/
theorem Gridded.succ {p : Plan} {r : Nat} {cells : Array Cell} (h : p.Gridded r)
    (hrow : p.row r = .ok cells) : p.Gridded (r + 1) := by
  unfold Gridded at h ⊢
  rw [List.range_succ, List.flatMap_append, h, take_cellsBefore_succ hrow]
  simp [rowCells, hrow]

/-- The neurons of the first rows are different if those of all cells are. -/
theorem Gridded.nodup {p : Plan} {r : Nat} (h : p.Gridded r)
    (hnodup : (p.cells.toList.flatMap Cell.members).Nodup) : (p.membersBefore r).Nodup := by
  have hcells : p.membersBefore r = ((List.range r).flatMap p.rowCells).flatMap Cell.members := by
    rw [membersBefore, List.flatMap_assoc]
    exact List.flatMap_congr fun q _ => p.rowMembers_eq q
  rw [hcells, h]
  exact hnodup.sublist ((List.take_sublist _ _).flatMap _)

/-- **The rows part the cells**, if every row can be addressed and the columns of all rows are just
the cells. -/
theorem Gridded.flatMap_eq {p : Plan} (h : p.Gridded p.rows) (hcovered : p.isCovered = true) :
    (List.range p.rows).flatMap p.rowCells = p.cells.toList := by
  rw [isCovered, beq_iff_eq, ← cellsBefore_rows] at hcovered
  rw [h, hcovered, ← Array.length_toList, List.take_length]

/-! ## One row -/

variable {p : Plan} {input old : Array Float} {v v' : Values} {r : Nat}

/-- The cells of a row are solved on the same values, in order. -/
theorem solve_of_solveRow {cells : Array Cell} {solved : List (Cell × Array Float)}
    (h : solveRow input v cells = .ok solved) :
    solved.map Prod.fst = cells.toList ∧
      ∀ x ∈ solved, x.1.solve ⟨input, v.values, v.committed⟩ = .ok x.2 := by
  unfold solveRow at h
  generalize cells.toList = row at h ⊢
  induction row generalizing solved with
  | nil =>
    obtain rfl := Except.ok.inj h
    exact ⟨rfl, by simp⟩
  | cons c row ih =>
    simp only [List.mapM_cons, Result.bind_eq_ok_iff, Result.pure_eq_ok, Except.ok.injEq] at h
    obtain ⟨_, ⟨results, hsolve, rfl⟩, rest, hrest, rfl⟩ := h
    obtain ⟨hcells, hall⟩ := ih hrest
    rw [List.map_cons, hcells]
    exact ⟨rfl, List.forall_mem_cons.mpr ⟨hsolve, hall⟩⟩

/-- The cells of a row that is solved are solved, each with its results. -/
theorem solveRow_eq_ok {cells : Array Cell} {solved : List (Cell × Array Float)}
    (h : solveRow input v cells = .ok solved) :
    solved.map Prod.fst = cells.toList ∧
      ∀ x ∈ solved, x.1.IsSolved ⟨input, v.values, v.committed⟩ x.2 := by
  obtain ⟨hcells, hall⟩ := solve_of_solveRow h
  exact ⟨hcells, fun x hx => Cell.solve_eq_ok (hall x hx)⟩

/-- A row that is run is addressed, its cells are solved, and their results committed. -/
theorem runRow_eq_ok (h : p.runRow input v r = (v', .ok ())) :
    ∃ cells solved, p.row r = .ok cells ∧ solveRow input v cells = .ok solved ∧
      commitRow v solved = (v', .ok ()) := by
  unfold runRow at h
  split at h
  next => cases (Prod.mk.inj h).2
  next solved hsolved =>
    obtain ⟨cells, hcells, hsolve⟩ := Result.bind_eq_ok_iff.mp hsolved
    exact ⟨cells, solved, hcells, hsolve, h⟩

/-- The results of cells that are solved, with the neurons that they belong to. -/
def resultsOf (solved : List (Cell × Array Float)) : List (Nat × Float) :=
  solved.flatMap fun x => x.1.members.zip x.2.toList

/-- The results of some cells and of others. -/
theorem resultsOf_append (solved solved' : List (Cell × Array Float)) :
    resultsOf (solved ++ solved') = resultsOf solved ++ resultsOf solved' :=
  List.flatMap_append

section Results

variable {env : Surroundings} {solved : List (Cell × Array Float)}

/-- The results belong to the neurons of the cells. -/
theorem map_fst_resultsOf (h : ∀ x ∈ solved, x.1.IsSolved env x.2) :
    (resultsOf solved).map Prod.fst = (solved.map Prod.fst).flatMap Cell.members := by
  rw [resultsOf, List.map_flatMap, List.flatMap_map]
  apply List.flatMap_congr
  intro x hx
  apply List.map_fst_zip
  rw [← (h x hx).size, Array.length_toList]

/-- The results are those of the cells, one cell after another. -/
theorem map_snd_resultsOf (h : ∀ x ∈ solved, x.1.IsSolved env x.2) :
    (resultsOf solved).map Prod.snd = solved.flatMap fun x => x.2.toList := by
  rw [resultsOf, List.map_flatMap]
  apply List.flatMap_congr
  intro x hx
  apply List.map_snd_zip
  rw [← (h x hx).size, Array.length_toList]

/-- The results of a cell are among the results. -/
theorem mem_resultsOf {x : Cell × Array Float} (hx : x ∈ solved) {k i : Nat} {value : Float}
    (hi : x.1.members[k]? = some i) (hvalue : x.2[k]? = some value) :
    (i, value) ∈ resultsOf solved := by
  apply List.mem_flatMap.mpr
  refine ⟨x, hx, List.mem_of_getElem? (i := k) ?_⟩
  rw [List.getElem?_zip_eq_some]
  exact ⟨hi, by rwa [Array.getElem?_toList]⟩

/-- **What a row commits** are the results of its cells, if these are solved. -/
theorem commitRow_of_isSolved (h : ∀ x ∈ solved, x.1.IsSolved ⟨input, v.values, v.committed⟩ x.2)
    (hsize : v.values.size = v.committed.size) :
    commitRow v solved = (v.commitAll (resultsOf solved), .ok ()) ∧
      ∀ x ∈ resultsOf solved, x.1 < v.values.size := by
  have hlt : ∀ x ∈ solved, ∀ i ∈ x.1.members, i < v.values.size := by
    intro x hx i hi
    obtain ⟨k, hk⟩ := List.mem_iff_getElem?.mp hi
    obtain ⟨previous, value, hprevious, -⟩ := (h x hx).solved k i hk
    exact (Array.getElem?_eq_some_iff.mp hprevious).1
  constructor
  · apply commitRow_eq
    intro x hx ref href
    exact ⟨(h x hx).signed ref href, hsize ▸ hlt x hx _ (List.mem_map_of_mem href)⟩
  · intro y hy
    have hmem := List.mem_map_of_mem (f := Prod.fst) hy
    rw [map_fst_resultsOf h, List.flatMap_map] at hmem
    obtain ⟨x, hx, hi⟩ := List.mem_flatMap.mp hmem
    exact hlt x hx _ hi

end Results

/-- The row `r` has been run, from the values `v` to `v'`: its cells are solved on `v` with their
results, which are the values of its neurons afterwards; these are committed more, and all other
values are kept. -/
structure Ran (p : Plan) (input : Array Float) (r : Nat) (v v' : Values)
    (solved : List (Cell × Array Float)) : Prop where
  cells : p.rowCells r = solved.map Prod.fst
  isSolved : ∀ x ∈ solved, x.1.IsSolved ⟨input, v.values, v.committed⟩ x.2
  size : v'.values.size = v.values.size
  flags : v'.committed.size = v.committed.size
  committed : ∀ i, v'.committed[i]? = some true ↔ v.committed[i]? = some true ∨ i ∈ p.rowMembers r
  kept : ∀ i, i ∉ p.rowMembers r → v'.values[i]? = v.values[i]?
  written : ∀ x ∈ solved, ∀ (k i : Nat) (value : Float), x.1.members[k]? = some i →
    x.2[k]? = some value → v'.values[i]? = some value

/-- A row that is run without failure has been run, if no neuron is in it twice. -/
theorem ran_of_runRow (hrun : p.runRow input v r = (v', .ok ()))
    (hsize : v.values.size = v.committed.size) (hnodup : (p.rowMembers r).Nodup) :
    ∃ solved, p.Ran input r v v' solved := by
  obtain ⟨cells, solved, hcells, hsolve, hcommit⟩ := runRow_eq_ok hrun
  obtain ⟨hfst, hsolved⟩ := solveRow_eq_ok hsolve
  obtain ⟨hcommitted, hlt⟩ := commitRow_of_isSolved hsolved hsize
  obtain rfl := (Prod.mk.inj (hcommitted.symm.trans hcommit)).1
  have hrowCells : p.rowCells r = solved.map Prod.fst := by rw [rowCells, hcells, hfst]
  have hnames : (resultsOf solved).map Prod.fst = p.rowMembers r := by
    rw [map_fst_resultsOf hsolved, rowMembers_eq, hrowCells]
  refine ⟨solved, hrowCells, hsolved, by simp, by simp, fun i => ?_, fun i hi => ?_,
    fun x hx k i value hi hvalue => ?_⟩
  · rw [Values.committed_commitAll (fun x hx => hsize ▸ hlt x hx), hnames]
  · exact Values.getElem?_commitAll_of_notMem (hnames ▸ hi)
  · have hmem := mem_resultsOf hx hi hvalue
    exact Values.getElem?_commitAll_of_mem (hnames ▸ hnodup) hmem (hlt _ hmem)

/-- The neurons of a row that has been run have the values that their cells ask for over the values
afterwards, if no cell of the row reads a neuron of the row from outside. -/
theorem Ran.solved_eq {solved : List (Cell × Array Float)} (h : p.Ran input r v v' solved)
    (hneeds : ∀ c ∈ p.rowCells r, ∀ j, c.Needs j → j ∉ p.rowMembers r) {c : Cell}
    (hc : c ∈ p.rowCells r) {k i : Nat} (hi : c.members[k]? = some i) :
    ∃ previous value, v.values[i]? = some previous ∧
      c.valueAt? input v'.values k previous = some value ∧ v'.values[i]? = some value := by
  have hmem := hc
  rw [h.cells] at hmem
  obtain ⟨x, hx, rfl⟩ := List.mem_map.mp hmem
  obtain ⟨previous, value, hprevious, hvalue, hresult⟩ := (h.isSolved x hx).solved k i hi
  refine ⟨previous, value, hprevious, ?_, h.written x hx k i value hi hresult⟩
  apply (h.isSolved x hx).valueAt?_eq (h.written x hx) _ hvalue
  exact fun j hj => h.kept j (hneeds _ hc j hj)

/-! ## The values while a plan is run -/

/-- After the first `r` rows have been run, the neurons of these are committed and all others have
their previous values; the cells of these rows have read no neuron of their own row or a later one,
and their neurons have the values that they ask for. -/
structure Fresh (p : Plan) (input old : Array Float) (r : Nat) (v : Values) : Prop where
  gridded : p.Gridded r
  size : v.values.size = old.size
  flags : v.committed.size = old.size
  committed : ∀ i, v.committed[i]? = some true ↔ i ∈ p.membersBefore r
  kept : ∀ i, i ∉ p.membersBefore r → v.values[i]? = old[i]?
  reads : ∀ q < r, ∀ c ∈ p.rowCells q, ∀ j, c.Needs j → j ∈ p.membersBefore q
  solved : ∀ q < r, ∀ c ∈ p.rowCells q, ∀ k i, c.members[k]? = some i → ∃ previous value,
    old[i]? = some previous ∧ c.valueAt? input v.values k previous = some value ∧
      v.values[i]? = some value

/-- Before the first row, no neuron is committed. -/
theorem fresh_start (p : Plan) (input old : Array Float) :
    p.Fresh input old 0 ⟨old, Array.replicate old.size false⟩ := by
  refine ⟨by simp [Gridded, cellsBefore], rfl, by simp, fun i => ?_, fun i _ => rfl, by simp,
    by simp⟩
  rw [Array.getElem?_replicate]
  split <;> simp [membersBefore]

/-- The cells of a row that has been run have read neurons of the rows before. -/
theorem Fresh.mem_membersBefore {solved : List (Cell × Array Float)} (h : p.Fresh input old r v)
    (hran : p.Ran input r v v' solved) {c : Cell} (hc : c ∈ p.rowCells r) {j : Nat}
    (hj : c.Needs j) : j ∈ p.membersBefore r := by
  rw [hran.cells] at hc
  obtain ⟨x, hx, rfl⟩ := List.mem_map.mp hc
  obtain ⟨ref, href, hneuron, rfl⟩ := hj
  have hread := (hran.isSolved x hx).reads ref href
  unfold Surroundings.CanRead at hread
  rw [hneuron, if_neg (by decide)] at hread
  exact (h.committed _).mp hread.2

/-- The neurons of a row are in the rows up to it. -/
theorem mem_membersBefore_of_mem {q : Nat} (hq : q < r) {c : Cell} (hc : c ∈ p.rowCells q)
    {j : Nat} (hj : j ∈ c.members) : j ∈ p.membersBefore r := by
  apply membersBefore_subset hq
  rw [membersBefore_succ, rowMembers_eq, List.mem_append]
  exact .inr (List.mem_flatMap.mpr ⟨c, hc, hj⟩)

/-- **One row more is run.**  No neuron of the row was run before or is in the row twice, so that
nothing that was read changes.

**Proof sketch.** The cells of the row have read committed neurons, which are those of the rows
before; the values of these stay, as the row writes none of them.  For the cells of earlier rows
nothing changes, for what they read and write lies in the rows before. -/
theorem Fresh.row (h : p.Fresh input old r v)
    (hnodup : (p.cells.toList.flatMap Cell.members).Nodup)
    (hrun : p.runRow input v r = (v', .ok ())) : p.Fresh input old (r + 1) v' := by
  obtain ⟨cells, -, hcells, -⟩ := runRow_eq_ok hrun
  have hgridded := h.gridded.succ hcells
  have hall := hgridded.nodup hnodup
  rw [membersBefore_succ] at hall
  obtain ⟨-, hrow, hdisjoint⟩ := List.nodup_append.mp hall
  obtain ⟨solved, hran⟩ := ran_of_runRow hrun (h.size.trans h.flags.symm) hrow
  have hnew : ∀ j ∈ p.membersBefore r, j ∉ p.rowMembers r :=
    fun j hj hmem => hdisjoint j hj j hmem rfl
  have hneeds : ∀ c ∈ p.rowCells r, ∀ j, c.Needs j → j ∈ p.membersBefore r :=
    fun c hc j hj => h.mem_membersBefore hran hc hj
  refine ⟨hgridded, hran.size.trans h.size, hran.flags.trans h.flags, fun i => ?_,
    fun i hi => ?_, fun q hq c hc j hj => ?_, fun q hq c hc k i hi => ?_⟩
  · rw [hran.committed, h.committed, membersBefore_succ, List.mem_append]
  · rw [membersBefore_succ, List.mem_append, not_or] at hi
    rw [hran.kept i hi.2, h.kept i hi.1]
  · rcases Nat.lt_succ_iff_lt_or_eq.mp hq with hq | rfl
    · exact h.reads q hq c hc j hj
    · exact hneeds c hc j hj
  · rcases Nat.lt_succ_iff_lt_or_eq.mp hq with hq | rfl
    · obtain ⟨previous, value, hprevious, hvalue, hnow⟩ := h.solved q hq c hc k i hi
      have hsame : ∀ j, j ∈ c.members ∨ c.Needs j → v'.values[j]? = v.values[j]? := by
        rintro j (hj | hj)
        · exact hran.kept j (hnew j (mem_membersBefore_of_mem hq hc hj))
        · exact hran.kept j (hnew j (membersBefore_subset hq.le (h.reads q hq c hc j hj)))
      refine ⟨previous, value, hprevious, Cell.valueAt?_mono hsame hvalue, ?_⟩
      rw [hsame i (.inl (List.mem_of_getElem? hi)), hnow]
    · obtain ⟨previous, value, hprevious, hvalue⟩ :=
        hran.solved_eq (fun c hc j hj => hnew j (hneeds c hc j hj)) hc hi
      refine ⟨previous, value, ?_, hvalue⟩
      rw [← hprevious]
      have hmem : i ∈ p.rowMembers q := by
        rw [rowMembers_eq]
        exact List.mem_flatMap.mpr ⟨c, hc, List.mem_of_getElem? hi⟩
      exact (h.kept i fun hbefore => hnew i hbefore hmem).symm

/-- **All rows are run**, one after another. -/
theorem fresh_of_runRows (hnodup : (p.cells.toList.flatMap Cell.members).Nodup) {count : Nat}
    (h : p.Fresh input old r v)
    (hrun : p.runRows input v (List.range' r count) = (v', .ok ())) :
    p.Fresh input old (r + count) v' := by
  induction count generalizing r v with
  | zero =>
    obtain ⟨rfl, -⟩ := Prod.mk.inj hrun
    exact h
  | succ count ih =>
    rw [List.range'_succ, runRows] at hrun
    split at hrun
    next => cases (Prod.mk.inj hrun).2
    next v₁ hrow =>
      have hall := ih (h.row hnodup hrow) hrun
      rwa [Nat.add_right_comm, Nat.add_assoc] at hall

/-! ## Runs that succeed -/

/-- The checks before a run pass exactly if the lengths are right and the columns of all rows are
just the cells. -/
theorem checkRun_eq_ok_iff : p.checkRun input old = .ok () ↔
    input.size = p.inputSize ∧ old.size = p.neuronCount ∧ p.isCovered = true := by
  unfold checkRun
  by_cases hinput : input.size = p.inputSize
  · by_cases hold : old.size = p.neuronCount
    · cases hcovered : p.isCovered with
      | true => simp [hinput, hold]
      | false => simp [hinput, hold]
    · simp [hinput, hold]
  · simp [hinput]

/-- A run that succeeds has passed the checks, run all rows and committed all neurons. -/
theorem run_eq_ok {new out : Array Float} (h : p.run input old = (new, .ok out)) :
    old.size = p.neuronCount ∧ p.isCovered = true ∧ ∃ v,
      p.runRows input ⟨old, Array.replicate p.neuronCount false⟩ (List.range p.rows) =
        (v, .ok ()) ∧ v.values = new ∧ p.outputOfRun v = .ok out := by
  unfold run at h
  split at h
  next => cases (Prod.mk.inj h).2
  next hcheck =>
    obtain ⟨-, hold, hcovered⟩ := checkRun_eq_ok_iff.mp hcheck
    refine ⟨hold, hcovered, ?_⟩
    split at h
    next => cases (Prod.mk.inj h).2
    next v hrows =>
      obtain ⟨hnew, hout⟩ := Prod.mk.inj h
      exact ⟨v, hrows, hnew, hout⟩

/-- A run has an output only if all neurons are committed. -/
theorem committed_of_outputOfRun {out : Array Float} (h : p.outputOfRun v = .ok out) {i : Nat}
    (hi : i < v.committed.size) : v.committed[i]? = some true := by
  unfold outputOfRun at h
  split at h
  next => cases h
  next hnone =>
    rw [List.findIdx?_eq_none_iff] at hnone
    have hflag := hnone v.committed[i] (by simp)
    rw [Array.getElem?_eq_getElem hi]
    simpa using hflag

/-- **A run that succeeds has read no stale value**, whatever plan it is of, if no neuron is in the
plan twice.

1. The cells are in rows, and every neuron is in a cell.
2. The value of every neuron is the one that its cell asks for: the share of its previous value
   that its memory filter keeps, and for the rest what its activation makes of its bias and its
   weighted sum, which is added up from zero in the order of its terms, over external inputs and
   final values of neurons, those of slots and those of earlier positions.
3. The neurons that a cell reads from outside are in rows before its own; so no run of a plan that
   reads a neuron of its own row or a later one succeeds.

**Proof sketch.** Only neurons of rows before are committed while a row is solved, so that its cells
read the values of these; no later row writes them again.  By induction on the rows, the values that
were read are still there at the end. -/
theorem run_reads_final {new out : Array Float}
    (hnodup : (p.cells.toList.flatMap Cell.members).Nodup)
    (hrun : p.run input old = (new, .ok out)) :
    ((List.range p.rows).flatMap p.rowCells = p.cells.toList ∧
      ∀ i < p.neuronCount, ∃ c ∈ p.cells, i ∈ c.members) ∧
    (∀ c ∈ p.cells, ∀ k i, c.members[k]? = some i → ∃ previous value,
      old[i]? = some previous ∧ c.valueAt? input new k previous = some value ∧
        new[i]? = some value) ∧
    ∀ r < p.rows, ∀ c ∈ p.rowCells r, ∀ j, c.Needs j → j ∈ p.membersBefore r := by
  obtain ⟨hold, hcovered, v, hrows, rfl, hout⟩ := run_eq_ok hrun
  rw [← hold, List.range_eq_range'] at hrows
  have hfresh := fresh_of_runRows hnodup (fresh_start p input old) hrows
  rw [Nat.zero_add] at hfresh
  have hgrid := hfresh.gridded.flatMap_eq hcovered
  refine ⟨⟨hgrid, fun i hi => ?_⟩, fun c hc k i hi => ?_, hfresh.reads⟩
  · have hlt : i < v.committed.size := by rwa [hfresh.flags, hold]
    have hmem := (hfresh.committed i).mp (committed_of_outputOfRun hout hlt)
    obtain ⟨r, hr, hmem⟩ := List.mem_flatMap.mp hmem
    rw [rowMembers_eq] at hmem
    obtain ⟨c, hc, hmem⟩ := List.mem_flatMap.mp hmem
    refine ⟨c, ?_, hmem⟩
    rw [← Array.mem_toList_iff, ← hgrid]
    exact List.mem_flatMap.mpr ⟨r, hr, hc⟩
  · rw [← Array.mem_toList_iff, ← hgrid] at hc
    obtain ⟨r, hr, hc⟩ := List.mem_flatMap.mp hc
    exact hfresh.solved r (List.mem_range.mp hr) c hc k i hi

/-- A plan made by hand, of two rows: the first one solves the neuron `1` on the external input, the
second one the neurons `0` and `2` on the neuron `1`, and the neuron `2` on the neuron `0` of the
same cell as well. -/
def relay : Plan where
  cells := #[
    { outputs := #[⟨1, 1⟩], slots := #[⟨-1, 1⟩], activations := #[.identity],
      weights := #[2.0, 0.5, 0.25], weightRuns := #[⟨0, 1⟩], weightRunCounts := #[1],
      biases := #[1], memoryFilters := #[2], sourceRuns := #[⟨-1, 1⟩], sourceRunCounts := #[1] },
    { outputs := #[⟨0, 1⟩, ⟨2, 1⟩], slots := #[⟨1, 1⟩], activations := #[.relu, .identity],
      weights := #[2.0, 0.5, 0.25, -1.0], weightRuns := #[⟨0, 1⟩, ⟨2, 2⟩],
      weightRunCounts := #[1, 1], biases := #[1, 1], memoryFilters := #[2, 0],
      sourceRuns := #[⟨-1, 1⟩, ⟨0, 1⟩, ⟨-1, 1⟩], sourceRunCounts := #[1, 2] }]
  cols := #[1, 1]
  neuronCount := 3
  outputNeurons := 1
  inputSize := 1

/-- A run of the plan made by hand succeeds, and the neurons have the values that their cells ask for
over the final values. -/
theorem run_reads_final_relay :
    ∃ new out, relay.run #[1.0] #[0.5, 0.25, 0.125] = (new, .ok out) ∧
      ∀ c ∈ relay.cells, ∀ k i, c.members[k]? = some i → ∃ previous value,
        #[0.5, 0.25, 0.125][i]? = some previous ∧
          c.valueAt? #[1.0] new k previous = some value ∧ new[i]? = some value := by
  obtain ⟨new, out, hrun⟩ : ∃ new out, relay.run #[1.0] #[0.5, 0.25, 0.125] = (new, .ok out) :=
    ⟨_, _, by rfl⟩
  obtain ⟨-, hvalues, -⟩ := run_reads_final (by decide) hrun
  exact ⟨new, out, hrun, hvalues⟩

end Plan

end NeuralPlan
