import NeuralPlan.Proofs.Plan.Atomicity

/-!
# The grid of a plan

The cells of a plan are in one table, and only the numbers of columns tell which of them are in
which row.  These may be any words, so that the cells before a row need not be cells of the plan,
and a word need not count them.  Addressing has an answer all the same, and if the columns of all
rows are just the cells, then rows and columns number these.

## Main definitions

* `Plan.Addresses` — a row and a column for each place in the table of cells.
* `Plan.solvedIn` — what a run solves in a row.

## Main results

* `Plan.row_isOk_iff`, `Plan.cellAt_isOk_iff` — when a row and a cell can be addressed.
* `Plan.Addresses.unique`, `Plan.exists_addresses` — rows and columns number the cells.
* `Plan.valuesAfter_eq_commitAll` — what has been solved after some rows.
* `Plan.grid_addressing` — rows, cells and what a run solves.
-/

set_option relaxedAutoImplicit false
set_option autoImplicit false

namespace NeuralPlan

open Result

namespace Plan

variable {p : Plan} {r c k : Nat}

/-! ## Rows that can be addressed -/

/-- There are columns for each of the rows. -/
theorem exists_cols (hr : r < p.rows) : ∃ cols, p.cols[r]? = some cols :=
  ⟨_, Array.getElem?_eq_getElem hr⟩

/-- Past the last row there is none. -/
theorem row_of_rows_le (hr : p.rows ≤ r) : p.row r = fail (.outOfRange .row r p.rows) := by
  have hcols : p.colsAt r = fail (.outOfRange .row r p.cols.size) := dif_neg (Nat.not_lt.mpr hr)
  rw [row, hcols]
  rfl

/-- **A row** whose cells and those before are in the plan is addressed. -/
theorem row_of_le (hcells : p.cells.size < Word.limit) (hr : r < p.rows)
    (hle : p.cellsBefore (r + 1) ≤ p.cells.size) :
    p.row r = .ok (p.cells.extract (p.cellsBefore r) (p.cellsBefore (r + 1))) := by
  obtain ⟨cols, hcols⟩ := exists_cols hr
  have hnext := cellsBefore_succ hcols
  exact row_eq_ok_iff.mpr ⟨cols, hcols, by omega, by omega, by rw [hnext]⟩

/-- **A row** whose cells are not all in the plan is refused.  The report names the last of its
cells, if a word counts the cells up to it, and another place that is a word in any case. -/
theorem row_of_lt (hr : r < p.rows) (hlt : p.cells.size < p.cellsBefore (r + 1)) :
    ∃ index < Word.limit, p.row r = fail (.outOfRange .cell index p.cells.size) ∧
      (index + 1 = p.cellsBefore (r + 1) ∨ Word.limit ≤ p.cellsBefore (r + 1)) := by
  obtain ⟨cols, hcols⟩ := exists_cols hr
  rw [cellsBefore_succ hcols] at hlt ⊢
  rw [row, colsAt_eq_ok_iff.mpr hcols, ok_bind]
  by_cases hfirst : Word.limit ≤ p.cellsBefore r
  · exact ⟨Word.greatest, by decide, by simp [hfirst], .inr (by omega)⟩
  by_cases hlimit : Word.limit ≤ p.cellsBefore r + cols
  · exact ⟨p.cellsBefore r, by omega, by simp [hfirst, hlimit], .inr hlimit⟩
  · exact ⟨p.cellsBefore r + cols - 1, by omega, by simp [hfirst, hlimit, hlt], .inl (by omega)⟩

/-- The cells before a row are at most those before a later one. -/
theorem cellsBefore_mono (p : Plan) {q r : Nat} (h : q ≤ r) : p.cellsBefore q ≤ p.cellsBefore r := by
  have hprefix := List.take_prefix_take_left (l := p.cols.toList) h
  exact hprefix.sublist.sum_le_sum fun _ _ => Nat.zero_le _

/-- As many cells are in a row as it has columns. -/
theorem size_of_row {cells : Array Cell} {cols : Nat} (hrow : p.row r = .ok cells)
    (hcols : p.cols[r]? = some cols) : cells.size = cols := by
  obtain ⟨cols', hcols', -, hle, rfl⟩ := row_eq_ok_iff.mp hrow
  obtain rfl := Option.some.inj (hcols.symm.trans hcols')
  rw [Array.size_extract]
  omega

/-- A row that can be addressed has its columns, which are the cells after those of the rows
before. -/
theorem eq_extract_of_row {cells : Array Cell} (hrow : p.row r = .ok cells) :
    p.cols[r]? = some cells.size ∧
      cells = p.cells.extract (p.cellsBefore r) (p.cellsBefore (r + 1)) := by
  obtain ⟨cols, hcols, -, -, hextract⟩ := row_eq_ok_iff.mp hrow
  rw [size_of_row hrow hcols, cellsBefore_succ hcols]
  exact ⟨hcols, hextract⟩

/-- **When a row can be addressed.** -/
theorem row_isOk_iff (hcells : p.cells.size < Word.limit) (hr : r < p.rows) :
    (∃ cells, p.row r = .ok cells) ↔ p.cellsBefore (r + 1) ≤ p.cells.size := by
  constructor
  · rintro ⟨cells, hrow⟩
    obtain ⟨cols, hcols, -, hle, -⟩ := row_eq_ok_iff.mp hrow
    rwa [cellsBefore_succ hcols]
  · exact fun hle => ⟨_, row_of_le hcells hr hle⟩

/-- A cell is addressed in a row that is, if it has such a column. -/
theorem cellAt_eq_ok_iff {cell : Cell} :
    p.cellAt r c = .ok cell ↔ ∃ cells, p.row r = .ok cells ∧ cells[c]? = some cell := by
  rw [cellAt, bind_eq_ok_iff]
  apply exists_congr
  intro cells
  apply and_congr_right
  intro _
  by_cases hc : c < cells.size
  · simp [hc]
  · simp [hc]

/-- **When a cell can be addressed.** -/
theorem cellAt_isOk_iff : (∃ cell, p.cellAt r c = .ok cell) ↔
    (∃ cells, p.row r = .ok cells) ∧ ∃ cols, p.cols[r]? = some cols ∧ c < cols := by
  constructor
  · rintro ⟨cell, hcell⟩
    obtain ⟨cells, hrow, hc⟩ := cellAt_eq_ok_iff.mp hcell
    exact ⟨⟨cells, hrow⟩, cells.size, (eq_extract_of_row hrow).1,
      (Array.getElem?_eq_some_iff.mp hc).1⟩
  · rintro ⟨⟨cells, hrow⟩, cols, hcols, hc⟩
    rw [← size_of_row hrow hcols] at hc
    exact ⟨cells[c], cellAt_eq_ok_iff.mpr ⟨cells, hrow, Array.getElem?_eq_getElem hc⟩⟩

/-- A cell that is addressed is the one at its place. -/
theorem getElem?_of_cellAt {cell : Cell} (h : p.cellAt r c = .ok cell) :
    p.cells[p.cellsBefore r + c]? = some cell := by
  obtain ⟨cells, hrow, hc⟩ := cellAt_eq_ok_iff.mp h
  obtain ⟨-, hextract⟩ := eq_extract_of_row hrow
  subst hextract
  obtain ⟨hlt, rfl⟩ := Array.getElem?_eq_some_iff.mp hc
  rw [Array.size_extract] at hlt
  rw [Array.getElem_extract, Array.getElem?_eq_getElem]

/-- How a cell cannot be addressed. -/
theorem cellAt_eq_error {e : Failure} (h : p.cellAt r c = .error e) : p.row r = .error e ∨
    ∃ cols, p.cols[r]? = some cols ∧ cols ≤ c ∧ e = .error (.outOfRange .column c cols) := by
  cases hrow : p.row r with
  | error e' =>
    rw [cellAt, hrow, error_bind] at h
    exact .inl (congrArg _ (Except.error.inj h))
  | ok cells =>
    rw [cellAt, hrow, ok_bind] at h
    split at h
    next => cases h
    next hc =>
      exact .inr ⟨cells.size, (eq_extract_of_row hrow).1, Nat.le_of_not_lt hc,
        (Except.error.inj h).symm⟩

/-! ## Rows and columns of places -/

/-- The column `c` of the row `r` is at the place `k` of the cells. -/
def Addresses (p : Plan) (r c k : Nat) : Prop :=
  (∃ cols, p.cols[r]? = some cols ∧ c < cols) ∧ p.cellsBefore r + c = k

/-- A place that is addressed is before the next row. -/
theorem Addresses.lt (h : p.Addresses r c k) : k < p.cellsBefore (r + 1) := by
  obtain ⟨⟨cols, hcols, hc⟩, rfl⟩ := h
  rw [cellsBefore_succ hcols]
  exact Nat.add_lt_add_left hc _

/-- The place that is addressed holds the cell. -/
theorem Addresses.cellAt_eq (h : p.Addresses r c k) {cells : Array Cell}
    (hrow : p.row r = .ok cells) (hk : k < p.cells.size) : p.cellAt r c = .ok p.cells[k] := by
  obtain ⟨⟨cols, hcols, hc⟩, rfl⟩ := h
  have hsize := size_of_row hrow hcols
  refine cellAt_eq_ok_iff.mpr ⟨cells, hrow, ?_⟩
  obtain ⟨-, hextract⟩ := eq_extract_of_row hrow
  subst hextract
  rw [Array.getElem?_eq_getElem (by rwa [hsize]), Array.getElem_extract]

/-- **No place** has two addresses: it would be before a row and in it or a later one. -/
theorem Addresses.unique {r' c' : Nat} (h : p.Addresses r c k) (h' : p.Addresses r' c' k) :
    r' = r ∧ c' = c := by
  have hlt := h.lt
  have hlt' := h'.lt
  obtain ⟨-, hk⟩ := h
  obtain ⟨-, hk'⟩ := h'
  rcases Nat.lt_trichotomy r r' with hrow | rfl | hrow
  · have hmono : p.cellsBefore (r + 1) ≤ p.cellsBefore r' := p.cellsBefore_mono hrow
    omega
  · exact ⟨rfl, by omega⟩
  · have hmono : p.cellsBefore (r' + 1) ≤ p.cellsBefore r := p.cellsBefore_mono hrow
    omega

/-- **Every place** before a row has an address. -/
theorem exists_addresses (hk : k < p.cellsBefore r) : ∃ q < r, ∃ c, p.Addresses q c k := by
  induction r with
  | zero => simp [cellsBefore] at hk
  | succ r ih =>
    by_cases hbefore : k < p.cellsBefore r
    · obtain ⟨q, hq, c, haddress⟩ := ih hbefore
      exact ⟨q, by omega, c, haddress⟩
    cases hcols : p.cols[r]? with
    | none =>
      have hsame : p.cellsBefore (r + 1) = p.cellsBefore r := by
        simp [cellsBefore, List.take_add_one, hcols]
      omega
    | some cols =>
      rw [cellsBefore_succ hcols] at hk
      exact ⟨r, by omega, k - p.cellsBefore r, ⟨cols, hcols, by omega⟩, by omega⟩

section Covered

variable (hcells : p.cells.size < Word.limit) (hcovered : p.isCovered = true)

include hcovered in
/-- No row ends past the cells. -/
theorem cellsBefore_le (hr : r ≤ p.rows) : p.cellsBefore r ≤ p.cells.size := by
  rw [isCovered, beq_iff_eq, ← cellsBefore_rows] at hcovered
  exact hcovered ▸ p.cellsBefore_mono hr

include hcells hcovered in
/-- **Every row can be addressed** if the columns of all rows are just the cells. -/
theorem row_of_isCovered (hr : r < p.rows) :
    p.row r = .ok (p.cells.extract (p.cellsBefore r) (p.cellsBefore (r + 1))) :=
  row_of_le hcells hr (cellsBefore_le hcovered hr)

include hcells hcovered in
/-- The first rows hold the first cells. -/
theorem gridded_of_isCovered (hr : r ≤ p.rows) : p.Gridded r := by
  induction r with
  | zero => simp [Gridded, cellsBefore]
  | succ r ih => exact (ih (by omega)).succ (row_of_isCovered hcells hcovered hr)

end Covered

/-! ## What a run solves -/

section Solving

variable {input old new : Array Float} {v : Values}

/-- The cells that are solved in the row `r` of a run, in order and with their results, on the
values after the rows before; none if the run does not come past the row. -/
def solvedIn (p : Plan) (input old : Array Float) (r : Nat) : List (Cell × Array Float) :=
  match (do
    let v ← p.valuesAfter input old r
    let cells ← p.row r
    solveRow input v cells) with
  | .ok solved => solved
  | .error _ => []

/-- What is solved in a row is solved on the values after the rows before. -/
theorem solve_of_mem_solvedIn {x : Cell × Array Float} (hx : x ∈ p.solvedIn input old r) :
    ∃ v, p.valuesAfter input old r = .ok v ∧
      x.1.solve ⟨input, v.values, v.committed⟩ = .ok x.2 := by
  unfold solvedIn at hx
  split at hx
  next solved hsolved =>
    obtain ⟨v, hv, hsolved⟩ := bind_eq_ok_iff.mp hsolved
    obtain ⟨cells, -, hsolved⟩ := bind_eq_ok_iff.mp hsolved
    exact ⟨v, hv, (solve_of_solveRow hsolved).2 x hx⟩
  next => cases hx

/-- **After some rows**, the cells of these have been solved, each once, and all results are
written. -/
theorem valuesAfter_eq_commitAll (h : p.valuesAfter input old r = .ok v) :
    ((List.range r).flatMap (p.solvedIn input old)).map Prod.fst =
        (List.range r).flatMap p.rowCells ∧
      v = Values.commitAll ⟨old, Array.replicate p.neuronCount false⟩
        (resultsOf ((List.range r).flatMap (p.solvedIn input old))) := by
  induction r generalizing v with
  | zero =>
    obtain rfl := Except.ok.inj h
    exact ⟨rfl, rfl⟩
  | succ r ih =>
    obtain ⟨v₀, hbefore, hrow⟩ := bind_eq_ok_iff.mp h
    simp only [rowAfter, bind_eq_ok_iff, pure_eq_ok, Except.ok.injEq] at hrow
    obtain ⟨cells, hcells, solved, hsolved, rfl⟩ := hrow
    obtain ⟨hfst, rfl⟩ := ih hbefore
    have hsolvedIn : p.solvedIn input old r = solved := by
      simp only [solvedIn, hbefore, hcells, hsolved, ok_bind]
    have hrowCells : p.rowCells r = cells.toList := by rw [rowCells, hcells]
    simp only [List.range_succ, List.flatMap_append, List.flatMap_singleton, List.map_append]
    constructor
    · rw [hfst, hsolvedIn, (solve_of_solveRow hsolved).1, hrowCells]
    · rw [hsolvedIn, resultsOf_append, Values.commitAll_append]

/-- **A run** leaves the values after some whole rows, after all rows if it succeeds. -/
theorem valuesAfter_of_run {answer : Result (Array Float)}
    (h : p.run input old = (new, answer)) :
    ∃ k ≤ p.rows, ∃ v, p.valuesAfter input old k = .ok v ∧ new = v.values ∧
      ((∃ out, answer = .ok out) → k = p.rows) := by
  cases answer with
  | error e =>
    obtain ⟨k, v, hv, hnew, hend⟩ := run_eq_error h
    refine ⟨k, ?_, v, hv, hnew, nofun⟩
    rcases hend with ⟨-, rfl⟩ | ⟨-, hk, -⟩ | ⟨-, rfl, -⟩
    · exact Nat.zero_le _
    · exact hk.le
    · exact le_rfl
  | ok out =>
    obtain ⟨hold, -, v, hrows, rfl, -⟩ := run_eq_ok h
    rw [List.range_eq_range'] at hrows
    rcases valuesAfter_of_runRows hold rfl hrows with ⟨-, hv⟩ | ⟨-, -, e, he, -⟩
    · rw [Nat.zero_add] at hv
      exact ⟨p.rows, le_rfl, v, hv, rfl, fun _ => rfl⟩
    · cases he

end Solving

/-! ## The grid -/

/-- **Rows and columns address the cells of any plan**, whatever its numbers of columns are.

1. A row that there is not is reported as such.  One that there is can be addressed exactly if its
   cells and those of the rows before are in the plan, and then it is the part of the cells after
   these; else it is reported which cell is missing, and no number in the report overflows.
2. A cell can be addressed exactly if its row can and has so many columns; it is the one at its
   place.  The report is else that of its row, or that the row has no such column.
3. If the columns of all rows are just the cells, as a run checks, then every row can be addressed,
   the rows one after another are all cells, and every place has exactly one row and column.
4. A run that has passed this check has solved the cells of some first rows, of all rows if it
   succeeds, each cell once and on the values after the rows before, and has written just their
   results.

**Proof sketch.** The cells before a row only become more from row to row, so that the rows are
disjoint parts of the table.  If all columns are just the cells, then no row ends past them. -/
theorem grid_addressing (p : Plan) (hcells : p.cells.size < Word.limit) :
    ((∀ r, p.rows ≤ r → p.row r = fail (.outOfRange .row r p.rows)) ∧
      ∀ r < p.rows,
        ((∃ cells, p.row r = .ok cells) ↔ (p.cols.toList.take (r + 1)).sum ≤ p.cells.size) ∧
        (∀ cells, p.row r = .ok cells → p.cols[r]? = some cells.size ∧
          cells = p.cells.extract (p.cols.toList.take r).sum (p.cols.toList.take (r + 1)).sum) ∧
        (p.cells.size < (p.cols.toList.take (r + 1)).sum → ∃ index < Word.limit,
          p.row r = fail (.outOfRange .cell index p.cells.size) ∧
            (index + 1 = (p.cols.toList.take (r + 1)).sum ∨
              Word.limit ≤ (p.cols.toList.take (r + 1)).sum))) ∧
    (∀ r c,
      ((∃ cell, p.cellAt r c = .ok cell) ↔
        (∃ cells, p.row r = .ok cells) ∧ ∃ cols, p.cols[r]? = some cols ∧ c < cols) ∧
      (∀ cell, p.cellAt r c = .ok cell →
        p.cells[(p.cols.toList.take r).sum + c]? = some cell) ∧
      ∀ e, p.cellAt r c = .error e → p.row r = .error e ∨
        ∃ cols, p.cols[r]? = some cols ∧ cols ≤ c ∧ e = .error (.outOfRange .column c cols)) ∧
    (p.isCovered = true →
      (∀ r < p.rows, ∃ cells, p.row r = .ok cells) ∧
      (List.range p.rows).flatMap p.rowCells = p.cells.toList ∧
      ∀ k (hk : k < p.cells.size), ∃ r c, p.Addresses r c k ∧ p.cellAt r c = .ok p.cells[k] ∧
        ∀ r' c', p.Addresses r' c' k → r' = r ∧ c' = c) ∧
    ∀ input old new answer, p.isCovered = true → p.run input old = (new, answer) →
      ∃ k ≤ p.rows, ((∃ out, answer = .ok out) → k = p.rows) ∧
        ((List.range k).flatMap (p.solvedIn input old)).map Prod.fst =
          p.cells.toList.take (p.cellsBefore k) ∧
        (∀ r < k, ∀ x ∈ p.solvedIn input old r, ∃ v, p.valuesAfter input old r = .ok v ∧
          x.1.solve ⟨input, v.values, v.committed⟩ = .ok x.2) ∧
        new = (Values.commitAll ⟨old, Array.replicate p.neuronCount false⟩
          (resultsOf ((List.range k).flatMap (p.solvedIn input old)))).values := by
  refine ⟨⟨fun r hr => row_of_rows_le hr, fun r hr => ⟨row_isOk_iff hcells hr,
    fun cells hrow => eq_extract_of_row hrow, fun hlt => row_of_lt hr hlt⟩⟩,
    fun r c => ⟨cellAt_isOk_iff, fun cell h => getElem?_of_cellAt h, fun e h => cellAt_eq_error h⟩,
    fun hcovered => ⟨fun r hr => ⟨_, row_of_isCovered hcells hcovered hr⟩,
      (gridded_of_isCovered hcells hcovered le_rfl).flatMap_eq hcovered, fun k hk => ?_⟩,
    fun input old new answer hcovered hrun => ?_⟩
  · have hlast : k < p.cellsBefore p.rows := by
      rwa [cellsBefore_rows, beq_iff_eq.mp hcovered]
    obtain ⟨r, hr, c, haddress⟩ := exists_addresses hlast
    exact ⟨r, c, haddress, haddress.cellAt_eq (row_of_isCovered hcells hcovered hr) hk,
      fun r' c' => haddress.unique⟩
  · obtain ⟨k, hk, v, hv, rfl, hall⟩ := valuesAfter_of_run hrun
    obtain ⟨hsolved, rfl⟩ := valuesAfter_eq_commitAll hv
    exact ⟨k, hk, hall, hsolved.trans (gridded_of_isCovered hcells hcovered hk),
      fun r _ x hx => solve_of_mem_solvedIn hx, rfl⟩

/-- The two rows of the plan made by hand are addressed, the place of the second cell has the only
address of row and column that it should have, and the run solves both cells, each once.  With
columns that no word adds up, the second row is refused. -/
theorem grid_addressing_relay :
    ((∃ cells, relay.row 1 = .ok cells) ∧
      (∀ r c, relay.Addresses r c 1 → r = 1 ∧ c = 0) ∧
      ∃ new out, relay.run #[1.0] #[0.5, 0.25, 0.125] = (new, .ok out) ∧
        ((List.range 2).flatMap (relay.solvedIn #[1.0] #[0.5, 0.25, 0.125])).map Prod.fst =
          relay.cells.toList) ∧
    ∃ index < Word.limit, ({ relay with cols := #[2, Word.greatest] } : Plan).row 1 =
      fail (.outOfRange .cell index 2) := by
  obtain ⟨⟨-, -⟩, -, hcovered, hrun⟩ := grid_addressing relay (by decide)
  obtain ⟨hrows, -, hplaces⟩ := hcovered (by decide)
  obtain ⟨⟨-, hrefused⟩, -⟩ :=
    grid_addressing { relay with cols := #[2, Word.greatest] } (by decide)
  refine ⟨⟨hrows 1 (by decide), fun r c h => ?_, ?_⟩, ?_⟩
  · obtain ⟨r', c', -, -, hunique⟩ := hplaces 1 (by decide)
    obtain ⟨rfl, rfl⟩ := hunique r c h
    obtain ⟨hr, hc⟩ := hunique 1 0 ⟨⟨1, rfl, by decide⟩, by decide⟩
    exact ⟨hr.symm, hc.symm⟩
  · obtain ⟨new, out, hok⟩ : ∃ new out, relay.run #[1.0] #[0.5, 0.25, 0.125] = (new, .ok out) :=
      ⟨_, _, by rfl⟩
    obtain ⟨k, -, hall, hsolved, -, -⟩ := hrun _ _ _ _ (by decide) hok
    obtain rfl : k = 2 := hall ⟨out, rfl⟩
    exact ⟨new, out, hok, hsolved⟩
  · obtain ⟨index, hindex, hrow, -⟩ := (hrefused 1 (by decide)).2.2 (by decide)
    exact ⟨index, hindex, hrow⟩

end Plan

end NeuralPlan
