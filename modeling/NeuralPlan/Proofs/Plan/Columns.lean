import NeuralPlan.Proofs.Plan.Atomicity

/-!
# The columns of a row

The cells of a row are all solved on the values before the row, and each writes to its own neurons.
So it does not matter in which order they stand, if no two of them have an output in common: a plan
and another one with the cells of each row in another order have the same runs.

## Main definitions

* `Plan.Reordered` — two plans that differ in the order of the cells in each row.
* `Plan.Apart` — no two cells of a row have an output in common.
* `Agree` — two operations leave the same, and answer the same unless both fail.

## Main results

* `Values.commitAll_comm`, `Values.foldl_commitAll_perm` — results of different neurons are written
  in any order.
* `Plan.Reordered.rowAfter` — a row as a whole.
* `Plan.Reordered.runRows` — all rows.
* `Plan.Laid.apart` — the plans that are compiled.
* `Plan.columns_independent` — the order of the columns does not matter.
-/

set_option relaxedAutoImplicit false
set_option autoImplicit false

namespace NeuralPlan

/-! ## The order of the results -/

namespace Values

variable {v : Values} {i j : Nat}

/-- The results of two neurons are written in either order. -/
theorem commit_comm (hij : i ≠ j) (x y : Float) :
    (v.commit i x).commit j y = (v.commit j y).commit i x := by
  simp only [commit, Array.set!_eq_setIfInBounds]
  rw [Array.setIfInBounds_comm _ _ hij, Array.setIfInBounds_comm _ _ hij]

/-- The result of a neuron is written before or after those of others. -/
theorem commitAll_commit {pairs : List (Nat × Float)} (hi : i ∉ pairs.map Prod.fst) (x : Float) :
    (v.commitAll pairs).commit i x = (v.commit i x).commitAll pairs := by
  induction pairs generalizing v with
  | nil => rfl
  | cons y pairs ih =>
    rw [List.map_cons, List.mem_cons, not_or] at hi
    show ((v.commit y.1 y.2).commitAll pairs).commit i x = _
    rw [ih hi.2, commit_comm (Ne.symm hi.1)]
    rfl

/-- The results of some neurons are written before or after those of others. -/
theorem commitAll_comm {pairs pairs' : List (Nat × Float)}
    (h : (pairs.map Prod.fst).Disjoint (pairs'.map Prod.fst)) :
    (v.commitAll pairs).commitAll pairs' = (v.commitAll pairs').commitAll pairs := by
  induction pairs' generalizing v with
  | nil => rfl
  | cons y pairs' ih =>
    rw [List.map_cons, List.disjoint_cons_right] at h
    show ((v.commitAll pairs).commit y.1 y.2).commitAll pairs' = _
    rw [commitAll_commit h.1, ih h.2]
    rfl

/-- **Blocks of results** are written in any order, if no two of them have a neuron in common. -/
theorem foldl_commitAll_perm {blocks blocks' : List (List (Nat × Float))}
    (hperm : blocks.Perm blocks')
    (h : blocks.Pairwise fun a b => (a.map Prod.fst).Disjoint (b.map Prod.fst)) :
    v.commitAll blocks.flatten = v.commitAll blocks'.flatten := by
  have hfold : ∀ l : List (List (Nat × Float)), v.commitAll l.flatten = l.foldl commitAll v := by
    intro l
    rw [commitAll, List.foldl_flatten]
    rfl
  have hsymm : Std.Symm fun a b : List (Nat × Float) =>
      ∀ w : Values, (w.commitAll a).commitAll b = (w.commitAll b).commitAll a :=
    ⟨fun _ _ hab w => (hab w).symm⟩
  have hcomm : ∀ a ∈ blocks, ∀ b ∈ blocks, ∀ w : Values,
      (w.commitAll a).commitAll b = (w.commitAll b).commitAll a := by
    apply List.Pairwise.forall_of_forall
    · exact fun _ _ _ => rfl
    · exact h.imp fun hab w => commitAll_comm hab
  rw [hfold, hfold]
  exact hperm.foldl_eq' hcomm v

end Values

/-! ## Plans with their columns in another order -/

/-- Two operations leave the same, and either both answer the same or both fail. -/
inductive Agree {α β : Type} : α × Result β → α × Result β → Prop
  | done (a : α) (b : β) : Agree (a, .ok b) (a, .ok b)
  | failed (a : α) (e e' : Failure) : Agree (a, .error e) (a, .error e')

/-- Every operation agrees with itself. -/
theorem Agree.refl {α β : Type} (x : α × Result β) : Agree x x := by
  obtain ⟨a, b | e⟩ := x
  · exact .failed a _ _
  · exact .done a _

namespace Plan

/-- The plan `p'` is the plan `p` with the cells of each row in another order. -/
structure Reordered (p p' : Plan) : Prop where
  cols : p'.cols = p.cols
  size : p'.cells.size = p.cells.size
  neuronCount : p'.neuronCount = p.neuronCount
  outputNeurons : p'.outputNeurons = p.outputNeurons
  inputSize : p'.inputSize = p.inputSize
  cells : ∀ r, (p.rowCells r).Perm (p'.rowCells r)

/-- No two cells of a row have an output in common. -/
def Apart (p : Plan) : Prop :=
  ∀ r, (p.rowCells r).Pairwise fun c d =>
    (Runs.indices c.outputs.toList).Disjoint (Runs.indices d.outputs.toList)

variable {p p' : Plan} {input old : Array Float} {v v' : Values} {r : Nat}

/-- Either plan is the other one in another order. -/
theorem Reordered.symm (h : p.Reordered p') : p'.Reordered p :=
  ⟨h.cols.symm, h.size.symm, h.neuronCount.symm, h.outputNeurons.symm, h.inputSize.symm,
    fun r => (h.cells r).symm⟩

/-- In another order, no two cells of a row have an output in common either. -/
theorem Reordered.apart (h : p.Reordered p') (hapart : p.Apart) : p'.Apart := fun r =>
  (h.cells r).pairwise (hapart r) fun hcd => hcd.symm

/-- The rows of both plans are addressed in the same way. -/
theorem Reordered.row (h : p.Reordered p') {cells : Array Cell} (hcells : p.row r = .ok cells) :
    ∃ cells', p'.row r = .ok cells' ∧ cells.toList.Perm cells'.toList := by
  have hok : ∃ cells', p'.row r = .ok cells' := by
    obtain ⟨cols, hcols, hlimit, hsize, -⟩ := row_eq_ok_iff.mp hcells
    have hbefore : p'.cellsBefore r = p.cellsBefore r := by rw [cellsBefore, cellsBefore, h.cols]
    refine ⟨_, row_eq_ok_iff.mpr ⟨cols, ?_, ?_, ?_, rfl⟩⟩
    · rwa [h.cols]
    · rwa [hbefore]
    · rwa [hbefore, h.size]
  obtain ⟨cells', hcells'⟩ := hok
  have hperm := h.cells r
  rw [rowCells, rowCells, hcells, hcells'] at hperm
  exact ⟨cells', hcells', hperm⟩

/-! ## Rows -/

/-- The results of a cell belong to other neurons than those of another one that has no output in
common with it. -/
theorem disjoint_results {env : Surroundings} {x y : Cell × Array Float}
    (hx : x.1.IsSolved env x.2) (hy : y.1.IsSolved env y.2)
    (h : (Runs.indices x.1.outputs.toList).Disjoint (Runs.indices y.1.outputs.toList)) :
    ((x.1.members.zip x.2.toList).map Prod.fst).Disjoint
      ((y.1.members.zip y.2.toList).map Prod.fst) := by
  rw [List.map_fst_zip (by rw [← hx.size, Array.length_toList]),
    List.map_fst_zip (by rw [← hy.size, Array.length_toList])]
  intro i hi hi'
  obtain ⟨ref, href, rfl⟩ := List.mem_map.mp hi
  obtain ⟨ref', href', hsame⟩ := List.mem_map.mp hi'
  obtain rfl : ref' = ref := Word.toUnsigned_inj (hy.signed ref' href') (hx.signed ref href) hsame
  exact h href href'

/-- **A row as a whole** has the same values afterwards with its cells in another order, if no two
of them have an output in common.

**Proof sketch.** The cells are solved on the values before the row, so that each has its results in
either order; and these are written in any order. -/
theorem Reordered.rowAfter (h : p.Reordered p') (hapart : p.Apart)
    (hafter : p.rowAfter input v r = .ok v') : p'.rowAfter input v r = .ok v' := by
  simp only [Plan.rowAfter, Result.bind_eq_ok_iff, Result.pure_eq_ok, Except.ok.injEq] at hafter ⊢
  obtain ⟨cells, hcells, solved, hsolved, rfl⟩ := hafter
  obtain ⟨cells', hcells', hperm⟩ := h.row hcells
  obtain ⟨solved', hsolved', hsame⟩ := Result.mapM_perm hperm hsolved
  refine ⟨cells', hcells', solved', hsolved', ?_⟩
  obtain ⟨hfst, hall⟩ := solveRow_eq_ok hsolved
  have hblocks : (solved.map fun x => x.1.members.zip x.2.toList).Pairwise fun a b =>
      (a.map Prod.fst).Disjoint (b.map Prod.fst) := by
    have hrow := hapart r
    rw [rowCells, hcells] at hrow
    dsimp only at hrow
    rw [← hfst, List.pairwise_map] at hrow
    rw [List.pairwise_map]
    exact hrow.imp_of_mem fun hx hy hxy => disjoint_results (hall _ hx) (hall _ hy) hxy
  rw [resultsOf, resultsOf, List.flatMap_def, List.flatMap_def]
  exact (Values.foldl_commitAll_perm (hsame.map _) hblocks).symm

/-- A row is run with the same outcome. -/
theorem Reordered.runRow (h : p.Reordered p') (hapart : p.Apart)
    (hsize : v.values.size = v.committed.size) :
    Agree (p'.runRow input v r) (p.runRow input v r) := by
  rw [runRow_eq hsize, runRow_eq hsize]
  cases hrow : p.rowAfter input v r with
  | ok v' =>
    rw [h.rowAfter hapart hrow]
    exact .done v' ()
  | error e =>
    cases hrow' : p'.rowAfter input v r with
    | ok v' =>
      have hback := h.symm.rowAfter (h.apart hapart) hrow'
      rw [hrow] at hback
      cases hback
    | error e' => exact .failed v e' e

/-- A row leaves as many values as flags. -/
theorem size_runRow (hsize : v.values.size = v.committed.size) :
    (p.runRow input v r).1.values.size = (p.runRow input v r).1.committed.size := by
  rw [runRow_eq hsize]
  cases hrow : p.rowAfter input v r with
  | ok v' =>
    obtain ⟨pairs, -, rfl⟩ := rowAfter_eq_ok hrow
    simpa using hsize
  | error e => exact hsize

/-- **Rows are run** with the same outcome, one after another. -/
theorem Reordered.runRows (h : p.Reordered p') (hapart : p.Apart) (rows : List Nat)
    (hsize : v.values.size = v.committed.size) :
    Agree (p'.runRows input v rows) (p.runRows input v rows) := by
  induction rows generalizing v with
  | nil => exact .done v ()
  | cons r rows ih =>
    have hrow : Agree (p'.runRow input v r) (p.runRow input v r) := h.runRow hapart hsize
    have hnext : (p.runRow input v r).1.values.size = (p.runRow input v r).1.committed.size :=
      size_runRow hsize
    rw [Plan.runRows, Plan.runRows]
    generalize p'.runRow input v r = x at hrow
    generalize p.runRow input v r = y at hrow hnext
    cases hrow with
    | done w b => exact ih hnext
    | failed w e e' => exact .failed w e e'

/-- **A plan is run** with the same outcome. -/
theorem Reordered.run (h : p.Reordered p') (hapart : p.Apart) (input old : Array Float) :
    Agree (p'.run input old) (p.run input old) := by
  have hcheck : p'.checkRun input old = p.checkRun input old := by
    unfold checkRun isCovered
    rw [h.cols, h.size, h.neuronCount, h.inputSize]
  have hrows : p'.rows = p.rows := by rw [rows, rows, h.cols]
  unfold Plan.run
  rw [hcheck, hrows, h.neuronCount]
  cases hpass : p.checkRun input old with
  | error e => exact .failed old e e
  | ok _ =>
    obtain ⟨-, hold, -⟩ := checkRun_eq_ok_iff.mp hpass
    have hall : Agree (p'.runRows input ⟨old, Array.replicate p.neuronCount false⟩
        (List.range p.rows)) _ := h.runRows hapart (List.range p.rows) (by simpa using hold)
    dsimp only
    generalize p'.runRows input _ (List.range p.rows) = x at hall
    generalize p.runRows input _ (List.range p.rows) = y at hall
    cases hall with
    | failed v e e' => exact .failed v.values e e'
    | done v b =>
      have hout : p'.outputOfRun v = p.outputOfRun v := by
        simp only [outputOfRun, outputOf, h.neuronCount, h.outputNeurons]
      dsimp only
      rw [hout]
      exact .refl _

/-! ## Plans that are compiled -/

/-- **No two cells of a row have an output in common** in a plan that is laid in rows. -/
theorem Laid.apart {net : Net} {bytes : Nat} {rows : List (List Cell)}
    (hneurons : net.neuronCount < Word.signedLimit) (h : p.Laid net bytes rows) : p.Apart := by
  intro r
  rcases Nat.lt_or_ge r rows.length with hr | hr
  · have hrow := List.getElem?_eq_getElem hr
    rw [rowCells, h.row_eq hneurons hrow]
    have hnodup : (rows[r].flatMap Cell.members).Nodup :=
      (List.nodup_flatMap.mp h.nodup).1 _ (List.getElem_mem hr)
    refine (List.nodup_flatMap.mp hnodup).2.imp fun {c d} hcd ref hc hd => ?_
    exact hcd (List.mem_map_of_mem hc) (List.mem_map_of_mem hd)
  · have hcols : ¬r < p.cols.size := Nat.not_lt.mpr (h.rows_eq.trans_le hr)
    rw [rowCells, Plan.row, colsAt, dif_neg hcols]
    exact List.Pairwise.nil

/-- **The columns of a row are independent.**

1. If no two cells of a row have an output in common, then the plan has the same runs with the cells
   of each row in any other order, on any input and values: both succeed, with the same output, or
   both fail; and they leave the same values in either case.
2. No two cells of a row of a plan that is compiled have an output in common.

A signed word counts the neurons, as it counts the bytes of any table.

**Proof sketch.** A row is run as a whole or not at all, so it is enough to look at one row.  Its
cells are solved on the values before it, in whatever order, and their results are written to
different neurons.  In a plan that is compiled no neuron is in two cells. -/
theorem columns_independent :
    (∀ p p' : Plan, p.Reordered p' → p.Apart → ∀ input old,
      (p'.run input old).1 = (p.run input old).1 ∧
        ∀ out, (p'.run input old).2 = .ok out ↔ (p.run input old).2 = .ok out) ∧
    ∀ s net p, compile s net = .ok p → net.neuronCount < Word.signedLimit → p.Apart := by
  constructor
  · intro p p' h hapart input old
    have hagree := h.run hapart input old
    generalize p'.run input old = x at hagree
    generalize p.run input old = y at hagree
    cases hagree with
    | done new out => exact ⟨rfl, fun _ => Iff.rfl⟩
    | failed new e e' => exact ⟨rfl, fun _ => ⟨nofun, nofun⟩⟩
  · intro s net p hcompile hneurons
    obtain ⟨threads, rows, -, -, -, hlaid, -⟩ := compile_laid hcompile hneurons
    exact hlaid.apart hneurons

/-- A plan made by hand, of one row with two cells, that both read the external input. -/
def siblings : Plan where
  cells := #[
    { outputs := #[⟨1, 1⟩], slots := #[⟨-1, 1⟩], activations := #[.identity],
      weights := #[2.0, 0.5, 0.25], weightRuns := #[⟨0, 1⟩], weightRunCounts := #[1],
      biases := #[1], memoryFilters := #[2], sourceRuns := #[⟨-1, 1⟩], sourceRunCounts := #[1] },
    { outputs := #[⟨0, 1⟩], slots := #[⟨-1, 1⟩], activations := #[.relu],
      weights := #[3.0, 0.0, 1.5], weightRuns := #[⟨0, 1⟩], weightRunCounts := #[1],
      biases := #[1], memoryFilters := #[2], sourceRuns := #[⟨-1, 1⟩], sourceRunCounts := #[1] }]
  cols := #[2]
  neuronCount := 2
  outputNeurons := 2
  inputSize := 1

/-- The plan `siblings` with its two cells the other way round. -/
def siblingsSwapped : Plan :=
  { siblings with cells := #[siblings.cells[1], siblings.cells[0]] }

/-- The two orders of the cells are orders of one plan, whose runs succeed with the same output; and
the diamond net has a plan whose cells have no output in common within a row. -/
theorem columns_independent_siblings :
    siblings.Reordered siblingsSwapped ∧ siblings.Apart ∧
      (∃ new out, siblings.run #[1.0] #[0.5, 0.25] = (new, .ok out) ∧
        siblingsSwapped.run #[1.0] #[0.5, 0.25] = (new, .ok out)) ∧
      ∃ p, compile ⟨some 2, some 2000⟩ Net.diamond = .ok p ∧ p.Apart := by
  obtain ⟨hruns, hcompiled⟩ := columns_independent
  have hperm : siblings.Reordered siblingsSwapped := by
    refine ⟨rfl, rfl, rfl, rfl, rfl, fun r => ?_⟩
    cases r with
    | zero => exact List.Perm.swap _ _ _
    | succ r => exact .refl _
  have hapart : siblings.Apart := by
    intro r
    cases r with
    | zero => exact List.pairwise_pair.mpr (List.disjoint_left.mpr (by decide))
    | succ r => exact List.Pairwise.nil
  obtain ⟨new, out, hrun⟩ : ∃ new out, siblings.run #[1.0] #[0.5, 0.25] = (new, .ok out) :=
    ⟨_, _, by rfl⟩
  obtain ⟨hvalues, hanswer⟩ := hruns _ _ hperm hapart #[1.0] #[0.5, 0.25]
  rw [hrun] at hvalues hanswer
  refine ⟨hperm, hapart, ⟨new, out, hrun, Prod.ext hvalues ((hanswer out).mpr rfl)⟩, ?_⟩
  obtain ⟨p, hp⟩ := compile_diamond_isOk
  exact ⟨p, hp, hcompiled _ _ _ hp (by decide)⟩

end Plan

end NeuralPlan
