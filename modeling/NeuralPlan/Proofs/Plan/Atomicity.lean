import NeuralPlan.Proofs.Cell.Faults
import NeuralPlan.Proofs.Plan.Running

/-!
# Runs that fail

The results of a row are written one after another, with a check for each of them, and a run that
fails keeps what it has written.  Still no row is ever half written, whatever plan is run: what the
checks ask for is what the cells have asked for already when they were solved.  So a run that fails
leaves the values that some number of whole rows make of the old ones.

## Main definitions

* `Failure.OfRow`, `Failure.OfCheck` — the ways in which a row and the checks before it fail.
* `Plan.rowAfter`, `Plan.valuesAfter` — the values after a row and after some rows, each as a whole.

## Main results

* `Plan.failsIn_rowAfter` — how a row fails.
* `Plan.runRow_eq`, `Plan.valuesAfter_of_runRows` — a row is run as a whole or not at all, and so
  are all rows.
* `Plan.failing_run_atomic` — what a run that fails leaves.
-/

set_option relaxedAutoImplicit false
set_option autoImplicit false

namespace NeuralPlan

open Result

/-! ## Ways to fail -/

/-- The ways in which a row fails: an index is out of range, the tables of a cell do not match each
other, or a number does not fit its word. -/
def Failure.OfRow : Failure → Prop
  | .fault _ => True
  | .error (.outOfRange ..) => True
  | .error (.inconsistent (.tableLength ..)) => True
  | .error (.inconsistent (.weightCount ..)) => True
  | .error _ => False

/-- The ways in which the checks before a run fail: a length is wrong, or the columns do not cover
the cells. -/
def Failure.OfCheck : Failure → Prop
  | .error (.lengthMismatch ..) => True
  | .error (.inconsistent (.gridMismatch ..)) => True
  | _ => False

/-- The reports of a cell are among the ways in which a row fails. -/
theorem Failure.OfLookup.ofRow {e : Failure} (h : e.OfLookup) : e.OfRow := by
  unfold OfLookup at h
  unfold OfRow
  split at h <;> trivial

/-! ## Rows as a whole -/

namespace Plan

/-- The values after the row `r` as a whole: the results of its cells, which are all solved on the
values `v`, are written to these. -/
def rowAfter (p : Plan) (input : Array Float) (v : Values) (r : Nat) : Result Values := do
  let cells ← p.row r
  let solved ← solveRow input v cells
  return v.commitAll (resultsOf solved)

/-- The values after the first rows, each as a whole, from `old` on. -/
def valuesAfter (p : Plan) (input old : Array Float) : Nat → Result Values
  | 0 => .ok ⟨old, Array.replicate p.neuronCount false⟩
  | r + 1 => do
    let v ← p.valuesAfter input old r
    p.rowAfter input v r

variable {p : Plan} {input old : Array Float} {v v' : Values} {r : Nat}

/-- A row that cannot be addressed. -/
theorem failsIn_row (p : Plan) (r : Nat) : FailsIn Failure.OfRow (p.row r) := by
  refine FailsIn.bind ?_ fun cols => ?_
  · unfold colsAt
    split <;> simp [Failure.OfRow]
  · dsimp only
    split
    · simp [Failure.OfRow]
    · split
      · simp [Failure.OfRow]
      · split <;> simp [Failure.OfRow]

/-- **How a row fails**: it cannot be addressed, or one of its cells fails. -/
theorem failsIn_rowAfter (p : Plan) (input : Array Float) (v : Values) (r : Nat) :
    FailsIn Failure.OfRow (p.rowAfter input v r) := by
  refine (p.failsIn_row r).bind fun cells => FailsIn.bind ?_ fun solved => failsIn_pure _
  refine failsIn_mapM fun c _ => FailsIn.bind ?_ fun _ => failsIn_pure _
  exact Cell.failsIn_solve (fun _ => Failure.OfLookup.ofRow) trivial

/-- **A row is run** as a whole, or not at all.

**Proof sketch.** A cell that is solved has found, for each of its neurons, the reference in its
word and a previous value; as there are as many flags as values, the checks of the row find the
same. -/
theorem runRow_eq (hsize : v.values.size = v.committed.size) :
    p.runRow input v r = match p.rowAfter input v r with
      | .ok v' => (v', .ok ())
      | .error e => (v, .error e) := by
  unfold runRow rowAfter
  cases p.row r with
  | error e => rfl
  | ok cells =>
    simp only [ok_bind]
    cases hsolved : solveRow input v cells with
    | error e => rfl
    | ok solved => exact (commitRow_of_isSolved (solveRow_eq_ok hsolved).2 hsize).1

/-- The results of a row belong to the neurons of the row. -/
theorem map_fst_resultsOf_row {cells : Array Cell} {solved : List (Cell × Array Float)}
    (hcells : p.row r = .ok cells) (hsolved : solveRow input v cells = .ok solved) :
    (resultsOf solved).map Prod.fst = p.rowMembers r := by
  obtain ⟨hfst, hall⟩ := solveRow_eq_ok hsolved
  rw [map_fst_resultsOf hall, hfst, rowMembers_eq, rowCells, hcells]

/-- A row that does not fail writes to its neurons. -/
theorem rowAfter_eq_ok (h : p.rowAfter input v r = .ok v') :
    ∃ pairs : List (Nat × Float), pairs.map Prod.fst = p.rowMembers r ∧ v' = v.commitAll pairs := by
  simp only [rowAfter, bind_eq_ok_iff, pure_eq_ok, Except.ok.injEq] at h
  obtain ⟨cells, hcells, solved, hsolved, rfl⟩ := h
  exact ⟨_, map_fst_resultsOf_row hcells hsolved, rfl⟩

/-- After some rows there are as many values and flags as before, and all neurons of other rows
have their old values. -/
theorem valuesAfter_eq_ok (h : p.valuesAfter input old r = .ok v) :
    v.values.size = old.size ∧ v.committed.size = p.neuronCount ∧
      ∀ i, i ∉ p.membersBefore r → v.values[i]? = old[i]? := by
  induction r generalizing v with
  | zero =>
    obtain rfl := Except.ok.inj h
    simp
  | succ r ih =>
    obtain ⟨v₀, hbefore, hrow⟩ := bind_eq_ok_iff.mp h
    obtain ⟨hvalues, hflags, hkept⟩ := ih hbefore
    obtain ⟨pairs, hpairs, rfl⟩ := rowAfter_eq_ok hrow
    refine ⟨by simpa using hvalues, by simpa using hflags, fun i hi => ?_⟩
    rw [membersBefore_succ, List.mem_append, not_or, ← hpairs] at hi
    rw [Values.getElem?_commitAll_of_notMem hi.2, hkept i hi.1]

/-- **All rows are run**, one after another, each as a whole, up to the first that fails. -/
theorem valuesAfter_of_runRows (hold : old.size = p.neuronCount) {count : Nat}
    {answer : Result Unit} (hbefore : p.valuesAfter input old r = .ok v)
    (hrun : p.runRows input v (List.range' r count) = (v', answer)) :
    answer = .ok () ∧ p.valuesAfter input old (r + count) = .ok v' ∨
      ∃ k < r + count, ∃ e, answer = .error e ∧ p.valuesAfter input old k = .ok v' ∧
        p.valuesAfter input old (k + 1) = .error e := by
  induction count generalizing r v with
  | zero =>
    obtain ⟨rfl, rfl⟩ := Prod.mk.inj hrun
    exact .inl ⟨rfl, hbefore⟩
  | succ count ih =>
    obtain ⟨hvalues, hflags, -⟩ := valuesAfter_eq_ok hbefore
    have hnext : p.valuesAfter input old (r + 1) = p.rowAfter input v r := by
      rw [valuesAfter, hbefore, ok_bind]
    rw [List.range'_succ, runRows, runRow_eq (by rw [hvalues, hold, hflags])] at hrun
    cases hrow : p.rowAfter input v r with
    | error e =>
      rw [hrow] at hrun hnext
      obtain ⟨rfl, rfl⟩ := Prod.mk.inj hrun
      exact .inr ⟨r, by omega, e, rfl, hbefore, hnext⟩
    | ok v₁ =>
      rw [hrow] at hrun hnext
      have hrest := ih hnext hrun
      rwa [Nat.add_right_comm, Nat.add_assoc] at hrest

/-! ## Runs that fail -/

/-- How the checks before a run fail. -/
theorem failsIn_checkRun (p : Plan) (input old : Array Float) :
    FailsIn Failure.OfCheck (p.checkRun input old) := by
  unfold checkRun
  by_cases hinput : input.size = p.inputSize
  · by_cases hold : old.size = p.neuronCount
    · cases hcovered : p.isCovered with
      | true => simp [hinput, hold]
      | false => simp [hinput, hold, Failure.OfCheck]
    · simp [hinput, hold, Failure.OfCheck]
  · simp [hinput, Failure.OfCheck]

/-- A run that fails leaves the values after some rows: none if the checks fail, those before the
row that fails, or all rows if a neuron is left out. -/
theorem run_eq_error {new : Array Float} {e : Failure} (h : p.run input old = (new, .error e)) :
    ∃ k v, p.valuesAfter input old k = .ok v ∧ new = v.values ∧
      (p.checkRun input old = .error e ∧ k = 0 ∨
        p.checkRun input old = .ok () ∧ k < p.rows ∧ p.valuesAfter input old (k + 1) = .error e ∨
        p.checkRun input old = .ok () ∧ k = p.rows ∧
          ∃ i, e = .error (.inconsistent (.unsolved i))) := by
  unfold run at h
  split at h
  next e' hcheck =>
    obtain ⟨rfl, he⟩ := Prod.mk.inj h
    obtain rfl := Except.error.inj he
    exact ⟨0, _, rfl, rfl, .inl ⟨hcheck, rfl⟩⟩
  next hcheck =>
    obtain ⟨-, hold, -⟩ := checkRun_eq_ok_iff.mp hcheck
    rw [List.range_eq_range'] at h
    split at h
    next v e' hrows =>
      obtain ⟨rfl, he⟩ := Prod.mk.inj h
      obtain rfl := Except.error.inj he
      rcases valuesAfter_of_runRows hold rfl hrows with ⟨hok, -⟩ | ⟨k, hk, e', he, hv, hnext⟩
      · cases hok
      · obtain rfl := Except.error.inj he
        exact ⟨k, v, hv, rfl, .inr (.inl ⟨hcheck, by omega, hnext⟩)⟩
    next v hrows =>
      obtain ⟨rfl, hout⟩ := Prod.mk.inj h
      rcases valuesAfter_of_runRows hold rfl hrows with ⟨-, hv⟩ | ⟨k, hk, e', he, -⟩
      · rw [Nat.zero_add] at hv
        refine ⟨p.rows, v, hv, rfl, .inr (.inr ⟨hcheck, rfl, ?_⟩)⟩
        unfold outputOfRun at hout
        split at hout
        next i _ => exact ⟨i, (Except.error.inj hout).symm⟩
        next => cases hout
      · cases he

/-- **No row is half written**, whatever plan is run on whatever input and values.

1. Once the cells of a row are solved, no check fails while their results are written: all results
   are, each to a neuron of the row, and there are these neurons.
2. If a run fails, then it leaves the values after some number `k` of whole rows: all results of
   these are written to the old values, and all neurons of other rows have their old values.  If
   the checks pass and there is a row `k`, then it is this one that fails, and with the same
   failure.
3. No row is written if the failure is a wrong length or the columns do not cover the cells, and
   all rows are written if it is that a neuron is in no cell.

**Proof sketch.** By induction on the rows, a run goes through the values after whole rows, since
the checks that a row makes while it is written are met by cells that are solved.  A row and its
cells cannot fail with a wrong length, with uncovered cells or with a neuron that is left out, so
that each of these failures tells where the run has ended. -/
theorem failing_run_atomic (p : Plan) (input old : Array Float) :
    (p.checkRun input old = .ok () → ∀ k v cells solved, p.valuesAfter input old k = .ok v →
      p.row k = .ok cells → solveRow input v cells = .ok solved →
        commitRow v solved = (v.commitAll (resultsOf solved), .ok ()) ∧
        (resultsOf solved).map Prod.fst = p.rowMembers k ∧
        ((resultsOf solved).map Prod.snd = solved.flatMap fun x => x.2.toList) ∧
        ∀ i ∈ p.rowMembers k, i < v.values.size) ∧
    ∀ new e, p.run input old = (new, .error e) → ∃ k ≤ p.rows, ∃ v,
      p.valuesAfter input old k = .ok v ∧ new = v.values ∧ new.size = old.size ∧
        (∀ i, i ∉ p.membersBefore k → new[i]? = old[i]?) ∧
        (p.checkRun input old = .ok () → k < p.rows →
          p.valuesAfter input old (k + 1) = .error e) ∧
        ((∃ expected actual, e = .error (.lengthMismatch expected actual)) → k = 0) ∧
        (p.isCovered = false → k = 0) ∧
        ((∃ cols cells, e = .error (.inconsistent (.gridMismatch cols cells))) → k = 0) ∧
        ((∃ i, e = .error (.inconsistent (.unsolved i))) → k = p.rows) := by
  constructor
  · intro hcheck k v cells solved hv hcells hsolved
    obtain ⟨hvalues, hflags, -⟩ := valuesAfter_eq_ok hv
    obtain ⟨-, hold, -⟩ := checkRun_eq_ok_iff.mp hcheck
    have hsize : v.values.size = v.committed.size := by rw [hvalues, hold, hflags]
    obtain ⟨-, hall⟩ := solveRow_eq_ok hsolved
    obtain ⟨hcommit, hlt⟩ := commitRow_of_isSolved hall hsize
    have hmembers := map_fst_resultsOf_row hcells hsolved
    refine ⟨hcommit, hmembers, map_snd_resultsOf hall, fun i hi => ?_⟩
    rw [← hmembers] at hi
    obtain ⟨x, hx, rfl⟩ := List.mem_map.mp hi
    exact hlt x hx
  · intro new e hrun
    obtain ⟨k, v, hv, rfl, hend⟩ := run_eq_error hrun
    obtain ⟨hsize, -, hkept⟩ := valuesAfter_eq_ok hv
    rcases hend with ⟨hcheck, rfl⟩ | ⟨hcheck, hk, hfails⟩ | ⟨hcheck, rfl, i, rfl⟩
    · refine ⟨0, Nat.zero_le _, v, hv, rfl, hsize, hkept, ?_, fun _ => rfl, fun _ => rfl,
        fun _ => rfl, ?_⟩
      · rw [hcheck]
        exact nofun
      · rintro ⟨i, rfl⟩
        exact (p.failsIn_checkRun input old _ hcheck).elim
    · have hrow : Failure.OfRow e := by
        rw [valuesAfter, hv, ok_bind] at hfails
        exact p.failsIn_rowAfter input v k e hfails
      have hcovered := (checkRun_eq_ok_iff.mp hcheck).2.2
      refine ⟨k, hk.le, v, hv, rfl, hsize, hkept, fun _ _ => hfails, ?_, ?_, ?_, ?_⟩
      · rintro ⟨_, _, rfl⟩
        exact hrow.elim
      · rw [hcovered]
        exact nofun
      · rintro ⟨_, _, rfl⟩
        exact hrow.elim
      · rintro ⟨_, rfl⟩
        exact hrow.elim
    · have hcovered := (checkRun_eq_ok_iff.mp hcheck).2.2
      refine ⟨p.rows, le_rfl, v, hv, rfl, hsize, hkept, fun _ h => (lt_irrefl _ h).elim, ?_, ?_,
        ?_, fun _ => rfl⟩
      · rintro ⟨_, _, h⟩
        cases h
      · rw [hcovered]
        exact nofun
      · rintro ⟨_, _, h⟩
        cases h

/-- The plan `relay` with a second row that reads the neuron `2`, which no row before has solved. -/
def staleRelay : Plan :=
  { relay with cells := relay.cells.modify 1 fun c => { c with slots := #[⟨2, 1⟩] } }

/-- The first row of this plan is solved and written.  A run fails at the second one; it leaves the
values after the first row: the neuron `1` has a quarter of its old value and the rest of
`2.0 * 1.0 + 0.5`, and no other neuron is written. -/
theorem failing_run_atomic_staleRelay :
    (∃ cells solved, staleRelay.row 0 = .ok cells ∧
      solveRow #[1.0] ⟨#[0.5, 0.25, 0.125], .replicate 3 false⟩ cells = .ok solved ∧
      (commitRow ⟨#[0.5, 0.25, 0.125], .replicate 3 false⟩ solved).2 = .ok ()) ∧
    ∃ new, staleRelay.run #[1.0] #[0.5, 0.25, 0.125] =
        (new, .error (.error (.outOfRange .committedNeuron 2 3))) ∧
      ∃ v, staleRelay.valuesAfter #[1.0] #[0.5, 0.25, 0.125] 1 = .ok v ∧ new = v.values ∧
        new[0]? = some 0.5 ∧ new[1]? = some 1.9375 ∧ new[2]? = some 0.125 := by
  obtain ⟨hwritten, hfailing⟩ := failing_run_atomic staleRelay #[1.0] #[0.5, 0.25, 0.125]
  constructor
  · obtain ⟨solved, hsolved⟩ : ∃ solved, solveRow #[1.0]
        ⟨#[0.5, 0.25, 0.125], .replicate 3 false⟩ #[staleRelay.cells[0]] = .ok solved :=
      ⟨_, by rfl⟩
    have hcommit := (hwritten (by rfl) 0 _ _ solved rfl (by rfl) hsolved).1
    exact ⟨_, solved, by rfl, hsolved, congrArg Prod.snd hcommit⟩
  obtain ⟨new, hrun⟩ : ∃ new, staleRelay.run #[1.0] #[0.5, 0.25, 0.125] =
      (new, .error (.error (.outOfRange .committedNeuron 2 3))) := ⟨_, by rfl⟩
  obtain ⟨k, hk, v, hv, hnew, -, hkept, hfails, -⟩ := hfailing new _ hrun
  obtain ⟨first, hfirst, hone⟩ : ∃ first,
      staleRelay.valuesAfter #[1.0] #[0.5, 0.25, 0.125] 1 = .ok first ∧
        first.values[1]? = some 1.9375 := ⟨_, by rfl, by rfl⟩
  have hnext := hfails (by rfl)
  -- The first row does not fail, and the values after the second one are not defined.
  obtain rfl : k = 1 := by
    have hrows : staleRelay.rows = 2 := rfl
    rw [hrows] at hk hnext
    interval_cases k
    · cases (hnext (by decide)).symm.trans hfirst
    · rfl
    · have hlast : staleRelay.valuesAfter #[1.0] #[0.5, 0.25, 0.125] 2 =
          .error (.error (.outOfRange .committedNeuron 2 3)) := by rfl
      cases hlast.symm.trans hv
  obtain rfl := Except.ok.inj (hfirst.symm.trans hv)
  exact ⟨new, hrun, first, hv, hnew, hkept 0 (by decide), hnew ▸ hone, hkept 2 (by decide)⟩

end Plan

end NeuralPlan
