import NeuralPlan.Plan.Run
import NeuralPlan.Proofs.Cell.Parts
import NeuralPlan.Proofs.Values

/-!
# Results that are committed

The results of a row are written to the values of its neurons, one after another.

## Main definitions

* `Values.commitAll` — pairs of neurons and results written one after another.

## Main results

* `Values.getD_commitAll`, `Values.getElem?_commitAll_of_mem`, `Values.committed_commitAll` — the
  values and the flags afterwards.
* `Plan.commit_eq`, `Plan.commitRow_eq` — what a cell and what a row commit.
-/

set_option relaxedAutoImplicit false
set_option autoImplicit false

namespace NeuralPlan

namespace Values

/-- The results written to the values of their neurons one after another, each with the flag of its
neuron. -/
def commitAll (v : Values) (pairs : List (Nat × Float)) : Values :=
  pairs.foldl (fun v x => ⟨v.values.set! x.1 x.2, v.committed.set! x.1 true⟩) v

variable (v : Values)

/-- Results of some neurons and of others are written one after another. -/
theorem commitAll_append (pairs pairs' : List (Nat × Float)) :
    v.commitAll (pairs ++ pairs') = (v.commitAll pairs).commitAll pairs' := by
  rw [commitAll, List.foldl_append]
  rfl

/-- No neuron comes or goes. -/
@[simp] theorem size_values_commitAll (pairs : List (Nat × Float)) :
    (v.commitAll pairs).values.size = v.values.size := by
  induction pairs generalizing v with
  | nil => rfl
  | cons x pairs ih =>
    change ((v.commit x.1 x.2).commitAll pairs).values.size = _
    rw [ih]
    simp [commit]

/-- No flag comes or goes. -/
@[simp] theorem size_committed_commitAll (pairs : List (Nat × Float)) :
    (v.commitAll pairs).committed.size = v.committed.size := by
  induction pairs generalizing v with
  | nil => rfl
  | cons x pairs ih =>
    change ((v.commit x.1 x.2).commitAll pairs).committed.size = _
    rw [ih]
    simp [commit]

variable {v} {members : List Nat}

/-- **The values afterwards** are the results of the neurons, and all others as before. -/
theorem getD_commitAll (value : Nat → Float) (hlt : ∀ i ∈ members, i < v.values.size) (j : Nat) :
    (v.commitAll (members.map fun i => (i, value i))).values.getD j 0.0 =
      if j ∈ members then value j else v.values.getD j 0.0 := by
  induction members generalizing v with
  | nil => rfl
  | cons i members ih =>
    obtain ⟨hi, hmembers⟩ := List.forall_mem_cons.mp hlt
    have hone : (v.commit i (value i)).values.getD j 0.0 =
        if j = i then value j else v.values.getD j 0.0 := by
      rw [commit, getD_set hi]
      split
      next hji => rw [hji]
      next => rfl
    change
      ((v.commit i (value i)).commitAll (members.map fun i => (i, value i))).values.getD j 0.0 = _
    rw [ih (by simpa [commit] using hmembers), hone]
    by_cases hj : j ∈ members
    · simp [hj]
    · simp [hj]

variable {pairs : List (Nat × Float)} {j : Nat}

/-- The value of a neuron that is not written is as before. -/
theorem getElem?_commitAll_of_notMem (hj : j ∉ pairs.map Prod.fst) :
    (v.commitAll pairs).values[j]? = v.values[j]? := by
  induction pairs generalizing v with
  | nil => rfl
  | cons x pairs ih =>
    rw [List.map_cons, List.mem_cons, not_or] at hj
    show ((v.commit x.1 x.2).commitAll pairs).values[j]? = _
    rw [ih hj.2]
    simp [commit, Ne.symm hj.1]

/-- The value of a neuron that is written once is its result. -/
theorem getElem?_commitAll_of_mem (hnodup : (pairs.map Prod.fst).Nodup) {x : Float}
    (hx : (j, x) ∈ pairs) (hj : j < v.values.size) :
    (v.commitAll pairs).values[j]? = some x := by
  induction pairs generalizing v with
  | nil => cases hx
  | cons y pairs ih =>
    rw [List.map_cons, List.nodup_cons] at hnodup
    show ((v.commit y.1 y.2).commitAll pairs).values[j]? = _
    rcases List.mem_cons.mp hx with rfl | hx
    · rw [getElem?_commitAll_of_notMem hnodup.1]
      simp [commit, hj]
    · apply ih hnodup.2 hx
      simpa [commit] using hj

/-- **The flags afterwards** are those before and those of the neurons. -/
theorem committed_commitAll (hlt : ∀ x ∈ pairs, x.1 < v.committed.size) (j : Nat) :
    (v.commitAll pairs).committed[j]? = some true ↔
      v.committed[j]? = some true ∨ j ∈ pairs.map Prod.fst := by
  induction pairs generalizing v with
  | nil => simp [commitAll]
  | cons x pairs ih =>
    obtain ⟨hx, hpairs⟩ := List.forall_mem_cons.mp hlt
    have hone : (v.commit x.1 x.2).committed[j]? = some true ↔
        v.committed[j]? = some true ∨ j = x.1 := by
      simp only [commit, Array.set!_eq_setIfInBounds, Array.getElem?_setIfInBounds]
      by_cases hij : x.1 = j
      · subst hij
        simp [hx]
      · simp [hij, Ne.symm hij]
    show ((v.commit x.1 x.2).commitAll pairs).committed[j]? = some true ↔ _
    rw [ih (by simpa [commit] using hpairs), hone, List.map_cons, List.mem_cons, or_assoc]

end Values

namespace Plan

/-- **What a cell commits**: its results, to the neurons that its outputs name, if there are
these. -/
theorem commit_eq {v : Values} {outputs : List Run} {results : List Float}
    (houtputs : ∀ ref ∈ Runs.indices outputs,
      Word.IsSigned ref ∧ Word.toUnsigned ref < v.committed.size) :
    commit v outputs results =
      (v.commitAll (((Runs.indices outputs).map Word.toUnsigned).zip results), .ok ()) := by
  induction results generalizing v outputs with
  | nil => simp [commit, Values.commitAll]
  | cons result results ih =>
    unfold commit
    rcases Runs.next?_of_signed fun ref href => (houtputs ref href).1 with
      ⟨hnone, hnext⟩ | ⟨ref, rest, hsome, hnext⟩
    · rw [hnext, hnone]
      rfl
    · rw [hsome] at houtputs ⊢
      obtain ⟨⟨-, hlt⟩, hrest⟩ := List.forall_mem_cons.mp houtputs
      rw [hnext]
      dsimp only
      rw [if_pos hlt, ih (by simpa [Values.commit] using hrest)]
      rfl

/-- **What a row commits**: the results of its cells, one after another. -/
theorem commitRow_eq {v : Values} {solved : List (Cell × Array Float)}
    (houtputs : ∀ x ∈ solved, ∀ ref ∈ Runs.indices x.1.outputs.toList,
      Word.IsSigned ref ∧ Word.toUnsigned ref < v.committed.size) :
    commitRow v solved =
      (v.commitAll (solved.flatMap fun x => x.1.members.zip x.2.toList), .ok ()) := by
  induction solved generalizing v with
  | nil => rfl
  | cons x solved ih =>
    obtain ⟨hfirst, hrest⟩ := List.forall_mem_cons.mp houtputs
    obtain ⟨c, results⟩ := x
    rw [commitRow, commit_eq hfirst]
    dsimp only
    rw [ih (by simpa using hrest), List.flatMap_cons, Values.commitAll_append]
    rfl

end Plan

end NeuralPlan
