import NeuralPlan.Proofs.Frontier.History

/-!
# Collections whose workers fail

A collection releases what its workers hand over and it does not keep.  A worker that comes to a
neuron whose cost does not fit a word has reserved the neuron, and it fails before it hands over
anything.  So the neurons that it has reserved are in no subset, and nobody can release them: they
stay reserved whatever follows, and the work is never finished.

## Main definitions

* `Frontier.IsLost` — a neuron is reserved and in no subset.

## Main results

* `Frontier.IsLost.perform`, `Frontier.IsLost.after` — a neuron that is lost stays lost.
* `Frontier.failed_collection_loses` — what a collection loses whose workers fail.
-/

set_option relaxedAutoImplicit false
set_option autoImplicit false

namespace NeuralPlan.Frontier

open Result

variable {net : Net} {f g : Frontier} {k i : Nat}

/-! ## Neurons that are lost -/

/-- The neuron `i` is lost: the collection of number `k` has reserved it, and it is in no subset. -/
def IsLost (f : Frontier) (k i : Nat) : Prop :=
  (∃ c, f.status[i]? = some (.reserved k c)) ∧ i ∉ f.subset

/-- Whatever is dropped from the subset, a neuron that is lost stays so. -/
theorem IsLost.drop (h : f.IsLost k i) {rest : List Nat} (hrest : rest ⊆ f.subset) :
    IsLost { f with subset := rest } k i :=
  ⟨h.1, fun hi => h.2 (hrest hi)⟩

/-- A collection takes no neuron that is lost. -/
theorem IsLost.collectBy (h : f.IsLost k i) (hsize : f.status.size = f.net.neuronCount)
    (schedule : List Nat) (request : Request) : (f.collectBy schedule request).1.IsLost k i := by
  by_cases hempty : f.subset = []
  · obtain ⟨taken, subset, answer, heq, ⟨-, hwaiting⟩, hsubset, -, -⟩ :=
      collectBy_outcome hsize hempty schedule request
    obtain ⟨⟨c, hc⟩, -⟩ := h
    have hi : i ∉ taken := by
      intro hi
      obtain ⟨c', hc'⟩ := hwaiting i hi
      rw [hc] at hc'
      cases hc'
    rw [heq]
    refine ⟨⟨c, ?_⟩, fun hmem => hi (hsubset hmem)⟩
    show (f.withSubset taken).status[i]? = _
    rw [getElem?_status_withSubset, hc, Option.map_some, if_neg hi]
  · rwa [collectBy_refused hempty]

/-- Releasing other neurons does not change the state of a neuron, nor the subset. -/
theorem releaseAll_of_notMem {l : List Nat} (hi : i ∉ l) :
    (f.releaseAll l).1.status[i]? = f.status[i]? ∧ (f.releaseAll l).1.subset = f.subset := by
  induction l generalizing f with
  | nil => exact ⟨rfl, rfl⟩
  | cons j l ih =>
    rw [List.mem_cons, not_or] at hi
    unfold releaseAll
    split
    next => exact ⟨rfl, rfl⟩
    next g hrelease =>
      obtain ⟨hstatus, hsubset⟩ := ih (f := g) hi.2
      obtain ⟨s, -, hrelease⟩ := bind_eq_ok_iff.mp hrelease
      split at hrelease
      next =>
        obtain rfl := Except.ok.inj hrelease
        refine ⟨hstatus.trans ?_, hsubset⟩
        simp only [Array.getElem?_modify, if_neg (Ne.symm hi.1)]
      next => cases hrelease

/-- Confirming a neuron as omitted drops one from the subset at most, and releases no other. -/
theorem IsLost.confirmOmitted (h : f.IsLost k i) (j : Nat) : (f.confirmOmitted j).1.IsLost k i := by
  unfold Frontier.confirmOmitted
  split
  next => exact h
  next g hdrop =>
    obtain ⟨-, rest, hsub, rfl⟩ := dropFirst_eq_ok_iff.mp hdrop
    have hrest : IsLost { f with subset := rest } k i :=
      h.drop (hsub ▸ List.subset_cons_self _ _)
    have hij : i ∉ [j] := fun hi => h.2 (hsub ▸ List.mem_cons.mpr (.inl (List.mem_singleton.mp hi)))
    have hother := releaseAll_of_notMem (f := { f with subset := rest }) hij
    unfold releaseAll at hother
    unfold settle
    split
    next g hrelease =>
      rw [hrelease] at hother
      obtain ⟨⟨c, hc⟩, hmem⟩ := hrest
      exact ⟨⟨c, hother.1.trans hc⟩, hother.2 ▸ hmem⟩
    next => exact hrest

/-- Confirming a neuron as processed drops one from the subset at most, and processes no other; a
neuron that is lost may count more of its references. -/
theorem IsLost.confirmProcessed (h : f.IsLost k i) (j : Nat) :
    (f.confirmProcessed j).1.IsLost k i := by
  cases hconfirm : f.confirmProcessed j with
  | mk g answer =>
    cases answer with
    | error e =>
      obtain ⟨rest, hrest, rfl⟩ := confirmProcessed_eq_error hconfirm
      exact h.drop hrest
    | ok u =>
      obtain ⟨rest, s, hsub, -, -, rfl⟩ := confirmProcessed_eq_ok hconfirm
      obtain ⟨⟨c, hc⟩, hmem⟩ := h
      rw [hsub, List.mem_cons, not_or] at hmem
      refine ⟨⟨c + (f.readers[j]?.getD []).count i, ?_⟩, hmem.2⟩
      simp only [processFirst, getElem?_foldl_modify, Array.set!_eq_setIfInBounds,
        Array.getElem?_setIfInBounds, if_neg (Ne.symm hmem.1), hc, Option.map_some,
        Status.satisfy_iterate]

/-- **A neuron that is lost stays lost**, whatever operation follows. -/
theorem IsLost.perform (h : f.IsLost k i) (hsize : f.status.size = f.net.neuronCount)
    (op : Operation) : (f.perform op).IsLost k i := by
  cases op with
  | collect schedule request => exact h.collectBy hsize schedule request
  | process j => exact h.confirmProcessed j
  | leave j => exact h.confirmOmitted j
  | reset =>
    obtain ⟨⟨c, hc⟩, hmem⟩ := h
    obtain ⟨hstatus, hsubset⟩ := releaseAll_of_notMem (f := { f with subset := [] }) hmem
    refine ⟨⟨c, hstatus.trans hc⟩, ?_⟩
    rw [Frontier.perform, resetRemaining, hsubset]
    exact List.not_mem_nil

/-! ## Histories -/

/-- **The count of processed neurons is right** in every frontier that is reached, whatever the costs
are. -/
theorem Reachable.counted (hf : Reachable net f) : Counted net f := by
  induction hf with
  | start hf =>
    obtain ⟨-, rfl⟩ := ofNet_eq_ok_iff.mp hf
    exact (Plan.paid_initial net).counted
  | collect _ schedule request ih => exact ih.of_same (same_collectBy _ schedule request)
  | @process f _ i ih =>
    cases hconfirm : f.confirmProcessed i with
    | mk g answer =>
      cases answer with
      | ok u => exact ih.confirmProcessed hconfirm
      | error e =>
        obtain ⟨rest, -, rfl⟩ := confirmProcessed_eq_error hconfirm
        exact ⟨ih.netEq, ih.size, ih.processed⟩
  | leave _ i ih => exact ih.of_same (same_confirmOmitted _ i)
  | @reset f _ ih =>
    have hempty : Counted net { f with subset := [] } := ⟨ih.netEq, ih.size, ih.processed⟩
    exact hempty.of_same (same_releaseAll _ f.subset)

/-- A frontier that is counted has a state for every neuron of its net. -/
theorem Counted.size_eq (hf : Counted net f) : f.status.size = f.net.neuronCount := by
  rw [hf.size, hf.netEq]

/-- A neuron that is lost stays lost after any history. -/
theorem IsLost.after (h : f.IsLost k i) (hf : Reachable net f) (history : List Operation) :
    (f.after history).IsLost k i := by
  induction history generalizing f with
  | nil => exact h
  | cons op history ih => exact ih (h.perform hf.counted.size_eq op) (hf.perform op)

/-- As long as a neuron is lost, the work is not finished. -/
theorem IsLost.finished_eq_false (h : f.IsLost k i) (hf : Reachable net f) :
    f.finished = false := by
  have hcounted := hf.counted
  obtain ⟨⟨c, hc⟩, -⟩ := h
  have hlt : i < net.neuronCount := hcounted.size ▸ (Array.getElem?_eq_some_iff.mp hc).1
  cases hfinished : f.finished with
  | false => rfl
  | true =>
    have hdone := hcounted.finished_iff.mp hfinished i hlt
    simp [isDone, hc] at hdone

/-- A neuron that is lost is reserved and not solvable. -/
theorem IsLost.queries (h : f.IsLost k i) :
    f.isReserved i = .ok true ∧ f.isSolvable i = .ok false := by
  obtain ⟨⟨c, hc⟩, -⟩ := h
  refine ⟨isReserved_eq_ok_true_iff.mpr ⟨k, c, hc⟩, ?_⟩
  unfold isSolvable
  exact (query_eq_ok_iff (· == .waiting (f.readsAt i).length) false).mpr ⟨_, hc, rfl⟩

/-- What is left by a collection that keeps no neuron and does not release the neurons `lost`. -/
theorem isLost_withSubset {lost : List Nat}
    (hwaiting : ∀ i ∈ lost, ∃ c, f.status[i]? = some (.waiting c)) (hi : i ∈ lost) :
    IsLost { f.withSubset lost with subset := [] } f.nextIteration i := by
  obtain ⟨c, hc⟩ := hwaiting i hi
  refine ⟨⟨c, ?_⟩, List.not_mem_nil⟩
  show (f.withSubset lost).status[i]? = _
  rw [getElem?_status_withSubset, hc, Option.map_some, if_pos hi]
  rfl

/-- **A collection whose workers fail loses neurons**, in whatever order the workers take their
steps, in any frontier that is reached by public operations.

1. Some neurons that have waited are reserved by the collection and stay so when it ends, with the
   counts that they had; among them is one whose cost does not fit a word.  The states of all others
   are as before, and so is the number of processed neurons.
2. No neuron is left for the caller to confirm or to give back.
3. Whatever operations follow, the lost neurons stay reserved and are not solvable; they are in no
   subset, no collection answers them, and the work is never finished.

**Proof sketch.** A worker reserves a neuron before it computes the cost, and a worker that fails
hands over nothing.  The collection releases just what is handed over.  After that, only neurons
that wait are reserved, and only neurons of the subset are released or processed: one lemma for each
operation, and an induction on the history. -/
theorem failed_collection_loses (hf : Reachable net f) {schedule : List Nat} {request : Request}
    (hanswer : f.collectBy schedule request = (g, fail (.invalidState .workerFailed))) :
    ∃ lost : List Nat,
      (lost.Nodup ∧ (∃ i ∈ lost, Word.limit ≤ net.bytesOf i) ∧
        (∀ i ∈ lost, ∃ c, f.status[i]? = some (.waiting c) ∧
          g.status[i]? = some (.reserved f.nextIteration c)) ∧
        (∀ i, i ∉ lost → g.status[i]? = f.status[i]?) ∧ g.processed = f.processed) ∧
      g.subset = [] ∧
      ∀ i ∈ lost, ∀ later : List Operation,
        (g.after later).isReserved i = .ok true ∧ (g.after later).isSolvable i = .ok false ∧
        i ∉ (g.after later).subset ∧ (g.after later).finished = false ∧
        ∀ schedule request chosen,
          ((g.after later).collectBy schedule request).2 = .ok chosen → i ∉ chosen := by
  have hcounted := hf.counted
  have hempty : f.subset = [] := by
    by_contra hne
    rw [collectBy_refused hne] at hanswer
    cases (Prod.mk.inj hanswer).2
  have hg : Reachable net g := by
    have hcollect := hf.collect schedule request
    rwa [hanswer] at hcollect
  obtain ⟨lost, subset, answer, heq, ⟨hnodup, hwaiting⟩, -, -, hfails⟩ :=
    collectBy_outcome hcounted.size_eq hempty schedule request
  obtain ⟨rfl, rfl⟩ := Prod.mk.inj (heq.symm.trans hanswer)
  obtain ⟨rfl, i, hi, hbig⟩ := hfails rfl
  have hstatus := getElem?_status_withSubset f lost
  refine ⟨lost, ⟨hnodup, ⟨i, hi, hcounted.netEq ▸ hbig⟩, fun j hj => ?_, fun j hj => ?_, rfl⟩, rfl,
    fun j hj later => ?_⟩
  · obtain ⟨c, hc⟩ := hwaiting j hj
    refine ⟨c, hc, (hstatus j).trans ?_⟩
    rw [hc, Option.map_some, if_pos hj]
    rfl
  · refine (hstatus j).trans ?_
    simp [hj]
  · have hlater := hg.after later
    have hlost := (isLost_withSubset hwaiting hj).after hg later
    obtain ⟨hreserved, hsolvable⟩ := hlost.queries
    refine ⟨hreserved, hsolvable, hlost.2, hlost.finished_eq_false hlater,
      fun schedule request chosen hchosen hmem => ?_⟩
    have hsize := hlater.counted.size_eq
    exact (hlost.collectBy hsize schedule request).2 (by rwa [subset_collectBy hsize hchosen])

/-- A net of two neurons that both read the external input.  The second one names it in two runs that
are too long to be walked and whose sizes no word adds up. -/
def overgrown : Net where
  inputSize := 1
  outputNeurons := 1
  expectedRange := 1.0
  neurons := #[⟨.identity, 1, 2, #[⟨-1, 1⟩], #[⟨0, 1⟩]⟩,
    ⟨.identity, 1, 2, #[⟨-1, Word.signedLimit⟩, ⟨-1, Word.signedLimit⟩], #[⟨0, 1⟩]⟩]
  weights := #[0.5, 0.25, 0.125]

/-- The worker of this collection takes the first neuron and fails at the second one. -/
theorem collectBy_overgrown : (initial overgrown).collectBy [] ⟨1, 1000, true⟩ =
    (((initial overgrown).collectBy [] ⟨1, 1000, true⟩).1, fail (.invalidState .workerFailed)) :=
  Prod.ext rfl (by decide +kernel)

/-- What is lost in this net stays so, and the work on it is never finished. -/
theorem failed_collection_loses_overgrown :
    ∃ i c, (initial overgrown).status[i]? = some (.waiting c) ∧ ∀ later,
      (((initial overgrown).collectBy [] ⟨1, 1000, true⟩).1.after later).isReserved i = .ok true ∧
      (((initial overgrown).collectBy [] ⟨1, 1000, true⟩).1.after later).finished = false := by
  have hstart : Reachable overgrown (initial overgrown) := .start (by rfl)
  obtain ⟨lost, ⟨-, ⟨i, hi, -⟩, hwaiting, -⟩, -, hlost⟩ :=
    failed_collection_loses hstart collectBy_overgrown
  obtain ⟨c, hc, -⟩ := hwaiting i hi
  exact ⟨i, c, hc, fun later => ⟨(hlost i hi later).1, (hlost i hi later).2.2.2.1⟩⟩

/-- The first neuron of this net could be solved before the collection has failed, and is reserved
after that. -/
theorem failed_collection_reserves_overgrown :
    Reachable overgrown (initial overgrown) ∧ (initial overgrown).subset = [] ∧
      ∃ g, (initial overgrown).collectBy [] ⟨1, 1000, true⟩ =
          (g, fail (.invalidState .workerFailed)) ∧
        (initial overgrown).isSolvable 0 = .ok true ∧
        g.isReserved 0 = .ok true ∧ g.isSolvable 0 = .ok false :=
  ⟨.start (by rfl), rfl, _, collectBy_overgrown, by rfl, by decide +kernel, by decide +kernel⟩

end NeuralPlan.Frontier
