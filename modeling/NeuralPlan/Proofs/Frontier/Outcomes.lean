import NeuralPlan.Proofs.Frontier.Collection

/-!
# What any collection leaves

Whatever a collection answers, it has done no more than to reserve some neurons that waited.  This
needs no assumption on the costs of the neurons, some of which may not fit a word.

## Main results

* `Frontier.conclude_of_failed`, `Frontier.conclude_of_not_failed` — the end of a collection.
* `Frontier.collectBy_outcome` — what any collection leaves.
* `Frontier.subset_collectBy` — a collection that succeeds stores what it answers.
-/

set_option relaxedAutoImplicit false
set_option autoImplicit false

namespace NeuralPlan.Frontier

open Result

variable {f : Frontier} {s : Scan} {ws : List Worker} {broken : List Nat}

/-- A cost that cannot be computed is not reported as the failure of a worker. -/
theorem costAt_ne_workerFailed (f : Frontier) (i : Nat) :
    f.costAt i ≠ fail (.invalidState .workerFailed) := by
  have hways : FailsIn (fun e => e ≠ .error (.invalidState .workerFailed)) (f.costAt i) := by
    refine FailsIn.bind ?_ fun n =>
      (Word.failsIn_unsigned nofun _).bind fun count => Word.failsIn_unsigned nofun _
    unfold Net.neuron
    split
    · exact failsIn_ok _
    · exact failsIn_fail.mpr nofun
  exact fun h => hways _ h rfl

/-- A collection ends with a failure if one of its workers has failed: it releases all that is handed
over. -/
theorem conclude_of_failed (h : Scan.Reserves f f.nextIteration s ws broken)
    (hfailed : ws.any Worker.failed = true) (budget : Nat) :
    conclude { f with iteration := f.nextIteration } budget s ws =
      ({ f.withSubset (lostBy broken ws) with subset := f.subset },
        fail (.invalidState .workerFailed)) := by
  have hrelease := releaseAll_scan h (List.nil_append (heldIds ws))
  unfold conclude
  simp only [hfailed, if_true]
  rw [heldIds] at hrelease
  rw [hrelease]
  rfl

/-- What a collection leaves if no worker has failed: it keeps some of the neurons that it has
reserved, stores them if it answers them, and does not report that a worker has failed. -/
theorem conclude_of_not_failed (h : Scan.Reserves f f.nextIteration s ws broken)
    (hfailed : ws.any Worker.failed = false) (budget : Nat) :
    ∃ kept subset answer, conclude { f with iteration := f.nextIteration } budget s ws =
        ({ f.withSubset kept with subset := subset }, answer) ∧
      kept <+: heldIds ws ∧ (subset = f.subset ∨ subset = kept) ∧
      (∀ chosen, answer = .ok chosen → subset = chosen) ∧
      answer ≠ fail (.invalidState .workerFailed) := by
  have hparts : (split s budget 0 (gather ws)).1 ++ (split s budget 0 (gather ws)).2 = heldIds ws :=
    split_append s budget (gather ws) 0
  have hkept : (split s budget 0 (gather ws)).1 <+: heldIds ws := ⟨_, hparts⟩
  have hrelease := releaseAll_scan h hparts
  rw [h.lostBy_eq hfailed, List.append_nil] at hrelease
  unfold conclude
  simp only [hfailed, Bool.false_eq_true, if_false, hrelease]
  generalize (split s budget 0 (gather ws)).1 = kept at hkept
  cases kept with
  | cons i kept => exact ⟨i :: kept, _, _, rfl, hkept, .inr rfl, fun _ h => Except.ok.inj h, nofun⟩
  | nil =>
    cases s.cutoff with
    | none => exact ⟨[], [], _, rfl, hkept, .inr rfl, fun _ h => Except.ok.inj h, nofun⟩
    | some cutoff =>
      cases hcost : costAt { f.withSubset [] with subset := f.subset } cutoff with
      | ok required =>
        refine ⟨[], f.subset, fail (.exhausted required budget), ?_, hkept, .inl rfl, nofun, nofun⟩
        simp only [hcost]
      | error e =>
        refine ⟨[], f.subset, .error e, ?_, hkept, .inl rfl, nofun, fun hanswer => ?_⟩
        · simp only [hcost]
        · exact costAt_ne_workerFailed _ _ (hcost.trans (congrArg _ (Except.error.inj hanswer)))

/-- **What any collection leaves**: it has reserved some neurons that waited, and keeps some of these.
It stores what it answers.  If it reports that a worker has failed, then it keeps none, and the cost
of one that it has reserved does not fit a word. -/
theorem collectBy_outcome (hsize : f.status.size = f.net.neuronCount) (hempty : f.subset = [])
    (schedule : List Nat) (request : Request) :
    ∃ taken subset answer, f.collectBy schedule request =
        ({ f.withSubset taken with subset := subset }, answer) ∧
      (taken.Nodup ∧ ∀ i ∈ taken, ∃ c, f.status[i]? = some (.waiting c)) ∧
      subset ⊆ taken ∧ (∀ chosen, answer = .ok chosen → subset = chosen) ∧
      (answer = fail (.invalidState .workerFailed) →
        subset = [] ∧ ∃ i ∈ taken, Word.limit ≤ f.net.bytesOf i) := by
  obtain ⟨broken, h⟩ := reserves_scan hsize schedule request
  have hrun : f.collectBy schedule request =
      conclude { f with iteration := f.nextIteration } request.budget
        (f.scan schedule request).1 (f.scan schedule request).2 := by
    simp only [collectBy, hempty, List.isEmpty_nil, if_true]
    rfl
  rw [hrun]
  generalize (f.scan schedule request).1 = s at h ⊢
  generalize (f.scan schedule request).2 = ws at h ⊢
  have htaken := takenBy_perm_heldIds broken ws
  have hnodup := htaken.nodup_iff.mp (List.nodup_append.mp h.nodup).1
  obtain ⟨hids, hlost, -⟩ := List.nodup_append.mp hnodup
  have hwaiting : ∀ i ∈ heldIds ws ++ lostBy broken ws, ∃ c, f.status[i]? = some (.waiting c) :=
    fun i hi => h.waiting i (htaken.mem_iff.mpr hi)
  cases hfailed : ws.any Worker.failed with
  | true =>
    refine ⟨lostBy broken ws, f.subset, _, conclude_of_failed h hfailed request.budget,
      ⟨hlost, fun i hi => hwaiting i (List.mem_append_right _ hi)⟩, by simp [hempty],
      fun _ h => absurd h fail_ne_ok, fun _ => ⟨hempty, ?_⟩⟩
    obtain ⟨i, hi⟩ := List.exists_mem_of_ne_nil broken (h.failed.mp hfailed)
    exact ⟨i, List.mem_append_left _ hi, h.costs i hi⟩
  | false =>
    obtain ⟨kept, subset, answer, hend, hkept, hsubset, hok, hanswer⟩ :=
      conclude_of_not_failed h hfailed request.budget
    refine ⟨kept, subset, answer, hend, ⟨hids.sublist hkept.sublist, fun i hi => ?_⟩, ?_, hok,
      fun hfails => absurd hfails hanswer⟩
    · exact hwaiting i (List.mem_append_left _ (hkept.subset hi))
    · rcases hsubset with rfl | rfl
      · simp [hempty]
      · exact List.Subset.refl _

/-- A collection that succeeds stores what it answers. -/
theorem subset_collectBy (hsize : f.status.size = f.net.neuronCount) {schedule : List Nat}
    {request : Request} {chosen : List Nat}
    (hchosen : (f.collectBy schedule request).2 = .ok chosen) :
    (f.collectBy schedule request).1.subset = chosen := by
  by_cases hempty : f.subset = []
  · obtain ⟨taken, subset, answer, heq, -, -, hok, -⟩ :=
      collectBy_outcome hsize hempty schedule request
    rw [heq] at hchosen ⊢
    exact hok chosen hchosen
  · rw [collectBy_refused hempty] at hchosen
    cases hchosen

end NeuralPlan.Frontier
