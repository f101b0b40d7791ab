import NeuralPlan.Proofs.Frontier.Scan

/-!
# What a scan has reserved

A worker may come to a neuron whose cost does not fit a word.  It has reserved the neuron by then,
fails, and hands over nothing of what it holds.  So whatever the costs are, a scan has reserved what
its workers hold and the neurons at which they have failed.

## Main definitions

* `Scan.Reserves` — the invariant, for nets with any costs.
* `lostBy` — what is reserved and not handed over.

## Main results

* `Scan.Reserves.step` — a step keeps the invariant, also one that fails.
* `Frontier.reserves_scan` — the invariant holds after the scan of a collection.
* `takenBy_perm` — what is reserved is handed over or lost.
-/

set_option relaxedAutoImplicit false
set_option autoImplicit false

namespace NeuralPlan

/-- What is reserved, if the workers have failed at the neurons `broken`. -/
def takenBy (broken : List Nat) (ws : List Worker) : List Nat :=
  broken ++ (heldBy ws).map Prod.fst

/-- What is reserved and not handed over: the neurons at which workers have failed, and what these
workers hold. -/
def lostBy (broken : List Nat) (ws : List Worker) : List Nat :=
  broken ++ ((ws.filter Worker.failed).flatMap Worker.held).map Prod.fst

/-- What the workers hold is handed over, or is held by a worker that has failed. -/
theorem heldBy_perm_handover (ws : List Worker) :
    (heldBy ws).Perm
      (ws.flatMap Worker.handover ++ (ws.filter Worker.failed).flatMap Worker.held) := by
  induction ws with
  | nil => exact List.Perm.refl _
  | cons w ws ih =>
    change (w.held ++ heldBy ws).Perm _
    cases hw : w.failed with
    | true =>
      simp only [List.flatMap_cons, Worker.handover, hw, if_true, List.nil_append,
        List.filter_cons]
      exact (ih.append_left _).trans (List.perm_append_comm_assoc _ _ _)
    | false =>
      simp only [List.flatMap_cons, Worker.handover, hw, Bool.false_eq_true, if_false,
        List.append_assoc, List.filter_cons]
      exact ih.append_left _

/-- **What is reserved** is handed over or lost. -/
theorem takenBy_perm (broken : List Nat) (ws : List Worker) :
    (takenBy broken ws).Perm ((ws.flatMap Worker.handover).map Prod.fst ++ lostBy broken ws) := by
  have hheld := (heldBy_perm_handover ws).map Prod.fst
  rw [List.map_append] at hheld
  exact (hheld.append_left broken).trans (List.perm_append_comm_assoc _ _ _)

namespace Scan

/-- The workers have failed at the neurons `broken`, whose costs do not fit a word.  These, what they
hold and what they have still to scan are different neurons.  The scan has reserved just those that
are broken or held; each of them waited before. -/
structure Reserves (f : Frontier) (k : Nat) (s : Scan) (ws : List Worker) (broken : List Nat) :
    Prop where
  status : ∀ i : Nat, s.status[i]? = f.status[i]?.map fun st =>
    if i ∈ takenBy broken ws then st.reserve k else st
  nodup : (takenBy broken ws ++ pendingOf ws).Nodup
  pending_lt : ∀ i ∈ pendingOf ws, i < f.net.neuronCount
  waiting : ∀ i ∈ takenBy broken ws, ∃ c, f.status[i]? = some (.waiting c)
  costs : ∀ i ∈ broken, Word.limit ≤ f.net.bytesOf i
  failed : ws.any Worker.failed = true ↔ broken ≠ []

variable {f : Frontier} {request : Request} {k : Nat} {s : Scan} {broken : List Nat}

/-- A neuron that waits in the scan is not reserved, and waited before. -/
theorem Reserves.waiting_before {ws : List Worker} (h : Reserves f k s ws broken) {i c : Nat}
    (hi : s.status[i]? = some (.waiting c)) :
    i ∉ takenBy broken ws ∧ f.status[i]? = some (.waiting c) := by
  rw [h.status, Option.map_eq_some_iff] at hi
  obtain ⟨st, hst, hi⟩ := hi
  split at hi
  next htaken => cases st <;> simp [Status.reserve] at hi
  next htaken => exact ⟨htaken, hi ▸ hst⟩

/-- A worker that scans less, and else stays as it is, keeps the invariant. -/
theorem Reserves.shrink {pre post : List Worker} {w w' : Worker}
    (h : Reserves f k s (pre ++ w :: post) broken) (hheld : w'.held = w.held)
    (hfailed : w'.failed = w.failed) (hpending : w'.pending.Sublist w.pending) :
    Reserves f k s (pre ++ w' :: post) broken := by
  have hsame : takenBy broken (pre ++ w' :: post) = takenBy broken (pre ++ w :: post) := by
    simp [takenBy, heldBy, hheld]
  have hsub : (pendingOf (pre ++ w' :: post)).Sublist (pendingOf (pre ++ w :: post)) := by
    simp only [pendingOf, List.flatMap_append, List.flatMap_cons]
    exact (List.Sublist.refl _).append (hpending.append (List.Sublist.refl _))
  refine ⟨hsame ▸ h.status, ?_, fun i hi => h.pending_lt i (hsub.subset hi), hsame ▸ h.waiting,
    h.costs, ?_⟩
  · rw [hsame]
    exact h.nodup.sublist ((List.Sublist.refl _).append hsub)
  · rw [← h.failed]
    simp [hfailed]

/-- A neuron more is reserved, one of those that were still to scan.

**Proof sketch.** The neuron waits in the scan, so that it was not reserved before and waited then;
it goes from what is to scan to what is reserved. -/
theorem Reserves.extend {ws ws' : List Worker} {broken' : List Nat}
    (h : Reserves f k s ws broken) {i c : Nat} (hi : s.status[i]? = some (.waiting c))
    (htaken : (takenBy broken' ws').Perm (i :: takenBy broken ws))
    (hpending : (i :: pendingOf ws').Subperm (pendingOf ws))
    (hcosts : ∀ j ∈ broken', Word.limit ≤ f.net.bytesOf j)
    (hfailed : ws'.any Worker.failed = true ↔ broken' ≠ []) :
    Reserves f k (s.reserve k i) ws' broken' := by
  obtain ⟨hfree, hbefore⟩ := h.waiting_before hi
  have hmem : ∀ j, j ∈ takenBy broken' ws' ↔ j = i ∨ j ∈ takenBy broken ws := fun j => by
    rw [htaken.mem_iff, List.mem_cons]
  refine ⟨fun j => ?_, ?_, fun j hj => ?_, fun j hj => ?_, hcosts, hfailed⟩
  · simp only [reserve, Array.getElem?_modify, h.status, hmem]
    by_cases hij : i = j
    · subst hij
      simp [hbefore, hfree]
    · have hji : j ≠ i := Ne.symm hij
      simp only [hij, hji, if_false, false_or]
  · have hperm : (takenBy broken' ws' ++ pendingOf ws').Perm
        (takenBy broken ws ++ i :: pendingOf ws') :=
      (htaken.append_right _).trans List.perm_middle.symm
    obtain ⟨l, hl, hsub⟩ := (List.subperm_append_left (takenBy broken ws)).mpr hpending
    exact (hl.trans hperm.symm).nodup_iff.mp (h.nodup.sublist hsub)
  · exact h.pending_lt j (hpending.subset (List.mem_cons_of_mem _ hj))
  · rcases (hmem j).mp hj with rfl | hj
    · exact ⟨c, hbefore⟩
    · exact h.waiting j hj

/-- A lowered cutoff keeps the invariant. -/
theorem Reserves.lower {ws : List Worker} (h : Reserves f k s ws broken) (i : Nat) :
    Reserves f k (s.lower i) ws broken :=
  ⟨h.status, h.nodup, h.pending_lt, h.waiting, h.costs, h.failed⟩

/-- A worker that takes the next neuron keeps the invariant. -/
theorem Reserves.take {pre post : List Worker} {w w' : Worker} {i : Nat}
    (h : Reserves f k s (pre ++ w :: post) broken) (hp : w.pending = i :: w'.pending) {c cost : Nat}
    (hi : s.status[i]? = some (.waiting c)) (hheld : w'.held = (i, cost) :: w.held)
    (hfailed : w'.failed = w.failed) :
    Reserves f k (s.reserve k i) (pre ++ w' :: post) broken := by
  refine h.extend hi ?_ ?_ h.costs ?_
  · have hperm : (heldBy (pre ++ w' :: post)).Perm ((i, cost) :: heldBy (pre ++ w :: post)) := by
      refine (heldBy_perm pre w' post).trans ?_
      rw [hheld]
      exact (heldBy_perm pre w post).symm.cons _
    exact ((hperm.map Prod.fst).append_left broken).trans List.perm_middle
  · refine List.Perm.subperm ?_
    refine ((pendingOf_perm pre w' post).cons i).trans ?_
    rw [← List.cons_append, ← hp]
    exact (pendingOf_perm pre w post).symm
  · rw [← h.failed]
    simp [hfailed]

/-- A worker that fails at the next neuron keeps the invariant: the neuron is one more at which a
worker has failed. -/
theorem Reserves.fail {pre post : List Worker} {w : Worker} {i : Nat} {rest : List Nat}
    (h : Reserves f k s (pre ++ w :: post) broken) (hp : w.pending = i :: rest) {c : Nat}
    (hi : s.status[i]? = some (.waiting c)) (hbig : Word.limit ≤ f.net.bytesOf i) :
    Reserves f k (s.reserve k i) (pre ++ { w.halt with failed := true } :: post)
      (i :: broken) := by
  have hheld : heldBy (pre ++ { w.halt with failed := true } :: post) =
      heldBy (pre ++ w :: post) := by
    simp [heldBy, Worker.halt]
  refine h.extend hi ?_ ?_ (List.forall_mem_cons.mpr ⟨hbig, h.costs⟩) ?_
  · rw [takenBy, hheld]
    exact List.Perm.refl _
  · simp only [pendingOf, List.flatMap_append, List.flatMap_cons, Worker.halt, List.nil_append, hp]
    refine List.Subperm.trans ?_ List.perm_middle.symm.subperm
    refine List.Sublist.subperm (List.Sublist.cons_cons i ?_)
    exact (List.Sublist.refl _).append (List.sublist_append_right _ _)
  · simp

/-- **One step keeps the invariant**, whatever the costs are. -/
theorem Reserves.step {pre post : List Worker} {w : Worker}
    (h : ∃ broken, Reserves f k s (pre ++ w :: post) broken) :
    ∃ broken, Reserves f k (Worker.step f request k s w).1
      (pre ++ (Worker.step f request k s w).2 :: post) broken := by
  obtain ⟨broken, h⟩ := h
  have hlt : ∀ i ∈ w.pending, i < f.net.neuronCount := fun i hi =>
    h.pending_lt i ((pendingOf_perm pre w post).mem_iff.mpr (List.mem_append_left _ hi))
  rcases Worker.step_or_fails hlt with hspec | ⟨i, rest, hp, hc, hbig, hstep⟩
  · generalize (Worker.step f request k s w).1 = s' at hspec ⊢
    generalize (Worker.step f request k s w).2 = w' at hspec ⊢
    refine ⟨broken, ?_⟩
    cases hspec with
    | idle hp => exact h
    | stop hp hb => exact h.shrink rfl rfl (List.nil_sublist _)
    | pass hp hc => exact h.shrink rfl rfl (by rw [hp]; exact List.sublist_cons_self _ _)
    | take hp hc hfit =>
      obtain ⟨c, hi⟩ := waiting_of_isCandidate hc
      exact h.take hp hi rfl rfl
    | refuse hp hc hbig =>
      obtain ⟨c, hi⟩ := waiting_of_isCandidate hc
      rw [reject_reserve hi]
      have hhalt : Reserves f k s (pre ++ w.halt :: post) broken :=
        h.shrink rfl rfl (List.nil_sublist _)
      exact hhalt.lower _
  · obtain ⟨c, hi⟩ := waiting_of_isCandidate hc
    rw [hstep]
    exact ⟨_, h.fail hp hi hbig⟩

/-- A scan in which all costs fit has reserved what the workers hold. -/
theorem Tracks.reserves {budget : Nat} {ws : List Worker} (h : Tracks f budget k s ws) :
    Reserves f k s ws [] :=
  ⟨h.status, h.nodup, h.pending_lt, fun i hi => by
    obtain ⟨e, he, rfl⟩ := List.mem_map.mp hi
    exact h.waiting e he, by simp, by simpa using h.unfailed⟩

/-- If no worker has failed, then nothing is lost. -/
theorem Reserves.lostBy_eq {ws : List Worker} (h : Reserves f k s ws broken)
    (hfailed : ws.any Worker.failed = false) : lostBy broken ws = [] := by
  have hnone : ws.filter Worker.failed = [] := by
    rw [List.filter_eq_nil_iff]
    simpa using hfailed
  have hbroken : broken = [] := by
    by_contra hne
    rw [h.failed.mpr hne] at hfailed
    cases hfailed
  rw [lostBy, hnone, hbroken]
  rfl

end Scan

namespace Frontier

/-- **The invariant holds** after the scan of a collection. -/
theorem reserves_scan {f : Frontier} (hsize : f.status.size = f.net.neuronCount)
    (schedule : List Nat) (request : Request) :
    ∃ broken, Scan.Reserves f f.nextIteration (f.scan schedule request).1
      (f.scan schedule request).2 broken :=
  Scan.run_induct
    (P := fun s ws => ∃ broken, Scan.Reserves f f.nextIteration s ws broken)
    (fun _ _ _ _ h => Scan.Reserves.step h) schedule _ _
    ⟨[], (tracks_start hsize request.threads request.budget f.nextIteration).reserves⟩

end Frontier

end NeuralPlan
