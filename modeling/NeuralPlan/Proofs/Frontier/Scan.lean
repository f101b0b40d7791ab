import Mathlib.Data.List.Range
import Mathlib.Tactic
import NeuralPlan.Frontier.Collect
import NeuralPlan.Proofs.Budget

/-!
# Scans by several workers

Workers take their steps in the order of any schedule.  What one step of one worker keeps, a whole
scan keeps.  In particular the workers hold different neurons, just those that the scan has
reserved, each within its own budget; and at the end no worker has a neuron left to scan.

## Main definitions

* `heldBy`, `pendingOf` — what all workers hold, and what they have still to scan.
* `Worker.Step` — what one step of a worker may do.
* `Scan.Tracks` — the invariant.
* `Frontier.workers`, `Frontier.scan` — the workers and the scan of a collection.

## Main results

* `Worker.step_spec`, `Worker.step_or_fails` — a step does one of these things, or fails.
* `Scan.run_induct` — what a step keeps, a scan keeps; `Scan.pendingOf_run` — a scan ends.
* `Frontier.tracks_scan` — the invariant holds after the scan of a collection.
-/

set_option relaxedAutoImplicit false
set_option autoImplicit false

namespace NeuralPlan

/-- What the workers hold, with the costs. -/
def heldBy (ws : List Worker) : List (Nat × Nat) := ws.flatMap Worker.held

/-- What the workers have still to scan. -/
def pendingOf (ws : List Worker) : List Nat := ws.flatMap Worker.pending

/-! ## One step -/

section Step

variable {f : Frontier} {request : Request} {k : Nat} {s : Scan} {w : Worker}

/-- What one step of a worker may do. -/
inductive Worker.Step (f : Frontier) (request : Request) (k : Nat) (s : Scan) (w : Worker) :
    Scan → Worker → Prop
  /-- There is nothing to scan. -/
  | idle (hp : w.pending = []) : Step f request k s w s w
  /-- The next neuron lies above the cutoff. -/
  | stop {i : Nat} {rest : List Nat} (hp : w.pending = i :: rest) (hb : s.isBeyond i = true) :
      Step f request k s w s w.halt
  /-- The next neuron is no candidate. -/
  | pass {i : Nat} {rest : List Nat} (hp : w.pending = i :: rest)
      (hc : f.isCandidate request.strict k s i = false) :
      Step f request k s w s { w with pending := rest }
  /-- The next neuron is a candidate and fits. -/
  | take {i : Nat} {rest : List Nat} (hp : w.pending = i :: rest)
      (hc : f.isCandidate request.strict k s i = true)
      (hfit : w.bytes + f.net.bytesOf i ≤ request.budget) :
      Step f request k s w (s.reserve k i) { w with
        pending := rest
        held := (i, f.net.bytesOf i) :: w.held
        bytes := w.bytes + f.net.bytesOf i }
  /-- The next neuron is a candidate and does not fit. -/
  | refuse {i : Nat} {rest : List Nat} (hp : w.pending = i :: rest)
      (hc : f.isCandidate request.strict k s i = true)
      (hbig : request.budget < w.bytes + f.net.bytesOf i) :
      Step f request k s w ((s.reserve k i).reject i) w.halt

/-- **A step does one of these things**, or the next neuron is a candidate whose cost does not fit a
word: then the worker reserves it and fails. -/
theorem Worker.step_or_fails (hlt : ∀ i ∈ w.pending, i < f.net.neuronCount) :
    Worker.Step f request k s w (Worker.step f request k s w).1 (Worker.step f request k s w).2 ∨
      ∃ i rest, w.pending = i :: rest ∧ f.isCandidate request.strict k s i = true ∧
        Word.limit ≤ f.net.bytesOf i ∧
        Worker.step f request k s w = (s.reserve k i, { w.halt with failed := true }) := by
  unfold Worker.step
  split
  next hp => exact .inl (.idle hp)
  next i rest hp =>
    split
    next hb => exact .inl (.stop hp hb)
    next hb =>
      split
      next hc =>
        by_cases hcost : f.net.bytesOf i < Word.limit
        · have hi : f.costAt i = .ok (f.net.bytesOf i) :=
            Frontier.costAt_eq_ok_iff.mpr ⟨hlt i (by simp [hp]), hcost, rfl⟩
          rw [hi]
          dsimp only
          split
          next hfit => exact .inl (.take hp hc hfit)
          next hfit => exact .inl (.refuse hp hc (Nat.lt_of_not_le hfit))
        · refine .inr ⟨i, rest, hp, hc, Nat.le_of_not_lt hcost, ?_⟩
          split
          next => rfl
          next cost hi => exact absurd (Frontier.costAt_eq_ok_iff.mp hi).2.1 hcost
      next hc => exact .inl (.pass hp (by simpa using hc))

/-- **A step does one of these things**, if the costs of the neurons fit. -/
theorem Worker.step_spec (hcost : f.net.CostsFit) (hlt : ∀ i ∈ w.pending, i < f.net.neuronCount) :
    Worker.Step f request k s w (Worker.step f request k s w).1
      (Worker.step f request k s w).2 := by
  rcases Worker.step_or_fails hlt with hstep | ⟨i, -, -, -, hbig, -⟩
  · exact hstep
  · exact absurd (hcost i) (Nat.not_lt.mpr hbig)

/-- A step leaves at most the rest of the neurons to scan. -/
theorem Worker.length_pending_step :
    (Worker.step f request k s w).2.pending.length ≤ w.pending.length - 1 := by
  unfold Worker.step
  split
  next hp => simp [hp]
  next i rest hp =>
    rw [hp, List.length_cons, Nat.add_sub_cancel]
    split
    · exact Nat.zero_le _
    · split
      · dsimp only
        split
        · exact Nat.zero_le _
        · split
          · exact le_rfl
          · exact Nat.zero_le _
      · exact le_rfl

end Step

/-! ## All steps -/

namespace Scan

variable {f : Frontier} {request : Request} {k : Nat}

/-- After as many steps as a worker has neurons to scan, it has none. -/
theorem pending_steps (count : Nat) (s : Scan) (w : Worker) (h : w.pending.length ≤ count) :
    (Worker.steps f request k count s w).2.pending = [] := by
  induction count generalizing s w with
  | zero => exact List.eq_nil_of_length_eq_zero (Nat.le_zero.mp h)
  | succ count ih =>
    exact ih _ _ (Worker.length_pending_step.trans (by omega))

/-- When the workers have finished, none has a neuron left to scan. -/
theorem pendingOf_finish (s : Scan) (ws : List Worker) :
    pendingOf (finish f request k s ws).2 = [] := by
  induction ws generalizing s with
  | nil => rfl
  | cons w ws ih =>
    simp only [finish, pendingOf, List.flatMap_cons, List.append_eq_nil_iff]
    exact ⟨pending_steps _ s w le_rfl, ih _⟩

/-- **A scan ends**: no worker has a neuron left to scan. -/
theorem pendingOf_run (schedule : List Nat) (s : Scan) (ws : List Worker) :
    pendingOf (run f request k schedule s ws).2 = [] := by
  induction schedule generalizing s ws with
  | nil => exact pendingOf_finish s ws
  | cons place schedule ih => exact ih _ _

section Induct

variable {P : Scan → List Worker → Prop}
  (hstep : ∀ s pre w post, P s (pre ++ w :: post) →
    P (Worker.step f request k s w).1 (pre ++ (Worker.step f request k s w).2 :: post))

include hstep

/-- What one step keeps, several steps of a worker keep. -/
theorem steps_induct (count : Nat) (s : Scan) (pre : List Worker) (w : Worker)
    (post : List Worker) (h : P s (pre ++ w :: post)) :
    P (Worker.steps f request k count s w).1
      (pre ++ (Worker.steps f request k count s w).2 :: post) := by
  induction count generalizing s w with
  | zero => exact h
  | succ count ih => exact ih _ _ (hstep s pre w post h)

/-- What one step keeps, the workers keep until they have finished. -/
theorem finish_induct (s : Scan) (pre ws : List Worker) (h : P s (pre ++ ws)) :
    P (finish f request k s ws).1 (pre ++ (finish f request k s ws).2) := by
  induction ws generalizing s pre with
  | nil => exact h
  | cons w ws ih =>
    have hw := steps_induct hstep w.pending.length s pre w ws h
    have := ih _ (pre ++ [(Worker.steps f request k w.pending.length s w).2]) (by simpa using hw)
    simpa [finish] using this

/-- What one step keeps, the step of the worker at a place keeps. -/
theorem stepAt_induct (place : Nat) (s : Scan) (pre ws : List Worker) (h : P s (pre ++ ws)) :
    P (stepAt f request k s ws place).1 (pre ++ (stepAt f request k s ws place).2) := by
  induction ws generalizing pre place with
  | nil => exact h
  | cons w ws ih =>
    cases place with
    | zero => exact hstep s pre w ws h
    | succ place =>
      have := ih place (pre ++ [w]) (by simpa using h)
      simpa [stepAt] using this

/-- **What one step of one worker keeps**, a scan keeps, whatever the schedule.

**Proof sketch.** Induction on the schedule; then the workers finish one after another. -/
theorem run_induct (schedule : List Nat) (s : Scan) (ws : List Worker) (h : P s ws) :
    P (run f request k schedule s ws).1 (run f request k schedule s ws).2 := by
  induction schedule generalizing s ws with
  | nil => exact finish_induct hstep s [] ws h
  | cons place schedule ih => exact ih _ _ (stepAt_induct hstep place s [] ws h)

end Induct

end Scan

/-! ## What the workers hold -/

/-- What the workers hold is what one holds and what the others hold. -/
theorem heldBy_perm (pre : List Worker) (w : Worker) (post : List Worker) :
    (heldBy (pre ++ w :: post)).Perm (w.held ++ heldBy (pre ++ post)) := by
  simp only [heldBy, List.flatMap_append, List.flatMap_cons]
  exact List.perm_append_comm_assoc _ _ _

/-- What the workers have still to scan is what one has and what the others have. -/
theorem pendingOf_perm (pre : List Worker) (w : Worker) (post : List Worker) :
    (pendingOf (pre ++ w :: post)).Perm (w.pending ++ pendingOf (pre ++ post)) := by
  simp only [pendingOf, List.flatMap_append, List.flatMap_cons]
  exact List.perm_append_comm_assoc _ _ _

/-- All of several workers are like that exactly if one and the others are. -/
theorem forall_mem_middle {p : Worker → Prop} {pre : List Worker} {w : Worker}
    {post : List Worker} :
    (∀ v ∈ pre ++ w :: post, p v) ↔ p w ∧ ∀ v ∈ pre ++ post, p v := by
  simp only [List.forall_mem_append, List.forall_mem_cons]
  exact and_left_comm

namespace Scan

/-- The workers hold different neurons, and have others still to scan.  The scan has reserved
just those that are held; each of them waited before.  Every worker has added up what it holds,
and holds no more than the budget allows. -/
structure Tracks (f : Frontier) (budget k : Nat) (s : Scan) (ws : List Worker) : Prop where
  status : ∀ i : Nat, s.status[i]? = f.status[i]?.map fun st =>
    if i ∈ (heldBy ws).map Prod.fst then st.reserve k else st
  nodup : ((heldBy ws).map Prod.fst ++ pendingOf ws).Nodup
  pending_lt : ∀ i ∈ pendingOf ws, i < f.net.neuronCount
  waiting : ∀ e ∈ heldBy ws, ∃ c, f.status[e.1]? = some (.waiting c)
  cost : ∀ e ∈ heldBy ws, e.2 = f.net.bytesOf e.1
  bytes : ∀ w ∈ ws, w.bytes = (w.held.map Prod.snd).sum ∧ w.bytes ≤ budget
  unfailed : ∀ w ∈ ws, w.failed = false
  cutoff : ∀ c ∈ s.cutoff, c < f.net.neuronCount

variable {f : Frontier} {request : Request} {budget k : Nat} {s : Scan}

/-- A candidate waits. -/
theorem waiting_of_isCandidate {strict : Bool} {i : Nat}
    (h : f.isCandidate strict k s i = true) : ∃ c, s.status[i]? = some (.waiting c) := by
  unfold Frontier.isCandidate statusAt at h
  cases hs : s.status[i]? with
  | none => simp [hs] at h
  | some st => cases st <;> simp_all

/-- A neuron that waits in the scan is not held, and waited before. -/
theorem Tracks.waiting_before {ws : List Worker} (h : Tracks f budget k s ws) {i c : Nat}
    (hi : s.status[i]? = some (.waiting c)) :
    i ∉ (heldBy ws).map Prod.fst ∧ f.status[i]? = some (.waiting c) := by
  rw [h.status, Option.map_eq_some_iff] at hi
  obtain ⟨st, hst, hi⟩ := hi
  split at hi
  next hheld => cases st <;> simp [Status.reserve] at hi
  next hheld => exact ⟨hheld, hi ▸ hst⟩

/-- The scan with a cutoff that is no higher than the neuron `i`. -/
def lower (s : Scan) (i : Nat) : Scan :=
  { s with cutoff := match s.cutoff with
    | none => some i
    | some cutoff => some (min cutoff i) }

/-- A lowered cutoff is the neuron itself or the cutoff before. -/
theorem eq_or_mem_of_mem_lower {i c : Nat} (h : c ∈ (s.lower i).cutoff) : c = i ∨ c ∈ s.cutoff := by
  unfold lower at h
  cases hs : s.cutoff with
  | none => simp_all
  | some c' =>
    simp only [hs, Option.mem_def, Option.some.injEq] at h ⊢
    omega

/-- A lowered cutoff is no higher than the neuron and the cutoff before. -/
theorem exists_mem_lower_le (s : Scan) (i : Nat) :
    ∃ c ∈ (s.lower i).cutoff, c ≤ i ∧ ∀ c' ∈ s.cutoff, c ≤ c' := by
  unfold lower
  cases hs : s.cutoff with
  | none => exact ⟨i, rfl, le_rfl, by simp⟩
  | some c' => exact ⟨min c' i, rfl, Nat.min_le_right _ _, by simp⟩

/-- A candidate that does not fit is reserved and given back: only the cutoff changes. -/
theorem reject_reserve {i c : Nat} (hi : s.status[i]? = some (.waiting c)) :
    (s.reserve k i).reject i = s.lower i := by
  obtain ⟨hlt, hi⟩ := Array.getElem?_eq_some_iff.mp hi
  have hstatus : (s.status.modify i (.reserve k)).modify i .release = s.status := by
    refine Array.ext (by simp) fun j hj hj' => ?_
    rw [Array.getElem_modify, Array.getElem_modify]
    split
    next hij =>
      subst hij
      rw [hi]
      rfl
    next hij => rfl
  cases hs : s.cutoff with
  | none => simp only [reject, reserve, hstatus, lower, hs]
  | some c' => simp only [reject, reserve, hstatus, lower, hs]

/-- A worker that scans less, and else stays as it is, keeps the invariant. -/
theorem Tracks.shrink {pre post : List Worker} {w w' : Worker}
    (h : Tracks f budget k s (pre ++ w :: post)) (hheld : w'.held = w.held)
    (hbytes : w'.bytes = w.bytes) (hfailed : w'.failed = w.failed)
    (hpending : w'.pending.Sublist w.pending) : Tracks f budget k s (pre ++ w' :: post) := by
  have hsame : heldBy (pre ++ w' :: post) = heldBy (pre ++ w :: post) := by
    simp [heldBy, hheld]
  have hsub : (pendingOf (pre ++ w' :: post)).Sublist (pendingOf (pre ++ w :: post)) := by
    simp only [pendingOf, List.flatMap_append, List.flatMap_cons]
    exact (List.Sublist.refl _).append (hpending.append (List.Sublist.refl _))
  obtain ⟨hw, hothers⟩ := forall_mem_middle.mp h.bytes
  obtain ⟨hwf, hothersf⟩ := forall_mem_middle.mp h.unfailed
  refine ⟨hsame ▸ h.status, ?_, fun i hi => h.pending_lt i (hsub.subset hi),
    hsame ▸ h.waiting, hsame ▸ h.cost, ?_, ?_, h.cutoff⟩
  · rw [hsame]
    exact h.nodup.sublist ((List.Sublist.refl _).append hsub)
  · exact forall_mem_middle.mpr ⟨by rwa [hheld, hbytes], hothers⟩
  · exact forall_mem_middle.mpr ⟨by rwa [hfailed], hothersf⟩

/-- A lowered cutoff keeps the invariant. -/
theorem Tracks.lower {ws : List Worker} (h : Tracks f budget k s ws) {i : Nat}
    (hi : i < f.net.neuronCount) : Tracks f budget k (s.lower i) ws := by
  refine { h with cutoff := fun c hc => ?_ }
  rcases eq_or_mem_of_mem_lower hc with rfl | hc
  · exact hi
  · exact h.cutoff c hc

/-- A worker that takes the next neuron keeps the invariant. -/
theorem Tracks.take {pre post : List Worker} {w : Worker} {i : Nat} {rest : List Nat}
    (h : Tracks f budget k s (pre ++ w :: post)) (hp : w.pending = i :: rest) {c : Nat}
    (hi : s.status[i]? = some (.waiting c)) (hfit : w.bytes + f.net.bytesOf i ≤ budget) :
    Tracks f budget k (s.reserve k i) (pre ++ { w with
      pending := rest
      held := (i, f.net.bytesOf i) :: w.held
      bytes := w.bytes + f.net.bytesOf i } :: post) := by
  set w' : Worker := { w with
    pending := rest
    held := (i, f.net.bytesOf i) :: w.held
    bytes := w.bytes + f.net.bytesOf i } with hw'
  obtain ⟨hfree, hbefore⟩ := h.waiting_before hi
  have hheld : (heldBy (pre ++ w' :: post)).Perm
      ((i, f.net.bytesOf i) :: heldBy (pre ++ w :: post)) :=
    (heldBy_perm pre w' post).trans ((heldBy_perm pre w post).symm.cons _)
  have hpend : (pendingOf (pre ++ w :: post)).Perm (i :: pendingOf (pre ++ w' :: post)) := by
    refine (pendingOf_perm pre w post).trans ?_
    rw [hp]
    exact (pendingOf_perm pre w' post).symm.cons _
  have hids := hheld.map Prod.fst
  have hmem : ∀ j, j ∈ (heldBy (pre ++ w' :: post)).map Prod.fst ↔
      j = i ∨ j ∈ (heldBy (pre ++ w :: post)).map Prod.fst := fun j => by
    rw [hids.mem_iff, List.map_cons, List.mem_cons]
  obtain ⟨hw, hothers⟩ := forall_mem_middle.mp h.bytes
  obtain ⟨hwf, hothersf⟩ := forall_mem_middle.mp h.unfailed
  refine ⟨fun j => ?_, ?_, fun j hj => ?_, ?_, ?_, ?_, ?_, h.cutoff⟩
  · simp only [reserve, Array.getElem?_modify, h.status, hmem]
    by_cases hij : i = j
    · subst hij
      simp [hbefore, hfree]
    · have hji : j ≠ i := Ne.symm hij
      simp only [hij, hji, if_false, false_or]
  · have hperm : ((heldBy (pre ++ w' :: post)).map Prod.fst ++ pendingOf (pre ++ w' :: post)).Perm
        ((heldBy (pre ++ w :: post)).map Prod.fst ++ pendingOf (pre ++ w :: post)) :=
      (hids.append_right _).trans (List.perm_middle.symm.trans (hpend.symm.append_left _))
    exact hperm.nodup_iff.mpr h.nodup
  · exact h.pending_lt j (hpend.mem_iff.mpr (List.mem_cons_of_mem _ hj))
  · intro e he
    rcases List.mem_cons.mp (hheld.mem_iff.mp he) with rfl | he
    · exact ⟨c, hbefore⟩
    · exact h.waiting e he
  · intro e he
    rcases List.mem_cons.mp (hheld.mem_iff.mp he) with rfl | he
    · rfl
    · exact h.cost e he
  · refine forall_mem_middle.mpr ⟨⟨?_, hfit⟩, hothers⟩
    rw [hw', List.map_cons, List.sum_cons, ← hw.1]
    exact Nat.add_comm _ _
  · exact forall_mem_middle.mpr ⟨hwf, hothersf⟩

/-- **One step keeps the invariant.** -/
theorem Tracks.step (hcost : f.net.CostsFit) {pre post : List Worker} {w : Worker}
    (h : Tracks f request.budget k s (pre ++ w :: post)) :
    Tracks f request.budget k (Worker.step f request k s w).1
      (pre ++ (Worker.step f request k s w).2 :: post) := by
  have hlt : ∀ i ∈ w.pending, i < f.net.neuronCount := fun i hi =>
    h.pending_lt i ((pendingOf_perm pre w post).mem_iff.mpr (List.mem_append_left _ hi))
  have hspec : Worker.Step f request k s w _ _ := Worker.step_spec hcost hlt
  generalize (Worker.step f request k s w).1 = s' at hspec ⊢
  generalize (Worker.step f request k s w).2 = w' at hspec ⊢
  cases hspec with
  | idle hp => exact h
  | stop hp hb => exact h.shrink rfl rfl rfl (List.nil_sublist _)
  | pass hp hc => exact h.shrink rfl rfl rfl (by rw [hp]; exact List.sublist_cons_self _ _)
  | take hp hc hfit =>
    obtain ⟨c, hi⟩ := waiting_of_isCandidate hc
    exact h.take hp hi hfit
  | refuse hp hc hbig =>
    obtain ⟨c, hi⟩ := waiting_of_isCandidate hc
    rw [reject_reserve hi]
    have hhalt : Tracks f request.budget k s (pre ++ w.halt :: post) :=
      h.shrink rfl rfl rfl (List.nil_sublist _)
    exact hhalt.lower (hlt _ (hp ▸ List.mem_cons_self))

end Scan

/-! ## The scan of a collection -/

/-- A worker that strides over the neurons comes to those of its own remainder. -/
theorem Worker.mem_pending_start {count first stride i : Nat} (hstride : 0 < stride)
    (hfirst : first < stride) :
    i ∈ (Worker.start count first stride).pending ↔ i < count ∧ i % stride = first := by
  have hlen : ∀ m, m < (count - first + stride - 1) / stride ↔ first + stride * m < count := by
    intro m
    rw [Nat.lt_iff_add_one_le, Nat.le_div_iff_mul_le hstride, Nat.succ_mul, Nat.mul_comm m]
    omega
  simp only [Worker.start, List.mem_range', hlen]
  constructor
  · rintro ⟨m, hm, rfl⟩
    exact ⟨hm, by rw [Nat.add_mul_mod_self_left, Nat.mod_eq_of_lt hfirst]⟩
  · rintro ⟨hi, rfl⟩
    have hdiv := Nat.mod_add_div i stride
    exact ⟨i / stride, by rw [hdiv]; exact hi, hdiv.symm⟩

namespace Frontier

/-- The workers of a collection, before their first steps. -/
def workers (f : Frontier) (threads : Nat) : List Worker :=
  (List.range (f.workerCount threads)).map fun first =>
    Worker.start f.neuronCount first (f.workerCount threads)

/-- The scan of a collection: what its workers share at the end, and what they hold. -/
def scan (f : Frontier) (schedule : List Nat) (request : Request) : Scan × List Worker :=
  Scan.run f request f.nextIteration schedule ⟨f.status, none⟩ (f.workers request.threads)

variable {f : Frontier}

/-- A collection has a worker. -/
theorem workerCount_pos (f : Frontier) (threads : Nat) : 0 < f.workerCount threads :=
  Nat.lt_of_lt_of_le Nat.one_pos (Nat.le_max_left _ _)

/-- The workers together scan all neurons. -/
theorem mem_pendingOf_workers {threads i : Nat} :
    i ∈ pendingOf (f.workers threads) ↔ i < f.neuronCount := by
  have hpos := f.workerCount_pos threads
  simp only [pendingOf, workers, List.mem_flatMap, List.mem_map, List.mem_range]
  constructor
  · rintro ⟨_, ⟨first, hfirst, rfl⟩, hi⟩
    exact ((Worker.mem_pending_start hpos hfirst).mp hi).1
  · intro hi
    have hmod := Nat.mod_lt i hpos
    exact ⟨_, ⟨_, hmod, rfl⟩, (Worker.mem_pending_start hpos hmod).mpr ⟨hi, rfl⟩⟩

/-- No neuron is scanned twice. -/
theorem nodup_pendingOf_workers (f : Frontier) (threads : Nat) :
    (pendingOf (f.workers threads)).Nodup := by
  have hpos := f.workerCount_pos threads
  rw [pendingOf, workers, List.flatMap_map, List.nodup_flatMap]
  refine ⟨fun first _ => List.nodup_range' _ hpos, ?_⟩
  refine List.Pairwise.imp_of_mem ?_ List.nodup_range
  intro a b ha hb hab i hia hib
  rw [Worker.mem_pending_start hpos (List.mem_range.mp ha)] at hia
  rw [Worker.mem_pending_start hpos (List.mem_range.mp hb)] at hib
  exact hab (hia.2.symm.trans hib.2)

/-- In the beginning the workers hold nothing. -/
theorem heldBy_workers (f : Frontier) (threads : Nat) : heldBy (f.workers threads) = [] := by
  simp [heldBy, workers, Worker.start]

/-- The invariant holds before the first step. -/
theorem tracks_start (hsize : f.status.size = f.net.neuronCount) (threads budget k : Nat) :
    Scan.Tracks f budget k ⟨f.status, none⟩ (f.workers threads) := by
  have hheld := f.heldBy_workers threads
  have hstart : ∀ w ∈ f.workers threads, w.held = [] ∧ w.bytes = 0 ∧ w.failed = false := by
    intro w hw
    obtain ⟨first, -, rfl⟩ := List.mem_map.mp hw
    exact ⟨rfl, rfl, rfl⟩
  refine ⟨by simp [hheld], by simpa [hheld] using f.nodup_pendingOf_workers threads,
    fun i hi => ?_, by simp [hheld], by simp [hheld], fun w hw => ?_, fun w hw => (hstart w hw).2.2,
    by simp⟩
  · exact hsize ▸ mem_pendingOf_workers.mp hi
  · obtain ⟨hnil, hzero, -⟩ := hstart w hw
    simp [hnil, hzero]

/-- **The invariant holds** after the scan of a collection. -/
theorem tracks_scan (hsize : f.status.size = f.net.neuronCount) (hcost : f.net.CostsFit)
    (schedule : List Nat) (request : Request) :
    Scan.Tracks f request.budget f.nextIteration (f.scan schedule request).1
      (f.scan schedule request).2 :=
  Scan.run_induct (P := Scan.Tracks f request.budget f.nextIteration)
    (fun _ _ _ _ h => h.step hcost) schedule _ _ (tracks_start hsize _ _ _)

end Frontier

end NeuralPlan
