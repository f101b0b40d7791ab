import NeuralPlan.Proofs.Frontier.Strict

/-!
# Stalled frontiers

If no neuron is ready, a strict collection keeps nothing.  Another one keeps nothing either: the
first neuron that it could take would read only processed neurons, and so be ready.

## Main definitions

* `Frontier.unprocessed` — the neurons that are not processed.

## Main results

* `Frontier.Sound.isCandidate_relaxed` — the candidates of a relaxed scan.
* `Frontier.Sound.isCandidate_of_ready_eq_nil` — a stalled frontier has no candidates.
* `Frontier.Sound.collectBy_stalled` — any collection from a stalled frontier keeps nothing.
* `Frontier.Sound.collectBy_relaxed` — after an empty strict collection, any other one is empty.
-/

set_option relaxedAutoImplicit false
set_option autoImplicit false

namespace NeuralPlan.Frontier

variable {f : Frontier} {budget k : Nat} {s : Scan} {ws : List Worker} {i j : Nat}

/-! ## The candidates of relaxed scans -/

/-- The neurons that are not processed, in ascending order. -/
def unprocessed (f : Frontier) : List Nat :=
  (List.range f.net.neuronCount).filter fun i => !f.isDone i

/-- The list holds the neurons that are not processed. -/
theorem mem_unprocessed : i ∈ f.unprocessed ↔ i < f.net.neuronCount ∧ f.isDone i = false := by
  simp [unprocessed]

/-- The neurons that are not processed are in ascending order. -/
theorem sorted_unprocessed (f : Frontier) : f.unprocessed.Pairwise (· < ·) :=
  List.pairwise_lt_range.filter _

/-- As long as nothing is reserved, the neurons that are not processed wait. -/
theorem Sound.mem_unprocessed_iff (hf : f.Sound) (hempty : f.subset = []) :
    i ∈ f.unprocessed ↔ ∃ c, f.status[i]? = some (.waiting c) := by
  rw [mem_unprocessed, ← hf.size]
  constructor
  · rintro ⟨hlt, hopen⟩
    have hget : f.status[i]? = some f.status[i] := Array.getElem?_eq_getElem hlt
    cases hs : f.status[i] with
    | waiting c => exact ⟨c, hs ▸ hget⟩
    | reserved l c =>
      have hmem := (hf.reserved i).mpr ⟨l, c, hs ▸ hget⟩
      simp [hempty] at hmem
    | processed => simp [isDone, hget, hs] at hopen
  · rintro ⟨c, hc⟩
    exact ⟨(Array.getElem?_eq_some_iff.mp hc).1, by simp [isDone, hc]⟩

/-- What a relaxed scan counts as taken is processed before the scan, or held. -/
theorem Sound.taken_iff (hf : f.Sound) (hempty : f.subset = []) (h : Scan.Tracks f budget k s ws)
    (hj : j < f.net.neuronCount) :
    (s.statusAt j == .processed || (s.statusAt j).isReservedIn k) = true ↔
      f.isDone j = true ∨ j ∈ (heldBy ws).map Prod.fst := by
  have hlt : j < f.status.size := hf.size.symm ▸ hj
  have hget : f.status[j]? = some f.status[j] := Array.getElem?_eq_getElem hlt
  have hscan : s.statusAt j =
      if j ∈ (heldBy ws).map Prod.fst then f.status[j].reserve k else f.status[j] := by
    rw [Scan.statusAt, h.status, hget]
    rfl
  rw [hscan, isDone, hget]
  cases hs : f.status[j] with
  | waiting c =>
    by_cases hheld : j ∈ (heldBy ws).map Prod.fst
    · simp [hheld, Status.reserve, Status.isReservedIn]
    · simp [hheld, Status.isReservedIn]
  | reserved l c =>
    have hmem := (hf.reserved j).mpr ⟨l, c, hs ▸ hget⟩
    simp [hempty] at hmem
  | processed => simp [Status.reserve]

/-- **The candidates of a relaxed scan** are the neurons that are neither processed nor held while
all that they read is one or the other. -/
theorem Sound.isCandidate_relaxed (hf : f.Sound) (hempty : f.subset = [])
    (h : Scan.Tracks f budget k s ws) :
    f.isCandidate false k s i = true ↔
      i ∈ f.unprocessed ∧ i ∉ (heldBy ws).map Prod.fst ∧
        ∀ j ∈ f.net.inputsOf i, f.isDone j = true ∨ j ∈ (heldBy ws).map Prod.fst := by
  have htaken := fun j hj => hf.taken_iff hempty h (hf.reads_lt i j hj)
  constructor
  · intro hcand
    obtain ⟨c, hc⟩ := Scan.waiting_of_isCandidate hcand
    obtain ⟨hfree, hbefore⟩ := h.waiting_before hc
    refine ⟨(hf.mem_unprocessed_iff hempty).mpr ⟨c, hbefore⟩, hfree, fun j hj => ?_⟩
    have hstate : s.statusAt i = .waiting c := by rw [Scan.statusAt, hc]; rfl
    simp only [isCandidate, hstate, Bool.or_eq_true, Bool.not_false, Bool.true_and, hf.reads]
      at hcand
    rcases hcand with hfull | hall
    · rw [beq_iff_eq, hf.counted i _ c hbefore rfl, List.countP_eq_length] at hfull
      exact .inl (hfull j hj)
    · rw [List.all_eq_true] at hall
      exact (htaken j hj).mp (hall j hj)
  · rintro ⟨hopen, hfree, hinputs⟩
    obtain ⟨c, hc⟩ := (hf.mem_unprocessed_iff hempty).mp hopen
    have hstate : s.statusAt i = .waiting c := by
      rw [Scan.statusAt, h.status, hc]
      simp [hfree]
    have hall : (f.readsAt i).all (fun j =>
        s.statusAt j == .processed || (s.statusAt j).isReservedIn k) = true := by
      rw [hf.reads, List.all_eq_true]
      exact fun j hj => (htaken j hj).mpr (hinputs j hj)
    simp [isCandidate, hstate, hall]

/-- A candidate of a strict scan is one of a relaxed scan. -/
theorem isCandidate_mono {strict : Bool} (h : f.isCandidate strict k s i = true) :
    f.isCandidate false k s i = true := by
  obtain ⟨c, hc⟩ := Scan.waiting_of_isCandidate h
  have hstate : s.statusAt i = .waiting c := by
    rw [Scan.statusAt, hc]
    rfl
  simp only [isCandidate, hstate, Bool.or_eq_true, Bool.and_eq_true] at h ⊢
  exact h.imp_right fun hall => ⟨rfl, hall.2⟩

/-! ## Stalled frontiers -/

/-- A stalled frontier has no candidates, as long as nothing is reserved.

**Proof sketch.** A candidate would be one of a relaxed scan, in which nothing is held yet.  So all
that it reads would be processed, and it would be ready. -/
theorem Sound.isCandidate_of_ready_eq_nil (hf : f.Sound) (hempty : f.subset = [])
    (hready : f.ready = []) (strict : Bool) (k i : Nat) :
    f.isCandidate strict k ⟨f.status, none⟩ i = false := by
  rw [Bool.eq_false_iff]
  intro hcand
  have hstart := tracks_start hf.size 1 0 k
  obtain ⟨hopen, -, hinputs⟩ :=
    (hf.isCandidate_relaxed hempty hstart).mp (isCandidate_mono hcand)
  rw [f.heldBy_workers] at hinputs
  have hmem := hf.mem_ready.mpr
    (isReady_iff.mpr ⟨(hf.mem_unprocessed_iff hempty).mp hopen, by simpa using hinputs⟩)
  simp [hready] at hmem

/-- A step that meets no candidate reserves nothing. -/
theorem step_of_no_candidate {request : Request} {k : Nat} {s : Scan}
    (hnone : ∀ i, f.isCandidate request.strict k s i = false) (w : Worker) :
    (Worker.step f request k s w).1 = s ∧ (Worker.step f request k s w).2.held = w.held := by
  unfold Worker.step
  split
  next => exact ⟨rfl, rfl⟩
  next i rest _ =>
    simp only [hnone i, Bool.false_eq_true, if_false]
    split
    · exact ⟨rfl, rfl⟩
    · exact ⟨rfl, rfl⟩

/-- **Any collection from a stalled frontier** keeps nothing, strict or not, whatever the workers
do. -/
theorem Sound.collectBy_stalled (hf : f.Sound) (hcost : f.net.CostsFit) (hempty : f.subset = [])
    (hready : f.ready = []) (schedule : List Nat) (request : Request) :
    f.collectBy schedule request = (f.withSubset [], .ok []) := by
  have hscan : (f.scan schedule request).1 = ⟨f.status, none⟩ ∧
      heldBy (f.scan schedule request).2 = [] := by
    refine Scan.run_induct (P := fun s ws => s = ⟨f.status, none⟩ ∧ heldBy ws = [])
      (fun s pre w post h => ?_) schedule _ _ ⟨rfl, f.heldBy_workers _⟩
    obtain ⟨rfl, hheld⟩ := h
    obtain ⟨hsame, hkept⟩ := step_of_no_candidate
      (hf.isCandidate_of_ready_eq_nil hempty hready request.strict f.nextIteration) w
    refine ⟨hsame, ?_⟩
    simpa [heldBy, hkept] using hheld
  obtain ⟨hs, hheld⟩ := hscan
  have hids : heldIds (f.scan schedule request).2 = [] := by
    refine List.eq_nil_iff_forall_not_mem.mpr fun i hi => ?_
    rw [mem_heldIds (tracks_scan hf.size hcost schedule request), hheld] at hi
    simp at hi
  rw [collectBy_eq hf hcost hempty, keptBy, hids, hs]
  rfl

/-- A strict collection that keeps nothing and reports nothing found no neuron ready. -/
theorem Sound.ready_eq_nil (hf : f.Sound) (hcost : f.net.CostsFit) (hempty : f.subset = [])
    {schedule : List Nat} {request : Request} (hstrict : request.strict = true)
    (hanswer : (f.collectBy schedule request).2 = .ok []) : f.ready = [] := by
  cases hready : f.ready with
  | nil => rfl
  | cons i rest =>
    by_cases hfit : f.net.bytesOf i ≤ request.budget
    · rw [hf.collectBy_strict_of_le hcost hempty schedule hstrict (by simpa [hready] using hfit),
        hready] at hanswer
      have hbig := affordable_cons_eq_nil_iff.mp (Except.ok.inj hanswer)
      omega
    · rw [hf.collectBy_strict_of_lt hcost hempty schedule hstrict (by simp [hready])
        (Nat.lt_of_not_le hfit)] at hanswer
      cases hanswer

/-- **After an empty strict collection** another one is empty too, whatever it is asked for and
whatever its workers do.

**Proof sketch.** The strict collection has found no neuron ready, and has only taken a number.  The
first neuron that another collection could take would read processed neurons only, for it reads none
that is reserved, and so would be ready. -/
theorem Sound.collectBy_relaxed (hf : f.Sound) (hcost : f.net.CostsFit) (hempty : f.subset = [])
    {schedule : List Nat} {request : Request} (hstrict : request.strict = true) {g : Frontier}
    (hanswer : f.collectBy schedule request = (g, .ok [])) (schedule' : List Nat)
    (request' : Request) : ∃ h, g.collectBy schedule' request' = (h, .ok []) := by
  have hready := hf.ready_eq_nil hcost hempty hstrict (congrArg Prod.snd hanswer)
  rw [hf.collectBy_stalled hcost hempty hready] at hanswer
  obtain rfl : f.withSubset [] = g := congrArg Prod.fst hanswer
  have hsound : (f.withSubset []).Sound := hf.withSubset hempty List.Pairwise.nil (by simp)
  have hready' : (f.withSubset []).ready = [] := by
    rw [withSubset_nil hempty]
    exact hready
  exact ⟨_, hsound.collectBy_stalled hcost rfl hready' schedule' request'⟩

end NeuralPlan.Frontier
