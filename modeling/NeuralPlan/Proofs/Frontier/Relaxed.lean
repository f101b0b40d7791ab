import NeuralPlan.Proofs.Frontier.Rounds
import NeuralPlan.Proofs.Frontier.Stall
import NeuralPlan.Proofs.Values

/-!
# Relaxed collections by one worker

A relaxed collection also takes neurons that read other neurons of the same collection.  If it has
only one worker, then this one goes through the neurons in ascending order, and a neuron that it
takes reads processed neurons and neurons that it has taken before.  So the collected neurons can be
processed in their order.  If all neurons of the net read lower-numbered ones only, the worker takes
every neuron that it comes to, until the budget ends.

## Main definitions

* `Scan.Sweeps` — the invariant of a relaxed scan by one worker.

## Main results

* `Scan.Sweeps.step`, `Frontier.Sound.exists_sweep` — the invariant of one step and of a scan.
* `Frontier.Sound.confirmAll_lone`, `Frontier.Sound.collectBy_lone` — what such a collection keeps.
* `Frontier.lone_relaxed_collection` — what a relaxed collection by one worker answers.
-/

set_option relaxedAutoImplicit false
set_option autoImplicit false

namespace NeuralPlan

/-! ## The invariant of a relaxed scan by one worker -/

namespace Scan

/-- The worker has gone through the neurons in ascending order.  What a held neuron reads is
processed, or held as well and below it.  At the cutoff, to which the budget does not reach from the
held neurons, the worker has stopped.  If neurons read lower-numbered ones only, then each that is
not processed is held, still to be scanned, or cut off. -/
structure Sweeps (f : Frontier) (budget : Nat) (s : Scan) (w : Worker) : Prop where
  ascending : w.pending.Pairwise (· < ·)
  below : ∀ e ∈ w.held, ∀ i ∈ w.pending, e.1 < i
  closed : ∀ e ∈ w.held, ∀ j ∈ f.net.inputsOf e.1,
    f.isDone j = true ∨ j ∈ w.held.map Prod.fst ∧ j < e.1
  ended : ∀ c ∈ s.cutoff, w.pending = [] ∧ c ∈ f.unprocessed ∧ (∀ e ∈ w.held, e.1 < c) ∧
    budget < w.bytes + f.net.bytesOf c
  covered : f.net.Feedforward → ∀ i ∈ f.unprocessed,
    i ∈ w.held.map Prod.fst ∨ i ∈ w.pending ∨ ∃ c ∈ s.cutoff, c ≤ i

variable {f : Frontier} {request : Request} {budget k : Nat} {s : Scan} {w : Worker} {i : Nat}
  {rest : List Nat}

/-- As long as the worker has neurons to scan, there is no cutoff. -/
theorem Sweeps.cutoff_eq_none (h : Sweeps f budget s w) (hp : w.pending = i :: rest) :
    s.cutoff = none := by
  refine Option.eq_none_iff_forall_not_mem.mpr fun c hc => ?_
  have hnil := (h.ended c hc).1
  simp [hp] at hnil

/-- In a net whose neurons read lower-numbered ones only, what the next neuron reads is processed or
held. -/
theorem Sweeps.inputs_taken (hf : f.Sound) (hbelow : f.net.Feedforward) (h : Sweeps f budget s w)
    (hp : w.pending = i :: rest) {j : Nat} (hj : j ∈ f.net.inputsOf i) :
    f.isDone j = true ∨ j ∈ w.held.map Prod.fst := by
  have hji : j < i := hbelow i j hj
  cases hdone : f.isDone j with
  | true => exact .inl rfl
  | false =>
    have hopen := Frontier.mem_unprocessed.mpr ⟨hf.reads_lt i j hj, hdone⟩
    rcases h.covered hbelow j hopen with hheld | hpending | ⟨c, hc, -⟩
    · exact .inr hheld
    · -- The next neuron is the lowest that is still to be scanned.
      have hsorted := h.ascending
      rw [hp] at hpending hsorted
      rcases List.mem_cons.mp hpending with rfl | hpending
      · omega
      · have hij := (List.pairwise_cons.mp hsorted).1 j hpending
        omega
    · simp [h.cutoff_eq_none hp] at hc

/-- A worker that passes a neuron which is no candidate keeps the invariant. -/
theorem Sweeps.pass (h : Sweeps f budget s w) (hp : w.pending = i :: rest)
    (hskip : f.net.Feedforward → i ∈ f.unprocessed → i ∈ w.held.map Prod.fst) :
    Sweeps f budget s { w with pending := rest } := by
  have hsorted := h.ascending
  have hbelow := h.below
  rw [hp] at hsorted hbelow
  refine ⟨(List.pairwise_cons.mp hsorted).2,
    fun e he j hj => hbelow e he j (List.mem_cons_of_mem _ hj), h.closed, fun c hc => ?_,
    fun hreads j hj => ?_⟩
  · simp [h.cutoff_eq_none hp] at hc
  · have hcov := h.covered hreads j hj
    rw [hp, List.mem_cons] at hcov
    rcases hcov with hheld | (rfl | hpending) | hcut
    · exact .inl hheld
    · exact .inl (hskip hreads hj)
    · exact .inr (.inl hpending)
    · exact .inr (.inr hcut)

/-- A worker that takes the next neuron, whose inputs are taken, keeps the invariant. -/
theorem Sweeps.take (h : Sweeps f budget s w) (hp : w.pending = i :: rest)
    (hinputs : ∀ j ∈ f.net.inputsOf i, f.isDone j = true ∨ j ∈ w.held.map Prod.fst) (k : Nat) :
    Sweeps f budget (s.reserve k i) { w with
      pending := rest
      held := (i, f.net.bytesOf i) :: w.held
      bytes := w.bytes + f.net.bytesOf i } := by
  have hsorted := h.ascending
  have hbelow := h.below
  rw [hp] at hsorted hbelow
  obtain ⟨hnext, hrest⟩ := List.pairwise_cons.mp hsorted
  have hheld : ∀ j ∈ w.held.map Prod.fst, j < i := by
    intro j hj
    obtain ⟨e, he, rfl⟩ := List.mem_map.mp hj
    exact hbelow e he i List.mem_cons_self
  refine ⟨hrest, ?_, ?_, fun c hc => ?_, fun hreads j hj => ?_⟩
  · intro e he j hj
    rcases List.mem_cons.mp he with rfl | he
    · exact hnext j hj
    · exact hbelow e he j (List.mem_cons_of_mem _ hj)
  · intro e he j hj
    rw [List.map_cons, List.mem_cons]
    rcases List.mem_cons.mp he with rfl | he
    · exact (hinputs j hj).imp_right fun hmem => ⟨.inr hmem, hheld j hmem⟩
    · exact (h.closed e he j hj).imp_right fun hmem => ⟨.inr hmem.1, hmem.2⟩
  · have hnone : (s.reserve k i).cutoff = none := h.cutoff_eq_none hp
    simp [hnone] at hc
  · have hcov := h.covered hreads j hj
    rw [hp, List.mem_cons] at hcov
    rw [List.map_cons, List.mem_cons]
    rcases hcov with hmem | (rfl | hpending) | hcut
    · exact .inl (.inr hmem)
    · exact .inl (.inl rfl)
    · exact .inr (.inl hpending)
    · exact .inr (.inr hcut)

/-- A worker that stops at a neuron which does not fit keeps the invariant. -/
theorem Sweeps.refuse (h : Sweeps f budget s w) (hp : w.pending = i :: rest)
    (hopen : i ∈ f.unprocessed) (hbig : budget < w.bytes + f.net.bytesOf i) :
    Sweeps f budget (s.lower i) w.halt := by
  have hnone := h.cutoff_eq_none hp
  have hcutoff : (s.lower i).cutoff = some i := by simp [lower, hnone]
  refine ⟨List.Pairwise.nil, fun _ _ _ hj => by simp [Worker.halt] at hj, h.closed, fun c hc => ?_,
    fun hreads j hj => ?_⟩
  · obtain rfl : i = c := by simpa [hcutoff] using hc
    exact ⟨rfl, hopen, fun e he => h.below e he i (by simp [hp]), hbig⟩
  · rcases h.covered hreads j hj with hheld | hpending | ⟨c, hc, -⟩
    · exact .inl hheld
    · have hsorted := h.ascending
      rw [hp] at hpending hsorted
      refine .inr (.inr ⟨i, hcutoff, ?_⟩)
      rcases List.mem_cons.mp hpending with rfl | hpending
      · exact le_rfl
      · exact ((List.pairwise_cons.mp hsorted).1 j hpending).le
    · simp [hnone] at hc

/-- **One step keeps the invariant.** -/
theorem Sweeps.step (hf : f.Sound) (hcost : f.net.CostsFit) (hempty : f.subset = [])
    (hrelaxed : request.strict = false) (htracks : Tracks f request.budget k s [w])
    (h : Sweeps f request.budget s w) :
    Sweeps f request.budget (Worker.step f request k s w).1 (Worker.step f request k s w).2 := by
  have hlt : ∀ i ∈ w.pending, i < f.net.neuronCount := fun i hi =>
    htracks.pending_lt i (by simpa [pendingOf] using hi)
  have hheld : heldBy [w] = w.held := by simp [heldBy]
  have hfree : ∀ i ∈ w.pending, i ∉ w.held.map Prod.fst := by
    intro i hi hmem
    obtain ⟨e, he, rfl⟩ := List.mem_map.mp hmem
    exact lt_irrefl _ (h.below e he _ hi)
  have hcandidate : ∀ i, f.isCandidate request.strict k s i = true ↔ _ := fun i =>
    hrelaxed ▸ hf.isCandidate_relaxed hempty htracks (i := i)
  rw [hheld] at hcandidate
  have hspec : Worker.Step f request k s w _ _ := Worker.step_spec hcost hlt
  generalize (Worker.step f request k s w).1 = s' at hspec ⊢
  generalize (Worker.step f request k s w).2 = w' at hspec ⊢
  cases hspec with
  | idle hp => exact h
  | @stop i rest hp hb => simp [isBeyond, h.cutoff_eq_none hp] at hb
  | @pass i rest hp hc =>
    refine h.pass hp fun hreads hopen => ?_
    have hcand := (hcandidate i).mpr ⟨hopen, hfree i (by simp [hp]), fun j hj =>
      h.inputs_taken hf hreads hp hj⟩
    rw [hcand] at hc
    exact absurd hc (by decide)
  | @take i rest hp hc hfit => exact h.take hp ((hcandidate i).mp hc).2.2 k
  | @refuse i rest hp hc hbig =>
    obtain ⟨c, hi⟩ := waiting_of_isCandidate hc
    rw [reject_reserve hi]
    exact h.refuse hp ((hcandidate i).mp hc).1 hbig

end Scan

namespace Frontier

variable {f : Frontier} {budget threads : Nat}

/-- At most one thread is one worker. -/
theorem workers_of_le_one (f : Frontier) (hthreads : threads ≤ 1) :
    f.workers threads = [Worker.start f.neuronCount 0 1] := by
  have hone : f.workerCount threads = 1 := by
    unfold workerCount
    omega
  rw [workers, hone]
  rfl

/-- The invariant holds before the first step. -/
theorem Sound.sweeps_start (hf : f.Sound) (budget : Nat) :
    Scan.Sweeps f budget ⟨f.status, none⟩ (Worker.start f.neuronCount 0 1) := by
  refine ⟨List.pairwise_lt_range' _ Nat.one_pos, ?_, ?_, by simp, fun _ i hi => .inr (.inl ?_)⟩
  · simp [Worker.start]
  · simp [Worker.start]
  · rw [Worker.mem_pending_start Nat.one_pos Nat.one_pos]
    have hlt : i < f.net.neuronCount := (mem_unprocessed.mp hi).1
    rw [← hf.size] at hlt
    exact ⟨hlt, Nat.mod_one i⟩

/-- **The invariant holds** after the scan of a relaxed collection by one worker, which has then
nothing left to scan. -/
theorem Sound.exists_sweep (hf : f.Sound) (hcost : f.net.CostsFit) (hempty : f.subset = [])
    (schedule : List Nat) (request : Request) (hthreads : request.threads ≤ 1)
    (hrelaxed : request.strict = false) :
    ∃ w, (f.scan schedule request).2 = [w] ∧ w.pending = [] ∧
      Scan.Sweeps f request.budget (f.scan schedule request).1 w := by
  have hall : ∃ w, (f.scan schedule request).2 = [w] ∧
      Scan.Tracks f request.budget f.nextIteration (f.scan schedule request).1 [w] ∧
      Scan.Sweeps f request.budget (f.scan schedule request).1 w := by
    refine Scan.run_induct (P := fun s ws => ∃ w, ws = [w] ∧
      Scan.Tracks f request.budget f.nextIteration s [w] ∧ Scan.Sweeps f request.budget s w)
      (fun s pre w post h => ?_) schedule _ _ ?_
    · obtain ⟨v, hv, htracks, hsweeps⟩ := h
      -- The only worker is the one that takes the step.
      obtain ⟨rfl, rfl, rfl⟩ : pre = [] ∧ w = v ∧ post = [] := by
        cases pre with
        | nil => simpa using hv
        | cons u pre => simp at hv
      have hone : Scan.Tracks f request.budget f.nextIteration s ([] ++ w :: []) := htracks
      exact ⟨_, rfl, hone.step hcost, hsweeps.step hf hcost hempty hrelaxed htracks⟩
    · have hstart := tracks_start hf.size request.threads request.budget f.nextIteration
      rw [f.workers_of_le_one hthreads] at hstart ⊢
      exact ⟨_, rfl, hstart, hf.sweeps_start _⟩
  obtain ⟨w, hw, -, hsweeps⟩ := hall
  have hend : pendingOf (f.scan schedule request).2 = [] := Scan.pendingOf_run _ _ _
  rw [hw] at hend
  exact ⟨w, hw, by simpa [pendingOf] using hend, hsweeps⟩

/-! ## What a relaxed collection by one worker answers -/

/-- What the worker holds at the end costs what it has counted. -/
theorem sum_heldIds {s : Scan} {k : Nat} {w : Worker} (h : Scan.Tracks f budget k s [w]) :
    ((heldIds [w]).map f.net.bytesOf).sum = w.bytes := by
  have hcosts : (heldIds [w]).map f.net.bytesOf = (gather [w]).map Prod.snd := by
    rw [heldIds, List.map_map]
    exact List.map_congr_left fun e he => (cost_of_mem_gather h e he).symm
  have hperm : ((gather [w]).map Prod.snd).Perm (w.held.map Prod.snd) := by
    simpa [heldBy] using (gather_perm h).map Prod.snd
  rw [hcosts, hperm.sum_eq]
  exact (h.bytes w (List.mem_singleton_self w)).1.symm

/-- **A relaxed collection by one worker keeps** all that the worker holds. -/
theorem Sound.keptBy_relaxed (hf : f.Sound) (hcost : f.net.CostsFit) (hempty : f.subset = [])
    (schedule : List Nat) (request : Request) (hthreads : request.threads ≤ 1)
    (hrelaxed : request.strict = false) :
    f.keptBy request.budget (f.scan schedule request).1 (f.scan schedule request).2 =
      heldIds (f.scan schedule request).2 := by
  have htracks := tracks_scan hf.size hcost schedule request
  obtain ⟨w, hw, -, hsweeps⟩ := hf.exists_sweep hcost hempty schedule request hthreads hrelaxed
  rw [hw] at htracks ⊢
  generalize (f.scan schedule request).1 = s at htracks hsweeps ⊢
  have hbelow : ∀ i ∈ heldIds [w], s.isBelow i = true := by
    intro i hi
    rw [mem_heldIds htracks] at hi
    obtain ⟨e, he, rfl⟩ := List.mem_map.mp hi
    cases hcut : s.cutoff with
    | none => simp [Scan.isBelow, hcut]
    | some c =>
      have hlt := (hsweeps.ended c hcut).2.2.1 e (by simpa [heldBy] using he)
      simpa [Scan.isBelow, hcut] using hlt
  rw [keptBy, takeWhile_isBelow (sorted_heldIds htracks), List.filter_eq_self.mpr hbelow]
  apply affordable_eq_self
  rw [sum_heldIds htracks]
  exact (htracks.bytes w (List.mem_singleton_self w)).2

/-- What the neurons read that the worker holds at the end is processed, or held and below. -/
theorem Sound.closed_heldIds (hf : f.Sound) (hcost : f.net.CostsFit) (hempty : f.subset = [])
    (schedule : List Nat) (request : Request) (hthreads : request.threads ≤ 1)
    (hrelaxed : request.strict = false) {i j : Nat} (hi : i ∈ heldIds (f.scan schedule request).2)
    (hj : f.net.Reads i j) :
    f.isDone j = true ∨ j ∈ heldIds (f.scan schedule request).2 ∧ j < i := by
  have htracks := tracks_scan hf.size hcost schedule request
  obtain ⟨w, hw, -, hsweeps⟩ := hf.exists_sweep hcost hempty schedule request hthreads hrelaxed
  rw [hw] at htracks hi ⊢
  rw [mem_heldIds htracks] at hi ⊢
  obtain ⟨e, he, rfl⟩ := List.mem_map.mp hi
  simpa [heldBy] using hsweeps.closed e (by simpa [heldBy] using he) j hj

/-- If neurons read lower-numbered ones only, the worker holds at the end the longest affordable
prefix of the neurons that are not processed. -/
theorem Sound.heldIds_relaxed (hf : f.Sound) (hcost : f.net.CostsFit) (hempty : f.subset = [])
    (schedule : List Nat) (request : Request) (hthreads : request.threads ≤ 1)
    (hrelaxed : request.strict = false) (hreads : f.net.Feedforward) :
    heldIds (f.scan schedule request).2 =
      affordable f.net.bytesOf request.budget f.unprocessed := by
  have htracks := tracks_scan hf.size hcost schedule request
  obtain ⟨w, hw, hend, hsweeps⟩ := hf.exists_sweep hcost hempty schedule request hthreads hrelaxed
  rw [hw] at htracks ⊢
  generalize (f.scan schedule request).1 = s at htracks hsweeps
  have hsorted := sorted_heldIds htracks
  have hheld : ∀ i, i ∈ heldIds [w] ↔ i ∈ w.held.map Prod.fst := fun i => by
    rw [mem_heldIds htracks]
    simp [heldBy]
  have hopen : ∀ i ∈ heldIds [w], i ∈ f.unprocessed := by
    intro i hi
    rw [mem_heldIds htracks] at hi
    obtain ⟨e, he, rfl⟩ := List.mem_map.mp hi
    exact (hf.mem_unprocessed_iff hempty).mpr (htracks.waiting e he)
  have hcovered : ∀ i ∈ f.unprocessed, i ∈ heldIds [w] ∨ ∃ c ∈ s.cutoff, c ≤ i := by
    intro i hi
    have hcov := hsweeps.covered hreads i hi
    rw [hend] at hcov
    simpa [hheld] using hcov
  have hsum : ((heldIds [w]).map f.net.bytesOf).sum ≤ request.budget := by
    rw [sum_heldIds htracks]
    exact (htracks.bytes w (List.mem_singleton_self w)).2
  cases hcut : s.cutoff with
  | none =>
    -- Without a cutoff all neurons that are not processed are held.
    have hall : heldIds [w] = f.unprocessed := by
      refine hsorted.eq_of_mem_iff f.sorted_unprocessed fun i => ⟨hopen i, fun hi => ?_⟩
      simpa [hcut] using hcovered i hi
    rw [hall] at hsum ⊢
    exact (affordable_eq_self hsum).symm
  | some c =>
    obtain ⟨-, hc, hbelow, hbig⟩ := hsweeps.ended c hcut
    obtain ⟨pre, post, hparts⟩ := List.append_of_mem hc
    have hpre : heldIds [w] = pre := by
      have hpresorted := (List.pairwise_append.mp (hparts ▸ f.sorted_unprocessed)).1
      refine hsorted.eq_of_mem_iff hpresorted fun i => ?_
      rw [mem_before_iff f.sorted_unprocessed hparts]
      constructor
      · intro hi
        obtain ⟨e, he, rfl⟩ := List.mem_map.mp ((hheld i).mp hi)
        exact ⟨hopen _ hi, hbelow e he⟩
      · rintro ⟨hi, hic⟩
        refine (hcovered i hi).resolve_right ?_
        rintro ⟨c', hc', hle⟩
        obtain rfl : c = c' := by simpa [hcut] using hc'
        omega
    rw [← sum_heldIds htracks] at hbig
    rw [hpre] at hbig hsum ⊢
    rw [hparts, affordable_cut hbig, affordable_eq_self hsum]

/-- If neurons read lower-numbered ones only, then a relaxed collection by one worker keeps the
longest affordable prefix of the neurons that are not processed, or reports the first of them. -/
theorem Sound.collectBy_lone (hf : f.Sound) (hcost : f.net.CostsFit) (hempty : f.subset = [])
    (schedule : List Nat) (request : Request) (hthreads : request.threads ≤ 1)
    (hrelaxed : request.strict = false) (hreads : f.net.Feedforward) :
    ((∀ i ∈ f.unprocessed.head?, f.net.bytesOf i ≤ request.budget) →
      f.collectBy schedule request =
        (f.withSubset (affordable f.net.bytesOf request.budget f.unprocessed),
          .ok (affordable f.net.bytesOf request.budget f.unprocessed))) ∧
    ∀ i ∈ f.unprocessed.head?, request.budget < f.net.bytesOf i →
      f.collectBy schedule request =
        (f.withSubset [], fail (.exhausted (f.net.bytesOf i) request.budget)) := by
  have htracks := tracks_scan hf.size hcost schedule request
  have hheld := hf.heldIds_relaxed hcost hempty schedule request hthreads hrelaxed hreads
  have hkept := hf.keptBy_relaxed hcost hempty schedule request hthreads hrelaxed
  obtain ⟨w, hw, hend, hsweeps⟩ := hf.exists_sweep hcost hempty schedule request hthreads hrelaxed
  rw [hheld] at hkept
  apply hf.collectBy_prefix hcost hempty schedule request hkept
  · exact fun c hc => (hsweeps.ended c hc).2.1
  · intro i hi hbig
    obtain ⟨rest, hopen⟩ := List.head?_eq_some_iff.mp hi
    have hmem : i ∈ f.unprocessed := by simp [hopen]
    -- Nothing is held, so that the first neuron is cut off, and nothing stands before it.
    rw [hopen, affordable_cons_eq_nil_iff.mpr hbig, hw] at hheld
    rw [hw] at htracks
    rcases hsweeps.covered hreads i hmem with hi | hi | ⟨c, hc, hle⟩
    · have hids : i ∈ heldIds [w] := (mem_heldIds htracks).mpr (by simpa [heldBy] using hi)
      simp [hheld] at hids
    · simp [hend] at hi
    · have hfirst := (hsweeps.ended c hc).2.1
      have hsorted := f.sorted_unprocessed
      rw [hopen] at hfirst hsorted
      rcases List.mem_cons.mp hfirst with rfl | hlater
      · exact hc
      · have hic := (List.pairwise_cons.mp hsorted).1 c hlater
        omega

/-- The neurons that a relaxed collection by one worker keeps can be confirmed front to back: what the
next one reads is processed, or stands before it. -/
theorem Sound.confirmAll_lone (hf : f.Sound) (hcost : f.net.CostsFit) (hempty : f.subset = [])
    (schedule : List Nat) (request : Request) (hthreads : request.threads ≤ 1)
    (hrelaxed : request.strict = false) {pre post : List Nat} {i : Nat}
    (hanswer : (f.collectBy schedule request).2 = .ok (pre ++ i :: post)) :
    (∀ j, f.net.Reads i j → f.isDone j = true ∨ j ∈ pre) ∧
      ∃ g h, (f.collectBy schedule request).1.confirmAll pre = (g, .ok ()) ∧
        (∀ j, f.net.Reads i j → g.isDone j = true) ∧ g.confirmProcessed i = (h, .ok ()) := by
  have htracks := tracks_scan hf.size hcost schedule request
  have hkept := hf.keptBy_relaxed hcost hempty schedule request hthreads hrelaxed
  have hall := hf.withSubset_keptBy hcost hempty schedule request
  obtain ⟨hstored, hparts⟩ := hf.collectBy_of_ok hcost hempty hanswer
  rw [hparts] at hkept hall
  have hinputs : ∀ j, f.net.Reads i j → f.isDone j = true ∨ j ∈ pre := by
    intro j hj
    have hi : i ∈ heldIds (f.scan schedule request).2 := by simp [← hkept]
    rw [mem_before_iff (sorted_heldIds htracks) hkept.symm]
    exact hf.closed_heldIds hcost hempty schedule request hthreads hrelaxed hi hj
  obtain ⟨g, hconfirm, hg, -, hrest, hdone⟩ := hall.confirmAll rfl
  refine ⟨hinputs, g, g.processFirst i post, ?_, fun j hj => ?_, hg.confirmProcessed_first hrest⟩
  · rw [hstored]
    exact hconfirm
  · rw [hdone, isDone_withSubset]
    exact hinputs j hj

variable {net : Net}

/-- **A relaxed collection by one worker**, in a frontier that is reached by any history and waits
for no confirmation, with any budget.

1. The neurons that it answers cost no more than the budget.  What each of them reads is processed
   or stands before it; so if they are confirmed as processed front to back, then the neurons before
   it can be, all that it reads is processed by then, and it can be confirmed next.
2. If the neurons of the net read lower-numbered ones only, then it keeps the longest affordable
   prefix of all neurons that are not processed.  It reports an exhausted budget exactly if the
   budget does not afford the first of these alone.

**Proof sketch.** A step of the worker keeps the invariant `Scan.Sweeps`, so that in the end what a
held neuron reads is processed, or held and below it.  All held neurons lie below the cutoff and
within the budget, so none is given back.  If neurons read lower-numbered ones only, every neuron
that is not processed is a candidate when the worker comes to it. -/
theorem lone_relaxed_collection (hnet : net.totalBytes < Word.limit) (hf : Reachable net f)
    (hempty : f.subset = []) (schedule : List Nat) (budget : Nat) (hthreads : threads ≤ 1) :
    (∀ kept, (f.collectBy schedule ⟨threads, budget, false⟩).2 = .ok kept →
      (kept.map net.bytesOf).sum ≤ budget ∧
      ∀ pre i post, kept = pre ++ i :: post →
        (∀ j, net.Reads i j → f.isProcessed j = .ok true ∨ j ∈ pre) ∧
        ∃ g h, (f.collectBy schedule ⟨threads, budget, false⟩).1.confirmAll pre = (g, .ok ()) ∧
          (∀ j, net.Reads i j → g.isProcessed j = .ok true) ∧
          g.confirmProcessed i = (h, .ok ())) ∧
    (net.Feedforward → ∃ chosen, Affords net.bytesOf budget f.unprocessed chosen ∧
      ((∀ i ∈ f.unprocessed.head?, net.bytesOf i ≤ budget) →
        f.collectBy schedule ⟨threads, budget, false⟩ = (f.withSubset chosen, .ok chosen)) ∧
      (∀ i ∈ f.unprocessed.head?, budget < net.bytesOf i →
        f.collectBy schedule ⟨threads, budget, false⟩ =
          (f.withSubset [], fail (.exhausted (net.bytesOf i) budget))) ∧
      ((∃ required limit, (f.collectBy schedule ⟨threads, budget, false⟩).2 =
          fail (.exhausted required limit)) ↔
        ∃ i ∈ f.unprocessed.head?, budget < net.bytesOf i)) := by
  have hcost := Net.costsFit_of_totalBytes hnet
  obtain ⟨hsound, rfl⟩ := hf.sound hcost
  constructor
  · intro kept hanswer
    constructor
    · rw [← (hsound.collectBy_of_ok hcost hempty hanswer).2]
      exact affords_affordable.within
    · rintro pre i post rfl
      obtain ⟨hinputs, g, h, hconfirm, hdone, hnext⟩ := hsound.confirmAll_lone hcost hempty
        schedule ⟨threads, budget, false⟩ hthreads rfl hanswer
      exact ⟨fun j hj => (hinputs j hj).imp_left isProcessed_eq_ok_true_iff.mpr, g, h, hconfirm,
        fun j hj => isProcessed_eq_ok_true_iff.mpr (hdone j hj), hnext⟩
  · intro hreads
    obtain ⟨hfits, hexceeds⟩ := hsound.collectBy_lone hcost hempty schedule
      ⟨threads, budget, false⟩ hthreads rfl hreads
    refine ⟨_, affords_affordable, hfits, hexceeds, ?_⟩
    constructor
    · rintro ⟨required, limit, hreport⟩
      by_contra hnone
      rw [hfits fun i hi => Nat.le_of_not_lt fun hbig => hnone ⟨i, hi, hbig⟩] at hreport
      cases hreport
    · rintro ⟨i, hi, hbig⟩
      exact ⟨_, _, congrArg Prod.snd (hexceeds i hi hbig)⟩

/-- In the diamond net, after its first neuron, one worker with the exact budget takes the other
three, of which the last reads the two before it. -/
theorem lone_relaxed_collection_diamond :
    Net.diamond.Feedforward ∧ Net.diamond.Reads 3 1 ∧ Net.diamond.Reads 3 2 ∧
      ∃ f, Reachable Net.diamond f ∧ f.subset = [] ∧ f.unprocessed = [1, 2, 3] ∧
        ∀ schedule, f.collectBy schedule ⟨1, 403, false⟩ =
            (f.withSubset [1, 2, 3], .ok [1, 2, 3]) ∧
          ∃ g h, (f.withSubset [1, 2, 3]).confirmAll [1, 2] = (g, .ok ()) ∧
            g.isProcessed 1 = .ok true ∧ g.isProcessed 2 = .ok true ∧
            g.confirmProcessed 3 = (h, .ok ()) := by
  have hf : Reachable Net.diamond _ :=
    .process (.collect (.start (f := initial Net.diamond) (by rfl)) [] ⟨1, 1000, true⟩) 0
  have hone : Net.diamond.Reads 3 1 := by
    unfold Net.Reads
    decide +kernel
  have htwo : Net.diamond.Reads 3 2 := by
    unfold Net.Reads
    decide +kernel
  have hbelow : Net.diamond.Feedforward := by
    have hall : ∀ i < 4, ∀ j ∈ Net.diamond.inputsOf i, j < i := by decide
    exact fun i j hij => hall i hij.lt j hij
  refine ⟨hbelow, hone, htwo, _, hf, by decide +kernel, by decide +kernel, fun schedule => ?_⟩
  obtain ⟨hclosed, hordered⟩ := lone_relaxed_collection (by decide) hf (by decide +kernel) schedule
    403 (le_refl 1)
  obtain ⟨chosen, hchosen, hfits, -⟩ := hordered hbelow
  have hall : chosen = [1, 2, 3] := hchosen.eq_affordable.trans (by decide +kernel)
  have hanswer := hall ▸ hfits (by decide +kernel)
  refine ⟨hanswer, ?_⟩
  obtain ⟨-, hconfirm⟩ := hclosed [1, 2, 3] (congrArg Prod.snd hanswer)
  obtain ⟨-, g, h, hg, hinputs, hlast⟩ := hconfirm [1, 2] 3 [] rfl
  rw [hanswer] at hg
  exact ⟨g, h, hg, hinputs 1 hone, hinputs 2 htwo, hlast⟩

end Frontier

end NeuralPlan
