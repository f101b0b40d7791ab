import NeuralPlan.Proofs.Frontier.Collection

/-!
# Strict collections

A strict collection takes neurons that wait while all that they read is processed.  Whatever the
workers do, it takes the longest prefix of these neurons, in ascending order, that the budget
affords: a worker that holds only such neurons below the next one, which does not fit any more,
has proved that the budget does not reach that one.

## Main definitions

* `Frontier.isReady`, `Frontier.ready` — the neurons that a strict collection may take.
* `Scan.Exact` — the invariant of a strict scan.

## Main results

* `Frontier.Sound.keptBy_strict` — what a strict collection keeps.
* `Frontier.Sound.collectBy_strict_of_le`, `collectBy_strict_of_lt` — what it answers.
* `Frontier.strict_collection_exact` — the longest affordable prefix, for every schedule.
-/

set_option relaxedAutoImplicit false
set_option autoImplicit false

namespace NeuralPlan

namespace Frontier

/-! ## Ready neurons -/

/-- Whether the neuron waits while all that it reads is processed. -/
def isReady (f : Frontier) (i : Nat) : Bool :=
  (match f.status[i]? with
    | some (.waiting _) => true
    | _ => false) && (f.net.inputsOf i).all f.isDone

/-- The neurons that wait while all that they read is processed, in ascending order. -/
def ready (f : Frontier) : List Nat := (List.range f.net.neuronCount).filter f.isReady

variable {f : Frontier}

/-- Whether a neuron is ready, read off its state. -/
theorem isReady_iff {i : Nat} :
    f.isReady i = true ↔
      (∃ c, f.status[i]? = some (.waiting c)) ∧ ∀ j ∈ f.net.inputsOf i, f.isDone j = true := by
  rw [isReady, Bool.and_eq_true, List.all_eq_true]
  refine and_congr_left fun _ => ?_
  cases f.status[i]? with
  | none => simp
  | some s => cases s <;> simp

/-- A neuron that is ready is one of the net. -/
theorem Sound.lt_of_isReady (hf : f.Sound) {i : Nat} (h : f.isReady i = true) :
    i < f.net.neuronCount := by
  obtain ⟨⟨c, hc⟩, -⟩ := isReady_iff.mp h
  exact hf.size ▸ (Array.getElem?_eq_some_iff.mp hc).1

/-- The list holds the neurons that are ready. -/
theorem Sound.mem_ready (hf : f.Sound) {i : Nat} : i ∈ f.ready ↔ f.isReady i = true := by
  rw [ready, List.mem_filter, List.mem_range]
  exact and_iff_right_of_imp hf.lt_of_isReady

/-- The ready neurons are in ascending order. -/
theorem sorted_ready (f : Frontier) : f.ready.Pairwise (· < ·) :=
  List.pairwise_lt_range.filter _

/-- The ready neurons before one of them are those below it. -/
theorem mem_before_iff {l pre post : List Nat} {i j : Nat} (hl : l.Pairwise (· < ·))
    (hparts : l = pre ++ i :: post) : j ∈ pre ↔ j ∈ l ∧ j < i := by
  subst hparts
  obtain ⟨-, hpost, hcross⟩ := List.pairwise_append.mp hl
  constructor
  · intro hj
    exact ⟨List.mem_append_left _ hj, hcross j hj i (by simp)⟩
  · rintro ⟨hj, hlt⟩
    rcases List.mem_append.mp hj with hj | hj
    · exact hj
    · rcases List.mem_cons.mp hj with rfl | hj
      · exact absurd hlt (Nat.lt_irrefl _)
      · exact absurd hlt (Nat.not_lt_of_lt ((List.pairwise_cons.mp hpost).1 j hj))

/-- The candidates of a strict scan are the ready neurons that nobody holds. -/
theorem Sound.isCandidate_strict (hf : f.Sound) {budget k : Nat} {s : Scan} {ws : List Worker}
    (h : Scan.Tracks f budget k s ws) {i : Nat} :
    f.isCandidate true k s i = true ↔
      f.isReady i = true ∧ i ∉ (heldBy ws).map Prod.fst := by
  have hcount : ∀ c, f.status[i]? = some (.waiting c) →
      (c = (f.readsAt i).length ↔ ∀ j ∈ f.net.inputsOf i, f.isDone j = true) := by
    intro c hc
    rw [hf.counted i _ c hc rfl, hf.reads, List.countP_eq_length]
  constructor
  · intro hcand
    obtain ⟨c, hc⟩ := Scan.waiting_of_isCandidate hcand
    obtain ⟨hfree, hbefore⟩ := h.waiting_before hc
    refine ⟨isReady_iff.mpr ⟨⟨c, hbefore⟩, (hcount c hbefore).mp ?_⟩, hfree⟩
    simpa [isCandidate, Scan.statusAt, hc] using hcand
  · rintro ⟨hready, hfree⟩
    obtain ⟨⟨c, hc⟩, hdone⟩ := isReady_iff.mp hready
    have hs : s.status[i]? = some (.waiting c) := by
      rw [h.status, hc]
      simp [hfree]
    simp [isCandidate, Scan.statusAt, hs, (hcount c hc).mpr hdone]

end Frontier

/-! ## The invariant of a strict scan -/

namespace Scan

/-- What the workers of a strict scan hold is ready, and what is ready is held, still to be
scanned, or cut off.  Every worker holds neurons below those that it has still to scan; and the
budget does not reach from the ready neurons below the cutoff to the cutoff itself. -/
structure Exact (f : Frontier) (budget : Nat) (s : Scan) (ws : List Worker) : Prop where
  ready : ∀ e ∈ heldBy ws, f.isReady e.1 = true
  covered : ∀ i, f.isReady i = true →
    i ∈ (heldBy ws).map Prod.fst ∨ i ∈ pendingOf ws ∨ ∃ c ∈ s.cutoff, c ≤ i
  ascending : ∀ w ∈ ws, w.pending.Pairwise (· < ·) ∧
    ∀ e ∈ w.held, ∀ i ∈ w.pending, e.1 < i
  beyond : ∀ c ∈ s.cutoff, ∃ pre post, f.ready = pre ++ c :: post ∧
    budget < (pre.map f.net.bytesOf).sum + f.net.bytesOf c

variable {f : Frontier} {request : Request} {budget k : Nat} {s s' : Scan}
  {pre post : List Worker} {w w' : Worker}

/-- What is held or pending after a worker has changed, for a single neuron. -/
theorem mem_held_middle {i : Nat} :
    i ∈ (heldBy (pre ++ w :: post)).map Prod.fst ↔
      i ∈ w.held.map Prod.fst ∨ i ∈ (heldBy (pre ++ post)).map Prod.fst := by
  rw [((heldBy_perm pre w post).map Prod.fst).mem_iff, List.map_append, List.mem_append]

/-- What is still to be scanned, for a single neuron. -/
theorem mem_pending_middle {i : Nat} :
    i ∈ pendingOf (pre ++ w :: post) ↔ i ∈ w.pending ∨ i ∈ pendingOf (pre ++ post) := by
  rw [(pendingOf_perm pre w post).mem_iff, List.mem_append]

/-- A worker that gives up scanning neurons that are not ready or cut off, and else stays as it
is, keeps the invariant, and so does a cutoff that the budget does not reach. -/
theorem Exact.shrink (h : Exact f budget s (pre ++ w :: post)) (hheld : w'.held = w.held)
    (hpending : w'.pending.Sublist w.pending)
    (hlower : ∀ c ∈ s.cutoff, ∃ c' ∈ s'.cutoff, c' ≤ c)
    (hskipped : ∀ i ∈ w.pending, f.isReady i = true → i ∈ w'.pending ∨ ∃ c ∈ s'.cutoff, c ≤ i)
    (hbeyond : ∀ c ∈ s'.cutoff, ∃ pre post, f.ready = pre ++ c :: post ∧
      budget < (pre.map f.net.bytesOf).sum + f.net.bytesOf c) :
    Exact f budget s' (pre ++ w' :: post) := by
  have hsame : heldBy (pre ++ w' :: post) = heldBy (pre ++ w :: post) := by
    simp [heldBy, hheld]
  obtain ⟨⟨hsorted, hbelow⟩, hothers⟩ := forall_mem_middle.mp h.ascending
  refine ⟨hsame ▸ h.ready, fun i hi => ?_, forall_mem_middle.mpr ⟨⟨?_, ?_⟩, hothers⟩, hbeyond⟩
  · rw [hsame, mem_pending_middle]
    rcases h.covered i hi with hin | hin | ⟨c, hc, hle⟩
    · exact .inl hin
    · rcases mem_pending_middle.mp hin with hw | hrest
      · exact .inr ((hskipped i hw hi).imp_left .inl)
      · exact .inr (.inl (.inr hrest))
    · obtain ⟨c', hc', hle'⟩ := hlower c hc
      exact .inr (.inr ⟨c', hc', hle'.trans hle⟩)
  · exact hsorted.sublist hpending
  · rw [hheld]
    exact fun e he i hi => hbelow e he i (hpending.subset hi)

/-- A worker that takes the next neuron, which is ready, keeps the invariant. -/
theorem Exact.take {i : Nat} {rest : List Nat} (h : Exact f budget s (pre ++ w :: post))
    (hp : w.pending = i :: rest) (hready : f.isReady i = true) :
    Exact f budget (s.reserve k i) (pre ++ { w with
      pending := rest
      held := (i, f.net.bytesOf i) :: w.held
      bytes := w.bytes + f.net.bytesOf i } :: post) := by
  obtain ⟨⟨hsorted, hbelow⟩, hothers⟩ := forall_mem_middle.mp h.ascending
  rw [hp] at hsorted hbelow
  obtain ⟨hnext, hrest⟩ := List.pairwise_cons.mp hsorted
  refine ⟨fun e he => ?_, fun j hj => ?_, forall_mem_middle.mpr ⟨⟨hrest, ?_⟩, hothers⟩, h.beyond⟩
  · rcases List.mem_append.mp ((heldBy_perm _ _ _).mem_iff.mp he) with he | he
    · rcases List.mem_cons.mp he with rfl | he
      · exact hready
      · exact h.ready e ((heldBy_perm _ _ _).mem_iff.mpr (List.mem_append_left _ he))
    · exact h.ready e ((heldBy_perm _ _ _).mem_iff.mpr (List.mem_append_right _ he))
  · rw [mem_held_middle, mem_pending_middle]
    have hcov := h.covered j hj
    rw [mem_held_middle, mem_pending_middle, hp, List.mem_cons] at hcov
    simp only [List.map_cons, List.mem_cons]
    rcases hcov with (hin | hin) | ((rfl | hin) | hin) | hin
    · exact .inl (.inl (.inr hin))
    · exact .inl (.inr hin)
    · exact .inl (.inl (.inl rfl))
    · exact .inr (.inl (.inl hin))
    · exact .inr (.inl (.inr hin))
    · exact .inr (.inr hin)
  · intro e he j hj
    rcases List.mem_cons.mp he with rfl | he
    · exact hnext j hj
    · exact hbelow e he j (List.mem_cons_of_mem _ hj)

/-- **The budget does not reach** a ready neuron that does not fit a worker: the neurons that the
worker holds are ready and lie below it. -/
theorem Exact.exceeded {i : Nat} {rest : List Nat} (hf : f.Sound)
    (htracks : Tracks f budget k s (pre ++ w :: post)) (h : Exact f budget s (pre ++ w :: post))
    (hp : w.pending = i :: rest) (hready : f.isReady i = true)
    (hbig : budget < w.bytes + f.net.bytesOf i) :
    ∃ before after, f.ready = before ++ i :: after ∧
      budget < (before.map f.net.bytesOf).sum + f.net.bytesOf i := by
  obtain ⟨before, after, hparts⟩ := List.append_of_mem (hf.mem_ready.mpr hready)
  refine ⟨before, after, hparts, hbig.trans_le (Nat.add_le_add_right ?_ _)⟩
  obtain ⟨⟨-, hbelow⟩, -⟩ := forall_mem_middle.mp h.ascending
  obtain ⟨⟨hbytes, -⟩, -⟩ := forall_mem_middle.mp htracks.bytes
  have hmine : ∀ e ∈ w.held, e ∈ heldBy (pre ++ w :: post) := fun e he =>
    (heldBy_perm _ _ _).mem_iff.mpr (List.mem_append_left _ he)
  have hcosts : w.held.map Prod.snd = (w.held.map Prod.fst).map f.net.bytesOf := by
    rw [List.map_map]
    exact List.map_congr_left fun e he => htracks.cost e (hmine e he)
  have hnodup : (w.held.map Prod.fst).Nodup := by
    have hall := (List.nodup_append.mp htracks.nodup).1
    rw [((heldBy_perm pre w post).map Prod.fst).nodup_iff, List.map_append] at hall
    exact (List.nodup_append.mp hall).1
  rw [hbytes, hcosts]
  refine sum_map_le_of_subset _ hnodup fun j hj => ?_
  obtain ⟨e, he, rfl⟩ := List.mem_map.mp hj
  rw [Frontier.mem_before_iff f.sorted_ready hparts, hf.mem_ready]
  exact ⟨h.ready e (hmine e he), hbelow e he i (hp ▸ List.mem_cons_self)⟩

/-- **One step keeps the invariant.** -/
theorem Exact.step (hf : f.Sound) (hcost : f.net.CostsFit) (hstrict : request.strict = true)
    (htracks : Tracks f request.budget k s (pre ++ w :: post))
    (h : Exact f request.budget s (pre ++ w :: post)) :
    Exact f request.budget (Worker.step f request k s w).1
      (pre ++ (Worker.step f request k s w).2 :: post) := by
  have hlt : ∀ i ∈ w.pending, i < f.net.neuronCount := fun i hi =>
    htracks.pending_lt i (mem_pending_middle.mpr (.inl hi))
  have hfree : ∀ i ∈ w.pending, i ∉ (heldBy (pre ++ w :: post)).map Prod.fst := fun i hi hheld =>
    (List.nodup_append.mp htracks.nodup).2.2 i hheld i (mem_pending_middle.mpr (.inl hi)) rfl
  have hkeep : ∀ c ∈ s.cutoff, ∃ c' ∈ s.cutoff, c' ≤ c := fun c hc => ⟨c, hc, le_rfl⟩
  obtain ⟨⟨hsorted, -⟩, -⟩ := forall_mem_middle.mp h.ascending
  have hspec : Worker.Step f request k s w _ _ := Worker.step_spec hcost hlt
  generalize (Worker.step f request k s w).1 = s' at hspec ⊢
  generalize (Worker.step f request k s w).2 = w' at hspec ⊢
  cases hspec with
  | idle hp => exact h
  | @stop i rest hp hb =>
    refine h.shrink rfl (List.nil_sublist _) hkeep (fun j hj _ => .inr ?_) h.beyond
    rw [hp] at hsorted hj
    have hle : i ≤ j := by
      rcases List.mem_cons.mp hj with rfl | hj
      · exact le_rfl
      · exact ((List.pairwise_cons.mp hsorted).1 j hj).le
    unfold isBeyond at hb
    cases hcut : s.cutoff with
    | none => simp [hcut] at hb
    | some c =>
      have hci : c < i := by simpa [hcut] using hb
      exact ⟨c, rfl, by omega⟩
  | @pass i rest hp hc =>
    refine h.shrink rfl (by rw [hp]; exact List.sublist_cons_self _ _) hkeep (fun j hj hready => ?_)
      h.beyond
    rcases List.mem_cons.mp (hp ▸ hj) with rfl | hj'
    · have hcand := (hf.isCandidate_strict htracks).mpr ⟨hready, hfree j hj⟩
      rw [hstrict, hcand] at hc
      exact absurd hc (by decide)
    · exact .inl hj'
  | @take i rest hp hc hfit =>
    rw [hstrict] at hc
    exact h.take hp ((hf.isCandidate_strict htracks).mp hc).1
  | @refuse i rest hp hc hbig =>
    obtain ⟨c, hi⟩ := waiting_of_isCandidate hc
    rw [hstrict] at hc
    have hready := ((hf.isCandidate_strict htracks).mp hc).1
    rw [reject_reserve hi]
    obtain ⟨c', hc', hle, hmin⟩ := s.exists_mem_lower_le i
    refine h.shrink rfl (List.nil_sublist _) (fun d hd => ⟨c', hc', hmin d hd⟩)
      (fun j hj _ => .inr ⟨c', hc', ?_⟩) (fun d hd => ?_)
    · rw [hp] at hsorted hj
      rcases List.mem_cons.mp hj with rfl | hj
      · exact hle
      · exact hle.trans ((List.pairwise_cons.mp hsorted).1 j hj).le
    · rcases eq_or_mem_of_mem_lower hd with rfl | hd
      · exact h.exceeded hf htracks hp hready hbig
      · exact h.beyond d hd

end Scan

namespace Frontier

variable {f : Frontier}

/-- The invariant holds before the first step. -/
theorem Sound.exact_start (hf : f.Sound) (threads budget : Nat) :
    Scan.Exact f budget ⟨f.status, none⟩ (f.workers threads) := by
  have hheld := f.heldBy_workers threads
  refine ⟨by simp [hheld], fun i hi => ?_, fun w hw => ?_, by simp⟩
  · have hlt : i < f.status.size := hf.size ▸ hf.lt_of_isReady hi
    exact .inr (.inl (mem_pendingOf_workers.mpr hlt))
  · obtain ⟨first, -, rfl⟩ := List.mem_map.mp hw
    exact ⟨List.pairwise_lt_range' _ (f.workerCount_pos threads), by simp [Worker.start]⟩

/-- **The invariant holds** after the scan of a strict collection. -/
theorem Sound.exact_scan (hf : f.Sound) (hcost : f.net.CostsFit) (schedule : List Nat)
    {request : Request} (hstrict : request.strict = true) :
    Scan.Exact f request.budget (f.scan schedule request).1 (f.scan schedule request).2 := by
  have hboth : Scan.Tracks f request.budget f.nextIteration (f.scan schedule request).1
        (f.scan schedule request).2 ∧
      Scan.Exact f request.budget (f.scan schedule request).1 (f.scan schedule request).2 :=
    Scan.run_induct
      (P := fun s ws => Scan.Tracks f request.budget f.nextIteration s ws ∧
        Scan.Exact f request.budget s ws)
      (fun _ _ _ _ h => ⟨h.1.step hcost, h.2.step hf hcost hstrict h.1⟩) schedule _ _
      ⟨tracks_start hf.size _ _ _, hf.exact_start _ _⟩
  exact hboth.2

/-! ## What a strict collection keeps -/

/-- In an ascending list, what stands before the first element that is not below the cutoff are
the elements below the cutoff. -/
theorem takeWhile_isBelow {s : Scan} {l : List Nat} (hl : l.Pairwise (· < ·)) :
    l.takeWhile s.isBelow = l.filter s.isBelow := by
  induction l with
  | nil => rfl
  | cons i l ih =>
    obtain ⟨hi, hl⟩ := List.pairwise_cons.mp hl
    cases hb : s.isBelow i with
    | true => simp [hb, ih hl]
    | false =>
      have hnone : ∀ j ∈ l, ¬s.isBelow j = true := by
        intro j hj hbelow
        have hij := hi j hj
        unfold Scan.isBelow at hb hbelow
        cases hcut : s.cutoff with
        | none => simp [hcut] at hb
        | some c =>
          simp only [hcut, decide_eq_true_eq, decide_eq_false_iff_not] at hb hbelow
          omega
      rw [List.takeWhile_cons, List.filter_cons, hb, List.filter_eq_nil_iff.mpr hnone]
      rfl

/-- At the end of a strict scan the neurons that are held below the cutoff are those that are
ready below the cutoff. -/
theorem Sound.held_below (hf : f.Sound) (hcost : f.net.CostsFit) (schedule : List Nat)
    {request : Request} (hstrict : request.strict = true) :
    (heldIds (f.scan schedule request).2).filter (f.scan schedule request).1.isBelow =
      f.ready.filter (f.scan schedule request).1.isBelow := by
  have htracks := tracks_scan hf.size hcost schedule request
  have h := hf.exact_scan hcost schedule hstrict
  have hend : pendingOf (f.scan schedule request).2 = [] := Scan.pendingOf_run _ _ _
  refine ((sorted_heldIds htracks).filter _).eq_of_mem_iff (f.sorted_ready.filter _) fun i => ?_
  rw [List.mem_filter, List.mem_filter, mem_heldIds htracks, hf.mem_ready]
  refine and_congr_left fun hbelow => ⟨fun hi => ?_, fun hi => ?_⟩
  · obtain ⟨e, he, rfl⟩ := List.mem_map.mp hi
    exact h.ready e he
  · rcases h.covered i hi with hi | hi | ⟨c, hc, hle⟩
    · exact hi
    · simp [hend] at hi
    · rw [Option.mem_def] at hc
      have hlt : i < c := by simpa [Scan.isBelow, hc] using hbelow
      omega

/-- **What a strict collection keeps** is the longest affordable prefix of the ready neurons,
whatever the workers do.

**Proof sketch.** Below the cutoff all ready neurons are held.  Without a cutoff these are all;
and the budget does not reach the cutoff, so that nothing is lost with those behind it. -/
theorem Sound.keptBy_strict (hf : f.Sound) (hcost : f.net.CostsFit) (schedule : List Nat)
    {request : Request} (hstrict : request.strict = true) :
    f.keptBy request.budget (f.scan schedule request).1 (f.scan schedule request).2 =
      affordable f.net.bytesOf request.budget f.ready := by
  have htracks := tracks_scan hf.size hcost schedule request
  have h := hf.exact_scan hcost schedule hstrict
  unfold keptBy
  rw [takeWhile_isBelow (sorted_heldIds htracks), hf.held_below hcost schedule hstrict]
  generalize (f.scan schedule request).1 = s at h ⊢
  cases hcut : s.cutoff with
  | none =>
    have hall : ∀ i ∈ f.ready, s.isBelow i = true := fun i _ => by simp [Scan.isBelow, hcut]
    rw [List.filter_eq_self.mpr hall]
  | some c =>
    obtain ⟨pre, post, hparts, hbig⟩ := h.beyond c hcut
    have hsplit : f.ready.filter s.isBelow = pre := by
      have hpre : pre.Pairwise (· < ·) :=
        (List.pairwise_append.mp (hparts ▸ f.sorted_ready)).1
      refine (f.sorted_ready.filter _).eq_of_mem_iff hpre fun j => ?_
      rw [List.mem_filter, mem_before_iff f.sorted_ready hparts]
      simp [Scan.isBelow, hcut]
    rw [hsplit, hparts, affordable_cut hbig]

/-- If the budget does not even afford the first ready neuron, then that one is the cutoff. -/
theorem Sound.cutoff_strict (hf : f.Sound) (hcost : f.net.CostsFit) (schedule : List Nat)
    {request : Request} (hstrict : request.strict = true) {i : Nat} {rest : List Nat}
    (hready : f.ready = i :: rest) (hbig : request.budget < f.net.bytesOf i) :
    (f.scan schedule request).1.cutoff = some i := by
  have htracks := tracks_scan hf.size hcost schedule request
  have h := hf.exact_scan hcost schedule hstrict
  have hend : pendingOf (f.scan schedule request).2 = [] := Scan.pendingOf_run _ _ _
  have hfree : i ∉ (heldBy (f.scan schedule request).2).map Prod.fst := by
    intro hi
    obtain ⟨e, he, rfl⟩ := List.mem_map.mp hi
    obtain ⟨w, hw, hew⟩ := List.mem_flatMap.mp he
    obtain ⟨hbytes, hle⟩ := htracks.bytes w hw
    have hone : e.2 ≤ (w.held.map Prod.snd).sum :=
      List.single_le_sum (fun _ _ => Nat.zero_le _) _ (List.mem_map_of_mem hew)
    rw [htracks.cost e he] at hone
    omega
  have hfirst : f.isReady i = true := hf.mem_ready.mp (by simp [hready])
  rcases h.covered i hfirst with hi | hi | ⟨c, hc, hle⟩
  · exact absurd hi hfree
  · simp [hend] at hi
  · obtain ⟨pre, post, hparts, -⟩ := h.beyond c hc
    have hmem : c ∈ i :: rest := by
      rw [← hready, hparts]
      simp
    rcases List.mem_cons.mp hmem with rfl | hmem
    · exact hc
    · have hic := (List.pairwise_cons.mp (hready ▸ f.sorted_ready)).1 c hmem
      omega

/-! ## What a strict collection answers -/

/-- A strict collection keeps the longest affordable prefix of the ready neurons, or reports the
first of them. -/
theorem Sound.collectBy_strict (hf : f.Sound) (hcost : f.net.CostsFit) (hempty : f.subset = [])
    (schedule : List Nat) {request : Request} (hstrict : request.strict = true) :
    ((∀ i ∈ f.ready.head?, f.net.bytesOf i ≤ request.budget) →
      f.collectBy schedule request =
        (f.withSubset (affordable f.net.bytesOf request.budget f.ready),
          .ok (affordable f.net.bytesOf request.budget f.ready))) ∧
    ∀ i ∈ f.ready.head?, request.budget < f.net.bytesOf i →
      f.collectBy schedule request =
        (f.withSubset [], fail (.exhausted (f.net.bytesOf i) request.budget)) := by
  apply hf.collectBy_prefix hcost hempty schedule request (hf.keptBy_strict hcost schedule hstrict)
  · intro c hc
    obtain ⟨pre, post, hparts, -⟩ := (hf.exact_scan hcost schedule hstrict).beyond c hc
    simp [hparts]
  · intro i hi hbig
    obtain ⟨rest, hready⟩ := List.head?_eq_some_iff.mp hi
    exact hf.cutoff_strict hcost schedule hstrict hready hbig

/-- **A strict collection succeeds** with the longest affordable prefix, if the budget affords the
first ready neuron or none is ready. -/
theorem Sound.collectBy_strict_of_le (hf : f.Sound) (hcost : f.net.CostsFit)
    (hempty : f.subset = []) (schedule : List Nat) {request : Request}
    (hstrict : request.strict = true)
    (hfit : ∀ i ∈ f.ready.head?, f.net.bytesOf i ≤ request.budget) :
    f.collectBy schedule request = (f.withSubset (affordable f.net.bytesOf request.budget f.ready),
      .ok (affordable f.net.bytesOf request.budget f.ready)) :=
  (hf.collectBy_strict hcost hempty schedule hstrict).1 hfit

/-- **A strict collection reports** the first ready neuron, if the budget does not afford it. -/
theorem Sound.collectBy_strict_of_lt (hf : f.Sound) (hcost : f.net.CostsFit)
    (hempty : f.subset = []) (schedule : List Nat) {request : Request}
    (hstrict : request.strict = true) {i : Nat} (hi : i ∈ f.ready.head?)
    (hbig : request.budget < f.net.bytesOf i) :
    f.collectBy schedule request =
      (f.withSubset [], fail (.exhausted (f.net.bytesOf i) request.budget)) :=
  (hf.collectBy_strict hcost hempty schedule hstrict).2 i hi hbig

/-- **A strict collection is exact whatever the workers do.**  In a frontier that is reached by
any history and waits for no confirmation, it keeps the longest prefix of the ready neurons that
the budget affords, with any number of threads and in any order of their steps: it stores this
prefix, reserves its neurons and changes no other.  It reports an exhausted budget exactly if the
budget does not afford the first ready neuron alone.

**Proof sketch.** A reachable frontier is sound, so that the candidates of a strict scan are the
ready neurons.  One step of any worker keeps the invariant that every ready neuron is held, still
pending or cut off, and that the budget does not reach the cutoff; so a whole scan keeps it. -/
theorem strict_collection_exact {net : Net} (hnet : net.totalBytes < Word.limit)
    (hf : Reachable net f) (hempty : f.subset = []) (budget : Nat) :
    ∃ chosen, Affords net.bytesOf budget f.ready chosen ∧
      ∀ (threads : Nat) (schedule : List Nat),
        ((∀ i ∈ f.ready.head?, net.bytesOf i ≤ budget) →
          f.collectBy schedule ⟨threads, budget, true⟩ = (f.withSubset chosen, .ok chosen)) ∧
        (∀ i ∈ f.ready.head?, budget < net.bytesOf i →
          f.collectBy schedule ⟨threads, budget, true⟩ =
            ({ f with iteration := f.nextIteration },
              fail (.exhausted (net.bytesOf i) budget))) ∧
        ((∃ required limit, (f.collectBy schedule ⟨threads, budget, true⟩).2 =
            fail (.exhausted required limit)) ↔
          ∃ i ∈ f.ready.head?, budget < net.bytesOf i) := by
  have hcost := Net.costsFit_of_totalBytes hnet
  obtain ⟨hsound, rfl⟩ := hf.sound hcost
  refine ⟨affordable f.net.bytesOf budget f.ready, affords_affordable, fun threads schedule => ?_⟩
  have hfits : (∀ i ∈ f.ready.head?, f.net.bytesOf i ≤ budget) →
      f.collectBy schedule ⟨threads, budget, true⟩ = _ := fun hfit =>
    hsound.collectBy_strict_of_le hcost hempty schedule rfl hfit
  have hexceeds : ∀ i ∈ f.ready.head?, budget < f.net.bytesOf i →
      f.collectBy schedule ⟨threads, budget, true⟩ = _ := fun i hi hbig =>
    hsound.collectBy_strict_of_lt hcost hempty schedule rfl hi hbig
  rw [← withSubset_nil hempty]
  refine ⟨hfits, hexceeds, ?_⟩
  constructor
  · rintro ⟨required, limit, hreport⟩
    by_contra hnone
    rw [hfits fun i hi => Nat.le_of_not_lt fun hbig => hnone ⟨i, hi, hbig⟩] at hreport
    cases hreport
  · rintro ⟨i, hi, hbig⟩
    exact ⟨_, _, congrArg Prod.snd (hexceeds i hi hbig)⟩

/-- In the diamond net, after its first neuron, two neurons are ready, and a budget for one of them
affords the first. -/
theorem strict_collection_exact_diamond :
    ∃ f, Reachable Net.diamond f ∧ f.subset = [] ∧ f.ready = [1, 2] ∧
      ∀ (threads : Nat) (schedule : List Nat),
        f.collectBy schedule ⟨threads, 121, true⟩ = (f.withSubset [1], .ok [1]) := by
  have hf : Reachable Net.diamond _ :=
    .process (.collect (.start (f := initial Net.diamond) (by rfl)) [] ⟨1, 1000, true⟩) 0
  refine ⟨_, hf, by decide +kernel, by decide +kernel, fun threads schedule => ?_⟩
  obtain ⟨chosen, hchosen, h⟩ :=
    strict_collection_exact (by decide) hf (by decide +kernel) 121
  have hone : chosen = [1] := hchosen.eq_affordable.trans (by decide +kernel)
  exact hone ▸ (h threads schedule).1 (by decide +kernel)

end Frontier

end NeuralPlan
