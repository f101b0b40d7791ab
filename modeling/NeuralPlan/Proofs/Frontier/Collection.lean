import Mathlib.Data.List.Sort
import Mathlib.Tactic
import NeuralPlan.Proofs.Frontier.Reservations
import NeuralPlan.Proofs.Frontier.Start

/-!
# The end of a collection

After the scan the held neurons are sorted; the longest affordable prefix below the cutoff is
kept, and the rest is given back.  What a collection answers is thus determined by the held
neurons and the cutoff, and it keeps a frontier sound.

## Main definitions

* `heldIds` — the held neurons in ascending order.
* `Frontier.withSubset` — the frontier after a collection that has kept the neurons of a list.
* `Frontier.Reachable` — the frontiers of a net after any history of public operations.

## Main results

* `Frontier.collectBy_eq` — the answer of a collection, from the held neurons and the cutoff.
* `Frontier.Sound.collectBy` — a collection keeps a frontier sound.
* `Frontier.Reachable.sound` — every reachable frontier is sound.
-/

set_option relaxedAutoImplicit false
set_option autoImplicit false

namespace NeuralPlan

/-- Whether a neuron lies below the cutoff. -/
def Scan.isBelow (s : Scan) (i : Nat) : Bool :=
  match s.cutoff with
  | none => true
  | some cutoff => decide (i < cutoff)

/-- The neurons that the workers hold, in ascending order. -/
def heldIds (ws : List Worker) : List Nat := (Frontier.gather ws).map Prod.fst

namespace Frontier

/-! ## Sorting and splitting -/

section Gather

variable {f : Frontier} {budget k : Nat} {s : Scan} {ws : List Worker}

/-- What the workers hand over is sorted. -/
theorem gather_perm_handover (ws : List Worker) : (gather ws).Perm (ws.flatMap Worker.handover) :=
  List.mergeSort_perm _ _

/-- The workers hand over what they hold. -/
theorem gather_perm (h : Scan.Tracks f budget k s ws) : (gather ws).Perm (heldBy ws) := by
  have hsame : ws.flatMap Worker.handover = heldBy ws :=
    List.flatMap_congr fun w hw => by simp [Worker.handover, h.unfailed w hw]
  exact hsame ▸ gather_perm_handover ws

/-- The sorted neurons are the held ones. -/
theorem mem_heldIds (h : Scan.Tracks f budget k s ws) {i : Nat} :
    i ∈ heldIds ws ↔ i ∈ (heldBy ws).map Prod.fst :=
  ((gather_perm h).map Prod.fst).mem_iff

/-- The sorted neurons are in strictly ascending order. -/
theorem sorted_heldIds (h : Scan.Tracks f budget k s ws) : (heldIds ws).Pairwise (· < ·) := by
  have hnodup : (heldIds ws).Nodup :=
    ((gather_perm h).map Prod.fst).nodup_iff.mpr (List.nodup_append.mp h.nodup).1
  have hle : (heldIds ws).Pairwise (· ≤ ·) := by
    refine List.pairwise_map.mpr ((List.pairwise_mergeSort ?_ ?_ _).imp fun {a b} hab => ?_)
    · intro a b c hab hbc
      simp only [decide_eq_true_eq] at hab hbc ⊢
      omega
    · intro a b
      simp only [Bool.or_eq_true, decide_eq_true_eq]
      omega
    · simpa using hab
  exact (hle.and hnodup).imp fun hab => lt_of_le_of_ne hab.1 hab.2

/-- The held neurons come with their costs. -/
theorem cost_of_mem_gather (h : Scan.Tracks f budget k s ws) :
    ∀ e ∈ gather ws, e.2 = f.net.bytesOf e.1 :=
  fun e he => h.cost e ((gather_perm h).mem_iff.mp he)

/-- One step of the split. -/
theorem split_cons (i c : Nat) (entries : List (Nat × Nat)) (used : Nat) :
    split s budget used ((i, c) :: entries) =
      if s.isBelow i ∧ used + c ≤ budget then
        (i :: (split s budget (used + c) entries).1, (split s budget (used + c) entries).2)
      else ([], i :: entries.map Prod.fst) := by
  rw [split]
  change (if (s.isBelow i && decide (used + c ≤ budget)) = true then _ else _) = _
  simp only [Bool.and_eq_true, decide_eq_true_eq]

/-- The split keeps the longest affordable prefix below the cutoff. -/
theorem split_fst (cost : Nat → Nat) (entries : List (Nat × Nat)) (used : Nat)
    (hused : used ≤ budget) (hcost : ∀ e ∈ entries, e.2 = cost e.1) :
    (split s budget used entries).1 =
      affordable cost (budget - used) ((entries.map Prod.fst).takeWhile s.isBelow) := by
  induction entries generalizing used with
  | nil => rfl
  | cons e entries ih =>
    obtain ⟨i, c⟩ := e
    obtain ⟨hc, hrest⟩ := List.forall_mem_cons.mp hcost
    simp only at hc
    subst hc
    rw [split_cons, List.map_cons, List.takeWhile_cons]
    cases hb : s.isBelow i with
    | false => simp [affordable]
    | true =>
      by_cases hfit : used + cost i ≤ budget
      · have hrec := ih (used + cost i) hfit hrest
        have hleft : cost i ≤ budget - used := by omega
        simp only [hfit, true_and, if_true, affordable, hrec, hleft, Nat.sub_sub]
      · have hleft : ¬cost i ≤ budget - used := by omega
        simp [hfit, affordable, hleft]

/-- The split parts the neurons. -/
theorem split_append (s : Scan) (budget : Nat) (entries : List (Nat × Nat)) (used : Nat) :
    (split s budget used entries).1 ++ (split s budget used entries).2 =
      entries.map Prod.fst := by
  induction entries generalizing used with
  | nil => rfl
  | cons e entries ih =>
    obtain ⟨i, c⟩ := e
    rw [split_cons, List.map_cons]
    split
    next h => exact congrArg (i :: ·) (ih (used + c))
    next h => rfl

end Gather

/-! ## The answer of a collection -/

/-- The frontier after a collection has kept the neurons `chosen`. -/
def withSubset (f : Frontier) (chosen : List Nat) : Frontier :=
  { f with
    iteration := f.nextIteration
    status := f.status.mapIdx fun i s => if i ∈ chosen then s.reserve f.nextIteration else s
    subset := chosen }

/-- What a collection keeps, from the held neurons and the cutoff. -/
def keptBy (f : Frontier) (budget : Nat) (s : Scan) (ws : List Worker) : List Nat :=
  affordable f.net.bytesOf budget ((heldIds ws).takeWhile s.isBelow)

variable {f : Frontier}

/-- A collection that keeps nothing has only taken a number. -/
theorem withSubset_nil (hempty : f.subset = []) :
    f.withSubset [] = { f with iteration := f.nextIteration } := by
  have hsame : (f.status.mapIdx fun i s => if i ∈ [] then s.reserve f.nextIteration else s) =
      f.status := Array.ext (by simp) fun i _ _ => by simp
  rw [withSubset, hsame, ← hempty]

section Release

variable {s : Scan} {ws : List Worker} {broken kept freed : List Nat}

/-- What a scan has reserved is handed over or lost. -/
theorem takenBy_perm_heldIds (broken : List Nat) (ws : List Worker) :
    (takenBy broken ws).Perm (heldIds ws ++ lostBy broken ws) :=
  (takenBy_perm broken ws).trans (((gather_perm_handover ws).map _).symm.append_right _)

/-- The neurons that are handed over and not kept are released, and what is kept or lost is
reserved. -/
theorem status_conclude {k : Nat} (h : Scan.Reserves f k s ws broken)
    (hparts : kept ++ freed = heldIds ws) :
    freed.foldl (fun st i => st.modify i .release) s.status =
      f.status.mapIdx fun i st => if i ∈ kept ++ lostBy broken ws then st.reserve k else st := by
  have htaken := takenBy_perm_heldIds broken ws
  have hnodup := htaken.nodup_iff.mp (List.nodup_append.mp h.nodup).1
  rw [← hparts] at hnodup htaken
  obtain ⟨hids, -, hlost⟩ := List.nodup_append.mp hnodup
  obtain ⟨-, hfreed, hdisj⟩ := List.nodup_append.mp hids
  refine Array.ext_getElem? fun i => ?_
  rw [getElem?_foldl_modify_of_nodup _ hfreed, h.status, Array.getElem?_mapIdx, Option.map_map]
  by_cases hi : i ∈ freed
  · have hk : i ∉ kept ++ lostBy broken ws := by
      rw [List.mem_append]
      rintro (hk | hk)
      · exact hdisj i hk i hi rfl
      · exact hlost i (List.mem_append_right _ hi) i hk rfl
    obtain ⟨c, hc⟩ := h.waiting i (htaken.mem_iff.mpr (by simp [hi]))
    simp [htaken.mem_iff, hi, hk, hc, Status.reserve, Status.release]
  · simp [htaken.mem_iff, hi, Function.comp_def]

/-- Releasing what is handed over and not kept leaves just what is kept or lost. -/
theorem releaseAll_scan (h : Scan.Reserves f f.nextIteration s ws broken)
    (hparts : kept ++ freed = heldIds ws) :
    releaseAll { f with iteration := f.nextIteration, status := s.status } freed =
      ({ f.withSubset (kept ++ lostBy broken ws) with subset := f.subset }, .ok ()) := by
  have htaken := takenBy_perm_heldIds broken ws
  have hnodup := htaken.nodup_iff.mp (List.nodup_append.mp h.nodup).1
  rw [← hparts] at hnodup htaken
  have hreserved : ∀ i ∈ freed, ∃ k c, s.status[i]? = some (.reserved k c) := by
    intro i hi
    have hmem : i ∈ takenBy broken ws := htaken.mem_iff.mpr (by simp [hi])
    obtain ⟨c, hc⟩ := h.waiting i hmem
    exact ⟨f.nextIteration, c, by rw [h.status, hc]; simp [hmem, Status.reserve]⟩
  have hfreed : freed.Nodup := (List.nodup_append.mp (List.nodup_append.mp hnodup).1).2.1
  rw [releaseAll_eq hfreed hreserved]
  simp only [status_conclude h hparts, withSubset]

end Release

/-- **The answer of a collection**, from the held neurons and the cutoff. -/
theorem collectBy_eq (hf : f.Sound) (hcost : f.net.CostsFit) (hempty : f.subset = [])
    (schedule : List Nat) (request : Request) :
    f.collectBy schedule request =
      match f.keptBy request.budget (f.scan schedule request).1 (f.scan schedule request).2,
        (f.scan schedule request).1.cutoff with
      | [], some cutoff => (f.withSubset [],
          fail (.exhausted (f.net.bytesOf cutoff) request.budget))
      | kept, _ => (f.withSubset kept, .ok kept) := by
  have h := tracks_scan hf.size hcost schedule request
  have hrun : f.collectBy schedule request =
      conclude { f with iteration := f.nextIteration } request.budget
        (f.scan schedule request).1 (f.scan schedule request).2 := by
    simp only [collectBy, hempty, List.isEmpty_nil, if_true]
    rfl
  rw [hrun]
  generalize (f.scan schedule request).1 = s at h ⊢
  generalize (f.scan schedule request).2 = ws at h ⊢
  have hfailed : ws.any Worker.failed = false := by
    simpa using h.unfailed
  have hkept : (split s request.budget 0 (gather ws)).1 = f.keptBy request.budget s ws :=
    split_fst f.net.bytesOf (gather ws) 0 (Nat.zero_le _) (cost_of_mem_gather h)
  have hparts : (split s request.budget 0 (gather ws)).1 ++
      (split s request.budget 0 (gather ws)).2 = heldIds ws :=
    split_append s request.budget (gather ws) 0
  rw [hkept] at hparts
  have hrelease := releaseAll_scan h.reserves hparts
  rw [h.reserves.lostBy_eq hfailed, List.append_nil] at hrelease
  unfold conclude
  simp only [hfailed, hkept, Bool.false_eq_true, if_false, hrelease]
  cases hk : f.keptBy request.budget s ws with
  | cons i kept => simp only [withSubset]
  | nil =>
    have hnil : { f.withSubset [] with subset := f.subset } = f.withSubset [] := by
      simp only [withSubset, hempty]
    rw [hnil]
    cases hcut : s.cutoff with
    | none => simp only [withSubset]
    | some cutoff =>
      have hlt := h.cutoff cutoff hcut
      have hcutoff : costAt (f.withSubset []) cutoff = .ok (f.net.bytesOf cutoff) :=
        costAt_eq_ok_iff.mpr ⟨hlt, hcost cutoff, rfl⟩
      simp only [hcutoff]

/-- A collection that succeeds answers what it keeps, and stores it. -/
theorem Sound.collectBy_of_ok (hf : f.Sound) (hcost : f.net.CostsFit) (hempty : f.subset = [])
    {schedule : List Nat} {request : Request} {kept : List Nat}
    (hanswer : (f.collectBy schedule request).2 = .ok kept) :
    f.collectBy schedule request = (f.withSubset kept, .ok kept) ∧
      f.keptBy request.budget (f.scan schedule request).1 (f.scan schedule request).2 = kept := by
  rw [collectBy_eq hf hcost hempty] at hanswer ⊢
  split at hanswer
  next => cases hanswer
  next =>
    obtain rfl := Except.ok.inj hanswer
    exact ⟨rfl, rfl⟩

/-- **A collection that takes neurons from the front of a list** keeps the longest prefix that the
budget affords, or reports the first neuron, if the budget does not afford it: provided that it
keeps no other neurons, cuts off neurons of the list only, and cuts off the first if it keeps
none. -/
theorem Sound.collectBy_prefix (hf : f.Sound) (hcost : f.net.CostsFit) (hempty : f.subset = [])
    (schedule : List Nat) (request : Request) {l : List Nat}
    (hkept : f.keptBy request.budget (f.scan schedule request).1 (f.scan schedule request).2 =
      affordable f.net.bytesOf request.budget l)
    (hcut : ∀ c ∈ (f.scan schedule request).1.cutoff, c ∈ l)
    (hfirst : ∀ i ∈ l.head?, request.budget < f.net.bytesOf i →
      (f.scan schedule request).1.cutoff = some i) :
    ((∀ i ∈ l.head?, f.net.bytesOf i ≤ request.budget) →
      f.collectBy schedule request =
        (f.withSubset (affordable f.net.bytesOf request.budget l),
          .ok (affordable f.net.bytesOf request.budget l))) ∧
    ∀ i ∈ l.head?, request.budget < f.net.bytesOf i →
      f.collectBy schedule request =
        (f.withSubset [], fail (.exhausted (f.net.bytesOf i) request.budget)) := by
  rw [collectBy_eq hf hcost hempty, hkept]
  cases l with
  | nil =>
    have hnone : (f.scan schedule request).1.cutoff = none :=
      Option.eq_none_iff_forall_not_mem.mpr fun c hc => by simpa using hcut c hc
    simp [affordable, hnone]
  | cons i rest =>
    constructor
    · intro hfit
      have hle : f.net.bytesOf i ≤ request.budget := hfit i (by simp)
      simp [affordable, hle]
    · intro j hj hbig
      obtain rfl : i = j := by simpa using hj
      rw [affordable_cons_eq_nil_iff.mpr hbig, hfirst i (by simp) hbig]

/-- A collection that comes while the last one is not confirmed changes nothing. -/
theorem collectBy_refused (hsub : f.subset ≠ []) (schedule : List Nat) (request : Request) :
    f.collectBy schedule request = (f, fail (.invalidState .subsetPending)) := by
  simp [collectBy, hsub]

/-! ## Collections and the invariant -/

/-- The state of a neuron after a collection has kept some. -/
theorem getElem?_status_withSubset (f : Frontier) (chosen : List Nat) (i : Nat) :
    (f.withSubset chosen).status[i]? =
      f.status[i]?.map fun s => if i ∈ chosen then s.reserve f.nextIteration else s :=
  Array.getElem?_mapIdx

/-- What a collection keeps is not processed. -/
theorem isDone_withSubset (f : Frontier) (chosen : List Nat) :
    (f.withSubset chosen).isDone = f.isDone := by
  funext i
  simp only [isDone, getElem?_status_withSubset]
  cases f.status[i]? with
  | none => rfl
  | some s => by_cases hi : i ∈ chosen <;> cases s <;> simp [hi, Status.reserve]

/-- Keeping neurons that wait, in ascending order, keeps a frontier sound. -/
theorem Sound.withSubset (hf : f.Sound) (hempty : f.subset = []) {chosen : List Nat}
    (hsorted : chosen.Pairwise (· < ·))
    (hwaiting : ∀ i ∈ chosen, ∃ c, f.status[i]? = some (.waiting c)) :
    (f.withSubset chosen).Sound := by
  have hget := getElem?_status_withSubset f chosen
  have hdone := isDone_withSubset f chosen
  have hkept : ∀ i k c, (f.withSubset chosen).status[i]? = some (Status.reserved k c) ↔
      i ∈ chosen ∧ k = f.nextIteration ∧ f.status[i]? = some (.waiting c) := by
    intro i k c
    rw [hget]
    by_cases hi : i ∈ chosen
    · obtain ⟨b, hb⟩ := hwaiting i hi
      simp [hi, hb, Status.reserve, eq_comm]
    · have hnone : f.status[i]? ≠ some (.reserved k c) := fun h => by
        have := (hf.reserved i).mpr ⟨k, c, h⟩
        simp [hempty] at this
      simp [hi, hnone]
  refine ⟨by simpa [Frontier.withSubset] using hf.size, hf.reads, hf.reads_lt, hf.readers,
    ?_, ?_, ?_, hsorted, ?_⟩
  · intro i s c hs hc
    rw [hget, Option.map_eq_some_iff] at hs
    obtain ⟨s', hs', rfl⟩ := hs
    rw [hdone]
    refine hf.counted i s' c hs' ?_
    split at hc <;> simpa using hc
  · intro i
    change i ∈ chosen ↔ _
    simp only [hkept]
    constructor
    · intro hi
      obtain ⟨c, hc⟩ := hwaiting i hi
      exact ⟨_, c, hi, rfl, hc⟩
    · rintro ⟨_, _, hi, -⟩
      exact hi
  · exact fun i k c h => ((hkept i k c).mp h).2.1
  · rw [hdone]
    exact hf.processed

/-- What a collection keeps is held at the end of its scan. -/
theorem keptBy_sublist (f : Frontier) (budget : Nat) (s : Scan) (ws : List Worker) :
    (f.keptBy budget s ws).Sublist (heldIds ws) :=
  affords_affordable.isPrefix.sublist.trans (List.takeWhile_sublist _)

/-- Keeping what a collection keeps keeps a frontier sound. -/
theorem Sound.withSubset_keptBy (hf : f.Sound) (hcost : f.net.CostsFit) (hempty : f.subset = [])
    (schedule : List Nat) (request : Request) :
    (f.withSubset (f.keptBy request.budget (f.scan schedule request).1
      (f.scan schedule request).2)).Sound := by
  have h := tracks_scan hf.size hcost schedule request
  have hsub := f.keptBy_sublist request.budget (f.scan schedule request).1
    (f.scan schedule request).2
  refine hf.withSubset hempty ((sorted_heldIds h).sublist hsub) fun i hi => ?_
  obtain ⟨e, he, rfl⟩ := List.mem_map.mp ((mem_heldIds h).mp (hsub.subset hi))
  exact h.waiting e he

/-- **A collection** keeps a frontier sound, in whatever order its workers take their steps and
whatever it answers. -/
theorem Sound.collectBy (hf : f.Sound) (hcost : f.net.CostsFit) (schedule : List Nat)
    (request : Request) : (f.collectBy schedule request).1.Sound := by
  by_cases hempty : f.subset = []
  · have hkept := hf.withSubset_keptBy hcost hempty schedule request
    rw [collectBy_eq hf hcost hempty]
    split
    next hnil _ => simpa only [hnil] using hkept
    next => exact hkept
  · rw [collectBy_refused hempty]
    exact hf

/-! ## Histories -/

/-- The frontiers of a net after any history of operations, refused ones included. -/
inductive Reachable (net : Net) : Frontier → Prop
  /-- The first frontier. -/
  | start {f : Frontier} (hf : ofNet net = .ok f) : Reachable net f
  /-- A collection, with the steps of the workers in any order. -/
  | collect {f : Frontier} (hf : Reachable net f) (schedule : List Nat) (request : Request) :
      Reachable net (f.collectBy schedule request).1
  /-- A confirmation as processed. -/
  | process {f : Frontier} (hf : Reachable net f) (i : Nat) :
      Reachable net (f.confirmProcessed i).1
  /-- A confirmation as omitted. -/
  | leave {f : Frontier} (hf : Reachable net f) (i : Nat) : Reachable net (f.confirmOmitted i).1
  /-- The rest of the subset is omitted. -/
  | reset {f : Frontier} (hf : Reachable net f) : Reachable net f.resetRemaining.1

/-- A collection keeps the net. -/
theorem Sound.net_collectBy (hf : f.Sound) (hcost : f.net.CostsFit) (schedule : List Nat)
    (request : Request) : (f.collectBy schedule request).1.net = f.net := by
  by_cases hempty : f.subset = []
  · rw [collectBy_eq hf hcost hempty]
    split <;> rfl
  · rw [collectBy_refused hempty]

/-- A confirmation as processed keeps the net. -/
theorem Sound.net_confirmProcessed (hf : f.Sound) (i : Nat) :
    (f.confirmProcessed i).1.net = f.net := by
  cases hdrop : f.dropFirst i with
  | error e => rw [confirmProcessed_refused hdrop]
  | ok g =>
    obtain ⟨-, rest, hsub, -⟩ := dropFirst_eq_ok_iff.mp hdrop
    rw [hf.confirmProcessed_first hsub]
    rfl

/-- A confirmation as omitted keeps the net. -/
theorem Sound.net_confirmOmitted (hf : f.Sound) (i : Nat) :
    (f.confirmOmitted i).1.net = f.net := by
  cases hdrop : f.dropFirst i with
  | error e => rw [confirmOmitted_refused hdrop]
  | ok g =>
    obtain ⟨-, rest, hsub, -⟩ := dropFirst_eq_ok_iff.mp hdrop
    rw [hf.confirmOmitted_first hsub]
    rfl

/-- **Every reachable frontier is sound**, and is one of its net.

**Proof sketch.** Induction on the history: the first frontier is sound, and every operation
keeps a frontier sound. -/
theorem Reachable.sound {net : Net} (hcost : net.CostsFit) (h : Reachable net f) :
    f.Sound ∧ f.net = net := by
  induction h with
  | start hf =>
    obtain ⟨hread, rfl⟩ := ofNet_eq_ok_iff.mp hf
    exact ⟨sound_initial hread, rfl⟩
  | collect _ schedule request ih =>
    have hcost' : _ := ih.2.symm ▸ hcost
    exact ⟨ih.1.collectBy hcost' schedule request,
      (ih.1.net_collectBy hcost' schedule request).trans ih.2⟩
  | process _ i ih => exact ⟨ih.1.confirmProcessed i, (ih.1.net_confirmProcessed i).trans ih.2⟩
  | leave _ i ih => exact ⟨ih.1.confirmOmitted i, (ih.1.net_confirmOmitted i).trans ih.2⟩
  | reset _ ih =>
    refine ⟨ih.1.resetRemaining, ?_⟩
    rw [ih.1.resetRemaining_eq]
    exact ih.2

end Frontier

end NeuralPlan
