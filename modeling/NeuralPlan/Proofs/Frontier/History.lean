import NeuralPlan.Proofs.Frontier.Outcomes
import NeuralPlan.Proofs.Plan.Costs

/-!
# Frontiers after any history

A caller may ask a frontier for anything at any time: to collect neurons strictly or not, to
confirm a neuron that is not the next one, to give back a subset that is empty.  Some of these
operations are refused, and the frontier goes on from what they leave.  Whatever the history, the
frontier tells the truth: its subset holds the reserved neurons, the counts and the number of
processed neurons are right, and what is processed stays so.

## Main definitions

* `Frontier.Operation` — what a caller may ask of a frontier, queries apart.
* `Frontier.after` — the frontier after a history of operations, refused ones included.

## Main results

* `Frontier.Sound.isSolvable_eq_ok_true_iff` — what the count of a neuron decides.
* `Frontier.Reachable.isDone_after` — a processed neuron stays processed.
* `Frontier.history_consistent` — what the frontier of a net says after any history.
-/

set_option relaxedAutoImplicit false
set_option autoImplicit false

namespace NeuralPlan.Frontier

/-! ## Queries -/

section Queries

variable {f : Frontier} {i : Nat}

/-- A neuron of the net has a state. -/
theorem statusAt_eq_ok_iff {s : Status} : f.statusAt i = .ok s ↔ f.status[i]? = some s := by
  rw [Array.getElem?_eq_some_iff, statusAt]
  split
  next hi => simp [hi]
  next hi => simp [hi]

/-- A query about the state of a neuron is answered for the neurons of the net. -/
theorem query_eq_ok_iff (p : Status → Bool) (b : Bool) :
    (do return p (← f.statusAt i) : Result Bool) = .ok b ↔
      ∃ s, f.status[i]? = some s ∧ p s = b := by
  simp only [Result.bind_eq_ok_iff, statusAt_eq_ok_iff, Result.pure_eq_ok, Except.ok.injEq]

/-- The query for a processed neuron. -/
theorem isProcessed_eq_ok_true_iff : f.isProcessed i = .ok true ↔ f.isDone i = true := by
  unfold isProcessed
  rw [query_eq_ok_iff (· == .processed)]
  simp [isDone]

/-- The query for a neuron that is not processed. -/
theorem isProcessed_eq_ok_false_iff :
    f.isProcessed i = .ok false ↔ i < f.status.size ∧ f.isDone i = false := by
  unfold isProcessed
  rw [query_eq_ok_iff (· == .processed)]
  by_cases hi : i < f.status.size
  · simp [isDone, hi]
  · simp [hi]

/-- The query for a reserved neuron. -/
theorem isReserved_eq_ok_true_iff :
    f.isReserved i = .ok true ↔ ∃ k c, f.status[i]? = some (.reserved k c) := by
  unfold isReserved
  rw [query_eq_ok_iff Status.isReserved]
  constructor
  · rintro ⟨s, hs, hreserved⟩
    cases s with
    | waiting c => cases hreserved
    | reserved k c => exact ⟨k, c, hs⟩
    | processed => cases hreserved
  · rintro ⟨k, c, hs⟩
    exact ⟨_, hs, rfl⟩

/-- A neuron is neither reserved nor processed if it waits. -/
theorem waiting_iff : (∃ c, f.status[i]? = some (.waiting c)) ↔
    f.isReserved i = .ok false ∧ f.isProcessed i = .ok false := by
  unfold isReserved isProcessed
  rw [query_eq_ok_iff Status.isReserved, query_eq_ok_iff (· == .processed)]
  constructor
  · rintro ⟨c, hc⟩
    exact ⟨⟨_, hc, rfl⟩, ⟨_, hc, rfl⟩⟩
  · rintro ⟨⟨s, hs, hreserved⟩, t, ht, hprocessed⟩
    obtain rfl : s = t := Option.some.inj (hs.symm.trans ht)
    cases s with
    | waiting c => exact ⟨c, hs⟩
    | reserved k c => cases hreserved
    | processed => cases hprocessed

/-- Every reserved neuron is held by the last collection. -/
theorem Sound.isInProgress_eq (hf : f.Sound) (i : Nat) : f.isInProgress i = f.isReserved i := by
  unfold isInProgress isReserved
  cases hs : f.statusAt i with
  | error e => rfl
  | ok s =>
    cases s with
    | waiting c => rfl
    | reserved k c =>
      have hk := hf.latest i k c (statusAt_eq_ok_iff.mp hs)
      simp [hk, Status.isReservedIn, Status.isReserved]
    | processed => rfl

/-- The count of a neuron that is not processed is how many of its references to neurons name
processed ones. -/
theorem Sound.count?_eq (hf : f.Sound) {s : Status} (hs : f.status[i]? = some s)
    (hopen : f.isDone i = false) : s.count? = some ((f.net.inputsOf i).countP f.isDone) := by
  cases hc : s.count? with
  | none =>
    cases s with
    | waiting c => cases hc
    | reserved k c => cases hc
    | processed => simp [isDone, hs] at hopen
  | some c => rw [hf.counted i s c hs hc]

/-- **A neuron is solvable** exactly if it waits and every neuron that it reads is processed. -/
theorem Sound.isSolvable_eq_ok_true_iff (hf : f.Sound) :
    f.isSolvable i = .ok true ↔
      (∃ c, f.status[i]? = some (.waiting c)) ∧ ∀ j ∈ f.net.inputsOf i, f.isDone j = true := by
  unfold isSolvable
  rw [query_eq_ok_iff (· == .waiting (f.readsAt i).length), hf.reads]
  constructor
  · rintro ⟨s, hs, hfull⟩
    obtain rfl := beq_iff_eq.mp hfull
    have hcount := hf.counted i _ _ hs rfl
    exact ⟨⟨_, hs⟩, List.countP_eq_length.mp hcount.symm⟩
  · rintro ⟨⟨c, hc⟩, hdone⟩
    obtain rfl : c = (f.net.inputsOf i).length :=
      (hf.counted i _ c hc rfl).trans (List.countP_eq_length.mpr hdone)
    exact ⟨_, hc, beq_self_eq_true _⟩

end Queries

/-! ## Histories -/

/-- What a caller may ask of a frontier, with any arguments.  Queries leave a frontier as it is. -/
inductive Operation
  /-- A collection, with the steps of its workers in any order. -/
  | collect (schedule : List Nat) (request : Request)
  /-- The neuron `i` is confirmed as processed. -/
  | process (i : Nat)
  /-- The neuron `i` is confirmed as omitted. -/
  | leave (i : Nat)
  /-- The rest of the subset is omitted. -/
  | reset

/-- The frontier that an operation leaves, whether it succeeds or not. -/
def perform (f : Frontier) : Operation → Frontier
  | .collect schedule request => (f.collectBy schedule request).1
  | .process i => (f.confirmProcessed i).1
  | .leave i => (f.confirmOmitted i).1
  | .reset => f.resetRemaining.1

/-- The frontier after a history of operations. -/
def after (f : Frontier) (history : List Operation) : Frontier := history.foldl perform f

variable {net : Net} {f : Frontier}

/-- A frontier that is reached goes on to frontiers that are reached. -/
theorem Reachable.perform (hf : Reachable net f) (op : Operation) :
    Reachable net (f.perform op) := by
  cases op with
  | collect schedule request => exact hf.collect schedule request
  | process i => exact hf.process i
  | leave i => exact hf.leave i
  | reset => exact hf.reset

/-- A frontier is reached by any history. -/
theorem Reachable.after (hf : Reachable net f) (history : List Operation) :
    Reachable net (f.after history) := by
  induction history generalizing f with
  | nil => exact hf
  | cons op history ih => exact ih (hf.perform op)

/-- One operation leaves a processed neuron processed. -/
theorem Sound.isDone_perform (hf : f.Sound) {i : Nat} (hi : f.isDone i = true) (op : Operation) :
    (f.perform op).isDone i = true := by
  cases op with
  | collect schedule request => exact ((same_collectBy f schedule request).done i).trans hi
  | process j =>
    cases hdrop : f.dropFirst j with
    | error e => rwa [Frontier.perform, confirmProcessed_refused hdrop]
    | ok g =>
      obtain ⟨hj, rest, hsub, -⟩ := dropFirst_eq_ok_iff.mp hdrop
      simp only [Frontier.perform, hf.confirmProcessed_first hsub]
      rw [isDone_processFirst hj, hi, Bool.true_or]
  | leave j => exact ((same_confirmOmitted f j).done i).trans hi
  | reset => exact ((same_releaseAll { f with subset := [] } f.subset).done i).trans hi

/-- **A processed neuron stays processed**, whatever follows.

**Proof sketch.** Induction on the history; the frontier stays reachable, hence sound, and each
operation keeps what is processed. -/
theorem Reachable.isDone_after (hcost : net.CostsFit) (hf : Reachable net f) {i : Nat}
    (hi : f.isDone i = true) (history : List Operation) :
    (f.after history).isDone i = true := by
  induction history generalizing f with
  | nil => exact hi
  | cons op history ih =>
    have hsound := (hf.sound hcost).1
    exact ih (hf.perform op) (hsound.isDone_perform hi op)

/-- A processed neuron is not in the subset. -/
theorem Sound.not_mem_subset (hf : f.Sound) {i : Nat} (hi : f.isDone i = true) :
    i ∉ f.subset := by
  intro hmem
  obtain ⟨k, c, hs⟩ := (hf.reserved i).mp hmem
  simp [isDone, hs] at hi

/-- **A frontier is consistent after any history** of operations with any arguments, refused ones
included, of a net whose costs fit.

1. The subset is in ascending order and holds exactly the reserved neurons, which the last
   collection has reserved.
2. The count of a neuron that is not processed is the number of its references to processed
   neurons, so that a neuron is solvable exactly if it is neither reserved nor processed and
   every neuron that it reads is processed.
3. The processed neurons are counted, so that the work is finished exactly if all are processed.
4. A processed neuron stays processed whatever follows, and no later collection answers it.

**Proof sketch.** Every frontier that is reached is sound, which is one lemma per operation and an
induction on the history; the four parts are read off the invariant. -/
theorem history_consistent {start : Frontier} (hnet : net.totalBytes < Word.limit)
    (hstart : ofNet net = .ok start) (history : List Operation) :
    ((start.after history).subset.Pairwise (· < ·) ∧
      (∀ i, i ∈ (start.after history).subset ↔ (start.after history).isReserved i = .ok true) ∧
      (∀ i k c, (start.after history).statusAt i = .ok (.reserved k c) →
        k = (start.after history).iteration) ∧
      ∀ i, (start.after history).isInProgress i = (start.after history).isReserved i) ∧
    ((∀ i < net.neuronCount, (start.after history).isProcessed i = .ok false →
        ∃ s, (start.after history).statusAt i = .ok s ∧
          s.count? = some ((net.inputsOf i).countP (start.after history).isDone)) ∧
      ∀ i, (start.after history).isSolvable i = .ok true ↔
        (start.after history).isReserved i = .ok false ∧
        (start.after history).isProcessed i = .ok false ∧
        ∀ j, net.Reads i j → (start.after history).isProcessed j = .ok true) ∧
    ((start.after history).processed =
        (List.range net.neuronCount).countP (start.after history).isDone ∧
      ((start.after history).finished = true ↔
        ∀ i < net.neuronCount, (start.after history).isProcessed i = .ok true)) ∧
    ∀ i, (start.after history).isProcessed i = .ok true → ∀ later : List Operation,
      ((start.after history).after later).isProcessed i = .ok true ∧
      i ∉ ((start.after history).after later).subset ∧
      ∀ (schedule : List Nat) (request : Request) (kept : List Nat),
        (((start.after history).after later).collectBy schedule request).2 = .ok kept →
          i ∉ kept := by
  have hcost := Net.costsFit_of_totalBytes hnet
  have hreach : Reachable net (start.after history) := (Reachable.start hstart).after history
  generalize start.after history = f at hreach ⊢
  obtain ⟨hf, rfl⟩ := hreach.sound hcost
  refine ⟨⟨hf.sorted, fun i => ?_, fun i k c hs => ?_, hf.isInProgress_eq⟩, ⟨?_, fun i => ?_⟩,
    ⟨hf.processed, ?_⟩, fun i hi later => ?_⟩
  · rw [isReserved_eq_ok_true_iff]
    exact hf.reserved i
  · exact hf.latest i k c (statusAt_eq_ok_iff.mp hs)
  · intro i hi hopen
    have hget : f.status[i]? = some _ := Array.getElem?_eq_getElem (hf.size.symm ▸ hi)
    exact ⟨_, statusAt_eq_ok_iff.mpr hget,
      hf.count?_eq hget (isProcessed_eq_ok_false_iff.mp hopen).2⟩
  · rw [hf.isSolvable_eq_ok_true_iff, waiting_iff, and_assoc]
    simp only [isProcessed_eq_ok_true_iff]
    rfl
  · rw [hf.finished_iff]
    simp only [isProcessed_eq_ok_true_iff]
  · rw [isProcessed_eq_ok_true_iff] at hi ⊢
    have hlater := hreach.after later
    have hdone := hreach.isDone_after hcost hi later
    obtain ⟨hsound, hsame⟩ := hlater.sound hcost
    refine ⟨hdone, hsound.not_mem_subset hdone, fun schedule request kept hkept => ?_⟩
    have hend := ((hlater.collect schedule request).sound hcost).1
    rw [← subset_collectBy hsound.size hkept]
    exact hend.not_mem_subset (((same_collectBy _ schedule request).done i).trans hdone)

/-- In the diamond net, the first two neurons are collected and processed, with refused
confirmations and an empty reset in between.  The third one can then be solved, the last one counts
one of its two references, and whatever follows, the second one stays processed. -/
theorem history_consistent_diamond :
    ∃ history : List Operation, ∃ f : Frontier, f = (initial Net.diamond).after history ∧
      f.isSolvable 2 = .ok true ∧ f.isSolvable 3 = .ok false ∧
      (∃ s, f.statusAt 3 = .ok s ∧ s.count? = some 1) ∧
      ∀ later, (f.after later).isProcessed 1 = .ok true ∧ 1 ∉ (f.after later).subset := by
  let history : List Operation := [.collect [1, 0] ⟨2, 130, false⟩, .process 2, .process 0,
    .collect [] ⟨1, 130, true⟩, .leave 1, .collect [] ⟨1, 130, false⟩, .process 1, .process 1,
    .reset]
  have hstart : ofNet Net.diamond = .ok (initial Net.diamond) := by rfl
  obtain ⟨-, ⟨hcount, -⟩, -, hstays⟩ := history_consistent (by decide) hstart history
  refine ⟨history, _, rfl, by decide +kernel, by decide +kernel, ?_, fun later => ?_⟩
  · obtain ⟨s, hs, hc⟩ := hcount 3 (by decide) (by decide +kernel)
    exact ⟨s, hs, hc.trans (by decide +kernel)⟩
  · obtain ⟨hdone, hmem, -⟩ := hstays 1 (by decide +kernel) later
    exact ⟨hdone, hmem⟩

end NeuralPlan.Frontier
