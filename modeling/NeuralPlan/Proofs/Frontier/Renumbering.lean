import NeuralPlan.Proofs.Frontier.History

/-!
# The numbers of collections

Collections are numbered, and a reservation says which collection has made it.  The numbers themselves
do not matter: at any time all reservations are those of the last collection, and a collection asks
only whether a reservation is its own.  So a frontier that counts its collections from another number
answers everything alike, now and after any history.

## Main definitions

* `Status.renumber`, `Scan.renumber`, `Frontier.numbered` — other numbers.
* `Frontier.answer`, `Frontier.answers` — what a caller is told, at one operation and in a history.
* `Frontier.Alike` — two frontiers answer all queries alike.

## Main results

* `Scan.run_renumber` — a scan commutes with a permutation of the numbers.
* `Frontier.Sound.perform_numbered` — what an operation does does not depend on the number.
* `Frontier.Reachable.answers_numbered` — nor does what a history is told.
-/

set_option relaxedAutoImplicit false
set_option autoImplicit false

namespace NeuralPlan

/-! ## States -/

namespace Status

/-- The state with another number of its collection. -/
def renumber (σ : Nat → Nat) : Status → Status
  | reserved iteration satisfied => reserved (σ iteration) satisfied
  | s => s

variable (σ : Nat → Nat) (s : Status)

/-- Another number leaves a reservation a reservation. -/
@[simp] theorem isReserved_renumber : (s.renumber σ).isReserved = s.isReserved := by
  cases s <;> rfl

/-- The number is not counted. -/
@[simp] theorem count?_renumber : (s.renumber σ).count? = s.count? := by
  cases s <;> rfl

/-- Only a processed state becomes a processed one. -/
@[simp] theorem renumber_eq_processed_iff : s.renumber σ = processed ↔ s = processed := by
  cases s <;> simp [renumber]

/-- Only a waiting state becomes a waiting one. -/
@[simp] theorem renumber_eq_waiting_iff {c : Nat} : s.renumber σ = waiting c ↔ s = waiting c := by
  cases s <;> simp [renumber]

/-- Satisfying a reference keeps the number. -/
theorem satisfy_renumber : (s.renumber σ).satisfy = s.satisfy.renumber σ := by
  cases s <;> rfl

/-- A release forgets the number. -/
theorem release_renumber : (s.renumber σ).release = s.release.renumber σ := by
  cases s <;> rfl

/-- A reservation takes the new number. -/
theorem reserve_renumber (k : Nat) : (s.renumber σ).reserve (σ k) = (s.reserve k).renumber σ := by
  cases s <;> rfl

/-- A collection knows its own reservations by the new numbers, if these are different. -/
theorem isReservedIn_renumber {σ : Nat → Nat} (hσ : σ.Injective) (k : Nat) :
    (s.renumber σ).isReservedIn (σ k) = s.isReservedIn k := by
  cases s with
  | waiting c => rfl
  | reserved j c => simp [renumber, isReservedIn, hσ.eq_iff]
  | processed => rfl

end Status

/-- Changing a position commutes with a map of all. -/
theorem modify_map {α β : Type} {g : α → α} {g' : β → β} {ρ : α → β}
    (h : ∀ x, g' (ρ x) = ρ (g x)) (xs : Array α) (i : Nat) :
    (xs.map ρ).modify i g' = (xs.modify i g).map ρ := by
  refine Array.ext_getElem? fun j => ?_
  simp only [Array.getElem?_modify, Array.getElem?_map]
  cases xs[j]? with
  | none => simp
  | some x => by_cases hj : i = j <;> simp [hj, h]

/-- Changing several positions commutes with a map of all. -/
theorem foldl_modify_map {α : Type} {g ρ : α → α} (h : ∀ x, g (ρ x) = ρ (g x)) (l : List Nat)
    (xs : Array α) :
    l.foldl (fun xs j => xs.modify j g) (xs.map ρ) =
      (l.foldl (fun xs j => xs.modify j g) xs).map ρ := by
  induction l generalizing xs with
  | nil => rfl
  | cons j l ih => rw [List.foldl_cons, List.foldl_cons, modify_map h, ih]

/-! ## Scans -/

namespace Scan

/-- The scan with other numbers of the collections. -/
def renumber (σ : Nat → Nat) (s : Scan) : Scan :=
  { s with status := s.status.map (Status.renumber σ) }

variable {σ : Nat → Nat} {f : Frontier} {request : Request} {k : Nat}

/-- The state of a neuron gets the new number. -/
theorem statusAt_renumber (s : Scan) (i : Nat) :
    (s.renumber σ).statusAt i = (s.statusAt i).renumber σ := by
  unfold statusAt renumber
  rw [Array.getElem?_map]
  cases s.status[i]? <;> rfl

/-- A reservation takes the new number. -/
theorem reserve_renumber (s : Scan) (i : Nat) :
    (s.renumber σ).reserve (σ k) i = (s.reserve k i).renumber σ :=
  congrArg (Scan.mk · s.cutoff) (modify_map (Status.reserve_renumber σ · k) s.status i)

/-- A neuron that is given back loses its number. -/
theorem reject_renumber (s : Scan) (i : Nat) : (s.renumber σ).reject i = (s.reject i).renumber σ :=
  congrArg (Scan.mk · (s.reject i).cutoff) (modify_map (Status.release_renumber σ) s.status i)

section Run

variable {g : Frontier} (hnet : g.net = f.net) (hreads : g.reads = f.reads) (hσ : σ.Injective)

include hreads hσ in
/-- The candidates are the same. -/
theorem isCandidate_renumber (strict : Bool) (s : Scan) (i : Nat) :
    g.isCandidate strict (σ k) (s.renumber σ) i = f.isCandidate strict k s i := by
  have hbeq : ∀ st : Status, (st.renumber σ == .processed) = (st == .processed) :=
    fun st => by rw [Bool.eq_iff_iff]; simp
  have hread : g.readsAt i = f.readsAt i := by rw [Frontier.readsAt, hreads, Frontier.readsAt]
  unfold Frontier.isCandidate
  simp only [statusAt_renumber, Status.isReservedIn_renumber _ hσ, hbeq, hread]
  cases s.statusAt i with
  | waiting c => rfl
  | reserved j c => rfl
  | processed => rfl

include hnet hreads hσ

/-- One step of a worker commutes with a permutation of the numbers. -/
theorem step_renumber (s : Scan) (w : Worker) :
    Worker.step g request (σ k) (s.renumber σ) w =
      ((Worker.step f request k s w).1.renumber σ, (Worker.step f request k s w).2) := by
  have hbeyond : ∀ i, (s.renumber σ).isBeyond i = s.isBeyond i := fun i => rfl
  have hcost : ∀ i, g.costAt i = f.costAt i := fun i => by
    rw [Frontier.costAt, hnet, Frontier.costAt]
  unfold Worker.step
  split
  next => rfl
  next i rest hp =>
    simp only [hbeyond, hcost, isCandidate_renumber hreads hσ, reserve_renumber, reject_renumber]
    split
    · rfl
    · split
      · split
        · rfl
        · split <;> rfl
      · rfl

/-- Several steps of a worker commute with a permutation of the numbers. -/
theorem steps_renumber (count : Nat) (s : Scan) (w : Worker) :
    Worker.steps g request (σ k) count (s.renumber σ) w =
      ((Worker.steps f request k count s w).1.renumber σ,
        (Worker.steps f request k count s w).2) := by
  induction count generalizing s w with
  | zero => rfl
  | succ count ih =>
    simp only [Worker.steps, step_renumber hnet hreads hσ]
    exact ih _ _

/-- What the workers do until they have finished commutes with a permutation of the numbers. -/
theorem finish_renumber (s : Scan) (ws : List Worker) :
    finish g request (σ k) (s.renumber σ) ws =
      ((finish f request k s ws).1.renumber σ, (finish f request k s ws).2) := by
  induction ws generalizing s with
  | nil => rfl
  | cons w ws ih => simp only [finish, steps_renumber hnet hreads hσ, ih]

/-- The step of the worker at a place commutes with a permutation of the numbers. -/
theorem stepAt_renumber (s : Scan) (ws : List Worker) (place : Nat) :
    stepAt g request (σ k) (s.renumber σ) ws place =
      ((stepAt f request k s ws place).1.renumber σ, (stepAt f request k s ws place).2) := by
  induction ws generalizing place with
  | nil => rfl
  | cons w ws ih =>
    cases place with
    | zero => simp only [stepAt, step_renumber hnet hreads hσ]
    | succ place => simp only [stepAt, ih]

/-- **A whole scan commutes with a permutation of the numbers**: its workers hold the same neurons,
whatever the numbers. -/
theorem run_renumber (schedule : List Nat) (s : Scan) (ws : List Worker) :
    run g request (σ k) schedule (s.renumber σ) ws =
      ((run f request k schedule s ws).1.renumber σ, (run f request k schedule s ws).2) := by
  induction schedule generalizing s ws with
  | nil => exact finish_renumber hnet hreads hσ s ws
  | cons place schedule ih =>
    simp only [run, stepAt_renumber hnet hreads hσ]
    exact ih _ _

end Run

end Scan

namespace Frontier

/-! ## Frontiers -/

/-- The frontier whose last collection has the number `n`, as have all reservations. -/
def numbered (f : Frontier) (n : Nat) : Frontier :=
  { f with iteration := n, status := f.status.map (Status.renumber fun _ => n) }

variable {net : Net} {f : Frontier}

/-- The state of a neuron, with the number. -/
theorem getElem?_status_numbered (f : Frontier) (n i : Nat) :
    (f.numbered n).status[i]? = f.status[i]?.map (Status.renumber fun _ => n) :=
  Array.getElem?_map

/-- There are as many neurons. -/
theorem neuronCount_numbered (f : Frontier) (n : Nat) :
    (f.numbered n).neuronCount = f.neuronCount :=
  Array.size_map

/-- All reservations have the number of the last collection already. -/
theorem Sound.numbered_iteration (hf : f.Sound) : f.numbered f.iteration = f := by
  have hsame : f.status.map (Status.renumber fun _ => f.iteration) = f.status := by
    refine Array.ext_getElem? fun i => ?_
    rw [Array.getElem?_map]
    cases hs : f.status[i]? with
    | none => rfl
    | some s =>
      cases s with
      | waiting c => rfl
      | reserved k c => rw [hf.latest i k c hs]; rfl
      | processed => rfl
  rw [numbered, hsame]

/-- If nothing waits for confirmation, there is no reservation with a number. -/
theorem Sound.map_renumber_status (hf : f.Sound) (hempty : f.subset = []) (σ : Nat → Nat) :
    f.status.map (Status.renumber σ) = f.status := by
  refine Array.ext_getElem? fun i => ?_
  rw [Array.getElem?_map]
  cases hs : f.status[i]? with
  | none => rfl
  | some s =>
    cases s with
    | waiting c => rfl
    | reserved k c =>
      have hmem := (hf.reserved i).mpr ⟨k, c, hs⟩
      simp [hempty] at hmem
    | processed => rfl

/-- A number more or less is all that changes, if nothing waits for confirmation. -/
theorem Sound.numbered_of_empty (hf : f.Sound) (hempty : f.subset = []) (n : Nat) :
    f.numbered n = { f with iteration := n } := by
  rw [numbered, hf.map_renumber_status hempty]

/-- The same neurons are processed, whatever the number of the last collection. -/
@[simp] theorem isDone_numbered (f : Frontier) (n : Nat) : (f.numbered n).isDone = f.isDone := by
  funext i
  simp only [isDone, getElem?_status_numbered]
  cases f.status[i]? with
  | none => rfl
  | some s => cases s <;> rfl

/-- Another number keeps a frontier sound. -/
theorem Sound.numbered (hf : f.Sound) (n : Nat) : (f.numbered n).Sound := by
  have hreserved : ∀ i k c : Nat, (f.numbered n).status[i]? = some (.reserved k c) ↔
      k = n ∧ ∃ j, f.status[i]? = some (.reserved j c) := by
    intro i k c
    rw [getElem?_status_numbered]
    cases f.status[i]? with
    | none => simp
    | some s => cases s <;> simp [Status.renumber, eq_comm]
  refine ⟨by simpa [Frontier.numbered] using hf.size, hf.reads, hf.reads_lt, hf.readers,
    fun i s c hs hc => ?_, fun i => ?_, fun i k c hs => ((hreserved i k c).mp hs).1, hf.sorted, ?_⟩
  · rw [getElem?_status_numbered, Option.map_eq_some_iff] at hs
    obtain ⟨s', hs', rfl⟩ := hs
    rw [Status.count?_renumber] at hc
    rw [isDone_numbered]
    exact hf.counted i s' c hs' hc
  · change i ∈ f.subset ↔ _
    simp only [hf.reserved i, hreserved, exists_and_left, exists_eq_left]
    exact exists_comm
  · rw [isDone_numbered]
    exact hf.processed

/-! ## Queries -/

/-- Two frontiers answer all queries alike: those about single neurons, and those about the subset and
the counts of neurons. -/
structure Alike (f g : Frontier) : Prop where
  isProcessed : ∀ i, f.isProcessed i = g.isProcessed i
  isReserved : ∀ i, f.isReserved i = g.isReserved i
  isSolvable : ∀ i, f.isSolvable i = g.isSolvable i
  isInProgress : ∀ i, f.isInProgress i = g.isInProgress i
  inputsAt : ∀ i, f.inputsAt i = g.inputsAt i
  subset : f.subset = g.subset
  processed : f.processed = g.processed
  neuronCount : f.neuronCount = g.neuronCount

/-- A query about the state of a neuron does not see the number, if it does not ask for it. -/
theorem query_numbered (f : Frontier) (n i : Nat) {p : Status → Bool}
    (hp : ∀ s, p (s.renumber fun _ => n) = p s) :
    (do return p (← (f.numbered n).statusAt i) : Result Bool) =
      (do return p (← f.statusAt i)) := by
  unfold statusAt numbered
  by_cases hi : i < f.status.size
  · simp [hi, hp]
  · simp [hi]

/-- **No query sees the number.** -/
theorem Sound.alike_numbered (hf : f.Sound) (n : Nat) : (f.numbered n).Alike f := by
  have hreserved : ∀ i, (f.numbered n).isReserved i = f.isReserved i := fun i =>
    query_numbered f n i (Status.isReserved_renumber _)
  refine ⟨fun i => ?_, hreserved, fun i => ?_, fun i => ?_, fun _ => rfl, rfl, rfl,
    neuronCount_numbered f n⟩
  · refine query_numbered f n i fun s => ?_
    rw [Bool.eq_iff_iff]
    simp
  · refine query_numbered f n i fun s => ?_
    rw [Bool.eq_iff_iff, beq_iff_eq, beq_iff_eq]
    exact Status.renumber_eq_waiting_iff _ s
  · rw [(hf.numbered n).isInProgress_eq, hf.isInProgress_eq, hreserved]

/-! ## Operations -/

/-- What a caller is told by an operation. -/
def answer (f : Frontier) : Operation → Result (List Nat)
  | .collect schedule request => (f.collectBy schedule request).2
  | .process i => (f.confirmProcessed i).2.map fun _ => []
  | .leave i => (f.confirmOmitted i).2.map fun _ => []
  | .reset => f.resetRemaining.2.map fun _ => []

/-- What a caller is told in a history of operations. -/
def answers (f : Frontier) : List Operation → List (Result (List Nat))
  | [] => []
  | op :: history => f.answer op :: (f.perform op).answers history

/-- The neuron that an operation confirms, as processed or as omitted. -/
def Operation.confirms? : Operation → Option Nat
  | .process i => some i
  | .leave i => some i
  | _ => none

/-- A confirmation that is refused changes nothing. -/
theorem perform_of_refused {op : Operation} {i : Nat} {e : Failure} (hop : op.confirms? = some i)
    (hdrop : f.dropFirst i = .error e) : f.perform op = f ∧ f.answer op = .error e := by
  cases op with
  | collect schedule request => cases hop
  | process j =>
    obtain rfl := Option.some.inj hop
    rw [perform, answer, confirmProcessed_refused hdrop]
    exact ⟨rfl, rfl⟩
  | leave j =>
    obtain rfl := Option.some.inj hop
    rw [perform, answer, confirmOmitted_refused hdrop]
    exact ⟨rfl, rfl⟩
  | reset => cases hop

/-- The neurons that are given back do not depend on the number. -/
theorem giveBack_numbered (f : Frontier) (n : Nat) (l rest : List Nat) :
    (f.numbered n).giveBack l rest = (f.giveBack l rest).numbered n := by
  simp only [giveBack, numbered, foldl_modify_map (Status.release_renumber _)]

/-- Nor does what a processed neuron satisfies. -/
theorem processFirst_numbered (f : Frontier) (n i : Nat) (rest : List Nat) :
    (f.numbered n).processFirst i rest = (f.processFirst i rest).numbered n := by
  have hset : (f.status.map (Status.renumber fun _ => n)).set! i .processed =
      (f.status.set! i .processed).map (Status.renumber fun _ => n) := by
    rw [Array.set!_eq_setIfInBounds, Array.set!_eq_setIfInBounds, Array.map_setIfInBounds]
    rfl
  simp only [processFirst, numbered, hset, foldl_modify_map (Status.satisfy_renumber _)]

/-- A confirmation is for the same neuron. -/
theorem dropFirst_numbered (f : Frontier) (n i : Nat) :
    (f.numbered n).dropFirst i = (f.dropFirst i).map fun g => g.numbered n := by
  have hsubset : (f.numbered n).subset = f.subset := rfl
  unfold dropFirst
  rw [neuronCount_numbered, hsubset]
  cases checkIndex .neuron i f.neuronCount with
  | error e => rfl
  | ok u =>
    cases f.subset with
    | nil => rfl
    | cons first rest =>
      simp only [Result.ok_bind]
      split <;> rfl

/-- The workers of a collection hold the same neurons, whatever its number. -/
theorem Sound.scan_numbered (hf : f.Sound) (hempty : f.subset = []) (n : Nat)
    (schedule : List Nat) (request : Request) :
    ((f.numbered n).scan schedule request).1.cutoff = (f.scan schedule request).1.cutoff ∧
      ((f.numbered n).scan schedule request).2 = (f.scan schedule request).2 := by
  -- A permutation takes the number of the one collection to that of the other.
  let σ := Equiv.swap f.nextIteration (f.numbered n).nextIteration
  have hσ : σ f.nextIteration = (f.numbered n).nextIteration := Equiv.swap_apply_left _ _
  have hstart : (⟨(f.numbered n).status, none⟩ : Scan) = Scan.renumber σ ⟨f.status, none⟩ := by
    rw [Scan.renumber, hf.map_renumber_status hempty, hf.numbered_of_empty hempty]
  have hworkers : (f.numbered n).workers request.threads = f.workers request.threads := by
    rw [hf.numbered_of_empty hempty]
    rfl
  have hrun : Scan.run (f.numbered n) request (σ f.nextIteration) schedule
      (Scan.renumber σ ⟨f.status, none⟩) (f.workers request.threads) = _ :=
    Scan.run_renumber (g := f.numbered n) (f := f) rfl rfl σ.injective schedule _ _
  rw [scan, scan, hstart, hworkers, ← hσ, hrun]
  exact ⟨rfl, rfl⟩

/-- A collection reserves with its own number. -/
theorem Sound.withSubset_numbered (hf : f.Sound) (hempty : f.subset = []) (n : Nat)
    (chosen : List Nat) :
    (f.numbered n).withSubset chosen =
      (f.withSubset chosen).numbered (f.numbered n).nextIteration := by
  have hstatus : (f.numbered n).status.mapIdx (fun i s =>
        if i ∈ chosen then s.reserve (f.numbered n).nextIteration else s) =
      (f.withSubset chosen).status.map
        (Status.renumber fun _ => (f.numbered n).nextIteration) := by
    generalize (f.numbered n).nextIteration = m
    have hsame : (f.numbered n).status = f.status.map (Status.renumber fun _ => m) := by
      rw [hf.map_renumber_status hempty, hf.numbered_of_empty hempty]
    rw [hsame]
    refine Array.ext_getElem? fun i => ?_
    rw [Array.getElem?_mapIdx, Array.getElem?_map, Array.getElem?_map,
      getElem?_status_withSubset, Option.map_map, Option.map_map]
    congr 1
    funext s
    dsimp only [Function.comp_apply]
    split
    · exact Status.reserve_renumber (fun _ => m) s f.nextIteration
    · rfl
  rw [Frontier.withSubset, hstatus]
  rfl

/-- **A collection** keeps the same neurons, or reports the same, whatever its number. -/
theorem Sound.collectBy_numbered (hf : f.Sound) (hcost : f.net.CostsFit) (n : Nat)
    (schedule : List Nat) (request : Request) :
    ∃ m, (f.numbered n).collectBy schedule request =
      ((f.collectBy schedule request).1.numbered m, (f.collectBy schedule request).2) := by
  by_cases hempty : f.subset = []
  · obtain ⟨hcutoff, hworkers⟩ := hf.scan_numbered hempty n schedule request
    have hkept : (f.numbered n).keptBy request.budget ((f.numbered n).scan schedule request).1
          ((f.numbered n).scan schedule request).2 =
        f.keptBy request.budget (f.scan schedule request).1 (f.scan schedule request).2 := by
      unfold keptBy Scan.isBelow
      rw [hcutoff, hworkers]
      rfl
    refine ⟨(f.numbered n).nextIteration, ?_⟩
    rw [collectBy_eq (hf.numbered n) hcost hempty, collectBy_eq hf hcost hempty, hkept, hcutoff]
    split
    next => rw [hf.withSubset_numbered hempty]; rfl
    next => rw [hf.withSubset_numbered hempty]
  · exact ⟨n, by rw [collectBy_refused hempty, collectBy_refused (f := f.numbered n) hempty]⟩

/-- **What an operation does** and answers does not depend on the number of the last collection. -/
theorem Sound.perform_numbered (hf : f.Sound) (hcost : f.net.CostsFit) (n : Nat)
    (op : Operation) :
    (∃ m, (f.numbered n).perform op = (f.perform op).numbered m) ∧
      (f.numbered n).answer op = f.answer op := by
  have hrefused : ∀ {i e}, op.confirms? = some i → f.dropFirst i = .error e →
      (∃ m, (f.numbered n).perform op = (f.perform op).numbered m) ∧
        (f.numbered n).answer op = f.answer op := by
    intro i e hop hdrop
    have hdrop' : (f.numbered n).dropFirst i = .error e := by
      rw [dropFirst_numbered, hdrop]
      rfl
    obtain ⟨hsame, hanswer⟩ := perform_of_refused hop hdrop
    obtain ⟨hsame', hanswer'⟩ := perform_of_refused hop hdrop'
    exact ⟨⟨n, by rw [hsame, hsame']⟩, by rw [hanswer, hanswer']⟩
  cases op with
  | collect schedule request =>
    obtain ⟨m, hm⟩ := hf.collectBy_numbered hcost n schedule request
    exact ⟨⟨m, by rw [perform, hm, perform]⟩, by rw [answer, hm, answer]⟩
  | process i =>
    cases hdrop : f.dropFirst i with
    | error e => exact hrefused rfl hdrop
    | ok g =>
      obtain ⟨-, rest, hsub, -⟩ := dropFirst_eq_ok_iff.mp hdrop
      have hfirst := (hf.numbered n).confirmProcessed_first hsub
      refine ⟨⟨n, ?_⟩, ?_⟩
      · rw [perform, perform, hfirst, hf.confirmProcessed_first hsub, processFirst_numbered]
      · rw [answer, answer, hfirst, hf.confirmProcessed_first hsub]
  | leave i =>
    cases hdrop : f.dropFirst i with
    | error e => exact hrefused rfl hdrop
    | ok g =>
      obtain ⟨-, rest, hsub, -⟩ := dropFirst_eq_ok_iff.mp hdrop
      have hfirst := (hf.numbered n).confirmOmitted_first hsub
      refine ⟨⟨n, ?_⟩, ?_⟩
      · rw [perform, perform, hfirst, hf.confirmOmitted_first hsub, giveBack_numbered]
      · rw [answer, answer, hfirst, hf.confirmOmitted_first hsub]
  | reset =>
    have hreset := (hf.numbered n).resetRemaining_eq
    refine ⟨⟨n, ?_⟩, ?_⟩
    · rw [perform, perform, hreset, hf.resetRemaining_eq]
      exact giveBack_numbered f n f.subset []
    · rw [answer, answer, hreset, hf.resetRemaining_eq]

/-- **What a history does** and is told does not depend on the number of the last collection.

**Proof sketch.** Induction on the history: after each operation the two frontiers are still the same
but for a number. -/
theorem Reachable.answers_numbered (hcost : net.CostsFit) (hf : Reachable net f) (n : Nat)
    (history : List Operation) :
    (∃ m, (f.numbered n).after history = (f.after history).numbered m) ∧
      (f.numbered n).answers history = f.answers history := by
  induction history generalizing f n with
  | nil => exact ⟨⟨n, rfl⟩, rfl⟩
  | cons op history ih =>
    obtain ⟨hsound, hnet⟩ := hf.sound hcost
    obtain ⟨⟨m, hperform⟩, hanswer⟩ := hsound.perform_numbered (hnet ▸ hcost) n op
    obtain ⟨hafter, hrest⟩ := ih (hf.perform op) m
    refine ⟨?_, ?_⟩
    · rw [Frontier.after, List.foldl_cons, hperform]
      exact hafter
    · rw [answers, answers, hanswer, hperform, hrest]

end Frontier

end NeuralPlan
