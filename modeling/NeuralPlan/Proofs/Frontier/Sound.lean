import Mathlib.Data.List.Count
import Mathlib.Tactic
import NeuralPlan.Frontier
import NeuralPlan.Proofs.Graph
import NeuralPlan.Proofs.Walks

/-!
# Sound frontiers

What the parts of a frontier say about each other: the counts of the neurons agree with what is
processed, the subset with what is reserved.  A confirmation keeps a frontier sound, whether it
succeeds or not.

## Main definitions

* `Status.count?` — the count of a neuron that is not processed.
* `Frontier.isDone` — whether a neuron is processed.
* `Frontier.Sound`, `Frontier.Counted` — the invariant, and what it says of the count.

## Main results

* `Frontier.releaseAll_eq` — several neurons are released at once.
* `Frontier.Sound.confirmProcessed`, `confirmOmitted`, `resetRemaining` — confirmations.
-/

set_option relaxedAutoImplicit false
set_option autoImplicit false

namespace NeuralPlan

/-! ## States -/

namespace Status

/-- The count of a neuron that is not processed. -/
def count? : Status → Option Nat
  | waiting satisfied => some satisfied
  | reserved _ satisfied => some satisfied
  | processed => none

/-- A reservation keeps the count. -/
@[simp] theorem count?_reserve (k : Nat) (s : Status) : (s.reserve k).count? = s.count? := by
  cases s <;> rfl

/-- A release keeps the count. -/
@[simp] theorem count?_release (s : Status) : s.release.count? = s.count? := by
  cases s <;> rfl

/-- Several references are satisfied at once. -/
theorem satisfy_iterate (m : Nat) (s : Status) :
    satisfy^[m] s = match s with
      | waiting satisfied => waiting (satisfied + m)
      | reserved iteration satisfied => reserved iteration (satisfied + m)
      | processed => processed := by
  induction m generalizing s with
  | zero => cases s <;> rfl
  | succ m ih =>
    rw [Function.iterate_succ_apply, ih]
    cases s <;> simp [satisfy, Nat.add_assoc, Nat.add_comm 1 m]

/-- Satisfied references add up. -/
theorem count?_satisfy_iterate (m : Nat) (s : Status) :
    (satisfy^[m] s).count? = s.count?.map (· + m) := by
  rw [satisfy_iterate]
  cases s <;> rfl

/-- A neuron stays reserved by the same collection while references are satisfied, and only a
reserved one is. -/
theorem satisfy_iterate_eq_reserved_iff {m k c : Nat} {s : Status} :
    satisfy^[m] s = reserved k c ↔ ∃ b, s = reserved k b ∧ c = b + m := by
  rw [satisfy_iterate]
  cases s <;> simp [eq_comm]

/-- A neuron stays processed while references are satisfied, and only a processed one is. -/
theorem satisfy_iterate_eq_processed_iff {m : Nat} {s : Status} :
    satisfy^[m] s = processed ↔ s = processed := by
  rw [satisfy_iterate]
  cases s <;> simp

end Status

/-! ## Changes at several positions -/

section Modify

variable {α : Type} (g : α → α)

/-- Changing positions one after another changes each as often as it is listed. -/
theorem getElem?_foldl_modify (l : List Nat) (xs : Array α) (i : Nat) :
    (l.foldl (fun xs j => xs.modify j g) xs)[i]? = xs[i]?.map (g^[l.count i]) := by
  induction l generalizing xs with
  | nil => simp
  | cons j l ih =>
    rw [List.foldl_cons, ih, Array.getElem?_modify, List.count_cons]
    by_cases hj : j = i
    · subst hj
      cases xs[j]? <;> simp
    · simp [hj]

/-- Changing positions one after another keeps the size. -/
@[simp] theorem size_foldl_modify (l : List Nat) (xs : Array α) :
    (l.foldl (fun xs j => xs.modify j g) xs).size = xs.size := by
  induction l generalizing xs with
  | nil => rfl
  | cons j l ih => rw [List.foldl_cons, ih, Array.size_modify]

/-- Changing different positions changes each that is listed once. -/
theorem getElem?_foldl_modify_of_nodup {l : List Nat} (hl : l.Nodup) (xs : Array α) (i : Nat) :
    (l.foldl (fun xs j => xs.modify j g) xs)[i]? =
      xs[i]?.map fun x => if i ∈ l then g x else x := by
  rw [getElem?_foldl_modify, hl.count]
  split <;> simp

end Modify

/-- One more element satisfies a condition on a list as often as it occurs. -/
theorem countP_or_eq {α : Type} [DecidableEq α] (p : α → Bool) (a : α) (ha : p a = false)
    (l : List α) : l.countP (fun x => p x || x == a) = l.countP p + l.count a := by
  induction l with
  | nil => rfl
  | cons x l ih =>
    rw [List.countP_cons, List.countP_cons, List.count_cons, ih]
    by_cases hx : x = a
    · subst hx; simp [ha]; omega
    · simp [hx]; omega

/-! ## The invariant -/

namespace Frontier

/-- Whether the neuron `i` is processed. -/
def isDone (f : Frontier) (i : Nat) : Bool := f.status[i]? == some .processed

/-- The parts of a frontier agree. -/
structure Sound (f : Frontier) : Prop where
  /-- Every neuron has a state. -/
  size : f.status.size = f.net.neuronCount
  /-- What the neurons read is what their references name. -/
  reads : ∀ i, f.readsAt i = f.net.inputsOf i
  /-- What the neurons read are neurons of the net. -/
  reads_lt : ∀ i j, f.net.Reads i j → j < f.net.neuronCount
  /-- A neuron is listed among the readers of another one as often as it reads it. -/
  readers : ∀ i, ∀ j < f.net.neuronCount,
    (f.readers[j]?.getD []).count i = (f.net.inputsOf i).count j
  /-- The count of a neuron is the number of its references to processed neurons. -/
  counted : ∀ (i : Nat) s c, f.status[i]? = some s → s.count? = some c →
    c = (f.net.inputsOf i).countP f.isDone
  /-- The subset holds the reserved neurons. -/
  reserved : ∀ i : Nat, i ∈ f.subset ↔ ∃ k c, f.status[i]? = some (Status.reserved k c)
  /-- All of these are reserved by the last collection. -/
  latest : ∀ i k c : Nat, f.status[i]? = some (Status.reserved k c) → k = f.iteration
  /-- The subset is in ascending order. -/
  sorted : f.subset.Pairwise (· < ·)
  /-- The processed neurons are counted. -/
  processed : f.processed = (List.range f.net.neuronCount).countP f.isDone

/-- A processed neuron is one of the net. -/
theorem lt_of_isDone {f : Frontier} {i : Nat} (h : f.isDone i = true) : i < f.status.size := by
  simp only [isDone, beq_iff_eq] at h
  exact (Array.getElem?_eq_some_iff.mp h).1

/-- A neuron of the subset is one of the net. -/
theorem Sound.lt_of_mem_subset {f : Frontier} (hf : f.Sound) {i : Nat} (hi : i ∈ f.subset) :
    i < f.net.neuronCount := by
  obtain ⟨k, c, h⟩ := (hf.reserved i).mp hi
  exact hf.size ▸ (Array.getElem?_eq_some_iff.mp h).1

/-- The subset holds no neuron twice. -/
theorem Sound.nodup {f : Frontier} (hf : f.Sound) : f.subset.Nodup :=
  hf.sorted.imp fun h => h.ne

/-- Every neuron of the net has a state, and the processed neurons are counted. -/
structure Counted (net : Net) (f : Frontier) : Prop where
  netEq : f.net = net
  size : f.status.size = net.neuronCount
  processed : f.processed = (List.range net.neuronCount).countP f.isDone

/-- The work is finished exactly if every neuron is processed. -/
theorem Counted.finished_iff {net : Net} {f : Frontier} (hf : Counted net f) :
    f.finished = true ↔ ∀ i < net.neuronCount, f.isDone i = true := by
  rw [finished, neuronCount, beq_iff_eq, hf.processed, hf.size]
  conv_lhs => rhs; rw [← List.length_range (n := net.neuronCount)]
  rw [List.countP_eq_length]
  simp

/-- The work of a sound frontier is finished exactly if every neuron is processed. -/
theorem Sound.finished_iff {f : Frontier} (hf : f.Sound) :
    f.finished = true ↔ ∀ i < f.net.neuronCount, f.isDone i = true :=
  Counted.finished_iff ⟨rfl, hf.size, hf.processed⟩

/-! ## Releases and confirmations -/

/-- A neuron that is reserved is released. -/
theorem release_eq {f : Frontier} {i k c : Nat} (h : f.status[i]? = some (.reserved k c)) :
    f.release i = .ok { f with status := f.status.modify i .release } := by
  obtain ⟨hi, hs⟩ := Array.getElem?_eq_some_iff.mp h
  simp [release, statusAt, hi, hs, Status.isReserved]

/-- Several neurons that are reserved are released at once. -/
theorem releaseAll_eq {f : Frontier} {l : List Nat} (hl : l.Nodup)
    (h : ∀ i ∈ l, ∃ k c, f.status[i]? = some (.reserved k c)) :
    f.releaseAll l =
      ({ f with status := l.foldl (fun st i => st.modify i .release) f.status }, .ok ()) := by
  induction l generalizing f with
  | nil => rfl
  | cons i l ih =>
    obtain ⟨hi, hl⟩ := List.nodup_cons.mp hl
    obtain ⟨k, c, hic⟩ := h i (by simp)
    simp only [releaseAll, release_eq hic, List.foldl_cons]
    rw [ih hl]
    intro j hj
    obtain ⟨k', c', hjc⟩ := h j (List.mem_cons_of_mem _ hj)
    have hij : i ≠ j := fun e => hi (e ▸ hj)
    exact ⟨k', c', by simp [Array.getElem?_modify, hij, hjc]⟩

variable {f : Frontier}

/-- The frontier after the neurons `l` are given back and `rest` is left of the subset. -/
def giveBack (f : Frontier) (l rest : List Nat) : Frontier :=
  { f with
    status := l.foldl (fun st i => st.modify i .release) f.status
    subset := rest }

/-- The neurons of a part of the subset are reserved. -/
theorem Sound.reserved_of_append (hf : f.Sound) {l rest : List Nat} (hsub : f.subset = l ++ rest) :
    ∀ i ∈ l, ∃ k c, f.status[i]? = some (.reserved k c) :=
  fun i hi => (hf.reserved i).mp (hsub ▸ List.mem_append_left _ hi)

/-- Giving back neurons of the subset releases just these. -/
theorem Sound.getElem?_status_giveBack (hf : f.Sound) {l rest : List Nat}
    (hsub : f.subset = l ++ rest) (i : Nat) :
    (f.giveBack l rest).status[i]? =
      f.status[i]?.map fun s => if i ∈ l then s.release else s :=
  getElem?_foldl_modify_of_nodup Status.release (List.nodup_append.mp (hsub ▸ hf.nodup)).1
    f.status i

/-- Giving back neurons of the subset processes none. -/
theorem Sound.isDone_giveBack (hf : f.Sound) {l rest : List Nat} (hsub : f.subset = l ++ rest) :
    (f.giveBack l rest).isDone = f.isDone := by
  funext i
  unfold isDone
  rw [hf.getElem?_status_giveBack hsub]
  by_cases hi : i ∈ l
  · obtain ⟨k, c, hic⟩ := hf.reserved_of_append hsub i hi
    simp [hic, hi, Status.release]
  · simp [hi]

/-- The neurons that are still reserved after some are given back. -/
theorem Sound.reserved_giveBack_iff (hf : f.Sound) {l rest : List Nat} (hsub : f.subset = l ++ rest)
    {i k c : Nat} : (f.giveBack l rest).status[i]? = some (Status.reserved k c) ↔
      i ∉ l ∧ f.status[i]? = some (.reserved k c) := by
  rw [hf.getElem?_status_giveBack hsub]
  by_cases hi : i ∈ l
  · obtain ⟨k', c', hic⟩ := hf.reserved_of_append hsub i hi
    simp [hic, hi, Status.release]
  · simp [hi]

/-- Giving back the neurons of a part of the subset keeps a frontier sound. -/
theorem Sound.giveBack (hf : f.Sound) {l rest : List Nat} (hsub : f.subset = l ++ rest) :
    (f.giveBack l rest).Sound := by
  have hdone := hf.isDone_giveBack hsub
  have hdisj : ∀ i ∈ rest, i ∉ l := fun i hr hl =>
    (List.nodup_append.mp (hsub ▸ hf.nodup)).2.2 i hl i hr rfl
  refine ⟨by simpa [Frontier.giveBack] using hf.size, hf.reads, hf.reads_lt, hf.readers,
    ?_, ?_, ?_, ?_, ?_⟩
  · intro i s c hs hc
    rw [hf.getElem?_status_giveBack hsub, Option.map_eq_some_iff] at hs
    obtain ⟨s', hs', rfl⟩ := hs
    rw [hdone]
    refine hf.counted i s' c hs' ?_
    split at hc <;> simpa using hc
  · intro i
    change i ∈ rest ↔ _
    simp only [hf.reserved_giveBack_iff hsub]
    constructor
    · intro hi
      obtain ⟨k, c, hic⟩ := (hf.reserved i).mp (hsub ▸ List.mem_append_right _ hi)
      exact ⟨k, c, hdisj i hi, hic⟩
    · rintro ⟨k, c, hl, hic⟩
      have hmem := (hf.reserved i).mpr ⟨k, c, hic⟩
      rw [hsub] at hmem
      exact (List.mem_append.mp hmem).resolve_left hl
  · intro i k c hic
    exact hf.latest i k c ((hf.reserved_giveBack_iff hsub).mp hic).2
  · exact (List.pairwise_append.mp (hsub ▸ hf.sorted)).2.1
  · rw [hdone]
    exact hf.processed

/-- The frontier after its first collected neuron is processed. -/
def processFirst (f : Frontier) (i : Nat) (rest : List Nat) : Frontier :=
  { f with
    status := (f.readers[i]?.getD []).foldl (fun st reader => st.modify reader .satisfy)
      (f.status.set! i .processed)
    processed := f.processed + 1
    subset := rest }

/-- Processing one neuron more makes that one processed. -/
theorem isDone_processFirst {i : Nat} (hi : i < f.status.size) (rest : List Nat) (j : Nat) :
    (f.processFirst i rest).isDone j = (f.isDone j || j == i) := by
  have hiff : (f.processFirst i rest).isDone j = true ↔ f.isDone j = true ∨ j = i := by
    simp only [isDone, processFirst, beq_iff_eq, getElem?_foldl_modify, Option.map_eq_some_iff,
      Status.satisfy_iterate_eq_processed_iff, exists_eq_right, Array.set!_eq_setIfInBounds,
      Array.getElem?_setIfInBounds]
    by_cases hj : i = j
    · simp [← hj, hi]
    · simp [hj, Ne.symm hj]
  rw [Bool.eq_iff_iff, hiff]
  simp

/-- Processing one neuron more counts it wherever it is listed. -/
theorem countP_isDone_processFirst {i : Nat} (hi : i < f.status.size) (hnew : f.isDone i = false)
    (rest l : List Nat) :
    l.countP (f.processFirst i rest).isDone = l.countP f.isDone + l.count i := by
  rw [← countP_or_eq f.isDone i hnew]
  exact List.countP_congr fun j _ => by rw [isDone_processFirst hi]

/-- Processing a neuron satisfies every reference that names it. -/
theorem Sound.getElem?_status_processFirst (hf : f.Sound) {i : Nat} (hi : i < f.net.neuronCount)
    (rest : List Nat) (j : Nat) :
    (f.processFirst i rest).status[j]? =
      if j = i then some .processed
      else f.status[j]?.map (Status.satisfy^[(f.net.inputsOf j).count i]) := by
  simp only [Frontier.processFirst, getElem?_foldl_modify, hf.readers j i hi,
    Array.set!_eq_setIfInBounds, Array.getElem?_setIfInBounds]
  by_cases hj : i = j
  · subst hj
    simp [hf.size, hi, Status.satisfy_iterate]
  · simp [hj, Ne.symm hj]

/-- The neurons that are still reserved after one is processed, and what they are counted. -/
theorem Sound.reserved_processFirst_iff (hf : f.Sound) {i : Nat} (hi : i < f.net.neuronCount)
    {rest : List Nat} {j k c : Nat} :
    (f.processFirst i rest).status[j]? = some (Status.reserved k c) ↔
      j ≠ i ∧ ∃ b, f.status[j]? = some (.reserved k b) ∧
        c = b + (f.net.inputsOf j).count i := by
  rw [hf.getElem?_status_processFirst hi]
  by_cases hj : j = i
  · simp [hj]
  · simp [hj, Status.satisfy_iterate_eq_reserved_iff]

/-- Processing the first collected neuron keeps a frontier sound. -/
theorem Sound.processFirst (hf : f.Sound) {i : Nat} {rest : List Nat}
    (hsub : f.subset = i :: rest) : (f.processFirst i rest).Sound := by
  have hmem : i ∈ f.subset := by simp [hsub]
  have hlt := hf.lt_of_mem_subset hmem
  obtain ⟨hnot, -⟩ := List.nodup_cons.mp (hsub ▸ hf.nodup)
  have hnew : f.isDone i = false := by
    obtain ⟨k, c, hic⟩ := (hf.reserved i).mp hmem
    simp [isDone, hic]
  have hcount := countP_isDone_processFirst (hf.size.symm ▸ hlt) hnew rest
  refine ⟨by simpa [Frontier.processFirst] using hf.size, hf.reads, hf.reads_lt, hf.readers,
    ?_, ?_, ?_, ?_, ?_⟩
  · intro j s c hs hc
    rw [hf.getElem?_status_processFirst hlt] at hs
    by_cases hj : j = i
    · rw [if_pos hj, Option.some.injEq] at hs
      simp [← hs, Status.count?] at hc
    · rw [if_neg hj, Option.map_eq_some_iff] at hs
      obtain ⟨s', hs', rfl⟩ := hs
      rw [Status.count?_satisfy_iterate, Option.map_eq_some_iff] at hc
      obtain ⟨c', hc', rfl⟩ := hc
      change c' + _ = (f.net.inputsOf j).countP (f.processFirst i rest).isDone
      rw [hcount, hf.counted j s' c' hs' hc']
  · intro j
    change j ∈ rest ↔ _
    simp only [hf.reserved_processFirst_iff hlt]
    constructor
    · intro hj
      obtain ⟨k, b, hb⟩ := (hf.reserved j).mp (hsub ▸ List.mem_cons_of_mem _ hj)
      exact ⟨k, _, fun e => hnot (e ▸ hj), b, hb, rfl⟩
    · rintro ⟨k, _, hne, b, hb, -⟩
      have hbefore := (hf.reserved j).mpr ⟨k, b, hb⟩
      rw [hsub] at hbefore
      exact (List.mem_cons.mp hbefore).resolve_left hne
  · intro j k c hjc
    obtain ⟨-, b, hb, -⟩ := (hf.reserved_processFirst_iff hlt).mp hjc
    exact hf.latest j k b hb
  · exact (List.pairwise_cons.mp (hsub ▸ hf.sorted)).2
  · have hone := List.count_eq_one_of_mem List.nodup_range (List.mem_range.mpr hlt)
    change f.processed + 1 = (List.range f.net.neuronCount).countP (f.processFirst i rest).isDone
    rw [hcount, hone, hf.processed]

/-- A confirmation of anything but the first collected neuron changes nothing. -/
theorem dropFirst_eq_ok_iff {i : Nat} {g : Frontier} :
    f.dropFirst i = .ok g ↔
      i < f.neuronCount ∧ ∃ rest, f.subset = i :: rest ∧ g = { f with subset := rest } := by
  by_cases hlt : i < f.neuronCount
  · have hcheck : checkIndex .neuron i f.neuronCount = .ok () := checkIndex_eq_ok_iff.mpr hlt
    simp only [dropFirst, hcheck, Result.ok_bind]
    cases hs : f.subset with
    | nil => simp
    | cons first rest =>
      by_cases hi : first = i
      · simp [hi, hlt, eq_comm]
      · simp [hi]
  · simp [dropFirst, checkIndex, hlt]

/-- A confirmation that is refused changes nothing. -/
theorem confirmProcessed_refused {i : Nat} {e : Failure} (h : f.dropFirst i = .error e) :
    f.confirmProcessed i = (f, .error e) := by
  rw [confirmProcessed, h]

/-- An omission that is refused changes nothing. -/
theorem confirmOmitted_refused {i : Nat} {e : Failure} (h : f.dropFirst i = .error e) :
    f.confirmOmitted i = (f, .error e) := by
  rw [confirmOmitted, h]

/-- Confirming the first collected neuron as processed. -/
theorem Sound.confirmProcessed_first (hf : f.Sound) {i : Nat} {rest : List Nat}
    (hsub : f.subset = i :: rest) : f.confirmProcessed i = (f.processFirst i rest, .ok ()) := by
  have hmem : i ∈ f.subset := by simp [hsub]
  obtain ⟨k, c, hi⟩ := (hf.reserved i).mp hmem
  obtain ⟨hlt, hs⟩ := Array.getElem?_eq_some_iff.mp hi
  have hdrop : f.dropFirst i = .ok { f with subset := rest } :=
    dropFirst_eq_ok_iff.mpr ⟨hlt, rest, hsub, rfl⟩
  simp [confirmProcessed, hdrop, process, statusAt, hlt, hs, Status.isReserved, settle,
    Frontier.processFirst]

/-- Confirming the first collected neuron as omitted. -/
theorem Sound.confirmOmitted_first (hf : f.Sound) {i : Nat} {rest : List Nat}
    (hsub : f.subset = i :: rest) : f.confirmOmitted i = (f.giveBack [i] rest, .ok ()) := by
  have hmem : i ∈ f.subset := by simp [hsub]
  obtain ⟨k, c, hi⟩ := (hf.reserved i).mp hmem
  obtain ⟨hlt, -⟩ := Array.getElem?_eq_some_iff.mp hi
  have hdrop : f.dropFirst i = .ok { f with subset := rest } :=
    dropFirst_eq_ok_iff.mpr ⟨hlt, rest, hsub, rfl⟩
  have hrel := release_eq (f := { f with subset := rest }) hi
  simp [confirmOmitted, hdrop, hrel, settle, Frontier.giveBack]

/-- **A confirmation as processed** keeps a frontier sound, also when it is refused. -/
theorem Sound.confirmProcessed (hf : f.Sound) (i : Nat) : (f.confirmProcessed i).1.Sound := by
  cases hdrop : f.dropFirst i with
  | error e => rwa [confirmProcessed_refused hdrop]
  | ok g =>
    obtain ⟨-, rest, hsub, -⟩ := dropFirst_eq_ok_iff.mp hdrop
    rw [hf.confirmProcessed_first hsub]
    exact hf.processFirst hsub

/-- **A confirmation as omitted** keeps a frontier sound, also when it is refused. -/
theorem Sound.confirmOmitted (hf : f.Sound) (i : Nat) : (f.confirmOmitted i).1.Sound := by
  cases hdrop : f.dropFirst i with
  | error e => rwa [confirmOmitted_refused hdrop]
  | ok g =>
    obtain ⟨-, rest, hsub, -⟩ := dropFirst_eq_ok_iff.mp hdrop
    rw [hf.confirmOmitted_first hsub]
    exact hf.giveBack (l := [i]) hsub

/-- Omitting all that is left of the subset gives it back. -/
theorem Sound.resetRemaining_eq (hf : f.Sound) :
    f.resetRemaining = (f.giveBack f.subset [], .ok ()) :=
  releaseAll_eq (f := { f with subset := [] }) hf.nodup fun i hi => (hf.reserved i).mp hi

/-- **Omitting all that is left** of the subset keeps a frontier sound. -/
theorem Sound.resetRemaining (hf : f.Sound) : f.resetRemaining.1.Sound := by
  rw [hf.resetRemaining_eq]
  exact hf.giveBack (by simp)

end Frontier

end NeuralPlan
