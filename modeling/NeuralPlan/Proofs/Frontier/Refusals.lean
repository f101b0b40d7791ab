import NeuralPlan.Proofs.Frontier.Renumbering

/-!
# Refused operations

An operation of a frontier is refused when it confirms anything but the front of the subset, when it
collects before all is confirmed, or when a collection cannot afford a single neuron.  The last one has
by then reserved neurons in several workers; it gives all of them back.  So no refusal leaves a trace,
but that an exhausted collection has taken a number, and numbers do not matter.

## Main definitions

* `Frontier.Refuses` — which operations are refused, with their reports.

## Main results

* `Frontier.Sound.refuses_of_answer` — an operation that fails is refused for one of these reasons.
* `Frontier.failure_leaves_no_trace` — it leaves the frontier as it was, and so all later answers.
-/

set_option relaxedAutoImplicit false
set_option autoImplicit false

namespace NeuralPlan

/-- Whether a failure reports that a collection cannot afford a neuron. -/
def Failure.isExhausted : Failure → Bool
  | .error (.exhausted _ _) => true
  | _ => false

namespace Frontier

/-- Which operations a frontier refuses, and with which reports. -/
inductive Refuses (f : Frontier) : Operation → Failure → Prop
  /-- The neuron to confirm is not one of the net. -/
  | outOfRange {op : Operation} {i : Nat} (hop : op.confirms? = some i) (hi : f.neuronCount ≤ i) :
      Refuses f op (.error (.outOfRange .neuron i f.neuronCount))
  /-- The neuron to confirm is not the front of the subset. -/
  | notFirst {op : Operation} {i : Nat} (hop : op.confirms? = some i) (hi : i < f.neuronCount)
      (hfirst : f.first? ≠ some i) : Refuses f op (.error (.invalidState (.notFirst i f.first?)))
  /-- A collection comes while the subset is not empty. -/
  | pending (schedule : List Nat) (request : Request) (hsub : f.subset ≠ []) :
      Refuses f (.collect schedule request) (.error (.invalidState .subsetPending))
  /-- A collection keeps no neuron although the neuron `i` could be solved. -/
  | exhausted (schedule : List Nat) (request : Request) (hsub : f.subset = []) {i : Nat}
      (hi : i < f.neuronCount) :
      Refuses f (.collect schedule request) (.error (.exhausted (f.net.bytesOf i) request.budget))

variable {net : Net} {f : Frontier} {op : Operation} {e : Failure}

/-- A confirmation fails for an index that is out of range or is not the front of the subset. -/
theorem refuses_of_dropFirst {i : Nat} (hop : op.confirms? = some i)
    (h : f.dropFirst i = .error e) : f.Refuses op e := by
  unfold dropFirst at h
  by_cases hi : i < f.neuronCount
  · rw [checkIndex_eq_ok_iff.mpr hi, Result.ok_bind] at h
    split at h
    next first rest hsub =>
      split at h
      next => cases h
      next hne =>
        obtain rfl := Except.error.inj h
        have hfirst : f.first? = some first := by rw [first?, hsub, List.head?_cons]
        rw [← hfirst]
        exact .notFirst hop hi (by simpa [hfirst] using hne)
    next hsub =>
      obtain rfl := Except.error.inj h
      have hfirst : f.first? = none := by rw [first?, hsub, List.head?_nil]
      rw [← hfirst]
      exact .notFirst hop hi (by simp [hfirst])
  · rw [checkIndex, if_neg hi] at h
    obtain rfl := Except.error.inj h
    exact .outOfRange hop (Nat.le_of_not_lt hi)

/-- A confirmation that fails is refused for its index, and changes nothing. -/
theorem Sound.refuses_of_confirms (hf : f.Sound) {i : Nat} (hop : op.confirms? = some i)
    (hfail : f.answer op = .error e) : f.Refuses op e ∧ f.perform op = f := by
  cases hdrop : f.dropFirst i with
  | error e' =>
    obtain ⟨hsame, hanswer⟩ := perform_of_refused hop hdrop
    obtain rfl : e' = e := Except.error.inj (hanswer.symm.trans hfail)
    exact ⟨refuses_of_dropFirst hop hdrop, hsame⟩
  | ok g =>
    -- The front of the subset is confirmed, which does not fail.
    obtain ⟨-, rest, hsub, -⟩ := dropFirst_eq_ok_iff.mp hdrop
    cases op with
    | collect schedule request => cases hop
    | process j =>
      obtain rfl := Option.some.inj hop
      rw [answer, hf.confirmProcessed_first hsub] at hfail
      cases hfail
    | leave j =>
      obtain rfl := Option.some.inj hop
      rw [answer, hf.confirmOmitted_first hsub] at hfail
      cases hfail
    | reset => cases hop

/-- A collection that fails is refused, or is exhausted and has taken a number. -/
theorem Sound.refuses_of_collect (hf : f.Sound) (hcost : f.net.CostsFit) {schedule : List Nat}
    {request : Request} (hfail : (f.collectBy schedule request).2 = .error e) :
    f.Refuses (.collect schedule request) e ∧
      (f.collectBy schedule request).1 =
        { f with iteration := if e.isExhausted then f.nextIteration else f.iteration } := by
  by_cases hempty : f.subset = []
  · have heq := collectBy_eq hf hcost hempty schedule request
    split at heq
    next cutoff _ hcut =>
      rw [heq] at hfail ⊢
      obtain rfl := Except.error.inj hfail
      have hlt := (tracks_scan hf.size hcost schedule request).cutoff cutoff hcut
      rw [← hf.size] at hlt
      exact ⟨.exhausted schedule request hempty hlt, withSubset_nil hempty⟩
    next =>
      rw [heq] at hfail
      cases hfail
  · rw [collectBy_refused hempty] at hfail ⊢
    obtain rfl := Except.error.inj hfail
    exact ⟨.pending schedule request hempty, rfl⟩

/-- **An operation that fails** is refused for one of these reasons.  Only an exhausted collection
changes the frontier: it has taken a number. -/
theorem Sound.refuses_of_answer (hf : f.Sound) (hcost : f.net.CostsFit)
    (hfail : f.answer op = .error e) :
    f.Refuses op e ∧ f.perform op =
      { f with iteration := if e.isExhausted then f.nextIteration else f.iteration } := by
  have hconfirm : ∀ {i}, op.confirms? = some i → f.Refuses op e ∧ f.perform op =
      { f with iteration := if e.isExhausted then f.nextIteration else f.iteration } := by
    intro i hop
    obtain ⟨hrefuses, hsame⟩ := hf.refuses_of_confirms hop hfail
    refine ⟨hrefuses, ?_⟩
    rw [hsame]
    cases hrefuses with
    | outOfRange hop' hi => rfl
    | notFirst hop' hi hfirst => rfl
    | pending schedule request hsub => cases hop
    | exhausted schedule request hsub hi => cases hop
  cases op with
  | collect schedule request => exact hf.refuses_of_collect hcost hfail
  | process i => exact hconfirm rfl
  | leave i => exact hconfirm rfl
  | reset =>
    rw [answer, hf.resetRemaining_eq] at hfail
    cases hfail

/-- What an operation that fails leaves is the frontier but for a number. -/
theorem Sound.perform_eq_numbered (hf : f.Sound) (hcost : f.net.CostsFit)
    (hfail : f.answer op = .error e) : ∃ n, f.perform op = f.numbered n := by
  obtain ⟨hrefuses, hsame⟩ := hf.refuses_of_answer hcost hfail
  rw [hsame]
  cases hrefuses with
  | outOfRange hop hi => exact ⟨_, hf.numbered_iteration.symm⟩
  | notFirst hop hi hfirst => exact ⟨_, hf.numbered_iteration.symm⟩
  | pending schedule request hsub => exact ⟨_, hf.numbered_iteration.symm⟩
  | exhausted schedule request hsub hi => exact ⟨_, (hf.numbered_of_empty hsub _).symm⟩

/-- **Operations that fail leave no trace**, after any history of operations with any arguments, of a
net whose costs fit.

1. They are the confirmations of a neuron that is out of range or is not the front of the subset, the
   collections that come while the subset is not empty, and those that are exhausted.
2. The frontier is what it was: the states of all neurons with their counts, the subset, and the number
   of processed neurons.  Only an exhausted collection takes a number.
3. Whatever follows, all operations and all queries are answered as if the failed operation had not
   been asked for; in particular a collection with another budget answers what it would have answered
   in its place.

**Proof sketch.** What an exhausted collection has reserved it gives back, with the counts, so that
nothing but its number is left.  Then the two frontiers differ in a number only, and stay so. -/
theorem failure_leaves_no_trace {start : Frontier} (hnet : net.totalBytes < Word.limit)
    (hstart : ofNet net = .ok start) (history : List Operation)
    (hfail : (start.after history).answer op = .error e) :
    (start.after history).Refuses op e ∧
    (start.after history).perform op = { start.after history with
      iteration := if e.isExhausted then (start.after history).nextIteration
        else (start.after history).iteration } ∧
    (∀ later : List Operation,
      ((start.after history).perform op).answers later = (start.after history).answers later ∧
      (((start.after history).perform op).after later).Alike ((start.after history).after later)) ∧
    ∀ (schedule : List Nat) (request : Request),
      (((start.after history).perform op).collectBy schedule request).2 =
        ((start.after history).collectBy schedule request).2 := by
  have hcost := Net.costsFit_of_totalBytes hnet
  have hreach : Reachable net (start.after history) := (Reachable.start hstart).after history
  generalize start.after history = f at hreach hfail ⊢
  obtain ⟨hf, hsame⟩ := hreach.sound hcost
  obtain ⟨hrefuses, hperform⟩ := hf.refuses_of_answer (hsame ▸ hcost) hfail
  obtain ⟨n, hn⟩ := hf.perform_eq_numbered (hsame ▸ hcost) hfail
  have hlater : ∀ later, (f.perform op).answers later = f.answers later ∧
      ((f.perform op).after later).Alike (f.after later) := by
    intro later
    rw [hn]
    obtain ⟨⟨m, hm⟩, hanswers⟩ := hreach.answers_numbered hcost n later
    rw [hm]
    exact ⟨hanswers, ((hreach.after later).sound hcost).1.alike_numbered m⟩
  refine ⟨hrefuses, hperform, hlater, fun schedule request => ?_⟩
  exact (List.cons.inj (hlater [.collect schedule request]).1).1

/-- Once the first neuron of the diamond net is processed, two workers with a budget of 80 bytes are
exhausted, as the second neuron costs 121.  The collection has taken a number, and the next one
answers what it would have answered before, as does all that follows. -/
theorem failure_leaves_no_trace_diamond :
    ∃ f : Frontier, f = (initial Net.diamond).after
        [.collect [1, 0] ⟨2, 130, true⟩, .leave 2, .process 0] ∧
      ∃ op : Operation, op = .collect [1, 0] ⟨2, 80, false⟩ ∧
        f.nextIteration = 2 ∧ f.perform op = { f with iteration := f.nextIteration } ∧
        (∀ later, (f.perform op).answers later = f.answers later) ∧
        ((f.perform op).collectBy [] ⟨1, 130, true⟩).2 = (f.collectBy [] ⟨1, 130, true⟩).2 := by
  have hstart : ofNet Net.diamond = .ok (initial Net.diamond) := by rfl
  obtain ⟨-, hperform, hlater, hagain⟩ := failure_leaves_no_trace (by decide) hstart
    [.collect [1, 0] ⟨2, 130, true⟩, .leave 2, .process 0]
    (show Frontier.answer _ (.collect [1, 0] ⟨2, 80, false⟩) = fail (.exhausted 121 80) by
      decide +kernel)
  exact ⟨_, rfl, _, rfl, by decide +kernel, hperform, fun later => (hlater later).1,
    hagain [] ⟨1, 130, true⟩⟩

end Frontier

end NeuralPlan
