import NeuralPlan.Proofs.Draft.Solving

/-!
# How much a draft grows

A neuron that is taken into a draft brings its weights, its bias and its memory filter, one entry for
each of its counters and its activation, whatever it reads.  Besides, it opens at most one run of
outputs, one of weights, and one of slots and one of sources for each of its references.  So the cell
grows by no less than the fixed part of the cost and by no more than the whole of it, whatever the runs
of the neuron look like and however they merge with those that are there.

## Main definitions

* `Neuron.fixedBytes` — what a neuron takes in any cell.
* `Draft.Within` — a cell is no larger than its neurons cost.

## Main results

* `Draft.size_sourcesOf` — the runs that sources take.
* `Draft.sizeBytes_add`, `Draft.sizeBytes_add_le` — the growth of the cell at one call.
* `Draft.within_addAll` — the size of the cell after any calls.
* `Draft.growth_within_cost` — costs and budgets against the real size.
-/

set_option relaxedAutoImplicit false
set_option autoImplicit false

namespace NeuralPlan

/-- What a neuron takes in any cell: its weights, its bias and its memory filter, four counters, and
an activation. -/
def Neuron.fixedBytes (n : Neuron) : Nat :=
  (n.size + 2) * wordBytes + 4 * wordBytes + activationBytes

namespace Draft

variable {net : Net} {available : Array Bool} {d d' : Draft} {taken calls : List Nat}
  {refs : List Int} {i : Nat}

/-! ## One neuron -/

/-- The source of a reference takes at most one run of slots more. -/
theorem size_slots_sourceOf {ref s : Int} (hsource : d.sourceOf ref = (d', .ok s)) :
    d.cell.slots.size ≤ d'.cell.slots.size ∧ d'.cell.slots.size ≤ d.cell.slots.size + 1 := by
  have hsame : d.cell.slots.size ≤ d.cell.slots.size ∧
      d.cell.slots.size ≤ d.cell.slots.size + 1 := ⟨le_rfl, Nat.le_succ _⟩
  unfold sourceOf at hsource
  split at hsource
  next =>
    obtain ⟨rfl, -⟩ := Prod.mk.inj hsource
    exact hsame
  next =>
    split at hsource
    next =>
      obtain ⟨rfl, -⟩ := Prod.mk.inj hsource
      exact hsame
    next =>
      dsimp only at hsource
      split at hsource
      next => cases (Prod.mk.inj hsource).2
      next slots happend =>
        obtain ⟨rfl, -⟩ := Prod.mk.inj hsource
        exact Runs.size_append happend

/-- **Sources take** at most one run, and at most one run of slots, for each reference. -/
theorem size_sourcesOf {sources sources' : Array Run}
    (hall : sourcesOf d sources refs = (d', .ok sources')) :
    (d.cell.slots.size ≤ d'.cell.slots.size ∧
        d'.cell.slots.size ≤ d.cell.slots.size + refs.length) ∧
      sources'.size ≤ sources.size + refs.length := by
  induction refs generalizing d sources with
  | nil =>
    obtain ⟨rfl, hs⟩ := Prod.mk.inj hall
    obtain rfl := Except.ok.inj hs
    exact ⟨⟨le_rfl, le_rfl⟩, le_rfl⟩
  | cons ref refs ih =>
    unfold sourcesOf at hall
    split at hall
    next => cases (Prod.mk.inj hall).2
    next d₁ s hone =>
      split at hall
      next => cases (Prod.mk.inj hall).2
      next sources₁ happend =>
        obtain ⟨hslots, hsources⟩ := ih hall
        have hslot := size_slots_sourceOf hone
        have hsource := Runs.size_append happend
        rw [List.length_cons]
        omega

/-- The cell grows by the fixed part of the neuron, and by the runs that its output, its weights,
its slots and its sources open. -/
theorem sizeBytes_add (hadd : d.add i = (d', .ok ())) :
    ∃ n runs, d.net.neurons[i]? = some n ∧ runs ≤ 2 * n.size + 2 ∧
      d'.cell.sizeBytes = d.cell.sizeBytes + n.fixedBytes + runs * runBytes := by
  obtain ⟨n, sources, outputs, slotRuns, slotOf, haccepts, hall, happend, rfl⟩ := add_eq_ok hadd
  obtain ⟨hslots, hsources⟩ := size_sourcesOf hall
  have houtputs := Runs.size_append happend
  have hrefs : n.references.length ≤ n.size := Runs.length_indices_le _
  have hweights : (d.net.weightsOf n).length = n.size := haccepts.count.2
  have hruns := (d.partOf i n sources).length_weightRuns_le
  change d.cell.slots.size ≤ slotRuns.size ∧ slotRuns.size ≤ d.cell.slots.size + _ at hslots
  change (d.partOf i n sources).weights.length = _ at hweights
  have hlen : (d.partOf i n sources).sourceRuns.length = sources.size := Array.length_toList
  rw [Array.size_empty, Nat.zero_add] at hsources
  refine ⟨n, (outputs.size - d.cell.outputs.size) + (slotRuns.size - d.cell.slots.size) +
    (d.partOf i n sources).weightRuns.length + sources.size, haccepts.neuron, by omega, ?_⟩
  simp only [extended, Cell.extend, Cell.sizeBytes, Neuron.fixedBytes, Array.size_append,
    Array.size_push, List.size_toArray, Part.length_table, hweights, hlen, runBytes,
    activationBytes, wordBytes]
  omega

/-- **A neuron that is taken in** makes the cell larger by no more than its cost. -/
theorem sizeBytes_add_le (hadd : d.add i = (d', .ok ())) :
    d'.cell.sizeBytes ≤ d.cell.sizeBytes + d.net.bytesOf i := by
  obtain ⟨n, runs, hn, hruns, hsize⟩ := sizeBytes_add hadd
  rw [Net.bytesOf_eq hn, Neuron.bytes, Neuron.costOf, hsize, Neuron.fixedBytes]
  have hbytes := Nat.mul_le_mul_right runBytes hruns
  omega

/-! ## Any calls -/

/-- The cell is no larger than it is without tables and the neurons that it has taken in cost. -/
def Within (net : Net) (s : Draft × List Nat) : Prop :=
  s.1.cell.sizeBytes ≤ Cell.emptyBytes + (s.2.map net.bytesOf).sum

/-- **One call more** leaves the cell within the costs, if it leaves the draft as it is when it
fails. -/
theorem Within.call {s : Draft × List Nat} (h : Within net s) (hnet : s.1.net = net)
    (hkeep : (s.1.add i).2 ≠ .ok () → (s.1.add i).1 = s.1) : Within net (call s i) := by
  unfold Draft.call
  unfold Within at h ⊢
  split
  next d hadd =>
    have hgrowth := sizeBytes_add_le hadd
    rw [hnet] at hgrowth
    rw [List.map_append, List.sum_append, List.map_singleton, List.sum_singleton]
    dsimp only
    omega
  next d e hadd =>
    have hsame := hkeep (by rw [hadd]; exact fun h => by cases h)
    rw [hadd] at hsame
    dsimp only at hsame ⊢
    rwa [hsame]

/-- Calls take in no more neurons than there are calls. -/
theorem length_addAll_le (d : Draft) (calls : List Nat) :
    (d.addAll calls).2.length ≤ calls.length := by
  induction calls using List.reverseRecOn with
  | nil => exact le_rfl
  | append_singleton calls i ih =>
    rw [addAll_concat, List.length_append, List.length_singleton]
    unfold call
    split
    next => simpa using ih
    next => exact ih.trans (Nat.le_succ _)

/-- If all calls have taken their neurons in, so have all but the last one, and the last one. -/
theorem all_taken_concat (h : (d.addAll (calls ++ [i])).2 = calls ++ [i]) :
    (d.addAll calls).2 = calls ∧ ((d.addAll calls).1.add i).2 = .ok () := by
  have hlen := length_addAll_le d calls
  rw [addAll_concat] at h
  unfold call at h
  split at h
  next d' hadd => exact ⟨(List.append_left_inj [i]).mp h, by rw [hadd]⟩
  next d' e hadd =>
    dsimp only at h
    rw [h, List.length_append, List.length_singleton] at hlen
    omega

/-- A call that fails leaves the draft as it is, if there is room: only its checks can fail. -/
theorem Took.add_fst_of_ne_ok {parts : List Part} {slots : List Int}
    (h : Took net available d taken parts slots) (hinputs : net.inputSize < Word.signedLimit)
    (hneurons : net.neuronCount < Word.signedLimit)
    (hroom : (d.add i).1.cell.weights.size < Word.signedLimit) (hfail : (d.add i).2 ≠ .ok ()) :
    (d.add i).1 = d := by
  by_cases haccepts : ∃ n, d.Accepts i n
  · obtain ⟨n, haccepts⟩ := haccepts
    rw [size_weights_add haccepts] at hroom
    obtain ⟨d', hadd⟩ := h.add_isOk hinputs hneurons haccepts hroom
    exact absurd (congrArg Prod.snd hadd) hfail
  · obtain ⟨e, hadd⟩ := add_eq_error (not_exists.mp haccepts)
    exact congrArg Prod.fst hadd

/-- **After any calls** the cell is within the costs, if all of them have succeeded, or if the
draft could not run out of words.

**Proof sketch.** Induction on the calls.  A call that fails leaves the draft as it is: there is none
in the first case, and in the second one only the checks of a call can fail. -/
theorem within_addAll
    (h : ((start net available).addAll calls).2 = calls ∨
      net.inputSize < Word.signedLimit ∧ net.neuronCount < Word.signedLimit ∧
        ((start net available).addAll calls).1.cell.weights.size < Word.signedLimit) :
    Within net ((start net available).addAll calls) := by
  induction calls using List.reverseRecOn with
  | nil => exact le_rfl
  | append_singleton calls i ih =>
    have hnet : ((start net available).addAll calls).1.net = net := net_addAll _ _
    rcases h with hall | ⟨hinputs, hneurons, hroom⟩
    · obtain ⟨hbefore, hadded⟩ := all_taken_concat hall
      rw [addAll_concat]
      exact (ih (.inl hbefore)).call hnet fun hfail => absurd hadded hfail
    · rw [addAll_concat] at hroom ⊢
      have hbefore := (size_weights_call _ i).1.trans_lt hroom
      refine (ih (.inr ⟨hinputs, hneurons, hbefore⟩)).call hnet fun hfail => ?_
      obtain ⟨⟨parts, slots, htook⟩, -⟩ := took_addAll hinputs hneurons hbefore
      rw [call_fst] at hroom
      exact htook.add_fst_of_ne_ok hinputs hneurons hroom hfail

/-- **Costs bound the real growth**, after any calls, failing ones included.  A neuron that is taken
in makes the cell larger by no more than its checked cost, and by no less than the fixed part of it.
So the cell is no larger than an empty one and the costs of its neurons, if all calls have succeeded
or if signed words count the external inputs, the neurons and the table of weights; and a neuron that
is said to fit a budget leaves the cell within the budget. -/
theorem growth_within_cost (hcost : net.CostsFit)
    (hcalls : (start net available).addAll calls = (d, taken)) :
    (∀ i d', d.add i = (d', .ok ()) →
      ∃ n, net.neurons[i]? = some n ∧ n.cost = .ok (net.bytesOf i) ∧
        d.cell.sizeBytes + n.fixedBytes ≤ d'.cell.sizeBytes ∧
        d'.cell.sizeBytes ≤ d.cell.sizeBytes + net.bytesOf i) ∧
    (taken = calls ∨ net.inputSize < Word.signedLimit ∧ net.neuronCount < Word.signedLimit ∧
        d.cell.weights.size < Word.signedLimit →
      d.cell.sizeBytes ≤ Cell.emptyBytes + (taken.map net.bytesOf).sum) ∧
    ∀ i budget d', d.fits i budget = .ok true → d.add i = (d', .ok ()) →
      d'.cell.sizeBytes ≤ budget := by
  have hnet : d.net = net := by
    have hnet := net_addAll (start net available) calls
    rwa [hcalls] at hnet
  refine ⟨fun i d' hadd => ?_, fun h => ?_, fun i budget d' hfits hadd => ?_⟩
  · obtain ⟨n, runs, hn, -, hsize⟩ := sizeBytes_add hadd
    have hle := sizeBytes_add_le hadd
    rw [hnet] at hn hle
    have hfit := hcost i
    have hbytes := Net.bytesOf_eq hn
    exact ⟨n, hn, Neuron.cost_eq_ok_iff.mpr ⟨hbytes ▸ hfit, hbytes⟩, by omega, hle⟩
  · have hwithin : Within net ((start net available).addAll calls) :=
      within_addAll (by rwa [hcalls])
    rwa [hcalls] at hwithin
  · obtain ⟨-, -, -, hbudget⟩ := fits_eq_ok_iff.mp hfits
    exact (sizeBytes_add_le hadd).trans (of_decide_eq_true hbudget.symm)

/-- Two of four calls of the braid take their neurons in, so that the cell has at most 522 bytes.  The
last neuron, with three references, adds to it 73 bytes at least, and 201 at most; a budget that it is
said to fit is not exceeded. -/
theorem growth_within_cost_braid :
    ∃ d d', (start braid #[true]).addAll [2, 1, 7, 0] = (d, [1, 0]) ∧ d.add 2 = (d', .ok ()) ∧
      d.cell.sizeBytes ≤ 522 ∧ d.cell.sizeBytes + 73 ≤ d'.cell.sizeBytes ∧
      d'.cell.sizeBytes ≤ d.cell.sizeBytes + 201 ∧
      ∀ budget, d.fits 2 budget = .ok true → d'.cell.sizeBytes ≤ budget := by
  have hcost : braid.CostsFit := Net.costsFit_of_totalBytes (by decide)
  have hinputs : braid.inputSize < Word.signedLimit := by decide
  have hneurons : braid.neuronCount < Word.signedLimit := by decide
  have htaken : ((start braid #[true]).addAll [2, 1, 7, 0]).2 = _ :=
    snd_addAll hinputs hneurons (by decide)
  have htaken' : ((start braid #[true]).addAll ([2, 1, 7, 0] ++ [2])).2 = _ :=
    snd_addAll hinputs hneurons (by decide)
  have hroom := (size_weights_addAll_le braid #[true] [2, 1, 7, 0]).trans_lt
    (show _ < Word.signedLimit by decide)
  have htwo : braid.takenOf #[true] [] [2, 1, 7, 0] = [1, 0] := by decide
  have hthree : braid.takenOf #[true] [] ([2, 1, 7, 0] ++ [2]) = [1, 0] ++ [2] := by decide
  have hcalls : (start braid #[true]).addAll [2, 1, 7, 0] =
      (((start braid #[true]).addAll [2, 1, 7, 0]).1, [1, 0]) := Prod.ext rfl (htaken.trans htwo)
  rw [addAll_concat, hthree] at htaken'
  generalize ((start braid #[true]).addAll [2, 1, 7, 0]).1 = d at hcalls hroom
  rw [hcalls] at htaken'
  obtain ⟨d', hadd⟩ : ∃ d', d.add 2 = (d', .ok ()) := by
    unfold call at htaken'
    split at htaken'
    next d' hadd => exact ⟨d', hadd⟩
    next d' e hadd => simp at htaken'
  obtain ⟨hgrowth, hsize, hbudget⟩ := growth_within_cost hcost hcalls
  obtain ⟨n, hn, -, hlow, hhigh⟩ := hgrowth 2 d' hadd
  obtain rfl := Option.some.inj hn
  exact ⟨d, d', hcalls, hadd, hsize (.inr ⟨hinputs, hneurons, hroom⟩), hlow, hhigh,
    fun budget hfits => hbudget 2 budget d' hfits hadd⟩

end Draft

end NeuralPlan
