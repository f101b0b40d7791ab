import Mathlib.Algebra.Order.BigOperators.Group.List
import Mathlib.Algebra.Order.BigOperators.Group.Multiset
import Mathlib.Tactic
import NeuralPlan.Frontier.Collect
import NeuralPlan.Draft
import NeuralPlan.Proofs.Answers

/-!
# Costs and budgets

The cost of a neuron in exact arithmetic, and the longest prefix of a list of neurons that a
budget affords.

## Main definitions

* `Neuron.bytes`, `Net.bytesOf`, `Net.totalBytes` — costs that need not fit a word.
* `Net.CostsFit` — all of them do fit.
* `Affords` — a list is the longest prefix of another one within a budget.
* `affordable` — that prefix, found by a scan from the left.

## Main results

* `Neuron.cost_eq_ok_iff` — the checked cost is the exact one, if that fits a word.
* `affords_affordable`, `Affords.eq_affordable` — the scan finds the prefix, and it is the only one.
* `affordable_cut` — a neuron that the budget does not reach may be cut off with all after it.
* `Net.sum_bytesOf_le` — different neurons together cost no more than all.
-/

set_option relaxedAutoImplicit false
set_option autoImplicit false

namespace NeuralPlan

/-! ## Costs -/

/-- The number of references of a neuron as its runs count them. -/
def Neuron.size (n : Neuron) : Nat := (n.inputs.toList.map Run.size).sum

/-- The cost of a neuron. -/
def Neuron.bytes (n : Neuron) : Nat := Neuron.costOf n.size

/-- The cost of the neuron `i` of the net. -/
def Net.bytesOf (net : Net) (i : Nat) : Nat := (net.neurons[i]?.map Neuron.bytes).getD 0

/-- The cost of all neurons of the net. -/
def Net.totalBytes (net : Net) : Nat := (net.neurons.toList.map Neuron.bytes).sum

/-- The cost of every neuron fits a word. -/
def Net.CostsFit (net : Net) : Prop := ∀ i, net.bytesOf i < Word.limit

namespace Neuron

/-- The checked count of references is the exact one, if that fits a word. -/
theorem inputCount_eq_ok_iff {n : Neuron} {c : Nat} :
    n.inputCount = .ok c ↔ n.size < Word.limit ∧ c = n.size := Word.unsigned_eq_ok_iff

/-- **The checked cost** is the exact one, if that fits a word. -/
theorem cost_eq_ok_iff {n : Neuron} {c : Nat} :
    n.cost = .ok c ↔ n.bytes < Word.limit ∧ c = n.bytes := by
  have hle : n.size ≤ n.bytes := by
    simp only [bytes, costOf_eq]; omega
  simp only [cost, Result.bind_eq_ok_iff, inputCount_eq_ok_iff, Word.unsigned_eq_ok_iff]
  constructor
  · rintro ⟨_, ⟨-, rfl⟩, hlt, rfl⟩
    exact ⟨hlt, rfl⟩
  · rintro ⟨hlt, rfl⟩
    exact ⟨n.size, ⟨by omega, rfl⟩, hlt, rfl⟩

end Neuron

/-- Different elements of a list sum up to no more than the whole list. -/
theorem sum_map_le_of_subset (cost : Nat → Nat) {l l' : List Nat} (hl : l.Nodup) (hsub : l ⊆ l') :
    (l.map cost).sum ≤ (l'.map cost).sum := by
  obtain ⟨l₀, hperm, hsublist⟩ := hl.subperm hsub
  rw [← (hperm.map cost).sum_eq]
  exact (hsublist.map cost).sum_le_sum fun _ _ => Nat.zero_le _

namespace Net

/-- A neuron of the net is at its position. -/
theorem neuron_eq_ok_iff {net : Net} {i : Nat} {n : Neuron} :
    net.neuron i = .ok n ↔ net.neurons[i]? = some n := by
  unfold neuron
  split
  next h => simp [h]
  next h => simp [h]

/-- The cost of the neuron at a position. -/
theorem bytesOf_eq {net : Net} {i : Nat} {n : Neuron} (h : net.neurons[i]? = some n) :
    net.bytesOf i = n.bytes := by simp [bytesOf, h]

/-- The costs of the neurons in order of their positions. -/
theorem map_bytesOf_range (net : Net) :
    (List.range net.neuronCount).map net.bytesOf = net.neurons.toList.map Neuron.bytes := by
  refine List.ext_getElem (by simp [neuronCount]) fun i hi hi' => ?_
  have hlt : i < net.neurons.size := by simpa using hi'
  simp [bytesOf, hlt]

/-- Different neurons of the net together cost no more than all. -/
theorem sum_bytesOf_le (net : Net) {l : List Nat} (hl : l.Nodup)
    (hlt : ∀ i ∈ l, i < net.neuronCount) : (l.map net.bytesOf).sum ≤ net.totalBytes := by
  rw [totalBytes, ← map_bytesOf_range]
  exact sum_map_le_of_subset net.bytesOf hl fun i hi => List.mem_range.mpr (hlt i hi)

/-- A neuron of the net costs no more than all. -/
theorem bytesOf_le (net : Net) (i : Nat) : net.bytesOf i ≤ net.totalBytes := by
  by_cases hi : i < net.neuronCount
  · simpa using net.sum_bytesOf_le (l := [i]) (List.nodup_singleton i) (by simpa using hi)
  · simp [bytesOf, show net.neurons.size ≤ i from Nat.le_of_not_lt hi]

/-- If all costs together fit a word, each does. -/
theorem costsFit_of_totalBytes {net : Net} (h : net.totalBytes < Word.limit) : net.CostsFit :=
  fun i => (net.bytesOf_le i).trans_lt h

/-- If all costs together fit a word, a signed word counts the neurons. -/
theorem neuronCount_lt {net : Net} (h : net.totalBytes < Word.limit) :
    net.neuronCount < Word.signedLimit := by
  have hone : ∀ b ∈ net.neurons.toList.map Neuron.bytes, 81 ≤ b := by
    intro b hb
    obtain ⟨n, -, rfl⟩ := List.mem_map.mp hb
    rw [Neuron.bytes, Neuron.costOf_eq]
    omega
  have hsum := List.card_nsmul_le_sum _ 81 hone
  rw [List.length_map, Array.length_toList, smul_eq_mul] at hsum
  have hlimit : Word.limit = 2 * Word.signedLimit := by decide
  unfold totalBytes at h
  unfold neuronCount
  omega

end Net

/-- The cost that a frontier computes. -/
theorem Frontier.costAt_eq_ok_iff {f : Frontier} {i c : Nat} :
    f.costAt i = .ok c ↔
      i < f.net.neuronCount ∧ f.net.bytesOf i < Word.limit ∧ c = f.net.bytesOf i := by
  simp only [costAt, Result.bind_eq_ok_iff, Net.neuron_eq_ok_iff, Neuron.cost_eq_ok_iff]
  constructor
  · rintro ⟨n, hn, hlt, rfl⟩
    rw [Net.bytesOf_eq hn]
    exact ⟨(Array.getElem?_eq_some_iff.mp hn).1, hlt, rfl⟩
  · rintro ⟨hi, hlt, rfl⟩
    have hn := Array.getElem?_eq_getElem hi
    rw [Net.bytesOf_eq hn] at hlt ⊢
    exact ⟨_, hn, hlt, rfl⟩

/-- The cost that a draft computes. -/
theorem Draft.costAt_eq_ok_iff {d : Draft} {i c : Nat} :
    d.costAt i = .ok c ↔
      i < d.net.neuronCount ∧ d.net.bytesOf i < Word.limit ∧ c = d.net.bytesOf i :=
  Frontier.costAt_eq_ok_iff (f := ⟨d.net, #[], #[], #[], 0, 0, []⟩)

/-! ## The longest affordable prefix -/

/-- The list `chosen` is the longest prefix of `l` whose costs sum up to no more than the
budget. -/
structure Affords (cost : Nat → Nat) (budget : Nat) (l chosen : List Nat) : Prop where
  isPrefix : chosen <+: l
  within : (chosen.map cost).sum ≤ budget
  longest : ∀ q, q <+: l → (q.map cost).sum ≤ budget → q.length ≤ chosen.length

/-- The longest prefix within the budget. -/
def affordable (cost : Nat → Nat) : Nat → List Nat → List Nat
  | _, [] => []
  | budget, i :: rest =>
    if cost i ≤ budget then i :: affordable cost (budget - cost i) rest else []

variable {cost : Nat → Nat} {budget : Nat} {l l₁ l₂ p q : List Nat} {i : Nat}

/-- The scan from the left finds the longest prefix within the budget. -/
theorem affords_affordable : Affords cost budget l (affordable cost budget l) := by
  induction l generalizing budget with
  | nil => exact ⟨List.prefix_rfl, Nat.zero_le _, fun q hq _ => by simp_all⟩
  | cons i rest ih =>
    unfold affordable
    split
    next hi =>
      have ih' : Affords cost (budget - cost i) rest (affordable cost (budget - cost i) rest) := ih
      refine ⟨(List.prefix_cons_inj i).mpr ih'.isPrefix, ?_, fun q hq hsum => ?_⟩
      · have := ih'.within
        rw [List.map_cons, List.sum_cons]; omega
      · rcases List.prefix_cons_iff.mp hq with rfl | ⟨t, rfl, ht⟩
        · exact Nat.zero_le _
        · rw [List.map_cons, List.sum_cons] at hsum
          exact Nat.succ_le_succ (ih'.longest t ht (by omega))
    next hi =>
      refine ⟨List.nil_prefix, Nat.zero_le _, fun q hq hsum => ?_⟩
      rcases List.prefix_cons_iff.mp hq with rfl | ⟨t, rfl, ht⟩
      · exact Nat.le_refl 0
      · rw [List.map_cons, List.sum_cons] at hsum; omega

/-- There is only one longest prefix within the budget. -/
theorem Affords.unique (hp : Affords cost budget l p) (hq : Affords cost budget l q) : p = q := by
  have hlen : p.length = q.length :=
    Nat.le_antisymm (hq.longest p hp.isPrefix hp.within) (hp.longest q hq.isPrefix hq.within)
  exact (List.prefix_of_prefix_length_le hp.isPrefix hq.isPrefix hlen.le).eq_of_length hlen

/-- The longest prefix within the budget is the one that the scan finds. -/
theorem Affords.eq_affordable (hp : Affords cost budget l p) : p = affordable cost budget l :=
  hp.unique affords_affordable

/-- A neuron that the budget does not reach may be cut off with all after it. -/
theorem affordable_cut (h : budget < (l₁.map cost).sum + cost i) :
    affordable cost budget (l₁ ++ i :: l₂) = affordable cost budget l₁ := by
  induction l₁ generalizing budget with
  | nil =>
    simp only [List.map_nil, List.sum_nil, Nat.zero_add] at h
    simp [affordable, Nat.not_le_of_lt h]
  | cons j l₁ ih =>
    simp only [List.cons_append, affordable]
    split
    next hj =>
      rw [ih (by rw [List.map_cons, List.sum_cons] at h; omega)]
    next hj => rfl

/-- A budget for the whole list affords all of it. -/
theorem affordable_eq_self (h : (l.map cost).sum ≤ budget) : affordable cost budget l = l :=
  (affords_affordable.isPrefix.eq_of_length_le
    (affords_affordable.longest l List.prefix_rfl h))

/-- Nothing is affordable exactly if the first neuron alone exceeds the budget. -/
theorem affordable_cons_eq_nil_iff : affordable cost budget (i :: l) = [] ↔ budget < cost i := by
  unfold affordable
  split <;> simp_all

end NeuralPlan
