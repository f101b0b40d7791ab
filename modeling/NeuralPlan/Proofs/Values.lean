import Mathlib.Tactic
import NeuralPlan.Proofs.Graph

/-!
# The values of the neurons

What the values of a net have to be after a run: each neuron blends its previous value with what its
activation makes of the new values that it reads.  If neurons read only neurons before them, the
values can be computed one after another.

## Main definitions

* `Ref.lookup`, `Ref.read?` — the value that a reference names.
* `weigh` — a weighted sum, added up from the left.
* `Net.newValue` — the new value of a neuron, from the previous and the new values.
* `Net.Feedforward`, `Net.evaluate` — the values computed one neuron after another.
* `Net.evaluateTo` — the values on the way there.

## Main results

* `Net.getD_evaluateTo` — the values after some neurons.
* `Net.evaluate_eq` — on a feed-forward net, values that satisfy all equations are the evaluated
  ones.
-/

set_option relaxedAutoImplicit false
set_option autoImplicit false

namespace NeuralPlan

/-- After one write, the value at its position is the written one, and all others are as before. -/
theorem getD_set {α : Type} {xs : Array α} {k : Nat} (hk : k < xs.size) (x d : α) (i : Nat) :
    (xs.set! k x).getD i d = if i = k then x else xs.getD i d := by
  simp only [Array.set!_eq_setIfInBounds, Array.getD_eq_getD_getElem?,
    Array.getElem?_setIfInBounds]
  by_cases hik : k = i
  · subst hik
    simp [hk]
  · simp [hik, Ne.symm hik]

/-- The value that a reference names: an external input counts below zero, all else from zero up.
A missing value counts as zero. -/
def Ref.lookup (inputs values : Array Float) (ref : Int) : Float :=
  if Ref.isInput ref then inputs.getD (-(ref + 1)).toNat 0.0 else values.getD ref.toNat 0.0

/-- The value that a reference names, if there is one. -/
def Ref.read? (input values : Array Float) (ref : Int) : Option Float :=
  if Ref.isInput ref then input[(-(ref + 1)).toNat]? else values[ref.toNat]?

/-- A reference to a neuron names its value. -/
theorem Ref.read?_natCast (input values : Array Float) (j : Nat) :
    Ref.read? input values j = values[j]? := by
  unfold Ref.read? Ref.isInput
  rw [if_neg (by simp), Int.toNat_natCast]

/-- The sum of the products of weights and values, added up from the left. -/
def weigh (weights values : List Float) : Float :=
  (weights.zip values).foldl (fun sum product => sum + product.1 * product.2) 0.0

namespace Net

/-- The weights of a neuron, in the order of its references. -/
def weightsOf (net : Net) (n : Neuron) : List Float :=
  (Runs.indices n.weights.toList).map fun pos => net.weights.getD (Word.toUnsigned pos) 0.0

/-- The new value of the neuron `i`, if the values were `old` before and are `new` where the neuron
reads them. -/
def newValue (net : Net) (input old new : Array Float) (i : Nat) : Float :=
  match net.neurons[i]? with
  | none => 0.0
  | some n =>
    let sum := weigh (net.weightsOf n) (n.references.map (Ref.lookup input new))
    let filter := net.weights.getD n.memoryFilter 0.0
    filter * old.getD i 0.0 +
      (1.0 - filter) * n.activation.apply (sum + net.weights.getD n.bias 0.0)

/-- Every neuron reads only neurons before it. -/
def Feedforward (net : Net) : Prop := ∀ i j, net.Reads i j → j < i

/-- The values after the neurons have been evaluated in order, each on the values so far. -/
def evaluate (net : Net) (input values : Array Float) : Array Float :=
  (List.range net.neuronCount).foldl
    (fun values i => values.set! i (net.newValue input values values i)) values

variable {net : Net} {input old old' new new' : Array Float} {i : Nat}

/-- A new value depends on the previous value of its own neuron and on the new values that the
neuron reads. -/
theorem newValue_congr (hold : old.getD i 0.0 = old'.getD i 0.0)
    (hnew : ∀ j, net.Reads i j → new.getD j 0.0 = new'.getD j 0.0) :
    net.newValue input old new i = net.newValue input old' new' i := by
  unfold newValue
  cases hn : net.neurons[i]? with
  | none => rfl
  | some n =>
    have hvalues : n.references.map (Ref.lookup input new) =
        n.references.map (Ref.lookup input new') := by
      refine List.map_congr_left fun ref href => ?_
      unfold Ref.lookup
      cases hin : Ref.isInput ref with
      | true => rfl
      | false =>
        refine hnew ref.toNat ?_
        rw [Reads, inputsOf_eq hn]
        exact Neuron.mem_neuronInputs.mpr ⟨ref, href, hin, rfl⟩
    simp only [hold, hvalues]

/-- The values after the first `k` neurons have been evaluated. -/
def evaluateTo (net : Net) (input values : Array Float) (k : Nat) : Array Float :=
  (List.range k).foldl
    (fun values i => values.set! i (net.newValue input values values i)) values

/-- One neuron more is evaluated on the values so far. -/
theorem evaluateTo_succ (net : Net) (input values : Array Float) (k : Nat) :
    net.evaluateTo input values (k + 1) = (net.evaluateTo input values k).set! k
      (net.newValue input (net.evaluateTo input values k) (net.evaluateTo input values k) k) := by
  rw [evaluateTo, List.range_succ, List.foldl_append]
  rfl

/-- An evaluation keeps the number of values. -/
@[simp] theorem size_evaluateTo (net : Net) (input values : Array Float) (k : Nat) :
    (net.evaluateTo input values k).size = values.size := by
  induction k with
  | zero => rfl
  | succ k ih => rw [evaluateTo_succ, Array.set!_eq_setIfInBounds, Array.size_setIfInBounds, ih]

/-- **On a feed-forward net** values that satisfy the equations of all neurons are met one after
another: the values below `k` are the new ones after `k` neurons, all others the previous ones. -/
theorem getD_evaluateTo (hnet : net.Feedforward) (hold : old.size = net.neuronCount)
    (h : ∀ i < net.neuronCount, new.getD i 0.0 = net.newValue input old new i) {k : Nat}
    (hk : k ≤ net.neuronCount) (i : Nat) :
    (net.evaluateTo input old k).getD i 0.0 =
      if i < k then new.getD i 0.0 else old.getD i 0.0 := by
  induction k generalizing i with
  | zero => rfl
  | succ k ih =>
    have hget := ih (Nat.le_of_succ_le hk)
    have hlt : k < (net.evaluateTo input old k).size := by
      rw [size_evaluateTo, hold]
      exact hk
    have hvalue : net.newValue input (net.evaluateTo input old k) (net.evaluateTo input old k) k =
        new.getD k 0.0 := by
      rw [h k hk]
      refine newValue_congr (by rw [hget, if_neg (Nat.lt_irrefl k)]) fun j hj => ?_
      rw [hget, if_pos (hnet k j hj)]
    rw [evaluateTo_succ, hvalue, getD_set hlt, hget]
    by_cases hik : i = k
    · simp [hik]
    · have hiff : i < k + 1 ↔ i < k := by omega
      simp [hik, hiff]

/-- **On a feed-forward net** values that satisfy the equations of all neurons are those that are
evaluated one after another. -/
theorem evaluate_eq (hnet : net.Feedforward) (hold : old.size = net.neuronCount)
    (hnew : new.size = net.neuronCount)
    (h : ∀ i < net.neuronCount, new.getD i 0.0 = net.newValue input old new i) :
    net.evaluate input old = new := by
  have hsize : (net.evaluate input old).size = net.neuronCount :=
    (net.size_evaluateTo input old net.neuronCount).trans hold
  refine Array.ext (hsize.trans hnew.symm) fun i hi hi' => ?_
  have heq : (net.evaluate input old).getD i 0.0 = _ :=
    getD_evaluateTo hnet hold h le_rfl i
  rw [if_pos (hnew ▸ hi')] at heq
  simpa [Array.getD, hi, hi'] using heq

end Net

end NeuralPlan
