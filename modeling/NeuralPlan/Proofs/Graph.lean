import Mathlib.Data.Fintype.Order
import Mathlib.Logic.Relation
import Mathlib.Order.WellFounded
import Mathlib.Tactic
import NeuralPlan.Net

/-!
# The reference graph of a net

A neuron reads others; chains of reads, their lengths and cycles decide in how many rows a net
can be solved.

## Main definitions

* `Net.inputsOf`, `Net.Reads` — the neurons that a neuron reads.
* `Net.Acyclic` — no neuron reads itself, directly or through others.
* `Net.Chain`, `Net.IsDepth` — chains of reads, and the length of the longest one of a neuron.
* `Net.Endless`, `Net.MeetsCycle` — chains without end, and cycles that reads lead to.

## Main results

* `Net.Chain.le_rank` — chains are no longer than the ranks of neurons that are ranked above those
  that they read.
* `Net.acyclic_of_rank` — a net whose neurons are ranked above those that they read is acyclic.
* `Net.Acyclic.exists_minimal` — in an acyclic net, some neuron of any class reads none of the
  class.
* `Net.endless_iff_meetsCycle` — a chain without end leads into a cycle.
-/

set_option relaxedAutoImplicit false
set_option autoImplicit false

namespace NeuralPlan

/-- The neuron inputs are what those references name that are not to external inputs. -/
theorem Neuron.mem_neuronInputs {n : Neuron} {j : Nat} :
    j ∈ n.neuronInputs ↔ ∃ ref ∈ n.references, Ref.isInput ref = false ∧ ref.toNat = j := by
  simp [neuronInputs, and_assoc]

namespace Net

/-- The neurons that the neuron `i` reads, one entry per reference. -/
def inputsOf (net : Net) (i : Nat) : List Nat :=
  (net.neurons[i]?.map Neuron.neuronInputs).getD []

/-- The neuron `i` reads the neuron `j`. -/
def Reads (net : Net) (i j : Nat) : Prop := j ∈ net.inputsOf i

/-- No neuron reads itself, directly or through others. -/
def Acyclic (net : Net) : Prop := ∀ i, ¬Relation.TransGen net.Reads i i

/-- A chain of `k` reads begins at the neuron. -/
inductive Chain (net : Net) : Nat → Nat → Prop
  /-- The chain without reads. -/
  | here {i : Nat} (hi : i < net.neuronCount) : Chain net 0 i
  /-- A read and a chain of the neuron that is read. -/
  | read {k i j : Nat} (hij : net.Reads i j) (hj : Chain net k j) : Chain net (k + 1) i

/-- The longest chain of the neuron `i` has `k` reads. -/
def IsDepth (net : Net) (i k : Nat) : Prop := net.Chain k i ∧ ∀ m, net.Chain m i → m ≤ k

/-- A net of four neurons: the first one reads an external input, two read the first one, and the
last one reads these two. -/
def diamond : Net where
  inputSize := 1
  outputNeurons := 1
  expectedRange := 1.0
  neurons := #[⟨.identity, 1, 2, #[⟨-1, 1⟩], #[⟨0, 1⟩]⟩, ⟨.relu, 1, 2, #[⟨0, 1⟩], #[⟨3, 1⟩]⟩,
    ⟨.identity, 1, 2, #[⟨0, 1⟩], #[⟨4, 1⟩]⟩, ⟨.identity, 1, 2, #[⟨1, 2⟩], #[⟨3, 2⟩]⟩]
  weights := #[1.5, 0.5, 0.25, -2.0, 3.0]

/-- Some chain of reads that begins at the neuron has no end. -/
def Endless (net : Net) (i : Nat) : Prop :=
  ∃ chain : Nat → Nat, chain 0 = i ∧ ∀ k, net.Reads (chain k) (chain (k + 1))

/-- The neuron lies on a cycle of reads, or reads lead from it to one. -/
def MeetsCycle (net : Net) (i : Nat) : Prop :=
  ∃ j, Relation.ReflTransGen net.Reads i j ∧ Relation.TransGen net.Reads j j

/-- A net of four neurons: the first one reads an external input, the next one reads the first one
twice, the third one reads itself, and the last one reads these two. -/
def knot : Net where
  inputSize := 1
  outputNeurons := 1
  expectedRange := 1.0
  neurons := #[⟨.identity, 1, 2, #[⟨-1, 1⟩], #[⟨0, 1⟩]⟩,
    ⟨.relu, 1, 2, #[⟨0, 1⟩, ⟨0, 1⟩], #[⟨3, 2⟩]⟩, ⟨.identity, 1, 2, #[⟨2, 1⟩], #[⟨4, 1⟩]⟩,
    ⟨.identity, 1, 2, #[⟨1, 2⟩], #[⟨3, 2⟩]⟩]
  weights := #[1.5, 0.5, 0.25, -2.0, 3.0]

variable {net : Net} {i j : Nat}

/-- The inputs of the neuron at a position. -/
theorem inputsOf_eq {n : Neuron} (h : net.neurons[i]? = some n) :
    net.inputsOf i = n.neuronInputs := by simp [inputsOf, h]

/-- Only neurons of the net read. -/
theorem Reads.lt (h : net.Reads i j) : i < net.neuronCount := by
  by_contra hi
  have hnone : net.neurons[i]? = none := Array.getElem?_eq_none (Nat.le_of_not_lt hi)
  simp [Reads, inputsOf, hnone] at h

/-- A chain begins at a neuron of the net. -/
theorem Chain.lt {k : Nat} (h : net.Chain k i) : i < net.neuronCount := by
  cases h with
  | here hi => exact hi
  | read hij _ => exact hij.lt

/-- A neuron that is ranked above those that it reads, as these are, is ranked at least as high as
its chains are long. -/
theorem Chain.le_rank {rank : Nat → Nat} (hrank : ∀ i j, net.Reads i j → rank j < rank i) {k : Nat}
    (h : net.Chain k i) : k ≤ rank i := by
  induction h with
  | here _ => exact Nat.zero_le _
  | read hij _ ih => exact Nat.lt_of_le_of_lt ih (hrank _ _ hij)

/-- A neuron has one depth. -/
theorem IsDepth.unique {k m : Nat} (hk : net.IsDepth i k) (hm : net.IsDepth i m) : k = m :=
  Nat.le_antisymm (hm.2 k hk.1) (hk.2 m hm.1)

/-- A net whose neurons are ranked above those that they read is acyclic. -/
theorem acyclic_of_rank (rank : Nat → Nat) (h : ∀ i j, net.Reads i j → rank j < rank i) :
    net.Acyclic := by
  have hlt : ∀ i j, Relation.TransGen net.Reads i j → rank j < rank i := by
    intro i j hij
    induction hij with
    | single hij => exact h _ _ hij
    | tail _ hjk ih => exact (h _ _ hjk).trans ih
  exact fun i hi => lt_irrefl _ (hlt i i hi)

/-- **In an acyclic net**, some neuron of any class reads none of the class.

**Proof sketch.** Reading, directly or through others, is a transitive relation without cycles
on finitely many neurons, hence well-founded; take a least neuron of the class. -/
theorem Acyclic.exists_minimal (h : net.Acyclic) (p : Nat → Prop)
    (hp : ∃ i < net.neuronCount, p i) :
    ∃ i < net.neuronCount, p i ∧ ∀ j < net.neuronCount, net.Reads i j → ¬p j := by
  let r : Fin net.neuronCount → Fin net.neuronCount → Prop :=
    fun a b => Relation.TransGen net.Reads b a
  have : IsTrans _ r := ⟨fun a b c hab hbc => hbc.trans hab⟩
  have : Std.Irrefl r := ⟨fun a ha => h a ha⟩
  have hwf : WellFounded r := Finite.wellFounded_of_trans_of_irrefl r
  obtain ⟨i, hi, hpi⟩ := hp
  obtain ⟨a, ha, hmin⟩ := hwf.has_min {a | p a} ⟨⟨i, hi⟩, hpi⟩
  exact ⟨a, a.isLt, ha, fun j hj haj hpj => hmin ⟨j, hj⟩ hpj (.single haj)⟩

/-! ## Chains without end -/

/-- The chains of a neuron end if it is accessible from the neurons that read nothing. -/
theorem not_acc_iff_endless : ¬Acc (fun a b => net.Reads b a) i ↔ net.Endless i :=
  not_acc_iff_exists_descending_chain

/-- A chain without end goes on with one. -/
theorem Endless.exists_read (h : net.Endless i) : ∃ j, net.Reads i j ∧ net.Endless j := by
  obtain ⟨chain, rfl, hreads⟩ := h
  exact ⟨chain 1, hreads 0, fun k => chain (k + 1), rfl, fun k => hreads (k + 1)⟩

/-- If every neuron of a class reads one of the class, then their chains have no end. -/
theorem endless_of_forall {p : Nat → Prop} (h : ∀ i, p i → ∃ j, net.Reads i j ∧ p j) (hi : p i) :
    net.Endless i := by
  rw [← not_acc_iff_endless]
  intro hacc
  induction hacc with
  | intro i _ ih =>
    obtain ⟨j, hij, hj⟩ := h i hi
    exact ih j hij hj

/-- From a cycle, and from what leads to it, reads lead to the cycle. -/
theorem MeetsCycle.exists_read (h : net.MeetsCycle i) : ∃ j, net.Reads i j ∧ net.MeetsCycle j := by
  obtain ⟨c, hic, hcycle⟩ := h
  rcases hic.cases_head with rfl | ⟨j, hij, hjc⟩
  · obtain ⟨j, hij, hji⟩ := Relation.TransGen.head'_iff.mp hcycle
    exact ⟨j, hij, i, hji, hcycle⟩
  · exact ⟨j, hij, c, hjc, hcycle⟩

/-- **A chain of reads without end** begins at a neuron exactly if the neuron lies on a cycle, or
reads lead from it to one.

**Proof sketch.** A chain without end stays in the net and so meets some neuron twice; in between
lies a cycle.  Conversely, from any neuron that meets a cycle a read leads to another one. -/
theorem endless_iff_meetsCycle : net.Endless i ↔ net.MeetsCycle i := by
  refine ⟨fun h => ?_, endless_of_forall fun _ h => h.exists_read⟩
  obtain ⟨chain, rfl, hreads⟩ := h
  have hle : ∀ {k m : Nat}, k ≤ m → Relation.ReflTransGen net.Reads (chain k) (chain m) :=
    fun hkm => Nat.rel_of_forall_rel_succ_of_le _ (fun n => .single (hreads n)) hkm
  have hlt : ∀ {k m : Nat}, k < m → Relation.TransGen net.Reads (chain k) (chain m) :=
    fun hkm => Nat.rel_of_forall_rel_succ_of_lt _ (fun n => .single (hreads n)) hkm
  obtain ⟨k, m, hne, heq⟩ := Finite.exists_ne_map_eq_of_infinite
    fun k : Nat => (⟨chain k, (hreads k).lt⟩ : Fin net.neuronCount)
  have hsame : chain k = chain m := congrArg Fin.val heq
  rcases Nat.lt_or_gt_of_ne hne with hkm | hmk
  · have hcycle := hlt hkm
    rw [← hsame] at hcycle
    exact ⟨chain k, hle (Nat.zero_le k), hcycle⟩
  · have hcycle := hlt hmk
    rw [hsame] at hcycle
    exact ⟨chain m, hle (Nat.zero_le m), hcycle⟩

/-- A net is acyclic exactly if no chain of reads is without end. -/
theorem acyclic_iff_forall_not_endless :
    net.Acyclic ↔ ∀ i < net.neuronCount, ¬net.Endless i := by
  simp only [endless_iff_meetsCycle]
  constructor
  · rintro h i - ⟨j, -, hcycle⟩
    exact h j hcycle
  · intro h i hcycle
    obtain ⟨j, hij, -⟩ := Relation.TransGen.head'_iff.mp hcycle
    exact h i hij.lt ⟨i, .refl, hcycle⟩

end Net

end NeuralPlan
