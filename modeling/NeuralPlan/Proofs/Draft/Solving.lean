import NeuralPlan.Proofs.Cell.Solving
import NeuralPlan.Proofs.Draft.Calls

/-!
# Solving a cell that is made by any calls

A draft renumbers all that its neurons name: references become local positions or slots, weights
move to a table of the cell's own, and runs are merged anew.  Solving the cell undoes all of this: it
gives every neuron the value that the net asks for, over the results of the neurons before it in the
cell and the present values of all others.

## Main definitions

* `Net.valueFrom?` — the value of a neuron, from the values of its references.
* `Surroundings.readAfter?` — the value of a reference while a cell is solved.
* `Surroundings.Provides` — the surroundings have all that a cell of the net may read.

## Main results

* `Cell.getElem?_solved` — the result of one part, from those of the parts before.
* `Surroundings.readAfter?_of_routes` — a source leads to the value of its reference.
* `Part.valueFrom?_eq` — a part has the value of its neuron.
* `Draft.solve_addAll` — the results of a cell that is made by any calls.
-/

set_option relaxedAutoImplicit false
set_option autoImplicit false

namespace NeuralPlan

/-- An operation that has a value on each element of a list has them all. -/
theorem mapM_eq_some_of_map {α β : Type} {f : α → Option β} {xs : List α} {ys : List β}
    (h : xs.map f = ys.map some) : xs.mapM f = some ys := by
  induction xs generalizing ys with
  | nil =>
    obtain rfl : ys = [] := by simpa using h.symm
    rfl
  | cons x xs ih =>
    cases ys with
    | nil => simp at h
    | cons y ys =>
      obtain ⟨hx, hxs⟩ := List.cons.inj h
      simp [List.mapM_cons, hx, ih hxs]

/-! ## What the net asks for -/

/-- The value of the neuron `i`, from its previous value and the values of its references: its
weighted sum is added up from zero in the order of the references.  There is none if the neuron
names something that is not there, or has not as many weights as references. -/
def Net.valueFrom? (net : Net) (read : Int → Option Float) (i : Nat) (previous : Float) :
    Option Float := do
  let n ← net.neurons[i]?
  let weights ← (Runs.indices n.weights.toList).mapM fun pos => net.weights[Word.toUnsigned pos]?
  let values ← n.references.mapM read
  guard (weights.length = values.length)
  let bias ← net.weights[n.bias]?
  let filter ← net.weights[n.memoryFilter]?
  return filter * previous + (1.0 - filter) * n.activation.apply (weigh weights values + bias)

namespace Surroundings

/-- The value of a reference while a cell is solved, if `results` are those of the neurons `before`:
a neuron among these has its result, and any other one its present value. -/
def readAfter? (env : Surroundings) (before : List Nat) (results : Array Float) (ref : Int) :
    Option Float :=
  if Ref.isInput ref then env.input[(-(ref + 1)).toNat]?
  else
    match before.idxOf? ref.toNat with
    | some position => results[position]?
    | none => env.values[ref.toNat]?

/-- The surroundings have all external inputs of the net and a value for each of its neurons, and
what is available is committed. -/
structure Provides (env : Surroundings) (net : Net) (available : Array Bool) : Prop where
  input : net.inputSize ≤ env.input.size
  values : net.neuronCount ≤ env.values.size
  committed : ∀ i < net.neuronCount, available[i]? = some true → env.committed[i]? = some true

variable {env : Surroundings} {net : Net} {available : Array Bool} {ref : Int}

/-- What is given from outside may be read. -/
theorem Provides.canRead (h : env.Provides net available) (hgiven : net.IsGiven available ref) :
    env.CanRead ref := by
  unfold Net.IsGiven at hgiven
  unfold CanRead
  split at hgiven
  next hin =>
    rw [if_pos hin]
    exact hgiven.trans_le h.input
  next hin =>
    rw [if_neg hin]
    exact ⟨hgiven.1.trans_le h.values, h.committed _ hgiven.1 hgiven.2⟩

/-- A reference to none of the neurons before has its present value. -/
theorem readAfter?_of_notMem {before : List Nat} {results : Array Float}
    (h : ∀ i ∈ before, (i : Int) ≠ ref) :
    env.readAfter? before results ref = Ref.read? env.input env.values ref := by
  unfold readAfter? Ref.read?
  cases hin : Ref.isInput ref with
  | true => rfl
  | false =>
    have hpos : 0 ≤ ref := by simpa [Ref.isInput] using hin
    have hnone : before.idxOf? ref.toNat = none :=
      List.idxOf?_eq_none_iff.mpr fun hmem => h _ hmem (Int.toNat_of_nonneg hpos)
    simp [hnone]

/-- A reference to a neuron before has the result of that neuron. -/
theorem readAfter?_of_getElem? {before : List Nat} (hnodup : before.Nodup) {q i : Nat}
    (hq : before[q]? = some i) (results : Array Float) :
    env.readAfter? before results i = results[q]? := by
  obtain ⟨hlt, rfl⟩ := List.getElem?_eq_some_iff.mp hq
  have hfirst : before.idxOf? before[q] = some q := by
    refine List.idxOf?_eq_some_iff.mpr ⟨hlt, rfl, fun j hj heq => ?_⟩
    have hjq := hnodup.getElem_inj_iff.mp heq
    omega
  simp [readAfter?, Ref.isInput, hfirst]

end Surroundings

/-! ## Parts after one another -/

namespace Cell

variable {values filled : Array Float} {parts : List Part} {p : Part} {k : Nat}

/-- One part more is solved on the results of those before. -/
theorem solved_snoc (values filled : Array Float) (parts : List Part) (p : Part) :
    solved values filled (parts ++ [p]) =
      (solved values filled parts).push (p.value values filled (solved values filled parts)) := by
  unfold solved
  rw [List.foldl_append]
  rfl

/-- There is one result for every part. -/
@[simp] theorem size_solved (values filled : Array Float) (parts : List Part) :
    (solved values filled parts).size = parts.length := by
  induction parts using List.reverseRecOn with
  | nil => rfl
  | append_singleton parts p ih => simp [solved_snoc, ih]

/-- **The result of one part** is its value over the results of the parts before. -/
theorem getElem?_solved (hk : parts[k]? = some p) :
    (solved values filled parts)[k]? =
      some (p.value values filled (solved values filled (parts.take k))) := by
  induction parts using List.reverseRecOn with
  | nil => simp at hk
  | append_singleton parts q ih =>
    rcases getElem?_snoc hk with ⟨hk, htake⟩ | ⟨rfl, rfl, htake⟩
    · have hlt : k < (solved values filled parts).size := by
        rw [size_solved]
        exact (List.getElem?_eq_some_iff.mp hk).1
      rw [solved_snoc, htake, Array.getElem?_push_lt hlt, ← Array.getElem?_eq_getElem, ih hk]
    · rw [solved_snoc, htake, ← size_solved values filled parts, Array.getElem?_push_size]

/-- The results of parts do not depend on later parts. -/
theorem getElem?_solved_take {q : Nat} (hq : q < k) (hk : k ≤ parts.length) :
    (solved values filled (parts.take k))[q]? = (solved values filled parts)[q]? := by
  have hpart : parts[q]? = some parts[q] := List.getElem?_eq_getElem (by omega)
  rw [getElem?_solved hpart, getElem?_solved (by rwa [List.getElem?_take_of_lt hq]), List.take_take,
    Nat.min_eq_left hq.le]

end Cell

/-! ## One part -/

/-- **A source leads to the value of its reference**, once the slots are filled and the parts before
are solved. -/
theorem Surroundings.readAfter?_of_routes {env : Surroundings} {before : List Part}
    {slots : List Int} {results earlier : Array Float} {s ref : Int}
    (hnodup : (before.map Part.index).Nodup) (hread : ∀ r ∈ slots, env.CanRead r)
    (hsize : earlier.size = before.length)
    (hresults : ∀ q < before.length, results[q]? = earlier[q]?) (h : Routes before slots s ref) :
    env.readAfter? (before.map Part.index) results ref =
      some (Ref.lookup (slots.map (Ref.lookup env.input env.values)).toArray earlier s) := by
  obtain ⟨⟨hs, p, hp, rfl⟩ | ⟨hs, hslot⟩, hlocal⟩ := h
  · have hlt := (List.getElem?_eq_some_iff.mp hp).1
    have hq : (before.map Part.index)[s.toNat]? = some p.index := by simp [hp]
    rw [readAfter?_of_getElem? hnodup hq, hresults _ hlt]
    simp [Ref.lookup, Ref.isInput, not_lt.mpr hs, Array.getD, hsize, hlt]
  · have hout : ∀ i ∈ before.map Part.index, (i : Int) ≠ ref := by
      intro i hi
      obtain ⟨p, hp, rfl⟩ := List.mem_map.mp hi
      exact hlocal hs p hp
    rw [readAfter?_of_notMem hout, read?_of_canRead (hread ref (List.mem_of_getElem? hslot)),
      Cell.lookup_slot hs hslot]

/-- **A part has the value of its neuron**, if its sources lead to the values of the references. -/
theorem Part.valueFrom?_eq {net : Net} {before : List Part} {slots : List Int} {p : Part}
    {n : Neuron} (h : p.Copies net before slots n) (hlen : p.sources.length = p.weights.length)
    {read : Int → Option Float} {values filled earlier : Array Float}
    (hread : List.Forall₂ (fun s ref => read ref = some (Ref.lookup filled earlier s)) p.sources
      n.references) :
    net.valueFrom? read p.index (values.getD p.index 0.0) =
      some (p.value values filled earlier) := by
  have hweights : (Runs.indices n.weights.toList).mapM
      (fun pos => net.weights[Word.toUnsigned pos]?) = some p.weights :=
    mapM_eq_some_of_map h.weights
  have hvalues : n.references.mapM read = some (p.sources.map (Ref.lookup filled earlier)) := by
    refine mapM_eq_some_of_map (List.forall₂_eq_eq_eq ▸ ?_)
    rw [List.forall₂_map_left_iff, List.forall₂_map_right_iff, List.forall₂_map_right_iff]
    exact hread.flip
  simp [Net.valueFrom?, h.neuron, hweights, hvalues, hlen, h.bias, h.memoryFilter, guard,
    Part.value, h.activation]

namespace Draft

variable {net : Net} {available : Array Bool} {d : Draft} {taken calls : List Nat}
  {parts : List Part} {slots : List Int} {env : Surroundings}

/-- A draft that has taken in neurons makes a cell that is solved, part by part. -/
theorem Took.solve_eq (h : Took net available d taken parts slots)
    (hinputs : net.inputSize < Word.signedLimit) (hneurons : net.neuronCount < Word.signedLimit)
    (henv : env.Provides net available) :
    d.cell.solve env =
      .ok (Cell.solved env.values (slots.map (Ref.lookup env.input env.values)).toArray parts) := by
  refine h.holds.cell.solve_eq h.copies (fun ref href => ?_) fun p hp => ?_
  · have hgiven := h.given ref href
    exact ⟨(hgiven.isInner hinputs hneurons).isSigned, henv.canRead hgiven⟩
  · have hlt := h.copies.index_lt hp
    exact ⟨hlt.trans hneurons, hlt.trans_le henv.values⟩

/-- Each part of the cell has the value that the net asks for. -/
theorem Took.valueFrom?_eq (h : Took net available d taken parts slots)
    (henv : env.Provides net available) {k : Nat} {p : Part} (hk : parts[k]? = some p)
    {filled : Array Float}
    (hfilled : filled = (slots.map (Ref.lookup env.input env.values)).toArray) :
    net.valueFrom? (env.readAfter? (taken.take k) (Cell.solved env.values filled parts)) p.index
        (env.values.getD p.index 0.0) =
      some (p.value env.values filled (Cell.solved env.values filled (parts.take k))) := by
  obtain ⟨n, hcopies⟩ := h.copies k p hk
  obtain ⟨-, hlen⟩ := h.holds.cell.sources p (List.mem_of_getElem? hk)
  have hk' := (List.getElem?_eq_some_iff.mp hk).1
  have hsize : (parts.take k).length = k := List.length_take_of_le hk'.le
  have hnodup : ((parts.take k).map Part.index).Nodup := by
    rw [List.map_take]
    exact h.holds.positions.nodup.sublist (List.take_sublist _ _)
  refine Part.valueFrom?_eq hcopies hlen ((h.routes k p n hk hcopies.neuron).imp fun s ref hs => ?_)
  rw [← h.members, ← List.map_take, hfilled]
  refine Surroundings.readAfter?_of_routes hnodup (fun r hr => henv.canRead (h.given r hr))
    (Cell.size_solved _ _ _) (fun q hq => ?_) hs
  rw [hsize] at hq
  rw [Cell.getElem?_solved_take hq hk'.le]

/-- **A cell that is made by any calls** of a draft, failing ones included, is solved, and each of
its neurons gets the value that the net asks for: the share `filter` of its previous value, and the
rest of what its activation makes of its weighted sum and its bias, where a reference has the value
of the external input, the result of a neuron taken in before, or the present value of any other
neuron.  All that is asked of the sizes is that signed words count the external inputs, the neurons and
the table of weights of the cell.

**Proof sketch.** The draft holds a part for every neuron that was taken in.  The parts agree with
the net, and their sources with the references: a source that is a local position stands for the
neuron there, and one that is a slot for a reference to no neuron before. -/
theorem solve_addAll (hinputs : net.inputSize < Word.signedLimit)
    (hneurons : net.neuronCount < Word.signedLimit)
    (hcalls : (start net available).addAll calls = (d, taken))
    (hroom : d.cell.weights.size < Word.signedLimit) (henv : env.Provides net available) :
    taken = net.takenOf available [] calls ∧
    ∃ results, d.cell.solve env = .ok results ∧ results.size = taken.length ∧
      ∀ k i, taken[k]? = some i → ∃ previous value, env.values[i]? = some previous ∧
        net.valueFrom? (env.readAfter? (taken.take k) results) i previous = some value ∧
        results[k]? = some value := by
  have hsize : ((start net available).addAll calls).1.cell.weights.size < Word.signedLimit := by
    rwa [hcalls]
  obtain ⟨⟨parts, slots, htook⟩, htaken⟩ := took_addAll hinputs hneurons hsize
  rw [hcalls] at htook htaken
  dsimp only at htook htaken
  refine ⟨htaken, _, htook.solve_eq hinputs hneurons henv, by simp [← htook.members],
    fun k i hi => ?_⟩
  rw [← htook.members, List.getElem?_map, Option.map_eq_some_iff] at hi
  obtain ⟨p, hk, rfl⟩ := hi
  have hlt := (htook.copies.index_lt (List.mem_of_getElem? hk)).trans_le henv.values
  refine ⟨env.values.getD p.index 0.0, _, ?_, htook.valueFrom?_eq henv hk rfl,
    Cell.getElem?_solved hk⟩
  rw [Array.getD, dif_pos hlt, Array.getElem?_eq_getElem hlt]
  rfl

/-- A net of three neurons: the first one reads nothing, the second one the first one and two external
inputs, and the last one the second one and twice the first one. -/
def braid : Net where
  inputSize := 2
  outputNeurons := 1
  expectedRange := 1.0
  neurons := #[⟨.identity, 1, 2, #[], #[]⟩, ⟨.relu, 1, 2, #[⟨0, 1⟩, ⟨-1, 2⟩], #[⟨0, 3⟩]⟩,
    ⟨.identity, 1, 0, #[⟨1, 1⟩, ⟨0, 1⟩, ⟨0, 1⟩], #[⟨3, 2⟩, ⟨0, 1⟩]⟩]
  weights := #[1.5, 0.5, 0.25, -2.0, 3.0]

/-- Three of six calls take their neurons in: the second neuron, which reads the first one through a
slot, then the first one itself, and then the last one, which reads both at their local positions. -/
theorem solve_addAll_braid :
    ∃ results, ((start braid #[true]).addAll [2, 1, 7, 0, 0, 2]).1.cell.solve
        ⟨#[1.0, 2.0], #[0.5, 0.25, 0.125], #[true, false, false]⟩ = .ok results ∧
      results.size = 3 ∧
      ∀ k i, [1, 0, 2][k]? = some i → ∃ previous value,
        #[0.5, 0.25, 0.125][i]? = some previous ∧
        braid.valueFrom? (Surroundings.readAfter?
          ⟨#[1.0, 2.0], #[0.5, 0.25, 0.125], #[true, false, false]⟩ ([1, 0, 2].take k) results) i
            previous = some value ∧
        results[k]? = some value := by
  have hroom := size_weights_addAll_le braid #[true] [2, 1, 7, 0, 0, 2]
  have hfew : ([2, 1, 7, 0, 0, 2].map braid.placesOf).sum < Word.signedLimit := by decide
  have hprovides : Surroundings.Provides
      ⟨#[1.0, 2.0], #[0.5, 0.25, 0.125], #[true, false, false]⟩ braid #[true] :=
    ⟨by decide, by decide, by decide⟩
  obtain ⟨htaken, results, hsolve, hsize, hvalues⟩ := solve_addAll
    (by decide) (by decide) rfl (hroom.trans_lt hfew) hprovides
  have hthree : braid.takenOf #[true] [] [2, 1, 7, 0, 0, 2] = [1, 0, 2] := by decide
  rw [hthree] at htaken
  rw [htaken] at hsize hvalues
  exact ⟨results, hsolve, hsize, hvalues⟩

end Draft

end NeuralPlan
