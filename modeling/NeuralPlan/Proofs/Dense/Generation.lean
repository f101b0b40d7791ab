import Mathlib.Tactic
import NeuralPlan.Net.Dense
import NeuralPlan.Proofs.Answers

/-!
# What a dense net is made of

The generator of dense nets goes through the layers and asks the initializer for one value after
another, while the activations are drawn from a stream of their own.  So the calls of the initializer
are known beforehand, and so is the net but for the values: its neurons depend on the sizes of the
layers and the activations only, and its weight table is the list of values in the order of the calls.

## Main definitions

* `Initializer.Call`, `Initializer.replay` — calls of an initializer, and the values that it answers.
* `Dense.picks` — the activations that are drawn for the layers.
* `Dense.calls` — the calls that the generator makes.
* `Dense.neuronAt`, `Dense.neuronsOf`, `Dense.netOf` — the neurons and the net that it makes.

## Main results

* `Dense.addNeuron_eq`, `Dense.addNeurons_eq`, `Dense.addLayers_eq` — one neuron, one layer, all
  layers.
* `Dense.dense_eq`, `Dense.dense_eq_overflow` — a dense net from the values of its calls, and when
  there is none.
-/

set_option relaxedAutoImplicit false
set_option autoImplicit false

namespace NeuralPlan

/-! ## Calls -/

/-- What an initializer may be asked for. -/
inductive Initializer.Call
  /-- The next values are fitted to a number of inputs and to their greatest absolute value. -/
  | expect (count : Nat) (range : Float)
  /-- A weight for a neuron with the activation. -/
  | weightFor (f : Activation)
  | bias
  | memoryFilter

namespace Initializer

variable {σ : Type} [Initializer σ]

/-- What an initializer answers to one call, and its next state. -/
def respond (s : σ) : Call → Result (List Float × σ)
  | .expect count range => .ok ([], expect s count range)
  | .weightFor f => do
    let (weight, s) ← weightFor s f
    return ([weight], s)
  | .bias => do
    let (bias, s) ← bias s
    return ([bias], s)
  | .memoryFilter => do
    let (filter, s) ← memoryFilter s
    return ([filter], s)

/-- The values that an initializer answers to calls, in their order, and its last state. -/
def replay (s : σ) : List Call → Result (List Float × σ)
  | [] => .ok ([], s)
  | call :: calls => do
    let (values, s) ← respond s call
    let (rest, s) ← replay s calls
    return (values ++ rest, s)

/-- An expectation is answered with no value. -/
theorem replay_expect (s : σ) (count : Nat) (range : Float) (calls : List Call) :
    replay s (.expect count range :: calls) = replay (expect s count range) calls := by
  rw [replay, respond, Result.ok_bind]
  dsimp only
  cases replay (expect s count range) calls <;> rfl

/-- Calls after calls. -/
theorem replay_append (s : σ) (calls later : List Call) :
    replay s (calls ++ later) = (replay s calls >>= fun x =>
      replay x.2 later >>= fun y => .ok (x.1 ++ y.1, y.2)) := by
  induction calls generalizing s with
  | nil =>
    simp only [List.nil_append, replay, Result.ok_bind]
    cases replay s later <;> rfl
  | cons call calls ih =>
    simp only [List.cons_append, replay, ih, bind_assoc, Result.pure_eq_ok, Result.ok_bind,
      List.append_assoc]

/-- Every call but an expectation is answered with a value. -/
def Call.values : Call → Nat
  | .expect _ _ => 0
  | _ => 1

/-- One call is answered with as many values as it asks for. -/
theorem length_respond {s s' : σ} {call : Call} {values : List Float}
    (h : respond s call = .ok (values, s')) : values.length = call.values := by
  cases call with
  | expect count range =>
    obtain ⟨rfl, -⟩ := Prod.mk.inj (Except.ok.inj h)
    rfl
  | weightFor f =>
    obtain ⟨x, -, hx⟩ := Result.bind_eq_ok_iff.mp h
    obtain ⟨rfl, -⟩ := Prod.mk.inj (Except.ok.inj hx)
    rfl
  | bias =>
    obtain ⟨x, -, hx⟩ := Result.bind_eq_ok_iff.mp h
    obtain ⟨rfl, -⟩ := Prod.mk.inj (Except.ok.inj hx)
    rfl
  | memoryFilter =>
    obtain ⟨x, -, hx⟩ := Result.bind_eq_ok_iff.mp h
    obtain ⟨rfl, -⟩ := Prod.mk.inj (Except.ok.inj hx)
    rfl

/-- Calls are answered with as many values as they ask for. -/
theorem length_replay {s s' : σ} {calls : List Call} {values : List Float}
    (h : replay s calls = .ok (values, s')) : values.length = (calls.map Call.values).sum := by
  induction calls generalizing s values with
  | nil =>
    obtain ⟨rfl, -⟩ := Prod.mk.inj (Except.ok.inj h)
    rfl
  | cons call calls ih =>
    obtain ⟨⟨first, s₁⟩, hfirst, h⟩ := Result.bind_eq_ok_iff.mp h
    obtain ⟨⟨rest, s₂⟩, hrest, h⟩ := Result.bind_eq_ok_iff.mp h
    obtain ⟨rfl, rfl⟩ := Prod.mk.inj (Except.ok.inj h)
    rw [List.length_append, length_respond hfirst, ih hrest, List.map_cons, List.sum_cons]

end Initializer

namespace Dense

open Initializer (Call replay)

/-! ## What is drawn and asked for -/

/-- The activation that is drawn for one neuron, and the rest of the stream. -/
def pick (choices : Array Activation) (stream : Random.Stream) : Activation × Random.Stream :=
  ((Random.choose choices stream).1.getD default, (Random.choose choices stream).2)

/-- The activations that are drawn for the neurons of a layer, and the rest of the stream. -/
def picksOf (choices : Array Activation) :
    Nat → Random.Stream → List Activation × Random.Stream
  | 0, stream => ([], stream)
  | neurons + 1, stream =>
    ((pick choices stream).1 :: (picksOf choices neurons (pick choices stream).2).1,
      (picksOf choices neurons (pick choices stream).2).2)

/-- The activations that are drawn for the layers, one list for each, and the rest of the stream. -/
def picks : List (Nat × Array Activation) → Random.Stream →
    List (List Activation) × Random.Stream
  | [], stream => ([], stream)
  | (size, choices) :: layers, stream =>
    ((picksOf choices size stream).1 :: (picks layers (picksOf choices size stream).2).1,
      (picks layers (picksOf choices size stream).2).2)

/-- The greatest of a range and those of activations. -/
def widen (range : Float) (fs : List Activation) : Float :=
  fs.foldl (fun range f => if range < f.range then f.range else range) range

/-- The greatest range of activations. -/
def greatestRange (fs : List Activation) : Float := widen 0.0 fs

/-- The calls for a neuron with `count` inputs: its weights, its bias and its memory filter. -/
def neuronCalls (count : Nat) (f : Activation) : List Call :=
  List.replicate count (.weightFor f) ++ [.bias, .memoryFilter]

/-- The calls for layers, of which the first one reads `count` sources of the range `range`: before
the neurons of each layer the expectation is set, and after the first layer this is the greatest range
of the activations of the layer before. -/
def calls (count : Nat) (range : Float) : List (List Activation) → List Call
  | [] => []
  | fs :: layers =>
    .expect count range :: (fs.flatMap (neuronCalls count) ++
      calls fs.length (greatestRange fs) layers)

/-! ## What is made -/

/-- The run over the sources of a layer. -/
def runOf (start : Option Nat) (count : Nat) : Run :=
  match start with
  | none => ⟨Ref.input 0, count⟩
  | some start => Run.neurons start count

/-- A neuron that reads a run of sources and whose weights begin at `place` in the table. -/
def neuronAt (sources : Run) (place : Nat) (f : Activation) : Neuron where
  activation := f
  bias := place + sources.size
  memoryFilter := place + sources.size + 1
  inputs := if sources.size = 0 then #[] else #[sources]
  weights := if sources.size = 0 then #[] else #[⟨Word.toSigned place, sources.size⟩]

/-- The neurons of one layer, whose weights begin at `place` in the table. -/
def layerOf (sources : Run) : Nat → List Activation → List Neuron
  | _, [] => []
  | place, f :: fs =>
    neuronAt sources place f :: layerOf sources (place + (sources.size + 2)) fs

/-- The neurons of layers.  The first one reads `count` sources; its neurons begin at `first`, and
their weights at `place`. -/
def neuronsOf (start : Option Nat) (count first place : Nat) : List (List Activation) → List Neuron
  | [] => []
  | fs :: layers =>
    layerOf (runOf start count) place fs ++
      neuronsOf (some first) fs.length (first + fs.length) (place + fs.length * (count + 2)) layers

/-- The net of activations, one list for each layer, and the values of its weight table. -/
def netOf (inputSize outputNeurons : Nat) (expectedRange : Float) (layers : List (List Activation))
    (values : List Float) : Net where
  inputSize
  outputNeurons
  expectedRange
  neurons := (neuronsOf none inputSize 0 0 layers).toArray
  weights := values.toArray

variable {σ : Type} [Initializer σ]

/-- The runs over sources are made without fail. -/
theorem sourceRun_eq (start : Option Nat) (count : Nat) :
    sourceRun start count = .ok (runOf start count) := by
  cases start with
  | none => rfl
  | some start => rfl

/-- A run over sources has as many as it is asked for. -/
@[simp] theorem size_runOf (start : Option Nat) (count : Nat) : (runOf start count).size = count := by
  cases start <;> rfl

/-- There is a neuron for every activation of a layer. -/
@[simp] theorem length_layerOf (sources : Run) (place : Nat) (fs : List Activation) :
    (layerOf sources place fs).length = fs.length := by
  induction fs generalizing place with
  | nil => rfl
  | cons f fs ih => rw [layerOf, List.length_cons, List.length_cons, ih]

/-- An activation is drawn for every neuron of a layer. -/
@[simp] theorem length_picksOf (choices : Array Activation) (neurons : Nat)
    (stream : Random.Stream) : (picksOf choices neurons stream).1.length = neurons := by
  induction neurons generalizing stream with
  | zero => rfl
  | succ neurons ih => rw [picksOf, List.length_cons, ih]

/-- Weights are written in the order of the calls. -/
theorem addWeights_eq (f : Activation) (count : Nat) (g : Growth σ) :
    addWeights f count g =
      (replay g.initializer (List.replicate count (.weightFor f)) >>= fun x =>
        .ok { g with weights := g.weights ++ x.1.toArray, initializer := x.2 }) := by
  induction count generalizing g with
  | zero => simp [addWeights, replay]
  | succ count ih =>
    rw [addWeights, List.replicate_succ, replay, Initializer.respond]
    simp only [ih, bind_assoc, Result.pure_eq_ok, Result.ok_bind, List.singleton_append,
      ← Array.append_singleton, Array.append_assoc, List.append_toArray]

/-- The calls for one neuron ask for a value for each weight and two more. -/
theorem sum_values_neuronCalls (count : Nat) (f : Activation) :
    ((neuronCalls count f).map Call.values).sum = count + 2 := by
  simp [neuronCalls, Call.values]

/-- **One neuron more**, from the values of its calls. -/
theorem addNeuron_eq (choices : Array Activation) (start : Option Nat) (count : Nat)
    (g : Growth σ) :
    addNeuron choices start count g =
      (replay g.initializer (neuronCalls count (pick choices g.stream).1) >>= fun x =>
        .ok ((pick choices g.stream).1, {
          neurons := g.neurons.push
            (neuronAt (runOf start count) g.weights.size (pick choices g.stream).1)
          weights := g.weights ++ x.1.toArray
          initializer := x.2
          stream := (pick choices g.stream).2 })) := by
  unfold addNeuron pick
  generalize Random.choose choices g.stream = drawn
  obtain ⟨chosen, stream⟩ := drawn
  dsimp only
  rw [addWeights_eq, neuronCalls, Initializer.replay_append]
  cases hweights : replay g.initializer (List.replicate count (.weightFor (chosen.getD default))) with
  | error e => rfl
  | ok x =>
    obtain ⟨ws, s⟩ := x
    have hlen : ws.length = count := by
      rw [Initializer.length_replay hweights]
      simp [Call.values]
    simp only [Result.ok_bind, replay, Initializer.respond, bind_assoc, Result.pure_eq_ok,
      sourceRun_eq, neuronAt, size_runOf, Array.size_append, List.size_toArray, hlen]
    congr 1
    funext b
    congr 1
    funext m
    simp

/-- **One layer more**, from the values of its calls. -/
theorem addNeurons_eq (choices : Array Activation) (start : Option Nat) (count neurons : Nat)
    (range : Float) (g : Growth σ) :
    addNeurons choices start count neurons range g =
      (replay g.initializer ((picksOf choices neurons g.stream).1.flatMap (neuronCalls count)) >>=
        fun x => .ok (widen range (picksOf choices neurons g.stream).1, {
          neurons := g.neurons ++ (layerOf (runOf start count) g.weights.size
            (picksOf choices neurons g.stream).1).toArray
          weights := g.weights ++ x.1.toArray
          initializer := x.2
          stream := (picksOf choices neurons g.stream).2 })) := by
  induction neurons generalizing range g with
  | zero => simp [addNeurons, picksOf, replay, layerOf, widen]
  | succ neurons ih =>
    rw [addNeurons, addNeuron_eq, picksOf, List.flatMap_cons, Initializer.replay_append]
    cases hone : replay g.initializer (neuronCalls count (pick choices g.stream).1) with
    | error e => rfl
    | ok x =>
      obtain ⟨ws, s⟩ := x
      have hlen : ws.length = count + 2 := by
        rw [Initializer.length_replay hone, sum_values_neuronCalls]
      simp only [Result.ok_bind, ih, bind_assoc, layerOf, size_runOf, widen, List.foldl_cons,
        Array.size_append, List.size_toArray, hlen]
      congr 1
      funext y
      simp [Array.append_assoc]

/-- The calls for one layer ask for a value for each of its weights, and two more for each neuron. -/
theorem sum_values_flatMap (count : Nat) (fs : List Activation) :
    ((fs.flatMap (neuronCalls count)).map Call.values).sum = fs.length * (count + 2) := by
  induction fs with
  | nil => simp
  | cons f fs ih =>
    rw [List.flatMap_cons, List.map_append, List.sum_append, sum_values_neuronCalls, ih,
      List.length_cons]
    ring

/-- **All layers**, from the values of their calls. -/
theorem addLayers_eq (start : Option Nat) (count : Nat) (range : Float) (g : Growth σ)
    (layers : List (Nat × Array Activation)) :
    addLayers start count range g layers =
      (replay g.initializer (calls count range (picks layers g.stream).1) >>= fun x => .ok {
        neurons := g.neurons ++ (neuronsOf start count g.neurons.size g.weights.size
          (picks layers g.stream).1).toArray
        weights := g.weights ++ x.1.toArray
        initializer := x.2
        stream := (picks layers g.stream).2 }) := by
  induction layers generalizing start count range g with
  | nil => simp [addLayers, picks, calls, replay, neuronsOf]
  | cons layer layers ih =>
    obtain ⟨size, choices⟩ := layer
    rw [addLayers, addNeurons_eq, picks, calls, Initializer.replay_expect,
      Initializer.replay_append]
    dsimp only
    cases hlayer : replay (Initializer.expect g.initializer count range)
        ((picksOf choices size g.stream).1.flatMap (neuronCalls count)) with
    | error e => rfl
    | ok x =>
      obtain ⟨ws, s⟩ := x
      have hlen : ws.length = size * (count + 2) := by
        rw [Initializer.length_replay hlayer, sum_values_flatMap, length_picksOf]
      simp only [Result.ok_bind, ih, bind_assoc, neuronsOf, length_picksOf, length_layerOf,
        Array.size_append, List.size_toArray, hlen, greatestRange]
      congr 1
      funext y
      simp [Array.append_assoc]

/-! ## The net -/

variable {s : NetSettings} {layers : List Nat} {inputSize : Nat} {range : Float}

/-- The check of sizes passes exactly if no layer is empty. -/
theorem checkSizes_eq_ok_iff : checkSizes layers = .ok () ↔ 0 ∉ layers := by
  have hnone : layers.findIdx? (· == 0) = none ↔ 0 ∉ layers := by
    rw [List.findIdx?_eq_none_iff]
    refine ⟨fun h hzero => ?_, fun h size hsize => ?_⟩
    · cases h 0 hzero
    · exact beq_eq_false_iff_ne.mpr fun hsame => h (hsame ▸ hsize)
  rw [checkSizes, ← hnone]
  cases layers.findIdx? (· == 0) with
  | none => simp
  | some layer => simp

/-- The check of choices passes exactly if every layer has some. -/
theorem checkChoices_eq_ok_iff {given : Option (Array (Array Activation))} :
    checkChoices layers given = .ok () ↔
      ∀ choices ∈ given, choices.size = layers.length ∧ #[] ∉ choices := by
  cases given with
  | none => simp [checkChoices]
  | some choices =>
    have hnone : choices.findIdx? Array.isEmpty = none ↔ #[] ∉ choices := by
      rw [Array.findIdx?_eq_none_iff]
      refine ⟨fun h hempty => ?_, fun h fs hfs => ?_⟩
      · cases h #[] hempty
      · rw [Bool.eq_false_iff, ne_eq, Array.isEmpty_iff]
        exact fun hsame => h (hsame ▸ hfs)
    simp only [checkChoices, Option.mem_some_iff, forall_eq', ← hnone]
    by_cases hsize : choices.size = layers.length
    · rw [if_neg (not_not.mpr hsize)]
      cases choices.findIdx? Array.isEmpty with
      | none => simp [hsize]
      | some layer => simp
    · simp [hsize]

/-- The check of the number of neurons passes exactly if their list can be held. -/
theorem checkTotal_eq_ok_iff :
    checkTotal layers = .ok () ↔ layers.sum * neuronBytes < Word.signedLimit := by
  have hlimit : Word.signedLimit < Word.limit := by decide
  have hle : layers.sum ≤ layers.sum * neuronBytes := Nat.le_mul_of_pos_right _ (by decide)
  rw [checkTotal, Word.total_eq_sum, Result.bind_eq_ok_iff]
  simp only [Word.unsigned_eq_ok_iff]
  constructor
  · rintro ⟨_, ⟨-, rfl⟩, hheld⟩
    by_contra hbig
    rw [if_pos (Nat.le_of_not_lt hbig)] at hheld
    cases hheld
  · intro hheld
    exact ⟨_, ⟨by omega, rfl⟩, if_neg (Nat.not_le_of_lt hheld)⟩

/-- Layers whose neurons cannot be held do not pass it. -/
theorem checkTotal_eq_overflow (hbig : Word.signedLimit ≤ layers.sum * neuronBytes) :
    checkTotal layers = stop .overflow := by
  rw [checkTotal, Word.total_eq_sum]
  by_cases htotal : layers.sum < Word.limit
  · rw [Word.unsigned_eq_ok htotal, Result.ok_bind, if_pos hbig]
  · rw [Word.unsigned, if_neg htotal]
    rfl

/-- The number of outputs is the size of the last layer, and it is the one that is requested. -/
theorem outputNeurons_eq_ok_iff {given : Option Nat} {last : Nat} :
    outputNeurons layers given = .ok last ↔
      layers.getLast? = some last ∧ ∀ requested ∈ given, requested = last := by
  unfold outputNeurons
  cases layers.getLast? with
  | none => simp
  | some size =>
    cases given with
    | none => simp
    | some requested =>
      by_cases hsame : size = requested
      · simp [hsame, eq_comm]
      · simp only [hsame, if_false, Result.fail_ne_ok, Option.some.injEq, Option.mem_some_iff,
          forall_eq', false_iff]
        exact fun h => hsame (h.1.trans h.2.symm)

/-- **A dense net from the values of its calls**, if nothing is missing and the list of neurons can
be held. -/
theorem dense_eq {last : Nat} (hinput : s.inputSize = some inputSize)
    (hrange : s.expectedRange = some range) (hlast : layers.getLast? = some last)
    (houtputs : ∀ requested ∈ s.outputNeurons, requested = last) (hzero : 0 ∉ layers)
    (hchoices : ∀ choices ∈ s.choices, choices.size = layers.length ∧ #[] ∉ choices)
    (hheld : layers.sum * neuronBytes < Word.signedLimit) (initializer : σ)
    (stream : Random.Stream) :
    Net.dense s layers initializer stream =
      (replay initializer
          (calls inputSize range (picks (withChoices layers s.choices) stream).1) >>= fun x =>
        .ok (netOf inputSize last range (picks (withChoices layers s.choices) stream).1 x.1,
          x.2)) := by
  unfold Net.dense
  simp only [hinput, hrange, outputNeurons_eq_ok_iff.mpr ⟨hlast, houtputs⟩,
    checkSizes_eq_ok_iff.mpr hzero, checkChoices_eq_ok_iff.mpr hchoices,
    checkTotal_eq_ok_iff.mpr hheld, addLayers_eq, Result.ok_bind, bind_assoc, Result.pure_eq_ok,
    List.size_toArray, List.length_nil, List.append_toArray, List.nil_append, netOf]

/-- **There is no dense net** whose list of neurons cannot be held, even if nothing is missing. -/
theorem dense_eq_overflow {last : Nat} (hinput : s.inputSize = some inputSize)
    (hrange : s.expectedRange = some range) (hlast : layers.getLast? = some last)
    (houtputs : ∀ requested ∈ s.outputNeurons, requested = last) (hzero : 0 ∉ layers)
    (hchoices : ∀ choices ∈ s.choices, choices.size = layers.length ∧ #[] ∉ choices)
    (hbig : Word.signedLimit ≤ layers.sum * neuronBytes) (initializer : σ)
    (stream : Random.Stream) : Net.dense s layers initializer stream = stop .overflow := by
  unfold Net.dense
  simp only [hinput, hrange, outputNeurons_eq_ok_iff.mpr ⟨hlast, houtputs⟩,
    checkSizes_eq_ok_iff.mpr hzero, checkChoices_eq_ok_iff.mpr hchoices,
    checkTotal_eq_overflow hbig, Result.ok_bind]
  rfl

end Dense

end NeuralPlan
