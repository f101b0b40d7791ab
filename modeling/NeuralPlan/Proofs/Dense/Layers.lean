import Mathlib.Data.List.GetD
import NeuralPlan.Proofs.Dense.Picks
import NeuralPlan.Proofs.Graph
import NeuralPlan.Proofs.Walks

/-!
# The layers of a dense net

The neurons of the first layer read the external inputs, and those of any other layer the neurons of
the layer before.  Each neuron has a stretch of the weight table of its own, for its weights, its bias
and its memory filter, and these stretches follow each other through the whole table.

## Main definitions

* `Dense.sources` — what the neurons of a layer read.
* `Net.IsLayered` — the net has layers of these sizes and activations.

## Main results

* `Dense.getElem?_neuronsOf` — the neuron at a place of a layer.
* `Dense.flatMap_places_neuronsOf` — the places in the weight table.
* `Dense.isLayered` — what is made from any picks is layered.
* `Dense.dense_isLayered` — dense nets of any initializer and any stream.
-/

set_option relaxedAutoImplicit false
set_option autoImplicit false

namespace NeuralPlan

/-- The places of a neuron in the weight table: of its weights, its bias and its memory filter. -/
def Neuron.places (n : Neuron) : List Int :=
  Runs.indices n.weights.toList ++ [(n.bias : Int), (n.memoryFilter : Int)]

/-- What the neurons of the layer `l` read, in order: the external inputs, or the neurons of the layer
before. -/
def Dense.sources (inputSize : Nat) (layers : List Nat) : Nat → List Int
  | 0 => (List.range inputSize).map Ref.input
  | l + 1 => (List.range' (layers.take l).sum (layers.getD l 0)).map fun k : Nat => (k : Int)

/-- The net has layers of these sizes, with the activations `picks`: its neurons are those of the
layers, one after another; they read what neurons of their layer read, and have as many weights; and
their places in the weight table are all that there are, one after another. -/
structure Net.IsLayered (net : Net) (layers : List Nat) (picks : List (List Activation)) :
    Prop where
  count : net.neuronCount = layers.sum
  neuron : ∀ l k f, (picks.getD l [])[k]? = some f →
    ∃ n, net.neurons[(layers.take l).sum + k]? = some n ∧ n.activation = f ∧
      n.references = Dense.sources net.inputSize layers l ∧
      (Runs.indices n.weights.toList).length = n.references.length
  places : net.neurons.toList.flatMap Neuron.places =
    (List.range net.weights.size).map fun place : Nat => (place : Int)

namespace Dense

variable {sources : Run} {fs : List Activation} {f : Activation} {picks : List (List Activation)}
  {start : Option Nat} {count first place k l : Nat} {n : Neuron}

/-! ## One neuron -/

/-- A neuron reads its sources. -/
theorem references_neuronAt (sources : Run) (place : Nat) (f : Activation) :
    (neuronAt sources place f).references = sources.indices := by
  unfold Neuron.references neuronAt
  by_cases h : sources.size = 0
  · simp [h, Run.indices_eq_nil h]
  · simp [h]

/-- A neuron has as many weights as sources. -/
theorem length_weights_neuronAt (sources : Run) (place : Nat) (f : Activation) :
    (Runs.indices (neuronAt sources place f).weights.toList).length =
      (neuronAt sources place f).references.length := by
  rw [references_neuronAt, neuronAt]
  by_cases h : sources.size = 0
  · simp [h, Run.indices_eq_nil h]
  · simp [h, Run.length]

/-- The neurons from `start` on. -/
theorem indices_neurons (h : first + count ≤ Word.signedLimit) (hcount : count < Word.signedLimit) :
    (Run.neurons first count).indices =
      (List.range' first count).map fun k : Nat => (k : Int) := by
  rcases Nat.eq_zero_or_pos count with rfl | hpos
  · rw [Run.indices_eq_nil rfl]
    rfl
  have hstart : Word.toSigned first = first := Word.toSigned_of_lt (by omega)
  rw [Run.neurons, hstart, Run.indices, Run.length_eq_size hcount,
    Run.step_of_nonneg (Int.natCast_nonneg first), List.range'_eq_map_range, List.map_map]
  refine List.map_congr_left fun k _ => ?_
  simp

/-- The places of a neuron follow each other. -/
theorem places_neuronAt (hroom : place + sources.size < Word.signedLimit) (f : Activation) :
    (neuronAt sources place f).places =
      (List.range' place (sources.size + 2)).map fun k : Nat => (k : Int) := by
  have hweights : Runs.indices (neuronAt sources place f).weights.toList =
      (List.range' place sources.size).map fun k : Nat => (k : Int) := by
    rw [← indices_neurons hroom.le (by omega), neuronAt]
    by_cases h : sources.size = 0
    · rw [h, Run.indices_eq_nil (by rw [Run.neurons])]
      simp
    · simp [h, Run.neurons]
  rw [Neuron.places, hweights, ← List.range'_append_1, List.map_append]
  congr 1

/-! ## One layer -/

/-- The neuron at a place of a layer. -/
theorem getElem?_layerOf (sources : Run) (place : Nat) (fs : List Activation) (k : Nat) :
    (layerOf sources place fs)[k]? =
      fs[k]?.map (neuronAt sources (place + k * (sources.size + 2))) := by
  induction fs generalizing place k with
  | nil => rfl
  | cons f fs ih =>
    cases k with
    | zero => simp [layerOf]
    | succ k =>
      have hplace : place + (sources.size + 2) + k * (sources.size + 2) =
          place + (k + 1) * (sources.size + 2) := by ring
      rw [layerOf, List.getElem?_cons_succ, ih, List.getElem?_cons_succ, hplace]

/-- The places of the neurons of a layer follow each other. -/
theorem flatMap_places_layerOf
    (hroom : place + fs.length * (sources.size + 2) ≤ Word.signedLimit) :
    (layerOf sources place fs).flatMap Neuron.places =
      (List.range' place (fs.length * (sources.size + 2))).map fun k : Nat => (k : Int) := by
  induction fs generalizing place with
  | nil => simp [layerOf]
  | cons f fs ih =>
    have hsum : (f :: fs).length * (sources.size + 2) =
        (sources.size + 2) + fs.length * (sources.size + 2) := by
      rw [List.length_cons]
      ring
    rw [hsum] at hroom ⊢
    rw [layerOf, List.flatMap_cons, places_neuronAt (by omega), ih (by omega),
      ← List.map_append, List.range'_append_1]

/-! ## All layers -/

/-- The size of the weight table of layers, of which the first one reads `count` sources. -/
def tableSize (count : Nat) : List (List Activation) → Nat
  | [] => 0
  | fs :: layers => fs.length * (count + 2) + tableSize fs.length layers

/-- The table has places for all that a neuron of the first layer reads. -/
theorem le_tableSize (count : Nat) (hpos : 0 < fs.length) (layers : List (List Activation)) :
    count + 2 ≤ tableSize count (fs :: layers) := by
  have hle := Nat.le_mul_of_pos_left (count + 2) hpos
  rw [tableSize]
  omega

/-- The calls ask for as many values as the table has places. -/
theorem sum_values_calls (count : Nat) (range : Float) (picks : List (List Activation)) :
    ((calls count range picks).map Initializer.Call.values).sum = tableSize count picks := by
  induction picks generalizing count range with
  | nil => rfl
  | cons fs layers ih =>
    rw [calls, List.map_cons, List.sum_cons, List.map_append, List.sum_append,
      sum_values_flatMap, ih, tableSize]
    exact Nat.zero_add _

/-- There is a neuron for every activation. -/
theorem length_neuronsOf (start : Option Nat) (count first place : Nat)
    (picks : List (List Activation)) :
    (neuronsOf start count first place picks).length = (picks.map List.length).sum := by
  induction picks generalizing start count first place with
  | nil => rfl
  | cons fs layers ih =>
    rw [neuronsOf, List.length_append, length_layerOf, ih, List.map_cons, List.sum_cons]

/-- The run that the neurons of the layer `l` read, of layers whose neurons begin at `first`. -/
def runAt (start : Option Nat) (count first : Nat) (sizes : List Nat) : Nat → Run
  | 0 => runOf start count
  | l + 1 => runOf (some (first + (sizes.take l).sum)) (sizes.getD l 0)

/-- **The neuron at a place of a layer** reads the run of its layer. -/
theorem getElem?_neuronsOf (start : Option Nat) (count first place : Nat)
    (hf : (picks.getD l [])[k]? = some f) :
    ∃ p, (neuronsOf start count first place picks)[((picks.map List.length).take l).sum + k]? =
      some (neuronAt (runAt start count first (picks.map List.length) l) p f) := by
  induction picks generalizing start count first place l with
  | nil => simp at hf
  | cons fs layers ih =>
    cases l with
    | zero =>
      have hget : fs[k]? = some f := hf
      have hk : k < fs.length := (List.getElem?_eq_some_iff.mp hget).1
      refine ⟨place + k * (count + 2), ?_⟩
      rw [List.take_zero, List.sum_nil, Nat.zero_add, neuronsOf,
        List.getElem?_append_left (by rwa [length_layerOf]), getElem?_layerOf, hget, size_runOf]
      rfl
    | succ l =>
      obtain ⟨p, hp⟩ := ih (some first) fs.length (first + fs.length)
        (place + fs.length * (count + 2)) hf
      refine ⟨p, ?_⟩
      have hrun : runAt (some first) fs.length (first + fs.length) (layers.map List.length) l =
          runAt start count first ((fs :: layers).map List.length) (l + 1) := by
        cases l with
        | zero => rfl
        | succ l =>
          rw [runAt, runAt, List.map_cons, List.take_succ_cons, List.sum_cons, List.getD_cons_succ,
            Nat.add_assoc]
      rw [List.map_cons, List.take_succ_cons, List.sum_cons, neuronsOf,
        List.getElem?_append_right (by rw [length_layerOf]; omega), length_layerOf, Nat.add_assoc,
        Nat.add_sub_cancel_left, hp, hrun, List.map_cons]

/-- **The places of all neurons** follow each other. -/
theorem flatMap_places_neuronsOf (hroom : place + tableSize count picks ≤ Word.signedLimit) :
    (neuronsOf start count first place picks).flatMap Neuron.places =
      (List.range' place (tableSize count picks)).map fun k : Nat => (k : Int) := by
  induction picks generalizing start count first place with
  | nil => rfl
  | cons fs layers ih =>
    rw [tableSize] at hroom ⊢
    rw [neuronsOf, List.flatMap_append,
      flatMap_places_layerOf (by rw [size_runOf]; omega), size_runOf, ih (by omega),
      ← List.map_append, List.range'_append_1]

/-- The external inputs. -/
theorem indices_inputs (hcount : count < Word.signedLimit) :
    (runOf none count).indices = (List.range count).map Ref.input := by
  have hlen : (runOf none count).length = count := Run.length_eq_size hcount
  have hstep : (runOf none count).step = -1 := Run.step_of_neg (show Ref.input 0 < 0 by decide)
  rw [Run.indices, hlen, hstep]
  refine List.map_congr_left fun k _ => ?_
  change Ref.input 0 + -1 * (k : Int) = Ref.input k
  simp only [Ref.input]
  omega

/-- The neurons of the first layers and of one more. -/
theorem sum_take_add (sizes : List Nat) (l : Nat) :
    (sizes.take l).sum + sizes.getD l 0 = (sizes.take (l + 1)).sum := by
  induction sizes generalizing l with
  | nil => simp
  | cons size sizes ih =>
    cases l with
    | zero => simp
    | succ l =>
      rw [List.take_succ_cons, List.take_succ_cons, List.sum_cons, List.sum_cons,
        List.getD_cons_succ, Nat.add_assoc, ih]

/-- The first layers have no more neurons than all. -/
theorem sum_take_le (sizes : List Nat) (l : Nat) : (sizes.take l).sum ≤ sizes.sum :=
  (List.take_sublist l sizes).sum_le_sum fun _ _ => Nat.zero_le _

/-- The run of a layer is over its sources. -/
theorem indices_runAt {inputSize : Nat} {sizes : List Nat}
    (hinput : l = 0 → inputSize < Word.signedLimit) (hsizes : sizes.sum < Word.signedLimit) :
    (runAt none inputSize 0 sizes l).indices = Dense.sources inputSize sizes l := by
  cases l with
  | zero => exact indices_inputs (hinput rfl)
  | succ l =>
    have hone := sum_take_add sizes l
    have hle := sum_take_le sizes (l + 1)
    rw [runAt, Nat.zero_add, Dense.sources]
    exact indices_neurons (by omega) (by omega)

/-- **What is made of any activations is layered**, if signed words count the neurons and the table. -/
theorem isLayered {inputSize last : Nat} {range : Float} {values : List Float}
    (hvalues : values.length = tableSize inputSize picks)
    (hsizes : (picks.map List.length).sum < Word.signedLimit)
    (htable : tableSize inputSize picks < Word.signedLimit) :
    (netOf inputSize last range picks values).IsLayered (picks.map List.length) picks := by
  refine ⟨length_neuronsOf _ _ _ _ _, fun l k f hf => ?_, ?_⟩
  · obtain ⟨p, hp⟩ := getElem?_neuronsOf none inputSize 0 0 hf
    have hinput : l = 0 → inputSize < Word.signedLimit := by
      rintro rfl
      cases picks with
      | nil => simp at hf
      | cons fs layers =>
        have hpos : 0 < fs.length := Nat.zero_lt_of_lt (List.getElem?_eq_some_iff.mp hf).1
        have hle := le_tableSize inputSize hpos layers
        omega
    refine ⟨_, List.getElem?_toArray.trans hp, rfl, ?_, length_weights_neuronAt _ _ _⟩
    rw [references_neuronAt, indices_runAt hinput hsizes]
    rfl
  · change (neuronsOf none inputSize 0 0 picks).flatMap Neuron.places =
      (List.range values.length).map _
    rw [hvalues, flatMap_places_neuronsOf (by omega), List.range_eq_range']

end Dense

/-- A neuron of several layers is one of a layer. -/
theorem exists_layer_of_lt {sizes : List Nat} {i : Nat} (h : i < sizes.sum) :
    ∃ l < sizes.length, (sizes.take l).sum ≤ i ∧ i < (sizes.take (l + 1)).sum := by
  induction sizes generalizing i with
  | nil => simp at h
  | cons size sizes ih =>
    rw [List.sum_cons] at h
    by_cases hi : i < size
    · exact ⟨0, by simp, by simp, by simpa using hi⟩
    · obtain ⟨l, hl, hfirst, hlast⟩ := ih (i := i - size) (by omega)
      refine ⟨l + 1, by simpa using hl, ?_, ?_⟩
      · rw [List.take_succ_cons, List.sum_cons]
        omega
      · rw [List.take_succ_cons, List.sum_cons]
        omega

/-- **The neuron at a place of a layer** reads what its layer reads. -/
theorem Net.IsLayered.exists_neuron {net : Net} {layers : List Nat} {picks : List (List Activation)}
    (h : net.IsLayered layers picks) (hpicks : picks.map List.length = layers) {l i : Nat}
    (hfirst : (layers.take l).sum ≤ i) (hlast : i < (layers.take (l + 1)).sum) :
    ∃ n, net.neurons[i]? = some n ∧ n.references = Dense.sources net.inputSize layers l ∧
      (Runs.indices n.weights.toList).length = n.references.length := by
  have hone := Dense.sum_take_add layers l
  have hlength : layers.getD l 0 = (picks.getD l []).length := by
    rw [← hpicks]
    exact List.getD_map picks [] List.length
  obtain ⟨k, rfl⟩ := Nat.exists_eq_add_of_le hfirst
  have hf : (picks.getD l [])[k]? = some (picks.getD l [])[k] :=
    List.getElem?_eq_getElem (by omega)
  obtain ⟨n, hn, -, hreads, hweights⟩ := h.neuron l k _ hf
  exact ⟨n, hn, hreads, hweights⟩

/-- **In a layered net every neuron reads neurons before it only.** -/
theorem Net.IsLayered.lt_of_reads {net : Net} {picks : List (List Activation)}
    (h : net.IsLayered (picks.map List.length) picks) {i j : Nat} (hij : net.Reads i j) : j < i := by
  obtain ⟨l, -, hfirst, hlast⟩ := exists_layer_of_lt (h.count ▸ hij.lt)
  obtain ⟨n, hn, hreads, -⟩ := h.exists_neuron rfl hfirst hlast
  rw [Net.Reads, Net.inputsOf_eq hn, Neuron.mem_neuronInputs, hreads] at hij
  obtain ⟨ref, href, hnot, rfl⟩ := hij
  cases l with
  | zero =>
    obtain ⟨input, -, rfl⟩ := List.mem_map.mp href
    rw [Ref.isInput_input] at hnot
    cases hnot
  | succ l =>
    obtain ⟨m, hm, rfl⟩ := List.mem_map.mp href
    have hle := List.mem_range'_1.mp hm
    have hlayer := Dense.sum_take_add (picks.map List.length) l
    rw [Int.toNat_natCast]
    omega

/-! ## Dense nets -/

namespace Dense

open Initializer (replay)

variable {σ : Type} [Initializer σ] {s : NetSettings} {layers : List Nat} {inputSize last : Nat}
  {range : Float}

/-- The choices are for the layers. -/
theorem map_fst_withChoices
    (hchoices : ∀ choices ∈ s.choices, choices.size = layers.length ∧ #[] ∉ choices) :
    (withChoices layers s.choices).map Prod.fst = layers := by
  cases hs : s.choices with
  | none => simp [withChoices, Function.comp_def]
  | some choices =>
    have hsize := (hchoices choices hs).1
    exact List.map_fst_zip (by simp [hsize])

/-- Every layer has activations to choose from. -/
theorem choices_ne_empty
    (hchoices : ∀ choices ∈ s.choices, choices.size = layers.length ∧ #[] ∉ choices) :
    ∀ layer ∈ withChoices layers s.choices, layer.2 ≠ #[] := by
  intro layer hlayer
  cases hs : s.choices with
  | none =>
    rw [hs] at hlayer
    obtain ⟨size, -, rfl⟩ := List.mem_map.mp hlayer
    exact fun h => by cases h
  | some choices =>
    rw [hs] at hlayer
    intro hempty
    have hmem := (List.of_mem_zip (a := layer.1) (b := layer.2) hlayer).2
    rw [hempty] at hmem
    exact (hchoices choices hs).2 (Array.mem_toList_iff.mp hmem)

/-- **Dense nets**, of any initializer and any stream.

1. The stream decides the activations `fs`: one for each neuron, among the choices of its layer.
2. The initializer is called layer by layer: before the neurons of a layer it is told how many sources
   they have and how great these are, which is the expected range of the inputs or the greatest range
   of the activations of the layer before; then it is asked for the weights, the bias and the memory
   filter of each neuron.  If a call fails, so does the generation, and else it succeeds.
3. The weight table holds the values in the order of the calls.  The neurons of the first layer read all
   external inputs, those of any other layer all neurons of the layer before, in order, and so only
   neurons before them; they have as many weights as sources, and the weights, the bias and the memory
   filter of one neuron after another stand in the table without a gap.

Nothing may be missing or empty, and it must be possible to hold the list of neurons; the places of the
table are right if a signed word counts them. -/
theorem dense_isLayered (hinput : s.inputSize = some inputSize)
    (hrange : s.expectedRange = some range) (hlast : layers.getLast? = some last)
    (houtputs : ∀ requested ∈ s.outputNeurons, requested = last) (hzero : 0 ∉ layers)
    (hchoices : ∀ choices ∈ s.choices, choices.size = layers.length ∧ #[] ∉ choices)
    (hheld : layers.sum * neuronBytes < Word.signedLimit) (initializer : σ)
    (stream : Random.Stream) :
    ∃ fs : List (List Activation),
      fs = (picks (withChoices layers s.choices) stream).1 ∧ fs.map List.length = layers ∧
      (∀ (l : Nat) layer, (withChoices layers s.choices)[l]? = some layer →
        ∀ f ∈ fs.getD l [], f ∈ layer.2) ∧
      (∀ layer ∈ fs, (∀ f ∈ layer, f.range ≤ greatestRange layer) ∧
        ∃ f ∈ layer, f.range = greatestRange layer) ∧
      (∀ e, replay initializer (calls inputSize range fs) = .error e →
        Net.dense s layers initializer stream = .error e) ∧
      ∀ values final, replay initializer (calls inputSize range fs) = .ok (values, final) →
        ∃ net, Net.dense s layers initializer stream = .ok (net, final) ∧
          net.inputSize = inputSize ∧ net.outputNeurons = last ∧ net.expectedRange = range ∧
          net.weights.toList = values ∧
          (values.length < Word.signedLimit →
            net.IsLayered layers fs ∧ ∀ i j, net.Reads i j → j < i) := by
  have heq := dense_eq hinput hrange hlast houtputs hzero hchoices hheld initializer stream
  have hlengths : (picks (withChoices layers s.choices) stream).1.map List.length = layers := by
    rw [map_length_picks, map_fst_withChoices hchoices]
  refine ⟨_, rfl, hlengths, fun l layer hlayer => ?_, fun layer hlayer => ?_, fun e he => ?_,
    fun values final hvalues => ?_⟩
  · exact mem_of_mem_picks hlayer (choices_ne_empty hchoices layer (List.mem_of_getElem? hlayer))
  · refine isGreatest_greatestRange fun hnil => hzero ?_
    rw [← hlengths]
    exact List.mem_map.mpr ⟨layer, hlayer, by rw [hnil]; rfl⟩
  · rw [heq, he]
    rfl
  · rw [hvalues, Result.ok_bind] at heq
    refine ⟨_, heq, rfl, rfl, rfl, rfl, fun hcount => ?_⟩
    rw [Initializer.length_replay hvalues, sum_values_calls] at hcount
    have hsize : layers.sum < Word.signedLimit :=
      (Nat.le_mul_of_pos_right _ (by decide)).trans_lt hheld
    have hlayered : (netOf inputSize last range _ values).IsLayered _ _ :=
      isLayered ((Initializer.length_replay hvalues).trans (sum_values_calls _ _ _))
        (by rwa [hlengths]) hcount
    refine ⟨?_, fun i j => hlayered.lt_of_reads⟩
    rwa [hlengths] at hlayered

/-- An initializer that answers all calls with the same value. -/
structure Constant where
  value : Float

instance : Initializer Constant where
  expect c _ _ := c
  weightFor c _ := .ok (c.value, c)
  bias c := .ok (c.value, c)
  memoryFilter c := .ok (c.value, c)

/-- Any calls of such an initializer are answered. -/
theorem Constant.exists_replay (c : Constant) (calls : List Initializer.Call) :
    ∃ values, replay c calls = .ok (values, c) := by
  induction calls with
  | nil => exact ⟨[], rfl⟩
  | cons call calls ih =>
    obtain ⟨values, hvalues⟩ := ih
    cases call with
    | expect count range => exact ⟨values, (Initializer.replay_expect ..).trans hvalues⟩
    | _ =>
      refine ⟨c.value :: values, ?_⟩
      rw [replay]
      change (replay c calls >>= fun x => .ok (c.value :: x.1, x.2)) = _
      rw [hvalues]
      rfl

/-- The settings of a dense net with two external inputs. -/
def twoInputs : NetSettings :=
  { NetSettings.unset with inputSize := some 2, expectedRange := some 1.0 }

/-- A layer of two neurons and one of a single neuron are generated: their activations are drawn from
the stream of a seed, and their weight table has twelve places. -/
theorem dense_isLayered_twoInputs :
    ∃ net, Net.dense twoInputs [2, 1] (Constant.mk 0.5) (.ofSeed 3) = .ok (net, ⟨0.5⟩) ∧
      net.weights.toList = List.replicate 12 0.5 ∧
      net.IsLayered [2, 1] [[.identity, .elu], [.identity]] ∧ ∀ i j, net.Reads i j → j < i := by
  obtain ⟨fs, hfs, -, -, -, -, hok⟩ := dense_isLayered (s := twoInputs) rfl rfl
    (show [2, 1].getLast? = some 1 from rfl) (by simp [twoInputs, NetSettings.unset]) (by decide)
    (by simp [twoInputs, NetSettings.unset]) (by decide) (Constant.mk 0.5) (.ofSeed 3)
  obtain rfl : fs = [[.identity, .elu], [.identity]] := hfs.trans (by decide +kernel)
  obtain ⟨net, hnet, -, -, -, hvalues, hlayered⟩ := hok (List.replicate 12 0.5) ⟨0.5⟩ rfl
  exact ⟨net, hnet, hvalues, hlayered (by decide)⟩

/-- The settings of a dense net with one external input, whose only layer has rectifiers. -/
def rectified : NetSettings where
  inputSize := some 1
  outputNeurons := none
  expectedRange := some 1.0
  neurons := none
  weights := none
  choices := some #[#[.relu]]
  seed := some 3

/-- The neurons of a layer can be counted, but the list of them not be held: there is no such net,
although nothing is missing or empty. -/
theorem dense_cannot_be_held :
    rectified.inputSize = some 1 ∧ rectified.expectedRange = some 1.0 ∧
      0 ∉ [128102389400760776] ∧ Word.total [128102389400760776] < Word.limit ∧
      rectified.outputNeurons = none ∧ rectified.choices = some #[#[.relu]] ∧
      ∀ (initializer : Scaled) (stream : Random.Stream),
        Net.dense rectified [128102389400760776] initializer stream = stop .overflow :=
  ⟨rfl, rfl, by decide, by decide, rfl, rfl, fun initializer stream =>
    dense_eq_overflow rfl rfl rfl (by simp [rectified]) (by decide) (by simp [rectified]) (by decide)
      initializer stream⟩

end Dense

end NeuralPlan
