import NeuralPlan.Json.Value
import NeuralPlan.Plan
import NeuralPlan.Resources

/-!
# Reading nets and plans from JSON

A record is written as an object with its fields by name, in any order and with others between
them, or as the array of its fields in order.

## Main definitions

* `Json.fields?`, `Json.optionalFields?` — the fields of a record.
* `Run.ofJson?`, `Neuron.ofJson?`, `Net.ofJson?`, `Cell.ofJson?`, `Plan.ofJson?`,
  `Resources.ofJson?` — the values of the domain.
-/

set_option relaxedAutoImplicit false
set_option autoImplicit false

namespace NeuralPlan

namespace Json

/-! ## Basic values -/

/-- A count that an unsigned word holds. -/
def toCount? : Json → Option Nat
  | number d true => if !d.negative && d.digits < Word.limit then some d.digits else none
  | _ => none

/-- An integer that a signed word holds. -/
def toSigned? : Json → Option Int
  | number d true =>
    let i : Int := if d.negative then -d.digits else d.digits
    if -(Word.signedLimit : Int) ≤ i && i < Word.signedLimit then some i else none
  | _ => none

/-- A number whose nearest double is finite. -/
def toFloat? : Json → Option Float
  | number d _ => if d.toFloat.isFinite then some d.toFloat else none
  | _ => none

/-- An array of values of one kind. -/
def toArray? {α : Type} (item? : Json → Option α) : Json → Option (Array α)
  | array items => (items.mapM item?).map List.toArray
  | _ => none

/-! ## Records -/

/-- The members of an object, each under the name of its field.  Names without a field are left
out; a name that is no text, or stands twice, is refused. -/
def membersOf? (names : List String) : List (Option String × Json) → Option (List (String × Json))
  | [] => some []
  | (none, _) :: _ => none
  | (some name, value) :: rest => do
    let members ← membersOf? names rest
    if names.contains name then
      if members.any (·.1 == name) then none else return (name, value) :: members
    else return members

/-- The fields of a record that need not be complete. -/
def optionalFields? (names : List String) : Json → Option (List (Option Json))
  | object members => do
    let members ← membersOf? names members
    return names.map fun name => members.lookup name
  | array items =>
    if items.length ≤ names.length then
      some (items.map some ++ List.replicate (names.length - items.length) none)
    else none
  | _ => none

/-- The fields of a record. -/
def fields? (names : List String) (value : Json) : Option (List Json) := do
  (← optionalFields? names value).mapM id

end Json

/-! ## Domain values -/

/-- A run. -/
def Run.ofJson? (value : Json) : Option Run := do
  match ← value.fields? ["starts", "interval_size"] with
  | [start, size] => return ⟨← start.toSigned?, ← size.toCount?⟩
  | _ => none

/-- An activation: its name, or an object with its name over `null`. -/
def Activation.ofJson? : Json → Option Activation
  | .string (some name) => ofLabel? name
  | .object [(some name, .null)] => ofLabel? name
  | _ => none

/-- A neuron. -/
def Neuron.ofJson? (value : Json) : Option Neuron := do
  match ← value.fields? ["transfer_function", "bias_idx", "memory_filter_idx", "input_indices",
      "input_weights"] with
  | [activation, bias, memoryFilter, inputs, weights] => return {
      activation := ← Activation.ofJson? activation
      bias := ← bias.toCount?
      memoryFilter := ← memoryFilter.toCount?
      inputs := ← inputs.toArray? Run.ofJson?
      weights := ← weights.toArray? Run.ofJson? }
  | _ => none

/-- A net. -/
def Net.ofJson? (value : Json) : Option Net := do
  match ← value.fields? ["input_data_size", "output_neuron_number", "expected_input_range",
      "neuron_array", "weight_table"] with
  | [inputSize, outputNeurons, expectedRange, neurons, weights] => return {
      inputSize := ← inputSize.toCount?
      outputNeurons := ← outputNeurons.toCount?
      expectedRange := ← expectedRange.toFloat?
      neurons := ← neurons.toArray? Neuron.ofJson?
      weights := ← weights.toArray? Json.toFloat? }
  | _ => none

/-- A cell. -/
def Cell.ofJson? (value : Json) : Option Cell := do
  match ← value.fields? ["output_data", "input_data", "neuron_transfer_functions", "weight_table",
      "weight_indices", "weight_synapse_number", "bias_index", "memory_filter_index",
      "inside_indices", "index_synapse_number"] with
  | [outputs, slots, activations, weights, weightRuns, weightRunCounts, biases, memoryFilters,
      sourceRuns, sourceRunCounts] => return {
      outputs := ← outputs.toArray? Run.ofJson?
      slots := ← slots.toArray? Run.ofJson?
      activations := ← activations.toArray? Activation.ofJson?
      weights := ← weights.toArray? Json.toFloat?
      weightRuns := ← weightRuns.toArray? Run.ofJson?
      weightRunCounts := ← weightRunCounts.toArray? Json.toCount?
      biases := ← biases.toArray? Json.toCount?
      memoryFilters := ← memoryFilters.toArray? Json.toCount?
      sourceRuns := ← sourceRuns.toArray? Run.ofJson?
      sourceRunCounts := ← sourceRunCounts.toArray? Json.toCount? }
  | _ => none

/-- A plan. -/
def Plan.ofJson? (value : Json) : Option Plan := do
  match ← value.fields? ["partial_solutions", "cols", "neuron_number", "output_neuron_number",
      "input_data_size"] with
  | [cells, cols, neuronCount, outputNeurons, inputSize] => return {
      cells := ← cells.toArray? Cell.ofJson?
      cols := ← cols.toArray? Json.toCount?
      neuronCount := ← neuronCount.toCount?
      outputNeurons := ← outputNeurons.toCount?
      inputSize := ← inputSize.toCount? }
  | _ => none

/-- A field that has a default where it is left out. -/
def Json.orDefault {α : Type} (read? : Json → Option α) (default : α) : Option Json → Option α
  | none => some default
  | some value => read? value

/-- Resources, of which each has a default. -/
def Resources.ofJson? (default : Resources) (value : Json) : Option Resources := do
  match ← value.optionalFields? ["max_solve_threads", "device_max_megabytes"] with
  | [threads, megabytes] => return {
      threads := ← Json.orDefault Json.toCount? default.threads threads
      megabytes := ← Json.orDefault Json.toFloat? default.megabytes megabytes }
  | _ => none

end NeuralPlan
