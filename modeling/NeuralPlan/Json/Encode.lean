import NeuralPlan.Plan
import NeuralPlan.Resources

/-!
# Writing nets and plans as JSON

The text is compact, and has the fields of each record in a fixed order.

## Main definitions

* `Encode.record`, `Encode.array`, `Encode.float` — the pieces.
* `Run.toJson`, `Activation.toJson`, `Neuron.toJson`, `Net.toJson`, `Cell.toJson`,
  `Plan.toJson`, `Resources.toJson` — the texts of the values of the domain.
-/

set_option relaxedAutoImplicit false
set_option autoImplicit false

namespace NeuralPlan

namespace Encode

/-- A text in quotes.  The texts that are written have nothing to escape. -/
def quoted (text : String) : String := "\"" ++ text ++ "\""

/-- An array of items that are written already. -/
def list (items : List String) : String := "[" ++ ",".intercalate items ++ "]"

/-- An array. -/
def array {α : Type} (item : α → String) (items : Array α) : String := list (items.toList.map item)

/-- An object with fields that are written already. -/
def record (fields : List (String × String)) : String :=
  "\x7b" ++ ",".intercalate (fields.map fun (name, value) => quoted name ++ ":" ++ value) ++ "\x7d"

/-- A double as the shortest decimal; there is none for infinities and NaNs. -/
def float (x : Float) : String := if x.isFinite then (Decimal.shortest x).text else "null"

/-- A count. -/
def count (n : Nat) : String := toString n

end Encode

open Encode

/-- A run. -/
def Run.toJson (r : Run) : String :=
  record [("starts", toString r.start), ("interval_size", count r.size)]

/-- An activation. -/
def Activation.toJson (f : Activation) : String := quoted f.label

/-- A neuron. -/
def Neuron.toJson (n : Neuron) : String :=
  record [("transfer_function", n.activation.toJson), ("bias_idx", count n.bias),
    ("memory_filter_idx", count n.memoryFilter), ("input_indices", array Run.toJson n.inputs),
    ("input_weights", array Run.toJson n.weights)]

/-- A net. -/
def Net.toJson (net : Net) : String :=
  record [("input_data_size", count net.inputSize),
    ("output_neuron_number", count net.outputNeurons),
    ("expected_input_range", float net.expectedRange),
    ("neuron_array", array Neuron.toJson net.neurons), ("weight_table", array float net.weights)]

/-- A cell. -/
def Cell.toJson (c : Cell) : String :=
  record [("output_data", array Run.toJson c.outputs), ("input_data", array Run.toJson c.slots),
    ("neuron_transfer_functions", array Activation.toJson c.activations),
    ("weight_table", array float c.weights),
    ("weight_indices", array Run.toJson c.weightRuns),
    ("weight_synapse_number", array count c.weightRunCounts),
    ("bias_index", array count c.biases), ("memory_filter_index", array count c.memoryFilters),
    ("inside_indices", array Run.toJson c.sourceRuns),
    ("index_synapse_number", array count c.sourceRunCounts)]

/-- A plan. -/
def Plan.toJson (p : Plan) : String :=
  record [("partial_solutions", array Cell.toJson p.cells), ("cols", array count p.cols),
    ("neuron_number", count p.neuronCount), ("output_neuron_number", count p.outputNeurons),
    ("input_data_size", count p.inputSize)]

/-- Resources. -/
def Resources.toJson (r : Resources) : String :=
  record [("max_solve_threads", count r.threads), ("device_max_megabytes", float r.megabytes)]

end NeuralPlan
