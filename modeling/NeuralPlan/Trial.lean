import NeuralPlan.Net.Dense
import NeuralPlan.Plan.Compile
import NeuralPlan.Plan.Run
import NeuralPlan.Json.Encode
import NeuralPlan.Trial.Options

/-!
# Trials

A trial generates a dense net, compiles it, and runs the plan a number of times on random
inputs.

## Main definitions

* `Trial.Stage` — where a trial may fail.
* `Trial.Prepared`, `Trial.prepare` — the net and its plan.
* `Trial.Progress`, `Trial.step` — one run after another.
* `Trial.run` — the whole trial.
* `Trial.Summary` — what is told of a trial.
-/

set_option relaxedAutoImplicit false
set_option autoImplicit false

namespace NeuralPlan.Trial

/-- The stages of a trial. -/
inductive Stage
  | net
  | plan
  | solver
  | run (number : Nat)

/-- What is being done at a stage. -/
def Stage.label : Stage → String
  | net => "building the dense net"
  | plan => "compiling the solution"
  | solver => "creating the solver"
  | run number => s!"solving run {number}"

/-- A stage that failed, and why. -/
structure Stopped where
  stage : Stage
  failure : Failure

/-- The report of a failure: what was being done, and why it failed. -/
def reportText (doing cause : String) : String :=
  "Error: " ++ doing ++ "\n\nCaused by:\n    " ++ cause

/-- The report of a failed trial. -/
def report (stage : Stage) (e : Error) : String := reportText stage.label e.message

/-- A result whose failure belongs to a stage. -/
def during {α : Type} (stage : Stage) : Result α → Except Stopped α
  | .ok a => .ok a
  | .error failure => .error ⟨stage, failure⟩

/-- The net of a trial, its plan, and the resources to run it with. -/
structure Prepared where
  net : Net
  plan : Plan
  resources : Resources

/-- The resources of a trial: what the options set, or else the default. -/
def resourcesOf (o : Options) (default : Resources) : Resources :=
  ⟨o.threads.getD default.threads, o.megabytes.getD default.megabytes⟩

/-- The net of a trial. -/
def netOf (o : Options) : Result Net :=
  let settings := { NetSettings.unset with
    inputSize := some o.inputSize
    expectedRange := some Activation.identity.range
    seed := some o.seed }
  Net.denseOfSeed settings o.layers o.seed

/-- Generates and compiles the net of a trial. -/
def prepare (o : Options) (default : Resources) : Except Stopped Prepared := do
  let resources := resourcesOf o default
  let net ← during .net (netOf o)
  let plan ← during .plan (Plan.compile ⟨some resources.threads, some resources.bytes⟩ net)
  during .solver resources.validate
  return { net, plan, resources }

/-- How far a trial has come: the number of runs, the stream of inputs, the values of the
neurons and the last output. -/
structure Progress where
  runs : Nat
  stream : Random.Stream
  values : Array Float
  output : Array Float

/-- A trial before its first run. -/
def start (o : Options) (p : Prepared) : Except Stopped Progress := do
  let values ← during .solver (Values.zeros p.plan.neuronCount)
  return { runs := 0, stream := .ofSeed o.seed, values, output := #[] }

/-- A number of inputs from `-1` to `1`. -/
def drawInputs : Nat → Array Float → Random.Stream → Result (Array Float × Random.Stream)
  | 0, inputs, stream => .ok (inputs, stream)
  | count + 1, inputs, stream => do
    let (x, stream) ← Random.between (-1.0) 1.0 stream
    drawInputs count (inputs.push x) stream

/-- One more run. -/
def step (o : Options) (p : Prepared) (progress : Progress) : Except Stopped Progress := do
  let stage := Stage.run progress.runs
  let (inputs, stream) ← during stage (drawInputs o.inputSize #[] progress.stream)
  let (values, answer) := p.plan.run inputs progress.values
  let output ← during stage answer
  return { runs := progress.runs + 1, stream, values, output }

/-- A number of runs. -/
def steps (o : Options) (p : Prepared) : Nat → Progress → Except Stopped Progress
  | 0, progress => .ok progress
  | count + 1, progress => do steps o p count (← step o p progress)

/-- What is told of a trial. -/
structure Summary where
  neurons : Nat
  weights : Nat
  cols : Array Nat
  planBytes : Nat
  runs : Nat
  output : Array Float

/-- What is told of a trial that has come so far. -/
def summarise (p : Prepared) (progress : Progress) : Summary where
  neurons := p.net.neuronCount
  weights := p.net.weights.size
  cols := p.plan.cols
  planBytes := p.plan.sizeBytes
  runs := progress.runs
  output := progress.output

/-- The whole trial. -/
def run (o : Options) (default : Resources) : Except Stopped Summary := do
  let p ← prepare o default
  let progress ← steps o p o.runs (← start o p)
  return summarise p progress

/-! ## The summary as JSON -/

/-- An array with one item on each line, within an object. -/
def listText (items : List String) : String :=
  if items.isEmpty then "[]" else "[\n    " ++ ",\n    ".intercalate items ++ "\n  ]"

/-- The summary as an object with one field on each line, and with the milliseconds that the
compilation and the runs took. -/
def Summary.toJson (s : Summary) (compileMs : Float) (runMs : Array Float) : String :=
  let fields := [("neurons", Encode.count s.neurons), ("weights", Encode.count s.weights),
    ("rows", Encode.count s.cols.size), ("cols", listText (s.cols.toList.map Encode.count)),
    ("solution_bytes", Encode.count s.planBytes), ("build_ms", Encode.float compileMs),
    ("solve_ms", listText (runMs.toList.map Encode.float)),
    ("output", listText (s.output.toList.map Encode.float))]
  let lines := fields.map fun (name, value) => "  " ++ Encode.quoted name ++ ": " ++ value
  "\x7b\n" ++ ",\n".intercalate lines ++ "\n\x7d"

end NeuralPlan.Trial
