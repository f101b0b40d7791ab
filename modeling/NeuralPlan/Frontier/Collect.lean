import NeuralPlan.Frontier

/-!
# Collecting the neurons to solve next

A collection sends a number of workers over the neurons; worker `w` of `t` scans the neurons
`w`, `w + t`, `w + 2t`, ….  A worker reserves the candidates that it comes to, as long as its
own holdings stay within the budget; the first candidate that does not fit it gives back, and
lowers a *cutoff* above which no worker goes on.  Of all that the workers hold, the longest
prefix in ascending order that lies below the cutoff and within the budget is collected, and
the rest is released.

Workers share the states of the neurons and the cutoff, and may take their steps in any order:
a *schedule* lists which worker goes next.  `Frontier.collect` uses the schedule in which one
worker goes after another; `Frontier.collectBy` takes any.

Costs are added up as natural numbers.  A worker asks whether its sum is within the budget, which
is a word; the costs of all that is handed over, and of what is split from it, are added up without
such a check.  A word holds these sums, unless the net has at least `2 * 10 ^ 17` neurons and
references taken together, each of which a frontier goes through when it starts.  What a greater sum
would stop is not described.

## Main definitions

* `Scan`, `Worker`, `Worker.step` — what workers share, what each holds, and one step.
* `Scan.run` — all workers, by a schedule.
* `Frontier.isCandidate` — whether a collection may reserve a neuron.
* `Frontier.collectBy`, `Frontier.collect` — the collection.
-/

set_option relaxedAutoImplicit false
set_option autoImplicit false

namespace NeuralPlan

/-- What a collection is asked for.  A strict one takes only neurons whose neuron inputs are
all processed, another one also those whose other inputs it has reserved itself. -/
structure Request where
  threads : Nat
  budget : Nat
  strict : Bool

/-- What the workers of a collection share. -/
structure Scan where
  status : Array Status
  /-- The lowest candidate that did not fit. -/
  cutoff : Option Nat

/-- One worker: the neurons it has still to scan, those it holds with their costs, and the sum
of these costs. -/
structure Worker where
  pending : List Nat
  held : List (Nat × Nat)
  bytes : Nat
  /-- The worker stopped with a fault, and with it what it holds is lost to the collection. -/
  failed : Bool

namespace Scan

/-- Whether the neuron lies above the cutoff. -/
def isBeyond (s : Scan) (index : Nat) : Bool :=
  match s.cutoff with
  | none => false
  | some cutoff => decide (cutoff < index)

/-- The state of a neuron. -/
def statusAt (s : Scan) (index : Nat) : Status := s.status[index]?.getD .processed

/-- The neuron is reserved by the collection of number `iteration`. -/
def reserve (s : Scan) (iteration index : Nat) : Scan :=
  { s with status := s.status.modify index (.reserve iteration) }

/-- The neuron does not fit: it is given back and lowers the cutoff. -/
def reject (s : Scan) (index : Nat) : Scan where
  status := s.status.modify index .release
  cutoff := match s.cutoff with
    | none => some index
    | some cutoff => some (min cutoff index)

end Scan

namespace Frontier

/-- Whether the collection of number `iteration` may reserve the neuron `index`. -/
def isCandidate (f : Frontier) (strict : Bool) (iteration : Nat) (s : Scan) (index : Nat) : Bool :=
  match s.statusAt index with
  | .waiting satisfied =>
    satisfied == (f.readsAt index).length ||
      (!strict && (f.readsAt index).all fun input =>
        s.statusAt input == .processed || (s.statusAt input).isReservedIn iteration)
  | _ => false

/-- The cost of a neuron. -/
def costAt (f : Frontier) (index : Nat) : Result Nat := do
  (← f.net.neuron index).cost

end Frontier

namespace Worker

/-- The worker `first` of `stride`, before its first step. -/
def start (count first stride : Nat) : Worker where
  pending := List.range' first ((count - first + stride - 1) / stride) stride
  held := []
  bytes := 0
  failed := false

/-- The worker after its last step. -/
def halt (w : Worker) : Worker := { w with pending := [] }

/-- What the worker hands over.  It is assumed that a word holds the costs of what all workers hand
over. -/
def handover (w : Worker) : List (Nat × Nat) := if w.failed then [] else w.held

/-- One step: the worker looks at the next neuron of its scan. -/
def step (f : Frontier) (request : Request) (iteration : Nat) (s : Scan) (w : Worker) :
    Scan × Worker :=
  match w.pending with
  | [] => (s, w)
  | index :: rest =>
    if s.isBeyond index then (s, w.halt)
    else if f.isCandidate request.strict iteration s index then
      let reserved := s.reserve iteration index
      match f.costAt index with
      | .error _ => (reserved, { w.halt with failed := true })
      | .ok cost =>
        if w.bytes + cost ≤ request.budget then
          (reserved, { w with
            pending := rest, held := (index, cost) :: w.held, bytes := w.bytes + cost })
        else (reserved.reject index, w.halt)
    else (s, { w with pending := rest })

/-- A number of steps of one worker. -/
def steps (f : Frontier) (request : Request) (iteration : Nat) : Nat → Scan → Worker → Scan × Worker
  | 0, s, w => (s, w)
  | count + 1, s, w =>
    let (s, w) := step f request iteration s w
    steps f request iteration count s w

end Worker

namespace Scan

/-- The workers go on one after another, each until it has scanned all. -/
def finish (f : Frontier) (request : Request) (iteration : Nat) :
    Scan → List Worker → Scan × List Worker
  | s, [] => (s, [])
  | s, w :: ws =>
    let (s, w) := Worker.steps f request iteration w.pending.length s w
    let (s, ws) := finish f request iteration s ws
    (s, w :: ws)

/-- One step of the worker at a place, if there is one. -/
def stepAt (f : Frontier) (request : Request) (iteration : Nat) :
    Scan → List Worker → Nat → Scan × List Worker
  | s, [], _ => (s, [])
  | s, w :: ws, 0 =>
    let (s, w) := Worker.step f request iteration s w
    (s, w :: ws)
  | s, w :: ws, place + 1 =>
    let (s, ws) := stepAt f request iteration s ws place
    (s, w :: ws)

/-- The workers take the steps that the schedule lists, and then finish. -/
def run (f : Frontier) (request : Request) (iteration : Nat) :
    List Nat → Scan → List Worker → Scan × List Worker
  | [], s, ws => finish f request iteration s ws
  | place :: schedule, s, ws =>
    let (s, ws) := stepAt f request iteration s ws place
    run f request iteration schedule s ws

end Scan

namespace Frontier

/-- The number of the next collection. -/
def nextIteration (f : Frontier) : Nat :=
  if f.iteration = maxIteration then 1 else f.iteration + 1

/-- Splits the held neurons, in ascending order, into the longest prefix below the cutoff and
within the budget, and the rest.  The cost of the prefix and the next neuron is added up as a natural
number, and it is assumed that a word holds it. -/
def split (s : Scan) (budget : Nat) : Nat → List (Nat × Nat) → List Nat × List Nat
  | _, [] => ([], [])
  | used, (index, cost) :: rest =>
    let below := match s.cutoff with
      | none => true
      | some cutoff => decide (index < cutoff)
    if below && decide (used + cost ≤ budget) then
      let (kept, freed) := split s budget (used + cost) rest
      (index :: kept, freed)
    else ([], index :: rest.map Prod.fst)

/-- What the workers leave, in ascending order. -/
def gather (ws : List Worker) : List (Nat × Nat) :=
  (ws.flatMap Worker.handover).mergeSort fun a b => decide (a.1 ≤ b.1)

/-- The end of a collection, from what its workers leave: what does not belong to the subset
is released, and the subset is kept.  It is assumed that a word holds the costs of all entries. -/
def conclude (f : Frontier) (budget : Nat) (s : Scan) (ws : List Worker) :
    Frontier × Result (List Nat) :=
  let f := { f with status := s.status }
  let failed := ws.any Worker.failed
  let entries := gather ws
  let (kept, freed) := if failed then ([], entries.map Prod.fst) else split s budget 0 entries
  match f.releaseAll freed with
  | (f, .error e) => (f, .error e)
  | (f, .ok ()) =>
    if failed then (f, fail (.invalidState .workerFailed))
    else match kept, s.cutoff with
      | [], some cutoff =>
        match f.costAt cutoff with
        | .error e => (f, .error e)
        | .ok required => (f, fail (.exhausted required budget))
      | kept, _ => ({ f with subset := kept }, .ok kept)

/-- How many workers a collection sends out. -/
def workerCount (f : Frontier) (threads : Nat) : Nat := max 1 (min threads (max f.neuronCount 1))

/-- Collects neurons that can be solved next, with the workers' steps in the order of the
schedule.  A collection that is refused, for the last one is not confirmed, leaves the frontier
as it is; every other takes a number. -/
def collectBy (f : Frontier) (schedule : List Nat) (request : Request) :
    Frontier × Result (List Nat) :=
  if f.subset.isEmpty then
    let iteration := f.nextIteration
    let stride := f.workerCount request.threads
    let workers := (List.range stride).map fun first => Worker.start f.neuronCount first stride
    let (s, workers) := Scan.run f request iteration schedule ⟨f.status, none⟩ workers
    conclude { f with iteration } request.budget s workers
  else (f, fail (.invalidState .subsetPending))

/-- Collects neurons that can be solved next, one worker after another. -/
def collect (f : Frontier) (request : Request) : Frontier × Result (List Nat) :=
  f.collectBy [] request

end Frontier

end NeuralPlan
