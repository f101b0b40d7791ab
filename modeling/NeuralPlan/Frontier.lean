import NeuralPlan.Net

/-!
# The frontier of a net

Solving a net goes through its neurons from the inputs on.  The *frontier* keeps for every
neuron how far it has come: it waits, with a count of the references to processed neurons, it
is reserved by a collection, or it is processed.  `Frontier.collect` (in
`NeuralPlan.Frontier.Collect`) reserves neurons that can be solved next; the caller then
confirms them one by one, front to back.

## Main definitions

* `Status`, `Frontier` — the state of one neuron and of all.
* `Frontier.ofNet` — every neuron waits.
* `Frontier.isSolvable`, `isReserved`, `isProcessed`, `isInProgress`, `finished` — queries.
* `Frontier.confirmProcessed`, `confirmOmitted`, `resetRemaining` — what a caller says about
  the collected neurons.  They answer with the frontier in either case, changed or not.
-/

set_option relaxedAutoImplicit false
set_option autoImplicit false

namespace NeuralPlan

/-! ## States -/

/-- How far a neuron has come. -/
inductive Status
  /-- The neuron waits; `satisfied` of its references to neurons are processed. -/
  | waiting (satisfied : Nat)
  /-- A collection, the one of number `iteration`, has reserved the neuron. -/
  | reserved (iteration satisfied : Nat)
  /-- The neuron is processed. -/
  | processed
deriving DecidableEq, Inhabited

namespace Status

/-- Whether a collection holds the neuron. -/
def isReserved : Status → Bool
  | reserved _ _ => true
  | _ => false

/-- Whether the collection of number `iteration` holds the neuron. -/
def isReservedIn (iteration : Nat) : Status → Bool
  | reserved number _ => number == iteration
  | _ => false

/-- The state after one more reference of the neuron is processed. -/
def satisfy : Status → Status
  | waiting satisfied => waiting (satisfied + 1)
  | reserved iteration satisfied => reserved iteration (satisfied + 1)
  | processed => processed

/-- The state after a collection takes the neuron, if it waits. -/
def reserve (iteration : Nat) : Status → Status
  | waiting satisfied => reserved iteration satisfied
  | s => s

/-- The state after a reservation is given back. -/
def release : Status → Status
  | reserved _ satisfied => waiting satisfied
  | s => s

end Status

/-- The state of all neurons of a net.  `reads` holds the neuron inputs of each neuron and
`readers` the neurons that read it, both with one entry per reference. -/
structure Frontier where
  net : Net
  reads : Array (List Nat)
  readers : Array (List Nat)
  status : Array Status
  /-- The number of the last collection. -/
  iteration : Nat
  /-- How many neurons are processed. -/
  processed : Nat
  /-- The collected neurons that wait for confirmation, in order. -/
  subset : List Nat

namespace Frontier

/-- The greatest number of neuron references that a neuron may have. -/
def maxReferences : Nat := 4294967295

/-- The number of the last collection before the numbers start over. -/
def maxIteration : Nat := 4294967293

/-- One more reference of the neuron `index`, which has read `reads` so far. -/
def addRead (net : Net) (index : Nat) (reads : Nat × List Nat) (ref : Int) :
    Result (Nat × List Nat) :=
  if Ref.isInput ref then return reads
  else do
    checkIndex .neuron ref.toNat net.neuronCount
    if maxReferences ≤ reads.1 then fail (.invalidState (.tooManyInputs index))
    return (reads.1 + 1, ref.toNat :: reads.2)

/-- The neuron inputs of the neuron `index`, each in range and not too many. -/
def readsOf (net : Net) (index : Nat) (n : Neuron) : Result (List Nat) := do
  let (_, reads) ← Runs.foldlM (addRead net index) (0, []) n.inputs.toList
  return reads.reverse

/-- One more neuron, `index`, that reads the inputs; it goes before those after it. -/
def addReader (index : Nat) (inputs : List Nat) (readers : Array (List Nat)) : Array (List Nat) :=
  inputs.foldl (fun readers input => readers.modify input (index :: ·)) readers

/-- For each of `count` neurons, the neurons that read it, in ascending order. -/
def readersOf (count : Nat) (reads : List (List Nat)) : Array (List Nat) :=
  reads.zipIdx.foldr (fun (inputs, index) readers => addReader index inputs readers)
    (Array.replicate count [])

/-- The frontier before anything is processed. -/
def ofNet (net : Net) : Result Frontier := do
  let reads ← net.neurons.toList.zipIdx.mapM fun (n, index) => readsOf net index n
  return {
    net
    reads := reads.toArray
    readers := readersOf net.neuronCount reads
    status := Array.replicate net.neuronCount (.waiting 0)
    iteration := 0
    processed := 0
    subset := [] }

/-! ## Queries -/

/-- The number of neurons. -/
def neuronCount (f : Frontier) : Nat := f.status.size

/-- Whether every neuron is processed. -/
def finished (f : Frontier) : Bool := f.processed == f.neuronCount

/-- The neuron inputs of a neuron, one entry per reference. -/
def readsAt (f : Frontier) (index : Nat) : List Nat := f.reads[index]?.getD []

/-- The state of the neuron `index`. -/
def statusAt (f : Frontier) (index : Nat) : Result Status :=
  if h : index < f.status.size then .ok f.status[index]
  else fail (.outOfRange .neuron index f.status.size)

/-- Whether the neuron is processed. -/
def isProcessed (f : Frontier) (index : Nat) : Result Bool := do
  return (← f.statusAt index) == .processed

/-- Whether a collection holds the neuron. -/
def isReserved (f : Frontier) (index : Nat) : Result Bool := do
  return (← f.statusAt index).isReserved

/-- Whether the neuron waits and all its neuron inputs are processed. -/
def isSolvable (f : Frontier) (index : Nat) : Result Bool := do
  return (← f.statusAt index) == .waiting (f.readsAt index).length

/-- Whether the last collection holds the neuron. -/
def isInProgress (f : Frontier) (index : Nat) : Result Bool := do
  return (← f.statusAt index).isReservedIn f.iteration

/-- The neuron inputs of the neuron `index`. -/
def inputsAt (f : Frontier) (index : Nat) : Result (List Nat) := do
  return (← f.net.neuron index).neuronInputs

/-- The number of collected neurons that wait for confirmation. -/
def subsetSize (f : Frontier) : Nat := f.subset.length

/-- The next neuron to confirm. -/
def first? (f : Frontier) : Option Nat := f.subset.head?

/-- The collected neuron at a place of the subset. -/
def subsetAt (f : Frontier) (place : Nat) : Result Nat :=
  match f.subset[place]? with
  | some index => .ok index
  | none => fail (.outOfRange .subset place f.subset.length)

/-! ## Confirmation -/

/-- The frontier without the first neuron of the subset, which has to be `index`. -/
def dropFirst (f : Frontier) (index : Nat) : Result Frontier := do
  checkIndex .neuron index f.neuronCount
  match f.subset with
  | first :: rest =>
    if first = index then return { f with subset := rest }
    else fail (.invalidState (.notFirst index (some first)))
  | [] => fail (.invalidState (.notFirst index none))

/-- The neuron `index` goes from reserved back to waiting, and keeps its count. -/
def release (f : Frontier) (index : Nat) : Result Frontier := do
  if (← f.statusAt index).isReserved then
    return { f with status := f.status.modify index .release }
  else fail (.invalidState (.notReserved index))

/-- The neuron `index` goes from reserved to processed, which satisfies one reference of a
neuron for every time that it reads `index`. -/
def process (f : Frontier) (index : Nat) : Result Frontier := do
  if (← f.statusAt index).isReserved then
    let readers := f.readers[index]?.getD []
    return { f with
      status := readers.foldl (fun status reader => status.modify reader .satisfy)
        (f.status.set! index .processed)
      processed := f.processed + 1 }
  else fail (.invalidState (.notReserved index))

/-- The outcome of a change that may fail after part of it is done. -/
def settle (before : Frontier) : Result Frontier → Frontier × Result Unit
  | .ok after => (after, .ok ())
  | .error e => (before, .error e)

/-- The first neuron of the subset is processed. -/
def confirmProcessed (f : Frontier) (index : Nat) : Frontier × Result Unit :=
  match f.dropFirst index with
  | .error e => (f, .error e)
  | .ok f => settle f (f.process index)

/-- The first neuron of the subset is left for a later collection. -/
def confirmOmitted (f : Frontier) (index : Nat) : Frontier × Result Unit :=
  match f.dropFirst index with
  | .error e => (f, .error e)
  | .ok f => settle f (f.release index)

/-- Releases neurons one by one, up to the first that is not reserved. -/
def releaseAll (f : Frontier) : List Nat → Frontier × Result Unit
  | [] => (f, .ok ())
  | index :: rest =>
    match f.release index with
    | .error e => (f, .error e)
    | .ok f => releaseAll f rest

/-- Every neuron that still waits in the subset is left for a later collection. -/
def resetRemaining (f : Frontier) : Frontier × Result Unit :=
  releaseAll { f with subset := [] } f.subset

end Frontier

end NeuralPlan
