import NeuralPlan.Frontier.Collect

/-!
# Frontiers in words

In memory the state of a neuron is one word of 64 bits, which workers and confirmations change in
one step each: the low half counts the satisfied references, and the high half is a *tag*, which is
0 while the neuron waits, 1 once it is processed, and the number of the collection that holds the
neuron, plus 2, while it is reserved.  A reference is satisfied by adding one to the whole word,
whatever its tag.

## Main definitions

* `StateWord.decode`, `StateWord.encode` — the state that a word stands for, and its word.
* `StateWord.reserve`, `StateWord.release`, `StateWord.satisfy` — the changes of one word.
* `PackedFrontier` — a frontier whose states are words; `PackedFrontier.view` reads them.
* `PackedFrontier.collectBy`, `confirmProcessed`, `confirmOmitted`, `resetRemaining` — what a caller
  may ask of it.
-/

set_option relaxedAutoImplicit false
set_option autoImplicit false

namespace NeuralPlan

/-! ## Words -/

namespace StateWord

/-- The bits of the count. -/
def countMask : UInt64 := 0xffffffff

/-- The tag of a neuron that waits. -/
def waitingTag : UInt64 := 0

/-- The tag of a processed neuron. -/
def processedTag : UInt64 := 1

/-- The tag of a reserved neuron, less the number of the collection. -/
def reservedTag : UInt64 := 2

/-- The count in a word. -/
def count (word : UInt64) : Nat := (word &&& countMask).toNat

/-- The tag in a word. -/
def tag (word : UInt64) : Nat := (word >>> 32).toNat

/-- The state that a tag and a count stand for.  The count of a processed neuron is not read. -/
def ofFields (tag count : Nat) : Status :=
  match tag with
  | 0 => .waiting count
  | 1 => .processed
  | iteration + 2 => .reserved iteration count

/-- The state that a word stands for. -/
def decode (word : UInt64) : Status := ofFields (tag word) (count word)

/-- The word of a state.  A processed neuron begins to count anew. -/
def encode : Status → UInt64
  | .waiting satisfied => waitingTag <<< 32 ||| UInt64.ofNat satisfied
  | .reserved iteration satisfied =>
    (UInt64.ofNat iteration + reservedTag) <<< 32 ||| UInt64.ofNat satisfied
  | .processed => processedTag <<< 32

/-- The word after the collection of number `iteration` takes the neuron, if it waits. -/
def reserve (iteration : Nat) (word : UInt64) : UInt64 :=
  match decode word with
  | .waiting satisfied => encode (.reserved iteration satisfied)
  | _ => word

/-- The word after a reservation is given back. -/
def release (word : UInt64) : UInt64 :=
  match decode word with
  | .reserved _ satisfied => encode (.waiting satisfied)
  | _ => word

/-- The word after one more reference of the neuron is processed.  The tag is not looked at. -/
def satisfy (word : UInt64) : UInt64 := word + 1

end StateWord

/-! ## Scans -/

/-- What the workers of a collection share, with the states as words. -/
structure PackedScan where
  words : Array UInt64
  cutoff : Option Nat

namespace PackedScan

/-- The states that are read from the words. -/
def view (s : PackedScan) : Scan := ⟨s.words.map StateWord.decode, s.cutoff⟩

/-- The neuron is reserved by the collection of number `iteration`. -/
def reserve (s : PackedScan) (iteration index : Nat) : PackedScan :=
  { s with words := s.words.modify index (StateWord.reserve iteration) }

/-- The neuron does not fit: it is given back and lowers the cutoff. -/
def reject (s : PackedScan) (index : Nat) : PackedScan where
  words := s.words.modify index StateWord.release
  cutoff := match s.cutoff with
    | none => some index
    | some cutoff => some (min cutoff index)

/-- One step of a worker: it looks at the next neuron of its scan. -/
def step (f : Frontier) (request : Request) (iteration : Nat) (s : PackedScan) (w : Worker) :
    PackedScan × Worker :=
  match w.pending with
  | [] => (s, w)
  | index :: rest =>
    if s.view.isBeyond index then (s, w.halt)
    else if f.isCandidate request.strict iteration s.view index then
      let reserved := s.reserve iteration index
      match f.costAt index with
      | .error _ => (reserved, { w.halt with failed := true })
      | .ok cost =>
        if w.bytes + cost ≤ request.budget then
          (reserved, { w with
            pending := rest, held := (index, cost) :: w.held, bytes := w.bytes + cost })
        else (reserved.reject index, w.halt)
    else (s, { w with pending := rest })

/-- A number of steps of one worker. -/
def steps (f : Frontier) (request : Request) (iteration : Nat) :
    Nat → PackedScan → Worker → PackedScan × Worker
  | 0, s, w => (s, w)
  | count + 1, s, w =>
    let (s, w) := step f request iteration s w
    steps f request iteration count s w

/-- The workers go on one after another, each until it has scanned all. -/
def finish (f : Frontier) (request : Request) (iteration : Nat) :
    PackedScan → List Worker → PackedScan × List Worker
  | s, [] => (s, [])
  | s, w :: ws =>
    let (s, w) := steps f request iteration w.pending.length s w
    let (s, ws) := finish f request iteration s ws
    (s, w :: ws)

/-- One step of the worker at a place, if there is one. -/
def stepAt (f : Frontier) (request : Request) (iteration : Nat) :
    PackedScan → List Worker → Nat → PackedScan × List Worker
  | s, [], _ => (s, [])
  | s, w :: ws, 0 =>
    let (s, w) := step f request iteration s w
    (s, w :: ws)
  | s, w :: ws, place + 1 =>
    let (s, ws) := stepAt f request iteration s ws place
    (s, w :: ws)

/-- The workers take the steps that the schedule lists, and then finish. -/
def run (f : Frontier) (request : Request) (iteration : Nat) :
    List Nat → PackedScan → List Worker → PackedScan × List Worker
  | [], s, ws => finish f request iteration s ws
  | place :: schedule, s, ws =>
    let (s, ws) := stepAt f request iteration s ws place
    run f request iteration schedule s ws

end PackedScan

/-! ## Frontiers -/

/-- A frontier whose states are words. -/
structure PackedFrontier where
  net : Net
  reads : Array (List Nat)
  readers : Array (List Nat)
  words : Array UInt64
  iteration : Nat
  processed : Nat
  subset : List Nat

namespace PackedFrontier

/-- The frontier that is read from the words. -/
def view (p : PackedFrontier) : Frontier where
  net := p.net
  reads := p.reads
  readers := p.readers
  status := p.words.map StateWord.decode
  iteration := p.iteration
  processed := p.processed
  subset := p.subset

/-- The frontier before anything is processed. -/
def ofNet (net : Net) : Result PackedFrontier := do
  let f ← Frontier.ofNet net
  return {
    net
    reads := f.reads
    readers := f.readers
    words := Array.replicate net.neuronCount (StateWord.encode (.waiting 0))
    iteration := 0
    processed := 0
    subset := [] }

/-! ### Confirmation -/

/-- The frontier without the first neuron of the subset, which has to be `index`. -/
def dropFirst (p : PackedFrontier) (index : Nat) : Result PackedFrontier := do
  let f ← p.view.dropFirst index
  return { p with subset := f.subset }

/-- The neuron `index` goes from reserved back to waiting, and keeps its count. -/
def release (p : PackedFrontier) (index : Nat) : Result PackedFrontier := do
  if (← p.view.statusAt index).isReserved then
    return { p with words := p.words.modify index StateWord.release }
  else fail (.invalidState (.notReserved index))

/-- The words after some neurons, listed once for each of their references to a processed one, count
these references. -/
def satisfyAll (words : Array UInt64) (readers : List Nat) : Array UInt64 :=
  readers.foldl (fun words reader => words.modify reader StateWord.satisfy) words

/-- The neuron `index` goes from reserved to processed, which satisfies one reference of a
neuron for every time that it reads `index`. -/
def process (p : PackedFrontier) (index : Nat) : Result PackedFrontier := do
  if (← p.view.statusAt index).isReserved then
    return { p with
      words := satisfyAll (p.words.set! index (StateWord.encode .processed))
        (p.readers[index]?.getD [])
      processed := p.processed + 1 }
  else fail (.invalidState (.notReserved index))

/-- The outcome of a change that may fail after part of it is done. -/
def settle (before : PackedFrontier) : Result PackedFrontier → PackedFrontier × Result Unit
  | .ok after => (after, .ok ())
  | .error e => (before, .error e)

/-- The first neuron of the subset is processed. -/
def confirmProcessed (p : PackedFrontier) (index : Nat) : PackedFrontier × Result Unit :=
  match p.dropFirst index with
  | .error e => (p, .error e)
  | .ok p => settle p (p.process index)

/-- The first neuron of the subset is left for a later collection. -/
def confirmOmitted (p : PackedFrontier) (index : Nat) : PackedFrontier × Result Unit :=
  match p.dropFirst index with
  | .error e => (p, .error e)
  | .ok p => settle p (p.release index)

/-- Releases neurons one by one, up to the first that is not reserved. -/
def releaseAll (p : PackedFrontier) : List Nat → PackedFrontier × Result Unit
  | [] => (p, .ok ())
  | index :: rest =>
    match p.release index with
    | .error e => (p, .error e)
    | .ok p => releaseAll p rest

/-- Every neuron that still waits in the subset is left for a later collection. -/
def resetRemaining (p : PackedFrontier) : PackedFrontier × Result Unit :=
  releaseAll { p with subset := [] } p.subset

/-! ### Collection -/

/-- The end of a collection, from what its workers leave: what does not belong to the subset
is released, and the subset is kept. -/
def conclude (p : PackedFrontier) (budget : Nat) (s : PackedScan) (ws : List Worker) :
    PackedFrontier × Result (List Nat) :=
  let p := { p with words := s.words }
  let failed := ws.any Worker.failed
  let entries := Frontier.gather ws
  let (kept, freed) :=
    if failed then ([], entries.map Prod.fst) else Frontier.split s.view budget 0 entries
  match p.releaseAll freed with
  | (p, .error e) => (p, .error e)
  | (p, .ok ()) =>
    if failed then (p, fail (.invalidState .workerFailed))
    else match kept, s.cutoff with
      | [], some cutoff =>
        match p.view.costAt cutoff with
        | .error e => (p, .error e)
        | .ok required => (p, fail (.exhausted required budget))
      | kept, _ => ({ p with subset := kept }, .ok kept)

/-- Collects neurons that can be solved next, with the workers' steps in the order of the
schedule. -/
def collectBy (p : PackedFrontier) (schedule : List Nat) (request : Request) :
    PackedFrontier × Result (List Nat) :=
  if p.subset.isEmpty then
    let iteration := p.view.nextIteration
    let count := p.view.neuronCount
    let stride := p.view.workerCount request.threads
    let workers := (List.range stride).map fun first => Worker.start count first stride
    let (s, workers) := PackedScan.run p.view request iteration schedule ⟨p.words, none⟩ workers
    conclude { p with iteration } request.budget s workers
  else (p, fail (.invalidState .subsetPending))

end PackedFrontier

end NeuralPlan
