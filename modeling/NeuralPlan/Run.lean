import NeuralPlan.Word

/-!
# Runs of references

A *reference* is a signed word: a reference from `0` up names a neuron, the reference
`-(k + 1)` names the external input `k`.  Sequences of references are held as *runs*: a start
and a size, walked upwards from a neuron and downwards from an input, so that consecutive
inputs are a run as well as consecutive neurons.

A run of `2^63` references or more is walked as an empty one, while its size counts in full.

## Main definitions

* `Ref.isInput`, `Ref.input`, `Ref.ofInput`, `Ref.toInput` — the two halves of the references.
* `Run`, `Run.indices`, `Run.next` — one run, what it walks over, and what would continue it.
* `Runs.indices` — the sequence that a list of runs stands for.
* `Runs.foldlM`, `Runs.allM`, `Runs.zipFoldlM`, `Runs.take` — walks, which fault at the first
  reference beyond a word that they come to, and look no further than they need.
* `Runs.append` — one more reference at the end, in the fewest runs.
-/

set_option relaxedAutoImplicit false
set_option autoImplicit false

namespace NeuralPlan

/-! ## References -/

namespace Ref

/-- Whether a reference names an external input. -/
def isInput (ref : Int) : Bool := decide (ref < 0)

/-- The reference to the input `k`. -/
def input (k : Nat) : Int := -(k : Int) - 1

/-- The reference to the input `k`, computed in signed words. -/
def ofInput (k : Nat) : Result Int := do
  let negated ← Word.signed (-Word.toSigned k)
  Word.signed (negated - 1)

/-- The input that a reference below zero names. -/
def toInput (ref : Int) : Result Nat :=
  if isInput ref then .ok (-(ref + 1)).toNat else stop .notAnInput

theorem isInput_input (k : Nat) : isInput (input k) = true := by
  unfold isInput input; exact decide_eq_true (by omega)

theorem toInput_input (k : Nat) : toInput (input k) = .ok k := by
  unfold toInput; rw [isInput_input]; simp [input]

/-- On every input that a signed word counts, the word arithmetic gives the reference. -/
theorem ofInput_eq_input {k : Nat} (h : k < Word.signedLimit) : ofInput k = .ok (input k) := by
  have lim : Word.signedLimit = 9223372036854775808 := rfl
  unfold ofInput
  rw [Word.toSigned_of_lt h, Word.signed_eq_ok (by omega) (by omega)]
  exact Word.signed_eq_ok (by omega) (by omega)

end Ref

/-! ## One run -/

/-- Consecutive references, beginning with `start`. -/
structure Run where
  start : Int
  size : Nat
deriving DecidableEq, Inhabited

namespace Run

/-- The run of `size` inputs from `first` on. -/
def inputs (first size : Nat) : Result Run := do
  return ⟨← Ref.ofInput first, size⟩

/-- The run of `size` neurons from `first` on. -/
def neurons (first size : Nat) : Run := ⟨Word.toSigned first, size⟩

/-- Whether the run is over external inputs. -/
def isInput (r : Run) : Bool := Ref.isInput r.start

/-- The way from one reference of the run to the next. -/
def step (r : Run) : Int := if r.isInput then -1 else 1

/-- The number of references that a walk over the run comes to. -/
def length (r : Run) : Nat := if r.size < Word.signedLimit then r.size else 0

/-- The references of the run. -/
def indices (r : Run) : List Int :=
  (List.range r.length).map fun (k : Nat) => r.start + r.step * k

/-- The reference that would continue the run. -/
def next (r : Run) : Result Int := Word.signed (r.start + r.step * Word.toSigned r.size)

/-- Folds over `count` references from `ref` on. -/
def walk {β : Type} (f : β → Int → Result β) (step : Int) : Nat → Int → β → Result β
  | 0, _, b => .ok b
  | count + 1, ref, b => do
    let ref ← Word.signed ref
    let b ← f b ref
    walk f step count (ref + step) b

/-- Whether `p` holds of `count` references from `ref` on. -/
def walkAll (p : Int → Bool) (step : Int) : Nat → Int → Result Bool
  | 0, _ => .ok true
  | count + 1, ref => do
    let ref ← Word.signed ref
    if p ref then walkAll p step count (ref + step) else return false

end Run

/-! ## Sequences of runs -/

namespace Runs

/-- The references that the runs stand for, one after another. -/
def indices (rs : List Run) : List Int := rs.flatMap Run.indices

/-- The number of references that a walk over the runs comes to. -/
def length (rs : List Run) : Nat := Word.total (rs.map Run.length)

/-- The sum of the sizes. -/
def size (rs : List Run) : Result Nat := Word.unsigned (Word.total (rs.map Run.size))

/-- Folds over the references in order. -/
def foldlM {β : Type} (f : β → Int → Result β) : β → List Run → Result β
  | b, [] => .ok b
  | b, r :: rs => do
    let b ← Run.walk f r.step r.length r.start b
    foldlM f b rs

/-- Whether `p` holds of every reference; the walk ends at the first of which it does not. -/
def allM (p : Int → Bool) : List Run → Result Bool
  | [] => .ok true
  | r :: rs => do
    if ← Run.walkAll p r.step r.length r.start then allM p rs else return false

/-- The first reference, and the runs that hold the rest. -/
def next? : List Run → Result (Option (Int × List Run))
  | [] => .ok none
  | r :: rs =>
    if r.length = 0 then next? rs else do
      let ref ← Word.signed r.start
      return some (ref, ⟨r.start + r.step, r.length - 1⟩ :: rs)

/-- The first `count` references of which `p` holds, among the next `steps`. -/
def takeFrom (p : Int → Bool) : Nat → Nat → List Run → Result (List Int)
  | 0, _, _ => .ok []
  | _, 0, _ => .ok []
  | steps + 1, count + 1, rs => do
    match ← next? rs with
    | none => return []
    | some (ref, rest) =>
      if p ref then return ref :: (← takeFrom p steps count rest)
      else takeFrom p steps (count + 1) rest

/-- The first `count` references of which `p` holds, or all if there are fewer. -/
def takeWhere (p : Int → Bool) (count : Nat) (rs : List Run) : Result (List Int) :=
  takeFrom p (length rs) count rs

/-- The first `count` references, or all if there are fewer. -/
def take (count : Nat) (rs : List Run) : Result (List Int) := takeWhere (fun _ => true) count rs

/-- Folds over the first `count` pairs of references. -/
def zipWalk {β : Type} (f : β → Int → Int → Result β) : Nat → List Run → List Run → β → Result β
  | 0, _, _, b => .ok b
  | count + 1, xs, ys, b => do
    match ← next? xs with
    | none => return b
    | some (x, xs) =>
      match ← next? ys with
      | none => return b
      | some (y, ys) => zipWalk f count xs ys (← f b x y)

/-- Folds over two sequences side by side, as far as the shorter goes. -/
def zipFoldlM {β : Type} (f : β → Int → Int → Result β) (b : β) (xs ys : List Run) : Result β :=
  zipWalk f (length xs) xs ys b

/-- One more reference at the end: it extends the last run if it continues it, and opens a run
of its own otherwise. -/
def append (rs : Array Run) (ref : Int) : Result (Array Run) :=
  match rs.back? with
  | none => .ok (rs.push ⟨ref, 1⟩)
  | some last =>
    if last.size = 0 then .ok (rs.push ⟨ref, 1⟩) else do
      if (← last.next) = ref then
        let size ← Word.unsigned (last.size + 1)
        return rs.pop.push ⟨last.start, size⟩
      else
        return rs.push ⟨ref, 1⟩

end Runs

end NeuralPlan
