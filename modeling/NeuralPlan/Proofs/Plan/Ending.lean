import NeuralPlan.Frontier
import NeuralPlan.Proofs.Draft.Checks

/-!
# Operations that end

Only the loop over the rows of a plan may find that it would never end.  The operations that it is
made of may fail in many ways, but not in this one.

## Main definitions

* `Result.Ends` — an answer other than that rows would be made without end.

## Main results

* `Frontier.ends_ofNet` — the first frontier of a net.
* `Draft.ends_add` — a neuron taken into a cell.
-/

set_option relaxedAutoImplicit false
set_option autoImplicit false

namespace NeuralPlan

/-! ## Chains and walks -/

namespace Result

variable {α β : Type}

/-- The answer is not that rows would be made without end. -/
def Ends (x : Result α) : Prop := x ≠ stop .endless

/-- An answer ends if it fails in another way. -/
theorem ends_iff_failsIn {x : Result α} : Ends x ↔ FailsIn (· ≠ .fault .endless) x := by
  constructor
  · rintro h _ hx rfl
    exact h hx
  · exact fun h hx => h _ hx rfl

/-- A success ends. -/
@[simp] theorem ends_ok (a : α) : Ends (.ok a) := nofun

/-- A value by itself ends. -/
@[simp] theorem ends_pure (a : α) : Ends (pure a) := nofun

/-- A report ends. -/
@[simp] theorem ends_fail (e : Error) : Ends (fail e : Result α) := nofun

/-- A chain ends if its parts do. -/
theorem Ends.bind {x : Result α} {f : α → Result β} (hx : Ends x) (hf : ∀ a, Ends (f a)) :
    Ends (x >>= f) := by
  simp only [ends_iff_failsIn] at hx hf ⊢
  exact hx.bind hf

/-- A failure that is handed on ends if it did. -/
theorem Ends.error {x : Result α} {e : Failure} (hx : Ends x) (h : x = .error e) :
    Ends (.error e : Result β) := by
  subst h
  intro he
  exact hx (congrArg Except.error (Except.error.inj he))

/-- An operation on every element of a list ends if it does on each. -/
theorem ends_mapM {f : α → Result β} (hf : ∀ a, Ends (f a)) (l : List α) : Ends (l.mapM f) := by
  simp only [ends_iff_failsIn] at hf ⊢
  exact failsIn_mapM fun a _ => hf a

end Result

open Result

/-- The check of a signed word ends. -/
theorem Word.ends_signed (i : Int) : Ends (signed i) :=
  ends_iff_failsIn.mpr (failsIn_signed (by decide) i)

/-- The check of an unsigned word ends. -/
theorem Word.ends_unsigned (n : Nat) : Ends (unsigned n) :=
  ends_iff_failsIn.mpr (failsIn_unsigned (by decide) n)

/-- The check of an index ends. -/
theorem ends_checkIndex (kind : IndexKind) (index length : Nat) :
    Ends (checkIndex kind index length) := by
  unfold checkIndex
  split <;> simp

namespace Runs

/-- A walk ends if its steps do. -/
theorem ends_foldlM {β : Type} {f : β → Int → Result β} (hf : ∀ b i, Ends (f b i)) (b : β)
    (rs : List Run) : Ends (foldlM f b rs) := by
  simp only [ends_iff_failsIn] at hf ⊢
  exact failsIn_foldlM (by decide) hf b rs

/-- One more reference at the end. -/
theorem ends_append (rs : Array Run) (ref : Int) : Ends (append rs ref) := by
  unfold append
  split
  · exact ends_ok _
  · split
    · exact ends_ok _
    · refine (Word.ends_signed _).bind fun next => ?_
      split
      · exact (Word.ends_unsigned _).bind fun size => ends_pure _
      · exact ends_pure _

end Runs

/-! ## The first frontier -/

namespace Frontier

/-- One more reference that is read. -/
theorem ends_addRead (net : Net) (i : Nat) (reads : Nat × List Nat) (ref : Int) :
    Ends (addRead net i reads ref) := by
  unfold addRead
  split
  · exact ends_pure _
  · refine (ends_checkIndex _ _ _).bind fun _ => ?_
    split
    · exact ends_fail _
    · exact ends_pure _

/-- **The first frontier of a net** is found or not, but the search ends. -/
theorem ends_ofNet (net : Net) : Ends (ofNet net) := by
  refine (ends_mapM (fun x => ?_) _).bind fun reads => ends_pure _
  exact (Runs.ends_foldlM (ends_addRead net x.2) _ _).bind fun reads => ends_pure _

end Frontier

/-! ## A neuron taken into a cell -/

/-- The look-up of a weight ends. -/
theorem Net.ends_weightAs (net : Net) (kind : IndexKind) (i : Nat) :
    Ends (net.weightAs kind i) := by
  unfold weightAs
  split <;> simp

namespace Draft

/-- The check of a reference ends. -/
theorem ends_checkReference (d : Draft) (i : Nat) (ref : Int) : Ends (d.checkReference i ref) := by
  unfold checkReference
  split
  · refine Ends.bind ?_ fun k => ends_checkIndex _ _ _
    unfold Ref.toInput
    split <;> simp
  · refine (ends_checkIndex _ _ _).bind fun _ => ?_
    split <;> simp

/-- The checks of a neuron end. -/
theorem ends_examine (d : Draft) (i : Nat) : Ends (d.examine i) := by
  have hneuron : Ends (d.net.neuron i) := by
    unfold Net.neuron
    split <;> simp
  have hweights : ∀ n : Neuron, Ends (collectWeights d.net n.weights.toList) := fun n =>
    Runs.ends_foldlM (fun ws pos => (d.net.ends_weightAs .weight _).bind fun w => ends_pure _) _ _
  refine hneuron.bind fun n => ?_
  split
  · exact ends_fail _
  · refine (d.net.ends_weightAs _ _).bind fun bias => (d.net.ends_weightAs _ _).bind fun filter =>
      (hweights n).bind fun weights => (Word.ends_unsigned _).bind fun inputs => ?_
    split
    · exact ends_fail _
    · exact (Runs.ends_foldlM (fun _ => d.ends_checkReference i) _ _).bind fun _ => ends_pure _

/-- The search for a source ends. -/
theorem ends_sourceOf (d : Draft) (ref : Int) : Ends (d.sourceOf ref).2 := by
  unfold sourceOf
  split
  · exact ends_ok _
  · split
    · exact ends_ok _
    · dsimp only
      split
      next e happend => exact (Runs.ends_append _ _).error happend
      next slots happend => exact ends_ok _

/-- The search for sources ends. -/
theorem ends_sourcesOf (d : Draft) (sources : Array Run) (refs : List Int) :
    Ends (sourcesOf d sources refs).2 := by
  induction refs generalizing d sources with
  | nil => exact ends_ok _
  | cons ref refs ih =>
    have hone := d.ends_sourceOf ref
    unfold sourcesOf
    split
    next d₁ e hsource => exact hone.error (by rw [hsource])
    next d₁ s hsource =>
      split
      next e happend => exact (Runs.ends_append _ _).error happend
      next sources happend => exact ih d₁ sources

/-- **A neuron is taken in** or not, but the attempt ends. -/
theorem ends_add (d : Draft) (i : Nat) : Ends (d.add i).2 := by
  unfold add
  split
  next e hexamine => exact (d.ends_examine i).error hexamine
  next n hexamine =>
    have hall := (d.copyWeights n).ends_sourcesOf #[] n.neuron.references
    split
    next d₁ e hsources => exact hall.error (by rw [hsources])
    next d₁ sources hsources =>
      unfold place
      dsimp only
      split
      next e happend => exact (Runs.ends_append _ _).error happend
      next outputs happend => exact ends_ok _

end Draft

end NeuralPlan
