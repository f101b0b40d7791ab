import Mathlib.Algebra.Order.BigOperators.Group.List
import Mathlib.Tactic
import NeuralPlan.Run
import NeuralPlan.Proofs.Answers

/-!
# Walks over runs

A sequence of runs stands for the list `Runs.indices` of its references.  Every walk over runs is
the same walk over that list, with a check that each reference fits a signed word; and appending
one reference to runs appends it to the list.

## Main definitions

* `Runs.Encodes` — runs that hold a list of references, none of them empty or too long to be
  walked.

## Main results

* `Runs.foldlM_eq_ok_iff`, `Runs.foldlM_of_signed`, `Runs.allM_of_signed`,
  `Runs.zipFoldlM_of_signed`, `Runs.zipFoldlM_eq_ok` — walks over runs are walks over the list.
* `Runs.failsIn_foldlM_of_start`, `Runs.failsIn_zipFoldlM_of_start` — a walk that cannot leave the
  words fails only as its steps do.
* `Runs.next?_of_signed` — the first reference and the rest.
* `Runs.Encodes.append`, `Runs.Encodes.append_isOk`, `Runs.size_append` — one more reference.
-/

set_option relaxedAutoImplicit false
set_option autoImplicit false

namespace NeuralPlan

open Word

/-- What a reference names is there, and so are the words next to the reference. -/
theorem isInner_of_names {inputs neurons : Nat} (hinputs : inputs < Word.signedLimit)
    (hneurons : neurons < Word.signedLimit) {ref : Int}
    (h : if Ref.isInput ref then (-(ref + 1)).toNat < inputs else ref.toNat < neurons) :
    Word.IsInner ref := by
  unfold Word.IsInner
  split at h
  next hin =>
    have hneg : ref < 0 := by simpa [Ref.isInput] using hin
    omega
  next hin =>
    have hnonneg : 0 ≤ ref := by simpa [Ref.isInput] using hin
    omega

/-! ## The references of a run -/

namespace Run

/-- A walk comes to as many references as the run has. -/
@[simp] theorem length_indices (r : Run) : r.indices.length = r.length := by simp [indices]

/-- The references that the size of a run counts, whether a walk comes to them or not. -/
def span (r : Run) : List Int := (List.range r.size).map fun k : Nat => r.start + r.step * k

/-- The reference that would continue the run, whether a word holds it or not. -/
def after (r : Run) : Int := r.start + r.step * r.size

/-- A run that a signed word counts is walked in full. -/
theorem length_eq_size {r : Run} (h : r.size < signedLimit) : r.length = r.size := if_pos h

/-- A run that a signed word counts walks over all that its size counts. -/
theorem indices_eq_span {r : Run} (h : r.size < signedLimit) : r.indices = r.span := by
  rw [indices, length_eq_size h, span]

/-- An empty run walks over nothing. -/
theorem indices_eq_nil {r : Run} (h : r.size = 0) : r.indices = [] := by
  refine List.eq_nil_of_length_eq_zero ?_
  rw [length_indices, length_eq_size (by rw [h]; decide), h]

/-- A run and the reference that continues it. -/
theorem span_extend (r : Run) : (⟨r.start, r.size + 1⟩ : Run).span = r.span ++ [r.after] := by
  rw [span, List.range_succ, List.map_append]
  rfl

/-- The way through a run of inputs is down. -/
theorem step_of_neg {r : Run} (h : r.start < 0) : r.step = -1 := by
  simp [step, isInput, Ref.isInput, h]

/-- The way through a run of neurons is up. -/
theorem step_of_nonneg {r : Run} (h : 0 ≤ r.start) : r.step = 1 := by
  simp [step, isInput, Ref.isInput, h]

/-- Consecutive references are the first one and those after it. -/
theorem map_range_succ (step : Int) (count : Nat) (ref : Int) :
    ((List.range (count + 1)).map fun k : Nat => ref + step * k) =
      ref :: (List.range count).map fun k : Nat => ref + step + step * k := by
  rw [List.range_succ_eq_map, List.map_cons, List.map_map]
  congr 1
  · simp
  · refine List.map_congr_left fun k _ => ?_
    simp only [Function.comp_apply, Nat.cast_succ]
    ring

/-- The run that is left behind the first reference walks over the rest. -/
theorem indices_eq_cons {r : Run} (h : r.length ≠ 0) :
    r.indices = r.start :: (⟨r.start + r.step, r.length - 1⟩ : Run).indices := by
  obtain ⟨m, hm⟩ : ∃ m, r.length = m + 1 := ⟨r.length - 1, by omega⟩
  have hlt : m < signedLimit := by
    unfold length at hm
    split at hm <;> omega
  have hlen : (⟨r.start + r.step, r.length - 1⟩ : Run).length = m := by
    rw [hm]; exact if_pos hlt
  have hstep : (⟨r.start + r.step, r.length - 1⟩ : Run).step = r.step := by
    rcases lt_or_ge r.start 0 with hs | hs
    · rw [step_of_neg hs, step_of_neg (by simp only; omega)]
    · rw [step_of_nonneg hs, step_of_nonneg (by simp only; omega)]
  unfold indices
  rw [hlen, hstep, hm, map_range_succ]

/-- The next reference of a run is one up or one down. -/
theorem step_eq_or (r : Run) : r.step = 1 ∨ r.step = -1 := by
  unfold step
  split
  · exact .inr rfl
  · exact .inl rfl

variable {β : Type}

/-- A walk from a word whose steps succeed only on words with neighbours fails in the ways of its
steps: it ends before it leaves the words.  The invariant `Q` is over the references that are still
to come, and those after the run are `rest`. -/
theorem failsIn_walk {P : Failure → Prop} {Q : List Int → β → Prop} {f : β → Int → Result β}
    (hf : ∀ b i is, IsSigned i → Q (i :: is) b → Result.FailsIn P (f b i))
    (hnext : ∀ b i is c, IsSigned i → Q (i :: is) b → f b i = .ok c → IsInner i ∧ Q is c)
    {step : Int} (hstep : step = 1 ∨ step = -1) (rest : List Int) (count : Nat) {ref : Int}
    (href : IsSigned ref) {b : β}
    (hb : Q (((List.range count).map fun k : Nat => ref + step * k) ++ rest) b) :
    Result.FailsIn P (walk f step count ref b) ∧
      ∀ c, walk f step count ref b = .ok c → Q rest c := by
  induction count generalizing ref b with
  | zero => exact ⟨Result.failsIn_ok b, fun c hc => Except.ok.inj hc ▸ hb⟩
  | succ count ih =>
    rw [map_range_succ, List.cons_append] at hb
    rw [walk, signed_eq_ok_iff.mpr ⟨href, rfl⟩, Result.ok_bind]
    cases hone : f b ref with
    | error e => exact ⟨fun e' he => Except.error.inj he ▸ hf b ref _ href hb e hone, nofun⟩
    | ok c =>
      obtain ⟨hin, hc⟩ := hnext b ref _ c href hb hone
      refine ih ?_ hc
      unfold IsInner at hin
      unfold IsSigned
      omega

/-- A walk over consecutive references checks and folds them in turn. -/
theorem walk_eq (f : β → Int → Result β) (step : Int) (count : Nat) (ref : Int) (b : β) :
    walk f step count ref b =
      ((List.range count).map fun k : Nat => ref + step * k).foldlM
        (fun b i => signed i >>= f b) b := by
  induction count generalizing ref b with
  | zero => rfl
  | succ count ih =>
    rw [map_range_succ, List.foldlM_cons, walk]
    cases hs : signed ref with
    | error e => rfl
    | ok i =>
      obtain ⟨-, rfl⟩ := signed_eq_ok_iff.mp hs
      simp only [Result.ok_bind, ih]

/-- A test of consecutive references that all fit is a test of their list. -/
theorem walkAll_of_signed (p : Int → Bool) (step : Int) (count : Nat) (ref : Int)
    (h : ∀ i ∈ (List.range count).map fun k : Nat => ref + step * k, IsSigned i) :
    walkAll p step count ref =
      .ok (((List.range count).map fun k : Nat => ref + step * k).all p) := by
  induction count generalizing ref with
  | zero => rfl
  | succ count ih =>
    rw [map_range_succ] at h ⊢
    have href : signed ref = .ok ref := signed_eq_ok_iff.mpr ⟨h ref (by simp), rfl⟩
    simp only [walkAll, href, Result.ok_bind, List.all_cons]
    split
    next hp => rw [ih _ fun i hi => h i (List.mem_cons_of_mem _ hi), hp, Bool.true_and]
    next hp => simp [hp]

end Run

/-! ## The references of several runs -/

namespace Runs

/-- No runs stand for no references. -/
@[simp] theorem indices_nil : indices [] = [] := rfl

/-- The references of the first run come first. -/
@[simp] theorem indices_cons (r : Run) (rs : List Run) :
    indices (r :: rs) = r.indices ++ indices rs := rfl

/-- Runs one after another stand for their references one after another. -/
@[simp] theorem indices_append (rs ss : List Run) :
    indices (rs ++ ss) = indices rs ++ indices ss := by
  simp [indices]

/-- A walk comes to as many references as the runs have. -/
theorem length_indices (rs : List Run) : (indices rs).length = length rs := by
  simp [indices, length, List.length_flatMap]

/-- The checked sum of the sizes is the exact one, if that fits a word. -/
theorem size_eq_ok_iff {rs : List Run} {count : Nat} :
    size rs = .ok count ↔ (rs.map Run.size).sum < limit ∧ count = (rs.map Run.size).sum :=
  unsigned_eq_ok_iff

/-- Runs that signed words count are walked in full. -/
theorem length_indices_eq {rs : List Run} (h : ∀ r ∈ rs, r.size < signedLimit) :
    (indices rs).length = (rs.map Run.size).sum := by
  rw [length_indices]
  exact congrArg List.sum (List.map_congr_left fun r hr => Run.length_eq_size (h r hr))

/-- A walk comes to no more references than the sizes count. -/
theorem length_indices_le (rs : List Run) : (indices rs).length ≤ (rs.map Run.size).sum := by
  rw [length_indices]
  change (rs.map Run.length).sum ≤ _
  apply List.sum_le_sum
  intro r _
  unfold Run.length
  split <;> omega

variable {β : Type}

/-- A walk over runs checks and folds their references in turn. -/
theorem foldlM_eq (f : β → Int → Result β) (b : β) (rs : List Run) :
    foldlM f b rs = (indices rs).foldlM (fun b i => signed i >>= f b) b := by
  induction rs generalizing b with
  | nil => rfl
  | cons r rs ih =>
    rw [indices_cons, List.foldlM_append, foldlM, Run.walk_eq]
    congr 1
    funext c
    exact ih c

/-- If all references fit, a walk over runs is a walk over their list. -/
theorem foldlM_of_signed (f : β → Int → Result β) (b : β) {rs : List Run}
    (h : ∀ i ∈ indices rs, IsSigned i) : foldlM f b rs = (indices rs).foldlM f b := by
  rw [foldlM_eq]
  generalize indices rs = is at h ⊢
  induction is generalizing b with
  | nil => rfl
  | cons i is ih =>
    have hi : signed i = .ok i := signed_eq_ok_iff.mpr ⟨h i (by simp), rfl⟩
    simp only [List.foldlM_cons, hi, Result.ok_bind]
    congr 1
    funext c
    exact ih c fun j hj => h j (List.mem_cons_of_mem _ hj)

/-- A walk that comes to its end has met only references that fit. -/
theorem signed_of_foldlM_eq_ok {f : β → Int → Result β} {b c : β} {rs : List Run}
    (h : foldlM f b rs = .ok c) : ∀ i ∈ indices rs, IsSigned i := by
  rw [foldlM_eq] at h
  generalize indices rs = is at h ⊢
  induction is generalizing b with
  | nil => simp
  | cons i is ih =>
    simp only [List.foldlM_cons, bind_assoc, Result.bind_eq_ok_iff, signed_eq_ok_iff] at h
    obtain ⟨_, ⟨hi, rfl⟩, d, _, hd⟩ := h
    exact List.forall_mem_cons.mpr ⟨hi, ih hd⟩

/-- **A walk over runs comes to its end** exactly if all references fit and the walk over their
list does. -/
theorem foldlM_eq_ok_iff {f : β → Int → Result β} {b c : β} {rs : List Run} :
    foldlM f b rs = .ok c ↔
      (∀ i ∈ indices rs, IsSigned i) ∧ (indices rs).foldlM f b = .ok c := by
  constructor
  · intro h
    have hs := signed_of_foldlM_eq_ok h
    exact ⟨hs, by rwa [foldlM_of_signed f b hs] at h⟩
  · rintro ⟨hs, h⟩
    rwa [foldlM_of_signed f b hs]

/-- A walk over runs fails in the ways of its steps, or for a reference that does not fit.  The ways
of a step are only asked for under the invariant `Q` over the references that are still to come. -/
theorem failsIn_foldlM_of_invariant {P : Failure → Prop} (hover : P (.fault .overflow))
    {Q : List Int → β → Prop} {f : β → Int → Result β}
    (hf : ∀ b i is, Q (i :: is) b → Result.FailsIn P (f b i))
    (hnext : ∀ b i is c, Q (i :: is) b → f b i = .ok c → Q is c) {rs : List Run} {b : β}
    (hb : Q (indices rs) b) : Result.FailsIn P (foldlM f b rs) := by
  rw [foldlM_eq]
  generalize indices rs = is at hb ⊢
  induction is generalizing b with
  | nil => exact Result.failsIn_ok b
  | cons i is ih =>
    rw [List.foldlM_cons]
    refine Result.FailsIn.bind_of ((failsIn_signed hover i).bind_of fun j hj => ?_) fun c hc => ?_
    · obtain ⟨-, rfl⟩ := signed_eq_ok_iff.mp hj
      exact hf b j is hb
    · obtain ⟨j, hj, hstep⟩ := Result.bind_eq_ok_iff.mp hc
      obtain ⟨-, rfl⟩ := signed_eq_ok_iff.mp hj
      exact ih (hnext b j is c hb hstep)

/-- A walk over runs fails in the ways of its steps, or for a reference that does not fit. -/
theorem failsIn_foldlM {P : Failure → Prop} (hover : P (.fault .overflow))
    {f : β → Int → Result β} (hf : ∀ b i, Result.FailsIn P (f b i)) (b : β) (rs : List Run) :
    Result.FailsIn P (foldlM f b rs) :=
  failsIn_foldlM_of_invariant hover (Q := fun _ _ => True) (fun b i _ _ => hf b i)
    (fun _ _ _ _ _ _ => trivial) trivial

/-- **A walk over runs that start at words**, whose steps succeed only on words with neighbours, fails
in the ways of its steps.  These are only asked for under the invariant `Q` over the references that
are still to come. -/
theorem failsIn_foldlM_of_start {P : Failure → Prop} {Q : List Int → β → Prop}
    {f : β → Int → Result β}
    (hf : ∀ b i is, IsSigned i → Q (i :: is) b → Result.FailsIn P (f b i))
    (hnext : ∀ b i is c, IsSigned i → Q (i :: is) b → f b i = .ok c → IsInner i ∧ Q is c)
    {rs : List Run} {b : β} (hb : Q (indices rs) b) (hstart : ∀ r ∈ rs, IsSigned r.start) :
    Result.FailsIn P (foldlM f b rs) := by
  induction rs generalizing b with
  | nil => exact Result.failsIn_ok b
  | cons r rs ih =>
    obtain ⟨hr, hrs⟩ := List.forall_mem_cons.mp hstart
    obtain ⟨hwalk, hrest⟩ := Run.failsIn_walk hf hnext r.step_eq_or (indices rs) r.length hr hb
    exact hwalk.bind_of fun c hc => ih (hrest c hc) hrs

/-- Runs that start at words stay within the words, if whatever they come to has neighbours there. -/
theorem signed_of_inner {rs : List Run} (hstart : ∀ r ∈ rs, IsSigned r.start)
    (hinner : ∀ i ∈ indices rs, IsSigned i → IsInner i) : ∀ i ∈ indices rs, IsSigned i := by
  intro i hi
  obtain ⟨r, hr, hrun⟩ := List.mem_flatMap.mp hi
  obtain ⟨k, hk, rfl⟩ := List.mem_map.mp hrun
  induction k with
  | zero => simpa using hstart r hr
  | succ k ih =>
    have hlt : k < r.length := Nat.lt_of_succ_lt (List.mem_range.mp hk)
    have hrun : r.start + r.step * k ∈ r.indices :=
      List.mem_map.mpr ⟨k, List.mem_range.mpr hlt, rfl⟩
    have hmem := List.mem_flatMap.mpr ⟨r, hr, hrun⟩
    have hin := hinner _ hmem (ih (List.mem_range.mpr hlt) hmem hrun)
    unfold IsInner at hin
    unfold IsSigned
    rcases r.step_eq_or with h | h
    · rw [h] at hin ⊢; omega
    · rw [h] at hin ⊢; omega

/-- The sum of the sizes may not fit. -/
theorem failsIn_size {P : Failure → Prop} (hover : P (.fault .overflow)) (rs : List Run) :
    Result.FailsIn P (size rs) :=
  failsIn_unsigned hover _

/-- The first reference may not fit. -/
theorem failsIn_next? {P : Failure → Prop} (hover : P (.fault .overflow)) (rs : List Run) :
    Result.FailsIn P (next? rs) := by
  induction rs with
  | nil => exact Result.failsIn_ok none
  | cons r rs ih =>
    unfold next?
    split
    next => exact ih
    next => exact (failsIn_signed hover _).bind fun ref => Result.failsIn_pure _

/-- A walk over two sequences side by side fails in the ways of its steps, or for a reference that
does not fit. -/
theorem failsIn_zipFoldlM {P : Failure → Prop} (hover : P (.fault .overflow))
    {f : β → Int → Int → Result β} (hf : ∀ b x y, Result.FailsIn P (f b x y)) (b : β)
    (xs ys : List Run) : Result.FailsIn P (zipFoldlM f b xs ys) := by
  have hwalk : ∀ (count : Nat) (xs ys : List Run) (b : β),
      Result.FailsIn P (zipWalk f count xs ys b) := by
    intro count
    induction count with
    | zero => exact fun _ _ b => Result.failsIn_ok b
    | succ count ih =>
      intro xs ys b
      refine (failsIn_next? hover xs).bind fun x => ?_
      rcases x with _ | ⟨x, xs⟩
      · exact Result.failsIn_pure b
      · refine (failsIn_next? hover ys).bind fun y => ?_
        rcases y with _ | ⟨y, ys⟩
        · exact Result.failsIn_pure b
        · exact (hf b x y).bind (ih xs ys)
  exact hwalk _ xs ys b

/-- The first reference of runs that start at words is a word, and if it has neighbours, then the runs
that are left start at words. -/
theorem next?_of_start {rs : List Run} (hstart : ∀ r ∈ rs, IsSigned r.start) :
    next? rs = .ok none ∨ ∃ ref rest, next? rs = .ok (some (ref, rest)) ∧ IsSigned ref ∧
      (IsInner ref → ∀ r ∈ rest, IsSigned r.start) := by
  induction rs with
  | nil => exact .inl rfl
  | cons r rs ih =>
    obtain ⟨hr, hrs⟩ := List.forall_mem_cons.mp hstart
    unfold next?
    split
    next => exact ih hrs
    next =>
      rw [signed_eq_ok_iff.mpr ⟨hr, rfl⟩]
      refine .inr ⟨r.start, _, rfl, hr, fun hin => List.forall_mem_cons.mpr ⟨?_, hrs⟩⟩
      show IsSigned (r.start + r.step)
      have hstep := r.step_eq_or
      unfold IsInner at hin
      unfold IsSigned
      omega

/-- **A walk over two sequences that start at words**, whose steps succeed only on words with
neighbours, fails in the ways of its steps. -/
theorem failsIn_zipFoldlM_of_start {P : Failure → Prop} {f : β → Int → Int → Result β}
    (hf : ∀ b x y, Result.FailsIn P (f b x y))
    (hinner : ∀ b x y c, IsSigned x → IsSigned y → f b x y = .ok c → IsInner x ∧ IsInner y)
    {xs ys : List Run} (hx : ∀ r ∈ xs, IsSigned r.start) (hy : ∀ r ∈ ys, IsSigned r.start) (b : β) :
    Result.FailsIn P (zipFoldlM f b xs ys) := by
  have hwalk : ∀ (count : Nat) (xs ys : List Run) (b : β), (∀ r ∈ xs, IsSigned r.start) →
      (∀ r ∈ ys, IsSigned r.start) → Result.FailsIn P (zipWalk f count xs ys b) := by
    intro count
    induction count with
    | zero => exact fun _ _ b _ _ => Result.failsIn_ok b
    | succ count ih =>
      intro xs ys b hx hy
      unfold zipWalk
      rcases next?_of_start hx with hnone | ⟨x, xs', hsome, hsigned, hxs⟩
      · rw [hnone]
        exact Result.failsIn_pure b
      rcases next?_of_start hy with hnone | ⟨y, ys', hsome', hsigned', hys⟩
      · simp only [hsome, hnone, Result.ok_bind]
        exact Result.failsIn_pure b
      simp only [hsome, hsome', Result.ok_bind]
      refine (hf b x y).bind_of fun c hc => ?_
      obtain ⟨hin, hin'⟩ := hinner b x y c hsigned hsigned' hc
      exact ih xs' ys' c (hxs hin) (hys hin')
  exact hwalk _ xs ys b hx hy

/-- If all references fit, a test of runs is a test of their list. -/
theorem allM_of_signed (p : Int → Bool) {rs : List Run} (h : ∀ i ∈ indices rs, IsSigned i) :
    allM p rs = .ok ((indices rs).all p) := by
  induction rs with
  | nil => rfl
  | cons r rs ih =>
    rw [indices_cons] at h ⊢
    have hr : Run.walkAll p r.step r.length r.start = .ok (r.indices.all p) :=
      Run.walkAll_of_signed p r.step r.length r.start fun i hi => h i (List.mem_append_left _ hi)
    simp only [allM, hr, Result.ok_bind, List.all_append]
    split
    next hp => rw [ih fun i hi => h i (List.mem_append_right _ hi), hp, Bool.true_and]
    next hp => simp [hp]

/-- **The first reference.**  If all references fit, taking the first one splits the list. -/
theorem next?_of_signed {rs : List Run} (h : ∀ i ∈ indices rs, IsSigned i) :
    (indices rs = [] ∧ next? rs = .ok none) ∨
      ∃ ref rest, indices rs = ref :: indices rest ∧ next? rs = .ok (some (ref, rest)) := by
  induction rs with
  | nil => exact .inl ⟨rfl, rfl⟩
  | cons r rs ih =>
    by_cases hr : r.length = 0
    · have hnil : r.indices = [] := List.eq_nil_of_length_eq_zero (by simpa using hr)
      rw [indices_cons, hnil, List.nil_append] at h ⊢
      simpa only [next?, hr, if_pos] using ih h
    · have hcons := Run.indices_eq_cons hr
      refine .inr ⟨r.start, ⟨r.start + r.step, r.length - 1⟩ :: rs, ?_, ?_⟩
      · rw [indices_cons, indices_cons, hcons, List.cons_append]
      · have hs : signed r.start = .ok r.start := signed_eq_ok_iff.mpr
          ⟨h _ (by rw [indices_cons, hcons]; simp), rfl⟩
        simp only [next?, hr, if_neg, not_false_eq_true, hs, Result.ok_bind, Result.pure_eq_ok]

/-- If all references fit, a walk over pairs is a walk over the list of pairs. -/
theorem zipFoldlM_of_signed (f : β → Int → Int → Result β) (b : β) {xs ys : List Run}
    (hx : ∀ i ∈ indices xs, IsSigned i) (hy : ∀ i ∈ indices ys, IsSigned i) :
    zipFoldlM f b xs ys =
      ((indices xs).zip (indices ys)).foldlM (fun b p => f b p.1 p.2) b := by
  unfold zipFoldlM
  rw [← length_indices]
  generalize hn : (indices xs).length = n
  induction n generalizing xs ys b with
  | zero =>
    rw [List.eq_nil_of_length_eq_zero hn, List.zip_nil_left]
    rfl
  | succ n ih =>
    rcases next?_of_signed hx with ⟨hnil, -⟩ | ⟨x, xs', hxs, hnx⟩
    · simp [hnil] at hn
    rcases next?_of_signed hy with ⟨hnil, hny⟩ | ⟨y, ys', hys, hny⟩
    · simp [zipWalk, hnx, hny, hnil]
    · rw [hxs, hys, List.zip_cons_cons, List.foldlM_cons]
      simp only [zipWalk, hnx, hny, Result.ok_bind]
      congr 1
      funext c
      refine ih c ?_ ?_ ?_
      · exact fun i hi => hx i (hxs ▸ List.mem_cons_of_mem _ hi)
      · exact fun i hi => hy i (hys ▸ List.mem_cons_of_mem _ hi)
      · simpa [hxs] using hn

/-- The first reference that is taken is the first of the list, and the rest is left; if none is
taken, the list is empty. -/
theorem next?_eq_ok {rs : List Run} {o : Option (Int × List Run)} (h : next? rs = .ok o) :
    indices rs = o.elim [] fun x => x.1 :: indices x.2 := by
  induction rs with
  | nil =>
    obtain rfl := Except.ok.inj h
    rfl
  | cons r rs ih =>
    rw [next?] at h
    split at h
    next hr =>
      have hnil : r.indices = [] := List.eq_nil_of_length_eq_zero (by simpa using hr)
      rw [indices_cons, hnil, List.nil_append]
      exact ih h
    next hr =>
      obtain ⟨ref, href, ho⟩ := Result.bind_eq_ok_iff.mp h
      obtain ⟨-, rfl⟩ := signed_eq_ok_iff.mp href
      obtain rfl := Except.ok.inj ho
      rw [indices_cons, Run.indices_eq_cons hr]
      rfl

/-- A walk over pairs that comes to its end is a walk over the list of pairs. -/
theorem zipFoldlM_eq_ok {f : β → Int → Int → Result β} {b c : β} {xs ys : List Run}
    (h : zipFoldlM f b xs ys = .ok c) :
    ((indices xs).zip (indices ys)).foldlM (fun b p => f b p.1 p.2) b = .ok c := by
  unfold zipFoldlM at h
  rw [← length_indices] at h
  generalize hn : (indices xs).length = n at h
  induction n generalizing xs ys b with
  | zero =>
    rw [List.eq_nil_of_length_eq_zero hn, List.zip_nil_left]
    exact h
  | succ n ih =>
    obtain ⟨ox, hx, h⟩ := Result.bind_eq_ok_iff.mp h
    have hxs := next?_eq_ok hx
    cases ox with
    | none => simp [hxs] at hn
    | some x =>
      obtain ⟨oy, hy, h⟩ := Result.bind_eq_ok_iff.mp h
      have hys := next?_eq_ok hy
      cases oy with
      | none =>
        rw [hys, Option.elim_none, List.zip_nil_right]
        exact h
      | some y =>
        obtain ⟨b', hb, h⟩ := Result.bind_eq_ok_iff.mp h
        rw [hxs, hys]
        simp only [Option.elim_some, List.zip_cons_cons, List.foldlM_cons, hb, Result.ok_bind]
        apply ih _ h
        simpa [hxs] using hn

/-! ## One more reference -/

/-- The runs hold the references, and each of them is walked in full. -/
def Encodes (rs : Array Run) (xs : List Int) : Prop :=
  indices rs.toList = xs ∧ ∀ r ∈ rs, 0 < r.size ∧ r.size < signedLimit

/-- No runs hold no references. -/
theorem encodes_empty : Encodes #[] [] := ⟨rfl, by simp⟩

/-- The runs count as many references as they hold. -/
theorem Encodes.sum_size {rs : Array Run} {xs : List Int} (h : Encodes rs xs) :
    (rs.toList.map Run.size).sum = xs.length := by
  rw [← h.1, length_indices_eq fun r hr => (h.2 r (Array.mem_toList_iff.mp hr)).2]

/-- There are no more runs than references. -/
theorem Encodes.size_le {rs : Array Run} {xs : List Int} (h : Encodes rs xs) :
    rs.size ≤ xs.length := by
  rw [← h.sum_size, ← Array.length_toList, ← List.length_map (f := Run.size)]
  refine List.length_le_sum_of_one_le _ fun k hk => ?_
  obtain ⟨r, hr, rfl⟩ := List.mem_map.mp hk
  exact (h.2 r (Array.mem_toList_iff.mp hr)).1

/-- A new run for the next reference. -/
theorem Encodes.push {rs : Array Run} {xs : List Int} (h : Encodes rs xs) (ref : Int) :
    Encodes (rs.push ⟨ref, 1⟩) (xs ++ [ref]) := by
  have hone : (⟨ref, 1⟩ : Run).indices = [ref] := by
    simp [Run.indices, Run.length, signedLimit]
  refine ⟨by rw [Array.toList_push, indices_append, h.1, indices_cons, hone]; rfl, fun r hr => ?_⟩
  rcases Array.mem_push.mp hr with hr | rfl
  · exact h.2 r hr
  · exact ⟨Nat.one_pos, by simp [signedLimit]⟩

/-- The last run, its references, and those before it. -/
theorem Encodes.split_last {rs : Array Run} {last : Run} {xs : List Int}
    (h : Encodes (rs.push last) xs) :
    ∃ ys, Encodes rs ys ∧ xs = ys ++ last.indices ∧ 0 < last.size ∧ last.size < signedLimit ∧
      last.length = last.size := by
  obtain ⟨hpos, hlt⟩ := h.2 last (by simp)
  refine ⟨indices rs.toList, ⟨rfl, fun r hr => h.2 r (Array.mem_push.mpr (.inl hr))⟩, ?_, hpos,
    hlt, Run.length_eq_size hlt⟩
  rw [← h.1, Array.toList_push, indices_append, indices_cons, indices_nil, List.append_nil]

/-- No `2^63` references of the list are in a row: as many no run walks over. -/
def Walkable (xs : List Int) : Prop := ∀ start : Int, ¬(⟨start, signedLimit⟩ : Run).span <:+: xs

/-- A list that a signed word counts is walkable. -/
theorem walkable_of_length_lt {xs : List Int} (h : xs.length < signedLimit) : Walkable xs := by
  intro start hspan
  have hle := hspan.length_le
  simp only [Run.span, List.length_map, List.length_range] at hle
  omega

/-- The first part of a walkable list is walkable. -/
theorem Walkable.left {xs ys : List Int} (h : Walkable (xs ++ ys)) : Walkable xs :=
  fun start hspan => h start (hspan.trans (List.prefix_append xs ys).isInfix)

/-- **One more reference** extends the last run if it continues it, and else opens a new one. -/
theorem append_eq_ok {rs rs' : Array Run} {ref : Int}
    (hrs : ∀ r ∈ rs, 0 < r.size ∧ r.size < signedLimit) (happ : append rs ref = .ok rs') :
    (rs' = rs.push ⟨ref, 1⟩ ∧ ∀ last ∈ rs.back?, ref ≠ last.after) ∨
      ∃ (init : Array Run) (last : Run), rs = init.push last ∧ ref = last.after ∧
        rs' = init.push ⟨last.start, last.size + 1⟩ := by
  by_cases hempty : rs = #[]
  · subst hempty
    obtain rfl : #[⟨ref, 1⟩] = rs' := by simpa [Runs.append] using happ
    exact .inl ⟨rfl, by simp⟩
  obtain ⟨init, last, rfl⟩ := Array.ne_empty_iff_exists_push.mp hempty
  obtain ⟨hpos, hlt⟩ := hrs last (by simp)
  simp only [Runs.append, Array.back?_push, Array.pop_push, if_neg hpos.ne',
    Result.bind_eq_ok_iff] at happ
  obtain ⟨next, hnext, happ⟩ := happ
  obtain rfl : next = last.after := by
    rw [(signed_eq_ok_iff.mp hnext).2, toSigned_of_lt hlt, Run.after]
  split at happ
  next heq =>
    obtain ⟨size, hsize, happ⟩ := Result.bind_eq_ok_iff.mp happ
    obtain ⟨-, rfl⟩ := unsigned_eq_ok_iff.mp hsize
    obtain rfl : init.push ⟨last.start, last.size + 1⟩ = rs' := by simpa using happ
    exact .inr ⟨init, last, rfl, heq.symm, rfl⟩
  next hne =>
    obtain rfl : (init.push last).push ⟨ref, 1⟩ = rs' := by simpa using happ
    refine .inl ⟨rfl, fun last' hlast => ?_⟩
    obtain rfl : last = last' := by simpa using hlast
    exact fun h => hne h.symm

/-- One more reference opens at most one run more, and takes none away. -/
theorem size_append {rs rs' : Array Run} {ref : Int} (happ : append rs ref = .ok rs') :
    rs.size ≤ rs'.size ∧ rs'.size ≤ rs.size + 1 := by
  have hpush : rs.size ≤ (rs.push ⟨ref, 1⟩).size ∧ (rs.push ⟨ref, 1⟩).size ≤ rs.size + 1 := by
    simp
  unfold append at happ
  split at happ
  next => exact Except.ok.inj happ ▸ hpush
  next last hlast =>
    split at happ
    next => exact Except.ok.inj happ ▸ hpush
    next =>
      obtain ⟨next, -, happ⟩ := Result.bind_eq_ok_iff.mp happ
      split at happ
      next =>
        obtain ⟨size, -, happ⟩ := Result.bind_eq_ok_iff.mp happ
        rw [← Except.ok.inj happ, Array.size_push, Array.size_pop]
        omega
      next => exact Except.ok.inj happ ▸ hpush

/-- One more reference at the end of the runs is one more at the end of a walkable list. -/
theorem Encodes.append_of_walkable {rs rs' : Array Run} {xs : List Int} {ref : Int}
    (h : Encodes rs xs) (hwalk : Walkable (xs ++ [ref])) (happ : append rs ref = .ok rs') :
    Encodes rs' (xs ++ [ref]) := by
  rcases append_eq_ok h.2 happ with ⟨rfl, -⟩ | ⟨init, last, rfl, rfl, rfl⟩
  · exact h.push ref
  obtain ⟨ys, hinit, rfl, hpos, hlt, -⟩ := h.split_last
  have hspan : (⟨last.start, last.size + 1⟩ : Run).span = last.indices ++ [last.after] := by
    rw [Run.span_extend, Run.indices_eq_span hlt]
  have hroom : last.size + 1 < signedLimit := by
    by_contra hfull
    obtain hmax : last.size + 1 = signedLimit := by omega
    refine hwalk last.start ⟨ys, [], ?_⟩
    rw [← hmax, hspan, List.append_nil, List.append_assoc]
  refine ⟨?_, fun r hr => ?_⟩
  · rw [Array.toList_push, indices_append, hinit.1, indices_cons, indices_nil, List.append_nil,
      Run.indices_eq_span hroom, hspan, List.append_assoc]
  · rcases Array.mem_push.mp hr with hr | rfl
    · exact hinit.2 r hr
    · exact ⟨Nat.succ_pos _, hroom⟩

/-- **One more reference** at the end of the runs is one more at the end of a list that a signed
word counts. -/
theorem Encodes.append {rs rs' : Array Run} {xs : List Int} {ref : Int} (h : Encodes rs xs)
    (hlen : xs.length + 1 < signedLimit) (happ : append rs ref = .ok rs') :
    Encodes rs' (xs ++ [ref]) := by
  apply h.append_of_walkable _ happ
  exact walkable_of_length_lt (by simpa using hlen)

/-- Appending succeeds unless the last reference is the last word in its direction. -/
theorem Encodes.append_isOk {rs : Array Run} {xs : List Int} (h : Encodes rs xs) (ref : Int)
    (hlast : ∀ x ∈ xs.getLast?, IsInner x) :
    ∃ rs', Runs.append rs ref = .ok rs' := by
  by_cases hempty : rs = #[]
  · exact ⟨_, by rw [hempty]; rfl⟩
  obtain ⟨init, last, rfl⟩ := Array.ne_empty_iff_exists_push.mp hempty
  obtain ⟨ys, -, hxs, hpos, hlt, hfull⟩ := h.split_last
  obtain ⟨m, hm⟩ : ∃ m, last.size = m + 1 := ⟨last.size - 1, by omega⟩
  have hend : xs.getLast? = some (last.start + last.step * m) := by
    rw [hxs, Run.indices, hfull, hm, List.range_succ, List.map_append, ← List.append_assoc]
    simp
  have hbound : IsInner (last.start + last.step * m) := hlast _ hend
  unfold IsInner at hbound
  have hnext : last.next = .ok (last.start + last.step * last.size) := by
    unfold Run.next
    rw [toSigned_of_lt hlt]
    refine signed_eq_ok_iff.mpr ⟨?_, rfl⟩
    unfold IsSigned
    rcases lt_or_ge last.start 0 with hs | hs
    · rw [Run.step_of_neg hs] at hbound ⊢; omega
    · rw [Run.step_of_nonneg hs] at hbound ⊢; omega
  have hsize : unsigned (last.size + 1) = .ok (last.size + 1) :=
    unsigned_eq_ok (by have : signedLimit < limit := by decide
                       omega)
  simp only [Runs.append, Array.back?_push, if_neg hpos.ne', hnext, Result.ok_bind, hsize]
  split <;> exact ⟨_, rfl⟩

end Runs

end NeuralPlan
