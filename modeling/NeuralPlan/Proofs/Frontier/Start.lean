import NeuralPlan.Proofs.Frontier.Sound

/-!
# The first frontier of a net

A net has a frontier if its references are words that name neurons of the net, not too many of
each neuron.  In the first frontier every neuron waits.

## Main definitions

* `Net.Readable` — what a frontier asks of a net.
* `Frontier.initial` — the first frontier.

## Main results

* `Frontier.ofNet_eq_ok_iff` — a net has a frontier exactly if it is readable.
* `Frontier.failsIn_ofNet` — how a net is refused whose references name what is there.
* `Frontier.sound_initial` — the first frontier is sound.
-/

set_option relaxedAutoImplicit false
set_option autoImplicit false

namespace NeuralPlan

/-- The references of every neuron are words, and name neurons of the net, not too many. -/
structure Net.Readable (net : Net) : Prop where
  signed : ∀ n ∈ net.neurons, ∀ ref ∈ n.references, Word.IsSigned ref
  lt : ∀ n ∈ net.neurons, ∀ j ∈ n.neuronInputs, j < net.neuronCount
  few : ∀ n ∈ net.neurons, n.neuronInputs.length ≤ Frontier.maxReferences

namespace Frontier

/-! ## What the neurons read -/

/-- The neurons that references name. -/
def namedBy (refs : List Int) : List Nat :=
  (refs.filter fun ref => !Ref.isInput ref).map Int.toNat

/-- References to inputs name no neurons. -/
theorem namedBy_cons_input {ref : Int} (h : Ref.isInput ref = true) (refs : List Int) :
    namedBy (ref :: refs) = namedBy refs := by simp [namedBy, h]

/-- Any other reference names a neuron. -/
theorem namedBy_cons_neuron {ref : Int} (h : Ref.isInput ref = false) (refs : List Int) :
    namedBy (ref :: refs) = ref.toNat :: namedBy refs := by simp [namedBy, h]

/-- Going through references collects the neurons that they name, if these are neurons of the
net and not too many. -/
theorem foldlM_addRead_eq_ok_iff {net : Net} {i count : Nat} {reads : List Nat} {refs : List Int}
    {r : Nat × List Nat} (hcount : count ≤ maxReferences) :
    refs.foldlM (addRead net i) (count, reads) = .ok r ↔
      (∀ j ∈ namedBy refs, j < net.neuronCount) ∧
        count + (namedBy refs).length ≤ maxReferences ∧
        r = (count + (namedBy refs).length, (namedBy refs).reverse ++ reads) := by
  induction refs generalizing count reads with
  | nil => simp [namedBy, hcount, eq_comm]
  | cons ref refs ih =>
    rw [List.foldlM_cons]
    cases hin : Ref.isInput ref with
    | true =>
      simp only [addRead, hin, if_true, Result.pure_eq_ok, Result.ok_bind,
        namedBy_cons_input hin]
      exact ih hcount
    | false =>
      rw [namedBy_cons_neuron hin, List.forall_mem_cons, List.length_cons, List.reverse_cons]
      by_cases hlt : ref.toNat < net.neuronCount
      · have hcheck : checkIndex .neuron ref.toNat net.neuronCount = .ok () :=
          checkIndex_eq_ok_iff.mpr hlt
        by_cases hmax : maxReferences ≤ count
        · simp only [addRead, hin, hcheck, hmax, Bool.false_eq_true, if_false, if_true,
            Result.ok_bind, Result.fail_bind, Result.fail_ne_ok, false_iff]
          omega
        · simp only [addRead, hin, hcheck, hmax, Bool.false_eq_true, if_false,
            Result.ok_bind, Result.pure_eq_ok]
          rw [ih (by omega)]
          simp [hlt, Nat.add_assoc, Nat.add_comm 1]
      · simp [addRead, hin, checkIndex, hlt]

/-- What a neuron reads is collected if its references are words that name neurons of the net,
not too many. -/
theorem readsOf_eq_ok_iff {net : Net} {i : Nat} {n : Neuron} {reads : List Nat} :
    readsOf net i n = .ok reads ↔
      ((∀ ref ∈ n.references, Word.IsSigned ref) ∧
        (∀ j ∈ n.neuronInputs, j < net.neuronCount) ∧
        n.neuronInputs.length ≤ maxReferences) ∧ reads = n.neuronInputs := by
  have hnamed : namedBy (Runs.indices n.inputs.toList) = n.neuronInputs := rfl
  simp only [readsOf, Result.bind_eq_ok_iff, Runs.foldlM_eq_ok_iff, Result.pure_eq_ok,
    foldlM_addRead_eq_ok_iff (Nat.zero_le maxReferences), Except.ok.injEq, hnamed,
    Nat.zero_add, List.append_nil]
  constructor
  · rintro ⟨r, ⟨hs, hlt, hlen, rfl⟩, rfl⟩
    exact ⟨⟨hs, hlt, hlen⟩, List.reverse_reverse _⟩
  · rintro ⟨⟨hs, hlt, hlen⟩, rfl⟩
    exact ⟨_, ⟨hs, hlt, hlen, rfl⟩, List.reverse_reverse _⟩

/-! ## The readers of the neurons -/

/-- One more reader is listed with each neuron as often as it reads it. -/
theorem count_addReader (i : Nat) (inputs : List Nat) (readers : Array (List Nat)) (j k : Nat)
    (hj : j < readers.size) :
    ((addReader i inputs readers)[j]?.getD []).count k =
      (if k = i then inputs.count j else 0) + (readers[j]?.getD []).count k := by
  unfold addReader
  rw [getElem?_foldl_modify, Array.getElem?_eq_getElem hj, Option.map_some, Option.getD_some,
    Option.getD_some]
  generalize inputs.count j = m
  induction m with
  | zero => simp
  | succ m ih =>
    rw [Function.iterate_succ_apply', List.count_cons, ih]
    by_cases hk : k = i
    · simp [hk]; omega
    · simp [hk, Ne.symm hk]

/-- The readers of neurons from the position `start` on are listed with each neuron as often as
they read it. -/
theorem count_foldr_addReader (reads : List (List Nat)) (start : Nat) (readers : Array (List Nat))
    (j k : Nat) (hj : j < readers.size) :
    (((reads.zipIdx start).foldr (fun (inputs, i) readers => addReader i inputs readers)
        readers)[j]?.getD []).count k =
      (if start ≤ k then (reads[k - start]?.getD []).count j else 0) +
        (readers[j]?.getD []).count k := by
  induction reads generalizing start with
  | nil => simp
  | cons inputs reads ih =>
    have hsize : ∀ l : List (List Nat × Nat),
        (l.foldr (fun (inputs, i) readers => addReader i inputs readers) readers).size =
          readers.size := by
      intro l
      induction l with
      | nil => rfl
      | cons x l ih => simpa [addReader] using ih
    rw [List.zipIdx_cons, List.foldr_cons, count_addReader _ _ _ _ _ (by rwa [hsize]), ih]
    rcases lt_trichotomy k start with h | rfl | h
    · simp [show ¬start ≤ k by omega, show ¬start + 1 ≤ k by omega, h.ne]
    · simp
    · obtain ⟨m, rfl⟩ : ∃ m, k = start + 1 + m := ⟨k - (start + 1), by omega⟩
      have hsub : start + 1 + m - start = m + 1 := by omega
      simp [hsub, show start ≤ start + 1 + m by omega, show start + 1 + m ≠ start by omega]

/-! ## The first frontier -/

/-- The frontier in which every neuron waits. -/
def initial (net : Net) : Frontier where
  net := net
  reads := (net.neurons.toList.map Neuron.neuronInputs).toArray
  readers := readersOf net.neuronCount (net.neurons.toList.map Neuron.neuronInputs)
  status := Array.replicate net.neuronCount (.waiting 0)
  iteration := 0
  processed := 0
  subset := []

/-- **A net has a frontier** exactly if it is readable. -/
theorem ofNet_eq_ok_iff {net : Net} {f : Frontier} :
    ofNet net = .ok f ↔ net.Readable ∧ f = initial net := by
  have hmap : ∀ reads, net.neurons.toList.zipIdx.mapM (fun x => readsOf net x.2 x.1) = .ok reads ↔
      net.Readable ∧ reads = net.neurons.toList.map Neuron.neuronInputs := by
    intro reads
    have hone : ∀ (x : Neuron × Nat) (read : List Nat), readsOf net x.2 x.1 = .ok read ↔ _ :=
      fun x _ => readsOf_eq_ok_iff
    rw [Result.mapM_eq_ok_iff_of hone]
    have hlist : net.neurons.toList.zipIdx.map (fun x => x.1.neuronInputs) =
        net.neurons.toList.map Neuron.neuronInputs := by
      rw [← Function.comp_def Neuron.neuronInputs Prod.fst, ← List.map_map, List.zipIdx_map_fst]
    rw [hlist]
    refine and_congr_left fun _ => ⟨fun h => ?_, fun h x hx => ?_⟩
    · have hall : ∀ n ∈ net.neurons, ∃ i, (n, i) ∈ net.neurons.toList.zipIdx := by
        intro n hn
        rw [← Array.mem_toList_iff, ← List.zipIdx_map_fst 0 net.neurons.toList] at hn
        obtain ⟨⟨_, i⟩, hx, rfl⟩ := List.mem_map.mp hn
        exact ⟨i, hx⟩
      refine ⟨fun n hn => ?_, fun n hn => ?_, fun n hn => ?_⟩ <;> obtain ⟨i, hx⟩ := hall n hn
      · exact (h _ hx).1
      · exact (h _ hx).2.1
      · exact (h _ hx).2.2
    · have hn : x.1 ∈ net.neurons := by
        rw [← Array.mem_toList_iff, ← List.zipIdx_map_fst 0 net.neurons.toList]
        exact List.mem_map_of_mem hx
      exact ⟨h.signed _ hn, h.lt _ hn, h.few _ hn⟩
  simp only [ofNet, Result.bind_eq_ok_iff, hmap, Result.pure_eq_ok, Except.ok.injEq]
  constructor
  · rintro ⟨_, ⟨hr, rfl⟩, rfl⟩
    exact ⟨hr, rfl⟩
  · rintro ⟨hr, rfl⟩
    exact ⟨_, ⟨hr, rfl⟩, rfl⟩

/-- If all references are words that name external inputs or neurons of the net, then a frontier is
refused only for a neuron that reads too many. -/
theorem failsIn_ofNet {net : Net}
    (hsigned : ∀ n ∈ net.neurons, ∀ ref ∈ n.references, Word.IsSigned ref)
    (hlt : ∀ n ∈ net.neurons, ∀ j ∈ n.neuronInputs, j < net.neuronCount) :
    Result.FailsIn (fun e => ∃ i, e = .error (.invalidState (.tooManyInputs i))) (ofNet net) := by
  refine (Result.failsIn_mapM fun (n, i) hx => ?_).bind fun reads => Result.failsIn_pure _
  have hn : n ∈ net.neurons := Array.mem_toList_iff.mp (List.fst_mem_of_mem_zipIdx hx)
  change Result.FailsIn _ (readsOf net i n)
  rw [readsOf, Runs.foldlM_of_signed _ _ (hsigned _ hn)]
  refine (Result.failsIn_foldlM (fun reads ref href => ?_) _).bind fun _ => Result.failsIn_pure _
  unfold addRead
  cases hin : Ref.isInput ref with
  | true => exact Result.failsIn_pure _
  | false =>
    have hcheck : checkIndex .neuron ref.toNat net.neuronCount = .ok () :=
      checkIndex_eq_ok_iff.mpr (hlt _ hn _ (Neuron.mem_neuronInputs.mpr ⟨ref, href, hin, rfl⟩))
    rw [hcheck]
    by_cases hmany : maxReferences ≤ reads.1
    · simp [hmany]
    · simp [hmany]

/-- In the first frontier no neuron is processed. -/
theorem isDone_initial (net : Net) (i : Nat) : (initial net).isDone i = false := by
  simp only [isDone, initial, Array.getElem?_replicate]
  split <;> rfl

/-- **The first frontier** is sound. -/
theorem sound_initial {net : Net} (h : net.Readable) : (initial net).Sound := by
  have hwait : ∀ (i : Nat) s, (initial net).status[i]? = some s → s = .waiting 0 := by
    intro i s hs
    simp only [initial, Array.getElem?_replicate] at hs
    split at hs <;> simp_all
  refine ⟨by simp [initial], fun i => ?_, fun i j hij => ?_, fun i j hj => ?_, ?_, ?_, ?_, ?_, ?_⟩
  · simp [readsAt, initial, Net.inputsOf]
  · change net.Reads i j at hij
    have hi : i < net.neurons.size := hij.lt
    change j ∈ net.inputsOf i at hij
    rw [Net.inputsOf_eq (Array.getElem?_eq_getElem hi)] at hij
    exact h.lt _ (Array.getElem_mem hi) j hij
  · have hcount := count_foldr_addReader (net.neurons.toList.map Neuron.neuronInputs) 0
      (Array.replicate net.neuronCount []) j i (by rw [Array.size_replicate]; exact hj)
    change ((readersOf net.neuronCount (net.neurons.toList.map Neuron.neuronInputs))[j]?.getD
      []).count i = (net.inputsOf i).count j
    rw [readersOf, hcount]
    have hempty : ((Array.replicate net.neuronCount ([] : List Nat))[j]?.getD []) = [] := by
      simp only [Array.getElem?_replicate]
      split <;> rfl
    simp [hempty, Net.inputsOf]
  · intro i s c hs hc
    rw [hwait i s hs] at hc
    obtain rfl : 0 = c := by simpa [Status.count?] using hc
    exact (List.countP_eq_zero.mpr fun j _ => by simp [isDone_initial]).symm
  · intro i
    constructor
    · simp [initial]
    · rintro ⟨k, c, hi⟩
      simpa using hwait i _ hi
  · intro i k c hi
    simpa using hwait i _ hi
  · exact List.Pairwise.nil
  · exact (List.countP_eq_zero.mpr fun j _ => by simp [isDone_initial]).symm

end Frontier

end NeuralPlan
