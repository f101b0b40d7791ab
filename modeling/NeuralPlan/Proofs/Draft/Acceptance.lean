import NeuralPlan.Proofs.Draft.Solving

/-!
# Which neurons a draft takes in

A call takes its neuron in exactly if the net has the neuron and describes it well, the cell does not
have it yet, and the cell can read all that it references.  Any other call is refused with a report,
before a single table is touched: the checks look at everything that the changes after them read, so
that none of these can fail halfway.

## Main definitions

* `Net.InWords` — the numbers of the net are words.
* `Net.Admits` — the neuron can be taken in after others.

## Main results

* `Net.InWords.takes_iff` — whether a call can take its neuron in, without the words.
* `Draft.failsIn_examine` — the checks fail with reports only.
* `Draft.add_accepts_exactly` — which calls succeed, and that the others leave no trace.
-/

set_option relaxedAutoImplicit false
set_option autoImplicit false

namespace NeuralPlan

/-! ## Nets of words -/

namespace Net

/-- The numbers of the net are words: runs start at signed words and count in signed words, as do
the external inputs, the neurons and the table of weights; and a word counts the references of each
neuron. -/
structure InWords (net : Net) : Prop where
  inputs : net.inputSize < Word.signedLimit
  neurons : net.neuronCount < Word.signedLimit
  weights : net.weights.size < Word.signedLimit
  counts : ∀ n ∈ net.neurons.toList, n.size < Word.limit
  inputRuns : ∀ n ∈ net.neurons.toList, ∀ r ∈ n.inputs.toList,
    Word.IsSigned r.start ∧ r.size < Word.signedLimit
  weightRuns : ∀ n ∈ net.neurons.toList, ∀ r ∈ n.weights.toList,
    Word.IsSigned r.start ∧ r.size < Word.signedLimit

/-- The neuron `n`, the neuron `i` of the net, can be taken in after `taken`: it is not taken in yet;
its bias, its memory filter and its weights are in the table; it has as many weights as references;
and these name external inputs that there are, and neurons that are taken in or available. -/
structure Admits (net : Net) (available : Array Bool) (taken : List Nat) (i : Nat) (n : Neuron) :
    Prop where
  neuron : net.neurons[i]? = some n
  fresh : i ∉ taken
  bias : n.bias < net.weights.size
  memoryFilter : n.memoryFilter < net.weights.size
  weights : ∀ pos ∈ Runs.indices n.weights.toList, Word.toUnsigned pos < net.weights.size
  count : (Runs.indices n.weights.toList).length = n.references.length
  inputs : ∀ ref ∈ n.references, Ref.isInput ref = true → (-(ref + 1)).toNat < net.inputSize
  neurons : ∀ j ∈ n.neuronInputs, j < net.neuronCount ∧ (j ∈ taken ∨ available[j]? = some true)

variable {net : Net} {available : Array Bool} {taken : List Nat} {i : Nat} {n : Neuron}

/-- A neuron at a position of the net is one of its neurons. -/
theorem mem_neurons (hn : net.neurons[i]? = some n) : n ∈ net.neurons.toList :=
  Array.mem_toList_iff.mpr (Array.mem_of_getElem? hn)

/-- The references of a neuron are walked in full. -/
theorem InWords.length_references (h : net.InWords) (hn : n ∈ net.neurons.toList) :
    n.references.length = n.size :=
  Runs.length_indices_eq fun r hr => (h.inputRuns n hn r hr).2

/-- What names an entry of the table of weights is a word with neighbours. -/
theorem InWords.isInner_of_weight (h : net.InWords) {pos : Int} (hpos : Word.IsSigned pos)
    (hlt : Word.toUnsigned pos < net.weights.size) : Word.IsInner pos :=
  Word.isInner_of_toUnsigned_lt hpos hlt h.weights

/-- **Whether a call can take its neuron in** can be told without the words, if the numbers of the
net are words. -/
theorem InWords.takes_iff (h : net.InWords) :
    net.Takes available taken i ↔ ∃ n, net.Admits available taken i n := by
  constructor
  · rintro ⟨hfresh, n, hn, hwell, hsize, hread⟩
    have hmem := mem_neurons hn
    refine ⟨n, hn, hfresh, hwell.bias, hwell.memoryFilter, fun pos hpos => (hwell.weights pos hpos).2,
      ?_, fun ref href hin => ?_, fun j hj => ⟨hwell.neuronInputs_lt hj, hread j hj⟩⟩
    · rw [hwell.count, h.length_references hmem]
    · simpa only [hin, if_true] using hwell.references ref href
  · rintro ⟨n, hadmits⟩
    have hmem := mem_neurons hadmits.neuron
    have hsigned := Runs.signed_of_inner (fun r hr => (h.weightRuns n hmem r hr).1)
      fun pos hpos hword => h.isInner_of_weight hword (hadmits.weights pos hpos)
    refine ⟨hadmits.fresh, n, hadmits.neuron, ⟨hadmits.bias, hadmits.memoryFilter,
      fun pos hpos => ⟨hsigned pos hpos, hadmits.weights pos hpos⟩, ?_, fun ref href => ?_⟩,
      h.counts n hmem, fun j hj => (hadmits.neurons j hj).2⟩
    · rw [hadmits.count, h.length_references hmem]
    · cases hin : Ref.isInput ref with
      | true => simpa using hadmits.inputs ref href hin
      | false =>
        have hread := Neuron.mem_neuronInputs.mpr ⟨ref, href, hin, rfl⟩
        simpa using (hadmits.neurons _ hread).1

end Net

namespace Draft

variable {net : Net} {available : Array Bool} {d : Draft} {taken calls : List Nat} {i : Nat}

/-! ## Refusals -/

/-- The look-up of a weight fails with a report. -/
theorem failsIn_weightAs (net : Net) (kind : IndexKind) (j : Nat) :
    Result.FailsIn Failure.IsReport (net.weightAs kind j) := by
  unfold Net.weightAs
  split
  · exact Result.failsIn_ok _
  · exact Result.failsIn_fail.mpr ⟨_, rfl⟩

/-- The check of an index fails with a report. -/
theorem failsIn_checkIndex (kind : IndexKind) (index length : Nat) :
    Result.FailsIn Failure.IsReport (checkIndex kind index length) := by
  unfold checkIndex
  split
  · exact Result.failsIn_ok ()
  · exact Result.failsIn_fail.mpr ⟨_, rfl⟩

/-- The check of a reference fails with a report. -/
theorem failsIn_checkReference (d : Draft) (i : Nat) (ref : Int) :
    Result.FailsIn Failure.IsReport (d.checkReference i ref) := by
  unfold checkReference
  split
  next hin =>
    rw [Ref.toInput, if_pos hin]
    exact failsIn_checkIndex _ _ _
  next hin =>
    refine (failsIn_checkIndex _ _ _).bind fun _ => ?_
    split
    · exact Result.failsIn_pure ()
    · exact Result.failsIn_fail.mpr ⟨_, rfl⟩

/-- What the cell can read is named by a word with neighbours. -/
theorem isInner_of_canName (hwords : d.net.InWords) {ref : Int} (h : d.CanName ref) :
    Word.IsInner ref := by
  refine isInner_of_names hwords.inputs hwords.neurons ?_
  unfold CanName at h
  split at h
  next hin => rwa [if_pos hin]
  next hin => rw [if_neg hin]; exact h.1

/-- The weights of a neuron are found, or a report says that one is not there: a walk that has gone
on to the last word of either sign has named no entry of the table. -/
theorem failsIn_collectWeights (hwords : net.InWords) {n : Neuron} (hn : n ∈ net.neurons.toList) :
    Result.FailsIn Failure.IsReport (collectWeights net n.weights.toList) := by
  refine Runs.failsIn_foldlM_of_start (Q := fun _ _ => True)
    (fun ws pos _ _ _ => (failsIn_weightAs net _ _).bind fun w => Result.failsIn_pure _)
    (fun ws pos _ ws' hpos _ hstep => ⟨?_, trivial⟩) trivial
    fun r hr => (hwords.weightRuns n hn r hr).1
  obtain ⟨w, hw, -⟩ := Result.bind_eq_ok_iff.mp hstep
  exact hwords.isInner_of_weight hpos (Net.weightAs_eq_ok_iff.mp hw).1

/-- **The checks fail with reports only**, if the numbers of the net are words. -/
theorem failsIn_examine (hwords : d.net.InWords) (i : Nat) :
    Result.FailsIn Failure.IsReport (d.examine i) := by
  unfold examine
  cases hneuron : d.net.neuron i with
  | error e =>
    unfold Net.neuron at hneuron
    split at hneuron
    · cases hneuron
    · exact fun e' he => ⟨_, (Except.error.inj he).symm.trans (Except.error.inj hneuron).symm⟩
  | ok n =>
    have hn := Net.mem_neurons (Net.neuron_eq_ok_iff.mp hneuron)
    have hcount : n.inputCount = .ok n.size :=
      Neuron.inputCount_eq_ok_iff.mpr ⟨hwords.counts n hn, rfl⟩
    have hrefs : Result.FailsIn Failure.IsReport
        (Runs.foldlM (fun _ ref => d.checkReference i ref) () n.inputs.toList) :=
      Runs.failsIn_foldlM_of_start (Q := fun _ _ => True)
        (fun _ ref _ _ _ => d.failsIn_checkReference i ref)
        (fun _ ref _ _ _ _ hstep =>
          ⟨isInner_of_canName hwords (checkReference_eq_ok_iff.mp hstep), trivial⟩)
        trivial fun r hr => (hwords.inputRuns n hn r hr).1
    simp only [Result.ok_bind, hcount]
    split
    · exact Result.failsIn_fail.mpr ⟨_, rfl⟩
    · refine (failsIn_weightAs _ _ _).bind fun bias => (failsIn_weightAs _ _ _).bind fun filter =>
        (failsIn_collectWeights hwords hn).bind fun weights => ?_
      split
      · exact Result.failsIn_fail.mpr ⟨_, rfl⟩
      · exact hrefs.bind fun _ => Result.failsIn_pure _

/-- A call whose checks fail is refused with their report. -/
theorem add_of_examine_eq_error {e : Failure} (h : d.examine i = .error e) :
    d.add i = (d, .error e) := by
  unfold add
  rw [h]

/-- A neuron that is accepted reads only what the cell can read. -/
theorem Accepts.canResolve {n : Neuron} (h : d.Accepts i n) : d.canResolve i = .ok true := by
  rw [canResolve_eq h.neuron fun ref href => (h.references ref href).1,
    List.all_eq_true.mpr h.canRead]

/-! ## Any calls, and one more -/

/-- **A call takes its neuron in exactly if** the neuron is one of the net that is not in the cell
yet, its bias, its memory filter and its weights are in the table, it has as many weights as
references, and these name external inputs that there are, and neurons of the net that are in the
cell or available: this whatever calls came before, failing ones included.  All inputs of such a
neuron can be resolved.  Any other call is refused with a report and leaves the draft as it is, with
all its tables, so that later calls go on as if it had not been made.

All that is asked besides is that the numbers of the net are words, and that a signed word counts the
table of weights that the call leaves.

**Proof sketch.** What the checks ask is what `Net.Admits` says, for the parts of the draft are the
neurons taken in.  If they pass, there are no more failures: all that the call still looks up was
looked up by the checks, and no table is full.  If they do not, nothing was changed, and no walk has
left the words before the report. -/
theorem add_accepts_exactly (hwords : net.InWords)
    (hcalls : (start net available).addAll calls = (d, taken))
    (hroom : (d.add i).1.cell.weights.size < Word.signedLimit) :
    ((d.add i).2 = .ok () ↔ ∃ n, net.Admits available taken i n) ∧
    ((d.add i).2 = .ok () → d.canResolve i = .ok true) ∧
    ∀ e, (d.add i).2 = .error e →
      e.IsReport ∧ (d.add i).1 = d ∧
      ∀ later, (start net available).addAll (calls ++ i :: later) =
        (start net available).addAll (calls ++ later) := by
  have hgrows : d.cell.weights.size ≤ (d.add i).1.cell.weights.size := by
    have hle := (size_weights_call (d, taken) i).1
    rwa [call_fst] at hle
  have hsize : ((start net available).addAll calls).1.cell.weights.size < Word.signedLimit := by
    rw [hcalls]
    exact hgrows.trans_lt hroom
  obtain ⟨⟨parts, slots, htook⟩, -⟩ := took_addAll hwords.inputs hwords.neurons hsize
  rw [hcalls] at htook
  have hadmits : (∃ n, net.Admits available taken i n) ↔ ∃ n, d.Accepts i n :=
    hwords.takes_iff.symm.trans (htook.takes_iff hwords.inputs hwords.neurons)
  have hok : (d.add i).2 = .ok () ↔ ∃ n, d.Accepts i n := by
    constructor
    · exact fun h => accepts_of_add (Prod.ext rfl h)
    · rintro ⟨n, haccepts⟩
      rw [size_weights_add haccepts] at hroom
      obtain ⟨d', hadd⟩ := htook.add_isOk hwords.inputs hwords.neurons haccepts hroom
      rw [hadd]
  refine ⟨hok.trans hadmits.symm, fun h => ?_, fun e he => ?_⟩
  · obtain ⟨n, haccepts⟩ := hok.mp h
    exact haccepts.canResolve
  · cases hexamine : d.examine i with
    | ok x =>
      obtain ⟨n, haccepts, -⟩ := examine_eq_ok_iff.mp hexamine
      rw [hok.mpr ⟨n, haccepts⟩] at he
      cases he
    | error e' =>
      have hadd := add_of_examine_eq_error hexamine
      have hnet : d.net.InWords := htook.netEq.symm ▸ hwords
      rw [hadd] at he ⊢
      refine ⟨Except.error.inj he ▸ failsIn_examine hnet i e' hexamine, rfl, fun later => ?_⟩
      have hcall : call (d, taken) i = (d, taken) := by
        simp [call, hadd]
      unfold addAll at hcalls ⊢
      rw [List.foldl_append, List.foldl_append, hcalls, List.foldl_cons, hcall]

/-- After four calls of the braid, of which two have taken their neurons in, the last neuron can be
taken in, as it reads just these two; another call for the first one is refused without a trace. -/
theorem add_accepts_exactly_braid :
    ∃ d, (start braid #[true]).addAll [2, 1, 7, 0] = (d, [1, 0]) ∧
      (d.add 2).2 = .ok () ∧ d.canResolve 2 = .ok true ∧
      (d.add 0).1 = d ∧ (∃ report, (d.add 0).2 = fail report) := by
  have hwords : braid.InWords :=
    ⟨by decide, by decide, by decide, by decide, by decide, by decide⟩
  have hroom : ∀ calls, (calls.map braid.placesOf).sum < Word.signedLimit →
      ((start braid #[true]).addAll calls).1.cell.weights.size < Word.signedLimit :=
    fun calls hfew => (size_weights_addAll_le braid #[true] calls).trans_lt hfew
  have htaken : ((start braid #[true]).addAll [2, 1, 7, 0]).2 = _ :=
    snd_addAll hwords.inputs hwords.neurons (by decide)
  have htwo : braid.takenOf #[true] [] [2, 1, 7, 0] = [1, 0] := by decide
  have hcalls : (start braid #[true]).addAll [2, 1, 7, 0] =
      (((start braid #[true]).addAll [2, 1, 7, 0]).1, [1, 0]) := Prod.ext rfl (htaken.trans htwo)
  generalize ((start braid #[true]).addAll [2, 1, 7, 0]).1 = d at hcalls
  have hnext : ∀ i, (([2, 1, 7, 0] ++ [i]).map braid.placesOf).sum < Word.signedLimit →
      (d.add i).1.cell.weights.size < Word.signedLimit := by
    intro i hfew
    have hlast := hroom ([2, 1, 7, 0] ++ [i]) hfew
    rwa [addAll_concat, hcalls, call_fst] at hlast
  obtain ⟨hiff, hresolve, -⟩ := add_accepts_exactly hwords hcalls (hnext 2 (by decide))
  obtain ⟨hiff', -, hrefused⟩ := add_accepts_exactly hwords hcalls (hnext 0 (by decide))
  have hadded : (d.add 2).2 = .ok () := hiff.mpr
    ⟨_, rfl, by decide, by decide, by decide, by decide, by decide, by decide, by decide⟩
  refine ⟨d, hcalls, hadded, hresolve hadded, ?_⟩
  cases hanswer : (d.add 0).2 with
  | ok =>
    obtain ⟨n, hadmits⟩ := hiff'.mp hanswer
    exact absurd hadmits.fresh (by decide)
  | error e =>
    obtain ⟨⟨report, rfl⟩, hsame, -⟩ := hrefused e hanswer
    exact ⟨hsame, report, rfl⟩

end Draft

end NeuralPlan
