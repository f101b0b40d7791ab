import NeuralPlan.Proofs.Cell.Solving

/-!
# What a cell reads

A cell may come from outside, with any tables.  If it is solved, then its tables were good for
that: what they say of a local position determines the value of its neuron, and all that the cell
has read from outside are external inputs and committed neurons.

## Main definitions

* `Cell.terms` — the weights and the sources of a local position, side by side.
* `Cell.valueFrom?` — the value of a local position, from the values of its sources.
* `Cell.readLocal` — the value of a source while the cell is solved.
* `Cell.SolvedTo` — the local positions that are solved.

## Main results

* `Cell.valueFrom?_mono` — the value of a local position depends on the values of its sources.
* `Cell.SolvedTo.solveNext` — one local position more is solved.
* `Cell.solve_eq_ok` — what a cell that is solved has read, and its results.
-/

set_option relaxedAutoImplicit false
set_option autoImplicit false

namespace NeuralPlan

/-! ## What the tables say of a local position -/

namespace Cell

/-- The runs that belong to the local position `k`, if each position has as many as it counts. -/
def share (runs : Array Run) (counts : Array Nat) (k : Nat) : List Run :=
  (runs.toList.drop (counts.toList.take k).sum).take (counts.getD k 0)

/-- The positions of the weights and the sources of the local position `k`, side by side. -/
def terms (c : Cell) (k : Nat) : List (Int × Int) :=
  (Runs.indices (share c.weightRuns c.weightRunCounts k)).zip
    (Runs.indices (share c.sourceRuns c.sourceRunCounts k))

/-- One more product of a weighted sum, from the values of the sources. -/
def addTerm (c : Cell) (read : Int → Option Float) (sum : Float) (term : Int × Int) :
    Option Float := do
  return sum + (← c.weights[Word.toUnsigned term.1]?) * (← read term.2)

/-- The value of the local position `k`, from the values of its sources and the previous value of
its neuron: its weighted sum is added up from zero in the order of its terms. -/
def valueFrom? (c : Cell) (read : Int → Option Float) (k : Nat) (previous : Float) :
    Option Float := do
  let sum ← (c.terms k).foldlM (c.addTerm read) 0.0
  let bias ← c.weights[← c.biases[k]?]?
  let filter ← c.weights[← c.memoryFilters[k]?]?
  return filter * previous + (1.0 - filter) * (← c.activations[k]?).apply (sum + bias)

/-- The value of a source of the local position `k`: of a slot, or of an earlier position. -/
def readLocal (filled results : Array Float) (k : Nat) (source : Int) : Option Float :=
  if Ref.isInput source then filled[(-(source + 1)).toNat]?
  else if source.toNat < k then results[source.toNat]? else none

variable {c : Cell}

/-- **The value of a local position** stays the same where all sources that have a value keep it. -/
theorem valueFrom?_mono {read read' : Int → Option Float}
    (hread : ∀ s x, read s = some x → read' s = some x) {k : Nat} {previous value : Float}
    (h : c.valueFrom? read k previous = some value) :
    c.valueFrom? read' k previous = some value := by
  have hfold : ∀ (terms : List (Int × Int)) (start sum : Float),
      terms.foldlM (c.addTerm read) start = some sum →
        terms.foldlM (c.addTerm read') start = some sum := by
    intro terms
    induction terms with
    | nil => exact fun _ _ hsum => hsum
    | cons term terms ih =>
      intro start sum hsum
      simp only [List.foldlM_cons, addTerm, Option.bind_eq_bind, Option.bind_eq_some_iff,
        Option.pure_def, Option.some.injEq] at hsum ⊢
      obtain ⟨next, ⟨w, hw, x, hx, hnext⟩, hrest⟩ := hsum
      exact ⟨next, ⟨w, hw, x, hread _ x hx, hnext⟩, ih next sum hrest⟩
  simp only [valueFrom?, Option.bind_eq_bind, Option.bind_eq_some_iff] at h ⊢
  obtain ⟨sum, hsum, hrest⟩ := h
  exact ⟨sum, hfold _ _ sum hsum, hrest⟩

/-- Sources of a position keep their values while later positions are solved. -/
theorem readLocal_push {filled results : Array Float} {k : Nat} (hk : k ≤ results.size)
    (value : Float) {s : Int} {x : Float} (h : readLocal filled results k s = some x) :
    readLocal filled (results.push value) k s = some x := by
  unfold readLocal at h ⊢
  split
  next hin => rwa [if_pos hin] at h
  next hin =>
    rw [if_neg hin] at h
    split
    next hlt =>
      rw [if_pos hlt] at h
      rwa [Array.getElem?_push_lt (by omega), ← Array.getElem?_eq_getElem]
    next hlt => rwa [if_neg hlt] at h

/-- The value of a position stays the same while later positions are solved. -/
theorem valueFrom?_push {filled results : Array Float} {k : Nat} (hk : k ≤ results.size)
    (result : Float) {previous value : Float}
    (h : c.valueFrom? (readLocal filled results k) k previous = some value) :
    c.valueFrom? (readLocal filled (results.push result) k) k previous = some value :=
  valueFrom?_mono (fun _ _ => readLocal_push hk result) h

/-! ## What is looked up -/

/-- The runs that are taken for a local position. -/
theorem runsFrom_eq_ok {runs : Array Run} {start count : Nat} {l : List Run}
    (h : runsFrom runs start count = .ok l) : l = (runs.toList.drop start).take count := by
  unfold runsFrom at h
  split at h
  next => cases h
  next =>
    split at h
    next => cases h
    next =>
      rw [← Except.ok.inj h, Array.toList_extract, List.extract_eq_take_drop,
        Nat.add_sub_cancel_left]

/-- The runs that belong to a local position are as many as it counts. -/
theorem share_eq_take {runs : Array Run} {counts : Array Nat} {k count : Nat}
    (h : counts.toList[k]? = some count) :
    share runs counts k = (runs.toList.drop (counts.toList.take k).sum).take count := by
  rw [share, Array.getD_eq_getD_getElem?, ← Array.getElem?_toList, h, Option.getD_some]

/-- A weight that is looked up is one of the table. -/
theorem weightAs_eq_ok {kind : IndexKind} {i : Nat} {x : Float}
    (h : c.weightAs kind i = .ok x) : c.weights[i]? = some x := by
  unfold weightAs at h
  split at h
  next hi => rw [Array.getElem?_eq_getElem hi, Except.ok.inj h]
  next => cases h

/-- A source that has a value is a slot or an earlier position. -/
theorem sourceValue_eq_ok {filled results : Array Float} {s : Int} {x : Float}
    (h : sourceValue filled results s = .ok x) :
    readLocal filled results results.size s = some x := by
  unfold sourceValue at h
  unfold readLocal
  cases hin : Ref.isInput s with
  | true =>
    simp only [hin, if_true, Ref.toInput, Result.ok_bind] at h ⊢
    split at h
    next hlt => rw [Array.getElem?_eq_getElem hlt, Except.ok.inj h]
    next => cases h
  | false =>
    simp only [hin, Bool.false_eq_true, if_false] at h ⊢
    split at h
    next hlt => rw [if_pos hlt, Array.getElem?_eq_getElem hlt, Except.ok.inj h]
    next => cases h

/-- A product that is added is a term. -/
theorem addProduct_eq_ok {filled results : Array Float} {sum next : Float} {term : Int × Int}
    (h : c.addProduct filled results sum term.1 term.2 = .ok next) :
    c.addTerm (readLocal filled results results.size) sum term = some next := by
  simp only [addProduct, Result.bind_eq_ok_iff, Result.pure_eq_ok, Except.ok.injEq] at h
  obtain ⟨w, hw, x, hx, rfl⟩ := h
  simp [addTerm, weightAs_eq_ok hw, sourceValue_eq_ok hx]

/-- The value that is computed for a local position is the one that its tables ask for. -/
theorem value_eq_ok {env : Surroundings} {filled results : Array Float} {index : Nat}
    {entry : Entry} {weights sources : List Run} {value : Float}
    (hentry : c.activations[results.size]? = some entry.activation ∧
      c.biases[results.size]? = some entry.bias ∧
      c.memoryFilters[results.size]? = some entry.memoryFilter)
    (hterms : c.terms results.size = (Runs.indices weights).zip (Runs.indices sources))
    (h : c.value env filled results index entry weights sources = .ok value) :
    ∃ previous, env.values[index]? = some previous ∧
      c.valueFrom? (readLocal filled results results.size) results.size previous =
        some value := by
  obtain ⟨hactivation, hbiases, hfilters⟩ := hentry
  simp only [Cell.value, Result.bind_eq_ok_iff] at h
  obtain ⟨sum, hsum, bias, hbias, filter, hfilter, h⟩ := h
  split at h
  next hindex =>
    obtain rfl := Except.ok.inj h
    refine ⟨_, Array.getElem?_eq_getElem hindex, ?_⟩
    simp only [weightedSum, Result.bind_eq_ok_iff] at hsum
    obtain ⟨weightCount, -, sourceCount, -, hsum⟩ := hsum
    split at hsum
    next =>
      have hfold := Runs.zipFoldlM_eq_ok hsum
      rw [← hterms] at hfold
      have hadd := Result.foldlM_eq_some (fun _ _ _ => addProduct_eq_ok) hfold
      simp [valueFrom?, blend, hadd, hbiases, hfilters, hactivation, weightAs_eq_ok hbias,
        weightAs_eq_ok hfilter]
    next => cases hsum
  next => cases h

/-- What the entry of a local position says is what the tables say. -/
theorem getElem?_zipEntries {fs : List Activation} {bs ms ws ss : List Nat} {k : Nat} {e : Entry}
    (h : (zipEntries fs bs ms ws ss)[k]? = some e) :
    fs[k]? = some e.activation ∧ bs[k]? = some e.bias ∧ ms[k]? = some e.memoryFilter ∧
      ws[k]? = some e.weightRunCount ∧ ss[k]? = some e.sourceRunCount := by
  induction fs, bs, ms, ws, ss using zipEntries.induct generalizing k with
  | case1 f fs b bs m ms w ws s ss ih =>
    cases k with
    | zero =>
      obtain rfl := Option.some.inj h
      exact ⟨rfl, rfl, rfl, rfl, rfl⟩
    | succ k => exact ih h
  | case2 fs bs ms ws ss hnil =>
    rw [zipEntries] at h
    · cases h
    · exact hnil

/-- Tables of one length have as many entries. -/
theorem length_zipEntries {fs : List Activation} {bs ms ws ss : List Nat}
    (hb : bs.length = fs.length) (hm : ms.length = fs.length) (hw : ws.length = fs.length)
    (hs : ss.length = fs.length) : (zipEntries fs bs ms ws ss).length = fs.length := by
  induction fs generalizing bs ms ws ss with
  | nil => rfl
  | cons f fs ih =>
    obtain ⟨b, bs, rfl⟩ := List.exists_cons_of_length_eq_add_one hb
    obtain ⟨m, ms, rfl⟩ := List.exists_cons_of_length_eq_add_one hm
    obtain ⟨w, ws, rfl⟩ := List.exists_cons_of_length_eq_add_one hw
    obtain ⟨s, ss, rfl⟩ := List.exists_cons_of_length_eq_add_one hs
    simp only [List.length_cons, Nat.add_right_cancel_iff] at hb hm hw hs
    rw [zipEntries, List.length_cons, List.length_cons, ih hb hm hw hs]

end Cell

/-! ## Slots -/

/-- A reference is given a value exactly if it may be read, and then the value that it names. -/
theorem Surroundings.valueOf_eq_ok_iff {env : Surroundings} {ref : Int} {x : Float} :
    env.valueOf ref = .ok x ↔ env.CanRead ref ∧ x = Ref.lookup env.input env.values ref := by
  constructor
  · intro h
    have hread : env.CanRead ref := by
      unfold valueOf at h
      unfold CanRead
      cases hin : Ref.isInput ref with
      | true =>
        simp only [hin, if_true, Ref.toInput, Result.ok_bind, inputAt] at h ⊢
        split at h
        next hlt => exact hlt
        next => cases h
      | false =>
        simp only [hin, Bool.false_eq_true, if_false, committedAt] at h ⊢
        split at h
        next value hvalue hcommitted =>
          exact ⟨(Array.getElem?_eq_some_iff.mp hvalue).1, hcommitted⟩
        next => cases h
    rw [valueOf_eq hread] at h
    exact ⟨hread, (Except.ok.inj h).symm⟩
  · rintro ⟨hread, rfl⟩
    exact valueOf_eq hread

namespace Cell

variable {c : Cell} {env : Surroundings}

/-- The values of the slots, if they are all there. -/
def slotValues (c : Cell) (env : Surroundings) : Array Float :=
  ((Runs.indices c.slots.toList).map (Ref.lookup env.input env.values)).toArray

/-- The slots are filled only if all that they name may be read. -/
theorem fill_eq_ok {filled : Array Float} (h : c.fill env = .ok filled) :
    (∀ ref ∈ Runs.indices c.slots.toList, env.CanRead ref) ∧ filled = c.slotValues env := by
  obtain ⟨-, hfold⟩ := Runs.foldlM_eq_ok_iff.mp h
  obtain ⟨hread, hfilled⟩ :=
    (Result.foldlM_push_eq_ok_iff fun _ _ => Surroundings.valueOf_eq_ok_iff).mp hfold
  exact ⟨hread, by rw [hfilled, Array.empty_append]; rfl⟩

/-! ## One local position after another -/

/-- The first `k` local positions are solved: the tables are used up as far as they belong to these,
and every result is the value that the tables ask for. -/
structure SolvedTo (c : Cell) (env : Surroundings) (filled : Array Float) (k : Nat)
    (p : Progress) : Prop where
  ahead : p.ahead = c.entries.drop k
  weightRuns : p.weightRunStart = (c.weightRunCounts.toList.take k).sum
  sourceRuns : p.sourceRunStart = (c.sourceRunCounts.toList.take k).sum
  size : p.results.size = k
  solved : ∀ q i, q < k → c.members[q]? = some i → ∃ previous value,
    env.values[i]? = some previous ∧
      c.valueFrom? (readLocal filled p.results q) q previous = some value ∧
      p.results[q]? = some value

variable {filled : Array Float} {k : Nat} {p p' : Progress}

/-- The entry ahead is that of the next local position. -/
theorem SolvedTo.ahead_eq (h : c.SolvedTo env filled k p) (hk : k < c.entries.length) :
    p.ahead = c.entries[k] :: c.entries.drop (k + 1) := by
  rw [h.ahead, List.drop_eq_getElem_cons hk]

/-- The runs of weights that are taken for the next local position belong to it. -/
theorem SolvedTo.weights_eq (h : c.SolvedTo env filled k p) (hk : k < c.entries.length)
    {weights : List Run}
    (hweights : runsFrom c.weightRuns p.weightRunStart c.entries[k].weightRunCount = .ok weights) :
    weights = share c.weightRuns c.weightRunCounts k := by
  obtain ⟨-, -, -, hw, -⟩ := getElem?_zipEntries (List.getElem?_eq_getElem hk)
  rw [runsFrom_eq_ok hweights, h.weightRuns, share_eq_take hw]

/-- The runs of sources that are taken for the next local position belong to it. -/
theorem SolvedTo.sources_eq (h : c.SolvedTo env filled k p) (hk : k < c.entries.length)
    {sources : List Run}
    (hsources : runsFrom c.sourceRuns p.sourceRunStart c.entries[k].sourceRunCount = .ok sources) :
    sources = share c.sourceRuns c.sourceRunCounts k := by
  obtain ⟨-, -, -, -, hs⟩ := getElem?_zipEntries (List.getElem?_eq_getElem hk)
  rw [runsFrom_eq_ok hsources, h.sourceRuns, share_eq_take hs]

/-- **One local position more is solved.** -/
theorem SolvedTo.solveNext (h : c.SolvedTo env filled k p) (hk : k < c.entries.length) {ref : Int}
    (hmember : c.members[k]? = some (Word.toUnsigned ref))
    (hnext : c.solveNext env filled p ref = .ok p') : c.SolvedTo env filled (k + 1) p' := by
  have hentry : c.entries[k]? = some c.entries[k] := List.getElem?_eq_getElem hk
  obtain ⟨hf, hb, hm, hw, hs⟩ := getElem?_zipEntries hentry
  rw [Array.getElem?_toList] at hf hb hm
  simp only [Cell.solveNext, h.ahead_eq hk, Result.bind_eq_ok_iff, Result.pure_eq_ok,
    Except.ok.injEq] at hnext
  obtain ⟨weights, hweights, sources, hsources, value, hvalue, rfl⟩ := hnext
  have hterms : c.terms p.results.size = (Runs.indices weights).zip (Runs.indices sources) := by
    rw [h.weights_eq hk hweights, h.sources_eq hk hsources, h.size, terms]
  obtain ⟨previous, hprevious, hvalue⟩ :=
    value_eq_ok (by rw [h.size]; exact ⟨hf, hb, hm⟩) hterms hvalue
  rw [h.size] at hvalue
  refine ⟨rfl, ?_, ?_, ?_, fun q i hq hi => ?_⟩
  · show p.weightRunStart + _ = _
    rw [h.weightRuns, List.take_add_one, hw]
    simp
  · show p.sourceRunStart + _ = _
    rw [h.sourceRuns, List.take_add_one, hs]
    simp
  · simp [h.size]
  · rcases Nat.lt_succ_iff_lt_or_eq.mp hq with hq | rfl
    · obtain ⟨earlier, result, hearlier, heq, hresult⟩ := h.solved q i hq hi
      have hlt : q < p.results.size := h.size.symm ▸ hq
      refine ⟨earlier, result, hearlier, valueFrom?_push hlt.le value heq, ?_⟩
      rwa [Array.getElem?_push_lt hlt, ← Array.getElem?_eq_getElem]
    · obtain rfl := Option.some.inj (hmember.symm.trans hi)
      refine ⟨previous, value, hprevious, valueFrom?_push h.size.ge value hvalue, ?_⟩
      show (p.results.push value)[q]? = _
      rw [← h.size, Array.getElem?_push_size]

/-- All local positions are solved, one after another. -/
theorem SolvedTo.foldlM (hentries : (Runs.indices c.outputs.toList).length ≤ c.entries.length)
    {before refs : List Int} (hrefs : Runs.indices c.outputs.toList = before ++ refs)
    (h : c.SolvedTo env filled before.length p)
    (hfold : refs.foldlM (c.solveNext env filled) p = .ok p') :
    c.SolvedTo env filled c.members.length p' := by
  induction refs generalizing before p with
  | nil =>
    obtain rfl := Except.ok.inj hfold
    rw [List.append_nil] at hrefs
    rwa [members, List.length_map, hrefs]
  | cons ref refs ih =>
    obtain ⟨p₁, hnext, hrest⟩ := Result.bind_eq_ok_iff.mp hfold
    have hlt : before.length < c.entries.length := by
      rw [hrefs, List.length_append, List.length_cons] at hentries
      omega
    have hmember : c.members[before.length]? = some (Word.toUnsigned ref) := by
      simp [members, hrefs]
    have hrefs' : Runs.indices c.outputs.toList = (before ++ [ref]) ++ refs := by
      simpa using hrefs
    have hsolved : c.SolvedTo env filled (before ++ [ref]).length p₁ := by
      simpa using h.solveNext hlt hmember hnext
    exact ih hrefs' hsolved hrest

/-! ## Cells that are solved -/

/-- The tables have one entry per local position, if the check of the tables passes. -/
theorem checkTables_eq_ok (h : c.checkTables = .ok ()) :
    c.entries.length = c.neuronCount ∧
      (Runs.indices c.outputs.toList).length ≤ c.neuronCount := by
  have hone : ∀ {table : Table} {entries : Nat} {u : Unit},
      c.checkTable table entries = .ok u → entries = c.neuronCount := by
    intro table entries u hcheck
    unfold checkTable at hcheck
    split at hcheck
    next heq => exact heq
    next => cases hcheck
  simp only [checkTables, Result.bind_eq_ok_iff] at h
  obtain ⟨outputs, houtputs, _, houts, _, hbiases, _, hfilters, _, hweights, hsources⟩ := h
  obtain ⟨-, rfl⟩ := Runs.size_eq_ok_iff.mp houtputs
  constructor
  · exact length_zipEntries (hone hbiases) (hone hfilters) (hone hweights) (hone hsources)
  · rw [← hone houts, Runs.length_indices, Runs.length, Word.total_eq_sum]
    apply List.sum_le_sum
    intro r _
    unfold Run.length
    split <;> omega

/-- The cell is solved with these results: all that it reads from outside may be read, its neurons
are there, and every result is the value that the tables ask for. -/
structure IsSolved (c : Cell) (env : Surroundings) (results : Array Float) : Prop where
  reads : ∀ ref ∈ Runs.indices c.slots.toList, env.CanRead ref
  signed : ∀ ref ∈ Runs.indices c.outputs.toList, Word.IsSigned ref
  size : results.size = c.members.length
  solved : ∀ k i, c.members[k]? = some i → ∃ previous value,
    env.values[i]? = some previous ∧
      c.valueFrom? (readLocal (c.slotValues env) results k) k previous = some value ∧
      results[k]? = some value

/-- **A cell that is solved** has read what may be read, and its results are the values that its
tables ask for.

**Proof sketch.** Induction on the outputs: the runs of the solved positions are used up, and as the
tables have one entry per position, no output is left without one. -/
theorem solve_eq_ok {results : Array Float} (h : c.solve env = .ok results) :
    c.IsSolved env results := by
  simp only [solve, Result.bind_eq_ok_iff, Result.pure_eq_ok, Except.ok.injEq] at h
  obtain ⟨filled, hfill, _, htables, solved, hfold, rfl⟩ := h
  obtain ⟨hread, rfl⟩ := fill_eq_ok hfill
  obtain ⟨hentries, houtputs⟩ := checkTables_eq_ok htables
  obtain ⟨hsigned, hfold⟩ := Runs.foldlM_eq_ok_iff.mp hfold
  have hstart : c.SolvedTo env (c.slotValues env) ([] : List Int).length
      ⟨c.entries, 0, 0, #[]⟩ := ⟨rfl, rfl, rfl, rfl, fun q i hq => absurd hq (Nat.not_lt_zero q)⟩
  have hall := hstart.foldlM (hentries.symm ▸ houtputs) (List.nil_append _).symm hfold
  refine ⟨hread, hsigned, hall.size, fun k i hk => ?_⟩
  exact hall.solved k i (List.getElem?_eq_some_iff.mp hk).1 hk

end Cell

end NeuralPlan
