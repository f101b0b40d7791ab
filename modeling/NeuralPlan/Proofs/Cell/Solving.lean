import NeuralPlan.Proofs.Cell.Parts
import NeuralPlan.Proofs.Values

/-!
# Solving a cell that holds parts

On a cell whose tables hold parts, the runs and positions of the tables cancel out: solving it
computes the value of one part after another.

## Main definitions

* `Surroundings.CanRead` — a reference has a value that may be read.
* `Part.value`, `Cell.solved` — the value of a part, and those of all parts.

## Main results

* `Cell.Holds.fill_eq` — the values of the slots.
* `Cell.Holds.weightedSum_eq` — the weighted sum of one part.
* `Cell.Holds.solveNext_eq`, `Cell.Holds.foldlM_solveNext_eq` — one part more, and all parts ahead.
* `Cell.Holds.solve_eq` — the values of a cell.
-/

set_option relaxedAutoImplicit false
set_option autoImplicit false

namespace NeuralPlan

/-! ## Slots -/

namespace Surroundings

/-- The reference names an external input that there is, or a committed neuron. -/
def CanRead (env : Surroundings) (ref : Int) : Prop :=
  if Ref.isInput ref then (-(ref + 1)).toNat < env.input.size
  else ref.toNat < env.values.size ∧ env.committed[ref.toNat]? = some true

/-- A reference that may be read has the value that it names. -/
theorem valueOf_eq {env : Surroundings} {ref : Int} (h : env.CanRead ref) :
    env.valueOf ref = .ok (Ref.lookup env.input env.values ref) := by
  unfold CanRead at h
  unfold valueOf Ref.lookup
  cases hin : Ref.isInput ref with
  | true =>
    rw [hin, if_pos rfl] at h
    simp only [Ref.toInput, hin, if_true, Result.ok_bind, inputAt, dif_pos h, Array.getD,
      Array.getInternal_eq_getElem]
  | false =>
    rw [hin, if_neg (by decide)] at h
    simp [committedAt, h.1, h.2, Array.getD]

/-- A reference that may be read has a value. -/
theorem read?_of_canRead {env : Surroundings} {ref : Int} (h : env.CanRead ref) :
    Ref.read? env.input env.values ref = some (Ref.lookup env.input env.values ref) := by
  unfold Surroundings.CanRead at h
  unfold Ref.read? Ref.lookup
  split at h
  next hin => rw [if_pos hin, if_pos hin, Array.getD, dif_pos h, Array.getElem?_eq_getElem h]; rfl
  next hin =>
    rw [if_neg hin, if_neg hin, Array.getD, dif_pos h.1, Array.getElem?_eq_getElem h.1]
    rfl

end Surroundings

/-- The new value of a part, from the previous values of the neurons, the values of the slots and
those of the parts before it. -/
def Part.value (p : Part) (values filled results : Array Float) : Float :=
  p.memoryFilter * values.getD p.index 0.0 + (1.0 - p.memoryFilter) *
    p.activation.apply (weigh p.weights (p.sources.map (Ref.lookup filled results)) + p.bias)

namespace Cell

variable {c : Cell} {parts : List Part} {slots : List Int} {env : Surroundings}

/-- **The slots are filled** with what their references name. -/
theorem Holds.fill_eq (h : c.Holds parts slots)
    (hread : ∀ ref ∈ slots, Word.IsSigned ref ∧ env.CanRead ref) :
    c.fill env = .ok (slots.map (Ref.lookup env.input env.values)).toArray := by
  have hvalue : ∀ ref ∈ slots, ∀ filled : Array Float,
      (do return filled.push (← env.valueOf ref) : Result (Array Float)) =
        .ok (filled.push (Ref.lookup env.input env.values ref)) := by
    intro ref href filled
    rw [Surroundings.valueOf_eq (hread ref href).2]
    rfl
  unfold fill
  rw [Runs.foldlM_of_signed _ _ (by rw [h.slotRuns.1]; exact fun ref href => (hread ref href).1),
    h.slotRuns.1, Result.foldlM_eq_foldl hvalue]
  simp [List.foldl_push_eq_append]

/-- A source that is a slot is looked up as the reference is that the slot holds. -/
theorem lookup_slot {s ref : Int} (hs : s < 0) (hslot : slots[(-(s + 1)).toNat]? = some ref)
    (input values results : Array Float) :
    Ref.lookup (slots.map (Ref.lookup input values)).toArray results s =
      Ref.lookup input values ref := by
  rw [Ref.lookup, Ref.isInput, decide_eq_true hs, if_pos rfl]
  simp only [Array.getD_eq_getD_getElem?, List.getElem?_toArray, List.getElem?_map, hslot,
    Option.map_some, Option.getD_some]

/-! ## One part -/

/-- A source has a value: it names a slot, or a local position that is solved. -/
def HasValue (filled results : Array Float) (s : Int) : Prop :=
  if Ref.isInput s then (-(s + 1)).toNat < filled.size else s.toNat < results.size

/-- A source that has a value is looked up. -/
theorem sourceValue_eq {filled results : Array Float} {s : Int} (h : HasValue filled results s) :
    sourceValue filled results s = .ok (Ref.lookup filled results s) := by
  unfold HasValue at h
  unfold sourceValue Ref.lookup
  cases hin : Ref.isInput s with
  | true =>
    rw [hin, if_pos rfl] at h
    simp only [Ref.toInput, hin, if_true, Result.ok_bind, dif_pos h, Array.getD,
      Array.getInternal_eq_getElem, Result.pure_eq_ok]
  | false =>
    rw [hin, if_neg (by decide)] at h
    simp [h, Array.getD]

/-- A weight of the table. -/
theorem weightAs_eq {kind : IndexKind} {i : Nat} {x : Float} (h : c.weights[i]? = some x) :
    c.weightAs kind i = .ok x := by
  obtain ⟨hi, rfl⟩ := Array.getElem?_eq_some_iff.mp h
  simp [weightAs, hi]

/-- The share of a part in the table of weights. -/
theorem Holds.getElem?_table (h : c.Holds parts slots) {k : Nat} {p : Part}
    (hk : parts[k]? = some p) {j : Nat} (hj : j < p.weights.length + 2) :
    c.weights[p.first + j]? = p.table[j]? := by
  rw [← Array.getElem?_toList, h.weights, flatMap_split Part.table hk, h.first k _ hk,
    List.getElem?_append_right (Nat.le_add_right _ _), Nat.add_sub_cancel_left,
    List.getElem?_append_left (by simpa using hj)]

/-- A part ends within the table of weights. -/
theorem Holds.first_add_le (h : c.Holds parts slots) {k : Nat} {p : Part}
    (hk : parts[k]? = some p) : p.first + p.weights.length + 2 ≤ c.weights.size := by
  have hlast : c.weights[p.first + (p.weights.length + 1)]? = p.table[p.weights.length + 1]? :=
    h.getElem?_table hk (by omega)
  have hsome : p.table[p.weights.length + 1]? = some p.memoryFilter := by
    simp [Part.table]
  have hlt := (Array.getElem?_eq_some_iff.mp (hlast.trans hsome)).1
  omega

/-- The runs of a part walk over the positions of its weights. -/
theorem indices_weightRuns {p : Part} (hp : p.weights.length < Word.signedLimit) :
    Runs.indices p.weightRuns =
      (List.range p.weights.length).map fun j : Nat => ((p.first + j : Nat) : Int) := by
  unfold Part.weightRuns
  split
  next h0 => simp [h0]
  next h0 =>
    have hlen : (⟨p.first, p.weights.length⟩ : Run).length = p.weights.length :=
      Run.length_eq_size hp
    have hstep : (⟨p.first, p.weights.length⟩ : Run).step = 1 :=
      Run.step_of_nonneg (by simp)
    simp [Run.indices, hlen, hstep]

/-- The runs of a part count its weights. -/
theorem sum_size_weightRuns (p : Part) : (p.weightRuns.map Run.size).sum = p.weights.length := by
  unfold Part.weightRuns
  split <;> simp_all

/-- The sources of a part are words, if they have values. -/
theorem isSigned_of_hasValue {filled results : Array Float} {s : Int}
    (hfilled : filled.size < Word.signedLimit) (hresults : results.size < Word.signedLimit)
    (h : HasValue filled results s) : Word.IsSigned s := by
  unfold HasValue Ref.isInput at h
  unfold Word.IsSigned
  split at h
  next hs =>
    rw [decide_eq_true_eq] at hs
    omega
  next hs =>
    rw [decide_eq_true_eq] at hs
    omega

/-- The position of a weight is one of the table, and a signed word holds it. -/
theorem Holds.position_lt (h : c.Holds parts slots) {k : Nat} {p : Part}
    (hk : parts[k]? = some p) {j : Nat} (hj : j < p.weights.length) :
    p.first + j < c.weights.size ∧ p.first + j < Word.signedLimit := by
  have hroom := h.first_add_le hk
  have hlimit := h.room
  have hsize := h.size_weights
  omega

/-- What a walk over the runs of a part finds in the table are its weights. -/
theorem Holds.map_weights_eq (h : c.Holds parts slots) {k : Nat} {p : Part}
    (hk : parts[k]? = some p) :
    (Runs.indices p.weightRuns).map (fun pos => c.weights.getD (Word.toUnsigned pos) 0.0) =
      p.weights := by
  have hroom := h.first_add_le hk
  have hlimit := h.room
  rw [indices_weightRuns (by omega), List.map_map]
  refine List.ext_getElem (by simp) fun j hj hj' => ?_
  have hget := h.getElem?_table hk (show j < p.weights.length + 2 by omega)
  have htable : p.table[j]? = some p.weights[j] := by
    simp [Part.table, List.getElem?_append_left hj', hj']
  rw [htable] at hget
  simp only [List.getElem_map, List.getElem_range, Function.comp_apply, hget,
    Word.toUnsigned_natCast (h.position_lt hk hj').2, Array.getD_eq_getD_getElem?,
    Option.getD_some]

/-- One product more is added to a weighted sum. -/
theorem Holds.addProduct_eq (h : c.Holds parts slots) {k : Nat} {p : Part}
    (hk : parts[k]? = some p) {filled results : Array Float} {j : Nat}
    (hj : j < p.weights.length) {s : Int} (hs : HasValue filled results s) (sum : Float) :
    c.addProduct filled results sum ((p.first + j : Nat) : Int) s =
      .ok (sum + c.weights.getD (p.first + j) 0.0 * Ref.lookup filled results s) := by
  obtain ⟨hlt, hsigned⟩ := h.position_lt hk hj
  have hweight : c.weightAs .weight (p.first + j) = .ok (c.weights.getD (p.first + j) 0.0) :=
    weightAs_eq (by simp [hlt, Array.getD])
  simp only [addProduct, Word.toUnsigned_natCast hsigned, hweight, sourceValue_eq hs,
    Result.ok_bind, Result.pure_eq_ok]

/-- **The weighted sum of a part** pairs its weights with the values of its sources. -/
theorem Holds.weightedSum_eq (h : c.Holds parts slots) {k : Nat} {p : Part}
    (hk : parts[k]? = some p) {filled results : Array Float}
    (hfilled : filled.size < Word.signedLimit) (hresults : results.size < Word.signedLimit)
    (hvalues : ∀ s ∈ p.sources, HasValue filled results s) (index : Nat) :
    c.weightedSum filled results index p.weightRuns p.sourceRuns =
      .ok (weigh p.weights (p.sources.map (Ref.lookup filled results))) := by
  obtain ⟨hencodes, hcount⟩ := h.sources p (List.mem_of_getElem? hk)
  have hroom := h.first_add_le hk
  have hlimit := h.room
  have hword : Word.signedLimit < Word.limit := by decide
  have hpositions := indices_weightRuns (p := p) (by omega)
  have hweightCount : Runs.size p.weightRuns = .ok p.weights.length :=
    Runs.size_eq_ok_iff.mpr ⟨by rw [sum_size_weightRuns]; omega, (sum_size_weightRuns p).symm⟩
  have hsize : (p.sourceRuns.map Run.size).sum = p.weights.length :=
    hencodes.sum_size.trans hcount
  have hsourceCount : Runs.size p.sourceRuns = .ok p.weights.length :=
    Runs.size_eq_ok_iff.mpr ⟨by rw [hsize]; omega, hsize.symm⟩
  have hsigned : ∀ pos ∈ Runs.indices p.weightRuns, Word.IsSigned pos := by
    intro pos hpos
    rw [hpositions] at hpos
    obtain ⟨j, hj, rfl⟩ := List.mem_map.mp hpos
    exact Word.isSigned_of_lt (h.position_lt hk (List.mem_range.mp hj)).2
  have hproduct : ∀ x ∈ (Runs.indices p.weightRuns).zip p.sources, ∀ sum : Float,
      c.addProduct filled results sum x.1 x.2 =
        .ok (sum + c.weights.getD (Word.toUnsigned x.1) 0.0 * Ref.lookup filled results x.2) := by
    rintro ⟨pos, s⟩ hx sum
    obtain ⟨hpos, hs⟩ := List.of_mem_zip hx
    rw [hpositions] at hpos
    obtain ⟨j, hj, rfl⟩ := List.mem_map.mp hpos
    have hlt := List.mem_range.mp hj
    rw [h.addProduct_eq hk hlt (hvalues s hs), Word.toUnsigned_natCast (h.position_lt hk hlt).2]
  unfold weightedSum
  simp only [hweightCount, hsourceCount, Result.ok_bind, if_true]
  rw [Runs.zipFoldlM_of_signed _ _ hsigned fun s hs =>
    isSigned_of_hasValue hfilled hresults (hvalues s hs)]
  change ((Runs.indices p.weightRuns).zip p.sources).foldlM _ _ = _
  rw [Result.foldlM_eq_foldl hproduct]
  unfold weigh
  conv_rhs => rw [← h.map_weights_eq hk, List.zip_map, List.foldl_map]
  rfl

/-! ## All parts -/

/-- The new values of parts, computed one after another. -/
def solved (values filled : Array Float) (parts : List Part) : Array Float :=
  parts.foldl (fun results p => results.push (p.value values filled results)) #[]

/-- The runs that belong to a part among those of all parts. -/
theorem runsFrom_eq {runs : Array Run} {pre mid post : List Run}
    (hruns : runs.toList = pre ++ (mid ++ post)) (hlimit : runs.size < Word.limit) :
    runsFrom runs pre.length mid.length = .ok mid := by
  have hsize : runs.size = pre.length + (mid.length + post.length) := by
    rw [← Array.length_toList, hruns, List.length_append, List.length_append]
  unfold runsFrom
  rw [if_neg (by omega), if_neg (by omega), Array.toList_extract, hruns, List.extract_eq_take_drop,
    List.drop_left, Nat.add_sub_cancel_left, List.take_left]

/-- **One part** more is solved. -/
theorem Holds.solveNext_eq (env : Surroundings) {pre post : List Part} {p : Part}
    (h : c.Holds (pre ++ p :: post) slots) {filled results : Array Float}
    (hfilled : filled.size < Word.signedLimit)
    (hresults : results.size < Word.signedLimit)
    (hvalues : ∀ s ∈ p.sources, HasValue filled results s)
    (hindex : p.index < Word.signedLimit) (hold : p.index < env.values.size) :
    c.solveNext env filled ⟨(p :: post).map Part.entry, (pre.flatMap Part.weightRuns).length,
        (pre.flatMap Part.sourceRuns).length, results⟩ p.index =
      .ok ⟨post.map Part.entry, ((pre ++ [p]).flatMap Part.weightRuns).length,
        ((pre ++ [p]).flatMap Part.sourceRuns).length,
        results.push (p.value env.values filled results)⟩ := by
  have hk : (pre ++ p :: post)[pre.length]? = some p := by simp
  have hword : Word.signedLimit < Word.limit := by decide
  have hlimit := h.room
  have hsize := h.size_weights
  have hweightRuns := h.size_weightRuns_le
  have hsourceRuns := h.size_sourceRuns_le
  have hweights : runsFrom c.weightRuns (pre.flatMap Part.weightRuns).length
      p.weightRuns.length = .ok p.weightRuns :=
    runsFrom_eq (by rw [h.weightRuns, List.flatMap_append, List.flatMap_cons]) (by omega)
  have hsources : runsFrom c.sourceRuns (pre.flatMap Part.sourceRuns).length
      p.sourceRuns.length = .ok p.sourceRuns :=
    runsFrom_eq (by rw [h.sourceRuns, List.flatMap_append, List.flatMap_cons]) (by omega)
  have hbias : c.weights[p.first + p.weights.length]? = some p.bias := by
    rw [h.getElem?_table hk (by omega)]
    simp [Part.table]
  have hfilter : c.weights[p.first + p.weights.length + 1]? = some p.memoryFilter := by
    rw [Nat.add_assoc, h.getElem?_table hk (by omega)]
    simp [Part.table]
  have hvalue : c.value env filled results p.index p.entry p.weightRuns p.sourceRuns =
      .ok (p.value env.values filled results) := by
    unfold value Part.entry
    simp only [h.weightedSum_eq hk hfilled hresults hvalues, weightAs_eq hbias,
      weightAs_eq hfilter, Result.ok_bind, dif_pos hold, Result.pure_eq_ok, Part.value, blend,
      Array.getD, Array.getInternal_eq_getElem]
  simp only [solveNext, List.map_cons, Part.entry] at hvalue ⊢
  simp only [hweights, hsources, Word.toUnsigned_natCast hindex, hvalue, Result.ok_bind,
    Result.pure_eq_ok, List.flatMap_append, List.flatMap_cons, List.flatMap_nil,
    List.append_nil, List.length_append]

/-- The sources of a part have values, once the slots are filled and the parts before it solved. -/
theorem hasValue_of_resolves {before : List Part} {filled results : Array Float} {s ref : Int}
    (hfilled : filled.size = slots.length) (hresults : results.size = before.length)
    (h : Resolves before slots s ref) : HasValue filled results s := by
  unfold HasValue Ref.isInput
  rcases h with ⟨hs, p, hp, -⟩ | ⟨hs, hslot⟩
  · have hlt := (List.getElem?_eq_some_iff.mp hp).1
    simp only [not_lt.mpr hs, decide_false, Bool.false_eq_true, if_false]
    omega
  · have hlt := (List.getElem?_eq_some_iff.mp hslot).1
    simp only [hs, decide_true, if_true]
    omega

/-- **The parts ahead are solved** one after another.

**Proof sketch.** Induction on the parts ahead: of the tables, the parts that are solved have used
just their own shares, so that the runs and positions of the next part are where the cell looks. -/
theorem Holds.foldlM_solveNext_eq (h : c.Holds parts slots) {net : Net}
    (hcopies : Copies net parts slots)
    (hindex : ∀ p ∈ parts, p.index < Word.signedLimit ∧ p.index < env.values.size)
    {filled : Array Float} (hfilled : filled.size = slots.length) {pre post : List Part}
    {results : Array Float} (hparts : parts = pre ++ post) (hresults : results.size = pre.length) :
    (post.map fun p => (p.index : Int)).foldlM (c.solveNext env filled)
        ⟨post.map Part.entry, (pre.flatMap Part.weightRuns).length,
          (pre.flatMap Part.sourceRuns).length, results⟩ =
      .ok ⟨[], (parts.flatMap Part.weightRuns).length, (parts.flatMap Part.sourceRuns).length,
        post.foldl (fun results p => results.push (p.value env.values filled results))
          results⟩ := by
  have hlimit := h.room
  have hsize := h.size_weights
  have hslots := h.slots_le
  induction post generalizing pre results with
  | nil =>
    rw [hparts, List.append_nil]
    rfl
  | cons p post ih =>
    have hmem : p ∈ parts := by simp [hparts]
    have hk : parts[pre.length]? = some p := by simp [hparts]
    have hbefore : parts.take pre.length = pre := by simp [hparts]
    obtain ⟨n, hn⟩ := hcopies pre.length p hk
    have hvalues : ∀ s ∈ p.sources, HasValue filled results s := by
      intro s hs
      obtain ⟨ref, -, hres⟩ := hn.exists_reference hs
      exact hasValue_of_resolves hfilled (by rw [hresults, hbefore]) hres
    have hlen : pre.length ≤ parts.length := by simp [hparts]
    have hstep := Holds.solveNext_eq env (hparts ▸ h) (by omega) (by omega) hvalues
      (hindex p hmem).1 (hindex p hmem).2
    rw [List.map_cons] at hstep
    simp only [List.map_cons, List.foldlM_cons]
    rw [hstep, Result.ok_bind, List.foldl_cons]
    exact ih (by rw [hparts, List.append_assoc]; rfl) (by simp [hresults])

/-- The tables of a cell that holds parts agree in size. -/
theorem Holds.checkTables_eq (h : c.Holds parts slots) : c.checkTables = .ok () := by
  have hlimit := h.room
  have hsize := h.size_weights
  have hword : Word.signedLimit < Word.limit := by decide
  have hcount : Runs.size c.outputs.toList = .ok parts.length := by
    have hsum := h.outputs.sum_size
    rw [List.length_map] at hsum
    exact Runs.size_eq_ok_iff.mpr ⟨by rw [hsum]; omega, hsum.symm⟩
  simp [checkTables, checkTable, hcount, h.size_tables, h.neuronCount_eq]

/-- **A cell is solved**: its slots are filled, and its parts solved one after another. -/
theorem Holds.solve_eq (h : c.Holds parts slots) {net : Net} (hcopies : Copies net parts slots)
    (hread : ∀ ref ∈ slots, Word.IsSigned ref ∧ env.CanRead ref)
    (hindex : ∀ p ∈ parts, p.index < Word.signedLimit ∧ p.index < env.values.size) :
    c.solve env =
      .ok (solved env.values (slots.map (Ref.lookup env.input env.values)).toArray parts) := by
  have hsigned : ∀ ref ∈ Runs.indices c.outputs.toList, Word.IsSigned ref := by
    intro ref href
    rw [h.outputs.1] at href
    obtain ⟨p, hp, rfl⟩ := List.mem_map.mp href
    exact Word.isSigned_of_lt (hindex p hp).1
  have hfilled : (slots.map (Ref.lookup env.input env.values)).toArray.size = slots.length := by
    simp
  have hall := h.foldlM_solveNext_eq hcopies hindex hfilled (List.nil_append parts).symm
    (Array.size_empty (α := Float))
  simp only [List.flatMap_nil, List.length_nil] at hall
  unfold solve
  rw [h.fill_eq hread, Result.ok_bind, h.checkTables_eq, Result.ok_bind,
    Runs.foldlM_of_signed _ _ hsigned, h.outputs.1, h.entries_eq, hall]
  rfl

end Cell

end NeuralPlan
