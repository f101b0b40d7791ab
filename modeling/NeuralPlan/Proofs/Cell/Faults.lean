import NeuralPlan.Proofs.Cell.Reading

/-!
# Cells that cannot be solved

A cell may come from outside, with any numbers in its tables.  Whatever it names is looked up with a
check, and the walks over its runs end with a report before they leave the words.  Just the sizes of
its runs are added up without a check, and this is the only way in which a cell stops the
arithmetic.

## Main definitions

* `Failure.OfLookup` — the reports of a cell.
* `Cell.InWords` — the numbers of a cell are words, and so are those of what it is solved on.
* `Cell.Countable` — words add up the sizes of its runs.

## Main results

* `Cell.failsIn_fill`, `Cell.failsIn_solve` — how any cell fails; no table is read behind its end.
* `Cell.failsIn_fill_of_words`, `Cell.failsIn_solve_of_countable` — how it fails if it is of words.
* `Cell.fails_with_report` — a cell fails with a report, or the sizes of its runs do not add up.
-/

set_option relaxedAutoImplicit false
set_option autoImplicit false

namespace NeuralPlan

open Result

/-- The reports of a cell: an index is out of range, or the tables do not match each other. -/
def Failure.OfLookup : Failure → Prop
  | .error (.outOfRange ..) => True
  | .error (.inconsistent (.tableLength ..)) => True
  | .error (.inconsistent (.weightCount ..)) => True
  | _ => False

/-- What a cell reports is a report. -/
theorem Failure.OfLookup.isReport {e : Failure} (h : e.OfLookup) : e.IsReport := by
  cases e with
  | error e => exact ⟨e, rfl⟩
  | fault f => exact h.elim

/-! ## What is looked up -/

/-- A value that a reference names. -/
theorem Surroundings.failsIn_valueOf (env : Surroundings) (ref : Int) :
    FailsIn Failure.OfLookup (env.valueOf ref) := by
  unfold valueOf
  split
  next hin =>
    rw [Ref.toInput, if_pos hin, ok_bind, inputAt]
    split <;> simp [Failure.OfLookup]
  next =>
    unfold committedAt
    dsimp only
    split <;> simp [Failure.OfLookup]

namespace Cell

variable (c : Cell) (env : Surroundings)

/-- The check of a table. -/
theorem failsIn_checkTable (table : Table) (entries : Nat) :
    FailsIn Failure.OfLookup (c.checkTable table entries) := by
  unfold checkTable
  split <;> simp [Failure.OfLookup]

/-- The runs that are taken for a local position. -/
theorem failsIn_runsFrom (runs : Array Run) (start count : Nat) :
    FailsIn Failure.OfLookup (runsFrom runs start count) := by
  unfold runsFrom
  split
  · simp [Failure.OfLookup]
  · split <;> simp [Failure.OfLookup]

/-- A weight that is looked up. -/
theorem failsIn_weightAs (kind : IndexKind) (index : Nat) :
    FailsIn Failure.OfLookup (c.weightAs kind index) := by
  unfold weightAs
  split <;> simp [Failure.OfLookup]

/-- The value of a source. -/
theorem failsIn_sourceValue (filled results : Array Float) (source : Int) :
    FailsIn Failure.OfLookup (sourceValue filled results source) := by
  unfold sourceValue
  split
  next hin =>
    rw [Ref.toInput, if_pos hin, ok_bind]
    split <;> simp [Failure.OfLookup]
  next => split <;> simp [Failure.OfLookup]

/-- One more product of a weighted sum. -/
theorem failsIn_addProduct (filled results : Array Float) (sum : Float) (weight source : Int) :
    FailsIn Failure.OfLookup (c.addProduct filled results sum weight source) :=
  (c.failsIn_weightAs _ _).bind fun _ =>
    (failsIn_sourceValue filled results source).bind fun _ => failsIn_pure _

/-! ## Any cell -/

section Any

variable {c env} {P : Failure → Prop} (hlookup : ∀ e, Failure.OfLookup e → P e)

include hlookup in
/-- The check of all tables, after the sizes of the outputs are added up. -/
theorem failsIn_checkTables (hsize : FailsIn P (Runs.size c.outputs.toList)) :
    FailsIn P c.checkTables := by
  refine hsize.bind fun outputs => FailsIn.mono ?_ hlookup
  iterate 4 refine (c.failsIn_checkTable _ _).bind fun _ => ?_
  exact c.failsIn_checkTable _ _

include hlookup in
/-- A weighted sum, from the sizes of its runs and the walk over these. -/
theorem failsIn_weightedSum {filled results : Array Float} {index : Nat} {weights sources : List Run}
    (hweights : FailsIn P (Runs.size weights)) (hsources : FailsIn P (Runs.size sources))
    (hwalk : FailsIn P (Runs.zipFoldlM (c.addProduct filled results) 0.0 weights sources)) :
    FailsIn P (c.weightedSum filled results index weights sources) := by
  refine hweights.bind fun weightCount => hsources.bind fun sourceCount => ?_
  split
  · exact hwalk
  · exact failsIn_fail.mpr (hlookup _ trivial)

include hlookup in
/-- The new value of a neuron, from its weighted sum. -/
theorem failsIn_value {filled results : Array Float} {index : Nat} {entry : Entry}
    {weights sources : List Run}
    (hsum : FailsIn P (c.weightedSum filled results index weights sources)) :
    FailsIn P (c.value env filled results index entry weights sources) := by
  refine hsum.bind fun sum => FailsIn.mono ?_ hlookup
  refine (c.failsIn_weightAs _ _).bind fun bias => (c.failsIn_weightAs _ _).bind fun filter => ?_
  split <;> simp [Failure.OfLookup]

include hlookup in
/-- The next local position, from its weighted sum, if there is an entry for it. -/
theorem failsIn_solveNext {filled : Array Float} {p : Progress} {ref : Int} {entry : Entry}
    {ahead : List Entry} (hahead : p.ahead = entry :: ahead)
    (hsum : ∀ weights sources,
      runsFrom c.weightRuns p.weightRunStart entry.weightRunCount = .ok weights →
      runsFrom c.sourceRuns p.sourceRunStart entry.sourceRunCount = .ok sources →
      FailsIn P (c.weightedSum filled p.results (Word.toUnsigned ref) weights sources)) :
    FailsIn P (c.solveNext env filled p ref) := by
  simp only [solveNext, hahead]
  refine ((failsIn_runsFrom _ _ _).mono hlookup).bind_of fun weights hweights =>
    ((failsIn_runsFrom _ _ _).mono hlookup).bind_of fun sources hsources => ?_
  exact (failsIn_value hlookup (hsum weights sources hweights hsources)).bind
    fun value => failsIn_pure _

variable (hover : P (.fault .overflow))

include hlookup hover in
/-- The values of the slots. -/
theorem failsIn_fill : FailsIn P (c.fill env) :=
  Runs.failsIn_foldlM hover
    (fun _ ref => ((env.failsIn_valueOf ref).mono hlookup).bind fun _ => failsIn_pure _) _ _

/-- A local position that is solved has used up its entry. -/
theorem ahead_of_solveNext {filled : Array Float} {p p' : Progress} {ref : Int}
    (h : c.solveNext env filled p ref = .ok p') : ∃ entry, p.ahead = entry :: p'.ahead := by
  unfold solveNext at h
  split at h
  next => cases h
  next entry ahead hahead =>
    obtain ⟨weights, -, h⟩ := bind_eq_ok_iff.mp h
    obtain ⟨sources, -, h⟩ := bind_eq_ok_iff.mp h
    obtain ⟨value, -, h⟩ := bind_eq_ok_iff.mp h
    obtain rfl := Except.ok.inj h
    exact ⟨entry, hahead⟩

include hlookup hover in
/-- **How any cell fails** when it is solved: with a report of its own, or with an overflow.

**Proof sketch.** After the check of the tables there is an entry for every output, and a step of the
walk over the outputs uses up one of each; so no step is without an entry. -/
theorem failsIn_solve : FailsIn P (c.solve env) := by
  refine (failsIn_fill hlookup hover).bind fun filled =>
    (failsIn_checkTables hlookup (Runs.failsIn_size hover _)).bind_of fun _ htables =>
      FailsIn.bind ?_ fun _ => failsIn_pure _
  obtain ⟨hentries, houtputs⟩ := checkTables_eq_ok htables
  refine Runs.failsIn_foldlM_of_invariant hover
    (Q := fun refs p => refs.length ≤ p.ahead.length) ?_ ?_ (hentries.symm ▸ houtputs)
  · intro p ref refs henough
    obtain ⟨entry, ahead, hahead⟩ :=
      List.exists_cons_of_ne_nil (List.ne_nil_of_length_pos (Nat.zero_lt_of_lt henough))
    refine failsIn_solveNext hlookup hahead fun weights sources _ _ => ?_
    exact failsIn_weightedSum hlookup (Runs.failsIn_size hover _) (Runs.failsIn_size hover _)
      (Runs.failsIn_zipFoldlM hover
        (fun _ _ _ => (c.failsIn_addProduct _ _ _ _ _).mono hlookup) _ _ _)
  · intro p ref refs p' henough hstep
    obtain ⟨entry, hahead⟩ := ahead_of_solveNext hstep
    rw [hahead] at henough
    exact Nat.le_of_succ_le_succ henough

end Any

/-! ## Cells of words -/

/-- The numbers of the cell are words, and so are those of what it is solved on: all runs start at
signed words, and signed words count the entries of the tables, the inputs, the values and the slots
that are filled. -/
structure InWords (c : Cell) (env : Surroundings) : Prop where
  outputs : ∀ r ∈ c.outputs.toList, Word.IsSigned r.start
  slots : ∀ r ∈ c.slots.toList, Word.IsSigned r.start
  weightRuns : ∀ r ∈ c.weightRuns.toList, Word.IsSigned r.start
  sourceRuns : ∀ r ∈ c.sourceRuns.toList, Word.IsSigned r.start
  activations : c.activations.size < Word.signedLimit
  weights : c.weights.size < Word.signedLimit
  input : env.input.size < Word.signedLimit
  values : env.values.size < Word.signedLimit
  filled : ∀ filled, c.fill env = .ok filled → filled.size < Word.signedLimit

/-- Words add up the sizes of the outputs, and those of the runs of weights and of sources that
belong to any one of the local positions. -/
structure Countable (c : Cell) : Prop where
  outputs : (c.outputs.toList.map Run.size).sum < Word.limit
  weights : ∀ k < c.neuronCount,
    ((share c.weightRuns c.weightRunCounts k).map Run.size).sum < Word.limit
  sources : ∀ k < c.neuronCount,
    ((share c.sourceRuns c.sourceRunCounts k).map Run.size).sum < Word.limit

variable {c env} {filled : Array Float}

/-- A sum of sizes that is a word. -/
theorem failsIn_size_of_lt {P : Failure → Prop} {rs : List Run}
    (h : (rs.map Run.size).sum < Word.limit) : FailsIn P (Runs.size rs) := by
  rw [Runs.size_eq_ok_iff.mpr ⟨h, rfl⟩]
  exact failsIn_ok _

/-- The runs of a local position are runs of the table. -/
theorem mem_of_mem_share {runs : Array Run} {counts : Array Nat} {k : Nat} {r : Run}
    (hr : r ∈ share runs counts k) : r ∈ runs.toList :=
  List.mem_of_mem_drop (List.mem_of_mem_take hr)

/-- What may be read is named by a word with neighbours. -/
theorem InWords.isInner_of_canRead (h : c.InWords env) {ref : Int} (hread : env.CanRead ref) :
    Word.IsInner ref := by
  refine isInner_of_names h.input h.values ?_
  unfold Surroundings.CanRead at hread
  split at hread
  next hin => rwa [if_pos hin]
  next hin => rw [if_neg hin]; exact hread.1

/-- What a product reads is named by words with neighbours. -/
theorem InWords.isInner_of_addProduct (h : c.InWords env) (hfill : c.fill env = .ok filled)
    {results : Array Float} (hresults : results.size < Word.signedLimit) {sum next : Float}
    {weight source : Int} (hweight : Word.IsSigned weight)
    (hadd : c.addProduct filled results sum weight source = .ok next) :
    Word.IsInner weight ∧ Word.IsInner source := by
  obtain ⟨w, hw, hadd⟩ := bind_eq_ok_iff.mp hadd
  obtain ⟨x, hx, -⟩ := bind_eq_ok_iff.mp hadd
  have hlt := (Array.getElem?_eq_some_iff.mp (weightAs_eq_ok hw)).1
  refine ⟨Word.isInner_of_toUnsigned_lt hweight hlt h.weights,
    isInner_of_names (h.filled filled hfill) hresults ?_⟩
  have hlocal := sourceValue_eq_ok hx
  unfold readLocal at hlocal
  split at hlocal
  next hin =>
    rw [if_pos hin]
    exact (Array.getElem?_eq_some_iff.mp hlocal).1
  next hin =>
    rw [if_neg hin]
    split at hlocal
    next hlt => exact hlt
    next => cases hlocal

/-- **The slots of a cell of words** are filled, or one of them is reported. -/
theorem failsIn_fill_of_words (h : c.InWords env) : FailsIn Failure.OfLookup (c.fill env) := by
  refine Runs.failsIn_foldlM_of_start (Q := fun _ _ => True)
    (fun _ ref _ _ _ => (env.failsIn_valueOf ref).bind fun _ => failsIn_pure _)
    (fun _ ref _ _ _ _ hstep => ⟨?_, trivial⟩) trivial h.slots
  obtain ⟨x, hx, -⟩ := bind_eq_ok_iff.mp hstep
  exact h.isInner_of_canRead (Surroundings.valueOf_eq_ok_iff.mp hx).1

/-- A weighted sum over the runs of a local position, after the positions before are solved. -/
theorem InWords.failsIn_weightedSum (h : c.InWords env) (hcount : c.Countable)
    (hfill : c.fill env = .ok filled) {results : Array Float} {k : Nat} (hk : k < c.neuronCount)
    (hresults : results.size = k) (index : Nat) :
    FailsIn Failure.OfLookup (c.weightedSum filled results index
      (share c.weightRuns c.weightRunCounts k) (share c.sourceRuns c.sourceRunCounts k)) := by
  refine Cell.failsIn_weightedSum (fun _ => id) (failsIn_size_of_lt (hcount.weights k hk))
    (failsIn_size_of_lt (hcount.sources k hk)) ?_
  refine Runs.failsIn_zipFoldlM_of_start (c.failsIn_addProduct filled results)
    (fun sum weight source next hweight _ hadd =>
      h.isInner_of_addProduct hfill ?_ hweight hadd)
    (fun r hr => h.weightRuns r (mem_of_mem_share hr))
    (fun r hr => h.sourceRuns r (mem_of_mem_share hr)) 0.0
  rw [hresults]
  exact hk.trans h.activations

/-- **How a cell of words fails**, if words add up the sizes of its runs.

**Proof sketch.** Induction on the outputs, where those before are solved: there is an entry for the
next one, so that it is solved only if it names a neuron, and the words next to it are words. -/
theorem failsIn_solve_of_countable (h : c.InWords env) (hcount : c.Countable) :
    FailsIn Failure.OfLookup (c.solve env) := by
  refine (failsIn_fill_of_words h).bind_of fun filled hfill =>
    (failsIn_checkTables (fun _ => id) (failsIn_size_of_lt hcount.outputs)).bind_of
      fun _ htables => FailsIn.bind ?_ fun _ => failsIn_pure _
  obtain ⟨hentries, houtputs⟩ := checkTables_eq_ok htables
  -- The outputs that are still to come are those behind the positions that are solved.
  let Q : List Int → Progress → Prop := fun refs p => ∃ before,
    Runs.indices c.outputs.toList = before ++ refs ∧ c.SolvedTo env filled before.length p
  have hlt : ∀ {before refs : List Int} {ref : Int},
      Runs.indices c.outputs.toList = before ++ ref :: refs → before.length < c.entries.length := by
    intro before refs ref hrefs
    rw [hrefs, List.length_append, List.length_cons] at houtputs
    omega
  refine Runs.failsIn_foldlM_of_start (Q := Q) ?_ ?_ ⟨[], rfl, rfl, rfl, rfl, rfl, nofun⟩ h.outputs
  · rintro p ref refs - ⟨before, hrefs, hsolved⟩
    have hk := hlt hrefs
    refine failsIn_solveNext (fun _ => id) (hsolved.ahead_eq hk)
      fun weights sources hweights hsources => ?_
    rw [hsolved.weights_eq hk hweights, hsolved.sources_eq hk hsources]
    exact h.failsIn_weightedSum hcount hfill (hentries ▸ hk) hsolved.size _
  · rintro p ref refs p' hsigned ⟨before, hrefs, hsolved⟩ hstep
    have hmember : c.members[before.length]? = some (Word.toUnsigned ref) := by
      simp [members, hrefs]
    have hnext := hsolved.solveNext (hlt hrefs) hmember hstep
    obtain ⟨previous, -, hprevious, -⟩ := hnext.solved _ _ (Nat.lt_succ_self _) hmember
    refine ⟨?_, before ++ [ref], by simpa using hrefs, by simpa using hnext⟩
    exact Word.isInner_of_toUnsigned_lt hsigned (Array.getElem?_eq_some_iff.mp hprevious).1 h.values

/-! ## Faults -/

/-- Outputs whose sizes no word adds up stop the check of the tables. -/
theorem checkTables_of_limit_le (h : Word.limit ≤ (c.outputs.toList.map Run.size).sum) :
    c.checkTables = stop .overflow := by
  have hsize : Runs.size c.outputs.toList = stop .overflow := by
    rw [Runs.size, Word.total_eq_sum, Word.unsigned, if_neg (Nat.not_lt.mpr h)]
  rw [checkTables, hsize]
  rfl

/-- **A cell whose numbers are words fails with a report**, whatever its tables say, unless the sizes
of its runs do not add up to words.

1. The slots are filled, or a report says which of their references names nothing.
2. If the cell is not solved, then there is a report; or there is an overflow, and then words do not
   add up the sizes of the outputs, or those of the runs of weights or of sources that belong to one
   of the local positions.
3. Outputs that words do not add up are no report, but an overflow, as soon as the slots are filled.

**Proof sketch.** Each step of a walk has looked up what its reference names, so that the reference
is followed by a word.  The walk over the outputs has an entry of the tables for each of them, since
the sizes are just as many as the entries. -/
theorem fails_with_report (c : Cell) (env : Surroundings) (hwords : c.InWords env) :
    FailsIn Failure.IsReport (c.fill env) ∧
    FailsIn (fun e => e.IsReport ∨ e = .fault .overflow ∧ ¬c.Countable) (c.solve env) ∧
    ((∃ filled, c.fill env = .ok filled) →
      Word.limit ≤ (c.outputs.toList.map Run.size).sum → c.solve env = stop .overflow) := by
  refine ⟨(failsIn_fill_of_words hwords).mono fun _ => Failure.OfLookup.isReport, fun e he => ?_, ?_⟩
  · have hkind : e.OfLookup ∨ e = .fault .overflow :=
      failsIn_solve (P := fun e => e.OfLookup ∨ e = .fault .overflow) (fun _ => .inl) (.inr rfl) e he
    rcases hkind with hreport | rfl
    · exact .inl hreport.isReport
    · exact .inr ⟨rfl, fun hcount => failsIn_solve_of_countable hwords hcount _ he⟩
  · rintro ⟨filled, hfill⟩ hlimit
    rw [solve, hfill, ok_bind, checkTables_of_limit_le hlimit]
    rfl

/-- A cell of one local position, which names nothing that there is: its runs begin and end at the last
words of either sign. -/
def remote : Cell where
  outputs := #[⟨9223372036854775807, 1⟩]
  slots := #[]
  activations := #[.identity]
  weights := #[0.5]
  weightRuns := #[⟨0, 9223372036854775807⟩]
  weightRunCounts := #[1]
  biases := #[Word.greatest]
  memoryFilters := #[Word.greatest]
  sourceRuns := #[⟨-9223372036854775808, 9223372036854775807⟩]
  sourceRunCounts := #[1]

/-- A cell without local positions whose two runs of outputs count `2^63` neurons each. -/
def wide : Cell := { empty with outputs := #[⟨0, Word.signedLimit⟩, ⟨0, Word.signedLimit⟩] }

/-- The numbers of both cells are words. -/
theorem inWords_of_remote_or_wide {c : Cell} (h : c = remote ∨ c = wide) :
    c.InWords ⟨#[], #[], #[]⟩ := by
  rcases h with rfl | rfl
  · refine ⟨by decide, by decide, by decide, by decide, by decide, by decide, by decide, by decide,
      fun filled hfill => ?_⟩
    obtain rfl : #[] = filled := Except.ok.inj hfill
    decide
  · refine ⟨by decide, by decide, by decide, by decide, by decide, by decide, by decide, by decide,
      fun filled hfill => ?_⟩
    obtain rfl : #[] = filled := Except.ok.inj hfill
    decide

/-- The first cell fails with a report only.  The tables of the second one do not match, but there is
no report. -/
theorem fails_with_report_remote_wide :
    FailsIn Failure.IsReport (remote.solve ⟨#[], #[], #[]⟩) ∧
      wide.solve ⟨#[], #[], #[]⟩ = stop .overflow := by
  obtain ⟨-, hsolve, -⟩ := fails_with_report remote _ (inWords_of_remote_or_wide (.inl rfl))
  obtain ⟨-, -, hover⟩ := fails_with_report wide _ (inWords_of_remote_or_wide (.inr rfl))
  refine ⟨fun e he => ?_, hover ⟨#[], rfl⟩ (by decide)⟩
  rcases hsolve e he with hreport | ⟨-, hcount⟩
  · exact hreport
  · exact absurd ⟨by decide, by decide, by decide⟩ hcount

/-- A cell of words need not fail with a report. -/
theorem not_failsIn_isReport_wide : wide.InWords ⟨#[], #[], #[]⟩ ∧
    ¬FailsIn Failure.IsReport (wide.solve ⟨#[], #[], #[]⟩) := by
  refine ⟨inWords_of_remote_or_wide (.inr rfl), fun h => ?_⟩
  obtain ⟨report, hreport⟩ := h (.fault .overflow) (by rfl)
  cases hreport

end Cell

end NeuralPlan
