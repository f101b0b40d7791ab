import NeuralPlan.Proofs.Cell.Solving
import NeuralPlan.Proofs.Plan.Commits
import NeuralPlan.Proofs.Plan.Success

/-!
# Running a plan that is compiled

A plan that is compiled can be run on every input and any previous values.  Every row solves its
neurons on the new values of the rows before, so that at the end every neuron has the value that the
net asks for, down to the order of the additions.

## Main definitions

* `Settled` — the values while the rows are run.

## Main results

* `Part.value_eq` — a part of a row has the new value of its neuron.
* `Cell.IsMade.solve_eq` — a cell of a row is solved with the new values of its neurons.
* `Settled.row` — one row more is run.
* `Plan.run_correct` — a run of a plan that is compiled.
-/

set_option relaxedAutoImplicit false
set_option autoImplicit false

namespace NeuralPlan

variable {net : Net} {earlier : List Nat}

/-! ## The cells of a row -/

/-- Sources that are slots are looked up as the references are that the slots hold. -/
theorem map_lookup_of_resolves {before : List Part} {slots sources refs : List Int}
    (h : List.Forall₂ (Resolves before slots) sources refs) (hneg : ∀ s ∈ sources, s < 0)
    (input values results : Array Float) :
    sources.map (Ref.lookup (slots.map (Ref.lookup input values)).toArray results) =
      refs.map (Ref.lookup input values) := by
  induction h with
  | nil => rfl
  | @cons s ref sources refs hfirst _ ih =>
    obtain ⟨hs, hrest⟩ := List.forall_mem_cons.mp hneg
    rcases hfirst with ⟨hpos, -⟩ | ⟨-, hslot⟩
    · omega
    · rw [List.map_cons, List.map_cons, Cell.lookup_slot hs hslot, ih hrest]

/-- **A part that reads slots only** has the new value of its neuron, whatever other parts have. -/
theorem Part.value_eq {before : List Part} {slots : List Int} {p : Part} {n : Neuron}
    (h : p.Copies net before slots n) (hneg : ∀ s ∈ p.sources, s < 0)
    (input values results : Array Float) :
    p.value values (slots.map (Ref.lookup input values)).toArray results =
      net.newValue input values values p.index := by
  have hweights : net.weightsOf n = p.weights := by
    have hsome := congrArg (List.map fun w : Option Float => w.getD 0.0) h.weights
    simpa [Net.weightsOf, Function.comp_def, Array.getD_eq_getD_getElem?] using hsome
  have hbias : net.weights.getD n.bias 0.0 = p.bias := by
    simp [Array.getD_eq_getD_getElem?, h.bias]
  have hfilter : net.weights.getD n.memoryFilter 0.0 = p.memoryFilter := by
    simp [Array.getD_eq_getD_getElem?, h.memoryFilter]
  unfold Part.value Net.newValue
  rw [h.neuron]
  dsimp only
  rw [map_lookup_of_resolves h.sources hneg, hweights, hbias, hfilter, h.activation]

namespace Cell

/-- The outputs of a cell that is made name neurons of the net. -/
theorem IsMade.outputs (hneurons : net.neuronCount < Word.signedLimit) {c : Cell}
    (h : c.IsMade net earlier) {ref : Int} (href : ref ∈ Runs.indices c.outputs.toList) :
    Word.IsSigned ref ∧ Word.toUnsigned ref < net.neuronCount := by
  obtain ⟨parts, slots, -, hholds, hmade⟩ := h
  rw [hholds.outputs.1] at href
  obtain ⟨p, hp, rfl⟩ := List.mem_map.mp href
  have hlt := hmade.copies.index_lt hp
  rw [Word.toUnsigned_natCast (by omega)]
  exact ⟨Word.isSigned_of_lt (by omega), hlt⟩

/-- Parts that have their values whatever other parts have are solved with these values. -/
theorem solved_eq {values filled : Array Float} {parts : List Part} {value : Nat → Float}
    (h : ∀ p ∈ parts, ∀ results, p.value values filled results = value p.index) :
    (solved values filled parts).toList = parts.map fun p => value p.index := by
  have hfold : ∀ results : Array Float,
      (parts.foldl (fun results p => results.push (p.value values filled results)) results).toList =
        results.toList ++ parts.map fun p => value p.index := by
    induction parts with
    | nil => simp
    | cons p parts ih =>
      intro results
      obtain ⟨hp, hrest⟩ := List.forall_mem_cons.mp h
      rw [List.foldl_cons, ih hrest, hp, Array.toList_push, List.map_cons, List.append_assoc]
      rfl
  exact hfold #[]

/-- **A cell of a row is solved** with the new values of its neurons, once the earlier ones are
committed. -/
theorem IsMade.solve_eq (hneurons : net.neuronCount < Word.signedLimit) {c : Cell}
    (h : c.IsMade net earlier) {env : Surroundings} (hinput : env.input.size = net.inputSize)
    (hvalues : env.values.size = net.neuronCount)
    (hearlier : ∀ i ∈ earlier, i < net.neuronCount ∧ env.committed[i]? = some true) :
    ∃ results, c.solve env = .ok results ∧
      results.toList = c.members.map (net.newValue env.input env.values env.values) := by
  obtain ⟨parts, slots, -, hholds, hmade⟩ := h
  have hread : ∀ ref ∈ slots, Word.IsSigned ref ∧ env.CanRead ref := by
    intro ref href
    obtain ⟨hsigned, hname⟩ := hmade.slots ref href
    refine ⟨hsigned, ?_⟩
    unfold Surroundings.CanRead
    split at hname
    next hin => rwa [if_pos hin, hinput]
    next hin =>
      rw [if_neg hin, hvalues]
      exact hearlier _ hname
  have hindex : ∀ p ∈ parts, p.index < Word.signedLimit ∧ p.index < env.values.size := by
    intro p hp
    have hlt := hmade.copies.index_lt hp
    exact ⟨by omega, by omega⟩
  refine ⟨_, hholds.solve_eq hmade.copies hread hindex, ?_⟩
  have hvalue : ∀ p ∈ parts, ∀ results : Array Float,
      p.value env.values (slots.map (Ref.lookup env.input env.values)).toArray results =
        net.newValue env.input env.values env.values p.index := by
    intro p hp results
    obtain ⟨k, hk⟩ := List.mem_iff_getElem?.mp hp
    obtain ⟨n, hn⟩ := hmade.copies k p hk
    exact Part.value_eq hn (hmade.external p hp) env.input env.values results
  rw [solved_eq hvalue, hmade.members_eq hneurons hholds, List.map_map]
  rfl

end Cell

/-! ## The values while the rows are run -/

/-- After the earlier neurons have been run, these have new values, which are committed, and all
others the previous ones. -/
structure Settled (net : Net) (input old : Array Float) (earlier : List Nat) (v : Values) :
    Prop where
  size : v.values.size = net.neuronCount
  flags : v.committed.size = net.neuronCount
  committed : ∀ i, v.committed[i]? = some true ↔ i ∈ earlier
  kept : ∀ i, i ∉ earlier → v.values.getD i 0.0 = old.getD i 0.0
  new : ∀ i ∈ earlier, v.values.getD i 0.0 = net.newValue input old v.values i
  closed : ∀ i ∈ earlier, ∀ j, net.Reads i j → j ∈ earlier

variable {input old : Array Float} {v : Values}

/-- Before the first row, all values are the previous ones. -/
theorem settled_start (hold : old.size = net.neuronCount) :
    Settled net input old [] ⟨old, Array.replicate net.neuronCount false⟩ := by
  refine ⟨hold, by simp, fun i => ?_, fun i _ => rfl, by simp, by simp⟩
  rw [Array.getElem?_replicate]
  split <;> simp

/-- **One row more is run**: neurons that are due get their new values.

**Proof sketch.** No neuron that was run before reads a neuron of the row, and neither does a neuron
of the row, so that no value that was read changes. -/
theorem Settled.row (h : Settled net input old earlier v) {chosen : List Nat}
    (hchosen : chosen.Sublist (net.due earlier)) :
    Settled net input old (earlier ++ chosen)
      (v.commitAll (chosen.map fun i => (i, net.newValue input v.values v.values i))) := by
  have hdue : ∀ i ∈ chosen, i < net.neuronCount ∧ i ∉ earlier ∧ ∀ j, net.Reads i j → j ∈ earlier :=
    fun i hi => Net.mem_due.mp (hchosen.subset hi)
  have hget := Values.getD_commitAll (v := v) (net.newValue input v.values v.values)
    fun i hi => h.size ▸ (hdue i hi).1
  have hsame : ∀ j ∈ earlier, (v.commitAll (chosen.map fun i =>
      (i, net.newValue input v.values v.values i))).values.getD j 0.0 = v.values.getD j 0.0 := by
    intro j hj
    rw [hget, if_neg fun hmem => (hdue j hmem).2.1 hj]
  refine ⟨by simpa using h.size, by simpa using h.flags, fun i => ?_, fun i hi => ?_,
    fun i hi => ?_, fun i hi j hij => List.mem_append_left _ ?_⟩
  · have hlt : ∀ x ∈ chosen.map fun i => (i, net.newValue input v.values v.values i),
        x.1 < v.committed.size := by
      intro x hx
      obtain ⟨i, hi, rfl⟩ := List.mem_map.mp hx
      exact h.flags ▸ (hdue i hi).1
    rw [Values.committed_commitAll hlt, h.committed, List.mem_append]
    simp
  · obtain ⟨hearlier, hnew⟩ := not_or.mp (mt List.mem_append.mpr hi)
    rw [hget, if_neg hnew, h.kept i hearlier]
  · rcases List.mem_append.mp hi with hi | hi
    · rw [hsame i hi, h.new i hi]
      exact Net.newValue_congr rfl fun j hij => (hsame j (h.closed i hi j hij)).symm
    · obtain ⟨-, hnew, hreads⟩ := hdue i hi
      rw [hget, if_pos hi]
      exact Net.newValue_congr (h.kept i hnew) fun j hij => (hsame j (hreads j hij)).symm
  · rcases List.mem_append.mp hi with hi | hi
    · exact h.closed i hi j hij
    · exact (hdue i hi).2.2 j hij

namespace Plan

/-- The cells of a row are solved with the new values of its neurons. -/
theorem solveRow_isOk (hneurons : net.neuronCount < Word.signedLimit)
    (hinput : input.size = net.inputSize) (h : Settled net input old earlier v)
    (hearlier : ∀ i ∈ earlier, i < net.neuronCount) {row : List Cell}
    (hmade : ∀ c ∈ row, c.IsMade net earlier) :
    ∃ solved, solveRow input v row.toArray = .ok solved ∧ solved.map Prod.fst = row ∧
      solved.flatMap (fun x => x.1.members.zip x.2.toList) =
        (row.flatMap Cell.members).map fun i => (i, net.newValue input v.values v.values i) := by
  unfold solveRow
  induction row with
  | nil => exact ⟨[], rfl, rfl, rfl⟩
  | cons c row ih =>
    obtain ⟨hc, hrow⟩ := List.forall_mem_cons.mp hmade
    have hone : ∃ results, c.solve ⟨input, v.values, v.committed⟩ = .ok results ∧
        results.toList = c.members.map (net.newValue input v.values v.values) :=
      hc.solve_eq hneurons hinput h.size fun i hi => ⟨hearlier i hi, (h.committed i).mpr hi⟩
    obtain ⟨results, hsolve, hresults⟩ := hone
    obtain ⟨solved, hall, hcells, hpairs⟩ := ih hrow
    refine ⟨(c, results) :: solved, ?_, by rw [List.map_cons, hcells], ?_⟩
    · rw [List.mapM_cons, hsolve, Result.ok_bind, Result.pure_eq_ok, Result.ok_bind, hall]
      rfl
    · rw [List.flatMap_cons, List.flatMap_cons, List.map_append, hpairs, hresults,
        ← List.map_prod_left_eq_zip]

/-! ## Runs -/

variable {bytes : Nat} {rows : List (List Cell)} {p : Plan}

/-- A row of the layout is run. -/
theorem Laid.runRow_eq (hneurons : net.neuronCount < Word.signedLimit) (h : p.Laid net bytes rows)
    (hinput : input.size = net.inputSize) {r : Nat} (hr : r < rows.length)
    (hv : Settled net input old (membersOf (rows.take r)) v) :
    ∃ v', p.runRow input v r = (v', .ok ()) ∧
      Settled net input old (membersOf (rows.take (r + 1))) v' := by
  have hrow := List.getElem?_eq_getElem hr
  have hmade := h.made r _ hrow
  have hearlier : ∀ i ∈ membersOf (rows.take r), i < net.neuronCount := fun i hi =>
    h.lt_of_mem (membersOf_take_subset rows r hi)
  obtain ⟨solved, hsolved, hcells, hpairs⟩ := solveRow_isOk hneurons hinput hv hearlier hmade
  have houtputs : ∀ x ∈ solved, ∀ ref ∈ Runs.indices x.1.outputs.toList,
      Word.IsSigned ref ∧ Word.toUnsigned ref < v.committed.size := by
    intro x hx ref href
    rw [hv.flags]
    refine (hmade x.1 ?_).outputs hneurons href
    rw [← hcells]
    exact List.mem_map_of_mem hx
  refine ⟨v.commitAll ((rows[r].flatMap Cell.members).map fun i =>
    (i, net.newValue input v.values v.values i)), ?_, ?_⟩
  · rw [runRow, h.row_eq hneurons hrow, Result.ok_bind, hsolved]
    dsimp only
    rw [commitRow_eq houtputs, hpairs]
  · rw [List.take_succ_eq_append_getElem hr, membersOf_snoc]
    refine hv.row ?_
    rw [h.chosen r _ hrow]
    exact affordable_due_sublist net bytes _

/-- A row more is run after those that have been. -/
theorem runRows_snoc {l : List Nat} {r : Nat} {v v' v'' : Values}
    (hl : p.runRows input v l = (v', .ok ())) (hr : p.runRow input v' r = (v'', .ok ())) :
    p.runRows input v (l ++ [r]) = (v'', .ok ()) := by
  induction l generalizing v with
  | nil =>
    obtain ⟨rfl, -⟩ := Prod.mk.inj hl
    rw [List.nil_append, runRows, hr]
    rfl
  | cons k l ih =>
    rw [runRows] at hl
    rw [List.cons_append, runRows]
    cases hk : p.runRow input v k with
    | mk w answer =>
      rw [hk] at hl
      cases answer with
      | error e => cases (Prod.mk.inj hl).2
      | ok _ => exact ih hl

/-- **All rows of the layout are run**, one after another. -/
theorem Laid.runRows_eq (hneurons : net.neuronCount < Word.signedLimit) (h : p.Laid net bytes rows)
    (hinput : input.size = net.inputSize) (hold : old.size = net.neuronCount) :
    ∀ r ≤ rows.length, ∃ v,
      p.runRows input ⟨old, Array.replicate net.neuronCount false⟩ (List.range r) = (v, .ok ()) ∧
        Settled net input old (membersOf (rows.take r)) v := by
  intro r
  induction r with
  | zero => exact fun _ => ⟨_, rfl, settled_start hold⟩
  | succ r ih =>
    intro hr
    obtain ⟨v, hrun, hv⟩ := ih (Nat.le_of_succ_le hr)
    obtain ⟨v', hrow, hv'⟩ := h.runRow_eq hneurons hinput hr hv
    exact ⟨v', by rw [List.range_succ, runRows_snoc hrun hrow], hv'⟩

/-- A run of a plan in the layout is not refused. -/
theorem Laid.checkRun_eq (h : p.Laid net bytes rows) (hinput : input.size = net.inputSize)
    (hold : old.size = net.neuronCount) : p.checkRun input old = .ok () := by
  have hcovered : p.isCovered = true := by
    rw [isCovered, beq_iff_eq, Word.total_eq_sum, h.cols, ← Array.length_toList, h.cells,
      List.length_flatten]
  simp [checkRun, hinput, hold, h.inputSize, h.neuronCount, hcovered]

/-- **A run of a plan that is compiled** succeeds on every input and any previous values, if there
are as many as the net asks for.  It leaves each neuron the value that the net asks for: the share
of its previous value that its memory filter keeps, and for the rest what its activation makes of
its bias and its weighted sum, which is added up from zero in the order of its references, over
external inputs and new values of neurons.  The output is the values of the last neurons.  If every
neuron reads only neurons before it, then these are the values that an evaluation of one neuron
after another leaves.

A signed word counts the neurons, as it counts the bytes of any table.

**Proof sketch.** The plan is laid in rows.  By induction on the rows, the neurons of the rows that
have been run have new values, and no value that was read changes later. -/
theorem run_correct {s : PlanSettings} (hcompile : compile s net = .ok p)
    (hneurons : net.neuronCount < Word.signedLimit) (input old : Array Float)
    (hinput : input.size = net.inputSize) (hold : old.size = net.neuronCount) :
    ∃ new, p.run input old =
        (new, .ok (new.extract (net.neuronCount - net.outputNeurons) net.neuronCount)) ∧
      new.size = net.neuronCount ∧
      (∀ i < net.neuronCount, new.getD i 0.0 = net.newValue input old new i) ∧
      (net.Feedforward → new = net.evaluate input old) := by
  obtain ⟨threads, rows, -, -, -, hlaid, hall, -⟩ := compile_laid hcompile hneurons
  obtain ⟨v, hrun, hv⟩ := hlaid.runRows_eq hneurons hinput hold rows.length le_rfl
  rw [List.take_length] at hv
  have hnew : ∀ i < net.neuronCount, v.values.getD i 0.0 = net.newValue input old v.values i :=
    fun i hi => hv.new i (hall i hi)
  refine ⟨v.values, ?_, hv.size, hnew, fun hnet =>
    (Net.evaluate_eq hnet hold hv.size hnew).symm⟩
  have hdone : v.committed.toList.findIdx? (! ·) = none := by
    rw [List.findIdx?_eq_none_iff]
    intro b hb
    obtain ⟨i, hi⟩ := List.mem_iff_getElem?.mp hb
    rw [Array.getElem?_toList] at hi
    have hlt : i < net.neuronCount := hv.flags ▸ (Array.getElem?_eq_some_iff.mp hi).1
    rw [(hv.committed i).mpr (hall i hlt)] at hi
    simp [← Option.some.inj hi]
  unfold run
  rw [hlaid.checkRun_eq hinput hold, hlaid.neuronCount, hlaid.rows_eq, hrun]
  simp only [outputOfRun, hdone, outputOf, hlaid.neuronCount, hlaid.outputNeurons, hv.size]

/-- The diamond net has a plan, whose runs are evaluations of its neurons in order. -/
theorem run_correct_diamond :
    ∃ p, compile ⟨some 2, some 2000⟩ Net.diamond = .ok p ∧
      (p.run #[1.0] #[0.5, 0.0, 0.0, 0.25]).1 =
        Net.diamond.evaluate #[1.0] #[0.5, 0.0, 0.0, 0.25] := by
  have hforward : Net.diamond.Feedforward := by
    have hall : ∀ i < 4, ∀ j ∈ Net.diamond.inputsOf i, j < i := by decide
    exact fun i j hij => hall i hij.lt j hij
  obtain ⟨p, hp⟩ := compile_diamond_isOk
  obtain ⟨new, hrun, -, -, hevaluate⟩ :=
    run_correct hp (by decide) #[1.0] #[0.5, 0.0, 0.0, 0.25] rfl rfl
  exact ⟨p, hp, by rw [hrun, hevaluate hforward]⟩

end Plan

end NeuralPlan
