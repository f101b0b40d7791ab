import NeuralPlan.Proofs.Plan.Ending
import NeuralPlan.Proofs.Plan.Layout

/-!
# When a net has a plan

The rows of a plan are made until all neurons are in one.  This comes to an end, and it ends well
exactly if what the neurons name is there, the references make no cycle, and every neuron fits a
cell of its own.

## Main definitions

* `Net.Coherent` — what the neurons name is there.
* `Net.Fits` — every neuron fits a cell of its own.
* `Net.Justified` — an answer together with what it shows of the net.

## Main results

* `Packing.Packs.step_justified`, `packRow_justified` — the packing of a row.
* `Plan.Underway.justified` — the rows of a plan.
* `Plan.compile_isOk` — a net that meets all conditions has a plan.
* `Plan.compile_exhausted_iff`, `Plan.compile_eq_tooManyInputs` — if only one condition can fail.
* `Plan.compile_succeeds_iff` — when a net has a plan, and which failure tells what.
-/

set_option relaxedAutoImplicit false
set_option autoImplicit false

namespace NeuralPlan

open Result

/-! ## Conditions on a net -/

/-- What the neurons name is there: no neuron references too many neurons, all references, biases,
memory filters and weights are in range, and every neuron has as many weights as references. -/
structure Net.Coherent (net : Net) : Prop where
  few : ∀ n ∈ net.neurons, n.neuronInputs.length ≤ Frontier.maxReferences
  wellFormed : ∀ n ∈ net.neurons, n.WellFormed net

/-- Every neuron fits a cell of its own that may grow up to the budget. -/
def Net.Fits (net : Net) (budget : Nat) : Prop :=
  ∀ i < net.neuronCount, Cell.emptyBytes + net.bytesOf i ≤ budget

instance (net : Net) (budget : Nat) : Decidable (net.Fits budget) :=
  inferInstanceAs (Decidable (∀ i < net.neuronCount, _))

instance (net : Net) : Decidable net.Coherent :=
  decidable_of_iff ((∀ n ∈ net.neurons, n.neuronInputs.length ≤ Frontier.maxReferences) ∧
      ∀ n ∈ net.neurons, n.WellFormed net)
    ⟨fun ⟨hfew, hwell⟩ => ⟨hfew, hwell⟩, fun h => ⟨h.few, h.wellFormed⟩⟩

/-- The answer of an operation on the rows of a plan, together with what it shows of the net. -/
inductive Net.Justified (net : Net) (budget : Nat) {α : Type} : Result α → Prop
  /-- The operation succeeds. -/
  | done (a : α) : Justified net budget (.ok a)
  /-- The budget is exhausted, for a neuron does not fit. -/
  | exhausted {required limit : Nat} (h : ¬net.Fits budget) :
      Justified net budget (fail (.exhausted required limit))
  /-- No neuron is ready, for the references make a cycle. -/
  | stalled {iteration unprocessed : Nat} (h : ¬net.Acyclic) :
      Justified net budget (fail (.inconsistent (.stalled iteration unprocessed)))
  /-- The operation fails in another way, for something that a neuron names is not there. -/
  | refused {e : Failure} (h : ¬net.Coherent) (hends : Ends (.error e : Result α)) :
      Justified net budget (.error e)

variable {net : Net} {earlier : List Nat} {budget : Nat}

/-- Justified operations one after another are justified. -/
theorem Net.Justified.bind {α β : Type} {x : Result α} {f : α → Result β}
    (hx : net.Justified budget x) (hf : ∀ a, x = .ok a → net.Justified budget (f a)) :
    net.Justified budget (x >>= f) := by
  cases hx with
  | done a => exact hf a rfl
  | exhausted h => exact .exhausted h
  | stalled h => exact .stalled h
  | refused h hends => exact .refused h (hends.error rfl)

/-- A coherent net is readable. -/
theorem Net.Coherent.readable (h : net.Coherent) (hinputs : net.inputSize < Word.signedLimit)
    (hneurons : net.neuronCount < Word.signedLimit) : net.Readable := by
  refine ⟨fun n hn ref href => ?_, fun n hn j hj => (h.wellFormed n hn).neuronInputs_lt hj, h.few⟩
  exact (isInner_of_names hinputs hneurons ((h.wellFormed n hn).references ref href)).isSigned

/-- The neurons of the diamond net are well-formed. -/
theorem coherent_diamond : Net.diamond.Coherent := by decide

/-- The neurons of the diamond net only read neurons before them. -/
theorem acyclic_diamond : Net.diamond.Acyclic := by
  have hall : ∀ i < 4, ∀ j ∈ Net.diamond.inputsOf i, j < i := by decide
  exact Net.acyclic_of_rank id fun i j hij => hall i hij.lt j hij

/-! ## The packing of a row -/

namespace Packing

variable {p : Packing} {taken rest : List Nat} {i : Nat}

/-- A neuron that waits to be packed is not packed yet. -/
theorem Packs.not_mem_taken (h : p.Packs net earlier budget taken (i :: rest)) : i ∉ taken := by
  intro hi
  have hdone := (h.done i).mpr (.inr hi)
  obtain ⟨k, c, hstatus⟩ := (h.sound.reserved i).mp (by simp [h.subset])
  simp [Frontier.isDone, hstatus] at hdone

/-- **There is room** for the next neuron: the cell at hand is no larger than the costs of its
neurons allow, and these together with the next one cost no more than all. -/
theorem Packs.room (hbytes : Cell.emptyBytes + net.totalBytes < Word.limit)
    (h : p.Packs net earlier budget taken (i :: rest)) (hi : i < net.neuronCount) :
    p.draft.cell.sizeBytes + net.bytesOf i < Word.limit := by
  obtain ⟨parts, slots, hholds, hmade, hmembers⟩ := h.made
  have hsize := hholds.cell.sizeBytes_le
  rw [List.map_congr_left hmade.cost, ← Function.comp_def net.bytesOf Part.index,
    ← List.map_map] at hsize
  have hfresh : i ∉ parts.map Part.index := fun hmem =>
    h.not_mem_taken (hmembers ▸ List.mem_append_right _ hmem)
  have hsum := net.sum_bytesOf_le (List.nodup_cons.mpr ⟨hfresh, hholds.positions.nodup⟩)
    (List.forall_mem_cons.mpr ⟨hi, fun j hj => by
      obtain ⟨q, hq, rfl⟩ := List.mem_map.mp hj
      exact hmade.copies.index_lt hq⟩)
  rw [List.map_cons, List.sum_cons] at hsum
  omega

/-- A neuron of a coherent net can be taken in when it is due. -/
theorem Packs.add_isOk (hbytes : Cell.emptyBytes + net.totalBytes < Word.limit)
    (hinputs : net.inputSize < Word.signedLimit) (hcoherent : net.Coherent)
    (hearlier : ∀ j ∈ earlier, j < net.neuronCount)
    (h : p.Packs net earlier budget taken (i :: rest)) (hdue : i ∈ net.due earlier) :
    ∃ d, p.draft.add i = (d, .ok ()) := by
  have hneurons : net.neuronCount < Word.signedLimit := Net.neuronCount_lt (by omega)
  obtain ⟨hlt, -, hreads⟩ := Net.mem_due.mp hdue
  have hroom := h.room hbytes hlt
  obtain ⟨parts, slots, hholds, hmade, hmembers⟩ := h.made
  have hn : net.neurons[i]? = some net.neurons[i] := Array.getElem?_eq_getElem hlt
  have hwell := hcoherent.wellFormed _ (Array.getElem_mem hlt)
  have hinner : ∀ ref ∈ net.neurons[i].references, Word.IsInner ref := fun ref href =>
    isInner_of_names hinputs hneurons (hwell.references ref href)
  have hslots : ∀ ref ∈ slots, Word.IsInner ref := by
    intro ref href
    have hread := (hmade.slots ref href).2
    refine isInner_of_names hinputs hneurons ?_
    split at hread
    next hin => rwa [if_pos hin]
    next hin => rw [if_neg hin]; exact hearlier _ hread
  have hfresh : p.draft.contains i = false := by
    rw [Bool.eq_false_iff, ne_eq, hholds.contains_iff]
    rintro ⟨q, hq, hqi⟩
    refine h.not_mem_taken ?_
    rw [← hmembers, ← hqi]
    exact List.mem_append_right _ (List.mem_map_of_mem hq)
  have hcanRead : ∀ j ∈ net.neurons[i].neuronInputs, p.draft.canRead j = true := by
    intro j hj
    have hmem : j ∈ earlier := hreads j (by rwa [Net.Reads, Net.inputsOf_eq hn])
    simp [Draft.canRead, (h.available j).mpr hmem]
  have hsigned := (hcoherent.readable hinputs hneurons).signed _ (Array.getElem_mem hlt)
  obtain rfl := h.draftNet
  obtain ⟨hcost, hroom'⟩ := Draft.room_of_sizeBytes hn hroom
  have hsize : p.draft.net.neurons[i].size < Word.limit := by
    simp only [Neuron.bytes, Neuron.costOf_eq] at hcost
    omega
  refine hholds.add_isOk (Draft.accepts_of_wellFormed hn hwell hfresh hsize hsigned hcanRead)
    hroom' (fun q hq => ?_) hslots hinner
  have hq := hmade.copies.index_lt hq
  omega

/-- Taking a neuron in fails only for something that a neuron names. -/
theorem Packs.take_justified (hbytes : Cell.emptyBytes + net.totalBytes < Word.limit)
    (hinputs : net.inputSize < Word.signedLimit) (hearlier : ∀ j ∈ earlier, j < net.neuronCount)
    (h : p.Packs net earlier budget taken (i :: rest)) (hdue : i ∈ net.due earlier) :
    net.Justified budget (p.take i) := by
  have hends := p.draft.ends_add i
  unfold Packing.take
  rw [h.sound.confirmProcessed_first h.subset]
  split
  next d e hadd =>
    refine .refused (fun hcoherent => ?_) (hends.error (by rw [hadd]))
    obtain ⟨d', hok⟩ := h.add_isOk hbytes hinputs hcoherent hearlier hdue
    rw [hok] at hadd
    cases (Prod.mk.inj hadd).2
  next d hadd => exact .done _

/-- **One neuron more** is packed, or it does not fit, or something that it names is not there.

**Proof sketch.** A neuron that does not fit the cell at hand gets a new cell, so that one that
does not fit then exceeds the budget even on its own. -/
theorem Packs.step_justified (hbytes : Cell.emptyBytes + net.totalBytes < Word.limit)
    (hinputs : net.inputSize < Word.signedLimit) (hread : net.Readable)
    (hearlier : ∀ j ∈ earlier, j < net.neuronCount)
    (h : p.Packs net earlier budget taken (i :: rest)) (hdue : i ∈ net.due earlier) :
    net.Justified budget (p.step i budget) := by
  have hneurons : net.neuronCount < Word.signedLimit := Net.neuronCount_lt (by omega)
  have hlt : i < net.neuronCount := (Net.mem_due.mp hdue).1
  have hclose : ∃ p₁, p.closeIfFull i budget = .ok p₁ ∧
      (p₁.draft.cell.sizeBytes + net.bytesOf i ≤ budget ∨
        p₁.draft.cell.sizeBytes ≤ Cell.emptyBytes) := by
    unfold Packing.closeIfFull
    rw [h.canResolve_eq hread hdue, h.fits_eq hdue (h.room hbytes hlt)]
    cases hempty : p.draft.cell.isEmpty with
    | true =>
      obtain ⟨parts, slots, hholds, -, -⟩ := h.made
      have hsize := hholds.cell.sizeBytes_le
      rw [hholds.cell.isEmpty_iff.mp hempty] at hsize
      exact ⟨p, rfl, .inr hsize⟩
    | false =>
      by_cases hfits : p.draft.cell.sizeBytes + net.bytesOf i ≤ budget
      · exact ⟨p, by simp [hfits], .inl hfits⟩
      · exact ⟨p.close, by simp [hfits], .inr le_rfl⟩
  obtain ⟨p₁, hp₁, hsize⟩ := hclose
  have h₁ := h.closeIfFull hneurons hread hdue hp₁
  have hroom := h₁.room hbytes hlt
  have hcost : p₁.draft.costAt i = .ok (net.bytesOf i) := by
    rw [Draft.costAt_eq_ok_iff, h₁.draftNet]
    exact ⟨hlt, by omega, rfl⟩
  unfold Packing.step
  rw [hp₁, Result.ok_bind, h₁.canResolve_eq hread hdue, Result.ok_bind, h₁.fits_eq hdue hroom,
    hcost]
  by_cases hfits : p₁.draft.cell.sizeBytes + net.bytesOf i ≤ budget
  · have htake := h₁.take_justified hbytes hinputs hearlier hdue
    simpa [hfits] using htake
  · have hnot : ¬net.Fits budget := fun hall => by
      have hone := hall i hlt
      omega
    simpa [hfits] using Net.Justified.exhausted hnot

end Packing

/-- **The packing of a row** succeeds, or a neuron does not fit, or something that a neuron names is
not there. -/
theorem packRow_justified (hbytes : Cell.emptyBytes + net.totalBytes < Word.limit)
    (hinputs : net.inputSize < Word.signedLimit) (hread : net.Readable)
    (hearlier : ∀ j ∈ earlier, j < net.neuronCount) {f : Frontier} (hf : f.Stands net earlier)
    {available : Array Bool} (havailable : Marks available earlier) {chosen : List Nat}
    (hchosen : chosen.Sublist (net.due earlier)) :
    net.Justified budget (packRow net (f.withSubset chosen) available budget) := by
  have hneurons : net.neuronCount < Word.signedLimit := Net.neuronCount_lt (by omega)
  have hall : ∀ (rest taken : List Nat) (p : Packing), p.Packs net earlier budget taken rest →
      (∀ i ∈ rest, i ∈ net.due earlier) →
      net.Justified budget (rest.foldlM (fun p i => p.step i budget) p) := by
    intro rest
    induction rest with
    | nil => exact fun taken p _ _ => .done p
    | cons i rest ih =>
      intro taken p hp hdue
      obtain ⟨hi, hrest⟩ := List.forall_mem_cons.mp hdue
      rw [List.foldlM_cons]
      exact (hp.step_justified hbytes hinputs hread hearlier hi).bind fun p₁ hstep =>
        ih _ p₁ (hp.step hneurons hread hi hstep) hrest
  exact hall chosen [] _ (hf.packs_start havailable hchosen budget) fun i hi => hchosen.subset hi

/-! ## The rows of a plan -/

namespace Plan

variable {threads bytes : Nat} {f : Frontier} {available : Array Bool} {made : Plan}

/-- A row that holds neurons leaves fewer to process. -/
theorem packRow_lt (hneurons : net.neuronCount < Word.signedLimit) (hread : net.Readable)
    (hearlier : earlier.Nodup) (hf : f.Stands net earlier) (havailable : Marks available earlier)
    {chosen : List Nat} (hchosen : chosen.Sublist (net.due earlier)) (hne : chosen ≠ [])
    {row : Packing} (hrow : packRow net (f.withSubset chosen) available budget = .ok row) :
    row.frontier.neuronCount - row.frontier.processed < f.neuronCount - f.processed := by
  obtain ⟨hstands, -, -, -, -⟩ := packRow_spec hneurons hread hf havailable hchosen hrow
  have hbefore := hf.processed_eq hearlier
  have hafter := hstands.processed_eq (Net.nodup_append_due hearlier hchosen)
  have hpos := List.length_pos_iff.mpr hne
  have hle : row.frontier.processed ≤ net.neuronCount := by
    rw [hstands.sound.processed, hstands.netEq]
    exact List.countP_le_length.trans_eq List.length_range
  rw [Frontier.neuronCount, Frontier.neuronCount, hstands.sound.size, hf.sound.size, hstands.netEq,
    hf.netEq]
  rw [List.length_append] at hafter
  omega

/-- If no neuron is due though not all are in rows, the references make a cycle. -/
theorem not_acyclic_of_due_eq_nil (hread : net.Readable) (hdue : net.due earlier = [])
    (hsome : ∃ i < net.neuronCount, i ∉ earlier) : ¬net.Acyclic := by
  intro hacyclic
  obtain ⟨i, hlt, hnew, hleast⟩ := hacyclic.exists_minimal (· ∉ earlier) hsome
  have hmem : i ∈ net.due earlier := by
    refine Net.mem_due.mpr ⟨hlt, hnew, fun j hij => ?_⟩
    have hj : j < net.neuronCount := by
      have hn := Array.getElem?_eq_getElem hlt
      rw [Net.Reads, Net.inputsOf_eq hn] at hij
      exact hread.lt _ (Array.getElem_mem hlt) j hij
    by_contra hjnew
    exact hleast j hj hij hjnew
  simp [hdue] at hmem

/-- **The rows of a plan** can be made, or there is a reason why not.

**Proof sketch.** Induction on the number of unprocessed neurons, which every row lowers.  If not
all are processed and none is due, the references make a cycle.  Otherwise the longest affordable
prefix of what is due is packed, unless the budget of a row does not even afford its first
neuron. -/
theorem Underway.justified (hbytes : Cell.emptyBytes + net.totalBytes < Word.limit)
    (hinputs : net.inputSize < Word.signedLimit) (hread : net.Readable)
    (h : Underway net threads bytes f available made) :
    net.Justified (bytes / threads) (compileRows net threads bytes f available made) := by
  have hneurons : net.neuronCount < Word.signedLimit := Net.neuronCount_lt (by omega)
  have hcost : net.CostsFit := Net.costsFit_of_totalBytes (by omega)
  generalize hm : f.neuronCount - f.processed = m
  induction m using Nat.strong_induction_on generalizing f available made with
  | _ m ih =>
    have hunder := h
    obtain ⟨rows, hstands, -, hmarks, hlaid, -⟩ := h
    rw [compileRows]
    cases hfinished : f.finished with
    | true => exact .done made
    | false =>
      simp only [Bool.false_eq_true, if_false]
      cases hdue : net.due (membersOf rows) with
      | nil =>
        obtain ⟨g, hnone⟩ := collectRow_of_due_eq_nil threads bytes hstands hcost hdue
        rw [hnone]
        refine .stalled (not_acyclic_of_due_eq_nil hread hdue ?_)
        by_contra hall
        rw [Bool.eq_false_iff, ne_eq, hstands.sound.finished_iff, hstands.netEq] at hfinished
        refine hfinished fun i hi => (hstands.done i).mpr ?_
        by_contra hnew
        exact hall ⟨i, hi, hnew⟩
      | cons i rest =>
        have hi : i < net.neuronCount := (Net.mem_due.mp (by rw [hdue]; simp)).1
        by_cases hfit : net.bytesOf i ≤ bytes
        · have hcollect : collectRow f threads bytes = _ := collectRow_of_le hstands hcost hdue hfit
          generalize hchosen : affordable net.bytesOf bytes (net.due (membersOf rows)) = chosen
            at hcollect
          have hne : chosen ≠ [] := by
            rw [← hchosen, hdue, ne_eq, affordable_cons_eq_nil_iff]
            omega
          have hsub : chosen.Sublist (net.due (membersOf rows)) :=
            hchosen ▸ affordable_due_sublist net bytes _
          have hempty : chosen.isEmpty = false := by simpa using hne
          rw [hcollect, Result.ok_bind]
          simp only [hempty, Bool.false_eq_true, if_false]
          refine (packRow_justified hbytes hinputs hread (fun j hj => hlaid.lt_of_mem hj) hstands
            hmarks hsub).bind fun row hrow => ?_
          have hless := packRow_lt hneurons hread hlaid.nodup hstands hmarks hsub hne hrow
          rw [if_pos hless]
          exact ih _ (hm ▸ hless) (hunder.row hneurons hread hcost hcollect hne hrow) rfl
        · rw [collectRow_of_lt hstands hcost hdue (Nat.lt_of_not_le hfit)]
          refine .exhausted fun hall => ?_
          have hone := hall i hi
          have hdiv := Nat.div_le_self bytes threads
          omega

/-! ## Plans -/

variable {s : PlanSettings}

/-- **Compiling a net** makes a plan, or there is a reason why not. -/
theorem compile_justified (hbytes : Cell.emptyBytes + net.totalBytes < Word.limit)
    (hinputs : net.inputSize < Word.signedLimit) (hthreads : s.threads = some threads)
    (hpos : 0 < threads) :
    net.Justified (s.bytes.getD PlanSettings.defaultBytes / threads) (compile s net) := by
  have hneurons : net.neuronCount < Word.signedLimit := Net.neuronCount_lt (by omega)
  unfold compile
  rw [hthreads]
  split
  next hnone => cases hnone
  next hzero =>
    obtain rfl := Option.some.inj hzero
    exact absurd hpos (Nat.lt_irrefl 0)
  next t ht hsome =>
    obtain rfl := Option.some.inj hsome
    have hends := Frontier.ends_ofNet net
    cases hstart : Frontier.ofNet net with
    | error e =>
      refine .refused (fun hcoherent => ?_) (hends.error hstart)
      rw [Frontier.ofNet_eq_ok_iff.mpr ⟨hcoherent.readable hinputs hneurons, rfl⟩] at hstart
      cases hstart
    | ok start =>
      obtain ⟨hread, rfl⟩ := Frontier.ofNet_eq_ok_iff.mp hstart
      exact (underway_start hread threads _).justified hbytes hinputs hread

/-- A net that meets all conditions has a plan. -/
theorem compile_isOk (hbytes : Cell.emptyBytes + net.totalBytes < Word.limit)
    (hinputs : net.inputSize < Word.signedLimit) (hthreads : s.threads = some threads)
    (hpos : 0 < threads) (hcoherent : net.Coherent) (hacyclic : net.Acyclic)
    (hfits : net.Fits (s.bytes.getD PlanSettings.defaultBytes / threads)) :
    ∃ p, compile s net = .ok p := by
  have hjustified := compile_justified hbytes hinputs hthreads hpos
  generalize compile s net = answer at hjustified
  cases hjustified with
  | done p => exact ⟨p, rfl⟩
  | exhausted h => exact absurd hfits h
  | stalled h => exact absurd hacyclic h
  | refused h _ => exact absurd hcoherent h

/-- The diamond net has a plan. -/
theorem compile_diamond_isOk : ∃ p, compile ⟨some 2, some 2000⟩ Net.diamond = .ok p :=
  compile_isOk (by decide) (by decide) rfl (by decide) coherent_diamond acyclic_diamond (by decide)

/-- A net that has a plan meets all conditions. -/
theorem conditions_of_compile {p : Plan} (hneurons : net.neuronCount < Word.signedLimit)
    (hcompile : compile s net = .ok p) :
    ∃ threads, s.threads = some threads ∧ 0 < threads ∧ net.Coherent ∧ net.Acyclic ∧
      net.Fits (s.bytes.getD PlanSettings.defaultBytes / threads) := by
  obtain ⟨threads, rows, hthreads, hpos, hread, hlaid, hall, hsolvable⟩ :=
    compile_laid hcompile hneurons
  refine ⟨threads, hthreads, hpos, ⟨hread.few, fun n hn => ?_⟩,
    Net.acyclic_of_rank (rowOf rows) fun i j hij => hlaid.rowOf_lt_rowOf hall hij, fun i hi => ?_⟩
  · obtain ⟨i, hi⟩ := Array.mem_iff_getElem?.mp hn
    obtain ⟨n', hn', hwell, -⟩ := hsolvable i (hall i (Array.getElem?_eq_some_iff.mp hi).1)
    obtain rfl := Option.some.inj (hi.symm.trans hn')
    exact hwell
  · obtain ⟨n, -, -, hfits⟩ := hsolvable i (hall i hi)
    exact hfits

/-- If only the memory can be in the way, then it is exhausted when a net has no plan. -/
theorem compile_exhausted_iff (hbytes : Cell.emptyBytes + net.totalBytes < Word.limit)
    (hinputs : net.inputSize < Word.signedLimit) (hthreads : s.threads = some threads)
    (hpos : 0 < threads) (hcoherent : net.Coherent) (hacyclic : net.Acyclic) :
    (∀ e, compile s net = .error e →
      ∃ required limit, e = .error (.exhausted required limit)) ∧
    ((∃ e, compile s net = .error e) ↔
      ¬net.Fits (s.bytes.getD PlanSettings.defaultBytes / threads)) := by
  have hneurons : net.neuronCount < Word.signedLimit := Net.neuronCount_lt (by omega)
  have hfits : ∀ p, compile s net = .ok p →
      net.Fits (s.bytes.getD PlanSettings.defaultBytes / threads) := by
    intro p hp
    obtain ⟨threads', hthreads', -, -, -, hfits⟩ := conditions_of_compile hneurons hp
    obtain rfl := Option.some.inj (hthreads.symm.trans hthreads')
    exact hfits
  have hjustified := compile_justified hbytes hinputs hthreads hpos
  generalize compile s net = answer at hjustified hfits
  cases hjustified with
  | done p => exact ⟨nofun, nofun, fun h => absurd (hfits p rfl) h⟩
  | exhausted h =>
    exact ⟨fun e he => ⟨_, _, (Except.error.inj he).symm⟩, fun _ => h, fun _ => ⟨_, rfl⟩⟩
  | stalled h => exact absurd hacyclic h
  | refused h _ => exact absurd hcoherent h

/-- If only the number of neurons that a neuron reads is in the way, then this is reported. -/
theorem compile_eq_tooManyInputs (hinputs : net.inputSize < Word.signedLimit)
    (hneurons : net.neuronCount < Word.signedLimit) (hthreads : s.threads = some threads)
    (hpos : 0 < threads) (hwell : ∀ n ∈ net.neurons, n.WellFormed net)
    (hmany : ¬∀ n ∈ net.neurons, n.neuronInputs.length ≤ Frontier.maxReferences) :
    ∃ i, compile s net = fail (.invalidState (.tooManyInputs i)) := by
  have hsigned : ∀ n ∈ net.neurons, ∀ ref ∈ n.references, Word.IsSigned ref := fun n hn ref href =>
    (isInner_of_names hinputs hneurons ((hwell n hn).references ref href)).isSigned
  cases hstart : Frontier.ofNet net with
  | ok f => exact absurd (Frontier.ofNet_eq_ok_iff.mp hstart).1.few hmany
  | error e =>
    obtain ⟨i, rfl⟩ :=
      Frontier.failsIn_ofNet hsigned (fun n hn j => (hwell n hn).neuronInputs_lt) e hstart
    obtain ⟨t, rfl⟩ := Nat.exists_eq_succ_of_ne_zero hpos.ne'
    refine ⟨i, ?_⟩
    simp [compile, hthreads, hstart, fail]

/-- **When a net has a plan.**  If a word counts the bytes of a cell for all neurons, and a signed
one the external inputs, then compiling the net comes to an end; it makes a plan exactly if there is
a thread, what the neurons name is there, the references make no cycle, and every neuron fits a cell
of its own in the memory of one thread.  If only the references are in the way, the report is that
no neuron is left that can be solved; if only the memory is, that it is exhausted.

**Proof sketch.** Every answer is justified by a condition that does not hold.  Conversely, the rows
of a plan rank the neurons above those that they read, and every neuron was taken into one of its
cells. -/
theorem compile_succeeds_iff (s : PlanSettings) (net : Net)
    (hbytes : Cell.emptyBytes + net.totalBytes < Word.limit)
    (hinputs : net.inputSize < Word.signedLimit) :
    compile s net ≠ stop .endless ∧
    ((∃ p, compile s net = .ok p) ↔
      ∃ threads, s.threads = some threads ∧ 1 ≤ threads ∧ net.Coherent ∧ net.Acyclic ∧
        net.Fits (s.bytes.getD PlanSettings.defaultBytes / threads)) ∧
    ∀ threads, s.threads = some threads → 1 ≤ threads → net.Coherent →
      (¬net.Acyclic → net.Fits (s.bytes.getD PlanSettings.defaultBytes / threads) →
        ∃ iteration unprocessed,
          compile s net = fail (.inconsistent (.stalled iteration unprocessed))) ∧
      (net.Acyclic → ¬net.Fits (s.bytes.getD PlanSettings.defaultBytes / threads) →
        ∃ required limit, compile s net = fail (.exhausted required limit)) := by
  have hneurons : net.neuronCount < Word.signedLimit := Net.neuronCount_lt (by omega)
  have hsound : ∀ p, compile s net = .ok p → _ := fun p hp => conditions_of_compile hneurons hp
  refine ⟨?_, ⟨?_, ?_⟩, fun threads hthreads hpos hcoherent => ?_⟩
  · cases hthreads : s.threads with
    | none => simp [compile, hthreads, fail, stop]
    | some threads =>
      rcases Nat.eq_zero_or_pos threads with rfl | hpos
      · simp [compile, hthreads, fail, stop]
      · have hjustified := compile_justified hbytes hinputs hthreads hpos
        generalize compile s net = answer at hjustified
        cases hjustified with
        | done p => exact ends_ok p
        | exhausted _ => exact ends_fail _
        | stalled _ => exact ends_fail _
        | refused _ hends => exact hends
  · rintro ⟨p, hp⟩
    exact hsound p hp
  · rintro ⟨threads, hthreads, hpos, hcoherent, hacyclic, hfits⟩
    exact compile_isOk hbytes hinputs hthreads hpos hcoherent hacyclic hfits
  · have hjustified := compile_justified hbytes hinputs hthreads hpos
    generalize compile s net = answer at hjustified hsound
    cases hjustified with
    | done p =>
      obtain ⟨threads', hthreads', -, -, hacyclic, hfits⟩ := hsound p rfl
      obtain rfl := Option.some.inj (hthreads.symm.trans hthreads')
      exact ⟨fun h _ => absurd hacyclic h, fun _ h => absurd hfits h⟩
    | exhausted h => exact ⟨fun _ hfits => absurd hfits h, fun _ _ => ⟨_, _, rfl⟩⟩
    | stalled h => exact ⟨fun _ _ => ⟨_, _, rfl⟩, fun hacyclic _ => absurd hacyclic h⟩
    | refused h _ => exact absurd hcoherent h

/-- The diamond net does not have a plan in little memory, and the report says so. -/
theorem compile_succeeds_iff_diamond :
    ∃ required limit,
      compile ⟨some 2, some 700⟩ Net.diamond = fail (.exhausted required limit) := by
  obtain ⟨-, -, honly⟩ :=
    compile_succeeds_iff ⟨some 2, some 700⟩ Net.diamond (by decide) (by decide)
  exact (honly 2 rfl (by decide) coherent_diamond).2 acyclic_diamond (by decide)

end Plan

end NeuralPlan
