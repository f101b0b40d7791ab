import NeuralPlan.Plan.Compile
import NeuralPlan.Proofs.Draft.Add
import NeuralPlan.Proofs.Frontier.Strict

/-!
# Packing a row

A strict collection hands over neurons whose inputs are all processed.  Packing them into cells,
each is taken into a cell in its turn, none is left, and no cell reads one of its own neurons.

## Main definitions

* `Net.due` — the neurons that can be solved after those of earlier rows.
* `Made`, `Cell.IsMade` — what is made for neurons that are due.
* `Net.Solvable` — a neuron that a cell of its own can solve.
* `Packing.Packs` — the invariant of the packing of a row.

## Main results

* `Packing.Packs.step` — one neuron more is packed.
* `packRow_spec` — the cells of a row.
-/

set_option relaxedAutoImplicit false
set_option autoImplicit false

namespace NeuralPlan

/-! ## What is made for a row -/

/-- The neurons that are not among the earlier ones while all that they read is, in ascending
order. -/
def Net.due (net : Net) (earlier : List Nat) : List Nat :=
  (List.range net.neuronCount).filter fun i =>
    !earlier.contains i && (net.inputsOf i).all earlier.contains

/-- A neuron is due if it is not among the earlier ones while all that it reads is. -/
theorem Net.mem_due {net : Net} {earlier : List Nat} {i : Nat} :
    i ∈ net.due earlier ↔
      i < net.neuronCount ∧ i ∉ earlier ∧ ∀ j, net.Reads i j → j ∈ earlier := by
  simp [due, Reads]

/-- Neurons that are due may be added to the earlier ones. -/
theorem Net.nodup_append_due {net : Net} {earlier chosen : List Nat} (hearlier : earlier.Nodup)
    (hchosen : chosen.Sublist (net.due earlier)) : (earlier ++ chosen).Nodup := by
  refine List.nodup_append'.mpr ⟨hearlier, (List.nodup_range.filter _).sublist hchosen, ?_⟩
  exact fun i hi hi' => (Net.mem_due.mp (hchosen.subset hi')).2.1 hi

/-- The parts copy neurons of the net, at their costs, and read nothing but external inputs and the
earlier neurons. -/
structure Made (net : Net) (earlier : List Nat) (parts : List Part) (slots : List Int) : Prop where
  copies : Copies net parts slots
  cost : ∀ p ∈ parts, Neuron.costOf p.weights.length = net.bytesOf p.index
  external : ∀ p ∈ parts, ∀ s ∈ p.sources, s < 0
  slots : ∀ ref ∈ slots, Word.IsSigned ref ∧
    if Ref.isInput ref then (-(ref + 1)).toNat < net.inputSize else ref.toNat ∈ earlier

/-- The cell holds parts that are made after the earlier neurons. -/
def Cell.IsMade (net : Net) (earlier : List Nat) (c : Cell) : Prop :=
  ∃ parts slots, parts ≠ [] ∧ c.Holds parts slots ∧ Made net earlier parts slots

/-- The neuron `i` is well-formed, and a cell of its own stays within the budget. -/
def Net.Solvable (net : Net) (budget i : Nat) : Prop :=
  ∃ n, net.neurons[i]? = some n ∧ n.WellFormed net ∧ Cell.emptyBytes + net.bytesOf i ≤ budget

variable {net : Net} {earlier : List Nat} {budget : Nat}

/-- Nothing is made yet. -/
theorem made_nil (net : Net) (earlier : List Nat) : Made net earlier [] [] :=
  ⟨fun k p hp => by simp at hp, by simp, by simp, by simp⟩

/-- The neurons of a cell that is made. -/
theorem Made.members_eq {c : Cell} {parts : List Part} {slots : List Int}
    (h : Made net earlier parts slots) (hneurons : net.neuronCount < Word.signedLimit)
    (hholds : c.Holds parts slots) : c.members = parts.map Part.index :=
  hholds.members_eq fun _ hp => (h.copies.index_lt hp).trans hneurons

/-- A neuron that is due is taken in as a part that reads external inputs and earlier neurons. -/
theorem Made.snoc {d d' : Draft} {parts : List Part} {slots : List Int} {i : Nat}
    (h : Made net earlier parts slots) (hholds : d.Holds parts slots) (hnet : d.net = net)
    (hparts : ∀ p ∈ parts, p.index ∉ earlier) (hdue : i ∈ net.due earlier)
    (hroom : d.cell.sizeBytes + net.bytesOf i < Word.limit) (hadd : d.add i = (d', .ok ())) :
    ∃ p new, p.index = i ∧ d'.Holds (parts ++ [p]) (slots ++ new) ∧
      Made net earlier (parts ++ [p]) (slots ++ new) ∧ d'.net = net ∧
      d'.available = d.available ∧ ∃ n, net.neurons[i]? = some n ∧ n.WellFormed net := by
  subst hnet
  obtain ⟨n, p, new, haccepts, rfl, hcopies, -, hholds', hnet', havailable', hnew⟩ :=
    hholds.add_spec (fun n hn => (Draft.room_of_sizeBytes hn hroom).2) hadd
  obtain ⟨-, -, hinputs⟩ := Net.mem_due.mp hdue
  have hwell := haccepts.wellFormed
  have hreads : ∀ ref ∈ n.references, Ref.isInput ref = false → ref.toNat ∈ earlier := by
    intro ref href hin
    refine hinputs _ ?_
    rw [Net.Reads, Net.inputsOf_eq haccepts.neuron]
    exact Neuron.mem_neuronInputs.mpr ⟨ref, href, hin, rfl⟩
  have hcost : Neuron.costOf p.weights.length = d.net.bytesOf p.index := by
    have hlen := congrArg List.length hcopies.weights
    rw [List.length_map, List.length_map] at hlen
    rw [Net.bytesOf_eq haccepts.neuron, Neuron.bytes, ← hwell.count, hlen]
  refine ⟨p, new, rfl, hholds', ⟨h.copies.snoc hcopies, ?_, ?_, ?_⟩, hnet', havailable', n,
    haccepts.neuron, hwell⟩
  · intro q hq
    rcases List.mem_append.mp hq with hq | hq
    · exact h.cost q hq
    · rwa [List.mem_singleton.mp hq]
  · intro q hq s hs
    rcases List.mem_append.mp hq with hq | hq
    · exact h.external q hq s hs
    · rw [List.mem_singleton.mp hq] at hs
      obtain ⟨ref, href, hres⟩ := hcopies.exists_reference hs
      rcases hres with ⟨-, q', hq', rfl⟩ | ⟨hneg, -⟩
      · have hmem := hreads _ href (by simp [Ref.isInput])
        rw [Int.toNat_natCast] at hmem
        exact absurd hmem (hparts q' (List.mem_of_getElem? hq'))
      · exact hneg
  · intro ref href
    rcases List.mem_append.mp href with href | href
    · exact h.slots ref href
    · rw [hnew, mem_firstUses, mem_outside] at href
      obtain ⟨⟨hmem, -⟩, -⟩ := href
      obtain ⟨hsigned, -⟩ := haccepts.references ref hmem
      refine ⟨hsigned, ?_⟩
      have hname := hwell.references ref hmem
      split at hname
      next hin => rwa [if_pos hin]
      next hin =>
        rw [if_neg hin]
        exact hreads ref hmem (by simpa using hin)

/-! ## The packing of a row -/

namespace Packing

/-- The neurons `taken` are packed, and `rest` is still to be packed: the frontier has processed the
former and waits for the latter, the cells hold just the former, and so on. -/
structure Packs (net : Net) (earlier : List Nat) (budget : Nat) (p : Packing)
    (taken rest : List Nat) : Prop where
  sound : p.frontier.Sound
  netEq : p.frontier.net = net
  subset : p.frontier.subset = rest
  done : ∀ i, p.frontier.isDone i = true ↔ i ∈ earlier ∨ i ∈ taken
  draftNet : p.draft.net = net
  available : ∀ i, p.draft.isAvailable i = true ↔ i ∈ earlier
  made : ∃ parts slots, p.draft.Holds parts slots ∧ Made net earlier parts slots ∧
    p.columns.toList.flatMap Cell.members ++ parts.map Part.index = taken
  columns : ∀ c ∈ p.columns, c.IsMade net earlier
  committed : p.committed.toList = taken
  due : ∀ i ∈ taken, i ∈ net.due earlier
  solvable : ∀ i ∈ taken, net.Solvable budget i

variable {p p' : Packing} {taken rest : List Nat} {i : Nat}

/-- Closing a cell that holds neurons changes nothing of what is packed. -/
theorem Packs.close (hneurons : net.neuronCount < Word.signedLimit)
    (h : p.Packs net earlier budget taken rest) (hcell : p.draft.cell.isEmpty = false) :
    p.close.Packs net earlier budget taken rest := by
  obtain ⟨parts, slots, hholds, hmade, hmembers⟩ := h.made
  have hparts : parts ≠ [] := fun hnil => by
    rw [hholds.cell.isEmpty_iff.mpr hnil] at hcell
    exact absurd hcell (by decide)
  refine { h with
    made := ⟨[], [], Draft.holds_start _ _, made_nil _ _, ?_⟩, columns := fun c hc => ?_ }
  · have hcolumns : p.close.columns.toList.flatMap Cell.members =
        p.columns.toList.flatMap Cell.members ++ parts.map Part.index := by
      simp [Packing.close, hmade.members_eq hneurons hholds.cell]
    rw [hcolumns, hmembers]
    exact List.append_nil _
  · rcases Array.mem_push.mp hc with hc | rfl
    · exact h.columns c hc
    · exact ⟨parts, slots, hparts, hholds.cell, hmade⟩

/-- A neuron that is due can be read by any cell of the row. -/
theorem Packs.canResolve_eq (hread : net.Readable) (h : p.Packs net earlier budget taken rest)
    (hdue : i ∈ net.due earlier) : p.draft.canResolve i = .ok true := by
  obtain ⟨hlt, -, hinputs⟩ := Net.mem_due.mp hdue
  have hn : net.neurons[i]? = some net.neurons[i] := Array.getElem?_eq_getElem hlt
  have hall : net.neurons[i].neuronInputs.all p.draft.canRead = true := by
    rw [List.all_eq_true]
    intro j hj
    have hearlier : j ∈ earlier := hinputs j (by rwa [Net.Reads, Net.inputsOf_eq hn])
    simp [Draft.canRead, (h.available j).mpr hearlier]
  rw [Draft.canResolve_eq (h.draftNet ▸ hn) (hread.signed _ (Array.getElem_mem hlt)), hall]

/-- Whether a neuron that is due fits the cell at hand. -/
theorem Packs.fits_eq (h : p.Packs net earlier budget taken rest) (hdue : i ∈ net.due earlier)
    (hroom : p.draft.cell.sizeBytes + net.bytesOf i < Word.limit) :
    p.draft.fits i budget = .ok (decide (p.draft.cell.sizeBytes + net.bytesOf i ≤ budget)) := by
  obtain ⟨hlt, -, -⟩ := Net.mem_due.mp hdue
  rw [Draft.fits_eq_ok_iff, h.draftNet]
  exact ⟨hlt, by omega, hroom, rfl⟩

/-- **Taking a neuron** that is due packs it. -/
theorem Packs.take (h : p.Packs net earlier budget taken (i :: rest)) (hdue : i ∈ net.due earlier)
    (hroom : p.draft.cell.sizeBytes + net.bytesOf i < Word.limit)
    (hfits : p.draft.cell.sizeBytes + net.bytesOf i ≤ budget) (htake : p.take i = .ok p') :
    p'.Packs net earlier budget (taken ++ [i]) rest := by
  obtain ⟨parts, slots, hholds, hmade, hmembers⟩ := h.made
  have hearlier : ∀ q ∈ parts, q.index ∉ earlier := fun q hq => by
    have hmem : q.index ∈ taken :=
      hmembers ▸ List.mem_append_right _ (List.mem_map_of_mem hq)
    exact (Net.mem_due.mp (h.due _ hmem)).2.1
  unfold Packing.take at htake
  rw [h.sound.confirmProcessed_first h.subset] at htake
  split at htake
  next d' e hadd => cases htake
  next d' hadd =>
    obtain rfl := Except.ok.inj htake
    obtain ⟨part, new, rfl, hholds', hmade', hnet, havailable, n, hn, hwell⟩ :=
      hmade.snoc hholds h.draftNet hearlier hdue hroom hadd
    have hsize : Cell.emptyBytes ≤ p.draft.cell.sizeBytes := by
      unfold Cell.sizeBytes
      omega
    have hindex : part.index < p.frontier.status.size := by
      rw [h.sound.size, h.netEq]
      exact (Net.mem_due.mp hdue).1
    refine ⟨h.sound.processFirst h.subset, h.netEq, rfl, fun j => ?_, hnet, fun j => ?_,
      ⟨parts ++ [part], slots ++ new, hholds', hmade', ?_⟩, h.columns, ?_, fun j hj => ?_,
      fun j hj => ?_⟩
    · change (p.frontier.processFirst part.index rest).isDone j = true ↔ _
      rw [Frontier.isDone_processFirst hindex, Bool.or_eq_true, h.done, beq_iff_eq,
        List.mem_append, List.mem_singleton, or_assoc]
    · rw [← h.available j]
      simp only [Draft.isAvailable, havailable]
    · rw [List.map_append, ← List.append_assoc, hmembers]
      rfl
    · simp [h.committed]
    · rcases List.mem_append.mp hj with hj | hj
      · exact h.due j hj
      · rwa [List.mem_singleton.mp hj]
    · rcases List.mem_append.mp hj with hj | hj
      · exact h.solvable j hj
      · rw [List.mem_singleton.mp hj]
        exact ⟨n, hn, hwell, by omega⟩

/-- Before a neuron that is due, the cell is closed exactly if it holds neurons that this one does
not fit with. -/
theorem Packs.closeIfFull_eq_ok (hread : net.Readable) (h : p.Packs net earlier budget taken rest)
    (hdue : i ∈ net.due earlier) (hclose : p.closeIfFull i budget = .ok p') :
    p' = p ∧ (p.draft.cell.isEmpty = true ∨
        p.draft.cell.sizeBytes + net.bytesOf i ≤ budget) ∨
      p' = p.close ∧ p.draft.cell.isEmpty = false ∧
        budget < p.draft.cell.sizeBytes + net.bytesOf i := by
  unfold Packing.closeIfFull at hclose
  cases hempty : p.draft.cell.isEmpty with
  | true =>
    obtain rfl : p = p' := by simpa [hempty] using hclose
    exact .inl ⟨rfl, .inl rfl⟩
  | false =>
    simp only [hempty, Bool.false_eq_true, if_false, h.canResolve_eq hread hdue, Result.ok_bind,
      Bool.not_true, Result.bind_eq_ok_iff, Result.pure_eq_ok] at hclose
    obtain ⟨b, hfits, hclose⟩ := hclose
    obtain ⟨-, -, -, rfl⟩ := Draft.fits_eq_ok_iff.mp hfits
    rw [h.draftNet] at hclose
    split at hclose
    next hle =>
      obtain rfl := Except.ok.inj hclose
      exact .inl ⟨rfl, .inr (by simpa using hle)⟩
    next hbig =>
      obtain rfl := Except.ok.inj hclose
      exact .inr ⟨rfl, rfl, by simpa using hbig⟩

/-- Before a neuron that is due a cell may be closed. -/
theorem Packs.closeIfFull (hneurons : net.neuronCount < Word.signedLimit) (hread : net.Readable)
    (h : p.Packs net earlier budget taken rest) (hdue : i ∈ net.due earlier)
    (hclose : p.closeIfFull i budget = .ok p') : p'.Packs net earlier budget taken rest := by
  rcases h.closeIfFull_eq_ok hread hdue hclose with ⟨rfl, -⟩ | ⟨rfl, hempty, -⟩
  · exact h
  · exact h.close hneurons hempty

/-- A neuron that is due and packed is taken into the cell at hand, after this has been closed if
necessary, and fits it. -/
theorem Packs.step_eq_ok (hneurons : net.neuronCount < Word.signedLimit) (hread : net.Readable)
    (h : p.Packs net earlier budget taken rest) (hdue : i ∈ net.due earlier)
    (hstep : p.step i budget = .ok p') :
    ∃ p₁, p.closeIfFull i budget = .ok p₁ ∧
      p₁.draft.cell.sizeBytes + net.bytesOf i < Word.limit ∧
      p₁.draft.cell.sizeBytes + net.bytesOf i ≤ budget ∧ p₁.take i = .ok p' := by
  obtain ⟨p₁, hclose, hstep⟩ := Result.bind_eq_ok_iff.mp hstep
  have h₁ := h.closeIfFull hneurons hread hdue hclose
  simp only [h₁.canResolve_eq hread hdue, Result.ok_bind, Bool.not_true, Bool.false_eq_true,
    if_false, Result.bind_eq_ok_iff] at hstep
  obtain ⟨b, hfits, hstep⟩ := hstep
  obtain ⟨-, -, hroom, rfl⟩ := Draft.fits_eq_ok_iff.mp hfits
  rw [h₁.draftNet] at hroom hstep
  split at hstep
  next hle => exact ⟨p₁, hclose, hroom, by simpa using hle, hstep⟩
  next hle =>
    obtain ⟨c, -, hfail⟩ := Result.bind_eq_ok_iff.mp hstep
    cases hfail

/-- **One neuron more is packed**, in the cell at hand or in a new one. -/
theorem Packs.step (hneurons : net.neuronCount < Word.signedLimit) (hread : net.Readable)
    (h : p.Packs net earlier budget taken (i :: rest)) (hdue : i ∈ net.due earlier)
    (hstep : p.step i budget = .ok p') : p'.Packs net earlier budget (taken ++ [i]) rest := by
  obtain ⟨p₁, hclose, hroom, hfits, htake⟩ := h.step_eq_ok hneurons hread hdue hstep
  exact (h.closeIfFull hneurons hread hdue hclose).take hdue hroom hfits htake

/-- **The first neurons of the subset are packed**, one after another. -/
theorem Packs.foldlM (hneurons : net.neuronCount < Word.signedLimit) (hread : net.Readable)
    {pre post : List Nat} (h : p.Packs net earlier budget taken rest) (hrest : rest = pre ++ post)
    (hdue : ∀ i ∈ pre, i ∈ net.due earlier)
    (hfold : pre.foldlM (fun p i => p.step i budget) p = .ok p') :
    p'.Packs net earlier budget (taken ++ pre) post := by
  induction pre generalizing p taken rest with
  | nil =>
    obtain rfl : p = p' := by simpa using hfold
    rwa [List.append_nil, ← List.nil_append post, ← hrest]
  | cons i pre ih =>
    subst hrest
    obtain ⟨hi, hpre⟩ := List.forall_mem_cons.mp hdue
    rw [List.foldlM_cons, Result.bind_eq_ok_iff] at hfold
    obtain ⟨p₁, hstep, hfold⟩ := hfold
    have hall := ih (h.step hneurons hread hi hstep) rfl hpre hfold
    rwa [List.append_assoc, List.singleton_append] at hall

end Packing

/-! ## The cells of a row -/

/-- The frontier stands between two rows: it has processed the earlier neurons, and waits for no
confirmation. -/
structure Frontier.Stands (f : Frontier) (net : Net) (earlier : List Nat) : Prop where
  sound : f.Sound
  netEq : f.net = net
  subset : f.subset = []
  done : ∀ i, f.isDone i = true ↔ i ∈ earlier

/-- A frontier that stands after different neurons has processed as many. -/
theorem Frontier.Stands.processed_eq {f : Frontier} (h : f.Stands net earlier)
    (hearlier : earlier.Nodup) : f.processed = earlier.length := by
  have hperm : ((List.range f.net.neuronCount).filter f.isDone).Perm earlier := by
    refine (List.perm_ext_iff_of_nodup (List.nodup_range.filter _) hearlier).mpr fun i => ?_
    rw [List.mem_filter, List.mem_range, h.done]
    refine ⟨fun hi => hi.2, fun hi => ⟨?_, hi⟩⟩
    exact h.sound.size ▸ lt_of_isDone ((h.done i).mpr hi)
  rw [h.sound.processed, List.countP_eq_length_filter, hperm.length_eq]

/-- The flags tell which neurons are among the earlier ones. -/
def Marks (available : Array Bool) (earlier : List Nat) : Prop :=
  ∀ i, available[i]?.getD false = true ↔ i ∈ earlier

/-- Between two rows, the neurons that are ready are those that are due. -/
theorem Frontier.Stands.ready_eq {f : Frontier} (h : f.Stands net earlier) :
    f.ready = net.due earlier := by
  have hready : ∀ i, i ∈ f.ready ↔ i ∈ net.due earlier := by
    intro i
    rw [h.sound.mem_ready, isReady_iff, Net.mem_due, h.netEq]
    constructor
    · rintro ⟨⟨c, hc⟩, hinputs⟩
      refine ⟨h.netEq ▸ h.sound.size ▸ (Array.getElem?_eq_some_iff.mp hc).1, fun hi => ?_,
        fun j hj => (h.done j).mp (hinputs j hj)⟩
      have hdone := (h.done i).mpr hi
      simp [isDone, hc] at hdone
    · rintro ⟨hlt, hnew, hinputs⟩
      refine ⟨?_, fun j hj => (h.done j).mpr (hinputs j hj)⟩
      have hi : i < f.status.size := by rwa [h.sound.size, h.netEq]
      have hget : f.status[i]? = some f.status[i] := Array.getElem?_eq_getElem hi
      cases hs : f.status[i] with
      | waiting c => exact ⟨c, by rw [hget, hs]⟩
      | reserved k c =>
        have hsubset := (h.sound.reserved i).mpr ⟨k, c, by rw [hget, hs]⟩
        simp [h.subset] at hsubset
      | processed => exact absurd ((h.done i).mp (by simp [isDone, hget, hs])) hnew
  exact f.sorted_ready.eq_of_mem_iff (List.pairwise_lt_range.filter _) hready

/-- Keeping neurons that are due keeps the frontier sound. -/
theorem Frontier.Stands.sound_withSubset {f : Frontier} (h : f.Stands net earlier)
    {chosen : List Nat} (hchosen : chosen.Sublist (net.due earlier)) :
    (f.withSubset chosen).Sound := by
  rw [← h.ready_eq] at hchosen
  have hwaiting : ∀ i ∈ chosen, ∃ c, f.status[i]? = some (.waiting c) := fun i hi =>
    (isReady_iff.mp (h.sound.mem_ready.mp (hchosen.subset hi))).1
  exact h.sound.withSubset h.subset (f.sorted_ready.sublist hchosen) hwaiting

/-- When neurons that are due have been collected, they can be packed. -/
theorem Frontier.Stands.packs_start {f : Frontier} (h : f.Stands net earlier)
    {available : Array Bool} (havailable : Marks available earlier) {chosen : List Nat}
    (hchosen : chosen.Sublist (net.due earlier)) (budget : Nat) :
    Packing.Packs net earlier budget ⟨f.withSubset chosen, .start net available, #[], #[]⟩ []
      chosen := by
  refine ⟨h.sound_withSubset hchosen, h.netEq, rfl, fun i => ?_, rfl, havailable,
    ⟨[], [], Draft.holds_start _ _, made_nil _ _, rfl⟩, by simp, rfl, by simp, by simp⟩
  rw [isDone_withSubset, h.done]
  simp

/-- When all is packed, the cells of the row hold what was packed. -/
theorem Packing.Packs.cells_spec {p : Packing} {taken : List Nat}
    (hneurons : net.neuronCount < Word.signedLimit) (h : p.Packs net earlier budget taken []) :
    p.cells.toList.flatMap Cell.members = taken ∧ ∀ c ∈ p.cells, c.IsMade net earlier := by
  obtain ⟨parts, slots, hholds, hmade, hmembers⟩ := h.made
  unfold Packing.cells
  cases hempty : p.draft.cell.isEmpty with
  | true =>
    obtain rfl := hholds.cell.isEmpty_iff.mp hempty
    exact ⟨by simpa using hmembers, h.columns⟩
  | false =>
    have hclose := h.close hneurons hempty
    obtain ⟨parts', slots', hholds', -, hmembers'⟩ := hclose.made
    obtain rfl : parts' = [] := hholds'.cell.isEmpty_iff.mp rfl
    exact ⟨by simpa [Packing.close] using hmembers', hclose.columns⟩

/-- **The cells of a row** hold the collected neurons, in order, and are made after the earlier
ones; the frontier then stands after this row. -/
theorem packRow_spec (hneurons : net.neuronCount < Word.signedLimit) (hread : net.Readable)
    {f : Frontier} (hf : f.Stands net earlier) {available : Array Bool}
    (havailable : Marks available earlier) {chosen : List Nat}
    (hchosen : chosen.Sublist (net.due earlier)) {row : Packing}
    (hrow : packRow net (f.withSubset chosen) available budget = .ok row) :
    row.frontier.Stands net (earlier ++ chosen) ∧ row.committed.toList = chosen ∧
      row.cells.toList.flatMap Cell.members = chosen ∧
      (∀ c ∈ row.cells, c.IsMade net earlier) ∧ ∀ i ∈ chosen, net.Solvable budget i := by
  have h : row.Packs net earlier budget ([] ++ chosen) [] :=
    (hf.packs_start havailable hchosen budget).foldlM hneurons hread
      (List.append_nil chosen).symm (fun i hi => hchosen.subset hi) hrow
  rw [List.nil_append] at h
  obtain ⟨hmembers, hmade⟩ := h.cells_spec hneurons
  refine ⟨⟨h.sound, h.netEq, h.subset, fun i => ?_⟩, h.committed, hmembers, hmade, h.solvable⟩
  rw [h.done, List.mem_append]

end NeuralPlan
