import Mathlib.Order.Bounds.Defs
import NeuralPlan.Proofs.Graph
import NeuralPlan.Proofs.Plan.Success

/-!
# The rows of a plan

Each row of a plan holds the longest affordable prefix of the neurons that only read neurons of
earlier rows.  If the budget affords all neurons, the row of a neuron is the length of its longest
chain of reads, and no assignment of the neurons to rows needs fewer rows.

## Main definitions

* `Plan.rowMembers`, `Plan.membersBefore` — the neurons of a row and of the rows before it.

## Main results

* `Plan.isDepth_of_mem_layer` — a neuron of a layer has this layer as its depth.
* `Plan.compile_rows` — the row structure of a plan that is compiled.
-/

set_option relaxedAutoImplicit false
set_option autoImplicit false

namespace NeuralPlan.Plan

/-! ## The neurons of a row -/

/-- The neurons of a row, one column after another. -/
def rowMembers (p : Plan) (r : Nat) : List Nat :=
  match p.row r with
  | .ok cells => cells.toList.flatMap Cell.members
  | .error _ => []

/-- The neurons of the rows before `r`. -/
def membersBefore (p : Plan) (r : Nat) : List Nat := (List.range r).flatMap p.rowMembers

variable {net : Net} {bytes : Nat} {rows : List (List Cell)} {p : Plan}

/-- The neurons of a row of the layout. -/
theorem Laid.rowMembers_eq (hneurons : net.neuronCount < Word.signedLimit)
    (h : p.Laid net bytes rows) {r : Nat} {row : List Cell} (hr : rows[r]? = some row) :
    p.rowMembers r = row.flatMap Cell.members := by
  rw [rowMembers, h.row_eq hneurons hr]

/-- Beyond the last row there are no neurons. -/
theorem Laid.rowMembers_eq_nil (h : p.Laid net bytes rows) {r : Nat} (hr : rows.length ≤ r) :
    p.rowMembers r = [] := by
  have hcols : ¬r < p.cols.size := Nat.not_lt.mpr (h.rows_eq.trans_le hr)
  rw [rowMembers, Plan.row, colsAt, dif_neg hcols]
  rfl

/-- The neurons of the first rows of the layout. -/
theorem Laid.membersBefore_eq (hneurons : net.neuronCount < Word.signedLimit)
    (h : p.Laid net bytes rows) (r : Nat) : p.membersBefore r = membersOf (rows.take r) := by
  induction r with
  | zero => rfl
  | succ r ih =>
    have hsucc : p.membersBefore (r + 1) = p.membersBefore r ++ p.rowMembers r := by
      simp [membersBefore, List.range_succ]
    rw [hsucc, ih]
    rcases Nat.lt_or_ge r rows.length with hr | hr
    · rw [List.take_succ_eq_append_getElem hr, membersOf_snoc,
        h.rowMembers_eq hneurons (List.getElem?_eq_getElem hr)]
    · rw [h.rowMembers_eq_nil hr, List.append_nil, List.take_of_length_le hr,
        List.take_of_length_le (Nat.le_succ_of_le hr)]

/-! ## Layers -/

/-- **A neuron of a layer** has this layer as its depth, if every layer holds all that is due after
the layers before.

**Proof sketch.** Strong induction on the layer.  What the neuron reads lies in earlier layers, so
its chains are no longer than the layer is high.  As it was not yet due for the layer before, it
reads a neuron of that layer, whose longest chain it prolongs. -/
theorem isDepth_of_mem_layer {layer : Nat → List Nat}
    (hlayer : ∀ r, layer r = net.due ((List.range r).flatMap layer)) {r i : Nat}
    (hi : i ∈ layer r) : net.IsDepth i r := by
  have hbefore : ∀ {k j : Nat}, j ∈ (List.range k).flatMap layer ↔ ∃ m < k, j ∈ layer m := by
    simp
  induction r using Nat.strong_induction_on generalizing i with
  | _ r ih =>
    rw [hlayer, Net.mem_due] at hi
    obtain ⟨hlt, hnew, hinputs⟩ := hi
    refine ⟨?_, fun m hm => ?_⟩
    · cases r with
      | zero => exact .here hlt
      | succ q =>
        -- An input in the layer just below: otherwise the neuron would be due for that layer.
        have hlast : ∃ j, net.Reads i j ∧ j ∈ layer q := by
          by_contra hnone
          have hdue : i ∈ layer q := by
            rw [hlayer, Net.mem_due]
            refine ⟨hlt, fun hi => ?_, fun j hj => ?_⟩
            · obtain ⟨m, hm, hi⟩ := hbefore.mp hi
              exact hnew (hbefore.mpr ⟨m, Nat.lt_succ_of_lt hm, hi⟩)
            · obtain ⟨m, hm, hjm⟩ := hbefore.mp (hinputs j hj)
              rcases Nat.lt_succ_iff_lt_or_eq.mp hm with hm | rfl
              · exact hbefore.mpr ⟨m, hm, hjm⟩
              · exact absurd ⟨j, hj, hjm⟩ hnone
          exact hnew (hbefore.mpr ⟨q, Nat.lt_succ_self q, hdue⟩)
        obtain ⟨j, hij, hj⟩ := hlast
        exact .read hij (ih q (Nat.lt_succ_self q) hj).1
    · cases hm with
      | here _ => exact Nat.zero_le r
      | @read k _ j hij hj =>
        obtain ⟨q, hq, hjq⟩ := hbefore.mp (hinputs j hij)
        have hk := (ih q hq hjq).2 k hj
        omega

/-- With a budget for all neurons, a row holds all that is due. -/
theorem Laid.rowMembers_eq_due (hneurons : net.neuronCount < Word.signedLimit)
    (h : p.Laid net bytes rows) (hall : ∀ i < net.neuronCount, i ∈ membersOf rows)
    (hbytes : net.totalBytes ≤ bytes) (r : Nat) :
    p.rowMembers r = net.due (p.membersBefore r) := by
  rw [h.membersBefore_eq hneurons]
  rcases Nat.lt_or_ge r rows.length with hr | hr
  · have hrow := List.getElem?_eq_getElem hr
    rw [h.rowMembers_eq hneurons hrow, h.chosen r _ hrow]
    refine affordable_eq_self (le_trans (net.sum_bytesOf_le ?_ fun i hi => ?_) hbytes)
    · exact List.nodup_range.filter _
    · exact (Net.mem_due.mp hi).1
  · rw [h.rowMembers_eq_nil hr, List.take_of_length_le hr]
    refine (List.eq_nil_iff_forall_not_mem.mpr fun i hi => ?_).symm
    obtain ⟨hlt, hnew, -⟩ := Net.mem_due.mp hi
    exact hnew (hall i hlt)

/-- With a budget for all neurons, a row holds the neurons of its depth. -/
theorem Laid.mem_rowMembers_iff (hneurons : net.neuronCount < Word.signedLimit)
    (h : p.Laid net bytes rows) (hall : ∀ i < net.neuronCount, i ∈ membersOf rows)
    (hbytes : net.totalBytes ≤ bytes) {r i : Nat} : i ∈ p.rowMembers r ↔ net.IsDepth i r := by
  have hdepth : ∀ {r i : Nat}, i ∈ p.rowMembers r → net.IsDepth i r :=
    isDepth_of_mem_layer (h.rowMembers_eq_due hneurons hall hbytes)
  refine ⟨hdepth, fun hi => ?_⟩
  obtain ⟨row, hrow, hmem⟩ := mem_rowOf (hall i hi.1.lt)
  rw [← h.rowMembers_eq hneurons hrow] at hmem
  rwa [hi.unique (hdepth hmem)]

/-- With a budget for all neurons, no assignment of the neurons to rows needs fewer rows. -/
theorem Laid.isLeast_rows (hneurons : net.neuronCount < Word.signedLimit)
    (h : p.Laid net bytes rows) (hall : ∀ i < net.neuronCount, i ∈ membersOf rows)
    (hbytes : net.totalBytes ≤ bytes) :
    IsLeast {k | ∃ level : Nat → Nat, (∀ i < net.neuronCount, level i < k) ∧
      ∀ i j, net.Reads i j → level j < level i} p.rows := by
  rw [h.rows_eq]
  refine ⟨⟨rowOf rows, fun i hi => ?_, fun i j hij => h.rowOf_lt_rowOf hall hij⟩, ?_⟩
  · obtain ⟨row, hrow, -⟩ := mem_rowOf (hall i hi)
    exact (List.getElem?_eq_some_iff.mp hrow).1
  · rintro k ⟨level, hlt, hlevel⟩
    cases hlen : rows.length with
    | zero => exact Nat.zero_le k
    | succ q =>
      have hq : q < rows.length := by omega
      have hrow := List.getElem?_eq_getElem hq
      obtain ⟨i, hi⟩ := List.exists_mem_of_ne_nil _ (h.nonempty _ (List.getElem_mem hq))
      rw [← h.rowMembers_eq hneurons hrow, h.mem_rowMembers_iff hneurons hall hbytes] at hi
      have hle := hi.1.le_rank hlevel
      have hk := hlt i hi.1.lt
      omega

/-! ## The row structure of a plan -/

/-- What a cell of a row reads from outside are external inputs and neurons of earlier rows, and its
neurons read nothing else. -/
theorem cell_reads {earlier : List Nat} {c : Cell} (h : c.IsMade net earlier) :
    (∀ ref ∈ Runs.indices c.slots.toList, Ref.isInput ref = false → ref.toNat ∈ earlier) ∧
      ∀ source ∈ Runs.indices c.sourceRuns.toList, source < 0 := by
  obtain ⟨parts, slots, -, hholds, hmade⟩ := h
  constructor
  · intro ref href hin
    rw [hholds.slotRuns.1] at href
    have hread := (hmade.slots ref href).2
    rwa [if_neg (by simp [hin])] at hread
  · intro source hsource
    rw [hholds.sourceRuns, Runs.indices, List.flatMap_assoc] at hsource
    obtain ⟨part, hpart, hsource⟩ := List.mem_flatMap.mp hsource
    exact hmade.external part hpart source hsource

/-- **The row structure of a plan.**  Each row holds, in ascending order, the longest prefix within
the memory of a row of the neurons that are in no earlier row and read only neurons of earlier rows;
its cells read only external inputs and neurons of earlier rows, never one of their own neurons.
Every neuron is in the plan once.  With memory for all neurons, a row holds the neurons whose
longest chain of reads is as long as there are rows before it, and no assignment of the neurons to
rows in which every neuron comes strictly after those that it reads needs fewer rows.

A signed word counts the neurons, as it counts the bytes of any table.

**Proof sketch.** The layout of the plan, and induction on the layers. -/
theorem compile_rows {s : PlanSettings} (hcompile : compile s net = .ok p)
    (hneurons : net.neuronCount < Word.signedLimit) :
    (∀ r < p.rows, ∃ cells, p.row r = .ok cells ∧
      Affords net.bytesOf (s.bytes.getD PlanSettings.defaultBytes)
        (net.due (p.membersBefore r)) (cells.toList.flatMap Cell.members) ∧
      ∀ c ∈ cells,
        (∀ ref ∈ Runs.indices c.slots.toList, Ref.isInput ref = false →
          ref.toNat ∈ p.membersBefore r) ∧
        ∀ source ∈ Runs.indices c.sourceRuns.toList, source < 0) ∧
    p.cells.toList.flatMap Cell.members = p.membersBefore p.rows ∧
    (p.membersBefore p.rows).Perm (List.range net.neuronCount) ∧
    (net.totalBytes ≤ s.bytes.getD PlanSettings.defaultBytes →
      (∀ r i, i ∈ p.rowMembers r ↔ net.IsDepth i r) ∧
      IsLeast {k | ∃ level : Nat → Nat, (∀ i < net.neuronCount, level i < k) ∧
        ∀ i j, net.Reads i j → level j < level i} p.rows) := by
  obtain ⟨threads, rows, -, -, -, hlaid, hall, -⟩ := compile_laid hcompile hneurons
  have hgrid : p.membersBefore p.rows = membersOf rows := by
    rw [hlaid.membersBefore_eq hneurons, hlaid.rows_eq, List.take_length]
  refine ⟨fun r hr => ?_, ?_, ?_, fun hbytes =>
    ⟨fun r i => hlaid.mem_rowMembers_iff hneurons hall hbytes,
      hlaid.isLeast_rows hneurons hall hbytes⟩⟩
  · rw [hlaid.rows_eq] at hr
    have hrow := List.getElem?_eq_getElem hr
    refine ⟨_, hlaid.row_eq hneurons hrow, ?_, fun c hc => ?_⟩
    · rw [hlaid.membersBefore_eq hneurons, hlaid.chosen r _ hrow]
      exact affords_affordable
    · rw [hlaid.membersBefore_eq hneurons]
      exact cell_reads (hlaid.made r _ hrow c (by simpa using hc))
  · rw [hgrid, hlaid.cells, membersOf, List.flatten_eq_flatMap, List.flatMap_assoc]
    rfl
  · rw [hgrid]
    refine (List.perm_ext_iff_of_nodup hlaid.nodup List.nodup_range).mpr fun i => ?_
    rw [List.mem_range]
    exact ⟨hlaid.lt_of_mem, hall i⟩

/-- The diamond net has a plan, and its neurons are in the rows of their depths. -/
theorem compile_rows_diamond :
    ∃ p, compile ⟨some 2, some 2000⟩ Net.diamond = .ok p ∧
      ∀ r i, i ∈ p.rowMembers r ↔ Net.diamond.IsDepth i r := by
  obtain ⟨p, hp⟩ := compile_diamond_isOk
  obtain ⟨-, -, -, hdepth⟩ := compile_rows hp (by decide)
  exact ⟨p, hp, (hdepth (by decide)).1⟩

end NeuralPlan.Plan
