import NeuralPlan.Proofs.Plan.Success

/-!
# Relaxed collections after strict ones

When a strict collection for a row is empty, a relaxed one is tried, which may also take neurons
that read each other within the row; a cell then has to leave those that it cannot read.  None of
this ever happens: if a strict collection is empty, then so is the relaxed one, and the cells of a
row can read all that is packed into them.

## Main definitions

* `Plan.Stage` — where the rows of a plan may stand when the plan is compiled.
* `packFirst`, `Packing.Leaves` — a row that is packed in part, and a neuron that is left for a
  later row.

## Main results

* `Frontier.Stands.not_leaves` — no neuron is left when neurons that are due are packed.
* `Plan.Stage.compile_eq` — a plan is compiled from each of its stages on.
* `Plan.relaxed_collection_idle` — relaxed collections find nothing, and nothing is left.
-/

set_option relaxedAutoImplicit false
set_option autoImplicit false

namespace NeuralPlan

/-! ## Packing -/

/-- Packs the first neurons of the subset of the frontier into cells. -/
def packFirst (net : Net) (frontier : Frontier) (available : Array Bool) (cellBudget : Nat)
    (first : List Nat) : Result Packing :=
  first.foldlM (fun p index => p.step index cellBudget)
    ⟨frontier, .start net available, #[], #[]⟩

/-- A row is packed when its whole subset is. -/
theorem packRow_eq_packFirst (net : Net) (frontier : Frontier) (available : Array Bool)
    (cellBudget : Nat) : packRow net frontier available cellBudget =
      packFirst net frontier available cellBudget frontier.subset := rfl

/-- The neuron is left for a later row: no cell can read it, not even after the one at hand is
closed for want of room. -/
def Packing.Leaves (p : Packing) (i cellBudget : Nat) : Prop :=
  ∃ p', p.closeIfFull i cellBudget = .ok p' ∧ p'.draft.canResolve i = .ok false

/-- **No neuron is left** when neurons that are due are packed.

**Proof sketch.** All that is packed reads earlier neurons only, which any cell of the row can
read. -/
theorem Frontier.Stands.not_leaves {net : Net} {earlier : List Nat} {f : Frontier}
    (hneurons : net.neuronCount < Word.signedLimit) (hread : net.Readable)
    (hf : f.Stands net earlier) {available : Array Bool} (havailable : Marks available earlier)
    {chosen pre post : List Nat} {i budget : Nat} {p : Packing}
    (hchosen : chosen.Sublist (net.due earlier)) (hparts : chosen = pre ++ i :: post)
    (hpack : packFirst net (f.withSubset chosen) available budget pre = .ok p) :
    ¬p.Leaves i budget := by
  have hall : ∀ j ∈ pre ++ i :: post, j ∈ net.due earlier := fun j hj =>
    hchosen.subset (hparts ▸ hj)
  have hpacks := (hf.packs_start havailable hchosen budget).foldlM hneurons hread hparts
    (fun j hj => hall j (List.mem_append_left _ hj)) hpack
  have hdue := hall i (by simp)
  rintro ⟨p', hclose, hresolve⟩
  rw [(hpacks.closeIfFull hneurons hread hdue hclose).canResolve_eq hread hdue] at hresolve
  cases hresolve

/-! ## The stages of a plan -/

namespace Plan

/-- Where the rows of a plan may stand when the plan is compiled: before the first row, and after
any row of neurons that were collected for it. -/
inductive Stage (net : Net) (threads bytes : Nat) : Frontier → Array Bool → Plan → Prop
  /-- Before the first row. -/
  | start {f : Frontier} (hstart : Frontier.ofNet net = .ok f) :
      Stage net threads bytes f (Array.replicate net.neuronCount false) (blank net)
  /-- After one row more. -/
  | row {f collected : Frontier} {available : Array Bool} {made : Plan} {subset : List Nat}
      {row : Packing} (h : Stage net threads bytes f available made) (hopen : f.finished = false)
      (hcollect : collectRow f threads bytes = .ok (collected, subset)) (hsubset : subset ≠ [])
      (hrow : packRow net collected available (bytes / threads) = .ok row) :
      Stage net threads bytes row.frontier (row.marked available) (made.addRow row.cells)

variable {net : Net} {threads bytes : Nat} {f : Frontier} {available : Array Bool} {made : Plan}

/-- A net with a stage is readable. -/
theorem Stage.readable (h : Stage net threads bytes f available made) : net.Readable := by
  induction h with
  | start hstart => exact (Frontier.ofNet_eq_ok_iff.mp hstart).1
  | row _ _ _ _ _ ih => exact ih

/-- At every stage the plan is underway. -/
theorem Stage.underway (hneurons : net.neuronCount < Word.signedLimit) (hcost : net.CostsFit)
    (h : Stage net threads bytes f available made) :
    Underway net threads bytes f available made := by
  induction h with
  | start hstart =>
    obtain ⟨hread, rfl⟩ := Frontier.ofNet_eq_ok_iff.mp hstart
    exact underway_start hread threads bytes
  | row h _ hcollect hsubset hrow ih =>
    exact ih.row hneurons h.readable hcost hcollect hsubset hrow

/-- **A plan is compiled** from each of its stages on.

**Proof sketch.** Induction on the rows; each row leaves fewer neurons to process, so that the
compilation goes on with the next one. -/
theorem Stage.compile_eq {s : PlanSettings} (hthreads : s.threads = some threads)
    (hpos : 0 < threads) (hneurons : net.neuronCount < Word.signedLimit) (hcost : net.CostsFit)
    (h : Stage net threads (s.bytes.getD PlanSettings.defaultBytes) f available made) :
    compile s net =
      compileRows net threads (s.bytes.getD PlanSettings.defaultBytes) f available made := by
  induction h with
  | start hstart =>
    obtain ⟨t, rfl⟩ : ∃ t, threads = t + 1 := ⟨threads - 1, by omega⟩
    rw [compile, hthreads]
    dsimp only
    rw [hstart]
    rfl
  | @row f collected available made subset row h hopen hcollect hsubset hrow ih =>
    obtain ⟨rows, hstands, -, hmarks, hlaid, -⟩ := h.underway hneurons hcost
    obtain ⟨rfl, hchosen⟩ := collectRow_eq_ok hstands hcost hcollect hsubset
    have hdue : subset.Sublist (net.due (membersOf rows)) :=
      hchosen ▸ affordable_due_sublist net _ _
    have hless := packRow_lt hneurons h.readable hlaid.nodup hstands hmarks hdue hsubset hrow
    have hempty : subset.isEmpty = false := by simpa using hsubset
    rw [ih, compileRows]
    simp only [hopen, Bool.false_eq_true, if_false, hcollect, Result.ok_bind, hempty, hrow, hless,
      if_true]
    rfl

/-- A collection for a row that is not empty was the strict one. -/
theorem collect_strict_of_collectRow {earlier : List Nat} (hf : f.Stands net earlier)
    (hcost : net.CostsFit) {collected : Frontier} {subset : List Nat}
    (hcollect : collectRow f threads bytes = .ok (collected, subset)) (hsubset : subset ≠ []) :
    f.collect ⟨threads, bytes, true⟩ = (collected, .ok subset) := by
  unfold collectRow at hcollect
  split at hcollect
  next g e hanswer => cases hcollect
  next g i rest hanswer =>
    obtain ⟨rfl, rfl⟩ := Prod.mk.inj (Except.ok.inj hcollect)
    exact hanswer
  next g hanswer =>
    obtain ⟨h, hrelaxed, -⟩ := collectRow_of_strict_eq_nil hf hcost hanswer
    rw [hrelaxed] at hcollect
    exact absurd (Prod.mk.inj (Except.ok.inj hcollect)).2.symm hsubset

/-- **The relaxed collections are idle**, if the costs of the net fit.

1. Of a frontier after any history that waits for no confirmation, a relaxed collection after an
   empty strict one is empty, whatever both are asked for and whatever the workers do.
2. When a plan is compiled, a collection for a row that is not empty was the strict one, and no
   neuron of it is left for a later row.
3. When a plan is compiled and the strict collection for a row is empty before all neurons are
   processed, then the relaxed one is empty, and the report is that no neuron is left that can be
   solved.

**Proof sketch.** The frontier of a stage stands after the neurons of the rows made so far.  A
strict collection takes neurons that read these only, which any cell of the next row can read. -/
theorem relaxed_collection_idle (hnet : net.totalBytes < Word.limit) :
    (∀ f, Frontier.Reachable net f → f.subset = [] →
      ∀ (threads budget : Nat) (schedule : List Nat) (g : Frontier),
        f.collectBy schedule ⟨threads, budget, true⟩ = (g, .ok []) →
        ∀ (threads' budget' : Nat) (schedule' : List Nat),
          (g.collectBy schedule' ⟨threads', budget', false⟩).2 = .ok []) ∧
    ∀ (s : PlanSettings) (threads bytes : Nat), s.threads = some threads → 1 ≤ threads →
      s.bytes.getD PlanSettings.defaultBytes = bytes →
      ∀ (f : Frontier) (available : Array Bool) (made : Plan),
        Stage net threads bytes f available made → f.finished = false →
        (∀ (collected : Frontier) (subset : List Nat),
          collectRow f threads bytes = .ok (collected, subset) → subset ≠ [] →
          f.collect ⟨threads, bytes, true⟩ = (collected, .ok subset) ∧
          ∀ (pre post : List Nat) (i : Nat) (p : Packing), collected.subset = pre ++ i :: post →
            packFirst net collected available (bytes / threads) pre = .ok p →
            ¬p.Leaves i (bytes / threads)) ∧
        ∀ g, f.collect ⟨threads, bytes, true⟩ = (g, .ok []) →
          ∃ h, g.collect ⟨threads, bytes, false⟩ = (h, .ok []) ∧
            compile s net =
              fail (.inconsistent (.stalled h.iteration (uncommitted available))) := by
  have hcost := Net.costsFit_of_totalBytes hnet
  have hneurons := Net.neuronCount_lt hnet
  constructor
  · intro f hf hempty threads budget schedule g hanswer threads' budget' schedule'
    obtain ⟨hsound, rfl⟩ := hf.sound hcost
    obtain ⟨h, hrelaxed⟩ := hsound.collectBy_relaxed hcost hempty rfl hanswer schedule'
      ⟨threads', budget', false⟩
    rw [hrelaxed]
  · rintro s threads bytes hthreads hpos rfl f available made hstage hopen
    have hcompile := hstage.compile_eq hthreads hpos hneurons hcost
    obtain ⟨rows, hstands, -, hmarks, -, -⟩ := hstage.underway hneurons hcost
    refine ⟨fun collected subset hcollect hsubset => ?_, fun g hanswer => ?_⟩
    · refine ⟨collect_strict_of_collectRow hstands hcost hcollect hsubset, ?_⟩
      obtain ⟨rfl, hchosen⟩ := collectRow_eq_ok hstands hcost hcollect hsubset
      have hdue : subset.Sublist (net.due (membersOf rows)) :=
        hchosen ▸ affordable_due_sublist net _ _
      intro pre post i p hparts hpack
      exact hstands.not_leaves hneurons hstage.readable hmarks hdue hparts hpack
    · obtain ⟨h, hrelaxed, hcollect⟩ := collectRow_of_strict_eq_nil hstands hcost hanswer
      refine ⟨h, hrelaxed, ?_⟩
      rw [hcompile, compileRows, hcollect]
      simp [hopen]

end Plan

/-- A net of two neurons that read each other. -/
def Net.ring : Net where
  inputSize := 1
  outputNeurons := 1
  expectedRange := 1.0
  neurons := #[⟨.identity, 0, 1, #[⟨1, 1⟩], #[⟨2, 1⟩]⟩, ⟨.identity, 0, 1, #[⟨0, 1⟩], #[⟨2, 1⟩]⟩]
  weights := #[1.5, 0.5, 0.25]

namespace Plan

/-- In the knot net nothing is ready after the first two neurons, and no collection finds anything,
strict or not.  The ring net has no plan, for nothing is ready from the start. -/
theorem relaxed_collection_idle_knot :
    (∃ f g, Frontier.Reachable Net.knot f ∧ f.collectBy [] ⟨1, 1000, true⟩ = (g, .ok []) ∧
      ∀ (threads budget : Nat) (schedule : List Nat),
        (g.collectBy schedule ⟨threads, budget, false⟩).2 = .ok []) ∧
    ∃ iteration,
      compile ⟨some 2, some 2000⟩ Net.ring = fail (.inconsistent (.stalled iteration 2)) := by
  constructor
  · obtain ⟨hidle, -⟩ := relaxed_collection_idle (show Net.knot.totalBytes < Word.limit by decide)
    have hf : Frontier.Reachable Net.knot _ :=
      .process (.collect (.process (.collect (.start (f := Frontier.initial Net.knot) (by rfl))
        [] ⟨1, 1000, true⟩) 0) [] ⟨2, 1000, true⟩) 1
    refine ⟨_, _, hf, Prod.ext rfl (by decide +kernel), ?_⟩
    exact hidle _ hf (by decide +kernel) 1 1000 [] _ (Prod.ext rfl (by decide +kernel))
  · obtain ⟨-, hstalls⟩ := relaxed_collection_idle (show Net.ring.totalBytes < Word.limit by decide)
    have hstage : Stage Net.ring 2 2000 (Frontier.initial Net.ring) _ _ := .start rfl
    obtain ⟨-, hstall⟩ := hstalls ⟨some 2, some 2000⟩ 2 2000 rfl (by decide) rfl _ _ _ hstage
      (by decide +kernel)
    obtain ⟨h, -, hcompile⟩ := hstall _ (Prod.ext rfl (by decide +kernel))
    exact ⟨h.iteration, hcompile⟩

end Plan

end NeuralPlan
