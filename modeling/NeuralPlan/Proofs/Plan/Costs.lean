import NeuralPlan.Plan.Compile
import NeuralPlan.Proofs.Draft.Add
import NeuralPlan.Proofs.Frontier.Scan
import NeuralPlan.Proofs.Frontier.Start

/-!
# The costs behind a plan

A net whose costs do not fit words may make a collection fail, but never makes a plan: every neuron
of a plan has passed the test whether it fits its cell, which computes its cost.  So what holds of
nets whose costs fit holds of all nets that have a plan.

## Main definitions

* `Frontier.Same` — two frontiers have processed the same neurons.
* `Frontier.Paid` — the costs of the processed neurons fit.

## Main results

* `Plan.compileRows_induct` — what every row keeps, a whole plan keeps.
* `Frontier.same_collectBy` — a collection processes nothing, even if a worker fails.
* `Plan.costsFit_of_compile` — the costs of a net that has a plan fit.
-/

set_option relaxedAutoImplicit false
set_option autoImplicit false

namespace NeuralPlan

namespace Frontier

/-! ## Operations that process nothing -/

/-- The frontiers have processed the same neurons of the same net. -/
structure Same (f g : Frontier) : Prop where
  net : g.net = f.net
  size : g.status.size = f.status.size
  processed : g.processed = f.processed
  done : ∀ i, g.isDone i = f.isDone i

variable {f g h : Frontier}

/-- A frontier is the same as itself. -/
theorem Same.refl (f : Frontier) : Same f f := ⟨rfl, rfl, rfl, fun _ => rfl⟩

/-- Frontiers that are the same as a third one are the same. -/
theorem Same.trans (hfg : Same f g) (hgh : Same g h) : Same f h :=
  ⟨hgh.net.trans hfg.net, hgh.size.trans hfg.size, hgh.processed.trans hfg.processed,
    fun i => (hgh.done i).trans (hfg.done i)⟩

/-- Changes that neither make neurons processed nor take that back. -/
theorem processed_modify {change : Status → Status}
    (hchange : ∀ s, change s = .processed ↔ s = .processed) (status : Array Status) (i j : Nat) :
    ((status.modify i change)[j]? == some .processed) = (status[j]? == some .processed) := by
  rw [Array.getElem?_modify, Bool.eq_iff_iff, beq_iff_eq, beq_iff_eq]
  split
  · rw [Option.map_eq_some_iff]
    constructor
    · rintro ⟨s, hs, hp⟩
      rw [hs, (hchange s).mp hp]
    · intro hs
      exact ⟨_, hs, (hchange _).mpr rfl⟩
  · rfl

/-- A reservation processes nothing. -/
theorem reserve_eq_processed_iff (k : Nat) (s : Status) :
    s.reserve k = .processed ↔ s = .processed := by
  cases s <;> simp [Status.reserve]

/-- A release processes nothing. -/
theorem release_eq_processed_iff (s : Status) : s.release = .processed ↔ s = .processed := by
  cases s <;> simp [Status.release]

/-- Releasing a neuron processes nothing. -/
theorem same_release {i : Nat} (hrelease : f.release i = .ok g) : Same f g := by
  obtain ⟨s, -, hrelease⟩ := Result.bind_eq_ok_iff.mp hrelease
  split at hrelease
  next hs =>
    obtain rfl := Except.ok.inj hrelease
    exact ⟨rfl, Array.size_modify, rfl, processed_modify release_eq_processed_iff f.status i⟩
  next hs => cases hrelease

/-- Releasing several neurons processes nothing. -/
theorem same_releaseAll (f : Frontier) (l : List Nat) : Same f (f.releaseAll l).1 := by
  induction l generalizing f with
  | nil => exact Same.refl f
  | cons i l ih =>
    unfold releaseAll
    split
    next e hrelease => exact Same.refl f
    next g hrelease => exact (same_release hrelease).trans (ih g)

/-- Confirming a neuron as omitted processes nothing. -/
theorem same_confirmOmitted (f : Frontier) (i : Nat) : Same f (f.confirmOmitted i).1 := by
  unfold confirmOmitted
  split
  next e hdrop => exact Same.refl f
  next g hdrop =>
    obtain ⟨-, rest, -, rfl⟩ := dropFirst_eq_ok_iff.mp hdrop
    unfold settle
    split
    next after hrelease => exact ⟨(same_release hrelease).net, (same_release hrelease).size,
      (same_release hrelease).processed, (same_release hrelease).done⟩
    next e hrelease => exact ⟨rfl, rfl, rfl, fun _ => rfl⟩

/-- What a step of a worker does to the states. -/
theorem status_step (f : Frontier) (request : Request) (k : Nat) (s : Scan) (w : Worker) :
    (Worker.step f request k s w).1.status = s.status ∨
      ∃ i, (Worker.step f request k s w).1.status = s.status.modify i (.reserve k) ∨
        (Worker.step f request k s w).1.status =
          (s.status.modify i (.reserve k)).modify i .release := by
  unfold Worker.step
  split
  next => exact .inl rfl
  next i rest _ =>
    split
    next => exact .inl rfl
    next =>
      split
      next =>
        refine .inr ⟨i, ?_⟩
        dsimp only
        split
        next => exact .inl rfl
        next =>
          split
          next => exact .inl rfl
          next => exact .inr rfl
      next => exact .inl rfl

/-- A scan processes nothing. -/
theorem processed_scan (f : Frontier) (schedule : List Nat) (request : Request) :
    (f.scan schedule request).1.status.size = f.status.size ∧
      ∀ j : Nat, ((f.scan schedule request).1.status[j]? == some .processed) = f.isDone j := by
  refine Scan.run_induct (P := fun s _ => s.status.size = f.status.size ∧
    ∀ j : Nat, (s.status[j]? == some .processed) = f.isDone j) (fun s pre w post hs => ?_)
    schedule _ _ ⟨rfl, fun _ => rfl⟩
  obtain ⟨hsize, hdone⟩ := hs
  rcases status_step f request f.nextIteration s w with hstep | ⟨i, hstep | hstep⟩
  · rw [hstep]
    exact ⟨hsize, hdone⟩
  · rw [hstep, Array.size_modify]
    exact ⟨hsize, fun j => by rw [processed_modify (reserve_eq_processed_iff _), hdone]⟩
  · rw [hstep, Array.size_modify, Array.size_modify]
    exact ⟨hsize, fun j => by rw [processed_modify release_eq_processed_iff,
      processed_modify (reserve_eq_processed_iff _), hdone]⟩

/-- The end of a collection processes nothing. -/
theorem same_conclude (f : Frontier) (budget : Nat) (s : Scan) (ws : List Worker)
    (hsize : s.status.size = f.status.size)
    (hdone : ∀ j : Nat, (s.status[j]? == some .processed) = f.isDone j) :
    Same f (f.conclude budget s ws).1 := by
  have hscan : Same f { f with status := s.status } := ⟨rfl, hsize, rfl, hdone⟩
  have hall : ∀ l, Same f (releaseAll { f with status := s.status } l).1 :=
    fun l => hscan.trans (same_releaseAll _ l)
  unfold conclude
  dsimp only
  generalize (if ws.any Worker.failed = true then ([], (gather ws).map Prod.fst)
    else split s budget 0 (gather ws)) = parts
  have hg := hall parts.2
  split
  next g e hrelease => rwa [hrelease] at hg
  next g hrelease =>
    rw [hrelease] at hg
    split
    · exact hg
    · split
      · split
        · exact hg
        · exact hg
      · exact ⟨hg.net, hg.size, hg.processed, hg.done⟩

/-- **A collection processes nothing**, even if a worker fails. -/
theorem same_collectBy (f : Frontier) (schedule : List Nat) (request : Request) :
    Same f (f.collectBy schedule request).1 := by
  unfold collectBy
  split
  next hempty =>
    obtain ⟨hsize, hdone⟩ := processed_scan f schedule request
    have hend := same_conclude { f with iteration := f.nextIteration } request.budget
      (f.scan schedule request).1 (f.scan schedule request).2 hsize hdone
    exact ⟨hend.net, hend.size, hend.processed, hend.done⟩
  next hempty => exact Same.refl f

/-- A confirmation as processed that succeeds processes the first neuron of the subset. -/
theorem confirmProcessed_eq_ok {i : Nat} (hconfirm : f.confirmProcessed i = (g, .ok ())) :
    ∃ rest s, f.subset = i :: rest ∧ f.status[i]? = some s ∧ s.isReserved = true ∧
      g = f.processFirst i rest := by
  unfold confirmProcessed at hconfirm
  split at hconfirm
  next e hdrop => simp at hconfirm
  next f₁ hdrop =>
    obtain ⟨hlt, rest, hsub, rfl⟩ := dropFirst_eq_ok_iff.mp hdrop
    have hi : i < f.status.size := hlt
    unfold settle process statusAt at hconfirm
    simp only [dif_pos hi, Result.ok_bind] at hconfirm
    cases hs : f.status[i].isReserved with
    | true =>
      simp only [hs, if_true, Result.pure_eq_ok] at hconfirm
      exact ⟨rest, f.status[i], hsub, Array.getElem?_eq_getElem hi, hs,
        (Prod.mk.inj hconfirm).1.symm⟩
    | false =>
      simp only [hs, Bool.false_eq_true, if_false, fail] at hconfirm
      cases (Prod.mk.inj hconfirm).2

/-- A confirmation as processed that fails drops a neuron from the subset at most. -/
theorem confirmProcessed_eq_error {i : Nat} {e : Failure}
    (hconfirm : f.confirmProcessed i = (g, .error e)) :
    ∃ rest, rest ⊆ f.subset ∧ g = { f with subset := rest } := by
  unfold confirmProcessed at hconfirm
  split at hconfirm
  next e' hdrop => exact ⟨f.subset, List.Subset.refl _, (Prod.mk.inj hconfirm).1.symm⟩
  next f₁ hdrop =>
    obtain ⟨-, rest, hsub, rfl⟩ := dropFirst_eq_ok_iff.mp hdrop
    unfold settle at hconfirm
    split at hconfirm
    next => cases (Prod.mk.inj hconfirm).2
    next =>
      refine ⟨rest, ?_, (Prod.mk.inj hconfirm).1.symm⟩
      rw [hsub]
      exact List.subset_cons_self _ _

/-! ## What has been paid -/

/-- The processed neurons are counted, and their costs fit. -/
structure Paid (net : Net) (f : Frontier) : Prop where
  netEq : f.net = net
  size : f.status.size = net.neuronCount
  processed : f.processed = (List.range net.neuronCount).countP f.isDone
  costs : ∀ i, f.isDone i = true → net.bytesOf i < Word.limit

variable {net : Net}

/-- The count stays right if nothing is processed. -/
theorem Counted.of_same (hf : Counted net f) (hsame : Same f g) : Counted net g := by
  have hdone : g.isDone = f.isDone := funext hsame.done
  exact ⟨hsame.net.trans hf.netEq, hsame.size.trans hf.size,
    by rw [hsame.processed, hf.processed, hdone]⟩

/-- A confirmation that succeeds processes one neuron more. -/
theorem isDone_confirmProcessed {i : Nat} (hconfirm : f.confirmProcessed i = (g, .ok ())) (j : Nat) :
    g.isDone j = (f.isDone j || j == i) := by
  obtain ⟨rest, s, -, hi, -, rfl⟩ := confirmProcessed_eq_ok hconfirm
  exact isDone_processFirst (Array.getElem?_eq_some_iff.mp hi).1 rest j

/-- The count stays right when a neuron is processed. -/
theorem Counted.confirmProcessed (hf : Counted net f) {i : Nat}
    (hconfirm : f.confirmProcessed i = (g, .ok ())) : Counted net g := by
  have hdone : g.isDone = fun j => f.isDone j || j == i :=
    funext (isDone_confirmProcessed hconfirm)
  obtain ⟨rest, s, -, hi, hreserved, rfl⟩ := confirmProcessed_eq_ok hconfirm
  have hlt : i < f.status.size := (Array.getElem?_eq_some_iff.mp hi).1
  have hnew : f.isDone i = false := by
    unfold isDone
    rw [hi]
    cases s <;> simp_all [Status.isReserved]
  refine ⟨hf.netEq, by simpa [Frontier.processFirst] using hf.size, ?_⟩
  have hmem : i ∈ List.range net.neuronCount := List.mem_range.mpr (hf.size ▸ hlt)
  rw [hdone, countP_or_eq _ _ hnew, List.count_eq_one_of_mem List.nodup_range hmem,
    ← hf.processed]
  rfl

/-- What is paid is counted. -/
theorem Paid.counted (hf : Paid net f) : Counted net f := ⟨hf.netEq, hf.size, hf.processed⟩

/-- Nothing is paid by what processes nothing. -/
theorem Paid.of_same (hf : Paid net f) (hsame : Same f g) : Paid net g := by
  obtain ⟨hnet, hsize, hprocessed⟩ := hf.counted.of_same hsame
  exact ⟨hnet, hsize, hprocessed, fun i hi => hf.costs i (hsame.done i ▸ hi)⟩

/-- Processing a neuron whose cost fits pays for it. -/
theorem Paid.confirmProcessed (hf : Paid net f) {i : Nat} (hcost : net.bytesOf i < Word.limit)
    (hconfirm : f.confirmProcessed i = (g, .ok ())) : Paid net g := by
  obtain ⟨hnet, hsize, hprocessed⟩ := hf.counted.confirmProcessed hconfirm
  refine ⟨hnet, hsize, hprocessed, fun j hj => ?_⟩
  rw [isDone_confirmProcessed hconfirm, Bool.or_eq_true, beq_iff_eq] at hj
  rcases hj with hj | rfl
  · exact hf.costs j hj
  · exact hcost

/-- When all neurons are processed, all costs fit. -/
theorem Paid.costsFit (hf : Paid net f) (hfinished : f.finished = true) : net.CostsFit := by
  intro i
  by_cases hi : i < net.neuronCount
  · exact hf.costs i (hf.counted.finished_iff.mp hfinished i hi)
  · have hzero : net.bytesOf i = 0 := by
      simp [Net.bytesOf, Array.getElem?_eq_none (Nat.le_of_not_lt hi)]
    rw [hzero]
    decide

end Frontier

/-! ## Rows -/

namespace Packing

variable {net : Net} {p p' : Packing} {i budget : Nat}

/-- Closing a cell processes nothing. -/
theorem paid_closeIfFull (hp : p.frontier.Paid net ∧ p.draft.net = net)
    (hclose : p.closeIfFull i budget = .ok p') : p'.frontier.Paid net ∧ p'.draft.net = net := by
  unfold closeIfFull at hclose
  split at hclose
  next => exact Except.ok.inj hclose ▸ hp
  next =>
    obtain ⟨b, -, hclose⟩ := Result.bind_eq_ok_iff.mp hclose
    split at hclose
    next => exact Except.ok.inj hclose ▸ hp
    next =>
      obtain ⟨b, -, hclose⟩ := Result.bind_eq_ok_iff.mp hclose
      split at hclose
      next => exact Except.ok.inj hclose ▸ hp
      next => exact Except.ok.inj hclose ▸ hp

/-- Leaving a neuron for a later row processes nothing. -/
theorem paid_leave (hp : p.frontier.Paid net ∧ p.draft.net = net) (hleave : p.leave i = .ok p') :
    p'.frontier.Paid net ∧ p'.draft.net = net := by
  have hsame := p.frontier.same_confirmOmitted i
  unfold leave at hleave
  split at hleave
  next g e homit => cases hleave
  next g homit =>
    rw [homit] at hsame
    obtain rfl := Except.ok.inj hleave
    exact ⟨hp.1.of_same hsame, hp.2⟩

/-- Taking a neuron into the cell pays for it. -/
theorem paid_take (hp : p.frontier.Paid net ∧ p.draft.net = net)
    (hcost : net.bytesOf i < Word.limit) (htake : p.take i = .ok p') :
    p'.frontier.Paid net ∧ p'.draft.net = net := by
  have hnet := p.draft.net_add i
  unfold take at htake
  split at htake
  next d e hadd => cases htake
  next d hadd =>
    rw [hadd] at hnet
    split at htake
    next g e hconfirm => cases htake
    next g hconfirm =>
      obtain rfl := Except.ok.inj htake
      exact ⟨hp.1.confirmProcessed hcost hconfirm, hnet.trans hp.2⟩

/-- Every step of a packing pays for what it processes. -/
theorem paid_step (hp : p.frontier.Paid net ∧ p.draft.net = net)
    (hstep : p.step i budget = .ok p') : p'.frontier.Paid net ∧ p'.draft.net = net := by
  obtain ⟨p₁, hclose, hstep⟩ := Result.bind_eq_ok_iff.mp hstep
  have hp₁ := paid_closeIfFull hp hclose
  obtain ⟨b, -, hstep⟩ := Result.bind_eq_ok_iff.mp hstep
  split at hstep
  next => exact paid_leave hp₁ hstep
  next =>
    obtain ⟨b, hfits, hstep⟩ := Result.bind_eq_ok_iff.mp hstep
    obtain ⟨-, hcost, -, -⟩ := Draft.fits_eq_ok_iff.mp hfits
    rw [hp₁.2] at hcost
    split at hstep
    next => exact paid_take hp₁ hcost hstep
    next =>
      obtain ⟨c, -, hfail⟩ := Result.bind_eq_ok_iff.mp hstep
      cases hfail

/-- The packing of a row pays for what it processes. -/
theorem paid_packRow {net : Net} {f : Frontier} (hf : f.Paid net) {available : Array Bool}
    {budget : Nat} {row : Packing} (hrow : packRow net f available budget = .ok row) :
    row.frontier.Paid net := by
  have hall : ∀ (l : List Nat) (p : Packing), p.frontier.Paid net ∧ p.draft.net = net →
      l.foldlM (fun p i => p.step i budget) p = .ok row → row.frontier.Paid net := by
    intro l
    induction l with
    | nil =>
      intro p hp hfold
      exact Except.ok.inj hfold ▸ hp.1
    | cons i l ih =>
      intro p hp hfold
      rw [List.foldlM_cons, Result.bind_eq_ok_iff] at hfold
      obtain ⟨p₁, hstep, hfold⟩ := hfold
      exact ih p₁ (paid_step hp hstep) hfold
  exact hall f.subset _ ⟨hf, rfl⟩ hrow

end Packing

/-! ## Plans -/

/-- The flags with those of the neurons that the row has committed. -/
def Packing.marked (row : Packing) (available : Array Bool) : Array Bool :=
  row.committed.foldl (fun available i => available.set! i true) available

namespace Plan

/-- The plan with a row more. -/
def addRow (made : Plan) (cells : Array Cell) : Plan :=
  { made with cols := made.cols.push cells.size, cells := made.cells ++ cells }

/-- The plan before its first row. -/
def blank (net : Net) : Plan where
  cells := #[]
  cols := #[]
  neuronCount := net.neuronCount
  outputNeurons := net.outputNeurons
  inputSize := net.inputSize

variable {net : Net} {threads bytes : Nat}

/-- **What every row keeps**, a whole plan keeps.

**Proof sketch.** Induction on the number of unprocessed neurons, which every row lowers. -/
theorem compileRows_induct {P : Frontier → Array Bool → Plan → Prop}
    (hrow : ∀ f available made collected subset row, P f available made → f.finished = false →
      collectRow f threads bytes = .ok (collected, subset) → subset ≠ [] →
      packRow net collected available (bytes / threads) = .ok row →
      P row.frontier (row.marked available) (made.addRow row.cells))
    {f : Frontier} {available : Array Bool} {made plan : Plan} (h : P f available made)
    (hcompile : compileRows net threads bytes f available made = .ok plan) :
    ∃ f available, f.finished = true ∧ P f available plan := by
  generalize hm : f.neuronCount - f.processed = m
  induction m using Nat.strong_induction_on generalizing f available made with
  | _ m ih =>
    rw [compileRows] at hcompile
    cases hfinished : f.finished with
    | true =>
      obtain rfl : made = plan := by simpa [hfinished] using hcompile
      exact ⟨f, available, hfinished, h⟩
    | false =>
      simp only [hfinished, Bool.false_eq_true, if_false] at hcompile
      obtain ⟨⟨collected, subset⟩, hcollect, hcompile⟩ := Result.bind_eq_ok_iff.mp hcompile
      split at hcompile
      next hempty => cases hcompile
      next hempty =>
        have hsubset : subset ≠ [] := by simpa using hempty
        obtain ⟨row, hpack, hcompile⟩ := Result.bind_eq_ok_iff.mp hcompile
        split at hcompile
        next hless =>
          exact ih _ (hm ▸ hless)
            (hrow f available made collected subset row h hfinished hcollect hsubset hpack)
            hcompile rfl
        next hless => cases hcompile

/-- What is collected for a row processes nothing. -/
theorem same_collectRow {f collected : Frontier} {subset : List Nat}
    (hcollect : collectRow f threads bytes = .ok (collected, subset)) : f.Same collected := by
  have hstrict := f.same_collectBy [] ⟨threads, bytes, true⟩
  unfold collectRow Frontier.collect at hcollect
  split at hcollect
  next g e hanswer => cases hcollect
  next g i rest hanswer =>
    rw [hanswer] at hstrict
    obtain ⟨rfl, -⟩ := Prod.mk.inj (Except.ok.inj hcollect)
    exact hstrict
  next g hanswer =>
    rw [hanswer] at hstrict
    have hrelaxed := g.same_collectBy [] ⟨threads, bytes, false⟩
    split at hcollect
    next g' e hanswer' => cases hcollect
    next g' subset' hanswer' =>
      rw [hanswer'] at hrelaxed
      obtain ⟨rfl, -⟩ := Prod.mk.inj (Except.ok.inj hcollect)
      exact hstrict.trans hrelaxed

/-- A net that is compiled has a first frontier, from which the rows of the plan are made. -/
theorem compile_eq_ok {s : PlanSettings} {plan : Plan} (hcompile : compile s net = .ok plan) :
    ∃ threads, s.threads = some threads ∧ 0 < threads ∧ net.Readable ∧
      compileRows net threads (s.bytes.getD PlanSettings.defaultBytes) (Frontier.initial net)
        (Array.replicate net.neuronCount false) (blank net) = .ok plan := by
  unfold compile at hcompile
  split at hcompile
  next hnone => cases hcompile
  next hzero => cases hcompile
  next threads hpos hthreads =>
    obtain ⟨f, hf, hcompile⟩ := Result.bind_eq_ok_iff.mp hcompile
    obtain ⟨hread, rfl⟩ := Frontier.ofNet_eq_ok_iff.mp hf
    exact ⟨threads, hthreads, Nat.pos_of_ne_zero fun h0 => hpos (h0 ▸ rfl), hread, hcompile⟩

/-- In the first frontier nothing has to be paid. -/
theorem paid_initial (net : Net) : (Frontier.initial net).Paid net := by
  have hdone := Frontier.isDone_initial net
  refine ⟨rfl, by simp [Frontier.initial], ?_, fun i hi => ?_⟩
  · exact (List.countP_eq_zero.mpr fun i _ => by simp [hdone i]).symm
  · simp [hdone i] at hi

/-- **The costs of a net that has a plan fit.** -/
theorem costsFit_of_compile {s : PlanSettings} {plan : Plan}
    (hcompile : compile s net = .ok plan) : net.CostsFit := by
  obtain ⟨threads, -, -, -, hrows⟩ := compile_eq_ok hcompile
  have hpaid : ∃ (f : Frontier) (_ : Array Bool), f.finished = true ∧ f.Paid net :=
    compileRows_induct (P := fun f _ _ => f.Paid net)
      (fun f available made collected subset row hf _ hcollect _ hpack =>
        Packing.paid_packRow (hf.of_same (same_collectRow hcollect)) hpack)
      (paid_initial net) hrows
  obtain ⟨f, -, hfinished, hf⟩ := hpaid
  exact hf.costsFit hfinished

end Plan

end NeuralPlan
