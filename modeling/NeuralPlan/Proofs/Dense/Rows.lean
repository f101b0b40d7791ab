import NeuralPlan.Proofs.Dense.Graph
import NeuralPlan.Proofs.Plan.Running

/-!
# The rows of a dense net

In a plan of a dense net the layers come one after another: each has rows of its own, which hold
one block of its neurons after another.  A layer that the memory of a row does not afford is
finished, row by row, before the next one is begun.

## Main definitions

* `Plan.Follows` — the rows of a plan follow layers.
* `Net.layerBytes` — the cost of the neurons of a layer.

## Main results

* `Plan.Laid.block` — one row more holds a block of one layer.
* `Plan.Laid.follows` — all rows.
* `Plan.Laid.first_succ_iff` — the layers that have a single row.
* `Plan.dense_rows_follow` — which dense nets have a plan, and what its rows are.
* `Plan.dense_too_wide_to_route` — a dense net without a plan that no memory helps.
-/

set_option relaxedAutoImplicit false
set_option autoImplicit false

namespace NeuralPlan

open NeuralPlan.Dense

/-- The cost of the neurons of the layer `l`. -/
def Net.layerBytes (net : Net) (layers : List Nat) (l : Nat) : Nat :=
  ((List.range' (layers.take l).sum (layers.getD l 0)).map net.bytesOf).sum

/-- The first numbers and those after them. -/
theorem range_append_range' (m k : Nat) : List.range m ++ List.range' m k = List.range (m + k) := by
  have hsplit := List.range'_append_1 (s := 0) (m := m) (n := k)
  rwa [Nat.zero_add, ← List.range_eq_range', ← List.range_eq_range'] at hsplit

/-- What a budget affords of consecutive neurons are the first ones of them. -/
theorem exists_affordable_range' (cost : Nat → Nat) (budget first count : Nat) :
    ∃ k ≤ count, affordable cost budget (List.range' first count) = List.range' first k := by
  generalize hchosen : affordable cost budget (List.range' first count) = chosen
  obtain ⟨rest, hrest⟩ : chosen <+: List.range' first count :=
    hchosen ▸ affords_affordable.isPrefix
  have hlength := congrArg List.length hrest
  rw [List.length_append, List.length_range'] at hlength
  have hle : chosen.length ≤ count := by omega
  refine ⟨chosen.length, hle, ?_⟩
  rw [← Nat.add_sub_of_le hle, ← List.range'_append_1] at hrest
  exact List.append_inj_left hrest (by rw [List.length_range'])

/-- A sequence that begins at zero and does not jump over `m` comes to it. -/
theorem exists_eq_of_steps {done : Nat → Nat} {m count : Nat} (hzero : done 0 = 0)
    (hstep : ∀ r < count, done r < m → done (r + 1) ≤ m) (hlast : m ≤ done count) :
    ∃ r ≤ count, done r = m := by
  induction count with
  | zero => exact ⟨0, le_rfl, by omega⟩
  | succ count ih =>
    by_cases hm : m ≤ done count
    · obtain ⟨r, hr, hdone⟩ := ih (fun r hr => hstep r (Nat.lt_succ_of_lt hr)) hm
      exact ⟨r, Nat.le_succ_of_le hr, hdone⟩
    · have hle := hstep count (Nat.lt_succ_self count) (by omega)
      exact ⟨count + 1, le_rfl, by omega⟩

namespace Plan

/-- The rows of the plan follow layers of these sizes: the layer `l` has the rows from `first l` up
to `first (l + 1)`, of which each holds a block of consecutive neurons of the layer, and which
together hold all of them in ascending order. -/
structure Follows (p : Plan) (layers : List Nat) (first : Nat → Nat) : Prop where
  zero : first 0 = 0
  rows : first layers.length = p.rows
  lt : ∀ l < layers.length, first l < first (l + 1)
  block : ∀ l < layers.length, ∀ r, first l ≤ r → r < first (l + 1) →
    ∃ m k, 0 < k ∧ (layers.take l).sum ≤ m ∧ m + k ≤ (layers.take (l + 1)).sum ∧
      p.rowMembers r = List.range' m k
  layer : ∀ l < layers.length,
    (List.range' (first l) (first (l + 1) - first l)).flatMap p.rowMembers =
      List.range' (layers.take l).sum (layers.getD l 0)

variable {net : Net} {layers : List Nat} {bytes threads : Nat} {rows : List (List Cell)} {p : Plan}
  {first : Nat → Nat} {l m r : Nat}

/-- The neurons of the rows before a row and of those from there on. -/
theorem membersBefore_eq_append (p : Plan) {q r : Nat} (h : q ≤ r) :
    p.membersBefore r = p.membersBefore q ++ (List.range' q (r - q)).flatMap p.rowMembers := by
  rw [membersBefore, ← Nat.add_sub_of_le h, ← range_append_range', List.flatMap_append,
    Nat.add_sub_of_le h, membersBefore]

namespace Follows

/-- The neurons of the rows before a layer are those of the layers before. -/
theorem membersBefore_eq (h : p.Follows layers first) (hl : l ≤ layers.length) :
    p.membersBefore (first l) = List.range (layers.take l).sum := by
  induction l with
  | zero =>
    rw [h.zero]
    rfl
  | succ l ih =>
    have hlt := h.lt l hl
    rw [p.membersBefore_eq_append hlt.le, ih (Nat.le_of_succ_le hl), h.layer l hl,
      range_append_range', sum_take_add]

/-- The rows of the layers are rows of the plan. -/
theorem first_le (h : p.Follows layers first) (hl : l ≤ layers.length) : first l ≤ p.rows := by
  have hmono : ∀ m, l ≤ m → m ≤ layers.length → first l ≤ first m := by
    intro m hlm
    induction m, hlm using Nat.le_induction with
    | base => exact fun _ => le_rfl
    | succ m _ ih => exact fun hm => (ih (Nat.le_of_succ_le hm)).trans (h.lt m hm).le
  rw [← h.rows]
  exact hmono _ hl le_rfl

/-- If every layer has a single row, then there are as many rows as layers. -/
theorem rows_eq (h : p.Follows layers first)
    (hone : ∀ l < layers.length, first (l + 1) = first l + 1) : p.rows = layers.length := by
  have hfirst : ∀ l ≤ layers.length, first l = l := by
    intro l
    induction l with
    | zero => exact fun _ => h.zero
    | succ l ih => exact fun hl => by rw [hone l hl, ih (Nat.le_of_succ_le hl)]
  rw [← h.rows, hfirst _ le_rfl]

end Follows

namespace Laid

/-- A row holds what the memory affords of the neurons that are due. -/
theorem rowMembers_eq_affordable (hneurons : net.neuronCount < Word.signedLimit)
    (h : p.Laid net bytes rows) (hr : r < p.rows) :
    p.rowMembers r = affordable net.bytesOf bytes (net.due (p.membersBefore r)) ∧
      p.rowMembers r ≠ [] := by
  rw [h.rows_eq] at hr
  have hrow := List.getElem?_eq_getElem hr
  rw [h.rowMembers_eq hneurons hrow, h.membersBefore_eq hneurons]
  exact ⟨h.chosen r _ hrow, h.nonempty _ (List.getElem_mem hr)⟩

/-- **One row more** after the first neurons holds a block of neurons of the layer that the next
one is of. -/
theorem block (hneurons : net.neuronCount < Word.signedLimit) (h : p.Laid net bytes rows)
    (hstack : net.IsStack layers) (hr : r < p.rows) (hbefore : p.membersBefore r = List.range m) :
    ∃ l k, (layers.take l).sum ≤ m ∧ 0 < k ∧ m + k ≤ (layers.take (l + 1)).sum ∧
      p.rowMembers r = List.range' m k ∧ p.membersBefore (r + 1) = List.range (m + k) := by
  obtain ⟨hchosen, hne⟩ := h.rowMembers_eq_affordable hneurons hr
  rw [hbefore] at hchosen
  have hm : m < layers.sum := by
    by_contra hend
    rw [hstack.due_range_eq_nil (Nat.le_of_not_lt hend)] at hchosen
    exact hne hchosen
  obtain ⟨l, -, hfirst, hlast⟩ := exists_layer_of_lt hm
  obtain ⟨k, hk, hblock⟩ := exists_affordable_range' net.bytesOf bytes m
    ((layers.take (l + 1)).sum - m)
  rw [hstack.due_range hfirst hlast, hblock] at hchosen
  refine ⟨l, k, hfirst, Nat.pos_of_ne_zero fun hnone => ?_, by omega, hchosen, ?_⟩
  · exact hne (by rw [hchosen, hnone, List.range'_zero])
  · rw [membersBefore_succ, hbefore, hchosen, range_append_range']

/-- The rows before any row hold the first neurons. -/
theorem exists_range (hneurons : net.neuronCount < Word.signedLimit) (h : p.Laid net bytes rows)
    (hstack : net.IsStack layers) (hr : r ≤ p.rows) : ∃ m, p.membersBefore r = List.range m := by
  induction r with
  | zero => exact ⟨0, rfl⟩
  | succ r ih =>
    obtain ⟨m, hm⟩ := ih (Nat.le_of_succ_le hr)
    obtain ⟨l, k, -, -, -, -, hafter⟩ := h.block hneurons hstack hr hm
    exact ⟨m + k, hafter⟩

/-- More rows hold more neurons. -/
theorem length_membersBefore_lt (hneurons : net.neuronCount < Word.signedLimit)
    (h : p.Laid net bytes rows) {q : Nat} (hqr : q < r) (hr : r ≤ p.rows) :
    (p.membersBefore q).length < (p.membersBefore r).length := by
  obtain ⟨-, hne⟩ := h.rowMembers_eq_affordable hneurons (hqr.trans_le hr)
  have hpos := List.length_pos_iff.mpr hne
  rw [p.membersBefore_eq_append hqr, membersBefore_succ, List.length_append, List.length_append]
  omega

/-- **A layer begins with a row**: some first rows hold the neurons of the layers before.

**Proof sketch.** The rows hold the first neurons, more and more of them, and no row goes beyond the
end of a layer. -/
theorem exists_first (hneurons : net.neuronCount < Word.signedLimit) (h : p.Laid net bytes rows)
    (hstack : net.IsStack layers) (hall : ∀ i < net.neuronCount, i ∈ p.membersBefore p.rows)
    (l : Nat) : ∃ r ≤ p.rows, p.membersBefore r = List.range (layers.take l).sum := by
  have hstep : ∀ r < p.rows, (p.membersBefore r).length < (layers.take l).sum →
      (p.membersBefore (r + 1)).length ≤ (layers.take l).sum := by
    intro r hr hlt
    obtain ⟨m, hm⟩ := h.exists_range hneurons hstack hr.le
    obtain ⟨q, k, hfirst, -, hlast, -, hafter⟩ := h.block hneurons hstack hr hm
    rw [hm, List.length_range] at hlt
    rw [hafter, List.length_range]
    have hql : q + 1 ≤ l := by
      by_contra hlq
      have hle := sum_take_mono layers (show l ≤ q by omega)
      omega
    exact hlast.trans (sum_take_mono layers hql)
  have hlast : (layers.take l).sum ≤ (p.membersBefore p.rows).length := by
    obtain ⟨m, hm⟩ := h.exists_range hneurons hstack le_rfl
    have hle := sum_take_le layers l
    rw [hm, List.length_range]
    by_contra hlt
    have hmem := hall m (by rw [hstack.count]; omega)
    rw [hm, List.mem_range] at hmem
    omega
  obtain ⟨r, hr, hlength⟩ := exists_eq_of_steps rfl hstep hlast
  obtain ⟨m, hm⟩ := h.exists_range hneurons hstack hr
  refine ⟨r, hr, ?_⟩
  rw [hm, List.length_range] at hlength
  rw [hm, hlength]

/-- From the first row of a layer on, and before that of the next one, a row holds a block of
neurons of this layer. -/
theorem block_within (hneurons : net.neuronCount < Word.signedLimit) (h : p.Laid net bytes rows)
    (hstack : net.IsStack layers) {q q' : Nat}
    (hfirst : p.membersBefore q = List.range (layers.take l).sum)
    (hlast : p.membersBefore q' = List.range (layers.take (l + 1)).sum) (hqr : q ≤ r)
    (hrq : r < q') (hq : q' ≤ p.rows) :
    ∃ m k, 0 < k ∧ (layers.take l).sum ≤ m ∧ m + k ≤ (layers.take (l + 1)).sum ∧
      p.rowMembers r = List.range' m k := by
  have hr := hrq.trans_le hq
  obtain ⟨m, hm⟩ := h.exists_range hneurons hstack hr.le
  obtain ⟨layer, k, hlower, hpos, hupper, hmembers, -⟩ := h.block hneurons hstack hr hm
  have hfrom : (layers.take l).sum ≤ m := by
    have hlength := congrArg List.length (p.membersBefore_eq_append hqr)
    rw [hm, hfirst, List.length_append, List.length_range, List.length_range] at hlength
    omega
  have hto : m < (layers.take (l + 1)).sum := by
    have hlength := h.length_membersBefore_lt hneurons hrq hq
    rwa [hm, hlast, List.length_range, List.length_range] at hlength
  obtain hlt | rfl | hgt := lt_trichotomy layer l
  · have hle := sum_take_mono layers (show layer + 1 ≤ l from hlt)
    omega
  · exact ⟨m, k, hpos, hfrom, hupper, hmembers⟩
  · have hle := sum_take_mono layers (show l + 1 ≤ layer from hgt)
    omega

/-- **The rows follow the layers**, if all neurons are in rows. -/
theorem follows (hneurons : net.neuronCount < Word.signedLimit) (h : p.Laid net bytes rows)
    (hstack : net.IsStack layers) (hall : ∀ i < net.neuronCount, i ∈ p.membersBefore p.rows) :
    ∃ first, p.Follows layers first := by
  choose first hle hfirst using h.exists_first hneurons hstack hall
  have hlength : ∀ l, (p.membersBefore (first l)).length = (layers.take l).sum := fun l => by
    rw [hfirst l, List.length_range]
  have hlt : ∀ l < layers.length, first l < first (l + 1) := by
    intro l hl
    have hsum := sum_take_lt hstack.nonempty hl
    rw [← hlength, ← hlength] at hsum
    by_contra hge
    rcases Nat.lt_or_eq_of_le (Nat.le_of_not_lt hge) with hgt | heq
    · have hmore := h.length_membersBefore_lt hneurons hgt (hle l)
      omega
    · rw [heq] at hsum
      exact lt_irrefl _ hsum
  refine ⟨first, ?_, ?_, hlt, fun l hl r hfrom hto => ?_, fun l hl => ?_⟩
  · -- A row before the first layer would hold neurons, of which there are none there.
    by_contra hne
    have hmore := h.length_membersBefore_lt hneurons (Nat.pos_of_ne_zero hne) (hle 0)
    rw [hlength 0] at hmore
    exact Nat.not_lt_zero _ hmore
  · -- A row after the last layer would hold a block of another one.
    by_contra hne
    have hr := lt_of_le_of_ne (hle layers.length) hne
    obtain ⟨q, k, -, hpos, hlast, -, -⟩ := h.block hneurons hstack hr (hfirst layers.length)
    have hend := sum_take_le layers (q + 1)
    rw [List.take_length] at hlast
    omega
  · exact h.block_within hneurons hstack (hfirst l) (hfirst (l + 1)) hfrom hto (hle (l + 1))
  · have happend := p.membersBefore_eq_append (hlt l hl).le
    rw [hfirst, hfirst, ← sum_take_add, ← range_append_range'] at happend
    exact (List.append_cancel_left happend).symm

/-- **A layer has a single row** exactly if the memory affords all its neurons. -/
theorem first_succ_iff (hneurons : net.neuronCount < Word.signedLimit)
    (h : p.Laid net bytes rows) (hstack : net.IsStack layers) (hfollows : p.Follows layers first)
    (hl : l < layers.length) :
    first (l + 1) = first l + 1 ↔ net.layerBytes layers l ≤ bytes := by
  have hlt := hfollows.lt l hl
  have hend := hfollows.first_le hl
  have hone := sum_take_add layers l
  have hbefore := hfollows.membersBefore_eq hl.le
  have hafter := hfollows.membersBefore_eq hl
  have hchosen := (h.rowMembers_eq_affordable hneurons (hlt.trans_le hend)).1
  rw [hbefore, hstack.due_range le_rfl (sum_take_lt hstack.nonempty hl), ← hone,
    Nat.add_sub_cancel_left] at hchosen
  constructor
  · intro hsingle
    have hlayer := hfollows.layer l hl
    rw [hsingle, Nat.add_sub_cancel_left, List.range'_one, List.flatMap_singleton,
      hchosen] at hlayer
    rw [Net.layerBytes, ← hlayer]
    exact affords_affordable.within
  · intro hfits
    rw [affordable_eq_self hfits] at hchosen
    by_contra hne
    have hmore :=
      h.length_membersBefore_lt hneurons (show first l + 1 < first (l + 1) by omega) hend
    rw [membersBefore_succ, hbefore, hchosen, hafter, range_append_range', hone] at hmore
    exact lt_irrefl _ hmore

end Laid

/-! ## Dense nets -/

variable {σ : Type} [Initializer σ] {s : NetSettings} {initializer final : σ}
  {stream : Random.Stream} {settings : PlanSettings}

/-- **The rows of a dense net follow its layers.**  Let a net be generated with layers of any
sizes, by any initializer, and be compiled for any number of threads, at least one, and any memory.
Let no cost overflow: a word counts the bytes of a cell for all neurons.

1. If the net has no plan, then the memory is exhausted; and it has none exactly if a cell for some
   neuron alone could exceed the share of one thread in the memory.  The frontier has to count the
   references of a neuron for this: if a layer but the last one has more neurons than it can count,
   then that is what is reported.
2. In any plan the layers come one after another: a layer has consecutive rows, each of which holds
   a block of consecutive neurons of it, and which hold all of them in ascending order.
3. A layer has a single row exactly if the memory affords all its neurons.  If it does for every
   layer, then there are as many rows as layers.

**Proof sketch.** After the first neurons, what is due is the rest of the layer that they end in; a
row takes the longest affordable prefix of it, so that it never goes beyond a layer.  As every row
takes some neuron, every end of a layer is met. -/
theorem dense_rows_follow (hdense : Net.dense s layers initializer stream = .ok (net, final))
    (hbytes : Cell.emptyBytes + net.totalBytes < Word.limit)
    (hthreads : settings.threads = some threads) (hpos : 1 ≤ threads) :
    ((∀ size ∈ layers.dropLast, size ≤ Frontier.maxReferences) →
      (∀ e, compile settings net = .error e →
        ∃ required limit, e = .error (.exhausted required limit)) ∧
      ((∃ e, compile settings net = .error e) ↔ ∃ i < net.neuronCount,
        settings.bytes.getD PlanSettings.defaultBytes / threads <
          Cell.emptyBytes + net.bytesOf i)) ∧
    ((∃ size ∈ layers.dropLast, Frontier.maxReferences < size) →
      ∃ i, compile settings net = fail (.invalidState (.tooManyInputs i))) ∧
    ∀ p, compile settings net = .ok p → ∃ first, p.Follows layers first ∧
      (∀ l < layers.length, first (l + 1) = first l + 1 ↔
        net.layerBytes layers l ≤ settings.bytes.getD PlanSettings.defaultBytes) ∧
      ((∀ l < layers.length,
        net.layerBytes layers l ≤ settings.bytes.getD PlanSettings.defaultBytes) →
          p.rows = layers.length) := by
  have hneurons : net.neuronCount < Word.signedLimit := Net.neuronCount_lt (by omega)
  obtain ⟨hinputs, hstack, hwell⟩ := isStack_of_dense hdense (by omega)
  refine ⟨fun hsizes => ?_, fun hmany => ?_, fun p hp => ?_⟩
  · obtain ⟨hways, hiff⟩ := compile_exhausted_iff hbytes hinputs hthreads hpos
      ⟨(hstack.few_iff _).mpr hsizes, hwell⟩ hstack.acyclic
    refine ⟨hways, hiff.trans ?_⟩
    simp [Net.Fits]
  · refine compile_eq_tooManyInputs hinputs hneurons hthreads hpos hwell fun hfew => ?_
    obtain ⟨size, hsize, hbig⟩ := hmany
    exact Nat.not_le_of_lt hbig ((hstack.few_iff _).mp hfew size hsize)
  · obtain ⟨-, rows, -, -, -, hlaid, hall, -⟩ := compile_laid hp hneurons
    have hbefore : ∀ i < net.neuronCount, i ∈ p.membersBefore p.rows := by
      rwa [hlaid.membersBefore_eq hneurons, hlaid.rows_eq, List.take_length]
    obtain ⟨first, hfollows⟩ := hlaid.follows hneurons hstack hbefore
    have hsingle : ∀ l < layers.length, _ := fun l hl =>
      hlaid.first_succ_iff hneurons hstack hfollows hl
    exact ⟨first, hfollows, hsingle, fun hfits =>
      hfollows.rows_eq fun l hl => (hsingle l hl).mpr (hfits l hl)⟩

/-- A layer of four neurons and one of a single neuron, in memory for three of the four: the first
layer takes more than one row, and is finished before the other one is begun. -/
theorem dense_rows_follow_twoInputs :
    ∃ net p first,
      Net.dense twoInputs [4, 1] (Constant.mk 0.5) (.ofSeed 3) = .ok (net, ⟨0.5⟩) ∧
        compile ⟨some 1, some 521⟩ net = .ok p ∧ p.Follows [4, 1] first ∧ first 1 ≠ 1 ∧
        first 2 = first 1 + 1 := by
  have hpicks : (picks (withChoices [4, 1] twoInputs.choices) (.ofSeed 3)).1 =
      [[.identity, .elu, .identity, .relu], [.identity]] := by decide +kernel
  have hdense : Net.dense twoInputs [4, 1] (Constant.mk 0.5) (.ofSeed 3) =
      .ok (netOf 2 1 1.0 [[.identity, .elu, .identity, .relu], [.identity]]
        (List.replicate 22 0.5), ⟨0.5⟩) := by
    rw [dense_eq (s := twoInputs) rfl rfl (show [4, 1].getLast? = some 1 from rfl)
      (by simp [twoInputs, NetSettings.unset]) (by decide)
      (by simp [twoInputs, NetSettings.unset]) (by decide), hpicks]
    rfl
  have hthreads : (⟨some 1, some 521⟩ : PlanSettings).threads = some 1 := rfl
  obtain ⟨hfails, -, hrows⟩ := dense_rows_follow hdense (by decide +kernel) hthreads le_rfl
  generalize hnet : netOf 2 1 1.0 _ _ = net at hdense hfails hrows
  cases hcompile : compile ⟨some 1, some 521⟩ net with
  | error e =>
    obtain ⟨i, hi, hlt⟩ := (hfails (by decide)).2.mp ⟨e, hcompile⟩
    have hall : ∀ i < net.neuronCount, Cell.emptyBytes + net.bytesOf i ≤ 521 := by
      rw [← hnet]
      decide +kernel
    exact absurd hlt (Nat.not_lt_of_le (hall i hi))
  | ok p =>
    obtain ⟨first, hfollows, hsingle, -⟩ := hrows p hcompile
    refine ⟨net, p, first, hdense, hcompile, hfollows, fun hone => ?_,
      (hsingle 1 (by decide)).mpr ?_⟩
    · have hfits := (hsingle 0 (by decide)).mp (by rw [hfollows.zero]; exact hone)
      rw [← hnet] at hfits
      revert hfits
      decide +kernel
    · rw [← hnet]
      decide +kernel

/-- A layer may have more neurons than the frontier can count, although no cost overflows.  Then the
net has no plan, but it is not the memory that is exhausted, and every neuron would fit the memory of
the thread. -/
theorem dense_too_wide_to_route :
    ∃ net, Net.dense twoInputs [4294967296, 1] (Constant.mk 0.5) (.ofSeed 3) = .ok (net, ⟨0.5⟩) ∧
      Cell.emptyBytes + net.totalBytes < Word.limit ∧
      (∃ i, compile ⟨some 1, some Word.greatest⟩ net = fail (.invalidState (.tooManyInputs i))) ∧
      ¬(∀ e, compile ⟨some 1, some Word.greatest⟩ net = .error e →
        ∃ required limit, e = .error (.exhausted required limit)) ∧
      ¬((∃ e, compile ⟨some 1, some Word.greatest⟩ net = .error e) ↔
        ∃ i < net.neuronCount, Word.greatest / 1 < Cell.emptyBytes + net.bytesOf i) := by
  obtain ⟨net, hdense, hinput⟩ : ∃ net, Net.dense twoInputs [4294967296, 1] (Constant.mk 0.5)
      (.ofSeed 3) = .ok (net, ⟨0.5⟩) ∧ net.inputSize = 2 := by
    rw [dense_eq (s := twoInputs) rfl rfl (show [4294967296, 1].getLast? = some 1 from rfl)
      (by simp [twoInputs, NetSettings.unset]) (by decide)
      (by simp [twoInputs, NetSettings.unset]) (by decide)]
    generalize picks _ _ = drawn
    obtain ⟨values, hvalues⟩ := (Constant.mk 0.5).exists_replay (calls 2 1.0 drawn.1)
    rw [hvalues]
    exact ⟨_, rfl, rfl⟩
  have hbytes : Cell.emptyBytes + net.totalBytes < Word.limit := by
    rw [totalBytes_of_dense hdense, hinput]
    decide
  have hneurons : net.neuronCount < Word.signedLimit := Net.neuronCount_lt (by omega)
  obtain ⟨hinputs, hstack, hwell⟩ := isStack_of_dense hdense (by omega)
  have hmany : ¬∀ n ∈ net.neurons, n.neuronInputs.length ≤ Frontier.maxReferences := by
    rw [hstack.few_iff]
    exact fun hsizes => absurd (hsizes 4294967296 (by decide)) (by decide)
  obtain ⟨i, hi⟩ := compile_eq_tooManyInputs (s := ⟨some 1, some Word.greatest⟩) hinputs hneurons rfl
    Nat.one_pos hwell hmany
  refine ⟨net, hdense, hbytes, ⟨i, hi⟩, fun hways => ?_, fun hiff => ?_⟩
  · obtain ⟨required, limit, hexhausted⟩ := hways _ hi
    cases hexhausted
  · obtain ⟨j, -, hlt⟩ := hiff.mp ⟨_, hi⟩
    have hle := net.bytesOf_le j
    have hgreatest : Word.greatest / 1 + 1 = Word.limit := by decide
    omega

end Plan

end NeuralPlan
