import NeuralPlan.Proofs.Frontier.History
import NeuralPlan.Proofs.Plan.Layout

/-!
# Rounds of collections

A caller goes through a net in rounds: it collects neurons strictly, confirms each of them as
processed, front to back, and stops at the first collection that is empty.  If the budget affords
every neuron alone, then this ends, and processes just the neurons whose chains of reads end.

## Main definitions

* `Net.collected`, `Net.rounds` — the neurons of the first rounds, together and round by round.
* `Frontier.confirmAll`, `Frontier.round`, `Frontier.afterRounds` — the rounds of a frontier, each
  with workers of its own.

## Main results

* `Net.mem_collected_iff` — the neurons of all rounds.
* `Frontier.Stands.round` — one round.
* `Frontier.rounds_exhaust` — the rounds of a net, for any workers.
-/

set_option relaxedAutoImplicit false
set_option autoImplicit false

namespace NeuralPlan

/-! ## The neurons of the rounds -/

namespace Net

/-- The neurons of the first rounds: each round takes the longest affordable prefix of the neurons
that are due. -/
def collected (net : Net) (budget : Nat) : Nat → List Nat
  | 0 => []
  | k + 1 =>
    net.collected budget k ++ affordable net.bytesOf budget (net.due (net.collected budget k))

/-- The neurons of the first `n` rounds, round by round. -/
def rounds (net : Net) (budget n : Nat) : List (List Nat) :=
  (List.range n).map fun k => affordable net.bytesOf budget (net.due (net.collected budget k))

variable {net : Net} {budget : Nat}

/-- Nothing is affordable only if nothing is due. -/
theorem affordable_due_eq_nil_iff (hbudget : ∀ i < net.neuronCount, net.bytesOf i ≤ budget)
    {earlier : List Nat} :
    affordable net.bytesOf budget (net.due earlier) = [] ↔ net.due earlier = [] := by
  cases hdue : net.due earlier with
  | nil => simp [affordable]
  | cons i rest =>
    have hi : i < net.neuronCount := (mem_due.mp (hdue ▸ List.mem_cons_self)).1
    simp [affordable, hbudget i hi]

/-- The neurons of the first rounds are neurons of the net. -/
theorem lt_of_mem_collected {k i : Nat} (hi : i ∈ net.collected budget k) :
    i < net.neuronCount := by
  induction k with
  | zero => cases hi
  | succ k ih =>
    rcases List.mem_append.mp hi with hi | hi
    · exact ih hi
    · exact (mem_due.mp ((Plan.affordable_due_sublist net budget _).subset hi)).1

/-- No neuron is in the first rounds twice. -/
theorem nodup_collected (net : Net) (budget k : Nat) : (net.collected budget k).Nodup := by
  induction k with
  | zero => exact List.nodup_nil
  | succ k ih => exact nodup_append_due ih (Plan.affordable_due_sublist net budget _)

/-- The first rounds hold no more neurons than the net. -/
theorem length_collected_le (net : Net) (budget k : Nat) :
    (net.collected budget k).length ≤ net.neuronCount := by
  have hsub : net.collected budget k ⊆ List.range net.neuronCount := fun i hi =>
    List.mem_range.mpr (lt_of_mem_collected hi)
  simpa using ((net.nodup_collected budget k).subperm hsub).length_le

/-- As long as neurons are due, every round adds one. -/
theorem le_length_collected (hbudget : ∀ i < net.neuronCount, net.bytesOf i ≤ budget) {k : Nat}
    (hdue : ∀ m < k, net.due (net.collected budget m) ≠ []) :
    k ≤ (net.collected budget k).length := by
  induction k with
  | zero => exact Nat.zero_le _
  | succ k ih =>
    have hprev := ih fun m hm => hdue m (Nat.lt_succ_of_lt hm)
    have hnew := List.length_pos_iff.mpr
      (mt (affordable_due_eq_nil_iff hbudget).mp (hdue k (Nat.lt_succ_self k)))
    rw [collected, List.length_append]
    omega

/-- The neurons of one of the first rounds. -/
theorem getElem?_rounds_eq_some_iff {n k : Nat} {chosen : List Nat} :
    (net.rounds budget n)[k]? = some chosen ↔
      k < n ∧ chosen = affordable net.bytesOf budget (net.due (net.collected budget k)) := by
  rw [rounds, List.getElem?_map]
  by_cases hk : k < n
  · simp [hk, eq_comm]
  · simp [hk]

/-- The first rounds are as many as they should be. -/
theorem length_rounds (net : Net) (budget n : Nat) : (net.rounds budget n).length = n := by
  simp [rounds]

/-- The neurons of the first rounds are those of each. -/
theorem flatten_rounds (net : Net) (budget n : Nat) :
    (net.rounds budget n).flatten = net.collected budget n := by
  induction n with
  | zero => rfl
  | succ n ih =>
    rw [rounds, List.range_succ, List.map_append, List.flatten_append, ← rounds, ih, collected]
    simp

/-- **The rounds end**: after no more rounds than there are neurons, none is due. -/
theorem exists_last_round (hbudget : ∀ i < net.neuronCount, net.bytesOf i ≤ budget) :
    ∃ n ≤ net.neuronCount, net.due (net.collected budget n) = [] ∧
      ∀ k < n, net.due (net.collected budget k) ≠ [] := by
  have hex : ∃ n, net.due (net.collected budget n) = [] := by
    by_contra hnone
    push Not at hnone
    have hmany := le_length_collected hbudget (k := net.neuronCount + 1) fun m _ => hnone m
    have hfew := net.length_collected_le budget (net.neuronCount + 1)
    omega
  refine ⟨Nat.find hex, ?_, Nat.find_spec hex, fun k hk => Nat.find_min hex hk⟩
  exact (le_length_collected hbudget fun m hm => Nat.find_min hex hm).trans
    (net.length_collected_le budget _)

/-- The chains of the neurons of the first rounds end. -/
theorem not_endless_of_mem_collected {k i : Nat} (hi : i ∈ net.collected budget k) :
    ¬net.Endless i := by
  induction k generalizing i with
  | zero => cases hi
  | succ k ih =>
    rcases List.mem_append.mp hi with hi | hi
    · exact ih hi
    · intro hendless
      obtain ⟨j, hij, hj⟩ := hendless.exists_read
      have hreads := (mem_due.mp ((Plan.affordable_due_sublist net budget _).subset hi)).2.2
      exact ih (hreads j hij) hj

/-- **The neurons of all rounds** are those whose chains of reads end.

**Proof sketch.** A neuron of a round reads neurons of the rounds before only, so that its chains
end.  A neuron that is never collected is not due in the end, and so reads another one that is never
collected. -/
theorem mem_collected_iff (hlt : ∀ i j, net.Reads i j → j < net.neuronCount) {n : Nat}
    (hlast : net.due (net.collected budget n) = []) {i : Nat} (hi : i < net.neuronCount) :
    i ∈ net.collected budget n ↔ ¬net.Endless i := by
  refine ⟨not_endless_of_mem_collected, fun h => ?_⟩
  by_contra hout
  have hread : ∀ a, a < net.neuronCount ∧ a ∉ net.collected budget n →
      ∃ b, net.Reads a b ∧ b < net.neuronCount ∧ b ∉ net.collected budget n := by
    rintro a ⟨ha, hnew⟩
    by_contra hnone
    push Not at hnone
    have hdue : a ∈ net.due (net.collected budget n) :=
      mem_due.mpr ⟨ha, hnew, fun b hab => hnone b hab (hlt a b hab)⟩
    simp [hlast] at hdue
  exact h (endless_of_forall hread ⟨hi, hout⟩)

end Net

/-! ## The rounds of a frontier -/

/-- How many workers a collection sends out, and in which order they take their steps. -/
structure Crew where
  threads : Nat
  schedule : List Nat

namespace Frontier

/-- Neurons are confirmed as processed one after another, up to the first that is refused. -/
def confirmAll (f : Frontier) : List Nat → Frontier × Result Unit
  | [] => (f, .ok ())
  | i :: rest =>
    match f.confirmProcessed i with
    | (g, .error e) => (g, .error e)
    | (g, .ok ()) => g.confirmAll rest

/-- One round: the crew collects neurons strictly, and all of them are confirmed as processed, front
to back. -/
def round (f : Frontier) (budget : Nat) (crew : Crew) : Frontier × Result (List Nat) :=
  match f.collectBy crew.schedule ⟨crew.threads, budget, true⟩ with
  | (g, .error e) => (g, .error e)
  | (g, .ok chosen) =>
    match g.confirmAll chosen with
    | (h, .error e) => (h, .error e)
    | (h, .ok ()) => (h, .ok chosen)

/-- The frontier after a number of rounds, each with a crew of its own. -/
def afterRounds (f : Frontier) (budget : Nat) (crews : Nat → Crew) : Nat → Frontier
  | 0 => f
  | k + 1 => ((f.afterRounds budget crews k).round budget (crews k)).1

variable {net : Net} {f : Frontier} {budget : Nat} {earlier : List Nat}

/-- **Confirming the first neurons of the subset** processes just these, and leaves the others. -/
theorem Sound.confirmAll (hf : f.Sound) {l rest : List Nat} (hsub : f.subset = l ++ rest) :
    ∃ g, f.confirmAll l = (g, .ok ()) ∧ g.Sound ∧ g.net = f.net ∧ g.subset = rest ∧
      ∀ j, g.isDone j = true ↔ f.isDone j = true ∨ j ∈ l := by
  induction l generalizing f with
  | nil => exact ⟨f, rfl, hf, rfl, hsub, fun j => by simp⟩
  | cons i l ih =>
    have hi : i < f.status.size := hf.size ▸ hf.lt_of_mem_subset (hsub ▸ List.mem_cons_self)
    obtain ⟨g, hall, hsound, hnet, hrest, hdone⟩ := ih (hf.processFirst hsub) rfl
    refine ⟨g, ?_, hsound, hnet, hrest, fun j => ?_⟩
    · rw [Frontier.confirmAll, hf.confirmProcessed_first hsub]
      exact hall
    · rw [hdone, isDone_processFirst hi, Bool.or_eq_true, beq_iff_eq, List.mem_cons, or_assoc]

/-- The first frontier stands before all rounds. -/
theorem stands_initial (hread : net.Readable) : (initial net).Stands net [] :=
  ⟨sound_initial hread, rfl, rfl, fun i => by simp [isDone_initial]⟩

/-- **One round** answers the longest affordable prefix of the neurons that are due, whatever the
crew does, and the frontier then stands after these. -/
theorem Stands.round (hf : f.Stands net earlier) (hcost : net.CostsFit)
    (hbudget : ∀ i < net.neuronCount, net.bytesOf i ≤ budget) (crew : Crew) :
    ∃ g, f.round budget crew = (g, .ok (affordable net.bytesOf budget (net.due earlier))) ∧
      g.Stands net (earlier ++ affordable net.bytesOf budget (net.due earlier)) := by
  have hsub := Plan.affordable_due_sublist net budget earlier
  have hsound' := hf.sound_withSubset hsub
  have hready := hf.ready_eq
  obtain ⟨hsound, rfl, hsubset, hdone⟩ := hf
  have hfit : ∀ i ∈ f.ready.head?, f.net.bytesOf i ≤ budget := fun i hi =>
    hbudget i (hsound.lt_of_isReady (hsound.mem_ready.mp (List.mem_of_mem_head? hi)))
  have hcollect : f.collectBy crew.schedule ⟨crew.threads, budget, true⟩ = _ :=
    hsound.collectBy_strict_of_le hcost hsubset crew.schedule rfl hfit
  rw [hready] at hcollect
  obtain ⟨g, hconfirm, hg, hnet, hnil, hdone'⟩ :=
    hsound'.confirmAll (l := affordable f.net.bytesOf budget (f.net.due earlier))
      (List.append_nil _).symm
  refine ⟨g, ?_, hg, hnet, hnil, fun i => ?_⟩
  · rw [Frontier.round, hcollect]
    dsimp only
    rw [hconfirm]
  · rw [hdone', isDone_withSubset, hdone, List.mem_append]

/-- **The frontier after any number of rounds** stands after the neurons of these rounds.

**Proof sketch.** Induction on the number of rounds; one round is `Stands.round`. -/
theorem stands_afterRounds (hread : net.Readable) (hcost : net.CostsFit)
    (hbudget : ∀ i < net.neuronCount, net.bytesOf i ≤ budget) (crews : Nat → Crew) (k : Nat) :
    ((initial net).afterRounds budget crews k).Stands net (net.collected budget k) := by
  induction k with
  | zero => exact stands_initial hread
  | succ k ih =>
    obtain ⟨g, hround, hstands⟩ := ih.round hcost hbudget (crews k)
    rwa [afterRounds, hround]

/-- **Rounds exhaust a net** whose costs fit, with a budget that affords every neuron alone and with
any crews.

1. After no more rounds than there are neurons, all of which collect neurons, one round collects
   nothing.
2. When a neuron is collected, all neurons that it reads are processed; and none is collected
   twice.
3. In the end the processed neurons are those whose chains of reads end, which are those that
   neither lie on a cycle nor read their way into one.
4. So the work is finished exactly if the net is acyclic.

**Proof sketch.** After every round the frontier stands after the neurons that are collected so far,
which do not depend on the crews.  As long as neurons are due, a round collects one of them, and
there are finitely many. -/
theorem rounds_exhaust {start : Frontier} (hnet : net.totalBytes < Word.limit)
    (hstart : ofNet net = .ok start)
    (hbudget : ∀ i < net.neuronCount, net.bytesOf i ≤ budget) (crews : Nat → Crew) :
    ∃ rounds : List (List Nat),
      (rounds.length ≤ net.neuronCount ∧
        (∀ k chosen, rounds[k]? = some chosen → chosen ≠ [] ∧
          ((start.afterRounds budget crews k).round budget (crews k)).2 = .ok chosen) ∧
        ((start.afterRounds budget crews rounds.length).round budget
          (crews rounds.length)).2 = .ok []) ∧
      ((∀ k chosen, rounds[k]? = some chosen → ∀ i ∈ chosen, ∀ j, net.Reads i j →
          (start.afterRounds budget crews k).isProcessed j = .ok true) ∧
        rounds.flatten.Nodup) ∧
      (∀ i < net.neuronCount,
        ((start.afterRounds budget crews (rounds.length + 1)).isProcessed i = .ok true ↔
          ¬net.Endless i) ∧
        (net.Endless i ↔ net.MeetsCycle i)) ∧
      ((start.afterRounds budget crews (rounds.length + 1)).finished = true ↔ net.Acyclic) := by
  have hcost := Net.costsFit_of_totalBytes hnet
  obtain ⟨hread, rfl⟩ := ofNet_eq_ok_iff.mp hstart
  obtain ⟨n, hn, hlast, hbefore⟩ := Net.exists_last_round hbudget
  have hstands := stands_afterRounds hread hcost hbudget crews
  have hanswer : ∀ k, (((initial net).afterRounds budget crews k).round budget (crews k)).2 =
      .ok (affordable net.bytesOf budget (net.due (net.collected budget k))) := fun k => by
    obtain ⟨g, hround, -⟩ := (hstands k).round hcost hbudget (crews k)
    rw [hround]
  have hnone : affordable net.bytesOf budget (net.due (net.collected budget n)) = [] :=
    (Net.affordable_due_eq_nil_iff hbudget).mpr hlast
  have hend : ((initial net).afterRounds budget crews (n + 1)).Stands net
      (net.collected budget n) := by
    have h := hstands (n + 1)
    rwa [Net.collected, hnone, List.append_nil] at h
  have hlt : ∀ i j, net.Reads i j → j < net.neuronCount := (sound_initial hread).reads_lt
  have hdone : ∀ i < net.neuronCount,
      (((initial net).afterRounds budget crews (n + 1)).isProcessed i = .ok true ↔
        ¬net.Endless i) := fun i hi => by
    rw [isProcessed_eq_ok_true_iff, hend.done, Net.mem_collected_iff hlt hlast hi]
  refine ⟨net.rounds budget n, ?_⟩
  rw [Net.length_rounds, Net.flatten_rounds]
  simp only [Net.getElem?_rounds_eq_some_iff]
  refine ⟨⟨hn, ?_, ?_⟩, ⟨?_, net.nodup_collected budget n⟩,
    fun i hi => ⟨hdone i hi, Net.endless_iff_meetsCycle⟩, ?_⟩
  · rintro k _ ⟨hk, rfl⟩
    exact ⟨mt (Net.affordable_due_eq_nil_iff hbudget).mp (hbefore k hk), hanswer k⟩
  · rw [hanswer, hnone]
  · rintro k _ ⟨-, rfl⟩ i hi j hij
    have hdue := (Plan.affordable_due_sublist net budget _).subset hi
    rw [isProcessed_eq_ok_true_iff, (hstands k).done]
    exact (Net.mem_due.mp hdue).2.2 j hij
  · rw [hend.sound.finished_iff, hend.netEq, Net.acyclic_iff_forall_not_endless]
    refine forall₂_congr fun i hi => ?_
    rw [← isProcessed_eq_ok_true_iff, hdone i hi]

/-- In the knot net the rounds end: they process the neuron that reads the first one twice, but not
the one that reads the neuron that reads itself. -/
theorem rounds_exhaust_knot :
    ∃ start, ofNet Net.knot = .ok start ∧ ∀ crews : Nat → Crew, ∃ n ≤ 4,
      ((start.afterRounds 1000 crews n).round 1000 (crews n)).2 = .ok [] ∧
      (start.afterRounds 1000 crews (n + 1)).isProcessed 1 = .ok true ∧
      (start.afterRounds 1000 crews (n + 1)).isProcessed 3 ≠ .ok true ∧
      (start.afterRounds 1000 crews (n + 1)).finished = false := by
  have hself : Net.knot.Reads 2 2 := by
    unfold Net.Reads
    decide +kernel
  have hends : ¬Net.knot.Endless 1 := by
    have hone : Net.knot.inputsOf 1 = [0, 0] := by decide +kernel
    have hzero : Net.knot.inputsOf 0 = [] := by decide +kernel
    intro h
    obtain ⟨j, hj, h⟩ := h.exists_read
    obtain rfl : j = 0 := by simpa [Net.Reads, hone] using hj
    obtain ⟨k, hk, -⟩ := h.exists_read
    simp [Net.Reads, hzero] at hk
  have hendless : Net.knot.Endless 3 := by
    have hread : Net.knot.Reads 3 2 := by
      unfold Net.Reads
      decide +kernel
    exact Net.endless_iff_meetsCycle.mpr ⟨2, .single hread, .single hself⟩
  refine ⟨initial Net.knot, rfl, fun crews => ?_⟩
  obtain ⟨rounds, ⟨hlen, -, hlast⟩, -, hdone, hfinished⟩ :=
    rounds_exhaust (by decide) (show ofNet Net.knot = .ok _ from rfl)
      (show ∀ i < Net.knot.neuronCount, Net.knot.bytesOf i ≤ 1000 by decide +kernel) crews
  refine ⟨rounds.length, hlen, hlast, (hdone 1 (by decide)).1.mpr hends,
    fun h => (hdone 3 (by decide)).1.mp h hendless, ?_⟩
  rw [Bool.eq_false_iff]
  exact fun h => hfinished.mp h 2 (.single hself)

end Frontier

end NeuralPlan
