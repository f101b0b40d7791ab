import NeuralPlan.Proofs.Draft.Add

/-!
# Drafts after any calls

A cell is made by calls that try to take neurons in, one after another, of which some may fail.  A
call that fails leaves the draft as it is.  Which ones fail can be told from the net and the neurons
that were taken in before, so that the draft holds at any time the neurons of the calls that did
not.

## Main definitions

* `Draft.addAll` — the draft after calls, and the neurons that they have taken in.
* `Net.Takes`, `Net.takenOf` — whether a call takes its neuron in, and the neurons of those that do.
* `Net.outsideReads` — what neurons read from outside of a cell that takes them in.
* `Net.IsGiven` — a reference that slots may hold.
* `Draft.Took` — the parts of the draft are the neurons taken in, in order.

## Main results

* `Draft.Took.takes_iff` — the checks of a call pass exactly if its neuron can be taken in.
* `Draft.Took.call` — one call more.
* `Draft.size_weights_addAll_le` — calls fill the table of weights only so far.
* `Draft.took_addAll` — all calls.
-/

set_option relaxedAutoImplicit false
set_option autoImplicit false

namespace NeuralPlan

/-! ## Calls -/

namespace Draft

/-- The draft after one call, and the neurons taken in by then. -/
def call (s : Draft × List Nat) (i : Nat) : Draft × List Nat :=
  match s.1.add i with
  | (d, .ok ()) => (d, s.2 ++ [i])
  | (d, .error _) => (d, s.2)

/-- The draft after the calls, and the neurons that they have taken in, in order. -/
def addAll (d : Draft) (calls : List Nat) : Draft × List Nat := calls.foldl call (d, [])

end Draft

namespace Net

/-- The neuron `i` can be taken in after `taken`: it is a well-formed neuron of the net, is not taken
in yet, and reads only neurons that are, or that are available. -/
def Takes (net : Net) (available : Array Bool) (taken : List Nat) (i : Nat) : Prop :=
  i ∉ taken ∧ ∃ n ∈ net.neurons[i]?, n.WellFormed net ∧ n.size < Word.limit ∧
    ∀ j ∈ n.neuronInputs, j ∈ taken ∨ available[j]? = some true

instance (net : Net) (available : Array Bool) (taken : List Nat) (i : Nat) :
    Decidable (net.Takes available taken i) := inferInstanceAs (Decidable (_ ∧ _))

/-- The neurons of those calls that take their neurons in, after those that are taken in already. -/
def takenOf (net : Net) (available : Array Bool) (taken calls : List Nat) : List Nat :=
  calls.foldl (fun taken i => if net.Takes available taken i then taken ++ [i] else taken) taken

/-- The places that the neuron `i` takes in the table of weights of a cell. -/
def placesOf (net : Net) (i : Nat) : Nat := (net.neurons[i]?.map fun n => n.size + 2).getD 0

/-- The references of the neuron `i`, in order. -/
def referencesOf (net : Net) (i : Nat) : List Int :=
  (net.neurons[i]?.map Neuron.references).getD []

/-- What the neurons read from outside of a cell that takes them in, in order: the references of each
to external inputs, and to neurons that are not taken in before it. -/
def outsideReads (net : Net) (taken : List Nat) : List Int :=
  (taken.mapIdx fun k i => outside (taken.take k) (net.referencesOf i)).flatten

/-- One neuron more reads from outside what the neurons before it are not. -/
theorem outsideReads_concat (net : Net) (taken : List Nat) (i : Nat) :
    net.outsideReads (taken ++ [i]) =
      net.outsideReads taken ++ outside taken (net.referencesOf i) := by
  have hbefore : taken.mapIdx (fun k j => outside ((taken ++ [i]).take k) (net.referencesOf j)) =
      taken.mapIdx (fun k j => outside (taken.take k) (net.referencesOf j)) := by
    apply List.mapIdx_eq_mapIdx_iff.mpr
    intro k hk
    rw [List.take_append_of_le_length hk.le]
  rw [outsideReads, List.mapIdx_concat, hbefore, List.flatten_concat, List.take_left]
  rfl

/-- What a reference names is given from outside: it is an external input that there is, or an
available neuron. -/
def IsGiven (net : Net) (available : Array Bool) (ref : Int) : Prop :=
  if Ref.isInput ref then (-(ref + 1)).toNat < net.inputSize
  else ref.toNat < net.neuronCount ∧ available[ref.toNat]? = some true

/-- What is given from outside is named by words with neighbours. -/
theorem IsGiven.isInner {net : Net} {available : Array Bool} {ref : Int}
    (h : net.IsGiven available ref) (hinputs : net.inputSize < Word.signedLimit)
    (hneurons : net.neuronCount < Word.signedLimit) : Word.IsInner ref := by
  refine isInner_of_names hinputs hneurons ?_
  unfold IsGiven at h
  split at h
  next hin => rwa [if_pos hin]
  next hin => rw [if_neg hin]; exact h.1

end Net

namespace Draft

/-- The draft has taken in the neurons `taken` of the net: these are its parts, in order, each of
them agrees with its neuron and reads the parts before it wherever it can, and its slots hold what
the neurons read from outside, which is given there. -/
structure Took (net : Net) (available : Array Bool) (d : Draft) (taken : List Nat)
    (parts : List Part) (slots : List Int) : Prop where
  netEq : d.net = net
  availableEq : d.available = available
  holds : d.Holds parts slots
  members : parts.map Part.index = taken
  copies : Copies net parts slots
  routes : ∀ (k : Nat) (p : Part) (n : Neuron), parts[k]? = some p →
    net.neurons[p.index]? = some n →
      List.Forall₂ (Routes (parts.take k) slots) p.sources n.references
  uses : slots = (net.outsideReads taken).eraseDups
  given : ∀ ref ∈ slots, net.IsGiven available ref

variable {net : Net} {available : Array Bool} {d : Draft} {taken calls : List Nat}
  {parts : List Part} {slots : List Int} {i : Nat}

/-- Nothing is taken in yet. -/
theorem took_start (net : Net) (available : Array Bool) :
    Took net available (start net available) [] [] [] :=
  ⟨rfl, rfl, holds_start net available, rfl, fun _ _ hp => by simp at hp,
    fun _ _ _ hp => by simp at hp, rfl, by simp⟩

/-! ## One call -/

/-- A neuron is available exactly if its flag says so. -/
theorem isAvailable_iff : d.isAvailable i = true ↔ d.available[i]? = some true := by
  unfold isAvailable
  cases d.available[i]? <;> simp

/-- A call that is not accepted fails, and leaves the draft as it is. -/
theorem add_eq_error (h : ∀ n, ¬d.Accepts i n) : ∃ e, d.add i = (d, .error e) := by
  unfold add
  split
  next e hexamine => exact ⟨e, rfl⟩
  next e hexamine =>
    obtain ⟨n, haccepts, -⟩ := examine_eq_ok_iff.mp hexamine
    exact absurd haccepts (h n)

/-- A call that is accepted copies weights, a bias and a memory filter, even if it fails. -/
theorem size_weights_add {n : Neuron} (h : d.Accepts i n) :
    (d.add i).1.cell.weights.size = d.cell.weights.size + n.size + 2 := by
  have hcopied : (d.copyWeights (examined d.net n)).cell.weights.size =
      d.cell.weights.size + n.size + 2 := by
    simp [copyWeights, examined, h.count.2, Nat.add_assoc]
  obtain ⟨runs, slotOf, hall⟩ :=
    (d.copyWeights (examined d.net n)).sourcesOf_fst #[] n.references
  have hsize := congrArg (fun d : Draft => d.cell.weights.size) hall
  rw [add_eq h, ← hcopied]
  split
  next d₁ e hsources => rwa [hsources] at hsize
  next d₁ sources hsources =>
    rw [hsources] at hsize
    unfold place
    dsimp only
    split
    · exact hsize
    · exact hsize

/-- A call leaves the draft that its attempt leaves, whether it fails or not. -/
theorem call_fst (s : Draft × List Nat) (i : Nat) : (call s i).1 = (s.1.add i).1 := by
  unfold call
  split
  next d hadd => rw [hadd]
  next d e hadd => rw [hadd]

/-- A call leaves the net as it is. -/
theorem net_call (s : Draft × List Nat) (i : Nat) : (call s i).1.net = s.1.net := by
  rw [call_fst, net_add]

/-- A call makes the table of weights no smaller, and no larger than by the places of its neuron. -/
theorem size_weights_call (s : Draft × List Nat) (i : Nat) :
    s.1.cell.weights.size ≤ (call s i).1.cell.weights.size ∧
      (call s i).1.cell.weights.size ≤ s.1.cell.weights.size + s.1.net.placesOf i := by
  rw [call_fst]
  by_cases h : ∃ n, s.1.Accepts i n
  · obtain ⟨n, haccepts⟩ := h
    have hplaces : s.1.net.placesOf i = n.size + 2 := by
      simp [Net.placesOf, haccepts.neuron]
    rw [size_weights_add haccepts, hplaces]
    omega
  · obtain ⟨e, he⟩ := add_eq_error (not_exists.mp h)
    rw [he]
    exact ⟨le_rfl, Nat.le_add_right _ _⟩

/-- A neuron is in the cell exactly if it is taken in. -/
theorem Took.contains_iff (h : Took net available d taken parts slots) {j : Nat} :
    d.contains j = true ↔ j ∈ taken := by
  rw [h.holds.contains_iff, ← h.members, List.mem_map]

/-- **The checks of a call** pass exactly if its neuron can be taken in. -/
theorem Took.takes_iff (h : Took net available d taken parts slots)
    (hinputs : net.inputSize < Word.signedLimit) (hneurons : net.neuronCount < Word.signedLimit) :
    net.Takes available taken i ↔ ∃ n, d.Accepts i n := by
  obtain rfl := h.netEq
  obtain rfl := h.availableEq
  have hread : ∀ j, d.canRead j = true ↔ j ∈ taken ∨ d.available[j]? = some true := by
    intro j
    rw [canRead, Bool.or_eq_true, h.contains_iff, isAvailable_iff]
  constructor
  · rintro ⟨hfresh, n, hn, hwell, hsize, hreads⟩
    refine ⟨n, accepts_of_wellFormed hn hwell ?_ hsize (fun ref href => ?_) fun j hj =>
      (hread j).mpr (hreads j hj)⟩
    · rwa [Bool.eq_false_iff, ne_eq, h.contains_iff]
    · exact (isInner_of_names hinputs hneurons (hwell.references ref href)).isSigned
  · rintro ⟨n, haccepts⟩
    refine ⟨fun hmem => ?_, n, haccepts.neuron, haccepts.wellFormed, haccepts.count.1,
      fun j hj => ?_⟩
    · rw [← h.contains_iff, haccepts.fresh] at hmem
      cases hmem
    · exact (hread j).mp (haccepts.canRead j hj)

/-- A call that is accepted succeeds, if there is room. -/
theorem Took.add_isOk (h : Took net available d taken parts slots)
    (hinputs : net.inputSize < Word.signedLimit) (hneurons : net.neuronCount < Word.signedLimit)
    {n : Neuron} (haccepts : d.Accepts i n)
    (hroom : d.cell.weights.size + n.size + 2 < Word.signedLimit) :
    ∃ d', d.add i = (d', .ok ()) := by
  refine h.holds.add_isOk haccepts hroom (fun p hp => ?_) (fun ref href => ?_) fun ref href => ?_
  · have hlt := h.copies.index_lt hp
    omega
  · exact (h.given ref href).isInner hinputs hneurons
  · obtain rfl := h.netEq
    exact isInner_of_names hinputs hneurons (haccepts.wellFormed.references ref href)

/-- A neuron that is taken in is one part more. -/
theorem Took.snoc (h : Took net available d taken parts slots) {d' : Draft}
    (hroom : ∀ n, d.net.neurons[i]? = some n →
      d.cell.weights.size + n.size + 2 < Word.signedLimit)
    (hadd : d.add i = (d', .ok ())) :
    ∃ parts' slots', Took net available d' (taken ++ [i]) parts' slots' := by
  obtain rfl := h.netEq
  obtain rfl := h.availableEq
  obtain ⟨n, p, new, haccepts, rfl, hcopies, hroutes, hholds, hnet, havailable, hnew⟩ :=
    h.holds.add_spec hroom hadd
  have hrefs : d.net.referencesOf p.index = n.references := by
    simp [Net.referencesOf, haccepts.neuron]
  refine ⟨parts ++ [p], slots ++ new, hnet, havailable, hholds, by simp [h.members],
    h.copies.snoc hcopies, fun k q m hq hm => ?_, ?_, fun ref href => ?_⟩
  · rcases getElem?_snoc hq with ⟨hq, htake⟩ | ⟨-, rfl, htake⟩
    · rw [htake]
      exact (h.routes k q m hq hm).imp fun _ _ hroute => hroute.mono new
    · obtain rfl := Option.some.inj (haccepts.neuron.symm.trans hm)
      rwa [htake]
  · rw [← firstUses_nil, Net.outsideReads_concat, firstUses_append, List.nil_append, firstUses_nil,
      ← h.uses, hrefs, ← h.members, hnew]
  · rcases List.mem_append.mp href with href | href
    · exact h.given ref href
    · rw [hnew, mem_firstUses, mem_outside] at href
      obtain ⟨⟨href, hlocal⟩, -⟩ := href
      have hname := (haccepts.references ref href).2
      unfold CanName at hname
      unfold Net.IsGiven
      split at hname
      next hin => rwa [if_pos hin]
      next hin =>
        rw [if_neg hin]
        -- A slot is opened only where no part has the neuron, which is then available.
        have hout : d.contains ref.toNat ≠ true := by
          rw [ne_eq, h.holds.contains_iff]
          rintro ⟨q, hq, hindex⟩
          have hpos : 0 ≤ ref := by simpa [Ref.isInput] using hin
          exact hlocal q.index (List.mem_map_of_mem hq) (by omega)
        have hread := hname.2
        rw [canRead, Bool.or_eq_true, or_iff_right hout, isAvailable_iff] at hread
        exact ⟨hname.1, hread⟩

/-- **One call more**: the neuron is taken in if it can be, and the draft stays as it is if not. -/
theorem Took.call (h : Took net available d taken parts slots)
    (hinputs : net.inputSize < Word.signedLimit) (hneurons : net.neuronCount < Word.signedLimit)
    (hroom : (call (d, taken) i).1.cell.weights.size < Word.signedLimit) :
    (∃ parts' slots', Took net available (call (d, taken) i).1 (call (d, taken) i).2 parts'
      slots') ∧
    (call (d, taken) i).2 = if net.Takes available taken i then taken ++ [i] else taken := by
  have hiff := h.takes_iff (i := i) hinputs hneurons
  by_cases haccepts : ∃ n, d.Accepts i n
  · rw [if_pos (hiff.mpr haccepts)]
    obtain ⟨n, haccepts⟩ := haccepts
    rw [call_fst, size_weights_add haccepts] at hroom
    obtain ⟨d', hadd⟩ := h.add_isOk hinputs hneurons haccepts hroom
    have hcall : Draft.call (d, taken) i = (d', taken ++ [i]) := by
      simp [Draft.call, hadd]
    rw [hcall]
    refine ⟨h.snoc (fun m hm => ?_) hadd, rfl⟩
    obtain rfl := Option.some.inj (haccepts.neuron.symm.trans hm)
    exact hroom
  · rw [if_neg (mt hiff.mp haccepts)]
    obtain ⟨e, hadd⟩ := add_eq_error (not_exists.mp haccepts)
    have hcall : Draft.call (d, taken) i = (d, taken) := by
      simp [Draft.call, hadd]
    rw [hcall]
    exact ⟨⟨parts, slots, h⟩, rfl⟩

/-! ## All calls -/

/-- One call after others. -/
theorem addAll_concat (d : Draft) (calls : List Nat) (i : Nat) :
    d.addAll (calls ++ [i]) = Draft.call (d.addAll calls) i := by
  rw [addAll, List.foldl_append]
  rfl

/-- Calls leave the net as it is. -/
theorem net_addAll (d : Draft) (calls : List Nat) : (d.addAll calls).1.net = d.net := by
  induction calls using List.reverseRecOn with
  | nil => rfl
  | append_singleton calls i ih => rw [addAll_concat, net_call, ih]

/-- Calls make the table of weights no smaller, and no larger than by the places of their neurons. -/
theorem size_weights_foldl (s : Draft × List Nat) (calls : List Nat) :
    s.1.cell.weights.size ≤ (calls.foldl Draft.call s).1.cell.weights.size ∧
      (calls.foldl Draft.call s).1.cell.weights.size ≤
        s.1.cell.weights.size + (calls.map s.1.net.placesOf).sum := by
  induction calls generalizing s with
  | nil => exact ⟨le_rfl, le_rfl⟩
  | cons i calls ih =>
    obtain ⟨hle, hge⟩ := size_weights_call s i
    obtain ⟨hle', hge'⟩ := ih (Draft.call s i)
    rw [net_call] at hge'
    rw [List.foldl_cons, List.map_cons, List.sum_cons]
    omega

/-- The table of weights has room for any calls whose neurons take few places. -/
theorem size_weights_addAll_le (net : Net) (available : Array Bool) (calls : List Nat) :
    ((start net available).addAll calls).1.cell.weights.size ≤ (calls.map net.placesOf).sum := by
  have hle := (size_weights_foldl (start net available, []) calls).2
  have hempty : (start net available).cell.weights.size = 0 := rfl
  rwa [hempty, Nat.zero_add] at hle

/-- More calls, after those that there were. -/
theorem Took.foldl (h : Took net available d taken parts slots)
    (hinputs : net.inputSize < Word.signedLimit) (hneurons : net.neuronCount < Word.signedLimit)
    (hroom : (calls.foldl Draft.call (d, taken)).1.cell.weights.size < Word.signedLimit) :
    (∃ parts' slots', Took net available (calls.foldl Draft.call (d, taken)).1
      (calls.foldl Draft.call (d, taken)).2 parts' slots') ∧
    (calls.foldl Draft.call (d, taken)).2 = net.takenOf available taken calls := by
  induction calls generalizing d taken parts slots with
  | nil => exact ⟨⟨parts, slots, h⟩, rfl⟩
  | cons i calls ih =>
    have hle := (size_weights_foldl (Draft.call (d, taken) i) calls).1
    obtain ⟨⟨parts', slots', hone⟩, htaken⟩ :=
      h.call hinputs hneurons (hle.trans_lt hroom)
    obtain ⟨hall, hrest⟩ := ih hone hroom
    refine ⟨hall, ?_⟩
    rw [List.foldl_cons, Net.takenOf, List.foldl_cons, ← htaken]
    exact hrest

/-- **After any calls** the draft holds the neurons that were taken in, and these are the neurons of
the calls that could take theirs in.

**Proof sketch.** Induction on the calls.  The table of weights never gets smaller, so that there is
room at every call if there is at the end; a call that is accepted then succeeds, and one that is
not leaves the draft as it is. -/
theorem took_addAll (hinputs : net.inputSize < Word.signedLimit)
    (hneurons : net.neuronCount < Word.signedLimit)
    (hroom : ((start net available).addAll calls).1.cell.weights.size < Word.signedLimit) :
    (∃ parts slots, Took net available ((start net available).addAll calls).1
      ((start net available).addAll calls).2 parts slots) ∧
    ((start net available).addAll calls).2 = net.takenOf available [] calls :=
  (took_start net available).foldl hinputs hneurons hroom

/-- The neurons that calls take in, if the neurons of all calls together take few places. -/
theorem snd_addAll (hinputs : net.inputSize < Word.signedLimit)
    (hneurons : net.neuronCount < Word.signedLimit)
    (hfew : (calls.map net.placesOf).sum < Word.signedLimit) :
    ((start net available).addAll calls).2 = net.takenOf available [] calls :=
  (took_addAll hinputs hneurons ((size_weights_addAll_le net available calls).trans_lt hfew)).2

end Draft

end NeuralPlan
