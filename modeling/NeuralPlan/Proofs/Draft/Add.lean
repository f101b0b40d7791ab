import Std.Data.HashMap.Lemmas
import NeuralPlan.Proofs.Cell.Parts
import NeuralPlan.Proofs.Draft.Checks

/-!
# Taking neurons into a draft

A draft that holds parts and slots takes a neuron in by one part more and a slot for every reference
that has none yet.  The new part agrees with the neuron in the net: each of its sources stands for
the reference of the neuron at the same place.

## Main definitions

* `Numbers` — a map tells where the elements of a list stand.
* `outside`, `firstUses` — the references that need slots, and those that get new ones.
* `Draft.Holds` — the cell of the draft holds parts and slots, and its maps tell where they stand.
* `Cell.extend` — a cell with one part more.

## Main results

* `Draft.Holds.sourcesOf_spec` — the sources of references.
* `Draft.Holds.add_spec`, `Draft.Holds.add_isOk` — a neuron more.
-/

set_option relaxedAutoImplicit false
set_option autoImplicit false

namespace NeuralPlan

/-! ## Numberings -/

/-- The map tells at which place each element of the list stands. -/
def Numbers {α : Type} [BEq α] [Hashable α] (m : Std.HashMap α Nat) (xs : List α) : Prop :=
  ∀ (x : α) (k : Nat), m[x]? = some k ↔ xs[k]? = some x

section Numbers

variable {α : Type} [BEq α] [Hashable α] {m : Std.HashMap α Nat} {xs : List α} {x : α}

/-- The empty map numbers the empty list. -/
theorem numbers_empty [LawfulBEq α] [LawfulHashable α] :
    Numbers (∅ : Std.HashMap α Nat) [] := by simp [Numbers]

/-- An element is numbered exactly if it is in the list. -/
theorem Numbers.eq_none_iff (h : Numbers m xs) : m[x]? = none ↔ x ∉ xs := by
  rw [Option.eq_none_iff_forall_ne_some, List.mem_iff_getElem?]
  simp only [ne_eq, h x, not_exists]

/-- A numbered list holds no element twice. -/
theorem Numbers.nodup (h : Numbers m xs) : xs.Nodup := by
  rw [List.nodup_iff_injective_getElem]
  intro a b hab
  have ha := (h xs[a] a).mpr (List.getElem?_eq_getElem a.isLt)
  have hb := (h xs[b] b).mpr (List.getElem?_eq_getElem b.isLt)
  rw [show xs[a] = xs[b] from hab, hb] at ha
  exact Fin.ext (Option.some.inj ha).symm

/-- A new element gets the next number. -/
theorem Numbers.insert [LawfulBEq α] [LawfulHashable α] (h : Numbers m xs) (hx : x ∉ xs) :
    Numbers (m.insert x xs.length) (xs ++ [x]) := by
  intro y k
  rw [Std.HashMap.getElem?_insert]
  rcases lt_trichotomy k xs.length with hk | rfl | hk
  · rw [List.getElem?_append_left hk, ← h y k]
    split
    next hxy =>
      obtain rfl := eq_of_beq hxy
      simp [h.eq_none_iff.mpr hx, hk.ne']
    next hxy => rfl
  · have hlast : (xs ++ [x])[xs.length]? = some x := by simp
    rw [hlast]
    split
    next hxy => simp [eq_of_beq hxy]
    next hxy =>
      have hnone : m[y]? ≠ some xs.length := fun hm => by
        have hlt := (List.getElem?_eq_some_iff.mp ((h y _).mp hm)).1
        exact Nat.lt_irrefl _ hlt
      have hne : x ≠ y := fun e => hxy (e ▸ beq_self_eq_true x)
      simp [hnone, hne]
  · have hnone : (xs ++ [x])[k]? = none := by
      rw [List.getElem?_eq_none_iff, List.length_append, List.length_singleton]
      omega
    rw [hnone]
    split
    next hxy => simp [hk.ne]
    next hxy =>
      have : m[y]? ≠ some k := fun hm => by
        have hlt := (List.getElem?_eq_some_iff.mp ((h y k).mp hm)).1
        omega
      simp [this]

end Numbers

/-! ## First uses -/

/-- The references that name none of the neurons `before`: external inputs and other neurons. -/
def outside (before : List Nat) (refs : List Int) : List Int :=
  refs.filter fun ref => ∀ i ∈ before, (i : Int) ≠ ref

/-- The references that are not among the slots yet, each of them once, in order of first use. -/
def firstUses (slots refs : List Int) : List Int := (refs.removeAll slots).eraseDups

section FirstUses

variable {before : List Nat} {slots refs refs' : List Int} {ref : Int}

/-- A reference to none of the neurons before. -/
theorem mem_outside : ref ∈ outside before refs ↔ ref ∈ refs ∧ ∀ i ∈ before, (i : Int) ≠ ref := by
  simp [outside]

/-- More references, after those that there were. -/
theorem outside_append (before : List Nat) (refs refs' : List Int) :
    outside before (refs ++ refs') = outside before refs ++ outside before refs' :=
  List.filter_append ..

/-- Without slots, every reference is a first use where it is read first. -/
theorem firstUses_nil (refs : List Int) : firstUses [] refs = refs.eraseDups := by
  simp [firstUses]

/-- A reference that is not among the slots. -/
theorem mem_firstUses : ref ∈ firstUses slots refs ↔ ref ∈ refs ∧ ref ∉ slots := by
  simp [firstUses, List.removeAll]

/-- The first uses of more references come after those that there were. -/
theorem firstUses_append (slots refs refs' : List Int) :
    firstUses slots (refs ++ refs') =
      firstUses slots refs ++ firstUses (slots ++ firstUses slots refs) refs' := by
  have hrest : (refs'.removeAll slots).removeAll (refs.removeAll slots) =
      refs'.removeAll (slots ++ firstUses slots refs) := by
    simp only [List.removeAll, List.filter_filter]
    apply List.filter_congr
    intro ref _
    by_cases hslot : ref ∈ slots <;> simp [hslot, firstUses, List.removeAll]
  have hsplit : (refs ++ refs').removeAll slots =
      refs.removeAll slots ++ refs'.removeAll slots := List.filter_append ..
  simp only [firstUses] at hrest ⊢
  rw [hsplit, List.eraseDups_append, hrest]

/-- A reference is a first use if it names none of the neurons before and is not among the slots. -/
theorem firstUses_singleton (before : List Nat) (slots : List Int) (ref : Int) :
    firstUses slots (outside before [ref]) =
      if (∀ i ∈ before, (i : Int) ≠ ref) ∧ ref ∉ slots then [ref] else [] := by
  by_cases hout : ∀ i ∈ before, (i : Int) ≠ ref
  · have hall : outside before [ref] = [ref] := by simpa [outside] using hout
    rw [hall]
    by_cases hslot : ref ∈ slots
    · simp [firstUses, List.removeAll, hslot]
    · rw [if_pos ⟨hout, hslot⟩]
      simp [firstUses, List.removeAll, hslot, List.eraseDups_cons]
  · have hnone : outside before [ref] = [] := by simpa [outside] using hout
    rw [hnone, if_neg fun h => hout h.1]
    rfl

end FirstUses

namespace Draft

/-- The cell of the draft holds the parts and the slots, and its maps tell where they stand. -/
structure Holds (d : Draft) (parts : List Part) (slots : List Int) : Prop where
  cell : d.cell.Holds parts slots
  positions : Numbers d.positions (parts.map Part.index)
  slotOf : Numbers d.slotOf slots
  slotCount : d.slotOf.size = slots.length

variable {d d' : Draft} {parts : List Part} {slots : List Int}

/-- A draft without neurons holds no parts. -/
theorem holds_start (net : Net) (available : Array Bool) : (start net available).Holds [] [] :=
  ⟨Cell.holds_empty, numbers_empty, numbers_empty, rfl⟩

/-- A neuron is in the cell exactly if it is the neuron of a part. -/
theorem Holds.contains_iff (h : d.Holds parts slots) {i : Nat} :
    d.contains i = true ↔ ∃ p ∈ parts, p.index = i := by
  rw [contains, Std.HashMap.contains_eq_isSome_getElem?, ← Option.ne_none_iff_isSome, ne_eq,
    h.positions.eq_none_iff, not_not, List.mem_map]

/-! ## Sources -/

/-- The draft with other slots. -/
def withSlots (d : Draft) (slotRuns : Array Run) (slotOf : Std.HashMap Int Nat) : Draft :=
  { d with slotOf, cell := { d.cell with slots := slotRuns } }

/-- A source is found by a change of the slots alone, if by any. -/
theorem sourceOf_fst (d : Draft) (ref : Int) :
    ∃ runs slotOf, (d.sourceOf ref).1 = d.withSlots runs slotOf := by
  unfold sourceOf
  split
  · exact ⟨d.cell.slots, d.slotOf, rfl⟩
  · split
    · exact ⟨d.cell.slots, d.slotOf, rfl⟩
    · dsimp only
      split
      · exact ⟨d.cell.slots, _, rfl⟩
      · exact ⟨_, _, rfl⟩

/-- Sources are found by a change of the slots alone. -/
theorem sourcesOf_fst (d : Draft) (sources : Array Run) (refs : List Int) :
    ∃ runs slotOf, (sourcesOf d sources refs).1 = d.withSlots runs slotOf := by
  induction refs generalizing d sources with
  | nil => exact ⟨d.cell.slots, d.slotOf, rfl⟩
  | cons ref refs ih =>
    obtain ⟨runs, slotOf, hone⟩ := d.sourceOf_fst ref
    unfold sourcesOf
    split
    next d₁ e hsource =>
      rw [hsource] at hone
      exact ⟨runs, slotOf, hone⟩
    next d₁ s hsource =>
      rw [hsource] at hone
      obtain rfl : d₁ = d.withSlots runs slotOf := hone
      split
      · exact ⟨runs, slotOf, rfl⟩
      · obtain ⟨runs', slotOf', hrest⟩ := ih (d.withSlots runs slotOf) _
        exact ⟨runs', slotOf', hrest⟩

/-- The slots of the draft, and where they stand. -/
structure HoldsSlots (d : Draft) (slots : List Int) : Prop where
  runs : Runs.Encodes d.cell.slots slots
  slotOf : Numbers d.slotOf slots
  slotCount : d.slotOf.size = slots.length

variable {ref s : Int} {refs names : List Int}

/-- A slot that holds a reference is a source of it. -/
theorem resolves_input {slot : Nat} (h : slots[slot]? = some ref) :
    Resolves parts slots (Ref.input slot) ref := by
  have hnum : (-(Ref.input slot + 1)).toNat = slot := by unfold Ref.input; omega
  refine .inr ⟨?_, by rwa [hnum]⟩
  unfold Ref.input
  omega

/-- The local position of a neuron is a source of the references to it. -/
theorem resolves_of_position {position : Nat}
    (hpositions : Numbers d.positions (parts.map Part.index))
    (h : d.position? ref = some position) : Resolves parts slots position ref := by
  unfold position? at h
  cases hin : Ref.isInput ref with
  | true => simp [hin] at h
  | false =>
    simp only [hin, Bool.false_eq_true, if_false] at h
    have hpart := (hpositions _ _).mp h
    rw [List.getElem?_map, Option.map_eq_some_iff] at hpart
    obtain ⟨p, hp, hindex⟩ := hpart
    have hpos : 0 ≤ ref := by simpa [Ref.isInput] using hin
    exact .inl ⟨Int.natCast_nonneg _, p, hp, by omega⟩

/-- A reference has no local position only if no part has the neuron that it names. -/
theorem index_ne_of_position (hpositions : Numbers d.positions (parts.map Part.index))
    (h : d.position? ref = none) : ∀ p ∈ parts, (p.index : Int) ≠ ref := by
  rintro p hp rfl
  have hin : Ref.isInput (p.index : Int) = false := by simp [Ref.isInput]
  simp only [position?, hin, Bool.false_eq_true, if_false, Int.toNat_natCast] at h
  exact hpositions.eq_none_iff.mp h (List.mem_map_of_mem hp)

/-- A reference that has no slot gets the next one. -/
theorem HoldsSlots.addSlot (h : d.HoldsSlots slots) (hnone : d.slotOf[ref]? = none)
    (hroom : slots.length + 1 < Word.signedLimit) {runs : Array Run}
    (happend : Runs.append d.cell.slots ref = .ok runs) :
    (d.withSlots runs (d.slotOf.insert ref d.slotOf.size)).HoldsSlots (slots ++ [ref]) := by
  have hcontains : ref ∉ d.slotOf := by
    rw [← Std.HashMap.contains_iff_mem, Std.HashMap.contains_eq_isSome_getElem?, hnone]
    decide
  refine ⟨h.runs.append hroom happend, ?_, ?_⟩
  · exact h.slotCount ▸ h.slotOf.insert (h.slotOf.eq_none_iff.mp hnone)
  · change (d.slotOf.insert ref d.slotOf.size).size = _
    rw [Std.HashMap.size_insert, if_neg hcontains, h.slotCount, List.length_append]
    rfl

/-- **The source of a reference** is the local position of its neuron or the slot of the reference,
which may be a new one. -/
theorem HoldsSlots.sourceOf_spec (h : d.HoldsSlots slots)
    (hpositions : Numbers d.positions (parts.map Part.index))
    (hroom : slots.length + 1 < Word.signedLimit) (hsource : d.sourceOf ref = (d', .ok s)) :
    ∃ runs slotOf new, d' = d.withSlots runs slotOf ∧ d'.HoldsSlots (slots ++ new) ∧
      Routes parts (slots ++ new) s ref ∧ new.length ≤ 1 ∧
      new = firstUses slots (outside (parts.map Part.index) [ref]) := by
  unfold sourceOf at hsource
  split at hsource
  next position hposition =>
    obtain ⟨rfl, hs⟩ := Prod.mk.inj hsource
    obtain rfl := Except.ok.inj hs
    have hres : Resolves parts (slots ++ []) position ref :=
      resolves_of_position hpositions hposition
    refine ⟨d.cell.slots, d.slotOf, [], rfl, by rwa [List.append_nil],
      ⟨hres, fun hneg => absurd hneg (by omega)⟩, Nat.zero_le _, ?_⟩
    rw [firstUses_singleton, if_neg]
    rintro ⟨hlocal, -⟩
    obtain ⟨-, p, hp, hindex⟩ | ⟨hneg, -⟩ := hres
    · exact hlocal p.index (List.mem_map_of_mem (List.mem_of_getElem? hp)) hindex
    · omega
  next hposition =>
    have hlocal := index_ne_of_position hpositions hposition
    have hout : ∀ i ∈ parts.map Part.index, (i : Int) ≠ ref := List.forall_mem_map.mpr hlocal
    split at hsource
    next slot hslot =>
      obtain ⟨rfl, hs⟩ := Prod.mk.inj hsource
      obtain rfl := Except.ok.inj hs
      have hget := (h.slotOf ref slot).mp hslot
      refine ⟨d.cell.slots, d.slotOf, [], rfl, by rwa [List.append_nil],
        ⟨resolves_input (by rwa [List.append_nil]), fun _ => hlocal⟩, Nat.zero_le _, ?_⟩
      rw [firstUses_singleton, if_neg]
      exact fun hnew => hnew.2 (List.mem_of_getElem? hget)
    next hnone =>
      dsimp only at hsource
      split at hsource
      next e happend => simp at hsource
      next runs happend =>
        obtain ⟨rfl, hs⟩ := Prod.mk.inj hsource
        obtain rfl := Except.ok.inj hs
        refine ⟨runs, d.slotOf.insert ref d.slotOf.size, [ref], rfl,
          h.addSlot hnone hroom happend, ⟨resolves_input ?_, fun _ => hlocal⟩, le_rfl, ?_⟩
        · rw [h.slotCount]
          simp
        · rw [firstUses_singleton, if_pos ⟨hout, h.slotOf.eq_none_iff.mp hnone⟩]

/-- A reference has a source, unless the last slot holds one of the last words. -/
theorem HoldsSlots.sourceOf_isOk (h : d.HoldsSlots slots)
    (hinner : ∀ x ∈ slots, Word.IsInner x) (ref : Int) :
    ∃ d' s, d.sourceOf ref = (d', .ok s) := by
  unfold sourceOf
  split
  next position _ => exact ⟨_, _, rfl⟩
  next =>
    split
    next slot _ => exact ⟨_, _, rfl⟩
    next =>
      obtain ⟨runs, hruns⟩ := h.runs.append_isOk ref fun x hx =>
        hinner x (List.mem_of_getLast? hx)
      simp only [hruns]
      exact ⟨_, _, rfl⟩

/-- **The sources of references**, appended to sources that there are already. -/
theorem HoldsSlots.sourcesOf_spec (h : d.HoldsSlots slots)
    (hpositions : Numbers d.positions (parts.map Part.index)) {sources sources' : Array Run}
    (hsources : Runs.Encodes sources names)
    (hroom : slots.length + refs.length < Word.signedLimit)
    (hroom' : names.length + refs.length < Word.signedLimit)
    (hall : sourcesOf d sources refs = (d', .ok sources')) :
    ∃ runs slotOf new names', d' = d.withSlots runs slotOf ∧ d'.HoldsSlots (slots ++ new) ∧
      Runs.Encodes sources' (names ++ names') ∧
      List.Forall₂ (Routes parts (slots ++ new)) names' refs ∧
      new.length ≤ refs.length ∧
      new = firstUses slots (outside (parts.map Part.index) refs) := by
  induction refs generalizing d slots sources names with
  | nil =>
    obtain ⟨rfl, hs⟩ := Prod.mk.inj hall
    obtain rfl := Except.ok.inj hs
    exact ⟨d.cell.slots, d.slotOf, [], [], rfl, by rwa [List.append_nil],
      by rwa [List.append_nil], .nil, le_rfl, rfl⟩
  | cons ref refs ih =>
    rw [List.length_cons] at hroom hroom'
    unfold sourcesOf at hall
    split at hall
    next d₁ e hone => simp at hall
    next d₁ s hone =>
      split at hall
      next e happend => simp at hall
      next sources₁ happend =>
        obtain ⟨runs₁, slotOf₁, new₁, rfl, h₁, hres, hlen₁, hnew₁⟩ :=
          h.sourceOf_spec hpositions (by omega) hone
        have hsources₁ := hsources.append (by omega) happend
        have hlen : (slots ++ new₁).length = slots.length + new₁.length := List.length_append
        obtain ⟨runs, slotOf, new, names', rfl, h', hsources', hrest, hlen', hnew⟩ :=
          ih h₁ hpositions hsources₁ (by omega) (by simp; omega) hall
        refine ⟨runs, slotOf, new₁ ++ new, s :: names', rfl, by rwa [← List.append_assoc],
          by rwa [List.append_assoc, List.singleton_append] at hsources', .cons ?_ ?_, ?_, ?_⟩
        · rw [← List.append_assoc]
          exact hres.mono new
        · rwa [← List.append_assoc]
        · rw [List.length_append, List.length_cons]
          omega
        · rw [← List.singleton_append, outside_append, firstUses_append, ← hnew₁, ← hnew]

/-- The sources of few parts and slots are no last words. -/
theorem isInner_of_resolves (hres : Resolves parts slots s ref)
    (hparts : parts.length < Word.signedLimit) (hslots : slots.length < Word.signedLimit) :
    Word.IsInner s := by
  unfold Word.IsInner
  rcases hres with ⟨hs, p, hp, -⟩ | ⟨hs, hslot⟩
  · have hlt := (List.getElem?_eq_some_iff.mp hp).1
    omega
  · have hlt := (List.getElem?_eq_some_iff.mp hslot).1
    omega

/-- References that are no last words all have sources. -/
theorem HoldsSlots.sourcesOf_isOk (h : d.HoldsSlots slots)
    (hpositions : Numbers d.positions (parts.map Part.index)) {sources : Array Run}
    (hsources : Runs.Encodes sources names)
    (hroom : slots.length + refs.length < Word.signedLimit)
    (hroom' : names.length + refs.length < Word.signedLimit)
    (hparts : parts.length < Word.signedLimit) (hslots : ∀ x ∈ slots, Word.IsInner x)
    (hnames : ∀ x ∈ names, Word.IsInner x) (hrefs : ∀ x ∈ refs, Word.IsInner x) :
    ∃ d' sources', sourcesOf d sources refs = (d', .ok sources') := by
  induction refs generalizing d slots sources names with
  | nil => exact ⟨_, _, rfl⟩
  | cons ref refs ih =>
    rw [List.length_cons] at hroom hroom'
    obtain ⟨href, hrefs⟩ := List.forall_mem_cons.mp hrefs
    obtain ⟨d₁, s, hone⟩ := h.sourceOf_isOk hslots ref
    obtain ⟨runs₁, slotOf₁, new₁, rfl, h₁, hres, hlen₁, hnew₁⟩ :=
      h.sourceOf_spec hpositions (by omega) hone
    obtain ⟨sources₁, happend⟩ := hsources.append_isOk s fun x hx =>
      hnames x (List.mem_of_getLast? hx)
    have hsources₁ := hsources.append (by omega) happend
    have hlen : (slots ++ new₁).length = slots.length + new₁.length := List.length_append
    have hinner : Word.IsInner s := isInner_of_resolves hres.1 hparts (by omega)
    unfold sourcesOf
    simp only [hone, happend]
    refine ih h₁ hpositions hsources₁ (by omega) (by simp; omega) (fun x hx => ?_) (fun x hx => ?_)
      hrefs
    · rcases List.mem_append.mp hx with hx | hx
      · exact hslots x hx
      · rw [hnew₁, mem_firstUses, mem_outside, List.mem_singleton] at hx
        rwa [hx.1.1]
    · rcases List.mem_append.mp hx with hx | hx
      · exact hnames x hx
      · rwa [List.mem_singleton.mp hx]

/-! ## A neuron more -/

/-- The part of a neuron that is taken in. -/
def partOf (d : Draft) (i : Nat) (n : Neuron) (sources : Array Run) : Part where
  index := i
  activation := n.activation
  weights := d.net.weightsOf n
  bias := d.net.weights.getD n.bias 0.0
  memoryFilter := d.net.weights.getD n.memoryFilter 0.0
  first := d.cell.weights.size
  sourceRuns := sources.toList

/-- The draft with a neuron more. -/
def extended (d : Draft) (i : Nat) (p : Part) (outputs slotRuns : Array Run)
    (slotOf : Std.HashMap Int Nat) : Draft where
  net := d.net
  available := d.available
  cell := d.cell.extend p outputs slotRuns
  positions := d.positions.insert i d.cell.neuronCount
  slotOf := slotOf

/-- The neuron is placed as a part of its own. -/
theorem place_eq {i : Nat} {n : Neuron} {sources outputs slotRuns : Array Run}
    {slotOf : Std.HashMap Int Nat} (happend : Runs.append d.cell.outputs i = .ok outputs) :
    ((d.copyWeights (examined d.net n)).withSlots slotRuns slotOf).place i n sources =
      (d.extended i (d.partOf i n sources) outputs slotRuns slotOf, .ok ()) := by
  have hcount : (d.net.weightsOf n).toArray.size = (d.net.weightsOf n).length := by simp
  simp only [place, withSlots, copyWeights, happend, extended, Cell.extend, partOf, examined,
    Part.table, Part.weightRuns, hcount]
  by_cases hnone : (d.net.weightsOf n).length = 0
  · simp [hnone, Cell.neuronCount]
  · simp [hnone, Cell.neuronCount]

/-- A cell whose size with the cost of a neuron fits a word has room for the neuron. -/
theorem room_of_sizeBytes {i : Nat} {n : Neuron} (hn : d.net.neurons[i]? = some n)
    (h : d.cell.sizeBytes + d.net.bytesOf i < Word.limit) :
    n.bytes < Word.limit ∧ d.cell.weights.size + n.size + 2 < Word.signedLimit := by
  have hsize : d.cell.weights.size * 8 + 240 ≤ d.cell.sizeBytes := by
    simp only [Cell.sizeBytes, Cell.emptyBytes, wordBytes]
    omega
  have hbytes : d.net.bytesOf i = 40 * n.size + 81 := by
    rw [Net.bytesOf_eq hn, Neuron.bytes, Neuron.costOf_eq]
  have hlimit : Word.limit = 2 * Word.signedLimit := by decide
  have hsigned : 240 < Word.signedLimit := by decide
  rw [← Net.bytesOf_eq hn]
  omega

/-- The part that is made of an accepted neuron agrees with it. -/
theorem Accepts.copies {i : Nat} {n : Neuron} (h : d.Accepts i n) {before : List Part}
    {sources : Array Run}
    (hsources : List.Forall₂ (Resolves before slots) (Runs.indices sources.toList) n.references) :
    (d.partOf i n sources).Copies d.net before slots n := by
  have hget : ∀ j < d.net.weights.size,
      d.net.weights[j]? = some (d.net.weights.getD j 0.0) := by
    intro j hj
    simp [hj, Array.getD_eq_getD_getElem?]
  refine ⟨h.neuron, rfl, ?_, hget _ h.bias, hget _ h.memoryFilter, hsources⟩
  simp only [partOf, Net.weightsOf, List.map_map]
  exact List.map_congr_left fun pos hpos => hget _ (h.weights pos hpos).2

/-- The slots of a draft. -/
theorem Holds.holdsSlots (h : d.Holds parts slots) (n : Examined) :
    (d.copyWeights n).HoldsSlots slots :=
  ⟨h.cell.slotRuns, h.slotOf, h.slotCount⟩

/-- An accepted neuron gets its sources, and then its place. -/
theorem add_eq {i : Nat} {n : Neuron} (haccepts : d.Accepts i n) :
    d.add i =
      match (d.copyWeights (examined d.net n)).sourcesOf #[] n.references with
      | (d, .error e) => (d, .error e)
      | (d, .ok sources) => d.place i n sources := by
  unfold add
  rw [examine_eq_ok_iff.mpr ⟨n, haccepts, rfl⟩]
  rfl

/-- Only accepted neurons are taken in. -/
theorem accepts_of_add {i : Nat} (hadd : d.add i = (d', .ok ())) : ∃ n, d.Accepts i n := by
  unfold add at hadd
  split at hadd
  next e hexamine => simp at hadd
  next e hexamine =>
    obtain ⟨n, haccepts, -⟩ := examine_eq_ok_iff.mp hexamine
    exact ⟨n, haccepts⟩

/-- **A neuron that is taken in** is accepted, has sources, and gets its place. -/
theorem add_eq_ok {i : Nat} (hadd : d.add i = (d', .ok ())) :
    ∃ n sources outputs slotRuns slotOf, d.Accepts i n ∧
      (d.copyWeights (examined d.net n)).sourcesOf #[] n.references =
        ((d.copyWeights (examined d.net n)).withSlots slotRuns slotOf, .ok sources) ∧
      Runs.append d.cell.outputs i = .ok outputs ∧
      d' = d.extended i (d.partOf i n sources) outputs slotRuns slotOf := by
  obtain ⟨n, haccepts⟩ := accepts_of_add hadd
  obtain ⟨slotRuns, slotOf, hslots⟩ :=
    (d.copyWeights (examined d.net n)).sourcesOf_fst #[] n.references
  rw [add_eq haccepts] at hadd
  split at hadd
  next d₁ e hall => simp at hadd
  next d₁ sources hall =>
    rw [hall] at hslots
    obtain rfl : d₁ = _ := hslots
    have hplace : ∃ outputs, Runs.append d.cell.outputs i = .ok outputs := by
      unfold place withSlots copyWeights at hadd
      dsimp only at hadd
      split at hadd
      next e happend => simp at hadd
      next outputs happend => exact ⟨outputs, happend⟩
    obtain ⟨outputs, happend⟩ := hplace
    rw [place_eq happend] at hadd
    exact ⟨n, sources, outputs, slotRuns, slotOf, haccepts, hall, happend,
      (Prod.mk.inj hadd).1.symm⟩

/-- A neuron is taken in from the same net. -/
theorem net_add (d : Draft) (i : Nat) : (d.add i).1.net = d.net := by
  unfold add
  split
  next e hexamine => rfl
  next n hexamine =>
    obtain ⟨runs, slotOf, hall⟩ := (d.copyWeights n).sourcesOf_fst #[] n.neuron.references
    have hnet := congrArg Draft.net hall
    split
    next d₁ e hsources => rwa [hsources] at hnet
    next d₁ sources hsources =>
      rw [hsources] at hnet
      unfold place
      dsimp only
      split
      · exact hnet
      · exact hnet

/-- **A neuron more** is a part more, which agrees with the neuron, and a slot for every reference
that has none yet.

**Proof sketch.** The checks tell what the neuron is; its weights are copied to the end of the
table; its references get their sources one by one, each from what the draft holds by then. -/
theorem Holds.add_spec (h : d.Holds parts slots) {i : Nat}
    (hroom : ∀ n, d.net.neurons[i]? = some n →
      d.cell.weights.size + n.size + 2 < Word.signedLimit)
    (hadd : d.add i = (d', .ok ())) :
    ∃ n p new, d.Accepts i n ∧ p.index = i ∧ p.Copies d.net parts (slots ++ new) n ∧
      List.Forall₂ (Routes parts (slots ++ new)) p.sources n.references ∧
      d'.Holds (parts ++ [p]) (slots ++ new) ∧ d'.net = d.net ∧ d'.available = d.available ∧
      new = firstUses slots (outside (parts.map Part.index) n.references) := by
  obtain ⟨n, sources, outputs, slotRuns, slotOf, haccepts, hall, happend, rfl⟩ := add_eq_ok hadd
  have hsize := hroom n haccepts.neuron
  have hrefs := Neuron.length_references (n := n) (by omega)
  have hslots := h.cell.slots_le
  have hparts := h.cell.size_weights
  obtain ⟨-, -, new, names, -, hnewSlots, hsources, hroutes, hlen, hnew⟩ :=
    (h.holdsSlots _).sourcesOf_spec h.positions Runs.encodes_empty (by omega)
      (by rw [List.length_nil]; omega) hall
  rw [List.nil_append] at hsources
  have hindices : Runs.indices sources.toList = names := hsources.1
  have hlenNames : names.length = n.size := hroutes.length_eq.trans hrefs
  have hweights : (d.partOf i n sources).weights.length = n.size := haccepts.count.2
  have houtputs : Runs.Encodes outputs
      ((parts ++ [d.partOf i n sources]).map fun p => (p.index : Int)) := by
    rw [List.map_append]
    exact h.cell.outputs.append (by rw [List.length_map]; omega) happend
  have hfresh : i ∉ parts.map Part.index := by
    intro hi
    have hcontains := h.contains_iff.mpr (List.mem_map.mp hi)
    rw [haccepts.fresh] at hcontains
    exact absurd hcontains (by decide)
  have hresolves : List.Forall₂ (Resolves parts (slots ++ new)) names n.references :=
    hroutes.imp fun _ _ => And.left
  refine ⟨n, d.partOf i n sources, new, haccepts, rfl, haccepts.copies (by rwa [hindices]),
    by rwa [← hindices] at hroutes, ⟨?_, ?_, hnewSlots.slotOf, hnewSlots.slotCount⟩, rfl, rfl,
    hnew⟩
  · refine h.cell.extend rfl houtputs hnewSlots.runs ⟨⟨rfl, ?_⟩, ?_⟩ (by omega) (by omega)
    · simpa [partOf] using hsources.2
    · rw [hweights, ← hlenNames, ← hindices]
      rfl
  · have hinsert := h.positions.insert hfresh
    rw [List.length_map] at hinsert
    rw [List.map_append]
    change Numbers (d.positions.insert i d.cell.neuronCount) _
    rw [h.cell.neuronCount_eq]
    exact hinsert

/-- **An accepted neuron is taken in**, if there is room for it and none of the references involved
is a last word. -/
theorem Holds.add_isOk (h : d.Holds parts slots) {i : Nat} {n : Neuron} (haccepts : d.Accepts i n)
    (hroom : d.cell.weights.size + n.size + 2 < Word.signedLimit)
    (hparts : ∀ p ∈ parts, p.index + 1 < Word.signedLimit)
    (hslots : ∀ x ∈ slots, Word.IsInner x) (hrefs : ∀ x ∈ n.references, Word.IsInner x) :
    ∃ d', d.add i = (d', .ok ()) := by
  have hcount := Neuron.length_references (n := n) (by omega)
  have hslotCount := h.cell.slots_le
  have hpartCount := h.cell.size_weights
  have hsome : ∃ d₁ sources, (d.copyWeights (examined d.net n)).sourcesOf #[] n.references =
      (d₁, .ok sources) :=
    (h.holdsSlots _).sourcesOf_isOk h.positions Runs.encodes_empty (by omega)
      (by rw [List.length_nil]; omega) (by omega) hslots (by simp) hrefs
  obtain ⟨d₁, sources, hall⟩ := hsome
  obtain ⟨slotRuns, slotOf, new, names, rfl, -, -, -, -, -⟩ :=
    (h.holdsSlots _).sourcesOf_spec h.positions Runs.encodes_empty (by omega)
      (by rw [List.length_nil]; omega) hall
  obtain ⟨outputs, happend⟩ := h.cell.outputs.append_isOk i fun x hx => by
    obtain ⟨p, hp, rfl⟩ := List.mem_map.mp (List.mem_of_getLast? hx)
    have hlt := hparts p hp
    unfold Word.IsInner
    omega
  rw [add_eq haccepts, hall]
  exact ⟨_, place_eq happend⟩

end Draft

end NeuralPlan
