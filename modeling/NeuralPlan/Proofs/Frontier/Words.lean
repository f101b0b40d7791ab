import NeuralPlan.Frontier.Words
import NeuralPlan.Proofs.Frontier.Losses
import NeuralPlan.Proofs.Frontier.Renumbering

/-!
# What is done to words is done to states

A word has two fields, and every change but an increment takes it apart and puts it together again.  So
a scan that works on words does what a scan does that works on states, whatever the schedule, and so do
the operations that process nothing.  None of them changes a count.

## Main definitions

* `Status.FitsWord` — the state has a word.
* `PackedScan.Follows`, `PackedFrontier.Follows` — what is done to words is what is done to states, and
  the counts stay as they are.

## Main results

* `StateWord.decode_encode` — a word stands for the state that it was made from.
* `StateWord.fields_satisfy` — an increment changes the count only, while there is room.
* `PackedScan.follows_run` — a scan of words is a scan of states.
* `PackedFrontier.follows_collectBy` — so is a collection.
-/

set_option relaxedAutoImplicit false
set_option autoImplicit false

namespace NeuralPlan

/-- The state has a word: its count has 32 bits, and its collection has one of the numbers that
collections take. -/
def Status.FitsWord : Status → Prop
  | waiting satisfied => satisfied < 2 ^ 32
  | reserved iteration satisfied => iteration ≤ Frontier.maxIteration ∧ satisfied < 2 ^ 32
  | processed => True

namespace StateWord

/-! ## The fields of a word -/

/-- The count is the low half of a word. -/
theorem count_eq (w : UInt64) : count w = w.toNat % 2 ^ 32 := by
  rw [count, UInt64.toNat_and]
  exact Nat.and_two_pow_sub_one_eq_mod w.toNat 32

/-- The tag is the high half of a word. -/
theorem tag_eq (w : UInt64) : tag w = w.toNat / 2 ^ 32 := by
  rw [tag, UInt64.toNat_shiftRight]
  exact Nat.shiftRight_eq_div_pow w.toNat 32

/-- A count has 32 bits. -/
theorem count_lt (w : UInt64) : count w < 2 ^ 32 := by
  rw [count_eq]
  exact Nat.mod_lt _ (by decide)

/-- The word that is put together from a tag and a count has these two fields. -/
theorem fields_of_parts {t c : Nat} (ht : t < 2 ^ 32) (hc : c < 2 ^ 32) :
    tag (UInt64.ofNat t <<< 32 ||| UInt64.ofNat c) = t ∧
      count (UInt64.ofNat t <<< 32 ||| UInt64.ofNat c) = c := by
  have hword : (UInt64.ofNat t <<< 32 ||| UInt64.ofNat c).toNat = t * 2 ^ 32 + c := by
    have hshift : (32 : UInt64).toNat % 64 = 32 := rfl
    rw [UInt64.toNat_or, UInt64.toNat_shiftLeft, UInt64.toNat_ofNat', UInt64.toNat_ofNat', hshift,
      Nat.mod_eq_of_lt (a := t) (by omega), Nat.mod_eq_of_lt (a := c) (by omega),
      Nat.shiftLeft_eq, Nat.mod_eq_of_lt (by omega), ← Nat.shiftLeft_eq,
      ← Nat.shiftLeft_add_eq_or_of_lt hc, Nat.shiftLeft_eq]
  rw [tag_eq, count_eq, hword]
  omega

/-- The fields of the word of a neuron that waits. -/
theorem fields_encode_waiting {c : Nat} (hc : c < 2 ^ 32) :
    tag (encode (.waiting c)) = 0 ∧ count (encode (.waiting c)) = c :=
  fields_of_parts (t := 0) (by decide) hc

/-- The fields of the word of a reserved neuron. -/
theorem fields_encode_reserved {k c : Nat} (hk : k ≤ Frontier.maxIteration) (hc : c < 2 ^ 32) :
    tag (encode (.reserved k c)) = k + 2 ∧ count (encode (.reserved k c)) = c := by
  have hsum : UInt64.ofNat k + reservedTag = UInt64.ofNat (k + 2) := by
    rw [UInt64.ofNat_add]
    rfl
  rw [encode, hsum]
  unfold Frontier.maxIteration at hk
  exact fields_of_parts (by omega) hc

/-- The fields of the word of a processed neuron. -/
theorem fields_encode_processed : tag (encode .processed) = 1 ∧ count (encode .processed) = 0 := by
  rw [tag_eq, count_eq]
  decide

/-! ## Reading a word -/

/-- A word stands for what its fields stand for. -/
theorem decode_of_fields {w : UInt64} {t c : Nat} (h : tag w = t ∧ count w = c) :
    decode w = ofFields t c := by
  rw [decode, h.1, h.2]

/-- **A word stands for the state that it was made from.** -/
theorem decode_encode {s : Status} (h : s.FitsWord) : decode (encode s) = s := by
  cases s with
  | waiting c => exact decode_of_fields (fields_encode_waiting h)
  | reserved k c => exact decode_of_fields (fields_encode_reserved h.1 h.2)
  | processed => exact decode_of_fields fields_encode_processed

/-- A word that stands for a state with a count holds that count. -/
theorem count_of_decode {w : UInt64} {c : Nat} (h : (decode w).count? = some c) : count w = c := by
  unfold decode ofFields at h
  split at h
  · exact Option.some.inj h
  · cases h
  · exact Option.some.inj h

/-! ## Changes of a word -/

/-- A reserved word stands for the reserved state. -/
theorem decode_reserve {k : Nat} (hk : k ≤ Frontier.maxIteration) (w : UInt64) :
    decode (reserve k w) = (decode w).reserve k := by
  unfold reserve
  cases hw : decode w with
  | waiting c =>
    have hc : count w = c := count_of_decode (by rw [hw]; rfl)
    exact decode_encode ⟨hk, hc ▸ count_lt w⟩
  | reserved j c => exact hw
  | processed => exact hw

/-- A word that is given back stands for the state that is given back. -/
theorem decode_release (w : UInt64) : decode (release w) = (decode w).release := by
  unfold release
  cases hw : decode w with
  | waiting c => exact hw
  | reserved j c =>
    have hc : count w = c := count_of_decode (by rw [hw]; rfl)
    exact decode_encode (s := .waiting c) (hc ▸ count_lt w)
  | processed => exact hw

/-- A reservation keeps the count of a word. -/
theorem count_reserve {k : Nat} (hk : k ≤ Frontier.maxIteration) (w : UInt64) :
    count (reserve k w) = count w := by
  unfold reserve
  cases hw : decode w with
  | waiting c =>
    have hc : count w = c := count_of_decode (by rw [hw]; rfl)
    exact (fields_encode_reserved hk (hc ▸ count_lt w)).2.trans hc.symm
  | reserved j c => rfl
  | processed => rfl

/-- A release keeps the count of a word. -/
theorem count_release (w : UInt64) : count (release w) = count w := by
  unfold release
  cases hw : decode w with
  | waiting c => rfl
  | reserved j c =>
    have hc : count w = c := count_of_decode (by rw [hw]; rfl)
    exact (fields_encode_waiting (hc ▸ count_lt w)).2.trans hc.symm
  | processed => rfl

/-- **An increment changes the count only**, while the count has room for it. -/
theorem fields_satisfy {w : UInt64} (h : count w + 1 < 2 ^ 32) :
    tag (satisfy w) = tag w ∧ count (satisfy w) = count w + 1 := by
  have hw := w.toNat_lt
  have hsum : (satisfy w).toNat = (w.toNat + 1) % 2 ^ 64 := UInt64.toNat_add w 1
  rw [count_eq] at h
  rw [tag_eq, tag_eq, count_eq, count_eq, hsum]
  omega

/-- Several increments change the count only. -/
theorem fields_satisfy_iterate {w : UInt64} {m : Nat} (h : count w + m < 2 ^ 32) :
    tag (satisfy^[m] w) = tag w ∧ count (satisfy^[m] w) = count w + m := by
  induction m with
  | zero => exact ⟨rfl, rfl⟩
  | succ m ih =>
    obtain ⟨htag, hcount⟩ := ih (by omega)
    rw [Function.iterate_succ_apply']
    obtain ⟨htag', hcount'⟩ := fields_satisfy (w := satisfy^[m] w) (by omega)
    exact ⟨htag'.trans htag, by omega⟩

/-- Increments of a word satisfy references of its state. -/
theorem decode_satisfy_iterate {w : UInt64} {m : Nat} (h : count w + m < 2 ^ 32) :
    decode (satisfy^[m] w) = Status.satisfy^[m] (decode w) := by
  rw [Status.satisfy_iterate, decode_of_fields (fields_satisfy_iterate h), decode]
  match tag w with
  | 0 => rfl
  | 1 => rfl
  | k + 2 => rfl

end StateWord

/-! ## Scans -/

namespace PackedScan

open StateWord

/-- Workers have left `after`, from the words given: it stands for what they leave of states, and no
count has changed. -/
structure Follows {α : Type} (words : Array UInt64) (after : PackedScan × α)
    (expected : Scan × α) : Prop where
  view : (after.1.view, after.2) = expected
  counts : after.1.words.map count = words.map count

/-- Changing a word in a way that keeps its count changes no count. -/
theorem map_count_modify {change : UInt64 → UInt64} (h : ∀ w, count (change w) = count w)
    (words : Array UInt64) (i : Nat) : (words.modify i change).map count = words.map count := by
  refine Array.ext_getElem? fun j => ?_
  rw [Array.getElem?_map, Array.getElem?_map, Array.getElem?_modify]
  split
  · rw [Option.map_map]
    exact congrArg (words[j]?.map ·) (funext h)
  · rfl

variable (f : Frontier) (request : Request) {k : Nat} (hk : k ≤ Frontier.maxIteration)

include hk in
/-- A reservation is seen in the states. -/
theorem view_reserve (s : PackedScan) (i : Nat) : (s.reserve k i).view = s.view.reserve k i :=
  congrArg (Scan.mk · s.cutoff) (modify_map (fun w => (decode_reserve hk w).symm) s.words i).symm

/-- A neuron that is given back is seen in the states. -/
theorem view_reject (s : PackedScan) (i : Nat) : (s.reject i).view = s.view.reject i :=
  congrArg (Scan.mk · (s.reject i).cutoff)
    (modify_map (fun w => (decode_release w).symm) s.words i).symm

include hk

/-- One step of a worker. -/
theorem follows_step (s : PackedScan) (w : Worker) :
    Follows s.words (step f request k s w) (Worker.step f request k s.view w) := by
  have hreserve := view_reserve hk s
  have hreject : ∀ i, ((s.reserve k i).reject i).view = (s.view.reserve k i).reject i :=
    fun i => (view_reject _ i).trans (congrArg (Scan.reject · i) (hreserve i))
  have hreserved : ∀ i, (s.reserve k i).words.map count = s.words.map count :=
    map_count_modify (count_reserve hk) s.words
  have hrejected : ∀ i, ((s.reserve k i).reject i).words.map count = s.words.map count :=
    fun i => (map_count_modify count_release _ i).trans (hreserved i)
  obtain ⟨pending, held, bytes, failed⟩ := w
  cases pending with
  | nil => exact ⟨rfl, rfl⟩
  | cons i rest =>
    unfold step Worker.step
    dsimp only
    split
    · exact ⟨rfl, rfl⟩
    · split
      · cases f.costAt i with
        | error e => exact ⟨by rw [hreserve], hreserved i⟩
        | ok cost =>
          dsimp only
          split
          · exact ⟨by rw [hreserve], hreserved i⟩
          · exact ⟨by rw [hreject], hrejected i⟩
      · exact ⟨rfl, rfl⟩

/-- Several steps of a worker. -/
theorem follows_steps (n : Nat) (s : PackedScan) (w : Worker) :
    Follows s.words (steps f request k n s w) (Worker.steps f request k n s.view w) := by
  induction n generalizing s w with
  | zero => exact ⟨rfl, rfl⟩
  | succ n ih =>
    obtain ⟨hview, hcounts⟩ := follows_step f request hk s w
    obtain ⟨hview', hcounts'⟩ := ih (step f request k s w).1 (step f request k s w).2
    refine ⟨?_, hcounts'.trans hcounts⟩
    rw [Worker.steps, ← hview]
    exact hview'

/-- The steps of all workers until they have finished. -/
theorem follows_finish (s : PackedScan) (ws : List Worker) :
    Follows s.words (finish f request k s ws) (Scan.finish f request k s.view ws) := by
  induction ws generalizing s with
  | nil => exact ⟨rfl, rfl⟩
  | cons w ws ih =>
    obtain ⟨hview, hcounts⟩ :=
      follows_steps f request hk w.pending.length s w
    obtain ⟨hview', hcounts'⟩ := ih (steps f request k w.pending.length s w).1
    refine ⟨?_, hcounts'.trans hcounts⟩
    rw [Scan.finish, ← hview]
    dsimp only
    rw [← hview']
    rfl

/-- The step of the worker at a place. -/
theorem follows_stepAt (s : PackedScan) (ws : List Worker) (place : Nat) :
    Follows s.words (stepAt f request k s ws place) (Scan.stepAt f request k s.view ws place) := by
  induction ws generalizing place with
  | nil => exact ⟨rfl, rfl⟩
  | cons w ws ih =>
    cases place with
    | zero =>
      obtain ⟨hview, hcounts⟩ := follows_step f request hk s w
      refine ⟨?_, hcounts⟩
      rw [Scan.stepAt, ← hview]
      rfl
    | succ place =>
      obtain ⟨hview, hcounts⟩ := ih place
      refine ⟨?_, hcounts⟩
      rw [Scan.stepAt, ← hview]
      rfl

/-- **A scan of words is a scan of states**, whatever the schedule. -/
theorem follows_run (schedule : List Nat) (s : PackedScan) (ws : List Worker) :
    Follows s.words (run f request k schedule s ws) (Scan.run f request k schedule s.view ws) := by
  induction schedule generalizing s ws with
  | nil => exact follows_finish f request hk s ws
  | cons place schedule ih =>
    obtain ⟨hview, hcounts⟩ := follows_stepAt f request hk s ws place
    obtain ⟨hview', hcounts'⟩ :=
      ih (stepAt f request k s ws place).1 (stepAt f request k s ws place).2
    refine ⟨?_, hcounts'.trans hcounts⟩
    rw [Scan.run, ← hview]
    exact hview'

end PackedScan

/-! ## Frontiers -/

namespace PackedFrontier

open StateWord Result

/-- An operation has left `after`, from the frontier `p`: it stands for what the operation leaves of
states, the caller is told the same, and no count has changed. -/
structure Follows {α : Type} (p : PackedFrontier) (after : PackedFrontier × Result α)
    (expected : Frontier × Result α) : Prop where
  view : (after.1.view, after.2) = expected
  counts : after.1.words.map count = p.words.map count
  readers : after.1.readers = p.readers
  iteration : p.iteration ≤ Frontier.maxIteration → after.1.iteration ≤ Frontier.maxIteration

variable {net : Net} {p q : PackedFrontier} {i : Nat}

/-- A neuron that is given back is seen in the states. -/
theorem view_release (p : PackedFrontier) (i : Nat) :
    (p.release i).map view = p.view.release i := by
  unfold release Frontier.release
  cases p.view.statusAt i with
  | error e => rfl
  | ok s =>
    simp only [ok_bind]
    split
    · refine congrArg (fun status => Except.ok { p.view with status }) ?_
      exact (modify_map (fun w => (decode_release w).symm) p.words i).symm
    · rfl

/-- Only its word changes. -/
theorem release_eq_ok (h : p.release i = .ok q) :
    q = { p with words := p.words.modify i StateWord.release } := by
  obtain ⟨s, -, hs⟩ := bind_eq_ok_iff.mp h
  split at hs
  · exact (Except.ok.inj hs).symm
  · cases hs

/-- An operation that does nothing to the words, the readers and the numbers. -/
theorem Follows.refl {α : Type} (p : PackedFrontier) (subset : List Nat) (answer : Result α) :
    Follows p ({ p with subset }, answer) ({ p.view with subset }, answer) :=
  ⟨rfl, rfl, rfl, id⟩

/-- A step before others. -/
theorem Follows.trans {α : Type} {after : PackedFrontier × Result α}
    {expected : Frontier × Result α} (h : Follows q after expected)
    (hcounts : q.words.map count = p.words.map count) (hreaders : q.readers = p.readers)
    (hiteration : p.iteration ≤ Frontier.maxIteration → q.iteration ≤ Frontier.maxIteration) :
    Follows p after expected :=
  ⟨h.view, h.counts.trans hcounts, h.readers.trans hreaders, fun hp => h.iteration (hiteration hp)⟩

/-- Neurons that are given back one by one. -/
theorem follows_releaseAll (p : PackedFrontier) (l : List Nat) :
    Follows p (p.releaseAll l) (p.view.releaseAll l) := by
  induction l generalizing p with
  | nil => exact .refl p p.subset _
  | cons i l ih =>
    unfold releaseAll Frontier.releaseAll
    rw [← view_release]
    cases hrelease : p.release i with
    | error e => exact .refl p p.subset _
    | ok q =>
      have hq := release_eq_ok hrelease
      refine (ih q).trans ?_ (hq ▸ rfl) (hq ▸ id)
      rw [hq]
      exact PackedScan.map_count_modify count_release p.words i

/-- The rest of the subset is given back. -/
theorem follows_resetRemaining (p : PackedFrontier) :
    Follows p p.resetRemaining p.view.resetRemaining :=
  (follows_releaseAll { p with subset := [] } p.subset).trans rfl rfl id

/-- Only the subset loses a neuron. -/
theorem dropFirst_cases (p : PackedFrontier) (i : Nat) :
    (∃ e, p.dropFirst i = .error e ∧ p.view.dropFirst i = .error e) ∨
      ∃ rest, p.subset = i :: rest ∧ p.dropFirst i = .ok { p with subset := rest } ∧
        p.view.dropFirst i = .ok { p.view with subset := rest } := by
  unfold dropFirst
  cases hdrop : p.view.dropFirst i with
  | error e => exact .inl ⟨e, rfl, rfl⟩
  | ok g =>
    obtain ⟨-, rest, hsub, rfl⟩ := Frontier.dropFirst_eq_ok_iff.mp hdrop
    exact .inr ⟨rest, hsub, rfl, rfl⟩

/-- A neuron of the subset is given back. -/
theorem follows_confirmOmitted (p : PackedFrontier) (i : Nat) :
    Follows p (p.confirmOmitted i) (p.view.confirmOmitted i) := by
  unfold confirmOmitted Frontier.confirmOmitted
  obtain ⟨e, hdrop, hdrop'⟩ | ⟨rest, -, hdrop, hdrop'⟩ := p.dropFirst_cases i
  · rw [hdrop, hdrop']
    exact .refl p p.subset _
  · rw [hdrop, hdrop']
    have hview := view_release { p with subset := rest } i
    change _ = Frontier.release { p.view with subset := rest } i at hview
    dsimp only
    rw [← hview]
    cases hrelease : release { p with subset := rest } i with
    | error e => exact .refl p rest _
    | ok q =>
      obtain rfl := release_eq_ok hrelease
      exact ⟨rfl, PackedScan.map_count_modify count_release p.words i, rfl, id⟩

/-- The end of a collection. -/
theorem follows_conclude (p : PackedFrontier) (budget : Nat) (s : PackedScan) (ws : List Worker) :
    Follows { p with words := s.words } (p.conclude budget s ws)
      (p.view.conclude budget s.view ws) := by
  unfold conclude Frontier.conclude
  dsimp only
  generalize (if ws.any Worker.failed = true then ([], (Frontier.gather ws).map Prod.fst)
    else Frontier.split s.view budget 0 (Frontier.gather ws)) = parts
  have h := follows_releaseAll { p with words := s.words } parts.2
  have hview := h.view
  change _ = Frontier.releaseAll { p.view with status := s.view.status } parts.2 at hview
  rw [← hview]
  cases hrelease : releaseAll { p with words := s.words } parts.2 with
  | mk q answer =>
    rw [hrelease] at h
    have hq : ∀ (subset : List Nat) (answer : Result (List Nat)), Follows { p with words := s.words }
        ({ q with subset }, answer) ({ q.view with subset }, answer) :=
      fun subset answer => (Follows.refl q subset answer).trans h.counts h.readers h.iteration
    cases answer with
    | error e => exact hq q.subset _
    | ok u =>
      dsimp only
      split
      · exact hq q.subset _
      · have hcutoff : s.view.cutoff = s.cutoff := rfl
        rw [hcutoff]
        cases parts.1 with
        | cons first rest => exact hq (first :: rest) _
        | nil =>
          cases s.cutoff with
          | none => exact hq [] _
          | some cutoff =>
            dsimp only
            cases q.view.costAt cutoff <;> exact hq q.subset _

/-- The number of a collection has a tag. -/
theorem nextIteration_le {f : Frontier} (h : f.iteration ≤ Frontier.maxIteration) :
    f.nextIteration ≤ Frontier.maxIteration := by
  unfold Frontier.nextIteration
  split
  · decide
  · omega

/-- **A collection** is the same in words and in states. -/
theorem follows_collectBy (h : p.iteration ≤ Frontier.maxIteration) (schedule : List Nat)
    (request : Request) :
    Follows p (p.collectBy schedule request) (p.view.collectBy schedule request) := by
  unfold collectBy Frontier.collectBy
  change Follows _ _ (if p.subset.isEmpty = true then _ else _)
  split
  · dsimp only
    have hnext := nextIteration_le (f := p.view) h
    obtain ⟨hview, hcounts⟩ := PackedScan.follows_run p.view request hnext schedule
      ⟨p.words, none⟩
      ((List.range (p.view.workerCount request.threads)).map fun first =>
        Worker.start p.view.neuronCount first (p.view.workerCount request.threads))
    change _ = Scan.run _ _ _ _ ⟨p.view.status, none⟩ _ at hview
    rw [← hview]
    exact (follows_conclude { p with iteration := p.view.nextIteration } request.budget _ _).trans
      hcounts rfl fun _ => hnext
  · exact .refl p p.subset _

end PackedFrontier

end NeuralPlan
