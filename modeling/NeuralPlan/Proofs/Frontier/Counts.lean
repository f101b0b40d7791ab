import NeuralPlan.Proofs.Frontier.Words

/-!
# The counts in words

A reference is satisfied by adding one to a whole word, whatever its tag.  This does not carry into
the tag, for the count of a word never exceeds the number of processed neurons that its neuron reads,
and a net is refused in which a neuron reads more than 32 bits can count.  A processed neuron counts
on as well: a relaxed collection takes neurons before all that they read is processed.

So a frontier in words and the frontier that is read from it stay together, whatever the history, and
a caller is told the same.

## Main definitions

* `PackedFrontier.Fits` — the counts are bounded by what is processed.
* `PackedFrontier.after`, `PackedFrontier.answers` — a history, and what a caller is told in it.

## Main results

* `PackedFrontier.Fits.count_add_lt` — there is room for the increments.
* `PackedFrontier.Fits.perform` — every operation keeps the bound and does what it does to states.
* `PackedFrontier.words_never_alias` — a run on words is a run on states.
-/

set_option relaxedAutoImplicit false
set_option autoImplicit false

namespace NeuralPlan.PackedFrontier

open StateWord Result

variable {net : Net} {p : PackedFrontier} {i : Nat}

/-! ## The bound -/

/-- The words count no more than what is processed, of a net whose neurons do not read too much. -/
structure Fits (net : Net) (p : PackedFrontier) : Prop where
  readable : net.Readable
  counted : Frontier.Counted net p.view
  readers : p.readers = (Frontier.initial net).readers
  /-- The number of the last collection has a tag. -/
  iteration : p.iteration ≤ Frontier.maxIteration
  /-- A processed neuron began to count anew, so that its count may be too small. -/
  counts : ∀ (i : Nat) w, p.words[i]? = some w → count w ≤ (net.inputsOf i).countP p.view.isDone

/-- The bound does not depend on the subset. -/
theorem Fits.withSubset (h : p.Fits net) (subset : List Nat) :
    Fits net { p with subset := subset } :=
  ⟨h.readable, ⟨h.counted.netEq, h.counted.size, h.counted.processed⟩, h.readers, h.iteration,
    h.counts⟩

/-- A neuron does not read more neurons than 32 bits can count. -/
theorem length_inputsOf_lt (h : net.Readable) (i : Nat) : (net.inputsOf i).length < 2 ^ 32 := by
  cases hn : net.neurons[i]? with
  | none => simp [Net.inputsOf, hn]
  | some n =>
    obtain ⟨hi, rfl⟩ := Array.getElem?_eq_some_iff.mp hn
    rw [Net.inputsOf_eq hn]
    exact Nat.lt_succ_of_le (h.few _ (Array.getElem_mem hi))

/-- A neuron is listed among the readers of another one as often as it reads it. -/
theorem Fits.count_readers (h : p.Fits net) (hi : i < net.neuronCount) (j : Nat) :
    (p.readers[i]?.getD []).count j = (net.inputsOf j).count i := by
  rw [h.readers]
  exact (Frontier.sound_initial h.readable).readers j i hi

/-- A reserved neuron is not processed. -/
theorem isDone_of_isReserved {f : Frontier} {s : Status} (hs : f.status[i]? = some s)
    (hreserved : s.isReserved = true) : f.isDone i = false := by
  unfold Frontier.isDone
  rw [hs]
  cases s with
  | waiting c => rfl
  | reserved k c => rfl
  | processed => cases hreserved

/-- **There is room for every increment**: with the references to a neuron that is processed now, a
word counts no more than what is processed then. -/
theorem Fits.count_add_le (h : p.Fits net) (hi : i < p.view.status.size)
    (hnew : p.view.isDone i = false) (rest : List Nat) {j : Nat} {w : UInt64}
    (hw : (p.words.set! i (encode .processed))[j]? = some w) :
    count w + (p.readers[i]?.getD []).count j ≤
      (net.inputsOf j).countP (p.view.processFirst i rest).isDone := by
  rw [Frontier.countP_isDone_processFirst hi hnew, h.count_readers (h.counted.size ▸ hi)]
  refine Nat.add_le_add_right ?_ _
  rw [Array.set!_eq_setIfInBounds, Array.getElem?_setIfInBounds] at hw
  split at hw
  · split at hw
    · obtain rfl := Option.some.inj hw
      rw [fields_encode_processed.2]
      exact Nat.zero_le _
    · cases hw
  · exact h.counts j w hw

/-- The count of a word has 32 bits, also after all that a processed neuron adds to it. -/
theorem Fits.count_add_lt (h : p.Fits net) (hi : i < p.view.status.size)
    (hnew : p.view.isDone i = false) {j : Nat} {w : UInt64}
    (hw : (p.words.set! i (encode .processed))[j]? = some w) :
    count w + (p.readers[i]?.getD []).count j < 2 ^ 32 :=
  (h.count_add_le hi hnew [] hw).trans_lt
    (List.countP_le_length.trans_lt (length_inputsOf_lt h.readable j))

/-- Increments change each word as often as its neuron is listed. -/
theorem getElem?_satisfyAll (words : Array UInt64) (l : List Nat) (j : Nat) :
    (satisfyAll words l)[j]? = words[j]?.map (satisfy^[l.count j]) :=
  getElem?_foldl_modify satisfy l words j

/-- **The increments are seen in the states**: each satisfies a reference. -/
theorem Fits.map_decode_satisfyAll (h : p.Fits net) (hi : i < p.view.status.size)
    (hnew : p.view.isDone i = false) (rest : List Nat) :
    (satisfyAll (p.words.set! i (encode .processed)) (p.readers[i]?.getD [])).map decode =
      (p.view.processFirst i rest).status := by
  have hset : p.view.status.set! i .processed =
      (p.words.set! i (encode .processed)).map decode := by
    have hprocessed : decode (encode .processed) = .processed := decode_encode trivial
    rw [Array.set!_eq_setIfInBounds, Array.set!_eq_setIfInBounds, Array.map_setIfInBounds,
      hprocessed]
    rfl
  have hreaders : p.view.readers = p.readers := rfl
  refine Array.ext_getElem? fun j => ?_
  rw [Array.getElem?_map, getElem?_satisfyAll, Frontier.processFirst, getElem?_foldl_modify, hset,
    Array.getElem?_map, hreaders]
  cases hw : (p.words.set! i (encode .processed))[j]? with
  | none => rfl
  | some w => exact congrArg some (decode_satisfy_iterate (h.count_add_lt hi hnew hw))

/-- A neuron is processed in words as in states. -/
theorem Fits.view_process (h : p.Fits net) (i : Nat) :
    (p.process i).map view = p.view.process i := by
  unfold process Frontier.process
  cases hs : p.view.statusAt i with
  | error e => rfl
  | ok s =>
    simp only [ok_bind]
    split
    next hreserved =>
      have hs := Frontier.statusAt_eq_ok_iff.mp hs
      refine congrArg
        (fun status => Except.ok { p.view with status, processed := p.processed + 1 }) ?_
      exact h.map_decode_satisfyAll (Array.getElem?_eq_some_iff.mp hs).1
        (isDone_of_isReserved hs hreserved) p.subset
    next => rfl

/-- A neuron is processed if it is reserved: then its word is set, and those of its readers are
incremented. -/
theorem process_cases (p : PackedFrontier) (i : Nat) :
    (∃ e, p.process i = .error e) ∨ i < p.view.status.size ∧ p.view.isDone i = false ∧
      p.process i = .ok { p with
        words := satisfyAll (p.words.set! i (encode .processed)) (p.readers[i]?.getD [])
        processed := p.processed + 1 } := by
  unfold process
  cases hs : p.view.statusAt i with
  | error e => exact .inl ⟨e, rfl⟩
  | ok s =>
    simp only [ok_bind]
    split
    next hreserved =>
      have hs := Frontier.statusAt_eq_ok_iff.mp hs
      exact .inr ⟨(Array.getElem?_eq_some_iff.mp hs).1, isDone_of_isReserved hs hreserved, rfl⟩
    next => exact .inl ⟨_, rfl⟩

/-- A confirmation as processed is the same in words and in states. -/
theorem Fits.view_confirmProcessed (h : p.Fits net) (i : Nat) :
    ((p.confirmProcessed i).1.view, (p.confirmProcessed i).2) = p.view.confirmProcessed i := by
  unfold confirmProcessed Frontier.confirmProcessed
  obtain ⟨e, hdrop, hdrop'⟩ | ⟨rest, -, hdrop, hdrop'⟩ := p.dropFirst_cases i
  · rw [hdrop, hdrop']
  · rw [hdrop, hdrop']
    have hview := (h.withSubset rest).view_process i
    change _ = Frontier.process { p.view with subset := rest } i at hview
    dsimp only
    rw [← hview]
    cases process { p with subset := rest } i <;> rfl

/-- A confirmation as processed drops a neuron from the subset at most, or sets the word of the neuron
and increments those of its readers. -/
theorem confirmProcessed_cases (p : PackedFrontier) (i : Nat) :
    (∃ e rest, p.confirmProcessed i = ({ p with subset := rest }, .error e)) ∨
      ∃ rest, i < p.view.status.size ∧ p.view.isDone i = false ∧
        p.confirmProcessed i = ({ p with
          words := satisfyAll (p.words.set! i (encode .processed)) (p.readers[i]?.getD [])
          processed := p.processed + 1
          subset := rest }, .ok ()) := by
  unfold confirmProcessed
  obtain ⟨e, hdrop, -⟩ | ⟨rest, -, hdrop, -⟩ := p.dropFirst_cases i
  · rw [hdrop]
    exact .inl ⟨e, p.subset, rfl⟩
  · rw [hdrop]
    obtain ⟨e, hprocess⟩ | ⟨hi, hnew, hprocess⟩ := process_cases { p with subset := rest } i
    · dsimp only
      rw [hprocess]
      exact .inl ⟨e, rest, rfl⟩
    · dsimp only
      rw [hprocess]
      exact .inr ⟨rest, hi, hnew, rfl⟩

/-- The bound is kept when a neuron is processed. -/
theorem Fits.confirmProcessed (h : p.Fits net) (i : Nat) : (p.confirmProcessed i).1.Fits net := by
  have hview := h.view_confirmProcessed i
  obtain ⟨e, rest, heq⟩ | ⟨rest, hi, hnew, heq⟩ := p.confirmProcessed_cases i
  · rw [heq]
    exact h.withSubset rest
  · rw [heq] at hview ⊢
    refine ⟨h.readable, h.counted.confirmProcessed hview.symm, h.readers, h.iteration,
      fun j w hw => ?_⟩
    obtain ⟨rest, s, -, -, -, hq⟩ := Frontier.confirmProcessed_eq_ok hview.symm
    rw [getElem?_satisfyAll, Option.map_eq_some_iff] at hw
    obtain ⟨w', hw', rfl⟩ := hw
    rw [(fields_satisfy_iterate (h.count_add_lt hi hnew hw')).2, hq]
    exact h.count_add_le hi hnew rest hw'

/-! ## Histories -/

/-- The frontier that an operation leaves, whether it succeeds or not. -/
def perform (p : PackedFrontier) : Frontier.Operation → PackedFrontier
  | .collect schedule request => (p.collectBy schedule request).1
  | .process i => (p.confirmProcessed i).1
  | .leave i => (p.confirmOmitted i).1
  | .reset => p.resetRemaining.1

/-- The frontier after a history of operations. -/
def after (p : PackedFrontier) (history : List Frontier.Operation) : PackedFrontier :=
  history.foldl perform p

/-- What a caller is told by an operation. -/
def answer (p : PackedFrontier) : Frontier.Operation → Result (List Nat)
  | .collect schedule request => (p.collectBy schedule request).2
  | .process i => (p.confirmProcessed i).2.map fun _ => []
  | .leave i => (p.confirmOmitted i).2.map fun _ => []
  | .reset => p.resetRemaining.2.map fun _ => []

/-- What a caller is told in a history of operations. -/
def answers (p : PackedFrontier) : List Frontier.Operation → List (Result (List Nat))
  | [] => []
  | op :: history => p.answer op :: (p.perform op).answers history

/-- An operation that processes nothing and changes no count keeps the bound. -/
theorem Fits.of_follows {α : Type} {after : PackedFrontier × Result α}
    {expected : Frontier × Result α} (h : p.Fits net) (hfollows : Follows p after expected)
    (hsame : Frontier.Same p.view expected.1) : after.1.Fits net := by
  obtain ⟨rfl, hcounts, hreaders, hiteration⟩ := hfollows
  refine ⟨h.readable, h.counted.of_same hsame, hreaders.trans h.readers, hiteration h.iteration,
    fun i w hw => ?_⟩
  have hcount : (p.words.map count)[i]? = some (count w) := by
    rw [← hcounts, Array.getElem?_map, hw, Option.map_some]
  rw [Array.getElem?_map, Option.map_eq_some_iff] at hcount
  obtain ⟨w', hw', heq⟩ := hcount
  have hdone : after.1.view.isDone = p.view.isDone := funext hsame.done
  rw [← heq, hdone]
  exact h.counts i w' hw'

/-- **Every operation is the same in words and in states**, and keeps the bound. -/
theorem Fits.perform (h : p.Fits net) (op : Frontier.Operation) :
    (p.perform op).Fits net ∧ (p.perform op).view = p.view.perform op ∧
      p.answer op = p.view.answer op := by
  cases op with
  | collect schedule request =>
    have hfollows := follows_collectBy h.iteration schedule request
    exact ⟨h.of_follows hfollows (Frontier.same_collectBy _ schedule request),
      congrArg Prod.fst hfollows.view, congrArg Prod.snd hfollows.view⟩
  | process i =>
    have hview := h.view_confirmProcessed i
    exact ⟨h.confirmProcessed i, congrArg Prod.fst hview,
      congrArg (Except.map fun _ => []) (congrArg Prod.snd hview)⟩
  | leave i =>
    have hfollows := follows_confirmOmitted p i
    exact ⟨h.of_follows hfollows (Frontier.same_confirmOmitted _ i),
      congrArg Prod.fst hfollows.view,
      congrArg (Except.map fun _ => []) (congrArg Prod.snd hfollows.view)⟩
  | reset =>
    have hfollows := follows_resetRemaining p
    have hsame := Frontier.same_releaseAll { p.view with subset := [] } p.subset
    exact ⟨h.of_follows hfollows ⟨hsame.net, hsame.size, hsame.processed, hsame.done⟩,
      congrArg Prod.fst hfollows.view,
      congrArg (Except.map fun _ => []) (congrArg Prod.snd hfollows.view)⟩

/-- **A history** on words is one on the states that they stand for. -/
theorem Fits.after (h : p.Fits net) (history : List Frontier.Operation) :
    (p.after history).Fits net ∧ (p.after history).view = p.view.after history ∧
      p.answers history = p.view.answers history := by
  induction history generalizing p with
  | nil => exact ⟨h, rfl, rfl⟩
  | cons op history ih =>
    obtain ⟨hfits, hview, hanswer⟩ := h.perform op
    obtain ⟨hfits', hview', hanswers⟩ := ih hfits
    refine ⟨hfits', hview'.trans ?_, ?_⟩
    · rw [hview]
      rfl
    · rw [answers, Frontier.answers, hanswer, hanswers, hview]

/-- The frontier in words in which every neuron waits. -/
def initial (net : Net) : PackedFrontier where
  net
  reads := (Frontier.initial net).reads
  readers := (Frontier.initial net).readers
  words := Array.replicate net.neuronCount (encode (.waiting 0))
  iteration := 0
  processed := 0
  subset := []

/-- The first frontier in words stands for the first frontier. -/
theorem view_initial (net : Net) : (initial net).view = Frontier.initial net := by
  have hdecode : decode (encode (.waiting 0)) = .waiting 0 :=
    decode_of_fields (fields_encode_waiting (by decide))
  unfold view initial
  rw [Array.map_replicate, hdecode]
  rfl

/-- A net has a frontier in words exactly if it has one. -/
theorem ofNet_eq_ok_iff : ofNet net = .ok p ↔ net.Readable ∧ p = initial net := by
  unfold ofNet
  simp only [bind_eq_ok_iff, Frontier.ofNet_eq_ok_iff, pure_eq_ok, Except.ok.injEq]
  constructor
  · rintro ⟨_, ⟨hreadable, rfl⟩, rfl⟩
    exact ⟨hreadable, rfl⟩
  · rintro ⟨hreadable, rfl⟩
    exact ⟨_, ⟨hreadable, rfl⟩, rfl⟩

/-- In the first frontier, no word counts anything. -/
theorem fits_initial (h : net.Readable) : (initial net).Fits net := by
  have hcounted := (Frontier.Reachable.start (Frontier.ofNet_eq_ok_iff.mpr ⟨h, rfl⟩)).counted
  refine ⟨h, view_initial net ▸ hcounted, rfl, Nat.zero_le _, fun i w hw => ?_⟩
  simp only [initial, Array.getElem?_replicate] at hw
  split at hw
  · obtain rfl := Option.some.inj hw
    rw [(fields_encode_waiting (c := 0) (by decide)).2]
    exact Nat.zero_le _
  · cases hw

/-- **Words never alias**, from a net that is accepted on.

1. A word stands for the state that it was made from, if the count has 32 bits and the number of the
   collection is one that is given.
2. The net is accepted exactly as with states.  Whatever the history, the words stand for the states
   after that history, and a caller is told the same.
3. When a neuron is processed, the word of each neuron that reads it is incremented once for every
   time that it reads it.  Each of these increments changes the count by one and does not carry into
   the tag, whether the reader waits, is reserved or is processed already.

**Proof sketch.** A word counts references to neurons that were not processed when its neuron began to
count, and are processed now, so at most as many as the neuron has; a net is refused where these are
too many for 32 bits.  So an increment adds to the count only, and satisfies a reference of the state
that the word stands for.  All other changes take a word apart and put it together again, with the
same count.  The second part is an induction on the history. -/
theorem words_never_alias {start : PackedFrontier} (hstart : ofNet net = .ok start) :
    (∀ s : Status, s.FitsWord → decode (encode s) = s) ∧
    (∃ f, Frontier.ofNet net = .ok f ∧ ∀ history,
      (start.after history).view = f.after history ∧
        start.answers history = f.answers history) ∧
    ∀ history i q, (start.after history).confirmProcessed i = (q, .ok ()) →
      let words := (start.after history).words.set! i (encode .processed)
      let readers := (start.after history).readers[i]?.getD []
      q.words = satisfyAll words readers ∧
      ∀ before j later, readers = before ++ j :: later →
        ∃ w, (satisfyAll words before)[j]? = some w ∧
          tag (satisfy w) = tag w ∧ count (satisfy w) = count w + 1 := by
  obtain ⟨hreadable, rfl⟩ := ofNet_eq_ok_iff.mp hstart
  have hfits := fits_initial hreadable
  have hnet : Frontier.ofNet net = .ok (initial net).view :=
    Frontier.ofNet_eq_ok_iff.mpr ⟨hreadable, view_initial net⟩
  refine ⟨fun s hs => decode_encode hs, ⟨_, hnet, fun history => (hfits.after history).2⟩,
    fun history i q hconfirm => ?_⟩
  have hfits := (hfits.after history).1
  generalize (initial net).after history = p at hconfirm hfits ⊢
  obtain ⟨e, rest, heq⟩ | ⟨rest, hi, hnew, heq⟩ := p.confirmProcessed_cases i
  · cases (Prod.mk.inj (heq.symm.trans hconfirm)).2
  obtain rfl := (Prod.mk.inj (heq.symm.trans hconfirm)).1
  refine ⟨rfl, fun before j later hreaders => ?_⟩
  have hj : j < (p.words.set! i (encode .processed)).size := by
    have hmem : 0 < (p.readers[i]?.getD []).count j := by
      rw [hreaders, List.count_append, List.count_cons_self]
      omega
    rw [hfits.count_readers (hfits.counted.size ▸ hi)] at hmem
    have hsize : p.words.size = net.neuronCount := by
      rw [← hfits.counted.size]
      exact Array.size_map.symm
    rw [Array.set!_eq_setIfInBounds, Array.size_setIfInBounds, hsize]
    exact Net.Reads.lt (List.count_pos_iff.mp hmem)
  have hw := Array.getElem?_eq_getElem hj
  have hroom := hfits.count_add_lt hi hnew hw
  rw [hreaders, List.count_append, List.count_cons_self] at hroom
  refine ⟨_, (getElem?_satisfyAll _ _ _).trans (congrArg (Option.map _) hw), ?_⟩
  refine fields_satisfy ?_
  rw [(fields_satisfy_iterate (by omega)).2]
  omega

/-- In the diamond net, the first neuron is given back once and then processed.  The word of each of
its two readers is incremented, and both still wait. -/
theorem words_never_alias_diamond :
    ∃ (history : List Frontier.Operation) (p q : PackedFrontier),
      p = (initial Net.diamond).after history ∧ p.confirmProcessed 0 = (q, .ok ()) ∧
      q.words.toList = [encode .processed, 1, 1, 0] ∧
      ∃ w, (satisfyAll (p.words.set! 0 (encode .processed)) [1])[2]? = some w ∧
        tag (satisfy w) = tag w ∧ count (satisfy w) = count w + 1 := by
  let history : List Frontier.Operation :=
    [.collect [] ⟨1, 130, false⟩, .leave 0, .process 1, .collect [] ⟨1, 130, true⟩]
  let p := (initial Net.diamond).after history
  have hstart : ofNet Net.diamond = .ok (initial Net.diamond) := by rfl
  have hconfirm : p.confirmProcessed 0 = ((p.confirmProcessed 0).1, .ok ()) :=
    Prod.ext rfl (by decide +kernel)
  obtain ⟨-, -, hincrements⟩ := words_never_alias hstart
  obtain ⟨-, hincrement⟩ := hincrements history 0 _ hconfirm
  exact ⟨history, p, _, rfl, hconfirm, by decide +kernel, hincrement [1] 2 [] (by decide +kernel)⟩

end NeuralPlan.PackedFrontier
