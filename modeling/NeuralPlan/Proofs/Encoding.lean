import Mathlib.Data.List.Chain
import NeuralPlan.Proofs.Walks

/-!
# Runs as a code for lists of references

Appending the references of a list one by one makes the shortest sequence of runs whose sizes count
the references of the list, and the only one of this length: no run continues the one before it.  A
walk over these runs comes to the list, as long as none of them is too long to be walked.

## Main definitions

* `Runs.spans` — the references that the sizes of runs count.
* `Runs.encode`, `Runs.decode` — from a list of references to runs, and back by a walk.
* `Runs.Tight` — no run continues the one before it.

## Main results

* `Runs.Tight.eq_or_length_lt` — tight runs are the shortest.
* `Runs.spans_encode`, `Runs.encode_isOk`, `Runs.encode_spans` — appending references one by one.
* `Runs.encode_canonical` — the code as a whole.
* `Runs.encode_beyond_words` — lists that are too long for it.
-/

set_option relaxedAutoImplicit false
set_option autoImplicit false

namespace NeuralPlan

open Word

/-! ## Parts of runs -/

namespace Run

/-- A run walks over references of one kind. -/
theorem sign_indices (r : Run) : (∀ i ∈ r.indices, i < 0) ∨ ∀ i ∈ r.indices, 0 ≤ i := by
  rcases lt_or_ge r.start 0 with hs | hs
  · refine .inl fun i hi => ?_
    obtain ⟨k, -, rfl⟩ := List.mem_map.mp hi
    rw [step_of_neg hs]
    omega
  · refine .inr fun i hi => ?_
    obtain ⟨k, -, rfl⟩ := List.mem_map.mp hi
    rw [step_of_nonneg hs]
    omega

/-- The run without its first `m` references. -/
def drop (r : Run) (m : Nat) : Run := ⟨r.start + r.step * m, r.size - m⟩

variable {r : Run} {m : Nat}

/-- Runs with the same start go the same way. -/
theorem step_congr {s : Run} (h : r.start = s.start) : r.step = s.step := by
  unfold step isInput
  rw [h]

/-- What is left of a run goes the same way. -/
theorem step_drop (r : Run) (m : Nat) : (r.drop m).step = r.step := by
  rcases lt_or_ge r.start 0 with hs | hs
  · have hdrop : (r.drop m).start < 0 := by
      simp only [drop, step_of_neg hs]
      omega
    rw [step_of_neg hs, step_of_neg hdrop]
  · have hdrop : 0 ≤ (r.drop m).start := by
      simp only [drop, step_of_nonneg hs]
      omega
    rw [step_of_nonneg hs, step_of_nonneg hdrop]

/-- What is left of a run is continued by the same reference. -/
theorem after_drop (hm : m ≤ r.size) : (r.drop m).after = r.after := by
  rw [after, step_drop, drop, after, Nat.cast_sub hm]
  ring

/-- A run is its first references and what is left. -/
theorem span_eq_append_drop (hm : m ≤ r.size) :
    r.span = (⟨r.start, m⟩ : Run).span ++ (r.drop m).span := by
  obtain ⟨n, hn⟩ : ∃ n, r.size = m + n := ⟨r.size - m, by omega⟩
  have hsize : (r.drop m).size = n := by simp [drop, hn]
  unfold span
  rw [step_drop, hsize, hn, List.range_add, List.map_append, List.map_map]
  congr 1
  refine List.map_congr_left fun k _ => ?_
  simp only [drop, Function.comp_apply, Nat.cast_add]
  ring

/-- A run that is not empty begins with its start. -/
theorem head?_span (hpos : 1 ≤ r.size) : r.span.head? = some r.start := by
  obtain ⟨n, hn⟩ : ∃ n, r.size = n + 1 := ⟨r.size - 1, by omega⟩
  simp [span, hn, List.range_succ_eq_map]

/-- A run counts as many references as its size says. -/
@[simp] theorem length_span (r : Run) : r.span.length = r.size := by simp [span]

/-- The references of a run of neurons that ends below the greatest one have neighbours. -/
theorem isInner_of_mem_span (hstart : 0 ≤ r.start) (hend : r.start + r.size < signedLimit)
    {i : Int} (hi : i ∈ r.span) : IsInner i := by
  obtain ⟨k, hk, rfl⟩ := List.mem_map.mp hi
  have hlt := List.mem_range.mp hk
  unfold IsInner
  rw [step_of_nonneg hstart]
  omega

end Run

namespace Runs

/-! ## Tight runs -/

/-- The references that the sizes of the runs count, one run after another. -/
def spans (rs : List Run) : List Int := rs.flatMap Run.span

/-- The references of the first run and of the others. -/
@[simp] theorem spans_cons (r : Run) (rs : List Run) : spans (r :: rs) = r.span ++ spans rs := rfl

/-- The references of runs and of others after them. -/
@[simp] theorem spans_append (rs ss : List Run) : spans (rs ++ ss) = spans rs ++ spans ss := by
  simp [spans]

/-- As many references are counted as the sizes say. -/
theorem length_spans (rs : List Run) : (spans rs).length = (rs.map Run.size).sum := by
  simp [spans, List.length_flatMap]

/-- A walk over runs that are not too long comes to all references that they count. -/
theorem indices_eq_spans {rs : List Run} (h : ∀ r ∈ rs, r.size < signedLimit) :
    indices rs = spans rs :=
  List.flatMap_congr fun r hr => Run.indices_eq_span (h r hr)

/-- No run continues the one before it. -/
def Tight (rs : List Run) : Prop := rs.IsChain fun r s => s.start ≠ r.after

/-- Runs that are not empty begin with the start of the first. -/
theorem head?_spans_cons {r : Run} (rs : List Run) (h : 1 ≤ r.size) :
    (spans (r :: rs)).head? = some r.start := by
  rw [spans_cons, List.head?_append, Run.head?_span h]
  rfl

/-- **Tight runs are the shortest**, and no other runs for the same list are as short.

**Proof sketch.** Induction on the other runs.  The first runs of both begin alike.  If the other
one is shorter, then what is left of the tight one is still tight; if it is longer, then the second
tight run would continue the first. -/
theorem Tight.eq_or_length_lt {rs ys : List Run} (htight : Tight rs) (hrs : ∀ r ∈ rs, 1 ≤ r.size)
    (hys : ∀ r ∈ ys, 1 ≤ r.size) (hsame : spans ys = spans rs) :
    ys = rs ∨ rs.length < ys.length := by
  induction ys generalizing rs with
  | nil =>
    cases rs with
    | nil => exact .inl rfl
    | cons r rs =>
      have hhead := head?_spans_cons rs (hrs r List.mem_cons_self)
      rw [← hsame] at hhead
      cases hhead
  | cons y ys ih =>
    obtain ⟨hy, hys'⟩ := List.forall_mem_cons.mp hys
    have hhead := head?_spans_cons ys hy
    cases rs with
    | nil =>
      rw [hsame] at hhead
      cases hhead
    | cons r rs =>
      obtain ⟨hr, hrs'⟩ := List.forall_mem_cons.mp hrs
      obtain ⟨hnext, htight'⟩ := List.isChain_cons.mp htight
      have hstart : y.start = r.start := by
        rw [hsame, head?_spans_cons rs hr] at hhead
        exact (Option.some.inj hhead).symm
      rw [spans_cons, spans_cons] at hsame
      rcases lt_trichotomy y.size r.size with hlt | heq | hgt
      · -- the tight run goes on, with what is left of it
        rw [Run.span_eq_append_drop hlt.le, ← hstart, List.append_assoc] at hsame
        have hrest : spans ys = spans (r.drop y.size :: rs) := List.append_cancel_left hsame
        have hpos : ∀ r' ∈ r.drop y.size :: rs, 1 ≤ r'.size :=
          List.forall_mem_cons.mpr ⟨by simp only [Run.drop]; omega, hrs'⟩
        have htight₁ : Tight (r.drop y.size :: rs) :=
          List.isChain_cons.mpr ⟨by rwa [Run.after_drop hlt.le], htight'⟩
        rcases ih htight₁ hpos hys' hrest with rfl | hlen
        · exact .inr (by simp)
        · exact .inr (by simp only [List.length_cons] at hlen ⊢; omega)
      · obtain rfl : y = r := by
          cases y
          cases r
          simp_all
        rcases ih htight' hrs' hys' (List.append_cancel_left hsame) with rfl | hlen
        · exact .inl rfl
        · exact .inr (Nat.succ_lt_succ hlen)
      · -- the second tight run would begin where the other run goes on
        rw [Run.span_eq_append_drop hgt.le, hstart, List.append_assoc] at hsame
        have hrest : (y.drop r.size).span ++ spans ys = spans rs := List.append_cancel_left hsame
        have hdrop : (y.drop r.size).start = r.after := by
          rw [Run.after, ← Run.step_congr hstart, ← hstart]
          rfl
        have hhead' : (spans rs).head? = some r.after := by
          rw [← hrest, List.head?_append,
            Run.head?_span (by simp only [Run.drop]; omega), hdrop]
          rfl
        cases rs with
        | nil => cases hhead'
        | cons s rs =>
          rw [head?_spans_cons rs (hrs' s List.mem_cons_self)] at hhead'
          exact absurd (Option.some.inj hhead') (hnext s rfl)

/-! ## Encoding and decoding -/

/-- The runs for a list of references, which are appended one by one. -/
def encode (xs : List Int) : Result (Array Run) := xs.foldlM append #[]

/-- The references that a walk over the runs comes to. -/
def decode (rs : List Run) : Result (Array Int) :=
  foldlM (fun refs ref => .ok (refs.push ref)) #[] rs

/-- One reference more is encoded after the others. -/
theorem encode_snoc_eq_ok_iff {xs : List Int} {ref : Int} {rs : Array Run} :
    encode (xs ++ [ref]) = .ok rs ↔ ∃ ss, encode xs = .ok ss ∧ append ss ref = .ok rs := by
  rw [encode, List.foldlM_append, Result.bind_eq_ok_iff]
  simp only [List.foldlM_cons, List.foldlM_nil, bind_pure]
  rfl

/-- A walk over runs whose references fit comes to all of them. -/
theorem decode_eq_ok_iff {rs : List Run} {refs : Array Int} :
    decode rs = .ok refs ↔ (∀ i ∈ indices rs, IsSigned i) ∧ refs.toList = indices rs := by
  have hpush : ∀ (xs : List Int) (refs : Array Int),
      xs.foldlM (fun refs ref => (.ok (refs.push ref) : Result (Array Int))) refs =
        .ok (refs ++ xs.toArray) := by
    intro xs
    induction xs with
    | nil => simp
    | cons x xs ih =>
      intro refs
      rw [List.foldlM_cons, Result.ok_bind, ih]
      simp
  rw [decode, foldlM_eq_ok_iff, hpush, Except.ok.injEq, ← Array.toList_inj]
  simp [eq_comm]

/-- A reference that is appended keeps runs tight. -/
theorem Tight.append {rs rs' : Array Run} {ref : Int} (htight : Tight rs.toList)
    (hrs : ∀ r ∈ rs, 0 < r.size ∧ r.size < signedLimit) (happ : append rs ref = .ok rs') :
    Tight rs'.toList := by
  rcases append_eq_ok hrs happ with ⟨rfl, hnext⟩ | ⟨init, last, rfl, -, rfl⟩
  · rw [Array.toList_push]
    refine List.IsChain.append htight (List.isChain_singleton _) fun last hlast r hr => ?_
    obtain rfl : (⟨ref, 1⟩ : Run) = r := by simpa using hr
    exact hnext last (by simpa using hlast)
  · rw [Array.toList_push] at htight ⊢
    obtain ⟨hinit, -, hlast⟩ := List.isChain_append.mp htight
    refine List.IsChain.append hinit (List.isChain_singleton _) fun s hs r hr => ?_
    obtain rfl : (⟨last.start, last.size + 1⟩ : Run) = r := by simpa using hr
    exact hlast s hs last rfl

/-- **What appending makes**: tight runs, which hold the references.

**Proof sketch.** Induction on the references, from the end; one of them is `Encodes.append` and
`Tight.append`. -/
theorem tight_of_encode {xs : List Int} {rs : Array Run} (hwalk : Walkable xs)
    (h : encode xs = .ok rs) : Encodes rs xs ∧ Tight rs.toList := by
  induction xs using List.reverseRecOn generalizing rs with
  | nil =>
    obtain rfl := Except.ok.inj h
    exact ⟨encodes_empty, List.isChain_nil⟩
  | append_singleton xs ref ih =>
    obtain ⟨ss, hss, happ⟩ := encode_snoc_eq_ok_iff.mp h
    obtain ⟨hencodes, htight⟩ := ih hwalk.left hss
    exact ⟨hencodes.append_of_walkable hwalk happ, htight.append hencodes.2 happ⟩

/-- References that have neighbours are never `2^63` in a row. -/
theorem walkable_of_inner {xs : List Int} (h : ∀ x ∈ xs, IsInner x) : Walkable xs := by
  intro start hspan
  have hmem : ∀ k : Nat, k < signedLimit →
      IsInner (start + (⟨start, signedLimit⟩ : Run).step * k) := fun k hk =>
    h _ (hspan.subset (List.mem_map_of_mem (List.mem_range.mpr hk)))
  have hlast := hmem (signedLimit - 1) (by decide)
  unfold IsInner at hlast
  rw [Nat.cast_sub (by decide)] at hlast
  rcases lt_or_ge start 0 with hs | hs
  · rw [Run.step_of_neg (r := ⟨start, signedLimit⟩) hs] at hlast
    omega
  · rw [Run.step_of_nonneg (r := ⟨start, signedLimit⟩) hs] at hlast
    omega

/-- **References can be appended** one by one as long as all but the last one have neighbours. -/
theorem encode_isOk {xs : List Int} (hinner : ∀ x ∈ xs.dropLast, IsInner x) :
    ∃ rs, encode xs = .ok rs := by
  induction xs using List.reverseRecOn with
  | nil => exact ⟨#[], rfl⟩
  | append_singleton xs ref ih =>
    rw [List.dropLast_concat] at hinner
    obtain ⟨ss, hss⟩ := ih fun x hx => hinner x (List.mem_of_mem_dropLast hx)
    obtain ⟨hencodes, -⟩ := tight_of_encode (walkable_of_inner hinner) hss
    obtain ⟨rs, happ⟩ := hencodes.append_isOk ref fun x hx => hinner x (List.mem_of_getLast? hx)
    exact ⟨rs, encode_snoc_eq_ok_iff.mpr ⟨ss, hss, happ⟩⟩

/-- A reference that is appended is counted after the others, and leaves no run empty. -/
theorem spans_of_append {rs rs' : Array Run} {ref : Int}
    (hrs : ∀ r ∈ rs, 0 < r.size ∧ r.size < signedLimit) (happ : append rs ref = .ok rs') :
    (∀ r ∈ rs', 1 ≤ r.size) ∧ spans rs'.toList = spans rs.toList ++ [ref] := by
  rcases append_eq_ok hrs happ with ⟨rfl, -⟩ | ⟨init, last, rfl, rfl, rfl⟩
  · refine ⟨fun r hr => ?_, by simp [spans, Run.span]⟩
    rcases Array.mem_push.mp hr with hr | rfl
    · exact (hrs r hr).1
    · exact le_rfl
  · refine ⟨fun r hr => ?_, ?_⟩
    · rcases Array.mem_push.mp hr with hr | rfl
      · exact (hrs r (Array.mem_push.mpr (.inl hr))).1
      · exact Nat.succ_pos _
    · simp only [Array.toList_push, spans_append, List.append_assoc]
      simp [spans, Run.span_extend]

/-- **What the runs for a list count**, if all but the last of its references have neighbours: the
references of the list.  The runs are tight, and not empty. -/
theorem spans_encode {xs : List Int} {rs : Array Run} (hinner : ∀ x ∈ xs.dropLast, IsInner x)
    (h : encode xs = .ok rs) :
    Tight rs.toList ∧ (∀ r ∈ rs, 1 ≤ r.size) ∧ spans rs.toList = xs := by
  rcases List.eq_nil_or_concat xs with rfl | ⟨zs, ref, rfl⟩
  · obtain rfl := Except.ok.inj h
    exact ⟨List.isChain_nil, by simp, rfl⟩
  · rw [List.concat_eq_append] at h hinner ⊢
    rw [List.dropLast_concat] at hinner
    obtain ⟨ss, hss, happ⟩ := encode_snoc_eq_ok_iff.mp h
    obtain ⟨hencodes, htight⟩ := tight_of_encode (walkable_of_inner hinner) hss
    obtain ⟨hpos, hspans⟩ := spans_of_append hencodes.2 happ
    refine ⟨htight.append hencodes.2 happ, hpos, ?_⟩
    rw [hspans, ← hencodes.1,
      indices_eq_spans fun r hr => (hencodes.2 r (Array.mem_toList_iff.mp hr)).2]

/-- **Tight runs are the runs for what they count.** -/
theorem encode_spans {rs : Array Run} (htight : Tight rs.toList) (hpos : ∀ r ∈ rs, 1 ≤ r.size)
    (hinner : ∀ x ∈ (spans rs.toList).dropLast, IsInner x) :
    encode (spans rs.toList) = .ok rs := by
  obtain ⟨ss, hss⟩ := encode_isOk hinner
  obtain ⟨htight', hpos', hspans⟩ := spans_encode hinner hss
  have hrs : ∀ r ∈ rs.toList, 1 ≤ r.size := fun r hr => hpos r (Array.mem_toList_iff.mp hr)
  have hsize : ∀ r ∈ ss.toList, 1 ≤ r.size := fun r hr => hpos' r (Array.mem_toList_iff.mp hr)
  obtain rfl : ss = rs := by
    rw [← Array.toList_inj]
    rcases htight.eq_or_length_lt hrs hsize hspans with heq | hlt
    · exact heq
    · rcases htight'.eq_or_length_lt hsize hrs hspans.symm with heq | hlt'
      · exact heq.symm
      · omega
  exact hss

/-- **Runs are a code for lists of references**, the shortest one.

1. If all references but the last one have neighbours, then appending them one by one succeeds and
   makes runs that are not empty.  Their sizes add up to the length of the list, if a word counts
   it; and a walk over them comes to the list, unless this holds all `2^63` references of one kind
   in a row.  Other runs that a walk comes to the list over are more.
2. When the references that a walk over encoded runs comes to are encoded once more, they make the
   same runs.
3. No run walks over references of both kinds.

**Proof sketch.** A reference that is appended extends the last run exactly if it continues it, so
that no run continues the one before it; and such runs are the shortest. -/
theorem encode_canonical :
    (∀ xs : List Int, (∀ x ∈ xs, IsSigned x) → (∀ x ∈ xs.dropLast, IsInner x) →
      ∃ rs, encode xs = .ok rs ∧ (∀ r ∈ rs, 1 ≤ r.size) ∧
        (xs.length < limit → size rs.toList = .ok xs.length) ∧
        (Walkable xs → decode rs.toList = .ok xs.toArray) ∧
        ∀ ys : List Run, (∀ r ∈ ys, 1 ≤ r.size ∧ r.size < signedLimit) →
          decode ys = .ok xs.toArray → ys ≠ rs.toList → rs.size < ys.length) ∧
    (∀ (zs : List Int) (rs : Array Run), (∀ z ∈ zs, IsSigned z) → Walkable zs →
      encode zs = .ok rs →
        ∃ refs, decode rs.toList = .ok refs ∧ encode refs.toList = .ok rs) ∧
    ∀ r : Run, (∀ i ∈ r.indices, i < 0) ∨ ∀ i ∈ r.indices, 0 ≤ i := by
  have hdecode : ∀ (xs : List Int) (rs : Array Run), (∀ x ∈ xs, IsSigned x) → Walkable xs →
      encode xs = .ok rs → decode rs.toList = .ok xs.toArray := by
    intro xs rs hsigned hwalk hrs
    obtain ⟨⟨hindices, -⟩, -⟩ := tight_of_encode hwalk hrs
    exact decode_eq_ok_iff.mpr ⟨by rwa [hindices], hindices.symm⟩
  refine ⟨fun xs hsigned hinner => ?_, fun zs rs hsigned hwalk hrs => ?_, Run.sign_indices⟩
  · obtain ⟨rs, hrs⟩ := encode_isOk hinner
    obtain ⟨htight, hpos, hspans⟩ := spans_encode hinner hrs
    refine ⟨rs, hrs, hpos, fun hlen => ?_, fun hwalk => hdecode xs rs hsigned hwalk hrs, ?_⟩
    · have hsum : xs.length = (rs.toList.map Run.size).sum := by rw [← hspans, length_spans]
      exact size_eq_ok_iff.mpr ⟨hsum ▸ hlen, hsum⟩
    · intro ys hys hwalked hne
      obtain ⟨-, hlist⟩ := decode_eq_ok_iff.mp hwalked
      have hsame : spans ys = spans rs.toList := by
        rw [hspans, ← indices_eq_spans fun r hr => (hys r hr).2, ← hlist]
      rcases htight.eq_or_length_lt (fun r hr => hpos r (Array.mem_toList_iff.mp hr))
        (fun r hr => (hys r hr).1) hsame with heq | hlt
      · exact absurd heq hne
      · exact hlt
  · exact ⟨zs.toArray, hdecode zs rs hsigned hwalk hrs, hrs⟩

/-- Eleven references are encoded by six runs: two runs of neurons, a run of inputs, an input by
itself, and two neurons by themselves, the last of which has the greatest number of all.  A walk
comes to these references again, and other runs for them are more. -/
theorem encode_canonical_six :
    encode [3, 4, 5, 9, 10, -1, -2, -3, -5, 0, 9223372036854775807] =
        .ok #[⟨3, 3⟩, ⟨9, 2⟩, ⟨-1, 3⟩, ⟨-5, 1⟩, ⟨0, 1⟩, ⟨9223372036854775807, 1⟩] ∧
      decode [⟨3, 3⟩, ⟨9, 2⟩, ⟨-1, 3⟩, ⟨-5, 1⟩, ⟨0, 1⟩, ⟨9223372036854775807, 1⟩] =
        .ok #[3, 4, 5, 9, 10, -1, -2, -3, -5, 0, 9223372036854775807] ∧
      (∃ refs,
        decode [⟨3, 3⟩, ⟨9, 2⟩, ⟨-1, 3⟩, ⟨-5, 1⟩, ⟨0, 1⟩, ⟨9223372036854775807, 1⟩] = .ok refs ∧
        encode refs.toList =
          .ok #[⟨3, 3⟩, ⟨9, 2⟩, ⟨-1, 3⟩, ⟨-5, 1⟩, ⟨0, 1⟩, ⟨9223372036854775807, 1⟩]) ∧
      ∀ ys : List Run, (∀ r ∈ ys, 1 ≤ r.size ∧ r.size < signedLimit) →
        decode ys = .ok #[3, 4, 5, 9, 10, -1, -2, -3, -5, 0, 9223372036854775807] →
        ys ≠ [⟨3, 3⟩, ⟨9, 2⟩, ⟨-1, 3⟩, ⟨-5, 1⟩, ⟨0, 1⟩, ⟨9223372036854775807, 1⟩] →
        6 < ys.length := by
  obtain ⟨hall, hagain, -⟩ := encode_canonical
  obtain ⟨rs, hrs, -, -, hdecode, hshortest⟩ :=
    hall [3, 4, 5, 9, 10, -1, -2, -3, -5, 0, 9223372036854775807] (by decide) (by decide)
  have hruns : encode [3, 4, 5, 9, 10, -1, -2, -3, -5, 0, 9223372036854775807] =
      .ok #[⟨3, 3⟩, ⟨9, 2⟩, ⟨-1, 3⟩, ⟨-5, 1⟩, ⟨0, 1⟩, ⟨9223372036854775807, 1⟩] := by rfl
  obtain rfl := Except.ok.inj (hrs.symm.trans hruns)
  have hwalk : Walkable [3, 4, 5, 9, 10, -1, -2, -3, -5, 0, 9223372036854775807] :=
    walkable_of_length_lt (by decide)
  exact ⟨hruns, hdecode hwalk, hagain _ _ (by decide) hwalk hruns, hshortest⟩

/-- **Runs do not hold all lists** that can be appended.  The references to all neurons in order
make one run, which is too long to be walked; and those to all neurons but the first and the last
one, three times over, make three runs, whose sizes add up to more than a word holds. -/
theorem encode_beyond_words :
    ((∀ x ∈ (⟨0, signedLimit⟩ : Run).span, IsSigned x) ∧
      (∀ x ∈ (⟨0, signedLimit⟩ : Run).span.dropLast, IsInner x) ∧
      encode (⟨0, signedLimit⟩ : Run).span = .ok #[⟨0, signedLimit⟩] ∧
      decode [⟨0, signedLimit⟩] = .ok #[] ∧
      decode [⟨0, signedLimit⟩] ≠ .ok (⟨0, signedLimit⟩ : Run).span.toArray) ∧
    (∀ x ∈ spans (List.replicate 3 ⟨1, signedLimit - 2⟩), IsInner x) ∧
      encode (spans (List.replicate 3 ⟨1, signedLimit - 2⟩)) =
        .ok (Array.replicate 3 ⟨1, signedLimit - 2⟩) ∧
      size (List.replicate 3 ⟨1, signedLimit - 2⟩) = stop .overflow := by
  constructor
  · have hsplit : (⟨0, signedLimit⟩ : Run).span =
        (⟨0, signedLimit - 1⟩ : Run).span ++ [(⟨0, signedLimit - 1⟩ : Run).after] :=
      Run.span_extend ⟨0, signedLimit - 1⟩
    have hfirst : ∀ x ∈ (⟨0, signedLimit - 1⟩ : Run).span, IsInner x := fun x hx =>
      Run.isInner_of_mem_span le_rfl (by decide) hx
    have hinner : ∀ x ∈ (⟨0, signedLimit⟩ : Run).span.dropLast, IsInner x := by
      rwa [hsplit, List.dropLast_concat]
    have hspans : spans [⟨0, signedLimit⟩] = (⟨0, signedLimit⟩ : Run).span := List.append_nil _
    have hempty : decode [⟨0, signedLimit⟩] = .ok #[] := by rfl
    refine ⟨fun x hx => ?_, hinner, ?_, hempty, fun h => ?_⟩
    · rw [hsplit, List.mem_append, List.mem_singleton] at hx
      rcases hx with hx | rfl
      · exact (hfirst x hx).isSigned
      · decide
    · have hrun : encode (spans [⟨0, signedLimit⟩]) = .ok #[⟨0, signedLimit⟩] :=
        encode_spans (List.isChain_singleton _) (by decide) (by rwa [hspans])
      rwa [hspans] at hrun
    · have hlen := congrArg Array.size (Except.ok.inj (hempty.symm.trans h))
      rw [List.size_toArray, List.size_toArray, Run.length_span] at hlen
      cases hlen
  · have hinner : ∀ x ∈ spans (List.replicate 3 ⟨1, signedLimit - 2⟩), IsInner x := by
      intro x hx
      obtain ⟨r, hr, hx⟩ := List.mem_flatMap.mp hx
      obtain rfl := List.eq_of_mem_replicate hr
      exact Run.isInner_of_mem_span (by decide) (by decide) hx
    have htight : Tight (Array.replicate 3 (⟨1, signedLimit - 2⟩ : Run)).toList :=
      List.isChain_replicate_of_rel 3 (by decide)
    have hruns := encode_spans htight (by decide) fun x hx =>
      hinner x (List.mem_of_mem_dropLast hx)
    exact ⟨hinner, hruns, by rfl⟩

end Runs

end NeuralPlan
