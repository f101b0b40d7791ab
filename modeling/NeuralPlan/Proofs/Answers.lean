import Mathlib.Tactic
import NeuralPlan.Word

/-!
# Answers of operations

The operations of the library are chains of operations that may fail.  Here is what is needed to
take such chains apart: a chain succeeds exactly if each of its parts does.

## Main definitions

* `Result.FailsIn` — an operation fails in certain ways only.
* `Failure.IsReport` — a failure with a report.

## Main results

* `Result.bind_eq_ok_iff` — the parts of a chain that succeeds.
* `Result.mapM_eq_ok_iff_of` — when an operation succeeds on every element of a list.
* `Result.mapM_perm` — an operation on the elements of a list in another order.
* `Result.FailsIn.bind`, `Result.failsIn_foldlM`, `Result.failsIn_mapM` — how a chain may fail.
* `Word.signed_eq_ok_iff`, `Word.unsigned_eq_ok_iff` — when a number fits its word.
-/

set_option relaxedAutoImplicit false
set_option autoImplicit false

namespace NeuralPlan

/-- A failure with a report, not a stop of the arithmetic. -/
def Failure.IsReport (e : Failure) : Prop := ∃ report, e = .error report

namespace Result

variable {α β : Type}

/-- A chain succeeds exactly if its parts do. -/
theorem bind_eq_ok_iff {x : Result α} {f : α → Result β} {b : β} :
    (x >>= f) = .ok b ↔ ∃ a, x = .ok a ∧ f a = .ok b := by
  cases x with
  | error e => simp [bind, Except.bind]
  | ok a => simp [bind, Except.bind]

/-- A chain goes on after a part that succeeds. -/
@[simp] theorem ok_bind (a : α) (f : α → Result β) : ((.ok a : Result α) >>= f) = f a := rfl

/-- A chain ends at a part that fails. -/
@[simp] theorem error_bind (e : Failure) (f : α → Result β) :
    ((.error e : Result α) >>= f) = .error e := rfl

/-- A chain ends at a report. -/
@[simp] theorem fail_bind (e : Error) (f : α → Result β) : (fail e >>= f) = fail e := rfl

/-- A value by itself is a success. -/
@[simp] theorem pure_eq_ok (a : α) : (pure a : Result α) = .ok a := rfl

/-- A report is no success. -/
@[simp] theorem fail_ne_ok {e : Error} {a : α} : fail e ≠ (.ok a : Result α) := nofun

/-- A fault is no success. -/
@[simp] theorem stop_ne_ok {e : Fault} {a : α} : stop e ≠ (.ok a : Result α) := nofun

/-- If an operation succeeds just on some arguments, it succeeds on all elements of a list exactly
if they are such arguments. -/
theorem mapM_eq_ok_iff_of {f : α → Result β} {p : α → Prop} {g : α → β}
    (h : ∀ x y, f x = .ok y ↔ p x ∧ y = g x) {xs : List α} {ys : List β} :
    xs.mapM f = .ok ys ↔ (∀ x ∈ xs, p x) ∧ ys = xs.map g := by
  induction xs generalizing ys with
  | nil => simp [eq_comm]
  | cons x xs ih =>
    simp only [List.mapM_cons, bind_eq_ok_iff, pure_eq_ok, Except.ok.injEq, h, ih,
      List.forall_mem_cons, List.map_cons]
    constructor
    · rintro ⟨_, ⟨hx, rfl⟩, _, ⟨hxs, rfl⟩, rfl⟩
      exact ⟨⟨hx, hxs⟩, rfl⟩
    · rintro ⟨⟨hx, hxs⟩, rfl⟩
      exact ⟨_, ⟨hx, rfl⟩, _, ⟨hxs, rfl⟩, rfl⟩

/-- An operation that succeeds on all elements of a list succeeds on them in any other order. -/
theorem mapM_perm {f : α → Result β} {xs xs' : List α} {ys : List β} (hperm : xs.Perm xs')
    (h : xs.mapM f = .ok ys) : ∃ ys', xs'.mapM f = .ok ys' ∧ ys.Perm ys' := by
  induction hperm generalizing ys with
  | nil => exact ⟨ys, h, List.Perm.refl _⟩
  | cons x _ ih =>
    simp only [List.mapM_cons, bind_eq_ok_iff, pure_eq_ok, Except.ok.injEq] at h ⊢
    obtain ⟨y, hy, zs, hzs, rfl⟩ := h
    obtain ⟨zs', hzs', hperm⟩ := ih hzs
    exact ⟨_, ⟨y, hy, zs', hzs', rfl⟩, hperm.cons y⟩
  | swap x x' xs =>
    simp only [List.mapM_cons, bind_eq_ok_iff, pure_eq_ok, Except.ok.injEq] at h ⊢
    obtain ⟨y', hy', _, ⟨y, hy, zs, hzs, rfl⟩, rfl⟩ := h
    exact ⟨_, ⟨y, hy, _, ⟨y', hy', zs, hzs, rfl⟩, rfl⟩, List.Perm.swap y y' zs⟩
  | trans _ _ ih ih' =>
    obtain ⟨ys', hys', hperm⟩ := ih h
    obtain ⟨zs, hzs, hperm'⟩ := ih' hys'
    exact ⟨zs, hzs, hperm.trans hperm'⟩

/-- Steps that all succeed make a fold that succeeds. -/
theorem foldlM_eq_foldl {f : β → α → Result β} {g : β → α → β} {xs : List α} {b : β}
    (h : ∀ x ∈ xs, ∀ b, f b x = .ok (g b x)) : xs.foldlM f b = .ok (xs.foldl g b) := by
  induction xs generalizing b with
  | nil => rfl
  | cons x xs ih =>
    obtain ⟨hx, hxs⟩ := List.forall_mem_cons.mp h
    rw [List.foldlM_cons, hx, ok_bind, ih hxs, List.foldl_cons]

/-- A fold that succeeds has the value of another one, if each of its steps has. -/
theorem foldlM_eq_some {f : β → α → Result β} {g : β → α → Option β}
    (h : ∀ b x c, f b x = .ok c → g b x = some c) {xs : List α} {b c : β}
    (hfold : xs.foldlM f b = .ok c) : xs.foldlM g b = some c := by
  induction xs generalizing b with
  | nil =>
    obtain rfl := Except.ok.inj hfold
    rfl
  | cons x xs ih =>
    rw [List.foldlM_cons] at hfold ⊢
    obtain ⟨b', hstep, hrest⟩ := bind_eq_ok_iff.mp hfold
    rw [h b x b' hstep]
    exact ih hrest

/-- Checks one after another pass exactly if each of them does. -/
theorem foldlM_check_eq_ok_iff {f : α → Result Unit} {xs : List α} :
    xs.foldlM (fun _ x => f x) () = .ok () ↔ ∀ x ∈ xs, f x = .ok () := by
  induction xs with
  | nil => simp
  | cons x xs ih =>
    rw [List.foldlM_cons, bind_eq_ok_iff, List.forall_mem_cons]
    constructor
    · rintro ⟨⟨⟩, hx, hxs⟩
      exact ⟨hx, ih.mp hxs⟩
    · rintro ⟨hx, hxs⟩
      exact ⟨(), hx, ih.mpr hxs⟩

/-- Pushing what an operation answers to each element pushes all answers, if there are any. -/
theorem foldlM_push_eq_ok_iff {f : α → Result β} {p : α → Prop} {g : α → β}
    (h : ∀ x y, f x = .ok y ↔ p x ∧ y = g x) {xs : List α} {ys zs : Array β} :
    xs.foldlM (fun acc x => do return acc.push (← f x)) ys = .ok zs ↔
      (∀ x ∈ xs, p x) ∧ zs = ys ++ (xs.map g).toArray := by
  induction xs generalizing ys with
  | nil => simp [eq_comm]
  | cons x xs ih =>
    rw [List.foldlM_cons, List.forall_mem_cons, List.map_cons]
    constructor
    · intro hok
      obtain ⟨acc, hstep, hrest⟩ := bind_eq_ok_iff.mp hok
      obtain ⟨y, hy, hpush⟩ := bind_eq_ok_iff.mp hstep
      obtain ⟨hx, rfl⟩ := (h x y).mp hy
      obtain rfl : ys.push (g x) = acc := by simpa using hpush
      obtain ⟨hxs, rfl⟩ := ih.mp hrest
      exact ⟨⟨hx, hxs⟩, by simp [List.push_append_toArray]⟩
    · rintro ⟨⟨hx, hxs⟩, rfl⟩
      rw [(h x (g x)).mpr ⟨hx, rfl⟩]
      exact ih.mpr ⟨hxs, by simp [List.push_append_toArray]⟩

/-! ## Ways to fail -/

/-- If the operation fails, then in one of the ways `P`. -/
def FailsIn (P : Failure → Prop) (x : Result α) : Prop := ∀ e, x = .error e → P e

variable {P : Failure → Prop}

/-- A success fails in no way. -/
@[simp] theorem failsIn_ok (a : α) : FailsIn P (.ok a) := nofun

/-- A value by itself fails in no way. -/
@[simp] theorem failsIn_pure (a : α) : FailsIn P (pure a : Result α) := nofun

/-- A report fails in its own way. -/
@[simp] theorem failsIn_fail {e : Error} : FailsIn P (fail e : Result α) ↔ P (.error e) :=
  ⟨fun h => h _ rfl, fun h _ he => Except.error.inj he ▸ h⟩

/-- A fault fails in its own way. -/
@[simp] theorem failsIn_stop {f : Fault} : FailsIn P (stop f : Result α) ↔ P (.fault f) :=
  ⟨fun h => h _ rfl, fun h _ he => Except.error.inj he ▸ h⟩

/-- What fails in certain ways fails in any that these are among. -/
theorem FailsIn.mono {Q : Failure → Prop} {x : Result α} (hx : FailsIn P x)
    (h : ∀ e, P e → Q e) : FailsIn Q x :=
  fun e he => h e (hx e he)

/-- A chain fails in the ways of its parts, of which the second is only asked for what the first
answers. -/
theorem FailsIn.bind_of {x : Result α} {f : α → Result β} (hx : FailsIn P x)
    (hf : ∀ a, x = .ok a → FailsIn P (f a)) : FailsIn P (x >>= f) := by
  cases x with
  | ok a => exact hf a rfl
  | error e =>
    intro e' h
    exact Except.error.inj h ▸ hx e rfl

/-- A chain fails in the ways of its parts. -/
theorem FailsIn.bind {x : Result α} {f : α → Result β} (hx : FailsIn P x)
    (hf : ∀ a, FailsIn P (f a)) : FailsIn P (x >>= f) :=
  hx.bind_of fun a _ => hf a

/-- A fold fails in the ways of its steps. -/
theorem failsIn_foldlM {f : β → α → Result β} {l : List α}
    (hf : ∀ b, ∀ a ∈ l, FailsIn P (f b a)) (b : β) : FailsIn P (l.foldlM f b) := by
  induction l generalizing b with
  | nil => exact failsIn_ok b
  | cons a l ih =>
    rw [List.foldlM_cons]
    exact (hf b a List.mem_cons_self).bind
      (ih fun b a ha => hf b a (List.mem_cons_of_mem _ ha))

/-- An operation on every element of a list fails in the ways that it does on each. -/
theorem failsIn_mapM {f : α → Result β} {l : List α} (hf : ∀ a ∈ l, FailsIn P (f a)) :
    FailsIn P (l.mapM f) := by
  induction l with
  | nil => exact failsIn_ok []
  | cons a l ih =>
    obtain ⟨ha, hl⟩ := List.forall_mem_cons.mp hf
    rw [List.mapM_cons]
    exact ha.bind fun b => (ih hl).bind fun bs => failsIn_pure _

end Result

namespace Word

/-- The sum of counts is their sum as natural numbers. -/
@[simp] theorem total_eq_sum (counts : List Nat) : total counts = counts.sum := rfl

/-- The numbers that a signed word holds. -/
def IsSigned (i : Int) : Prop := -(signedLimit : Int) ≤ i ∧ i < signedLimit

/-- The numbers that a signed word holds with their neighbours. -/
def IsInner (i : Int) : Prop := -(signedLimit : Int) < i ∧ i + 1 < signedLimit

instance (i : Int) : Decidable (IsSigned i) := inferInstanceAs (Decidable (_ ∧ _))

instance (i : Int) : Decidable (IsInner i) := inferInstanceAs (Decidable (_ ∧ _))

/-- The check of a signed word gives the number itself, if it fits. -/
theorem signed_eq_ok_iff {i j : Int} : signed i = .ok j ↔ IsSigned i ∧ j = i := by
  unfold signed IsSigned
  split
  next h => simp [h, eq_comm]
  next h => exact ⟨fun hs => absurd hs Result.stop_ne_ok, fun hs => absurd hs.1 h⟩

/-- The check of an unsigned word gives the number itself, if it fits. -/
theorem unsigned_eq_ok_iff {n m : Nat} : unsigned n = .ok m ↔ n < limit ∧ m = n := by
  unfold unsigned
  split
  next h => simp [h, eq_comm]
  next h => exact ⟨fun hs => absurd hs Result.stop_ne_ok, fun hs => absurd hs.1 h⟩

/-- The check of a signed word fails with an overflow. -/
theorem failsIn_signed {P : Failure → Prop} (hover : P (.fault .overflow)) (i : Int) :
    Result.FailsIn P (signed i) := by
  unfold signed
  split <;> simp [hover]

/-- The check of an unsigned word fails with an overflow. -/
theorem failsIn_unsigned {P : Failure → Prop} (hover : P (.fault .overflow)) (n : Nat) :
    Result.FailsIn P (unsigned n) := by
  unfold unsigned
  split <;> simp [hover]

/-- What a signed word holds with its neighbours, it holds. -/
theorem IsInner.isSigned {i : Int} (h : IsInner i) : IsSigned i := by
  unfold IsInner at h
  unfold IsSigned
  omega

/-- A natural number below half the range is a signed word. -/
theorem isSigned_of_lt {n : Nat} (h : n < signedLimit) : IsSigned n := by
  unfold IsSigned; omega

/-- Different signed words have different bits. -/
theorem toUnsigned_inj {i j : Int} (hi : IsSigned i) (hj : IsSigned j)
    (h : toUnsigned i = toUnsigned j) : i = j := by
  rw [← toSigned_toUnsigned hi.1 hi.2, h, toSigned_toUnsigned hj.1 hj.2]

/-- Below the range a natural number is the unsigned word of its own bits. -/
theorem toUnsigned_natCast {n : Nat} (h : n < signedLimit) : toUnsigned n = n := by
  unfold toUnsigned
  have : signedLimit < limit := by decide
  rw [Int.emod_eq_of_lt (by omega) (by omega), Int.toNat_natCast]

/-- What has the bits of a number below half the range is a word with neighbours: below zero the bits
are those of a word of the upper half. -/
theorem isInner_of_toUnsigned_lt {i : Int} {n : Nat} (hi : IsSigned i) (hlt : toUnsigned i < n)
    (hn : n < signedLimit) : IsInner i := by
  have hlimit : limit = 2 * signedLimit := by decide
  unfold IsSigned at hi
  unfold toUnsigned at hlt
  unfold IsInner
  rcases lt_or_ge i 0 with hneg | hnonneg
  · rw [← Int.add_emod_right, Int.emod_eq_of_lt (by omega) (by omega)] at hlt
    omega
  · rw [Int.emod_eq_of_lt hnonneg (by omega)] at hlt
    omega

end Word

end NeuralPlan
