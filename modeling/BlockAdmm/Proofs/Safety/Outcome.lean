/-
  Every way in which a computation can end.

  `Ends E Q x` says of a computation that a value of it has `Q` and that a fault in which it ends is one
  of `E`.  Unlike a statement about values alone it leaves no ending out, so with a class `E` that has no
  misuse in it, it says that every promise is kept; with the class of all faults it is a statement about
  values alone (`ends_true_iff`).  Most of what is proved holds for every class that has the breach in it
  (`Limits`), or the breach and the errors that are reported (`Reports`); which operations can end in which
  faults is read off these classes.  Where it is known how much is stored, a breach can be ruled out: a class
  `Allows` a number of entries if there is room for them or a breach is among its faults.

  A computation is gone through step by step (`Ends.bind`).  A fold keeps what its steps keep
  (`ends_foldlM`).
-/
import BlockAdmm.Proofs.Outcome

namespace BlockAdmm

variable {α β σ : Type}

/-! ## Classes of faults -/

/-- The breach is among the faults. -/
class Limits (E : Fault → Prop) : Prop where
  breach : E .breach

/-- So is every error that is reported. -/
class Reports (E : Fault → Prop) : Prop extends Limits E where
  failed : ∀ e, E (.failed e)

/-- And so is a loop that is not through with the rounds it was given. -/
class Waits (E : Fault → Prop) : Prop extends Reports E where
  unending : E .unending

namespace Fault

/-- `f.IsBreach`: nothing but a size was too large. -/
def IsBreach (f : Fault) : Prop := f = .breach

/-- `Fault.Unless c`: a size was too large, which cannot be if `c` holds. -/
def Unless (c : Prop) (f : Fault) : Prop := f = .breach ∧ ¬ c

/-- `f.IsReport`: a size was too large, or an error is reported. -/
def IsReport (f : Fault) : Prop := f ≠ .misuse ∧ f ≠ .unending

/-- `f.KeepsPromises`: whatever happened, no promise was broken. -/
def KeepsPromises (f : Fault) : Prop := f ≠ .misuse

end Fault

instance : Limits Fault.IsBreach := ⟨rfl⟩

/-- The class of all faults, where only values are of interest. -/
instance : Waits fun _ => True where
  breach := trivial
  failed _ := trivial
  unending := trivial

instance : Reports Fault.IsReport where
  breach := ⟨nofun, nofun⟩
  failed _ := ⟨nofun, nofun⟩

instance : Waits Fault.KeepsPromises where
  breach := nofun
  failed _ := nofun
  unending := nofun

/-! ## Outcomes -/

/-- `Ends E Q x`: a value of the computation has `Q`, and a fault in which it ends is one of `E`. -/
def Ends (E : Fault → Prop) (Q : α → Prop) : Outcome α → Prop
  | .ok a => Q a
  | .error f => E f

section Outcome

variable {E F : Fault → Prop} {P Q : α → Prop} {x : Outcome α}

theorem Ends.of_eq_ok {a : α} (h : Ends E Q x) (hx : x = .ok a) : Q a := by
  rw [hx] at h
  exact h

theorem Ends.of_eq_error {f : Fault} (h : Ends E Q x) (hx : x = .error f) : E f := by
  rw [hx] at h
  exact h

theorem ends_ok {a : α} (h : Q a) : Ends E Q (.ok a) := h

/-- Where every fault is allowed, only values are of interest. -/
theorem ends_true_iff : Ends (fun _ => True) Q x ↔ ∀ a, x = .ok a → Q a := by
  constructor
  · intro h a hx
    exact h.of_eq_ok hx
  · intro h
    cases x with
    | ok a => exact h a rfl
    | error f => exact trivial

/-- A value may be said to have less, and the faults to be more. -/
theorem Ends.mono (h : Ends E P x) (hE : ∀ f, E f → F f) (hQ : ∀ a, P a → Q a) : Ends F Q x := by
  cases x with
  | ok a => exact hQ a h
  | error f => exact hE f h

theorem Ends.imp (h : Ends E P x) (hQ : ∀ a, P a → Q a) : Ends E Q x := h.mono (fun _ hf => hf) hQ

/-- One computation after another. -/
theorem Ends.bind {Q : β → Prop} {f : α → Outcome β} (hx : Ends E P x)
    (hf : ∀ a, P a → Ends E Q (f a)) : Ends E Q (x >>= f) := by
  cases x with
  | ok a => exact hf a hx
  | error e => exact hx

theorem Ends.map {Q : β → Prop} {f : α → β} (hx : Ends E P x) (hf : ∀ a, P a → Q (f a)) :
    Ends E Q (x.map f) := by
  cases x with
  | ok a => exact hf a hx
  | error e => exact hx

/-- One computation after another, where the events are not looked at. -/
theorem Ends.logged_bind {Q : β → Prop} {y : Logged α} {f : α → Logged β} (hy : Ends E P y.outcome)
    (hf : ∀ a, P a → Ends E Q (f a).outcome) : Ends E Q (y >>= f).outcome := by
  rw [Logged.outcome_bind]
  exact hy.bind hf

/-- What is known of every value there is can be added. -/
theorem Ends.and_eq (h : Ends E P x) (hQ : ∀ a, x = .ok a → Q a) : Ends E (fun a => P a ∧ Q a) x := by
  cases x with
  | ok a => exact ⟨h, hQ a rfl⟩
  | error f => exact h

theorem ends_limit [Limits E] (c : Bool) : Ends E (fun _ => c = true) (limit c) := by
  cases c with
  | true => exact ends_ok rfl
  | false => exact Limits.breach

/-- A promise that is kept. -/
theorem ends_promise {c : Bool} (h : c = true) : Ends E (fun _ => True) (promise c) := by
  rw [h]
  exact trivial

theorem ends_fail [Reports E] (e : SolverError) : Ends E Q (fail e) := Reports.failed e

theorem ends_count [Limits E] (n : Nat) : Ends E (fun k => k = n) (count n) :=
  (ends_limit _).bind fun _ _ => ends_ok rfl

theorem ends_room [Limits E] (n : Nat) : Ends E (fun _ => True) (room n) :=
  (ends_limit _).imp fun _ _ => trivial

/-- `Allows E n`: there is room for `n` entries, or a breach is among the faults. -/
def Allows (E : Fault → Prop) (n : Nat) : Prop := E .breach ∨ n ≤ capacity

theorem allows_of_limits [Limits E] (n : Nat) : Allows E n := Or.inl Limits.breach

theorem Allows.mono {n k : Nat} (h : Allows E n) (hk : k ≤ n) : Allows E k :=
  h.imp_right (Nat.le_trans hk)

theorem Allows.of_le_max {m n k : Nat} (hm : Allows E m) (hn : Allows E n) (h : k ≤ max m n) : Allows E k := by
  rcases Nat.le_total m n with hle | hle
  · exact hn.mono (Nat.max_eq_right hle ▸ h)
  · exact hm.mono (Nat.max_eq_left hle ▸ h)

theorem Allows.ends_room {n : Nat} (h : Allows E n) : Ends E (fun _ => True) (room n) := by
  rcases h with h | h
  · have : Limits E := ⟨h⟩
    exact BlockAdmm.ends_room n
  · rw [room_of_le h]
    exact trivial

theorem Fault.unless_mono {c d : Prop} (h : d → c) (f : Fault) (hf : Fault.Unless c f) : Fault.Unless d f :=
  ⟨hf.1, fun hd => hf.2 (h hd)⟩

theorem allows_unless {c : Prop} {n : Nat} (h : c → n ≤ capacity) : Allows (Fault.Unless c) n := by
  by_cases hc : c
  · exact Or.inr (h hc)
  · exact Or.inl ⟨rfl, hc⟩

/-- A computation that has a value if `c` holds ends in no breach then. -/
theorem Ends.unless {c : Prop} (h : Ends Fault.IsBreach Q x) (hc : c → ∃ a, x = .ok a) :
    Ends (Fault.Unless c) Q x := by
  cases x with
  | ok a => exact h
  | error f =>
    refine ⟨h, fun hholds => ?_⟩
    obtain ⟨a, ha⟩ := hc hholds
    cases ha

/-- Where a breach cannot be, there is a value. -/
theorem Ends.exists_of_unless {c : Prop} (h : Ends (Fault.Unless c) Q x) (hc : c) :
    ∃ a, x = .ok a ∧ Q a := by
  cases x with
  | ok a => exact ⟨a, rfl, h⟩
  | error f => exact absurd hc h.2

/-- `breached x`: whether a size was too large. -/
def breached (x : Outcome α) : Bool :=
  match x with
  | .error .breach => true
  | _ => false

theorem eq_breach_of_breached (h : breached x = true) : x = .error .breach := by
  rw [breached.eq_def] at h
  split at h
  · rfl
  · cases h

/-- What every step keeps, a fold keeps. -/
theorem ends_foldlM {f : σ → α → Outcome σ} (I : σ → Prop) {xs : List α} {s : σ} (hs : I s)
    (step : ∀ x ∈ xs, ∀ s, I s → Ends E I (f s x)) : Ends E I (xs.foldlM f s) := by
  induction xs generalizing s with
  | nil => exact hs
  | cons x xs ih =>
    rw [List.foldlM_cons]
    exact (step x List.mem_cons_self s hs).bind fun r hr =>
      ih hr fun y hy => step y (List.mem_cons_of_mem x hy)

/-- The same where what is kept depends on what is still to come. -/
theorem ends_foldlM_rest {f : σ → α → Outcome σ} (I : List α → σ → Prop) {xs : List α} {s : σ}
    (hs : I xs s) (step : ∀ x xs s, I (x :: xs) s → Ends E (I xs) (f s x)) : Ends E (I []) (xs.foldlM f s) := by
  induction xs generalizing s with
  | nil => exact hs
  | cons x xs ih =>
    rw [List.foldlM_cons]
    exact (step x xs s hs).bind fun r hr => ih hr

/-- The values of a map over a list. -/
theorem ends_mapM {f : α → Outcome β} {Q : β → Prop} {xs : List α} (h : ∀ x ∈ xs, Ends E Q (f x)) :
    Ends E (fun ys => ys.length = xs.length ∧ ∀ y ∈ ys, Q y) (xs.mapM f) := by
  induction xs with
  | nil => exact ⟨rfl, fun _ hy => absurd hy List.not_mem_nil⟩
  | cons x xs ih =>
    rw [List.mapM_cons]
    refine (h x List.mem_cons_self).bind fun y hy => ?_
    refine (ih fun z hz => h z (List.mem_cons_of_mem x hz)).bind fun ys hys => ?_
    exact ends_ok ⟨congrArg (· + 1) hys.1, List.forall_mem_cons.2 ⟨hy, hys.2⟩⟩

/-- The values of a map over the numbers below a bound, by index. -/
theorem ends_mapM_range {f : Nat → Outcome β} {Q : Nat → β → Prop} {n : Nat} (d : β)
    (h : ∀ i, i < n → Ends E (Q i) (f i)) :
    Ends E (fun ys => ∀ i, i < n → Q i (ys.toArray.getD i d)) ((List.range n).mapM f) := by
  have hends : Ends E (fun _ => True) ((List.range n).mapM f) :=
    (ends_mapM (Q := fun _ => True) fun i hi => (h i (List.mem_range.1 hi)).imp fun _ _ => trivial).imp
      fun _ _ => trivial
  refine (hends.and_eq fun ys hys i hi => ?_).imp fun _ hys => hys.2
  exact (h i hi).of_eq_ok ((getD_of_mapM_range hys d).2 i hi)

theorem ends_forM {f : α → Outcome Unit} {xs : List α} (h : ∀ x ∈ xs, Ends E (fun _ => True) (f x)) :
    Ends E (fun _ => True) (xs.forM f) := by
  induction xs with
  | nil => exact trivial
  | cons x xs ih =>
    rw [List.forM_eq_forM, List.forM_cons]
    exact (h x List.mem_cons_self).bind fun _ _ => ih fun y hy => h y (List.mem_cons_of_mem x hy)

end Outcome

end BlockAdmm
