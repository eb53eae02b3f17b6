/-
  Outcomes, taken apart.

  A statement "if the computation has a value, then …" is proved by going backward through the steps
  that must all have had values.  For plain outcomes the step is `bind_eq_ok`; for compilations, which
  carry a session along, it is `Compile.run_bind_eq_ok`.  The primitive computations have one lemma each
  that says when they have a value and what it is; no later proof opens a monad.
-/
import BlockAdmm.Proofs.Exact
import BlockAdmm.Compile

namespace BlockAdmm

variable {α β σ : Type}

/-! ## Outcomes -/

theorem bind_eq_ok {x : Outcome α} {f : α → Outcome β} {b : β} :
    (x >>= f) = .ok b ↔ ∃ a, x = .ok a ∧ f a = .ok b := by
  cases x with
  | error e =>
    constructor
    · intro h; cases h
    · rintro ⟨a, h, -⟩; cases h
  | ok a =>
    constructor
    · intro h; exact ⟨a, rfl, h⟩
    · rintro ⟨a', h, hf⟩; cases h; exact hf

theorem exists_eq_ok {x : Outcome α} (h : x.toOption.isSome = true) : ∃ a, x = .ok a := by
  cases x with
  | error e => cases h
  | ok a => exact ⟨a, rfl⟩

/-- The same with a test that the value passes. -/
theorem exists_eq_ok_and {x : Outcome α} {p : α → Bool} (h : x.toOption.any p = true) :
    ∃ a, x = .ok a ∧ p a = true := by
  cases x with
  | error e => cases h
  | ok a => exact ⟨a, rfl, h⟩

theorem pure_eq_ok {a b : α} : (pure a : Outcome α) = .ok b ↔ a = b := by
  constructor
  · intro h; cases h; rfl
  · rintro rfl; rfl

theorem limit_eq_ok {c : Bool} {u : Unit} : limit c = .ok u ↔ c = true := by
  cases c with
  | false => constructor <;> intro h <;> cases h
  | true => exact ⟨fun _ => rfl, fun _ => rfl⟩

theorem promise_eq_ok {c : Bool} {u : Unit} : promise c = .ok u ↔ c = true := by
  cases c with
  | false => constructor <;> intro h <;> cases h
  | true => exact ⟨fun _ => rfl, fun _ => rfl⟩

theorem fail_ne_ok {e : SolverError} {a : α} : (fail e : Outcome α) ≠ .ok a := nofun

theorem room_eq_ok {n : Nat} {u : Unit} : room n = .ok u ↔ n ≤ capacity := by
  rw [room, limit_eq_ok, decide_eq_true_iff]

theorem count_eq_ok {n k : Nat} : count n = .ok k ↔ isCount n = true ∧ k = n := by
  rw [count, bind_eq_ok]
  constructor
  · rintro ⟨u, hu, hk⟩
    exact ⟨limit_eq_ok.1 hu, (pure_eq_ok.1 hk).symm⟩
  · rintro ⟨hn, rfl⟩
    exact ⟨(), limit_eq_ok.2 hn, rfl⟩

theorem Logged.bind_eq_ok {x : Logged α} {f : α → Logged β} {b : β} :
    (x >>= f).outcome = .ok b ↔ ∃ a, x.outcome = .ok a ∧ (f a).outcome = .ok b := by
  rw [Logged.outcome_bind, BlockAdmm.bind_eq_ok]

/-- A fold that reached the end went through a value for the head. -/
theorem foldlM_cons_eq_ok {f : σ → α → Outcome σ} {s t : σ} {x : α} {xs : List α} :
    (x :: xs).foldlM f s = .ok t ↔ ∃ r, f s x = .ok r ∧ xs.foldlM f r = .ok t := by
  rw [List.foldlM_cons, bind_eq_ok]

theorem foldlM_nil_eq_ok {f : σ → α → Outcome σ} {s t : σ} :
    ([] : List α).foldlM f s = .ok t ↔ s = t := pure_eq_ok

/-- What every step keeps, a fold keeps. -/
theorem foldlM_invariant {f : σ → α → Outcome σ} (P : σ → Prop) {xs : List α} {s t : σ}
    (step : ∀ x ∈ xs, ∀ s s', P s → f s x = .ok s' → P s') (hs : P s)
    (h : xs.foldlM f s = .ok t) : P t := by
  induction xs generalizing s with
  | nil => exact foldlM_nil_eq_ok.1 h ▸ hs
  | cons x xs ih =>
    obtain ⟨r, hr, ht⟩ := foldlM_cons_eq_ok.1 h
    have hP := step x List.mem_cons_self s r hs hr
    exact ih (fun y hy => step y (List.mem_cons_of_mem x hy)) hP ht

/-- Where every step has a value that keeps it, so has a fold. -/
theorem exists_foldlM {f : σ → α → Outcome σ} (P : σ → Prop) {xs : List α} {s : σ}
    (step : ∀ x ∈ xs, ∀ s, P s → ∃ s', f s x = .ok s' ∧ P s') (hs : P s) :
    ∃ t, xs.foldlM f s = .ok t ∧ P t := by
  induction xs generalizing s with
  | nil => exact ⟨s, rfl, hs⟩
  | cons x xs ih =>
    obtain ⟨r, hr, hP⟩ := step x List.mem_cons_self s hs
    obtain ⟨t, ht, hP⟩ := ih (fun y hy => step y (List.mem_cons_of_mem x hy)) hP
    exact ⟨t, foldlM_cons_eq_ok.2 ⟨r, hr, ht⟩, hP⟩

/-- The same of what was reached when a step may have ended in a fault. -/
theorem advance_invariant {step : σ → α → Outcome σ} (P : σ → Prop) {xs : List α} {s : σ}
    (hstep : ∀ x ∈ xs, ∀ s s', P s → step s x = .ok s' → P s') (hs : P s) : P (advance step s xs).1 := by
  induction xs generalizing s with
  | nil => exact hs
  | cons x xs ih =>
    rw [advance]
    cases h : step s x with
    | error f => exact hs
    | ok s' => exact ih (fun y hy => hstep y (List.mem_cons_of_mem x hy)) (hstep x List.mem_cons_self s s' hs h)

/-- What every step adds, a fold adds up. -/
theorem foldlM_sum {M : Type} [AddCommMonoid M] {f : σ → α → Outcome σ} (measure : σ → M) (g : α → M)
    {xs : List α} {s t : σ}
    (step : ∀ x ∈ xs, ∀ s s', f s x = .ok s' → measure s' = measure s + g x)
    (h : xs.foldlM f s = .ok t) : measure t = measure s + (xs.map g).sum := by
  induction xs generalizing s with
  | nil =>
    rw [foldlM_nil_eq_ok.1 h, List.map_nil, List.sum_nil, add_zero]
  | cons x xs ih =>
    obtain ⟨r, hr, ht⟩ := foldlM_cons_eq_ok.1 h
    rw [ih (fun y hy => step y (List.mem_cons_of_mem x hy)) ht, step x List.mem_cons_self s r hr,
      List.map_cons, List.sum_cons, add_assoc]

/-- A map over a list has a value where every entry has one. -/
theorem mapM_eq_ok {f : α → Outcome β} {xs : List α} {ys : List β} :
    xs.mapM f = .ok ys ↔ List.Forall₂ (fun x y => f x = .ok y) xs ys := by
  induction xs generalizing ys with
  | nil =>
    rw [List.mapM_nil, pure_eq_ok, List.forall₂_nil_left_iff]
    exact eq_comm
  | cons x xs ih =>
    rw [List.mapM_cons, bind_eq_ok, List.forall₂_cons_left_iff]
    constructor
    · rintro ⟨y, hy, h⟩
      obtain ⟨zs, hzs, h⟩ := bind_eq_ok.1 h
      exact ⟨y, zs, hy, ih.1 hzs, (pure_eq_ok.1 h).symm⟩
    · rintro ⟨y, zs, hy, hzs, rfl⟩
      exact ⟨y, hy, bind_eq_ok.2 ⟨zs, ih.2 hzs, rfl⟩⟩

/-- What lists have in step, each entry of the second has with an entry of the first. -/
theorem exists_of_forall₂ {P : α → β → Prop} {xs : List α} {ys : List β}
    (h : List.Forall₂ P xs ys) {y : β} (hy : y ∈ ys) : ∃ x ∈ xs, P x y := by
  induction h with
  | nil => exact absurd hy List.not_mem_nil
  | cons hxy _ ih =>
    rcases List.mem_cons.1 hy with rfl | hy
    · exact ⟨_, List.mem_cons_self, hxy⟩
    · obtain ⟨x, hx, hxy⟩ := ih hy
      exact ⟨x, List.mem_cons_of_mem _ hx, hxy⟩

/-- The values of a map over the numbers below a bound, by index. -/
theorem getD_of_mapM_range {f : Nat → Outcome β} {n : Nat} {ys : List β}
    (h : (List.range n).mapM f = .ok ys) (d : β) :
    ys.length = n ∧ ∀ i, i < n → f i = .ok (ys.toArray.getD i d) := by
  have h2 := mapM_eq_ok.1 h
  have hlen : ys.length = n := by rw [← h2.length_eq, List.length_range]
  refine ⟨hlen, fun i hi => ?_⟩
  have hi' : i < ys.length := by omega
  have hget := h2.get (i := i) (by rw [List.length_range]; exact hi) hi'
  rw [List.get_eq_getElem, List.getElem_range, List.get_eq_getElem] at hget
  rw [hget, Array.getD, dif_pos (by rw [List.size_toArray]; exact hi')]
  rfl

/-! ## Compilations -/

namespace Compile

variable {R : Type} {p : Provider R} {s t : Session R}

theorem run_pure (a : α) : (pure a : Compile R α).runFrom p s = (.ok a, s) := rfl

theorem run_get : (get : Compile R (Session R)).runFrom p s = (.ok s, s) := rfl

theorem run_read : (read : Compile R (Provider R)).runFrom p s = (.ok p, s) := rfl

theorem run_modify (f : Session R → Session R) :
    (modify f : Compile R Unit).runFrom p s = (.ok (), f s) := rfl

theorem run_refuse (e : SolverError) :
    (refuse e : Compile R α).runFrom p s = (.error (.failed e), s) := rfl

theorem run_bind (x : Compile R α) (f : α → Compile R β) (p : Provider R) (s : Session R) :
    (x >>= f).runFrom p s = match x.runFrom p s with
      | (.ok a, r) => (f a).runFrom p r
      | (.error e, r) => (.error e, r) := by
  have h : (x >>= f).runFrom p s
      = (match x.runFrom p s with | (o, r) => ExceptT.bindCont (fun a => f a p) o r) := rfl
  rw [h]
  rcases x.runFrom p s with ⟨o, r⟩
  cases o <;> rfl

theorem run_bind_eq_ok {x : Compile R α} {f : α → Compile R β} {b : β} :
    (x >>= f).runFrom p s = (.ok b, t) ↔
      ∃ a r, x.runFrom p s = (.ok a, r) ∧ (f a).runFrom p r = (.ok b, t) := by
  rw [run_bind]
  rcases x.runFrom p s with ⟨o, r⟩
  cases o with
  | error e =>
    constructor
    · intro h; cases h
    · rintro ⟨a, r', h, -⟩; cases h
  | ok a =>
    constructor
    · intro h; exact ⟨a, r, rfl, h⟩
    · rintro ⟨a', r', h, hf⟩; cases h; exact hf

theorem run_pure_eq_ok {a b : α} :
    (pure a : Compile R α).runFrom p s = (.ok b, t) ↔ a = b ∧ s = t := by
  rw [run_pure, Prod.mk.injEq, Except.ok.injEq]

theorem run_liftM_eq_ok {o : Outcome α} {b : α} :
    (liftM o : Compile R α).runFrom p s = (.ok b, t) ↔ o = .ok b ∧ s = t := by
  show (o, s) = _ ↔ _
  rw [Prod.mk.injEq]

theorem run_refuse_ne_ok {e : SolverError} {b : α} :
    (refuse e : Compile R α).runFrom p s ≠ (.ok b, t) := by
  intro h
  cases h

theorem run_get_eq_ok {r : Session R} :
    (get : Compile R (Session R)).runFrom p s = (.ok r, t) ↔ r = s ∧ s = t := by
  show (Except.ok s, s) = _ ↔ _
  rw [Prod.mk.injEq, Except.ok.injEq, eq_comm (a := r)]

theorem run_modify_eq_ok {f : Session R → Session R} {u : Unit} :
    (modify f : Compile R Unit).runFrom p s = (.ok u, t) ↔ f s = t := by
  show (Except.ok (), f s) = _ ↔ _
  rw [Prod.mk.injEq]
  exact ⟨fun h => h.2, fun h => ⟨rfl, h⟩⟩

theorem run_read_eq_ok {q : Provider R} :
    (read : Compile R (Provider R)).runFrom p s = (.ok q, t) ↔ q = p ∧ s = t := by
  show (Except.ok p, s) = _ ↔ _
  rw [Prod.mk.injEq, Except.ok.injEq, eq_comm (a := q)]

theorem run_note_eq_ok {e : Event} {u : Unit} :
    (note e : Compile R Unit).runFrom p s = (.ok u, t) ↔ { s with events := s.events.push e } = t :=
  run_modify_eq_ok

theorem run_logged_eq_ok {x : Logged α} {b : α} :
    (logged x : Compile R α).runFrom p s = (.ok b, t) ↔
      x.outcome = .ok b ∧ { s with events := s.events ++ x.events } = t := by
  rw [logged, run_bind_eq_ok]
  constructor
  · rintro ⟨u, r, hr, h⟩
    obtain ⟨hb, rfl⟩ := run_liftM_eq_ok.1 h
    exact ⟨hb, run_modify_eq_ok.1 hr⟩
  · rintro ⟨hb, rfl⟩
    exact ⟨(), _, run_modify_eq_ok.2 rfl, run_liftM_eq_ok.2 ⟨hb, rfl⟩⟩

end Compile

end BlockAdmm
