/-
  Sweeps that settle.

  Both Jacobi methods go through all pairs of columns, again and again, until a sweep makes no turn.  Of a
  single visit only two things matter: it changes nothing or counts one turn more (`Counts`), and it keeps an
  invariant that bounds the turns.  Then every sweep but the last adds a turn, so the sweeps end within as
  many rounds as there can be turns; and since the last one changed nothing, each of its pairs was visited in
  the very state that the loop returns (`exists_settled`).
-/
import BlockAdmm.Proofs.Exact
import BlockAdmm.Dense.Singular

namespace BlockAdmm

/-! ## A loop of sweeps -/

section Settle

variable {σ α : Type} {turns : σ → Nat} {visit : σ → α → σ} {pairs : σ → List α} {s : σ} {xs : List α}

/-- `settle turns visit pairs rounds s`: sweeps over all pairs until one makes no turn. -/
def settle (turns : σ → Nat) (visit : σ → α → σ) (pairs : σ → List α) : Nat → σ → Outcome σ
  | 0, _ => .error .unending
  | rounds + 1, s =>
    let next := (pairs s).foldl visit s
    if turns next = turns s then .ok next else settle turns visit pairs rounds next

/-- `Counts turns visit`: a visit changes nothing or counts one turn more. -/
def Counts (turns : σ → Nat) (visit : σ → α → σ) : Prop :=
  ∀ s x, visit s x = s ∨ turns (visit s x) = turns s + 1

namespace Counts

theorem le_foldl (h : Counts turns visit) (xs : List α) (s : σ) : turns s ≤ turns (xs.foldl visit s) := by
  induction xs generalizing s with
  | nil => exact le_rfl
  | cons x xs ih =>
    refine le_trans ?_ (ih (visit s x))
    rcases h s x with h | h
    · rw [h]
    · rw [h]
      exact Nat.le_succ _

/-- A sweep without a turn changes nothing, so all of its visits are to one state. -/
theorem idle (h : Counts turns visit) (hturns : turns (xs.foldl visit s) = turns s) :
    xs.foldl visit s = s ∧ ∀ x ∈ xs, visit s x = s := by
  induction xs with
  | nil => exact ⟨rfl, fun _ hx => absurd hx List.not_mem_nil⟩
  | cons x xs ih =>
    rw [List.foldl_cons] at hturns ⊢
    rcases h s x with hx | hx
    · rw [hx] at hturns ⊢
      obtain ⟨hsame, hall⟩ := ih hturns
      exact ⟨hsame, List.forall_mem_cons.2 ⟨hx, hall⟩⟩
    · have hle := h.le_foldl xs (visit s x)
      omega

end Counts

/-- An invariant that bounds the turns bounds the rounds, and it holds in the end. -/
theorem exists_settled {P : σ → Prop} {bound : Nat} (hcounts : Counts turns visit)
    (hpairs : ∀ s, P s → pairs s = xs) (hkeep : ∀ s, P s → ∀ x ∈ xs, P (visit s x))
    (hbound : ∀ s, P s → turns s ≤ bound) (hs : P s) :
    ∃ t, P t ∧ (∀ x ∈ xs, visit t x = t) ∧
      ∀ rounds, bound < turns s + rounds → settle turns visit pairs rounds s = .ok t := by
  -- on the turns that are left: every sweep but the last takes one of them
  induction hleft : bound - turns s using Nat.strong_induction_on generalizing s with
  | _ left ih =>
    subst hleft
    have hle := hbound s hs
    have hsweep : P (xs.foldl visit s) := List.foldlRecOn xs visit hs hkeep
    rcases Nat.eq_or_lt_of_le (hcounts.le_foldl xs s) with hidle | hmore
    · obtain ⟨hsame, hall⟩ := hcounts.idle hidle.symm
      refine ⟨s, hs, hall, fun rounds hrounds => ?_⟩
      obtain ⟨r, rfl⟩ : ∃ r, rounds = r + 1 := ⟨rounds - 1, by omega⟩
      rw [settle, hpairs s hs, if_pos hidle.symm, hsame]
    · have hle' := hbound _ hsweep
      obtain ⟨t, ht, hall, hrun⟩ := ih _ (by omega) hsweep rfl
      refine ⟨t, ht, hall, fun rounds hrounds => ?_⟩
      obtain ⟨r, rfl⟩ : ∃ r, rounds = r + 1 := ⟨rounds - 1, by omega⟩
      rw [settle, hpairs s hs, if_neg hmore.ne']
      exact hrun r (by omega)

/-- The same with a real bound, from a start where no turn was made. -/
theorem exists_settled_below {P : σ → Prop} {bound : ℝ} (hcounts : Counts turns visit)
    (hpairs : ∀ s, P s → pairs s = xs) (hkeep : ∀ s, P s → ∀ x ∈ xs, P (visit s x))
    (hbound : ∀ s, P s → (turns s : ℝ) ≤ bound) (hs : P s) (hstart : turns s = 0) :
    ∃ t, P t ∧ (∀ x ∈ xs, visit t x = t) ∧
      ∀ rounds : Nat, bound < rounds → settle turns visit pairs rounds s = .ok t := by
  have hnonneg : 0 ≤ bound := (Nat.cast_nonneg _).trans (hbound s hs)
  obtain ⟨t, ht, hall, hrun⟩ :=
    exists_settled hcounts hpairs hkeep (fun s h => Nat.le_floor (hbound s h)) hs
  refine ⟨t, ht, hall, fun rounds hrounds => hrun rounds ?_⟩
  rw [hstart, Nat.zero_add]
  exact (Nat.floor_lt hnonneg).2 hrounds

end Settle

/-- A bound on the turns is below the number of rounds that it is given. -/
theorem lt_roundsFor (x : ℝ) : x < roundsFor x := by
  rw [roundsFor, Nat.cast_add]
  exact (Nat.le_ceil x).trans_lt (lt_add_of_pos_right _ (by norm_num))

variable {R : Type} [Scalar R]

theorem Eigen.sweeps_eq_settle (tol : R) (rounds : Nat) (st : Eigen.State R) :
    Eigen.sweeps tol rounds st = settle State.turns (visit tol) (fun st => pairsBelow st.s.n) rounds st := by
  induction rounds generalizing st with
  | zero => rfl
  | succ rounds ih => rw [sweeps, settle, sweep, ih]

theorem Singular.sweeps_eq_settle (eps : R) (rounds : Nat) (st : Singular.State R) :
    Singular.sweeps eps rounds st = settle State.turns (visit eps) (fun st => pairsBelow st.a.n) rounds st := by
  induction rounds generalizing st with
  | zero => rfl
  | succ rounds ih => rw [sweeps, settle, sweep, ih]

/-! ## The pairs of a sweep -/

theorem mem_pairsBelow {n p q : Nat} : (p, q) ∈ pairsBelow n ↔ p < q ∧ q < n := by
  simp only [pairsBelow, List.mem_flatMap, List.mem_range, List.mem_map, List.mem_range'_1, Prod.mk.injEq]
  constructor
  · rintro ⟨_, hp, _, hq, rfl, rfl⟩
    omega
  · rintro ⟨hpq, hq⟩
    exact ⟨p, by omega, q, by omega, rfl, rfl⟩

/-! ## Sums over the columns that have a value -/

/-- A sum over numbered values that leaves out those that are missing. -/
theorem foldl_values {R : Type} [ExactScalar R] (term : R → Nat → R) {add : R → Option R × Nat → R}
    (hadd : ∀ sum v i, add sum (v, i) = sum + v.elim 0 fun e => term e i) (value : Nat → Option R) (n : Nat) :
    ((List.range n).map value).zipIdx.foldl add 0 = ∑ i ∈ Finset.range n, (value i).elim 0 fun e => term e i := by
  induction n with
  | zero => rfl
  | succ n ih =>
    rw [List.range_succ, List.map_append, List.zipIdx_append, List.foldl_append, ih, Finset.sum_range_succ,
      List.length_map, List.length_range, Nat.zero_add, List.map_singleton, List.zipIdx_singleton, List.foldl_cons,
      hadd, List.foldl_nil]

end BlockAdmm
