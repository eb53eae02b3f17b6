/-
  Projections onto epigraphs.

  A point stays where it is if its bound is not below the value there and its components are not below the floor
  to which the domain raises them (`Keeps`).  For any other point there is a search, and what a search finds is
  never below the floor (`Searched.aboveFloor`).  So a point of the epigraph of `1 / y` or `-log y` with a small
  component is moved, although it need not be (`project_of_contains`, `project_moves`).

  The search looks for the root of the residual.  Doubling gives a bracket, in which the residual is positive on
  the left and not on the right, every round leaves a bracket (`Brackets.next`), and the place to look at is always
  inside.  So the bound of what was found is greater than that of the point, and it belongs to a residual that is
  small or to a bracket that is short (`project_of_lt`).  Where the function is steep, the second can be the case
  far from the boundary (`project_offBoundary`).
-/
import BlockAdmm.Proofs.Prox.Descent

namespace BlockAdmm.Epigraph

open Scalar ExactScalar

variable {R : Type} [ExactScalar R] {e : Epigraph R} {k : Nat} {v w x : Array R} {s t lo hi lambda : R}

/-! ## Points -/

/-- `e.pointOf v`: the part of the first variable. -/
def pointOf (e : Epigraph R) (v : Array R) : Array R := Layout.cut v ((e.layout.get? e.x).getD ⟨0, 0⟩)

/-- `e.boundOf v`: the entry of the second variable. -/
def boundOf (e : Epigraph R) (v : Array R) : R := Vec.entry v (e.layout.offset e.t)

/-- `e.Placed k`: two different variables of the layout, the first with `k` elements and the second with one. -/
structure Placed (k : Nat) (e : Epigraph R) : Prop extends e.Sized k where
  ne : e.x ≠ e.t

/-- `e.Contains v`: the point lies in the domain of the function, and the bound is not below the value there. -/
structure Contains (e : Epigraph R) (v : Array R) : Prop where
  domain : e.f.fullDomain = false → ∀ i, i < (e.pointOf v).size → 0 < Vec.entry (e.pointOf v) i
  value_le : e.value (e.pointOf v) ≤ e.boundOf v

/-- `e.AboveFloor v`: no component of the point is below the floor, if the function has one. -/
def AboveFloor (e : Epigraph R) (v : Array R) : Prop :=
  e.f.fullDomain = false →
    ∀ i, i < (e.pointOf v).size → SmoothFunction.feasibleFloor ≤ Vec.entry (e.pointOf v) i

namespace Placed

theorem pointOf_eq (he : e.Placed k) (v : Array R) : e.pointOf v = Layout.cut v ⟨e.layout.offset e.x, k⟩ := by
  rw [pointOf, Layout.get?_eq_some_of_size he.point]
  rfl

theorem size_pointOf (he : e.Placed k) (v : Array R) : (e.pointOf v).size = k := by
  rw [he.pointOf_eq]
  exact Vec.size_build ..

theorem entry_pointOf (he : e.Placed k) (v : Array R) {i : Nat} (hi : i < k) :
    Vec.entry (e.pointOf v) i = Vec.entry v (e.layout.offset e.x + i) := by
  rw [he.pointOf_eq]
  exact Vec.entry_build _ hi

omit [ExactScalar R] in
/-- The bound does not stand in the interval of the point. -/
theorem offset_ne (he : e.Placed k) {i : Nat} (hi : i < k) :
    e.layout.offset e.x + i ≠ e.layout.offset e.t := by
  intro heq
  have hx := Layout.cellAt_offset he.point hi
  have ht := Layout.cellAt_offset he.bound one_pos
  rw [Nat.add_zero, ← heq, hx] at ht
  exact he.ne (congrArg Sigma.fst ht)

/-- The parts of a flat vector. -/
theorem split_eq_ok (he : e.Placed k) {blocks : BlockVector R} (h : e.layout.split v = .ok blocks) :
    blocks.getOrZero e.x 0 = .ok (e.pointOf v) ∧ blocks.getOrZero e.t 1 = .ok #[e.boundOf v] := by
  have hget := fun id => (Layout.get?_split h id).2
  rw [BlockVector.getOrZero, BlockVector.getOrZero, hget, hget, Layout.get?_eq_some_of_size he.point,
    Layout.get?_eq_some_of_size he.bound, he.pointOf_eq]
  exact ⟨rfl, rfl⟩

/-- The parts come out again where they were put. -/
theorem parts_place (he : e.Placed k) (hv : v.size = e.layout.n) (hx : x.size = k)
    (h : e.place v x t = .ok w) : e.pointOf w = x ∧ e.boundOf w = t := by
  rw [place, Layout.get?_eq_some_of_size he.point, Layout.get?_eq_some_of_size he.bound] at h
  obtain ⟨u, hu, h⟩ := bind_eq_ok.1 h
  obtain ⟨husize, hpoint, -⟩ := Vec.overwrite_eq_ok hu
  obtain ⟨-, hbound, hkeep⟩ := Vec.overwrite_eq_ok h
  have hfit := Layout.offset_add_le he.point
  refine ⟨Vec.ext_entry ((he.size_pointOf w).trans hx.symm) fun i hi => ?_, hbound 0 one_pos⟩
  rw [he.size_pointOf] at hi
  have hne := he.offset_ne hi
  rw [he.entry_pointOf w hi, hkeep _ (by omega) ?_]
  · exact hpoint i (hx.symm ▸ hi)
  · show e.layout.offset e.x + i < e.layout.offset e.t ∨ e.layout.offset e.t + 1 ≤ e.layout.offset e.x + i
    omega

end Placed

/-! ## Members -/

/-- Whether a point is kept. -/
theorem equal_feasible_iff (f : SmoothFunction) (y : Array R) : Vec.equal (f.feasible y) y = true ↔
    (f.fullDomain = false → ∀ i, i < y.size → SmoothFunction.feasibleFloor ≤ Vec.entry y i) := by
  have hentries : Vec.equal (f.feasible y) y = true ↔
      ∀ i, i < y.size → f.raised (Vec.entry y i) = Vec.entry y i := by
    constructor
    · intro h i hi
      rw [← f.entry_feasible hi, Vec.eq_of_equal h]
    · intro h
      rw [show f.feasible y = y from Vec.ext_entry (f.size_feasible y) fun i hi => ?_]
      · simp [Vec.equal]
      · rw [f.size_feasible] at hi
        rw [f.entry_feasible hi, h i hi]
  rw [hentries]
  cases hdomain : f.fullDomain with
  | true =>
    constructor
    · intro _ h
      cases h
    · intro _ i _
      exact SmoothFunction.raised_of_full hdomain _
  | false =>
    simp only [SmoothFunction.raised_of_restricted hdomain, max_eq_left_iff, forall_const]

/-- The point that a search puts in the place of another: a root in a bracket, with the point that belongs to it. -/
def Searched (e : Epigraph R) (v w : Array R) : Prop :=
  ∃ b r, (e.bracket (e.pointOf v) (e.boundOf v) maxDoublings 0 1).outcome = .ok b ∧
    (e.rounds (e.pointOf v) (e.boundOf v) maxRounds 0 b.1 b.2 (0.5 * (b.1 + b.2))).outcome = .ok r ∧
    e.place v r.1.point (e.boundOf v + r.2) = .ok w

/-- `e.Keeps v`: the projection leaves the point as it is, without a search. -/
def Keeps (e : Epigraph R) (v : Array R) : Prop := e.AboveFloor v ∧ e.value (e.pointOf v) ≤ e.boundOf v

theorem keeps_iff (e : Epigraph R) (v : Array R) :
    (Vec.equal (e.f.feasible (e.pointOf v)) (e.pointOf v) && decide (e.value (e.pointOf v) ≤ e.boundOf v)) = true
      ↔ e.Keeps v := by
  rw [Bool.and_eq_true, decide_eq_true_iff, equal_feasible_iff]
  exact Iff.rfl

theorem Placed.project_of_keeps (he : e.Placed k) (hv : v.size = e.layout.n) (hkeeps : e.Keeps v) :
    (e.project v).outcome = .ok v := by
  have hsplit : ∃ blocks, e.layout.split v = .ok blocks :=
    ⟨_, bind_eq_ok.2 ⟨(), promise_eq_ok.2 (beq_iff_eq.2 hv), rfl⟩⟩
  obtain ⟨blocks, hblocks⟩ := hsplit
  obtain ⟨hpoint, hbound⟩ := he.split_eq_ok hblocks
  refine Logged.bind_eq_ok.2 ⟨blocks, hblocks, Logged.bind_eq_ok.2 ⟨_, hpoint, Logged.bind_eq_ok.2 ⟨_, hbound,
    Logged.bind_eq_ok.2 ⟨(), promise_eq_ok.2 rfl, ?_⟩⟩⟩⟩
  exact congrArg Logged.outcome (if_pos ((e.keeps_iff v).2 hkeeps))

/-- For every other point there is a search. -/
theorem Placed.keeps_or_searched (he : e.Placed k) (hw : (e.project v).outcome = .ok w) :
    e.Keeps v ∧ w = v ∨ ¬ e.Keeps v ∧ v.size = e.layout.n ∧ e.Searched v w := by
  obtain ⟨blocks, hblocks, hw⟩ := Logged.bind_eq_ok.1 hw
  obtain ⟨hpoint, hbound⟩ := he.split_eq_ok hblocks
  have hv := (Layout.get?_split hblocks e.x).1
  obtain ⟨vx, hvx, hw⟩ := Logged.bind_eq_ok.1 hw
  obtain ⟨vt, hvt, hw⟩ := Logged.bind_eq_ok.1 hw
  obtain ⟨_, -, hw⟩ := Logged.bind_eq_ok.1 hw
  obtain rfl : e.pointOf v = vx := Except.ok.inj (hpoint.symm.trans hvx)
  obtain rfl : #[e.boundOf v] = vt := Except.ok.inj (hbound.symm.trans hvt)
  dsimp only at hw
  split at hw
  · rename_i hkeeps
    cases hw
    exact Or.inl ⟨(e.keeps_iff v).1 hkeeps, rfl⟩
  · rename_i hkeeps
    obtain ⟨b, hb, hw⟩ := Logged.bind_eq_ok.1 hw
    obtain ⟨r, hr, hw⟩ := Logged.bind_eq_ok.1 hw
    exact Or.inr ⟨mt (e.keeps_iff v).2 hkeeps, hv, b, r, hb, hr, hw⟩

/-! ## Probes -/

variable {p : Probe R}

theorem probe_eq_ok (h : (e.probe x s lambda).outcome = .ok p) :
    ((e.objective x.size (1 / lambda)).minimize x).outcome = .ok p.point ∧
      p.residual = e.value p.point - s - lambda := by
  obtain ⟨y, hy, h⟩ := Logged.bind_eq_ok.1 h
  cases h
  exact ⟨hy, rfl⟩

/-- The point of a probe was moved into the domain, so it is not below the floor. -/
theorem le_entry_probe (hdomain : e.f.fullDomain = false) (h : (e.probe x s lambda).outcome = .ok p) :
    p.point.size = x.size ∧ ∀ i, i < x.size → SmoothFunction.feasibleFloor ≤ Vec.entry p.point i := by
  have hs : (⟨Vec.build x.size fun _ => 1, Vec.zero x.size⟩ : Scaling R).Sized x.size :=
    ⟨Vec.size_build .., Vec.size_zero _⟩
  have hmap : (e.objective x.size (1 / lambda)).map.Sized x.size x.size := ⟨rfl, hs⟩
  obtain ⟨u, hu, hpoint⟩ := Newton.Objective.moved_of_minimize hmap rfl (probe_eq_ok h).1
  rw [hpoint]
  refine ⟨Newton.Objective.size_feasible hmap hu, fun i hi => ?_⟩
  have hbeta : Vec.entry (Vec.build x.size fun _ => (1 : R)) i = 1 := Vec.entry_build _ hi
  have hcomponent := Newton.Objective.component_feasible (o := e.objective x.size (1 / lambda)) rfl hs rfl hu hi
    (hbeta.trans_ne one_ne_zero)
  rw [Scaling.component, hbeta, one_mul, Vec.entry_zero, add_zero, SmoothFunction.raised_of_restricted hdomain]
    at hcomponent
  rw [hcomponent]
  exact le_max_right _ _

/-! ## Brackets -/

/-- `e.Brackets x s lo hi`: the residual is positive at `lo`, or `lo` is zero, and it is not positive at `hi`. -/
structure Brackets (e : Epigraph R) (x : Array R) (s lo hi : R) : Prop where
  nonneg : 0 ≤ lo
  lt : lo < hi
  low : lo = 0 ∨ ∃ p, (e.probe x s lo).outcome = .ok p ∧ 0 < p.residual
  high : ∃ p, (e.probe x s hi).outcome = .ok p ∧ p.residual ≤ 0

/-- Doubling ends with a bracket. -/
theorem brackets_of_bracket {doublings : Nat} {b : R × R} (hnonneg : 0 ≤ lo) (hlt : lo < hi)
    (hlow : lo = 0 ∨ ∃ p, (e.probe x s lo).outcome = .ok p ∧ 0 < p.residual)
    (h : (e.bracket x s doublings lo hi).outcome = .ok b) : e.Brackets x s b.1 b.2 := by
  induction doublings generalizing lo hi with
  | zero =>
    obtain ⟨p, hp, h⟩ := Logged.bind_eq_ok.1 h
    split at h
    · cases h
    · rename_i hpos
      cases h
      exact ⟨hnonneg, hlt, hlow, p, hp, not_lt.1 hpos⟩
  | succ doublings ih =>
    obtain ⟨p, hp, h⟩ := Logged.bind_eq_ok.1 h
    split at h
    · rename_i hpos
      refine ih (hnonneg.trans hlt.le) ?_ (Or.inr ⟨p, hp, hpos⟩) h
      rw [two_eq]
      linarith
    · rename_i hpos
      cases h
      exact ⟨hnonneg, hlt, hlow, p, hp, not_lt.1 hpos⟩

/-- A round leaves a bracket around the next place to look at. -/
theorem Brackets.next (h : e.Brackets x s lo hi) (hlo : lo < lambda) (hhi : lambda < hi)
    (hp : (e.probe x s lambda).outcome = .ok p) :
    e.Brackets x s (if 0 < p.residual then lambda else lo) (if 0 < p.residual then hi else lambda) := by
  split
  · rename_i hpos
    exact ⟨h.nonneg.trans hlo.le, hhi, Or.inr ⟨p, hp, hpos⟩, h.high⟩
  · rename_i hpos
    exact ⟨h.nonneg, hlo, h.low, p, hp, not_lt.1 hpos⟩

/-- Where the rounds end, there is a bracket around the place, and the residual or the bracket is small enough. -/
theorem brackets_of_rounds {left round : Nat} {r : Probe R × R} (h : e.Brackets x s lo hi) (hlo : lo < lambda)
    (hhi : lambda < hi) (hr : (e.rounds x s left round lo hi lambda).outcome = .ok r) :
    (e.probe x s r.2).outcome = .ok r.1 ∧ ∃ lo hi, e.Brackets x s lo hi ∧ lo < r.2 ∧ r.2 < hi ∧
      isRoot r.1 s r.2 lo hi = true := by
  induction left generalizing round lo hi lambda with
  | zero => cases hr
  | succ left ih =>
    obtain ⟨p, hp, hr⟩ := Logged.bind_eq_ok.1 hr
    obtain ⟨_, -, hr⟩ := Logged.bind_eq_ok.1 hr
    split at hr
    · rename_i hroot
      cases hr
      exact ⟨hp, lo, hi, h, hlo, hhi, hroot⟩
    · have hnext := h.next hlo hhi hp
      -- the next place is inside, or else it is the middle
      have hinside {next : R} (lo' hi' : R) (hlt : lo' < hi') :
          lo' < (if (decide (lo' < next) && decide (next < hi')) = true then next else 0.5 * (lo' + hi')) ∧
          (if (decide (lo' < next) && decide (next < hi')) = true then next else 0.5 * (lo' + hi')) < hi' := by
        split
        · rename_i hboth
          rw [Bool.and_eq_true, decide_eq_true_iff, decide_eq_true_iff] at hboth
          exact hboth
        · rw [half_eq]
          constructor <;> linarith
      exact ih hnext (hinside _ _ hnext.lt).1 (hinside _ _ hnext.lt).2 hr

/-- What a search finds: the point that belongs to the rise of the bound, which is in a bracket. -/
theorem Searched.lands (he : e.Placed k) (hv : v.size = e.layout.n) (h : e.Searched v w) :
    ∃ p, (e.probe (e.pointOf v) (e.boundOf v) (e.boundOf w - e.boundOf v)).outcome = .ok p ∧
      p.point = e.pointOf w ∧ ∃ lo hi, e.Brackets (e.pointOf v) (e.boundOf v) lo hi ∧
        lo < e.boundOf w - e.boundOf v ∧ e.boundOf w - e.boundOf v < hi ∧
        isRoot p (e.boundOf v) (e.boundOf w - e.boundOf v) lo hi = true := by
  obtain ⟨b, r, hb, hr, hw⟩ := h
  have hbracket := brackets_of_bracket le_rfl zero_lt_one (Or.inl rfl) hb
  have hmiddle : b.1 < 0.5 * (b.1 + b.2) ∧ 0.5 * (b.1 + b.2) < b.2 := by
    have hlt := hbracket.lt
    rw [half_eq]
    constructor <;> linarith
  obtain ⟨hp, lo, hi, hroot⟩ := brackets_of_rounds hbracket hmiddle.1 hmiddle.2 hr
  have hsize : r.1.point.size = k := by
    have hends := (e.ends_probe (E := fun _ => True) (e.pointOf v) (e.boundOf v) r.2).of_eq_ok hp
    exact hends.trans (he.size_pointOf v)
  obtain ⟨hpoint, hbound⟩ := he.parts_place hv hsize hw
  have hrise : e.boundOf w - e.boundOf v = r.2 := by rw [hbound, add_sub_cancel_left]
  rw [hrise]
  exact ⟨r.1, hp, hpoint.symm, lo, hi, hroot⟩

/-- A point that a search found is not below the floor. -/
theorem Searched.aboveFloor (he : e.Placed k) (hv : v.size = e.layout.n) (h : e.Searched v w) :
    e.AboveFloor w := by
  intro hdomain
  obtain ⟨p, hp, hpoint, -⟩ := h.lands he hv
  obtain ⟨hsize, hle⟩ := le_entry_probe hdomain hp
  rw [← hpoint, hsize]
  exact hle

/-! ## Projections -/

theorem Placed.project_ne (he : e.Placed k) (hbelow : ¬ e.AboveFloor v) : (e.project v).outcome ≠ .ok v := by
  intro hkept
  rcases he.keeps_or_searched hkept with ⟨hkeeps, -⟩ | ⟨-, hv, hsearched⟩
  · exact hbelow hkeeps.1
  · exact hbelow (hsearched.aboveFloor he hv)

/-- A point of the epigraph stays if its components are not below the floor.  Otherwise it does not stay, although
    it is a point of the epigraph. -/
theorem project_of_contains (he : e.Placed k) (hv : v.size = e.layout.n) (hmem : e.Contains v) :
    (e.AboveFloor v → (e.project v).outcome = .ok v) ∧ (¬ e.AboveFloor v → (e.project v).outcome ≠ .ok v) := by
  constructor
  · intro habove
    exact he.project_of_keeps hv ⟨habove, hmem.value_le⟩
  · exact he.project_ne

/-- The epigraph of a function of one variable. -/
def plain (f : SmoothFunction) (alpha : ℚ) : Epigraph ℚ where
  f := f
  alpha := alpha
  layout := ⟨⟨[("t", 1), ("x", 1)], List.pairwise_pair.2 (by decide)⟩⟩
  x := "x"
  t := "t"

theorem placed_plain (f : SmoothFunction) (alpha : ℚ) : (plain f alpha).Placed 1 where
  point := rfl
  bound := rfl
  ne := by
    show "x" ≠ "t"
    decide

/-- The epigraph of `1 / y`. -/
def reciprocal : Epigraph ℚ := plain .invPos 1

theorem contains_reciprocal {t y : ℚ} (hy : 0 < y) (hle : reciprocal.value #[y] ≤ t) :
    reciprocal.Contains #[t, y] := by
  refine ⟨fun _ i hi => ?_, hle⟩
  obtain rfl : i = 0 := Nat.lt_one_iff.1 hi
  exact hy

/-- A point of it with a small component does not stay. -/
theorem project_moves : reciprocal.Placed 1 ∧ 0 < reciprocal.alpha ∧
    reciprocal.Contains #[100000000, 1 / 10000000] ∧
    (reciprocal.project #[100000000, 1 / 10000000]).outcome ≠ .ok #[100000000, 1 / 10000000] := by
  refine ⟨placed_plain _ _, one_pos, contains_reciprocal (by norm_num) (by decide +kernel), ?_⟩
  refine (placed_plain _ _).project_ne fun habove => ?_
  have hle : (SmoothFunction.feasibleFloor : ℚ) ≤ 1 / 10000000 := habove rfl 0 one_pos
  exact absurd hle (by decide +kernel)

/-- One with a greater component does. -/
theorem project_of_contains_one : reciprocal.Placed 1 ∧ #[5, 1].size = reciprocal.layout.n ∧
    reciprocal.Contains #[5, 1] ∧ (reciprocal.project #[5, 1]).outcome = .ok #[5, 1] := by
  have hmem : reciprocal.Contains #[5, 1] := contains_reciprocal one_pos (by decide +kernel)
  refine ⟨placed_plain _ _, rfl, hmem, (project_of_contains (placed_plain _ _) rfl hmem).1 fun _ i hi => ?_⟩
  obtain rfl : i = 0 := Nat.lt_one_iff.1 hi
  show (SmoothFunction.feasibleFloor : ℚ) ≤ 1
  decide +kernel

/-- A point outside of the epigraph goes to one with a greater bound.  That is on the boundary up to the tolerance,
    or it belongs to a rise in a bracket that is as short as the tolerance. -/
theorem project_of_lt (he : e.Placed k) (hout : e.boundOf v < e.value (e.pointOf v))
    (hw : (e.project v).outcome = .ok w) :
    e.boundOf v < e.boundOf w ∧
      (∃ p, (e.probe (e.pointOf v) (e.boundOf v) (e.boundOf w - e.boundOf v)).outcome = .ok p ∧
        p.point = e.pointOf w) ∧
      (|e.value (e.pointOf w) - e.boundOf w| ≤ tolerance * (1 + |e.boundOf v| + (e.boundOf w - e.boundOf v)) ∨
        ∃ lo hi, e.Brackets (e.pointOf v) (e.boundOf v) lo hi ∧ lo < e.boundOf w - e.boundOf v ∧
          e.boundOf w - e.boundOf v < hi ∧ hi - lo ≤ tolerance * (1 + hi)) := by
  rcases he.keeps_or_searched hw with ⟨hkeeps, -⟩ | ⟨-, hv, hsearched⟩
  · exact absurd hout hkeeps.2.not_gt
  · obtain ⟨p, hp, hpoint, lo, hi, hbrackets, hlo, hhi, hroot⟩ := hsearched.lands he hv
    refine ⟨sub_pos.1 (hbrackets.nonneg.trans_lt hlo), ⟨p, hp, hpoint⟩, ?_⟩
    have hresidual : p.residual = e.value (e.pointOf w) - e.boundOf w := by
      rw [(probe_eq_ok hp).2, hpoint]
      ring
    rw [isRoot, Bool.or_eq_true, decide_eq_true_iff, decide_eq_true_iff] at hroot
    rcases hroot with hsmall | hshort
    · left
      rw [Lu.scalarAbs_eq, Lu.scalarAbs_eq, hresidual] at hsmall
      exact hsmall
    · exact Or.inr ⟨lo, hi, hbrackets, hlo, hhi, hshort⟩

/-- The epigraph of a steep square. -/
def steepSquare : Epigraph ℚ := plain .sumSquare 1000000

/-- For a point just below it the bracket becomes short long before the residual is small. -/
theorem project_offBoundary : steepSquare.Placed 1 ∧ 0 < steepSquare.alpha ∧
    steepSquare.boundOf #[999999, 1] < steepSquare.value (steepSquare.pointOf #[999999, 1]) ∧
    ∃ w, (steepSquare.project #[999999, 1]).outcome = .ok w ∧
      ¬ |steepSquare.value (steepSquare.pointOf w) - steepSquare.boundOf w|
        ≤ tolerance * (1 + |steepSquare.boundOf #[999999, 1]|
            + (steepSquare.boundOf w - steepSquare.boundOf #[999999, 1])) := by
  obtain ⟨w, hw, hvalue⟩ := exists_eq_ok_and (x := (steepSquare.project #[999999, 1]).outcome)
    (p := fun w => w == #[2147481500516353 / 2147483648, 16777216 / 16792841]) (by decide +kernel)
  rw [eq_of_beq hvalue] at hw
  exact ⟨placed_plain _ _, by decide, by decide +kernel, _, hw, by decide +kernel⟩

/-- The epigraph of the square. -/
def square : Epigraph ℚ := plain .sumSquare 1

/-- A point outside of it, for which the search finds the root at once. -/
theorem project_of_lt_square : square.Placed 1 ∧
    square.boundOf #[1 / 2, 2] < square.value (square.pointOf #[1 / 2, 2]) ∧
    (square.project #[1 / 2, 2]).outcome = .ok #[1, 1] ∧
    ∃ p, (square.probe #[2] (1 / 2) (1 - 1 / 2)).outcome = .ok p ∧ p.point = #[1] := by
  have hout : square.boundOf #[1 / 2, 2] < square.value (square.pointOf #[1 / 2, 2]) := by decide +kernel
  obtain ⟨w, hw, hvalue⟩ := exists_eq_ok_and (x := (square.project #[1 / 2, 2]).outcome)
    (p := fun w => w == #[1, 1]) (by decide +kernel)
  rw [eq_of_beq hvalue] at hw
  exact ⟨placed_plain _ _, hout, hw, (project_of_lt (placed_plain _ _) hout hw).2.1⟩

end BlockAdmm.Epigraph
