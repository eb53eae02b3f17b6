/-
  The form of all constraints.

  Each constraint has a row of its own, named by its number, and numbers have different names.  So a step
  of the walk over the constraints meets a new name, and what it keeps then holds of the form of all of them
  (`Affine.buildConstraints_induction`).  The form has at every row the value of one constraint (`Written`),
  and there are no other rows.
-/
import BlockAdmm.Proofs.Build

namespace BlockAdmm

variable {R : Type} [ExactScalar R]

/-- Different constraints have rows of different names. -/
theorem nodup_rows {α : Type} (xs : List α) : (xs.zipIdx.map fun ci => toString ci.2).Nodup := by
  have hnames : (xs.zipIdx.map fun ci => toString ci.2) = (List.range' 0 xs.length).map Nat.repr := by
    rw [← List.zipIdx_map_snd 0 xs, List.map_map]
    rfl
  rw [hnames]
  exact List.Nodup.map (fun _ _ h => Nat.repr_injective h) (List.nodup_range')

/-- `Written data cs w f K`: the form of the numbered constraints `cs`. -/
structure Written (data : Provider R) (cs : List (Expr R × Nat)) (w : Marks R) (f : AffineForm R)
    (K : Coefs R) : Prop where
  single : ∀ ci ∈ cs, ∃ e, ci.1.args = [e]
  represents : f.a.Represents w K
  rows : ∀ r m, f.a.rowDims.get? r = some m → ∃ ci ∈ cs, r = toString ci.2 ∧ m = ci.1.leftDim
  sizes : ∀ r m, f.b.sizeAt? r = some m → ∃ ci ∈ cs, r = toString ci.2 ∧ m = ci.1.leftDim
  value : ∀ x r i, sumCells f.a.colDims K x r i + f.b.coord r i
    = (cs.map fun ci => if r = toString ci.2 ∧ i < ci.1.leftDim then ci.1.left data x i else 0).sum

namespace Affine

open BlockAdmm.Compile

variable {p : Provider R} {s t : Session R} {f g : AffineForm R} {w : Marks R} {K : Coefs R}

theorem written_zero (data : Provider R) (w : Marks R) :
    Written data [] w (AffineForm.zero : AffineForm R) 0 := by
  refine ⟨nofun, BlockMatrix.represents_empty w, nofun, nofun, fun x r i => ?_⟩
  show _ + (BlockVector.empty : BlockVector R).coord r i = 0
  rw [BlockVector.coord_empty, add_zero]
  exact Finset.sum_eq_zero fun c _ => zero_mul _

omit [ExactScalar R] in
theorem run_singleArgument {c e : Expr R} (h : (singleArgument c).runFrom p s = (.ok e, t)) :
    c.args = [e] ∧ s = t := by
  rw [singleArgument] at h
  split at h
  · rename_i e' hargs
    obtain ⟨rfl, rfl⟩ := run_pure_eq_ok.1 h
    exact ⟨hargs, rfl⟩
  · exact absurd h run_refuse_ne_ok

omit [ExactScalar R] in
/-- The form of a constraint is added to the others. -/
theorem run_buildConstraint_eq_ok [Scalar R] {ci : Expr R × Nat}
    (h : (buildConstraint f ci).runFrom p s = (.ok g, t)) :
    ∃ e new, ci.1.args = [e] ∧ (build e (toString ci.2)).runFrom p s = (.ok new, t) ∧
      f.a.add new.a = .ok g.a ∧ f.b.addScaled 1 new.b = .ok g.b := by
  rw [buildConstraint] at h
  dsimp only at h
  split at h
  · obtain ⟨_, _, h, -⟩ := run_bind_eq_ok.1 h
    exact absurd h run_refuse_ne_ok
  obtain ⟨e, r, he, h⟩ := run_bind_eq_ok.1 h
  obtain ⟨hargs, rfl⟩ := run_singleArgument he
  obtain ⟨new, r', hnew, h⟩ := run_bind_eq_ok.1 h
  obtain ⟨a, r'', ha, h⟩ := run_bind_eq_ok.1 h
  obtain ⟨hadd, rfl⟩ := run_liftM_eq_ok.1 ha
  obtain ⟨b, r'', hb, h⟩ := run_bind_eq_ok.1 h
  obtain ⟨hsum, rfl⟩ := run_liftM_eq_ok.1 hb
  obtain ⟨rfl, rfl⟩ := run_pure_eq_ok.1 h
  exact ⟨e, new, hargs, hnew, hadd, hsum⟩

/-- One more constraint. -/
theorem written_buildConstraint {cs : List (Expr R × Nat)} {ci : Expr R × Nat}
    (hf : Written (s.known p) cs w f K) (hw : s.nextMark = w.next) (hc : ci.1.ConstantsSized)
    (h : (buildConstraint f ci).runFrom p s = (.ok g, t)) :
    ∃ v L, t.nextMark = v.next ∧ t.known p = s.known p ∧ Written (s.known p) (cs ++ [ci]) v g L := by
  obtain ⟨e, new, hargs, hnew, hadd, hsum⟩ := run_buildConstraint_eq_ok h
  have hsized : e.ConstantsSized := by
    obtain ⟨⟨kind, m, n, args⟩, j⟩ := ci
    have hargs : args = [e] := hargs
    subst hargs
    exact hc.arg (List.mem_singleton_self e)
  obtain ⟨v, L, hv, hnext, hknown, hbuilt⟩ := run_build hsized hnew hw
  have hdim : ci.1.leftDim = e.dim := by rw [Expr.leftDim, hargs]
  have hleft (x : String → Nat → R) (i : Nat) :
      ci.1.left (s.known p) x i = e.value (s.known p) x i := by rw [Expr.left, hargs]
  have hmem : ci ∈ cs ++ [ci] := List.mem_append_right _ (List.mem_singleton_self ci)
  have hold : ∀ {r m}, (∃ ci ∈ cs, r = toString ci.2 ∧ m = ci.1.leftDim) →
      ∃ ci' ∈ cs ++ [ci], r = toString ci'.2 ∧ m = ci'.1.leftDim :=
    fun ⟨ci', h, heq⟩ => ⟨ci', List.mem_append_left _ h, heq⟩
  obtain ⟨hext, hcols, hrows⟩ := BlockMatrix.dims_foldlM_insertBlock hadd
  refine ⟨v, K + L, hnext, hknown, fun ci' hci' => ?_,
    (hf.represents.mono hv).add hbuilt.represents hadd, fun r m hr => ?_, fun r m hr => ?_,
    fun x r i => ?_⟩
  · rcases List.mem_append.1 hci' with hci' | hci'
    · exact hf.single ci' hci'
    · exact ⟨e, List.mem_singleton.1 hci' ▸ hargs⟩
  · rcases hrows r m hr with hr | ⟨blk, hblk, rfl, rfl⟩
    · exact hold (hf.rows r m hr)
    · obtain ⟨hrow, hm⟩ := hbuilt.rows _ _ (hbuilt.represents.rows (BlockMatrix.mem_toList.1 hblk))
      exact ⟨ci, hmem, hrow, hm.trans hdim.symm⟩
  · rw [BlockVector.sizeAt?_addScaled hsum, hbuilt.sizes] at hr
    split at hr
    · rename_i hrow
      exact ⟨ci, hmem, hrow, (Option.some.inj hr).symm.trans hdim.symm⟩
    · exact hold (hf.sizes r m hr)
  · have hcells {r c : String} {i j : Nat} (hL : L r c i j ≠ 0) : (⟨c, j⟩ : Cell) ∈ cells g.a.colDims := by
      obtain ⟨l, hl, -, hj⟩ := hbuilt.represents.support hL
      exact mem_cells.2 ⟨l.n, hcols ⟨r, c, l⟩ (BlockMatrix.mem_toList.2 hl), hj⟩
    have hnewcells : sumCells g.a.colDims L x r i = sumCells new.a.colDims L x r i :=
      sum_cells_eq (fun _ h => hcells (left_ne_zero_of_mul h))
        fun _ h => (hbuilt.represents.mem_cells (left_ne_zero_of_mul h)).2
    rw [sumCells_add, sumCells_of_extends hext fun hK => (hf.represents.mem_cells hK).2, hnewcells,
      BlockVector.coord_addScaled hsum, one_mul, List.map_append, List.sum_append, ← hf.value,
      List.map_singleton, List.sum_singleton, hdim, hleft, ← hbuilt.value]
    ring

omit [ExactScalar R] in
/-- The constraints are added one after another, each with a name that is new.  What a step keeps holds of the form
    of all of them. -/
theorem buildConstraints_induction [Scalar R] {q : Problem R}
    (P : List (Expr R × Nat) → AffineForm R → Session R → Prop) (hzero : P [] .zero s)
    (step : ∀ through ci g g' r r', ci ∈ q.constraints.zipIdx →
      (∀ ci' ∈ through, toString ci'.2 ≠ toString ci.2) → P through g r →
      (buildConstraint g ci).runFrom p r = (.ok g', r') → P (through ++ [ci]) g' r')
    (h : (buildConstraints q).runFrom p s = (.ok f, t)) : P q.constraints.zipIdx f t := by
  have hwalk (rest : List (Expr R × Nat)) : ∀ (through : List (Expr R × Nat)) (g : AffineForm R)
      (r : Session R), through ++ rest = q.constraints.zipIdx → P through g r →
      (rest.foldlM buildConstraint g).runFrom p r = (.ok f, t) → P (through ++ rest) f t := by
    induction rest with
    | nil =>
      intro through g r _ hg hrun
      obtain ⟨rfl, rfl⟩ := run_pure_eq_ok.1 hrun
      rwa [List.append_nil]
    | cons ci rest ih =>
      intro through g r hall hg hrun
      rw [List.foldlM_cons] at hrun
      obtain ⟨g', r', hstep, hrun⟩ := run_bind_eq_ok.1 hrun
      have hmem : ci ∈ q.constraints.zipIdx := hall ▸ List.mem_append_right _ List.mem_cons_self
      have hnew : ∀ ci' ∈ through, toString ci'.2 ≠ toString ci.2 := fun ci' hci' heq => by
        have hnodup := nodup_rows q.constraints
        rw [← hall, List.map_append, List.map_cons] at hnodup
        exact (List.nodup_append.1 hnodup).2.2 _ (List.mem_map_of_mem hci') _ List.mem_cons_self heq
      rw [List.append_cons] at hall ⊢
      exact ih _ g' r' hall (step through ci g g' r r' hmem hnew hg hstep) hrun
  exact hwalk _ [] _ s rfl hzero h

theorem run_buildConstraints {q : Problem R} (hq : ∀ c ∈ q.constraints, c.ConstantsSized)
    (h : (buildConstraints q).runFrom p s = (.ok f, t)) :
    ∃ w K, t.nextMark = w.next ∧ t.known p = s.known p ∧
      Written (s.known p) q.constraints.zipIdx w f K := by
  refine buildConstraints_induction (fun through g r => ∃ w K, r.nextMark = w.next ∧ r.known p = s.known p ∧
    Written (s.known p) through w g K) ?_ (fun through ci g g' r r' hci _ hg hstep => ?_) h
  · exact ⟨⟨s.nextMark, fun _ _ _ => 0⟩, 0, rfl, rfl, written_zero _ _⟩
  · obtain ⟨w, K, hw, hr, hg⟩ := hg
    have hsized := hq _ (List.fst_mem_of_mem_zipIdx hci)
    obtain ⟨v, L, hv, hr', hg'⟩ := written_buildConstraint (hr ▸ hg) hw hsized hstep
    exact ⟨v, L, hv, hr'.trans hr, hr ▸ hg'⟩

end Affine

omit [ExactScalar R] in
/-- A sum over a list of which one entry counts. -/
theorem sum_map_ite_unique {α M : Type} [AddCommMonoid M] {p : α → Prop} [DecidablePred p] {xs : List α}
    (hone : xs.Pairwise fun x y => p x → ¬ p y) {x : α} (hx : x ∈ xs) (hp : p x) (f : α → M) :
    (xs.map fun y => if p y then f y else 0).sum = f x := by
  induction xs with
  | nil => exact absurd hx List.not_mem_nil
  | cons y ys ih =>
    obtain ⟨hy, hone⟩ := List.pairwise_cons.1 hone
    rw [List.map_cons, List.sum_cons]
    rcases List.mem_cons.1 hx with rfl | hx
    · have hzero : (ys.map fun z => if p z then f z else 0).sum = 0 := by
        refine List.sum_eq_zero fun v hv => ?_
        obtain ⟨z, hz, rfl⟩ := List.mem_map.1 hv
        exact if_neg (hy z hz hp)
      rw [if_pos hp, hzero, add_zero]
    · rw [if_neg fun h => hy x hx h hp, zero_add, ih hone hx]

/-- A block vector that has at the row of each constraint what it leaves, and no other rows, has the
    squares of what all constraints leave as the square of its norm. -/
theorem normSq_eq_sum_left {data : Provider R} {cs : List (Expr R)} {x : String → Nat → R}
    {v : BlockVector R}
    (hsizes : ∀ r m, v.sizeAt? r = some m → ∃ ci ∈ cs.zipIdx, r = toString ci.2 ∧ m = ci.1.leftDim)
    (hcoord : ∀ r i, v.coord r i = (cs.zipIdx.map fun ci =>
      if r = toString ci.2 ∧ i < ci.1.leftDim then ci.1.left data x i else 0).sum) :
    v.normSq = (cs.map fun c => ∑ i ∈ Finset.range c.leftDim, c.left data x i ^ 2).sum := by
  have hnd := nodup_rows cs
  have hone (ci : Expr R × Nat) : cs.zipIdx.Pairwise fun ci₁ ci₂ =>
      toString ci.2 = toString ci₁.2 → ¬ toString ci.2 = toString ci₂.2 :=
    (List.pairwise_map.1 hnd).imp fun hne h₁ h₂ => hne (h₁.symm.trans h₂)
  -- the length of a row by its name
  let d (r : String) : Nat :=
    (cs.zipIdx.map fun ci => if r = toString ci.2 then ci.1.leftDim else 0).sum
  have hd {ci : Expr R × Nat} (hci : ci ∈ cs.zipIdx) : d (toString ci.2) = ci.1.leftDim :=
    sum_map_ite_unique (hone ci) hci rfl fun ci => ci.1.leftDim
  have hsum := BlockVector.normSq_eq_sum (x := v) (S := (cs.zipIdx.map fun ci => toString ci.2).toFinset)
    (d := d) fun r m hr => by
      obtain ⟨ci, hci, rfl, rfl⟩ := hsizes r m hr
      exact ⟨List.mem_toFinset.2 (List.mem_map_of_mem hci), (hd hci).ge⟩
  have hterm {ci : Expr R × Nat} (hci : ci ∈ cs.zipIdx) :
      ∑ i ∈ Finset.range (d (toString ci.2)), v.coord (toString ci.2) i * v.coord (toString ci.2) i
        = ∑ i ∈ Finset.range ci.1.leftDim, ci.1.left data x i ^ 2 := by
    rw [hd hci]
    refine Finset.sum_congr rfl fun i hi => ?_
    have hentry : v.coord (toString ci.2) i = ci.1.left data x i := by
      simp only [hcoord, ite_and]
      rw [sum_map_ite_unique (hone ci) hci rfl fun ci => if i < ci.1.leftDim then ci.1.left data x i else 0]
      exact if_pos (Finset.mem_range.1 hi)
    rw [hentry, sq]
  rw [hsum, List.sum_toFinset _ hnd, List.map_map]
  have hfst : cs.map (fun c => ∑ i ∈ Finset.range c.leftDim, c.left data x i ^ 2)
      = cs.zipIdx.map fun ci => ∑ i ∈ Finset.range ci.1.leftDim, ci.1.left data x i ^ 2 := by
    conv_lhs => rw [← List.zipIdx_map_fst 0 cs, List.map_map]
    rfl
  rw [hfst]
  exact congrArg List.sum (List.map_congr_left fun ci hci => hterm hci)

end BlockAdmm
