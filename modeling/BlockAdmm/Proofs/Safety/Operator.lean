/-
  Proximal operators on vectors of the right length.

  An operator that was made from a fitting input can be applied to every vector with an entry for each place
  of the layout, and no promise is broken (`Operator.ends_build`).  For most operators the reason
  is that the parts they keep have that length.  The iterations also have to keep it: a Newton round
  goes from a vector of the length to one of the same (`Newton.Objective.ends_step`, `ends_search`), so
  all rounds do (`ends_rounds`).
-/
import BlockAdmm.Proofs.Dense.Lu
import BlockAdmm.Proofs.Safety.Argument
import BlockAdmm.Prox.Operator

namespace BlockAdmm

open Scalar

variable {R : Type} [Scalar R] {E : Fault → Prop}

/-! ## Factored systems -/

namespace Lu

variable {lu : Lu R}

/-- A right-hand side of the size of the system has a solution of that size. -/
theorem ends_solve {b : Array R} (h : b.size = lu.n) :
    Ends E (fun x => x.size = lu.n) (lu.solve b) := by
  refine (ends_promise (beq_iff_eq.2 h)).bind fun _ _ => ends_ok ?_
  rw [size_substitute, h]

end Lu

/-! ## Operators in closed form -/

variable {input : TermInput R} {n : Nat} {v : Array R}

/-- `Serves E n apply`: the operator can be applied to every vector of `n` entries. -/
def Serves (E : Fault → Prop) (n : Nat) (apply : Array R → Outcome (Array R)) : Prop :=
  ∀ v, v.size = n → Ends E (fun _ => True) (apply v)

theorem LinearOperator.ends_of [Reports E] (h : input.Fits) :
    Ends E (fun _ => True) (LinearOperator.of input) := by
  have hgradient : Ends E (fun _ => True) (gradient input) := by
    refine (ends_room _).bind fun _ _ => ends_foldlM (fun _ => True) trivial fun a ha c _ => ?_
    exact (Argument.ends_transApply (h a ha) (Vec.size_build ..)).bind fun _ _ => ends_ok trivial
  refine hgradient.bind fun c _ => ?_
  split
  · exact ends_fail _
  · exact ends_ok trivial

theorem NormL1Operator.ends_of [Reports E] (h : input.Fits) :
    Ends E (fun _ => True) (NormL1Operator.of input) :=
  h.scaling.bind fun _ _ => ends_ok trivial

theorem NormL2Operator.ends_of [Reports E] (h : input.Fits) :
    Ends E (fun _ => True) (NormL2Operator.of input) := by
  refine h.scaling.bind fun s _ => ?_
  cases s.uniform? with
  | none => exact ends_fail _
  | some beta => exact ends_ok trivial

theorem NegLogOperator.ends_of [Reports E] (h : input.Fits) :
    Ends E (fun _ => True) (NegLogOperator.of input) := by
  refine h.scaling.bind fun s _ => ?_
  dsimp only
  split
  · exact ends_fail _
  · exact ends_ok trivial

/-! ## Sums of squares -/

omit [Scalar R] in
/-- `form.Sized n`: the parts of the form are for `n` places. -/
def SumSquareForm.Sized (n : Nat) : SumSquareForm R → Prop
  | .scaling s => s.Sized n
  | .general lu htg => lu.n = n ∧ htg.size = n

namespace SumSquareOperator

theorem ends_normalMatrix [Reports E] (alpha rho : R) (h : Dense R) :
    Ends E (fun m => m.size = (h.n, h.n)) (normalMatrix alpha rho h) :=
  (Dense.ends_mulMat (allows_of_limits _) rfl).bind fun _ hm => ends_ok hm

theorem ends_generalForm [Reports E] {a : Argument R} (ha : a.Fits input.layout) :
    Ends E (SumSquareForm.Sized input.layout.n) (generalForm input a) := by
  refine (Argument.ends_dense ha).bind fun h hh => ?_
  obtain ⟨hm, hn⟩ := Prod.mk.inj hh
  refine (ends_normalMatrix _ _ h).bind fun m hm' => ?_
  cases hlu : Lu.of? m 0 with
  | none => exact ends_fail _
  | some lu =>
    refine (Dense.ends_transMulVec (ha.offset.trans hm.symm)).bind fun htg hhtg => ends_ok ⟨?_, ?_⟩
    · rw [Lu.n_of_of? hlu, (Prod.mk.inj hm').1, hn]
    · rw [Array.size_map, hhtg, hn]

theorem ends_of [Reports E] (h : input.Fits) :
    Ends E (fun o => o.form.Sized input.layout.n) (SumSquareOperator.of input) := by
  refine h.single.bind fun a ha => ?_
  have hscaling := h.scaling (E := E)
  cases hs : input.scaling with
  | ok s => exact ends_ok (hscaling.of_eq_ok hs)
  | error f =>
    have hf := hscaling.of_eq_error hs
    cases f with
    | failed e => exact (ends_generalForm ha).bind fun form hform => ends_ok hform
    | breach => exact hf
    | misuse => exact hf
    | unending => exact hf

theorem serves_apply [Reports E] {o : SumSquareOperator R} (ho : o.form.Sized n) :
    Serves E n o.apply := by
  intro v hv
  rw [apply]
  cases hform : o.form with
  | scaling s =>
    rw [hform] at ho
    have hfit : (decide (v.size ≤ s.beta.size) && decide (v.size ≤ s.offset.size)) = true := by
      rw [ho.beta, ho.offset, hv]
      simp
    exact (ends_promise hfit).bind fun _ _ => ends_ok trivial
  | general lu htg =>
    rw [hform] at ho
    refine (Lu.ends_solve ?_).imp fun _ _ => trivial
    rw [Vec.size_build, hv, ho.1, ho.2, Nat.min_self]

end SumSquareOperator

/-! ## Newton iterations -/

omit [Scalar R] in
/-- `map.Sized m n`: the argument has `m` components and depends on `n` places. -/
def ArgMap.Sized (m n : Nat) : ArgMap R → Prop
  | .scaling s => m = n ∧ s.Sized n
  | .dense h g => h.size = (m, n) ∧ g.size = m

namespace Newton.Objective

variable {o : Newton.Objective R} {m : Nat} {x : Array R}

theorem ends_argument [Limits E] (ho : o.map.Sized m n) (hx : x.size = n) :
    Ends E (fun y => y.size = m) (o.argument x) := by
  rw [argument]
  cases hmap : o.map with
  | scaling s =>
    rw [hmap] at ho
    exact ends_ok ((ho.2.size_toArg hx).trans ho.1.symm)
  | dense h g =>
    rw [hmap] at ho
    obtain ⟨hsize, hg⟩ := ho
    obtain ⟨hm, hn⟩ := Prod.mk.inj hsize
    refine (Dense.ends_mulVec (allows_of_limits _) (hx.trans hn.symm)).bind fun y hy => ?_
    have hy : y.size = m := hy.trans hm
    exact (Vec.ends_addScaled 1 (hg.trans hy.symm)).imp fun z hz => hz.trans hy

theorem ends_value [Limits E] (ho : o.map.Sized m n) (v : Array R) (hx : x.size = n) :
    Ends E (fun _ => True) (o.value v x) :=
  (ends_argument ho hx).bind fun _ _ => ends_ok trivial

/-- Moving a point into the domain keeps its length. -/
theorem size_feasible (ho : o.map.Sized m n) (hx : x.size = n) : (o.feasible x).size = n := by
  rw [feasible]
  cases hmap : o.map with
  | scaling s =>
    rw [hmap] at ho
    exact ho.2.size_fromArg ((o.f.size_feasible _).trans (ho.2.size_toArg hx)) hx
  | dense h g => exact hx

theorem size_penaltyGrad (hv : v.size = n) (hx : x.size = n) : (o.penaltyGrad v x).size = n := by
  rw [penaltyGrad, Vec.size_build, hx, hv, Nat.min_self]

theorem ends_scaledStep {s : Scaling R} {gy hy : Array R} (hs : s.Sized n) (hv : v.size = n)
    (hx : x.size = n) (hgy : gy.size = n) (hhy : hy.size = n) :
    Ends E (fun st => st.grad.size = n ∧ st.dir.size = n) (o.scaledStep s v x gy hy) := by
  have hfit : (decide (v.size ≤ s.beta.size) && decide (v.size ≤ gy.size) && decide (v.size ≤ hy.size)
      && decide (v.size ≤ x.size)) = true := by
    rw [hs.beta, hv, hgy, hhy, hx]
    simp
  refine (ends_promise hfit).bind fun _ _ => ends_ok ⟨?_, ?_⟩
  · rw [Vec.size_build, hv]
  · rw [Vec.size_build, hv]

theorem ends_hessian [Limits E] (h : Dense R) (k : Nat) (hy : Array R) :
    Ends E (fun a => a.size = (h.n, k)) (o.hessian h k hy) :=
  (Dense.ends_mulMat (allows_of_limits _) rfl).bind fun _ hm => ends_ok hm

theorem ends_denseStep [Reports E] {h : Dense R} {gy hy : Array R} (hh : h.size = (m, n))
    (hv : v.size = n) (hx : x.size = n) (hgy : gy.size = m) :
    Ends E (fun st => st.grad.size = n ∧ st.dir.size = n) (o.denseStep h v x gy hy) := by
  obtain ⟨hm, hn⟩ := Prod.mk.inj hh
  refine (Dense.ends_transMulVec (hgy.trans hm.symm)).bind fun gx hgx => ?_
  have hpenalty : (o.penaltyGrad v x).size = n := size_penaltyGrad hv hx
  refine (Vec.ends_addScaled _ (hgx.trans (hn.trans hpenalty.symm))).bind fun grad hgrad => ?_
  replace hgrad := hgrad.trans hpenalty
  refine (ends_hessian h v.size hy).bind fun hess hhess => ?_
  cases hlu : Lu.of? hess 0 with
  | none => exact ends_fail _
  | some lu =>
    have hsolve : lu.n = n := (Lu.n_of_of? hlu).trans ((Prod.mk.inj hhess).1.trans hn)
    refine (Lu.ends_solve (hgrad.trans hsolve.symm)).bind fun d hd => ends_ok ⟨hgrad, ?_⟩
    rw [Array.size_map, hd, hsolve]

/-- Gradient and direction have the length of the point. -/
theorem ends_step [Reports E] (ho : o.map.Sized m n) (hv : v.size = n) (hx : x.size = n) :
    Ends E (fun st => st.grad.size = n ∧ st.dir.size = n) (o.step v x) := by
  refine (ends_argument ho hx).bind fun y hy => ?_
  have hgrad : (o.f.grad y).size = m := (o.f.size_grad y).trans hy
  have hhess : (o.f.hess y).size = m := (o.f.size_hess y).trans hy
  cases hmap : o.map with
  | scaling s =>
    rw [hmap] at ho
    exact ends_scaledStep ho.2 hv hx (hgrad.trans ho.1) (hhess.trans ho.1)
  | dense h g =>
    rw [hmap] at ho
    exact ends_denseStep ho.1 hv hx hgrad

/-- A better point has the length of the one before it. -/
theorem ends_search [Reports E] (ho : o.map.Sized m n) (phi : R) {dir : Array R} (slope : R)
    (hx : x.size = n) (hdir : dir.size = n) (tries : Nat) (t : R) :
    Ends E (fun found => ∀ x' phi', found = .better x' phi' → x'.size = n)
      (o.search v x phi dir slope tries t) := by
  induction tries generalizing t with
  | zero => exact ends_ok nofun
  | succ tries ih =>
    have hnext : (o.feasible (advanced x t dir)).size = n := by
      refine size_feasible ho ?_
      rw [advanced, Vec.size_build, hx, hdir, Nat.min_self]
    rw [search]
    refine (ends_value ho v hnext).bind fun value _ => ?_
    split
    · refine ends_ok fun x' phi' h => ?_
      cases h
      exact hnext
    · dsimp only
      split
      · exact ends_ok nofun
      · exact ih _

/-- What every round keeps, the iteration keeps. -/
theorem ends_rounds [Reports E] (ho : o.map.Sized m n) (hv : v.size = n) (left round : Nat)
    (hx : x.size = n) (phi : R) :
    Ends E (fun y => y.size = n) (o.rounds v left round x phi).outcome := by
  induction left generalizing round x phi with
  | zero => exact ends_fail _
  | succ left ih =>
    rw [rounds]
    refine Ends.logged_bind (ends_step ho hv hx) fun st hst => ?_
    refine Ends.logged_bind (P := fun _ => True) trivial fun _ _ => ?_
    split
    · exact ends_fail _
    split
    · exact ends_ok hx
    refine Ends.logged_bind (Vec.ends_dot (hst.1.trans hst.2.symm)) fun slope _ => ?_
    refine Ends.logged_bind (ends_search ho phi slope hx hst.2 _ _) fun found hfound => ?_
    cases found with
    | better x' phi' => exact ih _ (hfound x' phi' rfl) _
    | tooShort t =>
      dsimp only
      split
      · exact ends_ok hx
      · exact ends_fail _

/-- The iteration gives a vector of the length of the point it is for. -/
theorem ends_minimize [Reports E] (ho : o.map.Sized m n) (hv : v.size = n) :
    Ends E (fun y => y.size = n) (o.minimize v).outcome := by
  have hx := size_feasible ho hv
  exact Ends.logged_bind (ends_value ho v hx) fun phi _ => ends_rounds ho hv _ _ hx phi

end Newton.Objective

theorem Family.ends_newtonOf [Reports E] (f : SmoothFunction) (h : input.Fits) :
    Ends E (fun o => ∃ m, o.map.Sized m input.layout.n) (Family.newtonOf f input) := by
  refine h.single.bind fun a ha => ?_
  have hscaling := h.scaling (E := E)
  cases hs : input.scaling with
  | ok s => exact ends_ok ⟨input.layout.n, rfl, hscaling.of_eq_ok hs⟩
  | error f =>
    have hf := hscaling.of_eq_error hs
    cases f with
    | failed e =>
      dsimp only
      split
      · exact (Argument.ends_dense ha).bind fun d hd => ends_ok ⟨a.dim, hd, ha.offset⟩
      · exact ends_fail _
    | breach => exact hf
    | misuse => exact hf
    | unending => exact hf

/-! ## Epigraphs -/

namespace Epigraph

omit [Scalar R] in
/-- `e.Sized k`: the two variables are in the layout, the first with `k` elements and the second with
    one. -/
structure Sized (e : Epigraph R) (k : Nat) : Prop where
  point : e.layout.sizes.get? e.x = some k
  bound : e.layout.sizes.get? e.t = some 1

theorem ends_of [Reports E] (f : SmoothFunction) (h : input.Fits) :
    Ends E (fun e => e.layout = input.layout ∧ ∃ k, e.Sized k) (Epigraph.of f input) := by
  rw [of]
  split
  · rename_i a bound heq
    have ha := h a (heq ▸ List.mem_cons_self)
    have hbound := h bound (heq ▸ List.mem_cons_of_mem a List.mem_cons_self)
    refine (Argument.ends_plainVariable? ha).bind fun ox hox => ?_
    refine (Argument.ends_plainVariable? hbound).bind fun ot hot => ?_
    split
    · rename_i x t
      split
      · exact ends_fail _
      · rename_i hdim
        rw [Bool.or_eq_true, Bool.or_eq_true, not_or, not_or, bne_iff_ne, not_not] at hdim
        exact ends_ok ⟨rfl, a.dim, hox x rfl, hdim.1.2 ▸ hot t rfl⟩
    · exact ends_fail _
  · exact ends_fail _

variable {e : Epigraph R} {k : Nat} {vx : Array R} {s : R}

theorem ends_probe [Reports E] (e : Epigraph R) (vx : Array R) (s lambda : R) :
    Ends E (fun p => p.point.size = vx.size) (e.probe vx s lambda).outcome := by
  have hmap : (e.objective vx.size (1 / lambda)).map.Sized vx.size vx.size :=
    ⟨rfl, Vec.size_build .., Vec.size_zero _⟩
  exact Ends.logged_bind (Newton.Objective.ends_minimize hmap rfl) fun x hx => ends_ok hx

theorem ends_bracket [Reports E] (e : Epigraph R) (vx : Array R) (s : R) (doublings : Nat) (lo hi : R) :
    Ends E (fun _ => True) (e.bracket vx s doublings lo hi).outcome := by
  induction doublings generalizing lo hi with
  | zero =>
    rw [bracket]
    refine Ends.logged_bind (e.ends_probe vx s hi) fun p _ => ?_
    split
    · exact ends_fail _
    · exact ends_ok trivial
  | succ doublings ih =>
    rw [bracket]
    refine Ends.logged_bind (e.ends_probe vx s hi) fun p _ => ?_
    split
    · exact ih _ _
    · exact ends_ok trivial

theorem ends_rounds [Reports E] (e : Epigraph R) (vx : Array R) (s : R) (left round : Nat)
    (lo hi lambda : R) :
    Ends E (fun r => r.1.point.size = vx.size) (e.rounds vx s left round lo hi lambda).outcome := by
  induction left generalizing round lo hi lambda with
  | zero => exact ends_fail _
  | succ left ih =>
    rw [rounds]
    refine Ends.logged_bind (e.ends_probe vx s lambda) fun p hp => ?_
    refine Ends.logged_bind (P := fun _ => True) trivial fun _ _ => ?_
    split
    · exact ends_ok hp
    · exact ih _ _ _ _

/-- The two parts find their places. -/
theorem ends_place (he : e.Sized k) (hv : v.size = e.layout.n) (hx : vx.size = k) (t : R) :
    Ends E (fun _ => True) (e.place v vx t) := by
  rw [place, Layout.get?_eq_some_of_size he.point, Layout.get?_eq_some_of_size he.bound]
  refine (Vec.ends_overwrite ?_).bind fun out hout => (Vec.ends_overwrite ?_).imp fun _ _ => trivial
  · rw [hx, hv]
    exact Layout.offset_add_le he.point
  · rw [hout, hv]
    exact Layout.offset_add_le he.bound

theorem serves_project [Reports E] (he : e.Sized k) :
    Serves E e.layout.n fun v => (e.project v).outcome := by
  intro v hv
  refine Ends.logged_bind (Layout.ends_split hv) fun blocks hblocks => ?_
  have hblock {id : String} {d : Nat} (hd : e.layout.sizes.get? id = some d) (other : Nat) :
      Ends E (fun w => w.size = d) (blocks.getOrZero id other) := by
    have hsize := (hblocks id).trans hd
    obtain ⟨w, hw, hsize⟩ := BlockVector.sizeAt?_eq_some_iff.1 hsize
    rw [BlockVector.getOrZero, hw]
    exact ends_ok hsize
  refine Ends.logged_bind (hblock he.point 0) fun vx hvx => ?_
  refine Ends.logged_bind (hblock he.bound 1) fun vt hvt => ?_
  refine Ends.logged_bind (ends_promise (by rw [hvt]; rfl)) fun _ _ => ?_
  dsimp only
  split
  · exact ends_ok trivial
  refine Ends.logged_bind (e.ends_bracket vx _ _ _ _) fun bracket _ => ?_
  refine Ends.logged_bind (e.ends_rounds vx _ _ _ _ _ _) fun r hr => ?_
  exact ends_place he hv (hr.trans hvx) _

end Epigraph

/-! ## Functions of the spectrum -/

/-- Rotations come to an end, or the rounds for them are used up. -/
theorem Eigen.ends_sweeps [Waits E] (tol : R) (rounds : Nat) (st : State R) :
    Ends E (fun _ => True) (sweeps tol rounds st) := by
  induction rounds generalizing st with
  | zero => exact Waits.unending
  | succ rounds ih =>
    rw [sweeps]
    split
    · exact ends_ok trivial
    · exact ih _

theorem Singular.ends_sweeps [Waits E] (eps : R) (rounds : Nat) (st : State R) :
    Ends E (fun _ => True) (sweeps eps rounds st) := by
  induction rounds generalizing st with
  | zero => exact Waits.unending
  | succ rounds ih =>
    rw [sweeps]
    split
    · exact ends_ok trivial
    · exact ih _

theorem Eigen.ends_mapValues [Waits E] (f : R → Option R) {a : Dense R} (ha : a.m = a.n) (eps : R) :
    Ends E (fun _ => True) (mapValues f a eps) :=
  (ends_promise (beq_iff_eq.2 ha)).bind fun _ _ =>
    (ends_sweeps _ _ _).bind fun _ _ => ends_ok trivial

theorem Singular.ends_mapValues [Waits E] (f : R → R) (a : Dense R) (eps : R) :
    Ends E (fun _ => True) (mapValues f a eps) := by
  have htall (a : Dense R) : Ends E (fun _ => True) (mapTall f a eps) :=
    (ends_sweeps _ _ _).bind fun _ _ => ends_ok trivial
  rw [mapValues]
  split
  · exact (htall _).bind fun _ _ => ends_ok trivial
  · exact htall a

omit [Scalar R] in
theorem Dense.ends_ofColumns {m n : Nat} {data : Array R} (h : data.size = m * n) :
    Ends E (fun a => a.size = (m, n)) (Dense.ofColumns m n data) := by
  rw [ofColumns, dif_pos h]
  exact ends_ok rfl

namespace SpectralOperator

omit [Scalar R] in
/-- `o.Sized k`: the operator is for `k` places, which are the entries of its matrix, and the matrix is
    square if it has to be. -/
structure Sized (k : Nat) (o : SpectralOperator R) : Prop where
  scaling : o.scaling.Sized k
  entries : o.m * o.n = k
  square : o.f.spectrum = .eigen → o.m = o.n

theorem ends_of [Reports E] (f : SpectralFunction) (h : input.Fits) :
    Ends E (Sized input.layout.n) (SpectralOperator.of f input) := by
  refine (h.single.and_eq fun a ha => ha).bind fun a ha => ?_
  refine (h.scaling.and_eq fun s hs => hs).bind fun s hs => ?_
  cases s.uniform? with
  | none => exact ends_fail _
  | some beta =>
    dsimp only
    split
    · exact ends_fail _
    rename_i hsquare
    rw [Bool.and_eq_true, not_and, beq_iff_eq, bne_iff_ne, not_not] at hsquare
    split
    · exact ends_fail _
    · exact ends_ok ⟨hs.1, TermInput.dim_of_scaling ha.2 hs.2, hsquare⟩

theorem serves_apply [Waits E] {o : SpectralOperator R} {k : Nat} (ho : o.Sized k) :
    Serves E k o.apply := by
  intro v hv
  rw [apply]
  split
  · exact ends_ok trivial
  have hy := ho.scaling.size_toArg hv
  have hmatrix (t : R) : Ends E (fun _ => True) (o.f.mapMatrix t o.m o.n (o.scaling.toArg v)) := by
    rw [SpectralFunction.mapMatrix]
    cases hspectrum : o.f.spectrum with
    | eigen =>
      have hsquare := ho.square hspectrum
      refine (Dense.ends_ofColumns ?_).bind fun a ha => ?_
      · rw [hy, ← ho.entries, hsquare]
      · obtain ⟨hm, hn⟩ := Prod.mk.inj ha
        exact (Eigen.ends_mapValues _ (hm.trans hn.symm) _).bind fun _ _ => ends_ok trivial
    | singular =>
      refine (Dense.ends_ofColumns (hy.trans ho.entries.symm)).bind fun a _ => ?_
      exact (Singular.ends_mapValues _ a _).bind fun _ _ => ends_ok trivial
  refine (hmatrix _).bind fun y _ => ?_
  split
  · exact ends_fail _
  · exact ends_ok trivial

end SpectralOperator

/-! ## All operators -/

/-- The operator of a fitting input can be applied to every vector with an entry for each place. -/
theorem Operator.ends_build [Waits E] (h : input.Fits) :
    Ends E (fun o => Serves E input.layout.n fun v => (o.apply v).outcome) (Operator.build input) := by
  have hof : Ends E (fun _ => True) (Family.of input.function) := by
    rw [Family.of]
    split
    · exact ends_ok trivial
    · exact ends_fail _
  refine hof.bind fun family _ => ?_
  cases family with
  | zero => exact ends_ok fun _ _ => trivial
  | linear => exact (LinearOperator.ends_of h).map fun _ _ _ _ => trivial
  | sumSquare => exact (SumSquareOperator.ends_of h).map fun o ho => SumSquareOperator.serves_apply ho
  | normL1 => exact (NormL1Operator.ends_of h).map fun _ _ _ _ => trivial
  | normL2 => exact (NormL2Operator.ends_of h).map fun _ _ _ _ => trivial
  | negLog => exact (NegLogOperator.ends_of h).map fun _ _ _ _ => trivial
  | newton f =>
    refine (Family.ends_newtonOf f h).map fun o ho v hv => ?_
    obtain ⟨m, ho⟩ := ho
    exact (Newton.Objective.ends_minimize ho hv).imp fun _ _ => trivial
  | epigraph f =>
    refine (Epigraph.ends_of f h).map fun e he => ?_
    obtain ⟨hlayout, k, he⟩ := he
    exact hlayout ▸ Epigraph.serves_project he
  | spectral f => exact (SpectralOperator.ends_of f h).map fun o ho => SpectralOperator.serves_apply ho

end BlockAdmm
