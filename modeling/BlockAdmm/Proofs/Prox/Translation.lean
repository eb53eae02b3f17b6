/-
  The proximal operator of a linear term.

  The cost is an affine function of the point, with the slopes `c = alpha * (H₁ᵀ 1 + … + H_kᵀ 1)`
  (`LinearOperator.cost_eq`).  The operator adds them up argument by argument, through the transposes of the
  maps (`ends_gradient_entries`).  With a penalty, the shift by `-c / rho` is the proximal point.  Without
  one, the cost is unbounded unless all slopes are zero (`unboundedBelow_cost`), and that is just what the
  operator reports (`linear_minimizes`).

  Otherwise only the room can run out, for the flat vector or for what the transposes need.  An argument
  without components and without columns may have a value and no image under the transpose (`init_hollow`).
-/
import BlockAdmm.Proofs.LinearMap.BothWays
import BlockAdmm.Proofs.Prox.Minimizer
import BlockAdmm.Proofs.Prox.Products
import BlockAdmm.Prox.Operator

namespace BlockAdmm

open Scalar ExactScalar

variable {R : Type} [ExactScalar R]

/-! ## Arguments that are used both ways -/

namespace Argument

variable {a : Argument R} {layout : Layout} {x y : Array R}

/-- `a.HasAdjoints`: every function in the maps that is known for a transpose is right. -/
def HasAdjoints (a : Argument R) : Prop := ∀ kl ∈ a.maps.entries, kl.2.HasAdjoints

omit [ExactScalar R] in
/-- `a.UsableBothWays`: every map can be used both ways. -/
def UsableBothWays (a : Argument R) : Prop := ∀ kl ∈ a.maps.entries, kl.2.UsableBothWays

theorem HasAdjoints.exists_bears {c : Prop} (h : a.HasAdjoints) (ha : a.Matches layout)
    (hc : c → a.UsableBothWays) : ∃ k, a.Bears (Lore.both c) layout k := by
  refine Argument.exists_bears ha fun kl hkl => ?_
  obtain ⟨k, hk⟩ := (h kl hkl).exists_bears
  exact ⟨k, hk.mono (Lore.within_both fun hholds => hc hholds kl hkl)⟩

/-- `a.total n h x`: the sum of the components `H x + g`, for a matrix of `n` columns. -/
def total (a : Argument R) (n : Nat) (h : Nat → Nat → R) (x : Array R) : R :=
  ∑ i ∈ Finset.range a.dim, (rowSum n h (Vec.entry x) i + Vec.entry a.offset i)

/-- `a.columnTotal h j`: the entry of `Hᵀ 1` at `j`. -/
def columnTotal (a : Argument R) (h : Nat → Nat → R) (j : Nat) : R := ∑ i ∈ Finset.range a.dim, h i j

theorem total_eq (a : Argument R) (n : Nat) (h : Nat → Nat → R) (x y : Array R) :
    a.total n h y
      = a.total n h x + ∑ j ∈ Finset.range n, a.columnTotal h j * (Vec.entry y j - Vec.entry x j) := by
  have hswap : ∑ j ∈ Finset.range n, a.columnTotal h j * (Vec.entry y j - Vec.entry x j)
      = ∑ i ∈ Finset.range a.dim, (rowSum n h (Vec.entry y) i - rowSum n h (Vec.entry x) i) := by
    simp only [← rowSum_sub]
    simp only [columnTotal, rowSum, Finset.sum_mul]
    exact Finset.sum_comm
  rw [hswap, total, total, ← Finset.sum_add_distrib]
  exact Finset.sum_congr rfl fun i _ => by ring

end Argument

namespace LinearOperator

variable {input : TermInput R} {h : Argument R → Nat → Nat → R} {x y : Array R}

/-! ## The cost -/

/-- `cost input h x = alpha * Σ_k Σ_i (H_k x + g_k)_i`, where `h` gives the matrices of the arguments. -/
def cost (input : TermInput R) (h : Argument R → Nat → Nat → R) (x : Array R) : R :=
  input.function.alpha * (input.args.map fun a => a.total input.layout.n (h a) x).sum

/-- `slope input h j = c_j`, with `c = alpha * Σ_k H_kᵀ 1`. -/
def slope (input : TermInput R) (h : Argument R → Nat → Nat → R) (j : Nat) : R :=
  input.function.alpha * (input.args.map fun a => a.columnTotal (h a) j).sum

/-- The cost is affine. -/
theorem cost_eq (input : TermInput R) (h : Argument R → Nat → Nat → R) (x y : Array R) :
    cost input h y = cost input h x
      + ∑ j ∈ Finset.range input.layout.n, slope input h j * (Vec.entry y j - Vec.entry x j) := by
  have hargs (as : List (Argument R)) : (as.map fun a => a.total input.layout.n (h a) y).sum
      = (as.map fun a => a.total input.layout.n (h a) x).sum + ∑ j ∈ Finset.range input.layout.n,
          (as.map fun a => a.columnTotal (h a) j).sum * (Vec.entry y j - Vec.entry x j) := by
    induction as with
    | nil => simp
    | cons a as ih =>
      simp only [List.map_cons, List.sum_cons, add_mul, Finset.sum_add_distrib]
      rw [ih, a.total_eq input.layout.n (h a) x y]
      ring
  simp only [cost, slope, mul_assoc]
  rw [hargs, mul_add, Finset.mul_sum]

theorem hasSlope_cost (hx : x.size = input.layout.n) : HasSlope (cost input h) x (slope input h) := by
  intro y _
  rw [hx, ← cost_eq]

/-- Without a penalty a slope leads as far down as one likes. -/
theorem unboundedBelow_cost {j : Nat} (hj : j < input.layout.n) (hslope : slope input h j ≠ 0) :
    UnboundedBelow (cost input h) input.layout.n := by
  intro b
  let start : Array R := Vec.zero input.layout.n
  let t := (b - 1 - cost input h start) / slope input h j
  refine ⟨Vec.build input.layout.n fun i => if i = j then t else 0, Vec.size_build .., ?_⟩
  have hmove : ∑ i ∈ Finset.range input.layout.n, slope input h i
        * (Vec.entry (Vec.build input.layout.n fun i => if i = j then t else 0) i - Vec.entry start i)
      = slope input h j * t := by
    rw [Finset.sum_eq_single_of_mem j (Finset.mem_range.2 hj) fun i hi hne => ?_]
    · rw [Vec.entry_build _ hj, if_pos rfl, Vec.entry_zero, sub_zero]
    · rw [Vec.entry_build _ (Finset.mem_range.1 hi), if_neg hne, Vec.entry_zero, sub_zero, mul_zero]
  rw [cost_eq input h start, hmove, mul_div_cancel₀ _ hslope, add_sub_cancel]
  exact sub_one_lt b

/-! ## The operator -/

omit [ExactScalar R] in
/-- The flat vector can be stored, and the arguments can be used both ways. -/
structure Usable (input : TermInput R) : Prop where
  room : input.layout.n ≤ capacity
  args : ∀ a ∈ input.args, a.UsableBothWays

/-- The slopes of the cost, added up argument by argument. -/
theorem ends_gradient_entries {g : Lore R} (hg : g.transposes) (hroom : Allows g.faults input.layout.n)
    (hmatch : ∀ a ∈ input.args, a.Matches input.layout)
    (hmaps : ∀ a ∈ input.args, ∀ kl ∈ a.maps.entries, Allows g.faults kl.2.extent)
    (hb : ∀ a ∈ input.args, a.Bears g input.layout (h a)) :
    Ends g.faults (fun c => c.size = input.layout.n ∧ ∀ j, j < input.layout.n → Vec.entry c j = slope input h j)
      (gradient input) := by
  have hstep (a : Argument R) (ha : a ∈ input.args) (c : Array R) (hc : c.size = input.layout.n) :
      Ends g.faults (fun c' => c'.size = input.layout.n ∧ ∀ j, j < input.layout.n →
          Vec.entry c' j = Vec.entry c j + input.function.alpha * a.columnTotal (h a) j)
        (do
          let ca ← a.transApply input.layout (Vec.build a.dim fun _ => input.function.alpha)
          return Vec.increase c ca) := by
    refine ((hb a ha).ends_transApply (hmatch a ha) hg hroom (hmaps a ha) (Vec.size_build ..)).bind
      fun ca hca => ends_ok ⟨(Vec.size_increase ..).trans hc, fun j hj => ?_⟩
    rw [Vec.entry_increase (hca.1.trans hc.symm), hca.2 j hj, Argument.columnTotal, Finset.mul_sum]
    refine congrArg _ (Finset.sum_congr rfl fun i hi => ?_)
    rw [Vec.entry_build _ (Finset.mem_range.1 hi), mul_comm]
  refine hroom.ends_room.bind fun _ _ => ?_
  refine (Vec.ends_foldlM_sum (Vec.size_zero _) hstep).imp fun c hc => ⟨hc.1, fun j hj => ?_⟩
  rw [hc.2 j hj, Vec.entry_zero, zero_add, List.sum_map_mul_left]
  rfl

/-- The shifted point has the slopes that a proximal point needs. -/
theorem isProx_apply {c v : Array R} (hsize : c.size = input.layout.n)
    (hc : ∀ j, j < input.layout.n → Vec.entry c j = slope input h j) (hrho : 0 ≤ input.rho)
    (hbounded : input.rho = 0 → ∀ j, j < input.layout.n → slope input h j = 0) (hv : v.size = input.layout.n) :
    IsProx (cost input h) input.rho v (apply ⟨c, input.rho⟩ v) ∧ (0 < input.rho → ∀ j, j < input.layout.n →
      Vec.entry (apply ⟨c, input.rho⟩ v) j = Vec.entry v j - slope input h j / input.rho) := by
  have hshift (hpos : 0 < input.rho) : (apply ⟨c, input.rho⟩ v).size = input.layout.n ∧
      ∀ j, j < input.layout.n →
        Vec.entry (apply ⟨c, input.rho⟩ v) j = Vec.entry v j - slope input h j / input.rho := by
    have hmin : min v.size c.size = input.layout.n := by rw [hv, hsize, Nat.min_self]
    rw [apply, if_neg (by rw [beq_iff_eq]; exact hpos.ne')]
    refine ⟨(Vec.size_build ..).trans hmin, fun j hj => ?_⟩
    rw [Vec.entry_build _ (hmin ▸ hj), hc j hj]
  refine ⟨?_, fun hpos => (hshift hpos).2⟩
  rcases hrho.eq_or_lt with hzero | hpos
  · rw [apply, if_pos (beq_iff_eq.2 hzero.symm)]
    refine ((hasSlope_cost (h := h) hv).congr fun j hj => ?_).isProx rfl hrho
    rw [sub_self, mul_zero, hbounded hzero.symm j (hv ▸ hj)]
  · obtain ⟨hx, hentry⟩ := hshift hpos
    refine ((hasSlope_cost (h := h) hx).congr fun j hj => ?_).isProx (hx.trans hv.symm) hrho
    rw [hentry j (hx ▸ hj), sub_sub_cancel, mul_div_cancel₀ _ hpos.ne']

/-- Once the slopes are there, it is reported that the cost is unbounded just if it is. -/
theorem ends_of_isProx {E : Fault → Prop} (hrho : 0 ≤ input.rho)
    (hgradient : Ends E (fun c => c.size = input.layout.n ∧
      ∀ j, j < input.layout.n → Vec.entry c j = slope input h j) (gradient input)) :
    Ends (fun f => (f = .failed .linearUnbounded ∧
          ∀ v : Array R, UnboundedBelow (penalized (cost input h) input.rho v) input.layout.n) ∨ E f)
      (fun o => ∀ v : Array R, v.size = input.layout.n →
        IsProx (cost input h) input.rho v (o.apply v) ∧ (0 < input.rho → ∀ j, j < input.layout.n →
          Vec.entry (o.apply v) j = Vec.entry v j - slope input h j / input.rho))
      (of input) := by
  refine (hgradient.mono (fun _ hf => Or.inr hf) fun _ hc => hc).bind fun c hc => ?_
  obtain ⟨hsize, hc⟩ := hc
  split
  · rename_i hreport
    rw [Bool.and_eq_true, beq_iff_eq] at hreport
    obtain ⟨hzero, hany⟩ := hreport
    obtain ⟨j, hj, hne⟩ := Vec.any_iff.1 hany
    rw [hsize] at hj
    rw [bne_iff_ne, hc j hj] at hne
    refine Or.inl ⟨rfl, fun v => ?_⟩
    rw [hzero, funext (penalized_zero (cost input h) v)]
    exact unboundedBelow_cost hj hne
  · rename_i hsilent
    refine ends_ok fun v hv => isProx_apply hsize hc hrho (fun hzero j hj => ?_) hv
    by_contra hne
    refine hsilent (Bool.and_eq_true_iff.2 ⟨beq_iff_eq.2 hzero, Vec.any_iff.2 ⟨j, hsize ▸ hj, ?_⟩⟩)
    rw [bne_iff_ne, hc j hj]
    exact hne

end LinearOperator

open LinearOperator in
/-- The operator of a linear term reports that the cost is unbounded just if it is, and otherwise gives
    minimizers, which with a penalty are the points shifted by the slopes.  Apart from that only the room can
    run out. -/
theorem linear_minimizes {input : TermInput R} (hmatch : ∀ a ∈ input.args, a.Matches input.layout)
    (hadjoint : ∀ a ∈ input.args, a.HasAdjoints) (hrho : 0 ≤ input.rho) :
    ∃ h : Argument R → Nat → Nat → R,
      (∀ a ∈ input.args, ∀ x : Array R, x.size = input.layout.n →
        Ends (Fault.Unless (Usable input)) (fun y => y.size = a.dim ∧ ∀ i, i < a.dim →
          Vec.entry y i = rowSum input.layout.n (h a) (Vec.entry x) i + Vec.entry a.offset i)
          (a.apply input.layout x)) ∧
      Ends (fun f => (f = .failed .linearUnbounded ∧
            ∀ v : Array R, UnboundedBelow (penalized (cost input h) input.rho v) input.layout.n) ∨
          Fault.Unless (Usable input) f)
        (fun o => ∀ v : Array R, v.size = input.layout.n →
          ¬ UnboundedBelow (penalized (cost input h) input.rho v) input.layout.n ∧
          ∃ x, o.apply v = pure x ∧ IsProx (cost input h) input.rho v x ∧
            (0 < input.rho → ∀ j, j < input.layout.n →
              Vec.entry x j = Vec.entry v j - slope input h j / input.rho))
        (Family.linear.init input) := by
  have hbears (a : Argument R) : ∃ k, a ∈ input.args → a.Bears (Lore.both (Usable input)) input.layout k := by
    by_cases ha : a ∈ input.args
    · obtain ⟨k, hk⟩ := (hadjoint a ha).exists_bears (c := Usable input) (hmatch a ha) fun hu => hu.args a ha
      exact ⟨k, fun _ => hk⟩
    · exact ⟨fun _ _ => 0, fun h => absurd h ha⟩
  choose h hb using hbears
  have hroom : Allows (Fault.Unless (Usable input)) input.layout.n := allows_unless fun hu => hu.room
  have hmaps (a) (ha : a ∈ input.args) (kl) (hkl : kl ∈ a.maps.entries) :
      Allows (Fault.Unless (Usable input)) kl.2.extent := allows_unless fun hu => (hu.args a ha kl hkl).usable.1
  refine ⟨h, fun a ha x hx => (hb a ha).ends_apply (hmatch a ha) (hmaps a ha) hx, ?_⟩
  have hgradient := ends_gradient_entries (g := Lore.both (Usable input)) trivial hroom hmatch hmaps hb
  exact (ends_of_isProx hrho hgradient).map fun o ho v hv => ⟨(ho v hv).1.not_unboundedBelow hv, _, rfl, ho v hv⟩

/-- Two components: a column, and a mirror that is known in both directions. -/
def mirroredPair : Argument ℚ where
  maps := ⟨[("x", .dense ⟨2, 1, #[1, 3], rfl⟩ none), ("z", .opaqueMap OpaqueMap.twoWay)],
    List.pairwise_pair.2 (by decide)⟩
  offset := #[1, 0]
  m := 2
  n := 1

/-- One component of one of the variables. -/
def weightedSum : Argument ℚ where
  maps := ⟨[("z", .dense ⟨1, 2, #[3, -1], rfl⟩ none)], List.pairwise_singleton ..⟩
  offset := #[5]
  m := 1
  n := 1

/-- Half the sum of the components of both arguments, with a penalty. -/
def shifted : TermInput ℚ where
  function := ⟨.affine, 1 / 2, false⟩
  args := [mirroredPair, weightedSum]
  layout := ⟨⟨[("x", 1), ("z", 2)], List.pairwise_pair.2 (by decide)⟩⟩
  rho := 2

theorem shifted_matches : ∀ a ∈ shifted.args, a.Matches shifted.layout := by
  refine List.forall_mem_cons.2 ⟨⟨rfl, ?_⟩, List.forall_mem_singleton.2 ⟨rfl, ?_⟩⟩
  · exact List.forall_mem_cons.2 ⟨⟨1, rfl, rfl⟩, List.forall_mem_singleton.2 ⟨2, rfl, rfl⟩⟩
  · exact List.forall_mem_singleton.2 ⟨2, rfl, rfl⟩

theorem shifted_hasAdjoints : ∀ a ∈ shifted.args, a.HasAdjoints := by
  have hmirror : (LinearMap.opaqueMap OpaqueMap.twoWay).HasAdjoints := fun f hf => by
    rw [List.mem_singleton.1 hf]
    exact OpaqueMap.twoWay_primitive.hasAdjoint
  refine List.forall_mem_cons.2 ⟨?_, List.forall_mem_singleton.2 ?_⟩
  · exact List.forall_mem_cons.2 ⟨LinearMap.Plain.hasAdjoints trivial, List.forall_mem_singleton.2 hmirror⟩
  · exact List.forall_mem_singleton.2 (LinearMap.Plain.hasAdjoints trivial)

open LinearOperator in
/-- The point at zero, shifted by the slopes. -/
theorem linear_minimizes_shifted :
    (∀ a ∈ shifted.args, a.Matches shifted.layout) ∧ (∀ a ∈ shifted.args, a.HasAdjoints) ∧
      (0 : ℚ) ≤ shifted.rho ∧ ∃ (h : Argument ℚ → Nat → Nat → ℚ) (o : Operator ℚ),
        Family.linear.init shifted = .ok o ∧ o.apply #[0, 0, 0] = pure #[-1, -1, 0] ∧
        IsProx (cost shifted h) shifted.rho #[0, 0, 0] #[-1, -1, 0] := by
  have hrho : (0 : ℚ) ≤ shifted.rho := by decide +kernel
  obtain ⟨h, -, hinit⟩ := linear_minimizes shifted_matches shifted_hasAdjoints hrho
  obtain ⟨x, hx, hvalue⟩ := exists_eq_ok_and
    (x := Family.linear.init shifted >>= fun o => (o.apply #[0, 0, 0]).outcome)
    (p := fun x => x == #[-1, -1, 0]) (by decide +kernel)
  obtain ⟨o, ho, hx⟩ := bind_eq_ok.1 hx
  obtain ⟨-, y, hy, hprox, -⟩ := hinit.of_eq_ok ho #[0, 0, 0] rfl
  rw [hy] at hx
  rw [show y = x from Except.ok.inj hx, eq_of_beq hvalue] at hy hprox
  exact ⟨shifted_matches, shifted_hasAdjoints, hrho, h, o, ho, hy, hprox⟩

/-- An argument without components, of a variable without entries.  Its map is a product whose factors are
    not small. -/
def Argument.hollow : Argument ℚ where
  maps := ⟨[("x", .kronecker (.dense (Dense.build 1152921504606846976 0 fun _ _ => 0) none)
    (.dense (Dense.build 0 1 fun _ _ => 0) none))], List.pairwise_singleton ..⟩
  offset := #[]
  m := 0
  n := 1

/-- The sum of no components, with a penalty. -/
def emptySum : TermInput ℚ where
  function := ⟨.affine, 1, false⟩
  args := [Argument.hollow]
  layout := ⟨⟨[("x", 0)], List.pairwise_singleton ..⟩⟩
  rho := 1

open LinearOperator in
/-- The argument has a value at the only point that there is, so the cost is bounded, and there is no room
    for the image under the transpose. -/
theorem init_hollow :
    (∀ a ∈ emptySum.args, a.Matches emptySum.layout) ∧ (∀ a ∈ emptySum.args, a.HasAdjoints) ∧
      (0 : ℚ) ≤ emptySum.rho ∧ Argument.hollow.apply emptySum.layout #[] = .ok #[] ∧
      (∀ h v, ¬ UnboundedBelow (penalized (cost emptySum h) emptySum.rho v) emptySum.layout.n) ∧
      Family.linear.init emptySum = .error .breach := by
  refine ⟨List.forall_mem_singleton.2 ⟨rfl, List.forall_mem_singleton.2 ⟨0, rfl, rfl⟩⟩,
    List.forall_mem_singleton.2 (List.forall_mem_singleton.2 (LinearMap.Plain.hasAdjoints ⟨trivial, trivial⟩)),
    by decide +kernel, ?_, fun h v hbelow => ?_, eq_breach_of_breached (by decide +kernel)⟩
  · obtain ⟨y, hy, hvalue⟩ := exists_eq_ok_and (x := Argument.hollow.apply emptySum.layout #[])
      (p := fun y => y == #[]) (by decide +kernel)
    rw [hy, eq_of_beq hvalue]
  · obtain ⟨y, hy, hlt⟩ := hbelow (penalized (cost emptySum h) emptySum.rho v #[])
    rw [Array.eq_empty_of_size_eq_zero hy] at hlt
    exact lt_irrefl _ hlt

end BlockAdmm
