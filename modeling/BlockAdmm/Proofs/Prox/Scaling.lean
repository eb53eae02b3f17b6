/-
  Componentwise arguments, component by component.

  An operator on a scaling goes from a point `v` to its components `β_i v_i + g_i`, moves each of them, and
  goes back.  Where the factor is not zero, the point that it comes back to has the components that it was
  given (`Sized.component_fromArg`); where the factor is zero, the entry of `v` stays.  The penalty on a
  component is its rate, and an operator that treats the components alike moves each by one function of the
  rate and the component (`moved`).

  If all factors are one `b ≠ 0` (`Uniform`), a penalty `rho` on the point is a penalty `rho / b²` on the
  components, so it is enough to look for proximal points among them (`Uniform.hasSlope`).
-/
import BlockAdmm.Proofs.Prox.Minimizer
import BlockAdmm.Proofs.Safety.Argument

namespace BlockAdmm.Scaling

open Scalar ExactScalar

variable {R : Type} [ExactScalar R] {s : Scaling R} {n i : Nat} {b rho : R} {v x y : Array R}

/-- `s.component x i = β_i x_i + g_i`. -/
def component (s : Scaling R) (x : Array R) (i : Nat) : R :=
  Vec.entry s.beta i * Vec.entry x i + Vec.entry s.offset i

/-! ## There and back -/

theorem Sized.entry_toArg (hs : s.Sized n) (hx : x.size = n) (hi : i < n) :
    Vec.entry (s.toArg x) i = s.component x i := by
  rw [toArg, hx, hs.beta, hs.offset, Nat.min_self, Nat.min_self, Vec.entry_build _ hi, component]

theorem Sized.entry_fromArg (hs : s.Sized n) (hy : y.size = n) (hv : v.size = n) (hi : i < n) :
    Vec.entry (s.fromArg y v) i = if Vec.entry s.beta i = 0 then Vec.entry v i
      else (Vec.entry y i - Vec.entry s.offset i) / Vec.entry s.beta i := by
  rw [fromArg, hy, hv, hs.beta, hs.offset, Nat.min_self, Nat.min_self, Vec.entry_build _ hi]
  simp only [beq_iff_eq]

/-- The point has the components that it was made from. -/
theorem Sized.component_fromArg (hs : s.Sized n) (hy : y.size = n) (hv : v.size = n) (hi : i < n)
    (hbeta : Vec.entry s.beta i ≠ 0) : s.component (s.fromArg y v) i = Vec.entry y i := by
  rw [component, hs.entry_fromArg hy hv hi, if_neg hbeta, mul_div_cancel₀ _ hbeta, sub_add_cancel]

/-! ## Rates -/

theorem size_rates (s : Scaling R) (rho : R) : (s.rates rho).size = s.beta.size := Array.size_map ..

theorem entry_rates (s : Scaling R) (rho : R) (hi : i < s.beta.size) :
    Vec.entry (s.rates rho) i = if Vec.entry s.beta i = 0 then Scalar.infinity
      else rho / (Vec.entry s.beta i * Vec.entry s.beta i) := by
  rw [rates, Vec.entry_map_of_lt _ hi]
  simp only [beq_iff_eq]

/-- `s.moved rho f v`: the point whose components are those of `v`, each moved by `f` under its rate. -/
def moved (s : Scaling R) (rho : R) (f : R → R → R) (v : Array R) : Array R :=
  s.fromArg (Vec.build (min (s.toArg v).size (s.rates rho).size) fun i =>
    f (Vec.entry (s.rates rho) i) (Vec.entry (s.toArg v) i)) v

theorem Sized.size_moved (hs : s.Sized n) (hv : v.size = n) (f : R → R → R) : (s.moved rho f v).size = n := by
  refine hs.size_fromArg ?_ hv
  rw [Vec.size_build, hs.size_toArg hv, size_rates, hs.beta, Nat.min_self]

theorem Sized.entry_moved (hs : s.Sized n) (hv : v.size = n) (hi : i < n) (f : R → R → R) :
    Vec.entry (s.moved rho f v) i = if Vec.entry s.beta i = 0 then Vec.entry v i
      else (f (rho / (Vec.entry s.beta i * Vec.entry s.beta i)) (s.component v i) - Vec.entry s.offset i)
        / Vec.entry s.beta i := by
  rw [moved, hs.size_toArg hv, size_rates, hs.beta, Nat.min_self, hs.entry_fromArg (Vec.size_build ..) hv hi]
  split
  · rfl
  · rename_i hbeta
    rw [Vec.entry_build _ hi, s.entry_rates rho (hs.beta ▸ hi), if_neg hbeta, hs.entry_toArg hv hi]

/-! ## One factor -/

/-- `s.Uniform n b`: at least one component, and one factor `b` for all, which is not zero. -/
structure Uniform (n : Nat) (b : R) (s : Scaling R) : Prop extends s.Sized n where
  pos : 0 < n
  ne_zero : b ≠ 0
  factor : ∀ i, i < n → Vec.entry s.beta i = b

namespace Uniform

theorem uniform? (hs : s.Uniform n b) : s.uniform? = some b := by
  have hfirst : Vec.entry s.beta 0 = b := hs.factor 0 hs.pos
  have hall : s.beta.all (fun c => c == b) = true := by
    rw [Array.all_eq_true_iff_forall_mem]
    intro c hc
    obtain ⟨i, hi, rfl⟩ := Array.mem_iff_getElem.1 hc
    rw [beq_iff_eq, ← hs.factor i (hs.beta ▸ hi), Vec.entry, Array.getD, dif_pos hi]
    rfl
  have hne : (b != 0) = true := bne_iff_ne.2 hs.ne_zero
  rw [Scaling.uniform?, if_neg (by rw [hs.beta]; exact hs.pos.ne'), hfirst]
  exact if_pos (by rw [hall, hne]; rfl)

theorem component_eq (hs : s.Uniform n b) (x : Array R) (hi : i < n) :
    s.component x i = b * Vec.entry x i + Vec.entry s.offset i := by
  rw [component, hs.factor i hi]

theorem component_fromArg (hs : s.Uniform n b) (hy : y.size = n) (hv : v.size = n) (hi : i < n) :
    s.component (s.fromArg y v) i = Vec.entry y i :=
  hs.toSized.component_fromArg hy hv hi (by rw [hs.factor i hi]; exact hs.ne_zero)

theorem toArg_fromArg (hs : s.Uniform n b) (hy : y.size = n) (hv : v.size = n) :
    s.toArg (s.fromArg y v) = y := by
  have hx : (s.fromArg y v).size = n := hs.size_fromArg hy hv
  refine Vec.ext_entry ((hs.size_toArg hx).trans hy.symm) fun i hi => ?_
  rw [hs.size_toArg hx] at hi
  rw [hs.entry_toArg hx hi, hs.component_fromArg hy hv hi]

/-- Slopes in the components are slopes in the entries, `b` times as steep. -/
theorem hasSlope {f : Array R → R} (hs : s.Uniform n b) (hy : y.size = n) (hv : v.size = n)
    (h : HasSlope f y fun i => rho / (b * b) * (Vec.entry (s.toArg v) i - Vec.entry y i)) :
    HasSlope (fun x => f (s.toArg x)) (s.fromArg y v) fun i =>
      rho * (Vec.entry v i - Vec.entry (s.fromArg y v) i) := by
  intro x hx
  have hsize : (s.fromArg y v).size = n := hs.size_fromArg hy hv
  have hx : x.size = n := hx.trans hsize
  have hle := h (s.toArg x) ((hs.size_toArg hx).trans hy.symm)
  dsimp only at hle ⊢
  refine le_of_eq_of_le (congrArg₂ (· + ·) ?_ ?_) hle
  · rw [hs.toArg_fromArg hy hv]
  · rw [hsize, hy]
    refine Finset.sum_congr rfl fun i hi => ?_
    have hi := Finset.mem_range.1 hi
    have hb := hs.ne_zero
    rw [← hs.component_fromArg hy hv hi, hs.entry_toArg hv hi, hs.entry_toArg hx hi, hs.component_eq _ hi,
      hs.component_eq _ hi, hs.component_eq _ hi]
    field_simp
    ring

end Uniform

end BlockAdmm.Scaling

namespace BlockAdmm.TermInput

variable {R : Type}

/-- `ofScaling f s m n rho`: the term `f` of the argument `β x + g`, a matrix of `m` rows and `n` columns. -/
def ofScaling (f : TermFunction R) (s : Scaling R) (m n : Nat) (rho : R) : TermInput R where
  function := f
  args := [⟨⟨[("x", .diagonal s.beta none)], List.pairwise_singleton ..⟩, s.offset, m, n⟩]
  layout := ⟨⟨[("x", s.beta.size)], List.pairwise_singleton ..⟩⟩
  rho := rho

/-- Every scaling is that of a term. -/
theorem scaling_ofScaling [Scalar R] {s : Scaling R} {m n : Nat} (hs : s.Sized (m * n)) (f : TermFunction R)
    (rho : R) : (ofScaling f s m n rho).scaling = .ok s := by
  let a : Argument R := ⟨⟨[("x", .diagonal s.beta none)], List.pairwise_singleton ..⟩, s.offset, m, n⟩
  have hmap : (LinearMap.diagonal s.beta none).diagonal? = .ok (some s.beta) :=
    if_neg (bne_iff_ne.not_left.2 rfl)
  have hdiagonal : a.diagonal? (ofScaling f s m n rho).layout = .ok (some s.beta) := by
    rw [Argument.diagonal?, if_neg]
    · exact hmap
    · rw [Bool.or_eq_true, not_or, bne_iff_ne, bne_iff_ne, not_not, not_not]
      exact ⟨rfl, hs.beta.symm⟩
  exact bind_eq_ok.2 ⟨a, rfl, bind_eq_ok.2 ⟨some s.beta, hdiagonal, rfl⟩⟩

end BlockAdmm.TermInput
