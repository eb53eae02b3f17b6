/-
  Zeros.

  The doubles have two zeros, which compare as equal.  What is computed from zeros alone is a zero again, and so is
  a finite number times a zero; an infinite number times a zero is not.  `LawfulZero R` collects these laws.  An
  exact reading with roots has them, since it has one zero only, and the doubles have them as well: their zeros
  are the doubles without a mantissa (`Binary64.isZero_iff`), whatever the sign.
-/
import BlockAdmm.Proofs.Exact
import BlockAdmm.Scalar.Binary64

namespace BlockAdmm

open Scalar

/-- `IsZero x`: the scalar compares as equal to zero. -/
def Scalar.IsZero {R : Type} [Scalar R] (x : R) : Prop := (x == 0) = true

/-- Readings in which zeros stay zeros. -/
class LawfulZero (R : Type) [Scalar R] : Prop where
  zero : IsZero (0 : R)
  negZero : IsZero (negZero : R)
  natCast : IsZero ((0 : Nat) : R)
  add : ∀ {x y : R}, IsZero x → IsZero y → IsZero (x + y)
  mul : ∀ {a x : R}, isFinite a = true ∨ IsZero a → IsZero x → IsZero (a * x)
  sqrt : ∀ {x : R}, IsZero x → IsZero (sqrt x)
  larger : ∀ {x y : R}, IsZero x → IsZero y → IsZero (larger x y)
  le : ∀ {x y : R}, IsZero x → IsZero y → x ≤ y

/-! ## Exact readings -/

namespace ExactScalar

theorem isZero_iff {R : Type} [ExactScalar R] {x : R} : IsZero x ↔ x = 0 := beq_iff x 0

instance {R : Type} [ExactRoots R] : LawfulZero R where
  zero := isZero_iff.2 rfl
  negZero := isZero_iff.2 neg_zero
  natCast := isZero_iff.2 Nat.cast_zero
  add hx hy := isZero_iff.2 (by rw [isZero_iff.1 hx, isZero_iff.1 hy, add_zero])
  mul _ hx := isZero_iff.2 (by rw [isZero_iff.1 hx, mul_zero])
  sqrt hx := isZero_iff.2 (by rw [isZero_iff.1 hx, sqrt_zero])
  larger hx hy := isZero_iff.2 (by
    rw [isZero_iff.1 hx, isZero_iff.1 hy]
    exact (ExactScalar.larger_eq 0 0).trans (max_self 0))
  le hx hy := by rw [isZero_iff.1 hx, isZero_iff.1 hy]

end ExactScalar

/-! ## The doubles -/

namespace Binary64

open Float.Model (UnpackedFloat Format)

variable {a x y : Float} {s t : UnpackedFloat.Sign}

/-- `view x`: a double taken apart into sign, mantissa and exponent. -/
def view (x : Float) : UnpackedFloat := x.toModel.unpack

/-- A zero is stored as it is. -/
theorem unpack_pack_zero (s : UnpackedFloat.Sign) :
    UnpackedFloat.unpack Format.binary64 (UnpackedFloat.pack Format.binary64 (.zero s)) = .zero s :=
  UnpackedFloat.unpack_packedZero

theorem isZero_iff : IsZero x ↔ ∃ s, view x = .zero s := by
  show UnpackedFloat.beq (view x) (.zero .positive) = true ↔ _
  rcases view x with s | _ | s | ⟨s, m, e, hm⟩ <;> simp [UnpackedFloat.beq, UnpackedFloat.compare]
  -- an infinite number and a finite one lie on the side of zero that their sign says
  · cases s <;> simp
  · cases s <;> simp

theorem view_add (hx : view x = .zero s) (hy : view y = .zero t) :
    view (x + y) = .zero (if s == t then s else .positive) := by
  have h : view (x + y) = UnpackedFloat.unpack Format.binary64 (UnpackedFloat.pack Format.binary64
    (UnpackedFloat.add Format.binary64 (view x) (view y))) := rfl
  rw [h, hx, hy, UnpackedFloat.add]
  split <;> exact unpack_pack_zero _

theorem exists_view_mul (ha : a.isFinite = true) (hx : view x = .zero s) : ∃ t, view (a * x) = .zero t := by
  have h : view (a * x) = UnpackedFloat.unpack Format.binary64 (UnpackedFloat.pack Format.binary64
    (UnpackedFloat.mul Format.binary64 (view a) (view x))) := rfl
  have ha : (view a).isFinite = true := ha
  rw [h, hx]
  cases hview : view a with
  | infinity t => rw [hview] at ha; cases ha
  | notANumber => rw [hview] at ha; cases ha
  | zero t => exact ⟨_, unpack_pack_zero _⟩
  | finite t m e hm => exact ⟨_, unpack_pack_zero _⟩

theorem view_sqrt (hx : view x = .zero s) : view (Float.sqrt x) = .zero s := by
  have h : view (Float.sqrt x) = UnpackedFloat.unpack Format.binary64 (UnpackedFloat.pack Format.binary64
    (UnpackedFloat.sqrt Format.binary64 (view x))) := rfl
  rw [h, hx]
  exact unpack_pack_zero _

theorem le_of_view (hx : view x = .zero s) (hy : view y = .zero t) : x ≤ y := by
  have h : UnpackedFloat.le (view x) (view y) = true := by
    rw [hx, hy]
    rfl
  exact decide_eq_true (p := x.toModel ≤ y.toModel) h

instance : LawfulZero Float where
  zero := isZero_iff.2 ⟨.positive, rfl⟩
  negZero := isZero_iff.2 ⟨.negative, rfl⟩
  natCast := isZero_iff.2 ⟨.positive, rfl⟩
  add hx hy := by
    obtain ⟨s, hx⟩ := isZero_iff.1 hx
    obtain ⟨t, hy⟩ := isZero_iff.1 hy
    exact isZero_iff.2 ⟨_, view_add hx hy⟩
  mul ha hx := by
    obtain ⟨s, hx⟩ := isZero_iff.1 hx
    refine isZero_iff.2 (exists_view_mul (ha.elim id fun ha => ?_) hx)
    obtain ⟨t, ha⟩ := isZero_iff.1 ha
    exact congrArg UnpackedFloat.isFinite ha
  sqrt hx := by
    obtain ⟨s, hx⟩ := isZero_iff.1 hx
    exact isZero_iff.2 ⟨s, view_sqrt hx⟩
  larger {x y} hx hy := by
    show IsZero (Binary64.larger x y)
    rw [Binary64.larger]
    split
    · exact hy
    · split
      · exact hx
      · split
        · exact hx
        · exact hy
  le hx hy := by
    obtain ⟨s, hx⟩ := isZero_iff.1 hx
    obtain ⟨t, hy⟩ := isZero_iff.1 hy
    exact le_of_view hx hy

/-- The order of two factors does not matter. -/
theorem mul_comm (x y : Float) : x * y = y * x := by
  have h (x y : Float) :
    x * y = ⟨Float.Model.pack (UnpackedFloat.mul Format.binary64 (view x) (view y))⟩ := rfl
  rw [h, h]
  congr 2
  have hsign (s t : UnpackedFloat.Sign) : s * t = t * s := by cases s <;> cases t <;> rfl
  cases view x <;> cases view y <;> simp only [UnpackedFloat.mul, hsign, Nat.mul_comm, Int.add_comm]

end Binary64

end BlockAdmm
