/-
  Exact readings: scalars whose operations are those of an ordered field.

  The definitions of the library are written over any `Scalar`.  Over the doubles every operation
  rounds; over an exact reading the same definitions say what is meant.  `ExactScalar R` asks for the
  laws that need no root: the arithmetic is that of a linearly ordered field, `==` decides equality,
  a written number is that number, and `abs`, `larger` and `signum` are what their names say.
  `ExactRoots R` adds that every nonnegative scalar has a square root.

  The rationals are an exact reading in which everything but the elementary functions can be run;
  the reals are an exact reading with roots.
-/
import Mathlib
import BlockAdmm.Vec

namespace BlockAdmm

/-- A reading in which nothing is rounded: the scalars are a linearly ordered field, and the
    operations are the ones of the field and its order. -/
class ExactScalar (R : Type) extends Field R, LinearOrder R, IsStrictOrderedRing R, Scalar R where
  /-- `==` compares values -/
  beq_iff : ∀ x y : R, (x == y) = true ↔ x = y
  /-- identity is equality -/
  same_iff : ∀ x y : R, Scalar.same x y = true ↔ x = y
  /-- a number stands for itself -/
  ofScientific_eq_cast : ∀ (m : Nat) (s : Bool) (e : Nat),
    (OfScientific.ofScientific m s e : R) = ((OfScientific.ofScientific m s e : ℚ) : R)
  abs_eq : ∀ x : R, Scalar.abs x = max x (-x)
  larger_eq : ∀ x y : R, Scalar.larger x y = max x y
  signum_eq : ∀ x : R, Scalar.signum x = if 0 ≤ x then 1 else -1

/-- An exact reading in which every nonnegative scalar has its square root. -/
class ExactRoots (R : Type) extends ExactScalar R where
  sqrt_nonneg : ∀ x : R, 0 ≤ x → 0 ≤ Scalar.sqrt x
  sqrt_mul_self : ∀ x : R, 0 ≤ x → Scalar.sqrt x * Scalar.sqrt x = x

namespace ExactScalar

open Scalar

variable {R : Type} [ExactScalar R]

instance : LawfulBEq R where
  eq_of_beq h := (beq_iff _ _).1 h
  rfl := (beq_iff _ _).2 rfl

/-! ## Sums and quotients -/

theorem sumBelow_eq_sum (f : Nat → R) (n : Nat) : sumBelow f n = ∑ i ∈ Finset.range n, f i := by
  induction n with
  | zero => rfl
  | succ n ih => rw [sumBelow_succ, ih, Finset.sum_range_succ]

theorem foldl_add_eq (xs : List R) (s : R) : xs.foldl (· + ·) s = s + xs.sum := by
  induction xs generalizing s with
  | nil => rw [List.foldl_nil, List.sum_nil, add_zero]
  | cons x xs ih => rw [List.foldl_cons, ih, List.sum_cons, add_assoc]

/-- The negative zero that a sum starts with is zero. -/
theorem total_eq_sum (xs : List R) : total xs = xs.sum := by
  have h : (negZero : R) = 0 := neg_zero
  rw [total, foldl_add_eq, h, zero_add]

/-- A conditional sum over a list, as the loops over stored entries write it. -/
theorem foldl_ite_add {α : Type} (p : α → Prop) [DecidablePred p] (f : α → R) (xs : List α) (s : R) :
    xs.foldl (fun s x => if p x then s + f x else s) s
      = s + (xs.map fun x => if p x then f x else 0).sum := by
  induction xs generalizing s with
  | nil => rw [List.foldl_nil, List.map_nil, List.sum_nil, add_zero]
  | cons x xs ih =>
    rw [List.foldl_cons, ih, List.map_cons, List.sum_cons]
    by_cases h : p x
    · rw [if_pos h, if_pos h, add_assoc]
    · rw [if_neg h, if_neg h, zero_add]

theorem recip_mul (a x : R) : recip a * x = x / a := by
  rw [recip, div_mul_eq_mul_div, one_mul]

/-! ## Roots -/

section Roots

variable {S : Type} [ExactRoots S]

theorem sqrt_nonneg {x : S} (h : 0 ≤ x) : 0 ≤ Scalar.sqrt x := ExactRoots.sqrt_nonneg x h

theorem sqrt_sq {x : S} (h : 0 ≤ x) : Scalar.sqrt x ^ 2 = x :=
  (pow_two _).trans (ExactRoots.sqrt_mul_self x h)

/-- A nonnegative scalar is the root of its square. -/
theorem sqrt_eq_of_sq {x y : S} (hx : 0 ≤ x) (h : x ^ 2 = y) : Scalar.sqrt y = x := by
  have hy : 0 ≤ y := h ▸ sq_nonneg x
  refine (pow_left_inj₀ (sqrt_nonneg hy) hx two_ne_zero).1 ?_
  exact (sqrt_sq hy).trans h.symm

theorem sqrt_zero : Scalar.sqrt (0 : S) = 0 := sqrt_eq_of_sq le_rfl (by rw [pow_two, mul_zero])

/-- A square under a root comes out in front. -/
theorem sqrt_sq_mul {a x : S} (ha : 0 ≤ a) (hx : 0 ≤ x) :
    Scalar.sqrt (a ^ 2 * x) = a * Scalar.sqrt x := by
  refine sqrt_eq_of_sq (mul_nonneg ha (sqrt_nonneg hx)) ?_
  exact (mul_pow _ _ _).trans (congrArg (a ^ 2 * ·) (sqrt_sq hx))

end Roots

end ExactScalar

/-! ## The two readings -/

/-- The rationals.  Arithmetic is exact and can be run; a square root is right on squares of rationals,
    and the other elementary functions, of which nothing is asked, are left at zero. -/
instance : ExactScalar ℚ where
  decLt := inferInstance
  decLe := inferInstance
  beq x y := decide (x = y)
  same x y := decide (x = y)
  abs x := max x (-x)
  sqrt := Rat.sqrt
  exp _ := 0
  log _ := 0
  log1p _ := 0
  larger := max
  signum x := if 0 ≤ x then 1 else -1
  isFinite _ := true
  infinity := 1
  ceilNat x := ⌈x⌉₊
  debug := toString
  plain := toString
  scientific _ := toString
  beq_iff _ _ := decide_eq_true_iff
  same_iff _ _ := decide_eq_true_iff
  ofScientific_eq_cast _ _ _ := (Rat.cast_id _).symm
  abs_eq _ := rfl
  larger_eq _ _ := rfl
  signum_eq _ := rfl

/-- The real numbers.  They are not written down, so their written forms are empty. -/
noncomputable instance : ExactRoots ℝ where
  decLt := inferInstance
  decLe := inferInstance
  ofScientific m s e := ((OfScientific.ofScientific m s e : ℚ) : ℝ)
  beq x y := decide (x = y)
  same x y := decide (x = y)
  abs x := max x (-x)
  sqrt := Real.sqrt
  exp := Real.exp
  log := Real.log
  log1p x := Real.log (1 + x)
  larger := max
  signum x := if 0 ≤ x then 1 else -1
  isFinite _ := true
  infinity := 1
  ceilNat x := ⌈x⌉₊
  debug _ := ""
  plain _ := ""
  scientific _ _ := ""
  beq_iff _ _ := decide_eq_true_iff
  same_iff _ _ := decide_eq_true_iff
  ofScientific_eq_cast _ _ _ := rfl
  abs_eq _ := rfl
  larger_eq _ _ := rfl
  signum_eq _ := rfl
  sqrt_nonneg x _ := Real.sqrt_nonneg x
  sqrt_mul_self _ h := Real.mul_self_sqrt h

end BlockAdmm
