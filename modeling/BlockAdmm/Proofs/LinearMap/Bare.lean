/-
  Maps that differ in their marks.

  A mark says that two stored values are one and the same, which matters only where a value is not equal to
  itself.  Over an exact reading every value is, so for maps without functions marks decide nothing: what is
  computed from a map is computed from the map without its marks (`LinearMap.bare`), and maps that are alike
  but for their marks (`LinearMap.Alike`) stay so under every operation.  Which marks a compilation has given
  away before it comes to a map is therefore of no account.
-/
import BlockAdmm.Proofs.Congruence
import BlockAdmm.Proofs.LinearMap.Structure

namespace BlockAdmm

open Scalar ExactScalar

namespace LinearMap

variable {R : Type}

/-- `l.bare`: the map without the marks of its leaves. -/
def bare : LinearMap R → LinearMap R
  | .dense a _ => .dense a none
  | .sparse a _ => .sparse a none
  | .diagonal d _ => .diagonal d none
  | .scalar n alpha _ => .scalar n alpha none
  | .kronecker a b => .kronecker a.bare b.bare
  | .opaqueMap f => .opaqueMap f

/-! ## What does not look at marks -/

section Views

variable (l a b : LinearMap R)

@[simp] theorem size_bare : l.bare.size = l.size := by
  induction l with
  | kronecker a b iha ihb => simp only [bare, size, iha, ihb]
  | dense | sparse | diagonal | scalar | opaqueMap => rfl

@[simp] theorem m_bare : l.bare.m = l.m := congrArg Prod.fst l.size_bare

@[simp] theorem n_bare : l.bare.n = l.n := congrArg Prod.snd l.size_bare

@[simp] theorem fits_bare : l.bare.Fits ↔ l.Fits := by
  induction l with
  | kronecker a b iha ihb => simp only [bare, Fits, m_bare, n_bare, iha, ihb]
  | dense | sparse | diagonal | scalar | opaqueMap => rfl

@[simp] theorem plain_bare : l.bare.Plain ↔ l.Plain := by
  induction l with
  | kronecker a b iha ihb => simp only [bare, Plain, iha, ihb]
  | dense | sparse | diagonal | scalar | opaqueMap => rfl

@[simp] theorem bare_share (next : Nat) : l.Plain → (l.share next).1.bare = l.bare := by
  induction l generalizing next with
  | kronecker a b iha ihb =>
    intro h
    simp only [share, bare, iha next h.1, ihb _ h.2]
  | opaqueMap f => exact fun h => absurd h id
  | dense | sparse | diagonal | scalar => exact fun _ => rfl

theorem bare_kron [Mul R] : (a.kron b).bare = a.bare.kron b.bare := by
  cases a <;> cases b <;> rfl

variable [Scalar R]

@[simp] theorem apply_bare : l.bare.apply = l.apply := by
  induction l with
  | kronecker a b iha ihb =>
    funext x
    simp only [bare, apply, iha, ihb, m_bare, n_bare]
  | dense | sparse | diagonal | scalar | opaqueMap => rfl

@[simp] theorem toDense_bare : l.bare.toDense = l.toDense := by
  induction l with
  | kronecker a b iha ihb => simp only [bare, toDense, iha, ihb]
  | dense | sparse | diagonal | scalar | opaqueMap => rfl

@[simp] theorem toSparse_bare : l.bare.toSparse = l.toSparse := by
  induction l with
  | kronecker a b iha ihb => simp only [bare, toSparse, iha, ihb]
  | dense | sparse | diagonal | scalar | opaqueMap => rfl

@[simp] theorem diagonal?_bare : l.bare.diagonal? = l.diagonal? := by
  induction l with
  | kronecker a b iha ihb =>
    rw [bare, diagonal?, diagonal?, iha, ihb]
    simp only [m, n, size, size_bare]
    rfl
  | dense | sparse | diagonal | scalar | opaqueMap => rfl

@[simp] theorem scalar?_bare : l.bare.scalar? = l.scalar? := by
  cases l with
  | kronecker a b =>
    show (do return (← (kronecker a b).bare.diagonal?).bind uniform?) = _
    rw [diagonal?_bare]
    rfl
  | dense | sparse | diagonal | scalar | opaqueMap => rfl

theorem transpose_bare : l.bare.transpose = l.transpose.map bare := by
  induction l with
  | kronecker a b iha ihb =>
    rw [bare, transpose, transpose, iha, ihb]
    cases a.transpose with
    | error f => rfl
    | ok ta =>
      cases b.transpose with
      | error f => rfl
      | ok tb => exact congrArg Except.ok (bare_kron ta tb).symm
  | sparse a _ =>
    show (do return ofSparse (← a.flip)) = Except.map bare (do return ofSparse (← a.flip))
    cases a.flip <;> rfl
  | opaqueMap f =>
    show (opaqueMap f).transpose = (opaqueMap f).transpose.map bare
    rw [transpose]
    cases f.transpose? with
    | some t => rfl
    | none => cases f.toDense <;> rfl
  | dense | diagonal | scalar => rfl

theorem bare_scaleBy (alpha : R) : (l.scaleBy alpha).bare = l.bare.scaleBy alpha := by
  induction l with
  | kronecker a b iha _ =>
    rw [bare, scaleBy, scaleBy]
    split
    · rfl
    · rw [bare_kron, iha]
  | dense | sparse | diagonal | scalar | opaqueMap =>
    simp only [bare, scaleBy]
    split <;> rfl

end Views

/-! ## Equality, sums and products -/

section Exact

variable [ExactScalar R] {a b : LinearMap R}

theorem same_eq_beq (x y : R) : Scalar.same x y = (x == y) := by
  rw [Bool.eq_iff_iff]
  exact (same_iff x y).trans (beq_iff x y).symm

/-- An exact value is equal to itself, so it does not matter whether two values are one. -/
theorem equalParts_bare (ha : a.Plain) : equalParts a.bare b.bare = equalParts a b := by
  have hvec (x y : Array R) : Vec.same x y = Vec.equal x y := by
    simp only [Vec.same, Vec.equal, same_eq_beq]
  have hdense (x y : Dense R) : Dense.same x y = Dense.equal x y := by
    simp only [Dense.same, Dense.equal, hvec]
  have hsparse (x y : Sparse R) : Sparse.same x y = Sparse.equal x y := by
    simp only [Sparse.same, Sparse.equal, Sparse.agree, same_eq_beq]
  have hor (c e : Bool) : (c && e || e) = e := by cases c <;> cases e <;> rfl
  induction a generalizing b with
  | kronecker a₁ a₂ ih₁ ih₂ =>
    cases b with
    | kronecker b₁ b₂ => simp only [bare, equalParts, size_bare, ih₁ ha.1, ih₂ ha.2]
    | dense | sparse | diagonal | scalar | opaqueMap => rfl
  | opaqueMap f => exact absurd ha id
  | dense | sparse | diagonal | scalar =>
    cases b <;> simp only [bare, equalParts, hvec, hdense, hsparse, same_eq_beq, hor]

theorem equal_bare (ha : a.Plain) : equal a.bare b.bare = equal a b := by
  rw [equal, equal, equalParts_bare ha, size_bare, size_bare]

end Exact

section Products

variable [Scalar R] {a b : LinearMap R}

theorem denseSum_bare : denseSum a.bare b.bare = (denseSum a b).map bare := by
  rw [denseSum, denseSum, toDense_bare, toDense_bare]
  cases a.toDense with
  | error f => rfl
  | ok da =>
    cases b.toDense with
    | error f => rfl
    | ok db =>
      show (do return ofDense (← Dense.addScaled 1 db da))
        = Except.map bare (do return ofDense (← Dense.addScaled 1 db da))
      cases Dense.addScaled 1 db da <;> rfl

theorem sparseSum_bare : sparseSum a.bare b.bare = (sparseSum a b).map bare := by
  rw [sparseSum, sparseSum, toSparse_bare, toSparse_bare]
  cases a.toSparse with
  | error f => rfl
  | ok sa =>
    cases b.toSparse with
    | error f => rfl
    | ok sb =>
      show (do return ofSparse (← sa.merge sb)) = Except.map bare (do return ofSparse (← sa.merge sb))
      cases sa.merge sb <;> rfl

theorem denseProduct_bare : denseProduct a.bare b.bare = (denseProduct a b).map bare := by
  rw [denseProduct, denseProduct, toDense_bare, toDense_bare]
  cases a.toDense with
  | error f => rfl
  | ok da =>
    cases b.toDense with
    | error f => rfl
    | ok db =>
      show (do return ofDense (← da.mulMat db)) = Except.map bare (do return ofDense (← da.mulMat db))
      cases da.mulMat db <;> rfl

theorem sparseProduct_bare : sparseProduct a.bare b.bare = (sparseProduct a b).map bare := by
  rw [sparseProduct, sparseProduct, toSparse_bare, toSparse_bare]
  cases a.toSparse with
  | error f => rfl
  | ok sa =>
    cases b.toSparse with
    | error f => rfl
    | ok sb =>
      show (do return ofSparse (← sa.compose sb)) = Except.map bare (do return ofSparse (← sa.compose sb))
      cases sa.compose sb <;> rfl

theorem map_promise_bind {α β : Type} (c : Bool) (x : Outcome α) (f : α → β) :
    (promise c >>= fun _ => x).map f = promise c >>= fun _ => x.map f := by
  cases c <;> rfl

theorem mul_bare (ha : a.Plain) (hb : b.Plain) : a.bare.mul b.bare = (a.mul b).map bare := by
  induction a generalizing b with
  | opaqueMap f => exact absurd ha id
  | scalar n x _ =>
    rw [mul.eq_def, mul.eq_def, n_bare, m_bare, map_promise_bind]
    exact congrArg (promise _ >>= ·) (funext fun _ => congrArg Except.ok (bare_scaleBy b x).symm)
  | kronecker a₁ a₂ ih₁ ih₂ =>
    rw [mul.eq_def, mul.eq_def, n_bare, m_bare, map_promise_bind]
    refine congrArg (promise _ >>= ·) (funext fun _ => ?_)
    cases b with
    | opaqueMap f => exact absurd hb id
    | scalar n y _ => exact congrArg Except.ok (bare_scaleBy _ y).symm
    | dense b _ => exact denseProduct_bare
    | sparse | diagonal => exact sparseProduct_bare
    | kronecker b₁ b₂ =>
      simp only [bare, m_bare, n_bare, ih₁ ha.1 hb.1, ih₂ ha.2 hb.2]
      split
      · cases a₁.mul b₁ with
        | error f => rfl
        | ok s =>
          cases a₂.mul b₂ with
          | error f => rfl
          | ok t => exact congrArg Except.ok (bare_kron s t).symm
      · exact sparseProduct_bare (a := .kronecker a₁ a₂) (b := .kronecker b₁ b₂)
  | dense | sparse | diagonal =>
    rw [mul.eq_def, mul.eq_def, n_bare, m_bare, map_promise_bind]
    refine congrArg (promise _ >>= ·) (funext fun _ => ?_)
    cases b with
    | opaqueMap f => exact absurd hb id
    | scalar n y _ => exact congrArg Except.ok (bare_scaleBy (R := R) _ y).symm
    | dense | sparse | diagonal | kronecker =>
      first | exact denseProduct_bare | exact sparseProduct_bare | rfl

end Products

/-- Exact sums of maps without functions. -/
theorem add_bare [ExactScalar R] {a b : LinearMap R} (ha : a.Plain) (hb : b.Plain) :
    a.bare.add b.bare = (a.add b).map bare := by
  induction a generalizing b with
  | opaqueMap f => exact absurd ha id
  | kronecker a₁ a₂ ih₁ ih₂ =>
    rw [add.eq_def, add.eq_def, size_bare, size_bare, n_bare, m_bare, map_promise_bind]
    refine congrArg (promise _ >>= ·) (funext fun _ => ?_)
    split
    · rfl
    cases b with
    | opaqueMap f => exact absurd hb id
    | dense b _ => exact denseSum_bare
    | sparse | diagonal | scalar => exact sparseSum_bare
    | kronecker b₁ b₂ =>
      simp only [bare, equal_bare ha.1, equal_bare ha.2, ih₁ ha.1 hb.1, ih₂ ha.2 hb.2]
      split
      · cases a₂.add b₂ with
        | error f => rfl
        | ok s => exact congrArg Except.ok (bare_kron a₁ s).symm
      · split
        · cases a₁.add b₁ with
          | error f => rfl
          | ok s => exact congrArg Except.ok (bare_kron s a₂).symm
        · exact sparseSum_bare (a := .kronecker a₁ a₂) (b := .kronecker b₁ b₂)
  | dense | sparse | diagonal | scalar =>
    rw [add.eq_def, add.eq_def, size_bare, size_bare, n_bare, m_bare, map_promise_bind]
    refine congrArg (promise _ >>= ·) (funext fun _ => ?_)
    split
    · rfl
    cases b with
    | opaqueMap f => exact absurd hb id
    | dense | sparse | diagonal | scalar | kronecker =>
      first | exact denseSum_bare | exact sparseSum_bare | rfl

/-! ## Maps that are alike -/

/-- `l.Alike l'`: maps without functions that differ in their marks only. -/
structure Alike (l l' : LinearMap R) : Prop where
  plain : l.Plain
  bare : l.bare = l'.bare

namespace Alike

variable {a a' b b' l l' : LinearMap R}

theorem refl (h : l.Plain) : l.Alike l := ⟨h, rfl⟩

theorem plain_right (h : l.Alike l') : l'.Plain := by
  rw [← plain_bare, ← h.bare, plain_bare]
  exact h.plain

theorem size_eq (h : l.Alike l') : l.size = l'.size := by
  rw [← size_bare, h.bare, size_bare]

theorem m_eq (h : l.Alike l') : l.m = l'.m := congrArg Prod.fst h.size_eq

theorem n_eq (h : l.Alike l') : l.n = l'.n := congrArg Prod.snd h.size_eq

theorem fits_iff (h : l.Alike l') : l.Fits ↔ l'.Fits := by
  rw [← fits_bare, h.bare, fits_bare]

theorem share (h : l.Alike l') (k k' : Nat) : (l.share k).1.Alike (l'.share k').1 := by
  refine ⟨h.plain.share k, ?_⟩
  rw [bare_share l k h.plain, bare_share l' k' h.plain_right, h.bare]

/-- What comes from plain maps and is the same without its marks. -/
theorem of_map_bare {x x' : Outcome (LinearMap R)} (hplain : ∀ s, x = .ok s → s.Plain)
    (h : x.map LinearMap.bare = x'.map LinearMap.bare) : Both Alike x x' := by
  cases x with
  | error f =>
    cases x' with
    | error f' => exact Except.error.inj h
    | ok s' => cases h
  | ok s =>
    cases x' with
    | error f' => cases h
    | ok s' => exact ⟨hplain s rfl, Except.ok.inj h⟩

section Operations

variable [Scalar R]

theorem apply_eq (h : l.Alike l') : l.apply = l'.apply := by
  rw [← apply_bare, h.bare, apply_bare]

theorem transpose (h : l.Alike l') : Both Alike l.transpose l'.transpose := by
  refine of_map_bare (fun t ht => h.plain.transpose ht) ?_
  rw [← transpose_bare, h.bare, transpose_bare]

theorem neg (h : l.Alike l') : l.neg.Alike l'.neg := by
  refine ⟨h.plain.scaleBy _, ?_⟩
  rw [LinearMap.neg, LinearMap.neg, bare_scaleBy, h.bare, bare_scaleBy]

theorem mul (ha : a.Alike a') (hb : b.Alike b') : Both Alike (a.mul b) (a'.mul b') := by
  refine of_map_bare (fun s hs => ha.plain.mul hb.plain hs) ?_
  rw [← mul_bare ha.plain hb.plain, ha.bare, hb.bare, mul_bare ha.plain_right hb.plain_right]

end Operations

theorem add [ExactScalar R] (ha : a.Alike a') (hb : b.Alike b') : Both Alike (a.add b) (a'.add b') := by
  refine of_map_bare (fun s hs => ha.plain.add hb.plain hs) ?_
  rw [← add_bare ha.plain hb.plain, ha.bare, hb.bare, add_bare ha.plain_right hb.plain_right]

end Alike

end LinearMap

end BlockAdmm
