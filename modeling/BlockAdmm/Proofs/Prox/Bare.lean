/-
  Terms whose arguments differ in their marks.

  An argument keeps a map for each variable.  What is read off it or written out as a matrix, and the image of its
  transpose, are those of the maps without their marks, and an operator keeps nothing of its argument but these.
  So a term has one operator, whatever marks its arguments were given (`Operator.build_bare`).
-/
import BlockAdmm.Proofs.LinearMap.Bare
import BlockAdmm.Prox.Operator

namespace BlockAdmm

variable {R : Type}

/-! ## Arguments -/

namespace Argument

/-- `a.bare`: the argument without the marks of its maps. -/
def bare (a : Argument R) : Argument R := { a with maps := a.maps.map LinearMap.bare }

@[simp] theorem dim_bare (a : Argument R) : a.bare.dim = a.dim := rfl

theorem entries_bare (a : Argument R) :
    a.bare.maps.entries = a.maps.entries.map fun kv => (kv.1, kv.2.bare) := rfl

variable [Scalar R] (a : Argument R) (layout : Layout)

omit [Scalar R] in
/-- A walk over the maps that looks at them without their marks. -/
theorem foldlM_bare {σ : Type} {f : σ → String × LinearMap R → Outcome σ}
    (hf : ∀ s k l, f s (k, l.bare) = f s (k, l)) (s : σ) :
    a.bare.maps.entries.foldlM f s = a.maps.entries.foldlM f s := by
  rw [entries_bare, List.foldlM_map]
  congr 1
  funext s kv
  exact hf s kv.1 kv.2

@[simp] theorem transApply_bare (y : Array R) : a.bare.transApply layout y = a.transApply layout y := by
  rw [transApply, transApply]
  refine congrArg (_ >>= ·) (funext fun _ => foldlM_bare a (fun x k l => ?_) _)
  simp only [addBackImage, LinearMap.transpose_bare]
  cases layout.get? k with
  | none => rfl
  | some s =>
    cases l.transpose with
    | error f => rfl
    | ok t =>
      show (do return increaseAt x s (← t.bare.apply y)) = (do return increaseAt x s (← t.apply y))
      rw [LinearMap.apply_bare]

@[simp] theorem dense_bare : a.bare.dense layout = a.dense layout := by
  rw [dense, dense, dim_bare]
  refine congrArg (_ >>= ·) (funext fun _ => foldlM_bare a (fun h k l => ?_) _)
  simp only [LinearMap.toDense_bare]

@[simp] theorem diagonal?_bare : a.bare.diagonal? layout = a.diagonal? layout := by
  rw [diagonal?, diagonal?, dim_bare, entries_bare]
  rcases a.maps.entries with _ | ⟨⟨k, l⟩, _ | ⟨kl, rest⟩⟩
  · rfl
  · simp only [List.map_cons, List.map_nil, LinearMap.diagonal?_bare]
  · rfl

@[simp] theorem plainVariable?_bare : a.bare.plainVariable? = a.plainVariable? := by
  rw [plainVariable?, plainVariable?, entries_bare]
  rcases a.maps.entries with _ | ⟨⟨k, l⟩, _ | ⟨kl, rest⟩⟩
  · rfl
  · simp only [List.map_cons, List.map_nil, LinearMap.scalar?_bare]
    rfl
  · rfl

end Argument

/-! ## Terms -/

variable [Scalar R]

namespace TermInput

/-- `t.bare`: the term with its arguments without their marks. -/
def bare (t : TermInput R) : TermInput R := { t with args := t.args.map Argument.bare }

variable (t : TermInput R)

omit [Scalar R] in
theorem single_bare : t.bare.single = t.single.map Argument.bare := by
  obtain ⟨f, args, layout, rho⟩ := t
  rcases args with _ | ⟨a, _ | ⟨b, rest⟩⟩
  · rfl
  · rfl
  · simp [single, bare, fail, Except.map]

@[simp] theorem scaling_bare : t.bare.scaling = t.scaling := by
  rw [scaling, scaling, single_bare]
  cases t.single with
  | error f => rfl
  | ok a =>
    show (a.bare.diagonal? t.layout >>= _) = (a.diagonal? t.layout >>= _)
    rw [Argument.diagonal?_bare]
    rfl

end TermInput

namespace Operator

variable (t : TermInput R)

theorem gradient_bare : LinearOperator.gradient t.bare = LinearOperator.gradient t := by
  rw [LinearOperator.gradient, LinearOperator.gradient]
  refine congrArg (_ >>= ·) (funext fun _ => ?_)
  show (t.args.map Argument.bare).foldlM _ _ = _
  rw [List.foldlM_map]
  simp only [Argument.transApply_bare, Argument.dim_bare]
  rfl

theorem generalForm_bare (a : Argument R) :
    SumSquareOperator.generalForm t.bare a.bare = SumSquareOperator.generalForm t a := by
  rw [SumSquareOperator.generalForm, SumSquareOperator.generalForm, Argument.dense_bare]
  rfl

theorem sumSquare_bare : SumSquareOperator.of t.bare = SumSquareOperator.of t := by
  rw [SumSquareOperator.of, SumSquareOperator.of, TermInput.single_bare, TermInput.scaling_bare]
  cases t.single with
  | error f => rfl
  | ok a =>
    rcases t.scaling with (_ | _ | _ | e) | s
    case error.failed =>
      show (SumSquareOperator.generalForm t.bare a.bare >>= _) = (SumSquareOperator.generalForm t a >>= _)
      rw [generalForm_bare]
      rfl
    all_goals rfl

theorem newtonOf_bare (f : SmoothFunction) : Family.newtonOf f t.bare = Family.newtonOf f t := by
  rw [Family.newtonOf, Family.newtonOf, TermInput.single_bare, TermInput.scaling_bare]
  cases t.single with
  | error f => rfl
  | ok a =>
    rcases t.scaling with (_ | _ | _ | e) | s
    case error.failed => exact if_congr Iff.rfl (congrArg (· >>= _) (a.dense_bare t.layout)) rfl
    all_goals rfl

theorem epigraph_bare (f : SmoothFunction) : Epigraph.of f t.bare = Epigraph.of f t := by
  obtain ⟨function, args, layout, rho⟩ := t
  rcases args with _ | ⟨a, _ | ⟨bound, _ | ⟨b, rest⟩⟩⟩
  · rfl
  · rfl
  · show (a.bare.plainVariable? >>= fun x => bound.bare.plainVariable? >>= _)
      = (a.plainVariable? >>= fun x => bound.plainVariable? >>= _)
    rw [Argument.plainVariable?_bare, Argument.plainVariable?_bare]
    rfl
  · simp [Epigraph.of, TermInput.bare]

theorem spectral_bare (f : SpectralFunction) : SpectralOperator.of f t.bare = SpectralOperator.of f t := by
  rw [SpectralOperator.of, SpectralOperator.of, TermInput.single_bare, TermInput.scaling_bare]
  cases t.single <;> rfl

/-- A term has one operator, whatever the marks of its arguments. -/
theorem build_bare : Operator.build t.bare = Operator.build t := by
  rw [Operator.build, Operator.build]
  refine congrArg (_ >>= ·) (funext fun family => ?_)
  cases family with
  | zero => rfl
  | linear =>
    rw [Family.init, Family.init, LinearOperator.of, LinearOperator.of, gradient_bare]
    rfl
  | sumSquare => rw [Family.init, Family.init, sumSquare_bare]
  | normL1 =>
    rw [Family.init, Family.init, NormL1Operator.of, NormL1Operator.of, TermInput.scaling_bare]
    rfl
  | normL2 =>
    rw [Family.init, Family.init, NormL2Operator.of, NormL2Operator.of, TermInput.scaling_bare]
    rfl
  | negLog =>
    rw [Family.init, Family.init, NegLogOperator.of, NegLogOperator.of, TermInput.scaling_bare]
    rfl
  | newton f => rw [Family.init, Family.init, newtonOf_bare]
  | epigraph f => rw [Family.init, Family.init, epigraph_bare]
  | spectral f => rw [Family.init, Family.init, spectral_bare]

end Operator

end BlockAdmm
