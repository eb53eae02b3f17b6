/-
  What a problem is compiled to.

  A run is the iteration of the system to which the problem is compiled (`Solver.outcome_run`).  The system
  has the constant part of the constraints and one block for each term of the objective; the layout of a
  block has the variables that its term mentions, each with its number of elements, and no others
  (`Solver.system_eq_ok`).  So the variables of the blocks are the variables of the objective
  (`Solver.mentions_iff`).
-/
import BlockAdmm.Proofs.Safety.Solver
import BlockAdmm.Proofs.Solver.Asking

namespace BlockAdmm

open Scalar Compile

variable {R : Type}

/-! ## The variables of a tree -/

namespace Expr

variable {e : Expr R} {sizes sizes' : Keyed Nat} {k : String} {d : Nat}

theorem Mentions.of_arg {kind : ExprKind R} {m n : Nat} {args : List (Expr R)} (he : e ∈ args)
    (h : e.Mentions k d) : (Expr.node kind m n args).Mentions k d := by
  obtain ⟨v, hv, hkind, hdim⟩ := h
  exact ⟨v, mem_nodes_of_arg he hv, hkind, hdim⟩

/-- What was collected was there before or is a variable of the tree. -/
theorem mentions_of_collectSizes (h : e.collectSizes sizes = .ok sizes') (hk : sizes'.get? k = some d) :
    sizes.get? k = some d ∨ e.Mentions k d := by
  rw [collectSizes_eq_foldlM] at h
  refine foldlM_invariant (fun mid => ∀ k d, mid.get? k = some d → sizes.get? k = some d ∨ e.Mentions k d)
    (fun v hv mid mid' hmid hstep k d hk => ?_) (fun k d hk => Or.inl hk) h k d hk
  have hnote := (ends_noteSize (E := fun _ => True) (Or.inr ⟨trivial, fun _ => trivial⟩)).of_eq_ok hstep
  exact (hnote.2.2 k d hk).elim (hmid k d) fun hvar => Or.inr ⟨v, hv, hvar⟩

/-- The variables of a tree are there with their numbers of elements, and nothing else is. -/
theorem get?_variableSizes (h : e.variableSizes = .ok sizes) :
    sizes.get? k = some d ↔ e.Mentions k d := by
  constructor
  · intro hk
    exact (mentions_of_collectSizes h hk).resolve_left nofun
  · rintro ⟨v, hv, hkind, rfl⟩
    exact (ends_variableSizes (E := fun _ => True) e).of_eq_ok h v hv k hkind

end Expr

namespace Objective

variable {terms : List (Expr R)}

/-- An objective mentions what its terms mention. -/
theorem mentions_iff [Scalar R] {e : Expr R} (h : Objective.terms e = .ok terms) {k : String} {d : Nat} :
    e.Mentions k d ↔ ∃ t ∈ terms, t.Mentions k d := by
  obtain ⟨kind, m, n, args⟩ := e
  rw [Objective.terms] at h
  split at h
  · rename_i hkind
    obtain rfl : kind = .add := hkind
    split at h
    · cases h
    · cases h
      constructor
      · rintro ⟨v, hv, hvar, hdim⟩
        rw [Expr.nodes, List.mem_cons, Expr.mem_nodesList] at hv
        rcases hv with rfl | ⟨t, ht, hv⟩
        · cases hvar
        · exact ⟨t, ht, v, hv, hvar, hdim⟩
      · rintro ⟨t, ht, hmentions⟩
        exact hmentions.of_arg ht
  · cases h
    refine ⟨fun h => ⟨_, List.mem_singleton_self _, h⟩, ?_⟩
    rintro ⟨t, ht, h⟩
    exact List.mem_singleton.1 ht ▸ h
  · cases h

/-- The layouts have the variables of the objective with their numbers of elements, and nothing else. -/
theorem mentions_iff_layouts [Scalar R] {e : Expr R} {a : BlockMatrix R} {layouts : List Layout}
    (hterms : Objective.terms e = .ok terms) (hlayouts : Objective.layouts terms a = .ok layouts) {k : String}
    {d : Nat} : e.Mentions k d ↔ ∃ l ∈ layouts, l.sizes.get? k = some d := by
  rw [mentions_iff hterms]
  obtain ⟨hsizes, -⟩ := (ends_layouts (E := fun _ => True)).of_eq_ok hlayouts
  constructor
  · rintro ⟨t, ht, hmentions⟩
    obtain ⟨l, hl, hget⟩ := exists_of_forall₂ hsizes.flip ht
    exact ⟨l, hl, (Expr.get?_variableSizes hget).2 hmentions⟩
  · rintro ⟨l, hl, hget⟩
    obtain ⟨t, ht, hsizes⟩ := exists_of_forall₂ hsizes hl
    exact ⟨t, ht, (Expr.get?_variableSizes hsizes).1 hget⟩

end Objective

/-! ## Compiled systems -/

variable [Scalar R]

namespace Solver

/-- `s.system p`: the system to which the problem is compiled. -/
def system (s : Solver R) (p : Provider R) : Outcome (System R) :=
  (s.compile.runFrom p (Session.start .zero 0)).1

/-- `s.constraints p`: the form of all constraints. -/
def constraints (s : Solver R) (p : Provider R) : Outcome (AffineForm R) :=
  ((Affine.buildConstraints s.problem).runFrom p (Session.start .zero 0)).1

variable {s s' : Solver R} {p : Provider R} {system : System R}

/-- A run is the iteration of the compiled system. -/
theorem outcome_run (s : Solver R) (p : Provider R) :
    (s.run.runFrom p (Session.start .zero 0)).1
      = s.system p >>= fun system => system.iterate.outcome := by
  rw [run, run_bind, Solver.system]
  rcases s.compile.runFrom p (Session.start .zero 0) with ⟨o, t⟩
  cases o <;> rfl

/-- A solve that came to an end. -/
theorem solve_parts {status : Status R} (h : (s.solve p).outcome = .ok status) :
    ∃ system e, s.system p = .ok system ∧ system.iterate.outcome = .ok e ∧ e.status = status ∧
      (s.solve p).writes = s.writes e.last.x ∧
      (s.solve p).solver = s.finish status (s.writes e.last.x) := by
  cases hrun : (s.run.runFrom p (Session.start .zero 0)).1 with
  | error f => exact nomatch (solve_of_error hrun).1.symm.trans h
  | ok e =>
    obtain ⟨houtcome, hwrites, hsolver⟩ := solve_of_ok hrun
    obtain rfl := Except.ok.inj (houtcome.symm.trans h)
    rw [outcome_run] at hrun
    obtain ⟨system, hsystem, hiterate⟩ := bind_eq_ok.1 hrun
    exact ⟨system, e, hsystem, hiterate, rfl, hwrites, hsolver⟩

/-- A solve that came to none. -/
theorem solve_fault {f : Fault} (h : (s.solve p).outcome = .error f) :
    (s.solve p).writes = [] ∧ (s.solve p).solver = { s with status := Status.of (stateOf f) } := by
  cases hrun : (s.run.runFrom p (Session.start .zero 0)).1 with
  | ok e => exact nomatch (solve_of_ok hrun).1.symm.trans h
  | error f' =>
    obtain ⟨houtcome, hrest⟩ := solve_of_error hrun
    obtain rfl := Except.error.inj (houtcome.symm.trans h)
    exact hrest

/-- The compiled system depends on the settings by the penalty, apart from having them. -/
theorem system_congr (hproblem : s'.problem = s.problem) (hrho : s'.settings.rho = s.settings.rho)
    (h : s.system p = .ok system) :
    system.settings = s.settings ∧ s'.system p = .ok { system with settings := s'.settings } := by
  obtain ⟨hboth, -⟩ := asks_compile (K := fun _ => True) hproblem hrho (fun _ _ => trivial) p p
    (Session.start .zero 0) (Session.start .zero 0) (fun _ _ => rfl)
    (Session.answered_start AffineForm.zero 0) rfl
  have h : (s.compile.runFrom p (Session.start .zero 0)).1 = .ok system := h
  rw [h] at hboth
  cases hs' : (s'.compile.runFrom p (Session.start .zero 0)).1 with
  | error f =>
    rw [hs'] at hboth
    exact hboth.elim
  | ok system' =>
    rw [hs'] at hboth
    exact ⟨hboth.1, hs'.trans (congrArg _ hboth.2)⟩

/-- `s.CompilesTo p form layouts system`: the system of the form of all constraints and of the blocks of the
    terms, which have the given layouts. -/
structure CompilesTo (s : Solver R) (p : Provider R) (form : AffineForm R) (layouts : List Layout)
    (system : System R) : Prop where
  constraints : s.constraints p = .ok form
  shares : Objective.Shares form.a layouts
  owned : ∀ k ∈ form.a.colDims.keys, ∃ l ∈ layouts, k ∈ l.ids
  declared : ∀ k d, s.problem.objective.Mentions k d ↔ ∃ l ∈ layouts, l.sizes.get? k = some d
  blocks : List.Forall₂ (TermBlock.Of form.a s.settings.rho) layouts system.blocks
  settings : system.settings = s.settings
  offset : system.b = form.b
  columns : system.n = form.a.n

/-- What a system comes from. -/
theorem system_parts (h : s.system p = .ok system) : ∃ form terms layouts, s.constraints p = .ok form ∧
    Objective.terms s.problem.objective = .ok terms ∧ Objective.layouts terms form.a = .ok layouts ∧
    List.Forall₂ (TermBlock.Of form.a s.settings.rho) layouts system.blocks ∧
    system.settings = s.settings ∧ system.b = form.b ∧ system.n = form.a.n := by
  have hrun : s.compile.runFrom p (Session.start .zero 0)
      = (.ok system, (s.compile.runFrom p (Session.start .zero 0)).2) := Prod.ext h rfl
  obtain ⟨form, terms, layouts, events, u, hform, hrest⟩ := run_compile_eq_ok hrun
  refine ⟨form, terms, layouts, ?_, hrest⟩
  -- the events before the constraints do not matter
  obtain ⟨hboth, -⟩ := Affine.asks_buildConstraints (K := fun _ => True) (fun _ _ _ _ => trivial) p p
    (Session.start .zero 0) { Session.start .zero 0 with events := events } (fun _ _ => rfl)
    (Session.answered_start AffineForm.zero 0) rfl
  exact hboth.eq.trans (congrArg Prod.fst hform)

/-- A problem that is compiled is compiled to such a system. -/
theorem system_eq_ok (h : s.system p = .ok system) : ∃ form layouts, s.CompilesTo p form layouts system := by
  obtain ⟨form, terms, layouts, hform, hterms, hlayouts, hblocks, hsettings, hb, hn⟩ := system_parts h
  obtain ⟨-, hshares, howned⟩ := Objective.layouts_eq_ok hlayouts
  exact ⟨form, layouts, hform, hshares, howned, fun _ _ => Objective.mentions_iff_layouts hterms hlayouts,
    hblocks, hsettings, hb, hn⟩

end Solver

end BlockAdmm
