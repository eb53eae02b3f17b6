/-
  What the primal residual of a solve says about the problem as it was written.

  A run ends with the residuals of its last iterate (`rounds_eq_ok`).  The primal one is the norm of what
  the blocks leave of the constraints, each block with its own columns; since the columns are divided
  among the blocks, that is the value of the form of all constraints, and so it has at the row of each
  constraint the value of its argument (`System.Compiled.rNorm_sq`).  Hence the sum of the squares of all
  that the constraints say is zero is the square of the reported residual (`solve_feasible`).
-/
import BlockAdmm.Proofs.Solver.Ownership
import BlockAdmm.Solver.Basic

namespace BlockAdmm

open Scalar ExactScalar

variable {R : Type}

/-! ## Runs -/

namespace System

/-- An ending tells the residuals of its iterate, which are small enough unless no iteration was left; and
    an iterate that is called optimal comes from a sweep. -/
structure Ending.Tells [Scalar R] (s : System R) (e : Ending R) : Prop where
  residuals : s.residuals e.last = .ok e.status.residuals
  state : e.status.state = .optimal ∧ e.status.residuals.converged = true
    ∨ e.status.state = .maxIterationsReached
  swept : e.status.state = .optimal → ∃ it, (s.sweep it).outcome = .ok e.last

variable [Scalar R] {s : System R}

theorem check_eq_ok {i : Nat} {it : Iterate R} {r : Residuals R} (h : (s.check i it).outcome = .ok r) :
    s.residuals it = .ok r := by
  obtain ⟨r', hr, h⟩ := Logged.bind_eq_ok.1 h
  obtain ⟨_, -, h⟩ := Logged.bind_eq_ok.1 h
  cases h
  exact hr

/-- A round that does not end the run is a sweep, and one that does ends it at what the sweep gives. -/
theorem round_eq_ok {i : Nat} {it it' : Iterate R} {ending : Option (Ending R)}
    (h : (s.round i it).outcome = .ok (it', ending)) :
    (s.sweep it).outcome = .ok it' ∧ ∀ e, ending = some e → e.Tells s ∧ e.last = it' := by
  obtain ⟨it₁, hsweep, h⟩ := Logged.bind_eq_ok.1 h
  split at h
  · obtain ⟨r, hr, h⟩ := Logged.bind_eq_ok.1 h
    split at h
    · rename_i hconv
      obtain ⟨_, -, h⟩ := Logged.bind_eq_ok.1 h
      cases h
      refine ⟨hsweep, fun e he => ?_⟩
      cases he
      exact ⟨⟨check_eq_ok hr, Or.inl ⟨rfl, hconv⟩, fun _ => ⟨it, hsweep⟩⟩, rfl⟩
    · cases h
      exact ⟨hsweep, nofun⟩
  · cases h
    exact ⟨hsweep, nofun⟩

/-- A run ends with the residuals of its last iterate; what every sweep keeps holds there. -/
theorem rounds_eq_ok (P : Iterate R → Prop)
    (hP : ∀ it it', P it → (s.sweep it).outcome = .ok it' → P it') {left i : Nat} {it : Iterate R}
    {events : Array Event} {e : Ending R} (hit : P it)
    (h : (s.rounds left i it events).outcome = .ok e) : e.Tells s ∧ P e.last := by
  induction left generalizing i it events with
  | zero =>
    obtain ⟨r, hr, h⟩ := Logged.bind_eq_ok.1 (show (s.giveUp i it).outcome = .ok e from h)
    obtain ⟨_, -, h⟩ := Logged.bind_eq_ok.1 h
    cases h
    exact ⟨⟨check_eq_ok hr, Or.inr rfl, nofun⟩, hit⟩
  | succ left ih =>
    rw [rounds] at h
    split at h
    · cases h
    · rename_i it' e' hround
      cases h
      obtain ⟨hsweep, htells⟩ := round_eq_ok hround
      obtain ⟨ht, hlast⟩ := htells e rfl
      exact ⟨ht, hlast ▸ hP it it' hit hsweep⟩
    · rename_i it' hround
      exact ih (hP it it' hit (round_eq_ok hround).1) h

/-- A sweep after which the residuals are looked at and are small enough ends a run. -/
theorem rounds_of_converged {left i : Nat} {it it' : Iterate R} {events : Array Event} {r : Residuals R}
    (hlook : i % max s.settings.epoch 1 = 0) (hsweep : (s.sweep it).outcome = .ok it')
    (hr : s.residuals it' = .ok r) (hconv : r.converged = true) :
    (s.rounds (left + 1) i it events).outcome = .ok ⟨⟨.optimal, i, r⟩, it'⟩ := by
  have hcheck : (s.check i it').outcome = .ok r :=
    Logged.bind_eq_ok.2 ⟨r, hr, Logged.bind_eq_ok.2 ⟨(), rfl, rfl⟩⟩
  have hround : (s.round i it).outcome = .ok (it', some ⟨⟨.optimal, i, r⟩, it'⟩) := by
    refine Logged.bind_eq_ok.2 ⟨it', hsweep, ?_⟩
    rw [if_pos (beq_iff_eq.2 hlook)]
    refine Logged.bind_eq_ok.2 ⟨r, hcheck, ?_⟩
    rw [if_pos hconv]
    exact Logged.bind_eq_ok.2 ⟨(), rfl, rfl⟩
  rw [rounds, hround]

end System

/-! ## What is left of the constraints -/

namespace System

variable [ExactScalar R] {s : System R} {it : Iterate R} {r : Residuals R}

/-- The parts of the residuals. -/
theorem residuals_eq_ok (h : s.residuals it = .ok r) :
    ∃ left maxNorm dual back, s.blocks.foldlM (addImage it.x) (s.b, s.b.norm) = .ok (left, maxNorm) ∧
      dualSquare it s.blocks.reverse BlockVector.empty 0 = .ok dual ∧
      s.blocks.foldlM (addBackSquare it.u) 0 = .ok back ∧
      r.rNorm = left.norm ∧ r.sNorm = s.settings.rho * Scalar.sqrt dual ∧
      r.epsilonPrimal = s.settings.absTol * Scalar.sqrt (s.b.dim : R) + s.settings.relTol * maxNorm ∧
      r.epsilonDual = s.settings.absTol * Scalar.sqrt (s.n : R)
        + s.settings.relTol * s.settings.rho * Scalar.sqrt back := by
  obtain ⟨⟨left, maxNorm⟩, hleft, h⟩ := bind_eq_ok.1 h
  obtain ⟨dual, hdual, h⟩ := bind_eq_ok.1 h
  obtain ⟨back, hback, h⟩ := bind_eq_ok.1 h
  cases pure_eq_ok.1 h
  exact ⟨left, maxNorm, dual, back, hleft, hdual, hback, rfl, rfl, rfl, rfl⟩

omit [ExactScalar R] in
/-- What the blocks leave, added up. -/
theorem foldlM_addImage_eq_ok [ExactScalar R] {blocks : List (TermBlock R)} {x : BlockVector R}
    {acc acc' : BlockVector R × R} (h : blocks.foldlM (addImage x) acc = .ok acc') :
    (∀ blk ∈ blocks, ∃ y, blk.a.apply x = .ok y) ∧
      (∀ r i, acc'.1.coord r i = acc.1.coord r i + imageSum blocks x r i) ∧
      ∀ r m, acc'.1.sizeAt? r = some m → acc.1.sizeAt? r = some m ∨
        ∃ blk ∈ blocks, ∃ y, blk.a.apply x = .ok y ∧ y.sizeAt? r = some m := by
  induction blocks generalizing acc with
  | nil =>
    cases foldlM_nil_eq_ok.1 h
    exact ⟨fun _ hmem => absurd hmem List.not_mem_nil, fun _ _ => (add_zero _).symm, fun _ _ => Or.inl⟩
  | cons blk blocks ih =>
    obtain ⟨mid, hmid, h⟩ := foldlM_cons_eq_ok.1 h
    obtain ⟨y, hy, hmid⟩ := bind_eq_ok.1 hmid
    obtain ⟨z, hz, hmid⟩ := bind_eq_ok.1 hmid
    cases pure_eq_ok.1 hmid
    obtain ⟨happly, hcoord, hsize⟩ := ih h
    refine ⟨List.forall_mem_cons.2 ⟨⟨y, hy⟩, happly⟩, fun r i => ?_, fun r m hr => ?_⟩
    · rw [hcoord, imageSum_cons, TermBlock.image_of_apply hy, ← add_assoc]
      congr 1
      rw [BlockVector.coord_addScaled hz, one_mul]
    · rcases hsize r m hr with hr | ⟨b, hb, y', hy', hr⟩
      · have hr : z.sizeAt? r = some m := hr
        rw [BlockVector.sizeAt?_addScaled hz] at hr
        cases hn : y.sizeAt? r with
        | none =>
          rw [hn] at hr
          exact Or.inl hr
        | some n =>
          rw [hn] at hr
          exact Or.inr ⟨blk, List.mem_cons_self, y, hy, hn.trans hr⟩
      · exact Or.inr ⟨b, List.mem_cons_of_mem blk hb, y', hy', hr⟩

end System

/-! ## Compiled problems -/

/-- `CompiledFrom data cs form w K layouts s`: a system whose constraints are `cs`, with the form of all of
    them and the layouts of the terms. -/
structure System.CompiledFrom [ExactScalar R] (data : Provider R) (cs : List (Expr R))
    (form : AffineForm R) (w : Marks R) (K : Coefs R) (layouts : List Layout) (s : System R) : Prop where
  written : Written data cs.zipIdx w form K
  shares : Objective.Shares form.a layouts
  owned : ∀ k ∈ form.a.colDims.keys, ∃ l ∈ layouts, k ∈ l.ids
  blocks : List.Forall₂ (TermBlock.Of form.a s.settings.rho) layouts s.blocks
  offset : s.b = form.b

section Compiled

variable [ExactScalar R] {data : Provider R} {cs : List (Expr R)} {form : AffineForm R} {w : Marks R}
  {K : Coefs R} {layouts : List Layout} {s : System R} {it : Iterate R}

/-- The blocks leave the value of each constraint at its row, and nothing elsewhere. -/
theorem System.CompiledFrom.normSq_left (h : s.CompiledFrom data cs form w K layouts)
    {left : BlockVector R} {norm maxNorm : R}
    (hleft : s.blocks.foldlM (addImage it.x) (s.b, norm) = .ok (left, maxNorm)) :
    left.normSq = (cs.map fun c =>
      ∑ i ∈ Finset.range c.leftDim, c.left data it.x.coord i ^ 2).sum := by
  obtain ⟨happly, hcoord, hsize⟩ := foldlM_addImage_eq_ok hleft
  refine normSq_eq_sum_left (fun r m hr => ?_) fun r i => ?_
  · rcases hsize r m hr with hr | ⟨blk, hblk, y, hy, hr⟩
    · exact h.written.sizes r m (h.offset ▸ hr)
    · obtain ⟨l, -, hof⟩ := exists_of_forall₂ h.blocks hblk
      have hrep := h.written.represents.restrictCols l.ids
      rw [← hof.matrix] at hrep
      have hrow := hrep.sizeAt?_apply hy hr
      rw [hof.matrix, BlockMatrix.get?_rowDims_restrictCols h.written.represents.rows] at hrow
      obtain ⟨c, map, hget, -, rfl⟩ := hrow
      exact h.written.rows r _ (h.written.represents.rows hget)
  · rw [← h.written.value, ← imageSum_eq_sumCells h.written.represents h.shares h.owned h.blocks happly,
      ← h.offset, add_comm]
    exact hcoord r i

/-- The square of the primal residual is the sum of the squares of all that the constraints say is zero. -/
theorem System.CompiledFrom.rNorm_sq {S : Type} [ExactRoots S] {data : Provider S} {cs : List (Expr S)}
    {form : AffineForm S} {w : Marks S} {K : Coefs S} {layouts : List Layout} {s : System S}
    {it : Iterate S} (h : s.CompiledFrom data cs form w K layouts) {r : Residuals S}
    (hr : s.residuals it = .ok r) : (cs.map fun c =>
      ∑ i ∈ Finset.range c.leftDim, c.left data it.x.coord i ^ 2).sum = r.rNorm ^ 2 := by
  obtain ⟨left, maxNorm, _, _, hleft, -, -, hnorm, -⟩ := System.residuals_eq_ok hr
  rw [hnorm, BlockVector.norm_eq_sqrt, sqrt_sq (BlockVector.normSq_nonneg left), h.normSq_left hleft]

end Compiled

/-! ## Solves -/

/-- What holds of every value that a computation gives holds of the values over a list. -/
theorem Compile.run_mapM {α β : Type} {p : Provider R} {f : α → Compile R β} {P : α → β → Prop}
    (hf : ∀ x s t y, (f x).runFrom p s = (.ok y, t) → P x y) {xs : List α} {s t : Session R}
    {ys : List β} (h : (xs.mapM f).runFrom p s = (.ok ys, t)) : List.Forall₂ P xs ys := by
  induction xs generalizing s ys with
  | nil =>
    rw [List.mapM_nil] at h
    obtain ⟨rfl, rfl⟩ := run_pure_eq_ok.1 h
    exact List.Forall₂.nil
  | cons x xs ih =>
    rw [List.mapM_cons] at h
    obtain ⟨y, r, hy, h⟩ := run_bind_eq_ok.1 h
    obtain ⟨zs, r', hzs, h⟩ := run_bind_eq_ok.1 h
    obtain ⟨rfl, rfl⟩ := run_pure_eq_ok.1 h
    exact List.Forall₂.cons (hf x s r y hy) (ih hzs)

namespace Solver

open Compile

/-- The parts of a system come from the constraints, whose form is there first, and the terms; before the
    constraints there are only events. -/
theorem run_compile_eq_ok [Scalar R] {s : Solver R} {p : Provider R} {r t : Session R} {system : System R}
    (h : s.compile.runFrom p r = (.ok system, t)) : ∃ form terms layouts events u,
      (Affine.buildConstraints s.problem).runFrom p { r with events := events } = (.ok form, u) ∧
      Objective.terms s.problem.objective = .ok terms ∧
      Objective.layouts terms form.a = .ok layouts ∧
      List.Forall₂ (TermBlock.Of form.a s.settings.rho) layouts system.blocks ∧
      system.settings = s.settings ∧ system.b = form.b ∧ system.n = form.a.n := by
  rw [compile] at h
  obtain ⟨_, r₁, h₁, h⟩ := run_bind_eq_ok.1 h
  obtain ⟨_, r₂, h₂, h⟩ := run_bind_eq_ok.1 h
  obtain ⟨_, r₃, h₃, h⟩ := run_bind_eq_ok.1 h
  obtain ⟨form, r₄, hform, h⟩ := run_bind_eq_ok.1 h
  obtain ⟨_, r₅, -, h⟩ := run_bind_eq_ok.1 h
  obtain ⟨_, r₆, -, h⟩ := run_bind_eq_ok.1 h
  obtain ⟨terms, r₇, hterms, h⟩ := run_bind_eq_ok.1 h
  obtain ⟨layouts, r₈, hlayouts, h⟩ := run_bind_eq_ok.1 h
  obtain ⟨blocks, r₉, hblocks, h⟩ := run_bind_eq_ok.1 h
  obtain ⟨_, r₁₀, -, h⟩ := run_bind_eq_ok.1 h
  obtain ⟨_, r₁₁, -, h⟩ := run_bind_eq_ok.1 h
  obtain ⟨n, r₁₂, hn, h⟩ := run_bind_eq_ok.1 h
  obtain ⟨_, r₁₃, -, h⟩ := run_bind_eq_ok.1 h
  obtain ⟨rfl, -⟩ := run_pure_eq_ok.1 h
  have hlayouts := (run_liftM_eq_ok.1 hlayouts).1
  obtain ⟨hlen, -⟩ := Objective.layouts_eq_ok hlayouts
  obtain ⟨-, rfl⟩ := count_eq_ok.1 (run_liftM_eq_ok.1 hn).1
  rw [← run_note_eq_ok.1 h₃, ← run_note_eq_ok.1 h₂, ← run_note_eq_ok.1 h₁] at hform
  refine ⟨form, terms, layouts, _, r₄, hform, (run_liftM_eq_ok.1 hterms).1, hlayouts, ?_, rfl, rfl, rfl⟩
  -- a block has the layout that stands with its term
  have hof := run_mapM (P := fun tli blk => TermBlock.Of form.a s.settings.rho tli.1.2 blk)
    (fun _ _ _ _ hblk => TermBlock.of_build hblk) hblocks
  have hmap : (terms.zip layouts).zipIdx.map (fun tli => tli.1.2) = layouts := by
    have hfst : (terms.zip layouts).zipIdx.map (fun tli => tli.1.2)
        = ((terms.zip layouts).zipIdx.map Prod.fst).map Prod.snd := (List.map_map ..).symm
    rw [hfst, List.zipIdx_map_fst, List.map_snd_zip hlen.le]
  have hof := List.forall₂_map_left_iff.2 hof
  rwa [hmap] at hof

/-- A solver compiles its problem. -/
theorem run_compile [ExactScalar R] {s : Solver R} {p : Provider R} {r t : Session R} {system : System R}
    (hs : ∀ c ∈ s.problem.constraints, c.ConstantsSized)
    (h : s.compile.runFrom p r = (.ok system, t)) :
    system.settings = s.settings ∧ ∃ form w K layouts,
      system.CompiledFrom (r.known p) s.problem.constraints form w K layouts := by
  obtain ⟨form, _, layouts, _, _, hform, -, hlayouts, hblocks, hsettings, hb, -⟩ := run_compile_eq_ok h
  obtain ⟨w, K, -, -, hwritten⟩ := Affine.run_buildConstraints hs hform
  obtain ⟨-, hshares, howned⟩ := Objective.layouts_eq_ok hlayouts
  rw [← hsettings] at hblocks
  exact ⟨hsettings, form, w, K, layouts, hwritten, hshares, howned, hblocks, hb⟩

/-- What a solve that came to an end went through. -/
theorem solve_eq_ok [Scalar R] {s : Solver R} {p : Provider R} {status : Status R}
    (h : (s.solve p).outcome = .ok status) : ∃ system t ending,
      s.compile.runFrom p (Session.start AffineForm.zero 0) = (.ok system, t) ∧
      system.iterate.outcome = .ok ending ∧ ending.status = status ∧
      (s.solve p).writes = s.writes ending.last.x := by
  rw [solve] at h ⊢
  cases hrun : s.run.runFrom p (Session.start AffineForm.zero 0) with
  | mk o t =>
    rw [hrun] at h
    cases o with
    | error f => cases f <;> cases h
    | ok ending =>
      rw [run] at hrun
      obtain ⟨system, r, hcompile, hrun⟩ := run_bind_eq_ok.1 hrun
      obtain ⟨_, r', -, hrun⟩ := run_bind_eq_ok.1 hrun
      obtain ⟨hiter, -⟩ := run_logged_eq_ok.1 hrun
      exact ⟨system, r, ending, hcompile, hiter, Except.ok.inj h, rfl⟩

/-- The values that a solve writes leave of all constraints together what it reports, which is small
    enough if it reports that it is done. -/
theorem solve_feasible [ExactRoots R] {s : Solver R} {p : Provider R} {status : Status R}
    (hs : ∀ c ∈ s.problem.constraints, c.ConstantsSized) (h : (s.solve p).outcome = .ok status) :
    (∀ c ∈ s.problem.constraints, ∃ e, c.args = [e]) ∧
    ∃ x : BlockVector R, (s.solve p).writes = s.writes x ∧
      (s.problem.constraints.map fun c =>
        ∑ i ∈ Finset.range c.leftDim, c.left p x.coord i ^ 2).sum = status.residuals.rNorm ^ 2 ∧
      (status.state = .optimal ∧ status.residuals.rNorm ≤ status.residuals.epsilonPrimal
        ∨ status.state = .maxIterationsReached) := by
  obtain ⟨system, t, ending, hcompile, hiter, rfl, hwrites⟩ := solve_eq_ok h
  obtain ⟨-, form, w, K, layouts, hfrom⟩ := run_compile hs hcompile
  obtain ⟨htells, -⟩ := System.rounds_eq_ok (fun _ => True) (fun _ _ _ _ => trivial) trivial hiter
  have hknown : (Session.start (AffineForm.zero : AffineForm R) 0).known p = p := rfl
  rw [hknown] at hfrom
  refine ⟨fun c hc => ?_, ending.last.x, hwrites, hfrom.rNorm_sq htells.residuals,
    htells.state.imp_left ?_⟩
  · rw [← List.zipIdx_map_fst 0 s.problem.constraints] at hc
    obtain ⟨ci, hci, rfl⟩ := List.mem_map.1 hc
    exact hfrom.written.single ci hci
  · rintro ⟨hstate, hconv⟩
    rw [Residuals.converged, Bool.and_eq_true, decide_eq_true_iff] at hconv
    exact ⟨hstate, hconv.1⟩

/-- `unsolvable`: minimize `0` over `x` subject to `1 = 0`, with no iteration allowed. -/
noncomputable def unsolvable : Solver ℝ :=
  create ⟨"p", .node (.term ⟨.zero, 1, false⟩) 1 1 [.node (.variable "x") 1 1 []],
    [.node .zeroCone 1 1 [.node (.constant ⟨1, 1, .scalar 1⟩) 1 1 []]]⟩
    { Settings.default with maxIterations := 0 }

theorem unsolvable_constantsSized : ∀ c ∈ unsolvable.problem.constraints, c.ConstantsSized := by
  intro c hc f hf d hd
  cases List.mem_singleton.1 hc
  simp only [Expr.nodes, Expr.nodesList, List.append_nil, List.mem_cons, List.not_mem_nil,
    or_false] at hf
  rcases hf with rfl | rfl <;> cases hd
  rfl

/-- The residual of a constraint that cannot be met is what it leaves. -/
theorem solve_feasible_unsolvable :
    (∀ c ∈ unsolvable.problem.constraints, c.ConstantsSized) ∧
      ∃ status, (unsolvable.solve fun _ => none).outcome = .ok status ∧
        status.residuals.rNorm ^ 2 = 1 := by
  obtain ⟨status, h⟩ := exists_eq_ok (x := (unsolvable.solve fun _ => none).outcome)
    (by decide +kernel)
  obtain ⟨-, x, -, hsum, -⟩ := solve_feasible unsolvable_constantsSized h
  refine ⟨unsolvable_constantsSized, status, h, ?_⟩
  rw [← hsum]
  show (∑ i ∈ Finset.range (1 * 1), (1 : ℝ) ^ 2) + 0 = 1
  norm_num

end Solver

end BlockAdmm
