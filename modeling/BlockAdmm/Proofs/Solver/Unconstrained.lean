/-
  Problems without constraints.

  Without constraints no block has a part of them, whatever its term is: its step has no penalty and is the proximal
  operator at the iterate, and nothing is ever left over (`System.Free`).  So the first sweep leaves to each block
  what its operator gives at zero (`System.Free.exists_sweep`), and all residuals and tolerances are sums of nothing,
  which are zero and small enough (`System.Free.exists_residuals`).  Neither the compilation nor the sweep looks at
  the settings (`Solver.asks_compile_free`), so they have no part in what is written.

  A tolerance is a product with a setting, and an infinite number times zero is no number.  The settings must
  therefore be finite, and so must the product of the penalty with the relative tolerance (`Settings.Bounded`).
-/
import BlockAdmm.Proofs.Solver.Stopping
import BlockAdmm.Proofs.Solver.Writing
import BlockAdmm.Proofs.Tiling
import BlockAdmm.Proofs.Zero

namespace BlockAdmm

open Scalar Compile

variable {R : Type} [Scalar R]

/-! ## Blocks that no constraint touches -/

theorem Coupling.of_empty (l : Layout) : Coupling.of (BlockMatrix.empty : BlockMatrix R) l = .ok .unconstrained := by
  rw [of, gramScalar?]
  split <;> rfl

namespace TermBlock

/-- `free index term l`: the block of a term that no constraint touches; its proximal operator has no penalty. -/
def free (index : Nat) (term : Expr R) (l : Layout) : Compile R (TermBlock R) := do
  let input ← TermInput.build term l 0
  let operator ← Operator.build input
  return ⟨index, l, .empty, .empty, .unconstrained, 0, operator⟩

/-- Without constraints the block of a term does not depend on the penalty. -/
theorem asks_build_free (index : Nat) (term : Expr R) (l : Layout) (rho : R) :
    Asks (fun _ => True) Eq (build index term l .empty rho) (free index term l) := by
  have hbuild : ∃ e, build index term l .empty rho = note e >>= fun _ => free index term l := by
    have hcols : (BlockMatrix.empty : BlockMatrix R).restrictCols l.ids = .empty := rfl
    have hback : (BlockMatrix.empty : BlockMatrix R).transpose = .ok .empty := rfl
    rw [build, hcols, hback, Coupling.of_empty]
    exact ⟨_, rfl⟩
  obtain ⟨e, he⟩ := hbuild
  rw [he]
  refine Asks.after_note ((TermInput.asks_build (fun _ _ => trivial) l 0).andThen fun input => ?_) e
  exact (asks_liftM _).andThen fun operator => asks_pure rfl

/-- `blk.atZero`: what the proximal operator of a block gives its variables at the zero vector. -/
def atZero (blk : TermBlock R) : Outcome (BlockVector R) := do
  room blk.layout.n
  let y ← (blk.operator.apply (Vec.zero blk.layout.n)).outcome
  blk.layout.split y

end TermBlock

/-- `q.freeBlocks`: the blocks of the terms of a problem, if no constraint touches them. -/
def Problem.freeBlocks (q : Problem R) : Compile R (List (TermBlock R)) := do
  let terms ← Objective.terms q.objective
  let layouts ← Objective.layouts terms (BlockMatrix.empty : BlockMatrix R)
  let blocks ← (terms.zip layouts).zipIdx.mapM fun tli => TermBlock.free tli.2 tli.1.1 tli.1.2
  liftM (layouts.forM fun l => l.sizes.values.forM room)
  return blocks

/-- `s.Free`: a system without constraints. -/
structure System.Free (s : System R) : Prop where
  b : s.b = .empty
  n : s.n = 0
  a : ∀ blk ∈ s.blocks, blk.a = .empty
  back : ∀ blk ∈ s.blocks, blk.back = .empty
  coupling : ∀ blk ∈ s.blocks, blk.coupling = .unconstrained

namespace Solver

variable {s s' : Solver R} {p : Provider R} {system : System R}

/-- A problem without constraints is compiled to its free blocks, whatever the settings are. -/
theorem asks_compile_free (hproblem : s.problem.constraints = []) :
    Asks (fun _ => True) (fun system blocks => system = ⟨s.settings, blocks, .empty, 0⟩) s.compile
      s.problem.freeBlocks := by
  have hform : Affine.buildConstraints s.problem = (pure .zero : Compile R (AffineForm R)) := by
    rw [Affine.buildConstraints, hproblem]
    rfl
  rw [compile, hform, Problem.freeBlocks]
  refine Asks.after_note (Asks.after_note (Asks.after_note ?_ _) _) _
  rw [pure_bind]
  refine Asks.after_note (Asks.after_note ?_ _) _
  refine (asks_liftM _).andThen fun terms => (asks_liftM _).andThen fun layouts => ?_
  refine (asks_mapM fun tli _ => TermBlock.asks_build_free _ _ _ _).andThen fun blocks => ?_
  refine Asks.after_get fun t => Asks.after_note ?_ _
  show Asks _ _ (liftM (layouts.forM fun l => l.sizes.values.forM room) >>= fun _ => pure _) _
  exact (asks_liftM _).andThen fun _ => asks_pure rfl

/-- So the settings are the only part of the system that depends on them. -/
theorem system_eq_free (hproblem : s.problem.constraints = []) (p : Provider R) : s.system p = (do
    let blocks ← (s.problem.freeBlocks.runFrom p (Session.start .zero 0)).1
    return ⟨s.settings, blocks, .empty, 0⟩) := by
  obtain ⟨hboth, -⟩ := asks_compile_free hproblem p p (Session.start .zero 0) (Session.start .zero 0)
    (fun _ _ => rfl) (Session.answered_start AffineForm.zero 0) rfl
  rw [system]
  cases hs : (s.compile.runFrom p (Session.start .zero 0)).1 <;>
    cases hblocks : (s.problem.freeBlocks.runFrom p (Session.start .zero 0)).1 <;> rw [hs, hblocks] at hboth
  · exact congrArg Except.error hboth
  · exact hboth.elim
  · exact hboth.elim
  · exact congrArg Except.ok hboth

theorem free_of_system (hproblem : s.problem.constraints = []) (hsystem : s.system p = .ok system) : system.Free := by
  obtain ⟨form, layouts, hcompiles⟩ := system_eq_ok hsystem
  have hform : s.constraints p = .ok .zero := by
    rw [constraints, Affine.buildConstraints, hproblem]
    rfl
  obtain rfl := Except.ok.inj (hcompiles.constraints.symm.trans hform)
  have hof {blk : TermBlock R} (hblk : blk ∈ system.blocks) :
      blk.a = .empty ∧ ∃ l, TermBlock.Of .empty s.settings.rho l blk := by
    obtain ⟨l, -, hof⟩ := exists_of_forall₂ hcompiles.blocks hblk
    exact ⟨hof.matrix, l, hof⟩
  refine ⟨hcompiles.offset, hcompiles.columns, fun blk hblk => (hof hblk).1, fun blk hblk => ?_, fun blk hblk => ?_⟩
  · obtain ⟨ha, l, hof⟩ := hof hblk
    have hback := hof.transpose
    rw [ha] at hback
    exact (Except.ok.inj hback).symm
  · obtain ⟨ha, l, hof⟩ := hof hblk
    have hcoupling := hof.coupling
    rw [ha, Coupling.of_empty] at hcoupling
    exact (Except.ok.inj hcoupling).symm

end Solver

/-! ## Zeros -/

/-- `s.Bounded`: the settings are finite, and so is the product of the penalty with the relative tolerance. -/
structure Settings.Bounded (s : Settings R) : Prop where
  rho : isFinite s.rho = true
  absTol : isFinite s.absTol = true
  relTol : isFinite s.relTol = true
  product : isFinite (s.relTol * s.rho) = true

/-- `r.Vanish`: the residuals and their tolerances are zero. -/
structure Residuals.Vanish (r : Residuals R) : Prop where
  rNorm : IsZero r.rNorm
  sNorm : IsZero r.sNorm
  epsilonPrimal : IsZero r.epsilonPrimal
  epsilonDual : IsZero r.epsilonDual

theorem BlockVector.isZero_norm_empty [LawfulZero R] : IsZero (empty : BlockVector R).norm :=
  LawfulZero.sqrt LawfulZero.negZero

/-- A sum of squares does not change by the norm of nothing. -/
theorem BlockVector.isZero_add_square [LawfulZero R] {sum : R} (h : IsZero sum) :
    IsZero (sum + (empty : BlockVector R).norm * (empty : BlockVector R).norm) :=
  LawfulZero.add h (LawfulZero.mul (Or.inr isZero_norm_empty) isZero_norm_empty)

/-- Residuals that are zero are small enough. -/
theorem Residuals.Vanish.converged [LawfulZero R] {r : Residuals R} (h : r.Vanish) : r.converged = true := by
  rw [Residuals.converged, decide_eq_true (LawfulZero.le h.rNorm h.epsilonPrimal),
    decide_eq_true (LawfulZero.le h.sNorm h.epsilonDual), Bool.and_self]

/-! ## The first sweep -/

/-- A block vector that is zero on the variables of a layout has the zero vector. -/
theorem Layout.flatten_zero {l : Layout} {x : BlockVector R} (hroom : l.n ≤ capacity)
    (hx : ∀ k d, l.sizes.get? k = some d → x.get? k = some (Vec.zero d)) : l.flatten x = .ok (Vec.zero l.n) := by
  have hagrees : l.Agrees x := fun k d n hd hn => by
    rw [BlockVector.sizeAt?, hx k d hd] at hn
    exact (Option.some.inj hn).symm.trans (Vec.size_zero d)
  obtain ⟨v, hv⟩ := exists_flatten hagrees hroom
  obtain ⟨hsize, hentry⟩ := flatten_eq_ok hv
  rw [hv]
  refine congrArg Except.ok (Vec.ext_entry (hsize.trans (Vec.size_zero _).symm) fun t ht => ?_)
  obtain ⟨d, hd, hi, ho⟩ := cellAt_eq (ht.trans_eq hsize)
  rw [← ho, hentry _ d _ hd hi, BlockVector.coord_of_get? (hx _ d hd), Vec.entry_zero, Vec.entry_zero]

namespace System

variable {s : System R} {it : Iterate R}

/-- At the start all variables are zero. -/
theorem zero_of_start {k : String} {v : Array R} (h : s.start.x.get? k = some v) : v = Vec.zero v.size := by
  have hwalk (bs : List (TermBlock R)) (x : BlockVector R) (hx : ∀ v, x.get? k = some v → v = Vec.zero v.size)
      (h : (bs.foldl zeroes x).get? k = some v) : v = Vec.zero v.size := by
    induction bs generalizing x with
    | nil => exact hx v h
    | cons blk bs ih =>
      refine ih _ (fun w hw => ?_) h
      rw [get?_zeroes, Option.or_eq_some_iff] at hw
      obtain hw | ⟨-, hw⟩ := hw
      · obtain ⟨d, -, rfl⟩ := Option.map_eq_some_iff.1 hw
        rw [Vec.size_zero]
      · exact hx w hw
  exact hwalk s.blocks BlockVector.empty nofun h

namespace Free

variable {blk : TermBlock R} {y : BlockVector R}

theorem withoutImages (h : s.Free) (x u : BlockVector R) : s.withoutImages x u = .ok u := by
  have hstep (blk : TermBlock R) (hblk : blk ∈ s.blocks) (v : BlockVector R) : subtractImage x v blk = .ok v := by
    rw [subtractImage, h.a blk hblk]
    rfl
  obtain ⟨v, hv, rfl⟩ := exists_foldlM (s := u) (· = u) (fun blk hblk v hv => ⟨v, hstep blk hblk v, hv⟩) rfl
  rw [System.withoutImages, h.b]
  exact hv

/-- The step of a block whose variables are zero. -/
theorem outcome_step (h : s.Free) (hblk : blk ∈ s.blocks) (hvalue : blk.atZero = .ok y) {x : BlockVector R}
    (hzero : ∀ k d, blk.layout.sizes.get? k = some d → x.get? k = some (Vec.zero d)) (u : BlockVector R) :
    (blk.step u x).outcome = .ok y := by
  obtain ⟨_, hroom, hvalue⟩ := bind_eq_ok.1 hvalue
  obtain ⟨z, hz, hsplit⟩ := bind_eq_ok.1 hvalue
  have htarget : blk.target u x = .ok (Vec.zero blk.layout.n) := by
    rw [TermBlock.target, h.coupling blk hblk]
    exact Layout.flatten_zero (room_eq_ok.1 hroom) hzero
  have hsize : (z.size != blk.layout.n) = false := bne_eq_false_iff_eq.2 (Layout.get?_split hsplit "").1
  refine Logged.bind_eq_ok.2 ⟨_, htarget, Logged.bind_eq_ok.2 ⟨z, hz, ?_⟩⟩
  rw [hsize]
  exact Logged.bind_eq_ok.2 ⟨(), rfl, hsplit⟩

/-- The turn of such a block puts the values there, and nothing is left over. -/
theorem exists_stepBlock (h : s.Free) (hblk : blk ∈ s.blocks) (hvalue : blk.atZero = .ok y)
    (hzero : ∀ k d, blk.layout.sizes.get? k = some d → it.x.get? k = some (Vec.zero d)) :
    ∃ it', (stepBlock it blk).outcome = .ok it' ∧
      ∀ k, it'.x.get? k = if k ∈ blk.layout.ids then y.get? k else it.x.get? k := by
  have hempty (x : BlockVector R) : blk.a.apply x = .ok .empty := by
    rw [h.a blk hblk]
    rfl
  have hstep := h.outcome_step hblk hvalue hzero it.u
  refine ⟨⟨y.blocks.entries.foldl (fun x kv => x.insert kv.1 kv.2) it.x, it.previous, it.u⟩, ?_,
    get?_stepBlock hstep rfl⟩
  refine Logged.bind_eq_ok.2 ⟨_, hempty it.x, Logged.bind_eq_ok.2 ⟨it.u, rfl, Logged.bind_eq_ok.2 ⟨y, hstep, ?_⟩⟩⟩
  refine Logged.bind_eq_ok.2 ⟨it.u, ?_, rfl⟩
  exact bind_eq_ok.2 ⟨_, hempty _, rfl⟩

/-- The turns of blocks that share no variable, when all their variables are zero. -/
theorem exists_foldlM_stepBlock (h : s.Free) (it : Iterate R) {bs : List (TermBlock R)}
    (hbs : ∀ blk ∈ bs, blk ∈ s.blocks)
    (hdisjoint : bs.Pairwise fun b b' => ∀ k ∈ b.layout.ids, k ∉ b'.layout.ids)
    (hvalues : ∀ blk ∈ bs, ∃ y, blk.atZero = .ok y)
    (hzero : ∀ blk ∈ bs, ∀ k d, blk.layout.sizes.get? k = some d → it.x.get? k = some (Vec.zero d)) :
    ∃ it', bs.foldlM (fun it blk => (stepBlock it blk).outcome) it = .ok it' ∧
      ∀ blk ∈ bs, ∀ y, blk.atZero = .ok y → ∀ k ∈ blk.layout.ids, it'.x.get? k = y.get? k := by
  induction bs generalizing it with
  | nil => exact ⟨it, rfl, nofun⟩
  | cons b bs ih =>
    obtain ⟨hb, hbs⟩ := List.forall_mem_cons.1 hbs
    obtain ⟨hapart, hdisjoint⟩ := List.pairwise_cons.1 hdisjoint
    obtain ⟨⟨y, hy⟩, hvalues⟩ := List.forall_mem_cons.1 hvalues
    obtain ⟨hzerob, hzero⟩ := List.forall_mem_cons.1 hzero
    obtain ⟨mid, hmid, hget⟩ := h.exists_stepBlock hb hy hzerob
    -- the variables of the blocks behind are still zero
    obtain ⟨it', hit', hvalue⟩ := ih mid hbs hdisjoint hvalues fun c hc k d hd => by
      rw [hget, if_neg fun hk => hapart c hc k hk (Layout.mem_ids_iff.2 ⟨d, hd⟩)]
      exact hzero c hc k d hd
    refine ⟨it', foldlM_cons_eq_ok.2 ⟨mid, hmid, hit'⟩, List.forall_mem_cons.2 ⟨fun z hz k hk => ?_, hvalue⟩⟩
    obtain rfl := Except.ok.inj (hy.symm.trans hz)
    rw [get?_of_foldlM_stepBlock hit' fun c hc => hapart c hc k hk, hget, if_pos hk]

/-- The first sweep leaves to each block what its proximal operator gives at zero, and nothing else. -/
theorem exists_sweep (h : s.Free) (hdivided : Divided s.blocks) (hone : OneSize s.blocks)
    (hvalues : ∀ blk ∈ s.blocks, ∃ y, blk.atZero = .ok y) :
    ∃ it, s.after 1 = .ok it ∧ HasVariables s.blocks it.x ∧
      ∀ k v, it.x.get? k = some v ↔ ∃ blk ∈ s.blocks, ∃ y, blk.atZero = .ok y ∧ y.get? k = some v := by
  have hstart := hasVariables_start hone
  have hzero (blk : TermBlock R) (hblk : blk ∈ s.blocks) (k : String) (d : Nat)
      (hd : blk.layout.sizes.get? k = some d) : s.start.x.get? k = some (Vec.zero d) := by
    obtain ⟨v, hv, rfl⟩ := BlockVector.sizeAt?_eq_some_iff.1 ((hstart k d).2 ⟨blk, hblk, hd⟩)
    rw [hv, ← zero_of_start hv]
  obtain ⟨it, hit, hvalue⟩ := h.exists_foldlM_stepBlock ⟨s.start.x, s.start.x, s.start.u⟩ (fun _ hblk => hblk)
    hdivided.disjoint hvalues hzero
  have hsweep : (s.sweep s.start).outcome = .ok it := sweep_eq_ok.2 ⟨_, h.withoutImages _ _, hit⟩
  have hvariables := hasVariables_sweep hone hstart hsweep
  have hsizes {blk : TermBlock R} {y : BlockVector R} (hy : blk.atZero = .ok y) (k : String) :
      y.sizeAt? k = blk.layout.sizes.get? k := by
    obtain ⟨_, -, hy⟩ := bind_eq_ok.1 hy
    obtain ⟨_, -, hy⟩ := bind_eq_ok.1 hy
    exact Layout.sizeAt?_split hy k
  refine ⟨it, bind_eq_ok.2 ⟨_, rfl, hsweep⟩, hvariables, fun k v => ⟨fun hv => ?_, ?_⟩⟩
  · obtain ⟨blk, hblk, hd⟩ := (hvariables k v.size).1 (BlockVector.sizeAt?_eq_some_iff.2 ⟨v, hv, rfl⟩)
    obtain ⟨y, hy⟩ := hvalues blk hblk
    exact ⟨blk, hblk, y, hy, (hvalue blk hblk y hy k (Layout.mem_ids_iff.2 ⟨_, hd⟩)).symm.trans hv⟩
  · rintro ⟨blk, hblk, y, hy, hv⟩
    have hd := (hsizes hy k).symm.trans (BlockVector.sizeAt?_eq_some_iff.2 ⟨v, hv, rfl⟩)
    exact (hvalue blk hblk y hy k (Layout.mem_ids_iff.2 ⟨_, hd⟩)).trans hv

/-! ## Residuals of nothing -/

open BlockVector

theorem exists_foldlM_addImage [LawfulZero R] (h : s.Free) (x : BlockVector R) :
    ∃ acc, s.blocks.foldlM (addImage x) (.empty, (empty : BlockVector R).norm) = .ok acc ∧
      acc.1 = .empty ∧ IsZero acc.2 := by
  refine exists_foldlM (fun acc : BlockVector R × R => acc.1 = .empty ∧ IsZero acc.2) (fun blk hblk acc hacc => ?_)
    ⟨rfl, isZero_norm_empty⟩
  refine ⟨(acc.1, larger acc.2 (empty : BlockVector R).norm), ?_, hacc.1, LawfulZero.larger hacc.2 isZero_norm_empty⟩
  rw [addImage, h.a blk hblk]
  rfl

theorem exists_foldlM_addBackSquare [LawfulZero R] (h : s.Free) (u : BlockVector R) :
    ∃ sum, s.blocks.foldlM (addBackSquare u) 0 = .ok sum ∧ IsZero sum := by
  refine exists_foldlM IsZero (fun blk hblk sum hsum => ⟨_, ?_, isZero_add_square hsum⟩) LawfulZero.zero
  rw [addBackSquare, h.back blk hblk]
  rfl

/-- The blocks from the last to the first, of which no image changes. -/
theorem exists_dualSquare [LawfulZero R] (h : s.Free) (it : Iterate R) {bs : List (TermBlock R)}
    (hbs : ∀ blk ∈ bs, blk ∈ s.blocks) {sum : R} (hsum : IsZero sum) :
    ∃ d, dualSquare it bs .empty sum = .ok d ∧ IsZero d := by
  induction bs generalizing sum with
  | nil => exact ⟨sum, rfl, hsum⟩
  | cons next bs ih =>
    obtain ⟨hnext, hbs⟩ := List.forall_mem_cons.1 hbs
    cases bs with
    | nil => exact ⟨sum, rfl, hsum⟩
    | cons blk bs =>
      have hstep : dualSquare it (next :: blk :: bs) .empty sum = dualSquare it (blk :: bs) .empty
          (sum + (empty : BlockVector R).norm * (empty : BlockVector R).norm) := by
        rw [dualSquare, h.a next hnext, h.back blk (hbs blk List.mem_cons_self)]
        rfl
      rw [hstep]
      exact ih hbs (isZero_add_square hsum)

theorem exists_residuals [LawfulZero R] (h : s.Free) (hs : s.settings.Bounded) (it : Iterate R) :
    ∃ r, s.residuals it = .ok r ∧ r.Vanish := by
  obtain ⟨⟨_, m⟩, hm, rfl, hmzero⟩ := h.exists_foldlM_addImage it.x
  obtain ⟨d, hd, hdzero⟩ := h.exists_dualSquare it (fun _ hblk => List.mem_reverse.1 hblk) LawfulZero.zero
  obtain ⟨e, he, hezero⟩ := h.exists_foldlM_addBackSquare it.u
  have hnone : IsZero (sqrt ((0 : Nat) : R)) := LawfulZero.sqrt LawfulZero.natCast
  have htol {a x : R} (ha : isFinite a = true) (hx : IsZero x) : IsZero (a * x) := LawfulZero.mul (Or.inl ha) hx
  refine ⟨⟨_, _, _, _⟩, ?_, isZero_norm_empty, htol hs.rho (LawfulZero.sqrt hdzero),
    LawfulZero.add (htol hs.absTol hnone) (htol hs.relTol hmzero),
    LawfulZero.add (htol hs.absTol hnone) (htol hs.product (LawfulZero.sqrt hezero))⟩
  rw [System.residuals, h.b, hm, hd, he, h.n]
  rfl

/-- A system without constraints stops after its first sweep. -/
theorem stops [LawfulZero R] (h : s.Free) (hs : s.settings.Bounded) (hallowed : 0 < s.settings.maxIterations)
    {it : Iterate R} (hit : s.after 1 = .ok it) :
    ∃ r : Residuals R, r.Vanish ∧ s.Stops (.ok ⟨⟨.optimal, 0, r⟩, it⟩) := by
  obtain ⟨r, hr, hvanish⟩ := h.exists_residuals hs it
  exact ⟨r, hvanish, .converged hallowed (dvd_zero _) (fun _ hj => absurd hj (Nat.not_lt_zero _)) hit hr
    hvanish.converged⟩

end Free

end System

/-! ## Solves -/

namespace Solver

variable {s : Solver R} {p : Provider R} {system : System R}

/-- A problem without constraints that is compiled, and whose proximal operators have values at zero, is solved in
    one sweep.  Its blocks are those of the terms with penalty zero; each variable of the objective has the value
    that the operator of its block gives at zero; and whatever the settings are, if they are bounded and allow an
    iteration, a solve is optimal after iteration zero, with residuals that are zero, and writes these values. -/
theorem solve_unconstrained [LawfulZero R] (hproblem : s.problem.constraints = []) (hsystem : s.system p = .ok system)
    (hvalues : ∀ blk ∈ system.blocks, ∃ y, blk.atZero = .ok y) :
    (s.problem.freeBlocks.runFrom p (Session.start .zero 0)).1 = .ok system.blocks ∧
      ∃ x : BlockVector R, (∀ k n, x.sizeAt? k = some n ↔ s.problem.objective.Mentions k n) ∧
        (∀ k v, x.get? k = some v ↔ ∃ blk ∈ system.blocks, ∃ y, blk.atZero = .ok y ∧ y.get? k = some v) ∧
        ∀ s' : Solver R, s'.problem = s.problem → s'.settings.Bounded → 0 < s'.settings.maxIterations →
          ∃ r : Residuals R, r.Vanish ∧ (s'.solve p).outcome = .ok ⟨.optimal, 0, r⟩ ∧
            (s'.solve p).writes = s'.writes x ∧
            (s'.solve p).solver = s'.finish ⟨.optimal, 0, r⟩ (s'.writes x) := by
  obtain ⟨form, layouts, hcompiles⟩ := system_eq_ok hsystem
  have hfree := free_of_system hproblem hsystem
  have hdivided := divided_of_shares hcompiles.shares hcompiles.blocks
  obtain ⟨it, hit, hvariables, hget⟩ := hfree.exists_sweep hdivided hcompiles.oneSize hvalues
  obtain ⟨blocks, hblocks, hmk⟩ := bind_eq_ok.1 ((system_eq_free hproblem p).symm.trans hsystem)
  cases pure_eq_ok.1 hmk
  refine ⟨hblocks, it.x, fun k n => (hvariables k n).trans hcompiles.mentions_iff.symm, hget,
    fun s' hsame hbounded hallowed => ?_⟩
  have hproblem' : s'.problem.constraints = [] := hsame ▸ hproblem
  have hsystem' : s'.system p = .ok ⟨s'.settings, blocks, .empty, 0⟩ := by
    rw [system_eq_free hproblem' p, hsame, hblocks]
    rfl
  obtain ⟨r, hvanish, hstops⟩ := (free_of_system hproblem' hsystem').stops hbounded hallowed
    ((congrFun (System.after_congr _ s'.settings) 1).trans hit)
  have hrun : (s'.run.runFrom p (Session.start .zero 0)).1 = .ok ⟨⟨.optimal, 0, r⟩, it⟩ := by
    rw [outcome_run, hsystem']
    exact hstops.iterate
  obtain ⟨houtcome, hwrites, hsolver⟩ := solve_of_ok hrun
  exact ⟨r, hvanish, houtcome, hwrites, hsolver⟩

/-- `shifted settings`: minimize `(x - 3)² + |y|`. -/
def shifted (settings : Settings Float) : Solver Float :=
  create ⟨"p", .node .add 1 1
    [.node (.term ⟨.sumSquare, 1, false⟩) 1 1 [.node .add 1 1
      [.var 1 1 "x", .node (.constant ⟨1, 1, .scalar (-3)⟩) 1 1 []]],
    .node (.term ⟨.normL1, 1, false⟩) 1 1 [.var 1 1 "y"]], []⟩ settings

/-- A solve with the settings of a solver that was told nothing, and one with a large penalty, no tolerance and one
    iteration. -/
theorem solve_unconstrained_shifted :
    ∃ r r' : Residuals Float, ((shifted .default).solve fun _ => none).outcome = .ok ⟨.optimal, 0, r⟩ ∧
      ((shifted ⟨1e6, 0, 0, 1, 7⟩).solve fun _ => none).outcome = .ok ⟨.optimal, 0, r'⟩ ∧
      ((shifted ⟨1e6, 0, 0, 1, 7⟩).solve fun _ => none).writes = ((shifted .default).solve fun _ => none).writes := by
  obtain ⟨system, hsystem, hvalues⟩ := exists_eq_ok_and (x := (shifted .default).system fun _ => none)
    (p := fun system => system.blocks.all fun blk => blk.atZero.toOption.isSome) (by decide +kernel)
  obtain ⟨-, x, -, -, hsolves⟩ := solve_unconstrained (s := shifted .default) rfl hsystem
    fun blk hblk => exists_eq_ok (List.all_eq_true.1 hvalues blk hblk)
  obtain ⟨r, -, houtcome, hwrites, -⟩ := hsolves (shifted .default) rfl
    ⟨by decide +kernel, by decide +kernel, by decide +kernel, by decide +kernel⟩ (by decide)
  obtain ⟨r', -, houtcome', hwrites', -⟩ := hsolves (shifted ⟨1e6, 0, 0, 1, 7⟩) rfl
    ⟨by decide +kernel, by decide +kernel, by decide +kernel, by decide +kernel⟩ (by decide)
  exact ⟨r, r', houtcome, houtcome', hwrites'.trans hwrites.symm⟩

/-- `steep`: minimize `x²` with a penalty and a relative tolerance that are finite, while their product is not. -/
def steep : Solver Float :=
  create ⟨"steep", .node (.term ⟨.sumSquare, 1, false⟩) 1 1 [.var 1 1 "x"], []⟩ ⟨1e200, 1e-4, 1e200, 1, 10⟩

/-- The dual tolerance is no number, so no look finds small residuals. -/
theorem solve_steep : steep.problem.constraints = [] ∧ 0 < steep.settings.maxIterations ∧
    (isFinite steep.settings.rho = true ∧ 0 ≤ steep.settings.rho) ∧
    (isFinite steep.settings.absTol = true ∧ 0 ≤ steep.settings.absTol) ∧
    (isFinite steep.settings.relTol = true ∧ 0 ≤ steep.settings.relTol) ∧
    (∃ system, steep.system (fun _ => none) = .ok system ∧ ∀ blk ∈ system.blocks, ∃ y, blk.atZero = .ok y) ∧
    ∃ status, (steep.solve fun _ => none).outcome = .ok status ∧ status.state = .maxIterationsReached := by
  obtain ⟨system, hsystem, hvalues⟩ := exists_eq_ok_and (x := steep.system fun _ => none)
    (p := fun system => system.blocks.all fun blk => blk.atZero.toOption.isSome) (by decide +kernel)
  obtain ⟨status, hstatus, hstate⟩ := exists_eq_ok_and (x := (steep.solve fun _ => none).outcome)
    (p := fun status => status.state = .maxIterationsReached) (by decide +kernel)
  exact ⟨rfl, by decide, by decide +kernel, by decide +kernel, by decide +kernel, ⟨system, hsystem, fun blk hblk =>
    exists_eq_ok (List.all_eq_true.1 hvalues blk hblk)⟩, status, hstatus, of_decide_eq_true hstate⟩

end Solver

end BlockAdmm
