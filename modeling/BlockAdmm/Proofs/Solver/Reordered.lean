/-
  Solves with the constraints in another order.

  The constraints of a block in another order are the same rows under other names (`Affine.renamed_of_perm`).  A
  block is given the same coupling and the same operator for them (`Coupling.of_renamed`,
  `TermBlock.beside_build`): where the Gram matrix decides it shows the same scalar, and where the estimate of the
  norm does it is the same estimate.  For a variable without an element it need not be so, since an empty block
  shows whatever scalar its form happens to carry.

  From then on two runs go side by side.  What has the names of rows, like the running sum, is the same under other
  names, and what has the names of variables is the same (`System.Renamed.after`).  So the residuals are the same
  numbers and the runs stop at the same sweep (`System.Renamed.iterate`).
-/
import BlockAdmm.Proofs.Block.RowNames
import BlockAdmm.Proofs.ConstraintOrder
import BlockAdmm.Proofs.Solver.Coupling
import BlockAdmm.Proofs.Solver.Stopping

namespace BlockAdmm

open Scalar ExactScalar

variable {R : Type} [ExactScalar R] {ρ : Equiv.Perm String}

/-! ## Couplings -/

namespace Coupling

variable {a a' back back' : BlockMatrix R} {l : Layout} {c c' : Coupling R}

/-- The Gram matrices show the same positive scalar. -/
theorem gramScalar?_renamed (h : a.Renamed ρ (Equiv.refl String) a')
    (hpos : ∀ r c l, a.get? r c = some l → 0 < l.n) {alpha : R} (halpha : 0 < alpha)
    (hs : gramScalar? a l = .ok (some alpha)) {o : Option R} (hs' : gramScalar? a' l = .ok o) : o = some alpha := by
  have hcols : a'.colDims = a.colDims := Keyed.renamed_refl_iff.1 h.cols
  rw [gramScalar?] at hs
  rw [gramScalar?, hcols] at hs'
  split at hs
  · rename_i hsize
    rw [if_pos hsize] at hs'
    obtain ⟨g, hg, hs⟩ := bind_eq_ok.1 hs
    obtain ⟨g', hg', hs'⟩ := bind_eq_ok.1 hs'
    exact h.scalar?_gram hpos hg hg' halpha.ne' hs hs'
  · cases hs

/-- The coupling does not depend on the names of the rows. -/
theorem of_renamed (h : a.Renamed ρ (Equiv.refl String) a') (hpos : ∀ r c l, a.get? r c = some l → 0 < l.n)
    (hempty : a.isEmpty = a'.isEmpty) (hback : a.transpose = .ok back) (hback' : a'.transpose = .ok back')
    (hc : Coupling.of a l = .ok c) (hc' : Coupling.of a' l = .ok c') : c' = c := by
  have hpos' (r k : String) (m : LinearMap R) (hm : a'.get? r k = some m) : 0 < m.n := by
    obtain ⟨m', hm', halike⟩ := h.symm.exists_right hm
    rw [halike.n_eq]
    exact hpos _ _ m' hm'
  obtain ⟨gram, hgram, hcases⟩ := of_cases hc
  obtain ⟨gram', hgram', hcases'⟩ := of_cases hc'
  rw [← hempty] at hcases'
  -- each side is without blocks, shows a scalar or is estimated, and the other side does the same
  rcases hcases with ⟨hnil, rfl⟩ | ⟨hnil, alpha, rfl, halpha, rfl⟩ | ⟨hnil, hnone, hest⟩ <;>
    rcases hcases' with ⟨hnil', rfl⟩ | ⟨hnil', alpha', rfl, halpha', rfl⟩ | ⟨hnil', hnone', hest'⟩
  · rfl
  · cases hnil.symm.trans hnil'
  · cases hnil.symm.trans hnil'
  · cases hnil.symm.trans hnil'
  · exact congrArg scalar (Option.some.inj (gramScalar?_renamed h hpos halpha hgram hgram'))
  · exact absurd halpha (hnone' alpha (gramScalar?_renamed h hpos halpha hgram hgram'))
  · cases hnil.symm.trans hnil'
  · exact absurd halpha' (hnone alpha' (gramScalar?_renamed h.symm hpos' halpha' hgram' hgram))
  · -- both are estimated
    obtain ⟨norm, hnorm, rfl⟩ := estimated_eq_ok.1 hest
    obtain ⟨norm', hnorm', rfl⟩ := estimated_eq_ok.1 hest'
    rw [(h.normEstimate hback hback' normIterations).of_eq_ok hnorm hnorm']

end Coupling

/-! ## Blocks of terms -/

/-- `b.Renamed ρ b'`: blocks of one term that differ in the names of the rows. -/
structure TermBlock.Renamed (ρ : Equiv.Perm String) (b b' : TermBlock R) : Prop where
  layout : b'.layout = b.layout
  coupling : b'.coupling = b.coupling
  operator : b'.operator = b.operator
  a : b.a.Renamed ρ (Equiv.refl String) b'.a
  back : b.back.Renamed (Equiv.refl String) ρ b'.back

namespace TermBlock

variable {b b' : TermBlock R} {x u u' : BlockVector R}

namespace Renamed

/-- The image of an iterate. -/
theorem apply (h : b.Renamed ρ b') (x : BlockVector R) :
    Matched (BlockVector.Renamed ρ) (b.a.apply x) (b'.a.apply x) :=
  h.a.apply (BlockVector.renamed_refl_iff.2 rfl)

/-- The product with the transpose has the names of variables. -/
theorem backApply (h : b.Renamed ρ b') (hu : u.Renamed ρ u') : Matched Eq (b.back.apply u) (b'.back.apply u') :=
  (h.back.apply hu).imp fun _ _ hz => (BlockVector.renamed_refl_iff.1 hz).symm

theorem target (h : b.Renamed ρ b') (hu : u.Renamed ρ u') (x : BlockVector R) :
    Matched Eq (b.target u x) (b'.target u' x) := by
  rw [TermBlock.target, TermBlock.target, h.coupling, h.layout]
  cases b.coupling with
  | scalar alpha => exact (h.backApply hu).thenSame _ fun _ => rfl
  | unconstrained => exact Matched.refl _ fun _ => rfl
  | linearized mu =>
    refine (h.apply x).bind fun y y' hy => (hy.addScaled hu (-1)).bind fun r r' hr => ?_
    exact (h.backApply hr).thenSame _ fun _ => rfl

theorem step (h : b.Renamed ρ b') (hu : u.Renamed ρ u') (x : BlockVector R) :
    Matched Eq (b.step u x).outcome (b'.step u' x).outcome := by
  rw [TermBlock.step, TermBlock.step, h.layout, h.operator, Logged.outcome_bind, Logged.outcome_bind]
  refine (h.target hu x).bind fun t t' ht => ?_
  subst ht
  rw [Logged.outcome_bind, Logged.outcome_bind]
  refine Matched.andThen _ fun y => ?_
  split
  · exact .error
  · exact Matched.refl (b.layout.split y) fun _ => rfl

end Renamed

/-- The block of a term, for constraints under other names. -/
theorem beside_build (p : Provider R) (index : Nat) (term : Expr R) (layout : Layout) {all all' : BlockMatrix R}
    (h : all.Renamed ρ (Equiv.refl String) all') (hpos : ∀ r c l, all.get? r c = some l → 0 < l.n) (rho : R) :
    Compile.Beside p (fun _ _ => True) _ _ (TermBlock.Renamed ρ) (build index term layout all rho)
      (build index term layout all' rho) := by
  have hC := Compile.congruence_beside p fun _ _ => True
  have ha := h.restrictCols layout.ids
  have hpos (r c : String) (l : LinearMap R) (hl : (all.restrictCols layout.ids).get? r c = some l) : 0 < l.n := by
    rw [BlockMatrix.get?_restrictCols] at hl
    split at hl
    · exact hpos r c l hl
    · cases hl
  rw [build, build]
  refine hC.bind (Compile.beside_liftM _ _) fun back back' hback => ?_
  refine hC.bind (Compile.beside_liftM _ _) fun c c' hc => ?_
  obtain rfl := Coupling.of_renamed ha hpos (h.isEmpty_restrictCols _) hback.1 hback.2 hc.1 hc.2
  refine hC.andThen (hC.note _ _) fun _ => ?_
  refine hC.bind (Compile.beside_term p term layout _) fun input input' hinput => ?_
  rw [← hinput]
  refine hC.andThen (hC.outcome _) fun operator => hC.pure ?_
  exact ⟨rfl, rfl, rfl, ha, ha.transpose hback.1 hback.2⟩

end TermBlock

/-! ## Sweeps -/

/-- `it.Renamed ρ it'`: one iterate, with the running sum under other names. -/
structure Iterate.Renamed (ρ : Equiv.Perm String) (it it' : Iterate R) : Prop where
  x : it'.x = it.x
  previous : it'.previous = it.previous
  u : it.u.Renamed ρ it'.u

/-- `s.Renamed ρ s'`: systems that differ in the names of the rows. -/
structure System.Renamed (ρ : Equiv.Perm String) (s s' : System R) : Prop where
  settings : s'.settings = s.settings
  n : s'.n = s.n
  b : s.b.Renamed ρ s'.b
  blocks : List.Forall₂ (TermBlock.Renamed ρ) s.blocks s'.blocks

namespace System

variable {s s' : System R} {b b' : TermBlock R} {it it' : Iterate R} {u u' : BlockVector R}

theorem subtractImage_renamed (hb : b.Renamed ρ b') (hu : u.Renamed ρ u') (x : BlockVector R) :
    Matched (BlockVector.Renamed ρ) (subtractImage x u b) (subtractImage x u' b') :=
  (hb.apply x).bind fun _ _ hy => hu.addScaled hy (-1)

/-- The turn of a block. -/
theorem stepBlock_renamed (hb : b.Renamed ρ b') (hit : it.Renamed ρ it') :
    Matched (Iterate.Renamed ρ) (stepBlock it b).outcome (stepBlock it' b').outcome := by
  simp only [stepBlock, hit.x, hit.previous, Logged.outcome_bind]
  refine (hb.apply it.x).bind fun y y' hy => ?_
  refine (hit.u.addScaled hy 1).bind fun w w' hw => ?_
  refine (hb.step hw it.x).bind fun z z' hz => ?_
  subst hz
  exact (subtractImage_renamed hb hw _).bind fun v v' hv => .ok ⟨rfl, rfl, hv⟩

namespace Renamed

theorem withoutImages (h : s.Renamed ρ s') (hu : u.Renamed ρ u') (x : BlockVector R) :
    Matched (BlockVector.Renamed ρ) (s.withoutImages x u) (s'.withoutImages x u') :=
  (hu.addScaled h.b (-1)).bind fun _ _ hv =>
    Matched.foldlM h.blocks hv fun _ _ hb _ _ hw => subtractImage_renamed hb hw x

theorem sweep (h : s.Renamed ρ s') (hit : it.Renamed ρ it') :
    Matched (Iterate.Renamed ρ) (s.sweep it).outcome (s'.sweep it').outcome := by
  rw [System.sweep, System.sweep, hit.x, Logged.outcome_bind, Logged.outcome_bind]
  refine (h.withoutImages hit.u it.x).bind fun v v' hv => ?_
  rw [Logged.outcome_foldlM, Logged.outcome_foldlM]
  exact Matched.foldlM h.blocks ⟨rfl, rfl, hv⟩ fun _ _ hb _ _ hmid => stepBlock_renamed hb hmid

theorem start (h : s.Renamed ρ s') : s.start.Renamed ρ s'.start := by
  have hzeroes : s'.blocks.foldl zeroes BlockVector.empty = s.blocks.foldl zeroes BlockVector.empty := by
    generalize (BlockVector.empty : BlockVector R) = x
    have hblocks := h.blocks
    generalize s.blocks = bs at hblocks
    generalize s'.blocks = bs' at hblocks
    induction hblocks generalizing x with
    | nil => rfl
    | cons hb _ ih =>
      rw [List.foldl_cons, List.foldl_cons, zeroes, zeroes, hb.layout]
      exact ih _
  exact ⟨hzeroes, hzeroes, BlockVector.renamed_empty ρ⟩

/-- After any number of sweeps there is the same iterate. -/
theorem after (h : s.Renamed ρ s') (k : Nat) : Matched (Iterate.Renamed ρ) (s.after k) (s'.after k) := by
  induction k with
  | zero => exact .ok h.start
  | succ k ih => exact ih.bind fun it it' hit => h.sweep hit

/-! ## Residuals -/

theorem dualSquare {bs bs' : List (TermBlock R)} (hbs : List.Forall₂ (TermBlock.Renamed ρ) bs bs')
    (hit : it.Renamed ρ it') {diff diff' : BlockVector R} (hdiff : diff.Renamed ρ diff') (sum : R) :
    Matched Eq (System.dualSquare it bs diff sum) (System.dualSquare it' bs' diff' sum) := by
  induction hbs generalizing diff diff' sum with
  | nil => exact .ok rfl
  | cons hnext hrest ih =>
    cases hrest with
    | nil => exact .ok rfl
    | cons hb hrest =>
      rw [System.dualSquare, System.dualSquare, hit.x, hit.previous]
      refine (hnext.apply it.x).bind fun y y' hy => (hdiff.addScaled hy 1).bind fun d d' hd => ?_
      refine (hnext.apply it.previous).bind fun z z' hz => (hd.addScaled hz (-1)).bind fun e e' he => ?_
      refine (hb.backApply he).bind fun v v' hv => ?_
      subst hv
      exact ih he _

/-- The residuals are the same numbers. -/
theorem residuals (h : s.Renamed ρ s') (hit : it.Renamed ρ it') :
    Matched Eq (s.residuals it) (s'.residuals it') := by
  rw [System.residuals, System.residuals, hit.x, h.settings, h.n, h.b.norm_eq, h.b.dim_eq]
  have himages : Matched (fun acc acc' => acc.1.Renamed ρ acc'.1 ∧ acc'.2 = acc.2)
      (s.blocks.foldlM (addImage it.x) (s.b, s.b.norm)) (s'.blocks.foldlM (addImage it.x) (s'.b, s.b.norm)) := by
    refine Matched.foldlM h.blocks ⟨h.b, rfl⟩ fun b b' hb acc acc' hacc => ?_
    refine (hb.apply it.x).bind fun y y' hy => (hacc.1.addScaled hy 1).bind fun v v' hv => ?_
    exact .ok ⟨hv, by rw [hacc.2, hy.norm_eq]⟩
  have hback : Matched Eq (s.blocks.foldlM (addBackSquare it.u) 0) (s'.blocks.foldlM (addBackSquare it'.u) 0) := by
    refine Matched.foldlM h.blocks rfl fun b b' hb sum sum' hsum => ?_
    subst hsum
    exact (hb.backApply hit.u).thenSame _ fun _ => rfl
  refine himages.bind fun acc acc' hacc => ?_
  obtain ⟨left, maxNorm⟩ := acc
  obtain ⟨left', maxNorm'⟩ := acc'
  obtain ⟨hleft, rfl⟩ := hacc
  have hreverse := List.rel_reverse h.blocks
  refine (dualSquare hreverse hit (BlockVector.renamed_empty ρ) 0).bind fun dual dual' hdual => ?_
  subst hdual
  refine hback.bind fun sum sum' hsum => ?_
  subst hsum
  exact .ok (congrArg (Residuals.mk · _ _ _) hleft.norm_eq.symm)

/-! ## Runs -/

theorem goesOn (h : s.Renamed ρ s') {k : Nat} (hon : s.GoesOn k) : s'.GoesOn k := by
  intro j hj hlook
  rw [h.settings] at hlook
  obtain ⟨it, r, hit, hr, hlarge⟩ := hon j hj hlook
  obtain ⟨it', hit', hrenamed⟩ := (h.after (j + 1)).exists_ok hit
  obtain ⟨_, hr', rfl⟩ := (h.residuals hrenamed).exists_ok hr
  exact ⟨it', r, hit', hr', hlarge⟩

/-- Runs stop at the same place, with the same iterate and the same status. -/
theorem iterate (h : s.Renamed ρ s') :
    Matched (fun e e' => e'.status = e.status ∧ e'.last.x = e.last.x) s.iterate.outcome s'.iterate.outcome := by
  have hstops := s.stops_iterate
  generalize s.iterate.outcome = o at hstops
  cases hstops with
  | @converged k it r allowed look before state residuals small =>
    obtain ⟨it', state', hit⟩ := (h.after _).exists_ok state
    obtain ⟨_, residuals', rfl⟩ := (h.residuals hit).exists_ok residuals
    rw [← h.settings] at allowed look
    rw [(Stops.converged allowed look (h.goesOn before) state' residuals' small).iterate]
    exact .ok ⟨rfl, hit.x⟩
  | exhausted before state residuals =>
    obtain ⟨it', state', hit⟩ := (h.after _).exists_ok state
    obtain ⟨_, residuals', rfl⟩ := (h.residuals hit).exists_ok residuals
    rw [← h.settings] at before state' ⊢
    rw [(Stops.exhausted (h.goesOn before) state' residuals').iterate]
    exact .ok ⟨rfl, hit.x⟩
  | sweepFault allowed before state fault =>
    obtain ⟨it', state', hit⟩ := (h.after _).exists_ok state
    obtain ⟨f', fault'⟩ := (h.sweep hit).exists_error fault
    rw [← h.settings] at allowed
    rw [(Stops.sweepFault allowed (h.goesOn before) state' fault').iterate]
    exact .error
  | lookFault allowed look before state fault =>
    obtain ⟨it', state', hit⟩ := (h.after _).exists_ok state
    obtain ⟨f', fault'⟩ := (h.residuals hit).exists_error fault
    rw [← h.settings] at allowed look
    rw [(Stops.lookFault allowed look (h.goesOn before) state' fault').iterate]
    exact .error
  | lastFault before state fault =>
    obtain ⟨it', state', hit⟩ := (h.after _).exists_ok state
    obtain ⟨f', fault'⟩ := (h.residuals hit).exists_error fault
    rw [← h.settings] at before state'
    rw [(Stops.lastFault (h.goesOn before) state' fault').iterate]
    exact .error

end Renamed

end System

/-! ## Solvers -/

omit [ExactScalar R] in
/-- The layouts depend on the columns of the constraints. -/
theorem Objective.layouts_congr {a a' : BlockMatrix R} (h : a'.colDims = a.colDims) (terms : List (Expr R)) :
    Objective.layouts terms a' = Objective.layouts terms a := by
  have hclaim : Objective.claim a' = Objective.claim a := by
    funext i owners kd
    rw [Objective.claim, Objective.claim, h]
  have hdivide : Objective.divide a' = Objective.divide a := by
    funext d ei
    rw [Objective.divide, Objective.divide, hclaim]
  rw [Objective.layouts, Objective.layouts, hdivide, h]

namespace Solver

variable {s : Solver R} {p : Provider R} {cs : List (Expr R)}

/-- `s.withConstraints cs`: the solver with other constraints. -/
def withConstraints (s : Solver R) (cs : List (Expr R)) : Solver R :=
  { s with problem := { s.problem with constraints := cs } }

/-- The systems of two orders of the constraints. -/
theorem beside_compile (hperm : s.problem.constraints.Perm cs)
    (hpos : ∀ k d, s.problem.objective.Mentions k d → 0 < d) :
    Compile.Beside p (fun _ _ => True) _ _ (fun system system' => ∃ ρ, system.Renamed ρ system') s.compile
      (s.withConstraints cs).compile := by
  have hC := Compile.congruence_beside p fun _ _ => True
  have hform : Compile.Beside p (fun _ _ => True) _ _ (fun f f' => ∃ ρ, f.Renamed ρ f')
      (Affine.buildConstraints s.problem) (Affine.buildConstraints (s.withConstraints cs).problem) := by
    intro r r' f f' t t' hr hf hf'
    obtain ⟨hrenamed, ht, ht'⟩ := Affine.renamed_of_perm hperm hr.left hr.right hf hf'
    exact ⟨hrenamed, ht, ht', trivial⟩
  rw [compile, compile]
  refine hC.andThen (hC.note _ _) fun _ => hC.andThen (hC.note _ _) fun _ => ?_
  refine hC.andThen (hC.note _ _) fun _ => hC.bind hform fun f f' hf => ?_
  obtain ⟨ρ, hf⟩ := hf
  have hcols : f'.a.colDims = f.a.colDims := Keyed.renamed_refl_iff.1 hf.a.cols
  refine hC.andThen (hC.note _ _) fun _ => hC.andThen (hC.note _ _) fun _ => ?_
  refine hC.bind (Compile.beside_liftM _ _) fun terms terms' hterms => ?_
  obtain rfl : terms = terms' := Except.ok.inj (hterms.1.symm.trans hterms.2)
  rw [Objective.layouts_congr hcols]
  refine hC.bind (Compile.beside_liftM _ _) fun layouts layouts' hlayouts => ?_
  obtain rfl : layouts = layouts' := Except.ok.inj (hlayouts.1.symm.trans hlayouts.2)
  -- a column belongs to a variable of the objective, and has its number of elements
  have hcolumns (r c : String) (l : LinearMap R) (hl : f.a.get? r c = some l) : 0 < l.n := by
    obtain ⟨-, hshares, howned⟩ := Objective.layouts_eq_ok hlayouts.1
    have hc := hf.a.sized.cols hl
    obtain ⟨layout, hlayout, hk⟩ := howned c (Keyed.mem_keys_iff.2 ⟨l.n, hc⟩)
    obtain ⟨d, hd⟩ := Layout.mem_ids_iff.1 hk
    rw [hshares.sizes layout hlayout c d l.n hd hc]
    exact hpos c d ((Objective.mentions_iff_layouts hterms.1 hlayouts.1).2 ⟨layout, hlayout, hd⟩)
  have hblocks : Compile.Beside p (fun _ _ => True) _ _ (List.Forall₂ (TermBlock.Renamed ρ))
      ((terms.zip layouts).zipIdx.mapM (s.buildBlock f.a))
      ((terms.zip layouts).zipIdx.mapM ((s.withConstraints cs).buildBlock f'.a)) :=
    hC.mapM List.Forall₂.nil List.Forall₂.cons fun tli _ =>
      TermBlock.beside_build p tli.2 tli.1.1 tli.1.2 hf.a hcolumns s.settings.rho
  refine hC.bind hblocks fun blocks blocks' hblocks => ?_
  refine hC.bind Compile.beside_get fun r r' _ => hC.andThen (hC.note _ _) fun _ => ?_
  have hn : f'.a.n = f.a.n := by rw [BlockMatrix.n, BlockMatrix.n, hcols]
  rw [hn]
  refine hC.andThen (hC.outcome _) fun n => hC.andThen (hC.outcome _) fun _ => hC.pure ?_
  exact ⟨ρ, rfl, rfl, hf.b, hblocks⟩

/-- The order of the constraints does not matter, if every variable has an element.  A problem and the one with
    its constraints in another order, if both are compiled, go through the same iterates sweep by sweep, with the
    same residuals at each of them, or fail at the same sweep or look; and the solves come to the same status, or
    both to an error, and write the same. -/
theorem solve_perm (hperm : s.problem.constraints.Perm cs)
    (hpos : ∀ k d, s.problem.objective.Mentions k d → 0 < d) {system system' : System R}
    (h : s.system p = .ok system) (h' : (s.withConstraints cs).system p = .ok system') :
    (∀ k, Matched (fun it it' => it'.x = it.x ∧ Matched Eq (system.residuals it) (system'.residuals it'))
        (system.after k) (system'.after k)) ∧
      Matched Eq (s.solve p).outcome ((s.withConstraints cs).solve p).outcome ∧
      ((s.withConstraints cs).solve p).writes = (s.solve p).writes := by
  have hstart : (Session.start AffineForm.zero 0 : Session R).Beside p (fun _ _ => True) (Session.start .zero 0) :=
    ⟨rfl, rfl, trivial⟩
  obtain ⟨⟨ρ, hsystems⟩, -⟩ :=
    beside_compile hperm hpos _ _ system system' _ _ hstart (Prod.ext h rfl) (Prod.ext h' rfl)
  refine ⟨fun k => (hsystems.after k).imp fun it it' hit => ⟨hit.x, hsystems.residuals hit⟩, ?_⟩
  have hruns := hsystems.iterate
  have hrun := outcome_run s p
  have hrun' := outcome_run (s.withConstraints cs) p
  rw [h] at hrun
  rw [h'] at hrun'
  cases hi : system.iterate.outcome with
  | ok e =>
    obtain ⟨e', hi', hstatus, hx⟩ := hruns.exists_ok hi
    obtain ⟨houtcome, hwrites, -⟩ := solve_of_ok (hrun.trans hi)
    obtain ⟨houtcome', hwrites', -⟩ := solve_of_ok (hrun'.trans hi')
    rw [houtcome, houtcome', hwrites, hwrites', hstatus, hx]
    exact ⟨.ok rfl, rfl⟩
  | error f =>
    obtain ⟨f', hi'⟩ := hruns.exists_error hi
    obtain ⟨houtcome, hwrites, -⟩ := solve_of_error (hrun.trans hi)
    obtain ⟨houtcome', hwrites', -⟩ := solve_of_error (hrun'.trans hi')
    rw [houtcome, houtcome', hwrites, hwrites']
    exact ⟨.error, rfl⟩

/-- `crossed`: minimize `x²` subject to `x + y = 1` and `x - y = 0`, with one iteration. -/
def crossed : Solver ℚ :=
  create ⟨"p",
    .node .add 1 1 [.node (.term ⟨.sumSquare, 1, false⟩) 1 1 [.var 1 1 "x"],
      .node (.term ⟨.zero, 1, false⟩) 1 1 [.var 1 1 "y"]],
    [.node .zeroCone 1 1 [.node .add 1 1 [.var 1 1 "x", .var 1 1 "y",
        .node (.constant ⟨1, 1, .scalar (-1)⟩) 1 1 []]],
      .node .zeroCone 1 1 [.node .add 1 1 [.var 1 1 "x", .node .negate 1 1 [.var 1 1 "y"]]]]⟩
    { Settings.default with maxIterations := 1 }

theorem pos_of_mentions_crossed (k : String) (d : Nat) (h : crossed.problem.objective.Mentions k d) : 0 < d := by
  obtain ⟨v, hv, hkind, rfl⟩ := h
  have hdims : crossed.problem.objective.nodes.all fun v => decide (0 < v.m * v.n) := by decide
  exact of_decide_eq_true (List.all_eq_true.1 hdims v hv)

/-- With its constraints the other way round the solve comes to the same status and writes the same. -/
theorem solve_perm_crossed :
    ∃ status, (crossed.solve fun _ => none).outcome = .ok status ∧
      ((crossed.withConstraints crossed.problem.constraints.reverse).solve fun _ => none).outcome = .ok status ∧
      ((crossed.withConstraints crossed.problem.constraints.reverse).solve fun _ => none).writes
        = (crossed.solve fun _ => none).writes := by
  obtain ⟨system, hsystem⟩ := exists_eq_ok (x := crossed.system fun _ => none) (by decide +kernel)
  obtain ⟨system', hsystem'⟩ := exists_eq_ok
    (x := (crossed.withConstraints crossed.problem.constraints.reverse).system fun _ => none) (by decide +kernel)
  obtain ⟨status, hstatus⟩ := exists_eq_ok (x := (crossed.solve fun _ => none).outcome) (by decide +kernel)
  obtain ⟨-, houtcome, hwrites⟩ :=
    solve_perm (List.reverse_perm _).symm pos_of_mentions_crossed hsystem hsystem'
  obtain ⟨_, hstatus', rfl⟩ := houtcome.exists_ok hstatus
  exact ⟨status, hstatus, hstatus', hwrites⟩

end Solver

end BlockAdmm
