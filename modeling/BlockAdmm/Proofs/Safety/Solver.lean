/-
  Whole solves.

  What one part of a solve takes for granted another part has compared: the compiler reports maps and data
  of other sizes, the layouts report variables of two sizes and of two owners, and a step that gives
  another number of values is reported as well.  Hence what was built for a term can make its step wherever
  the variables of the term have their sizes (`TermBlock.runEnds_build`, `TermBlock.Ready.step`).  An iterate
  has no other sizes at the start, and no turn of a block changes that (`System.Ready.stepBlock`), so no
  sweep does, nor any number of them (`System.Ready.rounds`).

  A solve therefore ends with a status or an error that it reports, unless a size is too large to be counted
  or a vector to be stored, or the rotations of a spectrum do not end (`Solver.solve_keepsPromises`).
-/
import BlockAdmm.Proofs.Safety.Operator
import BlockAdmm.Proofs.Solver.Feasible

namespace BlockAdmm

open Scalar Compile

variable {R : Type} {E : Fault → Prop}

/-! ## Constraints -/

namespace Affine

variable [Scalar R] {p : Provider R} {s : Session R} {total : AffineForm R}

omit [Scalar R] in
theorem runEnds_singleArgument [Reports E] {c : Expr R} (hc : c.ConstantsSized) :
    RunEnds E p s (fun e _ => e.ConstantsSized) (singleArgument c) := by
  obtain ⟨kind, m, n, args⟩ := c
  rw [singleArgument]
  split
  · rename_i e heq
    obtain rfl : args = [e] := heq
    exact runEnds_pure (hc.arg (List.mem_singleton_self e))
  · exact runEnds_refuse _

/-- A constraint adds blocks of the right sizes, or what does not fit is reported. -/
theorem runEnds_buildConstraint [Reports E] {ci : Expr R × Nat} (hc : ci.1.ConstantsSized)
    (htotal : total.a.Sized) :
    RunEnds E p s (fun f _ => f.a.Sized) (buildConstraint total ci) := by
  rw [buildConstraint]
  split
  · exact runEnds_refuse_bind _ _
  refine (runEnds_singleArgument hc).bind fun e t he => ?_
  refine (runEnds_build fun f hf h => absurd h (he.not_hollow hf _)).bind fun form u hform => ?_
  refine (runEnds_liftM (htotal.add hform.1.1.sized)).bind fun a v ha => ?_
  exact (runEnds_liftM (BlockVector.ends_addScaled _ _ _)).bind fun b w _ => runEnds_pure ha.1

theorem runEnds_buildConstraints [Reports E] {q : Problem R}
    (hq : ∀ c ∈ q.constraints, c.ConstantsSized) :
    RunEnds E p s (fun f _ => f.a.Sized) (buildConstraints q) :=
  runEnds_foldlM (fun (f : AffineForm R) _ => f.a.Sized) BlockMatrix.sized_empty fun _ hci _ _ htotal =>
    runEnds_buildConstraint (hq _ (List.fst_mem_of_mem_zipIdx hci)) htotal

end Affine

/-! ## Layouts -/

namespace Objective

variable {a : BlockMatrix R} {terms : List (Expr R)} {ls : List Layout}

theorem ends_terms [Reports E] [Scalar R] {e : Expr R} (he : e.ConstantsSized) :
    Ends E (fun ts => ∀ t ∈ ts, t.ConstantsSized) (Objective.terms e) := by
  obtain ⟨kind, m, n, args⟩ := e
  rw [Objective.terms]
  split
  · split
    · exact ends_fail _
    · exact ends_ok fun t ht => he.arg ht
  · exact ends_ok fun t ht => List.mem_singleton.1 ht ▸ he
  · exact ends_fail _

/-- The next term gets the layout of its variables. -/
theorem ends_divide [Reports E] (d : Division) (ei : Expr R × Nat) :
    Ends E (fun d' => ∃ l, d'.layouts = d.layouts ++ [l] ∧ ei.1.variableSizes = .ok l.sizes)
      (divide a d ei) := by
  refine ((Expr.ends_variableSizes _).and_eq fun _ h => h).bind fun sizes hsizes => ?_
  refine Ends.bind (P := fun _ => True) (ends_foldlM _ trivial fun kd _ owners _ => ?_) fun owners _ => ?_
  · rw [claim]
    split
    · exact ends_fail _
    · exact (BlockMatrix.ends_checkDim (Or.inr Reports.failed)).bind fun _ _ => ends_ok trivial
  · exact Ends.bind ((ends_limit _).bind (Q := fun l => l = ⟨sizes⟩) fun _ _ => ends_ok rfl)
      fun l hl => ends_ok ⟨l, rfl, hl ▸ hsizes.2⟩

/-- Each term has the layout of its variables, and no two layouts have one variable. -/
theorem ends_layouts [Reports E] :
    Ends E (fun ls => List.Forall₂ (fun e l => e.variableSizes = .ok l.sizes) terms ls ∧ Shares a ls)
      (layouts terms a) := by
  -- `through` are the terms that have their layouts
  have hwalk (es : List (Expr R × Nat)) (through : List (Expr R)) (d : Division)
      (hd : List.Forall₂ (fun e l => e.variableSizes = .ok l.sizes) through d.layouts) :
      Ends E (fun d' => List.Forall₂ (fun e l => e.variableSizes = .ok l.sizes)
        (through ++ es.map Prod.fst) d'.layouts) (es.foldlM (divide a) d) := by
    induction es generalizing through d with
    | nil => exact ends_ok (by rwa [List.map_nil, List.append_nil])
    | cons ei es ih =>
      rw [List.foldlM_cons]
      refine (ends_divide d ei).bind fun d' ⟨l, hl, hsizes⟩ => ?_
      rw [List.map_cons, List.append_cons]
      refine ih _ d' ?_
      rw [hl]
      exact List.rel_append hd (List.Forall₂.cons hsizes List.Forall₂.nil)
  refine Ends.and_eq ?_ fun ls hls => (layouts_eq_ok hls).2.1
  refine (hwalk terms.zipIdx [] ⟨Keyed.empty, []⟩ List.Forall₂.nil).bind fun d hd => ?_
  rw [List.nil_append, List.zipIdx_map_fst] at hd
  split
  · exact ends_fail _
  · exact ends_ok hd

/-- Layouts that share no variable have one size for each. -/
theorem Shares.agree (h : Shares a ls) {l l' : Layout} (hl : l ∈ ls) (hl' : l' ∈ ls)
    {k : String} {d d' : Nat} (hd : l.sizes.get? k = some d) (hd' : l'.sizes.get? k = some d') :
    d = d' := by
  have : Std.Symm fun l l' : Layout => ∀ k ∈ l.ids, k ∉ l'.ids := ⟨fun _ _ h k hk hk' => h k hk' hk⟩
  by_cases heq : l = l'
  · subst heq
    exact Option.some.inj (hd.symm.trans hd')
  · have hfree := h.disjoint.forall hl hl' heq k (Layout.mem_ids_iff.2 ⟨d, hd⟩)
    exact absurd (Layout.mem_ids_iff.2 ⟨d', hd'⟩) hfree

end Objective

/-! ## Blocks -/

variable [Scalar R]

namespace Coupling

theorem ends_gramScalar? [Reports E] {a : BlockMatrix R} (ha : a.Sized) (layout : Layout) :
    Ends E (fun _ => True) (gramScalar? a layout) := by
  rw [gramScalar?]
  split
  · exact ha.gram.bind fun g _ => BlockMatrix.ends_commonScalar g.toList none
  · exact ends_ok trivial

theorem ends_estimated [Reports E] {a : BlockMatrix R} (ha : a.Sized) :
    Ends E (fun _ => True) (estimated a) := by
  refine (ha.normEstimate normIterations).bind fun norm _ => ?_
  split
  · exact ends_ok trivial
  · exact ends_ok trivial

theorem ends_of [Reports E] {a : BlockMatrix R} (ha : a.Sized) (layout : Layout) :
    Ends E (fun _ => True) (of a layout) := by
  refine (ends_gramScalar? ha layout).bind fun gram _ => ?_
  split
  · exact ends_ok trivial
  split
  · split
    · exact ends_ok trivial
    · exact ends_estimated ha
  · exact ends_estimated ha

end Coupling

namespace TermBlock

/-- `b.Ready E`: the columns of the constraints have the sizes of the variables of the block, and the
    operator can be applied to every flat vector of them. -/
structure Ready (E : Fault → Prop) (b : TermBlock R) : Prop where
  a : b.a.Sized
  back : b.back.Sized
  rows : b.back.rowDims = b.a.colDims
  cols : ∀ k d n, b.layout.sizes.get? k = some d → b.a.colDims.get? k = some n → n = d
  operator : Serves E b.layout.n fun v => (b.operator.apply v).outcome

variable {b : TermBlock R} {x : BlockVector R}

/-- What is built of a declared term is ready. -/
theorem runEnds_build [Waits E] {p : Provider R} {s : Session R} {term : Expr R} {l : Layout}
    {all : BlockMatrix R} (hterm : term.ConstantsSized) (hl : term.Declared l.sizes) (hall : all.Sized)
    (hcols : ∀ k d n, l.sizes.get? k = some d → all.colDims.get? k = some n → n = d) (index : Nat)
    (rho : R) :
    RunEnds E p s (fun b _ => b.Ready E ∧ b.layout = l) (build index term l all rho) := by
  have ha := hall.restrictCols l.ids
  refine (runEnds_liftM ha.transpose).bind fun back t hback => ?_
  refine (runEnds_liftM (Coupling.ends_of ha l)).bind fun coupling t _ => ?_
  refine (runEnds_note _).bind fun _ t _ => ?_
  refine (TermInput.runEnds_build hterm hl _).bind fun input t hinput => ?_
  refine (runEnds_liftM (Operator.ends_build hinput.2)).bind fun operator t hop => ?_
  refine runEnds_pure ⟨⟨ha, hback.1.1, hback.1.2.1, fun k d n hd hn => ?_, hinput.1 ▸ hop.1⟩, rfl⟩
  obtain ⟨r, map, hmap, -, rfl⟩ := (BlockMatrix.get?_colDims_restrictCols hall.cols _ _ _).1 hn
  exact hcols k d _ hd (hall.cols hmap)

/-- A product with the transpose has the sizes of the variables. -/
theorem Ready.agrees (hb : b.Ready E) {y : BlockVector R} (hy : y.Within b.back.rowDims) :
    b.layout.Agrees y := fun k d n hd hn => hb.cols k d n hd (hb.rows ▸ hy k n hn)

/-- The point of a step has an entry for each place of the block. -/
theorem Ready.target [Reports E] (hb : b.Ready E) (hx : b.layout.Agrees x) (u : BlockVector R) :
    Ends E (fun v => v.size = b.layout.n) (b.target u x) := by
  rw [TermBlock.target]
  cases b.coupling with
  | scalar alpha =>
    refine (hb.back.apply u).bind fun y hy => (Layout.ends_flatten (hb.agrees hy)).bind fun g hg => ?_
    exact ends_ok ((Vec.size_scale ..).trans hg)
  | unconstrained => exact Layout.ends_flatten hx
  | linearized mu =>
    refine (hb.a.apply x).bind fun ax _ => (BlockVector.ends_addScaled ax (-1) u).bind fun r _ => ?_
    refine (hb.back.apply r).bind fun y hy => (Layout.ends_flatten (hb.agrees hy)).bind fun g hg => ?_
    refine (Layout.ends_flatten hx).bind fun v hv => ?_
    exact (Vec.ends_addScaled _ (hg.trans hv.symm)).imp fun z hz => hz.trans hv

/-- A step gives the variables of the block with their sizes. -/
theorem Ready.step [Reports E] (hb : b.Ready E) (hx : b.layout.Agrees x) (u : BlockVector R) :
    Ends E (fun y => ∀ k, y.sizeAt? k = b.layout.sizes.get? k) (b.step u x).outcome := by
  refine Ends.logged_bind (hb.target hx u) fun v hv => ?_
  refine Ends.logged_bind (hb.operator v hv) fun y _ => ?_
  split
  · exact ends_fail _
  · rename_i hsize
    rw [bne_iff_ne, not_not] at hsize
    exact Ends.logged_bind (P := fun _ => True) trivial fun _ _ => Layout.ends_split hsize

end TermBlock

/-! ## Sweeps -/

namespace System

/-- `s.Ready E`: every block is ready, and a variable has one size in all of them. -/
structure Ready (E : Fault → Prop) (s : System R) : Prop where
  blocks : ∀ b ∈ s.blocks, b.Ready E
  agree : ∀ b ∈ s.blocks, ∀ b' ∈ s.blocks, ∀ k d d', b.layout.sizes.get? k = some d →
    b'.layout.sizes.get? k = some d' → d = d'

omit [Scalar R] in
/-- `s.Holds x`: everything in `x` is a variable of a block with the size that it has there. -/
def Holds (s : System R) (x : BlockVector R) : Prop :=
  ∀ k n, x.sizeAt? k = some n → ∃ b ∈ s.blocks, b.layout.sizes.get? k = some n

variable {s : System R} {b : TermBlock R} {x u : BlockVector R} {it : Iterate R}

theorem Ready.agrees (hs : s.Ready E) (hx : s.Holds x) (hb : b ∈ s.blocks) : b.layout.Agrees x := by
  intro k d n hd hn
  obtain ⟨b', hb', hd'⟩ := hx k n hn
  exact hs.agree b' hb' b hb k n d hd' hd

omit [Scalar R] in
theorem Holds.insert (hx : s.Holds x) (hb : b ∈ s.blocks) {k : String} {v : Array R}
    (hk : b.layout.sizes.get? k = some v.size) : s.Holds (x.insert k v) := by
  intro k' n hn
  rw [BlockVector.sizeAt?_insert] at hn
  split at hn
  · rename_i heq
    exact ⟨b, hb, heq ▸ Option.some.inj hn ▸ hk⟩
  · exact hx k' n hn

omit [Scalar R] in
/-- Values for variables of a block that have their sizes. -/
theorem Holds.foldl_insert {α : Type} (f : α → Array R) {vars : List (String × α)} (hb : b ∈ s.blocks)
    (hvars : ∀ kv ∈ vars, b.layout.sizes.get? kv.1 = some (f kv.2).size) (hx : s.Holds x) :
    s.Holds (vars.foldl (fun x kv => x.insert kv.1 (f kv.2)) x) := by
  induction vars generalizing x with
  | nil => exact hx
  | cons kv vars ih =>
    obtain ⟨hkv, hvars⟩ := List.forall_mem_cons.1 hvars
    exact ih hvars (hx.insert hb hkv)

theorem holds_start (s : System R) : s.Holds s.start.x := by
  have hwalk (bs : List (TermBlock R)) (hbs : ∀ b ∈ bs, b ∈ s.blocks) (x : BlockVector R)
      (hx : s.Holds x) : s.Holds (bs.foldl zeroes x) := by
    induction bs generalizing x with
    | nil => exact hx
    | cons b bs ih =>
      obtain ⟨hb, hbs⟩ := List.forall_mem_cons.1 hbs
      refine ih hbs _ (hx.foldl_insert Vec.zero hb fun kd hkd => ?_)
      rw [Vec.size_zero]
      exact Keyed.get?_eq_some_iff.2 hkd
  exact hwalk s.blocks (fun _ hb => hb) BlockVector.empty nofun

theorem ends_subtractImage [Reports E] (hb : b.Ready E) (x u : BlockVector R) :
    Ends E (fun _ => True) (subtractImage x u b) :=
  (hb.a.apply x).bind fun ax _ => (BlockVector.ends_addScaled u _ ax).imp fun _ _ => trivial

/-- The turn of a block changes no size. -/
theorem Ready.stepBlock [Reports E] (hs : s.Ready E) (hb : b ∈ s.blocks) (hit : s.Holds it.x) :
    Ends E (fun it' => s.Holds it'.x) (stepBlock it b).outcome := by
  have hready := hs.blocks b hb
  -- nothing is known of the sum of the images, and what does not fit there is reported
  refine Ends.logged_bind (hready.a.apply it.x) fun ax _ => ?_
  refine Ends.logged_bind (BlockVector.ends_addScaled it.u 1 ax) fun w _ => ?_
  refine Ends.logged_bind (hready.step (hs.agrees hit hb) w) fun y hy => ?_
  refine Ends.logged_bind (ends_subtractImage hready _ w) fun u _ => ends_ok ?_
  refine hit.foldl_insert id hb fun kv hkv => ?_
  rw [← hy]
  exact BlockVector.sizeAt?_eq_some_iff.2 ⟨kv.2, Keyed.get?_eq_some_iff.2 hkv, rfl⟩

theorem Ready.sweep [Reports E] (hs : s.Ready E) (hit : s.Holds it.x) :
    Ends E (fun it' => s.Holds it'.x) (s.sweep it).outcome := by
  have hwithout : Ends E (fun _ => True) (s.withoutImages it.x it.u) := by
    refine (BlockVector.ends_addScaled it.u _ s.b).bind fun u _ => ?_
    exact ends_foldlM _ trivial fun b hb u _ => ends_subtractImage (hs.blocks b hb) _ u
  refine Ends.logged_bind hwithout fun u _ => ?_
  rw [Logged.outcome_foldlM]
  exact ends_foldlM (fun it' : Iterate R => s.Holds it'.x) hit fun b hb it' hit' => hs.stepBlock hb hit'

/-! ## Residuals -/

/-- The changes behind each block, from the last block to the first. -/
theorem ends_dualSquare [Reports E] (it : Iterate R) {blocks : List (TermBlock R)}
    (hblocks : ∀ b ∈ blocks, b.Ready E) (diff : BlockVector R) (sum : R) :
    Ends E (fun _ => True) (dualSquare it blocks diff sum) := by
  induction blocks generalizing diff sum with
  | nil => exact ends_ok trivial
  | cons next rest ih =>
    obtain ⟨hnext, hrest⟩ := List.forall_mem_cons.1 hblocks
    cases rest with
    | nil => exact ends_ok trivial
    | cons b rest =>
      rw [dualSquare]
      refine (hnext.a.apply it.x).bind fun ax _ => (BlockVector.ends_addScaled _ _ _).bind fun d _ => ?_
      refine (hnext.a.apply it.previous).bind fun ax _ => ?_
      refine (BlockVector.ends_addScaled _ _ _).bind fun d _ => ?_
      refine ((hrest b List.mem_cons_self).back.apply d).bind fun y _ => ?_
      exact ih hrest d _

theorem Ready.residuals [Reports E] (hs : s.Ready E) (it : Iterate R) :
    Ends E (fun _ => True) (s.residuals it) := by
  refine Ends.bind (P := fun _ => True) (ends_foldlM _ trivial fun b hb acc _ => ?_) fun left _ => ?_
  · refine ((hs.blocks b hb).a.apply it.x).bind fun ax _ => ?_
    exact (BlockVector.ends_addScaled _ _ _).bind fun _ _ => ends_ok trivial
  refine (ends_dualSquare it (fun b hb => hs.blocks b (List.mem_reverse.1 hb)) _ _).bind fun dual _ => ?_
  refine Ends.bind (P := fun _ => True) (ends_foldlM _ trivial fun b hb sum _ => ?_) fun back _ => ?_
  · exact ((hs.blocks b hb).back.apply it.u).bind fun _ _ => ends_ok trivial
  · exact ends_ok trivial

/-! ## Rounds -/

theorem Ready.check [Reports E] (hs : s.Ready E) (i : Nat) (it : Iterate R) :
    Ends E (fun _ => True) (s.check i it).outcome :=
  Ends.logged_bind (hs.residuals it) fun _ _ => trivial

theorem Ready.round [Reports E] (hs : s.Ready E) (i : Nat) (hit : s.Holds it.x) :
    Ends E (fun r => s.Holds r.1.x) (s.round i it).outcome := by
  refine Ends.logged_bind (hs.sweep hit) fun it' hit' => ?_
  split
  · refine Ends.logged_bind (hs.check i it') fun r _ => ?_
    split
    · exact Ends.logged_bind (P := fun _ => True) trivial fun _ _ => ends_ok hit'
    · exact ends_ok hit'
  · exact ends_ok hit'

/-- A round can start where the one before it ended, so any number of them can be made. -/
theorem Ready.rounds [Reports E] (hs : s.Ready E) (left i : Nat) (hit : s.Holds it.x)
    (events : Array Event) : Ends E (fun _ => True) (s.rounds left i it events).outcome := by
  -- on the rounds that are left, for every iterate
  induction left generalizing i it events with
  | zero =>
    exact Ends.logged_bind (hs.check i it) fun _ _ => trivial
  | succ left ih =>
    have hround := hs.round i hit
    rw [System.rounds]
    split
    · rename_i f heq
      exact hround.of_eq_error heq
    · exact ends_ok trivial
    · rename_i it' heq
      exact ih (i + 1) (hround.of_eq_ok heq) _

theorem Ready.iterate [Reports E] (hs : s.Ready E) : Ends E (fun _ => True) s.iterate.outcome :=
  hs.rounds _ 0 (holds_start s) #[]

end System

/-! ## Solves -/

namespace Solver

variable {s : Solver R} {p : Provider R} {t : Session R}

/-- What a problem is compiled to can be iterated. -/
theorem runEnds_compile [Waits E] (hobjective : s.problem.objective.ConstantsSized)
    (hconstraints : ∀ c ∈ s.problem.constraints, c.ConstantsSized) :
    RunEnds E p t (fun system _ => system.Ready E) s.compile := by
  rw [compile]
  refine (runEnds_note _).bind fun _ t _ => (runEnds_note _).bind fun _ t _ => ?_
  refine (runEnds_note _).bind fun _ t _ => ?_
  refine (Affine.runEnds_buildConstraints hconstraints).bind fun form t hform => ?_
  refine (runEnds_note _).bind fun _ t _ => (runEnds_note _).bind fun _ t _ => ?_
  refine (runEnds_liftM (Objective.ends_terms hobjective)).bind fun terms t hterms => ?_
  refine (runEnds_liftM Objective.ends_layouts).bind fun layouts t hlayouts => ?_
  obtain ⟨⟨hsizes, hshares⟩, -⟩ := hlayouts
  have hdeclared : List.Forall₂ (fun e l => e.Declared l.sizes) terms layouts :=
    hsizes.imp fun e _ h => (Expr.ends_variableSizes (E := E) e).of_eq_ok h
  -- a term comes with the layout that was made for it
  have hbuild : ∀ tli ∈ (terms.zip layouts).zipIdx, ∀ t, True →
      RunEnds E p t (fun b _ => (b.Ready E ∧ b.layout ∈ layouts) ∧ True) (s.buildBlock form.a tli) := by
    intro tli htli t _
    have hzip := List.fst_mem_of_mem_zipIdx htli
    obtain ⟨hterm, hl⟩ := List.of_mem_zip hzip
    exact (TermBlock.runEnds_build (hterms.1 _ hterm) (List.forall₂_zip hdeclared hzip) hform
      (hshares.sizes _ hl) _ _).imp fun b _ hb => ⟨⟨hb.1, hb.2 ▸ hl⟩, trivial⟩
  refine (runEnds_mapM (fun _ => True) _ trivial hbuild).bind fun blocks t hblocks => ?_
  refine runEnds_get.bind fun _ t _ => (runEnds_note _).bind fun _ t _ => ?_
  refine (runEnds_liftM (ends_count _)).bind fun n t _ => ?_
  refine (runEnds_liftM (ends_forM fun l _ => ends_forM fun d _ => ends_room d)).bind fun _ t _ => ?_
  refine runEnds_pure ⟨fun b hb => (hblocks.1 b hb).1, fun b hb b' hb' k d d' hd hd' => ?_⟩
  exact hshares.agree (hblocks.1 b hb).2 (hblocks.1 b' hb').2 hd hd'

theorem runEnds_run [Waits E] (hobjective : s.problem.objective.ConstantsSized)
    (hconstraints : ∀ c ∈ s.problem.constraints, c.ConstantsSized) :
    RunEnds E p t (fun _ _ => True) s.run := by
  refine (runEnds_compile hobjective hconstraints).bind fun system t hsystem => ?_
  exact (runEnds_note _).bind fun _ t _ => runEnds_logged hsystem.iterate

/-- A solve ends with a status or an error that it reports, unless a size is too large or a loop does not
    end. -/
theorem ends_solve [Waits E] (hobjective : s.problem.objective.ConstantsSized)
    (hconstraints : ∀ c ∈ s.problem.constraints, c.ConstantsSized) (p : Provider R) :
    Ends E (fun _ => True) (s.solve p).outcome := by
  have hrun := runEnds_run (E := E) (p := p) (t := Session.start AffineForm.zero 0) hobjective hconstraints
  rw [solve]
  cases hout : s.run.runFrom p (Session.start AffineForm.zero 0) with
  | mk o t =>
    rw [RunEnds, hout] at hrun
    cases o with
    | ok ending => exact ends_ok trivial
    | error f => cases f <;> exact hrun

/-- Whatever a problem is and whatever its data are, a solve of it breaks no promise. -/
theorem solve_keepsPromises (s : Solver R) (p : Provider R)
    (hobjective : s.problem.objective.ConstantsSized)
    (hconstraints : ∀ c ∈ s.problem.constraints, c.ConstantsSized) :
    (∃ status, (s.solve p).outcome = .ok status) ∨ (∃ e, (s.solve p).outcome = .error (.failed e)) ∨
      (s.solve p).outcome = .error .breach ∨ (s.solve p).outcome = .error .unending := by
  have hsolve := ends_solve (E := Fault.KeepsPromises) hobjective hconstraints p
  cases hout : (s.solve p).outcome with
  | ok status => exact Or.inl ⟨status, rfl⟩
  | error f =>
    have hf := hsolve.of_eq_error hout
    cases f with
    | failed e => exact Or.inr (Or.inl ⟨e, rfl⟩)
    | breach => exact Or.inr (Or.inr (Or.inl rfl))
    | misuse => exact absurd rfl hf
    | unending => exact Or.inr (Or.inr (Or.inr rfl))

/-- `shortData`: minimize `|x|₁` subject to `x - c = 0`, where the data for `c` are too long. -/
def shortData : Solver ℚ :=
  create ⟨"p", .term .normL1 1 [.var 2 1 "x"],
    [.isZero (.node .add 2 1 [.var 2 1 "x", .neg (.data 2 1 "c")])]⟩ Settings.default

/-- The provider of data that are too long. -/
def longData : Provider ℚ := fun key =>
  if key = "c" then some (.dense ⟨3, 1, #[1, 2, 3], rfl⟩) else none

/-- Data of another size are reported. -/
theorem solve_keepsPromises_shortData :
    (shortData.problem.objective.ConstantsSized ∧ ∀ c ∈ shortData.problem.constraints, c.ConstantsSized) ∧
      ∃ e, (shortData.solve longData).outcome = .error (.failed e) := by
  have hobjective : shortData.problem.objective.ConstantsSized := by decide
  have hconstraints : ∀ c ∈ shortData.problem.constraints, c.ConstantsSized := by decide
  have hout : (shortData.solve longData).outcome = .error (.failed (.dataSize "c" (3, 1) (2, 1))) := rfl
  refine ⟨⟨hobjective, hconstraints⟩, ?_⟩
  rcases solve_keepsPromises shortData longData hobjective hconstraints with ⟨_, h⟩ | h | h | h
  · cases hout.symm.trans h
  · exact h
  · cases hout.symm.trans h
  · cases hout.symm.trans h

/-- Minimize `0` over a variable without elements, of which the product of a matrix without rows and a
    matrix of `2 ^ 60` rows without columns is to be zero. -/
def wideFactors : Solver ℚ :=
  create ⟨"wide", .term .zero 1 [.var 0 1 "x"],
    [.isZero (.node (.linearMap (.kronecker (.dense ⟨0, 1, .data "A"⟩)
      (.dense ⟨1152921504606846976, 0, .data "B"⟩))) 0 1 [.var 0 1 "x"])]⟩ Settings.default

/-- The provider of the two matrices, neither of which has an entry. -/
def wideFactorData : Provider ℚ := fun key =>
  if key = "A" then some (.dense ⟨0, 1, #[], by decide⟩)
  else if key = "B" then some (.dense ⟨1152921504606846976, 0, #[], by decide⟩)
  else none

/-- Every size is a count, that of the vector between the two factors as well, but that vector cannot be
    stored. -/
theorem solve_wideFactors :
    (wideFactors.problem.objective.ConstantsSized ∧
      ∀ c ∈ wideFactors.problem.constraints, c.ConstantsSized) ∧
    (∀ e ∈ wideFactors.problem.objective :: wideFactors.problem.constraints, ∀ f ∈ e.nodes,
      isCount f.dim = true) ∧
    isCount 1152921504606846976 = true ∧
    (wideFactors.solve wideFactorData).outcome = .error .breach :=
  ⟨by decide, by decide, by decide, eq_breach_of_breached (by decide +kernel)⟩

end Solver

end BlockAdmm
