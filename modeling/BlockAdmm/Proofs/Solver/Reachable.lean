/-
  Who owns which variable, from the layouts on to every state of the iteration.

  The layouts of the terms divide the variables of the objective among themselves, and every column of the
  constraints is one of these variables with its number of elements.  The blocks of the compiled system have
  these layouts.

  `System.Reaches` lists the states of the iteration: the start, the beginning of a sweep, and what there is
  after the turn of each block, so also those in the middle of a sweep.  No step creates a variable, drops one
  or changes its size (`Reaches.hasVariables`), and what a block changes is its own (`get?_turn`).  So the
  division holds in each of these states (`Solver.variables_owned`).
-/
import BlockAdmm.Proofs.Solver.Writing

namespace BlockAdmm

open Scalar

variable {R : Type} [Scalar R]

/-! ## States -/

namespace System

variable {s : System R} {through : List (TermBlock R)} {it it' : Iterate R} {blk : TermBlock R}

/-- `s.Reaches through it`: the iteration comes to `it`, and the blocks `through` have had their turn in the
    sweep that it is in. -/
inductive Reaches (s : System R) : List (TermBlock R) → Iterate R → Prop
  /-- the start, at which nothing is left to do of a sweep -/
  | start : Reaches s s.blocks s.start
  /-- the beginning of a sweep -/
  | begin {it : Iterate R} {u : BlockVector R} (h : Reaches s s.blocks it)
    (hu : s.withoutImages it.x it.u = .ok u) : Reaches s [] ⟨it.x, it.x, u⟩
  /-- the turn of the next block -/
  | turn {through rest : List (TermBlock R)} {blk : TermBlock R} {it it' : Iterate R} (h : Reaches s through it)
    (hblocks : s.blocks = through ++ blk :: rest) (hturn : (stepBlock it blk).outcome = .ok it') :
    Reaches s (through ++ [blk]) it'

/-- The turns of several blocks. -/
theorem Reaches.turns {blks rest : List (TermBlock R)} (h : s.Reaches through it)
    (hblocks : s.blocks = through ++ blks ++ rest)
    (hturns : blks.foldlM (fun it blk => (stepBlock it blk).outcome) it = .ok it') :
    s.Reaches (through ++ blks) it' := by
  induction blks generalizing through it with
  | nil =>
    cases foldlM_nil_eq_ok.1 hturns
    rwa [List.append_nil]
  | cons blk blks ih =>
    obtain ⟨mid, hmid, hturns⟩ := foldlM_cons_eq_ok.1 hturns
    rw [List.append_cons] at hblocks ⊢
    have hnext : s.blocks = through ++ blk :: (blks ++ rest) := by
      rw [hblocks, List.append_assoc, List.append_assoc]
      rfl
    exact ih (h.turn hnext hmid) hblocks hturns

/-- A sweep goes from the end of one to the end of the next. -/
theorem Reaches.sweep (h : s.Reaches s.blocks it) (hsweep : (s.sweep it).outcome = .ok it') :
    s.Reaches s.blocks it' := by
  obtain ⟨u, hu, hturns⟩ := sweep_eq_ok.1 hsweep
  have hall : s.blocks = [] ++ s.blocks ++ [] := (List.append_nil _).symm
  exact (h.begin hu).turns hall hturns

/-- So the last iterate is one of the states. -/
theorem reaches_last {e : Ending R} (h : s.iterate.outcome = .ok e) : s.Reaches s.blocks e.last :=
  (rounds_eq_ok (fun it => s.Reaches s.blocks it) (fun _ _ => Reaches.sweep) .start h).2

/-! ## What a state has -/

/-- In every state both iterates have the variables of the blocks, and nothing else. -/
theorem Reaches.hasVariables (hone : OneSize s.blocks) (h : s.Reaches through it) :
    HasVariables s.blocks it.x ∧ HasVariables s.blocks it.previous := by
  induction h with
  | start => exact ⟨hasVariables_start hone, hasVariables_start hone⟩
  | begin _ _ ih => exact ⟨ih.1, ih.1⟩
  | turn _ hblocks hturn ih =>
    have hmem : _ ∈ s.blocks := hblocks ▸ List.mem_append_right _ List.mem_cons_self
    obtain ⟨_, _, _, _, -, -, -, -, hprevious, -⟩ := stepBlock_eq_ok hturn
    exact ⟨hasVariables_stepBlock hone hmem ih.1 hturn, hprevious ▸ ih.2⟩

/-- The turn of a block leaves the iterate before and the variables of the other blocks alone. -/
theorem get?_turn (h : (stepBlock it blk).outcome = .ok it') :
    it'.previous = it.previous ∧ ∀ k, k ∉ blk.layout.ids → it'.x.get? k = it.x.get? k := by
  obtain ⟨_, w, y, _, -, -, hy, hx, hprevious, -⟩ := stepBlock_eq_ok h
  refine ⟨hprevious, fun k hk => ?_⟩
  rw [get?_stepBlock hy hx, if_neg hk]

end System

/-! ## Owners -/

namespace Solver

variable {s : Solver R} {p : Provider R} {form : AffineForm R} {terms : List (Expr R)} {layouts : List Layout}

omit [Scalar R] in
/-- Of layouts that share no variable, one and no other has a variable that there is. -/
theorem existsUnique_owner
    (hdisjoint : layouts.Pairwise fun l l' => ∀ k ∈ l.ids, k ∉ l'.ids) {k : String}
    (hk : ∃ l ∈ layouts, k ∈ l.ids) : ∃! i : Nat, ∃ l, layouts[i]? = some l ∧ k ∈ l.ids := by
  obtain ⟨l, hl, hkl⟩ := hk
  obtain ⟨i, hi⟩ := List.mem_iff_getElem?.1 hl
  refine ⟨i, ⟨l, hi, hkl⟩, ?_⟩
  rintro j ⟨l', hj, hkl'⟩
  rw [List.pairwise_iff_getElem] at hdisjoint
  obtain ⟨hilt, rfl⟩ := List.getElem?_eq_some_iff.1 hi
  obtain ⟨hjlt, rfl⟩ := List.getElem?_eq_some_iff.1 hj
  rcases Nat.lt_trichotomy i j with h | h | h
  · exact absurd hkl' (hdisjoint i j hilt hjlt h k hkl)
  · exact h.symm
  · exact absurd hkl (hdisjoint j i hjlt hilt h k hkl')

/-- Blocks have the layouts of their terms. -/
theorem map_layout_of {all : BlockMatrix R} {rho : R} {blocks : List (TermBlock R)}
    (h : List.Forall₂ (TermBlock.Of all rho) layouts blocks) : blocks.map (·.layout) = layouts := by
  induction h with
  | nil => rfl
  | cons hof _ ih => rw [List.map_cons, hof.layout, ih]

/-- The layouts of the terms share no variable and have together those of the objective, each with its number
    of elements; every column of the constraints is one of them with that number, and one layout has it.  The
    blocks of the compiled system have these layouts.  In every state of the iteration, the middle of a sweep
    included, both iterates have the variables of the objective with their numbers of elements and nothing
    else, and the turn of a block changes no variable but its own. -/
theorem variables_owned (hform : s.constraints p = .ok form)
    (hterms : Objective.terms s.problem.objective = .ok terms)
    (hlayouts : Objective.layouts terms form.a = .ok layouts) :
    (layouts.Pairwise fun l l' => ∀ k ∈ l.ids, k ∉ l'.ids) ∧
      (∀ k d, s.problem.objective.Mentions k d ↔ ∃ l ∈ layouts, l.sizes.get? k = some d) ∧
      (∀ k n, form.a.colDims.get? k = some n →
        s.problem.objective.Mentions k n ∧ ∃! i : Nat, ∃ l, layouts[i]? = some l ∧ k ∈ l.ids) ∧
      ∀ system, s.system p = .ok system →
        system.blocks.map (·.layout) = layouts ∧
        (∀ through it, system.Reaches through it →
          (∀ k n, it.x.sizeAt? k = some n ↔ s.problem.objective.Mentions k n) ∧
          (∀ k n, it.previous.sizeAt? k = some n ↔ s.problem.objective.Mentions k n) ∧
          ∀ blk ∈ system.blocks, ∀ it', (System.stepBlock it blk).outcome = .ok it' →
            it'.previous = it.previous ∧ ∀ k, k ∉ blk.layout.ids → it'.x.get? k = it.x.get? k) ∧
        ∀ e, system.iterate.outcome = .ok e → system.Reaches system.blocks e.last := by
  obtain ⟨-, hshares, howned⟩ := Objective.layouts_eq_ok hlayouts
  have hmentions (k : String) (d : Nat) := Objective.mentions_iff_layouts hterms hlayouts (k := k) (d := d)
  refine ⟨hshares.disjoint, hmentions, fun k n hk => ?_, fun system hsystem => ?_⟩
  · have howner := howned k (Keyed.mem_keys_iff.2 ⟨n, hk⟩)
    refine ⟨?_, existsUnique_owner hshares.disjoint howner⟩
    obtain ⟨l, hl, hkl⟩ := howner
    obtain ⟨d, hd⟩ := Layout.mem_ids_iff.1 hkl
    rw [hshares.sizes l hl k d n hd hk]
    exact (hmentions k d).2 ⟨l, hl, hd⟩
  · obtain ⟨_, _, _, hform', hterms', hlayouts', hblocks, -⟩ := system_parts hsystem
    obtain rfl := Except.ok.inj (hform.symm.trans hform')
    obtain rfl := Except.ok.inj (hterms.symm.trans hterms')
    obtain rfl := Except.ok.inj (hlayouts.symm.trans hlayouts')
    obtain ⟨_, _, hcompiles⟩ := system_eq_ok hsystem
    refine ⟨map_layout_of hblocks, fun through it h => ?_, fun e => System.reaches_last⟩
    obtain ⟨hx, hprevious⟩ := h.hasVariables hcompiles.oneSize
    refine ⟨fun k n => ?_, fun k n => ?_, fun blk _ it' => System.get?_turn⟩
    · rw [hx, hcompiles.mentions_iff]
    · rw [hprevious, hcompiles.mentions_iff]

/-- `seesaw`: minimize `|x|²` subject to `x + y = 0`, where a term that is zero owns `y` and `z`. -/
def seesaw : Solver ℚ :=
  create ⟨"p",
    .node .add 1 1 [.node (.term ⟨.sumSquare, 1, false⟩) 1 1 [.var 2 1 "x"],
      .node (.term ⟨.zero, 1, false⟩) 1 1 [.var 2 1 "y", .var 3 1 "z"]],
    [.node .zeroCone 2 1 [.node .add 2 1 [.var 2 1 "x", .var 2 1 "y"]]]⟩ .default

/-- In the middle of the first sweep `x` is through; `y` is as it was, and `z` is still there. -/
theorem variables_owned_seesaw :
    ∃ form terms layouts system blk rest it mid, seesaw.constraints (fun _ => none) = .ok form ∧
      Objective.terms seesaw.problem.objective = .ok terms ∧ Objective.layouts terms form.a = .ok layouts ∧
      layouts.map Layout.ids = [["x"], ["y", "z"]] ∧ seesaw.system (fun _ => none) = .ok system ∧
      system.blocks = blk :: rest ∧ system.Reaches [] it ∧ (System.stepBlock it blk).outcome = .ok mid ∧
      mid.x.get? "y" = it.x.get? "y" ∧ mid.x.sizeAt? "z" = some 3 := by
  obtain ⟨terms, hterms⟩ : ∃ terms, Objective.terms seesaw.problem.objective = .ok terms := ⟨_, rfl⟩
  obtain ⟨layouts, hdivided, hids⟩ := exists_eq_ok_and
    (x := seesaw.constraints (fun _ => none) >>= fun form =>
      Objective.terms seesaw.problem.objective >>= fun terms => Objective.layouts terms form.a)
    (p := fun layouts => layouts.map Layout.ids == [["x"], ["y", "z"]]) (by decide +kernel)
  obtain ⟨form, hform, hlayouts⟩ := bind_eq_ok.1 hdivided
  rw [hterms] at hlayouts
  have hids : layouts.map Layout.ids = [["x"], ["y", "z"]] := eq_of_beq hids
  obtain ⟨it', hrun⟩ := exists_eq_ok
    (x := seesaw.system (fun _ => none) >>= fun system => (system.sweep system.start).outcome)
    (by decide +kernel)
  obtain ⟨system, hsystem, hsweep⟩ := bind_eq_ok.1 hrun
  obtain ⟨u, hu, hturns⟩ := System.sweep_eq_ok.1 hsweep
  obtain ⟨-, -, -, hstates⟩ := variables_owned hform hterms hlayouts
  obtain ⟨hlayout, hstates, -⟩ := hstates system hsystem
  cases hblocks : system.blocks with
  | nil =>
    rw [← hlayout, hblocks] at hids
    cases hids
  | cons blk rest =>
    rw [hblocks] at hturns
    obtain ⟨mid, hmid, -⟩ := foldlM_cons_eq_ok.1 hturns
    have hbegin := System.Reaches.begin .start hu
    obtain ⟨-, -, hturn⟩ := hstates [] _ hbegin
    have hfirst : system.blocks = [] ++ blk :: rest := hblocks
    obtain ⟨hvariables, -⟩ := hstates _ _ (hbegin.turn hfirst hmid)
    obtain ⟨-, hkeeps⟩ := hturn blk (hblocks ▸ List.mem_cons_self) mid hmid
    have hown : blk.layout.ids = ["x"] := by
      rw [← hlayout, hblocks] at hids
      exact (List.cons.inj hids).1
    refine ⟨form, terms, layouts, system, blk, rest, _, mid, hform, hterms, hlayouts, hids, hsystem, hblocks,
      hbegin, hmid, hkeeps "y" ?_, (hvariables "z" 3).2 ⟨.var 3 1 "z", ?_, rfl, rfl⟩⟩
    · rw [hown]
      decide
    · exact List.mem_iff_getElem?.2 ⟨5, rfl⟩

end Solver

end BlockAdmm
