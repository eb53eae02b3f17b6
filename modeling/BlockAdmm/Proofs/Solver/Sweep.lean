/-
  What a sweep does to the running sum.

  The blocks own disjoint variables.  A sweep takes everything over from `u` first, gives each block its
  stale contribution back when its turn comes, and takes the fresh one away; meanwhile the iterate is
  overwritten block by block.  The invariant of the loop (`Swept`) says what `u` is when some of the
  blocks have had their turn: the sum before the sweep, less the constant part, less the fresh images of
  the blocks that are through and the stale images of the others.

  So the step of a block is given what all the other blocks leave, each at its newest value, and what
  it gives are the values of its variables in the new iterate (`System.exists_turn`); the sweep ends with
  what the new iterate leaves (`System.coord_u_sweep`), and a run of sweeps adds these up
  (`System.sweep_refines_gaussSeidel`).
-/
import BlockAdmm.Proofs.Layout
import BlockAdmm.Solver.Iteration

namespace BlockAdmm

open Scalar ExactScalar

variable {R : Type}

/-! ## Outcomes of logged computations -/

theorem Logged.outcome_foldlM {α σ : Type} (f : σ → α → Logged σ) (xs : List α) (s : σ) :
    (xs.foldlM f s).outcome = xs.foldlM (fun s x => (f s x).outcome) s := by
  induction xs generalizing s with
  | nil => rfl
  | cons x xs ih =>
    rw [List.foldlM_cons, Logged.outcome_bind, List.foldlM_cons]
    exact congrArg _ (funext ih)

/-- A fold over two lists goes through a state in between. -/
theorem foldlM_append_eq_ok {α σ : Type} {f : σ → α → Outcome σ} {s t : σ} {xs ys : List α} :
    (xs ++ ys).foldlM f s = .ok t ↔ ∃ r, xs.foldlM f s = .ok r ∧ ys.foldlM f r = .ok t := by
  rw [List.foldlM_append, bind_eq_ok]

/-! ## Blocks and their variables -/

/-- `blk.image x`: the product of the constraints of a block with an iterate, as a point. -/
def TermBlock.image [Scalar R] (blk : TermBlock R) (x : BlockVector R) : String → Nat → R :=
  match blk.a.apply x with
  | .ok y => y.coord
  | .error _ => fun _ _ => 0

/-- `imageSum blocks x`: the sum of the images of blocks. -/
def imageSum [ExactScalar R] (blocks : List (TermBlock R)) (x : BlockVector R) (r : String) (i : Nat) : R :=
  (blocks.map fun blk => blk.image x r i).sum

/-- Blocks that share no variable, each with the constraints on its own variables only. -/
structure Divided (blocks : List (TermBlock R)) : Prop where
  disjoint : blocks.Pairwise fun b b' => ∀ k ∈ b.layout.ids, k ∉ b'.layout.ids
  owns : ∀ blk ∈ blocks, ∀ b ∈ blk.a.toList, b.col ∈ blk.layout.ids

theorem BlockMatrix.apply_congr [Scalar R] {a : BlockMatrix R} {x x' : BlockVector R}
    (h : ∀ b ∈ a.toList, x.get? b.col = x'.get? b.col) : a.apply x = a.apply x' := by
  rw [apply, apply]
  generalize BlockVector.empty = y
  generalize a.toList = bs at h
  induction bs generalizing y with
  | nil => rfl
  | cons b bs ih =>
    have hb : applyBlock x y b = applyBlock x' y b := by
      rw [applyBlock, applyBlock, h b List.mem_cons_self]
    rw [List.foldlM_cons, List.foldlM_cons, hb]
    exact congrArg _ (funext fun z => ih z fun c hc => h c (List.mem_cons_of_mem b hc))

theorem TermBlock.image_of_apply [Scalar R] {blk : TermBlock R} {x y : BlockVector R}
    (h : blk.a.apply x = .ok y) : blk.image x = y.coord := by
  rw [image, h]

theorem TermBlock.image_congr [Scalar R] {blk : TermBlock R} {x x' : BlockVector R}
    (h : ∀ b ∈ blk.a.toList, x.get? b.col = x'.get? b.col) : blk.image x = blk.image x' := by
  rw [image, image, BlockMatrix.apply_congr h]

variable [ExactScalar R]

theorem imageSum_cons (blk : TermBlock R) (blocks : List (TermBlock R)) (x : BlockVector R)
    (r : String) (i : Nat) :
    imageSum (blk :: blocks) x r i = blk.image x r i + imageSum blocks x r i := by
  rw [imageSum, List.map_cons, List.sum_cons]; rfl

theorem imageSum_append (xs ys : List (TermBlock R)) (x : BlockVector R) (r : String) (i : Nat) :
    imageSum (xs ++ ys) x r i = imageSum xs x r i + imageSum ys x r i := by
  rw [imageSum, List.map_append, List.sum_append]; rfl

theorem imageSum_congr {blocks : List (TermBlock R)} {x x' : BlockVector R}
    (h : ∀ blk ∈ blocks, ∀ b ∈ blk.a.toList, x.get? b.col = x'.get? b.col) :
    imageSum blocks x = imageSum blocks x' := by
  funext r i
  exact congrArg List.sum (List.map_congr_left fun blk hblk => by rw [TermBlock.image_congr (h blk hblk)])

omit [ExactScalar R] in
/-- The step of a block gives values to the variables of the block and to no others. -/
theorem sizeAt?_step [Scalar R] {blk : TermBlock R} {u x y : BlockVector R}
    (h : (blk.step u x).outcome = .ok y) (k : String) : y.sizeAt? k = blk.layout.sizes.get? k := by
  obtain ⟨t, -, h⟩ := Logged.bind_eq_ok.1 h
  obtain ⟨v, -, h⟩ := Logged.bind_eq_ok.1 h
  split at h
  · exact absurd h fail_ne_ok
  · obtain ⟨_, -, h⟩ := Logged.bind_eq_ok.1 h
    exact Layout.sizeAt?_split h k

namespace System

/-! ## One step -/

omit [ExactScalar R] in
/-- What the turn of a block goes through. -/
theorem stepBlock_eq_ok [Scalar R] {it it' : Iterate R} {blk : TermBlock R}
    (h : (stepBlock it blk).outcome = .ok it') :
    ∃ ax w y ax', blk.a.apply it.x = .ok ax ∧ it.u.addScaled 1 ax = .ok w ∧
      (blk.step w it.x).outcome = .ok y ∧
      it'.x = y.blocks.entries.foldl (fun x kv => x.insert kv.1 kv.2) it.x ∧
      it'.previous = it.previous ∧
      blk.a.apply it'.x = .ok ax' ∧ w.addScaled (-1) ax' = .ok it'.u := by
  obtain ⟨ax, hax, h⟩ := Logged.bind_eq_ok.1 h
  obtain ⟨w, hw, h⟩ := Logged.bind_eq_ok.1 h
  obtain ⟨y, hy, h⟩ := Logged.bind_eq_ok.1 h
  obtain ⟨u, hu, h⟩ := Logged.bind_eq_ok.1 h
  cases h
  obtain ⟨ax', hax', hu⟩ := bind_eq_ok.1 hu
  exact ⟨ax, w, y, ax', hax, hw, hy, rfl, rfl, hax', hu⟩

omit [ExactScalar R] in
/-- The step of a block changes the variables of the block, to the values that it gives. -/
theorem get?_stepBlock [Scalar R] {it it' : Iterate R} {blk : TermBlock R} {w y : BlockVector R}
    (hy : (blk.step w it.x).outcome = .ok y)
    (hx : it'.x = y.blocks.entries.foldl (fun x kv => x.insert kv.1 kv.2) it.x) (k : String) :
    it'.x.get? k = if k ∈ blk.layout.ids then y.get? k else it.x.get? k := by
  have hsize := sizeAt?_step hy k
  rw [hx, BlockVector.get?_foldl_insert]
  split
  · rename_i hk
    obtain ⟨d, hd⟩ := Layout.mem_ids_iff.1 hk
    obtain ⟨v, hv, -⟩ := BlockVector.sizeAt?_eq_some_iff.1 (hsize.trans hd)
    rw [hv]
    rfl
  · rename_i hk
    have hnone : blk.layout.sizes.get? k = none := by
      rw [Keyed.get?_eq_none_iff]
      exact hk
    rw [BlockVector.sizeAt?_eq_none_iff.1 (hsize.trans hnone)]
    rfl

omit [ExactScalar R] in
theorem get?_of_stepBlock [Scalar R] {it it' : Iterate R} {blk : TermBlock R}
    (h : (stepBlock it blk).outcome = .ok it') {k : String} (hk : k ∉ blk.layout.ids) :
    it'.x.get? k = it.x.get? k := by
  obtain ⟨_, w, y, _, -, -, hy, hx, -⟩ := stepBlock_eq_ok h
  rw [get?_stepBlock hy hx, if_neg hk]

omit [ExactScalar R] in
/-- Steps of blocks leave the variables of other blocks alone. -/
theorem get?_of_foldlM_stepBlock [Scalar R] {blocks : List (TermBlock R)} {it it' : Iterate R}
    (h : blocks.foldlM (fun it blk => (stepBlock it blk).outcome) it = .ok it') {k : String}
    (hk : ∀ blk ∈ blocks, k ∉ blk.layout.ids) : it'.x.get? k = it.x.get? k := by
  induction blocks generalizing it with
  | nil => rw [foldlM_nil_eq_ok.1 h]
  | cons blk blocks ih =>
    obtain ⟨mid, hmid, h⟩ := foldlM_cons_eq_ok.1 h
    rw [ih h fun b hb => hk b (List.mem_cons_of_mem blk hb),
      get?_of_stepBlock hmid (hk blk List.mem_cons_self)]

/-! ## The invariant of the loop -/

/-- `Swept s it through rest mid`: the state `mid` of a sweep from `it` when the blocks `through` have
    had their turn and the blocks `rest` have not. -/
structure Swept (s : System R) (it : Iterate R) (through rest : List (TermBlock R)) (mid : Iterate R) :
    Prop where
  previous : mid.previous = it.x
  untouched : ∀ k, (∀ blk ∈ through, k ∉ blk.layout.ids) → mid.x.get? k = it.x.get? k
  left : ∀ r i, mid.u.coord r i
    = it.u.coord r i - s.b.coord r i - imageSum through mid.x r i - imageSum rest it.x r i

/-- Before the first turn everything stale is taken away. -/
theorem swept_start {s : System R} {it : Iterate R} {u : BlockVector R}
    (h : s.withoutImages it.x it.u = .ok u) : Swept s it [] s.blocks ⟨it.x, it.x, u⟩ := by
  refine ⟨rfl, fun _ _ => rfl, fun r i => ?_⟩
  obtain ⟨v, hv, h⟩ := bind_eq_ok.1 h
  have hsub := foldlM_sum (fun u => u.coord r i) (fun blk => -1 * blk.image it.x r i)
    (fun blk _ u u' hu => by
      obtain ⟨ax, hax, hu⟩ := bind_eq_ok.1 hu
      rw [BlockVector.coord_addScaled hu, TermBlock.image_of_apply hax]) h
  show u.coord r i = _ - imageSum [] it.x r i - _
  rw [hsub, BlockVector.coord_addScaled hv, List.sum_map_mul_left]
  show _ = _ - 0 - (s.blocks.map fun blk => blk.image it.x r i).sum
  ring

/-- A turn gives the stale contribution back and takes the fresh one away. -/
theorem Swept.step {s : System R} {it mid mid' : Iterate R} {blk : TermBlock R}
    {through rest : List (TermBlock R)} (hd : Divided (through ++ blk :: rest))
    (h : Swept s it through (blk :: rest) mid) (hs : (stepBlock mid blk).outcome = .ok mid') :
    Swept s it (through ++ [blk]) rest mid' ∧
      ∃ w y, (∃ ax, blk.a.apply mid.x = .ok ax ∧ mid.u.addScaled 1 ax = .ok w) ∧
        (blk.step w mid.x).outcome = .ok y ∧
        (∀ k, mid'.x.get? k = if k ∈ blk.layout.ids then y.get? k else mid.x.get? k) ∧
        (∃ ax, blk.a.apply mid'.x = .ok ax) ∧
        ∀ r i, w.coord r i = it.u.coord r i - s.b.coord r i - imageSum through mid.x r i
          - imageSum rest it.x r i := by
  obtain ⟨hpre, hcons, hcross⟩ := List.pairwise_append.1 hd.disjoint
  have hmem : blk ∈ through ++ blk :: rest := List.mem_append_right _ List.mem_cons_self
  obtain ⟨ax, w, y, ax', hax, hw, hy, hx, hprev, hax', hu⟩ := stepBlock_eq_ok hs
  have hget := get?_stepBlock hy hx
  -- the variables of the block are still the stale ones
  have hstale : blk.image mid.x = blk.image it.x := by
    refine TermBlock.image_congr fun b hb => h.untouched b.col fun c hc hk => ?_
    exact hcross c hc blk List.mem_cons_self b.col hk (hd.owns blk hmem b hb)
  have hfresh : imageSum through mid'.x = imageSum through mid.x := by
    refine imageSum_congr fun c hc b hb => ?_
    rw [hget, if_neg]
    have hk := hd.owns c (List.mem_append_left _ hc) b hb
    exact hcross c hc blk List.mem_cons_self b.col hk
  have hleft (r : String) (i : Nat) : w.coord r i = it.u.coord r i - s.b.coord r i
      - imageSum through mid.x r i - imageSum rest it.x r i := by
    rw [BlockVector.coord_addScaled hw, h.left, imageSum_cons, ← TermBlock.image_of_apply hax, hstale]
    ring
  refine ⟨⟨hprev.trans h.previous, fun k hk => ?_, fun r i => ?_⟩,
    w, y, ⟨ax, hax, hw⟩, hy, hget, ⟨ax', hax'⟩, hleft⟩
  · rw [hget, if_neg (hk blk (List.mem_append_right _ List.mem_cons_self))]
    exact h.untouched k fun c hc => hk c (List.mem_append_left _ hc)
  · rw [BlockVector.coord_addScaled hu, hleft, imageSum_append, hfresh,
      ← TermBlock.image_of_apply hax']
    show _ = _ - (_ + (blk.image mid'.x r i + 0)) - _
    ring

/-- The invariant after any number of turns. -/
theorem Swept.foldlM {s : System R} {it mid mid' : Iterate R} {turns through rest : List (TermBlock R)}
    (hd : Divided (through ++ turns ++ rest)) (h : Swept s it through (turns ++ rest) mid)
    (hs : turns.foldlM (fun it blk => (stepBlock it blk).outcome) mid = .ok mid') :
    Swept s it (through ++ turns) rest mid' := by
  induction turns generalizing through mid with
  | nil =>
    cases foldlM_nil_eq_ok.1 hs
    rw [List.append_nil]
    exact h
  | cons blk turns ih =>
    obtain ⟨next, hnext, hs⟩ := foldlM_cons_eq_ok.1 hs
    have hsplit : through ++ blk :: turns = through ++ [blk] ++ turns := by
      rw [List.append_assoc, List.singleton_append]
    rw [hsplit] at hd ⊢
    rw [List.cons_append] at h
    rw [List.append_assoc, List.append_assoc, List.singleton_append] at hd
    exact ih (by rw [List.append_assoc, List.append_assoc, List.singleton_append]; exact hd)
      (h.step hd hnext).1 hs

/-! ## What a sweep comes to -/

/-- `s.turn it through blk`: where a sweep from `it` is when the blocks `through` have had their turn,
    and the residual that the step of the next block is given. -/
def turn (s : System R) (it : Iterate R) (through : List (TermBlock R)) (blk : TermBlock R) :
    Outcome (Iterate R × BlockVector R) := do
  let u ← s.withoutImages it.x it.u
  let mid ← through.foldlM (fun it blk => (stepBlock it blk).outcome) ⟨it.x, it.x, u⟩
  return (mid, ← mid.u.addScaled 1 (← blk.a.apply mid.x))

omit [ExactScalar R] in
theorem sweep_eq_ok [Scalar R] {s : System R} {it it' : Iterate R} :
    (s.sweep it).outcome = .ok it' ↔ ∃ u, s.withoutImages it.x it.u = .ok u ∧
      s.blocks.foldlM (fun it blk => (stepBlock it blk).outcome) ⟨it.x, it.x, u⟩ = .ok it' := by
  rw [sweep, Logged.bind_eq_ok]
  exact exists_congr fun u => and_congr Iff.rfl (by rw [Logged.outcome_foldlM])

theorem swept_sweep {s : System R} {it it' : Iterate R} (hd : Divided s.blocks)
    (h : (s.sweep it).outcome = .ok it') : Swept s it s.blocks [] it' := by
  obtain ⟨u, hu, h⟩ := sweep_eq_ok.1 h
  have hswept : Swept s it ([] ++ s.blocks) [] it' :=
    Swept.foldlM (by rw [List.append_nil]; exact hd) (by rw [List.append_nil]; exact swept_start hu) h
  exact hswept

/-- The turn of a block: its variables are stale before and have the values of the step in the end. -/
theorem exists_turn {s : System R} {it it' : Iterate R} (hd : Divided s.blocks)
    (h : (s.sweep it).outcome = .ok it') {through rest : List (TermBlock R)} {blk : TermBlock R}
    (hs : s.blocks = through ++ blk :: rest) :
    ∃ mid w y, s.turn it through blk = .ok (mid, w) ∧ (blk.step w mid.x).outcome = .ok y ∧
      (∀ k ∈ blk.layout.ids, mid.x.get? k = it.x.get? k ∧ it'.x.get? k = y.get? k) ∧
      ((∃ ax, blk.a.apply it.x = .ok ax) ∧ ∃ ax, blk.a.apply it'.x = .ok ax) ∧
      ∀ r i, w.coord r i = it.u.coord r i - s.b.coord r i - imageSum through it'.x r i
        - imageSum rest it.x r i := by
  obtain ⟨u, hu, h⟩ := sweep_eq_ok.1 h
  have hstart := swept_start hu
  rw [hs] at h hd hstart
  obtain ⟨mid, hmid, h⟩ := foldlM_append_eq_ok.1 h
  obtain ⟨next, hnext, h⟩ := foldlM_cons_eq_ok.1 h
  have hswept : Swept s it ([] ++ through) (blk :: rest) mid := Swept.foldlM hd hstart hmid
  rw [List.nil_append] at hswept
  obtain ⟨-, hcons, hcross⟩ := List.pairwise_append.1 hd.disjoint
  obtain ⟨-, w, y, ⟨ax, hax, hw⟩, hy, hget, ⟨ax', hax'⟩, hleft⟩ := hswept.step hd hnext
  have hown := hd.owns blk (List.mem_append_right _ List.mem_cons_self)
  have hstale (k : String) (hk : k ∈ blk.layout.ids) : mid.x.get? k = it.x.get? k :=
    hswept.untouched k fun c hc hk' => hcross c hc blk List.mem_cons_self k hk' hk
  have hkept (k : String) (hk : k ∈ blk.layout.ids) : it'.x.get? k = next.x.get? k :=
    get?_of_foldlM_stepBlock h fun c hc => (List.pairwise_cons.1 hcons).1 c hc k hk
  -- what comes after the turn changes none of the variables of the blocks that are through
  have hlater : imageSum through it'.x = imageSum through mid.x := by
    refine imageSum_congr fun c hc b hb => ?_
    have hk := hd.owns c (List.mem_append_left _ hc) b hb
    rw [get?_of_foldlM_stepBlock h fun c' hc' =>
      hcross c hc c' (List.mem_cons_of_mem blk hc') b.col hk, hget, if_neg]
    exact hcross c hc blk List.mem_cons_self b.col hk
  refine ⟨mid, w, y, ?_, hy, fun k hk => ⟨hstale k hk, ?_⟩, ⟨⟨ax, ?_⟩, ax', ?_⟩, fun r i => ?_⟩
  · exact bind_eq_ok.2 ⟨u, hu, bind_eq_ok.2 ⟨mid, hmid, bind_eq_ok.2 ⟨ax, hax,
      bind_eq_ok.2 ⟨w, hw, rfl⟩⟩⟩⟩
  · rw [hkept k hk, hget, if_pos hk]
  · rw [← hax]
    exact BlockMatrix.apply_congr fun b hb => (hstale b.col (hown b hb)).symm
  · rw [← hax']
    exact BlockMatrix.apply_congr fun b hb => hkept b.col (hown b hb)
  · rw [hleft, hlater]

theorem coord_u_sweep {s : System R} {it it' : Iterate R} (hd : Divided s.blocks)
    (h : (s.sweep it).outcome = .ok it') (r : String) (i : Nat) :
    it'.u.coord r i = it.u.coord r i - (s.b.coord r i + imageSum s.blocks it'.x r i) := by
  rw [(swept_sweep hd h).left]
  show _ - _ - _ - 0 = _
  ring

theorem coord_u_start (s : System R) (r : String) (i : Nat) : s.start.u.coord r i = 0 :=
  BlockVector.coord_empty r i

/-- A sweep is a step of the Gauss-Seidel scheme on `b + Σ A_j x_j = 0`: each block is given what all
    the others leave of the sum, those before it at their new values and those behind it at their old
    ones, and its own variables at their old values; its new values are those that its step gives.  What
    is of no block keeps its value.  The sum itself changes by what the new iterate leaves; and after a run
    of sweeps it is what all the iterates left, with the opposite sign. -/
theorem sweep_refines_gaussSeidel (s : System R) (hd : Divided s.blocks) :
    (∀ it it', (s.sweep it).outcome = .ok it' →
      (∀ through blk rest, s.blocks = through ++ blk :: rest →
        ∃ mid w y, s.turn it through blk = .ok (mid, w) ∧ (blk.step w mid.x).outcome = .ok y ∧
          (∀ k ∈ blk.layout.ids, mid.x.get? k = it.x.get? k ∧ it'.x.get? k = y.get? k) ∧
          ((∃ ax, blk.a.apply it.x = .ok ax) ∧ ∃ ax, blk.a.apply it'.x = .ok ax) ∧
          ∀ r i, w.coord r i = it.u.coord r i - s.b.coord r i - imageSum through it'.x r i
            - imageSum rest it.x r i) ∧
      (∀ k, (∀ blk ∈ s.blocks, k ∉ blk.layout.ids) → it'.x.get? k = it.x.get? k) ∧
      it'.previous = it.x ∧
      ∀ r i, it'.u.coord r i = it.u.coord r i - (s.b.coord r i + imageSum s.blocks it'.x r i)) ∧
    ∀ (its : Nat → Iterate R) (k : Nat), its 0 = s.start →
      (∀ t, t < k → (s.sweep (its t)).outcome = .ok (its (t + 1))) →
      ∀ r i, (its k).u.coord r i
        = -∑ t ∈ Finset.range k, (s.b.coord r i + imageSum s.blocks (its (t + 1)).x r i) := by
  constructor
  · intro it it' h
    have hswept := swept_sweep hd h
    exact ⟨fun through blk rest hs => exists_turn hd h hs, hswept.untouched, hswept.previous,
      coord_u_sweep hd h⟩
  · intro its k h0 hrun r i
    -- by induction on the number of sweeps, each of which takes away what its iterate leaves
    induction k with
    | zero => rw [h0, coord_u_start, Finset.sum_range_zero, neg_zero]
    | succ k ih =>
      rw [coord_u_sweep hd (hrun k (Nat.lt_succ_self k)), ih fun t ht => hrun t (Nat.lt_succ_of_lt ht),
        Finset.sum_range_succ]
      ring

/-- `plain k`: a block of one scalar variable with the coefficient one in the row `r`. -/
def plain (k : String) : TermBlock ℚ where
  index := 0
  layout := ⟨Keyed.ofList [(k, 1)]⟩
  a := ⟨Keyed.ofList [("r", Keyed.ofList [(k, .ofScalar 1 1)])], Keyed.ofList [("r", 1)],
    Keyed.ofList [(k, 1)]⟩
  back := ⟨Keyed.ofList [(k, Keyed.ofList [("r", .ofScalar 1 1)])], Keyed.ofList [(k, 1)],
    Keyed.ofList [("r", 1)]⟩
  coupling := .scalar 1
  rho := 1
  operator := .zero

/-- `pair`: the constraint `1 + x + y = 0` on two variables with blocks of their own. -/
def pair : System ℚ :=
  ⟨Settings.default, [plain "x", plain "y"], ⟨Keyed.ofList [("r", #[1])]⟩, 2⟩

/-- The first block of the pair takes the constant part up, and the second has nothing left to do. -/
theorem sweep_refines_gaussSeidel_pair :
    Divided pair.blocks ∧ ∃ it, (pair.sweep pair.start).outcome = .ok it ∧
      it.x.get? "x" = some #[-1] ∧ it.x.get? "y" = some #[0] ∧
      (∃ mid w y, pair.turn pair.start [plain "x"] (plain "y") = .ok (mid, w) ∧
        ((plain "y").step w mid.x).outcome = .ok y ∧ it.x.get? "y" = y.get? "y" ∧
        ∀ r i, w.coord r i = pair.start.u.coord r i - pair.b.coord r i - imageSum [plain "x"] it.x r i
          - imageSum [] pair.start.x r i) ∧
      ∀ r i, it.u.coord r i
        = -∑ _ ∈ Finset.range 1, (pair.b.coord r i + imageSum pair.blocks it.x r i) := by
  have hd : Divided pair.blocks := ⟨by decide +kernel, by decide +kernel⟩
  obtain ⟨it, hit, hvalues⟩ := exists_eq_ok_and (x := (pair.sweep pair.start).outcome)
    (p := fun it => it.x.get? "x" == some #[-1] && it.x.get? "y" == some #[0]) (by decide +kernel)
  obtain ⟨hx, hy⟩ := Bool.and_eq_true_iff.1 hvalues
  obtain ⟨hsweep, hrun⟩ := sweep_refines_gaussSeidel pair hd
  obtain ⟨mid, w, y, hturn, hstep, hown, -, hw⟩ := (hsweep _ it hit).1 [plain "x"] (plain "y") [] rfl
  refine ⟨hd, it, hit, eq_of_beq hx, eq_of_beq hy, ⟨mid, w, y, hturn, hstep, (hown "y" (by decide)).2, hw⟩, ?_⟩
  exact hrun (fun t => if t = 0 then pair.start else it) 1 rfl
    fun t ht => by rw [Nat.lt_one_iff.1 ht]; exact hit

end System

end BlockAdmm
