/-
  Block matrices that are changed in place.

  An insertion writes the sizes of the row and the column before the block, and an addition inserts one block
  after the other, so a call that ends in a fault could leave something half done.  It does not: what is
  written before a sum is there already when there is something to be added to (`after_insertInPlace`), and
  an addition that is reported to fail has inserted the blocks in front of the first that does not fit
  (`accumulated_of_failed`).  Blocks of one matrix never contradict each other, so what does not fit is what
  contradicts the matrix as it was before (`conflicts_insertOrAdd_iff`).

  Hence all that is reached by calls, those that fail among them (`Reached`), has sizes for the rows and columns
  in which it has blocks, and for no others, and they are the sizes of the blocks (`reached_invariant`).
  The maps may be of any form as long as their functions keep to the lengths that they are declared with.  An
  insertion fails just if it contradicts a size; apart from that, a sum that is too large to be formed can
  stand in its way (`reached_crowded`).
-/
import BlockAdmm.Proofs.LinearMap.BothWays
import BlockAdmm.Proofs.LinearMap.Homomorphism
import BlockAdmm.Proofs.Safety.Block

namespace BlockAdmm

open Scalar

variable {R : Type}

namespace BlockMatrix

variable {α β : Type} {a b g t : BlockMatrix R} {row col : String} {l : LinearMap R}
  {E : Fault → Prop} {P : LinearMap R → Prop}

/-! ## Changes -/

theorem after_get : a.after (get : Change R (BlockMatrix R)) = (.ok a, a) := rfl

theorem after_modify (f : BlockMatrix R → BlockMatrix R) :
    a.after (modify f : Change R Unit) = (.ok (), f a) := rfl

theorem after_liftM (o : Outcome α) : a.after (liftM o : Change R α) = (o, a) := rfl

theorem after_bind (x : Change R α) (f : α → Change R β) : a.after (x >>= f) =
    match a.after x with
    | (.ok v, b) => b.after (f v)
    | (.error e, b) => (.error e, b) := by
  have h : a.after (x >>= f) = (match a.after x with | (o, b) => ExceptT.bindCont f o b) := rfl
  rw [h]
  rcases a.after x with ⟨o, b⟩
  cases o <;> rfl

/-- A row that is written in place of itself, or as an empty one, changes no block. -/
theorem get?_insert_row (a : BlockMatrix R) (row col : String) (rowDims colDims : Keyed Nat) :
    (⟨a.blocks.insert row (a.row row), rowDims, colDims⟩ : BlockMatrix R).get? row col = a.get? row col := by
  rw [get?, Keyed.get?_insert, if_pos rfl]
  exact get?_row a row col

theorem place_insert_row (a : BlockMatrix R) (row col : String) (s : LinearMap R) :
    place (a.blocks.insert row (a.row row)) ⟨row, col, s⟩ = place a.blocks ⟨row, col, s⟩ := by
  rw [place, Keyed.get?_insert, if_pos rfl, Keyed.insert_insert]
  rfl

theorem insert_row_of_get? (h : a.get? row col = some l) : a.blocks.insert row (a.row row) = a.blocks := by
  obtain ⟨r, hr, -⟩ := Option.bind_eq_some_iff.1 h
  refine Keyed.insert_of_get? ?_
  rw [BlockMatrix.row, hr]
  rfl

variable [Scalar R]

/-- An insertion in place is done, or it leaves the matrix as it was. -/
theorem after_insertInPlace (ha : a.Framed P) (row col : String) (l : LinearMap R) :
    a.after (insertInPlace row col l) =
      match a.insertOrAdd row col l with
      | .ok b => (.ok (), b)
      | .error f => (.error f, a) := by
  unfold insertInPlace insertOrAdd
  simp only [after_bind, after_get, after_modify, after_liftM]
  cases hrow : checkDim (a.rowDims.get? row) (fun d => .rowSize row d l.m) l.m with
  | error f => rfl
  | ok _ =>
    dsimp only
    cases hcol : checkDim (a.colDims.get? col) (fun d => .columnSize col d l.n) l.n with
    | error f => rfl
    | ok _ =>
      have hsame : (⟨a.blocks, a.rowDims.insert row l.m, a.colDims.insert col l.n⟩ : BlockMatrix R).row row
          = a.row row := rfl
      dsimp only
      rw [hsame, get?_insert_row]
      cases hprev : a.get? row col with
      | none => exact congrArg (fun bs => (Except.ok (), BlockMatrix.mk bs _ _)) (place_insert_row a row col l)
      | some prev =>
        dsimp only
        rw [after_bind, after_liftM]
        cases hsum : prev.add l with
        | ok s => exact congrArg (fun bs => (Except.ok (), BlockMatrix.mk bs _ _)) (place_insert_row a row col s)
        | error f =>
          -- the block that is there has written the same sizes
          have hm : a.rowDims.get? row = some l.m := by
            rw [ha.rows hprev, checkDim_eq_ok.1 hrow _ (ha.rows hprev)]
          have hn : a.colDims.get? col = some l.n := by
            rw [ha.cols hprev, checkDim_eq_ok.1 hcol _ (ha.cols hprev)]
          rw [Keyed.insert_of_get? hm, Keyed.insert_of_get? hn, insert_row_of_get? hprev]
          rfl

/-- An addition in place reaches what the sum of the blocks reaches. -/
theorem after_addInPlace (hP : LinearMap.Closed E P) (ha : a.Framed P) (hb : b.Framed P) :
    a.after (addInPlace b) = ((a.addReached b).2, (a.addReached b).1) := by
  have hwalk (bs : List (Block R)) (hbs : ∀ blk ∈ bs, P blk.map) : ∀ {a : BlockMatrix R}, a.Framed P →
      a.after (bs.forM fun blk => insertInPlace blk.row blk.col blk.map)
        = ((advance insertBlock a bs).2, (advance insertBlock a bs).1) := by
    induction bs with
    | nil => exact fun _ => rfl
    | cons blk bs ih =>
      intro a ha
      obtain ⟨hblk, hbs⟩ := List.forall_mem_cons.1 hbs
      rw [List.forM_eq_forM, List.forM_cons, after_bind, after_insertInPlace ha, advance, insertBlock]
      cases hg : a.insertOrAdd blk.row blk.col blk.map with
      | error f => rfl
      | ok g => exact ih hbs (ha.of_insertOrAdd hP.toAdds hblk hg)
  exact hwalk b.toList (fun blk hblk => hb.holds (mem_toList.1 hblk)) ha

/-! ## Conflicts -/

omit [Scalar R] in
/-- `Contradicts known n`: a size is known, and it is not `n`. -/
def Contradicts (known : Option Nat) (n : Nat) : Prop := ∃ d, known = some d ∧ d ≠ n

omit [Scalar R] in
/-- `a.Conflicts row col l`: the size of a map contradicts one that is known for the row or for the
    column. -/
def Conflicts (a : BlockMatrix R) (row col : String) (l : LinearMap R) : Prop :=
  Contradicts (a.rowDims.get? row) l.m ∨ Contradicts (a.colDims.get? col) l.n

omit [Scalar R] in
theorem not_contradicts_iff {known : Option Nat} {n : Nat} :
    ¬ Contradicts known n ↔ ∀ d, known = some d → d = n := by
  rw [Contradicts, not_exists]
  exact forall_congr' fun d => by rw [not_and, not_not]

omit [Scalar R] in
theorem not_conflicts_iff : ¬ a.Conflicts row col l ↔
    (∀ d, a.rowDims.get? row = some d → d = l.m) ∧ ∀ d, a.colDims.get? col = some d → d = l.n := by
  rw [Conflicts, not_or, not_contradicts_iff, not_contradicts_iff]

omit [Scalar R] in
theorem checkDim_of_contradicts {known : Option Nat} {e : Nat → SolverError} {n : Nat}
    (h : Contradicts known n) : ∃ d, checkDim known e n = .error (.failed (e d)) := by
  obtain ⟨d, rfl, hd⟩ := h
  refine ⟨d, ?_⟩
  show (if (d != n) = true then fail (e d) else .ok ()) = _
  rw [if_pos (bne_iff_ne.2 hd)]
  rfl

theorem insertOrAdd_of_conflicts (h : a.Conflicts row col l) :
    ∃ e, a.insertOrAdd row col l = .error (.failed e) := by
  unfold insertOrAdd
  by_cases hrow : Contradicts (a.rowDims.get? row) l.m
  · obtain ⟨d, hd⟩ := checkDim_of_contradicts (e := fun d => .rowSize row d l.m) hrow
    rw [hd]
    exact ⟨_, rfl⟩
  · obtain ⟨d, hd⟩ := checkDim_of_contradicts (e := fun d => .columnSize col d l.n) (h.resolve_left hrow)
    have hok : checkDim (a.rowDims.get? row) (fun d => .rowSize row d l.m) l.m = .ok () :=
      checkDim_eq_ok.2 (not_contradicts_iff.1 hrow)
    rw [hok, hd]
    exact ⟨_, rfl⟩

/-- What is refused contradicts a size. -/
theorem Framed.exists_failed_iff (ha : a.Framed (LinearMap.Sound Fault.IsBreach))
    (hl : l.Sound Fault.IsBreach) :
    (∃ e, a.insertOrAdd row col l = .error (.failed e)) ↔ a.Conflicts row col l := by
  refine ⟨?_, insertOrAdd_of_conflicts⟩
  rintro ⟨e, he⟩
  by_contra hno
  obtain ⟨hrow, hcol⟩ := not_conflicts_iff.1 hno
  have hbreach : Fault.IsBreach (.failed e) :=
    (ha.insertOrAdd hl (ha.ends_sum LinearMap.closed_sound.toAdds hl) (Or.inl hrow) (Or.inl hcol)).of_eq_error he
  cases hbreach

/-- Nothing but a size can stand in the way of what fits, and no size where the two maps of a sum are usable and
    spacious. -/
theorem Framed.insertOrAdd_eq_error (ha : a.Framed (LinearMap.Sound Fault.IsBreach))
    (hl : l.Sound Fault.IsBreach) {f : Fault} (hf : a.insertOrAdd row col l = .error f)
    (hno : ¬ a.Conflicts row col l) : f = .breach ∧
      ∃ prev, a.get? row col = some prev ∧
        ¬ (prev.UsableBothWays ∧ l.UsableBothWays ∧ prev.Spacious ∧ l.Spacious) := by
  obtain ⟨hrow, hcol⟩ := not_conflicts_iff.1 hno
  have hbreach : f = .breach :=
    (ha.insertOrAdd hl (ha.ends_sum LinearMap.closed_sound.toAdds hl) (Or.inl hrow) (Or.inl hcol)).of_eq_error hf
  refine ⟨hbreach, ?_⟩
  by_contra hnone
  have hsum : ∀ prev, a.get? row col = some prev → prev.size = l.size →
      Ends (fun _ => False) (fun s => s.size = l.size ∧ s.Sound Fault.IsBreach) (prev.add l) := by
    intro prev hprev hsize
    obtain ⟨huprev, hul, hsprev, hsl⟩ :
        prev.UsableBothWays ∧ l.UsableBothWays ∧ prev.Spacious ∧ l.Spacious := by
      by_contra hnot
      exact hnone ⟨prev, hprev, hnot⟩
    have hadd := (huprev.sound (ha.holds hprev)).add (fun _ => id) (hul.sound hl) (Or.inr huprev.usable.1)
      (Or.inr hul.usable.1) (Or.inr hsprev) (Or.inr hsl) hsize.symm
    exact hadd.imp fun s hs => ⟨hs.1.trans hsize, hs.2.mono fun _ hf => hf.elim⟩
  exact (ha.insertOrAdd hl hsum (Or.inl hrow) (Or.inl hcol)).of_eq_error hf

omit [Scalar R] in
/-- A size under a name makes no conflict for those that agree with it. -/
theorem contradicts_insert_iff {D : Keyed Nat} {k k' : String} {n n' : Nat}
    (hno : ¬ Contradicts (D.get? k) n) (hsame : k = k' → n = n') :
    Contradicts ((D.insert k n).get? k') n' ↔ Contradicts (D.get? k') n' := by
  rw [Keyed.get?_insert]
  split
  · rename_i hk
    obtain rfl := hk
    obtain rfl := hsame rfl
    refine iff_of_false (fun h => ?_) hno
    obtain ⟨d, hd, hne⟩ := h
    exact hne (Option.some.inj hd).symm
  · exact Iff.rfl

/-- A block that was inserted contradicts no other block of its matrix. -/
theorem conflicts_insertOrAdd_iff (hb : b.Framed P) {x y : Block R} (hx : x ∈ b.toList) (hy : y ∈ b.toList)
    (hg : a.insertOrAdd x.row x.col x.map = .ok g) :
    g.Conflicts y.row y.col y.map ↔ a.Conflicts y.row y.col y.map := by
  obtain ⟨hrow, hcol, hrows, hcols, -⟩ := insertOrAdd_eq_ok hg
  have hx := mem_toList.1 hx
  have hy := mem_toList.1 hy
  rw [Conflicts, Conflicts, hrows, hcols]
  refine or_congr (contradicts_insert_iff (not_contradicts_iff.2 hrow) fun heq => ?_)
    (contradicts_insert_iff (not_contradicts_iff.2 hcol) fun heq => ?_)
  · exact Option.some.inj ((hb.rows hx).symm.trans ((congrArg b.rowDims.get? heq).trans (hb.rows hy)))
  · exact Option.some.inj ((hb.cols hx).symm.trans ((congrArg b.colDims.get? heq).trans (hb.cols hy)))

/-! ## Sums that fail -/

/-- `Accumulated a p t`: each block with `p` was added to `a` at its place, and nothing else was changed. -/
structure Accumulated (a : BlockMatrix R) (p : Block R → Prop) (t : BlockMatrix R) : Prop where
  sum : ∀ x, p x → ∃ s, t.get? x.row x.col = some s ∧
    ((a.get? x.row x.col = none ∧ s = x.map) ∨
      ∃ prev, a.get? x.row x.col = some prev ∧ prev.add x.map = .ok s)
  rest : ∀ r c, (∀ x, p x → x.row = r → x.col ≠ c) → t.get? r c = a.get? r c

/-- Blocks at different places that were inserted one after another. -/
theorem accumulated_of_foldlM {bs : List (Block R)}
    (hpair : bs.Pairwise fun x y => x.row = y.row → x.col ≠ y.col)
    (h : bs.foldlM insertBlock a = .ok t) : Accumulated a (· ∈ bs) t := by
  induction bs generalizing a with
  | nil =>
    cases foldlM_nil_eq_ok.1 h
    exact ⟨fun _ hx => absurd hx List.not_mem_nil, fun _ _ _ => rfl⟩
  | cons x bs ih =>
    obtain ⟨hx, hpair⟩ := List.pairwise_cons.1 hpair
    obtain ⟨g, hg, h⟩ := foldlM_cons_eq_ok.1 h
    obtain ⟨-, -, -, -, s, hget, hs⟩ := insertOrAdd_eq_ok hg
    have hrest := ih hpair h
    refine ⟨List.forall_mem_cons.2 ⟨⟨s, ?_, hs⟩, fun y hy => ?_⟩, fun r c hr => ?_⟩
    · -- the later blocks leave the place alone
      rw [hrest.rest _ _ fun y hy hrow hcol => hx y hy hrow.symm hcol.symm, hget, if_pos ⟨rfl, rfl⟩]
    · obtain ⟨s', hs', hsum⟩ := hrest.sum y hy
      rw [hget, if_neg fun heq => hx y hy heq.1 heq.2] at hsum
      exact ⟨s', hs', hsum⟩
    · obtain ⟨hxr, hr⟩ := List.forall_mem_cons.1 hr
      rw [hrest.rest r c hr, hget, if_neg fun heq => hxr heq.1 heq.2]

/-- The first block that contradicts a size ends a sum that is reported to fail. -/
theorem Framed.exists_first_conflict (ha : a.Framed (LinearMap.Sound Fault.IsBreach))
    (hb : b.Framed (LinearMap.Sound Fault.IsBreach)) {e : SolverError}
    (h : (a.addReached b).2 = .error (.failed e)) :
    ∃ before blk rest, b.toList = before ++ blk :: rest ∧
      (∀ x ∈ before, ¬ a.Conflicts x.row x.col x.map) ∧ a.Conflicts blk.row blk.col blk.map ∧
      before.foldlM insertBlock a = .ok (a.addReached b).1 := by
  have hwalk (bs : List (Block R)) (hbs : ∀ x ∈ bs, x ∈ b.toList) : ∀ {a : BlockMatrix R},
      a.Framed (LinearMap.Sound Fault.IsBreach) → (advance insertBlock a bs).2 = .error (.failed e) →
      ∃ before blk rest, bs = before ++ blk :: rest ∧
        (∀ x ∈ before, ¬ a.Conflicts x.row x.col x.map) ∧ a.Conflicts blk.row blk.col blk.map ∧
        before.foldlM insertBlock a = .ok (advance insertBlock a bs).1 := by
    induction bs with
    | nil => exact fun _ h => nomatch h
    | cons x bs ih =>
      intro a ha h
      obtain ⟨hx, hbs⟩ := List.forall_mem_cons.1 hbs
      have hl := hb.holds (mem_toList.1 hx)
      rw [advance] at h ⊢
      cases hg : insertBlock a x with
      | error f =>
        rw [hg] at h
        cases h
        exact ⟨[], x, bs, rfl, fun _ hy => absurd hy List.not_mem_nil,
          (ha.exists_failed_iff hl).1 ⟨e, hg⟩, rfl⟩
      | ok g =>
        rw [hg] at h
        have hno : ¬ a.Conflicts x.row x.col x.map := fun hconflict => by
          obtain ⟨e', he'⟩ := insertOrAdd_of_conflicts hconflict
          cases hg.symm.trans he'
        have hga := ha.of_insertOrAdd LinearMap.closed_sound.toAdds hl hg
        obtain ⟨before, blk, rest, rfl, hbefore, hblk, hreach⟩ := ih hbs hga h
        -- what was inserted is of the same matrix
        have hback {y : Block R} (hy : y ∈ before ++ blk :: rest) :
            g.Conflicts y.row y.col y.map ↔ a.Conflicts y.row y.col y.map :=
          conflicts_insertOrAdd_iff hb hx (hbs y hy) hg
        refine ⟨x :: before, blk, rest, rfl, List.forall_mem_cons.2 ⟨hno, fun y hy => ?_⟩,
          (hback (List.mem_append_right _ List.mem_cons_self)).1 hblk,
          foldlM_cons_eq_ok.2 ⟨g, hg, hreach⟩⟩
        exact (hback (List.mem_append_left _ hy)).not.1 (hbefore y hy)
  exact hwalk b.toList (fun _ hx => hx) ha h

omit [Scalar R] in
/-- What stands in front of a block are the blocks that precede it. -/
theorem mem_before_iff {before rest : List (Block R)} {x blk : Block R}
    (h : b.toList = before ++ blk :: rest) : x ∈ before ↔ x ∈ b.toList ∧ x.Precedes blk := by
  have hsorted := b.sorted_toList
  rw [h] at hsorted ⊢
  obtain ⟨-, hrest, hbefore⟩ := List.pairwise_append.1 hsorted
  refine ⟨fun hx => ⟨List.mem_append_left _ hx, hbefore x hx blk List.mem_cons_self⟩, fun ⟨hx, hlt⟩ => ?_⟩
  rcases List.mem_append.1 hx with hx | hx
  · exact hx
  rcases List.mem_cons.1 hx with rfl | hx
  · exact absurd hlt hlt.not_precedes
  · exact absurd hlt ((List.pairwise_cons.1 hrest).1 x hx).not_precedes

/-- A sum that is reported to fail has added just what precedes the first conflict. -/
theorem Framed.accumulated_of_failed (ha : a.Framed (LinearMap.Sound Fault.IsBreach))
    (hb : b.Framed (LinearMap.Sound Fault.IsBreach)) {e : SolverError}
    (h : (a.addReached b).2 = .error (.failed e)) :
    ∃ blk ∈ b.toList, a.Conflicts blk.row blk.col blk.map ∧
      (∀ x ∈ b.toList, x.Precedes blk → ¬ a.Conflicts x.row x.col x.map) ∧
      Accumulated a (fun x => x ∈ b.toList ∧ x.Precedes blk) (a.addReached b).1 := by
  obtain ⟨before, blk, rest, hsplit, hbefore, hblk, hreach⟩ := ha.exists_first_conflict hb h
  have hmem (x : Block R) : x ∈ before ↔ x ∈ b.toList ∧ x.Precedes blk := mem_before_iff hsplit
  refine ⟨blk, hsplit ▸ List.mem_append_right _ List.mem_cons_self, hblk,
    fun x hx hlt => hbefore x ((hmem x).2 ⟨hx, hlt⟩), ?_⟩
  have hpair := b.pairwise_toList
  rw [hsplit] at hpair
  rw [← funext fun x => propext (hmem x)]
  exact accumulated_of_foldlM (List.pairwise_append.1 hpair).1 hreach

/-! ## What is reached -/

/-- `a.Reached`: calls lead from the empty matrix to `a`.  A call that changes a matrix may have ended in a
    fault, and the functions in the maps that are inserted keep to the lengths that they declare. -/
inductive Reached : BlockMatrix R → Prop
  | empty : Reached empty
  | insertOrAdd {a : BlockMatrix R} {l : LinearMap R} (row col : String) (ha : Reached a)
    (hl : l.Sound Fault.IsBreach) : Reached (a.after (insertInPlace row col l)).2
  | add {a b : BlockMatrix R} (ha : Reached a) (hb : Reached b) : Reached (a.after (addInPlace b)).2
  | transpose {a t : BlockMatrix R} (ha : Reached a) (ht : a.transpose = .ok t) : Reached t
  | restrictCols {a : BlockMatrix R} (cols : List String) (ha : Reached a) : Reached (a.restrictCols cols)
  | gram {a g : BlockMatrix R} (ha : Reached a) (hg : a.gram = .ok g) : Reached g

theorem Framed.insertInPlace (ha : a.Framed (LinearMap.Sound Fault.IsBreach)) (hl : l.Sound Fault.IsBreach) :
    (a.after (insertInPlace row col l)).2.Framed (LinearMap.Sound Fault.IsBreach) := by
  rw [after_insertInPlace ha]
  cases hb : a.insertOrAdd row col l with
  | ok b => exact ha.of_insertOrAdd LinearMap.closed_sound.toAdds hl hb
  | error f => exact ha

theorem Framed.addInPlace (ha : a.Framed (LinearMap.Sound Fault.IsBreach))
    (hb : b.Framed (LinearMap.Sound Fault.IsBreach)) :
    (a.after (addInPlace b)).2.Framed (LinearMap.Sound Fault.IsBreach) := by
  rw [after_addInPlace LinearMap.closed_sound ha hb]
  exact advance_invariant (Framed (LinearMap.Sound Fault.IsBreach)) (fun blk hblk _ _ hg hg' =>
    hg.of_insertOrAdd LinearMap.closed_sound.toAdds (hb.holds (mem_toList.1 hblk)) hg') ha

/-- Every step keeps the sizes under their names to those of the blocks. -/
theorem Reached.framed (h : a.Reached) : a.Framed (LinearMap.Sound Fault.IsBreach) := by
  induction h with
  | empty => exact framed_empty
  | insertOrAdd _ _ _ hl ih => exact ih.insertInPlace hl
  | add _ _ iha ihb => exact iha.addInPlace ihb
  | transpose _ ht ih => exact ((ih.transpose LinearMap.closed_sound.transpose).of_eq_ok ht).1
  | restrictCols cols _ ih => exact ih.restrictCols cols
  | gram _ hg ih =>
    exact (ih.gram (E := fun _ => True) (LinearMap.closed_sound.mono fun _ _ => trivial)).of_eq_ok hg

/-- Every step gives sizes to those names only that have blocks. -/
theorem Reached.held (h : a.Reached) : a.Held := by
  induction h with
  | empty => exact held_empty
  | @insertOrAdd a l row col ha _ ih =>
    rw [after_insertInPlace ha.framed]
    cases hb : a.insertOrAdd row col l with
    | ok b => exact ih.insertOrAdd hb
    | error f => exact ih
  | add ha hb iha _ =>
    rw [after_addInPlace LinearMap.closed_sound ha.framed hb.framed]
    exact advance_invariant Held (fun _ _ _ _ hg hg' => hg.insertOrAdd hg') iha
  | transpose _ ht ih => exact ih.transpose ht
  | restrictCols cols ha _ => exact ha.framed.held_restrictCols cols
  | gram _ hg _ => exact held_gram hg

/-- An insertion is refused for a size, or a sum cannot be formed; either way it has changed nothing. -/
theorem Framed.insertInPlace_fails (ha : a.Framed (LinearMap.Sound Fault.IsBreach)) (row col : String)
    (hl : l.Sound Fault.IsBreach) :
    ((∃ e, (a.after (BlockMatrix.insertInPlace row col l)).1 = .error (.failed e)) ↔ a.Conflicts row col l) ∧
      ∀ f, (a.after (BlockMatrix.insertInPlace row col l)).1 = .error f →
        (a.after (BlockMatrix.insertInPlace row col l)).2 = a ∧
          ((∃ e, f = .failed e) ∨ f = .breach ∧
            ∃ prev, a.get? row col = some prev ∧
              ¬ (prev.UsableBothWays ∧ l.UsableBothWays ∧ prev.Spacious ∧ l.Spacious)) := by
  rw [after_insertInPlace ha]
  by_cases hconflict : a.Conflicts row col l
  · obtain ⟨e, he⟩ := insertOrAdd_of_conflicts hconflict
    rw [he]
    refine ⟨iff_of_true ⟨e, rfl⟩ hconflict, ?_⟩
    rintro _ ⟨⟩
    exact ⟨rfl, Or.inl ⟨e, rfl⟩⟩
  cases hins : a.insertOrAdd row col l with
  | ok b => exact ⟨iff_of_false (fun ⟨e, he⟩ => nomatch he) hconflict, fun f hf => nomatch hf⟩
  | error f =>
    obtain ⟨rfl, hprev⟩ := ha.insertOrAdd_eq_error hl hins hconflict
    refine ⟨iff_of_false (fun ⟨e, he⟩ => nomatch he) hconflict, ?_⟩
    rintro _ ⟨⟩
    exact ⟨rfl, Or.inr ⟨rfl, hprev⟩⟩

/-- Calls that start from the empty matrix, those that fail among them, keep to the sizes of the blocks.

    The rows and columns that have blocks are those that have sizes, and the sizes are those of the blocks.  An
    insertion fails just if it contradicts a size; a fault leaves the matrix as it was, and if it is none that
    is reported, then the sum with the block at the place could not be formed, which cannot be if both maps can
    be used and are spacious.  A sum that is reported to fail has added the blocks that precede the first that
    contradicts a size. -/
theorem reached_invariant (ha : a.Reached) :
    (∀ row col l, a.get? row col = some l → a.rowDims.get? row = some l.m ∧ a.colDims.get? col = some l.n) ∧
      (∀ row, row ∈ a.rowDims.keys ↔ ∃ col l, a.get? row col = some l) ∧
      (∀ col, col ∈ a.colDims.keys ↔ ∃ row l, a.get? row col = some l) ∧
      (∀ row col l, l.Sound Fault.IsBreach →
        ((∃ e, (a.after (insertInPlace row col l)).1 = .error (.failed e)) ↔ a.Conflicts row col l) ∧
          ∀ f, (a.after (insertInPlace row col l)).1 = .error f →
            (a.after (insertInPlace row col l)).2 = a ∧
              ((∃ e, f = .failed e) ∨ f = .breach ∧
                ∃ prev, a.get? row col = some prev ∧
                  ¬ (prev.UsableBothWays ∧ l.UsableBothWays ∧ prev.Spacious ∧ l.Spacious))) ∧
      ∀ b : BlockMatrix R, b.Reached → ∀ e, (a.after (addInPlace b)).1 = .error (.failed e) →
        ∃ blk ∈ b.toList, a.Conflicts blk.row blk.col blk.map ∧
          (∀ x ∈ b.toList, x.Precedes blk → ¬ a.Conflicts x.row x.col x.map) ∧
          Accumulated a (fun x => x ∈ b.toList ∧ x.Precedes blk) (a.after (addInPlace b)).2 := by
  have hframed := ha.framed
  refine ⟨fun row col l hl => ⟨hframed.rows hl, hframed.cols hl⟩, fun row => ?_, fun col => ?_,
    fun row col l hl => ?_, fun b hb e he => ?_⟩
  · exact Keyed.mem_keys_iff.trans
      ⟨fun ⟨_, hm⟩ => ha.held.row hm, fun ⟨_, _, hl⟩ => ⟨_, hframed.rows hl⟩⟩
  · exact Keyed.mem_keys_iff.trans
      ⟨fun ⟨_, hn⟩ => ha.held.col hn, fun ⟨_, _, hl⟩ => ⟨_, hframed.cols hl⟩⟩
  · exact hframed.insertInPlace_fails row col hl
  · rw [after_addInPlace LinearMap.closed_sound hframed hb.framed] at he ⊢
    exact hframed.accumulated_of_failed hb.framed he

/-- `narrow`: blocks of two rows and of one row. -/
def narrow : BlockMatrix ℚ :=
  ((empty.after (insertInPlace "r" "x" (.ofScalar 2 3))).2.after (insertInPlace "s" "y" (.ofScalar 1 1))).2

/-- `wide`: a block that fits the first of `narrow`, one that does not fit the second, and one more. -/
def wide : BlockMatrix ℚ :=
  (((empty.after (insertInPlace "r" "x" (.ofScalar 2 4))).2.after
    (insertInPlace "s" "y" (.ofScalar 2 1))).2.after (insertInPlace "t" "z" (.ofScalar 1 1))).2

/-- The block in front of the one that does not fit has been added, and the one behind it has not. -/
theorem reached_invariant_narrow : narrow.Reached ∧ wide.Reached ∧
    (narrow.after (addInPlace wide)).1 = .error (.failed (.rowSize "s" 1 2)) ∧
    ∃ blk ∈ wide.toList, narrow.Conflicts blk.row blk.col blk.map ∧
      (∀ x ∈ wide.toList, x.Precedes blk → ¬ narrow.Conflicts x.row x.col x.map) ∧
      Accumulated narrow (fun x => x ∈ wide.toList ∧ x.Precedes blk) (narrow.after (addInPlace wide)).2 := by
  have hscalar (n : Nat) (alpha : ℚ) : (LinearMap.ofScalar n alpha).Sound Fault.IsBreach :=
    LinearMap.Plain.sound trivial
  have hnarrow : narrow.Reached := .insertOrAdd _ _ (.insertOrAdd _ _ .empty (hscalar 2 3)) (hscalar 1 1)
  have hwide : wide.Reached := .insertOrAdd _ _ (.insertOrAdd _ _ (.insertOrAdd _ _ .empty (hscalar 2 4))
    (hscalar 2 1)) (hscalar 1 1)
  have hfails : (narrow.after (addInPlace wide)).1 = .error (.failed (.rowSize "s" 1 2)) := by rfl
  exact ⟨hnarrow, hwide, hfails, (reached_invariant hnarrow).2.2.2.2 wide hwide _ hfails⟩

/-- `longRow`: a block of one row of zeros. -/
def longRow : BlockMatrix ℚ := (empty.after (insertInPlace "r" "x" LinearMap.longRows.1)).2

/-- A map that fits its row and its column, and the sum with the block that is there is a breach. -/
theorem reached_crowded : (LinearMap.longRows.1.Sound fun _ => False) ∧
    (LinearMap.longRows.2.Sound fun _ => False) ∧ longRow.Reached ∧
    ¬ longRow.Conflicts "r" "x" LinearMap.longRows.2 ∧
    (longRow.after (insertInPlace "r" "x" LinearMap.longRows.2)).1 = .error .breach := by
  have hsound (name : String) : (OpaqueMap.null 1 1152921504606846976 name : OpaqueMap ℚ).Sound fun _ => False :=
    ⟨fun _ _ => ends_ok (Vec.size_zero 1), nofun⟩
  have hfirst : LinearMap.longRows.1.Sound fun _ => False := LinearMap.sound_opaqueMap.2 (hsound "f")
  have hsecond : LinearMap.longRows.2.Sound fun _ => False :=
    LinearMap.sound_kronecker.2 ⟨LinearMap.Plain.sound trivial, LinearMap.sound_opaqueMap.2 (hsound "g")⟩
  refine ⟨hfirst, hsecond, .insertOrAdd _ _ .empty (hfirst.mono fun _ => False.elim),
    not_conflicts_iff.2 ⟨fun d hd => ?_, fun d hd => ?_⟩, eq_breach_of_breached (by decide +kernel)⟩
  · exact (Option.some.inj hd).symm
  · exact (Option.some.inj hd).symm

end BlockMatrix
end BlockAdmm
