/-
  The sizes of block vectors and block matrices.

  Names bring together what was made apart, so here sizes are compared and a difference is reported as an
  error.  What is promised is what lies behind these comparisons: two maps at one place have one size,
  the blocks of a row have as many rows as each other, and the vectors of an inner product are of one
  length.  The invariant is that the sizes kept by name are those of the blocks, which may be of any kind that
  the operations on maps keep to (`BlockMatrix.Framed`, and `BlockMatrix.Sized` for plain maps); every operation
  keeps it, and a product with any block vector has the sizes of the rows.  The columns have one size each, so
  nothing is ever refused where a Gram matrix is formed (`BlockMatrix.Framed.ends_gram`).  Where there is room for
  the blocks, the operations end in no fault but those of the functions in them (`BlockMatrix.Stands.ready`).  Nor
  does any operation give a size to a name without a block (`BlockMatrix.Held`).
-/
import BlockAdmm.Proofs.Block.Gram
import BlockAdmm.Proofs.Safety.LinearMap

namespace BlockAdmm

open Scalar

variable {R : Type} [Scalar R] {E : Fault → Prop}

/-! ## Block vectors -/

namespace BlockVector

variable {x y : BlockVector R} {k : String} {v : Array R} {D : Keyed Nat}

/-- A block of another length is the only thing that can go wrong. -/
theorem ends_increase (alpha : R)
    (hE : (∀ n, x.sizeAt? k = some n → n = v.size) ∨ ∀ e, E (.failed e)) :
    Ends E (fun y => ∀ k', y.sizeAt? k' = if k = k' then some v.size else x.sizeAt? k')
      (x.increase k alpha v) := by
  rw [increase]
  cases hx : x.get? k with
  | none =>
    refine ends_ok fun k' => ?_
    rw [sizeAt?_insert, Vec.size_scale]
  | some w =>
    show Ends E _ (if (w.size != v.size) = true then fail _ else Except.ok _)
    split
    · rename_i hne
      rw [bne_iff_ne] at hne
      exact hE.resolve_left (fun h => hne (h _ (sizeAt?_eq_some_iff.2 ⟨w, hx, rfl⟩))) _
    · rename_i heq
      rw [bne_iff_ne, not_not] at heq
      refine ends_ok fun k' => ?_
      rw [sizeAt?_insert, Vec.size_axpy, heq]

/-- The lengths of a sum are those of its parts. -/
theorem ends_addScaled [Reports E] (x : BlockVector R) (alpha : R) (y : BlockVector R) :
    Ends E (fun z => ∀ k n, z.sizeAt? k = some n → x.sizeAt? k = some n ∨ y.sizeAt? k = some n)
      (x.addScaled alpha y) := by
  refine ends_foldlM _ (fun k n hn => Or.inl hn) fun kv hkv z hz => ?_
  refine (ends_increase alpha (Or.inr Reports.failed)).imp fun z' hz' k n hn => ?_
  rw [hz'] at hn
  split at hn
  · rename_i hk
    exact Or.inr (sizeAt?_eq_some_iff.2
      ⟨kv.2, Keyed.get?_eq_some_iff.2 (hk ▸ hkv), Option.some.inj hn⟩)
  · exact hz k n hn

omit [Scalar R] in
/-- `x.Within D`: every block has the size that is known under its name. -/
def Within (D : Keyed Nat) (x : BlockVector R) : Prop := ∀ k n, x.sizeAt? k = some n → D.get? k = some n

omit [Scalar R] in
theorem within_empty (D : Keyed Nat) : (empty : BlockVector R).Within D := nofun

omit [Scalar R] in
/-- `x.Meets D`: a block under a name that has a size is of that size. -/
def Meets (D : Keyed Nat) (x : BlockVector R) : Prop :=
  ∀ k m n, x.sizeAt? k = some m → D.get? k = some n → m = n

omit [Scalar R] in
instance (D : Keyed Nat) (x : BlockVector R) : Decidable (x.Meets D) :=
  decidable_of_iff (∀ kv ∈ x.blocks.entries, ∀ n ∈ D.get? kv.1, kv.2.size = n)
    ⟨fun h k m n hm hn => by
      obtain ⟨v, hv, rfl⟩ := sizeAt?_eq_some_iff.1 hm
      exact h (k, v) (Keyed.get?_eq_some_iff.1 hv) n hn,
    fun h kv hkv n hn => h kv.1 _ n (sizeAt?_eq_some_iff.2 ⟨kv.2, Keyed.get?_eq_some_iff.2 hkv, rfl⟩) hn⟩

omit [Scalar R] in
theorem Within.meets (hx : x.Within D) : x.Meets D := fun k m _ hm hn =>
  Option.some.inj ((hx k m hm).symm.trans hn)

omit [Scalar R] in
theorem Meets.of_extends {F : Keyed Nat} (hx : x.Meets D) (h : D.Extends F) : x.Meets F :=
  fun k m n hm hn => hx k m n hm (h k n hn)

omit [Scalar R] in
theorem Within.of_extends {F : Keyed Nat} (hx : x.Within F) (h : D.Extends F) : x.Within D :=
  fun k n hn => h k n (hx k n hn)

theorem Within.addScaled [Reports E] (hx : x.Within D) (hy : y.Within D) (alpha : R) :
    Ends E (fun z => z.Within D) (x.addScaled alpha y) :=
  (ends_addScaled x alpha y).imp fun _ hz k n hn => (hz k n hn).elim (hx k n) (hy k n)

/-- Vectors have an inner product if the sizes of one are met by the other. -/
theorem Within.innerSum (hx : x.Within D) (hy : y.Meets D) :
    Ends E (fun _ => True) (BlockMatrix.innerSum x y) := by
  refine ends_foldlM (fun _ => True) trivial fun kv hkv s _ => ?_
  cases hw : y.get? kv.1 with
  | none => exact ends_ok trivial
  | some w =>
    have hv := hx kv.1 kv.2.size (sizeAt?_eq_some_iff.2 ⟨kv.2, Keyed.get?_eq_some_iff.2 hkv, rfl⟩)
    have hsize := hy kv.1 w.size kv.2.size (sizeAt?_eq_some_iff.2 ⟨w, hw, rfl⟩) hv
    exact (Vec.ends_dot hsize.symm).bind fun _ _ => ends_ok trivial

end BlockVector

/-! ## Block matrices -/

namespace BlockMatrix

/-- `a.Framed P`: the blocks have `P`, and the sizes that are kept by name are those of the blocks. -/
structure Framed (P : LinearMap R → Prop) (a : BlockMatrix R) : Prop where
  holds : ∀ {r c l}, a.get? r c = some l → P l
  rows : ∀ {r c l}, a.get? r c = some l → a.rowDims.get? r = some l.m
  cols : ∀ {r c l}, a.get? r c = some l → a.colDims.get? c = some l.n

/-- `a.Sized`: no block has an opaque part, and the sizes that are kept by name are those of the
    blocks. -/
structure Sized (a : BlockMatrix R) : Prop where
  plain : ∀ {r c l}, a.get? r c = some l → l.Plain
  rows : ∀ {r c l}, a.get? r c = some l → a.rowDims.get? r = some l.m
  cols : ∀ {r c l}, a.get? r c = some l → a.colDims.get? c = some l.n

variable {P : LinearMap R → Prop} {a b t : BlockMatrix R} {x : BlockVector R} {row col : String}
  {l : LinearMap R}

omit [Scalar R] in
theorem Sized.framed (h : a.Sized) : a.Framed LinearMap.Plain := ⟨h.plain, h.rows, h.cols⟩

omit [Scalar R] in
theorem Framed.sized (h : a.Framed LinearMap.Plain) : a.Sized := ⟨h.holds, h.rows, h.cols⟩

omit [Scalar R] in
theorem framed_empty : (empty : BlockMatrix R).Framed P := ⟨nofun, nofun, nofun⟩

omit [Scalar R] in
theorem sized_empty : (empty : BlockMatrix R).Sized := framed_empty.sized

/-- A size that is known and differs is the only thing that can go wrong. -/
theorem ends_checkDim {known : Option Nat} {e : Nat → SolverError} {d : Nat}
    (hE : (∀ d', known = some d' → d' = d) ∨ ∀ e, E (.failed e)) :
    Ends E (fun _ => ∀ d', known = some d' → d' = d) (checkDim known e d) := by
  cases known with
  | none => exact ends_ok nofun
  | some d' =>
    show Ends E _ (if (d' != d) = true then fail _ else .ok ())
    split
    · rename_i hne
      exact hE.resolve_left (fun h => bne_iff_ne.1 hne (h d' rfl)) _
    · rename_i heq
      rw [bne_iff_ne, not_not] at heq
      exact ends_ok fun d'' hd => Option.some.inj hd ▸ heq

/-- A block that is added to is of the size of what is added: the sizes that are kept were compared. -/
theorem Framed.insertOrAdd (ha : a.Framed P) (hl : P l)
    (hadd : ∀ prev, a.get? row col = some prev → prev.size = l.size →
      Ends E (fun s => s.size = l.size ∧ P s) (prev.add l))
    (hrow : (∀ d, a.rowDims.get? row = some d → d = l.m) ∨ ∀ e, E (.failed e))
    (hcol : (∀ d, a.colDims.get? col = some d → d = l.n) ∨ ∀ e, E (.failed e)) :
    Ends E (fun b => b.Framed P ∧ b.rowDims = a.rowDims.insert row l.m ∧
      b.colDims = a.colDims.insert col l.n) (a.insertOrAdd row col l) := by
  refine (ends_checkDim hrow).bind fun _ hrow => (ends_checkDim hcol).bind fun _ hcol => ?_
  -- what there is when a block of the right size has come to the place
  have hplaced (s : LinearMap R) (hs : s.size = l.size ∧ P s) :
      Framed P ⟨place a.blocks ⟨row, col, s⟩, a.rowDims.insert row l.m, a.colDims.insert col l.n⟩ := by
    have hget (r c : String) : lookup (place a.blocks ⟨row, col, s⟩) r c
        = if row = r ∧ col = c then some s else a.get? r c := lookup_place a.blocks ⟨row, col, s⟩ r c
    obtain ⟨hm, hn⟩ : s.m = l.m ∧ s.n = l.n := Prod.mk.inj hs.1
    refine ⟨fun {r c l'} hl' => ?_, fun {r c l'} hl' => ?_, fun {r c l'} hl' => ?_⟩
    all_goals
      replace hl' : lookup (place a.blocks ⟨row, col, s⟩) r c = some l' := hl'
      rw [hget] at hl'
      split at hl'
    · exact Option.some.inj hl' ▸ hs.2
    · exact ha.holds hl'
    · rename_i hplace
      rw [Keyed.get?_insert, if_pos hplace.1, ← Option.some.inj hl', hm]
    · exact extends_insert hrow _ _ (ha.rows hl')
    · rename_i hplace
      rw [Keyed.get?_insert, if_pos hplace.2, ← Option.some.inj hl', hn]
    · exact extends_insert hcol _ _ (ha.cols hl')
  cases hprev : a.get? row col with
  | none => exact ends_ok ⟨hplaced l ⟨rfl, hl⟩, rfl, rfl⟩
  | some prev =>
    have hsize : prev.size = l.size := Prod.ext (hrow _ (ha.rows hprev)) (hcol _ (ha.cols hprev))
    exact (hadd prev hprev hsize).bind fun s hs => ends_ok ⟨hplaced s hs, rfl, rfl⟩

/-- What is added to a block of the same kind and size. -/
theorem Framed.ends_sum (hP : LinearMap.Adds E P) (ha : a.Framed P) (hl : P l) :
    ∀ prev, a.get? row col = some prev → prev.size = l.size →
      Ends E (fun s => s.size = l.size ∧ P s) (prev.add l) :=
  fun _ hprev hsize => hsize ▸ hP.add (ha.holds hprev) hl hsize.symm

theorem Framed.of_insertOrAdd (hP : LinearMap.Adds E P) (ha : a.Framed P) (hl : P l)
    (hb : a.insertOrAdd row col l = .ok b) : b.Framed P := by
  have hany := hP.mono (F := fun _ => True) fun _ _ => trivial
  exact ((ha.insertOrAdd hl (ha.ends_sum hany hl) (Or.inr fun _ => trivial) (Or.inr fun _ => trivial)).of_eq_ok hb).1

theorem Framed.add [Reports E] (hP : LinearMap.Closed E P) (ha : a.Framed P) (hb : b.Framed P) :
    Ends E (Framed P) (a.add b) :=
  ends_foldlM _ ha fun _ hblk _ hs => by
    have hl := hb.holds (mem_toList.1 hblk)
    exact (hs.insertOrAdd hl (hs.ends_sum hP.toAdds hl) (Or.inr Reports.failed)
      (Or.inr Reports.failed)).imp fun _ h => h.1

theorem Framed.transpose (hP : ∀ {l}, P l → Ends E (fun t => t.size = (l.n, l.m) ∧ P t) l.transpose)
    (ha : a.Framed P) :
    Ends E (fun t => t.Framed P ∧ t.rowDims = a.colDims ∧ t.colDims = a.rowDims) a.transpose := by
  have hends : Ends E (fun _ => True) a.transpose := by
    refine Ends.bind (P := fun _ => True) (ends_foldlM _ trivial fun blk hblk _ _ => ?_)
      fun _ _ => ends_ok trivial
    exact (hP (ha.holds (mem_toList.1 hblk))).bind fun _ _ => ends_ok trivial
  refine (hends.and_eq fun t ht => ?_).imp fun _ h => h.2
  obtain ⟨hrows, hcols, -⟩ := transpose_eq_ok ht
  -- each block of the transpose, with the block that it comes from
  have hback {r c : String} {l : LinearMap R} (hl : t.get? r c = some l) :
      ∃ k, a.get? c r = some k ∧ l.size = (k.n, k.m) ∧ P l := by
    obtain ⟨k, hk, hkt⟩ := (get?_transpose ht).1 hl
    exact ⟨k, hk, (hP (ha.holds hk)).of_eq_ok hkt⟩
  refine ⟨⟨fun hl => ?_, fun hl => ?_, fun hl => ?_⟩, hrows, hcols⟩
  all_goals obtain ⟨k, hk, hsize, hl⟩ := hback hl
  · exact hl
  · rw [hrows, ha.cols hk, LinearMap.m, hsize]
  · rw [hcols, ha.rows hk, LinearMap.n, hsize]

omit [Scalar R] in
theorem Framed.restrictCols (ha : a.Framed P) (cols : List String) : (a.restrictCols cols).Framed P := by
  have hkept {r c : String} {l : LinearMap R} (hl : (a.restrictCols cols).get? r c = some l) :
      c ∈ cols ∧ a.get? r c = some l := by
    rw [get?_restrictCols] at hl
    split at hl
    · rename_i hc
      exact ⟨hc, hl⟩
    · cases hl
  refine ⟨fun hl => ha.holds (hkept hl).2, fun hl => ?_, fun hl => ?_⟩
  · exact (get?_rowDims_restrictCols ha.rows cols _ _).2 ⟨_, _, (hkept hl).2, (hkept hl).1, rfl⟩
  · exact (get?_colDims_restrictCols ha.cols cols _ _).2 ⟨_, _, (hkept hl).2, (hkept hl).1, rfl⟩

/-- The products of the blocks of one row, added to what is there.  The sizes by name are those of the columns,
    so there is nothing that they could contradict. -/
theorem Framed.gramRow {g : BlockMatrix R} {r : Keyed (LinearMap R)} {D : Keyed Nat}
    (hP : LinearMap.Adds E P) (hpair : ∀ c₁ ∈ r.entries, Ends E (fun t => ∀ c₂ ∈ r.entries,
      Ends E (fun s => s.size = (c₁.2.n, c₂.2.n) ∧ P s) (t.mul c₂.2)) c₁.2.transpose)
    (hD : ∀ c ∈ r.entries, D.get? c.1 = some c.2.n)
    (hg : g.Framed P ∧ D.Extends g.rowDims ∧ D.Extends g.colDims) :
    Ends E (fun g => g.Framed P ∧ D.Extends g.rowDims ∧ D.Extends g.colDims) (gramRow g r) := by
  refine ends_foldlM _ hg fun c₁ hc₁ g hg => (hpair c₁ hc₁).bind fun t ht => ?_
  refine ends_foldlM _ hg fun c₂ hc₂ g hg => (ht c₂ hc₂).bind fun s hs => ?_
  obtain ⟨hg, hrows, hcols⟩ := hg
  obtain ⟨⟨hm, hn⟩, hs⟩ : (s.m = c₁.2.n ∧ s.n = c₂.2.n) ∧ P s := ⟨Prod.mk.inj hs.1, hs.2⟩
  have hrow : D.get? c₁.1 = some s.m := hm ▸ hD c₁ hc₁
  have hcol : D.get? c₂.1 = some s.n := hn ▸ hD c₂ hc₂
  refine (hg.insertOrAdd hs (hg.ends_sum hP hs)
    (Or.inl fun d hd => Option.some.inj ((hrows _ d hd).symm.trans hrow))
    (Or.inl fun d hd => Option.some.inj ((hcols _ d hd).symm.trans hcol))).imp fun g' hg' => ?_
  obtain ⟨hg', hrows', hcols'⟩ := hg'
  exact ⟨hg', hrows' ▸ hrows.insert hrow, hcols' ▸ hcols.insert hcol⟩

omit [Scalar R] in
theorem Framed.rows_eq {r c c' : String} {l' : LinearMap R} (ha : a.Framed P) (hl : a.get? r c = some l)
    (hl' : a.get? r c' = some l') : l.m = l'.m :=
  Option.some.inj ((ha.rows hl).symm.trans (ha.rows hl'))

/-- The Gram matrix ends as the products of two blocks of one row do, and the sums of such products, which can
    be of another kind than the blocks. -/
theorem Framed.ends_gram {Q : LinearMap R → Prop} (hQ : LinearMap.Adds E Q)
    (htranspose : ∀ {l}, P l → Ends E (fun t => t.size = (l.n, l.m) ∧ P t) l.transpose)
    (hmul : ∀ {r c c' l l' t}, a.get? r c = some l → a.get? r c' = some l' → l.transpose = .ok t → P t →
      t.n = l'.m → Ends E (fun s => s.size = (t.m, l'.n) ∧ Q s) (t.mul l')) (ha : a.Framed P) :
    Ends E (fun g => g.Framed Q ∧ a.colDims.Extends g.rowDims ∧ a.colDims.Extends g.colDims) a.gram := by
  refine ends_foldlM _ ⟨framed_empty, Keyed.extends_empty _, Keyed.extends_empty _⟩ fun row hrow g hg => ?_
  obtain ⟨⟨r, row⟩, hmem, rfl⟩ := List.mem_map.1 hrow
  have hget {c : String × LinearMap R} (hc : c ∈ row.entries) : a.get? r c.1 = some c.2 :=
    get?_eq_some_iff.2 ⟨row, hmem, hc⟩
  refine Framed.gramRow hQ (fun c₁ hc₁ => ?_) (fun c hc => ha.cols (hget hc)) hg
  refine ((htranspose (ha.holds (hget hc₁))).and_eq fun t ht => ht).imp fun t ht c₂ hc₂ => ?_
  obtain ⟨⟨hsize, hP⟩, ht⟩ := ht
  obtain ⟨hm, hn⟩ : t.m = c₁.2.n ∧ t.n = c₁.2.m := Prod.mk.inj hsize
  rw [← hm]
  exact hmul (hget hc₁) (hget hc₂) ht hP (hn.trans (ha.rows_eq (hget hc₁) (hget hc₂)))

theorem Framed.gram (hP : LinearMap.Closed E P) (ha : a.Framed P) : Ends E (Framed P) a.gram :=
  (ha.ends_gram hP.toAdds hP.transpose fun _ hl' _ ht hfit => hP.mul ht (ha.holds hl') hfit).imp fun _ hg => hg.1

/-- What one block adds to a product has the sizes that are known. -/
theorem ends_applyBlock {blk : Block R} {y : BlockVector R} {D : Keyed Nat}
    (happly : ∀ {v}, v.size = blk.map.n → Ends E (fun z => z.size = blk.map.m) (blk.map.apply v))
    (hrow : D.get? blk.row = some blk.map.m)
    (hx : (∀ n, x.sizeAt? blk.col = some n → n = blk.map.n) ∨ ∀ e, E (.failed e)) (hy : y.Within D) :
    Ends E (fun z => z.Within D) (applyBlock x y blk) := by
  rw [applyBlock]
  cases hv : x.get? blk.col with
  | none => exact ends_ok hy
  | some v =>
    dsimp only
    split
    · rename_i hne
      rw [bne_iff_ne] at hne
      exact hx.resolve_left (fun hfit => hne (hfit _ (BlockVector.sizeAt?_eq_some_iff.2 ⟨v, hv, rfl⟩))) _
    · rename_i hsize
      rw [bne_iff_ne, not_not] at hsize
      refine (happly hsize).bind fun z hz => ?_
      -- what is there under the name has the number of rows of the block
      have hlength (n : Nat) (hn : y.sizeAt? blk.row = some n) : n = z.size :=
        (Option.some.inj ((hy _ n hn).symm.trans hrow)).trans hz.symm
      refine (BlockVector.ends_increase 1 (Or.inl hlength)).imp fun y' hy' r n hn => ?_
      rw [hy'] at hn
      split at hn
      · rename_i hr
        rw [← hr, hrow, ← hz, Option.some.inj hn]
      · exact hy r n hn

/-- A product with a block vector has the sizes of the rows; a block that does not fit is reported. -/
theorem Framed.apply (hP : ∀ {l v}, P l → v.size = l.n → Ends E (fun y => y.size = l.m) (l.apply v))
    (ha : a.Framed P) (hx : x.Meets a.colDims ∨ ∀ e, E (.failed e)) :
    Ends E (fun y => y.Within a.rowDims) (a.apply x) :=
  ends_foldlM _ (BlockVector.within_empty _) fun _ hblk _ hy =>
    have hget := mem_toList.1 hblk
    ends_applyBlock (hP (ha.holds hget)) (ha.rows hget)
      (hx.imp_left fun hmeets n hn => hmeets _ n _ hn (ha.cols hget)) hy

/-! ## Maps that are ready -/

/-- A matrix that stands for coefficients can be used where there is room. -/
theorem Stands.ready {S : Type} [ExactScalar S] {e : Lore S} {a : BlockMatrix S} {K : Coefs S}
    (h : a.Stands e K) (he : e.transposes) (hroom : ∀ b ∈ a.toList, Allows e.faults b.map.extent) :
    a.Framed (LinearMap.Ready e.faults) :=
  ⟨fun {r c l} hl => ⟨(h.bears hl).sound he, hroom ⟨r, c, l⟩ (mem_toList.2 hl)⟩, h.rows, h.cols⟩

omit [Scalar R] in
theorem Framed.ready [Limits E] (ha : a.Framed LinearMap.Plain) : a.Framed (LinearMap.Ready E) :=
  ⟨fun hl => ⟨(ha.holds hl).sound, allows_of_limits _⟩, ha.rows, ha.cols⟩

theorem Framed.apply_ready (ha : a.Framed (LinearMap.Ready E)) (hx : x.Meets a.colDims) :
    Ends E (fun y => y.Within a.rowDims) (a.apply x) := ha.apply LinearMap.Ready.apply (Or.inl hx)

/-- The Gram matrix needs room for the products of two blocks of one row, over the rows of the blocks. -/
theorem Framed.gram_ready (ha : a.Framed (LinearMap.Ready E))
    (hroom : ∀ {r c c' l l'}, a.get? r c = some l → a.get? r c' = some l' →
      Allows E (LinearMap.productRoom l.m l l')) :
    Ends E (fun g => g.Framed (LinearMap.Roomy E) ∧ a.colDims.Extends g.rowDims ∧ a.colDims.Extends g.colDims)
      a.gram := by
  refine ha.ends_gram LinearMap.adds_roomy LinearMap.Ready.transpose ?_
  intro r c c' l l' t hl hl' ht hready hfit
  have hrows : t.n = l.m := hfit.trans (ha.rows_eq hl hl').symm
  have hle : LinearMap.productRoom t.n t l' ≤ LinearMap.productRoom l.m l l' :=
    LinearMap.productRoom_mono (fun h => hrows ▸ h) (LinearMap.extent_transpose_le ht) (Nat.le_refl _)
  exact hready.mul (ha.holds hl') ((hroom hl hl').mono hle) hfit

/-! ## Names without blocks -/

/-- `a.Held`: only rows and columns that have a block have a size. -/
structure Held (a : BlockMatrix R) : Prop where
  row : ∀ {r m}, a.rowDims.get? r = some m → ∃ c l, a.get? r c = some l
  col : ∀ {c n}, a.colDims.get? c = some n → ∃ r l, a.get? r c = some l

omit [Scalar R] in
theorem held_empty : (empty : BlockMatrix R).Held := ⟨nofun, nofun⟩

/-- An insertion brings its block with the sizes, and the blocks that were there stay. -/
theorem Held.insertOrAdd (ha : a.Held) (hb : a.insertOrAdd row col l = .ok b) : b.Held := by
  obtain ⟨-, -, hrows, hcols, s, hget, -⟩ := insertOrAdd_eq_ok hb
  have hplace : b.get? row col = some s := by rw [hget, if_pos ⟨rfl, rfl⟩]
  have hkept {r c : String} {k : LinearMap R} (hk : a.get? r c = some k) : ∃ k', b.get? r c = some k' := by
    rw [hget]
    split
    · exact ⟨s, rfl⟩
    · exact ⟨k, hk⟩
  refine ⟨fun {r m} hr => ?_, fun {c n} hc => ?_⟩
  · rw [hrows, Keyed.get?_insert] at hr
    split at hr
    · rename_i heq
      exact heq ▸ ⟨col, s, hplace⟩
    · obtain ⟨c, k, hk⟩ := ha.row hr
      exact ⟨c, hkept hk⟩
  · rw [hcols, Keyed.get?_insert] at hc
    split at hc
    · rename_i heq
      exact heq ▸ ⟨row, s, hplace⟩
    · obtain ⟨r, k, hk⟩ := ha.col hc
      exact ⟨r, hkept hk⟩

theorem Held.add (ha : a.Held) (hs : a.add b = .ok t) : t.Held :=
  foldlM_invariant Held (fun _ _ _ _ hg hg' => hg.insertOrAdd hg') ha hs

theorem Held.transpose (ha : a.Held) (ht : a.transpose = .ok t) : t.Held := by
  obtain ⟨hrows, hcols, -⟩ := transpose_eq_ok ht
  have hkept {r c : String} {l : LinearMap R} (hl : a.get? r c = some l) : ∃ l', t.get? c r = some l' :=
    (exists_get?_transpose ht hl).imp fun _ hl' => hl'.2
  refine ⟨fun hc => ?_, fun hr => ?_⟩
  · obtain ⟨r, l, hl⟩ := ha.col (hrows ▸ hc)
    exact ⟨r, hkept hl⟩
  · obtain ⟨c, l, hl⟩ := ha.row (hcols ▸ hr)
    exact ⟨c, hkept hl⟩

theorem held_gram (hg : a.gram = .ok b) : b.Held := by
  refine foldlM_invariant Held (fun r _ g g' hg hrow => ?_) held_empty hg
  refine foldlM_invariant Held (fun c₁ _ g g' hg hcol => ?_) hg hrow
  obtain ⟨_, -, hcol⟩ := bind_eq_ok.1 hcol
  refine foldlM_invariant Held (fun c₂ _ g g' hg hpair => ?_) hg hcol
  obtain ⟨_, -, hpair⟩ := bind_eq_ok.1 hpair
  exact hg.insertOrAdd hpair

omit [Scalar R] in
theorem Framed.held_restrictCols (ha : a.Framed P) (cols : List String) : (a.restrictCols cols).Held := by
  refine ⟨fun hr => ?_, fun hc => ?_⟩
  · obtain ⟨c, l, hl, hmem, -⟩ := (get?_rowDims_restrictCols ha.rows cols _ _).1 hr
    exact ⟨c, l, by rw [get?_restrictCols, if_pos hmem, hl]⟩
  · obtain ⟨r, l, hl, hmem, -⟩ := (get?_colDims_restrictCols ha.cols cols _ _).1 hc
    exact ⟨r, l, by rw [get?_restrictCols, if_pos hmem, hl]⟩

/-! ## Plain matrices -/

theorem Sized.insertOrAdd [Limits E] (ha : a.Sized) (hl : l.Plain)
    (hrow : (∀ d, a.rowDims.get? row = some d → d = l.m) ∨ ∀ e, E (.failed e))
    (hcol : (∀ d, a.colDims.get? col = some d → d = l.n) ∨ ∀ e, E (.failed e)) :
    Ends E (fun b => b.Sized ∧ b.rowDims = a.rowDims.insert row l.m ∧
      b.colDims = a.colDims.insert col l.n) (a.insertOrAdd row col l) :=
  (ha.framed.insertOrAdd hl (ha.framed.ends_sum LinearMap.closed_plain.toAdds hl) hrow hcol).imp fun _ h =>
    ⟨h.1.sized, h.2⟩

theorem Sized.of_insertOrAdd (ha : a.Sized) (hl : l.Plain) (hb : a.insertOrAdd row col l = .ok b) : b.Sized :=
  ((ha.insertOrAdd (E := fun _ => True) hl (Or.inr fun _ => trivial) (Or.inr fun _ => trivial)).of_eq_ok hb).1

theorem Sized.add [Reports E] (ha : a.Sized) (hb : b.Sized) : Ends E Sized (a.add b) :=
  (ha.framed.add LinearMap.closed_plain hb.framed).imp fun _ h => h.sized

theorem Sized.transpose [Limits E] (ha : a.Sized) :
    Ends E (fun t => t.Sized ∧ t.rowDims = a.colDims ∧ t.colDims = a.rowDims) a.transpose :=
  (ha.framed.transpose LinearMap.closed_plain.transpose).imp fun _ h => ⟨h.1.sized, h.2⟩

theorem Sized.of_transpose (ha : a.Sized) (ht : a.transpose = .ok t) : t.Sized :=
  ((ha.transpose (E := fun _ => True)).of_eq_ok ht).1

omit [Scalar R] in
theorem Sized.restrictCols (ha : a.Sized) (cols : List String) : (a.restrictCols cols).Sized :=
  (ha.framed.restrictCols cols).sized

theorem Sized.gram [Limits E] (ha : a.Sized) : Ends E Sized a.gram :=
  (ha.framed.gram LinearMap.closed_plain).imp fun _ h => h.sized

theorem Sized.apply [Reports E] (ha : a.Sized) (x : BlockVector R) :
    Ends E (fun y => y.Within a.rowDims) (a.apply x) :=
  ha.framed.apply (fun hl hx => hl.sound.apply (allows_of_limits _) hx) (Or.inr Reports.failed)

theorem ends_commonScalar [Limits E] (bs : List (Block R)) (prev : Option R) :
    Ends E (fun _ => True) (commonScalar bs prev) := by
  induction bs generalizing prev with
  | nil => exact ends_ok trivial
  | cons b bs ih =>
    rw [commonScalar]
    split
    · exact ends_ok trivial
    · refine (LinearMap.ends_scalar? b.map).bind fun o _ => ?_
      split
      · exact ends_ok trivial
      · exact ih _
      · split
        · exact ih _
        · exact ends_ok trivial

/-! ## The estimate of the norm -/

/-- The power iteration ends as its products do, if they have the sizes that they should have. -/
theorem ends_powerSteps {back : BlockMatrix R} {C D : Keyed Nat}
    (hscaled : ∀ alpha (x : BlockVector R), x.Within C →
      Ends E (fun unit => unit.Within C) (BlockVector.empty.addScaled alpha x))
    (happly : ∀ x : BlockVector R, x.Within C → Ends E (fun y => y.Within D) (a.apply x))
    (hback : ∀ y : BlockVector R, y.Within D → Ends E (fun x => x.Within C) (back.apply y)) (k : Nat)
    (hx : x.Within C) (sigma2 : R) : Ends E (fun _ => True) (a.powerSteps back k x sigma2) := by
  induction k generalizing x sigma2 with
  | zero => exact ends_ok trivial
  | succ k ih =>
    rw [powerSteps]
    split
    · exact ends_ok trivial
    · refine (hscaled _ x hx).bind fun unit hunit => ?_
      refine (happly unit hunit).bind fun z hz => (hback z hz).bind fun y hy => ?_
      exact (hunit.innerSum hy.meets).bind fun _ _ => ih hy _

theorem within_startVector (a : BlockMatrix R) : a.startVector.Within a.colDims := by
  intro k n hn
  obtain ⟨v, hv, rfl⟩ := BlockVector.sizeAt?_eq_some_iff.1 hn
  obtain ⟨p, hp, heq⟩ := List.mem_map.1 ((Keyed.mem_of_get?_foldl_insert hv).resolve_right nofun)
  cases heq
  rw [Vec.size_build]
  exact Keyed.get?_eq_some_iff.2 ((List.mem_zipIdx' hp).2 ▸ List.getElem_mem _)

/-- The estimate ends as the products with the matrix and with its transpose do. -/
theorem Framed.normEstimate (ha : a.Framed (LinearMap.Ready E))
    (hscaled : ∀ alpha (x : BlockVector R), x.Within a.colDims →
      Ends E (fun unit => unit.Within a.colDims) (BlockVector.empty.addScaled alpha x))
    (hroom : ∀ n ∈ a.colDims.values, Allows E n) (iterations : Nat) :
    Ends E (fun _ => True) (a.normEstimate iterations) := by
  refine (ha.transpose LinearMap.Ready.transpose).bind fun back hback => ?_
  obtain ⟨hback, hrows, hcols⟩ := hback
  refine (ends_forM fun n hn => (hroom n hn).ends_room).bind fun _ _ => ?_
  refine (ends_powerSteps (D := a.rowDims) hscaled (fun x hx => ha.apply_ready hx.meets) (fun y hy => ?_)
    iterations a.within_startVector 0).bind fun _ _ => ends_ok trivial
  rw [← hrows]
  exact hback.apply_ready (hcols ▸ hy.meets)

theorem Sized.normEstimate [Reports E] (ha : a.Sized) (iterations : Nat) :
    Ends E (fun _ => True) (a.normEstimate iterations) :=
  ha.framed.ready.normEstimate (fun alpha _ hx => (BlockVector.within_empty _).addScaled hx alpha)
    (fun _ _ => allows_of_limits _) iterations

end BlockMatrix

end BlockAdmm
