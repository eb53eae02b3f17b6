/-
  Block matrices at hand.

  Block matrices are made as maps are, one after the other: from the empty matrix, by putting in a map at
  hand, and by the operations on the matrices at hand (`BlockMatrix.Makes`).  A sum that ends in a fault
  leaves the matrix that it had reached, and that counts as well.  The maps that go in are made on the same
  workbench, what a matrix stores can get marks of its own, and a block can be taken out again (`Workbench`).

  Everything on a workbench stands for coefficients under marks that are in use (`Workbench.exists_marks`).
  As for maps alone, one operation keeps this (`BlockMatrix.Makes.exists_stands`), and so do all.
-/
import BlockAdmm.Proofs.Block.Gram
import BlockAdmm.Proofs.LinearMap.Adjoint

namespace BlockAdmm

open Scalar ExactScalar

variable {R : Type} [ExactScalar R] {e : Lore R} {r c : String} {l l' : LinearMap R}

namespace BlockMatrix

variable {a b : BlockMatrix R} {K L : Coefs R}

/-! ## Single blocks -/

omit [ExactScalar R] in
/-- `a.replace r c l`: the matrix with the map `l` as its block at a place. -/
def replace (a : BlockMatrix R) (r c : String) (l : LinearMap R) : BlockMatrix R :=
  { a with blocks := place a.blocks ⟨r, c, l⟩ }

omit [ExactScalar R] in
theorem get?_replace (a : BlockMatrix R) (r c : String) (l : LinearMap R) (r' c' : String) :
    (a.replace r c l).get? r' c' = if r = r' ∧ c = c' then some l else a.get? r' c' :=
  lookup_place a.blocks ⟨r, c, l⟩ r' c'

/-- A block can be replaced by another that stands for the same. -/
theorem Stands.replace (h : a.Stands e K) (hl : a.get? r c = some l) (hl' : l'.Stands e l.m l.n (K r c)) :
    (a.replace r c l').Stands e K := by
  have hget {r' c' : String} {l₂ : LinearMap R} (hl₂ : (a.replace r c l').get? r' c' = some l₂) :
      ∃ l₁, a.get? r' c' = some l₁ ∧ l₂.Stands e l₁.m l₁.n (K r' c') := by
    rw [get?_replace] at hl₂
    split at hl₂
    · rename_i hplace
      obtain ⟨rfl, rfl⟩ := hplace
      exact ⟨l, hl, Option.some.inj hl₂ ▸ hl'⟩
    · exact ⟨l₂, hl₂, (h.bears hl₂).stands⟩
  refine ⟨fun {r' c' l₂} hl₂ => ?_, fun {r' c' i j} hK => ?_, fun {r' c' l₂} hl₂ => ?_,
    fun {r' c' l₂} hl₂ => ?_⟩
  · obtain ⟨l₁, -, hstands⟩ := hget hl₂
    exact hstands.bears
  · obtain ⟨l₁, hl₁, hi, hj⟩ := h.support hK
    rw [get?_replace]
    split
    · rename_i hplace
      obtain ⟨rfl, rfl⟩ := hplace
      cases hl.symm.trans hl₁
      exact ⟨l', rfl, hl'.rows ▸ hi, hl'.cols ▸ hj⟩
    · exact ⟨l₁, hl₁, hi, hj⟩
  · obtain ⟨l₁, hl₁, hstands⟩ := hget hl₂
    rw [hstands.rows]
    exact h.rows hl₁
  · obtain ⟨l₁, hl₁, hstands⟩ := hget hl₂
    rw [hstands.cols]
    exact h.cols hl₁

/-- What a sum reaches stands for something, whether it goes through or not. -/
theorem Stands.exists_addReached [e.Complete] (ha : a.Stands e K) (hb : b.Stands e L) :
    ∃ M, (a.addReached b).1.Stands e M := by
  have hwalk (bs : List (Block R)) (hbs : ∀ blk ∈ bs, ∃ k, blk.map.Bears e k) :
      ∀ {a : BlockMatrix R} {K : Coefs R}, a.Stands e K → ∃ M, (advance insertBlock a bs).1.Stands e M := by
    induction bs with
    | nil => exact fun ha => ⟨_, ha⟩
    | cons blk bs ih =>
      intro a K ha
      obtain ⟨⟨k, hk⟩, hbs⟩ := List.forall_mem_cons.1 hbs
      rw [advance]
      cases hstep : insertBlock a blk with
      | ok a' => exact ih hbs (ha.insertOrAdd hk hstep)
      | error f => exact ⟨K, ha⟩
  exact hwalk b.toList (fun blk hblk => ⟨_, hb.bears_of_mem hblk⟩) ha

/-! ## Matrices at hand -/

/-- The matrices that can be made next from the maps and the matrices at hand. -/
inductive Makes (maps : List (LinearMap R)) (mats : List (BlockMatrix R)) : BlockMatrix R → Prop
  | empty : Makes maps mats empty
  | insertOrAdd {a b : BlockMatrix R} {l : LinearMap R} {row col : String} (ha : a ∈ mats) (hl : l ∈ maps)
    (h : a.insertOrAdd row col l = .ok b) : Makes maps mats b
  | add {a b : BlockMatrix R} (ha : a ∈ mats) (hb : b ∈ mats) : Makes maps mats (a.addReached b).1
  | transpose {a t : BlockMatrix R} (ha : a ∈ mats) (h : a.transpose = .ok t) : Makes maps mats t
  | restrictCols {a : BlockMatrix R} (cols : List String) (ha : a ∈ mats) : Makes maps mats (a.restrictCols cols)
  | gram {a g : BlockMatrix R} (ha : a ∈ mats) (h : a.gram = .ok g) : Makes maps mats g

variable {maps : List (LinearMap R)} {mats : List (BlockMatrix R)}

/-- What is made from what stands for coefficients stands for coefficients. -/
theorem Makes.exists_stands [e.Complete] (h : Makes maps mats a) (hmaps : ∀ l ∈ maps, ∃ k, l.Bears e k)
    (hmats : ∀ a ∈ mats, ∃ K, a.Stands e K) : ∃ K, a.Stands e K := by
  cases h with
  | empty => exact ⟨0, stands_empty e⟩
  | insertOrAdd ha hl h =>
    obtain ⟨K, hK⟩ := hmats _ ha
    obtain ⟨k, hk⟩ := hmaps _ hl
    exact ⟨_, hK.insertOrAdd hk h⟩
  | add ha hb =>
    obtain ⟨K, hK⟩ := hmats _ ha
    obtain ⟨L, hL⟩ := hmats _ hb
    exact hK.exists_addReached hL
  | transpose ha h =>
    obtain ⟨K, hK⟩ := hmats _ ha
    exact ⟨_, hK.transpose Lore.Complete.transposes (fun _ _ => allows_of_limits _) h⟩
  | restrictCols cols ha =>
    obtain ⟨K, hK⟩ := hmats _ ha
    exact ⟨_, hK.restrictCols cols⟩
  | gram ha h =>
    obtain ⟨K, hK⟩ := hmats _ ha
    exact ⟨_, hK.gram h⟩

end BlockMatrix

/-- The maps and the matrices at hand and the next mark.  Maps are kept with marks on all that they store,
    and the blocks of a matrix can be given such marks and be taken out. -/
inductive Workbench (given : List (Array R → Outcome (Array R))) :
    List (LinearMap R) → List (BlockMatrix R) → Nat → Prop
  | start : Workbench given [] [] given.length
  | keepMap {maps : List (LinearMap R)} {mats : List (BlockMatrix R)} {next : Nat} {l : LinearMap R}
    (h : Workbench given maps mats next) (hl : LinearMap.Makes given maps l) :
    Workbench given ((l.share next).1 :: maps) mats (l.share next).2
  | keepMatrix {maps : List (LinearMap R)} {mats : List (BlockMatrix R)} {next : Nat} {a : BlockMatrix R}
    (h : Workbench given maps mats next) (ha : BlockMatrix.Makes maps mats a) :
    Workbench given maps (a :: mats) next
  | markBlock {maps : List (LinearMap R)} {mats : List (BlockMatrix R)} {next : Nat} {a : BlockMatrix R}
    {r c : String} {l : LinearMap R} (h : Workbench given maps mats next) (ha : a ∈ mats)
    (hl : a.get? r c = some l) :
    Workbench given maps (a.replace r c (l.share next).1 :: mats) (l.share next).2
  | takeBlock {maps : List (LinearMap R)} {mats : List (BlockMatrix R)} {next : Nat} {a : BlockMatrix R}
    {r c : String} {l : LinearMap R} (h : Workbench given maps mats next) (ha : a ∈ mats)
    (hl : a.get? r c = some l) : Workbench given (l :: maps) mats next

namespace Workbench

open BlockAdmm.LinearMap

variable {given : List (Array R → Outcome (Array R))} {maps : List (LinearMap R)}
  {mats : List (BlockMatrix R)} {next : Nat}

/-- Where a breach is allowed, what is known of given functions and of marks is enough. -/
instance (w : Marks R) : (Lore.atHand False w given).Complete where
  breach := ⟨rfl, id⟩
  unique := w.unique_above (Lore.unique_ofGiven False given) given.length
  transposes := trivial

/-- `Holds w given maps mats`: the maps and the matrices stand for coefficients under the marks `w`. -/
structure Holds (w : Marks R) (given : List (Array R → Outcome (Array R))) (maps : List (LinearMap R))
    (mats : List (BlockMatrix R)) : Prop where
  maps : ∀ l ∈ maps, ∃ k, l.Bears (Lore.atHand False w given) k
  mats : ∀ a ∈ mats, ∃ K, a.Stands (Lore.atHand False w given) K

/-- More marks change nothing. -/
theorem Holds.mono {v w : Marks R} (h : Holds w given maps mats) (hv : v.Extends w) :
    Holds v given maps mats where
  maps l hl := (h.maps l hl).imp fun _ hk => hk.mono hv.within
  mats a ha := (h.mats a ha).imp fun _ hK => hK.mono hv.within

/-- Everything on a workbench stands for coefficients, under marks that are in use. -/
theorem exists_marks (h : Workbench given maps mats next) :
    ∃ w : Marks R, w.next = next ∧ given.length ≤ next ∧ Holds w given maps mats := by
  induction h with
  | start =>
    exact ⟨⟨given.length, fun _ _ _ => 0⟩, rfl, Nat.le_refl _, fun _ h => absurd h List.not_mem_nil,
      fun _ h => absurd h List.not_mem_nil⟩
  | keepMap _ hl ih =>
    obtain ⟨w, rfl, hle, hholds⟩ := ih
    obtain ⟨k, hk⟩ := hl.exists_bears hholds.maps fun _ _ => allows_unless False.elim
    obtain ⟨v, hv, hnext, hshared⟩ := hk.stands.share hle trivial
    have hholds := hholds.mono hv
    exact ⟨v, hnext, hnext ▸ Nat.le_trans hle hv.le,
      List.forall_mem_cons.2 ⟨⟨k, hshared.bears⟩, hholds.maps⟩, hholds.mats⟩
  | keepMatrix _ ha ih =>
    obtain ⟨w, hw, hle, hholds⟩ := ih
    have hnew := ha.exists_stands hholds.maps hholds.mats
    exact ⟨w, hw, hle, hholds.maps, List.forall_mem_cons.2 ⟨hnew, hholds.mats⟩⟩
  | markBlock _ ha hl ih =>
    obtain ⟨w, rfl, hle, hholds⟩ := ih
    obtain ⟨K, hK⟩ := hholds.mats _ ha
    obtain ⟨v, hv, hnext, hshared⟩ := (hK.bears hl).stands.share hle trivial
    have hholds := hholds.mono hv
    exact ⟨v, hnext, hnext ▸ Nat.le_trans hle hv.le, hholds.maps,
      List.forall_mem_cons.2 ⟨⟨K, (hK.mono hv.within).replace hl hshared⟩, hholds.mats⟩⟩
  | takeBlock _ ha hl ih =>
    obtain ⟨w, hw, hle, hholds⟩ := ih
    obtain ⟨K, hK⟩ := hholds.mats _ ha
    exact ⟨w, hw, hle, List.forall_mem_cons.2 ⟨⟨_, hK.bears hl⟩, hholds.maps⟩, hholds.mats⟩

end Workbench

end BlockAdmm
