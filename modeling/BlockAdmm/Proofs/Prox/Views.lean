/-
  The views of an argument.

  An argument is applied, its transpose is applied, it is written out as a dense matrix, and its form is looked
  at: whether it is diagonal, or one variable and nothing else.  Each of these places the maps of the variables
  in the flat vector in its own way, and all show one matrix (`views_share_matrix`).  A compiled argument has no
  functions in its maps, so the matrix is the same whatever is known (`Fits.exists_bears`), and nothing but the
  lack of room can keep a view from having a value (`views_wideTensor`).
-/
import BlockAdmm.Proofs.Prox.Products
import BlockAdmm.Proofs.Safety.Argument
import BlockAdmm.Proofs.LinearMap.BothWays
import BlockAdmm.Proofs.Variables

namespace BlockAdmm

open Scalar ExactScalar

variable {R : Type} [ExactScalar R]

namespace Argument

variable {a : Argument R} {layout : Layout} {g g' : Lore R} {H : Nat → Nat → R} {x : Array R} {k : String}

/-! ## The matrix of a compiled argument -/

omit [ExactScalar R] in
theorem Fits.matches (ha : a.Fits layout) : a.Matches layout :=
  ⟨ha.offset, fun kl hkl => (ha.maps kl hkl).imp fun _ hd => ⟨hd.1, hd.2.size⟩⟩

theorem Bears.mono (h : a.Bears g layout H) (hg : g.Within g') : a.Bears g' layout H :=
  ⟨fun kl hkl => (h.maps kl hkl).mono hg, h.zero⟩

/-- A compiled argument has a matrix, and no function could end in a breach. -/
theorem Fits.exists_bears (ha : a.Fits layout) : ∃ H, ∀ c, a.Bears (Lore.both c) layout H := by
  have hmaps : ∀ kl ∈ a.maps.entries, ∃ k, kl.2.Bears (Lore.both True) k := fun kl hkl => by
    obtain ⟨d, -, hmap⟩ := ha.maps kl hkl
    refine LinearMap.exists_bears fun f hf => ?_
    rw [hmap.plain.opaqueParts_eq_nil] at hf
    exact absurd hf List.not_mem_nil
  obtain ⟨H, hH⟩ := Argument.exists_bears ha.matches hmaps
  exact ⟨H, fun c => hH.mono (Lore.within_both fun _ => trivial)⟩

omit [ExactScalar R] in
/-- `a.Stored`: what is written out of each map can be stored. -/
def Stored (a : Argument R) : Prop := ∀ kl ∈ a.maps.entries, kl.2.extent ≤ capacity

/-! ## Plain variables -/

/-- A plain variable stands under no offset and under no factor. -/
theorem plainVariable?_eq_some (h : a.plainVariable? = .ok (some k)) :
    (∀ i, i < a.offset.size → Vec.entry a.offset i = 0) ∧
      ∃ l, a.maps.entries = [(k, l)] ∧ l.scalar? = .ok (some 1) := by
  rw [plainVariable?] at h
  split at h
  · cases h
  rename_i hoffset
  rw [Vec.any_iff] at hoffset
  refine ⟨fun i hi => ?_, ?_⟩
  · by_contra hne
    exact hoffset ⟨i, hi, bne_iff_ne.2 hne⟩
  split at h
  · rename_i k' l hentries
    obtain ⟨o, ho, h⟩ := bind_eq_ok.1 h
    obtain ⟨alpha, rfl, hk⟩ := Option.bind_eq_some_iff.1 (pure_eq_ok.1 h)
    split at hk
    · rename_i hone
      cases hk
      exact ⟨l, hentries, beq_iff_eq.1 hone ▸ ho⟩
    · cases hk
  · cases h

/-- The value of a plain variable is its block. -/
theorem Fits.ends_apply_of_plainVariable? (ha : a.Fits layout) (hk : a.plainVariable? = .ok (some k))
    (hx : x.size = layout.n) : Ends (Fault.Unless (a.dim ≤ capacity))
      (fun y => Vec.slice x (layout.offset k) a.dim = .ok y) (a.apply layout x) := by
  obtain ⟨hoffset, l, hentries, hscalar⟩ := plainVariable?_eq_some hk
  obtain ⟨d, hd, hmap⟩ := ha.maps (k, l) (hentries ▸ List.mem_cons_self)
  have hsquare : l.m = l.n := (LinearMap.ends_scalar? (E := fun _ => True) l).of_eq_ok hscalar rfl
  have hcols : l.n = a.dim := hsquare.symm.trans hmap.rows
  obtain rfl : a.dim = d := hcols.symm.trans hmap.cols
  have hspan : layout.offset k + a.dim ≤ x.size := hx ▸ Layout.offset_add_le hd
  rw [Argument.apply, hentries, List.foldlM_cons]
  refine Ends.bind ?_ fun y hy => ends_ok hy
  rw [addImage, Layout.get?_eq_some_of_size hd]
  refine ((Vec.ends_slice hspan).and_eq fun part hpart => hpart).bind fun part hpart => ?_
  obtain ⟨hsize, hpart⟩ := hpart
  have hscale := LinearMap.ends_apply_of_scalar? hscalar (hsize.trans hcols.symm)
  rw [hcols] at hscale
  refine hscale.bind fun v hv => ends_ok (hpart.trans (congrArg _ ?_))
  -- neither the offset nor the factor changes anything
  have hvsize : v.size = a.offset.size := by rw [hv, Vec.size_scale, hsize, ha.offset]
  refine Vec.ext_entry (by rw [Vec.size_increase, ha.offset, hsize]) fun i hi => ?_
  rw [Vec.entry_increase hvsize, hoffset i (by rw [ha.offset, ← hsize]; exact hi), hv, Vec.entry_scale, one_mul,
    zero_add]

/-! ## All views -/

open BlockAdmm.Compile in
/-- The views of a compiled argument show one matrix `H`, unless there is no room for what they write: it is the
    dense matrix, the argument gives `H x` with the offset, its transpose gives `Hᵀ y`, a diagonal that is shown
    is that of `H`, and a plain variable is its block. -/
theorem views_share_matrix {e : Expr R} (he : e.ConstantsSized) (hl : e.Declared layout.sizes) {p : Provider R}
    {s t : Session R} (h : (build e).runFrom p s = (.ok a, t)) :
    ∃ H : Nat → Nat → R,
      Ends (Fault.Unless (a.Stored ∧ a.dim * layout.n ≤ capacity))
        (fun d => d.size = (a.dim, layout.n) ∧ ∀ r j, r < a.dim → j < layout.n → d.entry r j = H r j)
        (a.dense layout) ∧
      (∀ x : Array R, x.size = layout.n → Ends (Fault.Unless a.Stored)
        (fun y => y.size = a.dim ∧ ∀ i, i < a.dim →
          Vec.entry y i = rowSum layout.n H (Vec.entry x) i + Vec.entry a.offset i) (a.apply layout x)) ∧
      (∀ y : Array R, y.size = a.dim → Ends (Fault.Unless (a.Stored ∧ layout.n ≤ capacity))
        (fun x => x.size = layout.n ∧ ∀ j, j < layout.n →
          Vec.entry x j = ∑ i ∈ Finset.range a.dim, H i j * Vec.entry y i) (a.transApply layout y)) ∧
      (∀ d, a.diagonal? layout = .ok (some d) → a.dim = layout.n ∧ d.size = layout.n ∧
        ∀ r c, r < layout.n → c < layout.n → H r c = if r = c then Vec.entry d r else 0) ∧
      ∀ k, a.plainVariable? = .ok (some k) → layout.sizes.get? k = some a.dim ∧
        ∀ x : Array R, x.size = layout.n → Ends (Fault.Unless (a.dim ≤ capacity))
          (fun y => Vec.slice x (layout.offset k) a.dim = .ok y) (a.apply layout x) := by
  have ha : a.Fits layout := (runEnds_build (E := fun _ => True) he hl).of_eq_ok h
  obtain ⟨H, hH⟩ := ha.exists_bears
  have hm := ha.matches
  have hextents {c : Prop} (hc : c → a.Stored) :
      ∀ kl ∈ a.maps.entries, Allows (Lore.both c : Lore R).faults kl.2.extent :=
    fun kl hkl => allows_unless fun hholds => hc hholds kl hkl
  refine ⟨H, ?_, fun x hx => ?_, fun y hy => ?_, fun d hd => ?_, fun k hk => ⟨?_, fun x hx => ?_⟩⟩
  · exact (hH _).ends_dense hm (allows_unless And.right) (hextents And.left)
  · exact (hH _).ends_apply hm (hextents fun hstored => hstored) hx
  · exact (hH _).ends_transApply hm trivial (allows_unless And.right) (hextents And.left) hy
  · exact (hH True).diagonal? hm hd
  · exact (ends_plainVariable? (E := fun _ => True) ha).of_eq_ok hk k rfl
  · exact ha.ends_apply_of_plainVariable? hk hx

/-- `threeBlocks`: the variables of `A x - y + 1` and one more. -/
def threeBlocks : Layout := ⟨Keyed.ofList [("w", 1), ("x", 2), ("y", 2)]⟩

theorem views_share_matrix_threeBlocks :
    Affine.shiftedDifference.ConstantsSized ∧ Affine.shiftedDifference.Declared threeBlocks.sizes ∧
      ∃ a t, (build Affine.shiftedDifference).runFrom Affine.productData (Session.start .zero 0) = (.ok a, t) ∧
        ∃ d y, a.dense threeBlocks = .ok d ∧ a.apply threeBlocks #[9, 1, 1, 1, 0] = .ok y ∧ ∀ i, i < 2 →
          Vec.entry y i = rowSum 5 d.entry (Vec.entry #[9, 1, 1, 1, 0]) i + Vec.entry a.offset i := by
  have hdeclared : Affine.shiftedDifference.Declared threeBlocks.sizes := by
    intro v hv id hid
    simp only [Affine.shiftedDifference, Expr.nodes, Expr.nodesList, List.append_nil, List.nil_append,
      List.cons_append, List.mem_cons, List.not_mem_nil, or_false] at hv
    rcases hv with rfl | rfl | rfl | rfl | rfl | rfl | rfl <;> cases hid <;> rfl
  obtain ⟨a, ha, hroom⟩ := exists_eq_ok_and
    (x := ((build Affine.shiftedDifference).runFrom Affine.productData (Session.start .zero 0)).1)
    (p := fun a => a.dim == 2 && a.maps.entries.all fun kl => decide (kl.2.extent ≤ capacity)) (by decide +kernel)
  have hrun : (build Affine.shiftedDifference).runFrom Affine.productData (Session.start .zero 0) = (.ok a, _) :=
    Prod.ext ha rfl
  rw [Bool.and_eq_true, beq_iff_eq, List.all_eq_true] at hroom
  obtain ⟨hdim, hstored⟩ := hroom
  have hstored : a.Stored := fun kl hkl => of_decide_eq_true (hstored kl hkl)
  obtain ⟨H, hdense, happly, -⟩ := views_share_matrix (by decide) hdeclared hrun
  obtain ⟨d, hd, -, hentry⟩ := hdense.exists_of_unless ⟨hstored, by rw [hdim]; decide⟩
  obtain ⟨y, hy, -, hvalue⟩ := (happly #[9, 1, 1, 1, 0] rfl).exists_of_unless hstored
  refine ⟨by decide, hdeclared, a, _, hrun, d, y, hd, hy, fun i hi => ?_⟩
  rw [hdim] at hentry hvalue
  rw [hvalue i hi]
  exact congrArg (· + _) (rowSum_congr (fun j hj => (hentry i j hi hj).symm) fun _ _ => rfl)

/-- `emptyBlock`: one variable without entries. -/
def emptyBlock : Layout := ⟨Keyed.ofList [("x", 0)]⟩

/-- An argument without components can be written out but not applied: the matrix between the two factors is
    too large. -/
theorem views_wideTensor : Affine.wideTensor.ConstantsSized ∧ Affine.wideTensor.Declared emptyBlock.sizes ∧
    ∃ a t d, (build Affine.wideTensor).runFrom Affine.wideData (Session.start .zero 0) = (.ok a, t) ∧
      a.dense emptyBlock = .ok d ∧ a.apply emptyBlock #[] = .error .breach := by
  have hdeclared : Affine.wideTensor.Declared emptyBlock.sizes := by
    intro v hv id hid
    simp only [Affine.wideTensor, Expr.nodes, Expr.nodesList, List.append_nil, List.mem_cons, List.not_mem_nil,
      or_false] at hv
    rcases hv with rfl | rfl <;> cases hid
    rfl
  obtain ⟨a, ha, hviews⟩ := exists_eq_ok_and
    (x := ((build Affine.wideTensor).runFrom Affine.wideData (Session.start .zero 0)).1)
    (p := fun a => (a.dense emptyBlock).toOption.isSome && breached (a.apply emptyBlock #[])) (by decide +kernel)
  rw [Bool.and_eq_true] at hviews
  obtain ⟨d, hd⟩ := exists_eq_ok hviews.1
  exact ⟨by decide, hdeclared, a, _, d, Prod.ext ha rfl, hd, eq_breach_of_breached hviews.2⟩

end Argument

end BlockAdmm
