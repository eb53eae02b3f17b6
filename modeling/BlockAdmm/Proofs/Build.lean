/-
  The form of an expression.

  A form is built from nothing under the identity, so it has the value of the expression at its row, and
  its columns are variables of the expression with their sizes (`Built`).  Its matrix is plain.  So at a
  point that gives every variable its length, the product with the matrix has a value just if what the
  blocks store on their way has room, and then product and constant part add up to the value of the
  expression (`build_correct`).  That something may not fit is no accident of large data: a product of two
  matrices without entries is stored by way of a matrix as large as their lengths (`build_wideTensor`).
-/
import BlockAdmm.Proofs.Affine
import BlockAdmm.Proofs.Block.Fits

namespace BlockAdmm

variable {R : Type}

/-- `x.Covers e`: the point gives every variable of the expression its number of elements. -/
def BlockVector.Covers (x : BlockVector R) (e : Expr R) : Prop :=
  ∀ f ∈ e.nodes, ∀ id, f.kind = .variable id → x.sizeAt? id = some f.dim

variable [ExactScalar R]

/-- The form of an expression at a row: its coefficients, the sizes that it has, and its value. -/
structure Built (data : Provider R) (row : String) (e : Expr R) (w : Marks R) (f : AffineForm R)
    (K : Coefs R) : Prop where
  represents : f.a.Represents w K
  rows : ∀ r n, f.a.rowDims.get? r = some n → r = row ∧ n = e.dim
  cols : ∀ c n, f.a.colDims.get? c = some n → ∃ v ∈ e.nodes, v.kind = .variable c ∧ v.dim = n
  sizes : ∀ r, f.b.sizeAt? r = if r = row then some e.dim else none
  plain : f.a.Plain
  value : ∀ x r i, sumCells f.a.colDims K x r i + f.b.coord r i
    = if r = row ∧ i < e.dim then e.value data x i else 0

namespace Built

variable {data : Provider R} {row : String} {e : Expr R} {w : Marks R} {f : AffineForm R} {K : Coefs R}
  {x y : BlockVector R}

/-- Product and constant part add up to the value of the expression. -/
theorem value_of_apply (h : Built data row e w f K) (hy : f.a.apply x = .ok y) {i : Nat}
    (hi : i < e.dim) : y.coord row i + f.b.coord row i = e.value data x.coord i := by
  rw [h.represents.apply hy]
  exact (h.value x.coord row i).trans (if_pos ⟨rfl, hi⟩)

theorem sizeAt?_apply (h : Built data row e w f K) (hy : f.a.apply x = .ok y) {r : String} {n : Nat}
    (hn : y.sizeAt? r = some n) : r = row ∧ n = e.dim :=
  h.rows r n (h.represents.sizeAt?_apply hy hn)

/-- At a point that gives the variables their lengths, only what is stored on the way can be too much. -/
theorem okIff_apply (h : Built data row e w f K) (hx : x.Covers e) :
    OkIff (f.a.apply x) (∀ blk ∈ f.a.toList, blk.map.Fits) := by
  have hcovered {c : String} {n : Nat} (hn : f.a.colDims.get? c = some n) : x.sizeAt? c = some n := by
    obtain ⟨v, hv, hkind, rfl⟩ := h.cols c n hn
    exact hx v hv c hkind
  refine (h.represents.okIff_apply (fun b hb => h.plain _ _ _ (BlockMatrix.mem_toList.1 hb))
    fun b hb m hm => Option.some.inj
      (hm.symm.trans (hcovered (h.represents.cols (BlockMatrix.mem_toList.1 hb))))).congr ?_
  refine forall₂_congr fun b hb => (or_iff_right fun hnone => ?_).symm
  have hsize := hcovered (h.represents.cols (BlockMatrix.mem_toList.1 hb))
  rw [BlockVector.sizeAt?_eq_none_iff.2 hnone] at hsize
  cases hsize

end Built

namespace Affine

open BlockAdmm.Compile

variable {p : Provider R} {row : String} {e : Expr R} {s t : Session R} {f : AffineForm R}

/-- What is built is the form of the expression; marks that are in use stay in use. -/
theorem run_build (he : e.ConstantsSized) (h : (build e row).runFrom p s = (.ok f, t)) {w : Marks R}
    (hw : s.nextMark = w.next) :
    ∃ v K, v.Extends w ∧ t.nextMark = v.next ∧ t.known p = s.known p ∧
      Built (s.known p) row e v f K := by
  rw [build] at h
  obtain ⟨_, r, hr, h⟩ := run_bind_eq_ok.1 h
  obtain rfl := run_modify_eq_ok.1 hr
  obtain ⟨d, r, hd, h⟩ := run_bind_eq_ok.1 h
  obtain ⟨rfl, rfl⟩ := run_count_eq_ok hd
  obtain ⟨_, r, hr, h⟩ := run_bind_eq_ok.1 h
  -- the run of the compiler, under the identity
  have hstart : Reading.Sound ⟨{ s with form := AffineForm.zero }, w, 0⟩ :=
    ⟨hw, BlockMatrix.represents_empty w⟩
  obtain ⟨T, rfl, hT⟩ := compiles p row e hstart (LinearMap.means_identity e.dim) he hr
  have hvalue (x : String → Nat → R) (r : String) (i : Nat) : T.value x r i
      = if r = row ∧ i < e.dim then e.value (s.known p) x i else 0 := by
    rw [hT.value]
    have hzero : Reading.value ⟨{ s with form := AffineForm.zero }, w, 0⟩ x r i = 0 := by
      show sumCells _ 0 x r i + (BlockVector.empty : BlockVector R).coord r i = 0
      rw [BlockVector.coord_empty, add_zero]
      exact Finset.sum_eq_zero fun c _ => zero_mul _
    rw [hzero, zero_add]
    split
    · rename_i hi
      rw [rowSum_diagonal _ hi.2 fun _ _ => rfl, one_mul]
      rfl
    · rfl
  have hrows : ∀ r n, T.session.form.a.rowDims.get? r = some n → r = row ∧ n = e.dim :=
    fun r n hr => (hT.rows r n hr).resolve_left nofun
  have hcols : ∀ c n, T.session.form.a.colDims.get? c = some n →
      ∃ v ∈ e.nodes, v.kind = .variable c ∧ v.dim = n :=
    fun c n hc => (hT.cols c n hc).resolve_left nofun
  have hsizes : ∀ r n, T.session.form.b.sizeAt? r = some n → r = row ∧ n = e.dim :=
    fun r n hr => (hT.sizes r n hr).resolve_left nofun
  have hplain : T.session.form.a.Plain := hT.plain trivial fun _ _ _ h => nomatch h
  -- the constant part of the row is there in the end
  obtain ⟨s', r, hs', h⟩ := run_bind_eq_ok.1 h
  obtain ⟨rfl, rfl⟩ := run_get_eq_ok.1 hs'
  dsimp only at h
  split at h
  · rename_i hcontains
    obtain ⟨rfl, rfl⟩ := run_pure_eq_ok.1 h
    refine ⟨T.marks, T.coefs, hT.marks, hT.sound.next, hT.known, hT.sound.represents, hrows, hcols,
      fun r => ?_, hplain, hvalue⟩
    obtain ⟨v, hv⟩ := Keyed.mem_keys_iff.1 (Keyed.contains_iff_mem_keys.1 hcontains)
    have hv : T.session.form.b.sizeAt? row = some v.size := BlockVector.sizeAt?_eq_some_iff.2 ⟨v, hv, rfl⟩
    split
    · rename_i hr
      rw [hr, hv, (hsizes _ _ hv).2]
    · rename_i hr
      cases hn : T.session.form.b.sizeAt? r with
      | none => rfl
      | some n => exact absurd (hsizes r n hn).1 hr
  · rename_i hcontains
    obtain ⟨_, r, hr, h⟩ := run_bind_eq_ok.1 h
    obtain ⟨-, rfl⟩ := run_liftM_eq_ok.1 hr
    obtain ⟨rfl, rfl⟩ := run_pure_eq_ok.1 h
    have hnone : T.session.form.b.get? row = none :=
      Keyed.get?_eq_none_iff.2 fun hmem => hcontains (Keyed.contains_iff_mem_keys.2 hmem)
    refine ⟨T.marks, T.coefs, hT.marks, hT.sound.next, hT.known, hT.sound.represents, hrows, hcols,
      fun r => ?_, hplain, fun x r i => ?_⟩
    · rw [BlockVector.sizeAt?_insert, Vec.size_zero]
      by_cases hr : row = r
      · rw [if_pos hr, if_pos hr.symm]
      · rw [if_neg hr, if_neg (Ne.symm hr)]
        cases hn : T.session.form.b.sizeAt? r with
        | none => rfl
        | some n => exact absurd (hsizes r n hn).1.symm hr
    · rw [← hvalue x r i, Reading.value, BlockVector.coord_insert]
      congr 1
      split
      · rename_i hr
        rw [Vec.entry_zero, ← hr, BlockVector.coord_of_get?_none hnone]
      · rfl

/-- What was built can be applied at every point that gives the variables their lengths, unless something
    does not fit, and has the value of the expression.  Compiling under an operator, into a form that is
    there, adds the operator times the value at the row and nothing elsewhere; this is the growth of the
    form that the products show. -/
theorem build_correct (e : Expr R) (he : e.ConstantsSized) (p : Provider R) (row : String)
    (s t : Session R) :
    (∀ f, (build e row).runFrom p s = (.ok f, t) → f.b.sizeAt? row = some e.dim ∧
      ∀ x : BlockVector R, x.Covers e →
        OkIff (f.a.apply x) (∀ blk ∈ f.a.toList, blk.map.Fits) ∧
        ∀ y, f.a.apply x = .ok y → (∀ n, y.sizeAt? row = some n → n = e.dim) ∧
          ∀ i, i < e.dim → y.coord row i + f.b.coord row i = e.value (s.known p) x.coord i) ∧
    ∀ (S : Reading R) l m n k, S.session = s → S.Sound → l.Means S.marks m n k →
      (compile row e l).runFrom p s = (.ok (), t) →
      (∃ T : Reading R, T.session = t ∧ T.Sound ∧ T.marks.Extends S.marks ∧ ∀ x r i, T.value x r i
        = S.value x r i + if r = row ∧ i < m then rowSum n k (e.value (s.known p) x) i else 0) ∧
      ∀ x y z, s.form.a.apply x = .ok y → t.form.a.apply x = .ok z → ∀ r i,
        z.coord r i + t.form.b.coord r i = y.coord r i + s.form.b.coord r i
          + if r = row ∧ i < m then rowSum n k (e.value (s.known p) x.coord) i else 0 := by
  refine ⟨fun f h => ?_, ?_⟩
  · obtain ⟨v, K, -, -, -, hbuilt⟩ := run_build he h (w := ⟨s.nextMark, fun _ _ _ => 0⟩) rfl
    refine ⟨(hbuilt.sizes row).trans (if_pos rfl), fun x hx => ⟨hbuilt.okIff_apply hx, fun y hy => ?_⟩⟩
    exact ⟨fun n hn => (hbuilt.sizeAt?_apply hy hn).2, fun i hi => hbuilt.value_of_apply hy hi⟩
  · rintro S l m n k rfl hS hl h
    obtain ⟨T, rfl, hT⟩ := compiles p row e hS hl he h
    refine ⟨⟨T, rfl, hT.sound, hT.marks, hT.value⟩, fun x y z hy hz r i => ?_⟩
    rw [hS.represents.apply hy, hT.sound.represents.apply hz]
    exact hT.value x.coord r i

/-- A matrix times a vector plus a scalar: `A x + 1` with `A` from the provider. -/
def shiftedProduct : Expr ℚ :=
  .node .add 2 1
    [.node .multiply 2 1
      [.node (.constant ⟨2, 2, .data "A"⟩) 2 2 [], .node (.variable "x") 2 1 []],
     .node (.constant ⟨1, 1, .scalar 1⟩) 1 1 []]

/-- The provider of `A`, with the columns `1 3` and `2 4`. -/
def productData : Provider ℚ := fun key =>
  if key = "A" then some (.dense ⟨2, 2, #[1, 3, 2, 4], rfl⟩) else none

theorem shiftedProduct_constantsSized : shiftedProduct.ConstantsSized := by
  intro f hf c hc
  simp only [shiftedProduct, Expr.nodes, Expr.nodesList, List.append_nil, List.nil_append,
    List.cons_append, List.mem_cons, List.not_mem_nil, or_false] at hf
  rcases hf with rfl | rfl | rfl | rfl | rfl <;> cases hc <;> rfl

theorem build_correct_shiftedProduct :
    shiftedProduct.ConstantsSized ∧ ∃ f t y,
      (build shiftedProduct "r").runFrom productData (Session.start .zero 0) = (.ok f, t) ∧
      f.a.apply (.ofList [("x", #[1, 1])]) = .ok y ∧ ∀ i, i < 2 →
        y.coord "r" i + f.b.coord "r" i
          = shiftedProduct.value productData (BlockVector.ofList [("x", #[1, 1])]).coord i := by
  obtain ⟨y, hy⟩ := exists_eq_ok
    (x := ((build shiftedProduct "r").runFrom productData (Session.start .zero 0)).1 >>= fun f =>
      f.a.apply (.ofList [("x", #[1, 1])])) (by decide +kernel)
  obtain ⟨f, hf, hy⟩ := bind_eq_ok.1 hy
  have hrun : (build shiftedProduct "r").runFrom productData (Session.start .zero 0) = (.ok f, _) :=
    Prod.ext hf rfl
  have hcovers : (BlockVector.ofList [("x", (#[1, 1] : Array ℚ))]).Covers shiftedProduct := by
    intro g hg id hid
    simp only [shiftedProduct, Expr.nodes, Expr.nodesList, List.append_nil, List.nil_append,
      List.cons_append, List.mem_cons, List.not_mem_nil, or_false] at hg
    rcases hg with rfl | rfl | rfl | rfl | rfl <;> cases hid
    rfl
  refine ⟨shiftedProduct_constantsSized, f, _, y, hrun, hy, ?_⟩
  have hbuilt := (build_correct shiftedProduct shiftedProduct_constantsSized productData "r" _ _).1 f hrun
  exact ((hbuilt.2 _ hcovers).2 y hy).2

/-- The product of a matrix of no rows and a matrix of no columns, both of `2 ^ 31` entries the other
    way, on a variable without entries. -/
def wideTensor : Expr ℚ :=
  .node (.linearMap (.kronecker (.dense ⟨0, 2147483648, .data "A"⟩) (.dense ⟨2147483648, 0, .data "B"⟩)))
    0 1 [.node (.variable "x") 0 1 []]

/-- The provider of the two matrices, neither of which has an entry. -/
def wideData : Provider ℚ := fun key =>
  if key = "A" then some (.dense ⟨0, 2147483648, #[], rfl⟩)
  else if key = "B" then some (.dense ⟨2147483648, 0, #[], rfl⟩)
  else none

/-- The form of the product can be built but not applied. -/
theorem build_wideTensor :
    wideTensor.ConstantsSized ∧ (BlockVector.ofList [("x", (#[] : Array ℚ))]).Covers wideTensor ∧
      ∃ f t, (build wideTensor "r").runFrom wideData (Session.start .zero 0) = (.ok f, t) ∧
        f.a.apply (.ofList [("x", #[])]) = .error .breach := by
  have hsized : wideTensor.ConstantsSized := by
    intro g hg c hc
    simp only [wideTensor, Expr.nodes, Expr.nodesList, List.append_nil, List.mem_cons,
      List.not_mem_nil, or_false] at hg
    rcases hg with rfl | rfl <;> cases hc
  have hcovers : (BlockVector.ofList [("x", (#[] : Array ℚ))]).Covers wideTensor := by
    intro g hg id hid
    simp only [wideTensor, Expr.nodes, Expr.nodesList, List.append_nil, List.mem_cons,
      List.not_mem_nil, or_false] at hg
    rcases hg with rfl | rfl <;> cases hid
    rfl
  obtain ⟨f, hf⟩ := exists_eq_ok
    (x := ((build wideTensor "r").runFrom wideData (Session.start .zero 0)).1) (by decide +kernel)
  have hrun : (build wideTensor "r").runFrom wideData (Session.start .zero 0) = (.ok f, _) :=
    Prod.ext hf rfl
  -- the matrix between the two factors has `2 ^ 62` entries
  have hnone : (((build wideTensor "r").runFrom wideData (Session.start .zero 0)).1 >>= fun f =>
      f.a.apply (.ofList [("x", #[])])).toOption.isNone = true := by decide +kernel
  obtain ⟨v, K, -, -, -, hbuilt⟩ := run_build hsized hrun (w := ⟨0, fun _ _ _ => 0⟩) rfl
  refine ⟨hsized, hcovers, f, _, hrun, (hbuilt.okIff_apply hcovers).breach fun hfits => ?_⟩
  obtain ⟨y, hy⟩ := (hbuilt.okIff_apply hcovers).ok hfits
  rw [hf] at hnone
  have hnone : (f.a.apply (.ofList [("x", #[])])).toOption.isNone = true := hnone
  rw [hy] at hnone
  exact absurd hnone Bool.false_ne_true

end Affine

end BlockAdmm
