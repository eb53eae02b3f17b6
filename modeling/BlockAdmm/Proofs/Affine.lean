/-
  The affine compiler.

  Compiling an expression under an operator adds the operator times the value of the expression to the
  form under construction, at one row, and changes nothing else (`compiles`).  The form is read as
  a value at a point (`Reading.value`): the coefficients of its matrix times the point, plus the constant
  part.  What a run did to it is a `Grown`, which says what was added, and which rows, columns and
  lengths came with it.  Two runs after each other add up (`Grown.trans`), so each kind of node needs
  only its own step, and the induction is over the tree with the operator general.
-/
import BlockAdmm.Proofs.Compile
import BlockAdmm.Proofs.Block.Algebra
import BlockAdmm.Affine

namespace BlockAdmm

variable {R : Type} [ExactScalar R]

/-! ## Forms as values -/

/-- A session with a reading of its form: the marks in use and the coefficients of the matrix. -/
structure Reading (R : Type) where
  session : Session R
  marks : Marks R
  coefs : Coefs R

namespace Reading

/-- `S.value x r i`: entry `i` of row `r` of the form at a point. -/
def value (S : Reading R) (x : String → Nat → R) (r : String) (i : Nat) : R :=
  sumCells S.session.form.a.colDims S.coefs x r i + S.session.form.b.coord r i

/-- `S.Sound`: the reading is right. -/
structure Sound (S : Reading R) : Prop where
  next : S.session.nextMark = S.marks.next
  represents : S.session.form.a.Represents S.marks S.coefs

end Reading

/-- `a.Plain`: no block of the matrix has an opaque part. -/
def BlockMatrix.Plain {R : Type} (a : BlockMatrix R) : Prop := ∀ r c l, a.get? r c = some l → l.Plain

/-- `Grown p row m plain nodes g S T`: from `S` to `T`, `g` was added to the `m` entries of a row.  The
    columns that are new are those of variables among the nodes, and if `plain` holds, no block became
    opaque. -/
structure Grown (p : Provider R) (row : String) (m : Nat) (plain : Prop) (nodes : List (Expr R))
    (g : (String → Nat → R) → Nat → R) (S T : Reading R) : Prop where
  marks : T.marks.Extends S.marks
  sound : T.Sound
  known : T.session.known p = S.session.known p
  rows : ∀ r n, T.session.form.a.rowDims.get? r = some n →
    S.session.form.a.rowDims.get? r = some n ∨ r = row ∧ n = m
  cols : ∀ c n, T.session.form.a.colDims.get? c = some n →
    S.session.form.a.colDims.get? c = some n ∨ ∃ e ∈ nodes, e.kind = .variable c ∧ e.dim = n
  sizes : ∀ r n, T.session.form.b.sizeAt? r = some n →
    S.session.form.b.sizeAt? r = some n ∨ r = row ∧ n = m
  plain : plain → S.session.form.a.Plain → T.session.form.a.Plain
  value : ∀ x r i, T.value x r i = S.value x r i + if r = row ∧ i < m then g x i else 0

namespace Grown

variable {p : Provider R} {row : String} {m : Nat} {P Q : Prop} {N N' : List (Expr R)}
  {g g' : (String → Nat → R) → Nat → R} {S T U : Reading R}

/-- Steps after each other add up. -/
theorem trans (h : Grown p row m P N g S T) (h' : Grown p row m P N' g' T U) :
    Grown p row m P (N ++ N') (fun x i => g x i + g' x i) S U where
  marks := h'.marks.trans h.marks
  sound := h'.sound
  known := h'.known.trans h.known
  rows r n hr := (h'.rows r n hr).elim (h.rows r n) Or.inr
  cols c n hc := by
    rcases h'.cols c n hc with hc | ⟨e, he, hv⟩
    · rcases h.cols c n hc with hc | ⟨e, he, hv⟩
      · exact Or.inl hc
      · exact Or.inr ⟨e, List.mem_append_left N' he, hv⟩
    · exact Or.inr ⟨e, List.mem_append_right N he, hv⟩
  sizes r n hr := (h'.sizes r n hr).elim (h.sizes r n) Or.inr
  plain hP hS := h'.plain hP (h.plain hP hS)
  value x r i := by
    rw [h'.value, h.value, add_assoc]
    congr 1
    split
    · rfl
    · exact add_zero 0

/-- Only what is added to the `m` entries matters, and more nodes may be named. -/
theorem congr (h : Grown p row m P N g S T) (hP : Q → P) (hN : ∀ e ∈ N, e ∈ N')
    (hg : ∀ x i, i < m → g' x i = g x i) : Grown p row m Q N' g' S T where
  marks := h.marks
  sound := h.sound
  known := h.known
  rows := h.rows
  cols c n hc := (h.cols c n hc).imp id fun ⟨e, he, hv⟩ => ⟨e, hN e he, hv⟩
  sizes := h.sizes
  plain hQ := h.plain (hP hQ)
  value x r i := by
    rw [h.value]
    congr 1
    split
    · rename_i hi; exact (hg x i hi.2).symm
    · rfl

/-- A step that leaves the form alone adds nothing. -/
theorem idle (row : String) (m : Nat) (P : Prop) {v : Marks R} {t : Session R} (hS : S.Sound)
    (hform : t.form = S.session.form) (hknown : t.known p = S.session.known p)
    (hmarks : v.Extends S.marks) (hnext : t.nextMark = v.next) :
    Grown p row m P [] (fun _ _ => 0) S ⟨t, v, S.coefs⟩ where
  marks := hmarks
  sound := ⟨hnext, hform ▸ hS.represents.mono hmarks⟩
  known := hknown
  rows r n hr := Or.inl (hform ▸ hr)
  cols c n hc := Or.inl (hform ▸ hc)
  sizes r n hr := Or.inl (hform ▸ hr)
  plain _ hp := hform ▸ hp
  value x r i := by
    rw [ite_self, add_zero, Reading.value, Reading.value, hform]

/-- What only reads adds nothing. -/
theorem of_same {t : Session R} (row : String) (m : Nat) (P : Prop) (hS : S.Sound)
    (h : t.Same p S.session) : Grown p row m P [] (fun _ _ => 0) S ⟨t, S.marks, S.coefs⟩ :=
  idle row m P hS h.form h.known (Marks.Extends.refl _) (h.nextMark.trans hS.next)

/-- A step after one that adds nothing. -/
theorem after_idle (h : Grown p row m P [] (fun _ _ => 0) S T) (h' : Grown p row m P N g T U) :
    Grown p row m P N g S U :=
  (h.trans h').congr id (fun _ he => he) fun _ _ _ => (zero_add _).symm

end Grown

/-! ## Rows of products -/

theorem rowSum_rowSum (n q : Nat) (k k' : Nat → Nat → R) (y : Nat → R) (r : Nat) :
    rowSum q (fun i j => rowSum n k (fun t => k' t j) i) y r
      = rowSum n k (fun t => rowSum q k' y t) r := by
  simp only [rowSum, Finset.sum_mul, Finset.mul_sum]
  rw [Finset.sum_comm]
  exact Finset.sum_congr rfl fun t _ => Finset.sum_congr rfl fun j _ => mul_assoc ..

theorem rowSum_neg (n : Nat) (k : Nat → Nat → R) (y : Nat → R) (r : Nat) :
    rowSum n (fun i j => -1 * k i j) y r = rowSum n k (fun t => -y t) r := by
  refine Finset.sum_congr rfl fun j _ => ?_
  ring

namespace Affine

open BlockAdmm.Compile

variable {p : Provider R} {row id : String} {S : Reading R} {s t : Session R} {l op lop : LinearMap R}
  {m n q : Nat} {k kop : Nat → Nat → R}

/-! ## The steps that change the form -/

omit [ExactScalar R] in
theorem run_changeForm_eq_ok {f : AffineForm R → Outcome (AffineForm R)} {u : Unit} :
    (changeForm f).runFrom p s = (.ok u, t) ↔ ∃ form, f s.form = .ok form ∧ { s with form := form } = t := by
  rw [changeForm, run_bind_eq_ok]
  constructor
  · rintro ⟨s', r, hs, h⟩
    obtain ⟨rfl, rfl⟩ := run_get_eq_ok.1 hs
    obtain ⟨form, r, hf, h⟩ := run_bind_eq_ok.1 h
    obtain ⟨hform, rfl⟩ := run_liftM_eq_ok.1 hf
    exact ⟨form, hform, run_modify_eq_ok.1 h⟩
  · rintro ⟨form, hf, rfl⟩
    exact ⟨s, s, run_get_eq_ok.2 ⟨rfl, rfl⟩,
      run_bind_eq_ok.2 ⟨form, s, run_liftM_eq_ok.2 ⟨hf, rfl⟩, run_modify_eq_ok.2 rfl⟩⟩

omit [ExactScalar R] in
theorem run_shareMap {l' : LinearMap R} (h : (shareMap l).runFrom p s = (.ok l', t)) :
    l' = (l.share s.nextMark).1 ∧ t = { s with nextMark := (l.share s.nextMark).2 } := by
  rw [shareMap] at h
  obtain ⟨s', r, hs, h⟩ := run_bind_eq_ok.1 h
  obtain ⟨rfl, rfl⟩ := run_get_eq_ok.1 hs
  obtain ⟨_, r, hr, h⟩ := run_bind_eq_ok.1 h
  obtain rfl := run_modify_eq_ok.1 hr
  obtain ⟨rfl, rfl⟩ := run_pure_eq_ok.1 h
  exact ⟨rfl, rfl⟩

/-- A variable adds the operator to the block of its name. -/
theorem grown_addOperator {e : Expr R} {N : List (Expr R)} (hN : e ∈ N) (he : e.kind = .variable id)
    (hdim : e.dim = n) (hS : S.Sound) (hl : l.Means S.marks m n k)
    (h : (addOperator row id l).runFrom p S.session = (.ok (), t)) :
    ∃ T : Reading R, T.session = t ∧
      Grown p row m l.Plain N (fun x => rowSum n k (x id)) S T := by
  obtain ⟨form, hform, rfl⟩ := run_changeForm_eq_ok.1 h
  obtain ⟨a, ha, hform⟩ := bind_eq_ok.1 hform
  cases pure_eq_ok.1 hform
  obtain ⟨hrow, hcol, hrows, hcols, new, hget, hnew⟩ := BlockMatrix.insertOrAdd_eq_ok ha
  rw [hl.rows] at hrow hrows
  rw [hl.cols] at hcol hcols
  have hrep := hS.represents.insertOrAdd hl.denotes ha
  rw [hl.rows, hl.cols] at hrep
  refine ⟨⟨_, S.marks, S.coefs + Coefs.single row id m n k⟩, rfl, ?_⟩
  refine ⟨Marks.Extends.refl _, ⟨hS.next, hrep⟩, rfl, fun r n' hr => ?_, fun c n' hc => ?_,
    fun r n' hr => Or.inl hr, fun hP hplain r c b hb => ?_, fun x r i => ?_⟩
  · show _ ∨ _
    have hr : a.rowDims.get? r = some n' := hr
    rw [hrows, Keyed.get?_insert] at hr
    split at hr
    · rename_i hrow'
      exact Or.inr ⟨hrow'.symm, (Option.some.inj hr).symm⟩
    · exact Or.inl hr
  · have hc : a.colDims.get? c = some n' := hc
    rw [hcols, Keyed.get?_insert] at hc
    split at hc
    · rename_i hcol'
      exact Or.inr ⟨e, hN, hcol' ▸ he, hdim.trans (Option.some.inj hc)⟩
    · exact Or.inl hc
  · have hb : a.get? r c = some b := hb
    rw [hget] at hb
    split at hb
    · cases hb
      rcases hnew with ⟨-, rfl⟩ | ⟨prev, hprev, hadd⟩
      · exact hP
      · exact (hplain _ _ _ hprev).add hP hadd
    · exact hplain r c b hb
  · have hext : a.colDims.Extends S.session.form.a.colDims := hcols ▸ BlockMatrix.extends_insert hcol
    have hid : a.colDims.get? id = some n := by rw [hcols, Keyed.get?_insert, if_pos rfl]
    show sumCells a.colDims _ x r i + _ = _
    rw [sumCells_add, sumCells_of_extends hext fun hK => (hS.represents.mem_cells hK).2,
      sumCells_single hid, Reading.value]
    ring

/-- A constant adds to the constant part. -/
theorem grown_addOffset {v : Array R} (P : Prop) (N : List (Expr R)) (hS : S.Sound) (hv : v.size = m)
    (h : (addOffset row v).runFrom p S.session = (.ok (), t)) :
    ∃ T : Reading R, T.session = t ∧ Grown p row m P N (fun _ => Vec.entry v) S T := by
  obtain ⟨form, hform, rfl⟩ := run_changeForm_eq_ok.1 h
  obtain ⟨b, hb, hform⟩ := bind_eq_ok.1 hform
  cases pure_eq_ok.1 hform
  refine ⟨⟨_, S.marks, S.coefs⟩, rfl, ?_⟩
  refine ⟨Marks.Extends.refl _, ⟨hS.next, hS.represents⟩, rfl, fun r n' hr => Or.inl hr,
    fun c n' hc => Or.inl hc, fun r n' hr => ?_, fun _ hplain => hplain, fun x r i => ?_⟩
  · have hr : b.sizeAt? r = some n' := hr
    rw [BlockVector.sizeAt?_increase hb] at hr
    split at hr
    · rename_i hrow
      exact Or.inr ⟨hrow.symm, (Option.some.inj hr).symm.trans hv⟩
    · exact Or.inl hr
  · show _ + b.coord r i = _
    rw [BlockVector.coord_increase hb, one_mul, Reading.value, add_assoc]
    congr 2
    by_cases hrow : row = r
    · rw [if_pos hrow]
      split
      · rfl
      · rename_i hi
        exact Vec.entry_of_size_le (by rw [hv]; by_contra hlt; exact hi ⟨hrow.symm, by omega⟩)
    · rw [if_neg hrow, if_neg fun hr => hrow hr.1.symm]

/-- A map that is used several times gets marks and stays what it is. -/
theorem grown_shareMap {l' : LinearMap R} (row : String) (hS : S.Sound) (hl : l.Means S.marks m n k)
    (h : (shareMap l).runFrom p S.session = (.ok l', t)) :
    ∃ T : Reading R, T.session = t ∧ l'.Means T.marks m n k ∧ (l.Plain → l'.Plain) ∧
      Grown p row m l.Plain [] (fun _ _ => 0) S T := by
  obtain ⟨rfl, rfl⟩ := run_shareMap h
  obtain ⟨v, hv, hnext, hmeans⟩ := hl.share
  rw [← hS.next] at hnext hmeans
  exact ⟨⟨_, v, S.coefs⟩, rfl, hmeans, fun hP => hP.share _, Grown.idle row m _ hS rfl rfl hv hnext.symm⟩

/-! ## Operators of nodes -/

/-- `Acts w op rows cols f`: a plain map of the given size that takes `y` to `f x y`, at every point. -/
def Acts (w : Marks R) (op : LinearMap R) (rows cols : Nat)
    (f : (String → Nat → R) → (Nat → R) → Nat → R) : Prop :=
  op.Plain ∧ ∃ k, op.Means w rows cols k ∧ ∀ x y i, i < rows → rowSum cols k y i = f x y i

theorem acts_ofScalar (w : Marks R) (n : Nat) (v : R) :
    Acts w (.ofScalar n v) n n fun _ y i => v * y i :=
  ⟨trivial, fun r c => if r = c then v else 0, LinearMap.means_ofScalar fun _ _ _ _ => rfl,
    fun _ y _ hi => rowSum_diagonal y hi fun _ _ => rfl⟩

/-- A map of one column that repeats its argument. -/
theorem acts_ones (w : Marks R) {n : Nat} (h : ones n = .ok op) : Acts w op n 1 fun _ y _ => y 0 := by
  obtain ⟨a, ha, h⟩ := bind_eq_ok.1 h
  cases pure_eq_ok.1 h
  obtain ⟨-, rfl⟩ := Dense.make_eq_ok.1 ha
  refine ⟨trivial, fun _ _ => 1, LinearMap.means_ofDense rfl rfl fun r c hr hc => ?_, fun _ y i _ => ?_⟩
  · exact Dense.entry_build _ hr hc
  · rw [rowSum, Finset.sum_range_one, one_mul]

/-- Rows of `1 ⊗ C`. -/
theorem rowSum_identity_kron {n p q : Nat} (kc : Nat → Nat → R) (y : Nat → R) {i : Nat} (hi : i < n * p) :
    rowSum (n * q) (fun r j => (if r / p = j / q then 1 else 0) * kc (r % p) (j % q)) y i
      = ∑ t ∈ Finset.range q, kc (i % p) t * y (i / p * q + t) := by
  have hterm (j t : Nat) (ht : t ∈ Finset.range q) :
      (if i / p = (j * q + t) / q then (1 : R) else 0) * kc (i % p) ((j * q + t) % q) * y (j * q + t)
        = if i / p = j then kc (i % p) t * y (j * q + t) else 0 := by
    obtain ⟨hdiv, hmod⟩ := (mul_add_eq_iff (q := j) (Finset.mem_range.1 ht)).1 rfl
    rw [← hdiv, ← hmod, ite_mul, ite_mul, one_mul, zero_mul, zero_mul]
  rw [rowSum, sum_range_mul, Finset.sum_eq_single (i / p)]
  · exact Finset.sum_congr rfl fun t ht => by rw [hterm _ t ht, if_pos rfl]
  · exact fun j _ hj => Finset.sum_eq_zero fun t ht => by rw [hterm j t ht, if_neg (Ne.symm hj)]
  · exact fun hmem => absurd (Finset.mem_range.2 (div_mod_lt hi).1) hmem

/-- Rows of `C ⊗ 1`. -/
theorem rowSum_kron_identity {n p q : Nat} (kc : Nat → Nat → R) (y : Nat → R) {i : Nat} (hi : i < p * n) :
    rowSum (q * n) (fun r j => kc (r / n) (j / n) * (if r % n = j % n then 1 else 0)) y i
      = ∑ t ∈ Finset.range q, kc (i / n) t * y (t * n + i % n) := by
  have hmem : i % n ∈ Finset.range n := Finset.mem_range.2 (div_mod_lt hi).2
  rw [rowSum, sum_range_mul]
  refine Finset.sum_congr rfl fun t _ => ?_
  have hterm (j : Nat) (hj : j ∈ Finset.range n) :
      kc (i / n) ((t * n + j) / n) * (if i % n = (t * n + j) % n then 1 else 0) * y (t * n + j)
        = if i % n = j then kc (i / n) t * y (t * n + j) else 0 := by
    obtain ⟨hdiv, hmod⟩ := (mul_add_eq_iff (q := t) (Finset.mem_range.1 hj)).1 rfl
    rw [← hdiv, ← hmod, mul_ite, mul_one, mul_zero, ite_mul, zero_mul]
  rw [Finset.sum_congr rfl hterm, Finset.sum_ite_eq, if_pos hmem]

omit [ExactScalar R] in
/-- A size that is counted is what it is. -/
theorem run_count_eq_ok {N d : Nat} (h : (liftM (count N) : Compile R Nat).runFrom p s = (.ok d, t)) :
    d = N ∧ s = t := by
  obtain ⟨hd, hst⟩ := run_liftM_eq_ok.1 h
  exact ⟨(count_eq_ok.1 hd).2, hst⟩

/-- What the two kinds of factors do when the constant has one element. -/
theorem run_scaleFactor {c : Constant R} {e : Expr R} (hc : c.m * c.n = 1)
    (h : (do return .ofScalar (← e.elements) (← firstEntry c) : Compile R (LinearMap R)).runFrom p s
      = (.ok op, t)) :
    t.Same p s ∧ op = .ofScalar e.dim (c.entry (s.known p) 0 0) := by
  obtain ⟨d, r, hd, h⟩ := run_bind_eq_ok.1 h
  obtain ⟨rfl, rfl⟩ := run_count_eq_ok hd
  obtain ⟨v, r, hv, h⟩ := run_bind_eq_ok.1 h
  obtain ⟨rfl, rfl⟩ := run_pure_eq_ok.1 h
  obtain ⟨hsame, rfl⟩ := run_firstEntry hc hv
  exact ⟨hsame, rfl⟩

/-- A constant in front takes the value of the other factor to that of the product. -/
theorem acts_leftFactor (w : Marks R) {c : Constant R} {a e : Expr R} (hc : a.kind = .constant c)
    (hsize : a.size = c.size) (h : (leftFactor c a.size e).runFrom p s = (.ok op, t)) :
    t.Same p s ∧ ∃ rows, Acts w op rows e.dim fun x y =>
      Expr.productEntry a e (a.value (s.known p) x) y := by
  have hdim : a.dim = c.m * c.n := congrArg (fun s => s.1 * s.2) hsize
  rw [leftFactor] at h
  obtain ⟨d, r, hd, h⟩ := run_bind_eq_ok.1 h
  obtain ⟨rfl, rfl⟩ := run_count_eq_ok hd
  split at h
  · rename_i hone
    have hone : a.dim = 1 := beq_iff_eq.1 hone
    obtain ⟨hsame, rfl⟩ := run_scaleFactor (hdim ▸ hone) h
    obtain ⟨hplain, k, hmeans, hk⟩ := acts_ofScalar w e.dim (c.entry (s.known p) 0 0)
    exact ⟨hsame, e.dim, hplain, k, hmeans, fun x y i hi =>
      (hk x y i hi).trans (Expr.productEntry_scale_left hc hone).symm⟩
  · rename_i hone
    have hone : a.dim ≠ 1 := fun h => hone (beq_iff_eq.2 h)
    split at h
    · obtain ⟨_, _, h, -⟩ := run_bind_eq_ok.1 h
      exact absurd h run_refuse_ne_ok
    · rename_i hfit
      have hfit : c.n = e.m := by simpa using hfit
      obtain ⟨lc, r, hlc, h⟩ := run_bind_eq_ok.1 h
      obtain ⟨hsame, hmeans, hplain⟩ := run_constantMap w hlc
      obtain ⟨hop, rfl⟩ := run_liftM_eq_ok.1 h
      obtain rfl := LinearMap.eq_kron_of_tensor hop
      have hcols : e.dim = e.n * c.n := by rw [hfit, Nat.mul_comm]; rfl
      refine ⟨hsame, e.n * c.m, hcols ▸ ⟨LinearMap.Plain.kron trivial hplain, _,
        (LinearMap.means_identity e.n).kron hmeans, fun x y i hi => ?_⟩⟩
      exact (rowSum_identity_kron (c.entry (s.known p)) y hi).trans
        (Expr.productEntry_left hc hsize hone hfit hi).symm

/-- A constant behind takes the value of the other factor to that of the product. -/
theorem acts_rightFactor (w : Marks R) {c : Constant R} {a e : Expr R} (hc : e.kind = .constant c)
    (hsize : e.size = c.size) (ha : ∀ c, a.kind ≠ .constant c)
    (h : (rightFactor c e.size a).runFrom p s = (.ok op, t)) :
    t.Same p s ∧ ∃ rows, Acts w op rows a.dim fun x y =>
      Expr.productEntry a e y (e.value (s.known p) x) := by
  have hdim : e.dim = c.m * c.n := congrArg (fun s => s.1 * s.2) hsize
  rw [rightFactor] at h
  obtain ⟨d, r, hd, h⟩ := run_bind_eq_ok.1 h
  obtain ⟨rfl, rfl⟩ := run_count_eq_ok hd
  split at h
  · rename_i hone
    have hone : e.dim = 1 := beq_iff_eq.1 hone
    obtain ⟨hsame, rfl⟩ := run_scaleFactor (hdim ▸ hone) h
    obtain ⟨hplain, k, hmeans, hk⟩ := acts_ofScalar w a.dim (c.entry (s.known p) 0 0)
    exact ⟨hsame, a.dim, hplain, k, hmeans, fun x y i hi =>
      (hk x y i hi).trans (Expr.productEntry_scale_right hc hone ha).symm⟩
  · rename_i hone
    have hone : e.dim ≠ 1 := fun h => hone (beq_iff_eq.2 h)
    split at h
    · obtain ⟨_, _, h, -⟩ := run_bind_eq_ok.1 h
      exact absurd h run_refuse_ne_ok
    · rename_i hfit
      have hfit : a.n = c.m := by simpa using hfit
      obtain ⟨lc, r, hlc, h⟩ := run_bind_eq_ok.1 h
      obtain ⟨hsame, hmeans, hplain⟩ := run_constantMap w hlc
      obtain ⟨lt, r', hlt, h⟩ := run_bind_eq_ok.1 h
      obtain ⟨htrans, rfl⟩ := run_liftM_eq_ok.1 hlt
      obtain ⟨hop, rfl⟩ := run_liftM_eq_ok.1 h
      obtain rfl := LinearMap.eq_kron_of_tensor hop
      have hcols : a.dim = c.m * a.m := by rw [← hfit, Nat.mul_comm]; rfl
      refine ⟨hsame, c.n * a.m, hcols ▸ ⟨(hplain.transpose htrans).kron trivial, _,
        (hmeans.transpose htrans).kron (LinearMap.means_identity a.m), fun x y i hi => ?_⟩⟩
      exact (rowSum_kron_identity (fun i j => c.entry (s.known p) j i) y hi).trans
        (Expr.productEntry_right hc hsize hone ha hfit).symm

/-! ## The induction -/

/-- `Compiles p row e`: compiling `e` under any operator adds the operator times the value of `e`. -/
def Compiles (p : Provider R) (row : String) (e : Expr R) : Prop :=
  ∀ {S : Reading R} {l : LinearMap R} {t m n k}, S.Sound → l.Means S.marks m n k → e.ConstantsSized →
    (compile row e l).runFrom p S.session = (.ok (), t) → ∃ T : Reading R, T.session = t ∧
      Grown p row m l.Plain e.nodes (fun x => rowSum n k (e.value (S.session.known p) x)) S T

/-- Compiling an argument under the product of the operator with that of the node. -/
theorem grown_through {e : Expr R} {rows cols : Nat} {f : (String → Nat → R) → (Nat → R) → Nat → R}
    (ih : Compiles p row e) (hS : S.Sound) (hl : l.Means S.marks m n k)
    (hop : Acts S.marks op rows cols f) (hmul : l.mul op = .ok lop) (he : e.ConstantsSized)
    (h : (compile row e lop).runFrom p S.session = (.ok (), t)) :
    ∃ T : Reading R, T.session = t ∧ Grown p row m l.Plain e.nodes
      (fun x => rowSum n k (f x (e.value (S.session.known p) x))) S T := by
  obtain ⟨hplain, kop, hmeans, hf⟩ := hop
  have hn : n = rows := by rw [← hl.cols, ← hmeans.rows, LinearMap.cols_eq_of_mul hmul]
  obtain ⟨T, rfl, hT⟩ := ih hS (hl.mul (hn ▸ hmeans) hmul) he h
  refine ⟨T, rfl, hT.congr (fun hp => hp.mul hplain hmul) (fun _ he => he) fun x i _ => ?_⟩
  rw [rowSum_rowSum]
  exact rowSum_congr (fun _ _ => rfl) fun j hj => (hf x _ j (hn ▸ hj)).symm

/-- The addends of a sum, one after another. -/
theorem grown_compileSum {es : List (Expr R)} {size : Size} (ih : ∀ e ∈ es, Compiles p row e)
    (hS : S.Sound) (hl : l.Means S.marks m n k) (hn : n = size.1 * size.2)
    (hes : ∀ e ∈ es, e.ConstantsSized)
    (h : (compileSum row size es l).runFrom p S.session = (.ok (), t)) :
    ∃ T : Reading R, T.session = t ∧ Grown p row m l.Plain (Expr.nodesList es)
      (fun x => rowSum n k (Expr.sumValue (S.session.known p) x es)) S T := by
  induction es generalizing S with
  | nil =>
    rw [compileSum] at h
    obtain ⟨-, rfl⟩ := run_pure_eq_ok.1 h
    refine ⟨S, rfl, (Grown.of_same row m l.Plain hS (Session.Same.refl p _)).congr id (fun _ he => he)
      fun x i _ => ?_⟩
    exact rowSum_zero n k i
  | cons e es ihs =>
    rw [compileSum] at h
    obtain ⟨d, r, hd, h⟩ := run_bind_eq_ok.1 h
    obtain ⟨rfl, rfl⟩ := run_count_eq_ok hd
    dsimp only at h
    -- one addend, and the rest from where it led
    have hhead : ∃ T : Reading R, (compileSum row size es l).runFrom p T.session = (.ok (), t) ∧
        Grown p row m l.Plain e.nodes (fun x => rowSum n k fun i =>
          if e.dim = 1 ∧ e.isConstant = true then e.value (S.session.known p) x 0
          else e.value (S.session.known p) x i) S T := by
      have hce := hes e List.mem_cons_self
      split at h
      · rename_i hdim
        have hdim : e.dim = n := (beq_iff_eq.1 hdim).trans hn.symm
        obtain ⟨_, r, hr, h⟩ := run_bind_eq_ok.1 h
        obtain ⟨T, rfl, hT⟩ := ih e List.mem_cons_self hS hl hce hr
        refine ⟨T, h, hT.congr id (fun _ he => he) fun x i _ => ?_⟩
        refine rowSum_congr (fun _ _ => rfl) fun j hj => ?_
        split
        · rename_i hone
          rw [show j = 0 by omega]
        · rfl
      · split at h
        · rename_i hone
          rw [Bool.and_eq_true, beq_iff_eq] at hone
          obtain ⟨op, r, hop, h⟩ := run_bind_eq_ok.1 h
          obtain ⟨hones, rfl⟩ := run_liftM_eq_ok.1 hop
          obtain ⟨lop, r, hlop, h⟩ := run_bind_eq_ok.1 h
          obtain ⟨hmul, rfl⟩ := run_liftM_eq_ok.1 hlop
          obtain ⟨_, r, hr, h⟩ := run_bind_eq_ok.1 h
          obtain ⟨T, rfl, hT⟩ := grown_through (ih e List.mem_cons_self) hS hl
            (acts_ones S.marks hones) hmul hce hr
          refine ⟨T, h, hT.congr id (fun _ he => he) fun x i _ => ?_⟩
          simp only [if_pos hone]
        · obtain ⟨_, _, h, -⟩ := run_bind_eq_ok.1 h
          exact absurd h run_refuse_ne_ok
    obtain ⟨T, h, hT⟩ := hhead
    obtain ⟨U, rfl, hU⟩ := ihs (fun e he => ih e (List.mem_cons_of_mem _ he)) hT.sound
      (hl.mono hT.marks) (fun e he => hes e (List.mem_cons_of_mem _ he)) h
    refine ⟨U, rfl, (hT.trans hU).congr id (fun e' he' => ?_) fun x i _ => ?_⟩
    · rwa [Expr.nodesList]
    · rw [← rowSum_add, hT.known]
      simp only [Expr.sumValue]

/-- A constant under an operator. -/
theorem grown_constant {c : Constant R} {e : Expr R} (N : List (Expr R)) (hc : e.kind = .constant c)
    (hS : S.Sound) (hl : l.Means S.marks m n k)
    (h : (do
      let v := (← dense c).data
      if v.size != l.n then refuse (.constantSize c.size l.n)
      addOffset row (← l.apply v) : Compile R Unit).runFrom p S.session = (.ok (), t)) :
    ∃ T : Reading R, T.session = t ∧ Grown p row m l.Plain N
      (fun x => rowSum n k (e.value (S.session.known p) x)) S T := by
  obtain ⟨a, r, ha, h⟩ := run_bind_eq_ok.1 h
  obtain ⟨hsame, hm, hn, hentry⟩ := run_dense ha
  dsimp only at h
  split at h
  · obtain ⟨_, _, h, -⟩ := run_bind_eq_ok.1 h
    exact absurd h run_refuse_ne_ok
  · rename_i hsize
    have hsize : a.data.size = n := by rw [← hl.cols]; simpa using hsize
    obtain ⟨v, r, hv, h⟩ := run_bind_eq_ok.1 h
    obtain ⟨hlv, rfl⟩ := run_liftM_eq_ok.1 hv
    obtain ⟨hvs, hve⟩ := hl.apply _ _ hsize hlv
    have hread := Grown.of_same row m l.Plain hS hsame
    obtain ⟨T, rfl, hT⟩ := grown_addOffset l.Plain N hread.sound hvs h
    refine ⟨T, rfl, hread.after_idle (hT.congr id (fun _ he => he) fun x i hi => ?_)⟩
    rw [hve i hi]
    refine rowSum_congr (fun _ _ => rfl) fun j hj => ?_
    have hj : j < c.n * c.m := by
      rw [← hsize, a.size_data, hm, hn, Nat.mul_comm] at hj
      exact hj
    rw [Expr.value_of_constant hc, ← hentry _ _ (div_mod_lt hj).2 (div_mod_lt hj).1, Dense.entry, hm,
      Nat.div_add_mod']

/-- A described map on an argument. -/
theorem grown_linearMap {d : MapDesc R} {e : Expr R} {m' n' : Nat} (ih : Compiles p row e)
    (hS : S.Sound) (hl : l.Means S.marks m n k) (he : e.ConstantsSized)
    (h : (do
      let op ← describedMap d
      limit op.isSized
      if op.size != (m' * n', ← e.elements) then refuse (.mapSize op.size e.size)
      compile row e (← l.mul op) : Compile R Unit).runFrom p S.session = (.ok (), t)) :
    ∃ T : Reading R, T.session = t ∧ Grown p row m l.Plain e.nodes
      (fun x => rowSum n k (rowSum e.dim (d.coef (S.session.known p)) (e.value (S.session.known p) x)))
      S T := by
  obtain ⟨op, r, hop, h⟩ := run_bind_eq_ok.1 h
  obtain ⟨hsame, hmeans, hplain⟩ := run_describedMap S.marks hop
  obtain ⟨_, r', hr', h⟩ := run_bind_eq_ok.1 h
  obtain ⟨-, rfl⟩ := run_liftM_eq_ok.1 hr'
  obtain ⟨N, r', hN, h⟩ := run_bind_eq_ok.1 h
  obtain ⟨rfl, rfl⟩ := run_count_eq_ok hN
  split at h
  · obtain ⟨_, _, h, -⟩ := run_bind_eq_ok.1 h
    exact absurd h run_refuse_ne_ok
  · rename_i hsize
    have hsize : op.size = (m' * n', e.dim) := by simpa using hsize
    have hcols : d.dims.2 = e.dim := (hmeans.cols).symm.trans (congrArg Prod.snd hsize)
    obtain ⟨lop, r', hlop, h⟩ := run_bind_eq_ok.1 h
    obtain ⟨hmul, rfl⟩ := run_liftM_eq_ok.1 hlop
    have hread := Grown.of_same row m l.Plain hS hsame
    have hacts : Acts S.marks op d.dims.1 e.dim fun _ => rowSum e.dim (d.coef (S.session.known p)) :=
      ⟨hplain, _, hcols ▸ hmeans, fun _ _ _ _ => rfl⟩
    obtain ⟨T, rfl, hT⟩ := grown_through ih hread.sound hl hacts hmul he h
    refine ⟨T, rfl, (hread.after_idle hT).congr id (fun _ he => he) fun x i _ => ?_⟩
    rw [hread.known]

/-- A factor of a product, once the other has become an operator. -/
theorem grown_factor {e : Expr R} {size : Size} {rows : Nat}
    {f : (String → Nat → R) → (Nat → R) → Nat → R} (ih : Compiles p row e) (hS : S.Sound)
    (hl : l.Means S.marks m n k) (hop : Acts S.marks op rows e.dim f) (he : e.ConstantsSized)
    (h : (do
      checkProduct size op
      compile row e (← l.mul op) : Compile R Unit).runFrom p S.session = (.ok (), t)) :
    ∃ T : Reading R, T.session = t ∧ Grown p row m l.Plain e.nodes
      (fun x => rowSum n k (f x (e.value (S.session.known p) x))) S T := by
  obtain ⟨_, r, hr, h⟩ := run_bind_eq_ok.1 h
  have hrun : r = S.session := by
    rw [checkProduct] at hr
    obtain ⟨_, r', hr', hr⟩ := run_bind_eq_ok.1 hr
    obtain ⟨-, rfl⟩ := run_liftM_eq_ok.1 hr'
    split at hr
    · exact absurd hr run_refuse_ne_ok
    · exact (run_pure_eq_ok.1 hr).2.symm
  subst hrun
  obtain ⟨lop, r', hlop, h⟩ := run_bind_eq_ok.1 h
  obtain ⟨hmul, rfl⟩ := run_liftM_eq_ok.1 hlop
  exact grown_through ih hS hl hop hmul he h

/-- A product, one factor of which is a constant. -/
theorem grown_multiply {a b : Expr R} {size : Size} (iha : Compiles p row a) (ihb : Compiles p row b)
    (hS : S.Sound) (hl : l.Means S.marks m n k) (ha : a.ConstantsSized) (hb : b.ConstantsSized)
    (h : (match a.kind, b.kind with
      | .constant c, _ => do
        let op ← leftFactor c a.size b
        checkProduct size op
        compile row b (← l.mul op)
      | _, .constant c => do
        let op ← rightFactor c b.size a
        checkProduct size op
        compile row a (← l.mul op)
      | _, _ => refuse (.noConstantFactor .multiply) : Compile R Unit).runFrom p S.session
        = (.ok (), t)) :
    ∃ T : Reading R, T.session = t ∧ Grown p row m l.Plain (a.nodes ++ b.nodes)
      (fun x => rowSum n k (Expr.productEntry a b (a.value (S.session.known p) x)
        (b.value (S.session.known p) x))) S T := by
  split at h
  · rename_i c hc
    obtain ⟨op, r, hop, h⟩ := run_bind_eq_ok.1 h
    obtain ⟨hsame, rows, hacts⟩ := acts_leftFactor S.marks hc (ha.constant hc) hop
    have hread := Grown.of_same row m l.Plain hS hsame
    obtain ⟨T, rfl, hT⟩ := grown_factor ihb hread.sound hl hacts hb h
    refine ⟨T, rfl, (hread.after_idle hT).congr id (fun e he => List.mem_append_right _ he) ?_⟩
    exact fun x i _ => by rw [hread.known]
  · rename_i c hc hnot
    obtain ⟨op, r, hop, h⟩ := run_bind_eq_ok.1 h
    obtain ⟨hsame, rows, hacts⟩ := acts_rightFactor S.marks hc (hb.constant hc) hnot hop
    have hread := Grown.of_same row m l.Plain hS hsame
    obtain ⟨T, rfl, hT⟩ := grown_factor iha hread.sound hl hacts ha h
    refine ⟨T, rfl, (hread.after_idle hT).congr id (fun e he => List.mem_append_left _ he) ?_⟩
    exact fun x i _ => by rw [hread.known]
  · exact absurd h run_refuse_ne_ok

theorem compiles (p : Provider R) (row : String) (e : Expr R) : Compiles p row e := by
  induction e using Expr.induct with
  | node kind m' n' args ih =>
    intro S l t m n k hS hl he h
    rw [compile.eq_def] at h
    dsimp only at h
    rw [run_bind_eq_ok] at h
    obtain ⟨N, r, hN, h⟩ := h
    obtain ⟨rfl, rfl⟩ := run_count_eq_ok hN
    split at h
    · obtain ⟨_, _, h, -⟩ := run_bind_eq_ok.1 h
      exact absurd h run_refuse_ne_ok
    rename_i hn
    have hn : n = m' * n' := by rw [← hl.cols]; simpa using hn
    rw [run_bind_eq_ok] at h
    obtain ⟨_, r, hr, h⟩ := h
    have hidle := Grown.of_same row m l.Plain hS (run_note hr)
    have hknown : r.known p = S.session.known p := hidle.known
    have hself := Expr.mem_nodes_self (.node kind m' n' args)
    have hargs {e f : Expr R} (he : e ∈ args) (hf : f ∈ e.nodes) :
        f ∈ (Expr.node kind m' n' args).nodes := Expr.mem_nodes_of_arg he hf
    -- what is left to show, from the session `r` on
    suffices hmain : ∃ T : Reading R, T.session = t ∧
        Grown p row m l.Plain (Expr.node kind m' n' args).nodes
          (fun x => rowSum n k ((Expr.node kind m' n' args).value (r.known p) x)) ⟨r, S.marks, S.coefs⟩ T by
      obtain ⟨T, rfl, hT⟩ := hmain
      exact ⟨T, rfl, hknown ▸ hidle.after_idle hT⟩
    clear hr hN
    split at h
    · exact absurd h run_refuse_ne_ok
    · -- a sum
      obtain ⟨l', r', hl', h⟩ := run_bind_eq_ok.1 h
      obtain ⟨T, rfl, hmeans, hplain, hT⟩ := grown_shareMap row hidle.sound hl hl'
      obtain ⟨U, rfl, hU⟩ := grown_compileSum ih hT.sound hmeans hn (fun e he' => he.arg he') h
      refine ⟨U, rfl, hT.after_idle (hU.congr hplain (fun e he' => ?_) fun x i _ => ?_)⟩
      · rw [Expr.nodes]
        exact List.mem_cons_of_mem _ he'
      · rw [hT.known]
        simp only [Expr.value]
    · -- a variable
      obtain ⟨T, rfl, hT⟩ := grown_addOperator hself rfl hn.symm hidle.sound hl h
      refine ⟨T, rfl, hT.congr id (fun _ he => he) fun x i _ => ?_⟩
      simp only [Expr.value]
    · exact grown_constant _ rfl hidle.sound hl h
    · -- a described map
      rename_i d e
      have hmem : e ∈ [e] := List.mem_singleton_self e
      obtain ⟨T, rfl, hT⟩ := grown_linearMap (ih e hmem) hidle.sound hl (he.arg hmem) h
      refine ⟨T, rfl, hT.congr id (fun _ => hargs hmem) fun x i _ => ?_⟩
      simp only [Expr.value]
    · -- a reshaping
      rename_i e
      have hmem : e ∈ [e] := List.mem_singleton_self e
      obtain ⟨T, rfl, hT⟩ := ih e hmem hidle.sound hl (he.arg hmem) h
      refine ⟨T, rfl, hT.congr id (fun _ => hargs hmem) fun x i _ => ?_⟩
      simp only [Expr.value]
    · -- a negation
      rename_i e
      have hmem : e ∈ [e] := List.mem_singleton_self e
      obtain ⟨T, rfl, hT⟩ := ih e hmem hidle.sound hl.neg (he.arg hmem) h
      refine ⟨T, rfl, hT.congr (fun hp => hp.scaleBy (-1)) (fun _ => hargs hmem) fun x i _ => ?_⟩
      simp only [Expr.value, rowSum_neg]
    · -- a product
      rename_i a b
      have hmema : a ∈ [a, b] := List.mem_cons_self
      have hmemb : b ∈ [a, b] := List.mem_cons_of_mem a (List.mem_singleton_self b)
      obtain ⟨T, rfl, hT⟩ := grown_multiply (ih a hmema) (ih b hmemb) hidle.sound hl (he.arg hmema)
        (he.arg hmemb) h
      refine ⟨T, rfl, hT.congr id (fun _ hf => (List.mem_append.1 hf).elim (hargs hmema) (hargs hmemb))
        fun x i _ => ?_⟩
      simp only [Expr.value]
    all_goals exact absurd h run_refuse_ne_ok

end Affine

end BlockAdmm
