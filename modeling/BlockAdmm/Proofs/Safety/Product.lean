/-
  Products with a constant.

  Which factor of a product becomes an operator is decided by the compiler, and how large the product is, by
  the builder.  The builder takes a factor of one element for a scaling, whatever it is, and the compiler
  only a constant.  So a product that was built conformable is compiled unless the factor that scales is not
  the constant that becomes the operator, and does not fit as a matrix (`build_product`).  What is compiled
  has the value that the builder's reading gives it.

  The other factor is compiled under another operator than on its own.  That this makes no difference but
  in the sizes is shown by going through two runs at a time (`Follows`): whenever the first has a value, the
  second has one too, or a size is too large.
-/
import BlockAdmm.Proofs.Safety.Affine
import BlockAdmm.Proofs.Build

namespace BlockAdmm

open Scalar

variable {R : Type} {α α' β β' : Type}

/-! ## Two runs -/

namespace Compile

variable {p : Provider R} {s₁ s₂ : Session R}

/-- `Follows p s₁ s₂ Q x₁ x₂`: if the first compilation has a value, the second has one too, unless a size is
    too large, and the values and the sessions after them are related by `Q`. -/
def Follows (p : Provider R) (s₁ s₂ : Session R) (Q : α → Session R → β → Session R → Prop)
    (x₁ : Compile R α) (x₂ : Compile R β) : Prop :=
  ∀ a t₁, x₁.runFrom p s₁ = (.ok a, t₁) → RunEnds Fault.IsBreach p s₂ (fun b t₂ => Q a t₁ b t₂) x₂

variable {P : α → Session R → β → Session R → Prop} {x₁ : Compile R α} {x₂ : Compile R β}

/-- One pair of compilations after another. -/
theorem Follows.bind {Q : α' → Session R → β' → Session R → Prop} {f₁ : α → Compile R α'}
    {f₂ : β → Compile R β'} (hx : Follows p s₁ s₂ P x₁ x₂)
    (hf : ∀ a t₁ b t₂, P a t₁ b t₂ → Follows p t₁ t₂ Q (f₁ a) (f₂ b)) :
    Follows p s₁ s₂ Q (x₁ >>= f₁) (x₂ >>= f₂) := by
  intro a' u₁ h
  obtain ⟨a, t₁, h₁, h⟩ := run_bind_eq_ok.1 h
  exact (hx a t₁ h₁).bind fun b t₂ hb => hf a t₁ b t₂ hb a' u₁ h

theorem follows_pure {a : α} {b : β} (h : Q a s₁ b s₂) : Follows p s₁ s₂ Q (pure a) (pure b) := by
  intro a' t₁ h₁
  obtain ⟨rfl, rfl⟩ := run_pure_eq_ok.1 h₁
  exact h

/-- What is refused has no value to follow. -/
theorem follows_refuse (e : SolverError) : Follows p s₁ s₂ Q (refuse e) x₂ :=
  fun _ _ h => absurd h run_refuse_ne_ok

theorem follows_refuse_bind (e : SolverError) (f : α' → Compile R α) :
    Follows p s₁ s₂ Q (refuse e >>= f) x₂ := by
  intro a t₁ h
  obtain ⟨_, _, h, -⟩ := run_bind_eq_ok.1 h
  exact absurd h run_refuse_ne_ok

/-- Outcomes that need not be the same, of which the second can be told to end well. -/
theorem follows_liftM {o₁ : Outcome α} {o₂ : Outcome β} {P : β → Prop} (h : Ends Fault.IsBreach P o₂) :
    Follows p s₁ s₂ (fun _ t₁ b t₂ => P b ∧ t₁ = s₁ ∧ t₂ = s₂) (liftM o₁) (liftM o₂) := by
  intro a t₁ h₁
  obtain ⟨-, rfl⟩ := run_liftM_eq_ok.1 h₁
  exact (runEnds_liftM h).imp fun b t₂ hb => ⟨hb.1, rfl, hb.2⟩

theorem follows_note (e₁ e₂ : Event) :
    Follows p s₁ s₂ (fun _ t₁ _ t₂ => t₁.Same p s₁ ∧ t₂.Same p s₂) (note e₁) (note e₂) := by
  intro a t₁ h₁
  obtain rfl := run_note_eq_ok.1 h₁
  exact (runEnds_note e₂).imp fun _ _ h => ⟨⟨rfl, rfl, rfl⟩, h⟩

/-- A reading gives the same both times, with all that is known of what it gives. -/
theorem Reads.follows {x : Compile R α} {P : α → Prop} (hx : Reads p x)
    (hs : s₂.known p = s₁.known p) (hP : RunEnds (fun _ => True) p s₁ (fun a _ => P a) x) :
    Follows p s₁ s₂ (fun a t₁ b t₂ => b = a ∧ P a ∧ t₁.Same p s₁ ∧ t₂.Same p s₂) x x := by
  intro a t₁ h₁
  have hfst : (x.runFrom p s₂).1 = .ok a := (hx.outcome s₁ s₂ hs).trans (congrArg Prod.fst h₁)
  rw [RunEnds, hfst]
  exact ⟨rfl, hP.of_eq_ok h₁, (Prod.mk.inj h₁).2 ▸ hx.same s₁, hx.same s₂⟩

end Compile

/-! ## Products as they are built -/

namespace Expr

/-- `ofConstant c`: the node that the builders make of a constant. -/
def ofConstant (c : Constant R) : Expr R := .node (.constant c) c.m c.n []

theorem fill_eq_ofConstant (m n : Nat) (v : R) : fill m n v = ofConstant ⟨m, n, .scalar v⟩ := rfl

theorem data_eq_ofConstant (m n : Nat) (key : String) :
    (data m n key : Expr R) = ofConstant ⟨m, n, .data key⟩ := rfl

/-- `productDim a b`: the number of elements of a product as the builder counts them. -/
def productDim (a b : Expr R) : Nat := (productSize a b).1 * (productSize a b).2

theorem productDim_of_left {a b : Expr R} (h : a.dim = 1) : productDim a b = b.dim := by
  rw [productDim, productSize, if_pos h]
  rfl

theorem productDim_of_right {a b : Expr R} (h : b.dim = 1) : productDim a b = a.dim := by
  rw [productDim, productSize]
  split
  · rename_i ha
    exact Eq.trans h ha.symm
  · rfl

/-- Factors that fit as matrices have a product of that size, also if one has one element. -/
theorem productDim_of_fits {a b : Expr R} (h : a.n = b.m) : productDim a b = a.m * b.n := by
  by_cases ha : a.dim = 1
  · have hm : a.m = 1 := Nat.eq_one_of_mul_eq_one_right ha
    have hn : b.m = 1 := h.symm.trans (Nat.eq_one_of_mul_eq_one_left ha)
    rw [productDim_of_left ha, dim, hm, hn]
  · by_cases hb : b.dim = 1
    · have hm : a.n = 1 := h.trans (Nat.eq_one_of_mul_eq_one_right hb)
      have hn : b.n = 1 := Nat.eq_one_of_mul_eq_one_left hb
      rw [productDim_of_right hb, dim, hm, hn]
    · rw [productDim, productSize, if_neg ha, if_neg hb]

/-- `Conforms a b`: the constant that becomes the operator has one element or fits the other factor as a
    matrix, and then makes as many elements as the builder says. -/
def Conforms (a b : Expr R) : Prop :=
  match a.kind with
  | .constant c => a.dim = 1 ∨ c.n = b.m ∧ b.n * c.m = productDim a b
  | _ => b.dim = 1 ∨ a.n = b.m

theorem conforms_iff_of_constant {a b : Expr R} {c : Constant R} (hc : a.kind = .constant c) :
    Conforms a b ↔ a.dim = 1 ∨ c.n = b.m ∧ b.n * c.m = productDim a b := by
  rw [Conforms, hc]

/-- A constant of the size of its node only has to fit. -/
theorem conforms_iff_of_size {a b : Expr R} {c : Constant R} (hc : a.kind = .constant c)
    (hsize : a.size = c.size) : Conforms a b ↔ a.dim = 1 ∨ a.n = b.m := by
  obtain ⟨hm, hn⟩ : a.m = c.m ∧ a.n = c.n := Prod.mk.inj hsize
  rw [conforms_iff_of_constant hc, ← hm, ← hn]
  refine or_congr_right ⟨And.left, fun h => ⟨h, ?_⟩⟩
  rw [productDim_of_fits h, Nat.mul_comm]

theorem conforms_iff_of_not_constant {a b : Expr R} (ha : ∀ c, a.kind ≠ .constant c) :
    Conforms a b ↔ b.dim = 1 ∨ a.n = b.m := by
  unfold Conforms
  split
  · rename_i c hc
    exact absurd hc (ha c)
  · rfl

end Expr

namespace Affine

open BlockAdmm.Compile

variable [Scalar R] {p : Provider R} {row id : String} {s t s₁ s₂ t₁ t₂ : Session R} {l₁ l₂ : LinearMap R}
  {m n : Nat} {e : Expr R} {c : Constant R}

/-! ## Compiling under another operator -/

omit [Scalar R] in
/-- `Alike p row m s₁ s₂`: sessions with the same data and the same columns; the form of the second is over
    one row. -/
structure Alike (p : Provider R) (row : String) (m : Nat) (s₁ s₂ : Session R) : Prop where
  known : s₂.known p = s₁.known p
  cols : s₂.form.a.colDims = s₁.form.a.colDims
  form : s₂.form.Over row m fun _ _ => True

omit [Scalar R] in
theorem Alike.of_same (h : Alike p row m s₁ s₂) (h₁ : t₁.Same p s₁) (h₂ : t₂.Same p s₂) :
    Alike p row m t₁ t₂ where
  known := h₂.known.trans (h.known.trans h₁.known.symm)
  cols := by rw [h₂.form, h₁.form, h.cols]
  form := h₂.form.symm ▸ h.form

variable (p row m) in
/-- `Transfers p row m e`: if compiling `e` has a value, it has one under every operator of `m` rows that
    fits, unless a size is too large. -/
def Transfers (e : Expr R) : Prop :=
  ∀ {l₁ l₂ : LinearMap R} {s₁ s₂ : Session R}, l₂.Shaped m e.dim → Alike p row m s₁ s₂ →
    Follows p s₁ s₂ (fun _ t₁ _ t₂ => Alike p row m t₁ t₂) (compile row e l₁) (compile row e l₂)

omit [Scalar R] in
theorem follows_count (N : Nat) :
    Follows p s₁ s₂ (fun a t₁ b t₂ => a = N ∧ b = N ∧ t₁ = s₁ ∧ t₂ = s₂) (liftM (count N))
      (liftM (count N)) := by
  intro a t₁ h₁
  obtain ⟨rfl, rfl⟩ := run_count_eq_ok h₁
  exact (runEnds_liftM (ends_count a)).imp fun b t₂ hb => ⟨rfl, hb.1, rfl, hb.2⟩

/-- A variable gets the same column both times. -/
theorem follows_addOperator (hl₁ : l₁.n = n) (hl₂ : l₂.Shaped m n) (hs : Alike p row m s₁ s₂) :
    Follows p s₁ s₂ (fun _ t₁ _ t₂ => Alike p row m t₁ t₂) (addOperator row id l₁)
      (addOperator row id l₂) := by
  intro a t₁ h₁
  obtain ⟨form, hform, rfl⟩ := run_changeForm_eq_ok.1 h₁
  obtain ⟨a, ha, hform⟩ := bind_eq_ok.1 hform
  cases pure_eq_ok.1 hform
  obtain ⟨-, hcol, -, hcols, -⟩ := BlockMatrix.insertOrAdd_eq_ok ha
  rw [hl₁] at hcol hcols
  refine (runEnds_addOperator hs.form hl₂ trivial (Or.inl (hs.cols ▸ hcol))).imp fun _ t₂ ht => ?_
  exact ⟨ht.2.trans hs.known, ht.1.2.trans (hs.cols ▸ hcols.symm), ht.1.1⟩

/-- A constant changes no column. -/
theorem follows_addOffset {v₁ v₂ : Array R} (hv : v₂.size = m) (hs : Alike p row m s₁ s₂) :
    Follows p s₁ s₂ (fun _ t₁ _ t₂ => Alike p row m t₁ t₂) (addOffset row v₁) (addOffset row v₂) := by
  intro a t₁ h₁
  obtain ⟨form, hform, rfl⟩ := run_changeForm_eq_ok.1 h₁
  obtain ⟨b, -, hform⟩ := bind_eq_ok.1 hform
  cases pure_eq_ok.1 hform
  refine (runEnds_addOffset hs.form hv).imp fun _ t₂ ht => ?_
  exact ⟨ht.2.trans hs.known, (congrArg BlockMatrix.colDims ht.1.2).trans hs.cols, ht.1.1⟩

/-- An argument under the products of the operators with that of the node. -/
theorem Transfers.through {op : LinearMap R} (ih : Transfers p row m e) (hl₂ : l₂.Shaped m n)
    (hop : op.Shaped n e.dim) (hs : Alike p row m s₁ s₂) :
    Follows p s₁ s₂ (fun _ t₁ _ t₂ => Alike p row m t₁ t₂) (do compile row e (← l₁.mul op))
      (do compile row e (← l₂.mul op)) := by
  refine (follows_liftM (hl₂.mul hop)).bind fun lop₁ t₁ lop₂ t₂ h => ?_
  obtain ⟨hlop, rfl, rfl⟩ := h
  exact ih hlop hs

/-- The addends of a sum. -/
theorem follows_compileSum {es : List (Expr R)} {size : Size} (ih : ∀ e ∈ es, Transfers p row m e)
    (hl₂ : l₂.Shaped m (size.1 * size.2)) (hs : Alike p row m s₁ s₂) :
    Follows p s₁ s₂ (fun _ t₁ _ t₂ => Alike p row m t₁ t₂) (compileSum row size es l₁)
      (compileSum row size es l₂) := by
  induction es generalizing s₁ s₂ with
  | nil =>
    rw [compileSum, compileSum]
    exact follows_pure hs
  | cons e es ihs =>
    rw [compileSum, compileSum]
    refine (follows_count e.dim).bind fun d₁ t₁ d₂ t₂ hd => ?_
    obtain ⟨rfl, rfl, rfl, rfl⟩ := hd
    have hrest {u₁ u₂ : Session R} (h : Alike p row m u₁ u₂) :=
      ihs (fun e he => ih e (List.mem_cons_of_mem _ he)) h
    dsimp only
    split
    · rename_i hdim
      have hl₂' : l₂.Shaped m e.dim := (beq_iff_eq.1 hdim).symm ▸ hl₂
      exact (ih e List.mem_cons_self hl₂' hs).bind fun _ _ _ _ h => hrest h
    · split
      · rename_i hone
        obtain ⟨hone, -⟩ := Bool.and_eq_true_iff.1 hone
        have hones := ends_ones (R := R) (E := Fault.IsBreach) (size.1 * size.2)
        refine (follows_liftM hones).bind fun op₁ t₁ op₂ t₂ h => ?_
        obtain ⟨hop, rfl, rfl⟩ := h
        refine (follows_liftM (hl₂.mul hop)).bind fun lop₁ t₁ lop₂ t₂ h => ?_
        obtain ⟨hlop, rfl, rfl⟩ := h
        have hlop : lop₂.Shaped m e.dim := (beq_iff_eq.1 hone).symm ▸ hlop
        exact (ih e List.mem_cons_self hlop hs).bind fun _ _ _ _ h => hrest h
      · exact follows_refuse_bind _ _

/-- A factor, once the other has become an operator. -/
theorem Transfers.factor {size : Size} {x : Compile R (LinearMap R)} (ih : Transfers p row m e)
    (hl₂ : l₂.Shaped m (size.1 * size.2)) (hs : Alike p row m s₁ s₂) (hx : Reads p x)
    (hop : RunEnds (fun _ => True) p s₁ (fun op _ => ∃ rows, op.Shaped rows e.dim) x) :
    Follows p s₁ s₂ (fun _ t₁ _ t₂ => Alike p row m t₁ t₂)
      (do
        let op ← x
        checkProduct size op
        compile row e (← l₁.mul op))
      (do
        let op ← x
        checkProduct size op
        compile row e (← l₂.mul op)) := by
  refine (hx.follows hs.known hop).bind fun op t₁ op₂ t₂ h => ?_
  obtain ⟨rfl, ⟨rows, hop⟩, h₁, h₂⟩ := h
  have hm : RunEnds (fun _ => True) p t₁ _ (checkProduct size op₂) :=
    runEnds_checkProduct (Or.inr fun _ => trivial)
  have halike := hs.of_same h₁ h₂
  refine ((reads_checkProduct size op₂).follows halike.known (hm.imp fun _ _ h => h.1)).bind fun _ u₁ _ u₂ h => ?_
  obtain ⟨-, hm, h₁, h₂⟩ := h
  exact ih.through hl₂ (hm.symm.trans hop.rows ▸ hop) (halike.of_same h₁ h₂)

/-- A constant that is added under one operator is added under the other. -/
theorem follows_constant {n : Nat} (hl₁ : l₁.n = n) (hl₂ : l₂.Shaped m n) (hs : Alike p row m s₁ s₂)
    (c : Constant R) :
    Follows p s₁ s₂ (fun _ t₁ _ t₂ => Alike p row m t₁ t₂)
      (do
        let v := (← dense c).data
        if v.size != l₁.n then refuse (.constantSize c.size l₁.n)
        addOffset row (← l₁.apply v))
      (do
        let v := (← dense c).data
        if v.size != l₂.n then refuse (.constantSize c.size l₂.n)
        addOffset row (← l₂.apply v)) := by
  have hdense := (reads_dense c).follows hs.known (P := fun _ => True)
    ((runEnds_dense (E := fun _ => True) (Or.inr fun _ => trivial)).imp fun _ _ _ => trivial)
  refine hdense.bind fun a t₁ a₂ t₂ ha => ?_
  obtain ⟨rfl, -, h₁, h₂⟩ := ha
  dsimp only
  split
  · exact follows_refuse_bind _ _
  · rename_i hsize
    rw [bne_iff_ne, not_not, hl₁] at hsize
    rw [if_neg (by rw [hl₂.cols, hsize]; exact fun h => bne_iff_ne.1 h rfl)]
    refine (follows_liftM (hl₂.apply hsize)).bind fun v₁ u₁ v₂ u₂ h => ?_
    obtain ⟨hv, rfl, rfl⟩ := h
    exact follows_addOffset hv (hs.of_same h₁ h₂)

/-- So is what a described map makes of an argument. -/
theorem Transfers.linearMap {d : MapDesc R} {m' n' : Nat} (ih : Transfers p row m e)
    (hl₂ : l₂.Shaped m (m' * n')) (hs : Alike p row m s₁ s₂) :
    Follows p s₁ s₂ (fun _ t₁ _ t₂ => Alike p row m t₁ t₂)
      (do
        let op ← describedMap d
        limit op.isSized
        if op.size != (m' * n', ← e.elements) then refuse (.mapSize op.size e.size)
        compile row e (← l₁.mul op))
      (do
        let op ← describedMap d
        limit op.isSized
        if op.size != (m' * n', ← e.elements) then refuse (.mapSize op.size e.size)
        compile row e (← l₂.mul op)) := by
  have hmap := (reads_describedMap d).follows hs.known (runEnds_describedMap (E := fun _ => True) d)
  refine hmap.bind fun op t₁ op₂ t₂ h => ?_
  obtain ⟨rfl, hop, h₁, h₂⟩ := h
  replace hs := hs.of_same h₁ h₂
  refine (follows_liftM (ends_limit op₂.isSized)).bind fun _ u₁ _ u₂ h => ?_
  obtain ⟨-, rfl, rfl⟩ := h
  refine (follows_count e.dim).bind fun k₁ u₁ k₂ u₂ hk => ?_
  obtain ⟨rfl, rfl, rfl, rfl⟩ := hk
  split
  · exact follows_refuse_bind _ _
  · rename_i hsize
    rw [bne_iff_ne, not_not] at hsize
    exact ih.through hl₂ ⟨hop.plain, hsize⟩ hs

/-- A node that is compiled has as many elements as the operator takes. -/
theorem width_of_run {l : LinearMap R} {u : Unit} (h : (compile row e l).runFrom p s = (.ok u, t)) :
    l.n = e.dim := by
  obtain ⟨kind, m, n, args⟩ := e
  rw [compile.eq_def] at h
  dsimp only at h
  obtain ⟨d, r, hd, h⟩ := run_bind_eq_ok.1 h
  obtain ⟨rfl, rfl⟩ := run_count_eq_ok hd
  split at h
  · obtain ⟨_, _, h, -⟩ := run_bind_eq_ok.1 h
    exact absurd h run_refuse_ne_ok
  · rename_i hn
    rw [bne_iff_ne, not_not] at hn
    exact hn

/-- Under every operator that fits, the compiler gets as far as under any other. -/
theorem transfers (p : Provider R) (row : String) (m : Nat) (e : Expr R) : Transfers p row m e := by
  induction e using Expr.induct with
  | node kind m' n' args ih =>
    intro l₁ l₂ s₁ s₂ hl₂ hs
    have hl₂ : l₂.Shaped m (m' * n') := hl₂
    rw [compile.eq_def, compile.eq_def]
    dsimp only
    refine (follows_count _).bind fun d₁ t₁ d₂ t₂ hd => ?_
    obtain ⟨rfl, rfl, rfl, rfl⟩ := hd
    split
    · exact follows_refuse_bind _ _
    rename_i hl₁
    rw [bne_iff_ne, not_not] at hl₁
    rw [if_neg (by rw [hl₂.cols, bne_self_eq_false]; exact Bool.false_ne_true)]
    refine (follows_note _ _).bind fun _ r₁ _ r₂ hr => ?_
    replace hs := hs.of_same hr.1 hr.2
    split
    · exact follows_refuse _
    · -- a sum
      intro a t₁ h₁
      obtain ⟨l', u₁, hl', h₁⟩ := run_bind_eq_ok.1 h₁
      obtain ⟨-, rfl⟩ := run_shareMap hl'
      refine (runEnds_shareMap hl₂).bind fun l₂' u₂ h => ?_
      obtain ⟨hl₂', hform, hknown⟩ := h
      refine follows_compileSum ih hl₂' ?_ a t₁ h₁
      exact ⟨hknown.trans hs.known, hform ▸ hs.cols, hform.symm ▸ hs.form⟩
    · -- a variable
      exact follows_addOperator hl₁ hl₂ hs
    · -- a constant
      exact follows_constant hl₁ hl₂ hs _
    · -- a described map
      exact Transfers.linearMap (ih _ (List.mem_singleton_self _)) hl₂ hs
    · -- a shape
      intro a t₁ h₁
      have hdim := hl₁.symm.trans (width_of_run h₁)
      exact ih _ (List.mem_singleton_self _) (hdim ▸ hl₂) hs a t₁ h₁
    · -- a sign
      intro a t₁ h₁
      have hneg : l₁.neg.n = l₁.n := congrArg Prod.snd (LinearMap.size_scaleBy (-1) l₁)
      have hdim := (hneg.trans hl₁).symm.trans (width_of_run h₁)
      exact ih _ (List.mem_singleton_self _) (hdim ▸ hl₂.neg) hs a t₁ h₁
    · -- a product
      rename_i a b
      split
      · rename_i c ha
        refine Transfers.factor (ih b (List.mem_cons_of_mem a List.mem_cons_self)) hl₂ hs
          (reads_leftFactor c a.size b) ?_
        refine (runEnds_leftFactor (fun _ _ => trivial) (Or.inr fun _ => trivial)).imp fun op _ hop => ?_
        exact exists_shaped_of_factor hop
      · rename_i c hb ha
        refine Transfers.factor (ih a List.mem_cons_self) hl₂ hs (reads_rightFactor c b.size a) ?_
        refine (runEnds_rightFactor (fun _ _ => trivial) (Or.inr fun _ => trivial)).imp fun op _ hop => ?_
        exact exists_shaped_of_factor hop
      · exact follows_refuse _
    all_goals exact follows_refuse _

/-! ## Factors -/

variable (p row) in
/-- `Goes p row data e`: from nothing and under an operator that fits, the expression is compiled unless a
    size is too large. -/
def Goes (data : Provider R) (e : Expr R) : Prop :=
  ∀ {m : Nat} {l : LinearMap R} {s : Session R}, l.Shaped m e.dim → s.form = .zero → s.known p = data →
    RunEnds Fault.IsBreach p s (fun _ t => t.form.Over row m (fun _ _ => True) ∧ t.known p = data)
      (compile row e l)

/-- An expression that can be built was compiled. -/
theorem run_compile_of_build {f : AffineForm R} (h : (build e row).runFrom p s = (.ok f, t)) :
    ∃ u, (compile row e (.identity e.dim)).runFrom p { s with form := .zero } = (.ok (), u) := by
  obtain ⟨_, r, hr, h⟩ := run_bind_eq_ok.1 h
  obtain rfl := run_modify_eq_ok.1 hr
  obtain ⟨d, r, hd, h⟩ := run_bind_eq_ok.1 h
  obtain ⟨rfl, rfl⟩ := run_count_eq_ok hd
  obtain ⟨_, r, hr, -⟩ := run_bind_eq_ok.1 h
  exact ⟨r, hr⟩

theorem goes_of_build {f : AffineForm R} (h : (build e row).runFrom p s = (.ok f, t)) :
    Goes p row (s.known p) e := by
  intro m l s' hl hform hknown
  obtain ⟨u, hu⟩ := run_compile_of_build h
  have hid : (LinearMap.identity e.dim : LinearMap R).Shaped e.dim e.dim := ⟨trivial, rfl⟩
  have hkeeps : RunEnds (fun _ => True) p { s with form := .zero } _ (compile row e (.identity e.dim)) :=
    keeps (fun _ _ _ _ => trivial) (fun _ _ _ => trivial) hid
      (AffineForm.over_zero row e.dim fun _ _ => True) rfl
  have hu' : u.known p = s.known p := (hkeeps.of_eq_ok hu).2
  have halike : Alike p row m { s with form := .zero } s' :=
    ⟨hknown, hform ▸ rfl, hform ▸ AffineForm.over_zero row m _⟩
  exact (transfers p row m e hl halike () u hu).imp fun _ t ht => ⟨ht.form, ht.known.trans hu'⟩

/-- A constant whose data are there is compiled. -/
theorem goes_ofConstant {data : Provider R} (hc : c.Resolved data) : Goes p row data (.ofConstant c) := by
  intro m l s hl hform hknown
  rw [Expr.ofConstant, compile.eq_def]
  dsimp only
  refine (runEnds_liftM (ends_count _)).bind fun d t hd => ?_
  obtain ⟨rfl, rfl⟩ := hd
  have hdim : (Expr.ofConstant c).dim = c.m * c.n := rfl
  rw [if_neg (by rw [hl.cols, hdim]; exact fun h => bne_iff_ne.1 h rfl)]
  refine (runEnds_note _).bind fun _ r hr => ?_
  have hdense := (reads_dense c).ends (runEnds_dense (E := Fault.IsBreach) (s := r)
    (Or.inl (hr.known ▸ hknown ▸ hc)))
  refine hdense.bind fun a u ha => ?_
  have hsize : a.data.size = l.n := by
    rw [a.size_data, hl.cols, hdim]
    exact congrArg (fun s : Size => s.1 * s.2) ha.1
  rw [if_neg (by rw [hsize]; exact fun h => bne_iff_ne.1 h rfl)]
  refine (runEnds_liftM (hl.apply (hsize.trans hl.cols))).bind fun v w hv => ?_
  obtain ⟨hv, rfl⟩ := hv
  have hover : w.form.Over row m fun _ _ => True := by
    rw [ha.2.form, hr.form, hform]
    exact AffineForm.over_zero row m _
  refine (runEnds_addOffset hover hv).imp fun _ t ht => ⟨ht.1.1, ?_⟩
  exact ht.2.trans (ha.2.known.trans (hr.known.trans hknown))

/-- A constant that was compiled has its data, and as many entries as its node has elements. -/
theorem resolved_of_build {f : AffineForm R} (h : (build e row).runFrom p s = (.ok f, t))
    (hc : e.kind = .constant c) : c.Resolved (s.known p) ∧ c.m * c.n = e.dim := by
  obtain ⟨u, hu⟩ := run_compile_of_build h
  obtain ⟨kind, m, n, args⟩ := e
  obtain rfl : kind = .constant c := hc
  rw [compile.eq_def] at hu
  dsimp only at hu
  obtain ⟨d, r, hd, hu⟩ := run_bind_eq_ok.1 hu
  obtain ⟨rfl, rfl⟩ := run_count_eq_ok hd
  split at hu
  · obtain ⟨_, _, hu, -⟩ := run_bind_eq_ok.1 hu
    exact absurd hu run_refuse_ne_ok
  obtain ⟨_, r, hr, hu⟩ := run_bind_eq_ok.1 hu
  obtain rfl := run_note_eq_ok.1 hr
  obtain ⟨a, r, ha, hu⟩ := run_bind_eq_ok.1 hu
  split at hu
  · obtain ⟨_, _, hu, -⟩ := run_bind_eq_ok.1 hu
    exact absurd hu run_refuse_ne_ok
  · rename_i hsize
    rw [bne_iff_ne, not_not, a.size_data] at hsize
    have hasize := (runEnds_dense (E := fun _ => True) (Or.inr fun _ => trivial)).of_eq_ok ha
    refine ⟨fun key hv => ?_, (congrArg (fun s : Size => s.1 * s.2) hasize).symm.trans hsize⟩
    rw [dense, hv] at ha
    obtain ⟨d, r, hd, -⟩ := run_bind_eq_ok.1 ha
    obtain ⟨-, hknown, hsize⟩ := run_sizedData hd
    exact ⟨d, hknown, hsize⟩

/-- `Factors p row s a b`: one of the factors is a constant whose data are there, as the builders make it, and
    the other can be built. -/
def Factors (p : Provider R) (row : String) (s : Session R) (a b : Expr R) : Prop :=
  (∃ c f t, a = .ofConstant c ∧ c.Resolved (s.known p) ∧ (build b row).runFrom p s = (.ok f, t)) ∨
    ∃ c f t, b = .ofConstant c ∧ c.Resolved (s.known p) ∧ (build a row).runFrom p s = (.ok f, t)

/-- The constant that becomes the operator has its data, and the other factor is compiled. -/
theorem Factors.left {a b : Expr R} (h : Factors p row s a b) (hc : a.kind = .constant c) :
    (c.Resolved (s.known p) ∧ c.m * c.n = a.dim) ∧ Goes p row (s.known p) b := by
  rcases h with ⟨c', f, t, rfl, hres, hb⟩ | ⟨c', f, t, rfl, hres, ha⟩
  · cases hc
    exact ⟨⟨hres, rfl⟩, goes_of_build hb⟩
  · exact ⟨resolved_of_build ha hc, goes_ofConstant hres⟩

theorem Factors.right {a b : Expr R} (h : Factors p row s a b) (ha : ∀ c, a.kind ≠ .constant c) :
    ∃ c, b = .ofConstant c ∧ c.Resolved (s.known p) ∧ Goes p row (s.known p) a := by
  rcases h with ⟨c, f, t, rfl, -, -⟩ | ⟨c, f, t, hb, hres, h⟩
  · exact absurd rfl (ha c)
  · exact ⟨c, hb, hres, goes_of_build h⟩

/-- The other factor, once the constant has become an operator. -/
theorem Goes.factor {data : Provider R} {size : Size} {x : Compile R (LinearMap R)} {k : Nat}
    (he : Goes p row data e) (hs : s.form = .zero) (hdata : s.known p = data) {l : LinearMap R}
    (hl : l.Shaped k (size.1 * size.2)) (hx : Reads p x)
    (hop : RunEnds Fault.IsBreach p s (fun op _ => op.Shaped (size.1 * size.2) e.dim) x) :
    RunEnds Fault.IsBreach p s (fun _ t => t.form.Over row k (fun _ _ => True) ∧ t.known p = data) (do
      let op ← x
      checkProduct size op
      compile row e (← l.mul op)) := by
  refine (hx.ends hop).bind fun op t hop => ?_
  obtain ⟨hop, hsame⟩ := hop
  refine (runEnds_checkProduct (Or.inl hop.rows)).bind fun _ u hu => ?_
  obtain ⟨-, rfl⟩ := hu
  refine (runEnds_liftM (hl.mul hop)).bind fun lop v hlop => ?_
  obtain ⟨hlop, rfl⟩ := hlop
  exact he hlop (hsame.form.trans hs) (hsame.known.trans hdata)

/-- A product that conforms is compiled, unless a size is too large. -/
theorem goes_product {a b : Expr R} (h : Factors p row s a b) (hab : Expr.Conforms a b)
    (hsize : m * n = Expr.productDim a b) : Goes p row (s.known p) (.node .multiply m n [a, b]) := by
  intro k l s' hl hform hknown
  have hl : l.Shaped k ((m, n).1 * (m, n).2) := hl
  rw [compile.eq_def]
  dsimp only
  refine (runEnds_liftM (ends_count _)).bind fun d t hd => ?_
  obtain ⟨rfl, rfl⟩ := hd
  rw [if_neg (by rw [hl.cols]; exact fun h => bne_iff_ne.1 h rfl)]
  refine (runEnds_note _).bind fun _ r hr => ?_
  replace hform := hr.form.trans hform
  replace hknown := hr.known.trans hknown
  split
  · rename_i c ha
    obtain ⟨⟨hres, hdim⟩, hb⟩ := h.left ha
    rw [Expr.conforms_iff_of_constant ha, ← hsize] at hab
    have hfit : c.Resolved (r.known p) ∧ (a.size.1 * a.size.2 = 1 ∨ c.n = b.m) :=
      ⟨hknown.symm ▸ hres, hab.imp id And.left⟩
    have hfull (hone : a.size.1 * a.size.2 = 1) (hc : c.Hollow (r.known p)) : Fault.IsBreach .misuse :=
      absurd (hdim.trans hone) (hc.1 ▸ Nat.zero_ne_one)
    refine hb.factor hform hknown hl (reads_leftFactor c a.size b) ?_
    refine (runEnds_leftFactor hfull (Or.inl hfit)).imp fun op _ hop => ?_
    rcases hop with ⟨hone, hop⟩ | ⟨hone, -, hop⟩
    · exact (hsize.trans (Expr.productDim_of_left hone)) ▸ hop
    · exact (hab.resolve_left hone).2 ▸ hop
  · rename_i c hb ha
    obtain ⟨c', rfl, hres, hrest⟩ := h.right ha
    cases hb
    rw [Expr.conforms_iff_of_not_constant ha] at hab
    have hfit : c.Resolved (r.known p) ∧ ((Expr.ofConstant c).size.1 * (Expr.ofConstant c).size.2 = 1 ∨
        a.n = c.m) := ⟨hknown.symm ▸ hres, hab⟩
    have hfull (hone : (Expr.ofConstant c).size.1 * (Expr.ofConstant c).size.2 = 1)
        (hc : c.Hollow (r.known p)) : Fault.IsBreach .misuse := absurd hone (hc.1 ▸ Nat.zero_ne_one)
    refine hrest.factor hform hknown hl (reads_rightFactor c _ a) ?_
    refine (runEnds_rightFactor hfull (Or.inl hfit)).imp fun op _ hop => ?_
    rcases hop with ⟨hone, hop⟩ | ⟨hone, hfit, hop⟩
    · exact (hsize.trans (Expr.productDim_of_right hone)) ▸ hop
    · exact (hsize.trans ((Expr.productDim_of_fits hfit).trans (Nat.mul_comm ..))) ▸ hop
  · rename_i ha hb
    obtain ⟨c, rfl, -, -⟩ := h.right ha
    exact absurd rfl (hb c)

/-- In a product that was compiled one factor is a constant, and has one element or fits. -/
theorem fits_of_build {a b : Expr R} {f : AffineForm R}
    (h : (build (.node .multiply m n [a, b]) row).runFrom p s = (.ok f, t)) :
    (∃ c, a.kind = .constant c ∧ (a.dim = 1 ∨ c.n = b.m ∧ b.n * c.m = m * n)) ∨
      (∀ c, a.kind ≠ .constant c) ∧ ∃ c, b.kind = .constant c ∧ (b.dim = 1 ∨ a.n = c.m) := by
  obtain ⟨u, hu⟩ := run_compile_of_build h
  rw [compile.eq_def] at hu
  dsimp only at hu
  obtain ⟨d, r, hd, hu⟩ := run_bind_eq_ok.1 hu
  obtain ⟨rfl, rfl⟩ := run_count_eq_ok hd
  split at hu
  · obtain ⟨_, _, hu, -⟩ := run_bind_eq_ok.1 hu
    exact absurd hu run_refuse_ne_ok
  obtain ⟨_, r, hr, hu⟩ := run_bind_eq_ok.1 hu
  obtain rfl := run_note_eq_ok.1 hr
  split at hu
  · rename_i c ha
    obtain ⟨op, r, hop, hu⟩ := run_bind_eq_ok.1 hu
    obtain ⟨_, r, hcheck, -⟩ := run_bind_eq_ok.1 hu
    have hm := (runEnds_checkProduct (E := fun _ => True) (Or.inr fun _ => trivial)).of_eq_ok hcheck
    have hop := (runEnds_leftFactor (E := fun _ => True) (fun _ _ => trivial)
      (Or.inr fun _ => trivial)).of_eq_ok hop
    exact Or.inl ⟨c, ha, hop.imp And.left fun hop => ⟨hop.2.1, hop.2.2.rows.symm.trans hm.1⟩⟩
  · rename_i c hb ha
    obtain ⟨op, r, hop, -⟩ := run_bind_eq_ok.1 hu
    have hop := (runEnds_rightFactor (E := fun _ => True) (fun _ _ => trivial)
      (Or.inr fun _ => trivial)).of_eq_ok hop
    exact Or.inr ⟨ha, c, hb, hop.imp And.left fun hop => hop.2.1⟩
  · exact absurd hu run_refuse_ne_ok

/-- A product of factors as they are built conforms if it is compiled. -/
theorem conforms_of_build {a b : Expr R} (h : Factors p row s a b) (hsize : m * n = Expr.productDim a b)
    {f : AffineForm R} (hrun : (build (.node .multiply m n [a, b]) row).runFrom p s = (.ok f, t)) :
    Expr.Conforms a b := by
  rcases fits_of_build hrun with ⟨c, ha, hfit⟩ | ⟨ha, c, hb, hfit⟩
  · rw [Expr.conforms_iff_of_constant ha, ← hsize]
    exact hfit
  · obtain ⟨c', rfl, -, -⟩ := h.right ha
    cases hb
    exact (Expr.conforms_iff_of_not_constant ha).2 hfit

end Affine

/-! ## Values -/

section Values

variable {R : Type} [ExactScalar R]

/-- `builtEntry a b x y i`: entry `i` of the product of factors with the values `x` and `y` as the builder
    reads it: any factor of one element scales. -/
def Expr.builtEntry (a b : Expr R) (x y : Nat → R) (i : Nat) : R :=
  if a.dim = 1 then x 0 * y i
  else if b.dim = 1 then y 0 * x i
  else ∑ t ∈ Finset.range a.n, x (t * a.m + i % a.m) * y (i / a.m * b.m + t)

/-- Where the factors fit, or the one that scales is a constant, this is the value of the product. -/
theorem Expr.productEntry_eq_builtEntry {a b : Expr R}
    (h : a.isScale = true ∨ b.isScale = true ∨ a.n = b.m) {x y : Nat → R} {i : Nat}
    (hi : i < productDim a b) : productEntry a b x y i = builtEntry a b x y i := by
  rw [productEntry, builtEntry]
  by_cases hscale : a.isScale = true
  · rw [if_pos hscale, if_pos (isScale_iff.1 hscale).1]
  rw [if_neg hscale]
  replace h := h.resolve_left hscale
  by_cases ha : a.dim = 1
  · rw [if_pos ha]
    rw [productDim_of_left ha] at hi
    split
    · -- both have one element, and it does not matter which one scales
      rename_i hb
      rw [(isScale_iff.1 hb).1, Nat.lt_one_iff] at hi
      rw [hi, mul_comm]
    · rename_i hb
      have hn : a.n = 1 := Nat.eq_one_of_mul_eq_one_left ha
      have hm : a.m = 1 := Nat.eq_one_of_mul_eq_one_right ha
      have hbm : b.m = 1 := (h.resolve_left hb).symm.trans hn
      rw [hn, hm, hbm, Finset.sum_range_one, Nat.mod_one, Nat.div_one, Nat.mul_one, Nat.add_zero,
        Nat.add_zero, Nat.mul_one]
  rw [if_neg ha]
  by_cases hb : b.dim = 1
  · rw [if_pos hb]
    rw [productDim_of_right hb] at hi
    split
    · rfl
    · rename_i hscale
      have hbm : b.m = 1 := Nat.eq_one_of_mul_eq_one_right hb
      have hn : a.n = 1 := (h.resolve_left hscale).trans hbm
      rw [dim, hn, Nat.mul_one] at hi
      rw [hn, hbm, Finset.sum_range_one, Nat.mod_eq_of_lt hi, Nat.div_eq_of_lt hi, mul_comm, Nat.zero_mul,
        Nat.zero_add, Nat.zero_mul, Nat.zero_add]
  · rw [if_neg hb, if_neg fun h => hb (isScale_iff.1 h).1]

namespace Affine

open BlockAdmm.Compile

/-- What is compiled of a product has the value that the builder gives it. -/
theorem ends_apply_product {p : Provider R} {row : String} {s t : Session R} {a b : Expr R} {m n : Nat}
    (ha : a.ConstantsSized) (hb : b.ConstantsSized) (hsize : m * n = Expr.productDim a b) {f : AffineForm R}
    (h : (build (.node .multiply m n [a, b]) row).runFrom p s = (.ok f, t)) {x : BlockVector R}
    (hx : x.Covers (.node .multiply m n [a, b])) :
    Ends Fault.IsBreach (fun y => ∀ i, i < m * n → y.coord row i + f.b.coord row i
      = Expr.builtEntry a b (a.value (s.known p) x.coord) (b.value (s.known p) x.coord) i)
      (f.a.apply x) := by
  have hsized : (Expr.node .multiply m n [a, b]).ConstantsSized := by
    intro g hg c hc
    rw [Expr.nodes, List.mem_cons, Expr.mem_nodesList] at hg
    rcases hg with rfl | ⟨e, he, hg⟩
    · cases hc
    · rcases List.mem_pair.1 he with rfl | rfl
      · exact ha g hg c hc
      · exact hb g hg c hc
  have hfit : a.isScale = true ∨ b.isScale = true ∨ a.n = b.m := by
    rcases fits_of_build h with ⟨c, hc, hfit⟩ | ⟨-, c, hc, hfit⟩
    · rcases hfit with hone | ⟨hfit, -⟩
      · exact Or.inl (Expr.isScale_iff.2 ⟨hone, c, hc⟩)
      · exact Or.inr (Or.inr ((Prod.mk.inj (ha.constant hc)).2.trans hfit))
    · rcases hfit with hone | hfit
      · exact Or.inr (Or.inl (Expr.isScale_iff.2 ⟨hone, c, hc⟩))
      · exact Or.inr (Or.inr (hfit.trans (Prod.mk.inj (hb.constant hc)).1.symm))
  obtain ⟨v, K, -, -, -, hbuilt⟩ := run_build hsized h (w := ⟨s.nextMark, fun _ _ _ => 0⟩) rfl
  have hok := hbuilt.okIff_apply hx
  by_cases hfits : ∀ blk ∈ f.a.toList, blk.map.Fits
  · obtain ⟨y, hy⟩ := hok.ok hfits
    rw [hy]
    intro i hi
    rw [hbuilt.value_of_apply hy hi, Expr.value]
    exact Expr.productEntry_eq_builtEntry hfit (hsize ▸ hi)
  · rw [hok.breach hfits]
    rfl

end Affine

end Values

namespace Affine

open BlockAdmm.Compile

theorem productDim_of_product {a b e : Expr R} (h : Expr.product a b = .ok e) :
    ∃ m n, e = .node .multiply m n [a, b] ∧ m * n = Expr.productDim a b := by
  obtain ⟨_, -, h⟩ := bind_eq_ok.1 h
  exact ⟨_, _, (pure_eq_ok.1 h).symm, rfl⟩

/-- A product that the builder made of a constant and an expression that can be built is compiled just if
    the factors conform, unless a size is too large.  What is compiled has the value that the builder gives
    the product: a factor of one element scales the other, and other factors are multiplied as matrices. -/
theorem build_product (row : String) :
    (∀ {R : Type} [Scalar R] (p : Provider R) (s : Session R) (a b e : Expr R),
      Factors p row s a b → Expr.product a b = .ok e →
      ((build e row).runFrom p s).1 = .error .breach ∨
        ((∃ f, ((build e row).runFrom p s).1 = .ok f) ↔ Expr.Conforms a b)) ∧
    ∀ {R : Type} [ExactScalar R] (p : Provider R) (s : Session R) (a b e : Expr R),
      a.ConstantsSized → b.ConstantsSized → Expr.product a b = .ok e →
      ∀ f, ((build e row).runFrom p s).1 = .ok f → ∀ x : BlockVector R, x.Covers e →
        Ends Fault.IsBreach (fun y => ∀ i, i < e.dim → y.coord row i + f.b.coord row i
          = Expr.builtEntry a b (a.value (s.known p) x.coord) (b.value (s.known p) x.coord) i)
          (f.a.apply x) := by
  constructor
  · intro R _ p s a b e h he
    obtain ⟨m, n, rfl, hsize⟩ := productDim_of_product he
    refine or_iff_not_imp_left.2 fun hbreach => ⟨fun ⟨f, hf⟩ => ?_, fun hab => ?_⟩
    · exact conforms_of_build h hsize (Prod.ext hf rfl)
    · have hgoes := runEnds_build_of_compile (goes_product h hab hsize ⟨trivial, rfl⟩ rfl rfl)
      rw [RunEnds] at hgoes
      cases hrun : ((build (.node .multiply m n [a, b]) row).runFrom p s).1 with
      | ok f => exact ⟨f, rfl⟩
      | error g =>
        have hg : Fault.IsBreach g := hgoes.of_eq_error hrun
        rw [Fault.IsBreach] at hg
        exact absurd (hg ▸ hrun) hbreach
  · intro R _ p s a b e ha hb he f hf x hx
    obtain ⟨m, n, rfl, hsize⟩ := productDim_of_product he
    exact ends_apply_product ha hb hsize (Prod.ext hf rfl) hx

/-- A matrix from the provider times a variable. -/
def matrixProduct : Expr ℚ := .node .multiply 2 1 [.data 2 2 "A", .var 2 1 "x"]

theorem build_product_matrixProduct :
    Expr.product (.data 2 2 "A") (.var 2 1 "x") = .ok matrixProduct ∧
      Factors productData "r" (Session.start .zero 0) (.data 2 2 "A") (.var 2 1 "x" : Expr ℚ) ∧
      ∃ f, ((build matrixProduct "r").runFrom productData (Session.start .zero 0)).1 = .ok f ∧
        Ends Fault.IsBreach (fun y => ∀ i, i < 2 → y.coord "r" i + f.b.coord "r" i
          = Expr.builtEntry (.data 2 2 "A") (.var 2 1 "x")
            ((Expr.data 2 2 "A").value productData (BlockVector.ofList [("x", #[1, 1])]).coord)
            ((Expr.var 2 1 "x").value productData (BlockVector.ofList [("x", #[1, 1])]).coord) i)
          (f.a.apply (.ofList [("x", #[1, 1])])) := by
  obtain ⟨g, hg⟩ := exists_eq_ok
    (x := ((build (Expr.var 2 1 "x" : Expr ℚ) "r").runFrom productData (Session.start .zero 0)).1)
    (by decide +kernel)
  have hfactors : Factors productData "r" (Session.start .zero 0) (.data 2 2 "A") (.var 2 1 "x" : Expr ℚ) := by
    refine Or.inl ⟨⟨2, 2, .data "A"⟩, g, _, rfl, fun key hkey => ?_, Prod.ext hg rfl⟩
    cases hkey
    exact ⟨_, rfl, rfl⟩
  have hconforms : Expr.Conforms (.data 2 2 "A" : Expr ℚ) (.var 2 1 "x") :=
    (Expr.conforms_iff_of_size rfl rfl).2 (Or.inr rfl)
  have hcovers : (BlockVector.ofList [("x", (#[1, 1] : Array ℚ))]).Covers matrixProduct := by
    intro g hg id hid
    simp only [matrixProduct, Expr.data, Expr.var, Expr.nodes, Expr.nodesList, List.append_nil,
      List.nil_append, List.cons_append, List.mem_cons, List.not_mem_nil, or_false] at hg
    rcases hg with rfl | rfl | rfl <;> cases hid
    rfl
  obtain ⟨f, hf⟩ := exists_eq_ok
    (x := ((build matrixProduct "r").runFrom productData (Session.start .zero 0)).1) (by decide +kernel)
  obtain ⟨f, hf⟩ := (((build_product "r").1 productData (Session.start .zero 0) (.data 2 2 "A")
    (.var 2 1 "x") matrixProduct hfactors rfl).resolve_left fun h => by cases hf.symm.trans h).2 hconforms
  exact ⟨rfl, hfactors, f, hf,
    (build_product "r").2 productData _ _ _ matrixProduct (by decide) (by decide) rfl f hf _ hcovers⟩

/-- A variable of one element times a matrix. -/
def scaledMatrix : Expr ℚ := .node .multiply 2 2 [.var 1 1 "x", .data 2 2 "A"]

/-- The product is as the builder makes it, the matrix is there, the variable can be built, and one of the
    factors has one element; and the product is refused. -/
theorem build_scaledMatrix :
    Expr.product (.var 1 1 "x") (.data 2 2 "A") = .ok scaledMatrix ∧
      Factors productData "r" (Session.start .zero 0) (.var 1 1 "x") (.data 2 2 "A" : Expr ℚ) ∧
      ((build scaledMatrix "r").runFrom productData (Session.start .zero 0)).1
        = .error (.failed (.factorSize (1, 1) (2, 2))) := by
  obtain ⟨g, hg⟩ := exists_eq_ok
    (x := ((build (Expr.var 1 1 "x" : Expr ℚ) "r").runFrom productData (Session.start .zero 0)).1)
    (by decide +kernel)
  refine ⟨rfl, Or.inr ⟨⟨2, 2, .data "A"⟩, g, _, rfl, fun key hkey => ?_, Prod.ext hg rfl⟩, rfl⟩
  cases hkey
  exact ⟨_, rfl, rfl⟩

end Affine

end BlockAdmm
