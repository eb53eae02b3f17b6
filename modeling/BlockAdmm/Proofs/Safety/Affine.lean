/-
  The compiler on any tree.

  A tree need not make sense: sizes of nodes may contradict what the nodes are, and it is for the compiler
  to find that out.  It compares the operator in front of a node with the size of the node, and what it
  makes of a node with what the arguments take, so that every promise behind these comparisons is kept
  and the outcome is a form, a reported error or a breach (`runEnds_compile`).  The one thing it does not
  compare is the size of the node of a constant with that of the constant itself.  A product that is scaled
  by a constant takes the number of elements from the node and the first entry from the data, and if
  the data have none, a promise is broken (`build_reports`, `build_hollowProduct`).
-/
import BlockAdmm.Proofs.Safety.Block
import BlockAdmm.Proofs.Safety.Compile
import BlockAdmm.Affine

namespace BlockAdmm

open Scalar

variable {R : Type} [Scalar R]

/-! ## Hollow products -/

namespace Expr

omit [Scalar R] in
/-- `scaling? a b`: the constant that scales the other factor, if one of the two does. -/
def scaling? (a b : Expr R) : Option (Constant R) :=
  match a.kind, b.kind with
  | .constant c, _ => if a.dim = 1 then some c else none
  | _, .constant c => if b.dim = 1 then some c else none
  | _, _ => none

omit [Scalar R] in
theorem scaling?_eq_some {a b : Expr R} {c : Constant R} : scaling? a b = some c ↔
    (a.kind = .constant c ∧ a.dim = 1) ∨
      (∀ c, a.kind ≠ .constant c) ∧ b.kind = .constant c ∧ b.dim = 1 := by
  unfold scaling?
  split
  · rename_i c' ha
    have hnot : ¬ ∀ c, a.kind ≠ .constant c := fun h => h c' ha
    rw [ha, ExprKind.constant.injEq]
    split <;> simp_all
  · rename_i c' hb ha
    rw [hb, ExprKind.constant.injEq]
    split <;> simp_all
  · rename_i ha hb
    simp_all

omit [Scalar R] in
/-- `e.Hollow data`: a product that is scaled by a constant without entries. -/
def Hollow (data : Provider R) : Expr R → Prop
  | .node .multiply _ _ [a, b] => ∃ c, scaling? a b = some c ∧ c.Hollow data
  | _ => False

omit [Scalar R] in
/-- A constant that has the size of its node scales only if it has an entry. -/
theorem ConstantsSized.not_hollow {e f : Expr R} (he : e.ConstantsSized) (hf : f ∈ e.nodes)
    (data : Provider R) : ¬ f.Hollow data := by
  obtain ⟨kind, m, n, args⟩ := f
  intro hhollow
  unfold Hollow at hhollow
  split at hhollow
  · rename_i a b heq
    cases heq
    obtain ⟨c, hc, hempty, -⟩ := hhollow
    -- the factor is a node of the tree, so its size is that of the constant
    have hfactor {g : Expr R} (hg : g ∈ [a, b]) (hk : g.kind = .constant c) : g.dim = c.m * c.n :=
      congrArg (fun s : Size => s.1 * s.2) (((he.of_mem hf).arg hg).constant hk)
    rcases scaling?_eq_some.1 hc with ⟨hk, hone⟩ | ⟨-, hk, hone⟩
    · have := hfactor List.mem_cons_self hk
      omega
    · have := hfactor (List.mem_cons_of_mem a List.mem_cons_self) hk
      omega
  · exact hhollow

end Expr

omit [Scalar R] in
/-- `e.Mentions id n`: a variable of the tree has the name and `n` elements. -/
def Expr.Mentions (e : Expr R) (id : String) (n : Nat) : Prop :=
  ∃ v ∈ e.nodes, v.kind = .variable id ∧ v.dim = n

/-! ## Forms of one row -/

omit [Scalar R] in
/-- `f.Over row m V`: the form has no other row than the given one, which has `m` entries, and columns
    as `V` allows. -/
structure AffineForm.Over (row : String) (m : Nat) (V : String → Nat → Prop) (f : AffineForm R) :
    Prop where
  sized : f.a.Sized
  rows : ∀ r n, f.a.rowDims.get? r = some n → r = row ∧ n = m
  cols : ∀ c n, f.a.colDims.get? c = some n → V c n
  offset : ∀ r n, f.b.sizeAt? r = some n → r = row ∧ n = m

omit [Scalar R] in
theorem AffineForm.over_zero (row : String) (m : Nat) (V : String → Nat → Prop) :
    (AffineForm.zero : AffineForm R).Over row m V := ⟨BlockMatrix.sized_empty, nofun, nofun, nofun⟩

namespace Affine

open BlockAdmm.Compile

variable {E : Fault → Prop} {p data : Provider R} {row id : String} {s t : Session R}
  {l op : LinearMap R} {m n : Nat} {V : String → Nat → Prop} {e : Expr R} {c : Constant R}

/-! ## Steps -/

omit [Scalar R] in
theorem runEnds_changeForm {f : AffineForm R → Outcome (AffineForm R)} {Q : AffineForm R → Prop}
    (h : Ends E Q (f s.form)) :
    RunEnds E p s (fun _ t => Q t.form ∧ t.known p = s.known p) (changeForm f) := by
  refine runEnds_get.bind fun r t hr => ?_
  obtain ⟨rfl, rfl⟩ := hr
  refine (runEnds_liftM h).bind fun form t ht => ?_
  obtain ⟨hform, rfl⟩ := ht
  exact ⟨hform, rfl⟩

omit [Scalar R] in
theorem runEnds_shareMap (hl : l.Shaped m n) :
    RunEnds E p s (fun l' t => l'.Shaped m n ∧ t.form = s.form ∧ t.known p = s.known p) (shareMap l) :=
  ⟨hl.share _, rfl, rfl⟩

/-- A variable that has another size than before is the only thing that can go wrong. -/
theorem runEnds_addOperator [Limits E] (hs : s.form.Over row m V) (hl : l.Shaped m n) (hV : V id n)
    (hE : (∀ d, s.form.a.colDims.get? id = some d → d = n) ∨ ∀ e, E (.failed e)) :
    RunEnds E p s (fun _ t => (t.form.Over row m V ∧
      t.form.a.colDims = s.form.a.colDims.insert id n) ∧ t.known p = s.known p)
      (addOperator row id l) := by
  refine runEnds_changeForm
    (Q := fun f => f.Over row m V ∧ f.a.colDims = s.form.a.colDims.insert id n) ?_
  refine (hs.sized.insertOrAdd hl.plain (Or.inl fun d hd => ?_) (hl.cols.symm ▸ hE)).bind fun a ha => ?_
  · rw [hl.rows, (hs.rows row d hd).2]
  obtain ⟨hsized, hrows, hcols⟩ := ha
  rw [hl.rows] at hrows
  rw [hl.cols] at hcols
  refine ends_ok ⟨⟨hsized, fun r k hk => ?_, fun v k hk => ?_, hs.offset⟩, hcols⟩
  · have hk : a.rowDims.get? r = some k := hk
    rw [hrows, Keyed.get?_insert] at hk
    split at hk
    · rename_i hr
      exact ⟨hr.symm, (Option.some.inj hk).symm⟩
    · exact hs.rows r k hk
  · have hk : a.colDims.get? v = some k := hk
    rw [hcols, Keyed.get?_insert] at hk
    split at hk
    · rename_i hid
      rw [← hid, ← Option.some.inj hk]
      exact hV
    · exact hs.cols v k hk

theorem runEnds_addOffset {v : Array R} (hs : s.form.Over row m V) (hv : v.size = m) :
    RunEnds E p s (fun _ t => (t.form.Over row m V ∧ t.form.a = s.form.a) ∧ t.known p = s.known p)
      (addOffset row v) := by
  refine runEnds_changeForm (Q := fun f => f.Over row m V ∧ f.a = s.form.a) ?_
  have hfit : ∀ n, s.form.b.sizeAt? row = some n → n = v.size := fun n hn =>
    (hs.offset row n hn).2.trans hv.symm
  refine (BlockVector.ends_increase 1 (Or.inl hfit)).bind fun b hb => ends_ok ⟨⟨hs.sized, hs.rows, hs.cols,
    fun r k hk => ?_⟩, rfl⟩
  have hk : b.sizeAt? r = some k := hk
  rw [hb] at hk
  split at hk
  · rename_i hr
    exact ⟨hr.symm, (Option.some.inj hk).symm.trans hv⟩
  · exact hs.offset r k hk

theorem ends_ones [Limits E] (k : Nat) :
    Ends E (fun l => l.Shaped k 1) (ones k : Outcome (LinearMap R)) :=
  (Dense.ends_make (allows_of_limits _) _).bind fun _ ha => ends_ok ⟨trivial, ha⟩

/-! ## Factors -/

section Factors

variable [Limits E]

omit [Scalar R] in
theorem runEnds_elements (e : Expr R) : RunEnds E p s (fun d t => d = e.dim ∧ t = s) e.elements :=
  runEnds_liftM (ends_count _)

theorem runEnds_scaleFactor (h : c.Hollow (s.known p) → E .misuse)
    (hE : c.Resolved (s.known p) ∨ ∀ e, E (.failed e)) :
    RunEnds E p s (fun op _ => op.Shaped e.dim e.dim)
      (do return .ofScalar (← e.elements) (← firstEntry c) : Compile R (LinearMap R)) := by
  refine (runEnds_elements e).bind fun d t hd => ?_
  obtain ⟨rfl, rfl⟩ := hd
  exact (runEnds_firstEntry h hE).bind fun v u _ => runEnds_pure ⟨trivial, rfl⟩

omit [Limits E] in
theorem reads_scaleFactor (c : Constant R) (e : Expr R) :
    Reads p (do return .ofScalar (← e.elements) (← firstEntry c) : Compile R (LinearMap R)) :=
  (reads_liftM _).bind fun _ => (reads_firstEntry c).bind fun _ => reads_pure _

omit [Limits E] in
theorem reads_leftFactor (c : Constant R) (size : Size) (e : Expr R) :
    Reads p (leftFactor c size e) := by
  refine (reads_liftM _).bind fun d => ?_
  split
  · exact reads_scaleFactor c e
  · split
    · exact (reads_refuse _).bind fun _ => (reads_constantMap c).bind fun _ => reads_liftM _
    · exact (reads_constantMap c).bind fun _ => reads_liftM _

omit [Limits E] in
theorem reads_rightFactor (c : Constant R) (size : Size) (e : Expr R) :
    Reads p (rightFactor c size e) := by
  have hmap : Reads p (do (← (← constantMap c).transpose).tensor (.identity e.m)) :=
    (reads_constantMap c).bind fun _ => (reads_liftM _).bind fun _ => reads_liftM _
  refine (reads_liftM _).bind fun d => ?_
  split
  · exact reads_scaleFactor c e
  · split
    · exact (reads_refuse _).bind fun _ => hmap
    · exact hmap

/-- A factor in front takes as many elements as the other factor has, and if it does not scale, it
    makes a column of its own length of each column. -/
theorem runEnds_leftFactor {size : Size} (h : size.1 * size.2 = 1 → c.Hollow (s.known p) → E .misuse)
    (hE : (c.Resolved (s.known p) ∧ (size.1 * size.2 = 1 ∨ c.n = e.m)) ∨ ∀ e, E (.failed e)) :
    RunEnds E p s (fun op _ => (size.1 * size.2 = 1 ∧ op.Shaped e.dim e.dim) ∨
      (size.1 * size.2 ≠ 1 ∧ c.n = e.m ∧ op.Shaped (e.n * c.m) e.dim)) (leftFactor c size e) := by
  have hE' := hE.imp And.left id
  refine (runEnds_liftM (ends_count _)).bind fun d t hd => ?_
  obtain ⟨rfl, rfl⟩ := hd
  split
  · rename_i hone
    rw [beq_iff_eq] at hone
    exact (runEnds_scaleFactor (h hone) hE').imp fun _ _ hop => Or.inl ⟨hone, hop⟩
  · rename_i hone
    rw [beq_iff_eq] at hone
    split
    · rename_i hfit
      rw [bne_iff_ne] at hfit
      exact hE.elim (fun hok => (hok.2.elim hone hfit).elim) fun hE => hE _
    · rename_i hfit
      rw [bne_iff_ne, not_not] at hfit
      refine (runEnds_constantMap hE').bind fun lc u hlc => ?_
      have hid : (LinearMap.identity e.n : LinearMap R).Shaped e.n e.n := ⟨trivial, rfl⟩
      have hdim : e.dim = e.n * c.n := by rw [hfit, Nat.mul_comm]; rfl
      exact (runEnds_liftM (hid.tensor hlc)).imp fun op _ hop => Or.inr ⟨hone, hfit, hdim ▸ hop.1⟩

/-- A factor behind likewise, row by row. -/
theorem runEnds_rightFactor {size : Size} (h : size.1 * size.2 = 1 → c.Hollow (s.known p) → E .misuse)
    (hE : (c.Resolved (s.known p) ∧ (size.1 * size.2 = 1 ∨ e.n = c.m)) ∨ ∀ e, E (.failed e)) :
    RunEnds E p s (fun op _ => (size.1 * size.2 = 1 ∧ op.Shaped e.dim e.dim) ∨
      (size.1 * size.2 ≠ 1 ∧ e.n = c.m ∧ op.Shaped (c.n * e.m) e.dim)) (rightFactor c size e) := by
  have hE' := hE.imp And.left id
  refine (runEnds_liftM (ends_count _)).bind fun d t hd => ?_
  obtain ⟨rfl, rfl⟩ := hd
  split
  · rename_i hone
    rw [beq_iff_eq] at hone
    exact (runEnds_scaleFactor (h hone) hE').imp fun _ _ hop => Or.inl ⟨hone, hop⟩
  · rename_i hone
    rw [beq_iff_eq] at hone
    split
    · rename_i hfit
      rw [bne_iff_ne] at hfit
      exact hE.elim (fun hok => (hok.2.elim hone hfit).elim) fun hE => hE _
    · rename_i hfit
      rw [bne_iff_ne, not_not] at hfit
      refine (runEnds_constantMap hE').bind fun lc u hlc => ?_
      refine (runEnds_liftM hlc.transpose).bind fun lt u hlt => ?_
      have hid : (LinearMap.identity e.m : LinearMap R).Shaped e.m e.m := ⟨trivial, rfl⟩
      have hdim : e.dim = c.m * e.m := by rw [← hfit, Nat.mul_comm]; rfl
      exact (runEnds_liftM (hlt.1.tensor hid)).imp fun op _ hop => Or.inr ⟨hone, hfit, hdim ▸ hop.1⟩

end Factors

omit [Scalar R] in
/-- A factor takes the elements of the value, however many it makes of them. -/
theorem exists_shaped_of_factor {one fits : Prop} {k d : Nat}
    (h : (one ∧ op.Shaped d d) ∨ (¬one ∧ fits ∧ op.Shaped k d)) : ∃ rows, op.Shaped rows d :=
  h.elim (fun h => ⟨_, h.2⟩) fun h => ⟨_, h.2.2⟩

omit [Scalar R] in
theorem runEnds_checkProduct [Limits E] {size : Size}
    (hE : op.m = size.1 * size.2 ∨ ∀ e, E (.failed e)) :
    RunEnds E p s (fun _ t => op.m = size.1 * size.2 ∧ t = s) (checkProduct size op) := by
  refine (runEnds_liftM (ends_limit _)).bind fun _ t ht => ?_
  obtain ⟨-, rfl⟩ := ht
  split
  · rename_i hm
    rw [bne_iff_ne] at hm
    exact hE.elim (fun h => absurd h hm) fun hE => hE _
  · rename_i hm
    rw [bne_iff_ne, not_not] at hm
    exact runEnds_pure ⟨hm, rfl⟩

omit [Scalar R] in
theorem reads_checkProduct (size : Size) (op : LinearMap R) : Reads p (checkProduct size op) :=
  (reads_liftM _).bind fun _ => by
    split
    · exact reads_refuse _
    · exact reads_pure ()

/-- What compiling under the identity makes of nothing gets a constant part at the row, if it has
    none. -/
theorem runEnds_build_of_compile [Limits E] (h : RunEnds E p { s with form := .zero }
      (fun _ t => t.form.Over row e.dim V ∧ t.known p = data) (compile row e (.identity e.dim))) :
    RunEnds E p s (fun f t => (f.Over row e.dim V ∧ f.b.sizeAt? row = some e.dim) ∧ t.known p = data)
      (build e row) := by
  refine (runEnds_modify _).bind fun _ r hr => ?_
  refine (runEnds_elements e).bind fun d u hd => ?_
  obtain ⟨rfl, rfl⟩ := hd
  obtain rfl := hr
  refine h.bind fun _ t ht => ?_
  refine runEnds_get.bind fun r u hr => ?_
  obtain ⟨rfl, rfl⟩ := hr
  obtain ⟨hover, hknown⟩ := ht
  dsimp only
  split
  · rename_i hcontains
    obtain ⟨v, hv⟩ := Keyed.mem_keys_iff.1 (Keyed.contains_iff_mem_keys.1 hcontains)
    have hsize : u.form.b.sizeAt? row = some v.size := BlockVector.sizeAt?_eq_some_iff.2 ⟨v, hv, rfl⟩
    exact runEnds_pure ⟨⟨hover, (hover.offset _ _ hsize).2 ▸ hsize⟩, hknown⟩
  · refine (runEnds_liftM (ends_room _)).bind fun _ t ht => ?_
    obtain ⟨-, rfl⟩ := ht
    refine runEnds_pure ⟨⟨⟨hover.sized, hover.rows, hover.cols, fun r n hn => ?_⟩, ?_⟩, hknown⟩
    · rw [BlockVector.sizeAt?_insert, Vec.size_zero] at hn
      split at hn
      · rename_i hr
        exact ⟨hr.symm, (Option.some.inj hn).symm⟩
      · exact hover.offset r n hn
    · rw [BlockVector.sizeAt?_insert, if_pos rfl, Vec.size_zero]

/-! ## The induction -/

section Induction

variable [Reports E]

variable (E p data row m V) in
/-- `Keeps E p data row m V e`: compiling `e` keeps the form over the row, and the data. -/
def Keeps (e : Expr R) : Prop :=
  ∀ {l : LinearMap R} {n : Nat} {s : Session R}, l.Shaped m n → s.form.Over row m V → s.known p = data →
    RunEnds E p s (fun _ t => t.form.Over row m V ∧ t.known p = data) (compile row e l)

/-- Compiling an argument under the product of the operator with that of the node. -/
theorem Keeps.through {rows cols : Nat} (ih : Keeps E p data row m V e) (hl : l.Shaped m n)
    (hop : op.Shaped rows cols) (hn : n = rows) (hs : s.form.Over row m V) (hdata : s.known p = data) :
    RunEnds E p s (fun _ t => t.form.Over row m V ∧ t.known p = data)
      (do compile row e (← l.mul op)) := by
  refine (runEnds_liftM (hl.mul (hn ▸ hop))).bind fun lop t hlop => ?_
  obtain ⟨hlop, rfl⟩ := hlop
  exact ih hlop hs hdata

/-- The addends of a sum, one after another. -/
theorem runEnds_compileSum {es : List (Expr R)} {size : Size} (ih : ∀ e ∈ es, Keeps E p data row m V e)
    (hl : l.Shaped m n) (hn : n = size.1 * size.2) (hs : s.form.Over row m V) (hdata : s.known p = data) :
    RunEnds E p s (fun _ t => t.form.Over row m V ∧ t.known p = data) (compileSum row size es l) := by
  induction es generalizing s with
  | nil =>
    rw [compileSum]
    exact runEnds_pure ⟨hs, hdata⟩
  | cons e es ihs =>
    rw [compileSum]
    refine (runEnds_elements e).bind fun d t hd => ?_
    obtain ⟨rfl, rfl⟩ := hd
    have hrest {t : Session R} (ht : t.form.Over row m V ∧ t.known p = data) :=
      ihs (fun e he => ih e (List.mem_cons_of_mem _ he)) ht.1 ht.2
    dsimp only
    split
    · exact (ih e List.mem_cons_self hl hs hdata).bind fun _ t ht => hrest ht
    · split
      · refine (runEnds_liftM (ends_ones _)).bind fun op t hop => ?_
        obtain ⟨hop, rfl⟩ := hop
        refine (runEnds_liftM (hl.mul (hn ▸ hop))).bind fun lop t hlop => ?_
        obtain ⟨hlop, rfl⟩ := hlop
        exact (ih e List.mem_cons_self hlop hs hdata).bind fun _ t ht => hrest ht
      · exact runEnds_refuse_bind _ _

/-- A factor of a product, once the other has become an operator. -/
theorem Keeps.factor {size : Size} {x : Compile R (LinearMap R)} (ih : Keeps E p data row m V e)
    (hl : l.Shaped m n) (hn : n = size.1 * size.2) (hs : s.form.Over row m V) (hdata : s.known p = data)
    (hx : Reads p x) (hop : RunEnds E p s (fun op _ => ∃ rows, op.Shaped rows e.dim) x) :
    RunEnds E p s (fun _ t => t.form.Over row m V ∧ t.known p = data) (do
      let op ← x
      checkProduct size op
      compile row e (← l.mul op)) := by
  refine (hx.ends hop).bind fun op t hop => ?_
  obtain ⟨⟨rows, hop⟩, hsame⟩ := hop
  refine (runEnds_checkProduct (Or.inr Reports.failed)).bind fun _ u hu => ?_
  obtain ⟨hm, rfl⟩ := hu
  exact ih.through hl hop (hn.trans (hm.symm.trans hop.rows)) (hsame.form ▸ hs)
    (hsame.known.trans hdata)

/-- A constant, whose data are added to the offset of the row. -/
theorem runEnds_constant (hl : l.Shaped m n) (hs : s.form.Over row m V) (hdata : s.known p = data)
    (c : Constant R) :
    RunEnds E p s (fun _ t => t.form.Over row m V ∧ t.known p = data) (do
      let v := (← dense c).data
      if v.size != l.n then refuse (.constantSize c.size l.n)
      addOffset row (← l.apply v)) := by
  refine ((reads_dense c).ends (runEnds_dense (Or.inr Reports.failed))).bind fun a t ha => ?_
  dsimp only
  split
  · exact runEnds_refuse_bind _ _
  · rename_i hsize
    rw [bne_iff_ne, not_not, hl.cols] at hsize
    refine (runEnds_liftM (hl.apply hsize)).bind fun v u hv => ?_
    obtain ⟨hv, rfl⟩ := hv
    refine (runEnds_addOffset (ha.2.form ▸ hs) hv).imp fun _ t ht => ⟨ht.1.1, ?_⟩
    exact ht.2.trans (ha.2.known.trans hdata)

/-- A described map, applied to the value of the argument. -/
theorem Keeps.linearMap {d : MapDesc R} {m' n' : Nat} (ih : Keeps E p data row m V e)
    (hl : l.Shaped m n) (hn : n = m' * n') (hs : s.form.Over row m V) (hdata : s.known p = data) :
    RunEnds E p s (fun _ t => t.form.Over row m V ∧ t.known p = data) (do
      let op ← describedMap d
      limit op.isSized
      if op.size != (m' * n', ← e.elements) then refuse (.mapSize op.size e.size)
      compile row e (← l.mul op)) := by
  refine ((reads_describedMap d).ends (runEnds_describedMap d)).bind fun op t hop => ?_
  obtain ⟨hop, hsame⟩ := hop
  refine (runEnds_liftM (ends_limit _)).bind fun _ u hu => ?_
  obtain ⟨-, rfl⟩ := hu
  refine (runEnds_elements e).bind fun N u hN => ?_
  obtain ⟨rfl, rfl⟩ := hN
  split
  · exact runEnds_refuse_bind _ _
  · rename_i hsize
    rw [bne_iff_ne, not_not] at hsize
    exact ih.through hl ⟨hop.plain, hsize⟩ hn (hsame.form ▸ hs) (hsame.known.trans hdata)

/-- Compiling keeps the form over the row, and the data, if the variables are allowed as columns.  A
    promise is broken only by a hollow product. -/
theorem keeps (hV : ∀ f ∈ e.nodes, ∀ id, f.kind = .variable id → V id f.dim)
    (hE : ∀ f ∈ e.nodes, f.Hollow data → E .misuse) : Keeps E p data row m V e := by
  induction e using Expr.induct with
  | node kind m' n' args ih =>
    intro l n s hl hs hdata
    have hself := Expr.mem_nodes_self (.node kind m' n' args)
    have harg {e : Expr R} (he : e ∈ args) : Keeps E p data row m V e :=
      ih e he (fun f hf => hV f (Expr.mem_nodes_of_arg he hf))
        fun f hf => hE f (Expr.mem_nodes_of_arg he hf)
    rw [compile.eq_def]
    dsimp only
    refine (runEnds_liftM (ends_count _)).bind fun d t hd => ?_
    obtain ⟨rfl, rfl⟩ := hd
    split
    · exact runEnds_refuse_bind _ _
    rename_i hn
    rw [bne_iff_ne, not_not, hl.cols] at hn
    refine (runEnds_note _).bind fun _ r hr => ?_
    replace hs : r.form.Over row m V := hr.form ▸ hs
    replace hdata : r.known p = data := hr.known.trans hdata
    clear hr
    split
    · exact runEnds_refuse _
    · -- a sum
      refine (runEnds_shareMap hl).bind fun l' t hl' => ?_
      obtain ⟨hl', hform, hknown⟩ := hl'
      exact runEnds_compileSum (fun e he => harg he) hl' hn (hform ▸ hs) (hknown.trans hdata)
    · -- a variable
      refine (runEnds_addOperator hs hl (hn ▸ hV _ hself _ rfl) (Or.inr Reports.failed)).imp ?_
      exact fun _ t ht => ⟨ht.1.1, ht.2.trans hdata⟩
    · -- a constant
      exact runEnds_constant hl hs hdata _
    · -- a described map
      exact Keeps.linearMap (harg (List.mem_singleton_self _)) hl hn hs hdata
    · exact harg (List.mem_singleton_self _) hl hs hdata
    · exact harg (List.mem_singleton_self _) hl.neg hs hdata
    · -- a product
      rename_i a b
      have hE : (Expr.node .multiply m' n' [a, b]).Hollow (r.known p) → E .misuse := hdata ▸ hE _ hself
      split
      · rename_i c ha
        refine Keeps.factor (harg (List.mem_cons_of_mem a List.mem_cons_self)) hl hn hs hdata
          (reads_leftFactor c a.size b) ((runEnds_leftFactor (fun hone hc => hE ⟨c, ?_, hc⟩)
            (Or.inr Reports.failed)).imp fun _ _ hop => exists_shaped_of_factor hop)
        exact Expr.scaling?_eq_some.2 (Or.inl ⟨ha, hone⟩)
      · rename_i c hb ha
        refine Keeps.factor (harg List.mem_cons_self) hl hn hs hdata
          (reads_rightFactor c b.size a) ((runEnds_rightFactor (fun hone hc => hE ⟨c, ?_, hc⟩)
            (Or.inr Reports.failed)).imp fun _ _ hop => exists_shaped_of_factor hop)
        exact Expr.scaling?_eq_some.2 (Or.inr ⟨ha, hb, hone⟩)
      · exact runEnds_refuse _
    all_goals exact runEnds_refuse _

/-- What is built is a form over the row whose columns are variables of the tree, with a constant part
    as long as the tree. -/
theorem runEnds_build (hE : ∀ f ∈ e.nodes, f.Hollow (s.known p) → E .misuse) :
    RunEnds E p s (fun f t => (f.Over row e.dim e.Mentions ∧ f.b.sizeAt? row = some e.dim) ∧
      t.known p = s.known p) (build e row) := by
  have hid : (LinearMap.identity e.dim : LinearMap R).Shaped e.dim e.dim := ⟨trivial, rfl⟩
  exact runEnds_build_of_compile
    (keeps (fun f hf id hk => ⟨f, hf, hk, rfl⟩) hE hid (AffineForm.over_zero row e.dim _) rfl)

end Induction

/-! ## Broken promises -/

omit [Scalar R] in
theorem ends_count_of_isCount {n : Nat} (h : isCount n = true) :
    Ends E (fun k => k = n) (count n) := by
  rw [count, h]
  rfl

/-- A factor that is to scale by a hollow constant. -/
theorem runEnds_scaleFactor_of_hollow (hc : c.Hollow (s.known p)) (he : isCount e.dim = true) :
    RunEnds (· = .misuse) p s (fun _ _ => False)
      (do return .ofScalar (← e.elements) (← firstEntry c) : Compile R (LinearMap R)) := by
  refine (runEnds_liftM (ends_count_of_isCount he)).bind fun d t hd => ?_
  obtain ⟨-, rfl⟩ := hd
  exact (runEnds_firstEntry_of_hollow hc).bind fun _ _ h => h.elim

/-- A hollow product under an operator that fits it breaks a promise. -/
theorem runEnds_compile_of_hollow {a b : Expr R}
    (hhollow : (Expr.node .multiply m n [a, b]).Hollow (s.known p)) (hl : l.n = m * n)
    (hsize : isCount (m * n) = true) (ha : isCount a.dim = true) (hb : isCount b.dim = true) :
    RunEnds (· = .misuse) p s (fun _ _ => False) (compile row (.node .multiply m n [a, b]) l) := by
  obtain ⟨c, hscaling, hc⟩ := hhollow
  rw [compile.eq_def]
  dsimp only
  refine (runEnds_liftM (ends_count_of_isCount hsize)).bind fun d t hd => ?_
  obtain ⟨rfl, rfl⟩ := hd
  rw [if_neg (by rw [hl, bne_self_eq_false]; exact Bool.false_ne_true)]
  refine (runEnds_note _).bind fun _ r hr => ?_
  replace hc : c.Hollow (r.known p) := hr.known ▸ hc
  rcases Expr.scaling?_eq_some.1 hscaling with ⟨hk, hone⟩ | ⟨hnot, hk, hone⟩
  · rw [hk]
    refine RunEnds.bind (P := fun _ _ => False) ?_ fun _ _ h => h.elim
    refine (runEnds_liftM (ends_count_of_isCount ha)).bind fun d t hd => ?_
    obtain ⟨rfl, rfl⟩ := hd
    rw [if_pos (beq_iff_eq.2 hone)]
    exact runEnds_scaleFactor_of_hollow hc hb
  · rw [hk]
    split
    · rename_i c' hk'
      exact absurd hk' (hnot c')
    · rename_i heq _
      cases heq
      refine RunEnds.bind (P := fun _ _ => False) ?_ fun _ _ h => h.elim
      refine (runEnds_liftM (ends_count_of_isCount hb)).bind fun d t hd => ?_
      obtain ⟨rfl, rfl⟩ := hd
      rw [if_pos (beq_iff_eq.2 hone)]
      exact runEnds_scaleFactor_of_hollow hc ha
    · rename_i hnone
      exact absurd rfl (hnone c)

omit [Scalar R] in
/-- `Blames data e f`: nothing was waited for, and a promise was broken only if the tree has a hollow
    product. -/
def Blames (data : Provider R) (e : Expr R) (f : Fault) : Prop :=
  f ≠ .unending ∧ (f = .misuse → ∃ g ∈ e.nodes, g.Hollow data)

omit [Scalar R] in
instance (data : Provider R) (e : Expr R) : Reports (Blames data e) where
  breach := ⟨by simp, by simp⟩
  failed _ := ⟨by simp, by simp⟩

/-- Whatever the tree, the data and the row, the compiler comes to an end, and it breaks a promise only
    where the tree has a hollow product: otherwise there is a form, a reported error, or a size that is too
    large.  Every hollow product that is reached, with sizes that can be counted, breaks the promise. -/
theorem build_reports (e : Expr R) (p : Provider R) (row : String) (s : Session R) :
    (∀ f, ((build e row).runFrom p s).1 = .error f →
      f ≠ .unending ∧ (f = .misuse → ∃ g ∈ e.nodes, g.Hollow (s.known p))) ∧
    ∀ l m n a b, (Expr.node .multiply m n [a, b]).Hollow (s.known p) → l.n = m * n →
      isCount (m * n) = true → isCount a.dim = true → isCount b.dim = true →
      ((compile row (.node .multiply m n [a, b]) l).runFrom p s).1 = .error .misuse := by
  constructor
  · intro f hf
    have hends : RunEnds (Blames (s.known p) e) p s _ (build e row) :=
      runEnds_build fun g hg hhollow => ⟨by simp, fun _ => ⟨g, hg, hhollow⟩⟩
    exact Ends.of_eq_error hends hf
  · intro l m n a b hhollow hl hsize ha hb
    have hends : RunEnds _ p s _ (compile row (.node .multiply m n [a, b]) l) :=
      runEnds_compile_of_hollow hhollow hl hsize ha hb
    rw [RunEnds] at hends
    cases hrun : ((compile row (.node .multiply m n [a, b]) l).runFrom p s).1 with
    | ok u => exact (Ends.of_eq_ok hends hrun).elim
    | error f => rw [Ends.of_eq_error hends hrun]

/-- A variable scaled by a constant whose node says one element and whose data have none. -/
def hollowProduct : Expr ℚ :=
  .node .multiply 1 1 [.node (.constant ⟨0, 0, .data "K"⟩) 1 1 [], .var 1 1 "x"]

/-- The provider of the data without entries. -/
def hollowData : Provider ℚ := fun key => if key = "K" then some (.dense ⟨0, 0, #[], by decide⟩) else none

/-- The data are there and have the size of the constant, and still no error is reported. -/
theorem build_hollowProduct :
    ((build hollowProduct "r").runFrom hollowData (Session.start .zero 0)).1 = .error .misuse := rfl

theorem build_reports_hollowProduct :
    hollowProduct.Hollow hollowData ∧
      ((compile "r" hollowProduct (.identity 1)).runFrom hollowData (Session.start .zero 0)).1
        = .error .misuse := by
  have hhollow : hollowProduct.Hollow hollowData :=
    ⟨⟨0, 0, .data "K"⟩, rfl, rfl, "K", _, rfl, rfl, rfl⟩
  exact ⟨hhollow, (build_reports hollowProduct hollowData "r" (Session.start .zero 0)).2 (.identity 1) 1 1 _ _
    hhollow rfl (by decide) (by decide) (by decide)⟩

end Affine

end BlockAdmm
