/-
  The variables of an expression.

  Four walks over a tree look for its variables: one lists their names, one collects their sizes, one tells
  whether there are none at all, and the compiler makes a column of each.  The compiler takes another way than
  the others, since it follows one factor of a product and reads the other.  What it passes by are constants,
  so as long as no leaf has arguments (`Expr.LeavesBare`), the walks agree on every tree that is compiled
  (`Affine.variables_agree`).

  What compiling does to the columns is said of a list of expressions that are visited one after the other
  (`Visited`); a node is visited when its arguments are (`Visited.node`), a constant by doing nothing.
-/
import BlockAdmm.Proofs.Solver.System

namespace BlockAdmm

open Scalar Compile

variable {R : Type}

/-! ## Leaves -/

namespace Expr

variable {e : Expr R} {es args : List (Expr R)} {kind : ExprKind R} {m n d : Nat} {id : String}
  {ids : List String} {D sizes : Keyed Nat}

/-- `e.isBare`: a variable or a constant has no arguments. -/
def isBare : Expr R → Bool
  | .node (.variable _) _ _ args => args.isEmpty
  | .node (.constant _) _ _ args => args.isEmpty
  | _ => true

/-- `e.LeavesBare`: no variable and no constant of the tree has arguments. -/
def LeavesBare (e : Expr R) : Prop := ∀ f ∈ e.nodes, f.isBare = true

instance : DecidablePred (LeavesBare : Expr R → Prop) := fun e =>
  inferInstanceAs (Decidable (∀ f ∈ e.nodes, f.isBare = true))

theorem LeavesBare.arg (h : (node kind m n args).LeavesBare) (he : e ∈ args) : e.LeavesBare :=
  fun f hf => h f (mem_nodes_of_arg he hf)

theorem mentions_node : (node kind m n args).Mentions id d ↔
    (kind = .variable id ∧ m * n = d) ∨ ∃ e ∈ args, e.Mentions id d := by
  constructor
  · rintro ⟨v, hv, hkind, hdim⟩
    rw [nodes, List.mem_cons, mem_nodesList] at hv
    rcases hv with rfl | ⟨e, he, hv⟩
    · exact Or.inl ⟨hkind, hdim⟩
    · exact Or.inr ⟨e, he, v, hv, hkind, hdim⟩
  · rintro (⟨hkind, hdim⟩ | ⟨e, he, h⟩)
    · exact ⟨_, mem_nodes_self _, hkind, hdim⟩
    · exact h.of_arg he

theorem LeavesBare.mentions_variable (h : (node (.variable id) m n args).LeavesBare) {k : String} :
    (node (.variable id) m n args).Mentions k d ↔ id = k ∧ m * n = d := by
  obtain rfl : args = [] := List.isEmpty_iff.1 (h _ (mem_nodes_self _))
  rw [mentions_node, ExprKind.variable.injEq]
  exact or_iff_left fun ⟨_, he, _⟩ => absurd he List.not_mem_nil

theorem LeavesBare.not_mentions_constant {c : Constant R} (h : e.LeavesBare) (hc : e.kind = .constant c) :
    ¬ e.Mentions id d := by
  obtain ⟨kind, m, n, args⟩ := e
  obtain rfl : kind = .constant c := hc
  obtain rfl : args = [] := List.isEmpty_iff.1 (h _ (mem_nodes_self _))
  rw [mentions_node]
  rintro (⟨hkind, -⟩ | ⟨_, he, -⟩)
  · cases hkind
  · exact absurd he List.not_mem_nil

theorem allConstant_iff : allConstant es = true ↔ ∀ e ∈ es, e.isConstant = true := by
  induction es with
  | nil => exact iff_of_true rfl fun _ he => absurd he List.not_mem_nil
  | cons e es ih => rw [allConstant, Bool.and_eq_true, ih, List.forall_mem_cons]

theorem isConstant_node (hvar : ∀ id, kind ≠ .variable id) (hconst : ∀ c, kind ≠ .constant c) :
    (node kind m n args).isConstant = true ↔ args ≠ [] ∧ ∀ e ∈ args, e.isConstant = true := by
  have h : (node kind m n args).isConstant = (!args.isEmpty && allConstant args) := by
    rw [isConstant]
    · exact fun c h => hconst c h
    · exact fun id h => hvar id h
  rw [h, Bool.and_eq_true, allConstant_iff, Bool.not_eq_true', ← Bool.not_eq_true, List.isEmpty_iff]

theorem LeavesBare.not_mentions (h : e.LeavesBare) (hconst : e.isConstant = true) : ¬ e.Mentions id d := by
  induction e using Expr.induct with
  | node kind m n args ih =>
    by_cases hleaf : ∃ c, kind = .constant c
    · obtain ⟨c, hc⟩ := hleaf
      exact h.not_mentions_constant hc
    by_cases hvar : ∃ id, kind = .variable id
    · obtain ⟨_, rfl⟩ := hvar
      cases hconst
    obtain ⟨-, hargs⟩ := (isConstant_node (not_exists.1 hvar) (not_exists.1 hleaf)).1 hconst
    rw [mentions_node]
    rintro (⟨rfl, -⟩ | ⟨e, he, hmentions⟩)
    · exact hvar ⟨_, rfl⟩
    · exact ih e he (h.arg he) (hargs e he) hmentions

/-! ## Names and sizes -/

/-- `noteId ids e`: the name of a node that is a variable, after the names `ids` if it is new. -/
def noteId (ids : List String) (e : Expr R) : List String :=
  match e.kind with
  | .variable id => if ids.contains id then ids else ids ++ [id]
  | _ => ids

/-- The names are collected from one node after the other. -/
theorem collectIds_eq_foldl (e : Expr R) : ∀ ids, e.collectIds ids = e.nodes.foldl noteId ids := by
  induction e using Expr.induct with
  | node kind m n args ih =>
    intro ids
    have hargs (es : List (Expr R)) (hes : ∀ e ∈ es, e ∈ args) :
        ∀ ids, collectIdsList es ids = (nodesList es).foldl noteId ids := by
      induction es with
      | nil => exact fun _ => rfl
      | cons e es ihs =>
        obtain ⟨he, hes⟩ := List.forall_mem_cons.1 hes
        intro ids
        rw [collectIdsList, nodesList, List.foldl_append, ih e he, ihs hes]
    rw [nodes, List.foldl_cons, ← hargs args fun _ he => he]
    cases kind <;> rfl

theorem mem_noteId : id ∈ noteId ids e ↔ id ∈ ids ∨ e.kind = .variable id := by
  rw [noteId]
  split
  · rename_i name hname
    rw [hname, ExprKind.variable.injEq, eq_comm (a := name)]
    split
    · rename_i hmem
      rw [List.contains_iff_mem] at hmem
      exact (or_iff_left_of_imp fun h => h ▸ hmem).symm
    · rw [List.mem_append, List.mem_singleton]
  · rename_i hvar
    exact (or_iff_left (hvar id)).symm

theorem nodup_noteId (h : ids.Nodup) : (noteId ids e).Nodup := by
  rw [noteId]
  split
  · split
    · exact h
    · rename_i hnew
      rw [List.contains_iff_mem] at hnew
      exact List.nodup_append.2 ⟨h, List.nodup_singleton _, fun a ha b hb heq =>
        hnew (List.mem_singleton.1 hb ▸ heq ▸ ha)⟩
  · exact h

/-- The names that are listed are those of the variables, each once. -/
theorem nodup_variableIds (e : Expr R) : e.variableIds.Nodup := by
  have hwalk (vs : List (Expr R)) : ∀ {ids : List String}, ids.Nodup → (vs.foldl noteId ids).Nodup := by
    induction vs with
    | nil => exact fun h => h
    | cons v vs ih => exact fun h => ih (nodup_noteId h)
  rw [variableIds, collectIds_eq_foldl]
  exact hwalk e.nodes List.nodup_nil

theorem mem_variableIds : id ∈ e.variableIds ↔ ∃ d, e.Mentions id d := by
  have hwalk (vs : List (Expr R)) : ∀ {ids : List String},
      id ∈ vs.foldl noteId ids ↔ id ∈ ids ∨ ∃ v ∈ vs, v.kind = .variable id := by
    induction vs with
    | nil => exact (or_iff_left fun ⟨_, hv, _⟩ => absurd hv List.not_mem_nil).symm
    | cons v vs ih =>
      intro ids
      rw [List.foldl_cons, ih, mem_noteId, or_assoc, List.exists_mem_cons_iff]
  rw [variableIds, collectIds_eq_foldl, hwalk, or_iff_right List.not_mem_nil]
  exact ⟨fun ⟨v, hv, hkind⟩ => ⟨v.dim, v, hv, hkind, rfl⟩, fun ⟨_, v, hv, hkind, _⟩ => ⟨v, hv, hkind⟩⟩

/-- Sizes that are known for all variables can be collected. -/
theorem exists_variableSizes (h : ∀ id d, e.Mentions id d → D.get? id = some d ∧ isCount d = true) :
    ∃ sizes, e.variableSizes = .ok sizes := by
  have hwalk : Ends (fun _ => False) (fun sizes => D.Extends sizes) (e.nodes.foldlM noteSize Keyed.empty) := by
    refine ends_foldlM _ nofun fun v hv sizes hD => ?_
    have hvar (id : String) (hid : v.kind = .variable id) := h id v.dim ⟨v, hv, hid, rfl⟩
    have hfree : ∀ id, v.kind = .variable id →
        isCount v.dim = true ∧ ∀ d, sizes.get? id = some d → d = v.dim :=
      fun id hid => ⟨(hvar id hid).2, fun d hd => Option.some.inj ((hD id d hd).symm.trans (hvar id hid).1)⟩
    refine (ends_noteSize (Or.inl hfree)).imp fun sizes' hnote k d hk => ?_
    rcases hnote.2.2 k d hk with hk | ⟨hid, rfl⟩
    · exact hD k d hk
    · exact (hvar k hid).1
  rw [variableSizes, collectSizes_eq_foldlM]
  cases hsizes : e.nodes.foldlM noteSize Keyed.empty with
  | ok sizes => exact ⟨sizes, rfl⟩
  | error f => exact (hwalk.of_eq_error hsizes).elim

end Expr

/-! ## Columns -/

variable [Scalar R]

omit [Scalar R] in
/-- `Visited es a b`: what becomes of a matrix when expressions are compiled one after the other.  Each of their
    variables has its column, and those that have no variable are constant. -/
structure Visited (es : List (Expr R)) (a b : BlockMatrix R) : Prop where
  keeps : b.colDims.Extends a.colDims
  columns : ∀ e ∈ es, ∀ id d, e.Mentions id d → b.colDims.get? id = some d ∧ isCount d = true
  held : a.Held → b.Held
  leaves : ∀ e ∈ es, e.isConstant = true ∨ ∃ id d, e.Mentions id d

variable {a b c : BlockMatrix R} {e : Expr R} {es args : List (Expr R)} {kind : ExprKind R} {m n : Nat}
  {id row : String} {l : LinearMap R}

omit [Scalar R] in
theorem visited_nil (a : BlockMatrix R) : Visited [] a a :=
  ⟨Keyed.Extends.refl _, fun _ he => absurd he List.not_mem_nil, fun h => h,
    fun _ he => absurd he List.not_mem_nil⟩

omit [Scalar R] in
theorem Visited.cons (h : Visited [e] a b) (h' : Visited es b c) : Visited (e :: es) a c where
  keeps := h'.keeps.trans h.keeps
  columns := List.forall_mem_cons.2 ⟨fun id d hmentions =>
    (h.columns e (List.mem_singleton_self e) id d hmentions).imp_left (h'.keeps id d), h'.columns⟩
  held ha := h'.held (h.held ha)
  leaves := List.forall_mem_cons.2 ⟨h.leaves e (List.mem_singleton_self e), h'.leaves⟩

omit [Scalar R] in
theorem visited_constant {k : Constant R} (he : e.LeavesBare) (hk : e.kind = .constant k) (a : BlockMatrix R) :
    Visited [e] a a where
  keeps := Keyed.Extends.refl _
  columns := List.forall_mem_singleton.2 fun _ _ hmentions => absurd hmentions (he.not_mentions_constant hk)
  held ha := ha
  leaves := List.forall_mem_singleton.2 (Or.inl (by
    obtain ⟨kind, m, n, args⟩ := e
    obtain rfl : kind = .constant k := hk
    rfl))

theorem visited_variable (he : (Expr.node (.variable id) m n args).LeavesBare) (hcount : isCount (m * n) = true)
    (hn : l.n = m * n) (h : a.insertOrAdd row id l = .ok b) :
    Visited [.node (.variable id) m n args] a b := by
  obtain ⟨-, hcol, -, hcols, -⟩ := BlockMatrix.insertOrAdd_eq_ok h
  refine ⟨hcols ▸ BlockMatrix.extends_insert hcol, List.forall_mem_singleton.2 fun k d hmentions => ?_,
    fun ha => ha.insertOrAdd h, List.forall_mem_singleton.2 (Or.inr ⟨id, m * n, he.mentions_variable.2 ⟨rfl, rfl⟩⟩)⟩
  obtain ⟨rfl, rfl⟩ := he.mentions_variable.1 hmentions
  exact ⟨by rw [hcols, Keyed.get?_insert, if_pos rfl, hn], hcount⟩

omit [Scalar R] in
/-- A node with arguments is visited by visiting them. -/
theorem Visited.node (hargs : args ≠ []) (hvar : ∀ id, kind ≠ .variable id) (hconst : ∀ c, kind ≠ .constant c)
    (h : Visited args a b) : Visited [.node kind m n args] a b where
  keeps := h.keeps
  columns := List.forall_mem_singleton.2 fun id d hmentions => by
    rcases Expr.mentions_node.1 hmentions with ⟨hkind, -⟩ | ⟨e, he, hmentions⟩
    · exact absurd hkind (hvar id)
    · exact h.columns e he id d hmentions
  held := h.held
  leaves := List.forall_mem_singleton.2 (by
    by_cases hall : ∀ e ∈ args, e.isConstant = true
    · exact Or.inl ((Expr.isConstant_node hvar hconst).2 ⟨hargs, hall⟩)
    · obtain ⟨e, he, hnot⟩ := by simpa only [not_forall] using hall
      obtain ⟨id, d, hmentions⟩ := (h.leaves e he).resolve_left hnot
      exact Or.inr ⟨id, d, hmentions.of_arg he⟩)

namespace Affine

variable {p : Provider R} {s : Session R} {op : LinearMap R}

omit [Scalar R] in
/-- What only reads leaves the form alone. -/
theorem form_of_reads {α : Type} {x : Compile R α} (hx : Reads p x) :
    RunEnds (fun _ => True) p s (fun _ t => t.form = s.form) x :=
  ends_true_iff.2 fun _ _ => (hx.same s).form

variable (row p) in
/-- `Visits row p e`: compiling `e` under any operator visits it. -/
def Visits (e : Expr R) : Prop := ∀ (l : LinearMap R) (s : Session R),
  RunEnds (fun _ => True) p s (fun _ t => Visited [e] s.form.a t.form.a) (compile row e l)

/-- An argument under the product of the operator with that of the node. -/
theorem Visits.through (h : Visits row p e) : RunEnds (fun _ => True) p s
    (fun _ t => Visited [e] s.form.a t.form.a) (do compile row e (← l.mul op)) := by
  refine (form_of_reads (reads_liftM _)).bind fun lop t ht => ?_
  rw [← ht]
  exact h lop t

/-- A factor of a product, once the other has become an operator. -/
theorem Visits.factor {size : Size} {x : Compile R (LinearMap R)} (h : Visits row p e) (hx : Reads p x) :
    RunEnds (fun _ => True) p s (fun _ t => Visited [e] s.form.a t.form.a) (do
      let op ← x
      checkProduct size op
      compile row e (← l.mul op)) := by
  refine (form_of_reads hx).bind fun op t ht => ?_
  refine (form_of_reads (reads_checkProduct size op)).bind fun _ u hu => ?_
  rw [← ht, ← hu]
  exact h.through

/-- A variable gets its column. -/
theorem runEnds_variable_visited (he : (Expr.node (.variable id) m n args).LeavesBare)
    (hcount : isCount (m * n) = true) (hn : l.n = m * n) : RunEnds (fun _ => True) p s
    (fun _ t => Visited [.node (.variable id) m n args] s.form.a t.form.a) (addOperator row id l) := by
  have hinsert : Ends (fun _ => True) (fun form => Visited [.node (.variable id) m n args] s.form.a form.a)
      (do return { s.form with a := ← s.form.a.insertOrAdd row id l } : Outcome (AffineForm R)) :=
    ends_true_iff.2 fun form hform => by
      obtain ⟨a, ha, hform⟩ := bind_eq_ok.1 hform
      cases pure_eq_ok.1 hform
      exact visited_variable he hcount hn ha
  exact (runEnds_changeForm hinsert).imp fun _ _ h => h.1

/-- A constant goes to the constant part. -/
theorem runEnds_constant_form (c : Constant R) : RunEnds (fun _ => True) p s (fun _ t => t.form.a = s.form.a) (do
    let v := (← dense c).data
    if v.size != l.n then refuse (.constantSize c.size l.n)
    addOffset row (← l.apply v)) := by
  refine (form_of_reads (reads_dense c)).bind fun a t ht => ?_
  dsimp only
  split
  · exact runEnds_refuse_bind _ _
  · refine (form_of_reads (reads_liftM _)).bind fun v u hu => ?_
    rw [← ht, ← hu]
    have hoffset : Ends (fun _ => True) (fun form => form.a = u.form.a)
        (do return { u.form with b := ← u.form.b.insertOrAdd row v } : Outcome (AffineForm R)) :=
      ends_true_iff.2 fun form hform => by
        obtain ⟨b, -, hform⟩ := bind_eq_ok.1 hform
        cases pure_eq_ok.1 hform
        rfl
    exact (runEnds_changeForm hoffset).imp fun _ _ h => h.1

/-- A described map is read before its argument. -/
theorem Visits.linearMap {d : MapDesc R} {size : Nat} (h : Visits row p e) : RunEnds (fun _ => True) p s
    (fun _ t => Visited [e] s.form.a t.form.a) (do
      let op ← describedMap d
      limit op.isSized
      if op.size != (size, ← e.elements) then refuse (.mapSize op.size e.size)
      compile row e (← l.mul op)) := by
  refine (form_of_reads (reads_describedMap d)).bind fun op t ht => ?_
  refine (form_of_reads (reads_liftM _)).bind fun _ u hu => ?_
  refine (form_of_reads (reads_liftM _)).bind fun k v hv => ?_
  rw [← ht, ← hu, ← hv]
  split
  · exact runEnds_refuse_bind _ _
  · exact h.through

/-- The addends of a sum, one after another. -/
theorem runEnds_compileSum_visited {size : Size} (h : ∀ e ∈ es, Visits row p e) (l : LinearMap R) :
    ∀ s : Session R, RunEnds (fun _ => True) p s (fun _ t => Visited es s.form.a t.form.a)
      (compileSum row size es l) := by
  induction es with
  | nil =>
    intro s
    rw [compileSum]
    exact runEnds_pure (visited_nil _)
  | cons e es ih =>
    intro s
    obtain ⟨he, hes⟩ := List.forall_mem_cons.1 h
    rw [compileSum]
    refine (runEnds_elements e).bind fun d t hd => ?_
    obtain ⟨rfl, rfl⟩ := hd
    have hrest {u : Session R} (hu : Visited [e] t.form.a u.form.a) :
        RunEnds (fun _ => True) p u (fun _ v => Visited (e :: es) t.form.a v.form.a)
          (compileSum row size es l) := (ih hes u).imp fun _ _ hv => hu.cons hv
    dsimp only
    split
    · exact (he l t).bind fun _ u hu => hrest hu
    · split
      · refine (form_of_reads (reads_liftM _)).bind fun op u hop => ?_
        rw [← hop] at hrest ⊢
        refine (form_of_reads (reads_liftM _)).bind fun lop v hlop => ?_
        rw [← hlop] at hrest ⊢
        exact (he lop v).bind fun _ u hu => hrest hu
      · exact runEnds_refuse_bind _ _

/-- What compiles visits the variables. -/
theorem visits (he : e.LeavesBare) : Visits row p e := by
  induction e using Expr.induct with
  | node kind m n args ih =>
    intro l s
    have harg {e : Expr R} (hmem : e ∈ args) : Visits row p e := ih e hmem (he.arg hmem)
    rw [compile.eq_def]
    dsimp only
    refine (runEnds_liftM (ends_true_iff.2 fun d hd => count_eq_ok.1 hd)).bind fun d t hd => ?_
    obtain ⟨⟨hcount, rfl⟩, rfl⟩ := hd
    split
    · exact runEnds_refuse_bind _ _
    rename_i hn
    rw [bne_iff_ne, not_not] at hn
    refine (runEnds_note _).bind fun _ r hr => ?_
    rw [← hr.form]
    clear hr
    split
    · exact runEnds_refuse _
    · -- a sum
      rename_i hargs
      have hshare : RunEnds (fun _ => True) p r (fun _ t => t.form = r.form) (shareMap l) := rfl
      refine hshare.bind fun l' t ht => ?_
      rw [← ht]
      exact (runEnds_compileSum_visited (fun e => harg) l' t).imp fun _ _ h => h.node hargs nofun nofun
    · -- a variable
      exact runEnds_variable_visited he hcount hn
    · refine (runEnds_constant_form _).imp fun _ t ht => ?_
      rw [ht]
      exact visited_constant he rfl _
    · -- a described map
      refine (harg (List.mem_singleton_self _)).linearMap.imp fun _ _ h => ?_
      exact h.node (List.cons_ne_nil _ _) nofun nofun
    · refine (harg (List.mem_singleton_self _) l r).imp fun _ _ h => ?_
      exact h.node (List.cons_ne_nil _ _) nofun nofun
    · refine (harg (List.mem_singleton_self _) l.neg r).imp fun _ _ h => ?_
      exact h.node (List.cons_ne_nil _ _) nofun nofun
    · -- a product
      rename_i a b
      have ha := he.arg (List.mem_cons_self (a := a) (l := [b]))
      have hb := he.arg (List.mem_cons_of_mem a (List.mem_singleton_self b))
      have hnode {f g : BlockMatrix R} (h : Visited [a, b] f g) : Visited [.node .multiply m n [a, b]] f g :=
        h.node (List.cons_ne_nil _ _) nofun nofun
      split
      · rename_i c hc
        refine ((harg (List.mem_cons_of_mem a (List.mem_singleton_self b))).factor
          (reads_leftFactor c a.size b)).imp fun _ _ h => hnode ?_
        exact (visited_constant ha hc _).cons h
      · rename_i c hc _
        refine ((harg List.mem_cons_self).factor (reads_rightFactor c b.size a)).imp fun _ _ h => hnode ?_
        exact h.cons (visited_constant hb hc _)
      · exact runEnds_refuse _
    all_goals exact runEnds_refuse _

/-- What is built has visited the tree. -/
theorem visited_of_build (he : e.LeavesBare) {f : AffineForm R} {t : Session R}
    (h : (build e row).runFrom p s = (.ok f, t)) : Visited [e] BlockMatrix.empty f.a := by
  have hends : RunEnds (fun _ => True) p s (fun f _ => Visited [e] BlockMatrix.empty f.a) (build e row) := by
    refine (runEnds_modify _).bind fun _ r hr => ?_
    refine (form_of_reads (reads_liftM _)).bind fun d u hu => ?_
    refine (visits he (.identity d) u).bind fun _ v hv => ?_
    have hv : Visited [e] BlockMatrix.empty v.form.a := by rwa [hu, hr] at hv
    refine runEnds_get.bind fun w v' hw => ?_
    obtain ⟨rfl, rfl⟩ := hw
    dsimp only
    split
    · exact runEnds_pure hv
    · exact (form_of_reads (reads_liftM _)).bind fun _ _ _ => runEnds_pure hv
  exact hends.of_eq_ok h

/-- Where an expression is compiled, the walks for its variables agree: the names that are listed, those with a
    size and those with a column are the same, the sizes are those of the columns, and an expression is constant
    just if the matrix has no block. -/
theorem variables_agree {e : Expr R} (he : e.LeavesBare) {p : Provider R} {row : String} {s t : Session R}
    {f : AffineForm R} (h : (build e row).runFrom p s = (.ok f, t)) :
    ∃ sizes, e.variableSizes = .ok sizes ∧ e.variableIds.Nodup ∧
      (∀ id, id ∈ e.variableIds ↔ id ∈ sizes.keys) ∧ (∀ id, id ∈ sizes.keys ↔ id ∈ f.a.colDims.keys) ∧
      (∀ id, sizes.get? id = f.a.colDims.get? id) ∧
      (e.isConstant = true ↔ ∀ r c, f.a.get? r c = none) := by
  have hvisited := visited_of_build he h
  have hover := ((runEnds_build (E := fun _ => True) fun _ _ _ => trivial).of_eq_ok h).1.1
  -- the columns are the variables, each with its size
  have hcols {id : String} {d : Nat} : f.a.colDims.get? id = some d ↔ e.Mentions id d :=
    ⟨hover.cols id d, fun hmentions => (hvisited.columns e (List.mem_singleton_self e) id d hmentions).1⟩
  obtain ⟨sizes, hsizes⟩ := Expr.exists_variableSizes (hvisited.columns e (List.mem_singleton_self e))
  have hget (id : String) : sizes.get? id = f.a.colDims.get? id :=
    Option.ext fun d => (Expr.get?_variableSizes hsizes).trans hcols.symm
  have hkeys (id : String) : id ∈ sizes.keys ↔ ∃ d, e.Mentions id d := by
    rw [Keyed.mem_keys_iff]
    exact exists_congr fun d => Expr.get?_variableSizes hsizes
  refine ⟨sizes, hsizes, e.nodup_variableIds, fun id => Expr.mem_variableIds.trans (hkeys id).symm, fun id => ?_,
    hget, fun hconst r c => ?_, fun hnone => ?_⟩
  · rw [Keyed.mem_keys_iff, Keyed.mem_keys_iff, hget]
  · by_contra hblock
    obtain ⟨l, hl⟩ := Option.ne_none_iff_exists'.1 hblock
    exact he.not_mentions hconst (hcols.1 (hover.sized.cols hl))
  · refine (hvisited.leaves e (List.mem_singleton_self e)).resolve_right fun ⟨id, d, hmentions⟩ => ?_
    -- a variable would have a column, and the column a block
    obtain ⟨r, l, hl⟩ := (hvisited.held BlockMatrix.held_empty).col (hcols.2 hmentions)
    cases hl.symm.trans (hnone r id)

/-- A sum of a product, a variable that is negated and a constant for all entries: `A x - y + 1`. -/
def shiftedDifference : Expr ℚ :=
  .node .add 2 1
    [.node .multiply 2 1
      [.node (.constant ⟨2, 2, .data "A"⟩) 2 2 [], .node (.variable "x") 2 1 []],
     .node .negate 2 1 [.node (.variable "y") 2 1 []],
     .node (.constant ⟨1, 1, .scalar 1⟩) 1 1 []]

theorem variables_agree_shiftedDifference : shiftedDifference.LeavesBare ∧ ∃ f t,
    (build shiftedDifference "r").runFrom productData (Session.start .zero 0) = (.ok f, t) ∧
    ∃ sizes, shiftedDifference.variableSizes = .ok sizes ∧
      (∀ id, id ∈ ["x", "y"] ↔ id ∈ sizes.keys) ∧ (∀ id, id ∈ sizes.keys ↔ id ∈ f.a.colDims.keys) ∧
      (∀ id, sizes.get? id = f.a.colDims.get? id) ∧ ¬ ∀ r c, f.a.get? r c = none := by
  have hbare : shiftedDifference.LeavesBare := by decide
  obtain ⟨f, hf⟩ := exists_eq_ok
    (x := ((build shiftedDifference "r").runFrom productData (Session.start .zero 0)).1) (by decide +kernel)
  have hrun : (build shiftedDifference "r").runFrom productData (Session.start .zero 0) = (.ok f, _) :=
    Prod.ext hf rfl
  obtain ⟨sizes, hsizes, -, hids, hcols, hget, hconst⟩ := variables_agree hbare hrun
  exact ⟨hbare, f, _, hrun, sizes, hsizes, hids, hcols, hget, hconst.not.1 (by decide)⟩

end Affine

end BlockAdmm
