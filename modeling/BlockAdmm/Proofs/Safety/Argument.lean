/-
  Arguments over the layout of their term.

  The layout of a term was made from the variables of the term, so it has each of them with its number of
  elements (`Expr.Declared`).  Hence the maps of an argument take as many entries as the intervals of
  their variables have, and give as many as the argument has components (`Argument.Fits`).  All that is done
  with arguments relies on this and on nothing else.  A block vector with no other sizes can be flattened,
  and a flat vector of the right length can be split (`Layout.ends_flatten`, `Layout.ends_split`).
-/
import BlockAdmm.Proofs.Safety.Affine
import BlockAdmm.Proofs.Layout
import BlockAdmm.Prox.Argument
import BlockAdmm.Solver.Objective

namespace BlockAdmm

open Scalar

variable {R : Type} {E : Fault → Prop}

/-! ## The variables of a term -/

namespace Expr

/-- `e.Declared sizes`: every variable of the tree is there with its number of elements. -/
def Declared (e : Expr R) (sizes : Keyed Nat) : Prop :=
  ∀ v ∈ e.nodes, ∀ id, v.kind = .variable id → sizes.get? id = some v.dim

/-- `noteSize sizes e`: a node that is a variable with its size, after the sizes that are known. -/
def noteSize (sizes : Keyed Nat) (e : Expr R) : Outcome (Keyed Nat) :=
  match e.kind with
  | .variable id => do addSize sizes id (← e.elements)
  | _ => .ok sizes

/-- The sizes are collected from one node after the other. -/
theorem collectSizes_eq_foldlM (e : Expr R) : ∀ sizes, e.collectSizes sizes = e.nodes.foldlM noteSize sizes := by
  induction e using Expr.induct with
  | node kind m n args ih =>
    intro sizes
    have hargs (es : List (Expr R)) (hes : ∀ e ∈ es, e ∈ args) :
        ∀ sizes, collectSizesList es sizes = (nodesList es).foldlM noteSize sizes := by
      induction es with
      | nil => exact fun _ => rfl
      | cons e es ihs =>
        obtain ⟨he, hes⟩ := List.forall_mem_cons.1 hes
        intro sizes
        rw [collectSizesList, nodesList, List.foldlM_append, ih e he]
        exact bind_congr fun sizes' => ihs hes sizes'
    have hargs := hargs args fun _ he => he
    rw [nodes, List.foldlM_cons]
    cases kind with
    | «variable» id =>
      show (count (m * n) >>= fun d => addSize sizes id d >>= collectSizesList args)
        = (count (m * n) >>= fun d => addSize sizes id d) >>= fun sizes' => (nodesList args).foldlM noteSize sizes'
      rw [bind_assoc, funext hargs]
    | _ => exact hargs sizes

/-- A variable that is not there with another size is there afterwards, and nothing else is changed. -/
theorem ends_addSize {sizes : Keyed Nat} {id : String} {d : Nat}
    (hE : (∀ d', sizes.get? id = some d' → d' = d) ∨ ∀ e, E (.failed e)) :
    Ends E (fun sizes' => sizes'.Extends sizes ∧ sizes' = sizes.insert id d) (addSize sizes id d) := by
  rw [addSize]
  cases hd : sizes.get? id with
  | none => exact ends_ok ⟨BlockMatrix.extends_insert (fun d' hd' => nomatch hd.symm.trans hd'), rfl⟩
  | some d' =>
    rw [hd] at hE
    dsimp only
    split
    · rename_i hne
      exact hE.resolve_left (fun h => bne_iff_ne.1 hne (h d' rfl)) _
    · rename_i heq
      rw [bne_iff_ne, not_not] at heq
      have hsame (d'' : Nat) (hd'' : sizes.get? id = some d'') : d'' = d :=
        (Option.some.inj (hd''.symm.trans hd)).trans heq
      exact ends_ok ⟨BlockMatrix.extends_insert hsame, rfl⟩

theorem ends_noteSize {sizes : Keyed Nat} {e : Expr R}
    (hE : (∀ id, e.kind = .variable id → isCount e.dim = true ∧ ∀ d, sizes.get? id = some d → d = e.dim) ∨
      E .breach ∧ ∀ e, E (.failed e)) :
    Ends E (fun sizes' => sizes'.Extends sizes ∧ (∀ id, e.kind = .variable id → sizes'.get? id = some e.dim) ∧
      ∀ k d, sizes'.get? k = some d → sizes.get? k = some d ∨ e.kind = .variable k ∧ e.dim = d)
      (noteSize sizes e) := by
  rw [noteSize]
  split
  · rename_i id hid
    have hcount : Ends E (fun d => d = e.dim) e.elements := by
      rcases hE with hE | ⟨hbreach, -⟩
      · exact Affine.ends_count_of_isCount (hE id hid).1
      · have : Limits E := ⟨hbreach⟩
        exact ends_count _
    refine hcount.bind fun d hd => ?_
    obtain rfl := hd
    refine (ends_addSize (hE.imp (fun h => (h id hid).2) And.right)).imp fun sizes' h => ?_
    obtain ⟨hext, rfl⟩ := h
    refine ⟨hext, fun id' hid' => ?_, fun k d hk => ?_⟩
    · cases hid.symm.trans hid'
      rw [Keyed.get?_insert, if_pos rfl]
    · rw [Keyed.get?_insert] at hk
      split at hk
      · rename_i heq
        exact Or.inr ⟨heq ▸ hid, Option.some.inj hk⟩
      · exact Or.inl hk
  · rename_i hvar
    exact ends_ok ⟨Keyed.Extends.refl sizes, fun id hid => absurd hid (hvar id), fun _ _ hk => Or.inl hk⟩

/-- What was collected has every variable of the tree, and what was there before. -/
theorem ends_collectSizes [Reports E] (e : Expr R) (sizes : Keyed Nat) :
    Ends E (fun sizes' => sizes'.Extends sizes ∧ e.Declared sizes') (e.collectSizes sizes) := by
  have hwalk (vs : List (Expr R)) : ∀ sizes, Ends E (fun sizes' => sizes'.Extends sizes ∧
      ∀ v ∈ vs, ∀ id, v.kind = .variable id → sizes'.get? id = some v.dim) (vs.foldlM noteSize sizes) := by
    induction vs with
    | nil => exact fun sizes => ends_ok ⟨Keyed.Extends.refl sizes, fun _ hv => absurd hv List.not_mem_nil⟩
    | cons v vs ih =>
      intro sizes
      rw [List.foldlM_cons]
      refine (ends_noteSize (Or.inr ⟨Limits.breach, Reports.failed⟩)).bind fun mid hmid => ?_
      refine (ih mid).imp fun sizes' h => ⟨h.1.trans hmid.1, List.forall_mem_cons.2 ⟨?_, h.2⟩⟩
      exact fun id hid => h.1 id v.dim (hmid.2.1 id hid)
  rw [collectSizes_eq_foldlM]
  exact hwalk e.nodes sizes

theorem ends_variableSizes [Reports E] (e : Expr R) :
    Ends E e.Declared e.variableSizes :=
  (e.ends_collectSizes Keyed.empty).imp fun _ h => h.2

end Expr

/-! ## Flat vectors -/

namespace Layout

variable [Scalar R] {l : Layout}

/-- `l.Agrees x`: no block of a variable of the layout has another size. -/
def Agrees {R : Type} (l : Layout) (x : BlockVector R) : Prop :=
  ∀ k d n, l.sizes.get? k = some d → x.sizeAt? k = some n → n = d

/-- A flat vector of the right length has the variables of the layout. -/
theorem ends_split {v : Array R} (hv : v.size = l.n) :
    Ends E (fun y => ∀ k, y.sizeAt? k = l.sizes.get? k) (l.split v) := by
  have hends : Ends E (fun _ => True) (l.split v) :=
    (ends_promise (beq_iff_eq.2 hv)).bind fun _ _ => ends_ok trivial
  exact (hends.and_eq fun y hy k => sizeAt?_split hy k).imp fun _ h => h.2

theorem ends_segment {v : BlockVector R} {k : String} {d : Nat}
    (h : ∀ n, v.sizeAt? k = some n → n = d) : Ends E (fun x => x.size = d) (segment v k d) := by
  rw [segment]
  cases hv : v.get? k with
  | none => exact ends_ok (Vec.size_zero d)
  | some w =>
    have hsize := h w.size (BlockVector.sizeAt?_eq_some_iff.2 ⟨w, hv, rfl⟩)
    exact (ends_promise (beq_iff_eq.2 hsize)).bind fun _ _ => ends_ok hsize

/-- Blocks of the right sizes make a flat vector of the right length, if it can be stored. -/
theorem ends_flatten_of_allows {v : BlockVector R} (hroom : Allows E l.n) (h : l.Agrees v) :
    Ends E (fun x => x.size = l.n) (l.flatten v) := by
  have hwalk (vars : List (String × Nat)) (hvars : ∀ kd ∈ vars, l.sizes.get? kd.1 = some kd.2)
      (x : Array R) : Ends E (fun y => y.size = x.size + (vars.map Prod.snd).sum)
        (vars.foldlM (fun x kd => do return x ++ (← segment v kd.1 kd.2)) x) := by
    induction vars generalizing x with
    | nil => exact ends_ok rfl
    | cons kd vars ih =>
      obtain ⟨hkd, hvars⟩ := List.forall_mem_cons.1 hvars
      rw [List.foldlM_cons]
      refine Ends.bind (P := fun y => y.size = x.size + kd.2)
        ((ends_segment fun n => h kd.1 kd.2 n hkd).bind fun s hs => ends_ok ?_) fun y hy => ?_
      · rw [Array.size_append, hs]
      · refine (ih hvars y).imp fun z hz => ?_
        rw [hz, hy, List.map_cons, List.sum_cons, Nat.add_assoc]
  refine hroom.ends_room.bind fun _ _ => ?_
  refine (hwalk _ (fun kd hkd => Keyed.get?_eq_some_iff.2 hkd) #[]).imp fun x hx => hx.trans ?_
  exact Nat.zero_add _

theorem ends_flatten [Limits E] {v : BlockVector R} (h : l.Agrees v) :
    Ends E (fun x => x.size = l.n) (l.flatten v) := ends_flatten_of_allows (allows_of_limits l.n) h

end Layout

/-! ## Arguments -/

variable [Scalar R]

omit [Scalar R] in
/-- `a.Fits l`: the argument has a constant part of its number of components, and maps of the variables of
    the layout into as many. -/
structure Argument.Fits (l : Layout) (a : Argument R) : Prop where
  offset : a.offset.size = a.dim
  maps : ∀ km ∈ a.maps.entries, ∃ d, l.sizes.get? km.1 = some d ∧ km.2.Shaped a.dim d

namespace Argument

open BlockAdmm.Compile

variable {p : Provider R} {s : Session R} {e : Expr R} {l : Layout} {a : Argument R}

/-- What is built of a declared expression fits. -/
theorem runEnds_build [Reports E] (he : e.ConstantsSized) (hl : e.Declared l.sizes) :
    RunEnds E p s (fun a _ => a.Fits l) (build e) := by
  have hhollow : ∀ f ∈ e.nodes, f.Hollow (s.known p) → E .misuse :=
    fun f hf h => absurd h (he.not_hollow hf _)
  refine (Affine.runEnds_build hhollow).bind fun form t hform => ?_
  obtain ⟨⟨hover, hoffset⟩, -⟩ := hform
  obtain ⟨v, hv, hsize⟩ := BlockVector.sizeAt?_eq_some_iff.1 hoffset
  rw [BlockVector.getOrZero, hv]
  refine runEnds_pure ⟨hsize, fun km hkm => ?_⟩
  have hget : form.a.get? row km.1 = some km.2 := by
    rw [← BlockMatrix.get?_row]
    exact Keyed.get?_eq_some_iff.2 hkm
  obtain ⟨v, hv, hkind, hdim⟩ := hover.cols _ _ (hover.sized.cols hget)
  refine ⟨km.2.n, hdim ▸ hl v hv km.1 hkind, hover.sized.plain hget, ?_⟩
  exact Prod.ext (hover.rows _ _ (hover.sized.rows hget)).2 rfl

/-- The value at a flat vector has an entry for each component. -/
theorem ends_apply [Limits E] (ha : a.Fits l) {x : Array R} (hx : x.size = l.n) :
    Ends E (fun y => y.size = a.dim) (a.apply l x) := by
  refine ends_foldlM (fun y : Array R => y.size = a.dim) ha.offset fun km hkm y hy => ?_
  obtain ⟨d, hd, hmap⟩ := ha.maps km hkm
  have hspan : l.offset km.1 + d ≤ x.size := hx ▸ Layout.offset_add_le hd
  rw [addImage, Layout.get?_eq_some_of_size hd]
  refine (Vec.ends_slice hspan).bind fun part hpart => (hmap.apply hpart).bind fun v _ => ends_ok ?_
  exact (Vec.size_increase ..).trans hy

/-- `Hᵀ y` for a `y` with an entry for each component. -/
theorem ends_transApply [Limits E] (ha : a.Fits l) {y : Array R} (hy : y.size = a.dim) :
    Ends E (fun _ => True) (a.transApply l y) := by
  refine (ends_room _).bind fun _ _ => ends_foldlM (fun _ => True) trivial fun km hkm x _ => ?_
  obtain ⟨d, -, hmap⟩ := ha.maps km hkm
  rw [addBackImage]
  cases l.get? km.1 with
  | none => exact ends_ok trivial
  | some span =>
    exact hmap.transpose.bind fun t ht => (ht.apply hy).bind fun v _ => ends_ok trivial

/-- The dense matrix of an argument. -/
theorem ends_dense [Limits E] (ha : a.Fits l) :
    Ends E (fun h => h.size = (a.dim, l.n)) (a.dense l : Outcome (Dense R)) := by
  refine (Dense.ends_make (allows_of_limits _) _).bind fun zero hzero => ?_
  refine ends_foldlM (fun h : Dense R => h.size = (a.dim, l.n)) hzero fun km hkm h hh => ?_
  obtain ⟨d, hd, hmap⟩ := ha.maps km hkm
  rw [Layout.get?_eq_some_of_size hd]
  refine (hmap.plain.sound.toDense (allows_of_limits _)).bind fun k hk => ?_
  have hsize : k.size = (a.dim, d) := hk.trans hmap.size
  have hfit : (d == 0 || a.dim == 0 || (decide (a.dim ≤ k.m) && decide (d ≤ k.n))) = true := by
    obtain ⟨hm, hn⟩ := Prod.mk.inj hsize
    rw [hm, hn]
    simp
  exact (ends_promise hfit).bind fun _ _ => ends_ok hh

/-- A diagonal has an entry for each place of the flat vector, and so has the constant part. -/
theorem ends_diagonal? [Limits E] (ha : a.Fits l) :
    Ends E (fun o => ∀ d, o = some d → d.size = l.n ∧ a.offset.size = l.n) (a.diagonal? l) := by
  rw [diagonal?]
  split
  · exact ends_ok nofun
  rename_i hdim
  rw [Bool.or_eq_true, not_or, bne_iff_ne, bne_iff_ne, not_not, not_not] at hdim
  split
  · rename_i k map heq
    split
    · obtain ⟨d, -, hmap⟩ := ha.maps (k, map) (heq ▸ List.mem_cons_self)
      refine (LinearMap.ends_diagonal? map).imp fun o ho d hd => ?_
      obtain ⟨hsquare, hsize⟩ := ho d hd
      exact ⟨hsize.trans (hsquare.symm.trans (hmap.rows.trans hdim.2)), ha.offset.trans hdim.2⟩
    · exact ends_ok nofun
  · exact ends_ok nofun

theorem dim_of_diagonal? {d : Array R} (h : a.diagonal? l = .ok (some d)) : a.dim = l.n := by
  rw [diagonal?] at h
  split at h
  · cases h
  · rename_i hdim
    rw [Bool.or_eq_true, not_or, bne_iff_ne, bne_iff_ne, not_not, not_not] at hdim
    exact hdim.2

/-- The variable that an argument is has as many elements as the argument. -/
theorem ends_plainVariable? [Limits E] (ha : a.Fits l) :
    Ends E (fun o => ∀ k, o = some k → l.sizes.get? k = some a.dim) a.plainVariable? := by
  rw [plainVariable?]
  split
  · exact ends_ok nofun
  split
  · rename_i k map heq
    obtain ⟨d, hd, hmap⟩ := ha.maps (k, map) (heq ▸ List.mem_cons_self)
    refine (LinearMap.ends_scalar? map).bind fun o ho => ends_ok fun k' hk' => ?_
    obtain ⟨alpha, halpha, hk'⟩ := Option.bind_eq_some_iff.1 hk'
    split at hk'
    · cases hk'
      have hsquare := ho (halpha ▸ rfl)
      rw [hmap.rows, hmap.cols] at hsquare
      exact hsquare ▸ hd
    · cases hk'
  · exact ends_ok nofun

end Argument

/-! ## Scalings -/

omit [Scalar R] in
/-- `s.Sized n`: factors and constants for `n` components. -/
structure Scaling.Sized (n : Nat) (s : Scaling R) : Prop where
  beta : s.beta.size = n
  offset : s.offset.size = n

namespace Scaling

variable {s : Scaling R} {n : Nat} {x y : Array R}

theorem Sized.size_toArg (hs : s.Sized n) (hx : x.size = n) : (s.toArg x).size = n := by
  rw [toArg, Vec.size_build, hx, hs.beta, hs.offset, Nat.min_self, Nat.min_self]

theorem Sized.size_fromArg (hs : s.Sized n) (hy : y.size = n) (hx : x.size = n) :
    (s.fromArg y x).size = n := by
  rw [fromArg, Vec.size_build, hy, hx, hs.beta, hs.offset, Nat.min_self, Nat.min_self]

end Scaling

namespace TermInput

open BlockAdmm.Compile

variable {input : TermInput R} {l : Layout}

omit [Scalar R] in
/-- `input.Fits`: every argument fits the layout. -/
def Fits (input : TermInput R) : Prop := ∀ a ∈ input.args, a.Fits input.layout

omit [Scalar R] in
theorem Fits.single [Reports E] (h : input.Fits) :
    Ends E (fun a => a.Fits input.layout) input.single := by
  rw [TermInput.single]
  split
  · rename_i a heq
    exact ends_ok (h a (heq ▸ List.mem_singleton_self a))
  · exact ends_fail _

theorem Fits.scaling [Reports E] (h : input.Fits) :
    Ends E (fun s => s.Sized input.layout.n) input.scaling := by
  refine h.single.bind fun a ha => (Argument.ends_diagonal? ha).bind fun o ho => ?_
  cases o with
  | none => exact ends_fail _
  | some beta => exact ends_ok ⟨(ho beta rfl).1, (ho beta rfl).2⟩

/-- The argument of a scaling has a component for each place. -/
theorem dim_of_scaling {a : Argument R} {s : Scaling R} (ha : input.single = .ok a)
    (hs : input.scaling = .ok s) : a.dim = input.layout.n := by
  obtain ⟨a', ha', hs⟩ := bind_eq_ok.1 hs
  cases ha.symm.trans ha'
  obtain ⟨o, ho, hs⟩ := bind_eq_ok.1 hs
  cases o with
  | none => exact absurd hs fail_ne_ok
  | some d => exact Argument.dim_of_diagonal? ho

/-- The input of a declared term. -/
theorem runEnds_build [Reports E] {p : Provider R} {s : Session R} {e : Expr R} (he : e.ConstantsSized)
    (hl : e.Declared l.sizes) (rho : R) :
    RunEnds E p s (fun input _ => input.layout = l ∧ input.Fits) (build e l rho) := by
  obtain ⟨kind, m, n, args⟩ := e
  rw [build]
  split
  · refine (runEnds_mapM (fun _ => True) (fun a : Argument R => a.Fits l) trivial fun e he' t _ => ?_).bind
      fun as t has => runEnds_pure ⟨rfl, has.1⟩
    exact (Argument.runEnds_build (he.arg he') fun v hv => hl v (Expr.mem_nodes_of_arg he' hv)).imp
      fun _ _ ha => ⟨ha, trivial⟩
  · exact runEnds_refuse _

end TermInput

end BlockAdmm
