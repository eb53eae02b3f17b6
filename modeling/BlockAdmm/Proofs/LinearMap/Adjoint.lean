/-
  The transpose of a linear map is its adjoint.

  Maps are made one after the other, from matrices, from functions, and from the maps at hand by the
  operations (`Makes`).  What is kept gets marks, so that two uses of it can be told to be one
  (`Workspace`); the functions that are given have their own marks, and one of them may serve several maps.
  A map that is given by its function must be linear, and if a function is given for its transpose,
  that has to be the adjoint (`OpaqueMap.Primitive`).

  Then every map at hand stands for a matrix, and the functions that are known for transposes are right.
  That is an invariant of the workspace: one operation keeps it (`Makes.exists_bears`), and so do all
  (`Workspace.exists_marks`).  So the transpose of any map at hand is its adjoint, and the transpose of the
  transpose shows the same matrix as the map (`transpose_isAdjoint`).

  All this has values if the extents of the maps at hand can be stored (`HaveRoom`), which is also what the
  functions need that were composed from maps.  Otherwise a map may be too large to be applied, even if its
  transpose is not (`transpose_hollow`).
-/
import BlockAdmm.Proofs.LinearMap.Views

namespace BlockAdmm

open Scalar ExactScalar

variable {R : Type} [ExactScalar R] {E : Fault → Prop} {m n : Nat} {k k' : Nat → Nat → R}
  {run back : Array R → Outcome (Array R)}

/-! ## Adjoint functions -/

/-- `IsAdjoint run back m n`: `back` takes every vector of `m` entries to one of `n`, which has the inner
    products with vectors that the vector has with their images. -/
def IsAdjoint (run back : Array R → Outcome (Array R)) (m n : Nat) : Prop :=
  ∀ y, y.size = m → ∃ v, back y = .ok v ∧ v.size = n ∧
    ∀ x u, x.size = n → run x = .ok u → Vec.inner u y = Vec.inner x v

/-- Where no fault is allowed, there is a value. -/
theorem Multiplies.returns (h : Multiplies (fun _ => False) run m n k) {x : Array R} (hx : x.size = n) :
    ∃ y, run x = .ok y := by
  have hends := h x hx
  cases hrun : run x with
  | ok y => exact ⟨y, rfl⟩
  | error f => exact (hends.of_eq_error hrun).elim

/-- A function that has values multiplies with one matrix only. -/
theorem Multiplies.unique (h : Multiplies (fun _ => False) run m n k) (h' : Multiplies E run m n k')
    {r c : Nat} (hr : r < m) (hc : c < n) : k r c = k' r c := by
  obtain ⟨y, hy⟩ := h.returns (Vec.size_build n fun i => if i = c then 1 else 0)
  have hk := ((h _ (Vec.size_build ..)).of_eq_ok hy).2 r hr
  have hk' := ((h' _ (Vec.size_build ..)).of_eq_ok hy).2 r hr
  rw [rowSum_unit _ hc] at hk hk'
  exact hk.symm.trans hk'

/-- The adjoint of a product with a matrix is the product with its transpose. -/
theorem IsAdjoint.multiplies (h : IsAdjoint run back m n) (hrun : Multiplies (fun _ => False) run m n k) :
    Multiplies E back n m fun r c => k c r := by
  intro y hy
  obtain ⟨v, hv, hsize, hinner⟩ := h y hy
  rw [hv]
  refine ends_ok ⟨hsize, fun c hc => ?_⟩
  obtain ⟨u, hu⟩ := hrun.returns (Vec.size_build n fun i => if i = c then 1 else 0)
  obtain ⟨hum, hue⟩ := (hrun _ (Vec.size_build ..)).of_eq_ok hu
  have hcolumn : Vec.inner (Vec.build n fun i => if i = c then 1 else 0) v = Vec.entry v c := by
    rw [Vec.inner_eq_sum, Vec.size_build]
    exact (Finset.sum_congr rfl fun i _ => mul_comm _ _).trans
      (rowSum_unit (fun _ i => Vec.entry v i) hc 0)
  rw [← hcolumn, ← hinner _ u (Vec.size_build ..) hu, Vec.inner_eq_sum, hum]
  exact Finset.sum_congr rfl fun r hr => by rw [hue r (Finset.mem_range.1 hr), rowSum_unit _ hc]

/-- Products with a matrix and its transpose have the same inner products. -/
theorem Multiplies.inner_eq (hrun : Multiplies E run m n k) (hback : Multiplies E back n m fun r c => k c r)
    {x y u v : Array R} (hx : x.size = n) (hy : y.size = m) (hu : run x = .ok u) (hv : back y = .ok v) :
    Vec.inner u y = Vec.inner x v := by
  obtain ⟨hum, hue⟩ := (hrun x hx).of_eq_ok hu
  obtain ⟨-, hve⟩ := (hback y hy).of_eq_ok hv
  rw [Vec.inner_eq_sum, Vec.inner_eq_sum, hum, hx]
  calc ∑ r ∈ Finset.range m, Vec.entry u r * Vec.entry y r
      = ∑ r ∈ Finset.range m, ∑ c ∈ Finset.range n, k r c * Vec.entry x c * Vec.entry y r := by
        refine Finset.sum_congr rfl fun r hr => ?_
        rw [hue r (Finset.mem_range.1 hr), rowSum, Finset.sum_mul]
    _ = ∑ c ∈ Finset.range n, ∑ r ∈ Finset.range m, k r c * Vec.entry x c * Vec.entry y r :=
        Finset.sum_comm
    _ = ∑ c ∈ Finset.range n, Vec.entry x c * Vec.entry v c := by
        refine Finset.sum_congr rfl fun c hc => ?_
        rw [hve c (Finset.mem_range.1 hc), rowSum, Finset.mul_sum]
        exact Finset.sum_congr rfl fun r _ => by ring

/-! ## Maps at hand -/

/-- A map that is given by its function: the function is linear, and one that is given for the transpose
    is its adjoint.  A mark on them is that of a given function. -/
structure OpaqueMap.Primitive (given : List (Array R → Outcome (Array R))) (f : OpaqueMap R) : Prop where
  linear : IsLinear f.forward.run f.m f.n
  adjoint : ∀ t, f.backward = some t → IsAdjoint f.forward.run t.run f.m f.n
  forward_mark : ∀ i, f.forward.mark = some i → given[i]? = some f.forward.run
  backward_mark : ∀ t i, f.backward = some t → t.mark = some i → given[i]? = some t.run

namespace LinearMap

/-- The maps that can be made next from the maps at hand. -/
inductive Makes (given : List (Array R → Outcome (Array R))) (maps : List (LinearMap R)) :
    LinearMap R → Prop
  | dense (a : Dense R) : Makes given maps (ofDense a)
  | sparse (a : Sparse R) : Makes given maps (ofSparse a)
  | diagonal (d : Array R) : Makes given maps (ofDiagonal d)
  | scalar (n : Nat) (alpha : R) : Makes given maps (ofScalar n alpha)
  | opaqueMap {f : OpaqueMap R} (h : f.Primitive given) : Makes given maps (.opaqueMap f)
  | tensor {a b l : LinearMap R} (ha : a ∈ maps) (hb : b ∈ maps) (h : a.tensor b = .ok l) :
    Makes given maps l
  | add {a b s : LinearMap R} (ha : a ∈ maps) (hb : b ∈ maps) (h : a.add b = .ok s) : Makes given maps s
  | mul {a b s : LinearMap R} (ha : a ∈ maps) (hb : b ∈ maps) (h : a.mul b = .ok s) : Makes given maps s
  | scaleBy {a : LinearMap R} (alpha : R) (ha : a ∈ maps) : Makes given maps (a.scaleBy alpha)
  | neg {a : LinearMap R} (ha : a ∈ maps) : Makes given maps a.neg
  | transpose {a t : LinearMap R} (ha : a ∈ maps) (h : a.transpose = .ok t) : Makes given maps t

/-- The maps at hand and the next mark.  The given functions have the first marks, and what is made is kept
    with marks on all that it stores. -/
inductive Workspace (given : List (Array R → Outcome (Array R))) : List (LinearMap R) → Nat → Prop
  | start : Workspace given [] given.length
  | keep {maps : List (LinearMap R)} {next : Nat} {l : LinearMap R} (h : Workspace given maps next)
    (hl : Makes given maps l) : Workspace given ((l.share next).1 :: maps) (l.share next).2

variable {given : List (Array R → Outcome (Array R))} {maps : List (LinearMap R)} {next : Nat}
  {a b l t : LinearMap R}

/-! ## The invariant -/

/-- What is known of the marks of given functions: the matrix of a function that has values.  Unless `c`,
    functions may end in a breach; those that are known for transposes are right. -/
def Lore.ofGiven (c : Prop) (given : List (Array R → Outcome (Array R))) : Lore R where
  faults := Fault.Unless c
  names i m n k := ∃ run, given[i]? = some run ∧ Multiplies (fun _ => False) run m n k
  names_congr h hk := by
    obtain ⟨run, hrun, h⟩ := h
    exact ⟨run, hrun, h.congr hk⟩
  transposes := True

theorem Lore.unique_ofGiven (c : Prop) (given : List (Array R → Outcome (Array R))) :
    (Lore.ofGiven c given).Unique := by
  rintro i m n k k' ⟨run, hrun, h⟩ ⟨run', hrun', h'⟩ r c hr hc
  cases hrun.symm.trans hrun'
  exact h.unique h' hr hc

/-- `Lore.atHand c w given`: what is known once the marks `w` are in use. -/
def Lore.atHand (c : Prop) (w : Marks R) (given : List (Array R → Outcome (Array R))) : Lore R :=
  w.above (Lore.ofGiven c given) given.length

variable {c : Prop} {w : Marks R}

/-- A given function, under the mark that it was given. -/
theorem yields_of_given {f : ApplyFn R} (h : Multiplies (fun _ => False) f.run m n k)
    (hmark : ∀ i, f.mark = some i → given[i]? = some f.run) : f.Yields (Lore.atHand c w given) m n k := by
  refine ⟨h.mono fun _ hf => hf.elim, fun i hi => ⟨fun _ => ⟨f.run, hmark i hi, h⟩, fun hle => ?_⟩⟩
  have hgiven := hmark i hi
  rw [List.getElem?_eq_none hle] at hgiven
  cases hgiven

theorem exists_bears_of_primitive {f : OpaqueMap R} (h : f.Primitive given) :
    ∃ k, (LinearMap.opaqueMap f).Bears (Lore.atHand c w given) k := by
  obtain ⟨k, hk⟩ := h.linear.exists_multiplies (E := fun _ => False)
  refine ⟨k, yields_of_given hk h.forward_mark, fun _ t ht => ?_⟩
  exact yields_of_given ((h.adjoint t ht).multiplies hk) fun i => h.backward_mark t i ht

/-- What is made from maps that stand for matrices stands for a matrix. -/
theorem Makes.exists_bears (h : Makes given maps l)
    (hmaps : ∀ a ∈ maps, ∃ k, a.Bears (Lore.atHand c w given) k)
    (hroom : ∀ a ∈ maps, Allows (Fault.Unless c) a.extent) : ∃ k, l.Bears (Lore.atHand c w given) k := by
  cases h with
  | dense | sparse | diagonal | scalar => exact LinearMap.exists_bears nofun
  | opaqueMap h => exact exists_bears_of_primitive h
  | tensor ha hb h =>
    obtain ⟨ka, hka⟩ := hmaps _ ha
    obtain ⟨kb, hkb⟩ := hmaps _ hb
    rw [eq_kron_of_tensor h]
    exact ⟨_, (hka.stands.kron hkb.stands).bears⟩
  | add ha hb h =>
    obtain ⟨ka, hka⟩ := hmaps _ ha
    obtain ⟨kb, hkb⟩ := hmaps _ hb
    have hunique := w.unique_above (Lore.unique_ofGiven c given) given.length
    -- there was room for the sum, since it is there
    have hsum := hka.stands.add (E := fun _ => True) (fun _ _ => trivial) hunique ⟨size_eq_of_add h, hkb⟩
      (hroom _ ha) (hroom _ hb) (allows_of_limits _) (allows_of_limits _)
    exact ⟨_, (hsum.of_eq_ok h).bears⟩
  | mul ha hb h =>
    obtain ⟨ka, hka⟩ := hmaps _ ha
    obtain ⟨kb, hkb⟩ := hmaps _ hb
    have hright := hkb.stands
    rw [← cols_eq_of_mul h] at hright
    have hproduct := hka.stands.mul (E := fun _ => True) (fun _ _ => trivial) hright (hroom _ ha)
      (hroom _ hb) (allows_of_limits _)
    exact ⟨_, (hproduct.of_eq_ok h).bears⟩
  | scaleBy alpha ha =>
    obtain ⟨ka, hka⟩ := hmaps _ ha
    exact ⟨_, (hka.stands.scaleBy alpha).bears⟩
  | neg ha =>
    obtain ⟨ka, hka⟩ := hmaps _ ha
    exact ⟨_, (hka.stands.scaleBy (-1)).bears⟩
  | transpose ha h =>
    obtain ⟨ka, hka⟩ := hmaps _ ha
    exact ⟨_, ((hka.stands.transpose (hroom _ ha)).of_eq_ok h trivial).bears⟩

/-- Every map at hand stands for a matrix, under marks that are in use. -/
theorem Workspace.exists_marks (h : Workspace given maps next)
    (hroom : ∀ a ∈ maps, Allows (Fault.Unless c) a.extent) :
    ∃ w : Marks R, w.next = next ∧ given.length ≤ next ∧
      ∀ l ∈ maps, ∃ k, l.Bears (Lore.atHand c w given) k := by
  induction h with
  | start => exact ⟨⟨given.length, fun _ _ _ => 0⟩, rfl, Nat.le_refl _, fun _ h => absurd h List.not_mem_nil⟩
  | keep _ hl ih =>
    -- what was made before keeps its matrix when the new map takes marks of its own
    have hroom' := fun a ha => hroom a (List.mem_cons_of_mem _ ha)
    obtain ⟨w, rfl, hle, hmaps⟩ := ih hroom'
    obtain ⟨k, hk⟩ := hl.exists_bears hmaps hroom'
    obtain ⟨v, hv, hnext, hshared⟩ := hk.stands.share hle trivial
    refine ⟨v, hnext, hnext ▸ Nat.le_trans hle hv.le, List.forall_mem_cons.2 ⟨⟨k, hshared.bears⟩, ?_⟩⟩
    intro a ha
    obtain ⟨ka, hka⟩ := hmaps a ha
    exact ⟨ka, hka.mono hv.within⟩

/-! ## Transposes -/

/-- The extents of the maps can be stored. -/
def HaveRoom (maps : List (LinearMap R)) : Prop := ∀ a ∈ maps, a.extent ≤ capacity

/-- The transpose of any map at hand has the size exchanged and is the adjoint, and the transpose of the
    transpose shows the same matrix as the map.  Each of these may end in a breach, and in nothing else; if
    there is room for the maps at hand, each of them has a value. -/
theorem transpose_isAdjoint (h : Workspace given maps next) (hl : l ∈ maps) :
    ∃ k, l.Shows (HaveRoom maps) k ∧
      Ends (Fault.Unless (HaveRoom maps)) (fun t => t.size = (l.n, l.m) ∧
          (t.Shows (HaveRoom maps) fun r c => k c r) ∧
          (∀ x y, x.size = l.n → y.size = l.m →
            Ends (Fault.Unless (HaveRoom maps)) (fun u => u.size = l.m ∧
              Ends (Fault.Unless (HaveRoom maps))
                (fun v => v.size = l.n ∧ Vec.inner u y = Vec.inner x v) (t.apply y))
              (l.apply x)) ∧
          Ends (Fault.Unless (HaveRoom maps)) (fun l' => l'.size = l.size ∧ l'.Shows (HaveRoom maps) k ∧
            ∀ d d', l.toDense = .ok d → l'.toDense = .ok d' → d' = d) t.transpose)
        l.transpose := by
  have hroom (a : LinearMap R) (ha : a ∈ maps) : Allows (Fault.Unless (HaveRoom maps)) a.extent :=
    allows_unless fun h => h a ha
  obtain ⟨w, -, -, hmaps⟩ := h.exists_marks hroom
  obtain ⟨k, hk⟩ := hmaps l hl
  have hshows : l.Shows (HaveRoom maps) k := hk.shows rfl fun h => h l hl
  have htranspose := (hk.stands.transpose (hroom l hl)).and_eq fun t ht => extent_transpose_le ht
  refine ⟨k, hshows, htranspose.imp fun t ht => ?_⟩
  obtain ⟨ht, htl⟩ := ht
  have ht := ht trivial
  have htshows : t.Shows (HaveRoom maps) fun r c => k c r :=
    ht.bears.shows rfl fun h => Nat.le_trans htl (h l hl)
  have htwice := (ht.transpose ((hroom l hl).mono htl)).and_eq fun l' hl' => extent_transpose_le hl'
  refine ⟨ht.size, htshows, fun x y hx hy => ?_, htwice.imp fun l' hl' => ?_⟩
  · have hback : Multiplies (Fault.Unless (HaveRoom maps)) t.apply l.n l.m fun r c => k c r :=
      ht.apply ((hroom l hl).mono htl)
    refine ((hshows.apply x hx).and_eq fun u hu => hu).imp fun u hu => ⟨hu.1.1, ?_⟩
    refine ((hback y hy).and_eq fun v hv => hv).imp fun v hv => ⟨hv.1.1, ?_⟩
    exact hshows.apply.inner_eq hback hx hy hu.2 hv.2
  · obtain ⟨hl', hl't⟩ := hl'
    have hl' := hl' trivial
    have hshows' : l'.Shows (HaveRoom maps) k :=
      hl'.bears.shows rfl fun h => Nat.le_trans (Nat.le_trans hl't htl) (h l hl)
    refine ⟨hl'.size, hshows', fun d d' hd hd' => ?_⟩
    rw [hshows.toDense_eq hd, hshows'.toDense_eq hd', hl'.rows, hl'.cols]

end LinearMap

/-! ## Some workspaces -/

/-- A mirror is its own adjoint. -/
theorem OpaqueMap.mirror_isAdjoint (n : Nat) :
    IsAdjoint (mirror n : OpaqueMap R).forward.run (mirror n : OpaqueMap R).forward.run n n := by
  refine fun y hy => ⟨_, rfl, Vec.size_build .., fun x u hx hu => ?_⟩
  cases hu
  rw [Vec.inner_eq_sum, Vec.inner_eq_sum, Vec.size_build, hx,
    ← Finset.sum_range_reflect _ n]
  refine Finset.sum_congr rfl fun i hi => ?_
  have hi := Finset.mem_range.1 hi
  rw [Vec.entry_build _ hi, Vec.entry_build _ (by omega), show n - 1 - (n - 1 - i) = i by omega]

/-- The function of a mirror of two entries. -/
def mirrored : Array ℚ → Outcome (Array ℚ) := (OpaqueMap.mirror 2).forward.run

/-- The mirror with its transpose, which is the same function. -/
def OpaqueMap.twoWay : OpaqueMap ℚ where
  m := 2
  n := 2
  forward := ⟨mirrored, some 0⟩
  backward := some ⟨mirrored, some 0⟩
  name := "mirror"

theorem OpaqueMap.twoWay_primitive : twoWay.Primitive [mirrored] where
  linear := mirror_isLinear 2
  adjoint := by
    rintro t ⟨⟩
    exact mirror_isAdjoint 2
  forward_mark := by
    rintro i ⟨⟩
    rfl
  backward_mark := by
    rintro t i ⟨⟩ ⟨⟩
    rfl

namespace LinearMap

/-- The mirror after a diagonal map. -/
def turned : LinearMap ℚ :=
  ((LinearMap.opaqueMap OpaqueMap.twoWay).mul (.diagonal #[2, 3] (some 1))).toOption.getD (identity 0)

theorem mul_eq_turned :
    (LinearMap.opaqueMap OpaqueMap.twoWay).mul (.diagonal #[2, 3] (some 1)) = .ok turned := by
  obtain ⟨s, hs⟩ := exists_eq_ok
    (x := (LinearMap.opaqueMap OpaqueMap.twoWay).mul (.diagonal #[2, 3] (some 1))) (by decide)
  rw [turned, hs]
  rfl

/-- The transpose of the product has the two the other way round. -/
theorem transpose_isAdjoint_turned :
    ∃ maps next l, Workspace [mirrored] maps next ∧ HaveRoom maps ∧ l ∈ maps ∧
      ∃ t u v, l.transpose = .ok t ∧ l.apply #[1, 2] = .ok u ∧ t.apply #[5, 7] = .ok v ∧
        u = #[6, 2] ∧ Vec.inner u #[5, 7] = Vec.inner #[1, 2] v := by
  have hmirror : Workspace [mirrored] [.opaqueMap OpaqueMap.twoWay] 1 :=
    Workspace.start.keep (.opaqueMap OpaqueMap.twoWay_primitive)
  have hboth : Workspace [mirrored] [.diagonal #[2, 3] (some 1), .opaqueMap OpaqueMap.twoWay] 2 :=
    hmirror.keep (.diagonal #[2, 3])
  have hproduct := hboth.keep
    (.mul (List.mem_cons_of_mem _ List.mem_cons_self) List.mem_cons_self mul_eq_turned)
  have hroom : HaveRoom [(turned.share 2).1, .diagonal #[2, 3] (some 1), .opaqueMap OpaqueMap.twoWay] := by
    unfold HaveRoom
    decide +kernel
  obtain ⟨k, -, htranspose⟩ := transpose_isAdjoint hproduct List.mem_cons_self
  obtain ⟨t, ht, -, -, hadjoint, -⟩ := htranspose.exists_of_unless hroom
  obtain ⟨u, hu, -, hback⟩ :=
    (hadjoint #[1, 2] #[5, 7] (by decide +kernel) (by decide +kernel)).exists_of_unless hroom
  obtain ⟨v, hv, -, hinner⟩ := hback.exists_of_unless hroom
  obtain ⟨z, hz, hvalue⟩ := exists_eq_ok_and (x := (turned.share 2).1.apply #[1, 2])
    (p := fun z => z == #[6, 2]) (by decide +kernel)
  cases Except.ok.inj (hu.symm.trans hz)
  exact ⟨_, _, _, hproduct, hroom, List.mem_cons_self, t, u, v, ht, hu, hv, eq_of_beq hvalue, hinner⟩

/-- A hollow product is at hand, and so is its transpose.  The transpose can be applied and the product
    itself cannot. -/
theorem transpose_hollow :
    ∃ (maps : List (LinearMap ℚ)) (next : Nat), Workspace [] maps next ∧ ∃ l ∈ maps, l.n = 0 ∧ l.m = 0 ∧
      l.apply #[] = .error .breach ∧ ∃ t, l.transpose = .ok t ∧ t.apply #[] = .ok #[] := by
  have hfirst : Workspace [] [(.dense (Dense.build 0 1 fun _ _ => 0) (some 0) : LinearMap ℚ)] 1 :=
    Workspace.start.keep (.dense _)
  have hsecond : Workspace [] [(.dense (Dense.build 1152921504606846976 0 fun _ _ => 0) (some 1) : LinearMap ℚ),
      .dense (Dense.build 0 1 fun _ _ => 0) (some 0)] 2 := hfirst.keep (.dense _)
  have hproduct : Workspace [] ((hollow.share 0).1 :: _) 2 := hsecond.keep
    (.tensor (List.mem_cons_of_mem _ List.mem_cons_self) List.mem_cons_self rfl)
  obtain ⟨t, ht⟩ := exists_eq_ok (x := (hollow.share 0).1.transpose) (by decide +kernel)
  obtain ⟨v, hv, hempty⟩ := exists_eq_ok_and (x := (hollow.share 0).1.transpose >>= fun t => t.apply #[])
    (p := fun v => v == #[]) (by decide +kernel)
  rw [ht, eq_of_beq hempty] at hv
  exact ⟨_, _, hproduct, _, List.mem_cons_self, rfl, rfl, eq_breach_of_breached (by decide +kernel),
    t, ht, hv⟩

end LinearMap

end BlockAdmm
