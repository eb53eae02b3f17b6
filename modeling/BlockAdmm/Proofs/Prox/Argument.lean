/-
  The matrix of an argument.

  An argument keeps one map for each of its variables.  Over a layout that has these variables with the
  sizes that the maps ask for (`Argument.Matches`), the maps stand for one matrix over the flat vector: in
  the interval of a variable it has the columns of the map, and zeros where the variable has none
  (`Argument.Bears`).  If the maps are linear, there is such a matrix (`exists_bears`).  The dense matrix of
  the argument is put together map by map and has just its entries (`Bears.ends_dense`), and a diagonal that
  the argument shows is its diagonal (`Bears.diagonal?`).
-/
import BlockAdmm.Proofs.LinearMap.Detection
import BlockAdmm.Proofs.LinearMap.Views
import BlockAdmm.Proofs.Layout
import BlockAdmm.Prox.Argument

namespace BlockAdmm

open Scalar ExactScalar

variable {R : Type}

namespace Argument

/-- `a.Matches layout`: the constant part has an entry for each component, and each map goes from the
    interval of its variable to the components. -/
structure Matches (layout : Layout) (a : Argument R) : Prop where
  offset : a.offset.size = a.dim
  maps : ∀ kl ∈ a.maps.entries, ∃ d, layout.sizes.get? kl.1 = some d ∧ kl.2.size = (a.dim, d)

variable [ExactScalar R] {a : Argument R} {layout : Layout} {g : Lore R} {h : Nat → Nat → R}

/-- `a.Linear`: the opaque parts of the maps are linear. -/
def Linear (a : Argument R) : Prop := ∀ kl ∈ a.maps.entries, kl.2.Linear

/-- `a.Bears g layout h`: the maps have the columns of `h` in the intervals of their variables as
    coefficients, as far as `g` knows, and the columns of other variables are zero. -/
structure Bears (g : Lore R) (layout : Layout) (a : Argument R) (h : Nat → Nat → R) : Prop where
  maps : ∀ kl ∈ a.maps.entries, kl.2.Bears g fun r c => h r (layout.offset kl.1 + c)
  zero : ∀ r j, (∀ kl ∈ a.maps.entries, kl.1 ≠ (layout.cellAt j).1) → h r j = 0

/-- Maps that have coefficients make up a matrix. -/
theorem exists_bears (ha : a.Matches layout) (hmaps : ∀ kl ∈ a.maps.entries, ∃ k, kl.2.Bears g k) :
    ∃ h, a.Bears g layout h := by
  have hcoefs (key : String) : ∃ k, ∀ l, a.maps.get? key = some l → l.Bears g k := by
    cases hget : a.maps.get? key with
    | none => exact ⟨fun _ _ => 0, nofun⟩
    | some l =>
      obtain ⟨k, hk⟩ := hmaps (key, l) (Keyed.get?_eq_some_iff.1 hget)
      exact ⟨k, fun l' hl' => Option.some.inj hl' ▸ hk⟩
  choose coefs hcoefs using hcoefs
  refine ⟨fun r j => if (a.maps.get? (layout.cellAt j).1).isSome
    then coefs (layout.cellAt j).1 r (layout.cellAt j).2 else 0, fun kl hkl => ?_, fun r j hj => ?_⟩
  · obtain ⟨d, hd, hsize⟩ := ha.maps kl hkl
    have hget : a.maps.get? kl.1 = some kl.2 := Keyed.get?_eq_some_iff.2 hkl
    have hcols : kl.2.n = d := congrArg Prod.snd hsize
    refine (hcoefs kl.1 kl.2 hget).congr fun r c _ hc => ?_
    rw [Layout.cellAt_offset hd (hcols ▸ hc), hget]
    rfl
  · refine if_neg fun hsome => ?_
    obtain ⟨l, hl⟩ := Option.isSome_iff_exists.1 hsome
    exact hj _ (Keyed.get?_eq_some_iff.1 hl) rfl

omit [ExactScalar R] in
/-- `a.Usable layout`: the maps can be used, and the dense matrix and its normal matrix can be stored. -/
structure Usable (layout : Layout) (a : Argument R) : Prop where
  maps : ∀ kl ∈ a.maps.entries, kl.2.Usable
  dense : a.dim * layout.n ≤ capacity
  normal : layout.n * layout.n ≤ capacity

/-- A linear argument has a matrix, and its functions end in a breach only if it cannot be used. -/
theorem Linear.exists_bears (hlin : a.Linear) (ha : a.Matches layout) :
    ∃ h, a.Bears (Lore.alone (a.Usable layout)) layout h :=
  Argument.exists_bears ha fun kl hkl => (hlin kl hkl).exists_bears fun hu => (hu.maps kl hkl).2

/-! ## The dense matrix -/

/-- What is put into the columns of a variable, and that the others are left alone. -/
theorem entry_putColumns {dim : Nat} {d d' k : Dense R} {s : Span} (hput : putColumns dim d s k = .ok d') :
    d'.m = d.m ∧ d'.n = d.n ∧ ∀ r j, r < d.m → j < d.n →
      d'.entry r j = if s.offset ≤ j ∧ j < s.offset + s.size then k.entry r (j - s.offset) else d.entry r j := by
  obtain ⟨_, -, hput⟩ := bind_eq_ok.1 hput
  cases pure_eq_ok.1 hput
  refine ⟨rfl, rfl, fun r j hr hj => ?_⟩
  rw [Dense.entry_build _ hr hj]
  simp only [Bool.and_eq_true, decide_eq_true_eq]

/-- A place that belongs to a variable lies in its interval. -/
theorem mem_interval_of_cellAt {k : String} {d j : Nat} (hd : layout.sizes.get? k = some d)
    (hj : j < layout.n) (hcell : (layout.cellAt j).1 = k) :
    layout.offset k ≤ j ∧ j < layout.offset k + d := by
  obtain ⟨d', hd', hlt, hplace⟩ := Layout.cellAt_eq hj
  rw [hcell] at hd' hplace
  cases hd.symm.trans hd'
  omega

/-- `Filled a layout h kls d`: the columns of `d` are those of `h`, but for the variables of the maps
    `kls`, which are still to come. -/
structure Filled (a : Argument R) (layout : Layout) (h : Nat → Nat → R)
    (kls : List (String × LinearMap R)) (d : Dense R) : Prop where
  mem : ∀ kl ∈ kls, kl ∈ a.maps.entries
  size : d.size = (a.dim, layout.n)
  entry : ∀ r j, r < a.dim → j < layout.n → (∀ kl ∈ kls, kl.1 ≠ (layout.cellAt j).1) → d.entry r j = h r j

/-- One map puts in the columns of its variable. -/
theorem Bears.ends_fill {kl : String × LinearMap R} {kls : List (String × LinearMap R)} {d : Dense R}
    (hb : a.Bears g layout h) (ha : a.Matches layout)
    (hmaps : ∀ kl ∈ a.maps.entries, Allows g.faults kl.2.extent) (hd : a.Filled layout h (kl :: kls) d) :
    Ends g.faults (a.Filled layout h kls) (match layout.get? kl.1 with
      | none => .ok d
      | some s => do putColumns a.dim d s (← kl.2.toDense)) := by
  obtain ⟨hkl, hkls⟩ := List.forall_mem_cons.1 hd.mem
  obtain ⟨n, hn, hsize⟩ := ha.maps kl hkl
  obtain ⟨hdm, hdn⟩ : d.m = a.dim ∧ d.n = layout.n := Prod.mk.inj hd.size
  have hstands : kl.2.Stands g a.dim n fun r c => h r (layout.offset kl.1 + c) := ⟨hsize, hb.maps kl hkl⟩
  rw [Layout.get?_eq_some_of_size hn]
  refine (hstands.toDense (hmaps kl hkl)).bind fun k hk => ?_
  obtain ⟨hkm, hkn, hk⟩ := hk
  have hfit : (n == 0 || a.dim == 0 || (decide (a.dim ≤ k.m) && decide (n ≤ k.n))) = true := by
    rw [hkm, hkn]
    simp
  have hends : Ends g.faults (fun _ => True) (putColumns a.dim d ⟨layout.offset kl.1, n⟩ k) :=
    (ends_promise hfit).bind fun _ _ => ends_ok trivial
  refine (hends.and_eq fun d' hd' => entry_putColumns hd').imp fun d' hd' => ?_
  obtain ⟨-, hm', hn', hput⟩ := hd'
  refine ⟨hkls, Prod.ext (hm'.trans hdm) (hn'.trans hdn), fun r j hr hj hrest => ?_⟩
  rw [hput r j (hdm ▸ hr) (hdn ▸ hj)]
  split
  · rename_i hin
    have hin : layout.offset kl.1 ≤ j ∧ j < layout.offset kl.1 + n := hin
    show k.entry r (j - layout.offset kl.1) = h r j
    rw [hk r _ hr (by omega), Nat.add_sub_cancel' hin.1]
  · rename_i hout
    refine hd.entry r j hr hj (List.forall_mem_cons.2 ⟨fun hcell => hout ?_, hrest⟩)
    exact mem_interval_of_cellAt hn hj hcell.symm

/-- The dense matrix of an argument has the entries of the matrix that its maps stand for. -/
theorem Bears.ends_dense (hb : a.Bears g layout h) (ha : a.Matches layout)
    (hroom : Allows g.faults (a.dim * layout.n))
    (hmaps : ∀ kl ∈ a.maps.entries, Allows g.faults kl.2.extent) :
    Ends g.faults (fun d => d.size = (a.dim, layout.n) ∧
      ∀ r j, r < a.dim → j < layout.n → d.entry r j = h r j) (a.dense layout) := by
  have hzero : Ends g.faults (a.Filled layout h a.maps.entries) (Dense.zero a.dim layout.n) := by
    refine hroom.ends_room.bind fun _ _ => ends_ok ⟨fun _ hkl => hkl, rfl, fun r j hr hj hnone => ?_⟩
    rw [Dense.entry_build _ hr hj, hb.zero r j hnone]
  refine hzero.bind fun d hd => ?_
  refine (ends_foldlM_rest (a.Filled layout h) hd fun kl kls d hd => hb.ends_fill ha hmaps hd).imp
    fun d hd => ⟨hd.size, fun r j hr hj => ?_⟩
  exact hd.entry r j hr hj fun _ hkl => absurd hkl List.not_mem_nil

/-! ## Diagonals -/

/-- An argument that shows a diagonal is diagonal. -/
theorem Bears.diagonal? {d : Array R} (hb : a.Bears g layout h) (ha : a.Matches layout)
    (hd : a.diagonal? layout = .ok (some d)) : a.dim = layout.n ∧ d.size = layout.n ∧
      ∀ r c, r < layout.n → c < layout.n → h r c = if r = c then Vec.entry d r else 0 := by
  rw [Argument.diagonal?] at hd
  split at hd
  · cases hd
  rename_i hone
  rw [Bool.or_eq_true, not_or, bne_iff_ne, bne_iff_ne, not_not, not_not] at hone
  split at hd
  · rename_i k l hentries
    split at hd
    · have hkl : (k, l) ∈ a.maps.entries := hentries ▸ List.mem_cons_self
      obtain ⟨n, hn, hsize⟩ := ha.maps (k, l) hkl
      obtain ⟨hm, hn'⟩ : l.m = a.dim ∧ l.n = n := Prod.mk.inj hsize
      obtain ⟨hsquare, hdsize, hdiag⟩ := (hb.maps (k, l) hkl).diagonal? hd
      have hln : l.n = layout.n := hsquare.symm.trans (hm.trans hone.2)
      -- the one variable takes up the whole flat vector
      have hoffset : layout.offset k = 0 := by
        have hle : layout.offset k + n ≤ layout.n := Layout.offset_add_le hn
        omega
      refine ⟨hone.2, hdsize.trans hln, fun r c hr hc => ?_⟩
      have hrc := hdiag r c (hln.symm ▸ hr) (hln.symm ▸ hc)
      dsimp only at hrc
      rwa [hoffset, Nat.zero_add] at hrc
    · cases hd
  · cases hd

/-- Whether an argument shows a diagonal can be told if it can be used. -/
theorem Matches.ends_diagonal? (ha : a.Matches layout) :
    Ends (Fault.Unless (a.Usable layout))
      (fun o => ∀ d, o = some d → d.size = layout.n ∧ a.offset.size = layout.n) (a.diagonal? layout) := by
  rw [Argument.diagonal?]
  split
  · exact ends_ok nofun
  rename_i hone
  rw [Bool.or_eq_true, not_or, bne_iff_ne, bne_iff_ne, not_not, not_not] at hone
  split
  · rename_i k l hentries
    split
    · have hkl : (k, l) ∈ a.maps.entries := hentries ▸ List.mem_cons_self
      obtain ⟨n, -, hsize⟩ := ha.maps (k, l) hkl
      obtain ⟨hm, -⟩ : l.m = a.dim ∧ l.n = n := Prod.mk.inj hsize
      have hshown := (LinearMap.ends_diagonal? (E := Fault.IsBreach) l).unless fun hu : a.Usable layout =>
        l.exists_diagonal? (hu.maps (k, l) hkl).1
      refine hshown.imp fun o ho d hd => ?_
      obtain ⟨hsquare, hdsize⟩ := ho d hd
      exact ⟨hdsize.trans (hsquare.symm.trans (hm.trans hone.2)), ha.offset.trans hone.2⟩
    · exact ends_ok nofun
  · exact ends_ok nofun

end Argument

end BlockAdmm
