/-
  The sizes of linear maps.

  Operands that fit give a result of the size that the operation says, and nothing but what is stored
  can be too large: every promise on the way is kept.  All of this needs to know of a map is its size, and
  that the functions in it keep to the lengths that they are declared with (`LinearMap.Sound`); they need
  not be linear, and the scalars may be any.  A plain map has no functions (`Plain.sound`).  What an
  operation composes is sound again, so the same can be said of its result.  The operations that look
  into a Kronecker product promise more than the sizes of the whole say, which is why a sum goes on with
  the factors only where those that stay are equal (`size_right_of_kronecker`), and a product only where
  both pairs fit.  What is stored has room where the extents have (`Ready`), but for the triplets of a sum,
  which can take three times as much (`Roomy`).  The results have room again if that of a product was there
  for both extents together.
-/
import BlockAdmm.Proofs.LinearMap.Extent
import BlockAdmm.Proofs.LinearMap.Plain
import BlockAdmm.Proofs.LinearMap.Structure
import BlockAdmm.Proofs.Safety.Matrix

namespace BlockAdmm

open Scalar

variable {R : Type} {E F : Fault → Prop} {m n p q : Nat}

/-! ## Functions -/

/-- `f.Maps E n m`: from a vector of `n` entries the function makes one of `m`, or it ends in a fault of
    `E`. -/
def ApplyFn.Maps (E : Fault → Prop) (f : ApplyFn R) (n m : Nat) : Prop :=
  ∀ x, x.size = n → Ends E (fun y => y.size = m) (f.run x)

theorem ApplyFn.Maps.mono {f : ApplyFn R} (h : f.Maps E n m) (hE : ∀ f, E f → F f) : f.Maps F n m :=
  fun x hx => (h x hx).mono hE fun _ hy => hy

/-- `f.Sound E`: the functions of an opaque map keep to the lengths that it declares. -/
structure OpaqueMap.Sound (E : Fault → Prop) (f : OpaqueMap R) : Prop where
  forward : f.forward.Maps E f.n f.m
  backward : ∀ t, f.backward = some t → t.Maps E f.m f.n

theorem OpaqueMap.Sound.mono {f : OpaqueMap R} (h : f.Sound E) (hE : ∀ f, E f → F f) : f.Sound F :=
  ⟨h.forward.mono hE, fun t ht => (h.backward t ht).mono hE⟩

theorem OpaqueMap.Sound.apply {f : OpaqueMap R} (h : f.Sound E) {x : Array R} (hx : x.size = f.n) :
    Ends E (fun y => y.size = f.m) (f.apply x) := by
  refine (ends_promise (beq_iff_eq.2 hx)).bind fun _ _ => (h.forward x hx).bind fun y hy => ?_
  exact (ends_promise (beq_iff_eq.2 hy)).bind fun _ _ => ends_ok hy

theorem OpaqueMap.Sound.toDense [Scalar R] {f : OpaqueMap R} (h : f.Sound E)
    (hroom : Allows E (LinearMap.opaqueMap f).extent) : Ends E (fun d => d.size = f.size) f.toDense := by
  have hmn : Allows E (f.m * f.n) := hroom.mono (LinearMap.opaqueMap f).entries_le_extent
  have hn : Allows E f.n := hroom.mono (Nat.le_of_lt (LinearMap.opaqueMap f).cols_lt_extent)
  refine hmn.ends_room.bind fun _ _ => hn.ends_room.bind fun _ _ => ?_
  exact (ends_mapM fun _ _ => h.apply (Vec.size_build ..)).bind fun _ _ => ends_ok rfl

namespace LinearMap

variable {f g : ApplyFn R}

/-- `l.Sound E`: every function in the map keeps to the lengths that it is declared with. -/
def Sound (E : Fault → Prop) (l : LinearMap R) : Prop := ∀ f ∈ l.opaqueParts, f.Sound E

variable {l a b s : LinearMap R} {x : Array R}

theorem Sound.mono (h : l.Sound E) (hE : ∀ f, E f → F f) : l.Sound F := fun f hf => (h f hf).mono hE

theorem Plain.sound (h : l.Plain) : l.Sound E := by
  intro f hf
  rw [h.opaqueParts_eq_nil] at hf
  exact absurd hf List.not_mem_nil

theorem sound_opaqueMap {f : OpaqueMap R} : (LinearMap.opaqueMap f).Sound E ↔ f.Sound E :=
  List.forall_mem_singleton

theorem sound_kronecker : (LinearMap.kronecker a b).Sound E ↔ a.Sound E ∧ b.Sound E :=
  List.forall_mem_append

theorem Sound.kron [Mul R] (ha : a.Sound E) (hb : b.Sound E) : (a.kron b).Sound E := by
  unfold LinearMap.kron
  split
  · exact Plain.sound trivial
  · exact sound_kronecker.2 ⟨ha, hb⟩

theorem size_kron [Mul R] (a b : LinearMap R) :
    (a.kron b).size = (a.size.1 * b.size.1, a.size.2 * b.size.2) := by
  unfold kron
  split <;> rfl

theorem size_share (l : LinearMap R) (next : Nat) : (l.share next).1.size = l.size := by
  induction l generalizing next with
  | kronecker a b iha ihb =>
    show ((a.share next).1.size.1 * _, (a.share next).1.size.2 * _) = _
    rw [iha, ihb]
    rfl
  | opaqueMap f =>
    obtain ⟨m, n, forward, backward, name⟩ := f
    cases backward <;> rfl
  | dense | sparse | diagonal | scalar => rfl

variable [Scalar R]

theorem maps_scaledFn (alpha : R) (hf : f.Maps E n m) : (scaledFn alpha f).Maps E n m := fun x hx =>
  (hf x hx).bind fun _ hy => ends_ok ((Array.size_map ..).trans hy)

theorem maps_sumFn (hf : f.Maps E n m) (hg : g.Maps E n m) : (sumFn f g).Maps E n m := fun x hx =>
  (hf x hx).bind fun _ hy => (hg x hx).bind fun _ _ => ends_ok ((Vec.size_increase ..).trans hy)

omit [Scalar R] in
theorem maps_composeFn (hf : f.Maps E p m) (hg : g.Maps E n p) : (composeFn f g).Maps E n m := fun x hx =>
  (hg x hx).bind fun z hz => hf z hz

/-! ## Multiples -/

theorem size_scaleBy (alpha : R) (l : LinearMap R) : (l.scaleBy alpha).size = l.size := by
  induction l with
  | diagonal d k =>
    rw [LinearMap.scaleBy]
    split
    · rfl
    · exact congrArg₂ Prod.mk (Vec.size_scale ..) (Vec.size_scale ..)
  | kronecker a b iha _ =>
    rw [LinearMap.scaleBy]
    split
    · rfl
    · rw [size_kron, iha]
      rfl
  | dense | sparse | scalar | opaqueMap => rw [LinearMap.scaleBy]; split <;> rfl

theorem Sound.scaleBy (h : l.Sound E) (alpha : R) : (l.scaleBy alpha).Sound E := by
  induction l with
  | dense | sparse | diagonal | scalar =>
    rw [LinearMap.scaleBy]
    split <;> exact Plain.sound trivial
  | kronecker a b iha _ =>
    rw [LinearMap.scaleBy]
    split
    · exact h
    · obtain ⟨ha, hb⟩ := sound_kronecker.1 h
      exact (iha ha).kron hb
  | opaqueMap f =>
    rw [LinearMap.scaleBy]
    split
    · exact h
    · rw [sound_opaqueMap] at h ⊢
      refine ⟨maps_scaledFn alpha h.forward, fun t ht => ?_⟩
      obtain ⟨t', ht', rfl⟩ := Option.map_eq_some_iff.1 ht
      exact maps_scaledFn alpha (h.backward t' ht')

/-! ## Views -/

theorem Sound.toDense (h : l.Sound E) (hroom : Allows E l.extent) :
    Ends E (fun d => d.size = l.size) l.toDense := by
  induction l with
  | dense a _ => exact ends_ok rfl
  | sparse a mark => exact Sparse.ends_expand (hroom.mono (LinearMap.sparse a mark).entries_le_extent)
  | diagonal | scalar => exact (hroom.mono (entries_le_extent _)).ends_room.bind fun _ _ => ends_ok rfl
  | kronecker a b iha ihb =>
    obtain ⟨ha, hb⟩ := sound_kronecker.1 h
    refine (iha ha (hroom.mono (extent_left_le a b))).bind fun da hda => ?_
    refine (ihb hb (hroom.mono (extent_right_le a b))).bind fun db hdb => ?_
    have hsize : (da.size.1 * db.size.1, da.size.2 * db.size.2) = (LinearMap.kronecker a b).size :=
      congrArg₂ (fun s t : Size => (s.1 * t.1, s.2 * t.2)) hda hdb
    refine (Dense.ends_make ?_ _).imp fun d hd => hd.trans hsize
    obtain ⟨hm, hn⟩ := Prod.mk.inj hsize
    exact hroom.mono (hm ▸ hn ▸ (LinearMap.kronecker a b).entries_le_extent)
  | opaqueMap f => exact (sound_opaqueMap.1 h).toDense hroom

theorem Sound.toSparse (h : l.Sound E) (hroom : Allows E l.extent) (htriplets : Allows E l.tripletExtent) :
    Ends E (fun a => a.size = l.size) l.toSparse := by
  induction l with
  | dense a mark =>
    exact (Sparse.ends_extract htriplets (hroom.mono (LinearMap.dense a mark).cols_lt_extent)).imp
      fun s hs => hs ▸ rfl
  | sparse => exact ends_ok rfl
  | diagonal d mark =>
    exact (Sparse.ends_scatter (hroom.mono (LinearMap.diagonal d mark).cols_lt_extent)).imp fun s hs => hs ▸ rfl
  | scalar n alpha mark =>
    have hn : (Vec.build n fun _ => alpha).size = n := Vec.size_build ..
    have hcols : Allows E ((Vec.build n fun _ => alpha).size + 1) :=
      hn.symm ▸ hroom.mono (LinearMap.scalar n alpha mark).cols_lt_extent
    refine (Sparse.ends_scatter hcols).imp fun s hs => ?_
    rw [hs]
    exact congrArg₂ Prod.mk hn hn
  | kronecker a b iha ihb =>
    obtain ⟨ha, hb⟩ := sound_kronecker.1 h
    refine (iha ha (hroom.mono (extent_left_le a b)) (htriplets.mono (tripletExtent_left_le a b))).bind
      fun sa hsa => ?_
    refine (ihb hb (hroom.mono (extent_right_le a b)) (htriplets.mono (tripletExtent_right_le a b))).bind
      fun sb hsb => ?_
    obtain ⟨ham, han⟩ : sa.m = a.m ∧ sa.n = a.n := Prod.mk.inj hsa
    obtain ⟨hbm, hbn⟩ : sb.m = b.m ∧ sb.n = b.n := Prod.mk.inj hsb
    have hlists : Allows E (3 * ((sa.m * sa.n + 1) * (sb.m * sb.n))) := by
      rw [ham, han, hbm, hbn]
      exact htriplets.mono (triplets_le_tripletExtent a b)
    have hcols : Allows E (sa.n * sb.n + 1) := by
      rw [han, hbn]
      exact hroom.mono (LinearMap.kronecker a b).cols_lt_extent
    refine (Sparse.ends_tensor hlists hcols).imp fun s hs => ?_
    rw [hs]
    exact congrArg₂ (fun s t : Size => (s.1 * t.1, s.2 * t.2)) hsa hsb
  | opaqueMap f =>
    refine ((sound_opaqueMap.1 h).toDense hroom).bind fun d hd => ?_
    obtain ⟨hm, hn⟩ : d.m = f.m ∧ d.n = f.n := Prod.mk.inj hd
    have hlist : Allows E (3 * (d.m * d.n)) := by
      rw [hm, hn]
      exact htriplets
    have hcols : Allows E (d.n + 1) := by
      rw [hn]
      exact hroom.mono (LinearMap.opaqueMap f).cols_lt_extent
    exact (Sparse.ends_extract hlist hcols).imp fun s hs => hs ▸ hd

/-- The two steps of a Kronecker product, each on vectors that fit. -/
theorem ends_kronApply {r s : Nat} {fa fb : Array R → Outcome (Array R)} (hbefore : Allows E (r * q))
    (hafter : Allows E (r * p)) (hrow : Allows E q)
    (ha : ∀ x, x.size = q → Ends E (fun y => y.size = p) (fa x))
    (hb : ∀ x, x.size = s → Ends E (fun y => y.size = r) (fb x)) (x : Array R) :
    Ends E (fun y => y.size = r * p) (kronApply p q r s fa fb x) := by
  refine hbefore.ends_room.bind fun _ _ => ?_
  refine (ends_mapM fun _ _ => hb _ (Vec.size_build ..)).bind fun _ _ => ?_
  refine hafter.ends_room.bind fun _ _ => hrow.ends_room.bind fun _ _ => ?_
  refine (ends_mapM fun _ _ => ha _ (Vec.size_build ..)).bind fun _ _ => ?_
  exact ends_ok (Vec.size_build ..)

theorem Sound.apply (h : l.Sound E) (hroom : Allows E l.extent) (hx : x.size = l.n) :
    Ends E (fun y => y.size = l.m) (l.apply x) := by
  induction l generalizing x with
  | dense a mark =>
    have hm : Allows E a.m := hroom.mono (Nat.le_of_lt (LinearMap.dense a mark).rows_lt_extent)
    exact (ends_promise (beq_iff_eq.2 hx)).bind fun _ _ => Dense.ends_mulVec hm hx
  | sparse a mark =>
    have hm : Allows E a.m := hroom.mono (Nat.le_of_lt (LinearMap.sparse a mark).rows_lt_extent)
    refine (ends_promise (beq_iff_eq.2 hx)).bind fun _ _ => hm.ends_room.bind fun _ _ => ?_
    exact ends_ok (Vec.size_build ..)
  | diagonal d _ =>
    exact (ends_promise (beq_iff_eq.2 hx)).bind fun _ _ => ends_ok (Vec.size_build ..)
  | scalar n alpha _ =>
    refine (ends_promise (beq_iff_eq.2 hx)).bind fun _ _ => ends_ok ?_
    exact (Vec.size_scale alpha x).trans hx
  | kronecker a b iha ihb =>
    obtain ⟨ha, hb⟩ := sound_kronecker.1 h
    have hrows := Nat.le_of_lt b.rows_lt_extent
    have hbefore : Allows E (b.m * a.n) := hroom.mono <| by
      rw [Nat.mul_comm]
      exact Nat.mul_le_mul (Nat.le_of_lt a.cols_lt_extent) hrows
    have hafter : Allows E (b.m * a.m) := hroom.mono <| by
      rw [Nat.mul_comm]
      exact Nat.mul_le_mul (Nat.le_of_lt a.rows_lt_extent) hrows
    have hrow : Allows E a.n :=
      hroom.mono (Nat.le_trans (Nat.le_of_lt a.cols_lt_extent) (extent_left_le a b))
    refine (ends_promise (beq_iff_eq.2 hx)).bind fun _ _ => ?_
    refine (ends_kronApply hbefore hafter hrow (fun _ => iha ha (hroom.mono (extent_left_le a b)))
      (fun _ => ihb hb (hroom.mono (extent_right_le a b))) x).imp fun y hy => ?_
    exact hy.trans (Nat.mul_comm ..)
  | opaqueMap f => exact (sound_opaqueMap.1 h).apply hx

/-! ## Transposes -/

theorem Sound.transpose (h : l.Sound E) (hroom : Allows E l.extent) :
    Ends E (fun t => t.size = (l.n, l.m) ∧ t.Sound E) l.transpose := by
  induction l with
  | dense | diagonal | scalar => exact ends_ok ⟨rfl, Plain.sound trivial⟩
  | sparse a mark =>
    refine (Sparse.ends_flip (hroom.mono (LinearMap.sparse a mark).rows_lt_extent)).bind fun t ht => ?_
    exact ends_ok ⟨ht, Plain.sound trivial⟩
  | kronecker a b iha ihb =>
    obtain ⟨ha, hb⟩ := sound_kronecker.1 h
    refine (iha ha (hroom.mono (extent_left_le a b))).bind fun ta hta => ?_
    refine (ihb hb (hroom.mono (extent_right_le a b))).bind fun tb htb => ends_ok ?_
    refine ⟨?_, hta.2.kron htb.2⟩
    rw [size_kron, hta.1, htb.1]
    rfl
  | opaqueMap f =>
    have hf := sound_opaqueMap.1 h
    obtain ⟨m, n, forward, backward, name⟩ := f
    cases backward with
    | some t =>
      refine ends_ok ⟨rfl, sound_opaqueMap.2 ⟨hf.backward t rfl, ?_⟩⟩
      rintro _ ⟨⟩
      exact hf.forward
    | none =>
      refine (hf.toDense hroom).bind fun d hd => ends_ok ⟨?_, Plain.sound trivial⟩
      exact congrArg (fun s : Size => (s.2, s.1)) hd

theorem Sound.applyFn (h : l.Sound E) (hroom : Allows E l.extent) : l.applyFn.Maps E l.n l.m := by
  cases l with
  | opaqueMap f => exact (sound_opaqueMap.1 h).forward
  | dense | sparse | diagonal | scalar | kronecker => exact fun x hx => h.apply hroom hx

theorem Sound.transposeFn? (h : l.Sound E) (hroom : Allows E l.extent) :
    Ends E (fun o => ∀ t, o = some t → t.Maps E l.m l.n) l.transposeFn? := by
  cases l with
  | opaqueMap f => exact ends_ok (sound_opaqueMap.1 h).backward
  | dense | sparse | diagonal | scalar | kronecker =>
    -- the function is that of the transpose, which needs no more room than the map
    refine ((h.transpose hroom).and_eq fun t ht => extent_transpose_le ht).bind fun t ht => ?_
    obtain ⟨⟨hsize, hsound⟩, hle⟩ := ht
    obtain ⟨hm, hn⟩ : t.m = LinearMap.n _ ∧ t.n = LinearMap.m _ := Prod.mk.inj hsize
    refine ends_ok fun f hf => ?_
    cases hf
    exact hm ▸ hn ▸ hsound.applyFn (hroom.mono hle)

omit [Scalar R] in
/-- What two known functions are combined to keeps to the lengths, if the combination does. -/
theorem maps_both {op : ApplyFn R → ApplyFn R → ApplyFn R} {ta tb : Option (ApplyFn R)} {t : ApplyFn R}
    (ht : both op ta tb = some t)
    (hop : ∀ f g, ta = some f → tb = some g → (op f g).Maps E m n) : t.Maps E m n := by
  cases ta with
  | none => cases ht
  | some f =>
    cases tb with
    | none => cases ht
    | some g => exact Option.some.inj ht ▸ hop f g rfl rfl

/-! ## Sums -/

theorem Sound.opaqueSum (ha : a.Sound E) (hb : b.Sound E) (hra : Allows E a.extent)
    (hrb : Allows E b.extent) (h : b.size = a.size) :
    Ends E (fun s => s.size = a.size ∧ s.Sound E) (opaqueSum a b) := by
  obtain ⟨hm, hn⟩ : b.m = a.m ∧ b.n = a.n := Prod.mk.inj h
  refine (ha.transposeFn? hra).bind fun ta hta => (hb.transposeFn? hrb).bind fun tb htb => ends_ok ?_
  refine ⟨rfl, sound_opaqueMap.2 ⟨maps_sumFn (ha.applyFn hra) (hm ▸ hn ▸ hb.applyFn hrb), fun t ht => ?_⟩⟩
  exact maps_both ht fun f g hf hg => maps_sumFn (hta f hf) (hm ▸ hn ▸ htb g hg)

theorem Sound.denseSum (ha : a.Sound E) (hb : b.Sound E) (hra : Allows E a.extent)
    (hrb : Allows E b.extent) (h : b.size = a.size) :
    Ends E (fun s => s.size = a.size ∧ s.Sound E) (denseSum a b) := by
  refine (ha.toDense hra).bind fun da hda => (hb.toDense hrb).bind fun db hdb => ?_
  refine (Dense.ends_addScaled 1 (hdb.trans (h.trans hda.symm))).bind fun d hd => ?_
  exact ends_ok ⟨hd.trans hda, Plain.sound trivial⟩

theorem Sound.sparseSum (hF : ∀ f, E f → F f) (ha : a.Sound E) (hb : b.Sound E)
    (hta : Allows F (3 * a.extent)) (htb : Allows F (3 * b.extent)) :
    Ends F (fun s => s.size = a.size ∧ s.Sound E) (sparseSum a b) := by
  refine ((ha.mono hF).toSparse (hta.mono a.extent_le_three) (hta.mono a.tripletExtent_le)).bind fun sa hsa => ?_
  refine ((hb.mono hF).toSparse (htb.mono b.extent_le_three) (htb.mono b.tripletExtent_le)).bind fun sb hsb => ?_
  obtain ⟨ham, han⟩ : sa.m = a.m ∧ sa.n = a.n := Prod.mk.inj hsa
  obtain ⟨hbm, hbn⟩ : sb.m = b.m ∧ sb.n = b.n := Prod.mk.inj hsb
  have hla : Allows F (3 * (sa.m * sa.n)) := by
    rw [ham, han]
    exact hta.mono (Nat.mul_le_mul_left 3 a.entries_le_extent)
  have hlb : Allows F (3 * (sb.m * sb.n)) := by
    rw [hbm, hbn]
    exact htb.mono (Nat.mul_le_mul_left 3 b.entries_le_extent)
  refine (Sparse.ends_merge hla hlb).bind fun s hs => ends_ok ⟨?_, Plain.sound trivial⟩
  rw [hs]
  exact hsa

/-- One level of a sum, given the sums of the factors of Kronecker products. -/
theorem ends_add_of_factors (hF : ∀ f, E f → F f)
    (hf : ∀ a₁ a₂ b₁ b₂, a = .kronecker a₁ a₂ → b = .kronecker b₁ b₂ →
      (b₁.size = a₁.size → Ends F (fun s => s.size = a₁.size ∧ s.Sound E) (a₁.add b₁)) ∧
      (b₂.size = a₂.size → Ends F (fun s => s.size = a₂.size ∧ s.Sound E) (a₂.add b₂)))
    (ha : a.Sound E) (hb : b.Sound E) (hra : Allows E a.extent) (hrb : Allows E b.extent)
    (hta : Allows F (3 * a.extent)) (htb : Allows F (3 * b.extent)) (h : b.size = a.size) :
    Ends F (fun s => s.size = a.size ∧ s.Sound E) (a.add b) := by
  rw [LinearMap.add.eq_def]
  refine (ends_promise (beq_iff_eq.2 h.symm)).bind fun _ _ => ?_
  split
  · exact ends_ok ⟨rfl, ha⟩
  · rename_i hne
    rw [Bool.or_eq_true, beq_iff_eq, beq_iff_eq, not_or] at hne
    split
    · exact ends_ok ⟨rfl, Plain.sound trivial⟩
    · exact (ha.opaqueSum hb hra hrb h).mono hF fun _ hs => hs
    · exact (ha.opaqueSum hb hra hrb h).mono hF fun _ hs => hs
    · exact ends_ok ⟨congrArg₂ Prod.mk (Vec.size_build ..) (Vec.size_build ..), Plain.sound trivial⟩
    · exact ends_ok ⟨congrArg₂ Prod.mk (Vec.size_build ..) (Vec.size_build ..), Plain.sound trivial⟩
    · exact ends_ok ⟨congrArg₂ Prod.mk (Vec.size_build ..) (Vec.size_build ..), Plain.sound trivial⟩
    · rename_i a₁ a₂ b₁ b₂
      obtain ⟨h₁, h₂⟩ := hf a₁ a₂ b₁ b₂ rfl rfl
      obtain ⟨ha₁, ha₂⟩ := sound_kronecker.1 ha
      have hsize : (a₁.m * a₂.m, a₁.n * a₂.n) = (b₁.m * b₂.m, b₁.n * b₂.n) := h.symm
      split
      · rename_i heq
        have hsize₂ := size_right_of_kronecker hsize (size_eq_of_equal heq) hne
        refine (h₂ hsize₂.symm).bind fun s hs => ends_ok ⟨?_, ha₁.kron hs.2⟩
        rw [size_kron, hs.1]
        rfl
      · split
        · rename_i heq
          have hsize₁ := size_left_of_kronecker hsize (size_eq_of_equal heq) hne
          refine (h₁ hsize₁.symm).bind fun s hs => ends_ok ⟨?_, hs.2.kron ha₂⟩
          rw [size_kron, hs.1]
          rfl
        · exact ha.sparseSum hF hb hta htb
    · exact (ha.denseSum hb hra hrb h).mono hF fun _ hs => hs
    · exact (ha.denseSum hb hra hrb h).mono hF fun _ hs => hs
    · exact ha.sparseSum hF hb hta htb

/-- A sum of maps of one size has that size.  For itself other faults may be allowed than for what is in
    the maps. -/
theorem Sound.add (hF : ∀ f, E f → F f) (ha : a.Sound E) (hb : b.Sound E) (hra : Allows E a.extent)
    (hrb : Allows E b.extent) (hta : Allows F (3 * a.extent)) (htb : Allows F (3 * b.extent))
    (h : b.size = a.size) : Ends F (fun s => s.size = a.size ∧ s.Sound E) (a.add b) := by
  induction a generalizing b with
  | kronecker a₁ a₂ ih₁ ih₂ =>
    refine ends_add_of_factors hF (fun a₁' a₂' b₁ b₂ ha' hb' => ?_) ha hb hra hrb hta htb h
    cases ha'
    cases hb'
    obtain ⟨ha₁, ha₂⟩ := sound_kronecker.1 ha
    obtain ⟨hb₁, hb₂⟩ := sound_kronecker.1 hb
    exact ⟨ih₁ ha₁ hb₁ (hra.mono (extent_left_le ..)) (hrb.mono (extent_left_le ..))
        (hta.mono (Nat.mul_le_mul_left 3 (extent_left_le ..)))
        (htb.mono (Nat.mul_le_mul_left 3 (extent_left_le ..))),
      ih₂ ha₂ hb₂ (hra.mono (extent_right_le ..)) (hrb.mono (extent_right_le ..))
        (hta.mono (Nat.mul_le_mul_left 3 (extent_right_le ..)))
        (htb.mono (Nat.mul_le_mul_left 3 (extent_right_le ..)))⟩
  | dense | sparse | diagonal | scalar | opaqueMap =>
    exact ends_add_of_factors hF (fun _ _ _ _ h => by cases h) ha hb hra hrb hta htb h

/-! ## Products -/

theorem Sound.opaqueProduct (ha : a.Sound E) (hb : b.Sound E) (hra : Allows E a.extent)
    (hrb : Allows E b.extent) (h : a.n = b.m) :
    Ends E (fun s => s.size = (a.m, b.n) ∧ s.Sound E) (opaqueProduct a b) := by
  refine (ha.transposeFn? hra).bind fun ta hta => (hb.transposeFn? hrb).bind fun tb htb => ends_ok ?_
  refine ⟨rfl, sound_opaqueMap.2 ⟨maps_composeFn (ha.applyFn hra) (h ▸ hb.applyFn hrb), fun t ht => ?_⟩⟩
  exact maps_both ht fun f g hf hg => maps_composeFn (htb g hg) (h ▸ hta f hf)

theorem Sound.denseProduct (ha : a.Sound E) (hb : b.Sound E) (hra : Allows E a.extent)
    (hrb : Allows E b.extent) (hrab : Allows E (a.extent * b.extent)) (h : a.n = b.m) :
    Ends E (fun s => s.size = (a.m, b.n) ∧ s.Sound E) (denseProduct a b) := by
  refine (ha.toDense hra).bind fun da hda => (hb.toDense hrb).bind fun db hdb => ?_
  obtain ⟨ham, han⟩ : da.m = a.m ∧ da.n = a.n := Prod.mk.inj hda
  obtain ⟨hbm, hbn⟩ : db.m = b.m ∧ db.n = b.n := Prod.mk.inj hdb
  have hroom : Allows E (da.m * db.n) := hrab.mono <| by
    rw [ham, hbn]
    exact Nat.mul_le_mul (Nat.le_of_lt a.rows_lt_extent) (Nat.le_of_lt b.cols_lt_extent)
  refine (Dense.ends_mulMat hroom (han.trans (h.trans hbm.symm))).bind fun d hd => ?_
  exact ends_ok ⟨hd.trans (congrArg₂ Prod.mk ham hbn), Plain.sound trivial⟩

theorem Sound.sparseProduct (ha : a.Sound E) (hb : b.Sound E) (hroom : Allows E (productRoom a.n a b))
    (h : a.n = b.m) : Ends E (fun s => s.size = (a.m, b.n) ∧ s.Sound E) (sparseProduct a b) := by
  obtain ⟨hta, htb⟩ := tripletExtent_le_productRoom h
  obtain ⟨htable, hproducts⟩ := products_le_productRoom h
  have hboth := hroom.mono (extents_le_productRoom a.n a b)
  refine (ha.toSparse (hboth.mono (extent_left_le a b)) (hroom.mono hta)).bind fun sa hsa => ?_
  refine (hb.toSparse (hboth.mono (extent_right_le a b)) (hroom.mono htb)).bind fun sb hsb => ?_
  obtain ⟨ham, han⟩ : sa.m = a.m ∧ sa.n = a.n := Prod.mk.inj hsa
  obtain ⟨hbm, hbn⟩ : sb.m = b.m ∧ sb.n = b.n := Prod.mk.inj hsb
  have hcolumns : Allows E (3 * sa.n) := by
    rw [han]
    exact hroom.mono htable
  have hlist : Allows E (3 * (sb.m * sb.n * sa.m)) := by
    rw [ham, hbm, hbn]
    exact hroom.mono hproducts
  refine (Sparse.ends_compose hcolumns hlist).bind fun s hs => ends_ok ⟨?_, Plain.sound trivial⟩
  rw [hs]
  exact congrArg₂ Prod.mk ham hbn

/-- One level of a product, given the products of the factors of Kronecker products. -/
theorem ends_mul_of_factors
    (hf : ∀ a₁ a₂ b₁ b₂, a = .kronecker a₁ a₂ → b = .kronecker b₁ b₂ →
      (a₁.n = b₁.m → Ends E (fun s => s.size = (a₁.m, b₁.n) ∧ s.Sound E) (a₁.mul b₁)) ∧
      (a₂.n = b₂.m → Ends E (fun s => s.size = (a₂.m, b₂.n) ∧ s.Sound E) (a₂.mul b₂)))
    (ha : a.Sound E) (hb : b.Sound E) (hroom : Allows E (productRoom a.n a b)) (h : a.n = b.m) :
    Ends E (fun s => s.size = (a.m, b.n) ∧ s.Sound E) (a.mul b) := by
  have hboth := hroom.mono (extents_le_productRoom a.n a b)
  have hra := hboth.mono (extent_left_le a b)
  have hrb := hboth.mono (extent_right_le a b)
  rw [LinearMap.mul.eq_def]
  refine (ends_promise (beq_iff_eq.2 h)).bind fun _ _ => ?_
  split
  · refine ends_ok ⟨(size_scaleBy ..).trans ?_, hb.scaleBy _⟩
    exact Prod.ext h.symm rfl
  · refine ends_ok ⟨(size_scaleBy ..).trans ?_, ha.scaleBy _⟩
    exact Prod.ext rfl h
  · exact ha.opaqueProduct hb hra hrb h
  · exact ha.opaqueProduct hb hra hrb h
  · refine ends_ok ⟨congrArg₂ Prod.mk (Vec.size_build ..) ((Vec.size_build ..).trans ?_),
      Plain.sound trivial⟩
    exact h
  · rename_i a₁ a₂ b₁ b₂
    obtain ⟨h₁, h₂⟩ := hf a₁ a₂ b₁ b₂ rfl rfl
    split
    · rename_i hfit
      rw [Bool.and_eq_true, beq_iff_eq, beq_iff_eq] at hfit
      refine (h₁ hfit.1).bind fun s₁ hs₁ => (h₂ hfit.2).bind fun s₂ hs₂ => ?_
      refine ends_ok ⟨?_, hs₁.2.kron hs₂.2⟩
      rw [size_kron, hs₁.1, hs₂.1]
      rfl
    · exact ha.sparseProduct hb hroom h
  · exact ha.denseProduct hb hra hrb hboth h
  · exact ha.denseProduct hb hra hrb hboth h
  · exact ha.sparseProduct hb hroom h

/-- A product of maps that fit has the rows of the first and the columns of the second. -/
theorem Sound.mul (ha : a.Sound E) (hb : b.Sound E) (hroom : Allows E (productRoom a.n a b)) (h : a.n = b.m) :
    Ends E (fun s => s.size = (a.m, b.n) ∧ s.Sound E) (a.mul b) := by
  induction a generalizing b with
  | kronecker a₁ a₂ ih₁ ih₂ =>
    refine ends_mul_of_factors (fun a₁' a₂' b₁ b₂ ha' hb' => ?_) ha hb hroom h
    cases ha'
    cases hb'
    obtain ⟨ha₁, ha₂⟩ := sound_kronecker.1 ha
    obtain ⟨hb₁, hb₂⟩ := sound_kronecker.1 hb
    exact ⟨ih₁ ha₁ hb₁ (hroom.mono (productRoom_left_le ..)),
      ih₂ ha₂ hb₂ (hroom.mono (productRoom_right_le ..))⟩
  | dense | sparse | diagonal | scalar | opaqueMap =>
    exact ends_mul_of_factors (fun _ _ _ _ h => by cases h) ha hb hroom h

/-- What multiplies by a matrix, and by its transpose where it is known for that, keeps to the lengths. -/
theorem Bears.sound {S : Type} [ExactScalar S] {e : Lore S} {l : LinearMap S} {k : Nat → Nat → S}
    (h : l.Bears e k) (he : e.transposes) : l.Sound e.faults := by
  induction l generalizing k with
  | dense | sparse | diagonal | scalar => exact Plain.sound trivial
  | kronecker a b iha ihb =>
    obtain ⟨ka, kb, ha, hb, -⟩ := h
    exact sound_kronecker.2 ⟨iha ha, ihb hb⟩
  | opaqueMap f =>
    refine sound_opaqueMap.2 ⟨fun x hx => ?_, fun t ht y hy => ?_⟩
    · exact (h.1.multiplies x hx).imp fun _ hz => hz.1
    · exact ((h.2 he t ht).multiplies y hy).imp fun _ hz => hz.1

/-! ## Maps that are ready -/

omit [Scalar R] in
/-- `l.Ready E`: the functions in the map keep to the lengths, and there is room for its extent or a breach is
    among the faults. -/
structure Ready (E : Fault → Prop) (l : LinearMap R) : Prop where
  sound : l.Sound E
  room : Allows E l.extent

theorem Ready.apply (h : l.Ready E) (hx : x.size = l.n) : Ends E (fun y => y.size = l.m) (l.apply x) :=
  h.sound.apply h.room hx

theorem Ready.transpose (h : l.Ready E) :
    Ends E (fun t => t.size = (l.n, l.m) ∧ t.Ready E) l.transpose :=
  ((h.sound.transpose h.room).and_eq fun _ ht => h.room.mono (extent_transpose_le ht)).imp fun _ ht =>
    ⟨ht.1.1, ht.1.2, ht.2⟩

/-- A sum may have to write both maps out, with their triplets. -/
theorem Ready.add (hF : ∀ f, E f → F f) (ha : a.Ready E) (hb : b.Ready E) (hta : Allows F (3 * a.extent))
    (htb : Allows F (3 * b.extent)) (h : b.size = a.size) :
    Ends F (fun s => s.size = a.size ∧ s.Ready E) (a.add b) := by
  have hsum := ha.sound.add hF hb.sound ha.room hb.room hta htb h
  exact (hsum.and_eq fun s hs => ha.room.of_le_max hb.room (extent_add_le hs)).imp fun s hs =>
    ⟨hs.1.1, hs.1.2, hs.2⟩

omit [Scalar R] in
/-- `l.Roomy E`: the same with room for three times the extent, which a sum can need. -/
structure Roomy (E : Fault → Prop) (l : LinearMap R) : Prop where
  sound : l.Sound E
  room : Allows E (3 * l.extent)

omit [Scalar R] in
theorem Roomy.ready (h : l.Roomy E) : l.Ready E := ⟨h.sound, h.room.mono l.extent_le_three⟩

theorem Roomy.add (ha : a.Roomy E) (hb : b.Roomy E) (h : b.size = a.size) :
    Ends E (fun s => s.size = a.size ∧ s.Roomy E) (a.add b) := by
  have hsum := ha.ready.add (fun _ hf => hf) hb.ready ha.room hb.room h
  refine (hsum.and_eq fun s hs => ha.room.of_le_max hb.room ?_).imp fun s hs => ⟨hs.1.1, hs.1.2.sound, hs.2⟩
  rw [Nat.mul_max_mul_left]
  exact Nat.mul_le_mul_left 3 (extent_add_le hs)

/-- A product that there is room for can be added to others. -/
theorem Ready.mul (ha : a.Ready E) (hb : b.Ready E) (hroom : Allows E (productRoom a.n a b)) (h : a.n = b.m) :
    Ends E (fun s => s.size = (a.m, b.n) ∧ s.Roomy E) (a.mul b) :=
  ((ha.sound.mul hb.sound hroom h).and_eq fun _ hs => hroom.mono (three_mul_extent_mul_le hs)).imp
    fun _ hs => ⟨hs.1.1, hs.1.2, hs.2⟩

variable [Limits E]

/-! ## Kinds of maps -/

/-- `Adds E P`: a sum of maps of one size with `P` has `P` and that size, or it ends in a fault of `E`. -/
structure Adds (E : Fault → Prop) (P : LinearMap R → Prop) : Prop where
  add : ∀ {a b}, P a → P b → b.size = a.size → Ends E (fun s => s.size = a.size ∧ P s) (a.add b)

/-- `Closed E P`: what the other operations make of maps with `P` that fit has `P` and the size that the
    operation says, too. -/
structure Closed (E : Fault → Prop) (P : LinearMap R → Prop) : Prop extends Adds E P where
  transpose : ∀ {l}, P l → Ends E (fun t => t.size = (l.n, l.m) ∧ P t) l.transpose
  mul : ∀ {a b}, P a → P b → a.n = b.m → Ends E (fun s => s.size = (a.m, b.n) ∧ P s) (a.mul b)

omit [Limits E] in
theorem Adds.mono {P : LinearMap R → Prop} (h : Adds E P) (hE : ∀ f, E f → F f) : Adds F P :=
  ⟨fun ha hb hsize => (h.add ha hb hsize).mono hE fun _ hs => hs⟩

omit [Limits E] in
theorem adds_ready [Limits F] (hF : ∀ f, E f → F f) : Adds F (Ready E : LinearMap R → Prop) :=
  ⟨fun ha hb h => ha.add hF hb (allows_of_limits _) (allows_of_limits _) h⟩

omit [Limits E] in
theorem adds_roomy : Adds E (Roomy E : LinearMap R → Prop) := ⟨Roomy.add⟩

omit [Limits E] in
theorem Closed.mono {P : LinearMap R → Prop} (h : Closed E P) (hE : ∀ f, E f → F f) : Closed F P where
  toAdds := h.toAdds.mono hE
  transpose hl := (h.transpose hl).mono hE fun _ ht => ht
  mul ha hb hfit := (h.mul ha hb hfit).mono hE fun _ hs => hs

theorem closed_sound : Closed E (Sound E : LinearMap R → Prop) where
  transpose h := h.transpose (allows_of_limits _)
  add ha hb := ha.add (fun _ hf => hf) hb (allows_of_limits _) (allows_of_limits _) (allows_of_limits _)
    (allows_of_limits _)
  mul ha hb := ha.mul hb (allows_of_limits _)

theorem closed_plain : Closed E (Plain : LinearMap R → Prop) where
  transpose h := ((closed_sound.transpose h.sound).and_eq fun _ ht => h.transpose ht).imp fun _ ht =>
    ⟨ht.1.1, ht.2⟩
  add ha hb h := ((closed_sound.add ha.sound hb.sound h).and_eq fun _ hs => ha.add hb hs).imp fun _ hs =>
    ⟨hs.1.1, hs.2⟩
  mul ha hb h := ((closed_sound.mul ha.sound hb.sound h).and_eq fun _ hs => ha.mul hb hs).imp fun _ hs =>
    ⟨hs.1.1, hs.2⟩

/-! ## Structure -/

theorem ends_tensorDiagonal (da db : Array R) :
    Ends E (fun d => d = kronDiagonal da db) (tensorDiagonal da db) :=
  (ends_room _).bind fun _ _ => (ends_room _).bind fun _ _ => (ends_room _).bind fun _ _ => ends_ok rfl

theorem ends_diagonal? (l : LinearMap R) :
    Ends E (fun o => ∀ d, o = some d → l.m = l.n ∧ d.size = l.n) l.diagonal? := by
  induction l with
  | dense | sparse | diagonal | scalar | kronecker | opaqueMap => ?_
  all_goals
    rw [LinearMap.diagonal?.eq_def]
    split
    · exact ends_ok fun d hd => by cases hd
    rename_i hsquare
    rw [bne_iff_ne, not_not] at hsquare
  case dense a _ =>
    refine ends_ok fun d hd => ⟨hsquare, ?_⟩
    split at hd
    · exact Option.some.inj hd ▸ Vec.size_build ..
    · cases hd
  case sparse a _ => exact ends_ok fun d hd => ⟨hsquare, Sparse.size_of_diagonal? hd⟩
  case diagonal d _ => exact ends_ok fun d hd => ⟨hsquare, Option.some.inj hd ▸ rfl⟩
  case scalar n alpha _ =>
    refine (ends_room n).bind fun _ _ => ends_ok fun d hd => ⟨hsquare, ?_⟩
    exact Option.some.inj hd ▸ Vec.size_build ..
  case kronecker a b iha ihb =>
    refine iha.bind fun oa hoa => ?_
    cases oa with
    | none => exact ends_ok fun d hd => by cases hd
    | some da =>
      refine ihb.bind fun ob hob => ?_
      cases ob with
      | none => exact ends_ok fun d hd => by cases hd
      | some db =>
        refine (ends_tensorDiagonal da db).bind fun d hd => ends_ok fun d' hd' => ⟨hsquare, ?_⟩
        rw [← Option.some.inj hd', hd, size_kronDiagonal, (hoa da rfl).2, (hob db rfl).2]
        rfl
  case opaqueMap f => exact ends_ok fun d hd => by cases hd

/-- A multiple of the identity is square. -/
theorem ends_scalar? (l : LinearMap R) :
    Ends E (fun o => o.isSome = true → l.m = l.n) l.scalar? := by
  rw [LinearMap.scalar?.eq_def]
  split
  · exact ends_ok fun _ => rfl
  · refine (ends_diagonal? _).bind fun o ho => ends_ok fun h => ?_
    obtain ⟨alpha, halpha⟩ := Option.isSome_iff_exists.1 h
    obtain ⟨d, hd, -⟩ := Option.bind_eq_some_iff.1 halpha
    exact (ho d hd).1

/-! ## Maps of a size -/

omit [Scalar R] in
/-- `l.Shaped m n`: a map of `m` rows and `n` columns, no part of which is opaque. -/
structure Shaped (l : LinearMap R) (m n : Nat) : Prop where
  plain : l.Plain
  size : l.size = (m, n)

namespace Shaped

omit [Scalar R] in
theorem rows (h : l.Shaped m n) : l.m = m := congrArg Prod.fst h.size

omit [Scalar R] in
theorem cols (h : l.Shaped m n) : l.n = n := congrArg Prod.snd h.size

omit [Scalar R] in
theorem kron [Mul R] (ha : a.Shaped m n) (hb : b.Shaped p q) : (a.kron b).Shaped (m * p) (n * q) where
  plain := ha.plain.kron hb.plain
  size := by rw [size_kron, ha.size, hb.size]

omit [Scalar R] in
theorem share (h : l.Shaped m n) (next : Nat) : (l.share next).1.Shaped m n where
  plain := h.plain.share next
  size := (size_share l next).trans h.size

theorem neg (h : l.Shaped m n) : l.neg.Shaped m n where
  plain := h.plain.scaleBy (-1)
  size := (size_scaleBy (-1) l).trans h.size

theorem transpose (h : l.Shaped m n) : Ends E (fun t => t.Shaped n m) l.transpose :=
  (closed_plain.transpose h.plain).imp fun _ ht => ⟨ht.2, by rw [ht.1, h.rows, h.cols]⟩

theorem add (ha : a.Shaped m n) (hb : b.Shaped m n) : Ends E (fun s => s.Shaped m n) (a.add b) :=
  (closed_plain.add ha.plain hb.plain (hb.size.trans ha.size.symm)).imp fun _ hs =>
    ⟨hs.2, hs.1.trans ha.size⟩

theorem mul (ha : a.Shaped m p) (hb : b.Shaped p n) : Ends E (fun s => s.Shaped m n) (a.mul b) :=
  (closed_plain.mul ha.plain hb.plain (ha.cols.trans hb.rows.symm)).imp fun _ hs =>
    ⟨hs.2, by rw [hs.1, ha.rows, hb.cols]⟩

theorem apply (h : l.Shaped m n) (hx : x.size = n) : Ends E (fun y => y.size = m) (l.apply x) :=
  (h.plain.sound.apply (allows_of_limits _) (hx.trans h.cols.symm)).imp fun _ hy => hy.trans h.rows

omit [Scalar R] in
theorem tensor [Mul R] (ha : a.Shaped m n) (hb : b.Shaped p q) :
    Ends E (fun l => l.Shaped (m * p) (n * q)) (a.tensor b) := by
  have hkron := ha.kron hb
  rw [LinearMap.tensor]
  split
  · rename_i k alpha mark heq
    rw [heq] at hkron
    refine (ends_count k).bind fun d hd => ends_ok ?_
    rw [hd]
    exact ⟨trivial, hkron.size⟩
  · exact ends_ok hkron

end Shaped

end LinearMap

end BlockAdmm
