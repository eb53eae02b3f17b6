/-
  Maps that are used both ways.

  What is done with the transpose of a map needs more than that its functions are linear: a function that is
  known for a transpose has to multiply by the transposed matrix (`HasAdjoints`).  Then the map stands for a
  matrix also where its transpose is taken (`HasAdjoints.exists_bears`).  If the functions have values in
  both directions and the extent of the map can be stored, it is usable both ways, and no breach can stand in
  the way (`Sound.ready_unless`).
-/
import BlockAdmm.Proofs.LinearMap.Adjoint
import BlockAdmm.Proofs.Safety.LinearMap

namespace BlockAdmm

open ExactScalar

variable {R : Type} [ExactScalar R] {e : Lore R}

/-! ## Functions -/

/-- `f.HasAdjoint`: the function multiplies by a matrix, and one that is known for the transpose by its
    transpose; both may end in a breach. -/
def OpaqueMap.HasAdjoint (f : OpaqueMap R) : Prop :=
  ∃ k, Multiplies Fault.IsBreach f.forward.run f.m f.n k ∧
    ∀ t, f.backward = some t → Multiplies Fault.IsBreach t.run f.n f.m fun r c => k c r

/-- A linear function and one that is its adjoint. -/
theorem OpaqueMap.Primitive.hasAdjoint {f : OpaqueMap R} {given : List (Array R → Outcome (Array R))}
    (h : f.Primitive given) : f.HasAdjoint := by
  obtain ⟨k, hk⟩ := h.linear.exists_multiplies (E := fun _ => False)
  exact ⟨k, hk.mono fun _ hf => hf.elim, fun t ht => (h.adjoint t ht).multiplies hk⟩

omit [ExactScalar R] in
/-- `f.ReturnsBack`: the function that is known for the transpose, if there is one, has a value on every
    vector that fits. -/
def OpaqueMap.ReturnsBack (f : OpaqueMap R) : Prop :=
  ∀ t, f.backward = some t → ∀ y, y.size = f.m → ∃ v, t.run y = .ok v

omit [ExactScalar R] in
/-- `Lore.both c`: unless `c`, functions may end in a breach; those that are known for transposes are right,
    and marks say nothing. -/
def Lore.both (c : Prop) : Lore R where
  faults := Fault.Unless c
  names _ _ _ _ := True
  names_congr h _ := h
  transposes := True

omit [ExactScalar R] in
theorem Lore.within_both {c d : Prop} (h : d → c) : (Lore.both c : Lore R).Within (Lore.both d) where
  faults := Fault.unless_mono h
  names hk := hk
  transposes hg := hg

/-! ## Maps -/

namespace LinearMap

variable {l : LinearMap R} {k : Nat → Nat → R}

/-- `l.HasAdjoints`: every function in the map that is known for a transpose is right. -/
def HasAdjoints (l : LinearMap R) : Prop := ∀ f ∈ l.opaqueParts, f.HasAdjoint

omit [ExactScalar R] in
/-- `l.UsableBothWays`: the map can be used, and the functions that are known for transposes have values. -/
structure UsableBothWays (l : LinearMap R) : Prop where
  usable : l.Usable
  back : ∀ f ∈ l.opaqueParts, f.ReturnsBack

omit [ExactScalar R] in
/-- A map without functions can be used if there is room for it. -/
theorem Plain.usableBothWays (h : l.Plain) (hroom : l.extent ≤ capacity) : l.UsableBothWays :=
  ⟨⟨hroom, by rw [h.opaqueParts_eq_nil]; nofun⟩, by rw [h.opaqueParts_eq_nil]; nofun⟩

omit [ExactScalar R] in
/-- Functions that have values keep to the lengths without any fault. -/
theorem UsableBothWays.sound {E : Fault → Prop} (h : l.UsableBothWays) (hl : l.Sound E) :
    l.Sound fun _ => False := by
  intro f hf
  refine ⟨fun x hx => ?_, fun t ht y hy => ?_⟩
  · obtain ⟨v, hv⟩ := (h.usable.2 f hf).run hx
    rw [hv]
    exact ((hl f hf).forward x hx).of_eq_ok hv
  · obtain ⟨v, hv⟩ := h.back f hf t ht y hy
    rw [hv]
    exact ((hl f hf).backward t ht y hy).of_eq_ok hv

omit [ExactScalar R] in
/-- A map that can be used both ways is ready without any fault. -/
theorem Sound.ready_unless {c : Prop} (h : l.Sound Fault.IsBreach) (hc : c → l.UsableBothWays) :
    l.Ready (Fault.Unless c) := by
  refine ⟨?_, allows_unless fun hholds => (hc hholds).usable.1⟩
  by_cases hholds : c
  · exact ((hc hholds).sound h).mono fun _ => False.elim
  · exact h.mono fun _ hf => ⟨hf, hholds⟩

/-- If functions end in nothing but a breach, they end in none where they are known to have values. -/
theorem Bears.both {c : Prop} (h : l.Bears e k) (he : ∀ f, e.faults f → f.IsBreach) (ht : e.transposes)
    (hc : c → ∀ f ∈ l.opaqueParts, f.Returns ∧ f.ReturnsBack) : l.Bears (Lore.both c) k := by
  induction l generalizing k with
  | dense | sparse | diagonal | scalar => exact h
  | kronecker a b iha ihb =>
    obtain ⟨ka, kb, ha, hb, hab⟩ := h
    exact ⟨ka, kb, iha ha fun hholds f hf => hc hholds f (List.mem_append_left _ hf),
      ihb hb fun hholds f hf => hc hholds f (List.mem_append_right _ hf), hab⟩
  | opaqueMap f =>
    have hreturns (hholds : c) := hc hholds f List.mem_cons_self
    refine ⟨⟨?_, fun _ _ => trivial⟩, fun _ t htm => ⟨?_, fun _ _ => trivial⟩⟩
    · exact (h.1.multiplies.mono he).unless fun hholds x hx => (hreturns hholds).1.run hx
    · exact ((h.2 ht t htm).multiplies.mono he).unless fun hholds y hy => (hreturns hholds).2 t htm y hy

theorem HasAdjoints.exists_bears (h : l.HasAdjoints) : ∃ k, l.Bears (Lore.both l.UsableBothWays) k := by
  have hbears : ∃ k, l.Bears (Lore.both False) k := by
    refine LinearMap.exists_bears fun f hf => ?_
    obtain ⟨k, hforward, hback⟩ := h f hf
    exact ⟨k, ⟨hforward.unless False.elim, fun _ _ => trivial⟩,
      fun _ t ht => ⟨(hback t ht).unless False.elim, fun _ _ => trivial⟩⟩
  obtain ⟨k, hk⟩ := hbears
  exact ⟨k, hk.both (fun _ hf => hf.1) trivial fun hu f hf => ⟨hu.usable.2 f hf, hu.back f hf⟩⟩

theorem Bears.hasAdjoints (h : l.Bears e k) (he : ∀ f, e.faults f → f.IsBreach) (ht : e.transposes) :
    l.HasAdjoints := by
  induction l generalizing k with
  | dense | sparse | diagonal | scalar => exact fun f hf => absurd hf List.not_mem_nil
  | kronecker a b iha ihb =>
    obtain ⟨ka, kb, ha, hb, -⟩ := h
    exact fun f hf => (List.mem_append.1 hf).elim (iha ha f) (ihb hb f)
  | opaqueMap f =>
    intro f' hf'
    rw [List.mem_singleton.1 hf']
    exact ⟨k, h.1.multiplies.mono he, fun t htm => (h.2 ht t htm).multiplies.mono he⟩

theorem Plain.hasAdjoints (h : l.Plain) : l.HasAdjoints := by
  intro f hf
  rw [h.opaqueParts_eq_nil] at hf
  exact absurd hf List.not_mem_nil

end LinearMap

end BlockAdmm
