/-
  Constraints in another order.

  The row of a constraint is named by its number, so in another order the constraints get other names.  The form
  of all constraints has at each row what is built of one constraint alone (`Gathers`), and what is built of a
  constraint under one name is, up to marks, what is built of it under another (`Affine.beside_build`).  So the
  forms of both orders are the same rows under other names (`Affine.renamed_of_perm`).
-/
import BlockAdmm.Proofs.Beside
import BlockAdmm.Proofs.Solver.Residuals
import Mathlib.GroupTheory.Perm.ViaEmbedding

namespace BlockAdmm

variable {R : Type}

/-! ## The names of rows -/

/-- The entries of a list in another order have other numbers. -/
theorem exists_equiv_of_perm {α : Type} {xs ys : List α} (h : xs.Perm ys) :
    ∃ σ : Equiv.Perm Nat, ∀ i : Nat, ys[σ i]? = xs[i]? := by
  induction h with
  | nil => exact ⟨Equiv.refl Nat, fun _ => rfl⟩
  | cons x _ ih =>
    obtain ⟨σ, hσ⟩ := ih
    -- the first number stays, and the others are those of the rest
    let succ : Nat ↪ Nat := ⟨Nat.succ, Nat.succ_injective⟩
    refine ⟨σ.viaEmbedding succ, fun i => ?_⟩
    cases i with
    | zero =>
      rw [Equiv.Perm.viaEmbedding_apply_of_notMem]
      · rfl
      · rintro ⟨j, hj⟩
        exact Nat.succ_ne_zero j hj
    | succ i =>
      have hi : σ.viaEmbedding succ (i + 1) = σ i + 1 := Equiv.Perm.viaEmbedding_apply σ succ i
      rw [hi, List.getElem?_cons_succ, List.getElem?_cons_succ]
      exact hσ i
  | swap x y xs =>
    refine ⟨Equiv.swap 0 1, fun i => ?_⟩
    match i with
    | 0 => rfl
    | 1 => rfl
    | i + 2 =>
      rw [Equiv.swap_apply_of_ne_of_ne (by omega) (by omega)]
      rfl
  | trans _ _ ih ih' =>
    obtain ⟨σ, hσ⟩ := ih
    obtain ⟨τ, hτ⟩ := ih'
    exact ⟨σ.trans τ, fun i => (hτ (σ i)).trans (hσ i)⟩

/-- `rowNames σ`: the names of numbers, changed as the numbers are. -/
noncomputable def rowNames (σ : Equiv.Perm Nat) : Equiv.Perm String :=
  σ.viaEmbedding ⟨Nat.repr, fun _ _ h => Nat.repr_injective h⟩

theorem rowNames_toString (σ : Equiv.Perm Nat) (i : Nat) : rowNames σ (toString i) = toString (σ i) :=
  Equiv.Perm.viaEmbedding_apply σ ⟨Nat.repr, fun _ _ h => Nat.repr_injective h⟩ i

/-! ## The rows of a form -/

/-- `f.SameRow r g`: both forms have the same blocks in a row and the same constant part. -/
structure AffineForm.SameRow (r : String) (f g : AffineForm R) : Prop where
  a : ∀ c, f.a.get? r c = g.a.get? r c
  b : f.b.get? r = g.b.get? r

/-- `Gathers p cs f`: the form has at the row of each of the numbered constraints what is built of it alone, and
    no other rows. -/
structure Gathers [Scalar R] (p : Provider R) (cs : List (Expr R × Nat)) (f : AffineForm R) : Prop where
  tight : f.a.Tight
  row : ∀ ci ∈ cs, ∃ e s new t, ci.1.args = [e] ∧ s.known p = p ∧
    (Affine.build e (toString ci.2)).runFrom p s = (.ok new, t) ∧ f.SameRow (toString ci.2) new
  only : ∀ r, (∀ ci ∈ cs, toString ci.2 ≠ r) → f.SameRow r .zero

namespace Affine

open Compile

variable [ExactScalar R] {p : Provider R} {s s' t t' : Session R} {f f' g : AffineForm R}

/-- One more constraint, with a name that is new. -/
theorem gathers_buildConstraint {cs : List (Expr R × Nat)} {ci : Expr R × Nat} (hf : Gathers p cs f)
    (hs : s.known p = p) (hnew : ∀ ci' ∈ cs, toString ci'.2 ≠ toString ci.2)
    (h : (buildConstraint f ci).runFrom p s = (.ok g, t)) : Gathers p (cs ++ [ci]) g ∧ t.known p = p := by
  obtain ⟨e, new, hargs, hbuild, hadd, hsum⟩ := run_buildConstraint_eq_ok h
  obtain ⟨⟨hover, -⟩, hknown⟩ := (runEnds_build (E := fun _ => True) fun _ _ _ => trivial).of_eq_ok hbuild
  -- what is new is in its row
  have hrow {r c : String} (hsome : (new.a.get? r c).isSome) : r = toString ci.2 := by
    obtain ⟨l, hl⟩ := Option.isSome_iff_exists.1 hsome
    exact (hover.rows _ _ (hover.sized.rows hl)).1
  have hoffset {r : String} (hsome : (new.b.get? r).isSome) : r = toString ci.2 := by
    obtain ⟨v, hv⟩ := Option.isSome_iff_exists.1 hsome
    exact (hover.offset _ _ (BlockVector.sizeAt?_eq_some_iff.2 ⟨v, hv, rfl⟩)).1
  have hfree : f.SameRow (toString ci.2) .zero := hf.only _ hnew
  have hget := BlockMatrix.get?_add_of_apart hadd fun r c hsome => hrow hsome ▸ hfree.a c
  have hget' := BlockVector.get?_addScaled_of_apart hsum fun r hsome => hoffset hsome ▸ hfree.b
  have hnewRow : g.SameRow (toString ci.2) new := by
    refine ⟨fun c => ?_, ?_⟩
    · rw [hget, hfree.a c]
      exact Option.or_none
    · rw [hget', hfree.b]
      exact Option.or_none
  have hother {r : String} (hr : r ≠ toString ci.2) : g.SameRow r f := by
    refine ⟨fun c => ?_, ?_⟩
    · rw [hget, Option.not_isSome_iff_eq_none.1 fun hsome => hr (hrow hsome)]
      exact Option.none_or
    · rw [hget', Option.not_isSome_iff_eq_none.1 fun hsome => hr (hoffset hsome)]
      exact Option.none_or
  refine ⟨⟨hf.tight.add hover.sized hadd, fun ci' hci' => ?_, fun r hr => ?_⟩, hknown.trans hs⟩
  · rcases List.mem_append.1 hci' with hci' | hci'
    · obtain ⟨e', s', new', t', hargs', hs', hbuild', hsame⟩ := hf.row ci' hci'
      have hold := hother (hnew ci' hci')
      exact ⟨e', s', new', t', hargs', hs', hbuild', fun c => (hold.a c).trans (hsame.a c),
        hold.b.trans hsame.b⟩
    · obtain rfl := List.mem_singleton.1 hci'
      exact ⟨e, s, new, t, hargs, hs, hbuild, hnewRow⟩
  · have hne : r ≠ toString ci.2 := (hr ci (List.mem_append_right _ (List.mem_singleton_self ci))).symm
    have hold := hother hne
    have hzero := hf.only r fun ci' hci' => hr ci' (List.mem_append_left _ hci')
    exact ⟨fun c => (hold.a c).trans (hzero.a c), hold.b.trans hzero.b⟩

/-- The form of all constraints gathers what is built of each. -/
theorem gathers_buildConstraints {q : Problem R} (hs : s.known p = p)
    (h : (buildConstraints q).runFrom p s = (.ok f, t)) : Gathers p q.constraints.zipIdx f ∧ t.known p = p := by
  refine buildConstraints_induction (fun through g r => Gathers p through g ∧ r.known p = p) ⟨?_, hs⟩
    (fun _ _ _ _ _ _ _ hnew hg hstep => gathers_buildConstraint hg.1 hg.2 hnew hstep) h
  exact ⟨BlockMatrix.tight_empty, nofun, fun _ _ => ⟨fun _ => rfl, rfl⟩⟩

/-- What is gathered from the same constraints under other numbers are the same rows under other names. -/
theorem renamed_of_gathers {cs cs' : List (Expr R × Nat)} {σ : Equiv.Perm Nat} (h : Gathers p cs f)
    (h' : Gathers p cs' f') (hσ : ∀ e i, (e, i) ∈ cs ↔ (e, σ i) ∈ cs') : f.Renamed (rowNames σ) f' := by
  have hsame (r : String) : (∀ c, (f'.a.get? (rowNames σ r) c).map LinearMap.bare = (f.a.get? r c).map LinearMap.bare) ∧
      f'.b.get? (rowNames σ r) = f.b.get? r := by
    by_cases hr : ∃ ci ∈ cs, toString ci.2 = r
    · obtain ⟨⟨c, i⟩, hci, rfl⟩ := hr
      obtain ⟨e, s, new, t, hargs, hs, hbuild, hrow⟩ := h.row _ hci
      obtain ⟨e', s', new', t', hargs', hs', hbuild', hrow'⟩ := h'.row _ ((hσ c i).1 hci)
      obtain rfl : e = e' := (List.cons.inj (hargs.symm.trans hargs')).1
      have hname := rowNames_toString σ i
      obtain ⟨hnew, -⟩ := beside_build p e hname s s' new new' t t' ⟨hs, hs', trivial⟩ hbuild hbuild'
      refine ⟨fun k => ?_, ?_⟩
      · rw [hname, hrow'.a, hrow.a, ← hname]
        exact hnew.a.blocks _ k
      · rw [hname, hrow'.b, hrow.b, ← hname]
        exact hnew.b.get? _
    · have hnone : f.SameRow r .zero := h.only r fun ci hci heq => hr ⟨ci, hci, heq⟩
      have hnone' : f'.SameRow (rowNames σ r) .zero := by
        refine h'.only _ fun ci hci heq => hr ?_
        obtain ⟨i, hi⟩ := σ.surjective ci.2
        refine ⟨(ci.1, i), (hσ ci.1 i).2 (hi ▸ hci), (rowNames σ).injective ?_⟩
        rw [rowNames_toString, hi, heq]
      exact ⟨fun k => by rw [hnone'.a, hnone.a]; rfl, hnone'.b.trans hnone.b.symm⟩
  exact ⟨h.tight.renamed h'.tight fun r c => (hsame r).1 c, fun r => (hsame r).2⟩

/-- The form of the constraints in another order. -/
theorem renamed_of_perm {q q' : Problem R} (hperm : q.constraints.Perm q'.constraints) (hs : s.known p = p)
    (hs' : s'.known p = p) (hf : (buildConstraints q).runFrom p s = (.ok f, t))
    (hf' : (buildConstraints q').runFrom p s' = (.ok f', t')) :
    (∃ ρ, f.Renamed ρ f') ∧ t.known p = p ∧ t'.known p = p := by
  obtain ⟨hgathers, ht⟩ := gathers_buildConstraints hs hf
  obtain ⟨hgathers', ht'⟩ := gathers_buildConstraints hs' hf'
  obtain ⟨σ, hσ⟩ := exists_equiv_of_perm hperm
  refine ⟨⟨rowNames σ, renamed_of_gathers hgathers hgathers' fun e i => ?_⟩, ht, ht'⟩
  rw [List.mk_mem_zipIdx_iff_getElem?, List.mk_mem_zipIdx_iff_getElem?, hσ]

end Affine

end BlockAdmm
