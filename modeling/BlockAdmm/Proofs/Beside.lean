/-
  Two compilations with the same data.

  `Compile.Beside` says of two compilations what their values and the forms that they leave have in common, if
  they have values and worked with the data of one provider.  What else the sessions hold at the start, marks and
  events and what was asked so far, does not matter.  It is a congruence, so it holds of the compilation of a tree
  under two names of a row (`Affine.congruence_beside`), and what is built are the same blocks under the two
  names, up to their marks (`Affine.beside_build`).  A term has therefore the same operator in both
  (`Compile.beside_term`).
-/
import BlockAdmm.Proofs.Block.Renamed
import BlockAdmm.Proofs.Prox.Bare

namespace BlockAdmm

variable {R : Type} {α β : Type}

/-- `Session.Beside p F s s'`: what both sessions know is what the provider has, and their forms are related. -/
structure Session.Beside (p : Provider R) (F : AffineForm R → AffineForm R → Prop) (s s' : Session R) : Prop where
  left : s.known p = p
  right : s'.known p = p
  form : F s.form s'.form

namespace Compile

variable {p : Provider R} {F G : AffineForm R → AffineForm R → Prop} {P : α → β → Prop} {x : Compile R α}
  {x' : Compile R β}

/-- `Beside p F P x x'`: from sessions that know what `p` has and whose forms are related by `F`, the values of
    the two runs, if both have one, are related, and so are the forms. -/
def Beside (p : Provider R) (F : AffineForm R → AffineForm R → Prop) (α β : Type) (P : α → β → Prop)
    (x : Compile R α) (x' : Compile R β) : Prop :=
  ∀ s s' a b t t', s.Beside p F s' → x.runFrom p s = (.ok a, t) → x'.runFrom p s' = (.ok b, t') →
    P a b ∧ t.Beside p F t'

theorem Beside.imp {Q : α → β → Prop} (h : Beside p F α β P x x') (hPQ : ∀ a b, P a b → Q a b) :
    Beside p F α β Q x x' := by
  intro s s' a b t t' hs hx hx'
  obtain ⟨hP, ht⟩ := h s s' a b t t' hs hx hx'
  exact ⟨hPQ a b hP, ht⟩

/-- What reads data and leaves the form alone. -/
theorem congruence_beside (p : Provider R) (F : AffineForm R → AffineForm R → Prop) :
    Congruence (fun _ => True) (Beside p F) where
  pure hab := by
    intro s s' a b t t' hs hx hx'
    obtain ⟨rfl, rfl⟩ := run_pure_eq_ok.1 hx
    obtain ⟨rfl, rfl⟩ := run_pure_eq_ok.1 hx'
    exact ⟨hab, hs⟩
  bind h hf := by
    intro s s' a b t t' hs hx hx'
    obtain ⟨c, r, hc, hx⟩ := run_bind_eq_ok.1 hx
    obtain ⟨c', r', hc', hx'⟩ := run_bind_eq_ok.1 hx'
    obtain ⟨hP, hr⟩ := h s s' c c' r r' hs hc hc'
    exact hf c c' hP r r' a b t t' hr hx hx'
  lift h := by
    intro s s' a b t t' hs hx hx'
    obtain ⟨rfl, rfl⟩ := run_liftM_eq_ok.1 hx
    obtain ⟨rfl, rfl⟩ := run_liftM_eq_ok.1 hx'
    exact ⟨h, hs⟩
  refuse e := by
    intro s s' a b t t' hs hx hx'
    exact absurd hx run_refuse_ne_ok
  note e e' := by
    intro s s' a b t t' hs hx hx'
    obtain rfl := run_note_eq_ok.1 hx
    obtain rfl := run_note_eq_ok.1 hx'
    exact ⟨rfl, hs.left, hs.right, hs.form⟩
  data := by
    intro key _ s s' d d' t t' hs hx hx'
    obtain ⟨hsame, hd⟩ := run_data hx
    obtain ⟨hsame', hd'⟩ := run_data hx'
    rw [hs.left] at hd
    rw [hs.right] at hd'
    refine ⟨Option.some.inj (hd.symm.trans hd'), hsame.known.trans hs.left, hsame'.known.trans hs.right, ?_⟩
    rw [hsame.form, hsame'.form]
    exact hs.form

/-- Two computations without a session. -/
theorem beside_liftM (o : Outcome α) (o' : Outcome β) :
    Beside p F _ _ (fun a b => o = .ok a ∧ o' = .ok b) (liftM o) (liftM o') := by
  intro s s' a b t t' hs hx hx'
  obtain ⟨ha, rfl⟩ := run_liftM_eq_ok.1 hx
  obtain ⟨hb, rfl⟩ := run_liftM_eq_ok.1 hx'
  exact ⟨⟨ha, hb⟩, hs⟩

/-- Computations that each start over with a form of their own. -/
theorem Beside.fromForm {f f' : AffineForm R} (hF : F f f') (h : Beside p F α β P x x') :
    Beside p (fun _ _ => True) α β P (modify (fun s => { s with form := f }) >>= fun _ => x)
      (modify (fun s => { s with form := f' }) >>= fun _ => x') := by
  intro s s' a b t t' hs hx hx'
  obtain ⟨_, _, hr, hx⟩ := run_bind_eq_ok.1 hx
  obtain rfl := run_modify_eq_ok.1 hr
  obtain ⟨_, _, hr', hx'⟩ := run_bind_eq_ok.1 hx'
  obtain rfl := run_modify_eq_ok.1 hr'
  have hstart : ({ s with form := f } : Session R).Beside p F { s' with form := f' } := ⟨hs.left, hs.right, hF⟩
  obtain ⟨hP, ht⟩ := h _ _ a b t t' hstart hx hx'
  exact ⟨hP, ht.left, ht.right, trivial⟩

/-- The sessions themselves. -/
theorem beside_get : Beside p F _ _ (fun s s' => s.Beside p F s') get get := by
  intro s s' r r' t t' hs hx hx'
  obtain ⟨rfl, rfl⟩ := run_get_eq_ok.1 hx
  obtain ⟨rfl, rfl⟩ := run_get_eq_ok.1 hx'
  exact ⟨hs, hs⟩

end Compile

/-! ## Forms -/

/-- `f.Renamed ρ f'`: the rows of `f` under other names. -/
structure AffineForm.Renamed (ρ : Equiv.Perm String) (f f' : AffineForm R) : Prop where
  a : f.a.Renamed ρ (Equiv.refl String) f'.a
  b : f.b.Renamed ρ f'.b

theorem AffineForm.renamed_zero (ρ : Equiv.Perm String) : (AffineForm.zero : AffineForm R).Renamed ρ .zero :=
  ⟨⟨BlockMatrix.sized_empty, fun _ _ => rfl, fun _ => rfl, fun _ => rfl⟩, BlockVector.renamed_empty ρ⟩

namespace Affine

open Compile

variable [ExactScalar R] {ρ : Equiv.Perm String} {row row' : String}

omit [ExactScalar R] in
theorem beside_changeForm {p : Provider R} {F : AffineForm R → AffineForm R → Prop}
    {step step' : AffineForm R → Outcome (AffineForm R)}
    (h : ∀ f f' g g', F f f' → step f = .ok g → step' f' = .ok g' → F g g') :
    Beside p F _ _ Eq (changeForm step) (changeForm step') := by
  intro s s' u u' t t' hs hx hx'
  obtain ⟨r, _, hr, hx⟩ := run_bind_eq_ok.1 hx
  obtain ⟨rfl, rfl⟩ := run_get_eq_ok.1 hr
  obtain ⟨g, _, hg, hx⟩ := run_bind_eq_ok.1 hx
  obtain ⟨hstep, rfl⟩ := run_liftM_eq_ok.1 hg
  obtain rfl := run_modify_eq_ok.1 hx
  obtain ⟨r', _, hr', hx'⟩ := run_bind_eq_ok.1 hx'
  obtain ⟨rfl, rfl⟩ := run_get_eq_ok.1 hr'
  obtain ⟨g', _, hg', hx'⟩ := run_bind_eq_ok.1 hx'
  obtain ⟨hstep', rfl⟩ := run_liftM_eq_ok.1 hg'
  obtain rfl := run_modify_eq_ok.1 hx'
  exact ⟨rfl, hs.left, hs.right, h _ _ _ _ hs.form hstep hstep'⟩

/-- The compilation of a tree under two names of a row. -/
theorem congruence_beside (p : Provider R) (hrow : ρ row = row') :
    Congruence (fun _ => True) LinearMap.Alike row row' (Beside p (AffineForm.Renamed ρ)) where
  toCongruence := Compile.congruence_beside p _
  cols := LinearMap.Alike.n_eq
  apply := LinearMap.Alike.apply_eq
  neg := LinearMap.Alike.neg
  mul h hop := h.mul (.refl hop)
  share h := by
    intro s s' k k' t t' hs hx hx'
    obtain ⟨r, _, hr, hx⟩ := run_bind_eq_ok.1 hx
    obtain ⟨rfl, rfl⟩ := run_get_eq_ok.1 hr
    obtain ⟨_, _, hr, hx⟩ := run_bind_eq_ok.1 hx
    obtain rfl := run_modify_eq_ok.1 hr
    obtain ⟨rfl, rfl⟩ := run_pure_eq_ok.1 hx
    obtain ⟨r', _, hr', hx'⟩ := run_bind_eq_ok.1 hx'
    obtain ⟨rfl, rfl⟩ := run_get_eq_ok.1 hr'
    obtain ⟨_, _, hr', hx'⟩ := run_bind_eq_ok.1 hx'
    obtain rfl := run_modify_eq_ok.1 hr'
    obtain ⟨rfl, rfl⟩ := run_pure_eq_ok.1 hx'
    exact ⟨h.share _ _, hs.left, hs.right, hs.form⟩
  operator id h := by
    refine beside_changeForm fun f f' g g' hf hg hg' => ?_
    obtain ⟨a, ha, hg⟩ := bind_eq_ok.1 hg
    cases pure_eq_ok.1 hg
    obtain ⟨a', ha', hg'⟩ := bind_eq_ok.1 hg'
    cases pure_eq_ok.1 hg'
    subst hrow
    exact ⟨hf.a.insertOrAdd h ha ha', hf.b⟩
  offset v := by
    refine beside_changeForm fun f f' g g' hf hg hg' => ?_
    obtain ⟨b, hb, hg⟩ := bind_eq_ok.1 hg
    cases pure_eq_ok.1 hg
    obtain ⟨b', hb', hg'⟩ := bind_eq_ok.1 hg'
    cases pure_eq_ok.1 hg'
    subst hrow
    exact ⟨hf.a, hf.b.increase hb hb'⟩

/-- What is built of an expression at two rows. -/
theorem beside_build (p : Provider R) (e : Expr R) (hrow : ρ row = row') :
    Beside p (fun _ _ => True) _ _ (AffineForm.Renamed ρ) (build e row) (build e row') := by
  have hC := Compile.congruence_beside p (AffineForm.Renamed ρ)
  -- from the zero form on, the two forms stay related
  refine Beside.fromForm (AffineForm.renamed_zero ρ) ?_
  refine hC.andThen (hC.outcome _) fun d => ?_
  have hid : (LinearMap.identity d : LinearMap R).Alike (.identity d) := .refl trivial
  refine hC.andThen ((congruence_beside p hrow).compile (fun _ _ => trivial) hid) fun _ => ?_
  refine hC.bind beside_get fun w w' hw => ?_
  have hcontains : w'.form.b.contains row' = w.form.b.contains row := by
    rw [← hrow]
    exact congrArg Option.isSome (hw.form.b.get? row)
  dsimp only
  rw [hcontains]
  split
  · exact hC.pure hw.form
  · refine hC.andThen (hC.outcome _) fun _ => hC.pure ⟨hw.form.a, ?_⟩
    exact hrow ▸ hw.form.b.insert row _

end Affine

/-! ## Terms -/

namespace Compile

variable [ExactScalar R] {p : Provider R}

/-- The argument that an expression describes, up to marks. -/
theorem beside_argument (p : Provider R) (e : Expr R) :
    Beside p (fun _ _ => True) _ _ (fun a a' => a.bare = a'.bare) (Argument.build e) (Argument.build e) := by
  have hC := congruence_beside p fun _ _ => True
  have hbuild := Affine.beside_build p e (rfl : Equiv.refl String Argument.row = Argument.row)
  refine hC.bind hbuild fun f f' hf => ?_
  rw [BlockVector.renamed_refl_iff.1 hf.b]
  refine hC.andThen (hC.outcome _) fun offset => hC.pure ?_
  have hmaps : (f.a.row Argument.row).map LinearMap.bare = (f'.a.row Argument.row).map LinearMap.bare := by
    refine Keyed.ext_get? fun c => ?_
    rw [Keyed.get?_map, Keyed.get?_map, BlockMatrix.get?_row, BlockMatrix.get?_row]
    exact (hf.a.blocks Argument.row c).symm
  rw [Argument.bare, Argument.bare, hmaps]

/-- A term has one operator. -/
theorem beside_term (p : Provider R) (e : Expr R) (layout : Layout) (rho : R) :
    Beside p (fun _ _ => True) _ _ (fun t t' => Operator.build t = Operator.build t') (TermInput.build e layout rho)
      (TermInput.build e layout rho) := by
  have hC := congruence_beside p fun _ _ => True
  have hinput : Beside p (fun _ _ => True) _ _ (fun t t' => t.bare = t'.bare) (TermInput.build e layout rho)
      (TermInput.build e layout rho) := by
    rw [TermInput.build]
    split
    · have hargs : Beside p (fun _ _ => True) _ _ (fun as bs => as.map Argument.bare = bs.map Argument.bare)
          (TermInput.buildArgs e.args) (TermInput.buildArgs e.args) := by
        refine hC.mapM rfl (fun ha has => ?_) fun a _ => beside_argument p a
        rw [List.map_cons, List.map_cons, ha, has]
      refine hC.bind hargs fun as bs has => hC.pure ?_
      rw [TermInput.bare, TermInput.bare, has]
    · exact hC.refuse _
  refine hinput.imp fun t t' ht => ?_
  rw [← Operator.build_bare t, ht, Operator.build_bare]

end Compile

end BlockAdmm
