/-
  What a compilation reads.

  A name stands for the data that were found under it or, if there are none, for what the provider has
  (`Session.known`); asking changes neither, so a compilation can be said to work with fixed data from
  its start.  Reading a constant or a described map touches nothing but what was found and asked
  (`Session.Same`), and gives the matrix that the data say (`run_describedMap`).
-/
import BlockAdmm.Proofs.Expr
import BlockAdmm.Proofs.LinearMap.Plain

namespace BlockAdmm

open Scalar ExactScalar

variable {R : Type}

/-- `s.known p key`: the data under a name, found before or known to the provider. -/
def Session.known (s : Session R) (p : Provider R) (key : String) : Option (ConstantData R) :=
  (s.found.get? key).or (p key)

/-- `t.Same p s`: the form, the free mark and the data are those of `s`. -/
structure Session.Same (p : Provider R) (t s : Session R) : Prop where
  form : t.form = s.form
  nextMark : t.nextMark = s.nextMark
  known : t.known p = s.known p

theorem Session.Same.refl (p : Provider R) (s : Session R) : s.Same p s := ⟨rfl, rfl, rfl⟩

theorem Session.Same.trans {p : Provider R} {r s t : Session R} (h : t.Same p s) (h' : s.Same p r) :
    t.Same p r :=
  ⟨h.form.trans h'.form, h.nextMark.trans h'.nextMark, h.known.trans h'.known⟩

namespace Compile

variable {p : Provider R} {s t : Session R}

theorem run_note {e : Event} {u : Unit} (h : (note e : Compile R Unit).runFrom p s = (.ok u, t)) :
    t.Same p s := by
  rw [run_note_eq_ok] at h
  subst h
  exact ⟨rfl, rfl, rfl⟩

/-- The data under a name are the same at every time. -/
theorem run_data {key : String} {d : ConstantData R} (h : (data key).runFrom p s = (.ok d, t)) :
    t.Same p s ∧ s.known p key = some d := by
  rw [data] at h
  obtain ⟨s', r, hs, h⟩ := run_bind_eq_ok.1 h
  obtain ⟨rfl, rfl⟩ := run_get_eq_ok.1 hs
  cases hf : s'.found.get? key with
  | some d' =>
    rw [hf] at h
    obtain ⟨rfl, rfl⟩ := run_pure_eq_ok.1 h
    refine ⟨Session.Same.refl p s', ?_⟩
    rw [Session.known, hf]
    rfl
  | none =>
    rw [hf] at h
    obtain ⟨_, r₁, h₁, h⟩ := run_bind_eq_ok.1 h
    obtain rfl := run_note_eq_ok.1 h₁
    obtain ⟨_, r₂, h₂, h⟩ := run_bind_eq_ok.1 h
    obtain rfl := run_modify_eq_ok.1 h₂
    obtain ⟨q, r₃, h₃, h⟩ := run_bind_eq_ok.1 h
    obtain ⟨rfl, rfl⟩ := run_read_eq_ok.1 h₃
    cases hp : q key with
    | none =>
      rw [hp] at h
      exact absurd h run_refuse_ne_ok
    | some d' =>
      rw [hp] at h
      obtain ⟨_, r₄, h₄, h⟩ := run_bind_eq_ok.1 h
      obtain rfl := run_modify_eq_ok.1 h₄
      obtain ⟨rfl, rfl⟩ := run_pure_eq_ok.1 h
      refine ⟨⟨rfl, rfl, funext fun k => ?_⟩, ?_⟩
      · show ((s'.found.insert key d').get? k).or (q k) = (s'.found.get? k).or (q k)
        rw [Keyed.get?_insert]
        split
        · rename_i hk
          subst hk
          rw [hf, hp]
          rfl
        · rfl
      · rw [Session.known, hf, hp]
        rfl

theorem run_sizedData {key : String} {size : Size} {d : ConstantData R}
    (h : (sizedData key size).runFrom p s = (.ok d, t)) :
    t.Same p s ∧ s.known p key = some d ∧ d.size = size := by
  rw [sizedData] at h
  obtain ⟨d', r, hd, h⟩ := run_bind_eq_ok.1 h
  split at h
  · obtain ⟨_, _, h, -⟩ := run_bind_eq_ok.1 h
    exact absurd h run_refuse_ne_ok
  · rename_i hsize
    obtain ⟨rfl, rfl⟩ := run_pure_eq_ok.1 h
    obtain ⟨hsame, hknown⟩ := run_data hd
    exact ⟨hsame, hknown, by simpa using hsize⟩

variable [ExactScalar R]

omit [ExactScalar R] in
theorem entry_of_known [Scalar R] {c : Constant R} {key : String} {d : ConstantData R} {data : Provider R}
    (hv : c.value = .data key) (hd : data key = some d) (r j : Nat) :
    c.entry data r j = d.entry r j := by
  simp only [Constant.entry, hv, hd]

omit [ExactScalar R] in
theorem entry_of_scalar [Scalar R] {c : Constant R} {v : R} (data : Provider R) (hv : c.value = .scalar v)
    (r j : Nat) : c.entry data r j = v := by
  rw [Constant.entry, hv]

/-- A constant as a dense matrix. -/
theorem run_dense {c : Constant R} {a : Dense R} (h : (dense c).runFrom p s = (.ok a, t)) :
    t.Same p s ∧ a.m = c.m ∧ a.n = c.n ∧
      ∀ r j, r < c.m → j < c.n → a.entry r j = c.entry (s.known p) r j := by
  rw [dense] at h
  cases hv : c.value with
  | scalar v =>
    rw [hv] at h
    obtain ⟨ha, rfl⟩ := run_liftM_eq_ok.1 h
    obtain ⟨-, rfl⟩ := Dense.make_eq_ok.1 ha
    refine ⟨Session.Same.refl p s, rfl, rfl, fun r j hr hj => ?_⟩
    rw [Dense.entry_build _ hr hj, entry_of_scalar _ hv]
  | data key =>
    rw [hv] at h
    obtain ⟨d, r, hd, h⟩ := run_bind_eq_ok.1 h
    obtain ⟨hsame, hknown, hsize⟩ := run_sizedData hd
    obtain ⟨ha, rfl⟩ := run_liftM_eq_ok.1 h
    refine ⟨hsame, ?_⟩
    cases d with
    | dense a' =>
      cases ha
      obtain ⟨hm, hn⟩ : a.m = c.m ∧ a.n = c.n := Prod.mk.inj hsize
      exact ⟨hm, hn, fun r j _ _ => (entry_of_known hv hknown r j).symm⟩
    | sparse a' =>
      obtain ⟨hm, hn⟩ : a'.m = c.m ∧ a'.n = c.n := Prod.mk.inj hsize
      obtain ⟨_, -, ha⟩ := bind_eq_ok.1 ha
      cases pure_eq_ok.1 ha
      refine ⟨hm, hn, fun r j hr hj => ?_⟩
      rw [entry_of_known hv hknown]
      exact Dense.entry_build _ (hm.symm ▸ hr) (hn.symm ▸ hj)

/-- A constant as a sparse matrix. -/
theorem run_sparse {c : Constant R} {a : Sparse R} (h : (sparse c).runFrom p s = (.ok a, t)) :
    t.Same p s ∧ a.m = c.m ∧ a.n = c.n ∧
      ∀ r j, r < c.m → j < c.n → a.entry r j = c.entry (s.known p) r j := by
  rw [sparse] at h
  cases hv : c.value with
  | scalar v =>
    rw [hv] at h
    obtain ⟨d, r, hd, h⟩ := run_bind_eq_ok.1 h
    obtain ⟨hfill, rfl⟩ := run_liftM_eq_ok.1 hd
    obtain ⟨ha, rfl⟩ := run_liftM_eq_ok.1 h
    obtain ⟨-, rfl⟩ := Dense.make_eq_ok.1 hfill
    cases Sparse.eq_of_extract ha
    refine ⟨Session.Same.refl p s, rfl, rfl, fun r j hr hj => ?_⟩
    rw [Sparse.entry_ofDense _ hr hj, Dense.entry_build _ hr hj, entry_of_scalar _ hv]
  | data key =>
    rw [hv] at h
    obtain ⟨d, r, hd, h⟩ := run_bind_eq_ok.1 h
    obtain ⟨hsame, hknown, hsize⟩ := run_sizedData hd
    obtain ⟨ha, rfl⟩ := run_liftM_eq_ok.1 h
    refine ⟨hsame, ?_⟩
    cases d with
    | dense a' =>
      obtain ⟨hm, hn⟩ : a'.m = c.m ∧ a'.n = c.n := Prod.mk.inj hsize
      cases Sparse.eq_of_extract ha
      refine ⟨hm, hn, fun r j hr hj => ?_⟩
      rw [entry_of_known hv hknown]
      exact Sparse.entry_ofDense _ (hm.symm ▸ hr) (hn.symm ▸ hj)
    | sparse a' =>
      cases ha
      obtain ⟨hm, hn⟩ : a.m = c.m ∧ a.n = c.n := Prod.mk.inj hsize
      exact ⟨hm, hn, fun r j _ _ => (entry_of_known hv hknown r j).symm⟩

/-- The scalar of a constant of one element. -/
theorem run_firstEntry {c : Constant R} {v : R} (hc : c.m * c.n = 1)
    (h : (firstEntry c).runFrom p s = (.ok v, t)) :
    t.Same p s ∧ v = c.entry (s.known p) 0 0 := by
  rw [firstEntry] at h
  cases hv : c.value with
  | scalar v' =>
    rw [hv] at h
    obtain ⟨rfl, rfl⟩ := run_pure_eq_ok.1 h
    exact ⟨Session.Same.refl p s, (entry_of_scalar _ hv 0 0).symm⟩
  | data key =>
    rw [hv] at h
    obtain ⟨a, r, ha, h⟩ := run_bind_eq_ok.1 h
    obtain ⟨hsame, hm, hn, he⟩ := run_dense ha
    obtain ⟨_, r', hr', h⟩ := run_bind_eq_ok.1 h
    obtain ⟨-, rfl⟩ := run_liftM_eq_ok.1 hr'
    obtain ⟨rfl, rfl⟩ := run_pure_eq_ok.1 h
    have hpos : 0 < c.m * c.n := by omega
    refine ⟨hsame, ?_⟩
    rw [← he 0 0 (Nat.pos_of_mul_pos_right hpos) (Nat.pos_of_mul_pos_left hpos), Dense.entry,
      Nat.zero_mul]

/-- A constant as a map. -/
theorem run_constantMap {c : Constant R} {l : LinearMap R} (w : Marks R)
    (h : (constantMap c).runFrom p s = (.ok l, t)) :
    t.Same p s ∧ l.Means w c.m c.n (c.entry (s.known p)) ∧ l.Plain := by
  rw [constantMap] at h
  cases hv : c.value with
  | scalar v =>
    rw [hv] at h
    obtain ⟨a, r, ha, h⟩ := run_bind_eq_ok.1 h
    obtain ⟨hfill, rfl⟩ := run_liftM_eq_ok.1 ha
    obtain ⟨rfl, rfl⟩ := run_pure_eq_ok.1 h
    obtain ⟨-, rfl⟩ := Dense.make_eq_ok.1 hfill
    refine ⟨Session.Same.refl p _, LinearMap.means_ofDense rfl rfl fun r j hr hj => ?_, trivial⟩
    rw [Dense.entry_build _ hr hj, entry_of_scalar _ hv]
  | data key =>
    rw [hv] at h
    obtain ⟨d, r, hd, h⟩ := run_bind_eq_ok.1 h
    obtain ⟨hsame, hknown, hsize⟩ := run_sizedData hd
    cases d with
    | dense a =>
      obtain ⟨rfl, rfl⟩ := run_pure_eq_ok.1 h
      obtain ⟨hm, hn⟩ : a.m = c.m ∧ a.n = c.n := Prod.mk.inj hsize
      exact ⟨hsame, LinearMap.means_ofDense hm hn fun r j _ _ => (entry_of_known hv hknown r j).symm,
        trivial⟩
    | sparse a =>
      obtain ⟨rfl, rfl⟩ := run_pure_eq_ok.1 h
      obtain ⟨hm, hn⟩ : a.m = c.m ∧ a.n = c.n := Prod.mk.inj hsize
      exact ⟨hsame, LinearMap.means_ofSparse hm hn fun r j _ _ => (entry_of_known hv hknown r j).symm,
        trivial⟩

/-- A described map has the coefficients that its description says. -/
theorem run_describedMap {d : MapDesc R} {l : LinearMap R} (w : Marks R)
    (h : (describedMap d).runFrom p s = (.ok l, t)) :
    t.Same p s ∧ l.Means w d.dims.1 d.dims.2 (d.coef (s.known p)) ∧ l.Plain := by
  induction d generalizing l s t with
  | dense c =>
    rw [describedMap] at h
    obtain ⟨a, r, ha, h⟩ := run_bind_eq_ok.1 h
    obtain ⟨rfl, rfl⟩ := run_pure_eq_ok.1 h
    obtain ⟨hsame, hm, hn, he⟩ := run_dense ha
    exact ⟨hsame, LinearMap.means_ofDense hm hn he, trivial⟩
  | sparse c =>
    rw [describedMap] at h
    obtain ⟨a, r, ha, h⟩ := run_bind_eq_ok.1 h
    obtain ⟨rfl, rfl⟩ := run_pure_eq_ok.1 h
    obtain ⟨hsame, hm, hn, he⟩ := run_sparse ha
    exact ⟨hsame, LinearMap.means_ofSparse hm hn he, trivial⟩
  | diagonal c =>
    rw [describedMap] at h
    obtain ⟨a, r, ha, h⟩ := run_bind_eq_ok.1 h
    obtain ⟨rfl, rfl⟩ := run_pure_eq_ok.1 h
    obtain ⟨hsame, hm, hn, he⟩ := run_dense ha
    refine ⟨hsame, LinearMap.means_ofDiagonal (by rw [a.size_data, hm, hn]; rfl) fun i j hi _ => ?_,
      trivial⟩
    show (if i = j then c.entry _ (i % c.m) (i / c.m) else 0) = _
    split
    · have hi' : i < c.n * c.m := Nat.mul_comm c.m c.n ▸ hi
      rw [← he _ _ (div_mod_lt hi').2 (div_mod_lt hi').1, Dense.entry, hm, Nat.div_add_mod']
    · rfl
  | scalar n alpha =>
    rw [describedMap] at h
    obtain ⟨rfl, rfl⟩ := run_pure_eq_ok.1 h
    exact ⟨Session.Same.refl p s, LinearMap.means_ofScalar fun _ _ _ _ => rfl, trivial⟩
  | kronecker a b iha ihb =>
    rw [describedMap] at h
    obtain ⟨la, r, hla, h⟩ := run_bind_eq_ok.1 h
    obtain ⟨lb, r', hlb, h⟩ := run_bind_eq_ok.1 h
    obtain ⟨hl, rfl⟩ := run_liftM_eq_ok.1 h
    obtain ⟨hsa, hma, hpa⟩ := iha hla
    obtain ⟨hsb, hmb, hpb⟩ := ihb hlb
    rw [hsa.known] at hmb
    rw [LinearMap.eq_kron_of_tensor hl]
    exact ⟨hsb.trans hsa, hma.kron hmb, hpa.kron hpb⟩
  | transpose a iha =>
    rw [describedMap] at h
    obtain ⟨la, r, hla, h⟩ := run_bind_eq_ok.1 h
    obtain ⟨hl, rfl⟩ := run_liftM_eq_ok.1 h
    obtain ⟨hsa, hma, hpa⟩ := iha hla
    exact ⟨hsa, hma.transpose hl, hpa.transpose hl⟩

end Compile

end BlockAdmm
