/-
  Every way in which a compilation can end; reading constants and described maps.

  `RunEnds` says of a compilation what `Ends` says of a plain computation; it carries the session along, and
  a compilation is gone through step by step in the same way (`RunEnds.bind`).

  What is read depends on the known data alone, and reading changes neither them nor the form nor the
  free mark (`Reads`), so the same reading gives the same at any time.  Whatever the data are, what is read
  has the size that was asked for, or the difference is reported.  There is one promise that no size
  keeps: a constant that scales is taken to have an entry, and data without entries have none
  (`Constant.Hollow`).
-/
import BlockAdmm.Proofs.Compile
import BlockAdmm.Proofs.Safety.LinearMap

namespace BlockAdmm

open Scalar

variable {R : Type} {α β σ : Type}

/-! ## Compilations -/

namespace Compile

variable {R : Type} {E : Fault → Prop} {p : Provider R} {s t : Session R}

/-- `RunEnds E p s Q x`: the same of a compilation from the session `s`, where `Q` is about the value and
    the session after it. -/
def RunEnds (E : Fault → Prop) (p : Provider R) (s : Session R) (Q : α → Session R → Prop)
    (x : Compile R α) : Prop :=
  Ends E (fun a => Q a (x.runFrom p s).2) (x.runFrom p s).1

variable {P Q : α → Session R → Prop} {x : Compile R α}

theorem RunEnds.of_eq_ok {a : α} (h : RunEnds E p s Q x) (hx : x.runFrom p s = (.ok a, t)) : Q a t := by
  rw [RunEnds, hx] at h
  exact h

theorem RunEnds.imp (h : RunEnds E p s P x) (hQ : ∀ a t, P a t → Q a t) : RunEnds E p s Q x :=
  Ends.imp h fun a => hQ a _

/-- What is known of every run that has a value can be added. -/
theorem RunEnds.and_eq (h : RunEnds E p s P x) (hQ : ∀ a t, x.runFrom p s = (.ok a, t) → Q a t) :
    RunEnds E p s (fun a t => P a t ∧ Q a t) x :=
  Ends.and_eq h fun a ha => hQ a _ (Prod.ext ha rfl)

/-- One compilation after another. -/
theorem RunEnds.bind {Q : β → Session R → Prop} {f : α → Compile R β} (hx : RunEnds E p s P x)
    (hf : ∀ a t, P a t → RunEnds E p t Q (f a)) : RunEnds E p s Q (x >>= f) := by
  rw [RunEnds, run_bind]
  rw [RunEnds] at hx
  rcases hrun : x.runFrom p s with ⟨o, r⟩
  rw [hrun] at hx
  cases o with
  | ok a => exact hf a r hx
  | error e => exact hx

theorem runEnds_pure {a : α} (h : Q a s) : RunEnds E p s Q (pure a) := h

/-- A computation without a session leaves it alone. -/
theorem runEnds_liftM {o : Outcome α} {P : α → Prop} (h : Ends E P o) :
    RunEnds E p s (fun a t => P a ∧ t = s) (liftM o) := h.imp fun _ ha => ⟨ha, rfl⟩

theorem runEnds_refuse [Reports E] (e : SolverError) : RunEnds E p s Q (refuse e) := Reports.failed e

theorem runEnds_refuse_bind [Reports E] {Q : β → Session R → Prop} (e : SolverError)
    (f : α → Compile R β) : RunEnds E p s Q (refuse e >>= f) := Reports.failed e

theorem runEnds_get : RunEnds E p s (fun r t => r = s ∧ t = s) (get : Compile R (Session R)) := ⟨rfl, rfl⟩

theorem runEnds_modify (f : Session R → Session R) :
    RunEnds E p s (fun _ t => t = f s) (modify f : Compile R Unit) := rfl

theorem runEnds_note (e : Event) : RunEnds E p s (fun _ t => t.Same p s) (note e) := ⟨rfl, rfl, rfl⟩

theorem runEnds_logged {y : Logged α} {P : α → Prop} (h : Ends E P y.outcome) :
    RunEnds E p s (fun a _ => P a) (logged y) :=
  RunEnds.bind (P := fun _ _ => True) trivial fun _ _ _ => (runEnds_liftM h).imp fun _ _ ha => ha.1

/-- What every step keeps, a fold keeps. -/
theorem runEnds_foldlM {f : σ → α → Compile R σ} (I : σ → Session R → Prop) {xs : List α} {a : σ}
    (hs : I a s) (step : ∀ x ∈ xs, ∀ a s, I a s → RunEnds E p s I (f a x)) :
    RunEnds E p s I (xs.foldlM f a) := by
  induction xs generalizing a s with
  | nil => exact hs
  | cons x xs ih =>
    rw [List.foldlM_cons]
    exact (step x List.mem_cons_self a s hs).bind fun b t hb =>
      ih hb fun y hy => step y (List.mem_cons_of_mem x hy)

/-- A map over a list, where every step may change the session as long as it keeps `I`. -/
theorem runEnds_mapM {f : α → Compile R β} (I : Session R → Prop) (Q : β → Prop) {xs : List α} (hs : I s)
    (step : ∀ x ∈ xs, ∀ s, I s → RunEnds E p s (fun b t => Q b ∧ I t) (f x)) :
    RunEnds E p s (fun ys t => (∀ y ∈ ys, Q y) ∧ I t) (xs.mapM f) := by
  induction xs generalizing s with
  | nil => exact ⟨fun _ hy => absurd hy List.not_mem_nil, hs⟩
  | cons x xs ih =>
    rw [List.mapM_cons]
    refine (step x List.mem_cons_self s hs).bind fun y t hy => ?_
    refine (ih hy.2 fun z hz => step z (List.mem_cons_of_mem x hz)).bind fun ys u hys => ?_
    exact runEnds_pure ⟨List.forall_mem_cons.2 ⟨hy.1, hys.1⟩, hys.2⟩

end Compile

/-- `c.Hollow data`: the constant has no entry, and its data are there and have its size. -/
def Constant.Hollow (data : Provider R) (c : Constant R) : Prop :=
  c.m * c.n = 0 ∧ ∃ key d, c.value = .data key ∧ data key = some d ∧ d.size = c.size

/-- `c.Resolved data`: if the constant has data, they are there and have its size. -/
def Constant.Resolved (data : Provider R) (c : Constant R) : Prop :=
  ∀ key, c.value = .data key → ∃ d, data key = some d ∧ d.size = c.size

namespace Compile

variable {E : Fault → Prop} {p : Provider R} {s t : Session R}

/-! ## Readings -/

/-- `Reads p x`: what comes out depends on the known data, and nothing but what was found and asked is
    changed. -/
structure Reads (p : Provider R) (x : Compile R α) : Prop where
  outcome : ∀ s s', s'.known p = s.known p → (x.runFrom p s').1 = (x.runFrom p s).1
  same : ∀ s, (x.runFrom p s).2.Same p s

theorem reads_pure (a : α) : Reads p (pure a : Compile R α) := ⟨fun _ _ _ => rfl, Session.Same.refl p⟩

theorem reads_liftM (o : Outcome α) : Reads p (liftM o : Compile R α) :=
  ⟨fun _ _ _ => rfl, Session.Same.refl p⟩

theorem reads_refuse (e : SolverError) : Reads p (refuse e : Compile R α) :=
  ⟨fun _ _ _ => rfl, Session.Same.refl p⟩

/-- One reading after another. -/
theorem Reads.bind {x : Compile R α} {f : α → Compile R β} (hx : Reads p x) (hf : ∀ a, Reads p (f a)) :
    Reads p (x >>= f) := by
  refine ⟨fun s s' hs => ?_, fun s => ?_⟩
  · have hsame := hx.same s
    have hsame' := hx.same s'
    have hout := hx.outcome s s' hs
    rw [run_bind, run_bind]
    rcases hr : x.runFrom p s with ⟨o, r⟩
    rcases hr' : x.runFrom p s' with ⟨o', r'⟩
    rw [hr] at hsame
    rw [hr'] at hsame'
    rw [hr, hr'] at hout
    obtain rfl : o' = o := hout
    cases o' with
    | ok a => exact (hf a).outcome r r' (hsame'.known.trans (hs.trans hsame.known.symm))
    | error e => rfl
  · have hsame := hx.same s
    rw [run_bind]
    rcases hr : x.runFrom p s with ⟨o, r⟩
    rw [hr] at hsame
    cases o with
    | ok a => exact ((hf a).same r).trans hsame
    | error e => exact hsame

/-- After a reading the session is the same. -/
theorem Reads.ends {x : Compile R α} {Q : α → Session R → Prop} (hx : Reads p x) (h : RunEnds E p s Q x) :
    RunEnds E p s (fun a t => Q a t ∧ t.Same p s) x :=
  h.and_eq fun _ _ hrun => (Prod.mk.inj hrun).2 ▸ hx.same s

/-- The data under a name are what is known under it. -/
theorem run_data_fst (key : String) (p : Provider R) (s : Session R) :
    ((data key).runFrom p s).1 = match s.known p key with
      | some d => .ok d
      | none => .error (.failed (.missingData key)) := by
  rw [data]
  cases hf : s.found.get? key with
  | some d => simp only [run_bind, run_get, hf, run_pure, Session.known, Option.some_or]
  | none =>
    cases hp : p key <;>
      simp only [run_bind, run_get, hf, hp, run_modify, run_read, run_refuse, run_pure, note,
        Session.known, Option.none_or]

theorem reads_data (key : String) : Reads p (data key) := by
  refine ⟨fun s s' hs => ?_, fun s => ?_⟩
  · rw [run_data_fst, run_data_fst, hs]
  · have hfst := run_data_fst key p s
    cases hk : s.known p key with
    | some d =>
      rw [hk] at hfst
      exact (run_data (Prod.ext hfst rfl)).1
    | none =>
      -- a name that is not known is only noted
      obtain ⟨hf, hp⟩ := Option.or_eq_none_iff.1 hk
      simp only [data, run_bind, run_get, hf, hp, run_modify, run_read, run_refuse, note]
      exact ⟨rfl, rfl, rfl⟩

theorem reads_sizedData (key : String) (size : Size) : Reads p (sizedData key size) := by
  refine (reads_data key).bind fun d => ?_
  split
  · exact (reads_refuse _).bind fun _ => reads_pure _
  · exact reads_pure d

variable [Scalar R]

theorem reads_dense (c : Constant R) : Reads p (dense c) := by
  rw [dense]
  cases c.value with
  | scalar v => exact reads_liftM _
  | data key => exact (reads_sizedData key c.size).bind fun d => reads_liftM _

theorem reads_sparse (c : Constant R) : Reads p (sparse c) := by
  rw [sparse]
  cases c.value with
  | scalar v => exact (reads_liftM _).bind fun d => reads_liftM _
  | data key => exact (reads_sizedData key c.size).bind fun d => reads_liftM _

theorem reads_firstEntry (c : Constant R) : Reads p (firstEntry c) := by
  rw [firstEntry]
  cases c.value with
  | scalar v => exact reads_pure v
  | data key => exact (reads_dense c).bind fun d => (reads_liftM _).bind fun _ => reads_pure _

omit [Scalar R] in
theorem reads_constantMap (c : Constant R) : Reads p (constantMap c) := by
  rw [constantMap]
  cases c.value with
  | scalar v => exact (reads_liftM _).bind fun d => reads_pure _
  | data key =>
    refine (reads_sizedData key c.size).bind fun d => ?_
    cases d with
    | dense a => exact reads_pure _
    | sparse a => exact reads_pure _

theorem reads_describedMap (d : MapDesc R) : Reads p (describedMap d) := by
  induction d with
  | dense c => exact (reads_dense c).bind fun a => reads_pure _
  | sparse c => exact (reads_sparse c).bind fun a => reads_pure _
  | diagonal c => exact (reads_dense c).bind fun a => reads_pure _
  | scalar n alpha => exact reads_pure _
  | kronecker a b iha ihb => exact iha.bind fun la => ihb.bind fun lb => reads_liftM _
  | transpose a iha => exact iha.bind fun la => reads_liftM _

/-! ## Sizes -/

omit [Scalar R] in
/-- Data that are there and have the size are read, and otherwise the difference is reported. -/
theorem runEnds_sizedData {key : String} {size : Size}
    (hE : (∃ d, s.known p key = some d ∧ d.size = size) ∨ ∀ e, E (.failed e)) :
    RunEnds E p s (fun d _ => d.size = size ∧ s.known p key = some d) (sizedData key size) := by
  have hdata : RunEnds E p s (fun d _ => s.known p key = some d) (data key) := by
    rw [RunEnds, run_data_fst]
    cases hk : s.known p key with
    | some d => rfl
    | none =>
      rcases hE with ⟨d, hd, -⟩ | hE
      · cases hk.symm.trans hd
      · exact hE _
  refine hdata.bind fun d t hd => ?_
  split
  · rename_i hsize
    rw [bne_iff_ne] at hsize
    rcases hE with ⟨d', hd', hsize'⟩ | hE
    · obtain rfl := Option.some.inj (hd'.symm.trans hd)
      exact absurd hsize' hsize
    · exact hE _
  · rename_i hsize
    rw [bne_iff_ne, not_not] at hsize
    exact runEnds_pure ⟨hsize, hd⟩

variable [Limits E] {c : Constant R}

theorem ends_toDense (d : ConstantData R) :
    Ends E (fun a => a.size = d.size) d.toDense := by
  cases d with
  | dense a => exact ends_ok rfl
  | sparse a => exact Sparse.ends_expand (allows_of_limits _)

theorem ends_toSparse (d : ConstantData R) :
    Ends E (fun a => a.size = d.size) d.toSparse := by
  cases d with
  | dense a =>
    exact (Sparse.ends_extract (allows_of_limits _) (allows_of_limits _)).imp fun s hs => hs ▸ rfl
  | sparse a => exact ends_ok rfl

theorem runEnds_dense (hE : c.Resolved (s.known p) ∨ ∀ e, E (.failed e)) :
    RunEnds E p s (fun a _ => a.size = c.size) (dense c) := by
  rw [dense]
  cases hv : c.value with
  | scalar v => exact (runEnds_liftM (Dense.ends_make (allows_of_limits _) _)).imp fun _ _ h => h.1
  | data key =>
    refine (runEnds_sizedData (hE.imp (fun h => h key hv) id)).bind fun d t hd => ?_
    exact (runEnds_liftM (ends_toDense d)).imp fun _ _ h => h.1.trans hd.1

theorem runEnds_sparse (hE : c.Resolved (s.known p) ∨ ∀ e, E (.failed e)) :
    RunEnds E p s (fun a _ => a.size = c.size) (sparse c) := by
  rw [sparse]
  cases hv : c.value with
  | scalar v =>
    refine (runEnds_liftM (Dense.ends_make (allows_of_limits _) _)).bind fun d t hd => ?_
    exact (runEnds_liftM (Sparse.ends_extract (allows_of_limits _) (allows_of_limits _))).imp fun _ _ h =>
      h.1 ▸ hd.1
  | data key =>
    refine (runEnds_sizedData (hE.imp (fun h => h key hv) id)).bind fun d t hd => ?_
    exact (runEnds_liftM (ends_toSparse d)).imp fun _ _ h => h.1.trans hd.1

omit [Scalar R] in
theorem runEnds_constantMap (hE : c.Resolved (s.known p) ∨ ∀ e, E (.failed e)) :
    RunEnds E p s (fun l _ => l.Shaped c.m c.n) (constantMap c) := by
  rw [constantMap]
  cases hv : c.value with
  | scalar v =>
    exact (runEnds_liftM (Dense.ends_make (allows_of_limits _) _)).bind fun d t hd => runEnds_pure ⟨trivial, hd.1⟩
  | data key =>
    refine (runEnds_sizedData (hE.imp (fun h => h key hv) id)).bind fun d t hd => ?_
    cases d with
    | dense a => exact runEnds_pure ⟨trivial, hd.1⟩
    | sparse a => exact runEnds_pure ⟨trivial, hd.1⟩

omit [Limits E] in
theorem runEnds_describedMap [Reports E] (d : MapDesc R) :
    RunEnds E p s (fun l _ => l.Shaped d.dims.1 d.dims.2) (describedMap d) := by
  have hE : ∀ e, E (.failed e) := Reports.failed
  induction d generalizing s with
  | dense c => exact (runEnds_dense (Or.inr hE)).bind fun a t ha => runEnds_pure ⟨trivial, ha⟩
  | sparse c => exact (runEnds_sparse (Or.inr hE)).bind fun a t ha => runEnds_pure ⟨trivial, ha⟩
  | diagonal c =>
    refine (runEnds_dense (Or.inr hE)).bind fun a t ha => runEnds_pure ⟨trivial, ?_⟩
    have hsize : a.data.size = c.m * c.n :=
      a.size_data.trans (congrArg (fun s : Size => s.1 * s.2) ha)
    exact Prod.ext hsize hsize
  | scalar n alpha => exact runEnds_pure ⟨trivial, rfl⟩
  | kronecker a b iha ihb =>
    refine iha.bind fun la t hla => ihb.bind fun lb u hlb => ?_
    exact (runEnds_liftM (hla.tensor hlb)).imp fun _ _ h => h.1
  | transpose a iha =>
    exact iha.bind fun la t hla => (runEnds_liftM hla.transpose).imp fun _ _ h => h.1

/-! ## The first entry of a constant -/

/-- Only a hollow constant has no first entry. -/
theorem runEnds_firstEntry (h : c.Hollow (s.known p) → E .misuse)
    (hE : c.Resolved (s.known p) ∨ ∀ e, E (.failed e)) :
    RunEnds E p s (fun _ _ => True) (firstEntry c) := by
  rw [firstEntry]
  cases hv : c.value with
  | scalar v => exact runEnds_pure trivial
  | data key =>
    have hdense : RunEnds E p s (fun a _ => a.data.size = 0 → c.Hollow (s.known p)) (dense c) := by
      rw [dense, hv]
      refine (runEnds_sizedData (hE.imp (fun h => h key hv) id)).bind fun d t hd => ?_
      refine (runEnds_liftM (ends_toDense d)).imp fun a _ ha hzero => ?_
      have hsize : a.size = c.size := ha.1.trans hd.1
      have hempty : c.m * c.n = 0 :=
        (congrArg (fun s : Size => s.1 * s.2) hsize).symm.trans (a.size_data.symm.trans hzero)
      exact ⟨hempty, key, d, hv, hd.2, hd.1⟩
    refine hdense.bind fun a t ha => ?_
    rcases Nat.eq_zero_or_pos a.data.size with hzero | hpos
    · rw [hzero]
      exact h (ha hzero)
    · exact (runEnds_liftM (ends_promise (decide_eq_true hpos))).bind fun _ _ _ => runEnds_pure trivial

omit [Limits E] in
/-- A hollow constant has none, and that it has one is promised. -/
theorem runEnds_firstEntry_of_hollow (h : c.Hollow (s.known p)) :
    RunEnds (· = .misuse) p s (fun _ _ => False) (firstEntry c) := by
  obtain ⟨hempty, key, d, hv, hknown, hsize⟩ := h
  have hdense : RunEnds (· = .misuse) p s (fun a _ => a.data.size = 0) (dense c) := by
    rw [dense, hv]
    refine (runEnds_sizedData (Or.inl ⟨d, hknown, hsize⟩)).bind fun d' t hd' => ?_
    obtain rfl := Option.some.inj (hknown.symm.trans hd'.2)
    cases d with
    | dense a =>
      refine runEnds_pure ?_
      rw [a.size_data, ← hempty]
      exact congrArg (fun s : Size => s.1 * s.2) hsize
    | sparse a =>
      have hempty' : a.m * a.n = 0 := (congrArg (fun s : Size => s.1 * s.2) hsize).trans hempty
      show RunEnds _ p t _ (liftM (room (a.m * a.n) >>= fun _ => pure a.toDense))
      rw [hempty']
      exact a.toDense.size_data.trans hempty'
  rw [firstEntry, hv]
  refine hdense.bind fun a t ha => ?_
  rw [ha]
  rfl

end Compile

end BlockAdmm
