/-
  What a compilation asks for.

  Data are asked for by name, and a name that was found is kept.  So no name is asked for twice, every name
  belongs to a constant that is compiled, and the first name without data ends the compilation; whatever was
  asked for before had data (`Session.Answered`, `Session.Told`).  Since nothing else is learned from the
  provider, two providers that agree on the names of a problem cannot be told apart.

  Both are said of two runs side by side (`Compile.Asks`): from sessions that differ in their events, with
  providers that agree on the names `K`, they ask for the same names, all of them in `K`, and end in the same
  fault or in related values.  The relation goes through a sequence step by step (`Compile.Asks.bind`), so it
  holds of every program that reads names of `K` (`Affine.asks_compile`, `TermInput.asks_build`).
-/
import BlockAdmm.Proofs.Congruence
import BlockAdmm.Proofs.Safety.Outcome

namespace BlockAdmm

variable {R : Type} {α α' β β' : Type}

/-! ## Sessions -/

namespace Session

/-- `s.silent`: the session without its events. -/
def silent (s : Session R) : Session R := { s with events := #[] }

variable {K : String → Prop} {p : Provider R} {s t : Session R}

/-- `s.Answered K p`: every name that was asked for is one of `K` and was asked for once, the provider had
    data under it, and they are what was found. -/
structure Answered (K : String → Prop) (p : Provider R) (s : Session R) : Prop where
  once : s.asked.toList.Nodup
  within : ∀ k ∈ s.asked.toList, K k
  resolved : ∀ k ∈ s.asked.toList, (p k).isSome = true
  found : ∀ k, s.found.get? k = if k ∈ s.asked.toList then p k else none

/-- `t.Stopped K p f`: the last name that was asked for had no data, and `f` is the report of that. -/
def Stopped (K : String → Prop) (p : Provider R) (t : Session R) (f : Fault) : Prop :=
  ∃ key, ∃ s : Session R, s.Answered K p ∧ K key ∧ p key = none ∧
    t.asked.toList = s.asked.toList ++ [key] ∧ f = .failed (.missingData key)

/-- `t.Told K p o`: what the session after a computation tells of its outcome `o`. -/
def Told (K : String → Prop) (p : Provider R) (t : Session R) (o : Outcome α) : Prop :=
  Ends (fun f => t.Answered K p ∨ t.Stopped K p f) (fun _ => t.Answered K p) o

theorem asked_eq {s s' : Session R} (h : s.silent = s'.silent) : s.asked = s'.asked :=
  show s.silent.asked = s'.silent.asked from congrArg asked h

theorem form_eq {s s' : Session R} (h : s.silent = s'.silent) : s.form = s'.form :=
  show s.silent.form = s'.silent.form from congrArg form h

theorem nextMark_eq {s s' : Session R} (h : s.silent = s'.silent) : s.nextMark = s'.nextMark :=
  show s.silent.nextMark = s'.silent.nextMark from congrArg nextMark h

theorem Answered.told (h : t.Answered K p) (o : Outcome α) : t.Told K p o := by
  cases o with
  | ok a => exact h
  | error f => exact Or.inl h

theorem answered_start (form : AffineForm R) (mark : Nat) : (Session.start form mark).Answered K p where
  once := List.nodup_nil
  within _ h := absurd h List.not_mem_nil
  resolved _ h := absurd h List.not_mem_nil
  found _ := rfl

theorem Answered.not_mem (h : s.Answered K p) {key : String} (hnone : p key = none) :
    key ∉ s.asked.toList := by
  intro hmem
  have hsome := h.resolved key hmem
  rw [hnone] at hsome
  cases hsome

/-- Asking for a name that was not found so far, and finding it. -/
theorem Answered.push (h : s.Answered K p) {key : String} (hK : K key) (hnew : s.found.get? key = none)
    {d : ConstantData R} (hd : p key = some d) (e : Array Event) :
    ({ s with events := e, asked := s.asked.push key, found := s.found.insert key d } :
      Session R).Answered K p := by
  have hmem : key ∉ s.asked.toList := by
    intro hmem
    have hfound := h.found key
    rw [if_pos hmem, hnew, hd] at hfound
    cases hfound
  have hasked (k : String) : k ∈ (s.asked.push key).toList ↔ k ∈ s.asked.toList ∨ k = key := by
    rw [Array.toList_push, List.mem_append, List.mem_singleton]
  refine ⟨?_, fun k hk => ?_, fun k hk => ?_, fun k => ?_⟩
  · rw [Array.toList_push]
    exact List.concat_eq_append ▸ List.Nodup.concat hmem h.once
  · rcases (hasked k).1 hk with hk | rfl
    · exact h.within k hk
    · exact hK
  · rcases (hasked k).1 hk with hk | rfl
    · exact h.resolved k hk
    · rw [hd]
      rfl
  · show (s.found.insert key d).get? k = if k ∈ (s.asked.push key).toList then p k else none
    rw [Keyed.get?_insert, h.found]
    by_cases hk : key = k
    · subst hk
      rw [if_pos rfl, if_pos ((hasked key).2 (Or.inr rfl)), hd]
    · have hiff : k ∈ (s.asked.push key).toList ↔ k ∈ s.asked.toList :=
        (hasked k).trans (or_iff_left fun h => hk h.symm)
      rw [if_neg hk]
      simp only [hiff]

/-- What a computation asked for, whatever its outcome. -/
theorem Told.asked {o : Outcome α} (h : t.Told K p o) :
    t.asked.toList.Nodup ∧ (∀ k ∈ t.asked.toList, K k) ∧
      (∀ k ∈ t.asked.toList.dropLast, (p k).isSome = true) ∧
      ∀ k ∈ t.asked.toList, p k = none → o = .error (.failed (.missingData k)) := by
  have hcases : t.Answered K p ∨ ∃ f, t.Stopped K p f ∧ o = .error f := by
    cases o with
    | ok a => exact Or.inl h
    | error f => exact Or.imp id (fun hf => ⟨f, hf, rfl⟩) h
  rcases hcases with h | ⟨f, ⟨key, r, hr, hK, hnone, hasked, rfl⟩, rfl⟩
  · refine ⟨h.once, h.within, fun k hk => h.resolved k (List.dropLast_subset _ hk), fun k hk hnone => ?_⟩
    exact absurd hk (h.not_mem hnone)
  · rw [hasked]
    refine ⟨?_, fun k hk => ?_, fun k hk => ?_, fun k hk hk' => ?_⟩
    · exact List.concat_eq_append ▸ List.Nodup.concat (hr.not_mem hnone) hr.once
    · rcases List.mem_append.1 hk with hk | hk
      · exact hr.within k hk
      · exact List.mem_singleton.1 hk ▸ hK
    · rw [List.dropLast_concat] at hk
      exact hr.resolved k hk
    · rcases List.mem_append.1 hk with hk | hk
      · exact absurd hk (hr.not_mem hk')
      · rw [List.mem_singleton.1 hk]

end Session

/-! ## Two runs -/

namespace Compile

variable {K : String → Prop} {P : α → β → Prop}

/-- `Asks K P x x'`: with providers that agree on the names `K`, from sessions that differ in their events,
    the two runs end in the same fault or in related values, and in sessions that differ in their events; and
    the names that they ask for are names of `K`. -/
def Asks (K : String → Prop) (P : α → β → Prop) (x : Compile R α) (x' : Compile R β) : Prop :=
  ∀ p p' s s', (∀ k, K k → p k = p' k) → s.Answered K p → s.silent = s'.silent →
    Both P (x.runFrom p s).1 (x'.runFrom p' s').1 ∧
      (x.runFrom p s).2.silent = (x'.runFrom p' s').2.silent ∧
      (x.runFrom p s).2.Told K p (x.runFrom p s).1

/-- One pair of compilations after another. -/
theorem Asks.bind {Q : α' → β' → Prop} {x : Compile R α} {x' : Compile R β} {f : α → Compile R α'}
    {f' : β → Compile R β'} (hx : Asks K P x x') (hf : ∀ a b, P a b → Asks K Q (f a) (f' b)) :
    Asks K Q (x >>= f) (x' >>= f') := by
  intro p p' s s' hp hs hsilent
  obtain ⟨hboth, hsilent', htold⟩ := hx p p' s s' hp hs hsilent
  rw [run_bind, run_bind]
  rcases hr : x.runFrom p s with ⟨o, t⟩
  rcases hr' : x'.runFrom p' s' with ⟨o', t'⟩
  rw [hr, hr'] at hboth hsilent'
  rw [hr] at htold
  cases o with
  | ok a =>
    cases o' with
    | ok b => exact hf a b hboth p p' t t' hp htold hsilent'
    | error f => exact hboth.elim
  | error f =>
    cases o' with
    | ok b => exact hboth.elim
    | error f' => exact ⟨hboth, hsilent', htold⟩

/-- The same when both have the same value. -/
theorem Asks.andThen {Q : α' → β' → Prop} {x x' : Compile R α} {f : α → Compile R α'}
    {f' : α → Compile R β'} (hx : Asks K Eq x x') (hf : ∀ a, Asks K Q (f a) (f' a)) :
    Asks K Q (x >>= f) (x' >>= f') :=
  hx.bind fun a _ hab => hab ▸ hf a

theorem asks_pure {a : α} {b : β} (h : P a b) :
    Asks K P (pure a : Compile R α) (pure b : Compile R β) :=
  fun _ _ _ _ _ hs hsilent => ⟨h, hsilent, hs⟩

/-- A computation without a session. -/
theorem asks_lift {o : Outcome α} {o' : Outcome β} (h : Both P o o') :
    Asks K P (liftM o : Compile R α) (liftM o') :=
  fun _ _ _ _ _ hs hsilent => ⟨h, hsilent, hs.told o⟩

theorem asks_liftM (o : Outcome α) : Asks K Eq (liftM o : Compile R α) (liftM o) := asks_lift (both_eq o)

/-- The same with what is known of the value. -/
theorem asks_outcome (o : Outcome α) :
    Asks K (fun a b => o = .ok a ∧ a = b) (liftM o : Compile R α) (liftM o) :=
  asks_lift (both_self o fun _ ha => ⟨ha, rfl⟩)

theorem asks_refuse (e : SolverError) :
    Asks K P (refuse e : Compile R α) (refuse e : Compile R β) :=
  fun _ _ _ _ _ hs hsilent => ⟨rfl, hsilent, Or.inl hs⟩

theorem asks_refuse_bind {x : α' → Compile R α} {x' : α' → Compile R β} (e : SolverError) :
    Asks K P (refuse e >>= x) (refuse e >>= x') :=
  (asks_refuse (P := fun _ _ => False) e).bind fun _ _ h => h.elim

theorem asks_get :
    Asks K (fun s s' => s.silent = s'.silent) (get : Compile R (Session R)) get :=
  fun _ _ _ _ _ hs hsilent => ⟨hsilent, hsilent, hs⟩

/-- A change that leaves alone what was found and asked, and does not look at the events. -/
theorem asks_modify {f f' : Session R → Session R} (hfound : ∀ s, (f s).found = s.found)
    (hasked : ∀ s, (f s).asked = s.asked)
    (hsilent : ∀ s s', s.silent = s'.silent → (f s).silent = (f' s').silent) :
    Asks K Eq (modify f : Compile R Unit) (modify f') := by
  intro p p' s s' _ hs heq
  refine ⟨rfl, hsilent s s' heq, ?_⟩
  show (f s).Answered K p
  obtain ⟨honce, hwithin, hresolved, hfound'⟩ := hs
  rw [← hasked s] at honce hwithin hresolved hfound'
  exact ⟨honce, hwithin, hresolved, fun k => (congrArg (fun m => m.get? k) (hfound s)).trans (hfound' k)⟩

theorem asks_note (e e' : Event) : Asks K Eq (note e : Compile R Unit) (note e') :=
  asks_modify (fun _ => rfl) (fun _ => rfl) fun _ _ h => h

/-- A run that reports an event first. -/
theorem Asks.after_note {x : Unit → Compile R α} {x' : Compile R β} (h : Asks K P (x ()) x') (e : Event) :
    Asks K P (note e >>= x) x' := fun p p' s s' hp hs hsilent =>
  h p p' { s with events := s.events.push e } s' hp ⟨hs.once, hs.within, hs.resolved, hs.found⟩ hsilent

/-- A run that looks at its session first, to no effect. -/
theorem Asks.after_get {x : Session R → Compile R α} {x' : Compile R β} (h : ∀ t, Asks K P (x t) x') :
    Asks K P (get >>= x) x' := fun p p' s s' => h s p p' s s'

theorem asks_logged (x : Logged α) : Asks K Eq (logged x : Compile R α) (logged x) := by
  refine Asks.andThen ?_ fun _ => asks_liftM x.outcome
  exact asks_modify (fun _ => rfl) (fun _ => rfl) fun _ _ h => h

theorem asks_foldlM {f : β → α → Compile R β} {xs : List α} (h : ∀ x ∈ xs, ∀ a, Asks K Eq (f a x) (f a x))
    (a : β) : Asks K Eq (xs.foldlM f a) (xs.foldlM f a) := by
  induction xs generalizing a with
  | nil => exact asks_pure rfl
  | cons x xs ih =>
    rw [List.foldlM_cons]
    exact (h x List.mem_cons_self a).andThen fun b => ih (fun y hy => h y (List.mem_cons_of_mem x hy)) b

/-! ## Constants -/

/-- What asking for the data under a name comes to. -/
theorem runFrom_data (key : String) (p : Provider R) (s : Session R) :
    (data key).runFrom p s =
      let e := s.events.push ⟨.trace, fun _ => "loading data " ++ key⟩
      match s.found.get? key with
      | some d => (.ok d, s)
      | none => match p key with
        | some d => (.ok d,
            { s with events := e, asked := s.asked.push key, found := s.found.insert key d })
        | none => (.error (.failed (.missingData key)),
            { s with events := e, asked := s.asked.push key }) := by
  rw [data]
  cases hf : s.found.get? key with
  | some d => simp only [run_bind, run_get, hf, run_pure]
  | none =>
    cases hp : p key <;>
      simp only [run_bind, run_get, hf, hp, run_modify, run_read, run_refuse, run_pure, note]

theorem asks_data {key : String} (hK : K key) : Asks K Eq (data key : Compile R (ConstantData R)) (data key) := by
  rintro p p' ⟨found, asked, events, form, mark⟩ ⟨found', asked', events', form', mark'⟩ hp hs hsilent
  obtain ⟨rfl, rfl, -, rfl, rfl⟩ := Session.mk.inj hsilent
  rw [runFrom_data, runFrom_data, ← hp key hK]
  dsimp only
  cases hf : found.get? key with
  | some d => exact ⟨rfl, rfl, hs⟩
  | none =>
    cases hd : p key with
    | some d => exact ⟨rfl, rfl, hs.push hK hf hd _⟩
    | none => exact ⟨rfl, rfl, Or.inr ⟨key, _, hs, hK, hd, Array.toList_push, rfl⟩⟩

/-- What two runs ask for is put together from the steps. -/
theorem congruence_asks : Congruence K fun _ _ P (x : Compile R _) x' => Asks K P x x' where
  pure := asks_pure
  bind := Asks.bind
  lift := asks_lift
  refuse := asks_refuse
  note := asks_note
  data := asks_data

theorem asks_mapM {f f' : α → Compile R β} {xs : List α} (h : ∀ x ∈ xs, Asks K Eq (f x) (f' x)) :
    Asks K Eq (xs.mapM f) (xs.mapM f') :=
  congruence_asks.mapM rfl (fun hy hys => congrArg₂ List.cons hy hys) h

end Compile

/-! ## Expressions -/

namespace Affine

open Compile

variable {K : String → Prop}

theorem asks_changeForm (f : AffineForm R → Outcome (AffineForm R)) :
    Asks K Eq (changeForm f) (changeForm f) := by
  refine asks_get.bind fun s s' hs => ?_
  rw [Session.form_eq hs]
  refine (asks_liftM _).andThen fun form => asks_modify (fun _ => rfl) (fun _ => rfl) fun t t' ht => ?_
  exact congrArg (fun r : Session R => { r with form := form }) ht

theorem asks_shareMap (l : LinearMap R) : Asks K Eq (shareMap l) (shareMap l) := by
  refine asks_get.bind fun s s' hs => ?_
  rw [Session.nextMark_eq hs]
  refine Asks.andThen ?_ fun _ => asks_pure rfl
  refine asks_modify (fun _ => rfl) (fun _ => rfl) fun t t' ht => ?_
  exact congrArg (fun r : Session R => { r with nextMark := (l.share s'.nextMark).2 }) ht

variable [Scalar R]

/-- The operators of the two runs are the same. -/
theorem congruence_asks (row : String) :
    Congruence K Eq row row fun _ _ P (x : Compile R _) x' => Asks K P x x' where
  toCongruence := Compile.congruence_asks
  cols h := congrArg LinearMap.n h
  apply h := congrArg LinearMap.apply h
  neg h := congrArg LinearMap.neg h
  mul h _ := by
    subst h
    exact both_eq _
  share h := by
    subst h
    exact asks_shareMap _
  operator id h := by
    subst h
    exact asks_changeForm _
  offset v := asks_changeForm _

/-- Compiling a tree asks for names of its constants. -/
theorem asks_compile {row : String} {e : Expr R} (hK : ∀ k ∈ e.keys, K k) (l : LinearMap R) :
    Asks K Eq (compile row e l) (compile row e l) := (congruence_asks row).compile hK rfl

theorem asks_build {e : Expr R} (hK : ∀ k ∈ e.keys, K k) (row : String) :
    Asks K Eq (build e row) (build e row) := by
  refine Asks.andThen ?_ fun _ => ?_
  · refine asks_modify (fun _ => rfl) (fun _ => rfl) fun s s' hs => ?_
    exact congrArg (fun r : Session R => { r with form := AffineForm.zero }) hs
  refine (asks_liftM _).andThen fun d => (asks_compile hK _).andThen fun _ => ?_
  refine asks_get.bind fun s s' hs => ?_
  dsimp only
  rw [Session.form_eq hs]
  split
  · exact asks_pure rfl
  · exact (asks_liftM _).andThen fun _ => asks_pure rfl

theorem asks_buildConstraint {ci : Expr R × Nat} (hK : ∀ k ∈ ci.1.keys, K k) (total : AffineForm R) :
    Asks K Eq (buildConstraint total ci) (buildConstraint total ci) := by
  obtain ⟨⟨kind, m, n, args⟩, i⟩ := ci
  rw [buildConstraint]
  split
  · exact asks_refuse_bind _
  rw [singleArgument]
  split
  · rename_i e heq
    obtain rfl : args = [e] := heq
    have hbuild := asks_build (fun k hk => hK k (Expr.keys_of_arg (List.mem_singleton_self e) hk))
    rw [pure_bind]
    refine (hbuild _).andThen fun form => (asks_liftM _).andThen fun a => ?_
    exact (asks_liftM _).andThen fun b => asks_pure rfl
  · exact asks_refuse_bind _

theorem asks_buildConstraints {q : Problem R} (hK : ∀ c ∈ q.constraints, ∀ k ∈ c.keys, K k) :
    Asks K Eq (buildConstraints q) (buildConstraints q) :=
  asks_foldlM (fun _ hci total => asks_buildConstraint (hK _ (List.fst_mem_of_mem_zipIdx hci)) total) _

end Affine

/-! ## Terms -/

/-- The input of a term asks for names of its arguments. -/
theorem TermInput.asks_build [Scalar R] {K : String → Prop} {e : Expr R} (hK : ∀ k ∈ e.keys, K k)
    (l : Layout) (rho : R) : Compile.Asks K Eq (TermInput.build e l rho) (TermInput.build e l rho) := by
  obtain ⟨kind, m, n, args⟩ := e
  rw [build]
  split
  · refine (Compile.asks_mapM fun e he => ?_).andThen fun as => Compile.asks_pure rfl
    refine (Affine.asks_build (fun k hk => hK k (Expr.keys_of_arg he hk)) _).andThen fun form => ?_
    exact (Compile.asks_liftM _).andThen fun v => Compile.asks_pure rfl
  · exact Compile.asks_refuse _

end BlockAdmm
