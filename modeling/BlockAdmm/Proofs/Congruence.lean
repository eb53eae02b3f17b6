/-
  Two compilations side by side.

  What holds of two runs of a compilation is put together from what holds of its steps.  A relation of
  compilations that goes through sequences and holds of the primitive steps is a congruence
  (`Compile.Congruence`), and any congruence holds of reading constants and described maps.  If it also lets
  operators differ by a relation that the operations keep (`Affine.Congruence`), it holds of the compilation of
  every tree (`Affine.Congruence.compile`), by induction on the tree.

  Data are read by name, and a congruence may hold of some names only; the names of a tree are those in its
  constants (`Expr.keys`).
-/
import BlockAdmm.Proofs.Compile
import BlockAdmm.Prox.Argument

namespace BlockAdmm

variable {R : Type} {α α' β β' : Type}

/-! ## The names of data -/

/-- `c.keys`: the name of the data of a constant, if it has data. -/
def Constant.keys (c : Constant R) : List String :=
  match c.value with
  | .scalar _ => []
  | .data key => [key]

/-- `d.keys`: the names in the constants of a described map. -/
def MapDesc.keys : MapDesc R → List String
  | .dense c => c.keys
  | .sparse c => c.keys
  | .diagonal c => c.keys
  | .scalar _ _ => []
  | .kronecker a b => a.keys ++ b.keys
  | .transpose a => a.keys

/-- `k.keys`: the names that a node of a kind carries. -/
def ExprKind.keys : ExprKind R → List String
  | .constant c => c.keys
  | .linearMap d => d.keys
  | _ => []

/-- `e.keys`: the names that the nodes of a tree carry. -/
def Expr.keys (e : Expr R) : List String := e.nodes.flatMap fun f => f.kind.keys

/-- `q.keys`: the names in the objective and in the constraints. -/
def Problem.keys (q : Problem R) : List String := q.objective.keys ++ q.constraints.flatMap Expr.keys

theorem Constant.mem_keys {c : Constant R} {key : String} (h : c.value = .data key) : key ∈ c.keys := by
  rw [keys, h]
  exact List.mem_singleton_self key

theorem Expr.mem_keys {e f : Expr R} {key : String} (hf : f ∈ e.nodes) (hk : key ∈ f.kind.keys) :
    key ∈ e.keys := List.mem_flatMap.2 ⟨f, hf, hk⟩

theorem Expr.keys_of_arg {kind : ExprKind R} {m n : Nat} {args : List (Expr R)} {e : Expr R}
    (he : e ∈ args) {key : String} (hk : key ∈ e.keys) : key ∈ (Expr.node kind m n args).keys := by
  obtain ⟨f, hf, hk⟩ := List.mem_flatMap.1 hk
  exact mem_keys (mem_nodes_of_arg he hf) hk

/-! ## Two outcomes -/

/-- `Both P o o'`: the same fault, or values that are related. -/
def Both (P : α → β → Prop) : Outcome α → Outcome β → Prop
  | .ok a, .ok b => P a b
  | .error f, .error f' => f = f'
  | _, _ => False

theorem both_eq (o : Outcome α) : Both Eq o o := by
  cases o <;> exact rfl

theorem Both.eq {o o' : Outcome α} (h : Both Eq o o') : o = o' := by
  cases o <;> cases o' <;> first | exact h.elim | exact congrArg _ h

/-- One and the same outcome, with what is known of its value. -/
theorem both_self {P : α → α → Prop} (o : Outcome α) (h : ∀ a, o = .ok a → P a a) : Both P o o := by
  cases o with
  | ok a => exact h a rfl
  | error f => exact rfl

/-- `Matched P o o'`: either no value on both sides, or values that are related. -/
inductive Matched (P : α → β → Prop) : Outcome α → Outcome β → Prop
  | ok {a : α} {b : β} (h : P a b) : Matched P (.ok a) (.ok b)
  | error {f f' : Fault} : Matched P (.error f) (.error f')

namespace Matched

variable {P : α → β → Prop} {o : Outcome α} {o' : Outcome β}

theorem of_eq_ok {a : α} {b : β} (h : Matched P o o') (ho : o = .ok a) (ho' : o' = .ok b) : P a b := by
  subst ho ho'
  cases h with
  | ok h => exact h

/-- Where one side has a value, so has the other. -/
theorem exists_ok {a : α} (h : Matched P o o') (ho : o = .ok a) : ∃ b, o' = .ok b ∧ P a b := by
  subst ho
  cases h with
  | ok h => exact ⟨_, rfl, h⟩

/-- Where one side has no value, the other has none. -/
theorem exists_error {f : Fault} (h : Matched P o o') (ho : o = .error f) : ∃ f', o' = .error f' := by
  subst ho
  cases h with
  | error => exact ⟨_, rfl⟩

theorem of_iff (hiff : (∃ a, o = .ok a) ↔ ∃ b, o' = .ok b) (h : ∀ a b, o = .ok a → o' = .ok b → P a b) :
    Matched P o o' := by
  cases o with
  | ok a =>
    obtain ⟨b, hb⟩ := hiff.1 ⟨a, rfl⟩
    subst hb
    exact .ok (h a b rfl rfl)
  | error f =>
    cases o' with
    | ok b =>
      obtain ⟨a, ha⟩ := hiff.2 ⟨b, rfl⟩
      cases ha
    | error f' => exact .error

theorem imp {Q : α → β → Prop} (h : Matched P o o') (hPQ : ∀ a b, P a b → Q a b) : Matched Q o o' := by
  cases h with
  | ok h => exact .ok (hPQ _ _ h)
  | error => exact .error

/-- One pair of computations after another. -/
theorem bind {Q : α' → β' → Prop} {f : α → Outcome α'} {f' : β → Outcome β'} (h : Matched P o o')
    (hf : ∀ a b, P a b → Matched Q (f a) (f' b)) : Matched Q (o >>= f) (o' >>= f') := by
  cases h with
  | ok h => exact hf _ _ h
  | error => exact .error

theorem refl {P : α → α → Prop} (o : Outcome α) (h : ∀ a, P a a) : Matched P o o := by
  cases o with
  | ok a => exact .ok (h a)
  | error f => exact .error

/-- One computation after two that have the same value. -/
theorem thenSame {Q : α' → α' → Prop} {o o' : Outcome α} (h : Matched Eq o o') (f : α → Outcome α')
    (hQ : ∀ a, Q a a) : Matched Q (o >>= f) (o' >>= f) :=
  h.bind fun a _ hab => hab ▸ Matched.refl (f a) hQ

/-- Two computations after the same one. -/
theorem andThen {Q : α' → β' → Prop} (o : Outcome α) {f : α → Outcome α'} {f' : α → Outcome β'}
    (hf : ∀ a, Matched Q (f a) (f' a)) : Matched Q (o >>= f) (o >>= f') :=
  (Matched.refl o fun _ => rfl).bind fun a _ hab => hab ▸ hf a

/-- Two walks over lists that are related entry by entry. -/
theorem foldlM {σ σ' : Type} {S : σ → σ' → Prop} {f : σ → α → Outcome σ} {f' : σ' → β → Outcome σ'} {xs : List α}
    {ys : List β} (hxs : List.Forall₂ P xs ys) {s : σ} {s' : σ'} (hs : S s s')
    (step : ∀ x y, P x y → ∀ s s', S s s' → Matched S (f s x) (f' s' y)) :
    Matched S (xs.foldlM f s) (ys.foldlM f' s') := by
  induction hxs generalizing s s' with
  | nil => exact .ok hs
  | cons hxy _ ih =>
    rw [List.foldlM_cons, List.foldlM_cons]
    exact (step _ _ hxy s s' hs).bind fun t t' ht => ih ht

end Matched

theorem LinearMap.Plain.tensor [Scalar R] {a b l : LinearMap R} (ha : a.Plain) (hb : b.Plain)
    (h : a.tensor b = .ok l) : l.Plain := by
  rw [LinearMap.tensor] at h
  split at h
  · obtain ⟨_, -, h⟩ := bind_eq_ok.1 h
    cases pure_eq_ok.1 h
    exact trivial
  · cases h
    exact ha.kron hb

/-! ## Congruences -/

namespace Compile

/-- `Congruence K C`: the relation `C` of compilations goes through sequences and holds of the steps that all
    compilations are made of, where the names of `K` may be asked for. -/
structure Congruence (K : String → Prop)
    (C : (α β : Type) → (α → β → Prop) → Compile R α → Compile R β → Prop) : Prop where
  pure : ∀ {α β : Type} {P : α → β → Prop} {a : α} {b : β}, P a b → C _ _ P (pure a) (pure b)
  bind : ∀ {α β α' β' : Type} {P : α → β → Prop} {Q : α' → β' → Prop} {x : Compile R α} {x' : Compile R β}
    {f : α → Compile R α'} {f' : β → Compile R β'}, C _ _ P x x' → (∀ a b, P a b → C _ _ Q (f a) (f' b)) →
    C _ _ Q (x >>= f) (x' >>= f')
  lift : ∀ {α β : Type} {P : α → β → Prop} {o : Outcome α} {o' : Outcome β}, Both P o o' →
    C _ _ P (liftM o) (liftM o')
  refuse : ∀ {α β : Type} {P : α → β → Prop} (e : SolverError), C _ _ P (refuse e : Compile R α) (refuse e)
  note : ∀ e e' : Event, C _ _ Eq (note e) (note e')
  data : ∀ {key : String}, K key → C _ _ Eq (data key) (data key)

namespace Congruence

variable {K : String → Prop} {C : (α β : Type) → (α → β → Prop) → Compile R α → Compile R β → Prop}
  (hC : Congruence K C) {P : α → β → Prop}
include hC

/-- A sequence whose first steps have the same value. -/
theorem andThen {x x' : Compile R α} {f : α → Compile R α'} {f' : α → Compile R β'} {Q : α' → β' → Prop}
    (hx : C _ _ Eq x x') (hf : ∀ a, C _ _ Q (f a) (f' a)) : C _ _ Q (x >>= f) (x' >>= f') :=
  hC.bind hx fun a _ hab => hab ▸ hf a

/-- A computation without a session. -/
theorem outcome (o : Outcome α) : C _ _ Eq (liftM o) (liftM o) := hC.lift (both_eq o)

theorem refuseThen {x : α' → Compile R α} {x' : α' → Compile R β} (e : SolverError) :
    C _ _ P (Compile.refuse e >>= x) (Compile.refuse e >>= x') :=
  hC.bind (P := fun _ _ => False) (hC.refuse e) fun _ _ h => h.elim

/-- A step for each entry of a list, with a relation of lists that goes along. -/
theorem mapM {f f' : α → Compile R β} {P : β → β → Prop} {Q : List β → List β → Prop} {xs : List α}
    (hnil : Q [] []) (hcons : ∀ {y y' ys ys'}, P y y' → Q ys ys' → Q (y :: ys) (y' :: ys'))
    (h : ∀ x ∈ xs, C _ _ P (f x) (f' x)) : C _ _ Q (xs.mapM f) (xs.mapM f') := by
  induction xs with
  | nil => exact hC.pure hnil
  | cons x xs ih =>
    rw [List.mapM_cons, List.mapM_cons]
    refine hC.bind (h x List.mem_cons_self) fun y y' hy => ?_
    refine hC.bind (ih fun z hz => h z (List.mem_cons_of_mem x hz)) fun ys ys' hys => ?_
    exact hC.pure (hcons hy hys)

theorem sizedData {key : String} (hK : K key) (size : Size) :
    C _ _ Eq (sizedData key size) (sizedData key size) := by
  refine hC.andThen (hC.data hK) fun d => ?_
  split
  · exact hC.refuseThen _
  · exact hC.pure rfl

section Constants

variable [Scalar R] {c : Constant R}

theorem dense (hK : ∀ k ∈ c.keys, K k) : C _ _ Eq (dense c) (dense c) := by
  rw [Compile.dense]
  cases hv : c.value with
  | scalar v => exact hC.outcome _
  | data key =>
    exact hC.andThen (hC.sizedData (hK key (Constant.mem_keys hv)) c.size) fun d => hC.outcome _

theorem sparse (hK : ∀ k ∈ c.keys, K k) : C _ _ Eq (sparse c) (sparse c) := by
  rw [Compile.sparse]
  cases hv : c.value with
  | scalar v => exact hC.andThen (hC.outcome _) fun a => hC.outcome _
  | data key =>
    exact hC.andThen (hC.sizedData (hK key (Constant.mem_keys hv)) c.size) fun d => hC.outcome _

theorem firstEntry (hK : ∀ k ∈ c.keys, K k) : C _ _ Eq (firstEntry c) (firstEntry c) := by
  rw [Compile.firstEntry]
  split
  · exact hC.pure rfl
  · exact hC.andThen (hC.dense hK) fun a => hC.andThen (hC.outcome _) fun _ => hC.pure rfl

omit [Scalar R] in
/-- A constant is one map, and a plain one. -/
theorem constantMap (hK : ∀ k ∈ c.keys, K k) :
    C _ _ (fun l l' => l = l' ∧ l.Plain) (constantMap c) (constantMap c) := by
  rw [Compile.constantMap]
  cases hv : c.value with
  | scalar v => exact hC.andThen (hC.outcome _) fun a => hC.pure ⟨rfl, trivial⟩
  | data key =>
    refine hC.andThen (hC.sizedData (hK key (Constant.mem_keys hv)) c.size) fun d => ?_
    cases d with
    | dense a => exact hC.pure ⟨rfl, trivial⟩
    | sparse a => exact hC.pure ⟨rfl, trivial⟩

theorem describedMap {d : MapDesc R} (hK : ∀ k ∈ d.keys, K k) :
    C _ _ (fun l l' => l = l' ∧ l.Plain) (describedMap d) (describedMap d) := by
  induction d with
  | dense c => exact hC.andThen (hC.dense hK) fun a => hC.pure ⟨rfl, trivial⟩
  | sparse c => exact hC.andThen (hC.sparse hK) fun a => hC.pure ⟨rfl, trivial⟩
  | diagonal c => exact hC.andThen (hC.dense hK) fun a => hC.pure ⟨rfl, trivial⟩
  | scalar n alpha => exact hC.pure ⟨rfl, trivial⟩
  | kronecker a b iha ihb =>
    refine hC.bind (iha fun k hk => hK k (List.mem_append_left _ hk)) fun la la' ha => ?_
    refine hC.bind (ihb fun k hk => hK k (List.mem_append_right _ hk)) fun lb lb' hb => ?_
    obtain ⟨rfl, ha⟩ := ha
    obtain ⟨rfl, hb⟩ := hb
    exact hC.lift (both_self _ fun l hl => ⟨rfl, ha.tensor hb hl⟩)
  | transpose a iha =>
    refine hC.bind (iha hK) fun la la' ha => ?_
    obtain ⟨rfl, ha⟩ := ha
    exact hC.lift (both_self _ fun l hl => ⟨rfl, ha.transpose hl⟩)

end Constants

end Congruence

end Compile

/-! ## Factors -/

namespace Compile.Congruence

variable [Scalar R] {K : String → Prop} {C : (α β : Type) → (α → β → Prop) → Compile R α → Compile R β → Prop}
  (hC : Congruence K C) {c : Constant R}
include hC

theorem leftFactor (hK : ∀ k ∈ c.keys, K k) (size : Size) (e : Expr R) :
    C _ _ (fun l l' => l = l' ∧ l.Plain) (Affine.leftFactor c size e) (Affine.leftFactor c size e) := by
  refine hC.andThen (hC.outcome _) fun d => ?_
  split
  · refine hC.andThen (hC.outcome _) fun n => hC.andThen (hC.firstEntry hK) fun alpha => ?_
    exact hC.pure ⟨rfl, trivial⟩
  · dsimp only
    split
    · exact hC.refuseThen _
    · refine hC.bind (hC.constantMap hK) fun l l' hl => ?_
      obtain ⟨rfl, hl⟩ := hl
      have hid : (LinearMap.identity e.n : LinearMap R).Plain := trivial
      exact hC.lift (both_self _ fun t ht => ⟨rfl, hid.tensor hl ht⟩)

theorem rightFactor (hK : ∀ k ∈ c.keys, K k) (size : Size) (e : Expr R) :
    C _ _ (fun l l' => l = l' ∧ l.Plain) (Affine.rightFactor c size e) (Affine.rightFactor c size e) := by
  refine hC.andThen (hC.outcome _) fun d => ?_
  split
  · refine hC.andThen (hC.outcome _) fun n => hC.andThen (hC.firstEntry hK) fun alpha => ?_
    exact hC.pure ⟨rfl, trivial⟩
  · dsimp only
    split
    · exact hC.refuseThen _
    · refine hC.bind (hC.constantMap hK) fun l l' hl => ?_
      obtain ⟨rfl, hl⟩ := hl
      have htranspose : Both (fun t t' : LinearMap R => t = t' ∧ t.Plain) l.transpose l.transpose :=
        both_self _ fun t ht => ⟨rfl, hl.transpose ht⟩
      refine hC.bind (hC.lift htranspose) fun t t' ht => ?_
      obtain ⟨rfl, ht⟩ := ht
      have hid : (LinearMap.identity e.m : LinearMap R).Plain := trivial
      exact hC.lift (both_self _ fun s hs => ⟨rfl, ht.tensor hid hs⟩)

omit [Scalar R] in
theorem checkProduct (size : Size) (op : LinearMap R) :
    C _ _ Eq (Affine.checkProduct size op) (Affine.checkProduct size op) := by
  refine hC.andThen (hC.outcome _) fun _ => ?_
  split
  · exact hC.refuse _
  · exact hC.pure rfl

end Compile.Congruence

/-! ## Trees -/

namespace Affine

open Compile

variable [Scalar R]

/-- `Congruence K M row row' C`: the operators of the two compilations are related by `M`, which the operations
    on them keep, and what they add to a row in one and to a row in the other is related. -/
structure Congruence (K : String → Prop) (M : LinearMap R → LinearMap R → Prop) (row row' : String)
    (C : (α β : Type) → (α → β → Prop) → Compile R α → Compile R β → Prop) : Prop
    extends Compile.Congruence K C where
  cols : ∀ {l l'}, M l l' → l.n = l'.n
  apply : ∀ {l l'}, M l l' → l.apply = l'.apply
  neg : ∀ {l l'}, M l l' → M l.neg l'.neg
  mul : ∀ {l l' op}, M l l' → op.Plain → Both M (l.mul op) (l'.mul op)
  share : ∀ {l l'}, M l l' → C _ _ M (shareMap l) (shareMap l')
  operator : ∀ {l l'} (id : String), M l l' → C _ _ Eq (addOperator row id l) (addOperator row' id l')
  offset : ∀ v : Array R, C _ _ Eq (addOffset row v) (addOffset row' v)

namespace Congruence

variable {K : String → Prop} {M : LinearMap R → LinearMap R → Prop} {row row' : String}
  {C : (α β : Type) → (α → β → Prop) → Compile R α → Compile R β → Prop} (hC : Congruence K M row row' C)
  {l l' : LinearMap R}
include hC

/-- A factor of a product, once the other has become an operator. -/
theorem factor {x : Compile R (LinearMap R)} {e : Expr R} {size : Size}
    (hx : C _ _ (fun l l' => l = l' ∧ l.Plain) x x)
    (he : ∀ l l', M l l' → C _ _ Eq (Affine.compile row e l) (Affine.compile row' e l')) (h : M l l') :
    C _ _ Eq (do
      let op ← x
      checkProduct size op
      Affine.compile row e (← l.mul op)) (do
      let op ← x
      checkProduct size op
      Affine.compile row' e (← l'.mul op)) := by
  refine hC.bind hx fun op op' hop => ?_
  obtain ⟨rfl, hop⟩ := hop
  refine hC.andThen (hC.checkProduct size op) fun _ => ?_
  exact hC.bind (hC.lift (hC.mul h hop)) fun lop lop' hlop => he lop lop' hlop

theorem compileSum {es : List (Expr R)} {size : Size}
    (ih : ∀ e ∈ es, ∀ l l', M l l' → C _ _ Eq (Affine.compile row e l) (Affine.compile row' e l'))
    (h : M l l') : C _ _ Eq (Affine.compileSum row size es l) (Affine.compileSum row' size es l') := by
  induction es with
  | nil =>
    rw [Affine.compileSum, Affine.compileSum]
    exact hC.pure rfl
  | cons e es ihs =>
    have he := ih e List.mem_cons_self
    have hrest := ihs fun e he => ih e (List.mem_cons_of_mem _ he)
    rw [Affine.compileSum, Affine.compileSum]
    refine hC.andThen (hC.outcome _) fun d => ?_
    dsimp only
    split
    · exact hC.andThen (he l l' h) fun _ => hrest
    · split
      · -- an addend of one element is repeated, by a matrix
        have hones : Both (fun op op' : LinearMap R => op = op' ∧ op.Plain) (ones (size.1 * size.2))
            (ones (size.1 * size.2)) := by
          refine both_self _ fun op hop => ⟨rfl, ?_⟩
          obtain ⟨_, -, hop⟩ := bind_eq_ok.1 hop
          cases pure_eq_ok.1 hop
          exact trivial
        refine hC.bind (hC.lift hones) fun op op' hop => ?_
        obtain ⟨rfl, hop⟩ := hop
        refine hC.bind (hC.lift (hC.mul h hop)) fun lop lop' hlop => ?_
        exact hC.andThen (he lop lop' hlop) fun _ => hrest
      · exact hC.refuseThen _

/-- The compilation of a tree, under operators that are related. -/
theorem compile {e : Expr R} (hK : ∀ k ∈ e.keys, K k) (h : M l l') :
    C _ _ Eq (Affine.compile row e l) (Affine.compile row' e l') := by
  induction e using Expr.induct generalizing l l' with
  | node kind m n args ih =>
    have hself {k : String} (hk : k ∈ kind.keys) : K k :=
      hK k (Expr.mem_keys (Expr.mem_nodes_self (.node kind m n args)) hk)
    have harg {e : Expr R} (he : e ∈ args) (l l' : LinearMap R) (h : M l l') :
        C _ _ Eq (Affine.compile row e l) (Affine.compile row' e l') :=
      ih e he (fun k hk => hK k (Expr.keys_of_arg he hk)) h
    -- a constant factor is a node of its own below the product
    have hfactor {e : Expr R} (he : e ∈ args) {c : Constant R} (hc : e.kind = .constant c) :
        ∀ k ∈ c.keys, K k := fun k hk =>
      hK k (Expr.keys_of_arg he (Expr.mem_keys (Expr.mem_nodes_self e) (hc.symm ▸ hk)))
    rw [compile.eq_def, compile.eq_def row']
    dsimp only
    rw [hC.cols h, hC.apply h]
    refine hC.andThen (hC.outcome _) fun d => ?_
    split
    · exact hC.refuseThen _
    refine hC.andThen (hC.note _ _) fun _ => ?_
    split
    · exact hC.refuse _
    · exact hC.bind (hC.share h) fun k k' hk => hC.compileSum (fun e he => harg he) hk
    · exact hC.operator _ h
    · -- a constant
      refine hC.andThen (hC.dense fun k hk => hself hk) fun a => ?_
      split
      · exact hC.refuseThen _
      · exact hC.andThen (hC.outcome _) fun v => hC.offset v
    · -- a described map
      refine hC.bind (hC.describedMap fun k hk => hself hk) fun op op' hop => ?_
      obtain ⟨rfl, hop⟩ := hop
      refine hC.andThen (hC.outcome _) fun _ => hC.andThen (hC.outcome _) fun N => ?_
      split
      · exact hC.refuseThen _
      · exact hC.bind (hC.lift (hC.mul h hop)) fun lop lop' hlop =>
          harg (List.mem_singleton_self _) lop lop' hlop
    · exact harg (List.mem_singleton_self _) l l' h
    · exact harg (List.mem_singleton_self _) l.neg l'.neg (hC.neg h)
    · -- a product
      rename_i a b
      have hb : b ∈ [a, b] := List.mem_cons_of_mem a List.mem_cons_self
      split
      · rename_i c ha
        exact hC.factor (hC.leftFactor (hfactor List.mem_cons_self ha) a.size b) (harg hb) h
      · rename_i c hc _
        exact hC.factor (hC.rightFactor (hfactor hb hc) b.size a) (harg List.mem_cons_self) h
      · exact hC.refuse _
    all_goals exact hC.refuse _

end Congruence

end Affine

end BlockAdmm
