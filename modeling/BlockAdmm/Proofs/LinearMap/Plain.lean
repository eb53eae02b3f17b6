/-
  Maps without functions.

  A map is plain if no part of it is opaque; the operations keep that, so a form that is compiled from
  constants is plain throughout.  Of a map whose opaque parts have values it is known when it can be
  applied: a product with a vector of the right length has a value if everything that is stored on the way
  has room (`Fits`), and otherwise it ends in a breach (`okIff_apply`).  `OkIff` says both at once.
-/
import BlockAdmm.Proofs.LinearMap.Algebra

namespace BlockAdmm

open Scalar

/-! ## When a computation has a value -/

/-- `OkIff x P`: the computation has a value if `P` holds, and otherwise it ends in a breach. -/
structure OkIff {α : Type} (x : Outcome α) (P : Prop) : Prop where
  ok : P → ∃ a, x = .ok a
  breach : ¬ P → x = .error .breach

section OkIff

variable {α β σ : Type} {P Q : Prop} {x : Outcome α}

theorem OkIff.congr (h : OkIff x P) (hPQ : Q ↔ P) : OkIff x Q :=
  ⟨fun hq => h.ok (hPQ.1 hq), fun hq => h.breach fun hp => hq (hPQ.2 hp)⟩

theorem okIff_ok (a : α) : OkIff (.ok a : Outcome α) True :=
  ⟨fun _ => ⟨a, rfl⟩, fun h => absurd trivial h⟩

theorem okIff_limit (c : Bool) : OkIff (limit c) (c = true) := by
  cases c with
  | true => exact ⟨fun _ => ⟨(), rfl⟩, fun h => absurd rfl h⟩
  | false => exact ⟨nofun, fun _ => rfl⟩

theorem okIff_room (n : Nat) : OkIff (room n) (n ≤ capacity) :=
  (okIff_limit _).congr (decide_eq_true_iff).symm

theorem OkIff.bind {f : α → Outcome β} (hx : OkIff x P) (hf : ∀ a, x = .ok a → OkIff (f a) Q) :
    OkIff (x >>= f) (P ∧ Q) := by
  by_cases hP : P
  · obtain ⟨a, ha⟩ := hx.ok hP
    rw [ha]
    exact (hf a ha).congr (and_iff_right hP)
  · rw [hx.breach hP]
    exact ⟨fun h => absurd h.1 hP, fun _ => rfl⟩

/-- Every ending of such a computation, where the condition is known to follow from another. -/
theorem OkIff.ends {c : Prop} {S : α → Prop} (h : OkIff x P) (hc : c → P) (hS : ∀ a, x = .ok a → S a) :
    Ends (Fault.Unless c) S x := by
  by_cases hP : P
  · obtain ⟨a, ha⟩ := h.ok hP
    rw [ha]
    exact ends_ok (hS a ha)
  · rw [h.breach hP]
    exact ⟨rfl, fun hholds => hP (hc hholds)⟩

/-- A promise that is kept can be passed over. -/
theorem OkIff.promise_bind {c : Bool} {f : Unit → Outcome β} (hc : c = true) (hf : OkIff (f ()) Q) :
    OkIff (promise c >>= f) Q := by
  rw [hc]
  exact hf

theorem okIff_mapM {xs : List β} {f : β → Outcome α} (h : ∀ b ∈ xs, OkIff (f b) P) :
    OkIff (xs.mapM f) (xs = [] ∨ P) := by
  induction xs with
  | nil => exact (okIff_ok []).congr (iff_true_intro (Or.inl rfl))
  | cons b xs ih =>
    rw [List.mapM_cons]
    have hrest := ih fun b' hb' => h b' (List.mem_cons_of_mem b hb')
    refine OkIff.congr ((h b List.mem_cons_self).bind fun a _ => hrest.bind fun as _ =>
      okIff_ok (a :: as)) ⟨fun hP => ?_, fun hP => Or.inr hP.1⟩
    have hP : P := hP.resolve_left (List.cons_ne_nil b xs)
    exact ⟨hP, Or.inr hP, trivial⟩

/-- A fold has a value if every step has one, where the steps keep an invariant. -/
theorem okIff_foldlM {f : σ → β → Outcome σ} {ok : β → Prop} (I : σ → Prop) {xs : List β} {s : σ}
    (hs : I s) (step : ∀ s b, b ∈ xs → I s → OkIff (f s b) (ok b))
    (keep : ∀ s b s', b ∈ xs → I s → f s b = .ok s' → I s') :
    OkIff (xs.foldlM f s) (∀ b ∈ xs, ok b) := by
  induction xs generalizing s with
  | nil => exact (okIff_ok s).congr (iff_true_intro fun _ h => absurd h List.not_mem_nil)
  | cons b xs ih =>
    rw [List.foldlM_cons]
    refine OkIff.congr ((step s b List.mem_cons_self hs).bind fun s' hs' => ?_) List.forall_mem_cons
    exact ih (keep s b s' List.mem_cons_self hs hs')
      (fun s b hb => step s b (List.mem_cons_of_mem _ hb))
      fun s b s' hb => keep s b s' (List.mem_cons_of_mem _ hb)

end OkIff

/-! ## Plain maps -/

/-- `f.Returns`: the map has a value on every vector that fits. -/
def OpaqueMap.Returns {R : Type} (f : OpaqueMap R) : Prop :=
  ∀ x, x.size = f.n → ∃ y, f.apply x = .ok y

namespace LinearMap

variable {R : Type}

/-- `l.Plain`: no part of the map is opaque. -/
def Plain : LinearMap R → Prop
  | .kronecker a b => a.Plain ∧ b.Plain
  | .opaqueMap _ => False
  | _ => True

/-- `l.Fits`: what is stored when the map is applied has room.  In a Kronecker product the second
    factor is applied to as many columns as the first has, and the first to as many rows as the second
    has, each of which is put together in a buffer; a factor that is applied to nothing need not fit. -/
def Fits : LinearMap R → Prop
  | .dense a _ => a.m ≤ capacity
  | .sparse a _ => a.m ≤ capacity
  | .kronecker a b =>
    b.m * a.n ≤ capacity ∧ (a.n = 0 ∨ b.Fits) ∧ b.m * a.m ≤ capacity ∧ a.n ≤ capacity ∧ (b.m = 0 ∨ a.Fits)
  | _ => True

/-- `l.opaqueParts`: the opaque maps that stand in a map. -/
def opaqueParts : LinearMap R → List (OpaqueMap R)
  | .kronecker a b => a.opaqueParts ++ b.opaqueParts
  | .opaqueMap f => [f]
  | _ => []

variable {a b l s : LinearMap R}

theorem Plain.opaqueParts_eq_nil (h : l.Plain) : l.opaqueParts = [] := by
  induction l with
  | kronecker a b iha ihb => exact List.append_eq_nil_iff.2 ⟨iha h.1, ihb h.2⟩
  | opaqueMap f => exact absurd h id
  | dense | sparse | diagonal | scalar => rfl

theorem Plain.kron [Mul R] (ha : a.Plain) (hb : b.Plain) : (a.kron b).Plain := by
  unfold LinearMap.kron
  split
  · trivial
  · exact ⟨ha, hb⟩

theorem Plain.share (h : l.Plain) (next : Nat) : (l.share next).1.Plain := by
  induction l generalizing next with
  | kronecker a b iha ihb => exact ⟨iha h.1 next, ihb h.2 _⟩
  | opaqueMap f => exact absurd h id
  | dense | sparse | diagonal | scalar => trivial

variable [Scalar R]

theorem Plain.transpose (h : l.Plain) (ht : l.transpose = .ok s) : s.Plain := by
  induction l generalizing s with
  | dense a _ => cases ht; trivial
  | sparse a _ =>
    obtain ⟨_, -, ht⟩ := bind_eq_ok.1 ht
    cases pure_eq_ok.1 ht
    trivial
  | diagonal d _ => cases ht; trivial
  | scalar n alpha _ => cases ht; trivial
  | kronecker a b iha ihb =>
    obtain ⟨ta, hta, ht⟩ := bind_eq_ok.1 ht
    obtain ⟨tb, htb, ht⟩ := bind_eq_ok.1 ht
    cases pure_eq_ok.1 ht
    exact (iha h.1 hta).kron (ihb h.2 htb)
  | opaqueMap f => exact absurd h id

theorem Plain.scaleBy (h : l.Plain) (alpha : R) : (l.scaleBy alpha).Plain := by
  induction l with
  | dense | sparse | diagonal | scalar => rw [LinearMap.scaleBy]; split <;> trivial
  | kronecker a b iha _ =>
    rw [LinearMap.scaleBy]
    split
    · exact h
    · exact (iha h.1).kron h.2
  | opaqueMap f => exact absurd h id

theorem plain_denseSum (h : denseSum a b = .ok s) : s.Plain := by
  obtain ⟨_, -, h⟩ := bind_eq_ok.1 h
  obtain ⟨_, -, h⟩ := bind_eq_ok.1 h
  obtain ⟨_, -, h⟩ := bind_eq_ok.1 h
  cases pure_eq_ok.1 h
  trivial

theorem plain_sparseSum (h : sparseSum a b = .ok s) : s.Plain := by
  obtain ⟨_, -, h⟩ := bind_eq_ok.1 h
  obtain ⟨_, -, h⟩ := bind_eq_ok.1 h
  obtain ⟨_, -, h⟩ := bind_eq_ok.1 h
  cases pure_eq_ok.1 h
  trivial

theorem plain_denseProduct (h : denseProduct a b = .ok s) : s.Plain := by
  obtain ⟨_, -, h⟩ := bind_eq_ok.1 h
  obtain ⟨_, -, h⟩ := bind_eq_ok.1 h
  obtain ⟨_, -, h⟩ := bind_eq_ok.1 h
  cases pure_eq_ok.1 h
  trivial

theorem plain_sparseProduct (h : sparseProduct a b = .ok s) : s.Plain := by
  obtain ⟨_, -, h⟩ := bind_eq_ok.1 h
  obtain ⟨_, -, h⟩ := bind_eq_ok.1 h
  obtain ⟨_, -, h⟩ := bind_eq_ok.1 h
  cases pure_eq_ok.1 h
  trivial

/-- One level of a sum, given the sums of the factors of Kronecker products. -/
theorem plain_add_of_factors
    (hf : ∀ a₁ a₂ b₁ b₂, a = .kronecker a₁ a₂ → b = .kronecker b₁ b₂ →
      (∀ s, a₁.Plain → b₁.Plain → a₁.add b₁ = .ok s → s.Plain) ∧
      ∀ s, a₂.Plain → b₂.Plain → a₂.add b₂ = .ok s → s.Plain)
    (ha : a.Plain) (hb : b.Plain) (hs : a.add b = .ok s) : s.Plain := by
  rw [LinearMap.add.eq_def, bind_eq_ok] at hs
  obtain ⟨_, -, hs⟩ := hs
  split at hs
  · cases pure_eq_ok.1 hs
    exact ha
  · split at hs
    · cases pure_eq_ok.1 hs; trivial
    · exact absurd ha id
    · exact absurd hb id
    · cases pure_eq_ok.1 hs; trivial
    · cases pure_eq_ok.1 hs; trivial
    · cases pure_eq_ok.1 hs; trivial
    · rename_i a₁ a₂ b₁ b₂ _
      obtain ⟨h₁, h₂⟩ := hf a₁ a₂ b₁ b₂ rfl rfl
      split at hs
      · obtain ⟨s₂, hs₂, hs⟩ := bind_eq_ok.1 hs
        cases pure_eq_ok.1 hs
        exact ha.1.kron (h₂ s₂ ha.2 hb.2 hs₂)
      · split at hs
        · obtain ⟨s₁, hs₁, hs⟩ := bind_eq_ok.1 hs
          cases pure_eq_ok.1 hs
          exact Plain.kron (h₁ s₁ ha.1 hb.1 hs₁) ha.2
        · exact plain_sparseSum hs
    · exact plain_denseSum hs
    · exact plain_denseSum hs
    · exact plain_sparseSum hs

theorem Plain.add (ha : a.Plain) (hb : b.Plain) (hs : a.add b = .ok s) : s.Plain := by
  induction a generalizing b s with
  | kronecker a₁ a₂ ih₁ ih₂ =>
    refine plain_add_of_factors (fun a₁' a₂' b₁ b₂ h _ => ?_) ha hb hs
    cases h
    exact ⟨fun s ha hb hs => ih₁ ha hb hs, fun s ha hb hs => ih₂ ha hb hs⟩
  | dense | sparse | diagonal | scalar | opaqueMap =>
    exact plain_add_of_factors (fun _ _ _ _ h => by cases h) ha hb hs

/-- One level of a product, given the products of the factors of Kronecker products. -/
theorem plain_mul_of_factors
    (hf : ∀ a₁ a₂ b₁ b₂, a = .kronecker a₁ a₂ → b = .kronecker b₁ b₂ →
      (∀ s, a₁.Plain → b₁.Plain → a₁.mul b₁ = .ok s → s.Plain) ∧
      ∀ s, a₂.Plain → b₂.Plain → a₂.mul b₂ = .ok s → s.Plain)
    (ha : a.Plain) (hb : b.Plain) (hs : a.mul b = .ok s) : s.Plain := by
  rw [LinearMap.mul.eq_def, bind_eq_ok] at hs
  obtain ⟨_, -, hs⟩ := hs
  split at hs
  · cases pure_eq_ok.1 hs; exact hb.scaleBy _
  · cases pure_eq_ok.1 hs; exact ha.scaleBy _
  · exact absurd ha id
  · exact absurd hb id
  · cases pure_eq_ok.1 hs; trivial
  · rename_i a₁ a₂ b₁ b₂
    obtain ⟨h₁, h₂⟩ := hf a₁ a₂ b₁ b₂ rfl rfl
    split at hs
    · obtain ⟨s₁, hs₁, hs⟩ := bind_eq_ok.1 hs
      obtain ⟨s₂, hs₂, hs⟩ := bind_eq_ok.1 hs
      cases pure_eq_ok.1 hs
      exact Plain.kron (h₁ s₁ ha.1 hb.1 hs₁) (h₂ s₂ ha.2 hb.2 hs₂)
    · exact plain_sparseProduct hs
  · exact plain_denseProduct hs
  · exact plain_denseProduct hs
  · exact plain_sparseProduct hs

theorem Plain.mul (ha : a.Plain) (hb : b.Plain) (hs : a.mul b = .ok s) : s.Plain := by
  induction a generalizing b s with
  | kronecker a₁ a₂ ih₁ ih₂ =>
    refine plain_mul_of_factors (fun a₁' a₂' b₁ b₂ h _ => ?_) ha hb hs
    cases h
    exact ⟨fun s ha hb hs => ih₁ ha hb hs, fun s ha hb hs => ih₂ ha hb hs⟩
  | dense | sparse | diagonal | scalar | opaqueMap =>
    exact plain_mul_of_factors (fun _ _ _ _ h => by cases h) ha hb hs

/-! ## Applying -/

/-- A Kronecker product can be applied if there is room for what stands between its two steps, at their
    end and in the buffer, and each step can be taken that is to be taken. -/
theorem okIff_kronApply {p q r s : Nat} {fa fb : Array R → Outcome (Array R)} {A B : Prop}
    (ha : ∀ x, x.size = q → OkIff (fa x) A) (hb : ∀ x, x.size = s → OkIff (fb x) B) (x : Array R) :
    OkIff (kronApply p q r s fa fb x)
      (r * q ≤ capacity ∧ (q = 0 ∨ B) ∧ r * p ≤ capacity ∧ q ≤ capacity ∧ (r = 0 ∨ A)) := by
  have hcols : OkIff ((List.range q).mapM fun j => fb (Vec.build s fun i => Vec.entry x (j * s + i)))
      (List.range q = [] ∨ B) := okIff_mapM fun j _ => hb _ (Vec.size_build ..)
  refine OkIff.bind (okIff_room _) fun _ _ => OkIff.bind (hcols.congr (by rw [List.range_eq_nil]))
    fun columns _ => OkIff.bind (okIff_room _) fun _ _ => OkIff.bind (okIff_room _) fun _ _ => ?_
  have hrows : OkIff ((List.range r).mapM fun i =>
      fa (Vec.build q fun j => Vec.entry (columns.toArray.getD j #[]) i)) (List.range r = [] ∨ A) :=
    okIff_mapM fun i _ => ha _ (Vec.size_build ..)
  have hrows := hrows.bind fun rows _ =>
    okIff_ok (Vec.build (r * p) fun k => Vec.entry (rows.toArray.getD (k % r) #[]) (k / r))
  exact hrows.congr (by rw [List.range_eq_nil, and_true])

end LinearMap

namespace LinearMap

variable {R : Type} [ExactScalar R] {l : LinearMap R} {x : Array R}

/-- A map whose opaque parts have values can be applied to a vector that fits its columns just if there
    is room. -/
theorem okIff_apply (h : ∀ f ∈ l.opaqueParts, f.Returns) (hx : x.size = l.n) :
    OkIff (l.apply x) l.Fits := by
  induction l generalizing x with
  | dense a _ =>
    refine OkIff.promise_bind (beq_iff_eq.2 hx) ⟨fun hm => ?_, fun hm => ?_⟩
    · exact ⟨_, (Dense.mulVec_eq_ok hx).2 ⟨hm, rfl⟩⟩
    · rw [Dense.mulVec, (okIff_room a.m).breach hm]
      rfl
  | sparse a _ =>
    refine OkIff.promise_bind (beq_iff_eq.2 hx) ?_
    exact ((okIff_room a.m).bind fun _ _ => okIff_ok _).congr (and_iff_left trivial).symm
  | diagonal d _ => exact OkIff.promise_bind (beq_iff_eq.2 hx) (okIff_ok _)
  | scalar n alpha _ => exact OkIff.promise_bind (beq_iff_eq.2 hx) (okIff_ok _)
  | kronecker a b iha ihb =>
    refine OkIff.promise_bind (beq_iff_eq.2 hx) ?_
    exact okIff_kronApply (fun _ hx => iha (fun f hf => h f (List.mem_append_left _ hf)) hx)
      (fun _ hx => ihb (fun f hf => h f (List.mem_append_right _ hf)) hx) x
  | opaqueMap f =>
    exact ⟨fun _ => h f List.mem_cons_self x hx, fun hfits => absurd trivial hfits⟩

/-- A plain map can be applied to a vector that fits its columns just if there is room. -/
theorem Plain.apply (h : l.Plain) (hx : x.size = l.n) : OkIff (l.apply x) l.Fits := by
  refine okIff_apply (fun f hf => ?_) hx
  rw [h.opaqueParts_eq_nil] at hf
  exact absurd hf List.not_mem_nil

end LinearMap

end BlockAdmm
