/-
  What a linear map stands for, and every way in which its use can end.

  `Denotes` says what a map computes wherever it has a value.  Here the faults are counted in: on vectors
  that fit, a function gives the product with its coefficients or ends in a fault that is allowed
  (`Multiplies`).  What is allowed, which coefficients a mark names, and whether the functions that are known
  for transposes are right, is laid down once for all opaque parts of a map (`Lore`), and `l.Stands g m n k`
  says that the map has the size and the coefficients that it should have, as far as `g` knows.

  Lore is put together from what is known at the start and from the marks given since (`Marks.above`), and
  new marks only add to it (`Marks.Extends.within`).  With every fault allowed and the marks in use
  (`Marks.lore`), to stand for coefficients is to denote them (`means_iff_stands`), so what is shown below of
  `Stands` holds of `Means` too.  With nothing but a breach allowed, a map that stands for coefficients can
  be used without a second thought, and what each use of it yields is known.  With no fault allowed at all,
  its functions have values, and so has every use of it for which there is room (`Allows`).
-/
import BlockAdmm.Proofs.LinearMap.Basic
import BlockAdmm.Proofs.Safety.Outcome

namespace BlockAdmm

open Scalar ExactScalar

variable {R : Type} [ExactScalar R]

/-- `Multiplies E run m n k`: on vectors of `n` entries, `run` gives the product with the coefficients `k`
    of `m` rows or ends in one of the faults `E`. -/
def Multiplies (E : Fault → Prop) (run : Array R → Outcome (Array R)) (m n : Nat)
    (k : Nat → Nat → R) : Prop :=
  ∀ x, x.size = n →
    Ends E (fun y => y.size = m ∧ ∀ r, r < m → Vec.entry y r = rowSum n k (Vec.entry x) r) (run x)

/-- What is known of opaque maps. -/
structure Lore (R : Type) where
  /-- the faults in which a function may end -/
  faults : Fault → Prop
  /-- `names i m n k`: a function with the mark `i` from `n` entries to `m` has the coefficients `k` -/
  names : Nat → Nat → Nat → (Nat → Nat → R) → Prop
  /-- only the coefficients inside the size matter -/
  names_congr : ∀ {i m n k k'}, names i m n k → (∀ r c, r < m → c < n → k' r c = k r c) →
    names i m n k'
  /-- the functions that are known for transposes are right -/
  transposes : Prop

omit [ExactScalar R] in
/-- `g.Unique`: a mark names one matrix of each size. -/
def Lore.Unique (g : Lore R) : Prop :=
  ∀ i m n k k', g.names i m n k → g.names i m n k' → ∀ r c, r < m → c < n → k r c = k' r c

omit [ExactScalar R] in
/-- `g.Complete`: what is known is enough for every operation.  A mark names one matrix, the functions that
    are known for transposes are right, and a breach is allowed, so no room has to be there. -/
class Lore.Complete (g : Lore R) : Prop extends Limits g.faults where
  unique : g.Unique
  transposes : g.transposes

omit [ExactScalar R] in
/-- `g.Within g'`: what is right as far as `g` knows is right as far as `g'` knows. -/
structure Lore.Within (g g' : Lore R) : Prop where
  faults : ∀ f, g.faults f → g'.faults f
  names : ∀ {i m n k}, g.names i m n k → g'.names i m n k
  transposes : g'.transposes → g.transposes

omit [ExactScalar R] in
/-- `g.loose`: the same where any fault is allowed, so that only values count. -/
def Lore.loose (g : Lore R) : Lore R := { g with faults := fun _ => True }

omit [ExactScalar R] in
theorem Lore.within_loose (g : Lore R) : g.Within g.loose where
  faults _ _ := trivial
  names hk := hk
  transposes hg := hg

instance (g : Lore R) : Limits g.loose.faults := ⟨trivial⟩

/-- A function that computes the product with coefficients, under a mark that says so. -/
structure ApplyFn.Yields (g : Lore R) (f : ApplyFn R) (m n : Nat) (k : Nat → Nat → R) : Prop where
  multiplies : Multiplies g.faults f.run m n k
  names : ∀ i, f.mark = some i → g.names i m n k

section Functions

variable {E : Fault → Prop} {g g' : Lore R} {m n : Nat} {k k' : Nat → Nat → R}

theorem Multiplies.congr {run : Array R → Outcome (Array R)} (h : Multiplies E run m n k)
    (hk : ∀ r c, r < m → c < n → k' r c = k r c) : Multiplies E run m n k' := by
  intro x hx
  refine (h x hx).imp fun y hy => ⟨hy.1, fun r hr => (hy.2 r hr).trans ?_⟩
  exact rowSum_congr (fun c hc => (hk r c hr hc).symm) fun _ _ => rfl

/-- More faults may be allowed. -/
theorem Multiplies.mono {F : Fault → Prop} {run : Array R → Outcome (Array R)} (h : Multiplies E run m n k)
    (hE : ∀ f, E f → F f) : Multiplies F run m n k := fun x hx => (h x hx).mono hE fun _ hy => hy

theorem ApplyFn.Yields.congr {f : ApplyFn R} (h : f.Yields g m n k)
    (hk : ∀ r c, r < m → c < n → k' r c = k r c) : f.Yields g m n k' :=
  ⟨h.multiplies.congr hk, fun i hi => g.names_congr (h.names i hi) hk⟩

theorem ApplyFn.Yields.mono {f : ApplyFn R} (h : f.Yields g m n k) (hg : g.Within g') : f.Yields g' m n k :=
  ⟨h.multiplies.mono hg.faults, fun i hi => hg.names (h.names i hi)⟩

/-- Where every fault is allowed, only the values count. -/
theorem realizes_iff_multiplies {run : Array R → Outcome (Array R)} :
    Realizes run m n k ↔ Multiplies (fun _ => True) run m n k := by
  constructor
  · intro h x hx
    exact ends_true_iff.2 fun y hy => h x y hx hy
  · intro h x y hx hy
    exact (h x hx).of_eq_ok hy

end Functions

namespace LinearMap

/-- `l.Bears g k`: the map has the coefficients `k`, as far as `g` knows. -/
def Bears (g : Lore R) : LinearMap R → (Nat → Nat → R) → Prop
  | .dense a _, k => ∀ r c, r < a.m → c < a.n → k r c = a.entry r c
  | .sparse a _, k => ∀ r c, r < a.m → c < a.n → k r c = a.entry r c
  | .diagonal d _, k =>
    ∀ r c, r < d.size → c < d.size → k r c = if r = c then Vec.entry d r else 0
  | .scalar n alpha _, k => ∀ r c, r < n → c < n → k r c = if r = c then alpha else 0
  | .kronecker a b, k => ∃ ka kb, a.Bears g ka ∧ b.Bears g kb ∧
    ∀ r c, r < a.m * b.m → c < a.n * b.n →
      k r c = ka (r / b.m) (c / b.n) * kb (r % b.m) (c % b.n)
  | .opaqueMap f, k => f.forward.Yields g f.m f.n k ∧
    (g.transposes → ∀ t, f.backward = some t → t.Yields g f.n f.m fun r c => k c r)

/-- `l.Stands g m n k`: the map has `m` rows, `n` columns and, as far as `g` knows, the coefficients `k`. -/
structure Stands (g : Lore R) (l : LinearMap R) (m n : Nat) (k : Nat → Nat → R) : Prop where
  size : l.size = (m, n)
  bears : l.Bears g k

variable {g g' : Lore R} {l : LinearMap R} {m n : Nat} {k k' : Nat → Nat → R}

theorem Stands.rows (h : l.Stands g m n k) : l.m = m := congrArg Prod.fst h.size

theorem Stands.cols (h : l.Stands g m n k) : l.n = n := congrArg Prod.snd h.size

theorem Bears.stands (h : l.Bears g k) : l.Stands g l.m l.n k := ⟨rfl, h⟩

/-- Only the coefficients inside the size matter. -/
theorem Bears.congr (h : l.Bears g k) (hk : ∀ r c, r < l.m → c < l.n → k' r c = k r c) :
    l.Bears g k' := by
  cases l with
  | dense a _ => exact fun r c hr hc => (hk r c hr hc).trans (h r c hr hc)
  | sparse a _ => exact fun r c hr hc => (hk r c hr hc).trans (h r c hr hc)
  | diagonal d _ => exact fun r c hr hc => (hk r c hr hc).trans (h r c hr hc)
  | scalar n alpha _ => exact fun r c hr hc => (hk r c hr hc).trans (h r c hr hc)
  | kronecker a b =>
    obtain ⟨ka, kb, ha, hb, hab⟩ := h
    exact ⟨ka, kb, ha, hb, fun r c hr hc => (hk r c hr hc).trans (hab r c hr hc)⟩
  | opaqueMap f =>
    obtain ⟨hf, ht⟩ := h
    exact ⟨hf.congr hk, fun hg t htm => (ht hg t htm).congr fun r c hr hc => hk c r hc hr⟩

theorem Stands.congr (h : l.Stands g m n k) (hk : ∀ r c, r < m → c < n → k' r c = k r c) :
    l.Stands g m n k' :=
  ⟨h.size, h.bears.congr fun r c hr hc => hk r c (h.rows ▸ hr) (h.cols ▸ hc)⟩

theorem Bears.mono (h : l.Bears g k) (hg : g.Within g') : l.Bears g' k := by
  induction l generalizing k with
  | dense | sparse | diagonal | scalar => exact h
  | kronecker a b iha ihb =>
    obtain ⟨ka, kb, ha, hb, hab⟩ := h
    exact ⟨ka, kb, iha ha, ihb hb, hab⟩
  | opaqueMap f => exact ⟨h.1.mono hg, fun ht t htm => (h.2 (hg.transposes ht) t htm).mono hg⟩

theorem Stands.mono (h : l.Stands g m n k) (hg : g.Within g') : l.Stands g' m n k :=
  ⟨h.size, h.bears.mono hg⟩

end LinearMap

/-! ## Lore from marks -/

section Marks

variable {g : Lore R} {w v : Marks R} {first m n : Nat} {k k' : Nat → Nat → R}

omit [ExactScalar R] in
/-- `w.above g first`: what `g` knows of the marks below `first`, and of all others what `w` says. -/
def Marks.above (w : Marks R) (g : Lore R) (first : Nat) : Lore R where
  faults := g.faults
  names i m n k := (i < first → g.names i m n k) ∧
    (first ≤ i → i < w.next ∧ ∀ r c, r < m → c < n → w.coef i r c = k r c)
  names_congr h hk := ⟨fun hi => g.names_congr (h.1 hi) hk,
    fun hi => ⟨(h.2 hi).1, fun r c hr hc => ((h.2 hi).2 r c hr hc).trans (hk r c hr hc).symm⟩⟩
  transposes := g.transposes

omit [ExactScalar R] in
theorem Marks.unique_above (w : Marks R) (hg : g.Unique) (first : Nat) : (w.above g first).Unique := by
  intro i m n k k' h h' r c hr hc
  rcases Nat.lt_or_ge i first with hi | hi
  · exact hg i m n k k' (h.1 hi) (h'.1 hi) r c hr hc
  · exact ((h.2 hi).2 r c hr hc).symm.trans ((h'.2 hi).2 r c hr hc)

omit [ExactScalar R] in
/-- More marks only add to what is known. -/
theorem Marks.Extends.within (hw : w.Extends v) : (v.above g first).Within (w.above g first) where
  faults _ hf := hf
  names h := ⟨h.1, fun hi => ⟨Nat.lt_of_lt_of_le (h.2 hi).1 hw.le, by
    rw [hw.keeps _ (h.2 hi).1]
    exact (h.2 hi).2⟩⟩
  transposes hg := hg

/-! ## Denoting as standing for coefficients -/

omit [ExactScalar R] in
/-- `Lore.values`: only values count, and nothing is known of marks. -/
def Lore.values : Lore R where
  faults _ := True
  names _ _ _ _ := False
  names_congr h _ := h.elim
  transposes := True

omit [ExactScalar R] in
/-- `w.lore`: the marks in use name what they name, transposes are right, and any fault is allowed. -/
def Marks.lore (w : Marks R) : Lore R := w.above Lore.values 0

omit [ExactScalar R] in
theorem Marks.unique_lore (w : Marks R) : w.lore.Unique := by
  refine w.unique_above ?_ 0
  intro i m n k k' h
  exact h.elim

omit [ExactScalar R] in
theorem Marks.allows_lore (w : Marks R) (n : Nat) : Allows w.lore.faults n := Or.inl trivial

omit [ExactScalar R] in
instance (w : Marks R) : w.lore.Complete where
  breach := trivial
  unique := w.unique_lore
  transposes := trivial

theorem ApplyFn.computes_iff_yields {f : ApplyFn R} : f.Computes w m n k ↔ f.Yields w.lore m n k :=
  ⟨fun h => ⟨realizes_iff_multiplies.1 h.realizes, fun i hi => ⟨nofun, fun _ => h.names i hi⟩⟩,
    fun h => ⟨realizes_iff_multiplies.2 h.multiplies, fun i hi => (h.names i hi).2 (Nat.zero_le i)⟩⟩

namespace LinearMap

variable {l : LinearMap R}

theorem denotes_iff_bears : l.Denotes w k ↔ l.Bears w.lore k := by
  induction l generalizing k with
  | dense | sparse | diagonal | scalar => exact Iff.rfl
  | kronecker a b iha ihb =>
    refine exists_congr fun ka => exists_congr fun kb => ?_
    rw [iha, ihb]
  | opaqueMap f =>
    refine and_congr ApplyFn.computes_iff_yields ⟨fun h _ t ht => ?_, fun h t ht => ?_⟩
    · exact ApplyFn.computes_iff_yields.1 (h t ht)
    · exact ApplyFn.computes_iff_yields.2 (h trivial t ht)

theorem means_iff_stands : l.Means w m n k ↔ l.Stands w.lore m n k :=
  ⟨fun h => ⟨h.size, denotes_iff_bears.1 h.denotes⟩, fun h => ⟨h.size, denotes_iff_bears.2 h.bears⟩⟩

/-- More marks change nothing. -/
theorem Denotes.mono (h : l.Denotes v k) (hw : w.Extends v) : l.Denotes w k :=
  denotes_iff_bears.2 ((denotes_iff_bears.1 h).mono hw.within)

theorem Denotes.congr (h : l.Denotes w k) (hk : ∀ r c, r < l.m → c < l.n → k' r c = k r c) :
    l.Denotes w k' := denotes_iff_bears.2 ((denotes_iff_bears.1 h).congr hk)

theorem Means.congr (h : l.Means w m n k) (hk : ∀ r c, r < m → c < n → k' r c = k r c) :
    l.Means w m n k' := means_iff_stands.2 ((means_iff_stands.1 h).congr hk)

theorem Means.mono (h : l.Means v m n k) (hw : w.Extends v) : l.Means w m n k :=
  means_iff_stands.2 ((means_iff_stands.1 h).mono hw.within)

end LinearMap

end Marks

end BlockAdmm
