/-
  The value of an expression.

  The value is read column by column: entry `i` of a matrix of `m` rows stands at row `i % m` and column
  `i / m`.  It is given for every tree, also for one that the compiler refuses; the value of a node that
  has no meaning as an affine expression is zero.  A tree is checked for one thing only, that its
  constants have the size of their nodes (`Expr.ConstantsSized`).
-/
import BlockAdmm.Proofs.LinearMap.Basic
import BlockAdmm.Compile

namespace BlockAdmm

variable {R : Type}

/-! ## Trees -/

/-- A tree has a property if every node gets it from its arguments. -/
theorem Expr.induct {P : Expr R → Prop}
    (node : ∀ kind m n args, (∀ e ∈ args, P e) → P (.node kind m n args)) : ∀ e, P e
  | .node kind m n args => node kind m n args fun e _ => Expr.induct node e

namespace Expr

mutual

/-- `e.nodes`: the nodes of a tree, a node before its arguments. -/
def nodes : Expr R → List (Expr R)
  | .node kind m n args => .node kind m n args :: nodesList args

def nodesList : List (Expr R) → List (Expr R)
  | [] => []
  | e :: es => e.nodes ++ nodesList es

end

/-- `e.ConstantsSized`: every node of a constant has the size of the constant. -/
def ConstantsSized (e : Expr R) : Prop :=
  ∀ f ∈ e.nodes, ∀ c, f.kind = .constant c → f.size = c.size

/-- `e.fitsConstant`: the node has the size of the constant that it is, if it is one. -/
def fitsConstant (e : Expr R) : Bool :=
  match e.kind with
  | .constant c => e.size == c.size
  | _ => true

theorem fitsConstant_iff {e : Expr R} :
    e.fitsConstant = true ↔ ∀ c, e.kind = .constant c → e.size = c.size := by
  rw [fitsConstant]
  split
  · rename_i c hc
    rw [beq_iff_eq]
    exact ⟨fun h c' hc' => ExprKind.constant.inj (hc.symm.trans hc') ▸ h, fun h => h c hc⟩
  · rename_i hne
    exact ⟨fun _ c hc => absurd hc (hne c), fun _ => rfl⟩

instance : DecidablePred (ConstantsSized : Expr R → Prop) := fun e =>
  decidable_of_iff (∀ f ∈ e.nodes, f.fitsConstant = true)
    (forall₂_congr fun _ _ => fitsConstant_iff)

theorem mem_nodesList {f : Expr R} {es : List (Expr R)} :
    f ∈ nodesList es ↔ ∃ e ∈ es, f ∈ e.nodes := by
  induction es with
  | nil => exact ⟨nofun, fun ⟨_, h, _⟩ => absurd h List.not_mem_nil⟩
  | cons e es ih =>
    rw [nodesList, List.mem_append, ih]
    constructor
    · rintro (h | ⟨e', he', h⟩)
      · exact ⟨e, List.mem_cons_self, h⟩
      · exact ⟨e', List.mem_cons_of_mem e he', h⟩
    · rintro ⟨e', he', h⟩
      rcases List.mem_cons.1 he' with rfl | he'
      · exact Or.inl h
      · exact Or.inr ⟨e', he', h⟩

theorem mem_nodes_self (e : Expr R) : e ∈ e.nodes := by
  obtain ⟨kind, m, n, args⟩ := e
  rw [nodes]
  exact List.mem_cons_self

theorem mem_nodes_of_arg {kind : ExprKind R} {m n : Nat} {args : List (Expr R)} {e f : Expr R}
    (he : e ∈ args) (hf : f ∈ e.nodes) : f ∈ (Expr.node kind m n args).nodes := by
  rw [nodes]
  exact List.mem_cons_of_mem _ (mem_nodesList.2 ⟨e, he, hf⟩)

/-- The nodes below a node are nodes of the tree. -/
theorem mem_nodes_trans {e f g : Expr R} (hf : f ∈ e.nodes) (hg : g ∈ f.nodes) : g ∈ e.nodes := by
  induction e using Expr.induct with
  | node kind m n args ih =>
    rw [nodes, List.mem_cons, mem_nodesList] at hf
    rcases hf with rfl | ⟨e, he, hf⟩
    · exact hg
    · exact mem_nodes_of_arg he (ih e he hf)

theorem ConstantsSized.of_mem {e f : Expr R} (h : e.ConstantsSized) (hf : f ∈ e.nodes) :
    f.ConstantsSized := fun g hg => h g (mem_nodes_trans hf hg)

theorem ConstantsSized.arg {kind : ExprKind R} {m n : Nat} {args : List (Expr R)}
    (h : (Expr.node kind m n args).ConstantsSized) {e : Expr R} (he : e ∈ args) : e.ConstantsSized :=
  fun f hf => h f (mem_nodes_of_arg he hf)

theorem ConstantsSized.constant {e : Expr R} (h : e.ConstantsSized) {c : Constant R}
    (hc : e.kind = .constant c) : e.size = c.size := h e (mem_nodes_self e) c hc

end Expr

/-! ## Constants -/

variable [Scalar R]

/-- `d.entry r c`: the entry of data at a row and a column. -/
def ConstantData.entry : ConstantData R → Nat → Nat → R
  | .dense a, r, c => a.entry r c
  | .sparse a, r, c => a.entry r c

/-- `k.entry data r c`: the entry of a constant, from the data of its name if it has one. -/
def Constant.entry (data : Provider R) (k : Constant R) (r c : Nat) : R :=
  match k.value with
  | .scalar v => v
  | .data key =>
    match data key with
    | some d => d.entry r c
    | none => 0

namespace MapDesc

omit [Scalar R] in
/-- `d.dims`: rows and columns of the described map. -/
def dims : MapDesc R → Size
  | .dense c => c.size
  | .sparse c => c.size
  | .diagonal c => (c.m * c.n, c.m * c.n)
  | .scalar n _ => (n, n)
  | .kronecker a b => (a.dims.1 * b.dims.1, a.dims.2 * b.dims.2)
  | .transpose a => (a.dims.2, a.dims.1)

/-- `d.coef data r c`: the coefficient of the described map at a row and a column. -/
def coef (data : Provider R) : MapDesc R → Nat → Nat → R
  | .dense k, r, c => k.entry data r c
  | .sparse k, r, c => k.entry data r c
  | .diagonal k, r, c => if r = c then k.entry data (r % k.m) (r / k.m) else 0
  | .scalar _ alpha, r, c => if r = c then alpha else 0
  | .kronecker a b, r, c =>
    a.coef data (r / b.dims.1) (c / b.dims.2) * b.coef data (r % b.dims.1) (c % b.dims.2)
  | .transpose a, r, c => a.coef data c r

end MapDesc

/-! ## Values -/

variable {S : Type} [ExactScalar S]

omit [Scalar R] in
/-- `e.isScale`: whether the expression is a constant of one element, which scales what it is multiplied
    with. -/
def Expr.isScale (e : Expr R) : Bool :=
  match e.kind with
  | .constant _ => e.dim == 1
  | _ => false

/-- `productEntry a b x y i`: entry `i` of the product of expressions that have the values `x` and `y`:
    a scaling, or the product of the matrices. -/
def Expr.productEntry (a b : Expr S) (x y : Nat → S) (i : Nat) : S :=
  if a.isScale then x 0 * y i
  else if b.isScale then y 0 * x i
  else ∑ t ∈ Finset.range a.n, x (t * a.m + i % a.m) * y (i / a.m * b.m + t)

namespace Expr

mutual

/-- `e.value data x i`: entry `i` of the value of an expression, where the variable `id` has the entries
    `x id`. -/
def value (data : Provider S) (x : String → Nat → S) : Expr S → Nat → S
  | .node (.variable id) _ _ _, i => x id i
  | .node (.constant c) _ _ _, i => c.entry data (i % c.m) (i / c.m)
  | .node .add _ _ args, i => sumValue data x args i
  | .node .negate _ _ [e], i => -value data x e i
  | .node .reshape _ _ [e], i => value data x e i
  | .node (.linearMap d) _ _ [e], i => rowSum e.dim (d.coef data) (value data x e) i
  | .node .multiply _ _ [a, b], i => productEntry a b (value data x a) (value data x b) i
  | _, _ => 0

/-- `sumValue data x es i`: entry `i` of a sum, in which a constant of one element is repeated. -/
def sumValue (data : Provider S) (x : String → Nat → S) : List (Expr S) → Nat → S
  | [], _ => 0
  | e :: es, i =>
    (if e.dim = 1 ∧ e.isConstant = true then value data x e 0 else value data x e i)
      + sumValue data x es i

end

variable {data : Provider S} {x : String → Nat → S} {y : Nat → S} {a e : Expr S} {c : Constant S} {i : Nat}

theorem value_of_constant (h : e.kind = .constant c) (i : Nat) :
    e.value data x i = c.entry data (i % c.m) (i / c.m) := by
  obtain ⟨kind, m, n, args⟩ := e
  cases h
  rw [value]

omit [ExactScalar S] in
theorem isScale_iff : e.isScale = true ↔ e.dim = 1 ∧ ∃ c, e.kind = .constant c := by
  rw [isScale]
  cases hk : e.kind with
  | constant c => exact beq_iff_eq.trans ⟨fun h => ⟨h, c, rfl⟩, And.left⟩
  | _ => exact ⟨fun h => absurd h Bool.false_ne_true, fun h => nomatch h.2⟩

/-! ## Constraints -/

/-- `c.left data x i`: entry `i` of what a constraint says is zero, which is the value of its argument. -/
def left (data : Provider S) (x : String → Nat → S) (c : Expr S) (i : Nat) : S :=
  match c.args with
  | [e] => e.value data x i
  | _ => 0

omit [ExactScalar S] in
/-- `c.leftDim`: how many entries a constraint says are zero. -/
def leftDim (c : Expr S) : Nat :=
  match c.args with
  | [e] => e.dim
  | _ => 0

/-! ## Products with a constant -/

/-- A constant of one element in front scales. -/
theorem productEntry_scale_left (hc : a.kind = .constant c) (hone : a.dim = 1) :
    productEntry a e (a.value data x) y i = c.entry data 0 0 * y i := by
  rw [productEntry, if_pos (isScale_iff.2 ⟨hone, c, hc⟩), value_of_constant hc, Nat.zero_mod,
    Nat.zero_div]

/-- A constant of one element behind scales what is no such constant. -/
theorem productEntry_scale_right (hc : e.kind = .constant c) (hone : e.dim = 1)
    (ha : ∀ c, a.kind ≠ .constant c) :
    productEntry a e y (e.value data x) i = c.entry data 0 0 * y i := by
  rw [productEntry, if_neg fun h => (isScale_iff.1 h).2.elim ha, if_pos (isScale_iff.2 ⟨hone, c, hc⟩),
    value_of_constant hc, Nat.zero_mod, Nat.zero_div]

/-- Another constant in front is multiplied with each column. -/
theorem productEntry_left (hc : a.kind = .constant c) (hsize : a.size = c.size) (hone : a.dim ≠ 1)
    (hfit : c.n = e.m) (hi : i < e.n * c.m) :
    productEntry a e (a.value data x) y i
      = ∑ t ∈ Finset.range c.n, c.entry data (i % c.m) t * y (i / c.m * c.n + t) := by
  obtain ⟨hm, hn⟩ : a.m = c.m ∧ a.n = c.n := Prod.mk.inj hsize
  have hpos : 0 < c.m := Nat.pos_of_ne_zero fun h => by rw [h, Nat.mul_zero] at hi; omega
  have hentry (t : Nat) : a.value data x (t * c.m + i % c.m) = c.entry data (i % c.m) t := by
    obtain ⟨hdiv, hmod⟩ := (mul_add_eq_iff (q := t) (Nat.mod_lt i hpos)).1 rfl
    rw [value_of_constant hc, ← hdiv, ← hmod]
  rw [productEntry, if_neg fun h => hone (isScale_iff.1 h).1]
  split
  · -- the other factor has one element too, so the columns are one entry each
    rename_i hscale
    have hdim : e.m * e.n = 1 := (isScale_iff.1 hscale).1
    rw [Nat.eq_one_of_mul_eq_one_left hdim, Nat.one_mul] at hi
    rw [hfit, Nat.eq_one_of_mul_eq_one_right hdim, Finset.sum_range_one, Nat.div_eq_of_lt hi, Nat.zero_mul,
      Nat.zero_add, value_of_constant hc, Nat.div_eq_of_lt hi, mul_comm]
  · rw [hn, hm, hfit]
    exact Finset.sum_congr rfl fun t _ => by rw [hentry]

/-- Another constant behind combines the columns. -/
theorem productEntry_right (hc : e.kind = .constant c) (hsize : e.size = c.size) (hone : e.dim ≠ 1)
    (ha : ∀ c, a.kind ≠ .constant c) (hfit : a.n = c.m) :
    productEntry a e y (e.value data x) i
      = ∑ t ∈ Finset.range c.m, c.entry data t (i / a.m) * y (t * a.m + i % a.m) := by
  obtain ⟨hm, hn⟩ : e.m = c.m ∧ e.n = c.n := Prod.mk.inj hsize
  rw [productEntry, if_neg fun h => (isScale_iff.1 h).2.elim ha,
    if_neg fun h => hone (isScale_iff.1 h).1, hfit]
  refine Finset.sum_congr rfl fun t ht => ?_
  obtain ⟨hdiv, hmod⟩ := (mul_add_eq_iff (q := i / a.m) (Finset.mem_range.1 ht)).1 rfl
  rw [value_of_constant hc, hm, ← hdiv, ← hmod, mul_comm]

end Expr

end BlockAdmm
