/-
  What a solve writes.

  An iterate has the variables of the blocks with their sizes and nothing else (`HasVariables`): the start
  puts them there, and the step of a block puts its own variables in place of themselves, so both do the same
  to the sizes (`HasVariables.put`).  Nothing is written before the iteration has come to its end; then the
  values go to the store in the order of the names of the variables, so of several variables with one id the
  last remains (`ParameterStore.get?_foldl_update_of_last`).

  Hence a solve writes everything or nothing (`Solver.solve_writes`).
-/
import BlockAdmm.Proofs.Solver.System

namespace BlockAdmm

open Scalar

variable {R : Type}

/-! ## Writes one after another -/

namespace ParameterStore

variable {ws : List (ParameterId × Array R)} {id : ParameterId} {v : Array R}

/-- Writes under other ids. -/
theorem get?_foldl_update_of_not_mem (t : ParameterStore R) (h : ∀ w ∈ ws, w.1 ≠ id) :
    (ws.foldl (fun t w => t.update w.1 w.2) t).get? id = t.get? id := by
  induction ws generalizing t with
  | nil => rfl
  | cons w ws ih =>
    obtain ⟨hw, h⟩ := List.forall_mem_cons.1 h
    rw [List.foldl_cons, ih _ h, get?_update, if_neg hw]

/-- The last write under an id. -/
theorem get?_foldl_update_of_last (t : ParameterStore R) {before after : List (ParameterId × Array R)}
    (hws : ws = before ++ (id, v) :: after) (h : ∀ w ∈ after, w.1 ≠ id) :
    (ws.foldl (fun t w => t.update w.1 w.2) t).get? id = some v := by
  rw [hws, List.foldl_append, List.foldl_cons, get?_foldl_update_of_not_mem _ h, get?_update, if_pos rfl]

end ParameterStore

/-! ## The variables of an iterate -/

/-- `OneSize bs`: no two blocks have a variable with different sizes. -/
def OneSize (bs : List (TermBlock R)) : Prop :=
  ∀ b ∈ bs, ∀ b' ∈ bs, ∀ k d d', b.layout.sizes.get? k = some d → b'.layout.sizes.get? k = some d' → d = d'

/-- `HasVariables bs x`: a vector has the variables of the blocks with their sizes, and nothing else. -/
def HasVariables (bs : List (TermBlock R)) (x : BlockVector R) : Prop :=
  ∀ k n, x.sizeAt? k = some n ↔ ∃ b ∈ bs, b.layout.sizes.get? k = some n

/-- The variables of one more block. -/
theorem HasVariables.put {bs through : List (TermBlock R)} {b : TermBlock R} {x x' : BlockVector R}
    (hone : OneSize bs) (hbs : ∀ c, c ∈ bs ↔ c = b ∨ c ∈ through) (hx : HasVariables through x)
    (hput : ∀ k, x'.sizeAt? k = (b.layout.sizes.get? k).or (x.sizeAt? k)) : HasVariables bs x' := by
  intro k n
  have hb : b ∈ bs := (hbs b).2 (Or.inl rfl)
  rw [hput, Option.or_eq_some_iff, hx]
  constructor
  · rintro (hk | ⟨-, c, hc, hk⟩)
    · exact ⟨b, hb, hk⟩
    · exact ⟨c, (hbs c).2 (Or.inr hc), hk⟩
  · rintro ⟨c, hc, hk⟩
    cases hbk : b.layout.sizes.get? k with
    | some d => exact Or.inl (congrArg some (hone b hb c hc k d n hbk hk))
    | none =>
      refine Or.inr ⟨rfl, c, ?_, hk⟩
      exact ((hbs c).1 hc).resolve_left fun h => nomatch (h ▸ hk).symm.trans hbk

namespace System

variable [Scalar R] {s : System R} {it it' : Iterate R}

theorem get?_zeroes (x : BlockVector R) (b : TermBlock R) (k : String) :
    (zeroes x b).get? k = ((b.layout.sizes.get? k).map Vec.zero).or (x.get? k) := by
  have hzeroes : zeroes x b = (b.layout.sizes.map Vec.zero).entries.foldl
      (fun x kv => x.insert kv.1 kv.2) x := by
    rw [zeroes, Keyed.map, List.foldl_map]
  have hget := BlockVector.get?_foldl_insert x ⟨b.layout.sizes.map Vec.zero⟩ k
  rw [hzeroes, hget, BlockVector.get?, Keyed.get?_map]

theorem sizeAt?_zeroes (x : BlockVector R) (b : TermBlock R) (k : String) :
    (zeroes x b).sizeAt? k = (b.layout.sizes.get? k).or (x.sizeAt? k) := by
  rw [BlockVector.sizeAt?, get?_zeroes]
  cases b.layout.sizes.get? k with
  | none => rfl
  | some d => exact congrArg some (Vec.size_zero d)

/-- At the start all variables are there. -/
theorem hasVariables_start (hone : OneSize s.blocks) : HasVariables s.blocks s.start.x := by
  have hwalk (rest through : List (TermBlock R)) (x : BlockVector R) (hs : through ++ rest = s.blocks)
      (hx : HasVariables through x) : HasVariables s.blocks (rest.foldl zeroes x) := by
    induction rest generalizing through x with
    | nil => rwa [← hs, List.append_nil]
    | cons b rest ih =>
      rw [List.append_cons] at hs
      have hone : OneSize (through ++ [b]) := fun c hc c' hc' =>
        hone c (hs ▸ List.mem_append_left _ hc) c' (hs ▸ List.mem_append_left _ hc')
      refine ih (through ++ [b]) _ hs (hx.put hone (fun c => ?_) (sizeAt?_zeroes x b))
      rw [List.mem_append, List.mem_singleton, or_comm]
  exact hwalk s.blocks [] BlockVector.empty rfl fun k n =>
    ⟨nofun, fun ⟨_, h, _⟩ => absurd h List.not_mem_nil⟩

/-- The turn of a block puts its variables in place of themselves. -/
theorem hasVariables_stepBlock (hone : OneSize s.blocks) {b : TermBlock R} (hb : b ∈ s.blocks)
    (hit : HasVariables s.blocks it.x) (h : (stepBlock it b).outcome = .ok it') :
    HasVariables s.blocks it'.x := by
  obtain ⟨_, w, y, _, -, -, hy, hx, -⟩ := stepBlock_eq_ok h
  refine HasVariables.put hone (fun c => ?_) hit (b := b) fun k => ?_
  · exact ⟨Or.inr, fun h => h.elim (fun h => h ▸ hb) id⟩
  · rw [hx, BlockVector.sizeAt?, BlockVector.get?_foldl_insert, ← sizeAt?_step hy]
    cases hk : y.get? k with
    | none => rw [BlockVector.sizeAt?_eq_none_iff.2 hk]; rfl
    | some v => rw [BlockVector.sizeAt?_eq_some_iff.2 ⟨v, hk, rfl⟩]; rfl

theorem hasVariables_sweep (hone : OneSize s.blocks) (hit : HasVariables s.blocks it.x)
    (h : (s.sweep it).outcome = .ok it') : HasVariables s.blocks it'.x := by
  obtain ⟨u, -, h⟩ := sweep_eq_ok.1 h
  exact foldlM_invariant (s := ⟨it.x, it.x, u⟩) (fun it : Iterate R => HasVariables s.blocks it.x)
    (fun b hb _ _ hit h => hasVariables_stepBlock hone hb hit h) hit h

/-- So they are at the end of a run. -/
theorem hasVariables_iterate (hone : OneSize s.blocks) {e : Ending R} (h : s.iterate.outcome = .ok e) :
    e.Tells s ∧ HasVariables s.blocks e.last.x :=
  rounds_eq_ok (fun it => HasVariables s.blocks it.x) (fun _ _ hit h => hasVariables_sweep hone hit h)
    (hasVariables_start hone) h

end System

/-! ## Solves -/

namespace Solver

variable [Scalar R] {s : Solver R} {p : Provider R}

/-- The blocks of a problem have one size for each variable. -/
theorem CompilesTo.oneSize {form : AffineForm R} {layouts : List Layout} {system : System R}
    (h : s.CompilesTo p form layouts system) : OneSize system.blocks := by
  intro b hb b' hb' k d d' hd hd'
  obtain ⟨l, hl, hof⟩ := exists_of_forall₂ h.blocks hb
  obtain ⟨l', hl', hof'⟩ := exists_of_forall₂ h.blocks hb'
  rw [hof.layout] at hd
  rw [hof'.layout] at hd'
  exact h.shares.agree hl hl' hd hd'

/-- The variables of the blocks are those of the objective. -/
theorem CompilesTo.mentions_iff {form : AffineForm R} {layouts : List Layout} {system : System R}
    (h : s.CompilesTo p form layouts system) {k : String} {d : Nat} :
    s.problem.objective.Mentions k d ↔ ∃ b ∈ system.blocks, b.layout.sizes.get? k = some d := by
  rw [h.declared]
  constructor
  · rintro ⟨l, hl, hd⟩
    obtain ⟨b, hb, hof⟩ := exists_of_forall₂ h.blocks.flip hl
    exact ⟨b, hb, hof.layout.symm ▸ hd⟩
  · rintro ⟨b, hb, hd⟩
    obtain ⟨l, hl, hof⟩ := exists_of_forall₂ h.blocks hb
    exact ⟨l, hl, hof.layout ▸ hd⟩

omit [Scalar R] in
/-- An id that no variable of the last iterate has. -/
theorem fetch_finish_of_not_mem (s : Solver R) (status : Status R) {x : BlockVector R} {id : ParameterId}
    (h : ∀ k v, x.get? k = some v → ParameterId.of s.problem.id k ≠ id) :
    (s.finish status (s.writes x)).store.fetch id = s.store.fetch id := by
  refine congrArg (·.getD #[]) (ParameterStore.get?_foldl_update_of_not_mem s.store fun w hw => ?_)
  obtain ⟨kv, hkv, rfl⟩ := List.mem_map.1 hw
  exact h kv.1 kv.2 (Keyed.get?_eq_some_iff.2 hkv)

omit [Scalar R] in
/-- The id of a variable that is the last of those which have it. -/
theorem fetch_finish_of_last (s : Solver R) (status : Status R) {x : BlockVector R} {k : String}
    {v : Array R} (hk : x.get? k = some v)
    (hlast : ∀ k' v', x.get? k' = some v' →
      ParameterId.of s.problem.id k' = ParameterId.of s.problem.id k → k' ≤ k) :
    (s.finish status (s.writes x)).store.fetch (ParameterId.of s.problem.id k) = v := by
  have hmem := Keyed.get?_eq_some_iff.1 hk
  obtain ⟨before, after, hentries⟩ := List.append_of_mem hmem
  have hws : s.writes x = before.map (fun kv => (ParameterId.of s.problem.id kv.1, kv.2)) ++
      (ParameterId.of s.problem.id k, v) ::
        after.map fun kv => (ParameterId.of s.problem.id kv.1, kv.2) := by
    rw [writes, hentries, List.map_append, List.map_cons]
  refine congrArg (·.getD #[]) (ParameterStore.get?_foldl_update_of_last s.store hws fun w hw => ?_)
  obtain ⟨kv, hkv, rfl⟩ := List.mem_map.1 hw
  -- what comes later has a greater name
  have hsorted := x.blocks.sorted
  rw [hentries] at hsorted
  have hlt := (List.pairwise_cons.1 (List.pairwise_append.1 hsorted).2.1).1 kv hkv
  have hget : x.get? kv.1 = some kv.2 :=
    Keyed.get?_eq_some_iff.2 (hentries ▸ List.mem_append_right _ (List.mem_cons_of_mem _ hkv))
  exact fun hid => String.not_lt.2 (hlast kv.1 kv.2 hget hid) hlt

/-- A solve that returns an error leaves the store as it was.  One that comes to an end writes the values of
    the variables of the objective, each with its number of elements, and nothing else: under each id there
    is then the value of the last variable that has it, or what was there before if no variable has it. -/
theorem solve_writes (s : Solver R) (p : Provider R) :
    (∀ f, (s.solve p).outcome = .error f →
      (s.solve p).solver.store = s.store ∧ (s.solve p).writes = [] ∧
        ∀ e, f = .failed e → (s.solve p).solver.status.state = .failed) ∧
    ∀ status, (s.solve p).outcome = .ok status →
      (status.state = .optimal ∨ status.state = .maxIterationsReached) ∧
        (s.solve p).solver.status = status ∧
        ∃ system e, s.system p = .ok system ∧ system.iterate.outcome = .ok e ∧
          (∀ k n, s.problem.objective.Mentions k n → ∃ v, e.last.x.get? k = some v ∧ v.size = n ∧
            (ParameterId.of s.problem.id k, v) ∈ (s.solve p).writes) ∧
          (∀ k n v, s.problem.objective.Mentions k n → e.last.x.get? k = some v →
            (∀ k' n', s.problem.objective.Mentions k' n' →
              ParameterId.of s.problem.id k' = ParameterId.of s.problem.id k → k' ≤ k) →
            (s.solve p).solver.store.fetch (ParameterId.of s.problem.id k) = v) ∧
          ∀ id, (∀ k n, s.problem.objective.Mentions k n → ParameterId.of s.problem.id k ≠ id) →
            (s.solve p).solver.store.fetch id = s.store.fetch id := by
  refine ⟨fun f hf => ?_, fun status h => ?_⟩
  · obtain ⟨hwrites, hsolver⟩ := solve_fault hf
    rw [hsolver]
    exact ⟨rfl, hwrites, fun e he => he ▸ rfl⟩
  obtain ⟨system, e, hsystem, hiterate, rfl, hwrites, hsolver⟩ := solve_parts h
  obtain ⟨form, layouts, hcompiles⟩ := system_eq_ok hsystem
  obtain ⟨htells, hvariables⟩ := System.hasVariables_iterate hcompiles.oneSize hiterate
  have hmentions {k : String} {n : Nat} :
      s.problem.objective.Mentions k n ↔ ∃ v, e.last.x.get? k = some v ∧ v.size = n := by
    rw [hcompiles.mentions_iff, ← hvariables, BlockVector.sizeAt?_eq_some_iff]
  refine ⟨htells.state.imp_left And.left, by rw [hsolver]; rfl, system, e, hsystem, hiterate,
    fun k n hk => ?_, fun k n v _ hv hlast => ?_, fun id hid => ?_⟩
  · obtain ⟨v, hv, hsize⟩ := hmentions.1 hk
    rw [hwrites]
    exact ⟨v, hv, hsize, List.mem_map.2 ⟨(k, v), Keyed.get?_eq_some_iff.1 hv, rfl⟩⟩
  · rw [hsolver]
    exact fetch_finish_of_last s _ hv fun k' v' hk' => hlast k' v'.size (hmentions.2 ⟨v', hk', rfl⟩)
  · rw [hsolver]
    exact fetch_finish_of_not_mem s _ fun k v hk => hid k v.size (hmentions.2 ⟨v, hk, rfl⟩)

/-- `used settings`: minimize `x²`, with a value in the store already. -/
def used (settings : Settings ℚ) : Solver ℚ :=
  { create ⟨"p", .node (.term ⟨.sumSquare, 1, false⟩) 1 1 [.var 1 1 "x"], []⟩ settings with
    store := ParameterStore.empty.update 0 #[5] }

/-- The only variable of `used` is `x`. -/
theorem mentions_used {settings : Settings ℚ} {k : String} {n : Nat} :
    (used settings).problem.objective.Mentions k n ↔ k = "x" ∧ n = 1 := by
  have hnodes : (used settings).problem.objective.nodes
      = [(used settings).problem.objective, .var 1 1 "x"] := rfl
  constructor
  · rintro ⟨v, hv, hkind, hdim⟩
    rw [hnodes, List.mem_cons, List.mem_singleton] at hv
    rcases hv with rfl | rfl
    · cases hkind
    · cases hkind
      exact ⟨rfl, hdim.symm⟩
  · rintro ⟨rfl, rfl⟩
    exact ⟨.var 1 1 "x", hnodes ▸ List.mem_cons_of_mem _ (List.mem_singleton_self _), rfl, rfl⟩

/-- A solve without data writes nothing, and one that ends writes `x` and leaves the rest. -/
theorem solve_writes_used :
    (∃ status, ((used .default).solve fun _ => none).outcome = .ok status ∧
      ((used .default).solve fun _ => none).solver.store.fetch 0 = #[5] ∧
      (((used .default).solve fun _ => none).solver.store.fetch (ParameterId.of "p" "x")).size = 1) ∧
    (incomplete.solve (only ["A"])).outcome = .error (.failed (.missingData "B")) ∧
    (incomplete.solve (only ["A"])).solver.store = incomplete.store := by
  constructor
  · obtain ⟨status, h⟩ := exists_eq_ok (x := ((used .default).solve fun _ => none).outcome)
      (by decide +kernel)
    obtain ⟨-, -, _, e, -, -, hwritten, hlast, hrest⟩ := (solve_writes (used .default) _).2 status h
    obtain ⟨v, hv, hsize, -⟩ := hwritten "x" 1 (mentions_used.2 ⟨rfl, rfl⟩)
    refine ⟨status, h, hrest 0 fun k n hk => ?_, ?_⟩
    · rw [(mentions_used.1 hk).1]
      decide +kernel
    · refine (congrArg Array.size (hlast "x" 1 v (mentions_used.2 ⟨rfl, rfl⟩) hv fun k n hk _ => ?_)).trans
        hsize
      exact (mentions_used.1 hk).1.le
  · have hmissing : (incomplete.solve (only ["A"])).outcome = .error (.failed (.missingData "B")) := rfl
    exact ⟨hmissing, ((solve_writes incomplete (only ["A"])).1 _ hmissing).1⟩

end Solver

end BlockAdmm
