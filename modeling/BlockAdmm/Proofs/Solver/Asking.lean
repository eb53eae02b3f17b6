/-
  What a solve asks for.

  The affine compiler is called for each constraint and for each argument of a term, all over one session.
  So the names of the whole problem are asked for once each, in the order in which the compilation comes to
  them, and the first that has no data ends the solve with the report that it is missing.  The iteration
  asks for nothing.  A solve therefore depends on the data of the names in the problem and on no others
  (`Solver.solve_asks`).

  Of the settings a compilation uses the penalty alone, so it also goes the same way for two solvers that
  differ in the others (`Solver.asks_compile`).
-/
import BlockAdmm.Proofs.Asking
import BlockAdmm.Solver.Basic

namespace BlockAdmm

open Scalar Compile

variable {R : Type} [Scalar R] {K : String → Prop}

/-- The terms of an objective carry names of the objective. -/
theorem Objective.keys_of_terms {e t : Expr R} {ts : List (Expr R)} (h : Objective.terms e = .ok ts)
    (ht : t ∈ ts) {k : String} (hk : k ∈ t.keys) : k ∈ e.keys := by
  obtain ⟨kind, m, n, args⟩ := e
  rw [Objective.terms] at h
  split at h
  · split at h
    · cases h
    · cases h
      exact Expr.keys_of_arg ht hk
  · cases h
    exact List.mem_singleton.1 ht ▸ hk
  · cases h

theorem TermBlock.asks_build {term : Expr R} (hK : ∀ k ∈ term.keys, K k) (index : Nat) (l : Layout)
    (all : BlockMatrix R) (rho : R) :
    Asks K Eq (build index term l all rho) (build index term l all rho) := by
  refine (asks_liftM _).andThen fun back => (asks_liftM _).andThen fun coupling => ?_
  refine (asks_note _ _).andThen fun _ => (TermInput.asks_build hK l _).andThen fun input => ?_
  exact (asks_liftM _).andThen fun operator => asks_pure rfl

namespace Solver

/-- Solvers of one problem with one penalty compile it to systems that differ in their settings. -/
theorem asks_compile {s s' : Solver R} (hproblem : s'.problem = s.problem)
    (hrho : s'.settings.rho = s.settings.rho) (hK : ∀ k ∈ s.problem.keys, K k) :
    Asks K (fun a b => a.settings = s.settings ∧ b = { a with settings := s'.settings })
      s.compile s'.compile := by
  have hconstraints : ∀ c ∈ s.problem.constraints, ∀ k ∈ c.keys, K k := fun c hc k hk =>
    hK k (List.mem_append_right _ (List.mem_flatMap.2 ⟨c, hc, hk⟩))
  rw [compile, compile, hproblem]
  refine (asks_note _ _).andThen fun _ => (asks_note _ _).andThen fun _ => ?_
  refine (asks_note _ _).andThen fun _ => (Affine.asks_buildConstraints hconstraints).andThen fun form => ?_
  refine (asks_note _ _).andThen fun _ => (asks_note _ _).andThen fun _ => ?_
  refine (asks_outcome _).bind fun terms terms' hterms => ?_
  obtain ⟨hterms, rfl⟩ := hterms
  refine (asks_liftM _).andThen fun layouts => Asks.andThen (asks_mapM fun tli htli => ?_) fun blocks => ?_
  · have hterm : tli.1.1 ∈ terms :=
      (List.of_mem_zip (List.fst_mem_of_mem_zipIdx htli)).1
    rw [buildBlock, buildBlock, hrho]
    exact TermBlock.asks_build (fun k hk => hK k (List.mem_append_left _
      (Objective.keys_of_terms hterms hterm hk))) _ _ _ _
  refine asks_get.bind fun t t' _ => (asks_note _ _).andThen fun _ => ?_
  refine (asks_liftM _).andThen fun n => (asks_liftM _).andThen fun _ => ?_
  exact asks_pure ⟨rfl, rfl⟩

theorem asks_run {s : Solver R} (hK : ∀ k ∈ s.problem.keys, K k) : Asks K Eq s.run s.run := by
  refine (asks_compile rfl rfl hK).bind fun a b hab => ?_
  obtain ⟨hsettings, rfl⟩ := hab
  rw [← hsettings]
  exact (asks_note _ _).andThen fun _ => asks_logged _

/-- A run that came to an end, and what its solve leaves. -/
theorem solve_of_ok {s : Solver R} {p : Provider R} {e : System.Ending R}
    (h : (s.run.runFrom p (Session.start .zero 0)).1 = .ok e) :
    (s.solve p).outcome = .ok e.status ∧ (s.solve p).writes = s.writes e.last.x ∧
      (s.solve p).solver = s.finish e.status (s.writes e.last.x) := by
  rw [solve]
  rcases hr : s.run.runFrom p (Session.start .zero 0) with ⟨o, t⟩
  rw [hr] at h
  obtain rfl : o = .ok e := h
  exact ⟨rfl, rfl, rfl⟩

/-- `stateOf f`: the state in which a fault leaves a solver; only an error is returned. -/
def stateOf : Fault → SolverState
  | .failed _ => .failed
  | _ => .running

/-- A run that came to none: its solve writes nothing. -/
theorem solve_of_error {s : Solver R} {p : Provider R} {f : Fault}
    (h : (s.run.runFrom p (Session.start .zero 0)).1 = .error f) :
    (s.solve p).outcome = .error f ∧ (s.solve p).writes = [] ∧
      (s.solve p).solver = { s with status := Status.of (stateOf f) } := by
  rw [solve]
  rcases hr : s.run.runFrom p (Session.start .zero 0) with ⟨o, t⟩
  rw [hr] at h
  obtain rfl : o = .error f := h
  cases f <;> exact ⟨rfl, rfl, rfl⟩

/-- What a solve does depends on how its run ends. -/
theorem solve_congr {s : Solver R} {p p' : Provider R}
    (h : (s.run.runFrom p (Session.start .zero 0)).1 = (s.run.runFrom p' (Session.start .zero 0)).1) :
    (s.solve p).outcome = (s.solve p').outcome ∧ (s.solve p).solver = (s.solve p').solver ∧
      (s.solve p).writes = (s.solve p').writes := by
  cases ho : (s.run.runFrom p' (Session.start .zero 0)).1 with
  | ok e =>
    obtain ⟨h₁, h₂, h₃⟩ := solve_of_ok (h.trans ho)
    obtain ⟨h₁', h₂', h₃'⟩ := solve_of_ok ho
    exact ⟨h₁.trans h₁'.symm, h₃.trans h₃'.symm, h₂.trans h₂'.symm⟩
  | error f =>
    obtain ⟨h₁, h₂, h₃⟩ := solve_of_error (h.trans ho)
    obtain ⟨h₁', h₂', h₃'⟩ := solve_of_error ho
    exact ⟨h₁.trans h₁'.symm, h₃.trans h₃'.symm, h₂.trans h₂'.symm⟩

theorem asked_solve (s : Solver R) (p : Provider R) :
    (s.solve p).asked = (s.run.runFrom p (Session.start .zero 0)).2.asked.toList := by
  rw [solve]
  rcases s.run.runFrom p (Session.start .zero 0) with ⟨o, t⟩
  cases o with
  | ok ending => rfl
  | error f => cases f <;> rfl

/-- A solve asks for no name twice and for names of the problem only; all that it asked for had data,
    except perhaps for the last name, whose absence is then what it reports.  Providers that agree on the
    names of the problem are asked for the same and lead to the same. -/
theorem solve_asks (s : Solver R) (p : Provider R) :
    (s.solve p).asked.Nodup ∧ (∀ k ∈ (s.solve p).asked, k ∈ s.problem.keys) ∧
      (∀ k ∈ (s.solve p).asked.dropLast, (p k).isSome = true) ∧
      (∀ k ∈ (s.solve p).asked, p k = none →
        (s.solve p).outcome = .error (.failed (.missingData k))) ∧
      ∀ p' : Provider R, (∀ k ∈ s.problem.keys, p k = p' k) →
        (s.solve p').asked = (s.solve p).asked ∧ (s.solve p').outcome = (s.solve p).outcome ∧
        (s.solve p').solver = (s.solve p).solver ∧ (s.solve p').writes = (s.solve p).writes := by
  have hruns (p' : Provider R) (hp : ∀ k ∈ s.problem.keys, p k = p' k) :=
    asks_run (K := (· ∈ s.problem.keys)) (fun _ hk => hk) p p' _ _ hp
      (Session.answered_start AffineForm.zero 0) rfl
  obtain ⟨honce, hwithin, hresolved, hmissing⟩ := (hruns p fun _ _ => rfl).2.2.asked
  rw [asked_solve]
  refine ⟨honce, hwithin, hresolved, fun k hk hnone => ?_, fun p' hp => ?_⟩
  · exact (solve_of_error (hmissing k hk hnone)).1
  · obtain ⟨houtcome, hsilent, -⟩ := hruns p' hp
    rw [asked_solve, Session.asked_eq hsilent]
    exact ⟨rfl, solve_congr houtcome.eq.symm⟩

/-- `incomplete`: minimize `0` over `x` subject to `A x + B = 0`, where the data are yet to be given. -/
def incomplete : Solver ℚ :=
  create ⟨"p", .node (.term ⟨.zero, 1, false⟩) 1 1 [.var 1 1 "x"],
    [.node .zeroCone 1 1 [.node .add 1 1
      [.node .multiply 1 1 [.node (.constant ⟨1, 1, .data "A"⟩) 1 1 [], .var 1 1 "x"],
        .node (.constant ⟨1, 1, .data "B"⟩) 1 1 []]]]⟩ Settings.default

/-- `only keys`: a provider of the number one under each of some names. -/
def only (keys : List String) : Provider ℚ := fun key =>
  if key ∈ keys then some (.dense ⟨1, 1, #[1], rfl⟩) else none

/-- Without the data `B` the solve asks for `A` and then for `B`, whatever else there is. -/
theorem solve_asks_incomplete :
    (∀ k ∈ incomplete.problem.keys, only ["A"] k = only ["A", "C"] k) ∧
      only ["A"] "B" = none ∧ (incomplete.solve (only ["A"])).asked = ["A", "B"] ∧
      (incomplete.solve (only ["A", "C"])).asked = ["A", "B"] ∧
      (incomplete.solve (only ["A", "C"])).outcome = .error (.failed (.missingData "B")) := by
  have hagree : ∀ k ∈ incomplete.problem.keys, only ["A"] k = only ["A", "C"] k := by
    have hkeys : incomplete.problem.keys = ["A", "B"] := rfl
    rw [hkeys]
    exact List.forall_mem_cons.2 ⟨rfl, List.forall_mem_singleton.2 rfl⟩
  have hasked : (incomplete.solve (only ["A"])).asked = ["A", "B"] := by decide +kernel
  have hnone : only ["A"] "B" = none := rfl
  obtain ⟨-, -, -, hmissing, hsame⟩ := solve_asks incomplete (only ["A"])
  obtain ⟨hasked', houtcome, -⟩ := hsame (only ["A", "C"]) hagree
  refine ⟨hagree, hnone, hasked, hasked'.trans hasked, houtcome.trans (hmissing "B" ?_ hnone)⟩
  rw [hasked]
  decide

end Solver

end BlockAdmm
