/-
  When a solve stops.

  Let `S_j` be the state after `j` sweeps from the start (`System.after`).  The loop counts its iterations
  from zero, so iteration `k` leads from `S_k` to `S_(k+1)`, and where `k` is a multiple of the epoch it looks
  at the residuals of `S_(k+1)`.  The first look with small residuals ends the run; without one it ends at
  `S_N`, where `N` is the number of iterations that are allowed, and the residuals of `S_N` are reported
  whatever they are; and the first sweep or look on the way that fails ends it in its fault (`System.Stops`).

  While no look ends the run it goes through the states one after another (`System.iterate_of_goesOn`), so
  each of these endings is the outcome (`System.Stops.iterate`), and one of them always applies
  (`System.stops_iterate`).  Neither the number of iterations nor the epoch nor the tolerances have a part in
  the states, so runs that differ in them go through the same states up to the earlier stop
  (`System.path_prefix`).
-/
import BlockAdmm.Proofs.Solver.System

namespace BlockAdmm

open Scalar Compile

variable {R : Type} [Scalar R]

namespace System

variable {s s' : System R} {i k left : Nat} {it it' : Iterate R} {events : Array Event} {e : Ending R}
  {o : Outcome (Ending R)}

/-! ## The endings of a run -/

/-- `s.after j`: the state after `j` sweeps from the start. -/
def after (s : System R) : Nat → Outcome (Iterate R)
  | 0 => .ok s.start
  | j + 1 => do (s.sweep (← s.after j)).outcome

/-- `s.GoesOn k`: no look before iteration `k` ends the run; each of them succeeds and finds residuals that
    are too large. -/
def GoesOn (s : System R) (k : Nat) : Prop :=
  ∀ j < k, max s.settings.epoch 1 ∣ j →
    ∃ it r, s.after (j + 1) = .ok it ∧ s.residuals it = .ok r ∧ r.converged = false

/-- `s.Stops o`: where the run is to end. -/
inductive Stops (s : System R) : Outcome (Ending R) → Prop
  /-- at the first look that finds small residuals -/
  | converged {k : Nat} {it : Iterate R} {r : Residuals R} (allowed : k < s.settings.maxIterations)
      (look : max s.settings.epoch 1 ∣ k) (before : s.GoesOn k) (state : s.after (k + 1) = .ok it)
      (residuals : s.residuals it = .ok r) (small : r.converged = true) :
      Stops s (.ok ⟨⟨.optimal, k, r⟩, it⟩)
  /-- when no iteration is left -/
  | exhausted {it : Iterate R} {r : Residuals R} (before : s.GoesOn s.settings.maxIterations)
      (state : s.after s.settings.maxIterations = .ok it) (residuals : s.residuals it = .ok r) :
      Stops s (.ok ⟨⟨.maxIterationsReached, s.settings.maxIterations, r⟩, it⟩)
  /-- at the first sweep that fails -/
  | sweepFault {k : Nat} {it : Iterate R} {f : Fault} (allowed : k < s.settings.maxIterations)
      (before : s.GoesOn k) (state : s.after k = .ok it) (fault : (s.sweep it).outcome = .error f) :
      Stops s (.error f)
  /-- at the first look that fails -/
  | lookFault {k : Nat} {it : Iterate R} {f : Fault} (allowed : k < s.settings.maxIterations)
      (look : max s.settings.epoch 1 ∣ k) (before : s.GoesOn k) (state : s.after (k + 1) = .ok it)
      (fault : s.residuals it = .error f) : Stops s (.error f)
  /-- at the last state, whose residuals cannot be told -/
  | lastFault {it : Iterate R} {f : Fault} (before : s.GoesOn s.settings.maxIterations)
      (state : s.after s.settings.maxIterations = .ok it) (fault : s.residuals it = .error f) :
      Stops s (.error f)

theorem goesOn_iff : s.GoesOn k ↔ ∀ j < k, max s.settings.epoch 1 ∣ j →
    ((s.after (j + 1) >>= s.residuals).toOption.any fun r => !r.converged) = true := by
  refine forall₃_congr fun j _ _ => ⟨?_, fun h => ?_⟩
  · rintro ⟨it, r, hit, hr, hlarge⟩
    rw [bind_eq_ok.2 ⟨it, hit, hr⟩]
    show (!r.converged) = true
    rw [hlarge]
    rfl
  · obtain ⟨r, hr, hlarge⟩ := exists_eq_ok_and h
    obtain ⟨it, hit, hr⟩ := bind_eq_ok.1 hr
    exact ⟨it, r, hit, hr, Bool.not_eq_true' _ ▸ hlarge⟩

instance : Decidable (s.GoesOn k) := decidable_of_iff _ goesOn_iff.symm

theorem GoesOn.mono (h : s.GoesOn k) (hi : i ≤ k) : s.GoesOn i :=
  fun j hj => h j (Nat.lt_of_lt_of_le hj hi)

/-! ## The loop -/

theorem outcome_check (s : System R) (i : Nat) (it : Iterate R) :
    (s.check i it).outcome = s.residuals it := by
  rw [check, Logged.outcome_bind]
  show (s.residuals it >>= fun r => _) = _
  cases s.residuals it <;> rfl

theorem outcome_giveUp (s : System R) (i : Nat) (it : Iterate R) :
    (s.giveUp i it).outcome = do
      let r ← s.residuals it
      return ⟨⟨.maxIterationsReached, i, r⟩, it⟩ := by
  rw [giveUp, Logged.outcome_bind, outcome_check]
  rfl

/-- A round: a sweep and, every epoch, a look at the residuals. -/
theorem outcome_round (s : System R) (i : Nat) (it : Iterate R) :
    (s.round i it).outcome = do
      let it' ← (s.sweep it).outcome
      if max s.settings.epoch 1 ∣ i then
        let r ← s.residuals it'
        return (it', if r.converged then some ⟨⟨.optimal, i, r⟩, it'⟩ else none)
      else return (it', none) := by
  rw [round, Logged.outcome_bind]
  refine congrArg _ (funext fun it' => ?_)
  simp only [beq_iff_eq, ← Nat.dvd_iff_mod_eq_zero]
  split
  · rw [Logged.outcome_bind, outcome_check]
    refine congrArg _ (funext fun r => ?_)
    cases r.converged <;> rfl
  · rfl

/-- A round in which the residuals are not looked at. -/
theorem round_skip (hsweep : (s.sweep it).outcome = .ok it') (hskip : ¬max s.settings.epoch 1 ∣ i) :
    (s.round i it).outcome = .ok (it', none) := by
  rw [outcome_round, hsweep]
  exact if_neg hskip

/-- A round in which they are. -/
theorem round_look (hsweep : (s.sweep it).outcome = .ok it') (hlook : max s.settings.epoch 1 ∣ i) :
    (s.round i it).outcome = do
      let r ← s.residuals it'
      return (it', if r.converged then some ⟨⟨.optimal, i, r⟩, it'⟩ else none) := by
  rw [outcome_round, hsweep]
  exact if_pos hlook

theorem round_small {r : Residuals R} (hsweep : (s.sweep it).outcome = .ok it')
    (hlook : max s.settings.epoch 1 ∣ i) (hr : s.residuals it' = .ok r) (hsmall : r.converged = true) :
    (s.round i it).outcome = .ok (it', some ⟨⟨.optimal, i, r⟩, it'⟩) := by
  rw [round_look hsweep hlook, hr]
  show Except.ok (it', if r.converged then _ else _) = _
  rw [hsmall]
  rfl

theorem round_large {r : Residuals R} (hsweep : (s.sweep it).outcome = .ok it')
    (hlook : max s.settings.epoch 1 ∣ i) (hr : s.residuals it' = .ok r) (hlarge : r.converged = false) :
    (s.round i it).outcome = .ok (it', none) := by
  rw [round_look hsweep hlook, hr]
  show Except.ok (it', if r.converged then _ else _) = _
  rw [hlarge]
  rfl

theorem round_fault {f : Fault} (hsweep : (s.sweep it).outcome = .ok it')
    (hlook : max s.settings.epoch 1 ∣ i) (hr : s.residuals it' = .error f) :
    (s.round i it).outcome = .error f := by
  rw [round_look hsweep hlook, hr]
  rfl

theorem round_of_sweep_fault {f : Fault} (hsweep : (s.sweep it).outcome = .error f) :
    (s.round i it).outcome = .error f := by
  rw [outcome_round, hsweep]
  rfl

/-- While no look ends the run, it goes through the states one after another. -/
theorem iterate_of_goesOn (hk : k ≤ s.settings.maxIterations) (hon : s.GoesOn k) (hit : s.after k = .ok it) :
    ∃ events, s.iterate.outcome = (s.rounds (s.settings.maxIterations - k) k it events).outcome := by
  induction k generalizing it with
  | zero =>
    cases hit
    exact ⟨#[], rfl⟩
  | succ k ih =>
    obtain ⟨mid, hmid, hsweep⟩ := bind_eq_ok.1 hit
    obtain ⟨events, h⟩ := ih (by omega) (hon.mono (Nat.le_succ k)) hmid
    have hround : (s.round k mid).outcome = .ok (it, none) := by
      by_cases hlook : max s.settings.epoch 1 ∣ k
      · obtain ⟨it', r, hit', hr, hlarge⟩ := hon k (Nat.lt_succ_self k) hlook
        obtain rfl := Except.ok.inj (hit.symm.trans hit')
        exact round_large hsweep hlook hr hlarge
      · exact round_skip hsweep hlook
    have hleft : s.settings.maxIterations - k = s.settings.maxIterations - (k + 1) + 1 := by omega
    refine ⟨events ++ (s.round k mid).events, ?_⟩
    rw [h, hleft, rounds, hround]

/-- The first round that ends the run, or fails. -/
theorem iterate_of_round (hk : k < s.settings.maxIterations) (hon : s.GoesOn k) (hit : s.after k = .ok it) :
    (∀ it' e, (s.round k it).outcome = .ok (it', some e) → s.iterate.outcome = .ok e) ∧
      ∀ f, (s.round k it).outcome = .error f → s.iterate.outcome = .error f := by
  obtain ⟨events, h⟩ := iterate_of_goesOn (Nat.le_of_lt hk) hon hit
  have hleft : s.settings.maxIterations - k = s.settings.maxIterations - (k + 1) + 1 := by omega
  rw [h, hleft, rounds]
  refine ⟨fun it' e he => ?_, fun f hf => ?_⟩
  · rw [he]
  · rw [hf]

/-- The run ends where it is to end. -/
theorem Stops.iterate (h : s.Stops o) : s.iterate.outcome = o := by
  cases h with
  | @converged k it _ allowed look before state residuals small =>
    obtain ⟨mid, hmid, hsweep⟩ := bind_eq_ok.1 state
    exact (iterate_of_round allowed before hmid).1 it _ (round_small hsweep look residuals small)
  | exhausted before state residuals =>
    obtain ⟨events, h⟩ := iterate_of_goesOn (Nat.le_refl _) before state
    rw [h, Nat.sub_self]
    show (s.giveUp _ _).outcome = _
    rw [outcome_giveUp, residuals]
    rfl
  | @sweepFault k it f allowed before state fault =>
    exact (iterate_of_round allowed before state).2 f (round_of_sweep_fault fault)
  | @lookFault k it f allowed look before state fault =>
    obtain ⟨mid, hmid, hsweep⟩ := bind_eq_ok.1 state
    exact (iterate_of_round allowed before hmid).2 f (round_fault hsweep look fault)
  | lastFault before state fault =>
    obtain ⟨events, h⟩ := iterate_of_goesOn (Nat.le_refl _) before state
    rw [h, Nat.sub_self]
    show (s.giveUp _ _).outcome = _
    rw [outcome_giveUp, fault]
    rfl

/-- What is left of a run that no look has ended yet. -/
theorem stops_rounds (hon : s.GoesOn i) (hit : s.after i = .ok it)
    (hleft : i + left = s.settings.maxIterations) : s.Stops (s.rounds left i it events).outcome := by
  induction left generalizing i it events with
  | zero =>
    obtain rfl : i = s.settings.maxIterations := hleft
    show s.Stops (s.giveUp _ it).outcome
    rw [outcome_giveUp]
    cases hr : s.residuals it with
    | error f => exact .lastFault hon hit hr
    | ok r => exact .exhausted hon hit hr
  | succ left ih =>
    have hallowed : i < s.settings.maxIterations := by omega
    rw [rounds]
    cases hsweep : (s.sweep it).outcome with
    | error f =>
      rw [round_of_sweep_fault hsweep]
      exact .sweepFault hallowed hon hit hsweep
    | ok it' =>
      have hit' : s.after (i + 1) = .ok it' := bind_eq_ok.2 ⟨it, hit, hsweep⟩
      -- the rounds after one that does not end the run
      have hrest (hlast : max s.settings.epoch 1 ∣ i →
          ∃ r, s.residuals it' = .ok r ∧ r.converged = false) (events : Array Event) :
          s.Stops (s.rounds left (i + 1) it' events).outcome := by
        refine ih (fun j hj hlook => ?_) hit' (by omega)
        rcases Nat.lt_succ_iff_lt_or_eq.1 hj with hj | rfl
        · exact hon j hj hlook
        · obtain ⟨r, hr, hlarge⟩ := hlast hlook
          exact ⟨it', r, hit', hr, hlarge⟩
      by_cases hlook : max s.settings.epoch 1 ∣ i
      · cases hr : s.residuals it' with
        | error f =>
          rw [round_fault hsweep hlook hr]
          exact .lookFault hallowed hlook hon hit' hr
        | ok r =>
          cases hconv : r.converged with
          | true =>
            rw [round_small hsweep hlook hr hconv]
            exact .converged hallowed hlook hon hit' hr hconv
          | false =>
            rw [round_large hsweep hlook hr hconv]
            exact hrest (fun _ => ⟨r, hr, hconv⟩) _
      · rw [round_skip hsweep hlook]
        exact hrest (fun h => absurd h hlook) _

/-- A run always ends in one of these ways. -/
theorem stops_iterate (s : System R) : s.Stops s.iterate.outcome :=
  stops_rounds (fun _ hj => absurd hj (Nat.not_lt_zero _)) rfl (Nat.zero_add _)

/-! ## The states of a run -/

/-- `s.trail left i it`: the states that the iterations go through from number `i` on, of which there may be
    `left`, up to the one at which they stop. -/
def trail (s : System R) : Nat → Nat → Iterate R → List (Iterate R)
  | 0, _, it => [it]
  | left + 1, i, it =>
    it :: match (s.round i it).outcome with
      | .ok (it', none) => s.trail left (i + 1) it'
      | .ok (it', some _) => [it']
      | .error _ => []

/-- `s.path`: the states that a run goes through. -/
def path (s : System R) : List (Iterate R) := s.trail s.settings.maxIterations 0 s.start

theorem after_of_trail (hit : s.after i = .ok it) {j : Nat} (h : (s.trail left i it)[j]? = some it') :
    s.after (i + j) = .ok it' := by
  have hhead {j : Nat} {it : Iterate R} {i : Nat} (hit : s.after i = .ok it)
      (h : [it][j]? = some it') : s.after (i + j) = .ok it' := by
    rw [List.getElem?_singleton] at h
    split at h
    · rename_i hj
      rw [hj, ← Option.some.inj h]
      exact hit
    · cases h
  induction left generalizing i it j with
  | zero => exact hhead hit h
  | succ left ih =>
    rw [trail] at h
    cases j with
    | zero => exact Option.some.inj h ▸ hit
    | succ j =>
      rw [List.getElem?_cons_succ] at h
      rw [Nat.add_left_comm i j 1, Nat.add_comm j]
      split at h
      · rename_i mid hround
        exact ih (bind_eq_ok.2 ⟨it, hit, (round_eq_ok hround).1⟩) h
      · rename_i mid _ hround
        exact hhead (bind_eq_ok.2 ⟨it, hit, (round_eq_ok hround).1⟩) h
      · cases h

/-- A run that comes to an end does so at the last of its states. -/
theorem getLast?_trail (h : (s.rounds left i it events).outcome = .ok e) :
    (s.trail left i it).getLast? = some e.last := by
  induction left generalizing i it events with
  | zero =>
    have h : (s.giveUp i it).outcome = .ok e := h
    rw [outcome_giveUp] at h
    obtain ⟨r, -, h⟩ := bind_eq_ok.1 h
    cases pure_eq_ok.1 h
    rfl
  | succ left ih =>
    rw [rounds] at h
    rw [trail, List.getLast?_cons]
    split at h
    · cases h
    · rename_i it' e' hround
      cases h
      rw [hround, ((round_eq_ok hround).2 e rfl).2]
      rfl
    · rename_i it' hround
      rw [hround]
      show some ((s.trail left (i + 1) it').getLast?.getD it) = _
      rw [ih h]
      rfl

theorem after_of_path {j : Nat} (h : s.path[j]? = some it) : s.after j = .ok it :=
  Nat.zero_add j ▸ after_of_trail (i := 0) rfl h

/-- Runs over the same states go the same way up to the earlier stop. -/
theorem path_prefix (h : s'.after = s.after) : s.path <+: s'.path ∨ s'.path <+: s.path := by
  -- a path is at each place where the states are there
  have hsame {s s' : System R} (h : s'.after = s.after) (hle : s.path.length ≤ s'.path.length) :
      s.path <+: s'.path := by
    refine List.prefix_iff_getElem.2 ⟨hle, fun j hj => ?_⟩
    have hit := after_of_path (List.getElem?_eq_getElem hj)
    have hit' := after_of_path (List.getElem?_eq_getElem (Nat.lt_of_lt_of_le hj hle))
    rw [h] at hit'
    exact Except.ok.inj (hit.symm.trans hit')
  exact (Nat.le_total s.path.length s'.path.length).imp (hsame h) (hsame h.symm)

theorem after_congr (s : System R) (settings : Settings R) :
    ({ s with settings := settings } : System R).after = s.after := by
  funext j
  induction j with
  | zero => rfl
  | succ j ih =>
    rw [after, after, ih]
    rfl

end System

/-! ## Solves -/

namespace Solver

/-- A solve stops at the first look that finds small residuals, or where no iteration is left, or at the
    first sweep or look that fails; it gives the iterate and the residuals of the state at which it stops.
    Solves that differ in the number of iterations, the epoch and the tolerances go through the same states,
    up to the earlier stop. -/
theorem solve_stops (s : Solver R) (p : Provider R) :
    (∀ f, s.system p = .error f → (s.solve p).outcome = .error f) ∧
      ∀ system, s.system p = .ok system → system.settings = s.settings ∧
        (∃ o, system.Stops o) ∧
        (∀ e, system.Stops (.ok e) → (s.solve p).outcome = .ok e.status ∧
          (s.solve p).writes = s.writes e.last.x ∧ system.path.getLast? = some e.last) ∧
        (∀ f, system.Stops (.error f) → (s.solve p).outcome = .error f) ∧
        ∀ s' : Solver R, s'.problem = s.problem → s'.settings.rho = s.settings.rho →
          ∃ system', s'.system p = .ok system' ∧ system'.after = system.after ∧
            (system.path <+: system'.path ∨ system'.path <+: system.path) := by
  refine ⟨fun f hf => ?_, fun system hsystem => ?_⟩
  · refine (solve_of_error ?_).1
    rw [outcome_run, hf]
    rfl
  have hrun : (s.run.runFrom p (Session.start .zero 0)).1 = system.iterate.outcome := by
    rw [outcome_run, hsystem]
    rfl
  refine ⟨(system_congr rfl rfl hsystem).1, ⟨_, system.stops_iterate⟩, fun e he => ?_, fun f hf => ?_,
    fun s' hproblem hrho => ?_⟩
  · obtain ⟨houtcome, hwrites, -⟩ := solve_of_ok (hrun.trans he.iterate)
    exact ⟨houtcome, hwrites, System.getLast?_trail he.iterate⟩
  · exact (solve_of_error (hrun.trans hf.iterate)).1
  · have hafter := system.after_congr s'.settings
    exact ⟨_, (system_congr hproblem hrho hsystem).2, hafter, System.path_prefix hafter⟩

/-- `towards settings`: minimize `x²` subject to `x - 1 = 0`. -/
def towards (settings : Settings ℚ) : Solver ℚ :=
  create ⟨"p", .node (.term ⟨.sumSquare, 1, false⟩) 1 1 [.var 1 1 "x"],
    [.node .zeroCone 1 1 [.node .add 1 1
      [.var 1 1 "x", .node (.constant ⟨1, 1, .scalar (-1)⟩) 1 1 []]]]⟩ settings

/-- The residuals of `towards` are small after 17 sweeps, but looked at only after the first, the
    eleventh and the twenty-first. -/
theorem solve_stops_towards : ∃ r : Residuals ℚ,
    ((towards .default).solve fun _ => none).outcome = .ok ⟨.optimal, 20, r⟩ ∧
      ∃ system system', (towards .default).system (fun _ => none) = .ok system ∧
        (towards { Settings.default with maxIterations := 7 }).system (fun _ => none) = .ok system' ∧
        (system.path <+: system'.path ∨ system'.path <+: system.path) := by
  obtain ⟨system, hsystem, hcheck⟩ := exists_eq_ok_and (x := (towards .default).system fun _ => none)
    (p := fun system => decide (system.GoesOn 20) &&
      ((system.after 21 >>= system.residuals).toOption.any fun r => r.converged)) (by decide +kernel)
  rw [Bool.and_eq_true, decide_eq_true_iff] at hcheck
  obtain ⟨r, hr, hsmall⟩ := exists_eq_ok_and hcheck.2
  obtain ⟨it, hit, hr⟩ := bind_eq_ok.1 hr
  obtain ⟨hsettings, -, hends, -, hsame⟩ := (solve_stops (towards .default) fun _ => none).2 system hsystem
  obtain ⟨system', hsystem', -, hprefix⟩ :=
    hsame (towards { Settings.default with maxIterations := 7 }) rfl rfl
  have hstops : system.Stops (.ok ⟨⟨.optimal, 20, r⟩, it⟩) :=
    .converged (by rw [hsettings]; decide) (by rw [hsettings]; decide) hcheck.1 hit hr hsmall
  exact ⟨r, (hends _ hstops).1, system, system', hsystem, hsystem', hprefix⟩

end Solver

end BlockAdmm
