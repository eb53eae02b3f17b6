/-
  Events: what a computation reports while it goes on.

  An event has a level and a text that is made only when somebody reads it.  `Logged α` is an outcome
  with the events before it.  The events never decide anything: the outcome of a sequence is the
  sequence of the outcomes (`outcome_bind`), so a statement about results may drop them.
-/
import BlockAdmm.Fault

namespace BlockAdmm

/-- How much an event matters, from the most to the least. -/
inductive Level where
  | error | warn | info | debug | trace
  deriving DecidableEq

namespace Level

def all : List Level := [error, warn, info, debug, trace]

def name : Level → String
  | error => "ERROR"
  | warn => "WARN"
  | info => "INFO"
  | debug => "DEBUG"
  | trace => "TRACE"

def rank : Level → Nat
  | error => 0
  | warn => 1
  | info => 2
  | debug => 3
  | trace => 4

end Level

/-- A report with its level. -/
structure Event where
  level : Level
  text : Unit → String

/-- `e.line`: the event as a line. -/
def Event.line (e : Event) : String := e.level.name ++ ": " ++ e.text ()

/-- `linesUpTo level events`: the lines of the events that matter at least as much as `level`. -/
def linesUpTo (level : Level) (events : List Event) : List String :=
  (events.filter fun e => e.level.rank ≤ level.rank).map Event.line

/-- An outcome with the events before it. -/
structure Logged (α : Type) where
  events : Array Event
  outcome : Outcome α

namespace Logged

variable {α β : Type}

/-- `ofOutcome o`: an outcome without events. -/
def ofOutcome (o : Outcome α) : Logged α := ⟨#[], o⟩

/-- `note e`: one event. -/
def note (e : Event) : Logged Unit := ⟨#[e], .ok ()⟩

/-- `x.andThen f`: first `x` and then, if it has a value, `f` of it. -/
def andThen (x : Logged α) (f : α → Logged β) : Logged β :=
  match x.outcome with
  | .ok a => let y := f a; ⟨x.events ++ y.events, y.outcome⟩
  | .error e => ⟨x.events, .error e⟩

instance : Monad Logged where
  pure a := ofOutcome (.ok a)
  bind := andThen

instance : MonadLift (Except Fault) Logged where
  monadLift o := ofOutcome o

@[simp] theorem outcome_pure (a : α) : (pure a : Logged α).outcome = .ok a := rfl

@[simp] theorem outcome_ofOutcome (o : Outcome α) : (ofOutcome o).outcome = o := rfl

@[simp] theorem outcome_note (e : Event) : (note e).outcome = .ok () := rfl

@[simp] theorem outcome_bind (x : Logged α) (f : α → Logged β) :
    (x >>= f).outcome = x.outcome >>= fun a => (f a).outcome := by
  show (andThen x f).outcome = _
  unfold andThen
  cases x.outcome <;> rfl

end Logged

end BlockAdmm
