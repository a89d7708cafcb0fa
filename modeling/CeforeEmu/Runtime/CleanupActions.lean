import CeforeEmu.Runtime.BridgeRoot

/-!
# `BridgeManager.cleanup`, for actions of any kind

In `bridge_root.py` an action is a description, a flag and a function without arguments. What the
function does is up to whoever registered it: it returns a code and a detail, or it raises. The
actions of `Runtime.BridgeRoot` are those whose function is a command; here they are of any type,
and a call is given what each of them does in it.

`executed` is kept for the proofs: the actions a call has executed, in order.
-/

set_option autoImplicit false

namespace CeforeEmu
namespace Runtime

open CeforeEmu.Lib

/-- What `execute()` does: it returns `(rc, detail)`, or raises an `Exception`. -/
inductive ExecuteOutcome where
  | returned (rc : ℤ) (detail : String)
  | raised (text : String)
  deriving DecidableEq, Repr

/-- What `cleanup` reads of an action. -/
structure ActionKind (α : Type) where
  description : α → String
  mandatory : α → Bool

variable {α : Type}

/-- The variables of the loop. -/
structure CleanupLoop (α : Type) where
  failures : List (String × ℤ × String) := []
  retainedReversed : List α := []
  executed : List α := []

/-- A mandatory action that failed: it is reported, and kept. -/
def CleanupLoop.fail (loop : CleanupLoop α) (kind : ActionKind α) (action : α) (rc : ℤ)
    (detail : String) : CleanupLoop α :=
  if kind.mandatory action then
    { loop with
      failures := loop.failures ++ [(kind.description action, rc, detail)],
      retainedReversed := loop.retainedReversed ++ [action] }
  else loop

/-- One turn. -/
def cleanupTurn (kind : ActionKind α) (outcome : α → ExecuteOutcome) (loop : CleanupLoop α)
    (action : α) : CleanupLoop α :=
  let loop := { loop with executed := loop.executed ++ [action] }
  match outcome action with
  | .raised text => loop.fail kind action (-1) text
  | .returned rc detail => if rc ≠ 0 then loop.fail kind action rc detail else loop

/-- What a call leaves, and the failures of the `TeardownError` it raises, if it does. -/
structure CleanupCall (α : Type) where
  actions : List α
  teardownError : Option (List (String × ℤ × String))
  executed : List α

/-- `cleanup`. -/
def cleanupActions (kind : ActionKind α) (outcome : α → ExecuteOutcome) (actions : List α) :
    CleanupCall α :=
  let loop := actions.reverse.foldl (cleanupTurn kind outcome) {}
  { actions := loop.retainedReversed.reverse
    teardownError := if loop.failures = [] then none else some loop.failures
    executed := loop.executed }

end Runtime
end CeforeEmu
