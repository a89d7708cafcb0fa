import Mathlib.Tactic.Common
import CeforeEmu.Scenarios.Base

/-!
# Staged teardown

Every stage is attempted behind a guard, so what is attempted does not depend on what fails
(`cleanup_stages`), and what fails is collected in the order of the stages (`Collected`). What is
raised in the end is the one failure, or one group of all of them (`propagateFailures_spec`).
-/

set_option autoImplicit false

namespace CeforeEmu
namespace Proof

open CeforeEmu.Lib CeforeEmu.Scenarios

variable {σ ι Topo Net Dir Scope : Type}

/-- What failed in a stage: what it raised, or what it returned. -/
def failuresOf : Except (Exc ι) (List (Failure ι)) → List (Exc ι)
  | .error exc => [exc]
  | .ok found => found.map (·.2)

/-- The stages that apply. -/
def applicable (netExists collectsLogs : Bool) : List Stage :=
  [.shutdownRuntimeResources]
    ++ (if netExists then
        [.debugPreTeardown, .teardown, .debugPostTeardown]
          ++ (if collectsLogs then [.collectDaemonLogs] else []) ++ [.cleanupAll]
      else [.cleanupNodeDirs])
    ++ [.writeResults]

/-- The failures collected are those of the stages attempted. -/
def Collected (c : Cleanup σ ι) : Prop :=
  c.cleanupFailures.map (·.2) = c.attempts.flatMap fun attempt => failuresOf attempt.2

section Attempt

variable (stage : Stage) (hook : Hook σ ι (List (Failure ι))) (c : Cleanup σ ι)

/-- A stage is attempted once, whatever becomes of it. -/
theorem attempt_stages :
    (attempt stage hook c).attempts.map (·.1) = c.attempts.map (·.1) ++ [stage] := by
  rw [attempt]
  split <;> rw [List.map_append] <;> rfl

theorem attempt_collected (h : Collected c) : Collected (attempt stage hook c) := by
  rw [Collected] at h
  rw [attempt]
  split
  · rw [Collected, List.map_append, List.flatMap_append, h]
    simp [failuresOf]
  · rw [Collected, List.map_append, List.flatMap_append, h]
    simp [failuresOf]

end Attempt

section Run

variable (sc : Scenario σ ι Topo Net Dir Scope)

theorem cleanup_collected (body : Body σ ι Net) : Collected (cleanup sc body) := by
  have hfirst := attempt_collected .shutdownRuntimeResources sc.shutdownRuntimeResources
    (⟨body.state, [], []⟩ : Cleanup σ ι) rfl
  refine attempt_collected _ _ _ ?_
  cases body.net with
  | none => exact attempt_collected _ _ _ hfirst
  | some net =>
    refine attempt_collected _ _ _ ?_
    have hpost := attempt_collected .debugPostTeardown (quiet sc.collectDebugPostTeardown) _
      (attempt_collected .teardown (quiet (sc.teardown net)) _
        (attempt_collected .debugPreTeardown (quiet (sc.collectDebugPreTeardown net)) _ hfirst))
    split
    · exact attempt_collected _ _ _ hpost
    · exact hpost

theorem cleanup_stages (body : Body σ ι Net) : (cleanup sc body).attempts.map (·.1) =
    applicable body.net.isSome sc.daemonLogCollectionEnabled := by
  rw [cleanup, attempt_stages]
  cases body.net with
  | none =>
    rw [cleanupNet, attempt_stages, attempt_stages]
    rfl
  | some net =>
    rw [cleanupNet, attempt_stages]
    cases sc.daemonLogCollectionEnabled with
    | true =>
      simp only [if_true, attempt_stages]
      rfl
    | false =>
      simp only [Bool.false_eq_true, if_false, attempt_stages]
      rfl

end Run

/-- What was raised is the one failure, or one group of all of them. -/
def Reports (failures : List (Exc ι)) : Option (Exc ι) → Prop
  | none => failures = []
  | some exc => failures = [exc] ∨
      ∃ isExceptionGroup msg first rest, exc = .group isExceptionGroup msg first rest ∧
        failures = first :: rest

theorem reports_baseExceptionGroup (msg : String) (exc : Exc ι) (excs : List (Exc ι)) :
    Reports (exc :: excs) (some (.baseExceptionGroup msg (exc :: excs))) :=
  .inr ⟨_, msg, exc, excs, rfl, rfl⟩

/-- **The propagation** raises everything it is given, in all of its forms. -/
theorem propagateFailures_spec (primary : Option (Exc ι)) (failures : List (Failure ι)) :
    Reports (primary.toList ++ failures.map (·.2)) (propagateFailures primary failures) := by
  cases primary with
  | some exc =>
    cases failures with
    | nil => exact .inl rfl
    | cons failure failures => exact reports_baseExceptionGroup _ exc _
  | none =>
    match failures with
    | [] => exact rfl
    | [failure] => exact .inl rfl
    | failure :: second :: failures =>
      rw [propagateFailures]
      · split
        · exact reports_baseExceptionGroup _ failure.2 _
        · rename_i hall
          -- every failure is an `Exception`, as `ExceptionGroup` asks
          have hexceptions : (failure.2 :: (second :: failures).map (·.2)).all Exc.isException := by
            simpa using hall
          refine .inr ⟨true, "cleanup failures", failure.2, second.2 :: failures.map (·.2), ?_, rfl⟩
          rw [List.map_cons, Exc.exceptionGroup, if_pos hexceptions]
          rfl
      · exact fun h => by cases h
      · intro f h
        cases h

theorem reports_leaves {failures : List (Exc ι)} {raised : Option (Exc ι)}
    (h : Reports failures raised) : (raised.toList).flatMap Exc.leaves = failures.flatMap Exc.leaves := by
  cases raised with
  | none => rw [h, Option.toList_none]
  | some exc =>
    rcases h with rfl | ⟨isExceptionGroup, msg, first, rest, rfl, rfl⟩
    · rfl
    · rw [Option.toList_some, List.flatMap_singleton, Exc.leaves_group]

/-- **Staged teardown reports everything.** Whatever the lifecycle and the stages do, raise and
    return: `execute` attempts the stages that apply, each once and in order; what it raises has
    for its leaves, in this order, those of the primary exception, unless that is a
    `KeyboardInterrupt`, and those of every stage's failures, and is the one failure itself or one
    group of them; and it returns exactly when there are none. -/
theorem execute_reports_everything (sc : Scenario σ ι Topo Net Dir Scope) (state : σ) :
    let body := lifecycle sc state
    let (raised, c) := execute sc state
    let failures := (body.raised.filter fun exc => !exc.isKeyboardInterrupt).toList
      ++ c.attempts.flatMap fun attempt => failuresOf attempt.2
    c.attempts.map (·.1) = applicable body.net.isSome sc.daemonLogCollectionEnabled ∧
      (raised.toList).flatMap Exc.leaves = failures.flatMap Exc.leaves ∧
      Reports failures raised ∧
      (raised = none ↔ failures.flatMap Exc.leaves = []) := by
  have hcollected : Collected (cleanup sc (lifecycle sc state)) := cleanup_collected sc _
  have hreports := propagateFailures_spec (primaryExc (lifecycle sc state).raised)
    (cleanup sc (lifecycle sc state)).cleanupFailures
  rw [hcollected] at hreports
  have hleaves := reports_leaves hreports
  refine ⟨cleanup_stages sc _, hleaves, hreports, ?_⟩
  rw [← primaryExc, ← hleaves]
  constructor
  · intro hnone
    rw [hnone]
    rfl
  · intro hnil
    cases hraised : propagateFailures (primaryExc (lifecycle sc state).raised)
        (cleanup sc (lifecycle sc state)).cleanupFailures with
    | none => rfl
    | some exc =>
      rw [hraised, Option.toList_some, List.flatMap_singleton] at hnil
      exact absurd hnil (Exc.leaves_ne_nil exc)

end Proof
end CeforeEmu
