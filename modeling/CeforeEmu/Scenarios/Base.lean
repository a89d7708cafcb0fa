import CeforeEmu.Lib.Exceptions

/-!
# The scenario lifecycle

`scenarios/base.py`. A scenario is its hooks, each of which may raise and change the state of the
scenario. `execute` runs the lifecycle, then every cleanup stage behind a guard of its own, and
last raises what failed. The record of the stages it attempts, with what became of each, is kept
beside the failures the code collects.

`daemon_log_collection_enabled` is set when the scenario is made. Log lines are left out.
-/

set_option autoImplicit false

namespace CeforeEmu
namespace Scenarios

open CeforeEmu.Lib

/-- A call that may raise, and leaves a state. -/
abbrev Hook (σ ι α : Type) := σ → Except (Exc ι) α × σ

/-- `(stage, exception)`. -/
abbrev Failure (ι : Type) := String × Exc ι

variable {σ ι α : Type}

/-! ## `_propagate_failures` -/

/-- What is raised, if anything is. -/
def propagateFailures (primaryExc : Option (Exc ι)) (cleanupFailures : List (Failure ι)) :
    Option (Exc ι) :=
  match cleanupFailures, primaryExc with
  | [], primaryExc => primaryExc
  | failures, some primaryExc =>
      some (.baseExceptionGroup "lifecycle failures" (primaryExc :: failures.map (·.2)))
  | [failure], none => some failure.2
  | failures, none =>
      if failures.any fun failure => !failure.2.isException then
        some (.baseExceptionGroup "cleanup failures" (failures.map (·.2)))
      else some (.exceptionGroup "cleanup failures" (failures.map (·.2)))

/-! ## The stages -/

inductive Stage where
  | shutdownRuntimeResources
  | debugPreTeardown
  | teardown
  | debugPostTeardown
  | collectDaemonLogs
  | cleanupAll
  | cleanupNodeDirs
  | writeResults
  deriving DecidableEq, Repr

/-- The name a failure of the stage is recorded under. -/
def Stage.label : Stage → String
  | .shutdownRuntimeResources => "shutdown_runtime_resources"
  | .debugPreTeardown => "debug_pre_teardown"
  | .teardown => "teardown"
  | .debugPostTeardown => "debug_post_teardown"
  | .collectDaemonLogs => "collect_daemon_logs"
  | .cleanupAll => "cleanup_all"
  | .cleanupNodeDirs => "cleanup_node_dirs"
  | .writeResults => "write_results"

/-- The variables of the cleanup, and the record of what was attempted. -/
structure Cleanup (σ ι : Type) where
  state : σ
  cleanupFailures : List (Failure ι)
  attempts : List (Stage × Except (Exc ι) (List (Failure ι)))

/-- One `try` of the cleanup: what the hook returns is added to the failures, or what it raises. -/
def attempt (stage : Stage) (hook : Hook σ ι (List (Failure ι))) (c : Cleanup σ ι) : Cleanup σ ι :=
  match hook c.state with
  | (.ok found, state) =>
      ⟨state, c.cleanupFailures ++ found, c.attempts ++ [(stage, .ok found)]⟩
  | (.error exc, state) =>
      ⟨state, c.cleanupFailures ++ [(stage.label, exc)], c.attempts ++ [(stage, .error exc)]⟩

/-- A hook whose result is not looked at. -/
def quiet (hook : Hook σ ι Unit) : Hook σ ι (List (Failure ι)) := fun state =>
  match hook state with
  | (.ok (), state) => (.ok [], state)
  | (.error exc, state) => (.error exc, state)

/-! ## The lifecycle -/

/-- The hooks of a scenario over its topologies, networks, node directories and log scopes. -/
structure Scenario (σ ι Topo Net Dir Scope : Type) where
  buildTopology : Hook σ ι Topo
  createMininet : Topo → Hook σ ι Net
  start : Net → Hook σ ι Unit
  configure : Net → Hook σ ι Unit
  runExperiment : Net → Hook σ ι Unit
  runMain : Net → Hook σ ι Unit
  shutdownRuntimeResources : Hook σ ι (List (Failure ι))
  collectDebugPreTeardown : Net → Hook σ ι Unit
  teardown : Net → Hook σ ι Unit
  collectDebugPostTeardown : Hook σ ι Unit
  daemonLogCollectionEnabled : Bool
  daemonLogCollectionScope : Hook σ ι (List Scope)
  collectDaemonLogs : List Scope → Hook σ ι Unit
  generatedNodeDirs : σ → List Dir
  cleanupAll : Net → List Dir → Hook σ ι Unit
  cleanupNodeDirs : List Dir → Hook σ ι Unit
  writeResults : Hook σ ι (List (Failure ι))

variable {Topo Net Dir Scope : Type}

def runInOrder : List (Hook σ ι Unit) → Hook σ ι Unit
  | [], state => (.ok (), state)
  | hook :: hooks, state =>
      match hook state with
      | (.ok (), state) => runInOrder hooks state
      | (.error exc, state) => (.error exc, state)

/-- What the body of the `try` comes to: the network, once there is one, and what it raises. -/
structure Body (σ ι Net : Type) where
  net : Option Net
  raised : Option (Exc ι)
  state : σ

/-- The body of the `try`. -/
def lifecycle (sc : Scenario σ ι Topo Net Dir Scope) (state : σ) : Body σ ι Net :=
  match sc.buildTopology state with
  | (.error exc, state) => ⟨none, some exc, state⟩
  | (.ok topo, state) =>
      match sc.createMininet topo state with
      | (.error exc, state) => ⟨none, some exc, state⟩
      | (.ok net, state) =>
          match runInOrder [sc.start net, sc.configure net, sc.runExperiment net, sc.runMain net]
              state with
          | (.error exc, state) => ⟨some net, some exc, state⟩
          | (.ok (), state) => ⟨some net, none, state⟩

/-- `primary_exc`: a `KeyboardInterrupt` is handled. -/
def primaryExc (raised : Option (Exc ι)) : Option (Exc ι) :=
  raised.filter fun exc => !exc.isKeyboardInterrupt

/-- The `try` around the daemon logs. -/
def collectLogs (sc : Scenario σ ι Topo Net Dir Scope) : Hook σ ι Unit := fun state =>
  match sc.daemonLogCollectionScope state with
  | (.error exc, state) => (.error exc, state)
  | (.ok [], state) => (.ok (), state)
  | (.ok scopes, state) => sc.collectDaemonLogs scopes state

/-- The stages between `shutdown_runtime_resources` and `write_results`. -/
def cleanupNet (sc : Scenario σ ι Topo Net Dir Scope) (c : Cleanup σ ι) : Option Net → Cleanup σ ι
  | some net =>
      let c := attempt .debugPreTeardown (quiet (sc.collectDebugPreTeardown net)) c
      let c := attempt .teardown (quiet (sc.teardown net)) c
      let c := attempt .debugPostTeardown (quiet sc.collectDebugPostTeardown) c
      let c :=
        if sc.daemonLogCollectionEnabled then attempt .collectDaemonLogs (quiet (collectLogs sc)) c
        else c
      attempt .cleanupAll (quiet fun state => sc.cleanupAll net (sc.generatedNodeDirs state) state) c
  | none =>
      attempt .cleanupNodeDirs
        (quiet fun state => sc.cleanupNodeDirs (sc.generatedNodeDirs state) state) c

/-- The `finally` block, up to the propagation. -/
def cleanup (sc : Scenario σ ι Topo Net Dir Scope) (body : Body σ ι Net) : Cleanup σ ι :=
  let c := attempt .shutdownRuntimeResources sc.shutdownRuntimeResources ⟨body.state, [], []⟩
  let c := cleanupNet sc c body.net
  attempt .writeResults sc.writeResults c

/-- `execute`: what it raises, if anything, and what it did before. -/
def execute (sc : Scenario σ ι Topo Net Dir Scope) (state : σ) : Option (Exc ι) × Cleanup σ ι :=
  let body := lifecycle sc state
  let c := cleanup sc body
  (propagateFailures (primaryExc body.raised) c.cleanupFailures, c)

end Scenarios
end CeforeEmu
