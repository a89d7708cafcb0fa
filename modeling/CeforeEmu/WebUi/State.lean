import Mathlib.Data.List.Dedup
import Mathlib.Data.List.Sort
import CeforeEmu.Lib.Dict
import CeforeEmu.Lib.Window
import CeforeEmu.Runtime.ResultsSink

/-!
# The state of the dashboard

`webui/state.py`. Every callback runs under one lock, so what the dashboard has seen is a list of
callbacks. Times are a parameter `τ`; the success rate is left to whoever divides the two counts, and
the topology is drawn once.
-/

set_option autoImplicit false

namespace CeforeEmu
namespace WebUi

open CeforeEmu.Lib CeforeEmu.Runtime

def maxOperations : ℕ := 1000

def maxHistory : ℕ := 300

/-- The state of one host. -/
structure HostPanel where
  lastCefstatus : String
  lastCsmgrstatus : String
  cefnetdOutcome : Option String
  csmgrdOutcome : Option String
  isCache : Bool
  deriving DecidableEq, Repr

/-- A row of `_operations`. -/
structure Operation where
  ts : Option String
  opType : String
  host : Option Int
  uri : Option String
  success : Option Bool
  exitCode : Option Int
  downHosts : List Int
  phase : Option String
  deriving DecidableEq, Repr

/-- A point of `_success_history`. -/
structure SuccessPoint (τ : Type) where
  elapsed : τ
  total : ℕ
  success : ℕ
  deriving DecidableEq, Repr

structure DashboardState (τ : Type) where
  hosts : Dict Int HostPanel
  operations : List Operation
  successHistory : List (SuccessPoint τ)

/-- The keys that `record_monitor` reads of a record. -/
structure MonitorRecord where
  type : String
  host : Option Int
  output : String
  outcome : Option String
  deriving DecidableEq, Repr

section Callbacks

variable {τ : Type}

/-- `DashboardState(...)`. -/
def DashboardState.init (hostCount : ℕ) (cacheNodes : List Int) : DashboardState τ where
  hosts := (List.range hostCount).map fun i : ℕ => ((i : Int), ⟨"", "", none, none, (i : Int) ∈ cacheNodes⟩)
  operations := []
  successHistory := []

/-- The row for a record of the sink; what an event record does not have is `None`. -/
def operationOf : ResultsRecord → Operation
  | .content opType ts phase host uri exitCode downHosts success =>
      ⟨some ts, opType, some host, some uri, success, exitCode, downHosts, some phase⟩
  | .event _ ts host success => ⟨some ts, "event", host, none, some success, none, [], none⟩

/-- `ops`: the retrievals. -/
def retrievals (operations : List Operation) : List Operation :=
  operations.filter fun o => o.opType = "get" ∨ o.opType = "sub"

def successPoint (elapsed : τ) (operations : List Operation) : SuccessPoint τ :=
  ⟨elapsed, (retrievals operations).length,
    ((retrievals operations).filter fun o => o.success = some true).length⟩

/-- What `record_monitor` does to the panel of the host. -/
def HostPanel.observe (panel : HostPanel) (record : MonitorRecord) : HostPanel :=
  if record.type = "cefstatus" then
    { panel with lastCefstatus := record.output, cefnetdOutcome := record.outcome }
  else if record.type = "csmgrstatus" then
    { panel with lastCsmgrstatus := record.output, csmgrdOutcome := record.outcome }
  else panel

/-- `record_monitor`. -/
def recordMonitor (s : DashboardState τ) (record : MonitorRecord) : DashboardState τ :=
  match record.host with
  | none => s
  | some host =>
      match s.hosts.get? host with
      | none => s
      | some panel => { s with hosts := s.hosts.set host (panel.observe record) }

/-- `record_operation`. -/
def recordOperation (s : DashboardState τ) (elapsed : τ) (result : ResultsRecord) :
    DashboardState τ :=
  let operations := pushBounded maxOperations s.operations (operationOf result)
  { s with
    operations := operations
    successHistory := pushBounded maxHistory s.successHistory (successPoint elapsed operations) }

/-- `record_launch`. -/
def recordLaunch (s : DashboardState τ) (opType : String) (host : Int) (uri : String) :
    DashboardState τ :=
  { s with
    operations := pushBounded maxOperations s.operations
      ⟨none, opType, some host, some uri, none, none, [], none⟩ }

/-- A callback. -/
inductive Callback (τ : Type) where
  | monitor (record : MonitorRecord)
  | operation (elapsed : τ) (result : ResultsRecord)
  | launch (opType : String) (host : Int) (uri : String)

def DashboardState.receive (s : DashboardState τ) : Callback τ → DashboardState τ
  | .monitor record => recordMonitor s record
  | .operation elapsed result => recordOperation s elapsed result
  | .launch opType host uri => recordLaunch s opType host uri

/-- A host in a snapshot. -/
structure HostView where
  up : Bool
  isCache : Bool
  cefnetdOk : Bool
  csmgrdOk : Bool
  lastCefstatus : String
  lastCsmgrstatus : String
  deriving DecidableEq, Repr

structure Snapshot (τ : Type) where
  hosts : Dict Int HostView
  operations : List Operation
  successHistory : List (SuccessPoint τ)
  downHosts : List Int

/-- `snapshot`, with what the flap state's getter answered. -/
def DashboardState.snapshot (s : DashboardState τ) (downList : List Int) : Snapshot τ where
  hosts := s.hosts.map fun e =>
    (e.1, ⟨e.1 ∉ downList, e.2.isCache, e.2.cefnetdOutcome = some "ok", e.2.csmgrdOutcome = some "ok",
      e.2.lastCefstatus, e.2.lastCsmgrstatus⟩)
  operations := s.operations.rtake 200
  successHistory := s.successHistory.rtake 300
  downHosts := downList.dedup.insertionSort (· ≤ ·)

end Callbacks

end WebUi
end CeforeEmu
