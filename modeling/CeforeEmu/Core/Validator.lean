import CeforeEmu.Core.ConfigRules

/-!
# `validate_config`

`core/config/validator.py`: all rules, in the order their messages come in. The result is the list
of messages, unless looking at a value raises.
-/

set_option autoImplicit false

namespace CeforeEmu
namespace Core

open Lib

variable {τ : Type} [IntCast τ] [DecidableEq τ] [LT τ] [DecidableLT τ] [LE τ] [DecidableLE τ]
  [FloatFacts τ]

/-- The `ctx` of `_validate_events`. -/
def eventContext (config : Mapping τ) : EventCheckContext τ where
  hostCount := knownHosts config
  noCli := config.get? "no_cli"
  resultsJson := config.get? "results_json"
  hostApps := config.get? "host_apps"

/-- The loop of `_validate_events`, from index `idx` on. -/
def eventListErrors (checks : EventChecks τ) : Nat → List (Value τ) → Except PyErr (List String)
  | _, [] => .ok []
  | idx, v :: rest =>
      let first : Except PyErr (List String) :=
        match v with
        | .dict event => eventErrors checks idx event
        | _ => .ok ["events[" ++ toString idx ++ "] must be a dict"]
      match first with
      | .error err => .error err
      | .ok errors =>
          match eventListErrors checks (idx + 1) rest with
          | .error err => .error err
          | .ok more => .ok (errors ++ more)

/-- `_validate_events`. -/
def eventsErrors (config : Mapping τ) : Except PyErr (List String) :=
  match config.get? "events" with
  | none => .ok []
  | some (.list events) => eventListErrors (eventChecks (eventContext config)) 0 events
  | some _ => .ok ["events must be a list"]

/-- `validate_config`. -/
def validateConfig (ip : IpTexts) (config : Mapping τ) : Except Fault (List String) :=
  match linksErrors config with
  | .error err => .error err
  | .ok links =>
      match eventsErrors config with
      | .error err => .error (.raised err)
      | .ok events =>
          match debugErrors config with
          | .error err => .error (.raised err)
          | .ok debug =>
              .ok (flatKeyErrors config
                ++ hostDegreeErrors config
                ++ legacyLayoutErrors config
                ++ cefnetdTimeoutErrors config
                ++ cacheConfigErrors config
                ++ forwardingConfigErrors config
                ++ failureScenarioErrors config
                ++ bridgeErrors ip config
                ++ links
                ++ prefixRoutesErrors config
                ++ warmupGetErrors config
                ++ events
                ++ monitoringErrors config
                ++ hostAppsErrors config
                ++ addressingErrors ip config
                ++ routingErrors config
                ++ debug)

end Core
end CeforeEmu
