import CeforeEmu.Core.EventValidators
import CeforeEmu.Core.LinkRules

/-!
# The rules of the structured keys

What `validate_config` (`core/config/validator.py`) asks of each key whose value is a list or a
mapping, events and links apart. Every rule looks at its key, and reports; the only one that can
fail is the one on `debug`, which looks its artifacts up in a set.

Whether a text is an address is the standard library's to say (`ipaddress`), and a parameter.
-/

set_option autoImplicit false

namespace CeforeEmu
namespace Core

open Lib

/-- What is asked of `ipaddress`. -/
structure IpTexts where
  /-- `ip_interface(text)` does not raise. -/
  interfaceOk : String → Bool
  /-- `ip_network(text, strict=False).prefixlen`, unless that raises. -/
  prefixlen? : String → Option Nat

variable {τ : Type} [IntCast τ] [DecidableEq τ] [LT τ] [DecidableLT τ] [LE τ] [DecidableLE τ]
  [FloatFacts τ]

/-- The loop over the entries of a list of mappings. -/
def entryErrors (path : String) (rules : Mapping τ → String → List String)
    (entries : List (Value τ)) : List String :=
  entries.zipIdx.flatMap fun e =>
    let entryPath := path ++ "[" ++ toString e.2 ++ "]"
    match e.1 with
    | .dict entry => rules entry entryPath
    | _ => [entryPath ++ " must be a dict"]

/-- A key that should be a mapping. -/
def dictKeyErrors (config : Mapping τ) (key : String) (rules : Mapping τ → List String) :
    List String :=
  match config.get? key with
  | none => []
  | some (.dict d) => rules d
  | some _ => [key ++ " must be a dict"]

/-- A key that should be a list of mappings. -/
def listKeyErrors (config : Mapping τ) (key : String) (path : String)
    (rules : Mapping τ → String → List String) : List String :=
  match config.get? key with
  | none => []
  | some (.list entries) => entryErrors path rules entries
  | some _ => [path ++ " must be a list"]

/-! ## Scalars with rules of their own -/

/-- The bounds of the host degree against each other; a minimum that is no integer counts as 1. -/
def hostDegreeErrors (config : Mapping τ) : List String :=
  let minVal : Int :=
    match config.get? "host_degree_min" with
    | some (.int n) => n
    | _ => 1
  match config.get? "host_degree_max" with
  | some (.int n) => if n < minVal then ["host_degree_max must be >= host_degree_min"] else []
  | _ => []

def legacyLayoutErrors (config : Mapping τ) : List String :=
  fieldErrors config "legacy_layout" (fun _ => false)
    "legacy_layout has been removed; use output_dir and num instead"

def cefnetdTimeoutErrors (config : Mapping τ) : List String :=
  fieldErrors config "cefnetd_timeout" Value.isPositive "cefnetd_timeout must be a positive number"

/-! ## Caches and forwarding -/

/-- The settings a cache has, by default or at one node. -/
def cacheSettingErrors (m : Mapping τ) (path : String) : List String :=
  fieldErrors m "capacity" (Value.intAtLeast 0) (path ++ ".capacity must be an integer >= 0")
    ++ fieldErrors m "default_rct_ms" (Value.intAtLeast 1000)
        (path ++ ".default_rct_ms must be an integer >= 1000")
    ++ fieldErrors m "algorithm" (Value.isOneOf ["LRU", "LFU", "FIFO", "None"])
        (path ++ ".algorithm must be one of: LRU, LFU, FIFO, None")
    ++ fieldErrors m "type" (Value.isOneOf ["memory", "filesystem"])
        (path ++ ".type must be one of: memory, filesystem")

def cacheDefaultErrors (cc : Mapping τ) : List String :=
  match cc.get? "default" with
  | none => []
  | some (.dict d) =>
      fieldErrors d "count" (Value.intAtLeast 0) "cache_config.default.count must be an integer >= 0"
        ++ cacheSettingErrors d "cache_config.default"
  | some _ => ["cache_config.default must be a dict"]

def cacheNodeErrors (entry : Mapping τ) (path : String) : List String :=
  fieldErrors entry "id" (fun v => v.isInt || v.isListOf Value.isInt)
      (path ++ ".id must be an integer or list of integers")
    ++ cacheSettingErrors entry path

/-- `_validate_cache_config`. -/
def cacheConfigErrors (config : Mapping τ) : List String :=
  dictKeyErrors config "cache_config" fun cc =>
    fieldErrors cc "strategy" (Value.isOneOf ["k_centers", "manual", "degree_based", "random"])
        "cache_config.strategy must be one of: k_centers, manual, degree_based, random"
      ++ cacheDefaultErrors cc
      ++ listKeyErrors cc "nodes" "cache_config.nodes" cacheNodeErrors

/-- `FORWARDING_STRATEGY_CHOICES`. -/
def forwardingStrategyChoices : List String := ["default", "flooding", "shortest_path"]

def forwardingNodeErrors (entry : Mapping τ) (path : String) : List String :=
  fieldErrors entry "id" (Value.isListOf Value.isInt) (path ++ ".id must be a list of integers")
    ++ requiredErrors entry "strategy" (path ++ ".strategy is required")
        (Value.isOneOf forwardingStrategyChoices)
        (path ++ ".strategy must be one of: " ++ ", ".intercalate forwardingStrategyChoices)

/-- `_validate_forwarding_config`. -/
def forwardingConfigErrors (config : Mapping τ) : List String :=
  dictKeyErrors config "forwarding_config" fun fc =>
    if fc.isEmpty then ["forwarding_config must not be empty"]
    else fieldErrors fc "default" (Value.isOneOf forwardingStrategyChoices)
          ("forwarding_config.default must be one of: "
            ++ ", ".intercalate forwardingStrategyChoices)
      ++ listKeyErrors fc "nodes" "forwarding_config.nodes" forwardingNodeErrors

/-! ## Failures -/

/-- The four numbers of a descriptor; null counts as left out. -/
def flapNumberErrors (path : String) (descriptor : Mapping τ) (field : String) : List String :=
  match descriptor.get? field with
  | none => []
  | some .null => []
  | some (.int n) => if n < 0 then [path ++ "." ++ field ++ " must be an integer >= 0"] else []
  | some _ => [path ++ "." ++ field ++ " must be an integer"]

/-- `_validate_flap_descriptor`. -/
def flapDescriptorErrors (path : String) (descriptor : Mapping τ) (allowTarget : Bool)
    (allowPublishers : Bool) : List String :=
  (["interval", "duration"].flatMap fun field : String =>
      fieldErrors descriptor field (fun v => ¬ v.isNull)
        (path ++ "." ++ field ++ " must not be null"))
    ++ (["interval", "duration", "count", "stagger"].flatMap fun field : String =>
        flapNumberErrors path descriptor field)
    ++ fieldErrors descriptor "exclude" (fun v => v.isNull || v.isListOf Value.isInt)
        (path ++ ".exclude must be a list of integers")
    ++ (if allowTarget then
          fieldErrors descriptor "target" (fun v => v.isNull || v.isListOf Value.isInt)
            (path ++ ".target must be a list of integers")
        else [])
    ++ (if allowPublishers then
          fieldErrors descriptor "allow_publishers" (fun v => v.isNull || v.isBool)
            (path ++ ".allow_publishers must be a boolean")
        else [])

def simpleFailureErrors (fs : Mapping τ) : List String :=
  match fs.get? "simple" with
  | none => ["failure_scenarios with strategy 'simple' requires 'simple' block"]
  | some .null => ["failure_scenarios with strategy 'simple' requires 'simple' block"]
  | some (.dict simple) => flapDescriptorErrors "failure_scenarios.simple" simple false false
  | some _ => ["failure_scenarios.simple must be a dict"]

def cycleFailureErrors (fs : Mapping τ) (strategy : Value τ) : List String :=
  let requires := "failure_scenarios with strategy '" ++ strategy.text ++ "' requires "
  match fs.get? "cycles" with
  | none => [requires ++ "'cycles' list"]
  | some .null => [requires ++ "'cycles' list"]
  | some (.list []) => [requires ++ "at least one cycle"]
  | some (.list cycles) =>
      entryErrors "failure_scenarios.cycles"
        (fun cycle path => flapDescriptorErrors path cycle true true) cycles
  | some _ => ["failure_scenarios.cycles must be a list"]

/-- `_validate_failure_scenarios`. -/
def failureScenarioErrors (config : Mapping τ) : List String :=
  dictKeyErrors config "failure_scenarios" fun fs =>
    let strategy := (fs.get? "strategy").getD (.str "simple")
    (if strategy.isOneOf ["simple", "cyclic", "random", "manual"] then []
      else ["failure_scenarios.strategy must be one of: simple, cyclic, random, manual"])
      ++ if strategy.isOneOf ["simple"] then simpleFailureErrors fs
         else cycleFailureErrors fs strategy

/-! ## Bridges -/

/-- A switch that the topology cannot have. -/
def bridgeSwitchRangeErrors (config : Mapping τ) (path : String) (switch : Int) : List String :=
  match config.get? "links" with
  | some (.list links) =>
      if (links.length : Int) ≤ switch then
        [path ++ ".switch is out-of-range: " ++ toString switch ++ " (links creates "
          ++ toString links.length ++ " switches)"]
      else []
  | _ =>
      match config.get? "switches" with
      | some (.int switches) =>
          if switches ≤ switch then
            [path ++ ".switch is out-of-range: " ++ toString switch ++ " (switches: "
              ++ toString switches ++ ")"]
          else []
      | _ => []

def bridgeSwitchErrors (config : Mapping τ) (bridge : Mapping τ) (path : String) : List String :=
  match bridge.get? "switch" with
  | none => [path ++ " missing required field 'switch'"]
  | some (.int switch) =>
      if switch < 0 then [path ++ ".switch must be a non-negative integer"]
      else bridgeSwitchRangeErrors config path switch
  | some _ => [path ++ ".switch must be a non-negative integer"]

def bridgeRootIpErrors (ip : IpTexts) (bridge : Mapping τ) (path : String) : List String :=
  match bridge.get? "root_ip" with
  | none => [path ++ " missing required field 'root_ip'"]
  | some (.str rootIp) =>
      if rootIp = "auto" then []
      else if ¬ textContains rootIp "/" then
        [path ++ ".root_ip must be CIDR form (e.g. '10.0.0.1/24') or 'auto'; got "
          ++ strRepr rootIp]
      else if ip.interfaceOk rootIp then []
      else [path ++ ".root_ip is not a valid CIDR address: " ++ strRepr rootIp]
  | some _ => [path ++ ".root_ip must be a string"]

/-- `_validate_bridges`. -/
def bridgeErrors (ip : IpTexts) (config : Mapping τ) : List String :=
  listKeyErrors config "bridges" "bridges" fun bridge path =>
    bridgeSwitchErrors config bridge path
      ++ bridgeRootIpErrors ip bridge path
      ++ requiredErrors bridge "local_routes" (path ++ " missing required field 'local_routes'")
          Value.isStr (path ++ ".local_routes must be a string (e.g. '192.168.0.0/16')")
      ++ fieldErrors bridge "nat" Value.isBool (path ++ ".nat must be a boolean")
      ++ fieldErrors bridge "nat_out" Value.isStr (path ++ ".nat_out must be a string")

/-! ## Prefix routes -/

/-- A `ccnx:/` URI that names more than the root. -/
def isPrefixKey : Key τ → Bool
  | .str k => "ccnx:/".toList.isPrefixOf k.toList ∧ k ≠ "ccnx:/"
  | _ => false

def prefixRouteErrors (hostCount : Option Int) (key : Key τ) (v : Value τ) : List String :=
  let path := "prefix_routes[" ++ key.repr ++ "]"
  (if isPrefixKey key then []
    else ["prefix_routes key " ++ key.repr ++ " must be a non-empty ccnx:/ URI string"])
    ++ match v with
      | .int host => linkEndErrors path hostCount host
      | _ => [path ++ " must be an integer host index"]

/-- `_validate_prefix_routes`. -/
def prefixRoutesErrors (config : Mapping τ) : List String :=
  match config.get? "prefix_routes" with
  | none => []
  | some (.dict routes) =>
      routes.flatMap fun e => prefixRouteErrors (knownHosts config) e.1 e.2
  | some _ => ["prefix_routes must be a mapping of ccnx:/ prefix to host index"]

/-! ## Host applications -/

/-- `_HOST_APP_KEYS`, sorted. -/
def hostAppKeys : List String := ["argv", "cwd", "env", "hosts", "log"]

/-- `hosts` of an entry, and whether it selects more than one host. -/
def hostAppHostsErrors (hostCount : Option Int) (entry : Mapping τ) (path : String) :
    List String × Bool :=
  match entry.get? "hosts" with
  | none => ([path ++ " missing required field 'hosts'"], false)
  | some v =>
      match v with
      | .list hosts =>
          if hosts.all Value.isInt then
            (hostIndexErrors (path ++ ".hosts") hostCount hosts, 1 < hosts.length)
          else ([path ++ ".hosts must be 'all' or a list of integers"], false)
      | v =>
          if v.isOneOf ["all"] then ([], true)
          else ([path ++ ".hosts must be 'all' or a list of integers"], false)

/-- A non-empty list of strings. -/
def isArgv : Value τ → Bool
  | .list argv => !argv.isEmpty && argv.all Value.isStr
  | _ => false

def hostAppLogErrors (multiHost : Bool) (entry : Mapping τ) (path : String) : List String :=
  match entry.get? "log" with
  | none => []
  | some (.str log) =>
      let varies := ["\x7bnode\x7d", "\x7bnode_dir\x7d", "\x7bcefore_conf_dir\x7d"].any
        fun placeholder => textContains log placeholder
      if multiHost ∧ ¬ varies then
        [path ++ ".log must contain one of \x7bnode\x7d, \x7bnode_dir\x7d, \x7bcefore_conf_dir\x7d "
          ++ "when hosts is 'all' or more than one host"]
      else []
  | some _ => [path ++ ".log must be a string"]

/-- `_POSIX_ENV_KEY`: a letter or underscore, then letters, digits and underscores. -/
def isPosixName (name : String) : Bool :=
  match name.toList with
  | [] => false
  | c :: cs =>
      let isLetter := fun c : Char => c.isAlpha || c = '_'
      isLetter c && cs.all fun c => isLetter c || c.isDigit

def hostAppEnvErrors (entry : Mapping τ) (path : String) : List String :=
  match entry.get? "env" with
  | none => []
  | some (.dict env) =>
      if ¬ (Value.dict env).isTextDict then
        [path ++ ".env must be a dict of string keys to string values"]
      else
        let names := env.map fun e : Key τ × Value τ => e.1.text
        let badKeys := (names.filter fun name => ¬ isPosixName name).insertionSort (· ≤ ·)
        if badKeys.isEmpty then []
        else [path ++ ".env has invalid keys: " ++ ", ".intercalate badKeys
          ++ " (keys must match [A-Za-z_][A-Za-z0-9_]*)"]
  | some _ => [path ++ ".env must be a dict of string keys to string values"]

/-- `_validate_host_apps`. -/
def hostAppsErrors (config : Mapping τ) : List String :=
  listKeyErrors config "host_apps" "host_apps" fun entry path =>
    let unknown := unknownKeys entry hostAppKeys
    let hosts := hostAppHostsErrors (knownHosts config) entry path
    (if unknown.isEmpty then []
      else [path ++ " has unsupported keys: " ++ ", ".intercalate unknown
        ++ " (allowed: " ++ ", ".intercalate hostAppKeys ++ ")"])
      ++ hosts.1
      ++ requiredErrors entry "argv" (path ++ " missing required field 'argv'") isArgv
          (path ++ ".argv must be a non-empty list of strings")
      ++ fieldErrors entry "cwd" Value.isStr (path ++ ".cwd must be a string")
      ++ hostAppLogErrors hosts.2 entry path
      ++ hostAppEnvErrors entry path

/-! ## Warm-up and monitoring -/

def warmupGetErrors (config : Mapping τ) : List String :=
  listKeyErrors config "warmup_gets" "warmup_gets" fun entry path =>
    requiredErrors entry "host" (path ++ ".host must be an integer") Value.isInt
        (path ++ ".host must be an integer")
      ++ requiredErrors entry "uri" (path ++ ".uri must be a string") Value.isStr
          (path ++ ".uri must be a string")

/-- `hosts` of a monitor target. -/
def monitorHostsErrors (hostCount : Option Int) (target : Mapping τ) (path : String) :
    List String :=
  match target.get? "hosts" with
  | none => []
  | some v =>
      if v.isOneOf ["all", "cache"] then []
      else
        match v with
        | .list hosts =>
            if hosts.all Value.isInt then hostIndexErrors (path ++ ".hosts") hostCount hosts
            else [path ++ ".hosts must be 'all', 'cache', or a list of integers"]
        | _ => [path ++ ".hosts must be 'all', 'cache', or a list of integers"]

/-- What a `ccninfo` target needs besides. -/
def monitorCcninfoErrors (target : Mapping τ) (path : String) : List String :=
  (match target.get? "uri" with
    | none => [path ++ " missing required field 'uri'"]
    | some (.str uri) =>
        if isBlank uri then [path ++ ".uri must be a non-empty/non-whitespace string"] else []
    | some _ => [path ++ ".uri must be a string"])
    ++ ccninfoOptionErrors path target
    ++ (["expected_responder", "expected_route"].flatMap fun field : String =>
        fieldErrors target field (fun _ => false)
          (path ++ "." ++ field
            ++ " is not supported on monitor targets (assert options are event-only)"))

def isNonEmptyText : Value τ → Bool
  | .str s => s ≠ ""
  | _ => false

def monitorTargetErrors (hostCount : Option Int) (target : Mapping τ) (path : String) :
    List String :=
  requiredErrors target "type" (path ++ " missing required field 'type'")
      (Value.isOneOf ["cefstatus", "csmgrstatus", "ccninfo"])
      (path ++ ".type must be one of: cefstatus, csmgrstatus, ccninfo")
    ++ fieldErrors target "target_host" isNonEmptyText
        (path ++ ".target_host must be a non-empty string")
    ++ fieldErrors target "command_timeout" (fun _ => false)
        (path ++ ".command_timeout is a monitoring-level key, not a per-target key")
    ++ monitorHostsErrors hostCount target path
    ++ match target.get? "type" with
      | some (.str t) => if t = "ccninfo" then monitorCcninfoErrors target path else []
      | _ => []

/-- The `monitoring` section. -/
def monitoringErrors (config : Mapping τ) : List String :=
  dictKeyErrors config "monitoring" fun mon =>
    fieldErrors mon "interval" Value.isPositiveFinite
        "monitoring.interval must be a positive finite number"
      ++ fieldErrors mon "command_timeout" Value.isPositiveFinite
          "monitoring.command_timeout must be a positive finite number"
      ++ listKeyErrors mon "targets" "monitoring.targets"
          (monitorTargetErrors (knownHosts config))

/-! ## Addressing, routing and debug output -/

def addressingErrors (ip : IpTexts) (config : Mapping τ) : List String :=
  dictKeyErrors config "addressing" fun addr =>
    match addr.get? "network_cidr" with
    | none => []
    | some (.str cidr) =>
        match ip.prefixlen? cidr with
        | none => ["addressing.network_cidr must be a valid CIDR (got " ++ strRepr cidr ++ ")"]
        | some len =>
            if len = 16 then []
            else ["addressing.network_cidr must be an IPv4 /16 network (got /" ++ toString len ++ ")"]
    | some _ => ["addressing.network_cidr must be a string"]

def routingErrors (config : Mapping τ) : List String :=
  dictKeyErrors config "routing" fun routing =>
    fieldErrors routing "strategy" (Value.isOneOf ["dijkstra", "shortest_path", "ecmp"])
        "routing.strategy must be one of ('dijkstra', 'shortest_path', 'ecmp')"
      ++ fieldErrors routing "k" (Value.intAtLeast 1) "routing.k must be a positive integer"

/-- `art not in _valid_artifacts`, for each of them: a set is asked, so what cannot be hashed
    raises. -/
def artifactErrors : List (Value τ) → Except PyErr (List String)
  | [] => .ok []
  | art :: rest =>
      match unhashable? (some art) with
      | some err => .error err
      | none =>
          match artifactErrors rest with
          | .error err => .error err
          | .ok errors =>
              .ok ((if art.isOneOf ["node_dirs", "fib_dump"] then []
                else ["debug.artifacts contains unknown artifact: " ++ art.repr]) ++ errors)

def debugErrors (config : Mapping τ) : Except PyErr (List String) :=
  match config.get? "debug" with
  | none => .ok []
  | some (.bool _) => .ok []
  | some (.dict debug) =>
      let subdir := fieldErrors debug "output_subdir" Value.isStr
        "debug.output_subdir must be a string"
      match Dict.get? debug "artifacts" with
      | none => .ok subdir
      | some (.list artifacts) =>
          match artifactErrors artifacts with
          | .error err => .error err
          | .ok errors => .ok (errors ++ subdir)
      | some _ => .ok ("debug.artifacts must be a list" :: subdir)
  | some _ => .ok ["debug must be a boolean or dict"]

end Core
end CeforeEmu
