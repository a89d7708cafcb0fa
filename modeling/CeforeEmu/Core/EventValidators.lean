import CeforeEmu.Core.EventRules
import CeforeEmu.Core.FieldChecks

/-!
# The rules of each event type

`_EVENT_VALIDATORS` (`core/config/validator.py`): what is asked of the fields of an event of each
type, with the options that several types share. A validator returns messages; the repeat
allowlist that some of them consult is with the rules for every type, so `compute_call`, which
goes on after it, is in two parts.
-/

set_option autoImplicit false

namespace CeforeEmu
namespace Core

open Lib

variable {τ : Type} [IntCast τ] [DecidableEq τ] [LT τ] [DecidableLT τ] [LE τ] [DecidableLE τ]
  [FloatFacts τ]

/-- `_EventCheckContext`: what the rules read of the configuration besides the event. The host
    count is only ever used when it is an integer. -/
structure EventCheckContext (τ : Type) where
  hostCount : Option Int
  noCli : Option (Value τ)
  resultsJson : Option (Value τ)
  hostApps : Option (Value τ)

/-! ## Options -/

/-- `VALID_ALGOS`. -/
def validAlgos : List String := ["crc32c", "rsa-sha256"]

/-- `_validate_number_option`; the minimum is given with how it is printed. -/
def numberOptionErrors (path : String) (options : Mapping τ) (field : String) (minimum : τ)
    (text : String) : List String :=
  fieldErrors options field (Value.numberAtLeast minimum)
    (path ++ "." ++ field ++ " must be a number >= " ++ text)

/-- `_validate_number_option` with `integer=True`. -/
def integerOptionErrors (path : String) (options : Mapping τ) (field : String) (minimum : Int) :
    List String :=
  fieldErrors options field (Value.intAtLeast minimum)
    (path ++ "." ++ field ++ " must be a integer >= " ++ toString minimum)

/-- `_validate_algo_option`. -/
def algoOptionErrors (path : String) (options : Mapping τ) (field : String) : List String :=
  fieldErrors options field (Value.isOneOf validAlgos)
    (path ++ "." ++ field ++ " must be one of: " ++ ", ".intercalate validAlgos)

/-- `_validate_put_options`. -/
def putOptionErrors (path : String) (event : Mapping τ) : List String :=
  numberOptionErrors path event "rate" FloatFacts.milli "0.001"
    ++ (["expiry", "cache_time"].flatMap fun field : String =>
        numberOptionErrors path event field ((1 : Int) : τ) "1")
    ++ integerOptionErrors path event "block_size" 60
    ++ integerOptionErrors path event "port_num" 1
    ++ algoOptionErrors path event "valid_algo"

/-- `_validate_get_options`. -/
def getOptionErrors (path : String) (event : Mapping τ) : List String :=
  fieldErrors event "owner_only" Value.isBool (path ++ ".owner_only must be a boolean")
    ++ (["chunk", "pipeline", "port_num"].flatMap fun field : String =>
        integerOptionErrors path event field 1)
    ++ fieldErrors event "sg" Value.isBool
        (path ++ ".sg must be a boolean (true to send Long Life Interest)")
    ++ algoOptionErrors path event "valid_algo"

/-- `_PUTFILE_OPTION_KEYS`, sorted. -/
def putfileOptionKeys : List String :=
  ["block_size", "cache_time", "expiry", "port_num", "rate", "valid_algo"]

/-- `_validate_putfile_options`. -/
def putfileOptionErrors (path : String) (event : Mapping τ) : List String :=
  let optionPath := path ++ ".pub_opts"
  match event.get? "pub_opts" with
  | none => []
  | some (.dict options) =>
      (if (unknownKeys options putfileOptionKeys).isEmpty then []
        else [optionPath ++ " has unsupported keys: "
          ++ ", ".intercalate (unknownKeys options putfileOptionKeys)
          ++ " (allowed: " ++ ", ".intercalate putfileOptionKeys ++ ")"])
        ++ putOptionErrors optionPath options
  | some _ => [optionPath ++ " must be a dict"]

/-- The half of `_validate_pubsub_options` for `pubsub_pub`. -/
def pubOptionErrors (path : String) (options : Mapping τ) : List String :=
  numberOptionErrors path options "rate" FloatFacts.milli "0.001"
    ++ (["expiry", "cache_time"].flatMap fun field : String =>
        numberOptionErrors path options field ((1 : Int) : τ) "1")
    ++ numberOptionErrors path options "lifetime" ((0 : Int) : τ) "0"
    ++ (["block_size", "port_num"].flatMap fun field : String =>
        integerOptionErrors path options field 1)
    ++ integerOptionErrors path options "retry_limit" 0
    ++ fieldErrors options "target" (Value.isOneOf ["trg", "ref", "both"])
        (path ++ ".target must be one of: trg, ref, both")
    ++ (["ti_valid_algo", "rd_valid_algo"].flatMap fun field : String =>
        algoOptionErrors path options field)

/-- The half of `_validate_pubsub_options` for `pubsub_sub`. -/
def subOptionErrors (path : String) (options : Mapping τ) : List String :=
  numberOptionErrors path options "wait" ((0 : Int) : τ) "0"
    ++ (["pipeline", "port_num"].flatMap fun field : String =>
        integerOptionErrors path options field 1)
    ++ (["ri_valid_algo", "td_valid_algo"].flatMap fun field : String =>
        algoOptionErrors path options field)

/-- `_validate_pubsub_options`: anything falsy counts as no options. -/
def pubsubOptionErrors (path : String) (event : Mapping τ) (optionsKey : String)
    (rules : String → Mapping τ → List String) : List String :=
  let optionPath := path ++ "." ++ optionsKey
  match event.get? optionsKey with
  | none => []
  | some v =>
      if ¬ v.truthy then []
      else
        match v with
        | .dict options => rules optionPath options
        | _ => [optionPath ++ " must be a dict"]

/-- `skip_hop >= hop_count`, both integers. -/
def skipsAllHops (options : Mapping τ) : Bool :=
  match options.get? "hop_count", options.get? "skip_hop" with
  | some (.int hops), some (.int skip) => hops ≤ skip
  | _, _ => false

/-- `_validate_ccninfo_options`. -/
def ccninfoOptionErrors (path : String) (options : Mapping τ) : List String :=
  fieldErrors options "cache_info" Value.isBool (path ++ ".cache_info must be a boolean")
    ++ fieldErrors options "owner_only" Value.isBool (path ++ ".owner_only must be a boolean")
    ++ fieldErrors options "hop_count" (Value.intBetween 1 255)
        (path ++ ".hop_count must be an integer 1..255")
    ++ fieldErrors options "skip_hop" (Value.intBetween 1 15)
        (path ++ ".skip_hop must be an integer 1..15")
    ++ (if skipsAllHops options then [path ++ ".skip_hop must be less than hop_count"] else [])
    ++ algoOptionErrors path options "valid_algo"
    ++ fieldErrors options "port_num" (fun _ => false)
        (path ++ ".port_num is not supported for ccninfo (Cefore 0.12.0 parse-order bug: -p is "
          ++ "parsed after cef_client_init, so socket identity always comes from the provisioned "
          ++ ".cefore_env mirror)")

/-! ## Fields several types have -/

/-- `EVENT_SCHEMA[etype].required_fields`. -/
def requiredFields (etype : String) : List String :=
  match eventSchema.get? etype with
  | some spec => spec.requiredFields
  | none => []

/-- `_validate_required_fields`. -/
def requiredFieldErrors (etype : String) (event : Event τ) (path : String) : List String :=
  (requiredFields etype).flatMap fun field : String =>
    if (event.get? field).isSome then [] else [path ++ " missing required field '" ++ field ++ "'"]

/-- `_validate_host_integer`. -/
def hostIntegerErrors (event : Event τ) (path : String) : List String :=
  fieldErrors event "host" Value.isInt (path ++ ".host must be an integer")

/-- `_validate_host_range`. -/
def hostRangeErrors (hostCount : Option Int) (event : Event τ) (path : String) : List String :=
  match event.get? "host", hostCount with
  | some (.int host), some count =>
      if host < 0 ∨ count ≤ host then
        [path ++ ".host is out of range (0.." ++ toString (count - 1) ++ ")"]
      else []
  | _, _ => []

/-- What is said of an index in a list of hosts. -/
def hostIndexErrors (path : String) (hostCount : Option Int) (hosts : List (Value τ)) :
    List String :=
  match hostCount with
  | none => []
  | some count => hosts.flatMap fun host =>
      match host with
      | .int n =>
          if n < 0 ∨ count ≤ n then [path ++ " contains out-of-range host index " ++ toString n]
          else []
      | _ => []

/-- The check on `nodes` that the link events and `bw_set` share. -/
def nodesErrors (hostCount : Option Int) (event : Event τ) (path : String) : List String :=
  match event.get? "nodes" with
  | some (.list nodes) =>
      if nodes.length ≠ 2 then [path ++ ".nodes must be a list of 2 elements"]
      else if ¬ nodes.all Value.isInt then [path ++ ".nodes must be a list of 2 host indices"]
      else hostIndexErrors (path ++ ".nodes") hostCount nodes
  | _ => [path ++ ".nodes must be a list of 2 elements"]

def uriTextErrors (event : Event τ) (path : String) : List String :=
  fieldErrors event "uri" Value.isStr (path ++ ".uri must be a string")

/-! ## Validators -/

/-- `_validate_link_event`. -/
def linkEventErrors (ctx : EventCheckContext τ) (event : Event τ) (path : String) : List String :=
  nodesErrors ctx.hostCount event path

/-- `_validate_bw_set_event`. -/
def bwSetEventErrors (ctx : EventCheckContext τ) (event : Event τ) (path : String) : List String :=
  nodesErrors ctx.hostCount event path
    ++ requiredErrors event "bandwidth" (path ++ " missing required field 'bandwidth'")
        (Value.numberAtLeast ((0 : Int) : τ)) (path ++ ".bandwidth must be a non-negative number")

/-- `normalize_route_protocol`. -/
def normalizeRouteProtocol : Value τ → Except PyErr String
  | .null => .ok "udp"
  | .str protocol =>
      if (stripText protocol).toLower = "udp" then .ok (stripText protocol).toLower
      else .error (.valueError "protocol must be one of: udp")
  | _ => .error (.typeError "protocol must be a string")

def protocolOk (v : Value τ) : Bool :=
  match normalizeRouteProtocol v with
  | .ok _ => true
  | .error _ => false

/-- `_validate_fib_event`. -/
def fibEventErrors (etype : String) (event : Event τ) (path : String) : List String :=
  requiredFieldErrors etype event path
    ++ fieldErrors event "protocol" protocolOk (path ++ ".protocol must be one of: udp")
    ++ hostIntegerErrors event path

/-- `_validate_compute_call_event`, up to the allowlist. -/
def computeCallEventErrors (event : Event τ) (path : String) : List String :=
  requiredFieldErrors "compute_call" event path
    ++ hostIntegerErrors event path
    ++ fieldErrors event "endpoint" Value.isStr (path ++ ".endpoint must be a string")
    ++ fieldErrors event "method" (Value.isOneOf ["GET", "POST"])
        (path ++ ".method must be 'GET' or 'POST'")
    ++ fieldErrors event "timeout" Value.isPositive (path ++ ".timeout must be a positive number")
    ++ (["payload", "output_file", "publish_uri"].flatMap fun field : String =>
        fieldErrors event field Value.isStr (path ++ "." ++ field ++ " must be a string"))
    ++ fieldErrors event "headers" Value.isTextDict
        (path ++ ".headers must be a dict of string keys to string values")
    ++ (if fieldTruthy event "publish_uri" ∧ ¬ fieldTruthy event "output_file" then
          [path ++ ".publish_uri requires output_file to be set"]
        else [])

/-- `_validate_compute_call_event`, after the allowlist. -/
def computeCallLaterErrors (event : Event τ) (path : String) : List String :=
  fieldErrors event "publish_timeout" Value.isPositive
      (path ++ ".publish_timeout must be a positive number")
    ++ putfileOptionErrors path event

/-- A repeating put of an automated test run, which has to end. -/
def autotestPutErrors (ctx : EventCheckContext τ) (event : Event τ) (path : String) : List String :=
  match ctx.noCli, ctx.resultsJson with
  | some (.bool true), some resultsJson =>
      if fieldTruthy event "repeat" ∧ resultsJson.truthy then
        [path ++ ".repeat is not supported for autotest put events"]
      else []
  | _, _ => []

/-- `_validate_publication_event`. -/
def publicationEventErrors (ctx : EventCheckContext τ) (etype : String) (event : Event τ)
    (path : String) : List String :=
  requiredFieldErrors etype event path
    ++ hostIntegerErrors event path
    ++ uriTextErrors event path
    ++ fieldErrors event "file" Value.isStr (path ++ ".file must be a string")
    ++ (if etype = "put" then putOptionErrors path event ++ autotestPutErrors ctx event path
        else pubsubOptionErrors path event "pub_opts" pubOptionErrors)

/-- The rule for the URI of a `ccninfo` event, whose log is found by its label. -/
def ccninfoUriErrors (event : Event τ) (path : String) : List String :=
  match event.get? "uri" with
  | none => []
  | some (.str uri) =>
      if safeUriLabel uri = "" then
        [path ++ ".uri must not resolve to an empty log label (e.g. bare 'ccnx:/' root)"]
      else []
  | some _ => [path ++ ".uri must be a string"]

/-- A non-empty list of strings that are not blank. -/
def isRoute : Value τ → Bool
  | .list route => !route.isEmpty && route.all Value.isFilledText
  | _ => false

/-- `_validate_ccninfo_event`. -/
def ccninfoEventErrors (event : Event τ) (path : String) : List String :=
  requiredFieldErrors "ccninfo" event path
    ++ hostIntegerErrors event path
    ++ fieldErrors event "timeout" (fun _ => false)
        (path ++ ".timeout is not a supported ccninfo event option "
          ++ "(ccninfo self-terminates via CCNINFO_REPLY_TIMEOUT)")
    ++ ccninfoUriErrors event path
    ++ ccninfoOptionErrors path event
    ++ fieldErrors event "expected_responder" Value.isFilledText
        (path ++ ".expected_responder must be a non-empty string")
    ++ fieldErrors event "expected_route" isRoute
        (path ++ ".expected_route must be a non-empty list of non-empty strings")

/-- `_validate_get_event`. -/
def getEventErrors (etype : String) (event : Event τ) (path : String) : List String :=
  requiredFieldErrors etype event path
    ++ hostIntegerErrors event path
    ++ uriTextErrors event path
    ++ (if etype = "get" then getOptionErrors path event
        else pubsubOptionErrors path event "sub_opts" subOptionErrors)

/-- The hosts of an entry include the host. -/
def hostsCover (host : Int) : Option (Value τ) → Bool
  | some (.str s) => s = "all"
  | some (.list hosts) => hosts.any fun v => v.pyEq (.int host)
  | _ => false

/-- `_host_apps_covers_host`. -/
def hostAppsCoversHost (hostApps : Option (Value τ)) (host : Int) : Bool :=
  match hostApps with
  | some (.list entries) => entries.any fun entry =>
      match entry with
      | .dict d => hostsCover host (Dict.get? d "hosts")
      | _ => false
  | _ => false

/-- `downtime_s`: finite first, then the bound every number option has. -/
def downtimeErrors (event : Event τ) (path : String) : List String :=
  match event.get? "downtime_s" with
  | none => []
  | some v =>
      if v.isFinite then numberOptionErrors path event "downtime_s" ((0 : Int) : τ) "0"
      else [path ++ ".downtime_s must be a finite number"]

/-- `_validate_host_app_restart_event`. -/
def hostAppRestartEventErrors (ctx : EventCheckContext τ) (event : Event τ) (path : String) :
    List String :=
  requiredFieldErrors "host_app_restart" event path
    ++ hostIntegerErrors event path
    ++ downtimeErrors event path
    ++ (match event.get? "host" with
        | some (.int host) =>
            if hostAppsCoversHost ctx.hostApps host then []
            else [path ++ ".host has no host_apps entry covering it (host_app_restart requires a "
              ++ "host_apps: entry whose hosts includes this host)"]
        | _ => [])

/-- `_EVENT_VALIDATORS`. -/
def eventValidators (ctx : EventCheckContext τ) : Dict String (Event τ → String → List String) :=
  [("link_down", linkEventErrors ctx),
    ("link_up", linkEventErrors ctx),
    ("fib_add", fibEventErrors "fib_add"),
    ("fib_del", fibEventErrors "fib_del"),
    ("fib_enable", fibEventErrors "fib_enable"),
    ("bw_set", bwSetEventErrors ctx),
    ("compute_call", computeCallEventErrors),
    ("put", publicationEventErrors ctx "put"),
    ("get", getEventErrors "get"),
    ("pubsub_pub", publicationEventErrors ctx "pubsub_pub"),
    ("pubsub_sub", getEventErrors "pubsub_sub"),
    ("ccninfo", ccninfoEventErrors),
    ("host_app_restart", hostAppRestartEventErrors ctx)]

/-- The rules of the types, for the loop over the events. -/
def eventChecks (ctx : EventCheckContext τ) : EventChecks τ where
  fields etype event path :=
    match (eventValidators ctx).get? etype with
    | some validator => validator event path
    | none => []
  later etype event path := if etype = "compute_call" then computeCallLaterErrors event path else []
  hostRange event path := hostRangeErrors ctx.hostCount event path

end Core
end CeforeEmu
