import CeforeEmu.Core.Value
import CeforeEmu.Lib.Text

/-!
# Verdicts

`core/verdict.py`: what became of one content operation. A factor is known to hold, known not to,
or unknown. The runtime judges from exit codes, artifacts and the log; afterwards only the log is
left, and `fromLog` says no more than the log shows.
-/

set_option autoImplicit false

namespace CeforeEmu
namespace Core

open Lib

def completedMarker : String := "Completed to get all the chunks."

def pubDeliveredMarker : String := "Receive Trigger Data, finish application."

def failurePatterns : List String := ["Could not receive anything", "Received frame ... NG"]

inductive OpType where
  | get
  | put
  | sub
  | pub
  deriving DecidableEq, Repr

structure Verdict where
  opType : OpType
  success : Option Bool
  hasCompletedLog : Option Bool
  hasOutputFile : Option Bool
  exitCode : Option Int
  artifactPath : Option String
  deriving DecidableEq, Repr

def fromRuntimeGet (exitCode : Int) (logText : Text) (outputNonempty : Bool) : Verdict :=
  let hasCompleted := logText.contains completedMarker
  { opType := .get
    success := some (exitCode == 0 && hasCompleted && outputNonempty)
    hasCompletedLog := some hasCompleted
    hasOutputFile := some outputNonempty
    exitCode := some exitCode
    artifactPath := none }

def fromRuntimePut (exitCode : Int) : Verdict :=
  { opType := .put
    success := some (exitCode == 0)
    hasCompletedLog := none
    hasOutputFile := none
    exitCode := some exitCode
    artifactPath := none }

def fromRuntimeSub (returncode : Option Int) (timedOut cancelled outputNonempty : Bool)
    (artifactPath : Option String) : Verdict :=
  let deliveredOk := returncode == some 0 || timedOut || cancelled
  { opType := .sub
    success := some (outputNonempty && deliveredOk)
    hasCompletedLog := none
    hasOutputFile := some outputNonempty
    exitCode := returncode
    artifactPath := artifactPath }

def fromRuntimePub (exitCode : Int) (timedOut : Bool) : Verdict :=
  { opType := .pub
    success := some (exitCode == 0 && !timedOut)
    hasCompletedLog := none
    hasOutputFile := none
    exitCode := some exitCode
    artifactPath := none }

/-- `not text.strip()`. -/
def isEmptyLog (text : Text) : Bool := text.strip.isEmpty

def hasFailurePattern (text : Text) : Bool := failurePatterns.any fun pattern => text.contains pattern

/-- `from_log`, of the commands of `COMMAND_OP_TYPES`. -/
def fromLog (opType : OpType) (text : Text) (fieldsPresent : Option Bool) : Verdict :=
  let hasCompleted := if opType = .get then some (text.contains completedMarker) else none
  let success :=
    if isEmptyLog text then some false
    else if hasFailurePattern text then some false
    else
      match opType with
      | .get => hasCompleted
      | .put => fieldsPresent
      | .pub => if text.contains pubDeliveredMarker then some true else none
      | .sub => none
  { opType := opType
    success := success
    hasCompletedLog := hasCompleted
    hasOutputFile := none
    exitCode := none
    artifactPath := none }

/-! ## Stored verdicts -/

/-- A `Verdict` read back from a record: its `op_type` is whatever is stored there. -/
structure StoredVerdict (τ : Type) where
  opType : Value τ
  success : Option Bool
  hasCompletedLog : Option Bool
  hasOutputFile : Option Bool
  exitCode : Option Int
  artifactPath : Option String

section Stored

variable {τ : Type} [DecidableEq τ]

/-- `_factor`. -/
def storedFactor (record : Mapping τ) (key : String) : Option Bool :=
  match record.get? key with
  | some (.bool b) => some b
  | _ => none

variable [IntCast τ]

/-- `record.get("op_type") or "get"`. -/
def recordOpType (record : Mapping τ) : Value τ :=
  match record.get? "op_type" with
  | none => .str "get"
  | some v => if v.truthy then v else .str "get"

/-- `from_record`. -/
def fromRecord (record : Mapping τ) : StoredVerdict τ where
  opType := recordOpType record
  success := storedFactor record "success"
  hasCompletedLog := storedFactor record "has_completed_log"
  hasOutputFile := storedFactor record "has_output_file"
  exitCode := (record.get? "exit_code").bind Value.integer?
  artifactPath := none

end Stored

/-- What is said for each reason. -/
structure FailureReasons (α : Type) where
  exitCodeNonzero : α
  missingCompletedLog : α
  missingOutputFile : α
  deriving DecidableEq, Repr

def FailureReasons.map {α β : Type} (f : α → β) (reasons : FailureReasons α) : FailureReasons β where
  exitCodeNonzero := f reasons.exitCodeNonzero
  missingCompletedLog := f reasons.missingCompletedLog
  missingOutputFile := f reasons.missingOutputFile

/-- `failure_reasons`. -/
def failureReasons {τ : Type} (verdict : StoredVerdict τ) : FailureReasons Bool where
  exitCodeNonzero := verdict.exitCode.isSome && verdict.exitCode != some 0
  missingCompletedLog := verdict.hasCompletedLog == some false
  missingOutputFile := verdict.hasOutputFile == some false

/-! ## `cefinfo` runs -/

structure CcninfoVerdict where
  success : Bool
  replyReceived : Bool
  responderMatched : Option Bool
  routeMatched : Option Bool
  exitCode : Option Int
  timedOut : Bool
  cancelled : Bool
  responder : Option String
  routeNodes : List String
  deriving DecidableEq, Repr

/-- The inner `while`: `pos` moves on to the first hop that is the token. -/
def seekHop (token : String) : List String → List String
  | [] => []
  | hop :: hops => if token ≠ hop then seekHop token hops else hop :: hops

/-- `_route_is_ordered_subsequence`; in the place of `pos` stand the hops from there on. -/
def routeIsOrderedSubsequence : List String → List String → Bool
  | [], _ => true
  | token :: expected, observed =>
      match seekHop token observed with
      | [] => false
      | _ :: hops => routeIsOrderedSubsequence expected hops

/-- `from_runtime_ccninfo`. -/
def fromRuntimeCcninfo (exitCode : Option Int) (timedOut cancelled replyReceived : Bool)
    (responder : Option String) (routeNodes : List String) (expectedResponder : Option String)
    (expectedRoute : Option (List String)) : CcninfoVerdict :=
  let responderMatched := expectedResponder.map fun expected => decide (responder = some expected)
  let routeMatched := expectedRoute.map fun expected =>
    routeIsOrderedSubsequence expected routeNodes
  { success := exitCode == some 0 && !timedOut && !cancelled && replyReceived
      && responderMatched != some false && routeMatched != some false
    replyReceived := replyReceived
    responderMatched := responderMatched
    routeMatched := routeMatched
    exitCode := exitCode
    timedOut := timedOut
    cancelled := cancelled
    responder := responder
    routeNodes := routeNodes }

/-- `ccninfo_failure_reasons`: the keys, all of which are `True`. -/
def ccninfoFailureReasons (v : CcninfoVerdict) : List String :=
  (if v.exitCode ≠ none ∧ v.exitCode ≠ some 0 then ["exit_code_nonzero"] else [])
    ++ (if v.timedOut then ["timed_out"] else [])
    ++ (if v.cancelled then ["cancelled"] else [])
    ++ (if v.replyReceived then [] else ["no_reply"])
    ++ (if v.responderMatched = some false then ["responder_mismatch"] else [])
    ++ (if v.routeMatched = some false then ["route_mismatch"] else [])

end Core
end CeforeEmu
