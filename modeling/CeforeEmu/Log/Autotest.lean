import Mathlib.Data.String.Basic
import CeforeEmu.Core.FieldChecks
import CeforeEmu.Core.Verdict
import CeforeEmu.Lib.Tally

/-!
# The autotest summary

`tools/autotest/analyze.py`: the records of all result files, added up by URI. Records are parsed
JSON; the ones considered here have a string for a URI, or none, and a list or `null` for the hosts
that are down (`Record`). Everything else may be missing or anything.

`truediv` is `/` between integers: a float, which is only printed.
-/

set_option autoImplicit false

namespace CeforeEmu
namespace Log
namespace Autotest

open CeforeEmu.Lib CeforeEmu.Core

variable {τ : Type} [DecidableEq τ]

/-- A record as `summarize` takes it. -/
structure Record (τ : Type) [DecidableEq τ] where
  fields : Mapping τ
  uri_str : ∀ v, fields.get? "uri" = some v → ∃ s, v = .str s
  down_hosts_list : ∀ v, fields.get? "down_hosts" = some v → v = .null ∨ ∃ vs, v = .list vs

/-- `rec.get("uri", "")`. -/
def Record.uri (rec : Record τ) : String :=
  match rec.fields.get? "uri" with
  | some (.str s) => s
  | _ => ""

/-- `rec.get("down_hosts", []) or []`. -/
def Record.downHosts (rec : Record τ) : List (Value τ) :=
  match rec.fields.get? "down_hosts" with
  | some (.list vs) => vs
  | _ => []

/-- `rec.get("phase", "eval") == "warmup"`. -/
def Record.isWarmup (rec : Record τ) : Bool :=
  match rec.fields.get? "phase" with
  | some v => v.isOneOf ["warmup"]
  | none => false

/-- `EVAL_OP_TYPES`. -/
def evalOpTypes : List String := ["get", "sub"]

/-- The counters of a row. -/
structure Counters where
  evalTotal : ℕ
  evalSuccess : ℕ
  evalPubdownTotal : ℕ
  evalPubdownSuccess : ℕ
  failExitCodeNonzero : ℕ
  failMissingCompletedLog : ℕ
  failMissingOutputFile : ℕ
  deriving DecidableEq, Repr

/-- The row that `defaultdict` makes. -/
def Counters.empty : Counters := ⟨0, 0, 0, 0, 0, 0, 0⟩

/-- A row of the summary; a rate of nothing is `None`. -/
structure Row (τ : Type) extends Counters where
  uri : String
  evalSuccessRate : Option τ
  evalSuccessRateWhenPublisherDown : Option τ

section Loop

variable [IntCast τ] [LE τ] [DecidableLE τ]

/-- `classify`. -/
def classify (rec : Record τ) : Bool × FailureReasons ℕ :=
  let verdict := fromRecord rec.fields
  let success := verdict.success == some true
  let reasons := failureReasons verdict
  (success, if success then reasons.map fun _ => 0 else reasons.map Bool.toNat)

/-- `publisher_down`, as it is stored or else as the hosts tell. -/
def publisherDown (rec : Record τ) : Bool :=
  let derived :=
    match rec.fields.get? "publisher_host" with
    | none | some .null => false
    | some ph => rec.downHosts.any fun host => ph.pyEq host
  match rec.fields.get? "publisher_down" with
  | none | some .null => derived
  | some v => v.truthy

/-- The statements that count one record of an evaluation. -/
def Counters.count (row : Counters) (rec : Record τ) : Counters :=
  let success := (classify rec).1
  let reasons := (classify rec).2
  let row := { row with
    evalTotal := row.evalTotal + 1
    evalSuccess := row.evalSuccess + success.toNat
    failExitCodeNonzero := row.failExitCodeNonzero + reasons.exitCodeNonzero
    failMissingCompletedLog := row.failMissingCompletedLog + reasons.missingCompletedLog
    failMissingOutputFile := row.failMissingOutputFile + reasons.missingOutputFile }
  if publisherDown rec then
    { row with
      evalPubdownTotal := row.evalPubdownTotal + 1
      evalPubdownSuccess := row.evalPubdownSuccess + success.toNat }
  else row

/-- The body of the loop. The row of a URI is made before the phase is looked at. -/
def summarizeStep (byUri : Dict String Counters) (rec : Record τ) : Dict String Counters :=
  if rec.uri = "" then byUri
  else if ¬ (recordOpType rec.fields).isOneOf evalOpTypes then byUri
  else
    let row := (byUri.get? rec.uri).getD .empty
    byUri.set rec.uri (if rec.isWarmup then row else row.count rec)

/-- What is made of the counters at the end. -/
def finishRow (truediv : ℕ → ℕ → τ) (uri : String) (row : Counters) : Row τ where
  toCounters := row
  uri := uri
  evalSuccessRate :=
    if row.evalTotal = 0 then none else some (truediv row.evalSuccess row.evalTotal)
  evalSuccessRateWhenPublisherDown :=
    if row.evalPubdownTotal = 0 then none
    else some (truediv row.evalPubdownSuccess row.evalPubdownTotal)

/-- `summarize`. -/
def summarize (truediv : ℕ → ℕ → τ) (records : List (Record τ)) : List (Row τ) :=
  let byUri := records.foldl summarizeStep []
  (Dict.sortedItems byUri).map fun item => finishRow truediv item.1 item.2

end Loop

end Autotest
end Log
end CeforeEmu
