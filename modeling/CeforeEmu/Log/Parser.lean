import CeforeEmu.Core.Value
import CeforeEmu.Core.Verdict
import CeforeEmu.Lib.Patterns

/-!
# Content logs

`log/schema.py` and `log/parser.py`: the fields the four commands print, and the record that is
read from a log's text. A record is a dictionary of columns; a field the log does not show is
there with `None`, a marker with whether it occurs.

`float` is given as a parameter: what it returns on the texts it accepts is nobody's business here.
The warnings about unknown fields are left out.
-/

set_option autoImplicit false

namespace CeforeEmu
namespace Log

open CeforeEmu.Lib CeforeEmu.Core

/-! ## The schema -/

inductive Command where
  | cefputfile
  | cefgetfile
  | cefpubfile
  | cefsubfile
  deriving DecidableEq, Repr

namespace Command

def text : Command → String
  | .cefputfile => "cefputfile"
  | .cefgetfile => "cefgetfile"
  | .cefpubfile => "cefpubfile"
  | .cefsubfile => "cefsubfile"

/-- `PARSERS.get(command)`, as far as there is a parser. -/
def ofText? (text : String) : Option Command :=
  [cefputfile, cefgetfile, cefpubfile, cefsubfile].find? fun command => command.text = text

/-- `COMMAND_OP_TYPES`. -/
def opType : Command → OpType
  | .cefputfile => .put
  | .cefgetfile => .get
  | .cefpubfile => .pub
  | .cefsubfile => .sub

end Command

inductive FieldKind where
  | text
  | numeric
  | marker
  deriving DecidableEq, Repr

structure Field where
  name : String
  logLabel : String
  kind : FieldKind
  deriving DecidableEq, Repr

def transferFields : List Field :=
  [⟨"uri", "URI", .text⟩, ⟨"file", "File", .text⟩, ⟨"rate_mbps", "Rate", .numeric⟩,
    ⟨"block_size_bytes", "Block Size", .numeric⟩, ⟨"cache_time_sec", "Cache Time", .numeric⟩,
    ⟨"expiration_sec", "Expiration", .numeric⟩]

def receptionFields : List Field :=
  [⟨"uri", "URI", .text⟩, ⟨"rx_frames_all", "Rx Frames (All)", .numeric⟩,
    ⟨"rx_frames_content", "Rx Frames (ContentObject)", .numeric⟩,
    ⟨"rx_bytes_all", "Rx Bytes (All)", .numeric⟩,
    ⟨"rx_bytes_content", "Rx Bytes (ContentObject)", .numeric⟩,
    ⟨"duration_sec", "Duration", .numeric⟩, ⟨"throughput_bps", "Throughput", .numeric⟩,
    ⟨"goodput_bps", "Goodput", .numeric⟩, ⟨"jitter_ave_us", "Jitter (Ave)", .numeric⟩,
    ⟨"jitter_max_us", "Jitter (Max)", .numeric⟩, ⟨"jitter_var_us", "Jitter (Var)", .numeric⟩]

/-- `COMMAND_SCHEMAS[command].fields`. -/
def Command.fields : Command → List Field
  | .cefputfile =>
      transferFields ++ [⟨"tx_frames", "Tx Frames", .numeric⟩, ⟨"tx_bytes", "Tx Bytes", .numeric⟩,
        ⟨"duration_sec", "Duration", .numeric⟩, ⟨"throughput_bps", "Throughput", .numeric⟩]
  | .cefgetfile => receptionFields
  | .cefpubfile =>
      transferFields ++ [⟨"trigger_interest_sent", "Send Trigger Interest.", .marker⟩,
        ⟨"trigger_data_received", "Receive Trigger Data, finish application.", .marker⟩]
  | .cefsubfile => receptionFields

/-- `\[command\]\s+label`. -/
def Field.markerPattern (field : Field) (command : Command) : Pattern Unit := do
  Pattern.lit ("[" ++ command.text ++ "]")
  let _ ← Pattern.some Text.isWhite
  Pattern.lit field.logLabel

/-- `\[command\]\s+label\s*=\s*(.+)`. -/
def Field.valuePattern (field : Field) (command : Command) : Pattern Text := do
  field.markerPattern command
  let _ ← Pattern.many Text.isWhite
  Pattern.lit "="
  let _ ← Pattern.many Text.isWhite
  Pattern.some Pattern.dot

/-! ## The parser -/

variable {τ : Type}

/-- A row of columns. -/
abbrev Record (τ : Type) := Dict String (Value τ)

/-- `^(\d{4}-\d{2}-\d{2}\s+\d{2}:\d{2}:\d{2}\.\d+)\s+\[cef`. -/
def timestampPattern : Pattern Text := do
  let year ← Pattern.times Text.isDigit 4
  Pattern.lit "-"
  let month ← Pattern.times Text.isDigit 2
  Pattern.lit "-"
  let day ← Pattern.times Text.isDigit 2
  let gap ← Pattern.some Text.isWhite
  let hour ← Pattern.times Text.isDigit 2
  Pattern.lit ":"
  let minute ← Pattern.times Text.isDigit 2
  Pattern.lit ":"
  let second ← Pattern.times Text.isDigit 2
  Pattern.lit "."
  let fraction ← Pattern.some Text.isDigit
  let _ ← Pattern.some Text.isWhite
  Pattern.lit "[cef"
  return year ++ "-".toList ++ month ++ "-".toList ++ day ++ gap ++ hour ++ ":".toList ++ minute ++
    ":".toList ++ second ++ ".".toList ++ fraction

def strValue (text : Text) : Value τ := .str (String.ofList text)

def extractTimestamp (text : Text) : Value τ :=
  match timestampPattern.matchStart text with
  | some stamp => strValue stamp
  | none => .null

/-- `_parse_numeric`. -/
def parseNumeric (float : Text → τ) (raw : Text) : Except PyErr (Value τ) :=
  match raw.int? with
  | some n => .ok (.int n)
  | none =>
      if raw.isFloat then .ok (.num (float raw))
      else
        .error (.valueError
          ("could not convert string to float: " ++ strRepr (String.ofList raw)))

/-- `\s+(Mbps|Bytes|bytes|sec|bps|us)\s*$`. -/
def unitPattern : Pattern Unit := do
  let _ ← Pattern.some Text.isWhite
  let _ ← Pattern.oneOf ["Mbps", "Bytes", "bytes", "sec", "bps", "us"]
  let _ ← Pattern.many Text.isWhite
  Pattern.atEnd

def stripUnit (raw : Text) : Text := unitPattern.sub [] 0 raw.strip

/-- The value of one schema field. -/
def parseField (float : Text → τ) (text : Text) (command : Command) (field : Field) :
    Except PyErr (Value τ) :=
  match field.kind with
  | .marker => .ok (.bool ((field.markerPattern command).search text).isSome)
  | .text =>
      match (field.valuePattern command).search text with
      | some raw => .ok (strValue raw.strip)
      | none => .ok .null
  | .numeric =>
      match (field.valuePattern command).search text with
      | some raw => parseNumeric float (stripUnit raw.strip)
      | none => .ok .null

/-- The loop of `_parse_schema_fields`. -/
def parseFields (float : Text → τ) (text : Text) (command : Command) :
    List Field → Record τ → Except PyErr (Record τ)
  | [], record => .ok record
  | field :: fields, record => do
      let value ← parseField float text command field
      parseFields float text command fields (record.set field.name value)

def parseSchemaFields (float : Text → τ) (text : Text) (command : Command) :
    Except PyErr (Record τ) :=
  parseFields float text command command.fields [("timestamp", extractTimestamp text)]

def factor : Option Bool → Value τ
  | some b => .bool b
  | none => .null

def parseCefputfile (float : Text → τ) (text : Text) : Except PyErr (Record τ) := do
  let record ← parseSchemaFields float text .cefputfile
  let fieldsPresent := record.any fun e =>
    e.1 ≠ "timestamp" && e.1 ≠ "success" && !e.2.isNull
  return record.set "success" (factor (fromLog .put text (some fieldsPresent)).success)

def parseCefgetfile (float : Text → τ) (text : Text) : Except PyErr (Record τ) := do
  let record ← parseSchemaFields float text .cefgetfile
  return record.set "success" (factor (fromLog .get text none).success)

/-- `\[(cef(?:pub|sub)file)\]\s+([A-Za-z][A-Za-z0-9 ()]+?)\s*=\s*(.+)`. -/
def genericKvPattern : Pattern (String × Text × Text) := do
  Pattern.lit "["
  let command ← Pattern.oneOf ["cefpubfile", "cefsubfile"]
  Pattern.lit "]"
  let _ ← Pattern.some Text.isWhite
  let first ← Pattern.one Char.isAlpha
  let rest ← Pattern.someLazy fun c => c.isAlphanum || c = ' ' || c = '(' || c = ')'
  let _ ← Pattern.many Text.isWhite
  Pattern.lit "="
  let _ ← Pattern.many Text.isWhite
  let value ← Pattern.some Pattern.dot
  return (command, first :: rest, value)

/-- `_normalise_key`, of the labels the pattern admits. -/
def normaliseKey (raw : Text) : String :=
  let blanks : Pattern Text := Pattern.some Text.isWhite
  String.ofList ((blanks.sub ['_'] 0 (raw.strip.map Char.toLower)).filter fun c => c ≠ '(' ∧ c ≠ ')')

/-- One turn of the loop of `_parse_pubsub`. -/
def addUnknown (float : Text → τ) (command : Command) (record : Record τ)
    (found : String × Text × Text) : Record τ :=
  if found.1 ≠ command.text then record
  else if command.fields.any fun field => field.logLabel.toList = found.2.1 then record
  else
    let raw := found.2.2.strip
    match parseNumeric float (stripUnit raw) with
    | .ok value => record.set (normaliseKey found.2.1) value
    | .error _ => record.set (normaliseKey found.2.1) (strValue raw)

def parsePubsub (float : Text → τ) (text : Text) (command : Command) : Except PyErr (Record τ) := do
  let record ← parseSchemaFields float text command
  let record := (genericKvPattern.findIter 0 text).foldl (addUnknown float command) record
  return record.set "success" (factor (fromLog command.opType text none).success)

/-- `PARSERS[command](text)`. -/
def parseLog (float : Text → τ) (command : Command) (text : Text) : Except PyErr (Record τ) :=
  match command with
  | .cefputfile => parseCefputfile float text
  | .cefgetfile => parseCefgetfile float text
  | .cefpubfile => parsePubsub float text .cefpubfile
  | .cefsubfile => parsePubsub float text .cefsubfile

end Log
end CeforeEmu
