import CeforeEmu.Core.Artifacts
import CeforeEmu.Log.Parser

/-!
# The summary of an experiment

`log/summarizer.py`: the content logs of some experiment directories, one row for each, with what
`meta.json`, the file's name and `results.json` say of it beside what its text says.

A directory holds its two JSON files, as they are read, and its other files as texts that can be
read. Writing the rows out is left out.
-/

set_option autoImplicit false

namespace CeforeEmu
namespace Log

open CeforeEmu.Lib CeforeEmu.Core

variable {τ : Type}

/-- A JSON file as reading it goes. -/
inductive JsonFile (τ : Type) where
  | absent
  /-- An `OSError`, or no JSON. -/
  | unreadable
  /-- Any other exception: the file is not UTF-8. -/
  | raises (err : PyErr)
  | json (value : Value τ)

structure ExperimentDir (τ : Type) where
  name : String
  metaJson : JsonFile τ
  resultsJson : JsonFile τ
  files : List (String × Text)

def metaKeys : List String :=
  ["num", "hosts", "switches", "seed", "k", "down_interval", "down_duration", "down_count",
    "down_stagger", "down_exclude", "cache_count", "forwarding_default"]

def filenameKeys : List String :=
  ["filename", "host_id", "down_hosts", "phase", "label", "publisher_down"]

/-- `_load_meta`. -/
def loadMeta : JsonFile τ → Except PyErr (Value τ)
  | .absent | .unreadable => .ok (.dict [])
  | .raises err => .error err
  | .json value => .ok value

section Join

variable [IntCast τ] [DecidableEq τ]

/-- `record.get(key)`. -/
def getValue (record : Mapping τ) (key : String) : Value τ := (record.get? (.str key)).getD .null

/-- `_meta_value`. -/
def metaValue (meta' : Mapping τ) (key : String) : Value τ :=
  if key = "forwarding_default" then
    match getValue meta' "forwarding" with
    | .dict forwarding => getValue forwarding "default"
    | _ => .null
  else getValue meta' key

/-- `meta_row`; what is no `dict` has no `get`. -/
def metaRow (dirName : String) : Value τ → Except PyErr (Record τ)
  | .dict meta' =>
      .ok (metaKeys.map (fun key => (key, metaValue meta' key)) ++ [("experiment_dir", .str dirName)])
  | value => .error (.attributeError ("'" ++ value.typeName ++ "' object has no attribute 'get'"))

/-- `Path(path).name`. -/
def pathName (path : String) : String :=
  let parts := (path.toList.splitOn '/').filter fun part => part ≠ [] ∧ part ≠ ['.']
  String.ofList (parts.getLast?.getD [])

/-- One turn of the loop of `_load_results_by_log_name`. -/
def addResult (byName : Dict String (Mapping τ)) : Value τ → Except PyErr (Dict String (Mapping τ))
  | .dict record =>
      if (Dict.get? record (.str "op_type")).isNone then .ok byName
      else
        match getValue record "log_file" with
        | .str logFile =>
            if logFile = "" then .ok byName else .ok (byName.set (pathName logFile) record)
        | logFile =>
            if logFile.truthy then
              .error (.typeError ("argument should be a str or an os.PathLike object where " ++
                "__fspath__ returns a str, not '" ++ logFile.typeName ++ "'"))
            else .ok byName
  | _ => .ok byName

/-- `_load_results_by_log_name`: of two records with one log, the last. -/
def loadResultsByLogName : JsonFile τ → Except PyErr (Dict String (Mapping τ))
  | .absent | .unreadable => .ok []
  | .raises err => .error err
  | .json (.list raw) => raw.foldlM addResult []
  | .json _ => .ok []

/-! ## `collect_records` -/

/-- A column of the joined record. -/
def joined (result : Option (Mapping τ)) (key : String) : Value τ :=
  match result with
  | some record => getValue record key
  | none => .null

/-- `if row.get(key) is None: row[key] = result_record.get(key)`. -/
def fillFrom (result : Mapping τ) (row : Record τ) (key : String) : Record τ :=
  if ((row.get? key).getD .null).isNull then row.set key (getValue result key) else row

/-- The row of a log, from what its text says. -/
def logRow (metaRow : Record τ) (name : String) (cmeta : ContentLogMeta)
    (result : Option (Mapping τ)) (record : Record τ) : Record τ :=
  let row : Record τ := [("experiment_dir", (metaRow.get? "experiment_dir").getD .null)]
  let row := row.merge metaRow
  let row := row.set "filename" (.str name)
  let row := row.set "host_id" (.int cmeta.host)
  let row := row.set "down_hosts" (joined result "down_hosts")
  let row := row.set "phase" (.str cmeta.phase)
  let row := row.set "label" (.str cmeta.label)
  let row := row.set "publisher_down" (joined result "publisher_down")
  let row := row.merge record
  match result with
  | none => row
  | some result => ["uri", "success"].foldl (fillFrom result) row

/-- The rows by command. -/
abbrev Grouped (τ : Type) := Dict String (List (Record τ))

/-- One turn of the loop over the logs of a directory. -/
def collectLog (float : Text → τ) (metaRow : Record τ) (results : Dict String (Mapping τ))
    (grouped : Grouped τ) (file : String × Text) : Except PyErr (Grouped τ) :=
  match parseContentLogName file.1 with
  | none => .ok grouped
  | some cmeta =>
      match Command.ofText? cmeta.command with
      | none => .ok grouped
      | some command => do
          let record ← parseLog float command file.2
          let row := logRow metaRow file.1 cmeta (results.get? file.1) record
          return grouped.appendTo cmeta.command row

/-- `sorted(dirpath.glob("*.log"))`. -/
def logFiles (dir : ExperimentDir τ) : List (String × Text) :=
  (dir.files.filter fun file => ".log".toList.isSuffixOf file.1.toList).insertionSort
    fun a b => a.1 ≤ b.1

/-- One turn of the loop over the directories; `none` is something else than a directory. -/
def collectDir (float : Text → τ) (grouped : Grouped τ) :
    Option (ExperimentDir τ) → Except PyErr (Grouped τ)
  | none => .ok grouped
  | some dir => do
      let meta' ← loadMeta dir.metaJson
      let results ← loadResultsByLogName dir.resultsJson
      let row ← metaRow dir.name meta'
      (logFiles dir).foldlM (collectLog float row results) grouped

def collectRecords (float : Text → τ) (directories : List (Option (ExperimentDir τ))) :
    Except PyErr (Grouped τ) :=
  directories.foldlM (collectDir float) []

end Join

end Log
end CeforeEmu
