import Mathlib.Data.List.TakeWhile
import CeforeEmu.Log.Summarizer

/-!
# The success column

Success is judged twice: when an operation ends, from its exit code, its artifacts and its log, and
again when the logs are summarised, from the log's text alone. The summary takes the text's word
where the text is definitive (`logVerdict`) and the stored verdict only where it is not, so the two
can differ: a `get` that printed its completion and then failed is a success in the CSV.

`success_column` says what the column holds, for the rows of every summary, and for each operation
which verdicts of the runtime it agrees with.
-/

set_option autoImplicit false

namespace CeforeEmu
namespace Proof
namespace SummaryCsv

open CeforeEmu.Lib CeforeEmu.Core CeforeEmu.Log

variable {τ : Type}

/-! ## What the text of a log says -/

/-- Some field of a `cefputfile` log is there. -/
def showsPutField (text : Text) : Bool :=
  Command.cefputfile.fields.any fun field =>
    ((field.valuePattern .cefputfile).search text).isSome

/-- The verdict of a log's text. -/
def logVerdict (command : Command) (text : Text) : Option Bool :=
  (fromLog command.opType text
    (if command = .cefputfile then some (showsPutField text) else none)).success

theorem parseNumeric_not_null {float : Text → τ} {raw : Text} {value : Value τ}
    (h : parseNumeric float raw = .ok value) : value.isNull = false := by
  unfold parseNumeric at h
  split at h
  · cases h
    rfl
  · split at h
    · cases h
      rfl
    · cases h

/-- A field is `None` just when the log does not show it. -/
theorem parseField_isNull {float : Text → τ} {text : Text} {command : Command} {field : Field}
    {value : Value τ} (hkind : field.kind ≠ .marker)
    (h : parseField float text command field = .ok value) :
    value.isNull = ((field.valuePattern command).search text).isNone := by
  unfold parseField at h
  split at h
  · contradiction
  · split at h
    · rename_i hsearch
      cases h
      rw [hsearch]
      rfl
    · rename_i hsearch
      cases h
      rw [hsearch]
      rfl
  · split at h
    · rename_i hsearch
      rw [hsearch]
      exact parseNumeric_not_null h
    · rename_i hsearch
      cases h
      rw [hsearch]
      rfl

theorem parseFields_nodup {float : Text → τ} {text : Text} {command : Command}
    {fields : List Field} {record record' : Record τ} (hnodup : Dict.NodupKeys record)
    (h : parseFields float text command fields record = .ok record') :
    Dict.NodupKeys record' := by
  induction fields generalizing record with
  | nil =>
    cases h
    exact hnodup
  | cons field fields ih =>
    obtain ⟨value, -, h⟩ := bind_eq_ok.mp h
    exact ih (hnodup.set _ _) h

theorem parseSchemaFields_nodup {float : Text → τ} {text : Text} {command : Command}
    {record : Record τ} (h : parseSchemaFields float text command = .ok record) :
    Dict.NodupKeys record := by
  refine parseFields_nodup ?_ h
  exact List.pairwise_singleton _ _

/-- The columns `fields_present` looks at. -/
def present (e : String × Value τ) : Bool := e.1 ≠ "timestamp" && e.1 ≠ "success" && !e.2.isNull

/-- The fields that are added to a record are present as far as the log shows them. -/
theorem parseFields_present {float : Text → τ} {text : Text} {fields : List Field}
    {record record' : Record τ}
    (hnew : ∀ field ∈ fields, (∀ e ∈ record, e.1 ≠ field.name) ∧ field.name ≠ "timestamp" ∧
      field.name ≠ "success" ∧ field.kind ≠ .marker)
    (hnames : (fields.map Field.name).Nodup)
    (h : parseFields float text .cefputfile fields record = .ok record') :
    record'.any present = (record.any present ||
      fields.any fun field => ((field.valuePattern .cefputfile).search text).isSome) := by
  induction fields generalizing record with
  | nil =>
    cases h
    simp
  | cons field fields ih =>
    obtain ⟨value, hvalue, h⟩ := bind_eq_ok.mp h
    obtain ⟨hnot, hstamp, hsuccess, hkind⟩ := hnew field List.mem_cons_self
    obtain ⟨hother, hnames⟩ := List.nodup_cons.mp hnames
    rw [Dict.set_of_not_mem value hnot] at h
    rw [ih _ hnames h]
    · have hpresent : present (field.name, value) =
          ((field.valuePattern .cefputfile).search text).isSome := by
        rw [present, parseField_isNull hkind hvalue]
        simp [hstamp, hsuccess]
      simp only [List.any_append, List.any_cons, List.any_nil, hpresent, Bool.or_false,
        Bool.or_assoc]
    · intro field' hfield'
      obtain ⟨hnot', hrest⟩ := hnew field' (List.mem_cons_of_mem _ hfield')
      refine ⟨fun e he => ?_, hrest⟩
      rcases List.mem_append.mp he with he | he
      · exact hnot' e he
      · rw [List.mem_singleton.mp he]
        exact fun heq => hother (List.mem_map.mpr ⟨field', hfield', heq.symm⟩)

theorem putFields_named : ∀ field ∈ Command.cefputfile.fields, field.name ≠ "timestamp" ∧
    field.name ≠ "success" ∧ field.kind ≠ .marker := by
  decide

theorem putFields_present {float : Text → τ} {text : Text} {record : Record τ}
    (h : parseSchemaFields float text .cefputfile = .ok record) :
    record.any present = showsPutField text := by
  unfold parseSchemaFields at h
  rw [parseFields_present ?_ (by decide) h]
  · rfl
  · intro field hfield
    have hnamed := putFields_named field hfield
    refine ⟨fun e he => ?_, hnamed⟩
    rw [List.mem_singleton.mp he]
    exact hnamed.1.symm

theorem addUnknown_nodup (float : Text → τ) (command : Command) {record : Record τ}
    (h : Dict.NodupKeys record) (found : String × Text × Text) :
    Dict.NodupKeys (addUnknown float command record found) := by
  unfold addUnknown
  split
  · exact h
  · split
    · exact h
    · dsimp only
      split
      · exact h.set _ _
      · exact h.set _ _

theorem parsePubsub_success {float : Text → τ} {command : Command} {text : Text}
    {record : Record τ} (h : parsePubsub float text command = .ok record) :
    Dict.NodupKeys record ∧
      record.get? "success" = some (factor (fromLog command.opType text none).success) := by
  obtain ⟨fields, hfields, h⟩ := bind_eq_ok.mp h
  cases h
  have hknown : ∀ (found : List (String × Text × Text)) {record : Record τ},
      Dict.NodupKeys record → Dict.NodupKeys (found.foldl (addUnknown float command) record) := by
    intro found
    induction found with
    | nil => exact fun h => h
    | cons e found ih => exact fun h => ih (addUnknown_nodup float command h e)
  exact ⟨(hknown _ (parseSchemaFields_nodup hfields)).set _ _, Dict.get?_set_self _ _ _⟩

/-- **The verdict of a parsed log** is that of its text, whatever else the text says. -/
theorem parseLog_success {float : Text → τ} {command : Command} {text : Text} {record : Record τ}
    (h : parseLog float command text = .ok record) :
    Dict.NodupKeys record ∧ record.get? "success" = some (factor (logVerdict command text)) := by
  cases command with
  | cefputfile =>
    obtain ⟨fields, hfields, h⟩ := bind_eq_ok.mp h
    cases h
    have hverdict : logVerdict .cefputfile text =
        (fromLog .put text (some (fields.any present))).success := by
      rw [putFields_present hfields]
      rfl
    refine ⟨(parseSchemaFields_nodup hfields).set _ _, ?_⟩
    rw [Dict.get?_set_self, hverdict]
    rfl
  | cefgetfile =>
    obtain ⟨fields, hfields, h⟩ := bind_eq_ok.mp h
    cases h
    exact ⟨(parseSchemaFields_nodup hfields).set _ _, Dict.get?_set_self _ _ _⟩
  | cefpubfile => exact parsePubsub_success h
  | cefsubfile => exact parsePubsub_success h

/-! ## The verdicts of the runtime -/

/-- A log that is blank has white space only. -/
theorem white_of_empty {text : Text} (h : isEmptyLog text = true) : ∀ c ∈ text, Text.isWhite c := by
  simp only [isEmptyLog, Text.strip, List.isEmpty_iff, List.reverse_eq_nil_iff,
    List.dropWhile_eq_nil_iff, List.mem_reverse] at h
  intro c hc
  rw [← List.takeWhile_append_dropWhile (p := Text.isWhite) (l := text)] at hc
  rcases List.mem_append.mp hc with hc | hc
  · exact List.mem_takeWhile_imp hc
  · exact h c hc

theorem contains_of_white {text : Text} (h : ∀ c ∈ text, Text.isWhite c) (part : String) {c : Char}
    {cs : Text} (hpart : part.toList = c :: cs) (hc : Text.isWhite c = false) :
    text.contains part = false := by
  induction text with
  | nil => simp [Text.contains, hpart]
  | cons c' text ih =>
    have hne : c ≠ c' := by
      rintro rfl
      rw [h c List.mem_cons_self] at hc
      cases hc
    rw [Text.contains, ih fun c hc => h c (List.mem_cons_of_mem _ hc), hpart]
    simp [List.isPrefixOf, hne]

/-- A blank log reports no completion. -/
theorem completed_not_empty {text : Text} (h : text.contains completedMarker = true) :
    isEmptyLog text = false := by
  by_contra hblank
  have hnone := contains_of_white (white_of_empty (by simpa using hblank)) completedMarker rfl
    (by decide)
  rw [h] at hnone
  cases hnone

/-- A `get`: a log that reports completion agrees just when its failure patterns say what the exit
    code and the output do; one that does not is a failure to both. -/
theorem get_agrees {exitCode : Int} {text : Text} {outputNonempty b : Bool}
    (hb : (fromRuntimeGet exitCode text outputNonempty).success = some b) :
    (logVerdict .cefgetfile text).getD b = b ↔
      (text.contains completedMarker = true →
        (hasFailurePattern text = true ↔ ¬ (exitCode = 0 ∧ outputNonempty = true))) := by
  have hverdict : logVerdict .cefgetfile text =
      some (!isEmptyLog text && !hasFailurePattern text && text.contains completedMarker) := by
    unfold logVerdict fromLog
    cases isEmptyLog text <;> cases hasFailurePattern text <;> rfl
  obtain rfl := Option.some.inj hb
  rw [hverdict, Option.getD_some]
  cases hcompleted : text.contains completedMarker with
  | false => simp
  | true =>
    rw [completed_not_empty hcompleted]
    by_cases hexit : exitCode = 0 <;> cases outputNonempty <;> cases hasFailurePattern text <;>
      simp [hexit]

/-- A `put`: the log must show a field, and no failure pattern, just when the exit code is zero. -/
theorem put_agrees {exitCode : Int} (text : Text) {b : Bool}
    (hb : (fromRuntimePut exitCode).success = some b) :
    (logVerdict .cefputfile text).getD b = b ↔
      (exitCode = 0 ↔ isEmptyLog text = false ∧ hasFailurePattern text = false ∧
        showsPutField text = true) := by
  have hverdict : logVerdict .cefputfile text =
      some (!isEmptyLog text && !hasFailurePattern text && showsPutField text) := by
    unfold logVerdict fromLog
    cases isEmptyLog text <;> cases hasFailurePattern text <;> rfl
  obtain rfl := Option.some.inj hb
  rw [hverdict, Option.getD_some]
  by_cases hexit : exitCode = 0 <;> cases isEmptyLog text <;> cases hasFailurePattern text <;>
    cases showsPutField text <;> simp [hexit]

/-- A `sub`: nothing in a log speaks for it, and a blank log or a failure pattern against it. -/
theorem sub_agrees (text : Text) (b : Bool) :
    (logVerdict .cefsubfile text).getD b = b ↔
      (isEmptyLog text = true ∨ hasFailurePattern text = true → b = false) := by
  have hverdict : logVerdict .cefsubfile text =
      if isEmptyLog text || hasFailurePattern text then some false else none := by
    unfold logVerdict fromLog
    cases isEmptyLog text <;> cases hasFailurePattern text <;> rfl
  rw [hverdict]
  cases isEmptyLog text <;> cases hasFailurePattern text <;> cases b <;> simp

/-- A `pub`: as a `sub`, except that the delivery marker speaks for it. -/
theorem pub_agrees (text : Text) (b : Bool) :
    (logVerdict .cefpubfile text).getD b = b ↔
      if isEmptyLog text = true ∨ hasFailurePattern text = true then b = false
      else text.contains pubDeliveredMarker = true → b = true := by
  have hverdict : logVerdict .cefpubfile text =
      if isEmptyLog text || hasFailurePattern text then some false
      else if text.contains pubDeliveredMarker then some true else none := by
    unfold logVerdict fromLog
    cases isEmptyLog text <;> cases hasFailurePattern text <;> rfl
  rw [hverdict]
  cases isEmptyLog text <;> cases hasFailurePattern text <;>
    cases text.contains pubDeliveredMarker <;> cases b <;> simp

/-! ## The row of a log -/

section Rows

variable [DecidableEq τ]

theorem fillFrom_other (result : Mapping τ) (row : Record τ) {key key' : String} (h : key' ≠ key) :
    (fillFrom result row key).get? key' = row.get? key' := by
  unfold fillFrom
  split
  · exact Dict.get?_set_ne _ _ h
  · rfl

theorem fillFrom_factor {result : Mapping τ} {row : Record τ} {key : String}
    {verdict : Option Bool} {b : Bool} (hrow : row.get? key = some (factor verdict))
    (hstored : getValue result key = .bool b) :
    (fillFrom result row key).get? key = some (.bool (verdict.getD b)) := by
  unfold fillFrom
  cases verdict with
  | none =>
    have hnull : ((row.get? key).getD .null).isNull = true := by
      rw [hrow]
      rfl
    rw [if_pos hnull, Dict.get?_set_self, hstored]
    rfl
  | some b' =>
    have hnull : ((row.get? key).getD .null).isNull = false := by
      rw [hrow]
      rfl
    rw [if_neg (by simp [hnull]), hrow]
    rfl

/-- The text's verdict, where it has one, and else the stored one. -/
theorem logRow_success {metaRow : Record τ} {name : String} {cmeta : ContentLogMeta}
    {result : Mapping τ} {record : Record τ} {verdict : Option Bool} {b : Bool}
    (hnodup : Dict.NodupKeys record) (hrecord : record.get? "success" = some (factor verdict))
    (hstored : getValue result "success" = .bool b) :
    (logRow metaRow name cmeta (some result) record).get? "success" =
      some (.bool (verdict.getD b)) := by
  unfold logRow
  simp only [List.foldl_cons, List.foldl_nil]
  refine fillFrom_factor ?_ hstored
  rw [fillFrom_other _ _ (by decide), Dict.get?_merge hnodup, hrecord]
  rfl

end Rows

/-! ## The rows of a summary -/

section Summary

variable [IntCast τ] [DecidableEq τ]

/-- A log in one of the directories. -/
structure ContentLog (τ : Type) where
  dir : ExperimentDir τ
  name : String
  text : Text

/-- The command a log's name gives, if there is a parser for it. -/
def commandOf (name : String) : Option Command :=
  (parseContentLogName name).bind fun cmeta => Command.ofText? cmeta.command

/-- The logs of a command in a directory, in order. -/
def dirLogs (command : Command) (dir : ExperimentDir τ) : List (ContentLog τ) :=
  ((logFiles dir).filter fun file => commandOf file.1 = some command).map fun file =>
    ⟨dir, file.1, file.2⟩

/-- The logs of a command in all the directories. -/
def contentLogs (command : Command) (directories : List (Option (ExperimentDir τ))) :
    List (ContentLog τ) :=
  directories.flatMap fun dir => (dir.map (dirLogs command)).getD []

/-- The `success` of the last record with the log's name, if it is a boolean. -/
def storedSuccess (log : ContentLog τ) : Option Bool :=
  match loadResultsByLogName log.dir.resultsJson with
  | .error _ => none
  | .ok results =>
      match (results.get? log.name).map fun record => getValue record "success" with
      | some (.bool b) => some b
      | _ => none

/-- The row that is joined from a record of a log and from what is known of it besides its text. -/
def joinRow (dirName : String) (metaJson resultsJson : JsonFile τ) (name : String)
    (record : Record τ) : Option (Record τ) := do
  let meta' ← (loadMeta metaJson).toOption
  let results ← (loadResultsByLogName resultsJson).toOption
  let row ← (metaRow dirName meta').toOption
  let cmeta ← parseContentLogName name
  return logRow row name cmeta (results.get? name) record

/-- The row of a log is joined from the record of its text. -/
def RowOf (float : Text → τ) (command : Command) (log : ContentLog τ) (row : Record τ) : Prop :=
  ∃ record, parseLog float command log.text = .ok record ∧
    joinRow log.dir.name log.dir.metaJson log.dir.resultsJson log.name record = some row

/-- The rows of a command. -/
def rowsOf (grouped : Grouped τ) (command : Command) : List (Record τ) :=
  (grouped.get? command.text).getD []

/-- The success column of a log's row. -/
def Joins (command : Command) (log : ContentLog τ) (row : Record τ) : Prop :=
  ∀ b, storedSuccess log = some b →
    row.get? "success" = some (.bool ((logVerdict command log.text).getD b))

theorem ofText?_text {text : String} {command : Command} (h : Command.ofText? text = some command) :
    command.text = text := by
  simpa using List.find?_some h

/-- One log more. -/
theorem collectLog_rows {float : Text → τ} {dir : ExperimentDir τ} {meta' : Value τ}
    {results : Dict String (Mapping τ)} {mrow : Record τ}
    (hmeta : loadMeta dir.metaJson = .ok meta')
    (hresults : loadResultsByLogName dir.resultsJson = .ok results)
    (hrow : metaRow dir.name meta' = .ok mrow) {grouped grouped' : Grouped τ}
    {file : String × Text} (h : collectLog float mrow results grouped file = .ok grouped')
    (command : Command) :
    (commandOf file.1 ≠ some command ∧ rowsOf grouped' command = rowsOf grouped command) ∨
      (commandOf file.1 = some command ∧ ∃ row,
        rowsOf grouped' command = rowsOf grouped command ++ [row] ∧
        RowOf float command ⟨dir, file.1, file.2⟩ row) := by
  unfold collectLog at h
  unfold commandOf
  split at h
  · rename_i hname
    cases h
    exact .inl ⟨by simp [hname], rfl⟩
  · rename_i cmeta hname
    split at h
    · rename_i hparser
      cases h
      exact .inl ⟨by simp [hname, hparser], rfl⟩
    · rename_i command' hparser
      obtain ⟨record, hrecord, h⟩ := bind_eq_ok.mp h
      cases h
      have hcommand : (parseContentLogName file.1).bind (fun cmeta => Command.ofText? cmeta.command) =
          some command' := by
        rw [hname]
        exact hparser
      have htext := ofText?_text hparser
      rw [hcommand]
      by_cases heq : command' = command
      · subst heq
        refine .inr ⟨rfl, logRow mrow file.1 cmeta (results.get? file.1) record, ?_, record,
          hrecord, ?_⟩
        · rw [rowsOf, Dict.getD_appendTo, if_pos htext]
          rfl
        · simp only [joinRow, hmeta, hresults, hname, Except.toOption, Option.bind_eq_bind,
            Option.bind_some, hrow, Option.pure_def]
      · refine .inl ⟨fun h => heq (Option.some.inj h), ?_⟩
        have hne : command.text ≠ cmeta.command := by
          rw [← htext]
          intro h
          apply heq
          revert h
          cases command <;> cases command' <;> decide
        rw [rowsOf, Dict.getD_appendTo, if_neg hne]
        rfl

/-- The logs of one directory. -/
theorem collectLogs_rows {float : Text → τ} {dir : ExperimentDir τ} {meta' : Value τ}
    {results : Dict String (Mapping τ)} {mrow : Record τ}
    (hmeta : loadMeta dir.metaJson = .ok meta')
    (hresults : loadResultsByLogName dir.resultsJson = .ok results)
    (hrow : metaRow dir.name meta' = .ok mrow) (command : Command)
    {files : List (String × Text)} {grouped grouped' : Grouped τ}
    (h : files.foldlM (collectLog float mrow results) grouped = .ok grouped') :
    ∃ rows, rowsOf grouped' command = rowsOf grouped command ++ rows ∧
      List.Forall₂ (RowOf float command)
        ((files.filter fun file => commandOf file.1 = some command).map fun file =>
          ⟨dir, file.1, file.2⟩) rows := by
  induction files generalizing grouped with
  | nil =>
    cases h
    exact ⟨[], (List.append_nil _).symm, .nil⟩
  | cons file files ih =>
    rw [List.foldlM_cons] at h
    obtain ⟨between, hfile, h⟩ := bind_eq_ok.mp h
    obtain ⟨rows, hrows, hall⟩ := ih h
    rcases collectLog_rows hmeta hresults hrow hfile command with
      ⟨hne, hsame⟩ | ⟨heq, row, hnew, hof⟩
    · refine ⟨rows, by rw [hrows, hsame], ?_⟩
      rw [List.filter_cons_of_neg (by simpa using hne)]
      exact hall
    · refine ⟨row :: rows, by rw [hrows, hnew, List.append_assoc]; rfl, ?_⟩
      rw [List.filter_cons_of_pos (by simpa using heq)]
      exact .cons hof hall

theorem collectDir_rows {float : Text → τ} {grouped grouped' : Grouped τ}
    {dir : Option (ExperimentDir τ)} (h : collectDir float grouped dir = .ok grouped')
    (command : Command) :
    ∃ rows, rowsOf grouped' command = rowsOf grouped command ++ rows ∧
      List.Forall₂ (RowOf float command) ((dir.map (dirLogs command)).getD []) rows := by
  cases dir with
  | none =>
    cases h
    exact ⟨[], (List.append_nil _).symm, .nil⟩
  | some dir =>
    obtain ⟨meta', hmeta, h⟩ := bind_eq_ok.mp h
    obtain ⟨results, hresults, h⟩ := bind_eq_ok.mp h
    obtain ⟨row, hrow, h⟩ := bind_eq_ok.mp h
    exact collectLogs_rows hmeta hresults hrow command h

/-- **The rows of a summary** are those of the logs, in order. -/
theorem collectRecords_rows {float : Text → τ} {directories : List (Option (ExperimentDir τ))}
    {grouped : Grouped τ} (h : collectRecords float directories = .ok grouped) (command : Command) :
    List.Forall₂ (RowOf float command) (contentLogs command directories)
      (rowsOf grouped command) := by
  have hrun : ∀ {directories : List (Option (ExperimentDir τ))} {grouped grouped' : Grouped τ},
      directories.foldlM (collectDir float) grouped = .ok grouped' →
      ∃ rows, rowsOf grouped' command = rowsOf grouped command ++ rows ∧
        List.Forall₂ (RowOf float command) (contentLogs command directories) rows := by
    intro directories
    induction directories with
    | nil =>
      intro grouped grouped' h
      cases h
      exact ⟨[], (List.append_nil _).symm, .nil⟩
    | cons dir directories ih =>
      intro grouped grouped' h
      rw [List.foldlM_cons] at h
      obtain ⟨between, hdir, h⟩ := bind_eq_ok.mp h
      obtain ⟨rows, hrows, hall⟩ := collectDir_rows hdir command
      obtain ⟨rows', hrows', hall'⟩ := ih h
      refine ⟨rows ++ rows', by rw [hrows', hrows, List.append_assoc], ?_⟩
      rw [contentLogs, List.flatMap_cons]
      exact List.rel_append hall hall'
  obtain ⟨rows, hrows, hall⟩ := hrun h
  rw [hrows]
  exact hall

/-- The record behind a stored success. -/
theorem storedSuccess_record {log : ContentLog τ} {results : Dict String (Mapping τ)} {b : Bool}
    (hresults : loadResultsByLogName log.dir.resultsJson = .ok results)
    (h : storedSuccess log = some b) :
    ∃ record, results.get? log.name = some record ∧ getValue record "success" = .bool b := by
  unfold storedSuccess at h
  rw [hresults] at h
  simp only at h
  split at h
  · rename_i b' hb
    cases h
    obtain ⟨record, hrecord, hvalue⟩ := Option.map_eq_some_iff.mp hb
    exact ⟨record, hrecord, hvalue⟩
  · cases h

theorem RowOf.joins {float : Text → τ} {command : Command} {log : ContentLog τ} {row : Record τ}
    (h : RowOf float command log row) : Joins command log row := by
  obtain ⟨record, hrecord, hjoin⟩ := h
  obtain ⟨hnodup, hverdict⟩ := parseLog_success hrecord
  intro b hstored
  simp only [joinRow, Option.bind_eq_bind, Option.bind_eq_some_iff] at hjoin
  obtain ⟨meta', -, results, hresults, mrow, -, cmeta, -, hrow⟩ := hjoin
  cases hrow
  rw [toOption_eq_some] at hresults
  obtain ⟨result, hresult, hb⟩ := storedSuccess_record hresults hstored
  rw [hresult]
  exact logRow_success hnodup hverdict hb

/-- **The success column** is the verdict of the log's text where that is definitive, and the stored
    one where it is not. Over the text it was judged with, it agrees with the runtime's verdict
    exactly as said for each operation. -/
theorem success_column {float : Text → τ} {directories : List (Option (ExperimentDir τ))}
    {grouped : Grouped τ} (h : collectRecords float directories = .ok grouped) :
    (∀ command,
      List.Forall₂ (Joins command) (contentLogs command directories) (rowsOf grouped command)) ∧
    (∀ exitCode text outputNonempty b,
      (fromRuntimeGet exitCode text outputNonempty).success = some b →
        ((logVerdict .cefgetfile text).getD b = b ↔
          (text.contains completedMarker = true →
            (hasFailurePattern text = true ↔ ¬ (exitCode = 0 ∧ outputNonempty = true))))) ∧
    (∀ exitCode text b, (fromRuntimePut exitCode).success = some b →
      ((logVerdict .cefputfile text).getD b = b ↔
        (exitCode = 0 ↔ isEmptyLog text = false ∧ hasFailurePattern text = false ∧
          showsPutField text = true))) ∧
    (∀ returncode timedOut cancelled outputNonempty artifactPath text b,
      (fromRuntimeSub returncode timedOut cancelled outputNonempty artifactPath).success = some b →
        ((logVerdict .cefsubfile text).getD b = b ↔
          (isEmptyLog text = true ∨ hasFailurePattern text = true → b = false))) ∧
    (∀ exitCode timedOut text b, (fromRuntimePub exitCode timedOut).success = some b →
      ((logVerdict .cefpubfile text).getD b = b ↔
        if isEmptyLog text = true ∨ hasFailurePattern text = true then b = false
        else text.contains pubDeliveredMarker = true → b = true)) := by
  refine ⟨fun command => (collectRecords_rows h command).imp fun _ _ => RowOf.joins, ?_, ?_, ?_, ?_⟩
  · intro exitCode text outputNonempty b hb
    exact get_agrees hb
  · intro exitCode text b hb
    exact put_agrees text hb
  · intro returncode timedOut cancelled outputNonempty artifactPath text b hb
    exact sub_agrees text b
  · intro exitCode timedOut text b hb
    exact pub_agrees text b

end Summary

/-- A `get` whose log reports completion, and whose exit code was not zero. -/
def failedGet : ExperimentDir Rat where
  name := "ex1_seed0"
  metaJson := .absent
  resultsJson := .json (.list [.dict [(.str "op_type", .str "get"),
    (.str "log_file", .str "logs/cefgetfile_eval_h1_a.log"), (.str "success", .bool false)]])
  files := [("cefgetfile_eval_h1_a.log", "[cefgetfile] Completed to get all the chunks.\n".toList)]

/-- The rows of its summary. -/
def failedGetRows : Grouped Rat :=
  match collectRecords (fun _ => 0) [some failedGet] with
  | .ok grouped => grouped
  | .error _ => []

theorem success_column_failedGet :
    collectRecords (fun _ => 0) [some failedGet] = .ok failedGetRows ∧
      List.Forall₂ (Joins .cefgetfile) (contentLogs .cefgetfile [some failedGet])
        (rowsOf failedGetRows .cefgetfile) := by
  have hrun : collectRecords (fun _ => 0) [some failedGet] = .ok failedGetRows := rfl
  exact ⟨hrun, (success_column hrun).1 .cefgetfile⟩

/-- The record was written from the runtime's verdict over the text of that very log, and says
    failure; the summary says success. -/
theorem summary_contradicts_record :
    (fromRuntimeGet 1 "[cefgetfile] Completed to get all the chunks.\n".toList true).success =
        some false ∧
      (contentLogs .cefgetfile [some failedGet]).map storedSuccess = [some false] ∧
      (rowsOf failedGetRows .cefgetfile).map (fun row => row.get? "success") =
        [some (.bool true)] :=
  ⟨rfl, rfl, rfl⟩

end SummaryCsv
end Proof
end CeforeEmu
