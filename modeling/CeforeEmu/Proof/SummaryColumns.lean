import CeforeEmu.Proof.PartialLogs

/-!
# Where the columns of a summary come from

The row of a log is joined from `meta.json`, from the log's name and from `results.json`, and then
written over with the record of its text. The schema's columns are no metadata columns, so this
only adds; but the publish and subscribe parsers also keep labels the schema does not have, under
a spelling of their own, and such a label may be spelled into the name of a metadata column. The
value after it then stands where the metadata stood.

`metadata_columns_iff` says so of every row of every summary. What the row should have held is
`sourceRow`, which has no text to look at.
-/

set_option autoImplicit false

namespace CeforeEmu
namespace Proof
namespace SummaryColumns

open CeforeEmu.Lib CeforeEmu.Core CeforeEmu.Log SummaryCsv PartialLogs

variable {τ : Type}

/-- The columns that come from `meta.json`, the log's name and `results.json`. -/
def metadataColumns : List String := "experiment_dir" :: metaKeys ++ filenameKeys

theorem metadataColumns_filled : ∀ column ∈ metadataColumns, column ≠ "uri" ∧ column ≠ "success" := by
  decide

theorem metadataColumns_unparsed (command : Command) :
    ∀ column ∈ metadataColumns, column ≠ "timestamp" ∧
      ∀ field ∈ command.fields, field.name ≠ column := by
  cases command <;> decide

/-- The text of a log only gets into a metadata column under a label the schema does not have. -/
theorem record_column {float : Text → τ} {command : Command} {text : Text} {record : Record τ}
    (h : parseLog float command text = .ok record) {column : String}
    (hcol : column ∈ metadataColumns) :
    record.get? column = (unknownText command text column).map (unknownValue float) := by
  obtain ⟨fields, hfields, hget⟩ := (parseLog_spec float command text).2 record h
  obtain ⟨hstamp, hnames⟩ := metadataColumns_unparsed command column hcol
  have hnone : fields.get? column = none := by
    rw [parseFields_other hnames hfields, Dict.get?_cons, if_neg hstamp.symm, Dict.get?_nil]
  rw [hget column (metadataColumns_filled column hcol).2, hnone, Option.or_none]

/-- A record is written over the columns, except where it has none. -/
theorem logRow_column [DecidableEq τ] {metaRow : Record τ} {name : String} {cmeta : ContentLogMeta}
    {result : Option (Mapping τ)} {record : Record τ} (hnodup : Dict.NodupKeys record)
    {column : String} (hcol : column ≠ "uri" ∧ column ≠ "success") :
    (logRow metaRow name cmeta result record).get? column =
      (record.get? column).or ((logRow metaRow name cmeta result []).get? column) := by
  have hfill : ∀ (row : Record τ) (result : Mapping τ),
      (["uri", "success"].foldl (fillFrom result) row).get? column = row.get? column := by
    intro row result
    rw [List.foldl_cons, List.foldl_cons, List.foldl_nil, fillFrom_other _ _ hcol.2,
      fillFrom_other _ _ hcol.1]
  unfold logRow
  cases result with
  | none => exact Dict.get?_merge hnodup _ _
  | some result =>
    simp only [hfill]
    exact Dict.get?_merge hnodup _ _

section Join

variable [IntCast τ] [DecidableEq τ]

/-- What a log's row holds before its text is looked at. -/
def sourceRow (dirName : String) (metaJson resultsJson : JsonFile τ) (name : String) : Record τ :=
  (joinRow dirName metaJson resultsJson name []).getD []

/-- **A metadata column** holds what the log says under a label spelled into its name, if there is
    any, and what the sources say if there is none. -/
theorem row_column {float : Text → τ} {command : Command} {log : ContentLog τ} {row : Record τ}
    (h : RowOf float command log row) {column : String} (hcol : column ∈ metadataColumns) :
    row.get? column = ((unknownText command log.text column).map (unknownValue float)).or
      ((sourceRow log.dir.name log.dir.metaJson log.dir.resultsJson log.name).get? column) := by
  obtain ⟨record, hrecord, hjoin⟩ := h
  have hsource : ∃ mrow cmeta result, row = logRow mrow log.name cmeta result record ∧
      sourceRow log.dir.name log.dir.metaJson log.dir.resultsJson log.name =
        logRow mrow log.name cmeta result [] := by
    simp only [joinRow, Option.bind_eq_bind, Option.bind_eq_some_iff] at hjoin
    obtain ⟨meta', hmeta, results, hresults, mrow, hrow, cmeta, hname, heq⟩ := hjoin
    cases heq
    refine ⟨mrow, cmeta, results.get? log.name, rfl, ?_⟩
    simp only [sourceRow, joinRow, hmeta, hresults, hname, hrow, Option.bind_eq_bind,
      Option.bind_some, Option.pure_def, Option.getD_some]
  obtain ⟨mrow, cmeta, result, hrow, hsource⟩ := hsource
  rw [hsource, hrow, ← record_column hrecord hcol]
  exact logRow_column (parseLog_success hrecord).1 (metadataColumns_filled column hcol)

/-- **Metadata columns are the sources' exactly when no label says otherwise.** In every summary of
    every list of directories, the metadata columns of a log's row are what `meta.json`, the log's
    name and `results.json` make them exactly when each label the schema does not have, that is
    spelled into the name of one, comes last with the very value the column has anyway. -/
theorem metadata_columns_iff {float : Text → τ} {directories : List (Option (ExperimentDir τ))}
    {grouped : Grouped τ} (h : collectRecords float directories = .ok grouped) (command : Command) :
    List.Forall₂ (fun log row =>
        (∀ column ∈ metadataColumns, row.get? column =
          (sourceRow log.dir.name log.dir.metaJson log.dir.resultsJson log.name).get? column) ↔
        ∀ column ∈ metadataColumns, ∀ raw, unknownText command log.text column = some raw →
          (sourceRow log.dir.name log.dir.metaJson log.dir.resultsJson log.name).get? column =
            some (unknownValue float raw))
      (contentLogs command directories) (rowsOf grouped command) := by
  refine (collectRecords_rows h command).imp fun log row hof => ?_
  refine forall₂_congr fun column hcol => ?_
  rw [row_column hof hcol]
  cases unknownText command log.text column with
  | none =>
    refine ⟨fun _ raw hraw => ?_, fun _ => rfl⟩
    cases hraw
  | some raw =>
    constructor
    · intro heq raw' hraw'
      cases hraw'
      exact heq.symm
    · intro hsame
      exact (hsame raw rfl).symm

end Join

/-- A directory with the log of a subscriber. -/
def subscriberDir (text : String) : ExperimentDir Rat where
  name := "ex1_seed0"
  metaJson := .absent
  resultsJson := .absent
  files := [("cefsubfile_event_h1_a.log", text.toList)]

/-- Its summary. -/
def subscriberSummary (text : String) : Grouped Rat :=
  match collectRecords (fun _ => 0) [some (subscriberDir text)] with
  | .ok grouped => grouped
  | .error _ => []

theorem metadata_columns_subscriber :
    (rowsOf (subscriberSummary "[cefsubfile] URI = ccnx:/a\n") .cefsubfile).map
      (fun row => metadataColumns.map fun column => row.get? column) =
    [metadataColumns.map fun column =>
      (sourceRow "ex1_seed0" .absent .absent "cefsubfile_event_h1_a.log" : Record Rat).get? column] := by
  have hrun : collectRecords (fun _ => (0 : Rat))
      [some (subscriberDir "[cefsubfile] URI = ccnx:/a\n")] =
      .ok (subscriberSummary "[cefsubfile] URI = ccnx:/a\n") := rfl
  have hrows := metadata_columns_iff hrun .cefsubfile
  have hlogs : contentLogs .cefsubfile [some (subscriberDir "[cefsubfile] URI = ccnx:/a\n")] =
      [⟨subscriberDir "[cefsubfile] URI = ccnx:/a\n", "cefsubfile_event_h1_a.log",
        "[cefsubfile] URI = ccnx:/a\n".toList⟩] := rfl
  rw [hlogs] at hrows
  obtain ⟨row, rows, hrow, hnil, heq⟩ := List.forall₂_cons_left_iff.mp hrows
  rw [heq, List.forall₂_nil_left_iff.mp hnil, List.map_singleton, List.singleton_inj]
  refine List.map_congr_left (hrow.mpr fun column _ raw hraw => ?_)
  have hfound : genericKvPattern.findIter 0 "[cefsubfile] URI = ccnx:/a\n".toList =
      [("cefsubfile", "URI".toList, "ccnx:/a".toList)] := rfl
  rw [unknownText, hfound] at hraw
  cases hraw

/-- Two logs of one name, and two hosts. -/
theorem host_id_forged :
    (rowsOf (subscriberSummary "[cefsubfile] URI = ccnx:/a\n") .cefsubfile).map
        (fun row => row.get? "host_id") = [some (.int 1)] ∧
      (rowsOf (subscriberSummary "[cefsubfile] host id = 99\n") .cefsubfile).map
        (fun row => row.get? "host_id") = [some (.int 99)] :=
  ⟨rfl, rfl⟩

end SummaryColumns
end Proof
end CeforeEmu
