import CeforeEmu.Proof.SummaryCsv

/-!
# Logs that are cut, or say something else

A record has every column whatever the text, and a field the log does not show is `None`. What the
schema parser does not bear is a numeric field the log shows and that is no number: the conversion
raises, and nothing catches it. The loop after it, over the labels the schema does not have, does
catch it, and keeps the text; but a label of its own can be spelled into the name of a numeric
column, and then that text stands there.

Both are seen in the text alone. `partial_log_iff` says of every text and command that a log is
tolerated exactly when neither happens.
-/

set_option autoImplicit false

namespace CeforeEmu
namespace Proof
namespace PartialLogs

open CeforeEmu.Lib CeforeEmu.Core CeforeEmu.Log

variable {τ : Type} {float : Text → τ} {text : Text} {command : Command}

/-! ## Numbers -/

/-- A number or `None`. -/
def IsNumeric : Value τ → Prop
  | .int _ | .num _ | .null => True
  | _ => False

/-- What follows a label is a number, up to its unit. -/
def isNumeral (raw : Text) : Bool :=
  (stripUnit raw.strip).int?.isSome || (stripUnit raw.strip).isFloat

theorem parseNumeric_returns_iff {raw : Text} :
    (∃ value, parseNumeric float (stripUnit raw.strip) = .ok value) ↔ isNumeral raw = true := by
  rw [isNumeral, Bool.or_eq_true, parseNumeric]
  cases hint : (stripUnit raw.strip).int? with
  | some n => exact ⟨fun _ => .inl rfl, fun _ => ⟨_, rfl⟩⟩
  | none =>
    by_cases hfloat : (stripUnit raw.strip).isFloat = true
    · simp only [if_pos hfloat]
      exact ⟨fun _ => .inr hfloat, fun _ => ⟨_, rfl⟩⟩
    · simp only [if_neg hfloat]
      constructor
      · rintro ⟨value, h⟩
        cases h
      · rintro (h | h)
        · cases h
        · exact absurd h hfloat

theorem parseNumeric_numeric {raw : Text} {value : Value τ}
    (h : parseNumeric float raw = .ok value) : IsNumeric value := by
  rw [parseNumeric] at h
  split at h
  · cases h
    trivial
  · split at h
    · cases h
      trivial
    · cases h

/-! ## The fields of the schema -/

/-- The log does not show the field, or shows a number. -/
def ShowsNumber (command : Command) (text : Text) (field : Field) : Prop :=
  ∀ raw, (field.valuePattern command).search text = some raw → isNumeral raw = true

theorem parseField_returns_iff {field : Field} :
    (∃ value, parseField float text command field = .ok value) ↔
      (field.kind = .numeric → ShowsNumber command text field) := by
  rw [parseField]
  split
  · rename_i hkind
    constructor
    · intro _ h
      rw [hkind] at h
      cases h
    · intro _
      exact ⟨_, rfl⟩
  · rename_i hkind
    refine ⟨fun _ h => absurd (hkind.symm.trans h) (by decide), fun _ => ?_⟩
    split
    · exact ⟨_, rfl⟩
    · exact ⟨_, rfl⟩
  · rename_i hkind
    split
    · rename_i raw hsearch
      rw [parseNumeric_returns_iff]
      constructor
      · intro h _ raw' hraw'
        rw [hsearch] at hraw'
        cases hraw'
        exact h
      · intro h
        exact h hkind raw hsearch
    · rename_i hsearch
      refine ⟨fun _ _ raw' hraw' => ?_, fun _ => ⟨_, rfl⟩⟩
      rw [hsearch] at hraw'
      cases hraw'

theorem parseField_numeric {field : Field} {value : Value τ} (hkind : field.kind = .numeric)
    (h : parseField float text command field = .ok value) : IsNumeric value := by
  rw [parseField, hkind] at h
  simp only at h
  split at h
  · exact parseNumeric_numeric h
  · cases h
    trivial

theorem parseFields_returns_iff {fields : List Field} (record : Record τ) :
    (∃ record', parseFields float text command fields record = .ok record') ↔
      ∀ field ∈ fields, ∃ value, parseField float text command field = .ok value := by
  induction fields generalizing record with
  | nil => exact ⟨fun _ field h => absurd h List.not_mem_nil, fun _ => ⟨record, rfl⟩⟩
  | cons field fields ih =>
    rw [List.forall_mem_cons]
    constructor
    · rintro ⟨record', h⟩
      obtain ⟨value, hvalue, h⟩ := bind_eq_ok.mp h
      exact ⟨⟨value, hvalue⟩, (ih _).mp ⟨record', h⟩⟩
    · rintro ⟨⟨value, hvalue⟩, hrest⟩
      obtain ⟨record', h⟩ := (ih (record.set field.name value)).mpr hrest
      exact ⟨record', bind_eq_ok.mpr ⟨value, hvalue, h⟩⟩

/-- A column that is no field's stays as it was. -/
theorem parseFields_other {fields : List Field} {record record' : Record τ} {column : String}
    (hcol : ∀ field ∈ fields, field.name ≠ column)
    (h : parseFields float text command fields record = .ok record') :
    record'.get? column = record.get? column := by
  induction fields generalizing record with
  | nil =>
    cases h
    rfl
  | cons field fields ih =>
    obtain ⟨hfield, hcol⟩ := List.forall_mem_cons.mp hcol
    obtain ⟨value, -, h⟩ := bind_eq_ok.mp h
    rw [ih hcol h, Dict.get?_set_ne _ _ hfield.symm]

theorem parseFields_field {fields : List Field} (hnames : (fields.map Field.name).Nodup)
    {record record' : Record τ} (h : parseFields float text command fields record = .ok record')
    {field : Field} (hfield : field ∈ fields) :
    ∃ value, parseField float text command field = .ok value ∧
      record'.get? field.name = some value := by
  induction fields generalizing record with
  | nil => cases hfield
  | cons first fields ih =>
    obtain ⟨hfirst, hnames⟩ := List.nodup_cons.mp hnames
    obtain ⟨value, hvalue, h⟩ := bind_eq_ok.mp h
    rcases List.mem_cons.mp hfield with rfl | hfield
    · refine ⟨value, hvalue, ?_⟩
      rw [parseFields_other (fun other hother heq => ?_) h, Dict.get?_set_self]
      exact hfirst (List.mem_map.mpr ⟨other, hother, heq⟩)
    · exact ih hnames h hfield

theorem fields_named (command : Command) : (command.fields.map Field.name).Nodup ∧
    ∀ field ∈ command.fields, field.name ≠ "timestamp" ∧ field.name ≠ "success" := by
  cases command <;> decide

/-! ## The labels the schema does not have -/

/-- A line of the command with a label the schema does not have. -/
def isUnknown (command : Command) (found : String × Text × Text) : Bool :=
  found.1 = command.text && !command.fields.any fun field => field.logLabel.toList = found.2.1

/-- What such lines say of a column, if any is spelled into its name: the last of them counts. The
    `cefputfile` and `cefgetfile` parsers do not look at them. -/
def unknownText (command : Command) (text : Text) (column : String) : Option Text :=
  match command with
  | .cefputfile | .cefgetfile => none
  | .cefpubfile | .cefsubfile =>
      ((genericKvPattern.findIter 0 text).reverse.find? fun found =>
        isUnknown command found && normaliseKey found.2.1 = column).map (·.2.2)

/-- The number, or the text if it is none. -/
def unknownValue (float : Text → τ) (raw : Text) : Value τ :=
  match parseNumeric float (stripUnit raw.strip) with
  | .ok value => value
  | .error _ => strValue raw.strip

theorem unknownValue_numeric {raw : Text} :
    IsNumeric (unknownValue float raw) ↔ isNumeral raw = true := by
  have hreturns : (∃ value, parseNumeric float (stripUnit raw.strip) = .ok value) ↔
      isNumeral raw = true := parseNumeric_returns_iff
  rw [← hreturns, unknownValue]
  split
  · rename_i value hvalue
    exact ⟨fun _ => ⟨value, hvalue⟩, fun _ => parseNumeric_numeric hvalue⟩
  · rename_i err herr
    constructor
    · intro h
      cases h
    · rintro ⟨value, hvalue⟩
      rw [herr] at hvalue
      cases hvalue

theorem addUnknown_get? (record : Record τ) (found : String × Text × Text) (column : String) :
    (addUnknown float command record found).get? column =
      if isUnknown command found && normaliseKey found.2.1 = column then
        some (unknownValue float found.2.2)
      else record.get? column := by
  have hset : addUnknown float command record found =
      if isUnknown command found then
        record.set (normaliseKey found.2.1) (unknownValue float found.2.2)
      else record := by
    rw [addUnknown, isUnknown, unknownValue]
    by_cases hcommand : found.1 = command.text
    · rw [if_neg (not_not.mpr hcommand)]
      cases hknown : command.fields.any fun field => field.logLabel.toList = found.2.1 with
      | true => simp
      | false =>
        simp only [hcommand, decide_true, Bool.not_false, Bool.and_self, if_true]
        cases parseNumeric float (stripUnit found.2.2.strip) <;> rfl
    · rw [if_pos hcommand]
      simp [hcommand]
  rw [hset]
  cases hunknown : isUnknown command found with
  | false => rfl
  | true =>
    rw [if_pos rfl, Dict.get?_set]
    simp [eq_comm]

/-! ## Records -/

theorem parseSchemaFields_returns_iff :
    (∃ fields, parseSchemaFields float text command = .ok fields) ↔
      ∀ field ∈ command.fields, field.kind = .numeric → ShowsNumber command text field := by
  rw [parseSchemaFields, parseFields_returns_iff]
  exact forall₂_congr fun field _ => parseField_returns_iff

/-- **A record** is what the schema's fields say, written over by what other labels say and by the
    verdict. -/
theorem parseLog_spec (float : Text → τ) (command : Command) (text : Text) :
    ((∃ record, parseLog float command text = .ok record) ↔
        ∃ fields, parseSchemaFields float text command = .ok fields) ∧
      ∀ record, parseLog float command text = .ok record →
        ∃ fields, parseSchemaFields float text command = .ok fields ∧
          ∀ column, column ≠ "success" → record.get? column =
            ((unknownText command text column).map (unknownValue float)).or
              (fields.get? column) := by
  have hshape : ∃ later : Record τ → Value τ, ∃ mid : Record τ → Record τ,
      parseLog float command text = (do
        let fields ← parseSchemaFields float text command
        return (mid fields).set "success" (later fields)) ∧
      ∀ fields column, (mid fields).get? column =
        ((unknownText command text column).map (unknownValue float)).or (fields.get? column) := by
    have hpubsub : ∀ (fields : Record τ) (column : String),
        ((genericKvPattern.findIter 0 text).foldl (addUnknown float command) fields).get? column =
          ((((genericKvPattern.findIter 0 text).reverse.find? fun found =>
            isUnknown command found && normaliseKey found.2.1 = column).map (·.2.2)).map
              (unknownValue float)).or (fields.get? column) := by
      intro fields column
      rw [Dict.get?_foldl_last (fun d b => addUnknown_get? d b column), Option.map_map]
      rfl
    cases command with
    | cefputfile => exact ⟨_, id, rfl, fun _ _ => rfl⟩
    | cefgetfile => exact ⟨_, id, rfl, fun _ _ => rfl⟩
    | cefpubfile => exact ⟨_, _, rfl, hpubsub⟩
    | cefsubfile => exact ⟨_, _, rfl, hpubsub⟩
  obtain ⟨later, mid, hrun, hmid⟩ := hshape
  rw [hrun]
  constructor
  · constructor
    · rintro ⟨record, h⟩
      obtain ⟨fields, hfields, -⟩ := bind_eq_ok.mp h
      exact ⟨fields, hfields⟩
    · rintro ⟨fields, hfields⟩
      exact ⟨_, bind_eq_ok.mpr ⟨fields, hfields, rfl⟩⟩
  · intro record h
    obtain ⟨fields, hfields, h⟩ := bind_eq_ok.mp h
    cases h
    refine ⟨fields, hfields, fun column hcol => ?_⟩
    rw [Dict.get?_set_ne _ _ hcol, hmid]

/-- **A log is tolerated exactly when its numbers are numbers.** For every text and each of the
    commands, the parser returns a record with every column, the numeric ones numbers or `None`,
    exactly when each numeric field the log shows is a number up to its unit, and the last unknown
    label spelled into the name of one, if there is any, comes with a number. -/
theorem partial_log_iff (float : Text → τ) (command : Command) (text : Text) :
    (∃ record, parseLog float command text = .ok record ∧
        (∀ column ∈ "timestamp" :: command.fields.map Field.name ++ ["success"],
          (record.get? column).isSome) ∧
        ∀ field ∈ command.fields, field.kind = .numeric →
          ∃ value, record.get? field.name = some value ∧ IsNumeric value) ↔
      ∀ field ∈ command.fields, field.kind = .numeric → ShowsNumber command text field ∧
        ∀ raw, unknownText command text field.name = some raw → isNumeral raw = true := by
  obtain ⟨hreturns, hspec⟩ := parseLog_spec float command text
  obtain ⟨hnodup, hnames⟩ := fields_named command
  constructor
  · rintro ⟨record, h, -, hnumeric⟩ field hfield hkind
    obtain ⟨fields, hfields, hget⟩ := hspec record h
    refine ⟨parseSchemaFields_returns_iff.mp ⟨fields, hfields⟩ field hfield hkind, ?_⟩
    intro raw hraw
    obtain ⟨value, hvalue, hnum⟩ := hnumeric field hfield hkind
    rw [hget _ (hnames field hfield).2, hraw] at hvalue
    cases hvalue
    exact unknownValue_numeric.mp hnum
  · intro hnumbers
    obtain ⟨record, h⟩ := hreturns.mpr (parseSchemaFields_returns_iff.mpr
      fun field hfield hkind => (hnumbers field hfield hkind).1)
    obtain ⟨fields, hfields, hget⟩ := hspec record h
    -- what the schema parser wrote is there, or written over
    have hor : ∀ {column : String}, column ≠ "success" → (fields.get? column).isSome →
        (record.get? column).isSome := by
      intro column hcol hsome
      rw [hget column hcol, Option.isSome_or, hsome, Bool.or_true]
    refine ⟨record, h, ?_, ?_⟩
    · intro column hcolumn
      simp only [List.cons_append, List.mem_cons, List.mem_append, List.mem_map, List.not_mem_nil,
        or_false] at hcolumn
      rcases hcolumn with rfl | ⟨field, hfield, rfl⟩ | rfl
      · apply hor (by decide)
        rw [parseFields_other (fun field hfield => (hnames field hfield).1) hfields]
        rfl
      · apply hor (hnames field hfield).2
        obtain ⟨value, -, hvalue⟩ := parseFields_field hnodup hfields hfield
        rw [hvalue]
        rfl
      · rw [(SummaryCsv.parseLog_success h).2]
        rfl
    · intro field hfield hkind
      obtain ⟨value, hvalue, hstored⟩ := parseFields_field hnodup hfields hfield
      rw [hget _ (hnames field hfield).2, hstored]
      cases hunknown : unknownText command text field.name with
      | none => exact ⟨value, rfl, parseField_numeric hkind hvalue⟩
      | some raw =>
        exact ⟨_, rfl, unknownValue_numeric.mpr ((hnumbers field hfield hkind).2 raw hunknown)⟩

/-- A log cut in a unit aborts its parser; a label in lower case puts its text into a column of
    numbers. -/
theorem cut_log_raises :
    parseLog (fun _ => (0 : Rat)) .cefgetfile "[cefgetfile] Duration = 3.245 se".toList =
        .error (.valueError "could not convert string to float: '3.245 se'") ∧
      (match parseLog (fun _ => (0 : Rat)) .cefsubfile
          "[cefsubfile] rx bytes (all) = none".toList with
        | .ok record => record.get? "rx_bytes_all"
        | .error _ => none) = some (.str "none") :=
  ⟨rfl, rfl⟩

end PartialLogs
end Proof
end CeforeEmu
