import CeforeEmu.Core.Validator
import CeforeEmu.Proof.ExplicitLinks

/-!
# What `validate_config` returns

Most checks compare with `==`, look in tuples, or look at a value only after its type is known, and
those can be made on any value. Two places ask a *set* about a value of the document: the repeat
allowlist is asked about the `type` of every event that is a mapping, and the known artifacts are
asked about every entry of `debug.artifacts`. A list or a mapping there cannot be hashed, so
`validate_config` raises on exactly those documents (`validate_returns_iff`).
-/

set_option autoImplicit false

namespace CeforeEmu
namespace Proof

open CeforeEmu.Lib CeforeEmu.Core

/-! ## Fields and options without a message -/

/-- A list is read when each of its values is. -/
theorem exists_mapM {α β : Type} {f : α → Option β} {P : β → Prop} :
    ∀ {vs : List α}, (∀ v ∈ vs, ∃ b, f v = some b ∧ P b) →
      ∃ bs, vs.mapM f = some bs ∧ ∀ b ∈ bs, P b
  | [], _ => ⟨[], rfl, by simp⟩
  | v :: vs, h => by
    obtain ⟨⟨b, hb, hP⟩, h⟩ := List.forall_mem_cons.mp h
    obtain ⟨bs, hbs, hPs⟩ := exists_mapM h
    exact ⟨b :: bs, by simp [List.mapM_cons, hb, hbs], List.forall_mem_cons.mpr ⟨hP, hPs⟩⟩

section Checked

variable {τ : Type}

theorem int_of_isInt {v : Value τ} (h : v.isInt = true) : ∃ n : ℤ, v = .int n := by
  cases v with
  | int n => exact ⟨n, rfl⟩
  | _ => cases h

theorem str_of_isStr {v : Value τ} (h : v.isStr = true) : ∃ s : String, v = .str s := by
  cases v with
  | str s => exact ⟨s, rfl⟩
  | _ => cases h

variable [DecidableEq τ]

/-- What stands in a field that has been checked. -/
theorem fieldErrors_nil {m : Mapping τ} {field msg : String} {ok : Value τ → Bool}
    (h : fieldErrors m field ok msg = []) {v : Value τ} (hv : m.get? field = some v) :
    ok v = true := by
  simp only [fieldErrors, hv] at h
  by_contra hbad
  rw [if_neg hbad] at h
  cases h

omit [DecidableEq τ] in
/-- The entries of a list that has been checked. -/
theorem entries_of_entryErrors {path : String} {rules : Mapping τ → String → List String}
    {entries : List (Value τ)} (h : Core.entryErrors path rules entries = []) :
    ∀ v ∈ entries, ∃ entry entryPath, v = .dict entry ∧ rules entry entryPath = [] := by
  intro v hv
  obtain ⟨i, hi, rfl⟩ := List.getElem_of_mem hv
  have hmem : (entries[i], i) ∈ entries.zipIdx := List.mem_zipIdx_iff_getElem?.mpr (by simp [hi])
  have hnil := List.flatMap_eq_nil_iff.mp h _ hmem
  cases hentry : entries[i] with
  | dict entry =>
    simp only [hentry] at hnil
    exact ⟨entry, _, rfl, hnil⟩
  | _ => simp [hentry] at hnil

theorem entries_of_listKeyErrors {config : Mapping τ} {key path : String}
    {rules : Mapping τ → String → List String} (h : listKeyErrors config key path rules = [])
    {v : Value τ} (hv : config.get? key = some v) :
    ∃ entries, v = .list entries ∧
      ∀ v ∈ entries, ∃ entry entryPath, v = .dict entry ∧ rules entry entryPath = [] := by
  simp only [listKeyErrors, hv] at h
  cases v with
  | list entries => exact ⟨entries, rfl, entries_of_entryErrors h⟩
  | _ => cases h

variable [IntCast τ] [LT τ] [DecidableLT τ]

/-- An option that the table has nothing against. -/
theorem flatValue_of_flatKeyErrors {config : Mapping τ} (hflat : flatKeyErrors config = [])
    {spec : OptionSpec} (hspec : spec ∈ flatSpecs) {v : Value τ}
    (hv : config.get? spec.key = some v) :
    (spec.nullable = true ∧ v.isNull = true) ∨ flatValueOk spec v = true := by
  refine flatValue_of_not_mem hspec hv ?_
  rw [hflat]
  exact List.not_mem_nil

/-- An integer option that the table has nothing against. -/
theorem int_of_flatKeyErrors {config : Mapping τ} (hflat : flatKeyErrors config = [])
    (key : String) (minimum : Option ℤ)
    (hspec : ∃ spec ∈ flatSpecs, spec.key = key ∧ spec.kind = .int ∧ spec.nullable = false ∧
      spec.minimum = minimum) (hkey : (config.get? key).isSome) :
    ∃ n : ℤ, config.get? key = some (.int n) ∧ ∀ m ∈ minimum, m ≤ n := by
  obtain ⟨spec, hmem, rfl, hkind, hnull, rfl⟩ := hspec
  obtain ⟨v, hv⟩ := Option.isSome_iff_exists.mp hkey
  rcases flatValue_of_flatKeyErrors hflat hmem hv with ⟨hyes, -⟩ | hok
  · rw [hnull] at hyes
    cases hyes
  · obtain ⟨n, rfl, hn⟩ := int_of_flatValueOk hkind hok
    exact ⟨n, hv, hn⟩

end Checked

/-! ## Values that cannot be hashed -/

section Hashing

variable {τ : Type}

/-- A list or a mapping. -/
def IsContainer (v : Value τ) : Prop := (∃ vs, v = .list vs) ∨ ∃ d, v = .dict d

theorem unhashable?_some {v : Value τ} : unhashable? (some v) = none ↔ ¬ IsContainer v := by
  cases v with
  | list vs => simp [unhashable?, IsContainer]
  | dict d => simp [unhashable?, IsContainer]
  | _ => simp [unhashable?, IsContainer]

theorem unhashable?_eq_none {o : Option (Value τ)} :
    unhashable? o = none ↔ ∀ v, o = some v → ¬ IsContainer v := by
  cases o with
  | none => simp [unhashable?]
  | some v =>
    rw [unhashable?_some]
    constructor
    · rintro h v' heq
      cases heq
      exact h
    · exact fun h => h v rfl

variable [DecidableEq τ]

/-- No event that is a mapping has a list or a mapping as its type. -/
def HashableTypes (config : Mapping τ) : Prop :=
  ∀ events, config.get? "events" = some (.list events) → ∀ event : Event τ, .dict event ∈ events →
    ∀ v, event.get? "type" = some v → ¬ IsContainer v

/-- No debug artifact is a list or a mapping. -/
def HashableArtifacts (config : Mapping τ) : Prop :=
  ∀ debug : Mapping τ, config.get? "debug" = some (.dict debug) →
    ∀ artifacts, debug.get? "artifacts" = some (.list artifacts) →
      ∀ v ∈ artifacts, ¬ IsContainer v

end Hashing

/-! ## The checks that can raise -/

section Artifacts

variable {τ : Type} [FloatFacts τ]

theorem artifactErrors_returns : ∀ artifacts : List (Value τ),
    (∃ errors, artifactErrors artifacts = .ok errors) ↔ ∀ v ∈ artifacts, ¬ IsContainer v
  | [] => by simp [artifactErrors]
  | art :: rest => by
    rw [List.forall_mem_cons, ← artifactErrors_returns rest, ← unhashable?_some, artifactErrors]
    cases hart : unhashable? (some art) with
    | some err => simp
    | none =>
      cases hrest : artifactErrors rest with
      | error err => simp
      | ok errors => simp

variable [DecidableEq τ]

theorem debugErrors_returns (config : Mapping τ) :
    (∃ errors, debugErrors config = .ok errors) ↔ HashableArtifacts config := by
  rw [debugErrors, HashableArtifacts]
  split
  · rename_i h
    simp [h]
  · rename_i b h
    simp [h]
  · rename_i debug h
    simp only [h, Option.some.injEq, Value.dict.injEq, forall_eq']
    split
    · rename_i hart
      simp [hart]
    · rename_i artifacts hart
      simp only [hart, Option.some.injEq, Value.list.injEq, forall_eq']
      rw [← artifactErrors_returns]
      cases artifactErrors artifacts with
      | error err => simp
      | ok errors => simp
    · rename_i v hlist hart
      constructor
      · intro _ artifacts hartifacts
        rw [hart, Option.some.injEq] at hartifacts
        exact absurd hartifacts (hlist artifacts)
      · exact fun _ => ⟨_, rfl⟩
  · rename_i v _ hdict h
    constructor
    · intro _ debug hdebug
      rw [h, Option.some.injEq] at hdebug
      exact absurd hdebug (hdict debug)
    · exact fun _ => ⟨_, rfl⟩

end Artifacts

section Returns

variable {τ : Type} [IntCast τ] [DecidableEq τ] [LT τ] [DecidableLT τ] [LE τ] [DecidableLE τ]
  [FloatFacts τ]

theorem eventErrors_returns (checks : EventChecks τ) (idx : ℕ) (event : Event τ) :
    (∃ errors, eventErrors checks idx event = .ok errors) ↔
      unhashable? (event.get? "type") = none := by
  cases h : unhashable? (event.get? "type") with
  | none => simp [eventErrors, h]
  | some err => simp [eventErrors, h]

theorem eventListErrors_returns (checks : EventChecks τ) : ∀ (vs : List (Value τ)) (idx : ℕ),
    (∃ errors, eventListErrors checks idx vs = .ok errors) ↔
      ∀ event : Event τ, .dict event ∈ vs → unhashable? (event.get? "type") = none
  | [], idx => by simp [eventListErrors]
  | v :: rest, idx => by
    have ih := eventListErrors_returns checks rest (idx + 1)
    -- the rest is looked at only when the first entry has not raised
    have hsplit : (∃ errors, eventListErrors checks idx (v :: rest) = .ok errors) ↔
        (∀ event : Event τ, v = .dict event → unhashable? (event.get? "type") = none) ∧
          ∃ errors, eventListErrors checks (idx + 1) rest = .ok errors := by
      cases v with
      | dict event =>
        simp only [eventListErrors, Value.dict.injEq, forall_eq']
        rw [← eventErrors_returns checks idx event]
        cases hfirst : eventErrors checks idx event with
        | error err => simp
        | ok errors =>
          cases hrest : eventListErrors checks (idx + 1) rest with
          | error err => simp
          | ok more => simp
      | _ =>
        simp only [eventListErrors]
        cases hrest : eventListErrors checks (idx + 1) rest with
        | error err => simp
        | ok more => simp
    rw [hsplit, ih]
    constructor
    · rintro ⟨hfirst, hrest⟩ event hmem
      rcases List.mem_cons.mp hmem with heq | hmem
      · exact hfirst event heq.symm
      · exact hrest event hmem
    · intro h
      refine ⟨fun event heq => h event ?_, fun event hmem => h event (List.mem_cons_of_mem _ hmem)⟩
      rw [heq]
      exact List.mem_cons_self

theorem eventsErrors_returns (config : Mapping τ) :
    (∃ errors, eventsErrors config = .ok errors) ↔ HashableTypes config := by
  rw [eventsErrors, HashableTypes]
  split
  · rename_i h
    simp [h]
  · rename_i events h
    rw [eventListErrors_returns]
    simp only [h, Option.some.injEq, Value.list.injEq, forall_eq', unhashable?_eq_none]
  · rename_i v hlist h
    constructor
    · intro _ events hevents
      rw [h, Option.some.injEq] at hevents
      exact absurd hevents (hlist events)
    · exact fun _ => ⟨_, rfl⟩

/-- **`validate_config` returns its messages exactly when everything it hashes can be hashed.** -/
theorem validate_returns_iff (ip : IpTexts) (config : Mapping τ) :
    (∃ errors, validateConfig ip config = .ok errors) ↔
      HashableTypes config ∧ HashableArtifacts config := by
  obtain ⟨links, hlinks⟩ := linksErrors_returns config
  rw [← eventsErrors_returns, ← debugErrors_returns, validateConfig, hlinks]
  cases hevents : eventsErrors config with
  | error err => simp
  | ok events =>
    cases hdebug : debugErrors config with
    | error err => simp
    | ok debug => simp

/-! ## What a clean bill says -/

/-- No rule has a message. -/
structure Passes (config : Mapping τ) : Prop where
  flat : flatKeyErrors config = []
  hostDegree : hostDegreeErrors config = []
  links : linksErrors config = .ok []
  events : eventsErrors config = .ok []

/-- The rules that are asked for below, of all those without a message. -/
theorem clean_of_validate {ip : IpTexts} {config : Mapping τ}
    (h : validateConfig ip config = .ok []) :
    Passes config ∧ cacheConfigErrors config = [] ∧ hostAppsErrors config = [] := by
  rw [validateConfig] at h
  split at h
  · cases h
  · rename_i links hlinks
    split at h
    · cases h
    · rename_i events hevents
      split at h
      · cases h
      · simp only [Except.ok.injEq, List.append_eq_nil_iff, and_assoc] at h
        obtain ⟨hflat, hdegree, -, -, hcache, -, -, -, rfl, -, -, rfl, -, happs, -⟩ := h
        exact ⟨⟨hflat, hdegree, hlinks, hevents⟩, hcache, happs⟩

theorem passes_of_validate {ip : IpTexts} {config : Mapping τ}
    (h : validateConfig ip config = .ok []) : Passes config :=
  (clean_of_validate h).1

/-- Entries without messages are events without messages. -/
theorem eventListErrors_accepted {checks : EventChecks τ} : ∀ {vs : List (Value τ)} {idx : ℕ},
    eventListErrors checks idx vs = .ok [] → ∃ events : List (Event τ), vs = events.map .dict ∧
      ∀ e ∈ events, ∃ i, eventErrors checks i e = .ok []
  | [], _, _ => ⟨[], rfl, fun e he => by cases he⟩
  | v :: rest, idx, h => by
    simp only [eventListErrors] at h
    split at h
    · cases h
    · rename_i errors hfirst
      split at h
      · cases h
      · rename_i more hrest
        simp only [Except.ok.injEq, List.append_eq_nil_iff] at h
        obtain ⟨rfl, rfl⟩ := h
        obtain ⟨events, rfl, hevents⟩ := eventListErrors_accepted hrest
        cases v with
        | dict e =>
          exact ⟨e :: events, rfl, List.forall_mem_cons.mpr ⟨⟨idx, hfirst⟩, hevents⟩⟩
        | _ => cases hfirst

/-- The events of a configuration without messages. -/
theorem Passes.events_accepted {config : Mapping τ} (h : Passes config) {v : Value τ}
    (hv : config.get? "events" = some v) : ∃ events : List (Event τ), v = .list (events.map .dict) ∧
      ∀ e ∈ events, ∃ i, eventErrors (eventChecks (eventContext config)) i e = .ok [] := by
  have hevents := h.events
  rw [eventsErrors, hv] at hevents
  cases v with
  | list vs =>
    obtain ⟨events, rfl, hall⟩ := eventListErrors_accepted hevents
    exact ⟨events, rfl, hall⟩
  | _ => cases hevents

end Returns

/-- An event whose type is a list. -/
def listTypeConfig : Mapping Rat :=
  [("hosts", .int 3), ("events", .list [.dict [("at", .int 0), ("type", .list [])]])]

/-- There is a document on which `validate_config` raises. -/
theorem validate_raises_on_list_type :
    validateConfig ⟨fun _ => true, fun _ => some 16⟩ listTypeConfig
        = .error (.raised (.typeError "unhashable type: 'list'")) ∧
      ¬ ∀ (ip : IpTexts) (config : Mapping Rat), ∃ errors, validateConfig ip config = .ok errors := by
  have hraise : validateConfig ⟨fun _ => true, fun _ => some 16⟩ listTypeConfig
      = .error (.raised (.typeError "unhashable type: 'list'")) := rfl
  refine ⟨hraise, fun h => ?_⟩
  obtain ⟨errors, herrors⟩ := h _ listTypeConfig
  rw [hraise] at herrors
  cases herrors

end Proof
end CeforeEmu
