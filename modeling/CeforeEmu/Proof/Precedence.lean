import Mathlib.Tactic
import CeforeEmu.Core.Loader

/-!
# Which flags survive the configuration file

The merge cannot see which flags were typed. It takes a value that equals the default of its
option for one that was not, and puts the value of the configuration in its place, so a flag that
names the default is overridden. That is the only way a flag is lost, and `FlagHolds` says what it
takes: an option that the configuration may set, a value equal to the default, and another value in
the configuration. Lists are safe, since a flag that adds to a list leaves it different from the
empty default, and so are the options whose default is null.
-/

set_option autoImplicit false
set_option linter.unusedSectionVars false

namespace CeforeEmu
namespace Proof

open CeforeEmu.Lib CeforeEmu.Core

variable {τ : Type} [IntCast τ]

/-! ## Facts about the table -/

theorem optionSpecs_nodup : (optionSpecs.map (·.key)).Nodup := by decide

/-- A key names one row. -/
theorem find_key_iff {specs : List OptionSpec} (hnodup : (specs.map (·.key)).Nodup) {key : String}
    {spec : OptionSpec} :
    (specs.find? fun s => s.key = key) = some spec ↔ spec ∈ specs ∧ spec.key = key := by
  constructor
  · intro h
    exact ⟨List.mem_of_find?_eq_some h, by simpa using List.find?_some h⟩
  · rintro ⟨hmem, rfl⟩
    cases hfound : specs.find? fun s => s.key = spec.key with
    | none => exact absurd (decide_eq_true rfl) (List.find?_eq_none.mp hfound spec hmem)
    | some found =>
      have hkey : found.key = spec.key := by simpa using List.find?_some hfound
      rw [List.inj_on_of_nodup_map hnodup (List.mem_of_find?_eq_some hfound) hmem hkey]

/-- The keys of some of the rows, asked for a row. -/
theorem mem_keys_filter {spec : OptionSpec} (h : spec ∈ optionSpecs) {p : OptionSpec → Bool} :
    spec.key ∈ (optionSpecs.filter p).map (·.key) ↔ p spec = true := by
  constructor
  · intro hkey
    obtain ⟨other, hother, heq⟩ := List.mem_map.mp hkey
    obtain ⟨hmem, hp⟩ := List.mem_filter.mp hother
    rwa [List.inj_on_of_nodup_map optionSpecs_nodup h hmem heq.symm]
  · intro hp
    exact List.mem_map_of_mem (List.mem_filter.mpr ⟨h, hp⟩)

theorem configOptionKeys_nodup : configOptionKeys.Nodup :=
  optionSpecs_nodup.sublist (List.filter_sublist.map _)

theorem parserSpecs_nodup (blocks : List String) : ((parserSpecs blocks).map (·.key)).Nodup :=
  optionSpecs_nodup.sublist (List.filter_sublist.map _)

theorem mem_parserSpecs {blocks : List String} {spec : OptionSpec} :
    spec ∈ parserSpecs blocks ↔
      spec ∈ optionSpecs ∧ spec.cliAllowed = true ∧ ∃ b ∈ blocks, b ∈ spec.block := by
  rw [parserSpecs, List.mem_filter, decide_eq_true_iff]

/-- The options with a merge of their own have no flag, `--debug` apart. -/
theorem special_no_flag : ∀ special ∈ optionSpecs, special.specialConfigMerge = true →
    special.key ≠ "debug" → special.cliAllowed = false := by
  decide

/-- The debug flags are not merged by the first loop. -/
theorem debug_not_merged : ∀ spec ∈ optionSpecs, "debug" ∈ spec.block →
    ¬ (spec.configAllowed = true ∧ ¬ spec.specialConfigMerge = true) := by
  decide

/-- No option of a parser is written by the second loop of the merge. -/
theorem flags_notSpecial {blocks : List String} {spec : OptionSpec}
    (hspec : spec ∈ parserSpecs blocks) : ∀ special ∈ optionSpecs,
      special.specialConfigMerge = true → special.key ≠ "debug" → spec.key ≠ special.key := by
  intro special hspecial hmerge hdebug hkey
  obtain ⟨hmem, hcli, -⟩ := mem_parserSpecs.mp hspec
  have hsame : spec = special := List.inj_on_of_nodup_map optionSpecs_nodup hmem hspecial hkey
  rw [hsame, special_no_flag special hspecial hmerge hdebug] at hcli
  cases hcli

/-- The parser the defaults are read from has every option the merge may set. -/
theorem flags_precedence {entry : EntryPoint} {spec : OptionSpec} (hspec : spec ∈ entry.flags)
    (hkey : spec.key ∈ configOptionKeys) : spec ∈ parserSpecs entry.blocks := by
  obtain ⟨hmem, hcli, b, hb, hblock⟩ := mem_parserSpecs.mp hspec
  refine mem_parserSpecs.mpr ⟨hmem, hcli, b, ?_, hblock⟩
  rcases List.mem_append.mp hb with hb | hb
  · exact hb
  · rw [List.mem_singleton.mp hb] at hblock
    have hmerged := (mem_keys_filter hmem).mp hkey
    exact absurd (of_decide_eq_true hmerged) (debug_not_merged spec hmem hblock)

theorem flags_config {blocks : List String} {spec : OptionSpec} (hspec : spec ∈ parserSpecs blocks) :
    (spec.key ∈ configOptionKeys ↔ spec.configAllowed = true ∧ spec.specialConfigMerge = false) ∧
    (spec.key ∈ configOptionKeys → (spec.key ∈ nullableOptionKeys ↔ spec.nullable = true)) := by
  have hmem := (mem_parserSpecs.mp hspec).1
  rw [configOptionKeys, nullableOptionKeys, mem_keys_filter hmem, mem_keys_filter hmem]
  simp only [decide_eq_true_iff, Bool.not_eq_true, true_and]
  intro hallowed
  exact and_iff_right hallowed.1

/-- The two parsers differ in the debug flags only. -/
theorem find_flags (entry : EntryPoint) {key : String} (hkey : key ∈ configOptionKeys) :
    (entry.flags.find? fun spec => spec.key = key)
      = (parserSpecs entry.blocks).find? fun spec => spec.key = key := by
  apply Option.ext
  intro spec
  rw [EntryPoint.flags, find_key_iff (parserSpecs_nodup _), find_key_iff (parserSpecs_nodup _)]
  constructor
  · rintro ⟨hspec, rfl⟩
    exact ⟨flags_precedence hspec hkey, rfl⟩
  · rintro ⟨hspec, rfl⟩
    obtain ⟨hmem, hcli, b, hb, hblock⟩ := mem_parserSpecs.mp hspec
    exact ⟨mem_parserSpecs.mpr ⟨hmem, hcli, b, List.mem_append_left _ hb, hblock⟩, rfl⟩

theorem configOptionKeys_notSpecial {key : String} (hkey : key ∈ configOptionKeys) :
    ∀ special ∈ optionSpecs, special.specialConfigMerge = true → key ≠ special.key := by
  rintro special hspecial hmerge rfl
  have hmerged := (mem_keys_filter hspecial).mp hkey
  exact (of_decide_eq_true hmerged).2 hmerge

/-- The two options that the last lines of the merge look at are lists. -/
theorem flags_wrapped : ∀ entry : EntryPoint, ∀ key ∈ ["bw", "ext"], ∃ spec ∈ entry.flags,
    spec.key = key ∧ spec.action = some .append ∧ spec.default = .emptyList := by
  intro entry
  cases entry <;> decide

/-! ## What a command line leaves behind -/

/-- Every option has a value, and one that collects a list has one that is not empty once its flag
    was given. -/
def ParsedOption (given : List String) (args : Namespace τ) (spec : OptionSpec) : Prop :=
  ∃ v, args.get? spec.key = some v ∧
    (spec.action = some .append → spec.default = .emptyList →
      ∃ vs, v = .list vs ∧ (spec.key ∈ given → vs ≠ []))

theorem get?_parserDefaults (specs : List OptionSpec) (key : String) :
    (parserDefaults specs : Namespace τ).get? key
      = (specs.find? fun spec => spec.key = key).map fun spec => spec.default.value := by
  induction specs with
  | nil => rfl
  | cons spec specs ih =>
    rw [parserDefaults, List.map_cons, Dict.get?_cons, List.find?_cons]
    by_cases hkey : spec.key = key
    · simp [hkey]
    · simp only [hkey, if_false, decide_false]
      exact ih

theorem get?_defaults {entry : EntryPoint} {spec : OptionSpec} (hspec : spec ∈ entry.flags)
    (hkey : spec.key ∈ configOptionKeys) :
    (entry.defaults : Namespace τ).get? spec.key = some spec.default.value := by
  have hfound := (find_key_iff (parserSpecs_nodup _)).mpr ⟨flags_precedence hspec hkey, rfl⟩
  rw [EntryPoint.defaults, get?_parserDefaults, hfound, Option.map_some]

theorem parsed_defaults {specs : List OptionSpec} (hnodup : (specs.map (·.key)).Nodup) :
    ∀ spec ∈ specs, ParsedOption [] (parserDefaults specs : Namespace τ) spec := by
  intro spec hspec
  have hfound := (find_key_iff hnodup).mpr ⟨hspec, rfl⟩
  refine ⟨spec.default.value, ?_, fun _ hdefault => ⟨[], ?_, fun h => by cases h⟩⟩
  · rw [get?_parserDefaults, hfound, Option.map_some]
  · rw [hdefault, OptionDefault.value]

theorem storedValue_append {spec : OptionSpec} {current : Option (Value τ)} {flag : CliFlag τ}
    {v : Value τ} (haction : spec.action = some .append)
    (h : storedValue spec current flag = some v) : ∃ vs, v = .list vs ∧ vs ≠ [] := by
  cases flag with
  | switch on => simp [storedValue, haction] at h
  | value w =>
    simp only [storedValue, haction] at h
    split at h
    · split at h
      · rename_i heq
        cases heq
      · cases h
        exact ⟨_, rfl, by simp⟩
      · cases h
        exact ⟨_, rfl, by simp⟩
      · cases h
    · cases h

section Parse

variable {specs : List OptionSpec} (hnodup : (specs.map (·.key)).Nodup)
include hnodup

/-- **One flag.** -/
theorem parsed_flag {given : List String} {args args' : Namespace τ} {flag : String × CliFlag τ}
    (h : ∀ spec ∈ specs, ParsedOption given args spec)
    (hstep : parseFlag specs args flag = some args') :
    ∀ spec ∈ specs, ParsedOption (given ++ [flag.1]) args' spec := by
  rw [parseFlag] at hstep
  split at hstep
  · cases hstep
  · rename_i found hfound
    obtain ⟨v, hv, rfl⟩ := Option.map_eq_some_iff.mp hstep
    have hkey : found.key = flag.1 := by simpa using List.find?_some hfound
    intro spec hspec
    by_cases hk : spec.key = flag.1
    · have hsame : spec = found := List.inj_on_of_nodup_map hnodup hspec
        (List.mem_of_find?_eq_some hfound) (hk.trans hkey.symm)
      subst hsame
      refine ⟨v, by rw [hk, Dict.get?_set_self], fun haction _ => ?_⟩
      obtain ⟨vs, hvs, hne⟩ := storedValue_append haction hv
      exact ⟨vs, hvs, fun _ => hne⟩
    · obtain ⟨w, hw, hlist⟩ := h spec hspec
      refine ⟨w, by rw [Dict.get?_set_ne _ _ hk, hw], fun haction hdefault => ?_⟩
      obtain ⟨vs, hvs, hne⟩ := hlist haction hdefault
      refine ⟨vs, hvs, fun hmem => hne ?_⟩
      simpa [hk] using hmem

/-- **A command line.** -/
theorem parsed_flags {argv : List (String × CliFlag τ)} :
    ∀ {given : List String} {args args' : Namespace τ},
      (∀ spec ∈ specs, ParsedOption given args spec) →
      argv.foldlM (parseFlag specs) args = some args' →
      ∀ spec ∈ specs, ParsedOption (given ++ argv.map (·.1)) args' spec := by
  induction argv with
  | nil =>
    intro given args args' h hrun
    cases hrun
    simpa using h
  | cons flag argv ih =>
    intro given args args' h hrun
    rw [List.foldlM_cons] at hrun
    obtain ⟨args₁, hstep, hrun⟩ := Option.bind_eq_some_iff.mp hrun
    have := ih (parsed_flag hnodup h hstep) hrun
    simpa using this

end Parse

/-! ## What the merge does to one key -/

variable [DecidableEq τ] [LE τ] [DecidableLE τ]

/-- What the first loop leaves at a key it comes to. -/
def mergedValue (config : Mapping τ) (defaults : Namespace τ) (key : String)
    (current : Option (Value τ)) : Option (Value τ) :=
  match config.get? key with
  | none => current
  | some v =>
      if ¬ (current.getD .null).pyEq ((defaults.get? key).getD .null) then current
      else if v.isNull ∧ key ∈ nullableOptionKeys then current
      else some v

theorem get?_mergeOptions (config : Mapping τ) (defaults args : Namespace τ) (key : String) :
    (configOptionKeys.foldl (mergeOption config defaults) args).get? key
      = if key ∈ configOptionKeys then mergedValue config defaults key (args.get? key)
        else args.get? key := by
  refine Dict.get?_foldl (fun d k => ?_) (fun d k k' hne => ?_) configOptionKeys_nodup args key
  · simp only [mergeOption, mergedValue]
    cases config.get? k with
    | none => rfl
    | some v =>
      dsimp only
      split
      · rfl
      · split
        · rfl
        · exact Dict.get?_set_self _ _ _
  · rw [mergeOption]
    split
    · rfl
    · dsimp only
      split
      · rfl
      · split
        · rfl
        · exact Dict.get?_set_ne _ _ hne

theorem get?_mergeSpecials {config : Mapping τ} {key : String} {specs : List OptionSpec}
    (hkey : ∀ special ∈ specs, special.specialConfigMerge = true → special.key ≠ "debug" →
      key ≠ special.key) (args : Namespace τ) :
    (specs.foldl (mergeSpecial config) args).get? key = args.get? key := by
  induction specs generalizing args with
  | nil => rfl
  | cons spec specs ih =>
    rw [List.foldl_cons, ih fun special hs => hkey special (List.mem_cons_of_mem _ hs)]
    rw [mergeSpecial]
    split
    · rfl
    · rename_i hspecial
      rw [not_or, not_not] at hspecial
      have hne := hkey spec List.mem_cons_self hspecial.1 hspecial.2
      split
      · exact Dict.get?_set_ne _ _ hne
      · split
        · rfl
        · exact Dict.get?_set_ne _ _ hne

/-- A list that a flag has added to is not its default. -/
theorem mergedValue_list {config : Mapping τ} {defaults : Namespace τ} {key : String}
    (hdefault : defaults.get? key = some (.list [])) {vs : List (Value τ)} (hne : vs ≠ []) :
    mergedValue config defaults key (some (.list vs)) = some (.list vs) := by
  rw [mergedValue, hdefault]
  split
  · rfl
  · rw [if_pos]
    cases vs with
    | nil => exact absurd rfl hne
    | cons v vs => exact Bool.false_ne_true

theorem mergedValue_some (config : Mapping τ) (defaults : Namespace τ) (key : String)
    (v : Value τ) : ∃ w, mergedValue config defaults key (some v) = some w := by
  rw [mergedValue]
  split
  · exact ⟨v, rfl⟩
  · split
    · exact ⟨v, rfl⟩
    · split
      · exact ⟨v, rfl⟩
      · exact ⟨_, rfl⟩

/-- The last lines of the merge: a text becomes a list, and nothing else changes. -/
theorem wrapText_spec {key : String} {args : Namespace τ} {v : Value τ}
    (h : args.get? key = some v) :
    ∃ args', wrapText key args = .ok args' ∧
      ∀ k, (k = key → ∃ vs, v = .list vs) → args'.get? k = args.get? k := by
  rw [wrapText, h]
  cases v with
  | str s =>
    refine ⟨_, rfl, fun k hk => ?_⟩
    have hne : k ≠ key := fun heq => by
      obtain ⟨vs, hvs⟩ := hk heq
      cases hvs
    split
    · rfl
    · exact Dict.get?_set_ne _ _ hne
  | _ => exact ⟨args, rfl, fun _ _ => rfl⟩

/-! ## The merge -/

/-- The merge does not fail, and leaves an option of the parser as its first loop left it. -/
theorem merge_spec {entry : EntryPoint} {argv : List (String × CliFlag τ)} {args : Namespace τ}
    (hparse : parseArgs entry.flags argv = some args) {spec : OptionSpec}
    (hspec : spec ∈ entry.flags) (hgiven : spec.key ∈ argv.map (·.1)) (config : Mapping τ) :
    ∃ merged, mergeCliAndConfig args config entry.defaults = .ok merged ∧
      merged.get? spec.key = if spec.key ∈ configOptionKeys
        then mergedValue config entry.defaults spec.key (args.get? spec.key)
        else args.get? spec.key := by
  have hparsed := parsed_flags (parserSpecs_nodup _) (parsed_defaults (parserSpecs_nodup _)) hparse
  rw [List.nil_append] at hparsed
  rw [mergeCliAndConfig]
  generalize hafter : optionSpecs.foldl (mergeSpecial config)
    (configOptionKeys.foldl (mergeOption config entry.defaults) args) = after
  -- what the two loops leave at an option of the parser
  have hloops : ∀ s ∈ entry.flags, after.get? s.key = if s.key ∈ configOptionKeys
      then mergedValue config entry.defaults s.key (args.get? s.key) else args.get? s.key := by
    intro s hs
    rw [← hafter, get?_mergeSpecials (flags_notSpecial hs), get?_mergeOptions]
  -- the texts that are wrapped are there, and none of them is the value of this flag
  have hwrapped : ∀ key ∈ ["bw", "ext"], ∃ v, after.get? key = some v ∧
      (spec.key = key → ∃ vs, v = .list vs) := by
    intro key hkey
    obtain ⟨s, hs, rfl, haction, hdefault⟩ := flags_wrapped entry key hkey
    obtain ⟨v, hv, hlist⟩ := hparsed s hs
    obtain ⟨vs, rfl, hne⟩ := hlist haction hdefault
    rw [hloops s hs, hv]
    by_cases hmem : s.key ∈ configOptionKeys
    · rw [if_pos hmem]
      by_cases hsame : spec.key = s.key
      · have hdef : (entry.defaults : Namespace τ).get? s.key = some (.list []) := by
          rw [get?_defaults hs hmem, hdefault]
          rfl
        refine ⟨_, mergedValue_list hdef (hne (hsame ▸ hgiven)), fun _ => ⟨vs, rfl⟩⟩
      · obtain ⟨w, hw⟩ := mergedValue_some config entry.defaults s.key (.list vs)
        exact ⟨w, hw, fun h => absurd h hsame⟩
    · rw [if_neg hmem]
      exact ⟨_, rfl, fun _ => ⟨vs, rfl⟩⟩
  obtain ⟨bw, hbw, hbwlist⟩ := hwrapped "bw" (by simp)
  obtain ⟨ext, hext, hextlist⟩ := hwrapped "ext" (by simp)
  obtain ⟨args₁, hwrap, hsame⟩ := wrapText_spec hbw
  have hext₁ : args₁.get? "ext" = some ext := by
    rw [hsame "ext" fun h => absurd h (by decide), hext]
  obtain ⟨args₂, hwrap', hsame'⟩ := wrapText_spec hext₁
  refine ⟨args₂, ?_, ?_⟩
  · rw [hwrap]
    exact hwrap'
  · rw [hsame' _ hextlist, hsame _ hbwlist, hloops spec hspec]

/-- What it takes for a flag to survive: the configuration cannot set its option, or the value is
    not the default, or the configuration says nothing about it, null where null means nothing, or
    the same. -/
def FlagHolds (spec : OptionSpec) (value : Value τ) (config : Mapping τ) : Prop :=
  (spec.configAllowed = false ∨ spec.specialConfigMerge = true) ∨
    value.pyEq spec.default.value = false ∨ config.get? spec.key = none ∨
    (config.get? spec.key = some .null ∧ spec.nullable = true) ∨ config.get? spec.key = some value

/-- **An explicit flag survives the configuration** exactly when `FlagHolds`. -/
theorem flag_survives_iff {entry : EntryPoint} {argv : List (String × CliFlag τ)}
    {args : Namespace τ} (hparse : parseArgs entry.flags argv = some args) {spec : OptionSpec}
    (hspec : spec ∈ entry.flags) (hgiven : spec.key ∈ argv.map (·.1)) (config : Mapping τ) :
    ∃ value merged, args.get? spec.key = some value ∧
      mergeCliAndConfig args config entry.defaults = .ok merged ∧
      (merged.get? spec.key = some value ↔ FlagHolds spec value config) := by
  obtain ⟨value, hvalue, -⟩ := parsed_flags (parserSpecs_nodup _)
    (parsed_defaults (parserSpecs_nodup _)) hparse spec hspec
  obtain ⟨merged, hmerged, hget⟩ := merge_spec hparse hspec hgiven config
  refine ⟨value, merged, hvalue, hmerged, ?_⟩
  obtain ⟨hmergeable, hnullable⟩ := flags_config hspec
  rw [hget, hvalue]
  by_cases hkey : spec.key ∈ configOptionKeys
  · obtain ⟨hallowed, hspecial⟩ := hmergeable.mp hkey
    rw [if_pos hkey, mergedValue, FlagHolds, get?_defaults hspec hkey, hallowed, hspecial]
    cases hconfig : config.get? spec.key with
    | none => simp
    | some v =>
      dsimp only [Option.getD_some]
      by_cases heq : value.pyEq spec.default.value = true
      · by_cases hnull : v.isNull = true ∧ spec.key ∈ nullableOptionKeys
        · have hv : v = .null := by
            cases v with
            | null => rfl
            | _ => exact absurd hnull.1 (by simp [Value.isNull])
          simp [hv, hnull.2, (hnullable hkey).mp hnull.2, Value.isNull]
        · have hno : ¬ (v = .null ∧ spec.nullable = true) := by
            rintro ⟨rfl, hn⟩
            exact hnull ⟨rfl, (hnullable hkey).mpr hn⟩
          simp [heq, hnull, hno]
      · simp [heq]
  · rw [if_neg hkey]
    refine iff_of_true rfl (.inl ?_)
    by_contra hcon
    rw [not_or] at hcon
    exact hkey (hmergeable.mpr (by simpa using hcon))

/-- `--hosts 5` is lost to `hosts: 8`, because 5 is the default. -/
theorem hosts_flag_lost :
    ∃ (args merged : Namespace Rat),
      parseArgs EntryPoint.disaster.flags [("hosts", .value (.int 5))] = some args ∧
      mergeCliAndConfig args [("hosts", .int 8)] EntryPoint.disaster.defaults = .ok merged ∧
      args.get? "hosts" = some (.int 5) ∧ merged.get? "hosts" = some (.int 8) :=
  ⟨_, _, rfl, rfl, rfl, rfl⟩

/-- `--topo-layout circular` is not the default and stays. -/
theorem layout_flag_survives :
    ∃ spec ∈ EntryPoint.connect.flags, spec.key = "topo_layout" ∧
      ∃ (args : Namespace Rat) (value : Value Rat) (merged : Namespace Rat),
        parseArgs EntryPoint.connect.flags [("topo_layout", .value (.str "circular"))] = some args ∧
        args.get? spec.key = some value ∧
        mergeCliAndConfig args [("topo_layout", .str "spring")] EntryPoint.connect.defaults
          = .ok merged ∧
        (merged.get? spec.key = some value ↔
          FlagHolds spec value [("topo_layout", .str "spring")]) := by
  have hspec : ∃ spec ∈ EntryPoint.connect.flags, spec.key = "topo_layout" := by decide
  obtain ⟨spec, hmem, hkey⟩ := hspec
  have hparse : ∃ args : Namespace Rat, parseArgs EntryPoint.connect.flags
      [("topo_layout", .value (.str "circular"))] = some args := ⟨_, rfl⟩
  obtain ⟨args, hparse⟩ := hparse
  obtain ⟨value, merged, h⟩ := flag_survives_iff hparse hmem (by simp [hkey])
    [("topo_layout", .str "spring")]
  exact ⟨spec, hmem, hkey, args, value, merged, hparse, h⟩

end Proof
end CeforeEmu
