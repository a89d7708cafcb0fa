import CeforeEmu.Core.Value

/-!
# The option table

`OPTION_SPECS` of `core/config/validator.py`: one entry for each option, which both the command
line and the configuration file are read by. What is kept of an entry is what the merge and the
validation look at; help texts, flag spellings and the order of the help page are not.
-/

set_option autoImplicit false

namespace CeforeEmu
namespace Core

open Lib

/-! ## The table -/

inductive OptionKind where
  | int
  | number
  | str
  | enum
  | bool
  | structured
  deriving DecidableEq, Repr

/-- What argparse does with a flag; `none` is `store`. -/
inductive OptionAction where
  | storeTrue
  | append
  | booleanOptional
  deriving DecidableEq, Repr

/-- The defaults that occur. -/
inductive OptionDefault where
  | none
  | int (n : Int)
  | float (n : Int)
  | str (s : String)
  | bool (b : Bool)
  | emptyList
  /-- `{"default": "flooding"}`. -/
  | flooding
  deriving DecidableEq, Repr

def OptionDefault.value {τ : Type} [IntCast τ] : OptionDefault → Value τ
  | .none => .null
  | .int n => .int n
  | .float n => .num n
  | .str s => .str s
  | .bool b => .bool b
  | .emptyList => .list []
  | .flooding => .dict [("default", .str "flooding")]

structure OptionSpec where
  key : String
  kind : OptionKind
  default : OptionDefault := .none
  minimum : Option Int := none
  nullable : Bool := false
  message : Option String := none
  action : Option OptionAction := none
  choices : List String := []
  block : List String := []
  configAllowed : Bool := true
  cliAllowed : Bool := true
  specialConfigMerge : Bool := false
  deriving DecidableEq, Repr

/-- `OPTION_SPECS`, in its order. -/
def optionSpecs : List OptionSpec :=
  [{ key := "hosts", kind := .int, default := .int 5, minimum := some 3,
     block := ["common", "linear", "connect"] },
   { key := "switches", kind := .int, default := .int 10, minimum := some 2,
     block := ["mesh", "connect"] },
   { key := "seed", kind := .int, nullable := true, block := ["common", "connect"] },
   { key := "topo_png", kind := .str, nullable := true, block := ["common", "connect"] },
   { key := "topo_layout", kind := .enum, default := .str "spring",
     choices := ["spring", "kamada_kawai", "circular"], block := ["common", "connect"] },
   { key := "k", kind := .int, default := .int 2, minimum := some 1, block := ["mesh", "connect"] },
   { key := "host_degree_min", kind := .int, default := .int 1, minimum := some 1,
     block := ["mesh", "connect"] },
   { key := "host_degree_max", kind := .int, default := .int 2, block := ["mesh", "connect"] },
   { key := "node_per_switch", kind := .int, default := .int 2, minimum := some 0,
     block := ["mesh", "connect"] },
   { key := "switch_use_all", kind := .bool, default := .bool false, action := some .storeTrue,
     block := ["mesh", "connect"] },
   { key := "num", kind := .int, minimum := some 1, nullable := true,
     block := ["common", "linear", "connect"] },
   { key := "output_dir", kind := .str, default := .str "logs",
     block := ["common", "linear", "connect"] },
   { key := "results_json", kind := .str, default := .str "", nullable := true,
     block := ["disaster"] },
   { key := "timestamp", kind := .bool, default := .bool false, action := some .storeTrue,
     block := ["common", "linear", "connect"] },
   { key := "no_cli", kind := .bool, default := .bool false, action := some .storeTrue,
     block := ["disaster", "connect"] },
   { key := "no_script_log", kind := .bool, default := .bool false, action := some .storeTrue,
     block := ["disaster", "connect"] },
   { key := "duration", kind := .int, default := .int 0, minimum := some 0, block := ["disaster"] },
   { key := "cache_default_rct_ms", kind := .int, nullable := true, minimum := some 1000,
     block := ["disaster"] },
   { key := "publisher_host", kind := .int, nullable := true, block := ["disaster"] },
   { key := "pubsub_sub_startup_grace", kind := .number, default := .float 1, minimum := some 0,
     message := some "pubsub_sub_startup_grace must be a non-negative number",
     block := ["disaster"] },
   { key := "warmup_get_interval", kind := .number, default := .int 0, minimum := some 0,
     message := some "warmup_get_interval must be a non-negative number", block := ["disaster"] },
   { key := "warmup_only_cache_nodes", kind := .bool, default := .bool true,
     action := some .booleanOptional, block := ["disaster"] },
   { key := "down_interval", kind := .int, default := .int 0, minimum := some 0,
     block := ["disaster", "connect"] },
   { key := "down_duration", kind := .int, default := .int 0, minimum := some 0,
     block := ["disaster", "connect"] },
   { key := "down_exclude", kind := .str, default := .str "", block := ["disaster", "connect"] },
   { key := "down_count", kind := .int, default := .int 5, minimum := some 0,
     block := ["disaster", "connect"] },
   { key := "down_stagger", kind := .int, default := .int 2, minimum := some 0,
     block := ["disaster", "connect"] },
   { key := "cache_count", kind := .int, default := .int 0, minimum := some 0,
     block := ["disaster", "connect"] },
   { key := "bw", kind := .structured, default := .emptyList, action := some .append,
     block := ["disaster", "connect"] },
   { key := "ext", kind := .structured, default := .emptyList, action := some .append,
     block := ["disaster", "connect"] },
   { key := "bridge", kind := .structured, default := .emptyList, action := some .append,
     block := ["disaster", "connect"], configAllowed := false },
   { key := "bridges", kind := .structured, default := .emptyList, cliAllowed := false },
   { key := "failure_scenarios", kind := .structured, cliAllowed := false },
   { key := "links", kind := .structured, cliAllowed := false },
   { key := "prefix_routes", kind := .structured, cliAllowed := false },
   { key := "events", kind := .structured, cliAllowed := false },
   { key := "monitoring", kind := .structured, cliAllowed := false },
   { key := "routing", kind := .structured, cliAllowed := false },
   { key := "addressing", kind := .structured, cliAllowed := false },
   { key := "cache_config", kind := .structured, cliAllowed := false, specialConfigMerge := true },
   { key := "forwarding_config", kind := .structured, default := .flooding,
     block := ["disaster", "connect"], cliAllowed := false, specialConfigMerge := true },
   { key := "cefnetd_timeout", kind := .number, cliAllowed := false },
   { key := "warmup_gets", kind := .structured, cliAllowed := false },
   { key := "host_apps", kind := .structured, cliAllowed := false },
   { key := "webui_port", kind := .int, nullable := true, minimum := some 1,
     message := some "webui_port must be a positive integer or null", block := ["disaster"] },
   { key := "script_log", kind := .str, nullable := true,
     message := some "script_log must be a string", block := ["disaster", "connect"] },
   { key := "debug", kind := .structured, default := .bool false, action := some .storeTrue,
     block := ["debug"], specialConfigMerge := true },
   { key := "debug_artifact", kind := .enum, default := .emptyList, configAllowed := false,
     action := some .append, choices := ["node_dirs", "fib_dump"], block := ["debug"] },
   { key := "config", kind := .str, default := .str "", configAllowed := false,
     block := ["disaster", "connect"] }]

/-- `config_option_keys`. -/
def configOptionKeys : List String :=
  (optionSpecs.filter fun spec => spec.configAllowed ∧ ¬ spec.specialConfigMerge).map (·.key)

/-- `nullable_option_keys`. -/
def nullableOptionKeys : List String :=
  (optionSpecs.filter fun spec => spec.configAllowed ∧ spec.nullable).map (·.key)

/-! ## Scalar options in a configuration -/

/-- `_FLAT_SPECS`. -/
def flatSpecs : List OptionSpec :=
  (optionSpecs.filter fun spec => spec.configAllowed ∧ spec.kind ≠ .structured ∧
      spec.key ∉ ["debug", "cefnetd_timeout"])
    ++ optionSpecs.filter fun spec => spec.key ∈ ["bw", "ext"]

/-- `_flat_key_error`. -/
def flatKeyError (spec : OptionSpec) : String :=
  let suffix := if spec.nullable then " or null" else ""
  match spec.message with
  | some message => message
  | none =>
      match spec.kind with
      | .bool => spec.key ++ " must be a boolean"
      | .str => spec.key ++ " must be a string" ++ suffix
      | .int =>
          match spec.minimum with
          | some m => spec.key ++ " must be an integer >= " ++ toString m ++ suffix
          | none => spec.key ++ " must be an integer" ++ suffix
      | .number =>
          match spec.minimum with
          | some m => spec.key ++ " must be a number >= " ++ toString m ++ suffix
          | none => spec.key ++ " must be a number" ++ suffix
      | .enum => spec.key ++ " must be one of: " ++ ", ".intercalate spec.choices
      | .structured => spec.key ++ " must be a list"

variable {τ : Type} [IntCast τ] [DecidableEq τ] [LT τ] [DecidableLT τ]

/-- The value of a flat key is of the kind the table says. -/
def flatValueOk (spec : OptionSpec) (v : Value τ) : Bool :=
  match spec.kind, v with
  | .bool, .bool _ => true
  | .str, .str _ => true
  | .int, .int n =>
      match spec.minimum with
      | some m => ¬ n < m
      | none => true
  | .number, v =>
      match isNumber v with
      | some x =>
          match spec.minimum with
          | some m => ¬ x < (m : τ)
          | none => true
      | none => false
  | .enum, .str s => spec.choices.contains s
  | .structured, .list vs => vs.all fun item =>
      match item with
      | .str _ => true
      | _ => false
  | _, _ => false

/-- `_validate_flat_keys`. -/
def flatKeyErrors (config : Mapping τ) : List String :=
  flatSpecs.flatMap fun spec =>
    match config.get? spec.key with
    | none => []
    | some v =>
        if spec.nullable ∧ v.isNull then []
        else if flatValueOk spec v then [] else [flatKeyError spec]

end Core
end CeforeEmu
