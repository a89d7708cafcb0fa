import CeforeEmu.Core.Loader
import CeforeEmu.Core.Validator

/-!
# From a command line to a run

`bootstrap_scenario` (`cli/bootstrap.py`) up to the point where it refuses the configuration: the
command line and the file are merged, what came out is validated as a whole, and the options the
ordinary merge leaves out are validated as they stand in the file.
-/

set_option autoImplicit false

namespace CeforeEmu
namespace Core

open Lib

/-- `scalar_option_keys`. -/
def scalarOptionKeys : List String :=
  (optionSpecs.filter fun spec => spec.configAllowed ∧ spec.kind ≠ .structured ∧
      spec.key ∉ ["debug", "cefnetd_timeout"]).map (·.key) ++ ["cefnetd_timeout"]

/-- `structured_option_keys`. -/
def structuredOptionKeys : List String :=
  (optionSpecs.filter fun spec => spec.configAllowed ∧ spec.kind = .structured ∧
      ¬ spec.specialConfigMerge).map (·.key)

variable {τ : Type} [IntCast τ] [DecidableEq τ] [LT τ] [DecidableLT τ] [LE τ] [DecidableLE τ]
  [FloatFacts τ]

/-- The options of a namespace, as a configuration. -/
def mergedConfig (args : Namespace τ) : Mapping τ :=
  (scalarOptionKeys ++ structuredOptionKeys).filterMap fun key =>
    (args.get? key).map fun v => (Key.str key, v)

/-- `validate_merged_args`. -/
def validateMergedArgs (ip : IpTexts) (args : Namespace τ) : Except Fault (List String) :=
  validateConfig ip (mergedConfig args)

/-- The loop over the options with a merge of their own. -/
def specialErrors (ip : IpTexts) (config : Mapping τ) : List OptionSpec → Except Fault (List String)
  | [] => .ok []
  | spec :: rest =>
      let first : Except Fault (List String) :=
        if spec.specialConfigMerge then
          match config.get? spec.key with
          | some v => validateConfig ip [(Key.str spec.key, v)]
          | none => .ok []
        else .ok []
      match first with
      | .error err => .error err
      | .ok errors =>
          match specialErrors ip config rest with
          | .error err => .error err
          | .ok more => .ok (errors ++ more)

/-- `"connect" in blocks and config_data.get(key) is not None`. -/
def connectOnlyErrors (entry : EntryPoint) (config : Mapping τ) (key : String) : List String :=
  match entry, config.get? key with
  | .connect, some v =>
      if v.isNull then []
      else [key ++ " is not supported by the connect scenario "
        ++ "(ceforeemu-connect); it is scoped to the disaster scenario only"]
  | _, _ => []

/-- The errors `bootstrap_scenario` refuses a run with, given the merged namespace. -/
def bootstrapErrors (ip : IpTexts) (entry : EntryPoint) (merged : Namespace τ) (config : Mapping τ) :
    Except Fault (List String) :=
  match validateMergedArgs ip merged with
  | .error err => .error err
  | .ok errors =>
      match specialErrors ip config optionSpecs with
      | .error err => .error err
      | .ok special =>
          .ok (errors ++ connectOnlyErrors entry config "links"
            ++ connectOnlyErrors entry config "prefix_routes" ++ special)

end Core
end CeforeEmu
