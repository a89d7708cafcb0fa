import CeforeEmu.Core.Options

/-!
# Command line and configuration file

`merge_cli_and_config` of `core/config/loader.py`, with as much of argparse as it rests on. A
command line is the list of its flags, each already matched to an option and, where the option
takes a value, converted by the type of the option; `parseArgs` does what the actions do with
them, and refuses a flag the parser does not have or a value of the wrong type.

The merge sees two namespaces: the one of the command line, and the one of a second parser run on
no arguments, from which it reads the defaults. The second parser is built by
`_build_cli_precedence_parser` in `cli/bootstrap.py`.
-/

set_option autoImplicit false

namespace CeforeEmu
namespace Core

open Lib

variable {τ : Type} [IntCast τ] [DecidableEq τ] [LE τ] [DecidableLE τ]

/-- An argparse namespace. -/
abbrev Namespace (τ : Type) := Dict String (Value τ)

/-! ## Argparse -/

/-- A flag on the command line: `--key value`, or `--key` and `--no-key`. -/
inductive CliFlag (τ : Type) where
  | value (v : Value τ)
  | switch (on : Bool)

/-- The options a parser has. -/
def parserSpecs (blocks : List String) : List OptionSpec :=
  optionSpecs.filter fun spec => spec.cliAllowed ∧ ∃ b ∈ blocks, b ∈ spec.block

/-- `parse_args([])`. -/
def parserDefaults (specs : List OptionSpec) : Namespace τ :=
  specs.map fun spec => (spec.key, spec.default.value)

/-- The value was converted by the type of the option and is one of its choices. -/
def convertible (spec : OptionSpec) : Value τ → Bool
  | .int _ => spec.kind = .int
  | .num _ => spec.kind = .number
  | .str s => spec.kind = .str ∨ spec.kind = .structured ∨ (spec.kind = .enum ∧ s ∈ spec.choices)
  | _ => false

/-- What an action stores, given what is stored already. -/
def storedValue (spec : OptionSpec) (current : Option (Value τ)) : CliFlag τ → Option (Value τ)
  | .value v =>
      if convertible spec v then
        match spec.action, current with
        | none, _ => some v
        | some .append, some (.list vs) => some (.list (vs ++ [v]))
        | some .append, _ => some (.list [v])
        | _, _ => none
      else none
  | .switch on =>
      match spec.action with
      | some .storeTrue => if on then some (.bool true) else none
      | some .booleanOptional => some (.bool on)
      | _ => none

/-- One flag. -/
def parseFlag (specs : List OptionSpec) (args : Namespace τ) (flag : String × CliFlag τ) :
    Option (Namespace τ) :=
  match specs.find? fun spec => spec.key = flag.1 with
  | none => none
  | some spec => (storedValue spec (args.get? flag.1) flag.2).map fun v => args.set flag.1 v

/-- `parse_args(argv)`; on a usage error argparse exits. -/
def parseArgs (specs : List OptionSpec) (argv : List (String × CliFlag τ)) : Option (Namespace τ) :=
  argv.foldlM (parseFlag specs) (parserDefaults specs)

/-! ## The merge -/

/-- One key of the first loop of `merge_cli_and_config`. -/
def mergeOption (config : Mapping τ) (defaults args : Namespace τ) (key : String) : Namespace τ :=
  match config.get? key with
  | none => args
  | some v =>
      let cliVal := (args.get? key).getD .null
      let defaultVal := (defaults.get? key).getD .null
      if ¬ cliVal.pyEq defaultVal then args
      else if v.isNull ∧ key ∈ nullableOptionKeys then args
      else args.set key v

/-- One entry of the second loop. -/
def mergeSpecial (config : Mapping τ) (args : Namespace τ) (spec : OptionSpec) : Namespace τ :=
  if ¬ spec.specialConfigMerge ∨ spec.key = "debug" then args
  else
    match config.get? spec.key with
    | some v => args.set spec.key v
    | none => if spec.default = .none then args else args.set spec.key spec.default.value

/-- `if isinstance(args.bw, str) and args.bw: args.bw = [args.bw]`. -/
def wrapText (key : String) (args : Namespace τ) : Except PyErr (Namespace τ) :=
  match args.get? key with
  | none => .error (.attributeError ("'Namespace' object has no attribute '" ++ key ++ "'"))
  | some (.str s) => .ok (if s = "" then args else args.set key (.list [.str s]))
  | some _ => .ok args

/-- `merge_cli_and_config`. -/
def mergeCliAndConfig (args : Namespace τ) (config : Mapping τ) (defaults : Namespace τ) :
    Except PyErr (Namespace τ) :=
  let merged := configOptionKeys.foldl (mergeOption config defaults) args
  match wrapText "bw" (optionSpecs.foldl (mergeSpecial config) merged) with
  | .error err => .error err
  | .ok args' => wrapText "ext" args'

/-! ## Entry points -/

/-- The entry points that read a configuration. -/
inductive EntryPoint where
  | disaster
  | connect
  deriving DecidableEq, Repr

/-- The `blocks` handed to `bootstrap_scenario`. -/
def EntryPoint.blocks : EntryPoint → List String
  | .disaster => ["common", "mesh", "disaster"]
  | .connect => ["connect"]

/-- The options of the parser of the command line. -/
def EntryPoint.flags (entry : EntryPoint) : List OptionSpec := parserSpecs (entry.blocks ++ ["debug"])

/-- The defaults of `_build_cli_precedence_parser`. -/
def EntryPoint.defaults (entry : EntryPoint) : Namespace τ := parserDefaults (parserSpecs entry.blocks)

end Core
end CeforeEmu
