import CeforeEmu.Runtime.ScenarioSetup

/-!
# The fingerprint of a topology

`tools/workshop/topo_fingerprint.py`: the roles and the mesh of a disaster run, computed again
without the run. It merges the options as `bootstrap_scenario` does, on parsers of its own, and
then goes through the steps of `build_mesh_scenario` by hand. The digest it prints is a function of
what is returned here.
-/

set_option autoImplicit false

namespace CeforeEmu
namespace Runtime

open CeforeEmu.Lib CeforeEmu.Core

variable {σ ρ τ : Type} [LinearOrder ρ] [IntCast τ] [DecidableEq τ]

/-- The arguments of `disaster --config path --seed seed`, and of the tool. -/
def seedFlags (path : String) (seed : ℤ) : List (String × CliFlag τ) :=
  [("config", .value (.str path)), ("seed", .value (.int seed))]

/-- `_build_disaster_parser`. -/
def disasterParser : List OptionSpec := parserSpecs ["common", "mesh", "disaster"]

/-- What `resolve_topology_inputs` returns. -/
structure TopologyInputs (τ : Type) where
  params : MeshParams
  publisherIds : List (Key τ)

/-- `resolve_topology_inputs`; `none` if the options have types that the validator does not let
    through, or are not accepted by the parser. -/
def resolveTopologyInputs [LE τ] [DecidableLE τ] (path : String) (config : Mapping τ) (seed : ℤ) :
    Option (Except PyErr (TopologyInputs τ)) :=
  match parseArgs disasterParser (seedFlags path seed) with
  | none => none
  | some args =>
      match mergeCliAndConfig args config (parserDefaults disasterParser) with
      | .error err => some (.error err)
      | .ok args =>
          match meshParams args.get?, eventsArg args.get? with
          | some params, some events =>
              match extractPublications events false with
              | .error err => some (.error err)
              | .ok publications => some (.ok ⟨params, publications.publisherIds⟩)
          | _, _ => none

/-- The build inside `build_fingerprint`: roles first, then the mesh, on one stream. -/
def fingerprintBuild [LE τ] [DecidableLE τ] (rng : ScenarioRng σ ρ) (seeded : ℤ → σ) (path : String)
    (config : Mapping τ) (seed : ℤ) : Option (Except PyErr MeshBuildResult) :=
  match resolveTopologyInputs path config seed with
  | none => none
  | some (.error err) => some (.error err)
  | some (.ok inputs) =>
      let (roles, s) := assignRoles rng.choice inputs.params.hosts inputs.publisherIds (seeded seed)
      some (.ok ⟨roles, meshTopoLinks rng.toRng inputs.params s⟩)

/-! ## What is compared -/

/-- A link of a fingerprint: its switch, its subnet and its sorted hosts. -/
structure LinkEntry where
  switch : Option String
  subnet : Option ℤ
  hosts : List ℕ
  deriving DecidableEq, Repr

def linkEntry (raw : RawLink) : LinkEntry :=
  ⟨(normalize raw).switch, (normalize raw).subnet, sorted raw.hosts⟩

/-- The roles and the links of a build. The tool sorts the links before it prints them, which adds
    nothing to them. -/
def fingerprintOf (result : MeshBuildResult) : Dict ℕ NodeRole × Except Fault (List LinkEntry) :=
  (result.roles,
    match result.meshLinks with
    | .error err => .error err
    | .ok meshLinks => .ok (meshLinks.map linkEntry))

end Runtime
end CeforeEmu
