import CeforeEmu.Core.Events
import CeforeEmu.Core.Loader
import CeforeEmu.Core.Roles
import CeforeEmu.Runtime.MeshTopo

/-!
# Setting up a mesh scenario

How the options of a run become its roles and its topology: `build_mesh_scenario` of
`runtime/scenario_setup.py`, on the `MeshBuildSpec` that `scenarios/config_driven_mesh.py` and
`DisasterScenario.__init__` fill in. The directories it provisions on the way draw nothing.

One generator is behind all of it, and the roles are drawn before the mesh.
-/

set_option autoImplicit false

namespace CeforeEmu
namespace Runtime

open CeforeEmu.Lib CeforeEmu.Core

/-! ## The options -/

section Options

variable {τ : Type}

/-- The parameters of `MeshTopo` in a namespace, if its options have the types the option table
    gives them. `switch_use_all` has a default in the builder. -/
def meshParams (args : String → Option (Value τ)) : Option MeshParams :=
  match args "hosts", args "switches", args "node_per_switch", args "host_degree_min",
      args "host_degree_max" with
  | some (.int hosts), some (.int switches), some (.int nodePerSwitch), some (.int hostDegreeMin),
      some (.int hostDegreeMax) =>
      some
        { hosts := hosts.toNat
          swhichNum := switches
          nodePerSwitch := nodePerSwitch
          hostDegreeMin := hostDegreeMin
          hostDegreeMax := hostDegreeMax
          switchUseAll :=
            match args "switch_use_all" with
            | some (.bool useAll) => useAll
            | _ => false }
  | _, _, _, _, _ => none

/-- The mappings of a list. -/
def eventList : List (Value τ) → Option (List (Event τ))
  | [] => some []
  | .dict event :: rest => (eventList rest).map (event :: ·)
  | _ :: _ => none

/-- `getattr(args, "events", None) or []`, if it is a list of events. -/
def eventsArg [IntCast τ] [DecidableEq τ] (args : String → Option (Value τ)) :
    Option (List (Event τ)) :=
  match args "events" with
  | none => some []
  | some (.list vs) => eventList vs
  | some v => if v.truthy then none else some []

/-- The pairs of a list of links. -/
def linkList : List (Value τ) → Option (List (ℕ × ℕ))
  | [] => some []
  | .list [.int a, .int b] :: rest =>
      if 0 ≤ a ∧ 0 ≤ b then (linkList rest).map ((a.toNat, b.toNat) :: ·) else none
  | _ :: _ => none

/-- `getattr(args, "links", None)`, if it is a list of pairs. -/
def linksArg (args : String → Option (Value τ)) : Option (Option (List (ℕ × ℕ))) :=
  match args "links" with
  | none => some none
  | some .null => some none
  | some (.list vs) => (linkList vs).map some
  | some _ => none

end Options

/-! ## The build -/

/-- `random.Random`, with the draw of the roles. -/
structure ScenarioRng (σ ρ : Type) extends Rng σ ρ where
  choice : List NodeRole → σ → NodeRole × σ
  choice_mem : ∀ {xs : List NodeRole} (s : σ), xs ≠ [] → (choice xs s).1 ∈ xs

/-- `MeshBuildSpec`, but for the generator. -/
structure MeshBuildSpec (τ : Type) where
  params : MeshParams
  publisherIds : List (Key τ)
  links : Option (List (ℕ × ℕ))

/-- What `build_mesh_scenario` has made: the roles, and the links of the topology or the exception
    of its builder. -/
structure MeshBuildResult where
  roles : Dict ℕ NodeRole
  meshLinks : Except Fault (List RawLink)

variable {σ ρ τ : Type} [LinearOrder ρ] [DecidableEq τ]

/-- The links of `MeshTopo(...)`, on what is left of the stream. -/
def meshTopoLinks (rng : Rng σ ρ) (params : MeshParams) (s : σ) : Except Fault (List RawLink) :=
  match MeshTopo.build rng params s with
  | .error err => .error err
  | .ok (wiring, _) => .ok wiring.meshLinks

/-- `build_mesh_scenario`. -/
def buildMeshScenario (rng : ScenarioRng σ ρ) (spec : MeshBuildSpec τ) (s : σ) : MeshBuildResult :=
  let (roles, s) := assignRoles rng.choice spec.params.hosts spec.publisherIds s
  match spec.links with
  | none => ⟨roles, meshTopoLinks rng.toRng spec.params s⟩
  | some links =>
      match ExplicitLinksTopo.buildOn spec.params.hosts links with
      | .error err => ⟨roles, .error (.raised err)⟩
      | .ok wiring => ⟨roles, .ok wiring.meshLinks⟩

/-- `DisasterScenario(args).build_topology()`, on the generator of the seed; `none` if an option
    has a type that the validator does not let through. -/
def disasterBuild [IntCast τ] (rng : ScenarioRng σ ρ) (seeded : ℤ → σ) (args : Namespace τ) :
    Option (Except PyErr MeshBuildResult) :=
  match meshParams args.get?, eventsArg args.get?, linksArg args.get?, args.get? "seed" with
  | some params, some events, some links, some (.int seed) =>
      match extractPublications events true with
      | .error err => some (.error err)
      | .ok publications =>
          some (.ok (buildMeshScenario rng ⟨params, publications.publisherIds, links⟩ (seeded seed)))
  | _, _, _, _ => none

end Runtime
end CeforeEmu
