import CeforeEmu.Core.Centers
import CeforeEmu.Runtime.Template

/-!
# Cache placement

`runtime/cache_manager.py`: which hosts run `csmgrd`. A `cache_config` names one of three ways to
choose them; without one, or with an empty one, they are centres of the host graph. When nothing
is chosen the last host is taken. What is chosen is then written to the configurations of the
hosts. `RandomCSModeStrategy` (`runtime/cache_strategy.py`) draws a mode for each host instead.

A configuration is read as the validator lets it through, so the constructors are partial: an
entry of another shape raises somewhere, and is not read. Hosts are integers, since the ids of
`nodes` may be any. Sets are lists of which only the members matter.
-/

set_option autoImplicit false

namespace CeforeEmu
namespace Runtime

open CeforeEmu.Lib CeforeEmu.Core

variable {τ : Type} [DecidableEq τ]

/-! ## `CacheConfigManager` -/

structure CacheConfigManager (τ : Type) where
  strategy : String
  defaultConfig : Mapping τ
  /-- `default_config.get("count", 0)`. -/
  count : ℤ
  nodeOverrides : Dict ℤ (Mapping τ)
  hostCount : ℤ
  graph : Graph ℤ
  publisherIds : List ℤ

namespace CacheConfigManager

def nodeId? : Value τ → Option ℤ
  | .int n => some n
  | _ => none

/-- `entry.get("id", [])`, an integer being a list of one. -/
def entryIds (entry : Mapping τ) : Option (List ℤ) :=
  match entry.get? "id" with
  | none => some []
  | some (.int n) => some [n]
  | some (.list ids) => ids.mapM nodeId?
  | some _ => none

/-- `_parse_node_overrides`, with what the entries before have left. -/
def parseNodeOverrides : List (Value τ) → Dict ℤ (Mapping τ) → Option (Dict ℤ (Mapping τ))
  | [], overrides => some overrides
  | .dict entry :: rest, overrides =>
      match entryIds entry with
      | none => none
      | some ids =>
          let settings := Dict.without entry "id"
          parseNodeOverrides rest (ids.foldl (fun d id => d.set id settings) overrides)
  | _ :: _, _ => none

def strategy? (cacheConfig : Mapping τ) : Option String :=
  match cacheConfig.get? "strategy" with
  | none => some "k_centers"
  | some (.str s) => some s
  | some _ => none

def default? (cacheConfig : Mapping τ) : Option (Mapping τ) :=
  match cacheConfig.get? "default" with
  | none => some []
  | some (.dict d) => some d
  | some _ => none

def count? (defaultConfig : Mapping τ) : Option ℤ :=
  match defaultConfig.get? "count" with
  | none => some 0
  | some (.int n) => some n
  | some _ => none

def nodes? (cacheConfig : Mapping τ) : Option (List (Value τ)) :=
  match cacheConfig.get? "nodes" with
  | none => some []
  | some (.list nodes) => some nodes
  | some _ => none

/-- `__init__`. -/
def new? (cacheConfig : Mapping τ) (hostCount : ℤ) (graph : Graph ℤ) (publisherIds : List ℤ) :
    Option (CacheConfigManager τ) := do
  let strategy ← strategy? cacheConfig
  let defaultConfig ← default? cacheConfig
  let count ← count? defaultConfig
  let nodes ← nodes? cacheConfig
  let nodeOverrides ← parseNodeOverrides nodes []
  return { strategy, defaultConfig, count, nodeOverrides, hostCount, graph, publisherIds }

/-- `_select_k_centers`. -/
def selectKCenters (manager : CacheConfigManager τ) (exclude : List ℤ) : Except Fault (List ℤ) :=
  Core.selectKCenters manager.graph manager.count (none : Option (ℤ → ℤ → ℕ)) exclude

/-- `_select_manual`. -/
def selectManual (manager : CacheConfigManager τ) (exclude : List ℤ) : List ℤ :=
  ((manager.nodeOverrides.map (·.1)).insertionSort (· ≤ ·)).filter fun idx => idx ∉ exclude

/-- `xs[:count]`. -/
def upTo {α : Type} (xs : List α) (count : ℤ) : List α :=
  if count < 0 then xs.take (xs.length - (-count).toNat) else xs.take count.toNat

/-- `degree[n]`. -/
def degreeOf (graph : Graph ℤ) (n : ℤ) : ℕ := ((graph.get? n).getD []).length

/-- The order of `(-degree[n], n)`. -/
def byDegree (graph : Graph ℤ) (a b : ℤ) : Prop :=
  degreeOf graph b < degreeOf graph a ∨ degreeOf graph a = degreeOf graph b ∧ a ≤ b

instance (graph : Graph ℤ) : DecidableRel (byDegree graph) := fun a b =>
  inferInstanceAs (Decidable
    (degreeOf graph b < degreeOf graph a ∨ degreeOf graph a = degreeOf graph b ∧ a ≤ b))

/-- `_select_degree_based`. -/
def selectDegreeBased (manager : CacheConfigManager τ) (exclude : List ℤ) : List ℤ :=
  let eligible := (manager.graph.map (·.1)).filter fun n => n ∉ exclude
  upTo (eligible.insertionSort (byDegree manager.graph)) manager.count

/-- `select_cache_nodes`. -/
def selectCacheNodes (manager : CacheConfigManager τ) (exclude : List ℤ) :
    Except Fault (List ℤ) :=
  if manager.strategy = "k_centers" then manager.selectKCenters exclude
  else if manager.strategy = "manual" then .ok (manager.selectManual exclude)
  else if manager.strategy = "degree_based" then .ok (manager.selectDegreeBased exclude)
  else .error (.raised (.valueError ("Unknown cache strategy: " ++ manager.strategy
    ++ ". Available: ['k_centers', 'manual', 'degree_based']")))

/-! ### `apply_configs` -/

section Apply

open Template

variable [FloatFacts τ]

/-- `_ALGORITHM_LIB_NAMES`. -/
def algorithmLibNames : Dict String String :=
  [("LRU", "libcsmgrd_lru"), ("LFU", "libcsmgrd_lfu"), ("FIFO", "libcsmgrd_fifo"), ("None", "None")]

/-- `_normalize_cache_algorithm`, of a value that is not `None`, and printed. -/
def normalizeCacheAlgorithm (algorithm : String) : String :=
  (algorithmLibNames.get? algorithm).getD algorithm

/-- `m.get(field)`, where that is not `None`, printed. -/
def setting (m : Mapping τ) (field : String) : Option String :=
  match m.get? field with
  | none => none
  | some .null => none
  | some v => some v.text

/-- The default settings. -/
def defaultSettings (defaultConfig : Mapping τ) : CacheSettings where
  defaultRctMs := setting defaultConfig "default_rct_ms"
  capacity := setting defaultConfig "capacity"
  algorithm := (setting defaultConfig "algorithm").map normalizeCacheAlgorithm
  type := setting defaultConfig "type"

/-- `overrides[field]`, if it is there, printed; the name of an algorithm is replaced. -/
def overrideText (overrides : Mapping τ) (field : String) : Option String :=
  ((overrides.get? field).map Value.text).map fun text =>
    if field = "algorithm" then normalizeCacheAlgorithm text else text

/-- `_FIELD_MAP`. -/
def fieldMap : List (String × String) :=
  [("default_rct_ms", "CACHE_DEFAULT_RCT"), ("capacity", "CACHE_CAPACITY"),
    ("algorithm", "CACHE_ALGORITHM"), ("type", "CACHE_TYPE")]

/-- The second step, at one cache node. -/
def applyOverrides (manager : CacheConfigManager τ) (idx : ℤ) : Op ConfFiles ConfError Unit :=
  Op.whenSome (manager.nodeOverrides.get? idx) fun overrides =>
    Op.forEach fieldMap fun field =>
      Op.whenSome (overrideText overrides field.1) (setConfigValue idx "csmgrd.conf" field.2)

/-- `apply_configs`. -/
def applyConfigs (manager : CacheConfigManager τ) (cacheNodes : List ℤ) :
    Op ConfFiles ConfError Unit := do
  applyCacheNodeSettings manager.hostCount cacheNodes (defaultSettings manager.defaultConfig)
    manager.publisherIds
  Op.forEach (cacheNodes.dedup.insertionSort (· ≤ ·)) manager.applyOverrides

end Apply

end CacheConfigManager

/-! ## `CachePlacement` -/

structure CachePlacement (τ : Type) where
  hostCount : ℤ
  graph : Graph ℤ
  publisherIds : List ℤ
  cacheCount : ℤ
  downCount : ℤ
  exclude : List ℤ
  cacheDefaultRctMs : Option ℤ
  manager : Option (CacheConfigManager τ)

namespace CachePlacement

/-- `CacheConfigManager(...) if cache_config else None`. -/
def manager? (cacheConfig : Option (Mapping τ)) (hostCount : ℤ) (graph : Graph ℤ)
    (publisherIds : List ℤ) : Option (Option (CacheConfigManager τ)) :=
  match cacheConfig with
  | none => some none
  | some [] => some none
  | some cc => (CacheConfigManager.new? cc hostCount graph publisherIds).map some

/-- `__init__`. -/
def new? (hostCount : ℤ) (graph : Graph ℤ) (publisherIds : List ℤ)
    (cacheConfig : Option (Mapping τ)) (cacheCount downCount : ℤ) (excludePublishers : Bool)
    (cacheDefaultRctMs : Option ℤ) : Option (CachePlacement τ) :=
  (manager? cacheConfig hostCount graph publisherIds).map fun manager =>
    { hostCount, graph, publisherIds, cacheCount, downCount,
      exclude := if excludePublishers then publisherIds else [], cacheDefaultRctMs, manager }

/-- The selection of `decide`, before its fallback. -/
def select (p : CachePlacement τ) : Except Fault (List ℤ) :=
  match p.manager with
  | some manager => manager.selectCacheNodes p.exclude
  | none =>
      let count := if p.cacheCount > 0 then p.cacheCount else p.downCount + 1
      selectKCenters p.graph count (none : Option (ℤ → ℤ → ℕ)) p.exclude

/-- `decide`. -/
def decide (p : CachePlacement τ) : Except Fault (List ℤ) :=
  match p.select with
  | .error fault => .error fault
  | .ok nodes => .ok (if nodes = [] ∧ p.hostCount > 0 then [p.hostCount - 1] else nodes)

/-- What `decide` decides, or the end of the placement. -/
def decided (p : CachePlacement τ) : Op Template.ConfFiles Template.ConfError (List ℤ) :=
  match p.decide with
  | .ok nodes => pure nodes
  | .error fault => Op.raise (.fault fault)

/-- The settings of the cache nodes, applied. -/
def applySettings [FloatFacts τ] (p : CachePlacement τ) (cacheNodes : List ℤ) :
    Op Template.ConfFiles Template.ConfError Unit :=
  match p.manager with
  | some manager => manager.applyConfigs cacheNodes
  | none =>
      Template.applyCacheNodeSettings p.hostCount cacheNodes
        { defaultRctMs := p.cacheDefaultRctMs.map toString } p.publisherIds

/-- `place`. -/
def place [FloatFacts τ] (p : CachePlacement τ) :
    Op Template.ConfFiles Template.ConfError (List ℤ) := do
  let nodes ← p.decided
  p.applySettings nodes
  return nodes

end CachePlacement

/-! ## `RandomCSModeStrategy` -/

/-- `RandomCSModeStrategy.place`, with a generator and its state once it is seeded. -/
def placeRandomCsModes {σ : Type} (rng : ModeChoice σ) (s : σ) (hostCount : ℤ)
    (publisherIds : List ℤ) : Op Template.ConfFiles Template.ConfError (List ℤ) := do
  let csModes := assignRandomCsModes rng (intRange hostCount) publisherIds s
  Template.applyCsModes csModes
  return (csModes.filter fun e => e.2 = 2).map (·.1)

/-! ## What a configuration asks for -/

/-- An integer option, and its default. -/
def intArg (config : Mapping τ) (key : String) (default : ℤ) : Option ℤ :=
  match config.get? key with
  | none => some default
  | some (.int n) => some n
  | some _ => none

/-- `getattr(args, "cache_default_rct_ms", None)`. -/
def rctArg (config : Mapping τ) : Option (Option ℤ) :=
  match config.get? "cache_default_rct_ms" with
  | none => some none
  | some .null => some none
  | some (.int n) => some (some n)
  | some _ => none

/-- `args.cache_config`. -/
def cacheConfigArg (config : Mapping τ) : Option (Option (Mapping τ)) :=
  match config.get? "cache_config" with
  | none => some none
  | some (.dict cc) => some (some cc)
  | some _ => none

/-- `KCentersStrategy.place` before it places, with the options of a configuration. -/
def placementOf? (config : Mapping τ) (graph : Graph ℤ) (publisherIds : List ℤ)
    (excludePublishers : Bool) : Option (CachePlacement τ) := do
  let hostCount ← intArg config "hosts" 5
  let cacheCount ← intArg config "cache_count" 0
  let downCount ← intArg config "down_count" 5
  let cacheDefaultRctMs ← rctArg config
  let cacheConfig ← cacheConfigArg config
  CachePlacement.new? hostCount graph publisherIds cacheConfig cacheCount downCount
    excludePublishers cacheDefaultRctMs

end Runtime
end CeforeEmu
