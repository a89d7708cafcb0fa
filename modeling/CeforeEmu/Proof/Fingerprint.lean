import CeforeEmu.Core.Bootstrap
import CeforeEmu.Proof.ExplicitLinks
import CeforeEmu.Proof.MeshOptions
import CeforeEmu.Proof.Precedence
import CeforeEmu.Proof.Publications
import CeforeEmu.Runtime.TopoFingerprint

/-!
# The fingerprint and the run

`topo_fingerprint` goes through the steps of a disaster run by hand, and for every generator they
come to the same roles and the same mesh if they start from the same options, publishers and
links. The options are the same, because both merge them in the same way. The other two are not:
the tool does not look for links, and it extracts the publishers without the calls that publish
what they get.

`fingerprint_reproduces_iff` says when that does not show: there are no links, and a host that
publishes only so would have been a publisher anyway, without a draw.
-/

set_option autoImplicit false

namespace CeforeEmu
namespace Proof

open CeforeEmu.Lib CeforeEmu.Core CeforeEmu.Runtime

/-! ## Roles -/

section Roles

variable {σ τ : Type} [DecidableEq τ] {choice : List NodeRole → σ → NodeRole × σ} {hostNum : ℕ}
  {publishers publishers' : List (Key τ)}

/-- A host that is a publisher whoever publishes: host 2, and the last one if its index is even. -/
def FixedPublisher (hostNum idx : ℕ) : Prop := idx = 2 ∨ (idx % 2 = 0 ∧ idx + 1 = hostNum)

theorem assignRole_publisher {idx : ℕ} (h : Key.int idx ∈ publishers) (s : σ) :
    assignRole choice hostNum publishers idx s = (.publisher, s) := by
  rw [assignRole, if_pos h]

theorem assignRole_fixed {idx : ℕ} (hhosts : 3 ≤ hostNum) (h : FixedPublisher hostNum idx) (s : σ) :
    assignRole choice hostNum publishers idx s = (.publisher, s) := by
  rw [assignRole]
  split
  · rfl
  · rcases h with rfl | ⟨heven, hlast⟩
    · rw [if_neg (by omega), if_neg (by omega), if_neg (by omega), if_pos rfl]
    · by_cases htwo : idx = 2
      · rw [if_neg (by omega), if_neg (by omega), if_neg (by omega), if_pos htwo]
      · rw [if_neg (show ¬ idx = 0 by omega), if_neg (show ¬ (hostNum = 2 ∧ idx = 1) by omega),
          if_neg (show ¬ idx = 1 by omega), if_neg htwo, if_neg (show ¬ idx % 2 = 1 by omega),
          if_pos hlast]

/-- The role of a host only depends on whether the host is a publisher. -/
theorem assignRole_congr {idx : ℕ} (h : Key.int idx ∈ publishers ↔ Key.int idx ∈ publishers') (s : σ) :
    assignRole choice hostNum publishers idx s = assignRole choice hostNum publishers' idx s := by
  simp only [assignRole, h]

/-- **Two sets of publishers** between which only hosts differ that are publishers anyway give the
    same roles, from the same draws. -/
theorem assignRolesFrom_congr (hhosts : 3 ≤ hostNum) {hosts : List ℕ}
    (h : ∀ idx ∈ hosts, (Key.int idx ∈ publishers ↔ Key.int idx ∈ publishers') ∨
      FixedPublisher hostNum idx) (roles : Dict ℕ NodeRole) (s : σ) :
    assignRolesFrom choice hostNum publishers hosts roles s
      = assignRolesFrom choice hostNum publishers' hosts roles s := by
  induction hosts generalizing roles s with
  | nil => rfl
  | cons idx hosts ih =>
    have hsame : assignRole choice hostNum publishers idx s
        = assignRole choice hostNum publishers' idx s := by
      rcases h idx List.mem_cons_self with hiff | hfixed
      · exact assignRole_congr hiff s
      · rw [assignRole_fixed hhosts hfixed, assignRole_fixed hhosts hfixed]
    rw [assignRolesFrom, assignRolesFrom, hsame]
    exact ih (fun idx' hidx' => h idx' (List.mem_cons_of_mem _ hidx')) _ _

theorem assignRolesFrom_frame {hosts : List ℕ} {idx : ℕ} (hidx : idx ∉ hosts)
    (roles : Dict ℕ NodeRole) (s : σ) :
    (assignRolesFrom choice hostNum publishers hosts roles s).1.get? idx = roles.get? idx := by
  induction hosts generalizing roles s with
  | nil => rfl
  | cons idx₀ hosts ih =>
    rw [List.mem_cons, not_or] at hidx
    rw [assignRolesFrom, ih hidx.2, Dict.get?_set_ne _ _ hidx.1]

/-- Every host has the role of some point of the stream. -/
theorem assignRolesFrom_get? (choice : List NodeRole → σ → NodeRole × σ) (hostNum : ℕ)
    (publishers : List (Key τ)) {hosts : List ℕ} (hnd : hosts.Nodup) {idx : ℕ} (hidx : idx ∈ hosts)
    (roles : Dict ℕ NodeRole) (s : σ) :
    ∃ s', (assignRolesFrom choice hostNum publishers hosts roles s).1.get? idx
      = some (assignRole choice hostNum publishers idx s').1 := by
  induction hosts generalizing roles s with
  | nil => cases hidx
  | cons idx₀ hosts ih =>
    obtain ⟨hnot, hnd⟩ := List.nodup_cons.mp hnd
    rw [assignRolesFrom]
    rcases List.mem_cons.mp hidx with rfl | hidx
    · refine ⟨s, ?_⟩
      rw [assignRolesFrom_frame hnot, Dict.get?_set_self]
    · exact ih hnd hidx _ _

/-- A host that neither publishes nor is a publisher anyway is none if the draw is against it. -/
theorem assignRole_ne_publisher {idx : ℕ} (hhosts : 3 ≤ hostNum)
    (hchoice : ∀ s, (choice [.consumer, .publisher] s).1 = .consumer)
    (hnot : Key.int idx ∉ publishers) (hfixed : ¬ FixedPublisher hostNum idx) (s : σ) :
    (assignRole choice hostNum publishers idx s).1 ≠ .publisher := by
  have hconsumer : NodeRole.consumer ≠ .publisher := by decide
  have hrouter : NodeRole.router ≠ .publisher := by decide
  rw [FixedPublisher, not_or, not_and] at hfixed
  rw [assignRole, if_neg hnot]
  split
  · exact hconsumer
  · rw [if_neg (by omega)]
    split
    · exact hrouter
    · rw [if_neg hfixed.1]
      split
      · exact hrouter
      · rw [if_neg (hfixed.2 (by omega)), hchoice]
        exact hconsumer

theorem buildMeshScenario_roles {ρ : Type} [LinearOrder ρ] (rng : ScenarioRng σ ρ)
    (spec : MeshBuildSpec τ) (s : σ) : (buildMeshScenario rng spec s).roles
      = (assignRoles rng.choice spec.params.hosts spec.publisherIds s).1 := by
  simp only [buildMeshScenario]
  split
  · rfl
  · split <;> rfl

end Roles

/-! ## A generator for the differences -/

/-- It draws the lower bound and the first choice, and leaves lists as they are. -/
def lowest : ScenarioRng ℕ ℕ where
  randint a _ s := (a, s + 1)
  shuffle xs s := (xs, s + 1)
  random s := (s, s + 1)
  randint_mem _ h := ⟨le_rfl, h⟩
  shuffle_perm xs _ := List.Perm.refl xs
  choice xs s := (xs.headD .consumer, s + 1)
  choice_mem {xs} _ h := by
    cases xs with
    | nil => exact absurd rfl h
    | cons x xs => exact List.mem_cons_self

theorem lowest_sum (p : MeshParams) : ∀ (n s : ℕ),
    (drawDegrees lowest.toRng p n s).1.sum = n * p.hostDegreeMin
  | 0, s => by simp [drawDegrees]
  | n + 1, s => by
    have hrest := lowest_sum p n (s + 1)
    rw [drawDegrees, List.sum_cons]
    simp only [lowest] at hrest ⊢
    rw [hrest]
    push_cast
    ring

/-- Drawing one degree for every host makes no mesh. -/
theorem lowest_fails {p : MeshParams} (hthree : 3 ≤ p.hosts) (hmin : p.hostDegreeMin = 1)
    (hmax : 1 ≤ p.hostDegreeMax) (s : ℕ) (r : Wiring × ℕ) :
    MeshTopo.build lowest.toRng p s ≠ .ok r := by
  intro h
  by_cases hnode : p.nodePerSwitch = 1
  · have hcheck : p.check = .error (.valueError "switch capacity must be >=2 to connect hosts") := by
      rw [MeshParams.check, if_neg (by omega), if_pos hnode]
    rw [MeshTopo.build] at h
    simp only [hcheck] at h
    cases h
  · have henough := enough_of_build lowest.toRng hnode hmin.ge (hmin.trans_le hmax) h
    rw [lowest_sum, hmin] at henough
    omega

/-! ## Options -/

section Options

variable {τ : Type}

/-- The parser has an option of that kind, and its flag stores a value. -/
def Stores (specs : List OptionSpec) (key : String) (kind : OptionKind) : Prop :=
  (specs.find? fun spec => spec.key = key).any (fun spec => spec.kind = kind ∧ spec.action = none) = true

theorem parseFlag_stores {specs : List OptionSpec} {key : String} {kind : OptionKind}
    (h : Stores specs key kind) {v : Value τ}
    (hv : ∀ spec : OptionSpec, spec.kind = kind → convertible spec v = true) (args : Namespace τ) :
    parseFlag specs args (key, .value v) = some (args.set key v) := by
  rw [Stores] at h
  cases hfind : specs.find? fun spec => spec.key = key with
  | none =>
    rw [hfind] at h
    cases h
  | some spec =>
    rw [hfind, Option.any_some, decide_eq_true_eq] at h
    simp only [parseFlag, hfind, storedValue, hv spec h.1, h.2, if_true, Option.map_some]

theorem wrapText_frame {key k : String} {args args' : Namespace τ} (h : wrapText key args = .ok args')
    (hne : k ≠ key) : args'.get? k = args.get? k := by
  rw [wrapText] at h
  split at h
  · cases h
  · rename_i text _
    cases h
    by_cases hempty : text = ""
    · rw [if_pos hempty]
    · rw [if_neg hempty, Dict.get?_set_ne _ _ hne]
  · cases h
    rfl

variable [IntCast τ]

/-- The namespace of the two flags. -/
def seedArgs (specs : List OptionSpec) (path : String) (seed : ℤ) : Namespace τ :=
  ((parserDefaults specs : Namespace τ).set "config" (.str path)).set "seed" (.int seed)

theorem parse_seedFlags {specs : List OptionSpec} (hconfig : Stores specs "config" .str)
    (hseed : Stores specs "seed" .int) (path : String) (seed : ℤ) :
    parseArgs specs (seedFlags path seed) = some (seedArgs specs path seed : Namespace τ) := by
  have h₁ := parseFlag_stores hconfig (v := (.str path : Value τ))
    (fun spec hkind => by simp [convertible, hkind]) (parserDefaults specs)
  have h₂ := parseFlag_stores hseed (v := (.int seed : Value τ))
    (fun spec hkind => by simp [convertible, hkind])
    ((parserDefaults specs : Namespace τ).set "config" (.str path))
  simp only [parseArgs, seedFlags, List.foldlM_cons, List.foldlM_nil, h₁, h₂,
    Option.bind_eq_bind, Option.bind_some]
  rfl

theorem seedArgs_get? (specs : List OptionSpec) (path : String) (seed : ℤ) {key : String}
    (hconfig : key ≠ "config") (hseed : key ≠ "seed") :
    (seedArgs specs path seed : Namespace τ).get? key
      = (specs.find? fun spec => spec.key = key).map fun spec => spec.default.value := by
  rw [seedArgs, Dict.get?_set_ne _ _ hseed, Dict.get?_set_ne _ _ hconfig, get?_parserDefaults]

/-- What the two builds read of a namespace. -/
def topologyKeys : List String := "switch_use_all" :: "events" :: "links" :: meshOptionKeys

theorem flags_store : Stores EntryPoint.disaster.flags "config" .str ∧
    Stores EntryPoint.disaster.flags "seed" .int := by
  constructor <;> (rw [Stores]; decide)

theorem disasterParser_stores : Stores disasterParser "config" .str ∧
    Stores disasterParser "seed" .int := by
  constructor <;> (rw [Stores]; decide)

variable [DecidableEq τ] [LE τ] [DecidableLE τ]

/-- A merge that returns leaves an ordinary option as its first loop left it. -/
theorem merge_get? {args merged : Namespace τ} {config : Mapping τ} {defaults : Namespace τ}
    (h : mergeCliAndConfig args config defaults = .ok merged) {key : String}
    (hkey : key ∈ configOptionKeys) (hbw : key ≠ "bw") (hext : key ≠ "ext") :
    merged.get? key = mergedValue config defaults key (args.get? key) := by
  rw [mergeCliAndConfig] at h
  split at h
  · cases h
  · rename_i args₁ hwrap
    have hspecial := configOptionKeys_notSpecial hkey
    rw [wrapText_frame h hext, wrapText_frame hwrap hbw,
      get?_mergeSpecials fun special hs hmerge _ => hspecial special hs hmerge,
      get?_mergeOptions, if_pos hkey]

theorem topologyKeys_ordinary : ∀ key ∈ "seed" :: topologyKeys,
    key ∈ configOptionKeys ∧ key ≠ "bw" ∧ key ≠ "ext" := by
  decide

/-- The merge returns when there is something to wrap. -/
theorem merge_returns (args : Namespace τ) (config : Mapping τ) (defaults : Namespace τ)
    (h : ∀ key ∈ ["bw", "ext"], ∃ v, args.get? key = some v) :
    ∃ merged, mergeCliAndConfig args config defaults = .ok merged := by
  have hordinary : ∀ key ∈ ["bw", "ext"], key ∈ configOptionKeys := by decide
  have hsome : ∀ key ∈ ["bw", "ext"], ∃ v, Dict.get? (optionSpecs.foldl (mergeSpecial config)
      (configOptionKeys.foldl (mergeOption config defaults) args)) key = some v := by
    intro key hkey
    have hspecial := configOptionKeys_notSpecial (hordinary key hkey)
    obtain ⟨v, hv⟩ := h key hkey
    rw [get?_mergeSpecials fun special hs hmerge _ => hspecial special hs hmerge,
      get?_mergeOptions, if_pos (hordinary key hkey), hv]
    exact mergedValue_some config defaults key v
  obtain ⟨bw, hbw⟩ := hsome "bw" (by decide)
  obtain ⟨ext, hext⟩ := hsome "ext" (by decide)
  obtain ⟨args₁, hwrap, -⟩ := wrapText_spec hbw
  obtain ⟨args₂, hwrap', -⟩ :=
    wrapText_spec ((wrapText_frame hwrap (show "ext" ≠ "bw" by decide)).trans hext)
  refine ⟨args₂, ?_⟩
  simp only [mergeCliAndConfig, hwrap, hwrap']

/-- **The tool and the run merge to the same options.** -/
theorem merged_same {config : Mapping τ} {path : String} {seed : ℤ} {tool run : Namespace τ}
    (htool : mergeCliAndConfig (seedArgs disasterParser path seed) config
      (parserDefaults disasterParser) = .ok tool)
    (hrun : mergeCliAndConfig (seedArgs EntryPoint.disaster.flags path seed) config
      EntryPoint.disaster.defaults = .ok run) :
    ∀ key ∈ topologyKeys, tool.get? key = run.get? key := by
  intro key hkey
  obtain ⟨hconfig, hbw, hext⟩ := topologyKeys_ordinary key (List.mem_cons_of_mem _ hkey)
  have hplain : ∀ key ∈ topologyKeys, key ≠ "config" ∧ key ≠ "seed" := by decide
  obtain ⟨hnc, hns⟩ := hplain key hkey
  rw [merge_get? htool hconfig hbw hext, merge_get? hrun hconfig hbw hext,
    seedArgs_get? _ _ _ hnc hns, seedArgs_get? _ _ _ hnc hns, find_flags .disaster hconfig]
  rfl

section Run

variable {config : Mapping τ} {path : String} {seed : ℤ} {merged : Namespace τ}
  (h : mergeCliAndConfig (seedArgs EntryPoint.disaster.flags path seed) config
    EntryPoint.disaster.defaults = .ok merged)
include h

/-- The seed of the command line stays. -/
theorem run_seed : merged.get? "seed" = some (.int seed) := by
  obtain ⟨hconfig, hbw, hext⟩ := topologyKeys_ordinary "seed" List.mem_cons_self
  have hfind : ((parserSpecs EntryPoint.disaster.blocks).find? fun spec => spec.key = "seed").map
      (·.default) = some .none := by
    decide
  obtain ⟨spec, hspec, hdefault⟩ := Option.map_eq_some_iff.mp hfind
  rw [merge_get? h hconfig hbw hext, seedArgs, Dict.get?_set_self, mergedValue,
    EntryPoint.defaults, get?_parserDefaults, hspec, Option.map_some, hdefault]
  split
  · rfl
  · rw [if_pos]
    simp [OptionDefault.value, Value.pyEq_int_null]

/-- What only the file can give is what the file gives. -/
theorem run_file {key : String} (hkey : key = "events" ∨ key = "links") :
    merged.get? key = config.get? key := by
  have hplain : ∀ key ∈ ["events", "links"], key ∈ "seed" :: topologyKeys ∧
      (key ≠ "config" ∧ key ≠ "seed") ∧ key ∉ nullableOptionKeys ∧
      (EntryPoint.disaster.flags.find? fun spec => spec.key = key) = none ∧
      ((parserSpecs EntryPoint.disaster.blocks).find? fun spec => spec.key = key) = none := by
    decide
  obtain ⟨hmem, ⟨hnc, hns⟩, hnull, hflags, hblocks⟩ := hplain key (by simpa using hkey)
  obtain ⟨hconfig, hbw, hext⟩ := topologyKeys_ordinary key hmem
  rw [merge_get? h hconfig hbw hext, seedArgs_get? _ _ _ hnc hns, hflags, mergedValue,
    EntryPoint.defaults, get?_parserDefaults, hblocks]
  cases config.get? key with
  | none => rfl
  | some v => simp [Value.pyEq_null, hnull]

/-- The merge gives every option of the mesh a value. -/
theorem run_mesh : ∀ key ∈ meshOptionKeys, (merged.get? key).isSome := by
  intro key hkey
  have hfound : ∀ key ∈ meshOptionKeys, key ∈ "seed" :: topologyKeys ∧
      (key ≠ "config" ∧ key ≠ "seed") ∧
      (EntryPoint.disaster.flags.find? fun spec => spec.key = key).isSome = true := by
    decide
  obtain ⟨hmem, ⟨hnc, hns⟩, hsome⟩ := hfound key hkey
  obtain ⟨spec, hspec⟩ := Option.isSome_iff_exists.mp hsome
  obtain ⟨hconfig, hbw, hext⟩ := topologyKeys_ordinary key hmem
  obtain ⟨w, hw⟩ := mergedValue_some config EntryPoint.disaster.defaults key (spec.default.value : Value τ)
  rw [merge_get? h hconfig hbw hext, seedArgs_get? _ _ _ hnc hns, hspec, Option.map_some, hw]
  rfl

end Run

theorem tool_merges (path : String) (config : Mapping τ) (seed : ℤ) :
    ∃ tool, mergeCliAndConfig (seedArgs disasterParser path seed) config
      (parserDefaults disasterParser) = .ok tool := by
  refine merge_returns _ config _ fun key hkey => ?_
  have hfound : ∀ key ∈ ["bw", "ext"], (key ≠ "config" ∧ key ≠ "seed") ∧
      (disasterParser.find? fun spec => spec.key = key).isSome = true := by
    decide
  obtain ⟨⟨hnc, hns⟩, hsome⟩ := hfound key hkey
  obtain ⟨spec, hspec⟩ := Option.isSome_iff_exists.mp hsome
  exact ⟨_, by rw [seedArgs_get? _ _ _ hnc hns, hspec, Option.map_some]⟩

end Options

/-! ## Accepted runs -/

section Accepted

variable {τ : Type}

theorem meshParams_congr {args args' : String → Option (Value τ)}
    (h : ∀ key ∈ topologyKeys, args key = args' key) : meshParams args = meshParams args' := by
  simp only [meshParams, h "hosts" (by decide), h "switches" (by decide),
    h "node_per_switch" (by decide), h "host_degree_min" (by decide), h "host_degree_max" (by decide),
    h "switch_use_all" (by decide)]

theorem meshParams_args {args : String → Option (Value τ)} {p : MeshParams}
    (h : meshParams args = some p) : (∃ n : ℤ, args "hosts" = some (.int n) ∧ p.hosts = n.toNat) ∧
      args "host_degree_min" = some (.int p.hostDegreeMin) := by
  rw [meshParams] at h
  split at h
  · rename_i hosts _ _ _ _ hhosts _ _ hmin _
    cases h
    exact ⟨⟨hosts, hhosts, rfl⟩, hmin⟩
  · cases h

theorem eventList_dicts (events : List (Event τ)) :
    eventList (events.map .dict : List (Value τ)) = some events := by
  induction events with
  | nil => rfl
  | cons event events ih =>
    rw [List.map_cons, eventList, ih]
    rfl

theorem linkList_pairs (pairs : List (ℕ × ℕ)) :
    linkList (pairs.map pairValue : List (Value τ)) = some pairs := by
  induction pairs with
  | nil => rfl
  | cons pair pairs ih =>
    rw [List.map_cons, pairValue, linkList, if_pos ⟨Int.natCast_nonneg _, Int.natCast_nonneg _⟩, ih]
    rfl

variable [DecidableEq τ]

/-- The validator sees an option as the namespace has it. -/
theorem get?_mergedConfig (args : Namespace τ) {key : String}
    (hkey : key ∈ scalarOptionKeys ++ structuredOptionKeys) :
    (mergedConfig args).get? key = args.get? key := by
  rw [mergedConfig]
  generalize scalarOptionKeys ++ structuredOptionKeys = keys at hkey
  induction keys with
  | nil => cases hkey
  | cons k keys ih =>
    rw [List.filterMap_cons]
    by_cases hk : k = key
    · subst hk
      cases hv : args.get? k with
      | none =>
        simp only [Option.map_none]
        by_cases hmem : k ∈ keys
        · rw [ih hmem, hv]
        · rw [Dict.get?_eq_none]
          intro e he heq
          obtain ⟨k', hk', hsome⟩ := List.mem_filterMap.mp he
          obtain ⟨v, hv', rfl⟩ := Option.map_eq_some_iff.mp hsome
          exact hmem (Key.str.inj heq ▸ hk')
      | some v =>
        simp only [Option.map_some, Dict.get?_cons, if_true]
    · have hmem : key ∈ keys := (List.mem_cons.mp hkey).resolve_left (Ne.symm hk)
      cases hv : args.get? k with
      | none =>
        simp only [Option.map_none]
        exact ih hmem
      | some v =>
        simp only [Option.map_some, Dict.get?_cons, if_neg (Key.str_ne hk)]
        exact ih hmem

theorem topologyKeys_validated : ∀ key ∈ topologyKeys, key ∈ scalarOptionKeys ++ structuredOptionKeys := by
  decide

variable [IntCast τ] [LE τ] [DecidableLE τ]

/-- With links the degrees are the defaults. -/
theorem hostDegreeMin_of_links {config : Mapping τ} {n : ℤ} {links : Value τ}
    (hmin : config.get? "host_degree_min" = some (.int n)) (hlinks : config.get? "links" = some links)
    (h : linksErrors config = .ok []) : n = 1 := by
  rw [linksErrors, hlinks] at h
  cases links with
  | list vs =>
    simp only at h
    split at h
    · cases h
    · simp only [Except.ok.injEq, List.append_eq_nil_iff] at h
      have hdefaults := List.flatMap_eq_nil_iff.mp h.1.2 "host_degree_min" (by decide)
      rw [hmin] at hdefaults
      have hdef : (optionDefault "host_degree_min" : Value τ) = .int 1 := rfl
      simp only [hdef] at hdefaults
      by_contra hne
      rw [if_neg] at hdefaults
      · cases hdefaults
      · simpa [Value.pyEq_int] using hne
  | _ => cases h

variable [LT τ] [DecidableLT τ] [FloatFacts τ]

theorem passes_of_bootstrap {ip : IpTexts} {entry : EntryPoint} {merged : Namespace τ}
    {config : Mapping τ} (h : bootstrapErrors ip entry merged config = .ok []) :
    Passes (mergedConfig merged) := by
  rw [bootstrapErrors] at h
  split at h
  · cases h
  · rename_i errors herrors
    split at h
    · cases h
    · simp only [Except.ok.injEq, List.append_eq_nil_iff] at h
      obtain ⟨⟨⟨rfl, -⟩, -⟩, -⟩ := h
      exact passes_of_validate herrors

/-- What the two builds start from, in the namespace of a run. -/
structure RunInputs (merged : Namespace τ) (p : MeshParams) (events : List (Event τ))
    (links : Option (List (ℕ × ℕ))) : Prop where
  params : meshParams merged.get? = some p
  hosts : merged.get? "hosts" = some (.int p.hosts)
  three : 3 ≤ p.hosts
  degree : 1 ≤ p.hostDegreeMin ∧ p.hostDegreeMin ≤ p.hostDegreeMax
  eventsArg : eventsArg merged.get? = some events
  file : (merged.get? "events").getD (.list []) = .list (events.map .dict)
  accepted : ∃ ctx : EventCheckContext τ, ctx.hostCount = some (p.hosts : ℤ) ∧
    ∀ e ∈ events, ∃ i, eventErrors (eventChecks ctx) i e = .ok []
  linksArg : linksArg merged.get? = some links
  absent : links = none ↔ merged.get? "links" = none
  explicit : ∀ pairs ∈ links, p.hostDegreeMin = 1 ∧
    ∃ wiring, ExplicitLinksTopo.buildOn p.hosts pairs = .ok wiring

/-- A namespace without messages has them. -/
theorem runInputs_of_passes {merged : Namespace τ} (h : Passes (mergedConfig merged))
    (hmesh : ∀ key ∈ meshOptionKeys, (merged.get? key).isSome) :
    ∃ p events links, RunInputs merged p events links := by
  have hsame : ∀ key ∈ topologyKeys, (mergedConfig merged).get? (key : Key τ) = merged.get? key :=
    fun key hkey => get?_mergedConfig merged (topologyKeys_validated key hkey)
  have hsub : ∀ key ∈ meshOptionKeys, key ∈ topologyKeys := by decide
  obtain ⟨p, hp, hthree, -, hmin, hmax⟩ := meshParams_of_accepted h fun key hkey => by
    rw [hsame key (hsub key hkey)]
    exact hmesh key hkey
  rw [meshParams_congr hsame] at hp
  obtain ⟨⟨n, hn, hnat⟩, hdegree⟩ := meshParams_args hp
  have hhosts : merged.get? "hosts" = some (.int p.hosts) := by
    rw [hn, hnat, Int.toNat_of_nonneg (by omega)]
  have hknown : knownHosts (mergedConfig merged) = some (p.hosts : ℤ) := by
    simp only [knownHosts, hsame "hosts" (by decide), hhosts]
  -- the events
  have hevents : ∃ events, eventsArg merged.get? = some events ∧
      (merged.get? "events").getD (.list []) = .list (events.map .dict) ∧
      ∀ e ∈ events, ∃ i, eventErrors (eventChecks (eventContext (mergedConfig merged))) i e = .ok [] := by
    cases hv : merged.get? "events" with
    | none => exact ⟨[], by rw [eventsArg, hv], rfl, fun e he => by cases he⟩
    | some v =>
      obtain ⟨events, rfl, hacc⟩ := h.events_accepted ((hsame "events" (by decide)).trans hv)
      exact ⟨events, by simp only [eventsArg, hv, eventList_dicts], rfl, hacc⟩
  obtain ⟨events, hargs, hfile, hacc⟩ := hevents
  -- the links
  have hlinks : ∃ links, linksArg merged.get? = some links ∧
      (links = none ↔ merged.get? "links" = none) ∧ ∀ pairs ∈ links, p.hostDegreeMin = 1 ∧
        ∃ wiring, ExplicitLinksTopo.buildOn p.hosts pairs = .ok wiring := by
    cases hv : merged.get? "links" with
    | none => exact ⟨none, by rw [linksArg, hv], by simp, fun pairs hpairs => by cases hpairs⟩
    | some v =>
      have hv' := (hsame "links" (by decide)).trans hv
      obtain ⟨pairs, rfl, hpairs⟩ := linksErrors_accepted hknown (by omega) hv' h.links
      rw [Int.toNat_natCast] at hpairs
      have hone := hostDegreeMin_of_links ((hsame "host_degree_min" (by decide)).trans hdegree) hv' h.links
      refine ⟨some pairs, by simp only [linksArg, hv, linkList_pairs]; rfl, by simp, fun pairs' h' => ?_⟩
      cases h'
      refine ⟨hone, ExplicitLinksTopo.build pairs, ?_⟩
      rw [ExplicitLinksTopo.buildOn, if_pos]
      intro pair hpair
      obtain ⟨-, h₁, h₂⟩ := hpairs.ends pair hpair
      exact ⟨h₁.1, h₂.1⟩
  obtain ⟨links, hlinkargs, habsent, hexplicit⟩ := hlinks
  exact ⟨p, events, links, hp, hhosts, hthree, ⟨hmin, hmax⟩, hargs, hfile,
    ⟨_, hknown, hacc⟩, hlinkargs, habsent, hexplicit⟩

end Accepted

/-! ## The two builds -/

section Builds

variable {τ : Type} [IntCast τ] [DecidableEq τ]

/-- Both builds come to an end, with the same roles and the same links. -/
def Reproduced (tool run : Option (Except PyErr MeshBuildResult)) : Prop :=
  ∃ built built', tool = some (.ok built) ∧ run = some (.ok built') ∧
    fingerprintOf built = fingerprintOf built'

/-- Some event publishes on the host, under the URI in `field`. -/
def PublishesAt (events : List (Event τ)) (field : String) (host : ℕ) : Prop :=
  ∃ e ∈ events, PublishesFrom e field ∧ e.get? "host" = some (.int host)

/-- Nothing the tool leaves out would have changed the build. -/
def NothingMissed (hosts : ℕ) (events : List (Event τ)) (links : Option (List (ℕ × ℕ))) : Prop :=
  links = none ∧ ∀ host, PublishesAt events "publish_uri" host →
    PublishesAt events "uri" host ∨ FixedPublisher hosts host

variable [LT τ] [DecidableLT τ] [LE τ] [DecidableLE τ] [FloatFacts τ] {merged : Namespace τ}
  {p : MeshParams} {events : List (Event τ)} {links : Option (List (ℕ × ℕ))}

/-- The publishers of either mode are hosts, and those that publish. -/
theorem RunInputs.publishers (h : RunInputs merged p events links) (includeConditional : Bool) :
    ∃ pubs, extractPublications events includeConditional = .ok pubs ∧
      ∀ host : ℕ, Key.int host ∈ pubs.publisherIds ↔ PublishesAt events "uri" host ∨
        (includeConditional = true ∧ PublishesAt events "publish_uri" host) := by
  obtain ⟨ctx, -, hacc⟩ := h.accepted
  obtain ⟨pubs, hpubs, -, hids⟩ := extractPublications_spec hacc includeConditional
  refine ⟨pubs, hpubs, fun host => ?_⟩
  rw [hids]
  constructor
  · rintro ⟨e, he, field, host', ⟨hfield, hmode⟩, hhost, hkey⟩
    cases hkey
    rcases publishes_field hfield with rfl | rfl
    · exact .inl ⟨e, he, hfield, hhost⟩
    · exact .inr ⟨hmode.resolve_right (by decide), e, he, hfield, hhost⟩
  · rintro (⟨e, he, hfield, hhost⟩ | ⟨hmode, e, he, hfield, hhost⟩)
    · exact ⟨e, he, "uri", host, ⟨hfield, .inr rfl⟩, hhost, rfl⟩
    · exact ⟨e, he, "publish_uri", host, ⟨hfield, .inl hmode⟩, hhost, rfl⟩

/-- A host that publishes is one of the network. -/
theorem RunInputs.host_lt (h : RunInputs merged p events links) {field : String} {host : ℕ}
    (hpub : PublishesAt events field host) : host < p.hosts := by
  obtain ⟨ctx, hctx, hacc⟩ := h.accepted
  obtain ⟨e, he, hfield, hhost⟩ := hpub
  obtain ⟨i, hi⟩ := hacc e he
  obtain ⟨t, ht⟩ := accepted_self hi
  have hreq : "host" ∈ requiredFields t := by
    have hallow : ∀ t ∈ repeatAllowlistEventTypes, "host" ∈ requiredFields t := by decide
    exact hallow t (List.contains_iff_mem.mp (publishes_allowlisted hfield ht.type))
  obtain ⟨host', hhost', -, hlt⟩ := (ready_of_accepted hctx ht).host hreq
  rw [hhost, Option.some.injEq, Value.int.injEq] at hhost'
  omega

/-- **The builds agree for every generator exactly when nothing is missed.** -/
theorem RunInputs.reproduced_iff (h : RunInputs merged p events links) {pubs pubs' : Publications τ}
    (hpubs : extractPublications events false = .ok pubs)
    (hpubs' : extractPublications events true = .ok pubs') :
    (∀ {σ ρ : Type} [LinearOrder ρ] (rng : ScenarioRng σ ρ) (s : σ),
      fingerprintOf (buildMeshScenario rng ⟨p, pubs.publisherIds, none⟩ s)
        = fingerprintOf (buildMeshScenario rng ⟨p, pubs'.publisherIds, links⟩ s)) ↔
      NothingMissed p.hosts events links := by
  have hids : ∀ host : ℕ, Key.int host ∈ pubs.publisherIds ↔ PublishesAt events "uri" host := by
    obtain ⟨q, hq, hiff⟩ := h.publishers false
    rw [hpubs, Except.ok.injEq] at hq
    intro host
    rw [hq, hiff]
    simp
  have hids' : ∀ host : ℕ, Key.int host ∈ pubs'.publisherIds ↔ PublishesAt events "uri" host ∨
      PublishesAt events "publish_uri" host := by
    obtain ⟨q, hq, hiff⟩ := h.publishers true
    rw [hpubs', Except.ok.injEq] at hq
    intro host
    rw [hq, hiff]
    simp
  constructor
  · intro hall
    have hsame := hall lowest 0
    constructor
    · -- with links the degrees are from one on, and drawing one for every host makes no mesh
      cases links with
      | none => rfl
      | some pairs =>
        exfalso
        obtain ⟨hone, wiring, hwiring⟩ := h.explicit pairs rfl
        have hlinks := congrArg Prod.snd hsame
        simp only [buildMeshScenario, hwiring, fingerprintOf, meshTopoLinks] at hlinks
        split at hlinks
        · cases hlinks
        · rename_i hok
          split at hok
          · cases hok
          · rename_i hbuild
            exact lowest_fails h.three hone (hone ▸ h.degree.2) _ _ hbuild
    · intro host hcall
      by_contra hmissed
      rw [not_or] at hmissed
      have hroles := congrArg Prod.fst hsame
      simp only [fingerprintOf, buildMeshScenario_roles] at hroles
      have hmem : host ∈ List.range p.hosts := List.mem_range.mpr (h.host_lt hcall)
      obtain ⟨s, hs⟩ := assignRolesFrom_get? lowest.choice p.hosts pubs.publisherIds
        List.nodup_range hmem [] 0
      obtain ⟨s', hs'⟩ := assignRolesFrom_get? lowest.choice p.hosts pubs'.publisherIds
        List.nodup_range hmem [] 0
      rw [assignRole_publisher ((hids' host).mpr (.inr hcall))] at hs'
      have hget := congrArg (·.get? host) hroles
      simp only [assignRoles, hs, hs', Option.some.injEq] at hget
      exact assignRole_ne_publisher h.three (fun _ => rfl)
        (fun hid => hmissed.1 ((hids host).mp hid)) hmissed.2 s hget
  · rintro ⟨rfl, hpublish⟩ σ ρ _ rng s
    have hroles : assignRoles rng.choice p.hosts pubs.publisherIds s
        = assignRoles rng.choice p.hosts pubs'.publisherIds s := by
      refine assignRolesFrom_congr h.three (fun idx _ => ?_) [] s
      rw [hids, hids']
      by_cases hcall : PublishesAt events "publish_uri" idx
      · exact (hpublish idx hcall).imp_left fun huri => iff_of_true huri (.inl huri)
      · exact .inl (or_iff_left hcall).symm
    rw [buildMeshScenario, buildMeshScenario]
    simp only [hroles]

/-- **When the fingerprint is that of the run.** For every configuration that
    `disaster --config path --seed seed` accepts: the tool comes to the roles and the links of the
    run, for every generator, exactly when there are no `links`, and every host with a call that
    publishes has an event that publishes anyway or would be a publisher without one. -/
theorem fingerprint_reproduces_iff {ip : IpTexts} {path : String} {config : Mapping τ} {seed : ℤ}
    {args merged : Namespace τ}
    (hparse : parseArgs EntryPoint.disaster.flags (seedFlags path seed) = some args)
    (hmerge : mergeCliAndConfig args config EntryPoint.disaster.defaults = .ok merged)
    (hvalid : bootstrapErrors ip .disaster merged config = .ok []) :
    ∃ (hosts : ℕ) (events : List (Event τ)), merged.get? "hosts" = some (.int hosts) ∧
      (config.get? "events").getD (.list []) = .list (events.map .dict) ∧
      ((∀ {σ ρ : Type} [LinearOrder ρ] (rng : ScenarioRng σ ρ) (seeded : ℤ → σ),
          Reproduced (fingerprintBuild rng seeded path config seed)
            (disasterBuild rng seeded merged)) ↔
        config.get? "links" = none ∧ ∀ host, PublishesAt events "publish_uri" host →
          PublishesAt events "uri" host ∨ FixedPublisher hosts host) := by
  rw [parse_seedFlags flags_store.1 flags_store.2, Option.some.injEq] at hparse
  subst hparse
  obtain ⟨p, events, links, hrun⟩ := runInputs_of_passes (passes_of_bootstrap hvalid) (run_mesh hmerge)
  have hseed := run_seed hmerge
  obtain ⟨tool, htool⟩ := tool_merges path config seed
  have hsame := merged_same htool hmerge
  have htoolparams : meshParams tool.get? = some p := (meshParams_congr hsame).trans hrun.params
  have htoolevents : eventsArg tool.get? = some events := by
    rw [← hrun.eventsArg, eventsArg, eventsArg, hsame "events" (by decide)]
  obtain ⟨pubs, hpubs, -⟩ := hrun.publishers false
  obtain ⟨pubs', hpubs', -⟩ := hrun.publishers true
  have htoolbuild : ∀ {σ ρ : Type} [LinearOrder ρ] (rng : ScenarioRng σ ρ) (seeded : ℤ → σ),
      fingerprintBuild rng seeded path config seed
        = some (.ok (buildMeshScenario rng ⟨p, pubs.publisherIds, none⟩ (seeded seed))) := by
    intro σ ρ _ rng seeded
    simp only [fingerprintBuild, resolveTopologyInputs,
      parse_seedFlags disasterParser_stores.1 disasterParser_stores.2, htool, htoolparams, htoolevents,
      hpubs, buildMeshScenario]
  have hrunbuild : ∀ {σ ρ : Type} [LinearOrder ρ] (rng : ScenarioRng σ ρ) (seeded : ℤ → σ),
      disasterBuild rng seeded merged
        = some (.ok (buildMeshScenario rng ⟨p, pubs'.publisherIds, links⟩ (seeded seed))) := by
    intro σ ρ _ rng seeded
    simp only [disasterBuild, hrun.params, hrun.eventsArg, hrun.linksArg, hseed, hpubs']
  refine ⟨p.hosts, events, hrun.hosts, ?_, ?_⟩
  · rw [← run_file hmerge (.inl rfl)]
    exact hrun.file
  · have hiff := hrun.reproduced_iff hpubs hpubs'
    rw [NothingMissed, hrun.absent, run_file hmerge (.inr rfl)] at hiff
    rw [← hiff]
    constructor
    · intro h σ ρ _ rng s
      obtain ⟨built, built', hbuilt, hbuilt', heq⟩ := h rng fun _ => s
      rw [htoolbuild, Option.some.injEq, Except.ok.injEq] at hbuilt
      rw [hrunbuild, Option.some.injEq, Except.ok.injEq] at hbuilt'
      rw [hbuilt, hbuilt']
      exact heq
    · intro h σ ρ _ rng seeded
      exact ⟨_, _, htoolbuild rng seeded, hrunbuild rng seeded, h rng (seeded seed)⟩

end Builds

/-- A call on a host, whose answer is published. -/
def callEvent (host : ℤ) : Event Rat :=
  [("at", .int 2), ("type", .str "compute_call"), ("host", .int host),
    ("endpoint", .str "http://127.0.0.1/"), ("output_file", .str "b.bin"),
    ("publish_uri", .str "ccnx:/b")]

def callConfig (host : ℤ) : Mapping Rat :=
  [("hosts", .int 4), ("events", .list [.dict (callEvent host)])]

/-- The call of host 2 changes nothing: it is a publisher in any case. -/
theorem fingerprint_reproduces_iff_call : ∃ args merged : Namespace Rat,
    parseArgs EntryPoint.disaster.flags (seedFlags "x.yaml" 7) = some args ∧
      mergeCliAndConfig args (callConfig 2) EntryPoint.disaster.defaults = .ok merged ∧
      bootstrapErrors ⟨fun _ => true, fun _ => some 16⟩ .disaster merged (callConfig 2) = .ok [] ∧
      ∀ {σ ρ : Type} [LinearOrder ρ] (rng : ScenarioRng σ ρ) (seeded : ℤ → σ),
        Reproduced (fingerprintBuild rng seeded "x.yaml" (callConfig 2) 7)
          (disasterBuild rng seeded merged) := by
  have haccepted : ∃ args merged : Namespace Rat,
      parseArgs EntryPoint.disaster.flags (seedFlags "x.yaml" 7) = some args ∧
      mergeCliAndConfig args (callConfig 2) EntryPoint.disaster.defaults = .ok merged ∧
      bootstrapErrors ⟨fun _ => true, fun _ => some 16⟩ .disaster merged (callConfig 2) = .ok [] :=
    ⟨_, _, rfl, rfl, rfl⟩
  obtain ⟨args, merged, hparse, hmerge, hvalid⟩ := haccepted
  obtain ⟨hosts, events, -, hevents, hiff⟩ := fingerprint_reproduces_iff hparse hmerge hvalid
  refine ⟨args, merged, hparse, hmerge, hvalid, hiff.mpr ⟨rfl, fun host hcall => .inr (.inl ?_)⟩⟩
  obtain ⟨e, he, -, hhost⟩ := hcall
  have hmem : Value.dict e ∈ [Value.dict (callEvent 2)] := by
    have hmap : [Value.dict (callEvent 2)] = events.map .dict := Value.list.inj hevents
    rw [hmap]
    exact List.mem_map_of_mem he
  cases List.mem_singleton.mp hmem
  have htwo : (callEvent 2).get? "host" = some (.int 2) := rfl
  rw [htwo, Option.some.injEq, Value.int.injEq] at hhost
  omega

/-- The call of host 1 makes it a publisher in the run, and a router in the fingerprint. -/
theorem call_missed : ∃ args merged : Namespace Rat,
    parseArgs EntryPoint.disaster.flags (seedFlags "x.yaml" 7) = some args ∧
      mergeCliAndConfig args (callConfig 1) EntryPoint.disaster.defaults = .ok merged ∧
      bootstrapErrors ⟨fun _ => true, fun _ => some 16⟩ .disaster merged (callConfig 1) = .ok [] ∧
      ¬ Reproduced (fingerprintBuild lowest (fun _ => 0) "x.yaml" (callConfig 1) 7)
          (disasterBuild lowest (fun _ => 0) merged) := by
  refine ⟨_, _, rfl, rfl, rfl, ?_⟩
  rintro ⟨built, built', h, h', heq⟩
  cases h
  cases h'
  have hroles : some NodeRole.router = some .publisher := congrArg (fun f => f.1.get? 1) heq
  exact absurd hroles (by decide)

end Proof
end CeforeEmu
