import CeforeEmu.Proof.KCenters
import CeforeEmu.Proof.Validation
import CeforeEmu.Runtime.CachePlacement

/-!
# Cache nodes are hosts

`decide` puts together three ways to select, the exclusion of publishers and a fallback. Selecting
by the graph stays within it (`GraphChoice`), so what can go wrong is elsewhere: the ids of a `manual`
section are taken as they stand, which the validator does not compare with the number of hosts, and
the fallback takes the last host whether it is a publisher or not. `placement_inside_iff` says that
nothing else does.
-/

set_option autoImplicit false

namespace CeforeEmu
namespace Proof

open CeforeEmu.Lib CeforeEmu.Core CeforeEmu.Runtime

variable {τ : Type}

/-! ## What is wanted -/

/-- A graph whose nodes are the hosts. -/
structure HostGraphOn (hosts : ℤ) (graph : Graph ℤ) : Prop where
  nodup : Dict.NodupKeys graph
  mem : ∀ n, n ∈ graph.map (·.1) ↔ 0 ≤ n ∧ n < hosts
  closed : ClosedGraph graph

/-- Cache nodes as they should be: some, different hosts, and no publisher among them if there is
    another host to take. -/
structure Inside (hosts : ℤ) (publishers : List ℤ) (excludePublishers : Bool) (nodes : List ℤ) :
    Prop where
  ne : nodes ≠ []
  nodup : nodes.Nodup
  range : ∀ n ∈ nodes, 0 ≤ n ∧ n < hosts
  eligible : excludePublishers = true → (∃ h, (0 ≤ h ∧ h < hosts) ∧ h ∉ publishers) →
    ∀ n ∈ nodes, n ∉ publishers

/-- Whom `decide` leaves out. -/
def excluded (publishers : List ℤ) (excludePublishers : Bool) : List ℤ :=
  if excludePublishers then publishers else []

/-- The last host may be taken: it is not left out, or everyone is. -/
def LastHostOk (hosts : ℤ) (exclude : List ℤ) : Prop :=
  hosts - 1 ∈ exclude → ∀ h, 0 ≤ h ∧ h < hosts → h ∈ exclude

/-- The ids an entry of a `nodes` section lists. -/
def idsOf [DecidableEq τ] : Value τ → List ℤ
  | .dict entry => (CacheConfigManager.entryIds entry).getD []
  | _ => []

/-- The ids of a `nodes` section. -/
def listedIds [DecidableEq τ] (cc : Mapping τ) : List ℤ :=
  ((CacheConfigManager.nodes? cc).getD []).flatMap idsOf

/-- The ids of a manual selection are hosts unless they are left out, and the fallback is not
    needed, or does no harm. -/
def StaysInside [DecidableEq τ] (hosts : ℤ) (exclude : List ℤ) (cc : Mapping τ) : Prop :=
  if CacheConfigManager.strategy? cc = some "manual" then
    (∀ id ∈ listedIds cc, id ∉ exclude → 0 ≤ id ∧ id < hosts) ∧
      ((∀ id ∈ listedIds cc, id ∈ exclude) → LastHostOk hosts exclude)
  else
    (CacheConfigManager.default? cc).bind CacheConfigManager.count? = some 0 →
      LastHostOk hosts exclude

/-! ## The fallback -/

variable {hosts : ℤ} {publishers : List ℤ} {excludePublishers : Bool}

theorem inside_of_eligible {nodes : List ℤ} (hne : nodes ≠ []) (hnodup : nodes.Nodup)
    (hrange : ∀ n ∈ nodes, 0 ≤ n ∧ n < hosts)
    (hout : ∀ n ∈ nodes, n ∉ excluded publishers excludePublishers) :
    Inside hosts publishers excludePublishers nodes := by
  refine ⟨hne, hnodup, hrange, fun hexclude _ n hn hpub => hout n hn ?_⟩
  rw [excluded, if_pos hexclude]
  exact hpub

theorem inside_last (hpos : 0 < hosts) :
    Inside hosts publishers excludePublishers [hosts - 1] ↔
      LastHostOk hosts (excluded publishers excludePublishers) := by
  constructor
  · intro h hlast n hn
    cases hflag : excludePublishers with
    | false =>
      rw [hflag, excluded, if_neg (by simp)] at hlast
      cases hlast
    | true =>
      rw [hflag, excluded, if_pos rfl] at hlast
      rw [excluded, if_pos rfl]
      by_contra hpub
      exact h.eligible hflag ⟨n, hn, hpub⟩ _ List.mem_cons_self hlast
  · intro h
    refine ⟨by simp, by simp, ?_, ?_⟩
    · intro n hn
      rw [List.mem_singleton.mp hn]
      omega
    · rintro hflag ⟨other, hother, hfree⟩ n hn
      rw [List.mem_singleton.mp hn]
      intro hlast
      rw [LastHostOk, excluded, if_pos hflag] at h
      exact hfree (h hlast other hother)

/-- `decide` is right when what was selected is, or when nothing was and the last host may be
    taken. -/
theorem decide_inside_iff {p : CachePlacement τ} {nodes : List ℤ} (hhosts : p.hostCount = hosts)
    (hpos : 0 < hosts) (hselect : p.select = .ok nodes) :
    (∃ result, p.decide = .ok result ∧ Inside hosts publishers excludePublishers result) ↔
      (nodes = [] → LastHostOk hosts (excluded publishers excludePublishers)) ∧
      (nodes ≠ [] → Inside hosts publishers excludePublishers nodes) := by
  simp only [CachePlacement.decide, hselect, hhosts, Except.ok.injEq, exists_eq_left']
  by_cases hnil : nodes = []
  · rw [if_pos ⟨hnil, hpos⟩, inside_last hpos]
    simp [hnil]
  · rw [if_neg fun h => hnil h.1]
    simp [hnil]

/-! ## Selecting by the graph -/

/-- What a selection by the graph returns when `count` nodes are asked for. -/
structure GraphChoice (graph : Graph ℤ) (exclude : List ℤ) (count : ℤ) (nodes : List ℤ) : Prop where
  nodup : nodes.Nodup
  sub : ∀ n ∈ nodes, n ∈ graph.map (·.1) ∧ n ∉ exclude
  eq_nil : nodes = [] ↔ count ≤ 0 ∨ ∀ n ∈ graph.map (·.1), n ∈ exclude

theorem mem_eligibleNodes_iff {graph : Graph ℤ} {exclude : List ℤ} {n : ℤ} :
    n ∈ eligibleNodes graph exclude ↔ n ∈ graph.map (·.1) ∧ n ∉ exclude := by
  rw [eligibleNodes, List.mem_filter, (List.perm_insertionSort _ _).mem_iff, decide_eq_true_iff]

theorem selectKCenters_picks {graph : Graph ℤ} (hgraph : ClosedGraph graph) (count : ℤ)
    (exclude : List ℤ) :
    ∃ nodes, selectKCenters graph count (none : Option (ℤ → ℤ → ℕ)) exclude = .ok nodes ∧
      GraphChoice graph exclude count nodes := by
  have hw : ∀ a b, EdgeOf graph a b → 0 ≤ stepCost (none : Option (ℤ → ℤ → ℕ)) a b :=
    fun _ _ _ => Nat.zero_le _
  obtain ⟨nodes, hok, hnodup, hsub, hnil⟩ := selectKCenters_returns hw hgraph count exclude
  refine ⟨nodes, hok, hnodup, fun n hn => mem_eligibleNodes_iff.mp (hsub n hn), ?_⟩
  rw [hnil, List.eq_nil_iff_forall_not_mem]
  simp only [mem_eligibleNodes_iff, not_and, not_not]

theorem selectDegreeBased_picks {manager : CacheConfigManager τ}
    (hkeys : Dict.NodupKeys manager.graph) (hcount : 0 ≤ manager.count) (exclude : List ℤ) :
    GraphChoice manager.graph exclude manager.count (manager.selectDegreeBased exclude) := by
  have hperm := List.perm_insertionSort (CacheConfigManager.byDegree manager.graph)
    ((manager.graph.map (·.1)).filter fun n => n ∉ exclude)
  simp only [CacheConfigManager.selectDegreeBased, CacheConfigManager.upTo,
    if_neg (show ¬ manager.count < 0 by omega)]
  refine ⟨?_, fun n hn => ?_, ?_⟩
  · exact (hperm.nodup_iff.mpr (hkeys.filter _)).sublist (List.take_sublist _ _)
  · have hmem := hperm.mem_iff.mp (List.mem_of_mem_take hn)
    simpa only [List.mem_filter, decide_eq_true_eq] using hmem
  · rw [List.take_eq_nil_iff, ← List.length_eq_zero_iff, hperm.length_eq, List.length_eq_zero_iff,
      List.filter_eq_nil_iff]
    simp only [decide_eq_true_eq, not_not]
    rw [show manager.count.toNat = 0 ↔ manager.count ≤ 0 by omega]

/-- With at least one node asked for a selection by the graph needs the fallback only when everyone
    is left out. -/
theorem GraphChoice.inside_iff {graph : Graph ℤ} (hgraph : HostGraphOn hosts graph) {count : ℤ}
    {nodes : List ℤ}
    (h : GraphChoice graph (excluded publishers excludePublishers) count nodes) :
    (nodes = [] → LastHostOk hosts (excluded publishers excludePublishers)) ∧
        (nodes ≠ [] → Inside hosts publishers excludePublishers nodes) ↔
      (count ≤ 0 → LastHostOk hosts (excluded publishers excludePublishers)) := by
  have hinside : nodes ≠ [] → Inside hosts publishers excludePublishers nodes := fun hne =>
    inside_of_eligible hne h.nodup (fun n hn => (hgraph.mem n).mp (h.sub n hn).1)
      fun n hn => (h.sub n hn).2
  have hall : (∀ n ∈ graph.map (·.1), n ∈ excluded publishers excludePublishers) →
      LastHostOk hosts (excluded publishers excludePublishers) :=
    fun hall _ n hn => hall n ((hgraph.mem n).mpr hn)
  rw [and_iff_left hinside, h.eq_nil]
  constructor
  · exact fun hlast hcount => hlast (.inl hcount)
  · rintro hlast (hcount | hout)
    · exact hlast hcount
    · exact hall hout

/-! ## Selecting by hand -/

theorem mem_selectManual {manager : CacheConfigManager τ} {exclude : List ℤ} {n : ℤ} :
    n ∈ manager.selectManual exclude ↔ n ∈ manager.nodeOverrides.map (·.1) ∧ n ∉ exclude := by
  rw [CacheConfigManager.selectManual, List.mem_filter, (List.perm_insertionSort _ _).mem_iff,
    decide_eq_true_iff]

theorem selectManual_inside_iff {manager : CacheConfigManager τ}
    (hkeys : Dict.NodupKeys manager.nodeOverrides) :
    ((manager.selectManual (excluded publishers excludePublishers) = [] →
          LastHostOk hosts (excluded publishers excludePublishers)) ∧
        (manager.selectManual (excluded publishers excludePublishers) ≠ [] →
          Inside hosts publishers excludePublishers
            (manager.selectManual (excluded publishers excludePublishers)))) ↔
      (∀ id ∈ manager.nodeOverrides.map (·.1), id ∉ excluded publishers excludePublishers →
          0 ≤ id ∧ id < hosts) ∧
        ((∀ id ∈ manager.nodeOverrides.map (·.1), id ∈ excluded publishers excludePublishers) →
          LastHostOk hosts (excluded publishers excludePublishers)) := by
  have hnodup : (manager.selectManual (excluded publishers excludePublishers)).Nodup :=
    ((List.perm_insertionSort _ _).nodup_iff.mpr hkeys).filter _
  have hnil : manager.selectManual (excluded publishers excludePublishers) = [] ↔
      ∀ id ∈ manager.nodeOverrides.map (·.1), id ∈ excluded publishers excludePublishers := by
    rw [List.eq_nil_iff_forall_not_mem]
    simp only [mem_selectManual, not_and, not_not]
  rw [← hnil, and_comm]
  refine and_congr_left' ?_
  constructor
  · intro h id hid hout
    have hmem := mem_selectManual.mpr ⟨hid, hout⟩
    exact (h (List.ne_nil_of_mem hmem)).range id hmem
  · intro h hne
    refine inside_of_eligible hne hnodup (fun n hn => ?_) fun n hn => (mem_selectManual.mp hn).2
    obtain ⟨hid, hout⟩ := mem_selectManual.mp hn
    exact h n hid hout

/-! ## Reading an accepted configuration -/

section Reading

open CacheConfigManager

variable [DecidableEq τ]

omit [DecidableEq τ] in
theorem mapM_nodeId? {vs : List (Value τ)} (h : vs.all Value.isInt = true) :
    ∃ ids, vs.mapM nodeId? = some ids := by
  have hread : ∀ v ∈ vs, ∃ id : ℤ, nodeId? v = some id ∧ True := by
    intro v hv
    obtain ⟨n, rfl⟩ := int_of_isInt (List.all_eq_true.mp h v hv)
    exact ⟨n, rfl, trivial⟩
  obtain ⟨ids, hids, -⟩ := exists_mapM hread
  exact ⟨ids, hids⟩

/-- The ids of an entry that has been checked. -/
theorem entryIds_of_checked {entry : Mapping τ} {path : String} (h : cacheNodeErrors entry path = []) :
    ∃ ids, entryIds entry = some ids := by
  have hid := (List.append_eq_nil_iff.mp h).1
  rw [entryIds]
  cases hv : entry.get? "id" with
  | none => exact ⟨[], rfl⟩
  | some v =>
    have hok := fieldErrors_nil hid hv
    cases v with
    | int n => exact ⟨[n], rfl⟩
    | list vs =>
      obtain ⟨ids, hids⟩ := mapM_nodeId? (show vs.all Value.isInt = true from hok)
      exact ⟨ids, hids⟩
    | _ => cases hok

omit [DecidableEq τ] in
/-- One entry: its ids are added to the keys. -/
theorem foldl_set_keys (settings : Mapping τ) : ∀ (ids : List ℤ) (d : Dict ℤ (Mapping τ)),
    (Dict.NodupKeys d → Dict.NodupKeys (ids.foldl (fun d id => d.set id settings) d)) ∧
      ∀ id, id ∈ (ids.foldl (fun d id => d.set id settings) d).map (·.1) ↔
        id ∈ d.map (·.1) ∨ id ∈ ids := by
  intro ids
  induction ids with
  | nil =>
    intro d
    exact ⟨id, fun i => by simp⟩
  | cons i ids ih =>
    intro d
    obtain ⟨hnodup, hmem⟩ := ih (d.set i settings)
    refine ⟨fun hd => hnodup (hd.set i settings), fun j => ?_⟩
    rw [List.foldl_cons, hmem, Dict.mem_keys_set, List.mem_cons]
    tauto

/-- **The loop over the entries** keeps the ids it has listed as keys. -/
theorem parseNodeOverrides_spec : ∀ {nodes : List (Value τ)},
    (∀ v ∈ nodes, ∃ entry path, v = .dict entry ∧ cacheNodeErrors entry path = []) →
    ∀ d : Dict ℤ (Mapping τ), ∃ overrides, parseNodeOverrides nodes d = some overrides ∧
      (Dict.NodupKeys d → Dict.NodupKeys overrides) ∧
      ∀ id, id ∈ overrides.map (·.1) ↔ id ∈ d.map (·.1) ∨ id ∈ nodes.flatMap idsOf := by
  intro nodes
  induction nodes with
  | nil =>
    intro _ d
    exact ⟨d, rfl, id, fun i => by simp⟩
  | cons v nodes ih =>
    intro h d
    obtain ⟨⟨entry, path, rfl, hentry⟩, hrest⟩ := List.forall_mem_cons.mp h
    obtain ⟨ids, hids⟩ := entryIds_of_checked hentry
    obtain ⟨hset, hkeys⟩ := foldl_set_keys (Dict.without entry "id") ids d
    obtain ⟨overrides, hparse, hnodup, hmem⟩ := ih hrest _
    refine ⟨overrides, ?_, fun hd => hnodup (hset hd), fun i => ?_⟩
    · rw [parseNodeOverrides, hids]
      exact hparse
    · rw [hmem, hkeys, List.flatMap_cons, List.mem_append, idsOf, hids, Option.getD_some, or_assoc]

/-- What the manager of an accepted `cache_config` is. -/
structure ReadsAs (cc : Mapping τ) (graph : Graph ℤ) (manager : CacheConfigManager τ) : Prop where
  strategy : strategy? cc = some manager.strategy
  known : manager.strategy ∈ ["k_centers", "manual", "degree_based", "random"]
  count : (default? cc).bind count? = some manager.count
  nonneg : 0 ≤ manager.count
  nodup : Dict.NodupKeys manager.nodeOverrides
  listed : ∀ id, id ∈ manager.nodeOverrides.map (·.1) ↔ id ∈ listedIds cc
  graph : manager.graph = graph

theorem strategy?_of_checked {cc : Mapping τ} {choices : List String} {msg : String}
    (h : fieldErrors cc "strategy" (Value.isOneOf choices) msg = []) (hk : "k_centers" ∈ choices) :
    ∃ s, strategy? cc = some s ∧ s ∈ choices := by
  rw [strategy?]
  cases hv : cc.get? "strategy" with
  | none => exact ⟨_, rfl, hk⟩
  | some v =>
    have hok := fieldErrors_nil h hv
    cases v with
    | str s => exact ⟨s, rfl, List.contains_iff_mem.mp hok⟩
    | _ => cases hok

theorem count?_of_checked {cc : Mapping τ} (h : cacheDefaultErrors cc = []) :
    ∃ d n, default? cc = some d ∧ count? d = some n ∧ 0 ≤ n := by
  rw [cacheDefaultErrors] at h
  rw [default?]
  cases hd : cc.get? "default" with
  | none => exact ⟨[], 0, rfl, rfl, le_refl 0⟩
  | some v =>
    cases v with
    | dict d =>
      simp only [hd, List.append_eq_nil_iff] at h
      refine ⟨d, ?_⟩
      rw [count?]
      cases hn : Dict.get? d (Key.str "count") with
      | none => exact ⟨0, rfl, rfl, le_refl 0⟩
      | some n =>
        have hok := fieldErrors_nil h.1 hn
        cases n with
        | int n => exact ⟨n, rfl, rfl, by simpa [Value.intAtLeast] using hok⟩
        | _ => cases hok
    | _ => simp [hd] at h

/-- **An accepted `cache_config` can be read.** -/
theorem manager_of_checked {config cc : Mapping τ} (h : cacheConfigErrors config = [])
    (hcc : config.get? "cache_config" = some (.dict cc)) (hosts : ℤ) (graph : Graph ℤ)
    (publishers : List ℤ) : ∃ manager, CacheConfigManager.new? cc hosts graph publishers = some manager ∧
      ReadsAs cc graph manager := by
  simp only [cacheConfigErrors, dictKeyErrors, hcc, List.append_eq_nil_iff] at h
  obtain ⟨⟨hstrategy, hdefault⟩, hnodes⟩ := h
  obtain ⟨s, hs, hknown⟩ := strategy?_of_checked hstrategy (by simp)
  obtain ⟨d, n, hd, hn, hnonneg⟩ := count?_of_checked hdefault
  obtain ⟨nodes, hlist, hchecked⟩ : ∃ nodes, nodes? cc = some nodes ∧
      ∀ v ∈ nodes, ∃ entry path, v = .dict entry ∧ cacheNodeErrors entry path = [] := by
    rw [nodes?]
    cases hv : cc.get? "nodes" with
    | none => exact ⟨[], rfl, by simp⟩
    | some v =>
      obtain ⟨nodes, rfl, hnodes⟩ := entries_of_listKeyErrors hnodes hv
      exact ⟨nodes, rfl, hnodes⟩
  obtain ⟨overrides, hparse, hnodup, hmem⟩ := parseNodeOverrides_spec hchecked []
  refine ⟨⟨s, d, n, overrides, hosts, graph, publishers⟩, ?_, hs, hknown, ?_, hnonneg,
    hnodup List.nodup_nil, fun id => ?_, rfl⟩
  · simp [CacheConfigManager.new?, hs, hd, hn, hlist, hparse]
  · rw [hd]
    exact hn
  · rw [hmem, listedIds, hlist]
    simp

end Reading

/-! ## Both ways to select -/

section Selecting

variable [DecidableEq τ]

/-- A manager, whatever its strategy. -/
theorem ReadsAs.inside_iff {cc : Mapping τ} {graph : Graph ℤ} {manager : CacheConfigManager τ}
    (h : ReadsAs cc graph manager) (hgraph : HostGraphOn hosts graph)
    (hstrategy : manager.strategy ≠ "random") :
    ∃ nodes, manager.selectCacheNodes (excluded publishers excludePublishers) = .ok nodes ∧
      ((nodes = [] → LastHostOk hosts (excluded publishers excludePublishers)) ∧
          (nodes ≠ [] → Inside hosts publishers excludePublishers nodes) ↔
        StaysInside hosts (excluded publishers excludePublishers) cc) := by
  have hcount : manager.count ≤ 0 ↔ (CacheConfigManager.default? cc).bind
      CacheConfigManager.count? = some 0 := by
    rw [h.count, Option.some.injEq]
    have := h.nonneg
    omega
  have hgraph' : HostGraphOn hosts manager.graph := h.graph ▸ hgraph
  have hknown := h.known
  simp only [List.mem_cons, hstrategy, List.not_mem_nil, or_false] at hknown
  rw [CacheConfigManager.selectCacheNodes, StaysInside, h.strategy]
  rcases hknown with hs | hs | hs
  · rw [hs, if_pos rfl, if_neg (by decide), ← hcount]
    obtain ⟨nodes, hok, hchoice⟩ := selectKCenters_picks hgraph'.closed manager.count
      (excluded publishers excludePublishers)
    exact ⟨nodes, hok, hchoice.inside_iff hgraph'⟩
  · rw [hs, if_neg (by decide), if_pos rfl, if_pos rfl]
    simp only [← h.listed]
    exact ⟨_, rfl, selectManual_inside_iff h.nodup⟩
  · rw [hs, if_neg (by decide), if_neg (by decide), if_pos rfl, if_neg (by decide), ← hcount]
    exact ⟨_, rfl, (selectDegreeBased_picks hgraph'.nodup h.nonneg _).inside_iff hgraph'⟩

omit [DecidableEq τ] in
/-- Without a manager at least one centre is asked for. -/
theorem legacy_inside {p : CachePlacement τ} (hmanager : p.manager = none)
    (hgraph : HostGraphOn hosts p.graph) (hdown : 0 ≤ p.downCount)
    (hexclude : p.exclude = excluded publishers excludePublishers) :
    ∃ nodes, p.select = .ok nodes ∧
      (nodes = [] → LastHostOk hosts (excluded publishers excludePublishers)) ∧
        (nodes ≠ [] → Inside hosts publishers excludePublishers nodes) := by
  simp only [CachePlacement.select, hmanager, hexclude]
  have hcount : ¬ (if p.cacheCount > 0 then p.cacheCount else p.downCount + 1) ≤ 0 := by
    split <;> omega
  obtain ⟨nodes, hok, hchoice⟩ := selectKCenters_picks hgraph.closed
    (if p.cacheCount > 0 then p.cacheCount else p.downCount + 1)
    (excluded publishers excludePublishers)
  exact ⟨nodes, hok, (hchoice.inside_iff hgraph).mpr fun h => absurd h hcount⟩

end Selecting

/-! ## Options -/

section Options

variable [IntCast τ] [DecidableEq τ] [LT τ] [DecidableLT τ]

theorem intArg_of_checked {config : Mapping τ} (hflat : flatKeyErrors config = []) (key : String)
    (minimum default : ℤ) (hspec : ∃ spec ∈ flatSpecs, spec.key = key ∧ spec.kind = .int ∧
      spec.nullable = false ∧ spec.minimum = some minimum) (hdefault : minimum ≤ default) :
    ∃ n, intArg config key default = some n ∧ minimum ≤ n := by
  by_cases hkey : (config.get? key).isSome
  · obtain ⟨n, hn, hmin⟩ := int_of_flatKeyErrors hflat key (some minimum) hspec hkey
    exact ⟨n, by rw [intArg, hn], hmin minimum rfl⟩
  · rw [Option.not_isSome_iff_eq_none] at hkey
    exact ⟨default, by rw [intArg, hkey], hdefault⟩

theorem rctArg_of_checked {config : Mapping τ} (hflat : flatKeyErrors config = []) :
    ∃ rct, rctArg config = some rct := by
  obtain ⟨spec, hspec, hkey, hkind⟩ :
      ∃ spec ∈ flatSpecs, spec.key = "cache_default_rct_ms" ∧ spec.kind = .int := by decide
  rw [rctArg]
  cases hv : config.get? "cache_default_rct_ms" with
  | none => exact ⟨none, rfl⟩
  | some v =>
    rcases flatValue_of_flatKeyErrors hflat hspec (hkey ▸ hv) with ⟨-, hnull⟩ | hok
    · cases v with
      | null => exact ⟨none, rfl⟩
      | _ => cases hnull
    · obtain ⟨n, rfl, -⟩ := int_of_flatValueOk hkind hok
      exact ⟨some n, rfl⟩

/-- The options an accepted configuration is read with. -/
structure PlacedAs (hosts : ℤ) (graph : Graph ℤ) (exclude : List ℤ)
    (manager : Option (CacheConfigManager τ)) (p : CachePlacement τ) : Prop where
  hosts : p.hostCount = hosts
  graph : p.graph = graph
  exclude : p.exclude = exclude
  down : 0 ≤ p.downCount
  manager : p.manager = manager

theorem placementOf?_of_checked {config : Mapping τ} (hflat : flatKeyErrors config = [])
    (hhosts : config.get? "hosts" = some (.int hosts)) {cacheConfig : Option (Mapping τ)}
    (hconfig : cacheConfigArg config = some cacheConfig) {graph : Graph ℤ}
    {manager : Option (CacheConfigManager τ)}
    (hmanager : CachePlacement.manager? cacheConfig hosts graph publishers = some manager) :
    ∃ p, placementOf? config graph publishers excludePublishers = some p ∧
      PlacedAs hosts graph (excluded publishers excludePublishers) manager p := by
  have hhostArg : intArg config "hosts" 5 = some hosts := by rw [intArg, hhosts]
  obtain ⟨cacheCount, hcount, -⟩ := intArg_of_checked hflat "cache_count" 0 0 (by decide) (by decide)
  obtain ⟨downCount, hdown, hdownpos⟩ :=
    intArg_of_checked hflat "down_count" 0 5 (by decide) (by decide)
  obtain ⟨rct, hrct⟩ := rctArg_of_checked hflat
  refine ⟨⟨hosts, graph, publishers, cacheCount, downCount, excluded publishers excludePublishers,
    rct, manager⟩, ?_, rfl, rfl, rfl, hdownpos, rfl⟩
  simp only [placementOf?, hhostArg, hcount, hdown, hrct, hconfig, CachePlacement.new?, hmanager,
    Option.bind_eq_bind, Option.bind_some, Option.map_some]
  rfl

end Options

/-! ## The result -/

section Result

variable [IntCast τ] [DecidableEq τ] [LT τ] [DecidableLT τ] [LE τ] [DecidableLE τ] [FloatFacts τ]

/-- A configuration that asks for nothing, or for a selection that stays inside. -/
def ConfigStaysInside (hosts : ℤ) (exclude : List ℤ) (config : Mapping τ) : Prop :=
  ∀ cc, config.get? "cache_config" = some (.dict cc) → cc ≠ [] → StaysInside hosts exclude cc

/-- **When cache placement stays inside the network.** For every configuration that
    `validate_config` has nothing against and that says how many hosts there are, with one of the
    three selections or none, for every graph on those hosts, all publishers, and with or without
    their exclusion: the options can be read, and what `decide` returns are some hosts, all
    different, without a publisher if publishers are excluded and there is another host, exactly
    when

    * under `manual` every id that is not excluded is a host, and
    * if nothing is left to select (no count, or only ids that are excluded) the last host is not
      excluded, or every host is. -/
theorem placement_inside_iff {ip : IpTexts} {config : Mapping τ} {graph : Graph ℤ}
    (hok : validateConfig ip config = .ok []) (hhosts : config.get? "hosts" = some (.int hosts))
    (hstrategy : ∀ cc, config.get? "cache_config" = some (.dict cc) →
      CacheConfigManager.strategy? cc ≠ some "random")
    (hgraph : HostGraphOn hosts graph) (publishers : List ℤ) (excludePublishers : Bool) :
    ∃ p, placementOf? config graph publishers excludePublishers = some p ∧
      ((∃ nodes, p.decide = .ok nodes ∧ Inside hosts publishers excludePublishers nodes) ↔
        ConfigStaysInside hosts (excluded publishers excludePublishers) config) := by
  obtain ⟨hpasses, hcache, -⟩ := clean_of_validate hok
  have hflat := hpasses.flat
  have hthree : 3 ≤ hosts := by
    obtain ⟨n, hn, hmin⟩ := int_of_flatKeyErrors hflat "hosts" (some 3) (by decide) (by simp [hhosts])
    rw [hhosts, Option.some.injEq, Value.int.injEq] at hn
    exact hn ▸ hmin 3 rfl
  -- without a `cache_config`, or with an empty one
  have hlegacy : ∀ cacheConfig, cacheConfigArg config = some cacheConfig →
      CachePlacement.manager? cacheConfig hosts graph publishers = some none →
      (∀ cc, config.get? "cache_config" = some (.dict cc) → cc = []) →
      ∃ p, placementOf? config graph publishers excludePublishers = some p ∧
        ((∃ nodes, p.decide = .ok nodes ∧ Inside hosts publishers excludePublishers nodes) ↔
          ConfigStaysInside hosts (excluded publishers excludePublishers) config) := by
    intro cacheConfig hconfig hmanager hempty
    obtain ⟨p, hp, hplaced⟩ := placementOf?_of_checked hflat hhosts hconfig hmanager
    obtain ⟨nodes, hselect, hright⟩ := legacy_inside hplaced.manager (hplaced.graph ▸ hgraph)
      hplaced.down hplaced.exclude
    refine ⟨p, hp, ?_⟩
    rw [decide_inside_iff hplaced.hosts (by omega) hselect, iff_true_intro hright, true_iff]
    exact fun cc hcc hne => absurd (hempty cc hcc) hne
  cases hv : config.get? "cache_config" with
  | none =>
    refine hlegacy none (by rw [cacheConfigArg, hv]) rfl fun cc hcc => ?_
    rw [hv] at hcc
    cases hcc
  | some v =>
    obtain ⟨cc, rfl⟩ : ∃ cc, v = .dict cc := by
      simp only [cacheConfigErrors, dictKeyErrors, hv] at hcache
      cases v with
      | dict cc => exact ⟨cc, rfl⟩
      | _ => cases hcache
    have hconfig : cacheConfigArg config = some (some cc) := by rw [cacheConfigArg, hv]
    cases cc with
    | nil =>
      refine hlegacy _ hconfig rfl fun cc hcc => ?_
      rw [hv] at hcc
      cases hcc
      rfl
    | cons e cc =>
      obtain ⟨manager, hnew, hreads⟩ := manager_of_checked hcache hv hosts graph publishers
      have hmanager : CachePlacement.manager? (some (e :: cc)) hosts graph publishers
          = some (some manager) := by
        rw [CachePlacement.manager?, hnew, Option.map_some]
        exact List.cons_ne_nil e cc
      obtain ⟨p, hp, hplaced⟩ := placementOf?_of_checked hflat hhosts hconfig hmanager
      obtain ⟨nodes, hselect, hinside⟩ := hreads.inside_iff hgraph
        fun heq => hstrategy _ hv (heq ▸ hreads.strategy)
      refine ⟨p, hp, ?_⟩
      have hselect' : p.select = .ok nodes := by
        rw [CachePlacement.select, hplaced.manager, hplaced.exclude]
        exact hselect
      rw [decide_inside_iff hplaced.hosts (by omega) hselect', hinside]
      constructor
      · intro h cc' hcc' _
        rw [hv] at hcc'
        cases hcc'
        exact h
      · exact fun h => h _ hv (List.cons_ne_nil e cc)

end Result

/-- Three hosts, each linked to the others. -/
def triangle : Graph ℤ := [(0, [1, 2]), (1, [0, 2]), (2, [0, 1])]

theorem triangle_hosts : HostGraphOn 3 triangle := by
  refine ⟨by unfold Dict.NodupKeys; decide, fun n => ?_, ?_⟩
  · simp only [triangle, List.map_cons, List.map_nil, List.mem_cons, List.not_mem_nil, or_false]
    omega
  · rintro v u ⟨nbrs, hnbrs, hu⟩
    have hmem := Dict.mem_of_get? hnbrs
    simp only [triangle, List.mem_cons, Prod.mk.injEq, List.not_mem_nil, or_false] at hmem
    rcases hmem with ⟨-, rfl⟩ | ⟨-, rfl⟩ | ⟨-, rfl⟩
    all_goals
      simp only [List.mem_cons, List.not_mem_nil, or_false] at hu
      rcases hu with rfl | rfl <;> rfl

/-- One cache, at the host with the most neighbours. -/
def degreeCache : Mapping Rat :=
  [("strategy", .str "degree_based"), ("default", .dict [("count", .int 1)])]

def degreeConfig : Mapping Rat := [("hosts", .int 3), ("cache_config", .dict degreeCache)]

theorem placement_inside_triangle : ∃ p, placementOf? degreeConfig triangle [0] true = some p ∧
    ∃ nodes, p.decide = .ok nodes ∧ Inside 3 [0] true nodes := by
  have hok : validateConfig ⟨fun _ => true, fun _ => some 16⟩ degreeConfig = .ok [] := rfl
  have hhosts : degreeConfig.get? "hosts" = some (.int 3) := rfl
  have hcc : ∀ cc, degreeConfig.get? "cache_config" = some (.dict cc) → cc = degreeCache := by
    intro cc hcc
    cases hcc
    rfl
  obtain ⟨p, hp, hiff⟩ := placement_inside_iff hok hhosts
    (fun cc h => by rw [hcc cc h]; decide) triangle_hosts [0] true
  refine ⟨p, hp, hiff.mpr fun cc h _ => ?_⟩
  rw [hcc cc h, StaysInside, if_neg (by decide)]
  exact fun hzero => absurd hzero (by decide)

/-- A cache at a host that does not exist. -/
def strayConfig : Mapping Rat :=
  [("hosts", .int 3), ("cache_config", .dict [("strategy", .str "manual"),
    ("nodes", .list [.dict [("id", .int 99)]])])]

/-- The configuration is accepted, and host 99 of a network of three becomes a cache node. -/
theorem stray_cache_node :
    (placementOf? strayConfig triangle [] true).map CachePlacement.decide = some (.ok [99]) ∧
      ¬ ∀ (ip : IpTexts) (config : Mapping Rat) (hosts : ℤ) (graph : Graph ℤ),
        validateConfig ip config = .ok [] → config.get? "hosts" = some (.int hosts) →
        (∀ cc, config.get? "cache_config" = some (.dict cc) →
          CacheConfigManager.strategy? cc ≠ some "random") → HostGraphOn hosts graph →
        ∀ (publishers : List ℤ) (excludePublishers : Bool), ∃ p nodes,
          placementOf? config graph publishers excludePublishers = some p ∧
            p.decide = .ok nodes ∧ Inside hosts publishers excludePublishers nodes := by
  have hstray : (placementOf? strayConfig triangle [] true).map CachePlacement.decide
      = some (.ok [99]) := rfl
  refine ⟨hstray, fun h => ?_⟩
  have hcc : ∀ cc, strayConfig.get? "cache_config" = some (.dict cc) →
      CacheConfigManager.strategy? cc ≠ some "random" := by
    intro cc hcc
    cases hcc
    decide
  obtain ⟨p, nodes, hp, hnodes, hinside⟩ :=
    h ⟨fun _ => true, fun _ => some 16⟩ strayConfig 3 triangle rfl rfl hcc triangle_hosts [] true
  rw [hp, Option.map_some, hnodes, Option.some.injEq, Except.ok.injEq] at hstray
  subst hstray
  have := hinside.range 99 (by simp)
  omega

end Proof
end CeforeEmu
