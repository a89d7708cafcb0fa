import CeforeEmu.Proof.AllPaths
import CeforeEmu.Proof.HostGraph
import CeforeEmu.Proof.KCenters
import CeforeEmu.Proof.MeshTree

/-!
# Casting the roles

`pick_roles` on the graph of a seed's links. A host is *shielded* when a cache node lies on every one
of its shortest paths to the publisher, and *exposed* when none lies on any. `pick_roles` finds the
first two shielded hosts that a cache node covers both of, and the first exposed one, and fails to
cast only where there are no such hosts.
-/

set_option autoImplicit false

namespace CeforeEmu
namespace Proof

open CeforeEmu.Lib CeforeEmu.Core CeforeEmu.Tools

/-! ## The graph of the links -/

theorem mem_linkPairs {hosts : List ℕ} {a b : ℕ} :
    (a, b) ∈ linkPairs hosts ↔ a ≠ b ∧ a ∈ hosts ∧ b ∈ hosts := by
  simp only [linkPairs, List.mem_flatMap, List.mem_map, List.mem_filter, decide_eq_true_eq,
    Prod.mk.injEq]
  constructor
  · rintro ⟨x, hx, y, ⟨hy, hne⟩, rfl, rfl⟩
    exact ⟨hne, hx, hy⟩
  · rintro ⟨hne, ha, hb⟩
    exact ⟨a, ha, b, ⟨hb, hne⟩, rfl, rfl⟩

/-- What the loop over the pairs builds. -/
theorem foldl_addNeighbor (pairs : List (ℕ × ℕ)) : ∀ graph : Graph ℕ, Dict.NodupKeys graph →
    (∀ v nbrs, graph.get? v = some nbrs → nbrs.Nodup) →
    Dict.NodupKeys (pairs.foldl (fun g pair => addNeighbor g pair.1 pair.2) graph) ∧
      (∀ v nbrs, Dict.get? (pairs.foldl (fun g pair => addNeighbor g pair.1 pair.2) graph) v
        = some nbrs → nbrs.Nodup) ∧
      ∀ x y, EdgeOf (pairs.foldl (fun g pair => addNeighbor g pair.1 pair.2) graph) x y ↔
        EdgeOf graph x y ∨ (x, y) ∈ pairs := by
  induction pairs with
  | nil => exact fun graph hkeys hnodup => ⟨hkeys, hnodup, fun x y => by simp⟩
  | cons pair pairs ih =>
    intro graph hkeys hnodup
    obtain ⟨hkeys', hnodup', hedge⟩ := ih (addNeighbor graph pair.1 pair.2)
      (hkeys.set pair.1 _) (nodup_addNeighbor hnodup pair.1 pair.2)
    refine ⟨hkeys', hnodup', fun x y => ?_⟩
    rw [List.foldl_cons, hedge, edgeOf_addNeighbor, or_assoc, List.mem_cons, ← Prod.mk.injEq]

/-- `topo_for` keeps the neighbours of every node, sorted. -/
theorem get?_ordered {graph : Graph ℕ} (h : Dict.NodupKeys graph) (v : ℕ) :
    (Tools.ordered graph).get? v = (graph.get? v).map sorted := by
  rw [Tools.ordered, Dict.get?_map_snd, h.get?_perm (List.perm_insertionSort _ _)]

section LinkGraph

variable (links : List (List ℕ))

theorem get?_linkGraph (v : ℕ) :
    (Tools.ordered (adjacency links)).get? v = ((adjacency links).get? v).map sorted :=
  get?_ordered (foldl_addNeighbor _ [] List.nodup_nil fun v nbrs h => by cases h).1 v

/-- Two hosts are neighbours when they are different and share a link. -/
theorem edgeOf_linkGraph {links : List (List ℕ)} {a b : ℕ} :
    EdgeOf (Tools.ordered (adjacency links)) a b ↔ a ≠ b ∧ Sharing links a b := by
  have hsorted : EdgeOf (Tools.ordered (adjacency links)) a b ↔ EdgeOf (adjacency links) a b := by
    simp only [EdgeOf, get?_linkGraph]
    cases (adjacency links).get? a with
    | none => simp
    | some nbrs => simp [mem_sorted]
  have hnone : ¬ EdgeOf ([] : Graph ℕ) a b := by
    rintro ⟨nbrs, hnbrs, -⟩
    cases hnbrs
  rw [hsorted, adjacency, (foldl_addNeighbor _ [] List.nodup_nil fun v nbrs h => by cases h).2.2,
    or_iff_right hnone, List.mem_flatMap]
  simp only [mem_linkPairs, Sharing]
  tauto

theorem edgeOf_linkGraph_eq :
    EdgeOf (Tools.ordered (adjacency links)) = fun a b => a ≠ b ∧ Sharing links a b := by
  funext a b
  exact propext edgeOf_linkGraph

theorem sortedGraph_linkGraph : SortedGraph (Tools.ordered (adjacency links)) where
  sorted v nbrs h := by
    rw [get?_linkGraph] at h
    obtain ⟨old, hold, rfl⟩ := Option.map_eq_some_iff.mp h
    exact sorted_lt
      ((foldl_addNeighbor _ [] List.nodup_nil fun v nbrs h => by cases h).2.1 v old hold)
  closed v u hvu := by
    obtain ⟨hne, hosts, hhosts, hv, hu⟩ := edgeOf_linkGraph.mp hvu
    obtain ⟨nbrs, hnbrs, -⟩ := edgeOf_linkGraph.mpr ⟨hne.symm, hosts, hhosts, hu, hv⟩
    rw [hnbrs]
    rfl

/-- **`_all_shortest_paths` lists the shortest paths over shared links**, each once, between every two
    nodes of the graph of any links, and none where there is no path. -/
theorem shortest_paths_listed (src dst : ℕ) :
    ∃ paths, allShortestPaths (Tools.ordered (adjacency links)) src dst = .ok paths ∧ paths.Nodup ∧
      ∀ p, p ∈ paths ↔ ShortestPath (fun a b => a ≠ b ∧ Sharing links a b) src dst p := by
  have hpaths := allShortestPaths_exact (sortedGraph_linkGraph links) src dst
  rw [edgeOf_linkGraph_eq] at hpaths
  exact hpaths

end LinkGraph

/-! ## What the roles are about -/

/-- A cache node lies between the ends of a path. -/
def Between (cacheNodes p : List ℕ) (c : ℕ) : Prop := c ∈ cacheNodes ∧ c ∈ p.tail.dropLast

section Casting

variable (adj : ℕ → ℕ → Prop) (cacheNodes : List ℕ)

/-- Every shortest path to the publisher, and there is one, crosses a cache node. -/
def Shielded (h : ℕ) : Prop :=
  (∃ p, ShortestPath adj h publisher p) ∧
    ∀ p, ShortestPath adj h publisher p → ∃ c, Between cacheNodes p c

/-- No shortest path to the publisher, and there is one, crosses a cache node. -/
def Exposed (h : ℕ) : Prop :=
  (∃ p, ShortestPath adj h publisher p) ∧
    ∀ p, ShortestPath adj h publisher p → ∀ c, ¬ Between cacheNodes p c

/-- A cache node that all shortest paths cross. -/
def Common (h c : ℕ) : Prop := ∀ p, ShortestPath adj h publisher p → Between cacheNodes p c

/-- The cache nodes by which a host is paired: those common to all its shortest paths, or when there
    are none, those on any. -/
def Covers (h c : ℕ) : Prop :=
  Common adj cacheNodes h c ∨ (∀ c', ¬ Common adj cacheNodes h c') ∧
    ∃ p, ShortestPath adj h publisher p ∧ Between cacheNodes p c

/-- Two shielded hosts that a cache node covers both of. -/
structure Paired (hosts : ℕ → Prop) (a b : ℕ) : Prop where
  lt : a < b
  fst : hosts a ∧ Shielded adj cacheNodes a
  snd : hosts b ∧ Shielded adj cacheNodes b
  share : ∃ c, Covers adj cacheNodes a c ∧ Covers adj cacheNodes b c

/-- The roles that some hosts play: the first pair, the first exposed host, and for the control
    another shielded host, the first, or else the newcomer again. -/
structure Cast (hosts : ℕ → Prop) (roles : Roles) : Prop where
  pair : Paired adj cacheNodes hosts roles.protagonist roles.newcomer
  first : ∀ a b, Paired adj cacheNodes hosts a b →
    roles.protagonist < a ∨ roles.protagonist = a ∧ roles.newcomer ≤ b
  control : hosts roles.control ∧ Shielded adj cacheNodes roles.control
  control_least : ∀ h, hosts h → Shielded adj cacheNodes h → h ≠ roles.protagonist →
    h ≠ roles.newcomer → roles.control ≠ roles.newcomer ∧ roles.control ≤ h
  control_ne : roles.control ≠ roles.protagonist
  unlucky : hosts roles.unlucky ∧ Exposed adj cacheNodes roles.unlucky
  unlucky_least : ∀ h, hosts h → Exposed adj cacheNodes h → roles.unlucky ≤ h

/-- The coverage of some hosts. -/
structure Surveyed (hosts : List ℕ) (cov : Coverage) : Prop where
  ordered : (cov.covered.map (·.1)).Pairwise (· < ·)
  covered : ∀ h, h ∈ cov.covered.map (·.1) ↔ h ∈ hosts ∧ Shielded adj cacheNodes h
  cover : ∀ e ∈ cov.covered, ∀ c, c ∈ e.2 ↔ Covers adj cacheNodes e.1 c
  sorted : cov.uncovered.Pairwise (· < ·)
  uncovered : ∀ h, h ∈ cov.uncovered ↔ h ∈ hosts ∧ Exposed adj cacheNodes h

end Casting

theorem mem_interiorCaches {cacheNodes p : List ℕ} {c : ℕ} :
    c ∈ interiorCaches cacheNodes p ↔ Between cacheNodes p c := by
  rw [interiorCaches, List.mem_filter, decide_eq_true_eq, Between, and_comm]

theorem interiorCaches_ne_nil {cacheNodes p : List ℕ} :
    interiorCaches cacheNodes p ≠ [] ↔ ∃ c, Between cacheNodes p c := by
  constructor
  · intro hne
    obtain ⟨c, hc⟩ := List.exists_mem_of_ne_nil _ hne
    exact ⟨c, mem_interiorCaches.mp hc⟩
  · rintro ⟨c, hc⟩
    exact List.ne_nil_of_mem (mem_interiorCaches.mpr hc)

theorem mem_coverOf {perPath : List (List ℕ)} (hne : perPath ≠ []) {c : ℕ} :
    c ∈ coverOf perPath ↔ (∀ caches ∈ perPath, c ∈ caches) ∨
      (∀ c', ¬ ∀ caches ∈ perPath, c' ∈ caches) ∧ ∃ caches ∈ perPath, c ∈ caches := by
  obtain ⟨first, rest, rfl⟩ := List.exists_cons_of_ne_nil hne
  have hcommon : ∀ {x}, (x ∈ first.filter fun v => rest.all fun caches => v ∈ caches) ↔
      ∀ caches ∈ first :: rest, x ∈ caches := by
    intro x
    simp only [List.mem_filter, List.all_eq_true, decide_eq_true_eq, List.forall_mem_cons]
  rw [coverOf]
  split
  · rename_i hnil
    rw [hnil] at hcommon
    have hnone : ∀ c', ¬ ∀ caches ∈ first :: rest, c' ∈ caches :=
      fun c' h => List.not_mem_nil (hcommon.mpr h)
    rw [List.mem_flatten, or_iff_right (hnone c), and_iff_right hnone]
  · rename_i hsome
    obtain ⟨x, hx⟩ := List.exists_mem_of_ne_nil _ hsome
    rw [hcommon, or_iff_left]
    exact fun h => h.1 x (hcommon.mp hx)

section Survey

variable {graph : Graph ℕ} {cacheNodes : List ℕ}

/-- The paths that `_all_shortest_paths` lists, through the caches on each. -/
theorem covers_iff {h : ℕ} {paths : List (List ℕ)} (hne : paths ≠ [])
    (hmem : ∀ p, p ∈ paths ↔ ShortestPath (EdgeOf graph) h publisher p) {c : ℕ} :
    c ∈ coverOf (paths.map (interiorCaches cacheNodes)) ↔ Covers (EdgeOf graph) cacheNodes h c := by
  have hcommon : ∀ {x}, (∀ caches ∈ paths.map (interiorCaches cacheNodes), x ∈ caches) ↔
      Common (EdgeOf graph) cacheNodes h x := by
    intro x
    simp only [List.forall_mem_map, mem_interiorCaches, hmem, Common]
  have hany : (∃ caches ∈ paths.map (interiorCaches cacheNodes), c ∈ caches) ↔
      ∃ p, ShortestPath (EdgeOf graph) h publisher p ∧ Between cacheNodes p c := by
    simp only [List.mem_map, exists_exists_and_eq_and, mem_interiorCaches, hmem]
  rw [mem_coverOf (by simpa using hne), hany, Covers]
  simp only [hcommon]

/-- The turn of a host that is neither shielded nor exposed. -/
theorem Surveyed.skip {hosts : List ℕ} {cov : Coverage} {h : ℕ}
    (hcov : Surveyed (EdgeOf graph) cacheNodes hosts cov) (hg : ¬ Shielded (EdgeOf graph) cacheNodes h)
    (he : ¬ Exposed (EdgeOf graph) cacheNodes h) :
    Surveyed (EdgeOf graph) cacheNodes (hosts ++ [h]) cov where
  ordered := hcov.ordered
  covered x := by
    rw [hcov.covered, List.mem_append, List.mem_singleton]
    refine and_congr_left fun hx => (or_iff_left ?_).symm
    rintro rfl
    exact hg hx
  cover := hcov.cover
  sorted := hcov.sorted
  uncovered x := by
    rw [hcov.uncovered, List.mem_append, List.mem_singleton]
    refine and_congr_left fun hx => (or_iff_left ?_).symm
    rintro rfl
    exact he hx

theorem not_exposed_of_shielded {h : ℕ} (hg : Shielded (EdgeOf graph) cacheNodes h) :
    ¬ Exposed (EdgeOf graph) cacheNodes h := by
  rintro ⟨⟨p, hp⟩, hnone⟩
  obtain ⟨c, hc⟩ := hg.2 p hp
  exact hnone p hp c hc

/-- The turn of a shielded host, after those below it. -/
theorem Surveyed.shield {hosts : List ℕ} {cov : Coverage} {h : ℕ} {cs : List ℕ}
    (hcov : Surveyed (EdgeOf graph) cacheNodes hosts cov) (hlt : ∀ x ∈ hosts, x < h)
    (hg : Shielded (EdgeOf graph) cacheNodes h) (hcs : ∀ c, c ∈ cs ↔ Covers (EdgeOf graph) cacheNodes h c) :
    Surveyed (EdgeOf graph) cacheNodes (hosts ++ [h])
      { cov with covered := cov.covered.set h cs } := by
  have hbelow : ∀ x ∈ cov.covered.map (·.1), x < h := fun x hx => hlt x ((hcov.covered x).mp hx).1
  have hset : cov.covered.set h cs = cov.covered ++ [(h, cs)] := by
    refine Dict.set_of_not_mem cs fun e he => ?_
    exact (hbelow e.1 (List.mem_map_of_mem he)).ne
  rw [hset]
  refine ⟨?_, fun x => ?_, fun e he => ?_, hcov.sorted, fun x => ?_⟩
  · rw [List.map_append, List.pairwise_append]
    refine ⟨hcov.ordered, List.pairwise_singleton _ _, fun x hx y hy => ?_⟩
    rw [List.map_singleton, List.mem_singleton] at hy
    exact hy ▸ hbelow x hx
  · rw [List.map_append, List.mem_append, hcov.covered, List.map_singleton, List.mem_singleton,
      List.mem_append, List.mem_singleton, or_and_right]
    refine or_congr_right ⟨fun hx => ⟨hx, hx ▸ hg⟩, fun hx => hx.1⟩
  · rcases List.mem_append.mp he with he | he
    · exact hcov.cover e he
    · rw [List.mem_singleton.mp he]
      exact hcs
  · rw [hcov.uncovered, List.mem_append, List.mem_singleton]
    refine and_congr_left fun hx => (or_iff_left ?_).symm
    rintro rfl
    exact not_exposed_of_shielded hg hx

/-- The turn of an exposed host, after those below it. -/
theorem Surveyed.expose {hosts : List ℕ} {cov : Coverage} {h : ℕ}
    (hcov : Surveyed (EdgeOf graph) cacheNodes hosts cov) (hlt : ∀ x ∈ hosts, x < h)
    (he : Exposed (EdgeOf graph) cacheNodes h) :
    Surveyed (EdgeOf graph) cacheNodes (hosts ++ [h])
      { cov with uncovered := cov.uncovered ++ [h] } where
  ordered := hcov.ordered
  covered x := by
    rw [hcov.covered, List.mem_append, List.mem_singleton]
    refine and_congr_left fun hx => (or_iff_left ?_).symm
    rintro rfl
    exact not_exposed_of_shielded hx he
  cover := hcov.cover
  sorted := by
    rw [List.pairwise_append]
    refine ⟨hcov.sorted, List.pairwise_singleton _ _, fun x hx y hy => ?_⟩
    rw [List.mem_singleton.mp hy]
    exact hlt x ((hcov.uncovered x).mp hx).1
  uncovered x := by
    rw [List.mem_append, hcov.uncovered, List.mem_singleton, List.mem_append, List.mem_singleton,
      or_and_right]
    exact or_congr_right ⟨fun hx => ⟨hx, hx ▸ he⟩, fun hx => hx.1⟩

/-- The hosts that `pick_roles` looks at. -/
def lookedAt (cacheNodes : List ℕ) (h : ℕ) : Bool := h ∉ cacheNodes ∧ h ≠ publisher

variable (hgraph : SortedGraph graph)
include hgraph

/-- **One turn of the loop over the hosts.** -/
theorem Surveyed.step {hosts : List ℕ} {cov : Coverage} {h : ℕ}
    (hcov : Surveyed (EdgeOf graph) cacheNodes hosts cov) (hlt : ∀ x ∈ hosts, x < h) :
    ∃ cov', coverHost graph cacheNodes h cov = .ok cov' ∧
      Surveyed (EdgeOf graph) cacheNodes (hosts ++ [h].filter (lookedAt cacheNodes)) cov' := by
  by_cases hel : h ∈ cacheNodes ∨ h = publisher
  · have hfilter : [h].filter (lookedAt cacheNodes) = [] := by
      rw [List.filter_singleton, lookedAt, decide_eq_false (by tauto)]
      rfl
    refine ⟨cov, by rw [coverHost, if_pos hel], ?_⟩
    rw [hfilter, List.append_nil]
    exact hcov
  · have hfilter : [h].filter (lookedAt cacheNodes) = [h] := by
      rw [List.filter_singleton, lookedAt, decide_eq_true (not_or.mp hel)]
      rfl
    rw [hfilter, coverHost, if_neg hel]
    obtain ⟨paths, hpaths, -, hmem⟩ := allShortestPaths_exact hgraph h publisher
    rw [hpaths]
    cases paths with
    | nil =>
      have hnone : ¬ ∃ p, ShortestPath (EdgeOf graph) h publisher p :=
        fun hp => List.not_mem_nil ((hmem hp.choose).mpr hp.choose_spec)
      exact ⟨cov, rfl, hcov.skip (fun hg => hnone hg.1) fun he => hnone he.1⟩
    | cons first rest =>
      have hexists : ∃ p, ShortestPath (EdgeOf graph) h publisher p :=
        ⟨first, (hmem first).mp List.mem_cons_self⟩
      have hcs : ∀ c, c ∈ coverOf ((first :: rest).map (interiorCaches cacheNodes)) ↔
          Covers (EdgeOf graph) cacheNodes h c := fun c => covers_iff (List.cons_ne_nil first rest) hmem
      dsimp only
      generalize first :: rest = paths at hmem hcs ⊢
      have hall : ((paths.map (interiorCaches cacheNodes)).all fun caches => caches ≠ []) = true ↔
          Shielded (EdgeOf graph) cacheNodes h := by
        simp only [List.all_map, List.all_eq_true, Function.comp_apply, decide_eq_true_eq,
          interiorCaches_ne_nil, hmem, Shielded, and_iff_right hexists]
      have hany : ((paths.map (interiorCaches cacheNodes)).any fun caches => caches ≠ []) = true ↔
          ¬ Exposed (EdgeOf graph) cacheNodes h := by
        simp only [List.any_map, List.any_eq_true, Function.comp_apply, decide_eq_true_eq,
          interiorCaches_ne_nil, hmem, Exposed, and_iff_right hexists]
        push Not
        rfl
      split
      · rename_i hg
        exact ⟨_, rfl, hcov.shield hlt (hall.mp hg) hcs⟩
      · rename_i hg
        split
        · rename_i hne
          exact ⟨_, rfl, hcov.skip (fun hg' => hg (hall.mpr hg')) (hany.mp hne)⟩
        · rename_i he
          exact ⟨_, rfl, hcov.expose hlt (not_not.mp fun he' => he (hany.mpr he'))⟩

/-- The loop over the hosts, which go up. -/
theorem coverHosts_spec : ∀ (hs : List ℕ) {hosts : List ℕ} {cov : Coverage},
    Surveyed (EdgeOf graph) cacheNodes hosts cov → hs.Pairwise (· < ·) →
    (∀ x ∈ hosts, ∀ h ∈ hs, x < h) →
    ∃ cov', coverHosts graph cacheNodes hs cov = .ok cov' ∧
      Surveyed (EdgeOf graph) cacheNodes (hosts ++ hs.filter (lookedAt cacheNodes)) cov'
  | [], hosts, cov, hcov, _, _ => ⟨cov, rfl, by simpa using hcov⟩
  | h :: hs, hosts, cov, hcov, hsorted, hlt => by
    obtain ⟨hfirst, hrest⟩ := List.pairwise_cons.mp hsorted
    obtain ⟨cov₁, hstep, hcov₁⟩ := hcov.step hgraph fun x hx => hlt x hx h List.mem_cons_self
    obtain ⟨cov', hloop, hcov'⟩ := coverHosts_spec hs hcov₁ hrest fun x hx y hy => by
      rcases List.mem_append.mp hx with hx | hx
      · exact hlt x hx y (List.mem_cons_of_mem _ hy)
      · exact List.mem_singleton.mp (List.mem_of_mem_filter hx) ▸ hfirst y hy
    refine ⟨cov', by rw [coverHosts, hstep]; exact hloop, ?_⟩
    rw [List.append_assoc, ← List.filter_append, List.singleton_append] at hcov'
    exact hcov'

end Survey

/-! ## The casting -/

/-- The head of a list in order stands before the others. -/
theorem eq_or_rel_head {α : Type} {r : α → α → Prop} {x y : α} {xs : List α}
    (hxs : (x :: xs).Pairwise r) (hy : y ∈ x :: xs) : y = x ∨ r x y := by
  rcases List.mem_cons.mp hy with heq | hy
  · exact .inl heq
  · exact .inr ((List.pairwise_cons.mp hxs).1 y hy)

theorem head_least {x : ℕ} {xs : List ℕ} (hxs : (x :: xs).Pairwise (· < ·)) :
    ∀ y ∈ x :: xs, x ≤ y := by
  intro y hy
  rcases eq_or_rel_head hxs hy with heq | hlt
  · exact heq.ge
  · exact hlt.le

/-- What `pick_roles` takes from a pool that goes up, or its default. -/
theorem headD_least {pool : List ℕ} (hpool : pool.Pairwise (· < ·)) (d : ℕ) :
    pool = [] ∧ pool.headD d = d ∨ pool.headD d ∈ pool ∧ ∀ h ∈ pool, pool.headD d ≤ h := by
  cases pool with
  | nil => exact .inl ⟨rfl, rfl⟩
  | cons h pool => exact .inr ⟨List.mem_cons_self, head_least hpool⟩

section Roles

variable {adj : ℕ → ℕ → Prop} {cacheNodes hosts : List ℕ} {cov : Coverage}
  (hcov : Surveyed adj cacheNodes hosts cov)
include hcov

theorem mem_coveredPairs {a b : ℕ} :
    (a, b) ∈ coveredPairs cov.covered ↔ Paired adj cacheNodes (· ∈ hosts) a b := by
  simp only [coveredPairs, List.mem_flatMap, List.mem_map, List.mem_filter, decide_eq_true_eq,
    List.any_eq_true, Prod.mk.injEq]
  constructor
  · rintro ⟨x, hx, y, ⟨hy, hlt, c, hcx, hcy⟩, rfl, rfl⟩
    exact ⟨hlt, (hcov.covered x.1).mp (List.mem_map_of_mem hx),
      (hcov.covered y.1).mp (List.mem_map_of_mem hy),
      c, (hcov.cover x hx c).mp hcx, (hcov.cover y hy c).mp hcy⟩
  · rintro ⟨hlt, ha, hb, c, hca, hcb⟩
    obtain ⟨x, hx, rfl⟩ := List.mem_map.mp ((hcov.covered a).mpr ha)
    obtain ⟨y, hy, rfl⟩ := List.mem_map.mp ((hcov.covered b).mpr hb)
    exact ⟨x, hx, y, ⟨hy, hlt, c, (hcov.cover x hx c).mpr hca, (hcov.cover y hy c).mpr hcb⟩, rfl, rfl⟩

/-- The pairs come in the order of their first hosts, and then of their second. -/
theorem coveredPairs_ordered : (coveredPairs cov.covered).Pairwise
    fun x y => x.1 < y.1 ∨ x.1 = y.1 ∧ x.2 < y.2 := by
  have hkeys := List.pairwise_map.mp hcov.ordered
  rw [coveredPairs, List.pairwise_flatMap]
  refine ⟨fun x _ => ?_, hkeys.imp fun {x y} hxy p hp q hq => ?_⟩
  · exact List.pairwise_map.mpr ((hkeys.filter _).imp fun h => .inr ⟨rfl, h⟩)
  · obtain ⟨x', -, rfl⟩ := List.mem_map.mp hp
    obtain ⟨y', -, rfl⟩ := List.mem_map.mp hq
    exact .inl hxy

/-- **The roles**, when there is a pair and an exposed host. -/
theorem castRoles_spec :
    match castRoles cov with
    | none => (∀ a b, ¬ Paired adj cacheNodes (· ∈ hosts) a b) ∨ ∀ h ∈ hosts, ¬ Exposed adj cacheNodes h
    | some roles => Cast adj cacheNodes (· ∈ hosts) roles := by
  rw [castRoles]
  cases hpairs : coveredPairs cov.covered with
  | nil =>
    refine .inl fun a b hab => ?_
    have := (mem_coveredPairs hcov).mpr hab
    rw [hpairs] at this
    cases this
  | cons pair pairs =>
    cases hun : cov.uncovered with
    | nil =>
      refine .inr fun h hh he => ?_
      have := (hcov.uncovered h).mpr ⟨hh, he⟩
      rw [hun] at this
      cases this
    | cons unlucky others =>
      obtain ⟨protagonist, newcomer⟩ := pair
      have hpair := (mem_coveredPairs hcov).mp (hpairs ▸ List.mem_cons_self)
      have hmem : ∀ {h}, (h ∈ (cov.covered.map (·.1)).filter fun h => h ≠ protagonist ∧ h ≠ newcomer) ↔
          (h ∈ hosts ∧ Shielded adj cacheNodes h) ∧ h ≠ protagonist ∧ h ≠ newcomer := by
        intro h
        rw [List.mem_filter, decide_eq_true_eq, hcov.covered]
      -- with the pool empty the newcomer is its own control
      have hcontrol := headD_least (hcov.ordered.filter fun h => h ≠ protagonist ∧ h ≠ newcomer) newcomer
      dsimp only
      generalize ((cov.covered.map (·.1)).filter fun h => h ≠ protagonist ∧ h ≠ newcomer) = pool
        at hmem hcontrol ⊢
      generalize pool.headD newcomer = control at hcontrol ⊢
      refine
        { pair := hpair
          first := fun a b hab => ?_
          control := ?_
          control_least := fun h hh hg hp hn => ?_
          control_ne := ?_
          unlucky := (hcov.uncovered unlucky).mp (hun ▸ List.mem_cons_self)
          unlucky_least := fun h hh he => ?_ }
      · have hin := (mem_coveredPairs hcov).mpr hab
        rw [hpairs] at hin
        rcases eq_or_rel_head (hpairs ▸ coveredPairs_ordered hcov) hin with heq | hlt | ⟨heq, hlt⟩
        · cases heq
          exact .inr ⟨rfl, le_refl _⟩
        · exact .inl hlt
        · exact .inr ⟨heq, hlt.le⟩
      · rcases hcontrol with ⟨-, rfl⟩ | ⟨hin, -⟩
        · exact hpair.snd
        · exact (hmem.mp hin).1
      · have hh := hmem.mpr ⟨⟨hh, hg⟩, hp, hn⟩
        rcases hcontrol with ⟨hnil, -⟩ | ⟨hin, hleast⟩
        · exact absurd (hnil ▸ hh) List.not_mem_nil
        · exact ⟨(hmem.mp hin).2.2, hleast h hh⟩
      · rcases hcontrol with ⟨-, rfl⟩ | ⟨hin, -⟩
        · exact hpair.lt.ne'
        · exact (hmem.mp hin).2.1
      · have hin := (hcov.uncovered h).mpr ⟨hh, he⟩
        rw [hun] at hin
        exact head_least (hun ▸ hcov.sorted) h hin

end Roles

theorem mem_candidates {cacheNodes : List ℕ} {hostCount h : ℕ} :
    h ∈ ((List.range hostCount).drop 1).filter (lookedAt cacheNodes) ↔
      0 < h ∧ h < hostCount ∧ h ∉ cacheNodes := by
  have hdrop : h ∈ (List.range hostCount).drop 1 ↔ 0 < h ∧ h < hostCount := by
    rw [List.mem_drop_iff_getElem]
    simp only [List.getElem_range, List.length_range]
    constructor
    · rintro ⟨i, hi, rfl⟩
      omega
    · rintro ⟨hpos, hlt⟩
      exact ⟨h - 1, by omega, by omega⟩
  rw [List.mem_filter, hdrop, lookedAt, decide_eq_true_eq, publisher, and_assoc]
  refine and_congr_right fun hpos => and_congr_right fun _ => and_iff_left hpos.ne'

/-- `pick_roles` on the graph of some links, with any cache nodes. -/
theorem pickRoles_spec (links : List (List ℕ)) (cacheNodes : List ℕ) (hostCount : ℕ) :
    ∃ cast, pickRoles (Tools.ordered (adjacency links)) cacheNodes hostCount = .ok cast ∧
      match cast with
      | none =>
          (∀ a b, ¬ Paired (EdgeOf (Tools.ordered (adjacency links))) cacheNodes
            (fun h => 0 < h ∧ h < hostCount ∧ h ∉ cacheNodes) a b) ∨
          ∀ h, 0 < h ∧ h < hostCount ∧ h ∉ cacheNodes →
            ¬ Exposed (EdgeOf (Tools.ordered (adjacency links))) cacheNodes h
      | some roles => Cast (EdgeOf (Tools.ordered (adjacency links))) cacheNodes
          (fun h => 0 < h ∧ h < hostCount ∧ h ∉ cacheNodes) roles := by
  have hstart : Surveyed (EdgeOf (Tools.ordered (adjacency links))) cacheNodes [] ⟨[], []⟩ :=
    ⟨.nil, fun h => by simp, fun e he => (by cases he), .nil, fun h => by simp⟩
  have hsorted : ((List.range hostCount).drop 1).Pairwise (· < ·) :=
    List.pairwise_lt_range.sublist (List.drop_sublist 1 _)
  obtain ⟨cov, hloop, hcov⟩ := coverHosts_spec (sortedGraph_linkGraph links) _ hstart hsorted
    fun x hx => by cases hx
  refine ⟨castRoles cov, by simp only [pickRoles, hloop], ?_⟩
  have hspec := castRoles_spec hcov
  simpa only [List.nil_append, mem_candidates] using hspec

/-- `topo_for` finds cache nodes, the publisher not among them, whatever the links. -/
theorem topoFor_spec (links : List (List ℕ)) :
    ∃ cacheNodes, topoFor links = .ok (Tools.ordered (adjacency links), cacheNodes) ∧
      cacheNodes.Pairwise (· < ·) ∧ publisher ∉ cacheNodes := by
  have hw : ∀ a b, EdgeOf (Tools.ordered (adjacency links)) a b →
      0 ≤ stepCost (none : Option (ℕ → ℕ → ℕ)) a b := fun _ _ _ => Nat.zero_le _
  obtain ⟨centers, hok, hnodup, hsub, -⟩ :=
    selectKCenters_returns hw (sortedGraph_linkGraph links).closed cacheCount [publisher]
  refine ⟨sorted centers, by simp only [topoFor, hok], sorted_lt hnodup, fun hin => ?_⟩
  have hmem := hsub publisher (mem_sorted.mp hin)
  rw [eligibleNodes, List.mem_filter, decide_eq_true_iff] at hmem
  exact hmem.2 List.mem_cons_self

/-- **Casting the roles of a seed.** For any links and any number of hosts the cache nodes are found
    and casting does not fail. It gives `None` exactly where no two shielded hosts are covered by one
    cache node or no host is exposed; otherwise it casts the first such pair and the first exposed
    host. -/
theorem seed_roles_cast (links : List (List ℕ)) (hostCount : ℕ) :
    ∃ cacheNodes cast, topoFor links = .ok (Tools.ordered (adjacency links), cacheNodes) ∧
      cacheNodes.Pairwise (· < ·) ∧ publisher ∉ cacheNodes ∧
      pickRoles (Tools.ordered (adjacency links)) cacheNodes hostCount = .ok cast ∧
      (cast = none ↔
        (∀ a b, ¬ Paired (fun a b => a ≠ b ∧ Sharing links a b) cacheNodes
          (fun h => 0 < h ∧ h < hostCount ∧ h ∉ cacheNodes) a b) ∨
        ∀ h, 0 < h ∧ h < hostCount ∧ h ∉ cacheNodes →
          ¬ Exposed (fun a b => a ≠ b ∧ Sharing links a b) cacheNodes h) ∧
      ∀ roles, cast = some roles → Cast (fun a b => a ≠ b ∧ Sharing links a b) cacheNodes
        (fun h => 0 < h ∧ h < hostCount ∧ h ∉ cacheNodes) roles := by
  obtain ⟨cacheNodes, htopo, hsorted, hpub⟩ := topoFor_spec links
  obtain ⟨cast, hpick, hcast⟩ := pickRoles_spec links cacheNodes hostCount
  rw [edgeOf_linkGraph_eq] at hcast
  refine ⟨cacheNodes, cast, htopo, hsorted, hpub, hpick, ?_, ?_⟩
  · cases cast with
    | none => exact iff_of_true rfl hcast
    | some roles =>
      refine iff_of_false (by simp) ?_
      rintro (hpair | hexposed)
      · exact hpair _ _ hcast.pair
      · exact hexposed _ hcast.unlucky.1 hcast.unlucky.2
  · rintro roles rfl
    exact hcast

end Proof
end CeforeEmu
