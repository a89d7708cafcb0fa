import Mathlib.Combinatorics.SimpleGraph.Metric
import Mathlib.Tactic
import CeforeEmu.Core.Fib
import CeforeEmu.Lib.Ends
import CeforeEmu.Proof.Dijkstra

/-!
# The host graph

The host graph of a topology as a graph: two hosts are neighbours when they share a switch. What
`build_graph_and_subnets` and the distances of every host tabulate is this graph, the addresses of
its edges and its distance (`fibTables_spec`, `leastCost_iff`), for every topology that is well
formed.
-/

set_option autoImplicit false

namespace CeforeEmu
namespace Proof

open CeforeEmu.Lib CeforeEmu.Core

/-! ## The host graph -/

/-- Two hosts are neighbours when they share a switch. -/
def hostGraph (meshLinks : List RawLink) : SimpleGraph ℕ where
  Adj a b := a ≠ b ∧ ∃ raw ∈ meshLinks, a ∈ raw.hosts ∧ b ∈ raw.hosts
  symm := ⟨fun _ _ h => ⟨h.1.symm, h.2.imp fun _ hraw => ⟨hraw.1, hraw.2.2, hraw.2.1⟩⟩⟩
  loopless := ⟨fun _ h => h.1 rfl⟩

/-- A well-formed topology: every link has hosts, all different, and a subnet that `host_ip`
    admits. -/
def WellFormedMesh (meshLinks : List RawLink) : Prop :=
  ∀ raw ∈ meshLinks, raw.hosts ≠ [] ∧ raw.hosts.Nodup ∧
    ∃ subnet, raw.subnet = some subnet ∧ 0 ≤ subnet ∧ subnet ≤ 255

/-- The one way computing routes fails: `host_ip` has no fourth octet for the host. -/
def NoOctet (hostNum : ℕ) (err : PyErr) : Prop := 254 < hostNum ∧ ∃ msg, err = .valueError msg

theorem hostIp_ends {scheme : AddressingScheme} {subnet : ℤ} (hs : 0 ≤ subnet ∧ subnet ≤ 255)
    {host hostNum : ℕ} (hh : host < hostNum) :
    Ends (NoOctet hostNum) (fun _ => True) (scheme.hostIp subnet host) := by
  rw [AddressingScheme.hostIp, if_neg (not_not.mpr hs)]
  by_cases hoctet : host + 1 ≤ 254
  · rw [if_neg (not_not.mpr hoctet)]
    trivial
  · rw [if_pos hoctet]
    exact ⟨by omega, _, rfl⟩

theorem mem_hostPairs {hosts : List ℕ} (hs : hosts.Pairwise (· < ·)) {a b : ℕ} :
    (a, b) ∈ hostPairs hosts ↔ a < b ∧ a ∈ hosts ∧ b ∈ hosts := by
  induction hosts with
  | nil => simp [hostPairs]
  | cons x rest ih =>
    obtain ⟨hmin, hrest⟩ := List.pairwise_cons.mp hs
    rw [hostPairs, List.mem_append, ih hrest, List.mem_map]
    constructor
    · rintro (⟨y, hy, heq⟩ | ⟨hlt, ha, hb⟩)
      · cases heq
        exact ⟨hmin b hy, List.mem_cons_self, List.mem_cons_of_mem _ hy⟩
      · exact ⟨hlt, List.mem_cons_of_mem _ ha, List.mem_cons_of_mem _ hb⟩
    · rintro ⟨hlt, ha, hb⟩
      rcases List.mem_cons.mp ha with rfl | ha
      · rcases List.mem_cons.mp hb with rfl | hb
        · exact absurd hlt (lt_irrefl _)
        · exact .inl ⟨b, hb, rfl⟩
      · rcases List.mem_cons.mp hb with rfl | hb
        · exact absurd (hmin a ‹_›) (not_lt.mpr hlt.le)
        · exact .inr ⟨hlt, ha, hb⟩

/-- The edges of a well-formed topology. -/
theorem mem_edges {meshLinks : List RawLink}
    (hwf : WellFormedMesh meshLinks) {a b : ℕ} {link : Link} :
    (a, b, link) ∈ edges (topologyLinks meshLinks) ↔
      a < b ∧ ∃ raw ∈ meshLinks, normalize raw = link ∧ a ∈ raw.hosts ∧ b ∈ raw.hosts := by
  simp only [edges, topologyLinks, List.mem_flatMap, List.mem_map, Prod.mk.injEq]
  constructor
  · rintro ⟨l, ⟨raw, hraw, rfl⟩, ⟨x, y⟩, hxy, rfl, rfl, rfl⟩
    rw [normalize_hosts, mem_hostPairs (sorted_lt (hwf raw hraw).2.1)] at hxy
    exact ⟨hxy.1, raw, hraw, rfl, mem_sorted.mp hxy.2.1, mem_sorted.mp hxy.2.2⟩
  · rintro ⟨hlt, raw, hraw, rfl, ha, hb⟩
    refine ⟨_, ⟨raw, hraw, rfl⟩, (a, b), ?_, rfl, rfl, rfl⟩
    rw [normalize_hosts, mem_hostPairs (sorted_lt (hwf raw hraw).2.1)]
    exact ⟨hlt, mem_sorted.mpr ha, mem_sorted.mpr hb⟩

theorem foldl_max_spec (hosts : List ℕ) (n : ℕ) :
    n ≤ hosts.foldl (fun m h => max m (h + 1)) n ∧
      ∀ h ∈ hosts, h < hosts.foldl (fun m h => max m (h + 1)) n := by
  induction hosts generalizing n with
  | nil => exact ⟨le_refl n, fun h hh => by cases hh⟩
  | cons x rest ih =>
    obtain ⟨hle, hall⟩ := ih (max n (x + 1))
    rw [List.foldl_cons]
    refine ⟨(le_max_left _ _).trans hle, fun h hh => ?_⟩
    rcases List.mem_cons.mp hh with rfl | hh
    · exact (le_max_right n (h + 1)).trans hle
    · exact hall h hh

theorem hostCountFrom_spec {links : List Link} (hne : ∀ link ∈ links, link.hosts ≠ []) (n : ℕ) :
    ∃ m, hostCountFrom links n = .ok m ∧ n ≤ m ∧ ∀ link ∈ links, ∀ h ∈ link.hosts, h < m := by
  induction links generalizing n with
  | nil => exact ⟨n, rfl, le_refl n, fun l hl => by cases hl⟩
  | cons link links ih =>
    obtain ⟨hle, hall⟩ := foldl_max_spec link.hosts n
    obtain ⟨m, hm, hle', hrest⟩ := ih (fun l hl => hne l (List.mem_cons_of_mem _ hl))
      (link.hosts.foldl (fun m h => max m (h + 1)) n)
    refine ⟨m, ?_, hle.trans hle', fun l hl h hh => ?_⟩
    · rw [hostCountFrom, if_neg (hne link List.mem_cons_self), hm]
    · rcases List.mem_cons.mp hl with rfl | hl
      · exact (hall h hh).trans_le hle'
      · exact hrest l hl h hh

theorem foldl_max_le {hosts : List ℕ} {n bound : ℕ} (hn : n ≤ bound) (hall : ∀ h ∈ hosts, h < bound) :
    hosts.foldl (fun m h => max m (h + 1)) n ≤ bound := by
  induction hosts generalizing n with
  | nil => exact hn
  | cons x rest ih =>
    rw [List.foldl_cons]
    refine ih (max_le hn (hall x List.mem_cons_self)) fun h hh => hall h (List.mem_cons_of_mem _ hh)

theorem hostCountFrom_le {links : List Link} {n m bound : ℕ} (hn : n ≤ bound)
    (hall : ∀ link ∈ links, ∀ h ∈ link.hosts, h < bound) (h : hostCountFrom links n = .ok m) :
    m ≤ bound := by
  induction links generalizing n with
  | nil =>
    cases h
    exact hn
  | cons link links ih =>
    rw [hostCountFrom] at h
    split at h
    · cases h
    · refine ih (foldl_max_le hn (hall link List.mem_cons_self)) (fun l hl => ?_) h
      exact hall l (List.mem_cons_of_mem _ hl)

theorem hostCount_spec {links : List Link} (hne : ∀ link ∈ links, link.hosts ≠ []) {n : ℕ}
    (hn : hostCount links = .ok n) : ∀ link ∈ links, ∀ h ∈ link.hosts, h < n := by
  obtain ⟨m, hm, -, hall⟩ := hostCountFrom_spec hne 0
  cases hm.symm.trans hn
  exact hall

/-! ## Building the graph -/

theorem get?_addNeighbor (graph : Graph ℕ) (a b x : ℕ) :
    (addNeighbor graph a b).get? x = if x = a then
      some (if b ∈ (graph.get? a).getD [] then (graph.get? a).getD []
        else (graph.get? a).getD [] ++ [b])
      else graph.get? x := by
  rw [addNeighbor, Dict.get?_set]

theorem edgeOf_addNeighbor {graph : Graph ℕ} {a b x y : ℕ} :
    EdgeOf (addNeighbor graph a b) x y ↔ EdgeOf graph x y ∨ (x = a ∧ y = b) := by
  simp only [EdgeOf, get?_addNeighbor]
  by_cases hx : x = a
  · subst hx
    simp only [if_true, Option.some.injEq, exists_eq_left']
    have hold : y ∈ (graph.get? x).getD [] ↔ ∃ nbrs, graph.get? x = some nbrs ∧ y ∈ nbrs := by
      cases graph.get? x with
      | none => simp
      | some nbrs => simp
    split
    · rename_i hb
      rw [hold]
      constructor
      · exact .inl
      · rintro (h | ⟨-, rfl⟩)
        · exact h
        · exact hold.mp hb
    · rw [List.mem_append, hold, List.mem_singleton, true_and]
  · simp [hx]

theorem isSome_addNeighbor {graph : Graph ℕ} {a b x : ℕ} :
    ((addNeighbor graph a b).get? x).isSome ↔ (graph.get? x).isSome ∨ x = a := by
  rw [get?_addNeighbor]
  by_cases hx : x = a <;> simp [hx]

/-- What the loop over the edges builds. -/
theorem foldl_addLink (es : List (ℕ × ℕ × Link)) :
    ∀ (acc : Graph ℕ × Dict (ℕ × ℕ) (Option ℤ)),
      (∀ x y, EdgeOf (es.foldl addLink acc).1 x y ↔ EdgeOf acc.1 x y ∨
        ∃ e ∈ es, (x = e.1 ∧ y = e.2.1) ∨ (x = e.2.1 ∧ y = e.1)) ∧
      (∀ x, ((es.foldl addLink acc).1.get? x).isSome ↔ (acc.1.get? x).isSome ∨
        ∃ e ∈ es, x = e.1 ∨ x = e.2.1) ∧
      (∀ key, (∃ e ∈ es, (e.1, e.2.1) = key ∧
          (es.foldl addLink acc).2.get? key = some e.2.2.subnet) ∨
        (∀ e ∈ es, (e.1, e.2.1) ≠ key) ∧ (es.foldl addLink acc).2.get? key = acc.2.get? key) := by
  induction es with
  | nil =>
    intro acc
    refine ⟨fun x y => by simp, fun x => by simp, fun key => .inr ⟨fun e he => ?_, rfl⟩⟩
    cases he
  | cons e es ih =>
    intro acc
    obtain ⟨hedge, hnode, hsubnet⟩ := ih (addLink acc e)
    rw [List.foldl_cons]
    refine ⟨fun x y => ?_, fun x => ?_, fun key => ?_⟩
    · rw [hedge, addLink, edgeOf_addNeighbor, edgeOf_addNeighbor]
      simp only [List.exists_mem_cons_iff, or_assoc]
    · rw [hnode, addLink, isSome_addNeighbor, isSome_addNeighbor]
      simp only [List.exists_mem_cons_iff, or_assoc]
    · rcases hsubnet key with ⟨e', he', hkey, hget⟩ | ⟨hnone, hget⟩
      · exact .inl ⟨e', List.mem_cons_of_mem _ he', hkey, hget⟩
      · rw [addLink, Dict.get?_set] at hget
        by_cases hkey : key = (e.1, e.2.1)
        · rw [if_pos hkey] at hget
          exact .inl ⟨e, List.mem_cons_self, hkey.symm, hget⟩
        · rw [if_neg hkey] at hget
          refine .inr ⟨fun e' he' => ?_, hget⟩
          rcases List.mem_cons.mp he' with rfl | he'
          · exact fun h => hkey h.symm
          · exact hnone e' he'

/-- A set of neighbours has each of them once. -/
theorem nodup_addNeighbor {graph : Graph ℕ} (h : ∀ v nbrs, graph.get? v = some nbrs → nbrs.Nodup)
    (a b : ℕ) : ∀ v nbrs, (addNeighbor graph a b).get? v = some nbrs → nbrs.Nodup := by
  intro v nbrs hnbrs
  have hold : ((graph.get? a).getD []).Nodup := by
    cases hget : graph.get? a with
    | none => exact List.nodup_nil
    | some old => exact h a old hget
  rw [get?_addNeighbor] at hnbrs
  split at hnbrs
  · split at hnbrs
    · exact Option.some.inj hnbrs ▸ hold
    · rename_i hb
      rw [← Option.some.inj hnbrs]
      refine List.nodup_append.mpr ⟨hold, List.nodup_singleton b, fun x hx y hy heq => ?_⟩
      exact hb (List.mem_singleton.mp hy ▸ heq ▸ hx)
  · exact h v nbrs hnbrs

theorem nodup_foldl_addLink (es : List (ℕ × ℕ × Link)) :
    ∀ acc : Graph ℕ × Dict (ℕ × ℕ) (Option ℤ), (∀ v nbrs, acc.1.get? v = some nbrs → nbrs.Nodup) →
      ∀ v nbrs, (es.foldl addLink acc).1.get? v = some nbrs → nbrs.Nodup := by
  induction es with
  | nil => exact fun acc h => h
  | cons e es ih =>
    intro acc h
    exact ih (addLink acc e) (nodup_addNeighbor (nodup_addNeighbor h _ _) _ _)

/-- What `build_graph_and_subnets` and the distances come to for a topology. -/
structure Tabulates (scheme : AddressingScheme) (meshLinks : List RawLink) (tables : FibTables) :
    Prop where
  range : ∀ raw ∈ meshLinks, ∀ h ∈ raw.hosts, h < tables.hostNum
  edge : ∀ a b, EdgeOf tables.graph a b ↔ (hostGraph meshLinks).Adj a b
  node : ∀ v, (tables.graph.get? v).isSome ↔ v < tables.hostNum
  address : ∀ {a b}, (hostGraph meshLinks).Adj a b →
    Ends (NoOctet tables.hostNum) (fun _ => True) (nextHopIp scheme tables a b)
  distance : ∀ {v}, v < tables.hostNum → ∀ d k, (tables.allDist.getD v []).get? d = some k ↔
    LeastCost (EdgeOf tables.graph) (fun _ _ => 1) v d k

/-- A neighbour of any host is a host. -/
theorem Tabulates.adj_lt {scheme : AddressingScheme} {meshLinks : List RawLink} {tables : FibTables}
    (ht : Tabulates scheme meshLinks tables) {a b : ℕ} (hab : (hostGraph meshLinks).Adj a b) :
    b < tables.hostNum := by
  obtain ⟨-, raw, hraw, -, hb⟩ := hab
  exact ht.range raw hraw b hb

theorem get?_range (n v : ℕ) :
    (Dict.get? ((List.range n).map fun i => (i, ([] : List ℕ))) v).isSome ↔ v < n := by
  rw [Dict.get?_map_const, ← List.mem_range]
  by_cases h : v ∈ List.range n <;> simp [h]

theorem edgeOf_range (n x y : ℕ) : ¬ EdgeOf ((List.range n).map fun i => (i, ([] : List ℕ))) x y := by
  rintro ⟨nbrs, hnbrs, hy⟩
  obtain ⟨i, -, heq⟩ := List.mem_map.mp (Dict.mem_of_get? hnbrs)
  cases heq
  cases hy

section Tables

variable {meshLinks : List RawLink}

theorem WellFormedMesh.links_ne_nil (hwf : WellFormedMesh meshLinks) :
    ∀ link ∈ topologyLinks meshLinks, link.hosts ≠ [] := by
  intro link hlink
  obtain ⟨raw, hraw, rfl⟩ := List.mem_map.mp hlink
  rw [normalize_hosts]
  intro hnil
  obtain ⟨h, hh⟩ := List.exists_mem_of_ne_nil _ (hwf raw hraw).1
  have := mem_sorted.mpr hh
  rw [hnil] at this
  cases this

/-- A well-formed topology has a host count. -/
theorem WellFormedMesh.exists_hostCount (hwf : WellFormedMesh meshLinks) :
    ∃ n, hostCount (topologyLinks meshLinks) = .ok n := by
  obtain ⟨n, hn, -, -⟩ := hostCountFrom_spec hwf.links_ne_nil 0
  exact ⟨n, hn⟩

theorem WellFormedMesh.host_lt {n : ℕ} (hwf : WellFormedMesh meshLinks)
    (hn : hostCount (topologyLinks meshLinks) = .ok n) {raw : RawLink} (hraw : raw ∈ meshLinks)
    {h : ℕ} (hh : h ∈ raw.hosts) : h < n := by
  apply hostCount_spec hwf.links_ne_nil hn (normalize raw) (List.mem_map.mpr ⟨raw, hraw, rfl⟩)
  rw [normalize_hosts]
  exact mem_sorted.mpr hh

theorem buildGraphAndSubnets_spec {n : ℕ} (hwf : WellFormedMesh meshLinks)
    (hn : hostCount (topologyLinks meshLinks) = .ok n) :
    ∃ graph subnets, buildGraphAndSubnets meshLinks = .ok (n, graph, subnets) ∧
      (∀ raw ∈ meshLinks, ∀ h ∈ raw.hosts, h < n) ∧
      (∀ a b, EdgeOf graph a b ↔ (hostGraph meshLinks).Adj a b) ∧
      (∀ v, (graph.get? v).isSome ↔ v < n) ∧
      ∀ {a b}, (hostGraph meshLinks).Adj a b → ∃ raw ∈ meshLinks, a ∈ raw.hosts ∧ b ∈ raw.hosts ∧
        subnets.get? (min a b, max a b) = some raw.subnet := by
  have hrange : ∀ raw ∈ meshLinks, ∀ h ∈ raw.hosts, h < n := fun raw hraw h => hwf.host_lt hn hraw
  obtain ⟨hedge, hnode, hsubnet⟩ := foldl_addLink (edges (topologyLinks meshLinks))
    ((List.range n).map fun i => (i, []), [])
  have hbuild : buildGraphAndSubnets meshLinks = .ok (n,
      ((edges (topologyLinks meshLinks)).foldl addLink
        ((List.range n).map fun i => (i, []), [])).1,
      ((edges (topologyLinks meshLinks)).foldl addLink
        ((List.range n).map fun i => (i, []), [])).2) := by
    simp only [buildGraphAndSubnets, hn]
  refine ⟨_, _, hbuild, hrange, ?_, ?_, ?_⟩
  · intro a b
    rw [hedge]
    constructor
    · rintro (h | ⟨⟨x, y, link⟩, he, hxy⟩)
      · exact absurd h (edgeOf_range n a b)
      · obtain ⟨hlt, raw, hraw, -, hx, hy⟩ := (mem_edges hwf).mp he
        rcases hxy with ⟨rfl, rfl⟩ | ⟨rfl, rfl⟩
        · exact ⟨hlt.ne, raw, hraw, hx, hy⟩
        · exact ⟨hlt.ne', raw, hraw, hy, hx⟩
    · rintro ⟨hab, raw, hraw, ha, hb⟩
      rcases lt_or_gt_of_ne hab with hlt | hlt
      · exact .inr ⟨_, (mem_edges hwf).mpr ⟨hlt, raw, hraw, rfl, ha, hb⟩, .inl ⟨rfl, rfl⟩⟩
      · exact .inr ⟨_, (mem_edges hwf).mpr ⟨hlt, raw, hraw, rfl, hb, ha⟩, .inr ⟨rfl, rfl⟩⟩
  · intro v
    rw [hnode, get?_range]
    constructor
    · rintro (h | ⟨⟨x, y, link⟩, he, hv⟩)
      · exact h
      · obtain ⟨-, raw, hraw, -, hx, hy⟩ := (mem_edges hwf).mp he
        rcases hv with rfl | rfl
        · exact hrange raw hraw _ hx
        · exact hrange raw hraw _ hy
    · exact .inl
  · rintro a b ⟨hab, raw, hraw, ha, hb⟩
    rcases hsubnet (min a b, max a b) with ⟨⟨x, y, link⟩, he, hkey, hget⟩ | ⟨hnone, -⟩
    · obtain ⟨-, raw', hraw', rfl, hx, hy⟩ := (mem_edges hwf).mp he
      simp only [Prod.mk.injEq] at hkey
      obtain ⟨rfl, rfl⟩ := hkey
      have hboth : a ∈ raw'.hosts ∧ b ∈ raw'.hosts := by
        rcases le_total a b with hle | hle
        · rw [min_eq_left hle] at hx
          rw [max_eq_right hle] at hy
          exact ⟨hx, hy⟩
        · rw [min_eq_right hle] at hx
          rw [max_eq_left hle] at hy
          exact ⟨hy, hx⟩
      exact ⟨raw', hraw', hboth.1, hboth.2, by rw [hget, normalize_subnet]⟩
    · exfalso
      rcases lt_or_gt_of_ne hab with hlt | hlt
      · refine hnone (a, b, normalize raw) ((mem_edges hwf).mpr ⟨hlt, raw, hraw, rfl, ha, hb⟩) ?_
        rw [min_eq_left hlt.le, max_eq_right hlt.le]
      · refine hnone (b, a, normalize raw) ((mem_edges hwf).mpr ⟨hlt, raw, hraw, rfl, hb, ha⟩) ?_
        rw [min_eq_right hlt.le, max_eq_left hlt.le]

theorem distancesFrom_spec {graph : Graph ℕ} (hgraph : ClosedGraph graph) :
    ∀ (srcs : List ℕ), (∀ s ∈ srcs, (graph.get? s).isSome) →
      ∃ ds, distancesFrom graph srcs = .ok ds ∧
        List.Forall₂ (fun s (D : Dict ℕ ℕ) => ∀ d k, D.get? d = some k ↔
          LeastCost (EdgeOf graph) (fun _ _ => 1) s d k) srcs ds
  | [], _ => ⟨[], rfl, .nil⟩
  | s :: srcs, hsrcs => by
    obtain ⟨D, parents, hD, hspec⟩ := dijkstraAll_spec (w := fun _ _ => 1) (fun _ _ => Nat.zero_le 1)
      hgraph (hsrcs s List.mem_cons_self)
    obtain ⟨ds, hds, hall⟩ := distancesFrom_spec hgraph srcs
      fun s' hs' => hsrcs s' (List.mem_cons_of_mem _ hs')
    refine ⟨D :: ds, ?_, .cons hspec hall⟩
    simp only [distancesFrom, hD, hds]

theorem fibTables_spec (scheme : AddressingScheme) {n : ℕ} (hwf : WellFormedMesh meshLinks)
    (hn : hostCount (topologyLinks meshLinks) = .ok n) :
    ∃ tables, fibTables meshLinks = .ok tables ∧ tables.hostNum = n ∧
      Tabulates scheme meshLinks tables := by
  obtain ⟨graph, subnets, hbuild, hrange, hedge, hnode, hsubnet⟩ := buildGraphAndSubnets_spec hwf hn
  have hclosed : ClosedGraph graph := by
    intro v u hvu
    obtain ⟨-, raw, hraw, -, hu⟩ := (hedge v u).mp hvu
    exact (hnode u).mpr (hrange raw hraw u hu)
  obtain ⟨ds, hds, hall⟩ := distancesFrom_spec hclosed (List.range n)
    fun s hs => (hnode s).mpr (List.mem_range.mp hs)
  refine ⟨⟨n, graph, subnets, ds⟩, by simp only [fibTables, hbuild, hds], rfl, hrange,
    hedge, hnode, ?_, ?_⟩
  · intro a b hab
    obtain ⟨raw, hraw, -, hb, hget⟩ := hsubnet hab
    obtain ⟨-, -, subnet, hsub, hadmits⟩ := hwf raw hraw
    simp only [nextHopIp, hget, hsub]
    exact hostIp_ends hadmits (hrange raw hraw b hb)
  · intro v hv d k
    have hlen : ds.length = n := by rw [← hall.length_eq, List.length_range]
    have hv' : v < ds.length := hlen ▸ hv
    have hget := hall.get (i := v) (by rwa [List.length_range]) hv'
    rw [List.get_eq_getElem, List.get_eq_getElem, List.getElem_range] at hget
    rw [List.getD_eq_getElem?_getD, List.getElem?_eq_getElem hv', Option.getD_some]
    exact hget d k

/-- What the tables hold besides: each neighbour once, and the subnet of a link that two
    neighbours share. -/
theorem fibTables_links {n : ℕ} (hwf : WellFormedMesh meshLinks)
    (hn : hostCount (topologyLinks meshLinks) = .ok n) {tables : FibTables}
    (h : fibTables meshLinks = .ok tables) :
    (∀ v nbrs, tables.graph.get? v = some nbrs → nbrs.Nodup) ∧
      ∀ {a b}, (hostGraph meshLinks).Adj a b → ∃ raw ∈ meshLinks, a ∈ raw.hosts ∧ b ∈ raw.hosts ∧
        tables.linkSubnets.get? (min a b, max a b) = some raw.subnet := by
  obtain ⟨graph, subnets, hbuild, -, -, -, hsubnet⟩ := buildGraphAndSubnets_spec hwf hn
  have hgraph : ∀ v nbrs, graph.get? v = some nbrs → nbrs.Nodup := by
    simp only [buildGraphAndSubnets, hn, Except.ok.injEq, Prod.mk.injEq] at hbuild
    obtain ⟨-, rfl, -⟩ := hbuild
    refine nodup_foldl_addLink _ _ fun v nbrs hnbrs => ?_
    obtain ⟨i, -, heq⟩ := List.mem_map.mp (Dict.mem_of_get? hnbrs)
    cases heq
    exact List.nodup_nil
  simp only [fibTables, hbuild] at h
  split at h
  · cases h
  · cases h
    exact ⟨hgraph, hsubnet⟩

end Tables

/-! ## Distances -/

section Distances

variable {meshLinks : List RawLink} {graph : Graph ℕ}
  (hedge : ∀ a b, EdgeOf graph a b ↔ (hostGraph meshLinks).Adj a b)
include hedge

theorem walk_iff {s v c : ℕ} : Walk (EdgeOf graph) (fun _ _ => 1) s v c ↔
    ∃ p : (hostGraph meshLinks).Walk s v, p.length = c := by
  constructor
  · intro h
    induction h with
    | nil => exact ⟨.nil, rfl⟩
    | snoc _ hadj ih =>
      obtain ⟨p, hp⟩ := ih
      exact ⟨p.concat ((hedge _ _).mp hadj), by rw [SimpleGraph.Walk.length_concat, hp]⟩
  · rintro ⟨p, rfl⟩
    induction p with
    | nil => exact .nil
    | cons h p ih =>
      rw [SimpleGraph.Walk.length_cons, add_comm]
      exact ih.cons ((hedge _ _).mpr h)

/-- The least cost is the distance. -/
theorem leastCost_iff {s v k : ℕ} : LeastCost (EdgeOf graph) (fun _ _ => 1) s v k ↔
    (hostGraph meshLinks).Reachable s v ∧ (hostGraph meshLinks).dist s v = k := by
  constructor
  · rintro ⟨hwalk, hleast⟩
    obtain ⟨p, rfl⟩ := (walk_iff hedge).mp hwalk
    refine ⟨⟨p⟩, le_antisymm (SimpleGraph.dist_le p) ?_⟩
    obtain ⟨q, hq⟩ := SimpleGraph.Reachable.exists_walk_length_eq_dist ⟨p⟩
    exact hq ▸ hleast _ ((walk_iff hedge).mpr ⟨q, rfl⟩)
  · rintro ⟨hreach, rfl⟩
    obtain ⟨p, hp⟩ := hreach.exists_walk_length_eq_dist
    refine ⟨(walk_iff hedge).mpr ⟨p, hp⟩, fun c hc => ?_⟩
    obtain ⟨q, rfl⟩ := (walk_iff hedge).mp hc
    exact SimpleGraph.dist_le q

end Distances

end Proof
end CeforeEmu
