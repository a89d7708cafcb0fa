import CeforeEmu.Proof.NextHops

/-!
# The strategies side by side

A strategy is its visits and its choice of next hops (`computeRoutes_ends`). The three make the
same visits, in one order or another, so they differ in the choice only: the first candidate is one
of least cost, and the candidates of least cost are among all of them (`strategies_ordered`).

A visit offers routes for its own prefix. So what is returned for a prefix depends on the visits
for it, and those on the entries of the maps that name it (`prefixes_independent`).
-/

set_option autoImplicit false

namespace CeforeEmu
namespace Proof

open CeforeEmu.Lib CeforeEmu.Core

/-! ## A strategy as visits and a choice -/

def pickOf (kPaths : ℤ) : RoutingStrategy → List (ℕ × ℕ) → List ℕ
  | .dijkstra => pickBest kPaths
  | .shortestPath => pickBest 1
  | .ecmp => pickEqualCost

def visitsOf (uriPublishers prefixRoutes : Dict String ℕ) (hostNum : ℕ) :
    RoutingStrategy → List Visit
  | .ecmp => visitsEcmp hostNum uriPublishers prefixRoutes
  | _ =>
      if uriPublishers ≠ [] ∨ prefixRoutes ≠ [] then visitsForUris hostNum uriPublishers prefixRoutes
      else visitsDefault hostNum

/-- The visits every strategy makes. -/
def Visited (uriPublishers prefixRoutes : Dict String ℕ) (hostNum : ℕ) (visit : Visit) : Prop :=
  if uriPublishers ≠ [] ∨ prefixRoutes ≠ [] then FromEntries hostNum uriPublishers prefixRoutes visit
  else visit ∈ visitsDefault hostNum

theorem mem_visitsOf {uriPublishers prefixRoutes : Dict String ℕ} {hostNum : ℕ}
    (strategy : RoutingStrategy) {visit : Visit} :
    visit ∈ visitsOf uriPublishers prefixRoutes hostNum strategy ↔
      Visited uriPublishers prefixRoutes hostNum visit := by
  have hbest : visit ∈ (if uriPublishers ≠ [] ∨ prefixRoutes ≠ [] then
      visitsForUris hostNum uriPublishers prefixRoutes else visitsDefault hostNum) ↔
      Visited uriPublishers prefixRoutes hostNum visit := by
    rw [Visited]
    split
    · exact mem_visitsForUris
    · exact Iff.rfl
  cases strategy with
  | dijkstra => exact hbest
  | shortestPath => exact hbest
  | ecmp =>
    rw [visitsOf, Visited]
    by_cases hne : uriPublishers ≠ [] ∨ prefixRoutes ≠ []
    · rw [if_pos hne]
      exact mem_visitsEcmp hne
    · rw [if_neg hne]
      rw [not_or, not_not, not_not] at hne
      obtain ⟨rfl, rfl⟩ := hne
      exact mem_visitsEcmp_nil

theorem visited_lt {uriPublishers prefixRoutes : Dict String ℕ} {hostNum : ℕ} {visit : Visit}
    (hrange : ∀ entry ∈ uriPublishers, entry.2 < hostNum)
    (h : Visited uriPublishers prefixRoutes hostNum visit) : visit.src < hostNum := by
  rw [Visited] at h
  split at h
  · exact (fromEntries_range hrange h).1
  · exact (visitsDefault_range h).1

section Strategies

variable {scheme : AddressingScheme} {meshLinks : List RawLink} {hostNum : ℕ} {tables : FibTables}
  {uriPublishers prefixRoutes : Dict String ℕ} (hwf : WellFormedMesh meshLinks)
  (hn : hostCount (topologyLinks meshLinks) = .ok hostNum)
  (htables : fibTables meshLinks = .ok tables) (ht : Tabulates scheme meshLinks tables)
  (hrange : ∀ entry ∈ uriPublishers, entry.2 < tables.hostNum)
include hwf hn htables ht hrange

theorem bestRoutes_ends (k : ℤ) :
    Ends (Unaddressed (pickBest k) scheme tables
        (visitsOf uriPublishers prefixRoutes tables.hostNum .dijkstra))
      (fun routes => Collects (pickBest k) scheme tables
          (visitsOf uriPublishers prefixRoutes tables.hostNum .dijkstra) routes ∧
        (uriPublishers ≠ [] ∨ prefixRoutes ≠ [] →
          routes = ((visitsOf uriPublishers prefixRoutes tables.hostNum .dijkstra).flatMap
            (offers (pickBest k) scheme tables)).eraseDups))
      (bestRoutes meshLinks k uriPublishers scheme prefixRoutes) := by
  rw [bestRoutes, visitsOf]
  · by_cases hne : uriPublishers ≠ [] ∨ prefixRoutes ≠ []
    · rw [if_pos hne, if_pos hne]
      refine (computeFibForUris_ends htables ht k hrange prefixRoutes).mono fun routes h => ?_
      exact ⟨h.1, fun _ => h.2⟩
    · rw [if_neg hne, if_neg hne]
      refine (computeFib_ends hwf hn htables ht k).mono fun routes h => ?_
      exact ⟨h, fun hne' => absurd hne' hne⟩
  · exact fun h => by cases h

variable (prefixRoutes) in
/-- **A strategy** returns what its visits offer by its choice. -/
theorem computeRoutes_ends (kPaths : ℤ) (strategy : RoutingStrategy) :
    Ends (Unaddressed (pickOf kPaths strategy) scheme tables
        (visitsOf uriPublishers prefixRoutes tables.hostNum strategy))
      (fun routes => Collects (pickOf kPaths strategy) scheme tables
          (visitsOf uriPublishers prefixRoutes tables.hostNum strategy) routes ∧
        (uriPublishers ≠ [] ∨ prefixRoutes ≠ [] →
          routes = ((visitsOf uriPublishers prefixRoutes tables.hostNum strategy).flatMap
            (offers (pickOf kPaths strategy) scheme tables)).eraseDups))
      (strategy.computeRoutes meshLinks kPaths uriPublishers scheme prefixRoutes) := by
  cases strategy with
  | dijkstra => exact bestRoutes_ends hwf hn htables ht hrange kPaths
  | shortestPath => exact bestRoutes_ends hwf hn htables ht hrange 1
  | ecmp =>
    have hends := gathers_ends ht htables pickEqualCost_from
      (fun hostNum => visitsEcmp hostNum uriPublishers prefixRoutes) fun visit hvisit =>
        visited_lt hrange ((mem_visitsOf .ecmp).mp hvisit)
    exact hends.mono fun routes h => ⟨h.1, fun _ => h.2⟩

end Strategies

/-! ## Containment -/

section Containment

variable {scheme : AddressingScheme} {tables : FibTables} {pick pick' : List (ℕ × ℕ) → List ℕ}
  {visits visits' : List Visit} (hvisits : ∀ visit, visit ∈ visits ↔ visit ∈ visits')
  (hpick : ∀ s d, ∀ n ∈ hopsOf pick tables s d, n ∈ hopsOf pick' tables s d)
include hvisits hpick

theorem allAddressed_of_subset (h : AllAddressed pick' scheme tables visits') :
    AllAddressed pick scheme tables visits := by
  intro visit hvisit n hn
  exact h visit ((hvisits visit).mp hvisit) n (hpick _ _ n hn)

/-- A choice of fewer next hops, for the same visits, returns fewer routes. -/
theorem collects_of_subset {F : Fault → Prop} {R R' : List Route → Prop}
    {result result' : Except Fault (List Route)}
    (hends : Ends (Unaddressed pick scheme tables visits)
      (fun routes => Collects pick scheme tables visits routes ∧ R routes) result)
    (hends' : Ends F (fun routes => Collects pick' scheme tables visits' routes ∧ R' routes) result')
    {routes' : List Route} (hroutes' : result' = .ok routes') :
    ∃ routes, result = .ok routes ∧ ∀ r ∈ routes, r ∈ routes' := by
  rw [hroutes'] at hends'
  have haddr := allAddressed_of_subset hvisits hpick hends'.1.addressed
  rcases hends.elim with ⟨routes, hroutes, h, -⟩ | ⟨_, -, -, hnot⟩
  · refine ⟨routes, hroutes, fun r hr => ?_⟩
    obtain ⟨visit, hvisit, n, hn, rfl⟩ := (h.mem r).mp hr
    exact (hends'.1.mem _).mpr ⟨visit, (hvisits visit).mp hvisit, n, hpick _ _ n hn, rfl⟩
  · exact absurd haddr hnot

end Containment

theorem pickBest_one_subset (cands : List (ℕ × ℕ)) : ∀ n ∈ pickBest 1 cands, n ∈ pickEqualCost cands := by
  intro n hn
  cases cands with
  | nil => simp [pickBest, sliceTo] at hn
  | cons c cands =>
    simp only [pickBest, sliceTo, zero_le_one, if_true, Int.toNat_one, List.take_succ_cons,
      List.take_zero, List.map_cons, List.map_nil, List.mem_singleton] at hn
    subst hn
    simp [pickEqualCost]

theorem pickEqualCost_subset {cands : List (ℕ × ℕ)} {k : ℤ} (hk : (cands.length : ℤ) ≤ k) :
    ∀ n ∈ pickEqualCost cands, n ∈ pickBest k cands := by
  intro n hn
  have hall : pickBest k cands = cands.map (·.2) := by
    rw [pickBest, sliceTo, if_pos (by omega), List.take_of_length_le (by omega)]
  rw [hall]
  exact pickEqualCost_from.subset hn

/-- **The strategies are ordered.** For every well-formed topology, addressing scheme and maps of
    its hosts, also when both are empty: the single-path strategy returns routes that the
    equal-cost strategy returns too, and that one returns routes that the default strategy returns
    when it keeps as many next hops as any host has neighbours. (A next hop whose index has no
    address makes a strategy raise, and then the larger ones too; up to 254 hosts none does.) -/
theorem strategies_ordered {scheme : AddressingScheme} {meshLinks : List RawLink} {hostNum : ℕ}
    {uriPublishers prefixRoutes : Dict String ℕ} (hwf : WellFormedMesh meshLinks)
    (hn : hostCount (topologyLinks meshLinks) = .ok hostNum)
    (hrange : ∀ entry ∈ uriPublishers ++ prefixRoutes, entry.2 < hostNum) (kPaths : ℤ) :
    (∀ routes,
      RoutingStrategy.ecmp.computeRoutes meshLinks kPaths uriPublishers scheme prefixRoutes
        = .ok routes →
      ∃ single, RoutingStrategy.shortestPath.computeRoutes meshLinks kPaths uriPublishers scheme
        prefixRoutes = .ok single ∧ ∀ r ∈ single, r ∈ routes) ∧
    ((∀ s, (((hostGraph meshLinks).neighborSet s).ncard : ℤ) ≤ kPaths) → ∀ routes,
      RoutingStrategy.dijkstra.computeRoutes meshLinks kPaths uriPublishers scheme prefixRoutes
        = .ok routes →
      ∃ equal, RoutingStrategy.ecmp.computeRoutes meshLinks kPaths uriPublishers scheme
        prefixRoutes = .ok equal ∧ ∀ r ∈ equal, r ∈ routes) ∧
    (hostNum ≤ 254 → ∀ strategy : RoutingStrategy, ∃ routes,
      strategy.computeRoutes meshLinks kPaths uriPublishers scheme prefixRoutes = .ok routes) := by
  obtain ⟨tables, htables, rfl, ht⟩ := fibTables_spec scheme hwf hn
  obtain ⟨hnbrs, -⟩ := fibTables_links hwf hn htables
  have hends := fun strategy => computeRoutes_ends prefixRoutes hwf hn htables ht
    (publishers_range hrange) kPaths strategy
  have hsame : ∀ (a b : RoutingStrategy) (visit : Visit),
      visit ∈ visitsOf uriPublishers prefixRoutes tables.hostNum a ↔
        visit ∈ visitsOf uriPublishers prefixRoutes tables.hostNum b :=
    fun a b visit => (mem_visitsOf a).trans (mem_visitsOf b).symm
  refine ⟨fun routes hroutes => ?_, fun hk routes hroutes => ?_, fun hmany strategy => ?_⟩
  · refine collects_of_subset (hsame .shortestPath .ecmp) (fun s d n hn' => ?_)
      (hends .shortestPath) (hends .ecmp) hroutes
    rw [hopsOf] at hn' ⊢
    split at hn'
    · exact pickBest_one_subset _ n hn'
    · cases hn'
  · refine collects_of_subset (hsame .ecmp .dijkstra) (fun s d n hn' => ?_)
      (hends .ecmp) (hends .dijkstra) hroutes
    have hs : s < tables.hostNum := lt_of_mem_hopsOf ht hn'
    obtain ⟨cands, hcands, hsorted, hmem⟩ := candidates_sorted ht hnbrs hs d
    have hfinite : ((hostGraph meshLinks).neighborSet s).Finite :=
      (Set.finite_lt_nat tables.hostNum).subset fun m hm => ht.adj_lt hm
    have hlen : cands.length ≤ ((hostGraph meshLinks).neighborSet s).ncard := by
      rw [← List.length_map (fun c : ℕ × ℕ => c.2)]
      exact length_le_ncard hfinite (nodup_of_sorted hsorted) fun m hm => ((hmem m).mp hm).1
    rw [hopsOf, hcands] at hn' ⊢
    exact pickEqualCost_subset ((Int.ofNat_le.mpr hlen).trans (hk s)) n hn'
  · rcases (hends strategy).elim with ⟨routes, hroutes, -⟩ | ⟨_, -, ⟨hover, -⟩, -⟩
    · exact ⟨routes, hroutes⟩
    · omega

theorem strategies_ordered_tailedTriangle : ∃ equal routes,
    RoutingStrategy.ecmp.computeRoutes tailedTriangle 4 [("ccnx:/a", 0)] .default [("ccnx:/b", 3)]
        = .ok equal ∧
      RoutingStrategy.dijkstra.computeRoutes tailedTriangle 4 [("ccnx:/a", 0)] .default
        [("ccnx:/b", 3)] = .ok routes ∧ ∀ r ∈ equal, r ∈ routes := by
  obtain ⟨-, hequal, hreturns⟩ := @strategies_ordered .default tailedTriangle 4 [("ccnx:/a", 0)]
    [("ccnx:/b", 3)] tailedTriangle_wellFormed (by decide) (by decide) 4
  have hdegree : ∀ s, (((hostGraph tailedTriangle).neighborSet s).ncard : ℤ) ≤ 4 := by
    intro s
    have hsub : (hostGraph tailedTriangle).neighborSet s ⊆ ((Finset.range 4 : Finset ℕ) : Set ℕ) := by
      rintro m ⟨-, raw, hraw, -, hm⟩
      exact Finset.mem_coe.mpr (Finset.mem_range.mpr
        (tailedTriangle_wellFormed.host_lt (by decide) hraw hm))
    have hcard := Set.ncard_le_ncard hsub (Finset.finite_toSet _)
    rw [Set.ncard_coe_finset, Finset.card_range] at hcard
    omega
  obtain ⟨routes, hroutes⟩ := hreturns (by decide) .dijkstra
  obtain ⟨equal, hroutes', hsub⟩ := hequal hdegree routes hroutes
  exact ⟨equal, routes, hroutes', hroutes, hsub⟩

/-! ## Independence -/

section Independence

variable {uriPublishers prefixRoutes prefixRoutes' : Dict String ℕ} {hostNum : ℕ}

theorem filter_visitsTo (q : String) (entries : Dict String ℕ) :
    (entries.flatMap (visitsTo hostNum)).filter (fun visit => visit.uriPrefix = q) =
      (entries.filter fun entry => entry.1 = q).flatMap (visitsTo hostNum) := by
  refine filter_flatMap_of_label entries fun entry _ visit hvisit => ?_
  obtain ⟨-, -, -, hp⟩ := mem_visitsTo.mp hvisit
  rw [hp]

/-- The visits for a prefix are those of the entries that name it. -/
theorem filter_visitsOf (huri : uriPublishers ≠ []) {q : String}
    (h : prefixRoutes'.filter (fun entry => entry.1 = q) =
      prefixRoutes.filter fun entry => entry.1 = q) (strategy : RoutingStrategy) :
    (visitsOf uriPublishers prefixRoutes' hostNum strategy).filter (fun v => v.uriPrefix = q) =
      (visitsOf uriPublishers prefixRoutes hostNum strategy).filter fun v => v.uriPrefix = q := by
  have hbest : (visitsForUris hostNum uriPublishers prefixRoutes').filter (fun v => v.uriPrefix = q) =
      (visitsForUris hostNum uriPublishers prefixRoutes).filter fun v => v.uriPrefix = q := by
    rw [visitsForUris, visitsForUris, List.filter_append, List.filter_append, filter_visitsTo,
      filter_visitsTo, h]
  cases strategy with
  | dijkstra =>
    simp only [visitsOf, if_pos (Or.inl huri)]
    exact hbest
  | shortestPath =>
    simp only [visitsOf, if_pos (Or.inl huri)]
    exact hbest
  | ecmp =>
    simp only [visitsOf, visitsEcmp, if_pos (Or.inl huri)]
    rw [List.filter_append, List.filter_append _ (prefixRoutes.flatMap _), filter_visitsTo,
      filter_visitsTo, h]

/-- The routes returned for a prefix are those the visits for it offer. -/
theorem filter_offered {pick : List (ℕ × ℕ) → List ℕ} {scheme : AddressingScheme}
    {tables : FibTables} (visits : List Visit) (q : String) :
    ((visits.flatMap (offers pick scheme tables)).eraseDups).filter (fun r => r.uriPrefix = q) =
      ((visits.filter fun v => v.uriPrefix = q).flatMap (offers pick scheme tables)).eraseDups := by
  rw [filter_eraseDups]
  congr 1
  refine filter_flatMap_of_label visits fun visit _ r hr => ?_
  obtain ⟨n, -, rfl⟩ := List.mem_map.mp hr
  rfl

/-- The order of the entries makes no difference to which visits are made. -/
theorem visited_perm {uriPublishers' : Dict String ℕ} (huri : uriPublishers'.Perm uriPublishers)
    (hpre : prefixRoutes'.Perm prefixRoutes) {visit : Visit} :
    Visited uriPublishers' prefixRoutes' hostNum visit ↔
      Visited uriPublishers prefixRoutes hostNum visit := by
  have hnil : ∀ {d d' : Dict String ℕ}, d'.Perm d → (d' ≠ [] ↔ d ≠ []) := by
    intro d d' hperm
    rw [not_iff_not]
    exact ⟨fun h => (h ▸ hperm).nil_eq.symm, fun h => (h ▸ hperm).eq_nil⟩
  simp only [Visited, hnil huri, hnil hpre, FromEntries, (huri.append hpre).mem_iff, huri.mem_iff]

end Independence

/-- **Prefixes are routed independently.** For every strategy, well-formed topology, addressing
    scheme, `k` and non-empty `uri_publishers` of its hosts: whatever is added to `prefix_routes`,
    the list of routes for every other prefix is the same, and another order of the entries of the
    two maps gives the routes in another order. (A next hop whose index has no address makes a
    strategy raise; up to 254 hosts none does.) -/
theorem prefixes_independent {scheme : AddressingScheme} {meshLinks : List RawLink} {hostNum : ℕ}
    {uriPublishers : Dict String ℕ} (hwf : WellFormedMesh meshLinks)
    (hn : hostCount (topologyLinks meshLinks) = .ok hostNum) (huri : uriPublishers ≠ [])
    (hrange : ∀ entry ∈ uriPublishers, entry.2 < hostNum) (strategy : RoutingStrategy) (kPaths : ℤ)
    (prefixRoutes : Dict String ℕ) :
    (∀ added : Dict String ℕ, ∀ routes routes',
      strategy.computeRoutes meshLinks kPaths uriPublishers scheme prefixRoutes = .ok routes →
      strategy.computeRoutes meshLinks kPaths uriPublishers scheme (prefixRoutes.merge added)
        = .ok routes' →
      ∀ q, (∀ entry ∈ added, entry.1 ≠ q) →
        routes'.filter (fun r => r.uriPrefix = q) = routes.filter fun r => r.uriPrefix = q) ∧
    (∀ uriPublishers' prefixRoutes' : Dict String ℕ, uriPublishers'.Perm uriPublishers →
      prefixRoutes'.Perm prefixRoutes →
      (∃ routes routes',
        strategy.computeRoutes meshLinks kPaths uriPublishers scheme prefixRoutes = .ok routes ∧
        strategy.computeRoutes meshLinks kPaths uriPublishers' scheme prefixRoutes' = .ok routes' ∧
        routes'.Perm routes) ∨
      (254 < hostNum ∧ ∃ msg msg',
        strategy.computeRoutes meshLinks kPaths uriPublishers scheme prefixRoutes
          = .error (.raised (.valueError msg)) ∧
        strategy.computeRoutes meshLinks kPaths uriPublishers' scheme prefixRoutes'
          = .error (.raised (.valueError msg')))) ∧
    (hostNum ≤ 254 → ∀ prefixRoutes' : Dict String ℕ, ∃ routes,
      strategy.computeRoutes meshLinks kPaths uriPublishers scheme prefixRoutes' = .ok routes) := by
  obtain ⟨tables, htables, rfl, ht⟩ := fibTables_spec scheme hwf hn
  have hends := fun prefixRoutes' => computeRoutes_ends prefixRoutes' hwf hn
    htables ht hrange kPaths strategy
  refine ⟨fun added routes routes' hroutes hroutes' q hq => ?_,
    fun uriPublishers' prefixRoutes' hperm hperm' => ?_, fun hfew prefixRoutes' => ?_⟩
  · have h := hends prefixRoutes
    have h' := hends (prefixRoutes.merge added)
    rw [hroutes] at h
    rw [hroutes'] at h'
    rw [h.2 (.inl huri), h'.2 (.inl huri), filter_offered, filter_offered,
      filter_visitsOf huri (Dict.filter_merge hq prefixRoutes)]
  · have hrange' : ∀ entry ∈ uriPublishers', entry.2 < tables.hostNum :=
      fun entry he => hrange entry (hperm.mem_iff.mp he)
    have h := hends prefixRoutes
    have h' := computeRoutes_ends prefixRoutes' hwf hn htables ht hrange' kPaths
      strategy
    have hsame : ∀ visit, visit ∈ visitsOf uriPublishers' prefixRoutes' tables.hostNum strategy ↔
        visit ∈ visitsOf uriPublishers prefixRoutes tables.hostNum strategy := by
      intro visit
      rw [mem_visitsOf, mem_visitsOf, visited_perm hperm hperm']
    have hsub : ∀ s d, ∀ n ∈ hopsOf (pickOf kPaths strategy) tables s d,
        n ∈ hopsOf (pickOf kPaths strategy) tables s d := fun _ _ _ hn => hn
    rcases h.elim with ⟨routes, hroutes, hc, -⟩ | ⟨_, herr, ⟨hmany, msg, rfl⟩, hnot⟩
    · rcases h'.elim with ⟨routes', hroutes', hc', -⟩ | ⟨_, -, -, hnot'⟩
      · refine .inl ⟨routes, routes', hroutes, hroutes', ?_⟩
        rw [List.perm_ext_iff_of_nodup hc'.nodup hc.nodup]
        intro r
        rw [hc'.mem, hc.mem]
        simp only [hsame]
      · exact absurd (allAddressed_of_subset hsame hsub hc.addressed) hnot'
    · rcases h'.elim with ⟨_, -, hc', -⟩ | ⟨_, herr', ⟨-, msg', rfl⟩, -⟩
      · exact absurd (allAddressed_of_subset (fun v => (hsame v).symm) hsub hc'.addressed) hnot
      · exact .inr ⟨hmany, msg, msg', herr, herr'⟩
  · rcases (hends prefixRoutes').elim with ⟨routes, hroutes, -⟩ | ⟨_, -, ⟨hover, -⟩, -⟩
    · exact ⟨routes, hroutes⟩
    · omega

/-- Announcing a prefix more leaves the publisher's routes as they were. -/
theorem prefixes_independent_tailedTriangle : ∃ routes routes',
    RoutingStrategy.ecmp.computeRoutes tailedTriangle 2 [("ccnx:/a", 0)] .default [] = .ok routes ∧
      RoutingStrategy.ecmp.computeRoutes tailedTriangle 2 [("ccnx:/a", 0)] .default
        [("ccnx:/b", 3)] = .ok routes' ∧
      routes'.filter (fun r => r.uriPrefix = "ccnx:/a") =
        routes.filter fun r => r.uriPrefix = "ccnx:/a" := by
  obtain ⟨hadd, -, hreturns⟩ := @prefixes_independent .default tailedTriangle 4 [("ccnx:/a", 0)]
    tailedTriangle_wellFormed (by decide) (by decide) (by decide) .ecmp 2 []
  obtain ⟨routes, hroutes⟩ := hreturns (by decide) []
  obtain ⟨routes', hroutes'⟩ := hreturns (by decide) [("ccnx:/b", 3)]
  exact ⟨routes, routes', hroutes, hroutes',
    hadd [("ccnx:/b", 3)] routes routes' hroutes hroutes' "ccnx:/a" (by decide)⟩

end Proof
end CeforeEmu
