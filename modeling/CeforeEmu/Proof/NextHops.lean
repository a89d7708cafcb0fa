import CeforeEmu.Lib.Ranks
import CeforeEmu.Proof.RouteTables

/-!
# The next hops

Which next hops `compute_fib` and `compute_fib_for_uris` list. The neighbours of a host from which
a destination can be reached are ordered by the cost of going that way, and then by their number;
the ones kept for a visit are the first of them (`mem_hopsOf_best`), and the routes for a prefix
are those of the visits made for it (`next_hops_exact`).

The distances are taken in the whole graph, so a neighbour from which every way leads back through
the host is one of them too. It is never nearer than the host, and comes last among its neighbours
but for ties; so it is kept exactly when there is room for it after the others
(`on_path_iff`).
-/

set_option autoImplicit false

namespace CeforeEmu
namespace Proof

open CeforeEmu.Lib CeforeEmu.Core

/-! ## The candidates in order -/

/-- The neighbours of a host from which the destination can be reached. -/
def Towards (meshLinks : List RawLink) (s d : ℕ) : Set ℕ :=
  {n | (hostGraph meshLinks).Adj s n ∧ (hostGraph meshLinks).Reachable n d}

/-- What the candidates towards a destination are ordered by. -/
noncomputable def hopOrder (meshLinks : List RawLink) (d n : ℕ) : ℕ ×ₗ ℕ :=
  toLex (1 + (hostGraph meshLinks).dist n d, n)

/-- One of the first `min(k, c)` of the `c` neighbours from which the destination can be reached. -/
def Best (meshLinks : List RawLink) (k : ℤ) (s d n : ℕ) : Prop :=
  n ∈ Towards meshLinks s d ∧
    (rank (hopOrder meshLinks d) (Towards meshLinks s d) n : ℤ) <
      min k (Towards meshLinks s d).ncard

/-- How many of `c` candidates `candidates[:k]` keeps. -/
def keptOf (k : ℤ) (c : ℕ) : ℕ := if 0 ≤ k then k.toNat else c - (-k).toNat

section Candidates

variable {scheme : AddressingScheme} {meshLinks : List RawLink} {tables : FibTables}
  (ht : Tabulates scheme meshLinks tables)
  (hnbrs : ∀ v nbrs, tables.graph.get? v = some nbrs → nbrs.Nodup)
include ht hnbrs

/-- The candidates, as next hops, in their order. -/
theorem candidates_sorted {s : ℕ} (hs : s < tables.hostNum) (d : ℕ) :
    ∃ cands, candidates tables s d = .ok cands ∧
      (cands.map (·.2)).Pairwise (fun a b => hopOrder meshLinks d a < hopOrder meshLinks d b) ∧
      ∀ n, n ∈ cands.map (·.2) ↔ n ∈ Towards meshLinks s d := by
  obtain ⟨cands, hcands, -, hmem⟩ := candidates_spec ht hs d
  obtain ⟨nbrs, hget⟩ := Option.isSome_iff_exists.mp ((ht.node s).mpr hs)
  have hshape := hcands
  simp only [candidates, hget, Except.ok.injEq] at hshape
  have hnodup : (cands.map (·.2)).Nodup := by
    rw [← hshape, ((List.perm_insertionSort _ _).map _).nodup_iff, List.map_filterMap]
    refine (hnbrs s nbrs hget).filterMap fun a a' b hb hb' => ?_
    simp only [Option.map_map, Option.mem_def, Option.map_eq_some_iff, Function.comp_apply] at hb hb'
    obtain ⟨-, -, rfl⟩ := hb
    obtain ⟨-, -, rfl⟩ := hb'
    rfl
  have hlex : cands.Pairwise fun a b => toLex a ≤ toLex b := by
    rw [← hshape]
    exact List.pairwise_insertionSort _ _
  refine ⟨cands, hcands, ?_, fun n => ?_⟩
  · rw [List.pairwise_map]
    refine (hlex.and (List.pairwise_map.mp hnodup)).imp_of_mem ?_
    rintro ⟨c, a⟩ ⟨c', b⟩ ha hb ⟨hle, hne⟩
    obtain ⟨-, -, rfl⟩ := (hmem c a).mp ha
    obtain ⟨-, -, rfl⟩ := (hmem c' b).mp hb
    refine lt_of_le_of_ne hle fun heq => hne ?_
    exact congrArg Prod.snd (toLex.injective heq)
  · rw [List.mem_map]
    constructor
    · rintro ⟨⟨c, v⟩, hc, rfl⟩
      obtain ⟨hadj, hreach, -⟩ := (hmem c v).mp hc
      exact ⟨hadj, hreach⟩
    · rintro ⟨hadj, hreach⟩
      exact ⟨_, (hmem _ n).mpr ⟨hadj, hreach, rfl⟩, rfl⟩

theorem mem_hopsOf_best {s d n : ℕ} (hs : s < tables.hostNum) (k : ℤ) :
    n ∈ hopsOf (pickBest k) tables s d ↔ n ∈ Towards meshLinks s d ∧
      rank (hopOrder meshLinks d) (Towards meshLinks s d) n <
        keptOf k (Towards meshLinks s d).ncard := by
  obtain ⟨cands, hcands, hsorted, hmem⟩ := candidates_sorted ht hnbrs hs d
  have hlen : cands.length = (Towards meshLinks s d).ncard := by
    rw [← length_eq_ncard (nodup_of_sorted hsorted) hmem, List.length_map]
  have hpick : pickBest k cands =
      (cands.map (·.2)).take (keptOf k (Towards meshLinks s d).ncard) := by
    rw [pickBest, sliceTo, List.map_take, hlen, keptOf]
  rw [hopsOf, hcands]
  simp only
  rw [hpick, mem_take_iff_rank hsorted hmem]

theorem mem_hopsOf_iff {s d n : ℕ} (hs : s < tables.hostNum) {k : ℤ} (hk : 1 ≤ k) :
    n ∈ hopsOf (pickBest k) tables s d ↔ Best meshLinks k s d n := by
  rw [mem_hopsOf_best ht hnbrs hs, Best, keptOf, if_pos (by omega)]
  refine and_congr_right fun hn => ?_
  obtain ⟨cands, -, hsorted, hmem⟩ := candidates_sorted ht hnbrs hs d
  have hrank : rank (hopOrder meshLinks d) (Towards meshLinks s d) n <
      (Towards meshLinks s d).ncard := rank_lt_ncard hsorted hmem hn
  omega

end Candidates

/-! ## The routes -/

/-- The destinations the passes of `compute_fib_for_uris` visit for a host and a prefix: the
    prefix's host in each map, and every other host at the prefix's publisher. -/
def DestinationFor (hostNum : ℕ) (uriPublishers prefixRoutes : Dict String ℕ) (s : ℕ) (p : String)
    (d : ℕ) : Prop :=
  d ≠ s ∧ (uriPublishers.get? p = some d ∨ prefixRoutes.get? p = some d ∨
    (uriPublishers.get? p = some s ∧ d < hostNum))

/-- The one `compute_fib` does. -/
def DefaultDestination (hostNum s : ℕ) (p : String) (d : ℕ) : Prop :=
  d ≠ s ∧ d < hostNum ∧ p = defaultPrefix d

/-- What is wanted of the routes when these are the destinations. -/
structure ExactRoutes (scheme : AddressingScheme) (meshLinks : List RawLink) (k : ℤ)
    (destination : ℕ → String → ℕ → Prop) (routes : List Route) : Prop where
  hops : ∀ s p n, (∃ r ∈ routes, r.source = s ∧ r.uriPrefix = p ∧ r.nextHop = n) ↔
    ∃ d, destination s p d ∧ Best meshLinks k s d n
  distinct : (routes.map fun r => (r.source, r.uriPrefix, r.nextHopIp)).Nodup
  address : ∀ r ∈ routes, ∃ raw ∈ meshLinks, r.source ∈ raw.hosts ∧ r.nextHop ∈ raw.hosts ∧
    ∃ subnet, raw.subnet = some subnet ∧ scheme.hostIp subnet r.nextHop = .ok r.nextHopIp

/-- Routes as wanted, unless a host index has no address and `host_ip` raises. -/
def ReturnsExactly (scheme : AddressingScheme) (meshLinks : List RawLink) (hostNum : ℕ) (k : ℤ)
    (destination : ℕ → String → ℕ → Prop) (result : Except Fault (List Route)) : Prop :=
  (∃ routes, result = .ok routes ∧ ExactRoutes scheme meshLinks k destination routes) ∨
    (254 < hostNum ∧ ∃ msg, result = .error (.raised (.valueError msg)))

/-- The visits for the entries of the maps, as destinations. -/
theorem fromEntries_iff {hostNum : ℕ} {uriPublishers prefixRoutes : Dict String ℕ}
    (hrange : ∀ entry ∈ uriPublishers ++ prefixRoutes, entry.2 < hostNum)
    (huri : (uriPublishers.map (·.1)).Nodup) (hpre : (prefixRoutes.map (·.1)).Nodup)
    {s d : ℕ} {p : String} : FromEntries hostNum uriPublishers prefixRoutes ⟨s, d, p⟩ ↔
      s < hostNum ∧ DestinationFor hostNum uriPublishers prefixRoutes s p d := by
  simp only [FromEntries, mem_visitsTo, mem_visitsFrom, DestinationFor, List.mem_append]
  constructor
  · rintro (⟨⟨_, _⟩, he | he, hs, hne, rfl, rfl⟩ | ⟨⟨_, _⟩, he, hd, hne, rfl, rfl⟩)
    · exact ⟨hs, hne.symm, .inl ((Dict.NodupKeys.mem_iff_get? huri).mp he)⟩
    · exact ⟨hs, hne.symm, .inr (.inl ((Dict.NodupKeys.mem_iff_get? hpre).mp he))⟩
    · have hget := (Dict.NodupKeys.mem_iff_get? huri).mp he
      exact ⟨hrange _ (List.mem_append_left _ he), hne, .inr (.inr ⟨hget, hd⟩)⟩
  · rintro ⟨hs, hne, h | h | ⟨h, hd⟩⟩
    · exact .inl ⟨(p, d), .inl ((Dict.NodupKeys.mem_iff_get? huri).mpr h), hs, hne.symm, rfl, rfl⟩
    · exact .inl ⟨(p, d), .inr ((Dict.NodupKeys.mem_iff_get? hpre).mpr h), hs, hne.symm, rfl, rfl⟩
    · exact .inr ⟨(p, s), (Dict.NodupKeys.mem_iff_get? huri).mpr h, hd, hne, rfl, rfl⟩

section Exact

variable {scheme : AddressingScheme} {meshLinks : List RawLink} {hostNum : ℕ} {tables : FibTables}
  (hwf : WellFormedMesh meshLinks) (hn : hostCount (topologyLinks meshLinks) = .ok hostNum)
  (htables : fibTables meshLinks = .ok tables) (ht : Tabulates scheme meshLinks tables)
include hwf hn htables ht

/-- Routes that are what the visits offer, each once, are as wanted. -/
theorem exactRoutes_of_collects {k : ℤ} (hk : 1 ≤ k) {visits : List Visit}
    {destination : ℕ → String → ℕ → Prop}
    (hvisits : ∀ s d p, (⟨s, d, p⟩ : Visit) ∈ visits ↔ s < tables.hostNum ∧ destination s p d)
    {routes : List Route} (h : Collects (pickBest k) scheme tables visits routes) :
    ExactRoutes scheme meshLinks k destination routes := by
  obtain ⟨hnbrs, hshared⟩ := fibTables_links hwf hn htables
  refine ⟨fun s p n => ⟨?_, ?_⟩, ?_, fun r hr => ?_⟩
  · rintro ⟨r, hr, rfl, rfl, rfl⟩
    obtain ⟨⟨s, d, p⟩, hvisit, n, hhop, rfl⟩ := (h.mem r).mp hr
    obtain ⟨hs, hdest⟩ := (hvisits s d p).mp hvisit
    exact ⟨d, hdest, (mem_hopsOf_iff ht hnbrs hs hk).mp hhop⟩
  · rintro ⟨d, hdest, hbest⟩
    have hs : s < tables.hostNum := ht.adj_lt hbest.1.1.symm
    refine ⟨routeVia scheme tables ⟨s, d, p⟩ n, (h.mem _).mpr ⟨⟨s, d, p⟩, ?_, n, ?_, rfl⟩, rfl, rfl, rfl⟩
    · exact (hvisits s d p).mpr ⟨hs, hdest⟩
    · exact (mem_hopsOf_iff ht hnbrs hs hk).mpr hbest
  · refine h.nodup.map_on fun r hr r' hr' hkey => ?_
    exact (h.genuine r hr).eq_of_key (h.genuine r' hr') hkey
  · obtain ⟨⟨s, d, p⟩, hvisit, n, hhop, rfl⟩ := (h.mem r).mp hr
    obtain ⟨hs, -⟩ := (hvisits s d p).mp hvisit
    obtain ⟨hadj, -⟩ := mem_hopsOf ht (pickBest_from k) hs hhop
    obtain ⟨raw, hraw, hsrc, hnh, hget⟩ := hshared hadj
    obtain ⟨-, -, subnet, hsubnet, -⟩ := hwf raw hraw
    refine ⟨raw, hraw, hsrc, hnh, subnet, hsubnet, ?_⟩
    have hip : nextHopIp scheme tables s n = .ok (addressOf scheme tables s n) := h.genuine _ hr
    simp only [nextHopIp, hget, hsubnet] at hip
    exact hip

/-- A visit offers each of its routes once. -/
theorem offers_nodup (k : ℤ) {visit : Visit} (hsrc : visit.src < tables.hostNum) :
    (offers (pickBest k) scheme tables visit).Nodup := by
  obtain ⟨hnbrs, -⟩ := fibTables_links hwf hn htables
  obtain ⟨cands, hcands, hsorted, -⟩ := candidates_sorted ht hnbrs hsrc visit.dest
  have hhops : (hopsOf (pickBest k) tables visit.src visit.dest).Nodup := by
    rw [hopsOf, hcands]
    exact (nodup_of_sorted hsorted).sublist (pickBest_from k)
  exact hhops.map fun n n' h => congrArg Route.nextHop h

end Exact

theorem visitsDefault_nodup (hostNum : ℕ) : (visitsDefault hostNum).Nodup := by
  refine List.nodup_flatMap.mpr ⟨fun src _ => ?_, ?_⟩
  · refine (List.nodup_range.filter _).map fun d d' h => ?_
    exact congrArg Visit.dest h
  · refine List.nodup_range.imp fun {s s'} hne visit hv hv' => ?_
    obtain ⟨d, -, rfl⟩ := List.mem_map.mp hv
    obtain ⟨d', -, h⟩ := List.mem_map.mp hv'
    exact hne (congrArg Visit.src h).symm

section Default

variable {scheme : AddressingScheme} {meshLinks : List RawLink} {hostNum : ℕ} {tables : FibTables}
  (hwf : WellFormedMesh meshLinks) (hn : hostCount (topologyLinks meshLinks) = .ok hostNum)
  (htables : fibTables meshLinks = .ok tables) (ht : Tabulates scheme meshLinks tables)
include hwf hn htables ht

/-- `compute_fib` meets no key twice: the prefix names the destination. -/
theorem offered_nodup (k : ℤ) :
    ((visitsDefault tables.hostNum).flatMap (offers (pickBest k) scheme tables)).Nodup := by
  refine List.nodup_flatMap.mpr ⟨fun visit hvisit => ?_, ?_⟩
  · exact offers_nodup hwf hn htables ht k (visitsDefault_range hvisit).1
  · refine (visitsDefault_nodup _).imp_of_mem fun {v v'} hv hv' hne r hr hr' => hne ?_
    obtain ⟨n, -, rfl⟩ := List.mem_map.mp hr
    obtain ⟨n', -, h⟩ := List.mem_map.mp hr'
    obtain ⟨-, -, -, hp⟩ := mem_visitsDefault.mp hv
    obtain ⟨-, -, -, hp'⟩ := mem_visitsDefault.mp hv'
    have hprefix : v'.uriPrefix = v.uriPrefix := congrArg Route.uriPrefix h
    have hsrc : v'.src = v.src := congrArg Route.source h
    have hdest : v'.dest = v.dest := defaultPrefix_injective (by rw [← hp, ← hp', hprefix])
    obtain ⟨s, d, q⟩ := v
    obtain ⟨s', d', q'⟩ := v'
    cases hsrc
    cases hdest
    cases hprefix
    rfl

theorem computeFib_ends (k : ℤ) :
    Ends (Unaddressed (pickBest k) scheme tables (visitsDefault tables.hostNum))
      (Collects (pickBest k) scheme tables (visitsDefault tables.hostNum))
      (computeFib meshLinks k scheme) :=
  appends_ends ht htables (pickBest_from k) visitsDefault
    (fun _ hvisit => (visitsDefault_range hvisit).1) (offered_nodup hwf hn htables ht k)

omit hwf hn in
theorem computeFibForUris_ends (k : ℤ) {uriPublishers : Dict String ℕ}
    (hrange : ∀ entry ∈ uriPublishers, entry.2 < tables.hostNum) (prefixRoutes : Dict String ℕ) :
    Ends (Unaddressed (pickBest k) scheme tables
        (visitsForUris tables.hostNum uriPublishers prefixRoutes))
      (fun routes => Collects (pickBest k) scheme tables
          (visitsForUris tables.hostNum uriPublishers prefixRoutes) routes ∧
        routes = ((visitsForUris tables.hostNum uriPublishers prefixRoutes).flatMap
          (offers (pickBest k) scheme tables)).eraseDups)
      (computeFibForUris meshLinks k uriPublishers scheme prefixRoutes) :=
  gathers_ends ht htables (pickBest_from k)
    (fun hostNum => visitsForUris hostNum uriPublishers prefixRoutes)
    fun _ hvisit => (fromEntries_range hrange (mem_visitsForUris.mp hvisit)).1

end Default

/-- **The next hops are exactly the best ones.** For every well-formed topology, `k` from 1 on and
    maps of its hosts, `compute_fib` and `compute_fib_for_uris` return routes (unless a host index
    has no address, and `host_ip` raises) whose next hops at a host for a prefix are exactly the
    best ones towards the destinations visited for the two; no two of the routes have the same
    source, prefix and address; and each address is that of the next hop on a link both are on. -/
theorem next_hops_exact {scheme : AddressingScheme} {meshLinks : List RawLink} {hostNum : ℕ}
    {uriPublishers prefixRoutes : Dict String ℕ} (hwf : WellFormedMesh meshLinks)
    (hn : hostCount (topologyLinks meshLinks) = .ok hostNum)
    (hrange : ∀ entry ∈ uriPublishers ++ prefixRoutes, entry.2 < hostNum)
    (huri : (uriPublishers.map (·.1)).Nodup) (hpre : (prefixRoutes.map (·.1)).Nodup) {k : ℤ}
    (hk : 1 ≤ k) :
    ReturnsExactly scheme meshLinks hostNum k (DefaultDestination hostNum)
        (computeFib meshLinks k scheme) ∧
      ReturnsExactly scheme meshLinks hostNum k (DestinationFor hostNum uriPublishers prefixRoutes)
        (computeFibForUris meshLinks k uriPublishers scheme prefixRoutes) := by
  obtain ⟨tables, htables, rfl, ht⟩ := fibTables_spec scheme hwf hn
  constructor
  · rcases (computeFib_ends hwf hn htables ht k).elim with
      ⟨routes, hroutes, h⟩ | ⟨_, herr, ⟨hmany, msg, rfl⟩, -⟩
    · refine .inl ⟨routes, hroutes, exactRoutes_of_collects hwf hn htables ht hk (fun s d p => ?_) h⟩
      rw [mem_visitsDefault, DefaultDestination]
      tauto
    · exact .inr ⟨hmany, msg, herr⟩
  · rcases (computeFibForUris_ends htables ht k (publishers_range hrange) prefixRoutes).elim with
      ⟨routes, hroutes, h, -⟩ | ⟨_, herr, ⟨hmany, msg, rfl⟩, -⟩
    · refine .inl ⟨routes, hroutes, exactRoutes_of_collects hwf hn htables ht hk (fun s d p => ?_) h⟩
      rw [mem_visitsForUris]
      exact fromEntries_iff hrange huri hpre
    · exact .inr ⟨hmany, msg, herr⟩

theorem next_hops_exact_tailedTriangle : ∃ routes,
    computeFibForUris tailedTriangle 2 [("ccnx:/a", 0)] .default [("ccnx:/b", 3)] = .ok routes ∧
      ExactRoutes .default tailedTriangle 2 (DestinationFor 4 [("ccnx:/a", 0)] [("ccnx:/b", 3)])
        routes := by
  obtain ⟨-, h⟩ := @next_hops_exact .default tailedTriangle 4 [("ccnx:/a", 0)] [("ccnx:/b", 3)]
    tailedTriangle_wellFormed (by decide) (by decide) (by decide) (by decide) 2 (by decide)
  exact h.resolve_right fun hmany => absurd hmany.1 (by decide)

/-! ## Next hops that lead back -/

/-- The destination can be reached from the next hop without coming through the source. -/
def OnPath (meshLinks : List RawLink) (s d n : ℕ) : Prop :=
  ∃ q : (hostGraph meshLinks).Walk n d, s ∉ q.support

/-- How many neighbours of the source come before one that is cut off: those no farther from the
    destination than the source, and those with lower numbers. -/
noncomputable def aheadOf (meshLinks : List RawLink) (s d n : ℕ) : ℕ :=
  {m | (hostGraph meshLinks).Adj s m ∧
    ((hostGraph meshLinks).dist m d ≤ (hostGraph meshLinks).dist s d ∨ m < n)}.ncard

/-- Every neighbour that is cut off from the destination has so many before it that it is not
    kept. -/
def LeavesOut (meshLinks : List RawLink) (k : ℤ) (d : ℕ) : Prop :=
  ∀ s n, s ≠ d → (hostGraph meshLinks).Adj s n → (hostGraph meshLinks).Reachable s d →
    ¬ OnPath meshLinks s d n →
    keptOf k ((hostGraph meshLinks).neighborSet s).ncard ≤ aheadOf meshLinks s d n

section CutOff

variable {meshLinks : List RawLink} {s d n m : ℕ}

theorem dist_le_succ (hadj : (hostGraph meshLinks).Adj s m)
    (hreach : (hostGraph meshLinks).Reachable s d) :
    (hostGraph meshLinks).dist m d ≤ (hostGraph meshLinks).dist s d + 1 := by
  obtain ⟨p, hp⟩ := hreach.exists_walk_length_eq_dist
  rw [← hp, ← SimpleGraph.Walk.length_cons hadj.symm]
  exact SimpleGraph.dist_le _

/-- From a neighbour that is cut off, the shortest way leads back through the source. -/
theorem dist_cutOff (hadj : (hostGraph meshLinks).Adj s n)
    (hreach : (hostGraph meshLinks).Reachable s d) (hcut : ¬ OnPath meshLinks s d n) :
    (hostGraph meshLinks).dist n d = (hostGraph meshLinks).dist s d + 1 := by
  refine le_antisymm (dist_le_succ hadj hreach) ?_
  obtain ⟨q, hq⟩ := (hadj.symm.reachable.trans hreach).exists_walk_length_eq_dist
  have hs : s ∈ q.support := by
    by_contra hs
    exact hcut ⟨q, hs⟩
  have hsplit : (q.takeUntil s hs).length + (q.dropUntil s hs).length = q.length := by
    rw [← SimpleGraph.Walk.length_append, SimpleGraph.Walk.take_spec]
  have hstep : 0 < (q.takeUntil s hs).length := by
    refine Nat.pos_of_ne_zero fun hzero => ?_
    exact hadj.ne' (SimpleGraph.Walk.eq_of_length_eq_zero hzero)
  have hback : (hostGraph meshLinks).dist s d ≤ (q.dropUntil s hs).length := SimpleGraph.dist_le _
  omega

theorem towards_eq (hreach : (hostGraph meshLinks).Reachable s d) :
    Towards meshLinks s d = (hostGraph meshLinks).neighborSet s := by
  ext m
  exact ⟨fun h => h.1, fun hadj => ⟨hadj, hadj.symm.reachable.trans hreach⟩⟩

theorem rank_cutOff (hadj : (hostGraph meshLinks).Adj s n)
    (hreach : (hostGraph meshLinks).Reachable s d) (hcut : ¬ OnPath meshLinks s d n) :
    rank (hopOrder meshLinks d) (Towards meshLinks s d) n = aheadOf meshLinks s d n := by
  rw [rank, aheadOf, towards_eq hreach]
  congr 1
  ext m
  refine and_congr_right fun hm => ?_
  have hle := dist_le_succ hm hreach
  have hdist := dist_cutOff hadj hreach hcut
  rw [hopOrder, hopOrder, Prod.Lex.toLex_lt_toLex]
  simp only
  omega

end CutOff

section Picked

variable {scheme : AddressingScheme} {meshLinks : List RawLink} {tables : FibTables}
  (ht : Tabulates scheme meshLinks tables)
  (hnbrs : ∀ v nbrs, tables.graph.get? v = some nbrs → nbrs.Nodup)
include ht hnbrs

/-- What is picked for a destination is on a path to it exactly when what is cut off is left out. -/
theorem picked_onPath_iff (k : ℤ) (d : ℕ) :
    (∀ s n, s ≠ d → n ∈ hopsOf (pickBest k) tables s d → OnPath meshLinks s d n) ↔
      LeavesOut meshLinks k d := by
  constructor
  · intro h s n hsd hadj hreach hcut
    by_contra hlt
    refine hcut (h s n hsd ((mem_hopsOf_best ht hnbrs (ht.adj_lt hadj.symm) k).mpr ⟨?_, ?_⟩))
    · exact ⟨hadj, hadj.symm.reachable.trans hreach⟩
    · rw [rank_cutOff hadj hreach hcut, towards_eq hreach]
      exact not_le.mp hlt
  · intro h s n hsd hpicked
    have hs : s < tables.hostNum := lt_of_mem_hopsOf ht hpicked
    obtain ⟨⟨hadj, hreach'⟩, hrank⟩ := (mem_hopsOf_best ht hnbrs hs k).mp hpicked
    have hreach : (hostGraph meshLinks).Reachable s d := hadj.reachable.trans hreach'
    by_contra hcut
    rw [rank_cutOff hadj hreach hcut, towards_eq hreach] at hrank
    exact absurd (h s n hsd hadj hreach hcut) (not_le.mpr hrank)

end Picked

/-- `_add_routes` picks this next hop for the source and the destination. -/
def PickedFor (meshLinks : List RawLink) (k : ℤ) (s d n : ℕ) : Prop :=
  ∃ tables, fibTables meshLinks = .ok tables ∧ n ∈ hopsOf (pickBest k) tables s d

/-- **When every next hop lies on a path.** For every well-formed topology, every maps of its hosts
    and every `k`: each next hop that `compute_fib` lists for a destination, or pass 1 of
    `compute_fib_for_uris` for a publisher, lies on a simple path from the source to the
    destination, if and only if every neighbour that is cut off from the destination by the source
    has so many neighbours before it that it is not among those kept. -/
theorem on_path_iff {scheme : AddressingScheme} {meshLinks : List RawLink} {hostNum : ℕ}
    {uriPublishers prefixRoutes : Dict String ℕ} (hwf : WellFormedMesh meshLinks)
    (hn : hostCount (topologyLinks meshLinks) = .ok hostNum)
    (hrange : ∀ entry ∈ uriPublishers ++ prefixRoutes, entry.2 < hostNum)
    (huri : (uriPublishers.map (·.1)).Nodup) (hpre : (prefixRoutes.map (·.1)).Nodup) (k : ℤ) :
    (∀ routes, computeFib meshLinks k scheme = .ok routes →
      ((∀ r ∈ routes, ∀ d, r.uriPrefix = defaultPrefix d →
          OnPath meshLinks r.source d r.nextHop) ↔
        ∀ d, LeavesOut meshLinks k d)) ∧
    ∀ routes, computeFibForUris meshLinks k uriPublishers scheme prefixRoutes = .ok routes →
      ((∀ r ∈ routes, ∀ d, uriPublishers.get? r.uriPrefix = some d → r.source ≠ d →
          PickedFor meshLinks k r.source d r.nextHop → OnPath meshLinks r.source d r.nextHop) ↔
        ∀ p d, uriPublishers.get? p = some d → LeavesOut meshLinks k d) := by
  obtain ⟨tables, htables, rfl, ht⟩ := fibTables_spec scheme hwf hn
  obtain ⟨hnbrs, -⟩ := fibTables_links hwf hn htables
  refine ⟨fun routes hroutes => ?_, fun routes hroutes => ?_⟩
  · have hends := computeFib_ends hwf hn htables ht k
    rw [hroutes] at hends
    have hmem := hends.mem
    constructor
    · intro h d
      refine (picked_onPath_iff ht hnbrs k d).mp fun s n hsd hpicked => ?_
      have hs : s < tables.hostNum := lt_of_mem_hopsOf ht hpicked
      obtain ⟨hadj, hreach⟩ := mem_hopsOf ht (pickBest_from k) hs hpicked
      have hd : d < tables.hostNum := by
        obtain ⟨v, hv, -⟩ := exists_nearer hsd.symm (hadj.reachable.trans hreach).symm
        exact ht.adj_lt hv.symm
      have hvisit : (⟨s, d, defaultPrefix d⟩ : Visit) ∈ visitsDefault tables.hostNum :=
        mem_visitsDefault.mpr ⟨hs, hd, hsd, rfl⟩
      exact h _ ((hmem _).mpr ⟨_, hvisit, n, hpicked, rfl⟩) d rfl
    · intro h r hr d hp
      obtain ⟨visit, hvisit, n, hpicked, rfl⟩ := (hmem r).mp hr
      obtain ⟨-, -, hne, hp'⟩ := mem_visitsDefault.mp hvisit
      obtain rfl : visit.dest = d := defaultPrefix_injective (hp'.symm.trans hp)
      exact (picked_onPath_iff ht hnbrs k visit.dest).mpr (h visit.dest) visit.src n hne hpicked
  · have hends := computeFibForUris_ends htables ht k (publishers_range hrange) prefixRoutes
    rw [hroutes] at hends
    have hmem := hends.1.mem
    constructor
    · intro h p d hp
      refine (picked_onPath_iff ht hnbrs k d).mp fun s n hsd hpicked => ?_
      have hs : s < tables.hostNum := lt_of_mem_hopsOf ht hpicked
      have hvisit : (⟨s, d, p⟩ : Visit) ∈
          visitsForUris tables.hostNum uriPublishers prefixRoutes :=
        mem_visitsForUris.mpr ((fromEntries_iff hrange huri hpre).mpr ⟨hs, hsd.symm, .inl hp⟩)
      exact h _ ((hmem _).mpr ⟨_, hvisit, n, hpicked, rfl⟩) d hp hsd ⟨tables, htables, hpicked⟩
    · rintro h r - d hp hsd ⟨tables', htables', hpicked⟩
      rw [htables] at htables'
      cases htables'
      exact (picked_onPath_iff ht hnbrs k d).mpr (h _ d hp) r.source r.nextHop hsd hpicked

/-- Two hosts on links of their own to the host `0`. -/
def spokes : List RawLink :=
  [.multi (some "s0") (some 1) [0, 1] [(0, 0), (1, 0)],
    .multi (some "s1") (some 2) [0, 2] [(0, 1), (2, 0)]]

theorem spokes_wellFormed : WellFormedMesh spokes := by
  intro raw hraw
  fin_cases hraw
  · exact ⟨by decide, by decide, 1, by decide⟩
  · exact ⟨by decide, by decide, 2, by decide⟩

/-- Every way in the spokes leads through the host `0`. -/
theorem spokes_hub {a b : ℕ} (h : (hostGraph spokes).Adj a b) (ha : a ≠ 0) : b = 0 := by
  obtain ⟨hab, raw, hraw, ha', hb⟩ := h
  fin_cases hraw <;> simp [RawLink.hosts] at ha' hb <;> omega

/-- Towards the host `0` nothing is cut off. -/
theorem spokes_on_path : ∃ routes,
    computeFibForUris spokes 2 [("ccnx:/a", 0)] .default [] = .ok routes ∧
      ∀ r ∈ routes, ∀ d, Dict.get? [("ccnx:/a", 0)] r.uriPrefix = some d → r.source ≠ d →
        PickedFor spokes 2 r.source d r.nextHop → OnPath spokes r.source d r.nextHop := by
  obtain ⟨-, h⟩ := @on_path_iff .default spokes 3 [("ccnx:/a", 0)] [] spokes_wellFormed (by decide)
    (by decide) (by decide) (by decide) 2
  refine ⟨_, rfl, (h _ rfl).mpr ?_⟩
  rintro p d hp s n hsd hadj - hcut
  obtain rfl : d = 0 := by
    rw [Dict.get?_cons] at hp
    split at hp
    · exact (Option.some.inj hp).symm
    · cases hp
  obtain rfl := spokes_hub hadj hsd
  exact absurd ⟨.nil, by simpa using hsd⟩ hcut

/-- The host `0` lists the host `2` as a next hop towards the host `1`, and it reaches it only
    through the host `0` again. -/
theorem leads_back : WellFormedMesh spokes ∧
    (∃ routes, computeFib spokes 2 .default = .ok routes ∧ ∃ r ∈ routes,
      r.source = 0 ∧ r.uriPrefix = defaultPrefix 1 ∧ r.nextHop = 2) ∧
    ¬ OnPath spokes 0 1 2 := by
  refine ⟨spokes_wellFormed, ⟨_, rfl, ⟨0, defaultPrefix 1, 2, "192.168.2.3"⟩, by decide, rfl, rfl, rfl⟩,
    ?_⟩
  rintro ⟨q, hq⟩
  cases q with
  | cons hadj q =>
    cases spokes_hub hadj (by decide)
    exact hq (by simp)

end Proof
end CeforeEmu
