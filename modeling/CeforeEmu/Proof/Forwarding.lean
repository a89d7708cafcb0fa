import Mathlib.Data.List.TakeWhile
import CeforeEmu.Proof.HostGraph

/-!
# Following the FIB

The host graph of a topology as a graph, with its distance, and what the routes of a strategy
say about it. A host's candidates towards a destination are its neighbours with one more than
their distance; the single-path and the equal-cost strategies keep only candidates of the least
cost, and a neighbour of least cost is one step nearer (`dist_pick`). So a packet that follows
any of them arrives after exactly as many hops as the destination is away.

What a strategy lists at a host for a prefix comes from the visits it makes for the two. Of the
visits for a prefix that is announced once, only the publisher's own have another destination
(`Announces`), and those are at the destination itself.
-/

set_option autoImplicit false

namespace CeforeEmu
namespace Proof

open CeforeEmu.Lib CeforeEmu.Core

/-! ## Next hops -/

/-- A neighbour that is one step nearer to the destination. -/
def Nearer (meshLinks : List RawLink) (src dest nextHop : ℕ) : Prop :=
  (hostGraph meshLinks).Adj src nextHop ∧ (hostGraph meshLinks).Reachable nextHop dest ∧
    (hostGraph meshLinks).dist nextHop dest + 1 = (hostGraph meshLinks).dist src dest

/-- Of two different connected hosts, one has a neighbour that is nearer to the other. -/
theorem exists_nearer {meshLinks : List RawLink} {src dest : ℕ} (hne : src ≠ dest)
    (hreach : (hostGraph meshLinks).Reachable src dest) : ∃ nh, Nearer meshLinks src dest nh := by
  obtain ⟨p, hp⟩ := hreach.exists_walk_length_eq_dist
  cases p with
  | nil => exact absurd rfl hne
  | @cons _ nh _ hadj p =>
    rw [SimpleGraph.Walk.length_cons] at hp
    refine ⟨nh, hadj, ⟨p⟩, le_antisymm ?_ ?_⟩
    · rw [← hp]
      exact Nat.succ_le_succ (SimpleGraph.dist_le p)
    · obtain ⟨q, hq⟩ := SimpleGraph.Reachable.exists_walk_length_eq_dist ⟨p⟩
      rw [← hq, ← SimpleGraph.Walk.length_cons hadj]
      exact SimpleGraph.dist_le _

/-- A neighbour that costs no more than any other is nearer. -/
theorem dist_pick {meshLinks : List RawLink} {src dest nh : ℕ} (hne : src ≠ dest)
    (hadj : (hostGraph meshLinks).Adj src nh) (hreach : (hostGraph meshLinks).Reachable nh dest)
    (hleast : ∀ v, (hostGraph meshLinks).Adj src v → (hostGraph meshLinks).Reachable v dest →
      (hostGraph meshLinks).dist nh dest ≤ (hostGraph meshLinks).dist v dest) :
    Nearer meshLinks src dest nh := by
  have hsrc : (hostGraph meshLinks).Reachable src dest := hadj.reachable.trans hreach
  obtain ⟨v, hv, hvreach, hvdist⟩ := exists_nearer hne hsrc
  refine ⟨hadj, hreach, le_antisymm ?_ ?_⟩
  · rw [← hvdist]
    exact Nat.succ_le_succ (hleast v hv hvreach)
  · obtain ⟨q, hq⟩ := hreach.exists_walk_length_eq_dist
    rw [← hq, ← SimpleGraph.Walk.length_cons hadj]
    exact SimpleGraph.dist_le _

/-- A choice among sorted candidates that keeps some of them, and only ones of the least cost. -/
structure PicksLeast (pick : List (ℕ × ℕ) → List ℕ) : Prop where
  some : ∀ c cands, pick (c :: cands) ≠ []
  least : ∀ {cands}, cands.Pairwise (fun a b => a.1 ≤ b.1) → ∀ nh ∈ pick cands,
    ∃ c, (c, nh) ∈ cands ∧ ∀ e ∈ cands, c ≤ e.1

theorem head_le {c : ℕ × ℕ} {cands : List (ℕ × ℕ)}
    (hs : (c :: cands).Pairwise fun a b => a.1 ≤ b.1) : ∀ e ∈ c :: cands, c.1 ≤ e.1 := by
  intro e he
  rcases List.mem_cons.mp he with rfl | he
  · exact le_refl _
  · exact (List.pairwise_cons.mp hs).1 e he

theorem pickBest_least : PicksLeast (pickBest 1) where
  some c cands := by simp [pickBest, sliceTo]
  least {cands} hs nh hnh := by
    cases cands with
    | nil => simp [pickBest, sliceTo] at hnh
    | cons c cands =>
      simp only [pickBest, sliceTo, zero_le_one, if_true, Int.toNat_one, List.take_succ_cons,
        List.take_zero, List.map_cons, List.map_nil, List.mem_singleton] at hnh
      subst hnh
      exact ⟨c.1, List.mem_cons_self, head_le hs⟩

theorem pickEqualCost_least : PicksLeast pickEqualCost where
  some c cands := by simp [pickEqualCost]
  least {cands} hs nh hnh := by
    cases cands with
    | nil => simp [pickEqualCost] at hnh
    | cons c cands =>
      obtain ⟨e, he, rfl⟩ := List.mem_map.mp hnh
      have hle : e.1 ≤ c.1 := by simpa using List.mem_takeWhile_imp he
      refine ⟨e.1, (List.takeWhile_sublist _).subset he, fun e' he' => ?_⟩
      exact hle.trans (head_le hs e' he')

section Candidates

variable {scheme : AddressingScheme} {meshLinks : List RawLink} {tables : FibTables}
  (ht : Tabulates scheme meshLinks tables)
include ht

/-- The candidates of a host: its neighbours, each with one more than its distance. -/
theorem candidates_spec {src : ℕ} (hsrc : src < tables.hostNum) (dest : ℕ) :
    ∃ cands, candidates tables src dest = .ok cands ∧ cands.Pairwise (fun a b => a.1 ≤ b.1) ∧
      ∀ c nh, (c, nh) ∈ cands ↔ (hostGraph meshLinks).Adj src nh ∧
        (hostGraph meshLinks).Reachable nh dest ∧ c = 1 + (hostGraph meshLinks).dist nh dest := by
  obtain ⟨nbrs, hnbrs⟩ := Option.isSome_iff_exists.mp ((ht.node src).mpr hsrc)
  have hadj : ∀ nh, nh ∈ nbrs ↔ (hostGraph meshLinks).Adj src nh := by
    intro nh
    rw [← ht.edge, EdgeOf, hnbrs]
    simp
  have hcands : candidates tables src dest = .ok ((nbrs.filterMap fun neighbor =>
      ((tables.allDist.getD neighbor []).get? dest).map fun d => (1 + d, neighbor)).insertionSort
        fun a b => toLex a ≤ toLex b) := by
    simp only [candidates, hnbrs]
  refine ⟨_, hcands, ?_, fun c nh => ?_⟩
  · refine (List.pairwise_insertionSort _ _).imp fun {a b} hab => ?_
    exact (Prod.Lex.le_iff.mp hab).elim le_of_lt fun h => h.1.le
  · rw [(List.perm_insertionSort _ _).mem_iff, List.mem_filterMap]
    simp only [Option.map_eq_some_iff, Prod.mk.injEq]
    constructor
    · rintro ⟨v, hv, d, hd, rfl, rfl⟩
      have hlt := ht.adj_lt ((hadj v).mp hv)
      obtain ⟨hreach, rfl⟩ := (leastCost_iff ht.edge).mp ((ht.distance hlt dest d).mp hd)
      exact ⟨(hadj v).mp hv, hreach, rfl⟩
    · rintro ⟨hv, hreach, rfl⟩
      refine ⟨nh, (hadj nh).mpr hv, _, (ht.distance (ht.adj_lt hv) dest _).mpr ?_, rfl, rfl⟩
      exact (leastCost_iff ht.edge).mpr ⟨hreach, rfl⟩

/-- What is picked is nearer, and something is picked when the destination can be reached. -/
theorem pick_spec {pick : List (ℕ × ℕ) → List ℕ} (hpick : PicksLeast pick) {src dest : ℕ}
    (hsrc : src < tables.hostNum) (hne : src ≠ dest) :
    ∃ cands, candidates tables src dest = .ok cands ∧
      (∀ nh ∈ pick cands, Nearer meshLinks src dest nh) ∧
      ((hostGraph meshLinks).Reachable src dest → pick cands ≠ []) := by
  obtain ⟨cands, hcands, hsorted, hmem⟩ := candidates_spec ht hsrc dest
  refine ⟨cands, hcands, fun nh hnh => ?_, fun hreach => ?_⟩
  · obtain ⟨c, hc, hleast⟩ := hpick.least hsorted nh hnh
    obtain ⟨hadj, hreach, rfl⟩ := (hmem c nh).mp hc
    refine dist_pick hne hadj hreach fun v hv hvreach => ?_
    have := hleast _ ((hmem _ v).mpr ⟨hv, hvreach, rfl⟩)
    exact Nat.add_le_add_iff_left.mp this
  · obtain ⟨v, hv, hvreach, -⟩ := exists_nearer hne hreach
    have hv' := (hmem _ v).mpr ⟨hv, hvreach, rfl⟩
    cases cands with
    | nil => cases hv'
    | cons c cands => exact hpick.some c cands

end Candidates

/-! ## Adding routes -/

/-- Every key that was seen has a route of its source and prefix. -/
def SeenBacked (table : RouteTable) : Prop :=
  ∀ key ∈ table.seen, ∃ r ∈ table.routes, r.source = key.1 ∧ r.uriPrefix = key.2.1

/-- How a table grows: the new routes are `Listed`, and every source has a route for every prefix
    that is `due` there. -/
structure Grows (Listed : Route → Prop) (due : ℕ → String → Prop) (table table' : RouteTable) :
    Prop where
  backed : SeenBacked table'
  kept : ∀ r ∈ table.routes, r ∈ table'.routes
  sound : ∀ r ∈ table'.routes, r ∈ table.routes ∨ Listed r
  complete : ∀ s p, due s p → ∃ r ∈ table'.routes, r.source = s ∧ r.uriPrefix = p

theorem Grows.refl {Listed : Route → Prop} {table : RouteTable} (h : SeenBacked table) :
    Grows Listed (fun _ _ => False) table table :=
  ⟨h, fun _ hr => hr, fun _ hr => .inl hr, fun _ _ hdue => hdue.elim⟩

theorem Grows.mono {Listed Listed' : Route → Prop} {due due' : ℕ → String → Prop}
    {table table' : RouteTable} (h : Grows Listed due table table')
    (hlisted : ∀ r, Listed r → Listed' r) (hdue : ∀ s p, due' s p → due s p) :
    Grows Listed' due' table table' :=
  ⟨h.backed, h.kept, fun r hr => (h.sound r hr).imp_right (hlisted r),
    fun s p hsp => h.complete s p (hdue s p hsp)⟩

theorem Grows.trans {Listed : Route → Prop} {due due' : ℕ → String → Prop}
    {table table' table'' : RouteTable} (h : Grows Listed due table table')
    (h' : Grows Listed due' table' table'') :
    Grows Listed (fun s p => due s p ∨ due' s p) table table'' where
  backed := h'.backed
  kept r hr := h'.kept r (h.kept r hr)
  sound r hr := by
    rcases h'.sound r hr with hr | hr
    · exact h.sound r hr
    · exact .inr hr
  complete s p hsp := by
    rcases hsp with hsp | hsp
    · obtain ⟨r, hr, hrs⟩ := h.complete s p hsp
      exact ⟨r, h'.kept r hr, hrs⟩
    · exact h'.complete s p hsp

/-- The routes a visit may list. -/
def VisitLists (meshLinks : List RawLink) (visit : Visit) (r : Route) : Prop :=
  r.source = visit.src ∧ r.uriPrefix = visit.uriPrefix ∧
    Nearer meshLinks visit.src visit.dest r.nextHop

/-- A way of adding one next hop that lists it, or has a route of its key already. -/
def AddsHop (rule : HopRule) (scheme : AddressingScheme) (tables : FibTables) : Prop :=
  ∀ {F : PyErr → Prop} {src nextHop : ℕ} (p : String) {table : RouteTable},
    Ends F (fun _ => True) (nextHopIp scheme tables src nextHop) → SeenBacked table →
    Ends F (Grows (fun r => r.source = src ∧ r.uriPrefix = p ∧ r.nextHop = nextHop)
      (fun s q => s = src ∧ q = p) table) (rule.add scheme tables src p table nextHop)

theorem grows_append {table : RouteTable} (r₀ : Route) {seen : List (ℕ × String × String)}
    (h : SeenBacked ⟨table.routes ++ [r₀], seen⟩) :
    Grows (fun r => r.source = r₀.source ∧ r.uriPrefix = r₀.uriPrefix ∧ r.nextHop = r₀.nextHop)
      (fun s q => s = r₀.source ∧ q = r₀.uriPrefix) table ⟨table.routes ++ [r₀], seen⟩ where
  backed := h
  kept r hr := List.mem_append_left _ hr
  sound r hr := by
    rcases List.mem_append.mp hr with hr | hr
    · exact .inl hr
    · cases List.mem_singleton.mp hr
      exact .inr ⟨rfl, rfl, rfl⟩
  complete s p hsp := by
    obtain ⟨rfl, rfl⟩ := hsp
    exact ⟨r₀, List.mem_append_right _ List.mem_cons_self, rfl, rfl⟩

theorem appendHop_adds (pick : List (ℕ × ℕ) → List ℕ) (scheme : AddressingScheme)
    (tables : FibTables) : AddsHop ⟨pick, appendHop⟩ scheme tables := by
  intro F src nextHop p table hip hbacked
  rcases hip.elim with ⟨ip, hip, -⟩ | ⟨err, hip, hF⟩
  · simp only [appendHop, hip]
    refine grows_append ⟨src, p, nextHop, ip⟩ fun key hkey => ?_
    obtain ⟨r, hr, hrkey⟩ := hbacked key hkey
    exact ⟨r, List.mem_append_left _ hr, hrkey⟩
  · simp only [appendHop, hip]
    exact hF

theorem addHop_adds (pick : List (ℕ × ℕ) → List ℕ) (scheme : AddressingScheme)
    (tables : FibTables) : AddsHop ⟨pick, addHop⟩ scheme tables := by
  intro F src nextHop p table hip hbacked
  rcases hip.elim with ⟨ip, hip, -⟩ | ⟨err, hip, hF⟩
  · simp only [addHop, hip]
    by_cases hseen : (src, p, ip) ∈ table.seen
    · rw [if_pos hseen]
      refine ⟨hbacked, fun _ hr => hr, fun _ hr => .inl hr, fun s q hsq => ?_⟩
      obtain ⟨rfl, rfl⟩ := hsq
      exact hbacked _ hseen
    · rw [if_neg hseen]
      refine grows_append ⟨src, p, nextHop, ip⟩ fun key hkey => ?_
      rcases List.mem_append.mp hkey with hkey | hkey
      · obtain ⟨r, hr, hrkey⟩ := hbacked key hkey
        exact ⟨r, List.mem_append_left _ hr, hrkey⟩
      · cases List.mem_singleton.mp hkey
        exact ⟨_, List.mem_append_right _ List.mem_cons_self, rfl, rfl⟩
  · simp only [addHop, hip]
    exact hF

/-- A route a visit may list, when next hops are as `Hop` says. -/
def ListsHop (Hop : ℕ → ℕ → ℕ → Prop) (visit : Visit) (r : Route) : Prop :=
  r.source = visit.src ∧ r.uriPrefix = visit.uriPrefix ∧ Hop visit.src visit.dest r.nextHop

/-- A choice of next hops: neighbours as `Hop` says, and some if the destination can be reached. -/
structure Picks (meshLinks : List RawLink) (tables : FibTables) (Hop : ℕ → ℕ → ℕ → Prop)
    (pick : List (ℕ × ℕ) → List ℕ) : Prop where
  adj : ∀ {src dest nh}, Hop src dest nh → (hostGraph meshLinks).Adj src nh
  picked : ∀ {src dest}, src < tables.hostNum → src ≠ dest →
    ∃ cands, candidates tables src dest = .ok cands ∧ (∀ nh ∈ pick cands, Hop src dest nh) ∧
      ((hostGraph meshLinks).Reachable src dest → pick cands ≠ [])

section Visits

variable {scheme : AddressingScheme} {meshLinks : List RawLink} {tables : FibTables}
  {rule : HopRule} (ht : Tabulates scheme meshLinks tables) (hadd : AddsHop rule scheme tables)
  {Hop : ℕ → ℕ → ℕ → Prop} (hpick : Picks meshLinks tables Hop rule.pick)
include ht hadd hpick

theorem addHops_grows (visit : Visit) :
    ∀ (hops : List ℕ) (table : RouteTable),
      (∀ nh ∈ hops, Hop visit.src visit.dest nh) → SeenBacked table →
      Ends (NoOctet tables.hostNum) (Grows (ListsHop Hop visit)
          (fun s p => hops ≠ [] ∧ s = visit.src ∧ p = visit.uriPrefix) table)
        (addHops rule scheme tables visit hops table) := by
  intro hops
  induction hops with
  | nil =>
    intro table _ hbacked
    exact (Grows.refl hbacked).mono (fun _ h => h) fun s p h => h.1 rfl
  | cons nh rest ih =>
    intro table hhops hbacked
    have hnh : Hop visit.src visit.dest nh := hhops nh List.mem_cons_self
    rcases (hadd visit.uriPrefix (ht.address (hpick.adj hnh)) hbacked).elim with
      ⟨t₁, ht₁, hg₁⟩ | ⟨err, herr, hF⟩
    · simp only [addHops, ht₁]
      have hg₁' : Grows (ListsHop Hop visit)
          (fun s p => s = visit.src ∧ p = visit.uriPrefix) table t₁ := by
        refine hg₁.mono (fun r hr => ?_) fun s p h => h
        obtain ⟨hsrc, hp, rfl⟩ := hr
        exact ⟨hsrc, hp, hnh⟩
      have hrest := ih t₁ (fun v hv => hhops v (List.mem_cons_of_mem _ hv)) hg₁.backed
      refine hrest.mono fun t₂ hg₂ => ?_
      exact (hg₁'.trans hg₂).mono (fun _ h => h) fun s p h => .inl h.2
    · simp only [addHops, herr]
      exact hF

theorem addRoutes_grows {visit : Visit} (hsrc : visit.src < tables.hostNum)
    (hne : visit.src ≠ visit.dest) {table : RouteTable} (hbacked : SeenBacked table) :
    Ends (NoOctet tables.hostNum) (Grows (ListsHop Hop visit)
        (fun s p => (hostGraph meshLinks).Reachable visit.src visit.dest ∧ s = visit.src ∧
          p = visit.uriPrefix) table)
      (addRoutes rule scheme tables visit table) := by
  obtain ⟨cands, hcands, hhops, hsome⟩ := hpick.picked hsrc hne
  simp only [addRoutes, hcands]
  refine (addHops_grows ht hadd hpick visit _ table hhops hbacked).mono fun table' hg => ?_
  refine hg.mono (fun _ h => h) ?_
  rintro s p ⟨hreach, hs, hp⟩
  exact ⟨hsome hreach, hs, hp⟩

/-- A run of visits lists next hops as `Hop` says only, and some for every visit whose destination
    can be reached. -/
theorem runVisits_grows :
    ∀ (visits : List Visit) (table : RouteTable),
      (∀ visit ∈ visits, visit.src < tables.hostNum ∧ visit.src ≠ visit.dest) → SeenBacked table →
      Ends (NoOctet tables.hostNum) (Grows (fun r => ∃ visit ∈ visits, ListsHop Hop visit r)
          (fun s p => ∃ visit ∈ visits, (hostGraph meshLinks).Reachable visit.src visit.dest ∧
            s = visit.src ∧ p = visit.uriPrefix) table)
        (runVisits rule scheme tables visits table) := by
  intro visits
  induction visits with
  | nil =>
    intro table _ hbacked
    refine (Grows.refl hbacked).mono (fun _ h => h) fun s p h => ?_
    obtain ⟨visit, hvisit, -⟩ := h
    cases hvisit
  | cons visit visits ih =>
    intro table hvisits hbacked
    obtain ⟨hsrc, hne⟩ := hvisits visit List.mem_cons_self
    rcases (addRoutes_grows ht hadd hpick hsrc hne hbacked).elim with
      ⟨t₁, ht₁, hg₁⟩ | ⟨err, herr, hF⟩
    · simp only [runVisits, ht₁]
      have hrest := ih t₁ (fun v hv => hvisits v (List.mem_cons_of_mem _ hv)) hg₁.backed
      refine hrest.mono fun t₂ hg₂ => ?_
      have hlisted₁ : ∀ r, ListsHop Hop visit r → ∃ v ∈ visit :: visits, ListsHop Hop v r :=
        fun r hr => ⟨visit, List.mem_cons_self, hr⟩
      have hlisted₂ : ∀ r, (∃ v ∈ visits, ListsHop Hop v r) →
          ∃ v ∈ visit :: visits, ListsHop Hop v r :=
        fun r hr => hr.imp fun v hv => ⟨List.mem_cons_of_mem _ hv.1, hv.2⟩
      have hg := (hg₁.mono hlisted₁ fun s p h => h).trans (hg₂.mono hlisted₂ fun s p h => h)
      refine hg.mono (fun _ h => h) fun s p h => ?_
      obtain ⟨v, hv, hdue⟩ := h
      rcases List.mem_cons.mp hv with rfl | hv
      · exact .inl hdue
      · exact .inr ⟨v, hv, hdue⟩
    · simp only [runVisits, herr]
      exact hF

end Visits

section Nearest

variable {scheme : AddressingScheme} {meshLinks : List RawLink} {tables : FibTables}
  {rule : HopRule} (ht : Tabulates scheme meshLinks tables) (hadd : AddsHop rule scheme tables)
include ht

/-- Of least candidates, the next hops are nearer. -/
theorem picks_nearer {pick : List (ℕ × ℕ) → List ℕ} (hpick : PicksLeast pick) :
    Picks meshLinks tables (Nearer meshLinks) pick where
  adj h := h.1
  picked hsrc hne := pick_spec ht hpick hsrc hne

include hadd

/-- A run of visits lists nearer next hops only, and some for every visit whose destination can
    be reached. -/
theorem runVisits_spec (hpick : PicksLeast rule.pick) :
    ∀ (visits : List Visit) (table : RouteTable),
      (∀ visit ∈ visits, visit.src < tables.hostNum ∧ visit.src ≠ visit.dest) → SeenBacked table →
      Ends (NoOctet tables.hostNum) (Grows (fun r => ∃ visit ∈ visits, VisitLists meshLinks visit r)
          (fun s p => ∃ visit ∈ visits, (hostGraph meshLinks).Reachable visit.src visit.dest ∧
            s = visit.src ∧ p = visit.uriPrefix) table)
        (runVisits rule scheme tables visits table) :=
  runVisits_grows ht hadd (picks_nearer ht hpick)

end Nearest

/-! ## The visits of a strategy -/

/-- The prefix is in exactly one of the two maps, for the host; or both maps are empty and it is
    the host's default prefix. -/
def Announced (hostNum : ℕ) (uriPublishers prefixRoutes : Dict String ℕ) (p : String) (d : ℕ) :
    Prop :=
  (uriPublishers.get? p = some d ∧ prefixRoutes.get? p = none) ∨
    (uriPublishers.get? p = none ∧ prefixRoutes.get? p = some d) ∨
    (uriPublishers = [] ∧ prefixRoutes = [] ∧ p = defaultPrefix d ∧ d < hostNum)

/-- Visits that send a prefix from every other host to its host, and to no other from there. -/
structure Serves (hostNum : ℕ) (visits : List Visit) (p : String) (d : ℕ) : Prop where
  towards : ∀ visit ∈ visits, visit.uriPrefix = p → visit.src ≠ d → visit.dest = d
  made : ∀ s < hostNum, s ≠ d → ⟨s, d, p⟩ ∈ visits

theorem mem_visitsTo {hostNum : ℕ} {entry : String × ℕ} {visit : Visit} :
    visit ∈ visitsTo hostNum entry ↔ visit.src < hostNum ∧ visit.src ≠ entry.2 ∧
      visit.dest = entry.2 ∧ visit.uriPrefix = entry.1 := by
  simp only [visitsTo, List.mem_map, List.mem_filter, List.mem_range, decide_eq_true_eq]
  constructor
  · rintro ⟨s, ⟨hs, hne⟩, rfl⟩
    exact ⟨hs, hne, rfl, rfl⟩
  · rintro ⟨hs, hne, hd, hp⟩
    refine ⟨visit.src, ⟨hs, hne⟩, ?_⟩
    rw [← hd, ← hp]

theorem mem_visitsFrom {hostNum : ℕ} {entry : String × ℕ} {visit : Visit} :
    visit ∈ visitsFrom hostNum entry ↔ visit.dest < hostNum ∧ visit.dest ≠ entry.2 ∧
      visit.src = entry.2 ∧ visit.uriPrefix = entry.1 := by
  simp only [visitsFrom, List.mem_map, List.mem_filter, List.mem_range, decide_eq_true_eq]
  constructor
  · rintro ⟨d, ⟨hd, hne⟩, rfl⟩
    exact ⟨hd, hne, rfl, rfl⟩
  · rintro ⟨hd, hne, hs, hp⟩
    refine ⟨visit.dest, ⟨hd, hne⟩, ?_⟩
    rw [← hs, ← hp]

theorem defaultPrefix_injective {a b : ℕ} (h : defaultPrefix a = defaultPrefix b) : a = b :=
  Nat.succ_injective (numbered_injective "ccnx:/test/example" h)

theorem mem_visitsDefault {hostNum : ℕ} {visit : Visit} :
    visit ∈ visitsDefault hostNum ↔ visit.src < hostNum ∧ visit.dest < hostNum ∧
      visit.src ≠ visit.dest ∧ visit.uriPrefix = defaultPrefix visit.dest := by
  simp only [visitsDefault, List.mem_flatMap, List.mem_map, List.mem_filter, List.mem_range,
    decide_eq_true_eq]
  constructor
  · rintro ⟨s, hs, d, ⟨hd, hne⟩, rfl⟩
    exact ⟨hs, hd, hne, rfl⟩
  · rintro ⟨hs, hd, hne, hp⟩
    refine ⟨visit.src, hs, visit.dest, ⟨hd, hne⟩, ?_⟩
    rw [← hp]

theorem serves_default {hostNum d : ℕ} (hd : d < hostNum) :
    Serves hostNum (visitsDefault hostNum) (defaultPrefix d) d where
  towards visit hvisit hp _ := by
    obtain ⟨-, -, -, hp'⟩ := mem_visitsDefault.mp hvisit
    exact defaultPrefix_injective (hp'.symm.trans hp)
  made s hs hne := mem_visitsDefault.mpr ⟨hs, hd, hne, rfl⟩

/-- The visits of one pass or the other, for the entries of the maps. -/
def FromEntries (hostNum : ℕ) (uriPublishers prefixRoutes : Dict String ℕ) (visit : Visit) : Prop :=
  (∃ entry ∈ uriPublishers ++ prefixRoutes, visit ∈ visitsTo hostNum entry) ∨
    ∃ entry ∈ uriPublishers, visit ∈ visitsFrom hostNum entry

theorem mem_visitsForUris {hostNum : ℕ} {uriPublishers prefixRoutes : Dict String ℕ}
    {visit : Visit} : visit ∈ visitsForUris hostNum uriPublishers prefixRoutes ↔
      FromEntries hostNum uriPublishers prefixRoutes visit := by
  simp only [visitsForUris, FromEntries, List.mem_append, List.mem_flatMap]
  constructor
  · rintro (⟨e, he, hv | hv⟩ | ⟨e, he, hv⟩)
    · exact .inl ⟨e, .inl he, hv⟩
    · exact .inr ⟨e, he, hv⟩
    · exact .inl ⟨e, .inr he, hv⟩
  · rintro (⟨e, he | he, hv⟩ | ⟨e, he, hv⟩)
    · exact .inl ⟨e, he, .inl hv⟩
    · exact .inr ⟨e, he, hv⟩
    · exact .inl ⟨e, he, .inr hv⟩

theorem mem_visitsEcmp {hostNum : ℕ} {uriPublishers prefixRoutes : Dict String ℕ} {visit : Visit}
    (hne : uriPublishers ≠ [] ∨ prefixRoutes ≠ []) :
    visit ∈ visitsEcmp hostNum uriPublishers prefixRoutes ↔
      FromEntries hostNum uriPublishers prefixRoutes visit := by
  simp only [visitsEcmp, if_pos hne, FromEntries, List.mem_append, List.mem_flatMap]
  constructor
  · rintro ((⟨e, he, hv⟩ | ⟨e, he, hv⟩) | ⟨e, he, hv⟩)
    · exact .inl ⟨e, .inl he, hv⟩
    · exact .inr ⟨e, he, hv⟩
    · exact .inl ⟨e, .inr he, hv⟩
  · rintro (⟨e, he | he, hv⟩ | ⟨e, he, hv⟩)
    · exact .inl (.inl ⟨e, he, hv⟩)
    · exact .inr ⟨e, he, hv⟩
    · exact .inl (.inr ⟨e, he, hv⟩)

/-- With nothing announced the multi-path strategy visits what `compute_fib` does. -/
theorem mem_visitsEcmp_nil {hostNum : ℕ} {visit : Visit} :
    visit ∈ visitsEcmp hostNum [] [] ↔ visit ∈ visitsDefault hostNum := by
  rw [mem_visitsDefault]
  simp only [visitsEcmp, ne_eq, not_true_eq_false, or_self, if_false, List.flatMap_nil,
    List.append_nil, List.mem_flatMap, List.mem_map, List.mem_range, mem_visitsTo]
  constructor
  · rintro ⟨-, ⟨d, hd, rfl⟩, hs, hne, hdest, hp⟩
    rw [hdest]
    exact ⟨hs, hd, hne, hp⟩
  · rintro ⟨hs, hd, hne, hp⟩
    exact ⟨_, ⟨visit.dest, hd, rfl⟩, hs, hne, rfl, hp⟩

/-- With nothing in the maps only default prefixes are announced. -/
theorem announced_default {hostNum : ℕ} {uriPublishers prefixRoutes : Dict String ℕ} {p : String}
    {d : ℕ} (hne : ¬ (uriPublishers ≠ [] ∨ prefixRoutes ≠ []))
    (h : Announced hostNum uriPublishers prefixRoutes p d) : p = defaultPrefix d ∧ d < hostNum := by
  rw [not_or, not_not, not_not] at hne
  obtain ⟨rfl, rfl⟩ := hne
  rcases h with ⟨h, -⟩ | ⟨-, h⟩ | ⟨-, -, hp, hd⟩
  · cases h
  · cases h
  · exact ⟨hp, hd⟩

section Entries

variable {hostNum : ℕ} {uriPublishers prefixRoutes : Dict String ℕ}
  (huri : (uriPublishers.map (·.1)).Nodup) (hpre : (prefixRoutes.map (·.1)).Nodup)
include huri hpre

/-- A prefix of the maps has one entry, and it names the prefix's host. -/
theorem announced_entry {p : String} {d : ℕ}
    (h : Announced hostNum uriPublishers prefixRoutes p d)
    (hne : uriPublishers ≠ [] ∨ prefixRoutes ≠ []) :
    (p, d) ∈ uriPublishers ++ prefixRoutes ∧
      ∀ entry ∈ uriPublishers ++ prefixRoutes, entry.1 = p → entry.2 = d := by
  rcases h with ⟨hget, hnone⟩ | ⟨hnone, hget⟩ | ⟨hnil, hnil', -⟩
  · refine ⟨List.mem_append_left _ (Dict.mem_of_get? hget), fun entry he hp => ?_⟩
    subst hp
    rcases List.mem_append.mp he with he | he
    · exact Dict.NodupKeys.eq_of_mem huri hget he
    · exact absurd rfl (Dict.get?_eq_none.mp hnone entry he)
  · refine ⟨List.mem_append_right _ (Dict.mem_of_get? hget), fun entry he hp => ?_⟩
    subst hp
    rcases List.mem_append.mp he with he | he
    · exact absurd rfl (Dict.get?_eq_none.mp hnone entry he)
    · exact Dict.NodupKeys.eq_of_mem hpre hget he
  · rcases hne with hne | hne
    · exact absurd hnil hne
    · exact absurd hnil' hne

theorem serves_fromEntries {p : String} {d : ℕ} {visits : List Visit}
    (h : Announced hostNum uriPublishers prefixRoutes p d)
    (hne : uriPublishers ≠ [] ∨ prefixRoutes ≠ [])
    (hvisits : ∀ visit, visit ∈ visits ↔ FromEntries hostNum uriPublishers prefixRoutes visit) :
    Serves hostNum visits p d := by
  obtain ⟨hmem, honly⟩ := announced_entry huri hpre h hne
  refine ⟨fun visit hvisit hp hsrc => ?_, fun s hs hsd => ?_⟩
  · rcases (hvisits visit).mp hvisit with ⟨e, he, hv⟩ | ⟨e, he, hv⟩
    · obtain ⟨-, -, hdest, hpe⟩ := mem_visitsTo.mp hv
      rw [hdest]
      exact honly e he (hpe.symm.trans hp)
    · -- the reverse routes are at the publisher, which is the prefix's host
      obtain ⟨-, -, hsrc', hpe⟩ := mem_visitsFrom.mp hv
      refine absurd ?_ hsrc
      rw [hsrc']
      exact honly e (List.mem_append_left _ he) (hpe.symm.trans hp)
  · exact (hvisits _).mpr (.inl ⟨(p, d), hmem, mem_visitsTo.mpr ⟨hs, hsd, rfl, rfl⟩⟩)

end Entries

/-- The hosts of the visits that the maps' entries make. -/
theorem fromEntries_range {hostNum : ℕ} {uriPublishers prefixRoutes : Dict String ℕ}
    (hrange : ∀ entry ∈ uriPublishers, entry.2 < hostNum) {visit : Visit}
    (h : FromEntries hostNum uriPublishers prefixRoutes visit) :
    visit.src < hostNum ∧ visit.src ≠ visit.dest := by
  rcases h with ⟨e, -, hv⟩ | ⟨e, he, hv⟩
  · obtain ⟨hs, hne, hd, -⟩ := mem_visitsTo.mp hv
    exact ⟨hs, hd ▸ hne⟩
  · obtain ⟨-, hne, hs, -⟩ := mem_visitsFrom.mp hv
    exact ⟨hs ▸ hrange e he, hs ▸ hne.symm⟩

theorem visitsDefault_range {hostNum : ℕ} {visit : Visit} (h : visit ∈ visitsDefault hostNum) :
    visit.src < hostNum ∧ visit.src ≠ visit.dest := by
  obtain ⟨hs, -, hne, -⟩ := mem_visitsDefault.mp h
  exact ⟨hs, hne⟩

/-! ## Delivery -/

/-- Whichever listed next hop each host takes, a packet for the prefix is at its host after this
    many hops, and on the way every host has one to take. -/
inductive Delivers (routes : List Route) (p : String) (dest : ℕ) : ℕ → ℕ → Prop where
  | here : Delivers routes p dest 0 dest
  | hop {hops src : ℕ} : src ≠ dest → (∃ r ∈ routes, r.source = src ∧ r.uriPrefix = p) →
      (∀ r ∈ routes, r.source = src → r.uriPrefix = p → Delivers routes p dest hops r.nextHop) →
      Delivers routes p dest (hops + 1) src

/-- What is wanted of the routes for a prefix and its host. -/
structure RoutesTo (meshLinks : List RawLink) (hostNum : ℕ) (routes : List Route) (p : String)
    (d : ℕ) : Prop where
  listed_iff : ∀ s < hostNum, s ≠ d →
    ((∃ r ∈ routes, r.source = s ∧ r.uriPrefix = p) ↔ (hostGraph meshLinks).Reachable s d)
  nearer : ∀ s < hostNum, s ≠ d → ∀ r ∈ routes, r.source = s → r.uriPrefix = p →
    Nearer meshLinks s d r.nextHop

section Computed

variable {scheme : AddressingScheme} {meshLinks : List RawLink} {hostNum : ℕ}

/-- Every packet follows such routes to its host. -/
theorem RoutesTo.delivers {routes : List Route} {p : String} {d : ℕ}
    (hrange : ∀ {a b}, (hostGraph meshLinks).Adj a b → b < hostNum)
    (h : RoutesTo meshLinks hostNum routes p d) :
    ∀ {hops s : ℕ}, s < hostNum → (hostGraph meshLinks).Reachable s d →
      (hostGraph meshLinks).dist s d = hops → Delivers routes p d hops s := by
  intro hops
  induction hops with
  | zero =>
    intro s hs hreach hdist
    rw [hreach.dist_eq_zero_iff] at hdist
    subst hdist
    exact .here
  | succ hops ih =>
    intro s hs hreach hdist
    have hne : s ≠ d := by
      rintro rfl
      rw [SimpleGraph.dist_self] at hdist
      omega
    refine .hop hne ((h.listed_iff s hs hne).mpr hreach) fun r hr hsrc hp => ?_
    obtain ⟨hadj, hreach', hdist'⟩ := h.nearer s hs hne r hr hsrc hp
    exact ih (hrange hadj) hreach' (by omega)

/-- How computing the routes of a rule ends. -/
def RoutesEnd (meshLinks : List RawLink) (hostNum : ℕ) (uriPublishers prefixRoutes : Dict String ℕ)
    (result : Except Fault (List Route)) : Prop :=
  Ends (fun fault => ∃ err, fault = .raised err ∧ NoOctet hostNum err)
    (fun routes => ∀ p d, Announced hostNum uriPublishers prefixRoutes p d →
      RoutesTo meshLinks hostNum routes p d) result

variable {uriPublishers prefixRoutes : Dict String ℕ} (hwf : WellFormedMesh meshLinks)
  (hn : hostCount (topologyLinks meshLinks) = .ok hostNum)
include hwf hn

/-- The routes of a rule that picks least candidates, for visits that serve each prefix. -/
theorem computeWith_spec {rule : HopRule} (hadd : ∀ tables, AddsHop rule scheme tables)
    (hpick : PicksLeast rule.pick) (visits : ℕ → List Visit)
    (hvisits : ∀ visit ∈ visits hostNum, visit.src < hostNum ∧ visit.src ≠ visit.dest)
    (hserves : ∀ p d, Announced hostNum uriPublishers prefixRoutes p d →
      Serves hostNum (visits hostNum) p d) :
    RoutesEnd meshLinks hostNum uriPublishers prefixRoutes
      (computeWith rule meshLinks scheme visits) := by
  obtain ⟨tables, htables, rfl, ht⟩ := fibTables_spec scheme hwf hn
  have hrun := runVisits_spec ht (hadd tables) hpick (visits tables.hostNum) ⟨[], []⟩ hvisits
    fun key hkey => by cases hkey
  rcases hrun.elim with ⟨table, htable, hg⟩ | ⟨err, herr, hF⟩
  swap
  · simp only [computeWith, htables, herr]
    exact ⟨err, rfl, hF⟩
  simp only [computeWith, htables, htable]
  intro p d hann
  have hserves := hserves p d hann
  have hnearer : ∀ s < tables.hostNum, s ≠ d → ∀ r ∈ table.routes, r.source = s →
      r.uriPrefix = p → Nearer meshLinks s d r.nextHop := by
    intro s hs hne r hr hsrc hp
    rcases hg.sound r hr with hr | ⟨visit, hvisit, hsrc', hp', hnear⟩
    · cases hr
    · have hsrc'' : visit.src = s := hsrc'.symm.trans hsrc
      rw [hserves.towards visit hvisit (hp'.symm.trans hp) (hsrc'' ▸ hne), hsrc''] at hnear
      exact hnear
  refine ⟨fun s hs hne => ⟨?_, fun hreach => ?_⟩, hnearer⟩
  · rintro ⟨r, hr, hsrc, hp⟩
    obtain ⟨hadj, hreach, -⟩ := hnearer s hs hne r hr hsrc hp
    exact hadj.reachable.trans hreach
  · exact hg.complete s p ⟨⟨s, d, p⟩, hserves.made s hs hne, hreach, rfl, rfl⟩

variable (hrange : ∀ entry ∈ uriPublishers ++ prefixRoutes, entry.2 < hostNum)
  (huri : (uriPublishers.map (·.1)).Nodup) (hpre : (prefixRoutes.map (·.1)).Nodup)
include hrange huri hpre

omit hwf hn huri hpre in
theorem publishers_range : ∀ entry ∈ uriPublishers, entry.2 < hostNum :=
  fun entry he => hrange entry (List.mem_append_left _ he)

theorem bestRoutes_spec : RoutesEnd meshLinks hostNum uriPublishers prefixRoutes
    (bestRoutes meshLinks 1 uriPublishers scheme prefixRoutes) := by
  by_cases hne : uriPublishers ≠ [] ∨ prefixRoutes ≠ []
  · rw [bestRoutes, if_pos hne, computeFibForUris]
    refine computeWith_spec hwf hn (addHop_adds _ scheme) pickBest_least _ (fun visit hv => ?_)
      fun p d hann => ?_
    · exact fromEntries_range (publishers_range hrange) (mem_visitsForUris.mp hv)
    · exact serves_fromEntries huri hpre hann hne fun _ => mem_visitsForUris
  · rw [bestRoutes, if_neg hne, computeFib]
    refine computeWith_spec hwf hn (appendHop_adds _ scheme) pickBest_least _
      (fun visit hv => visitsDefault_range hv) fun p d hann => ?_
    obtain ⟨rfl, hd⟩ := announced_default hne hann
    exact serves_default hd

theorem ecmpRoutes_spec (kPaths : ℤ) : RoutesEnd meshLinks hostNum uriPublishers prefixRoutes
    (RoutingStrategy.ecmp.computeRoutes meshLinks kPaths uriPublishers scheme prefixRoutes) := by
  rw [RoutingStrategy.computeRoutes]
  by_cases hne : uriPublishers ≠ [] ∨ prefixRoutes ≠ []
  · refine computeWith_spec hwf hn (addHop_adds _ scheme) pickEqualCost_least _ (fun visit hv => ?_)
      fun p d hann => ?_
    · exact fromEntries_range (publishers_range hrange) ((mem_visitsEcmp hne).mp hv)
    · exact serves_fromEntries huri hpre hann hne fun _ => mem_visitsEcmp hne
  · have hnil : uriPublishers = [] ∧ prefixRoutes = [] := by
      rwa [not_or, not_not, not_not] at hne
    obtain ⟨rfl, rfl⟩ := hnil
    refine computeWith_spec hwf hn (addHop_adds _ scheme) pickEqualCost_least _ (fun visit hv => ?_)
      fun p d hann => ?_
    · exact visitsDefault_range (mem_visitsEcmp_nil.mp hv)
    · obtain ⟨rfl, hd⟩ := announced_default hne hann
      obtain ⟨htowards, hmade⟩ := serves_default hd
      exact ⟨fun v hv => htowards v (mem_visitsEcmp_nil.mp hv),
        fun s hs hsd => mem_visitsEcmp_nil.mpr (hmade s hs hsd)⟩

end Computed

/-- **The FIB delivers without loops.** For every well-formed topology and every two maps of its
    hosts, the single-path and the equal-cost strategy compute routes (unless a host index has no
    address, and `host_ip` raises), and for every prefix that is announced once: a host has a route
    for it exactly when the prefix's host can be reached, each next hop it lists is one step
    nearer, and whichever is taken at each host, a packet arrives after as many hops as the
    distance. -/
theorem fib_delivers {scheme : AddressingScheme} {meshLinks : List RawLink} {hostNum : ℕ}
    {uriPublishers prefixRoutes : Dict String ℕ} (hwf : WellFormedMesh meshLinks)
    (hn : hostCount (topologyLinks meshLinks) = .ok hostNum)
    (hrange : ∀ entry ∈ uriPublishers ++ prefixRoutes, entry.2 < hostNum)
    (huri : (uriPublishers.map (·.1)).Nodup) (hpre : (prefixRoutes.map (·.1)).Nodup)
    {strategy : RoutingStrategy} (hstrategy : strategy = .shortestPath ∨ strategy = .ecmp)
    (kPaths : ℤ) :
    (∃ routes,
      strategy.computeRoutes meshLinks kPaths uriPublishers scheme prefixRoutes = .ok routes ∧
      ∀ p d, Announced hostNum uriPublishers prefixRoutes p d → ∀ s < hostNum, s ≠ d →
        ((∃ r ∈ routes, r.source = s ∧ r.uriPrefix = p) ↔ (hostGraph meshLinks).Reachable s d) ∧
        (∀ r ∈ routes, r.source = s → r.uriPrefix = p → (hostGraph meshLinks).Adj s r.nextHop ∧
          (hostGraph meshLinks).dist r.nextHop d + 1 = (hostGraph meshLinks).dist s d) ∧
        ((hostGraph meshLinks).Reachable s d →
          Delivers routes p d ((hostGraph meshLinks).dist s d) s)) ∨
    (254 < hostNum ∧ ∃ msg,
      strategy.computeRoutes meshLinks kPaths uriPublishers scheme prefixRoutes
        = .error (.raised (.valueError msg))) := by
  have hend : RoutesEnd meshLinks hostNum uriPublishers prefixRoutes
      (strategy.computeRoutes meshLinks kPaths uriPublishers scheme prefixRoutes) := by
    rcases hstrategy with rfl | rfl
    · exact bestRoutes_spec hwf hn hrange huri hpre
    · exact ecmpRoutes_spec hwf hn hrange huri hpre kPaths
  rcases hend.elim with ⟨routes, hroutes, hto⟩ | ⟨_, herr, _, rfl, hmany, msg, rfl⟩
  · refine .inl ⟨routes, hroutes, fun p d hann s hs hne => ?_⟩
    have h := hto p d hann
    refine ⟨h.listed_iff s hs hne, fun r hr hsrc hp => ?_, fun hreach => ?_⟩
    · obtain ⟨hadj, -, hdist⟩ := h.nearer s hs hne r hr hsrc hp
      exact ⟨hadj, hdist⟩
    · refine h.delivers (fun hab => ?_) hs hreach rfl
      obtain ⟨-, raw, hraw, -, hb⟩ := hab
      exact hwf.host_lt hn hraw hb
  · exact .inr ⟨hmany, msg, herr⟩

/-- A triangle of two-host links with a tail, one publisher and one announced prefix. -/
def tailedTriangle : List RawLink :=
  [.multi (some "s0") (some 1) [0, 1] [(0, 0), (1, 0)],
    .pointToPoint (some "s1") (some 2) 1 2 (some 1) (some 0),
    .multi (some "s2") (some 3) [2, 0] [(2, 1), (0, 1)],
    .multi (some "s3") (some 4) [3, 2] [(3, 0), (2, 2)]]

theorem tailedTriangle_wellFormed : WellFormedMesh tailedTriangle := by
  intro raw hraw
  fin_cases hraw
  · exact ⟨by decide, by decide, 1, by decide⟩
  · exact ⟨by decide, by decide, 2, by decide⟩
  · exact ⟨by decide, by decide, 3, by decide⟩
  · exact ⟨by decide, by decide, 4, by decide⟩

theorem fib_delivers_tailedTriangle : ∃ routes,
    RoutingStrategy.ecmp.computeRoutes tailedTriangle 2 [("ccnx:/a", 0)] .default [("ccnx:/b", 3)]
      = .ok routes ∧ Delivers routes "ccnx:/a" 0 ((hostGraph tailedTriangle).dist 3 0) 3 := by
  rcases @fib_delivers .default tailedTriangle 4 [("ccnx:/a", 0)] [("ccnx:/b", 3)]
    tailedTriangle_wellFormed (by decide) (by decide) (by decide) (by decide) .ecmp (.inr rfl) 2
    with ⟨routes, hroutes, h⟩ | ⟨hmany, -⟩
  · refine ⟨routes, hroutes, (h "ccnx:/a" 0 (.inl ⟨by decide, by decide⟩) 3 (by decide)
      (by decide)).2.2 ?_⟩
    have h32 : (hostGraph tailedTriangle).Adj 3 2 :=
      ⟨by decide, _, List.mem_of_getElem? (i := 3) rfl, by decide, by decide⟩
    have h20 : (hostGraph tailedTriangle).Adj 2 0 :=
      ⟨by decide, _, List.mem_of_getElem? (i := 2) rfl, by decide, by decide⟩
    exact h32.reachable.trans h20.reachable
  · exact absurd hmany (by decide)

end Proof
end CeforeEmu
