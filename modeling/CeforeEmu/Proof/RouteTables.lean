import CeforeEmu.Lib.Dedup
import CeforeEmu.Proof.Addresses
import CeforeEmu.Proof.Forwarding

/-!
# What a strategy returns

The routes of a strategy in closed form. Every visit offers a route for each next hop it picks
(`offers`), and the loops append what is offered unless its key was seen. The key has the address
in the host's place; but an address ends in its host, so the key names the route, and what comes
out is the list of everything that was offered, each route once and where it came first
(`runVisits_gathers`). `compute_fib` keeps no keys and appends all of it.

A next hop without an address makes the whole computation raise, wherever it is offered.
-/

set_option autoImplicit false

namespace CeforeEmu
namespace Proof

open CeforeEmu.Lib CeforeEmu.Core

/-! ## Routes and their keys -/

/-- The key of a route in `seen`. -/
def routeKey (r : Route) : ℕ × String × String := (r.source, r.uriPrefix, r.nextHopIp)

/-- The route has the address of its next hop. -/
def Genuine (scheme : AddressingScheme) (tables : FibTables) (r : Route) : Prop :=
  nextHopIp scheme tables r.source r.nextHop = .ok r.nextHopIp

theorem nextHopIp_hostIp {scheme : AddressingScheme} {tables : FibTables} {src nh : ℕ} {ip : String}
    (h : nextHopIp scheme tables src nh = .ok ip) : ∃ subnet, scheme.hostIp subnet nh = .ok ip := by
  rw [nextHopIp] at h
  split at h
  · cases h
  · cases h
  · exact ⟨_, h⟩

theorem Genuine.eq_of_key {scheme : AddressingScheme} {tables : FibTables} {r r' : Route}
    (h : Genuine scheme tables r) (h' : Genuine scheme tables r') (hkey : routeKey r = routeKey r') :
    r = r' := by
  obtain ⟨subnet, hr⟩ := nextHopIp_hostIp h
  obtain ⟨subnet', hr'⟩ := nextHopIp_hostIp h'
  obtain ⟨s, p, nh, ip⟩ := r
  obtain ⟨s', p', nh', ip'⟩ := r'
  simp only [routeKey, Prod.mk.injEq] at hkey
  obtain ⟨rfl, rfl, rfl⟩ := hkey
  cases (hostIp_injective hr hr').2
  rfl

/-! ## What a visit offers -/

/-- The next hops of `_add_routes` and its like. -/
def hopsOf (pick : List (ℕ × ℕ) → List ℕ) (tables : FibTables) (src dest : ℕ) : List ℕ :=
  match candidates tables src dest with
  | .ok cands => pick cands
  | .error _ => []

def addressOf (scheme : AddressingScheme) (tables : FibTables) (src nh : ℕ) : String :=
  match nextHopIp scheme tables src nh with
  | .ok ip => ip
  | .error _ => ""

def routeVia (scheme : AddressingScheme) (tables : FibTables) (visit : Visit) (nh : ℕ) : Route :=
  ⟨visit.src, visit.uriPrefix, nh, addressOf scheme tables visit.src nh⟩

def offers (pick : List (ℕ × ℕ) → List ℕ) (scheme : AddressingScheme) (tables : FibTables)
    (visit : Visit) : List Route :=
  (hopsOf pick tables visit.src visit.dest).map (routeVia scheme tables visit)

/-- Every next hop of the visits has an address. -/
def AllAddressed (pick : List (ℕ × ℕ) → List ℕ) (scheme : AddressingScheme) (tables : FibTables)
    (visits : List Visit) : Prop :=
  ∀ visit ∈ visits, ∀ nh ∈ hopsOf pick tables visit.src visit.dest,
    ∃ ip, nextHopIp scheme tables visit.src nh = .ok ip

variable {scheme : AddressingScheme} {tables : FibTables} {pick : List (ℕ × ℕ) → List ℕ}

theorem addressOf_eq {src nh : ℕ} {ip : String} (h : nextHopIp scheme tables src nh = .ok ip) :
    addressOf scheme tables src nh = ip := by
  rw [addressOf, h]

theorem genuine_routeVia {visit : Visit} {nh : ℕ} {ip : String}
    (h : nextHopIp scheme tables visit.src nh = .ok ip) :
    Genuine scheme tables (routeVia scheme tables visit nh) := by
  rw [Genuine, routeVia, addressOf_eq h]
  exact h

/-! ## Adding what is offered -/

/-- The table after these routes were offered, in this order. -/
structure Gathered (scheme : AddressingScheme) (tables : FibTables) (offered : List Route)
    (table : RouteTable) : Prop where
  genuine : ∀ r ∈ offered, Genuine scheme tables r
  seen : ∀ key, key ∈ table.seen ↔ ∃ r ∈ offered, routeKey r = key
  routes : table.routes = offered.eraseDups

/-- The routes after these were offered, when no keys are kept. -/
structure Appended (scheme : AddressingScheme) (tables : FibTables) (offered : List Route)
    (table : RouteTable) : Prop where
  genuine : ∀ r ∈ offered, Genuine scheme tables r
  routes : table.routes = offered

/-- A way of adding next hops that keeps a relation between what was offered and the table. -/
def Keeps (rule : HopRule) (scheme : AddressingScheme) (tables : FibTables)
    (R : List Route → RouteTable → Prop) : Prop :=
  ∀ {offered : List Route} {table : RouteTable} {visit : Visit} {nh : ℕ} {ip : String},
    nextHopIp scheme tables visit.src nh = .ok ip → R offered table →
    ∃ table', rule.add scheme tables visit.src visit.uriPrefix table nh = .ok table' ∧
      R (offered ++ [routeVia scheme tables visit nh]) table'

/-- A next hop without an address is not added. -/
def Raises (rule : HopRule) (scheme : AddressingScheme) (tables : FibTables) : Prop :=
  ∀ {table : RouteTable} {src nh : ℕ} {p : String} {err : PyErr},
    nextHopIp scheme tables src nh = .error err →
    rule.add scheme tables src p table nh = .error err

theorem genuine_concat {offered : List Route} {visit : Visit} {nh : ℕ} {ip : String}
    (hip : nextHopIp scheme tables visit.src nh = .ok ip)
    (h : ∀ r ∈ offered, Genuine scheme tables r) :
    ∀ r ∈ offered ++ [routeVia scheme tables visit nh], Genuine scheme tables r := by
  intro r hr
  rcases List.mem_append.mp hr with hr | hr
  · exact h r hr
  · rw [List.mem_singleton.mp hr]
    exact genuine_routeVia hip

theorem addHop_keeps : Keeps ⟨pick, addHop⟩ scheme tables (Gathered scheme tables) := by
  intro offered table visit nh ip hip h
  have hr : routeVia scheme tables visit nh = ⟨visit.src, visit.uriPrefix, nh, ip⟩ := by
    rw [routeVia, addressOf_eq hip]
  have hgenuine := genuine_concat hip h.genuine
  -- the key was seen exactly when the route was offered
  have hseen : (visit.src, visit.uriPrefix, ip) ∈ table.seen ↔
      routeVia scheme tables visit nh ∈ offered := by
    rw [h.seen, hr]
    constructor
    · rintro ⟨r, hmem, hkey⟩
      have hsame : r = ⟨visit.src, visit.uriPrefix, nh, ip⟩ :=
        (h.genuine r hmem).eq_of_key (hr ▸ genuine_routeVia hip) hkey
      exact hsame ▸ hmem
    · exact fun hmem => ⟨_, hmem, rfl⟩
  simp only [addHop, hip]
  by_cases hmem : routeVia scheme tables visit nh ∈ offered
  · rw [if_pos (hseen.mpr hmem)]
    refine ⟨table, rfl, hgenuine, fun key => ?_, ?_⟩
    · rw [h.seen]
      constructor
      · rintro ⟨r, hr, hkey⟩
        exact ⟨r, List.mem_append_left _ hr, hkey⟩
      · rintro ⟨r, hr, hkey⟩
        rcases List.mem_append.mp hr with hr | hr
        · exact ⟨r, hr, hkey⟩
        · exact ⟨r, List.mem_singleton.mp hr ▸ hmem, hkey⟩
    · rw [eraseDups_concat, if_pos hmem, h.routes]
  · rw [if_neg fun hin => hmem (hseen.mp hin)]
    refine ⟨_, rfl, hgenuine, fun key => ?_, ?_⟩
    · rw [List.mem_append, h.seen, List.mem_singleton]
      constructor
      · rintro (⟨r, hr, hkey⟩ | rfl)
        · exact ⟨r, List.mem_append_left _ hr, hkey⟩
        · exact ⟨_, List.mem_append_right _ List.mem_cons_self, by rw [hr, routeKey]⟩
      · rintro ⟨r, hr', rfl⟩
        rcases List.mem_append.mp hr' with hr' | hr'
        · exact .inl ⟨r, hr', rfl⟩
        · rw [List.mem_singleton.mp hr', hr]
          exact .inr rfl
    · rw [eraseDups_concat, if_neg hmem, h.routes, hr]

theorem addHop_raises : Raises ⟨pick, addHop⟩ scheme tables := by
  intro table src nh p err h
  simp only [addHop, h]

theorem appendHop_keeps : Keeps ⟨pick, appendHop⟩ scheme tables (Appended scheme tables) := by
  intro offered table visit nh ip hip h
  simp only [appendHop, hip]
  refine ⟨_, rfl, genuine_concat hip h.genuine, ?_⟩
  rw [h.routes, routeVia, addressOf_eq hip]

theorem appendHop_raises : Raises ⟨pick, appendHop⟩ scheme tables := by
  intro table src nh p err h
  simp only [appendHop, h]

section Run

variable {rule : HopRule} {R : List Route → RouteTable → Prop} (hkeeps : Keeps rule scheme tables R)
  (hraises : Raises rule scheme tables)
include hkeeps hraises

theorem addHops_gathers (visit : Visit) (hops : List ℕ) :
    ∀ {offered : List Route} {table : RouteTable}, R offered table →
      Ends (fun err => ∃ nh ∈ hops, nextHopIp scheme tables visit.src nh = .error err)
        (fun table' => R (offered ++ hops.map (routeVia scheme tables visit)) table' ∧
          ∀ nh ∈ hops, ∃ ip, nextHopIp scheme tables visit.src nh = .ok ip)
        (addHops rule scheme tables visit hops table) := by
  induction hops with
  | nil =>
    intro offered table h
    rw [List.map_nil, List.append_nil]
    exact ⟨h, fun nh hnh => by cases hnh⟩
  | cons nh hops ih =>
    intro offered table h
    cases hip : nextHopIp scheme tables visit.src nh with
    | error err =>
      simp only [addHops, hraises hip]
      exact ⟨nh, List.mem_cons_self, hip⟩
    | ok ip =>
      obtain ⟨table₁, htable₁, h₁⟩ := hkeeps hip h
      simp only [addHops, htable₁]
      rcases (ih h₁).elim with ⟨table', htable', h', haddr⟩ | ⟨err, herr, nh', hnh', hip'⟩
      · rw [htable']
        refine ⟨?_, fun nh' hnh' => ?_⟩
        · rwa [List.map_cons, List.append_cons]
        · rcases List.mem_cons.mp hnh' with rfl | hnh'
          · exact ⟨ip, hip⟩
          · exact haddr nh' hnh'
      · rw [herr]
        exact ⟨nh', List.mem_cons_of_mem _ hnh', hip'⟩

/-- **A run of visits** gathers what they offer, in their order, or stops at a next hop without an
    address. -/
theorem runVisits_gathers (visits : List Visit)
    (hvisits : ∀ visit ∈ visits, ∃ cands, candidates tables visit.src visit.dest = .ok cands) :
    ∀ {offered : List Route} {table : RouteTable}, R offered table →
      Ends (fun err => ∃ visit ∈ visits, ∃ nh ∈ hopsOf rule.pick tables visit.src visit.dest,
          nextHopIp scheme tables visit.src nh = .error err)
        (fun table' => R (offered ++ visits.flatMap (offers rule.pick scheme tables)) table' ∧
          AllAddressed rule.pick scheme tables visits)
        (runVisits rule scheme tables visits table) := by
  induction visits with
  | nil =>
    intro offered table h
    rw [List.flatMap_nil, List.append_nil]
    exact ⟨h, fun visit hvisit => by cases hvisit⟩
  | cons visit visits ih =>
    intro offered table h
    obtain ⟨cands, hcands⟩ := hvisits visit List.mem_cons_self
    have hhops : hopsOf rule.pick tables visit.src visit.dest = rule.pick cands := by
      rw [hopsOf, hcands]
    have hfirst := addHops_gathers hkeeps hraises visit (rule.pick cands) h
    simp only [runVisits, addRoutes, hcands]
    rcases hfirst.elim with ⟨table₁, htable₁, h₁, haddr₁⟩ | ⟨err, herr, nh, hnh, hip⟩
    · rw [htable₁]
      have hrest := ih (fun v hv => hvisits v (List.mem_cons_of_mem _ hv)) h₁
      rcases hrest.elim with ⟨table', htable', h', haddr⟩ | ⟨err, herr, v, hv, hip⟩
      · simp only [htable']
        refine ⟨?_, fun v hv => ?_⟩
        · rw [List.flatMap_cons, offers, hhops, ← List.append_assoc]
          exact h'
        · rcases List.mem_cons.mp hv with rfl | hv
          · rw [hhops]
            exact haddr₁
          · exact haddr v hv
      · simp only [herr]
        exact ⟨v, List.mem_cons_of_mem _ hv, hip⟩
    · rw [herr]
      exact ⟨visit, List.mem_cons_self, nh, hhops ▸ hnh, hip⟩

end Run

/-! ## The routes -/

/-- A choice among candidates. -/
def PicksFrom (pick : List (ℕ × ℕ) → List ℕ) : Prop :=
  ∀ {cands : List (ℕ × ℕ)}, (pick cands).Sublist (cands.map (·.2))

theorem pickBest_from (k : ℤ) : PicksFrom (pickBest k) :=
  (List.take_sublist _ _).map _

theorem pickEqualCost_from : PicksFrom pickEqualCost := by
  intro cands
  cases cands with
  | nil => exact List.Sublist.refl _
  | cons c cands => exact (List.takeWhile_sublist _).map _

/-- How a strategy fails: a next hop of these visits has no address. -/
def Unaddressed (pick : List (ℕ × ℕ) → List ℕ) (scheme : AddressingScheme) (tables : FibTables)
    (visits : List Visit) (fault : Fault) : Prop :=
  (254 < tables.hostNum ∧ ∃ msg, fault = .raised (.valueError msg)) ∧
    ¬ AllAddressed pick scheme tables visits

section Computed

variable {meshLinks : List RawLink} (ht : Tabulates scheme meshLinks tables)
include ht

theorem mem_hopsOf (hpick : PicksFrom pick) {src dest nh : ℕ} (hsrc : src < tables.hostNum)
    (h : nh ∈ hopsOf pick tables src dest) :
    (hostGraph meshLinks).Adj src nh ∧ (hostGraph meshLinks).Reachable nh dest := by
  obtain ⟨cands, hcands, -, hmem⟩ := candidates_spec ht hsrc dest
  rw [hopsOf, hcands] at h
  obtain ⟨⟨c, v⟩, hc, rfl⟩ := List.mem_map.mp (hpick.subset h)
  obtain ⟨hadj, hreach, -⟩ := (hmem c v).mp hc
  exact ⟨hadj, hreach⟩

/-- Only hosts have next hops. -/
theorem lt_of_mem_hopsOf {src dest nh : ℕ} (h : nh ∈ hopsOf pick tables src dest) :
    src < tables.hostNum := by
  rw [← ht.node]
  cases hget : tables.graph.get? src with
  | none =>
    rw [hopsOf, candidates, hget] at h
    cases h
  | some nbrs => rfl

variable (htables : fibTables meshLinks = .ok tables)
include htables

/-- **The routes of a strategy**: what its visits offer, gathered, unless a next hop of one of them
    has no address. -/
theorem computeWith_gathers (rule : HopRule) {R : List Route → RouteTable → Prop}
    (hkeeps : Keeps rule scheme tables R) (hraises : Raises rule scheme tables)
    (hstart : R [] ⟨[], []⟩) (hpick : PicksFrom rule.pick) (visits : ℕ → List Visit)
    (hvisits : ∀ visit ∈ visits tables.hostNum, visit.src < tables.hostNum) :
    Ends (Unaddressed rule.pick scheme tables (visits tables.hostNum))
      (fun routes => AllAddressed rule.pick scheme tables (visits tables.hostNum) ∧
        ∃ table : RouteTable, table.routes = routes ∧
          R ((visits tables.hostNum).flatMap (offers rule.pick scheme tables)) table)
      (computeWith rule meshLinks scheme visits) := by
  have hcands : ∀ visit ∈ visits tables.hostNum,
      ∃ cands, candidates tables visit.src visit.dest = .ok cands := by
    intro visit hvisit
    obtain ⟨cands, hcands, -⟩ := candidates_spec ht (hvisits visit hvisit) visit.dest
    exact ⟨cands, hcands⟩
  have hrun := runVisits_gathers hkeeps hraises (visits tables.hostNum) hcands hstart
  rw [List.nil_append] at hrun
  rcases hrun.elim with ⟨table, htable, hR, haddr⟩ | ⟨err, herr, visit, hvisit, nh, hnh, hip⟩
  · simp only [computeWith, htables, htable]
    exact ⟨haddr, table, rfl, hR⟩
  · simp only [computeWith, htables, herr]
    refine ⟨?_, fun haddr => ?_⟩
    · have hadj := (mem_hopsOf ht hpick (hvisits visit hvisit) hnh).1
      have hends := ht.address hadj
      rw [hip] at hends
      exact ⟨hends.1, hends.2.imp fun msg hmsg => by rw [hmsg]⟩
    · obtain ⟨ip, hip'⟩ := haddr visit hvisit nh hnh
      rw [hip] at hip'
      cases hip'

end Computed

theorem gathered_nil : Gathered scheme tables [] ⟨[], []⟩ :=
  ⟨fun r hr => (by cases hr), fun key => by simp, rfl⟩

theorem appended_nil : Appended scheme tables [] ⟨[], []⟩ := ⟨fun r hr => (by cases hr), rfl⟩

theorem mem_offered {visits : List Visit} {r : Route} :
    r ∈ visits.flatMap (offers pick scheme tables) ↔ ∃ visit ∈ visits,
      ∃ n ∈ hopsOf pick tables visit.src visit.dest, routeVia scheme tables visit n = r := by
  rw [List.mem_flatMap]
  simp only [offers, List.mem_map]

/-- What a strategy returns for these visits: the routes they offer, each once. -/
structure Collects (pick : List (ℕ × ℕ) → List ℕ) (scheme : AddressingScheme) (tables : FibTables)
    (visits : List Visit) (routes : List Route) : Prop where
  addressed : AllAddressed pick scheme tables visits
  genuine : ∀ r ∈ routes, Genuine scheme tables r
  nodup : routes.Nodup
  mem : ∀ r, r ∈ routes ↔ ∃ visit ∈ visits,
    ∃ n ∈ hopsOf pick tables visit.src visit.dest, routeVia scheme tables visit n = r

section Strategies

variable {meshLinks : List RawLink} (ht : Tabulates scheme meshLinks tables)
  (htables : fibTables meshLinks = .ok tables)
include ht htables

/-- A strategy that keeps keys. -/
theorem gathers_ends (hpick : PicksFrom pick) (visits : ℕ → List Visit)
    (hvisits : ∀ visit ∈ visits tables.hostNum, visit.src < tables.hostNum) :
    Ends (Unaddressed pick scheme tables (visits tables.hostNum))
      (fun routes => Collects pick scheme tables (visits tables.hostNum) routes ∧
        routes = ((visits tables.hostNum).flatMap (offers pick scheme tables)).eraseDups)
      (computeWith ⟨pick, addHop⟩ meshLinks scheme visits) := by
  have hends := computeWith_gathers ht htables ⟨pick, addHop⟩ addHop_keeps addHop_raises
    gathered_nil hpick visits hvisits
  refine hends.mono ?_
  rintro routes ⟨haddr, table, rfl, h⟩
  refine ⟨⟨haddr, fun r hr => h.genuine r ?_, ?_, fun r => ?_⟩, h.routes⟩
  · rw [h.routes] at hr
    exact List.mem_eraseDups.mp hr
  · rw [h.routes]
    exact eraseDups_nodup _
  · rw [h.routes, List.mem_eraseDups, mem_offered]

/-- One that keeps none, when no route is offered twice. -/
theorem appends_ends (hpick : PicksFrom pick) (visits : ℕ → List Visit)
    (hvisits : ∀ visit ∈ visits tables.hostNum, visit.src < tables.hostNum)
    (hnodup : ((visits tables.hostNum).flatMap (offers pick scheme tables)).Nodup) :
    Ends (Unaddressed pick scheme tables (visits tables.hostNum))
      (Collects pick scheme tables (visits tables.hostNum))
      (computeWith ⟨pick, appendHop⟩ meshLinks scheme visits) := by
  have hends := computeWith_gathers ht htables ⟨pick, appendHop⟩ appendHop_keeps
    appendHop_raises appended_nil hpick visits hvisits
  refine hends.mono ?_
  rintro routes ⟨haddr, table, rfl, h⟩
  refine ⟨haddr, ?_, ?_, fun r => ?_⟩
  · rw [h.routes]
    exact h.genuine
  · rw [h.routes]
    exact hnodup
  · rw [h.routes, mem_offered]

end Strategies

end Proof
end CeforeEmu
