import Mathlib.Data.Set.List
import CeforeEmu.Core.LinkRules
import CeforeEmu.Proof.Forwarding
import CeforeEmu.Runtime.Wiring

/-!
# An accepted explicit topology can be built and routed

`ExplicitLinksTopo` does not look at the list it is given, and what comes after it (addresses,
peers, routes) expects every host to be attached and every index to have an address. All of it is
in what `_validate_links` checks: `AcceptedPairs` is what is left of a list it has nothing against,
and everything downstream is proved from that.

The connectivity check is a search, so what it asks is that every host can be reached from host 0
(`connectedHosts_spec`); it looks up hosts that are in range only, and does not raise
(`linksErrors_returns`).
-/

set_option autoImplicit false

namespace CeforeEmu
namespace Proof

open CeforeEmu.Lib CeforeEmu.Core CeforeEmu.Runtime

/-! ## The connectivity check -/

/-- The two are a pair of the list, one way round or the other. -/
def Linked {α : Type} (pairs : List (α × α)) (a b : α) : Prop := (a, b) ∈ pairs ∨ (b, a) ∈ pairs

theorem linked_cons {α : Type} {p : α × α} {pairs : List (α × α)} {a b : α} :
    Linked (p :: pairs) a b ↔ ((a = p.1 ∧ b = p.2) ∨ (a = p.2 ∧ b = p.1)) ∨ Linked pairs a b := by
  obtain ⟨x, y⟩ := p
  simp only [Linked, List.mem_cons, Prod.mk.injEq]
  constructor
  · rintro ((h | h) | (⟨hb, ha⟩ | h))
    · exact .inl (.inl h)
    · exact .inr (.inl h)
    · exact .inl (.inr ⟨ha, hb⟩)
    · exact .inr (.inr h)
  · rintro ((h | ⟨ha, hb⟩) | (h | h))
    · exact .inl (.inl h)
    · exact .inr (.inl ⟨hb, ha⟩)
    · exact .inl (.inr h)
    · exact .inr (.inr h)

theorem addEdge_spec {graph : Dict ℤ (List ℤ)} {a : ℤ} (b : ℤ) (ha : (graph.get? a).isSome) :
    ∃ graph', addEdge graph a b = .ok graph' ∧
      (∀ v, (graph'.get? v).isSome ↔ (graph.get? v).isSome) ∧
      ∀ v u, graph'.Edge v u ↔ graph.Edge v u ∨ (v = a ∧ u = b) := by
  obtain ⟨nbrs, hnbrs⟩ := Option.isSome_iff_exists.mp ha
  have hadd : addEdge graph a b = .ok (graph.set a (if b ∈ nbrs then nbrs else nbrs ++ [b])) := by
    simp only [addEdge, hnbrs]
  refine ⟨_, hadd, fun v => ?_, fun v u => ?_⟩
  · rw [Dict.get?_set]
    by_cases hv : v = a <;> simp [hv, hnbrs]
  · simp only [Dict.Edge, Dict.get?_set]
    by_cases hv : v = a
    · subst hv
      simp only [if_true, Option.some.injEq, exists_eq_left', hnbrs, true_and]
      by_cases hb : b ∈ nbrs
      · rw [if_pos hb]
        constructor
        · exact .inl
        · rintro (h | rfl)
          · exact h
          · exact hb
      · rw [if_neg hb, List.mem_append, List.mem_singleton]
    · simp [hv]

theorem addEdges_spec : ∀ (pairs : List (ℤ × ℤ)) (graph : Dict ℤ (List ℤ)),
    (∀ p ∈ pairs, (graph.get? p.1).isSome ∧ (graph.get? p.2).isSome) →
    ∃ graph', addEdges pairs graph = .ok graph' ∧
      (∀ v, (graph'.get? v).isSome ↔ (graph.get? v).isSome) ∧
      ∀ v u, graph'.Edge v u ↔ graph.Edge v u ∨ Linked pairs v u
  | [], graph, _ => by
    refine ⟨graph, rfl, fun v => Iff.rfl, fun v u => ?_⟩
    simp [Linked]
  | (a, b) :: pairs, graph, hkeys => by
    obtain ⟨ha, hb⟩ := hkeys (a, b) List.mem_cons_self
    obtain ⟨g₁, hg₁, hnode₁, hedge₁⟩ := addEdge_spec b ha
    obtain ⟨g₂, hg₂, hnode₂, hedge₂⟩ := addEdge_spec a ((hnode₁ b).mpr hb)
    have hnode : ∀ v, (g₂.get? v).isSome ↔ (graph.get? v).isSome :=
      fun v => (hnode₂ v).trans (hnode₁ v)
    obtain ⟨g₃, hg₃, hnode₃, hedge₃⟩ := addEdges_spec pairs g₂ fun p hp => by
      rw [hnode, hnode]
      exact hkeys p (List.mem_cons_of_mem _ hp)
    refine ⟨g₃, ?_, fun v => (hnode₃ v).trans (hnode v), fun v u => ?_⟩
    · simp only [addEdges, hg₁, hg₂]
      exact hg₃
    · rw [hedge₃, hedge₂, hedge₁, linked_cons, or_assoc, or_assoc, or_assoc]

theorem mem_hostRange {count n : ℤ} : n ∈ Core.hostRange count ↔ 0 ≤ n ∧ n < count := by
  simp only [Core.hostRange, List.mem_map, List.mem_range]
  constructor
  · rintro ⟨i, hi, rfl⟩
    omega
  · rintro ⟨h₀, hlt⟩
    exact ⟨n.toNat, by omega, by omega⟩

theorem hostRange_nodup (count : ℤ) : (Core.hostRange count).Nodup :=
  List.nodup_range.map fun _ _ h => Int.ofNat.inj h

theorem hostRange_length {count : ℤ} (h : 0 ≤ count) :
    ((Core.hostRange count).length : ℤ) = count := by
  rw [Core.hostRange, List.length_map, List.length_range, Int.toNat_of_nonneg h]

/-- Both ends of every pair are hosts. -/
def PairsIn (count : ℤ) (pairs : List (ℤ × ℤ)) : Prop :=
  ∀ p ∈ pairs, p.1 ∈ Core.hostRange count ∧ p.2 ∈ Core.hostRange count

/-- The search of the connectivity check ends, and with a host for each host of the range exactly
    when each of them can be reached. -/
theorem connectedHosts_spec {count : ℤ} (hcount : 0 < count) {pairs : List (ℤ × ℤ)}
    (hin : PairsIn count pairs) : ∃ visited, connectedHosts count pairs = .ok visited ∧
      ((visited.length : ℤ) = count ↔
        ∀ v ∈ Core.hostRange count, Relation.ReflTransGen (Linked pairs) 0 v) := by
  have hzero : (0 : ℤ) ∈ Core.hostRange count := mem_hostRange.mpr ⟨le_refl 0, hcount⟩
  have hkeys : ∀ v, (Dict.get? ((Core.hostRange count).map fun i => (i, ([] : List ℤ))) v).isSome ↔
      v ∈ Core.hostRange count := by
    intro v
    rw [Dict.get?_map_const]
    by_cases hv : v ∈ Core.hostRange count <;> simp [hv]
  obtain ⟨graph, hgraph, hnode, hedge⟩ := addEdges_spec pairs _ fun p hp => by
    rw [hkeys, hkeys]
    exact hin p hp
  have hedge' : graph.Edge = Linked pairs := by
    funext v u
    rw [hedge]
    refine propext ⟨?_, .inr⟩
    rintro (⟨nbrs, hnbrs, hu⟩ | h)
    · obtain ⟨i, -, heq⟩ := List.mem_map.mp (Dict.mem_of_get? hnbrs)
      cases heq
      cases hu
    · exact h
  have hclosed : ∀ v ∈ Core.hostRange count, ∀ u, graph.Edge v u → u ∈ Core.hostRange count := by
    rw [hedge']
    rintro v - u (h | h)
    · exact (hin _ h).2
    · exact (hin _ h).1
  obtain ⟨visited, hsearch, hnodup, hreach⟩ := search_spec hclosed
    (fun v hv => by rw [hnode, hkeys]; exact hv) hzero
  refine ⟨visited, ?_, ?_⟩
  · simp only [connectedHosts, hgraph]
    exact hsearch
  · rw [← hedge', ← length_eq_iff hclosed hzero (hostRange_nodup count) hnodup hreach,
      ← Int.ofNat_inj, hostRange_length hcount.le]

/-! ## What is accepted -/

section Entries

variable {τ : Type}

theorem hostPair?_eq {v : Value τ} {a b : ℤ} :
    hostPair? v = some (a, b) ↔ v = .list [.int a, .int b] := by
  constructor
  · intro h
    unfold hostPair? at h
    split at h
    · cases h
      rfl
    · cases h
  · rintro rfl
    rfl

/-- An end of a link: a host of the range, when that is known, with an address. -/
def EndOk (hostCount : Option ℤ) (n : ℤ) : Prop :=
  outOfRange hostCount n = false ∧ n ≤ maxHostIndex

theorem linkEndErrors_eq_nil {path : String} {hostCount : Option ℤ} {n : ℤ} :
    linkEndErrors path hostCount n = [] ↔ EndOk hostCount n := by
  rw [linkEndErrors, EndOk]
  by_cases hout : outOfRange hostCount n = true
  · simp [hout]
  · rw [if_neg hout]
    by_cases hmax : (maxHostIndex : ℤ) < n
    · rw [if_pos hmax]
      simp [hmax]
    · rw [if_neg hmax]
      simpa [hout] using hmax

/-- An entry without errors is a pair of different hosts. -/
theorem linkErrors_eq_nil {hostCount : Option ℤ} {entry : Value τ} {idx : ℕ} :
    linkErrors hostCount entry idx = [] ↔ ∃ a b, entry = .list [.int a, .int b] ∧ a ≠ b ∧
      EndOk hostCount a ∧ EndOk hostCount b := by
  rw [linkErrors]
  constructor
  · intro h
    cases hpair : hostPair? entry with
    | none =>
      rw [hpair] at h
      cases h
    | some p =>
      obtain ⟨a, b⟩ := p
      simp only [hpair] at h
      by_cases hab : a = b
      · rw [if_pos hab] at h
        cases h
      · rw [if_neg hab, List.append_eq_nil_iff, linkEndErrors_eq_nil, linkEndErrors_eq_nil] at h
        exact ⟨a, b, hostPair?_eq.mp hpair, hab, h⟩
  · rintro ⟨a, b, rfl, hab, ha, hb⟩
    simp only [hostPair?_eq.mpr rfl, if_neg hab, linkEndErrors_eq_nil.mpr ha,
      linkEndErrors_eq_nil.mpr hb, List.append_nil]

/-- The pairs the connectivity check looks up are in range. -/
theorem validPairs_in (count : ℤ) (links : List (Value τ)) :
    PairsIn count (validPairs (some count) links) := by
  intro p hp
  obtain ⟨e, -, he⟩ := List.mem_filterMap.mp hp
  rw [validPair?] at he
  by_cases hnil : linkErrors (some count) e.1 e.2 = []
  · rw [if_pos hnil] at he
    obtain ⟨a, b, heq, -, ha, hb⟩ := linkErrors_eq_nil.mp hnil
    rw [heq, hostPair?_eq.mpr rfl, Option.some.injEq] at he
    subst he
    have hin : ∀ n, EndOk (some count) n → n ∈ Core.hostRange count := by
      intro n hn
      simpa [mem_hostRange, outOfRange] using hn.1
    exact ⟨hin a ha, hin b hb⟩
  · rw [if_neg hnil] at he
    cases he

theorem connectivityErrors_returns (hostCount : Option ℤ) (links : List (Value τ)) :
    ∃ errors, connectivityErrors hostCount links (validPairs hostCount links) = .ok errors := by
  cases hostCount with
  | none => exact ⟨[], rfl⟩
  | some count =>
    rw [connectivityErrors]
    by_cases h : (validPairs (some count) links).length = links.length ∧ 0 < count
    · obtain ⟨visited, hvisited, -⟩ := connectedHosts_spec h.2 (validPairs_in count links)
      simp only [h, and_self, if_true, hvisited]
      split
      · exact ⟨_, rfl⟩
      · exact ⟨_, rfl⟩
    · rw [if_neg h]
      exact ⟨[], rfl⟩

end Entries

section Accepted

variable {τ : Type} [IntCast τ] [DecidableEq τ] [LE τ] [DecidableLE τ]

/-- **Checking links does not raise**, whatever the configuration. -/
theorem linksErrors_returns (config : Mapping τ) : ∃ errors, linksErrors config = .ok errors := by
  rw [linksErrors]
  split
  · exact ⟨_, rfl⟩
  · rename_i links _
    obtain ⟨unconnected, hun⟩ := connectivityErrors_returns (knownHosts config) links
    simp only [hun]
    exact ⟨_, rfl⟩
  · exact ⟨_, rfl⟩

/-- What is left of a list of links that the validator has nothing against. -/
structure AcceptedPairs (hosts : ℕ) (pairs : List (ℕ × ℕ)) : Prop where
  few : pairs.length ≤ maxLinkSubnetId
  ends : ∀ p ∈ pairs, p.1 ≠ p.2 ∧ (p.1 < hosts ∧ p.1 ≤ maxHostIndex) ∧
    (p.2 < hosts ∧ p.2 ≤ maxHostIndex)
  connected : ∀ v < hosts, Relation.ReflTransGen (Linked pairs) 0 v

/-- A pair as a configuration writes it. -/
def pairValue (p : ℕ × ℕ) : Value τ := .list [.int p.1, .int p.2]

def castPair (p : ℕ × ℕ) : ℤ × ℤ := (p.1, p.2)

theorem exists_map_of_forall {α β : Type} {f : α → β} {P : α → Prop} {ys : List β}
    (h : ∀ y ∈ ys, ∃ x, y = f x ∧ P x) : ∃ xs : List α, ys = xs.map f ∧ ∀ x ∈ xs, P x := by
  induction ys with
  | nil => exact ⟨[], rfl, fun x hx => by cases hx⟩
  | cons y ys ih =>
    obtain ⟨x, rfl, hx⟩ := h y List.mem_cons_self
    obtain ⟨xs, rfl, hxs⟩ := ih fun y' hy' => h y' (List.mem_cons_of_mem _ hy')
    exact ⟨x :: xs, rfl, List.forall_mem_cons.mpr ⟨hx, hxs⟩⟩

omit [IntCast τ] [DecidableEq τ] [LE τ] [DecidableLE τ] in
/-- Entries without errors are pairs of hosts. -/
theorem entries_pairs {count : ℤ} {links : List (Value τ)}
    (h : ∀ e ∈ links.zipIdx, linkErrors (some count) e.1 e.2 = []) :
    ∃ pairs : List (ℕ × ℕ), links = pairs.map pairValue ∧
      validPairs (some count) links = pairs.map castPair ∧
      ∀ p ∈ pairs, p.1 ≠ p.2 ∧ EndOk (some count) p.1 ∧ EndOk (some count) p.2 := by
  have hvalid : validPairs (some count) links = links.filterMap hostPair? := by
    calc validPairs (some count) links
        = links.zipIdx.filterMap (fun e => hostPair? e.1) :=
          List.filterMap_congr fun e he => by rw [validPair?, if_pos (h e he)]
      _ = (links.zipIdx.map Prod.fst).filterMap hostPair? := by rw [List.filterMap_map]; rfl
      _ = links.filterMap hostPair? := by rw [List.zipIdx_map_fst]
  have hentry : ∀ v ∈ links, ∃ p : ℕ × ℕ, v = pairValue p ∧
      p.1 ≠ p.2 ∧ EndOk (some count) p.1 ∧ EndOk (some count) p.2 := by
    intro v hv
    obtain ⟨i, hi⟩ := List.mem_iff_getElem?.mp hv
    obtain ⟨a, b, rfl, hab, ha, hb⟩ :=
      linkErrors_eq_nil.mp (h (v, i) (List.mk_mem_zipIdx_iff_getElem?.mpr hi))
    have ha₀ : 0 ≤ a ∧ a < count := by simpa [outOfRange] using ha.1
    have hb₀ : 0 ≤ b ∧ b < count := by simpa [outOfRange] using hb.1
    obtain ⟨m, rfl⟩ := Int.eq_ofNat_of_zero_le ha₀.1
    obtain ⟨n, rfl⟩ := Int.eq_ofNat_of_zero_le hb₀.1
    exact ⟨(m, n), rfl, fun heq => hab (congrArg _ heq), ha, hb⟩
  obtain ⟨pairs, rfl, hpairs⟩ := exists_map_of_forall hentry
  refine ⟨pairs, rfl, ?_, hpairs⟩
  rw [hvalid, List.filterMap_map, ← List.filterMap_eq_map]
  rfl

/-- What can be reached through the pairs as integers can be reached through them as numbers. -/
theorem reach_of_cast {pairs : List (ℕ × ℕ)} {x : ℤ}
    (h : Relation.ReflTransGen (Linked (pairs.map castPair)) 0 x) :
    ∃ v : ℕ, x = v ∧ Relation.ReflTransGen (Linked pairs) 0 v := by
  induction h with
  | refl => exact ⟨0, rfl, .refl⟩
  | tail _ hlink ih =>
    obtain ⟨v, rfl, hv⟩ := ih
    rcases hlink with hmem | hmem
    · obtain ⟨⟨a, b⟩, hp, heq⟩ := List.mem_map.mp hmem
      simp only [castPair, Prod.mk.injEq, Int.natCast_inj] at heq
      obtain ⟨rfl, rfl⟩ := heq
      exact ⟨b, rfl, hv.tail (.inl hp)⟩
    · obtain ⟨⟨a, b⟩, hp, heq⟩ := List.mem_map.mp hmem
      simp only [castPair, Prod.mk.injEq, Int.natCast_inj] at heq
      obtain ⟨rfl, rfl⟩ := heq
      exact ⟨a, rfl, hv.tail (.inr hp)⟩

/-- A list of links without errors, for a known number of hosts. -/
theorem linksErrors_accepted {config : Mapping τ} {count : ℤ} {v : Value τ}
    (hhosts : knownHosts config = some count) (hcount : 0 < count)
    (hv : config.get? "links" = some v) (h : linksErrors config = .ok []) :
    ∃ pairs : List (ℕ × ℕ), v = .list (pairs.map pairValue) ∧
      AcceptedPairs count.toNat pairs := by
  rw [linksErrors, hv, hhosts] at h
  cases v with
  | list links =>
    obtain ⟨unconnected, hun⟩ := connectivityErrors_returns (some count) links
    simp only [hun, Except.ok.injEq, List.append_eq_nil_iff, List.flatMap_eq_nil_iff] at h
    obtain ⟨⟨⟨⟨hfew, hentries⟩, -⟩, -⟩, rfl⟩ := h
    obtain ⟨pairs, rfl, hpairs, hends⟩ := entries_pairs hentries
    have hin := validPairs_in count (pairs.map pairValue : List (Value τ))
    rw [hpairs] at hun hin
    obtain ⟨visited, hvisited, hall⟩ := connectedHosts_spec hcount hin
    refine ⟨pairs, rfl, ?_, fun p hp => ?_, fun v hv => ?_⟩
    · by_contra hmany
      rw [tooManyLinks, List.length_map, if_pos (not_le.mp hmany)] at hfew
      cases hfew
    · obtain ⟨hne, h₁, h₂⟩ := hends p hp
      simp only [EndOk, outOfRange] at h₁ h₂
      refine ⟨hne, ⟨?_, ?_⟩, ?_, ?_⟩
      · have := h₁.1
        simp at this
        omega
      · exact_mod_cast h₁.2
      · have := h₂.1
        simp at this
        omega
      · exact_mod_cast h₂.2
    · have hlen : (visited.length : ℤ) = count := by
        by_contra hne
        simp only [connectivityErrors, List.length_map, hcount, and_self, if_true, hvisited,
          ne_eq, hne, not_false_eq_true, Except.ok.injEq] at hun
        cases hun
      obtain ⟨w, hw, hreach⟩ := reach_of_cast (hall.mp hlen v (mem_hostRange.mpr (by omega)))
      rwa [Int.natCast_inj.mp hw]
  | _ => cases h

end Accepted

/-! ## What is built -/

section Built

variable {hosts : ℕ} {pairs : List (ℕ × ℕ)} (hacc : AcceptedPairs hosts pairs)
include hacc

theorem AcceptedPairs.wellFormed : WellFormedMesh (ExplicitLinksTopo.build pairs).meshLinks := by
  intro raw hraw
  obtain ⟨i, p, hi, hp, hsubnet, hhosts⟩ := ExplicitLinksTopo.of_mem_meshLinks hraw
  have hfew := hacc.few
  have hnodup : [p.1, p.2].Nodup := by simpa using (hacc.ends p hp).1
  have hmem : p.1 ∈ raw.hosts := by
    rw [hhosts]
    exact mem_sorted.mpr List.mem_cons_self
  refine ⟨List.ne_nil_of_mem hmem, hhosts ▸ sorted_nodup hnodup, (i : ℤ) + 1, hsubnet, ?_⟩
  simp only [maxLinkSubnetId] at hfew
  omega

/-- A host of a link is a host of the range, and has an address. -/
theorem AcceptedPairs.host_lt {raw : RawLink}
    (hraw : raw ∈ (ExplicitLinksTopo.build pairs).meshLinks) {h : ℕ} (hh : h ∈ raw.hosts) :
    h < hosts ∧ h ≤ maxHostIndex := by
  obtain ⟨i, p, -, hp, -, hhosts⟩ := ExplicitLinksTopo.of_mem_meshLinks hraw
  obtain ⟨-, h₁, h₂⟩ := hacc.ends p hp
  rw [hhosts, mem_sorted] at hh
  rcases List.mem_pair.mp hh with rfl | rfl
  · exact h₁
  · exact h₂

theorem AcceptedPairs.adj {a b : ℕ} (h : Linked pairs a b) :
    (hostGraph (ExplicitLinksTopo.build pairs).meshLinks).Adj a b := by
  have hpair : ∀ {x y : ℕ}, (x, y) ∈ pairs →
      (hostGraph (ExplicitLinksTopo.build pairs).meshLinks).Adj x y := by
    intro x y hxy
    obtain ⟨raw, hraw, hhosts⟩ := ExplicitLinksTopo.exists_mem_meshLinks hxy
    refine ⟨(hacc.ends _ hxy).1, raw, hraw, ?_, ?_⟩
    · rw [hhosts, mem_sorted]
      exact List.mem_cons_self
    · rw [hhosts, mem_sorted]
      exact List.mem_cons_of_mem _ List.mem_cons_self
  rcases h with h | h
  · exact hpair h
  · exact (hpair h).symm

/-- Any two hosts are connected. -/
theorem AcceptedPairs.reachable {s d : ℕ} (hs : s < hosts) (hd : d < hosts) :
    (hostGraph (ExplicitLinksTopo.build pairs).meshLinks).Reachable s d := by
  have hzero : ∀ v < hosts,
      (hostGraph (ExplicitLinksTopo.build pairs).meshLinks).Reachable 0 v := by
    intro v hv
    have hreach := hacc.connected v hv
    clear hv
    induction hreach with
    | refl => exact SimpleGraph.Reachable.refl 0
    | tail _ hlink ih => exact ih.trans (hacc.adj hlink).reachable
  exact (hzero s hs).symm.trans (hzero d hd)

/-- With more than one host, every host is on a link. -/
theorem AcceptedPairs.attached (hmany : 1 < hosts) {h : ℕ} (hh : h < hosts) :
    ∃ raw ∈ (ExplicitLinksTopo.build pairs).meshLinks, h ∈ raw.hosts := by
  obtain ⟨other, hother, hne⟩ : ∃ other, other < hosts ∧ other ≠ h := by
    by_cases h0 : h = 0
    · exact ⟨1, hmany, by omega⟩
    · exact ⟨0, by omega, Ne.symm h0⟩
  obtain ⟨p⟩ := hacc.reachable hh hother
  cases p with
  | nil => exact absurd rfl hne
  | cons hadj _ =>
    obtain ⟨-, raw, hraw, hmem, -⟩ := hadj
    exact ⟨raw, hraw, hmem⟩

/-- The host count read off the topology is the number of hosts. -/
theorem AcceptedPairs.hostCount_eq (hmany : 1 < hosts) :
    hostCount (topologyLinks (ExplicitLinksTopo.build pairs).meshLinks) = .ok hosts := by
  obtain ⟨n, hn⟩ := hacc.wellFormed.exists_hostCount
  have hle : n ≤ hosts := by
    refine hostCountFrom_le (Nat.zero_le _) (fun link hlink h hh => ?_) hn
    obtain ⟨raw, hraw, rfl⟩ := List.mem_map.mp hlink
    rw [normalize_hosts, mem_sorted] at hh
    exact (hacc.host_lt hraw hh).1
  obtain ⟨raw, hraw, hlast⟩ := hacc.attached hmany (h := hosts - 1) (by omega)
  have hge := hacc.wellFormed.host_lt hn hraw hlast
  rw [hn, show n = hosts by omega]

end Built

/-! ## Addresses and peers -/

theorem mem_linksForHost {meshLinks : List RawLink} {host : ℕ} {link : Link} :
    link ∈ linksForHost (topologyLinks meshLinks) host ↔
      ∃ raw ∈ meshLinks, host ∈ raw.hosts ∧ normalize raw = link := by
  simp only [linksForHost, topologyLinks, List.mem_filter, List.mem_map, List.contains_iff_mem]
  constructor
  · rintro ⟨⟨raw, hraw, rfl⟩, hmem⟩
    rw [normalize_hosts, mem_sorted] at hmem
    exact ⟨raw, hraw, hmem, rfl⟩
  · rintro ⟨raw, hraw, hmem, rfl⟩
    rw [normalize_hosts, mem_sorted]
    exact ⟨⟨raw, hraw, rfl⟩, hmem⟩

/-- The lowest subnet is the subnet of one of the links. -/
theorem foldl_lowerSubnet {P : ℤ → Prop} : ∀ (links : List Link) (best : Option ℤ),
    (∀ link ∈ links, ∃ subnet, link.subnet = some subnet ∧ P subnet) →
    (∀ subnet, best = some subnet → P subnet) → (links ≠ [] ∨ best.isSome) →
    ∃ subnet, links.foldl AddressingScheme.lowerSubnet best = some subnet ∧ P subnet
  | [], best, _, hbest, hsome => by
    obtain ⟨subnet, hsubnet⟩ := Option.isSome_iff_exists.mp (hsome.resolve_left fun h => h rfl)
    exact ⟨subnet, hsubnet, hbest subnet hsubnet⟩
  | link :: links, best, hlinks, hbest, _ => by
    obtain ⟨subnet, hsubnet, hP⟩ := hlinks link List.mem_cons_self
    have hnext : ∃ lowest, AddressingScheme.lowerSubnet best link = some lowest ∧ P lowest := by
      simp only [AddressingScheme.lowerSubnet, hsubnet]
      cases best with
      | none => exact ⟨subnet, rfl, hP⟩
      | some lowest =>
        by_cases hlt : subnet < lowest
        · exact ⟨subnet, by simp [hlt], hP⟩
        · exact ⟨lowest, by simp [hlt], hbest lowest rfl⟩
    obtain ⟨lowest, hlowest, hPlowest⟩ := hnext
    rw [List.foldl_cons, hlowest]
    refine foldl_lowerSubnet links _ (fun l hl => hlinks l (List.mem_cons_of_mem _ hl)) (fun s hs => ?_)
      (.inr rfl)
    cases hs
    exact hPlowest

/-- A host on a link of a well-formed topology has a canonical address. -/
theorem canonicalHostIp_returns {scheme : AddressingScheme} {meshLinks : List RawLink}
    (hwf : WellFormedMesh meshLinks) {host : ℕ} (hhost : host < 254)
    (hattached : ∃ raw ∈ meshLinks, host ∈ raw.hosts) :
    ∃ ip, scheme.canonicalHostIp host meshLinks = .ok ip := by
  obtain ⟨raw, hraw, hmem⟩ := hattached
  have hne : linksForHost (topologyLinks meshLinks) host ≠ [] :=
    List.ne_nil_of_mem (mem_linksForHost.mpr ⟨raw, hraw, hmem, rfl⟩)
  have hlinks : ∀ link ∈ linksForHost (topologyLinks meshLinks) host,
      ∃ subnet, link.subnet = some subnet ∧ (0 ≤ subnet ∧ subnet ≤ 255) := by
    intro link hlink
    obtain ⟨raw', hraw', -, rfl⟩ := mem_linksForHost.mp hlink
    rw [normalize_subnet]
    exact (hwf raw' hraw').2.2
  obtain ⟨subnet, hsubnet, hadmits⟩ := foldl_lowerSubnet _ none hlinks
    (fun s hs => by cases hs) (.inl hne)
  simp only [AddressingScheme.canonicalHostIp, hsubnet]
  exact ⟨_, AddressingScheme.hostIp_ok hadmits hhost⟩

/-- A host that shares a link has a peer. -/
theorem peerOf_returns {meshLinks : List RawLink} {host other : ℕ}
    (hadj : (hostGraph meshLinks).Adj host other) :
    ∃ peer, peerOf (topologyLinks meshLinks) host = .ok peer := by
  obtain ⟨hne, raw, hraw, hmem, hother⟩ := hadj
  have hfound : ((linksForHost (topologyLinks meshLinks) host).findSome? fun link =>
      link.hosts.find? fun other => other ≠ host).isSome := by
    rw [List.findSome?_isSome_iff]
    refine ⟨normalize raw, mem_linksForHost.mpr ⟨raw, hraw, hmem, rfl⟩, ?_⟩
    rw [List.find?_isSome, normalize_hosts]
    exact ⟨other, mem_sorted.mpr hother, by simpa using hne.symm⟩
  obtain ⟨peer, hpeer⟩ := Option.isSome_iff_exists.mp hfound
  exact ⟨peer, by simp only [peerOf, hpeer]⟩

/-! ## Routes over the best paths -/

section Routes

variable {scheme : AddressingScheme} {meshLinks : List RawLink} {hostNum : ℕ}

theorem mem_of_mem_pickBest {k : ℤ} {cands : List (ℕ × ℕ)} {nh : ℕ} (h : nh ∈ pickBest k cands) :
    ∃ c, (c, nh) ∈ cands := by
  obtain ⟨e, he, rfl⟩ := List.mem_map.mp h
  exact ⟨e.1, List.mem_of_mem_take he⟩

theorem pickBest_ne_nil {k : ℤ} (hk : 1 ≤ k) {cands : List (ℕ × ℕ)} (h : cands ≠ []) :
    pickBest k cands ≠ [] := by
  rw [pickBest, sliceTo, if_pos (by omega), Ne, List.map_eq_nil_iff, List.take_eq_nil_iff, not_or]
  exact ⟨by omega, h⟩

/-- Whatever number of best candidates is kept, they are neighbours. -/
theorem picks_best {tables : FibTables} (ht : Tabulates scheme meshLinks tables) {k : ℤ}
    (hk : 1 ≤ k) : Picks meshLinks tables
      (fun src dest nh => (hostGraph meshLinks).Adj src nh ∧ (hostGraph meshLinks).Reachable nh dest)
      (pickBest k) where
  adj h := h.1
  picked {src dest} hsrc hne := by
    obtain ⟨cands, hcands, -, hmem⟩ := candidates_spec ht hsrc dest
    refine ⟨cands, hcands, fun nh hnh => ?_, fun hreach => pickBest_ne_nil hk fun hnil => ?_⟩
    · obtain ⟨c, hc⟩ := mem_of_mem_pickBest hnh
      obtain ⟨hadj, hreach, -⟩ := (hmem c nh).mp hc
      exact ⟨hadj, hreach⟩
    · obtain ⟨v, hv, hvreach, -⟩ := exists_nearer hne hreach
      have hv' := (hmem _ v).mpr ⟨hv, hvreach, rfl⟩
      rw [hnil] at hv'
      cases hv'

/-- **`compute_fib` has a route for every destination that can be reached.** -/
theorem computeFib_complete (scheme : AddressingScheme) (hwf : WellFormedMesh meshLinks)
    (hn : hostCount (topologyLinks meshLinks) = .ok hostNum) (hoctet : hostNum ≤ 254) {k : ℤ}
    (hk : 1 ≤ k) : ∃ routes, computeFib meshLinks k scheme = .ok routes ∧
      ∀ s < hostNum, ∀ d < hostNum, s ≠ d → (hostGraph meshLinks).Reachable s d →
        ∃ r ∈ routes, r.source = s ∧ r.uriPrefix = defaultPrefix d := by
  obtain ⟨tables, htables, rfl, ht⟩ := fibTables_spec scheme hwf hn
  have hrun := runVisits_grows ht (appendHop_adds (pickBest k) scheme tables) (picks_best ht hk)
    (visitsDefault tables.hostNum) ⟨[], []⟩ (fun visit hv => visitsDefault_range hv)
    fun key hkey => by cases hkey
  rcases hrun.elim with ⟨table, htable, hg⟩ | ⟨err, -, hmany, -⟩
  swap
  · omega
  refine ⟨table.routes, by simp only [computeFib, computeWith, htables, htable], ?_⟩
  intro s hs d hd hne hreach
  exact hg.complete s (defaultPrefix d)
    ⟨⟨s, d, defaultPrefix d⟩, mem_visitsDefault.mpr ⟨hs, hd, hne, rfl⟩, hreach, rfl, rfl⟩

end Routes

/-! ## From the configuration to the routes -/

section Usable

variable {τ : Type} [IntCast τ] [DecidableEq τ] [LT τ] [DecidableLT τ]

/-- An option without its message. -/
theorem flatValue_of_not_mem {config : Mapping τ} {spec : OptionSpec} (hspec : spec ∈ flatSpecs)
    {v : Value τ} (hv : config.get? spec.key = some v)
    (hflat : flatKeyError spec ∉ flatKeyErrors config) :
    (spec.nullable = true ∧ v.isNull = true) ∨ flatValueOk spec v = true := by
  by_cases hnull : spec.nullable = true ∧ v.isNull = true
  · exact .inl hnull
  · right
    by_contra hbad
    refine hflat (List.mem_flatMap.mpr ⟨spec, hspec, ?_⟩)
    simp only [hv, hnull, hbad, if_false, List.mem_singleton]

omit [DecidableEq τ] in
theorem int_of_flatValueOk {spec : OptionSpec} {v : Value τ} (hkind : spec.kind = .int)
    (hok : flatValueOk spec v = true) : ∃ n : ℤ, v = .int n ∧ ∀ m ∈ spec.minimum, m ≤ n := by
  cases v with
  | int n =>
    refine ⟨n, rfl, fun m hm => ?_⟩
    rw [Option.mem_def] at hm
    simpa only [flatValueOk, hkind, hm, not_lt, decide_eq_true_eq] using hok
  | _ => simp [flatValueOk, hkind] at hok

theorem hosts_of_flatKeyErrors {config : Mapping τ} {v : Value τ}
    (hv : config.get? "hosts" = some v)
    (hflat : "hosts must be an integer >= 3" ∉ flatKeyErrors config) :
    ∃ hosts : ℕ, v = .int hosts ∧ 3 ≤ hosts := by
  obtain ⟨spec, hspec, hkey, hkind, hmin, hnull, herr⟩ :
      ∃ spec ∈ flatSpecs, spec.key = "hosts" ∧ spec.kind = .int ∧ spec.minimum = some 3 ∧
        spec.nullable = false ∧ flatKeyError spec = "hosts must be an integer >= 3" := by
    decide
  rw [← herr] at hflat
  rw [← hkey] at hv
  rcases flatValue_of_not_mem hspec hv hflat with ⟨hyes, -⟩ | hok
  · rw [hnull] at hyes
    cases hyes
  · obtain ⟨n, rfl, hn⟩ := int_of_flatValueOk hkind hok
    have hthree : 3 ≤ n := hn 3 hmin
    exact ⟨n.toNat, by rw [Int.toNat_of_nonneg (by omega)], by omega⟩

variable [LE τ] [DecidableLE τ]

/-- **An accepted explicit topology can be built and routed.** For every configuration whose
    `hosts` the option table accepts and whose `links` the validator has nothing against, the
    builder does not raise on the list; every link's hosts have an address on it; every host has a
    canonical address and a peer; and for every number of paths the routes can be computed and
    have, for any two different hosts, one from the first to the second. -/
theorem explicit_topology_usable {config : Mapping τ} (scheme : AddressingScheme) {v : Value τ}
    (hhosts : config.get? "hosts" = some v)
    (hflat : "hosts must be an integer >= 3" ∉ flatKeyErrors config)
    (hlinks : (config.get? "links").isSome) (haccepted : linksErrors config = .ok []) :
    ∃ (hosts : ℕ) (pairs : List (ℕ × ℕ)) (wiring : Wiring),
      config.get? "hosts" = some (.int hosts) ∧
      config.get? "links" = some (.list (pairs.map pairValue)) ∧
      ExplicitLinksTopo.buildOn hosts pairs = .ok wiring ∧
      (∀ raw ∈ wiring.meshLinks, ∃ subnet, raw.subnet = some subnet ∧
        ∀ h ∈ raw.hosts, ∃ ip, scheme.hostIp subnet h = .ok ip) ∧
      (∀ h < hosts, (∃ ip, scheme.canonicalHostIp h wiring.meshLinks = .ok ip) ∧
        ∃ peer, peerOf (topologyLinks wiring.meshLinks) h = .ok peer) ∧
      ∀ k : ℤ, 1 ≤ k → ∃ routes, computeFib wiring.meshLinks k scheme = .ok routes ∧
        ∀ s < hosts, ∀ d < hosts, s ≠ d →
          ∃ r ∈ routes, r.source = s ∧ r.uriPrefix = defaultPrefix d := by
  obtain ⟨hosts, rfl, hthree⟩ := hosts_of_flatKeyErrors hhosts hflat
  obtain ⟨l, hl⟩ := Option.isSome_iff_exists.mp hlinks
  have hknown : knownHosts config = some (hosts : ℤ) := by simp only [knownHosts, hhosts]
  obtain ⟨pairs, rfl, hacc⟩ := linksErrors_accepted hknown (by omega) hl haccepted
  rw [Int.toNat_natCast] at hacc
  have hbuild : ExplicitLinksTopo.buildOn hosts pairs = .ok (ExplicitLinksTopo.build pairs) := by
    rw [ExplicitLinksTopo.buildOn, if_pos]
    intro p hp
    obtain ⟨-, h₁, h₂⟩ := hacc.ends p hp
    exact ⟨h₁.1, h₂.1⟩
  have hwf := hacc.wellFormed
  have hcount := hacc.hostCount_eq (by omega)
  have hoctet : ∀ h < hosts, h < 254 := by
    intro h hh
    obtain ⟨raw, hraw, hmem⟩ := hacc.attached (by omega) hh
    have := (hacc.host_lt hraw hmem).2
    simp only [maxHostIndex] at this
    omega
  refine ⟨hosts, pairs, _, hhosts, hl, hbuild, ?_, ?_, ?_⟩
  · intro raw hraw
    obtain ⟨-, -, subnet, hsubnet, hadmits⟩ := hwf raw hraw
    refine ⟨subnet, hsubnet, fun h hh => ?_⟩
    exact ⟨_, AddressingScheme.hostIp_ok hadmits (hoctet h (hacc.host_lt hraw hh).1)⟩
  · intro h hh
    refine ⟨canonicalHostIp_returns hwf (hoctet h hh) (hacc.attached (by omega) hh), ?_⟩
    obtain ⟨raw, hraw, hmem⟩ := hacc.attached (by omega) hh
    obtain ⟨i, p, -, hp, -, hends⟩ := ExplicitLinksTopo.of_mem_meshLinks hraw
    rw [hends, mem_sorted] at hmem
    rcases List.mem_pair.mp hmem with rfl | rfl
    · exact peerOf_returns (hacc.adj (.inl hp))
    · exact peerOf_returns (hacc.adj (.inr hp))
  · intro k hk
    have hlast := hoctet (hosts - 1) (by omega)
    obtain ⟨routes, hroutes, hall⟩ := computeFib_complete scheme hwf hcount (by omega) hk
    exact ⟨routes, hroutes, fun s hs d hd hne => hall s hs d hd hne (hacc.reachable hs hd)⟩

end Usable

/-- Three hosts on a line, the second link written backwards. -/
def lineConfig : Mapping Rat :=
  [("hosts", .int 3), ("links", .list [.list [.int 0, .int 1], .list [.int 2, .int 1]])]

theorem explicit_topology_usable_line :
    linksErrors lineConfig = .ok [] ∧ ∃ (hosts : ℕ) (pairs : List (ℕ × ℕ)) (wiring : Wiring),
      lineConfig.get? "hosts" = some (.int hosts) ∧
      lineConfig.get? "links" = some (.list (pairs.map pairValue)) ∧
      ExplicitLinksTopo.buildOn hosts pairs = .ok wiring ∧
      (∀ raw ∈ wiring.meshLinks, ∃ subnet, raw.subnet = some subnet ∧
        ∀ h ∈ raw.hosts, ∃ ip, AddressingScheme.default.hostIp subnet h = .ok ip) ∧
      (∀ h < hosts, (∃ ip, AddressingScheme.default.canonicalHostIp h wiring.meshLinks = .ok ip) ∧
        ∃ peer, peerOf (topologyLinks wiring.meshLinks) h = .ok peer) ∧
      ∀ k : ℤ, 1 ≤ k → ∃ routes, computeFib wiring.meshLinks k .default = .ok routes ∧
        ∀ s < hosts, ∀ d < hosts, s ≠ d →
          ∃ r ∈ routes, r.source = s ∧ r.uriPrefix = defaultPrefix d :=
  ⟨rfl, explicit_topology_usable .default (v := .int 3) rfl (by decide) rfl rfl⟩

end Proof
end CeforeEmu
