import Mathlib.Combinatorics.SimpleGraph.Connectivity.Connected
import CeforeEmu.Proof.ExplicitLinks
import CeforeEmu.Proof.LinkFaults

/-!
# Which link lists are accepted

`_validate_links` goes over its list in stages, each looking at what the earlier ones let through.
`links_accepted_iff` says that nothing gets past them: the list is accepted exactly when it is a
list of pairs that can be built (`Buildable`), and no option of the random mesh has been touched.

The other direction of each stage is the one the builder relies on, and is proved where it is used
(`linksErrors_accepted`).
-/

set_option autoImplicit false

namespace CeforeEmu
namespace Proof

open CeforeEmu.Lib CeforeEmu.Core CeforeEmu.Runtime

/-- The hosts as a graph, with the pairs as its edges. -/
def linkGraph (hosts : ℕ) (pairs : List (ℕ × ℕ)) : SimpleGraph (Fin hosts) :=
  SimpleGraph.fromRel fun i j => (i.val, j.val) ∈ pairs

/-- Two different hosts, each with an address. -/
def GoodPair (hosts : ℕ) (p : ℕ × ℕ) : Prop :=
  p.1 ≠ p.2 ∧ p.1 ≤ min (hosts - 1) 253 ∧ p.2 ≤ min (hosts - 1) 253

/-- A list of links a network can be built from. -/
structure Buildable (hosts : ℕ) (pairs : List (ℕ × ℕ)) : Prop where
  few : pairs.length ≤ 255
  ends : ∀ p ∈ pairs, GoodPair hosts p
  once : pairs.Pairwise fun p q => ¬ SamePair p q
  connected : (linkGraph hosts pairs).Connected

/-! ## Connectivity -/

theorem linkGraph_adj {hosts : ℕ} {pairs : List (ℕ × ℕ)} {i j : Fin hosts} :
    (linkGraph hosts pairs).Adj i j ↔ i ≠ j ∧ Linked pairs i.val j.val := by
  rw [linkGraph, SimpleGraph.fromRel_adj]
  rfl

/-- The graph on the hosts is connected when every host can be reached from the first. -/
theorem linkGraph_connected {hosts : ℕ} {pairs : List (ℕ × ℕ)} (hpos : 0 < hosts)
    (hends : ∀ p ∈ pairs, p.1 ≠ p.2 ∧ p.1 < hosts ∧ p.2 < hosts) :
    (linkGraph hosts pairs).Connected ↔
      ∀ v < hosts, Relation.ReflTransGen (Linked pairs) 0 v := by
  have hlinked : ∀ {a b : ℕ}, Linked pairs a b → a ≠ b ∧ b < hosts := by
    rintro a b (h | h)
    · exact ⟨(hends _ h).1, (hends _ h).2.2⟩
    · exact ⟨(hends _ h).1.symm, (hends _ h).2.1⟩
  constructor
  · intro hconn v hv
    have hreach := (SimpleGraph.reachable_iff_reflTransGen _ _).mp (hconn ⟨0, hpos⟩ ⟨v, hv⟩)
    exact hreach.lift Fin.val fun i j hadj => (linkGraph_adj.mp hadj).2
  · intro hall
    have hlift : ∀ {v : ℕ}, Relation.ReflTransGen (Linked pairs) 0 v →
        ∃ hv : v < hosts, (linkGraph hosts pairs).Reachable ⟨0, hpos⟩ ⟨v, hv⟩ := by
      intro v h
      induction h with
      | refl => exact ⟨hpos, .refl _⟩
      | tail _ hlink ih =>
        obtain ⟨hv, hreach⟩ := ih
        obtain ⟨hne, hw⟩ := hlinked hlink
        have hadj : (linkGraph hosts pairs).Adj ⟨_, hv⟩ ⟨_, hw⟩ :=
          linkGraph_adj.mpr ⟨fun heq => hne (Fin.mk.inj heq), hlink⟩
        exact ⟨hw, hreach.trans hadj.reachable⟩
    refine (SimpleGraph.connected_iff_exists_forall_reachable _).mpr ⟨⟨0, hpos⟩, fun v => ?_⟩
    exact (hlift (hall v.val v.isLt)).2

/-! ## Duplicates -/

/-- A pair as the code compares it, the smaller host first. -/
def ordered (p : ℕ × ℕ) : ℤ × ℤ :=
  (min (castPair p).1 (castPair p).2, max (castPair p).1 (castPair p).2)

theorem ordered_eq_iff {p q : ℕ × ℕ} : ordered p = ordered q ↔ SamePair p q := by
  simp only [ordered, castPair, SamePair, Prod.mk.injEq]
  omega

theorem duplicateErrors_eq_nil {pairs : List (ℕ × ℕ)} {seen : List (ℤ × ℤ)} :
    duplicateErrors seen (pairs.map castPair) = [] ↔
      (∀ p ∈ pairs, ordered p ∉ seen) ∧ pairs.Pairwise fun p q => ¬ SamePair p q := by
  induction pairs generalizing seen with
  | nil => simp [duplicateErrors]
  | cons p pairs ih =>
    rw [List.map_cons, List.pairwise_cons]
    show (if ordered p ∈ seen then _ :: _ else duplicateErrors (ordered p :: seen) _) = [] ↔ _
    by_cases hseen : ordered p ∈ seen
    · rw [if_pos hseen]
      exact iff_of_false (List.cons_ne_nil _ _) fun h => h.1 p List.mem_cons_self hseen
    · rw [if_neg hseen, ih]
      have hnew : ∀ q, ordered q ∉ ordered p :: seen ↔ ¬ SamePair p q ∧ ordered q ∉ seen := by
        intro q
        rw [List.mem_cons, not_or, eq_comm, ordered_eq_iff]
      constructor
      · rintro ⟨hother, hpair⟩
        refine ⟨List.forall_mem_cons.mpr ⟨hseen, fun q hq => ?_⟩, fun q hq => ?_, hpair⟩
        · exact ((hnew q).mp (hother q hq)).2
        · exact ((hnew q).mp (hother q hq)).1
      · rintro ⟨hall, hfirst, hpair⟩
        refine ⟨fun q hq => (hnew q).mpr ⟨hfirst q hq, hall q (List.mem_cons_of_mem _ hq)⟩, hpair⟩

/-! ## The list as a whole -/

/-- The other way round of `reach_of_cast`. -/
theorem reach_cast {pairs : List (ℕ × ℕ)} {v : ℕ}
    (h : Relation.ReflTransGen (Linked pairs) 0 v) :
    Relation.ReflTransGen (Linked (pairs.map castPair)) 0 (v : ℤ) := by
  refine h.lift (fun n : ℕ => (n : ℤ)) fun a b hlink => ?_
  rcases hlink with hp | hp
  · exact .inl (List.mem_map_of_mem hp)
  · exact .inr (List.mem_map_of_mem hp)

section Whole

variable {τ : Type} [IntCast τ] [DecidableEq τ] [LE τ] [DecidableLE τ]

theorem randomizationErrors_eq_nil {config : Mapping τ} :
    randomizationErrors config = [] ↔ ∀ key ∈ meshRandomizationKeys, ∀ w,
      config.get? (.str key) = some w → w.pyEq (optionDefault key) = true := by
  rw [randomizationErrors, List.flatMap_eq_nil_iff]
  refine forall₂_congr fun key _ => ?_
  cases hw : config.get? (.str key) with
  | none => simp
  | some w =>
    by_cases heq : w.pyEq (optionDefault key) = true
    · simp [heq]
    · simp [heq]

omit [IntCast τ] [DecidableEq τ] [LE τ] [DecidableLE τ] in
theorem tooManyLinks_eq_nil {links : List (Value τ)} :
    tooManyLinks links = [] ↔ links.length ≤ 255 := by
  rw [tooManyLinks]
  by_cases hmany : maxLinkSubnetId < links.length
  · rw [if_pos hmany]
    exact iff_of_false (List.cons_ne_nil _ _) (not_le.mpr hmany)
  · rw [if_neg hmany]
    exact iff_of_true rfl (not_lt.mp hmany)

omit [IntCast τ] [DecidableEq τ] [LE τ] [DecidableLE τ] in
/-- Once the entries are pairs of hosts, the connectivity check is about reaching every host. -/
theorem connectivityErrors_eq_nil {hosts : ℕ} (hpos : 0 < hosts) {pairs : List (ℕ × ℕ)}
    (hends : ∀ p ∈ pairs, p.1 ≠ p.2 ∧ p.1 < hosts ∧ p.2 < hosts) :
    connectivityErrors (some (hosts : ℤ)) (pairs.map pairValue : List (Value τ))
        (pairs.map castPair) = .ok [] ↔
      ∀ v < hosts, Relation.ReflTransGen (Linked pairs) 0 v := by
  have hin : PairsIn hosts (pairs.map castPair) := by
    intro p hp
    obtain ⟨q, hq, rfl⟩ := List.mem_map.mp hp
    obtain ⟨-, h₁, h₂⟩ := hends q hq
    exact ⟨mem_hostRange.mpr ⟨by simp [castPair], by simpa [castPair] using h₁⟩,
      mem_hostRange.mpr ⟨by simp [castPair], by simpa [castPair] using h₂⟩⟩
  obtain ⟨visited, hvisited, hall⟩ := connectedHosts_spec (Int.natCast_pos.mpr hpos) hin
  have hlen : connectivityErrors (some (hosts : ℤ)) (pairs.map pairValue : List (Value τ))
      (pairs.map castPair) = .ok [] ↔ (visited.length : ℤ) = hosts := by
    simp only [connectivityErrors, List.length_map, Int.natCast_pos.mpr hpos, and_self, if_true,
      hvisited]
    by_cases hlen : (visited.length : ℤ) = hosts
    · simp [hlen]
    · simp [hlen]
  rw [hlen, hall]
  constructor
  · intro hreach v hv
    obtain ⟨w, hw, hreach⟩ := reach_of_cast (hreach v (mem_hostRange.mpr (by omega)))
    rwa [Int.natCast_inj.mp hw]
  · intro hreach v hv
    obtain ⟨h₀, hlt⟩ := mem_hostRange.mp hv
    obtain ⟨n, rfl⟩ := Int.eq_ofNat_of_zero_le h₀
    exact reach_cast (hreach n (by omega))

omit [IntCast τ] [DecidableEq τ] [LE τ] [DecidableLE τ] in
theorem pairValue_injective : Function.Injective (pairValue : ℕ × ℕ → Value τ) := by
  intro p q h
  simp only [pairValue, Value.list.injEq, List.cons.injEq, Value.int.injEq, Int.natCast_inj,
    and_true] at h
  exact Prod.ext h.1 h.2

theorem endOk_iff {hosts : ℕ} (hpos : 0 < hosts) {n : ℕ} :
    EndOk (some (hosts : ℤ)) n ↔ n ≤ min (hosts - 1) 253 := by
  simp only [EndOk, outOfRange, maxHostIndex]
  simp
  omega

omit [IntCast τ] [DecidableEq τ] [LE τ] [DecidableLE τ] in
/-- The entries are accepted when each is a pair of different hosts with addresses, and then none
    of them is left out of `valid_pairs`. -/
theorem entryErrors_eq_nil {hosts : ℕ} (hpos : 0 < hosts) {links : List (Value τ)} :
    links.zipIdx.flatMap (fun e => linkErrors (some (hosts : ℤ)) e.1 e.2) = [] ↔
      ∃ pairs : List (ℕ × ℕ), links = pairs.map pairValue ∧ ∀ p ∈ pairs, GoodPair hosts p := by
  rw [List.flatMap_eq_nil_iff]
  constructor
  · intro h
    obtain ⟨pairs, hlinks, -, hpairs⟩ := entries_pairs h
    refine ⟨pairs, hlinks, fun p hp => ?_⟩
    obtain ⟨hne, h₁, h₂⟩ := hpairs p hp
    exact ⟨hne, (endOk_iff hpos).mp h₁, (endOk_iff hpos).mp h₂⟩
  · rintro ⟨pairs, rfl, hpairs⟩ ⟨v, i⟩ he
    obtain ⟨p, hp, rfl⟩ := List.mem_map.mp (List.fst_mem_of_mem_zipIdx he)
    obtain ⟨hne, h₁, h₂⟩ := hpairs p hp
    exact linkErrors_eq_nil.mpr ⟨p.1, p.2, rfl, by simpa using hne, (endOk_iff hpos).mpr h₁,
      (endOk_iff hpos).mpr h₂⟩

omit [IntCast τ] [DecidableEq τ] [LE τ] [DecidableLE τ] in
theorem validPairs_of_good {hosts : ℕ} (hpos : 0 < hosts) {pairs : List (ℕ × ℕ)}
    (h : ∀ p ∈ pairs, GoodPair hosts p) :
    validPairs (some (hosts : ℤ)) (pairs.map pairValue : List (Value τ)) = pairs.map castPair := by
  have hnil := (entryErrors_eq_nil (τ := τ) hpos).mpr ⟨pairs, rfl, h⟩
  obtain ⟨pairs', heq, hvalid, -⟩ := entries_pairs (List.flatMap_eq_nil_iff.mp hnil)
  rw [hvalid, List.map_injective_iff.mpr pairValue_injective heq]

/-- **`_validate_links` accepts exactly the lists that can be built.** For every configuration with
    an integer `hosts` of at least 1 and whatever under `links`, no error is reported iff the value
    is a list of pairs that is `Buildable` and every option of the random mesh that is present
    equals its default. -/
theorem links_accepted_iff {config : Mapping τ} {hosts : ℤ} {v : Value τ}
    (hhosts : config.get? "hosts" = some (.int hosts)) (hpos : 1 ≤ hosts)
    (hv : config.get? "links" = some v) :
    linksErrors config = .ok [] ↔
      (∃ pairs : List (ℕ × ℕ), v = .list (pairs.map pairValue) ∧ Buildable hosts.toNat pairs) ∧
      ∀ key ∈ meshRandomizationKeys, ∀ w, config.get? (.str key) = some w →
        w.pyEq (optionDefault key) = true := by
  obtain ⟨n, rfl⟩ := Int.eq_ofNat_of_zero_le (zero_le_one.trans hpos)
  have hn : 0 < n := by omega
  rw [linksErrors, hv, knownHosts, hhosts, Int.toNat_natCast]
  cases v with
  | list links =>
    obtain ⟨unconnected, hun⟩ := connectivityErrors_returns (some (n : ℤ)) links
    simp only [hun, Except.ok.injEq, List.append_eq_nil_iff, entryErrors_eq_nil hn,
      tooManyLinks_eq_nil, randomizationErrors_eq_nil]
    have hgood : ∀ {pairs : List (ℕ × ℕ)}, (∀ p ∈ pairs, GoodPair n p) →
        ∀ p ∈ pairs, p.1 ≠ p.2 ∧ p.1 < n ∧ p.2 < n := by
      intro pairs h p hp
      obtain ⟨hne, h₁, h₂⟩ := h p hp
      exact ⟨hne, by omega, by omega⟩
    constructor
    · rintro ⟨⟨⟨⟨hfew, pairs, rfl, hends⟩, hdup⟩, hrandom⟩, rfl⟩
      rw [validPairs_of_good hn hends] at hdup hun
      refine ⟨⟨pairs, rfl, by simpa using hfew, hends, (duplicateErrors_eq_nil.mp hdup).2, ?_⟩,
        hrandom⟩
      rw [linkGraph_connected hn (hgood hends)]
      exact (connectivityErrors_eq_nil hn (hgood hends)).mp hun
    · rintro ⟨⟨pairs, hpairs, hbuild⟩, hrandom⟩
      cases hpairs
      have hreach := (linkGraph_connected hn (hgood hbuild.ends)).mp hbuild.connected
      have hok := (connectivityErrors_eq_nil (τ := τ) hn (hgood hbuild.ends)).mpr hreach
      rw [validPairs_of_good hn hbuild.ends] at hun ⊢
      rw [hun] at hok
      cases hok
      refine ⟨⟨⟨⟨by simpa using hbuild.few, pairs, rfl, hbuild.ends⟩, ?_⟩, hrandom⟩, rfl⟩
      exact duplicateErrors_eq_nil.mpr ⟨fun p _ => List.not_mem_nil, hbuild.once⟩
  | _ =>
    refine iff_of_false (fun h => ?_) fun h => ?_
    · cases h
    · obtain ⟨⟨pairs, hpairs, -⟩, -⟩ := h
      cases hpairs

end Whole

theorem links_accepted_iff_line :
    linksErrors lineConfig = .ok [] ↔
      (∃ pairs : List (ℕ × ℕ), (.list [.list [.int 0, .int 1], .list [.int 2, .int 1]] : Value Rat)
        = .list (pairs.map pairValue) ∧ Buildable 3 pairs) ∧
      ∀ key ∈ meshRandomizationKeys, ∀ w, lineConfig.get? (.str key) = some w →
        w.pyEq (optionDefault key) = true :=
  links_accepted_iff (show lineConfig.get? "hosts" = some (.int 3) from rfl) (by decide) rfl

end Proof
end CeforeEmu
