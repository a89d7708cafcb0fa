import Mathlib.Data.List.Perm.Subperm
import Mathlib.Data.Nat.Init
import Mathlib.Logic.Relation
import Mathlib.Tactic.Common
import CeforeEmu.Lib.Dict
import CeforeEmu.Lib.Py

/-!
# Searching a graph with a stack

A graph is a dictionary of neighbour lists. A search keeps what it has found and a stack of what
it has found and not yet looked at; it takes a node from the stack, puts the neighbours it meets
for the first time on it, and ends when the stack is empty. In which order the neighbours come
does not matter:

* `search_spec` — with as much fuel as there are nodes the search ends, and it has found exactly
  what can be reached;
* `length_eq_iff` — so it has found as many as there are nodes exactly when everything can be
  reached.
-/

set_option autoImplicit false

namespace CeforeEmu
namespace Lib

variable {α : Type} [DecidableEq α]

/-- What has been found, and what of it is still to be looked at. -/
structure Frontier (α : Type) where
  visited : List α
  stack : List α

/-- A neighbour that is met for the first time is found. -/
def Frontier.discover (f : Frontier α) (v : α) : Frontier α :=
  if v ∈ f.visited then f else ⟨f.visited ++ [v], v :: f.stack⟩

/-- The `while stack` loop. -/
def search [ToString α] (graph : Dict α (List α)) : ℕ → Frontier α → Except Fault (List α)
  | fuel, f =>
      match f.stack with
      | [] => .ok f.visited
      | node :: stack =>
          match fuel with
          | 0 => .error .outOfFuel
          | fuel + 1 =>
              match graph.get? node with
              | none => .error (.raised (.keyError (toString node)))
              | some neighbors =>
                  search graph fuel (neighbors.foldl Frontier.discover ⟨f.visited, stack⟩)

/-- `u` is listed as a neighbour of `v`. -/
def Dict.Edge (graph : Dict α (List α)) (v u : α) : Prop :=
  ∃ neighbors, graph.get? v = some neighbors ∧ u ∈ neighbors

/-! ## One node -/

/-- What looking at the neighbours of a node does. -/
structure Frontier.Grown (neighbors : List α) (f f' : Frontier α) : Prop where
  visited : ∀ v, v ∈ f'.visited ↔ v ∈ f.visited ∨ v ∈ neighbors
  stack : ∀ v, v ∈ f'.stack ↔ v ∈ f.stack ∨ (v ∈ neighbors ∧ v ∉ f.visited)
  nodup : f.visited.Nodup → f'.visited.Nodup
  count : f'.visited.length + f.stack.length = f.visited.length + f'.stack.length

theorem Frontier.discover_grown (f : Frontier α) (v : α) : f.Grown [v] (f.discover v) := by
  rw [discover]
  by_cases hv : v ∈ f.visited
  · rw [if_pos hv]
    refine ⟨fun u => ?_, fun u => ?_, fun h => h, rfl⟩
    · rw [List.mem_singleton]
      constructor
      · exact .inl
      · rintro (h | rfl)
        · exact h
        · exact hv
    · rw [List.mem_singleton]
      constructor
      · exact .inl
      · rintro (h | ⟨rfl, hu⟩)
        · exact h
        · exact absurd hv hu
  · rw [if_neg hv]
    refine ⟨fun u => by simp, fun u => ?_, fun h => ?_, ?_⟩
    · rw [List.mem_cons, List.mem_singleton]
      constructor
      · rintro (rfl | h)
        · exact .inr ⟨rfl, hv⟩
        · exact .inl h
      · rintro (h | ⟨rfl, -⟩)
        · exact .inr h
        · exact .inl rfl
    · rw [List.nodup_append]
      refine ⟨h, List.nodup_singleton v, fun a ha b hb heq => ?_⟩
      rw [List.mem_singleton.mp hb] at heq
      exact hv (heq ▸ ha)
    · simp only [List.length_append, List.length_cons, List.length_nil]
      omega

theorem Frontier.foldl_grown : ∀ (neighbors : List α) (f : Frontier α),
    f.Grown neighbors (neighbors.foldl Frontier.discover f)
  | [], f => ⟨fun v => by simp, fun v => by simp, fun h => h, rfl⟩
  | u :: rest, f => by
    have h₁ := f.discover_grown u
    have h₂ := foldl_grown rest (f.discover u)
    rw [List.foldl_cons]
    refine ⟨fun v => ?_, fun v => ?_, fun h => h₂.nodup (h₁.nodup h), ?_⟩
    · rw [h₂.visited, h₁.visited, List.mem_singleton, List.mem_cons, or_assoc]
    · rw [h₂.stack, h₁.stack, h₁.visited, List.mem_singleton, List.mem_cons]
      by_cases hvu : v = u
      · simp [hvu]
      · simp [hvu]
    · have hc₁ := h₁.count
      have hc₂ := h₂.count
      omega

/-! ## The whole search -/

section Search

variable {graph : Dict α (List α)} {s : α}

/-- Everything found can be reached, and whatever is not on the stack has been looked at. -/
structure Frontier.Ok (graph : Dict α (List α)) (s : α) (f : Frontier α) : Prop where
  start : s ∈ f.visited
  nodup : f.visited.Nodup
  reach : ∀ v ∈ f.visited, Relation.ReflTransGen graph.Edge s v
  pending : ∀ v ∈ f.stack, v ∈ f.visited
  expanded : ∀ v ∈ f.visited, v ∉ f.stack → ∀ u, graph.Edge v u → u ∈ f.visited

/-- Looking at one node keeps the invariant. -/
theorem Frontier.Ok.expand {visited stack neighbors : List α} {node : α} {f' : Frontier α}
    (h : Frontier.Ok graph s ⟨visited, node :: stack⟩) (hnode : graph.get? node = some neighbors)
    (hg : Frontier.Grown neighbors ⟨visited, stack⟩ f') : Frontier.Ok graph s f' where
  start := (hg.visited s).mpr (.inl h.start)
  nodup := hg.nodup h.nodup
  reach v hv := by
    rcases (hg.visited v).mp hv with hv | hv
    · exact h.reach v hv
    · exact (h.reach node (h.pending node List.mem_cons_self)).tail ⟨neighbors, hnode, hv⟩
  pending v hv := by
    rcases (hg.stack v).mp hv with hv | ⟨hv, -⟩
    · exact (hg.visited v).mpr (.inl (h.pending v (List.mem_cons_of_mem _ hv)))
    · exact (hg.visited v).mpr (.inr hv)
  expanded v hv hstack u hedge := by
    by_cases heq : v = node
    · obtain ⟨nbrs, hnbrs, hu⟩ := hedge
      rw [heq, hnode, Option.some.injEq] at hnbrs
      exact (hg.visited u).mpr (.inr (hnbrs ▸ hu))
    · rw [hg.stack, not_or, not_and, not_not] at hstack
      have hv' : v ∈ visited := by
        rcases (hg.visited v).mp hv with hv | hv
        · exact hv
        · exact hstack.2 hv
      refine (hg.visited u).mpr (.inl (h.expanded v hv' (fun hmem => ?_) u hedge))
      rcases List.mem_cons.mp hmem with hmem | hmem
      · exact heq hmem
      · exact hstack.1 hmem

variable {nodes : List α} (hclosed : ∀ v ∈ nodes, ∀ u, graph.Edge v u → u ∈ nodes)
include hclosed

theorem mem_nodes_of_reach (hs : s ∈ nodes) {v : α} (h : Relation.ReflTransGen graph.Edge s v) :
    v ∈ nodes := by
  induction h with
  | refl => exact hs
  | tail _ hedge ih => exact hclosed _ ih _ hedge

/-- Finding as many as there are nodes is finding all. -/
theorem length_eq_iff (hs : s ∈ nodes) (hnodup : nodes.Nodup) {visited : List α}
    (hv : visited.Nodup) (hreach : ∀ v, v ∈ visited ↔ Relation.ReflTransGen graph.Edge s v) :
    visited.length = nodes.length ↔ ∀ v ∈ nodes, Relation.ReflTransGen graph.Edge s v := by
  have hsub : visited.Subperm nodes := List.subperm_of_subset hv fun v hmem =>
    mem_nodes_of_reach hclosed hs ((hreach v).mp hmem)
  constructor
  · intro hlen v hmem
    exact (hreach v).mp ((hsub.perm_of_length_le hlen.ge).mem_iff.mpr hmem)
  · intro hall
    refine le_antisymm hsub.length_le ?_
    exact (List.subperm_of_subset hnodup fun v hmem => (hreach v).mpr (hall v hmem)).length_le

variable [ToString α] (hnodes : ∀ v ∈ nodes, (graph.get? v).isSome)
include hnodes

/-- From any state that is in order the search ends, in one. The fuel is what has not been found
    and what is on the stack: looking at a node moves nodes from the one to the other. -/
theorem search_ok (hs : s ∈ nodes) : ∀ (fuel : ℕ) (f : Frontier α), Frontier.Ok graph s f →
    (nodes.length - f.visited.length) + f.stack.length ≤ fuel →
    ∃ visited, search graph fuel f = .ok visited ∧ Frontier.Ok graph s ⟨visited, []⟩
  | fuel, ⟨visited, []⟩, hok, _ => by
    refine ⟨visited, ?_, hok⟩
    rw [search]
  | 0, ⟨visited, node :: stack⟩, _, hfuel => by
    simp only [List.length_cons] at hfuel
    omega
  | fuel + 1, ⟨visited, node :: stack⟩, hok, hfuel => by
    have hmem : node ∈ nodes := mem_nodes_of_reach hclosed hs
      (hok.reach node (hok.pending node List.mem_cons_self))
    obtain ⟨neighbors, hneighbors⟩ := Option.isSome_iff_exists.mp (hnodes node hmem)
    have hg := Frontier.foldl_grown neighbors ⟨visited, stack⟩
    have hok' := hok.expand hneighbors hg
    have hle : ∀ {f : Frontier α}, Frontier.Ok graph s f → f.visited.length ≤ nodes.length := by
      intro f hf
      refine (List.subperm_of_subset hf.nodup fun v hv => ?_).length_le
      exact mem_nodes_of_reach hclosed hs (hf.reach v hv)
    have hcount := hg.count
    have hlen := hle hok
    have hlen' := hle hok'
    simp only [List.length_cons] at hfuel hcount hlen
    obtain ⟨visited', hsearch, hdone⟩ := search_ok hs fuel _ hok' (by omega)
    refine ⟨visited', ?_, hdone⟩
    rw [search]
    simp only [hneighbors]
    exact hsearch

/-- **A search finds what can be reached.** -/
theorem search_spec (hs : s ∈ nodes) :
    ∃ visited, search graph nodes.length ⟨[s], [s]⟩ = .ok visited ∧ visited.Nodup ∧
      ∀ v, v ∈ visited ↔ Relation.ReflTransGen graph.Edge s v := by
  have hok : Frontier.Ok graph s ⟨[s], [s]⟩ := by
    refine ⟨List.mem_cons_self, List.nodup_singleton s, fun v hv => ?_, fun v hv => hv,
      fun v hv hnot => absurd hv hnot⟩
    rw [List.mem_singleton.mp hv]
  have hpos : 0 < nodes.length := List.length_pos_of_mem hs
  obtain ⟨visited, hsearch, hdone⟩ := search_ok hclosed hnodes hs nodes.length _ hok
    (by simp only [List.length_cons, List.length_nil]; omega)
  refine ⟨visited, hsearch, hdone.nodup, fun v => ⟨hdone.reach v, fun hreach => ?_⟩⟩
  induction hreach with
  | refl => exact hdone.start
  | tail _ hedge ih => exact hdone.expanded _ ih List.not_mem_nil _ hedge

end Search

end Lib
end CeforeEmu
