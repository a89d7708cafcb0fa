import CeforeEmu.Proof.Distances

/-!
# `dijkstra_all` returns a tree of cheapest paths

The distances are the least costs, so they are there for exactly the nodes that can be reached. The
parents say more than that each node has one: following them comes back to the source, at the cost
that the distance says (`ShortestTree`).

For unit weights the breadth-first search of `compute_distances` keeps other things in mind than
the heap does, but either leaves labels behind that are the least costs, and these are determined.
-/

set_option autoImplicit false

namespace CeforeEmu
namespace Proof

open CeforeEmu.Lib CeforeEmu.Core

/-! ## The tree -/

section Tree

variable {α W : Type} [LinearOrder α]

/-- There is one way to follow the parents. -/
theorem Follows.unique {parents : Dict α (Option α)} {v : α} {p : List α}
    (h : Follows parents v p) : ∀ {q : List α}, Follows parents v q → q = p := by
  induction h with
  | root hv =>
    intro q hq
    cases hq with
    | root _ => rfl
    | step hu _ =>
      rw [hv] at hu
      cases hu
  | step hu _ ih =>
    intro q hq
    cases hq with
    | root hv =>
      rw [hu] at hv
      cases hv
    | step hu' hq =>
      rw [hu] at hu'
      cases hu'
      rw [ih hq]

variable [AddCommMonoid W]

/-- The parents are a tree with root `s` on the nodes that have a distance, and the path of the tree
    to each of them costs what its distance says. -/
structure ShortestTree (graph : Graph α) (w : α → α → W) (s : α) (distances : Dict α W)
    (parents : Dict α (Option α)) : Prop where
  nodes : ∀ v, (parents.get? v).isSome ↔ (distances.get? v).isSome
  root : ∀ v, parents.get? v = some none ↔ v = s
  path : ∀ v d, distances.get? v = some d → ∃ p, Follows parents v p ∧
    SimplePath (EdgeOf graph) s v p.reverse ∧ costAlong w p.reverse = d

/-- What leads back from every node is a tree. -/
theorem Traced.tree {graph : Graph α} {w : α → α → W} {s : α} {done : List α} {st : Search α W}
    (h : Traced graph w s done none st) (hs : (st.distances.get? s).isSome) :
    ShortestTree graph w s st.distances st.parents := by
  have hpath : ∀ v d, st.distances.get? v = some d → ∃ p, Follows st.parents v p ∧
      SimplePath (EdgeOf graph) s v p.reverse ∧ costAlong w p.reverse = d := by
    intro v d hd
    obtain ⟨p, hfollow, hnodup, -, hleads, hcost⟩ := h.follows hd
    exact ⟨p, hfollow, ⟨hleads, List.nodup_reverse.mpr hnodup⟩, hcost⟩
  refine ⟨fun v => ⟨h.labelled, fun hv => ?_⟩, fun v => ⟨fun hv => ?_, fun hv => ?_⟩, hpath⟩
  · obtain ⟨d, hd⟩ := Option.isSome_iff_exists.mp hv
    obtain ⟨p, hfollow, hleads, -⟩ := hpath v d hd
    exact hfollow.isSome v (by simpa using hleads.mem_last)
  · -- the way back from a root is the root, and it comes to the source
    obtain ⟨d, hd⟩ := Option.isSome_iff_exists.mp (h.labelled (v := v) (by rw [hv]; rfl))
    obtain ⟨p, hfollow, hleads, -⟩ := hpath v d hd
    have hp : p = [v] := (Follows.root hv).unique hfollow
    have hfirst := hleads.first
    rw [hp, List.reverse_singleton, List.head?_cons, Option.some.injEq] at hfirst
    exact hfirst
  · -- a simple path from the source to itself has no edge
    subst hv
    obtain ⟨d, hd⟩ := Option.isSome_iff_exists.mp hs
    obtain ⟨p, hfollow, hleads, -⟩ := hpath v d hd
    obtain ⟨rest, hrest⟩ := List.head?_eq_some_iff.mp hleads.first
    have hsingle : [v] = p.reverse :=
      SimplePath.eq_of_prefix (Leads.singleton v) hleads ⟨rest, hrest.symm⟩
    rw [eq_comm, List.reverse_eq_iff, List.reverse_singleton] at hsingle
    subst hsingle
    cases hfollow with
    | root hroot => exact hroot
    | step _ hempty => cases hempty

end Tree

/-! ## Both searches -/

section Search

variable {α W : Type} [LinearOrder α] [ToString α] [Semiring W] [LinearOrder W]
  [IsStrictOrderedRing W]

/-- Labels for the same costs are the same. -/
theorem computeDistances_get? {graph : Graph α} {weight : Option (α → α → W)} {s : α}
    (hw : ∀ a b, EdgeOf graph a b → 0 ≤ stepCost weight a b) (hgraph : ClosedGraph graph)
    (hs : (graph.get? s).isSome) {label : α → Option W}
    (hlabel : Labels (EdgeOf graph) (stepCost weight) s label) :
    ∃ distances, computeDistances graph s weight = .ok distances ∧
      ∀ v, distances.get? v = label v := by
  obtain ⟨distances, hok, hlabels⟩ := computeDistances_spec hw hgraph hs
  refine ⟨distances, hok, fun v => Option.ext fun d => ?_⟩
  rw [hlabels.leastCost, hlabel.leastCost]

/-- `dijkstra_all` ends with a distance for exactly the nodes that can be reached, the least cost of
    a walk there, and with a tree of paths of these costs; for unit weights both searches of
    `compute_distances` end with the same distances. -/
theorem dijkstra_all_shortest_tree {graph : Graph α} {w : α → α → W} {s : α}
    (hw : ∀ a b, 0 ≤ w a b) (hgraph : ClosedGraph graph) (hs : (graph.get? s).isSome) :
    (∃ distances parents, dijkstraAll graph s w = .ok (distances, parents) ∧
      (∀ v, (distances.get? v).isSome ↔ Relation.ReflTransGen (EdgeOf graph) s v) ∧
      (∀ v d, distances.get? v = some d → LeastCost (EdgeOf graph) w s v d) ∧
      ShortestTree graph w s distances parents) ∧
    ∃ distances parents, dijkstraAll graph s (fun _ _ => (1 : W)) = .ok (distances, parents) ∧
      (∃ unweighted, computeDistances graph s (none : Option (α → α → W)) = .ok unweighted ∧
        ∀ v, unweighted.get? v = distances.get? v) ∧
      ∃ weighted, computeDistances graph s (some fun _ _ => (1 : W)) = .ok weighted ∧
        ∀ v, weighted.get? v = distances.get? v := by
  constructor
  · obtain ⟨st, done, hloop, hlabels, ht⟩ := dijkstraLoop_labels (fun a b _ => hw a b) hgraph hs
    refine ⟨st.distances, st.parents, by rw [dijkstraAll, hloop], fun v => ?_,
      fun v d => (hlabels.leastCost v d).mp, ht.tree ?_⟩
    · rw [← exists_walk_iff (w := w), Option.isSome_iff_exists]
      constructor
      · rintro ⟨d, hd⟩
        exact ⟨d, hlabels.walk v d hd⟩
      · rintro ⟨c, hwalk⟩
        exact hlabels.exists_of_walk hwalk
    · obtain ⟨d, hd, -⟩ := hlabels.source
      rw [hd]
      rfl
  · have hone : ∀ a b, EdgeOf graph a b → (0 : W) ≤ 1 := fun _ _ _ => zero_le_one
    obtain ⟨st, -, hloop, hlabels, -⟩ := dijkstraLoop_labels hone hgraph hs
    exact ⟨st.distances, st.parents, by rw [dijkstraAll, hloop],
      computeDistances_get? hone hgraph hs hlabels, computeDistances_get? hone hgraph hs hlabels⟩

end Search

/-- From `0` two edges lead to a circle that costs nothing, and none leads to `3`. -/
def circled : Graph ℕ := [(0, [1, 2]), (1, [2]), (2, [1]), (3, [0])]

def circledCost (a b : ℕ) : ℕ := if a = 0 then b else 0

theorem circled_tree :
    dijkstraAll circled 0 circledCost =
        .ok ([(0, 0), (1, 1), (2, 1)], [(0, none), (1, some 0), (2, some 1)]) ∧
      ShortestTree circled circledCost 0 [(0, 0), (1, 1), (2, 1)]
        [(0, none), (1, some 0), (2, some 1)] := by
  have hclosed : ClosedGraph circled := closedGraph_of_entries (by decide)
  have hok : dijkstraAll circled 0 circledCost =
      .ok ([(0, 0), (1, 1), (2, 1)], [(0, none), (1, some 0), (2, some 1)]) := by rfl
  obtain ⟨⟨distances, parents, hrun, -, -, htree⟩, -⟩ :=
    dijkstra_all_shortest_tree (fun a b => Nat.zero_le (circledCost a b)) hclosed (s := 0) rfl
  rw [hok] at hrun
  cases hrun
  exact ⟨hok, htree⟩

end Proof
end CeforeEmu
