import Mathlib.Algebra.Order.Monoid.WithTop
import Mathlib.Data.List.MinMax
import CeforeEmu.Core.Graph

/-!
# Distances and centres

The rest of `core/graph.py`. `compute_distances` is a breadth-first search when it is given no
weights and Dijkstra's algorithm otherwise; unlike `dijkstra_all` it treats a node that is not in
the graph as one without neighbours. `select_k_centers` takes the smallest node and then, one at a
time, a node that is farthest from what it has taken; `float("inf")` is `⊤`.

The loops of `compute_distances` are given the same bound as that of `dijkstra_all`. The loop of
`select_k_centers` counts down the centres that are missing.
-/

set_option autoImplicit false

namespace CeforeEmu
namespace Core

open Lib

variable {α W : Type} [LinearOrder α] [Add W] [Zero W] [LinearOrder W]

/-! ## `compute_distances` -/

/-- `graph.get(node, [])`, sorted. -/
def neighborsOf (graph : Graph α) (node : α) : List α :=
  ((graph.get? node).getD []).insertionSort (· ≤ ·)

/-- The body of the loop over the neighbours, without weights. -/
def visitNeighbor [One W] (dist : W) (st : Dict α W × List α) (neighbor : α) : Dict α W × List α :=
  if (st.1.get? neighbor).isSome then st
  else (st.1.set neighbor (dist + 1), st.2 ++ [neighbor])

/-- The `while queue` loop. -/
def bfsLoop [One W] [ToString α] (graph : Graph α) :
    ℕ → Dict α W × List α → Except Fault (Dict α W)
  | fuel, (distances, queue) =>
      match queue with
      | [] => .ok distances
      | node :: queue =>
          match fuel with
          | 0 => .error .outOfFuel
          | fuel + 1 =>
              match distances.get? node with
              | none => .error (.raised (.keyError (toString node)))
              | some dist =>
                  bfsLoop graph fuel
                    ((neighborsOf graph node).foldl (visitNeighbor dist) (distances, queue))

/-- The body of the loop over the neighbours, with weights. -/
def relaxNeighbor (weight : α → α → W) (dist : W) (node : α) (st : Dict α W × List (W × α))
    (neighbor : α) : Dict α W × List (W × α) :=
  let newDist := dist + weight node neighbor
  if improves newDist (st.1.get? neighbor) then
    (st.1.set neighbor newDist, pushNode newDist neighbor st.2)
  else st

/-- The `while heap` loop. -/
def heapLoop (graph : Graph α) (weight : α → α → W) :
    ℕ → Dict α W × List (W × α) → Except Fault (Dict α W)
  | fuel, (distances, heap) =>
      match heap with
      | [] => .ok distances
      | (dist, node) :: heap =>
          match fuel with
          | 0 => .error .outOfFuel
          | fuel + 1 =>
              if some dist ≠ distances.get? node then heapLoop graph weight fuel (distances, heap)
              else
                heapLoop graph weight fuel
                  ((neighborsOf graph node).foldl (relaxNeighbor weight dist node)
                    (distances, heap))

/-- `compute_distances`. -/
def computeDistances [One W] [ToString α] (graph : Graph α) (source : α) :
    Option (α → α → W) → Except Fault (Dict α W)
  | none => bfsLoop graph (edgeBound graph) ([(source, 0)], [source])
  | some weight => heapLoop graph weight (edgeBound graph) ([(source, 0)], [(0, source)])

/-! ## `select_k_centers` -/

attribute [local instance] Graph.lawfulBEq_node in
/-- `nodes`. -/
def eligibleNodes (graph : Graph α) (exclude : List α) : List α :=
  ((graph.map (·.1)).insertionSort (· ≤ ·)).filter fun n => n ∉ exclude

/-- `(min_dist.get(node, float("inf")), -node)`: of two nodes the smaller has the greater key. -/
def farKey (minDist : Dict α (WithTop W)) (node : α) : WithTop W ×ₗ αᵒᵈ :=
  toLex ((minDist.get? node).getD ⊤, OrderDual.toDual node)

/-- The body of the loop that lowers `min_dist`. -/
def lowerDist (distMap : Dict α W) (minDist : Dict α (WithTop W)) (node : α) :
    Dict α (WithTop W) :=
  minDist.set node
    (min ((minDist.get? node).getD ⊤) (((distMap.get? node).map WithTop.some).getD ⊤))

attribute [local instance] Graph.lawfulBEq_node in
/-- The `while len(centers) < k` loop, with the number of centres missing. -/
def centersLoop [One W] [ToString α] (graph : Graph α) (weight : Option (α → α → W))
    (nodes : List α) : ℕ → List α → Dict α (WithTop W) → Except Fault (List α)
  | 0, centers, _ => .ok centers
  | missing + 1, centers, minDist =>
      match nodes.argmax (farKey minDist) with
      | none => .error (.raised (.valueError "max() iterable argument is empty"))
      | some farthest =>
          if farthest ∈ centers then .ok centers
          else
            match computeDistances graph farthest weight with
            | .error err => .error err
            | .ok distMap =>
                centersLoop graph weight nodes missing (centers ++ [farthest])
                  (nodes.foldl (lowerDist distMap) minDist)

/-- `select_k_centers`. -/
def selectKCenters [One W] [ToString α] (graph : Graph α) (k : ℤ) (weight : Option (α → α → W))
    (exclude : List α) : Except Fault (List α) :=
  match eligibleNodes graph exclude with
  | [] => .ok []
  | first :: rest =>
      if k ≤ 0 then .ok []
      else
        match computeDistances graph first weight with
        | .error err => .error err
        | .ok distances =>
            centersLoop graph weight (first :: rest) (k - 1).toNat [first]
              (distances.map fun e => (e.1, WithTop.some e.2))

end Core
end CeforeEmu
