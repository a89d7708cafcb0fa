import Mathlib
import CeforeEmu.Lib.Dict
import CeforeEmu.Lib.Py

/-!
# Graph algorithms

`core/graph.py`. A graph maps each node to the set of its neighbours; a set is a list here, and
the code sorts it before the order could matter. The heap of `(distance, node)` pairs is a list
sorted as tuples are.

`dijkstra_all` runs until its heap is empty, and `shortest_path` until it comes to its target. The
model counts the turns of the loop, and the bound it is given is one more than the number of
edges; that it always suffices is proved with the distances. A weight function left out is `1`
everywhere, and a set of bans left out is empty.

`k_shortest_paths` is Yen's algorithm. Its candidates are a list that grows, in which one path may
stand several times, and its main loop has a fixed number of turns.
-/

set_option autoImplicit false

namespace CeforeEmu
namespace Core

open Lib

variable {α W : Type} [LinearOrder α] [Add W] [Zero W] [LinearOrder W]

abbrev Graph (α : Type) := Dict α (List α)

/-- The variables of `dijkstra_all`. -/
structure Search (α W : Type) where
  distances : Dict α W
  parents : Dict α (Option α)
  heap : List (W × α)

/-- `heapq.heappush(heap, (dist, node))`. -/
def pushNode (dist : W) (node : α) (heap : List (W × α)) : List (W × α) :=
  heap.orderedInsert (fun a b => toLex a ≤ toLex b) (dist, node)

/-- `new_dist < distances.get(neighbor, float("inf"))`. -/
def improves (newDist : W) : Option W → Bool
  | none => true
  | some d => newDist < d

/-- The body of the loop over the neighbours. -/
def relax (weight : α → α → W) (dist : W) (node : α) (st : Search α W) (neighbor : α) :
    Search α W :=
  let newDist := dist + weight node neighbor
  if improves newDist (st.distances.get? neighbor) then
    { distances := st.distances.set neighbor newDist
      parents := st.parents.set neighbor (some node)
      heap := pushNode newDist neighbor st.heap }
  else st

/-- The `while heap` loop. -/
def dijkstraLoop [ToString α] (graph : Graph α) (weight : α → α → W) :
    ℕ → Search α W → Except Fault (Search α W)
  | fuel, st =>
      match st.heap with
      | [] => .ok st
      | (dist, node) :: heap =>
          match fuel with
          | 0 => .error .outOfFuel
          | fuel + 1 =>
              if some dist ≠ st.distances.get? node then
                dijkstraLoop graph weight fuel { st with heap := heap }
              else
                match graph.get? node with
                | none => .error (.raised (.keyError (toString node)))
                | some neighbors =>
                    dijkstraLoop graph weight fuel
                      ((neighbors.insertionSort (· ≤ ·)).foldl (relax weight dist node)
                        { st with heap := heap })

/-- How many turns the loop can take. -/
def edgeBound (graph : Graph α) : ℕ := 1 + (graph.map fun e => e.2.length).sum

/-- `dijkstra_all`: the distances and the parents. -/
def dijkstraAll [ToString α] (graph : Graph α) (source : α) (weight : α → α → W) :
    Except Fault (Dict α W × Dict α (Option α)) :=
  match dijkstraLoop graph weight (edgeBound graph)
      ⟨[(source, 0)], [(source, none)], [(0, source)]⟩ with
  | .ok st => .ok (st.distances, st.parents)
  | .error err => .error err

/-! ## One path -/

/-- `frozenset((a, b)) in banned_edges`. -/
def edgeBanned (bannedEdges : List (α × α)) (a b : α) : Bool :=
  (a, b) ∈ bannedEdges ∨ (b, a) ∈ bannedEdges

/-- The two `continue`s of the loop over the neighbours. -/
def allowed (bannedEdges : List (α × α)) (bannedNodes : List α) (target node neighbor : α) : Bool :=
  ¬ edgeBanned bannedEdges node neighbor ∧ ¬ (neighbor ∈ bannedNodes ∧ neighbor ≠ target)

/-- The `while heap` loop of `shortest_path`, which ends at the target. -/
def shortestPathLoop [ToString α] (graph : Graph α) (target : α) (bannedEdges : List (α × α))
    (bannedNodes : List α) (weight : α → α → W) : ℕ → Search α W → Except Fault (Search α W)
  | fuel, st =>
      match st.heap with
      | [] => .ok st
      | (dist, node) :: heap =>
          match fuel with
          | 0 => .error .outOfFuel
          | fuel + 1 =>
              if node = target then .ok { st with heap := heap }
              else if some dist ≠ st.distances.get? node then
                shortestPathLoop graph target bannedEdges bannedNodes weight fuel
                  { st with heap := heap }
              else
                match graph.get? node with
                | none => .error (.raised (.keyError (toString node)))
                | some neighbors =>
                    shortestPathLoop graph target bannedEdges bannedNodes weight fuel
                      (((neighbors.insertionSort (· ≤ ·)).filter
                          (allowed bannedEdges bannedNodes target node)).foldl
                        (relax weight dist node) { st with heap := heap })

/-- The `while node is not None` loop; the path comes out from the target back. -/
def followParents [ToString α] (parents : Dict α (Option α)) :
    ℕ → α → Except Fault (List α)
  | 0, _ => .error .outOfFuel
  | fuel + 1, node =>
      match parents.get? node with
      | none => .error (.raised (.keyError (toString node)))
      | some none => .ok [node]
      | some (some parent) =>
          match followParents parents fuel parent with
          | .error err => .error err
          | .ok path => .ok (node :: path)

/-- `shortest_path`. -/
def shortestPath [ToString α] (graph : Graph α) (source target : α) (bannedEdges : List (α × α))
    (bannedNodes : List α) (weight : α → α → W) : Except Fault (Option (List α)) :=
  if source = target then .ok (some [source])
  else
    match shortestPathLoop graph target bannedEdges bannedNodes weight (edgeBound graph)
        ⟨[(source, 0)], [(source, none)], [(0, source)]⟩ with
    | .error err => .error err
    | .ok st =>
        if (st.parents.get? target).isNone then .ok none
        else
          match followParents st.parents st.parents.length target with
          | .error err => .error err
          | .ok path => .ok (some path.reverse)

/-! ## Several paths -/

/-- `path_cost`. -/
def pathCost (weight : α → α → W) (path : List α) : W := (List.zipWith weight path path.tail).sum

/-- The loop over `paths` that collects the edges to ban after a root. -/
def bannedAfter (root : List α) : List (List α) → Except PyErr (List (α × α))
  | [] => .ok []
  | path :: paths =>
      match bannedAfter root paths with
      | .error err => .error err
      | .ok edges =>
          if path.take root.length = root then
            match path[root.length - 1]?, path[root.length]? with
            | some a, some b => .ok ((a, b) :: edges)
            | _, _ => .error (.indexError "list index out of range")
          else .ok edges

/-- One turn of the loop over the spur nodes; the root is `previous[:i + 1]`. -/
def spurPath [ToString α] (graph : Graph α) (target : α) (weight : α → α → W)
    (paths : List (List α)) (root : List α) : Except Fault (Option (List α)) :=
  match root.getLast? with
  | none => .ok none
  | some spurNode =>
      match bannedAfter root paths with
      | .error err => .error (.raised err)
      | .ok bannedEdges =>
          match shortestPath graph spurNode target bannedEdges root.dropLast weight with
          | .error err => .error err
          | .ok none => .ok none
          | .ok (some spur) => .ok (some (root.dropLast ++ spur))

/-- The loop over the spur nodes: what it appends to the candidates. -/
def spurPaths [ToString α] (graph : Graph α) (target : α) (weight : α → α → W)
    (paths : List (List α)) : List (List α) → Except Fault (List (List α))
  | [] => .ok []
  | root :: roots =>
      match spurPath graph target weight paths root with
      | .error err => .error err
      | .ok found =>
          match spurPaths graph target weight paths roots with
          | .error err => .error err
          | .ok rest => .ok (found.toList ++ rest)

/-- The variables of `k_shortest_paths`. -/
structure Yen (α : Type) where
  paths : List (List α)
  candidates : List (List α)

/-- `previous[: i + 1]` for `i` in `range(len(previous) - 1)`. -/
def roots (previous : List α) : List (List α) :=
  (List.range (previous.length - 1)).map fun i => previous.take (i + 1)

/-- `candidates.sort(key=lambda p: (path_cost(p, weight_fn), p))`. -/
def sortCandidates (weight : α → α → W) (candidates : List (List α)) : List (List α) :=
  candidates.insertionSort fun p q => toLex (pathCost weight p, p) ≤ toLex (pathCost weight q, q)

/-- One turn of the main loop; `none` is its `break`. -/
def yenRound [ToString α] (graph : Graph α) (target : α) (weight : α → α → W) (st : Yen α) :
    Except Fault (Option (Yen α)) :=
  match spurPaths graph target weight st.paths (roots (st.paths.getLastD [])) with
  | .error err => .error err
  | .ok found =>
      match sortCandidates weight (st.candidates ++ found) with
      | [] => .ok none
      | next :: rest =>
          .ok (some ⟨if next ∈ st.paths then st.paths else st.paths ++ [next], rest⟩)

/-- The main loop, with the number of turns it has left. -/
def yenLoop [ToString α] (graph : Graph α) (target : α) (weight : α → α → W) :
    ℕ → Yen α → Except Fault (Yen α)
  | 0, st => .ok st
  | n + 1, st =>
      match yenRound graph target weight st with
      | .error err => .error err
      | .ok none => .ok st
      | .ok (some st') => yenLoop graph target weight n st'

/-- `xs[:k]`; a negative bound counts from the end. -/
def sliceTo {α : Type} (xs : List α) (k : Int) : List α :=
  xs.take (if 0 ≤ k then k.toNat else xs.length - (-k).toNat)

/-- `k_shortest_paths`. -/
def kShortestPaths [ToString α] (graph : Graph α) (source target : α) (kPaths : Int)
    (weight : α → α → W) : Except Fault (List (List α)) :=
  match shortestPath graph source target [] [] weight with
  | .error err => .error err
  | .ok none => .ok []
  | .ok (some first) =>
      match yenLoop graph target weight (kPaths - 1).toNat ⟨[first], []⟩ with
      | .error err => .error err
      | .ok st => .ok (sliceTo st.paths kPaths)

/-! ## Membership

The memberships other modules decide, of nodes and of paths, rest on these two. -/

theorem Graph.lawfulBEq_node {α : Type} [LinearOrder α] : LawfulBEq α := inferInstance

theorem Graph.lawfulBEq_path {α : Type} [LinearOrder α] : LawfulBEq (List α) := inferInstance

end Core
end CeforeEmu
