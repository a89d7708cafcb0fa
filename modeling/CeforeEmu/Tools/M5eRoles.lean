import CeforeEmu.Core.Centers
import CeforeEmu.Core.Fib

/-!
# Roles for the m5e timeline

`tools/workshop/gen_m5e_config.py`: given the links of a seed's topology and its cache nodes, who of
the hosts plays which part. The parts depend on the nodes between a host and the publisher on its
shortest paths, all of which `_all_shortest_paths` lists: a breadth-first search that keeps every
parent on a shortest path, and a walk back along the parents.

Its loop is given the bound of `compute_distances`, and the walk back the distance it has to go. A
set is a list.
-/

set_option autoImplicit false

namespace CeforeEmu
namespace Tools

open CeforeEmu.Lib CeforeEmu.Core

/-- `CACHE_COUNT`. -/
def cacheCount : Int := 5

/-- `PUBLISHER`. -/
def publisher : Nat := 0

/-! ## `topo_for` -/

/-- The pairs of different hosts of a link, in the order of the two loops. -/
def linkPairs (hosts : List Nat) : List (Nat × Nat) :=
  hosts.flatMap fun a => (hosts.filter fun b => a ≠ b).map fun b => (a, b)

/-- `graph`. -/
def adjacency (links : List (List Nat)) : Graph Nat :=
  (links.flatMap linkPairs).foldl (fun graph pair => addNeighbor graph pair.1 pair.2) []

/-- `ordered`. -/
def ordered (graph : Graph Nat) : Graph Nat :=
  (graph.insertionSort fun a b => a.1 ≤ b.1).map fun e => (e.1, sorted e.2)

/-- `topo_for`, from the hosts of the fingerprint's links on. -/
def topoFor (links : List (List Nat)) : Except Fault (Graph Nat × List Nat) :=
  match selectKCenters (W := Nat) (ordered (adjacency links)) cacheCount none [publisher] with
  | .error err => .error err
  | .ok centers => .ok (ordered (adjacency links), sorted centers)

/-! ## `_all_shortest_paths` -/

/-- `dist`, `parents` and `q`. -/
structure Reached where
  dist : Dict Nat Nat
  parents : Dict Nat (List Nat)
  queue : List Nat

/-- The body of the loop over the neighbours of `n`. A node with a distance above another's is not
    the source, so it has a list of parents already. -/
def reach (n distN : Nat) (st : Reached) (m : Nat) : Reached :=
  match st.dist.get? m with
  | none =>
      { dist := st.dist.set m (distN + 1)
        parents := st.parents.set m [n]
        queue := st.queue ++ [m] }
  | some d =>
      if d = distN + 1 then
        { st with parents := st.parents.set m ((st.parents.get? m).getD [] ++ [n]) }
      else st

/-- The `while q` loop. -/
def reachLoop (graph : Graph Nat) : ℕ → Reached → Except Fault Reached
  | fuel, st =>
      match st.queue with
      | [] => .ok st
      | n :: queue =>
          match fuel with
          | 0 => .error .outOfFuel
          | fuel + 1 =>
              match st.dist.get? n with
              | none => .error (.raised (.keyError (toString n)))
              | some distN =>
                  reachLoop graph fuel
                    (((graph.get? n).getD []).foldl (reach n distN) { st with queue := queue })

/-- The lists of computations one after another, or the first fault. -/
def concatAll {ε β : Type} : List (Except ε (List β)) → Except ε (List β)
  | [] => .ok []
  | .error err :: _ => .error err
  | .ok bs :: rest =>
      match concatAll rest with
      | .error err => .error err
      | .ok bs' => .ok (bs ++ bs')

/-- `walk`. -/
def walkBack (parents : Dict Nat (List Nat)) (src : Nat) :
    ℕ → Nat → List Nat → Except Fault (List (List Nat))
  | fuel, node, acc =>
      if node = src then .ok [src :: acc.reverse]
      else
        match fuel with
        | 0 => .error .outOfFuel
        | fuel + 1 =>
            concatAll (((parents.get? node).getD []).map fun pp =>
              walkBack parents src fuel pp (acc ++ [node]))

/-- `_all_shortest_paths`. -/
def allShortestPaths (graph : Graph Nat) (src dst : Nat) : Except Fault (List (List Nat)) :=
  match reachLoop graph (edgeBound graph) ⟨[(src, 0)], [], [src]⟩ with
  | .error err => .error err
  | .ok st =>
      match st.dist.get? dst with
      | none => .ok []
      | some d => walkBack st.parents src d dst []

/-! ## `pick_roles` -/

/-- `set(p[1:-1]) & cache_set`. -/
def interiorCaches (cacheNodes path : List Nat) : List Nat :=
  path.tail.dropLast.filter fun v => v ∈ cacheNodes

/-- `covered[h]` for the caches on each path: those on all of them, or else those on any. -/
def coverOf : List (List Nat) → List Nat
  | [] => []
  | first :: rest =>
      match first.filter fun v => rest.all fun caches => v ∈ caches with
      | [] => (first :: rest).flatten
      | common => common

/-- `covered` and `uncovered`. -/
structure Coverage where
  covered : Dict Nat (List Nat)
  uncovered : List Nat

/-- The body of the loop over the hosts. -/
def coverHost (graph : Graph Nat) (cacheNodes : List Nat) (h : Nat) (cov : Coverage) :
    Except Fault Coverage :=
  if h ∈ cacheNodes ∨ h = publisher then .ok cov
  else
    match allShortestPaths graph h publisher with
    | .error err => .error err
    | .ok [] => .ok cov
    | .ok paths =>
        let perPath := paths.map (interiorCaches cacheNodes)
        if perPath.all fun caches => caches ≠ [] then
          .ok { cov with covered := cov.covered.set h (coverOf perPath) }
        else if perPath.any fun caches => caches ≠ [] then .ok cov
        else .ok { cov with uncovered := cov.uncovered ++ [h] }

/-- `for h in range(1, host_count)`. -/
def coverHosts (graph : Graph Nat) (cacheNodes : List Nat) :
    List Nat → Coverage → Except Fault Coverage
  | [], cov => .ok cov
  | h :: hs, cov =>
      match coverHost graph cacheNodes h cov with
      | .error err => .error err
      | .ok cov' => coverHosts graph cacheNodes hs cov'

structure Roles where
  protagonist : Nat
  newcomer : Nat
  control : Nat
  unlucky : Nat
  deriving DecidableEq, Repr

/-- `pairs`. -/
def coveredPairs (covered : Dict Nat (List Nat)) : List (Nat × Nat) :=
  covered.flatMap fun a =>
    (covered.filter fun b => a.1 < b.1 ∧ a.2.any fun v => v ∈ b.2).map fun b => (a.1, b.1)

/-- The four roles out of the coverage. -/
def castRoles (cov : Coverage) : Option Roles :=
  match coveredPairs cov.covered, cov.uncovered with
  | [], _ | _, [] => none
  | (protagonist, newcomer) :: _, unlucky :: _ =>
      let controlPool := (cov.covered.map (·.1)).filter fun h => h ≠ protagonist ∧ h ≠ newcomer
      some ⟨protagonist, newcomer, controlPool.headD newcomer, unlucky⟩

/-- `pick_roles`. -/
def pickRoles (graph : Graph Nat) (cacheNodes : List Nat) (hostCount : Nat) :
    Except Fault (Option Roles) :=
  match coverHosts graph cacheNodes ((List.range hostCount).drop 1) ⟨[], []⟩ with
  | .error err => .error err
  | .ok cov => .ok (castRoles cov)

end Tools
end CeforeEmu
