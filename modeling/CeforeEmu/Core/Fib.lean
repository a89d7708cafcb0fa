import CeforeEmu.Core.Addressing
import CeforeEmu.Core.Graph

/-!
# FIB computation

`core/fib.py`: the host graph of a topology, the candidate next hops of a host towards a
destination, and the routing strategies. `_add_routes` of `compute_fib_for_uris` and `_add_ecmp`
of the multi-path strategy differ in which of the sorted candidates they keep, so they are one
definition with that choice as a parameter; the loops around them are written as the list of
calls they make, in their order. A map a caller leaves out (`None`) is empty.
-/

set_option autoImplicit false

namespace CeforeEmu
namespace Core

open Lib

/-- A single FIB route entry. -/
structure Route where
  source : Nat
  uriPrefix : String
  nextHop : Nat
  nextHopIp : String
  deriving DecidableEq, Repr

/-! ## The host graph -/

/-- `graph[a].add(b)`. Every host of a link is below `host_count`, so the key is there. -/
def addNeighbor (graph : Graph Nat) (a b : Nat) : Graph Nat :=
  let nbrs := (graph.get? a).getD []
  graph.set a (if b ∈ nbrs then nbrs else nbrs ++ [b])

def addLink (acc : Graph Nat × Dict (Nat × Nat) (Option Int)) (edge : Nat × Nat × Link) :
    Graph Nat × Dict (Nat × Nat) (Option Int) :=
  (addNeighbor (addNeighbor acc.1 edge.1 edge.2.1) edge.2.1 edge.1,
    acc.2.set (edge.1, edge.2.1) edge.2.2.subnet)

/-- `build_graph_and_subnets`. -/
def buildGraphAndSubnets (meshLinks : List RawLink) :
    Except PyErr (Nat × Graph Nat × Dict (Nat × Nat) (Option Int)) :=
  let links := topologyLinks meshLinks
  match hostCount links with
  | .error err => .error err
  | .ok hostNum =>
      let acc := (edges links).foldl addLink ((List.range hostNum).map fun i => (i, []), [])
      .ok (hostNum, acc.1, acc.2)

/-- What every strategy starts from. -/
structure FibTables where
  hostNum : Nat
  graph : Graph Nat
  linkSubnets : Dict (Nat × Nat) (Option Int)
  /-- `all_dist`: the distances from each host. -/
  allDist : List (Dict Nat Nat)

/-- `[dijkstra_all(graph, src)[0] for src in range(host_num)]`. -/
def distancesFrom (graph : Graph Nat) : List Nat → Except Fault (List (Dict Nat Nat))
  | [] => .ok []
  | src :: srcs =>
      match dijkstraAll graph src fun _ _ => 1 with
      | .error err => .error err
      | .ok (distances, _) =>
          match distancesFrom graph srcs with
          | .error err => .error err
          | .ok rest => .ok (distances :: rest)

def fibTables (meshLinks : List RawLink) : Except Fault FibTables :=
  match buildGraphAndSubnets meshLinks with
  | .error err => .error (.raised err)
  | .ok (hostNum, graph, linkSubnets) =>
      match distancesFrom graph (List.range hostNum) with
      | .error err => .error err
      | .ok allDist => .ok ⟨hostNum, graph, linkSubnets, allDist⟩

/-! ## Next hops -/

/-- The neighbours from which the destination can be reached, with what going that way costs,
    sorted. -/
def candidates (tables : FibTables) (src dest : Nat) : Except PyErr (List (Nat × Nat)) :=
  match tables.graph.get? src with
  | none => .error (.keyError (toString src))
  | some nbrs =>
      .ok ((nbrs.filterMap fun neighbor =>
        ((tables.allDist.getD neighbor []).get? dest).map fun d => (1 + d, neighbor)).insertionSort
          fun a b => toLex a ≤ toLex b)

/-- `candidates[:k_paths]`. -/
def pickBest (k : Int) (cands : List (Nat × Nat)) : List Nat := (sliceTo cands k).map (·.2)

/-- All candidates of the least cost: the loop stops at the first that costs more. -/
def pickEqualCost (cands : List (Nat × Nat)) : List Nat :=
  match cands with
  | [] => []
  | (minCost, _) :: _ => (cands.takeWhile fun c => c.1 ≤ minCost).map (·.2)

/-- The address of a next hop, on the link it shares with the source. -/
def nextHopIp (scheme : AddressingScheme) (tables : FibTables) (src nextHop : Nat) :
    Except PyErr String :=
  match tables.linkSubnets.get? (min src nextHop, max src nextHop) with
  | none => .error (.keyError ("(" ++ toString (min src nextHop) ++ ", "
      ++ toString (max src nextHop) ++ ")"))
  | some none => .error (.typeError "unsupported operand type(s) for +: 'int' and 'NoneType'")
  | some (some subnet) => scheme.hostIp subnet nextHop

/-- The routes found so far, and the keys they were added under. -/
structure RouteTable where
  routes : List Route
  seen : List (Nat × String × String)

/-- Add one next hop, unless its key has been seen. -/
def addHop (scheme : AddressingScheme) (tables : FibTables) (src : Nat) (uriPrefix : String)
    (table : RouteTable) (nextHop : Nat) : Except PyErr RouteTable :=
  match nextHopIp scheme tables src nextHop with
  | .error err => .error err
  | .ok ip =>
      if (src, uriPrefix, ip) ∈ table.seen then .ok table
      else .ok ⟨table.routes ++ [⟨src, uriPrefix, nextHop, ip⟩], table.seen ++ [(src, uriPrefix, ip)]⟩

/-- Add one next hop; `compute_fib` meets no key twice and keeps none. -/
def appendHop (scheme : AddressingScheme) (tables : FibTables) (src : Nat) (uriPrefix : String)
    (table : RouteTable) (nextHop : Nat) : Except PyErr RouteTable :=
  match nextHopIp scheme tables src nextHop with
  | .error err => .error err
  | .ok ip => .ok { table with routes := table.routes ++ [⟨src, uriPrefix, nextHop, ip⟩] }

/-- A call of `_add_routes` or `_add_ecmp`. -/
structure Visit where
  src : Nat
  dest : Nat
  uriPrefix : String
  deriving DecidableEq, Repr

/-- How the next hops of a visit are chosen and added. -/
structure HopRule where
  pick : List (Nat × Nat) → List Nat
  add : AddressingScheme → FibTables → Nat → String → RouteTable → Nat → Except PyErr RouteTable

def addHops (rule : HopRule) (scheme : AddressingScheme) (tables : FibTables) (visit : Visit) :
    List Nat → RouteTable → Except PyErr RouteTable
  | [], table => .ok table
  | nextHop :: rest, table =>
      match rule.add scheme tables visit.src visit.uriPrefix table nextHop with
      | .error err => .error err
      | .ok table' => addHops rule scheme tables visit rest table'

/-- `_add_routes`, `_add_ecmp`, and the loop body of `compute_fib`. -/
def addRoutes (rule : HopRule) (scheme : AddressingScheme) (tables : FibTables) (visit : Visit)
    (table : RouteTable) : Except PyErr RouteTable :=
  match candidates tables visit.src visit.dest with
  | .error err => .error err
  | .ok cands => addHops rule scheme tables visit (rule.pick cands) table

def runVisits (rule : HopRule) (scheme : AddressingScheme) (tables : FibTables) :
    List Visit → RouteTable → Except PyErr RouteTable
  | [], table => .ok table
  | visit :: rest, table =>
      match addRoutes rule scheme tables visit table with
      | .error err => .error err
      | .ok table' => runVisits rule scheme tables rest table'

/-! ## Strategies -/

/-- Pass 1: everyone else towards the destination. -/
def visitsTo (hostNum : Nat) (entry : String × Nat) : List Visit :=
  ((List.range hostNum).filter fun src => src ≠ entry.2).map fun src => ⟨src, entry.2, entry.1⟩

/-- Pass 2: the publisher towards everyone else. -/
def visitsFrom (hostNum : Nat) (entry : String × Nat) : List Visit :=
  ((List.range hostNum).filter fun dest => dest ≠ entry.2).map fun dest => ⟨entry.2, dest, entry.1⟩

def defaultPrefix (dest : Nat) : String := "ccnx:/test/example" ++ toString (dest + 1)

/-- The visits of `compute_fib`. -/
def visitsDefault (hostNum : Nat) : List Visit :=
  (List.range hostNum).flatMap fun src =>
    ((List.range hostNum).filter fun dest => src ≠ dest).map fun dest =>
      ⟨src, dest, defaultPrefix dest⟩

/-- The visits of `compute_fib_for_uris`. -/
def visitsForUris (hostNum : Nat) (uriPublishers prefixRoutes : Dict String Nat) : List Visit :=
  (uriPublishers.flatMap fun entry => visitsTo hostNum entry ++ visitsFrom hostNum entry)
    ++ prefixRoutes.flatMap (visitsTo hostNum)

/-- The visits of `EqualCostMultiPathStrategy.compute_routes`. -/
def visitsEcmp (hostNum : Nat) (uriPublishers prefixRoutes : Dict String Nat) : List Visit :=
  let destinations :=
    if uriPublishers ≠ [] ∨ prefixRoutes ≠ [] then uriPublishers
    else (List.range hostNum).map fun d => (defaultPrefix d, d)
  destinations.flatMap (visitsTo hostNum) ++ uriPublishers.flatMap (visitsFrom hostNum)
    ++ prefixRoutes.flatMap (visitsTo hostNum)

/-- The tables, the visits, the routes. -/
def computeWith (rule : HopRule) (meshLinks : List RawLink) (scheme : AddressingScheme)
    (visits : Nat → List Visit) : Except Fault (List Route) :=
  match fibTables meshLinks with
  | .error err => .error err
  | .ok tables =>
      match runVisits rule scheme tables (visits tables.hostNum) ⟨[], []⟩ with
      | .error err => .error (.raised err)
      | .ok table => .ok table.routes

/-- `compute_fib`. -/
def computeFib (meshLinks : List RawLink) (k : Int) (scheme : AddressingScheme) :
    Except Fault (List Route) :=
  computeWith ⟨pickBest k, appendHop⟩ meshLinks scheme visitsDefault

/-- `compute_fib_for_uris`. -/
def computeFibForUris (meshLinks : List RawLink) (k : Int) (uriPublishers : Dict String Nat)
    (scheme : AddressingScheme) (prefixRoutes : Dict String Nat) : Except Fault (List Route) :=
  computeWith ⟨pickBest k, addHop⟩ meshLinks scheme fun hostNum =>
    visitsForUris hostNum uriPublishers prefixRoutes

inductive RoutingStrategy where
  | dijkstra
  | shortestPath
  | ecmp
  deriving DecidableEq, Repr

/-- `DijkstraStrategy.compute_routes`, and with `k = 1` that of `ShortestPathOnlyStrategy`. -/
def bestRoutes (meshLinks : List RawLink) (k : Int) (uriPublishers : Dict String Nat)
    (scheme : AddressingScheme) (prefixRoutes : Dict String Nat) : Except Fault (List Route) :=
  if uriPublishers ≠ [] ∨ prefixRoutes ≠ [] then
    computeFibForUris meshLinks k uriPublishers scheme prefixRoutes
  else computeFib meshLinks k scheme

/-- `compute_routes` of each strategy. -/
def RoutingStrategy.computeRoutes (strategy : RoutingStrategy) (meshLinks : List RawLink)
    (kPaths : Int) (uriPublishers : Dict String Nat) (scheme : AddressingScheme)
    (prefixRoutes : Dict String Nat) : Except Fault (List Route) :=
  match strategy with
  | .dijkstra => bestRoutes meshLinks kPaths uriPublishers scheme prefixRoutes
  | .shortestPath => bestRoutes meshLinks 1 uriPublishers scheme prefixRoutes
  | .ecmp => computeWith ⟨pickEqualCost, addHop⟩ meshLinks scheme fun hostNum =>
      visitsEcmp hostNum uriPublishers prefixRoutes

end Core
end CeforeEmu
