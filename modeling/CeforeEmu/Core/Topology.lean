import CeforeEmu.Lib.Dict
import CeforeEmu.Lib.Py

/-!
# `TopologyModel` — the owner of the `mesh_links` schema

`core/topology.py`. A topology is a list of switch-mediated links; every host of a
link shares its switch. The two raw shapes (`hosts` of the mesh builders, `host_a` /
`host_b` of the legacy fixtures) are absorbed once, by `normalize`, and every
consumer — addressing, FIB computation, link events — asks the normalized model.
-/

set_option autoImplicit false

namespace CeforeEmu
namespace Core

open Lib

/-- Node names, as Mininet knows them. -/
def hostName (i : Nat) : String := "h" ++ toString i

def switchName (i : Nat) : String := "s" ++ toString i

theorem hostName_injective {i j : Nat} (h : hostName i = hostName j) : i = j :=
  numbered_injective "h" h

theorem switchName_injective {i j : Nat} (h : switchName i = switchName j) : i = j :=
  numbered_injective "s" h

theorem hostName_ne_switchName (i j : Nat) : hostName i ≠ switchName j := by
  intro h
  have hl := congrArg String.toList h
  simp [hostName, switchName] at hl

/-- One entry of `mesh_links` as the builders and the fixtures write it. A key a raw
    dict may leave out is an `Option`. -/
inductive RawLink where
  /-- The canonical multi-host shape `{"hosts": [...], "host_eth": {...}}`. -/
  | multi (switch : Option String) (subnet : Option Int) (hosts : List Nat)
      (hostEth : Dict Nat Nat)
  /-- The legacy point-to-point shape `{"host_a": int, "host_b": int}`. -/
  | pointToPoint (switch : Option String) (subnet : Option Int) (hostA hostB : Nat)
      (hostAEth hostBEth : Option Nat)
  deriving DecidableEq, Repr

/-- One switch-mediated link: every host in `hosts` shares the switch. -/
structure Link where
  switch : Option String
  subnet : Option Int
  hosts : List Nat
  hostEth : Dict Nat Nat
  deriving DecidableEq, Repr

namespace Link

def connects (l : Link) (hostA hostB : Nat) : Bool :=
  l.hosts.contains hostA && l.hosts.contains hostB

theorem connects_iff {l : Link} {a b : Nat} : l.connects a b = true ↔ a ∈ l.hosts ∧ b ∈ l.hosts := by
  simp [connects]

end Link

/-- The optional `host_x_eth` key of a point-to-point dict, when it is there. -/
def setEth (eth : Dict Nat Nat) (host : Nat) : Option Nat → Dict Nat Nat
  | some n => eth.set host n
  | none => eth

/-- `TopologyModel._normalize`. -/
def normalize : RawLink → Link
  | .multi sw sub hosts eth => ⟨sw, sub, sorted hosts, eth⟩
  | .pointToPoint sw sub a b ea eb =>
      ⟨sw, sub, sorted [a, b], setEth (setEth [] a ea) b eb⟩

/-- The host indices a raw link names. -/
def RawLink.hosts : RawLink → List Nat
  | .multi _ _ hosts _ => hosts
  | .pointToPoint _ _ a b _ _ => [a, b]

def RawLink.subnet : RawLink → Option Int
  | .multi _ subnet _ _ => subnet
  | .pointToPoint _ subnet _ _ _ _ => subnet

@[simp] theorem normalize_subnet (r : RawLink) : (normalize r).subnet = r.subnet := by
  cases r <;> rfl

@[simp] theorem normalize_hosts (r : RawLink) : (normalize r).hosts = sorted r.hosts := by
  cases r <;> rfl

/-- `TopologyModel(mesh_links)._links`. -/
def topologyLinks (meshLinks : List RawLink) : List Link := meshLinks.map normalize

/-- All pairs `(a, b)` of a host list with `a` before `b`. -/
def hostPairs : List Nat → List (Nat × Nat)
  | [] => []
  | a :: rest => rest.map (fun b => (a, b)) ++ hostPairs rest

/-- `TopologyModel.edges`: every connected pair as `(a, b, link)`, in `mesh_links`
    order, once per link. -/
def edges (links : List Link) : List (Nat × Nat × Link) :=
  links.flatMap fun link => (hostPairs link.hosts).map fun p => (p.1, p.2, link)

/-- `TopologyModel.find_link`: the first link whose switch both hosts share. -/
def findLink (links : List Link) (hostA hostB : Nat) : Option Link :=
  links.find? fun link => link.connects hostA hostB

/-- `TopologyModel.subnet_of_switch`. -/
def subnetOfSwitch (links : List Link) (switch : String) : Option Int :=
  match links.find? fun link => link.switch = some switch with
  | some link => link.subnet
  | none => none

/-- `TopologyModel.links_for_host`. -/
def linksForHost (links : List Link) (host : Nat) : List Link :=
  links.filter fun link => link.hosts.contains host

/-- `TopologyModel.peer_of`: the first other host on a link of the host. -/
def peerOf (links : List Link) (host : Nat) : Except PyErr Nat :=
  match (linksForHost links host).findSome? fun link => link.hosts.find? fun other => other ≠ host with
  | some other => .ok other
  | none => .error (.runtimeError ("publisher h" ++ toString host ++ " has no links"))

/-- `TopologyModel.host_count`: highest attached index + 1. `max(highest, *hosts)` of a
    link without hosts calls `max` on one integer, a `TypeError`. The accumulator is
    the count, not the index, so that the empty topology answers `0`. -/
def hostCountFrom : List Link → Nat → Except PyErr Nat
  | [], n => .ok n
  | link :: links, n =>
      if link.hosts = [] then .error (.typeError "'int' object is not iterable")
      else hostCountFrom links (link.hosts.foldl (fun m h => max m (h + 1)) n)

def hostCount (links : List Link) : Except PyErr Nat := hostCountFrom links 0

end Core
end CeforeEmu
