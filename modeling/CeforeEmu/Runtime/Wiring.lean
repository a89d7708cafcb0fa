import CeforeEmu.Core.Topology

/-!
# Wiring switches to hosts

`runtime/topo.py`. `MeshTopo.build` and `ExplicitLinksTopo.build` end in the same loop:
for every switch, in order, sort its hosts, give each host its next interface number
(the host's call counter — Mininet numbers a node's ports in `addLink` order), make the
`addLink` call, and append the `mesh_links` entry with `subnet = idx + 1`. That loop is
`wireSwitches`; the two builders differ only in where the host sets come from.

`ExplicitLinksTopo` is here, because it is nothing but the loop; the random mesh has a
module of its own.
-/

set_option autoImplicit false

namespace CeforeEmu
namespace Runtime

open CeforeEmu.Lib CeforeEmu.Core

/-- The topology object a builder fills: the `mesh_links` list, the `addLink(host,
    switch)` calls in order, and the per-host call counter `host_ports`. -/
structure Wiring where
  hostPorts : Nat → Nat
  netLinks : List (String × String)
  meshLinks : List RawLink

def Wiring.empty : Wiring := ⟨fun _ => 0, [], []⟩

/-- The inner loop over `hosts_for_switch`: `host_eth`, the counter and the `addLink`
    call of every host of one switch. -/
def attachHosts (switch : String) :
    List Nat → (Nat → Nat) → Dict Nat Nat → List (String × String) →
      (Nat → Nat) × Dict Nat Nat × List (String × String)
  | [], ports, eth, calls => (ports, eth, calls)
  | h :: hs, ports, eth, calls =>
      attachHosts switch hs (Function.update ports h (ports h + 1)) (eth.set h (ports h))
        (calls ++ [(hostName h, switch)])

/-- One iteration of the outer loop: switch number `idx` with host set `hosts`. -/
def wireSwitch (w : Wiring) (idx : Nat) (hosts : List Nat) : Wiring :=
  let hostsForSwitch := sorted hosts
  let (ports, eth, calls) := attachHosts (switchName idx) hostsForSwitch w.hostPorts [] w.netLinks
  { hostPorts := ports
    netLinks := calls
    meshLinks := w.meshLinks ++
      [.multi (some (switchName idx)) (some ((idx : Int) + 1)) hostsForSwitch eth] }

/-- `for idx, hosts in enumerate(...)`, from `idx` on. -/
def wireSwitches : Nat → Wiring → List (List Nat) → Wiring
  | _, w, [] => w
  | idx, w, hosts :: rest => wireSwitches (idx + 1) (wireSwitch w idx hosts) rest

/-- `ExplicitLinksTopo.build`: one switch per configured pair. -/
def ExplicitLinksTopo.build (links : List (Nat × Nat)) : Wiring :=
  wireSwitches 0 .empty (links.map fun p => [p.1, p.2])

/-- `ExplicitLinksTopo.build` for a number of hosts: `host_ports` and `host_nodes` are lists of
    that length, and are indexed with both ends of every pair. -/
def ExplicitLinksTopo.buildOn (hosts : Nat) (links : List (Nat × Nat)) : Except PyErr Wiring :=
  if ∀ p ∈ links, p.1 < hosts ∧ p.2 < hosts then .ok (ExplicitLinksTopo.build links)
  else .error (.indexError "list index out of range")

/-! ## What the loop leaves behind -/

theorem attachHosts_calls (switch : String) : ∀ (hs : List Nat) (ports : Nat → Nat)
    (eth : Dict Nat Nat) (calls : List (String × String)),
    (attachHosts switch hs ports eth calls).2.2
      = calls ++ hs.map fun h => (hostName h, switch)
  | [], _, _, _ => by simp [attachHosts]
  | h :: hs, ports, eth, calls => by
    rw [attachHosts, attachHosts_calls switch hs]
    simp

/-- Every `addLink` call the loop makes, in order. -/
theorem wireSwitches_netLinks : ∀ (rest : List (List Nat)) (idx : Nat) (w : Wiring),
    (wireSwitches idx w rest).netLinks
      = w.netLinks ++ (rest.zipIdx idx).flatMap
          fun e => (sorted e.1).map fun h => (hostName h, switchName e.2)
  | [], _, _ => by simp [wireSwitches]
  | hosts :: rest, idx, w => by
    rw [wireSwitches, wireSwitches_netLinks rest (idx + 1)]
    simp [wireSwitch, attachHosts_calls]

theorem wireSwitches_meshLinks_length : ∀ (rest : List (List Nat)) (idx : Nat) (w : Wiring),
    (wireSwitches idx w rest).meshLinks.length = w.meshLinks.length + rest.length
  | [], _, _ => by simp [wireSwitches]
  | hosts :: rest, idx, w => by
    rw [wireSwitches, wireSwitches_meshLinks_length rest (idx + 1)]
    simp [wireSwitch]
    omega

theorem meshLinks_length_wired (switches : List (List Nat)) :
    (wireSwitches 0 .empty switches).meshLinks.length = switches.length := by
  rw [wireSwitches_meshLinks_length]
  simp [Wiring.empty]

/-- The loop only appends to `mesh_links`. -/
theorem wireSwitches_initial : ∀ (rest : List (List Nat)) (idx : Nat) (w : Wiring),
    w.meshLinks <+: (wireSwitches idx w rest).meshLinks
  | [], _, _ => List.prefix_rfl
  | hosts :: rest, idx, w => by
    have h : w.meshLinks <+: (wireSwitch w idx hosts).meshLinks := List.prefix_append _ _
    exact h.trans (wireSwitches_initial rest (idx + 1) _)

/-- **Entry `i` of `mesh_links`**: the `i`-th switch, subnet `i + 1`, its sorted hosts. -/
theorem wireSwitches_getElem? : ∀ {rest : List (List Nat)} {i : Nat} (idx : Nat) (w : Wiring)
    {hosts : List Nat}, w.meshLinks.length = idx → rest[i]? = some hosts →
    ∃ eth, (wireSwitches idx w rest).meshLinks[idx + i]?
      = some (.multi (some (switchName (idx + i))) (some (((idx + i : Nat) : Int) + 1))
          (sorted hosts) eth)
  | [], _, _, _, _, _, h => by simp at h
  | hosts₀ :: rest, 0, idx, w, hosts, hlen, h => by
    simp only [List.getElem?_cons_zero, Option.some.injEq] at h
    subst h
    obtain ⟨tl, htl⟩ := wireSwitches_initial rest (idx + 1) (wireSwitch w idx hosts₀)
    refine ⟨(attachHosts (switchName idx) (sorted hosts₀) w.hostPorts [] w.netLinks).2.1, ?_⟩
    rw [wireSwitches, ← htl]
    simp [wireSwitch, ← hlen]
  | hosts₀ :: rest, i + 1, idx, w, hosts, hlen, h => by
    simp only [List.getElem?_cons_succ] at h
    have hlen' : (wireSwitch w idx hosts₀).meshLinks.length = idx + 1 := by simp [wireSwitch, hlen]
    obtain ⟨eth, he⟩ := wireSwitches_getElem? (idx + 1) _ hlen' h
    refine ⟨eth, ?_⟩
    rw [wireSwitches, show idx + (i + 1) = idx + 1 + i by omega]
    exact he

/-! ## Explicit links -/

namespace ExplicitLinksTopo

variable {links : List (Nat × Nat)}

theorem meshLinks_length : (build links).meshLinks.length = links.length := by
  rw [build, meshLinks_length_wired, List.length_map]

/-- The entry of the `i`-th pair. -/
theorem meshLinks_getElem? {i : Nat} {p : Nat × Nat} (h : links[i]? = some p) :
    ∃ eth, (build links).meshLinks[i]?
      = some (.multi (some (switchName i)) (some ((i : Int) + 1)) (sorted [p.1, p.2]) eth) := by
  have hget : (links.map fun p => [p.1, p.2])[i]? = some [p.1, p.2] := by
    rw [List.getElem?_map, h]
    rfl
  obtain ⟨eth, heth⟩ := wireSwitches_getElem? 0 .empty rfl hget
  rw [Nat.zero_add] at heth
  exact ⟨eth, heth⟩

/-- Every entry is the entry of a pair. -/
theorem of_mem_meshLinks {raw : RawLink} (h : raw ∈ (build links).meshLinks) :
    ∃ i p, i < links.length ∧ p ∈ links ∧ raw.subnet = some ((i : Int) + 1) ∧
      raw.hosts = sorted [p.1, p.2] := by
  obtain ⟨i, hi⟩ := List.mem_iff_getElem?.mp h
  have hlt : i < links.length := by
    rw [← meshLinks_length]
    exact (List.getElem?_eq_some_iff.mp hi).1
  have hp : links[i]? = some (links.get ⟨i, hlt⟩) := List.getElem?_eq_getElem hlt
  obtain ⟨eth, heth⟩ := meshLinks_getElem? hp
  rw [hi, Option.some.injEq] at heth
  subst heth
  exact ⟨i, _, hlt, List.mem_of_getElem? hp, rfl, rfl⟩

/-- Every pair has an entry. -/
theorem exists_mem_meshLinks {p : Nat × Nat} (h : p ∈ links) :
    ∃ raw ∈ (build links).meshLinks, raw.hosts = sorted [p.1, p.2] := by
  obtain ⟨i, hi⟩ := List.mem_iff_getElem?.mp h
  obtain ⟨eth, heth⟩ := meshLinks_getElem? hi
  exact ⟨_, List.mem_of_getElem? heth, rfl⟩

end ExplicitLinksTopo

end Runtime
end CeforeEmu
