import CeforeEmu.Lib.Run
import CeforeEmu.Runtime.Wiring

/-!
# Link state operations

`runtime/links.py`, over the part of a Mininet network those functions see: its nodes,
its links (`intf1.node`, `intf2.node`) and the administrative state of each
node–switch port pair. `configLinkStatus(src, dst, state)` sets exactly the named pair,
and is an error message and nothing else when a name is not in the network.

Two mechanisms write port state: scheduled `link_down` / `link_up` events, which set the
two ports of one link (`setLinkState`), and host flaps, which set every port of one host
(`setNodeLinksState`; `failure_manager.py` calls it `down`, then, from a timer, `up`).
`FaultAct` is one such write and `faultStep` performs it. `setSwitchBandwidth` sets the bandwidth
of every link of one switch.
-/

set_option autoImplicit false

namespace CeforeEmu
namespace Runtime

open CeforeEmu.Lib CeforeEmu.Core

inductive LinkState where
  | up
  | down
  deriving DecidableEq, Repr

/-- A Mininet network, as the link commands see it. -/
structure Net where
  nodes : List String
  links : List (String × String)
  /-- The state of the port pair of a host and a switch. -/
  port : String → String → LinkState

/-- `net.configLinkStatus(src, dst, state)`. -/
def Net.configLinkStatus (net : Net) (src dst : String) (state : LinkState) : Net :=
  if src ∈ net.nodes ∧ dst ∈ net.nodes then
    { net with port := fun a b => if a = src ∧ b = dst then state else net.port a b }
  else net

/-- `set_link_state(net, mesh_links, host_a, host_b, state)`. A link with no switch
    passes `None` to `configLinkStatus`, which names no node. -/
def setLinkState (net : Net) (meshLinks : List RawLink) (hostA hostB : Nat)
    (state : LinkState) : Except PyErr Net :=
  match findLink (topologyLinks meshLinks) hostA hostB with
  | none => .error (.runtimeError
      ("link not found between " ++ hostName hostA ++ " and " ++ hostName hostB))
  | some link =>
      match link.switch with
      | none => .ok net
      | some switch =>
          .ok ((net.configLinkStatus (hostName hostA) switch state).configLinkStatus
            (hostName hostB) switch state)

/-- The body of `set_node_links_state`'s loop, for one link of the network. -/
def setIfEndpoint (node : String) (state : LinkState) (net : Net) (link : String × String) : Net :=
  if link.1 = node then net.configLinkStatus node link.2 state
  else if link.2 = node then net.configLinkStatus node link.1 state
  else net

/-- `set_node_links_state(net, node_name, state)`. -/
def setNodeLinksState (net : Net) (node : String) (state : LinkState) : Except PyErr Net :=
  if node ∈ net.nodes then .ok (net.links.foldl (setIfEndpoint node state) net)
  else .error (.keyError node)

/-- One write of port state: a fired link event, or one half of a host flap. -/
inductive FaultAct where
  | linkDown (a b : Nat)
  | linkUp (a b : Nat)
  | hostDown (h : Nat)
  | hostUp (h : Nat)
  deriving DecidableEq, Repr

/-- Perform one write; `none` when it raises. -/
def faultStep (meshLinks : List RawLink) (net : Net) : FaultAct → Option Net
  | .linkDown a b => (setLinkState net meshLinks a b .down).toOption
  | .linkUp a b => (setLinkState net meshLinks a b .up).toOption
  | .hostDown h => (setNodeLinksState net (hostName h) .down).toOption
  | .hostUp h => (setNodeLinksState net (hostName h) .up).toOption

/-- The network Mininet starts from an explicit topology: every node, every link, every
    port up. -/
def explicitNet (hosts : Nat) (links : List (Nat × Nat)) : Net where
  nodes := (List.range hosts).map hostName ++ (List.range links.length).map switchName
  links := (ExplicitLinksTopo.build links).netLinks
  port := fun _ _ => .up

/-! ## Bandwidth

`runtime/bandwidth.py`, over the nodes and links of a network and the bandwidth the interfaces of
each link were last given. -/

structure TcNet (τ : Type) where
  nodes : List String
  links : List (String × String)
  bw : String × String → Option τ

variable {τ : Type}

/-- `set_link_bandwidth(net, node_a, node_b, bandwidth)`: every link between the two nodes, whichever
    end is whose. A link with no switch passes `None`, which is no node. -/
def setLinkBandwidth (net : TcNet τ) (nodeA : String) (nodeB : Option String) (bandwidth : τ) :
    Except PyErr (TcNet τ) :=
  if nodeA ∉ net.nodes then .error (.keyError nodeA)
  else
    match nodeB with
    | none => .error (.keyError "None")
    | some nodeB =>
        if nodeB ∉ net.nodes then .error (.keyError nodeB)
        else .ok { net with
          bw := fun link =>
            if link ∈ net.links ∧ (link = (nodeA, nodeB) ∨ link = (nodeB, nodeA)) then some bandwidth
            else net.bw link }

/-- `for host_idx in link.hosts`. -/
def setHostsBandwidth (switch : Option String) (bandwidth : τ) :
    List Nat → TcNet τ → Except PyErr (TcNet τ)
  | [], net => .ok net
  | host :: hosts, net =>
      match setLinkBandwidth net (hostName host) switch bandwidth with
      | .error err => .error err
      | .ok net' => setHostsBandwidth switch bandwidth hosts net'

/-- `set_switch_bandwidth(net, mesh_links, host_a, host_b, bandwidth)`. -/
def setSwitchBandwidth (net : TcNet τ) (meshLinks : List RawLink) (hostA hostB : Nat)
    (bandwidth : τ) : Except PyErr (Bool × TcNet τ) :=
  match findLink (topologyLinks meshLinks) hostA hostB with
  | none => .ok (false, net)
  | some link =>
      match setHostsBandwidth link.switch bandwidth link.hosts net with
      | .error err => .error err
      | .ok net' => .ok (true, net')

end Runtime
end CeforeEmu
