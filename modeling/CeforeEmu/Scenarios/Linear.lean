import CeforeEmu.Runtime.NetConfig

/-!
# The linear scenario

`scenarios/linear.py` and `LineTopo` of `runtime/topo.py`: `h0-s0-h1-s1-...-hN`. The line has no
`mesh_links`, and the scenario sets addresses and routes by itself; its subnets count from zero.
-/

set_option autoImplicit false

namespace CeforeEmu
namespace Scenarios

open CeforeEmu.Lib CeforeEmu.Core CeforeEmu.Runtime

/-- `LineTopo.build`: its `addLink` calls, the host first. -/
def LineTopo.build (hosts : Nat) : List (String × String) :=
  (List.range (hosts - 1)).flatMap fun idx =>
    [(hostName idx, switchName idx), (hostName (idx + 1), switchName idx)]

namespace LinearScenario

/-- `__init__`'s check of the host count. -/
def accepts (hostNum : Nat) : Bool := ¬ hostNum < 2

/-- The `ifconfig` of one side of a host. -/
def sideAddress (scheme : AddressingScheme) (idx subnet eth : Nat) : Except PyErr Command :=
  match scheme.hostIp subnet idx with
  | .error err => .error err
  | .ok ip => .ok (ifconfigCommand (hostName idx) eth ip)

/-- The body of `_set_ip_addr`'s loop. -/
def hostAddresses (scheme : AddressingScheme) (hostNum idx : Nat) : List (Except PyErr Command) :=
  let left := if 0 < idx then [sideAddress scheme idx (idx - 1) 0] else []
  let right :=
    if idx + 1 < hostNum then [sideAddress scheme idx idx (if 0 < idx then 1 else 0)] else []
  left ++ right

/-- `_set_ip_addr`. -/
def setIpAddr (scheme : AddressingScheme) (hostNum : Nat) : List Command × Option PyErr :=
  runAll ((List.range hostNum).flatMap (hostAddresses scheme hostNum))

/-- The body of `_set_fib`'s loop. -/
def fibCommand (scheme : AddressingScheme) (idx : Nat) : Except PyErr Command :=
  match scheme.hostIp idx (idx + 1) with
  | .error err => .error err
  | .ok ip => cefroute .add idx "ccnx:/test" (some "udp") ip none

/-- `_set_fib`. -/
def setFib (scheme : AddressingScheme) (hostNum : Nat) : List Command × Option PyErr :=
  runAll ((List.range (hostNum - 1)).map (fibCommand scheme))

end LinearScenario

end Scenarios
end CeforeEmu
