import CeforeEmu.Core.Fib
import CeforeEmu.Lib.Text

/-!
# Addresses and routes, as commands

`runtime/net_config.py`. Neither the addresses nor the routes are kept by the program: it tells them
to the hosts, one command each. So what is modelled is the commands in the order they are run in,
with the exception that ended the loop, if one did. What a command returns is the environment's
answer; `apply_ip_addr` does not look at it, `apply_fib_routes` lists the commands that failed.
-/

set_option autoImplicit false

namespace CeforeEmu
namespace Runtime

open CeforeEmu.Lib CeforeEmu.Core

/-- `runner.run(node, argv)`. -/
structure Command where
  node : String
  argv : List String
  deriving DecidableEq, Repr

/-- `LINK_NETMASK`, of a /24. -/
def linkNetmask : String := "255.255.255.0"

/-- Interface `eth` of a node. -/
def ethName (node : String) (eth : Nat) : String := node ++ "-eth" ++ toString eth

def ifconfigCommand (node : String) (eth : Nat) (ip : String) : Command :=
  ⟨node, ["ifconfig", ethName node eth, ip, "netmask", linkNetmask]⟩

/-- The commands that are run until one cannot be made. -/
def runAll : List (Except PyErr Command) → List Command × Option PyErr
  | [] => ([], none)
  | .error err :: _ => ([], some err)
  | .ok command :: rest => (command :: (runAll rest).1, (runAll rest).2)

/-! ## Addresses -/

/-- The body of `apply_ip_addr`'s loops: `eth_of`, then `host_ip`. -/
def linkAddress (scheme : AddressingScheme) (link : Link) (host : Nat) : Except PyErr Command :=
  match link.hostEth.get? host with
  | none => .error (.keyError (toString host))
  | some eth =>
      match link.subnet with
      | none => .error (.typeError "unsupported operand type(s) for +: 'int' and 'NoneType'")
      | some subnet =>
          match scheme.hostIp subnet host with
          | .error err => .error err
          | .ok ip => .ok (ifconfigCommand (hostName host) eth ip)

/-- `apply_ip_addr`. -/
def applyIpAddr (scheme : AddressingScheme) (meshLinks : List RawLink) :
    List Command × Option PyErr :=
  runAll ((topologyLinks meshLinks).flatMap fun link => link.hosts.map (linkAddress scheme link))

/-! ## Routes -/

/-- `normalize_route_protocol`. -/
def normalizeRouteProtocol : Option String → Except PyErr String
  | none => .ok "udp"
  | some protocol =>
      if (Text.strip protocol.toList).map Char.toLower = "udp".toList then .ok "udp"
      else .error (.valueError "protocol must be one of: udp")

/-- The verbs of `cefroute_add`, `cefroute_del` and `cefroute_enable`. -/
inductive RouteVerb where
  | add
  | del
  | enable
  deriving DecidableEq, Repr

def RouteVerb.word : RouteVerb → String
  | .add => "add"
  | .del => "del"
  | .enable => "enable"

/-- What the three run. -/
def cefroute (verb : RouteVerb) (host : Nat) (uriPrefix : String) (protocol : Option String)
    (nextHop : String) (nodeDir : Option String) : Except PyErr Command :=
  match normalizeRouteProtocol protocol with
  | .error err => .error err
  | .ok protocol => .ok ⟨hostName host, ["cefroute", verb.word, uriPrefix, protocol, nextHop, "-d",
      nodeDir.getD ("./" ++ hostName host)]⟩

/-- One `cefroute add` that did not succeed. -/
structure RouteApplyFailure where
  source : Nat
  uriPrefix : String
  nextHopIp : String
  returncode : Option Int
  deriving DecidableEq, Repr

/-- Commands with what they returned; `None` is a command that was killed. -/
abbrev Executed := List (Command × Option Int)

/-- `apply_fib_routes`: `answer n` is what command number `n` returns. -/
def applyFibRoutes (answer : Nat → Option Int) (source : Option Nat) :
    Nat → List Route → Except PyErr (Executed × List RouteApplyFailure)
  | _, [] => .ok ([], [])
  | n, route :: routes =>
      if source.isSome ∧ source ≠ some route.source then applyFibRoutes answer source n routes
      else
        match cefroute .add route.source route.uriPrefix (some "udp") route.nextHopIp none with
        | .error err => .error err
        | .ok command =>
            match applyFibRoutes answer source (n + 1) routes with
            | .error err => .error err
            | .ok (executed, failures) =>
                let failed : List RouteApplyFailure :=
                  if answer n ≠ some 0 then
                    [⟨route.source, route.uriPrefix, route.nextHopIp, answer n⟩]
                  else []
                .ok ((command, answer n) :: executed, failed ++ failures)

/-- `apply_fib`: the routes of the strategy, all of them applied. -/
def applyFib (answer : Nat → Option Int) (meshLinks : List RawLink) (kPaths : Int)
    (strategy : RoutingStrategy) (uriPublishers prefixRoutes : Dict String Nat)
    (scheme : AddressingScheme) : Except Fault (List Route × Executed) :=
  match strategy.computeRoutes meshLinks kPaths uriPublishers scheme prefixRoutes with
  | .error err => .error err
  | .ok routes =>
      match applyFibRoutes answer none 0 routes with
      | .error err => .error (.raised err)
      | .ok (executed, _) => .ok (routes, executed)

end Runtime
end CeforeEmu
