import Mathlib
import CeforeEmu.Core.Addressing
import CeforeEmu.Lib.Op
import CeforeEmu.Runtime.BridgeArgs

/-!
# `BridgeManager` — root-namespace bridges and their undo list

`runtime/bridge_root.py`. Every setup operation changes the machine through commands and
appends to `cleanup_actions` what undoes the change; `cleanup` drains the list from its end
and keeps the mandatory actions that failed.

The machine is what those commands touch: routing tables, the priority-0 flow of each OVS
switch, iptables rules, sysctls and `/etc/resolv.conf` (one file for all Mininet hosts,
which share the root mount namespace). A command fails when the environment says so
(`answers`, one per command, missing ones are successes) or when the tools themselves refuse
it — a route that exists is not added, a rule that is not there is not deleted — and a failed
command changes nothing.

Exceptions carry the code's message. The log lines are left out.
-/

set_option autoImplicit false

namespace CeforeEmu
namespace Runtime

open CeforeEmu.Lib CeforeEmu.Core

/-! ## The machine -/

/-- The files of the machine that are captured, overwritten and restored. -/
inductive Setting where
  /-- A sysctl, by its full name; its value is what `sysctl -n` prints, stripped. -/
  | sysctl (name : String)
  /-- The text of `/etc/resolv.conf`. -/
  | resolvConf
  deriving DecidableEq, Repr

def ipForward : Setting := .sysctl "net.ipv4.ip_forward"

def proxyArp (intf : String) : Setting := .sysctl ("net.ipv4.conf." ++ intf ++ ".proxy_arp")

/-- Where a route leads. -/
structure RouteHop where
  via : Option String
  dev : Option String
  deriving DecidableEq, Repr

/-- The three rules of `enable_nat`. -/
inductive NatRule where
  | masquerade (localRoutes outIntf : String)
  | forwardOut (rootIntf outIntf localRoutes : String)
  | forwardBack (outIntf rootIntf localRoutes : String)
  deriving DecidableEq, Repr

structure Machine where
  /-- By namespace (node name) and destination. -/
  routes : String → String → Option RouteHop
  /-- The actions of the priority-0 flow of each switch. -/
  flows : String → Option String
  rules : List NatRule
  settings : Setting → String

namespace Machine

def setRoute (m : Machine) (node dest : String) (hop : Option RouteHop) : Machine :=
  { m with routes := fun n d => if n = node ∧ d = dest then hop else m.routes n d }

def setFlow (m : Machine) (switch : String) (actions : Option String) : Machine :=
  { m with flows := fun s => if s = switch then actions else m.flows s }

def setSetting (m : Machine) (k : Setting) (value : String) : Machine :=
  { m with settings := fun k' => if k' = k then value else m.settings k' }

end Machine

/-! ## Commands -/

inductive Cmd where
  | routeAdd (dest : String) (hop : RouteHop)
  | routeReplace (dest : String) (hop : RouteHop)
  | routeDel (dest : String)
  | flowAdd (switch : String)
  | flowDel (switch : String)
  | natAppend (rule : NatRule)
  | natDelete (rule : NatRule)
  | read (k : Setting)
  | write (k : Setting) (value : String)
  | showDefault
  deriving DecidableEq, Repr

def RouteHop.argv (hop : RouteHop) : List String :=
  (match hop.via with | some via => ["via", via] | none => [])
    ++ (match hop.dev with | some dev => ["dev", dev] | none => [])

/-- The argv of a rule's installation. -/
def NatRule.addArgv : NatRule → List String
  | .masquerade localRoutes outIntf =>
      ["iptables", "-t", "nat", "-A", "POSTROUTING", "-s", localRoutes, "-o", outIntf, "-j",
        "MASQUERADE"]
  | .forwardOut rootIntf outIntf localRoutes =>
      ["iptables", "-A", "FORWARD", "-i", rootIntf, "-o", outIntf, "-s", localRoutes, "-j",
        "ACCEPT"]
  | .forwardBack outIntf rootIntf localRoutes =>
      ["iptables", "-A", "FORWARD", "-i", outIntf, "-o", rootIntf, "-d", localRoutes, "-m",
        "state", "--state", "RELATED,ESTABLISHED", "-j", "ACCEPT"]

/-- `_to_del`. -/
def toDel (argv : List String) : List String :=
  argv.map fun tok => if tok = "-A" then "-D" else tok

def Cmd.argv : Cmd → List String
  | .routeAdd dest hop => ["ip", "route", "add", dest] ++ hop.argv
  | .routeReplace dest hop => ["ip", "route", "replace", dest] ++ hop.argv
  | .routeDel dest => ["ip", "route", "del", dest]
  | .flowAdd switch => ["ovs-ofctl", "add-flow", switch, "priority=0,actions=NORMAL"]
  | .flowDel switch => ["ovs-ofctl", "del-flows", switch, "--strict", "priority=0"]
  | .natAppend rule => rule.addArgv
  | .natDelete rule => toDel rule.addArgv
  | .read (.sysctl name) => ["sysctl", "-n", name]
  | .read .resolvConf => ["cat", "/etc/resolv.conf"]
  | .write (.sysctl name) value => ["sysctl", "-w", name ++ "=" ++ value]
  | .write .resolvConf value => ["printf", "%s", value]
  | .showDefault => ["ip", "route", "show", "default"]

/-- What surrounds the manager: the Mininet network's nodes, what `ip route show default`
    prints on a machine, and what `ipaddress.ip_interface` objects to in a text. -/
structure RootEnv where
  switches : List String
  hosts : List String
  showDefault : Machine → String
  ipInterfaceError : String → Option String

/-- What a command does when the environment lets it run. -/
def execute (env : RootEnv) (m : Machine) (node : String) :
    Cmd → Except CmdFailure (Machine × String)
  | .routeAdd dest hop =>
      match m.routes node dest with
      | some _ => .error ⟨2, ipStatus_ne_zero, "RTNETLINK answers: File exists\n"⟩
      | none => .ok (m.setRoute node dest (some hop), "")
  | .routeReplace dest hop => .ok (m.setRoute node dest (some hop), "")
  | .routeDel dest =>
      match m.routes node dest with
      | some _ => .ok (m.setRoute node dest none, "")
      | none => .error ⟨2, ipStatus_ne_zero, "RTNETLINK answers: No such process\n"⟩
  | .flowAdd switch => .ok (m.setFlow switch (some "NORMAL"), "")
  | .flowDel switch => .ok (m.setFlow switch none, "")
  | .natAppend rule => .ok ({ m with rules := m.rules ++ [rule] }, "")
  | .natDelete rule =>
      if rule ∈ m.rules then .ok ({ m with rules := m.rules.erase rule }, "")
      else .error ⟨1, Int.one_ne_zero, "iptables: Bad rule.\n"⟩
  | .read k => .ok (m, m.settings k)
  | .write k value => .ok (m.setSetting k value, "")
  | .showDefault => .ok (m, env.showDefault m)

/-! ## The manager -/

/-- A `CleanupAction`; `execute` is the command `undo` on `node`. -/
structure CleanupAction where
  description : String
  category : String
  mandatory : Bool
  node : String
  undo : Cmd
  deriving DecidableEq, Repr

/-- The manager, the machine, and the answers the environment has in store: `some` failure, or
    `none` to let the command run. -/
structure BridgeWorld where
  machine : Machine
  /-- `cleanup_actions`. -/
  actions : List CleanupAction
  /-- `root_intf`: which of the root node's interfaces. -/
  rootIntf : Option Nat
  /-- Interfaces the root node has. -/
  rootLinks : Nat
  answers : List (Option CmdFailure)

inductive BridgeErr where
  | raised (err : PyErr)
  /-- `TeardownError`, with its failures. -/
  | teardown (failures : List (String × Int × String))
  deriving DecidableEq, Repr

abbrev BridgeOp (α : Type) := Op BridgeWorld BridgeErr α

def raiseRuntime {α : Type} (msg : String) : BridgeOp α := Op.raise (.raised (.runtimeError msg))

def rootSentinel : String := "root"

/-- `runner.run(node, argv)`. -/
def runCmd (env : RootEnv) (node : String) (cmd : Cmd) : BridgeOp CommandResult := fun w =>
  match w.answers with
  | some f :: rest => (.ok f.result, { w with answers := rest })
  | _ =>
      match execute env w.machine node cmd with
      | .ok (m, out) => (.ok ⟨0, out, ""⟩, { w with machine := m, answers := w.answers.tail })
      | .error f => (.ok f.result, { w with answers := w.answers.tail })

/-- `self.cleanup_actions.append(...)`. -/
def register (action : CleanupAction) : BridgeOp Unit :=
  Op.modify fun w => { w with actions := w.actions ++ [action] }

/-- `' '.join(argv)`. -/
def joinArgv (argv : List String) : String := " ".intercalate argv

/-- `_apply_reversible`. -/
def applyReversible (env : RootEnv) (node : String) (forward inverse : Cmd)
    (description category : String) : BridgeOp Bool := do
  let result ← runCmd env node forward
  if result.returncode ≠ 0 then
    return false
  register ⟨description, category, false, node, inverse⟩
  return true

/-- `validate_static_ip`. -/
def validateStaticIp (env : RootEnv) (ip : String) : BridgeOp Unit :=
  match staticIpError env.ipInterfaceError ip with
  | some msg => raiseRuntime msg
  | none => pure ()

/-- Mininet names the root node's interfaces `root-eth0`, `root-eth1`, … -/
def rootIntfName (n : Nat) : String := "root-eth" ++ toString n

/-- `connect_to_root_ns`. -/
def connectToRootNs (env : RootEnv) (switch rootIp localRoutes : String) : BridgeOp Bool := do
  if switch ∉ env.switches then
    return false
  validateStaticIp env rootIp
  let w ← Op.get
  let n := w.rootLinks
  Op.modify fun w => { w with rootIntf := some n, rootLinks := n + 1 }
  let _ ← applyReversible env rootSentinel (.routeAdd localRoutes ⟨none, some (rootIntfName n)⟩)
    (.routeDel localRoutes)
    ("remove route: " ++ joinArgv (Cmd.argv (.routeDel localRoutes))) "route"
  return true

/-- `add_host_route`. `net.get` raises on a host that is not there. -/
def addHostRoute (env : RootEnv) (host dest gateway : String) (dev : Option String) :
    BridgeOp Unit := do
  if host ∉ env.hosts then
    Op.raise (.raised (.keyError host))
  else if dest = "default" ∨ dest = "0.0.0.0/0" then
    let _ ← applyReversible env host (.routeReplace "default" ⟨some gateway, truthy dev⟩)
      (.routeDel "default")
      ("remove host route: " ++ joinArgv (Cmd.argv (.routeDel "default"))) "route"
  else
    let _ ← applyReversible env host (.routeAdd dest ⟨some gateway, truthy dev⟩) (.routeDel dest)
      ("remove host route: " ++ joinArgv (Cmd.argv (.routeDel dest))) "route"

def nameserverText : String := "nameserver 8.8.8.8\n"

/-- `write_host_resolv_conf`. The results of the writes are not looked at. -/
def writeHostResolvConf (env : RootEnv) (hosts : List String) : BridgeOp Unit := do
  match hosts with
  | [] => return
  | first :: _ =>
      let captured ← runCmd env first (.read .resolvConf)
      if captured.returncode ≠ 0 then
        return
      register ⟨"restore /etc/resolv.conf", "resolv", true, first,
        .write .resolvConf captured.stdout⟩
      Op.forEach hosts fun host => do
        let _ ← runCmd env host (.write .resolvConf nameserverText)

/-- `add_root_route`. -/
def addRootRoute (env : RootEnv) (dest gateway : String) : BridgeOp Unit := do
  let _ ← applyReversible env rootSentinel (.routeAdd dest ⟨some gateway, none⟩) (.routeDel dest)
    ("remove root route: " ++ joinArgv (Cmd.argv (.routeDel dest))) "route"

/-- `(rc={rc}): {stderr.strip()}`. -/
def failureText (result : CommandResult) : String :=
  " (rc=" ++ toString result.returncode ++ "): " ++ strStrip result.stderr

/-- Read a sysctl that must be `0` or `1`. -/
def readFlag (env : RootEnv) (k : Setting) (what : String) (invalid : String → String) :
    BridgeOp String := do
  let result ← runCmd env rootSentinel (.read k)
  if result.returncode ≠ 0 then
    raiseRuntime ("failed to read " ++ what ++ failureText result)
  else if result.stdout ≠ "0" ∧ result.stdout ≠ "1" then
    raiseRuntime (invalid result.stdout)
  else
    return result.stdout

/-- `enable_ip_forwarding`. -/
def enableIpForwarding (env : RootEnv) : BridgeOp Unit := do
  let prior ← readFlag env ipForward "ip_forward" fun v =>
    "invalid ip_forward value '" ++ v ++ "'"
  let result ← runCmd env rootSentinel (.write ipForward "1")
  if result.returncode ≠ 0 then
    raiseRuntime ("failed to enable ip_forward" ++ failureText result)
  else
    register ⟨"restore ip_forward to " ++ prior, "sysctl", true, rootSentinel,
      .write ipForward prior⟩

/-- The word after `dev` in what `ip route show default` printed. -/
def detectOutIntf (stdout : String) : Option String :=
  let parts := strSplit stdout
  match parts.idxOf? "dev" with
  | some idx => parts[idx + 1]?
  | none => none

/-- The outbound interface of `enable_nat`: the argument, else the detected one; an empty
    name counts as none. -/
def natOutIntf (env : RootEnv) (outIntf : Option String) : BridgeOp (Option String) := do
  let found ← (match outIntf with
    | some intf => pure (some intf)
    | none => do
        let result ← runCmd env rootSentinel .showDefault
        pure (detectOutIntf result.stdout) : BridgeOp (Option String))
  return truthy found

/-- The rules of `enable_nat`, in order. -/
def natRules (rootIntf outIntf localRoutes : String) : List NatRule :=
  [.masquerade localRoutes outIntf, .forwardOut rootIntf outIntf localRoutes,
    .forwardBack outIntf rootIntf localRoutes]

/-- Delete the rules installed so far, newest first; the list is that of the failures. -/
def rollbackRules (env : RootEnv) : List NatRule → BridgeOp (List (String × Int))
  | [] => pure []
  | rule :: older => do
      let result ← runCmd env rootSentinel (.natDelete rule)
      let failures ← rollbackRules env older
      if result.returncode ≠ 0 then
        return (joinArgv (Cmd.argv (.natDelete rule)), result.returncode) :: failures
      else
        return failures

/-- The list `rollback_failures` as the message shows it. -/
def rollbackText (failures : List (String × Int)) : String :=
  "[" ++ ", ".intercalate (failures.map fun f =>
    "(" ++ strRepr f.1 ++ ", " ++ toString f.2 ++ ")") ++ "]"

/-- Install the rules one by one. `owned` are those installed so far, newest first; on a
    failure they are rolled back and nothing was registered. -/
def installRules (env : RootEnv) : List NatRule → List NatRule → BridgeOp Unit
  | [], _ => pure ()
  | rule :: rest, owned => do
      let result ← runCmd env rootSentinel (.natAppend rule)
      if result.returncode ≠ 0 then
        let failures ← rollbackRules env owned
        let msg := "NAT rule " ++ toString owned.length ++ " failed" ++ failureText result
        raiseRuntime (if failures.isEmpty then msg
          else msg ++ "; rollback failures: " ++ rollbackText failures)
      else
        installRules env rest (rule :: owned)

def natAction (rule : NatRule) : CleanupAction :=
  ⟨"delete NAT rule: " ++ joinArgv (Cmd.argv (.natDelete rule)), "nat", true, rootSentinel,
    .natDelete rule⟩

/-- `enable_nat`. -/
def enableNat (env : RootEnv) (localRoutes : String) (outIntf : Option String) :
    BridgeOp Unit := do
  match ← natOutIntf env outIntf with
  | none => return
  | some outIntf =>
      let w ← Op.get
      let rootIntf := match w.rootIntf with
        | some n => rootIntfName n
        | none => "None"
      let rules := natRules rootIntf outIntf localRoutes
      installRules env rules []
      Op.forEach rules fun rule => register (natAction rule)

/-- `enable_normal_flow`. -/
def enableNormalFlow (env : RootEnv) (switch : String) : BridgeOp Unit := do
  let _ ← applyReversible env rootSentinel (.flowAdd switch) (.flowDel switch)
    ("remove OVS flow: " ++ joinArgv (Cmd.argv (.flowDel switch))) "flow"

def proxyArpAction (intf prior : String) : CleanupAction :=
  ⟨"restore proxy_arp " ++ intf ++ " to " ++ prior, "proxy_arp", true, rootSentinel,
    .write (proxyArp intf) prior⟩

/-- The all level of `enable_proxy_arp`, after the interface level was written and its restore
    registered; a failure rolls the interface level back. -/
def enableProxyArpAll (env : RootEnv) (intf priorIface priorAll : String) : BridgeOp Unit := do
  let writeAll ← runCmd env rootSentinel (.write (proxyArp "all") "1")
  if writeAll.returncode ≠ 0 then
    let setupErr := "failed to enable proxy_arp all" ++ failureText writeAll
    let rollback ← runCmd env rootSentinel (.write (proxyArp intf) priorIface)
    if rollback.returncode = 0 then
      -- the action just registered is the last one
      Op.modify fun w => { w with actions := w.actions.dropLast }
      raiseRuntime setupErr
    else
      raiseRuntime (setupErr ++ "; iface rollback failed" ++ failureText rollback)
  else
    register (proxyArpAction "all" priorAll)

/-- `enable_proxy_arp`. -/
def enableProxyArp (env : RootEnv) : BridgeOp Unit := do
  let w ← Op.get
  match w.rootIntf with
  | none => return
  | some n =>
      let intf := rootIntfName n
      let priorIface ← readFlag env (proxyArp intf) ("proxy_arp for " ++ intf) fun v =>
        "invalid proxy_arp value '" ++ v ++ "' for " ++ intf
      let priorAll ← readFlag env (proxyArp "all") "proxy_arp all" fun v =>
        "invalid proxy_arp value '" ++ v ++ "' for all"
      let writeIface ← runCmd env rootSentinel (.write (proxyArp intf) "1")
      if writeIface.returncode ≠ 0 then
        raiseRuntime ("failed to enable proxy_arp for " ++ intf ++ failureText writeIface)
      else
        register (proxyArpAction intf priorIface)
        enableProxyArpAll env intf priorIface priorAll

/-- The loop of `cleanup`, over the reversed list: what each action answered. -/
def drain (env : RootEnv) : List CleanupAction → BridgeOp (List (CleanupAction × CommandResult))
  | [] => pure []
  | action :: rest => do
      let result ← runCmd env action.node action.undo
      let results ← drain env rest
      return (action, result) :: results

/-- Whether `cleanup` keeps the action for the next call. -/
def retained (r : CleanupAction × CommandResult) : Bool :=
  r.1.mandatory && r.2.returncode ≠ 0

/-- `cleanup`. Best-effort actions are dropped whatever they answer. -/
def cleanup (env : RootEnv) : BridgeOp Unit := do
  let w ← Op.get
  let results ← drain env w.actions.reverse
  let kept := results.filter retained
  Op.modify fun w => { w with actions := (kept.map (·.1)).reverse }
  if ¬ kept.isEmpty then
    Op.raise (.teardown (kept.map fun r =>
      (r.1.description, r.2.returncode, strStrip r.2.stderr)))

/-! ## `setup_bridges` -/

/-- A `switch` value: the YAML form's index or the CLI form's name. -/
inductive SwitchRef where
  | index (i : Nat)
  | name (s : String)
  deriving DecidableEq, Repr

structure BridgeConfig where
  switch : SwitchRef
  rootIp : Option String
  localRoutes : String
  hosts : Option (List Nat)
  externalRoutes : Option String
  gateway : Option String
  nat : Bool
  natOut : Option String
  proxyArp : Bool
  vmHostNetwork : Option String
  deriving DecidableEq, Repr

/-- `_resolve_root_ip`. -/
def resolveRootIp (switch : String) (rootIp : Option String) (meshLinks : List RawLink)
    (scheme : AddressingScheme) : Except PyErr (Option String) :=
  if (truthy rootIp).isSome ∧ rootIp ≠ some "auto" then .ok rootIp
  else
    match subnetOfSwitch (topologyLinks meshLinks) switch with
    | some subnet => (scheme.rootGateway subnet).map some
    | none => .ok rootIp

/-- `_find_host_intf`. -/
def findHostIntf (meshLinks : List RawLink) (host : Nat) (switch : String) : Option String :=
  (topologyLinks meshLinks).findSome? fun link =>
    if link.switch = some switch then
      (link.hostEth.get? host).map fun eth => hostName host ++ "-eth" ++ toString eth
    else none

/-- `extract_gateway_from_ip`. -/
def extractGatewayFromIp (ip : String) : String := String.ofList (ip.toList.takeWhile (· ≠ '/'))

/-- The loop of `add_host_route` calls over an entry's hosts. -/
def addHostRoutes (env : RootEnv) (meshLinks : List RawLink) (switch gateway : String)
    (hosts : List Nat) (network : String) : BridgeOp Unit :=
  Op.forEach hosts fun host =>
    addHostRoute env (hostName host) network gateway (findHostIntf meshLinks host switch)

/-- An entry of `setup_bridges` once its root link is attached. -/
def setupAttached (env : RootEnv) (hostNum : Nat) (meshLinks : List RawLink)
    (config : BridgeConfig) (switch rootIp : String) : BridgeOp Unit := do
  enableNormalFlow env switch
  let gateway := extractGatewayFromIp rootIp
  let hosts := config.hosts.getD (List.range hostNum)
  Op.whenSome (truthy config.externalRoutes) fun external => do
    Op.whenSome (truthy config.gateway) (addRootRoute env external)
    addHostRoutes env meshLinks switch gateway hosts external
    writeHostResolvConf env (hosts.map hostName)
  Op.when config.nat do
    enableIpForwarding env
    enableNat env config.localRoutes config.natOut
  Op.when config.proxyArp (enableProxyArp env)
  Op.whenSome (truthy config.vmHostNetwork) (addHostRoutes env meshLinks switch gateway hosts)

def SwitchRef.switchName : SwitchRef → String
  | .index i => Core.switchName i
  | .name s => s

/-- One entry of `setup_bridges`. An entry without a root address or without its switch is
    skipped. -/
def setupBridge (env : RootEnv) (hostNum : Nat) (meshLinks : List RawLink)
    (scheme : AddressingScheme) (config : BridgeConfig) : BridgeOp Unit :=
  let switch := config.switch.switchName
  match resolveRootIp switch config.rootIp meshLinks scheme with
  | .error err => Op.raise (.raised err)
  | .ok rootIp =>
      Op.whenSome (truthy rootIp) fun rootIp => do
        let attached ← connectToRootNs env switch rootIp config.localRoutes
        Op.when attached (setupAttached env hostNum meshLinks config switch rootIp)

/-- `setup_bridges`. -/
def setupBridges (env : RootEnv) (configs : List BridgeConfig) (hostNum : Nat)
    (meshLinks : List RawLink) (scheme : AddressingScheme) : BridgeOp Unit :=
  Op.forEach configs (setupBridge env hostNum meshLinks scheme)

end Runtime
end CeforeEmu
