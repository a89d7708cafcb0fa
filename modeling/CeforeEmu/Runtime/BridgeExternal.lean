import CeforeEmu.Lib.Dict
import CeforeEmu.Lib.Op
import CeforeEmu.Runtime.BridgeArgs

/-!
# Attaching a physical interface to a host

`runtime/bridge_external.py`. `attach_external_via_bridge` builds a Linux bridge, enslaves the
physical interface to it and runs a veth pair into the host's namespace, some fifteen commands
in all; each command that changed something sets a flag of the host's record in
`_created_bridges`, and some of them append an undo action. A command that fails aborts the
attach: the undo actions run in reverse, each clearing its own flags if it succeeds, and the
record is dropped if no flag is left. `cleanup_external_bridges` later undoes what the flags
of every record say.

The steps of an attach have one shape, so they are data here: a `Stage` is a command, the
reason its failure is reported under, the flags it sets and the undo action it registers, and
`attachStages` lists them in the order of the source.

The network is a table of links by namespace and name. What iproute2 does is modelled as far
as the module relies on it: a failed command has no effect, names are unique in a namespace, a
link is deleted with its veth peer, and a deleted bridge releases its ports.
-/

set_option autoImplicit false

namespace CeforeEmu
namespace Runtime

open Lib

/-! ## The network -/

/-- A namespace: the root one, or a host's. -/
abbrev Ns := Option String

structure NetLink where
  isBridge : Bool
  up : Bool
  master : Option String
  mtu : Int
  /-- The other end of a veth pair. -/
  peer : Option (Ns × String)
  addrs : List String
  deriving DecidableEq, Repr

structure LinkNet where
  links : Ns → String → Option NetLink

namespace LinkNet

def set (net : LinkNet) (ns : Ns) (name : String) (l : Option NetLink) : LinkNet where
  links ns' name' := if ns' = ns ∧ name' = name then l else net.links ns' name'

/-- Ports of a root-namespace bridge lose their master. -/
def release (net : LinkNet) (bridge : String) : LinkNet where
  links ns name := (net.links ns name).map fun l =>
    if ns = none ∧ l.master = some bridge then { l with master := none } else l

end LinkNet

inductive LinkCmd where
  | addBridge (name : String)
  | addVeth (name peer : String)
  | setUp (ns : Ns) (name : String) (up : Bool)
  | setMaster (name bridge : String)
  | noMaster (name : String)
  | setNetns (name host : String)
  | setMtu (ns : Ns) (name : String) (mtu : Int)
  | addAddr (host name ip : String)
  | del (name : String)
  deriving DecidableEq, Repr

def noSuchDevice (name : String) : CmdFailure :=
  ⟨1, by decide, "Cannot find device \"" ++ name ++ "\"\n"⟩

def fileExists : CmdFailure := ⟨2, by decide, "RTNETLINK answers: File exists\n"⟩

def notSupported : CmdFailure := ⟨2, by decide, "RTNETLINK answers: Operation not supported\n"⟩

/-- A new link, down and on its own. -/
def freshLink (isBridge : Bool) (peer : Option (Ns × String)) : NetLink :=
  ⟨isBridge, false, none, 1500, peer, []⟩

/-- Change one link that must exist. -/
def LinkNet.change (net : LinkNet) (ns : Ns) (name : String) (f : NetLink → NetLink) :
    Except CmdFailure LinkNet :=
  match net.links ns name with
  | some l => .ok (net.set ns name (some (f l)))
  | none => .error (noSuchDevice name)

/-- What a command does when the environment lets it run. -/
def LinkNet.exec (net : LinkNet) : LinkCmd → Except CmdFailure LinkNet
  | .addBridge name =>
      match net.links none name with
      | some _ => .error fileExists
      | none => .ok (net.set none name (some (freshLink true none)))
  | .addVeth name peer =>
      if name = peer ∨ net.links none name ≠ none ∨ net.links none peer ≠ none then
        .error fileExists
      else .ok ((net.set none name (some (freshLink false (some (none, peer))))).set none peer
        (some (freshLink false (some (none, name)))))
  | .setUp ns name up => net.change ns name fun l => { l with up := up }
  | .setMaster name bridge =>
      match net.links none bridge, net.links none name with
      | some b, some l =>
          -- only a bridge takes ports, and a bridge is not one
          if b.isBridge ∧ ¬ l.isBridge then
            .ok (net.set none name (some { l with master := some bridge }))
          else .error notSupported
      | none, _ => .error (noSuchDevice bridge)
      | _, none => .error (noSuchDevice name)
  | .noMaster name => net.change none name fun l => { l with master := none }
  | .setNetns name host =>
      match net.links none name, net.links (some host) name with
      | none, _ => .error (noSuchDevice name)
      | _, some _ => .error fileExists
      | some l, none =>
          if l.isBridge then .error notSupported
          else
            -- the link arrives down and without a master; its peer learns where it is
            let moved := (net.set none name none).set (some host) name
              (some { l with up := false, master := none })
            match l.peer with
            | none => .ok moved
            | some (ns, peer) =>
                .ok { links := fun ns' name' =>
                  if ns' = ns ∧ name' = peer then
                    (moved.links ns' name').map fun p => { p with peer := some (some host, name) }
                  else moved.links ns' name' }
  | .setMtu ns name mtu => net.change ns name fun l => { l with mtu := mtu }
  | .addAddr host name ip => net.change (some host) name fun l => { l with addrs := l.addrs ++ [ip] }
  | .del name =>
      match net.links none name with
      | none => .error (noSuchDevice name)
      | some l =>
          -- a physical interface cannot be deleted
          if l.isBridge then .ok ((net.set none name none).release name)
          else
            match l.peer with
            | none => .error notSupported
            | some (ns, peer) => .ok ((net.set none name none).set ns peer none)

/-! ## Records -/

/-- `_OUTSTANDING_FLAGS`. -/
inductive Flag where
  | bridgeCreated
  | bridgeUp
  | phyUpChanged
  | phyEnslaved
  | vethCreated
  | vethRootMastered
  | vethRootUp
  | vethHostNsMoved
  | vethHostUp
  | mtuSet
  | ipAssigned
  deriving DecidableEq, Repr

def outstandingFlags : List Flag :=
  [.bridgeCreated, .bridgeUp, .phyUpChanged, .phyEnslaved, .vethCreated, .vethRootMastered,
    .vethRootUp, .vethHostNsMoved, .vethHostUp, .mtuSet, .ipAssigned]

/-- The flags that go with the veth pair. -/
def vethFlags : List Flag :=
  [.vethCreated, .vethRootMastered, .vethRootUp, .vethHostNsMoved, .vethHostUp, .mtuSet,
    .ipAssigned]

/-- A record of `_created_bridges`. -/
structure BridgeRecord where
  bridge : String
  vethRoot : String
  vethHost : String
  phyIntf : String
  priorUp : Bool
  flags : Flag → Bool

namespace BridgeRecord

/-- `record[flag] = value` for each of the flags. -/
def assign (r : BridgeRecord) (flags : List Flag) (value : Bool) : BridgeRecord :=
  { r with flags := fun f => if f ∈ flags then value else r.flags f }

/-- `_record_has_outstanding_state`. -/
def hasOutstandingState (r : BridgeRecord) : Bool := outstandingFlags.any r.flags

/-- The record `attach_external_via_bridge` starts with. -/
def new (host phyIntf : String) (priorUp : Bool) : BridgeRecord where
  bridge := "br-" ++ host
  vethRoot := "veth-" ++ host ++ "-root"
  vethHost := "veth-" ++ host
  phyIntf := phyIntf
  priorUp := priorUp
  flags _ := false

end BridgeRecord

/-! ## Programs -/

structure ExtWorld where
  net : LinkNet
  /-- `_created_bridges`, in insertion order. -/
  table : Dict String BridgeRecord
  answers : List (Option CmdFailure)

inductive ExtErr where
  | raised (err : PyErr)
  /-- `ExternalBridgeError`. -/
  | external (setupFailure : Option String) (rollbackFailures : List (String × String))
  deriving DecidableEq, Repr

/-- The rollback failures an exception carries. -/
def ExtErr.rollbackFailures : ExtErr → List (String × String)
  | .raised _ => []
  | .external _ failures => failures

abbrev ExtOp (α : Type) := Op ExtWorld ExtErr α

def ExtOp.raiseRuntime {α : Type} (msg : String) : ExtOp α := Op.raise (.raised (.runtimeError msg))

/-- Run a command in the namespace it is for: `none`, or its failure. -/
def runLink (cmd : LinkCmd) : ExtOp (Option CmdFailure) := fun w =>
  match w.answers with
  | some f :: rest => (.ok (some f), { w with answers := rest })
  | _ =>
      match w.net.exec cmd with
      | .ok net => (.ok none, { w with net := net, answers := w.answers.tail })
      | .error f => (.ok (some f), { w with answers := w.answers.tail })

/-- Run a query: the environment may make it fail, and it changes nothing. -/
def runQuery : ExtOp (Option CmdFailure) := fun w =>
  (.ok w.answers.head?.join, { w with answers := w.answers.tail })

/-- Update the record of a host. -/
def updateRecord (host : String) (f : BridgeRecord → BridgeRecord) : ExtOp Unit :=
  Op.modify fun w => { w with table := w.table.map fun p => if p.1 = host then (p.1, f p.2) else p }

/-- The undo actions an attach registers. -/
inductive Undo where
  | delBridge
  | phyDown
  | unmaster
  | delVeth
  deriving DecidableEq, Repr

namespace Undo

def description : Undo → String
  | .delBridge => "delete bridge"
  | .phyDown => "restore phy DOWN"
  | .unmaster => "unmaster phy"
  | .delVeth => "delete veth"

/-- `run`: `_rollback_del_link`, `_rollback_set_link`, `_rollback_unmaster`. -/
def cmd (r : BridgeRecord) : Undo → LinkCmd
  | .delBridge => .del r.bridge
  | .phyDown => .setUp none r.phyIntf false
  | .unmaster => .noMaster r.phyIntf
  | .delVeth => .del r.vethRoot

/-- The text of the exception `run` raises. -/
def errorText (r : BridgeRecord) (f : CmdFailure) : Undo → String
  | .delBridge => "rollback del " ++ r.bridge ++ " failed (rc=" ++ toString f.rc ++ "): "
      ++ strStrip f.stderr
  | .phyDown => "rollback set " ++ r.phyIntf ++ " down failed (rc=" ++ toString f.rc ++ "): "
      ++ strStrip f.stderr
  | .unmaster => "rollback unmaster " ++ r.phyIntf ++ " failed (rc=" ++ toString f.rc ++ "): "
      ++ strStrip f.stderr
  | .delVeth => "rollback del " ++ r.vethRoot ++ " failed (rc=" ++ toString f.rc ++ "): "
      ++ strStrip f.stderr

def clearFlags : Undo → List Flag
  | .delBridge => [.bridgeCreated, .bridgeUp]
  | .phyDown => [.phyUpChanged]
  | .unmaster => [.phyEnslaved]
  | .delVeth => vethFlags

end Undo

/-- `_rollback`, over the reversed list of actions. -/
def rollback (host : String) (r : BridgeRecord) : List Undo → ExtOp (List (String × String))
  | [] => pure []
  | undo :: rest => do
      match ← runLink (undo.cmd r) with
      | some f =>
          let failures ← rollback host r rest
          return (undo.description, undo.errorText r f) :: failures
      | none =>
          updateRecord host fun rec => rec.assign undo.clearFlags false
          rollback host r rest

/-- Drop the host's record unless it has outstanding state. -/
def popDischarged (host : String) : ExtOp Unit :=
  Op.modify fun w =>
    { w with table := w.table.filter fun p => p.1 ≠ host ∨ p.2.hasOutstandingState }

/-- `_abort(reason)` and the exception that follows it. -/
def abort (host : String) (r : BridgeRecord) (undos : List Undo) (reason : String) :
    ExtOp Unit := do
  let failures ← rollback host r undos.reverse
  popDischarged host
  Op.raise (.external (some reason) failures)

/-! ## Attach -/

/-- One step of an attach. -/
structure Stage where
  cmd : LinkCmd
  /-- The reason its failure is reported under. -/
  reason : String
  sets : List Flag
  undo : Option Undo

/-- The steps after the bridge is created. -/
def attachStages (host ip : String) (mtu : Option Int) (r : BridgeRecord) : List Stage :=
  [⟨.setUp none r.bridge true, "bridge-up failure", [.bridgeUp], none⟩]
  ++ (if r.priorUp then []
      else [⟨.setUp none r.phyIntf true, "phy-up failure", [.phyUpChanged], some .phyDown⟩])
  ++ [⟨.setMaster r.phyIntf r.bridge, "phy-enslave failure", [.phyEnslaved], some .unmaster⟩,
      ⟨.addVeth r.vethRoot r.vethHost, "veth creation failure", [.vethCreated], some .delVeth⟩,
      ⟨.setMaster r.vethRoot r.bridge, "veth-root-master failure", [.vethRootMastered], none⟩,
      ⟨.setUp none r.vethRoot true, "veth-root-up failure", [.vethRootUp], none⟩,
      ⟨.setUp none r.vethHost true, "veth-host-up failure", [], none⟩,
      ⟨.setNetns r.vethHost host, "veth-host-ns-move failure", [.vethHostNsMoved], none⟩,
      ⟨.setUp (some host) r.vethHost true, "veth-host-up-in-ns failure", [.vethHostUp], none⟩]
  ++ (match mtu.filter fun m => m ≠ 0 with
      | none => []
      | some m =>
          [⟨.setMtu none r.bridge m, "bridge-mtu failure", [], none⟩,
            ⟨.setMtu none r.vethRoot m, "veth-root-mtu failure", [], none⟩,
            ⟨.setMtu (some host) r.vethHost m, "veth-host-mtu failure", [.mtuSet], none⟩])
  ++ [⟨.addAddr host r.vethHost ip, "static-ip failure", [.ipAssigned], none⟩]

/-- Run the steps in order; the first failure aborts. -/
def runStages (host : String) (r : BridgeRecord) : List Stage → List Undo → ExtOp Unit
  | [], _ => pure ()
  | stage :: rest, undos => do
      match ← runLink stage.cmd with
      | some _ => abort host r undos stage.reason
      | none =>
          updateRecord host fun rec => rec.assign stage.sets true
          runStages host r rest (undos ++ stage.undo.toList)

/-- What surrounds an attach. -/
structure ExtEnv where
  hosts : List String
  ipInterfaceError : String → Option String

/-- The checks of `attach_external_via_bridge` that run no command: the exception, or the
    record to start with but for the interface's state. -/
def attachChecks (env : ExtEnv) (host phyIntf : String) (ip : Option String)
    (table : Dict String BridgeRecord) : Except PyErr String :=
  match truthy ip with
  | none => .error (.runtimeError ("static IP required for external bridge attachment of " ++ host
      ++ "; DHCP mode is not supported"))
  | some ip =>
      match staticIpError env.ipInterfaceError ip with
      | some msg => .error (.runtimeError msg)
      | none =>
          let r := BridgeRecord.new host phyIntf false
          if 15 < r.bridge.length ∨ 15 < r.vethRoot.length ∨ 15 < r.vethHost.length then
            .error (.runtimeError ("generated interface names exceed 15-character limit: bridge="
              ++ strRepr r.bridge ++ "(" ++ toString r.bridge.length ++ "), veth_root="
              ++ strRepr r.vethRoot ++ "(" ++ toString r.vethRoot.length ++ "), veth_host="
              ++ strRepr r.vethHost ++ "(" ++ toString r.vethHost.length ++ ")"))
          else if (table.get? host).isSome then
            .error (.runtimeError ("active attachment already exists for " ++ host
              ++ "; run cleanup_external_bridges() first"))
          else
            match table.find? fun p => p.2.phyIntf = phyIntf ∧ p.1 ≠ host with
            | some p => .error (.runtimeError ("physical interface " ++ phyIntf
                ++ " is already attached via active external bridge for host " ++ p.1
                ++ "; run cleanup_external_bridges() first"))
            | none => if host ∈ env.hosts then .ok ip else .error (.keyError host)

/-- The address that makes an interface non-clean. -/
def configuredAddr (l : NetLink) : Option String :=
  l.addrs.find? fun addr => addr ≠ "" ∧ ¬ "169.254.".toList.isPrefixOf addr.toList

/-- `_inspect_link`, `_inspect_addresses` and the checks on what they report: the interface's
    administrative state. -/
def inspectPhy (phyIntf : String) : ExtOp Bool := do
  match ← runQuery with
  | some f => ExtOp.raiseRuntime ("cannot inspect " ++ phyIntf ++ ": ip link show " ++ phyIntf
      ++ " failed (rc=" ++ toString f.rc ++ "): " ++ strStrip f.stderr)
  | none =>
      let w ← Op.get
      match w.net.links none phyIntf with
      | none => ExtOp.raiseRuntime ("cannot inspect " ++ phyIntf ++ ": ip link show " ++ phyIntf
          ++ " failed (rc=1): " ++ strStrip (noSuchDevice phyIntf).stderr)
      | some l =>
          match truthy l.master with
          | some master => ExtOp.raiseRuntime (phyIntf ++ " already enslaved to " ++ master
              ++ "; cannot reassign to new bridge")
          | none =>
              match ← runQuery with
              | some f => ExtOp.raiseRuntime ("cannot inspect addresses on " ++ phyIntf
                  ++ ": ip addr show " ++ phyIntf ++ " failed (rc=" ++ toString f.rc ++ "): "
                  ++ strStrip f.stderr)
              | none =>
                  match configuredAddr l with
                  | some addr => ExtOp.raiseRuntime (phyIntf ++ " has configured address " ++ addr
                      ++ "; refusing to mutate non-clean interface")
                  | none => return l.up

/-- `attach_external_via_bridge`. -/
def attachExternalViaBridge (env : ExtEnv) (host phyIntf : String) (ip : Option String)
    (mtu : Option Int) : ExtOp Unit := do
  let w ← Op.get
  match attachChecks env host phyIntf ip w.table with
  | .error err => Op.raise (.raised err)
  | .ok ip =>
      let priorUp ← inspectPhy phyIntf
      let r := BridgeRecord.new host phyIntf priorUp
      Op.modify fun w => { w with table := w.table.set host r }
      match ← runLink (.addBridge r.bridge) with
      | some f =>
          Op.modify fun w => { w with table := w.table.pop host }
          ExtOp.raiseRuntime ("bridge creation failed (rc=" ++ toString f.rc ++ "): "
            ++ strStrip f.stderr)
      | none =>
          updateRecord host fun rec => rec.assign [.bridgeCreated] true
          runStages host r (attachStages host ip mtu r) [.delBridge]

/-! ## Cleanup -/

/-- One gate of `cleanup_external_bridges`: a command that runs while its flag is set, the text
    its failure is listed under, the flags its success clears. -/
structure Gate where
  flag : Flag
  cmd : LinkCmd
  label : String
  clears : List Flag

/-- The gates of a record, in order. -/
def cleanupGates (r : BridgeRecord) : List Gate :=
  [⟨.vethCreated, .del r.vethRoot, "del " ++ r.vethRoot, vethFlags⟩,
    ⟨.phyEnslaved, .noMaster r.phyIntf, "unmaster " ++ r.phyIntf, [.phyEnslaved]⟩,
    ⟨.phyUpChanged, .setUp none r.phyIntf false, "down " ++ r.phyIntf, [.phyUpChanged]⟩,
    ⟨.bridgeUp, .setUp none r.bridge false, "down " ++ r.bridge, [.bridgeUp]⟩,
    ⟨.bridgeCreated, .del r.bridge, "del " ++ r.bridge, [.bridgeCreated, .bridgeUp]⟩]

/-- Run the gates on a record: the record afterwards, and the failures. -/
def runGates : List Gate → BridgeRecord → ExtOp (BridgeRecord × List (String × String))
  | [], r => pure (r, [])
  | gate :: rest, r =>
      if r.flags gate.flag then do
        match ← runLink gate.cmd with
        | some f =>
            let (r', failures) ← runGates rest r
            return (r', (gate.label, strStrip f.stderr) :: failures)
        | none => runGates rest (r.assign gate.clears false)
      else runGates rest r

/-- The loop over the records: those that stay, and the failures. -/
def cleanupRecords : List (String × BridgeRecord) →
    ExtOp (List (String × BridgeRecord) × List (String × String))
  | [] => pure ([], [])
  | (host, r) :: rest => do
      let (r', failures) ← runGates (cleanupGates r) r
      let (kept, failures') ← cleanupRecords rest
      return (if r'.hasOutstandingState then (host, r') :: kept else kept, failures ++ failures')

/-- `cleanup_external_bridges`. -/
def cleanupExternalBridges : ExtOp Unit := do
  let w ← Op.get
  let (kept, failures) ← cleanupRecords w.table
  Op.modify fun w => { w with table := kept }
  if ¬ failures.isEmpty then
    Op.raise (.external none failures)

end Runtime
end CeforeEmu
