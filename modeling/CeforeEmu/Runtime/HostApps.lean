import CeforeEmu.Core.Topology
import CeforeEmu.Core.Value
import CeforeEmu.Lib.Run

/-!
# `HostAppFleet` — long-running applications, restarts and shutdown

`runtime/host_apps.py`. The fleet expands the `host_apps:` entries once (`expandLaunch`),
starts one process per (entry, host) pair (`startAll`) and keeps a record of each in
`_launches`. From then on two callers compete for that list: the scheduler thread, which
restarts one host's processes (`restart_host`), and the main thread, which stops everything
(`stop_all`).

`restart_host` is two lock sections with a wait in between, and the model has exactly that
shape: `restartPhase1` and `restartPhase2` are the two sections, each one atomic, and
`RestartPc` is where a call stands between them. `stop_all` is one lock section
(`_stopping.set()` and the snapshot) and then one stop attempt after the other, with no lock
held. `fleetStep` interleaves any number of calls; `restartHost` is one call run to its end
with nothing in between, which is what the scheduler sees while no shutdown is under way.

The runner is the environment. Every call on it is logged in `calls`, with what it answered:
a process is the number `handle` in start order, a `wait` that raises is a stop that could
not be confirmed. The answers of one loop are a list of Booleans, and answers not given
are successes.
-/

set_option autoImplicit false

namespace CeforeEmu
namespace Runtime

open CeforeEmu.Lib CeforeEmu.Core

/-! ## Expanding the configuration -/

/-- A `hosts:` selector. -/
inductive HostsSpec where
  | all
  | list (hosts : List Nat)
  deriving DecidableEq, Repr

/-- One `host_apps:` entry. An absent or empty `env` is the empty list. -/
structure AppSpec where
  hosts : HostsSpec
  argv : List String
  env : List (String × String)
  cwd : Option String
  log : Option String
  deriving DecidableEq, Repr

/-- The constructor's arguments. `realpath` is `os.path.realpath` in the file system the
    experiment runs in. -/
structure FleetConfig where
  specs : List AppSpec
  hostCount : Nat
  nodeDirs : Dict Nat String
  ceforeConfDirs : Dict Nat String
  t0Ms : Int
  realpath : String → String

/-- `_placeholder_context`, in the order of `_PLACEHOLDER_NAMES`. -/
def placeholderContext (idx : Nat) (nodeDir ceforeConfDir : String) (t0Ms : Int) :
    List (String × String) :=
  [("node", hostName idx), ("node_dir", nodeDir), ("cefore_conf_dir", ceforeConfDir),
    ("t0_ms", toString t0Ms)]

/-- `_expand`: one `str.replace` per placeholder, in order. -/
def expand (text : String) (ctx : List (String × String)) : String :=
  ctx.foldl (fun text kv => strReplace text ("\x7b" ++ kv.1 ++ "\x7d") kv.2) text

/-- `_env_argv_prefix`. -/
def envArgvPrefix (env : List (String × String)) : List String :=
  "env" :: env.map fun kv => kv.1 ++ "=" ++ kv.2

/-- `_resolve_hosts`. -/
def resolveHosts (hosts : HostsSpec) (hostCount : Nat) : List Nat :=
  match hosts with
  | .all => List.range hostCount
  | .list hosts => hosts

/-- `_life_log`. -/
def lifeLog (log : Option String) (life : Nat) : Option String :=
  match log with
  | none => none
  | some log => if life ≤ 1 then some log else some (log ++ ".life" ++ toString life)

/-- What a launch replays: an entry expanded for one host. -/
structure Expanded where
  idx : Nat
  argv : List String
  cwd : Option String
  log : Option String
  deriving DecidableEq, Repr

/-- `_expand_launch`. A host without a directory is a `KeyError`. -/
def expandLaunch (cfg : FleetConfig) (spec : AppSpec) (idx : Nat) : Except PyErr Expanded :=
  match cfg.nodeDirs.get? idx, cfg.ceforeConfDirs.get? idx with
  | some nodeDir, some ceforeConfDir =>
      let ctx := placeholderContext idx nodeDir ceforeConfDir cfg.t0Ms
      let argv := spec.argv.map (expand · ctx)
      let env := spec.env.map fun kv => (kv.1, expand kv.2 ctx)
      .ok { idx := idx
            argv := if env.isEmpty then argv else envArgvPrefix env ++ argv
            cwd := spec.cwd.map (expand · ctx)
            log := spec.log.map (expand · ctx) }
  | _, _ => .error (.keyError (toString idx))

/-- The pairs `__init__` and `start_all` both iterate over, expanded. -/
def expandAll (cfg : FleetConfig) : Except PyErr (List Expanded) :=
  (cfg.specs.flatMap fun spec => (resolveHosts spec.hosts cfg.hostCount).map (spec, ·)).mapM
    fun pair => expandLaunch cfg pair.1 pair.2

/-- A constructed fleet. `__init__` has expanded every pair to reserve its log path, so on
    a fleet that exists no later expansion can raise: the expansions are a field. -/
structure HostAppFleet where
  cfg : FleetConfig
  plan : List Expanded
  plan_eq : expandAll cfg = .ok plan

/-- `__init__`. -/
def HostAppFleet.new (cfg : FleetConfig) : Except PyErr HostAppFleet :=
  match h : expandAll cfg with
  | .ok plan => .ok ⟨cfg, plan, h⟩
  | .error err => .error err

/-- `_reserved_logs`. -/
def HostAppFleet.reservedLogs (fleet : HostAppFleet) : List String :=
  fleet.plan.filterMap fun e => e.log.map fleet.cfg.realpath

/-- `build_host_app_fleet`, with the directory of each host: one dict serves as `node_dirs` and as
    `cefore_conf_dirs`. -/
def buildHostAppFleet (hostCount : Nat) (hostAppsConfig : List AppSpec) (t0Ms : Int)
    (nodeDir : Nat → String) (realpath : String → String) : Except PyErr HostAppFleet :=
  let nodeDirs : Dict Nat String := (List.range hostCount).map fun idx => (idx, nodeDir idx)
  HostAppFleet.new
    { specs := hostAppsConfig
      hostCount := hostCount
      nodeDirs := nodeDirs
      ceforeConfDirs := nodeDirs
      t0Ms := t0Ms
      realpath := realpath }

/-! ## The entries of a document -/

section Document

variable {τ : Type}

def hostIndex? : Value τ → Option Nat
  | .int n => if 0 ≤ n then some n.toNat else none
  | _ => none

def textOf? : Value τ → Option String
  | .str s => some s
  | _ => none

def HostsSpec.ofValue? : Value τ → Option HostsSpec
  | .str s => if s = "all" then some .all else none
  | .list hosts => (hosts.mapM hostIndex?).map .list
  | _ => none

def argvOf? : Value τ → Option (List String)
  | .list argv => argv.mapM textOf?
  | _ => none

variable [DecidableEq τ]

/-- `spec.get("env") or {}`. -/
def envOf? (entry : Mapping τ) : Option (List (String × String)) :=
  match entry.get? "env" with
  | none => some []
  | some (.dict env) => env.mapM fun e =>
      match e with
      | (.str key, .str value) => some (key, value)
      | _ => none
  | some _ => none

/-- `spec.get(field)`, of a text. -/
def optionalText? (entry : Mapping τ) (field : String) : Option (Option String) :=
  match entry.get? field with
  | none => some none
  | some v => (textOf? v).map some

/-- An entry as the fleet takes it. -/
def AppSpec.ofEntry? (entry : Mapping τ) : Option AppSpec := do
  let hosts ← (entry.get? "hosts").bind HostsSpec.ofValue?
  let argv ← (entry.get? "argv").bind argvOf?
  let env ← envOf? entry
  let cwd ← optionalText? entry "cwd"
  let log ← optionalText? entry "log"
  some { hosts := hosts, argv := argv, env := env, cwd := cwd, log := log }

def AppSpec.ofValue? : Value τ → Option AppSpec
  | .dict entry => ofEntry? entry
  | _ => none

/-- `getattr(args, "host_apps", None) or []`. -/
def hostAppsConfig? (config : Mapping τ) : Option (List AppSpec) :=
  match config.get? "host_apps" with
  | none => some []
  | some (.list entries) => entries.mapM AppSpec.ofValue?
  | some _ => none

end Document

/-! ## The runner -/

/-- A record of `_launches`. `log` is always the first life's. -/
structure Launch extends Expanded where
  life : Nat
  handle : Nat
  deriving DecidableEq, Repr

inductive StopContext where
  | restart
  | shutdown
  deriving DecidableEq, Repr

/-- A call on the `CommandRunner` and its answer: the new process, or `none` when `start`
    raised; whether `wait` returned. -/
inductive RunnerCall where
  | start (node : String) (argv : List String) (log cwd : Option String) (handle : Option Nat)
  | wait (handle : Nat) (context : StopContext) (ok : Bool)
  deriving DecidableEq, Repr

structure FleetState where
  /-- `_launches`. -/
  launches : List Launch
  /-- `_stopping`. -/
  stopping : Bool
  /-- Processes started so far; the next one's handle. -/
  nextHandle : Nat
  calls : List RunnerCall
  deriving DecidableEq, Repr

def FleetState.init : FleetState where
  launches := []
  stopping := false
  nextHandle := 0
  calls := []

/-- `runner.start(...)` and, when it returns, the `append` of the launch record. -/
def startLaunch (s : FleetState) (e : Expanded) (life : Nat) (ok : Bool) : FleetState :=
  let call := RunnerCall.start (hostName e.idx) e.argv (lifeLog e.log life) e.cwd
  if ok then
    { s with
      launches := s.launches ++ [{ e with life := life, handle := s.nextHandle }]
      nextHandle := s.nextHandle + 1
      calls := s.calls ++ [call (some s.nextHandle)] }
  else { s with calls := s.calls ++ [call none] }

/-- The runner's next answer. -/
def nextAnswer : List Bool → Bool
  | [] => true
  | ok :: _ => ok

/-- A loop of starts, left at the first one that raises: the state, and whether the loop
    came to its end. -/
def startEach : List (Expanded × Nat) → List Bool → FleetState → FleetState × Bool
  | [], _, s => (s, true)
  | (e, life) :: rest, answers, s =>
      if nextAnswer answers then startEach rest answers.tail (startLaunch s e life true)
      else (startLaunch s e life false, false)

/-- `start_all`. -/
def startAll (fleet : HostAppFleet) (answers : List Bool) : FleetState × Bool :=
  startEach (fleet.plan.map (·, 1)) answers .init

/-- `_stop_one_launch`. -/
def stopOneLaunch (s : FleetState) (launch : Launch) (context : StopContext) (ok : Bool) :
    FleetState :=
  { s with calls := s.calls ++ [.wait launch.handle context ok] }

/-- `restart_host`'s loop of stops: every launch is tried, and those whose stop could not
    be confirmed come back as `unstopped`. -/
def stopEach : List Launch → List Bool → FleetState → FleetState × List Launch
  | [], _, s => (s, [])
  | launch :: rest, answers, s =>
      let ok := nextAnswer answers
      let (s', unstopped) := stopEach rest answers.tail (stopOneLaunch s launch .restart ok)
      (s', if ok then unstopped else launch :: unstopped)

/-! ## `restart_host` -/

/-- What a call of `restart_host` ends with. -/
inductive RestartOutcome where
  | returned (restarted : Bool)
  | raised (err : PyErr)
  /-- The exception of the first stop that failed, re-raised. -/
  | stopFailed
  /-- The exception of a start that failed. -/
  | startFailed
  deriving DecidableEq, Repr

/-- Where a call stands. -/
inductive RestartPc where
  /-- Before the first lock section. -/
  | called (idx : Nat)
  /-- In `_stopping.wait(downtime_s)`. -/
  | downtime (idx : Nat) (mine : List Launch)
  /-- The wait timed out; before the second lock section. -/
  | resuming (idx : Nat) (mine : List Launch)
  | done (outcome : RestartOutcome)
  deriving DecidableEq, Repr

/-- The launches of one host. -/
def FleetState.mine (s : FleetState) (idx : Nat) : List Launch :=
  s.launches.filter fun l => l.idx = idx

/-- The next life's log path, when it is another entry's reserved path. -/
def HostAppFleet.collision (fleet : HostAppFleet) (launch : Launch) : Option String :=
  match lifeLog launch.log (launch.life + 1) with
  | none => none
  | some collide =>
      if fleet.cfg.realpath collide ∈ fleet.reservedLogs then some collide else none

def collisionMessage (idx : Nat) (collide : String) : String :=
  "host_apps restart for " ++ hostName idx ++ " would write its next life's log to "
    ++ strRepr collide ++ ", which collides with another host_apps entry's reserved log path"

/-- The first lock section, up to the wait. -/
def restartPhase1 (fleet : HostAppFleet) (s : FleetState) (idx : Nat) (stops : List Bool) :
    FleetState × RestartPc :=
  if s.stopping then (s, .done (.returned false))
  else
    let mine := s.mine idx
    match mine.findSome? fleet.collision with
    | some collide => (s, .done (.raised (.valueError (collisionMessage idx collide))))
    | none =>
        let others := { s with launches := s.launches.filter fun l => l.idx ≠ idx }
        let (s', unstopped) := stopEach mine stops others
        let s'' := { s' with launches := s'.launches ++ unstopped }
        if mine.isEmpty then (s'', .done (.returned false))
        else if unstopped.isEmpty then (s'', .downtime idx mine)
        else (s'', .done .stopFailed)

/-- The second lock section. -/
def restartPhase2 (s : FleetState) (mine : List Launch) (starts : List Bool) :
    FleetState × RestartOutcome :=
  if s.stopping then (s, .returned false)
  else
    match startEach (mine.map fun l => (l.toExpanded, l.life + 1)) starts s with
    | (s', true) => (s', .returned true)
    | (s', false) => (s', .startFailed)

/-- One call of `restart_host` with nothing running beside it. -/
def restartHost (fleet : HostAppFleet) (s : FleetState) (idx : Nat) (stops starts : List Bool) :
    FleetState × RestartOutcome :=
  match restartPhase1 fleet s idx stops with
  | (s', .downtime _ mine) => restartPhase2 s' mine starts
  | (s', .done outcome) => (s', outcome)
  | (s', _) => (s', .returned false)

/-! ## Restarts and shutdown, interleaved -/

structure FleetSystem where
  fleet : FleetState
  /-- The calls of `restart_host`, in the order they were made. -/
  restarts : List RestartPc
  /-- The calls of `stop_all` past their lock section: the launches still to be stopped. -/
  sweeps : List (List Launch)
  deriving DecidableEq, Repr

/-- One step of the system, by whoever moves. -/
inductive FleetAct where
  | callRestart (idx : Nat)
  | phase1 (call : Nat) (stops : List Bool)
  /-- `_stopping.wait(downtime_s)` returns. -/
  | wake (call : Nat)
  | phase2 (call : Nat) (starts : List Bool)
  | stopAll
  | sweep (call : Nat) (ok : Bool)
  deriving DecidableEq, Repr

def fleetStep (fleet : HostAppFleet) (s : FleetSystem) : FleetAct → Option FleetSystem
  | .callRestart idx => some { s with restarts := s.restarts ++ [.called idx] }
  | .phase1 call stops =>
      match s.restarts[call]? with
      | some (.called idx) =>
          let (f, pc) := restartPhase1 fleet s.fleet idx stops
          some { s with fleet := f, restarts := s.restarts.set call pc }
      | _ => none
  | .wake call =>
      match s.restarts[call]? with
      | some (.downtime idx mine) =>
          -- the event's value when `wait` returns, by `set` or by timeout
          let pc := if s.fleet.stopping then .done (.returned false) else .resuming idx mine
          some { s with restarts := s.restarts.set call pc }
      | _ => none
  | .phase2 call starts =>
      match s.restarts[call]? with
      | some (.resuming _ mine) =>
          let (f, outcome) := restartPhase2 s.fleet mine starts
          some { s with fleet := f, restarts := s.restarts.set call (.done outcome) }
      | _ => none
  | .stopAll =>
      some { s with fleet := { s.fleet with stopping := true }
                    sweeps := s.sweeps ++ [s.fleet.launches] }
  | .sweep call ok =>
      match s.sweeps[call]? with
      | some (launch :: rest) =>
          some { s with fleet := stopOneLaunch s.fleet launch .shutdown ok
                        sweeps := s.sweeps.set call rest }
      | _ => none

/-- The system once `start_all` has come to its end, however it ended. -/
def FleetSystem.started (fleet : HostAppFleet) (answers : List Bool) : FleetSystem where
  fleet := (startAll fleet answers).1
  restarts := []
  sweeps := []

end Runtime
end CeforeEmu
