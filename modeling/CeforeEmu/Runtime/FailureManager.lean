import CeforeEmu.Core.Fib
import CeforeEmu.Lib.Run

/-!
# Host flapping

`runtime/failure_manager.py` and `core/flap_state.py`. Hosts are taken down by a worker thread and
brought up again by timers, in one of two modes: `periodic_host_flap` takes hosts down in rounds
and starts one timer for each, the cycle worker of `FlexibleFailureManager` goes once through a
list of cycles and starts one timer for each of them. What they share is a set of hosts that are
down, which they publish to a `FlapState`, and the link commands they send.

A mode is a partial step function. A label names the thread that moves and what it met with: the
sample a generator drew, or how a link command ended. One step is a lock section, an update of the
set with its `FlapState.update`, or one host's command; waiting is left to the labels, and so is
the order in which a timer goes through its set of hosts. Log lines are left out.
-/

set_option autoImplicit false

namespace CeforeEmu
namespace Runtime

open CeforeEmu.Lib CeforeEmu.Core

/-! ## `FlapState` -/

structure FlapState where
  downHosts : List ℤ
  lastDownHost : Option ℤ
  deriving DecidableEq, Repr

namespace FlapState

def init : FlapState := ⟨[], none⟩

/-- `update`. -/
def update (state : FlapState) (downHosts : List ℤ) (lastDown : Option ℤ) : FlapState where
  downHosts := downHosts.insertionSort (· ≤ ·)
  lastDownHost := lastDown <|> state.lastDownHost

def snapshot (state : FlapState) : List ℤ := state.downHosts

end FlapState

/-! ## Link commands -/

inductive FlapCmd where
  | down
  | up
  deriving DecidableEq, Repr

/-- An attempted `set_node_links_state`; in the cycle mode, in which cycle. -/
structure Attempt where
  host : ℤ
  cmd : FlapCmd
  cycle : ℕ
  deriving DecidableEq, Repr

/-- How a command ends. -/
inductive CmdEnd where
  | succeeded
  /-- The `on_host_up` callback raised, which the code catches. -/
  | callbackFailed (msg : String)
  /-- An `AssertionError` or an `OSError`, which the code catches. -/
  | failed (msg : String)
  /-- Any other exception: it ends the thread. -/
  | raised
  deriving DecidableEq, Repr

/-- What `_record_flap` hands to the sink. -/
structure FlapRecord where
  eventType : String
  host : ℤ
  success : Bool
  error : Option String
  deriving DecidableEq, Repr

def flapRecords (eventType : String) (host : ℤ) : CmdEnd → List FlapRecord
  | .succeeded => [⟨eventType, host, true, none⟩]
  | .callbackFailed msg => [⟨eventType, host, false, some ("host-up callback failed: " ++ msg)⟩]
  | .failed msg => [⟨eventType, host, false, some msg⟩]
  | .raised => []

/-- `hosts.add(host)`. -/
def addHost (hosts : List ℤ) (host : ℤ) : List ℤ := if host ∈ hosts then hosts else hosts ++ [host]

/-- `rng.sample(population, count)` may answer `sample`. -/
def IsSample (population : List ℤ) (count : ℤ) (sample : List ℤ) : Prop :=
  sample.Nodup ∧ (∀ host ∈ sample, host ∈ population) ∧ (sample.length : ℤ) = count

instance (population : List ℤ) (count : ℤ) (sample : List ℤ) :
    Decidable (IsSample population count sample) :=
  inferInstanceAs (Decidable (_ ∧ _ ∧ _))

def hostRange (hostNum : ℕ) : List ℤ := (List.range hostNum).map Int.ofNat

/-! ## `periodic_host_flap` -/

structure FlapParams where
  hostNum : ℕ
  exclude : List ℤ
  downCount : ℤ
  hasRng : Bool

/-- `host_ids`. -/
def FlapParams.hostIds (p : FlapParams) : List ℤ :=
  (hostRange p.hostNum).filter fun host => host ∉ p.exclude

/-- Where the worker is. -/
inductive FlapPc where
  /-- At the test of the `while` loop. -/
  | top
  /-- Before the wait for the next of these hosts, or, when none is left, for the interval. -/
  | downing (hosts : List ℤ)
  | marking (host : ℤ) (rest : List ℤ)
  | sending (host : ℤ) (rest : List ℤ)
  | arming (host : ℤ) (rest : List ℤ)
  | finished
  deriving DecidableEq, Repr

/-- Where the `do_up` of a timer is. -/
inductive UpPhase where
  | waiting
  | sending
  | clearing
  deriving DecidableEq, Repr

structure UpTimer where
  host : ℤ
  phase : UpPhase
  deriving DecidableEq, Repr

structure Flap where
  stop : Bool
  position : ℤ
  activeDown : List ℤ
  state : FlapState
  pc : FlapPc
  timers : List UpTimer
  attempts : List Attempt
  records : List FlapRecord

/-- A host list that is empty starts no worker. -/
def Flap.init (p : FlapParams) : Flap :=
  ⟨false, 0, [], .init, if p.hostIds = [] then .finished else .top, [], [], []⟩

inductive FlapMove where
  | requestStop
  /-- The worker tests the loop and chooses; the sample is what the generator draws. -/
  | choose (sample : List ℤ)
  | await
  | mark
  | send (result : CmdEnd)
  | arm
  | timerStarts (i : ℕ)
  | timerSends (i : ℕ) (result : CmdEnd)
  | timerClears (i : ℕ)

namespace Flap

/-- The hosts of one round. `rng.sample` raises on a negative count. -/
def chooseHosts (p : FlapParams) (available sample : List ℤ) (s : Flap) : Option Flap :=
  let count := min p.downCount available.length
  if p.hasRng then
    if count < 0 then some { s with pc := .finished }
    else if IsSample available count sample then some { s with pc := .downing sample }
    else none
  else
    let chosen := (List.range count.toNat).map fun offset : ℕ =>
      available.getD ((s.position + offset) % available.length).toNat 0
    some { s with pc := .downing chosen, position := s.position + count }

def step (p : FlapParams) (s : Flap) : FlapMove → Option Flap
  | .requestStop => some { s with stop := true }
  | .choose sample =>
      match s.pc with
      | .top =>
          if s.stop then some { s with pc := .finished }
          else
            let available := p.hostIds.filter fun host => host ∉ s.activeDown
            if available = [] then some s else chooseHosts p available sample s
      | _ => none
  | .await =>
      match s.pc with
      | .downing (host :: rest) => some { s with pc := if s.stop then .finished else .marking host rest }
      | .downing [] => some { s with pc := .top }
      | _ => none
  | .mark =>
      match s.pc with
      | .marking host rest =>
          let active := addHost s.activeDown host
          some { s with activeDown := active, state := s.state.update active (some host),
                        pc := .sending host rest }
      | _ => none
  | .send result =>
      match s.pc with
      | .sending host rest =>
          some { s with attempts := s.attempts ++ [⟨host, .down, 0⟩],
                        records := s.records ++ flapRecords "host_down" host result,
                        pc := if result = .raised then .finished else .arming host rest }
      | _ => none
  | .arm =>
      match s.pc with
      | .arming host rest =>
          some { s with timers := s.timers ++ [⟨host, .waiting⟩], pc := .downing rest }
      | _ => none
  | .timerStarts i =>
      match s.timers[i]? with
      | some ⟨host, .waiting⟩ =>
          if s.stop then some { s with timers := s.timers.eraseIdx i }
          else some { s with timers := s.timers.set i ⟨host, .sending⟩ }
      | _ => none
  | .timerSends i result =>
      match s.timers[i]? with
      | some ⟨host, .sending⟩ =>
          some { s with attempts := s.attempts ++ [⟨host, .up, 0⟩],
                        records := s.records ++ flapRecords "host_up" host result,
                        timers := if result = .raised then s.timers.eraseIdx i
                          else s.timers.set i ⟨host, .clearing⟩ }
      | _ => none
  | .timerClears i =>
      match s.timers[i]? with
      | some ⟨host, .clearing⟩ =>
          let active := s.activeDown.filter fun h => h ≠ host
          some { s with activeDown := active, state := s.state.update active none,
                        timers := s.timers.eraseIdx i }
      | _ => none

end Flap

/-! ## The cycle worker -/

inductive FailureStrategy where
  | simple
  | cyclic
  | random
  | manual
  deriving DecidableEq, Repr

/-- An entry of `cycles`, with the keys it may leave out. -/
structure CycleConfig where
  interval : Option ℤ := none
  duration : Option ℤ := none
  count : Option ℤ := none
  exclude : Option (List ℤ) := none
  target : Option (List ℤ) := none
  allowPublishers : Bool := false
  deriving DecidableEq, Repr

/-- What the cycle worker is started with. -/
structure CycleParams where
  strategy : FailureStrategy
  cycles : List CycleConfig
  hostCount : ℕ
  hasRng : Bool
  publisherIds : List ℤ

/-- `exclude_set`. -/
def CycleConfig.excludeSet (c : CycleConfig) (publisherIds : List ℤ) : List ℤ :=
  c.exclude.getD [] ++ if c.allowPublishers then [] else publisherIds

def CycleConfig.isSkipped (c : CycleConfig) : Bool :=
  c.interval.getD 30 ≤ 0 ∨ c.duration.getD 10 ≤ 0

inductive CyclePc where
  /-- At the head of the `for` loop: the number of the next cycle, and the cycles left. -/
  | next (idx : ℕ) (rest : List CycleConfig)
  /-- In the wait for the interval. -/
  | pausing (idx : ℕ) (cycle : CycleConfig) (rest : List CycleConfig)
  | choosing (idx : ℕ) (cycle : CycleConfig) (rest : List CycleConfig)
  /-- Before the wait for the next of these hosts; `cycleDown` are those this cycle took down. -/
  | downing (idx : ℕ) (hosts cycleDown : List ℤ) (rest : List CycleConfig)
  | marking (idx : ℕ) (host : ℤ) (hosts cycleDown : List ℤ) (rest : List CycleConfig)
  | sending (idx : ℕ) (host : ℤ) (hosts cycleDown : List ℤ) (rest : List CycleConfig)
  | finished

/-- Where the `do_up` of a cycle's timer is. -/
inductive CycleUpPhase where
  | waiting
  | claiming
  /-- These hosts still have to be brought up. -/
  | raising (left : List ℤ)
  deriving DecidableEq, Repr

structure CycleTimer where
  /-- Which timer object this is. -/
  serial : ℕ
  cycleNum : ℕ
  downSet : List ℤ
  phase : CycleUpPhase
  deriving DecidableEq, Repr

structure CycleFlap where
  stop : Bool
  sharedDown : List ℤ
  state : FlapState
  cycleTimers : Dict ℕ ℕ
  created : ℕ
  pc : CyclePc
  timers : List CycleTimer
  attempts : List Attempt
  records : List FlapRecord

def CycleFlap.init (p : CycleParams) : CycleFlap :=
  ⟨false, [], .init, [], 0, if p.cycles = [] then .finished else .next 0 p.cycles, [], [], []⟩

inductive CycleMove where
  | requestStop
  | enter
  | await
  | choose (sample : List ℤ)
  | mark
  | send (result : CmdEnd)
  | arm
  | timerStarts (i : ℕ)
  | timerClaims (i : ℕ)
  | timerSends (i : ℕ) (host : ℤ) (result : CmdEnd)
  | timerClears (i : ℕ)

namespace CycleFlap

/-- The hosts of one cycle, chosen against a snapshot of the shared set. -/
def chooseHosts (p : CycleParams) (idx : ℕ) (cycle : CycleConfig) (rest : List CycleConfig)
    (sample : List ℤ) (s : CycleFlap) : Option CycleFlap :=
  let free : ℤ → Bool := fun host => host ∉ cycle.excludeSet p.publisherIds ∧ host ∉ s.sharedDown
  match cycle.target, p.strategy with
  | some targets, .manual => some { s with pc := .downing idx (targets.filter free) [] rest }
  | _, _ =>
      let available := (hostRange p.hostCount).filter free
      if available = [] then some { s with pc := .next (idx + 1) rest }
      else
        let count := min (cycle.count.getD 2) available.length
        if p.strategy = .random ∧ p.hasRng then
          if count < 0 then some { s with pc := .finished }
          else if IsSample available count sample then
            some { s with pc := .downing idx sample [] rest }
          else none
        else some { s with pc := .downing idx (sliceTo available count) [] rest }

def step (p : CycleParams) (s : CycleFlap) : CycleMove → Option CycleFlap
  | .requestStop => some { s with stop := true }
  | .enter =>
      match s.pc with
      | .next _ [] => some { s with pc := .finished }
      | .next idx (cycle :: rest) =>
          if s.stop then some { s with pc := .finished }
          else if cycle.isSkipped then some { s with pc := .next (idx + 1) rest }
          else some { s with pc := .pausing idx cycle rest }
      | _ => none
  | .await =>
      match s.pc with
      | .pausing idx cycle rest =>
          some { s with pc := if s.stop then .finished else .choosing idx cycle rest }
      | .downing idx (host :: hosts) cycleDown rest =>
          some { s with pc := if s.stop then .finished
                          else .marking idx host hosts cycleDown rest }
      | _ => none
  | .choose sample =>
      match s.pc with
      | .choosing idx cycle rest => chooseHosts p idx cycle rest sample s
      | _ => none
  | .mark =>
      match s.pc with
      | .marking idx host hosts cycleDown rest =>
          if host ∈ s.sharedDown then some { s with pc := .downing idx hosts cycleDown rest }
          else
            let shared := addHost s.sharedDown host
            some { s with sharedDown := shared, state := s.state.update shared (some host),
                          pc := .sending idx host hosts (addHost cycleDown host) rest }
      | _ => none
  | .send result =>
      match s.pc with
      | .sending idx host hosts cycleDown rest =>
          some { s with attempts := s.attempts ++ [⟨host, .down, idx⟩],
                        records := s.records ++ flapRecords "host_down" host result,
                        pc := if result = .raised then .finished
                          else .downing idx hosts cycleDown rest }
      | _ => none
  | .arm =>
      match s.pc with
      | .downing idx [] cycleDown rest =>
          if cycleDown = [] then some { s with pc := .next (idx + 1) rest }
          else some { s with cycleTimers := s.cycleTimers.set idx s.created,
                             created := s.created + 1,
                             timers := s.timers ++ [⟨s.created, idx, cycleDown, .waiting⟩],
                             pc := .next (idx + 1) rest }
      | _ => none
  | .timerStarts i =>
      match s.timers[i]? with
      | some ⟨serial, num, downSet, .waiting⟩ =>
          if s.stop then some { s with timers := s.timers.eraseIdx i }
          else some { s with timers := s.timers.set i ⟨serial, num, downSet, .claiming⟩ }
      | _ => none
  | .timerClaims i =>
      match s.timers[i]? with
      | some ⟨serial, num, downSet, .claiming⟩ =>
          if s.cycleTimers.get? num = some serial then
            some { s with cycleTimers := s.cycleTimers.pop num,
                          timers := s.timers.set i ⟨serial, num, downSet, .raising downSet⟩ }
          else some { s with timers := s.timers.eraseIdx i }
      | _ => none
  | .timerSends i host result =>
      match s.timers[i]? with
      | some ⟨serial, num, downSet, .raising left⟩ =>
          if host ∈ left then
            some { s with attempts := s.attempts ++ [⟨host, .up, num⟩],
                          records := s.records ++ flapRecords "host_up" host result,
                          timers := if result = .raised then s.timers.eraseIdx i
                            else s.timers.set i ⟨serial, num, downSet, .raising (left.erase host)⟩ }
          else none
      | _ => none
  | .timerClears i =>
      match s.timers[i]? with
      | some ⟨_, _, downSet, .raising []⟩ =>
          let shared := s.sharedDown.filter fun h => h ∉ downSet
          some { s with sharedDown := shared, state := s.state.update shared none,
                        timers := s.timers.eraseIdx i }
      | _ => none

end CycleFlap

/-! ## `FlexibleFailureManager` -/

/-- `_start_simple_mode`: the parameters of `periodic_host_flap`, unless it is not started. -/
def simpleParams (simple : CycleConfig) (hostCount : ℕ) (hasRng : Bool) (publisherIds : List ℤ) :
    Option FlapParams :=
  if simple.isSkipped then none
  else some
    { hostNum := hostCount
      exclude := simple.exclude.getD [] ++ publisherIds
      downCount := simple.count.getD 2
      hasRng := hasRng }

end Runtime
end CeforeEmu
