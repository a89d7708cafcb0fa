import CeforeEmu.Core.Events
import CeforeEmu.Runtime.Links

/-!
# The event scheduler

`EventScheduler` of `runtime/scheduler.py`. The thread of `_run` takes the smallest entry off a
heap, waits until it is due, hands its event to the handler of its type and then lets
`_handle_repeat` put the restore event and the next repetition back on the heap. Entries are
compared as the tuples `(at_sec, priority, seq)`, and `seq` is new with every push, so the event
itself is never compared and a sorted list serves as the heap.

One turn of the loop is `step`. The clock decides when a turn happens and nothing else, so it is
left out; what the environment does decide is how the handler ends and whether a stop request
comes first, and that is the `Turn` it is given. `fired` keeps the entries in the order their
handlers were called.
-/

set_option autoImplicit false

namespace CeforeEmu
namespace Runtime

open CeforeEmu.Lib CeforeEmu.Core

/-! ## The heap -/

/-- A heap entry. -/
structure Entry (τ : Type) where
  atSec : τ
  priority : Nat
  seq : Nat
  event : Event τ

variable {τ : Type} [Add τ] [Sub τ] [IntCast τ] [DecidableEq τ] [LT τ] [DecidableLT τ] [LE τ]
  [DecidableLE τ]

/-- Tuple comparison: the first field that differs decides. -/
def Entry.before (a b : Entry τ) : Bool :=
  if a.atSec = b.atSec then
    if a.priority = b.priority then a.seq < b.seq else a.priority < b.priority
  else a.atSec < b.atSec

/-- `heapq.heappush`. -/
def heappush (entry : Entry τ) : List (Entry τ) → List (Entry τ)
  | [] => [entry]
  | e :: heap => if entry.before e then entry :: e :: heap else e :: heappush entry heap

/-! ## Handlers -/

/-- The keys of `_EVENT_HANDLERS`. -/
def eventHandlers : List String :=
  ["link_down", "link_up", "fib_add", "fib_del", "fib_enable", "bw_set", "compute_call", "put",
    "get", "pubsub_sub", "pubsub_pub", "ccninfo", "host_app_restart"]

/-- What the handler of a link event passes on: the state of its type, `ev["nodes"][0]` and
    `ev["nodes"][1]`. The events of a scheduler have been checked, so anything else is not read. -/
def linkEvent? (event : Event τ) : Option (LinkState × ℕ × ℕ) :=
  match event.get? "type", event.get? "nodes" with
  | some (.str "link_down"), some (.list [.int (.ofNat a), .int (.ofNat b)]) => some (.down, a, b)
  | some (.str "link_up"), some (.list [.int (.ofNat a), .int (.ofNat b)]) => some (.up, a, b)
  | _, _ => none

/-- The handlers of `link_down` and `link_up`; `none` when they raise. -/
def handleLinkEvent (meshLinks : List RawLink) (net : Net) (event : Event τ) : Option Net :=
  match linkEvent? event with
  | some (state, a, b) => (setLinkState net meshLinks a b state).toOption
  | none => none

/-- A link event as `_run` fires it: what the handler raises is logged and recorded, and the loop
    goes on. -/
def fireLinkEvent (meshLinks : List RawLink) (net : Net) (event : Event τ) : Net :=
  (handleLinkEvent meshLinks net event).getD net

/-- How a handler ends. -/
inductive Verdict (τ : Type) where
  /-- It returns `True`, `None` or anything else without a meaning. -/
  | returned
  | returnedFalse
  /-- It returns an `EventOutcome`. -/
  | outcome (success : Bool) (outcome : String) (detail : Option (Mapping τ))
      (error : Option String)
  /-- It raises an `Exception`. -/
  | raised (msg : String)
  /-- It raises a `BaseException` that is none. -/
  | fatal (msg : String)

/-- What a turn of the loop meets with. -/
inductive Turn (τ : Type) where
  | stopRequested
  | fire (verdict : Verdict τ)

/-- An event handed to the handler of its type, and how that ended. -/
structure HandlerCall (τ : Type) where
  eventType : String
  entry : Entry τ
  verdict : Verdict τ

/-- A record of the `ResultsSink`, but for the clock. -/
structure EventRecord (τ : Type) where
  eventType : String
  success : Bool
  error : Option String
  scheduledAt : τ
  event : Event τ
  outcome : Option String
  detail : Option (Mapping τ)

/-! ## The scheduler -/

structure Scheduler (τ : Type) where
  heap : List (Entry τ)
  seq : Nat
  hasSink : Bool
  /-- The entries handed to a handler. -/
  fired : List (Entry τ)
  /-- What the sink has received. -/
  records : List (EventRecord τ)
  /-- The loop has been left. -/
  halted : Bool

/-- `_EVENT_PRIORITY.get(event.get("type", ""), 5)`. -/
def eventPriority (event : Event τ) : Nat :=
  match event.get? "type" with
  | some (.str t) => (eventPriorities.get? t).getD 5
  | _ => 5

namespace Scheduler

/-- `_push_event`. -/
def pushEvent (s : Scheduler τ) (atSec : τ) (event : Event τ) : Except PyErr (Scheduler τ) :=
  match unhashable? (event.get? "type") with
  | some err => .error err
  | none => .ok { s with
      heap := heappush ⟨atSec, eventPriority event, s.seq, event⟩ s.heap, seq := s.seq + 1 }

def notOrdered (op : String) (v : Value τ) : PyErr :=
  .typeError ("'" ++ op ++ "' not supported between instances of '" ++ v.typeName ++ "' and 'int'")

/-- The restore half of `_handle_repeat`. -/
def pushRestore (s : Scheduler τ) (event : Event τ) (rep : Mapping τ)
    (scheduledAt : τ) : Except PyErr (Scheduler τ) :=
  match rep.get? "duration" with
  | none => .ok s
  | some .null => .ok s
  | some v =>
      match v.number? with
      | none => .error (notOrdered ">" v)
      | some duration =>
          if ((0 : Int) : τ) < duration then
            match buildRestoreEvent event with
            | .error err => .error err
            | .ok none => .ok s
            | .ok (some restoreEvent) => s.pushEvent (scheduledAt + duration) restoreEvent
          else .ok s

/-- `count - 1`, and whether it is `<= 0`. -/
def remaining : Value τ → Option (Value τ × Bool)
  | .bool b => some (.int ((if b then 1 else 0) - 1), true)
  | .int n => some (.int (n - 1), n - 1 ≤ 0)
  | .num x => some (.num (x - ((1 : Int) : τ)), x - ((1 : Int) : τ) ≤ ((0 : Int) : τ))
  | _ => none

/-- The repetition half of `_handle_repeat`. -/
def pushNext (s : Scheduler τ) (event : Event τ) (rep : Mapping τ)
    (scheduledAt : τ) : Except PyErr (Scheduler τ) :=
  let v := (rep.get? "interval").getD (.int 0)
  match v.number? with
  | none => .error (notOrdered ">" v)
  | some interval =>
      if ((0 : Int) : τ) < interval then
        match rep.get? "count" with
        | none => s.pushEvent (scheduledAt + interval) (event.set "repeat" (.dict rep))
        | some .null => s.pushEvent (scheduledAt + interval) (event.set "repeat" (.dict rep))
        | some count =>
            match remaining count with
            | none => .error (.typeError ("unsupported operand type(s) for -: '"
                ++ count.typeName ++ "' and 'int'"))
            | some (_, true) => .ok s
            | some (left, false) => s.pushEvent (scheduledAt + interval)
                (event.set "repeat" (.dict (rep.set "count" left)))
      else .ok s

/-- `_handle_repeat`. -/
def handleRepeat (s : Scheduler τ) (event : Event τ) (scheduledAt : τ) :
    Except PyErr (Scheduler τ) :=
  match event.get? "repeat" with
  | none => .ok s
  | some v =>
      if v.truthy then
        match v with
        | .dict rep =>
            match s.pushRestore event rep scheduledAt with
            | .error err => .error err
            | .ok s' => s'.pushNext event rep scheduledAt
        | v => .error (.attributeError ("'" ++ v.typeName ++ "' object has no attribute 'get'"))
      else .ok s

/-- `_record_event_outcome`, with what `_run` makes of the verdict. -/
def recordEventOutcome (s : Scheduler τ) (eventType : String) (entry : Entry τ)
    (verdict : Verdict τ) : Scheduler τ :=
  if ¬ s.hasSink ∨ contentEventTypes.contains eventType then s
  else
    let record : Bool → Option String → Option String → Option (Mapping τ) →
        EventRecord τ := fun success error outcome detail =>
      ⟨eventType, success, error, entry.atSec, entry.event.without "repeat", outcome, detail⟩
    { s with records := s.records ++ [match verdict with
      | .returned => record true none none none
      | .returnedFalse => record false (some "handler reported failure") none none
      | .outcome success outcome detail error => record success error (some outcome) detail
      | .raised msg => record false (some msg) none none
      | .fatal msg => record false (some msg) none none] }

/-- One turn of the loop of `_run`. An exception out of it ends the thread. -/
def step (turn : Turn τ) (s : Scheduler τ) : Except PyErr (Scheduler τ) :=
  if s.halted then .ok s
  else
    match s.heap with
    | [] => .ok s
    | entry :: heap =>
        match turn with
        | .stopRequested => .ok { s with halted := true }
        | .fire verdict =>
            match entry.event.get? "type" with
            | some (.str eventType) =>
                if eventHandlers.contains eventType then
                  let s' := { s with heap := heap, fired := s.fired ++ [entry] }
                  match verdict with
                  | .fatal _ => .ok { s' with halted := true }
                  | _ => (s'.recordEventOutcome eventType entry verdict).handleRepeat entry.event
                      entry.atSec
                -- unknown event type
                else .ok { s with heap := heap }
            | _ => .ok { s with heap := heap }

/-- The handler call of a turn. -/
def call (turn : Turn τ) (s : Scheduler τ) : Option (HandlerCall τ) :=
  if s.halted then none
  else
    match s.heap, turn with
    | entry :: _, .fire verdict =>
        match entry.event.get? "type" with
        | some (.str eventType) =>
            if eventHandlers.contains eventType then some ⟨eventType, entry, verdict⟩ else none
        | _ => none
    | _, _ => none

/-- The state in which a turn that called a handler comes to `_handle_repeat`. -/
def answered (c : HandlerCall τ) (s : Scheduler τ) : Scheduler τ :=
  { s with heap := s.heap.tail, fired := s.fired ++ [c.entry] }.recordEventOutcome c.eventType
    c.entry c.verdict

/-- The first `n` turns of `_run`. -/
def loop (turns : ℕ → Turn τ) : ℕ → Scheduler τ → Except PyErr (Scheduler τ)
  | 0, s => .ok s
  | n + 1, s =>
      match loop turns n s with
      | .error err => .error err
      | .ok s' => s'.step (turns n)

/-- The handler calls of the first `n` turns. -/
def calls (turns : ℕ → Turn τ) : ℕ → Scheduler τ → List (HandlerCall τ)
  | 0, _ => []
  | n + 1, s =>
      calls turns n s ++
        match loop turns n s with
        | .ok s' => (s'.call (turns n)).toList
        | .error _ => []

/-- What the sink has received after a turn. An exception out of `_handle_repeat` ends the thread
    after the outcome of the handler has been recorded. -/
def turnRecords (turn : Turn τ) (s : Scheduler τ) : List (EventRecord τ) :=
  match s.step turn, s.call turn with
  | .ok s', _ => s'.records
  | .error _, some c => (s.answered c).records
  | .error _, none => s.records

/-- What the sink has received after the first `n` turns. -/
def loopRecords (turns : ℕ → Turn τ) : ℕ → Scheduler τ → List (EventRecord τ)
  | 0, s => s.records
  | n + 1, s =>
      match loop turns n s with
      | .ok s' => s'.turnRecords (turns n)
      | .error _ => loopRecords turns n s

/-- The pushes of `__init__`. An `at` that is no number is not comparable with the others. -/
def pushAll (s : Scheduler τ) : List (Event τ) → Except PyErr (Scheduler τ)
  | [] => .ok s
  | event :: events =>
      match event.get? "at" with
      | none => .error (.keyError "at")
      | some v =>
          match v.number? with
          | none => .error (notOrdered "<" v)
          | some atSec =>
              match s.pushEvent atSec event with
              | .error err => .error err
              | .ok s' => pushAll s' events

/-- `EventScheduler(net, events, sink=...)`. -/
def new (events : List (Event τ)) (hasSink : Bool) : Except PyErr (Scheduler τ) :=
  pushAll ⟨[], 0, hasSink, [], [], false⟩ events

end Scheduler

end Runtime
end CeforeEmu
