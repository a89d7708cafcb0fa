import CeforeEmu.Lib.Dict
import CeforeEmu.Lib.Run

/-!
# `ContentOperationRunner` — two threads and a map of pending subscribers

`runtime/content_ops.py`. The scheduler enqueues operations (`submit`); one worker thread
takes them off the queue and executes them; the main thread calls `wait_all` and `stop`.
A `pubsub_sub` starts a `cefsubfile` process and leaves an entry in `_pending_subs`; three
places take entries out again and owe each one a `wait` and a `"sub"` record:
the `pubsub_pub` handler (the entries of its URI), `wait_all` and `stop` (all of them).

Both threads are explicit program counters, `Worker` and `Main`; every constructor is a
point at which the other thread may run. A step is one of: a queue operation, a lock
section on `_pending_subs`, a process start, a process wait, a sink record. What the
environment decides — whether a command raises, whether `wait_all`'s deadline has passed —
is part of the step's label.

Not modelled, because nothing below reads them: the argv of the commands, deadlines in
seconds, log and artifact paths, verdict contents. A process is the number `handle`, in
start order; a record remembers which process it is about.
-/

set_option autoImplicit false

namespace CeforeEmu
namespace Runtime

open Lib

/-- The keys of `ContentOperationRunner._HANDLERS`. -/
inductive ContentOp where
  | put
  | get
  | pubsubSub
  | pubsubPub
  | ccninfo
  deriving DecidableEq, Repr

/-- The key itself. -/
def ContentOp.eventType : ContentOp → String
  | .put => "put"
  | .get => "get"
  | .pubsubSub => "pubsub_sub"
  | .pubsubPub => "pubsub_pub"
  | .ccninfo => "ccninfo"

/-- The command a handler runs, which the name of its log begins with (`_log_path`). -/
def ContentOp.command : ContentOp → String
  | .put => "cefputfile"
  | .get => "cefgetfile"
  | .pubsubSub => "cefsubfile"
  | .pubsubPub => "cefpubfile"
  | .ccninfo => "ccninfo"

structure ContentEvent where
  op : ContentOp
  host : Nat
  uri : String
  deriving DecidableEq, Repr

/-- An entry of `_pending_subs`: the operation and its started process. -/
structure SubEntry where
  event : ContentEvent
  handle : Nat
  deriving DecidableEq, Repr

/-- The `op` of a sink record. -/
inductive RecordKind where
  | put
  | get
  | pub
  | sub
  | ccninfo
  deriving DecidableEq, Repr

structure SinkRecord where
  kind : RecordKind
  event : ContentEvent
  /-- The `cefsubfile` process a `sub` record is about. -/
  process : Option Nat
  deriving DecidableEq, Repr

/-- A queue item: an operation, or the `None` that ends the worker. -/
inductive QueueItem where
  | op (event : ContentEvent)
  | stop
  deriving DecidableEq, Repr

/-- Where the worker thread is. -/
inductive Worker where
  /-- At the top of `_run`'s loop. -/
  | idle
  /-- `queue.get` returned an operation; `_cancel_event` not yet looked at. -/
  | taken (event : ContentEvent)
  /-- In `_do_put`, `_do_get` or `_do_ccninfo`. -/
  | running (event : ContentEvent)
  /-- In `_do_pubsub_sub`, before the process start. -/
  | subStarting (event : ContentEvent)
  /-- In `_do_pubsub_sub`, the process started and not yet in `_pending_subs`. -/
  | subStarted (entry : SubEntry)
  /-- In `_do_pubsub_pub`'s startup grace. -/
  | pubGrace (event : ContentEvent)
  /-- In `_do_pubsub_pub`, before the lock section that takes the URI's entries. -/
  | pubTaking (event : ContentEvent)
  /-- The entries are taken out of the map; the publisher command is not started yet. -/
  | pubStarting (event : ContentEvent) (entries : List SubEntry)
  /-- The publisher is started and not yet waited for. -/
  | pubWaiting (event : ContentEvent) (entries : List SubEntry)
  /-- `_do_pubsub_pub`'s loop over the taken entries. -/
  | subsLoop (entries : List SubEntry)
  /-- In that loop, one entry waited for and not yet recorded. -/
  | subsRecord (entry : SubEntry) (rest : List SubEntry)
  /-- The worker left its loop. -/
  | exited
  deriving DecidableEq, Repr

/-- What the main thread does after discarding queued items. -/
inductive AfterDiscard where
  | waitAll
  | stop
  deriving DecidableEq, Repr

/-- Where the main thread is. -/
inductive Main where
  /-- Outside `wait_all` and `stop`. -/
  | idle
  /-- In `wait_all`, waiting for `unfinished_tasks` to reach 0. -/
  | waitTasks
  /-- In `_discard_queued_items`. -/
  | discarding (next : AfterDiscard)
  /-- In `stop`, before `queue.put(None)`. -/
  | putNone
  /-- In `stop`, joining the worker. -/
  | joining
  /-- Before the lock section that empties `_pending_subs`. -/
  | collecting (next : AfterDiscard)
  /-- The loop over the leftovers. -/
  | leftovers (next : AfterDiscard) (entries : List SubEntry)
  /-- In that loop, one entry waited for and not yet recorded. -/
  | leftoverRecord (next : AfterDiscard) (entry : SubEntry) (rest : List SubEntry)
  /-- `stop` returned. -/
  | stopped
  deriving DecidableEq, Repr

structure ContentState where
  queue : List QueueItem
  /-- `queue.unfinished_tasks`. -/
  unfinished : Nat
  /-- `_pending_subs`. -/
  pending : Dict String (List SubEntry)
  cancelled : Bool
  worker : Worker
  main : Main
  /-- `cefsubfile` processes started so far; the next one's handle. -/
  started : Nat
  /-- The handles `runner.wait` was called on, in order. -/
  waited : List Nat
  sink : List SinkRecord
  deriving DecidableEq, Repr

def ContentState.init : ContentState where
  queue := []
  unfinished := 0
  pending := []
  cancelled := false
  worker := .idle
  main := .idle
  started := 0
  waited := []
  sink := []

/-- `record_sub_result(item, result)`. -/
def recordSubResult (s : ContentState) (entry : SubEntry) : ContentState :=
  { s with sink := s.sink ++ [⟨.sub, entry.event, some entry.handle⟩] }

/-- `self._runner.wait(item["handle"], ...)`. -/
def waitSub (s : ContentState) (entry : SubEntry) : ContentState :=
  { s with waited := s.waited ++ [entry.handle] }

/-- The end of an iteration of `_run`: `task_done` in the `finally`, back to the top. -/
def taskDone (s : ContentState) : ContentState :=
  { s with unfinished := s.unfinished - 1, worker := .idle }

/-- The kind `_do_put`, `_do_get` and `_do_ccninfo` record under. -/
def ContentOp.recordKind : ContentOp → RecordKind
  | .put => .put
  | .get => .get
  | .pubsubSub => .sub
  | .pubsubPub => .pub
  | .ccninfo => .ccninfo

/-- `_dispatch`: the first point of each handler. A positive startup grace makes the
    publisher wait before anything else. -/
def dispatch (startupGrace : Nat) (event : ContentEvent) : Worker :=
  match event.op with
  | .put | .get | .ccninfo => .running event
  | .pubsubSub => .subStarting event
  | .pubsubPub => if 0 < startupGrace then .pubGrace event else .pubTaking event

/-- One step of the worker. `raised` is the environment's answer at the two points where
    a command may raise: executing a put, get or ccninfo, and starting a publisher. An
    exception leaves the handler and `_run` logs it, so whatever the handler held in
    local variables is gone. -/
def workerStep (startupGrace : Nat) (s : ContentState) (raised : Bool) : Option ContentState :=
  match s.worker with
  | .idle =>
      match s.queue with
      | [] => none
      | .stop :: q => some { s with queue := q, unfinished := s.unfinished - 1, worker := .exited }
      | .op event :: q => some { s with queue := q, worker := .taken event }
  | .taken event =>
      if s.cancelled then some (taskDone s)
      else some { s with worker := dispatch startupGrace event }
  | .running event =>
      -- ccninfo normalizes an exception to a failure record; put and get lose theirs
      if raised ∧ event.op ≠ .ccninfo then some (taskDone s)
      else some (taskDone { s with sink := s.sink ++ [⟨event.op.recordKind, event, none⟩] })
  | .subStarting event =>
      some { s with started := s.started + 1, worker := .subStarted ⟨event, s.started⟩ }
  | .subStarted entry =>
      some (taskDone { s with pending := s.pending.appendTo entry.event.uri entry })
  | .pubGrace event =>
      if s.cancelled then some (taskDone s) else some { s with worker := .pubTaking event }
  | .pubTaking event =>
      some { s with pending := s.pending.pop event.uri
                    worker := .pubStarting event ((s.pending.get? event.uri).getD []) }
  | .pubStarting event entries =>
      if raised then some (taskDone s) else some { s with worker := .pubWaiting event entries }
  | .pubWaiting event entries =>
      some { s with sink := s.sink ++ [⟨.pub, event, none⟩], worker := .subsLoop entries }
  | .subsLoop [] => some (taskDone s)
  | .subsLoop (entry :: rest) => some { waitSub s entry with worker := .subsRecord entry rest }
  | .subsRecord entry rest => some { recordSubResult s entry with worker := .subsLoop rest }
  | .exited => none

/-- One step of the main thread inside `wait_all` or `stop`. `timeout` is whether
    `wait_all`'s deadline has passed. -/
def mainStep (s : ContentState) (timeout : Bool) : Option ContentState :=
  match s.main with
  | .idle | .stopped => none
  | .waitTasks =>
      if s.unfinished = 0 then some { s with main := .collecting .waitAll }
      else if timeout then some { s with cancelled := true, main := .discarding .waitAll }
      else none
  | .discarding next =>
      let afterwards : Main := match next with
        | .waitAll => .collecting .waitAll
        | .stop => .putNone
      match s.queue with
      | [] => some { s with main := afterwards }
      | .stop :: q => some { s with queue := q, unfinished := s.unfinished - 1, main := afterwards }
      | .op _ :: q => some { s with queue := q, unfinished := s.unfinished - 1 }
  | .putNone =>
      some { s with queue := s.queue ++ [.stop], unfinished := s.unfinished + 1, main := .joining }
  | .joining =>
      match s.worker with
      | .exited => some { s with main := .collecting .stop }
      | _ => none
  | .collecting next =>
      some { s with pending := [], main := .leftovers next s.pending.values }
  | .leftovers .waitAll [] => some { s with main := .idle }
  | .leftovers .stop [] => some { s with main := .stopped }
  | .leftovers next (entry :: rest) =>
      some { waitSub s entry with main := .leftoverRecord next entry rest }
  | .leftoverRecord next entry rest =>
      some { recordSubResult s entry with main := .leftovers next rest }

/-- One step of the system, by whoever moves. -/
inductive ContentAct where
  | submit (event : ContentEvent)
  | worker (raised : Bool)
  | main (timeout : Bool)
  | callWaitAll
  | callStop
  deriving DecidableEq, Repr

def contentStep (startupGrace : Nat) (s : ContentState) : ContentAct → Option ContentState
  | .submit event =>
      some { s with queue := s.queue ++ [.op event], unfinished := s.unfinished + 1 }
  | .worker raised => workerStep startupGrace s raised
  | .main timeout => mainStep s timeout
  | .callWaitAll =>
      match s.main with
      | .idle => some { s with main := .waitTasks }
      | _ => none
  | .callStop =>
      match s.main with
      | .idle => some { s with cancelled := true, main := .discarding .stop }
      | _ => none

end Runtime
end CeforeEmu
