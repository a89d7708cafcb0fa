import CeforeEmu.Proof.Subscribers

/-!
# The queue between the scheduler and the worker

`Subscribers.lean` follows the processes; this file follows the operations. Three threads touch the
queue: whoever submits, the worker, and the main thread, which in `_discard_queued_items` takes
operations off the same end the worker takes them off. `_cancel_event` keeps the two apart: where
the main thread discards it is set, and where it is set the worker dispatches nothing any more.

So the worker's log is what was submitted, in that order, without gaps, up to the cancellation, and
nothing after it (`content_ops_in_order`). `unfinished_tasks` counts what is on the queue or in the
worker's hands, so `task_done` is never called too often and `wait_all` is not early.
-/

set_option autoImplicit false

namespace CeforeEmu
namespace Proof

open CeforeEmu.Lib CeforeEmu.Runtime

/-! ## What a run has done -/

/-- The operation of a queue item. -/
def QueueItem.op? : QueueItem → Option ContentEvent
  | .op event => some event
  | .stop => none

def queuedOps (queue : List QueueItem) : List ContentEvent := queue.filterMap QueueItem.op?

/-- The operation that is off the queue and not dispatched yet. -/
def inHand : Worker → List ContentEvent
  | .taken event => [event]
  | _ => []

/-- Whether the worker is between `queue.get` and `task_done`. -/
def busy : Worker → ℕ
  | .idle | .exited => 0
  | _ => 1

def submittedBy : ContentAct → List ContentEvent
  | .submit event => [event]
  | _ => []

/-- The operations submitted in a run. -/
def submitted (acts : List ContentAct) : List ContentEvent := acts.flatMap submittedBy

/-- The worker hands an operation to its handler unless `_cancel_event` is set. -/
def dispatchedBy (s : ContentState) : ContentAct → List ContentEvent
  | .worker _ => if s.cancelled then [] else inHand s.worker
  | _ => []

/-- The operations handed to their handlers in a run. -/
def dispatched (g : ℕ) (acts : List ContentAct) : List ContentEvent :=
  collect (contentStep g) dispatchedBy .init acts

@[simp] theorem queuedOps_nil : queuedOps [] = [] := rfl

@[simp] theorem queuedOps_op (event : ContentEvent) (queue : List QueueItem) :
    queuedOps (.op event :: queue) = event :: queuedOps queue := rfl

@[simp] theorem queuedOps_stop (queue : List QueueItem) :
    queuedOps (.stop :: queue) = queuedOps queue := rfl

@[simp] theorem queuedOps_append (queue queue' : List QueueItem) :
    queuedOps (queue ++ queue') = queuedOps queue ++ queuedOps queue' := by
  simp [queuedOps]

@[simp] theorem inHand_dispatch (g : ℕ) (event : ContentEvent) : inHand (dispatch g event) = [] := by
  unfold dispatch
  split
  · rfl
  · rfl
  · rfl
  · rfl
  · split <;> rfl

@[simp] theorem busy_dispatch (g : ℕ) (event : ContentEvent) : busy (dispatch g event) = 1 := by
  unfold dispatch
  split
  · rfl
  · rfl
  · rfl
  · rfl
  · split <;> rfl

theorem submitted_snoc (acts : List ContentAct) (a : ContentAct) :
    submitted (acts ++ [a]) = submitted acts ++ submittedBy a := by
  simp [submitted]

theorem dispatched_snoc {g : ℕ} {acts : List ContentAct} {s : ContentState}
    (h : run (contentStep g) .init acts = some s) (a : ContentAct) :
    dispatched g (acts ++ [a]) = dispatched g acts ++ dispatchedBy s a :=
  collect_snoc h a

/-! ## What one step does to the queue -/

/-- The main thread is in `stop`, or past it. -/
def Stopping : Main → Prop
  | .discarding .stop | .putNone | .joining | .collecting .stop | .leftovers .stop _
  | .leftoverRecord .stop _ _ | .stopped => True
  | _ => False

/-- The main thread is taking operations off the queue. -/
def Discarding : Main → Prop
  | .discarding _ => True
  | _ => False

/-- What a step of the worker can do to the queue and to the count. -/
inductive WorkerMove (s s' : ContentState) (disp : List ContentEvent) : Prop where
  | take (event : ContentEvent) (queue : List QueueItem) (hw : s.worker = .idle)
      (hq : s.queue = .op event :: queue) (hq' : s'.queue = queue) (hw' : s'.worker = .taken event)
      (hu : s'.unfinished = s.unfinished) (hd : disp = [])
  | exit (queue : List QueueItem) (hw : s.worker = .idle) (hq : s.queue = .stop :: queue)
      (hq' : s'.queue = queue) (hw' : s'.worker = .exited)
      (hu : s'.unfinished = s.unfinished - 1) (hd : disp = [])
  /-- The operation in hand is dispatched, or with `_cancel_event` set it is not. -/
  | look (event : ContentEvent) (hw : s.worker = .taken event) (hq : s'.queue = s.queue)
      (hhand : inHand s'.worker = [])
      (hu : s'.unfinished + busy s.worker = s.unfinished + busy s'.worker ∨
        s'.unfinished = s.unfinished - 1 ∧ busy s'.worker = 0)
      (hd : disp = if s.cancelled then [] else [event])
  /-- A handler goes on, or it ends and `task_done` is called. -/
  | work (hw : busy s.worker = 1) (hhand : inHand s.worker = []) (hq : s'.queue = s.queue)
      (hhand' : inHand s'.worker = [])
      (hu : s'.unfinished = s.unfinished ∧ busy s'.worker = 1 ∨
        s'.unfinished = s.unfinished - 1 ∧ busy s'.worker = 0)
      (hd : disp = [])

theorem workerMove {g : ℕ} {s s' : ContentState} {raised : Bool}
    (h : workerStep g s raised = some s') :
    WorkerMove s s' (dispatchedBy s (.worker raised)) ∧ s'.cancelled = s.cancelled ∧
      s'.main = s.main := by
  unfold dispatchedBy
  cases hw : s.worker with
  | idle =>
    simp only [workerStep, hw] at h
    split at h <;> simp only [Option.some.injEq, reduceCtorEq] at h
    all_goals rename_i hq; subst h
    · exact ⟨.exit _ hw hq rfl rfl rfl (by simp [inHand]), rfl, rfl⟩
    · exact ⟨.take _ _ hw hq rfl rfl rfl (by simp [inHand]), rfl, rfl⟩
  | taken event =>
    simp only [workerStep, hw] at h
    split at h <;> simp only [Option.some.injEq] at h <;> subst h
    · exact ⟨.look event hw rfl rfl (.inr ⟨rfl, rfl⟩) (by simp [*]), rfl, rfl⟩
    · refine ⟨.look event hw rfl (inHand_dispatch g event) (.inl ?_) (by simp [*, inHand]), rfl, rfl⟩
      rw [busy_dispatch, hw]
      rfl
  | subsLoop entries =>
    cases entries <;> simp only [workerStep, hw, Option.some.injEq] at h <;> subst h
    all_goals
      refine ⟨.work ?_ ?_ ?_ ?_ ?_ ?_, rfl, rfl⟩ <;> simp [hw, busy, inHand, taskDone, waitSub]
  | exited => simp [workerStep, hw] at h
  | _ =>
    simp only [workerStep, hw] at h
    try split at h
    all_goals
      simp only [Option.some.injEq] at h
      subst h
      refine ⟨.work ?_ ?_ ?_ ?_ ?_ ?_, rfl, rfl⟩ <;>
        simp [hw, busy, inHand, taskDone, recordSubResult]

/-- What a step of the main thread can do to them. -/
inductive MainMove (s s' : ContentState) : Prop where
  | discard (item : QueueItem) (queue : List QueueItem) (hm : Discarding s.main)
      (hq : s.queue = item :: queue) (hq' : s'.queue = queue)
      (hu : s'.unfinished = s.unfinished - 1)
  | put (hm : s.main = .putNone) (hq' : s'.queue = s.queue ++ [.stop])
      (hu : s'.unfinished = s.unfinished + 1)
  | other (hq' : s'.queue = s.queue) (hu : s'.unfinished = s.unfinished)

/-- Discarding is cancelling, and so is stopping. -/
def Cancels (m : Main) : Prop := Discarding m ∨ Stopping m

theorem mainMove {s s' : ContentState} {timeout : Bool} (h : mainStep s timeout = some s') :
    MainMove s s' ∧ s'.worker = s.worker ∧ (s.cancelled = true → s'.cancelled = true) ∧
      (Cancels s'.main → Cancels s.main ∨ s'.cancelled = true) := by
  cases hm : s.main with
  | idle => simp [mainStep, hm] at h
  | stopped => simp [mainStep, hm] at h
  | waitTasks =>
    simp only [mainStep, hm] at h
    split at h
    · simp only [Option.some.injEq] at h
      subst h
      exact ⟨.other rfl rfl, rfl, id, fun hc => absurd hc (by simp [Cancels, Discarding, Stopping])⟩
    · split at h <;> simp only [Option.some.injEq, reduceCtorEq] at h
      subst h
      exact ⟨.other rfl rfl, rfl, fun _ => rfl, fun _ => .inr rfl⟩
  | discarding next =>
    have hd : Discarding s.main := by simp [hm, Discarding]
    have hc : Cancels (.discarding next) := .inl trivial
    simp only [mainStep, hm] at h
    split at h <;> simp only [Option.some.injEq] at h <;> subst h
    · exact ⟨.other rfl rfl, rfl, id, fun _ => .inl hc⟩
    · rename_i hq
      exact ⟨.discard _ _ hd hq rfl rfl, rfl, id, fun _ => .inl hc⟩
    · rename_i hq
      exact ⟨.discard _ _ hd hq rfl rfl, rfl, id, fun _ => .inl hc⟩
  | putNone =>
    simp only [mainStep, hm, Option.some.injEq] at h
    subst h
    exact ⟨.put hm rfl rfl, rfl, id, fun _ => .inl (.inr trivial)⟩
  | joining =>
    simp only [mainStep, hm] at h
    split at h <;> simp only [Option.some.injEq, reduceCtorEq] at h
    subst h
    exact ⟨.other rfl rfl, rfl, id, fun _ => .inl (.inr trivial)⟩
  | collecting next =>
    simp only [mainStep, hm, Option.some.injEq] at h
    subst h
    refine ⟨.other rfl rfl, rfl, id, fun hc => .inl ?_⟩
    cases next <;> simp_all [Cancels, Discarding, Stopping]
  | leftovers next entries =>
    cases entries <;> cases next <;> simp only [mainStep, hm, Option.some.injEq] at h <;> subst h
    all_goals
      refine ⟨.other rfl rfl, rfl, id, fun hc => .inl ?_⟩
      simp_all [Cancels, Discarding, Stopping]
  | leftoverRecord next entry rest =>
    simp only [mainStep, hm, Option.some.injEq] at h
    subst h
    refine ⟨.other rfl rfl, rfl, id, fun hc => .inl ?_⟩
    cases next <;> simp_all [Cancels, Discarding, Stopping]

/-! ## The accounts -/

/-- `sub` has been submitted and `disp` dispatched. -/
structure QueueBooks (s : ContentState) (sub disp : List ContentEvent) : Prop where
  unfinished : s.unfinished = s.queue.length + busy s.worker
  order : s.cancelled = false → sub = disp ++ inHand s.worker ++ queuedOps s.queue
  sublist : disp.Sublist sub
  cancels : Cancels s.main → s.cancelled = true

theorem queueBooks_init : QueueBooks .init [] [] where
  unfinished := rfl
  order := fun _ => rfl
  sublist := .slnil
  cancels := fun h => absurd h (by simp [ContentState.init, Cancels, Discarding, Stopping])

theorem QueueBooks.worker {g : ℕ} {s s' : ContentState} {sub disp : List ContentEvent} {raised : Bool}
    (hs : QueueBooks s sub disp) (h : workerStep g s raised = some s') :
    QueueBooks s' sub (disp ++ dispatchedBy s (.worker raised)) := by
  obtain ⟨hmove, hcancelled, hmain⟩ := workerMove h
  have hu := hs.unfinished
  have hord := hs.order
  have hcancels : Cancels s'.main → s'.cancelled = true := by
    rw [hcancelled, hmain]
    exact hs.cancels
  cases hmove with
  | take event queue hw hq hq' hw' hu' hd =>
    rw [hd, List.append_nil]
    refine ⟨?_, fun hc => ?_, hs.sublist, hcancels⟩
    · simp only [hq, hw, busy, List.length_cons] at hu
      simp only [hq', hw', hu', hu, busy, Nat.add_zero]
    · rw [hord (hcancelled ▸ hc), hq, hq', hw, hw']
      simp [inHand]
  | exit queue hw hq hq' hw' hu' hd =>
    rw [hd, List.append_nil]
    refine ⟨?_, fun hc => ?_, hs.sublist, hcancels⟩
    · simp only [hq, hw, busy, List.length_cons] at hu
      simp only [hq', hw', hu', hu, busy, Nat.add_zero, Nat.add_sub_cancel]
    · rw [hord (hcancelled ▸ hc), hq, hq', hw, hw']
      simp [inHand]
  | look event hw hq hhand hu' hd =>
    rw [hd]
    refine ⟨?_, fun hc => ?_, ?_, hcancels⟩
    · have hbusy : busy s.worker = 1 := by rw [hw]; rfl
      rw [hq]
      omega
    · rw [hcancelled] at hc
      rw [hord hc, hq, hw, hhand, hc]
      simp [inHand]
    · cases hc : s.cancelled with
      | true => simpa using hs.sublist
      | false =>
        rw [hord hc, hw]
        simp [inHand]
  | work hw hhand hq hhand' hu' hd =>
    rw [hd, List.append_nil]
    refine ⟨?_, fun hc => ?_, hs.sublist, hcancels⟩
    · rw [hq]
      omega
    · rw [hord (hcancelled ▸ hc), hq, hhand, hhand']

theorem QueueBooks.main {s s' : ContentState} {sub disp : List ContentEvent} {timeout : Bool}
    (hs : QueueBooks s sub disp) (h : mainStep s timeout = some s') : QueueBooks s' sub disp := by
  obtain ⟨hmove, hworker, hkeep, hcancel⟩ := mainMove h
  have hu := hs.unfinished
  have hcancels : Cancels s'.main → s'.cancelled = true := fun hc =>
    (hcancel hc).elim (fun hm => hkeep (hs.cancels hm)) id
  have hfalse : s'.cancelled = false → s.cancelled = false := by
    intro hc
    by_contra hne
    rw [hkeep (Bool.not_eq_false _ ▸ hne)] at hc
    cases hc
  cases hmove with
  | discard item queue hm hq hq' hu' =>
    refine ⟨?_, fun hc => ?_, hs.sublist, hcancels⟩
    · rw [hq, List.length_cons] at hu
      rw [hq', hworker, hu', hu]
      omega
    · have htrue := hs.cancels (.inl hm)
      rw [hfalse hc] at htrue
      cases htrue
  | put hm hq' hu' =>
    refine ⟨?_, fun hc => ?_, hs.sublist, hcancels⟩
    · rw [hq', hworker, hu', hu, List.length_append, List.length_singleton]
      omega
    · rw [hs.order (hfalse hc), hq', hworker]
      simp
  | other hq' hu' =>
    refine ⟨?_, fun hc => ?_, hs.sublist, hcancels⟩
    · rw [hq', hworker, hu', hu]
    · rw [hs.order (hfalse hc), hq', hworker]

/-- **Every step keeps the accounts.** -/
theorem QueueBooks.step {g : ℕ} {s s' : ContentState} {sub disp : List ContentEvent} {a : ContentAct}
    (hs : QueueBooks s sub disp) (h : contentStep g s a = some s') :
    QueueBooks s' (sub ++ submittedBy a) (disp ++ dispatchedBy s a) := by
  cases a with
  | submit event =>
    simp only [contentStep, Option.some.injEq] at h
    subst h
    refine ⟨?_, fun hc => ?_, ?_, hs.cancels⟩
    · simp only [hs.unfinished, List.length_append, List.length_singleton]
      omega
    · rw [hs.order hc]
      simp [submittedBy, dispatchedBy]
    · simpa [dispatchedBy] using hs.sublist.trans (List.sublist_append_left sub _)
  | worker raised =>
    simp only [submittedBy, List.append_nil]
    exact hs.worker h
  | main timeout =>
    simp only [submittedBy, dispatchedBy, List.append_nil]
    exact hs.main h
  | callWaitAll =>
    obtain ⟨hm, rfl⟩ := callWaitAll_spec h
    simp only [submittedBy, dispatchedBy, List.append_nil]
    exact ⟨hs.unfinished, hs.order, hs.sublist,
      fun hc => absurd hc (by simp [Cancels, Discarding, Stopping])⟩
  | callStop =>
    obtain ⟨hm, rfl⟩ := callStop_spec h
    simp only [submittedBy, dispatchedBy, List.append_nil]
    exact ⟨hs.unfinished, fun hc => absurd hc (by simp), hs.sublist, fun _ => rfl⟩

theorem queueBooks_of_run {g : ℕ} {acts : List ContentAct} {s : ContentState}
    (h : run (contentStep g) .init acts = some s) :
    QueueBooks s (submitted acts) (dispatched g acts) := by
  refine run_inv_history (I := fun acts s => QueueBooks s (submitted acts) (dispatched g acts))
    queueBooks_init (fun acts s a s' hrun hs hstep => ?_) h
  rw [submitted_snoc, dispatched_snoc hrun]
  exact hs.step hstep

theorem collect_dispatchedBy_nil {g : ℕ} {s t : ContentState} {acts : List ContentAct}
    (hs : s.cancelled = true) (h : run (contentStep g) s acts = some t) :
    collect (contentStep g) dispatchedBy s acts = [] := by
  induction acts generalizing s with
  | nil => rfl
  | cons a acts ih =>
    obtain ⟨s', hstep, hrest⟩ := run_cons_inv h
    have hs' : s'.cancelled = true := by
      cases a with
      | submit event =>
        simp only [contentStep, Option.some.injEq] at hstep
        exact hstep ▸ hs
      | worker raised => exact (workerMove hstep).2.1.trans hs
      | main timeout => exact (mainMove hstep).2.2.1 hs
      | callWaitAll =>
        obtain ⟨-, rfl⟩ := callWaitAll_spec hstep
        exact hs
      | callStop =>
        obtain ⟨-, rfl⟩ := callStop_spec hstep
        rfl
    have hnone : dispatchedBy s a = [] := by
      cases a <;> simp [dispatchedBy, hs]
    simp only [collect, hnone, hstep, List.nil_append]
    exact ih hs' hrest

/-- A subscription dispatched, a publication still on the queue, and then `stop`. -/
def subPubStop : List ContentAct :=
  [.submit ⟨.pubsubSub, 1, "ccnx:/a"⟩, .submit ⟨.pubsubPub, 2, "ccnx:/a"⟩, .worker false,
    .worker false, .callStop, .worker false, .worker false]

/-- A step of one of the two threads. -/
def isStep : ContentAct → Bool
  | .worker _ | .main _ => true
  | .submit _ | .callWaitAll | .callStop => false

def queueSteps : List QueueItem → ℕ
  | [] => 0
  | .op _ :: queue => 2 + queueSteps queue
  | .stop :: queue => 1 + queueSteps queue

/-- What the worker has before it with `_cancel_event` set. -/
def workerSteps : Worker → ℕ
  | .idle | .exited => 0
  | .taken _ | .running _ | .pubGrace _ => 1
  | .subStarting _ | .pubTaking _ => 4
  | .subStarted _ => 3
  | .pubStarting _ entries => 3 + 2 * entries.length
  | .pubWaiting _ entries => 2 + 2 * entries.length
  | .subsLoop entries => 1 + 2 * entries.length
  | .subsRecord _ rest => 2 + 2 * rest.length

/-- What the main thread has before it in `stop`. -/
def mainSteps : Main → ℕ
  | .discarding _ => 6
  | .putNone => 5
  | .joining => 3
  | .collecting _ => 2
  | .leftovers _ entries => 1 + 2 * entries.length
  | .leftoverRecord _ _ rest => 2 + 2 * rest.length
  | .idle | .waitTasks | .stopped => 0

def shutdownSteps (s : ContentState) : ℕ :=
  queueSteps s.queue + 2 * s.pending.values.length + workerSteps s.worker + mainSteps s.main

theorem queueSteps_append (queue queue' : List QueueItem) :
    queueSteps (queue ++ queue') = queueSteps queue + queueSteps queue' := by
  induction queue with
  | nil => simp [queueSteps]
  | cons item queue ih => cases item <;> simp [queueSteps, ih, Nat.add_assoc]

theorem length_values_appendTo (d : Dict String (List SubEntry)) (uri : String) (e : SubEntry) :
    (d.appendTo uri e).values.length = d.values.length + 1 := by
  rw [(Dict.values_appendTo d uri e).length_eq, List.length_append, List.length_singleton]

theorem length_values_pop (d : Dict String (List SubEntry)) (uri : String) :
    d.values.length = ((d.get? uri).getD []).length + (d.pop uri).values.length := by
  rw [(Dict.values_pop d uri).length_eq, List.length_append]

theorem shutdownSteps_worker {g : ℕ} {s s' : ContentState} {raised : Bool}
    (hc : s.cancelled = true) (h : workerStep g s raised = some s') :
    shutdownSteps s' + 1 ≤ shutdownSteps s := by
  cases hw : s.worker with
  | idle =>
    simp only [workerStep, hw] at h
    split at h <;> simp only [Option.some.injEq, reduceCtorEq] at h
    all_goals
      rename_i hq
      subst h
      simp only [shutdownSteps, hw, hq, queueSteps, workerSteps]
      omega
  | taken event =>
    simp only [workerStep, hw, hc, if_true, Option.some.injEq] at h
    subst h
    simp only [shutdownSteps, hw, taskDone, workerSteps]
    omega
  | pubGrace event =>
    simp only [workerStep, hw, hc, if_true, Option.some.injEq] at h
    subst h
    simp only [shutdownSteps, hw, taskDone, workerSteps]
    omega
  | subStarted entry =>
    simp only [workerStep, hw, Option.some.injEq] at h
    subst h
    -- the entry is now one of those that `stop` waits for
    simp only [shutdownSteps, hw, taskDone, workerSteps, length_values_appendTo]
    omega
  | pubTaking event =>
    simp only [workerStep, hw, Option.some.injEq] at h
    subst h
    -- the entries go from the map into the hands of the worker
    have hlen := length_values_pop s.pending event.uri
    simp only [shutdownSteps, hw, workerSteps]
    omega
  | subsLoop entries =>
    cases entries <;> simp only [workerStep, hw, Option.some.injEq] at h <;> subst h
    all_goals
      simp only [shutdownSteps, hw, taskDone, waitSub, workerSteps, List.length_nil, List.length_cons]
      omega
  | exited => simp [workerStep, hw] at h
  | _ =>
    simp only [workerStep, hw] at h
    try split at h
    all_goals
      simp only [Option.some.injEq] at h
      subst h
      simp only [shutdownSteps, hw, taskDone, recordSubResult, workerSteps]
      omega

theorem shutdownSteps_main {s s' : ContentState} {timeout : Bool} (hm : Stopping s.main)
    (h : mainStep s timeout = some s') :
    shutdownSteps s' + 1 ≤ shutdownSteps s ∧ Stopping s'.main := by
  cases hmain : s.main with
  | discarding next =>
    cases next with
    | waitAll => simp [hmain, Stopping] at hm
    | stop =>
      simp only [mainStep, hmain] at h
      split at h <;> simp only [Option.some.injEq] at h <;> subst h
      · refine ⟨?_, trivial⟩
        simp only [shutdownSteps, hmain, mainSteps]
        omega
      · rename_i hq
        refine ⟨?_, trivial⟩
        simp only [shutdownSteps, hmain, hq, mainSteps, queueSteps]
        omega
      · rename_i hq
        refine ⟨?_, by simp [Stopping]⟩
        simp only [shutdownSteps, hmain, hq, mainSteps, queueSteps]
        omega
  | putNone =>
    simp only [mainStep, hmain, Option.some.injEq] at h
    subst h
    refine ⟨?_, trivial⟩
    simp only [shutdownSteps, hmain, mainSteps, queueSteps_append, queueSteps]
    omega
  | joining =>
    simp only [mainStep, hmain] at h
    split at h <;> simp only [Option.some.injEq, reduceCtorEq] at h
    subst h
    refine ⟨?_, trivial⟩
    simp only [shutdownSteps, hmain, mainSteps]
    omega
  | collecting next =>
    cases next with
    | waitAll => simp [hmain, Stopping] at hm
    | stop =>
      simp only [mainStep, hmain, Option.some.injEq] at h
      subst h
      refine ⟨?_, trivial⟩
      simp only [shutdownSteps, hmain, mainSteps, Dict.values, List.flatMap_nil, List.length_nil]
      omega
  | leftovers next entries =>
    cases next with
    | waitAll => simp [hmain, Stopping] at hm
    | stop =>
      cases entries <;> simp only [mainStep, hmain, Option.some.injEq] at h <;> subst h
      all_goals
        refine ⟨?_, trivial⟩
        simp only [shutdownSteps, hmain, waitSub, mainSteps, List.length_nil, List.length_cons]
        omega
  | leftoverRecord next entry rest =>
    cases next with
    | waitAll => simp [hmain, Stopping] at hm
    | stop =>
      simp only [mainStep, hmain, Option.some.injEq] at h
      subst h
      refine ⟨?_, trivial⟩
      simp only [shutdownSteps, hmain, recordSubResult, mainSteps]
      omega
  | waitTasks => simp [hmain, Stopping] at hm
  | _ => simp [mainStep, hmain] at h

/-- The main thread has seen the worker leave its loop. -/
def PastJoin : Main → Prop
  | .collecting .stop | .leftovers .stop _ | .leftoverRecord .stop _ _ | .stopped => True
  | _ => False

/-- The `None` that ends the worker is on the queue until it has. -/
structure Joins (s : ContentState) : Prop where
  joining : s.main = .joining → s.worker = .exited ∨ QueueItem.stop ∈ s.queue
  joined : PastJoin s.main → s.worker = .exited

theorem Joins.worker {g : ℕ} {s s' : ContentState} {raised : Bool} (hs : Joins s)
    (h : workerStep g s raised = some s') : Joins s' := by
  obtain ⟨hmove, -, hmain⟩ := workerMove h
  have hnot : s.worker ≠ .exited := by
    intro hw
    simp [workerStep, hw] at h
  refine ⟨fun hm => ?_, fun hj => absurd (hs.joined (hmain ▸ hj)) hnot⟩
  have hstop := (hs.joining (hmain ▸ hm)).resolve_left hnot
  cases hmove with
  | take event queue _ hq hq' =>
    -- an operation was taken, so the `None` is behind it
    rw [hq] at hstop
    rw [hq']
    exact .inr (by simpa using hstop)
  | exit _ _ _ _ hw' => exact .inl hw'
  | look _ _ hq => exact .inr (hq ▸ hstop)
  | work _ _ hq => exact .inr (hq ▸ hstop)

/-- The main thread comes to the join from putting the `None`, and past it with the worker gone. -/
theorem main_joins {s s' : ContentState} {timeout : Bool} (h : mainStep s timeout = some s') :
    (s'.main = .joining → QueueItem.stop ∈ s'.queue) ∧
      (PastJoin s'.main → PastJoin s.main ∨ s.worker = .exited) := by
  cases hm : s.main with
  | putNone =>
    simp only [mainStep, hm, Option.some.injEq] at h
    subst h
    exact ⟨fun _ => by simp, fun hj => absurd hj (by simp [PastJoin])⟩
  | joining =>
    simp only [mainStep, hm] at h
    split at h <;> simp only [Option.some.injEq, reduceCtorEq] at h
    rename_i hw
    subst h
    exact ⟨fun hm' => (by cases hm'), fun _ => .inr hw⟩
  | collecting next =>
    simp only [mainStep, hm, Option.some.injEq] at h
    subst h
    refine ⟨fun hm' => (by cases hm'), fun hj => .inl ?_⟩
    cases next <;> simp_all [PastJoin]
  | leftovers next entries =>
    cases entries <;> cases next <;> simp only [mainStep, hm, Option.some.injEq] at h <;> subst h
    all_goals
      refine ⟨fun hm' => (by cases hm'), fun hj => .inl ?_⟩
      simp_all [PastJoin]
  | leftoverRecord next entry rest =>
    simp only [mainStep, hm, Option.some.injEq] at h
    subst h
    refine ⟨fun hm' => (by cases hm'), fun hj => .inl ?_⟩
    cases next <;> simp_all [PastJoin]
  | discarding next =>
    simp only [mainStep, hm] at h
    cases next <;> split at h <;> simp only [Option.some.injEq] at h <;> subst h
    all_goals exact ⟨fun hm' => (by simp_all), fun hj => absurd hj (by simp [PastJoin])⟩
  | waitTasks =>
    simp only [mainStep, hm] at h
    split at h
    · simp only [Option.some.injEq] at h
      subst h
      exact ⟨fun hm' => (by cases hm'), fun hj => absurd hj (by simp [PastJoin])⟩
    · split at h <;> simp only [Option.some.injEq, reduceCtorEq] at h
      subst h
      exact ⟨fun hm' => (by cases hm'), fun hj => absurd hj (by simp [PastJoin])⟩
  | _ => simp [mainStep, hm] at h

theorem Joins.step {g : ℕ} {s s' : ContentState} {a : ContentAct} (hs : Joins s)
    (h : contentStep g s a = some s') : Joins s' := by
  cases a with
  | submit event =>
    simp only [contentStep, Option.some.injEq] at h
    subst h
    refine ⟨fun hm => (hs.joining hm).imp id fun hq => ?_, hs.joined⟩
    exact List.mem_append_left _ hq
  | worker raised => exact hs.worker h
  | main timeout =>
    obtain ⟨hjoining, hpast⟩ := main_joins h
    obtain ⟨-, hworker, -, -⟩ := mainMove h
    refine ⟨fun hm => .inr (hjoining hm), fun hj => ?_⟩
    rw [hworker]
    exact (hpast hj).elim hs.joined id
  | callWaitAll =>
    obtain ⟨-, rfl⟩ := callWaitAll_spec h
    exact ⟨fun hm => (by cases hm), fun hj => absurd hj (by simp [PastJoin])⟩
  | callStop =>
    obtain ⟨-, rfl⟩ := callStop_spec h
    exact ⟨fun hm => (by cases hm), fun hj => absurd hj (by simp [PastJoin])⟩

theorem joins_of_run {g : ℕ} {acts : List ContentAct} {s : ContentState}
    (h : run (contentStep g) .init acts = some s) : Joins s :=
  run_inv (fun _ _ _ => Joins.step) ⟨fun hm => (by cases hm), fun hj => absurd hj (by simp [ContentState.init, PastJoin])⟩ h

/-- The worker stands still only where it has left its loop or the queue is empty. -/
theorem worker_stuck {g : ℕ} {s : ContentState} (h : workerStep g s false = none) :
    s.worker = .exited ∨ s.worker = .idle ∧ s.queue = [] := by
  cases hw : s.worker with
  | idle =>
    cases hq : s.queue with
    | nil => exact .inr ⟨rfl, rfl⟩
    | cons item queue => cases item <;> simp [workerStep, hw, hq] at h
  | exited => exact .inl rfl
  | subsLoop entries => cases entries <;> simp [workerStep, hw] at h
  | _ =>
    simp only [workerStep, hw] at h
    try split at h
    all_goals simp at h

theorem main_stuck {s : ContentState} (hm : Stopping s.main) (h : mainStep s false = none) :
    s.main = .stopped ∨ s.main = .joining ∧ s.worker ≠ .exited := by
  cases hmain : s.main with
  | discarding next =>
    simp only [mainStep, hmain] at h
    split at h <;> simp at h
  | joining =>
    refine .inr ⟨rfl, fun hw => ?_⟩
    simp [mainStep, hmain, hw] at h
  | leftovers next entries => cases entries <;> cases next <;> simp [mainStep, hmain] at h
  | stopped => exact .inl rfl
  | idle => simp [hmain, Stopping] at hm
  | waitTasks => simp [hmain, Stopping] at hm
  | _ => simp [mainStep, hmain] at h

theorem stop_keeps {g : ℕ} {later : List ContentAct} {s t : ContentState} (hc : s.cancelled = true)
    (hm : Stopping s.main) (h : run (contentStep g) s later = some t) :
    Stopping t.main ∧
      later.countP isStep + shutdownSteps t ≤ shutdownSteps s + 2 * (submitted later).length := by
  induction later generalizing s with
  | nil =>
    simp only [run_nil, Option.some.injEq] at h
    subst h
    exact ⟨hm, by simp⟩
  | cons a later ih =>
    obtain ⟨s', hstep, hrest⟩ := run_cons_inv h
    cases a with
    | submit event =>
      simp only [contentStep, Option.some.injEq] at hstep
      have hmore : shutdownSteps s' = shutdownSteps s + 2 := by
        subst hstep
        simp only [shutdownSteps, queueSteps_append, queueSteps]
        omega
      obtain ⟨hm', hle⟩ := ih (s := s') (by rw [← hstep]; exact hc) (by rw [← hstep]; exact hm) hrest
      refine ⟨hm', ?_⟩
      have hcount : (ContentAct.submit event :: later).countP isStep = later.countP isStep :=
        List.countP_cons_of_neg (by simp [isStep])
      have hlen : (submitted (.submit event :: later)).length = (submitted later).length + 1 := by
        simp [submitted, submittedBy, Nat.add_comm]
      omega
    | worker raised =>
      obtain ⟨-, hc', hmain⟩ := workerMove hstep
      obtain ⟨hm', hle⟩ := ih (hc'.trans hc) (hmain ▸ hm) hrest
      have hless := shutdownSteps_worker hc hstep
      refine ⟨hm', ?_⟩
      have hcount : (ContentAct.worker raised :: later).countP isStep = later.countP isStep + 1 :=
        List.countP_cons_of_pos rfl
      have hsame : submitted (.worker raised :: later) = submitted later := rfl
      rw [hsame]
      omega
    | main timeout =>
      obtain ⟨hless, hm₁⟩ := shutdownSteps_main hm hstep
      obtain ⟨hm', hle⟩ := ih ((mainMove hstep).2.2.1 hc) hm₁ hrest
      refine ⟨hm', ?_⟩
      have hcount : (ContentAct.main timeout :: later).countP isStep = later.countP isStep + 1 :=
        List.countP_cons_of_pos rfl
      have hsame : submitted (.main timeout :: later) = submitted later := rfl
      rw [hsame]
      omega
    | callWaitAll =>
      obtain ⟨hidle, -⟩ := callWaitAll_spec hstep
      simp [hidle, Stopping] at hm
    | callStop =>
      obtain ⟨hidle, -⟩ := callStop_spec hstep
      simp [hidle, Stopping] at hm

/-- The subscriptions of a URI that no publication has come for since. -/
def outstanding (uri : String) (ops : List ContentEvent) : List ContentEvent :=
  ops.foldl
    (fun subs event =>
      if event.uri ≠ uri then subs
      else match event.op with
        | .pubsubSub => subs ++ [event]
        | .pubsubPub => []
        | .put | .get | .ccninfo => subs)
    []

/-- The operations of `_pending_subs[uri]`. -/
def pendingOps (s : ContentState) (uri : String) : List ContentEvent :=
  ((s.pending.get? uri).getD []).map (·.event)

/-- `_pending_subs` is what the operations `ops` leave outstanding. -/
def Settled (s : ContentState) (ops : List ContentEvent) : Prop :=
  ∀ uri, pendingOps s uri = outstanding uri ops

/-- The last operation dispatched has not reached the map. -/
def Unsettled (s : ContentState) (op : ContentOp) (event : ContentEvent) (disp : List ContentEvent) :
    Prop :=
  event.op = op ∧ ∃ before, disp = before ++ [event] ∧ Settled s before

/-- Where the map stands, by where the worker is. -/
def MapReads (s : ContentState) (disp : List ContentEvent) : Prop :=
  match s.worker with
  | .subStarting event => Unsettled s .pubsubSub event disp
  | .subStarted entry => Unsettled s .pubsubSub entry.event disp
  | .pubGrace event | .pubTaking event => Unsettled s .pubsubPub event disp
  | .pubStarting event entries =>
      event.op = .pubsubPub ∧ Settled s disp ∧
        ∃ before, disp = before ++ [event] ∧ entries.map (·.event) = outstanding event.uri before
  | _ => Settled s disp

theorem outstanding_snoc (uri : String) (ops : List ContentEvent) (event : ContentEvent) :
    outstanding uri (ops ++ [event]) =
      if event.uri ≠ uri then outstanding uri ops
      else match event.op with
        | .pubsubSub => outstanding uri ops ++ [event]
        | .pubsubPub => []
        | .put | .get | .ccninfo => outstanding uri ops := by
  simp only [outstanding, List.foldl_append, List.foldl_cons, List.foldl_nil]

/-- The operation of an entry joins the list of its URI. -/
theorem Settled.subscribe {s s' : ContentState} {entry : SubEntry} {before : List ContentEvent}
    (hs : Settled s before) (hop : entry.event.op = .pubsubSub)
    (h : s'.pending = s.pending.appendTo entry.event.uri entry) :
    Settled s' (before ++ [entry.event]) := by
  intro uri
  rw [pendingOps, h, Dict.getD_appendTo, outstanding_snoc, ← hs uri, hop]
  by_cases huri : uri = entry.event.uri
  · subst huri
    simp [pendingOps]
  · simp [pendingOps, huri, Ne.symm huri]

/-- A publication empties the list of its URI. -/
theorem Settled.publish {s s' : ContentState} {event : ContentEvent} {before : List ContentEvent}
    (hs : Settled s before) (hop : event.op = .pubsubPub) (hkeys : s.pending.NodupKeys)
    (h : s'.pending = s.pending.pop event.uri) : Settled s' (before ++ [event]) := by
  intro uri
  rw [pendingOps, h, hkeys.get?_pop, outstanding_snoc, ← hs uri, hop]
  by_cases huri : uri = event.uri
  · simp [huri]
  · simp [pendingOps, huri, Ne.symm huri]

/-- The other operations leave the map alone. -/
theorem Settled.other {s s' : ContentState} {event : ContentEvent} {before : List ContentEvent}
    (hs : Settled s before) (hsub : event.op ≠ .pubsubSub) (hpub : event.op ≠ .pubsubPub)
    (h : s'.pending = s.pending) : Settled s' (before ++ [event]) := by
  intro uri
  rw [pendingOps, h, outstanding_snoc, ← hs uri]
  cases hop : event.op <;> simp_all [pendingOps]

/-- Before `wait_all` and `stop`. -/
structure Batching (s : ContentState) (disp : List ContentEvent) : Prop where
  main : s.main = .idle
  uncancelled : s.cancelled = false
  keys : s.pending.NodupKeys
  reads : MapReads s disp

theorem mapReads_dispatch {g : ℕ} {s s' : ContentState} {event : ContentEvent}
    {before : List ContentEvent} (hs : Settled s before) (hw : s'.worker = dispatch g event)
    (h : s'.pending = s.pending) : MapReads s' (before ++ [event]) := by
  have hpend : Settled s' before := by
    intro uri
    rw [pendingOps, h]
    exact hs uri
  unfold MapReads
  rw [hw]
  unfold dispatch
  cases hop : event.op with
  | pubsubSub => exact ⟨hop, before, rfl, hpend⟩
  | pubsubPub =>
    by_cases hg : 0 < g
    · rw [if_pos hg]
      exact ⟨hop, before, rfl, hpend⟩
    · rw [if_neg hg]
      exact ⟨hop, before, rfl, hpend⟩
  | put => exact hs.other (by simp [hop]) (by simp [hop]) h
  | get => exact hs.other (by simp [hop]) (by simp [hop]) h
  | ccninfo => exact hs.other (by simp [hop]) (by simp [hop]) h

theorem dispatchedBy_nil {s : ContentState} {raised : Bool} (h : inHand s.worker = []) :
    dispatchedBy s (.worker raised) = [] := by
  simp [dispatchedBy, h]

/-- A step of the worker with nothing to dispatch. -/
theorem Batching.handle {g : ℕ} {s s' : ContentState} {disp : List ContentEvent} {raised : Bool}
    (hs : Batching s disp) (hhand : inHand s.worker = []) (h : workerStep g s raised = some s') :
    Batching s' disp := by
  obtain ⟨-, hcancelled, hmain⟩ := workerMove h
  obtain ⟨hm, hc, hkeys, hreads⟩ := hs
  have hm' := hmain.trans hm
  have hc' := hcancelled.trans hc
  unfold MapReads at hreads
  cases hw : s.worker with
  | taken event => simp [hw, inHand] at hhand
  | subStarted entry =>
    rw [hw] at hreads
    obtain ⟨hop, before, rfl, hset⟩ := hreads
    simp only [workerStep, hw, Option.some.injEq] at h
    subst h
    exact ⟨hm', hc', hkeys.set _ _, hset.subscribe hop rfl⟩
  | pubTaking event =>
    rw [hw] at hreads
    obtain ⟨hop, before, rfl, hset⟩ := hreads
    simp only [workerStep, hw, Option.some.injEq] at h
    subst h
    exact ⟨hm', hc', hkeys.pop _, hop, hset.publish hop hkeys rfl, before, rfl, hset event.uri⟩
  | pubStarting event entries =>
    rw [hw] at hreads
    simp only [workerStep, hw] at h
    split at h <;> simp only [Option.some.injEq] at h <;> subst h
    · exact ⟨hm', hc', hkeys, hreads.2.1⟩
    · exact ⟨hm', hc', hkeys, hreads.2.1⟩
  | subsLoop entries =>
    rw [hw] at hreads
    cases entries <;> simp only [workerStep, hw, Option.some.injEq] at h <;> subst h
    · exact ⟨hm', hc', hkeys, hreads⟩
    · exact ⟨hm', hc', hkeys, hreads⟩
  | pubGrace event =>
    rw [hw] at hreads
    simp only [workerStep, hw, hc, Bool.false_eq_true, if_false, Option.some.injEq] at h
    subst h
    exact ⟨hm', rfl, hkeys, hreads⟩
  | exited => simp [workerStep, hw] at h
  | _ =>
    -- the other places leave the map as it is
    rw [hw] at hreads
    simp only [workerStep, hw] at h
    try split at h
    all_goals
      simp only [Option.some.injEq, reduceCtorEq] at h
      try subst h
      try exact ⟨hm', hc', hkeys, hreads⟩

theorem Batching.worker {g : ℕ} {s s' : ContentState} {disp : List ContentEvent} {raised : Bool}
    (hs : Batching s disp) (h : workerStep g s raised = some s') :
    Batching s' (disp ++ dispatchedBy s (.worker raised)) := by
  by_cases hhand : inHand s.worker = []
  · rw [dispatchedBy_nil hhand, List.append_nil]
    exact hs.handle hhand h
  · obtain ⟨event, hw⟩ : ∃ event, s.worker = .taken event := by
      cases hw : s.worker <;> simp [hw, inHand] at hhand ⊢
    have hreads := hs.reads
    rw [MapReads, hw] at hreads
    have hdisp : dispatchedBy s (.worker raised) = [event] := by
      simp [dispatchedBy, hs.uncancelled, hw, inHand]
    obtain ⟨-, hcancelled, hmain⟩ := workerMove h
    simp only [workerStep, hw, hs.uncancelled, Bool.false_eq_true, if_false, Option.some.injEq] at h
    subst h
    rw [hdisp]
    exact ⟨hmain.trans hs.main, hcancelled.trans hs.uncancelled, hs.keys,
      mapReads_dispatch (s := s) hreads rfl rfl⟩

theorem batching_init : Batching .init [] where
  main := rfl
  uncancelled := rfl
  keys := List.nodup_nil
  reads := fun _ => rfl

theorem batching_of_run {g : ℕ} {acts : List ContentAct} {s : ContentState}
    (h : run (contentStep g) .init acts = some s)
    (hbatch : ∀ a ∈ acts, a ≠ .callWaitAll ∧ a ≠ .callStop) : Batching s (dispatched g acts) := by
  refine run_inv_history
    (I := fun acts s =>
      (∀ a ∈ acts, a ≠ .callWaitAll ∧ a ≠ .callStop) → Batching s (dispatched g acts))
    (fun _ => batching_init) (fun acts s a s' hrun ih hstep hall => ?_) h
    hbatch
  have hs := ih fun b hb => hall b (List.mem_append_left _ hb)
  obtain ⟨hwait, hstop⟩ := hall a (List.mem_append_right _ (List.mem_singleton_self a))
  rw [dispatched_snoc hrun]
  cases a with
  | submit event =>
    simp only [contentStep, Option.some.injEq] at hstep
    subst hstep
    simp only [dispatchedBy, List.append_nil]
    exact ⟨hs.main, hs.uncancelled, hs.keys, hs.reads⟩
  | worker raised => exact hs.worker hstep
  | main timeout => simp [contentStep, mainStep, hs.main] at hstep
  | callWaitAll => exact absurd rfl hwait
  | callStop => exact absurd rfl hstop

/-- Two subscriptions, one of them to another URI, and the publisher about to start. -/
def subSubPub : List ContentAct :=
  [.submit ⟨.pubsubSub, 1, "ccnx:/a"⟩, .submit ⟨.pubsubSub, 2, "ccnx:/b"⟩,
      .submit ⟨.pubsubPub, 3, "ccnx:/a"⟩]
    ++ List.replicate 11 (.worker false)

end Proof
end CeforeEmu
