import Mathlib.Algebra.Order.Group.Multiset
import Mathlib.Data.Multiset.Range
import Mathlib.Tactic.Abel
import CeforeEmu.Runtime.ContentOps

/-!
# Every subscriber is waited for once and recorded once — unless a publisher fails to start

The books kept here: a started `cefsubfile` process is at any time in exactly one place —
already waited for, in `_pending_subs`, or in a local list of one of the two threads. That
is one equation between multisets of process numbers, `tracked s = range s.started`, and a
second one, `waited = recorded + about to be recorded`, on top of it.

Every step keeps the second equation. Every step keeps the first **but one**: when starting
a publisher raises, the exception leaves `_do_pubsub_pub` with the URI's entries in a local
variable. `tracked_step` states the first equation with exactly that loss (`dropped`), so
the run theorem can be an equivalence: all subscribers are accounted for when `stop`
returns iff no publisher failed to start while it held entries.
-/

set_option autoImplicit false

namespace CeforeEmu
namespace Proof

open CeforeEmu.Lib CeforeEmu.Runtime

/-! ## The places an entry can be in -/

/-- Entries in the worker's local variables that are still to be waited for. -/
def heldByWorker : Worker → List SubEntry
  | .subStarted entry => [entry]
  | .pubStarting _ entries | .pubWaiting _ entries | .subsLoop entries => entries
  | .subsRecord _ rest => rest
  | .idle | .taken _ | .running _ | .subStarting _ | .pubGrace _ | .pubTaking _ | .exited => []

/-- Entries in the main thread's local variables that are still to be waited for. -/
def heldByMain : Main → List SubEntry
  | .leftovers _ entries => entries
  | .leftoverRecord _ _ rest => rest
  | .idle | .waitTasks | .discarding _ | .putNone | .joining | .collecting _ | .stopped => []

/-- The entry a thread has waited for and not recorded yet. -/
def owedByWorker : Worker → List SubEntry
  | .subsRecord entry _ => [entry]
  | _ => []

def owedByMain : Main → List SubEntry
  | .leftoverRecord _ entry _ => [entry]
  | _ => []

/-- The process numbers of a list of entries. -/
def bag (entries : List SubEntry) : Multiset Nat := (entries.map (·.handle) : List Nat)

@[simp] theorem bag_nil : bag [] = 0 := rfl

@[simp] theorem bag_cons (e : SubEntry) (l : List SubEntry) : bag (e :: l) = {e.handle} + bag l :=
  rfl

@[simp] theorem bag_append (l l' : List SubEntry) : bag (l ++ l') = bag l + bag l' := by
  simp [bag]

theorem bag_perm {l l' : List SubEntry} (h : l.Perm l') : bag l = bag l' :=
  Multiset.coe_eq_coe.mpr (h.map _)

/-- Every process the books still know of. -/
def tracked (s : ContentState) : Multiset Nat :=
  (s.waited : Multiset Nat) + bag s.pending.values + bag (heldByWorker s.worker)
    + bag (heldByMain s.main)

/-- The process a record is the `"sub"` record of. -/
def subProcess (r : SinkRecord) : Option Nat := if r.kind = .sub then r.process else none

/-- The processes that have a `"sub"` record, with multiplicity. -/
def recorded (s : ContentState) : Multiset Nat := (s.sink.filterMap subProcess : List Nat)

/-- What a step throws away: the entries in the hand of a publisher that fails to start. -/
def dropped (s : ContentState) : ContentAct → List SubEntry
  | .worker true =>
      match s.worker with
      | .pubStarting _ entries => entries
      | _ => []
  | _ => []

/-! ## One step keeps the books -/

@[simp] theorem coe_snoc (l : List Nat) (n : Nat) :
    ((l ++ [n] : List Nat) : Multiset Nat) = (l : Multiset Nat) + {n} := by
  simp [← Multiset.coe_add]

theorem recorded_append (sink : List SinkRecord) (r : SinkRecord) :
    (((sink ++ [r]).filterMap subProcess : List Nat) : Multiset Nat)
      = (sink.filterMap subProcess : List Nat) + ((subProcess r).toList : List Nat) := by
  cases h : subProcess r <;> simp [List.filterMap_append, h]

theorem bag_values_appendTo (d : Dict String (List SubEntry)) (uri : String) (e : SubEntry) :
    bag (d.appendTo uri e).values = bag d.values + {e.handle} := by
  rw [bag_perm (Dict.values_appendTo d uri e), bag_append]
  simp

theorem bag_values_pop (d : Dict String (List SubEntry)) (uri : String) :
    bag d.values = bag ((d.get? uri).getD []) + bag (d.pop uri).values := by
  rw [bag_perm (Dict.values_pop d uri), bag_append]

@[simp] theorem heldByWorker_dispatch (g : Nat) (event : ContentEvent) :
    heldByWorker (dispatch g event) = [] := by
  unfold dispatch
  split
  · rfl
  · rfl
  · rfl
  · rfl
  · split <;> rfl

@[simp] theorem owedByWorker_dispatch (g : Nat) (event : ContentEvent) :
    owedByWorker (dispatch g event) = [] := by
  unfold dispatch
  split
  · rfl
  · rfl
  · rfl
  · rfl
  · split <;> rfl

theorem dropped_worker_of_held {s : ContentState} {raised : Bool}
    (h : ∀ event entries, s.worker ≠ .pubStarting event entries) :
    dropped s (.worker raised) = [] := by
  cases raised with
  | false => rfl
  | true =>
    unfold dropped
    cases hw : s.worker with
    | pubStarting event entries => exact absurd hw (h event entries)
    | _ => rfl

/-- **The worker's step**: what it starts comes in, what it drops goes out, and everything
    else only changes place. -/
theorem tracked_workerStep {g : Nat} {s s' : ContentState} {raised : Bool}
    (h : workerStep g s raised = some s') :
    tracked s' + bag (dropped s (.worker raised)) + Multiset.range s.started
      = tracked s + Multiset.range s'.started := by
  cases hw : s.worker with
  | idle =>
    rw [dropped_worker_of_held (by simp [hw])]
    simp only [workerStep, hw] at h
    split at h <;> simp only [Option.some.injEq, reduceCtorEq] at h
    all_goals subst h; simp [tracked, hw, heldByWorker]
  | taken event =>
    rw [dropped_worker_of_held (by simp [hw])]
    simp only [workerStep, hw] at h
    split at h <;> simp only [Option.some.injEq] at h
    · subst h
      simp [tracked, hw, heldByWorker, taskDone]
    · subst h
      simp only [tracked, hw, heldByWorker_dispatch]
      simp [heldByWorker]
  | running event =>
    rw [dropped_worker_of_held (by simp [hw])]
    simp only [workerStep, hw] at h
    split at h <;> simp only [Option.some.injEq] at h
    all_goals subst h; simp [tracked, hw, heldByWorker, taskDone]
  | subStarting event =>
    rw [dropped_worker_of_held (by simp [hw])]
    simp only [workerStep, hw, Option.some.injEq] at h
    subst h
    simp only [tracked, hw, heldByWorker, bag_cons, bag_nil, Multiset.range_succ,
      ← Multiset.singleton_add]
    abel
  | subStarted entry =>
    rw [dropped_worker_of_held (by simp [hw])]
    simp only [workerStep, hw, Option.some.injEq] at h
    subst h
    simp only [tracked, hw, heldByWorker, taskDone, bag_values_appendTo, bag_cons, bag_nil]
    abel
  | pubGrace event =>
    rw [dropped_worker_of_held (by simp [hw])]
    simp only [workerStep, hw] at h
    split at h <;> simp only [Option.some.injEq] at h
    all_goals subst h; simp [tracked, hw, heldByWorker, taskDone]
  | pubTaking event =>
    rw [dropped_worker_of_held (by simp [hw])]
    simp only [workerStep, hw, Option.some.injEq] at h
    subst h
    simp only [tracked, hw, heldByWorker, bag_values_pop s.pending event.uri, bag_nil]
    abel
  | pubStarting event entries =>
    simp only [workerStep, hw] at h
    cases raised with
    | false =>
      simp only [Bool.false_eq_true, if_false, Option.some.injEq] at h
      subst h
      simp [tracked, dropped, hw, heldByWorker]
    | true =>
      simp only [if_true, Option.some.injEq] at h
      subst h
      simp only [tracked, dropped, hw, heldByWorker, taskDone, bag_nil]
      abel
  | pubWaiting event entries =>
    rw [dropped_worker_of_held (by simp [hw])]
    simp only [workerStep, hw, Option.some.injEq] at h
    subst h
    simp [tracked, hw, heldByWorker]
  | subsLoop entries =>
    rw [dropped_worker_of_held (by simp [hw])]
    cases entries with
    | nil =>
      simp only [workerStep, hw, Option.some.injEq] at h
      subst h
      simp [tracked, hw, heldByWorker, taskDone]
    | cons entry rest =>
      simp only [workerStep, hw, Option.some.injEq] at h
      subst h
      simp only [tracked, hw, heldByWorker, waitSub, coe_snoc, bag_cons, bag_nil]
      abel
  | subsRecord entry rest =>
    rw [dropped_worker_of_held (by simp [hw])]
    simp only [workerStep, hw, Option.some.injEq] at h
    subst h
    simp [tracked, hw, heldByWorker, recordSubResult]
  | exited => simp [workerStep, hw] at h

/-- **The main thread's step**: entries only change place. -/
theorem tracked_mainStep {s s' : ContentState} {timeout : Bool} (h : mainStep s timeout = some s') :
    tracked s' = tracked s ∧ s'.started = s.started := by
  cases hm : s.main with
  | idle => simp [mainStep, hm] at h
  | stopped => simp [mainStep, hm] at h
  | waitTasks =>
    simp only [mainStep, hm] at h
    split at h
    · simp only [Option.some.injEq] at h
      subst h
      simp [tracked, hm, heldByMain]
    · split at h <;> simp only [Option.some.injEq, reduceCtorEq] at h
      subst h
      simp [tracked, hm, heldByMain]
  | discarding next =>
    simp only [mainStep, hm] at h
    cases next <;> split at h <;> simp only [Option.some.injEq] at h
    all_goals subst h; simp [tracked, hm, heldByMain]
  | putNone =>
    simp only [mainStep, hm, Option.some.injEq] at h
    subst h
    simp [tracked, hm, heldByMain]
  | joining =>
    simp only [mainStep, hm] at h
    split at h <;> simp only [Option.some.injEq, reduceCtorEq] at h
    subst h
    simp [tracked, hm, heldByMain]
  | collecting next =>
    simp only [mainStep, hm, Option.some.injEq] at h
    subst h
    refine ⟨?_, rfl⟩
    simp only [tracked, hm, heldByMain, bag_nil, Dict.values, List.flatMap_nil]
    abel
  | leftovers next entries =>
    cases entries with
    | nil =>
      cases next <;> simp only [mainStep, hm, Option.some.injEq] at h
      all_goals subst h; simp [tracked, hm, heldByMain]
    | cons entry rest =>
      cases next <;> simp only [mainStep, hm, Option.some.injEq] at h
      all_goals
        subst h
        refine ⟨?_, rfl⟩
        simp only [tracked, hm, heldByMain, waitSub, coe_snoc, bag_cons]
        abel
  | leftoverRecord next entry rest =>
    simp only [mainStep, hm, Option.some.injEq] at h
    subst h
    simp [tracked, hm, heldByMain, recordSubResult]

theorem callWaitAll_spec {g : Nat} {s s' : ContentState} (h : contentStep g s .callWaitAll = some s') :
    s.main = .idle ∧ s' = { s with main := .waitTasks } := by
  rw [contentStep] at h
  split at h
  · rename_i hm
    exact ⟨hm, (Option.some.inj h).symm⟩
  · cases h

theorem callStop_spec {g : Nat} {s s' : ContentState} (h : contentStep g s .callStop = some s') :
    s.main = .idle ∧ s' = { s with cancelled := true, main := .discarding .stop } := by
  rw [contentStep] at h
  split at h
  · rename_i hm
    exact ⟨hm, (Option.some.inj h).symm⟩
  · cases h

/-- One step of the system, in one equation. -/
theorem tracked_step {g : Nat} {s s' : ContentState} {a : ContentAct}
    (h : contentStep g s a = some s') :
    tracked s' + bag (dropped s a) + Multiset.range s.started
      = tracked s + Multiset.range s'.started := by
  cases a with
  | submit event =>
    simp only [contentStep, Option.some.injEq] at h
    subst h
    simp [tracked, dropped]
  | worker raised => exact tracked_workerStep h
  | main timeout =>
    obtain ⟨ht, hs⟩ := tracked_mainStep h
    rw [ht, hs]
    simp [dropped]
  | callWaitAll =>
    obtain ⟨hm, rfl⟩ := callWaitAll_spec h
    simp [tracked, dropped, hm, heldByMain]
  | callStop =>
    obtain ⟨hm, rfl⟩ := callStop_spec h
    simp [tracked, dropped, hm, heldByMain]

/-- Every process waited for is recorded, or is the one its thread is about to record. -/
def Recorded (s : ContentState) : Prop :=
  (s.waited : Multiset Nat)
    = recorded s + bag (owedByWorker s.worker) + bag (owedByMain s.main)

theorem recorded_workerStep {g : Nat} {s s' : ContentState} {raised : Bool} (hr : Recorded s)
    (h : workerStep g s raised = some s') : Recorded s' := by
  unfold Recorded at hr ⊢
  cases hw : s.worker with
  | idle =>
    simp only [workerStep, hw] at h
    split at h <;> simp only [Option.some.injEq, reduceCtorEq] at h
    all_goals subst h; simpa [recorded, owedByWorker, hw] using hr
  | taken event =>
    simp only [workerStep, hw] at h
    split at h <;> simp only [Option.some.injEq] at h
    · subst h
      simpa [recorded, owedByWorker, hw, taskDone] using hr
    · subst h
      simp only [owedByWorker_dispatch]
      simpa [recorded, owedByWorker, hw] using hr
  | running event =>
    simp only [workerStep, hw] at h
    split at h <;> simp only [Option.some.injEq] at h
    · subst h
      simpa [recorded, owedByWorker, hw, taskDone] using hr
    · subst h
      simp only [recorded, taskDone, recorded_append]
      simpa [recorded, owedByWorker, hw, subProcess] using hr
  | subStarting event =>
    simp only [workerStep, hw, Option.some.injEq] at h
    subst h
    simpa [recorded, owedByWorker, hw] using hr
  | subStarted entry =>
    simp only [workerStep, hw, Option.some.injEq] at h
    subst h
    simpa [recorded, owedByWorker, hw, taskDone] using hr
  | pubGrace event =>
    simp only [workerStep, hw] at h
    split at h <;> simp only [Option.some.injEq] at h
    all_goals subst h; simpa [recorded, owedByWorker, hw, taskDone] using hr
  | pubTaking event =>
    simp only [workerStep, hw, Option.some.injEq] at h
    subst h
    simpa [recorded, owedByWorker, hw] using hr
  | pubStarting event entries =>
    simp only [workerStep, hw] at h
    split at h <;> simp only [Option.some.injEq] at h
    all_goals subst h; simpa [recorded, owedByWorker, hw, taskDone] using hr
  | pubWaiting event entries =>
    simp only [workerStep, hw, Option.some.injEq] at h
    subst h
    simp only [recorded, recorded_append]
    simpa [recorded, owedByWorker, hw, subProcess] using hr
  | subsLoop entries =>
    cases entries with
    | nil =>
      simp only [workerStep, hw, Option.some.injEq] at h
      subst h
      simpa [recorded, owedByWorker, hw, taskDone] using hr
    | cons entry rest =>
      simp only [workerStep, hw, Option.some.injEq] at h
      subst h
      simp only [recorded, owedByWorker, hw, waitSub, coe_snoc, bag_cons, bag_nil] at hr ⊢
      rw [hr]
      abel
  | subsRecord entry rest =>
    simp only [workerStep, hw, Option.some.injEq] at h
    subst h
    simp only [recorded, recordSubResult, recorded_append]
    simpa [recorded, owedByWorker, hw, subProcess] using hr
  | exited => simp [workerStep, hw] at h

theorem recorded_mainStep {s s' : ContentState} {timeout : Bool} (hr : Recorded s)
    (h : mainStep s timeout = some s') : Recorded s' := by
  unfold Recorded at hr ⊢
  cases hm : s.main with
  | idle => simp [mainStep, hm] at h
  | stopped => simp [mainStep, hm] at h
  | waitTasks =>
    simp only [mainStep, hm] at h
    split at h
    · simp only [Option.some.injEq] at h
      subst h
      simpa [recorded, owedByMain, hm] using hr
    · split at h <;> simp only [Option.some.injEq, reduceCtorEq] at h
      subst h
      simpa [recorded, owedByMain, hm] using hr
  | discarding next =>
    simp only [mainStep, hm] at h
    cases next <;> split at h <;> simp only [Option.some.injEq] at h
    all_goals subst h; simpa [recorded, owedByMain, hm] using hr
  | putNone =>
    simp only [mainStep, hm, Option.some.injEq] at h
    subst h
    simpa [recorded, owedByMain, hm] using hr
  | joining =>
    simp only [mainStep, hm] at h
    split at h <;> simp only [Option.some.injEq, reduceCtorEq] at h
    subst h
    simpa [recorded, owedByMain, hm] using hr
  | collecting next =>
    simp only [mainStep, hm, Option.some.injEq] at h
    subst h
    simpa [recorded, owedByMain, hm] using hr
  | leftovers next entries =>
    cases entries with
    | nil =>
      cases next <;> simp only [mainStep, hm, Option.some.injEq] at h
      all_goals subst h; simpa [recorded, owedByMain, hm] using hr
    | cons entry rest =>
      cases next <;> simp only [mainStep, hm, Option.some.injEq] at h
      all_goals
        subst h
        simp only [recorded, owedByMain, hm, waitSub, coe_snoc, bag_cons, bag_nil] at hr ⊢
        rw [hr]
        abel
  | leftoverRecord next entry rest =>
    simp only [mainStep, hm, Option.some.injEq] at h
    subst h
    simp only [recorded, recordSubResult, recorded_append]
    simp only [recorded, owedByMain, hm, bag_cons, bag_nil] at hr
    simp only [hr, owedByMain, bag_nil, subProcess, if_true, Option.toList_some,
      Multiset.coe_singleton]
    abel

/-! ## The shutdown sequence -/

/-- What `stop` has established once it is past its join: the worker is gone, and from
    the moment the leftovers are collected nothing is pending any more. -/
def Shutdown (s : ContentState) : Prop :=
  match s.main with
  | .collecting .stop => s.worker = .exited
  | .leftovers .stop _ | .leftoverRecord .stop _ _ | .stopped =>
      s.worker = .exited ∧ s.pending = []
  | _ => True

theorem shutdown_workerStep {g : Nat} {s s' : ContentState} {raised : Bool} (hs : Shutdown s)
    (h : workerStep g s raised = some s') : Shutdown s' := by
  -- a worker that can still move is not `exited`, so `stop` is not past its join
  have hm : s'.main = s.main := by
    unfold workerStep at h
    repeat' split at h
    all_goals first
      | (simp only [Option.some.injEq] at h; subst h; rfl)
      | simp only [reduceCtorEq] at h
  have hw : s.worker ≠ .exited := by
    intro hw
    simp [workerStep, hw] at h
  unfold Shutdown at hs ⊢
  rw [hm]
  split at hs
  · exact absurd hs hw
  · exact absurd hs.1 hw
  · exact absurd hs.1 hw
  · exact absurd hs.1 hw
  · trivial

theorem shutdown_mainStep {s s' : ContentState} {timeout : Bool} (hs : Shutdown s)
    (h : mainStep s timeout = some s') : Shutdown s' := by
  unfold Shutdown at hs ⊢
  cases hm : s.main with
  | idle => simp [mainStep, hm] at h
  | stopped => simp [mainStep, hm] at h
  | waitTasks =>
    simp only [mainStep, hm] at h
    split at h
    · simp only [Option.some.injEq] at h
      subst h
      trivial
    · split at h <;> simp only [Option.some.injEq, reduceCtorEq] at h
      subst h
      trivial
  | discarding next =>
    simp only [mainStep, hm] at h
    cases next <;> split at h <;> simp only [Option.some.injEq] at h
    all_goals subst h; simp
  | putNone =>
    simp only [mainStep, hm, Option.some.injEq] at h
    subst h
    trivial
  | joining =>
    simp only [mainStep, hm] at h
    split at h <;> simp only [Option.some.injEq, reduceCtorEq] at h
    rename_i hw
    subst h
    exact hw
  | collecting next =>
    simp only [mainStep, hm, Option.some.injEq] at h
    subst h
    cases next with
    | waitAll => trivial
    | stop => simpa [hm] using hs
  | leftovers next entries =>
    cases entries with
    | nil =>
      cases next <;> simp only [mainStep, hm, Option.some.injEq] at h
      all_goals subst h; simp_all
    | cons entry rest =>
      cases next <;> simp only [mainStep, hm, Option.some.injEq] at h
      all_goals subst h; simp_all [waitSub]
  | leftoverRecord next entry rest =>
    simp only [mainStep, hm, Option.some.injEq] at h
    subst h
    cases next <;> simp_all [recordSubResult]

/-- The bookkeeping every run keeps, failures included. -/
structure Books (s : ContentState) : Prop where
  recorded : Recorded s
  shutdown : Shutdown s

theorem Books.step {g : Nat} {s s' : ContentState} {a : ContentAct} (hs : Books s)
    (h : contentStep g s a = some s') : Books s' := by
  cases a with
  | submit event =>
    simp only [contentStep, Option.some.injEq] at h
    subst h
    exact ⟨hs.recorded, hs.shutdown⟩
  | worker raised => exact ⟨recorded_workerStep hs.recorded h, shutdown_workerStep hs.shutdown h⟩
  | main timeout => exact ⟨recorded_mainStep hs.recorded h, shutdown_mainStep hs.shutdown h⟩
  | callWaitAll =>
    obtain ⟨hm, rfl⟩ := callWaitAll_spec h
    have hr := hs.recorded
    exact ⟨by simpa [Recorded, Proof.recorded, hm, owedByMain] using hr, trivial⟩
  | callStop =>
    obtain ⟨hm, rfl⟩ := callStop_spec h
    have hr := hs.recorded
    exact ⟨by simpa [Recorded, Proof.recorded, hm, owedByMain] using hr, trivial⟩

theorem Books.init : Books .init := ⟨rfl, trivial⟩

/-! ## Runs -/

/-- The guard of one step: it does not throw an entry away. -/
def KeepsEntries (s : ContentState) (a : ContentAct) : Prop := dropped s a = []

/-- Every started process is still in the books. -/
def AllTracked (s : ContentState) : Prop := tracked s = Multiset.range s.started

/-- Some started process is not in the books any more. -/
def Lost (s : ContentState) : Prop := (tracked s).card < s.started

theorem allTracked_init : AllTracked .init := rfl

theorem allTracked_step {g : Nat} (s : ContentState) (a : ContentAct) (s' : ContentState)
    (hs : AllTracked s) (hk : KeepsEntries s a) (h : contentStep g s a = some s') :
    AllTracked s' := by
  have ht := tracked_step h
  unfold AllTracked at hs ⊢
  unfold KeepsEntries at hk
  rw [hk, hs, bag_nil, add_zero, add_comm] at ht
  exact add_left_cancel ht

theorem card_tracked_step {g : Nat} {s s' : ContentState} {a : ContentAct}
    (h : contentStep g s a = some s') :
    (tracked s').card + (dropped s a).length + s.started = (tracked s).card + s'.started := by
  have ht := congrArg Multiset.card (tracked_step h)
  simpa [bag] using ht

theorem card_tracked_le_step {g : Nat} (s : ContentState) (a : ContentAct) (s' : ContentState)
    (hs : (tracked s).card ≤ s.started) (h : contentStep g s a = some s') :
    (tracked s').card ≤ s'.started := by
  have := card_tracked_step h
  omega

/-- A loss is for ever: no later step finds the process again. -/
theorem lost_step {g : Nat} (s : ContentState) (a : ContentAct) (s' : ContentState)
    (hs : (tracked s).card ≤ s.started ∧ Lost s) (h : contentStep g s a = some s') :
    (tracked s').card ≤ s'.started ∧ Lost s' := by
  have := card_tracked_step h
  have hl := hs.2
  unfold Lost at hl ⊢
  omega

theorem lost_of_dropped {g : Nat} (s : ContentState) (a : ContentAct) (s' : ContentState)
    (hs : (tracked s).card ≤ s.started) (hk : ¬ KeepsEntries s a)
    (h : contentStep g s a = some s') : Lost s' := by
  have := card_tracked_step h
  have hd : 0 < (dropped s a).length := List.length_pos_iff.mpr hk
  unfold Lost
  omega

/-- When `stop` has returned, the books are down to the processes waited for. -/
theorem tracked_of_stopped {s : ContentState} (hb : Books s) (hm : s.main = .stopped) :
    tracked s = (s.waited : Multiset Nat) := by
  have hs := hb.shutdown
  simp only [Shutdown, hm] at hs
  simp [tracked, hs.1, hs.2, hm, heldByWorker, heldByMain, Dict.values]

theorem recorded_of_stopped {s : ContentState} (hb : Books s) (hm : s.main = .stopped) :
    recorded s = (s.waited : Multiset Nat) := by
  have hs := hb.shutdown
  simp only [Shutdown, hm] at hs
  have hr := hb.recorded
  simp only [Recorded, hs.1, hm, owedByWorker, owedByMain, bag_nil, add_zero] at hr
  exact hr.symm

/-- The `"sub"` records about one process. -/
def subRecords (s : ContentState) (p : Nat) : List SinkRecord :=
  s.sink.filter fun r => r.kind = .sub ∧ r.process = some p

theorem length_subRecords (s : ContentState) (p : Nat) :
    (subRecords s p).length = (recorded s).count p := by
  simp only [subRecords, recorded, Multiset.coe_count, Bool.decide_and]
  induction s.sink with
  | nil => rfl
  | cons r sink ih =>
    rw [List.filter_cons, List.filterMap_cons]
    by_cases hk : r.kind = .sub
    · cases hp : r.process with
      | none => simp [subProcess, hk, hp, ih]
      | some q =>
        by_cases hq : q = p
        · simp [subProcess, hk, hp, hq, ih]
        · simp [subProcess, hk, hp, hq, ih]
    · simp [subProcess, hk, ih]

/-- Every process started is waited for once and recorded once. -/
def Accounted (s : ContentState) : Prop :=
  ∀ p < s.started, s.waited.count p = 1 ∧ (subRecords s p).length = 1

theorem accounted_of_stopped {s : ContentState} (hb : Books s) (hm : s.main = .stopped)
    (ht : AllTracked s) : Accounted s := by
  intro p hp
  have hw : (s.waited : Multiset Nat) = Multiset.range s.started := by
    rw [← tracked_of_stopped hb hm]
    exact ht
  have hc : (s.waited : Multiset Nat).count p = 1 := by
    rw [hw]
    exact Multiset.count_eq_one_of_mem (Multiset.nodup_range _) (Multiset.mem_range.mpr hp)
  refine ⟨by simpa using hc, ?_⟩
  rw [length_subRecords, recorded_of_stopped hb hm]
  exact hc

theorem not_lost_of_accounted {s : ContentState} (hb : Books s) (hm : s.main = .stopped)
    (ha : Accounted s) : ¬ Lost s := by
  have hle : Multiset.range s.started ≤ (s.waited : Multiset Nat) := by
    refine Multiset.le_iff_count.mpr fun p => ?_
    by_cases hp : p < s.started
    · rw [Multiset.count_eq_one_of_mem (Multiset.nodup_range _) (Multiset.mem_range.mpr hp),
        Multiset.coe_count, (ha p hp).1]
    · rw [Multiset.count_eq_zero_of_notMem (by simpa using hp)]
      exact Nat.zero_le _
  have hc := Multiset.card_le_card hle
  rw [← tracked_of_stopped hb hm, Multiset.card_range] at hc
  exact Nat.not_lt.mpr hc

/-- **Subscribers, over whole runs.** However the two threads interleave, whatever is
    submitted and whenever `wait_all` and `stop` are called: once `stop` has returned, every
    `cefsubfile` process started was waited for once and recorded once **iff** no publisher
    command failed to start in a state where it had already taken subscriber entries out of
    `_pending_subs`. -/
theorem accounted_iff_keepsEntries {g : Nat} {acts : List ContentAct} {s : ContentState}
    (h : run (contentStep g) .init acts = some s) (hm : s.main = .stopped) :
    Accounted s ↔ Meets (contentStep g) KeepsEntries .init acts := by
  have hb : Books s := run_inv (fun _ _ _ => Books.step) Books.init h
  constructor
  · intro ha
    exact meets_of_not_marked card_tracked_le_step lost_step lost_of_dropped
      (Nat.le_refl _) h (not_lost_of_accounted hb hm ha)
  · intro hk
    exact accounted_of_stopped hb hm (run_inv_of_meets allTracked_step allTracked_init hk h)

/-- The shortest history with a subscriber in it: start one, then `stop`. -/
def subThenStop : List ContentAct :=
  [.submit ⟨.pubsubSub, 1, "ccnx:/a"⟩, .worker false, .worker false, .worker false, .worker false,
    .callStop, .main false, .main false, .worker false, .main false, .main false, .main false,
    .main false, .main false]

theorem accounted_subThenStop :
    ∃ s, run (contentStep 0) .init subThenStop = some s ∧ s.started = 1 ∧ Accounted s := by
  refine ⟨((run (contentStep 0) .init subThenStop).getD .init), by decide, by decide, ?_⟩
  have hrun : run (contentStep 0) .init subThenStop
      = some ((run (contentStep 0) .init subThenStop).getD .init) := by decide
  refine (accounted_iff_keepsEntries hrun (by decide)).mpr ?_
  simp [subThenStop, Meets, contentStep, workerStep, mainStep, KeepsEntries, dropped]

/-- A subscriber, then a publisher of the same URI whose command cannot be started. -/
def subThenBrokenPub : List ContentAct :=
  [.submit ⟨.pubsubSub, 1, "ccnx:/a"⟩, .submit ⟨.pubsubPub, 0, "ccnx:/a"⟩,
    .worker false, .worker false, .worker false, .worker false,
    .worker false, .worker false, .worker false, .worker true,
    .callStop, .main false, .main false, .worker false, .main false, .main false, .main false]

/-- The started process is neither waited for nor recorded. -/
theorem brokenPub_loses_subscriber :
    ∃ s, run (contentStep 0) .init subThenBrokenPub = some s ∧ s.main = .stopped ∧
      s.started = 1 ∧ s.waited = [] ∧ s.sink = [] ∧ ¬ Accounted s := by
  refine ⟨((run (contentStep 0) .init subThenBrokenPub).getD .init), by decide, by decide,
    by decide, by decide, by decide, ?_⟩
  intro ha
  exact absurd (ha 0 (by decide)).1 (by decide)

end Proof
end CeforeEmu
