import Mathlib.Data.List.Induction
import CeforeEmu.Proof.BridgeRestore
import CeforeEmu.Runtime.CleanupActions

/-!
# What `cleanup` keeps

A manager is used in turns: actions are registered, and now and then `cleanup` is called. Which
actions a call executes can be told from what has happened before alone: a best-effort action if no
call has been made since it was registered, a mandatory one if none of the calls since then has been
a success for it (`Due`). `run_actions` says that the list the manager holds is those actions in the
order of their registration, so a call executes them in the reverse of it.

Actions are told apart by the number of their registration, since nothing stops two of them from
being described alike.
-/

set_option autoImplicit false

namespace CeforeEmu
namespace Proof

open CeforeEmu.Lib CeforeEmu.Runtime

variable {α : Type}

/-! ## Runs -/

/-- The number of an action's registration, and the action. -/
abbrev Numbered (α : Type) := ℕ × α

/-- What is done with a manager: an action is registered, or `cleanup` is called, with what each
    action does in that call. -/
inductive ManagerStep (α : Type) where
  | register (action : α)
  | cleanup (outcome : Numbered α → ExecuteOutcome)

structure ManagerState (α : Type) where
  registered : ℕ := 0
  actions : List (Numbered α) := []

def numberedKind (kind : ActionKind α) : ActionKind (Numbered α) where
  description e := kind.description e.2
  mandatory e := kind.mandatory e.2

def managerStep (kind : ActionKind α) (s : ManagerState α) : ManagerStep α → ManagerState α
  | .register action => ⟨s.registered + 1, s.actions ++ [(s.registered, action)]⟩
  | .cleanup outcome =>
      { s with actions := (cleanupActions (numberedKind kind) outcome s.actions).actions }

def managerRun (kind : ActionKind α) (steps : List (ManagerStep α)) : ManagerState α :=
  steps.foldl (managerStep kind) {}

/-! ## What has happened -/

/-- All registrations after the first `n`. -/
def registrationsFrom : ℕ → List (ManagerStep α) → List (Numbered α)
  | _, [] => []
  | n, .register action :: steps => (n, action) :: registrationsFrom (n + 1) steps
  | n, .cleanup _ :: steps => registrationsFrom n steps

/-- The calls since a registration, after the first `n` registrations. -/
def callsSinceFrom (id : ℕ) : ℕ → List (ManagerStep α) → List (Numbered α → ExecuteOutcome)
  | _, [] => []
  | n, .register _ :: steps => callsSinceFrom id (n + 1) steps
  | n, .cleanup outcome :: steps =>
      if id < n then outcome :: callsSinceFrom id n steps else callsSinceFrom id n steps

def registrations (steps : List (ManagerStep α)) : List (Numbered α) := registrationsFrom 0 steps

def callsSince (steps : List (ManagerStep α)) (id : ℕ) : List (Numbered α → ExecuteOutcome) :=
  callsSinceFrom id 0 steps

/-- `rc == 0`, and nothing raised. -/
def succeeds : ExecuteOutcome → Bool
  | .returned rc _ => rc = 0
  | .raised _ => false

/-- The next call has to execute the action. -/
def due (kind : ActionKind α) (steps : List (ManagerStep α)) (e : Numbered α) : Bool :=
  if kind.mandatory e.2 then (callsSince steps e.1).all fun outcome => !succeeds (outcome e)
  else (callsSince steps e.1).isEmpty

/-! ## One call -/

section Call

variable (kind : ActionKind α) (outcome : α → ExecuteOutcome)

/-- A mandatory action that fails in the call. -/
def failsIn (a : α) : Bool := kind.mandatory a && !succeeds (outcome a)

/-- The entry of a `TeardownError`. -/
def failureOf (a : α) : String × ℤ × String :=
  match outcome a with
  | .raised text => (kind.description a, -1, text)
  | .returned rc detail => (kind.description a, rc, detail)

theorem cleanupTurn_eq (loop : CleanupLoop α) (a : α) :
    cleanupTurn kind outcome loop a =
      ⟨loop.failures ++ ([a].filter (failsIn kind outcome)).map (failureOf kind outcome),
        loop.retainedReversed ++ [a].filter (failsIn kind outcome), loop.executed ++ [a]⟩ := by
  cases houtcome : outcome a with
  | raised text =>
    cases hm : kind.mandatory a <;>
      simp [cleanupTurn, CleanupLoop.fail, failsIn, failureOf, houtcome, hm, succeeds]
  | returned rc detail =>
    by_cases hrc : rc = 0 <;> cases hm : kind.mandatory a <;>
      simp [cleanupTurn, CleanupLoop.fail, failsIn, failureOf, houtcome, hm, hrc,
        succeeds]

/-- **The loop** executes all there is, and collects what fails. -/
theorem foldl_cleanupTurn (actions : List α) : ∀ loop : CleanupLoop α,
    actions.foldl (cleanupTurn kind outcome) loop =
      ⟨loop.failures ++ (actions.filter (failsIn kind outcome)).map (failureOf kind outcome),
        loop.retainedReversed ++ actions.filter (failsIn kind outcome), loop.executed ++ actions⟩ := by
  induction actions with
  | nil =>
    intro loop
    simp
  | cons a actions ih =>
    intro loop
    rw [List.foldl_cons, ih, cleanupTurn_eq]
    by_cases hf : failsIn kind outcome a = true
    · simp [hf]
    · simp [hf]

theorem cleanupActions_eq (actions : List α) :
    cleanupActions kind outcome actions =
      ⟨actions.filter (failsIn kind outcome),
        if actions.filter (failsIn kind outcome) = [] then none
        else some ((actions.reverse.filter (failsIn kind outcome)).map (failureOf kind outcome)),
        actions.reverse⟩ := by
  have hnil : (actions.reverse.filter (failsIn kind outcome)).map (failureOf kind outcome) = [] ↔
      actions.filter (failsIn kind outcome) = [] := by
    rw [List.map_eq_nil_iff, List.filter_reverse, List.reverse_eq_nil_iff]
  simp only [cleanupActions, foldl_cleanupTurn, List.nil_append, List.filter_reverse,
    List.reverse_reverse] at hnil ⊢
  by_cases h : actions.filter (failsIn kind outcome) = []
  · rw [if_pos (hnil.mpr h), if_pos h]
  · rw [if_neg (mt hnil.mp h), if_neg h]

end Call

/-! ## Commands -/

/-- A command that has been run, as an action. -/
def ranKind : ActionKind (CleanupAction × CommandResult) where
  description r := r.1.description
  mandatory r := r.1.mandatory

def ranOutcome (r : CleanupAction × CommandResult) : ExecuteOutcome :=
  .returned r.2.returncode (strStrip r.2.stderr)

theorem failsIn_ran (r : CleanupAction × CommandResult) : failsIn ranKind ranOutcome r = retained r := by
  simp [failsIn, ranKind, ranOutcome, succeeds, retained]

/-- The `cleanup` of a manager whose actions are commands is this one. -/
theorem cleanup_ran (env : RootEnv) {w w' : BridgeWorld}
    {results : List (CleanupAction × CommandResult)}
    (h : drain env w.actions.reverse w = (.ok results, w')) :
    (cleanup env w).2.actions
        = (cleanupActions ranKind ranOutcome results.reverse).actions.map (·.1) ∧
      (cleanup env w).1 = match (cleanupActions ranKind ranOutcome results.reverse).teardownError with
        | none => .ok ()
        | some failures => .error (.teardown failures) := by
  have hfilter : ∀ rs : List (CleanupAction × CommandResult),
      rs.filter (failsIn ranKind ranOutcome) = rs.filter retained :=
    fun rs => List.filter_congr fun r _ => failsIn_ran r
  rw [cleanup_eq env h, cleanupActions_eq, hfilter, hfilter, List.filter_reverse, List.map_reverse,
    List.reverse_reverse]
  refine ⟨rfl, ?_⟩
  by_cases hnil : results.filter retained = []
  · simp [hnil]
  · simp only [List.reverse_eq_nil_iff, if_neg hnil, List.isEmpty_iff]
    rfl

/-! ## Every state -/

theorem registrationsFrom_snoc (n : ℕ) (steps : List (ManagerStep α)) (step : ManagerStep α) :
    registrationsFrom n (steps ++ [step]) =
      registrationsFrom n steps ++ registrationsFrom (n + (registrationsFrom n steps).length) [step] := by
  induction steps generalizing n with
  | nil => rfl
  | cons first steps ih =>
    cases first with
    | register action =>
      rw [List.cons_append, registrationsFrom, ih, registrationsFrom, List.cons_append,
        List.length_cons, show n + 1 + (registrationsFrom (n + 1) steps).length
          = n + ((registrationsFrom (n + 1) steps).length + 1) by omega]
    | cleanup outcome => rw [List.cons_append, registrationsFrom, ih, registrationsFrom]

theorem callsSinceFrom_snoc (id n : ℕ) (steps : List (ManagerStep α)) (step : ManagerStep α) :
    callsSinceFrom id n (steps ++ [step]) =
      callsSinceFrom id n steps
        ++ callsSinceFrom id (n + (registrationsFrom n steps).length) [step] := by
  induction steps generalizing n with
  | nil => rfl
  | cons first steps ih =>
    cases first with
    | register action =>
      rw [List.cons_append, callsSinceFrom, ih, callsSinceFrom, registrationsFrom, List.length_cons,
        show n + 1 + (registrationsFrom (n + 1) steps).length
          = n + ((registrationsFrom (n + 1) steps).length + 1) by omega]
    | cleanup outcome =>
      rw [List.cons_append, callsSinceFrom, callsSinceFrom, ih, registrationsFrom]
      split
      · rw [List.cons_append]
      · rfl

/-- Numbers are given in order. -/
theorem registrationsFrom_numbers (n : ℕ) (steps : List (ManagerStep α)) :
    (registrationsFrom n steps).map (·.1) = List.range' n (registrationsFrom n steps).length := by
  induction steps generalizing n with
  | nil => rfl
  | cons first steps ih =>
    cases first with
    | register action =>
      rw [registrationsFrom, List.map_cons, ih, List.length_cons, List.range'_succ]
    | cleanup outcome => exact ih n

theorem registrations_nodup (steps : List (ManagerStep α)) : (registrations steps).Nodup := by
  refine List.Nodup.of_map (·.1) ?_
  rw [registrations, registrationsFrom_numbers]
  exact List.nodup_range'

theorem number_lt {steps : List (ManagerStep α)} {e : Numbered α} (h : e ∈ registrations steps) :
    e.1 < (registrations steps).length := by
  have hmem := List.mem_map_of_mem (f := (·.1)) h
  rw [registrations, registrationsFrom_numbers, List.mem_range'] at hmem
  obtain ⟨k, hk, heq⟩ := hmem
  rw [registrations, heq]
  omega

/-- No call has been made since a registration that is still to come. -/
theorem callsSinceFrom_new (steps : List (ManagerStep α)) : ∀ {id n : ℕ},
    n + (registrationsFrom n steps).length ≤ id → callsSinceFrom id n steps = [] := by
  induction steps with
  | nil =>
    intro id n _
    rfl
  | cons first steps ih =>
    intro id n h
    cases first with
    | register action =>
      rw [registrationsFrom, List.length_cons] at h
      exact ih (by omega)
    | cleanup outcome =>
      rw [registrationsFrom] at h
      rw [callsSinceFrom, if_neg (by omega)]
      exact ih h

theorem due_register (kind : ActionKind α) (steps : List (ManagerStep α)) (action : α) :
    due kind (steps ++ [.register action]) = due kind steps := by
  funext e
  simp only [due, callsSince, callsSinceFrom_snoc, callsSinceFrom, List.append_nil]

theorem due_new (kind : ActionKind α) (steps : List (ManagerStep α)) (action : α) :
    due kind steps ((registrations steps).length, action) = true := by
  have hnew : callsSince steps (registrations steps).length = [] :=
    callsSinceFrom_new steps (by rw [registrations, Nat.zero_add])
  rw [due, hnew]
  split <;> rfl

/-- A call leaves due what was due and mandatory, and failed. -/
theorem due_cleanup (kind : ActionKind α) {steps : List (ManagerStep α)}
    (outcome : Numbered α → ExecuteOutcome) {e : Numbered α} (he : e ∈ registrations steps) :
    due kind (steps ++ [.cleanup outcome]) e =
      (due kind steps e && failsIn (numberedKind kind) outcome e) := by
  have hlt : e.1 < 0 + (registrationsFrom 0 steps).length := by
    rw [Nat.zero_add]
    exact number_lt he
  have hcalls : callsSince (steps ++ [.cleanup outcome]) e.1 = callsSince steps e.1 ++ [outcome] := by
    simp only [callsSince, callsSinceFrom_snoc, callsSinceFrom, if_pos hlt]
  rw [due, due, hcalls]
  cases hm : kind.mandatory e.2 with
  | true => simp [failsIn, numberedKind, hm]
  | false => simp [failsIn, numberedKind, hm]

/-- **The list a manager holds** is the actions that are due, as they were registered. -/
theorem run_actions (kind : ActionKind α) (steps : List (ManagerStep α)) :
    (managerRun kind steps).registered = (registrations steps).length ∧
      (managerRun kind steps).actions = (registrations steps).filter (due kind steps) := by
  induction steps using List.reverseRecOn with
  | nil => exact ⟨rfl, rfl⟩
  | append_singleton steps step ih =>
    obtain ⟨hnumber, hactions⟩ := ih
    have hregs : registrations (steps ++ [step]) = registrations steps
        ++ registrationsFrom (registrations steps).length [step] := by
      have h := registrationsFrom_snoc 0 steps step
      rwa [Nat.zero_add] at h
    rw [managerRun, List.foldl_append, List.foldl_cons, List.foldl_nil, ← managerRun, hregs]
    cases step with
    | register action =>
      refine ⟨?_, ?_⟩
      · rw [managerStep, hnumber, registrationsFrom, registrationsFrom, List.length_append,
          List.length_singleton]
      · rw [managerStep, hactions, hnumber, registrationsFrom, registrationsFrom, List.filter_append]
        rw [due_register, List.filter_singleton, due_new]
        rfl
    | cleanup outcome =>
      rw [registrationsFrom, registrationsFrom, List.append_nil]
      refine ⟨hnumber, ?_⟩
      rw [managerStep, cleanupActions_eq, hactions, List.filter_filter]
      refine List.filter_congr fun e he => ?_
      rw [due_cleanup kind outcome he, Bool.and_comm]

/-! ## The result -/

/-- What a call does after `steps`. -/
structure CallSpec (kind : ActionKind α) (steps : List (ManagerStep α))
    (outcome : Numbered α → ExecuteOutcome) (call : CleanupCall (Numbered α)) : Prop where
  /-- No action is executed twice in the call, and none that was not registered. -/
  once : call.executed.Nodup
  registered : ∀ e ∈ call.executed, e ∈ registrations steps
  /-- A mandatory action is executed unless it has succeeded before. -/
  mandatory : ∀ e ∈ registrations steps, kind.mandatory e.2 = true →
    (e ∈ call.executed ↔ ∀ earlier ∈ callsSince steps e.1, succeeds (earlier e) = false)
  /-- A best-effort action is executed in the first call after its registration. -/
  bestEffort : ∀ e ∈ registrations steps, kind.mandatory e.2 = false →
    (e ∈ call.executed ↔ callsSince steps e.1 = [])
  /-- The order is the reverse of that of the registrations. -/
  reversed : call.executed.reverse.Sublist (registrations steps)
  /-- What is kept are the mandatory actions that failed, in the order they were held in. -/
  kept : call.actions =
    (managerRun kind steps).actions.filter fun e => kind.mandatory e.2 && !succeeds (outcome e)
  /-- The error, if there is one, lists them as they were executed. -/
  error : call.teardownError =
    if call.actions = [] then none
    else some ((call.executed.filter fun e => kind.mandatory e.2 && !succeeds (outcome e)).map
      (failureOf (numberedKind kind) outcome))

/-- **Retention.** For actions of any kind, however registrations and calls of `cleanup` alternate,
    and whatever the actions do in each call: the next call executes each mandatory action that has
    not succeeded yet and each best-effort action that has not been executed yet, once, the last
    registered first; it keeps the mandatory ones that failed, in their order, and raises a
    `TeardownError` that lists them if there are any. -/
theorem cleanup_retention (kind : ActionKind α) (steps : List (ManagerStep α))
    (outcome : Numbered α → ExecuteOutcome) :
    CallSpec kind steps outcome
      (cleanupActions (numberedKind kind) outcome (managerRun kind steps).actions) := by
  have hactions := (run_actions kind steps).2
  have hmem : ∀ e, e ∈ (managerRun kind steps).actions.reverse ↔
      e ∈ registrations steps ∧ due kind steps e = true := by
    intro e
    rw [List.mem_reverse, hactions, List.mem_filter]
  rw [cleanupActions_eq]
  refine ⟨?_, ?_, ?_, ?_, ?_, rfl, rfl⟩
  · rw [List.nodup_reverse, hactions]
    exact (registrations_nodup steps).filter _
  · exact fun e he => ((hmem e).mp he).1
  · intro e he hm
    rw [hmem, and_iff_right he, due, if_pos hm, List.all_eq_true]
    simp only [Bool.not_eq_true']
  · intro e he hm
    rw [hmem, and_iff_right he, due, if_neg (by simp [hm]), List.isEmpty_iff]
  · rw [List.reverse_reverse, hactions]
    exact List.filter_sublist

end Proof
end CeforeEmu
