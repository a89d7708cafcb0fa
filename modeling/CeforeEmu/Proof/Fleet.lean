import CeforeEmu.Runtime.HostApps

/-!
# The fleet: shutdown leaves no orphan, restarts may lose applications

Two results about `HostAppFleet`, one for each of its two callers.

**Shutdown.** At every point between two lock sections, a process that was started and
whose stop was never confirmed is in `_launches` (`Covered`). It is the only invariant the
interleavings need: `restart_host` takes records out and puts some of them back inside one
section, so nothing in between is visible, and after `_stopping` is set no section starts
anything. `stop_all`'s snapshot is then complete, and a second invariant (`Attempted`)
follows the snapshot to the end of the sweep.

**Restart.** The same bookkeeping, read the other way, is why a restart can report
success with applications missing: a section that stops some launches and fails on others,
or that starts some and fails on the next, leaves fewer records for the host, and the next
call works from those. `fullyRunning_iff_lossless` says exactly which histories are harmless.
-/

set_option autoImplicit false

namespace CeforeEmu
namespace Proof

open CeforeEmu.Lib CeforeEmu.Core CeforeEmu.Runtime

/-! ## Reading the log of runner calls -/

/-- The process a call started. -/
def startedBy : RunnerCall → Option Nat
  | .start _ _ _ _ handle => handle
  | .wait _ _ _ => none

/-- The processes started, in order. -/
def started (calls : List RunnerCall) : List Nat := calls.filterMap startedBy

/-- Some stop attempt on the process has returned. -/
def Confirmed (calls : List RunnerCall) (handle : Nat) : Prop :=
  ∃ context, RunnerCall.wait handle context true ∈ calls

/-- The process runs as far as the fleet can know. -/
def Alive (calls : List RunnerCall) (handle : Nat) : Prop :=
  handle ∈ started calls ∧ ¬ Confirmed calls handle

@[simp] theorem started_append (calls calls' : List RunnerCall) :
    started (calls ++ calls') = started calls ++ started calls' :=
  List.filterMap_append ..

theorem Confirmed.append {calls : List RunnerCall} {handle : Nat} (h : Confirmed calls handle)
    (calls' : List RunnerCall) : Confirmed (calls ++ calls') handle := by
  obtain ⟨context, hc⟩ := h
  exact ⟨context, List.mem_append_left _ hc⟩

theorem confirmed_append_iff {calls calls' : List RunnerCall} {handle : Nat} :
    Confirmed (calls ++ calls') handle ↔ Confirmed calls handle ∨ Confirmed calls' handle := by
  constructor
  · rintro ⟨context, hc⟩
    rcases List.mem_append.mp hc with hc | hc
    · exact Or.inl ⟨context, hc⟩
    · exact Or.inr ⟨context, hc⟩
  · rintro (h | ⟨context, hc⟩)
    · exact h.append calls'
    · exact ⟨context, List.mem_append_right _ hc⟩

/-! ## What the two loops do -/

/-- The launches whose stop could not be confirmed. -/
def unstopped : List Launch → List Bool → List Launch
  | [], _ => []
  | launch :: rest, answers =>
      if nextAnswer answers then unstopped rest answers.tail
      else launch :: unstopped rest answers.tail

/-- The waits of the stop loop. -/
def stopWaits : List Launch → List Bool → List RunnerCall
  | [], _ => []
  | launch :: rest, answers =>
      .wait launch.handle .restart (nextAnswer answers) :: stopWaits rest answers.tail

/-- **The stop loop** only waits. -/
theorem stopEach_eq :
    ∀ (mine : List Launch) (answers : List Bool) (s : FleetState),
      stopEach mine answers s
        = ({ s with calls := s.calls ++ stopWaits mine answers }, unstopped mine answers)
  | [], _, s => by simp [stopEach, stopWaits, unstopped]
  | launch :: rest, answers, s => by
    simp only [stopEach, stopEach_eq rest, stopOneLaunch, stopWaits, unstopped,
      List.append_assoc, List.singleton_append]

@[simp] theorem started_stopWaits :
    ∀ (mine : List Launch) (answers : List Bool), started (stopWaits mine answers) = []
  | [], _ => rfl
  | _ :: rest, answers => started_stopWaits rest answers.tail

/-- Each launch is confirmed stopped or among the unstopped. -/
theorem unstopped_or_confirmed :
    ∀ (mine : List Launch) (answers : List Bool), ∀ l ∈ mine,
      l ∈ unstopped mine answers ∨ Confirmed (stopWaits mine answers) l.handle
  | [], _, _, hl => absurd hl List.not_mem_nil
  | launch :: rest, answers, l, hl => by
    rw [unstopped, stopWaits]
    rcases List.mem_cons.mp hl with rfl | hl
    · cases hok : nextAnswer answers with
      | true => exact Or.inr ⟨.restart, List.mem_cons_self⟩
      | false => exact Or.inl (by simp)
    · rcases unstopped_or_confirmed rest answers.tail l hl with hu | ⟨context, hc⟩
      · refine Or.inl ?_
        split
        · exact hu
        · exact List.mem_cons_of_mem _ hu
      · exact Or.inr ⟨context, List.mem_cons_of_mem _ hc⟩

/-- Nothing started and unconfirmed is outside `_launches`. -/
def Covered (s : FleetState) : Prop :=
  ∀ handle, Alive s.calls handle → ∃ l ∈ s.launches, l.handle = handle

theorem covered_startLaunch {s : FleetState} (hs : Covered s) (e : Expanded) (life : Nat)
    (ok : Bool) : Covered (startLaunch s e life ok) := by
  intro handle ⟨hst, hnc⟩
  cases ok with
  | false =>
    have hold : Alive s.calls handle := by
      refine ⟨?_, fun hc => hnc (hc.append _)⟩
      simpa [startLaunch, started, startedBy] using hst
    exact hs handle hold
  | true =>
    simp only [startLaunch, if_true, started_append, List.mem_append] at hst
    rcases hst with hst | hst
    · obtain ⟨l, hl, hh⟩ := hs handle ⟨hst, fun hc => hnc (hc.append _)⟩
      exact ⟨l, by simp [startLaunch, hl], hh⟩
    · refine ⟨{ e with life := life, handle := s.nextHandle }, by simp [startLaunch], ?_⟩
      simpa [started, startedBy, eq_comm] using hst

theorem covered_startEach :
    ∀ (todo : List (Expanded × Nat)) (answers : List Bool) (s : FleetState), Covered s →
      Covered (startEach todo answers s).1
  | [], _, _, hs => hs
  | (e, life) :: rest, answers, s, hs => by
    rw [startEach]
    split
    · exact covered_startEach rest answers.tail _ (covered_startLaunch hs e life true)
    · exact covered_startLaunch hs e life false

theorem startEach_stopping :
    ∀ (todo : List (Expanded × Nat)) (answers : List Bool) (s : FleetState),
      (startEach todo answers s).1.stopping = s.stopping
  | [], _, _ => rfl
  | (e, life) :: rest, answers, s => by
    rw [startEach]
    split
    · rw [startEach_stopping rest answers.tail]
      rfl
    · rfl

theorem covered_startAll (fleet : HostAppFleet) (answers : List Bool) :
    Covered (startAll fleet answers).1 := by
  refine covered_startEach _ _ _ ?_
  intro handle ⟨hst, _⟩
  simp [FleetState.init, started] at hst

/-! ## One lock section at a time -/

/-- The state the first lock section leaves when it gets as far as stopping. -/
def afterStops (s : FleetState) (idx : Nat) (stops : List Bool) : FleetState :=
  { s with launches := (s.launches.filter fun l => l.idx ≠ idx) ++ unstopped (s.mine idx) stops
           calls := s.calls ++ stopWaits (s.mine idx) stops }

/-- **The first lock section**, branch by branch. -/
theorem restartPhase1_eq (fleet : HostAppFleet) {s : FleetState} (hst : s.stopping = false)
    (idx : Nat) (stops : List Bool) :
    restartPhase1 fleet s idx stops =
      match (s.mine idx).findSome? fleet.collision with
      | some collide => (s, .done (.raised (.valueError (collisionMessage idx collide))))
      | none =>
          (afterStops s idx stops,
            if (s.mine idx).isEmpty then .done (.returned false)
            else if (unstopped (s.mine idx) stops).isEmpty then .downtime idx (s.mine idx)
            else .done .stopFailed) := by
  unfold restartPhase1
  rw [if_neg (by simp [hst])]
  cases hc : (s.mine idx).findSome? fleet.collision with
  | some collide => simp only [hc]
  | none =>
    simp only [hc, stopEach_eq, afterStops]
    split
    · rfl
    · split <;> rfl

/-- It leaves the state alone (shutdown, or a log collision), or it waits for the host's
    launches and puts the unstopped ones back. -/
theorem restartPhase1_cases (fleet : HostAppFleet) (s : FleetState) (idx : Nat)
    (stops : List Bool) :
    (restartPhase1 fleet s idx stops).1 = s ∨
      (restartPhase1 fleet s idx stops).1 = afterStops s idx stops := by
  cases hst : s.stopping with
  | true => exact Or.inl (by simp [restartPhase1, hst])
  | false =>
    rw [restartPhase1_eq fleet hst]
    split
    · exact Or.inl rfl
    · exact Or.inr rfl

theorem covered_afterStops {s : FleetState} (hs : Covered s) (idx : Nat) (stops : List Bool) :
    Covered (afterStops s idx stops) := by
  intro handle ⟨hst, hnc⟩
  simp only [afterStops, started_append, started_stopWaits, List.append_nil] at hst
  obtain ⟨l, hl, hh⟩ := hs handle ⟨hst, fun hc => hnc (hc.append _)⟩
  by_cases hidx : l.idx = idx
  · -- a launch of this host: confirmed stopped, or put back
    rcases unstopped_or_confirmed (s.mine idx) stops l (by simp [FleetState.mine, hl, hidx])
      with hu | hc
    · exact ⟨l, List.mem_append_right _ hu, hh⟩
    · exact absurd (confirmed_append_iff.mpr (Or.inr (hh ▸ hc))) hnc
  · exact ⟨l, List.mem_append_left _ (by simp [hl, hidx]), hh⟩

theorem covered_restartPhase1 (fleet : HostAppFleet) {s : FleetState} (hs : Covered s) (idx : Nat)
    (stops : List Bool) : Covered (restartPhase1 fleet s idx stops).1 := by
  rcases restartPhase1_cases fleet s idx stops with h | h
  · rw [h]
    exact hs
  · rw [h]
    exact covered_afterStops hs idx stops

theorem restartPhase2_eq_of_stopping {s : FleetState} (h : s.stopping = true)
    (mine : List Launch) (starts : List Bool) : (restartPhase2 s mine starts).1 = s := by
  simp [restartPhase2, h]

theorem restartPhase2_fst {s : FleetState} (h : s.stopping = false) (mine : List Launch)
    (starts : List Bool) :
    (restartPhase2 s mine starts).1
      = (startEach (mine.map fun l => (l.toExpanded, l.life + 1)) starts s).1 := by
  simp only [restartPhase2, h, Bool.false_eq_true, if_false]
  split
  · rename_i heq
    rw [heq]
  · rename_i heq
    rw [heq]

theorem covered_restartPhase2 {s : FleetState} (hs : Covered s) (mine : List Launch)
    (starts : List Bool) : Covered (restartPhase2 s mine starts).1 := by
  cases h : s.stopping with
  | true =>
    rw [restartPhase2_eq_of_stopping h]
    exact hs
  | false =>
    rw [restartPhase2_fst h]
    exact covered_startEach _ _ _ hs

theorem covered_stopOneLaunch {s : FleetState} (hs : Covered s) (launch : Launch)
    (context : StopContext) (ok : Bool) : Covered (stopOneLaunch s launch context ok) := by
  intro handle ⟨hst, hnc⟩
  refine hs handle ⟨?_, fun hc => hnc (hc.append _)⟩
  simpa [stopOneLaunch, started, startedBy] using hst

/-! ## Runs of the system -/

/-- What a step does to the fleet: one of the lock sections, one stop attempt of a sweep,
    or nothing. -/
theorem fleetStep_cases {fleet : HostAppFleet} {s t : FleetSystem} {a : FleetAct}
    (h : fleetStep fleet s a = some t) :
    (t.fleet = s.fleet ∧ t.sweeps = s.sweeps) ∨
    (∃ idx stops, t.fleet = (restartPhase1 fleet s.fleet idx stops).1 ∧ t.sweeps = s.sweeps) ∨
    (∃ mine starts, t.fleet = (restartPhase2 s.fleet mine starts).1 ∧ t.sweeps = s.sweeps) ∨
    (t.fleet = { s.fleet with stopping := true } ∧
      t.sweeps = s.sweeps ++ [s.fleet.launches]) ∨
    (∃ call launch rest ok, s.sweeps[call]? = some (launch :: rest) ∧
      t.fleet = stopOneLaunch s.fleet launch .shutdown ok ∧
      t.sweeps = s.sweeps.set call rest) := by
  cases a with
  | callRestart idx =>
    simp only [fleetStep, Option.some.injEq] at h
    subst h
    exact Or.inl ⟨rfl, rfl⟩
  | phase1 call stops =>
    simp only [fleetStep] at h
    split at h <;> simp only [Option.some.injEq, reduceCtorEq] at h
    subst h
    exact Or.inr (Or.inl ⟨_, stops, rfl, rfl⟩)
  | wake call =>
    simp only [fleetStep] at h
    split at h <;> simp only [Option.some.injEq, reduceCtorEq] at h
    subst h
    exact Or.inl ⟨rfl, rfl⟩
  | phase2 call starts =>
    simp only [fleetStep] at h
    split at h <;> simp only [Option.some.injEq, reduceCtorEq] at h
    subst h
    exact Or.inr (Or.inr (Or.inl ⟨_, starts, rfl, rfl⟩))
  | stopAll =>
    simp only [fleetStep, Option.some.injEq] at h
    subst h
    exact Or.inr (Or.inr (Or.inr (Or.inl ⟨rfl, rfl⟩)))
  | sweep call ok =>
    simp only [fleetStep] at h
    split at h <;> simp only [Option.some.injEq, reduceCtorEq] at h
    rename_i launch rest hsw
    subst h
    exact Or.inr (Or.inr (Or.inr (Or.inr ⟨call, launch, rest, ok, hsw, rfl, rfl⟩)))

theorem covered_step {fleet : HostAppFleet} (s : FleetSystem) (a : FleetAct) (t : FleetSystem)
    (hs : Covered s.fleet) (h : fleetStep fleet s a = some t) : Covered t.fleet := by
  rcases fleetStep_cases h with ⟨hf, -⟩ | ⟨idx, stops, hf, -⟩ | ⟨mine, starts, hf, -⟩ |
    ⟨hf, -⟩ | ⟨_, launch, _, ok, -, hf, -⟩
  · rw [hf]
    exact hs
  · rw [hf]
    exact covered_restartPhase1 fleet hs idx stops
  · rw [hf]
    exact covered_restartPhase2 hs mine starts
  · rw [hf]
    exact hs
  · rw [hf]
    exact covered_stopOneLaunch hs launch .shutdown ok

/-- Shutdown has begun, and these are the processes there are. -/
def Closed (handles : List Nat) (s : FleetSystem) : Prop :=
  s.fleet.stopping = true ∧ started s.fleet.calls = handles

theorem closed_step {fleet : HostAppFleet} {handles : List Nat} (s : FleetSystem) (a : FleetAct)
    (t : FleetSystem) (hs : Closed handles s) (h : fleetStep fleet s a = some t) :
    Closed handles t := by
  obtain ⟨hst, hh⟩ := hs
  unfold Closed
  rcases fleetStep_cases h with ⟨hf, -⟩ | ⟨idx, stops, hf, -⟩ | ⟨mine, starts, hf, -⟩ |
    ⟨hf, -⟩ | ⟨_, launch, _, ok, -, hf, -⟩
  · rw [hf]
    exact ⟨hst, hh⟩
  · -- the first section looks at `_stopping` before anything else
    have : (restartPhase1 fleet s.fleet idx stops).1 = s.fleet := by simp [restartPhase1, hst]
    rw [hf, this]
    exact ⟨hst, hh⟩
  · rw [hf, restartPhase2_eq_of_stopping hst]
    exact ⟨hst, hh⟩
  · rw [hf]
    exact ⟨rfl, hh⟩
  · rw [hf]
    refine ⟨hst, ?_⟩
    rw [stopOneLaunch, started_append, hh]
    exact List.append_nil _

theorem startEach_calls :
    ∀ (todo : List (Expanded × Nat)) (answers : List Bool) (s : FleetState),
      ∃ new, (startEach todo answers s).1.calls = s.calls ++ new
  | [], _, _ => ⟨[], by simp [startEach]⟩
  | (e, life) :: rest, answers, s => by
    rw [startEach]
    split
    · obtain ⟨new, hn⟩ := startEach_calls rest answers.tail (startLaunch s e life true)
      exact ⟨_, by rw [hn, startLaunch, if_pos rfl, List.append_assoc]⟩
    · exact ⟨_, by rw [startLaunch, if_neg (by simp)]⟩

/-- The log only grows. -/
theorem calls_step {fleet : HostAppFleet} {s t : FleetSystem} {a : FleetAct}
    (h : fleetStep fleet s a = some t) : ∃ new, t.fleet.calls = s.fleet.calls ++ new := by
  rcases fleetStep_cases h with ⟨hf, -⟩ | ⟨idx, stops, hf, -⟩ | ⟨mine, starts, hf, -⟩ |
    ⟨hf, -⟩ | ⟨_, launch, _, ok, -, hf, -⟩
  · exact ⟨[], by simp [hf]⟩
  · rw [hf]
    rcases restartPhase1_cases fleet s.fleet idx stops with h | h
    · exact ⟨[], by simp [h]⟩
    · exact ⟨_, by rw [h, afterStops]⟩
  · rw [hf]
    cases hst : s.fleet.stopping with
    | true => exact ⟨[], by simp [restartPhase2_eq_of_stopping hst]⟩
    | false =>
      rw [restartPhase2_fst hst]
      exact startEach_calls _ _ _
  · exact ⟨[], by simp [hf]⟩
  · exact ⟨_, by rw [hf, stopOneLaunch]⟩

/-- The sweep of one `stop_all` call: each launch of its snapshot is still on its list, or a
    stop was attempted on it after the log had length `from`. -/
def Attempted (snapshot : List Launch) (call origin : Nat) (s : FleetSystem) : Prop :=
  origin ≤ s.fleet.calls.length ∧
  ∃ todo, s.sweeps[call]? = some todo ∧
    ∀ l ∈ snapshot, l ∈ todo ∨
      ∃ ok, RunnerCall.wait l.handle .shutdown ok ∈ s.fleet.calls.drop origin

theorem attempted_step {fleet : HostAppFleet} {snapshot : List Launch} {call origin : Nat}
    (s : FleetSystem) (a : FleetAct) (t : FleetSystem) (hs : Attempted snapshot call origin s)
    (h : fleetStep fleet s a = some t) : Attempted snapshot call origin t := by
  obtain ⟨hlen, todo, htodo, hall⟩ := hs
  obtain ⟨new, hnew⟩ := calls_step h
  have hdrop : t.fleet.calls.drop origin = s.fleet.calls.drop origin ++ new := by
    rw [hnew, List.drop_append_of_le_length hlen]
  have hlen' : origin ≤ t.fleet.calls.length := by
    rw [hnew, List.length_append]
    omega
  -- a step that leaves this call's list alone keeps every attempt already made
  have keep : t.sweeps[call]? = some todo → Attempted snapshot call origin t := by
    intro htodo'
    refine ⟨hlen', todo, htodo', fun l hl => ?_⟩
    rcases hall l hl with hin | ⟨ok, hok⟩
    · exact Or.inl hin
    · exact Or.inr ⟨ok, by rw [hdrop]; exact List.mem_append_left _ hok⟩
  have hlt : call < s.sweeps.length := (List.getElem?_eq_some_iff.mp htodo).1
  rcases fleetStep_cases h with ⟨-, hsw⟩ | ⟨_, _, -, hsw⟩ | ⟨_, _, -, hsw⟩ |
    ⟨-, hsw⟩ | ⟨call', launch, rest, ok, hcur, hf, hsw⟩
  · exact keep (by rw [hsw]; exact htodo)
  · exact keep (by rw [hsw]; exact htodo)
  · exact keep (by rw [hsw]; exact htodo)
  · exact keep (by rw [hsw, List.getElem?_append_left hlt]; exact htodo)
  · by_cases hc : call' = call
    · subst hc
      obtain rfl : launch :: rest = todo := Option.some.inj (hcur.symm.trans htodo)
      refine ⟨hlen', rest, by rw [hsw, List.getElem?_set_self hlt], fun l hl => ?_⟩
      rcases hall l hl with hin | ⟨ok', hok⟩
      · rcases List.mem_cons.mp hin with rfl | hin
        · refine Or.inr ⟨ok, ?_⟩
          rw [hf, stopOneLaunch, List.drop_append_of_le_length hlen]
          exact List.mem_append_right _ (List.mem_singleton_self _)
        · exact Or.inl hin
      · exact Or.inr ⟨ok', by rw [hdrop]; exact List.mem_append_left _ hok⟩
    · exact keep (by rw [hsw, List.getElem?_set_ne hc]; exact htodo)

/-- A sweep is never blocked: each answer the runner gives takes one launch off its list. -/
theorem sweep_finishes (fleet : HostAppFleet) {call : Nat} :
    ∀ {todo : List Launch} {s : FleetSystem} (answers : List Bool), s.sweeps[call]? = some todo →
      answers.length = todo.length →
      ∃ t, run (fleetStep fleet) s (answers.map (FleetAct.sweep call)) = some t ∧
        t.sweeps[call]? = some []
  | [], s, answers, h, hlen => by
    obtain rfl : answers = [] := List.length_eq_zero_iff.mp hlen
    exact ⟨s, rfl, h⟩
  | launch :: rest, s, answers, h, hlen => by
    cases answers with
    | nil => simp at hlen
    | cons ok answers =>
      have hlt : call < s.sweeps.length := (List.getElem?_eq_some_iff.mp h).1
      have hrest : ({ s with fleet := stopOneLaunch s.fleet launch .shutdown ok
                             sweeps := s.sweeps.set call rest } : FleetSystem).sweeps[call]?
          = some rest := List.getElem?_set_self hlt
      obtain ⟨t, ht, hdone⟩ := sweep_finishes fleet answers hrest (by simpa using hlen)
      refine ⟨t, ?_, hdone⟩
      rw [List.map_cons, run_cons_of_step (by simp only [fleetStep, h]; rfl)]
      exact ht

/-- What shutdown promises in a state `s`. -/
structure NoOrphan (fleet : HostAppFleet) (s : FleetSystem) : Prop where
  /-- What was started and not confirmed stopped is in `_launches`. -/
  tracked : ∀ handle, Alive s.fleet.calls handle → ∃ l ∈ s.fleet.launches, l.handle = handle
  /-- Once `_stopping` is set, no process is started any more. -/
  closed : s.fleet.stopping = true → ∀ later t, run (fleetStep fleet) s later = some t →
    started t.fleet.calls = started s.fleet.calls
  /-- A `stop_all` called now has, at the end of its sweep, attempted a stop on every process
      that is running now, -/
  swept : ∀ later t, run (fleetStep fleet) s (.stopAll :: later) = some t →
    t.sweeps[s.sweeps.length]? = some [] → ∀ handle, Alive s.fleet.calls handle →
      ∃ ok, RunnerCall.wait handle .shutdown ok ∈ t.fleet.calls.drop s.fleet.calls.length
  /-- and the sweep comes to its end whatever the runner answers. -/
  sweepEnds : ∀ later t, run (fleetStep fleet) s (.stopAll :: later) = some t →
    ∃ todo, t.sweeps[s.sweeps.length]? = some todo ∧
      ∀ oks : List Bool, oks.length = todo.length →
        ∃ u, run (fleetStep fleet) t (oks.map (FleetAct.sweep s.sweeps.length)) = some u ∧
          u.sweeps[s.sweeps.length]? = some []

theorem attempted_of_stopAll {fleet : HostAppFleet} {s t : FleetSystem} {later : List FleetAct}
    (h : run (fleetStep fleet) s (.stopAll :: later) = some t) :
    Attempted s.fleet.launches s.sweeps.length s.fleet.calls.length t := by
  obtain ⟨s₁, hs₁, ht⟩ := run_cons_inv h
  simp only [fleetStep, Option.some.injEq] at hs₁
  have hinit : Attempted s.fleet.launches s.sweeps.length s.fleet.calls.length s₁ := by
    subst hs₁
    exact ⟨Nat.le_refl _, s.fleet.launches, by simp, fun l hl => Or.inl hl⟩
  exact run_inv attempted_step hinit ht

/-- **Shutdown leaves no orphan**, in every state any interleaving of restarts and shutdowns
    reaches, with any pattern of start and stop failures, however `start_all` ended. -/
theorem shutdown_leaves_no_orphan {fleet : HostAppFleet} {answers : List Bool}
    {acts : List FleetAct} {s : FleetSystem}
    (h : run (fleetStep fleet) (.started fleet answers) acts = some s) : NoOrphan fleet s := by
  have hcov : Covered s.fleet := run_inv covered_step (covered_startAll fleet answers) h
  constructor
  · exact hcov
  · intro hst later t ht
    have hclosed : Closed (started s.fleet.calls) s := ⟨hst, rfl⟩
    exact (run_inv closed_step hclosed ht).2
  · intro later t ht hdone handle ha
    obtain ⟨-, todo, htodo, hall⟩ := attempted_of_stopAll ht
    obtain rfl : todo = [] := Option.some.inj (htodo.symm.trans hdone)
    obtain ⟨l, hl, rfl⟩ := hcov handle ha
    rcases hall l hl with hin | hok
    · exact absurd hin List.not_mem_nil
    · exact hok
  · intro later t ht
    obtain ⟨-, todo, htodo, -⟩ := attempted_of_stopAll ht
    exact ⟨todo, htodo, fun oks hoks => sweep_finishes fleet oks htodo hoks⟩

/-- Two applications on one host. -/
def twoApps : HostAppFleet where
  cfg := { specs := [⟨.list [0], ["serve"], [], none, some "serve.log"⟩,
                     ⟨.all, ["probe"], [], none, none⟩]
           hostCount := 1
           nodeDirs := [(0, "/h0")]
           ceforeConfDirs := [(0, "/h0")]
           t0Ms := 0
           realpath := id }
  plan := [⟨0, ["serve"], none, some "serve.log"⟩, ⟨0, ["probe"], none, none⟩]
  plan_eq := rfl

/-- A restart is in its downtime when shutdown begins. -/
theorem noOrphan_twoApps :
    ∃ s, run (fleetStep twoApps) (.started twoApps [])
        [.callRestart 0, .phase1 0 [], .stopAll, .wake 0] = some s ∧
      s.fleet.stopping = true ∧ NoOrphan twoApps s :=
  ⟨_, rfl, rfl, shutdown_leaves_no_orphan (show run (fleetStep twoApps) (.started twoApps [])
    [.callRestart 0, .phase1 0 [], .stopAll, .wake 0] = some _ from rfl)⟩

/-! ## What a sequence of restarts keeps -/

/-- One call of `restart_host` and what the runner answers it. -/
structure RestartCall where
  idx : Nat
  stops : List Bool
  starts : List Bool
  deriving DecidableEq, Repr

def restartStep (fleet : HostAppFleet) (s : FleetState) (c : RestartCall) : Option FleetState :=
  some (restartHost fleet s c.idx c.stops c.starts).1

/-- The first `n` answers are all failures. -/
def AllFail (n : Nat) (answers : List Bool) : Prop := ∀ i < n, answers[i]? = some false

/-- None of the first `n` answers is a failure. -/
def AllSucceed (n : Nat) (answers : List Bool) : Prop := ∀ i < n, answers[i]? ≠ some false

theorem nextAnswer_eq_false_iff (answers : List Bool) :
    nextAnswer answers = false ↔ answers[0]? = some false := by
  cases answers with
  | nil => simp [nextAnswer]
  | cons ok answers => simp [nextAnswer]

/-- The first answers are the next one and the first of the rest. -/
theorem forall_answers_succ {P : Option Bool → Prop} {n : Nat} {answers : List Bool} :
    (∀ i < n + 1, P answers[i]?) ↔ P answers[0]? ∧ ∀ i < n, P answers.tail[i]? := by
  rw [Nat.forall_lt_succ_left]
  simp only [List.getElem?_tail]

theorem allFail_succ {n : Nat} {answers : List Bool} :
    AllFail (n + 1) answers ↔ nextAnswer answers = false ∧ AllFail n answers.tail := by
  rw [nextAnswer_eq_false_iff]
  exact forall_answers_succ (P := (· = some false))

theorem allSucceed_succ {n : Nat} {answers : List Bool} :
    AllSucceed (n + 1) answers ↔ nextAnswer answers = true ∧ AllSucceed n answers.tail := by
  rw [← Bool.not_eq_false, nextAnswer_eq_false_iff]
  exact forall_answers_succ (P := (· ≠ some false))

theorem unstopped_sublist :
    ∀ (mine : List Launch) (answers : List Bool), (unstopped mine answers).Sublist mine
  | [], _ => List.Sublist.slnil
  | launch :: rest, answers => by
    rw [unstopped]
    split
    · exact (unstopped_sublist rest answers.tail).cons launch
    · exact (unstopped_sublist rest answers.tail).cons_cons launch

/-- Every stop fails iff everything is put back. -/
theorem allFail_iff :
    ∀ (mine : List Launch) (answers : List Bool),
      AllFail mine.length answers ↔ (unstopped mine answers).length = mine.length
  | [], answers => by simp [AllFail, unstopped]
  | launch :: rest, answers => by
    rw [List.length_cons, allFail_succ, allFail_iff rest answers.tail, unstopped]
    have hle := (unstopped_sublist rest answers.tail).length_le
    cases nextAnswer answers with
    | true =>
      simp only [Bool.true_eq_false, false_and, if_true, false_iff]
      omega
    | false => simp

theorem allSucceed_iff :
    ∀ (mine : List Launch) (answers : List Bool),
      AllSucceed mine.length answers ↔ unstopped mine answers = []
  | [], answers => by simp [AllSucceed, unstopped]
  | launch :: rest, answers => by
    rw [List.length_cons, allSucceed_succ, allSucceed_iff rest answers.tail, unstopped]
    cases nextAnswer answers <;> simp

/-- The records a start loop appends. -/
def launched : List (Expanded × Nat) → List Bool → Nat → List Launch
  | [], _, _ => []
  | (e, life) :: rest, answers, handle =>
      if nextAnswer answers then
        { e with life := life, handle := handle } :: launched rest answers.tail (handle + 1)
      else []

theorem startEach_launches :
    ∀ (todo : List (Expanded × Nat)) (answers : List Bool) (s : FleetState),
      (startEach todo answers s).1.launches = s.launches ++ launched todo answers s.nextHandle
  | [], _, s => by simp [startEach, launched]
  | (e, life) :: rest, answers, s => by
    rw [startEach, launched]
    split
    · rw [startEach_launches rest answers.tail]
      simp [startLaunch]
    · simp [startLaunch]

/-- The start loop comes to its end iff no start fails. -/
theorem startEach_snd_iff :
    ∀ (todo : List (Expanded × Nat)) (answers : List Bool) (s : FleetState),
      (startEach todo answers s).2 = true ↔ AllSucceed todo.length answers
  | [], _, s => by simp [startEach, AllSucceed]
  | (e, life) :: rest, answers, s => by
    rw [startEach, List.length_cons, allSucceed_succ]
    cases nextAnswer answers with
    | true =>
      simp only [if_true, true_and]
      exact startEach_snd_iff rest answers.tail _
    | false => simp

theorem launched_of_allSucceed :
    ∀ {todo : List (Expanded × Nat)} {answers : List Bool} (handle : Nat),
      AllSucceed todo.length answers →
        (launched todo answers handle).map (·.toExpanded) = todo.map (·.1)
  | [], _, _, _ => rfl
  | (e, life) :: rest, answers, handle, h => by
    rw [List.length_cons, allSucceed_succ] at h
    rw [launched, if_pos h.1, List.map_cons, List.map_cons, launched_of_allSucceed _ h.2]

theorem launched_length_le :
    ∀ (todo : List (Expanded × Nat)) (answers : List Bool) (handle : Nat),
      (launched todo answers handle).length ≤ todo.length
  | [], _, _ => Nat.le_refl _
  | (e, life) :: rest, answers, handle => by
    rw [launched]
    split
    · exact Nat.succ_le_succ (launched_length_le rest answers.tail _)
    · exact Nat.zero_le _

theorem launched_length_lt :
    ∀ {todo : List (Expanded × Nat)} {answers : List Bool} (handle : Nat),
      ¬ AllSucceed todo.length answers → (launched todo answers handle).length < todo.length
  | [], answers, _, h => absurd (fun i hi => absurd hi (Nat.not_lt_zero i)) h
  | (e, life) :: rest, answers, handle, h => by
    rw [List.length_cons, allSucceed_succ] at h
    rw [launched]
    cases hok : nextAnswer answers with
    | true =>
      rw [if_pos rfl]
      exact Nat.succ_lt_succ (launched_length_lt _ fun hr => h ⟨hok, hr⟩)
    | false =>
      rw [if_neg (by simp)]
      exact Nat.succ_pos _

theorem launched_idx :
    ∀ {todo : List (Expanded × Nat)} {answers : List Bool} {handle : Nat},
      ∀ l ∈ launched todo answers handle, ∃ p ∈ todo, p.1 = l.toExpanded
  | [], _, _, l, hl => absurd hl List.not_mem_nil
  | (e, life) :: rest, answers, handle, l, hl => by
    rw [launched] at hl
    split at hl
    · rcases List.mem_cons.mp hl with rfl | hl
      · exact ⟨(e, life), List.mem_cons_self, rfl⟩
      · obtain ⟨p, hp, hpe⟩ := launched_idx l hl
        exact ⟨p, List.mem_cons_of_mem _ hp, hpe⟩
    · exact absurd hl List.not_mem_nil

/-! ## The host's launches after one call -/

theorem idx_of_mem_unstopped {s : FleetState} {idx : Nat} {stops : List Bool} {l : Launch}
    (hl : l ∈ unstopped (s.mine idx) stops) : l.idx = idx := by
  have := (unstopped_sublist _ _).subset hl
  simpa [FleetState.mine] using (List.mem_filter.mp this).2

theorem mine_afterStops_self (s : FleetState) (idx : Nat) (stops : List Bool) :
    (afterStops s idx stops).mine idx = unstopped (s.mine idx) stops := by
  simp only [afterStops, FleetState.mine, List.filter_append]
  have h₁ : ((s.launches.filter fun l => l.idx ≠ idx).filter fun l => l.idx = idx) = [] := by
    rw [List.filter_eq_nil_iff]
    intro l hl
    simpa using (List.mem_filter.mp hl).2
  rw [h₁, List.nil_append, List.filter_eq_self]
  intro l hl
  simpa using idx_of_mem_unstopped hl

theorem mine_afterStops_ne (s : FleetState) {idx host : Nat} (h : host ≠ idx)
    (stops : List Bool) : (afterStops s idx stops).mine host = s.mine host := by
  simp only [afterStops, FleetState.mine, List.filter_append]
  have h₁ : ((unstopped (s.mine idx) stops).filter fun l => l.idx = host) = [] := by
    rw [List.filter_eq_nil_iff]
    intro l hl
    simpa [idx_of_mem_unstopped hl] using h.symm
  unfold FleetState.mine at h₁
  rw [h₁, List.append_nil, List.filter_filter]
  refine List.filter_congr fun l _ => ?_
  by_cases hl : l.idx = host
  · simp [hl, h]
  · simp [hl]

/-- The pairs the second lock section starts. -/
def replay (mine : List Launch) : List (Expanded × Nat) :=
  mine.map fun l => (l.toExpanded, l.life + 1)

@[simp] theorem replay_length (mine : List Launch) : (replay mine).length = mine.length :=
  List.length_map _

theorem mine_startEach_self (t : FleetState) {mine : List Launch} {idx : Nat}
    (hmine : ∀ l ∈ mine, l.idx = idx) (starts : List Bool) :
    (startEach (replay mine) starts t).1.mine idx
      = t.mine idx ++ launched (replay mine) starts t.nextHandle := by
  simp only [FleetState.mine, startEach_launches, List.filter_append]
  congr 1
  rw [List.filter_eq_self]
  intro l hl
  obtain ⟨p, hp, hpe⟩ := launched_idx l hl
  obtain ⟨l₀, hl₀, rfl⟩ := List.mem_map.mp hp
  simpa [← hpe] using hmine l₀ hl₀

theorem mine_startEach_ne (t : FleetState) {mine : List Launch} {idx host : Nat}
    (hmine : ∀ l ∈ mine, l.idx = idx) (h : host ≠ idx) (starts : List Bool) :
    (startEach (replay mine) starts t).1.mine host = t.mine host := by
  simp only [FleetState.mine, startEach_launches, List.filter_append]
  have h₁ : ((launched (replay mine) starts t.nextHandle).filter fun l => l.idx = host) = [] := by
    rw [List.filter_eq_nil_iff]
    intro l hl
    obtain ⟨p, hp, hpe⟩ := launched_idx l hl
    obtain ⟨l₀, hl₀, rfl⟩ := List.mem_map.mp hp
    have : l.idx = idx := by rw [← hmine l₀ hl₀]; exact (congrArg Expanded.idx hpe).symm
    simpa [this] using h.symm
  rw [h₁, List.append_nil]

/-- **One call of `restart_host`**, with no shutdown under way. -/
theorem restartHost_cases (fleet : HostAppFleet) {s : FleetState} (hst : s.stopping = false)
    (c : RestartCall) :
    ((s.mine c.idx).findSome? fleet.collision ≠ none ∧
      (restartHost fleet s c.idx c.stops c.starts).1 = s ∧
      (restartHost fleet s c.idx c.stops c.starts).2 ≠ .returned true) ∨
    ((s.mine c.idx).findSome? fleet.collision = none ∧
      (s.mine c.idx = [] ∨ ¬ AllSucceed (s.mine c.idx).length c.stops) ∧
      (restartHost fleet s c.idx c.stops c.starts).1 = afterStops s c.idx c.stops ∧
      (restartHost fleet s c.idx c.stops c.starts).2 ≠ .returned true) ∨
    ((s.mine c.idx).findSome? fleet.collision = none ∧
      AllSucceed (s.mine c.idx).length c.stops ∧
      (restartHost fleet s c.idx c.stops c.starts).1
        = (startEach (replay (s.mine c.idx)) c.starts (afterStops s c.idx c.stops)).1 ∧
      ((restartHost fleet s c.idx c.stops c.starts).2 = .returned true ↔
        AllSucceed (s.mine c.idx).length c.starts)) := by
  unfold restartHost
  rw [restartPhase1_eq fleet hst]
  cases hc : (s.mine c.idx).findSome? fleet.collision with
  | some collide => exact Or.inl ⟨by simp, rfl, by simp⟩
  | none =>
    refine Or.inr ?_
    by_cases hm : s.mine c.idx = []
    · exact Or.inl ⟨rfl, Or.inl hm, by simp [hm], by simp [hm]⟩
    · by_cases hu : unstopped (s.mine c.idx) c.stops = []
      · refine Or.inr ⟨rfl, (allSucceed_iff _ _).mpr hu, ?_⟩
        have hst' : (afterStops s c.idx c.stops).stopping = false := hst
        simp only [List.isEmpty_eq_false_iff.mpr hm, hu, List.isEmpty_nil, if_true,
          Bool.false_eq_true, if_false]
        refine ⟨restartPhase2_fst hst' _ _, ?_⟩
        rw [← replay_length, ← startEach_snd_iff _ _ (afterStops s c.idx c.stops), restartPhase2,
          if_neg (by simp [hst'])]
        unfold replay
        split
        · rename_i heq
          simp [heq]
        · rename_i heq
          simp [heq]
      · refine Or.inl ⟨rfl, Or.inr fun hs => hu ((allSucceed_iff _ _).mp hs), ?_, ?_⟩
        · simp [hm, hu]
        · simp [hm, hu]

/-! ## Tracked launches are running processes -/

/-- With no shutdown, a record in `_launches` is a process that runs: started, never
    confirmed stopped, and no two records are about the same one. -/
structure Sound (s : FleetState) : Prop where
  notStopping : s.stopping = false
  nodup : (s.launches.map (·.handle)).Nodup
  alive : ∀ l ∈ s.launches, Alive s.calls l.handle
  fresh : ∀ handle, handle ∈ started s.calls ∨ Confirmed s.calls handle → handle < s.nextHandle

theorem Sound.startLaunch {s : FleetState} (hs : Sound s) (e : Expanded) (life : Nat) (ok : Bool) :
    Sound (startLaunch s e life ok) := by
  cases ok with
  | false =>
    have hconf : ∀ handle, Confirmed (Runtime.startLaunch s e life false).calls handle →
        Confirmed s.calls handle := by
      rintro handle ⟨context, hc⟩
      exact ⟨context, by simpa [Runtime.startLaunch] using hc⟩
    have hst : started (Runtime.startLaunch s e life false).calls = started s.calls := by
      simp [Runtime.startLaunch, started, startedBy]
    refine ⟨hs.notStopping, hs.nodup, fun l hl => ?_, fun handle h => ?_⟩
    · exact ⟨hst ▸ (hs.alive l hl).1, fun hc => (hs.alive l hl).2 (hconf _ hc)⟩
    · rw [hst] at h
      exact hs.fresh handle (h.imp_right (hconf handle))
  | true =>
    have hconf : ∀ handle, Confirmed (Runtime.startLaunch s e life true).calls handle →
        Confirmed s.calls handle := by
      rintro handle ⟨context, hc⟩
      exact ⟨context, by simpa [Runtime.startLaunch] using hc⟩
    have hst : started (Runtime.startLaunch s e life true).calls
        = started s.calls ++ [s.nextHandle] := by
      simp [Runtime.startLaunch, started, startedBy]
    refine ⟨hs.notStopping, ?_, fun l hl => ?_, fun handle h => ?_⟩
    · -- the new handle is above every handle in use
      simp only [Runtime.startLaunch, if_true, List.map_append, List.map_cons, List.map_nil]
      refine List.nodup_append.mpr ⟨hs.nodup, List.nodup_singleton _, ?_⟩
      intro a ha b hb
      obtain ⟨l, hl, rfl⟩ := List.mem_map.mp ha
      rw [List.mem_singleton.mp hb]
      exact Nat.ne_of_lt (hs.fresh _ (Or.inl (hs.alive l hl).1))
    · simp only [Runtime.startLaunch, if_true, List.mem_append, List.mem_singleton] at hl
      rcases hl with hl | rfl
      · exact ⟨by rw [hst]; exact List.mem_append_left _ (hs.alive l hl).1,
          fun hc => (hs.alive l hl).2 (hconf _ hc)⟩
      · exact ⟨by rw [hst]; exact List.mem_append_right _ (List.mem_singleton_self _),
          fun hc => Nat.lt_irrefl _ (hs.fresh _ (Or.inr (hconf _ hc)))⟩
    · rw [hst] at h
      simp only [Runtime.startLaunch, if_true]
      rcases h with h | h
      · rcases List.mem_append.mp h with h | h
        · exact Nat.lt_succ_of_lt (hs.fresh handle (Or.inl h))
        · rw [List.mem_singleton.mp h]
          exact Nat.lt_succ_self _
      · exact Nat.lt_succ_of_lt (hs.fresh handle (Or.inr (hconf handle h)))

theorem Sound.startEach :
    ∀ {s : FleetState}, Sound s → ∀ (todo : List (Expanded × Nat)) (answers : List Bool),
      Sound (startEach todo answers s).1
  | _, hs, [], _ => hs
  | _, hs, (e, life) :: rest, answers => by
    rw [Runtime.startEach]
    split
    · exact Sound.startEach (hs.startLaunch e life true) rest answers.tail
    · exact hs.startLaunch e life false

/-- A stop the loop has confirmed is one of a launch that is not put back. -/
theorem confirmed_stopWaits :
    ∀ {mine : List Launch} {answers : List Bool} {handle : Nat},
      (mine.map (·.handle)).Nodup → Confirmed (stopWaits mine answers) handle →
        handle ∈ mine.map (·.handle) ∧ handle ∉ (unstopped mine answers).map (·.handle)
  | [], _, _, _, ⟨_, hc⟩ => absurd hc List.not_mem_nil
  | launch :: rest, answers, handle, hnd, ⟨context, hc⟩ => by
    rw [List.map_cons, List.nodup_cons] at hnd
    rw [stopWaits] at hc
    rw [unstopped]
    rcases List.mem_cons.mp hc with heq | hc
    · simp only [RunnerCall.wait.injEq] at heq
      obtain ⟨rfl, -, hok⟩ := heq
      refine ⟨by simp, ?_⟩
      rw [if_pos hok.symm]
      exact fun hin => hnd.1 (((unstopped_sublist rest answers.tail).map _).subset hin)
    · obtain ⟨hin, hnot⟩ := confirmed_stopWaits hnd.2 ⟨context, hc⟩
      refine ⟨List.mem_cons_of_mem _ hin, ?_⟩
      split
      · exact hnot
      · rw [List.map_cons, List.mem_cons]
        rintro (rfl | hin')
        · exact hnd.1 hin
        · exact hnot hin'

theorem filter_append_perm {s : FleetState} (idx : Nat) :
    ((s.launches.filter fun l => l.idx ≠ idx) ++ s.mine idx).Perm s.launches := by
  refine (List.perm_append_comm).trans ?_
  simpa [FleetState.mine] using List.filter_append_perm (fun l : Launch => l.idx = idx) s.launches

theorem Sound.afterStops {s : FleetState} (hs : Sound s) (idx : Nat) (stops : List Bool) :
    Sound (afterStops s idx stops) := by
  have hnd : (((s.launches.filter fun l => l.idx ≠ idx) ++ s.mine idx).map (·.handle)).Nodup :=
    ((filter_append_perm idx).map _).nodup_iff.mpr hs.nodup
  rw [List.map_append] at hnd
  obtain ⟨hnd₁, hnd₂, hdisj⟩ := List.nodup_append.mp hnd
  have hsub := (unstopped_sublist (s.mine idx) stops).map (·.handle)
  have hst : started (Proof.afterStops s idx stops).calls = started s.calls := by
    simp [Proof.afterStops]
  refine ⟨hs.notStopping, ?_, fun l hl => ?_, fun handle h => ?_⟩
  · simp only [Proof.afterStops, List.map_append]
    exact List.nodup_append.mpr ⟨hnd₁, hnd₂.sublist hsub, fun a ha b hb => hdisj a ha b (hsub.subset hb)⟩
  · have hold : l ∈ s.launches := by
      rcases List.mem_append.mp hl with hl | hl
      · exact (List.mem_filter.mp hl).1
      · exact (List.mem_filter.mp ((unstopped_sublist _ _).subset hl)).1
    refine ⟨hst ▸ (hs.alive l hold).1, fun hc => ?_⟩
    rcases confirmed_append_iff.mp hc with hc | hc
    · exact (hs.alive l hold).2 hc
    · obtain ⟨hin, hnot⟩ := confirmed_stopWaits hnd₂ hc
      rcases List.mem_append.mp hl with hl | hl
      · exact hdisj _ (List.mem_map_of_mem hl) _ hin rfl
      · exact hnot (List.mem_map_of_mem hl)
  · rw [hst] at h
    rcases h with h | hc
    · exact hs.fresh handle (Or.inl h)
    · rcases confirmed_append_iff.mp hc with hc | hc
      · exact hs.fresh handle (Or.inr hc)
      · obtain ⟨l, hl, rfl⟩ := List.mem_map.mp (confirmed_stopWaits hnd₂ hc).1
        exact hs.fresh _ (Or.inl (hs.alive l (List.mem_filter.mp hl).1).1)

theorem Sound.restartHost (fleet : HostAppFleet) {s : FleetState} (hs : Sound s)
    (c : RestartCall) : Sound (restartHost fleet s c.idx c.stops c.starts).1 := by
  rcases restartHost_cases fleet hs.notStopping c with ⟨-, h, -⟩ | ⟨-, -, h, -⟩ | ⟨-, -, h, -⟩
  · rw [h]
    exact hs
  · rw [h]
    exact hs.afterStops c.idx c.stops
  · rw [h]
    exact (hs.afterStops c.idx c.stops).startEach _ _

theorem sound_init : Sound .init :=
  ⟨rfl, List.nodup_nil, fun _ hl => absurd hl List.not_mem_nil, fun _ h => by
    rcases h with h | ⟨_, hc⟩
    · exact absurd h List.not_mem_nil
    · exact absurd hc List.not_mem_nil⟩

/-! ## Which histories keep every application -/

/-- What the configuration has for a host. -/
def configured (fleet : HostAppFleet) (host : Nat) : List Expanded :=
  fleet.plan.filter fun e => e.idx = host

/-- One tracked launch for each configured (entry, host) pair, counted with multiplicity. -/
def Full (fleet : HostAppFleet) (host : Nat) (s : FleetState) : Prop :=
  ((s.mine host).map (·.toExpanded)).Perm (configured fleet host)

/-- Fewer tracked launches than configured pairs. -/
def Short (fleet : HostAppFleet) (host : Nat) (s : FleetState) : Prop :=
  (s.mine host).length < (configured fleet host).length

/-- One tracked launch for each configured pair, and each of them a running process. -/
def FullyRunning (fleet : HostAppFleet) (host : Nat) (s : FleetState) : Prop :=
  Full fleet host s ∧ ∀ l ∈ s.mine host, Alive s.calls l.handle

/-- The calls that lose nothing of a host: those on another host, those rejected for a log
    collision, those all of whose stops fail, and those all of whose stops and starts
    succeed. -/
def Lossless (fleet : HostAppFleet) (host : Nat) (s : FleetState) (c : RestartCall) : Prop :=
  c.idx ≠ host ∨ (s.mine host).findSome? fleet.collision ≠ none ∨
    AllFail (s.mine host).length c.stops ∨
    AllSucceed (s.mine host).length c.stops ∧ AllSucceed (s.mine host).length c.starts

theorem idx_of_mem_mine {s : FleetState} {idx : Nat} : ∀ l ∈ s.mine idx, l.idx = idx :=
  fun _ hl => by simpa using (List.mem_filter.mp hl).2

/-- **What one call does to one host's launches**: they keep their expansions, or there are
    fewer of them; and they keep them exactly when the call is lossless. -/
theorem mine_restartHost (fleet : HostAppFleet) {s : FleetState} (hst : s.stopping = false)
    (host : Nat) (c : RestartCall) :
    (Lossless fleet host s c →
      (((restartHost fleet s c.idx c.stops c.starts).1.mine host).map (·.toExpanded)
        = (s.mine host).map (·.toExpanded))) ∧
    (¬ Lossless fleet host s c →
      ((restartHost fleet s c.idx c.stops c.starts).1.mine host).length
        < (s.mine host).length) := by
  by_cases hidx : c.idx = host
  · subst hidx
    rcases restartHost_cases fleet hst c with ⟨hc, h, -⟩ | ⟨hc, hstop, h, -⟩ | ⟨hc, hstop, h, -⟩
    · rw [h]
      exact ⟨fun _ => rfl, fun hl => absurd (Or.inr (Or.inl hc)) hl⟩
    · -- some stop failed (or there was nothing to stop): the unstopped ones are left
      rw [h, mine_afterStops_self]
      have hle := (unstopped_sublist (s.mine c.idx) c.stops).length_le
      refine ⟨fun hl => ?_, fun hl => ?_⟩
      · have hfail : (unstopped (s.mine c.idx) c.stops).length = (s.mine c.idx).length := by
          rcases hl with hl | hl | hl | ⟨hl, -⟩
          · exact absurd rfl hl
          · exact absurd hc hl
          · exact (allFail_iff _ _).mp hl
          · rcases hstop with hnil | hstop
            · simp [hnil, unstopped]
            · exact absurd hl hstop
        rw [(unstopped_sublist _ _).eq_of_length hfail]
      · refine Nat.lt_of_le_of_ne hle fun heq => hl ?_
        exact Or.inr (Or.inr (Or.inl ((allFail_iff _ _).mpr heq)))
    · -- every stop was confirmed: what is left is what was started again
      rw [h, mine_startEach_self _ idx_of_mem_mine, mine_afterStops_self,
        (allSucceed_iff _ _).mp hstop, List.nil_append]
      refine ⟨fun hl => ?_, fun hl => ?_⟩
      · have hstart : AllSucceed (replay (s.mine c.idx)).length c.starts := by
          rw [replay_length]
          rcases hl with hl | hl | hl | ⟨-, hl⟩
          · exact absurd rfl hl
          · exact absurd hc hl
          · -- every stop both failed and was confirmed: there was none
            rw [allFail_iff, (allSucceed_iff _ _).mp hstop] at hl
            rw [← hl]
            exact fun i hi => absurd hi (Nat.not_lt_zero i)
          · exact hl
        rw [launched_of_allSucceed _ hstart, replay, List.map_map]
        rfl
      · have hstart : ¬ AllSucceed (replay (s.mine c.idx)).length c.starts := by
          rw [replay_length]
          exact fun hs => hl (Or.inr (Or.inr (Or.inr ⟨hstop, hs⟩)))
        simpa using launched_length_lt (afterStops s c.idx c.stops).nextHandle hstart
  · -- another host's call does not touch this host's launches
    have hmine : (restartHost fleet s c.idx c.stops c.starts).1.mine host = s.mine host := by
      have hne : host ≠ c.idx := fun h => hidx h.symm
      rcases restartHost_cases fleet hst c with ⟨-, h, -⟩ | ⟨-, -, h, -⟩ | ⟨-, -, h, -⟩
      · rw [h]
      · rw [h, mine_afterStops_ne s hne]
      · rw [h, mine_startEach_ne _ idx_of_mem_mine hne, mine_afterStops_ne s hne]
    rw [hmine]
    exact ⟨fun _ => rfl, fun hl => absurd (Or.inl hidx) hl⟩

/-- A call that returns `True` on a host has lost nothing of it. -/
theorem lossless_of_returned_true (fleet : HostAppFleet) {s : FleetState}
    (hst : s.stopping = false) (c : RestartCall)
    (h : (restartHost fleet s c.idx c.stops c.starts).2 = .returned true) :
    Lossless fleet c.idx s c := by
  rcases restartHost_cases fleet hst c with ⟨-, -, hr⟩ | ⟨-, -, -, hr⟩ | ⟨-, hstop, -, hr⟩
  · exact absurd h hr
  · exact absurd h hr
  · exact Or.inr (Or.inr (Or.inr ⟨hstop, hr.mp h⟩))

/-- What the calls keep whatever fails: sound records, and no more than the configuration. -/
def Bounded (fleet : HostAppFleet) (host : Nat) (s : FleetState) : Prop :=
  Sound s ∧ (s.mine host).length ≤ (configured fleet host).length

theorem mine_length_restartHost_le (fleet : HostAppFleet) {s : FleetState}
    (hst : s.stopping = false) (host : Nat) (c : RestartCall) :
    ((restartHost fleet s c.idx c.stops c.starts).1.mine host).length ≤ (s.mine host).length := by
  obtain ⟨hkeep, hlose⟩ := mine_restartHost fleet hst host c
  by_cases hl : Lossless fleet host s c
  · simpa using Nat.le_of_eq (congrArg List.length (hkeep hl))
  · exact Nat.le_of_lt (hlose hl)

theorem bounded_step {fleet : HostAppFleet} {host : Nat} (s : FleetState) (c : RestartCall)
    (s' : FleetState) (hs : Bounded fleet host s) (h : restartStep fleet s c = some s') :
    Bounded fleet host s' := by
  obtain rfl := Option.some.inj h
  have := mine_length_restartHost_le fleet hs.1.notStopping host c
  exact ⟨hs.1.restartHost fleet c, Nat.le_trans this hs.2⟩

theorem short_step {fleet : HostAppFleet} {host : Nat} (s : FleetState) (c : RestartCall)
    (s' : FleetState) (hs : Bounded fleet host s ∧ Short fleet host s)
    (h : restartStep fleet s c = some s') : Bounded fleet host s' ∧ Short fleet host s' := by
  refine ⟨bounded_step s c s' hs.1 h, ?_⟩
  obtain rfl := Option.some.inj h
  exact Nat.lt_of_le_of_lt (mine_length_restartHost_le fleet hs.1.1.notStopping host c) hs.2

theorem short_of_lossy {fleet : HostAppFleet} {host : Nat} (s : FleetState) (c : RestartCall)
    (s' : FleetState) (hs : Bounded fleet host s) (hl : ¬ Lossless fleet host s c)
    (h : restartStep fleet s c = some s') : Short fleet host s' := by
  obtain rfl := Option.some.inj h
  exact Nat.lt_of_lt_of_le ((mine_restartHost fleet hs.1.notStopping host c).2 hl) hs.2

theorem full_step {fleet : HostAppFleet} {host : Nat} (s : FleetState) (c : RestartCall)
    (s' : FleetState) (hs : Sound s ∧ Full fleet host s) (hl : Lossless fleet host s c)
    (h : restartStep fleet s c = some s') : Sound s' ∧ Full fleet host s' := by
  obtain rfl := Option.some.inj h
  refine ⟨hs.1.restartHost fleet c, ?_⟩
  unfold Full
  rw [(mine_restartHost fleet hs.1.notStopping host c).1 hl]
  exact hs.2

/-- `start_all` without a failure tracks the whole plan. -/
theorem full_startAll {fleet : HostAppFleet} {answers : List Bool}
    (h : (startAll fleet answers).2 = true) (host : Nat) :
    Full fleet host (startAll fleet answers).1 := by
  have hs := launched_of_allSucceed 0 ((startEach_snd_iff _ _ _).mp h)
  rw [List.map_map, show ((fun p : Expanded × Nat => p.1) ∘ fun e => (e, 1)) = id from rfl,
    List.map_id] at hs
  unfold Full configured
  rw [← hs, startAll, FleetState.mine, startEach_launches, List.filter_map]
  exact List.Perm.refl _

/-- **A restart that reports success**, after `start_all` without failure and any history of
    calls on any hosts: all of the host's configured applications are tracked and running
    **iff** every call of the history was lossless for the host, in the state it found. -/
theorem fullyRunning_iff_lossless {fleet : HostAppFleet} {answers : List Bool}
    (hstart : (startAll fleet answers).2 = true) {history : List RestartCall} {s : FleetState}
    (hrun : run (restartStep fleet) (startAll fleet answers).1 history = some s)
    {c : RestartCall} (hret : (restartHost fleet s c.idx c.stops c.starts).2 = .returned true) :
    FullyRunning fleet c.idx (restartHost fleet s c.idx c.stops c.starts).1 ↔
      Meets (restartStep fleet) (Lossless fleet c.idx) (startAll fleet answers).1 history := by
  have hsound₀ : Sound (startAll fleet answers).1 := sound_init.startEach _ _
  have hfull₀ := full_startAll hstart c.idx
  have hbounded₀ : Bounded fleet c.idx (startAll fleet answers).1 :=
    ⟨hsound₀, by simpa using Nat.le_of_eq hfull₀.length_eq⟩
  have hbounded : Bounded fleet c.idx s := run_inv bounded_step hbounded₀ hrun
  have hlast := lossless_of_returned_true fleet hbounded.1.notStopping c hret
  constructor
  · intro hfull
    refine meets_of_not_marked bounded_step short_step short_of_lossy hbounded₀ hrun ?_
    have hlen := hfull.1.length_eq
    rw [(mine_restartHost fleet hbounded.1.notStopping c.idx c).1 hlast, List.length_map] at hlen
    exact fun hshort => Nat.ne_of_lt hshort hlen
  · intro hmeets
    have hs := run_inv_of_meets full_step ⟨hsound₀, hfull₀⟩ hmeets hrun
    obtain ⟨hsound, hfull⟩ := full_step s c _ hs hlast rfl
    exact ⟨hfull, fun l hl => hsound.alive l (List.mem_filter.mp hl).1⟩

/-- A first restart whose stops both fail, then one that succeeds. -/
theorem fullyRunning_twoApps :
    FullyRunning twoApps 0
      (restartHost twoApps (restartHost twoApps (startAll twoApps []).1 0 [false, false] []).1
        0 [] []).1 :=
  (fullyRunning_iff_lossless (show (startAll twoApps []).2 = true from rfl)
    (show run (restartStep twoApps) (startAll twoApps []).1 [⟨0, [false, false], []⟩] = some _
      from rfl) (c := ⟨0, [], []⟩) rfl).mpr
    ⟨Or.inr (Or.inr (Or.inl (by simp only [AllFail]; decide))), fun _ _ => trivial⟩

/-- A first restart stops both applications and fails to start the second one again; the
    next restart returns `True` with that one missing. -/
theorem restart_true_with_app_missing :
    ∃ s s', run (restartStep twoApps) (startAll twoApps []).1 [⟨0, [], [true, false]⟩] = some s ∧
      restartHost twoApps s 0 [] [] = (s', .returned true) ∧
      (s'.mine 0).length = 1 ∧ (configured twoApps 0).length = 2 ∧
      ¬ FullyRunning twoApps 0 s' := by
  refine ⟨_, _, rfl, rfl, rfl, rfl, ?_⟩
  intro h
  exact absurd h.1.length_eq (by decide)

end Proof
end CeforeEmu
