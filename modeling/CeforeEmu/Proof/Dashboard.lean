import Mathlib.Tactic
import CeforeEmu.WebUi.State

/-!
# What the dashboard shows

Two halves. The sink: whatever the order in which the recording threads move, every subscriber is
called with every record once, and with those of one thread in their order. The dashboard: what a
snapshot says is a function of the callbacks so far, of which it keeps only the last ones.
-/

set_option autoImplicit false

namespace CeforeEmu
namespace Proof

open CeforeEmu.Lib CeforeEmu.Runtime CeforeEmu.WebUi

/-! ## The sink -/

/-- What a thread has recorded. -/
def recordsOf (s : SinkState) (thread : ℕ) : List ResultsRecord :=
  (s.records.filter fun e => e.1 = thread).map (·.2)

/-- What a thread has called a subscriber with. -/
def callsOf (s : SinkState) (k thread : ℕ) : List ResultsRecord :=
  (s.calls.filter fun c => c.subscriber = k ∧ c.thread = thread).map (·.record)

/-- What a thread in `_append` is still going to call a subscriber with. -/
def owed (inAppend : Dict ℕ (ResultsRecord × ℕ)) (k thread : ℕ) : List ResultsRecord :=
  match inAppend.get? thread with
  | none => []
  | some (record, next) => if next ≤ k then [record] else []

theorem owed_set (inAppend : Dict ℕ (ResultsRecord × ℕ)) (k thread next t : ℕ)
    (record : ResultsRecord) : owed (inAppend.set thread (record, next)) k t =
      if t = thread then (if next ≤ k then [record] else []) else owed inAppend k t := by
  by_cases ht : t = thread <;> simp [owed, Dict.get?_set, ht]

theorem owed_pop {inAppend : Dict ℕ (ResultsRecord × ℕ)} (h : Dict.NodupKeys inAppend)
    (k thread t : ℕ) :
    owed (inAppend.pop thread) k t = if t = thread then [] else owed inAppend k t := by
  by_cases ht : t = thread <;> simp [owed, h.get?_pop, ht]

/-- The threads in `_append` are at one of the subscribers. -/
structure SinkOk (subscribers : ℕ) (s : SinkState) : Prop where
  keys : Dict.NodupKeys s.inAppend
  next : ∀ thread record next, s.inAppend.get? thread = some (record, next) → next < subscribers

section Sink

variable {subscribers : ℕ} {s s' : SinkState}

theorem SinkOk.step (h : SinkOk subscribers s) {a : SinkAct}
    (hstep : sinkStep subscribers s a = some s') : SinkOk subscribers s' := by
  cases a with
  | append thread record =>
    simp only [sinkStep] at hstep
    split at hstep
    · cases hstep
    · cases hstep
      by_cases hzero : subscribers = 0
      · rw [if_pos hzero]
        exact ⟨h.keys, h.next⟩
      · rw [if_neg hzero]
        refine ⟨h.keys.set _ _, fun t r n hget => ?_⟩
        rw [Dict.get?_set] at hget
        split at hget
        · cases hget
          omega
        · exact h.next t r n hget
  | call thread raised =>
    simp only [sinkStep] at hstep
    split at hstep
    · cases hstep
    · rename_i record k hget
      cases hstep
      split
      · refine ⟨h.keys.pop _, fun t r n hpop => ?_⟩
        rw [h.keys.get?_pop] at hpop
        split at hpop
        · cases hpop
        · exact h.next t r n hpop
      · rename_i hmore
        refine ⟨h.keys.set _ _, fun t r n hset => ?_⟩
        rw [Dict.get?_set] at hset
        split at hset
        · cases hset
          rw [not_or, not_le] at hmore
          exact hmore.2
        · exact h.next t r n hset

/-- Recording. -/
theorem append_books {thread : ℕ} {record : ResultsRecord} {k : ℕ} (hk : k < subscribers)
    (hstep : sinkStep subscribers s (.append thread record) = some s') (t : ℕ) :
    callsOf s' k t ++ owed s'.inAppend k t
        = callsOf s k t ++ owed s.inAppend k t ++ (if t = thread then [record] else []) ∧
      recordsOf s' t = recordsOf s t ++ if t = thread then [record] else [] := by
  simp only [sinkStep] at hstep
  split at hstep
  · cases hstep
  · rename_i hnone
    cases hstep
    refine ⟨?_, ?_⟩
    · dsimp only
      rw [if_neg (by omega), owed_set, List.append_assoc]
      congr 1
      by_cases ht : t = thread
      · simp [ht, owed, hnone]
      · simp [ht]
    · simp only [recordsOf, List.filter_append, List.map_append, List.filter_singleton]
      by_cases ht : t = thread
      · simp [ht]
      · simp [ht, Ne.symm ht]

/-- Calling a subscriber, which raises or does not. -/
theorem call_books (h : SinkOk subscribers s) {thread : ℕ} {raised : Bool} {k : ℕ}
    (hk : k < subscribers) (hstep : sinkStep subscribers s (.call thread raised) = some s') (t : ℕ) :
    recordsOf s' t = recordsOf s t ∧
      (callsOf s' k t ++ owed s'.inAppend k t).Sublist (callsOf s k t ++ owed s.inAppend k t) ∧
      (raised = false →
        callsOf s' k t ++ owed s'.inAppend k t = callsOf s k t ++ owed s.inAppend k t) := by
  simp only [sinkStep] at hstep
  split at hstep
  · cases hstep
  · rename_i record j hget
    have hj := h.next _ _ _ hget
    have hcalls : callsOf s' k t = callsOf s k t ++ if j = k ∧ thread = t then [record] else [] := by
      cases hstep
      simp only [callsOf, List.filter_append, List.map_append, List.filter_singleton]
      by_cases hmine : j = k ∧ thread = t <;> simp [hmine]
    have howed : owed s'.inAppend k t = if t = thread then
        (if raised = true ∨ subscribers ≤ j + 1 then [] else if j + 1 ≤ k then [record] else [])
        else owed s.inAppend k t := by
      cases hstep
      dsimp only
      split_ifs <;> simp_all [owed_pop h.keys, owed_set]
    refine ⟨by cases hstep; rfl, ?_⟩
    rw [hcalls, howed, List.append_assoc]
    by_cases ht : t = thread
    · subst ht
      have hold : owed s.inAppend k t = if j ≤ k then [record] else [] := by simp [owed, hget]
      rw [hold]
      -- the subscriber that is called now, one that was, or one that is still to be
      rcases lt_trichotomy j k with hlt | rfl | hgt
      · have hmore : ¬ subscribers ≤ j + 1 := by omega
        rw [if_neg (by omega), if_pos rfl, if_pos hlt.le]
        cases raised <;> simp [hmore, Nat.succ_le_of_lt hlt]
      · simp
      · have hnot : ¬ j ≤ k := by omega
        rw [if_neg (by omega), if_pos rfl, if_neg hnot, if_neg (by omega : ¬ j + 1 ≤ k)]
        simp
    · rw [if_neg fun hand => ht hand.2.symm, if_neg ht]
      simp

/-- **Every subscriber is called with every record once.** In whatever order the recording threads
    move: what a thread has called a subscriber with, in order, is what it has recorded, but for the
    record it is still at; and where a subscriber has raised, some of that. -/
theorem subscribers_called_once {acts : List SinkAct}
    (h : run (sinkStep subscribers) .init acts = some s) {k : ℕ} (hk : k < subscribers) (thread : ℕ) :
    (callsOf s k thread ++ owed s.inAppend k thread).Sublist (recordsOf s thread) ∧
      ((∀ t, .call t true ∉ acts) →
        callsOf s k thread ++ owed s.inAppend k thread = recordsOf s thread) := by
  have hinit : SinkOk subscribers SinkState.init :=
    ⟨List.nodup_nil, fun _ _ _ hget => (by cases hget)⟩
  have hbooks := run_inv_history (I := fun as t => SinkOk subscribers t ∧
    (callsOf t k thread ++ owed t.inAppend k thread).Sublist (recordsOf t thread) ∧
      ((∀ u, .call u true ∉ as) →
        callsOf t k thread ++ owed t.inAppend k thread = recordsOf t thread))
    ⟨hinit, List.Sublist.refl _, fun _ => rfl⟩
    (fun as t a t' _ ih hstep => ?_) h
  · exact hbooks.2
  · obtain ⟨hok, hsub, heq⟩ := ih
    refine ⟨hok.step hstep, ?_⟩
    have hbefore : (∀ u, .call u true ∉ as ++ [a]) → ∀ u, .call u true ∉ as :=
      fun hno u hu => hno u (List.mem_append_left _ hu)
    cases a with
    | append th record =>
      obtain ⟨hcalls, hrecords⟩ := append_books hk hstep thread
      rw [hcalls, hrecords]
      exact ⟨hsub.append (List.Sublist.refl _), fun hno => by rw [heq (hbefore hno)]⟩
    | call th raised =>
      obtain ⟨hrecords, hcalls, hsame⟩ := call_books hok hk hstep thread
      rw [hrecords]
      refine ⟨hcalls.trans hsub, fun hno => ?_⟩
      cases raised with
      | true => exact absurd (by simp) (hno th)
      | false => rw [hsame rfl, heq (hbefore hno)]

end Sink

/-- Two threads that record at the same time. -/
def twoThreads : List SinkAct :=
  [.append 1 (.event "host_down" "t1" (some 3) true), .append 2 (.event "host_up" "t2" (some 4) true),
    .call 2 false, .call 1 false, .append 1 (.event "host_up" "t3" (some 3) true)]

theorem subscribers_called_once_two :
    callsOf ((run (sinkStep 1) .init twoThreads).getD .init) 0 1 ++
        owed ((run (sinkStep 1) .init twoThreads).getD .init).inAppend 0 1
      = recordsOf ((run (sinkStep 1) .init twoThreads).getD .init) 1 :=
  (@subscribers_called_once 1 _ twoThreads (by decide) 0 (by decide) 1).2 (by simp [twoThreads])

/-! ## The dashboard -/

section Dashboard

variable {τ : Type}

/-- The row that a callback adds. -/
def rowOf : Callback τ → Option Operation
  | .monitor _ => none
  | .operation _ result => some (operationOf result)
  | .launch opType host uri => some ⟨none, opType, some host, some uri, none, none, [], none⟩

/-- All rows there ever were. -/
def rows (callbacks : List (Callback τ)) : List Operation := callbacks.filterMap rowOf

/-- The point that the last of some callbacks adds: the successes among the retrievals of the last
    1000 rows. -/
def pointAfter (callbacks : List (Callback τ)) : Option (SuccessPoint τ) :=
  match callbacks.getLast? with
  | some (.operation elapsed _) =>
      some (successPoint elapsed ((rows callbacks).rtake maxOperations))
  | _ => none

/-- All points there ever were. -/
def points (callbacks : List (Callback τ)) : List (SuccessPoint τ) :=
  callbacks.inits.filterMap pointAfter

/-- The record of a callback if it is about a host and of a type. -/
def probeOf (type : String) (host : ℤ) : Callback τ → Option MonitorRecord
  | .monitor record => if record.type = type ∧ record.host = some host then some record else none
  | .operation _ _ | .launch _ _ _ => none

/-- The last record about a host of a type. -/
def lastProbe (type : String) (host : ℤ) (callbacks : List (Callback τ)) : Option MonitorRecord :=
  (callbacks.filterMap (probeOf type host)).getLast?

theorem rows_snoc (callbacks : List (Callback τ)) (c : Callback τ) :
    rows (callbacks ++ [c]) = rows callbacks ++ (rowOf c).toList := by
  rw [rows, List.filterMap_append]
  cases hc : rowOf c <;> simp [rows, hc]

theorem points_snoc (callbacks : List (Callback τ)) (c : Callback τ) :
    points (callbacks ++ [c]) = points callbacks ++ (pointAfter (callbacks ++ [c])).toList := by
  rw [points, List.inits_append, List.filterMap_append]
  cases hc : pointAfter (callbacks ++ [c]) <;> simp [points, hc]

theorem lastProbe_snoc (type : String) (host : ℤ) (callbacks : List (Callback τ)) (c : Callback τ) :
    lastProbe type host (callbacks ++ [c]) = (probeOf type host c).or (lastProbe type host callbacks) := by
  rw [lastProbe, List.filterMap_append]
  cases hc : probeOf type host c <;> simp [lastProbe, hc]

/-- What the panel of a host holds after some callbacks. -/
structure PanelShows (cacheNodes : List ℤ) (callbacks : List (Callback τ)) (i : ℤ)
    (panel : HostPanel) : Prop where
  isCache : panel.isCache = decide (i ∈ cacheNodes)
  cefnetd : panel.cefnetdOutcome = (lastProbe "cefstatus" i callbacks).bind (·.outcome)
  csmgrd : panel.csmgrdOutcome = (lastProbe "csmgrstatus" i callbacks).bind (·.outcome)
  cefstatus : panel.lastCefstatus = ((lastProbe "cefstatus" i callbacks).map (·.output)).getD ""
  csmgrstatus :
    panel.lastCsmgrstatus = ((lastProbe "csmgrstatus" i callbacks).map (·.output)).getD ""

/-- What a dashboard holds after some callbacks. -/
structure Shows (hostCount : ℕ) (cacheNodes : List ℤ) (callbacks : List (Callback τ))
    (s : DashboardState τ) : Prop where
  operations : s.operations = (rows callbacks).rtake maxOperations
  successHistory : s.successHistory = (points callbacks).rtake maxHistory
  known : ∀ i, (s.hosts.get? i).isSome ↔ 0 ≤ i ∧ i < hostCount
  panel : ∀ i panel, s.hosts.get? i = some panel → PanelShows cacheNodes callbacks i panel

/-- A callback that is no record about a host leaves its panel alone. -/
theorem PanelShows.keep {cacheNodes : List ℤ} {callbacks : List (Callback τ)} {i : ℤ}
    {panel : HostPanel} (h : PanelShows cacheNodes callbacks i panel) {c : Callback τ}
    (hcef : probeOf "cefstatus" i c = none) (hcsmgr : probeOf "csmgrstatus" i c = none) :
    PanelShows cacheNodes (callbacks ++ [c]) i panel := by
  obtain ⟨h₁, h₂, h₃, h₄, h₅⟩ := h
  refine ⟨h₁, ?_, ?_, ?_, ?_⟩ <;> rw [lastProbe_snoc]
  · rw [hcef, Option.none_or, h₂]
  · rw [hcsmgr, Option.none_or, h₃]
  · rw [hcef, Option.none_or, h₄]
  · rw [hcsmgr, Option.none_or, h₅]

theorem PanelShows.observe {cacheNodes : List ℤ} {callbacks : List (Callback τ)} {i : ℤ}
    {panel : HostPanel} (h : PanelShows cacheNodes callbacks i panel) {record : MonitorRecord}
    (hhost : record.host = some i) :
    PanelShows cacheNodes (callbacks ++ [.monitor record]) i (panel.observe record) := by
  obtain ⟨h₁, h₂, h₃, h₄, h₅⟩ := h
  by_cases hcef : record.type = "cefstatus"
  · refine ⟨?_, ?_, ?_, ?_, ?_⟩ <;> simp [HostPanel.observe, lastProbe_snoc, probeOf, *]
  · by_cases hcsmgr : record.type = "csmgrstatus" <;> refine ⟨?_, ?_, ?_, ?_, ?_⟩ <;>
      simp [HostPanel.observe, lastProbe_snoc, probeOf, *]

section Callbacks

variable {hostCount : ℕ} {cacheNodes : List ℤ} {callbacks : List (Callback τ)} {s : DashboardState τ}
  (h : Shows hostCount cacheNodes callbacks s)
include h

theorem Shows.monitor (record : MonitorRecord) :
    Shows hostCount cacheNodes (callbacks ++ [.monitor record]) (s.receive (.monitor record)) := by
  obtain ⟨hops, hpoints, hknown, hpanel⟩ := h
  have hrows : rows (callbacks ++ [.monitor record]) = rows callbacks := by simp [rows_snoc, rowOf]
  have hnew : points (callbacks ++ [.monitor record]) = points callbacks := by
    simp [points_snoc, pointAfter]
  -- a record about nobody, or about a host there is not
  have hother : ∀ i panel, s.hosts.get? i = some panel → record.host ≠ some i →
      PanelShows cacheNodes (callbacks ++ [.monitor record]) i panel := by
    intro i panel hi hne
    exact (hpanel i panel hi).keep (by simp [probeOf, hne]) (by simp [probeOf, hne])
  simp only [DashboardState.receive, recordMonitor]
  split
  · rename_i hnone
    exact ⟨hrows ▸ hops, hnew ▸ hpoints, hknown, fun i panel hi => hother i panel hi (by simp [hnone])⟩
  · rename_i host hhost
    split
    · rename_i hnone
      refine ⟨hrows ▸ hops, hnew ▸ hpoints, hknown, fun i panel hi => hother i panel hi fun heq => ?_⟩
      rw [hhost, Option.some.injEq] at heq
      rw [heq, hi] at hnone
      cases hnone
    · rename_i old hold
      refine ⟨hrows ▸ hops, hnew ▸ hpoints, fun i => ?_, fun i panel hi => ?_⟩
      · rw [← hknown, Dict.get?_set]
        split
        · rename_i heq
          rw [heq, hold]
          simp
        · rfl
      · rw [Dict.get?_set] at hi
        split at hi
        · rename_i heq
          cases hi
          subst heq
          exact (hpanel i old hold).observe hhost
        · rename_i hne
          refine hother i panel hi fun heq => hne ?_
          rw [hhost, Option.some.injEq] at heq
          exact heq.symm

theorem Shows.operation (elapsed : τ) (result : ResultsRecord) :
    Shows hostCount cacheNodes (callbacks ++ [.operation elapsed result])
      (s.receive (.operation elapsed result)) := by
  have hrows : rows (callbacks ++ [.operation elapsed result])
      = rows callbacks ++ [operationOf result] := by simp [rows_snoc, rowOf]
  have hops : pushBounded maxOperations s.operations (operationOf result)
      = (rows (callbacks ++ [.operation elapsed result])).rtake maxOperations := by
    rw [h.operations, hrows, maxOperations, pushBounded_rtake]
  refine ⟨hops, ?_, h.known, fun i panel hi => (h.panel i panel hi).keep rfl rfl⟩
  -- the point counts the new row too
  simp only [DashboardState.receive, recordOperation, hops, h.successHistory]
  rw [points_snoc, maxHistory, pushBounded_rtake]
  simp [pointAfter]

theorem Shows.launch (opType : String) (host : ℤ) (uri : String) :
    Shows hostCount cacheNodes (callbacks ++ [.launch opType host uri])
      (s.receive (.launch opType host uri)) := by
  have hrows : rows (callbacks ++ [.launch opType host uri])
      = rows callbacks ++ [⟨none, opType, some host, some uri, none, none, [], none⟩] := by
    simp [rows_snoc, rowOf]
  refine ⟨?_, ?_, h.known, fun i panel hi => (h.panel i panel hi).keep rfl rfl⟩
  · simp only [DashboardState.receive, recordLaunch, h.operations]
    rw [hrows, maxOperations, pushBounded_rtake]
  · rw [points_snoc]
    simpa [pointAfter, DashboardState.receive, recordLaunch] using h.successHistory

/-- **One callback.** -/
theorem Shows.step (c : Callback τ) : Shows hostCount cacheNodes (callbacks ++ [c]) (s.receive c) := by
  cases c with
  | monitor record => exact h.monitor record
  | operation elapsed result => exact h.operation elapsed result
  | launch opType host uri => exact h.launch opType host uri

end Callbacks

theorem shows_init (hostCount : ℕ) (cacheNodes : List ℤ) :
    Shows hostCount cacheNodes [] (DashboardState.init hostCount cacheNodes : DashboardState τ) := by
  have hget : ∀ i, (DashboardState.init hostCount cacheNodes : DashboardState τ).hosts.get? i =
      if i ∈ (List.range hostCount).map fun n : ℕ => (n : ℤ) then
        some ⟨"", "", none, none, i ∈ cacheNodes⟩ else none := by
    intro i
    have hhosts : (DashboardState.init hostCount cacheNodes : DashboardState τ).hosts =
        ((List.range hostCount).map fun n : ℕ => (n : ℤ)).map fun i =>
          (i, ⟨"", "", none, none, i ∈ cacheNodes⟩) := by
      rw [List.map_map]
      rfl
    rw [hhosts, Dict.get?_map_keys]
  have hmem : ∀ i : ℤ, i ∈ ((List.range hostCount).map fun n : ℕ => (n : ℤ)) ↔ 0 ≤ i ∧ i < hostCount := by
    intro i
    rw [List.mem_map]
    constructor
    · rintro ⟨n, hn, rfl⟩
      have := List.mem_range.mp hn
      omega
    · rintro ⟨hpos, hlt⟩
      exact ⟨i.toNat, List.mem_range.mpr (by omega), by omega⟩
  refine ⟨(List.rtake_nil _).symm, (List.rtake_nil _).symm, fun i => ?_, fun i panel hi => ?_⟩
  · rw [hget, ← hmem]
    by_cases hi : i ∈ (List.range hostCount).map fun n : ℕ => (n : ℤ)
    · rw [if_pos hi]
      exact iff_of_true rfl hi
    · rw [if_neg hi]
      exact iff_of_false (by simp) hi
  · rw [hget] at hi
    split at hi
    · cases hi
      exact ⟨rfl, rfl, rfl, rfl, rfl⟩
    · cases hi

theorem shows_of_callbacks (hostCount : ℕ) (cacheNodes : List ℤ) (callbacks : List (Callback τ)) :
    Shows hostCount cacheNodes callbacks
      (callbacks.foldl DashboardState.receive (.init hostCount cacheNodes)) := by
  induction callbacks using List.reverseRecOn with
  | nil => exact shows_init hostCount cacheNodes
  | append_singleton callbacks c ih =>
    rw [List.foldl_append]
    exact ih.step c

theorem successPoint_le (elapsed : τ) (operations : List Operation) :
    (successPoint elapsed operations).success ≤ (successPoint elapsed operations).total ∧
      (successPoint elapsed operations).total ≤ operations.length :=
  ⟨List.length_filter_le _ _, List.length_filter_le _ _⟩

theorem points_le {callbacks : List (Callback τ)} {p : SuccessPoint τ} (h : p ∈ points callbacks) :
    p.success ≤ p.total ∧ p.total ≤ maxOperations := by
  obtain ⟨pre, -, hp⟩ := List.mem_filterMap.mp h
  simp only [pointAfter] at hp
  split at hp
  · rename_i elapsed _ _
    cases hp
    obtain ⟨hle, hlen⟩ := successPoint_le elapsed ((rows pre).rtake maxOperations)
    rw [length_rtake] at hlen
    exact ⟨hle, hlen.trans (min_le_left _ _)⟩
  · cases hp

theorem get?_snapshot (s : DashboardState τ) (downList : List ℤ) (i : ℤ) :
    (s.snapshot downList).hosts.get? i = (s.hosts.get? i).map fun panel =>
      ⟨i ∉ downList, panel.isCache, panel.cefnetdOutcome = some "ok", panel.csmgrdOutcome = some "ok",
        panel.lastCefstatus, panel.lastCsmgrstatus⟩ := by
  rw [DashboardState.snapshot]
  induction s.hosts with
  | nil => rfl
  | cons e hosts ih =>
    rw [List.map_cons, Dict.get?_cons, ih, Dict.get?_cons]
    by_cases h : e.1 = i
    · rw [if_pos h, if_pos h, Option.map_some, h]
    · rw [if_neg h, if_neg h]

/-- The snapshot after some callbacks. -/
def snapshotAfter (hostCount : ℕ) (cacheNodes : List ℤ) (callbacks : List (Callback τ))
    (downList : List ℤ) : Snapshot τ :=
  (callbacks.foldl DashboardState.receive (.init hostCount cacheNodes)).snapshot downList

/-- **A snapshot is a function of what was called back.** Whatever the callbacks and their order: the
    rows are the last 200 of all there were, the points of the success rate the last 300, each about
    the retrievals of the 1000 rows before it, and a daemon is shown as running exactly if the last
    record about it says so. -/
theorem dashboard_snapshot (hostCount : ℕ) (cacheNodes : List ℤ) (callbacks : List (Callback τ))
    (downList : List ℤ) :
    (snapshotAfter hostCount cacheNodes callbacks downList).operations = (rows callbacks).rtake 200 ∧
      (snapshotAfter hostCount cacheNodes callbacks downList).successHistory
        = (points callbacks).rtake 300 ∧
      (∀ p ∈ points callbacks, p.success ≤ p.total ∧ p.total ≤ 1000) ∧
      ∀ i : ℤ, (snapshotAfter hostCount cacheNodes callbacks downList).hosts.get? i
        = if 0 ≤ i ∧ i < hostCount then
        some
          { up := i ∉ downList
            isCache := i ∈ cacheNodes
            cefnetdOk := (lastProbe "cefstatus" i callbacks).bind (·.outcome) = some "ok"
            csmgrdOk := (lastProbe "csmgrstatus" i callbacks).bind (·.outcome) = some "ok"
            lastCefstatus := ((lastProbe "cefstatus" i callbacks).map (·.output)).getD ""
            lastCsmgrstatus := ((lastProbe "csmgrstatus" i callbacks).map (·.output)).getD "" }
        else none := by
  have hs := shows_of_callbacks hostCount cacheNodes callbacks
  refine ⟨?_, ?_, fun p hp => points_le hp, fun i => ?_⟩
  · simp only [snapshotAfter, DashboardState.snapshot, hs.operations]
    rw [rtake_rtake (by norm_num [maxOperations])]
  · simp only [snapshotAfter, DashboardState.snapshot, hs.successHistory]
    rw [rtake_rtake (by norm_num [maxHistory])]
  · rw [snapshotAfter, get?_snapshot]
    split
    · rename_i hi
      obtain ⟨panel, hpanel⟩ := Option.isSome_iff_exists.mp ((hs.known i).mpr hi)
      obtain ⟨h₁, h₂, h₃, h₄, h₅⟩ := hs.panel i panel hpanel
      rw [hpanel, Option.map_some, h₁, h₂, h₃, h₄, h₅]
    · rename_i hi
      rw [← hs.known, Option.not_isSome_iff_eq_none] at hi
      rw [hi, Option.map_none]

end Dashboard

end Proof
end CeforeEmu
