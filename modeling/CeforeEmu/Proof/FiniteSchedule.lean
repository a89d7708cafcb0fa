import CeforeEmu.Proof.Repetition
import CeforeEmu.Proof.Validation

/-!
# Schedules of finite times

The validator asks that `at` and `duration` are not below zero and that an interval is above it. A
time that is no number is neither, and an infinite one is above everything, so both pass. What the
scheduler adds up and compares is then not finite, and the heap is in no order.

A schedule is as it should be (`WellTimed`) if every time on the heap stays finite: then the entries
are in a total order, the first is never later than another, and every entry has its turn, because
only so many can come before it (`weight`). For that it takes that the events start at finite times
and that no infinite interval or duration is ever added (`FiniteTimes`), and nothing else
(`well_timed_iff`).
-/

set_option autoImplicit false

namespace CeforeEmu
namespace Proof

open CeforeEmu.Lib CeforeEmu.Core CeforeEmu.Runtime

section Generic

variable {τ : Type} [IntCast τ] [Add τ] [LT τ] [TimeLine τ] [DecidableEq τ] [DecidableLT τ]

/-! ## How often an entry comes back -/

/-- How often an event that is fired at `t` is fired up to `T`. -/
def firingsLeft (T : ℚ) (e : Event τ) (t : τ) : ℕ :=
  match intervalOf e with
  | none => 1
  | some iv => ⌊(T - TimeLine.place t) / TimeLine.place iv⌋₊ + 1

/-- A bound on what an event and what it leaves behind fire up to `T`. -/
def weight (T : ℚ) (p : τ × Event τ) : ℕ :=
  if T < TimeLine.place p.1 then 0
  else
    match p.2.get? "repeat" with
    | none => 1
    | some _ => 2 * firingsLeft T p.2 p.1

variable {T : ℚ} {e : Event τ} {t : τ}

theorem restoration_weight (he : Schedulable e) : ((restoration e t).map (weight T)).sum ≤ 1 := by
  rw [restoration]
  split
  · rename_i d r _ hr
    rw [List.map_singleton, List.sum_singleton, weight, (schedulable_restored he hr).1]
    split
    · exact Nat.zero_le _
    · exact le_rfl
  · exact Nat.zero_le _

theorem successor_weight (ht : TimeLine.Finite t)
    (hfinite : ∀ p ∈ successor e t, TimeLine.Finite p.1) :
    ((successor e t).map (weight T)).sum + 2 ≤ 2 * firingsLeft T e t := by
  have hone : 1 ≤ firingsLeft T e t := by
    rw [firingsLeft]
    split
    · exact le_rfl
    · exact Nat.le_add_left _ _
  -- there is at most one successor
  have hsingle : successor e t = [] ∨ ∃ p, successor e t = [p] := by
    rw [successor]
    split
    · exact .inl rfl
    · split
      · exact .inr ⟨_, rfl⟩
      · split
        · exact .inl rfl
        · exact .inr ⟨_, rfl⟩
  rcases hsingle with hnil | ⟨p, hp⟩
  · rw [hnil, List.map_nil, List.sum_nil]
    omega
  · have hmem : p ∈ successor e t := hp ▸ List.mem_singleton_self p
    have hp₁ := hfinite p hmem
    obtain ⟨iv, rep', hiv, -, rfl, hsame, -⟩ := mem_successor hmem
    have hd := (TimeLine.finite_add.mp hp₁).2
    have hpos := TimeLine.place_pos hd (intervalOf_pos hiv)
    rw [hp, List.map_singleton, List.sum_singleton, weight]
    split
    · omega
    · rename_i hlate
      have hget : (withRepeat e rep').get? "repeat" = some (.dict rep') := Dict.get?_set_self _ _ _
      simp only [TimeLine.place_add ht hd, not_lt] at hlate
      simp only [hget, firingsLeft, intervalOf_withRepeat hsame, hiv, TimeLine.place_add ht hd,
        ← floor_interval hpos hlate]
      omega

/-- **An entry weighs more than what it leaves behind.** -/
theorem leaves_weight {a : Entry τ} {cs : List (Entry τ)} (h : Leaves a cs)
    (hT : TimeLine.place a.atSec ≤ T) :
    (cs.map fun c => weight T (scheduled c)).sum < weight T (scheduled a) := by
  obtain ⟨he, hfinite, hcs⟩ := h
  have hmap : cs.map (fun c => weight T (scheduled c))
      = (offspring a.event a.atSec).map (weight T) := by
    rw [← hcs, List.map_map]
    rfl
  have hoff : ∀ p ∈ offspring a.event a.atSec, TimeLine.Finite p.1 := by
    intro p hp
    rw [← hcs] at hp
    obtain ⟨c, hc, rfl⟩ := List.mem_map.mp hp
    exact hfinite c (List.mem_cons_of_mem _ hc)
  have hdue : weight T (scheduled a) = match a.event.get? "repeat" with
      | none => 1
      | some _ => 2 * firingsLeft T a.event a.atSec := if_neg (not_lt.mpr hT)
  rw [hmap, hdue]
  cases hget : a.event.get? "repeat" with
  | none =>
    rw [offspring_none (repeatOf_none hget), List.map_nil, List.sum_nil]
    exact Nat.zero_lt_one
  | some v =>
    have hrestored := restoration_weight (T := T) (t := a.atSec) he
    have hnext := successor_weight (T := T) (hfinite a List.mem_cons_self) fun p hp =>
      hoff p (List.mem_append_right _ hp)
    rw [offspring, List.map_append, List.sum_append]
    simp only
    omega

/-- **Every entry has its turn.** -/
theorem run_reaches {r : ℕ → Drain (Entry τ)} (hr : Drain.Run Entry.rank Leaves r) {a : Entry τ}
    {n : ℕ} (ha : a ∈ (r n).queue) : ∃ m rest, n ≤ m ∧ (r m).queue = a :: rest :=
  hr.reaches (fun c => weight (TimeLine.place a.atSec) (scheduled c))
    (fun hleaves hbefore _ => leaves_weight hleaves (place_le_of_rank hbefore)) ha

/-! ## The firings of an event -/

/-- When an event is fired the `j`-th time after the first. -/
def firingTime (e : Event τ) : ℕ → τ
  | 0 => atOf e
  | j + 1 => firingTime e j + (intervalOf e).getD ((0 : ℤ) : τ)

/-- The event is fired a `j`-th time after the first. -/
def FiresAgain (e : Event τ) (j : ℕ) : Prop :=
  j = 0 ∨ (intervalOf e).isSome ∧ ∀ c, countOf e = some c → j < c

/-- The entry of the `j`-th time. -/
structure Repeated (e : Event τ) (j : ℕ) (a : Entry τ) : Prop where
  time : a.atSec = firingTime e j
  event : a.event.without "repeat" = e.without "repeat"
  interval : intervalOf a.event = intervalOf e
  count : countOf a.event = (countOf e).map (· - j)

omit [TimeLine τ] in
/-- What is fired the next time comes after it. -/
theorem Repeated.next {j : ℕ} {a : Entry τ} (h : Repeated e j a) (hagain : FiresAgain e (j + 1)) :
    ∃ p ∈ offspring a.event a.atSec, ∀ c : Entry τ, scheduled c = p → Repeated e (j + 1) c := by
  obtain ⟨hsome, hcount⟩ := hagain.resolve_left (Nat.succ_ne_zero j)
  obtain ⟨iv, hiv⟩ := Option.isSome_iff_exists.mp hsome
  have hrepeated : ∀ (rep' : Mapping τ) (c : Entry τ), SameButCount (repeatOf a.event) rep' →
      countOf (withRepeat a.event rep') = (countOf e).map (· - (j + 1)) →
      scheduled c = (a.atSec + iv, withRepeat a.event rep') → Repeated e (j + 1) c := by
    intro rep' c hsame hleft hc
    obtain ⟨htime, hevent⟩ := Prod.mk.inj hc
    refine ⟨?_, ?_, ?_, ?_⟩
    · rw [htime, h.time, firingTime, hiv, Option.getD_some]
    · rw [hevent, withRepeat_without, h.event]
    · rw [hevent, intervalOf_withRepeat hsame, h.interval]
    · rw [hevent, hleft]
  cases hc : countOf e with
  | none =>
    have hleft : countOf a.event = none := by rw [h.count, hc, Option.map_none]
    have hsucc : successor a.event a.atSec
        = [(a.atSec + iv, withRepeat a.event (repeatOf a.event))] := by
      simp only [successor, h.interval, hiv, hleft]
    refine ⟨_, List.mem_append_right _ (hsucc ▸ List.mem_singleton_self _), fun c hc' => ?_⟩
    refine hrepeated _ c (.refl _) ?_ hc'
    rw [countOf, withRepeat_repeatOf, ← countOf, hleft, hc, Option.map_none]
  | some n =>
    have hlt := hcount n hc
    have hleft : countOf a.event = some (n - j) := by rw [h.count, hc, Option.map_some]
    have hsucc : successor a.event a.atSec = [(a.atSec + iv, withRepeat a.event
        ((repeatOf a.event).set "count" (.int ((n - j : ℕ) - 1))))] := by
      simp only [successor, h.interval, hiv, hleft, if_neg (show ¬ n - j ≤ 1 by omega)]
    refine ⟨_, List.mem_append_right _ (hsucc ▸ List.mem_singleton_self _), fun c hc' => ?_⟩
    refine hrepeated _ c (.set _ _) ?_ hc'
    rw [hc, Option.map_some]
    simp only [countOf, withRepeat_repeatOf, Dict.get?_set_self, Option.some.injEq]
    omega

/-! ## Times that stay finite -/

/-- Nothing infinite is added: an interval is finite if there is another repetition, and a duration
    if there is something to restore. -/
structure FinitelyPaced (e : Event τ) : Prop where
  interval : ∀ iv, intervalOf e = some iv → TimeLine.Finite iv ∨ countOf e = some 1
  duration : ∀ d, durationOf e = some d → TimeLine.Finite d ∨ restoreEventOf e = none

/-- The event starts at a finite time, and goes on at finite times. -/
structure FiniteTimes (e : Event τ) : Prop where
  start : TimeLine.Finite (atOf e)
  paced : FinitelyPaced e

theorem FinitelyPaced.offspring (he : Schedulable e) (hpaced : FinitelyPaced e)
    (ht : TimeLine.Finite t) {p : τ × Event τ} (hp : p ∈ offspring e t) :
    TimeLine.Finite p.1 ∧ FinitelyPaced p.2 := by
  rcases List.mem_append.mp hp with hp | hp
  · obtain ⟨d, r, hd, hr, rfl⟩ := mem_restoration.mp hp
    have hnone := repeatOf_none (schedulable_restored he hr).1
    refine ⟨TimeLine.finite_add.mpr ⟨ht, ?_⟩, fun iv hiv => ?_, fun d' hd' => ?_⟩
    · exact (hpaced.duration d hd).resolve_right (by rw [hr]; simp)
    · simp [intervalOf, hnone] at hiv
    · simp [durationOf, hnone] at hd'
  · obtain ⟨iv, rep', hiv, hmore, rfl, hsame, -⟩ := mem_successor hp
    have hfinite := (hpaced.interval iv hiv).resolve_right hmore
    have hrep := repeat_of_interval he hiv
    refine ⟨TimeLine.finite_add.mpr ⟨ht, hfinite⟩, fun iv' hiv' => ?_, fun d hd => ?_⟩
    · rw [intervalOf_withRepeat hsame, hiv] at hiv'
      cases hiv'
      exact .inl hfinite
    · rw [durationOf_withRepeat hsame] at hd
      rw [restoreEventOf_withRepeat hrep hsame]
      exact hpaced.duration d hd

/-! ## Every event is fired -/

section Fired

variable {events : List (Event τ)} {s₀ : Scheduler τ}
  (hstart : (s₀.heap.map scheduled).Perm (events.map fun e => (atOf e, e)))
  {state : ℕ → Scheduler τ} (hzero : state 0 = s₀)
  (hrun : Drain.Run Entry.rank Leaves fun n => asDrain (state n)) (he : e ∈ events)
include hstart hzero hrun he

omit hrun [Add τ] [LT τ] [TimeLine τ] [DecidableLT τ] in
theorem exists_first : ∃ a ∈ (state 0).heap, scheduled a = (atOf e, e) := by
  have hmem := hstart.mem_iff.mpr (List.mem_map_of_mem (f := fun e => (atOf e, e)) he)
  obtain ⟨a, ha, heq⟩ := List.mem_map.mp hmem
  exact ⟨a, hzero ▸ ha, heq⟩

/-- The entry of every firing comes to be on the heap. -/
theorem exists_repeated : ∀ j, FiresAgain e j → ∃ n, ∃ a ∈ (state n).heap, Repeated e j a := by
  intro j
  induction j with
  | zero =>
    intro _
    obtain ⟨a, ha, heq⟩ := exists_first hstart hzero he
    obtain ⟨htime, hevent⟩ := Prod.mk.inj heq
    refine ⟨0, a, ha, htime, by rw [hevent], by rw [hevent], ?_⟩
    rw [hevent]
    cases countOf e <;> rfl
  | succ j ih =>
    intro hagain
    have hbefore : FiresAgain e j := by
      obtain ⟨hsome, hcount⟩ := hagain.resolve_left (Nat.succ_ne_zero j)
      exact .inr ⟨hsome, fun c hc => (Nat.lt_succ_self j).trans (hcount c hc)⟩
    obtain ⟨n, a, ha, hrepeated⟩ := ih hbefore
    obtain ⟨m, rest, -, hfirst⟩ := run_reaches hrun ha
    obtain ⟨cs, ⟨-, -, hcs⟩, -, -, hperm, -⟩ := hrun.pop hfirst
    obtain ⟨p, hp, hnext⟩ := hrepeated.next hagain
    rw [← hcs] at hp
    obtain ⟨c, hc, heq⟩ := List.mem_map.mp hp
    exact ⟨m + 1, c, hperm.mem_iff.mpr (List.mem_append_right _ hc), hnext c heq⟩

/-- And is fired. -/
theorem exists_fired {j : ℕ} (hagain : FiresAgain e j) :
    ∃ n, ∃ a ∈ (state n).fired, Repeated e j a := by
  obtain ⟨n, a, ha, hrepeated⟩ := exists_repeated hstart hzero hrun he j hagain
  obtain ⟨m, rest, -, hfirst⟩ := run_reaches hrun ha
  obtain ⟨-, -, -, -, -, hdone⟩ := hrun.pop hfirst
  refine ⟨m + 1, a, ?_, hrepeated⟩
  have hmem : a ∈ (asDrain (state (m + 1))).done := hdone ▸ List.mem_append_right _ (List.mem_singleton_self a)
  exact hmem

end Fired

/-! ## What is wanted of a schedule -/

/-- `heapq` compares the entries in a total order. -/
structure TotallyOrdered (heap : List (Entry τ)) : Prop where
  irrefl : ∀ a ∈ heap, a.before a = false
  trans : ∀ a ∈ heap, ∀ b ∈ heap, ∀ c ∈ heap,
    a.before b = true → b.before c = true → a.before c = true
  total : ∀ a ∈ heap, ∀ b ∈ heap, a ≠ b → a.before b = true ∨ b.before a = true

theorem Orderly.totallyOrdered {s : Scheduler τ} (hs : Orderly s) : TotallyOrdered s.heap := by
  have hbefore : ∀ {a b}, a ∈ s.heap → b ∈ s.heap → (a.before b = true ↔ Entry.rank a < Entry.rank b) :=
    fun ha hb => before_iff (hs.finite _ ha) (hs.finite _ hb)
  have hnodup : (s.heap.map Entry.rank).Nodup := by
    rw [List.Nodup, List.pairwise_map]
    exact hs.sorted.imp fun h => h.ne
  refine ⟨fun a ha => ?_, fun a ha b hb c hc hab hbc => ?_, fun a ha b hb hne => ?_⟩
  · rw [Bool.eq_false_iff, ne_eq, hbefore ha ha]
    exact lt_irrefl _
  · rw [hbefore ha hb] at hab
    rw [hbefore hb hc] at hbc
    exact (hbefore ha hc).mpr (hab.trans hbc)
  · rw [hbefore ha hb, hbefore hb ha]
    exact lt_or_gt_of_ne fun heq => hne (List.inj_on_of_nodup_map hnodup ha hb heq)

variable [Sub τ] [LE τ] [DecidableLE τ]

/-- What is wanted of every run: the times on the heap are finite and the entries are in an order,
    the first is never later than another, and every event comes to be fired as often as it says,
    at times that are finite. -/
structure WellTimed (events : List (Event τ)) (s₀ : Scheduler τ) : Prop where
  runs : ∀ turns n, ∃ s, s₀.loop turns n = .ok s
  finite : ∀ turns, StaysFinite s₀ turns
  ordered : ∀ turns n s, s₀.loop turns n = .ok s → TotallyOrdered s.heap
  first : ∀ turns n s, s₀.loop turns n = .ok s → ∀ a rest, s.heap = a :: rest →
    ∀ b ∈ rest, ¬ b.atSec < a.atSec
  fires : ∀ turns, Undisturbed turns → ∀ e ∈ events, ∀ j, FiresAgain e j →
    TimeLine.Finite (firingTime e j) ∧ ∃ n s, s₀.loop turns n = .ok s ∧
      ∃ a ∈ s.fired, a.atSec = firingTime e j ∧ a.event.without "repeat" = e.without "repeat"

/-- **The whole run.** -/
theorem loop_paced {s : Scheduler τ} (hs : Orderly s) (hpaced : ∀ a ∈ s.heap, FinitelyPaced a.event)
    (turns : ℕ → Turn τ) (n : ℕ) :
    ∃ t, s.loop turns n = .ok t ∧ Orderly t ∧ ∀ a ∈ t.heap, FinitelyPaced a.event := by
  induction n with
  | zero => exact ⟨s, rfl, hs, hpaced⟩
  | succ n ih =>
    obtain ⟨t, hloop, ht, hp⟩ := ih
    obtain ⟨t', hstep, ht', hnew⟩ := step_orderly ht (turns n)
    have hkept : ∀ c ∈ t'.heap, TimeLine.Finite c.atSec ∧ FinitelyPaced c.event := by
      intro c hc
      rcases hnew c hc with hc | ⟨a, ha, hoff⟩
      · exact ⟨ht.finite c hc, hp c hc⟩
      · exact (hp a ha).offspring (ht.events a ha) (ht.finite a ha) hoff
    refine ⟨t', ?_, ht' fun c hc => (hkept c hc).1, fun c hc => (hkept c hc).2⟩
    simp only [Scheduler.loop, hloop]
    exact hstep

variable [FloatFacts τ] {checks : EventChecks τ} {events : List (Event τ)} {s₀ : Scheduler τ}
  {hasSink : Bool}

/-- Accepted events that start and go on at finite times make a schedule that is well timed. -/
theorem wellTimed_of_finite (hacc : ∀ e ∈ events, Accepted checks e)
    (hnew : Scheduler.new events hasSink = .ok s₀) (hfinite : ∀ e ∈ events, FiniteTimes e) :
    WellTimed events s₀ := by
  obtain ⟨s, hnew', hfired, hhalted, hstart, horderly⟩ := new_spec hacc hasSink
  cases hnew.symm.trans hnew'
  have hs₀ := horderly fun e he => (hfinite e he).start
  have hpaced : ∀ a ∈ s₀.heap, FinitelyPaced a.event := by
    intro a ha
    obtain ⟨e, he, heq⟩ := List.mem_map.mp (hstart.mem_iff.mp (List.mem_map_of_mem ha))
    rw [← (Prod.mk.inj heq).2]
    exact (hfinite e he).paced
  have horderly : ∀ turns n s, s₀.loop turns n = .ok s → Orderly s := by
    intro turns n s hloop
    obtain ⟨s', hloop', hs', -⟩ := loop_paced hs₀ hpaced turns n
    cases hloop.symm.trans hloop'
    exact hs'
  have hstays : ∀ turns, StaysFinite s₀ turns := fun turns n s hloop =>
    (horderly turns n s hloop).finite
  refine ⟨fun turns n => ?_, hstays, fun turns n s hloop => (horderly turns n s hloop).totallyOrdered,
    fun turns n s hloop a rest hheap b hb hlt => ?_, fun turns hturns e he j hagain => ?_⟩
  · obtain ⟨s, hloop, -⟩ := loop_paced hs₀ hpaced turns n
    exact ⟨s, hloop⟩
  · have hs := horderly turns n s hloop
    have hsorted := hs.sorted
    rw [hheap] at hsorted
    have hle := place_le_of_rank ((List.pairwise_cons.mp hsorted).1 b hb)
    rw [TimeLine.lt_iff (hs.finite b (hheap ▸ List.mem_cons_of_mem _ hb))
      (hs.finite a (hheap ▸ List.mem_cons_self))] at hlt
    exact absurd hlt (not_lt.mpr hle)
  · obtain ⟨state, hzero, hloop, hstate, hrun⟩ := loop_run hs₀ hhalted hturns (hstays turns)
    obtain ⟨n, a, ha, hrepeated⟩ := exists_repeated hstart hzero hrun he j hagain
    obtain ⟨m, b, hb, hfiring⟩ := exists_fired hstart hzero hrun he hagain
    exact ⟨hrepeated.time ▸ (hstate n).finite a ha, m, state m, hloop m, b, hb, hfiring.time,
      hfiring.event⟩

/-- And only those do. -/
theorem finite_of_wellTimed (hacc : ∀ e ∈ events, Accepted checks e)
    (hnew : Scheduler.new events hasSink = .ok s₀) (h : WellTimed events s₀) :
    ∀ e ∈ events, FiniteTimes e := by
  obtain ⟨s, hnew', hfired, hhalted, hstart, horderly⟩ := new_spec hacc hasSink
  cases hnew.symm.trans hnew'
  let turns : ℕ → Turn τ := fun _ => .fire .returned
  have hturns : Undisturbed turns := fun _ => ⟨.returned, rfl, fun _ h => by cases h⟩
  have hat : ∀ e ∈ events, TimeLine.Finite (atOf e) := fun e he =>
    (h.fires turns hturns e he 0 (.inl rfl)).1
  obtain ⟨state, hzero, hloop, -, hrun⟩ :=
    loop_run (horderly hat) hhalted hturns (h.finite turns)
  intro e he
  refine ⟨hat e he, fun iv hiv => ?_, fun d hd => ?_⟩
  · by_cases hone : countOf e = some 1
    · exact .inr hone
    · -- it is fired again, an interval later
      obtain ⟨i, hi⟩ := hacc e he
      have hagain : FiresAgain e 1 := by
        refine .inr ⟨by rw [hiv]; rfl, fun c hc => ?_⟩
        have hpos := (countOf_spec (schedulable_of_accepted hi).1 hc).2
        have hne : c ≠ 1 := fun heq => hone (heq ▸ hc)
        omega
      have htime := (h.fires turns hturns e he 1 hagain).1
      rw [firingTime, hiv, Option.getD_some] at htime
      exact .inl (TimeLine.finite_add.mp htime).2
  · cases hr : restoreEventOf e with
    | none => exact .inr rfl
    | some r =>
      -- what it restores is on the heap after it has been fired
      obtain ⟨a, ha, heq⟩ := exists_first hstart hzero he
      obtain ⟨htime, hevent⟩ := Prod.mk.inj heq
      obtain ⟨m, rest, -, hfirst⟩ := run_reaches hrun ha
      obtain ⟨cs, ⟨-, -, hcs⟩, -, -, hperm, -⟩ := hrun.pop hfirst
      have hmem : (atOf e + d, r) ∈ offspring a.event a.atSec := by
        rw [htime, hevent]
        exact List.mem_append_left _ (mem_restoration.mpr ⟨d, r, hd, hr, rfl⟩)
      rw [← hcs] at hmem
      obtain ⟨c, hc, heq⟩ := List.mem_map.mp hmem
      have hfinite := h.finite turns (m + 1) _ (hloop (m + 1)) c
        (hperm.mem_iff.mpr (List.mem_append_right _ hc))
      rw [(Prod.mk.inj heq).1] at hfinite
      exact .inl (TimeLine.finite_add.mp hfinite).2

end Generic

/-! ## Configurations -/

/-- A float as it is read from YAML, but for rounding. -/
instance : FloatFacts ExtRat where
  text
    | .fin q => toString q
    | .posInf => "inf"
    | .negInf => "-inf"
    | .nan => "nan"
  isFinite := ExtRat.isFinite
  milli := .fin (1 / 1000)

/-- **When a schedule is well timed**: the schedule of an accepted configuration is, in every run,
    exactly if every event starts at a finite time, has a finite interval unless it is fired only
    once, and a finite duration unless it restores nothing. -/
theorem well_timed_iff {ip : IpTexts} {config : Mapping ExtRat} {v : Value ExtRat}
    (hevents : config.get? "events" = some v) (hvalid : validateConfig ip config = .ok [])
    (hasSink : Bool) :
    ∃ (events : List (Event ExtRat)) (s₀ : Scheduler ExtRat), v = .list (events.map .dict) ∧
      Scheduler.new events hasSink = .ok s₀ ∧
      (WellTimed events s₀ ↔ ∀ e ∈ events, FiniteTimes e) := by
  obtain ⟨events, rfl, hacc⟩ := (passes_of_validate hvalid).events_accepted hevents
  obtain ⟨s₀, hnew, -⟩ := new_spec hacc hasSink
  exact ⟨events, s₀, rfl, hnew, finite_of_wellTimed hacc hnew, wellTimed_of_finite hacc hnew⟩

/-- A link that goes down three times, for a second each. -/
def steadyFlap : Event ExtRat :=
  [("at", .int 5), ("type", .str "link_down"), ("nodes", .list [.int 0, .int 2]),
    ("repeat", .dict [("interval", .int 4), ("count", .int 3), ("duration", .int 1),
      ("restore_type", .str "link_up")])]

def steadyConfig : Mapping ExtRat := [("hosts", .int 3), ("events", .list [.dict steadyFlap])]

theorem steadyConfig_valid :
    validateConfig ⟨fun _ => true, fun _ => some 16⟩ steadyConfig = .ok [] := rfl

theorem well_timed_iff_steady : ∃ (events : List (Event ExtRat)) (s₀ : Scheduler ExtRat),
    events = [steadyFlap] ∧ Scheduler.new events true = .ok s₀ ∧
      (WellTimed events s₀ ↔ ∀ e ∈ events, FiniteTimes e) ∧ ∀ e ∈ events, FiniteTimes e := by
  have hevents : steadyConfig.get? "events" = some (.list [.dict steadyFlap]) := rfl
  obtain ⟨events, s₀, hv, hnew, hiff⟩ := well_timed_iff hevents steadyConfig_valid true
  have hone : events = [steadyFlap] := by
    have hdict : Function.Injective (Value.dict : Event ExtRat → Value ExtRat) :=
      fun _ _ h => Value.dict.inj h
    exact hdict.list_map (Value.list.inj hv).symm
  refine ⟨events, s₀, hone, hnew, hiff, fun e he => ?_⟩
  rw [hone, List.mem_singleton] at he
  subst he
  refine ⟨rfl, fun iv hiv => .inl ?_, fun d hd => .inl ?_⟩
  · have hfour : intervalOf steadyFlap = some (.fin 4) := rfl
    cases hfour.symm.trans hiv
    rfl
  · have hsecond : durationOf steadyFlap = some (.fin 1) := rfl
    cases hsecond.symm.trans hd
    rfl

/-- A time that is no number, and another event. -/
def untimed : List (Event ExtRat) :=
  [[("at", .num .nan), ("type", .str "link_down"), ("nodes", .list [.int 0, .int 1])],
    [("at", .int 1), ("type", .str "link_up"), ("nodes", .list [.int 0, .int 1])]]

/-- **A schedule without an order**: an event at a time that is no number is accepted. It is pushed
    first, and stays in front. -/
theorem nan_accepted :
    validateConfig ⟨fun _ => true, fun _ => some 16⟩
      [("hosts", .int 3), ("events", .list (untimed.map .dict))] = .ok [] ∧
    ∃ s₀, Scheduler.new untimed true = .ok s₀ ∧ s₀.heap.map (·.atSec) = [.nan, .fin 1] ∧
      ¬ WellTimed untimed s₀ := by
  refine ⟨rfl, _, rfl, rfl, fun h => ?_⟩
  cases h.finite (fun _ => .stopRequested) 0 _ rfl _ List.mem_cons_self

end Proof
end CeforeEmu
