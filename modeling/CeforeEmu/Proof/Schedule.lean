import Mathlib.Algebra.Order.Floor.Semiring
import Mathlib.Data.Rat.Floor
import Mathlib.Tactic
import CeforeEmu.Proof.Repetition

/-!
# What a schedule fires

The closed form of an event list, and that the loop of `_run` fires exactly that, in order.

`expansion T start e` is what an event pushed at `start` fires up to the horizon `T`: itself, at
`start + j * interval` for each of its repetitions, and with each firing that has a restore form
the restore event, `duration` later. The loop knows nothing of it. It rewrites the heap it
drains: the event it pops comes back with one repetition less, next to a restore event that has
none. The link between the two is that the expansion of an entry is its own firing and the
expansion of what `_handle_repeat` pushes for it (`expansion_step`), which is the *worth* of
`Lib.Drain`. A horizon keeps that worth finite when an event repeats forever.
-/

set_option autoImplicit false

namespace CeforeEmu
namespace Proof

open CeforeEmu.Lib CeforeEmu.Core CeforeEmu.Runtime

/-! ## The closed form -/

section ClosedForm

variable (e : Event ℚ)

/-- One firing: the event, and its restore event later. -/
def firing (t : ℚ) : List (ℚ × Event ℚ) := (t, e.without "repeat") :: restoration e t

/-- The first `n` firings of an event pushed at `start`. -/
def firings (start : ℚ) (n : ℕ) : List (ℚ × Event ℚ) :=
  (List.range n).flatMap fun j : ℕ => firing e (start + (j : ℚ) * (intervalOf e).getD 0)

/-- How often an event fires, or, if it does so forever, how often it starts up to `T`. -/
def repetitions (T start : ℚ) : ℕ :=
  match intervalOf e with
  | none => 1
  | some iv =>
      match countOf e with
      | some c => c
      | none => ⌊(T - start) / iv⌋₊ + 1

/-- **What an event fires up to `T`.** -/
def expansion (T start : ℚ) : List (ℚ × Event ℚ) :=
  (firings e start (repetitions e T start)).filter fun f => f.1 ≤ T

end ClosedForm

section Successor

variable {e : Event ℚ} {rep' : Mapping ℚ}
  (hrep : e.get? "repeat" = some (.dict (repeatOf e))) (hsame : SameButCount (repeatOf e) rep')
include hrep hsame

theorem firing_withRepeat (t : ℚ) : firing (withRepeat e rep') t = firing e t := by
  simp only [firing, restoration, withRepeat_without, durationOf_withRepeat hsame,
    restoreEventOf_withRepeat hrep hsame]

theorem firings_withRepeat (t : ℚ) (n : ℕ) : firings (withRepeat e rep') t n = firings e t n := by
  simp only [firings, firing_withRepeat hrep hsame, intervalOf_withRepeat hsame]

end Successor

/-- An event without a repeat form fires once. -/
theorem expansion_once {e : Event ℚ} (h : e.get? "repeat" = none) (T t : ℚ) :
    expansion e T t = [(t, e.without "repeat")].filter fun f => f.1 ≤ T := by
  have hiv : intervalOf e = none := by simp [intervalOf, repeatOf_none h]
  have hdur : durationOf e = none := by simp [durationOf, repeatOf_none h]
  have hrest : restoration e t = [] := by simp only [restoration, hdur]
  simp [expansion, firings, firing, repetitions, hiv, hrest]

/-! ## The expansion, one firing at a time -/

theorem restoration_later {e : Event ℚ} {t : ℚ} {f : ℚ × Event ℚ} (h : f ∈ restoration e t) :
    t < f.1 := by
  rw [restoration] at h
  split at h
  · rename_i d r hd _
    cases List.mem_singleton.mp h
    have := durationOf_pos hd
    simpa using this
  · cases h

theorem firing_later {e : Event ℚ} {t : ℚ} {f : ℚ × Event ℚ} (h : f ∈ firing e t) : t ≤ f.1 := by
  rcases List.mem_cons.mp h with rfl | h
  · exact le_refl t
  · exact (restoration_later h).le

theorem interval_nonneg (e : Event ℚ) : 0 ≤ (intervalOf e).getD 0 := by
  cases h : intervalOf e with
  | none => exact le_refl 0
  | some iv => exact (intervalOf_pos h).le

/-- Nothing fires before its time. -/
theorem firings_later {e : Event ℚ} {start : ℚ} {n : ℕ} {f : ℚ × Event ℚ}
    (h : f ∈ firings e start n) : start ≤ f.1 := by
  obtain ⟨j, -, hj⟩ := List.mem_flatMap.mp h
  have hstep : 0 ≤ (j : ℚ) * (intervalOf e).getD 0 :=
    mul_nonneg (Nat.cast_nonneg j) (interval_nonneg e)
  linarith [firing_later hj]

theorem expansion_later {e : Event ℚ} {T start : ℚ} (h : T < start) : expansion e T start = [] := by
  rw [expansion, List.filter_eq_nil_iff]
  intro f hf
  have := firings_later hf
  simp only [decide_eq_true_eq, not_le]
  linarith

theorem firings_succ (e : Event ℚ) (start : ℚ) (n : ℕ) :
    firings e start (n + 1)
      = firing e start ++ firings e (start + (intervalOf e).getD 0) n := by
  rw [firings, List.range_succ_eq_map, List.flatMap_cons, List.flatMap_map, firings]
  congr 1
  · simp
  · congr 1
    funext j
    congr 1
    push_cast
    ring

theorem expansion_restoration {e : Event ℚ} (he : Schedulable e) (T t : ℚ) :
    (restoration e t).flatMap (fun p => expansion p.2 T p.1)
      = (restoration e t).filter fun f => f.1 ≤ T := by
  rw [restoration]
  split
  · rename_i d r _ hr
    obtain ⟨r', hbuild, -⟩ := he.restore
    rw [restoreEventOf, hbuild] at hr
    subst hr
    obtain ⟨hget, hwithout⟩ := restoreEvent_get? hbuild
    simp only [List.flatMap_cons, List.flatMap_nil, List.append_nil]
    rw [expansion_once hget, hwithout]
  · rfl

/-- The repetitions after the first are those of the successor. -/
theorem expansion_successor {e : Event ℚ} (he : Schedulable e) (T t : ℚ) :
    expansion e T t = (firing e t).filter (fun f => f.1 ≤ T)
      ++ (successor e t).flatMap fun p => expansion p.2 T p.1 := by
  rw [successor]
  cases hiv : intervalOf e with
  | none => simp [expansion, repetitions, hiv, firings]
  | some iv =>
    have hpos := intervalOf_pos hiv
    have hrep := repeat_of_interval he hiv
    cases hc : countOf e with
    | some c =>
      obtain ⟨hcount, hc1⟩ := countOf_spec he hc
      obtain ⟨n, rfl⟩ : ∃ n, c = n + 1 := ⟨c - 1, by omega⟩
      have hexp : expansion e T t = (firing e t ++ firings e (t + iv) n).filter fun f => f.1 ≤ T := by
        simp only [expansion, repetitions, hiv, hc, firings_succ, Option.getD_some]
      rw [hexp, List.filter_append]
      congr 1
      by_cases hn : n + 1 ≤ 1
      · obtain rfl : n = 0 := by omega
        rfl
      · have hsame := SameButCount.set (repeatOf e) (.int ((n + 1 : ℕ) - 1))
        have hleft : countOf (withRepeat e ((repeatOf e).set "count" (.int ((n + 1 : ℕ) - 1))))
            = some n := by
          simp only [countOf, withRepeat_repeatOf, Dict.get?_set_self]
          congr 1
          omega
        simp only [if_neg hn, List.flatMap_cons, List.flatMap_nil, List.append_nil, expansion,
          repetitions, intervalOf_withRepeat hsame, hiv, hleft, firings_withRepeat hrep hsame]
    | none =>
      have hsame := SameButCount.refl (repeatOf e)
      have hcount : countOf (withRepeat e (repeatOf e)) = none := by
        rw [← hc]
        simp only [countOf, withRepeat_repeatOf]
      have hexp : expansion e T t
          = (firing e t ++ firings e (t + iv) ⌊(T - t) / iv⌋₊).filter fun f => f.1 ≤ T := by
        simp only [expansion, repetitions, hiv, hc, firings_succ, Option.getD_some]
      rw [hexp, List.filter_append]
      congr 1
      simp only [List.flatMap_cons, List.flatMap_nil, List.append_nil]
      by_cases hT : T < t + iv
      · -- the next repetition is beyond the horizon
        have hfloor : ⌊(T - t) / iv⌋₊ = 0 := by
          rw [Nat.floor_eq_zero, div_lt_one hpos]
          linarith
        rw [expansion_later hT, hfloor]
        rfl
      · have hfloor := floor_interval hpos (not_lt.mp hT)
        simp only [expansion, repetitions, intervalOf_withRepeat hsame, hiv, hcount,
          firings_withRepeat hrep hsame, hfloor]

/-- **The worth of a firing.** What an event fires is its own firing, and what the events it
    leaves behind fire. -/
theorem expansion_step {e : Event ℚ} (he : Schedulable e) (T t : ℚ) :
    expansion e T t = [(t, e.without "repeat")].filter (fun f => f.1 ≤ T)
      ++ (offspring e t).flatMap fun p => expansion p.2 T p.1 := by
  rw [expansion_successor he, offspring, List.flatMap_append, expansion_restoration he, firing,
    List.filter_cons, List.filter_cons]
  split <;> simp

/-! ## The heap -/

/-- What the heap is ordered by: scheduled time, type priority, insertion number. -/
def Entry.key (a : Entry ℚ) : ℚ ×ₗ ℕ ×ₗ ℕ := toLex (a.atSec, toLex (a.priority, a.seq))

theorem loop_drained {s : Scheduler ℚ} (hs : Orderly s) (hrun : s.halted = false)
    {turns : ℕ → Turn ℚ} (hturns : Undisturbed turns) (n : ℕ) :
    ∃ s', s.loop turns n = .ok s' ∧ Orderly s' ∧
      Drained Entry.rank Leaves (asDrain s) n (asDrain s') := by
  obtain ⟨state, rfl, hloop, horderly, hdrain⟩ := loop_run hs hrun hturns fun _ _ _ _ _ => trivial
  exact ⟨state n, hloop n, horderly n, hdrain.drained n⟩

/-! ## The schedule -/

/-- What has been fired: when, and which event but for its repeat form. -/
def firedPairs (s : Scheduler ℚ) : List (ℚ × Event ℚ) :=
  s.fired.map fun a => (a.atSec, a.event.without "repeat")

/-- What an entry yields, and is worth, up to `T`. -/
def yields (T : ℚ) (a : Entry ℚ) : List (ℚ × Event ℚ) :=
  [(a.atSec, a.event.without "repeat")].filter fun f => f.1 ≤ T

def worth (T : ℚ) (a : Entry ℚ) : List (ℚ × Event ℚ) := expansion a.event T a.atSec

theorem flatMap_yields (T : ℚ) (s : Scheduler ℚ) :
    s.fired.flatMap (yields T) = (firedPairs s).filter fun f => f.1 ≤ T := by
  rw [firedPairs]
  induction s.fired with
  | nil => rfl
  | cons a fired ih =>
    rw [List.flatMap_cons, List.map_cons, ih, yields, ← List.filter_append]
    rfl

theorem worth_spawn (T : ℚ) {a : Entry ℚ} {cs : List (Entry ℚ)} (h : Leaves a cs) :
    (worth T a).Perm (yields T a ++ cs.flatMap (worth T)) := by
  have hcs : cs.flatMap (worth T) = (offspring a.event a.atSec).flatMap fun p => expansion p.2 T p.1 := by
    rw [← h.2.2, List.flatMap_map]
    rfl
  rw [worth, expansion_step h.1, hcs]
  exact List.Perm.refl _

/-- While anything up to `T` is left, the first entry is due by then. -/
theorem yields_of_worth (T : ℚ) {a : Entry ℚ} {rest : List (Entry ℚ)}
    (hmin : ∀ b ∈ rest, Entry.rank a < Entry.rank b) (h : (a :: rest).flatMap (worth T) ≠ []) :
    yields T a ≠ [] := by
  intro hnil
  have hlate : T < a.atSec := by
    simpa [yields] using hnil
  apply h
  rw [List.flatMap_eq_nil_iff]
  intro b hb
  rcases List.mem_cons.mp hb with rfl | hb
  · exact expansion_later hlate
  · exact expansion_later (hlate.trans_le (place_le_of_rank (hmin b hb)))

/-- What the whole list fires up to `T`. -/
def timetable (events : List (Event ℚ)) (T : ℚ) : List (ℚ × Event ℚ) :=
  events.flatMap fun e => expansion e T (atOf e)

theorem worth_start {s : Scheduler ℚ} {events : List (Event ℚ)}
    (h : (s.heap.map scheduled).Perm (events.map fun e => (atOf e, e))) (T : ℚ) :
    (s.heap.flatMap (worth T)).Perm (timetable events T) := by
  have hperm := h.flatMap_right fun p => expansion p.2 T p.1
  rw [List.flatMap_map, List.flatMap_map] at hperm
  exact hperm

/-- **Up to a horizon**, after enough turns, what has been fired is the timetable. -/
theorem drained_upto {s t : Scheduler ℚ} {events : List (Event ℚ)} (hfired : s.fired = [])
    (hstart : (s.heap.map scheduled).Perm (events.map fun e => (atOf e, e))) {n : ℕ}
    (h : Drained Entry.rank Leaves (asDrain s) n (asDrain t)) (T : ℚ)
    (hn : (timetable events T).length ≤ n) :
    t.heap.flatMap (worth T) = [] ∧
      ((firedPairs t).filter fun f => f.1 ≤ T).Perm (timetable events T) := by
  have hworth := worth_start hstart T
  obtain ⟨hnil, hperm⟩ := h.exhausted (worth_spawn T) (yields_of_worth T) hfired
    (hworth.length_eq.trans_le hn)
  refine ⟨hnil, ?_⟩
  rw [← flatMap_yields]
  exact hperm.trans hworth

/-- The event does not repeat forever. -/
def RepeatsFinitely (e : Event ℚ) : Prop := intervalOf e = none ∨ (countOf e).isSome

/-- All that a bounded event fires. -/
def allFirings (e : Event ℚ) : List (ℚ × Event ℚ) := firings e (atOf e) (repetitions e 0 (atOf e))

theorem expansion_bounded {e : Event ℚ} (h : RepeatsFinitely e) (T : ℚ) :
    expansion e T (atOf e) = (allFirings e).filter fun f => f.1 ≤ T := by
  have hrep : repetitions e T (atOf e) = repetitions e 0 (atOf e) := by
    rw [repetitions, repetitions]
    rcases h with hnone | hsome
    · rw [hnone]
    · obtain ⟨c, hc⟩ := Option.isSome_iff_exists.mp hsome
      rw [hc]
  rw [expansion, hrep, allFirings]

/-- A horizon behind everything. -/
theorem exists_horizon (fs : List (ℚ × Event ℚ)) : ∃ T, ∀ f ∈ fs, f.1 ≤ T := by
  induction fs with
  | nil => exact ⟨0, fun f h => by cases h⟩
  | cons f fs ih =>
    obtain ⟨T, hT⟩ := ih
    refine ⟨max f.1 T, fun g hg => ?_⟩
    rcases List.mem_cons.mp hg with rfl | hg
    · exact le_max_left _ _
    · exact (hT g hg).trans (le_max_right _ _)

theorem timetable_bounded {events : List (Event ℚ)} (h : ∀ e ∈ events, RepeatsFinitely e) {T : ℚ}
    (hT : ∀ f ∈ events.flatMap allFirings, f.1 ≤ T) :
    timetable events T = events.flatMap allFirings := by
  rw [timetable]
  apply List.flatMap_congr
  intro e he
  rw [expansion_bounded (h e he), List.filter_eq_self]
  intro f hf
  simpa using hT f (List.mem_flatMap.mpr ⟨e, he, hf⟩)

/-- Beyond every horizon, nothing is left. -/
theorem drained_bounded {s t : Scheduler ℚ} {events : List (Event ℚ)} (hfired : s.fired = [])
    (hstart : (s.heap.map scheduled).Perm (events.map fun e => (atOf e, e)))
    (hbounded : ∀ e ∈ events, RepeatsFinitely e) {n : ℕ} (ht : Orderly t)
    (h : Drained Entry.rank Leaves (asDrain s) n (asDrain t))
    (hn : (events.flatMap allFirings).length ≤ n) :
    t.heap = [] ∧ (firedPairs t).Perm (events.flatMap allFirings) := by
  obtain ⟨T, hT⟩ := exists_horizon (events.flatMap allFirings ++ firedPairs t
    ++ t.heap.map scheduled)
  have hfirings : ∀ f ∈ events.flatMap allFirings, f.1 ≤ T := fun f hf =>
    hT f (List.mem_append_left _ (List.mem_append_left _ hf))
  have htimes : timetable events T = events.flatMap allFirings :=
    timetable_bounded hbounded hfirings
  obtain ⟨hnil, hperm⟩ := drained_upto hfired hstart h T (htimes ▸ hn)
  refine ⟨?_, ?_⟩
  · -- an entry that were left would still fire by `T`
    rw [List.eq_nil_iff_forall_not_mem]
    intro a ha
    have hdue : a.atSec ≤ T :=
      hT (scheduled a) (List.mem_append_right _ (List.mem_map.mpr ⟨a, ha, rfl⟩))
    have hworth := List.flatMap_eq_nil_iff.mp hnil a ha
    rw [worth, expansion_step (ht.events a ha), List.append_eq_nil_iff] at hworth
    simp [hdue] at hworth
  · have hall : ((firedPairs t).filter fun f => f.1 ≤ T) = firedPairs t := by
      rw [List.filter_eq_self]
      intro f hf
      simpa using hT f (List.mem_append_left _ (List.mem_append_right _ hf))
    rw [hall, htimes] at hperm
    exact hperm

/-- **Event expansion.** From a list of accepted events, with no stop request and whatever else
    the handlers do: what is fired is sorted by time, priority and insertion number; up to any
    horizon it comes to be exactly the timetable; and if no event repeats forever, the heap runs
    empty and every firing has happened. -/
theorem schedule_fires_timetable {checks : EventChecks ℚ} {events : List (Event ℚ)}
    (hacc : ∀ e ∈ events, Accepted checks e) (hasSink : Bool) {turns : ℕ → Turn ℚ}
    (hturns : Undisturbed turns) :
    ∃ s₀, Scheduler.new events hasSink = .ok s₀ ∧
      (∀ n, ∃ s, s₀.loop turns n = .ok s ∧
        s.fired.Pairwise (fun a b => Entry.key a < Entry.key b) ∧
        ∀ a ∈ s.fired, a.priority = eventPriority a.event) ∧
      (∀ T, ∃ N, ∀ n s, N ≤ n → s₀.loop turns n = .ok s →
        ((firedPairs s).filter fun f => f.1 ≤ T).Perm (timetable events T)) ∧
      ((∀ e ∈ events, RepeatsFinitely e) → ∃ N, ∀ n s, N ≤ n → s₀.loop turns n = .ok s →
        s.heap = [] ∧ (firedPairs s).Perm (events.flatMap allFirings)) := by
  obtain ⟨s₀, hnew, hfired, hrun, hstart, horderly⟩ := new_spec hacc hasSink
  have hs₀ : Orderly s₀ := horderly fun _ _ => trivial
  refine ⟨s₀, hnew, ?_, ?_, ?_⟩
  · intro n
    obtain ⟨s, hloop, hs, hdrain⟩ := loop_drained hs₀ hrun hturns n
    -- a rational is where it is, so the rank of an entry is its key
    refine ⟨s, hloop, (hdrain.sorted hfired).1, fun a ha => ?_⟩
    exact hs.priorities a (List.mem_append_right _ ha)
  · intro T
    refine ⟨(timetable events T).length, fun n s hn hloop => ?_⟩
    obtain ⟨s', hloop', -, hdrain⟩ := loop_drained hs₀ hrun hturns n
    cases hloop.symm.trans hloop'
    exact (drained_upto hfired hstart hdrain T hn).2
  · intro hbounded
    refine ⟨(events.flatMap allFirings).length, fun n s hn hloop => ?_⟩
    obtain ⟨s', hloop', hs, hdrain⟩ := loop_drained hs₀ hrun hturns n
    cases hloop.symm.trans hloop'
    exact drained_bounded hfired hstart hbounded hs hdrain hn

/-- A link that goes down every ten seconds and comes back three later, and a publication. -/
def flapAndPut : List (Event ℚ) :=
  [[("at", .int 5), ("type", .str "link_down"), ("nodes", .list [.int 0, .int 1]),
      ("repeat", .dict [("interval", .int 10), ("duration", .int 3), ("restore_type", .str "link_up")])],
    [("at", .int 5), ("type", .str "put"), ("host", .int 0), ("uri", .str "ccnx:/a"),
      ("file", .str "a")]]

def noFieldRules : EventChecks ℚ := ⟨fun _ _ _ => [], fun _ _ _ => [], fun _ _ => []⟩

theorem flapAndPut_fires_timetable :
    (∀ e ∈ flapAndPut, Accepted noFieldRules e) ∧
      ∃ s₀, Scheduler.new flapAndPut true = .ok s₀ ∧ ∃ N, ∀ n s, N ≤ n →
        s₀.loop (fun _ => .fire .returned) n = .ok s →
        ((firedPairs s).filter fun f => f.1 ≤ 20).Perm (timetable flapAndPut 20) := by
  have hacc : ∀ e ∈ flapAndPut, Accepted noFieldRules e := by
    intro e he
    simp only [flapAndPut, List.mem_cons, List.not_mem_nil, or_false] at he
    rcases he with rfl | rfl
    · exact ⟨0, by rfl⟩
    · exact ⟨1, by rfl⟩
  have hturns : Undisturbed fun _ => (.fire .returned : Turn ℚ) :=
    fun _ => ⟨.returned, rfl, fun _ h => by cases h⟩
  obtain ⟨s₀, hnew, -, hupto, -⟩ := schedule_fires_timetable hacc true hturns
  exact ⟨hacc, s₀, hnew, hupto 20⟩

end Proof
end CeforeEmu
