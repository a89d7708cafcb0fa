import Mathlib.Data.Prod.Lex
import CeforeEmu.Lib.Drain
import CeforeEmu.Lib.TimeLine
import CeforeEmu.Proof.EventAcceptance

/-!
# What an event leaves behind

An event that is fired is pushed again with one repetition less, and with a restore event, as far as
its repeat form says so: that is its `offspring`, and `_handle_repeat` pushes just this of every
event the validator accepts (`handleRepeat_eq`).

The loop of `_run` is then a queue that refills itself (`loop_run`, for `Lib.Drain`), as long as the
times on the heap are finite (`Orderly`): only then are the entries in an order at all.
-/

set_option autoImplicit false

namespace CeforeEmu
namespace Proof

open CeforeEmu.Lib CeforeEmu.Core CeforeEmu.Runtime

/-! ## The repeat form -/

section RepeatForm

variable {τ : Type} [DecidableEq τ]

def repeatOf (e : Event τ) : Mapping τ :=
  match e.get? "repeat" with
  | some (.dict rep) => rep
  | _ => []

def countOf (e : Event τ) : Option ℕ :=
  match (repeatOf e).get? "count" with
  | some (.int n) => some n.toNat
  | _ => none

def restoreEventOf (e : Event τ) : Option (Event τ) :=
  match buildRestoreEvent e with
  | .ok r => r
  | .error _ => none

/-- The event with another repeat form. -/
def withRepeat (e : Event τ) (rep : Mapping τ) : Event τ := e.set "repeat" (.dict rep)

theorem repeatOf_none {e : Event τ} (h : e.get? "repeat" = none) : repeatOf e = [] := by
  simp only [repeatOf, h]

@[simp] theorem withRepeat_repeatOf (e : Event τ) (rep : Mapping τ) :
    repeatOf (withRepeat e rep) = rep := by
  simp only [repeatOf, withRepeat, Dict.get?_set_self]

theorem withRepeat_get? (e : Event τ) (rep : Mapping τ) {key : String}
    (h : key ≠ "repeat") : (withRepeat e rep).get? key = e.get? key :=
  Dict.get?_set_ne e _ (Key.str_ne h)

@[simp] theorem withRepeat_without (e : Event τ) (rep : Mapping τ) :
    (withRepeat e rep).without "repeat" = e.without "repeat" :=
  Dict.without_set_self e _ _

/-- A repeat form that differs in its count. -/
structure SameButCount (rep rep' : Mapping τ) : Prop where
  same : ∀ {key : String}, key ≠ "count" → rep'.get? key = rep.get? key

theorem SameButCount.refl (rep : Mapping τ) : SameButCount rep rep := ⟨fun _ => rfl⟩

theorem SameButCount.set (rep : Mapping τ) (v : Value τ) :
    SameButCount rep (rep.set "count" v) := ⟨fun h => Dict.get?_set_ne rep v (Key.str_ne h)⟩

theorem buildRestoreEvent_withRepeat {e : Event τ} {rep' : Mapping τ}
    (hrep : e.get? "repeat" = some (.dict (repeatOf e))) (hsame : SameButCount (repeatOf e) rep') :
    buildRestoreEvent (withRepeat e rep') = buildRestoreEvent e :=
  restore_set_repeat hrep (hsame.same (by decide)) (hsame.same (by decide))

theorem restoreEventOf_withRepeat {e : Event τ} {rep' : Mapping τ}
    (hrep : e.get? "repeat" = some (.dict (repeatOf e))) (hsame : SameButCount (repeatOf e) rep') :
    restoreEventOf (withRepeat e rep') = restoreEventOf e := by
  rw [restoreEventOf, restoreEventOf, buildRestoreEvent_withRepeat hrep hsame]

variable [IntCast τ]

/-- The time an event is pushed at. -/
def atOf (e : Event τ) : τ := ((e.get? "at").bind Value.number?).getD ((0 : ℤ) : τ)

variable [LT τ] [DecidableLT τ]

/-- The interval of a periodic event. -/
def intervalOf (e : Event τ) : Option τ :=
  (((repeatOf e).get? "interval").bind Value.number?).filter fun x => ((0 : ℤ) : τ) < x

/-- The delay of the restore event, if there is one. -/
def durationOf (e : Event τ) : Option τ :=
  (((repeatOf e).get? "duration").bind Value.number?).filter fun x => ((0 : ℤ) : τ) < x

theorem intervalOf_pos {e : Event τ} {iv : τ} (h : intervalOf e = some iv) : ((0 : ℤ) : τ) < iv := by
  simpa using (Option.filter_eq_some_iff.mp h).2

theorem durationOf_pos {e : Event τ} {d : τ} (h : durationOf e = some d) : ((0 : ℤ) : τ) < d := by
  simpa using (Option.filter_eq_some_iff.mp h).2

section Same

variable {e : Event τ} {rep' : Mapping τ} (hsame : SameButCount (repeatOf e) rep')
include hsame

theorem intervalOf_withRepeat : intervalOf (withRepeat e rep') = intervalOf e := by
  simp only [intervalOf, withRepeat_repeatOf, hsame.same (show "interval" ≠ "count" by decide)]

theorem durationOf_withRepeat : durationOf (withRepeat e rep') = durationOf e := by
  simp only [durationOf, withRepeat_repeatOf, hsame.same (show "duration" ≠ "count" by decide)]

end Same

variable [Add τ]

/-- What a firing at `t` restores, and when. -/
def restoration (e : Event τ) (t : τ) : List (τ × Event τ) :=
  match durationOf e, restoreEventOf e with
  | some d, some r => [(t + d, r)]
  | _, _ => []

/-- The repetition that follows a firing at `t`. -/
def successor (e : Event τ) (t : τ) : List (τ × Event τ) :=
  match intervalOf e with
  | none => []
  | some iv =>
      match countOf e with
      | none => [(t + iv, withRepeat e (repeatOf e))]
      | some c =>
          if c ≤ 1 then []
          else [(t + iv, withRepeat e ((repeatOf e).set "count" (.int (c - 1))))]

/-- What `_handle_repeat` pushes for an event fired at `t`. -/
def offspring (e : Event τ) (t : τ) : List (τ × Event τ) := restoration e t ++ successor e t

theorem mem_restoration {e : Event τ} {t : τ} {p : τ × Event τ} :
    p ∈ restoration e t ↔ ∃ d r, durationOf e = some d ∧ restoreEventOf e = some r ∧ p = (t + d, r) := by
  rw [restoration]
  split
  · rename_i d r hd hr
    constructor
    · intro hp
      exact ⟨d, r, hd, hr, List.mem_singleton.mp hp⟩
    · rintro ⟨d', r', hd', hr', rfl⟩
      rw [hd] at hd'
      rw [hr] at hr'
      cases hd'
      cases hr'
      exact List.mem_singleton_self _
  · rename_i hnone
    constructor
    · intro hp
      cases hp
    · rintro ⟨d, r, hd, hr, -⟩
      exact absurd hr (hnone d r hd)

/-- The repetition is the event with a count that is one less, if it has one. -/
theorem mem_successor {e : Event τ} {t : τ} {p : τ × Event τ} (h : p ∈ successor e t) :
    ∃ iv rep', intervalOf e = some iv ∧ countOf e ≠ some 1 ∧ p = (t + iv, withRepeat e rep') ∧
      SameButCount (repeatOf e) rep' ∧
      (rep' = repeatOf e ∨ ∃ c, 2 ≤ c ∧ countOf e = some c ∧ rep'.get? "count" = some (.int (c - 1))) := by
  rw [successor] at h
  split at h
  · cases h
  · rename_i iv hiv
    split at h
    · rename_i hc
      exact ⟨iv, _, hiv, by rw [hc]; simp, List.mem_singleton.mp h, .refl _, .inl rfl⟩
    · rename_i c hc
      split at h
      · cases h
      · rename_i hle
        refine ⟨iv, _, hiv, ?_, List.mem_singleton.mp h, .set _ _,
          .inr ⟨c, by omega, hc, Dict.get?_set_self _ _ _⟩⟩
        rw [hc]
        intro hone
        cases hone
        exact hle le_rfl

/-- Without a repeat form nothing is left behind. -/
theorem offspring_none {e : Event τ} (h : repeatOf e = []) (t : τ) : offspring e t = [] := by
  simp [offspring, restoration, successor, durationOf, intervalOf, h]

end RepeatForm

/-! ## Events the validator accepts -/

section Schedulable

variable {τ : Type} [DecidableEq τ] [IntCast τ]

/-- What the scheduler needs of an event. -/
structure Schedulable (e : Event τ) : Prop where
  handled : ∃ t, e.get? "type" = some (.str t) ∧ eventHandlers.contains t = true
  repeat_dict : ∀ {v}, e.get? "repeat" = some v → ∃ rep, v = .dict rep
  interval : ∀ {v}, (repeatOf e).get? "interval" = some v → ∃ x, v.number? = some x
  duration : ∀ {v}, (repeatOf e).get? "duration" = some v → v ≠ .null ∧ ∃ x, v.number? = some x
  count : ∀ {v}, (repeatOf e).get? "count" = some v → v = .null ∨ ∃ n : ℤ, v = .int n ∧ 1 ≤ n
  restore : ∃ r, buildRestoreEvent e = .ok r ∧
    ∀ r₀ ∈ r, ∃ t, r₀.get? "type" = some (.str t) ∧ eventHandlers.contains t = true

variable {e : Event τ}

theorem repeatOf_eq (he : Schedulable e) {v : Value τ} {key : String}
    (h : (repeatOf e).get? key = some v) : e.get? "repeat" = some (.dict (repeatOf e)) := by
  cases hr : e.get? "repeat" with
  | none => simp [repeatOf, hr] at h
  | some w =>
    obtain ⟨rep, rfl⟩ := he.repeat_dict hr
    simp only [repeatOf, hr]

theorem countOf_spec (he : Schedulable e) {c : ℕ} (h : countOf e = some c) :
    (repeatOf e).get? "count" = some (.int c) ∧ 1 ≤ c := by
  rw [countOf] at h
  split at h
  · rename_i n hn
    obtain hnull | ⟨m, hm, hpos⟩ := he.count hn
    · cases hnull
    · cases hm
      cases h
      exact ⟨by rw [hn, Int.toNat_of_nonneg (by omega)], by omega⟩
  · cases h

/-- A repetition is schedulable. -/
theorem schedulable_withRepeat {rep' : Mapping τ}
    (hrep : e.get? "repeat" = some (.dict (repeatOf e))) (hsame : SameButCount (repeatOf e) rep')
    (he : Schedulable e)
    (hcount : ∀ {v}, rep'.get? "count" = some v → v = .null ∨ ∃ n : ℤ, v = .int n ∧ 1 ≤ n) :
    Schedulable (withRepeat e rep') := by
  refine ⟨?_, ?_, ?_, ?_, ?_, ?_⟩
  · rw [withRepeat_get? e rep' (by decide)]
    exact he.handled
  · intro v hv
    rw [withRepeat, Dict.get?_set_self] at hv
    exact ⟨rep', (Option.some.inj hv).symm⟩
  · rw [withRepeat_repeatOf, hsame.same (by decide)]
    exact he.interval
  · rw [withRepeat_repeatOf, hsame.same (by decide)]
    exact he.duration
  · rw [withRepeat_repeatOf]
    exact hcount
  · rw [buildRestoreEvent_withRepeat hrep hsame]
    exact he.restore

/-- What is restored has no repeat form, and is schedulable. -/
theorem schedulable_restored (he : Schedulable e) {r : Event τ} (h : restoreEventOf e = some r) :
    r.get? "repeat" = none ∧ r.without "repeat" = r ∧ Schedulable r := by
  obtain ⟨r', hbuild, hknown⟩ := he.restore
  rw [restoreEventOf, hbuild] at h
  subst h
  obtain ⟨hget, hwithout⟩ := restoreEvent_get? hbuild
  have hof := repeatOf_none hget
  have hnone : buildRestoreEvent r = .ok none := by simp only [buildRestoreEvent, hget]
  refine ⟨hget, hwithout, hknown r rfl, ?_, ?_, ?_, ?_, ⟨none, hnone, fun r₀ h => by cases h⟩⟩
  · intro v hv
    rw [hget] at hv
    cases hv
  all_goals
    rw [hof]
    intro v hv
    cases hv

variable [LT τ] [DecidableLT τ]

/-- **An accepted event is schedulable**, at a time that is not negative. -/
theorem schedulable_of_accepted [LE τ] [DecidableLE τ] [FloatFacts τ] {checks : EventChecks τ}
    {idx : ℕ} (h : eventErrors checks idx e = .ok []) :
    Schedulable e ∧ ∃ v x, e.get? "at" = some v ∧ v.number? = some x ∧ ¬ x < ((0 : ℤ) : τ) := by
  refine ⟨?_, accepted_at h⟩
  obtain ⟨t, ht⟩ := accepted_self h
  have hhandled : ∃ t, e.get? "type" = some (.str t) ∧ eventHandlers.contains t = true :=
    ⟨t, ht.type, handled_of_eventType ht.known⟩
  obtain ⟨r, hr, hrestored⟩ := accepted_restore h
  have hrestore : ∃ r, buildRestoreEvent e = .ok r ∧
      ∀ r₀ ∈ r, ∃ t, r₀.get? "type" = some (.str t) ∧ eventHandlers.contains t = true := by
    refine ⟨r, hr, fun r₀ hr₀ => ?_⟩
    obtain ⟨t', ht', -⟩ := hrestored r₀ hr₀
    exact ⟨t', ht'.type, handled_of_eventType ht'.known⟩
  rcases repeatErrors_nil (accepted_parts h).2.1 with
    hnone | ⟨rep, hdict, hiv, hdur, hcount, -, -, -⟩
  · have hof : repeatOf e = [] := repeatOf_none hnone
    refine ⟨hhandled, ?_, ?_, ?_, ?_, hrestore⟩
    · intro v hv
      rw [hnone] at hv
      cases hv
    all_goals
      rw [hof]
      intro v hv
      cases hv
  · have hof : repeatOf e = rep := by simp only [repeatOf, hdict]
    refine ⟨hhandled, ?_, fun {v} hv => ?_, hof ▸ hdur, hof ▸ hcount, hrestore⟩
    · intro v hv
      rw [hdict] at hv
      exact ⟨rep, (Option.some.inj hv).symm⟩
    · rw [hof] at hv
      obtain ⟨x, hx, -⟩ := hiv hv
      exact ⟨x, hx⟩

theorem repeat_of_interval (he : Schedulable e) {iv : τ} (h : intervalOf e = some iv) :
    e.get? "repeat" = some (.dict (repeatOf e)) := by
  cases hget : (repeatOf e).get? "interval" with
  | none => simp [intervalOf, hget] at h
  | some v => exact repeatOf_eq he hget

variable [Add τ]

/-- What an event leaves behind comes later by an interval or a duration, and is schedulable. -/
theorem offspring_spec (he : Schedulable e) {t : τ} {p : τ × Event τ} (hp : p ∈ offspring e t) :
    (∃ d, ((0 : ℤ) : τ) < d ∧ p.1 = t + d) ∧ Schedulable p.2 := by
  rcases List.mem_append.mp hp with hp | hp
  · obtain ⟨d, r, hd, hr, rfl⟩ := mem_restoration.mp hp
    exact ⟨⟨d, durationOf_pos hd, rfl⟩, (schedulable_restored he hr).2.2⟩
  · obtain ⟨iv, rep', hiv, -, rfl, hsame, hcount⟩ := mem_successor hp
    refine ⟨⟨iv, intervalOf_pos hiv, rfl⟩,
      schedulable_withRepeat (repeat_of_interval he hiv) hsame he ?_⟩
    rcases hcount with rfl | ⟨c, hc, -, hleft⟩
    · exact he.count
    · intro v hv
      rw [hleft] at hv
      exact .inr ⟨_, (Option.some.inj hv).symm, by omega⟩

end Schedulable

/-! ## What `_handle_repeat` pushes -/

section Pushing

variable {τ : Type} [DecidableEq τ] [LT τ] [DecidableLT τ]

/-- Pushing one after the other. -/
def pushed (s : Scheduler τ) : List (τ × Event τ) → Scheduler τ
  | [] => s
  | p :: ps => pushed { s with
      heap := heappush ⟨p.1, eventPriority p.2, s.seq, p.2⟩ s.heap, seq := s.seq + 1 } ps

theorem pushed_append (s : Scheduler τ) (ps qs : List (τ × Event τ)) :
    pushed s (ps ++ qs) = pushed (pushed s ps) qs := by
  induction ps generalizing s with
  | nil => rfl
  | cons p ps ih => exact ih _

theorem pushEvent_eq {s : Scheduler τ} {e : Event τ} (t : τ)
    (h : ∃ n, e.get? "type" = some (.str n) ∧ eventHandlers.contains n = true) :
    s.pushEvent t e = .ok (pushed s [(t, e)]) := by
  obtain ⟨n, hn, -⟩ := h
  simp only [Scheduler.pushEvent, hn, unhashable?, pushed]

variable [IntCast τ] [Add τ] {e : Event τ} (he : Schedulable e) (s : Scheduler τ) (t : τ)
include he

theorem pushRestore_eq : s.pushRestore e (repeatOf e) t = .ok (pushed s (restoration e t)) := by
  rw [Scheduler.pushRestore, restoration]
  split
  · rename_i hget
    simp [durationOf, hget, pushed]
  · rename_i hget
    exact absurd rfl (he.duration hget).1
  · rename_i v _ hget
    obtain ⟨-, x, hx⟩ := he.duration hget
    obtain ⟨r, hr, hknown⟩ := he.restore
    simp only [hx, durationOf, hget, Option.bind_some, restoreEventOf, hr]
    by_cases hpos : ((0 : ℤ) : τ) < x
    · rw [if_pos hpos, Option.filter_some_pos (by simpa using hpos)]
      cases r with
      | none => rfl
      | some r₀ => exact pushEvent_eq _ (hknown r₀ rfl)
    · rw [if_neg hpos, Option.filter_some_neg (by simpa using hpos)]
      rfl

variable [Sub τ] [LE τ] [DecidableLE τ] [TimeLine τ]

theorem pushNext_eq : s.pushNext e (repeatOf e) t = .ok (pushed s (successor e t)) := by
  rw [Scheduler.pushNext, successor]
  cases hget : (repeatOf e).get? "interval" with
  | none => simp [intervalOf, hget, Value.number?, pushed, TimeLine.zero_not_lt τ]
  | some v =>
    obtain ⟨x, hx⟩ := he.interval hget
    simp only [Option.getD_some, hx, intervalOf, hget, Option.bind_some]
    by_cases hpos : ((0 : ℤ) : τ) < x
    · have hevent : ∀ rep', ∃ n, (withRepeat e rep').get? "type" = some (.str n) ∧
          eventHandlers.contains n = true := by
        intro rep'
        rw [withRepeat_get? e rep' (by decide)]
        exact he.handled
      rw [if_pos hpos, Option.filter_some_pos (by simpa using hpos)]
      simp only [countOf]
      cases hcount : (repeatOf e).get? "count" with
      | none => exact pushEvent_eq _ (hevent _)
      | some w =>
        obtain rfl | ⟨n, rfl, hn⟩ := he.count hcount
        · exact pushEvent_eq _ (hevent _)
        · simp only [Scheduler.remaining]
          by_cases hle : n - 1 ≤ 0
          · rw [if_pos (by omega)]
            simp [hle, pushed]
          · rw [if_neg (by omega)]
            have hleft : ((n.toNat : ℤ) - 1) = n - 1 := by omega
            simp only [hle, decide_false, hleft]
            exact pushEvent_eq _ (hevent _)
    · rw [if_neg hpos, Option.filter_some_neg (by simpa using hpos)]
      rfl

/-- **`_handle_repeat`** on an accepted event pushes its offspring. -/
theorem handleRepeat_eq : s.handleRepeat e t = .ok (pushed s (offspring e t)) := by
  rw [Scheduler.handleRepeat]
  cases hget : e.get? "repeat" with
  | none => rw [offspring_none (repeatOf_none hget), pushed]
  | some v =>
    obtain ⟨rep, rfl⟩ := he.repeat_dict hget
    have hrep : repeatOf e = rep := by simp only [repeatOf, hget]
    simp only
    by_cases htruthy : (Value.dict rep : Value τ).truthy = true
    · rw [if_pos htruthy, ← hrep, pushRestore_eq he]
      simp only
      rw [pushNext_eq he, offspring, pushed_append]
    · rw [if_neg htruthy]
      have hempty : rep = [] := by
        simpa [Value.truthy] using htruthy
      rw [offspring_none (hrep.trans hempty), pushed]

end Pushing

/-! ## The heap -/

section Heap

variable {τ : Type} [IntCast τ] [Add τ] [LT τ] [TimeLine τ] {a b x : Entry τ}

/-- What the heap is ordered by: scheduled time, type priority, insertion number. -/
def Entry.rank (a : Entry τ) : ℚ ×ₗ ℕ ×ₗ ℕ := toLex (TimeLine.place a.atSec, toLex (a.priority, a.seq))

theorem rank_seq (h : Entry.rank a = Entry.rank b) : a.seq = b.seq := by
  simp only [Entry.rank, toLex_inj, Prod.mk.injEq] at h
  exact h.2.2

theorem rank_lt_of_place (h : TimeLine.place a.atSec < TimeLine.place b.atSec) :
    Entry.rank a < Entry.rank b := by
  rw [Entry.rank, Entry.rank, Prod.Lex.toLex_lt_toLex]
  exact .inl h

theorem place_le_of_rank (h : Entry.rank a < Entry.rank b) :
    TimeLine.place a.atSec ≤ TimeLine.place b.atSec := by
  rw [Entry.rank, Entry.rank, Prod.Lex.toLex_lt_toLex] at h
  rcases h with h | ⟨h, -⟩
  · exact h.le
  · exact h.le

variable [DecidableEq τ] [DecidableLT τ]

/-- Finite times are compared where they are. -/
theorem before_iff (ha : TimeLine.Finite a.atSec) (hb : TimeLine.Finite b.atSec) :
    a.before b = true ↔ Entry.rank a < Entry.rank b := by
  rw [Entry.before, Entry.rank, Entry.rank, Prod.Lex.toLex_lt_toLex, Prod.Lex.toLex_lt_toLex]
  by_cases hat : a.atSec = b.atSec
  · by_cases hp : a.priority = b.priority
    · simp [hat, hp]
    · simp [hat, hp]
  · have hplace : TimeLine.place a.atSec ≠ TimeLine.place b.atSec := fun h =>
      hat (TimeLine.place_injective ha hb h)
    simp [hat, hplace, TimeLine.lt_iff ha hb]

omit [IntCast τ] [Add τ] [TimeLine τ] in
theorem heappush_perm (x : Entry τ) (heap : List (Entry τ)) :
    (heappush x heap).Perm (heap ++ [x]) := by
  induction heap with
  | nil => exact List.Perm.refl _
  | cons e heap ih =>
    rw [heappush]
    split
    · exact (List.perm_append_singleton x (e :: heap)).symm
    · exact ih.cons e

theorem heappush_sorted {heap : List (Entry τ)} (hfinite : ∀ b ∈ heap, TimeLine.Finite b.atSec)
    (hx : TimeLine.Finite x.atSec) (hs : heap.Pairwise fun a b => Entry.rank a < Entry.rank b)
    (hseq : ∀ b ∈ heap, b.seq < x.seq) :
    (heappush x heap).Pairwise fun a b => Entry.rank a < Entry.rank b := by
  induction heap with
  | nil => exact List.pairwise_singleton _ _
  | cons e heap ih =>
    obtain ⟨hmin, hrest⟩ := List.pairwise_cons.mp hs
    rw [heappush]
    split
    · rename_i hbefore
      rw [before_iff hx (hfinite e List.mem_cons_self)] at hbefore
      refine List.pairwise_cons.mpr ⟨fun b hb => ?_, hs⟩
      rcases List.mem_cons.mp hb with rfl | hb
      · exact hbefore
      · exact hbefore.trans (hmin b hb)
    · rename_i hbefore
      refine List.pairwise_cons.mpr ⟨fun b hb => ?_,
        ih (fun b hb => hfinite b (List.mem_cons_of_mem _ hb)) hrest
          fun b hb => hseq b (List.mem_cons_of_mem _ hb)⟩
      rcases List.mem_append.mp ((heappush_perm x heap).mem_iff.mp hb) with hb | hb
      · exact hmin b hb
      · cases List.mem_singleton.mp hb
        -- the new insertion number makes the ranks differ
        rw [before_iff hx (hfinite e List.mem_cons_self), not_lt] at hbefore
        refine lt_of_le_of_ne hbefore fun heq => ?_
        have := hseq e List.mem_cons_self
        have := rank_seq heq
        omega

end Heap

/-! ## The loop -/

section Loop

variable {τ : Type} [IntCast τ] [Add τ] [LT τ] [TimeLine τ] [DecidableEq τ] [DecidableLT τ]

/-- An entry as it was scheduled. -/
def scheduled (a : Entry τ) : τ × Event τ := (a.atSec, a.event)

/-- The heap is sorted by times that are finite, the next insertion number is new, and its events
    can be fired. -/
structure Orderly (s : Scheduler τ) : Prop where
  finite : ∀ a ∈ s.heap, TimeLine.Finite a.atSec
  sorted : s.heap.Pairwise fun a b => Entry.rank a < Entry.rank b
  fresh : ∀ a ∈ s.heap, a.seq < s.seq
  events : ∀ a ∈ s.heap, Schedulable a.event
  priorities : ∀ a ∈ s.heap ++ s.fired, a.priority = eventPriority a.event

variable {s s' : Scheduler τ}

theorem Orderly.push (hs : Orderly s) {t : τ} {e : Event τ} (ht : TimeLine.Finite t)
    (he : Schedulable e) : Orderly (pushed s [(t, e)]) := by
  have hmem : ∀ {a}, a ∈ heappush ⟨t, eventPriority e, s.seq, e⟩ s.heap →
      a ∈ s.heap ∨ a = ⟨t, eventPriority e, s.seq, e⟩ := by
    intro a ha
    rcases List.mem_append.mp ((heappush_perm _ _).mem_iff.mp ha) with ha | ha
    · exact .inl ha
    · exact .inr (List.mem_singleton.mp ha)
  refine ⟨?_, heappush_sorted hs.finite ht hs.sorted hs.fresh, ?_, ?_, ?_⟩
  · intro a ha
    rcases hmem ha with ha | rfl
    · exact hs.finite a ha
    · exact ht
  · intro a ha
    rcases hmem ha with ha | rfl
    · exact (hs.fresh a ha).trans (Nat.lt_succ_self _)
    · exact Nat.lt_succ_self _
  · intro a ha
    rcases hmem ha with ha | rfl
    · exact hs.events a ha
    · exact he
  · intro a ha
    rcases List.mem_append.mp ha with ha | ha
    · rcases hmem ha with ha | rfl
      · exact hs.priorities a (List.mem_append_left _ ha)
      · rfl
    · exact hs.priorities a (List.mem_append_right _ ha)

omit [IntCast τ] [Add τ] [TimeLine τ] in
/-- **Pushing** adds one entry for each event. -/
theorem pushed_spec (ps : List (τ × Event τ)) : ∀ s : Scheduler τ,
    (pushed s ps).fired = s.fired ∧ (pushed s ps).halted = s.halted ∧
      ∃ cs, (pushed s ps).heap.Perm (s.heap ++ cs) ∧ cs.map scheduled = ps := by
  induction ps with
  | nil =>
    intro s
    refine ⟨rfl, rfl, [], ?_, rfl⟩
    rw [List.append_nil]
    exact List.Perm.refl _
  | cons p ps ih =>
    intro s
    obtain ⟨hfired, hhalted, cs, hperm, hcs⟩ := ih { s with
      heap := heappush ⟨p.1, eventPriority p.2, s.seq, p.2⟩ s.heap, seq := s.seq + 1 }
    refine ⟨hfired, hhalted, ⟨p.1, eventPriority p.2, s.seq, p.2⟩ :: cs, ?_, ?_⟩
    · refine hperm.trans ?_
      refine ((heappush_perm _ _).append_right cs).trans ?_
      rw [List.append_assoc]
      exact List.Perm.refl _
    · rw [List.map_cons, hcs]
      rfl

theorem Orderly.pushed {ps : List (τ × Event τ)} :
    ∀ {s : Scheduler τ}, Orderly s → (∀ p ∈ ps, TimeLine.Finite p.1 ∧ Schedulable p.2) →
      Orderly (pushed s ps) := by
  induction ps with
  | nil =>
    intro s hs _
    exact hs
  | cons p ps ih =>
    intro s hs hps
    obtain ⟨ht, he⟩ := hps p List.mem_cons_self
    exact ih (hs.push ht he) fun q hq => hps q (List.mem_cons_of_mem _ hq)

/-- Firing an entry leaves its offspring behind. -/
def Leaves (a : Entry τ) (cs : List (Entry τ)) : Prop :=
  Schedulable a.event ∧ (∀ b ∈ a :: cs, TimeLine.Finite b.atSec) ∧
    cs.map scheduled = offspring a.event a.atSec

def asDrain (s : Scheduler τ) : Drain (Entry τ) := ⟨s.heap, s.fired⟩

omit [IntCast τ] [Add τ] [LT τ] [TimeLine τ] [DecidableLT τ] in
theorem recordEventOutcome_eq (s : Scheduler τ) (t : String) (a : Entry τ) (v : Verdict τ) :
    ∃ records, s.recordEventOutcome t a v = { s with records := records } := by
  rw [Scheduler.recordEventOutcome]
  split
  · exact ⟨s.records, rfl⟩
  · exact ⟨_, rfl⟩

omit [DecidableLT τ] in
/-- The state the offspring are pushed onto. -/
theorem Orderly.rest (hs : Orderly s) {a : Entry τ} {rest : List (Entry τ)} (hheap : s.heap = a :: rest)
    (records : List (EventRecord τ)) (halted : Bool) :
    Orderly { s with heap := rest, fired := s.fired ++ [a], records := records, halted := halted } := by
  have hmem : ∀ {b}, b ∈ rest → b ∈ s.heap := by
    intro b hb
    rw [hheap]
    exact List.mem_cons_of_mem _ hb
  refine ⟨fun b hb => hs.finite b (hmem hb), ?_, fun b hb => hs.fresh b (hmem hb),
    fun b hb => hs.events b (hmem hb), ?_⟩
  · have hsorted := hs.sorted
    rw [hheap] at hsorted
    exact (List.pairwise_cons.mp hsorted).2
  · intro b hb
    apply hs.priorities b
    simp only [hheap, List.mem_append, List.mem_cons, List.not_mem_nil, or_false] at hb ⊢
    tauto

variable [Sub τ] [LE τ] [DecidableLE τ]

/-- A turn that fires, however the handler ends. -/
theorem step_fire (hs : Orderly s) (hrun : s.halted = false) {a : Entry τ} {rest : List (Entry τ)}
    (hheap : s.heap = a :: rest) {v : Verdict τ} (hv : ∀ msg, v ≠ .fatal msg) :
    ∃ records, s.step (.fire v) = .ok (pushed { s with
      heap := rest, fired := s.fired ++ [a], records := records } (offspring a.event a.atSec)) := by
  have he := hs.events a (hheap ▸ List.mem_cons_self)
  obtain ⟨t, ht, hknown⟩ := he.handled
  obtain ⟨records, hrecords⟩ := recordEventOutcome_eq
    { s with heap := rest, fired := s.fired ++ [a] } t a v
  refine ⟨records, ?_⟩
  rw [Scheduler.step, if_neg (by simp [hrun])]
  simp only [hheap, ht, hknown, if_true]
  cases v with
  | fatal msg => exact absurd rfl (hv msg)
  | _ =>
    rw [hrecords]
    exact handleRepeat_eq he _ _

/-- **A turn keeps the heap orderly**, if no time on it has stopped being finite: what is on the
    heap was there, or has been left behind by an entry that was. -/
theorem step_orderly (hs : Orderly s) (turn : Turn τ) :
    ∃ s', s.step turn = .ok s' ∧ ((∀ a ∈ s'.heap, TimeLine.Finite a.atSec) → Orderly s') ∧
      ∀ c ∈ s'.heap, c ∈ s.heap ∨ ∃ a ∈ s.heap, scheduled c ∈ offspring a.event a.atSec := by
  by_cases hrun : s.halted = true
  · exact ⟨s, by rw [Scheduler.step, if_pos hrun], fun _ => hs, fun c hc => .inl hc⟩
  · cases hheap : s.heap with
    | nil =>
      refine ⟨s, ?_, fun _ => hs, fun c hc => .inl (hheap ▸ hc)⟩
      rw [Scheduler.step, if_neg hrun, hheap]
    | cons a rest =>
      have hrun' : s.halted = false := by simpa using hrun
      have he := hs.events a (hheap ▸ List.mem_cons_self)
      cases turn with
      | stopRequested =>
        refine ⟨{ s with halted := true }, ?_, fun _ => ⟨hs.finite, hs.sorted, hs.fresh, hs.events,
          hs.priorities⟩, fun c hc => .inl (hheap ▸ hc)⟩
        rw [Scheduler.step, if_neg hrun, hheap]
      | fire v =>
        by_cases hv : ∀ msg, v ≠ .fatal msg
        · obtain ⟨records, hstep⟩ := step_fire hs hrun' hheap hv
          obtain ⟨-, -, cs, hperm, hcs⟩ := pushed_spec (offspring a.event a.atSec)
            { s with heap := rest, fired := s.fired ++ [a], records := records }
          refine ⟨_, hstep, fun hfinite => (hs.rest hheap records s.halted).pushed fun p hp => ?_,
            fun c hc => ?_⟩
          · refine ⟨?_, (offspring_spec he hp).2⟩
            rw [← hcs] at hp
            obtain ⟨c, hc, rfl⟩ := List.mem_map.mp hp
            exact hfinite c (hperm.mem_iff.mpr (List.mem_append_right _ hc))
          · rcases List.mem_append.mp (hperm.mem_iff.mp hc) with hc | hc
            · exact .inl (List.mem_cons_of_mem _ hc)
            · refine .inr ⟨a, List.mem_cons_self, ?_⟩
              rw [← hcs]
              exact List.mem_map_of_mem hc
        · obtain ⟨msg, rfl⟩ : ∃ msg, v = .fatal msg := by
            by_contra hne
            exact hv fun msg heq => hne ⟨msg, heq⟩
          obtain ⟨t, ht, hknown⟩ := he.handled
          refine ⟨_, ?_, fun _ => hs.rest hheap s.records true,
            fun c hc => .inl (List.mem_cons_of_mem _ hc)⟩
          rw [Scheduler.step, if_neg hrun]
          simp only [hheap, ht, hknown, if_true]

/-- **A turn of the loop** is a turn of the drain. -/
theorem step_turn (hs : Orderly s) (hrun : s.halted = false) {v : Verdict τ}
    (hv : ∀ msg, v ≠ .fatal msg) (hstep : s.step (.fire v) = .ok s')
    (hfinite : ∀ a ∈ s'.heap, TimeLine.Finite a.atSec) :
    s'.halted = false ∧ (Drain.Turn Entry.rank Leaves (asDrain s) (asDrain s') ∨
      asDrain s' = asDrain s ∧ (asDrain s).queue = []) := by
  cases hheap : s.heap with
  | nil =>
    rw [Scheduler.step, if_neg (by simp [hrun]), hheap] at hstep
    cases hstep
    exact ⟨hrun, .inr ⟨rfl, hheap⟩⟩
  | cons a rest =>
    have ha : a ∈ s.heap := hheap ▸ List.mem_cons_self
    have he := hs.events a ha
    obtain ⟨records, hstep'⟩ := step_fire hs hrun hheap hv
    rw [hstep] at hstep'
    cases hstep'
    obtain ⟨hfired, hhalted, cs, hperm, hcs⟩ := pushed_spec (offspring a.event a.atSec)
      { s with heap := rest, fired := s.fired ++ [a], records := records }
    have hlater : ∀ c ∈ cs, TimeLine.Finite c.atSec ∧ Entry.rank a < Entry.rank c := by
      intro c hc
      have hc' := hfinite c (hperm.mem_iff.mpr (List.mem_append_right _ hc))
      have hoff : scheduled c ∈ offspring a.event a.atSec := by
        rw [← hcs]
        exact List.mem_map_of_mem hc
      obtain ⟨d, hd, hsum⟩ := (offspring_spec he hoff).1
      simp only [scheduled] at hsum
      rw [hsum] at hc'
      refine ⟨hsum ▸ hc', rank_lt_of_place ?_⟩
      rw [hsum]
      exact TimeLine.place_lt_add (hs.finite a ha) (TimeLine.finite_add.mp hc').2 hd
    have hsorted := hs.sorted
    rw [hheap] at hsorted
    refine ⟨hhalted.trans hrun, .inl ?_⟩
    rw [asDrain, asDrain, hheap, hfired]
    refine Drain.Turn.pop (List.pairwise_cons.mp hsorted).1 (fun c hc => (hlater c hc).2)
      ⟨he, fun b hb => ?_, hcs⟩ hperm
    rcases List.mem_cons.mp hb with rfl | hb
    · exact hs.finite b ha
    · exact (hlater b hb).1

/-- A run of the loop with no stop request, whose handlers raise nothing but `Exception`. -/
def Undisturbed (turns : ℕ → Turn τ) : Prop :=
  ∀ n, ∃ v, turns n = .fire v ∧ ∀ msg, v ≠ .fatal msg

/-- No time on the heap ever stops being finite. -/
def StaysFinite (s : Scheduler τ) (turns : ℕ → Turn τ) : Prop :=
  ∀ n t, s.loop turns n = .ok t → ∀ a ∈ t.heap, TimeLine.Finite a.atSec

theorem loop_orderly (hs : Orderly s) {turns : ℕ → Turn τ} (hfinite : StaysFinite s turns) (n : ℕ) :
    ∃ t, s.loop turns n = .ok t ∧ Orderly t := by
  induction n with
  | zero => exact ⟨s, rfl, hs⟩
  | succ n ih =>
    obtain ⟨t, hloop, ht⟩ := ih
    obtain ⟨t', hstep, ht', -⟩ := step_orderly ht (turns n)
    have hnext : s.loop turns (n + 1) = .ok t' := by
      simp only [Scheduler.loop, hloop]
      exact hstep
    exact ⟨t', hnext, ht' (hfinite (n + 1) t' hnext)⟩

/-- **The loop drains the heap.** -/
theorem loop_run (hs : Orderly s) (hrun : s.halted = false) {turns : ℕ → Turn τ}
    (hturns : Undisturbed turns) (hfinite : StaysFinite s turns) :
    ∃ state : ℕ → Scheduler τ, state 0 = s ∧ (∀ n, s.loop turns n = .ok (state n)) ∧
      (∀ n, Orderly (state n)) ∧ Drain.Run Entry.rank Leaves fun n => asDrain (state n) := by
  choose state hloop horderly using loop_orderly hs hfinite
  have hstep : ∀ n, (state n).step (turns n) = .ok (state (n + 1)) := by
    intro n
    have h := hloop (n + 1)
    simp only [Scheduler.loop, hloop n] at h
    exact h
  have hhalted : ∀ n, (state n).halted = false := by
    intro n
    induction n with
    | zero =>
      cases (hloop 0).symm.trans (rfl : s.loop turns 0 = .ok s)
      exact hrun
    | succ n ih =>
      obtain ⟨v, hturn, hv⟩ := hturns n
      exact (step_turn (horderly n) ih hv (hturn ▸ hstep n) (horderly (n + 1)).finite).1
  refine ⟨state, ?_, hloop, horderly, fun n => ?_⟩
  · cases (hloop 0).symm.trans (rfl : s.loop turns 0 = .ok s)
    rfl
  · obtain ⟨v, hturn, hv⟩ := hturns n
    exact (step_turn (horderly n) (hhalted n) hv (hturn ▸ hstep n) (horderly (n + 1)).finite).2

end Loop

/-! ## The start -/

section Start

variable {τ : Type} [IntCast τ] [Add τ] [LT τ] [TimeLine τ] [DecidableEq τ] [DecidableLT τ] [LE τ]
  [DecidableLE τ] [FloatFacts τ]

/-- An event of an accepted configuration. -/
def Accepted (checks : EventChecks τ) (e : Event τ) : Prop := ∃ i, eventErrors checks i e = .ok []

variable {checks : EventChecks τ} {events : List (Event τ)}

omit [Add τ] [TimeLine τ] in
theorem pushAll_eq : ∀ {events : List (Event τ)} (s : Scheduler τ), (∀ e ∈ events, Accepted checks e) →
      s.pushAll events = .ok (pushed s (events.map fun e => (atOf e, e)))
  | [], _, _ => rfl
  | e :: events, s, hacc => by
    obtain ⟨i, hi⟩ := hacc e List.mem_cons_self
    obtain ⟨he, v, x, hv, hx, -⟩ := schedulable_of_accepted hi
    have hat : atOf e = x := by rw [atOf, hv, Option.bind_some, hx, Option.getD_some]
    simp only [Scheduler.pushAll, hv, hx, pushEvent_eq x he.handled]
    rw [pushAll_eq _ fun e' he' => hacc e' (List.mem_cons_of_mem _ he'), List.map_cons, hat]
    rfl

theorem new_spec (hacc : ∀ e ∈ events, Accepted checks e) (hasSink : Bool) :
    ∃ s, Scheduler.new events hasSink = .ok s ∧ s.fired = [] ∧ s.halted = false ∧
      (s.heap.map scheduled).Perm (events.map fun e => (atOf e, e)) ∧
      ((∀ e ∈ events, TimeLine.Finite (atOf e)) → Orderly s) := by
  obtain ⟨hfired, hhalted, cs, hperm, hcs⟩ := pushed_spec (events.map fun e => (atOf e, e))
    ⟨[], 0, hasSink, [], [], false⟩
  refine ⟨_, pushAll_eq _ hacc, hfired, hhalted, ?_, fun hfinite => ?_⟩
  · have hmap := hperm.map scheduled
    rwa [List.nil_append, hcs] at hmap
  · have hinit : Orderly (⟨[], 0, hasSink, [], [], false⟩ : Scheduler τ) :=
      ⟨fun _ h => (by cases h), List.Pairwise.nil, fun _ h => (by cases h), fun _ h => (by cases h),
        fun _ h => (by cases h)⟩
    refine hinit.pushed fun p hp => ?_
    obtain ⟨e, he, rfl⟩ := List.mem_map.mp hp
    obtain ⟨i, hi⟩ := hacc e he
    exact ⟨hfinite e he, (schedulable_of_accepted hi).1⟩

end Start

end Proof
end CeforeEmu
