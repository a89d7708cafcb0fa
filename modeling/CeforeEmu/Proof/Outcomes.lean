import Mathlib.Algebra.Order.Ring.Rat
import CeforeEmu.Lib.Ends
import CeforeEmu.Runtime.Scheduler

/-!
# Handler outcomes leave the schedule alone

Two runs of `_run` over one event list, in which the handlers end differently. What the loop goes
by are the heap and the counter of pushes, and neither depends on how a handler ended: the outcome
goes into the records, and `_handle_repeat` is told the event and its scheduled time. So the two
runs are related by agreeing on everything but the records (`SameSchedule`), a relation every turn
keeps (`step_same`), and an exception that ends one thread ends the other at the same turn.

What a run does to the records is a matter of that run alone: each handler call adds one record,
unless the event is a content event, whose records the content runner writes.
-/

set_option autoImplicit false
set_option linter.unusedSectionVars false

namespace CeforeEmu
namespace Proof

open CeforeEmu.Lib CeforeEmu.Core CeforeEmu.Runtime

variable {τ : Type} [Add τ] [Sub τ] [IntCast τ] [DecidableEq τ] [LT τ] [DecidableLT τ] [LE τ]
  [DecidableLE τ]

/-! ## Two runs -/

/-- The handler returned, or it raised an `Exception`. -/
def Verdict.Ordinary (verdict : Verdict τ) : Prop := ∀ msg, verdict ≠ .fatal msg

/-- Two turns that differ at most in how the handler ends. -/
inductive SameButOutcome : Turn τ → Turn τ → Prop
  | stop : SameButOutcome .stopRequested .stopRequested
  | fire {v v' : Verdict τ} : Verdict.Ordinary v → Verdict.Ordinary v' →
      SameButOutcome (.fire v) (.fire v')

/-- Two schedulers that differ at most in what the sink has received. -/
structure SameSchedule (s t : Scheduler τ) : Prop where
  heap : s.heap = t.heap
  seq : s.seq = t.seq
  fired : s.fired = t.fired
  halted : s.halted = t.halted

/-- Two results of a turn: the same exception, or schedulers that agree but for the records. -/
inductive SameEnd : Except PyErr (Scheduler τ) → Except PyErr (Scheduler τ) → Prop
  | raised (err : PyErr) : SameEnd (.error err) (.error err)
  | went {s t : Scheduler τ} : SameSchedule s t → SameEnd (.ok s) (.ok t)

theorem SameEnd.elim {x y : Except PyErr (Scheduler τ)} (h : SameEnd x y) :
    (∃ err, x = .error err ∧ y = .error err) ∨
      ∃ s t, x = .ok s ∧ y = .ok t ∧ SameSchedule s t := by
  cases h with
  | raised err => exact .inl ⟨err, rfl, rfl⟩
  | went h => exact .inr ⟨_, _, rfl, rfl, h⟩

/-- What the loop goes by, after a handler call. -/
theorem answered_schedule (s : Scheduler τ) (c : HandlerCall τ) :
    (s.answered c).heap = s.heap.tail ∧ (s.answered c).seq = s.seq ∧
      (s.answered c).fired = s.fired ++ [c.entry] ∧ (s.answered c).halted = s.halted := by
  simp only [Scheduler.answered, Scheduler.recordEventOutcome]
  split <;> exact ⟨rfl, rfl, rfl, rfl⟩

section Two

variable {s t : Scheduler τ} (h : SameSchedule s t)
include h

theorem pushEvent_same (atSec : τ) (event : Event τ) :
    SameEnd (s.pushEvent atSec event) (t.pushEvent atSec event) := by
  simp only [Scheduler.pushEvent]
  split
  · exact .raised _
  · refine .went ⟨?_, ?_, h.fired, h.halted⟩
    · dsimp only
      rw [h.heap, h.seq]
    · exact congrArg (· + 1) h.seq

theorem pushRestore_same (event : Event τ) (rep : Mapping τ) (scheduledAt : τ) :
    SameEnd (s.pushRestore event rep scheduledAt) (t.pushRestore event rep scheduledAt) := by
  simp only [Scheduler.pushRestore]
  split
  · exact .went h
  · exact .went h
  · split
    · exact .raised _
    · split
      · split
        · exact .raised _
        · exact .went h
        · exact pushEvent_same h _ _
      · exact .went h

theorem pushNext_same (event : Event τ) (rep : Mapping τ) (scheduledAt : τ) :
    SameEnd (s.pushNext event rep scheduledAt) (t.pushNext event rep scheduledAt) := by
  simp only [Scheduler.pushNext]
  split
  · exact .raised _
  · split
    · split
      · exact pushEvent_same h _ _
      · exact pushEvent_same h _ _
      · split
        · exact .raised _
        · exact .went h
        · exact pushEvent_same h _ _
    · exact .went h

theorem handleRepeat_same (event : Event τ) (scheduledAt : τ) :
    SameEnd (s.handleRepeat event scheduledAt) (t.handleRepeat event scheduledAt) := by
  simp only [Scheduler.handleRepeat]
  split
  · exact .went h
  · split
    · split
      · rename_i rep _ _
        rcases (pushRestore_same h event rep scheduledAt).elim with ⟨err, hs, ht⟩ | ⟨s', t', hs, ht, h'⟩
        · rw [hs, ht]
          exact .raised err
        · rw [hs, ht]
          exact pushNext_same h' event rep scheduledAt
      · exact .raised _
    · exact .went h

theorem answered_same (c c' : HandlerCall τ) (hentry : c.entry = c'.entry) :
    SameSchedule (s.answered c) (t.answered c') := by
  obtain ⟨hheap, hseq, hfired, hhalted⟩ := answered_schedule s c
  obtain ⟨hheap', hseq', hfired', hhalted'⟩ := answered_schedule t c'
  refine ⟨?_, ?_, ?_, ?_⟩
  · rw [hheap, hheap', h.heap]
  · rw [hseq, hseq', h.seq]
  · rw [hfired, hfired', h.fired, hentry]
  · rw [hhalted, hhalted', h.halted]

end Two

/-! ## One turn -/

/-- A turn in which no handler is called: a stop request ends the loop, and an event of an unknown
    type is dropped. -/
def passOver (turn : Turn τ) (s : Scheduler τ) : Scheduler τ :=
  match turn with
  | .stopRequested => { s with halted := s.halted || !s.heap.isEmpty }
  | .fire _ => if s.halted then s else { s with heap := s.heap.tail }

theorem step_of_no_call {s : Scheduler τ} {turn : Turn τ} (h : s.call turn = none) :
    s.step turn = .ok (passOver turn s) := by
  obtain ⟨heap, seq, hasSink, fired, records, halted⟩ := s
  cases halted with
  | true => cases turn <;> rfl
  | false =>
    cases heap with
    | nil => cases turn <;> rfl
    | cons entry heap =>
      cases turn with
      | stopRequested => rfl
      | fire verdict =>
        simp only [Scheduler.call, Bool.false_eq_true, if_false] at h
        simp only [Scheduler.step, passOver, Bool.false_eq_true, if_false, List.tail_cons]
        split
        · rename_i eventType htype
          simp only [htype] at h
          split at h
          · cases h
          · rename_i hknown
            rw [if_neg hknown]
        · rfl

theorem passOver_same {s t : Scheduler τ} (h : SameSchedule s t) {turn turn' : Turn τ}
    (hturn : SameButOutcome turn turn') : SameSchedule (passOver turn s) (passOver turn' t) := by
  cases hturn with
  | stop => exact ⟨h.heap, h.seq, h.fired, by simp only [passOver, h.halted, h.heap]⟩
  | fire =>
    simp only [passOver, h.halted]
    split
    · exact h
    · exact ⟨congrArg List.tail h.heap, h.seq, h.fired, rfl⟩

/-- A turn that calls one records how it ended, and then sees to the repetitions. -/
theorem step_of_call {s : Scheduler τ} {turn : Turn τ} {c : HandlerCall τ}
    (h : s.call turn = some c) (hc : Verdict.Ordinary c.verdict) :
    s.step turn = (s.answered c).handleRepeat c.entry.event c.entry.atSec := by
  simp only [Scheduler.call] at h
  split at h
  · cases h
  · rename_i hhalted
    split at h
    · rename_i entry heap verdict hheap
      split at h
      · rename_i eventType htype
        split at h
        · rename_i hknown
          cases h
          simp only [Scheduler.step, if_neg hhalted, hheap, htype, if_pos hknown]
          split
          · rename_i msg
            exact absurd rfl (hc msg)
          · simp only [Scheduler.answered, hheap, List.tail_cons]
        · cases h
      · cases h
    · cases h

/-- Where the turns differ at most in the outcome, so do the handler calls. -/
theorem call_same {s t : Scheduler τ} (h : SameSchedule s t) {turn turn' : Turn τ}
    (hturn : SameButOutcome turn turn') :
    (s.call turn = none ∧ t.call turn' = none) ∨
      ∃ c c', s.call turn = some c ∧ t.call turn' = some c' ∧ c.entry = c'.entry ∧
        Verdict.Ordinary c.verdict ∧ Verdict.Ordinary c'.verdict := by
  simp only [Scheduler.call, h.heap, h.halted]
  split
  · exact .inl ⟨rfl, rfl⟩
  · cases hturn with
    | stop => cases t.heap <;> exact .inl ⟨rfl, rfl⟩
    | fire hv hv' =>
      cases t.heap with
      | nil => exact .inl ⟨rfl, rfl⟩
      | cons entry heap =>
        dsimp only
        split
        · split
          · exact .inr ⟨_, _, rfl, rfl, rfl, hv, hv'⟩
          · exact .inl ⟨rfl, rfl⟩
        · exact .inl ⟨rfl, rfl⟩

theorem call_ordinary {s : Scheduler τ} {turn : Turn τ} {c : HandlerCall τ}
    (h : s.call turn = some c) (hturn : ∀ v, turn = .fire v → Verdict.Ordinary v) :
    Verdict.Ordinary c.verdict := by
  simp only [Scheduler.call] at h
  split at h
  · cases h
  · split at h
    · split at h
      · split at h
        · cases h
          exact hturn _ rfl
        · cases h
      · cases h
    · cases h

/-- **One turn of two runs.** -/
theorem step_same {s t : Scheduler τ} (h : SameSchedule s t) {turn turn' : Turn τ}
    (hturn : SameButOutcome turn turn') : SameEnd (s.step turn) (t.step turn') := by
  rcases call_same h hturn with ⟨hs, ht⟩ | ⟨c, c', hs, ht, hentry, hc, hc'⟩
  · rw [step_of_no_call hs, step_of_no_call ht]
    exact .went (passOver_same h hturn)
  · rw [step_of_call hs hc, step_of_call ht hc', hentry]
    exact handleRepeat_same (answered_same h c c' hentry) _ _

/-! ## Whole runs -/

section Runs

variable {turns turns' : ℕ → Turn τ} (hturns : ∀ n, SameButOutcome (turns n) (turns' n))
include hturns

/-- **Two runs of the loop**, turn by turn. -/
theorem loop_same {s t : Scheduler τ} (h : SameSchedule s t) (n : ℕ) :
    SameEnd (Scheduler.loop turns n s) (Scheduler.loop turns' n t) := by
  induction n with
  | zero => exact .went h
  | succ n ih =>
    simp only [Scheduler.loop]
    rcases ih.elim with ⟨err, hs, ht⟩ | ⟨s', t', hs, ht, h'⟩
    · rw [hs, ht]
      exact .raised err
    · rw [hs, ht]
      exact step_same h' (hturns n)

theorem calls_same {s t : Scheduler τ} (h : SameSchedule s t) (n : ℕ) :
    (Scheduler.calls turns n s).map (·.entry) = (Scheduler.calls turns' n t).map (·.entry) := by
  induction n with
  | zero => rfl
  | succ n ih =>
    simp only [Scheduler.calls, List.map_append, ih]
    congr 1
    rcases (loop_same hturns h n).elim with ⟨err, hs, ht⟩ | ⟨s', t', hs, ht, h'⟩
    · rw [hs, ht]
    · rw [hs, ht]
      rcases call_same h' (hturns n) with ⟨hc, hc'⟩ | ⟨c, c', hc, hc', hentry, -, -⟩
      · simp only [hc, hc']
      · simp only [hc, hc', Option.toList_some, List.map_cons, List.map_nil, hentry]

end Runs

/-! ## The records of one run -/

/-- Pushing leaves what was fired and recorded as it is. -/
structure SameReports (s s' : Scheduler τ) : Prop where
  hasSink : s'.hasSink = s.hasSink
  fired : s'.fired = s.fired
  records : s'.records = s.records

theorem SameReports.refl (s : Scheduler τ) : SameReports s s := ⟨rfl, rfl, rfl⟩

theorem SameReports.trans {s t u : Scheduler τ} (h : SameReports s t) (h' : SameReports t u) :
    SameReports s u :=
  ⟨h'.hasSink.trans h.hasSink, h'.fired.trans h.fired, h'.records.trans h.records⟩

theorem pushEvent_reports (s : Scheduler τ) (atSec : τ) (event : Event τ) :
    Ends (fun _ => True) (SameReports s) (s.pushEvent atSec event) := by
  rw [Scheduler.pushEvent]
  split
  · trivial
  · exact SameReports.mk rfl rfl rfl

theorem pushRestore_reports (s : Scheduler τ) (event : Event τ) (rep : Mapping τ)
    (scheduledAt : τ) :
    Ends (fun _ => True) (SameReports s) (s.pushRestore event rep scheduledAt) := by
  rw [Scheduler.pushRestore]
  split
  · exact SameReports.refl s
  · exact SameReports.refl s
  · split
    · trivial
    · split
      · split
        · trivial
        · exact SameReports.refl s
        · exact pushEvent_reports s _ _
      · exact SameReports.refl s

theorem pushNext_reports (s : Scheduler τ) (event : Event τ) (rep : Mapping τ)
    (scheduledAt : τ) :
    Ends (fun _ => True) (SameReports s) (s.pushNext event rep scheduledAt) := by
  simp only [Scheduler.pushNext]
  split
  · trivial
  · split
    · split
      · exact pushEvent_reports s _ _
      · exact pushEvent_reports s _ _
      · split
        · trivial
        · exact SameReports.refl s
        · exact pushEvent_reports s _ _
    · exact SameReports.refl s

theorem handleRepeat_reports (s : Scheduler τ) (event : Event τ) (scheduledAt : τ) :
    Ends (fun _ => True) (SameReports s) (s.handleRepeat event scheduledAt) := by
  rw [Scheduler.handleRepeat]
  split
  · exact SameReports.refl s
  · split
    · split
      · rename_i rep _ _
        rcases (pushRestore_reports s event rep scheduledAt).elim with ⟨s', hs, h⟩ | ⟨err, hs, -⟩
        · rw [hs]
          exact (pushNext_reports s' event rep scheduledAt).mono fun _ h' => h.trans h'
        · rw [hs]
          trivial
      · trivial
    · exact SameReports.refl s

theorem pushAll_reports : ∀ (events : List (Event τ)) (s : Scheduler τ),
    Ends (fun _ => True) (SameReports s) (s.pushAll events)
  | [], s => SameReports.refl s
  | event :: events, s => by
    rw [Scheduler.pushAll]
    split
    · trivial
    · split
      · trivial
      · rename_i atSec _
        rcases (pushEvent_reports s atSec event).elim with ⟨s', hs', h⟩ | ⟨err, herr, -⟩
        · rw [hs']
          exact (pushAll_reports events s').mono fun _ h' => h.trans h'
        · rw [herr]
          trivial

theorem new_reports {events : List (Event τ)} {hasSink : Bool} {s : Scheduler τ}
    (h : Scheduler.new events hasSink = .ok s) :
    s.hasSink = hasSink ∧ s.fired = [] ∧ s.records = [] := by
  have hpush := pushAll_reports events ⟨[], 0, hasSink, [], [], false⟩
  rw [Scheduler.new] at h
  rw [h] at hpush
  exact ⟨hpush.hasSink, hpush.fired, hpush.records⟩

/-- The handler returned `False` or an `EventOutcome` that says so, or it raised. -/
def Verdict.Failed : Verdict τ → Prop
  | .returned => False
  | .returnedFalse => True
  | .outcome success _ _ _ => success = false
  | .raised _ => True
  | .fatal _ => True

/-- A record tells of a handler call. -/
structure Tells (c : HandlerCall τ) (r : EventRecord τ) : Prop where
  eventType : r.eventType = c.eventType
  scheduledAt : r.scheduledAt = c.entry.atSec
  event : r.event = c.entry.event.without "repeat"
  success : r.success = false ↔ Verdict.Failed c.verdict

/-- The calls the scheduler has to record. -/
def toRecord (cs : List (HandlerCall τ)) : List (HandlerCall τ) :=
  cs.filter fun c => !contentEventTypes.contains c.eventType

theorem answered_records {s : Scheduler τ} (hsink : s.hasSink = true) (c : HandlerCall τ) :
    ∃ rs, (s.answered c).records = s.records ++ rs ∧ List.Forall₂ Tells (toRecord [c]) rs := by
  by_cases hcontent : contentEventTypes.contains c.eventType = true
  · refine ⟨[], ?_, ?_⟩
    · rw [Scheduler.answered, Scheduler.recordEventOutcome, if_pos (.inr hcontent), List.append_nil]
    · simp only [toRecord, List.filter_cons, hcontent, Bool.not_true, Bool.false_eq_true, if_false,
        List.filter_nil]
      exact .nil
  · have hrec : toRecord [c] = [c] := by
      simp only [toRecord, List.filter_cons, hcontent, Bool.not_false, if_true, List.filter_nil]
    rw [hrec, Scheduler.answered, Scheduler.recordEventOutcome,
      if_neg fun h => h.elim (fun hno => hno hsink) hcontent]
    refine ⟨_, rfl, .cons ?_ .nil⟩
    cases hv : c.verdict with
    | returned => exact ⟨rfl, rfl, rfl, by simp [hv, Verdict.Failed]⟩
    | returnedFalse => exact ⟨rfl, rfl, rfl, by simp [hv, Verdict.Failed]⟩
    | outcome success outcome detail error => exact ⟨rfl, rfl, rfl, by simp [hv, Verdict.Failed]⟩
    | raised msg => exact ⟨rfl, rfl, rfl, by simp [hv, Verdict.Failed]⟩
    | fatal msg => exact ⟨rfl, rfl, rfl, by simp [hv, Verdict.Failed]⟩

theorem answered_hasSink (s : Scheduler τ) (c : HandlerCall τ) :
    (s.answered c).hasSink = s.hasSink := by
  rw [Scheduler.answered, Scheduler.recordEventOutcome]
  split <;> rfl

theorem passOver_reports (turn : Turn τ) (s : Scheduler τ) : SameReports s (passOver turn s) := by
  cases turn with
  | stopRequested => exact SameReports.mk rfl rfl rfl
  | fire verdict =>
    rw [passOver]
    split <;> exact SameReports.mk rfl rfl rfl

/-- **What one turn reports.** -/
theorem turn_reports {s : Scheduler τ} (hsink : s.hasSink = true) {turn : Turn τ}
    (hturn : ∀ v, turn = .fire v → Verdict.Ordinary v) :
    (∀ s', s.step turn = .ok s' → s'.hasSink = true ∧
      s'.fired = s.fired ++ (s.call turn).toList.map (·.entry) ∧ s'.records = s.turnRecords turn) ∧
    ∃ rs, s.turnRecords turn = s.records ++ rs ∧
      List.Forall₂ Tells (toRecord (s.call turn).toList) rs := by
  rw [Scheduler.turnRecords]
  cases hcall : s.call turn with
  | none =>
    have hpass := passOver_reports turn s
    rw [step_of_no_call hcall]
    refine ⟨fun s' hs' => ?_, [], ?_, .nil⟩
    · cases hs'
      refine ⟨hpass.hasSink.trans hsink, ?_, rfl⟩
      rw [hpass.fired, Option.toList_none, List.map_nil, List.append_nil]
    · rw [List.append_nil]
      exact hpass.records
  | some c =>
    obtain ⟨rs, hrs, htells⟩ := answered_records hsink c
    rw [step_of_call hcall (call_ordinary hcall hturn)]
    rcases (handleRepeat_reports (s.answered c) c.entry.event c.entry.atSec).elim with
      ⟨s', hs', h⟩ | ⟨err, herr, -⟩
    · rw [hs']
      refine ⟨fun s'' hs'' => ?_, rs, ?_, htells⟩
      · cases hs''
        refine ⟨?_, ?_, rfl⟩
        · rw [h.hasSink, answered_hasSink, hsink]
        · rw [h.fired, (answered_schedule s c).2.2.1]
          rfl
      · exact h.records.trans hrs
    · rw [herr]
      exact ⟨fun s'' hs'' => (by cases hs''), rs, hrs, htells⟩

/-- **What a run reports.** -/
theorem loop_reports {s : Scheduler τ} (hsink : s.hasSink = true) {turns : ℕ → Turn τ}
    (hturns : ∀ n v, turns n = .fire v → Verdict.Ordinary v) (n : ℕ) :
    (∀ s', Scheduler.loop turns n s = .ok s' → s'.hasSink = true ∧
      s'.fired = s.fired ++ (Scheduler.calls turns n s).map (·.entry) ∧
      s'.records = Scheduler.loopRecords turns n s) ∧
    ∃ rs, Scheduler.loopRecords turns n s = s.records ++ rs ∧
      List.Forall₂ Tells (toRecord (Scheduler.calls turns n s)) rs := by
  induction n with
  | zero =>
    refine ⟨fun s' hs' => ?_, [], (List.append_nil _).symm, .nil⟩
    cases hs'
    exact ⟨hsink, (List.append_nil _).symm, rfl⟩
  | succ n ih =>
    obtain ⟨hstate, rs, hrs, htells⟩ := ih
    simp only [Scheduler.loop, Scheduler.calls, Scheduler.loopRecords]
    cases hloop : Scheduler.loop turns n s with
    | error err =>
      refine ⟨fun s' hs' => (by cases hs'), rs, hrs, ?_⟩
      rw [List.append_nil]
      exact htells
    | ok s' =>
      obtain ⟨hsink', hfired, hrecords⟩ := hstate s' hloop
      obtain ⟨hturn, rs', hrs', htells'⟩ := turn_reports hsink' (hturns n)
      refine ⟨fun s'' hs'' => ?_, rs ++ rs', ?_, ?_⟩
      · obtain ⟨hsink'', hfired'', hrecords''⟩ := hturn s'' hs''
        refine ⟨hsink'', ?_, hrecords''⟩
        rw [hfired'', hfired, List.map_append, List.append_assoc]
      · rw [hrecords, hrs, List.append_assoc] at hrs'
        exact hrs'
      · rw [toRecord, List.filter_append]
        exact List.rel_append htells htells'

theorem SameButOutcome.ordinary {turn turn' : Turn τ} (h : SameButOutcome turn turn') :
    (∀ v, turn = .fire v → Verdict.Ordinary v) ∧ ∀ v, turn' = .fire v → Verdict.Ordinary v := by
  cases h with
  | stop => exact ⟨fun v hv => (by cases hv), fun v hv => (by cases hv)⟩
  | fire hv hv' =>
    constructor
    · rintro v ⟨⟩
      exact hv
    · rintro v ⟨⟩
      exact hv'

/-- The sink has one record for each handler call of an event that is no content event, in the
    order of the calls, and no other. -/
structure ReportsCalls (turns : ℕ → Turn τ) (n : ℕ) (s : Scheduler τ) : Prop where
  fired : ∀ s', Scheduler.loop turns n s = .ok s' →
    s'.fired = (Scheduler.calls turns n s).map (·.entry)
  tells : List.Forall₂ Tells (toRecord (Scheduler.calls turns n s)) (Scheduler.loopRecords turns n s)
  noContent : ∀ r ∈ Scheduler.loopRecords turns n s, contentEventTypes.contains r.eventType = false

theorem noContent_of_tells {cs : List (HandlerCall τ)} {rs : List (EventRecord τ)}
    (h : List.Forall₂ Tells cs rs) (hcs : ∀ c ∈ cs, contentEventTypes.contains c.eventType = false) :
    ∀ r ∈ rs, contentEventTypes.contains r.eventType = false := by
  induction h with
  | nil => exact fun r hr => by cases hr
  | cons htells _ ih =>
    intro r hr
    rcases List.mem_cons.mp hr with rfl | hr
    · rw [htells.eventType]
      exact hcs _ List.mem_cons_self
    · exact ih (fun c hc => hcs c (List.mem_cons_of_mem _ hc)) r hr

theorem reportsCalls {events : List (Event τ)} {s : Scheduler τ}
    (hnew : Scheduler.new events true = .ok s) {turns : ℕ → Turn τ}
    (hturns : ∀ n v, turns n = .fire v → Verdict.Ordinary v) (n : ℕ) : ReportsCalls turns n s := by
  obtain ⟨hsink, hfired, hrecords⟩ := new_reports hnew
  obtain ⟨hstate, rs, hrs, htells⟩ := loop_reports hsink hturns n
  rw [hrecords, List.nil_append] at hrs
  subst hrs
  refine ⟨fun s' hs' => ?_, htells, noContent_of_tells htells fun c hc => ?_⟩
  · obtain ⟨-, hfired', -⟩ := hstate s' hs'
    rw [hfired', hfired, List.nil_append]
  · simpa using (List.mem_filter.mp hc).2

/-- **Handler outcomes do not disturb the schedule.** Two runs over one event list, in which the
    handlers return or raise as they like, call the same handlers with the same events at the same
    scheduled times after any number of turns, and in each of them the sink receives one record for
    each call that is not for a content event, in order, with `success` as the handler ended. -/
theorem outcomes_leave_schedule {events : List (Event τ)} {s : Scheduler τ}
    (hnew : Scheduler.new events true = .ok s) {turns turns' : ℕ → Turn τ}
    (hturns : ∀ n, SameButOutcome (turns n) (turns' n)) (n : ℕ) :
    (Scheduler.calls turns n s).map (fun c => (c.entry.atSec, c.entry.event))
        = (Scheduler.calls turns' n s).map (fun c => (c.entry.atSec, c.entry.event)) ∧
      ReportsCalls turns n s ∧ ReportsCalls turns' n s := by
  refine ⟨?_, reportsCalls hnew (fun n => (hturns n).ordinary.1) n,
    reportsCalls hnew (fun n => (hturns n).ordinary.2) n⟩
  have hsame := calls_same hturns (SameSchedule.mk (s := s) rfl rfl rfl rfl) n
  have := congrArg (List.map fun e : Entry τ => (e.atSec, e.event)) hsame
  rwa [List.map_map, List.map_map] at this

/-- A link that flaps every 5 seconds and a content event: the handler of the link fails and then
    raises in one run and returns an outcome in the other. -/
theorem outcomes_leave_schedule_flap :
    let events : List (Event ℚ) := [
      [("at", .int 1), ("type", .str "link_down"), ("nodes", .list [.int 0, .int 1]),
        ("repeat", .dict [("interval", .int 5), ("duration", .int 2), ("restore_type", .str "link_up")])],
      [("at", .int 2), ("type", .str "put"), ("host", .int 0), ("uri", .str "ccnx:/a")]]
    let turns : ℕ → Turn ℚ := fun n =>
      .fire (if n = 0 then .returnedFalse else if n = 1 then .returned else .raised "no such link")
    let turns' : ℕ → Turn ℚ := fun _ => .fire (.outcome true "ok" none none)
    ∃ s, Scheduler.new events true = .ok s ∧
      ((Scheduler.calls turns 4 s).map fun c => (c.entry.atSec, c.eventType))
        = [(1, "link_down"), (2, "put"), (3, "link_up"), (6, "link_down")] ∧
      ((Scheduler.loopRecords turns 4 s).map fun r => (r.eventType, r.success))
        = [("link_down", false), ("link_up", false), ("link_down", false)] ∧
      (Scheduler.calls turns 4 s).map (fun c => (c.entry.atSec, c.entry.event))
        = (Scheduler.calls turns' 4 s).map (fun c => (c.entry.atSec, c.entry.event)) ∧
      ReportsCalls turns 4 s ∧ ReportsCalls turns' 4 s := by
  intro events turns turns'
  have hturns : ∀ n, SameButOutcome (turns n) (turns' n) := by
    refine fun n => .fire (fun msg => ?_) fun msg hmsg => by cases hmsg
    split
    · exact fun hmsg => by cases hmsg
    · split <;> exact fun hmsg => by cases hmsg
  have hnew : ∃ s, Scheduler.new events true = .ok s := ⟨_, rfl⟩
  obtain ⟨s, hs⟩ := hnew
  refine ⟨s, hs, ?_, ?_, outcomes_leave_schedule hs hturns 4⟩
  · cases hs
    decide +kernel
  · cases hs
    decide +kernel

end Proof
end CeforeEmu
