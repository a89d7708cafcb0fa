import Mathlib.Tactic
import CeforeEmu.Tools.Campaign

/-!
# Campaigns that die and resume

What an invocation does for a job is a word of a small language (`JobTrace`): at most two attempts,
each recorded before anything else is done, and a cleanup between them. An invocation goes through
the jobs that were not recorded as `ok` before it, in their order, and is always in the middle of
one such word. Over any number of invocations, each killed anywhere, no job is recorded as `ok`
twice.
-/

set_option autoImplicit false

namespace CeforeEmu
namespace Proof

open CeforeEmu.Lib CeforeEmu.Tools

/-! ## The steps -/

/-- What a step can do. -/
inductive CampaignMove : CampaignState → CampaignAct → CampaignState → Prop where
  | start {s : CampaignState} (jobs : List String) (cleanBetween dryRun : Bool)
      (hoff : s.phase = .off) :
      CampaignMove s (.start jobs cleanBetween dryRun)
        ⟨s.journal, .walking, jobs, loadCompletedJobIds s.journal, cleanBetween, dryRun⟩
  | finish {s : CampaignState} (hwalk : s.phase = .walking) (hnil : s.jobs = []) :
      CampaignMove s .nextJob { s with phase := .off }
  | skip {s : CampaignState} {jobId : String} {jobs : List String} (hwalk : s.phase = .walking)
      (hjobs : s.jobs = jobId :: jobs) (hdone : jobId ∈ s.completed ∨ s.dryRun = true) :
      CampaignMove s .nextJob { s with jobs := jobs }
  | take {s : CampaignState} {jobId : String} {jobs : List String} (hwalk : s.phase = .walking)
      (hjobs : s.jobs = jobId :: jobs) (hdone : jobId ∉ s.completed) (hdry : s.dryRun = false) :
      CampaignMove s .nextJob { s with phase := .attempting jobId 1, jobs := jobs }
  | low {s : CampaignState} {jobId : String} {attempt : ℕ}
      (hat : s.phase = .attempting jobId attempt) :
      CampaignMove s (.memory true) { s with phase := .appending (skippedRecord jobId attempt) }
  | launch {s : CampaignState} {jobId : String} {attempt : ℕ}
      (hat : s.phase = .attempting jobId attempt) :
      CampaignMove s (.memory false) { s with phase := .running jobId attempt }
  | ended {s : CampaignState} {jobId : String} {attempt : ℕ} (returncode : Option ℤ)
      (timedOut : Bool) (hrun : s.phase = .running jobId attempt) :
      CampaignMove s (.subprocess returncode timedOut)
        { s with phase := .appending (attemptRecord jobId attempt returncode timedOut) }
  | append {s : CampaignState} {record : AttemptRecord} (happ : s.phase = .appending record) :
      CampaignMove s .append
        { s with journal := s.journal ++ [record], phase := afterAppend s record }
  | cleaned {s : CampaignState} (hclean : s.phase = .cleaning none) :
      CampaignMove s .cleanup { s with phase := .walking }
  | retry {s : CampaignState} {jobId : String} (hclean : s.phase = .cleaning (some jobId)) :
      CampaignMove s .cleanup { s with phase := .attempting jobId 2 }
  | crash {s : CampaignState} (hon : s.phase ≠ .off) :
      CampaignMove s .crash { s with phase := .off }

theorem campaignMove {s s' : CampaignState} {a : CampaignAct} (h : campaignStep s a = some s') :
    CampaignMove s a s' := by
  cases a with
  | start jobs cleanBetween dryRun =>
    cases hp : s.phase <;> simp only [campaignStep, hp, Option.some.injEq, reduceCtorEq] at h
    subst h
    exact .start jobs cleanBetween dryRun hp
  | nextJob =>
    cases hp : s.phase <;> simp only [campaignStep, hp, reduceCtorEq] at h
    cases hj : s.jobs with
    | nil =>
      simp only [hj, Option.some.injEq] at h
      subst h
      rw [← hj]
      exact .finish hp hj
    | cons jobId jobs =>
      simp only [hj] at h
      split at h
      · rename_i hdone
        cases h
        rw [← hp]
        exact .skip hp hj hdone
      · rename_i hdone
        cases h
        obtain ⟨hnot, hdry⟩ := not_or.mp hdone
        exact .take hp hj hnot (by simpa using hdry)
  | memory low =>
    cases hp : s.phase <;> simp only [campaignStep, hp, Option.some.injEq, reduceCtorEq] at h
    subst h
    cases low with
    | true => exact .low hp
    | false => exact .launch hp
  | subprocess returncode timedOut =>
    cases hp : s.phase <;> simp only [campaignStep, hp, Option.some.injEq, reduceCtorEq] at h
    subst h
    exact .ended returncode timedOut hp
  | append =>
    cases hp : s.phase <;> simp only [campaignStep, hp, Option.some.injEq, reduceCtorEq] at h
    subst h
    exact .append hp
  | cleanup =>
    cases hp : s.phase with
    | cleaning retry =>
      cases retry <;> simp only [campaignStep, hp, Option.some.injEq] at h <;> subst h
      · exact .cleaned hp
      · exact .retry hp
    | _ => simp [campaignStep, hp] at h
  | crash =>
    cases hp : s.phase <;> simp only [campaignStep, hp, Option.some.injEq, reduceCtorEq] at h <;>
      subst h <;> exact .crash (by simp [hp])

/-- The record that an event writes. -/
def recordOf : CampaignEvent → Option AttemptRecord
  | .recorded record => some record
  | .launched _ _ | .cleaned => none

/-- The journal is what has been recorded. -/
theorem journal_eq {s t : CampaignState} {acts : List CampaignAct}
    (h : run campaignStep s acts = some t) :
    t.journal = s.journal ++ (collect campaignStep campaignEvents s acts).filterMap recordOf := by
  refine run_inv_history (I := fun as t => t.journal = s.journal ++
    (collect campaignStep campaignEvents s as).filterMap recordOf) (by simp [collect])
    (fun as t a t' hrun ih hstep => ?_) h
  rw [collect_snoc hrun, List.filterMap_append, ← List.append_assoc, ← ih]
  cases campaignMove hstep with
  | append happ => simp [campaignEvents, happ, recordOf]
  | launch hat => simp [campaignEvents, hat, recordOf]
  | cleaned hclean | retry hclean => simp [campaignEvents, hclean, recordOf]
  | _ => simp [campaignEvents]

/-! ## What is done for a job -/

/-- What has been done for a job before an attempt. -/
inductive BeforeAttempt (jobId : String) : ℕ → List CampaignEvent → Prop where
  | first : BeforeAttempt jobId 1 []
  | second {returncode : Option ℤ} {timedOut : Bool}
      (hbad : (attemptRecord jobId 1 returncode timedOut).status ≠ .ok) :
      BeforeAttempt jobId 2
        [.launched jobId 1, .recorded (attemptRecord jobId 1 returncode timedOut), .cleaned]

/-- What is done for a job: an attempt for which memory was too low, one that went well, or a second
    one that did not. -/
inductive JobTrace (cleanBetween : Bool) (jobId : String) : List CampaignEvent → Prop where
  | low {attempt : ℕ} {before : List CampaignEvent} (hb : BeforeAttempt jobId attempt before) :
      JobTrace cleanBetween jobId (before ++ [.recorded (skippedRecord jobId attempt)])
  | ok {attempt : ℕ} {before : List CampaignEvent} {returncode : Option ℤ} {timedOut : Bool}
      (hb : BeforeAttempt jobId attempt before)
      (hok : (attemptRecord jobId attempt returncode timedOut).status = .ok) :
      JobTrace cleanBetween jobId (before ++ [.launched jobId attempt,
        .recorded (attemptRecord jobId attempt returncode timedOut)] ++
        if cleanBetween then [.cleaned] else [])
  | bad {before : List CampaignEvent} {returncode : Option ℤ} {timedOut : Bool}
      (hb : BeforeAttempt jobId 2 before)
      (hbad : (attemptRecord jobId 2 returncode timedOut).status ≠ .ok) :
      JobTrace cleanBetween jobId (before ++ [.launched jobId 2,
        .recorded (attemptRecord jobId 2 returncode timedOut)])

/-- The job an invocation is at, if any, and what it has done for it so far. -/
inductive Doing (cleanBetween : Bool) : CampaignPhase → List String → List CampaignEvent → Prop where
  | off : Doing cleanBetween .off [] []
  | walking : Doing cleanBetween .walking [] []
  | attempting {jobId : String} {attempt : ℕ} {before : List CampaignEvent}
      (hb : BeforeAttempt jobId attempt before) :
      Doing cleanBetween (.attempting jobId attempt) [jobId] before
  | running {jobId : String} {attempt : ℕ} {before : List CampaignEvent}
      (hb : BeforeAttempt jobId attempt before) :
      Doing cleanBetween (.running jobId attempt) [jobId] (before ++ [.launched jobId attempt])
  | low {jobId : String} {attempt : ℕ} {before : List CampaignEvent}
      (hb : BeforeAttempt jobId attempt before) :
      Doing cleanBetween (.appending (skippedRecord jobId attempt)) [jobId] before
  | ended {jobId : String} {attempt : ℕ} {before : List CampaignEvent} {returncode : Option ℤ}
      {timedOut : Bool} (hb : BeforeAttempt jobId attempt before) :
      Doing cleanBetween (.appending (attemptRecord jobId attempt returncode timedOut)) [jobId]
        (before ++ [.launched jobId attempt])
  | cleaned {jobId : String} {attempt : ℕ} {before : List CampaignEvent} {returncode : Option ℤ}
      {timedOut : Bool} (hb : BeforeAttempt jobId attempt before) (hbetween : cleanBetween = true)
      (hok : (attemptRecord jobId attempt returncode timedOut).status = .ok) :
      Doing cleanBetween (.cleaning none) [jobId] (before ++ [.launched jobId attempt,
        .recorded (attemptRecord jobId attempt returncode timedOut)])
  | retry {jobId : String} {returncode : Option ℤ} {timedOut : Bool}
      (hbad : (attemptRecord jobId 1 returncode timedOut).status ≠ .ok) :
      Doing cleanBetween (.cleaning (some jobId)) [jobId]
        [.launched jobId 1, .recorded (attemptRecord jobId 1 returncode timedOut)]

/-- The jobs that an invocation still goes through. -/
def pendingJobs (s : CampaignState) : List String :=
  if s.dryRun then [] else s.jobs.filter fun jobId => jobId ∉ s.completed

/-- An invocation in the middle of its jobs: those done, each with what was done for it, the one it
    is at, and the rest. -/
structure Underway (pending : List String) (cleanBetween : Bool) (events : List CampaignEvent)
    (s : CampaignState) : Prop where
  between : s.cleanBetween = cleanBetween
  off : s.phase = .off → s.jobs = []
  jobs : ∃ done traces now part, events = traces.flatten ++ part ∧
    List.Forall₂ (JobTrace cleanBetween) done traces ∧ Doing cleanBetween s.phase now part ∧
    pending = done ++ now ++ pendingJobs s

theorem afterAppend_ok {s : CampaignState} {jobId : String} {attempt : ℕ} {returncode : Option ℤ}
    {timedOut : Bool} (hok : (attemptRecord jobId attempt returncode timedOut).status = .ok) :
    afterAppend s (attemptRecord jobId attempt returncode timedOut)
      = if s.cleanBetween then .cleaning none else .walking := by
  simp only [afterAppend, hok]

theorem afterAppend_bad {s : CampaignState} {jobId : String} {attempt : ℕ} {returncode : Option ℤ}
    {timedOut : Bool} (hbad : (attemptRecord jobId attempt returncode timedOut).status ≠ .ok) :
    afterAppend s (attemptRecord jobId attempt returncode timedOut)
      = if attempt = 1 then .cleaning (some jobId) else .walking := by
  simp only [attemptRecord] at hbad
  simp only [afterAppend, attemptRecord]
  split_ifs at hbad ⊢ <;> simp_all

section Moments

variable {pending done now : List String} {traces : List (List CampaignEvent)}
  {part events : List CampaignEvent} {s : CampaignState} {journal : List AttemptRecord}
  (htraces : List.Forall₂ (JobTrace s.cleanBetween) done traces)
include htraces

/-- A step that stays with its job. -/
theorem Underway.stay (hpending : pending = done ++ now ++ pendingJobs s) {phase : CampaignPhase}
    {part' : List CampaignEvent} (hd : Doing s.cleanBetween phase now part') (hpart : part ++ events = part')
    (hon : phase ≠ .off) :
    Underway pending s.cleanBetween (traces.flatten ++ part ++ events)
      { s with journal := journal, phase := phase } := by
  subst hpart
  exact ⟨rfl, fun hoff => absurd hoff hon, done, traces, now, _, List.append_assoc _ _ _, htraces, hd,
    hpending⟩

/-- A step after which its job is done with. -/
theorem Underway.next {jobId : String} (hpending : pending = done ++ [jobId] ++ pendingJobs s)
    (htrace : JobTrace s.cleanBetween jobId (part ++ events)) :
    Underway pending s.cleanBetween (traces.flatten ++ part ++ events)
      { s with journal := journal, phase := .walking } := by
  refine ⟨rfl, fun hoff => (by cases hoff), done ++ [jobId], traces ++ [part ++ events], [], [], ?_, ?_,
    .walking, ?_⟩
  · rw [List.flatten_append, List.flatten_singleton, List.append_nil, List.append_assoc]
  · exact List.rel_append htraces (.cons htrace .nil)
  · rw [hpending, List.append_nil]
    rfl

end Moments

/-- **One step of an invocation**, other than its death. -/
theorem Underway.step {pending : List String} {cleanBetween : Bool} {events : List CampaignEvent}
    {s s' : CampaignState} {a : CampaignAct} (h : Underway pending cleanBetween events s)
    (hstart : ∀ jobs between dryRun, a ≠ .start jobs between dryRun) (hcrash : a ≠ .crash)
    (hstep : campaignStep s a = some s') :
    Underway pending cleanBetween (events ++ campaignEvents s a) s' := by
  obtain ⟨rfl, -, done, traces, now, part, rfl, htraces, hdoing, hpending⟩ := h
  cases campaignMove hstep with
  | start jobs between dryRun => exact absurd rfl (hstart jobs between dryRun)
  | crash => exact absurd rfl hcrash
  | finish hwalk hnil =>
    rw [hwalk] at hdoing
    cases hdoing
    refine ⟨rfl, fun _ => hnil, done, traces, [], [], ?_, htraces, .off, ?_⟩
    · simp [campaignEvents]
    · rw [hpending]
      rfl
  | skip hwalk hjobs hdone =>
    rw [hwalk] at hdoing
    cases hdoing
    refine ⟨rfl, fun hoff => ?_, done, traces, [], [], ?_, htraces, hwalk ▸ .walking, ?_⟩
    · rw [show s.phase = .off from hoff] at hwalk
      cases hwalk
    · simp [campaignEvents]
    · rw [hpending, pendingJobs, pendingJobs, hjobs]
      cases hd : s.dryRun with
      | true => rfl
      | false =>
        rw [hd] at hdone
        simp [hdone.resolve_right (by simp)]
  | @take jobId jobs hwalk hjobs hdone hdry =>
    rw [hwalk] at hdoing
    cases hdoing
    refine ⟨rfl, fun hoff => (by cases hoff), done, traces, [jobId], [], ?_, htraces,
      .attempting .first, ?_⟩
    · simp [campaignEvents]
    · rw [hpending, pendingJobs, pendingJobs, hjobs, hdry]
      simp [hdone]
  | low hat =>
    rw [hat] at hdoing
    cases hdoing with
    | attempting hb => exact .stay htraces hpending (.low hb) (by simp [campaignEvents]) (by simp)
  | launch hat =>
    rw [hat] at hdoing
    cases hdoing with
    | attempting hb => exact .stay htraces hpending (.running hb) (by simp [campaignEvents, hat]) (by simp)
  | ended returncode timedOut hrun =>
    rw [hrun] at hdoing
    cases hdoing with
    | running hb => exact .stay htraces hpending (.ended hb) (by simp [campaignEvents]) (by simp)
  | cleaned hclean =>
    rw [hclean] at hdoing
    cases hdoing with
    | cleaned hb hcb hok =>
      refine .next htraces hpending ?_
      have htrace := @JobTrace.ok s.cleanBetween _ _ _ _ _ hb hok
      rw [if_pos hcb] at htrace
      simpa [campaignEvents, hclean] using htrace
  | retry hclean =>
    rw [hclean] at hdoing
    cases hdoing with
    | retry hbad =>
      exact .stay htraces hpending (.attempting (.second hbad)) (by simp [campaignEvents, hclean]) (by simp)
  | @append record happ =>
    have hev : campaignEvents s .append = [.recorded record] := by simp [campaignEvents, happ]
    rw [happ] at hdoing
    cases hdoing with
    | low hb => exact .next htraces hpending (hev ▸ .low hb)
    | @ended jobId attempt before returncode timedOut hb =>
      have hpart : before ++ [.launched jobId attempt] ++ campaignEvents s .append = before ++
          [.launched jobId attempt, .recorded (attemptRecord jobId attempt returncode timedOut)] := by
        rw [hev, List.append_assoc]
        rfl
      by_cases hok : (attemptRecord jobId attempt returncode timedOut).status = .ok
      · rw [afterAppend_ok hok]
        have htrace := @JobTrace.ok s.cleanBetween _ _ _ _ _ hb hok
        split
        · rename_i hcb
          exact .stay htraces hpending (.cleaned hb hcb hok) hpart (by simp)
        · rename_i hcb
          refine .next htraces hpending (hpart ▸ ?_)
          simpa [hcb] using htrace
      · rw [afterAppend_bad hok]
        -- a second attempt is the last one
        cases hb with
        | first => exact .stay htraces hpending (.retry hok) hpart (by simp)
        | second hbad => exact .next htraces hpending (hpart ▸ .bad (.second hbad) hok)

/-- A step that goes on with an invocation. -/
def GoesOn (a : CampaignAct) : Prop :=
  a ≠ .crash ∧ ∀ jobs cleanBetween dryRun, a ≠ .start jobs cleanBetween dryRun

/-- An invocation at any of its moments. -/
theorem underway_of_run {s t : CampaignState} {jobs : List String} {cleanBetween dryRun : Bool}
    {acts : List CampaignAct} (hacts : ∀ a ∈ acts, GoesOn a)
    (h : run campaignStep s (.start jobs cleanBetween dryRun :: acts) = some t) :
    Underway (if dryRun then [] else jobs.filter fun id => id ∉ loadCompletedJobIds s.journal)
      cleanBetween
      (collect campaignStep campaignEvents s (.start jobs cleanBetween dryRun :: acts)) t := by
  obtain ⟨s₁, hstart, hrest⟩ := run_cons_inv h
  have hs₁ : s₁ = ⟨s.journal, .walking, jobs, loadCompletedJobIds s.journal, cleanBetween, dryRun⟩ := by
    cases campaignMove hstart
    rfl
  have hevents : collect campaignStep campaignEvents s (.start jobs cleanBetween dryRun :: acts)
      = collect campaignStep campaignEvents s₁ acts := by
    simp only [collect, hstart, campaignEvents, List.nil_append]
  rw [hevents]
  have hfirst : Underway
      (if dryRun then [] else jobs.filter fun id => id ∉ loadCompletedJobIds s.journal)
      cleanBetween [] s₁ := by
    subst hs₁
    exact ⟨rfl, fun hoff => (by cases hoff), [], [], [], [], rfl, .nil, .walking, rfl⟩
  refine run_inv_history (I := fun as u => (∀ a ∈ as, GoesOn a) → Underway _ cleanBetween
    (collect campaignStep campaignEvents s₁ as) u) (fun _ => hfirst)
    (fun as u a u' hrun ih hstep has => ?_) hrest hacts
  obtain ⟨hcrash, hnostart⟩ := has a (by simp)
  rw [collect_snoc hrun]
  exact (ih fun b hb => has b (List.mem_append_left _ hb)).step hnostart hcrash hstep

/-- **An invocation goes through its jobs in order.** Its jobs are those of the manifest without an
    `ok` record in the journal it finds. At any moment, so also when it dies, it has done for each of
    the first ones what is done for a job, and part of that for at most one more; what it has
    recorded of this stands in the journal; and once it has ended there are no others. -/
theorem campaign_goes_in_order {s t : CampaignState} {jobs : List String}
    {cleanBetween dryRun : Bool} {acts : List CampaignAct} (hacts : ∀ a ∈ acts, GoesOn a)
    (h : run campaignStep s (.start jobs cleanBetween dryRun :: acts) = some t) :
    ∃ done traces now part rest,
      (if dryRun then [] else jobs.filter fun id => id ∉ loadCompletedJobIds s.journal)
        = done ++ now ++ rest ∧
      collect campaignStep campaignEvents s (.start jobs cleanBetween dryRun :: acts)
        = traces.flatten ++ part ∧
      List.Forall₂ (JobTrace cleanBetween) done traces ∧ Doing cleanBetween t.phase now part ∧
      t.journal = s.journal ++ (traces.flatten ++ part).filterMap recordOf ∧
      (t.phase = .off → now = [] ∧ part = [] ∧ rest = []) := by
  obtain ⟨-, hoff, done, traces, now, part, hevents, htraces, hdoing, hpending⟩ :=
    underway_of_run hacts h
  have hjournal := journal_eq h
  rw [hevents] at hjournal
  refine ⟨done, traces, now, part, pendingJobs t, hpending, hevents, htraces, hdoing, hjournal,
    fun ht => ?_⟩
  rw [ht] at hdoing
  cases hdoing
  refine ⟨rfl, rfl, ?_⟩
  rw [pendingJobs, hoff ht]
  simp

/-- Two jobs, of which the first needs a second attempt. -/
def retriedOnce : List CampaignAct :=
  [.nextJob, .memory false, .subprocess (some 1) false, .append, .cleanup, .memory false,
    .subprocess (some 0) false, .append, .nextJob, .memory true, .append, .nextJob]

def retriedOnceEnd : CampaignState :=
  ⟨[attemptRecord "a" 1 (some 1) false, attemptRecord "a" 2 (some 0) false, skippedRecord "b" 1],
    .off, [], [], false, false⟩

theorem campaign_goes_in_order_retried :
    ∃ done traces now part rest, ["a", "b"] = done ++ now ++ rest ∧
      collect campaignStep campaignEvents .init (.start ["a", "b"] false false :: retriedOnce)
        = traces.flatten ++ part ∧
      List.Forall₂ (JobTrace false) done traces ∧ Doing false retriedOnceEnd.phase now part ∧
      retriedOnceEnd.journal = [] ++ (traces.flatten ++ part).filterMap recordOf ∧
      (retriedOnceEnd.phase = .off → now = [] ∧ part = [] ∧ rest = []) :=
  @campaign_goes_in_order .init retriedOnceEnd ["a", "b"] false false retriedOnce
    (by simp [retriedOnce, GoesOn]) (by decide)

/-! ## Over all invocations -/

/-- The job an invocation is at. -/
def currentJob : CampaignPhase → List String
  | .attempting jobId _ | .running jobId _ | .cleaning (some jobId) => [jobId]
  | .appending record => [record.jobId]
  | .off | .walking | .cleaning none => []

/-- No job has two `ok` records, and none is tried that has one. -/
structure OnceOk (s : CampaignState) : Prop where
  nodup : (loadCompletedJobIds s.journal).Nodup
  jobs : (currentJob s.phase ++ s.jobs).Nodup
  current : ∀ id ∈ currentJob s.phase, id ∉ loadCompletedJobIds s.journal
  known : ∀ id ∈ s.jobs, id ∈ loadCompletedJobIds s.journal → id ∈ s.completed

theorem loadCompletedJobIds_snoc (journal : List AttemptRecord) (record : AttemptRecord) :
    loadCompletedJobIds (journal ++ [record])
      = loadCompletedJobIds journal ++ if record.status = .ok then [record.jobId] else [] := by
  rw [loadCompletedJobIds, List.filter_append, List.map_append, List.filter_singleton]
  by_cases hok : record.status = .ok <;> simp [loadCompletedJobIds, hok]

/-- After its record a job is tried again only if that was not `ok`. -/
theorem currentJob_afterAppend (s : CampaignState) (record : AttemptRecord) :
    currentJob (afterAppend s record) = [] ∨
      currentJob (afterAppend s record) = [record.jobId] ∧ record.status ≠ .ok := by
  cases hstatus : record.status <;> simp only [afterAppend, hstatus]
  · split <;> exact .inl rfl
  · split
    · exact .inr ⟨rfl, by simp⟩
    · exact .inl rfl
  · split
    · exact .inr ⟨rfl, by simp⟩
    · exact .inl rfl
  · exact .inl rfl

theorem OnceOk.step {s s' : CampaignState} {a : CampaignAct} (h : OnceOk s)
    (hids : ∀ jobs cleanBetween dryRun, a = .start jobs cleanBetween dryRun → jobs.Nodup)
    (hstep : campaignStep s a = some s') : OnceOk s' := by
  obtain ⟨hnodup, hjobs, hcurrent, hknown⟩ := h
  cases campaignMove hstep with
  | start jobs cleanBetween dryRun hoff =>
    exact ⟨hnodup, hids jobs cleanBetween dryRun rfl, fun id hid => (by cases hid), fun id _ hin => hin⟩
  | finish hwalk hnil => exact ⟨hnodup, by simp [currentJob, hnil], fun id hid => (by cases hid), hknown⟩
  | @skip jobId jobs hwalk hj hdone =>
    rw [hwalk, hj] at hjobs
    rw [hj] at hknown
    refine ⟨hnodup, ?_, hcurrent, fun id hid => hknown id (List.mem_cons_of_mem _ hid)⟩
    simp only [hwalk]
    exact (List.nodup_cons.mp hjobs).2
  | @take jobId jobs hwalk hj hnot hdry =>
    rw [hwalk, hj] at hjobs
    rw [hj] at hknown
    refine ⟨hnodup, hjobs, fun id hid => ?_, fun id hid => hknown id (List.mem_cons_of_mem _ hid)⟩
    rw [currentJob, List.mem_singleton] at hid
    subst hid
    exact fun hin => hnot (hknown id List.mem_cons_self hin)
  | low hat | launch hat | ended returncode timedOut hat =>
    rw [hat] at hjobs hcurrent
    exact ⟨hnodup, hjobs, hcurrent, hknown⟩
  | cleaned hclean | retry hclean =>
    rw [hclean] at hjobs hcurrent
    exact ⟨hnodup, hjobs, hcurrent, hknown⟩
  | crash hon =>
    exact ⟨hnodup, (List.nodup_append.mp hjobs).2.1, fun id hid => (by cases hid), hknown⟩
  | @append record happ =>
    rw [happ] at hjobs hcurrent
    obtain ⟨hnot, hrest⟩ := List.nodup_cons.mp hjobs
    have hnew : record.jobId ∉ loadCompletedJobIds s.journal := hcurrent _ (List.mem_singleton_self _)
    refine ⟨?_, ?_, fun id hid => ?_, fun id hid hin => ?_⟩
    · rw [loadCompletedJobIds_snoc]
      split
      · exact List.nodup_append'.mpr ⟨hnodup, List.nodup_singleton _, by simpa using hnew⟩
      · simpa using hnodup
    · rcases currentJob_afterAppend s record with hnone | ⟨hsame, -⟩
      · simpa [hnone] using hrest
      · simpa [hsame] using ⟨hnot, hrest⟩
    · rcases currentJob_afterAppend s record with hnone | ⟨hsame, hbad⟩
      · simp [hnone] at hid
      · simp only [hsame, List.mem_singleton] at hid
        rw [loadCompletedJobIds_snoc, if_neg hbad, List.append_nil, hid]
        exact hnew
    · rw [loadCompletedJobIds_snoc, List.mem_append] at hin
      rcases hin with hin | hin
      · exact hknown id hid hin
      · split at hin
        · rw [List.mem_singleton] at hin
          exact absurd (hin ▸ hid) hnot
        · cases hin

/-- **A resumed campaign repeats nothing that went well.** However often it is started, with whatever
    manifests of different jobs, and wherever it is killed: no job has two `ok` records, and none is
    launched that has one. -/
theorem campaign_ok_once {acts : List CampaignAct} {s : CampaignState}
    (hids : ∀ jobs cleanBetween dryRun, .start jobs cleanBetween dryRun ∈ acts → jobs.Nodup)
    (h : run campaignStep .init acts = some s) :
    (loadCompletedJobIds s.journal).Nodup ∧
      ∀ jobId attempt, s.phase = .running jobId attempt → jobId ∉ loadCompletedJobIds s.journal := by
  have hinit : OnceOk CampaignState.init := by
    refine ⟨?_, ?_, fun id hid => (by cases hid), fun id hid => (by cases hid)⟩ <;>
      simp [CampaignState.init, loadCompletedJobIds, currentJob]
  have honce : OnceOk s := by
    refine run_inv_history (I := fun as t => (∀ a ∈ as, a ∈ acts) → OnceOk t) (fun _ => hinit)
      (fun as t a t' _ ih hstep has => ?_) h fun a ha => ha
    refine (ih fun b hb => has b (List.mem_append_left _ hb)).step (fun jobs cb dr ha => ?_) hstep
    exact hids jobs cb dr (ha ▸ has a (by simp))
  refine ⟨honce.nodup, fun jobId attempt hrun => honce.current jobId ?_⟩
  rw [hrun]
  exact List.mem_singleton_self jobId

/-- A campaign that dies in its second job and is started again. -/
def diesAndResumes : List CampaignAct :=
  [.start ["a", "b"] false false, .nextJob, .memory false, .subprocess (some 0) false, .append,
    .nextJob, .memory false, .crash, .start ["a", "b"] false false, .nextJob, .nextJob,
    .memory false]

def diesAndResumesEnd : CampaignState :=
  ⟨[attemptRecord "a" 1 (some 0) false], .running "b" 1, [], ["a"], false, false⟩

theorem campaign_ok_once_resumed :
    (loadCompletedJobIds diesAndResumesEnd.journal).Nodup ∧ ∀ jobId attempt,
      diesAndResumesEnd.phase = .running jobId attempt →
        jobId ∉ loadCompletedJobIds diesAndResumesEnd.journal :=
  @campaign_ok_once diesAndResumes diesAndResumesEnd (by simp [diesAndResumes]) (by decide)

end Proof
end CeforeEmu
