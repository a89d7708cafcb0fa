import CeforeEmu.Lib.Run

/-!
# The campaign runner

`tools/workshop/campaign.py`: a batch of jobs, one after the other, with a journal on disk from which
a later invocation resumes. A step of the model is one thing an invocation does that is seen outside
it, or its death: it can be killed, or die of an exception, between any two steps. The label holds
what the environment answers (too little memory, how a subprocess ended).

A job is its `id`; its command is what the environment runs. A record has the fields that a later
invocation or a property looks at. One line of the journal is on disk whole or not at all.
-/

set_option autoImplicit false

namespace CeforeEmu
namespace Tools

open CeforeEmu.Lib

/-- `status`. -/
inductive AttemptStatus where
  | ok | failed | timeout | skippedMemory
  deriving DecidableEq, Repr

/-- A line of `campaign_state.jsonl`. -/
structure AttemptRecord where
  jobId : String
  attempt : ℕ
  status : AttemptStatus
  exitCode : Option Int
  deriving DecidableEq, Repr

/-- `_load_completed_job_ids`. -/
def loadCompletedJobIds (journal : List AttemptRecord) : List String :=
  (journal.filter fun record => record.status = .ok).map (·.jobId)

/-- The record of an attempt for which memory was too low. -/
def skippedRecord (jobId : String) (attempt : ℕ) : AttemptRecord :=
  ⟨jobId, attempt, .skippedMemory, none⟩

/-- The record of an attempt that was run. -/
def attemptRecord (jobId : String) (attempt : ℕ) (returncode : Option Int) (timedOut : Bool) :
    AttemptRecord :=
  let status := if timedOut then .timeout else if returncode = some 0 then .ok else .failed
  ⟨jobId, attempt, status, returncode⟩

/-- Where an invocation is. -/
inductive CampaignPhase where
  /-- None is running. -/
  | off
  /-- `for job in jobs`. -/
  | walking
  /-- `for attempt in (1, 2)`. -/
  | attempting (jobId : String) (attempt : ℕ)
  /-- `_run_job_subprocess`. -/
  | running (jobId : String) (attempt : ℕ)
  /-- `_append_state`. -/
  | appending (record : AttemptRecord)
  /-- `_run_cleanup`, and whether the job is tried again after it. -/
  | cleaning (retry : Option String)
  deriving DecidableEq, Repr

structure CampaignState where
  journal : List AttemptRecord
  phase : CampaignPhase
  /-- The rest of `jobs`. -/
  jobs : List String
  completed : List String
  cleanBetween : Bool
  dryRun : Bool
  deriving DecidableEq, Repr

/-- An empty output directory. -/
def CampaignState.init : CampaignState := ⟨[], .off, [], [], false, false⟩

inductive CampaignAct where
  | start (jobs : List String) (cleanBetween dryRun : Bool)
  | nextJob
  /-- `_mem_available_fraction() < _MEM_AVAILABLE_MIN_FRACTION`. -/
  | memory (low : Bool)
  | subprocess (returncode : Option Int) (timedOut : Bool)
  | append
  | cleanup
  | crash
  deriving DecidableEq, Repr

/-- What follows the record of an attempt. -/
def afterAppend (s : CampaignState) (record : AttemptRecord) : CampaignPhase :=
  match record.status with
  | .skippedMemory => .walking
  | .ok => if s.cleanBetween then .cleaning none else .walking
  | .failed | .timeout => if record.attempt = 1 then .cleaning (some record.jobId) else .walking

def campaignStep (s : CampaignState) : CampaignAct → Option CampaignState
  | .start jobs cleanBetween dryRun =>
      match s.phase with
      | .off =>
          some
            { s with
              phase := .walking
              jobs := jobs
              completed := loadCompletedJobIds s.journal
              cleanBetween := cleanBetween
              dryRun := dryRun }
      | _ => none
  | .nextJob =>
      match s.phase, s.jobs with
      | .walking, [] => some { s with phase := .off }
      | .walking, jobId :: jobs =>
          if jobId ∈ s.completed ∨ s.dryRun then some { s with jobs := jobs }
          else some { s with phase := .attempting jobId 1, jobs := jobs }
      | _, _ => none
  | .memory low =>
      match s.phase with
      | .attempting jobId attempt =>
          some
            { s with
              phase :=
                if low then .appending (skippedRecord jobId attempt) else .running jobId attempt }
      | _ => none
  | .subprocess returncode timedOut =>
      match s.phase with
      | .running jobId attempt =>
          some { s with phase := .appending (attemptRecord jobId attempt returncode timedOut) }
      | _ => none
  | .append =>
      match s.phase with
      | .appending record =>
          some { s with journal := s.journal ++ [record], phase := afterAppend s record }
      | _ => none
  | .cleanup =>
      match s.phase with
      | .cleaning none => some { s with phase := .walking }
      | .cleaning (some jobId) => some { s with phase := .attempting jobId 2 }
      | _ => none
  | .crash =>
      match s.phase with
      | .off => none
      | _ => some { s with phase := .off }

/-- What an invocation is seen to do. -/
inductive CampaignEvent where
  | launched (jobId : String) (attempt : ℕ)
  | recorded (record : AttemptRecord)
  | cleaned
  deriving DecidableEq, Repr

/-- What one step is seen to do. -/
def campaignEvents (s : CampaignState) (a : CampaignAct) : List CampaignEvent :=
  match a, s.phase with
  | .memory false, .attempting jobId attempt => [.launched jobId attempt]
  | .append, .appending record => [.recorded record]
  | .cleanup, .cleaning _ => [.cleaned]
  | _, _ => []

end Tools
end CeforeEmu
