import CeforeEmu.Lib.Dict
import CeforeEmu.Lib.Run

/-!
# The results sink

`runtime/results_sink.py` and the records of `core/records.py`, with the keys that a subscriber
reads. A thread that records puts its record on the list, under the lock, and then calls the
subscribers one after another, not under the lock, so that other threads come in between. A
subscriber that raises ends the loop, and the exception goes to the thread.
-/

set_option autoImplicit false

namespace CeforeEmu
namespace Runtime

open CeforeEmu.Lib

/-- A record as it is written. `content` stands for `ContentRecord` and `CcninfoRecord`. -/
inductive ResultsRecord where
  | content (opType ts phase : String) (host : Int) (uri : String) (exitCode : Option Int)
      (downHosts : List Int) (success : Option Bool)
  | event (eventType ts : String) (host : Option Int) (success : Bool)
  deriving DecidableEq, Repr

/-- A call of a subscriber: which one, by which thread, with what. -/
structure SinkCall where
  subscriber : ℕ
  thread : ℕ
  record : ResultsRecord
  deriving DecidableEq, Repr

structure SinkState where
  /-- `_records`, with the threads they come from. -/
  records : List (ℕ × ResultsRecord)
  /-- The threads in `_append`, each with its record and the subscriber to call next. -/
  inAppend : Dict ℕ (ResultsRecord × ℕ)
  calls : List SinkCall
  deriving DecidableEq, Repr

def SinkState.init : SinkState := ⟨[], [], []⟩

inductive SinkAct where
  /-- The first half of `_append`. -/
  | append (thread : ℕ) (record : ResultsRecord)
  /-- `fn(record_dict)`. -/
  | call (thread : ℕ) (raised : Bool)
  deriving DecidableEq, Repr

/-- A step with `subscribers` subscribers. -/
def sinkStep (subscribers : ℕ) (s : SinkState) : SinkAct → Option SinkState
  | .append thread record =>
      match s.inAppend.get? thread with
      | some _ => none
      | none =>
          some
            { s with
              records := s.records ++ [(thread, record)]
              inAppend := if subscribers = 0 then s.inAppend else s.inAppend.set thread (record, 0) }
  | .call thread raised =>
      match s.inAppend.get? thread with
      | none => none
      | some (record, k) =>
          some
            { s with
              calls := s.calls ++ [⟨k, thread, record⟩]
              inAppend :=
                if raised ∨ subscribers ≤ k + 1 then s.inAppend.pop thread
                else s.inAppend.set thread (record, k + 1) }

end Runtime
end CeforeEmu
