import CeforeEmu.Lib.Patterns
import CeforeEmu.Core.FieldChecks

/-!
# Artifact names

`core/artifacts.py`: the name of a content operation's log file, and what is read from it. The
label in a name (`safe_uri_label`) has no slash, so the name is its own `Path(name).name`.
-/

set_option autoImplicit false

namespace CeforeEmu
namespace Core

open Lib

structure ContentLogMeta where
  command : String
  phase : String
  host : ℕ
  label : String
  deriving DecidableEq, Repr

/-- `content_log_name`. -/
def contentLogName (cmd phase : String) (host : ℕ) (uri : String) : String :=
  cmd ++ "_" ++ phase ++ "_h" ++ toString host ++ "_" ++ safeUriLabel uri ++ ".log"

/-- `^(cefputfile|cefgetfile|cefpubfile|cefsubfile|ccninfo)_([a-z]+)_h(\d+)_(.+)\.log$`. -/
def contentLogPattern : Pattern (String × Text × Text × Text) := do
  let command ← Pattern.oneOf ["cefputfile", "cefgetfile", "cefpubfile", "cefsubfile", "ccninfo"]
  Pattern.lit "_"
  let phase ← Pattern.some fun c => 'a' ≤ c ∧ c ≤ 'z'
  Pattern.lit "_h"
  let host ← Pattern.some Text.isDigit
  Pattern.lit "_"
  let label ← Pattern.some Pattern.dot
  Pattern.lit ".log"
  Pattern.atEnd
  return (command, phase, host, label)

/-- `parse_content_log_name` of a file's name. -/
def parseContentLogName (name : String) : Option ContentLogMeta :=
  (contentLogPattern.matchStart name.toList).bind fun (command, phase, host, label) =>
    (Text.digitsFrom 0 host).map fun host =>
      ⟨command, String.ofList phase, host, String.ofList label⟩

end Core
end CeforeEmu
