import CeforeEmu.Lib.Py

/-!
# What the two bridge modules share

`runtime/bridge_args.py`: the check of a static address, and the reading of a finished
command. `fail_closed_rc` turns a timed-out, cancelled or exit-less run into a failure, so a
command has two outcomes for its callers: it did its work, or it failed with a non-zero code
and a text.
-/

set_option autoImplicit false

namespace CeforeEmu
namespace Runtime

open Lib

/-- A command that did not do its work. -/
structure CmdFailure where
  rc : Int
  rc_ne_zero : rc ≠ 0
  stderr : String
  deriving DecidableEq, Repr

/-- The status `ip` fails with. -/
theorem ipStatus_ne_zero : (2 : Int) ≠ 0 := by decide

structure CommandResult where
  returncode : Int
  stdout : String
  stderr : String
  deriving DecidableEq, Repr

def CmdFailure.result (f : CmdFailure) : CommandResult := ⟨f.rc, "", f.stderr⟩

/-- A value used as a condition: `None` and `""` are false. -/
def truthy (value : Option String) : Option String := value.filter fun s => s ≠ ""

/-- `validate_static_ip`, on a string: the message it raises with. `ipInterfaceError` is what
    `ipaddress.ip_interface` objects to. -/
def staticIpError (ipInterfaceError : String → Option String) (ip : String) : Option String :=
  if ip = "" then
    some "static IP must be a non-empty CIDR string (e.g., '10.0.0.2/24')"
  else if '/' ∉ ip.toList then
    some ("static IP must be CIDR form, e.g. '10.0.0.2/24'; got '" ++ ip ++ "'")
  else
    (ipInterfaceError ip).map fun err => "invalid static IP '" ++ ip ++ "': " ++ err

end Runtime
end CeforeEmu
