import CeforeEmu.Lib.Patterns
import CeforeEmu.Lib.Py
import CeforeEmu.Runtime.Template

/-!
# What a daemon's configuration says

`runtime/cefore_conf.py` and `runtime/daemon_logs.py`: the port and the socket id of a node's daemons,
which the names of their logs are made of. Each reader goes through the lines of one file up to the
first that assigns its key, and takes the first word after the `=`.
-/

set_option autoImplicit false

namespace CeforeEmu
namespace Runtime
namespace DaemonConf

open CeforeEmu.Lib CeforeEmu.Runtime.Template

/-- The first of `text.split()`. -/
def firstWord? (text : Text) : Option Text :=
  match text.lstrip.takeWhile fun c => !Text.isWhite c with
  | [] => none
  | word => some word

/-- `text.split()[0]`. -/
def wordOf (text : Text) : Except PyErr Text :=
  match firstWord? text with
  | none => .error (.indexError "list index out of range")
  | some word => .ok word

/-- A line that is not commented out and begins with `KEY=`. -/
def isEntry (entry : String) (line : Text) : Bool :=
  let stripped := line.strip
  !stripped.isEmpty && !"#".toList.isPrefixOf stripped && entry.toList.isPrefixOf stripped

/-- `stripped.split("=", 1)[1].strip().split()[0]`, of a line with a `=`. -/
def entryWord (line : Text) : Except PyErr Text :=
  wordOf (Text.strip ((line.strip.dropWhile (· ≠ '=')).drop 1))

/-- The word of the first entry in a text, if there is one. -/
def readEntryText (entry : String) (text : Text) : Except PyErr (Option Text) :=
  match text.universalNewlines.readLines.find? (isEntry entry) with
  | none => .ok none
  | some line => (entryWord line).map some

/-- The word of the first entry in a file; what is no file has none. -/
def readEntry (tree : Tree) (confName entry : String) : Except PyErr (Option Text) :=
  match Dict.get? tree [confName] with
  | some (.file text) => readEntryText entry text
  | _ => .ok none

/-- A port; where there is no word, or one that is no number, it is the default. -/
def portOf (default : ℤ) (word : Option Text) : ℤ := (word.bind Text.int?).getD default

/-- `read_port_num`; its `default` is 9695 wherever it is called. -/
def readPortNum (tree : Tree) (default : ℤ) : Except PyErr ℤ :=
  (readEntry tree "cefnetd.conf" "PORT_NUM=").map (portOf default)

/-- `read_csmgr_port_num`. -/
def readCsmgrPortNum (tree : Tree) : Except PyErr ℤ :=
  (readEntry tree "csmgrd.conf" "PORT_NUM=").map (portOf 9799)

/-- `read_local_sock_id`. -/
def readLocalSockId (tree : Tree) (confName : String) : Except PyErr Text :=
  (readEntry tree confName "LOCAL_SOCK_ID=").map fun word => word.getD ['0']

end DaemonConf
end Runtime
end CeforeEmu
