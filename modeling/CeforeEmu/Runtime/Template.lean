import Mathlib.Data.List.Dedup
import CeforeEmu.Core.Roles
import CeforeEmu.Lib.Op
import CeforeEmu.Lib.Text

/-!
# Node directories

`runtime/template.py`: the two rewrites of a configuration file, and `provision_node_dirs`, which
copies a template to `hN` for every host, stamps the copy, and prepares the configuration in it.

A file operation may fail, and what it has done by then stays done. A call has at most one such
`FileFault`: the host and the operation it strikes, with what that operation leaves behind. The rest
of a call is determined by what stands under `base_dir` and by the templates. A file that is not
UTF-8 is one whose rewriting fails.

`made` is kept for the proofs: the hosts whose directory the call has brought about.
-/

set_option autoImplicit false

namespace CeforeEmu
namespace Runtime
namespace Template

open CeforeEmu.Lib CeforeEmu.Core

/-! ## Configuration files -/

/-- `f"LOCAL_SOCK_ID={idx}\n"`. -/
def sockIdLine (idx : ℕ) : Text := "LOCAL_SOCK_ID=".toList ++ (toString idx).toList ++ ['\n']

/-- Whether a line sets the socket id, or would if it were not commented out. -/
def setsSockId (line : Text) : Bool :=
  "LOCAL_SOCK_ID=".toList.isPrefixOf line.lstrip ||
    "#LOCAL_SOCK_ID=".toList.isPrefixOf line.lstrip

/-- The rewriting of `update_local_sock_id`, of one file. -/
def updateLocalSockIdText (idx : ℕ) (text : Text) : Text :=
  let lines := text.universalNewlines.readLines
  let newLines := lines.map fun line =>
    if setsSockId line then line.take (line.length - line.lstrip.length) ++ sockIdLine idx
    else line
  (if lines.any setsSockId then newLines else newLines ++ [sockIdLine idx]).flatten

/-- `^\s*#?\s*KEY\s*=.*$` on a single line. A key is a name: it begins with no white space and
    no `#`. -/
def assignsKey (key : Text) (line : Text) : Bool :=
  let rest :=
    match line.lstrip with
    | '#' :: rest => Text.lstrip rest
    | rest => rest
  key.isPrefixOf rest && ((Text.lstrip (rest.drop key.length)).head? == some '=')

/-- The loop of `_set_config_value`: the first line that assigns the key is replaced, the others
    are dropped. -/
def setConfigLines (key : Text) (entry : Text) : Bool → List Text → List Text
  | replaced, [] => if replaced then [] else [entry]
  | replaced, line :: lines =>
      if assignsKey key line then
        if replaced then setConfigLines key entry true lines
        else entry :: setConfigLines key entry true lines
      else line :: setConfigLines key entry replaced lines

/-- The rewriting of `_set_config_value`. -/
def setConfigValueText (key value : Text) (text : Text) : Text :=
  Text.joinLines (setConfigLines key (key ++ '=' :: value) false text.universalNewlines.splitLines)
    ++ ['\n']

/-- The line of `_read_config_value`: `^\s*KEY\s*=\s*(.*)$`, and its group, stripped. -/
def readsKey (key : Text) (line : Text) : Option Text :=
  if key.isPrefixOf line.lstrip then
    match Text.lstrip (line.lstrip.drop key.length) with
    | '=' :: value => some (Text.strip value)
    | _ => none
  else none

/-- `_read_config_value`, of one file. -/
def readConfigValueText (key : Text) (text : Text) : Option Text :=
  text.universalNewlines.splitLines.findSome? (readsKey key)

/-! ## Directories -/

def stampFilename : String := ".ceforeemu-node-dir"

inductive Item where
  | folder
  | file (text : Text)
  deriving DecidableEq, Repr

/-- A path under a node directory. -/
abbrev RelPath := List String

/-- What a node directory holds, folders and files, by their paths. -/
abbrev Tree := Dict RelPath Item

/-- What stands at a path: a directory, or something else. -/
inductive Entry where
  | file
  | dir (tree : Tree)
  deriving DecidableEq, Repr

namespace Tree

/-- What a removal that fails leaves. -/
def keep (kept : RelPath → Bool) (tree : Tree) : Tree := tree.filter fun e => kept e.1

/-- What a copy that fails has copied. -/
def copyPart (copied : RelPath → Item → Option Item) (tree : Tree) : Tree :=
  tree.filterMap fun e => (copied e.1 e.2).map fun item => (e.1, item)

/-- `(node_dir / STAMP_FILENAME).exists()`. -/
def hasStamp (tree : Tree) : Bool := (Dict.get? tree [stampFilename]).isSome

/-- `(node_dir / STAMP_FILENAME).touch()`. -/
def stamp (tree : Tree) : Tree :=
  if tree.hasStamp then tree else Dict.set tree [stampFilename] (.file [])

/-- `update_local_sock_id` on one of the files; what is no file is passed over. -/
def updateSockId (idx : ℕ) (tree : Tree) (conf : String) : Tree :=
  match Dict.get? tree [conf] with
  | some (.file text) => Dict.set tree [conf] (.file (updateLocalSockIdText idx text))
  | _ => tree

/-- `update_local_sock_id(node_dir, idx)`. -/
def updateLocalSockId (idx : ℕ) (tree : Tree) : Tree :=
  ["cefnetd.conf", "csmgrd.conf"].foldl (updateSockId idx) tree

/-- `_set_config_value(node_dir / "cefnetd.conf", "NODE_NAME", f"h{idx}")`; a folder of that
    name cannot be read. -/
def setNodeName (idx : ℕ) (tree : Tree) : Option Tree :=
  match Dict.get? tree ["cefnetd.conf"] with
  | none => some tree
  | some .folder => none
  | some (.file text) =>
      let name := "h".toList ++ (toString idx).toList
      let text := setConfigValueText "NODE_NAME".toList name text
      some (Dict.set tree ["cefnetd.conf"] (.file text))

/-- `path.mkdir(exist_ok=True)`. -/
def mkdir (tree : Tree) (path : RelPath) : Option Tree :=
  match Dict.get? tree path with
  | none => some (Dict.set tree path .folder)
  | some .folder => some tree
  | some (.file _) => none

/-- `(node_dir / ".cefore_env" / "cefore").mkdir(parents=True, exist_ok=True)`. -/
def mkdirCeforeEnv (tree : Tree) : Option Tree :=
  (mkdir tree [".cefore_env"]).bind fun tree => mkdir tree [".cefore_env", "cefore"]

/-- `shutil.copy2(src, dst)` of a file: into `dst` where that is a folder. -/
def copy2 (tree : Tree) (name : String) (text : Text) (dst : RelPath) : Option Tree :=
  match Dict.get? tree dst with
  | some .folder =>
      match Dict.get? tree (dst ++ [name]) with
      | some .folder => none
      | _ => some (Dict.set tree (dst ++ [name]) (.file text))
  | _ => some (Dict.set tree dst (.file text))

/-- The copy of `cefnetd.conf` for `CEFORE_DIR`, if there is a `cefnetd.conf`. -/
def mirrorConf (tree : Tree) : Option Tree :=
  match Dict.get? tree ["cefnetd.conf"] with
  | none => some tree
  | some .folder => none
  | some (.file text) => copy2 tree "cefnetd.conf" text [".cefore_env", "cefore", "cefnetd.conf"]

end Tree

/-! ## Faults -/

/-- The operation that fails, and what it leaves behind. -/
inductive FailedOp where
  | templateExists
  | isDir
  | stampExists
  /-- The old directory is still there, with what is `kept` of it. -/
  | rmtree (kept : RelPath → Bool)
  /-- Nothing is made yet, or a directory with what `copied` has of the template's items. -/
  | copytree (copied : Option (RelPath → Item → Option Item))
  | touch (written : Bool)
  | updateLocalSockId (left : Tree)
  | setNodeName (left : Tree)
  | mkdirCeforeEnv (left : Tree)
  | mirrorConf (left : Tree)
  /-- `rmtree` in the rollback, whose errors are ignored. -/
  | rollback (kept : RelPath → Bool)

structure FileFault where
  host : ℕ
  op : FailedOp

/-- The operation that fails at a host. -/
def failsAt (fault : Option FileFault) (idx : ℕ) : Option FailedOp :=
  match fault with
  | some ⟨host, op⟩ => if host = idx then some op else none
  | none => none

/-- What is raised: a `NodeDirError`, or what a file operation raises. -/
inductive Raised where
  | missingTemplate (template : String)
  | unmanaged (idx : ℕ)
  | fileError
  deriving DecidableEq, Repr

/-- The message of a `NodeDirError`, the paths as they are printed. -/
def Raised.message (templatePath : String → String) (nodeDir : ℕ → String) : Raised → Option String
  | .missingTemplate template => some ("missing template directory: " ++ templatePath template)
  | .unmanaged idx =>
      some (nodeDir idx ++ " exists but was not created by ceforeemu (no " ++ stampFilename ++
        " stamp). Remove it manually before running.")
  | .fileError => none

/-! ## `provision_node_dirs` -/

/-- What stands at `base_dir / f"h{idx}"`. -/
abbrev BaseDir := ℕ → Option Entry

structure Provisioning where
  entries : BaseDir
  made : List ℕ
  generated : List ℕ

def BaseDir.put (entries : BaseDir) (idx : ℕ) (entry : Option Entry) : BaseDir :=
  fun i => if i = idx then entry else entries i

/-- The template of a role under `TEMPLATE_ROOT`. -/
abbrev Templates := String → Option Entry

/-- `template.exists()`, and the error for one that does not. -/
def findTemplate (templates : Templates) (fault : Option FailedOp) (template : String) :
    Op Provisioning Raised Entry := fun s =>
  match fault, templates template with
  | some .templateExists, _ => (.error .fileError, s)
  | _, none => (.error (.missingTemplate template), s)
  | _, some entry => (.ok entry, s)

/-- `shutil.rmtree(node_dir)`. -/
def removeOld (fault : Option FailedOp) (idx : ℕ) (tree : Tree) : Op Provisioning Raised Unit :=
  fun s =>
    match fault with
    | some (.rmtree kept) =>
        (.error .fileError, { s with entries := s.entries.put idx (some (.dir (tree.keep kept))) })
    | _ => (.ok (), { s with entries := s.entries.put idx none })

/-- The guard: what is there already must be stamped, and goes. -/
def clearNodeDir (fault : Option FailedOp) (idx : ℕ) : Op Provisioning Raised Unit := fun s =>
  match fault, s.entries idx with
  | some .isDir, _ => (.error .fileError, s)
  | some .stampExists, some (.dir _) => (.error .fileError, s)
  | fault, some (.dir tree) =>
      if tree.hasStamp then removeOld fault idx tree s else (.error (.unmanaged idx), s)
  | _, _ => (.ok (), s)

/-- A directory that was not there comes into being. -/
def Provisioning.make (s : Provisioning) (idx : ℕ) (tree : Tree) : Provisioning :=
  { s with entries := s.entries.put idx (some (.dir tree)), made := s.made ++ [idx] }

/-- `shutil.copytree(template, node_dir)`: the template must be a directory, and nothing may stand
    where the copy goes. -/
def copytree (fault : Option FailedOp) (template : Entry) (idx : ℕ) : Op Provisioning Raised Unit :=
  fun s =>
    match template, s.entries idx with
    | .dir tree, none =>
        match fault with
        | some (.copytree none) => (.error .fileError, s)
        | some (.copytree (some copied)) =>
            (.error .fileError, s.make idx (tree.copyPart copied))
        | _ => (.ok (), s.make idx tree)
    | _, _ => (.error .fileError, s)

/-- Work inside a node directory: the new tree, or, where the work fails, the one it leaves. -/
def workIn (idx : ℕ) (work : Tree → Except Tree Tree) : Op Provisioning Raised Unit := fun s =>
  match s.entries idx with
  | some (.dir tree) =>
      match work tree with
      | .ok tree => (.ok (), { s with entries := s.entries.put idx (some (.dir tree)) })
      | .error left =>
          (.error .fileError, { s with entries := s.entries.put idx (some (.dir left)) })
  | _ => (.error .fileError, s)

/-- Work on the configuration: a fault leaves any tree, and where the tree itself does not admit
    the work it stays as it was. -/
def configure (failed : Option Tree) (work : Tree → Option Tree) (tree : Tree) : Except Tree Tree :=
  match failed, work tree with
  | some left, _ => .error left
  | none, some tree => .ok tree
  | none, none => .error tree

/-- `(node_dir / STAMP_FILENAME).touch()`. -/
def touchStamp (fault : Option FailedOp) (tree : Tree) : Except Tree Tree :=
  match fault with
  | some (.touch written) => .error (if written then tree.stamp else tree)
  | _ => .ok tree.stamp

/-- `generated.append(node_dir)`. -/
def register (idx : ℕ) : Op Provisioning Raised Unit :=
  Op.modify fun s => { s with generated := s.generated ++ [idx] }

/-- What is done in a directory once it is registered, in order. -/
def finish (fault : Option FailedOp) (idx : ℕ) (tree : Tree) : Except Tree Tree := do
  let tree ← configure (match fault with | some (.updateLocalSockId left) => some left | _ => none)
    (fun tree => some (tree.updateLocalSockId idx)) tree
  let tree ← configure (match fault with | some (.setNodeName left) => some left | _ => none)
    (Tree.setNodeName idx) tree
  let tree ← configure (match fault with | some (.mkdirCeforeEnv left) => some left | _ => none)
    Tree.mkdirCeforeEnv tree
  configure (match fault with | some (.mirrorConf left) => some left | _ => none)
    Tree.mirrorConf tree

/-- One turn of the loop. -/
def provisionHost (templates : Templates) (fault : Option FailedOp) (role : NodeRole) (idx : ℕ) :
    Op Provisioning Raised Unit := do
  let template ← findTemplate templates fault role.template
  clearNodeDir fault idx
  copytree fault template idx
  workIn idx (touchStamp fault)
  register idx
  workIn idx (finish fault idx)

/-- A mapping of host indices to roles: no host has two. -/
structure Roles where
  dict : Dict ℕ NodeRole
  nodup : (dict.map (·.1)).Nodup

/-- The loop. -/
def provisionAll (templates : Templates) (roles : Roles) (fault : Option FileFault) :
    Op Provisioning Raised Unit :=
  Op.forEach (sorted (roles.dict.map (·.1))) fun idx =>
    Op.whenSome (roles.dict.get? idx) fun role =>
      provisionHost templates (failsAt fault idx) role idx

/-- `shutil.rmtree(created, ignore_errors=True)`. -/
def undo (fault : Option FileFault) (s : Provisioning) (idx : ℕ) : Provisioning :=
  match failsAt fault idx, s.entries idx with
  | some (.rollback kept), some (.dir tree) =>
      { s with entries := s.entries.put idx (some (.dir (tree.keep kept))) }
  | _, _ => { s with entries := s.entries.put idx none }

/-- `provision_node_dirs`: what it returns or raises, and what stands under `base_dir` then. -/
def provisionNodeDirs (templates : Templates) (roles : Roles) (fault : Option FileFault)
    (entries : BaseDir) : Except Raised (List ℕ) × Provisioning :=
  match provisionAll templates roles fault ⟨entries, [], []⟩ with
  | (.ok (), s) => (.ok s.generated, s)
  | (.error err, s) => (.error err, s.generated.foldl (undo fault) s)

/-! ## Cache modes

The configurations of the hosts once their directories are there. Nothing here makes a file: one
that does not exist is passed over. -/

/-- What stands at the path of a configuration: a text, or what `read_text` raises on. -/
inductive ConfFile where
  | text (text : Text)
  | unreadable

/-- `Path(f"h{idx}") / name`. -/
abbrev ConfFiles := ℤ → String → Option ConfFile

def ConfFiles.put (files : ConfFiles) (idx : ℤ) (name : String) (file : ConfFile) : ConfFiles :=
  fun i n => if i = idx ∧ n = name then some file else files i n

/-- What ends a placement: a file that cannot be read, or a choice that fails. -/
inductive ConfError where
  | unreadable (idx : ℤ) (name : String)
  | fault (fault : Fault)
  deriving DecidableEq, Repr

/-- `_set_config_value`. -/
def setConfigValue (idx : ℤ) (name : String) (key value : String) : Op ConfFiles ConfError Unit :=
  fun files =>
    match files idx name with
    | none => (.ok (), files)
    | some .unreadable => (.error (.unreadable idx name), files)
    | some (.text text) =>
        (.ok (), files.put idx name (.text (setConfigValueText key.toList value.toList text)))

/-- `_read_config_value`. -/
def readConfigValue (idx : ℤ) (name : String) (key : String) :
    Op ConfFiles ConfError (Option Text) := fun files =>
  match files idx name with
  | none => (.ok none, files)
  | some .unreadable => (.error (.unreadable idx name), files)
  | some (.text text) => (.ok (readConfigValueText key.toList text), files)

/-- The settings of a cache, as they are printed. -/
structure CacheSettings where
  defaultRctMs : Option String := none
  capacity : Option String := none
  algorithm : Option String := none
  type : Option String := none

/-- The first loop of `apply_cache_node_settings`, at one cache node. -/
def cacheNodeSettings (settings : CacheSettings) (idx : ℤ) : Op ConfFiles ConfError Unit := do
  setConfigValue idx "cefnetd.conf" "CS_MODE" "2"
  Op.whenSome settings.defaultRctMs (setConfigValue idx "csmgrd.conf" "CACHE_DEFAULT_RCT")
  Op.whenSome settings.capacity (setConfigValue idx "csmgrd.conf" "CACHE_CAPACITY")
  Op.whenSome settings.algorithm (setConfigValue idx "csmgrd.conf" "CACHE_ALGORITHM")
  Op.whenSome settings.type (setConfigValue idx "csmgrd.conf" "CACHE_TYPE")

/-- The second loop, at a host that is no cache node. -/
def otherNodeMode (publishers : List ℤ) (idx : ℤ) : Op ConfFiles ConfError Unit := do
  let files ← Op.get
  Op.when (files idx "cefnetd.conf").isSome
    (if idx ∈ publishers then setConfigValue idx "cefnetd.conf" "CS_MODE" "1"
    else do
      let current ← readConfigValue idx "cefnetd.conf" "CS_MODE"
      Op.when (current == some "2".toList) (setConfigValue idx "cefnetd.conf" "CS_MODE" "0"))

/-- `apply_cache_node_settings`. -/
def applyCacheNodeSettings (hostNum : ℤ) (cacheNodes : List ℤ) (settings : CacheSettings)
    (publishers : List ℤ) : Op ConfFiles ConfError Unit := do
  Op.forEach (cacheNodes.dedup.insertionSort (· ≤ ·)) fun idx =>
    Op.when (0 ≤ idx ∧ idx < hostNum) (cacheNodeSettings settings idx)
  Op.forEach (intRange hostNum) fun idx =>
    Op.when (idx ∉ cacheNodes) (otherNodeMode publishers idx)

/-- `apply_cs_modes`; a file that does not exist is passed over here too. -/
def applyCsModes (csModes : Dict ℤ ℕ) : Op ConfFiles ConfError Unit :=
  Op.forEach csModes fun e => setConfigValue e.1 "cefnetd.conf" "CS_MODE" (toString e.2)

end Template
end Runtime
end CeforeEmu
