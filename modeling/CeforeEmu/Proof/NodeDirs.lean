import CeforeEmu.Runtime.Template

/-!
# What a failed provisioning leaves behind

`provision_node_dirs` undoes what it has registered, and a directory is registered once it is
copied and stamped. Whatever fails later is undone; a copy that fails part-way, or a stamp that
cannot be written, leaves a directory nothing will undo, and the next call takes it for somebody
else's. The same goes for an old directory that loses its stamp before the rest of it can be
removed, and for one the rollback itself cannot remove. `atomic_unless` says that there is nothing
else: a call is atomic exactly when its fault, if it meets one, is none of these
(`LeavesTraces`).

A turn of the loop is described once (`provisionHost_ends`); the run is then the turns before the
first that fails, that turn, and the rollback.
-/

set_option autoImplicit false

namespace CeforeEmu
namespace Proof
namespace NodeDirs

open CeforeEmu.Lib CeforeEmu.Core CeforeEmu.Runtime.Template

/-! ## What stands at a host -/

@[simp] theorem put_same (entries : BaseDir) (idx : ℕ) (entry : Option Entry) :
    entries.put idx entry idx = entry := by
  simp [BaseDir.put]

theorem put_other (entries : BaseDir) {i idx : ℕ} (entry : Option Entry) (h : i ≠ idx) :
    entries.put idx entry i = entries i := by
  simp [BaseDir.put, h]

@[simp] theorem put_put (entries : BaseDir) (idx : ℕ) (entry entry' : Option Entry) :
    (entries.put idx entry).put idx entry' = entries.put idx entry' := by
  funext i
  by_cases h : i = idx
  · simp [BaseDir.put, h]
  · simp [BaseDir.put, h]

@[simp] theorem put_self (entries : BaseDir) (idx : ℕ) :
    entries.put idx (entries idx) = entries := by
  funext i
  by_cases h : i = idx
  · rw [h, put_same]
  · rw [put_other _ _ h]

/-- A directory somebody else made. -/
def Unmanaged (entry : Option Entry) : Prop :=
  ∃ tree, entry = some (.dir tree) ∧ tree.hasStamp = false

/-- Nothing there, or a directory of an earlier call. -/
def Clear (entry : Option Entry) : Prop :=
  entry = none ∨ ∃ tree, entry = some (.dir tree) ∧ tree.hasStamp = true

theorem Clear.not_unmanaged {entry : Option Entry} (h : Clear entry) : ¬ Unmanaged entry := by
  rintro ⟨tree, rfl, hstamp⟩
  rcases h with h | ⟨tree', h, hstamp'⟩
  · cases h
  · cases h
    rw [hstamp] at hstamp'
    cases hstamp'

/-! ## The configuration -/

/-- What kind of thing stands at a path: a folder (`true`), a file, or nothing. -/
def kind (tree : Tree) (path : RelPath) : Option Bool :=
  (Dict.get? tree path).map fun item => decide (item = .folder)

/-- The configuration can be prepared in a copy of the template: what is read or written as a file
    is no folder, and what is made as a folder no file. -/
structure Configurable (template : Tree) : Prop where
  conf : kind template ["cefnetd.conf"] ≠ some true
  env : kind template [".cefore_env"] ≠ some false
  cefore : kind template [".cefore_env", "cefore"] ≠ some false
  mirror : kind template ["cefnetd.conf"] ≠ none →
    kind template [".cefore_env", "cefore", "cefnetd.conf"] = some true →
    kind template [".cefore_env", "cefore", "cefnetd.conf", "cefnetd.conf"] ≠ some true

theorem kind_set (tree : Tree) (path path' : RelPath) (item : Item) :
    kind (Dict.set tree path item) path' =
      if path' = path then some (decide (item = .folder)) else kind tree path' := by
  rw [kind, Dict.get?_set]
  split
  · rfl
  · rfl

theorem kind_file {tree : Tree} {path : RelPath} {text : Text}
    (h : Dict.get? tree path = some (.file text)) : kind tree path = some false := by
  rw [kind, h]
  rfl

/-- Writing a file over a file changes no kind. -/
theorem kind_rewrite {tree : Tree} {path : RelPath} {text : Text} (text' : Text)
    (h : Dict.get? tree path = some (.file text)) :
    kind (Dict.set tree path (.file text')) = kind tree := by
  funext path'
  rw [kind_set]
  split
  · rename_i heq
    rw [heq, kind_file h]
    rfl
  · rfl

theorem kind_updateLocalSockId (idx : ℕ) (tree : Tree) :
    kind (tree.updateLocalSockId idx) = kind tree := by
  have hone : ∀ (tree : Tree) (conf : String), kind (tree.updateSockId idx conf) = kind tree := by
    intro tree conf
    rw [Tree.updateSockId]
    split
    · rename_i text h
      exact kind_rewrite _ h
    · rfl
  simp only [Tree.updateLocalSockId, List.foldl_cons, List.foldl_nil, hone]

/-- The stamp is none of the paths the configuration is about. -/
theorem kind_stamp (tree : Tree) {path : RelPath} (h : path ≠ [stampFilename]) :
    kind tree.stamp path = kind tree path := by
  rw [Tree.stamp]
  split
  · rfl
  · rw [kind_set, if_neg h]

theorem setNodeName_spec (idx : ℕ) (tree : Tree) :
    (kind tree ["cefnetd.conf"] = some true ∧ tree.setNodeName idx = none) ∨
      (kind tree ["cefnetd.conf"] ≠ some true ∧
        ∃ tree', tree.setNodeName idx = some tree' ∧ kind tree' = kind tree) := by
  unfold Tree.setNodeName
  split
  · rename_i h
    exact .inr ⟨by simp [kind, h], tree, rfl, rfl⟩
  · rename_i h
    exact .inl ⟨by simp [kind, h], rfl⟩
  · rename_i text h
    exact .inr ⟨by simp [kind_file h], _, rfl, kind_rewrite _ h⟩

theorem mkdir_spec (tree : Tree) (path : RelPath) :
    (kind tree path = some false ∧ tree.mkdir path = none) ∨
      (kind tree path ≠ some false ∧ ∃ tree', tree.mkdir path = some tree' ∧
        ∀ path', path' ≠ path → kind tree' path' = kind tree path') := by
  unfold Tree.mkdir
  split
  · rename_i h
    exact .inr ⟨by simp [kind, h], _, rfl, fun path' hne => by rw [kind_set, if_neg hne]⟩
  · rename_i h
    exact .inr ⟨by simp [kind, h], tree, rfl, fun _ _ => rfl⟩
  · rename_i text h
    exact .inl ⟨kind_file h, rfl⟩

theorem mkdirCeforeEnv_spec (tree : Tree) :
    ((kind tree [".cefore_env"] = some false ∨ kind tree [".cefore_env", "cefore"] = some false) ∧
        tree.mkdirCeforeEnv = none) ∨
      (kind tree [".cefore_env"] ≠ some false ∧ kind tree [".cefore_env", "cefore"] ≠ some false ∧
        ∃ tree', tree.mkdirCeforeEnv = some tree' ∧ ∀ path, path ≠ [".cefore_env"] →
          path ≠ [".cefore_env", "cefore"] → kind tree' path = kind tree path) := by
  unfold Tree.mkdirCeforeEnv
  rcases mkdir_spec tree [".cefore_env"] with ⟨hkind, hnone⟩ | ⟨hkind, t, ht, hsame⟩
  · rw [hnone]
    exact .inl ⟨.inl hkind, rfl⟩
  · rw [ht, Option.bind_some]
    have hcefore := hsame [".cefore_env", "cefore"] (by decide)
    rcases mkdir_spec t [".cefore_env", "cefore"] with ⟨hkind', hnone⟩ | ⟨hkind', t', ht', hsame'⟩
    · exact .inl ⟨.inr (hcefore ▸ hkind'), hnone⟩
    · refine .inr ⟨hkind, hcefore ▸ hkind', t', ht', fun path hne hne' => ?_⟩
      rw [hsame' path hne', hsame path hne]

theorem mirrorConf_isSome (tree : Tree) (hconf : kind tree ["cefnetd.conf"] ≠ some true) :
    tree.mirrorConf.isSome ↔ (kind tree ["cefnetd.conf"] ≠ none →
      kind tree [".cefore_env", "cefore", "cefnetd.conf"] = some true →
      kind tree [".cefore_env", "cefore", "cefnetd.conf", "cefnetd.conf"] ≠ some true) := by
  unfold Tree.mirrorConf
  split
  · rename_i h
    simp [kind, h]
  · rename_i h
    exact absurd (by simp [kind, h]) hconf
  · rename_i text h
    have hsome : kind tree ["cefnetd.conf"] ≠ none := by simp [kind_file h]
    unfold Tree.copy2
    split
    · rename_i hfolder
      have hkind : kind tree [".cefore_env", "cefore", "cefnetd.conf"] = some true := by
        simp [kind, hfolder]
      split
      · rename_i hin
        have hin : kind tree [".cefore_env", "cefore", "cefnetd.conf", "cefnetd.conf"] =
            some true := by
          simp only [kind]
          rw [show [".cefore_env", "cefore", "cefnetd.conf", "cefnetd.conf"]
            = [".cefore_env", "cefore", "cefnetd.conf"] ++ ["cefnetd.conf"] from rfl, hin]
          rfl
        simp [hin, hsome, hkind]
      · rename_i hin
        refine iff_of_true rfl fun _ _ hfold => hin ?_
        simp only [kind, Option.map_eq_some_iff, decide_eq_true_eq] at hfold
        obtain ⟨item, hitem, rfl⟩ := hfold
        exact hitem
    · rename_i hfolder
      refine iff_of_true rfl fun _ hfold => absurd ?_ hfolder
      simp only [kind, Option.map_eq_some_iff, decide_eq_true_eq] at hfold
      obtain ⟨item, hitem, rfl⟩ := hfold
      exact hitem

theorem configure_ok {failed : Option Tree} {work : Tree → Option Tree} {tree tree' : Tree} :
    configure failed work tree = .ok tree' ↔ failed = none ∧ work tree = some tree' := by
  unfold configure
  cases failed with
  | some left => simp
  | none =>
    cases work tree with
    | none => simp
    | some t => simp

/-- The preparation succeeds if no operation of it fails, and the tree admits them all. -/
theorem finish_ok {fault : Option FailedOp} {idx : ℕ} {tree tree' : Tree} :
    finish fault idx tree = .ok tree' ↔
      (∀ left, fault ≠ some (.updateLocalSockId left) ∧ fault ≠ some (.setNodeName left) ∧
        fault ≠ some (.mkdirCeforeEnv left) ∧ fault ≠ some (.mirrorConf left)) ∧
      ∃ t t', (tree.updateLocalSockId idx).setNodeName idx = some t ∧ t.mkdirCeforeEnv = some t' ∧
        t'.mirrorConf = some tree' := by
  unfold finish
  simp only [bind_eq_ok, configure_ok]
  cases fault with
  | none => simp
  | some op => cases op <;> simp

/-- Whether the preparation succeeds can be seen from the template. -/
theorem finish_none_iff (idx : ℕ) (tree : Tree) :
    (∃ tree', finish none idx tree.stamp = .ok tree') ↔ Configurable tree := by
  have hkinds : ∀ path, path ≠ [stampFilename] →
      kind (tree.stamp.updateLocalSockId idx) path = kind tree path := by
    intro path hne
    rw [kind_updateLocalSockId, kind_stamp tree hne]
  simp only [finish_ok]
  rcases setNodeName_spec idx (tree.stamp.updateLocalSockId idx) with
    ⟨hconf, hname⟩ | ⟨hconf, t, hname, ht⟩
  · rw [hkinds _ (by decide)] at hconf
    exact iff_of_false (by simp [hname]) fun hc => hc.conf hconf
  rw [hkinds _ (by decide)] at hconf
  have hkind : ∀ path, path ≠ [stampFilename] → kind t path = kind tree path := by
    intro path hne
    rw [ht, hkinds path hne]
  rcases mkdirCeforeEnv_spec t with ⟨henv, hmkdir⟩ | ⟨henv, hcefore, t', hmkdir, ht'⟩
  · rw [hkind _ (by decide), hkind _ (by decide)] at henv
    exact iff_of_false (by simp [hname, hmkdir]) fun hc => henv.elim hc.env hc.cefore
  rw [hkind _ (by decide)] at henv hcefore
  have hkind' : ∀ path, path ≠ [stampFilename] → path ≠ [".cefore_env"] →
      path ≠ [".cefore_env", "cefore"] → kind t' path = kind tree path := by
    intro path hne henv hcefore
    rw [ht' path henv hcefore, hkind path hne]
  have hconf' : kind t' ["cefnetd.conf"] ≠ some true := by
    rw [hkind' _ (by decide) (by decide) (by decide)]
    exact hconf
  have hmirror := mirrorConf_isSome t' hconf'
  rw [hkind' ["cefnetd.conf"] (by decide) (by decide) (by decide),
    hkind' [".cefore_env", "cefore", "cefnetd.conf"] (by decide) (by decide) (by decide),
    hkind' [".cefore_env", "cefore", "cefnetd.conf", "cefnetd.conf"] (by decide) (by decide)
      (by decide), Option.isSome_iff_exists] at hmirror
  constructor
  · rintro ⟨tree', -, u, u', hu, hu', hend⟩
    obtain rfl : t = u := Option.some.inj (hname.symm.trans hu)
    obtain rfl : t' = u' := Option.some.inj (hmkdir.symm.trans hu')
    exact ⟨hconf, henv, hcefore, hmirror.mp ⟨tree', hend⟩⟩
  · intro hc
    obtain ⟨tree', hend⟩ := hmirror.mpr hc.mirror
    exact ⟨tree', by simp, t, t', hname, hmkdir, hend⟩

/-! ## One turn of the loop -/

section Turns

variable {templates : Templates} {role : NodeRole} {fault : Option FailedOp} {idx : ℕ}
  {s : Provisioning}

/-- The state with something else at a host. -/
def replaced (s : Provisioning) (idx : ℕ) (entry : Option Entry) : Provisioning :=
  { s with entries := s.entries.put idx entry }

/-- The state with a directory made at a host and registered. -/
def registered (s : Provisioning) (idx : ℕ) (tree : Tree) : Provisioning :=
  { s.make idx tree with generated := s.generated ++ [idx] }

/-- A turn gets to the copying, if nothing fails before. -/
def Copied (templates : Templates) (role : NodeRole) (entry : Option Entry) : Prop :=
  (∃ tree, templates role.template = some (.dir tree)) ∧ Clear entry

/-- A turn gets through, if nothing fails. -/
def Passes (templates : Templates) (role : NodeRole) (entry : Option Entry) : Prop :=
  (∃ tree, templates role.template = some (.dir tree) ∧ Configurable tree) ∧ Clear entry

theorem Passes.copied {entry : Option Entry} (h : Passes templates role entry) :
    Copied templates role entry := by
  obtain ⟨⟨tree, htree, -⟩, hclear⟩ := h
  exact ⟨⟨tree, htree⟩, hclear⟩

/-- The fault makes the copying leave a directory that is not registered. -/
def Leaks : FailedOp → Bool
  | .copytree (some _) | .touch _ => true
  | _ => false

/-- How a turn of the loop ends. -/
inductive Turn (templates : Templates) (role : NodeRole) (fault : Option FailedOp) (idx : ℕ)
    (s : Provisioning) : Except Raised Unit × Provisioning → Prop
  /-- Nothing is made, and nothing is left of an old directory if it was not left as it was. -/
  | stopped (err : Raised) (entry : Option Entry)
      (hentry : entry = s.entries idx ∨ (entry = none ∧ Clear (s.entries idx)))
      (herr : ∀ i, err = .unmanaged i → i = idx ∧ Unmanaged (s.entries idx)) :
      Turn templates role fault idx s (.error err, replaced s idx entry)
  /-- The old directory is removed in part. -/
  | cut (kept : RelPath → Bool) (old : Tree) (hfault : fault = some (.rmtree kept))
      (htemplate : (templates role.template).isSome) (hold : s.entries idx = some (.dir old))
      (hstamp : old.hasStamp = true) :
      Turn templates role fault idx s
        (.error .fileError, replaced s idx (some (.dir (old.keep kept))))
  | leaked (op : FailedOp) (tree : Tree) (hfault : fault = some op) (hleaks : Leaks op = true)
      (hcopied : Copied templates role (s.entries idx)) :
      Turn templates role fault idx s (.error .fileError, s.make idx tree)
  | failed (tree : Tree) (hcopied : Copied templates role (s.entries idx)) :
      Turn templates role fault idx s (.error .fileError, registered s idx tree)
  | done (tree : Tree) (hpasses : Passes templates role (s.entries idx)) :
      Turn templates role fault idx s (.ok (), registered s idx tree)

theorem replaced_self (s : Provisioning) (idx : ℕ) : replaced s idx (s.entries idx) = s := by
  rw [replaced, put_self]

theorem make_replaced (s : Provisioning) (idx : ℕ) (entry : Option Entry) (tree : Tree) :
    (replaced s idx entry).make idx tree = s.make idx tree := by
  rw [replaced, Provisioning.make, put_put, Provisioning.make]

theorem registered_replaced (s : Provisioning) (idx : ℕ) (entry : Option Entry) (tree : Tree) :
    registered (replaced s idx entry) idx tree = registered s idx tree := by
  rw [registered, make_replaced, registered]
  rfl

/-- The turn of a host that is stopped where it is. -/
theorem Turn.unchanged {err : Raised}
    (herr : ∀ i, err = .unmanaged i → i = idx ∧ Unmanaged (s.entries idx)) :
    Turn templates role fault idx s (.error err, s) := by
  have h : Turn templates role fault idx s (.error err, replaced s idx (s.entries idx)) :=
    .stopped err (s.entries idx) (.inl rfl) herr
  rwa [replaced_self] at h

/-- The operations before the copy. -/
def Early : FailedOp → Bool
  | .templateExists | .isDir | .stampExists | .rmtree _ => true
  | _ => false

/-- What the guard does. -/
theorem clearNodeDir_cases (fault : Option FailedOp) (idx : ℕ) (s : Provisioning) :
    (∃ err, clearNodeDir fault idx s = (.error err, s) ∧
        (∀ i, err = .unmanaged i → i = idx ∧ Unmanaged (s.entries idx)) ∧
        ((∃ op, fault = some op ∧ Early op = true) ∨ Unmanaged (s.entries idx))) ∨
      (∃ kept old, fault = some (.rmtree kept) ∧ s.entries idx = some (.dir old) ∧
        old.hasStamp = true ∧ clearNodeDir fault idx s =
          (.error .fileError, replaced s idx (some (.dir (old.keep kept))))) ∨
      (Clear (s.entries idx) ∧ clearNodeDir fault idx s = (.ok (), replaced s idx none)) ∨
      (s.entries idx = some .file ∧ clearNodeDir fault idx s = (.ok (), s)) := by
  unfold clearNodeDir
  split
  · exact .inl ⟨.fileError, rfl, by simp, .inl ⟨_, rfl, rfl⟩⟩
  · exact .inl ⟨.fileError, rfl, by simp, .inl ⟨_, rfl, rfl⟩⟩
  · rename_i tree _ _ hdir
    split
    · rename_i hstamp
      unfold removeOld
      split
      · exact .inr (.inl ⟨_, tree, rfl, hdir, hstamp, rfl⟩)
      · exact .inr (.inr (.inl ⟨.inr ⟨tree, hdir, hstamp⟩, rfl⟩))
    · rename_i hstamp
      have hunmanaged : Unmanaged (s.entries idx) := ⟨tree, hdir, by simpa using hstamp⟩
      refine .inl ⟨.unmanaged idx, rfl, fun i hi => ?_, .inr hunmanaged⟩
      cases hi
      exact ⟨rfl, hunmanaged⟩
  · rename_i hdir _
    cases hentry : s.entries idx with
    | none =>
      have hsame := replaced_self s idx
      rw [hentry] at hsame
      exact .inr (.inr (.inl ⟨.inl rfl, by rw [hsame]⟩))
    | some entry =>
      cases entry with
      | file => exact .inr (.inr (.inr ⟨rfl, rfl⟩))
      | dir tree => exact absurd hentry (hdir tree)

/-- What a turn does once nothing stands in the way of the copy. -/
def copyAndFinish (fault : Option FailedOp) (template : Entry) (idx : ℕ) :
    Op Provisioning Raised Unit := do
  copytree fault template idx
  workIn idx (touchStamp fault)
  register idx
  workIn idx (finish fault idx)

theorem workIn_made {work : Tree → Except Tree Tree} (s : Provisioning) (idx : ℕ) (tree : Tree) :
    workIn idx work (s.make idx tree) =
      match work tree with
      | .ok tree => (.ok (), s.make idx tree)
      | .error left => (.error .fileError, s.make idx left) := by
  unfold workIn
  cases hwork : work tree with
  | ok tree' => simp only [Provisioning.make, put_same, put_put, hwork]
  | error left => simp only [Provisioning.make, put_same, put_put, hwork]

theorem workIn_registered {work : Tree → Except Tree Tree} (s : Provisioning) (idx : ℕ)
    (tree : Tree) :
    workIn idx work (registered s idx tree) =
      match work tree with
      | .ok tree => (.ok (), registered s idx tree)
      | .error left => (.error .fileError, registered s idx left) := by
  unfold workIn
  cases hwork : work tree with
  | ok tree' => simp only [registered, Provisioning.make, put_same, put_put, hwork]
  | error left => simp only [registered, Provisioning.make, put_same, put_put, hwork]

/-- `copytree` fails in the middle, or it makes the whole copy. -/
theorem copytree_whole {tree : Tree} (hnone : s.entries idx = none)
    (hcopy : ∀ copied, fault ≠ some (.copytree copied)) :
    copytree fault (.dir tree) idx s = (.ok (), s.make idx tree) := by
  unfold copytree
  simp only [hnone]
  split
  · exact absurd rfl (hcopy _)
  · exact absurd rfl (hcopy _)
  · rfl

/-- Once the copy is stamped it is registered, and then prepared. -/
theorem copyAndFinish_stamped {tree : Tree} (hnone : s.entries idx = none)
    (hcopy : ∀ copied, fault ≠ some (.copytree copied))
    (htouch : ∀ written, fault ≠ some (.touch written)) :
    copyAndFinish fault (.dir tree) idx s =
      match finish fault idx tree.stamp with
      | .ok tree => (.ok (), registered s idx tree)
      | .error left => (.error .fileError, registered s idx left) := by
  have htouched : workIn idx (touchStamp fault) (s.make idx tree) =
      (.ok (), s.make idx tree.stamp) := by
    rw [workIn_made]
    unfold touchStamp
    split
    · rename_i h
      split at h
      · exact absurd rfl (htouch _)
      · cases h
        rfl
    · rename_i h
      split at h
      · exact absurd rfl (htouch _)
      · cases h
  unfold copyAndFinish
  rw [Op.bind_of_ok (copytree_whole hnone hcopy), Op.bind_of_ok htouched]
  exact workIn_registered s idx tree.stamp

/-- A copy that fails part-way, or cannot be stamped, is left as it is. -/
theorem copyAndFinish_leaks {op : FailedOp} (tree : Tree) (hnone : s.entries idx = none)
    (hleaks : Leaks op = true) :
    ∃ left, copyAndFinish (some op) (.dir tree) idx s = (.error .fileError, s.make idx left) := by
  unfold Leaks at hleaks
  unfold copyAndFinish
  split at hleaks
  · rename_i copied
    refine ⟨tree.copyPart copied, Op.bind_of_error ?_⟩
    simp only [copytree, hnone]
  · rename_i written
    refine ⟨if written then tree.stamp else tree, ?_⟩
    rw [Op.bind_of_ok (copytree_whole hnone (by simp))]
    exact Op.bind_of_error (workIn_made s idx tree)
  · cases hleaks

/-- The copy and what follows it make a turn of the kind the fault says. -/
theorem copyAndFinish_ends (template : Entry)
    (htemplate : templates role.template = some template)
    (hclear : Clear (s.entries idx)) :
    Turn templates role fault idx s (copyAndFinish fault template idx (replaced s idx none)) := by
  have hnone : (replaced s idx none).entries idx = none := put_same _ _ _
  cases template with
  | file =>
    have hstop : copyAndFinish fault .file idx (replaced s idx none) =
        (.error .fileError, replaced s idx none) := Op.bind_of_error rfl
    rw [hstop]
    exact .stopped _ _ (.inr ⟨rfl, hclear⟩) (by simp)
  | dir tree =>
    have hcopied : Copied templates role (s.entries idx) := ⟨⟨tree, htemplate⟩, hclear⟩
    by_cases hleaks : ∃ op, fault = some op ∧ Leaks op = true
    · obtain ⟨op, rfl, hleaks⟩ := hleaks
      obtain ⟨left, hleft⟩ := copyAndFinish_leaks tree hnone hleaks
      rw [hleft, make_replaced]
      exact .leaked op left rfl hleaks hcopied
    by_cases hcopy : fault = some (.copytree none)
    · subst hcopy
      have hstop : copyAndFinish (some (.copytree none)) (.dir tree) idx (replaced s idx none) =
          (.error .fileError, replaced s idx none) := by
        refine Op.bind_of_error ?_
        simp only [copytree, hnone]
      rw [hstop]
      exact .stopped _ _ (.inr ⟨rfl, hclear⟩) (by simp)
    have hcopy' : ∀ copied, fault ≠ some (.copytree copied) := by
      intro copied heq
      cases copied with
      | none => exact hcopy heq
      | some copied => exact hleaks ⟨_, heq, rfl⟩
    rw [copyAndFinish_stamped hnone hcopy' fun written heq => hleaks ⟨_, heq, rfl⟩]
    cases hfinish : finish fault idx tree.stamp with
    | error left =>
      simp only [registered_replaced]
      exact .failed left hcopied
    | ok tree' =>
      simp only [registered_replaced]
      have hconf : Configurable tree := by
        rw [← finish_none_iff idx]
        obtain ⟨-, hsteps⟩ := finish_ok.mp hfinish
        exact ⟨tree', finish_ok.mpr ⟨by simp, hsteps⟩⟩
      exact .done tree' ⟨⟨tree, htemplate, hconf⟩, hclear⟩

theorem provisionHost_eq (templates : Templates) (role : NodeRole) (fault : Option FailedOp)
    (idx : ℕ) :
    provisionHost templates fault role idx =
      (findTemplate templates fault role.template >>= fun template =>
        clearNodeDir fault idx >>= fun _ => copyAndFinish fault template idx) := rfl

theorem findTemplate_found {template : String} {entry : Entry} (h : templates template = some entry)
    (hfault : fault ≠ some .templateExists) (s : Provisioning) :
    findTemplate templates fault template s = (.ok entry, s) := by
  unfold findTemplate
  split
  · exact absurd rfl hfault
  · rename_i hnone
    simp [h] at hnone
  · rename_i hsome
    rw [h] at hsome
    cases hsome
    rfl

/-- **A turn of the loop** ends in one of these ways. -/
theorem provisionHost_ends (templates : Templates) (role : NodeRole) (fault : Option FailedOp)
    (idx : ℕ) (s : Provisioning) :
    Turn templates role fault idx s (provisionHost templates fault role idx s) := by
  rw [provisionHost_eq]
  by_cases hfault : fault = some .templateExists
  · have hraise : findTemplate templates fault role.template s = (.error .fileError, s) := by
      rw [hfault]
      rfl
    rw [Op.bind_of_error hraise]
    exact .unchanged (by simp)
  cases htemplate : templates role.template with
  | none =>
    have hmissing : findTemplate templates fault role.template s =
        (.error (.missingTemplate role.template), s) := by
      unfold findTemplate
      split
      · exact absurd rfl hfault
      · rfl
      · rename_i hsome
        simp [htemplate] at hsome
    rw [Op.bind_of_error hmissing]
    exact .unchanged (by simp)
  | some template =>
    rw [Op.bind_of_ok (findTemplate_found htemplate hfault s)]
    rcases clearNodeDir_cases fault idx s with ⟨err, hguard, herr, -⟩ |
      ⟨kept, old, hfault, hold, hstamp, hguard⟩ | ⟨hclear, hguard⟩ | ⟨hfile, hguard⟩
    · rw [Op.bind_of_error hguard]
      exact .unchanged herr
    · rw [Op.bind_of_error hguard]
      exact .cut kept old hfault (by simp [htemplate]) hold hstamp
    · rw [Op.bind_of_ok hguard]
      exact copyAndFinish_ends template htemplate hclear
    · -- a file is no directory: the guard lets it be, and the copy is refused
      have hrefused : copytree fault template idx s = (.error .fileError, s) := by
        unfold copytree
        simp [hfile]
      rw [Op.bind_of_ok hguard, copyAndFinish, Op.bind_of_error hrefused]
      exact .unchanged (by simp)

/-- The copy is got to. -/
theorem provisionHost_copies {tree : Tree} (htemplate : templates role.template = some (.dir tree))
    (hclear : Clear (s.entries idx)) (hfault : ∀ op, fault = some op → Early op = false) :
    provisionHost templates fault role idx s =
      copyAndFinish fault (.dir tree) idx (replaced s idx none) := by
  have hguard : clearNodeDir fault idx s = (.ok (), replaced s idx none) := by
    rcases clearNodeDir_cases fault idx s with ⟨err, -, -, hearly | hunmanaged⟩ |
      ⟨kept, old, hrmtree, -⟩ | ⟨-, hguard⟩ | ⟨hfile, -⟩
    · obtain ⟨op, hop, hearly⟩ := hearly
      rw [hfault op hop] at hearly
      cases hearly
    · exact absurd hunmanaged hclear.not_unmanaged
    · cases hfault _ hrmtree
    · exact hguard
    · rw [hfile] at hclear
      simp [Clear] at hclear
  rw [provisionHost_eq, Op.bind_of_ok (findTemplate_found htemplate ?_ s), Op.bind_of_ok hguard]
  intro h
  cases hfault _ h

/-- A turn that gets through has registered its copy. -/
theorem provisionHost_ok {u : Provisioning}
    (h : provisionHost templates fault role idx s = (.ok (), u)) :
    Passes templates role (s.entries idx) ∧ ∃ tree, u = registered s idx tree := by
  have hend := provisionHost_ends templates role fault idx s
  rw [h] at hend
  cases hend with
  | done tree hpasses => exact ⟨hpasses, tree, rfl⟩

/-- The fault, if there is one, is not in the loop. -/
def Quiet (fault : Option FailedOp) : Prop := fault = none ∨ ∃ kept, fault = some (.rollback kept)

theorem provisionHost_leaks {op : FailedOp} (hcopied : Copied templates role (s.entries idx))
    (hleaks : Leaks op = true) :
    ∃ tree,
      provisionHost templates (some op) role idx s = (.error .fileError, s.make idx tree) := by
  obtain ⟨⟨tree, htemplate⟩, hclear⟩ := hcopied
  have hlate : ∀ op', some op = some op' → Early op' = false := by
    intro op' heq
    cases heq
    unfold Leaks at hleaks
    split at hleaks
    · rfl
    · rfl
    · cases hleaks
  rw [provisionHost_copies htemplate hclear hlate]
  have hnone : (replaced s idx none).entries idx = none := put_same _ _ _
  obtain ⟨left, hleft⟩ := copyAndFinish_leaks tree hnone hleaks
  exact ⟨left, by rw [hleft, make_replaced]⟩

theorem provisionHost_cut {kept : RelPath → Bool} {old : Tree}
    (htemplate : (templates role.template).isSome) (hold : s.entries idx = some (.dir old))
    (hstamp : old.hasStamp = true) :
    provisionHost templates (some (.rmtree kept)) role idx s =
      (.error .fileError, replaced s idx (some (.dir (old.keep kept)))) := by
  obtain ⟨template, htemplate⟩ := Option.isSome_iff_exists.mp htemplate
  have hguard : clearNodeDir (some (.rmtree kept)) idx s =
      (.error .fileError, replaced s idx (some (.dir (old.keep kept)))) := by
    simp only [clearNodeDir, hold, hstamp, if_true, removeOld, replaced]
  rw [provisionHost_eq, Op.bind_of_ok (findTemplate_found htemplate (by simp) s),
    Op.bind_of_error hguard]

/-- Without a fault in the loop, a copy is always registered. -/
theorem provisionHost_registers (hquiet : Quiet fault) {tree : Tree}
    (htemplate : templates role.template = some (.dir tree)) (hclear : Clear (s.entries idx)) :
    (∃ left, provisionHost templates fault role idx s = (.error .fileError, registered s idx left) ∧
        ¬ Configurable tree) ∨
      (∃ tree', provisionHost templates fault role idx s = (.ok (), registered s idx tree')) := by
  have hlate : ∀ op, fault = some op → Early op = false := by
    rcases hquiet with rfl | ⟨kept, rfl⟩
    · simp
    · rintro op ⟨⟩
      rfl
  have hcopy : ∀ copied, fault ≠ some (.copytree copied) := by
    rcases hquiet with rfl | ⟨kept, rfl⟩ <;> simp
  have htouch : ∀ written, fault ≠ some (.touch written) := by
    rcases hquiet with rfl | ⟨kept, rfl⟩ <;> simp
  rw [provisionHost_copies htemplate hclear hlate,
    copyAndFinish_stamped (put_same _ _ _) hcopy htouch]
  cases hfinish : finish fault idx tree.stamp with
  | error left =>
    refine .inl ⟨left, by simp only [registered_replaced], fun hconf => ?_⟩
    obtain ⟨tree', hok⟩ := (finish_none_iff idx tree).mpr hconf
    obtain ⟨-, hsteps⟩ := finish_ok.mp hok
    have hok' : finish fault idx tree.stamp = .ok tree' := by
      refine finish_ok.mpr ⟨?_, hsteps⟩
      rcases hquiet with rfl | ⟨kept, rfl⟩ <;> simp
    rw [hfinish] at hok'
    cases hok'
  | ok tree' => exact .inr ⟨tree', by simp only [registered_replaced]⟩

end Turns

/-! ## The loop and the rollback -/

section Runs

variable {templates : Templates} {roles : Roles} {fault : Option FileFault}

/-- What a run of turns that all get through has done. -/
structure Went (templates : Templates) (roles : Roles) (fault : Option FileFault)
    (hosts : List ℕ) (s u : Provisioning) : Prop where
  made : u.made = s.made ++ hosts
  generated : u.generated = s.generated ++ hosts
  others : ∀ i, i ∉ hosts → u.entries i = s.entries i
  dirs : ∀ i ∈ hosts, ∃ tree, u.entries i = some (.dir tree)
  turns : ∀ i ∈ hosts, ∃ role s' u', roles.dict.get? i = some role ∧ s'.entries i = s.entries i ∧
    provisionHost templates (failsAt fault i) role i s' = (.ok (), u')

theorem Went.passes {hosts : List ℕ} {s u : Provisioning}
    (h : Went templates roles fault hosts s u) {i : ℕ} (hi : i ∈ hosts) {role : NodeRole}
    (hrole : roles.dict.get? i = some role) : Passes templates role (s.entries i) := by
  obtain ⟨role', s', u', hrole', hsame, hturn⟩ := h.turns i hi
  obtain rfl : role' = role := Option.some.inj (hrole'.symm.trans hrole)
  exact hsame ▸ (provisionHost_ok hturn).1

/-- The body of the loop. -/
def turn (templates : Templates) (roles : Roles) (fault : Option FileFault) (idx : ℕ) :
    Op Provisioning Raised Unit :=
  Op.whenSome (roles.dict.get? idx) fun role =>
    provisionHost templates (failsAt fault idx) role idx

theorem registered_frame {s : Provisioning} {i idx : ℕ} {tree : Tree} (h : i ≠ idx) :
    (registered s idx tree).entries i = s.entries i := put_other _ _ h

theorem forEach_went {hosts : List ℕ} (hnodup : hosts.Nodup)
    (hroles : ∀ i ∈ hosts, ∃ role, roles.dict.get? i = some role) {s u : Provisioning}
    (h : Op.forEach hosts (turn templates roles fault) s = (.ok (), u)) :
    Went templates roles fault hosts s u := by
  induction hosts generalizing s with
  | nil =>
    obtain rfl : s = u := congrArg Prod.snd h
    exact ⟨(List.append_nil _).symm, (List.append_nil _).symm, fun _ _ => rfl, by simp, by simp⟩
  | cons idx hosts ih =>
    obtain ⟨hnot, hnodup⟩ := List.nodup_cons.mp hnodup
    obtain ⟨role, hrole⟩ := hroles idx List.mem_cons_self
    have hturn : turn templates roles fault idx s =
        provisionHost templates (failsAt fault idx) role idx s := by
      rw [turn, hrole]
      rfl
    simp only [Op.forEach, Op.bind, hturn] at h
    split at h
    · rename_i v hv
      obtain ⟨-, tree, rfl⟩ := provisionHost_ok hv
      have hrest := ih hnodup (fun i hi => hroles i (List.mem_cons_of_mem _ hi)) h
      have hkept : ∀ i ∈ hosts, (registered s idx tree).entries i = s.entries i := by
        intro i hi
        exact registered_frame fun heq => hnot (heq ▸ hi)
      refine ⟨?_, ?_, ?_, ?_, ?_⟩
      · rw [hrest.made]
        exact List.append_assoc _ _ _
      · rw [hrest.generated]
        exact List.append_assoc _ _ _
      · intro i hi
        obtain ⟨hne, hi⟩ := not_or.mp (mt List.mem_cons.mpr hi)
        rw [hrest.others i hi, registered_frame hne]
      · intro i hi
        rcases List.mem_cons.mp hi with rfl | hi
        · exact ⟨tree, by rw [hrest.others i hnot]; exact put_same _ _ _⟩
        · exact hrest.dirs i hi
      · intro i hi
        rcases List.mem_cons.mp hi with rfl | hi
        · exact ⟨role, s, _, hrole, rfl, hv⟩
        · rw [← hkept i hi]
          exact hrest.turns i hi
    · cases h

/-! ### The rollback -/

@[simp] theorem undo_made (s : Provisioning) (idx : ℕ) : (undo fault s idx).made = s.made := by
  unfold undo
  split <;> rfl

theorem undo_frame (s : Provisioning) {i idx : ℕ} (h : i ≠ idx) :
    (undo fault s idx).entries i = s.entries i := by
  unfold undo
  split
  · exact put_other _ _ h
  · exact put_other _ _ h

theorem undo_none {s : Provisioning} {i : ℕ} (idx : ℕ) (h : s.entries i = none) :
    (undo fault s idx).entries i = none := by
  by_cases hi : i = idx
  · subst hi
    unfold undo
    split
    · rename_i hdir
      rw [h] at hdir
      cases hdir
    · exact put_same _ _ _
  · rw [undo_frame s hi, h]

theorem undo_self {s : Provisioning} {idx : ℕ}
    (h : ∀ kept, failsAt fault idx ≠ some (.rollback kept)) :
    (undo fault s idx).entries idx = none := by
  unfold undo
  split
  · rename_i hfault _
    exact absurd hfault (h _)
  · exact put_same _ _ _

/-- What the rollback cannot remove. -/
theorem undo_left {s : Provisioning} {i : ℕ} {kept : RelPath → Bool} (idx : ℕ)
    (hfault : failsAt fault i = some (.rollback kept))
    (h : ∃ tree, s.entries i = some (.dir tree)) :
    ∃ tree, (undo fault s idx).entries i = some (.dir tree) := by
  obtain ⟨tree, h⟩ := h
  by_cases hi : i = idx
  · subst hi
    refine ⟨tree.keep kept, ?_⟩
    simp only [undo, hfault, h, put_same]
  · exact ⟨tree, by rw [undo_frame s hi, h]⟩

theorem rollback_made (hosts : List ℕ) (s : Provisioning) :
    (hosts.foldl (undo fault) s).made = s.made := by
  induction hosts generalizing s with
  | nil => rfl
  | cons idx hosts ih => rw [List.foldl_cons, ih, undo_made]

theorem rollback_frame {hosts : List ℕ} {i : ℕ} (h : i ∉ hosts) (s : Provisioning) :
    (hosts.foldl (undo fault) s).entries i = s.entries i := by
  induction hosts generalizing s with
  | nil => rfl
  | cons idx hosts ih =>
    obtain ⟨hne, h⟩ := not_or.mp (mt List.mem_cons.mpr h)
    rw [List.foldl_cons, ih h, undo_frame s hne]

/-- What a turn left at a host that is not registered is out of the rollback's reach. -/
theorem rollback_replaced (fault : Option FileFault) {s : Provisioning} {idx : ℕ}
    (entry : Option Entry) (h : idx ∉ s.generated) :
    ((replaced s idx entry).generated.foldl (undo fault) (replaced s idx entry)).entries idx =
      entry := by
  have hout : idx ∉ (replaced s idx entry).generated := h
  rw [rollback_frame hout]
  exact put_same _ _ _

theorem rollback_none {i : ℕ} (hosts : List ℕ) {s : Provisioning} (h : s.entries i = none) :
    (hosts.foldl (undo fault) s).entries i = none := by
  induction hosts generalizing s with
  | nil => exact h
  | cons idx hosts ih => exact ih (undo_none idx h)

/-- What is registered is removed. -/
theorem rollback_removes {hosts : List ℕ} {i : ℕ} (hi : i ∈ hosts)
    (h : ∀ kept, failsAt fault i ≠ some (.rollback kept)) (s : Provisioning) :
    (hosts.foldl (undo fault) s).entries i = none := by
  induction hosts generalizing s with
  | nil => cases hi
  | cons idx hosts ih =>
    rcases List.mem_cons.mp hi with rfl | hi
    · exact rollback_none hosts (undo_self h)
    · exact ih hi (undo fault s idx)

/-- Unless removing it is what fails. -/
theorem rollback_left {i : ℕ} {kept : RelPath → Bool} (hosts : List ℕ)
    (hfault : failsAt fault i = some (.rollback kept)) {s : Provisioning}
    (h : ∃ tree, s.entries i = some (.dir tree)) :
    ∃ tree, (hosts.foldl (undo fault) s).entries i = some (.dir tree) := by
  induction hosts generalizing s with
  | nil => exact h
  | cons idx hosts ih => exact ih (undo_left idx hfault h)

/-! ### The hosts in order -/

theorem mem_hosts {roles : Roles} {i : ℕ} :
    i ∈ sorted (roles.dict.map (·.1)) ↔ ∃ role, roles.dict.get? i = some role := by
  rw [mem_sorted, List.mem_map, ← Option.isSome_iff_exists, Option.isSome_iff_ne_none, ne_eq,
    Dict.get?_eq_none]
  push Not
  rfl

/-- Where the hosts are cut, those before are the ones of smaller index. -/
theorem hosts_cut {roles : Roles} {pre post : List ℕ} {k : ℕ}
    (h : sorted (roles.dict.map (·.1)) = pre ++ k :: post) :
    pre.Nodup ∧ ∀ i, i ∈ pre ↔ i < k ∧ ∃ role, roles.dict.get? i = some role := by
  have hnodup := sorted_nodup roles.nodup
  have hlt := sorted_lt roles.nodup
  rw [h] at hnodup hlt
  obtain ⟨-, hpost, hcross⟩ := List.pairwise_append.mp hlt
  have hafter := (List.pairwise_cons.mp hpost).1
  refine ⟨(List.nodup_append.mp hnodup).1, fun i => ⟨fun hi => ?_, fun ⟨hi, hrole⟩ => ?_⟩⟩
  · refine ⟨hcross i hi k List.mem_cons_self, mem_hosts.mp ?_⟩
    rw [h]
    exact List.mem_append_left _ hi
  · rw [← mem_hosts, h, List.mem_append, List.mem_cons] at hrole
    rcases hrole with hpre | rfl | hi'
    · exact hpre
    · exact absurd hi (lt_irrefl i)
    · exact absurd (hafter i hi') (not_lt_of_gt hi)

/-- **A call that raises** went through the hosts before the first turn that failed, and then
    undid what was registered. -/
theorem raises_cases {before : BaseDir} {err : Raised}
    (h : (provisionNodeDirs templates roles fault before).1 = .error err) :
    ∃ pre k role u v, (∀ i, i ∈ pre ↔ i < k ∧ ∃ role, roles.dict.get? i = some role) ∧
      roles.dict.get? k = some role ∧ Went templates roles fault pre ⟨before, [], []⟩ u ∧
      provisionHost templates (failsAt fault k) role k u = (.error err, v) ∧
      (provisionNodeDirs templates roles fault before).2 = v.generated.foldl (undo fault) v := by
  unfold provisionNodeDirs at h ⊢
  split at h
  · cases h
  · rename_i err' v hrun
    cases h
    obtain ⟨pre, k, post, u, hhosts, hpre, hk⟩ := Op.forEach_error hrun
    obtain ⟨hnodup, hmem⟩ := hosts_cut hhosts
    obtain ⟨role, hrole⟩ := mem_hosts.mp (hhosts ▸ List.mem_append_right pre List.mem_cons_self)
    refine ⟨pre, k, role, u, v, hmem, hrole, ?_, ?_, rfl⟩
    · exact forEach_went hnodup (fun i hi => ((hmem i).mp hi).2) hpre
    · rw [hrole] at hk
      exact hk

/-- In a call that returns, every turn has got through. -/
theorem returns_cases {before : BaseDir} {generated : List ℕ}
    (h : (provisionNodeDirs templates roles fault before).1 = .ok generated) :
    ∃ u, Went templates roles fault (sorted (roles.dict.map (·.1))) ⟨before, [], []⟩ u := by
  unfold provisionNodeDirs at h
  split at h
  · rename_i u hrun
    exact ⟨u, forEach_went (sorted_nodup roles.nodup) (fun i hi => mem_hosts.mp hi) hrun⟩
  · cases h

/-- A failed turn touches its own host only. -/
theorem failed_turn {role : NodeRole} {op : Option FailedOp} {idx : ℕ} {s v : Provisioning}
    {err : Raised} (h : provisionHost templates op role idx s = (.error err, v)) :
    (∀ i, i ≠ idx → v.entries i = s.entries i) ∧
      (v.generated = s.generated ∨ v.generated = s.generated ++ [idx]) ∧
      (v.made = s.made ∨ v.made = s.made ++ [idx]) := by
  have hend := provisionHost_ends templates role op idx s
  rw [h] at hend
  cases hend with
  | stopped entry => exact ⟨fun i hi => put_other _ _ hi, .inl rfl, .inl rfl⟩
  | cut => exact ⟨fun i hi => put_other _ _ hi, .inl rfl, .inl rfl⟩
  | leaked => exact ⟨fun i hi => put_other _ _ hi, .inl rfl, .inr rfl⟩
  | failed => exact ⟨fun i hi => put_other _ _ hi, .inr rfl, .inr rfl⟩

/-- What fails without a fault of its own could not have got through. -/
theorem not_passes {role : NodeRole} {op : Option FailedOp} {idx : ℕ} {s v : Provisioning}
    {err : Raised} (hquiet : Quiet op)
    (h : provisionHost templates op role idx s = (.error err, v)) :
    ¬ Passes templates role (s.entries idx) := by
  rintro ⟨⟨tree, htemplate, hconf⟩, hclear⟩
  rcases provisionHost_registers hquiet htemplate hclear with ⟨left, -, hnot⟩ | ⟨tree', hok⟩
  · exact hnot hconf
  · rw [h] at hok
    cases hok

end Runs

/-! ## Atomicity -/

section Atomicity

variable {templates : Templates} {roles : Roles} {before : BaseDir}

/-- What a call that raises should leave. -/
structure Atomic (before : BaseDir) (after : Provisioning) : Prop where
  removed : ∀ i ∈ after.made, ∀ tree, after.entries i ≠ some (.dir tree)
  unmanaged : ∀ i, Unmanaged (before i) → after.entries i = before i
  again : ∀ (templates : Templates) (roles : Roles) (fault : Option FileFault) (i : ℕ),
    (provisionNodeDirs templates roles fault after.entries).1 = .error (.unmanaged i) →
      Unmanaged (before i)

/-- The loop gets as far as a host, if nothing fails before. -/
def ComesTo (templates : Templates) (roles : Roles) (before : BaseDir) (idx : ℕ) : Prop :=
  ∀ j role, j < idx → roles.dict.get? j = some role → Passes templates role (before j)

/-- The loop comes to the fault, and what it leaves is out of the rollback's reach: a copy that is
    not registered, an old directory without its stamp, or one the rollback itself fails on. -/
def LeavesTraces (templates : Templates) (roles : Roles) (before : BaseDir) (fault : FileFault) :
    Prop :=
  ComesTo templates roles before fault.host ∧ ∃ role, roles.dict.get? fault.host = some role ∧
    match fault.op with
    | .copytree (some _) | .touch _ => Copied templates role (before fault.host)
    | .rmtree kept =>
        (templates role.template).isSome ∧ ∃ old, before fault.host = some (.dir old) ∧
          old.hasStamp = true ∧ (old.keep kept).hasStamp = false
    | .rollback _ =>
        Copied templates role (before fault.host) ∧ ∃ k role', fault.host ≤ k ∧
          roles.dict.get? k = some role' ∧ ¬ Passes templates role' (before k)
    | _ => False

/-- The error about an unmanaged directory is about one. -/
theorem unmanaged_of_raises {fault : Option FileFault} {i : ℕ}
    (h : (provisionNodeDirs templates roles fault before).1 = .error (.unmanaged i)) :
    Unmanaged (before i) := by
  obtain ⟨pre, k, role, u, v, hmem, -, hwent, hturn, -⟩ := raises_cases h
  have hend := provisionHost_ends templates role (failsAt fault k) k u
  have hk : u.entries k = before k := hwent.others k fun hk => lt_irrefl k ((hmem k).mp hk).1
  rw [hturn] at hend
  cases hend with
  | stopped _ entry hentry herr =>
    obtain ⟨rfl, hunmanaged⟩ := herr i rfl
    rwa [hk] at hunmanaged

theorem failsAt_host (fault : FileFault) : failsAt (some fault) fault.host = some fault.op := by
  simp [failsAt]

theorem failsAt_other {fault : FileFault} {i : ℕ} (h : i ≠ fault.host) :
    failsAt (some fault) i = none := by
  simp [failsAt, h.symm]

/-- A fault that strikes at a host is at that host. -/
theorem eq_of_failsAt {fault : Option FileFault} {i : ℕ} {op : FailedOp}
    (h : failsAt fault i = some op) : fault = some ⟨i, op⟩ := by
  unfold failsAt at h
  split at h
  · split at h
    · rename_i hi
      cases h
      rw [hi]
    · cases h
  · cases h

/-- A host as an atomic call leaves it: untouched, or, where the call had a right to it, without
    a directory of the call's and without one that looks like somebody else's. -/
def Settled (before : BaseDir) (after : Provisioning) (i : ℕ) : Prop :=
  (i ∉ after.made ∧ after.entries i = before i) ∨
    (Clear (before i) ∧ ¬ Unmanaged (after.entries i) ∧ (i ∈ after.made → after.entries i = none))

theorem atomic_of_settled {after : Provisioning} (h : ∀ i, Settled before after i) :
    Atomic before after := by
  refine ⟨fun i hi tree htree => ?_, fun i hunmanaged => ?_,
    fun templates roles fault i hraise => ?_⟩
  · rcases h i with ⟨hnot, -⟩ | ⟨-, -, hnone⟩
    · exact hnot hi
    · rw [hnone hi] at htree
      cases htree
  · rcases h i with ⟨-, hsame⟩ | ⟨hclear, -⟩
    · exact hsame
    · exact absurd hunmanaged hclear.not_unmanaged
  · have hafter := unmanaged_of_raises hraise
    rcases h i with ⟨-, hsame⟩ | ⟨-, hnot, -⟩
    · rwa [hsame] at hafter
    · exact absurd hafter hnot

/-- A host that has been removed. -/
theorem Settled.gone {after : Provisioning} {i : ℕ} (hclear : Clear (before i))
    (hnone : after.entries i = none) : Settled before after i := by
  refine .inr ⟨hclear, ?_, fun _ => hnone⟩
  rintro ⟨tree, htree, -⟩
  rw [hnone] at htree
  cases htree

/-- **A raised call whose fault leaves no traces is atomic.** -/
theorem atomic_of_raises {fault : Option FileFault} {err : Raised}
    (h : (provisionNodeDirs templates roles fault before).1 = .error err)
    (hfault : ∀ f, fault = some f → ¬ LeavesTraces templates roles before f) :
    Atomic before (provisionNodeDirs templates roles fault before).2 := by
  obtain ⟨pre, k, role, u, v, hmem, hrole, hwent, hturn, hafter⟩ := raises_cases h
  have hkpre : k ∉ pre := fun hk => lt_irrefl k ((hmem k).mp hk).1
  have huk : u.entries k = before k := hwent.others k hkpre
  have hugen : u.generated = pre := hwent.generated
  have humade : u.made = pre := hwent.made
  have hkgen : k ∉ u.generated := by
    rw [hugen]
    exact hkpre
  have hcomes : ∀ i, i ≤ k → ComesTo templates roles before i := by
    intro i hi j role hj hrole
    exact hwent.passes ((hmem j).mpr ⟨lt_of_lt_of_le hj hi, role, hrole⟩) hrole
  rw [hafter]
  refine atomic_of_settled fun i => ?_
  by_cases hi : i ∈ pre
  · -- a host before the failing one: it is registered, and the rollback removes it
    obtain ⟨hik, role', hrole'⟩ := (hmem i).mp hi
    have hpasses : Passes templates role' (before i) := hwent.passes hi hrole'
    have hin : i ∈ v.generated := by
      rcases (failed_turn hturn).2.1 with hgen | hgen <;> rw [hgen, hugen]
      · exact hi
      · exact List.mem_append_left _ hi
    refine .gone hpasses.2 (rollback_removes hin (fun kept hat => ?_) v)
    obtain rfl := eq_of_failsAt hat
    have hnot : ¬ Passes templates role (before k) := by
      rw [← huk]
      exact not_passes (.inl (failsAt_other (ne_of_gt hik))) hturn
    exact hfault _ rfl
      ⟨hcomes i hik.le, role', hrole', hpasses.copied, k, role, hik.le, hrole, hnot⟩
  by_cases hik : i = k
  · -- the failing host itself
    subst hik
    have hend := provisionHost_ends templates role (failsAt fault i) i u
    rw [hturn] at hend
    cases hend with
    | stopped _ entry hentry herr =>
      have hleft := rollback_replaced fault entry hkgen
      rcases hentry with rfl | ⟨rfl, hclear⟩
      · refine .inl ⟨?_, hleft.trans huk⟩
        rw [rollback_made, replaced, humade]
        exact hkpre
      · exact .gone (huk ▸ hclear) hleft
    | cut kept old hop htemplate hold hstamp =>
      refine .inr ⟨.inr ⟨old, huk ▸ hold, hstamp⟩, ?_, fun hmade => ?_⟩
      · rw [rollback_replaced fault _ hkgen]
        rintro ⟨tree, htree, hnot⟩
        cases htree
        obtain rfl := eq_of_failsAt hop
        exact hfault _ rfl ⟨hcomes i le_rfl, role, hrole, htemplate, old, huk ▸ hold, hstamp, hnot⟩
      · rw [rollback_made, replaced, humade] at hmade
        exact absurd hmade hkpre
    | leaked op tree hop hleaks hcopied =>
      obtain rfl := eq_of_failsAt hop
      refine absurd ⟨hcomes i le_rfl, role, hrole, ?_⟩ (hfault _ rfl)
      rw [huk] at hcopied
      unfold Leaks at hleaks
      split at hleaks
      · exact hcopied
      · exact hcopied
      · cases hleaks
    | failed tree hcopied =>
      have hin : i ∈ (registered u i tree).generated := List.mem_append_right _ List.mem_cons_self
      rw [huk] at hcopied
      refine .gone hcopied.2 (rollback_removes hin (fun kept hat => ?_) _)
      have hnot := not_passes (.inr ⟨kept, hat⟩) hturn
      rw [huk] at hnot
      obtain rfl := eq_of_failsAt hat
      exact hfault _ rfl ⟨hcomes i le_rfl, role, hrole, hcopied, i, role, le_rfl, hrole, hnot⟩
  · -- any other host
    obtain ⟨hframe, hgenerated, hmade⟩ := failed_turn hturn
    have hout : ∀ {hosts : List ℕ}, hosts = pre ∨ hosts = pre ++ [k] → i ∉ hosts := by
      rintro hosts (rfl | rfl)
      · exact hi
      · simpa [hik] using hi
    rw [hugen] at hgenerated
    rw [humade] at hmade
    refine .inl ⟨?_, ?_⟩
    · rw [rollback_made]
      exact hout hmade
    · rw [rollback_frame (hout hgenerated), hframe i hik]
      exact hwent.others i hi

/-- A turn that fails on what stands at its host makes the call raise there, if the loop comes to
    it. -/
theorem raises_at (fault : Option FileFault) {idx : ℕ} {role : NodeRole}
    (hrole : roles.dict.get? idx = some role) (hcomes : ComesTo templates roles before idx)
    (hquiet : ∀ j, j < idx → Quiet (failsAt fault j))
    (hfails : ∀ s : Provisioning, s.entries idx = before idx →
      ∃ err v, provisionHost templates (failsAt fault idx) role idx s = (.error err, v)) :
    ∃ err u v, (provisionNodeDirs templates roles fault before).1 = .error err ∧
      u.entries idx = before idx ∧ idx ∉ u.generated ∧
      provisionHost templates (failsAt fault idx) role idx u = (.error err, v) ∧
      (provisionNodeDirs templates roles fault before).2 = v.generated.foldl (undo fault) v := by
  have hcontra : ∀ {hosts : List ℕ} {u : Provisioning},
      Went templates roles fault hosts ⟨before, [], []⟩ u → idx ∉ hosts := by
    intro hosts u hwent hi
    obtain ⟨role', s', u', hrole', hsame, hok⟩ := hwent.turns idx hi
    obtain rfl : role' = role := Option.some.inj (hrole'.symm.trans hrole)
    obtain ⟨err, v, herr⟩ := hfails s' hsame
    rw [herr] at hok
    cases hok
  cases hresult : (provisionNodeDirs templates roles fault before).1 with
  | ok generated =>
    obtain ⟨u, hwent⟩ := returns_cases hresult
    exact absurd (mem_hosts.mpr ⟨role, hrole⟩) (hcontra hwent)
  | error err =>
    obtain ⟨pre, k, role', u, v, hmem, hrole', hwent, hturn, hafter⟩ := raises_cases hresult
    have hkpre : k ∉ pre := fun hk => lt_irrefl k ((hmem k).mp hk).1
    rcases lt_trichotomy k idx with hlt | rfl | hgt
    · have hnot := not_passes (hquiet k hlt) hturn
      rw [hwent.others k hkpre] at hnot
      exact absurd (hcomes k role' hlt hrole') hnot
    · obtain rfl : role' = role := Option.some.inj (hrole'.symm.trans hrole)
      have hgenerated : u.generated = pre := hwent.generated
      exact ⟨err, u, v, rfl, hwent.others k hkpre, hgenerated ▸ hkpre, hturn, hafter⟩
    · exact absurd ((hmem idx).mpr ⟨hgt, role, hrole⟩) (hcontra hwent)

theorem quiet_elsewhere {fault : FileFault} {j : ℕ} (h : j ≠ fault.host) :
    Quiet (failsAt (some fault) j) := .inl (failsAt_other h)

/-- A copy that is not registered stays. -/
theorem leak_stays {i : ℕ} {op : FailedOp} {role : NodeRole}
    (hcomes : ComesTo templates roles before i) (hrole : roles.dict.get? i = some role)
    (hcopied : Copied templates role (before i)) (hleaks : Leaks op = true) :
    ∃ err, (provisionNodeDirs templates roles (some ⟨i, op⟩) before).1 = .error err ∧
      ¬ Atomic before (provisionNodeDirs templates roles (some ⟨i, op⟩) before).2 := by
  have hat : failsAt (some ⟨i, op⟩) i = some op := failsAt_host ⟨i, op⟩
  have hfails : ∀ s : Provisioning, s.entries i = before i → ∃ tree,
      provisionHost templates (failsAt (some ⟨i, op⟩) i) role i s =
        (.error .fileError, s.make i tree) := by
    intro s hs
    rw [hat]
    exact provisionHost_leaks (hs ▸ hcopied) hleaks
  obtain ⟨err, u, v, hraise, hu, hgenerated, hturn, hafter⟩ :=
    raises_at _ hrole hcomes (fun j hj => quiet_elsewhere (ne_of_lt hj)) fun s hs =>
      (hfails s hs).elim fun tree h => ⟨_, _, h⟩
  obtain ⟨tree, hleft⟩ := hfails u hu
  rw [hturn] at hleft
  cases hleft
  refine ⟨_, hraise, fun hatomic => ?_⟩
  rw [hafter] at hatomic
  refine hatomic.removed i ?_ tree ?_
  · rw [rollback_made]
    exact List.mem_append_right _ List.mem_cons_self
  · have hout : i ∉ (u.make i tree).generated := hgenerated
    rw [rollback_frame hout]
    exact put_same _ _ _

/-- The roles of one host alone. -/
def only (i : ℕ) (role : NodeRole) : Roles := ⟨[(i, role)], by simp⟩

/-- Calling again for an unmanaged directory raises. -/
theorem raises_unmanaged {i : ℕ} {role : NodeRole} (htemplate : (templates role.template).isSome)
    (hunmanaged : Unmanaged (before i)) :
    (provisionNodeDirs templates (only i role) none before).1 = .error (.unmanaged i) := by
  obtain ⟨template, htemplate⟩ := Option.isSome_iff_exists.mp htemplate
  have hfails : ∀ s : Provisioning, s.entries i = before i →
      provisionHost templates none role i s = (.error (.unmanaged i), s) := by
    intro s hs
    obtain ⟨tree, hdir, hstamp⟩ := hunmanaged
    have hguard : clearNodeDir none i s = (.error (.unmanaged i), s) := by
      simp [clearNodeDir, hs, hdir, hstamp]
    rw [provisionHost_eq, Op.bind_of_ok (findTemplate_found htemplate (by simp) s),
      Op.bind_of_error hguard]
  have hrole : (only i role).dict.get? i = some role := by
    simp [only]
  have hcomes : ComesTo templates (only i role) before i := by
    intro j role' hj hrole'
    simp [only, ne_of_gt hj] at hrole'
  obtain ⟨err, u, v, hraise, hu, -, hturn, -⟩ :=
    raises_at none hrole hcomes (fun j hj => .inl rfl) fun s hs => ⟨_, _, hfails s hs⟩
  rw [failsAt, hfails u hu] at hturn
  cases hturn
  exact hraise

/-- An old directory that has lost its stamp passes for somebody else's. -/
theorem cut_stays {i : ℕ} {kept : RelPath → Bool} {role : NodeRole} {old : Tree}
    (hcomes : ComesTo templates roles before i) (hrole : roles.dict.get? i = some role)
    (htemplate : (templates role.template).isSome) (hold : before i = some (.dir old))
    (hstamp : old.hasStamp = true) (hcut : (old.keep kept).hasStamp = false) :
    ∃ err, (provisionNodeDirs templates roles (some ⟨i, .rmtree kept⟩) before).1 = .error err ∧
      ¬ Atomic before (provisionNodeDirs templates roles (some ⟨i, .rmtree kept⟩) before).2 := by
  have hat : failsAt (some ⟨i, .rmtree kept⟩) i = some (.rmtree kept) :=
    failsAt_host ⟨i, .rmtree kept⟩
  have hfails : ∀ s : Provisioning, s.entries i = before i →
      provisionHost templates (failsAt (some ⟨i, .rmtree kept⟩) i) role i s =
        (.error .fileError, replaced s i (some (.dir (old.keep kept)))) := by
    intro s hs
    rw [hat]
    exact provisionHost_cut htemplate (hs.trans hold) hstamp
  obtain ⟨err, u, v, hraise, hu, hgenerated, hturn, hafter⟩ :=
    raises_at _ hrole hcomes (fun j hj => quiet_elsewhere (ne_of_lt hj)) fun s hs =>
      ⟨_, _, hfails s hs⟩
  rw [hfails u hu] at hturn
  cases hturn
  refine ⟨_, hraise, fun hatomic => ?_⟩
  rw [hafter] at hatomic
  refine Clear.not_unmanaged (.inr ⟨old, hold, hstamp⟩)
    (hatomic.again templates (only i role) none i (raises_unmanaged htemplate ?_))
  rw [rollback_replaced _ _ hgenerated]
  exact ⟨old.keep kept, rfl, hcut⟩

/-- What the rollback fails on stays. -/
theorem rollback_stays {i k : ℕ} {kept : RelPath → Bool} {role role' : NodeRole}
    (hcomes : ComesTo templates roles before i) (hrole : roles.dict.get? i = some role)
    (hcopied : Copied templates role (before i)) (hik : i ≤ k)
    (hrole' : roles.dict.get? k = some role') (hnot : ¬ Passes templates role' (before k)) :
    ∃ err, (provisionNodeDirs templates roles (some ⟨i, .rollback kept⟩) before).1 = .error err ∧
      ¬ Atomic before (provisionNodeDirs templates roles (some ⟨i, .rollback kept⟩) before).2 := by
  have hat : failsAt (some ⟨i, .rollback kept⟩) i = some (.rollback kept) :=
    failsAt_host ⟨i, .rollback kept⟩
  cases hresult : (provisionNodeDirs templates roles (some ⟨i, .rollback kept⟩) before).1 with
  | ok generated =>
    obtain ⟨u, hwent⟩ := returns_cases hresult
    exact absurd (hwent.passes (mem_hosts.mpr ⟨role', hrole'⟩) hrole') hnot
  | error err =>
    obtain ⟨pre, k', role'', u, v, hmem, hrole'', hwent, hturn, hafter⟩ := raises_cases hresult
    have hkpre : k' ∉ pre := fun hk => lt_irrefl k' ((hmem k').mp hk).1
    -- the host is registered by the time the rollback comes, at its own turn or before
    have hmade : i ∈ v.made ∧ ∃ tree, v.entries i = some (.dir tree) := by
      rcases lt_trichotomy k' i with hlt | heq | hgt
      · have hnot := not_passes (quiet_elsewhere (ne_of_lt hlt)) hturn
        rw [hwent.others k' hkpre] at hnot
        exact absurd (hcomes k' role'' hlt hrole'') hnot
      · subst heq
        obtain rfl : role'' = role := Option.some.inj (hrole''.symm.trans hrole)
        obtain ⟨⟨tree, htemplate⟩, hclear⟩ := hcopied
        have hu : u.entries k' = before k' := hwent.others k' hkpre
        rcases provisionHost_registers (.inr ⟨kept, hat⟩) htemplate (hu ▸ hclear) with
          ⟨left, hfail, -⟩ | ⟨tree', hok⟩
        · rw [hturn] at hfail
          cases hfail
          exact ⟨List.mem_append_right _ List.mem_cons_self, left, put_same _ _ _⟩
        · rw [hturn] at hok
          cases hok
      · obtain ⟨hframe, -, hmade⟩ := failed_turn hturn
        have hi : i ∈ pre := (hmem i).mpr ⟨hgt, role, hrole⟩
        have humade : u.made = pre := hwent.made
        refine ⟨?_, ?_⟩
        · rcases hmade with hmade | hmade <;> rw [hmade, humade]
          · exact hi
          · exact List.mem_append_left _ hi
        · rw [hframe i (ne_of_lt hgt)]
          exact hwent.dirs i hi
    refine ⟨err, rfl, fun hatomic => ?_⟩
    rw [hafter] at hatomic
    obtain ⟨tree, hleft⟩ := rollback_left v.generated hat hmade.2
    exact hatomic.removed i (by rw [rollback_made]; exact hmade.1) tree hleft

/-- **Provisioning is atomic** exactly when its fault leaves no traces. -/
theorem atomic_unless (templates : Templates) (roles : Roles) (fault : Option FileFault)
    (before : BaseDir) :
    (∀ err, (provisionNodeDirs templates roles fault before).1 = .error err →
        Atomic before (provisionNodeDirs templates roles fault before).2) ↔
      ∀ f, fault = some f → ¬ LeavesTraces templates roles before f := by
  constructor
  · rintro h ⟨i, op⟩ rfl ⟨hcomes, role, hrole, htraces⟩
    have hstays : ∃ err, (provisionNodeDirs templates roles (some ⟨i, op⟩) before).1 = .error err ∧
        ¬ Atomic before (provisionNodeDirs templates roles (some ⟨i, op⟩) before).2 := by
      cases op with
      | copytree copied =>
        cases copied with
        | none => cases htraces
        | some copied => exact leak_stays hcomes hrole htraces rfl
      | touch written => exact leak_stays hcomes hrole htraces rfl
      | rmtree kept =>
        obtain ⟨htemplate, old, hold, hstamp, hcut⟩ := htraces
        exact cut_stays hcomes hrole htemplate hold hstamp hcut
      | rollback kept =>
        obtain ⟨hcopied, k, role', hik, hrole', hnot⟩ := htraces
        exact rollback_stays hcomes hrole hcopied hik hrole' hnot
      | _ => cases htraces
    obtain ⟨err, hraise, hnot⟩ := hstays
    exact hnot (h err hraise)
  · intro hfault err hraise
    exact atomic_of_raises hraise hfault

/-- A template with one file in it. -/
def oneFile : Templates := fun template =>
  if template = "h0" then some (.dir [(["cefnetd.conf"], .file "PORT_NUM=9896\n".toList)]) else none

/-- The file of the template cannot be copied: the directory made for it stays, and the same call
    made again takes it for somebody else's. -/
theorem unfinished_copy_stays :
    let fault : FileFault := ⟨0, .copytree (some fun _ _ => none)⟩
    let call := provisionNodeDirs oneFile (only 0 .consumer) (some fault) fun _ => none
    call.1 = .error .fileError ∧ call.2.entries 0 = some (.dir []) ∧
      (provisionNodeDirs oneFile (only 0 .consumer) none call.2.entries).1 =
        .error (.unmanaged 0) ∧
      ¬ Atomic (fun _ => none) call.2 := by
  refine ⟨rfl, rfl, rfl, fun hatomic => ?_⟩
  exact hatomic.removed 0 (by decide) [] rfl

end Atomicity

end NodeDirs
end Proof
end CeforeEmu
