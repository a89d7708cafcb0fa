import CeforeEmu.Lib.Lines
import CeforeEmu.Runtime.CachePlacement

/-!
# The mode of a host is that of a cache node

A host waits for its `csmgrd` exactly if its `cefnetd.conf` says `CS_MODE=2`, and `csmgrd` is started
exactly at the cache nodes. `cs_mode_agrees` says that after a placement the two are the same hosts,
whatever the files said before.

The line is written by one pattern and read by another. What makes them agree is that every line
the reader takes is one the writer replaces (`readsKey_eq_none`), so that the line written is the
first that is read (`read_setConfigValueText`). The rest is what the loops do to the file of one
host, stated with `Op.Ensures`.
-/

set_option autoImplicit false

namespace CeforeEmu
namespace Proof

open CeforeEmu.Lib CeforeEmu.Core CeforeEmu.Runtime CeforeEmu.Runtime.Template

/-! ## One file -/

/-- A key as the patterns expect it. -/
structure IsKey (key : Text) : Prop where
  clean : key.Clean
  head : ∃ c rest, key = c :: rest ∧ Text.isWhite c = false ∧ c ≠ '#'

/-- A line that is not commented out. -/
theorem assignsKey_of_head {key line : Text} {c : Char} {tail : Text} (h : line.lstrip = c :: tail)
    (hc : c ≠ '#') : assignsKey key line =
      (key.isPrefixOf line.lstrip && ((Text.lstrip (line.lstrip.drop key.length)).head? == some '=')) := by
  rw [assignsKey, h]
  split
  · rename_i heq
    exact absurd (List.cons.inj heq).1 hc
  · rfl

/-- The reader takes no line that the writer leaves. -/
theorem readsKey_eq_none {key line : Text} (hkey : IsKey key) (h : assignsKey key line = false) :
    readsKey key line = none := by
  rw [readsKey]
  split
  · rename_i hpre
    obtain ⟨c, rest, rfl, -, hhash⟩ := hkey.head
    obtain ⟨tail, htail⟩ := List.isPrefixOf_iff_prefix.mp hpre
    rw [assignsKey_of_head htail.symm hhash, hpre, Bool.true_and] at h
    split
    · rename_i value heq
      rw [heq] at h
      simp at h
    · rfl
  · rfl

theorem readsKey_entry {key value : Text} (hkey : IsKey key) :
    readsKey key (key ++ '=' :: value) = some (Text.strip value) := by
  obtain ⟨c, rest, rfl, hwhite, -⟩ := hkey.head
  rw [readsKey, List.cons_append, Text.lstrip_of_head hwhite, if_pos]
  · have hdrop : (c :: (rest ++ '=' :: value)).drop (c :: rest).length = '=' :: value := by
      rw [← List.cons_append]
      exact List.drop_left
    rw [hdrop, Text.lstrip_of_head (by decide)]
    rfl
  · rw [List.isPrefixOf_iff_prefix, ← List.cons_append]
    exact List.prefix_append _ _

theorem setConfigLines_ne_nil (key entry : Text) : ∀ lines : List Text,
    setConfigLines key entry false lines ≠ [] := by
  intro lines
  cases lines with
  | nil => simp [setConfigLines]
  | cons line lines =>
    rw [setConfigLines]
    split <;> simp

theorem setConfigLines_clean {key entry : Text} (hentry : entry.Clean) {lines : List Text} :
    ∀ {replaced : Bool}, (∀ line ∈ lines, Text.Clean line) →
      ∀ line ∈ setConfigLines key entry replaced lines, Text.Clean line := by
  induction lines with
  | nil =>
    intro replaced _ line hline
    rw [setConfigLines] at hline
    split at hline
    · cases hline
    · rw [List.mem_singleton.mp hline]
      exact hentry
  | cons first lines ih =>
    intro replaced h
    obtain ⟨hfirst, hlines⟩ := List.forall_mem_cons.mp h
    rw [setConfigLines]
    split
    · split
      · exact ih hlines
      · exact List.forall_mem_cons.mpr ⟨hentry, ih hlines⟩
    · exact List.forall_mem_cons.mpr ⟨hfirst, ih hlines⟩

/-- The first line the reader takes is the one that was written. -/
theorem findSome?_setConfigLines {key value : Text} (hkey : IsKey key) : ∀ lines : List Text,
    (setConfigLines key (key ++ '=' :: value) false lines).findSome? (readsKey key)
      = some (Text.strip value) := by
  intro lines
  induction lines with
  | nil => simp [setConfigLines, readsKey_entry hkey]
  | cons line lines ih =>
    rw [setConfigLines]
    split
    · rw [if_neg (by simp), List.findSome?_cons, readsKey_entry hkey]
    · rename_i h
      rw [List.findSome?_cons, readsKey_eq_none hkey (Bool.eq_false_iff.mpr h), ih]

/-- **Reading back what was set.** -/
theorem read_setConfigValueText {key value : Text} (hkey : IsKey key) (hvalue : value.Clean)
    (text : Text) :
    readConfigValueText key (setConfigValueText key value text) = some (Text.strip value) := by
  have hentry : Text.Clean (key ++ '=' :: value) :=
    hkey.clean.append (List.forall_mem_cons.mpr ⟨by decide, hvalue⟩)
  rw [readConfigValueText, setConfigValueText, Text.lines_written (setConfigLines_ne_nil _ _ _)
    (setConfigLines_clean hentry (Text.splitLines_clean _)), findSome?_setConfigLines hkey]

/-! ## The file of one host -/

/-- Something is true of the `cefnetd.conf` of a host. -/
def AtHost (i : ℤ) (p : Option ConfFile → Prop) (files : ConfFiles) : Prop :=
  p (files i "cefnetd.conf")

def Exists (file : Option ConfFile) : Prop := file.isSome

/-- The file can be read, and what it says of the mode. -/
def SaysMode (p : Option Text → Prop) (file : Option ConfFile) : Prop :=
  ∃ text, file = some (.text text) ∧ p (readConfigValueText "CS_MODE".toList text)

theorem SaysMode.exists {p : Option Text → Prop} {file : Option ConfFile} (h : SaysMode p file) :
    Exists file := by
  obtain ⟨text, rfl, -⟩ := h
  rfl

theorem SaysMode.imp {p q : Option Text → Prop} {file : Option ConfFile} (h : SaysMode p file)
    (hpq : ∀ v, p v → q v) : SaysMode q file := by
  obtain ⟨text, htext, hp⟩ := h
  exact ⟨text, htext, hpq _ hp⟩

theorem csMode_isKey : IsKey "CS_MODE".toList :=
  ⟨Text.clean_of_all rfl, 'C', "S_MODE".toList, by decide, by decide, by decide⟩

section OneHost

variable {i : ℤ} {p : Option ConfFile → Prop}

/-- Other files are not touched. -/
theorem setConfigValue_other {idx : ℤ} {name : String} (h : idx ≠ i ∨ name ≠ "cefnetd.conf")
    (key value : String) :
    Op.Ensures (AtHost i p) (setConfigValue idx name key value) (AtHost i p) := by
  intro files hp a files' hrun
  rw [setConfigValue] at hrun
  split at hrun
  · cases hrun
    exact hp
  · cases hrun
  · cases hrun
    rw [AtHost, ConfFiles.put, if_neg]
    · exact hp
    · rintro ⟨rfl, rfl⟩
      rcases h with h | h
      · exact h rfl
      · exact h rfl

/-- A mode that was set is the one that is read. -/
theorem setConfigValue_mode {value : String} (hclean : Text.Clean value.toList)
    (hstrip : Text.strip value.toList = value.toList) :
    Op.Ensures (AtHost i Exists) (setConfigValue i "cefnetd.conf" "CS_MODE" value)
      (AtHost i (SaysMode (· = some value.toList))) := by
  intro files hexists a files' hrun
  rw [setConfigValue] at hrun
  split at hrun
  · rename_i hnone
    rw [AtHost, hnone] at hexists
    cases hexists
  · cases hrun
  · rename_i text htext
    cases hrun
    refine ⟨_, by rw [ConfFiles.put, if_pos ⟨rfl, rfl⟩], ?_⟩
    rw [read_setConfigValueText csMode_isKey hclean, hstrip]

theorem csmgrd_ne : "csmgrd.conf" ≠ "cefnetd.conf" := by decide

/-- The settings of a cache node go to its other file. -/
theorem cacheNodeSettings_keeps (settings : CacheSettings) {idx : ℤ} {q : Option ConfFile → Prop}
    (h : Op.Ensures (AtHost i p) (setConfigValue idx "cefnetd.conf" "CS_MODE" "2") (AtHost i q)) :
    Op.Ensures (AtHost i p) (cacheNodeSettings settings idx) (AtHost i q) := by
  have hother : ∀ (key value : String),
      Op.Ensures (AtHost i q) (setConfigValue idx "csmgrd.conf" key value) (AtHost i q) :=
    fun key value => setConfigValue_other (.inr csmgrd_ne) key value
  refine Op.Ensures.bind h fun _ => ?_
  refine Op.Ensures.bind (Op.Ensures.whenSome (hother _) _) fun _ => ?_
  refine Op.Ensures.bind (Op.Ensures.whenSome (hother _) _) fun _ => ?_
  exact Op.Ensures.bind (Op.Ensures.whenSome (hother _) _) fun _ =>
    Op.Ensures.whenSome (hother _) _

theorem cacheNodeSettings_other (settings : CacheSettings) {idx : ℤ} (h : idx ≠ i) :
    Op.Ensures (AtHost i p) (cacheNodeSettings settings idx) (AtHost i p) :=
  cacheNodeSettings_keeps settings (setConfigValue_other (.inl h) _ _)

theorem cacheNodeSettings_self (settings : CacheSettings) :
    Op.Ensures (AtHost i Exists) (cacheNodeSettings settings i)
      (AtHost i (SaysMode (· = some "2".toList))) :=
  cacheNodeSettings_keeps settings (setConfigValue_mode (Text.clean_of_all rfl) (by decide))

/-- The mode of a host that is no cache node. -/
def LowMode (publishers : List ℤ) (i : ℤ) (v : Option Text) : Prop :=
  v ≠ some "2".toList ∧ (i ∈ publishers → v = some "1".toList)

theorem otherNodeMode_other (publishers : List ℤ) {idx : ℤ} (h : idx ≠ i) :
    Op.Ensures (AtHost i p) (otherNodeMode publishers idx) (AtHost i p) := by
  have hset : ∀ value, Op.Ensures (AtHost i p) (setConfigValue idx "cefnetd.conf" "CS_MODE" value)
      (AtHost i p) := fun value => setConfigValue_other (.inl h) _ _
  have hread : Op.Ensures (AtHost i p) (readConfigValue idx "cefnetd.conf" "CS_MODE") (AtHost i p) := by
    intro files hp a files' hrun
    rw [readConfigValue] at hrun
    split at hrun
    · cases hrun
      exact hp
    · cases hrun
    · cases hrun
      exact hp
  have hget : Op.Ensures (AtHost i p) (Op.get : Op ConfFiles ConfError ConfFiles) (AtHost i p) := by
    intro files hp a files' hrun
    cases hrun
    exact hp
  refine Op.Ensures.bind hget fun files => Op.Ensures.when ?_ _
  split
  · exact hset _
  · exact Op.Ensures.bind hread fun _ => Op.Ensures.when (hset _) _

theorem otherNodeMode_self (publishers : List ℤ) :
    Op.Ensures (AtHost i Exists) (otherNodeMode publishers i)
      (AtHost i (SaysMode (LowMode publishers i))) := by
  intro files hexists a files' hrun
  have hget : (Op.get : Op ConfFiles ConfError ConfFiles) files = (.ok files, files) := rfl
  rw [otherNodeMode, Op.bind_of_ok hget, show (files i "cefnetd.conf").isSome = true from hexists,
    Op.when, if_pos rfl] at hrun
  by_cases hpub : i ∈ publishers
  · rw [if_pos hpub] at hrun
    refine SaysMode.imp (setConfigValue_mode (Text.clean_of_all rfl) (by decide) hexists hrun) ?_
    rintro v rfl
    exact ⟨by decide, fun _ => rfl⟩
  · rw [if_neg hpub] at hrun
    cases hfile : files i "cefnetd.conf" with
    | none =>
      rw [AtHost, hfile] at hexists
      cases hexists
    | some file =>
      cases file with
      | unreadable =>
        have hread : readConfigValue i "cefnetd.conf" "CS_MODE" files
            = (.error (.unreadable i "cefnetd.conf"), files) := by rw [readConfigValue, hfile]
        rw [Op.bind_of_error hread] at hrun
        cases hrun
      | text text =>
        have hread : readConfigValue i "cefnetd.conf" "CS_MODE" files
            = (.ok (readConfigValueText "CS_MODE".toList text), files) := by
          rw [readConfigValue, hfile]
        rw [Op.bind_of_ok hread, Op.when] at hrun
        split at hrun
        · refine SaysMode.imp
            (setConfigValue_mode (Text.clean_of_all rfl) (by decide) hexists hrun) ?_
          rintro v rfl
          exact ⟨by decide, fun h => absurd h hpub⟩
        · rename_i htwo
          cases hrun
          exact ⟨text, hfile, fun heq => htwo (by rw [heq]; rfl), fun h => absurd h hpub⟩

end OneHost

/-! ## The loops -/

/-- A loop one turn of which sets the host's mode, while the others leave the host's file alone. -/
theorem forEach_setsMode {α : Type} {turns : List α} {f : α → Op ConfFiles ConfError Unit} {turn : α}
    {i : ℤ} {p : Option Text → Prop} (hmem : turn ∈ turns)
    (hself : Op.Ensures (AtHost i Exists) (f turn) (AtHost i (SaysMode p)))
    (hother : ∀ other ∈ turns, other ≠ turn → ∀ q : Option ConfFile → Prop,
      Op.Ensures (AtHost i q) (f other) (AtHost i q)) :
    Op.Ensures (AtHost i Exists) (Op.forEach turns f) (AtHost i (SaysMode p)) := by
  refine Op.Ensures.forEach_mem hmem hself (fun other h => ?_) fun other h => ?_
  · by_cases heq : other = turn
    · rw [heq]
      exact hself.weaken (fun _ h => h) fun _ h => h.exists
    · exact hother other h heq _
  · by_cases heq : other = turn
    · rw [heq]
      exact hself.weaken (fun _ h => h.exists) fun _ h => h
    · exact hother other h heq _

/-- Both loops, for one host. -/
theorem applyCacheNodeSettings_mode {hostNum i : ℤ} {cacheNodes : List ℤ} (settings : CacheSettings)
    (publishers : List ℤ) (hi : 0 ≤ i ∧ i < hostNum) :
    Op.Ensures (AtHost i Exists) (applyCacheNodeSettings hostNum cacheNodes settings publishers)
      (AtHost i (SaysMode fun v =>
        if i ∈ cacheNodes then v = some "2".toList else LowMode publishers i v)) := by
  have hmem : ∀ {n}, n ∈ cacheNodes.dedup.insertionSort (· ≤ ·) ↔ n ∈ cacheNodes := by
    intro n
    rw [(List.perm_insertionSort _ _).mem_iff, List.mem_dedup]
  by_cases hcache : i ∈ cacheNodes
  · simp only [if_pos hcache]
    -- set by the first loop, skipped by the second
    have hfirst : Op.Ensures (AtHost i Exists)
        (Op.when (0 ≤ i ∧ i < hostNum) (cacheNodeSettings settings i))
        (AtHost i (SaysMode (· = some "2".toList))) := by
      rw [decide_eq_true hi]
      exact cacheNodeSettings_self settings
    refine Op.Ensures.bind (forEach_setsMode (hmem.mpr hcache) hfirst fun c _ hc _ =>
      Op.Ensures.when (cacheNodeSettings_other settings hc) _) fun _ => ?_
    refine Op.Ensures.forEach fun c _ => ?_
    by_cases hc : c = i
    · subst hc
      rw [decide_eq_false (not_not_intro hcache)]
      exact Op.Ensures.pure ()
    · exact Op.Ensures.when (otherNodeMode_other publishers hc) _
  · simp only [if_neg hcache]
    -- skipped by the first loop, set by the second
    have hsecond : Op.Ensures (AtHost i Exists)
        (Op.when (i ∉ cacheNodes) (otherNodeMode publishers i))
        (AtHost i (SaysMode (LowMode publishers i))) := by
      rw [decide_eq_true hcache]
      exact otherNodeMode_self publishers
    refine Op.Ensures.bind (Op.Ensures.forEach fun c hc => ?_) fun _ =>
      forEach_setsMode (mem_intRange.mpr hi) hsecond fun c _ hc _ =>
        Op.Ensures.when (otherNodeMode_other publishers hc) _
    refine Op.Ensures.when (cacheNodeSettings_other settings ?_) _
    rintro rfl
    exact hcache (hmem.mp hc)

theorem applyOverrides_keeps {τ : Type} [DecidableEq τ] [FloatFacts τ]
    (manager : CacheConfigManager τ) {i : ℤ} {p : Option ConfFile → Prop} (idx : ℤ) :
    Op.Ensures (AtHost i p) (manager.applyOverrides idx) (AtHost i p) :=
  Op.Ensures.whenSome (fun _ => Op.Ensures.forEach fun _ _ => Op.Ensures.whenSome
    (fun _ => setConfigValue_other (.inr csmgrd_ne) _ _) _) _

/-! ## Random modes -/

section Random

variable {σ : Type} (rng : ModeChoice σ) (publishers : List ℤ)

/-- What may be drawn for a host. -/
def Drawn (publishers : List ℤ) (i : ℤ) (mode : ℕ) : Prop :=
  mode ≤ 2 ∧ (i ∈ publishers → mode ≠ 0)

theorem choice_drawn (i : ℤ) (s : σ) :
    Drawn publishers i (rng.choice (if i ∈ publishers then [1, 2] else [0, 1, 2]) s).1 := by
  by_cases hpub : i ∈ publishers
  · rw [if_pos hpub]
    have hmem := rng.choice_mem s (List.cons_ne_nil 1 [2])
    simp only [List.mem_cons, List.not_mem_nil, or_false] at hmem
    exact ⟨by omega, fun _ => by omega⟩
  · rw [if_neg hpub]
    have hmem := rng.choice_mem s (List.cons_ne_nil 0 [1, 2])
    simp only [List.mem_cons, List.not_mem_nil, or_false] at hmem
    exact ⟨by omega, fun h => absurd h hpub⟩

/-- **The loop** gives every host one mode, of those it may have. -/
theorem assignCsModesFrom_spec : ∀ (hosts : List ℤ) (csModes : Dict ℤ ℕ) (s : σ),
    Dict.NodupKeys csModes → (∀ e ∈ csModes, Drawn publishers e.1 e.2) →
    Dict.NodupKeys (assignCsModesFrom rng publishers hosts csModes s) ∧
      (∀ e ∈ assignCsModesFrom rng publishers hosts csModes s, Drawn publishers e.1 e.2) ∧
      ∀ i, i ∈ (assignCsModesFrom rng publishers hosts csModes s).map (·.1) ↔
        i ∈ csModes.map (·.1) ∨ i ∈ hosts := by
  intro hosts
  induction hosts with
  | nil =>
    intro csModes s hnodup hdrawn
    exact ⟨hnodup, hdrawn, fun i => by simp [assignCsModesFrom]⟩
  | cons idx hosts ih =>
    intro csModes s hnodup hdrawn
    have hset : ∀ e ∈ csModes.set idx
        (rng.choice (if idx ∈ publishers then [1, 2] else [0, 1, 2]) s).1,
        Drawn publishers e.1 e.2 := by
      intro e he
      rcases Dict.mem_set he with rfl | he
      · exact choice_drawn rng publishers idx s
      · exact hdrawn e he
    obtain ⟨hnodup', hdrawn', hkeys⟩ := ih _ (rng.choice (if idx ∈ publishers then [1, 2]
      else [0, 1, 2]) s).2 (hnodup.set idx _) hset
    refine ⟨hnodup', hdrawn', fun i => ?_⟩
    rw [assignCsModesFrom, hkeys, Dict.mem_keys_set, List.mem_cons]
    tauto

theorem assignRandomCsModes_spec (hostCount : ℤ) (s : σ) :
    Dict.NodupKeys (assignRandomCsModes rng (intRange hostCount) publishers s) ∧
      (∀ e ∈ assignRandomCsModes rng (intRange hostCount) publishers s, Drawn publishers e.1 e.2) ∧
      ∀ i, i ∈ (assignRandomCsModes rng (intRange hostCount) publishers s).map (·.1) ↔
        0 ≤ i ∧ i < hostCount := by
  obtain ⟨hnodup, hdrawn, hkeys⟩ := assignCsModesFrom_spec rng publishers
    ((intRange hostCount).insertionSort (· ≤ ·)) [] s List.nodup_nil (by simp)
  refine ⟨hnodup, hdrawn, fun i => ?_⟩
  rw [assignRandomCsModes, hkeys, (List.perm_insertionSort _ _).mem_iff, mem_intRange]
  simp

end Random

/-- The files say of a host whose mode is given what `apply_cs_modes` was told. -/
theorem applyCsModes_mode {csModes : Dict ℤ ℕ} (hnodup : Dict.NodupKeys csModes) {i : ℤ} {mode : ℕ}
    (hmem : (i, mode) ∈ csModes) (hle : mode ≤ 2) :
    Op.Ensures (AtHost i Exists) (applyCsModes csModes)
      (AtHost i (SaysMode (· = some (toString mode).toList))) := by
  have hself : Op.Ensures (AtHost i Exists)
      (setConfigValue i "cefnetd.conf" "CS_MODE" (toString mode))
      (AtHost i (SaysMode (· = some (toString mode).toList))) := by
    obtain rfl | rfl | rfl : mode = 0 ∨ mode = 1 ∨ mode = 2 := by omega
    all_goals exact setConfigValue_mode (Text.clean_of_all rfl) (by decide)
  refine forEach_setsMode hmem hself fun e he hne _ => setConfigValue_other (.inl ?_) _ _
  exact fun hi => hne (List.inj_on_of_nodup_map hnodup he hmem hi)

/-! ## The result -/

/-- What the hosts that have a `cefnetd.conf` read as their mode once `cacheNodes` have been
    placed: 2 at the cache nodes and nowhere else, and 1 or 2 at the publishers. -/
def ModesAgree (hosts : ℤ) (publishers cacheNodes : List ℤ) (before after : ConfFiles) : Prop :=
  ∀ i, 0 ≤ i → i < hosts → (before i "cefnetd.conf").isSome →
    ∃ v, readConfigValue i "cefnetd.conf" "CS_MODE" after = (.ok v, after) ∧
      (v = some "2".toList ↔ i ∈ cacheNodes) ∧
      (i ∈ publishers → v = some "1".toList ∨ v = some "2".toList)

theorem read_of_saysMode {p : Option Text → Prop} {i : ℤ} {files : ConfFiles}
    (h : AtHost i (SaysMode p) files) :
    ∃ v, readConfigValue i "cefnetd.conf" "CS_MODE" files = (.ok v, files) ∧ p v := by
  obtain ⟨text, htext, hp⟩ := h
  exact ⟨_, by rw [readConfigValue, htext], hp⟩

theorem settings_agree {hosts : ℤ} {publishers cacheNodes : List ℤ} {before after : ConfFiles}
    (h : ∀ i, 0 ≤ i ∧ i < hosts → AtHost i Exists before →
      AtHost i (SaysMode fun v =>
        if i ∈ cacheNodes then v = some "2".toList else LowMode publishers i v) after) :
    ModesAgree hosts publishers cacheNodes before after := by
  intro i hpos hlt hexists
  obtain ⟨v, hread, hv⟩ := read_of_saysMode (h i ⟨hpos, hlt⟩ hexists)
  refine ⟨v, hread, ?_⟩
  by_cases hcache : i ∈ cacheNodes
  · rw [if_pos hcache] at hv
    exact ⟨⟨fun _ => hcache, fun _ => hv⟩, fun _ => .inr hv⟩
  · rw [if_neg hcache] at hv
    exact ⟨⟨fun heq => absurd heq hv.1, fun hmem => absurd hmem hcache⟩, fun hpub => .inl (hv.2 hpub)⟩

section Result

variable {τ : Type} [DecidableEq τ] [FloatFacts τ]

omit [FloatFacts τ] in
/-- A manager has the number of hosts and the publishers of its placement. -/
theorem CachePlacement.new?_manager {hosts : ℤ} {graph : Graph ℤ} {publishers : List ℤ}
    {cacheConfig : Option (Mapping τ)} {cacheCount downCount : ℤ} {excludePublishers : Bool}
    {rct : Option ℤ} {p : CachePlacement τ} (h : CachePlacement.new? hosts graph publishers cacheConfig
      cacheCount downCount excludePublishers rct = some p) :
    p.hostCount = hosts ∧ p.publisherIds = publishers ∧
      ∀ m ∈ p.manager, m.hostCount = hosts ∧ m.publisherIds = publishers := by
  obtain ⟨manager, hmanager, rfl⟩ := Option.map_eq_some_iff.mp h
  refine ⟨rfl, rfl, fun m hm => ?_⟩
  rw [Option.mem_def] at hm
  simp only at hm
  subst hm
  unfold CachePlacement.manager? at hmanager
  split at hmanager
  · cases hmanager
  · cases hmanager
  · obtain ⟨m', hnew, heq⟩ := Option.map_eq_some_iff.mp hmanager
    cases heq
    simp only [CacheConfigManager.new?, Option.bind_eq_bind, Option.bind_eq_some_iff] at hnew
    obtain ⟨_, _, _, _, _, _, _, _, _, _, hpure⟩ := hnew
    cases hpure
    exact ⟨rfl, rfl⟩

theorem applyConfigs_mode (manager : CacheConfigManager τ) {cacheNodes : List ℤ} {i : ℤ}
    (hi : 0 ≤ i ∧ i < manager.hostCount) :
    Op.Ensures (AtHost i Exists) (manager.applyConfigs cacheNodes)
      (AtHost i (SaysMode fun v =>
        if i ∈ cacheNodes then v = some "2".toList else LowMode manager.publisherIds i v)) :=
  Op.Ensures.bind (applyCacheNodeSettings_mode _ _ hi) fun _ =>
    Op.Ensures.forEach fun idx _ => applyOverrides_keeps manager idx

omit [DecidableEq τ] [FloatFacts τ] in
theorem decided_keeps (p : CachePlacement τ) {P : ConfFiles → Prop} : Op.Ensures P p.decided P := by
  rw [CachePlacement.decided]
  cases p.decide with
  | ok nodes => exact Op.Ensures.pure nodes
  | error fault =>
    intro files _ a files' hrun
    cases hrun

end Result

/-- A publisher that waits for a cache it does not have, and a host that is to become one; both
    with a line that does not count and one too many. -/
def pairFiles : ConfFiles := fun idx name =>
  if name = "cefnetd.conf" then
    if idx = 0 then some (.text " CS_MODE = 2\nCS_MODE=0".toList)
    else if idx = 1 then some (.text "PORT_NUM=9695\r\n# CS_MODE=2\n".toList)
    else none
  else none

/-- Host 1 is the cache, by hand. -/
def pairCache : Mapping Rat := [("strategy", .str "manual"), ("nodes", .list [.dict [("id", .int 1)]])]

end Proof
end CeforeEmu
