import CeforeEmu.Lib.SchemePaths
import CeforeEmu.Proof.FleetLogs
import CeforeEmu.Proof.Validation

/-!
# The log files `start_all` opens

`validate_config` asks of an entry's `log` that a placeholder occurs in it, and `start_all` opens
what the path has become for each host, for truncation. Whether two launches get two files is decided
by the paths after `..` and `.` are followed, which the check does not look at.

The path of an entry is followed once, as a scheme whose holes are the host's name (`logTrail`), and
what is opened for a host is that trail with the name put in (`resolve_expand`). For two hosts of one
entry the trails go on together, so they come to one file exactly when they are the same and the
host's name is not in them any more (`logNames_eq_iff`). Two entries have nothing to do with each other,
and their trails are compared as they are.
-/

set_option autoImplicit false

namespace CeforeEmu
namespace Proof

open CeforeEmu.Lib CeforeEmu.Core CeforeEmu.Runtime
open CeforeEmu.Lib.Scheme (literal fill dirBlock downTo LeadsDown Foreign Aligned)

/-! ## The text of a host's directory -/

/-- A host's directory: the text above it, and the host's name. -/
def nodeDir (above : ℕ → List Char) (i : ℕ) : String :=
  String.ofList (above i ++ '/' :: (hostName i).toList)

theorem hostName_toList (i : ℕ) : (hostName i).toList = 'h' :: Nat.toDigits 10 i := by
  rw [hostName, String.toList_append]
  exact congrArg _ Nat.toList_repr

theorem not_mem_hostName {c : Char} (hc : c ≠ 'h') (hdigit : c.isDigit = false) (i : ℕ) :
    c ∉ (hostName i).toList := by
  rw [hostName_toList, List.mem_cons, not_or]
  refine ⟨hc, fun hmem => ?_⟩
  rw [Nat.isDigit_of_mem_toDigits (by decide) (by decide) hmem] at hdigit
  cases hdigit

theorem isSuffix_hostName (i : ℕ) : Path.IsSuffix (hostName i).toList := by
  refine ⟨not_mem_hostName (by decide) rfl i, 'h', ?_, by decide⟩
  rw [hostName_toList]
  exact List.mem_cons_self

theorem hostName_toList_ne {i j : ℕ} (h : i ≠ j) : (hostName i).toList ≠ (hostName j).toList :=
  fun heq => h (hostName_injective (String.toList_injective heq))

/-! ## Placeholders -/

/-- A placeholder as it is written. -/
def placeholder (name : String) : List Char := ("\x7b" ++ name ++ "\x7d").toList

theorem placeholder_eq (name : String) : placeholder name = '\x7b' :: name.toList ++ ['\x7d'] := by
  rw [placeholder, String.toList_append, String.toList_append]
  rfl

theorem placeholder_ne_nil (name : String) : literal (placeholder name) ≠ [] := by
  rw [placeholder_eq]
  exact List.cons_ne_nil _ _

/-- The names of hosts and the placeholders do not run into each other. -/
theorem foreign_placeholder {name : String} (h : 'h' ∉ placeholder name) (i : ℕ) :
    Foreign (hostName i).toList (placeholder name) where
  begins := ⟨'h', Nat.toDigits 10 i, hostName_toList i, h⟩
  opens := ⟨'\x7b', name.toList ++ ['\x7d'], placeholder_eq name, not_mem_hostName (by decide) rfl i⟩

/-! ## The log path with the host's name left open -/

/-- A directory with the host's name left open. -/
def dirScheme (above : List Char) : Scheme := literal above ++ [some '/', none]

/-- `_placeholder_context` with the host's name left open. -/
def schemeContext (above : List Char) (t0Ms : ℤ) : List (String × Scheme) :=
  [("node", [none]), ("node_dir", dirScheme above), ("cefore_conf_dir", dirScheme above),
    ("t0_ms", literal (toString t0Ms).toList)]

/-- `_expand` of a log path with the host's name left open. -/
def logScheme (above : List Char) (t0Ms : ℤ) (log : String) : Scheme :=
  (schemeContext above t0Ms).foldl
    (fun s kv => Scheme.replaceAll (literal (placeholder kv.1)) kv.2 0 s) (literal log.toList)

/-- Where the log path leads, with the host's name left open. -/
def logTrail (above : List Char) (t0Ms : ℤ) (cwd : Path.Trail) (log : String) : List Scheme :=
  Scheme.resolve cwd (logScheme above t0Ms log)

theorem fill_dirScheme (above : ℕ → List Char) (i : ℕ) :
    fill (hostName i).toList (dirScheme (above i)) = (nodeDir above i).toList := by
  rw [dirScheme, Scheme.fill_append, Scheme.fill_literal, nodeDir, String.toList_ofList]
  exact congrArg (fun name => above i ++ '/' :: name) (List.append_nil _)

theorem fill_hole (hole : List Char) : fill hole [none] = hole := List.append_nil hole

theorem strReplace_toList (text : String) (name new : String) :
    (strReplace text ("\x7b" ++ name ++ "\x7d") new).toList
      = replaceChars (placeholder name) new.toList 0 text.toList := by
  rw [strReplace, String.toList_ofList, placeholder]

/-- **What `_expand` does for a host** is what is done once, with the host's name put in. -/
theorem fill_logScheme (above : ℕ → List Char) (t0Ms : ℤ) (log : String) (i : ℕ) :
    fill (hostName i).toList (logScheme (above i) t0Ms log)
      = (expand log (placeholderContext i (nodeDir above i) (nodeDir above i) t0Ms)).toList := by
  have hforeign : ∀ name : String, 'h' ∉ placeholder name →
      Foreign (hostName i).toList (placeholder name) := fun _ h => foreign_placeholder h i
  simp only [logScheme, schemeContext, expand, placeholderContext, List.foldl_cons,
    List.foldl_nil, strReplace_toList]
  rw [Scheme.fill_replaceAll (hforeign "t0_ms" (by decide)),
    Scheme.fill_replaceAll (hforeign "cefore_conf_dir" (by decide)),
    Scheme.fill_replaceAll (hforeign "node_dir" (by decide)),
    Scheme.fill_replaceAll (hforeign "node" (by decide)), fill_hole, fill_dirScheme,
    Scheme.fill_literal, Scheme.fill_literal]

/-- **Where a host's log is**: the trail of the entry, with the host's name put in. -/
theorem resolve_expand (above : ℕ → List Char) (t0Ms : ℤ) (cwd : Path.Trail) (log : String)
    (i : ℕ) :
    Path.resolve cwd
        (expand log (placeholderContext i (nodeDir above i) (nodeDir above i) t0Ms)).toList
      = (logTrail (above i) t0Ms cwd log).map (fill (hostName i).toList) := by
  rw [← fill_logScheme, Scheme.resolve_fill (isSuffix_hostName i), logTrail]

/-! ## Two hosts of one entry -/

theorem isSuffix_toString (n : ℤ) : Path.IsSuffix (toString n).toList := by
  have hdigits : ∀ m : ℕ, Path.IsSuffix m.repr.toList := by
    intro m
    have hdigit : ∀ c ∈ m.repr.toList, c.isDigit = true := by
      intro c hc
      rw [Nat.toList_repr] at hc
      exact Nat.isDigit_of_mem_toDigits (by decide) (by decide) hc
    obtain ⟨c, rest, hcons⟩ : ∃ c rest, m.repr.toList = c :: rest := by
      rw [Nat.toList_repr]
      exact List.exists_cons_of_ne_nil Nat.toDigits_ne_nil
    have hc : c ∈ m.repr.toList := by
      rw [hcons]
      exact List.mem_cons_self
    refine ⟨fun hslash => absurd (hdigit _ hslash) (by decide), c, hc, ?_⟩
    rintro rfl
    exact absurd (hdigit _ hc) (by decide)
  cases n with
  | ofNat m => exact hdigits m
  | negSucc m =>
    have hminus : (toString (Int.negSucc m)).toList = '-' :: (m + 1).repr.toList :=
      String.toList_append
    rw [hminus]
    refine ⟨?_, '-', List.mem_cons_self, by decide⟩
    rw [List.mem_cons, not_or]
    exact ⟨by decide, (hdigits (m + 1)).noSlash⟩

/-- A canonical directory that is not itself expanded: `{cefore_conf_dir}` is replaced after
    `{node_dir}` has been put in. -/
structure PlainDir (above : List Char) : Prop where
  canonical : ∃ names, above = downTo names ∧ ∀ name ∈ names, LeadsDown name
  unspelled : ¬ placeholder "cefore_conf_dir" <:+: above

/-- The log paths of two hosts are the same but for the directories above the hosts' own. -/
theorem aligned_logScheme {above above' : List Char} (h : PlainDir above) (h' : PlainDir above')
    (t0Ms : ℤ) (log : String) : ∃ names names',
      (∀ name ∈ names, LeadsDown name) ∧ (∀ name ∈ names', LeadsDown name) ∧
      Aligned (dirBlock names) (dirBlock names') (logScheme above t0Ms log)
        (logScheme above' t0Ms log) := by
  obtain ⟨⟨names, rfl, hnames⟩, hspelled⟩ := h
  obtain ⟨⟨names', rfl, hnames'⟩, hspelled'⟩ := h'
  have hne : ∀ name, placeholder name ≠ [] := fun name h => by
    rw [placeholder_eq] at h
    cases h
  have hdir : ∀ ns, dirScheme (downTo ns) = dirBlock ns ++ [none] :=
    fun ns => (Scheme.dirBlock_append ns [none]).symm
  have hnew : ∀ {a b : Scheme}, Aligned (dirBlock names) (dirBlock names') a b →
      Aligned (dirBlock names) (dirBlock names') (dirScheme (downTo names) ++ a)
        (dirScheme (downTo names') ++ b) := by
    intro a b hab
    rw [hdir, hdir, List.append_assoc, List.append_assoc]
    exact .block (.cons none hab)
  have hstart : ∀ ns {word : List Char}, '/' ∉ word →
      ∃ x t, dirBlock ns = x :: t ∧ x ∉ literal word := by
    intro ns word hslash
    obtain ⟨t, ht⟩ := List.head?_eq_some_iff.mp (Scheme.dirBlock_head? ns)
    exact ⟨_, t, ht, Scheme.not_mem_literal hslash⟩
  -- a directory that does not spell the word stays as it is
  have hkept : ∀ {ns : List (List Char)} (new s : Scheme),
      ¬ placeholder "cefore_conf_dir" <:+: downTo ns →
      Scheme.replaceAll (literal (placeholder "cefore_conf_dir")) new 0 (dirBlock ns ++ s)
        = dirBlock ns
          ++ Scheme.replaceAll (literal (placeholder "cefore_conf_dir")) new 0 s := by
    intro ns new s hin
    rw [Scheme.replaceAll_dirBlock (hne _) (by decide),
      Scheme.replaceAll_of_not_infix (Scheme.not_literal_infix hin), Scheme.dirBlock_append]
  -- of the time only the names are changed that spell it
  have htime : ∀ (ns : List (List Char)) (digits : List Char) (s : Scheme),
      Scheme.replaceAll (literal (placeholder "t0_ms")) (literal digits) 0 (dirBlock ns ++ s)
        = dirBlock (ns.map (Scheme.replaceAll (placeholder "t0_ms") digits 0))
          ++ Scheme.replaceAll (literal (placeholder "t0_ms")) (literal digits) 0 s := by
    intro ns digits s
    have hnil := Scheme.replaceAll_downTo (hne "t0_ms") (by decide) digits ns []
    rw [Scheme.replaceAll_dirBlock (hne _) (by decide), Scheme.replaceAll_literal (hne _),
      Scheme.dirBlock_append]
    exact congrArg (fun text => literal text ++ _) hnil
  refine ⟨names.map (Scheme.replaceAll (placeholder "t0_ms") (toString t0Ms).toList 0),
    names'.map (Scheme.replaceAll (placeholder "t0_ms") (toString t0Ms).toList 0), ?_, ?_, ?_⟩
  · exact List.forall_mem_map.mpr fun name hname =>
      (hnames name hname).replaceAll (hne _) (by decide) (isSuffix_toString t0Ms)
  · exact List.forall_mem_map.mpr fun name hname =>
      (hnames' name hname).replaceAll (hne _) (by decide) (isSuffix_toString t0Ms)
  · have hdirs := Scheme.aligned_replaceAll_self (placeholder_ne_nil "node_dir") hnew
      (Scheme.replaceAll (literal (placeholder "node")) [none] 0 (literal log.toList))
    have hconf := hdirs.replaceAll (placeholder_ne_nil "cefore_conf_dir")
      (hstart names (by decide)) (hstart names' (by decide))
      (fun s => hkept (dirScheme (downTo names)) s hspelled)
      (fun s => hkept (dirScheme (downTo names')) s hspelled') hnew
    exact hconf.replaceAll (placeholder_ne_nil "t0_ms") (hstart names (by decide))
      (hstart names' (by decide)) (fun s => htime names _ s) (fun s => htime names' _ s)
      (fun hab => hab.append_left _)

/-- The names of the log of a host, from the root down. -/
def logNames (above : ℕ → List Char) (t0Ms : ℤ) (cwd : Path.Trail) (log : String) (i : ℕ) :
    Path.Trail :=
  (logTrail (above i) t0Ms cwd log).map (fill (hostName i).toList)

/-- **One file for two hosts**: the entry leads both to the same place, and their names are not in
    it. -/
theorem logNames_eq_iff {above : ℕ → List Char} {i j : ℕ} (hij : i ≠ j) (hi : PlainDir (above i))
    (hj : PlainDir (above j)) (t0Ms : ℤ) (cwd : Path.Trail) (log : String) :
    logNames above t0Ms cwd log i = logNames above t0Ms cwd log j ↔
      logTrail (above i) t0Ms cwd log = logTrail (above j) t0Ms cwd log ∧
        ∀ name ∈ logTrail (above i) t0Ms cwd log, none ∉ name := by
  constructor
  · intro heq
    obtain ⟨names, names', hnames, hnames', hab⟩ := aligned_logScheme hi hj t0Ms log
    exact Scheme.resolve_eq_of_fill_eq hnames hnames' (hostName_toList_ne hij) hab heq
  · rintro ⟨heq, hfree⟩
    rw [logNames, logNames, ← heq, Scheme.map_fill_congr hfree]

/-! ## The fleet of an accepted configuration -/

section Accepted

variable {τ : Type}

theorem texts_of_all {vs : List (Value τ)} (h : vs.all Value.isStr = true) :
    ∃ texts, vs.mapM textOf? = some texts := by
  have hread : ∀ v ∈ vs, ∃ s : String, textOf? v = some s ∧ True := by
    intro v hv
    obtain ⟨s, rfl⟩ := str_of_isStr (List.all_eq_true.mp h v hv)
    exact ⟨s, rfl, trivial⟩
  obtain ⟨texts, htexts, -⟩ := exists_mapM hread
  exact ⟨texts, htexts⟩

/-- A list of hosts that are in range. -/
theorem hosts_of_indexErrors {path : String} {n : ℤ} {vs : List (Value τ)}
    (hints : vs.all Value.isInt = true) (h : hostIndexErrors path (some n) vs = []) :
    ∃ hosts, vs.mapM hostIndex? = some hosts ∧ ∀ i ∈ hosts, i < n.toNat := by
  refine exists_mapM fun v hv => ?_
  have hrange := List.flatMap_eq_nil_iff.mp h v hv
  obtain ⟨m, rfl⟩ := int_of_isInt (List.all_eq_true.mp hints v hv)
  rw [ite_eq_right_iff] at hrange
  have hm : ¬ (m < 0 ∨ n ≤ m) := fun hout => by cases hrange hout
  have hpos : 0 ≤ m := by omega
  exact ⟨m.toNat, if_pos hpos, by omega⟩

variable [DecidableEq τ]

theorem hosts_of_checked {entry : Mapping τ} {path : String} {n : ℤ}
    (h : (hostAppHostsErrors (some n) entry path).1 = []) :
    ∃ hosts, (entry.get? "hosts").bind HostsSpec.ofValue? = some hosts ∧
      ∀ i ∈ resolveHosts hosts n.toNat, i < n.toNat := by
  rw [hostAppHostsErrors] at h
  cases hv : entry.get? "hosts" with
  | none => simp [hv] at h
  | some v =>
    simp only [hv] at h
    cases v with
    | list vs =>
      dsimp only at h
      split at h
      · rename_i hints
        obtain ⟨hosts, hread, hrange⟩ := hosts_of_indexErrors hints h
        exact ⟨.list hosts, by simp [HostsSpec.ofValue?, hread], hrange⟩
      · cases h
    | str s =>
      have hall : s = "all" := by
        by_contra hne
        simp [Value.isOneOf, hne] at h
      refine ⟨.all, by simp [HostsSpec.ofValue?, hall], fun i hi => List.mem_range.mp hi⟩
    | _ => simp [Value.isOneOf] at h

theorem argv_of_checked {entry : Mapping τ} {missing msg : String}
    (h : requiredErrors entry "argv" missing isArgv msg = []) :
    ∃ argv, (entry.get? "argv").bind argvOf? = some argv := by
  rw [requiredErrors] at h
  cases hv : entry.get? "argv" with
  | none => simp [hv] at h
  | some v =>
    simp only [hv] at h
    split at h
    · rename_i hok
      cases v with
      | list vs =>
        rw [isArgv, Bool.and_eq_true] at hok
        exact texts_of_all hok.2
      | _ => cases hok
    · cases h

theorem optionalText_of_checked {entry : Mapping τ} {field : String}
    (h : ∀ v, entry.get? field = some v → v.isStr = true) :
    ∃ text, optionalText? entry field = some text := by
  rw [optionalText?]
  cases hv : entry.get? field with
  | none => exact ⟨none, rfl⟩
  | some v =>
    obtain ⟨s, rfl⟩ := str_of_isStr (h v hv)
    exact ⟨some s, rfl⟩

theorem isStr_of_logErrors {multiHost : Bool} {entry : Mapping τ} {path : String}
    (h : hostAppLogErrors multiHost entry path = []) {v : Value τ}
    (hv : entry.get? "log" = some v) : v.isStr = true := by
  cases v with
  | str s => rfl
  | _ => simp [hostAppLogErrors, hv] at h

theorem env_of_checked [FloatFacts τ] {entry : Mapping τ} {path : String}
    (h : hostAppEnvErrors entry path = []) : ∃ env, envOf? entry = some env := by
  rw [hostAppEnvErrors] at h
  rw [envOf?]
  cases hv : entry.get? "env" with
  | none => exact ⟨[], rfl⟩
  | some v =>
    simp only [hv] at h
    cases v with
    | dict env =>
      dsimp only at h
      split at h
      · cases h
      · rename_i htext
        rw [not_not, Value.isTextDict] at htext
        refine (exists_mapM (P := fun _ => True) fun e he => ?_).imp fun pairs h => h.1
        have hentry := List.all_eq_true.mp htext e he
        obtain ⟨key, value⟩ := e
        cases key with
        | str key =>
          cases value with
          | str value => exact ⟨(key, value), rfl, trivial⟩
          | _ => cases hentry
        | _ => cases hentry
    | _ => cases h

variable [IntCast τ] [LT τ] [DecidableLT τ] [LE τ] [DecidableLE τ] [FloatFacts τ]

/-- **The entries of an accepted configuration** can be read, and their hosts are hosts. -/
theorem specs_of_accepted {ip : IpTexts} {config : Mapping τ} {n : ℤ}
    (h : validateConfig ip config = .ok []) (hn : config.get? "hosts" = some (.int n)) :
    ∃ specs, hostAppsConfig? config = some specs ∧
      ∀ spec ∈ specs, ∀ i ∈ resolveHosts spec.hosts n.toNat, i < n.toNat := by
  have happs := (clean_of_validate h).2.2
  rw [hostAppsConfig?]
  cases hv : config.get? "host_apps" with
  | none => exact ⟨[], rfl, by simp⟩
  | some v =>
    obtain ⟨entries, rfl, hentries⟩ := entries_of_listKeyErrors happs hv
    refine exists_mapM fun v hv => ?_
    obtain ⟨entry, path, rfl, hrules⟩ := hentries v hv
    have hknown : knownHosts config = some n := by
      rw [knownHosts, hn]
    simp only [List.append_eq_nil_iff, hknown] at hrules
    obtain ⟨⟨⟨⟨⟨-, hhosts⟩, hargv⟩, hcwd⟩, hlog⟩, henv⟩ := hrules
    obtain ⟨hosts, hhosts, hrange⟩ := hosts_of_checked hhosts
    obtain ⟨argv, hargv⟩ := argv_of_checked hargv
    obtain ⟨env, henv⟩ := env_of_checked henv
    obtain ⟨cwd, hcwd⟩ := optionalText_of_checked fun v hv => fieldErrors_nil hcwd hv
    obtain ⟨log, hlog⟩ := optionalText_of_checked fun v hv => isStr_of_logErrors hlog hv
    refine ⟨⟨hosts, argv, env, cwd, log⟩, ?_, hrange⟩
    simp only [AppSpec.ofValue?, AppSpec.ofEntry?, hhosts, hargv, henv, hcwd, hlog]
    rfl

end Accepted

/-! ## The plan -/

section Plan

variable (above : ℕ → List Char) (t0Ms : ℤ)

/-- An entry expanded for a host. -/
def expandedFor (spec : AppSpec) (i : ℕ) : Expanded :=
  let ctx := placeholderContext i (nodeDir above i) (nodeDir above i) t0Ms
  let argv := spec.argv.map (expand · ctx)
  let env := spec.env.map fun kv => (kv.1, expand kv.2 ctx)
  { idx := i
    argv := if env.isEmpty then argv else envArgvPrefix env ++ argv
    cwd := spec.cwd.map (expand · ctx)
    log := spec.log.map (expand · ctx) }

theorem mapM_ok {α β ε : Type} {f : α → Except ε β} {g : α → β} :
    ∀ {vs : List α}, (∀ v ∈ vs, f v = .ok (g v)) → vs.mapM f = .ok (vs.map g)
  | [], _ => rfl
  | v :: vs, h => by
    obtain ⟨hv, hvs⟩ := List.forall_mem_cons.mp h
    rw [List.mapM_cons, hv, mapM_ok hvs]
    rfl

theorem new_of_ok {cfg : FleetConfig} {plan : List Expanded} (h : expandAll cfg = .ok plan) :
    ∃ fleet, HostAppFleet.new cfg = .ok fleet ∧ fleet.plan = plan := by
  rw [HostAppFleet.new]
  split
  · rename_i plan' h'
    rw [h] at h'
    cases h'
    exact ⟨_, rfl, rfl⟩
  · rename_i err h'
    rw [h] at h'
    cases h'

/-- **The fleet exists** where the hosts of its entries are hosts: no lookup of a directory raises. -/
theorem build_plan {specs : List AppSpec} {n : ℕ}
    (h : ∀ spec ∈ specs, ∀ i ∈ resolveHosts spec.hosts n, i < n) (realpath : String → String) :
    ∃ fleet, buildHostAppFleet n specs t0Ms (nodeDir above) realpath = .ok fleet ∧
      fleet.plan = specs.flatMap fun spec =>
        (resolveHosts spec.hosts n).map (expandedFor above t0Ms spec) := by
  refine new_of_ok ?_
  have hget : ∀ i < n, Dict.get? ((List.range n).map fun idx => (idx, nodeDir above idx)) i
      = some (nodeDir above i) := by
    intro i hi
    rw [Dict.get?_map_keys, if_pos (List.mem_range.mpr hi)]
  have hpairs : ∀ pair ∈ specs.flatMap fun spec => (resolveHosts spec.hosts n).map (spec, ·),
      pair.2 < n := by
    intro pair hpair
    obtain ⟨spec, hspec, hpair⟩ := List.mem_flatMap.mp hpair
    obtain ⟨i, hi, rfl⟩ := List.mem_map.mp hpair
    exact h spec hspec i hi
  rw [expandAll]
  refine (mapM_ok (g := fun pair => expandedFor above t0Ms pair.1 pair.2) ?_).trans ?_
  · intro pair hpair
    simp only [expandLaunch, hget _ (hpairs pair hpair)]
    rfl
  · rw [List.map_flatMap]
    simp only [List.map_map]
    rfl

end Plan

/-! ## Launches and their files -/

/-- No two launches open one file. -/
def SeparateLogs (realpath : String → String) (launches : List Expanded) : Prop :=
  launches.Pairwise fun a b => ∀ log ∈ a.log, ∀ log' ∈ b.log, realpath log ≠ realpath log'

theorem separateLogs_iff_nodup (realpath : String → String) (launches : List Expanded) :
    SeparateLogs realpath launches ↔
      (launches.filterMap fun e => e.log.map realpath).Nodup := by
  rw [SeparateLogs, List.nodup_iff_pairwise_ne, List.pairwise_filterMap]
  simp only [Option.mem_def, Option.map_eq_some_iff, forall_exists_index, and_imp,
    forall_apply_eq_imp_iff₂]

/-- What the theorem below shows to be left to the author of a configuration: the hosts of an entry
    are told apart by what is left of its log path once `..` is followed, and the entries by their
    log paths. -/
structure LogsKeptApart (above : ℕ → List Char) (t0Ms : ℤ) (cwd : Path.Trail) (hostCount : ℕ)
    (specs : List AppSpec) : Prop where
  /-- No host is listed twice. -/
  once : ∀ spec ∈ specs, spec.log.isSome = true → (resolveHosts spec.hosts hostCount).Nodup
  /-- A log that leads two hosts to one place still has the host's name in it. -/
  named : ∀ spec ∈ specs, ∀ log ∈ spec.log, ∀ i ∈ resolveHosts spec.hosts hostCount,
    ∀ j ∈ resolveHosts spec.hosts hostCount, i ≠ j → PlainDir (above i) → PlainDir (above j) →
      logTrail (above i) t0Ms cwd log = logTrail (above j) t0Ms cwd log →
        ∃ name ∈ logTrail (above i) t0Ms cwd log, none ∈ name
  /-- Under directories that are not canonical, or are themselves expanded, the names are compared. -/
  odd : ∀ spec ∈ specs, ∀ log ∈ spec.log, ∀ i ∈ resolveHosts spec.hosts hostCount,
    ∀ j ∈ resolveHosts spec.hosts hostCount, i ≠ j → ¬ (PlainDir (above i) ∧ PlainDir (above j)) →
      logNames above t0Ms cwd log i ≠ logNames above t0Ms cwd log j
  /-- Two entries write to different places. -/
  entries : specs.Pairwise fun spec spec' => ∀ log ∈ spec.log, ∀ log' ∈ spec'.log,
    ∀ i ∈ resolveHosts spec.hosts hostCount, ∀ j ∈ resolveHosts spec'.hosts hostCount,
      logNames above t0Ms cwd log i ≠ logNames above t0Ms cwd log' j

/-- A list without repetition on which a function is injective. -/
theorem pairwise_ne_iff {α β : Type} {f : α → β} {l : List α} :
    l.Pairwise (fun a b => ¬ f a = f b) ↔
      l.Nodup ∧ ∀ a ∈ l, ∀ b ∈ l, a ≠ b → ¬ f a = f b := by
  have hmap : l.Pairwise (fun a b => ¬ f a = f b) ↔ (l.map f).Nodup := by
    rw [List.nodup_iff_pairwise_ne, List.pairwise_map]
  rw [hmap]
  constructor
  · intro h
    have hl := List.Nodup.of_map f h
    exact ⟨hl, fun a ha b hb hab heq => hab ((List.nodup_map_iff_inj_on hl).mp h a ha b hb heq)⟩
  · rintro ⟨hl, hinj⟩
    refine (List.nodup_map_iff_inj_on hl).mpr fun a ha b hb heq => ?_
    by_contra hab
    exact hinj a ha b hb hab heq

section Separate

variable {above : ℕ → List Char} {t0Ms : ℤ} {cwd : String}

theorem realpath_expand_iff (log log' : String) (i j : ℕ) :
    Path.realpath cwd (expand log (placeholderContext i (nodeDir above i) (nodeDir above i) t0Ms))
        = Path.realpath cwd
            (expand log' (placeholderContext j (nodeDir above j) (nodeDir above j) t0Ms)) ↔
      logNames above t0Ms (Path.resolve [] cwd.toList) log i
        = logNames above t0Ms (Path.resolve [] cwd.toList) log' j := by
  have hclean : Path.Clean (Path.resolve [] cwd.toList) :=
    Path.clean_resolve (fun n hn => by cases hn) _
  rw [logNames, logNames, ← resolve_expand, ← resolve_expand]
  constructor
  · exact fun h => Path.render_inj (Path.clean_resolve hclean _) (Path.clean_resolve hclean _) h
  · exact fun h => congrArg Path.render h

/-- The launches of one entry. -/
theorem separateLogs_map_iff (spec : AppSpec) (hosts : List ℕ) :
    SeparateLogs (Path.realpath cwd) (hosts.map (expandedFor above t0Ms spec)) ↔
      ∀ log ∈ spec.log, hosts.Nodup ∧ ∀ i ∈ hosts, ∀ j ∈ hosts, i ≠ j →
        logNames above t0Ms (Path.resolve [] cwd.toList) log i
          ≠ logNames above t0Ms (Path.resolve [] cwd.toList) log j := by
  rw [SeparateLogs, List.pairwise_map]
  cases hlog : spec.log with
  | none =>
    refine iff_of_true ?_ fun log h => by cases h
    have hnone : ∀ i, (expandedFor above t0Ms spec i).log = none := fun i => by
      rw [expandedFor, hlog]
      rfl
    refine List.pairwise_of_forall fun i j log h => ?_
    rw [hnone] at h
    cases h
  | some log =>
    simp only [expandedFor, hlog, Option.map_some, Option.mem_def, Option.some.injEq,
      forall_eq', Ne, realpath_expand_iff]
    exact pairwise_ne_iff

/-- Two hosts of an entry, under directories of either kind. -/
theorem logNames_ne_iff {i j : ℕ} (hij : i ≠ j) (cwd : Path.Trail) (log : String) :
    logNames above t0Ms cwd log i ≠ logNames above t0Ms cwd log j ↔
      (PlainDir (above i) → PlainDir (above j) →
        logTrail (above i) t0Ms cwd log = logTrail (above j) t0Ms cwd log →
          ∃ name ∈ logTrail (above i) t0Ms cwd log, none ∈ name) ∧
      (¬ (PlainDir (above i) ∧ PlainDir (above j)) →
        logNames above t0Ms cwd log i ≠ logNames above t0Ms cwd log j) := by
  by_cases hplain : PlainDir (above i) ∧ PlainDir (above j)
  · rw [Ne, logNames_eq_iff hij hplain.1 hplain.2]
    constructor
    · intro h
      refine ⟨fun _ _ heq => ?_, fun hodd => absurd hplain hodd⟩
      by_contra hfree
      exact h ⟨heq, fun name hname hnone => hfree ⟨name, hname, hnone⟩⟩
    · rintro ⟨hnamed, -⟩ ⟨heq, hfree⟩
      obtain ⟨name, hname, hnone⟩ := hnamed hplain.1 hplain.2 heq
      exact hfree name hname hnone
  · exact ⟨fun h => ⟨fun hi hj => absurd ⟨hi, hj⟩ hplain, fun _ => h⟩, fun h => h.2 hplain⟩

theorem separateLogs_plan_iff (specs : List AppSpec) (n : ℕ) :
    SeparateLogs (Path.realpath cwd)
        (specs.flatMap fun spec => (resolveHosts spec.hosts n).map (expandedFor above t0Ms spec)) ↔
      LogsKeptApart above t0Ms (Path.resolve [] cwd.toList) n specs := by
  have hentries : ∀ spec spec' : AppSpec,
      (∀ a ∈ (resolveHosts spec.hosts n).map (expandedFor above t0Ms spec),
        ∀ b ∈ (resolveHosts spec'.hosts n).map (expandedFor above t0Ms spec'),
          ∀ log ∈ a.log, ∀ log' ∈ b.log, Path.realpath cwd log ≠ Path.realpath cwd log') ↔
      ∀ log ∈ spec.log, ∀ log' ∈ spec'.log, ∀ i ∈ resolveHosts spec.hosts n,
        ∀ j ∈ resolveHosts spec'.hosts n,
          logNames above t0Ms (Path.resolve [] cwd.toList) log i
            ≠ logNames above t0Ms (Path.resolve [] cwd.toList) log' j := by
    intro spec spec'
    simp only [List.forall_mem_map, expandedFor, Option.mem_def, Option.map_eq_some_iff,
      forall_exists_index, and_imp, forall_apply_eq_imp_iff₂, Ne, realpath_expand_iff]
    exact ⟨fun h log hlog log' hlog' i hi j hj => h i hi j hj log hlog log' hlog',
      fun h i hi j hj log hlog log' hlog' => h log hlog log' hlog' i hi j hj⟩
  rw [SeparateLogs, List.pairwise_flatMap]
  simp only [hentries]
  constructor
  · rintro ⟨hwithin, hacross⟩
    have hspec := fun spec hspec => (separateLogs_map_iff spec _).mp (hwithin spec hspec)
    have hhosts := fun spec hmem log hlog i hi j hj hij =>
      (logNames_ne_iff hij _ log).mp ((hspec spec hmem log hlog).2 i hi j hj hij)
    refine ⟨fun spec hmem hlog => ?_, ?_, ?_, hacross⟩
    · obtain ⟨log, hlog⟩ := Option.isSome_iff_exists.mp hlog
      exact (hspec spec hmem log hlog).1
    · exact fun spec hmem log hlog i hi j hj hij => (hhosts spec hmem log hlog i hi j hj hij).1
    · exact fun spec hmem log hlog i hi j hj hij => (hhosts spec hmem log hlog i hi j hj hij).2
  · rintro ⟨honce, hnamed, hodd, hacross⟩
    refine ⟨fun spec hmem => (separateLogs_map_iff spec _).mpr fun log hlog => ⟨?_, ?_⟩, hacross⟩
    · exact honce spec hmem (Option.isSome_iff_exists.mpr ⟨log, hlog⟩)
    · intro i hi j hj hij
      exact (logNames_ne_iff hij _ log).mpr
        ⟨hnamed spec hmem log hlog i hi j hj hij, hodd spec hmem log hlog i hi j hj hij⟩

/-- Some of the starts may fail; what is launched is a beginning of the plan. -/
theorem launched_prefix :
    ∀ (todo : List (Expanded × ℕ)) (answers : List Bool) (handle : ℕ),
      (launched todo answers handle).map (·.toExpanded) <+: todo.map (·.1)
  | [], _, _ => List.prefix_rfl
  | (e, life) :: rest, answers, handle => by
    rw [launched, List.map_cons]
    split
    · rw [List.map_cons, List.cons_prefix_cons]
      exact ⟨rfl, launched_prefix rest answers.tail (handle + 1)⟩
    · exact List.nil_prefix

theorem startAll_launches (fleet : HostAppFleet) (answers : List Bool) :
    (startAll fleet answers).1.launches = launched (fleet.plan.map (·, 1)) answers 0 :=
  startEach_launches _ answers .init

theorem plan_map (plan : List Expanded) : (plan.map fun e => (e, 1)).map (·.1) = plan := by
  rw [List.map_map]
  exact List.map_id _

/-- When no start fails the whole plan is launched. -/
theorem startAll_plan (fleet : HostAppFleet) :
    (startAll fleet []).1.launches.map (·.toExpanded) = fleet.plan := by
  rw [startAll_launches, launched_of_allSucceed, plan_map]
  exact fun i _ hfail => by cases hfail

theorem separateLogs_startAll_iff (realpath : String → String) (fleet : HostAppFleet) :
    (∀ answers, SeparateLogs realpath ((startAll fleet answers).1.launches.map (·.toExpanded))) ↔
      SeparateLogs realpath fleet.plan := by
  constructor
  · intro h
    rw [← startAll_plan]
    exact h []
  · intro h answers
    have hpre := launched_prefix (fleet.plan.map (·, 1)) answers 0
    rw [plan_map] at hpre
    rw [startAll_launches]
    exact List.Pairwise.sublist hpre.sublist h

end Separate

section Claim

variable {τ : Type} [IntCast τ] [DecidableEq τ] [LT τ] [DecidableLT τ] [LE τ] [DecidableLE τ]
  [FloatFacts τ]

end Claim

/-- One application on every host, with its log at a path. -/
def oneAppConfig (log : String) : Mapping Rat :=
  [("hosts", .int 3), ("host_apps", .list [.dict [("hosts", .str "all"),
    ("argv", .list [.str "app"]), ("log", .str log)]])]

def oneAppSpecs (log : String) : List AppSpec := [⟨.all, ["app"], [], none, some log⟩]

def climbingLog : String := "\x7bnode\x7d/../app.log"

end Proof
end CeforeEmu
