import CeforeEmu.Core.Artifacts
import CeforeEmu.Lib.Matches
import CeforeEmu.Proof.FiredEvents
import CeforeEmu.Runtime.ContentOps

/-!
# Logs are found again by their names

The name of a content operation's log is read back by a regular expression when the logs are
summarised. The command, the phase and the host are always found again: none of them can hold the
separator they end at. The label is whatever the URI leaves, and it is found again unless it is
empty, which is so for a URI of nothing but `ccnx:/`, or has a line feed in it, which the dot of the
expression does not match. The rule against the empty label stands at one of the five operations.
-/

set_option autoImplicit false

namespace CeforeEmu
namespace Proof

open CeforeEmu.Lib CeforeEmu.Core CeforeEmu.Runtime

/-! ## Labels -/

/-- A URI of copies of `ccnx:/` alone, or of nothing. -/
def RootOnly (uri : String) : Prop :=
  ∃ n, uri.toList = (List.replicate n "ccnx:/".toList).flatten

theorem safeUriLabel_eq_nil_iff (uri : String) : (safeUriLabel uri).toList = [] ↔ RootOnly uri := by
  have hroot : "ccnx:/".toList ≠ [] := by decide
  rw [safeUriLabel, strReplace, String.toList_ofList, replaceChars_eq_nil_iff (by decide),
    strReplace, String.toList_ofList, String.toList_empty,
    replaceChars_nil_eq_nil_iff hroot, List.drop_zero]
  rfl

theorem newline_mem_safeUriLabel (uri : String) :
    '\n' ∈ (safeUriLabel uri).toList ↔ '\n' ∈ uri.toList := by
  rw [safeUriLabel, strReplace, String.toList_ofList,
    mem_replaceChars (by decide) (by decide) (by decide), List.drop_zero, strReplace,
    String.toList_ofList, mem_replaceChars (by decide) (by decide) (by decide), List.drop_zero]

/-! ## Names -/

/-- The phases a runner is made for. -/
def contentPhases : List String := ["event", "eval", "warmup"]

theorem oneOf_command (op : ContentOp) (rest : Text) :
    Pattern.oneOf ["cefputfile", "cefgetfile", "cefpubfile", "cefsubfile", "ccninfo"]
      (op.command.toList ++ rest) = [(op.command, rest)] := by
  cases op <;> rfl

theorem contentLogName_toList (cmd phase : String) (host : ℕ) (uri : String) :
    (contentLogName cmd phase host uri).toList = cmd.toList ++ ("_".toList ++ (phase.toList ++
      ("_h".toList ++ (Nat.toDigits 10 host ++ ("_".toList ++
        ((safeUriLabel uri).toList ++ ".log".toList)))))) := by
  simp only [contentLogName, String.toList_append, List.append_assoc, Nat.toString_eq_repr,
    Nat.toList_repr]

theorem isDigit_of_mem_toDigits {host : ℕ} {c : Char} (hc : c ∈ Nat.toDigits 10 host) :
    Text.isDigit c = true := by
  have hascii := Nat.isDigit_of_mem_toDigits (by decide) (by decide) hc
  rw [Text.isDigit, Text.digit?_of_ascii hascii]
  rfl

/-- **The fields of a name.** The expression has at most one way to match a name: the one in which
    each field is what it was made of. -/
theorem mem_contentLogPattern (op : ContentOp) {phase : String} (hphase : phase ∈ contentPhases)
    (host : ℕ) (uri : String) (m : (String × Text × Text × Text) × Text) :
    m ∈ contentLogPattern (contentLogName op.command phase host uri).toList ↔
      m = ((op.command, phase.toList, Nat.toDigits 10 host, (safeUriLabel uri).toList), []) ∧
        (safeUriLabel uri).toList ≠ [] ∧ ∀ c ∈ (safeUriLabel uri).toList, Pattern.dot c = true := by
  have hletters : phase.toList ≠ [] ∧ ∀ c ∈ phase.toList, decide ('a' ≤ c ∧ c ≤ 'z') = true := by
    have hall : (contentPhases.all fun phase => !phase.toList.isEmpty &&
        phase.toList.all fun c => decide ('a' ≤ c ∧ c ≤ 'z')) = true := rfl
    have hone := List.all_eq_true.mp hall phase hphase
    rw [Bool.and_eq_true, Bool.not_eq_true', List.isEmpty_eq_false_iff] at hone
    exact ⟨hone.1, List.all_eq_true.mp hone.2⟩
  rw [contentLogName_toList, contentLogPattern, Pattern.bind_single (oneOf_command op _),
    Pattern.bind_single (Pattern.lit_append "_" _)]
  -- a phase ends at its separator, and so does a host
  rw [Pattern.some_bind hletters.1 hletters.2, Pattern.bind_single (Pattern.lit_append "_h" _),
    Pattern.some_bind Nat.toDigits_ne_nil (fun c hc => isDigit_of_mem_toDigits hc),
    Pattern.bind_single (Pattern.lit_append "_" _)]
  · exact Pattern.mem_some_lit_atEnd (by decide) (by decide) _ m
  · intro c hc
    cases hc
    rfl
  · intro w c cs hc
    refine Pattern.lit_bind_of_ne rfl ?_ _ cs
    rintro rfl
    cases hc
  · intro c hc
    cases hc
    rfl
  · intro w c cs hc
    refine Pattern.lit_bind_of_ne rfl ?_ _ cs
    rintro rfl
    cases hc

/-- **A name is read back** as what it was made of exactly when there is a label to read, and in
    one line. -/
theorem parseContentLogName_iff (op : ContentOp) {phase : String} (hphase : phase ∈ contentPhases)
    (host : ℕ) (uri : String) :
    parseContentLogName (contentLogName op.command phase host uri) =
        some ⟨op.command, phase, host, safeUriLabel uri⟩ ↔
      ¬ RootOnly uri ∧ '\n' ∉ uri.toList := by
  have hlabel : ((safeUriLabel uri).toList ≠ [] ∧
      ∀ c ∈ (safeUriLabel uri).toList, Pattern.dot c = true) ↔
      ¬ RootOnly uri ∧ '\n' ∉ uri.toList := by
    rw [← safeUriLabel_eq_nil_iff, ← newline_mem_safeUriLabel]
    simp only [Pattern.dot, decide_eq_true_eq, ne_eq]
    refine and_congr_right fun _ => ⟨fun h hmem => h _ hmem rfl, ?_⟩
    rintro h c hc rfl
    exact h hc
  have hmatch := Pattern.matchStart_of_mem (mem_contentLogPattern op hphase host uri)
  rw [← hlabel]
  constructor
  · intro h
    cases hm : contentLogPattern.matchStart (contentLogName op.command phase host uri).toList with
    | none =>
      rw [parseContentLogName, hm] at h
      cases h
    | some found => exact ((hmatch found).mp hm).2
  · intro h
    rw [parseContentLogName, (hmatch _).mpr ⟨rfl, h⟩]
    simp only [Option.bind_some, Text.digitsFrom_toDigits, Option.map_some, String.ofList_toList]

/-! ## The names of accepted events -/

section Accepted

variable {τ : Type} [IntCast τ] [DecidableEq τ] [LT τ] [DecidableLT τ] [LE τ] [DecidableLE τ]
  [FloatFacts τ]

/-- An accepted content event has a URI, which is a text. -/
theorem uri_of_accepted {ctx : EventCheckContext τ} {event : Event τ} {path : String}
    (op : ContentOp) (h : AcceptedAs (eventChecks ctx) op.eventType event path) :
    ∃ uri, event.get? "uri" = some (.str uri) := by
  have hrules := h.rules
  rw [typeErrors, List.append_eq_nil_iff, List.append_eq_nil_iff] at hrules
  have hfields := hrules.1.1
  have htext : ∀ {t : String}, "uri" ∈ requiredFields t → requiredFieldErrors t event path = [] →
      uriTextErrors event path = [] → ∃ uri, event.get? "uri" = some (.str uri) := by
    intro t hmem hreq huri
    obtain ⟨v, hv⟩ := Option.isSome_iff_exists.mp (requiredFieldErrors_nil hreq "uri" hmem)
    obtain ⟨uri, rfl⟩ := str_of_isStr (fieldErrors_nil huri hv)
    exact ⟨uri, hv⟩
  have hpub : ∀ {t : String}, "uri" ∈ requiredFields t →
      publicationEventErrors ctx t event path = [] →
      ∃ uri, event.get? "uri" = some (.str uri) := by
    intro t hmem hnil
    simp only [publicationEventErrors, List.append_eq_nil_iff] at hnil
    exact htext hmem hnil.1.1.1.1 hnil.1.1.2
  have hget : ∀ {t : String}, "uri" ∈ requiredFields t → getEventErrors t event path = [] →
      ∃ uri, event.get? "uri" = some (.str uri) := by
    intro t hmem hnil
    simp only [getEventErrors, List.append_eq_nil_iff] at hnil
    exact htext hmem hnil.1.1.1 hnil.1.2
  cases op with
  | put => exact hpub (by decide) hfields
  | get => exact hget (by decide) hfields
  | pubsubSub => exact hget (by decide) hfields
  | pubsubPub => exact hpub (by decide) hfields
  | ccninfo =>
    have hnil : ccninfoEventErrors event path = [] := hfields
    simp only [ccninfoEventErrors, List.append_eq_nil_iff] at hnil
    obtain ⟨v, hv⟩ :=
      Option.isSome_iff_exists.mp (requiredFieldErrors_nil hnil.1.1.1.1.1.1 "uri" (by decide))
    have huri := hnil.1.1.1.2
    rw [ccninfoUriErrors, hv] at huri
    cases v with
    | str uri => exact ⟨uri, hv⟩
    | _ => cases huri

/-- **Log names round-trip unless the URI is only roots or has a line feed.** For every content
    event of a configuration that `validate_config` has nothing against, in every phase and on
    every host: the name of its log is read back as its command, its phase, its host and the label
    of its URI exactly when the URI is not made of `ccnx:/` alone and has no line feed. -/
theorem log_name_found_iff {ip : IpTexts} {config : Mapping τ} {vs : List (Value τ)}
    (hvalid : validateConfig ip config = .ok []) (hevents : config.get? "events" = some (.list vs))
    {event : Event τ} (hmem : .dict event ∈ vs) (op : ContentOp)
    (htype : event.get? "type" = some (.str op.eventType)) :
    ∃ uri, event.get? "uri" = some (.str uri) ∧
      ∀ phase ∈ contentPhases, ∀ host : ℕ,
        (parseContentLogName (contentLogName op.command phase host uri) =
            some ⟨op.command, phase, host, safeUriLabel uri⟩ ↔
          ¬ RootOnly uri ∧ '\n' ∉ uri.toList) := by
  obtain ⟨events, heq, hacc⟩ := (passes_of_validate hvalid).events_accepted hevents
  cases heq
  obtain ⟨e, he, heq⟩ := List.mem_map.mp hmem
  cases heq
  obtain ⟨i, hi⟩ := hacc event he
  obtain ⟨t, ht⟩ := accepted_self hi
  have hsame : t = op.eventType := Value.str.inj (Option.some.inj (ht.type.symm.trans htype))
  obtain ⟨uri, huri⟩ := uri_of_accepted op (hsame ▸ ht)
  exact ⟨uri, huri, fun phase hphase host => parseContentLogName_iff op hphase host uri⟩

end Accepted

/-- A put of the root. -/
def rootPutConfig : Mapping Rat :=
  [("hosts", .int 3),
    ("events", .list [.dict [("at", .int 1), ("type", .str "put"), ("host", .int 0),
      ("uri", .str "ccnx:/"), ("file", .str "./sample-putfile")]])]

/-- A put, whose log has a name. -/
def namedPutConfig : Mapping Rat :=
  [("hosts", .int 3),
    ("events", .list [.dict [("at", .int 1), ("type", .str "put"), ("host", .int 0),
      ("uri", .str "ccnx:/a/b_c"), ("file", .str "./sample-putfile")]])]

theorem log_name_found_named :
    ∃ uri, parseContentLogName (contentLogName "cefputfile" "warmup" 10 uri) =
      some ⟨"cefputfile", "warmup", 10, "a_b_c"⟩ ∧ uri = "ccnx:/a/b_c" := by
  have hvalid : validateConfig ⟨fun _ => true, fun _ => some 16⟩ namedPutConfig = .ok [] := rfl
  obtain ⟨uri, huri, h⟩ := log_name_found_iff hvalid rfl (List.mem_singleton_self _) .put rfl
  cases huri
  refine ⟨_, (h "warmup" (by decide) 10).mpr ⟨?_, by decide⟩, rfl⟩
  rw [← safeUriLabel_eq_nil_iff]
  decide

/-- The log of an accepted put is not found by its name. -/
theorem root_put_lost :
    validateConfig ⟨fun _ => true, fun _ => some 16⟩ rootPutConfig = .ok [] ∧
      contentLogName "cefputfile" "event" 0 "ccnx:/" = "cefputfile_event_h0_.log" ∧
      parseContentLogName (contentLogName "cefputfile" "event" 0 "ccnx:/") = none := by
  refine ⟨rfl, rfl, ?_⟩
  decide

end Proof
end CeforeEmu
