import CeforeEmu.Core.EventRules
import CeforeEmu.Runtime.Scheduler

/-!
# Events the validator accepts

What `_validate_events` having nothing against an event says about it, whatever the rules of the
types are: its type is known and the rules of that type found nothing (`accepted_self`), and the
same is true of the event it restores to, if it has one (`accepted_restore`). The two are judged
on different paths, and an event can be kept from restoring in two ways: the types on the repeat
allowlist have no restore form at all, and no other may restore to one of them.
-/

set_option autoImplicit false

namespace CeforeEmu
namespace Proof

open CeforeEmu.Lib CeforeEmu.Core CeforeEmu.Runtime

theorem handled_of_eventType {t : String} (h : eventTypes.contains t = true) :
    eventHandlers.contains t = true := by
  have hsub : ∀ t ∈ eventTypes, t ∈ eventHandlers := by decide
  simp only [List.contains_iff_mem] at h ⊢
  exact hsub t h

/-! ## Restore events -/

section Restore

variable {τ : Type} [DecidableEq τ] {e r : Event τ} {rep rep' : Mapping τ}

theorem buildRestoreEvent_none (hrep : e.get? "repeat" = some (.dict rep))
    (hrestore : rep.get? "restore" = none) (htype : rep.get? "restore_type" = none) :
    buildRestoreEvent e = .ok none := by
  simp only [buildRestoreEvent, hrep, hrestore, htype]

/-- The restore event only depends on the restore forms. -/
theorem restore_set_repeat (hrep : e.get? "repeat" = some (.dict rep))
    (h : rep'.get? "restore" = rep.get? "restore")
    (h' : rep'.get? "restore_type" = rep.get? "restore_type") :
    buildRestoreEvent (e.set "repeat" (.dict rep')) = buildRestoreEvent e := by
  simp only [buildRestoreEvent, Dict.get?_set_self, hrep, h, h']
  cases rep.get? "restore" with
  | some v =>
    cases v with
    | dict d =>
      simp only [Except.ok.injEq, Option.some.injEq]
      exact Dict.without_merge (Dict.without_set_self e _ _) d
    | _ => rfl
  | none =>
    cases rep.get? "restore_type" with
    | none => rfl
    | some v =>
      simp only [Except.ok.injEq, Option.some.injEq]
      rw [Dict.without_set _ (Key.str "repeat") (Key.str "type"),
        Dict.without_set _ (Key.str "repeat") (Key.str "type"), Dict.without_set_self]

/-- A restore event has no repeat form of its own. -/
theorem restoreEvent_get? (h : buildRestoreEvent e = .ok (some r)) :
    r.get? "repeat" = none ∧ r.without "repeat" = r := by
  have hform : ∃ d : Event τ, r = d.without "repeat" := by
    rw [buildRestoreEvent] at h
    split at h
    · split at h
      · cases h
        exact ⟨_, rfl⟩
      · cases h
      · split at h
        · cases h
          exact ⟨_, rfl⟩
        · cases h
    · cases h
  obtain ⟨d, rfl⟩ := hform
  exact ⟨Dict.get?_without_self d _, Dict.without_without d _⟩

/-- So it restores to nothing. -/
theorem restoreEvent_restore (h : buildRestoreEvent e = .ok (some r)) :
    buildRestoreEvent r = .ok none := by
  simp only [buildRestoreEvent, (restoreEvent_get? h).1]

end Restore

/-! ## The rules, read back -/

section Rules

variable {τ : Type} [IntCast τ]

theorem isNumber_spec {v : Value τ} {x : τ} (h : isNumber v = some x) :
    v.number? = some x ∧ v ≠ .null := by
  cases v <;> simp_all [isNumber, Value.number?]

variable [DecidableEq τ]

theorem numberErrors_nil {rep : Mapping τ} {key msg : String} {bad : τ → Bool}
    (h : numberErrors rep key bad msg = []) {v : Value τ} (hv : rep.get? key = some v) :
    ∃ x, isNumber v = some x ∧ bad x = false := by
  rw [numberErrors, hv] at h
  cases hx : isNumber v with
  | none => simp [hx] at h
  | some x =>
    refine ⟨x, rfl, ?_⟩
    simp only [hx] at h
    split at h
    · cases h
    · simpa using ‹¬ bad x = true›

variable [LT τ] [DecidableLT τ] [LE τ] [DecidableLE τ]

/-- The repeat rules, read back. -/
theorem repeatErrors_nil {idx : ℕ} {e : Event τ} (h : repeatErrors idx e = []) :
    e.get? "repeat" = none ∨ ∃ rep, e.get? "repeat" = some (.dict rep) ∧
      (∀ {v}, Dict.get? rep "interval" = some v →
        ∃ x, v.number? = some x ∧ ¬ x ≤ ((0 : ℤ) : τ)) ∧
      (∀ {v}, Dict.get? rep "duration" = some v → v ≠ .null ∧ ∃ x, v.number? = some x) ∧
      (∀ {v}, Dict.get? rep "count" = some v → v = .null ∨ ∃ n : ℤ, v = .int n ∧ 1 ≤ n) ∧
      (∀ {v}, Dict.get? rep "restore" = some v → ∃ d, v = .dict d) ∧
      (∀ {v}, Dict.get? rep "restore_type" = some v → isEventType (some v) = true) ∧
      ambiguousRestore e = false := by
  rw [repeatErrors] at h
  split at h
  · exact .inl ‹_›
  · rename_i rep hrep
    simp only [List.append_eq_nil_iff] at h
    obtain ⟨⟨⟨⟨⟨hiv, hdur⟩, hcount⟩, hrest⟩, htype⟩, hamb⟩ := h
    refine .inr ⟨rep, hrep, ?_, ?_, ?_, ?_, ?_, ?_⟩
    · intro v hv
      obtain ⟨x, hx, hbad⟩ := numberErrors_nil hiv hv
      refine ⟨x, (isNumber_spec hx).1, ?_⟩
      simpa using hbad
    · intro v hv
      obtain ⟨x, hx, -⟩ := numberErrors_nil hdur hv
      exact ⟨(isNumber_spec hx).2, x, (isNumber_spec hx).1⟩
    · intro v hv
      rw [hv] at hcount
      cases v with
      | null => exact .inl rfl
      | int n =>
        refine .inr ⟨n, rfl, ?_⟩
        simp only at hcount
        split at hcount
        · cases hcount
        · omega
      | _ => cases hcount
    · intro v hv
      rw [hv] at hrest
      cases v with
      | dict d => exact ⟨d, rfl⟩
      | _ => cases hrest
    · intro v hv
      rw [hv] at htype
      simp only at htype
      split at htype
      · assumption
      · cases htype
    · split at hamb
      · cases hamb
      · simpa using ‹¬ ambiguousRestore e = true›
  · cases h

end Rules

section Allowlist

variable {τ : Type} [DecidableEq τ] [FloatFacts τ]

/-- The allowlist leaves no room for a restore form. -/
theorem allowlist_nil {t path : String} {e : Event τ} {rep : Mapping τ}
    (hrep : e.get? "repeat" = some (.dict rep)) (h : repeatAllowlistErrors t e path = [])
    {key : String} (hkey : key ≠ "interval" ∧ key ≠ "count") : rep.get? key = none := by
  rw [repeatAllowlistErrors, hrep] at h
  simp only at h
  split at h
  · rename_i hempty
    rw [Dict.get?_eq_none]
    intro entry hentry heq
    have hmem : entry.1.text ∈ ((rep.filter fun e : Key τ × Value τ => e.1 ≠ "interval" ∧
        e.1 ≠ "count").map fun e => e.1.text).insertionSort (· ≤ ·) := by
      rw [(List.perm_insertionSort _ _).mem_iff]
      refine List.mem_map.mpr ⟨entry, List.mem_filter.mpr ⟨hentry, ?_⟩, rfl⟩
      simpa [heq] using hkey
    rw [List.isEmpty_iff.mp hempty] at hmem
    cases hmem
  · cases h

end Allowlist

/-! ## Accepted events -/

section Accepted

variable {τ : Type} [DecidableEq τ] [FloatFacts τ]

/-- The type of an event is known, and the rules of that type have nothing against it. -/
structure AcceptedAs (checks : EventChecks τ) (t : String) (e : Event τ) (path : String) :
    Prop where
  type : e.get? "type" = some (.str t)
  known : eventTypes.contains t = true
  rules : typeErrors checks t e path = []
  range : checks.hostRange e path = []

variable {checks : EventChecks τ} {idx : ℕ} {e r : Event τ}

/-- The event a restore form makes is an event of a known type. -/
theorem restoreEventErrors_nil {rep : Mapping τ} (hrep : e.get? "repeat" = some (.dict rep))
    (htype : ∀ {v}, rep.get? "restore_type" = some v → isEventType (some v) = true)
    (h : restoreEventErrors checks idx e = []) (hr : buildRestoreEvent e = .ok (some r)) :
    ∃ t, AcceptedAs checks t r ("events[" ++ toString idx ++ "].repeat.restore") ∧
      repeatAllowlistEventTypes.contains t = false := by
  have hvalid : ¬ ((rep.get? "restore_type").isSome ∧ ¬ isEventType (rep.get? "restore_type")) := by
    rintro ⟨hsome, hnot⟩
    obtain ⟨v, hv⟩ := Option.isSome_iff_exists.mp hsome
    rw [hv] at hnot
    exact hnot (htype hv)
  simp only [restoreEventErrors, hrep, if_neg hvalid, hr] at h
  split at h
  · rename_i t ht
    split at h
    · cases h
    · rename_i hknown
      split at h
      · cases h
      · rename_i hallow
        obtain ⟨hrules, hrange⟩ := List.append_eq_nil_iff.mp h
        exact ⟨t, ⟨ht, not_not.mp hknown, hrules, hrange⟩, by simpa using hallow⟩
  · cases h

variable [IntCast τ] [LT τ] [DecidableLT τ] [LE τ] [DecidableLE τ]

theorem accepted_parts (h : eventErrors checks idx e = .ok []) :
    envelopeErrors checks idx e = [] ∧ repeatErrors idx e = [] ∧
      (¬ (ambiguousRestore e = true ∨ isAllowlisted (e.get? "type") = true) →
        restoreEventErrors checks idx e = []) := by
  rw [eventErrors] at h
  split at h
  · cases h
  · simp only [Except.ok.injEq, List.append_eq_nil_iff] at h
    obtain ⟨⟨henv, hrep⟩, hrestore⟩ := h
    refine ⟨henv, hrep, fun hskip => ?_⟩
    rwa [if_neg hskip] at hrestore

/-- **An accepted event** is one by the rules of its type. -/
theorem accepted_self (h : eventErrors checks idx e = .ok []) :
    ∃ t, AcceptedAs checks t e ("events[" ++ toString idx ++ "]") := by
  obtain ⟨henv, -, -⟩ := accepted_parts h
  rw [envelopeErrors] at henv
  simp only [List.append_eq_nil_iff] at henv
  obtain ⟨-, htype⟩ := henv
  split at htype
  · cases htype
  · rename_i t ht
    split at htype
    · rename_i hknown
      obtain ⟨hrules, hrange⟩ := List.append_eq_nil_iff.mp htype
      exact ⟨t, ht, hknown, hrules, hrange⟩
    · cases htype
  · cases htype

/-- Its time is a number, and not negative. -/
theorem accepted_at (h : eventErrors checks idx e = .ok []) :
    ∃ v x, e.get? "at" = some v ∧ v.number? = some x ∧ ¬ x < ((0 : ℤ) : τ) := by
  obtain ⟨henv, -, -⟩ := accepted_parts h
  rw [envelopeErrors] at henv
  simp only [List.append_eq_nil_iff] at henv
  obtain ⟨hat, -⟩ := henv
  split at hat
  · cases hat
  · rename_i v hv
    split at hat
    · rename_i x hx
      refine ⟨v, x, hv, (isNumber_spec hx).1, ?_⟩
      split at hat
      · cases hat
      · assumption
    · cases hat

/-- An accepted event restores to nothing, or to an event that is accepted on its own and is not on
    the repeat allowlist. -/
theorem accepted_restore (h : eventErrors checks idx e = .ok []) :
    ∃ r, buildRestoreEvent e = .ok r ∧ ∀ r₀ ∈ r,
      ∃ t, AcceptedAs checks t r₀ ("events[" ++ toString idx ++ "].repeat.restore") ∧
        repeatAllowlistEventTypes.contains t = false := by
  obtain ⟨-, hrep, hrestore⟩ := accepted_parts h
  rcases repeatErrors_nil hrep with hnone | ⟨rep, hdict, -, -, -, hrest, htypes, hamb⟩
  · refine ⟨none, by simp only [buildRestoreEvent, hnone], fun r hr => by cases hr⟩
  · obtain ⟨t, ht⟩ := accepted_self h
    by_cases hallow : repeatAllowlistEventTypes.contains t = true
    · have hrules := ht.rules
      rw [typeErrors, if_pos hallow, List.append_eq_nil_iff, List.append_eq_nil_iff] at hrules
      refine ⟨none, ?_, fun r hr => by cases hr⟩
      exact buildRestoreEvent_none hdict (allowlist_nil hdict hrules.1.2 (by decide))
        (allowlist_nil hdict hrules.1.2 (by decide))
    · have hskip : ¬ (ambiguousRestore e = true ∨ isAllowlisted (e.get? "type") = true) := by
        rw [hamb, ht.type]
        simpa [isAllowlisted] using hallow
      cases hbuild : buildRestoreEvent e with
      | error err =>
        -- only a `restore` that is no mapping cannot be merged
        exfalso
        simp only [buildRestoreEvent, hdict] at hbuild
        cases hget : Dict.get? rep "restore" with
        | none =>
          rw [hget] at hbuild
          simp only at hbuild
          split at hbuild <;> cases hbuild
        | some v =>
          obtain ⟨d, rfl⟩ := hrest hget
          rw [hget] at hbuild
          cases hbuild
      | ok r =>
        refine ⟨r, rfl, fun r₀ hr₀ => ?_⟩
        cases hr₀
        exact restoreEventErrors_nil hdict htypes (hrestore hskip) hbuild

end Accepted

end Proof
end CeforeEmu
