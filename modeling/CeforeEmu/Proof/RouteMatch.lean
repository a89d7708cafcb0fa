import Mathlib.Data.List.Basic
import CeforeEmu.Core.Verdict

/-!
# Routes that were expected

`_route_is_ordered_subsequence` takes each token to the first hop it can and never goes back. That
loses nothing: whatever way the tokens can be found in the hops, the first of them stands no earlier
than the scan takes it, and the others are found in the hops behind it (`cons_sublist_seekHop`).
-/

set_option autoImplicit false

namespace CeforeEmu
namespace Proof

open CeforeEmu.Core

/-- A subsequence that begins with a token is one of the hops from the first such hop on. -/
theorem cons_sublist_seekHop {token : String} {expected observed : List String} :
    (token :: expected).Sublist observed ↔
      ∃ hop hops, seekHop token observed = hop :: hops ∧ expected.Sublist hops := by
  induction observed with
  | nil => simp [seekHop]
  | cons hop hops ih =>
    rw [seekHop]
    by_cases htoken : token = hop
    · subst htoken
      simp [List.cons_sublist_cons]
    · rw [if_pos htoken, ← ih]
      constructor
      · intro h
        cases h with
        | cons _ h => exact h
        | cons_cons _ _ => exact absurd rfl htoken
      · exact fun h => h.cons hop

theorem routeIsOrderedSubsequence_iff {expected : List String} : ∀ {observed : List String},
    routeIsOrderedSubsequence expected observed = true ↔ expected.Sublist observed := by
  induction expected with
  | nil =>
    intro observed
    exact iff_of_true rfl (List.nil_sublist observed)
  | cons token expected ih =>
    intro observed
    rw [routeIsOrderedSubsequence, cons_sublist_seekHop]
    cases hseek : seekHop token observed with
    | nil => simp
    | cons hop hops =>
      rw [ih]
      constructor
      · intro h
        exact ⟨hop, hops, rfl, h⟩
      · rintro ⟨_, _, heq, h⟩
        rw [(List.cons.inj heq).2]
        exact h

/-- The scan finds exactly the subsequences, and more hops in between do not undo a match. -/
theorem route_matched_subsequence :
    (∀ expected observed : List String,
      routeIsOrderedSubsequence expected observed = true ↔ expected.Sublist observed) ∧
    ∀ (exitCode : Option Int) (timedOut cancelled replyReceived : Bool)
      (responder expectedResponder : Option String) (expectedRoute : Option (List String))
      (observed observed' : List String), observed.Sublist observed' →
      let judge := fun hops => fromRuntimeCcninfo exitCode timedOut cancelled replyReceived
        responder hops expectedResponder expectedRoute
      ((judge observed).routeMatched = some true → (judge observed').routeMatched = some true) ∧
        ((judge observed).routeMatched = none → (judge observed').routeMatched = none) := by
  refine ⟨fun _ _ => routeIsOrderedSubsequence_iff, ?_⟩
  intro exitCode timedOut cancelled replyReceived responder expectedResponder expectedRoute observed
    observed' hmore
  cases expectedRoute with
  | none => exact ⟨fun h => (nomatch h), fun _ => rfl⟩
  | some expected =>
    refine ⟨fun h => ?_, fun h => (nomatch h)⟩
    have hfound := routeIsOrderedSubsequence_iff.mp (Option.some.inj h)
    exact congrArg some (routeIsOrderedSubsequence_iff.mpr (hfound.trans hmore))

theorem route_matched_detour :
    ["h0", "h2"].Sublist ["h0", "h1", "h2"] ∧
      (fromRuntimeCcninfo (some 0) false false true (some "h2") ["h0", "h1", "h2"] (some "h2")
        (some ["h0", "h2"])).routeMatched = some true := by
  have hmore : ["h0", "h2"].Sublist ["h0", "h1", "h2"] := by decide
  obtain ⟨-, hkeeps⟩ := route_matched_subsequence
  exact ⟨hmore, (hkeeps (some 0) false false true (some "h2") (some "h2") (some ["h0", "h2"])
    ["h0", "h2"] ["h0", "h1", "h2"] hmore).1 (by decide)⟩

/-- The reasons tell every failure but that of a run that has no exit code. -/
theorem ccninfo_success_iff (exitCode : Option Int) (timedOut cancelled replyReceived : Bool)
    (responder expectedResponder : Option String) (observed : List String)
    (expectedRoute : Option (List String)) :
    let v := fromRuntimeCcninfo exitCode timedOut cancelled replyReceived responder observed
      expectedResponder expectedRoute
    v.success = true ↔ ccninfoFailureReasons v = [] ∧ v.exitCode ≠ none := by
  cases exitCode with
  | none => simp [fromRuntimeCcninfo]
  | some code =>
    simp only [fromRuntimeCcninfo, ccninfoFailureReasons, List.append_eq_nil_iff,
      Bool.and_eq_true, beq_iff_eq, bne_iff_ne, Bool.not_eq_true', Option.some.injEq]
    cases timedOut <;> cases cancelled <;> cases replyReceived <;> simp [and_assoc]

end Proof
end CeforeEmu
