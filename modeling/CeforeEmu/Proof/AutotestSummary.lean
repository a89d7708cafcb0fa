import Mathlib.Algebra.BigOperators.Group.List.Lemmas
import CeforeEmu.Log.Autotest

/-!
# The autotest summary adds up

The loop of `summarize` adds to each row what one record is worth (`worth`), and counters are a
commutative monoid. So the row of a URI is the sum over the records of that URI, which neither the
order of the records nor a cut through the list changes. What the counters are worth together is
said of one record and of sums (`Sound`).
-/

set_option autoImplicit false

namespace CeforeEmu
namespace Proof
namespace AutotestSummary

open CeforeEmu.Lib CeforeEmu.Core CeforeEmu.Log.Autotest

/-! ## Counters -/

instance : Zero Counters := ⟨.empty⟩

instance : Add Counters where
  add a b :=
    { evalTotal := a.evalTotal + b.evalTotal
      evalSuccess := a.evalSuccess + b.evalSuccess
      evalPubdownTotal := a.evalPubdownTotal + b.evalPubdownTotal
      evalPubdownSuccess := a.evalPubdownSuccess + b.evalPubdownSuccess
      failExitCodeNonzero := a.failExitCodeNonzero + b.failExitCodeNonzero
      failMissingCompletedLog := a.failMissingCompletedLog + b.failMissingCompletedLog
      failMissingOutputFile := a.failMissingOutputFile + b.failMissingOutputFile }

theorem add_def (a b : Counters) : a + b =
    { evalTotal := a.evalTotal + b.evalTotal
      evalSuccess := a.evalSuccess + b.evalSuccess
      evalPubdownTotal := a.evalPubdownTotal + b.evalPubdownTotal
      evalPubdownSuccess := a.evalPubdownSuccess + b.evalPubdownSuccess
      failExitCodeNonzero := a.failExitCodeNonzero + b.failExitCodeNonzero
      failMissingCompletedLog := a.failMissingCompletedLog + b.failMissingCompletedLog
      failMissingOutputFile := a.failMissingOutputFile + b.failMissingOutputFile } := rfl

theorem zero_def : (0 : Counters) = .empty := rfl

instance : AddCommMonoid Counters where
  add_assoc a b c := by simp only [add_def, Nat.add_assoc]
  zero_add a := by simp only [add_def, zero_def, Counters.empty, Nat.zero_add]
  add_zero a := by simp only [add_def, zero_def, Counters.empty, Nat.add_zero]
  add_comm a b := by simp only [add_def, Nat.add_comm]
  nsmul := nsmulRec

/-- How the counters of a row compare. -/
structure Sound (row : Counters) : Prop where
  success : row.evalSuccess ≤ row.evalTotal
  pubdown : row.evalPubdownTotal ≤ row.evalTotal
  pubdownSuccess : row.evalPubdownSuccess ≤ min row.evalSuccess row.evalPubdownTotal
  exitCode : row.failExitCodeNonzero ≤ row.evalTotal - row.evalSuccess
  completedLog : row.failMissingCompletedLog ≤ row.evalTotal - row.evalSuccess
  outputFile : row.failMissingOutputFile ≤ row.evalTotal - row.evalSuccess

theorem sound_zero : Sound 0 := by
  constructor <;> exact Nat.zero_le _

theorem Sound.add {a b : Counters} (ha : Sound a) (hb : Sound b) : Sound (a + b) := by
  obtain ⟨hs, hp, hps, he, hc, ho⟩ := ha
  obtain ⟨hs', hp', hps', he', hc', ho'⟩ := hb
  rw [le_min_iff] at hps hps'
  rw [add_def]
  refine ⟨?_, ?_, le_min ?_ ?_, ?_, ?_, ?_⟩ <;> simp only <;> omega

/-! ## What a record is worth -/

section Records

variable {τ : Type} [DecidableEq τ] [IntCast τ] [LE τ] [DecidableLE τ]

/-- What a record of an evaluation adds. -/
def worth (rec : Record τ) : Counters := Counters.empty.count rec

theorem count_eq (row : Counters) (rec : Record τ) : row.count rec = row + worth rec := by
  cases hdown : publisherDown rec with
  | true =>
    simp only [worth, Counters.count, hdown, if_true, add_def, Counters.empty, Nat.zero_add]
  | false =>
    simp only [worth, Counters.count, hdown, Bool.false_eq_true, if_false, add_def, Counters.empty,
      Nat.zero_add, Nat.add_zero]

omit [LE τ] [DecidableLE τ] in
/-- A failure is only told of a record that is no success. -/
theorem classify_le (rec : Record τ) :
    (classify rec).1.toNat ≤ 1 ∧
      (classify rec).2.exitCodeNonzero ≤ 1 - (classify rec).1.toNat ∧
      (classify rec).2.missingCompletedLog ≤ 1 - (classify rec).1.toNat ∧
      (classify rec).2.missingOutputFile ≤ 1 - (classify rec).1.toNat := by
  have hle : ∀ b : Bool, b.toNat ≤ 1 := fun b => by cases b <;> decide
  cases hsuccess : (fromRecord rec.fields).success == some true with
  | true => simp [classify, hsuccess, FailureReasons.map]
  | false => simp [classify, hsuccess, FailureReasons.map, hle]

theorem sound_worth (rec : Record τ) : Sound (worth rec) := by
  obtain ⟨hsuccess, hexit, hcompleted, houtput⟩ := classify_le rec
  cases hdown : publisherDown rec with
  | true =>
    refine ⟨?_, ?_, ?_, ?_, ?_, ?_⟩ <;>
      simp [worth, Counters.count, hdown, Counters.empty, hsuccess, hexit, hcompleted, houtput]
  | false =>
    refine ⟨?_, ?_, ?_, ?_, ?_, ?_⟩ <;>
      simp [worth, Counters.count, hdown, Counters.empty, hsuccess, hexit, hcompleted, houtput]

/-- The row a record is counted in, and what it adds there. -/
def contribution? (rec : Record τ) : Option (String × Counters) :=
  if rec.uri = "" then none
  else if ¬ (recordOpType rec.fields).isOneOf evalOpTypes then none
  else some (rec.uri, if rec.isWarmup then 0 else worth rec)

theorem sound_of_entry {rec : Record τ} {e : String × Counters} (h : contribution? rec = some e) :
    Sound e.2 := by
  rw [contribution?] at h
  split at h
  · cases h
  · split at h
    · cases h
    · cases h
      simp only
      split
      · exact sound_zero
      · exact sound_worth rec

/-- **One turn of the loop** adds what the record is worth. -/
theorem summarizeStep_eq (byUri : Dict String Counters) (rec : Record τ) :
    summarizeStep byUri rec = (contribution? rec).elim byUri fun e => byUri.addAt e.1 e.2 := by
  rw [summarizeStep, contribution?]
  split
  · rfl
  · split
    · rfl
    · rw [Option.elim_some, Dict.addAt]
      by_cases hwarmup : rec.isWarmup = true
      · simp only [hwarmup, if_true, add_zero]
        rfl
      · simp only [hwarmup, count_eq]
        rfl

/-- **The loop** is a tally. -/
theorem foldl_summarizeStep (records : List (Record τ)) :
    records.foldl summarizeStep [] = Dict.tally (records.filterMap contribution?) := by
  induction records using List.reverseRecOn with
  | nil => rfl
  | append_singleton records rec ih =>
    rw [List.foldl_append, List.foldl_cons, List.foldl_nil, ih, summarizeStep_eq,
      List.filterMap_append]
    cases hentry : contribution? rec with
    | none => simp [hentry]
    | some e =>
      have hone : [rec].filterMap contribution? = [e] := by simp [hentry]
      rw [hone, Dict.tally_concat, Option.elim_some]

/-! ## Rows -/

variable {truediv : ℕ → ℕ → τ}

theorem summarize_eq (records : List (Record τ)) : summarize truediv records =
    (Dict.sortedItems (Dict.tally (records.filterMap contribution?))).map fun item =>
      finishRow truediv item.1 item.2 := by
  rw [summarize, foldl_summarizeStep]

/-- The counters of a URI; where there is no row, nothing was counted. -/
def countersOf (rows : List (Row τ)) (uri : String) : Counters :=
  match rows.find? fun row => row.uri = uri with
  | some row => row.toCounters
  | none => 0

theorem countersOf_summarize (records : List (Record τ)) (uri : String) :
    countersOf (summarize truediv records) uri = Dict.total (records.filterMap contribution?) uri := by
  have hnodup := Dict.nodupKeys_tally (records.filterMap contribution?)
  have hget := Dict.get?_tally (records.filterMap contribution?) uri
  rw [countersOf, summarize_eq, List.find?_map]
  cases hfind : (Dict.sortedItems (Dict.tally (records.filterMap contribution?))).find?
      ((fun row : Row τ => decide (row.uri = uri)) ∘ fun item => finishRow truediv item.1 item.2)
      with
  | none =>
    -- no item has the URI, so nothing was counted for it
    have hout : Dict.get? (Dict.tally (records.filterMap contribution?)) uri = none := by
      refine Dict.get?_eq_none.mpr fun e he huri => ?_
      have := List.find?_eq_none.mp hfind e (Dict.mem_sortedItems.mpr he)
      exact this (decide_eq_true huri)
    rw [hout] at hget
    split at hget
    · cases hget
    · rename_i hmem
      exact (Dict.total_eq_zero hmem).symm
  | some item =>
    have hfound := List.find?_some hfind
    have huri : item.1 = uri := of_decide_eq_true hfound
    have hmem := Dict.mem_sortedItems.mp (List.mem_of_find?_eq_some hfind)
    have hitem : Dict.get? (Dict.tally (records.filterMap contribution?)) uri = some item.2 :=
      (Dict.NodupKeys.mem_iff_get? hnodup).mp (huri ▸ hmem)
    rw [hitem] at hget
    split at hget
    · exact Option.some.inj hget
    · cases hget

theorem sound_total (entries : List (String × Counters)) (h : ∀ e ∈ entries, Sound e.2)
    (uri : String) : Sound (Dict.total entries uri) := by
  refine List.sum_induction Sound (fun _ _ => Sound.add) sound_zero fun row hrow => ?_
  obtain ⟨e, he, rfl⟩ := List.mem_map.mp hrow
  exact h e (List.mem_of_mem_filter he)

/-- **The autotest summary adds up**, whatever the order of the records. -/
theorem summary_additive (truediv : ℕ → ℕ → τ) :
    (∀ records records' : List (Record τ), records.Perm records' →
      summarize truediv records = summarize truediv records') ∧
    (∀ records : List (Record τ),
      ((summarize truediv records).map (·.uri)).Pairwise (· < ·)) ∧
    (∀ (records records' : List (Record τ)) (uri : String),
      countersOf (summarize truediv (records ++ records')) uri =
        countersOf (summarize truediv records) uri
          + countersOf (summarize truediv records') uri) ∧
    ∀ records : List (Record τ), ∀ row ∈ summarize truediv records, Sound row.toCounters := by
  refine ⟨fun records records' hperm => ?_, fun records => ?_, fun records records' uri => ?_,
    fun records row hrow => ?_⟩
  · have hentries := hperm.filterMap contribution?
    rw [summarize_eq, summarize_eq, Dict.sortedItems_eq (Dict.nodupKeys_tally _)
      (Dict.nodupKeys_tally _) fun e => ?_]
    rw [Dict.NodupKeys.mem_iff_get? (Dict.nodupKeys_tally _),
      Dict.NodupKeys.mem_iff_get? (Dict.nodupKeys_tally _), Dict.get?_tally, Dict.get?_tally,
      Dict.total_perm hentries]
    simp only [(hentries.map Prod.fst).mem_iff]
  · rw [summarize_eq, List.map_map, List.pairwise_map]
    exact Dict.sortedItems_lt (Dict.nodupKeys_tally _)
  · rw [countersOf_summarize, countersOf_summarize, countersOf_summarize, List.filterMap_append,
      Dict.total_append]
  · rw [summarize_eq] at hrow
    obtain ⟨item, hitem, rfl⟩ := List.mem_map.mp hrow
    have hget := (Dict.NodupKeys.mem_iff_get? (Dict.nodupKeys_tally _)).mp
      (Dict.mem_sortedItems.mp hitem)
    rw [Dict.get?_tally] at hget
    split at hget
    · rw [Option.some.injEq] at hget
      change Sound item.2
      rw [← hget]
      refine sound_total _ (fun e he => ?_) item.1
      obtain ⟨rec, -, hentry⟩ := List.mem_filterMap.mp he
      exact sound_of_entry hentry
    · cases hget

end Records

end AutotestSummary
end Proof
end CeforeEmu
