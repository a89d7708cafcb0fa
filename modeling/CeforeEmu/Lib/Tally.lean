import Mathlib.Algebra.BigOperators.Group.List.Basic
import Mathlib.Data.List.Induction
import Mathlib.Data.List.Sort
import CeforeEmu.Lib.Dict

/-!
# Tallies

Adding up contributions by their keys, with `d[k] += m` on a dictionary where a missing key counts
as zero. What stands under a key is the sum of its contributions (`get?_tally`), whatever the order
they came in. The dictionary itself remembers that order; its items sorted by key do not
(`sortedItems_eq`).
-/

set_option autoImplicit false

namespace CeforeEmu
namespace Lib
namespace Dict

variable {κ M : Type}

section Add

variable [DecidableEq κ] [AddCommMonoid M]

/-- `d[k] += m`. -/
def addAt (d : Dict κ M) (k : κ) (m : M) : Dict κ M := d.set k ((d.get? k).getD 0 + m)

/-- What is added under a key. -/
def total (entries : List (κ × M)) (k : κ) : M := ((entries.filter (·.1 = k)).map (·.2)).sum

def tally (entries : List (κ × M)) : Dict κ M := entries.foldl (fun d e => d.addAt e.1 e.2) []

theorem total_append (entries entries' : List (κ × M)) (k : κ) :
    total (entries ++ entries') k = total entries k + total entries' k := by
  rw [total, List.filter_append, List.map_append, List.sum_append, total, total]

theorem total_perm {entries entries' : List (κ × M)} (h : entries.Perm entries') (k : κ) :
    total entries k = total entries' k :=
  ((h.filter _).map _).sum_eq

theorem total_eq_zero {entries : List (κ × M)} {k : κ} (h : k ∉ entries.map (·.1)) :
    total entries k = 0 := by
  have hnone : entries.filter (·.1 = k) = [] := by
    refine List.filter_eq_nil_iff.mpr fun e he hk => h ?_
    exact List.mem_map.mpr ⟨e, he, of_decide_eq_true hk⟩
  rw [total, hnone, List.map_nil, List.sum_nil]

theorem tally_concat (entries : List (κ × M)) (e : κ × M) :
    tally (entries ++ [e]) = (tally entries).addAt e.1 e.2 := by
  rw [tally, List.foldl_append]
  rfl

/-- **A key has the sum of its contributions**, if it has any. -/
theorem get?_tally (entries : List (κ × M)) (k : κ) :
    (tally entries).get? k = if k ∈ entries.map (·.1) then some (total entries k) else none := by
  induction entries using List.reverseRecOn with
  | nil => rfl
  | append_singleton entries e ih =>
    have hone : total [e] k = if e.1 = k then e.2 else 0 := by
      rw [total]
      by_cases hk : e.1 = k
      · simp [hk]
      · simp [hk]
    have hmem : k ∈ (entries ++ [e]).map (·.1) ↔ k ∈ entries.map (·.1) ∨ k = e.1 := by
      rw [List.map_append, List.mem_append, List.map_singleton, List.mem_singleton]
    rw [tally_concat, addAt, get?_set, total_append, hone]
    simp only [hmem]
    by_cases hk : k = e.1
    · subst hk
      rw [if_pos rfl, if_pos (.inr rfl), if_pos rfl, ih]
      split
      · rfl
      · rename_i hout
        rw [total_eq_zero hout, Option.getD_none]
    · rw [if_neg hk, if_neg (Ne.symm hk), ih, add_zero]
      simp only [hk, or_false]

theorem nodupKeys_tally (entries : List (κ × M)) : NodupKeys (tally entries) := by
  induction entries using List.reverseRecOn with
  | nil => exact List.nodup_nil
  | append_singleton entries e ih =>
    rw [tally_concat]
    exact ih.set e.1 _

end Add

/-! ## Sorted by key -/

section Sorted

variable [LinearOrder κ]

/-- `sorted(d.items(), key=lambda item: item[0])`. -/
def sortedItems (d : Dict κ M) : List (κ × M) := d.insertionSort fun a b => a.1 ≤ b.1

theorem mem_sortedItems {d : Dict κ M} {e : κ × M} : e ∈ sortedItems d ↔ e ∈ d :=
  (List.perm_insertionSort _ d).mem_iff

theorem sortedItems_lt {d : Dict κ M} (h : NodupKeys d) :
    (sortedItems d).Pairwise fun a b => a.1 < b.1 := by
  have hle : (sortedItems d).Pairwise fun a b => a.1 ≤ b.1 := List.pairwise_insertionSort _ _
  have hperm : (sortedItems d).Perm d := List.perm_insertionSort _ d
  have hne : (sortedItems d).Pairwise fun a b => a.1 ≠ b.1 :=
    List.pairwise_map.mp ((hperm.map Prod.fst).nodup_iff.mpr h)
  exact (hle.and hne).imp fun h => lt_of_le_of_ne h.1 h.2

/-- **The order of the entries is forgotten.** -/
theorem sortedItems_eq {d d' : Dict κ M} (h : NodupKeys d) (h' : NodupKeys d')
    (hmem : ∀ e, e ∈ d ↔ e ∈ d') : sortedItems d = sortedItems d' := by
  have hnodup : ∀ {d : Dict κ M}, NodupKeys d → (sortedItems d).Nodup := fun h =>
    (sortedItems_lt h).imp fun hlt heq => absurd (heq ▸ hlt) (lt_irrefl _)
  have hperm : (sortedItems d).Perm (sortedItems d') := by
    refine (List.perm_ext_iff_of_nodup (hnodup h) (hnodup h')).mpr fun e => ?_
    rw [mem_sortedItems, mem_sortedItems, hmem]
  exact hperm.eq_of_pairwise (fun a b _ _ hab hba => absurd hba (not_lt.mpr hab.le))
    (sortedItems_lt h) (sortedItems_lt h')

end Sorted

end Dict
end Lib
end CeforeEmu
