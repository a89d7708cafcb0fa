import Mathlib.Data.List.Nodup
import Mathlib.Data.Set.Card
import Mathlib.Tactic.Common

/-!
# Counting the members of a list

A list without repetitions counts the set of its members. In a list sorted by a key, what stands
before an element is what has a lower key; so its place is the number of those, and the first `k`
are the members with fewer than `k` lower ones (`mem_take_iff_rank`).
-/

set_option autoImplicit false

namespace CeforeEmu
namespace Lib

variable {α β : Type}

/-- Different members of a finite set are no more than it has. -/
theorem length_le_ncard {S : Set α} (hS : S.Finite) {l : List α} (hl : l.Nodup)
    (h : ∀ x ∈ l, x ∈ S) : l.length ≤ S.ncard := by
  classical
  rw [← List.toFinset_card_of_nodup hl, ← Set.ncard_coe_finset]
  refine Set.ncard_le_ncard (fun x hx => h x ?_) hS
  exact List.mem_toFinset.mp (Finset.mem_coe.mp hx)

/-- A list with all of them has as many. -/
theorem length_eq_ncard {S : Set α} {l : List α} (hl : l.Nodup) (h : ∀ x, x ∈ l ↔ x ∈ S) :
    l.length = S.ncard := by
  classical
  have hset : S = (l.toFinset : Set α) := by
    ext x
    rw [Finset.mem_coe, List.mem_toFinset, h]
  rw [← List.toFinset_card_of_nodup hl, hset, Set.ncard_coe_finset]

/-- How many members of a set have a lower key. -/
noncomputable def rank [LT β] (key : α → β) (S : Set α) (a : α) : ℕ :=
  {b ∈ S | key b < key a}.ncard

section Sorted

variable [LinearOrder β] {key : α → β} {S : Set α} {l : List α}
  (hsorted : l.Pairwise fun a b => key a < key b) (hmem : ∀ x, x ∈ l ↔ x ∈ S)
include hsorted

theorem nodup_of_sorted : l.Nodup := hsorted.imp fun hlt heq => absurd (heq ▸ hlt) (lt_irrefl _)

include hmem

/-- The place of an element is its rank. -/
theorem rank_eq_length {l₁ l₂ : List α} {a : α} (hl : l = l₁ ++ a :: l₂) :
    rank key S a = l₁.length := by
  subst hl
  obtain ⟨hs₁, hs₂, hbefore⟩ := List.pairwise_append.mp hsorted
  refine (length_eq_ncard (nodup_of_sorted hs₁) fun x => ?_).symm
  rw [Set.mem_ofPred_eq, ← hmem, List.mem_append, List.mem_cons]
  constructor
  · exact fun hx => ⟨.inl hx, hbefore x hx a List.mem_cons_self⟩
  · rintro ⟨hx | rfl | hx, hlt⟩
    · exact hx
    · exact absurd hlt (lt_irrefl _)
    · exact absurd (hlt.trans ((List.pairwise_cons.mp hs₂).1 x hx)) (lt_irrefl _)

theorem rank_lt_ncard {a : α} (ha : a ∈ S) : rank key S a < S.ncard := by
  obtain ⟨l₁, l₂, hl⟩ := List.append_of_mem ((hmem a).mpr ha)
  rw [rank_eq_length hsorted hmem hl, ← length_eq_ncard (nodup_of_sorted hsorted) hmem, hl]
  simp

/-- **The first `k`** are the members with fewer than `k` lower ones. -/
theorem mem_take_iff_rank {a : α} {k : ℕ} : a ∈ l.take k ↔ a ∈ S ∧ rank key S a < k := by
  constructor
  · intro ha
    have hal : a ∈ l := List.mem_of_mem_take ha
    obtain ⟨l₁, l₂, hl⟩ := List.append_of_mem hal
    refine ⟨(hmem a).mp hal, ?_⟩
    rw [rank_eq_length hsorted hmem hl]
    by_contra hle
    have hnodup := nodup_of_sorted hsorted
    rw [hl, List.take_append_of_le_length (not_lt.mp hle)] at ha
    rw [hl] at hnodup
    exact List.disjoint_of_nodup_append hnodup (List.mem_of_mem_take ha) List.mem_cons_self
  · rintro ⟨ha, hlt⟩
    obtain ⟨l₁, l₂, hl⟩ := List.append_of_mem ((hmem a).mpr ha)
    rw [rank_eq_length hsorted hmem hl] at hlt
    obtain ⟨j, hj⟩ := Nat.exists_eq_add_of_lt hlt
    rw [hl, List.take_append, hj]
    refine List.mem_append_right _ ?_
    have hone : l₁.length + j + 1 - l₁.length = j + 1 := by omega
    rw [hone, List.take_succ_cons]
    exact List.mem_cons_self

end Sorted

end Lib
end CeforeEmu
