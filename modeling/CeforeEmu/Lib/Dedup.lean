import Mathlib.Data.List.Induction
import Mathlib.Data.List.Nodup
import Mathlib.Data.List.Perm.Lattice
import Mathlib.Tactic.Common

/-!
# Keeping the first of each

A loop that appends what it has not seen leaves the list of everything it was given without
repetitions, each where it came first: `List.eraseDups`. What a consumer asks of such a loop is
how the list grows by one (`eraseDups_concat`), that a part of it does not depend on the rest
(`filter_eraseDups`, `filter_flatMap_of_label`), and that another order gives another order
(`eraseDups_perm`).
-/

set_option autoImplicit false

namespace CeforeEmu
namespace Lib

variable {α : Type} [DecidableEq α]

theorem eraseDups_concat (l : List α) (a : α) :
    (l ++ [a]).eraseDups = if a ∈ l then l.eraseDups else l.eraseDups ++ [a] := by
  rw [List.eraseDups_append]
  by_cases ha : a ∈ l
  · simp [List.removeAll, ha]
  · simp [List.removeAll, ha, List.eraseDups_cons]

theorem filter_eraseDups (p : α → Bool) (l : List α) :
    l.eraseDups.filter p = (l.filter p).eraseDups := by
  induction l using List.reverseRecOn with
  | nil => rfl
  | append_singleton l a ih =>
    rw [eraseDups_concat, List.filter_append]
    cases hp : p a with
    | false =>
      have hdrop : [a].filter p = [] := by simp [hp]
      rw [hdrop, List.append_nil, ← ih]
      split
      · rfl
      · rw [List.filter_append, hdrop, List.append_nil]
    | true =>
      have hkeep : [a].filter p = [a] := by simp [hp]
      have hmem : a ∈ l.filter p ↔ a ∈ l := by simp [hp]
      rw [hkeep, eraseDups_concat]
      by_cases ha : a ∈ l
      · rw [if_pos ha, if_pos (hmem.mpr ha), ih]
      · rw [if_neg ha, if_neg (mt hmem.mp ha), List.filter_append, hkeep, ih]

theorem eraseDups_nodup (l : List α) : l.eraseDups.Nodup := by
  induction l using List.reverseRecOn with
  | nil => exact List.nodup_nil
  | append_singleton l a ih =>
    rw [eraseDups_concat]
    split
    · exact ih
    · rename_i ha
      refine List.nodup_append.mpr ⟨ih, List.nodup_singleton a, ?_⟩
      intro b hb c hc heq
      rw [heq, List.mem_singleton.mp hc] at hb
      exact ha (List.mem_eraseDups.mp hb)

/-- Lists with the same members keep the same, in some order. -/
theorem eraseDups_perm {l l' : List α} (h : ∀ a, a ∈ l ↔ a ∈ l') : l.eraseDups.Perm l'.eraseDups := by
  rw [List.perm_ext_iff_of_nodup (eraseDups_nodup l) (eraseDups_nodup l')]
  intro a
  rw [List.mem_eraseDups, List.mem_eraseDups, h]

omit [DecidableEq α] in
/-- What is made from labelled parts is filtered by its label part by part. -/
theorem filter_flatMap_of_label {β : Type} {f : α → List β} {p : β → Bool} {q : α → Bool}
    (l : List α) (h : ∀ a ∈ l, ∀ b ∈ f a, p b = q a) :
    (l.flatMap f).filter p = (l.filter q).flatMap f := by
  induction l with
  | nil => rfl
  | cons a l ih =>
    have hrest := ih fun a' ha' => h a' (List.mem_cons_of_mem _ ha')
    have hfirst : ∀ b ∈ f a, p b = q a := h a List.mem_cons_self
    rw [List.flatMap_cons, List.filter_append, hrest]
    cases hq : q a with
    | true =>
      rw [List.filter_cons_of_pos hq, List.flatMap_cons]
      congr 1
      exact List.filter_eq_self.mpr fun b hb => (hfirst b hb).trans hq
    | false =>
      have hnone : (f a).filter p = [] :=
        List.filter_eq_nil_iff.mpr fun b hb => by rw [hfirst b hb, hq]; decide
      rw [List.filter_cons_of_neg (by rw [hq]; decide), hnone, List.nil_append]

end Lib
end CeforeEmu
