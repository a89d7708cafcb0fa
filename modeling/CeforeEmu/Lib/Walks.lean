import Mathlib.Algebra.Order.Monoid.Defs
import Mathlib.Logic.Relation
import Mathlib.Order.Defs.LinearOrder
import Mathlib.Tactic.Common

/-!
# Walks and their cost

A graph is a relation `adj` with a cost for each edge, and `Walk adj w s v c` says that some walk
from `s` to `v` costs `c`. Shortest-path algorithms keep tentative costs; what makes them right
does not depend on the order they settle nodes in:

* a tentative cost is the cost of some walk;
* when no edge can improve one any more, none exceeds the cost of any walk (`Walk.le_label`).

Together the labels are the least costs (`Labels.leastCost`).
-/

set_option autoImplicit false

namespace CeforeEmu
namespace Lib

variable {α W : Type} [AddCommMonoid W]

/-- Some walk from `s` to `v` costs `c`. -/
inductive Walk (adj : α → α → Prop) (w : α → α → W) (s : α) : α → W → Prop where
  | nil : Walk adj w s s 0
  | snoc {v u : α} {c : W} (h : Walk adj w s v c) (hadj : adj v u) : Walk adj w s u (c + w v u)

variable {adj : α → α → Prop} {w : α → α → W} {s : α}

/-- A walk may also be extended at its start. -/
theorem Walk.cons {s u v : α} {c : W} (hadj : adj s u) (h : Walk adj w u v c) :
    Walk adj w s v (w s u + c) := by
  induction h with
  | nil =>
    rw [add_zero, ← zero_add (w s u)]
    exact Walk.nil.snoc hadj
  | snoc _ hadj' ih =>
    rw [← add_assoc]
    exact ih.snoc hadj'

theorem Walk.mono {adj' : α → α → Prop} {v : α} {c : W} (h : Walk adj w s v c)
    (hadj : ∀ a b, adj a b → adj' a b) : Walk adj' w s v c := by
  induction h with
  | nil => exact .nil
  | snoc _ hab ih => exact ih.snoc (hadj _ _ hab)

/-- One walk after another. -/
theorem Walk.append {s u v : α} {c c' : W} (h : Walk adj w s u c) (h' : Walk adj w u v c') :
    Walk adj w s v (c + c') := by
  induction h' with
  | nil =>
    rw [add_zero]
    exact h
  | snoc _ hadj ih =>
    rw [← add_assoc]
    exact ih.snoc hadj

/-- The way back costs the same. -/
theorem Walk.reverse {v : α} {c : W} (hsymm : ∀ a b, adj a b → adj b a ∧ w a b = w b a)
    (h : Walk adj w s v c) : Walk adj w v s c := by
  induction h with
  | nil => exact .nil
  | snoc _ hadj ih =>
    obtain ⟨hback, hw⟩ := hsymm _ _ hadj
    rw [add_comm, hw]
    exact Walk.cons hback ih

theorem exists_walk_iff {v : α} : (∃ c, Walk adj w s v c) ↔ Relation.ReflTransGen adj s v := by
  constructor
  · rintro ⟨c, h⟩
    induction h with
    | nil => exact .refl
    | snoc _ hadj ih => exact ih.tail hadj
  · intro h
    induction h with
    | refl => exact ⟨0, .nil⟩
    | tail _ hadj ih =>
      obtain ⟨c, hc⟩ := ih
      exact ⟨_, hc.snoc hadj⟩

variable [LinearOrder W]

/-- `d` is the least cost of a walk from `s` to `v`. -/
def LeastCost (adj : α → α → Prop) (w : α → α → W) (s v : α) (d : W) : Prop :=
  Walk adj w s v d ∧ ∀ c, Walk adj w s v c → d ≤ c

/-- No label along an edge can be improved. -/
def Relaxed (adj : α → α → Prop) (w : α → α → W) (label : α → Option W) (v : α) (d : W) : Prop :=
  ∀ u, adj v u → ∃ d', label u = some d' ∧ d' ≤ d + w v u

variable [IsOrderedAddMonoid W]

theorem Walk.nonneg (hw : ∀ a b, 0 ≤ w a b) {v : α} {c : W} (h : Walk adj w s v c) : 0 ≤ c := by
  induction h with
  | nil => exact le_refl 0
  | snoc _ _ ih => exact add_nonneg ih (hw _ _)

/-- With positive costs, only staying is free. -/
theorem Walk.eq_or_pos (hw : ∀ a b, adj a b → 0 < w a b) {v : α} {c : W} (h : Walk adj w s v c) :
    (s = v ∧ c = 0) ∨ 0 < c := by
  induction h with
  | nil => exact .inl ⟨rfl, rfl⟩
  | snoc _ hadj ih =>
    refine .inr ((hw _ _ hadj).trans_le (le_add_of_nonneg_left ?_))
    rcases ih with ⟨-, hc⟩ | hc
    · exact hc.ge
    · exact hc.le

/-- **Labels that no edge improves are no more than any walk costs.** -/
theorem Walk.le_label {label : α → Option W} {d₀ : W} (hs : label s = some d₀) (h₀ : d₀ ≤ 0)
    (hrelaxed : ∀ v d, label v = some d → Relaxed adj w label v d) {v : α} {c : W}
    (h : Walk adj w s v c) : ∃ d, label v = some d ∧ d ≤ c := by
  induction h with
  | nil => exact ⟨d₀, hs, h₀⟩
  | snoc _ hadj ih =>
    obtain ⟨d, hd, hle⟩ := ih
    obtain ⟨d', hd', hle'⟩ := hrelaxed _ d hd _ hadj
    exact ⟨d', hd', hle'.trans (add_le_add_left hle _)⟩

/-- Labels that are costs of walks, none of which an edge could improve. -/
structure Labels (adj : α → α → Prop) (w : α → α → W) (s : α) (label : α → Option W) : Prop where
  source : ∃ d, label s = some d ∧ d ≤ 0
  walk : ∀ v d, label v = some d → Walk adj w s v d
  relaxed : ∀ v d, label v = some d → Relaxed adj w label v d

/-- What can be reached has a label. -/
theorem Labels.exists_of_walk {label : α → Option W} (h : Labels adj w s label) {v : α} {c : W}
    (hwalk : Walk adj w s v c) : ∃ d, label v = some d := by
  obtain ⟨d₀, hd₀, hle⟩ := h.source
  obtain ⟨d, hd, -⟩ := hwalk.le_label hd₀ hle h.relaxed
  exact ⟨d, hd⟩

/-- **The labels are the least costs**, and label exactly what can be reached. -/
theorem Labels.leastCost {label : α → Option W} (h : Labels adj w s label) (v : α) (d : W) :
    label v = some d ↔ LeastCost adj w s v d := by
  obtain ⟨d₀, hs, h₀⟩ := h.source
  constructor
  · intro hd
    refine ⟨h.walk v d hd, fun c hc => ?_⟩
    obtain ⟨d', hd', hle⟩ := hc.le_label hs h₀ h.relaxed
    rw [hd, Option.some.injEq] at hd'
    exact hd' ▸ hle
  · rintro ⟨hd, hleast⟩
    obtain ⟨d', hd', hle⟩ := hd.le_label hs h₀ h.relaxed
    rw [hd', le_antisymm hle (hleast d' (h.walk v d' hd'))]

end Lib
end CeforeEmu
