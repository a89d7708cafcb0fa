import Mathlib.Data.Finset.Card
import Mathlib.Data.Finset.Filter
import Mathlib.Logic.Function.Basic
import Mathlib.Logic.Relation

/-!
# Forests of parent pointers

A forest is a function to parents, and a root is its own parent. That following the parents ends is
said by a rank that grows along them (`Ranked`): it is kept both when a pointer is moved up to the
grandparent (`halve`), which changes no root, and when one root is put under another (`link`), which
merges two trees and leaves the others as they are.
-/

set_option autoImplicit false

namespace CeforeEmu
namespace Lib

variable {α : Type}

/-- Following the parents of a node ends in `r`. -/
inductive Root (parent : α → α) : α → α → Prop where
  | root {r : α} : parent r = r → Root parent r r
  | step {v r : α} : Root parent (parent v) r → Root parent v r

/-- Two nodes of one tree. -/
def SameTree (parent : α → α) (a b : α) : Prop := ∃ r, Root parent a r ∧ Root parent b r

def Ranked (parent : α → α) (rank : α → ℕ) : Prop := ∀ v, parent v ≠ v → rank v < rank (parent v)

section Roots

variable {parent : α → α} {a b c r r' v : α}

theorem Root.fixed (h : Root parent v r) : parent r = r := by
  induction h with
  | root hr => exact hr
  | step _ ih => exact ih

theorem Root.self_iff : Root parent r r ↔ parent r = r := ⟨Root.fixed, Root.root⟩

/-- A root has no root but itself. -/
theorem Root.eq_of_fixed (h : Root parent v r) (hv : parent v = v) : r = v := by
  induction h with
  | root _ => rfl
  | step _ ih =>
    rw [hv] at ih
    exact ih hv

theorem Root.up (h : Root parent v r) : Root parent (parent v) r := by
  cases h with
  | root hr =>
    rw [hr]
    exact .root hr
  | step h => exact h

theorem Root.unique (h : Root parent v r) (h' : Root parent v r') : r = r' := by
  induction h with
  | root hr => exact (h'.eq_of_fixed hr).symm
  | step _ ih => exact ih h'.up

theorem Root.sameTree_iff (ha : Root parent a r) (hb : Root parent b r') :
    SameTree parent a b ↔ r = r' := by
  constructor
  · rintro ⟨root, ha', hb'⟩
    rw [ha.unique ha', hb.unique hb']
  · rintro rfl
    exact ⟨r, ha, hb⟩

theorem SameTree.symm (h : SameTree parent a b) : SameTree parent b a := by
  obtain ⟨r, ha, hb⟩ := h
  exact ⟨r, hb, ha⟩

theorem SameTree.trans (h : SameTree parent a b) (h' : SameTree parent b c) :
    SameTree parent a c := by
  obtain ⟨r, ha, hb⟩ := h
  obtain ⟨r', hb', hc⟩ := h'
  exact ⟨r, ha, hb.unique hb' ▸ hc⟩

end Roots

/-! ## Following the parents ends -/

section Above

variable {parent : α → α} {rank : α → ℕ} {nodes : Finset α} {v : α}

/-- How many nodes have a higher rank. -/
def above (nodes : Finset α) (rank : α → ℕ) (v : α) : ℕ := (nodes.filter (rank v < rank ·)).card

theorem above_lt_of_rank {u : α} (hu : u ∈ nodes) (h : rank v < rank u) :
    above nodes rank u < above nodes rank v := by
  refine Finset.card_lt_card ⟨fun x hx => ?_, fun hsub => ?_⟩
  · obtain ⟨hmem, hx⟩ := Finset.mem_filter.mp hx
    exact Finset.mem_filter.mpr ⟨hmem, h.trans hx⟩
  · exact lt_irrefl _ (Finset.mem_filter.mp (hsub (Finset.mem_filter.mpr ⟨hu, h⟩))).2

theorem above_lt_card (rank : α → ℕ) (hv : v ∈ nodes) : above nodes rank v < nodes.card := by
  refine Finset.card_lt_card ⟨Finset.filter_subset _ _, fun hsub => ?_⟩
  exact lt_irrefl _ (Finset.mem_filter.mp (hsub hv)).2

theorem Ranked.exists_root (h : Ranked parent rank) (hclosed : ∀ v ∈ nodes, parent v ∈ nodes) :
    ∀ (k : ℕ) {v : α}, v ∈ nodes → above nodes rank v ≤ k → ∃ r ∈ nodes, Root parent v r := by
  intro k
  induction k with
  | zero =>
    intro v hv hk
    by_cases hfixed : parent v = v
    · exact ⟨v, hv, .root hfixed⟩
    · have := above_lt_of_rank (hclosed v hv) (h v hfixed)
      omega
  | succ k ih =>
    intro v hv hk
    by_cases hfixed : parent v = v
    · exact ⟨v, hv, .root hfixed⟩
    · have := above_lt_of_rank (hclosed v hv) (h v hfixed)
      obtain ⟨r, hr, hroot⟩ := ih (hclosed v hv) (by omega)
      exact ⟨r, hr, .step hroot⟩

end Above

/-! ## Moving a pointer to the grandparent -/

section Halve

variable [DecidableEq α] {parent : α → α} {rank : α → ℕ} {v u r : α}

def halve (parent : α → α) (v : α) : α → α := Function.update parent v (parent (parent v))

theorem Ranked.lt_grandparent (h : Ranked parent rank) (hv : parent v ≠ v) :
    rank v < rank (parent (parent v)) := by
  by_cases hp : parent (parent v) = parent v
  · rw [hp]
    exact h v hv
  · exact (h v hv).trans (h (parent v) hp)

theorem Ranked.halve (h : Ranked parent rank) (hv : parent v ≠ v) :
    Ranked (halve parent v) rank := by
  intro u hu
  rw [Lib.halve] at hu ⊢
  by_cases huv : u = v
  · subst huv
    rw [Function.update_self]
    exact h.lt_grandparent hv
  · rw [Function.update_of_ne huv] at hu ⊢
    exact h u hu

theorem Root.halve (h : Root parent u r) (hv : parent v ≠ v) : Root (halve parent v) u r := by
  have hother : ∀ {x}, x ≠ v → Lib.halve parent v x = parent x := fun hx =>
    Function.update_of_ne hx _ _
  induction h with
  | @root r hr =>
    refine .root ?_
    rw [hother fun heq => hv (heq ▸ hr), hr]
  | @step x r _ ih =>
    by_cases hx : x = v
    · -- the parent of `v` is passed over
      subst hx
      refine .step ?_
      have hgrand := ih.up
      rw [hother hv] at hgrand
      rw [Lib.halve, Function.update_self]
      exact hgrand
    · refine .step ?_
      rw [hother hx]
      exact ih

/-- **No root changes.** -/
theorem Ranked.root_halve (h : Ranked parent rank) (hv : parent v ≠ v) {nodes : Finset α}
    (hclosed : ∀ x ∈ nodes, parent x ∈ nodes) (hu : u ∈ nodes) :
    Root (Lib.halve parent v) u r ↔ Root parent u r := by
  constructor
  · intro hroot
    obtain ⟨r', -, hr'⟩ := h.exists_root hclosed _ hu (le_refl _)
    rw [hroot.unique (hr'.halve hv)]
    exact hr'
  · exact fun hroot => hroot.halve hv

end Halve

/-! ## Putting a root under another -/

section Link

variable [DecidableEq α] {parent : α → α} {rank : α → ℕ} {top child u r : α}

def link (parent : α → α) (child top : α) : α → α := Function.update parent child top

theorem Ranked.link (h : Ranked parent rank) (htop : parent top = top) (hne : child ≠ top) :
    ∃ rank', Ranked (link parent child top) rank' := by
  refine ⟨Function.update rank top (max (rank top) (rank child + 1)), fun u hu => ?_⟩
  have hle : ∀ x, rank x ≤ Function.update rank top (max (rank top) (rank child + 1)) x := by
    intro x
    by_cases hx : x = top
    · subst hx
      rw [Function.update_self]
      exact le_max_left _ _
    · rw [Function.update_of_ne hx]
  rw [Lib.link] at hu ⊢
  by_cases hchild : u = child
  · subst hchild
    rw [Function.update_self, Function.update_self, Function.update_of_ne hne]
    exact (Nat.lt_succ_self _).trans_le (le_max_right _ _)
  · rw [Function.update_of_ne hchild] at hu ⊢
    have hnot : u ≠ top := fun heq => hu (heq ▸ htop)
    rw [Function.update_of_ne hnot]
    exact (h u hu).trans_le (hle _)

/-- **The tree of `child` goes to `top`**, and the others keep their roots. -/
theorem Root.link (h : Root parent u r) (htop : parent top = top) (hne : child ≠ top)
    (hchild : parent child = child) :
    Root (link parent child top) u (if r = child then top else r) := by
  have hother : ∀ {x}, x ≠ child → Lib.link parent child top x = parent x := fun hx =>
    Function.update_of_ne hx _ _
  have htop' : Lib.link parent child top top = top := by rw [hother hne.symm, htop]
  induction h with
  | @root r hr =>
    by_cases hrc : r = child
    · subst hrc
      rw [if_pos rfl]
      refine .step ?_
      rw [Lib.link, Function.update_self]
      exact .root htop'
    · rw [if_neg hrc]
      exact .root (by rw [hother hrc, hr])
  | @step x r hroot ih =>
    by_cases hx : x = child
    · subst hx
      rw [hchild] at ih
      exact ih
    · refine .step ?_
      rw [hother hx]
      exact ih

end Link

end Lib
end CeforeEmu
