import Mathlib.Data.Nat.Basic

/-!
# Following next hops

A relation `R a b` says that `a` may hand what it has to `b`. `Arrives R dest hops a`: whichever
next hop is taken at each node, it is at `dest` after this many hops, and on the way every node has
one to take.
-/

set_option autoImplicit false

namespace CeforeEmu
namespace Lib

variable {α : Type} {R : α → α → Prop} {dest : α}

inductive Arrives (R : α → α → Prop) (dest : α) : ℕ → α → Prop where
  | here : Arrives R dest 0 dest
  | hop {hops : ℕ} {a : α} : a ≠ dest → (∃ b, R a b) → (∀ b, R a b → Arrives R dest hops b) →
      Arrives R dest (hops + 1) a

namespace Arrives

/-- **The rank rule.** If every node that is not the destination has a next hop, and every next hop
    is one lower in rank, a node of rank `n` is `n` hops away. `P` holds of the nodes that are met. -/
theorem of_rank {P : α → Prop} (rank : α → ℕ) (hzero : ∀ a, P a → rank a = 0 → a = dest)
    (hdest : rank dest = 0) (hnext : ∀ a, P a → a ≠ dest → ∃ b, R a b)
    (hdown : ∀ a b, P a → a ≠ dest → R a b → P b ∧ rank b + 1 = rank a) {a : α} (ha : P a) :
    Arrives R dest (rank a) a := by
  obtain ⟨n, hn⟩ : ∃ n, rank a = n := ⟨_, rfl⟩
  rw [hn]
  induction n generalizing a with
  | zero =>
    obtain rfl := hzero a ha hn
    exact .here
  | succ n ih =>
    have hne : a ≠ dest := by
      rintro rfl
      omega
    refine .hop hne (hnext a ha hne) fun b hab => ?_
    obtain ⟨hb, hrank⟩ := hdown a b ha hne hab
    exact ih hb (by omega)

end Arrives

end Lib
end CeforeEmu
