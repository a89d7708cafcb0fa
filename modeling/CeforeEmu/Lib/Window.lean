import Mathlib.Data.List.DropRight

/-!
# Bounded histories

A list that is kept at no more than `n` entries, by dropping the oldest one before it grows, is the
last `n` of everything that was ever put on it (`pushBounded_rtake` is the step). So what such a list
holds can be said of the whole history.
-/

set_option autoImplicit false

namespace CeforeEmu
namespace Lib

variable {α : Type}

/-- `if len(xs) >= n: del xs[0]`, then `xs.append(x)`. -/
def pushBounded (n : ℕ) (xs : List α) (x : α) : List α :=
  (if n ≤ xs.length then xs.tail else xs) ++ [x]

theorem length_rtake (n : ℕ) (xs : List α) : (xs.rtake n).length = min n xs.length := by
  rw [List.rtake, List.length_drop]
  omega

theorem rtake_of_length_le {n : ℕ} {xs : List α} (h : xs.length ≤ n) : xs.rtake n = xs := by
  rw [List.rtake, Nat.sub_eq_zero_of_le h, List.drop_zero]

theorem tail_rtake_succ {n : ℕ} {xs : List α} (h : n + 1 ≤ xs.length) :
    (xs.rtake (n + 1)).tail = xs.rtake n := by
  rw [List.rtake, List.tail_drop, List.rtake]
  congr 1
  omega

/-- The last `m` of the last `n`. -/
theorem rtake_rtake {m n : ℕ} (h : m ≤ n) (xs : List α) : (xs.rtake n).rtake m = xs.rtake m := by
  rw [List.rtake, length_rtake, List.rtake, List.drop_drop, List.rtake]
  congr 1
  omega

/-- One more entry. -/
theorem pushBounded_rtake (n : ℕ) (xs : List α) (x : α) :
    pushBounded (n + 1) (xs.rtake (n + 1)) x = (xs ++ [x]).rtake (n + 1) := by
  rw [pushBounded, List.rtake_concat_succ, length_rtake]
  by_cases h : n + 1 ≤ xs.length
  · rw [if_pos (by omega), tail_rtake_succ h]
  · rw [if_neg (by omega), rtake_of_length_le (by omega), rtake_of_length_le (by omega)]

end Lib
end CeforeEmu
