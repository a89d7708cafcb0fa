import Mathlib.Algebra.Order.Floor.Semiring
import Mathlib.Data.Rat.Floor
import Mathlib.Tactic.FieldSimp
import Mathlib.Tactic.Linarith
import Mathlib.Tactic.Ring

/-!
# Numbers that may not be finite

A float can be infinite, or no number at all. It is compared as IEEE says: an infinity is beyond
every number, and what is no number is neither before nor after anything. `ExtRat` is the rationals
with these values, and nothing is rounded.

`TimeLine` is what a type of times has to offer so that its finite part is a line: a place for each
finite time, with sums and comparisons as there. Rationals are all finite.
-/

set_option autoImplicit false

namespace CeforeEmu
namespace Lib

/-- One interval later one interval less fits in. -/
theorem floor_interval {T t iv : ℚ} (hpos : 0 < iv) (h : t + iv ≤ T) :
    ⌊(T - (t + iv)) / iv⌋₊ + 1 = ⌊(T - t) / iv⌋₊ := by
  have hone : 1 ≤ (T - t) / iv := by
    rw [le_div_iff₀ hpos]
    linarith
  have hsub : (T - (t + iv)) / iv = (T - t) / iv - 1 := by
    field_simp
    ring
  have hfloor : 1 ≤ ⌊(T - t) / iv⌋₊ := Nat.one_le_floor_iff _ |>.mpr hone
  rw [hsub, Nat.floor_sub_one]
  omega

/-- A type of times whose finite part is a line. -/
class TimeLine (τ : Type) [IntCast τ] [Add τ] [LT τ] where
  Finite : τ → Prop
  /-- Where a finite time is. -/
  place : τ → ℚ
  finite_intCast : ∀ n : ℤ, Finite (n : τ)
  place_intCast : ∀ n : ℤ, place (n : τ) = n
  finite_add : ∀ {a b : τ}, Finite (a + b) ↔ Finite a ∧ Finite b
  place_add : ∀ {a b : τ}, Finite a → Finite b → place (a + b) = place a + place b
  lt_iff : ∀ {a b : τ}, Finite a → Finite b → (a < b ↔ place a < place b)
  place_injective : ∀ {a b : τ}, Finite a → Finite b → place a = place b → a = b

namespace TimeLine

variable {τ : Type} [IntCast τ] [Add τ] [LT τ] [TimeLine τ] {t d : τ}

variable (τ) in
theorem zero_not_lt : ¬ ((0 : ℤ) : τ) < ((0 : ℤ) : τ) := by
  rw [lt_iff (finite_intCast 0) (finite_intCast 0)]
  exact lt_irrefl _

theorem place_pos (hd : Finite d) (hpos : ((0 : ℤ) : τ) < d) : 0 < place d := by
  have h := (lt_iff (finite_intCast 0) hd).mp hpos
  rwa [place_intCast, Int.cast_zero] at h

theorem place_lt_add (ht : Finite t) (hd : Finite d) (hpos : ((0 : ℤ) : τ) < d) :
    place t < place (t + d) := by
  rw [place_add ht hd]
  linarith [place_pos hd hpos]

end TimeLine

instance : TimeLine ℚ where
  Finite _ := True
  place q := q
  finite_intCast _ := trivial
  place_intCast _ := rfl
  finite_add := by simp
  place_add _ _ := rfl
  lt_iff _ _ := Iff.rfl
  place_injective _ _ h := h

/-! ## Rationals with infinities -/

/-- A rational, an infinity, or no number. -/
inductive ExtRat where
  | fin (q : ℚ)
  | posInf
  | negInf
  | nan
  deriving DecidableEq

namespace ExtRat

instance : IntCast ExtRat := ⟨fun n => .fin n⟩

def add : ExtRat → ExtRat → ExtRat
  | .fin p, .fin q => .fin (p + q)
  | .nan, _ => .nan
  | _, .nan => .nan
  | .posInf, .negInf => .nan
  | .negInf, .posInf => .nan
  | .posInf, _ => .posInf
  | _, .posInf => .posInf
  | .negInf, _ => .negInf
  | _, .negInf => .negInf

instance : Add ExtRat := ⟨add⟩

def neg : ExtRat → ExtRat
  | .fin q => .fin (-q)
  | .posInf => .negInf
  | .negInf => .posInf
  | .nan => .nan

instance : Sub ExtRat := ⟨fun a b => add a (neg b)⟩

def ltb : ExtRat → ExtRat → Bool
  | .fin p, .fin q => p < q
  | .negInf, .fin _ => true
  | .negInf, .posInf => true
  | .fin _, .posInf => true
  | _, _ => false

instance : LT ExtRat := ⟨fun a b => ltb a b = true⟩

instance : DecidableLT ExtRat := fun a b => inferInstanceAs (Decidable (ltb a b = true))

/-- What is no number is not even equal to itself. -/
def leb : ExtRat → ExtRat → Bool
  | .nan, _ => false
  | a, b => ltb a b || a = b

instance : LE ExtRat := ⟨fun a b => leb a b = true⟩

instance : DecidableLE ExtRat := fun a b => inferInstanceAs (Decidable (leb a b = true))

def isFinite : ExtRat → Bool
  | .fin _ => true
  | _ => false

def place : ExtRat → ℚ
  | .fin q => q
  | _ => 0

theorem isFinite_iff {a : ExtRat} : a.isFinite = true ↔ ∃ q, a = .fin q := by
  cases a <;> simp [isFinite]

@[simp] theorem fin_add (p q : ℚ) : (ExtRat.fin p + .fin q) = .fin (p + q) := rfl

@[simp] theorem fin_lt {p q : ℚ} : (ExtRat.fin p < .fin q) ↔ p < q := by
  show ltb (.fin p) (.fin q) = true ↔ p < q
  simp [ltb]

@[simp] theorem fin_le {p q : ℚ} : (ExtRat.fin p ≤ .fin q) ↔ p ≤ q := by
  show leb (.fin p) (.fin q) = true ↔ p ≤ q
  simp [leb, ltb, le_iff_lt_or_eq]

theorem isFinite_add {a b : ExtRat} : (a + b).isFinite = true ↔ a.isFinite = true ∧ b.isFinite = true := by
  show (add a b).isFinite = true ↔ _
  cases a <;> cases b <;> simp [add, isFinite]

instance : TimeLine ExtRat where
  Finite a := a.isFinite = true
  place := place
  finite_intCast _ := rfl
  place_intCast _ := rfl
  finite_add := isFinite_add
  place_add ha hb := by
    obtain ⟨p, rfl⟩ := isFinite_iff.mp ha
    obtain ⟨q, rfl⟩ := isFinite_iff.mp hb
    rfl
  lt_iff ha hb := by
    obtain ⟨p, rfl⟩ := isFinite_iff.mp ha
    obtain ⟨q, rfl⟩ := isFinite_iff.mp hb
    exact fin_lt
  place_injective ha hb h := by
    obtain ⟨p, rfl⟩ := isFinite_iff.mp ha
    obtain ⟨q, rfl⟩ := isFinite_iff.mp hb
    exact congrArg _ h

end ExtRat

end Lib
end CeforeEmu
