import Mathlib.Logic.Basic

/-!
# How a computation ends

`Ends F Q x`: the computation `x` returns a value that satisfies `Q`, or fails in a way that `F`
allows. The two halves go together through a program that passes errors on, so that one proof
says both what is computed and which failures are left.
-/

set_option autoImplicit false

namespace CeforeEmu
namespace Lib

variable {ε ε' α β : Type}

def Ends (F : ε → Prop) (Q : α → Prop) : Except ε α → Prop
  | .ok a => Q a
  | .error err => F err

namespace Ends

variable {F : ε → Prop} {F' : ε' → Prop} {Q Q' : α → Prop} {R : β → Prop} {x : Except ε α}

@[simp] theorem ok_iff {a : α} : Ends F Q (.ok a) ↔ Q a := Iff.rfl

@[simp] theorem error_iff {err : ε} : Ends F Q (.error err : Except ε α) ↔ F err := Iff.rfl

theorem mono (h : Ends F Q x) (hQ : ∀ a, Q a → Q' a) : Ends F Q' x := by
  cases x with
  | ok a => exact hQ a h
  | error err => exact h

theorem elim (h : Ends F Q x) : (∃ a, x = .ok a ∧ Q a) ∨ ∃ err, x = .error err ∧ F err := by
  cases x with
  | ok a => exact .inl ⟨a, rfl, h⟩
  | error err => exact .inr ⟨err, rfl, h⟩

end Ends

end Lib
end CeforeEmu
