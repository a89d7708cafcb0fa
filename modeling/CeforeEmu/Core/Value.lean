import CeforeEmu.Lib.Dict
import CeforeEmu.Lib.Py

/-!
# Values of a configuration

What a YAML or JSON document is read into: scalars, lists, and mappings whose keys are scalars.
Nothing is known about a value until someone looks, so the code that reads a configuration is a
case analysis over this type.

The floats of a document are a parameter `τ`. The code adds and compares them, and it prints them;
what it needs beyond arithmetic is `FloatFacts`. Integers are unbounded and can be printed however
long they are.
-/

set_option autoImplicit false

namespace CeforeEmu
namespace Core

open Lib

/-- What the code asks of a float besides its order. -/
class FloatFacts (τ : Type) where
  /-- `repr(x)`, which is also `str(x)`. -/
  text : τ → String
  /-- `math.isfinite(x)`. -/
  isFinite : τ → Bool
  /-- The float `0.001`. -/
  milli : τ

/-- Rationals are floats that are never rounded and never overflow. -/
instance : FloatFacts Rat where
  text x := toString x
  isFinite _ := true
  milli := 1 / 1000

/-- A scalar as the key of a mapping. -/
inductive Key (τ : Type) where
  | null
  | bool (b : Bool)
  | int (n : Int)
  | num (x : τ)
  | str (s : String)
  deriving DecidableEq

instance {τ : Type} : Coe String (Key τ) := ⟨Key.str⟩

theorem Key.str_ne {τ : Type} {a b : String} (h : a ≠ b) : (Key.str a : Key τ) ≠ .str b :=
  fun heq => h (Key.str.inj heq)

/-- A value of a document. -/
inductive Value (τ : Type) where
  | null
  | bool (b : Bool)
  | int (n : Int)
  | num (x : τ)
  | str (s : String)
  | list (vs : List (Value τ))
  | dict (d : List (Key τ × Value τ))

/-- A `dict` of a document. -/
abbrev Mapping (τ : Type) := Dict (Key τ) (Value τ)

namespace Value

variable {τ : Type}

/-- `type(v).__name__`. -/
def typeName : Value τ → String
  | .null => "NoneType"
  | .bool _ => "bool"
  | .int _ => "int"
  | .num _ => "float"
  | .str _ => "str"
  | .list _ => "list"
  | .dict _ => "dict"

/-- `v is None`. -/
def isNull : Value τ → Bool
  | .null => true
  | _ => false

/-- What a value counts as in arithmetic: `bool` is an integer in Python. -/
def number? [IntCast τ] : Value τ → Option τ
  | .bool b => some ((if b then 1 else 0 : Int) : τ)
  | .int n => some (n : τ)
  | .num x => some x
  | _ => none

/-- `bool(v)`. -/
def truthy [IntCast τ] [DecidableEq τ] : Value τ → Bool
  | .null => false
  | .bool b => b
  | .int n => n ≠ 0
  | .num x => x ≠ ((0 : Int) : τ)
  | .str s => s ≠ ""
  | .list vs => !vs.isEmpty
  | .dict d => !d.isEmpty

end Value

/-- `_is_number`: an `int` or a `float`, and no `bool`. -/
def isNumber {τ : Type} [IntCast τ] : Value τ → Option τ
  | .int n => some (n : τ)
  | .num x => some x
  | _ => none

/-- The exception a lookup in a `dict` or a `set` raises on a value that cannot be a key. -/
def unhashable? {τ : Type} : Option (Value τ) → Option PyErr
  | some (.list _) => some (.typeError "unhashable type: 'list'")
  | some (.dict _) => some (.typeError "unhashable type: 'dict'")
  | _ => none

/-- A value as a key. Numbers that are equal are one key in Python, here they are kept apart by
    their type; what is asked of keys below is asked of strings and of integers. -/
def Value.asKey {τ : Type} : Value τ → Except PyErr (Key τ)
  | .null => .ok .null
  | .bool b => .ok (.bool b)
  | .int n => .ok (.int n)
  | .num x => .ok (.num x)
  | .str s => .ok (.str s)
  | .list _ => .error (.typeError "unhashable type: 'list'")
  | .dict _ => .error (.typeError "unhashable type: 'dict'")

/-! ## Equality -/

section Equality

variable {τ : Type} [IntCast τ] [DecidableEq τ] [LE τ] [DecidableLE τ]

/-- The integer a value is: `bool` is one. -/
def Value.integer? : Value τ → Option Int
  | .bool b => some (if b then 1 else 0)
  | .int n => some n
  | _ => none

/-- `a == b` between numbers. A float that is no number is not even equal to itself. -/
def Value.sameNumber (a b : Value τ) : Bool :=
  match a.integer?, b.integer? with
  | some m, some n => m = n
  | _, _ =>
      match a.number?, b.number? with
      | some x, some y => x ≤ y ∧ y ≤ x
      | _, _ => false

mutual

/-- `a == b`. -/
def Value.pyEq : Value τ → Value τ → Bool
  | .null, .null => true
  | .str s, .str s' => s = s'
  | .list vs, .list ws => Value.pyEqItems vs ws
  | .dict d, .dict e => d.length == e.length && Value.pyEqEntries d e
  | a, b => a.sameNumber b

def Value.pyEqItems : List (Value τ) → List (Value τ) → Bool
  | [], [] => true
  | v :: vs, w :: ws => v.pyEq w && Value.pyEqItems vs ws
  | _, _ => false

def Value.pyEqEntries : List (Key τ × Value τ) → List (Key τ × Value τ) → Bool
  | [], _ => true
  | (k, v) :: d, e =>
      (match Dict.get? e k with
        | some w => v.pyEq w
        | none => false) && Value.pyEqEntries d e

end

theorem Value.pyEq_null : (Value.null : Value τ).pyEq .null = true := rfl

theorem Value.pyEq_int_null (n : ℤ) : (Value.int n : Value τ).pyEq .null = false := rfl

theorem Value.pyEq_int (n m : ℤ) : (Value.int n : Value τ).pyEq (.int m) = decide (n = m) := rfl

end Equality

/-! ## How values are printed -/

section Text

variable {τ : Type} [FloatFacts τ]

def boolText (b : Bool) : String := if b then "True" else "False"

/-- `str(key)`. -/
def Key.text : Key τ → String
  | .null => "None"
  | .bool b => boolText b
  | .int n => toString n
  | .num x => FloatFacts.text x
  | .str s => s

/-- `repr(key)`. -/
def Key.repr : Key τ → String
  | .str s => strRepr s
  | key => key.text

mutual

/-- `repr(v)`. -/
def Value.repr : Value τ → String
  | .null => "None"
  | .bool b => boolText b
  | .int n => toString n
  | .num x => FloatFacts.text x
  | .str s => strRepr s
  | .list vs => "[" ++ Value.reprItems vs ++ "]"
  | .dict d => "\x7b" ++ Value.reprEntries d ++ "\x7d"

def Value.reprItems : List (Value τ) → String
  | [] => ""
  | [v] => v.repr
  | v :: vs => v.repr ++ ", " ++ Value.reprItems vs

def Value.reprEntries : List (Key τ × Value τ) → String
  | [] => ""
  | [(k, v)] => k.repr ++ ": " ++ v.repr
  | (k, v) :: d => k.repr ++ ": " ++ v.repr ++ ", " ++ Value.reprEntries d

end

/-- `str(v)`. -/
def Value.text : Value τ → String
  | .str s => s
  | v => v.repr

end Text

end Core
end CeforeEmu
