import Mathlib
import CeforeEmu.Core.Value

/-!
# Checks on the fields of a mapping

What the validator (`core/config/validator.py`) asks of single values, and the shape most of its
checks have: a field that is there and is not as it should be gives one message.
-/

set_option autoImplicit false

namespace CeforeEmu
namespace Core

open Lib

/-! ## Text -/

/-- `c.isspace()`. -/
def isUnicodeSpace (c : Char) : Bool :=
  let n := c.toNat
  (9 ≤ n ∧ n ≤ 13) ∨ (28 ≤ n ∧ n ≤ 32) ∨ n = 0x85 ∨ n = 0xA0 ∨ n = 0x1680 ∨
    (0x2000 ≤ n ∧ n ≤ 0x200A) ∨ n = 0x2028 ∨ n = 0x2029 ∨ n = 0x202F ∨ n = 0x205F ∨ n = 0x3000

/-- `not text.strip()`. -/
def isBlank (text : String) : Bool := text.toList.all isUnicodeSpace

/-- `text.strip()`. -/
def stripText (text : String) : String :=
  String.ofList (((text.toList.dropWhile isUnicodeSpace).reverse.dropWhile isUnicodeSpace).reverse)

/-- `needle in text`. -/
def textContains (text needle : String) : Bool :=
  text.toList.tails.any fun rest => needle.toList.isPrefixOf rest

/-- `safe_uri_label`. -/
def safeUriLabel (uri : String) : String := strReplace (strReplace uri "ccnx:/" "") "/" "_"

/-! ## Single values -/

section Values

variable {τ : Type}

namespace Value

def isInt : Value τ → Bool
  | .int _ => true
  | _ => false

def isBool : Value τ → Bool
  | .bool _ => true
  | _ => false

def isStr : Value τ → Bool
  | .str _ => true
  | _ => false

def isDict : Value τ → Bool
  | .dict _ => true
  | _ => false

def isList : Value τ → Bool
  | .list _ => true
  | _ => false

/-- `isinstance(v, list) and all(p(item) for item in v)`. -/
def isListOf (p : Value τ → Bool) : Value τ → Bool
  | .list vs => vs.all p
  | _ => false

/-- A `dict` of strings. -/
def isTextDict : Value τ → Bool
  | .dict d => d.all fun e =>
      match e.1, e.2 with
      | .str _, .str _ => true
      | _, _ => false
  | _ => false

/-- An integer, and not below a minimum. -/
def intAtLeast (minimum : Int) : Value τ → Bool
  | .int n => ¬ n < minimum
  | _ => false

def intBetween (lo hi : Int) : Value τ → Bool
  | .int n => lo ≤ n ∧ n ≤ hi
  | _ => false

/-- `v in choices`, a tuple of strings. -/
def isOneOf (choices : List String) : Value τ → Bool
  | .str s => choices.contains s
  | _ => false

/-- A string with something in it besides white space. -/
def isFilledText : Value τ → Bool
  | .str s => ¬ isBlank s
  | _ => false

variable [IntCast τ]

/-- A number, and not below a minimum. -/
def numberAtLeast [LT τ] [DecidableLT τ] (minimum : τ) (v : Value τ) : Bool :=
  match isNumber v with
  | some x => ¬ x < minimum
  | none => false

/-- A number, and not `<= 0`. -/
def isPositive [LE τ] [DecidableLE τ] (v : Value τ) : Bool :=
  match isNumber v with
  | some x => ¬ x ≤ ((0 : Int) : τ)
  | none => false

omit [IntCast τ] in
/-- `_is_number(v) and math.isfinite(v)`. An integer that rounds to no float raises, and counts as
    not finite. -/
def isFinite [FloatFacts τ] : Value τ → Bool
  | .int n => n.natAbs < 2 ^ 1024 - 2 ^ 970
  | .num x => FloatFacts.isFinite x
  | _ => false

/-- A number that is finite and `> 0`. -/
def isPositiveFinite [FloatFacts τ] [LT τ] [DecidableLT τ] (v : Value τ) : Bool :=
  v.isFinite && match isNumber v with
    | some x => ((0 : Int) : τ) < x
    | none => false

end Value

end Values

/-! ## Fields -/

section Fields

variable {τ : Type} [DecidableEq τ]

/-- A field that is there and is not as it should be. -/
def fieldErrors (m : Mapping τ) (field : String) (ok : Value τ → Bool) (msg : String) :
    List String :=
  match m.get? field with
  | none => []
  | some v => if ok v then [] else [msg]

/-- A field that has to be there, and as it should be. -/
def requiredErrors (m : Mapping τ) (field : String) (missing : String) (ok : Value τ → Bool)
    (msg : String) : List String :=
  match m.get? field with
  | none => [missing]
  | some v => if ok v then [] else [msg]

/-- `bool(m.get(field))`. -/
def fieldTruthy [IntCast τ] (m : Mapping τ) (field : String) : Bool :=
  match m.get? field with
  | none => false
  | some v => v.truthy

/-- `sorted(str(k) for k in set(m) - allowed)`. -/
def unknownKeys [FloatFacts τ] (m : Mapping τ) (allowed : List String) : List String :=
  let others := m.filter fun e : Key τ × Value τ =>
    match e.1 with
    | .str k => ¬ allowed.contains k
    | _ => true
  (others.map fun e => e.1.text).insertionSort (· ≤ ·)

end Fields

end Core
end CeforeEmu
