import CeforeEmu.Lib.Text

/-!
# Patterns

Python's regular expressions as far as the code uses them. A pattern lists what it can match at
the start of a text, in the order in which a backtracking matcher tries it, each with what is left
of the text; the first of the list is the match. So greedy and lazy repetitions differ only in the
order they list their matches in, and a group is the value a part of the pattern returns.

`\d` and `\s` are those of a `str` pattern: every decimal digit and all white space of Unicode.
-/

set_option autoImplicit false

namespace CeforeEmu
namespace Lib

def Pattern (α : Type) : Type := Text → List (α × Text)

namespace Pattern

variable {α β : Type}

protected def pure (a : α) : Pattern α := fun text => [(a, text)]

protected def bind (p : Pattern α) (f : α → Pattern β) : Pattern β := fun text =>
  (p text).flatMap fun m => f m.1 m.2

instance : Monad Pattern where
  pure := Pattern.pure
  bind := Pattern.bind

/-- A literal. -/
def lit (s : String) : Pattern Unit := fun text =>
  if s.toList.isPrefixOf text then [((), text.drop s.toList.length)] else []

/-- One character of a class. -/
def one (ok : Char → Bool) : Pattern Char
  | [] => []
  | c :: cs => if ok c then [(c, cs)] else []

/-- `[...]*`. -/
def many (ok : Char → Bool) : Pattern Text
  | [] => [([], [])]
  | c :: cs =>
      (if ok c then (many ok cs).map fun m => (c :: m.1, m.2) else []) ++ [([], c :: cs)]

/-- `[...]*?`. -/
def manyLazy (ok : Char → Bool) : Pattern Text
  | [] => [([], [])]
  | c :: cs =>
      ([], c :: cs) :: if ok c then (manyLazy ok cs).map fun m => (c :: m.1, m.2) else []

/-- `[...]+`. -/
def some (ok : Char → Bool) : Pattern Text := do
  let c ← one ok
  let cs ← many ok
  return c :: cs

/-- `[...]+?`. -/
def someLazy (ok : Char → Bool) : Pattern Text := do
  let c ← one ok
  let cs ← manyLazy ok
  return c :: cs

/-- `[...]{n}`. -/
def times (ok : Char → Bool) : ℕ → Pattern Text
  | 0 => Pattern.pure []
  | n + 1 => do
      let c ← one ok
      let cs ← times ok n
      return c :: cs

/-- `(a|b|...)` of literals: the literal that is there. -/
def oneOf (ss : List String) : Pattern String := fun text =>
  ss.flatMap fun s => (lit s text).map fun m => (s, m.2)

/-- `$`: at the end, or before a line feed that ends the text. -/
def atEnd : Pattern Unit := fun text => if text = [] ∨ text = ['\n'] then [((), text)] else []

/-- What `.` matches. -/
def dot (c : Char) : Bool := c ≠ '\n'

/-- `re.match`. -/
def matchStart (p : Pattern α) (text : Text) : Option α := (p text).head?.map (·.1)

/-- `re.search`. -/
def search (p : Pattern α) : Text → Option α
  | [] => matchStart p []
  | c :: cs =>
      match matchStart p (c :: cs) with
      | .some a => .some a
      | none => search p cs

/-- `re.finditer`, for a pattern that matches no empty text. The counter is how much of the last
    match is still to be skipped. -/
def findIter (p : Pattern α) : ℕ → Text → List α
  | _, [] => []
  | n + 1, _ :: cs => findIter p n cs
  | 0, c :: cs =>
      match (p (c :: cs)).head? with
      | .some (a, rest) => a :: findIter p (cs.length - rest.length) cs
      | none => findIter p 0 cs

/-- `re.sub`, likewise. -/
def sub (p : Pattern α) (new : Text) : ℕ → Text → Text
  | _, [] => []
  | n + 1, _ :: cs => sub p new n cs
  | 0, c :: cs =>
      match (p (c :: cs)).head? with
      | .some (_, rest) => new ++ sub p new (cs.length - rest.length) cs
      | none => c :: sub p new 0 cs

end Pattern

/-! ## Numerals -/

namespace Text

/-- The zeros of Unicode's decimal digits; the other nine of each come after it. -/
def digitZeros : List ℕ :=
  [0x30, 0x660, 0x6f0, 0x7c0, 0x966, 0x9e6, 0xa66, 0xae6, 0xb66, 0xbe6, 0xc66, 0xce6, 0xd66, 0xde6,
    0xe50, 0xed0, 0xf20, 0x1040, 0x1090, 0x17e0, 0x1810, 0x1946, 0x19d0, 0x1a80, 0x1a90, 0x1b50,
    0x1bb0, 0x1c40, 0x1c50, 0xa620, 0xa8d0, 0xa900, 0xa9d0, 0xa9f0, 0xaa50, 0xabf0, 0xff10,
    0x104a0, 0x10d30, 0x11066, 0x110f0, 0x11136, 0x111d0, 0x112f0, 0x11450, 0x114d0, 0x11650,
    0x116c0, 0x11730, 0x118e0, 0x11950, 0x11c50, 0x11d50, 0x11da0, 0x11f50, 0x16a60, 0x16ac0, 0x16b50,
    0x1d7ce, 0x1d7d8, 0x1d7e2, 0x1d7ec, 0x1d7f6, 0x1e140, 0x1e2f0, 0x1e4f0, 0x1e950, 0x1fbf0]

/-- `unicodedata.decimal(ch)`. -/
def digit? (c : Char) : Option ℕ :=
  (digitZeros.find? fun first => first ≤ c.toNat ∧ c.toNat < first + 10).map fun first =>
    c.toNat - first

/-- `\d`. -/
def isDigit (c : Char) : Bool := (digit? c).isSome

/-- Digits, a single `_` allowed between any two: their value, read on from `acc`. -/
def digitsFrom : ℕ → Text → Option ℕ
  | _, [] => none
  | acc, c :: cs =>
      match digit? c, cs with
      | none, _ => none
      | some d, [] => some (acc * 10 + d)
      | some d, '_' :: cs => digitsFrom (acc * 10 + d) cs
      | some d, cs => digitsFrom (acc * 10 + d) cs

/-- A sign, and what follows it. -/
def signed (text : Text) : Bool × Text :=
  match text with
  | '-' :: cs => (true, cs)
  | '+' :: cs => (false, cs)
  | cs => (false, cs)

/-- `int(text)`; `none` for its `ValueError`. -/
def int? (text : Text) : Option Int :=
  let (negative, digits) := signed text.strip
  (digitsFrom 0 digits).map fun n => if negative then -(n : Int) else n

/-- The part of a float's text after the sign: digits with or without a point, and an exponent. -/
def isDecimal (text : Text) : Bool :=
  let isDigits (cs : Text) : Bool := (digitsFrom 0 cs).isSome
  let mantissa := text.takeWhile fun c => c ≠ 'e' ∧ c ≠ 'E'
  let whole := mantissa.takeWhile (· ≠ '.')
  let mantissaOk :=
    match mantissa.dropWhile (· ≠ '.') with
    | [] => isDigits whole
    | _ :: [] => isDigits whole
    | _ :: fraction => isDigits fraction && (whole.isEmpty || isDigits whole)
  let exponentOk :=
    match text.dropWhile fun c => c ≠ 'e' ∧ c ≠ 'E' with
    | [] => true
    | _ :: exponent => isDigits (signed exponent).2
  mantissaOk && exponentOk

/-- Whether `float(text)` returns a number. -/
def isFloat (text : Text) : Bool :=
  let (_, rest) := signed text.strip
  let lower := rest.map Char.toLower
  isDecimal rest || lower = "inf".toList || lower = "infinity".toList || lower = "nan".toList

end Text

end Lib
end CeforeEmu
