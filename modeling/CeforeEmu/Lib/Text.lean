import Mathlib.Data.List.Basic

/-!
# Text files as Python reads them

A text is its characters. A file opened in text mode has its line ends translated to `\n` before
anything else sees them (`universalNewlines`); `readlines` then cuts after each `\n` and keeps it,
where `splitlines` cuts at every character Python takes for a line boundary and drops it. White
space is Python's, the one of `str.strip` and of `\s` alike.
-/

set_option autoImplicit false

namespace CeforeEmu
namespace Lib

abbrev Text := List Char

namespace Text

/-- `ch.isspace()`. -/
def isWhite (c : Char) : Bool :=
  (9 ≤ c.toNat ∧ c.toNat ≤ 13) ∨ (0x1c ≤ c.toNat ∧ c.toNat ≤ 0x20) ∨ c.toNat = 0x85 ∨
    c.toNat = 0xa0 ∨ c.toNat = 0x1680 ∨ (0x2000 ≤ c.toNat ∧ c.toNat ≤ 0x200a) ∨
    c.toNat = 0x2028 ∨ c.toNat = 0x2029 ∨ c.toNat = 0x202f ∨ c.toNat = 0x205f ∨ c.toNat = 0x3000

/-- The characters `splitlines` cuts at. -/
def isLineBreak (c : Char) : Bool :=
  (0x0a ≤ c.toNat ∧ c.toNat ≤ 0x0d) ∨ (0x1c ≤ c.toNat ∧ c.toNat ≤ 0x1e) ∨ c.toNat = 0x85 ∨
    c.toNat = 0x2028 ∨ c.toNat = 0x2029

/-- `text.lstrip()`. -/
def lstrip (text : Text) : Text := text.dropWhile isWhite

/-- `text.strip()`. -/
def strip (text : Text) : Text := ((lstrip text).reverse.dropWhile isWhite).reverse

/-- `part in text`. -/
def contains (part : String) : Text → Bool
  | [] => part.toList.isEmpty
  | c :: cs => part.toList.isPrefixOf (c :: cs) || contains part cs

/-- What reading in text mode makes of `\r\n` and `\r`. -/
def universalNewlines : Text → Text
  | [] => []
  | '\r' :: '\n' :: cs => '\n' :: universalNewlines cs
  | '\r' :: cs => '\n' :: universalNewlines cs
  | c :: cs => c :: universalNewlines cs

/-- A character before the first of some lines. -/
def consLine (c : Char) : List Text → List Text
  | [] => [[c]]
  | line :: lines => (c :: line) :: lines

/-- `readlines()`. -/
def readLines : Text → List Text
  | [] => []
  | c :: cs => if c = '\n' then [c] :: readLines cs else consLine c (readLines cs)

/-- `text.splitlines()`. -/
def splitLines : Text → List Text
  | [] => []
  | '\r' :: '\n' :: cs => [] :: splitLines cs
  | c :: cs => if isLineBreak c then [] :: splitLines cs else consLine c (splitLines cs)

/-- `"\n".join(lines)`. -/
def joinLines (lines : List Text) : Text := List.intercalate ['\n'] lines

end Text

end Lib
end CeforeEmu
