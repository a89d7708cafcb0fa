import Mathlib.Data.List.Sort

/-!
# Small pieces of Python

The exceptions the modelled functions raise, `sorted` on integers, the string methods
they call, and the one fact about decimal numerals the whole development leans
on: `f"h{i}"` names a different node for a different `i`.
-/

set_option autoImplicit false

namespace CeforeEmu
namespace Lib

/-- A raised exception: its class and its message. -/
inductive PyErr where
  | valueError (msg : String)
  | typeError (msg : String)
  | keyError (msg : String)
  | indexError (msg : String)
  | attributeError (msg : String)
  | runtimeError (msg : String)
  deriving DecidableEq, Repr

/-- How a computation with a `while` loop fails: with an exception, or, in the model only, by
    running out of the fuel the loop was given. -/
inductive Fault where
  | raised (err : PyErr)
  | outOfFuel
  deriving DecidableEq, Repr

/-- `sorted(xs)` on integers. -/
def sorted (xs : List Nat) : List Nat := xs.insertionSort (· ≤ ·)

theorem mem_sorted {xs : List Nat} {x : Nat} : x ∈ sorted xs ↔ x ∈ xs :=
  (List.perm_insertionSort (· ≤ ·) xs).mem_iff

theorem sorted_nodup {xs : List Nat} (h : xs.Nodup) : (sorted xs).Nodup :=
  (List.perm_insertionSort (· ≤ ·) xs).nodup_iff.mpr h

theorem sorted_lt {xs : List Nat} (h : xs.Nodup) : (sorted xs).Pairwise (· < ·) := by
  have hle : (sorted xs).Pairwise (· ≤ ·) := List.pairwise_insertionSort _ _
  exact (hle.and (sorted_nodup h)).imp fun h => lt_of_le_of_ne h.1 h.2

/-- `range(n)`. -/
def intRange (n : Int) : List Int := (List.range n.toNat).map Int.ofNat

theorem mem_intRange {n i : Int} : i ∈ intRange n ↔ 0 ≤ i ∧ i < n := by
  rw [intRange, List.mem_map]
  constructor
  · rintro ⟨k, hk, rfl⟩
    rw [List.mem_range] at hk
    exact ⟨Int.natCast_nonneg k, by simp only [Int.ofNat_eq_natCast]; omega⟩
  · rintro ⟨hpos, hlt⟩
    exact ⟨i.toNat, List.mem_range.mpr (by omega), by simp only [Int.ofNat_eq_natCast]; omega⟩

/-- A sequence of two that returns: both return. -/
theorem bind_eq_ok {ε α β : Type} {x : Except ε α} {f : α → Except ε β} {b : β} :
    (x >>= f) = .ok b ↔ ∃ a, x = .ok a ∧ f a = .ok b := by
  cases x with
  | error err => exact ⟨(nomatch ·), fun ⟨_, h, _⟩ => nomatch h⟩
  | ok a =>
    constructor
    · intro h
      exact ⟨a, rfl, h⟩
    · rintro ⟨a', ha, h⟩
      cases ha
      exact h

theorem toOption_eq_some {ε α : Type} {x : Except ε α} {a : α} :
    x.toOption = some a ↔ x = .ok a := by
  cases x with
  | error err => exact ⟨(nomatch ·), (nomatch ·)⟩
  | ok a' =>
    constructor
    · intro h
      rw [Option.some.inj h]
    · intro h
      cases h
      rfl

/-- `str.replace` on character lists. The counter is how much of a match is still to be
    skipped, so that the recursion is on the text alone. -/
def replaceChars (old new : List Char) : Nat → List Char → List Char
  | _, [] => []
  | 0, c :: cs =>
      if old.isPrefixOf (c :: cs) then new ++ replaceChars old new (old.length - 1) cs
      else c :: replaceChars old new 0 cs
  | n + 1, _ :: cs => replaceChars old new n cs

/-- `text.replace(old, new)`, for a non-empty `old`. -/
def strReplace (text old new : String) : String :=
  String.ofList (replaceChars old.toList new.toList 0 text.toList)

/-- ASCII white space. -/
def isSpace (c : Char) : Bool := c = ' ' ∨ (9 ≤ c.toNat ∧ c.toNat ≤ 13)

/-- `text.strip()`. -/
def strStrip (text : String) : String :=
  String.ofList (((text.toList.dropWhile isSpace).reverse.dropWhile isSpace).reverse)

/-- `text.split()` on character lists; the first argument is the word read so far. -/
def splitChars : List Char → List Char → List (List Char)
  | word, [] => if word.isEmpty then [] else [word]
  | word, c :: cs =>
      if isSpace c then (if word.isEmpty then [] else [word]) ++ splitChars [] cs
      else splitChars (word ++ [c]) cs

/-- `text.split()`. -/
def strSplit (text : String) : List String := (splitChars [] text.toList).map String.ofList

/-- One character inside a `repr`, between the quotes `q`. Characters outside ASCII are
    taken to be printable. -/
def reprChar (q c : Char) : List Char :=
  if c = '\\' ∨ c = q then ['\\', c]
  else if c = '\n' then ['\\', 'n']
  else if c = '\r' then ['\\', 'r']
  else if c = '\t' then ['\\', 't']
  else if c.toNat < 32 ∨ c.toNat = 127 then
    ['\\', 'x', Nat.digitChar (c.toNat / 16), Nat.digitChar (c.toNat % 16)]
  else [c]

/-- `repr(text)`: single quotes, unless the text has one and no double quote. -/
def strRepr (text : String) : String :=
  let cs := text.toList
  let q := if '\'' ∈ cs ∧ '"' ∉ cs then '"' else '\''
  String.ofList (q :: cs.flatMap (reprChar q) ++ [q])

theorem toString_nat_injective {m n : Nat} (h : toString m = toString n) : m = n := by
  have hl : Nat.toDigits 10 m = Nat.toDigits 10 n := by
    rw [← Nat.toList_repr, ← Nat.toList_repr]
    exact congrArg String.toList h
  have := congrArg (fun l => Nat.ofDigitChars 10 l 0) hl
  simpa only [Nat.ofDigitChars_ten_toDigits] using this

/-- `f"{p}{i}"` is injective in `i`. -/
theorem numbered_injective (p : String) {m n : Nat} (h : p ++ toString m = p ++ toString n) :
    m = n := by
  have hl := congrArg String.toList h
  rw [String.toList_append, String.toList_append] at hl
  exact toString_nat_injective (String.toList_injective (List.append_cancel_left hl))

end Lib
end CeforeEmu
