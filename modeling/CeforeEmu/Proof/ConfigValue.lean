import CeforeEmu.Lib.Lines
import CeforeEmu.Proof.CsModes

/-!
# Setting a configuration value

`_set_config_value` as an update of the values by their keys: what was set is read back, and of the
other keys nothing changes. The two patterns never take a line for two keys, because a key is as
long as it has characters of a name (`eq_of_assigns`). A file that has been written has one line for
the key, between lines that are not for it (`setConfigLines_shape`), so writing it again changes
nothing.
-/

set_option autoImplicit false

namespace CeforeEmu
namespace Proof

open CeforeEmu.Lib CeforeEmu.Runtime.Template

/-! ## Keys -/

/-- A character of an upper-case identifier. -/
def isNameChar (c : Char) : Bool :=
  (0x41 ≤ c.toNat ∧ c.toNat ≤ 0x5a) ∨ (0x30 ≤ c.toNat ∧ c.toNat ≤ 0x39) ∨ c.toNat = 0x5f

/-- An upper-case identifier. -/
structure IsName (key : Text) : Prop where
  ne_nil : key ≠ []
  chars : ∀ c ∈ key, isNameChar c = true

theorem isName_of_all {key : Text} (hne : key ≠ []) (h : key.all isNameChar = true) : IsName key :=
  ⟨hne, List.all_eq_true.mp h⟩

theorem isWhite_of_isNameChar {c : Char} (h : isNameChar c = true) : Text.isWhite c = false := by
  rw [isNameChar, decide_eq_true_eq] at h
  rw [Text.isWhite, decide_eq_false_iff_not]
  omega

theorem isLineBreak_of_isNameChar {c : Char} (h : isNameChar c = true) :
    Text.isLineBreak c = false := by
  rw [isNameChar, decide_eq_true_eq] at h
  rw [Text.isLineBreak, decide_eq_false_iff_not]
  omega

theorem IsName.isKey {key : Text} (h : IsName key) : IsKey key := by
  refine ⟨fun c hc => isLineBreak_of_isNameChar (h.chars c hc), ?_⟩
  obtain ⟨c, rest, rfl⟩ := List.exists_cons_of_ne_nil h.ne_nil
  have hc := h.chars c List.mem_cons_self
  refine ⟨c, rest, rfl, isWhite_of_isNameChar hc, ?_⟩
  rintro rfl
  cases hc

/-- The name at the start of a text that goes on with white space and an equals sign. -/
theorem takeWhile_name {key rest : Text} (h : IsName key) (heq : (Text.lstrip rest).head? = some '=') :
    (key ++ rest).takeWhile isNameChar = key := by
  rw [List.takeWhile_append_of_pos h.chars]
  cases rest with
  | nil => cases heq
  | cons c rest =>
    have hc : isNameChar c = false := by
      by_contra hname
      rw [Bool.not_eq_false] at hname
      rw [Text.lstrip_of_head (isWhite_of_isNameChar hname), List.head?_cons, Option.some.injEq] at heq
      subst heq
      cases hname
    rw [List.takeWhile_cons_of_neg (by simp [hc]), List.append_nil]

/-! ## Lines -/

/-- A line that assigns the key, or would if its `#` were taken away. -/
def isAssignment (key line : Text) : Bool :=
  (readsKey key line).isSome ||
    match line.lstrip with
    | '#' :: rest => (readsKey key rest).isSome
    | _ => false

theorem readsKey_isSome (key line : Text) : (readsKey key line).isSome =
    (key.isPrefixOf line.lstrip &&
      ((Text.lstrip (line.lstrip.drop key.length)).head? == some '=')) := by
  rw [readsKey]
  split
  · rename_i hpre
    rw [hpre, Bool.true_and]
    split
    · rename_i heq
      rw [heq]
      rfl
    · rename_i hne
      symm
      rw [Option.isSome_none, beq_eq_false_iff_ne]
      intro heq
      obtain ⟨value, hvalue⟩ := List.head?_eq_some_iff.mp heq
      exact hne value hvalue
  · rename_i hpre
    rw [Bool.eq_false_iff.mpr hpre]
    rfl

/-- A line that is read is the key, white space and an equals sign. -/
theorem reads_iff {key line : Text} : (readsKey key line).isSome = true ↔
    ∃ rest, line.lstrip = key ++ rest ∧ (Text.lstrip rest).head? = some '=' := by
  rw [readsKey_isSome, Bool.and_eq_true, beq_iff_eq, List.isPrefixOf_iff_prefix]
  constructor
  · rintro ⟨⟨rest, hrest⟩, heq⟩
    rw [← hrest, List.drop_left] at heq
    exact ⟨rest, hrest.symm, heq⟩
  · rintro ⟨rest, hline, heq⟩
    rw [hline, List.drop_left]
    exact ⟨List.prefix_append key rest, heq⟩

/-- The writer's pattern is that of the reader, with or without a `#`. -/
theorem assignsKey_eq {key : Text} (hkey : IsKey key) (line : Text) :
    assignsKey key line = isAssignment key line := by
  rw [isAssignment]
  cases hline : line.lstrip with
  | nil =>
    rw [assignsKey, hline, readsKey_isSome, hline, Bool.or_false]
  | cons c rest =>
    by_cases hc : c = '#'
    · subst hc
      -- no key begins with the mark
      have hnone : (readsKey key line).isSome = false := by
        obtain ⟨d, tail, rfl, -, hhash⟩ := hkey.head
        rw [readsKey_isSome, hline, List.isPrefixOf_cons_cons, beq_false_of_ne hhash]
        rfl
      rw [hnone, Bool.false_or, assignsKey, hline]
      exact (readsKey_isSome key rest).symm
    · rw [assignsKey_of_head hline hc, readsKey_isSome]
      split
      · rename_i heq
        exact absurd (List.cons.inj heq).1 hc
      · rw [Bool.or_false]

/-- **No line is for two keys.** -/
theorem eq_of_assigns {key key' line : Text} (hkey : IsName key) (hkey' : IsName key')
    (h : assignsKey key line = true) (h' : (readsKey key' line).isSome = true) : key = key' := by
  obtain ⟨rest', hline', heq'⟩ := reads_iff.mp h'
  rw [assignsKey_eq hkey.isKey, isAssignment, Bool.or_eq_true] at h
  rcases h with h | h
  · obtain ⟨rest, hline, heq⟩ := reads_iff.mp h
    rw [← takeWhile_name hkey heq, ← takeWhile_name hkey' heq', ← hline, ← hline']
  · -- what is commented out is not read
    obtain ⟨c, tail, rfl, -, hhash⟩ := hkey'.isKey.head
    rw [hline'] at h
    split at h
    · rename_i hmark
      exact absurd (List.cons.inj hmark).1 hhash
    · cases h

/-! ## The lines that are written -/

section Written

variable {key key' entry : Text}

theorem setConfigLines_true (lines : List Text) :
    setConfigLines key entry true lines = lines.filter fun line => !assignsKey key line := by
  induction lines with
  | nil => rfl
  | cons line lines ih =>
    rw [setConfigLines]
    cases hline : assignsKey key line with
    | true =>
      rw [if_pos rfl, if_pos rfl, ih, List.filter_cons_of_neg (by simp [hline])]
    | false =>
      rw [if_neg Bool.false_ne_true, ih, List.filter_cons_of_pos (by simp [hline])]

/-- **One line for the key**, and around it lines that are not for it. -/
theorem setConfigLines_shape (key entry : Text) (lines : List Text) : ∃ front back,
    setConfigLines key entry false lines = front ++ entry :: back ∧
      (∀ line ∈ front, assignsKey key line = false) ∧
      ∀ line ∈ back, assignsKey key line = false := by
  induction lines with
  | nil => exact ⟨[], [], rfl, by simp, by simp⟩
  | cons line lines ih =>
    rw [setConfigLines]
    cases hline : assignsKey key line with
    | true =>
      rw [if_pos rfl, if_neg Bool.false_ne_true, setConfigLines_true]
      refine ⟨[], _, rfl, by simp, fun other hother => ?_⟩
      simpa using (List.mem_filter.mp hother).2
    | false =>
      obtain ⟨front, back, heq, hfront, hback⟩ := ih
      rw [if_neg Bool.false_ne_true, heq]
      exact ⟨line :: front, back, rfl, List.forall_mem_cons.mpr ⟨hline, hfront⟩, hback⟩

/-- Lines of that shape are left as they are. -/
theorem setConfigLines_fixed (hentry : assignsKey key entry = true) {front back : List Text}
    (hfront : ∀ line ∈ front, assignsKey key line = false)
    (hback : ∀ line ∈ back, assignsKey key line = false) :
    setConfigLines key entry false (front ++ entry :: back) = front ++ entry :: back := by
  induction front with
  | nil =>
    rw [List.nil_append, setConfigLines, if_pos hentry, if_neg Bool.false_ne_true,
      setConfigLines_true, List.filter_eq_self.mpr fun line hline => by simp [hback line hline]]
  | cons line front ih =>
    obtain ⟨hline, hfront⟩ := List.forall_mem_cons.mp hfront
    rw [List.cons_append, setConfigLines, hline, if_neg Bool.false_ne_true, ih hfront]

/-- What is read of another key goes through the lines that are kept. -/
theorem findSome?_other {read : Text → Option Text} (hentry : read entry = none)
    (hread : ∀ line, assignsKey key line = true → read line = none) (lines : List Text) :
    ∀ replaced, (setConfigLines key entry replaced lines).findSome? read
      = lines.findSome? read := by
  induction lines with
  | nil =>
    intro replaced
    cases replaced <;> simp [setConfigLines, hentry]
  | cons line lines ih =>
    intro replaced
    rw [setConfigLines, List.findSome?_cons]
    cases hline : assignsKey key line with
    | true =>
      rw [if_pos rfl, hread line hline]
      cases replaced with
      | true => rw [if_pos rfl, ih]
      | false => rw [if_neg Bool.false_ne_true, List.findSome?_cons, hentry, ih]
    | false => rw [if_neg Bool.false_ne_true, List.findSome?_cons, ih]

end Written

/-! ## The file -/

/-- The lines of a file. -/
def fileLines (text : Text) : List Text := text.universalNewlines.splitLines

section File

variable {key key' value : Text}

theorem entry_clean (hkey : IsName key) (hvalue : value.Clean) :
    Text.Clean (key ++ '=' :: value) :=
  hkey.isKey.clean.append (List.forall_mem_cons.mpr ⟨by decide, hvalue⟩)

theorem fileLines_set (hkey : IsName key) (hvalue : value.Clean) (text : Text) :
    fileLines (setConfigValueText key value text)
      = setConfigLines key (key ++ '=' :: value) false (fileLines text) :=
  Text.lines_written (setConfigLines_ne_nil _ _ _)
    (setConfigLines_clean (entry_clean hkey hvalue) (Text.splitLines_clean _))

theorem assignsKey_entry (hkey : IsName key) : assignsKey key (key ++ '=' :: value) = true := by
  rw [assignsKey_eq hkey.isKey, isAssignment, readsKey_entry hkey.isKey]
  rfl

/-- **A keyed update**: what is set is read back, on the only line for its key; the other keys are
    read as before; and setting it again changes nothing. -/
theorem set_config_value_keyed (hkey : IsName key) (hkey' : IsName key') (hne : key' ≠ key)
    (hvalue : value.Clean) (hstrip : value.strip = value) (text : Text) :
    readConfigValueText key (setConfigValueText key value text) = some value ∧
      (fileLines (setConfigValueText key value text)).countP (isAssignment key) = 1 ∧
      readConfigValueText key' (setConfigValueText key value text)
        = readConfigValueText key' text ∧
      setConfigValueText key value (setConfigValueText key value text)
        = setConfigValueText key value text := by
  have hlines := fileLines_set hkey hvalue text
  have hentry : assignsKey key (key ++ '=' :: value) = true := assignsKey_entry hkey
  obtain ⟨front, back, hshape, hfront, hback⟩ :=
    setConfigLines_shape key (key ++ '=' :: value) (fileLines text)
  refine ⟨?_, ?_, ?_, ?_⟩
  · rw [read_setConfigValueText hkey.isKey hvalue, hstrip]
  · have hnone : ∀ {lines : List Text}, (∀ line ∈ lines, assignsKey key line = false) →
        lines.countP (isAssignment key) = 0 := by
      intro lines h
      refine List.countP_eq_zero.mpr fun line hline => ?_
      rw [← assignsKey_eq hkey.isKey, h line hline]
      exact Bool.false_ne_true
    rw [hlines, hshape, List.countP_append, List.countP_cons, hnone hfront, hnone hback,
      ← assignsKey_eq hkey.isKey, hentry]
    rfl
  · have hother : ∀ line, assignsKey key line = true → readsKey key' line = none := by
      intro line hline
      by_contra hsome
      exact hne (eq_of_assigns hkey hkey' hline (Option.isSome_iff_ne_none.mpr hsome)).symm
    have hread := findSome?_other (hother _ hentry) hother (fileLines text) false
    rw [← hlines] at hread
    exact hread
  · have hfixed := setConfigLines_fixed hentry hfront hback
    rw [← hshape, ← hlines] at hfixed
    rw [setConfigValueText]
    change Text.joinLines (setConfigLines key (key ++ '=' :: value) false
      (fileLines (setConfigValueText key value text))) ++ ['\n'] = _
    rw [hfixed, hlines]
    rfl

theorem set_config_value_keyed_mode :
    setConfigValueText "CS_MODE".toList "2".toList "#CS_MODE=0\n  CS_MODE = 1\nCS_MODE_X=7".toList
        = "CS_MODE=2\nCS_MODE_X=7\n".toList ∧
      readConfigValueText "CS_MODE_X".toList (setConfigValueText "CS_MODE".toList "2".toList
        "#CS_MODE=0\n  CS_MODE = 1\nCS_MODE_X=7".toList) = some "7".toList := by
  have hkey : IsName "CS_MODE".toList := isName_of_all (by decide) rfl
  have hkey' : IsName "CS_MODE_X".toList := isName_of_all (by decide) rfl
  have hvalue : Text.Clean "2".toList := Text.clean_of_all rfl
  obtain ⟨-, -, hread, -⟩ := set_config_value_keyed hkey hkey' (by decide) hvalue rfl
    "#CS_MODE=0\n  CS_MODE = 1\nCS_MODE_X=7".toList
  exact ⟨rfl, hread.trans rfl⟩

end File

end Proof
end CeforeEmu
