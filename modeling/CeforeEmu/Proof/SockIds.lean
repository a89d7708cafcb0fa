import Mathlib
import CeforeEmu.Lib.Lines
import CeforeEmu.Lib.Matches
import CeforeEmu.Runtime.DaemonConf

/-!
# The socket id of a node, written and read

`update_local_sock_id` rewrites the lines that set the socket id, or appends one. The readers look
for the first line of their own key. Both see the same lines, with one exception: the line that is
appended is only a line of its own where the file ends in a line end. After a last line that has
none the two run together, and then the id is not found, and a port in that last line is not read
for what it was.
-/

set_option autoImplicit false

namespace CeforeEmu
namespace Proof
namespace SockIds

open CeforeEmu.Lib CeforeEmu.Runtime.Template CeforeEmu.Runtime.DaemonConf

/-! ## Words -/

theorem takeWhile_white_append {word ws : Text} (h : ∀ c ∈ ws, Text.isWhite c = true) :
    (word ++ ws).takeWhile (fun c => !Text.isWhite c) = word.takeWhile fun c => !Text.isWhite c := by
  have hws : ws.takeWhile (fun c => !Text.isWhite c) = [] := by
    cases ws with
    | nil => rfl
    | cons c ws => rw [List.takeWhile_cons, h c List.mem_cons_self]; rfl
  rw [List.takeWhile_append]
  split
  · rename_i hlen
    rw [hws, List.append_nil]
    exact ((List.takeWhile_prefix _).eq_of_length hlen).symm
  · rfl

theorem firstWord?_append_white {v ws : Text} (h : ∀ c ∈ ws, Text.isWhite c = true) :
    firstWord? (v ++ ws) = firstWord? v := by
  by_cases hblank : v.lstrip = []
  · have hv : ∀ c ∈ v, Text.isWhite c = true := by
      rw [Text.lstrip, List.dropWhile_eq_nil_iff] at hblank
      exact hblank
    have hws : ws.lstrip = [] := by
      rw [Text.lstrip, List.dropWhile_eq_nil_iff]
      exact h
    rw [firstWord?, firstWord?, Text.lstrip_of_white hv, hblank, hws]
  · rw [firstWord?, firstWord?, Text.lstrip_append hblank, takeWhile_white_append h]

theorem firstWord?_strip (v : Text) : firstWord? v.strip = firstWord? v := by
  obtain ⟨ws, heq, hws⟩ := Text.lstrip_eq_strip v
  have hidem : firstWord? v.lstrip = firstWord? v := by
    rw [firstWord?, firstWord?, Text.lstrip, Text.lstrip, List.dropWhile_idempotent]
  rw [← hidem, heq, firstWord?_append_white hws]

/-! ## Entries -/

/-- `NAME=`. -/
structure IsEntryKey (entry : String) : Prop where
  name : ∃ name, entry.toList = name ++ ['='] ∧ '=' ∉ name
  head : ∃ c cs, entry.toList = c :: cs ∧ c ≠ '#'

theorem sockId_isEntryKey : IsEntryKey "LOCAL_SOCK_ID=" :=
  ⟨⟨"LOCAL_SOCK_ID".toList, by decide, by decide⟩, 'L', "OCAL_SOCK_ID=".toList, by decide, by decide⟩

theorem portNum_isEntryKey : IsEntryKey "PORT_NUM=" :=
  ⟨⟨"PORT_NUM".toList, by decide, by decide⟩, 'P', "ORT_NUM=".toList, by decide, by decide⟩

/-- What ends in `=` is not cut by stripping what follows. -/
theorem prefix_strip_iff {entry : String} (hkey : IsEntryKey entry) {line : Text} :
    entry.toList <+: line.strip ↔ entry.toList <+: line.lstrip := by
  obtain ⟨ws, heq, hws⟩ := Text.lstrip_eq_strip line
  rw [heq, Text.prefix_append_iff]
  refine ⟨.inl, ?_⟩
  rintro (h | ⟨rest, hne, hsplit, hrest⟩)
  · exact h
  · -- the `=` would be white
    obtain ⟨name, hname, -⟩ := hkey.name
    obtain ⟨body, last, rfl⟩ := (List.eq_nil_or_concat' rest).resolve_left hne
    rw [hname, ← List.append_assoc] at hsplit
    have hlast : '=' = last := by simpa using (List.append_inj_right' hsplit rfl)
    have hwhite := hws last (hrest.mem (List.mem_append_right _ (List.mem_singleton_self _)))
    rw [← hlast] at hwhite
    exact absurd hwhite (by decide)

theorem isEntry_iff {entry : String} (hkey : IsEntryKey entry) {line : Text} :
    isEntry entry line = true ↔ entry.toList <+: line.lstrip := by
  rw [← prefix_strip_iff hkey, isEntry]
  simp only [Bool.and_eq_true, Bool.not_eq_true', List.isPrefixOf_iff_prefix]
  refine ⟨fun h => h.2, fun h => ⟨?_, h⟩⟩
  obtain ⟨c, cs, hhead, hne⟩ := hkey.head
  obtain ⟨tail, htail⟩ := h
  rw [hhead] at htail
  rw [← htail]
  refine ⟨rfl, Bool.eq_false_iff.mpr fun hhash => ?_⟩
  rw [List.isPrefixOf_iff_prefix] at hhash
  exact hne (List.cons_prefix_cons.mp hhash).1.symm

theorem entryWord_eq {entry : String} (hkey : IsEntryKey entry) {line v : Text}
    (h : line.lstrip = entry.toList ++ v) : entryWord line = wordOf v := by
  obtain ⟨ws, heq, hws⟩ := Text.lstrip_eq_strip line
  obtain ⟨v', hv'⟩ : entry.toList <+: line.strip := (prefix_strip_iff hkey).mpr ⟨v, h.symm⟩
  have hv : v = v' ++ ws := by
    rw [heq, ← hv', List.append_assoc] at h
    exact (List.append_cancel_left h).symm
  obtain ⟨name, hname, hnot⟩ := hkey.name
  have hafter : (line.strip.dropWhile (· ≠ '=')).drop 1 = v' := by
    rw [← hv', hname, List.append_assoc, List.dropWhile_append_of_pos]
    · rfl
    · intro c hc
      rw [decide_eq_true_eq]
      rintro rfl
      exact hnot hc
  rw [entryWord, wordOf, wordOf, hafter, firstWord?_strip, hv, firstWord?_append_white hws]

/-! ## The rewriting, line by line -/

section Rewriting

variable {idx : ℕ} {line : Text}

/-- What becomes of a line. -/
def newLine (idx : ℕ) (line : Text) : Text :=
  if setsSockId line then line.take (line.length - line.lstrip.length) ++ sockIdLine idx else line

theorem setsSockId_iff : setsSockId line = true ↔
    "LOCAL_SOCK_ID=".toList <+: line.lstrip ∨ "#LOCAL_SOCK_ID=".toList <+: line.lstrip := by
  rw [setsSockId, Bool.or_eq_true, List.isPrefixOf_iff_prefix, List.isPrefixOf_iff_prefix]

/-- What `line[: len(line) - len(stripped)]` is. -/
theorem leading_eq (line : Text) :
    line.take (line.length - line.lstrip.length) = line.takeWhile Text.isWhite := by
  have hlen : line.length - line.lstrip.length = (line.takeWhile Text.isWhite).length := by
    have hsplit := congrArg List.length
      (List.takeWhile_append_dropWhile (p := Text.isWhite) (l := line))
    rw [List.length_append] at hsplit
    rw [Text.lstrip]
    omega
  rw [hlen]
  exact (List.prefix_iff_eq_take.mp (List.takeWhile_prefix _)).symm

theorem leading_white (line : Text) :
    ∀ c ∈ line.take (line.length - line.lstrip.length), Text.isWhite c = true := by
  rw [leading_eq]
  exact fun c hc => List.mem_takeWhile_imp hc

theorem sockIdLine_eq (idx : ℕ) :
    sockIdLine idx = "LOCAL_SOCK_ID=".toList ++ ((toString idx).toList ++ ['\n']) :=
  List.append_assoc _ _ _

theorem sockIdLine_lstrip (idx : ℕ) : Text.lstrip (sockIdLine idx) = sockIdLine idx := rfl

theorem newLine_lstrip (h : setsSockId line = true) :
    (newLine idx line).lstrip = sockIdLine idx := by
  rw [newLine, if_pos h, Text.lstrip_of_white (leading_white line), sockIdLine_lstrip]

theorem sockIdLine_ne_nil (idx : ℕ) : sockIdLine idx ≠ [] :=
  List.append_ne_nil_of_right_ne_nil _ (List.cons_ne_nil _ _)

theorem sockIdLine_chars {c : Char}
    (h : c ∈ "LOCAL_SOCK_ID=".toList ++ (toString idx).toList) : c ≠ '\n' ∧ c ≠ '\r' := by
  have hkey : "LOCAL_SOCK_ID=".toList.all (fun c => c ≠ '\n' ∧ c ≠ '\r') = true := rfl
  rcases List.mem_append.mp h with hmem | hmem
  · simpa using List.all_eq_true.mp hkey c hmem
  · rw [Nat.toString_eq_repr, Nat.toList_repr] at hmem
    have hdigit := Nat.isDigit_of_mem_toDigits (by decide) (by decide) hmem
    constructor
    · rintro rfl
      cases hdigit
    · rintro rfl
      cases hdigit

theorem sockIdLine_ended (idx : ℕ) : Text.Ended (sockIdLine idx) :=
  ⟨_, rfl, fun hmem => (sockIdLine_chars hmem).1 rfl⟩

theorem sockIdLine_no_cr (idx : ℕ) : '\r' ∉ sockIdLine idx := by
  intro hmem
  rcases List.mem_append.mp hmem with hmem | hmem
  · exact (sockIdLine_chars hmem).2 rfl
  · exact absurd hmem (by decide)

theorem lstrip_ne_nil (h : setsSockId line = true) : line.lstrip ≠ [] := by
  intro hnil
  rw [setsSockId, hnil] at h
  exact absurd h (by decide)

/-- A line that sets the id has an end afterwards, whether it had one or not. -/
theorem newLine_ended (h : setsSockId line = true) (hone : '\n' ∉ line.dropLast) :
    Text.Ended (newLine idx line) := by
  obtain ⟨body, hbody, hnot⟩ := sockIdLine_ended idx
  rw [newLine, if_pos h, leading_eq, hbody]
  refine ⟨line.takeWhile Text.isWhite ++ body, (List.append_assoc _ _ _).symm, fun hmem => ?_⟩
  rcases List.mem_append.mp hmem with hmem | hmem
  · apply hone
    rw [← List.takeWhile_append_dropWhile (p := Text.isWhite) (l := line),
      List.dropLast_append_of_ne_nil (show line.dropWhile Text.isWhite ≠ [] from lstrip_ne_nil h)]
    exact List.mem_append_left _ hmem
  · exact hnot hmem

theorem newLine_no_cr (h : '\r' ∉ line) : '\r' ∉ newLine idx line := by
  rw [newLine]
  split
  · rw [List.mem_append]
    rintro (hmem | hmem)
    · exact h (List.mem_of_mem_take hmem)
    · exact sockIdLine_no_cr idx hmem
  · exact h

end Rewriting

/-! ## The lines of the rewritten file -/

section Lines

variable {idx : ℕ}

/-- The lines of a file: those with an end, and what follows them. -/
theorem lines_eq (text : Text) : ∃ ended : List Text, (∀ line ∈ ended, Text.Ended line) ∧
    '\n' ∉ text.universalNewlines.unended ∧
    text.universalNewlines = ended.flatten ++ text.universalNewlines.unended ∧
    text.universalNewlines.readLines = ended ++ if text.universalNewlines.unended = [] then []
      else [text.universalNewlines.unended] := by
  obtain ⟨ended, hended, hnot, heq⟩ := Text.eq_ended_append text.universalNewlines
  refine ⟨ended, hended, hnot, heq, ?_⟩
  conv_lhs => rw [heq]
  rw [Text.readLines_append hended]
  congr 1
  split
  · rename_i hnil
    rw [hnil]
    rfl
  · rename_i hne
    exact Text.readLines_of_not_mem hne hnot

/-- No line has a carriage return, and none a line feed before its end. -/
theorem lines_plain {text line : Text} (h : line ∈ text.universalNewlines.readLines) :
    '\r' ∉ line ∧ '\n' ∉ line.dropLast := by
  obtain ⟨ended, hended, hnot, -, hlines⟩ := lines_eq text
  constructor
  · intro hmem
    apply Text.no_cr_universalNewlines text
    rw [← Text.readLines_flatten text.universalNewlines]
    exact List.mem_flatten.mpr ⟨line, h, hmem⟩
  · rw [hlines] at h
    rcases List.mem_append.mp h with h | h
    · obtain ⟨body, rfl, hbody⟩ := hended line h
      rwa [List.dropLast_concat]
    · split at h
      · cases h
      · rw [List.mem_singleton.mp h]
        exact fun hmem => hnot (List.dropLast_subset _ hmem)

/-- Lines that are written are read as they are, up to the last that has no end. -/
theorem readLines_written {lines : List Text} (h : ∀ line ∈ lines, Text.Ended line) {last : Text}
    (hlast : last = [] ∨ Text.Ended last ∨ '\n' ∉ last) (hcr : '\r' ∉ (lines ++ [last]).flatten) :
    (Text.universalNewlines (lines ++ [last]).flatten).readLines =
      lines ++ if last = [] then [] else [last] := by
  rw [Text.universalNewlines_of_no_cr hcr, List.flatten_append, List.flatten_singleton,
    Text.readLines_append h]
  congr 1
  split
  · rename_i hnil
    rw [hnil]
    rfl
  · rename_i hne
    rcases hlast with hnil | ⟨body, rfl, hbody⟩ | hnot
    · exact absurd hnil hne
    · exact Text.readLines_body hbody
    · exact Text.readLines_of_not_mem hne hnot

/-- Where a line sets the id, every line stays a line. -/
theorem rewritten_lines {text : Text}
    (h : text.universalNewlines.readLines.any setsSockId = true) :
    (updateLocalSockIdText idx text).universalNewlines.readLines =
      text.universalNewlines.readLines.map (newLine idx) := by
  obtain ⟨ended, hended, hnot, -, hlines⟩ := lines_eq text
  have hplain : ∀ line ∈ text.universalNewlines.readLines, '\r' ∉ line ∧ '\n' ∉ line.dropLast :=
    fun line hline => lines_plain hline
  have hnil : newLine idx [] = [] := rfl
  rw [updateLocalSockIdText]
  simp only [if_pos h]
  change Text.readLines (Text.universalNewlines
    (text.universalNewlines.readLines.map (newLine idx)).flatten) = _
  rw [hlines] at hplain ⊢
  generalize text.universalNewlines.unended = last at *
  -- an empty last line is no line
  have hflat : ((ended ++ if last = [] then [] else [last]).map (newLine idx)).flatten =
      (ended.map (newLine idx) ++ [newLine idx last]).flatten := by
    by_cases hlast : last = []
    · simp [hlast, hnil]
    · simp [hlast]
  have hmap : ∀ line ∈ ended.map (newLine idx), Text.Ended line := by
    intro line hline
    obtain ⟨old, hold, rfl⟩ := List.mem_map.mp hline
    by_cases hsets : setsSockId old = true
    · exact newLine_ended hsets (hplain old (List.mem_append_left _ hold)).2
    · rw [newLine, if_neg hsets]
      exact hended old hold
  rw [hflat, readLines_written hmap]
  · by_cases hlast : last = []
    · simp [hlast, hnil]
    · have hne : newLine idx last ≠ [] := by
        rw [newLine]
        split
        · exact List.append_ne_nil_of_right_ne_nil _ (sockIdLine_ne_nil idx)
        · exact hlast
      simp [hlast, hne]
  · by_cases hsets : setsSockId last = true
    · exact .inr (.inl (newLine_ended hsets fun hmem => hnot (List.dropLast_subset _ hmem)))
    · rw [newLine, if_neg hsets]
      exact .inr (.inr hnot)
  · rw [← hflat]
    intro hmem
    obtain ⟨line, hline, hmem⟩ := List.mem_flatten.mp hmem
    obtain ⟨old, hold, rfl⟩ := List.mem_map.mp hline
    exact newLine_no_cr (hplain old hold).1 hmem

/-- Where none does, the new line follows the text. -/
theorem appended_lines {text : Text} {ended : List Text} (hended : ∀ line ∈ ended, Text.Ended line)
    (heq : text.universalNewlines = ended.flatten ++ text.universalNewlines.unended)
    (hnot : '\n' ∉ text.universalNewlines.unended)
    (h : text.universalNewlines.readLines.any setsSockId = false) :
    (updateLocalSockIdText idx text).universalNewlines.readLines =
      ended ++ [text.universalNewlines.unended ++ sockIdLine idx] := by
  have hflat : updateLocalSockIdText idx text =
      (ended ++ [text.universalNewlines.unended ++ sockIdLine idx]).flatten := by
    have hsame : text.universalNewlines.readLines.map (newLine idx) =
        text.universalNewlines.readLines := by
      refine (List.map_congr_left fun line hline => ?_).trans (List.map_id _)
      rw [newLine, if_neg (List.any_eq_false.mp h line hline)]
      rfl
    rw [updateLocalSockIdText]
    simp only [h, Bool.false_eq_true, if_false]
    change (text.universalNewlines.readLines.map (newLine idx) ++ [sockIdLine idx]).flatten = _
    rw [hsame, List.flatten_append, Text.readLines_flatten, List.flatten_append,
      List.flatten_singleton, List.flatten_singleton]
    conv_lhs => rw [heq]
    rw [List.append_assoc]
  have hnew : Text.Ended (text.universalNewlines.unended ++ sockIdLine idx) := by
    obtain ⟨body, hbody, hline⟩ := sockIdLine_ended idx
    refine ⟨text.universalNewlines.unended ++ body, by rw [hbody, List.append_assoc], fun hmem => ?_⟩
    rcases List.mem_append.mp hmem with hmem | hmem
    · exact hnot hmem
    · exact hline hmem
  have hcr : '\r' ∉ updateLocalSockIdText idx text := by
    rw [hflat, List.flatten_append, List.flatten_singleton, ← List.append_assoc, ← heq]
    intro hmem
    rcases List.mem_append.mp hmem with hmem | hmem
    · exact Text.no_cr_universalNewlines text hmem
    · exact sockIdLine_no_cr idx hmem
  have hne : text.universalNewlines.unended ++ sockIdLine idx ≠ [] :=
    List.append_ne_nil_of_right_ne_nil _ (sockIdLine_ne_nil idx)
  rw [hflat] at hcr ⊢
  rw [readLines_written hended (.inr (.inl hnew)) hcr, if_neg hne]

end Lines

/-! ## Reading the id -/

section Readers

variable {idx : ℕ} {text : Text}

theorem digits_not_white (idx : ℕ) : ∀ c ∈ (toString idx).toList, Text.isWhite c = false := by
  intro c hc
  rw [Nat.toString_eq_repr, Nat.toList_repr] at hc
  have hdigit := Nat.isDigit_of_mem_toDigits (by decide) (by decide) hc
  rw [Char.isDigit, Bool.and_eq_true, decide_eq_true_eq, decide_eq_true_eq] at hdigit
  have hlow : 48 ≤ c.toNat := hdigit.1
  have hhigh : c.toNat ≤ 57 := hdigit.2
  simp only [Text.isWhite, decide_eq_false_iff_not]
  omega

theorem firstWord?_word {word rest : Text} (hne : word ≠ [])
    (hword : ∀ c ∈ word, Text.isWhite c = false) (hrest : ∀ c ∈ rest.head?, Text.isWhite c = true) :
    firstWord? (word ++ rest) = some word := by
  have htake : (word ++ rest).takeWhile (fun c => !Text.isWhite c) = word := by
    rw [List.takeWhile_append_of_pos fun c hc => by rw [hword c hc]; rfl]
    cases rest with
    | nil => exact List.append_nil _
    | cons c rest =>
      rw [List.takeWhile_cons, hrest c rfl]
      exact List.append_nil _
  cases word with
  | nil => exact absurd rfl hne
  | cons c word =>
    have hc : Text.isWhite c = false := hword c List.mem_cons_self
    have hlstrip : Text.lstrip (c :: (word ++ rest)) = c :: (word ++ rest) :=
      List.dropWhile_cons_of_neg (Bool.eq_false_iff.mp hc)
    rw [firstWord?, List.cons_append, hlstrip, ← List.cons_append, htake]

theorem sockIdLine_word {line : Text} (h : line.lstrip = sockIdLine idx) :
    isEntry "LOCAL_SOCK_ID=" line = true ∧
      entryWord line = .ok (toString idx).toList := by
  have hsplit : line.lstrip = "LOCAL_SOCK_ID=".toList ++ ((toString idx).toList ++ ['\n']) := by
    rw [h, sockIdLine_eq]
  refine ⟨(isEntry_iff sockId_isEntryKey).mpr ⟨_, hsplit.symm⟩, ?_⟩
  have hne : (toString idx).toList ≠ [] := by
    rw [Nat.toString_eq_repr, Nat.toList_repr]
    exact Nat.toDigits_ne_nil
  rw [entryWord_eq sockId_isEntryKey hsplit, wordOf, firstWord?_word hne (digits_not_white idx)]
  intro c hc
  cases hc
  rfl

theorem sets_of_isEntry {line : Text} (h : isEntry "LOCAL_SOCK_ID=" line = true) :
    setsSockId line = true :=
  setsSockId_iff.mpr (.inl ((isEntry_iff sockId_isEntryKey).mp h))

/-- **The id is read back** where a line sets it. -/
theorem readSockId_rewritten (h : text.universalNewlines.readLines.any setsSockId = true) :
    readEntryText "LOCAL_SOCK_ID=" (updateLocalSockIdText idx text) =
      .ok (some (toString idx).toList) := by
  rw [readEntryText, rewritten_lines h]
  obtain ⟨line, hline, hsets⟩ := List.any_eq_true.mp h
  cases hfound : (text.universalNewlines.readLines.map (newLine idx)).find?
      (isEntry "LOCAL_SOCK_ID=") with
  | none =>
    have hnone := List.find?_eq_none.mp hfound (newLine idx line) (List.mem_map_of_mem hline)
    exact absurd (sockIdLine_word (newLine_lstrip hsets)).1 hnone
  | some found =>
    obtain ⟨old, -, rfl⟩ := List.mem_map.mp (List.mem_of_find?_eq_some hfound)
    have hentry := List.find?_some hfound
    have hold : setsSockId old = true := by
      by_contra hnot
      rw [newLine, if_neg hnot] at hentry
      exact hnot (sets_of_isEntry hentry)
    simp only [(sockIdLine_word (newLine_lstrip hold)).2]
    rfl

/-- No key runs together with the line that follows it. -/
theorem isEntry_append {entry : String} (hkey : IsEntryKey entry)
    (hoverlap : ∀ n < entry.toList.length, 0 < n → ¬ (entry.toList.drop n).take 2 <+: ['L', 'O'])
    {line : Text} (hline : line.lstrip ≠ []) :
    isEntry entry (line ++ sockIdLine idx) = isEntry entry line := by
  rw [Bool.eq_iff_iff, isEntry_iff hkey, isEntry_iff hkey, Text.lstrip_append hline,
    Text.prefix_append_iff]
  refine ⟨?_, .inl⟩
  rintro (h | ⟨rest, hne, hsplit, hrest⟩)
  · exact h
  · have hdrop : entry.toList.drop line.lstrip.length = rest := by
      rw [hsplit, List.drop_left]
    have hlt : line.lstrip.length < entry.toList.length := by
      rw [hsplit, List.length_append]
      have hpos := List.length_pos_iff.mpr hne
      omega
    refine absurd ?_ (hoverlap _ hlt (List.length_pos_iff.mpr hline))
    rw [hdrop]
    exact List.IsPrefix.take hrest 2

/-- What the id's reader finds where the new line was appended. -/
theorem readSockId_appended (h : text.universalNewlines.readLines.any setsSockId = false) :
    readEntryText "LOCAL_SOCK_ID=" (updateLocalSockIdText idx text) =
      .ok (if text.universalNewlines.unended.lstrip = [] then some (toString idx).toList
        else none) := by
  obtain ⟨ended, hended, hnot, heq, hlines⟩ := lines_eq text
  have hnone : ended.find? (isEntry "LOCAL_SOCK_ID=") = none := by
    rw [List.find?_eq_none]
    intro line hline hentry
    rw [hlines, List.any_append, Bool.or_eq_false_iff] at h
    exact List.any_eq_false.mp h.1 line hline (sets_of_isEntry hentry)
  rw [readEntryText, appended_lines hended heq hnot h, List.find?_append, hnone, Option.none_or]
  by_cases hblank : text.universalNewlines.unended.lstrip = []
  · have hline : Text.lstrip (text.universalNewlines.unended ++ sockIdLine idx) =
        sockIdLine idx := by
      rw [Text.lstrip_of_white (List.dropWhile_eq_nil_iff.mp hblank), sockIdLine_lstrip]
    obtain ⟨hentry, hword⟩ := sockIdLine_word hline
    rw [List.find?_cons_of_pos hentry, if_pos hblank]
    simp only [hword]
    rfl
  · have hentry : isEntry "LOCAL_SOCK_ID=" (text.universalNewlines.unended ++ sockIdLine idx) =
        false := by
      rw [isEntry_append sockId_isEntryKey (by decide) hblank]
      by_contra hentry
      have hne : text.universalNewlines.unended ≠ [] := by
        intro hnil
        rw [hnil] at hblank
        exact hblank rfl
      rw [hlines, if_neg hne, List.any_append, Bool.or_eq_false_iff] at h
      refine List.any_eq_false.mp h.2 _ (List.mem_singleton_self _) (sets_of_isEntry ?_)
      exact Bool.not_eq_false _ |>.mp hentry
    rw [List.find?_cons_of_neg (Bool.eq_false_iff.mp hentry), List.find?_nil, if_neg hblank]

/-! ## Reading the port -/

theorem not_portNum_of_sets {line : Text} (h : setsSockId line = true) :
    isEntry "PORT_NUM=" line = false := by
  rw [Bool.eq_false_iff, Ne, isEntry_iff portNum_isEntryKey]
  rintro ⟨tail, htail⟩
  have hport : "PORT_NUM=".toList = 'P' :: "ORT_NUM=".toList := by decide
  have hset : "LOCAL_SOCK_ID=".toList = 'L' :: "OCAL_SOCK_ID=".toList := by decide
  have hcomment : "#LOCAL_SOCK_ID=".toList = '#' :: "LOCAL_SOCK_ID=".toList := by decide
  rw [setsSockId_iff, ← htail, hcomment, hset, hport, List.cons_append, List.cons_prefix_cons,
    List.cons_prefix_cons] at h
  rcases h with ⟨h, -⟩ | ⟨h, -⟩
  · exact absurd h (by decide)
  · exact absurd h (by decide)

theorem newLine_portNum (line : Text) :
    isEntry "PORT_NUM=" (newLine idx line) = isEntry "PORT_NUM=" line := by
  by_cases h : setsSockId line = true
  · have hnew : setsSockId (newLine idx line) = true :=
      setsSockId_iff.mpr (.inl ⟨_, ((newLine_lstrip h).trans (sockIdLine_eq idx)).symm⟩)
    rw [not_portNum_of_sets h, not_portNum_of_sets hnew]
  · rw [newLine, if_neg h]

theorem newLine_of_portNum {line : Text} (h : isEntry "PORT_NUM=" line = true) :
    newLine idx line = line := by
  rw [newLine, if_neg]
  intro hsets
  rw [not_portNum_of_sets hsets] at h
  cases h

/-- The port is the same where a line sets the id. -/
theorem readPort_rewritten (h : text.universalNewlines.readLines.any setsSockId = true) :
    readEntryText "PORT_NUM=" (updateLocalSockIdText idx text) = readEntryText "PORT_NUM=" text := by
  have hfind : ∀ lines : List Text, (lines.map (newLine idx)).find? (isEntry "PORT_NUM=") =
      lines.find? (isEntry "PORT_NUM=") := by
    intro lines
    induction lines with
    | nil => rfl
    | cons line lines ih =>
      rw [List.map_cons, List.find?_cons, List.find?_cons, newLine_portNum]
      split
      · rename_i hentry
        rw [newLine_of_portNum hentry]
      · exact ih
  rw [readEntryText, readEntryText, rewritten_lines h, hfind]

/-- What stands after `PORT_NUM=`. -/
def portValue (line : Text) : Text := Text.lstrip (line.lstrip.drop "PORT_NUM=".toList.length)

/-- The port is that of a last line without an end, and ends with it: as a single word that is
    another number than the default, or with no word at all. -/
def LosesPort (default : ℤ) (text : Text) : Prop :=
  text.universalNewlines.readLines.find? (isEntry "PORT_NUM=") =
      some text.universalNewlines.unended ∧
    (portValue text.universalNewlines.unended = [] ∨
      (∀ c ∈ portValue text.universalNewlines.unended, Text.isWhite c = false) ∧
        ∃ n, Text.int? (portValue text.universalNewlines.unended) = some n ∧ n ≠ default)

theorem mem_strip_of_mem {v : Text} {c : Char} (hc : c ∈ v) (hwhite : Text.isWhite c = false) :
    c ∈ v.strip := by
  obtain ⟨ws, heq, hws⟩ := Text.lstrip_eq_strip v
  have hmem : c ∈ v.lstrip := by
    rw [← List.takeWhile_append_dropWhile (p := Text.isWhite) (l := v)] at hc
    rcases List.mem_append.mp hc with hc | hc
    · rw [List.mem_takeWhile_imp hc] at hwhite
      cases hwhite
    · exact hc
  rw [heq] at hmem
  rcases List.mem_append.mp hmem with hmem | hmem
  · exact hmem
  · rw [hws c hmem] at hwhite
    cases hwhite

/-- A word with a letter in it is no number. -/
theorem int?_of_letter {v : Text} {c : Char} (hc : c ∈ v) (hwhite : Text.isWhite c = false)
    (hdigit : Text.isDigit c = false) (hsign : c ≠ '-' ∧ c ≠ '+' ∧ c ≠ '_') : Text.int? v = none := by
  have hmem : c ∈ (Text.signed v.strip).2 := by
    have hstrip := mem_strip_of_mem hc hwhite
    unfold Text.signed
    split
    · rename_i heq
      rw [heq] at hstrip
      exact (List.mem_cons.mp hstrip).resolve_left hsign.1
    · rename_i heq
      rw [heq] at hstrip
      exact (List.mem_cons.mp hstrip).resolve_left hsign.2.1
    · exact hstrip
  rw [Text.int?]
  simp only [Option.map_eq_none_iff]
  cases hread : Text.digitsFrom 0 (Text.signed v.strip).2 with
  | none => rfl
  | some n =>
    rcases Text.digitsFrom_chars hread c hmem with h | h
    · rw [hdigit] at h
      cases h
    · exact absurd h hsign.2.2

theorem sockId_ne_nil (idx : ℕ) : "LOCAL_SOCK_ID=".toList ++ (toString idx).toList ≠ [] := by
  have hset : "LOCAL_SOCK_ID=".toList = 'L' :: "OCAL_SOCK_ID=".toList := by decide
  rw [hset]
  exact List.cons_ne_nil _ _

theorem sockId_not_white (idx : ℕ) :
    ∀ c ∈ "LOCAL_SOCK_ID=".toList ++ (toString idx).toList, Text.isWhite c = false := by
  have hkey : "LOCAL_SOCK_ID=".toList.all (fun c => !Text.isWhite c) = true := rfl
  intro c hc
  rcases List.mem_append.mp hc with hc | hc
  · simpa using List.all_eq_true.mp hkey c hc
  · exact digits_not_white idx c hc

theorem firstWord?_lstrip (v rest : Text) :
    firstWord? (v.lstrip ++ rest) = firstWord? (v ++ rest) := by
  have hlstrip : Text.lstrip (v.lstrip ++ rest) = Text.lstrip (v ++ rest) := by
    by_cases hblank : v.lstrip = []
    · rw [hblank, Text.lstrip_of_white (List.dropWhile_eq_nil_iff.mp hblank), List.nil_append]
    · have hidem : v.lstrip.lstrip = v.lstrip := List.dropWhile_idempotent _ _
      rw [Text.lstrip_append hblank, Text.lstrip_append (by rwa [hidem]), hidem]
  rw [firstWord?, firstWord?, hlstrip]

/-- The appended line makes the last word longer. -/
theorem wordOf_append {v : Text} (hv : ∀ c ∈ v.lstrip, Text.isWhite c = false) :
    wordOf (v ++ sockIdLine idx) =
      .ok (v.lstrip ++ ("LOCAL_SOCK_ID=".toList ++ (toString idx).toList)) := by
  have hword : ∀ c ∈ v.lstrip ++ ("LOCAL_SOCK_ID=".toList ++ (toString idx).toList),
      Text.isWhite c = false := by
    intro c hc
    rcases List.mem_append.mp hc with hc | hc
    · exact hv c hc
    · exact sockId_not_white idx c hc
  have hne : v.lstrip ++ ("LOCAL_SOCK_ID=".toList ++ (toString idx).toList) ≠ [] :=
    List.append_ne_nil_of_right_ne_nil _ (sockId_ne_nil idx)
  have hend : ∀ c ∈ (['\n'] : Text).head?, Text.isWhite c = true := by
    intro c hc
    cases hc
    rfl
  have hline : v.lstrip ++ sockIdLine idx =
      v.lstrip ++ ("LOCAL_SOCK_ID=".toList ++ (toString idx).toList) ++ ['\n'] :=
    (List.append_assoc _ _ _).symm
  have hfirst : firstWord? (v ++ sockIdLine idx) =
      some (v.lstrip ++ ("LOCAL_SOCK_ID=".toList ++ (toString idx).toList)) := by
    rw [← firstWord?_lstrip, hline]
    exact firstWord?_word hne hword hend
  rw [wordOf, hfirst]

/-- A word that has ended is not reached. -/
theorem wordOf_append_of_white {v : Text} (hv : ¬ ∀ c ∈ v.lstrip, Text.isWhite c = false)
    (rest : Text) : wordOf (v ++ rest) = wordOf v := by
  have hblank : v.lstrip ≠ [] := by
    intro hnil
    rw [hnil] at hv
    exact hv fun c hc => absurd hc List.not_mem_nil
  have hstop : (v.lstrip ++ rest).takeWhile (fun c => !Text.isWhite c) =
      v.lstrip.takeWhile fun c => !Text.isWhite c := by
    rw [List.takeWhile_append, if_neg]
    intro hlen
    apply hv
    rw [← (List.takeWhile_prefix _).eq_of_length hlen]
    intro c hc
    simpa using List.mem_takeWhile_imp (p := fun c => !Text.isWhite c) hc
  rw [wordOf, wordOf, firstWord?, firstWord?, Text.lstrip_append hblank, hstop]

/-- A port in the last line, before and after. -/
theorem portOf_append_iff (default : ℤ) (v : Text) :
    ((wordOf (v ++ sockIdLine idx)).map some).map (portOf default) =
        ((wordOf v).map some).map (portOf default) ↔
      ¬ (v.lstrip = [] ∨ (∀ c ∈ v.lstrip, Text.isWhite c = false) ∧
        ∃ n, Text.int? v.lstrip = some n ∧ n ≠ default) := by
  by_cases hv : ∀ c ∈ v.lstrip, Text.isWhite c = false
  · have hletter : Text.int? (v.lstrip ++ ("LOCAL_SOCK_ID=".toList ++ (toString idx).toList)) =
        none := by
      have hmem : 'L' ∈ "LOCAL_SOCK_ID=".toList := by decide
      exact int?_of_letter (List.mem_append_right _ (List.mem_append_left _ hmem)) (by decide)
        (by decide) (by decide)
    have hnew : ((wordOf (v ++ sockIdLine idx)).map some).map (portOf default) = .ok default := by
      rw [wordOf_append hv]
      simp only [Except.map, portOf, Option.bind_some, hletter, Option.getD_none]
    rw [hnew]
    by_cases hnil : v.lstrip = []
    · have hold : wordOf v = .error (.indexError "list index out of range") := by
        rw [wordOf, firstWord?, hnil]
        rfl
      rw [hold]
      refine ⟨fun h => ?_, fun h => absurd (.inl hnil) h⟩
      cases h
    · have hfirst := firstWord?_word hnil hv (fun c hc => absurd hc (by simp) :
        ∀ c ∈ ([] : Text).head?, Text.isWhite c = true)
      have hold : ((wordOf v).map some).map (portOf default) =
          .ok ((Text.int? v.lstrip).getD default) := by
        have hsame := firstWord?_lstrip v []
        rw [List.append_nil] at hfirst
        rw [List.append_nil, List.append_nil] at hsame
        rw [wordOf, ← hsame, hfirst]
        rfl
      rw [hold, Except.ok.injEq]
      cases hint : Text.int? v.lstrip with
      | none => simp [hnil]
      | some n =>
        rw [Option.getD_some]
        constructor
        · rintro rfl (h | ⟨-, n', hn, hne⟩)
          · exact hnil h
          · cases hn
            exact hne rfl
        · intro h
          by_contra hne
          exact h (.inr ⟨hv, n, rfl, fun heq => hne heq.symm⟩)
  · rw [wordOf_append_of_white hv]
    have hblank : v.lstrip ≠ [] := by
      intro hnil
      rw [hnil] at hv
      exact hv fun c hc => absurd hc List.not_mem_nil
    refine ⟨fun _ => ?_, fun _ => rfl⟩
    rintro (hnil | ⟨hall, -⟩)
    · exact hblank hnil
    · exact hv hall

/-- **The port is lost** with the word it ends in. -/
theorem readPort_appended_iff (default : ℤ)
    (h : text.universalNewlines.readLines.any setsSockId = false) :
    (readEntryText "PORT_NUM=" (updateLocalSockIdText idx text)).map (portOf default) =
        (readEntryText "PORT_NUM=" text).map (portOf default) ↔ ¬ LosesPort default text := by
  obtain ⟨ended, hended, hnot, heq, hlines⟩ := lines_eq text
  rw [readEntryText, readEntryText, LosesPort, appended_lines hended heq hnot h, hlines,
    List.find?_append, List.find?_append]
  generalize text.universalNewlines.unended = last at *
  cases hfound : ended.find? (isEntry "PORT_NUM=") with
  | some line =>
    -- a line with an end is not the last
    refine ⟨fun _ => ?_, fun _ => rfl⟩
    rintro ⟨hlast, -⟩
    obtain ⟨body, hbody, -⟩ := hended line (List.mem_of_find?_eq_some hfound)
    rw [Option.some_or, Option.some_inj, hbody] at hlast
    exact hnot (hlast ▸ List.mem_append_right _ (List.mem_singleton_self _))
  | none =>
    rw [Option.none_or, Option.none_or]
    have hsock : isEntry "PORT_NUM=" (sockIdLine idx) = false := not_portNum_of_sets
      (setsSockId_iff.mpr (.inl ⟨_, (sockIdLine_eq idx).symm⟩))
    have hsame : isEntry "PORT_NUM=" (last ++ sockIdLine idx) = isEntry "PORT_NUM=" last := by
      by_cases hblank : last.lstrip = []
      · have hnone : isEntry "PORT_NUM=" last = false := by
          rw [Bool.eq_false_iff, Ne, isEntry_iff portNum_isEntryKey, hblank, List.prefix_nil]
          decide
        have hnew : isEntry "PORT_NUM=" (last ++ sockIdLine idx) = false := by
          rw [Bool.eq_false_iff, Ne, isEntry_iff portNum_isEntryKey,
            Text.lstrip_of_white (List.dropWhile_eq_nil_iff.mp hblank),
            ← isEntry_iff portNum_isEntryKey, hsock]
          decide
        rw [hnone, hnew]
      · exact isEntry_append portNum_isEntryKey (by decide) hblank
    cases hentry : isEntry "PORT_NUM=" last with
    | false =>
      have hnone : (if last = [] then [] else [last]).find? (isEntry "PORT_NUM=") = none := by
        rw [List.find?_eq_none]
        intro line hline
        split at hline
        · cases hline
        · rw [List.mem_singleton.mp hline, hentry]
          decide
      rw [List.find?_cons_of_neg (by rw [hsame, hentry]; decide), List.find?_nil, hnone]
      refine ⟨fun _ => ?_, fun _ => rfl⟩
      rintro ⟨hlast, -⟩
      cases hlast
    | true =>
      obtain ⟨v, hv⟩ := (isEntry_iff portNum_isEntryKey).mp hentry
      have hblank : last.lstrip ≠ [] := by
        rw [← hv]
        exact List.append_ne_nil_of_left_ne_nil (by decide) _
      have hne : last ≠ [] := by
        rintro rfl
        exact hblank rfl
      have hnew : Text.lstrip (last ++ sockIdLine idx) =
          "PORT_NUM=".toList ++ (v ++ sockIdLine idx) := by
        rw [Text.lstrip_append hblank, ← hv, List.append_assoc]
      have hvalue : portValue last = Text.lstrip v := by
        rw [portValue, ← hv, List.drop_left]
      rw [if_neg hne, List.find?_cons_of_pos (by rw [hsame, hentry]), List.find?_cons_of_pos hentry]
      simp only [entryWord_eq portNum_isEntryKey hnew, entryWord_eq portNum_isEntryKey hv.symm,
        hvalue, true_and]
      exact portOf_append_iff default v

end Readers

/-! ## A node's directory -/

/-- The new id does not run into the text: a line sets the id, or the text has no last line without
    an end, or one that is blank. Otherwise it is not found; where it is the default anyway, what
    counts is the port. -/
def Keeps (idx : ℕ) (default : ℤ) (text : Text) : Prop :=
  (∃ line ∈ text.universalNewlines.readLines, setsSockId line = true) ∨
    text.universalNewlines.unended.lstrip = [] ∨ idx = 0 ∧ ¬ LosesPort default text

theorem keeps_iff (idx : ℕ) (default : ℤ) (text : Text) :
    ((readEntryText "LOCAL_SOCK_ID=" (updateLocalSockIdText idx text)).map
          (fun word => word.getD ['0']) = .ok (toString idx).toList ∧
        (readEntryText "PORT_NUM=" (updateLocalSockIdText idx text)).map (portOf default) =
          (readEntryText "PORT_NUM=" text).map (portOf default)) ↔ Keeps idx default text := by
  rw [Keeps, ← List.any_eq_true]
  cases hany : text.universalNewlines.readLines.any setsSockId with
  | true =>
    rw [readSockId_rewritten hany, readPort_rewritten hany]
    exact ⟨fun _ => .inl rfl, fun _ => ⟨rfl, rfl⟩⟩
  | false =>
    rw [readSockId_appended hany, readPort_appended_iff default hany]
    by_cases hblank : text.universalNewlines.unended.lstrip = []
    · rw [if_pos hblank]
      refine ⟨fun _ => .inr (.inl hblank), fun _ => ⟨rfl, ?_⟩⟩
      rintro ⟨hfound, -⟩
      have hentry := List.find?_some hfound
      rw [isEntry_iff portNum_isEntryKey, hblank, List.prefix_nil] at hentry
      exact absurd hentry (by decide)
    · rw [if_neg hblank]
      have hzero : Except.map (fun word => Option.getD word ['0']) (.ok none : Except PyErr (Option Text))
          = .ok (toString idx).toList ↔ idx = 0 := by
        have hdefault : Except.map (fun word => Option.getD word ['0'])
            (.ok none : Except PyErr (Option Text)) = .ok (toString 0).toList := rfl
        rw [hdefault, Except.ok.injEq, String.toList_inj]
        constructor
        · intro hsame
          exact (toString_nat_injective hsame).symm
        · rintro rfl
          rfl
      rw [hzero]
      simp only [hblank, false_or, Bool.false_eq_true]

theorem get?_updateLocalSockId (tree : Tree) (idx : ℕ) {conf : String}
    (hconf : conf = "cefnetd.conf" ∨ conf = "csmgrd.conf") :
    Dict.get? (tree.updateLocalSockId idx) [conf] = (Dict.get? tree [conf]).map fun item =>
      match item with
      | .file text => .file (updateLocalSockIdText idx text)
      | .folder => .folder := by
  have hstep : ∀ (tree : Tree) (conf conf' : String),
      Dict.get? (tree.updateSockId idx conf) [conf'] =
        if conf' = conf then (Dict.get? tree [conf]).map fun item =>
          match item with
          | .file text => .file (updateLocalSockIdText idx text)
          | .folder => .folder
        else Dict.get? tree [conf'] := by
    intro tree conf conf'
    rw [Tree.updateSockId]
    split
    · rename_i text htext
      rw [Dict.get?_set, htext]
      by_cases hconf : conf' = conf
      · rw [if_pos (by rw [hconf]), if_pos hconf]
        rfl
      · rw [if_neg (fun h => hconf (List.singleton_inj.mp h)), if_neg hconf]
    · rename_i hother
      by_cases hconf : conf' = conf
      · rw [if_pos hconf, hconf]
        cases hitem : Dict.get? tree [conf] with
        | none => rfl
        | some item =>
          cases item with
          | folder => rfl
          | file text => exact absurd hitem (hother text)
      · rw [if_neg hconf]
  rw [Tree.updateLocalSockId, List.foldl_cons, List.foldl_cons, List.foldl_nil, hstep]
  rcases hconf with rfl | rfl
  · rw [if_neg (by decide), hstep, if_pos rfl]
  · rw [if_pos rfl, hstep, if_neg (by decide)]

/-- What a node's reader finds is what is found in the file. -/
theorem readEntry_updated (tree : Tree) (idx : ℕ) {conf : String}
    (hconf : conf = "cefnetd.conf" ∨ conf = "csmgrd.conf") (entry : String) :
    readEntry (tree.updateLocalSockId idx) conf entry =
      match Dict.get? tree [conf] with
      | some (.file text) => readEntryText entry (updateLocalSockIdText idx text)
      | _ => .ok none := by
  rw [readEntry, get?_updateLocalSockId tree idx hconf]
  cases Dict.get? tree [conf] with
  | none => rfl
  | some item => cases item <;> rfl

/-- The claim at one of the two files. -/
theorem conf_keeps_iff (tree : Tree) (idx : ℕ) {conf : String}
    (hconf : conf = "cefnetd.conf" ∨ conf = "csmgrd.conf") (default : ℤ) :
    ((∀ text, Dict.get? tree [conf] = some (.file text) →
          readLocalSockId (tree.updateLocalSockId idx) conf = .ok (toString idx).toList) ∧
        (readEntry (tree.updateLocalSockId idx) conf "PORT_NUM=").map (portOf default) =
          (readEntry tree conf "PORT_NUM=").map (portOf default)) ↔
      ∀ text, Dict.get? tree [conf] = some (.file text) → Keeps idx default text := by
  rw [readLocalSockId, readEntry_updated tree idx hconf, readEntry_updated tree idx hconf, readEntry]
  cases Dict.get? tree [conf] with
  | none => exact ⟨fun _ _ h => (nomatch h), fun _ => ⟨fun _ h => (nomatch h), rfl⟩⟩
  | some item =>
    cases item with
    | folder => exact ⟨fun _ _ h => (nomatch h), fun _ => ⟨fun _ h => (nomatch h), rfl⟩⟩
    | file text =>
      constructor
      · rintro ⟨hid, hport⟩ text' htext
        cases htext
        exact (keeps_iff idx default text).mp ⟨hid text rfl, hport⟩
      · intro hkeeps
        obtain ⟨hid, hport⟩ := (keeps_iff idx default text).mpr (hkeeps text rfl)
        exact ⟨fun _ _ => hid, hport⟩

end SockIds
end Proof
end CeforeEmu
