import CeforeEmu.Proof.SockIds

/-!
# The readers of a daemon's configuration

A reader looks for the first line that, up to the white space before it, begins with its entry. A
word after the `=` that is no number is caught, and the port is the default then. A line without a
word is not: the readers index into the words before they catch anything, so a bare `PORT_NUM=`
raises where `PORT_NUM=x` does not.
-/

set_option autoImplicit false

namespace CeforeEmu
namespace Proof
namespace ConfReaders

open CeforeEmu.Lib CeforeEmu.Runtime.Template CeforeEmu.Runtime.DaemonConf SockIds

/-- What the first line of an entry has after it; a comment begins with no entry. -/
def FirstEntry (entry : String) (text v : Text) : Prop :=
  ∃ line, text.universalNewlines.readLines.find?
      (fun line => entry.toList.isPrefixOf line.lstrip) = some line ∧
    line.lstrip = entry.toList ++ v

/-- No line begins with the entry. -/
def NoEntry (entry : String) (text : Text) : Prop :=
  ∀ line ∈ text.universalNewlines.readLines, ¬ entry.toList <+: line.lstrip

/-- **What a reader finds** is the first word of the first line of its entry. -/
theorem readEntryText_spec {entry : String} (hkey : IsEntryKey entry) (text : Text) :
    (∃ v, FirstEntry entry text v ∧ readEntryText entry text = (wordOf v).map some) ∨
      NoEntry entry text ∧ readEntryText entry text = .ok none := by
  have hsame : isEntry entry = fun line : Text => entry.toList.isPrefixOf line.lstrip := by
    funext line
    rw [Bool.eq_iff_iff, isEntry_iff hkey, List.isPrefixOf_iff_prefix]
  rw [readEntryText, hsame]
  cases hfound : text.universalNewlines.readLines.find?
      (fun line : Text => entry.toList.isPrefixOf line.lstrip) with
  | none =>
    refine .inr ⟨fun line hline hpre => ?_, rfl⟩
    exact List.find?_eq_none.mp hfound line hline (List.isPrefixOf_iff_prefix.mpr hpre)
  | some line =>
    have hpre : entry.toList.isPrefixOf line.lstrip = true :=
      List.find?_some (p := fun line : Text => entry.toList.isPrefixOf line.lstrip) hfound
    obtain ⟨v, hv⟩ := List.isPrefixOf_iff_prefix.mp hpre
    refine .inl ⟨v, ⟨line, hfound, hv.symm⟩, ?_⟩
    simp only [entryWord_eq hkey hv.symm]

theorem FirstEntry.unique {entry : String} {text v v' : Text} (h : FirstEntry entry text v)
    (h' : FirstEntry entry text v') : v = v' := by
  obtain ⟨line, hfound, hv⟩ := h
  obtain ⟨line', hfound', hv'⟩ := h'
  rw [hfound] at hfound'
  cases hfound'
  rw [hv] at hv'
  exact List.append_cancel_left hv'

theorem FirstEntry.not_noEntry {entry : String} {text v : Text} (h : FirstEntry entry text v) :
    ¬ NoEntry entry text := by
  obtain ⟨line, hfound, hv⟩ := h
  exact fun hno => hno line (List.mem_of_find?_eq_some hfound) ⟨v, hv.symm⟩

/-- The first line of an entry in a file, if there is one, has a word. -/
def Filled (tree : Tree) (conf entry : String) : Prop :=
  ∀ text v, Dict.get? tree [conf] = some (.file text) → FirstEntry entry text v →
    ∃ c ∈ v, Text.isWhite c = false

/-- The integer of the first line of a port where there is one, and else the default. -/
def SaysPort (tree : Tree) (conf : String) (default n : ℤ) : Prop :=
  match Dict.get? tree [conf] with
  | some (.file text) =>
      (∃ v, FirstEntry "PORT_NUM=" text v ∧ n = ((firstWord? v).bind Text.int?).getD default) ∨
        NoEntry "PORT_NUM=" text ∧ n = default
  | _ => n = default

theorem firstWord?_eq_none_iff {v : Text} :
    firstWord? v = none ↔ ∀ c ∈ v, Text.isWhite c = true := by
  have hblank : v.lstrip = [] ↔ ∀ c ∈ v, Text.isWhite c = true := List.dropWhile_eq_nil_iff
  rw [← hblank, firstWord?]
  cases hv : v.lstrip with
  | nil => exact ⟨fun _ => rfl, fun _ => rfl⟩
  | cons c rest =>
    have hc : Text.isWhite c = false := by
      have hhead := List.head?_dropWhile_not Text.isWhite v
      rw [show v.dropWhile Text.isWhite = c :: rest from hv] at hhead
      simpa using hhead
    rw [List.takeWhile_cons, hc]
    constructor
    · intro h
      cases h
    · intro h
      cases h

/-- A reader returns where its line has a word. -/
theorem readEntry_returns_iff {entry : String} (hkey : IsEntryKey entry) (tree : Tree)
    (conf : String) : (∃ word, readEntry tree conf entry = .ok word) ↔ Filled tree conf entry := by
  rw [readEntry, Filled]
  cases Dict.get? tree [conf] with
  | none =>
    refine ⟨fun _ text v htext => ?_, fun _ => ⟨none, rfl⟩⟩
    cases htext
  | some item =>
    cases item with
    | folder =>
      refine ⟨fun _ text v htext => ?_, fun _ => ⟨none, rfl⟩⟩
      cases htext
    | file text =>
      rcases readEntryText_spec hkey text with ⟨v, hfirst, hread⟩ | ⟨hno, hread⟩
      · have hword : (∃ word, readEntryText entry text = .ok word) ↔
            ∃ c ∈ v, Text.isWhite c = false := by
          rw [hread, wordOf]
          cases hfound : firstWord? v with
          | none =>
            have hwhite := firstWord?_eq_none_iff.mp hfound
            constructor
            · rintro ⟨word, h⟩
              cases h
            · rintro ⟨c, hc, hblack⟩
              rw [hwhite c hc] at hblack
              cases hblack
          | some word =>
            refine ⟨fun _ => ?_, fun _ => ⟨some word, rfl⟩⟩
            by_contra hnone
            have hwhite : ∀ c ∈ v, Text.isWhite c = true := by
              intro c hc
              by_contra hblack
              exact hnone ⟨c, hc, Bool.not_eq_true _ |>.mp hblack⟩
            rw [firstWord?_eq_none_iff.mpr hwhite] at hfound
            cases hfound
        simp only [hword]
        constructor
        · rintro hfilled text' v' htext hfirst'
          cases htext
          rw [hfirst'.unique hfirst]
          exact hfilled
        · intro hfilled
          exact hfilled text v rfl hfirst
      · refine ⟨fun _ text' v htext hfirst => ?_, fun _ => ⟨none, hread⟩⟩
        cases htext
        exact absurd hno hfirst.not_noEntry

theorem readPort_says {tree : Tree} {conf : String} {word : Option Text}
    (h : readEntry tree conf "PORT_NUM=" = .ok word) (default : ℤ) :
    SaysPort tree conf default (portOf default word) := by
  rw [readEntry] at h
  rw [SaysPort]
  cases hitem : Dict.get? tree [conf] with
  | none =>
    rw [hitem] at h
    cases h
    rfl
  | some item =>
    rw [hitem] at h
    cases item with
    | folder =>
      cases h
      rfl
    | file text =>
      rcases readEntryText_spec portNum_isEntryKey text with ⟨v, hfirst, hread⟩ | ⟨hno, hread⟩
      · refine .inl ⟨v, hfirst, ?_⟩
        simp only [hread, wordOf] at h
        cases hfound : firstWord? v with
        | none =>
          rw [hfound] at h
          cases h
        | some found =>
          rw [hfound] at h
          cases h
          rfl
      · simp only [hread] at h
        cases h
        exact .inr ⟨hno, rfl⟩

end ConfReaders
end Proof
end CeforeEmu
