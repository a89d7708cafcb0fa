import Mathlib.Data.List.TakeWhile
import CeforeEmu.Lib.Text

/-!
# Lines, taken apart and put together

`splitLines` gives back the lines that were joined, as long as no line has a line boundary of its
own (`splitLines_joinLines`), and its lines never do (`splitLines_clean`).

`readLines` keeps the line ends, so its lines only have to be put side by side (`readLines_flatten`).
All of them have an end but the last, which is what stands after the last one in the text
(`readLines_eq`).
-/

set_option autoImplicit false

namespace CeforeEmu
namespace Lib
namespace Text

/-- No character `splitlines` would cut at. -/
def Clean (line : Text) : Prop := ∀ c ∈ line, isLineBreak c = false

theorem clean_of_all {line : Text} (h : line.all (fun c => !isLineBreak c) = true) : Clean line := by
  intro c hc
  have hall := List.all_eq_true.mp h c hc
  rwa [Bool.not_eq_true'] at hall

theorem Clean.append {a b : Text} (ha : Clean a) (hb : Clean b) : Clean (a ++ b) := by
  intro c hc
  rcases List.mem_append.mp hc with hc | hc
  · exact ha c hc
  · exact hb c hc

/-- Text without a carriage return is read as it stands. -/
theorem universalNewlines_of_no_cr {text : Text} (h : '\r' ∉ text) : text.universalNewlines = text := by
  induction text using universalNewlines.induct with
  | case1 => rfl
  | case2 cs ih => exact absurd List.mem_cons_self h
  | case3 cs hne ih => exact absurd List.mem_cons_self h
  | case4 c cs hne hne' ih =>
    rw [universalNewlines, ih fun hmem => h (List.mem_cons_of_mem _ hmem)]
    · exact hne
    · exact hne'

theorem consLine_clean {c : Char} {lines : List Text} (hc : isLineBreak c = false)
    (h : ∀ line ∈ lines, Clean line) : ∀ line ∈ consLine c lines, Clean line := by
  cases lines with
  | nil =>
    intro line hline d hd
    rw [consLine, List.mem_singleton] at hline
    subst hline
    rw [List.mem_singleton.mp hd]
    exact hc
  | cons first rest =>
    rw [consLine, List.forall_mem_cons]
    obtain ⟨hfirst, hrest⟩ := List.forall_mem_cons.mp h
    exact ⟨List.forall_mem_cons.mpr ⟨hc, hfirst⟩, hrest⟩

theorem splitLines_clean (text : Text) : ∀ line ∈ text.splitLines, Clean line := by
  induction text using splitLines.induct with
  | case1 => exact fun line h => absurd h List.not_mem_nil
  | case2 cs ih =>
    rw [splitLines]
    exact List.forall_mem_cons.mpr ⟨fun c hc => absurd hc List.not_mem_nil, ih⟩
  | case3 c cs hne hc ih =>
    rw [splitLines, if_pos hc]
    · exact List.forall_mem_cons.mpr ⟨fun c hc => absurd hc List.not_mem_nil, ih⟩
    · exact hne
  | case4 c cs hne hc ih =>
    rw [splitLines, if_neg hc]
    · exact consLine_clean (Bool.eq_false_iff.mpr hc) ih
    · exact hne

theorem splitLines_break {c : Char} {cs : Text} (hc : isLineBreak c = true)
    (hne : ∀ rest, c = '\r' → cs ≠ '\n' :: rest) : splitLines (c :: cs) = [] :: splitLines cs := by
  rw [splitLines, if_pos hc]
  exact hne

theorem splitLines_char {c : Char} {cs : Text} (hc : isLineBreak c = false) :
    splitLines (c :: cs) = consLine c (splitLines cs) := by
  rw [splitLines, if_neg (Bool.eq_false_iff.mp hc)]
  rintro rest rfl -
  cases hc

/-- A clean line before something that begins with a boundary. -/
theorem splitLines_line {line rest : Text} (h : Clean line) :
    splitLines (line ++ '\n' :: rest) = line :: splitLines rest := by
  induction line with
  | nil => rfl
  | cons c line ih =>
    obtain ⟨hc, hline⟩ := List.forall_mem_cons.mp h
    rw [List.cons_append, splitLines_char hc, ih hline, consLine]

theorem joinLines_cons {line : Text} {lines : List Text} (h : lines ≠ []) :
    joinLines (line :: lines) = line ++ '\n' :: joinLines lines := by
  cases lines with
  | nil => exact absurd rfl h
  | cons next lines =>
    simp [joinLines, List.intercalate, List.intersperse]

/-- **Joined lines** are split where they were joined. -/
theorem splitLines_joinLines {lines : List Text} (hne : lines ≠ []) (h : ∀ line ∈ lines, Clean line) :
    splitLines (joinLines lines ++ ['\n']) = lines := by
  induction lines with
  | nil => exact absurd rfl hne
  | cons line lines ih =>
    obtain ⟨hline, hlines⟩ := List.forall_mem_cons.mp h
    by_cases hnil : lines = []
    · subst hnil
      have hjoin : joinLines [line] = line := by simp [joinLines, List.intercalate]
      rw [hjoin, splitLines_line hline]
      rfl
    · rw [joinLines_cons hnil, List.append_assoc, List.cons_append, splitLines_line hline,
        ih hnil hlines]

theorem joinLines_no_cr {lines : List Text} (h : ∀ line ∈ lines, Clean line) :
    '\r' ∉ joinLines lines := by
  induction lines with
  | nil => exact List.not_mem_nil
  | cons line lines ih =>
    obtain ⟨hline, hlines⟩ := List.forall_mem_cons.mp h
    have hcr : '\r' ∉ line := fun hmem => absurd (hline _ hmem) (by decide)
    by_cases hnil : lines = []
    · subst hnil
      simpa [joinLines, List.intercalate] using hcr
    · rw [joinLines_cons hnil, List.mem_append, List.mem_cons]
      rintro (hmem | heq | hmem)
      · exact hcr hmem
      · exact absurd heq (by decide)
      · exact ih hlines hmem

/-- What is read back of lines that have been written. -/
theorem lines_written {lines : List Text} (hne : lines ≠ []) (h : ∀ line ∈ lines, Clean line) :
    splitLines (universalNewlines (joinLines lines ++ ['\n'])) = lines := by
  rw [universalNewlines_of_no_cr, splitLines_joinLines hne h]
  rw [List.mem_append, List.mem_singleton]
  rintro (hmem | heq)
  · exact joinLines_no_cr h hmem
  · exact absurd heq (by decide)

/-! ## Lines with their ends -/

theorem no_cr_universalNewlines (text : Text) : '\r' ∉ text.universalNewlines := by
  induction text using universalNewlines.induct with
  | case1 => exact List.not_mem_nil
  | case2 cs ih =>
    rw [universalNewlines, List.mem_cons]
    rintro (h | h)
    · exact absurd h (by decide)
    · exact ih h
  | case3 cs hne ih =>
    rw [universalNewlines, List.mem_cons]
    · rintro (h | h)
      · exact absurd h (by decide)
      · exact ih h
    · exact hne
  | case4 c cs hne hne' ih =>
    rw [universalNewlines, List.mem_cons]
    · rintro (h | h)
      · exact hne' h.symm
      · exact ih h
    · exact hne
    · exact hne'

/-- A line with its end. -/
def Ended (line : Text) : Prop := ∃ body, line = body ++ ['\n'] ∧ '\n' ∉ body

/-- What stands after the last line end. -/
def unended (text : Text) : Text := (text.reverse.takeWhile fun c => c ≠ '\n').reverse

theorem readLines_flatten (text : Text) : text.readLines.flatten = text := by
  induction text with
  | nil => rfl
  | cons c cs ih =>
    rw [readLines]
    split
    · rw [List.flatten_cons, ih]
      rfl
    · cases hlines : readLines cs with
      | nil =>
        rw [hlines] at ih
        rw [← ih]
        rfl
      | cons line lines =>
        rw [hlines, List.flatten_cons] at ih
        rw [consLine, List.flatten_cons, List.cons_append, ih]

theorem readLines_body {body rest : Text} (h : '\n' ∉ body) :
    readLines (body ++ '\n' :: rest) = (body ++ ['\n']) :: readLines rest := by
  induction body with
  | nil => rfl
  | cons c body ih =>
    obtain ⟨hc, hbody⟩ := not_or.mp fun hmem => h (List.mem_cons.mpr hmem)
    rw [List.cons_append, readLines, if_neg (Ne.symm hc), ih hbody]
    rfl

theorem readLines_of_not_mem {last : Text} (hne : last ≠ []) (h : '\n' ∉ last) :
    readLines last = [last] := by
  induction last with
  | nil => exact absurd rfl hne
  | cons c last ih =>
    obtain ⟨hc, hlast⟩ := not_or.mp fun hmem => h (List.mem_cons.mpr hmem)
    rw [readLines, if_neg (Ne.symm hc)]
    cases last with
    | nil => rfl
    | cons d last =>
      rw [ih (List.cons_ne_nil d last) hlast]
      rfl

/-- **Lines are read** where their ends are. -/
theorem readLines_append {lines : List Text} (h : ∀ line ∈ lines, Ended line) (rest : Text) :
    readLines (lines.flatten ++ rest) = lines ++ readLines rest := by
  induction lines with
  | nil => rfl
  | cons line lines ih =>
    obtain ⟨⟨body, rfl, hbody⟩, hlines⟩ := List.forall_mem_cons.mp h
    rw [List.flatten_cons, List.append_assoc, List.append_assoc, List.singleton_append,
      readLines_body hbody, ih hlines, List.cons_append]

theorem unended_append {lines : List Text} (h : ∀ line ∈ lines, Ended line) {last : Text}
    (hlast : '\n' ∉ last) : unended (lines.flatten ++ last) = last := by
  have hall : ∀ c ∈ last.reverse, decide (c ≠ '\n') = true := by
    intro c hc
    rw [decide_eq_true_eq]
    rintro rfl
    exact hlast (List.mem_reverse.mp hc)
  have hstop : lines.flatten.reverse.takeWhile (fun c => c ≠ '\n') = [] := by
    rcases List.eq_nil_or_concat' lines with rfl | ⟨lines, line, rfl⟩
    · rfl
    · obtain ⟨body, rfl, -⟩ := h line (List.mem_append_right _ (List.mem_singleton_self _))
      rw [List.flatten_append, List.flatten_singleton, List.reverse_append, List.reverse_append]
      rfl
  rw [unended, List.reverse_append, List.takeWhile_append_of_pos hall, hstop, List.append_nil,
    List.reverse_reverse]

/-- Every text is lines with their ends, and what stands after them. -/
theorem eq_ended_append (text : Text) : ∃ lines : List Text, (∀ line ∈ lines, Ended line) ∧
    '\n' ∉ unended text ∧ text = lines.flatten ++ unended text := by
  have hsplit : ∃ (lines : List Text) (last : Text), (∀ line ∈ lines, Ended line) ∧
      '\n' ∉ last ∧ text = lines.flatten ++ last := by
    induction text with
    | nil => exact ⟨[], [], fun line h => absurd h List.not_mem_nil, List.not_mem_nil, rfl⟩
    | cons c cs ih =>
      obtain ⟨lines, last, hlines, hlast, rfl⟩ := ih
      by_cases hc : c = '\n'
      · refine ⟨['\n'] :: lines, last, List.forall_mem_cons.mpr ⟨?_, hlines⟩, hlast, by rw [hc]; rfl⟩
        exact ⟨[], rfl, List.not_mem_nil⟩
      · cases lines with
        | nil =>
          refine ⟨[], c :: last, hlines, fun hmem => ?_, rfl⟩
          rcases List.mem_cons.mp hmem with heq | hmem
          · exact hc heq.symm
          · exact hlast hmem
        | cons line lines =>
          obtain ⟨⟨body, rfl, hbody⟩, hrest⟩ := List.forall_mem_cons.mp hlines
          refine ⟨(c :: (body ++ ['\n'])) :: lines, last, List.forall_mem_cons.mpr ⟨?_, hrest⟩,
            hlast, rfl⟩
          refine ⟨c :: body, rfl, fun hmem => ?_⟩
          rcases List.mem_cons.mp hmem with heq | hmem
          · exact hc heq.symm
          · exact hbody hmem
  obtain ⟨lines, last, hlines, hlast, rfl⟩ := hsplit
  rw [unended_append hlines hlast]
  exact ⟨lines, hlines, hlast, rfl⟩

/-! ## White space -/

theorem prefix_append_iff {key a b : Text} :
    key <+: a ++ b ↔ key <+: a ∨ ∃ rest, rest ≠ [] ∧ key = a ++ rest ∧ rest <+: b := by
  induction a generalizing key with
  | nil =>
    rw [List.nil_append, List.prefix_nil]
    constructor
    · intro h
      by_cases hkey : key = []
      · exact .inl hkey
      · exact .inr ⟨key, hkey, rfl, h⟩
    · rintro (rfl | ⟨rest, -, rfl, h⟩)
      · exact List.nil_prefix
      · exact h
  | cons c a ih =>
    cases key with
    | nil => exact ⟨fun _ => .inl List.nil_prefix, fun _ => List.nil_prefix⟩
    | cons d key =>
      rw [List.cons_append, List.cons_prefix_cons, List.cons_prefix_cons, ih]
      constructor
      · rintro ⟨rfl, h | ⟨rest, hne, rfl, h⟩⟩
        · exact .inl ⟨rfl, h⟩
        · exact .inr ⟨rest, hne, rfl, h⟩
      · rintro (⟨rfl, h⟩ | ⟨rest, hne, heq, h⟩)
        · exact ⟨rfl, .inl h⟩
        · obtain ⟨rfl, rfl⟩ := List.cons.inj heq
          exact ⟨rfl, .inr ⟨rest, hne, rfl, h⟩⟩

/-- `strip` takes what follows from what `lstrip` leaves. -/
theorem lstrip_eq_strip (line : Text) :
    ∃ ws : Text, line.lstrip = line.strip ++ ws ∧ ∀ c ∈ ws, isWhite c = true := by
  refine ⟨(line.lstrip.reverse.takeWhile isWhite).reverse, ?_, ?_⟩
  · rw [strip, ← List.reverse_append, List.takeWhile_append_dropWhile, List.reverse_reverse]
  · intro c hc
    exact List.mem_takeWhile_imp (List.mem_reverse.mp hc)

theorem lstrip_of_head {c : Char} {rest : Text} (h : isWhite c = false) :
    lstrip (c :: rest) = c :: rest :=
  List.dropWhile_cons_of_neg (Bool.eq_false_iff.mp h)

theorem lstrip_of_white {ws : Text} (h : ∀ c ∈ ws, isWhite c = true) (rest : Text) :
    lstrip (ws ++ rest) = lstrip rest := by
  rw [lstrip, List.dropWhile_append_of_pos h]
  rfl

/-- A line that is not blank keeps what follows it. -/
theorem lstrip_append {line : Text} (h : line.lstrip ≠ []) (rest : Text) :
    lstrip (line ++ rest) = line.lstrip ++ rest := by
  rw [lstrip, List.dropWhile_append, if_neg]
  · rfl
  · rw [List.isEmpty_iff]
    exact h

end Text
end Lib
end CeforeEmu
