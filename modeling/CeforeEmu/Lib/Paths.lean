import Mathlib.Data.List.Basic

/-!
# Canonical paths

`os.path.realpath` where there are no symbolic links: a path is walked component by component from
the root or from the working directory, `.` and empty components stay where they are, `..` goes up
unless it is at the root, and any other component goes down.

What is proved about it is what suffixing does. A suffix without a slash only changes the last
component, and one that is not all dots turns any component into one that goes down. So the
canonical path of the suffixed path says in which directory the last component was looked up, and
up to the suffix what that component was; both together determine the canonical path the suffix was
added to (`realpath_append_inj`).
-/

set_option autoImplicit false

namespace CeforeEmu
namespace Lib
namespace Path

/-- The names from the root to a directory or a file. -/
abbrev Trail := List (List Char)

/-- Following one component of a path. -/
def enter (dir : Trail) (name : List Char) : Trail :=
  if name = [] ∨ name = ['.'] then dir
  else if name = ['.', '.'] then dir.dropLast
  else dir ++ [name]

/-- Where a path leads from a working directory. -/
def resolve (cwd : Trail) (path : List Char) : Trail :=
  (path.splitOn '/').foldl enter (if path.head? = some '/' then [] else cwd)

def render (trail : Trail) : String := String.ofList ('/' :: ['/'].intercalate trail)

/-- `os.path.realpath(path)` in the working directory `cwd`. -/
def realpath (cwd path : String) : String :=
  render (resolve (resolve [] cwd.toList) path.toList)

/-! ## Trails can be read back -/

/-- The names are names. -/
def Clean (trail : Trail) : Prop := ∀ name ∈ trail, name ≠ [] ∧ '/' ∉ name

theorem Clean.enter {dir : Trail} (h : Clean dir) {name : List Char} (hname : '/' ∉ name) :
    Clean (enter dir name) := by
  rw [Path.enter]
  split
  · exact h
  · rename_i hstay
    split
    · exact fun n hn => h n ((List.dropLast_sublist dir).subset hn)
    · intro n hn
      rcases List.mem_append.mp hn with hn | hn
      · exact h n hn
      · cases List.mem_singleton.mp hn
        exact ⟨fun hnil => hstay (.inl hnil), hname⟩

theorem Clean.foldl {names : List (List Char)} (hnames : ∀ n ∈ names, '/' ∉ n) :
    ∀ {dir : Trail}, Clean dir → Clean (names.foldl Path.enter dir) := by
  induction names with
  | nil => exact fun h => h
  | cons name names ih =>
    intro dir h
    exact ih (fun n hn => hnames n (List.mem_cons_of_mem _ hn))
      (h.enter (hnames name List.mem_cons_self))

theorem not_mem_of_mem_splitOn (path : List Char) : ∀ n ∈ path.splitOn '/', '/' ∉ n := by
  induction path with
  | nil => simp
  | cons c path ih =>
    rw [List.splitOn_cons_eq_if_modifyHead]
    split
    · intro n hn
      rcases List.mem_cons.mp hn with rfl | hn
      · exact List.not_mem_nil
      · exact ih n hn
    · rename_i hc
      cases hsplit : path.splitOn '/' with
      | nil => exact absurd hsplit (List.splitOn_ne_nil _ _)
      | cons first rest =>
        rw [hsplit] at ih
        intro n hn
        rcases List.mem_cons.mp hn with rfl | hn
        · rw [List.mem_cons, not_or]
          exact ⟨fun heq => hc (by simp [← heq]), ih first List.mem_cons_self⟩
        · exact ih n (List.mem_cons_of_mem _ hn)

theorem clean_resolve {cwd : Trail} (h : Clean cwd) (path : List Char) :
    Clean (resolve cwd path) := by
  refine Clean.foldl (not_mem_of_mem_splitOn path) ?_
  split
  · exact fun n hn => by cases hn
  · exact h

theorem render_inj {trail trail' : Trail} (h : Clean trail) (h' : Clean trail')
    (heq : render trail = render trail') : trail = trail' := by
  have hchars : ['/'].intercalate trail = ['/'].intercalate trail' := by
    have := congrArg String.toList heq
    rw [render, render, String.toList_ofList, String.toList_ofList] at this
    exact (List.cons.inj this).2
  -- an empty trail is told from the others by its length
  have hnil : ∀ t : Trail, Clean t → ['/'].intercalate t = [] → t = [] := by
    intro t ht hempty
    cases t with
    | nil => rfl
    | cons name rest =>
      have hsplit := List.splitOn_intercalate '/' (fun l hl => (ht l hl).2) (List.cons_ne_nil name rest)
      rw [hempty, List.splitOn_nil] at hsplit
      exact absurd (List.cons.inj hsplit).1.symm (ht name List.mem_cons_self).1
  by_cases ht : trail = []
  · subst ht
    exact (hnil trail' h' (by rw [← hchars]; rfl)).symm
  · have ht' : trail' ≠ [] := by
      rintro rfl
      exact ht (hnil trail h (by rw [hchars]; rfl))
    rw [← List.splitOn_intercalate '/' (fun l hl => (h l hl).2) ht, hchars,
      List.splitOn_intercalate '/' (fun l hl => (h' l hl).2) ht']

/-! ## Suffixes -/

/-- A suffix that only changes the name of what a path leads to. -/
structure IsSuffix (suffix : List Char) : Prop where
  noSlash : '/' ∉ suffix
  notDots : ∃ c ∈ suffix, c ≠ '.'

theorem enter_suffixed (dir : Trail) (name : List Char) {suffix : List Char}
    (h : IsSuffix suffix) : enter dir (name ++ suffix) = dir ++ [name ++ suffix] := by
  obtain ⟨c, hc, hdot⟩ := h.notDots
  have hmem : c ∈ name ++ suffix := List.mem_append_right _ hc
  have hne : ∀ dots : List Char, (∀ d ∈ dots, d = '.') → name ++ suffix ≠ dots :=
    fun dots hdots heq => hdot (hdots c (heq ▸ hmem))
  rw [enter, if_neg, if_neg]
  · exact hne _ (by simp)
  · exact fun hstay => hstay.elim (hne _ (by simp)) (hne _ (by simp))

/-- The last component of a path, and the others before it. -/
theorem exists_last (path : List Char) :
    ∃ front name, '/' ∉ name ∧ path.splitOn '/' = front ++ [name] ∧
      ∀ suffix, '/' ∉ suffix → (path ++ suffix).splitOn '/' = front ++ [name ++ suffix] := by
  by_cases hslash : '/' ∈ path
  · obtain ⟨last, dir, hsplit, hlast⟩ := List.eq_append_cons_of_mem (List.mem_reverse.mpr hslash)
    have hpath : path = dir.reverse ++ '/' :: last.reverse := by
      rw [← List.reverse_reverse path, hsplit]
      simp
    have hname : '/' ∉ last.reverse := fun h => hlast (List.mem_reverse.mp h)
    have happend : ∀ suffix, '/' ∉ suffix →
        (path ++ suffix).splitOn '/' = dir.reverse.splitOn '/' ++ [last.reverse ++ suffix] := by
      intro suffix hs
      have hone : (last.reverse ++ suffix).splitOn '/' = [last.reverse ++ suffix] := by
        apply List.splitOn_eq_singleton
        rw [List.mem_append, not_or]
        exact ⟨hname, hs⟩
      rw [hpath, List.append_assoc, List.cons_append, List.splitOn_append_cons_self, hone]
    refine ⟨dir.reverse.splitOn '/', last.reverse, hname, ?_, happend⟩
    simpa using happend [] List.not_mem_nil
  · refine ⟨[], path, hslash, List.splitOn_eq_singleton hslash, fun suffix hs => ?_⟩
    rw [List.splitOn_eq_singleton]
    · rfl
    · rw [List.mem_append, not_or]
      exact ⟨hslash, hs⟩

/-- Where a suffixed path leads: to the directory the last component was looked up in, and there to
    that component with the suffix. -/
theorem resolve_append (cwd : Trail) (path : List Char) :
    ∃ dir name, resolve cwd path = enter dir name ∧
      ∀ suffix, IsSuffix suffix → resolve cwd (path ++ suffix) = dir ++ [name ++ suffix] := by
  obtain ⟨front, name, hname, hsplit, happend⟩ := exists_last path
  refine ⟨front.foldl enter (if path.head? = some '/' then [] else cwd), name, ?_,
    fun suffix hs => ?_⟩
  · rw [resolve, hsplit, List.foldl_append]
    rfl
  · have hhead : (path ++ suffix).head? = some '/' ↔ path.head? = some '/' := by
      cases path with
      | nil =>
        refine iff_of_false (fun h => hs.noSlash ?_) fun h => by cases h
        exact List.mem_of_mem_head? h
      | cons c path => rfl
    simp only [resolve, happend suffix hs.noSlash, List.foldl_append, List.foldl_cons,
      List.foldl_nil, enter_suffixed _ name hs, hhead]

/-- **Suffixed paths.** If two suffixed paths have the same canonical path and the suffixes can be
    told from the names before them, then the suffixes are the same, and the two paths had the same
    canonical path before. -/
theorem realpath_append_inj {cwd path path' suffix suffix' : String}
    (hs : IsSuffix suffix.toList) (hs' : IsSuffix suffix'.toList)
    (hread : ∀ a b : List Char, a ++ suffix.toList = b ++ suffix'.toList → a = b)
    (h : realpath cwd (path ++ suffix) = realpath cwd (path' ++ suffix')) :
    realpath cwd path = realpath cwd path' ∧ suffix = suffix' := by
  have hclean : Clean (resolve [] cwd.toList) := clean_resolve (fun n hn => by cases hn) _
  obtain ⟨dir, name, hpath, hsuff⟩ := resolve_append (resolve [] cwd.toList) path.toList
  obtain ⟨dir', name', hpath', hsuff'⟩ := resolve_append (resolve [] cwd.toList) path'.toList
  have htrail := render_inj (clean_resolve hclean _) (clean_resolve hclean _) h
  rw [String.toList_append, String.toList_append, hsuff _ hs, hsuff' _ hs'] at htrail
  obtain ⟨hdir, hlast⟩ := List.append_inj' htrail rfl
  have hname : name ++ suffix.toList = name' ++ suffix'.toList := (List.cons.inj hlast).1
  have heq : name = name' := hread _ _ hname
  refine ⟨?_, String.toList_injective ?_⟩
  · rw [realpath, realpath, hpath, hpath', hdir, heq]
  · rw [heq] at hname
    exact List.append_cancel_left hname

example : realpath "/home/u" "logs/./a" = "/home/u/logs/a" ∧
    realpath "/home/u" "x/../logs//a.2" = "/home/u/logs/a.2" := by decide

end Path
end Lib
end CeforeEmu
