import CeforeEmu.Lib.Paths
import CeforeEmu.Lib.Schemes

/-!
# Paths with holes

A scheme is followed as its texts are (`resolve_fill`): what fills the holes is a piece of a name, so
it never says by itself to stay or to go up.

The second half compares two schemes that are the same up to blocks of directories (`Aligned`). The
paths they name go on together: of the shorter one every name stands across from the same name of
the other, or both are free of holes (`Along`). When two such paths have the same names after their
holes have been filled differently, they were the same before and have no hole (`same_of_fill`).
-/

set_option autoImplicit false

namespace CeforeEmu
namespace Lib
namespace Scheme

/-! ## Following a path -/

/-- `Path.enter`. -/
def enter (dir : List Scheme) (name : Scheme) : List Scheme :=
  if name = [] ∨ name = literal ['.'] then dir
  else if name = literal ['.', '.'] then dir.dropLast
  else dir ++ [name]

/-- A path walked symbol by symbol, with the name read so far. -/
def follow (dir : List Scheme) (name : Scheme) : Scheme → List Scheme
  | [] => enter dir name
  | x :: s => if x = some '/' then follow (enter dir name) [] s else follow dir (name ++ [x]) s

/-- `Path.resolve`, of a scheme. -/
def resolve (cwd : Path.Trail) (s : Scheme) : List Scheme :=
  follow (if s.head? = some (some '/') then [] else cwd.map literal) [] s

section Filled

variable {hole : List Char}

/-- With a piece of a name in its holes a scheme is a text of dots only if it has no hole. -/
theorem fill_eq_dots_iff (h : Path.IsSuffix hole) {dots : List Char} (hdots : ∀ c ∈ dots, c = '.')
    (s : Scheme) : fill hole s = dots ↔ s = literal dots := by
  refine ⟨fun heq => ?_, fun heq => by rw [heq, fill_literal]⟩
  by_cases hnone : none ∈ s
  · -- what fills the hole is more than dots
    obtain ⟨front, back, rfl⟩ := List.append_of_mem hnone
    obtain ⟨c, hc, hdot⟩ := h.notDots
    rw [fill_append, fill] at heq
    have hmem : c ∈ dots := by
      rw [← heq]
      exact List.mem_append_right _ (List.mem_append_left _ hc)
    exact absurd (hdots c hmem) hdot
  · obtain ⟨text, rfl⟩ := exists_literal hnone
    rw [fill_literal] at heq
    rw [heq]

theorem map_fill_enter (h : Path.IsSuffix hole) (dir : List Scheme) (name : Scheme) :
    (enter dir name).map (fill hole) = Path.enter (dir.map (fill hole)) (fill hole name) := by
  have hnil : fill hole name = [] ↔ name = [] := fill_eq_dots_iff h (by simp) name
  have hstay : fill hole name = ['.'] ↔ name = literal ['.'] := fill_eq_dots_iff h (by simp) name
  have hup : fill hole name = ['.', '.'] ↔ name = literal ['.', '.'] :=
    fill_eq_dots_iff h (by simp) name
  rw [enter, Path.enter]
  simp only [hnil, hstay, hup]
  split
  · rfl
  · split
    · exact List.map_dropLast
    · rw [List.map_append, List.map_singleton]

theorem map_fill_follow (h : Path.IsSuffix hole) (s : Scheme) :
    ∀ (dir : List Scheme) (name : Scheme), some '/' ∉ name →
      (follow dir name s).map (fill hole)
        = ((fill hole name ++ fill hole s).splitOn '/').foldl Path.enter
            (dir.map (fill hole)) := by
  have hslash : ∀ name : Scheme, some '/' ∉ name → '/' ∉ fill hole name :=
    fun name hname hmem => (mem_fill hmem).elim hname h.noSlash
  induction s with
  | nil =>
    intro dir name hname
    rw [follow, map_fill_enter h, fill, List.append_nil,
      List.splitOn_eq_singleton (hslash name hname), List.foldl_cons, List.foldl_nil]
  | cons x s ih =>
    intro dir name hname
    by_cases hx : x = some '/'
    · subst hx
      have hcons : fill hole (some '/' :: s) = '/' :: fill hole s := rfl
      rw [follow, if_pos rfl, ih _ [] List.not_mem_nil, map_fill_enter h, hcons,
        List.splitOn_append_cons_self_of_not_mem (hslash name hname), List.foldl_cons]
      rfl
    · have hname' : some '/' ∉ name ++ [x] := by
        rw [List.mem_append, List.mem_singleton, not_or]
        exact ⟨hname, fun heq => hx heq.symm⟩
      have hcons : fill hole (x :: s) = fill hole [x] ++ fill hole s := fill_append [x] s
      rw [follow, if_neg hx, ih _ _ hname', fill_append, List.append_assoc, ← hcons]

theorem map_fill_literal (trail : Path.Trail) :
    (trail.map literal).map (fill hole) = trail := by
  rw [List.map_map]
  exact List.map_id'' (fun name => fill_literal name) trail

/-- **A scheme leads where its texts lead.** -/
theorem resolve_fill (h : Path.IsSuffix hole) (cwd : Path.Trail) (s : Scheme) :
    Path.resolve cwd (fill hole s) = (resolve cwd s).map (fill hole) := by
  have hhead : (fill hole s).head? = some '/' ↔ s.head? = some (some '/') := by
    cases s with
    | nil => exact iff_of_false (fun heq => by cases heq) fun heq => by cases heq
    | cons x s =>
      cases x with
      | some c => simp [fill]
      | none =>
        refine iff_of_false (fun heq => ?_) fun heq => by cases heq
        obtain ⟨c, hc, -⟩ := h.notDots
        cases hole with
        | nil => cases hc
        | cons d hole =>
          cases heq
          exact h.noSlash List.mem_cons_self
  rw [Path.resolve, resolve, map_fill_follow h s _ [] List.not_mem_nil]
  simp only [hhead]
  split
  · rfl
  · rw [map_fill_literal]
    rfl

end Filled

/-! ## Schemes that differ in blocks -/

/-- Two schemes, the same but for blocks `p` of the one where the other has `q`. -/
inductive Aligned (p q : Scheme) : Scheme → Scheme → Prop where
  | nil : Aligned p q [] []
  | cons (x : Option Char) {a b : Scheme} (h : Aligned p q a b) : Aligned p q (x :: a) (x :: b)
  | block {a b : Scheme} (h : Aligned p q a b) : Aligned p q (p ++ a) (q ++ b)

section Aligned

variable {p q : Scheme}

theorem Aligned.refl (s : Scheme) : Aligned p q s s := by
  induction s with
  | nil => exact .nil
  | cons x s ih => exact .cons x ih

theorem Aligned.symm {a b : Scheme} (h : Aligned p q a b) : Aligned q p b a := by
  induction h with
  | nil => exact .nil
  | cons x _ ih => exact .cons x ih
  | block _ ih => exact .block ih

theorem Aligned.append_left (s : Scheme) {a b : Scheme} (h : Aligned p q a b) :
    Aligned p q (s ++ a) (s ++ b) := by
  induction s with
  | nil => exact h
  | cons x s ih => exact .cons x ih

/-- A word that is not begun by a block stands in both schemes. -/
theorem Aligned.found {word : Scheme} (hp : ∃ x t, p = x :: t ∧ x ∉ word) :
    ∀ {a b : Scheme}, Aligned p q a b → word <+: a →
      ∃ a' b', a = word ++ a' ∧ b = word ++ b' ∧ Aligned p q a' b' := by
  obtain ⟨x, t, rfl, hx⟩ := hp
  induction word with
  | nil => exact fun {a b} h _ => ⟨a, b, rfl, rfl, h⟩
  | cons y word ih =>
    rw [List.mem_cons, not_or] at hx
    intro a b h hpre
    cases h with
    | nil => cases List.prefix_nil.mp hpre
    | cons z h =>
      rw [List.cons_prefix_cons] at hpre
      obtain ⟨rfl, hpre⟩ := hpre
      obtain ⟨a', b', rfl, rfl, h'⟩ := ih hx.2 h hpre
      exact ⟨a', b', rfl, rfl, h'⟩
    | block h =>
      rw [List.cons_append, List.cons_prefix_cons] at hpre
      exact absurd hpre.1.symm hx.1

/-- Putting in what differs. -/
theorem aligned_replaceAll_self {word : Scheme} (hne : word ≠ []) {new new' : Scheme}
    (hnew : ∀ {a b : Scheme}, Aligned p q a b → Aligned p q (new ++ a) (new' ++ b)) (s : Scheme) :
    Aligned p q (replaceAll word new 0 s) (replaceAll word new' 0 s) := by
  induction s using replaceAll_induct hne with
  | nil => exact .nil
  | found rest ih =>
    rw [replaceAll_found hne, replaceAll_found hne]
    exact hnew ih
  | kept x s hkept ih =>
    rw [replaceAll_kept hkept, replaceAll_kept hkept]
    exact .cons x ih

/-- **Aligned schemes stay aligned** when a word is replaced that blocks do not begin, with the blocks
    as they have become. -/
theorem Aligned.replaceAll {word new new' p' q' : Scheme} (hne : word ≠ [])
    (hp : ∃ x t, p = x :: t ∧ x ∉ word) (hq : ∃ x t, q = x :: t ∧ x ∉ word)
    (hblock : ∀ s, Scheme.replaceAll word new 0 (p ++ s) = p' ++ Scheme.replaceAll word new 0 s)
    (hblock' : ∀ s, Scheme.replaceAll word new' 0 (q ++ s) = q' ++ Scheme.replaceAll word new' 0 s)
    (hnew : ∀ {a b : Scheme}, Aligned p' q' a b → Aligned p' q' (new ++ a) (new' ++ b)) :
    ∀ {a b : Scheme}, Aligned p q a b →
      Aligned p' q' (Scheme.replaceAll word new 0 a) (Scheme.replaceAll word new' 0 b) := by
  intro a
  induction hn : a.length using Nat.strong_induction_on generalizing a with
  | _ n ih =>
    intro b h
    cases h with
    | nil => exact .nil
    | @cons x a b h =>
      by_cases hpre : word <+: x :: a
      · obtain ⟨a', b', ha, hb, h'⟩ := (Aligned.cons x h).found hp hpre
        rw [ha, hb, replaceAll_found hne, replaceAll_found hne]
        refine hnew (ih a'.length ?_ rfl h')
        have hpos := List.length_pos_of_ne_nil hne
        rw [← hn, ha, List.length_append]
        omega
      · have hpre' : ¬ word <+: x :: b := by
          intro hfound
          obtain ⟨b', a', -, ha, -⟩ := (Aligned.cons x h).symm.found hq hfound
          exact hpre ⟨a', ha.symm⟩
        rw [replaceAll_kept hpre, replaceAll_kept hpre']
        exact .cons x (ih a.length (by rw [← hn, List.length_cons]; omega) rfl h)
    | @block a b h =>
      obtain ⟨x, t, rfl, -⟩ := hp
      rw [hblock, hblock']
      refine .block (ih a.length ?_ rfl h)
      rw [← hn, List.length_append, List.length_cons]
      omega

theorem Aligned.head?_eq {x : Option Char} (hp : p.head? = some x) (hq : q.head? = some x)
    {a b : Scheme} (h : Aligned p q a b) : a.head? = b.head? := by
  cases h with
  | nil => rfl
  | cons x h => rfl
  | block h =>
    rw [List.head?_append, List.head?_append, hp, hq]
    rfl

end Aligned

/-! ## Blocks of directories -/

/-- A name that leads down. -/
structure LeadsDown (name : List Char) : Prop where
  noSlash : '/' ∉ name
  ne_nil : name ≠ []
  ne_dot : name ≠ ['.']
  ne_dots : name ≠ ['.', '.']

/-- The path from the root down to a directory; of the root it is the empty text. -/
def downTo (names : List (List Char)) : List Char := names.flatMap ('/' :: ·)

/-- The directories, with the slash after the last of them. -/
def dirBlock (names : List (List Char)) : Scheme := literal (downTo names) ++ [some '/']

theorem dirBlock_head? (names : List (List Char)) : (dirBlock names).head? = some (some '/') := by
  cases names with
  | nil => rfl
  | cons name names => rfl

/-- Replacing a word without slashes in the path is replacing it in each name. -/
theorem replaceAll_downTo {word : List Char} (hne : word ≠ []) (hslash : '/' ∉ word)
    (new : List Char) : ∀ (names : List (List Char)) (text : List Char),
      replaceAll word new 0 (text ++ downTo names)
        = replaceAll word new 0 text ++ downTo (names.map (replaceAll word new 0))
  | [], text => by rw [List.map_nil, downTo, List.flatMap_nil, List.append_nil, List.append_nil]
  | name :: names, text => by
    have hcons : ∀ (n : List Char) ns, downTo (n :: ns) = '/' :: (n ++ downTo ns) :=
      fun _ _ => List.flatMap_cons
    rw [List.map_cons, hcons, hcons, replaceAll_append_cons hne hslash,
      replaceAll_downTo hne hslash new names name]

/-- Putting a text that is more than dots into a name. -/
theorem LeadsDown.replaceAll {word new : List Char} (hne : word ≠ []) (hslash : '/' ∉ word)
    (hnew : Path.IsSuffix new) {name : List Char} (h : LeadsDown name) :
    LeadsDown (Scheme.replaceAll word new 0 name) := by
  rcases replaceAll_eq_self_or hne new name with heq | hmem
  · rw [heq]
    exact h
  · obtain ⟨c, hc, hdot⟩ := hnew.notDots
    have hne' : ∀ dots : List Char, (∀ d ∈ dots, d = '.') →
        Scheme.replaceAll word new 0 name ≠ dots :=
      fun dots hdots heq => hdot (hdots c (heq ▸ hmem c hc))
    refine ⟨?_, hne' [] (by simp), hne' ['.'] (by simp), hne' ['.', '.'] (by simp)⟩
    rw [← replaceChars_eq, mem_replaceChars hne hslash hnew.noSlash]
    exact h.noSlash

theorem dirBlock_append (names : List (List Char)) (s : Scheme) :
    dirBlock names ++ s = literal (downTo names) ++ some '/' :: s :=
  List.append_assoc _ _ _

/-- The directories are replaced for themselves, and so is what comes after them. -/
theorem replaceAll_dirBlock {word : List Char} (hne : word ≠ []) (hslash : '/' ∉ word)
    (new : Scheme) (names : List (List Char)) (s : Scheme) :
    Scheme.replaceAll (literal word) new 0 (dirBlock names ++ s)
      = Scheme.replaceAll (literal word) new 0 (literal (downTo names))
        ++ some '/' :: Scheme.replaceAll (literal word) new 0 s := by
  have hne' : literal word ≠ [] := fun h => hne (List.map_eq_nil_iff.mp h)
  rw [dirBlock_append, replaceAll_append_cons hne' (not_mem_literal hslash)]

theorem enter_leadsDown {name : List Char} (h : LeadsDown name) (dir : List Scheme) :
    enter dir (literal name) = dir ++ [literal name] := by
  rw [enter, if_neg, if_neg]
  · exact fun heq => h.ne_dots (literal_injective heq)
  · rintro (heq | heq)
    · exact h.ne_nil (literal_injective heq)
    · exact h.ne_dot (literal_injective heq)

theorem follow_append {t : Scheme} (ht : some '/' ∉ t) (dir : List Scheme) (name s : Scheme) :
    follow dir name (t ++ s) = follow dir (name ++ t) s := by
  induction t generalizing name with
  | nil => rw [List.nil_append, List.append_nil]
  | cons x t ih =>
    rw [List.mem_cons, not_or] at ht
    rw [List.cons_append, follow, if_neg fun h => ht.1 h.symm, ih ht.2, List.append_assoc]
    rfl

/-- A block closes the name before it and leads down its directories. -/
theorem follow_dirBlock {names : List (List Char)} (h : ∀ name ∈ names, LeadsDown name)
    (dir : List Scheme) (name s : Scheme) :
    follow dir name (dirBlock names ++ s) = follow (enter dir name ++ names.map literal) [] s := by
  induction names generalizing dir name with
  | nil =>
    rw [List.map_nil, List.append_nil]
    exact if_pos rfl
  | cons n names ih =>
    obtain ⟨hn, hnames⟩ := List.forall_mem_cons.mp h
    have hsplit : dirBlock (n :: names) ++ s = some '/' :: (literal n ++ (dirBlock names ++ s)) := by
      simp [dirBlock, downTo, literal]
    rw [hsplit, follow, if_pos rfl, follow_append (not_mem_literal hn.noSlash), List.nil_append,
      ih hnames, enter_leadsDown hn, List.append_assoc, List.map_cons]
    rfl

/-! ## Paths that go on together -/

/-- Names that are the same, or have no hole. -/
def Same (name name' : Scheme) : Prop := name = name' ∨ (none ∉ name ∧ none ∉ name')

/-- Of the first path every name stands across from one of the second. -/
def Along (dir dir' : List Scheme) : Prop :=
  ∃ across, List.Forall₂ Same dir across ∧ across.Sublist dir'

theorem Along.refl (dir : List Scheme) : Along dir dir :=
  ⟨dir, List.forall₂_same.mpr fun _ _ => .inl rfl, List.Sublist.refl dir⟩

theorem Along.append {a a' b b' : List Scheme} (h : Along a a') (h' : Along b b') :
    Along (a ++ b) (a' ++ b') := by
  obtain ⟨l, hl, hsub⟩ := h
  obtain ⟨l', hl', hsub'⟩ := h'
  exact ⟨l ++ l', List.rel_append hl hl', hsub.append hsub'⟩

theorem Along.dropLast {a b : List Scheme} (h : Along a b) : Along a.dropLast b.dropLast := by
  obtain ⟨l, hl, hsub⟩ := h
  refine ⟨l.dropLast, ?_, ?_⟩
  · rw [List.dropLast_eq_take, List.dropLast_eq_take, ← hl.length_eq]
    exact List.forall₂_take _ hl
  · rw [← List.reverse_sublist] at hsub ⊢
    rw [← List.tail_reverse, ← List.tail_reverse]
    exact hsub.tail

theorem Along.enter {a b : List Scheme} (h : Along a b) (name : Scheme) :
    Along (enter a name) (enter b name) := by
  rw [Scheme.enter, Scheme.enter]
  split
  · exact h
  · split
    · exact h.dropLast
    · exact h.append (Along.refl [name])

/-- Directories stand across from as many others. -/
theorem along_literal : ∀ {names names' : List (List Char)}, names.length ≤ names'.length →
    Along (names.map literal) (names'.map literal)
  | [], _, _ => ⟨[], .nil, List.nil_sublist _⟩
  | _ :: _, [], h => absurd h (Nat.not_succ_le_zero _)
  | n :: names, n' :: names', h => by
    obtain ⟨l, hl, hsub⟩ := along_literal (Nat.le_of_succ_le_succ h)
    refine ⟨literal n' :: l, .cons (.inr ?_) hl, hsub.cons_cons _⟩
    exact ⟨none_not_mem_literal n, none_not_mem_literal n'⟩

section Together

variable {names names' : List (List Char)}

theorem Aligned.along (h : ∀ name ∈ names, LeadsDown name) (h' : ∀ name ∈ names', LeadsDown name)
    (hlen : names.length ≤ names'.length) {a b : Scheme}
    (hab : Aligned (dirBlock names) (dirBlock names') a b) : ∀ {dir dir' : List Scheme} (name : Scheme),
      Along dir dir' → Along (follow dir name a) (follow dir' name b) := by
  induction hab with
  | nil => exact fun name hdir => hdir.enter name
  | cons x _ ih =>
    intro dir dir' name hdir
    rw [follow, follow]
    split
    · exact ih [] (hdir.enter name)
    · exact ih _ hdir
  | block _ ih =>
    intro dir dir' name hdir
    rw [follow_dirBlock h, follow_dirBlock h']
    exact ih [] ((hdir.enter name).append (along_literal hlen))

theorem Aligned.along_resolve (h : ∀ name ∈ names, LeadsDown name)
    (h' : ∀ name ∈ names', LeadsDown name) (hlen : names.length ≤ names'.length) {a b : Scheme}
    (hab : Aligned (dirBlock names) (dirBlock names') a b) (cwd : Path.Trail) :
    Along (resolve cwd a) (resolve cwd b) := by
  rw [resolve, resolve, hab.head?_eq (dirBlock_head? names) (dirBlock_head? names')]
  exact hab.along h h' hlen [] (Along.refl _)

end Together

/-! ## Holes filled differently -/

theorem length_fill (hole : List Char) (s : Scheme) :
    (fill hole s).length + s.count none = s.length + s.count none * hole.length := by
  induction s with
  | nil => simp [fill]
  | cons x s ih =>
    cases x with
    | some c =>
      rw [fill, List.length_cons, List.length_cons, List.count_cons_of_ne (by simp)]
      omega
    | none =>
      rw [fill, List.length_append, List.length_cons, List.count_cons_self, Nat.add_mul]
      omega

/-- A scheme with a hole has one filling for a text. -/
theorem hole_of_fill {hole hole' : List Char} {s : Scheme} (hs : none ∈ s)
    (h : fill hole s = fill hole' s) : hole = hole' := by
  have hlen : hole.length = hole'.length := by
    have hcount := length_fill hole s
    have hcount' := length_fill hole' s
    rw [h] at hcount
    refine Nat.eq_of_mul_eq_mul_left (List.count_pos_iff.mpr hs) ?_
    omega
  induction s with
  | nil => cases hs
  | cons x s ih =>
    cases x with
    | some c => exact ih ((List.mem_cons.mp hs).resolve_left nofun) (List.cons.inj h).2
    | none => exact (List.append_inj h hlen).1

/-- Names filled to the same texts. -/
theorem same_of_fill_eq {hole hole' : List Char} (hne : hole ≠ hole') {name name' : Scheme}
    (h : Same name name') (hfill : fill hole name = fill hole' name') :
    name = name' ∧ none ∉ name := by
  have hfree : none ∉ name := by
    rcases h with rfl | h
    · exact fun hmem => hne (hole_of_fill hmem hfill)
    · exact h.1
  refine ⟨?_, hfree⟩
  rcases h with rfl | h
  · rfl
  · obtain ⟨text, rfl⟩ := exists_literal h.1
    obtain ⟨text', rfl⟩ := exists_literal h.2
    rw [fill_literal, fill_literal] at hfill
    rw [hfill]

/-- **Paths that go on together** and are filled differently, to the same names, are the same and have
    no hole. -/
theorem same_of_fill {hole hole' : List Char} (hne : hole ≠ hole') {a b : List Scheme}
    (h : Along a b) (hfill : a.map (fill hole) = b.map (fill hole')) :
    a = b ∧ ∀ name ∈ a, none ∉ name := by
  obtain ⟨l, hl, hsub⟩ := h
  have hlen : l.length = b.length := by
    have := congrArg List.length hfill
    rw [List.length_map, List.length_map, hl.length_eq] at this
    exact this
  cases hsub.eq_of_length hlen
  clear hsub hlen
  induction hl with
  | nil => exact ⟨rfl, by simp⟩
  | cons hname _ ih =>
    rw [List.map_cons, List.map_cons, List.cons.injEq] at hfill
    obtain ⟨rfl, hfree⟩ := same_of_fill_eq hne hname hfill.1
    obtain ⟨rfl, hrest⟩ := ih hfill.2
    exact ⟨rfl, List.forall_mem_cons.mpr ⟨hfree, hrest⟩⟩

/-- **One file for two holes**: aligned schemes lead to one place, each with its own filling, only
    where both lead before they are filled. -/
theorem resolve_eq_of_fill_eq {names names' : List (List Char)}
    (h : ∀ name ∈ names, LeadsDown name) (h' : ∀ name ∈ names', LeadsDown name)
    {hole hole' : List Char} (hne : hole ≠ hole') {a b : Scheme}
    (hab : Aligned (dirBlock names) (dirBlock names') a b) {cwd : Path.Trail}
    (hfill : (resolve cwd a).map (fill hole) = (resolve cwd b).map (fill hole')) :
    resolve cwd a = resolve cwd b ∧ ∀ name ∈ resolve cwd a, none ∉ name := by
  rcases Nat.le_total names.length names'.length with hlen | hlen
  · exact same_of_fill hne (hab.along_resolve h h' hlen cwd) hfill
  · obtain ⟨heq, hfree⟩ :=
      same_of_fill hne.symm (hab.symm.along_resolve h' h hlen cwd) hfill.symm
    rw [← heq]
    exact ⟨rfl, hfree⟩

/-- Paths without holes are filled to what they are. -/
theorem map_fill_congr {hole hole' : List Char} {a : List Scheme} (h : ∀ name ∈ a, none ∉ name) :
    a.map (fill hole) = a.map (fill hole') := by
  refine List.map_congr_left fun name hname => ?_
  obtain ⟨text, rfl⟩ := exists_literal (h name hname)
  rw [fill_literal, fill_literal]

end Scheme
end Lib
end CeforeEmu
