import CeforeEmu.Lib.Matches

/-!
# Texts with holes

A text that names something not yet known is a list of characters and holes (`Scheme`), and what
fills the holes is put in at the end (`fill`). Replacing a word can then be done to the scheme instead
of to its texts (`fill_replaceAll`), as long as what fills the holes neither begins the word nor is
found in it at its end (`Foreign`). So one replacement answers for all the texts a scheme stands for.
-/

set_option autoImplicit false

namespace CeforeEmu
namespace Lib
namespace Scheme

/-! ## Replacement over any alphabet -/

section Replacement

variable {α : Type} [DecidableEq α]

/-- `replaceChars`, of any symbols. -/
def replaceAll (old new : List α) : ℕ → List α → List α
  | _, [] => []
  | 0, c :: cs =>
      if old.isPrefixOf (c :: cs) then new ++ replaceAll old new (old.length - 1) cs
      else c :: replaceAll old new 0 cs
  | n + 1, _ :: cs => replaceAll old new n cs

theorem replaceChars_eq (old new : List Char) (text : List Char) :
    ∀ n, replaceChars old new n text = replaceAll old new n text := by
  induction text with
  | nil =>
    intro n
    cases n <;> rfl
  | cons c cs ih =>
    intro n
    cases n with
    | zero => rw [replaceChars, replaceAll, ih, ih]
    | succ n => exact ih n

variable {old new : List α}

theorem replaceAll_drop (text : List α) (n : ℕ) :
    replaceAll old new n text = replaceAll old new 0 (text.drop n) := by
  induction text generalizing n with
  | nil =>
    rw [List.drop_nil]
    cases n <;> rfl
  | cons c cs ih =>
    cases n with
    | zero => rfl
    | succ n => exact ih n

theorem replaceAll_found (hne : old ≠ []) (rest : List α) :
    replaceAll old new 0 (old ++ rest) = new ++ replaceAll old new 0 rest := by
  obtain ⟨c, cs, rfl⟩ := List.exists_cons_of_ne_nil hne
  have hpre : (c :: cs).isPrefixOf (c :: cs ++ rest) = true :=
    List.isPrefixOf_iff_prefix.mpr (List.prefix_append _ _)
  rw [List.cons_append] at hpre ⊢
  rw [replaceAll, if_pos hpre, replaceAll_drop, List.length_cons, Nat.add_sub_cancel,
    List.drop_left]

theorem replaceAll_kept {c : α} {cs : List α} (h : ¬ old <+: c :: cs) :
    replaceAll old new 0 (c :: cs) = c :: replaceAll old new 0 cs := by
  rw [replaceAll, if_neg (mt List.isPrefixOf_iff_prefix.mp h)]

/-- The replacement goes through a text occurrence by occurrence. -/
theorem replaceAll_induct (hne : old ≠ []) {P : List α → Prop} (nil : P [])
    (found : ∀ rest, P rest → P (old ++ rest))
    (kept : ∀ c cs, ¬ old <+: c :: cs → P cs → P (c :: cs)) (text : List α) : P text := by
  induction hn : text.length using Nat.strong_induction_on generalizing text with
  | _ n ih =>
    cases text with
    | nil => exact nil
    | cons c cs =>
      by_cases hpre : old <+: c :: cs
      · obtain ⟨rest, hrest⟩ := hpre
        rw [← hrest]
        refine found rest (ih rest.length ?_ rest rfl)
        have hlen := congrArg List.length hrest
        have hpos := List.length_pos_of_ne_nil hne
        rw [List.length_append] at hlen
        omega
      · exact kept c cs hpre (ih cs.length (by rw [← hn, List.length_cons]; omega) cs rfl)

omit [DecidableEq α] in
/-- A word is not found across a symbol that is not in it. -/
theorem prefix_append_cons_iff {c : α} (hc : c ∉ old) {a b : List α} :
    old <+: a ++ c :: b ↔ old <+: a := by
  refine ⟨fun h => ?_, fun h => h.trans (List.prefix_append _ _)⟩
  rcases List.prefix_or_prefix_of_prefix h (List.prefix_append a (c :: b)) with hpre | ⟨rest, hrest⟩
  · exact hpre
  · cases rest with
    | nil =>
      rw [List.append_nil] at hrest
      exact hrest ▸ List.prefix_rfl
    | cons d rest =>
      rw [← hrest, List.prefix_append_right_inj, List.cons_prefix_cons] at h
      rw [← hrest, ← h.1] at hc
      exact absurd (List.mem_append_right a List.mem_cons_self) hc

/-- Between such symbols the pieces of a text are replaced each for itself. -/
theorem replaceAll_append_cons (hne : old ≠ []) {c : α} (hc : c ∉ old) (a b : List α) :
    replaceAll old new 0 (a ++ c :: b)
      = replaceAll old new 0 a ++ c :: replaceAll old new 0 b := by
  induction a using replaceAll_induct hne with
  | nil =>
    refine replaceAll_kept fun h => ?_
    exact hne (List.prefix_nil.mp ((prefix_append_cons_iff hc (a := [])).mp h))
  | found rest ih =>
    rw [List.append_assoc, replaceAll_found hne, replaceAll_found hne, ih, List.append_assoc]
  | kept d ds hkept ih =>
    have hkept' : ¬ old <+: d :: (ds ++ c :: b) := by
      rw [← List.cons_append, prefix_append_cons_iff hc]
      exact hkept
    rw [List.cons_append, replaceAll_kept hkept', replaceAll_kept hkept, ih, List.cons_append]

/-- A block in which no occurrence begins stays as it is. -/
theorem replaceAll_append_of_not_mem {c : α} {word : List α} {a : List α} (ha : c ∉ a)
    (b : List α) :
    replaceAll (c :: word) new 0 (a ++ b) = a ++ replaceAll (c :: word) new 0 b := by
  induction a with
  | nil => rfl
  | cons d ds ih =>
    rw [List.mem_cons, not_or] at ha
    rw [List.cons_append, replaceAll_kept, ih ha.2, List.cons_append]
    rw [List.cons_prefix_cons]
    exact fun h => ha.1 h.1

theorem replaceAll_of_not_infix {text : List α} (h : ¬ old <:+: text) :
    replaceAll old new 0 text = text := by
  induction text with
  | nil => rfl
  | cons c cs ih =>
    rw [replaceAll_kept fun hpre => h hpre.isInfix, ih fun hin => h (List.infix_cons hin)]

/-- A text is as it was, or has what was put in. -/
theorem replaceAll_eq_self_or (hne : old ≠ []) (new text : List α) :
    replaceAll old new 0 text = text ∨ ∀ c ∈ new, c ∈ replaceAll old new 0 text := by
  induction text using replaceAll_induct hne with
  | nil => exact .inl rfl
  | found rest _ =>
    rw [replaceAll_found hne]
    exact .inr fun c hc => List.mem_append_left _ hc
  | kept c cs hkept ih =>
    rw [replaceAll_kept hkept]
    rcases ih with ih | ih
    · exact .inl (by rw [ih])
    · exact .inr fun d hd => List.mem_cons_of_mem _ (ih d hd)

end Replacement
end Scheme

/-! ## Filling the holes -/

/-- A text with holes, `none`. -/
abbrev Scheme := List (Option Char)

namespace Scheme

def literal (text : List Char) : Scheme := text.map some

/-- The text of a scheme. -/
def fill (hole : List Char) : Scheme → List Char
  | [] => []
  | some c :: s => c :: fill hole s
  | none :: s => hole ++ fill hole s

section Filling

variable {hole : List Char}

theorem fill_append (s t : Scheme) : fill hole (s ++ t) = fill hole s ++ fill hole t := by
  induction s with
  | nil => rfl
  | cons x s ih =>
    cases x with
    | some c => exact congrArg (c :: ·) ih
    | none => exact (congrArg (hole ++ ·) ih).trans (List.append_assoc _ _ _).symm

theorem fill_literal (text : List Char) : fill hole (literal text) = text := by
  induction text with
  | nil => rfl
  | cons c cs ih => exact congrArg (c :: ·) ih

theorem not_mem_literal {x : Char} {text : List Char} (h : x ∉ text) : some x ∉ literal text :=
  fun hmem => h (List.mem_map_of_injective (Option.some_injective _) |>.mp hmem)

theorem none_not_mem_literal (text : List Char) : none ∉ literal text := by
  intro hmem
  obtain ⟨c, -, hc⟩ := List.mem_map.mp hmem
  cases hc

theorem literal_injective : Function.Injective literal :=
  List.map_injective_iff.mpr (Option.some_injective _)

theorem literal_prefix_iff {word text : List Char} :
    literal word <+: literal text ↔ word <+: text := by
  constructor
  · intro h
    obtain ⟨front, hfront, heq⟩ := List.prefix_map_iff.mp h
    rw [literal_injective heq]
    exact hfront
  · exact fun h => h.map some

theorem not_literal_infix {word text : List Char} (h : ¬ word <:+: text) :
    ¬ literal word <:+: literal text := by
  intro hin
  obtain ⟨middle, hmiddle, heq⟩ := List.infix_map_iff.mp hin
  rw [← literal_injective heq] at hmiddle
  exact h hmiddle

/-- In a scheme without holes texts are replaced. -/
theorem replaceAll_literal {word : List Char} (hne : word ≠ []) (new text : List Char) :
    replaceAll (literal word) (literal new) 0 (literal text)
      = literal (replaceAll word new 0 text) := by
  have hne' : literal word ≠ [] := fun h => hne (List.map_eq_nil_iff.mp h)
  induction text using replaceAll_induct hne with
  | nil => rfl
  | found rest ih =>
    have hsplit : ∀ a b : List Char, literal (a ++ b) = literal a ++ literal b :=
      fun _ _ => List.map_append
    rw [hsplit, replaceAll_found hne', replaceAll_found hne, ih, hsplit]
  | kept c cs hkept ih =>
    have hcons : ∀ cs : List Char, literal (c :: cs) = some c :: literal cs := fun _ => rfl
    have hkept' : ¬ literal word <+: some c :: literal cs := by
      rw [← hcons, literal_prefix_iff]
      exact hkept
    rw [hcons, replaceAll_kept hkept', replaceAll_kept hkept, ih, hcons]

/-- A scheme without holes is a text. -/
theorem exists_literal {s : Scheme} (h : none ∉ s) : ∃ text, s = literal text := by
  induction s with
  | nil => exact ⟨[], rfl⟩
  | cons x s ih =>
    rw [List.mem_cons, not_or] at h
    obtain ⟨text, rfl⟩ := ih h.2
    obtain ⟨c, rfl⟩ := Option.ne_none_iff_exists'.mp fun hx => h.1 hx.symm
    exact ⟨c :: text, rfl⟩

theorem mem_fill {c : Char} {s : Scheme} (h : c ∈ fill hole s) : some c ∈ s ∨ c ∈ hole := by
  induction s with
  | nil => cases h
  | cons x s ih =>
    cases x with
    | some d =>
      rcases List.mem_cons.mp h with rfl | h
      · exact .inl List.mem_cons_self
      · exact (ih h).imp_left (List.mem_cons_of_mem _)
    | none =>
      rcases List.mem_append.mp h with h | h
      · exact .inr h
      · exact (ih h).imp_left (List.mem_cons_of_mem _)

/-- What fills the holes neither begins a word nor goes on with one. -/
structure Foreign (hole word : List Char) : Prop where
  begins : ∃ c rest, hole = c :: rest ∧ c ∉ word
  opens : ∃ c rest, word = c :: rest ∧ c ∉ hole

theorem Foreign.ne_nil {word : List Char} (h : Foreign hole word) : word ≠ [] := by
  obtain ⟨c, rest, rfl, -⟩ := h.opens
  exact List.cons_ne_nil _ _

/-- A word is read in the text of a scheme where it is read in the scheme. -/
theorem prefix_fill {word : List Char} (hbegins : ∃ c rest, hole = c :: rest ∧ c ∉ word) :
    ∀ s : Scheme, word <+: fill hole s ↔ literal word <+: s := by
  obtain ⟨c, rest, hhole, hc⟩ := hbegins
  induction word with
  | nil => exact fun s => iff_of_true List.nil_prefix List.nil_prefix
  | cons d word ih =>
    rw [List.mem_cons, not_or] at hc
    intro s
    cases s with
    | nil => exact iff_of_false (by simp [fill]) (by simp [literal])
    | cons x s =>
      cases x with
      | some e =>
        rw [fill, literal, List.map_cons, List.cons_prefix_cons, List.cons_prefix_cons,
          Option.some.injEq, ih hc.2, literal]
      | none =>
        rw [fill, hhole, List.cons_append, literal, List.map_cons, List.cons_prefix_cons,
          List.cons_prefix_cons]
        exact iff_of_false (fun h => hc.1 h.1.symm) fun h => by cases h.1

/-- **Replacing in a scheme** is replacing in each of its texts. -/
theorem fill_replaceAll {word : List Char} (h : Foreign hole word) (new s : Scheme) :
    fill hole (replaceAll (literal word) new 0 s)
      = replaceChars word (fill hole new) 0 (fill hole s) := by
  have hne : literal word ≠ [] := by
    rw [literal, Ne, List.map_eq_nil_iff]
    exact h.ne_nil
  rw [replaceChars_eq]
  induction s using replaceAll_induct hne with
  | nil => rfl
  | found rest ih =>
    rw [replaceAll_found hne, fill_append, fill_append, fill_literal, replaceAll_found h.ne_nil, ih]
  | kept x s hkept ih =>
    rw [replaceAll_kept hkept]
    cases x with
    | some c =>
      have hkept' : ¬ word <+: c :: fill hole s := by
        rw [← prefix_fill h.begins] at hkept
        exact hkept
      rw [fill, fill, replaceAll_kept hkept', ih]
    | none =>
      obtain ⟨c, rest, rfl, hc⟩ := h.opens
      rw [fill, fill, replaceAll_append_of_not_mem hc, ih]

end Filling

end Scheme
end Lib
end CeforeEmu
