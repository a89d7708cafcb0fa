import Mathlib.Data.Nat.Notation
import CeforeEmu.Lib.Patterns
import CeforeEmu.Lib.Py

/-!
# What a pattern matches

A repetition lists the ways to cut a text in two (`mem_many`). Followed by something that cannot
begin with one of its characters it has one way only (`some_bind`), which is how the fields of a
name are found again.
-/

set_option autoImplicit false

namespace CeforeEmu
namespace Lib
namespace Pattern

variable {α β : Type}

theorem bind_apply (p : Pattern α) (f : α → Pattern β) (text : Text) :
    (p >>= f) text = (p text).flatMap fun m => f m.1 m.2 := rfl

theorem pure_apply (a : α) (text : Text) : (pure a : Pattern α) text = [(a, text)] := rfl

/-- What has one way to match is followed by the rest there. -/
theorem bind_single {p : Pattern α} {text rest : Text} {a : α} (h : p text = [(a, rest)])
    (f : α → Pattern β) : (p >>= f) text = f a rest := by
  rw [bind_apply, h, List.flatMap_singleton]

/-- A pattern all of whose ways are one. -/
theorem matchStart_of_mem {p : Pattern α} {text : Text} {m : α × Text} {P : Prop}
    (h : ∀ m', m' ∈ p text ↔ m' = m ∧ P) (a : α) : matchStart p text = .some a ↔ m.1 = a ∧ P := by
  rw [matchStart]
  cases hp : p text with
  | nil =>
    constructor
    · intro hnone
      cases hnone
    · intro ⟨_, hP⟩
      have hm := (h m).mpr ⟨rfl, hP⟩
      rw [hp] at hm
      cases hm
  | cons first others =>
    obtain ⟨rfl, hP⟩ := (h first).mp (by rw [hp]; exact List.mem_cons_self)
    rw [List.head?_cons, Option.map_some, Option.some_inj]
    exact ⟨fun ha => ⟨ha, hP⟩, fun ha => ha.1⟩

theorem lit_append (s : String) (rest : Text) : lit s (s.toList ++ rest) = [((), rest)] := by
  rw [lit, if_pos (List.isPrefixOf_iff_prefix.mpr (List.prefix_append _ _)), List.drop_left]

/-- A literal is not found where another character stands. -/
theorem lit_bind_of_ne {s : String} {c d : Char} {ds : Text} (hs : s.toList = d :: ds) (hne : c ≠ d)
    (f : Unit → Pattern β) (cs : Text) : (lit s >>= f) (c :: cs) = [] := by
  have hnot : ¬ s.toList.isPrefixOf (c :: cs) = true := by
    rw [hs, List.isPrefixOf_iff_prefix, List.cons_prefix_cons]
    exact fun h => hne h.1.symm
  rw [bind_apply, lit, if_neg hnot, List.flatMap_nil]

theorem mem_lit {s : String} {text rest : Text} (h : ((), rest) ∈ lit s text) :
    text = s.toList ++ rest := by
  rw [lit] at h
  split at h
  · rename_i hpre
    obtain ⟨tail, rfl⟩ := List.isPrefixOf_iff_prefix.mp hpre
    rw [List.drop_left, List.mem_singleton] at h
    cases h
    rfl
  · cases h

section Repetition

variable {ok : Char → Bool}

/-- `[...]*` cuts the text after any number of the characters it begins with. -/
theorem mem_many {text : Text} {m : Text × Text} :
    m ∈ many ok text ↔ m.1 ++ m.2 = text ∧ ∀ c ∈ m.1, ok c = true := by
  induction text generalizing m with
  | nil =>
    rw [many, List.mem_singleton]
    constructor
    · rintro rfl
      exact ⟨rfl, fun c hc => absurd hc List.not_mem_nil⟩
    · rintro ⟨h, -⟩
      obtain ⟨h₁, h₂⟩ := List.append_eq_nil_iff.mp h
      exact Prod.ext h₁ h₂
  | cons c cs ih =>
    rw [many, List.mem_append, List.mem_singleton]
    constructor
    · rintro (h | rfl)
      · split at h
        · rename_i hc
          obtain ⟨m', hm', rfl⟩ := List.mem_map.mp h
          obtain ⟨heq, hall⟩ := ih.mp hm'
          exact ⟨by rw [List.cons_append, heq], List.forall_mem_cons.mpr ⟨hc, hall⟩⟩
        · cases h
      · exact ⟨rfl, fun c hc => absurd hc List.not_mem_nil⟩
    · rintro ⟨heq, hall⟩
      obtain ⟨word, rest⟩ := m
      cases word with
      | nil => exact .inr (Prod.ext rfl heq)
      | cons d word =>
        obtain ⟨rfl, hcs⟩ := List.cons.inj heq
        obtain ⟨hc, hall⟩ := List.forall_mem_cons.mp hall
        rw [if_pos hc]
        exact .inl (List.mem_map.mpr ⟨(word, rest), ih.mpr ⟨hcs, hall⟩, rfl⟩)

theorem some_cons (c : Char) (cs : Text) :
    some ok (c :: cs) = if ok c then (many ok cs).map fun m => (c :: m.1, m.2) else [] := by
  rw [some, bind_apply, one]
  split
  · rw [List.flatMap_singleton, bind_apply, List.map_eq_flatMap]
    rfl
  · rfl

theorem mem_some {text : Text} {m : Text × Text} :
    m ∈ some ok text ↔ m.1 ≠ [] ∧ m.1 ++ m.2 = text ∧ ∀ c ∈ m.1, ok c = true := by
  obtain ⟨word, rest⟩ := m
  cases text with
  | nil =>
    refine ⟨fun h => absurd h List.not_mem_nil, fun ⟨hne, heq, _⟩ => ?_⟩
    exact absurd (List.append_eq_nil_iff.mp heq).1 hne
  | cons c cs =>
    rw [some_cons]
    constructor
    · intro h
      split at h
      · rename_i hc
        obtain ⟨m', hm', heq⟩ := List.mem_map.mp h
        cases heq
        obtain ⟨heq, hall⟩ := mem_many.mp hm'
        exact ⟨List.cons_ne_nil _ _, by rw [List.cons_append, heq],
          List.forall_mem_cons.mpr ⟨hc, hall⟩⟩
      · cases h
    · rintro ⟨hne, heq, hall⟩
      cases word with
      | nil => exact absurd rfl hne
      | cons d word =>
        obtain ⟨rfl, hcs⟩ := List.cons.inj heq
        obtain ⟨hc, hall⟩ := List.forall_mem_cons.mp hall
        rw [if_pos hc]
        exact List.mem_map.mpr ⟨(word, rest), mem_many.mpr ⟨hcs, hall⟩, rfl⟩

/-- After a word that ends where its characters do, a repetition lists the whole word first. -/
theorem many_append {word rest : Text} (hword : ∀ c ∈ word, ok c = true)
    (hrest : ∀ c ∈ rest.head?, ok c = false) :
    ∃ shorter, many ok (word ++ rest) = (word, rest) :: shorter ∧
      ∀ m ∈ shorter, ∃ c cs, m.2 = c :: cs ∧ ok c = true := by
  induction word with
  | nil =>
    refine ⟨[], ?_, fun m hm => absurd hm List.not_mem_nil⟩
    cases rest with
    | nil => rfl
    | cons c cs =>
      rw [List.nil_append, many, hrest c rfl]
      rfl
  | cons c word ih =>
    obtain ⟨hc, hword⟩ := List.forall_mem_cons.mp hword
    obtain ⟨shorter, heq, hshorter⟩ := ih hword
    refine ⟨shorter.map (fun m => (c :: m.1, m.2)) ++ [([], c :: (word ++ rest))], ?_, ?_⟩
    · rw [List.cons_append, many, if_pos hc, heq]
      rfl
    · intro m hm
      rcases List.mem_append.mp hm with hm | hm
      · obtain ⟨m', hm', rfl⟩ := List.mem_map.mp hm
        exact hshorter m' hm'
      · rw [List.mem_singleton.mp hm]
        exact ⟨c, word ++ rest, rfl, hc⟩

/-- **A repetition has one way** to match before something that cannot begin with one of its
    characters. -/
theorem some_bind {word rest : Text} (hne : word ≠ []) (hword : ∀ c ∈ word, ok c = true)
    (hrest : ∀ c ∈ rest.head?, ok c = false) {f : Text → Pattern β}
    (hf : ∀ w c cs, ok c = true → f w (c :: cs) = []) :
    (some ok >>= f) (word ++ rest) = f word rest := by
  cases word with
  | nil => exact absurd rfl hne
  | cons c word =>
    obtain ⟨hc, hword⟩ := List.forall_mem_cons.mp hword
    obtain ⟨shorter, heq, hshorter⟩ := many_append hword hrest
    rw [bind_apply, List.cons_append, some_cons, if_pos hc, heq, List.map_cons, List.flatMap_cons,
      List.append_right_eq_self, List.flatMap_map, List.flatMap_eq_nil_iff]
    intro m hm
    obtain ⟨d, cs, hd, hok⟩ := hshorter m hm
    rw [hd]
    exact hf _ d cs hok

/-- A repetition up to an extension at the end matches in the one way that leaves the extension. -/
theorem mem_some_lit_atEnd {word : Text} {s : String} (hs : s.toList.getLast? ≠ .some '\n')
    (hne : s.toList ≠ []) (f : Text → β) (m : β × Text) :
    m ∈ (do let w ← some ok; lit s; atEnd; return f w : Pattern β) (word ++ s.toList) ↔
      m = (f word, []) ∧ word ≠ [] ∧ ∀ c ∈ word, ok c = true := by
  simp only [bind_apply, List.mem_flatMap, pure_apply, List.mem_singleton]
  constructor
  · rintro ⟨⟨w, rest⟩, hw, ⟨⟨⟩, rest'⟩, hlit, ⟨⟨⟩, rest''⟩, hend, rfl⟩
    obtain ⟨hwne, heq, hall⟩ := mem_some.mp hw
    have hrest : rest = s.toList ++ rest' := mem_lit hlit
    rw [atEnd] at hend
    split at hend
    · rename_i hcases
      rw [List.mem_singleton] at hend
      cases hend
      rw [hrest] at heq
      rcases hcases with rfl | rfl
      · rw [List.append_nil] at heq
        have hword : w = word := List.append_cancel_right heq
        rw [← hword]
        exact ⟨rfl, hwne, hall⟩
      · -- the text does not end in a line feed
        have hlast := congrArg List.getLast? heq
        rw [← List.append_assoc, List.getLast?_concat, List.getLast?_append_of_ne_nil _ hne] at hlast
        exact absurd hlast.symm hs
    · cases hend
  · rintro ⟨rfl, hwne, hall⟩
    refine ⟨(word, s.toList), mem_some.mpr ⟨hwne, rfl, hall⟩, ((), []), ?_, ((), []), ?_, rfl⟩
    · have hlit := lit_append s []
      rw [List.append_nil] at hlit
      rw [hlit]
      exact List.mem_singleton_self _
    · rw [atEnd, if_pos (.inl rfl)]
      exact List.mem_singleton_self _

end Repetition

end Pattern

/-! ## Numerals -/

namespace Text

theorem digit?_of_ascii {c : Char} (h : c.isDigit = true) : digit? c = some (c.toNat - '0'.toNat) := by
  have hrange : 0x30 ≤ c.toNat ∧ c.toNat < 0x30 + 10 := by
    rw [Char.isDigit, Bool.and_eq_true, decide_eq_true_eq, decide_eq_true_eq] at h
    exact ⟨h.1, Nat.lt_succ_of_le h.2⟩
  have hfind : digitZeros.find? (fun first => first ≤ c.toNat ∧ c.toNat < first + 10) = some 0x30 := by
    rw [digitZeros, List.find?_cons_of_pos]
    exact decide_eq_true hrange
  rw [digit?, hfind]
  rfl

theorem digitsFrom_ascii {cs : Text} (hne : cs ≠ []) (h : ∀ c ∈ cs, c.isDigit = true) (acc : ℕ) :
    digitsFrom acc cs = some (Nat.ofDigitChars 10 cs acc) := by
  induction cs generalizing acc with
  | nil => exact absurd rfl hne
  | cons c cs ih =>
    obtain ⟨hc, hcs⟩ := List.forall_mem_cons.mp h
    rw [Nat.ofDigitChars_cons]
    cases cs with
    | nil =>
      simp only [digitsFrom.eq_def, digit?_of_ascii hc, Nat.ofDigitChars_nil, Nat.mul_comm]
    | cons d ds =>
      have hd : d ≠ '_' := by
        rintro rfl
        exact absurd (hcs _ List.mem_cons_self) (by decide)
      rw [digitsFrom.eq_def]
      simp only [digit?_of_ascii hc]
      split
      · rename_i hnone
        cases hnone
      · rename_i hnil
        cases hnil
      · rename_i hword
        exact absurd (List.cons.inj hword).1 hd
      · rename_i hsome _ _
        cases hsome
        rw [Nat.mul_comm]
        exact ih (List.cons_ne_nil _ _) hcs _

/-- A numeral has digits and underscores only. -/
theorem digitsFrom_chars {cs : Text} {acc n : ℕ} (h : digitsFrom acc cs = some n) :
    ∀ c ∈ cs, isDigit c = true ∨ c = '_' := by
  fun_induction digitsFrom acc cs with
  | case1 => cases h
  | case2 acc c cs hdigit => cases h
  | case3 acc c d hdigit =>
    refine List.forall_mem_cons.mpr ⟨?_, fun c hc => absurd hc List.not_mem_nil⟩
    rw [isDigit, hdigit]
    exact .inl rfl
  | case4 acc c d cs hdigit ih =>
    refine List.forall_mem_cons.mpr ⟨?_, List.forall_mem_cons.mpr ⟨.inr rfl, ih h⟩⟩
    rw [isDigit, hdigit]
    exact .inl rfl
  | case5 acc c cs d hne hne' hdigit ih =>
    refine List.forall_mem_cons.mpr ⟨?_, ih h⟩
    rw [isDigit, hdigit]
    exact .inl rfl

/-- **Numerals** are read as what they were written for. -/
theorem digitsFrom_toDigits (n : ℕ) : digitsFrom 0 (Nat.toDigits 10 n) = some n := by
  rw [digitsFrom_ascii Nat.toDigits_ne_nil
    (fun c hc => Nat.isDigit_of_mem_toDigits (by decide) (by decide) hc),
    Nat.ofDigitChars_toDigits (by decide) (by decide)]

end Text

/-! ## Replacement -/

section Replacement

variable {old new : List Char}

/-- What is left of a match that starts at `c`. -/
theorem drop_of_isPrefix {c : Char} {cs : List Char} (hne : old ≠ [])
    (h : old.isPrefixOf (c :: cs) = true) : c :: cs = old ++ cs.drop (old.length - 1) := by
  obtain ⟨tail, heq⟩ := List.isPrefixOf_iff_prefix.mp h
  cases old with
  | nil => exact absurd rfl hne
  | cons d old =>
    rw [List.cons_append, List.cons.injEq] at heq
    obtain ⟨rfl, rfl⟩ := heq
    rw [List.length_cons, Nat.add_sub_cancel, List.drop_left, List.cons_append]

/-- A character of neither text is neither lost nor made. -/
theorem mem_replaceChars {c : Char} (hne : old ≠ []) (hold : c ∉ old) (hnew : c ∉ new)
    (text : List Char) (n : ℕ) : c ∈ replaceChars old new n text ↔ c ∈ text.drop n := by
  induction text generalizing n with
  | nil => cases n <;> simp [replaceChars]
  | cons d ds ih =>
    cases n with
    | succ n => exact ih n
    | zero =>
      rw [replaceChars, List.drop_zero]
      split
      · rename_i hpre
        rw [drop_of_isPrefix hne hpre, List.mem_append, List.mem_append, ih]
        simp only [hold, hnew, false_or]
      · rw [List.mem_cons, List.mem_cons, ih, List.drop_zero]

/-- Only the empty text is replaced by nothing, where something replaces. -/
theorem replaceChars_eq_nil_iff (hnew : new ≠ []) (text : List Char) :
    replaceChars old new 0 text = [] ↔ text = [] := by
  cases text with
  | nil => exact ⟨fun _ => rfl, fun _ => rfl⟩
  | cons c cs =>
    rw [replaceChars]
    split
    · simp only [List.append_eq_nil_iff, hnew, false_and, List.cons_ne_nil]
    · simp only [List.cons_ne_nil]

/-- Deletion leaves nothing of copies of what it deletes, and of nothing else. -/
theorem replaceChars_nil_eq_nil_iff (hne : old ≠ []) (text : List Char) (n : ℕ) :
    replaceChars old [] n text = [] ↔ ∃ k, text.drop n = (List.replicate k old).flatten := by
  induction text generalizing n with
  | nil =>
    rw [List.drop_nil]
    refine ⟨fun _ => ⟨0, rfl⟩, fun _ => ?_⟩
    cases n <;> rfl
  | cons c cs ih =>
    cases n with
    | succ n => exact ih n
    | zero =>
      rw [replaceChars, List.drop_zero]
      split
      · rename_i hpre
        have hdrop := drop_of_isPrefix hne hpre
        rw [List.nil_append, ih]
        constructor
        · rintro ⟨k, hk⟩
          exact ⟨k + 1, by rw [hdrop, hk, List.replicate_succ, List.flatten_cons]⟩
        · rintro ⟨k, hk⟩
          cases k with
          | zero => cases hk
          | succ k =>
            rw [hdrop, List.replicate_succ, List.flatten_cons] at hk
            exact ⟨k, List.append_cancel_left hk⟩
      · rename_i hpre
        constructor
        · intro h
          cases h
        rintro ⟨k, hk⟩
        cases k with
        | zero => cases hk
        | succ k =>
          rw [List.replicate_succ, List.flatten_cons] at hk
          exact absurd (List.isPrefixOf_iff_prefix.mpr ⟨_, hk.symm⟩) hpre

end Replacement

end Lib
end CeforeEmu
