import CeforeEmu.Core.CcninfoParse
import CeforeEmu.Lib.Lines

/-!
# Blocks of a `ccninfo` reply

A blank line closes whatever block is open, so two texts with one between them are read as each by
itself (`parse_ccninfo_blocks`). The blank line is there whatever the first text ends in: after a
carriage return the first of the two line feeds belongs to its end, and the second is still a line
of its own (`splitLines_gap`).

What one line does to a reply, it does to the part that is read after any other reply
(`parseLine_append`); the rest is an induction over the lines.
-/

set_option autoImplicit false

namespace CeforeEmu
namespace Proof
namespace CcninfoBlocks

open CeforeEmu.Lib CeforeEmu.Core CeforeEmu.Core.CcninfoParse

/-! ## The lines -/

theorem consLine_append {c : Char} {lines rest : List Text} (h : lines ≠ []) :
    Text.consLine c (lines ++ rest) = Text.consLine c lines ++ rest := by
  cases lines with
  | nil => exact absurd rfl h
  | cons line lines => rfl

theorem consLine_ne_nil (c : Char) (lines : List Text) : Text.consLine c lines ≠ [] := by
  cases lines with
  | nil => exact List.cons_ne_nil _ _
  | cons line lines => exact List.cons_ne_nil _ _

theorem splitLines_ne_nil {text : Text} (h : text ≠ []) : text.splitLines ≠ [] := by
  induction text using Text.splitLines.induct with
  | case1 => exact absurd rfl h
  | case2 cs ih => exact List.cons_ne_nil _ _
  | case3 c cs hne hbreak ih =>
    rw [Text.splitLines_break hbreak fun rest hc hcs => hne rest hc hcs]
    exact List.cons_ne_nil _ _
  | case4 c cs hne hbreak ih =>
    rw [Text.splitLines_char (Bool.eq_false_iff.mpr hbreak)]
    exact consLine_ne_nil _ _

/-- **Two line feeds make a blank line**, at least one. -/
theorem splitLines_gap (a b : Text) :
    ∃ n, Text.splitLines (a ++ '\n' :: '\n' :: b) =
      a.splitLines ++ List.replicate (n + 1) [] ++ b.splitLines := by
  have hgap : Text.splitLines ('\n' :: '\n' :: b) = [] :: [] :: b.splitLines := rfl
  induction a using Text.splitLines.induct with
  | case1 => exact ⟨1, rfl⟩
  | case2 cs ih =>
    obtain ⟨n, hn⟩ := ih
    exact ⟨n, congrArg (List.cons []) hn⟩
  | case3 c cs hne hbreak ih =>
    obtain ⟨n, hn⟩ := ih
    rw [Text.splitLines_break hbreak fun rest hc hcs => hne rest hc hcs, List.cons_append]
    cases cs with
    | nil =>
      by_cases hcr : c = '\r'
      · -- the carriage return and the first line feed are one end
        subst hcr
        exact ⟨0, rfl⟩
      · rw [List.nil_append, Text.splitLines_break hbreak fun _ hc => absurd hc hcr, hgap]
        exact ⟨1, rfl⟩
    | cons d cs =>
      rw [Text.splitLines_break hbreak, hn]
      · exact ⟨n, rfl⟩
      · intro rest hc hcs
        obtain ⟨rfl, -⟩ := List.cons.inj hcs
        exact hne cs hc rfl
  | case4 c cs hne hbreak ih =>
    obtain ⟨n, hn⟩ := ih
    have hchar : Text.isLineBreak c = false := Bool.eq_false_iff.mpr hbreak
    rw [Text.splitLines_char hchar, List.cons_append, Text.splitLines_char hchar]
    cases cs with
    | nil => exact ⟨0, rfl⟩
    | cons d cs =>
      refine ⟨n, ?_⟩
      rw [hn, List.append_assoc, consLine_append (splitLines_ne_nil (List.cons_ne_nil d cs)),
        List.append_assoc]

/-! ## One line -/

section Lines

variable {τ : Type}

/-- A reply, and another after it. -/
def append (ra rb : CcninfoReply τ) : CcninfoReply τ where
  replyReceived := ra.replyReceived || rb.replyReceived
  responder := if rb.replyReceived then rb.responder else ra.responder
  result := if rb.replyReceived then rb.result else ra.result
  rttMs := if rb.replyReceived then rb.rttMs else ra.rttMs
  route := ra.route ++ rb.route
  cacheLines := ra.cacheLines ++ rb.cacheLines

theorem append_empty (r : CcninfoReply τ) : append r .empty = r := by
  rw [append]
  simp [CcninfoReply.empty]

variable [FloatFacts τ] (float : Text → τ)

/-- What a line adds, it adds after any reply. -/
theorem parseLine_append (mode : Mode) (acc r : CcninfoReply τ) (line : Text) :
    parseLine float ⟨mode, append acc r⟩ line =
      ⟨(parseLine float ⟨mode, r⟩ line).mode, append acc (parseLine float ⟨mode, r⟩ line).reply⟩ := by
  cases mode with
  | route =>
    simp only [parseLine]
    split
    · rfl
    · cases tryParseRouteLine float line with
      | none => rfl
      | some hop => simp only [append, List.append_assoc]
  | cache =>
    simp only [parseLine]
    split
    · rfl
    · simp only [append, List.append_assoc]
  | default =>
    simp only [parseLine]
    split
    · rfl
    · split
      · rfl
      · split
        · rfl
        · cases tryParseResponseLine float line with
          | none => rfl
          | some response => simp only [append, Bool.or_true, if_true]

theorem parseLines_append (acc : CcninfoReply τ) (lines : List Text) (s : State τ) :
    lines.foldl (parseLine float) ⟨s.mode, append acc s.reply⟩ =
      ⟨(lines.foldl (parseLine float) s).mode,
        append acc (lines.foldl (parseLine float) s).reply⟩ := by
  induction lines generalizing s with
  | nil => rfl
  | cons line lines ih =>
    rw [List.foldl_cons, List.foldl_cons, parseLine_append]
    exact ih (parseLine float s line)

/-- A blank line leaves no block open. -/
theorem parseLine_blank (s : State τ) : parseLine float s [] = ⟨.default, s.reply⟩ := by
  obtain ⟨mode, reply⟩ := s
  cases mode <;> rfl

theorem parseLines_blank (s : State τ) (n : ℕ) :
    (List.replicate (n + 1) []).foldl (parseLine float) s = ⟨.default, s.reply⟩ := by
  induction n generalizing s with
  | zero => exact parseLine_blank float s
  | succ n ih => rw [List.replicate_succ, List.foldl_cons, parseLine_blank, ih]

/-- **Blocks are read each by itself.** For every two texts, what is read of both with two line
    feeds between them is the route of the first and then of the second, the lines of the cache
    likewise, a reply if either has one, and the responder, the result and the time of the second
    where it has a reply, and of the first where it has none. -/
theorem parse_ccninfo_blocks (a b : Text) :
    let r := parseCcninfo float (a ++ "\n\n".toList ++ b)
    let ra := parseCcninfo float a
    let rb := parseCcninfo float b
    r.route = ra.route ++ rb.route ∧ r.cacheLines = ra.cacheLines ++ rb.cacheLines ∧
      r.replyReceived = (ra.replyReceived || rb.replyReceived) ∧
      r.responder = (if rb.replyReceived then rb.responder else ra.responder) ∧
      r.result = (if rb.replyReceived then rb.result else ra.result) ∧
      r.rttMs = if rb.replyReceived then rb.rttMs else ra.rttMs := by
  have happend : parseCcninfo float (a ++ "\n\n".toList ++ b) =
      append (parseCcninfo float a) (parseCcninfo float b) := by
    obtain ⟨n, hn⟩ := splitLines_gap a b
    have hlines : Text.splitLines (a ++ "\n\n".toList ++ b) =
        a.splitLines ++ List.replicate (n + 1) [] ++ b.splitLines := by
      rw [List.append_assoc]
      exact hn
    have hrun := parseLines_append float (parseCcninfo float a) b.splitLines ⟨.default, .empty⟩
    rw [append_empty] at hrun
    rw [parseCcninfo, hlines, List.foldl_append, List.foldl_append, parseLines_blank]
    exact congrArg State.reply hrun
  simp only [happend]
  exact ⟨rfl, rfl, rfl, rfl, rfl, rfl⟩

end Lines

end CcninfoBlocks
end Proof
end CeforeEmu
