import Mathlib

/-!
# Draining a queue that refills itself

A priority queue is drained from its smallest item on, and taking an item out may put others in:
a timer that re-arms itself, a job that spawns jobs. `spawn a cs` says that taking `a` out puts
`cs` in. What the loop needs to be orderly is one thing only, that what an item spawns comes
after it:

* `Drained.sorted` — then the items leave in the order of their keys;
* `Drained.conserved` — if every item has a *worth*, what it yields itself together with the
  worth of what it spawns, then what has been yielded and what is still in the queue add up to
  the worth of what was there at the start. This is the bridge from a loop that rewrites its own
  queue to a closed form of what it will do;
* `Drained.exhausted` — if, as long as the queue is worth anything, its first item yields, then
  after as many turns as the start was worth nothing of worth is left. A worth that only counts
  what falls before some horizon is finite even when the queue is refilled forever.

A run that goes on forever is a sequence of such states (`Drain.Run`), and everything that is ever
in the queue comes to be its first item (`Run.reaches`) if what comes before it can only be spawned
so often.
-/

set_option autoImplicit false

namespace CeforeEmu
namespace Lib

variable {α β κ : Type} [LinearOrder κ]

/-- What is queued, and what has left, in order. -/
structure Drain (α : Type) where
  queue : List α
  done : List α

section Turn

variable (key : α → κ) (spawn : α → List α → Prop)

/-- One turn: the smallest item leaves, and what it spawns, all of it later, comes in. -/
inductive Drain.Turn : Drain α → Drain α → Prop where
  | pop {a : α} {rest cs queue done : List α} (hmin : ∀ b ∈ rest, key a < key b)
      (hlater : ∀ c ∈ cs, key a < key c) (hspawn : spawn a cs) (hperm : queue.Perm (rest ++ cs)) :
      Drain.Turn ⟨a :: rest, done⟩ ⟨queue, done ++ [a]⟩

/-- Reached after `n` turns; an empty queue stays as it is. -/
inductive Drained : Drain α → ℕ → Drain α → Prop where
  | start (s : Drain α) : Drained s 0 s
  | turn {s t u : Drain α} {n : ℕ} (h : Drained s n t) (hturn : Drain.Turn key spawn t u) :
      Drained s (n + 1) u
  | idle {s t : Drain α} {n : ℕ} (h : Drained s n t) (hempty : t.queue = []) : Drained s (n + 1) t

end Turn

namespace Drained

variable {key : α → κ} {spawn : α → List α → Prop} {s t : Drain α} {n : ℕ}

/-- **Order.** -/
theorem sorted (hs : s.done = []) (h : Drained key spawn s n t) :
    t.done.Pairwise (fun a b => key a < key b) ∧
      ∀ a ∈ t.done, ∀ b ∈ t.queue, key a < key b := by
  induction h with
  | start =>
    rw [hs]
    exact ⟨List.Pairwise.nil, fun a ha => by cases ha⟩
  | idle _ _ ih => exact ih
  | turn _ hturn ih =>
    obtain ⟨hsorted, hbefore⟩ := ih
    cases hturn with
    | @pop a rest cs queue done hmin hlater _ hperm =>
      refine ⟨?_, ?_⟩
      · refine List.pairwise_append.mpr ⟨hsorted, List.pairwise_singleton _ _, ?_⟩
        intro d hd b hb
        rw [List.mem_singleton.mp hb]
        exact hbefore d hd a List.mem_cons_self
      · intro d hd b hb
        -- whatever left no later than `a` is before what `a` is before
        have hab : key a < key b := by
          rcases List.mem_append.mp (hperm.mem_iff.mp hb) with hb | hb
          · exact hmin b hb
          · exact hlater b hb
        rcases List.mem_append.mp hd with hd | hd
        · exact (hbefore d hd a List.mem_cons_self).trans hab
        · rw [List.mem_singleton.mp hd]
          exact hab

variable {out worth : α → List β}

/-- **Conservation.** What has been yielded, and what the queue is still worth. -/
theorem conserved
    (hworth : ∀ {a cs}, spawn a cs → (worth a).Perm (out a ++ cs.flatMap worth))
    (hs : s.done = []) (h : Drained key spawn s n t) :
    (t.done.flatMap out ++ t.queue.flatMap worth).Perm (s.queue.flatMap worth) := by
  induction h with
  | start =>
    rw [hs]
    exact List.Perm.refl _
  | idle _ _ ih => exact ih
  | turn _ hturn ih =>
    refine List.Perm.trans ?_ ih
    cases hturn with
    | @pop a rest cs queue done _ _ hspawn hperm =>
      simp only [List.flatMap_append, List.flatMap_cons, List.flatMap_nil, List.append_nil,
        List.append_assoc]
      refine List.Perm.append_left _ ?_
      -- the queue is worth what stayed and what came in; the latter, with what `a` yields, is
      -- what `a` was worth
      have hqueue : (queue.flatMap worth).Perm (cs.flatMap worth ++ rest.flatMap worth) := by
        refine (hperm.flatMap_right worth).trans ?_
        rw [List.flatMap_append]
        exact List.perm_append_comm
      refine (hqueue.append_left _).trans ?_
      rw [← List.append_assoc]
      exact (hworth hspawn).symm.append_right _

/-- The queue is worth at least one less after every turn. -/
theorem worth_le
    (hworth : ∀ {a cs}, spawn a cs → (worth a).Perm (out a ++ cs.flatMap worth))
    (hyield : ∀ {a : α} {rest : List α}, (∀ b ∈ rest, key a < key b) →
      (a :: rest).flatMap worth ≠ [] → out a ≠ [])
    (hs : s.done = []) (h : Drained key spawn s n t) :
    (t.queue.flatMap worth).length ≤ (s.queue.flatMap worth).length - n := by
  induction h with
  | start => exact Nat.le_refl _
  | idle _ hempty _ =>
    rw [hempty]
    exact Nat.zero_le _
  | turn hrun hturn ih =>
    have hbefore := (conserved hworth hs hrun).length_eq
    have hafter := (conserved hworth hs (hrun.turn hturn)).length_eq
    cases hturn with
    | @pop a rest cs queue done hmin _ hspawn hperm =>
      simp only [List.length_append, List.flatMap_append, List.flatMap_cons, List.flatMap_nil,
        List.append_nil] at hbefore hafter ih ⊢
      by_cases hzero : (a :: rest).flatMap worth = []
      · -- nothing of worth was left, and nothing comes in
        have h₀ : (worth a).length + (rest.flatMap worth).length = 0 := by
          have := congrArg List.length hzero
          simpa [List.flatMap_cons] using this
        omega
      · have hout : 0 < (out a).length := List.length_pos_iff.mpr (hyield hmin hzero)
        omega

/-- **Exhaustion.** -/
theorem exhausted
    (hworth : ∀ {a cs}, spawn a cs → (worth a).Perm (out a ++ cs.flatMap worth))
    (hyield : ∀ {a : α} {rest : List α}, (∀ b ∈ rest, key a < key b) →
      (a :: rest).flatMap worth ≠ [] → out a ≠ [])
    (hs : s.done = []) (h : Drained key spawn s n t)
    (hn : (s.queue.flatMap worth).length ≤ n) :
    t.queue.flatMap worth = [] ∧ (t.done.flatMap out).Perm (s.queue.flatMap worth) := by
  have hle := worth_le hworth hyield hs h
  have hnil : t.queue.flatMap worth = [] := List.length_eq_zero_iff.mp (by omega)
  refine ⟨hnil, ?_⟩
  have hall := conserved hworth hs h
  rw [hnil, List.append_nil] at hall
  exact hall

end Drained

/-! ## Endless runs -/

section Runs

variable {key : α → κ} {spawn : α → List α → Prop} {r : ℕ → Drain α}

variable (key spawn) in
/-- One turn after the other; an empty queue stays as it is. -/
def Drain.Run (r : ℕ → Drain α) : Prop :=
  ∀ n, Drain.Turn key spawn (r n) (r (n + 1)) ∨ r (n + 1) = r n ∧ (r n).queue = []

namespace Drain.Run

theorem drained (hr : Run key spawn r) : ∀ n, Drained key spawn (r 0) n (r n)
  | 0 => .start _
  | n + 1 => by
    rcases hr n with hturn | ⟨hsame, hempty⟩
    · exact (drained hr n).turn hturn
    · rw [hsame]
      exact (drained hr n).idle hempty

/-- The first item leaves, and what it spawns comes in. -/
theorem pop (hr : Run key spawn r) {n : ℕ} {a : α} {rest : List α} (h : (r n).queue = a :: rest) :
    ∃ cs, spawn a cs ∧ (∀ b ∈ rest, key a < key b) ∧ (∀ c ∈ cs, key a < key c) ∧
      (r (n + 1)).queue.Perm (rest ++ cs) ∧ (r (n + 1)).done = (r n).done ++ [a] := by
  rcases hr n with hturn | ⟨-, hempty⟩
  · generalize r n = t at h hturn
    generalize r (n + 1) = u at hturn
    cases hturn with
    | @pop b rest' cs queue done hmin hlater hspawn hperm =>
      cases h
      exact ⟨cs, hspawn, hmin, hlater, hperm, rfl⟩
  · rw [hempty] at h
    cases h

/-- **Everything has its turn**, if an item that comes before it weighs more than what it spawns. -/
theorem reaches (hr : Run key spawn r) (weight : α → ℕ) {a : α}
    (hweight : ∀ {b cs}, spawn b cs → key b < key a → (∀ c ∈ cs, key b < key c) →
      (cs.map weight).sum < weight b) {n : ℕ} (ha : a ∈ (r n).queue) :
    ∃ m rest, n ≤ m ∧ (r m).queue = a :: rest := by
  -- on the weight of the queue, which gets less as long as others come first
  induction hw : ((r n).queue.map weight).sum using Nat.strong_induction_on generalizing n with
  | _ w ih =>
    cases hqueue : (r n).queue with
    | nil =>
      rw [hqueue] at ha
      cases ha
    | cons b rest =>
      obtain ⟨cs, hspawn, hmin, hlater, hperm, -⟩ := hr.pop hqueue
      rw [hqueue] at ha
      rcases List.mem_cons.mp ha with rfl | ha
      · exact ⟨n, rest, le_refl n, hqueue⟩
      · have hless := hweight hspawn (hmin a ha) hlater
        have hsum := (hperm.map weight).sum_nat
        rw [hqueue, List.map_cons, List.sum_cons] at hw
        rw [List.map_append, List.sum_append] at hsum
        have ha' : a ∈ (r (n + 1)).queue := hperm.mem_iff.mpr (List.mem_append_left _ ha)
        obtain ⟨m, rest', hm, hreach⟩ := ih _ (by omega) ha' rfl
        exact ⟨m, rest', by omega, hreach⟩

end Drain.Run

end Runs

end Lib
end CeforeEmu
