import Mathlib.Data.List.Induction

/-!
# Runs of a partial step function

A concurrent component is modelled here as a *partial step function*
`step : σ → α → Option σ`: the label `α` says which party moves and what the
environment answered it (a command failed, a wait timed out), and `none` says the
move is not enabled in that state. A **run** is a list of labels; quantifying over
all lists is quantifying over every interleaving and every failure pattern.

The induction rules are packaged once:

* `run_inv` — a predicate every step preserves holds at the end of every run;
* `run_inv_of_meets` — the same when the step only preserves it under a *guard*
  on the state it starts from, for the runs all of whose steps meet the guard;
* `meets_of_not_marked` — the converse: a run that ends without the mark a step outside
  the guard leaves behind has met the guard throughout.

The second is the shape of a statement "this run is safe provided that branch is
never taken": the guard is on the state **before** each step.

What a run has done is not always in its last state. `collect` gathers what its steps say of
themselves, and `run_inv_history` is the invariant rule for a predicate of the steps so far.
-/

set_option autoImplicit false

namespace CeforeEmu
namespace Lib

variable {σ α : Type}

/-- Execute the labels in order; `none` as soon as one of them is not enabled. -/
def run (step : σ → α → Option σ) : σ → List α → Option σ
  | s, [] => some s
  | s, a :: as =>
      match step s a with
      | some s' => run step s' as
      | none => none

/-- Every step of the run starts in a state that meets the guard. -/
def Meets (step : σ → α → Option σ) (guard : σ → α → Prop) : σ → List α → Prop
  | _, [] => True
  | s, a :: as => guard s a ∧ ∀ s', step s a = some s' → Meets step guard s' as

@[simp] theorem run_nil (step : σ → α → Option σ) (s : σ) : run step s [] = some s := rfl

theorem run_cons_of_step {step : σ → α → Option σ} {s s' : σ} {a : α} {as : List α}
    (h : step s a = some s') : run step s (a :: as) = run step s' as := by
  simp only [run, h]

/-- A run through `a :: as` exposes the state between the two. -/
theorem run_cons_inv {step : σ → α → Option σ} {s t : σ} {a : α} {as : List α}
    (h : run step s (a :: as) = some t) : ∃ s', step s a = some s' ∧ run step s' as = some t := by
  cases hs : step s a with
  | none => simp [run, hs] at h
  | some s' => exact ⟨s', rfl, by simpa [run, hs] using h⟩

/-- A run through `as ++ bs` exposes the state between the two. -/
theorem run_append_inv {step : σ → α → Option σ} {t : σ} :
    ∀ {as bs : List α} {s : σ}, run step s (as ++ bs) = some t →
      ∃ s', run step s as = some s' ∧ run step s' bs = some t
  | [], _, s, h => ⟨s, rfl, h⟩
  | a :: as, bs, s, h => by
    obtain ⟨s₁, hs, hr⟩ := run_cons_inv h
    obtain ⟨s', has, hbs⟩ := run_append_inv hr
    exact ⟨s', by rw [run_cons_of_step hs]; exact has, hbs⟩

theorem run_append {step : σ → α → Option σ} {s' : σ} {bs : List α} :
    ∀ {as : List α} {s : σ}, run step s as = some s' →
      run step s (as ++ bs) = run step s' bs
  | [], s, h => by
    simp only [run_nil, Option.some.injEq] at h
    subst h
    rfl
  | a :: as, s, h => by
    obtain ⟨s₁, hs, hr⟩ := run_cons_inv h
    rw [List.cons_append, run_cons_of_step hs]
    exact run_append hr

/-- **The invariant rule.** What every step preserves, every run preserves. -/
theorem run_inv {step : σ → α → Option σ} {I : σ → Prop}
    (hstep : ∀ s a s', I s → step s a = some s' → I s') :
    ∀ {as : List α} {s t : σ}, I s → run step s as = some t → I t
  | [], s, t, hs, h => by
    simp only [run_nil, Option.some.injEq] at h
    exact h ▸ hs
  | a :: as, s, t, hs, h => by
    obtain ⟨s', hs', hr⟩ := run_cons_inv h
    exact run_inv hstep (hstep s a s' hs hs') hr

/-- **The guarded invariant rule.** What every step that meets the guard preserves,
    every run all of whose steps meet the guard preserves. -/
theorem run_inv_of_meets {step : σ → α → Option σ} {guard : σ → α → Prop} {I : σ → Prop}
    (hstep : ∀ s a s', I s → guard s a → step s a = some s' → I s') :
    ∀ {as : List α} {s t : σ}, I s → Meets step guard s as → run step s as = some t → I t
  | [], s, t, hs, _, h => by
    simp only [run_nil, Option.some.injEq] at h
    exact h ▸ hs
  | a :: as, s, t, hs, hm, h => by
    obtain ⟨s', hs', hr⟩ := run_cons_inv h
    exact run_inv_of_meets hstep (hstep s a s' hs hm.1 hs') (hm.2 s' hs') hr

/-- **The converse rule.** A step outside the guard leaves a mark that no later step wipes
    off; a run that ends without the mark met the guard throughout. -/
theorem meets_of_not_marked {step : σ → α → Option σ} {guard : σ → α → Prop}
    {I M : σ → Prop}
    (hinv : ∀ s a s', I s → step s a = some s' → I s')
    (hkeep : ∀ s a s', I s ∧ M s → step s a = some s' → I s' ∧ M s')
    (hmark : ∀ s a s', I s → ¬ guard s a → step s a = some s' → M s') :
    ∀ {as : List α} {s t : σ}, I s → run step s as = some t → ¬ M t →
      Meets step guard s as
  | [], _, _, _, _, _ => trivial
  | a :: as, s, t, hs, h, ht => by
    obtain ⟨s', hs', hr⟩ := run_cons_inv h
    refine ⟨?_, fun s'' hs'' => ?_⟩
    · by_contra hg
      exact ht (run_inv hkeep ⟨hinv s a s' hs hs', hmark s a s' hs hg hs'⟩ hr).2
    · obtain rfl : s' = s'' := Option.some.inj (hs'.symm.trans hs'')
      exact meets_of_not_marked hinv hkeep hmark (hinv s a s' hs hs') hr ht

theorem meets_singleton {step : σ → α → Option σ} {guard : σ → α → Prop} {s : σ} {a : α}
    (h : guard s a) : Meets step guard s [a] := ⟨h, fun _ _ => trivial⟩

/-- A prefix of a guarded run is a guarded run. -/
theorem Meets.of_append {step : σ → α → Option σ} {guard : σ → α → Prop} :
    ∀ {as bs : List α} {s : σ}, Meets step guard s (as ++ bs) → Meets step guard s as
  | [], _, _, _ => trivial
  | _ :: _, _, _, h => ⟨h.1, fun s' hs' => Meets.of_append (h.2 s' hs')⟩

/-! ## Histories -/

section History

variable {β : Type}

/-- What the steps of a run say of themselves, in their order. -/
def collect (step : σ → α → Option σ) (f : σ → α → List β) : σ → List α → List β
  | _, [] => []
  | s, a :: as =>
      f s a ++
        match step s a with
        | some s' => collect step f s' as
        | none => []

theorem collect_append {step : σ → α → Option σ} {f : σ → α → List β} {t : σ} {bs : List α} :
    ∀ {as : List α} {s : σ}, run step s as = some t →
      collect step f s (as ++ bs) = collect step f s as ++ collect step f t bs
  | [], s, h => by
    simp only [run_nil, Option.some.injEq] at h
    subst h
    rfl
  | a :: as, s, h => by
    obtain ⟨s', hs, hr⟩ := run_cons_inv h
    simp only [List.cons_append, collect, hs]
    rw [collect_append hr, List.append_assoc]

theorem collect_snoc {step : σ → α → Option σ} {f : σ → α → List β} {as : List α} {s t : σ}
    (h : run step s as = some t) (a : α) :
    collect step f s (as ++ [a]) = collect step f s as ++ f t a := by
  rw [collect_append h]
  congr 1
  simp only [collect]
  cases step t a <;> simp

/-- **The history rule.** A predicate of the steps so far and of the state, which every step keeps,
    holds of every run. -/
theorem run_inv_history {step : σ → α → Option σ} {s : σ} {I : List α → σ → Prop} (hinit : I [] s)
    (hstep : ∀ as t a t', run step s as = some t → I as t → step t a = some t' → I (as ++ [a]) t')
    {as : List α} {t : σ} (h : run step s as = some t) : I as t := by
  induction as using List.reverseRecOn generalizing t with
  | nil =>
    simp only [run_nil, Option.some.injEq] at h
    exact h ▸ hinit
  | append_singleton as a ih =>
    obtain ⟨u, hu, hlast⟩ := run_append_inv h
    obtain ⟨t', ht', hnil⟩ := run_cons_inv hlast
    simp only [run_nil, Option.some.injEq] at hnil
    subst hnil
    exact hstep as u a t' hu (ih hu) ht'

end History

end Lib
end CeforeEmu
