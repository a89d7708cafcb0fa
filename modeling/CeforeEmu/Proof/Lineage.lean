import CeforeEmu.Proof.EventAcceptance

/-!
# Where fired events come from

Whatever the loop of `_run` hands to a handler is an event of the list it was given, or has been
derived from one: the event a repeating event restores to, or the same event with what is left of
its repeat count. So a property of events that these two ways of deriving keep (`Hereditary`)
holds of everything a run ever fires if it holds of the list (`fires_hereditary`), in whatever
order the turns come and however the handlers end.

`Hereditary.ofAccepted` is how such a property is usually come by: one that does not look at the
repeat form, and is true of an event and of what it restores to.
-/

set_option autoImplicit false

namespace CeforeEmu
namespace Proof

open CeforeEmu.Lib CeforeEmu.Core CeforeEmu.Runtime

variable {τ : Type} [DecidableEq τ]

/-- Kept by the two ways the scheduler derives an event from another. -/
structure Hereditary (I : Event τ → Prop) : Prop where
  restored : ∀ {e r}, I e → buildRestoreEvent e = .ok (some r) → I r
  repeated : ∀ {e : Event τ} {rep rep' : Mapping τ}, I e → e.get? "repeat" = some (.dict rep) →
    (∀ {key : String}, key ≠ "count" → rep'.get? key = rep.get? key) →
    I (e.set "repeat" (.dict rep'))

/-- True of an event and of what it restores to. -/
def WithRestore (P : Event τ → Prop) (e : Event τ) : Prop :=
  P e ∧ ∀ r, buildRestoreEvent e = .ok (some r) → P r

/-- A property that does not look at the repeat form. -/
theorem Hereditary.ofAccepted {P : Event τ → Prop}
    (hP : ∀ {e : Event τ} (v : Value τ), P e → P (e.set "repeat" v)) : Hereditary (WithRestore P) where
  restored he hr := by
    refine ⟨he.2 _ hr, fun r' hr' => ?_⟩
    rw [restoreEvent_restore hr] at hr'
    cases hr'
  repeated he hrep hsame := by
    refine ⟨hP _ he.1, fun r hr => he.2 r ?_⟩
    rwa [restore_set_repeat hrep (hsame (by decide)) (hsame (by decide))] at hr

/-! ## One turn -/

/-- Every event on the heap is as `I` says. -/
def Holds (I : Event τ → Prop) (s : Scheduler τ) : Prop := ∀ a ∈ s.heap, I a.event

section Steps

variable {I : Event τ → Prop} {s s' : Scheduler τ}

/-- The entry of a handler call is on the heap. -/
theorem Holds.call (hs : Holds I s) {turn : Turn τ} {c : HandlerCall τ}
    (h : s.call turn = some c) : I c.entry.event := by
  simp only [Scheduler.call] at h
  split at h
  · cases h
  · split at h
    · rename_i entry heap verdict hheap
      split at h
      · split at h
        · cases h
          exact hs entry (hheap ▸ List.mem_cons_self)
        · cases h
      · cases h
    · cases h

variable [LT τ] [DecidableLT τ]

theorem mem_heappush {x a : Entry τ} {heap : List (Entry τ)} (h : a ∈ heappush x heap) :
    a = x ∨ a ∈ heap := by
  induction heap with
  | nil => exact .inl (List.mem_singleton.mp h)
  | cons b heap ih =>
    rw [heappush] at h
    split at h
    · exact List.mem_cons.mp h
    · rcases List.mem_cons.mp h with rfl | h
      · exact .inr List.mem_cons_self
      · exact (ih h).imp_right (List.mem_cons_of_mem _)

theorem Holds.pushEvent (hs : Holds I s) {t : τ} {e : Event τ} (he : I e)
    (h : s.pushEvent t e = .ok s') : Holds I s' := by
  rw [Scheduler.pushEvent] at h
  split at h
  · cases h
  · cases h
    intro a ha
    rcases mem_heappush ha with rfl | ha
    · exact he
    · exact hs a ha

variable [IntCast τ]

theorem pushAll_holds : ∀ {events : List (Event τ)} {s s' : Scheduler τ},
    Holds I s → (∀ e ∈ events, I e) → s.pushAll events = .ok s' → Holds I s'
  | [], s, s', hs, _, h => by
    cases h
    exact hs
  | e :: events, s, s', hs, hevents, h => by
    rw [Scheduler.pushAll] at h
    split at h
    · cases h
    · split at h
      · cases h
      · split at h
        · cases h
        · rename_i s₁ hs₁
          refine pushAll_holds (hs.pushEvent (hevents e List.mem_cons_self) hs₁) ?_ h
          exact fun e' he' => hevents e' (List.mem_cons_of_mem _ he')

variable [Add τ] (hI : Hereditary I)
include hI

theorem Holds.pushRestore (hs : Holds I s) {e : Event τ} (he : I e) {rep : Mapping τ} {t : τ}
    (h : s.pushRestore e rep t = .ok s') : Holds I s' := by
  rw [Scheduler.pushRestore] at h
  split at h
  · cases h
    exact hs
  · cases h
    exact hs
  · split at h
    · cases h
    · split at h
      · split at h
        · cases h
        · cases h
          exact hs
        · rename_i r hr
          exact hs.pushEvent (hI.restored he hr) h
      · cases h
        exact hs

variable [Sub τ] [LE τ] [DecidableLE τ]

theorem Holds.pushNext (hs : Holds I s) {e : Event τ} (he : I e) {rep : Mapping τ} {t : τ}
    (hrep : e.get? "repeat" = some (.dict rep)) (h : s.pushNext e rep t = .ok s') :
    Holds I s' := by
  have hsame : I (e.set "repeat" (.dict rep)) := hI.repeated he hrep fun _ => rfl
  rw [Scheduler.pushNext] at h
  split at h
  · cases h
  · split at h
    · split at h
      · exact hs.pushEvent hsame h
      · exact hs.pushEvent hsame h
      · split at h
        · cases h
        · cases h
          exact hs
        · refine hs.pushEvent (hI.repeated he hrep fun {key} hkey => ?_) h
          exact Dict.get?_set_ne rep _ (Key.str_ne hkey)
    · cases h
      exact hs

theorem Holds.handleRepeat (hs : Holds I s) {e : Event τ} (he : I e) {t : τ}
    (h : s.handleRepeat e t = .ok s') : Holds I s' := by
  rw [Scheduler.handleRepeat] at h
  split at h
  · cases h
    exact hs
  · rename_i v hv
    split at h
    · split at h
      · rename_i rep
        split at h
        · cases h
        · rename_i s₁ hs₁
          exact (hs.pushRestore hI he hs₁).pushNext hI he hv h
      · cases h
    · cases h
      exact hs

/-- **One turn.** -/
theorem Holds.step (hs : Holds I s) {turn : Turn τ} (h : s.step turn = .ok s') : Holds I s' := by
  rw [Scheduler.step] at h
  split at h
  · cases h
    exact hs
  · split at h
    · cases h
      exact hs
    · rename_i entry heap hheap
      have htail : ∀ a ∈ heap, I a.event := fun a ha =>
        hs a (hheap ▸ List.mem_cons_of_mem _ ha)
      split at h
      · cases h
        exact hs
      · split at h
        · split at h
          · rename_i verdict eventType _ _
            have hentry : I entry.event := hs entry (hheap ▸ List.mem_cons_self)
            have hfired : Holds I
                { s with heap := heap, fired := s.fired ++ [entry] } := htail
            have hrecorded : ∀ v : Verdict τ, Holds I
                (({ s with heap := heap, fired := s.fired ++ [entry] } :
                  Scheduler τ).recordEventOutcome eventType entry v) := by
              intro v
              rw [Scheduler.recordEventOutcome]
              split
              · exact hfired
              · exact htail
            split at h
            · cases h
              exact htail
            · exact (hrecorded _).handleRepeat hI hentry h
          · cases h
            exact htail
        · cases h
          exact htail

/-! ## Runs -/

/-- **The first turns.** -/
theorem Holds.loop (hs : Holds I s) (turns : ℕ → Turn τ) :
    ∀ (n : ℕ) {t : Scheduler τ}, Scheduler.loop turns n s = .ok t → Holds I t := by
  intro n
  induction n with
  | zero =>
    intro t h
    cases h
    exact hs
  | succ n ih =>
    intro t h
    rw [Scheduler.loop] at h
    split at h
    · cases h
    · rename_i u hu
      exact (ih hu).step hI h

theorem Holds.calls (hs : Holds I s) (turns : ℕ → Turn τ) :
    ∀ (n : ℕ), ∀ c ∈ Scheduler.calls turns n s, I c.entry.event := by
  intro n
  induction n with
  | zero =>
    intro c hc
    cases hc
  | succ n ih =>
    intro c hc
    rw [Scheduler.calls] at hc
    rcases List.mem_append.mp hc with hc | hc
    · exact ih c hc
    · split at hc
      · rename_i u hu
        exact (hs.loop hI turns n hu).call (Option.mem_toList.mp hc)
      · cases hc

/-- **What a run fires has what its list has**, if that is hereditary. -/
theorem fires_hereditary {events : List (Event τ)}
    (hevents : ∀ e ∈ events, I e) {hasSink : Bool} {s : Scheduler τ}
    (h : Scheduler.new events hasSink = .ok s) (turns : ℕ → Turn τ) (n : ℕ) :
    ∀ c ∈ Scheduler.calls turns n s, I c.entry.event := by
  refine Holds.calls hI (pushAll_holds (fun a ha => ?_) hevents h) turns n
  cases ha

end Steps

end Proof
end CeforeEmu
