import CeforeEmu.Proof.HostGraph
import CeforeEmu.Proof.MeshTree
import CeforeEmu.Proof.MeshWiring

/-!
# What a random mesh is

Whatever the generator draws, `MeshTopo.build` comes to an end, and what it builds is connected
and keeps to its limits. After the tree every phase only adds hosts to switches; as the second
ends only when every degree is spent, each host has joined one, and as each of its switches costs
a degree there are not many of them.
-/

set_option autoImplicit false

namespace CeforeEmu
namespace Proof

open CeforeEmu.Lib CeforeEmu.Core CeforeEmu.Runtime

/-! ## The leftover degrees -/

/-- What fills a switch: some of the hosts that have a degree left, each once, as many as there is
    room for, and someone when there is anyone. -/
theorem fillSwitch_spec : ∀ {order : List ℕ}, order.Nodup →
    ∀ (capLeft : ℤ) (degrees : ℕ → ℤ) (hs : List ℕ), 0 ≤ capLeft → (∀ h ∈ order, h ∉ hs) →
      ∃ added : List ℕ, added.Sublist order ∧ (∀ h ∈ added, 0 < degrees h) ∧
        (added.length : ℤ) ≤ capLeft ∧
        fillSwitch order capLeft degrees hs
          = (fun h => degrees h - if h ∈ added then 1 else 0, hs ++ added) ∧
        (0 < capLeft → ∀ h ∈ order, 0 < degrees h → added ≠ []) := by
  intro order hnd
  induction order with
  | nil =>
    intro capLeft degrees hs hcap _
    refine ⟨[], List.Sublist.refl _, fun h hh => ?_, by simpa using hcap, by simp [fillSwitch],
      fun _ h hh => ?_⟩
    · cases hh
    · cases hh
  | cons host rest ih =>
    intro capLeft degrees hs hcap hfresh
    obtain ⟨hhost, hrest⟩ := List.nodup_cons.mp hnd
    have hhs : host ∉ hs := hfresh host List.mem_cons_self
    have hset : setAdd hs host = hs ++ [host] := by rw [setAdd, if_neg hhs]
    rw [fillSwitch]
    by_cases htake : 0 < degrees host ∧ 0 < capLeft
    · rw [if_pos htake]
      by_cases hfull : capLeft - 1 = 0
      · rw [if_pos hfull]
        refine ⟨[host], List.singleton_sublist.mpr List.mem_cons_self, ?_, ?_, ?_, ?_⟩
        · intro h hh
          cases List.mem_singleton.mp hh
          exact htake.1
        · simp only [List.length_singleton, Nat.cast_one]
          omega
        · rw [hset]
          congr 1
          funext h
          simp only [spend, Function.update_apply, List.mem_singleton]
          by_cases hh : h = host <;> simp [hh]
        · intro _ _ _ _
          exact List.cons_ne_nil _ _
      · rw [if_neg hfull, hset]
        obtain ⟨added, hsub, hpos, hlen, heq, -⟩ := ih hrest (capLeft - 1) (spend degrees host)
          (hs ++ [host]) (by omega) (by
            intro h hh hmem
            rcases List.mem_append.mp hmem with hmem | hmem
            · exact hfresh h (List.mem_cons_of_mem _ hh) hmem
            · cases List.mem_singleton.mp hmem
              exact hhost hh)
        have hnot : host ∉ added := fun hmem => hhost (hsub.subset hmem)
        refine ⟨host :: added, hsub.cons_cons host, ?_, ?_, ?_, ?_⟩
        · intro h hh
          rcases List.mem_cons.mp hh with rfl | hh
          · exact htake.1
          · have := hpos h hh
            have hne : h ≠ host := fun heq => hnot (heq ▸ hh)
            rwa [spend, Function.update_of_ne hne] at this
        · rw [List.length_cons]
          push_cast
          omega
        · rw [heq, List.append_assoc, List.singleton_append]
          congr 1
          funext h
          simp only [spend, Function.update_apply, List.mem_cons]
          by_cases hh : h = host
          · subst hh
            simp [hnot]
          · simp [hh]
        · intro _ _ _ _
          exact List.cons_ne_nil _ _
    · rw [if_neg htake]
      by_cases hfull : capLeft = 0
      · rw [if_pos hfull]
        refine ⟨[], List.nil_sublist _, fun h hh => ?_, by simpa using hcap, by simp, ?_⟩
        · cases hh
        · intro hpos
          omega
      · rw [if_neg hfull]
        obtain ⟨added, hsub, hpos, hlen, heq, hsome⟩ := ih hrest capLeft degrees hs hcap
          fun h hh => hfresh h (List.mem_cons_of_mem _ hh)
        refine ⟨added, hsub.cons host, hpos, hlen, heq, fun hcap' h hh hdeg => ?_⟩
        rcases List.mem_cons.mp hh with rfl | hh
        · exact absurd ⟨hdeg, hcap'⟩ htake
        · exact hsome hcap' h hh hdeg

section Fill

variable {σ τ : Type} {p : MeshParams}

theorem one_le_capacity (hhosts : 1 ≤ p.hosts) : 1 ≤ p.switchCapacity := by
  rw [MeshParams.switchCapacity]
  split <;> omega

section Turn

variable {m : Mesh} {added : List ℕ} (hnd : added.Nodup) (hrange : ∀ h ∈ added, h < p.hosts)
  (hpos : ∀ h ∈ added, 0 < m.degrees h)
include hnd hrange hpos

theorem fillTurn_budgeted (hm : Budgeted p m) (hne : added ≠ []) (hlen : (added.length : ℤ) ≤ p.switchCapacity) :
    Budgeted p ⟨fun h => m.degrees h - if h ∈ added then 1 else 0, m.switchHosts ++ [added]⟩ := by
  refine hm.step (fun h => h ∈ added) (fun hs hhs => ?_) (Extends.append _ _) (fun h => rfl)
    (fun h => (switchDegree_append _ _ h).le) fun h hh => ?_
  · rcases List.mem_append.mp hhs with hhs | hhs
    · exact hm.fits hs hhs
    · cases List.mem_singleton.mp hhs
      exact ⟨hne, hnd, hlen, hrange⟩
  · exact ⟨hpos h hh, added, List.mem_append_right _ List.mem_cons_self, hh⟩

omit hnd in
theorem fillTurn_sum_lt (hne : added ≠ []) :
    ∑ h ∈ Finset.range p.hosts, (m.degrees h - if h ∈ added then 1 else 0).toNat
      < ∑ h ∈ Finset.range p.hosts, (m.degrees h).toNat := by
  obtain ⟨h₀, hh₀⟩ := List.exists_mem_of_ne_nil _ hne
  refine Finset.sum_lt_sum (fun h _ => ?_) ⟨h₀, Finset.mem_range.mpr (hrange h₀ hh₀), ?_⟩
  · split <;> omega
  · have := hpos h₀ hh₀
    rw [if_pos hh₀]
    omega

omit hnd hpos in
theorem fillTurn_left_lt (hne : added ≠ []) :
    degreesLeft p ⟨fun h => m.degrees h - if h ∈ added then 1 else 0, m.switchHosts ++ [added]⟩
      < degreesLeft p m := by
  obtain ⟨h₀, hh₀⟩ := List.exists_mem_of_ne_nil _ hne
  refine Finset.sum_lt_sum (fun h _ => ?_) ⟨h₀, Finset.mem_range.mpr (hrange h₀ hh₀), ?_⟩
  · simp only
    split <;> omega
  · simp only [if_pos hh₀]
    omega

end Turn

/-- The loop ends with every degree spent, within as many turns as there were degrees. A switch
    costs a degree, and whoever pays for one is on it. -/
theorem fillLoop_spec (rng : Rng σ τ) (hhosts : 1 ≤ p.hosts) :
    ∀ (fuel : ℕ) (todo : List ℕ) (m : Mesh) (s : σ), Budgeted p m → todo.Nodup →
      (∀ h, h ∈ todo ↔ h < p.hosts ∧ 0 < m.degrees h) →
      ∑ h ∈ Finset.range p.hosts, (m.degrees h).toNat ≤ fuel →
      ∃ m' s', fillLoop rng p.switchCapacity fuel todo m s = .ok (m', s') ∧ Budgeted p m' ∧
        (∃ made, m'.switchHosts = m.switchHosts ++ made) ∧ (∀ h < p.hosts, ¬ 0 < m'.degrees h) ∧
        (m'.switchHosts.length : ℤ) + degreesLeft p m'
          ≤ m.switchHosts.length + degreesLeft p m ∧ ∀ h, holdings m' h = holdings m h := by
  intro fuel
  induction fuel with
  | zero =>
    intro todo m s hm _ htodo hfuel
    have hzero : ∀ h < p.hosts, (m.degrees h).toNat = 0 := by
      intro h hh
      have := Finset.sum_eq_zero_iff.mp (Nat.le_zero.mp hfuel)
      exact this h (Finset.mem_range.mpr hh)
    cases todo with
    | nil =>
      refine ⟨m, s, by rw [fillLoop], hm, ⟨[], by simp⟩, fun h hh hpos => ?_, le_rfl, fun h => rfl⟩
      have := hzero h hh
      omega
    | cons host rest =>
      obtain ⟨hh, hpos⟩ := (htodo host).mp List.mem_cons_self
      have := hzero host hh
      omega
  | succ fuel ih =>
    intro todo m s hm hnd htodo hfuel
    cases todo with
    | nil =>
      refine ⟨m, s, by rw [fillLoop], hm, ⟨[], by simp⟩, fun h hh hpos => ?_, le_rfl, fun h => rfl⟩
      have := (htodo h).mpr ⟨hh, hpos⟩
      cases this
    | cons host rest =>
      have hperm := rng.shuffle_perm (host :: rest) s
      cases hshuffle : rng.shuffle (host :: rest) s with
      | mk order s₁ =>
        rw [hshuffle] at hperm
        have hcap := one_le_capacity hhosts
        obtain ⟨added, hsub, hpos, hlen, heq, hsome⟩ := fillSwitch_spec (hperm.nodup_iff.mpr hnd)
          p.switchCapacity m.degrees [] (by omega) fun h _ hh => by cases hh
        have hrange : ∀ h ∈ added, h < p.hosts := fun h hh =>
          ((htodo h).mp (hperm.mem_iff.mp (hsub.subset hh))).1
        have hadded : added.Nodup := hsub.nodup (hperm.nodup_iff.mpr hnd)
        have hne : added ≠ [] := hsome (by omega) host (hperm.mem_iff.mpr List.mem_cons_self)
          ((htodo host).mp List.mem_cons_self).2
        have hsum := fillTurn_sum_lt hrange hpos hne
        -- who has a degree left after the turn had one before it
        have htodo' : ∀ h, h ∈ order.filter (fun h => 0 < m.degrees h - if h ∈ added then 1 else 0) ↔
            h < p.hosts ∧ 0 < m.degrees h - if h ∈ added then 1 else 0 := by
          intro h
          rw [List.mem_filter, hperm.mem_iff, htodo, decide_eq_true_eq]
          constructor
          · rintro ⟨⟨hh, -⟩, hleft⟩
            exact ⟨hh, hleft⟩
          · rintro ⟨hh, hleft⟩
            refine ⟨⟨hh, ?_⟩, hleft⟩
            split at hleft <;> omega
        obtain ⟨m', s', hrun, hm', ⟨made, hmade⟩, hspent, hcount, hholdings⟩ := ih _ _ s₁
          (fillTurn_budgeted hadded hrange hpos hm hne hlen) ((hperm.nodup_iff.mpr hnd).filter _) htodo'
          (Nat.lt_succ_iff.mp (hsum.trans_le hfuel))
        refine ⟨m', s', ?_, hm', ⟨added :: made, by simpa using hmade⟩, hspent, ?_, fun h => ?_⟩
        · simp only [fillLoop, hshuffle, heq, List.nil_append]
          exact hrun
        · have hleft := fillTurn_left_lt (m := m) hrange hne
          rw [List.length_append, List.length_singleton] at hcount
          push_cast at hcount
          omega
        · rw [hholdings, holdings, holdings, switchDegree_append]
          push_cast
          omega

theorem fillPhase_spec (rng : Rng σ τ) (hhosts : 1 ≤ p.hosts) {m : Mesh} (hm : Budgeted p m)
    (s : σ) : ∃ m' s', fillPhase rng p m s = .ok (m', s') ∧ Budgeted p m' ∧
      (∃ made, m'.switchHosts = m.switchHosts ++ made) ∧ (∀ h < p.hosts, ¬ 0 < m'.degrees h) ∧
      (m'.switchHosts.length : ℤ) + degreesLeft p m' ≤ m.switchHosts.length + degreesLeft p m ∧
      ∀ h, holdings m' h = holdings m h := by
  refine fillLoop_spec rng hhosts _ _ m s hm (List.nodup_range.filter _) (fun h => ?_) le_rfl
  rw [List.mem_filter, List.mem_range, decide_eq_true_eq]

end Fill

/-! ## The extra switches -/

section Extra

variable {σ τ : Type}

/-- What is popped comes from the heap, and no more of it is used than there is room for. -/
theorem popHosts_spec : ∀ (heap : List (HeapEntry τ)) (capLeft : ℤ) (used : List ℕ)
    (popped : List (HeapEntry τ × Bool)), 0 ≤ capLeft →
      ∃ taken, (popHosts heap capLeft used popped).2 = popped ++ taken ∧
        ((taken.countP (·.2) : ℕ) : ℤ) ≤ capLeft ∧ (∀ e ∈ taken, e.1 ∈ heap) ∧
        ∀ e ∈ (popHosts heap capLeft used popped).1, e ∈ heap := by
  intro heap
  induction heap with
  | nil =>
    intro capLeft used popped hcap
    refine ⟨[], by simp [popHosts], by simpa using hcap, fun e he => ?_, fun e he => he⟩
    cases he
  | cons e heap ih =>
    intro capLeft used popped hcap
    rw [popHosts]
    by_cases hroom : 0 < capLeft
    · rw [if_pos hroom]
      by_cases hused : e.host ∈ used
      · rw [if_pos hused]
        obtain ⟨taken, htaken, hcount, hfrom, hleft⟩ := ih capLeft used (popped ++ [(e, false)]) hcap
        refine ⟨(e, false) :: taken, by rw [htaken]; simp, by simpa using hcount, fun e' he' => ?_,
          fun e' he' => List.mem_cons_of_mem _ (hleft e' he')⟩
        rcases List.mem_cons.mp he' with rfl | he'
        · exact List.mem_cons_self
        · exact List.mem_cons_of_mem _ (hfrom e' he')
      · rw [if_neg hused]
        obtain ⟨taken, htaken, hcount, hfrom, hleft⟩ := ih (capLeft - 1) (used ++ [e.host])
          (popped ++ [(e, true)]) (by omega)
        refine ⟨(e, true) :: taken, by rw [htaken]; simp, ?_, fun e' he' => ?_,
          fun e' he' => List.mem_cons_of_mem _ (hleft e' he')⟩
        · rw [List.countP_cons_of_pos rfl]
          push_cast
          omega
        · rcases List.mem_cons.mp he' with rfl | he'
          · exact List.mem_cons_self
          · exact List.mem_cons_of_mem _ (hfrom e' he')
    · rw [if_neg hroom]
      refine ⟨[], by simp, by simpa using hcap, fun e he => ?_, fun e he => he⟩
      cases he

/-- The first that is popped is used. -/
theorem popHosts_uses (e : HeapEntry τ) (heap : List (HeapEntry τ)) {capLeft : ℤ} (hcap : 0 < capLeft) :
    (e, true) ∈ (popHosts (e :: heap) capLeft [] []).2 := by
  obtain ⟨taken, htaken, -⟩ := popHosts_spec heap (capLeft - 1) [e.host] [(e, true)] (by omega)
  rw [popHosts, if_pos hcap, if_neg List.not_mem_nil, List.nil_append, List.nil_append, htaken]
  exact List.mem_append_left _ (List.mem_singleton.mpr rfl)

/-- Whoever is used joins the switch. -/
theorem pushHosts_joins [LinearOrder τ] (rng : Rng σ τ) :
    ∀ (popped : List (HeapEntry τ × Bool)) (heap : List (HeapEntry τ)) (hs : List ℕ) (s : σ),
      hs ⊆ (pushHosts rng popped heap hs s).2.1 ∧
        ∀ e, (e, true) ∈ popped → e.host ∈ (pushHosts rng popped heap hs s).2.1 := by
  intro popped
  induction popped with
  | nil =>
    intro heap hs s
    exact ⟨fun h hh => hh, fun e he => by cases he⟩
  | cons item popped ih =>
    intro heap hs s
    obtain ⟨e₀, used⟩ := item
    rw [pushHosts]
    obtain ⟨hkeep, hjoin⟩ := ih (heap.orderedInsert HeapEntry.le
      ⟨if used then e₀.deg + 1 else e₀.deg, (rng.random s).1, e₀.host⟩)
      (if used then setAdd hs e₀.host else hs) (rng.random s).2
    refine ⟨fun h hh => hkeep ?_, fun e he => ?_⟩
    · cases used with
      | true => exact mem_setAdd.mpr (.inl hh)
      | false => exact hh
    · rcases List.mem_cons.mp he with heq | he
      · obtain ⟨rfl, rfl⟩ := Prod.mk.inj heq
        exact hkeep (mem_setAdd.mpr (.inr rfl))
      · exact hjoin e he

theorem pushHosts_spec [LinearOrder τ] (rng : Rng σ τ) {n : ℕ} :
    ∀ (popped : List (HeapEntry τ × Bool)) (heap : List (HeapEntry τ)) (hs : List ℕ) (s : σ),
      (∀ e ∈ popped, e.1.host < n) → (∀ e ∈ heap, e.host < n) → hs.Nodup → (∀ h ∈ hs, h < n) →
      (∀ e ∈ (pushHosts rng popped heap hs s).1, e.host < n) ∧
        (pushHosts rng popped heap hs s).2.1.Nodup ∧
        (∀ h ∈ (pushHosts rng popped heap hs s).2.1, h < n) ∧
        (pushHosts rng popped heap hs s).2.1.length ≤ hs.length + popped.countP (·.2) := by
  intro popped
  induction popped with
  | nil =>
    intro heap hs s _ hheap hnd hhs
    exact ⟨hheap, hnd, hhs, by simp [pushHosts]⟩
  | cons item popped ih =>
    intro heap hs s hpopped hheap hnd hhs
    obtain ⟨e, used⟩ := item
    have he : e.host < n := hpopped _ List.mem_cons_self
    have hpopped' := fun e' he' => hpopped e' (List.mem_cons_of_mem _ he')
    rw [pushHosts]
    have hheap' : ∀ e' ∈ heap.orderedInsert HeapEntry.le
        ⟨if used then e.deg + 1 else e.deg, (rng.random s).1, e.host⟩, e'.host < n := by
      intro e' he'
      rcases List.mem_orderedInsert _ |>.mp he' with rfl | he'
      · exact he
      · exact hheap e' he'
    cases used with
    | false =>
      obtain ⟨h1, h2, h3, h4⟩ := ih _ hs (rng.random s).2 hpopped' hheap' hnd hhs
      refine ⟨h1, h2, h3, h4.trans ?_⟩
      simp
    | true =>
      have hhs' : ∀ h ∈ setAdd hs e.host, h < n := by
        intro h hh
        rcases mem_setAdd.mp hh with hh | rfl
        · exact hhs h hh
        · exact he
      obtain ⟨h1, h2, h3, h4⟩ := ih _ (setAdd hs e.host) (rng.random s).2 hpopped' hheap'
        (setAdd_nodup hnd _) hhs'
      refine ⟨h1, h2, h3, h4.trans ?_⟩
      have := length_setAdd_le hs e.host
      rw [List.countP_cons_of_pos rfl]
      omega

variable {p : MeshParams}

/-- The loop appends switches that fit, at most as many as it is asked for. -/
theorem extraSwitches_spec [LinearOrder τ] (rng : Rng σ τ)
    (hcap : 0 < min p.switchCapacity (p.hosts : ℤ)) :
    ∀ (n : ℕ) (heap : List (HeapEntry τ)) (switches : List (List ℕ)) (s : σ),
      (∀ e ∈ heap, e.host < p.hosts) →
      ∃ extra, (extraSwitches rng (min p.switchCapacity p.hosts) n heap switches s).1
          = switches ++ extra ∧ extra.length ≤ n ∧ ∀ hs ∈ extra, Fits p hs := by
  intro n
  induction n with
  | zero =>
    intro heap switches s _
    refine ⟨[], by simp [extraSwitches], le_rfl, fun hs hhs => ?_⟩
    cases hhs
  | succ n ih =>
    intro heap switches s hheap
    cases heap with
    | nil =>
      refine ⟨[], by simp [extraSwitches], Nat.zero_le _, fun hs hhs => ?_⟩
      cases hhs
    | cons e heap =>
      obtain ⟨taken, htaken, hcount, hfrom, hleft⟩ := popHosts_spec (e :: heap)
        (min p.switchCapacity p.hosts) [] [] hcap.le
      have huses := popHosts_uses e heap hcap
      rw [List.nil_append] at htaken
      rw [htaken] at huses
      obtain ⟨h1, h2, h3, h4⟩ := pushHosts_spec rng (n := p.hosts) taken
        (popHosts (e :: heap) (min p.switchCapacity p.hosts) [] []).1 [] s
        (fun e' he' => hheap _ (hfrom e' he')) (fun e' he' => hheap _ (hleft e' he'))
        List.nodup_nil fun h hh => by cases hh
      rw [extraSwitches]
      simp only [htaken]
      obtain ⟨extra, hextra, hlen, hfits⟩ := ih _ (switches ++ [_]) _ h1
      refine ⟨_ :: extra, by rw [hextra]; simp; rfl, Nat.succ_le_succ hlen, fun hs hhs => ?_⟩
      rcases List.mem_cons.mp hhs with rfl | hhs
      · refine ⟨List.ne_nil_of_mem ((pushHosts_joins rng taken _ [] s).2 e huses), h2, ?_, h3⟩
        rw [List.length_nil, Nat.zero_add] at h4
        exact (Int.ofNat_le.mpr h4).trans (hcount.trans (min_le_left _ _))
      · exact hfits hs hhs

/-- Everyone goes back on the heap, so it never runs dry. -/
theorem popHosts_length : ∀ (heap : List (HeapEntry τ)) (capLeft : ℤ) (used : List ℕ)
    (popped : List (HeapEntry τ × Bool)), (popHosts heap capLeft used popped).1.length
      + (popHosts heap capLeft used popped).2.length = heap.length + popped.length := by
  intro heap
  induction heap with
  | nil =>
    intro capLeft used popped
    rfl
  | cons e heap ih =>
    intro capLeft used popped
    rw [popHosts]
    split
    · split
      all_goals
        rw [ih, List.length_append, List.length_singleton, List.length_cons]
        omega
    · rfl

theorem pushHosts_length [LinearOrder τ] (rng : Rng σ τ) :
    ∀ (popped : List (HeapEntry τ × Bool)) (heap : List (HeapEntry τ)) (hs : List ℕ) (s : σ),
      (pushHosts rng popped heap hs s).1.length = heap.length + popped.length := by
  intro popped
  induction popped with
  | nil =>
    intro heap hs s
    rfl
  | cons item popped ih =>
    intro heap hs s
    obtain ⟨e, used⟩ := item
    rw [pushHosts, ih, List.orderedInsert_length, List.length_cons]
    omega

/-- As many switches are appended as the loop is asked for. -/
theorem extraSwitches_length [LinearOrder τ] (rng : Rng σ τ) (capLeft : ℤ) :
    ∀ (n : ℕ) (heap : List (HeapEntry τ)) (switches : List (List ℕ)) (s : σ), heap ≠ [] →
      (extraSwitches rng capLeft n heap switches s).1.length = switches.length + n := by
  intro n
  induction n with
  | zero =>
    intro heap switches s _
    rfl
  | succ n ih =>
    intro heap switches s hne
    cases heap with
    | nil => exact absurd rfl hne
    | cons e heap =>
      rw [extraSwitches]
      have hlen := popHosts_length (e :: heap) capLeft [] []
      have hpush := pushHosts_length rng (popHosts (e :: heap) capLeft [] []).2
        (popHosts (e :: heap) capLeft [] []).1 [] s
      rw [hlen, List.length_cons, List.length_nil] at hpush
      rw [ih _ _ _ (List.ne_nil_of_length_pos (by omega)), List.length_append, List.length_singleton]
      omega

theorem drawHeap_length (rng : Rng σ τ) (current : ℕ → ℕ) : ∀ (hosts : List ℕ) (s : σ),
    (drawHeap rng current hosts s).1.length = hosts.length
  | [], _ => rfl
  | host :: rest, s => by
    rw [drawHeap, List.length_cons, List.length_cons, drawHeap_length rng current rest]

/-- With `switch_use_all` the limit is reached. -/
theorem extraPhase_length [LinearOrder τ] (rng : Rng σ τ) (hhosts : 1 ≤ p.hosts)
    (huse : p.switchUseAll = true) {switches : List (List ℕ)} (s : σ) (hne : p.swhichNum ≠ 0)
    (hlimit : (switches.length : ℤ) ≤ p.swhichNum) :
    ((extraPhase rng p switches s).1.length : ℤ) = p.swhichNum := by
  rw [extraPhase]
  split
  · have hheap : (drawHeap rng (currentDeg switches) (List.range p.hosts) s).1.insertionSort
        HeapEntry.le ≠ [] := by
      refine List.ne_nil_of_length_pos ?_
      rw [List.length_insertionSort, drawHeap_length, List.length_range]
      omega
    simp only
    rw [extraSwitches_length rng _ _ _ _ _ hheap]
    push_cast
    omega
  · rename_i hnone
    simp only [huse, hne, true_and, ne_eq, not_false_eq_true] at hnone
    simp only
    omega

theorem drawHeap_host (rng : Rng σ τ) (current : ℕ → ℕ) : ∀ (hosts : List ℕ) (s : σ),
    ∀ e ∈ (drawHeap rng current hosts s).1, e.host ∈ hosts
  | [], _, e, he => by simp [drawHeap] at he
  | host :: rest, s, e, he => by
    rw [drawHeap] at he
    rcases List.mem_cons.mp he with rfl | he
    · exact List.mem_cons_self
    · exact List.mem_cons_of_mem _ (drawHeap_host rng current rest _ e he)

/-- Without `switch_use_all` nothing is added; with it, switches that fit, up to the limit. -/
theorem extraPhase_spec [LinearOrder τ] (rng : Rng σ τ) (hhosts : 1 ≤ p.hosts)
    (switches : List (List ℕ)) (s : σ)
    (hlimit : p.swhichNum ≠ 0 → (switches.length : ℤ) ≤ p.swhichNum) :
    ∃ extra, (extraPhase rng p switches s).1 = switches ++ extra ∧ (∀ hs ∈ extra, Fits p hs) ∧
      (p.switchUseAll = false → extra = []) ∧
      (p.swhichNum ≠ 0 → ((switches ++ extra).length : ℤ) ≤ p.swhichNum) := by
  rw [extraPhase]
  split
  · rename_i huse
    have hcap : 0 < min p.switchCapacity (p.hosts : ℤ) := by
      have := one_le_capacity hhosts
      omega
    obtain ⟨extra, hextra, hlen, hfits⟩ := extraSwitches_spec rng hcap
      (max 0 (p.swhichNum - switches.length)).toNat
      ((drawHeap rng (currentDeg switches) (List.range p.hosts) s).1.insertionSort HeapEntry.le)
      switches (drawHeap rng (currentDeg switches) (List.range p.hosts) s).2 (by
        intro e he
        rw [(List.perm_insertionSort _ _).mem_iff] at he
        exact List.mem_range.mp (drawHeap_host rng _ _ _ e he))
    refine ⟨extra, hextra, hfits, fun hoff => ?_, fun hne => ?_⟩
    · rw [hoff] at huse
      cases huse.1
    · have := hlimit hne
      rw [List.length_append]
      push_cast
      omega
  · refine ⟨[], by simp, fun hs hhs => ?_, fun _ => rfl, fun hne => by simpa using hlimit hne⟩
    cases hhs

end Extra

/-! ## The whole build -/

section Build

variable {σ τ : Type} {p : MeshParams}

theorem check_ok (hnode : p.nodePerSwitch ≠ 1) (hmin : 1 ≤ p.hostDegreeMin)
    (hmax : p.hostDegreeMin ≤ p.hostDegreeMax) : p.check = .ok () := by
  rw [MeshParams.check, if_neg (by omega), if_neg hnode]

theorem checkLimit_ok {n : ℕ} (h : checkLimit p n = .ok ()) :
    p.swhichNum ≠ 0 → (n : ℤ) ≤ p.swhichNum := by
  intro hne
  by_contra hover
  rw [checkLimit, if_pos ⟨hne, by omega⟩] at h
  cases h

theorem drawDegrees_spec (rng : Rng σ τ) (hmax : p.hostDegreeMin ≤ p.hostDegreeMax) :
    ∀ (n : ℕ) (s : σ), (drawDegrees rng p n s).1.length = n ∧
      ∀ d ∈ (drawDegrees rng p n s).1, p.hostDegreeMin ≤ d ∧ d ≤ p.hostDegreeMax
  | 0, s => ⟨rfl, fun d hd => by cases hd⟩
  | n + 1, s => by
    obtain ⟨hlen, hmem⟩ := drawDegrees_spec rng hmax n
      (rng.randint p.hostDegreeMin p.hostDegreeMax s).2
    rw [drawDegrees]
    refine ⟨congrArg Nat.succ hlen, fun d hd => ?_⟩
    rcases List.mem_cons.mp hd with rfl | hd
    · exact rng.randint_mem s hmax
    · exact hmem d hd

/-- What a build that returns has gone through: the switches before the extra ones, and all. -/
theorem build_phases [LinearOrder τ] {rng : Rng σ τ} {s : σ} {r : Wiring × σ}
    (h : MeshTopo.build rng p s = .ok r) : p.check = .ok () ∧ ∃ m s₁ m' s₂,
      treePhase rng p (drawDegrees rng p p.hosts s).1 (drawDegrees rng p p.hosts s).2
        = .ok (m, s₁) ∧
      fillPhase rng p m s₁ = .ok (m', s₂) ∧ checkLimit p m'.switchHosts.length = .ok () ∧
      r.1 = wireSwitches 0 .empty (extraPhase rng p m'.switchHosts s₂).1 := by
  rw [MeshTopo.build] at h
  split at h
  · cases h
  · rename_i hcheck
    simp only at h
    split at h
    · cases h
    · rename_i m s₁ htree
      split at h
      · cases h
      · rename_i m' s₂ hfill
        split at h
        · cases h
        · rename_i hlimit
          cases h
          exact ⟨hcheck, m, s₁, m', s₂, htree, hfill, hlimit, rfl⟩

/-- What is wanted of a mesh, of its switches. -/
structure SoundSwitches (p : MeshParams) (switches : List (List ℕ)) : Prop where
  fits : ∀ hs ∈ switches, Fits p hs
  attached : ∀ h < p.hosts, ∃ hs ∈ switches, h ∈ hs
  joined : ∃ root, ∀ h < p.hosts, Joined switches root h
  limit : p.swhichNum ≠ 0 → (switches.length : ℤ) ≤ p.swhichNum
  degree : p.switchUseAll = false → ∀ h < p.hosts, (switchDegree switches h : ℤ) ≤ p.hostDegreeMax
  /-- There are degrees enough for a tree, and switches enough. -/
  enough : 2 * ((p.hosts : ℤ) - 1) ≤ p.hosts * p.hostDegreeMax
  reach : (p.hosts : ℤ) - 1 ≤ switches.length * max 1 (p.switchCapacity - 2)
  /-- There are no more switches than degrees to pay for them. -/
  few : p.switchUseAll = false → (switches.length : ℤ) ≤ p.hosts * (p.hostDegreeMax - 1) + 1
  /-- With `switch_use_all` the limit is reached. -/
  all : p.switchUseAll = true → p.swhichNum ≠ 0 → (switches.length : ℤ) = p.swhichNum

theorem build_ends [LinearOrder τ] (rng : Rng σ τ) (hhosts : 1 ≤ p.hosts)
    (hnode : p.nodePerSwitch ≠ 1) (hmin : 1 ≤ p.hostDegreeMin)
    (hmax : p.hostDegreeMin ≤ p.hostDegreeMax) (s : σ) :
    Ends (fun fault => ∃ err, fault = .raised err)
      (fun r => ∃ switches, r.1 = wireSwitches 0 .empty switches ∧ SoundSwitches p switches)
      (MeshTopo.build rng p s) := by
  have hcheck := check_ok hnode hmin hmax
  obtain ⟨hlen, hdraw⟩ := drawDegrees_spec rng hmax p.hosts s
  rw [MeshTopo.build]
  simp only [hcheck]
  have htree := treePhase_ends rng hnode hlen (fun d hd => hmin.trans (hdraw d hd).1)
    (fun d hd => (hdraw d hd).2) (drawDegrees rng p p.hosts s).2
  rcases htree.elim with ⟨⟨m, s₁⟩, hm, htree⟩ | ⟨err, herr, -⟩
  swap
  · simp only [herr]
    exact ⟨err, rfl⟩
  simp only [hm]
  obtain ⟨root, hroot⟩ := htree.joined
  obtain ⟨m₂, s₂, hfill, hbudget₂, ⟨made, hmade₂⟩, hspent, hpaid, -⟩ :=
    fillPhase_spec rng hhosts htree.budgeted s₁
  simp only [hfill]
  cases hcheckLimit : checkLimit p m₂.switchHosts.length with
  | error err => exact ⟨err, rfl⟩
  | ok =>
    have hlimit := checkLimit_ok hcheckLimit
    obtain ⟨extra, hextra, hfits, hoff, hcount⟩ := extraPhase_spec rng hhosts m₂.switchHosts s₂ hlimit
    have hsum : (drawDegrees rng p p.hosts s).1.sum ≤ p.hosts * p.hostDegreeMax := by
      have := List.sum_le_card_nsmul _ _ fun d hd => (hdraw d hd).2
      rwa [hlen, nsmul_eq_mul] at this
    have hleft := htree.left
    have hmade := htree.made
    have hnonneg := htree.budgeted.left_nonneg
    have hnonneg₂ := hbudget₂.left_nonneg
    simp only at hleft hmade hnonneg hpaid
    refine ⟨m₂.switchHosts ++ extra, congrArg _ hextra, ?_, ?_, ⟨root, fun h hh => ?_⟩, hcount, ?_,
      ?_, ?_, ?_, ?_⟩
    · intro hs hhs
      exact (List.mem_append.mp hhs).elim (hbudget₂.fits hs) (hfits hs)
    · intro h hh
      -- every degree is spent, so the host is on a switch
      rcases hbudget₂.attached h hh with hdeg | ⟨hs, hhs, hmem⟩
      · exact absurd hdeg (hspent h hh)
      · exact ⟨hs, List.mem_append_left _ hhs, hmem⟩
    · rw [hmade₂, List.append_assoc]
      exact (hroot h hh).extend (Extends.append _ _)
    · intro huse h hh
      rw [hoff huse, List.append_nil]
      have hbound := hbudget₂.budget h hh
      have hnonneg := hbudget₂.nonneg h hh
      omega
    · omega
    · refine htree.reach.trans (mul_le_mul_of_nonneg_right ?_ (le_trans zero_le_one (le_max_left _ _)))
      rw [hmade₂]
      simp only [List.length_append]
      push_cast
      omega
    · intro huse
      rw [hoff huse, List.append_nil, mul_sub, mul_one]
      omega
    · intro huse hne
      rw [← hextra]
      exact extraPhase_length rng hhosts huse s₂ hne (hlimit hne)

/-- A build that returns has drawn degrees enough for a tree. -/
theorem enough_of_build [LinearOrder τ] (rng : Rng σ τ) (hnode : p.nodePerSwitch ≠ 1)
    (hmin : 1 ≤ p.hostDegreeMin) (hmax : p.hostDegreeMin ≤ p.hostDegreeMax) {s : σ} {r : Wiring × σ}
    (h : MeshTopo.build rng p s = .ok r) :
    2 * ((p.hosts : ℤ) - 1) ≤ (drawDegrees rng p p.hosts s).1.sum := by
  obtain ⟨hlen, hdraw⟩ := drawDegrees_spec rng hmax p.hosts s
  have htree := treePhase_ends rng hnode hlen (fun d hd => hmin.trans (hdraw d hd).1)
    (fun d hd => (hdraw d hd).2) (drawDegrees rng p p.hosts s).2
  obtain ⟨-, m, s₁, -, -, hm, -⟩ := build_phases h
  rw [hm] at htree
  have hleft := htree.left
  have hnonneg := htree.budgeted.left_nonneg
  omega

/-- **A build returns** when the degrees that are drawn are enough for a tree and the switches they
    pay for are within the limit. -/
theorem build_returns [LinearOrder τ] (rng : Rng σ τ) (hhosts : 1 ≤ p.hosts)
    (hnode : p.nodePerSwitch ≠ 1) (hmin : 1 ≤ p.hostDegreeMin)
    (hmax : p.hostDegreeMin ≤ p.hostDegreeMax) {s : σ}
    (henough : 2 * ((p.hosts : ℤ) - 1) ≤ (drawDegrees rng p p.hosts s).1.sum)
    (hlimit : (drawDegrees rng p p.hosts s).1.sum - (p.hosts - 1) ≤ p.swhichNum) :
    ∃ r, MeshTopo.build rng p s = .ok r := by
  have hcheck := check_ok hnode hmin hmax
  obtain ⟨hlen, hdraw⟩ := drawDegrees_spec rng hmax p.hosts s
  have hpos : ∀ d ∈ (drawDegrees rng p p.hosts s).1, 1 ≤ d := fun d hd => hmin.trans (hdraw d hd).1
  obtain ⟨⟨m, s₁⟩, hm⟩ := treePhase_returns rng hhosts hlen hpos henough (drawDegrees rng p p.hosts s).2
  have htree := treePhase_ends rng hnode hlen hpos (fun d hd => (hdraw d hd).2)
    (drawDegrees rng p p.hosts s).2
  rw [hm] at htree
  obtain ⟨m₂, s₂, hfill, hbudget₂, -, -, hpaid, -⟩ := fillPhase_spec rng hhosts htree.budgeted s₁
  have hleft := htree.left
  have hmade := htree.made
  have hnonneg := hbudget₂.left_nonneg
  simp only at hleft hmade hpaid
  have hok : checkLimit p m₂.switchHosts.length = .ok () := by
    rw [checkLimit, if_neg (by omega)]
  rw [MeshTopo.build]
  simp only [hcheck, hm, hfill, hok]
  exact ⟨_, rfl⟩

end Build

/-- What a finished mesh is. -/
structure SoundMesh (p : MeshParams) (w : Wiring) : Prop where
  /-- Every host is on a switch. -/
  attached : ∀ h < p.hosts, ∃ raw ∈ w.meshLinks, h ∈ raw.hosts
  /-- Any two hosts are connected through shared switches. -/
  connected : ∀ a < p.hosts, ∀ b < p.hosts, (hostGraph w.meshLinks).Reachable a b
  /-- A switch has different hosts, all in range, and no more than its capacity. -/
  capacity : ∀ raw ∈ w.meshLinks, raw.hosts.Nodup ∧ (∀ h ∈ raw.hosts, h < p.hosts) ∧
    (raw.hosts.length : ℤ) ≤ p.switchCapacity
  /-- The limit on the number of switches. -/
  limit : p.swhichNum ≠ 0 → (w.meshLinks.length : ℤ) ≤ p.swhichNum
  /-- The limit on the number of switches of a host. -/
  degree : p.switchUseAll = false → ∀ h < p.hosts, ((hostLinks w h).length : ℤ) ≤ p.hostDegreeMax
  /-- The subnets are `1..n`, in order. -/
  subnets : w.meshLinks.map (·.subnet)
    = (List.range w.meshLinks.length).map fun i : ℕ => some ((i : ℤ) + 1)
  /-- The interfaces of a host are numbered `0, 1, 2, …` over its links. -/
  eths : ∀ h, (hostLinks w h).map (fun link => link.hostEth.get? h)
    = (List.range (hostLinks w h).length).map some
  /-- The order of a host's links is that of its `addLink` calls. -/
  calls : ∀ h, (hostLinks w h).map (·.switch) = (hostCalls w h).map some

theorem reachable_of_joined {switches : List (List ℕ)} {meshLinks : List RawLink}
    (hhosts : ∀ hs ∈ switches, ∃ raw ∈ meshLinks, ∀ h ∈ hs, h ∈ raw.hosts) {a b : ℕ}
    (h : Joined switches a b) : (hostGraph meshLinks).Reachable a b := by
  induction h with
  | refl => exact .refl a
  | @tail x y _ hxy ih =>
    obtain ⟨hs, hhs, hx, hy⟩ := hxy
    obtain ⟨raw, hraw, hsub⟩ := hhosts hs hhs
    by_cases heq : x = y
    · exact heq ▸ ih
    · have hadj : (hostGraph meshLinks).Adj x y := ⟨heq, raw, hraw, hsub x hx, hsub y hy⟩
      exact ih.trans hadj.reachable

theorem hostLinks_length (w : Wiring) (h : ℕ) :
    (hostLinks w h).length = switchDegree (w.meshLinks.map (·.hosts)) h := by
  rw [hostLinks, linksForHost, topologyLinks, ← List.countP_eq_length_filter, List.countP_map,
    switchDegree, List.countP_map]
  refine List.countP_congr fun raw _ => ?_
  simp [normalize_hosts, mem_sorted]

theorem switchDegree_map_sorted (switches : List (List ℕ)) (h : ℕ) :
    switchDegree (switches.map sorted) h = switchDegree switches h := by
  rw [switchDegree, List.countP_map, switchDegree]
  refine List.countP_congr fun hs _ => ?_
  simp [mem_sorted]

/-- Wiring sound switches gives a sound mesh. -/
theorem soundMesh_of_switches {p : MeshParams} {switches : List (List ℕ)}
    (h : SoundSwitches p switches) : SoundMesh p (wireSwitches 0 .empty switches) := by
  have hwired : Wired (wireSwitches 0 .empty switches) := by
    refine wireSwitches_wired switches (w := .empty) ⟨rfl, fun h => rfl, fun h => rfl⟩ ?_
    exact fun hs hhs => (h.fits hs hhs).nodup
  have hhosts := wireSwitches_hosts switches 0 .empty
  rw [show Wiring.empty.meshLinks.map (·.hosts) = [] from rfl, List.nil_append] at hhosts
  have hlink : ∀ hs ∈ switches, ∃ raw ∈ (wireSwitches 0 .empty switches).meshLinks,
      raw.hosts = sorted hs := by
    intro hs hhs
    have : sorted hs ∈ (wireSwitches 0 .empty switches).meshLinks.map (·.hosts) := by
      rw [hhosts]
      exact List.mem_map_of_mem hhs
    exact List.mem_map.mp this
  have hports : ∀ x, (hostLinks (wireSwitches 0 .empty switches) x).length
      = (wireSwitches 0 .empty switches).hostPorts x := by
    intro x
    have := congrArg List.length (hwired.eths x)
    simpa using this
  have hjoined : ∀ {a b}, Joined switches a b →
      (hostGraph (wireSwitches 0 .empty switches).meshLinks).Reachable a b := by
    refine reachable_of_joined fun hs hhs => ?_
    obtain ⟨raw, hraw, heq⟩ := hlink hs hhs
    exact ⟨raw, hraw, fun h hh => heq ▸ mem_sorted.mpr hh⟩
  refine ⟨fun x hx => ?_, fun a ha b hb => ?_, fun raw hraw => ?_, fun hne => ?_,
    fun huse x hx => ?_, hwired.subnets, fun x => ?_, hwired.calls⟩
  · obtain ⟨hs, hhs, hmem⟩ := h.attached x hx
    obtain ⟨raw, hraw, heq⟩ := hlink hs hhs
    exact ⟨raw, hraw, heq ▸ mem_sorted.mpr hmem⟩
  · obtain ⟨root, hroot⟩ := h.joined
    exact (hjoined (hroot a ha)).symm.trans (hjoined (hroot b hb))
  · have hmem := List.mem_map_of_mem (f := RawLink.hosts) hraw
    rw [hhosts] at hmem
    obtain ⟨hs, hhs, heq⟩ := List.mem_map.mp hmem
    have hfits := h.fits hs hhs
    rw [← heq]
    refine ⟨sorted_nodup hfits.nodup, fun x hx => hfits.range x (mem_sorted.mp hx), ?_⟩
    rw [sorted, List.length_insertionSort]
    exact hfits.size
  · rw [meshLinks_length_wired]
    exact h.limit hne
  · rw [hostLinks_length, hhosts, switchDegree_map_sorted]
    exact h.degree huse x hx
  · rw [hports]
    exact hwired.eths x

/-- **What `MeshTopo.build` builds**, for every parameters it admits and whatever the generator
    draws: it comes to an end, and when it does not raise the mesh is sound. -/
theorem mesh_build_sound {σ τ : Type} [LinearOrder τ] (rng : Rng σ τ) {p : MeshParams}
    (hhosts : 1 ≤ p.hosts) (hnode : p.nodePerSwitch ≠ 1) (hmin : 1 ≤ p.hostDegreeMin)
    (hmax : p.hostDegreeMin ≤ p.hostDegreeMax) (s : σ) :
    (∃ w s', MeshTopo.build rng p s = .ok (w, s') ∧ SoundMesh p w) ∨
      ∃ err, MeshTopo.build rng p s = .error (.raised err) := by
  rcases (build_ends rng hhosts hnode hmin hmax s).elim with
    ⟨⟨w, s'⟩, hw, switches, rfl, hsound⟩ | ⟨_, herr, err, rfl⟩
  · exact .inl ⟨_, s', hw, soundMesh_of_switches hsound⟩
  · exact .inr ⟨err, herr⟩

/-- A generator that draws the largest degree and turns lists around. -/
def reversing : Rng ℕ ℕ where
  randint a b s := (max a b, s + 1)
  shuffle xs s := (xs.reverse, s + 1)
  random s := (s, s + 1)
  randint_mem {a b} _ h := ⟨le_max_left a b, (max_eq_right h).le⟩
  shuffle_perm xs _ := List.reverse_perm xs

theorem mesh_build_sound_reversing : ∃ w s',
    MeshTopo.build reversing ⟨4, 6, 3, 1, 2, true⟩ 0 = .ok (w, s') ∧
      SoundMesh ⟨4, 6, 3, 1, 2, true⟩ w := by
  have hok : (MeshTopo.build reversing ⟨4, 6, 3, 1, 2, true⟩ 0).isOk = true := by decide
  rcases mesh_build_sound reversing (p := ⟨4, 6, 3, 1, 2, true⟩) (by decide) (by decide) (by decide)
    (by decide) 0 with h | ⟨err, herr⟩
  · exact h
  · rw [herr] at hok
    cases hok

end Proof
end CeforeEmu
