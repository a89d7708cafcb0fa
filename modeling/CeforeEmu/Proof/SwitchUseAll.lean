import CeforeEmu.Proof.MinDegree

/-!
# Spreading the extra switches

With `switch_use_all`, what is left of the limit is handed out one switch at a time, each to the
hosts that are on the fewest. The heap has one entry for every host, with the number of switches it
is on (`Tallied`), so a switch takes the first entries of it, as many as it has room for
(`popHosts_take`), and puts them back with one more (`pushHosts_taken`).

Nobody who is passed over is on fewer switches than someone who is served, so a turn evens the hosts
out, or leaves them one apart (`spread_turn`).
-/

set_option autoImplicit false

namespace CeforeEmu
namespace Proof

open CeforeEmu.Lib CeforeEmu.Core CeforeEmu.Runtime

/-! ## The spread of some numbers -/

/-- The difference of the largest and the smallest. -/
def spread (xs : List ℕ) : ℕ := xs.max?.getD 0 - xs.min?.getD 0

theorem spread_le_iff {xs : List ℕ} {d : ℕ} :
    spread xs ≤ d ↔ ∀ a ∈ xs, ∀ b ∈ xs, a ≤ b + d := by
  rw [spread]
  cases hmax : xs.max? with
  | none =>
    rw [List.max?_eq_none_iff] at hmax
    subst hmax
    simp
  | some largest =>
    obtain ⟨hlargest, hle⟩ := List.max?_eq_some_iff.mp hmax
    cases hmin : xs.min? with
    | none =>
      rw [List.min?_eq_none_iff] at hmin
      subst hmin
      cases hlargest
    | some smallest =>
      obtain ⟨hsmallest, hge⟩ := List.min?_eq_some_iff.mp hmin
      simp only [Option.getD_some]
      constructor
      · intro h a ha b hb
        have := hle a ha
        have := hge b hb
        omega
      · intro h
        have := h largest hlargest smallest hsmallest
        omega

/-- Serving the lowest evens out, or leaves a difference of one. -/
theorem spread_turn {hosts : List ℕ} {f : ℕ → ℕ} {served : List ℕ}
    (hlowest : ∀ a ∈ served, ∀ b ∈ hosts, b ∉ served → f a ≤ f b) :
    spread (hosts.map fun h => f h + if h ∈ served then 1 else 0) ≤ max 1 (spread (hosts.map f)) := by
  rw [spread_le_iff]
  have hbefore := spread_le_iff.mp (le_refl (spread (hosts.map f)))
  intro x hx y hy
  obtain ⟨a, ha, rfl⟩ := List.mem_map.mp hx
  obtain ⟨b, hb, rfl⟩ := List.mem_map.mp hy
  have hab := hbefore (f a) (List.mem_map_of_mem ha) (f b) (List.mem_map_of_mem hb)
  by_cases hsa : a ∈ served
  · by_cases hsb : b ∈ served
    · simp only [if_pos hsa, if_pos hsb]
      omega
    · have := hlowest a hsa b hb hsb
      simp only [if_pos hsa, if_neg hsb]
      omega
  · simp only [if_neg hsa]
    omega

/-! ## One turn of the heap -/

section Heap

variable {σ τ : Type} [LinearOrder τ]

theorem heapEntry_total : Std.Total (HeapEntry.le (τ := τ)) := by
  constructor
  intro a b
  unfold HeapEntry.le
  rcases lt_trichotomy a.deg b.deg with h | h | h
  · exact .inl (.inl h)
  · rcases lt_trichotomy a.tie b.tie with ht | ht | ht
    · exact .inl (.inr ⟨h, .inl ht⟩)
    · rcases le_total a.host b.host with hh | hh
      · exact .inl (.inr ⟨h, .inr ⟨ht, hh⟩⟩)
      · exact .inr (.inr ⟨h.symm, .inr ⟨ht.symm, hh⟩⟩)
    · exact .inr (.inr ⟨h.symm, .inl ht⟩)
  · exact .inr (.inl h)

theorem heapEntry_trans : IsTrans (HeapEntry τ) HeapEntry.le := by
  constructor
  rintro a b c (hab | ⟨hab, htab⟩) (hbc | ⟨hbc, htbc⟩)
  · exact .inl (hab.trans hbc)
  · exact .inl (hbc ▸ hab)
  · exact .inl (hab ▸ hbc)
  · refine .inr ⟨hab.trans hbc, ?_⟩
    rcases htab with h₁ | ⟨h₁, h₁'⟩
    · rcases htbc with h₂ | ⟨h₂, -⟩
      · exact .inl (h₁.trans h₂)
      · exact .inl (h₂ ▸ h₁)
    · rcases htbc with h₂ | ⟨h₂, h₂'⟩
      · exact .inl (h₁ ▸ h₂)
      · exact .inr ⟨h₁.trans h₂, h₁'.trans h₂'⟩

theorem deg_le_of_le {a b : HeapEntry τ} (h : a.le b) : a.deg ≤ b.deg := by
  rcases h with h | ⟨h, -⟩
  · exact h.le
  · exact h.le

omit [LinearOrder τ] in
/-- With one entry for each host, the first entries are popped and all used. -/
theorem popHosts_take : ∀ (heap : List (HeapEntry τ)) (n : ℕ) (used : List ℕ)
    (popped : List (HeapEntry τ × Bool)), (used ++ heap.map (·.host)).Nodup →
      popHosts heap n used popped = (heap.drop n, popped ++ (heap.take n).map fun e => (e, true)) := by
  intro heap
  induction heap with
  | nil =>
    intro n used popped _
    simp [popHosts]
  | cons e heap ih =>
    intro n used popped hnd
    cases n with
    | zero => simp [popHosts]
    | succ n =>
      have hfresh : e.host ∉ used := fun h =>
        List.disjoint_of_nodup_append hnd h List.mem_cons_self
      rw [popHosts, if_pos (by omega), if_neg hfresh,
        show ((n + 1 : ℕ) : ℤ) - 1 = n by omega, ih n _ _ (by simpa using hnd)]
      simp

/-- What is known of a host from its entry. -/
def HeapEntry.key (e : HeapEntry τ) : ℕ × ℕ := (e.host, e.deg)

/-- The entries go back with one more, and their hosts are the hosts of the switch. -/
theorem pushHosts_taken (rng : Rng σ τ) : ∀ (taken heap : List (HeapEntry τ)) (hs : List ℕ) (s : σ),
    (hs ++ taken.map (·.host)).Nodup → heap.Pairwise HeapEntry.le →
      (pushHosts rng (taken.map fun e => (e, true)) heap hs s).2.1 = hs ++ taken.map (·.host) ∧
      (pushHosts rng (taken.map fun e => (e, true)) heap hs s).1.Pairwise HeapEntry.le ∧
      ((pushHosts rng (taken.map fun e => (e, true)) heap hs s).1.map HeapEntry.key).Perm
        (taken.map (fun e => (e.host, e.deg + 1)) ++ heap.map HeapEntry.key) := by
  have := heapEntry_total (τ := τ)
  have := heapEntry_trans (τ := τ)
  intro taken
  induction taken with
  | nil =>
    intro heap hs s _ hsorted
    exact ⟨by simp [pushHosts], hsorted, List.Perm.refl _⟩
  | cons e taken ih =>
    intro heap hs s hnd hsorted
    have hfresh : e.host ∉ hs := fun h => List.disjoint_of_nodup_append hnd h List.mem_cons_self
    have hset : setAdd hs e.host = hs ++ [e.host] := by rw [setAdd, if_neg hfresh]
    rw [List.map_cons, pushHosts]
    simp only [if_true, hset]
    obtain ⟨hhosts, hsorted', hperm⟩ := ih
      (heap.orderedInsert HeapEntry.le ⟨e.deg + 1, (rng.random s).1, e.host⟩) (hs ++ [e.host])
      (rng.random s).2 (by simpa using hnd) (hsorted.orderedInsert _ _)
    refine ⟨by rw [hhosts]; simp, hsorted', hperm.trans ?_⟩
    have hinsert := (List.perm_orderedInsert HeapEntry.le
      (⟨e.deg + 1, (rng.random s).1, e.host⟩ : HeapEntry τ) heap).map HeapEntry.key
    refine (hinsert.append_left _).trans ?_
    exact List.perm_middle

/-- The heap has one entry for each host, with the number of switches it is on, lowest first. -/
structure Tallied (hosts : ℕ) (switches : List (List ℕ)) (heap : List (HeapEntry τ)) : Prop where
  keys : (heap.map HeapEntry.key).Perm ((List.range hosts).map fun h => (h, switchDegree switches h))
  sorted : heap.Pairwise HeapEntry.le

variable {hosts : ℕ} {switches : List (List ℕ)} {heap : List (HeapEntry τ)}

theorem Tallied.hosts_perm (h : Tallied hosts switches heap) :
    (heap.map (·.host)).Perm (List.range hosts) := by
  have hfst := h.keys.map Prod.fst
  rw [List.map_map, List.map_map] at hfst
  simpa [Function.comp_def, HeapEntry.key] using hfst

theorem Tallied.nodup (h : Tallied hosts switches heap) : (heap.map (·.host)).Nodup :=
  h.hosts_perm.nodup_iff.mpr List.nodup_range

theorem Tallied.length (h : Tallied hosts switches heap) : heap.length = hosts := by
  simpa using h.hosts_perm.length_eq

theorem Tallied.deg (h : Tallied hosts switches heap) {e : HeapEntry τ} (he : e ∈ heap) :
    e.host < hosts ∧ e.deg = switchDegree switches e.host := by
  have hmem := h.keys.mem_iff.mp (List.mem_map_of_mem he)
  obtain ⟨x, hx, hkey⟩ := List.mem_map.mp hmem
  obtain ⟨rfl, hdeg⟩ := Prod.mk.inj hkey
  exact ⟨List.mem_range.mp hx, hdeg.symm⟩

/-- A turn, for what is known of one host. -/
def serve (served : List ℕ) (k : ℕ × ℕ) : ℕ × ℕ := (k.1, k.2 + if k.1 ∈ served then 1 else 0)

omit [LinearOrder τ] in
/-- The entries after a turn are the entries before it, served. -/
theorem keys_served (hnd : (heap.map (·.host)).Nodup) (n : ℕ) :
    ((heap.take n).map fun e => (e.host, e.deg + 1)) ++ (heap.drop n).map HeapEntry.key
      = (heap.map HeapEntry.key).map (serve ((heap.take n).map (·.host))) := by
  have hsplit : heap.take n ++ heap.drop n = heap := List.take_append_drop n heap
  conv_rhs => arg 2; rw [← hsplit]
  rw [List.map_append, List.map_append, List.map_map, List.map_map]
  congr 1
  · refine List.map_congr_left fun e he => ?_
    have hin : e.host ∈ (heap.take n).map (·.host) := List.mem_map_of_mem he
    rw [Function.comp_apply, serve, HeapEntry.key, if_pos hin]
  · refine List.map_congr_left fun e he => ?_
    have hpassed : e.host ∉ (heap.take n).map (·.host) := by
      intro hmem
      rw [← hsplit, List.map_append] at hnd
      exact List.disjoint_of_nodup_append hnd hmem (List.mem_map_of_mem he)
    rw [Function.comp_apply, serve, HeapEntry.key, if_neg hpassed, Nat.add_zero]

/-- One turn: the switch gets the first hosts, and nobody who is passed over is on fewer. -/
theorem Tallied.turn {rng : Rng σ τ} (h : Tallied hosts switches heap) {n : ℕ} {s s' : σ}
    {left heap' : List (HeapEntry τ)} {popped : List (HeapEntry τ × Bool)} {served : List ℕ}
    (hpop : popHosts heap n [] [] = (left, popped))
    (hpush : pushHosts rng popped left [] s = (heap', served, s')) :
    served = (heap.take n).map (·.host) ∧ Tallied hosts (switches ++ [served]) heap' ∧
      ∀ a ∈ served, ∀ b ∈ List.range hosts, b ∉ served →
        switchDegree switches a ≤ switchDegree switches b := by
  have hnd := h.nodup
  have hsplit : heap.take n ++ heap.drop n = heap := List.take_append_drop n heap
  have htaken : ((heap.take n).map (·.host)).Nodup := hnd.sublist ((List.take_sublist n heap).map _)
  rw [popHosts_take heap n [] [] (by simpa using hnd), List.nil_append] at hpop
  cases hpop
  obtain ⟨hserved, hsorted, hkeys⟩ := pushHosts_taken rng (heap.take n) (heap.drop n) [] s
    (by simpa using htaken) (h.sorted.sublist (List.drop_sublist n heap))
  rw [hpush] at hserved hsorted hkeys
  simp only [List.nil_append] at hserved
  subst hserved
  refine ⟨rfl, ⟨?_, hsorted⟩, ?_⟩
  · refine hkeys.trans ?_
    rw [keys_served hnd]
    refine (h.keys.map _).trans ?_
    rw [List.map_map]
    refine List.Perm.of_eq (List.map_congr_left fun x _ => ?_)
    rw [Function.comp_apply, serve, switchDegree_append]
  · intro a ha b hb hpassed
    obtain ⟨e, he, rfl⟩ := List.mem_map.mp ha
    obtain ⟨e', he', rfl⟩ := List.mem_map.mp (h.hosts_perm.mem_iff.mpr hb)
    have hdrop : e' ∈ heap.drop n := by
      rw [← hsplit] at he'
      exact (List.mem_append.mp he').resolve_left fun hmem => hpassed (List.mem_map_of_mem hmem)
    have hle : e.le e' := by
      have hsort := h.sorted
      rw [← hsplit, List.pairwise_append] at hsort
      exact hsort.2.2 e he e' hdrop
    rw [← (h.deg (List.mem_of_mem_take he)).2, ← (h.deg he').2]
    exact deg_le_of_le hle

/-- The whole loop: every switch gets as many hosts as it has room for, and the hosts stay as even
    as they were, or one apart. -/
theorem Tallied.run (rng : Rng σ τ) {n : ℕ} (hn : n ≤ hosts) : ∀ (turns : ℕ)
    {switches : List (List ℕ)} {heap : List (HeapEntry τ)} (_ : Tallied hosts switches heap) (s : σ),
    ∃ extra, (extraSwitches rng n turns heap switches s).1 = switches ++ extra ∧
      (∀ hs ∈ extra, hs.Nodup ∧ hs.length = n ∧ ∀ h ∈ hs, h < hosts) ∧
      spread ((List.range hosts).map (switchDegree (switches ++ extra)))
        ≤ max 1 (spread ((List.range hosts).map (switchDegree switches))) := by
  intro turns
  induction turns with
  | zero =>
    intro switches heap _ s
    refine ⟨[], by simp [extraSwitches], fun hs hhs => absurd hhs List.not_mem_nil, ?_⟩
    rw [List.append_nil]
    exact le_max_right _ _
  | succ turns ih =>
    intro switches heap h s
    cases heap with
    | nil =>
      refine ⟨[], by simp [extraSwitches], fun hs hhs => absurd hhs List.not_mem_nil, ?_⟩
      rw [List.append_nil]
      exact le_max_right _ _
    | cons e rest =>
      rw [extraSwitches]
      obtain ⟨⟨left, popped⟩, hpop⟩ : ∃ r, popHosts (e :: rest) n [] [] = r := ⟨_, rfl⟩
      obtain ⟨⟨heap', served, s'⟩, hpush⟩ : ∃ r, pushHosts rng popped left [] s = r := ⟨_, rfl⟩
      obtain ⟨hserved, htally, hlowest⟩ := h.turn hpop hpush
      simp only [hpop, hpush]
      obtain ⟨extra, hextra, hfull, hspread⟩ := ih htally s'
      have hspread₁ := spread_turn hlowest
      have hdegree : (fun x => switchDegree switches x + if x ∈ served then 1 else 0)
          = switchDegree (switches ++ [served]) := by
        funext x
        rw [switchDegree_append]
      rw [hdegree] at hspread₁
      refine ⟨served :: extra, by rw [hextra]; simp, ?_, ?_⟩
      · intro hs hhs
        rcases List.mem_cons.mp hhs with rfl | hhs
        · have hsub := (List.take_sublist n (e :: rest)).map (fun e : HeapEntry τ => e.host)
          rw [hserved]
          refine ⟨h.nodup.sublist hsub, ?_, fun x hx => ?_⟩
          · rw [List.length_map, List.length_take, h.length]
            omega
          · exact List.mem_range.mp (h.hosts_perm.mem_iff.mp (hsub.subset hx))
        · exact hfull hs hhs
      · rw [List.append_cons]
        omega

/-! ## The heap at the start -/

theorem foldl_count : ∀ (xs : List ℕ) (cur : ℕ → ℕ) (h : ℕ),
    xs.foldl (fun cur h => Function.update cur h (cur h + 1)) cur h = cur h + xs.count h := by
  intro xs
  induction xs with
  | nil =>
    intro cur h
    rfl
  | cons x xs ih =>
    intro cur h
    rw [List.foldl_cons, ih, List.count_cons]
    by_cases hx : h = x
    · subst hx
      simp
      omega
    · simp [Function.update_of_ne hx, Ne.symm hx]

/-- On switches of different hosts, the count of a host is the number of switches it is on. -/
theorem currentDeg_eq (hnd : ∀ hs ∈ switches, hs.Nodup) (h : ℕ) :
    currentDeg switches h = switchDegree switches h := by
  rw [currentDeg, foldl_count, Nat.zero_add]
  induction switches with
  | nil => rfl
  | cons hs rest ih =>
    rw [List.flatten_cons, List.count_append, ih fun hs' hhs' => hnd hs' (List.mem_cons_of_mem _ hhs'),
      (hnd hs List.mem_cons_self).count, switchDegree, switchDegree, List.countP_cons, Nat.add_comm]
    simp

omit [LinearOrder τ] in
theorem drawHeap_keys (rng : Rng σ τ) (current : ℕ → ℕ) : ∀ (hosts : List ℕ) (s : σ),
    (drawHeap rng current hosts s).1.map HeapEntry.key = hosts.map fun h => (h, current h)
  | [], _ => rfl
  | host :: rest, s => by
    rw [drawHeap, List.map_cons, List.map_cons]
    exact congrArg _ (drawHeap_keys rng current rest _)

theorem tallied_start (rng : Rng σ τ) (hosts : ℕ) (hnd : ∀ hs ∈ switches, hs.Nodup) (s : σ) :
    Tallied hosts switches ((drawHeap rng (currentDeg switches) (List.range hosts) s).1.insertionSort
      HeapEntry.le) := by
  have := heapEntry_total (τ := τ)
  have := heapEntry_trans (τ := τ)
  refine ⟨?_, List.pairwise_insertionSort _ _⟩
  refine ((List.perm_insertionSort _ _).map _).trans ?_
  rw [drawHeap_keys]
  simp only [currentDeg_eq hnd]
  exact List.Perm.refl _

end Heap

/-! ## The build -/

section Build

variable {σ τ : Type} [LinearOrder τ] {p : MeshParams}

/-- What the extra phase adds to switches of different hosts. -/
theorem extraPhase_even (rng : Rng σ τ) (hhosts : 1 ≤ p.hosts) {switches : List (List ℕ)}
    (hnd : ∀ hs ∈ switches, hs.Nodup) (s : σ) :
    ∃ extra, (extraPhase rng p switches s).1 = switches ++ extra ∧
      (∀ hs ∈ extra, hs.Nodup ∧ (hs.length : ℤ) = min p.switchCapacity p.hosts ∧
        ∀ h ∈ hs, h < p.hosts) ∧
      spread ((List.range p.hosts).map (switchDegree (switches ++ extra)))
        ≤ max 1 (spread ((List.range p.hosts).map (switchDegree switches))) := by
  rw [extraPhase]
  split
  · obtain ⟨n, hn⟩ : ∃ n : ℕ, min p.switchCapacity (p.hosts : ℤ) = n := by
      refine Int.eq_ofNat_of_zero_le ?_
      have := one_le_capacity hhosts
      omega
    obtain ⟨extra, hextra, hfull, hspread⟩ := (tallied_start rng p.hosts hnd s).run rng
      (show n ≤ p.hosts by omega) (max 0 (p.swhichNum - switches.length)).toNat
      (drawHeap rng (currentDeg switches) (List.range p.hosts) s).2
    simp only [hn]
    refine ⟨extra, hextra, fun hs hhs => ?_, hspread⟩
    obtain ⟨hnodup, hlen, hrange⟩ := hfull hs hhs
    exact ⟨hnodup, by rw [hlen], hrange⟩
  · refine ⟨[], by simp, fun hs hhs => absurd hhs List.not_mem_nil, ?_⟩
    rw [List.append_nil]
    exact le_max_right _ _

/-- The state between the second phase and the extra switches. -/
def FilledMesh (rng : Rng σ τ) (p : MeshParams) (s : σ) (m' : Mesh) (s₂ : σ) : Prop :=
  ∃ m s₁, treePhase rng p (drawDegrees rng p p.hosts s).1 (drawDegrees rng p p.hosts s).2
    = .ok (m, s₁) ∧ fillPhase rng p m s₁ = .ok (m', s₂)

/-- **Extra switches are spread evenly**: with `switch_use_all` and a limit, the limit is reached,
    every switch that is added to those of the first two phases is filled with different hosts, and
    the hosts are as even after it as they were before, or one apart. -/
theorem switch_use_all_even (rng : Rng σ τ) {s s' : σ} {w : Wiring} (huse : p.switchUseAll = true)
    (hnum : 0 < p.swhichNum) (h : MeshTopo.build rng p s = .ok (w, s')) :
    (w.meshLinks.length : ℤ) = p.swhichNum ∧
    ∃ filled s₂ extra, FilledMesh rng p s filled s₂ ∧
      (extraPhase rng p filled.switchHosts s₂).1 = filled.switchHosts ++ extra ∧
      w = wireSwitches 0 .empty (filled.switchHosts ++ extra) ∧
      (∀ hs ∈ extra, hs.Nodup ∧ (hs.length : ℤ) = min p.switchCapacity p.hosts ∧
        ∀ x ∈ hs, x < p.hosts) ∧
      spread ((List.range p.hosts).map fun x => (hostLinks w x).length)
        ≤ max 1 (spread ((List.range p.hosts).map (switchDegree filled.switchHosts))) := by
  obtain ⟨hhosts, hnode, hmin, hmax⟩ := build_checked h
  obtain ⟨-, m, s₁, filled, s₂, htree, hfill, hlimit, hw⟩ := build_phases h
  simp only at hw
  have hnd : ∀ hs ∈ filled.switchHosts, hs.Nodup := fun hs hhs =>
    ((phases_spec hhosts hnode hmin hmax htree hfill).1.fits hs hhs).nodup
  obtain ⟨extra, hextra, hfull, hspread⟩ := extraPhase_even rng hhosts hnd s₂
  refine ⟨?_, filled, s₂, extra, ⟨m, s₁, htree, hfill⟩, hextra, by rw [hw, hextra], hfull, ?_⟩
  · rw [hw, meshLinks_length_wired]
    exact extraPhase_length rng hhosts huse s₂ hnum.ne' (checkLimit_ok hlimit hnum.ne')
  · simp only [hw, hextra, hostLinks_wired]
    exact hspread

end Build

/-- Three hosts with two degrees make three pairs, and two more are added. -/
theorem switch_use_all_even_pairs : ∃ w,
    MeshTopo.build steady ⟨3, 5, 2, 2, 2, true⟩ () = .ok (w, ()) ∧ (w.meshLinks.length : ℤ) = 5 ∧
    ∃ filled s₂ extra, FilledMesh steady ⟨3, 5, 2, 2, 2, true⟩ () filled s₂ ∧
      (extraPhase steady ⟨3, 5, 2, 2, 2, true⟩ filled.switchHosts s₂).1 = filled.switchHosts ++ extra ∧
      w = wireSwitches 0 .empty (filled.switchHosts ++ extra) ∧
      (∀ hs ∈ extra, hs.Nodup ∧ (hs.length : ℤ) = 2 ∧ ∀ x ∈ hs, x < 3) ∧
      spread ((List.range 3).map fun x => (hostLinks w x).length)
        ≤ max 1 (spread ((List.range 3).map (switchDegree filled.switchHosts))) := by
  refine ⟨_, rfl, ?_⟩
  exact switch_use_all_even steady (p := ⟨3, 5, 2, 2, 2, true⟩) rfl (by decide) rfl

end Proof
end CeforeEmu
