import CeforeEmu.Proof.LinkLookup

/-!
# How many switches a host is on

A host draws a degree for each switch it is to be on. In the second phase of `MeshTopo.build` every
degree that is spent puts the host on a switch it was not on. In the first, both hosts of an
attachment pay, and when a switch with room is reused the partner is on it already: its degree is
spent for nothing (`attach_holdings_le`).

So the minimum is kept for certain only if no switch is ever reused, which takes a capacity of four
and a third host, or if the minimum is one (`min_degree_iff`).
-/

set_option autoImplicit false

namespace CeforeEmu
namespace Proof

open CeforeEmu.Lib CeforeEmu.Core CeforeEmu.Runtime

/-! ## The tree -/

section Tree

variable {host partner : ℕ} {m m' : Mesh} {capacity : ℤ}

/-- An attachment never leaves a host with more than it had. -/
theorem attach_holdings_le (capacity : ℤ) (m : Mesh) (hne : host ≠ partner) (h : ℕ) :
    holdings ⟨spend (spend m.degrees host) partner, joinSwitch capacity host partner m.switchHosts⟩ h
      ≤ holdings m h := by
  have hle := switchDegree_joinSwitch capacity host partner m.switchHosts h
  simp only [holdings, spend_spend m.degrees hne h]
  by_cases hh : h = host ∨ h = partner
  · rw [if_pos hh] at hle ⊢
    omega
  · rw [if_neg hh] at hle ⊢
    omega

/-- When no switch has room the two hosts get a new one. -/
theorem joinSwitch_new {switches : List (List ℕ)}
    (hfull : ∀ hs ∈ switches, ¬ ((hs.length : ℤ) + 2 ≤ capacity ∧ partner ∈ hs)) :
    joinSwitch capacity host partner switches = switches ++ [setAdd (setAdd [] host) partner] := by
  induction switches with
  | nil => rfl
  | cons hs₀ rest ih =>
    rw [joinSwitch, if_neg (hfull hs₀ List.mem_cons_self),
      ih fun hs hhs => hfull hs (List.mem_cons_of_mem _ hhs), List.cons_append]

/-- With a new switch both hosts get what they pay for. -/
theorem attach_holdings_eq (hne : host ≠ partner)
    (hfull : ∀ hs ∈ m.switchHosts, ¬ ((hs.length : ℤ) + 2 ≤ capacity ∧ partner ∈ hs)) (h : ℕ) :
    holdings ⟨spend (spend m.degrees host) partner, joinSwitch capacity host partner m.switchHosts⟩ h
      = holdings m h := by
  have hmem : h ∈ setAdd (setAdd [] host) partner ↔ h = host ∨ h = partner := by
    rw [mem_setAdd, mem_setAdd]
    simp
  simp only [holdings, spend_spend m.degrees hne h, joinSwitch_new hfull, switchDegree_append, hmem]
  push_cast
  omega

theorem spanningTree_holdings_le {hosts : ℕ} {total : ℤ} :
    ∀ {remaining connected : List ℕ} {m : Mesh}, (connected ++ remaining).Nodup →
      spanningTree hosts capacity total remaining connected m = .ok m' →
      ∀ h, holdings m' h ≤ holdings m h := by
  intro remaining
  induction remaining with
  | nil =>
    intro connected m _ hrun h
    cases hrun
    exact le_rfl
  | cons host remaining ih =>
    intro connected m hnd hrun h
    rw [spanningTree] at hrun
    split at hrun
    · cases hrun
    · rename_i partner hfind
      have hne := findPartner_ne hnd hfind
      refine (ih (by simpa using hnd) hrun h).trans (attach_holdings_le capacity m hne h)

/-- Below a capacity of four no switch of two has room for two more. -/
theorem spanningTree_holdings_eq {hosts : ℕ} {total : ℤ} (hcap : capacity ≤ 3) :
    ∀ {remaining connected : List ℕ} {m : Mesh}, (connected ++ remaining).Nodup →
      (∀ hs ∈ m.switchHosts, 2 ≤ hs.length) →
      spanningTree hosts capacity total remaining connected m = .ok m' →
      ∀ h, holdings m' h = holdings m h := by
  intro remaining
  induction remaining with
  | nil =>
    intro connected m _ _ hrun h
    cases hrun
    rfl
  | cons host remaining ih =>
    intro connected m hnd htwo hrun h
    rw [spanningTree] at hrun
    split at hrun
    · cases hrun
    · rename_i partner hfind
      have hne := findPartner_ne hnd hfind
      have hfull : ∀ hs ∈ m.switchHosts, ¬ ((hs.length : ℤ) + 2 ≤ capacity ∧ partner ∈ hs) := by
        intro hs hhs hroom
        have := htwo hs hhs
        omega
      refine (ih (by simpa using hnd) (fun hs hhs => ?_) hrun h).trans
        (attach_holdings_eq hne hfull h)
      simp only [joinSwitch_new hfull] at hhs
      rcases List.mem_append.mp hhs with hhs | hhs
      · exact htwo hs hhs
      · rw [List.mem_singleton.mp hhs]
        simp [setAdd, hne.symm]

end Tree

/-! ## The build -/

section Build

variable {σ τ : Type} {p : MeshParams} {degrees : List ℤ}

/-- After the tree nobody holds more than was drawn, and nobody less if no switch was reused. -/
theorem treePhase_holdings (rng : Rng σ τ) {s s₁ : σ} {m : Mesh}
    (h : treePhase rng p degrees s = .ok (m, s₁)) :
    (∀ x, holdings m x ≤ degrees.getD x 0) ∧
      (p.switchCapacity ≤ 3 ∨ p.hosts = 2 → ∀ x, holdings m x = degrees.getD x 0) := by
  have hperm := hostOrder_perm rng (fun h => degrees.getD h 0) p.hosts s
  have hstart : ∀ x, holdings ⟨fun h => degrees.getD h 0, []⟩ x = degrees.getD x 0 := by
    intro x
    simp [holdings, switchDegree]
  rw [treePhase] at h
  split at h
  · cases h
  · simp only at h
    split at h
    · cases h
    · rename_i first remaining horder
      rw [horder] at hperm
      have hnd : ([first] ++ remaining).Nodup := hperm.nodup_iff.mpr List.nodup_range
      split at h
      · cases h
      · rename_i m' hrun
        cases h
        refine ⟨fun x => hstart x ▸ spanningTree_holdings_le hnd hrun x, fun hcase x => ?_⟩
        rcases hcase with hcap | htwo
        · rw [← hstart x]
          exact spanningTree_holdings_eq hcap hnd (fun hs hhs => absurd hhs List.not_mem_nil) hrun x
        · -- one attachment, and it makes the first switch
          have hlen := hperm.length_eq
          rw [List.length_cons, List.length_range, htwo] at hlen
          obtain ⟨host, rfl⟩ := List.length_eq_one_iff.mp (Nat.succ.inj hlen)
          rw [spanningTree] at hrun
          split at hrun
          · cases hrun
          · rename_i partner hfind
            cases hrun
            rw [← hstart x]
            exact attach_holdings_eq (findPartner_ne hnd hfind) (fun hs hhs => absurd hhs List.not_mem_nil) x

theorem hostLinks_wired (switches : List (List ℕ)) (h : ℕ) :
    (hostLinks (wireSwitches 0 .empty switches) h).length = switchDegree switches h := by
  rw [hostLinks_length, wireSwitches_hosts, ← switchDegree_map_sorted switches]
  rfl

theorem switchDegree_le_append (switches extra : List (List ℕ)) (h : ℕ) :
    switchDegree switches h ≤ switchDegree (switches ++ extra) h := by
  rw [switchDegree, switchDegree, List.countP_append]
  exact Nat.le_add_right _ _

section Phases

variable {rng : Rng σ τ} {s s₁ s₂ : σ} {m m' : Mesh}

/-- What the first two phases leave: sound switches, no degrees, and what every host had. -/
theorem phases_spec (hhosts : 1 ≤ p.hosts) (hnode : p.nodePerSwitch ≠ 1)
    (hmin : 1 ≤ p.hostDegreeMin) (hmax : p.hostDegreeMin ≤ p.hostDegreeMax)
    (htree : treePhase rng p (drawDegrees rng p p.hosts s).1 (drawDegrees rng p p.hosts s).2
      = .ok (m, s₁)) (hfill : fillPhase rng p m s₁ = .ok (m', s₂)) :
    Budgeted p m' ∧ (∀ x < p.hosts, ¬ 0 < m'.degrees x) ∧ ∀ x, holdings m' x = holdings m x := by
  obtain ⟨hlen, hdraw⟩ := drawDegrees_spec rng hmax p.hosts s
  have hends := treePhase_ends rng hnode hlen (fun d hd => hmin.trans (hdraw d hd).1)
    (fun d hd => (hdraw d hd).2) (drawDegrees rng p p.hosts s).2
  rw [htree] at hends
  obtain ⟨m₂, s₃, hfill', hbudget, -, hspent, -, hholdings⟩ :=
    fillPhase_spec rng hhosts hends.budgeted s₁
  rw [hfill] at hfill'
  cases hfill'
  exact ⟨hbudget, hspent, hholdings⟩

/-- After the first two phases a host is on as many switches as it held degrees and switches
    after the tree. -/
theorem phases_degree (hhosts : 1 ≤ p.hosts) (hnode : p.nodePerSwitch ≠ 1)
    (hmin : 1 ≤ p.hostDegreeMin) (hmax : p.hostDegreeMin ≤ p.hostDegreeMax)
    (htree : treePhase rng p (drawDegrees rng p p.hosts s).1 (drawDegrees rng p p.hosts s).2
      = .ok (m, s₁)) (hfill : fillPhase rng p m s₁ = .ok (m', s₂)) :
    ∀ x < p.hosts, (switchDegree m'.switchHosts x : ℤ) = holdings m x := by
  obtain ⟨hbudget, hspent, hholdings⟩ := phases_spec hhosts hnode hmin hmax htree hfill
  intro x hx
  have hnonneg := hbudget.nonneg x hx
  have hnone := hspent x hx
  rw [← hholdings x, holdings]
  omega

end Phases

variable [LinearOrder τ]

/-- Every host is on as many switches as the minimum says, if the minimum is one or no switch can
    be reused. -/
theorem min_degree_of (rng : Rng σ τ)
    (hcase : p.hostDegreeMin = 1 ∨ p.hosts = 2 ∨ p.switchCapacity ≤ 3) {s s' : σ} {w : Wiring}
    (h : MeshTopo.build rng p s = .ok (w, s')) :
    ∀ x < p.hosts, p.hostDegreeMin ≤ ((hostLinks w x).length : ℤ) := by
  obtain ⟨hone, hnode, hmin, hmax⟩ := build_checked h
  obtain ⟨-, m, s₁, m', s₂, htree, hfill, hlimit, hw⟩ := build_phases h
  intro x hx
  by_cases hmin₁ : p.hostDegreeMin = 1
  · have hends := build_ends rng hone hnode hmin hmax s
    rw [h] at hends
    obtain ⟨switches, hswitches, hsound⟩ := hends
    simp only at hswitches
    obtain ⟨hs, hhs, hmem⟩ := hsound.attached x hx
    have hpos : 0 < switchDegree switches x := List.countP_pos_iff.mpr ⟨hs, hhs, by simpa using hmem⟩
    rw [hswitches, hostLinks_wired, hmin₁]
    omega
  · simp only at hw
    obtain ⟨hlen, hdraw⟩ := drawDegrees_spec rng hmax p.hosts s
    obtain ⟨extra, hextra, -⟩ := extraPhase_spec rng hone m'.switchHosts s₂ (checkLimit_ok hlimit)
    have hdegree := phases_degree hone hnode hmin hmax htree hfill x hx
    have hholds := (treePhase_holdings rng htree).2
      ((hcase.resolve_left hmin₁).elim .inr .inl) x
    have hdrawn := (hdraw _ (getD_mem hlen hx)).1
    have hmore := switchDegree_le_append m'.switchHosts extra x
    rw [hw, hostLinks_wired, hextra]
    omega

end Build

/-! ## A degree spent for nothing -/

/-- A generator that draws the least and leaves the order as it is. -/
def steady : Rng Unit Unit where
  randint a _ _ := (a, ())
  shuffle xs _ := (xs, ())
  random _ := ((), ())
  randint_mem _ h := ⟨le_rfl, h⟩
  shuffle_perm xs _ := List.Perm.refl xs

theorem drawDegrees_steady (p : MeshParams) (n : ℕ) :
    (drawDegrees steady p n ()).1 = List.replicate n p.hostDegreeMin := by
  induction n with
  | zero => rfl
  | succ n ih =>
    rw [drawDegrees, List.replicate_succ]
    exact congrArg _ ih

/-- Two attachments of three hosts with the same degree: the third host joins the switch of the
    first two, and the first has paid twice for it. -/
theorem spanningTree_wastes {hosts : ℕ} {capacity total d : ℤ} (hcap : 4 ≤ capacity) (hd : 2 ≤ d)
    {degrees : ℕ → ℤ} (hdeg : ∀ h < 3, degrees h = d) {rest : List ℕ}
    (hnd : (0 :: 1 :: 2 :: rest).Nodup) {m : Mesh}
    (hrun : spanningTree hosts capacity total (1 :: 2 :: rest) [0] ⟨degrees, []⟩ = .ok m) :
    holdings m 0 ≤ d - 1 := by
  have h₀ := hdeg 0 (by decide)
  have h₁ := hdeg 1 (by decide)
  have h₂ := hdeg 2 (by decide)
  have hfirst : findPartner degrees [0] 1 = some 0 := by
    simp only [findPartner, byDegree, List.insertionSort_cons, List.insertionSort_nil,
      List.orderedInsert, List.find?, h₀, h₁]
    rw [decide_eq_true (by omega)]
  have hafter : spend (spend degrees 1) 0 0 = d - 1 ∧ spend (spend degrees 1) 0 1 = d - 1 ∧
      spend (spend degrees 1) 0 2 = d := by
    simp [spend, h₀, h₁, h₂]
  have hsecond : findPartner (spend (spend degrees 1) 0) [0, 1] 2 = some 0 := by
    simp only [findPartner, byDegree, List.insertionSort_cons, List.insertionSort_nil,
      List.orderedInsert, hafter.1, hafter.2.1, le_refl, if_true, List.find?, hafter.2.2]
    rw [decide_eq_true (by omega)]
  have hjoin : joinSwitch capacity 2 0 (joinSwitch capacity 1 0 []) = [[1, 0, 2]] := by
    have hroom : (([1, 0] : List ℕ).length : ℤ) + 2 ≤ capacity ∧ 0 ∈ [1, 0] := by
      simp
      omega
    have hswitch : joinSwitch capacity 1 0 [] = [[1, 0]] := rfl
    rw [hswitch, joinSwitch, if_pos hroom]
    rfl
  rw [spanningTree, hfirst] at hrun
  simp only at hrun
  rw [spanningTree] at hrun
  simp only [List.singleton_append, hsecond, hjoin] at hrun
  refine (spanningTree_holdings_le (by simpa using hnd) hrun 0).trans ?_
  have hleft : spend (spend (spend (spend degrees 1) 0) 2) 0 0 = d - 2 := by
    simp [spend, h₀]
    omega
  simp only [holdings, hleft, switchDegree]
  simp
  omega

/-- The tree of equal degrees takes the hosts as they come. -/
theorem treePhase_steady {p : MeshParams} {rest : List ℕ} (hrest : List.range p.hosts = 0 :: 1 :: 2 :: rest)
    (hcap : 4 ≤ p.switchCapacity) {d : ℤ} (hd : 2 ≤ d) {m : Mesh} {s₁ : Unit}
    (h : treePhase steady p (List.replicate p.hosts d) () = .ok (m, s₁)) : holdings m 0 ≤ d - 1 := by
  have hdeg : ∀ x < p.hosts, (List.replicate p.hosts d).getD x 0 = d := by
    intro x hx
    rw [List.getD_eq_getElem?_getD, List.getElem?_replicate_of_lt hx, Option.getD_some]
  have horder : byDegree (fun x => (List.replicate p.hosts d).getD x 0) (List.range p.hosts)
      = 0 :: 1 :: 2 :: rest := by
    rw [← hrest]
    refine List.Pairwise.insertionSort_eq (List.pairwise_of_forall_mem_list fun a ha b hb => ?_)
    simp only [hdeg a (List.mem_range.mp ha), hdeg b (List.mem_range.mp hb), le_refl]
  have hthree : ∀ x < 3, x < p.hosts := by
    intro x hx
    have hlen := congrArg List.length hrest
    rw [List.length_range] at hlen
    simp only [List.length_cons] at hlen
    omega
  rw [treePhase] at h
  split at h
  · cases h
  · simp only [steady, horder] at h
    split at h
    · cases h
    · rename_i m' hrun
      cases h
      refine spanningTree_wastes hcap hd (fun x hx => hdeg x (hthree x hx)) ?_ hrun
      rw [← hrest]
      exact List.nodup_range

/-- A build in which the first host is on fewer switches than the minimum. -/
theorem steady_short {p : MeshParams} (hhosts : 3 ≤ p.hosts) (hcap : 4 ≤ p.switchCapacity)
    (hmin : 2 ≤ p.hostDegreeMin) (hmax : p.hostDegreeMin ≤ p.hostDegreeMax)
    (hnum : p.swhichNum = p.hosts * p.hostDegreeMin) (huse : p.switchUseAll = false) :
    ∃ w, MeshTopo.build steady p () = .ok (w, ()) ∧
      ((hostLinks w 0).length : ℤ) < p.hostDegreeMin := by
  have hnode : p.nodePerSwitch ≠ 1 := by
    intro hone
    rw [MeshParams.switchCapacity, hone, if_pos one_pos] at hcap
    omega
  have hsum : (drawDegrees steady p p.hosts ()).1.sum = p.hosts * p.hostDegreeMin := by
    rw [drawDegrees_steady, List.sum_replicate, nsmul_eq_mul]
  have htwo : 2 * (p.hosts : ℤ) ≤ p.hosts * p.hostDegreeMin := by nlinarith
  obtain ⟨⟨w, s'⟩, hbuild⟩ := build_returns steady (by omega) hnode (by omega) hmax
    (s := ()) (by rw [hsum]; omega) (by rw [hsum, hnum]; omega)
  refine ⟨w, hbuild, ?_⟩
  obtain ⟨-, m, s₁, m', s₂, htree, hfill, hlimit, hw⟩ := build_phases hbuild
  obtain ⟨extra, hextra, -, hoff, -⟩ :=
    extraPhase_spec steady (by omega) m'.switchHosts s₂ (checkLimit_ok hlimit)
  have hdegree := phases_degree (by omega) hnode (by omega) hmax htree hfill 0 (by omega)
  rw [drawDegrees_steady] at htree
  obtain ⟨n, hn⟩ : ∃ n, p.hosts = n + 3 := ⟨p.hosts - 3, by omega⟩
  have hrest : List.range p.hosts = 0 :: 1 :: 2 :: List.range' 3 n := by
    rw [hn, List.range_eq_range']
    rfl
  have hwaste := treePhase_steady hrest hcap hmin htree
  simp only at hw
  rw [hw, hostLinks_wired, hextra, hoff huse, List.append_nil]
  omega

/-- **When the minimum is kept.** For every number of hosts, room on a switch and range of degrees:
    whatever the limit on switches, with or without `switch_use_all`, and whatever is drawn, a build
    that returns has every host on as many switches as the minimum says, iff the minimum is one, or
    there are only two hosts, or no switch has room for more than three. -/
theorem min_degree_iff {hosts : ℕ} {nodePerSwitch hostDegreeMin hostDegreeMax : ℤ}
    (hhosts : 2 ≤ hosts) (hmin : 1 ≤ hostDegreeMin) (hmax : hostDegreeMin ≤ hostDegreeMax) :
    (∀ (swhichNum : ℤ) (switchUseAll : Bool) (σ τ : Type) (_ : LinearOrder τ) (rng : Rng σ τ)
        (s s' : σ) (w : Wiring),
      MeshTopo.build rng ⟨hosts, swhichNum, nodePerSwitch, hostDegreeMin, hostDegreeMax, switchUseAll⟩
        s = .ok (w, s') → ∀ h < hosts, hostDegreeMin ≤ ((hostLinks w h).length : ℤ)) ↔
      hostDegreeMin = 1 ∨ hosts = 2 ∨ (if 0 < nodePerSwitch then nodePerSwitch else hosts) ≤ 3 := by
  constructor
  · intro hkept
    by_contra hcase
    rw [not_or, not_or, not_le] at hcase
    obtain ⟨hone, htwo, hcap⟩ := hcase
    obtain ⟨w, hbuild, hshort⟩ := steady_short (p := ⟨hosts, hosts * hostDegreeMin, nodePerSwitch,
      hostDegreeMin, hostDegreeMax, false⟩) (by simp only; omega) hcap (by simp only; omega) hmax rfl rfl
    have hle := hkept _ _ _ _ _ _ _ _ _ hbuild 0 (by omega)
    exact absurd hshort (not_lt.mpr hle)
  · intro hcase swhichNum switchUseAll σ τ _ rng s s' w hbuild
    exact min_degree_of rng hcase hbuild

/-- With two hosts on a switch, every one of three hosts is on two of them. -/
theorem min_degree_iff_pairs : (if (0 : ℤ) < 2 then (2 : ℤ) else ((3 : ℕ) : ℤ)) ≤ 3 ∧
    ∀ (swhichNum : ℤ) (switchUseAll : Bool) (σ τ : Type) (_ : LinearOrder τ) (rng : Rng σ τ)
      (s s' : σ) (w : Wiring),
      MeshTopo.build rng ⟨3, swhichNum, 2, 2, 2, switchUseAll⟩ s = .ok (w, s') →
        ∀ h < 3, 2 ≤ ((hostLinks w h).length : ℤ) :=
  ⟨by decide, (min_degree_iff (by decide) (by decide) (le_refl 2)).mpr (.inr (.inr (by decide)))⟩

/-- **A host is on fewer switches than the minimum**: three hosts with two degrees each and room for
    four on a switch. All three share the first switch, and only the last two are on another. -/
theorem min_degree_missed : ∃ w, MeshTopo.build steady ⟨3, 0, 4, 2, 2, false⟩ () = .ok (w, ()) ∧
    (List.range 3).map (fun h => (hostLinks w h).length) = [1, 2, 2] ∧
    ¬ ∀ h < 3, 2 ≤ ((hostLinks w h).length : ℤ) := by
  refine ⟨_, rfl, by decide, by decide⟩

end Proof
end CeforeEmu
