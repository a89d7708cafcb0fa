import Mathlib.Tactic
import CeforeEmu.Lib.Ends
import CeforeEmu.Runtime.MeshTopo

/-!
# The tree of a random mesh

The first phase of `MeshTopo.build` attaches the hosts one by one. Every turn only adds hosts to
switches, so what is connected stays connected; a host pays one of its degrees for every switch it
joins, so its degree bounds how many these are (`Budgeted`, which the second phase keeps too).

A turn costs two degrees and makes a switch at most, and no switch of the tree is filled to its
last place (`Grown`): what the phase leaves (`TreeDone`) says how many degrees and how many
switches a tree takes.
-/

set_option autoImplicit false

namespace CeforeEmu
namespace Proof

open CeforeEmu.Lib CeforeEmu.Core CeforeEmu.Runtime

/-! ## Sharing switches -/

/-- Two hosts are on one switch. -/
def Sharing (switches : List (List ℕ)) (a b : ℕ) : Prop := ∃ hs ∈ switches, a ∈ hs ∧ b ∈ hs

/-- Two hosts are connected through shared switches. -/
def Joined (switches : List (List ℕ)) : ℕ → ℕ → Prop := Relation.ReflTransGen (Sharing switches)

/-- Hosts and switches are only added. -/
def Extends (switches switches' : List (List ℕ)) : Prop :=
  ∀ hs ∈ switches, ∃ hs' ∈ switches', hs ⊆ hs'

theorem Extends.append (switches extra : List (List ℕ)) : Extends switches (switches ++ extra) :=
  fun hs hhs => ⟨hs, List.mem_append_left _ hhs, fun _ h => h⟩

theorem Joined.extend {switches switches' : List (List ℕ)} {a b : ℕ} (h : Joined switches a b)
    (hext : Extends switches switches') : Joined switches' a b := by
  refine Relation.ReflTransGen.mono (fun x y hxy => ?_) _ _ h
  obtain ⟨hs, hhs, hx, hy⟩ := hxy
  obtain ⟨hs', hhs', hsub⟩ := hext hs hhs
  exact ⟨hs', hhs', hsub hx, hsub hy⟩

/-- On how many switches a host is. -/
def switchDegree (switches : List (List ℕ)) (h : ℕ) : ℕ := switches.countP fun hs => h ∈ hs

theorem switchDegree_append (switches : List (List ℕ)) (hs : List ℕ) (h : ℕ) :
    switchDegree (switches ++ [hs]) h = switchDegree switches h + if h ∈ hs then 1 else 0 := by
  by_cases hh : h ∈ hs <;> simp [switchDegree, hh]

/-- The switches a host is on and the degrees it has left for others. -/
def holdings (m : Mesh) (h : ℕ) : ℤ := (switchDegree m.switchHosts h : ℤ) + m.degrees h

/-- The hosts of a switch: some, different, in range and no more than it has room for. -/
structure Fits (p : MeshParams) (hs : List ℕ) : Prop where
  nonempty : hs ≠ []
  nodup : hs.Nodup
  size : (hs.length : ℤ) ≤ p.switchCapacity
  range : ∀ h ∈ hs, h < p.hosts

/-- Between any two turns of the first two loops: a host has spent a degree for every switch it is
    on, and a host that is on none has one left. -/
structure Budgeted (p : MeshParams) (m : Mesh) : Prop where
  fits : ∀ hs ∈ m.switchHosts, Fits p hs
  budget : ∀ h < p.hosts, (switchDegree m.switchHosts h : ℤ) + m.degrees h ≤ p.hostDegreeMax
  nonneg : ∀ h < p.hosts, 0 ≤ m.degrees h
  attached : ∀ h < p.hosts, 1 ≤ m.degrees h ∨ ∃ hs ∈ m.switchHosts, h ∈ hs

/-- The degrees that are left. -/
def degreesLeft (p : MeshParams) (m : Mesh) : ℤ := ∑ h ∈ Finset.range p.hosts, m.degrees h

theorem Budgeted.left_nonneg {p : MeshParams} {m : Mesh} (hm : Budgeted p m) :
    0 ≤ degreesLeft p m :=
  Finset.sum_nonneg fun h hh => hm.nonneg h (Finset.mem_range.mp hh)

/-- What a turn of either loop does: some hosts join a switch, and pay a degree each. -/
theorem Budgeted.step {p : MeshParams} {m m' : Mesh} (joins : ℕ → Prop) [DecidablePred joins]
    (hm : Budgeted p m) (hfits : ∀ hs ∈ m'.switchHosts, Fits p hs)
    (hext : Extends m.switchHosts m'.switchHosts)
    (hdeg : ∀ h, m'.degrees h = m.degrees h - if joins h then 1 else 0)
    (hswitch : ∀ h, switchDegree m'.switchHosts h
      ≤ switchDegree m.switchHosts h + if joins h then 1 else 0)
    (hjoins : ∀ h, joins h → 0 < m.degrees h ∧ ∃ hs ∈ m'.switchHosts, h ∈ hs) : Budgeted p m' := by
  refine ⟨hfits, fun h hh => ?_, fun h hh => ?_, fun h hh => ?_⟩
  · have hbudget := hm.budget h hh
    have hle := hswitch h
    rw [hdeg]
    by_cases hj : joins h
    · simp only [if_pos hj] at hle ⊢
      omega
    · simp only [if_neg hj] at hle ⊢
      omega
  · have hnonneg := hm.nonneg h hh
    rw [hdeg]
    by_cases hj : joins h
    · have := (hjoins h hj).1
      rw [if_pos hj]
      omega
    · rw [if_neg hj]
      omega
  · by_cases hj : joins h
    · exact .inr (hjoins h hj).2
    · rw [hdeg, if_neg hj, sub_zero]
      refine (hm.attached h hh).imp_right ?_
      rintro ⟨hs, hhs, hmem⟩
      obtain ⟨hs', hhs', hsub⟩ := hext hs hhs
      exact ⟨hs', hhs', hsub hmem⟩

theorem mem_setAdd {hs : List ℕ} {h x : ℕ} : x ∈ setAdd hs h ↔ x ∈ hs ∨ x = h := by
  rw [setAdd]
  split
  · rename_i hmem
    constructor
    · exact .inl
    · rintro (hx | rfl)
      · exact hx
      · exact hmem
  · rw [List.mem_append, List.mem_singleton]

theorem setAdd_nodup {hs : List ℕ} (hnd : hs.Nodup) (h : ℕ) : (setAdd hs h).Nodup := by
  rw [setAdd]
  split
  · exact hnd
  · rename_i hmem
    refine List.Nodup.append hnd (List.nodup_singleton h) ?_
    rw [List.disjoint_singleton]
    exact hmem

theorem length_setAdd_le (hs : List ℕ) (h : ℕ) : (setAdd hs h).length ≤ hs.length + 1 := by
  rw [setAdd]
  split
  · exact Nat.le_succ _
  · simp

theorem setAdd_of_mem {hs : List ℕ} {h : ℕ} (hh : h ∈ hs) : setAdd hs h = hs := by
  rw [setAdd, if_pos hh]

/-! ## The spanning tree -/

section Tree

variable {p : MeshParams} {host partner : ℕ}

theorem fits_setAdd {hs : List ℕ} (hnd : hs.Nodup) (hrange : ∀ h ∈ hs, h < p.hosts)
    (hhost : host < p.hosts) (hpartner : partner < p.hosts)
    (hsize : ((setAdd (setAdd hs host) partner).length : ℤ) ≤ p.switchCapacity) :
    Fits p (setAdd (setAdd hs host) partner) where
  nonempty := List.ne_nil_of_mem (mem_setAdd.mpr (.inr rfl))
  nodup := setAdd_nodup (setAdd_nodup hnd host) partner
  size := hsize
  range h hh := by
    rcases mem_setAdd.mp hh with hh | rfl
    · rcases mem_setAdd.mp hh with hh | rfl
      · exact hrange h hh
      · exact hhost
    · exact hpartner

theorem joinSwitch_fits (hhost : host < p.hosts) (hpartner : partner < p.hosts)
    (hcap : 2 ≤ p.switchCapacity) {switches : List (List ℕ)} (hfits : ∀ hs ∈ switches, Fits p hs) :
    ∀ hs ∈ joinSwitch p.switchCapacity host partner switches, Fits p hs := by
  induction switches with
  | nil =>
    intro hs hhs
    cases List.mem_singleton.mp hhs
    refine fits_setAdd List.nodup_nil (fun h hh => by cases hh) hhost hpartner ?_
    have h1 := length_setAdd_le (setAdd [] host) partner
    have h2 := length_setAdd_le [] host
    simp only [List.length_nil] at h2
    omega
  | cons hs₀ rest ih =>
    intro hs hhs
    rw [joinSwitch] at hhs
    split at hhs
    · rename_i hroom
      rcases List.mem_cons.mp hhs with rfl | hhs
      · have hf := hfits hs₀ List.mem_cons_self
        refine fits_setAdd hf.nodup hf.range hhost hpartner ?_
        have h1 := length_setAdd_le hs₀ host
        rw [setAdd_of_mem (mem_setAdd.mpr (.inl hroom.2))]
        omega
      · exact hfits hs (List.mem_cons_of_mem _ hhs)
    · rcases List.mem_cons.mp hhs with rfl | hhs
      · exact hfits hs List.mem_cons_self
      · exact ih (fun hs' hhs' => hfits hs' (List.mem_cons_of_mem _ hhs')) hs hhs

theorem joinSwitch_shared (capacity : ℤ) (host partner : ℕ) (switches : List (List ℕ)) :
    Sharing (joinSwitch capacity host partner switches) partner host := by
  induction switches with
  | nil =>
    exact ⟨_, List.mem_singleton.mpr rfl, mem_setAdd.mpr (.inr rfl),
      mem_setAdd.mpr (.inl (mem_setAdd.mpr (.inr rfl)))⟩
  | cons hs₀ rest ih =>
    rw [joinSwitch]
    split
    · exact ⟨_, List.mem_cons_self, mem_setAdd.mpr (.inr rfl),
        mem_setAdd.mpr (.inl (mem_setAdd.mpr (.inr rfl)))⟩
    · obtain ⟨hs, hhs, hab⟩ := ih
      exact ⟨hs, List.mem_cons_of_mem _ hhs, hab⟩

theorem joinSwitch_extends (capacity : ℤ) (host partner : ℕ) (switches : List (List ℕ)) :
    Extends switches (joinSwitch capacity host partner switches) := by
  induction switches with
  | nil =>
    intro hs hhs
    cases hhs
  | cons hs₀ rest ih =>
    intro hs hhs
    rw [joinSwitch]
    split
    · rcases List.mem_cons.mp hhs with rfl | hhs
      · exact ⟨_, List.mem_cons_self, fun h hh => mem_setAdd.mpr (.inl (mem_setAdd.mpr (.inl hh)))⟩
      · exact ⟨hs, List.mem_cons_of_mem _ hhs, fun _ h => h⟩
    · rcases List.mem_cons.mp hhs with rfl | hhs
      · exact ⟨hs, List.mem_cons_self, fun _ h => h⟩
      · obtain ⟨hs', hhs', hsub⟩ := ih hs hhs
        exact ⟨hs', List.mem_cons_of_mem _ hhs', hsub⟩

theorem length_joinSwitch_le (capacity : ℤ) (host partner : ℕ) (switches : List (List ℕ)) :
    (joinSwitch capacity host partner switches).length ≤ switches.length + 1 := by
  induction switches with
  | nil => rfl
  | cons hs₀ rest ih =>
    rw [joinSwitch]
    split
    · exact Nat.le_succ _
    · exact Nat.succ_le_succ ih

theorem sum_spend (degrees : ℕ → ℤ) {n host : ℕ} (hhost : host < n) :
    ∑ h ∈ Finset.range n, spend degrees host h = ∑ h ∈ Finset.range n, degrees h - 1 := by
  have hmem : host ∈ Finset.range n := Finset.mem_range.mpr hhost
  rw [spend, Finset.sum_update_of_mem hmem, Finset.sum_eq_add_sum_sdiff_singleton_of_mem hmem]
  omega

/-- Only the two hosts join a switch, and each at most one. -/
theorem switchDegree_joinSwitch (capacity : ℤ) (host partner : ℕ) (switches : List (List ℕ))
    (h : ℕ) : switchDegree (joinSwitch capacity host partner switches) h
      ≤ switchDegree switches h + if h = host ∨ h = partner then 1 else 0 := by
  have hmem : ∀ hs : List ℕ, h ∈ setAdd (setAdd hs host) partner ↔ h ∈ hs ∨ h = host ∨ h = partner := by
    intro hs
    rw [mem_setAdd, mem_setAdd, or_assoc]
  induction switches with
  | nil => by_cases hh : h = host ∨ h = partner <;> simp [joinSwitch, switchDegree, hmem, hh]
  | cons hs₀ rest ih =>
    simp only [switchDegree, joinSwitch] at ih ⊢
    split
    · by_cases hh : h = host ∨ h = partner
      · simp only [List.countP_cons, hmem, hh]
        by_cases h₀ : h ∈ hs₀ <;> simp [h₀]
      · simp only [List.countP_cons, hmem, hh, or_false, if_false, Nat.add_zero, le_refl]
    · simp only [List.countP_cons]
      omega

/-- Both hosts of an attachment pay. -/
theorem spend_spend (degrees : ℕ → ℤ) (hne : host ≠ partner) (h : ℕ) :
    spend (spend degrees host) partner h
      = degrees h - if h = host ∨ h = partner then 1 else 0 := by
  simp only [spend, Function.update_apply]
  by_cases h1 : h = partner
  · subst h1
    simp [hne.symm]
  · by_cases h2 : h = host
    · subst h2
      simp [hne]
    · simp [h1, h2]

/-- One turn of the tree loop. -/
theorem attach_budgeted {m : Mesh} (hm : Budgeted p m) (hhost : host < p.hosts)
    (hpartner : partner < p.hosts) (hcap : 2 ≤ p.switchCapacity) (hne : host ≠ partner)
    (hdh : 0 < m.degrees host) (hdp : 0 < m.degrees partner) :
    Budgeted p ⟨spend (spend m.degrees host) partner,
      joinSwitch p.switchCapacity host partner m.switchHosts⟩ := by
  refine hm.step (fun h => h = host ∨ h = partner) (joinSwitch_fits hhost hpartner hcap hm.fits)
    (joinSwitch_extends _ _ _ _) (fun h => ?_) (switchDegree_joinSwitch _ _ _ _) fun h hj => ?_
  · exact spend_spend m.degrees hne h
  · obtain ⟨hs, hhs, hp, hh⟩ := joinSwitch_shared p.switchCapacity host partner m.switchHosts
    rcases hj with rfl | rfl
    · exact ⟨hdh, hs, hhs, hh⟩
    · exact ⟨hdp, hs, hhs, hp⟩

theorem findPartner_spec {degrees : ℕ → ℤ} {connected : List ℕ}
    (h : findPartner degrees connected host = some partner) :
    partner ∈ connected ∧ 0 < degrees partner ∧ 0 < degrees host := by
  have hmem := List.mem_of_find?_eq_some h
  have hpos := List.find?_some h
  rw [byDegree, (List.perm_insertionSort _ _).mem_iff] at hmem
  rw [decide_eq_true_eq] at hpos
  exact ⟨hmem, hpos⟩

theorem findPartner_ne {degrees : ℕ → ℤ} {connected remaining : List ℕ}
    (hnd : (connected ++ host :: remaining).Nodup)
    (h : findPartner degrees connected host = some partner) : host ≠ partner := by
  rintro rfl
  exact List.disjoint_of_nodup_append hnd (findPartner_spec h).1 List.mem_cons_self

theorem two_le_capacity (hnode : p.nodePerSwitch ≠ 1) (hhosts : 2 ≤ p.hosts) :
    2 ≤ p.switchCapacity := by
  rw [MeshParams.switchCapacity]
  split <;> omega

/-- How many hosts the switches bring to the first one. -/
def reach (switches : List (List ℕ)) : ℤ := (switches.map fun hs => (hs.length : ℤ) - 1).sum

/-- The switches of the tree, after any number of turns: they are of the hosts connected so far,
    which they bring together, and none is filled to its last place. -/
structure Grown (capacity : ℤ) (connected : List ℕ) (switches : List (List ℕ)) : Prop where
  inside : ∀ hs ∈ switches, hs ⊆ connected
  room : ∀ hs ∈ switches, (hs.length : ℤ) - 1 ≤ max 1 (capacity - 2)
  reach : (connected.length : ℤ) - 1 ≤ reach switches

theorem joinSwitch_room {capacity : ℤ} {switches : List (List ℕ)} (hfresh : ∀ hs ∈ switches, host ∉ hs)
    (hne : host ≠ partner) (hroom : ∀ hs ∈ switches, (hs.length : ℤ) - 1 ≤ max 1 (capacity - 2)) :
    (∀ hs ∈ joinSwitch capacity host partner switches, (hs.length : ℤ) - 1 ≤ max 1 (capacity - 2)) ∧
      reach (joinSwitch capacity host partner switches) = reach switches + 1 := by
  induction switches with
  | nil =>
    have hnew : setAdd (setAdd [] host) partner = [host, partner] := by
      simp [setAdd, hne.symm]
    rw [joinSwitch, hnew]
    refine ⟨fun hs hhs => ?_, rfl⟩
    cases List.mem_singleton.mp hhs
    exact le_max_left _ _
  | cons hs₀ rest ih =>
    obtain ⟨hrest, hreach⟩ := ih (fun hs hhs => hfresh hs (List.mem_cons_of_mem _ hhs))
      fun hs hhs => hroom hs (List.mem_cons_of_mem _ hhs)
    rw [joinSwitch]
    split
    · rename_i hjoin
      have hlen : (setAdd (setAdd hs₀ host) partner).length = hs₀.length + 1 := by
        rw [setAdd_of_mem (mem_setAdd.mpr (.inl hjoin.2)), setAdd,
          if_neg (hfresh hs₀ List.mem_cons_self), List.length_append, List.length_singleton]
      refine ⟨fun hs hhs => ?_, ?_⟩
      · rcases List.mem_cons.mp hhs with rfl | hhs
        · refine le_max_of_le_right ?_
          rw [hlen]
          push_cast
          omega
        · exact hroom hs (List.mem_cons_of_mem _ hhs)
      · simp only [reach, List.map_cons, List.sum_cons, hlen]
        push_cast
        ring
    · refine ⟨fun hs hhs => ?_, ?_⟩
      · rcases List.mem_cons.mp hhs with rfl | hhs
        · exact hroom hs List.mem_cons_self
        · exact hrest hs hhs
      · simp only [reach, List.map_cons, List.sum_cons] at hreach ⊢
        rw [hreach]
        ring

theorem mem_joinSwitch {capacity : ℤ} {switches : List (List ℕ)} {hs : List ℕ} {h : ℕ}
    (hhs : hs ∈ joinSwitch capacity host partner switches) (hh : h ∈ hs) :
    h = host ∨ h = partner ∨ ∃ hs' ∈ switches, h ∈ hs' := by
  have hadd : ∀ hs' : List ℕ, h ∈ setAdd (setAdd hs' host) partner → h = host ∨ h = partner ∨ h ∈ hs' := by
    intro hs' hmem
    rw [mem_setAdd, mem_setAdd] at hmem
    tauto
  induction switches with
  | nil =>
    cases List.mem_singleton.mp hhs
    rcases hadd [] hh with h₁ | h₁ | h₁
    · exact .inl h₁
    · exact .inr (.inl h₁)
    · cases h₁
  | cons hs₀ rest ih =>
    rw [joinSwitch] at hhs
    split at hhs
    · rcases List.mem_cons.mp hhs with rfl | hhs
      · rcases hadd hs₀ hh with h₁ | h₁ | h₁
        · exact .inl h₁
        · exact .inr (.inl h₁)
        · exact .inr (.inr ⟨hs₀, List.mem_cons_self, h₁⟩)
      · exact .inr (.inr ⟨hs, List.mem_cons_of_mem _ hhs, hh⟩)
    · rcases List.mem_cons.mp hhs with rfl | hhs
      · exact .inr (.inr ⟨hs, List.mem_cons_self, hh⟩)
      · rcases ih hhs with h₁ | h₁ | ⟨hs', hhs', h₁⟩
        · exact .inl h₁
        · exact .inr (.inl h₁)
        · exact .inr (.inr ⟨hs', List.mem_cons_of_mem _ hhs', h₁⟩)

theorem Grown.join {capacity : ℤ} {connected : List ℕ} {switches : List (List ℕ)}
    (h : Grown capacity connected switches) (hhost : host ∉ connected)
    (hpartner : partner ∈ connected) :
    Grown capacity (connected ++ [host]) (joinSwitch capacity host partner switches) := by
  have hne : host ≠ partner := fun heq => hhost (heq ▸ hpartner)
  have hfresh : ∀ hs ∈ switches, host ∉ hs := fun hs hhs hmem => hhost (h.inside hs hhs hmem)
  obtain ⟨hroom, hreach⟩ := joinSwitch_room hfresh hne h.room
  refine ⟨fun hs hhs x hx => ?_, hroom, ?_⟩
  · rcases mem_joinSwitch hhs hx with rfl | rfl | ⟨hs', hhs', hx'⟩
    · exact List.mem_append_right _ (List.mem_singleton.mpr rfl)
    · exact List.mem_append_left _ hpartner
    · exact List.mem_append_left _ (h.inside hs' hhs' hx')
  · have := h.reach
    rw [hreach, List.length_append, List.length_singleton]
    push_cast
    omega

theorem Grown.le_mul {capacity : ℤ} {connected : List ℕ} {switches : List (List ℕ)}
    (h : Grown capacity connected switches) :
    (connected.length : ℤ) - 1 ≤ switches.length * max 1 (capacity - 2) := by
  refine h.reach.trans ?_
  have hsum : (switches.map fun hs => (hs.length : ℤ) - 1).sum
      ≤ (switches.map fun hs => (hs.length : ℤ) - 1).length • max 1 (capacity - 2) := by
    refine List.sum_le_card_nsmul _ _ fun x hx => ?_
    obtain ⟨hs, hhs, rfl⟩ := List.mem_map.mp hx
    exact h.room hs hhs
  rwa [List.length_map, nsmul_eq_mul] at hsum

/-- The tree loop: what it has not refused is connected, each turn has cost two degrees, and made
    one switch at most. -/
theorem spanningTree_ends (hnode : p.nodePerSwitch ≠ 1) (total : ℤ) (root : ℕ) :
    ∀ (remaining connected : List ℕ) (m : Mesh), Budgeted p m →
      (connected ++ remaining).Nodup → (∀ h ∈ connected ++ remaining, h < p.hosts) →
      (∀ h ∈ connected, Joined m.switchHosts root h) →
      Grown p.switchCapacity connected m.switchHosts →
      Ends (fun _ => True)
        (fun m' => (Budgeted p m' ∧ ∀ h ∈ connected ++ remaining, Joined m'.switchHosts root h) ∧
          Grown p.switchCapacity (connected ++ remaining) m'.switchHosts ∧
          degreesLeft p m' + 2 * remaining.length = degreesLeft p m ∧
          m'.switchHosts.length ≤ m.switchHosts.length + remaining.length)
        (spanningTree p.hosts p.switchCapacity total remaining connected m) := by
  intro remaining
  induction remaining with
  | nil =>
    intro connected m hm _ _ hjoined hgrown
    rw [List.append_nil]
    exact ⟨⟨hm, hjoined⟩, hgrown, add_zero _, le_rfl⟩
  | cons host remaining ih =>
    intro connected m hm hnd hrange hjoined hgrown
    cases hfind : findPartner m.degrees connected host with
    | none =>
      simp only [spanningTree, hfind]
      trivial
    | some partner =>
      simp only [spanningTree, hfind]
      obtain ⟨hmem, hdp, hdh⟩ := findPartner_spec hfind
      have hassoc : connected ++ [host] ++ remaining = connected ++ host :: remaining := by simp
      have hhost : host < p.hosts := hrange host (by simp)
      have hpartner : partner < p.hosts := hrange partner (List.mem_append_left _ hmem)
      have hfresh : host ∉ connected := fun hh =>
        (List.disjoint_of_nodup_append hnd) hh List.mem_cons_self
      have hne := findPartner_ne hnd hfind
      have hm' := attach_budgeted hm hhost hpartner (two_le_capacity hnode (by omega)) hne hdh hdp
      have hext := joinSwitch_extends p.switchCapacity host partner m.switchHosts
      have hrest := ih (connected ++ [host]) _ hm' (hassoc ▸ hnd) (hassoc ▸ hrange) (by
        intro h hh
        rcases List.mem_append.mp hh with hh | hh
        · exact (hjoined h hh).extend hext
        · cases List.mem_singleton.mp hh
          exact ((hjoined partner hmem).extend hext).tail (joinSwitch_shared _ _ _ _))
        (hgrown.join hfresh hmem)
      rw [hassoc] at hrest
      refine hrest.mono fun m' h => ⟨h.1, h.2.1, ?_, ?_⟩
      · have hleft := h.2.2.1
        rw [degreesLeft, degreesLeft, sum_spend _ hpartner, sum_spend _ hhost] at hleft
        rw [degreesLeft, degreesLeft, List.length_cons]
        push_cast
        omega
      · have hlen := h.2.2.2
        have hjoin := length_joinSwitch_le p.switchCapacity host partner m.switchHosts
        rw [List.length_cons]
        simp only at hlen
        omega

end Tree

/-! ## When a tree can be built -/

section Possible

/-- The degrees of some hosts. -/
def degreesOf (degrees : ℕ → ℤ) (hs : List ℕ) : ℤ := (hs.map degrees).sum

theorem degreesOf_cons (degrees : ℕ → ℤ) (h : ℕ) (hs : List ℕ) :
    degreesOf degrees (h :: hs) = degrees h + degreesOf degrees hs := rfl

theorem degreesOf_append (degrees : ℕ → ℤ) (hs hs' : List ℕ) :
    degreesOf degrees (hs ++ hs') = degreesOf degrees hs + degreesOf degrees hs' := by
  rw [degreesOf, List.map_append, List.sum_append]
  rfl

theorem degreesOf_spend (degrees : ℕ → ℤ) (x : ℕ) {hs : List ℕ} (hnd : hs.Nodup) :
    degreesOf (spend degrees x) hs = degreesOf degrees hs - if x ∈ hs then 1 else 0 := by
  induction hs with
  | nil => rfl
  | cons h hs ih =>
    obtain ⟨hh, hrest⟩ := List.nodup_cons.mp hnd
    rw [degreesOf_cons, degreesOf_cons, ih hrest]
    by_cases hx : x = h
    · subst hx
      rw [if_neg hh, if_pos List.mem_cons_self, spend, Function.update_self]
      omega
    · rw [spend, Function.update_of_ne (Ne.symm hx)]
      simp only [List.mem_cons, hx, false_or]
      omega

/-- Someone has a degree left as long as all of them together do. -/
theorem exists_pos_of_degreesOf {degrees : ℕ → ℤ} {hs : List ℕ} (h : 0 < degreesOf degrees hs) :
    ∃ x ∈ hs, 0 < degrees x := by
  by_contra hnone
  have hle : degreesOf degrees hs ≤ 0 := by
    have hall : ∀ d ∈ hs.map degrees, d ≤ 0 := by
      intro d hd
      obtain ⟨x, hx, rfl⟩ := List.mem_map.mp hd
      by_contra hpos
      exact hnone ⟨x, hx, not_le.mp hpos⟩
    have hsum := List.sum_le_card_nsmul _ _ hall
    rwa [smul_zero] at hsum
  omega

theorem degreesOf_ones {degrees : ℕ → ℤ} {hs : List ℕ} (h : ∀ x ∈ hs, degrees x = 1) :
    degreesOf degrees hs = hs.length := by
  induction hs with
  | nil => rfl
  | cons x hs ih =>
    rw [degreesOf_cons, h x List.mem_cons_self, ih fun y hy => h y (List.mem_cons_of_mem _ hy),
      List.length_cons]
    push_cast
    omega

/-- **The tree loop returns when there are degrees enough.** The hosts come with the largest
    degrees first: as long as these are two or more the connected hosts have two to spare, and once
    they are one only their sum matters. -/
theorem spanningTree_returns (hosts : ℕ) (capacity total : ℤ) :
    ∀ (remaining connected : List ℕ) (degrees : ℕ → ℤ) (switches : List (List ℕ)),
      (connected ++ remaining).Nodup →
      (∀ h ∈ remaining, 1 ≤ degrees h) →
      remaining.Pairwise (fun a b => degrees b ≤ degrees a) →
      (2 ≤ degreesOf degrees connected ∨ ∀ h ∈ remaining, degrees h = 1) →
      2 * (remaining.length : ℤ) ≤ degreesOf degrees connected + degreesOf degrees remaining →
      ∃ m, spanningTree hosts capacity total remaining connected ⟨degrees, switches⟩ = .ok m := by
  intro remaining
  induction remaining with
  | nil =>
    intro connected degrees switches _ _ _ _ _
    exact ⟨_, rfl⟩
  | cons host remaining ih =>
    intro connected degrees switches hnd hpos hsorted hspare henough
    have hassoc : connected ++ [host] ++ remaining = connected ++ host :: remaining := by simp
    obtain ⟨hconnected, hrest, hdisjoint⟩ := List.nodup_append.mp hnd
    obtain ⟨hhost, hremaining⟩ := List.nodup_cons.mp hrest
    obtain ⟨hlargest, hsorted'⟩ := List.pairwise_cons.mp hsorted
    have hfresh : host ∉ connected := fun hh => hdisjoint host hh host List.mem_cons_self rfl
    have hhostpos := hpos host List.mem_cons_self
    -- someone connected has a degree left
    have hleft : 0 < degreesOf degrees connected := by
      rcases hspare with htwo | hones
      · omega
      · rw [degreesOf_ones hones] at henough
        rw [List.length_cons] at henough
        push_cast at henough
        omega
    obtain ⟨cand, hcand, hcandpos⟩ := exists_pos_of_degreesOf hleft
    cases hfind : findPartner degrees connected host with
    | none =>
      exfalso
      rw [findPartner, List.find?_eq_none] at hfind
      have hmem : cand ∈ byDegree degrees connected :=
        (List.perm_insertionSort _ _).mem_iff.mpr hcand
      have := hfind cand hmem
      rw [decide_eq_true_eq] at this
      exact this ⟨hcandpos, by omega⟩
    | some partner =>
      simp only [spanningTree, hfind]
      obtain ⟨hpartner, -, -⟩ := findPartner_spec hfind
      have hnotleft : ∀ h ∈ remaining, h ≠ host ∧ h ≠ partner := by
        intro h hh
        refine ⟨fun heq => hhost (heq ▸ hh), fun heq => ?_⟩
        exact hdisjoint partner hpartner h (List.mem_cons_of_mem _ hh) heq.symm
      have hsame : ∀ h ∈ remaining, spend (spend degrees host) partner h = degrees h := by
        intro h hh
        obtain ⟨h₁, h₂⟩ := hnotleft h hh
        rw [spend, Function.update_of_ne h₂, spend, Function.update_of_ne h₁]
      have hsum : degreesOf (spend (spend degrees host) partner) remaining
          = degreesOf degrees remaining := congrArg List.sum (List.map_congr_left hsame)
      have hsum' : degreesOf (spend (spend degrees host) partner) (connected ++ [host])
          = degreesOf degrees connected + degrees host - 2 := by
        have hnd' : (connected ++ [host]).Nodup := (hassoc ▸ hnd).of_append_left
        rw [degreesOf_spend _ _ hnd', degreesOf_spend _ _ hnd', degreesOf_append,
          if_pos (List.mem_append_left _ hpartner),
          if_pos (List.mem_append_right _ (List.mem_singleton.mpr rfl))]
        simp only [degreesOf, List.map_cons, List.map_nil, List.sum_cons, List.sum_nil]
        omega
      refine ih (connected ++ [host]) _ _ (hassoc ▸ hnd) (fun h hh => ?_) ?_ ?_ ?_
      · rw [hsame h hh]
        exact hpos h (List.mem_cons_of_mem _ hh)
      · refine hsorted'.imp_of_mem fun {a b} ha hb hab => ?_
        rwa [hsame a ha, hsame b hb]
      · by_cases hone : degrees host = 1
        · refine .inr fun h hh => ?_
          have h₁ := hlargest h hh
          have h₂ := hpos h (List.mem_cons_of_mem _ hh)
          rw [hsame h hh]
          omega
        · refine .inl ?_
          rw [hsum']
          rcases hspare with htwo | hones
          · omega
          · exact absurd (hones host List.mem_cons_self) hone
      · rw [hsum, hsum']
        rw [degreesOf_cons, List.length_cons] at henough
        push_cast at henough
        omega

end Possible

/-! ## The phase -/

section Phase

variable {σ τ : Type} {p : MeshParams}

theorem getD_mem {degrees : List ℤ} (hlen : degrees.length = p.hosts) {h : ℕ} (hh : h < p.hosts) :
    degrees.getD h 0 ∈ degrees := by
  rw [List.getD_eq_getElem?_getD, List.getElem?_eq_getElem (hlen ▸ hh), Option.getD_some]
  exact List.getElem_mem _

theorem drawn_budgeted {degrees : List ℤ} (hlen : degrees.length = p.hosts)
    (hpos : ∀ d ∈ degrees, 1 ≤ d) (hmax : ∀ d ∈ degrees, d ≤ p.hostDegreeMax) :
    Budgeted p ⟨fun h => degrees.getD h 0, []⟩ := by
  refine ⟨fun hs hhs => ?_, fun h hh => ?_, fun h hh => ?_, fun h hh => ?_⟩
  · cases hhs
  · have := hmax _ (getD_mem hlen hh)
    simpa [switchDegree] using this
  · have := hpos _ (getD_mem hlen hh)
    exact zero_le_one.trans this
  · exact .inl (hpos _ (getD_mem hlen hh))

theorem sum_getD (degrees : List ℤ) :
    ∑ h ∈ Finset.range degrees.length, degrees.getD h 0 = degrees.sum := by
  induction degrees with
  | nil => rfl
  | cons d degrees ih =>
    rw [List.length_cons, Finset.sum_range_succ', List.sum_cons, add_comm]
    exact congrArg (d + ·) ih

/-- `host_order`, shuffled and sorted, is still all the hosts. -/
theorem hostOrder_perm (rng : Rng σ τ) (degrees : ℕ → ℤ) (hosts : ℕ) (s : σ) :
    (byDegree degrees (rng.shuffle (List.range hosts) s).1).Perm (List.range hosts) :=
  (List.perm_insertionSort _ _).trans (rng.shuffle_perm _ s)

/-- There is a first host, where there are hosts. -/
theorem exists_hostOrder (rng : Rng σ τ) (degrees : ℕ → ℤ) {hosts : ℕ} (hhosts : 1 ≤ hosts) (s : σ) :
    ∃ first remaining, byDegree degrees (rng.shuffle (List.range hosts) s).1 = first :: remaining ∧
      (first :: remaining).Perm (List.range hosts) := by
  have hperm := hostOrder_perm rng degrees hosts s
  cases horder : byDegree degrees (rng.shuffle (List.range hosts) s).1 with
  | nil =>
    rw [horder] at hperm
    have hlen := hperm.length_eq
    rw [List.length_nil, List.length_range] at hlen
    omega
  | cons first remaining =>
    rw [horder] at hperm
    exact ⟨first, remaining, rfl, hperm⟩

theorem degrees_checked {degrees : List ℤ} (hpos : ∀ d ∈ degrees, 1 ≤ d) :
    ¬ degrees.any (· < 1) = true := by
  rw [List.any_eq_true]
  rintro ⟨d, hd, hlt⟩
  have := hpos d hd
  rw [decide_eq_true_eq] at hlt
  omega

/-- What the tree phase leaves: every host connected with one, two degrees spent for each of the
    others, and at most a switch made for it. -/
structure TreeDone (p : MeshParams) (degrees : List ℤ) (m : Mesh) : Prop where
  budgeted : Budgeted p m
  joined : ∃ root, ∀ h < p.hosts, Joined m.switchHosts root h
  left : degreesLeft p m + 2 * ((p.hosts : ℤ) - 1) = degrees.sum
  made : (m.switchHosts.length : ℤ) ≤ (p.hosts : ℤ) - 1
  reach : (p.hosts : ℤ) - 1 ≤ m.switchHosts.length * max 1 (p.switchCapacity - 2)

/-- The tree phase: it raises, or every host is connected with the first. -/
theorem treePhase_ends (rng : Rng σ τ) (hnode : p.nodePerSwitch ≠ 1) {degrees : List ℤ}
    (hlen : degrees.length = p.hosts) (hpos : ∀ d ∈ degrees, 1 ≤ d)
    (hmax : ∀ d ∈ degrees, d ≤ p.hostDegreeMax) (s : σ) :
    Ends (fun _ => True) (fun r => TreeDone p degrees r.1) (treePhase rng p degrees s) := by
  rw [treePhase]
  split
  · trivial
  · have hperm := hostOrder_perm rng (fun h => degrees.getD h 0) p.hosts s
    simp only
    cases horder : byDegree (fun h => degrees.getD h 0) (rng.shuffle (List.range p.hosts) s).1 with
    | nil => trivial
    | cons first remaining =>
      rw [horder] at hperm
      have hcount : remaining.length + 1 = p.hosts := by
        have := hperm.length_eq
        rwa [List.length_cons, List.length_range] at this
      have htree := spanningTree_ends hnode degrees.sum first remaining [first] _
        (drawn_budgeted hlen hpos hmax) (hperm.nodup_iff.mpr List.nodup_range)
        (fun h hh => List.mem_range.mp (hperm.mem_iff.mp hh)) (fun h hh => by
          cases List.mem_singleton.mp hh
          exact .refl)
        ⟨fun hs hhs => absurd hhs List.not_mem_nil, fun hs hhs => absurd hhs List.not_mem_nil, le_rfl⟩
      rcases htree.elim with ⟨m, hm, ⟨hbudget, hjoined⟩, hgrown, hleft, hmade⟩ | ⟨err, herr, -⟩
      · simp only [hm]
        refine ⟨hbudget, ⟨first, fun h hh => hjoined h (hperm.mem_iff.mpr (List.mem_range.mpr hh))⟩,
          ?_, ?_, ?_⟩
        · have hall : degreesLeft p ⟨fun h => degrees.getD h 0, []⟩ = degrees.sum := by
            rw [degreesLeft, ← hlen]
            exact sum_getD degrees
          rw [hall] at hleft
          simp only
          omega
        · simp only [List.length_nil] at hmade ⊢
          omega
        · have hreach := hgrown.le_mul
          rw [List.length_append, List.length_singleton] at hreach
          simp only
          refine le_trans ?_ hreach
          omega
      · simp only [herr]
        trivial

theorem byDegree_pairwise (degrees : ℕ → ℤ) (hs : List ℕ) :
    (byDegree degrees hs).Pairwise fun a b => degrees b ≤ degrees a := by
  have : Std.Total fun a b => degrees b ≤ degrees a := ⟨fun a b => le_total _ _⟩
  have : IsTrans ℕ fun a b => degrees b ≤ degrees a := ⟨fun a b c hab hbc => hbc.trans hab⟩
  exact List.pairwise_insertionSort _ hs

/-- The tree phase returns when there are degrees enough. -/
theorem treePhase_returns (rng : Rng σ τ) (hhosts : 1 ≤ p.hosts) {degrees : List ℤ}
    (hlen : degrees.length = p.hosts) (hpos : ∀ d ∈ degrees, 1 ≤ d)
    (henough : 2 * ((p.hosts : ℤ) - 1) ≤ degrees.sum) (s : σ) :
    ∃ r, treePhase rng p degrees s = .ok r := by
  have hany := degrees_checked hpos
  obtain ⟨first, remaining, horder, hperm⟩ :=
    exists_hostOrder rng (fun h => degrees.getD h 0) hhosts s
  have hsorted := byDegree_pairwise (fun h => degrees.getD h 0) (rng.shuffle (List.range p.hosts) s).1
  rw [treePhase, if_neg hany]
  simp only [horder]
  rw [horder] at hsorted
  obtain ⟨hlargest, hsorted'⟩ := List.pairwise_cons.mp hsorted
  have hdegree : ∀ h ∈ first :: remaining, 1 ≤ degrees.getD h 0 := fun h hh =>
    hpos _ (getD_mem hlen (List.mem_range.mp (hperm.mem_iff.mp hh)))
  have hsum : degreesOf (fun h => degrees.getD h 0) (first :: remaining) = degrees.sum := by
    rw [degreesOf, (hperm.map _).sum_eq, ← sum_getD degrees, hlen]
    rfl
  have hcount : remaining.length + 1 = p.hosts := by
    have := hperm.length_eq
    rwa [List.length_cons, List.length_range] at this
  rw [degreesOf_cons] at hsum
  have hfirst : degreesOf (fun h => degrees.getD h 0) [first] = degrees.getD first 0 := by
    simp [degreesOf]
  obtain ⟨m, hm⟩ := spanningTree_returns p.hosts p.switchCapacity degrees.sum remaining [first]
    (fun h => degrees.getD h 0) [] (hperm.nodup_iff.mpr List.nodup_range)
    (fun h hh => hdegree h (List.mem_cons_of_mem _ hh)) hsorted' (by
      by_cases htwo : 2 ≤ degrees.getD first 0
      · exact .inl (hfirst.symm ▸ htwo)
      · refine .inr fun h hh => ?_
        have := hlargest h hh
        have := hdegree h (List.mem_cons_of_mem _ hh)
        omega) (by
      rw [hfirst]
      omega)
  simp only [hm]
  exact ⟨_, rfl⟩

end Phase

end Proof
end CeforeEmu
