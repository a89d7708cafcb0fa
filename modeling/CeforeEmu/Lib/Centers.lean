import Mathlib.Algebra.Order.Monoid.Defs
import Mathlib.Data.Finset.Lattice.Fold
import Mathlib.Data.List.Infix
import Mathlib.Tactic.Common

/-!
# Farthest-first centres

Centres are taken one at a time, and each is a node that is farthest from the centres before it
(`FarthestFirst`). If some node is farther than `r` from all of them, then they and the node are
pairwise farther than `r` apart (`FarthestFirst.separated`): a centre was taken although the node
was there to be taken. Points that are pairwise more than `2 * r` apart need a centre each if
nothing is to be farther than `r` from one, so no choice of as many centres has less than half the
radius (`FarthestFirst.covers`).

Distances are only asked to be symmetric as far as the triangle inequality needs it; unreachable is
`⊤`.
-/

set_option autoImplicit false

namespace CeforeEmu
namespace Lib

variable {α D : Type} [LinearOrder D] [OrderTop D] {d : α → α → D}

/-- The distance to the nearest of the centres. -/
def nearest (d : α → α → D) (centers : List α) (v : α) : D :=
  centers.foldr (fun c near => min (d c v) near) ⊤

@[simp] theorem nearest_nil (d : α → α → D) (v : α) : nearest d [] v = ⊤ := rfl

@[simp] theorem nearest_cons (d : α → α → D) (c : α) (centers : List α) (v : α) :
    nearest d (c :: centers) v = min (d c v) (nearest d centers v) := rfl

theorem nearest_snoc (d : α → α → D) (centers : List α) (c v : α) :
    nearest d (centers ++ [c]) v = min (nearest d centers v) (d c v) := by
  induction centers with
  | nil => simp
  | cons c' centers ih => rw [List.cons_append, nearest_cons, nearest_cons, ih, min_assoc]

theorem lt_nearest {r : D} {centers : List α} {v : α} :
    r < nearest d centers v → ∀ c ∈ centers, r < d c v := by
  induction centers with
  | nil => exact fun _ c hc => absurd hc List.not_mem_nil
  | cons c centers ih =>
    rw [nearest_cons, lt_min_iff]
    rintro ⟨hc, hrest⟩
    exact List.forall_mem_cons.mpr ⟨hc, ih hrest⟩

theorem nearest_le {centers : List α} {c : α} (hc : c ∈ centers) (v : α) :
    nearest d centers v ≤ d c v :=
  not_lt.mp fun hlt => lt_irrefl _ (lt_nearest hlt c hc)

theorem exists_nearest {centers : List α} (hne : centers ≠ []) (v : α) :
    ∃ c ∈ centers, d c v = nearest d centers v := by
  induction centers with
  | nil => exact absurd rfl hne
  | cons c centers ih =>
    rw [nearest_cons]
    by_cases hnil : centers = []
    · subst hnil
      exact ⟨c, List.mem_cons_self, by simp⟩
    · obtain ⟨c', hc', heq⟩ := ih hnil
      rcases min_choice (d c v) (nearest d centers v) with h | h
      · exact ⟨c, List.mem_cons_self, h.symm⟩
      · exact ⟨c', List.mem_cons_of_mem _ hc', by rw [h, heq]⟩

theorem nearest_eq_inf [DecidableEq α] (d : α → α → D) (centers : List α) (v : α) :
    nearest d centers v = centers.toFinset.inf fun c => d c v := by
  induction centers with
  | nil => rfl
  | cons c centers ih => rw [nearest_cons, ih, List.toFinset_cons, Finset.inf_insert]

/-! ## Greedy choices -/

/-- Each centre but the first is farthest from the ones before it. -/
def FarthestFirst (d : α → α → D) (nodes centers : List α) : Prop :=
  ∀ before c, before ++ [c] <+: centers → before ≠ [] →
    ∀ v ∈ nodes, nearest d before v ≤ nearest d before c

theorem farthestFirst_singleton (d : α → α → D) (nodes : List α) (c : α) :
    FarthestFirst d nodes [c] := by
  intro before c' hpre hne
  have hlen := hpre.length_le
  rw [List.length_append, List.length_singleton, List.length_singleton] at hlen
  exact absurd (List.length_eq_zero_iff.mp (by omega)) hne

theorem FarthestFirst.snoc {nodes centers : List α} (h : FarthestFirst d nodes centers) {c : α}
    (hfar : ∀ v ∈ nodes, nearest d centers v ≤ nearest d centers c) :
    FarthestFirst d nodes (centers ++ [c]) := by
  intro before c' hpre hne
  rcases List.prefix_concat_iff.mp hpre with heq | hpre
  · obtain ⟨rfl, hc⟩ := List.append_inj' heq rfl
    cases hc
    exact hfar
  · exact h before c' hpre hne

theorem FarthestFirst.of_snoc {nodes centers : List α} {c : α}
    (h : FarthestFirst d nodes (centers ++ [c])) : FarthestFirst d nodes centers :=
  fun before c' hpre => h before c' (hpre.trans (List.prefix_append _ _))

/-- A node that is farther than `r` from every centre is so because the centres are that far from
    each other. -/
theorem FarthestFirst.separated {nodes centers : List α} {r : D} {v : α}
    (h : FarthestFirst d nodes centers) (hsub : ∀ c ∈ centers, c ∈ nodes) (hv : v ∈ nodes)
    (hfar : r < nearest d centers v) :
    (centers ++ [v]).Pairwise fun p q => r < d p q := by
  induction centers using List.reverseRecOn generalizing v with
  | nil => exact List.pairwise_singleton _ _
  | append_singleton before c ih =>
    have hbefore : (before ++ [c]).Pairwise fun p q => r < d p q := by
      refine ih h.of_snoc (fun x hx => hsub x (List.mem_append_left _ hx)) (hsub c (by simp)) ?_
      by_cases hne : before = []
      · subst hne
        rw [nearest_nil]
        exact hfar.trans_le le_top
      · rw [nearest_snoc, lt_min_iff] at hfar
        exact hfar.1.trans_le (h before c (List.prefix_refl _) hne v hv)
    rw [List.pairwise_append]
    refine ⟨hbefore, List.pairwise_singleton _ _, fun p hp q hq => ?_⟩
    rw [List.mem_singleton.mp hq]
    exact lt_nearest hfar p hp

variable [AddCommMonoid D] [IsOrderedAddMonoid D]

/-- **Greedy centres are within twice the radius of any centres** that are no more in number. -/
theorem FarthestFirst.covers {nodes centers : List α} (h : FarthestFirst d nodes centers)
    (hsub : ∀ c ∈ centers, c ∈ nodes) (htri : ∀ s p q, d p q ≤ d s p + d s q) {S : Finset α}
    (hcard : S.card ≤ centers.length) {r : D} (hcover : ∀ v ∈ nodes, ∃ s ∈ S, d s v ≤ r) :
    ∀ v ∈ nodes, nearest d centers v ≤ r + r := by
  classical
  intro v hv
  by_contra hfar
  have hsep := h.separated hsub hv (not_le.mp hfar)
  have : Nonempty α := ⟨v⟩
  choose! site hsite hnear using hcover
  have hnodes : ∀ p ∈ centers ++ [v], p ∈ nodes := by
    intro p hp
    rcases List.mem_append.mp hp with hp | hp
    · exact hsub p hp
    · exact List.mem_singleton.mp hp ▸ hv
  -- two of them with one site would be close to each other
  have hnodup : ((centers ++ [v]).map site).Nodup := by
    rw [List.Nodup, List.pairwise_map]
    refine hsep.imp_of_mem fun {p q} hp hq hpq heq => ?_
    have hle : d p q ≤ r + r := by
      refine (htri (site p) p q).trans (add_le_add (hnear p (hnodes p hp)) ?_)
      rw [heq]
      exact hnear q (hnodes q hq)
    exact absurd hpq (not_lt.mpr hle)
  have hle : ((centers ++ [v]).map site).toFinset.card ≤ S.card := by
    refine Finset.card_le_card fun s hs => ?_
    obtain ⟨p, hp, rfl⟩ := List.mem_map.mp (List.mem_toFinset.mp hs)
    exact hsite p (hnodes p hp)
  rw [List.toFinset_card_of_nodup hnodup, List.length_map, List.length_append,
    List.length_singleton] at hle
  omega

end Lib
end CeforeEmu
