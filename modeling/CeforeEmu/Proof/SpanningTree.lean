import Mathlib.Combinatorics.SimpleGraph.Acyclic
import Mathlib.Combinatorics.SimpleGraph.DegreeSum
import CeforeEmu.Proof.LinkAcceptance
import CeforeEmu.Proof.MeshOptions

/-!
# When the tree of a random mesh fails

The first phase of `MeshTopo.build` is greedy, and there are degrees for which some orders of
attaching the hosts run out of budget while others do not. The order it takes, largest degree
first, never does unless it has to: the attachments it makes are the edges of a connected graph
within the budgets (`budgeted_tree_of_returns`), such a graph needs two degrees for every host but
one (`enough_of_budgetedTree`), and with these the loop returns (`treePhase_returns`).
-/

set_option autoImplicit false

namespace CeforeEmu
namespace Proof

open CeforeEmu.Lib CeforeEmu.Core CeforeEmu.Runtime

/-! ## Attachments -/

/-- The pairs of a host and its partner that the tree loop goes through. -/
def attachments : List ℕ → List ℕ → (ℕ → ℤ) → List (ℕ × ℕ)
  | [], _, _ => []
  | host :: remaining, connected, degrees =>
      match findPartner degrees connected host with
      | none => []
      | some partner =>
          (host, partner) ::
            attachments remaining (connected ++ [host]) (spend (spend degrees host) partner)

/-- How many attachments a host is part of. -/
def attached (pairs : List (ℕ × ℕ)) (h : ℕ) : ℕ := pairs.countP fun p => h = p.1 ∨ h = p.2

/-- What a run of the tree loop attaches: different hosts, each as often as it pays for, and in the
    end all of them to the ones it started with. -/
structure Attaches (connected all : List ℕ) (degrees : ℕ → ℤ) (pairs : List (ℕ × ℕ)) : Prop where
  ends : ∀ p ∈ pairs, p.1 ≠ p.2 ∧ p.1 ∈ all ∧ p.2 ∈ all
  paid : ∀ h, 0 ≤ degrees h → (attached pairs h : ℤ) ≤ degrees h
  reach : ∀ h ∈ all, ∃ root ∈ connected, Relation.ReflTransGen (Linked pairs) root h

theorem Linked.cons {α : Type} {p : α × α} {pairs : List (α × α)} {a b : α}
    (h : Linked pairs a b) : Linked (p :: pairs) a b :=
  h.imp (List.mem_cons_of_mem _) (List.mem_cons_of_mem _)

theorem attaches_of_returns (hosts : ℕ) (capacity total : ℤ) :
    ∀ (remaining connected : List ℕ) (m m' : Mesh), (connected ++ remaining).Nodup →
      spanningTree hosts capacity total remaining connected m = .ok m' →
      Attaches connected (connected ++ remaining) m.degrees
        (attachments remaining connected m.degrees) := by
  intro remaining
  induction remaining with
  | nil =>
    intro connected m m' _ _
    refine ⟨fun p hp => absurd hp List.not_mem_nil, fun h hh => hh, fun h hh => ?_⟩
    rw [List.append_nil] at hh
    exact ⟨h, hh, .refl⟩
  | cons host remaining ih =>
    intro connected m m' hnd h
    rw [spanningTree] at h
    cases hfind : findPartner m.degrees connected host with
    | none =>
      rw [hfind] at h
      cases h
    | some partner =>
      simp only [hfind] at h
      have hassoc : connected ++ [host] ++ remaining = connected ++ host :: remaining := by simp
      obtain ⟨hpartner, hdp, hdh⟩ := findPartner_spec hfind
      have hne := findPartner_ne hnd hfind
      have hrest := ih (connected ++ [host]) _ m' (hassoc ▸ hnd) h
      rw [hassoc] at hrest
      rw [attachments, hfind]
      refine ⟨fun p hp => ?_, fun x hx => ?_, fun x hx => ?_⟩
      · rcases List.mem_cons.mp hp with rfl | hp
        · exact ⟨hne, by simp, List.mem_append_left _ hpartner⟩
        · exact hrest.ends p hp
      · have hpaid := hrest.paid x
        have hspend := spend_spend m.degrees hne x
        rw [attached, List.countP_cons]
        by_cases hx₀ : x = host ∨ x = partner
        · rw [if_pos hx₀] at hspend
          have hpos : 0 < m.degrees x := by
            rcases hx₀ with rfl | rfl
            · exact hdh
            · exact hdp
          have hle := hpaid (by simp only; omega)
          rw [if_pos (decide_eq_true hx₀)]
          simp only [attached] at hle
          push_cast
          omega
        · rw [if_neg hx₀, sub_zero] at hspend
          have hle := hpaid (by simp only; omega)
          rw [if_neg (by simpa using hx₀)]
          simp only [attached] at hle
          omega
      · obtain ⟨root, hroot, hreach⟩ := hrest.reach x hx
        have hreach' := Relation.ReflTransGen.mono
          (fun a b hab => Linked.cons (p := (host, partner)) hab) _ _ hreach
        rcases List.mem_append.mp hroot with hroot | hroot
        · exact ⟨root, hroot, hreach'⟩
        · rw [List.mem_singleton.mp hroot] at hreach'
          exact ⟨partner, hpartner, .head (.inr List.mem_cons_self) hreach'⟩

/-! ## Trees within the budgets -/

/-- There is a tree on the hosts in which none has more neighbours than its degree. -/
def BudgetedTree (hosts : ℕ) (degrees : ℕ → ℤ) : Prop :=
  ∃ (T : SimpleGraph (Fin hosts)) (_ : DecidableRel T.Adj),
    T.IsTree ∧ ∀ v, (T.degree v : ℤ) ≤ degrees v

/-- A host has no more neighbours than attachments. -/
theorem degree_le_attached {hosts : ℕ} (pairs : List (ℕ × ℕ))
    [DecidableRel (linkGraph hosts pairs).Adj] (v : Fin hosts) :
    (linkGraph hosts pairs).degree v ≤ attached pairs v := by
  have hsub : ((linkGraph hosts pairs).neighborFinset v).map Fin.valEmbedding
      ⊆ ((pairs.filter fun p => v.val = p.1 ∨ v.val = p.2).map
        fun p => if v.val = p.1 then p.2 else p.1).toFinset := by
    intro x hx
    obtain ⟨u, hu, rfl⟩ := Finset.mem_map.mp hx
    rw [SimpleGraph.mem_neighborFinset] at hu
    obtain ⟨hne, hlinked⟩ := linkGraph_adj.mp hu
    have hval : v.val ≠ u.val := fun h => hne (Fin.ext h)
    rw [List.mem_toFinset, List.mem_map]
    rcases hlinked with hp | hp
    · exact ⟨_, List.mem_filter.mpr ⟨hp, by simp⟩, if_pos rfl⟩
    · exact ⟨_, List.mem_filter.mpr ⟨hp, by simp⟩, if_neg hval⟩
  calc (linkGraph hosts pairs).degree v
      = (((linkGraph hosts pairs).neighborFinset v).map Fin.valEmbedding).card := by
        rw [Finset.card_map, SimpleGraph.card_neighborFinset_eq_degree]
    _ ≤ _ := Finset.card_le_card hsub
    _ ≤ _ := List.toFinset_card_le _
    _ = attached pairs v := by rw [List.length_map, attached, List.countP_eq_length_filter]

instance {α : Type} {pairs : List (α × α)} : Std.Symm (Linked pairs) := ⟨fun _ _ h => h.symm⟩

/-- The attachments of a loop that returned hold a tree. -/
theorem budgetedTree_of_attaches {hosts : ℕ} {first : ℕ} {all : List ℕ} {degrees : ℕ → ℤ}
    {pairs : List (ℕ × ℕ)} (hall : ∀ h, h ∈ all ↔ h < hosts) (hfirst : first < hosts)
    (hpos : ∀ h < hosts, 0 ≤ degrees h) (h : Attaches [first] all degrees pairs) :
    BudgetedTree hosts degrees := by
  classical
  have hends : ∀ p ∈ pairs, p.1 ≠ p.2 ∧ p.1 < hosts ∧ p.2 < hosts := by
    intro p hp
    obtain ⟨hne, h₁, h₂⟩ := h.ends p hp
    exact ⟨hne, (hall _).mp h₁, (hall _).mp h₂⟩
  have hreach : ∀ v < hosts, Relation.ReflTransGen (Linked pairs) first v := by
    intro v hv
    obtain ⟨root, hroot, hreach⟩ := h.reach v ((hall v).mpr hv)
    rwa [List.mem_singleton.mp hroot] at hreach
  have hconn : (linkGraph hosts pairs).Connected := by
    refine (linkGraph_connected (by omega) hends).mpr fun v hv => ?_
    exact (Relation.ReflTransGen.stdSymm.symm _ _ (hreach 0 (by omega))).trans (hreach v hv)
  obtain ⟨T, hle, htree⟩ := hconn.exists_isTree_le
  refine ⟨T, inferInstance, htree, fun v => ?_⟩
  have h₁ : T.degree v ≤ (linkGraph hosts pairs).degree v := SimpleGraph.degree_le_of_le hle
  have h₂ := degree_le_attached pairs v
  have h₃ := h.paid v (hpos v v.isLt)
  omega

/-- A tree takes two degrees for every host but one. -/
theorem enough_of_budgetedTree {hosts : ℕ} {degrees : ℕ → ℤ} (h : BudgetedTree hosts degrees) :
    2 * ((hosts : ℤ) - 1) ≤ ∑ h ∈ Finset.range hosts, degrees h := by
  obtain ⟨T, _, htree, hdegree⟩ := h
  have hcard := htree.card_edgeFinset
  rw [Fintype.card_fin] at hcard
  calc 2 * ((hosts : ℤ) - 1) = 2 * (T.edgeFinset.card : ℤ) := by omega
    _ = ∑ v, (T.degree v : ℤ) := by
      rw [← Nat.cast_sum, T.sum_degrees_eq_twice_card_edges]
      push_cast
      rfl
    _ ≤ ∑ v : Fin hosts, degrees v := Finset.sum_le_sum fun v _ => hdegree v
    _ = ∑ h ∈ Finset.range hosts, degrees h := (Finset.sum_range degrees).symm

/-! ## The phase -/

section Phase

variable {σ τ : Type} {p : MeshParams} {degrees : List ℤ}

/-- A phase that returns has found a tree. -/
theorem budgeted_tree_of_returns (rng : Rng σ τ) (hlen : degrees.length = p.hosts)
    (hpos : ∀ d ∈ degrees, 1 ≤ d) {s : σ} {r : Mesh × σ} (h : treePhase rng p degrees s = .ok r) :
    BudgetedTree p.hosts fun h => degrees.getD h 0 := by
  have hperm := hostOrder_perm rng (fun h => degrees.getD h 0) p.hosts s
  rw [treePhase] at h
  split at h
  · cases h
  · simp only at h
    cases horder : byDegree (fun h => degrees.getD h 0) (rng.shuffle (List.range p.hosts) s).1 with
    | nil =>
      rw [horder] at h
      cases h
    | cons first remaining =>
      rw [horder] at h hperm
      simp only at h
      have hall : ∀ x, x ∈ first :: remaining ↔ x < p.hosts := by
        intro x
        rw [hperm.mem_iff, List.mem_range]
      cases hloop : spanningTree p.hosts p.switchCapacity degrees.sum remaining [first]
          ⟨fun h => degrees.getD h 0, []⟩ with
      | error err =>
        rw [hloop] at h
        cases h
      | ok m =>
        have hattaches := attaches_of_returns _ _ _ remaining [first] _ m
          (hperm.nodup_iff.mpr List.nodup_range) hloop
        refine budgetedTree_of_attaches hall ((hall first).mp List.mem_cons_self) (fun x hx => ?_)
          hattaches
        exact zero_le_one.trans (hpos _ (getD_mem hlen hx))

/-- The phase returns, or says that the tree has failed. -/
theorem treePhase_returns_or_fails (rng : Rng σ τ) (hhosts : 1 ≤ p.hosts)
    (hpos : ∀ d ∈ degrees, 1 ≤ d) (s : σ) : (∃ r, treePhase rng p degrees s = .ok r) ∨
      ∃ text, treePhase rng p degrees s = .error (.valueError
        ("failed to build spanning tree: degree budget exhausted " ++ text)) := by
  obtain ⟨first, remaining, horder, -⟩ := exists_hostOrder rng (fun h => degrees.getD h 0) hhosts s
  rw [treePhase, if_neg (degrees_checked hpos)]
  simp only [horder]
  cases hloop : spanningTree p.hosts p.switchCapacity degrees.sum remaining [first]
      ⟨fun h => degrees.getD h 0, []⟩ with
  | error err =>
    obtain ⟨text, rfl⟩ := spanningTree_error hloop
    exact .inr ⟨text, rfl⟩
  | ok m => exact .inl ⟨_, rfl⟩

/-- Without hosts there is no first one, and it is not the tree that fails. -/
theorem treePhase_no_hosts (rng : Rng σ τ) (hhosts : p.hosts = 0) (hpos : ∀ d ∈ degrees, 1 ≤ d)
    (s : σ) : treePhase rng p degrees s = .error (.indexError "list index out of range") := by
  have hperm := hostOrder_perm rng (fun h => degrees.getD h 0) p.hosts s
  rw [hhosts, List.range_zero, List.perm_nil] at hperm
  rw [treePhase, if_neg (degrees_checked hpos), hhosts, List.range_zero]
  simp only [hperm]

/-- **The tree fails only when it must.** For every list of degrees of at least 1, every generator
    and so every shuffle, and every capacity of the switches, the first phase raises iff the degrees
    are less than two for every host but one, and that is iff no tree is within them. -/
theorem tree_fails_iff (rng : Rng σ τ) (hlen : degrees.length = p.hosts)
    (hpos : ∀ d ∈ degrees, 1 ≤ d) (s : σ) :
    ((∃ text, treePhase rng p degrees s = .error (.valueError
        ("failed to build spanning tree: degree budget exhausted " ++ text))) ↔
      degrees.sum < 2 * ((p.hosts : ℤ) - 1)) ∧
    (0 < p.hosts → (degrees.sum < 2 * ((p.hosts : ℤ) - 1) ↔
      ¬ BudgetedTree p.hosts fun h => degrees.getD h 0)) := by
  rcases Nat.eq_zero_or_pos p.hosts with hzero | hhosts
  · refine ⟨iff_of_false ?_ ?_, fun hhosts => absurd hhosts (by omega)⟩
    · rintro ⟨text, herr⟩
      rw [treePhase_no_hosts rng hzero hpos s] at herr
      cases herr
    · rw [List.length_eq_zero_iff.mp (hlen.trans hzero), List.sum_nil, hzero]
      decide
  have henough : BudgetedTree p.hosts (fun h => degrees.getD h 0) →
      2 * ((p.hosts : ℤ) - 1) ≤ degrees.sum := by
    intro htree
    have hsum := enough_of_budgetedTree htree
    rwa [← hlen, sum_getD, hlen] at hsum
  have hreturns : 2 * ((p.hosts : ℤ) - 1) ≤ degrees.sum → ∃ r, treePhase rng p degrees s = .ok r :=
    fun h => treePhase_returns rng hhosts hlen hpos h s
  have htree : (∃ r, treePhase rng p degrees s = .ok r) →
      BudgetedTree p.hosts fun h => degrees.getD h 0 :=
    fun ⟨r, hr⟩ => budgeted_tree_of_returns rng hlen hpos hr
  refine ⟨⟨fun ⟨text, herr⟩ => ?_, fun hfew => ?_⟩, fun _ => ⟨fun hfew h => ?_, fun hnone => ?_⟩⟩
  · by_contra hmany
    obtain ⟨r, hr⟩ := hreturns (not_lt.mp hmany)
    rw [hr] at herr
    cases herr
  · rcases treePhase_returns_or_fails rng hhosts hpos s with hr | herr
    · exact absurd hfew (not_lt.mpr (henough (htree hr)))
    · exact herr
  · exact absurd hfew (not_lt.mpr (henough h))
  · by_contra hmany
    exact hnone (htree (hreturns (not_lt.mp hmany)))

end Phase

/-- Three hosts with one degree each are one degree short. -/
theorem tree_fails_iff_short : (∃ text, treePhase sparing { hosts := 3 } [1, 1, 1] 0 = .error (.valueError
    ("failed to build spanning tree: degree budget exhausted " ++ text))) ∧
      ¬ BudgetedTree 3 fun h => [1, 1, 1].getD h 0 := by
  obtain ⟨hfails, htree⟩ := tree_fails_iff sparing (p := { hosts := 3 })
    (show [1, 1, 1].length = 3 from rfl) (by decide) 0
  exact ⟨hfails.mpr (by decide), (htree (by decide)).mp (by decide)⟩

end Proof
end CeforeEmu
