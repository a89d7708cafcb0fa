import Mathlib.Data.List.Chain
import Mathlib.Data.List.Infix
import Mathlib.Data.List.Nodup
import Mathlib.Data.List.Permutation
import Mathlib.Data.List.Sublists
import Mathlib.Data.Set.Finite.Basic
import Mathlib.Tactic.Common
import CeforeEmu.Lib.Walks

/-!
# Paths as lists of nodes

A path is the list of the nodes it comes to. `Leads` says where it starts and ends and that it
follows edges, `SimplePath` that it comes to no node twice, and `costAlong` adds up its edges.

A set of paths with one start is a tree of prefixes. A path that is not one of them leaves the tree
somewhere (`exists_leaves`): after some prefix that it shares with one of them, it takes an edge
that none of them takes there.
-/

set_option autoImplicit false

namespace CeforeEmu
namespace Lib

variable {α W : Type}

structure Leads (adj : α → α → Prop) (s t : α) (p : List α) : Prop where
  first : p.head? = some s
  last : p.getLast? = some t
  chain : p.IsChain adj

structure SimplePath (adj : α → α → Prop) (s t : α) (p : List α) : Prop extends Leads adj s t p where
  nodup : p.Nodup

variable {adj : α → α → Prop} {s t v : α} {p q r : List α}

theorem Leads.singleton (v : α) : Leads adj v v [v] := ⟨rfl, rfl, .singleton _⟩

theorem Leads.ne_nil (h : Leads adj s t p) : p ≠ [] := by
  rintro rfl
  cases h.first

theorem Leads.mem_last (h : Leads adj s t p) : t ∈ p := List.mem_of_getLast? h.last

/-- A path may be cut at any of its nodes. -/
theorem leads_split :
    Leads adj s t (r ++ v :: q) ↔ Leads adj s v (r ++ [v]) ∧ Leads adj v t (v :: q) := by
  constructor
  · intro h
    obtain ⟨hl, hr⟩ := List.isChain_split.mp h.chain
    refine ⟨⟨?_, by simp, hl⟩, ⟨rfl, ?_, hr⟩⟩
    · cases r with
      | nil => exact h.first
      | cons a r => exact h.first
    · rw [← h.last, List.getLast?_append_of_ne_nil _ (List.cons_ne_nil _ _)]
  · rintro ⟨hl, hr⟩
    refine ⟨?_, ?_, List.isChain_split.mpr ⟨hl.chain, hr.chain⟩⟩
    · cases r with
      | nil => exact hl.first
      | cons a r => exact hl.first
    · rw [List.getLast?_append_of_ne_nil _ (List.cons_ne_nil _ _), hr.last]

theorem Leads.mono {adj' : α → α → Prop} (h : Leads adj s t p) (hadj : ∀ a b, adj a b → adj' a b) :
    Leads adj' s t p :=
  ⟨h.first, h.last, h.chain.imp hadj⟩

/-- Of two simple paths to the same node, neither is the start of the other. -/
theorem SimplePath.eq_of_prefix (hp : Leads adj s t p) (hq : SimplePath adj s t q) (h : p <+: q) :
    p = q := by
  obtain ⟨rest, rfl⟩ := h
  cases rest with
  | nil => rw [List.append_nil]
  | cons a rest =>
    -- the end of the longer one would stand in it twice
    have hlast : t ∈ a :: rest := by
      have := hq.last
      rw [List.getLast?_append_of_ne_nil _ (List.cons_ne_nil _ _)] at this
      exact List.mem_of_getLast? this
    exact absurd hlast (List.disjoint_of_nodup_append hq.nodup hp.mem_last)

/-- Simple paths that come to the same few nodes are few. -/
theorem simplePath_finite (nodes : List α) (h : ∀ p, SimplePath adj s t p → p ⊆ nodes) :
    {p | SimplePath adj s t p}.Finite := by
  refine (nodes.sublists.flatMap List.permutations).finite_toSet.subset fun p hp => ?_
  obtain ⟨l, hperm, hsub⟩ := hp.nodup.subperm (h p hp)
  exact List.mem_flatMap.mpr
    ⟨l, List.mem_sublists.mpr hsub, List.mem_permutations.mpr hperm.symm⟩

/-! ## Costs -/

section Cost

variable [AddCommMonoid W] {w : α → α → W}

def costAlong (w : α → α → W) (p : List α) : W := (List.zipWith w p p.tail).sum

@[simp] theorem costAlong_singleton (v : α) : costAlong w [v] = 0 := rfl

@[simp] theorem costAlong_cons_cons (a b : α) (p : List α) :
    costAlong w (a :: b :: p) = w a b + costAlong w (b :: p) := rfl

theorem costAlong_append (w : α → α → W) (r : List α) (v : α) (q : List α) :
    costAlong w (r ++ v :: q) = costAlong w (r ++ [v]) + costAlong w (v :: q) := by
  induction r with
  | nil => rw [List.nil_append, List.nil_append, costAlong_singleton, zero_add]
  | cons a r ih =>
    cases r with
    | nil =>
      simp only [List.cons_append, List.nil_append, costAlong_cons_cons, costAlong_singleton,
        add_zero]
    | cons b r =>
      simp only [List.cons_append, costAlong_cons_cons] at ih ⊢
      rw [ih, add_assoc]

/-- A path is a walk of its cost. -/
theorem Leads.walk (h : Leads adj s t p) : Walk adj w s t (costAlong w p) := by
  induction p generalizing s with
  | nil => exact absurd rfl h.ne_nil
  | cons a p ih =>
    obtain rfl : a = s := Option.some.inj h.first
    cases p with
    | nil =>
      obtain rfl : a = t := Option.some.inj h.last
      exact .nil
    | cons b p =>
      obtain ⟨hadj, hchain⟩ := List.isChain_cons_cons.mp h.chain
      have hlast : (b :: p).getLast? = some t := by
        rw [← h.last, List.getLast?_cons_cons]
      rw [costAlong_cons_cons]
      exact (ih ⟨rfl, hlast, hchain⟩).cons hadj

end Cost

/-! ## Leaving a set of paths -/

/-- One of the paths goes on to `b` after this root. -/
def Taken (paths : List (List α)) (root : List α) (b : α) : Prop :=
  ∃ p ∈ paths, root ++ [b] <+: p

/-- The path goes on from this root where none of the paths does. -/
def Leaves (paths : List (List α)) (root q : List α) : Prop :=
  ∃ b, root ++ [b] <+: q ∧ ¬ Taken paths root b

variable {paths : List (List α)} {root : List α}

theorem Leaves.not_mem (h : Leaves paths root q) : q ∉ paths := by
  obtain ⟨b, hb, hfree⟩ := h
  exact fun hq => hfree ⟨q, hq, hb⟩

theorem Leaves.prefix (h : Leaves paths root q) : root <+: q := by
  obtain ⟨b, hb, -⟩ := h
  exact (List.prefix_append root [b]).trans hb

/-- A path that does not share a root changes nothing there. -/
theorem leaves_append {next : List α} (h : ¬ root <+: next) :
    Leaves (paths ++ [next]) root q ↔ Leaves paths root q := by
  have htaken : ∀ b, Taken (paths ++ [next]) root b ↔ Taken paths root b := by
    intro b
    constructor
    · rintro ⟨p, hp, hpre⟩
      rcases List.mem_append.mp hp with hp | hp
      · exact ⟨p, hp, hpre⟩
      · rw [List.mem_singleton.mp hp] at hpre
        exact absurd ((List.prefix_append root [b]).trans hpre) h
    · rintro ⟨p, hp, hpre⟩
      exact ⟨p, List.mem_append_left _ hp, hpre⟩
  simp only [Leaves, htaken]

/-- A root shared with some of the paths, with an edge left to go. -/
structure RootOf (paths : List (List α)) (root : List α) : Prop where
  ne_nil : root ≠ []
  shared : ∃ p ∈ paths, root <+: p ∧ root ≠ p

/-- A path does not leave at a root if it shares a longer one. -/
theorem Leaves.not_longer {root' : List α} (h : Leaves paths root q) (h' : Leaves paths root' q)
    (hroot' : RootOf paths root') (hlt : root.length < root'.length) : False := by
  obtain ⟨b, hb, hfree⟩ := h
  obtain ⟨p, hp, hpre, -⟩ := hroot'.shared
  have hlonger : root ++ [b] <+: root' := by
    refine List.prefix_of_prefix_length_le hb h'.prefix ?_
    rw [List.length_append, List.length_singleton]
    exact hlt
  exact hfree ⟨p, hp, hlonger.trans hpre⟩

/-- There is one root where a path leaves. -/
theorem Leaves.root_unique {root' : List α} (h : Leaves paths root q) (h' : Leaves paths root' q)
    (hroot : RootOf paths root) (hroot' : RootOf paths root') : root = root' := by
  rcases lt_trichotomy root.length root'.length with hlt | heq | hgt
  · exact (h.not_longer h' hroot' hlt).elim
  · exact (List.prefix_of_prefix_length_le h.prefix h'.prefix heq.le).eq_of_length heq
  · exact (h'.not_longer h hroot hgt).elim

section Simple

variable (hpaths : ∀ p ∈ paths, SimplePath adj s t p) (hq : SimplePath adj s t q) (hout : q ∉ paths)
include hpaths hq hout

/-- Going on from a root that is shared, the path comes to where it leaves. -/
theorem exists_leaves_from (rest : List α) : ∀ {root : List α}, root ≠ [] → root ++ rest = q →
    (∃ p ∈ paths, root <+: p) → ∃ root', RootOf paths root' ∧ Leaves paths root' q := by
  induction rest with
  | nil =>
    rintro root - hroot ⟨p, hp, hpre⟩
    rw [List.append_nil] at hroot
    subst hroot
    exact absurd (SimplePath.eq_of_prefix hq.toLeads (hpaths p hp) hpre ▸ hp) hout
  | cons b rest ih =>
    rintro root hne hroot ⟨p, hp, hpre⟩
    have hb : root ++ [b] ++ rest = q := by rw [List.append_assoc, List.singleton_append, hroot]
    by_cases htaken : Taken paths root b
    · exact ih (by simp) hb htaken
    · refine ⟨root, ⟨hne, p, hp, hpre, ?_⟩, b, ⟨rest, hb⟩, htaken⟩
      -- otherwise the other path would be the start of this one
      rintro rfl
      have hpq : root <+: q := ⟨b :: rest, hroot⟩
      exact hout (SimplePath.eq_of_prefix (hpaths root hp).toLeads hq hpq ▸ hp)

/-- **Every other simple path leaves the tree of the given ones.** -/
theorem exists_leaves (hne : paths ≠ []) : ∃ root, RootOf paths root ∧ Leaves paths root q := by
  obtain ⟨p, hp⟩ := List.exists_mem_of_ne_nil _ hne
  obtain ⟨rest, hrest⟩ := List.head?_eq_some_iff.mp hq.first
  obtain ⟨rest', hrest'⟩ := List.head?_eq_some_iff.mp (hpaths p hp).first
  exact exists_leaves_from hpaths hq hout rest (List.cons_ne_nil s []) hrest.symm
    ⟨p, hp, rest', hrest'.symm⟩

end Simple

end Lib
end CeforeEmu
