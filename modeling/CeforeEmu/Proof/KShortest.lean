import CeforeEmu.Lib.Ranks
import CeforeEmu.Proof.ShortestPath

/-!
# `k_shortest_paths`

The accepted paths share prefixes, and every other simple path leaves the tree they form at some
root. The search from the end of a root, without the edges the accepted paths take there and
without the nodes before it, is for the cheapest path that leaves at this root (`spurPath_spec`).

The invariant of the main loop is that for every root of an accepted path, except those of the last
one, which the next turn is for, a candidate that leaves there costs no more than any path that does
(`CoveredAt`). A candidate that leaves at a root is not accepted, so dropping an accepted one from the
candidates does no harm; accepting one changes the roots it shares only, and these are the next
turn's. So the cheapest candidate costs no more than any simple path that is not accepted.

A turn that finds its cheapest candidate accepted already adds no path, and the loop has no turn to
spare for it (`enough_paths_iff`).
-/

set_option autoImplicit false

namespace CeforeEmu
namespace Proof

open CeforeEmu.Lib CeforeEmu.Core

variable {α W : Type}

/-! ## Roots and candidates -/

theorem roots_nodup (previous : List α) : (roots previous).Nodup := by
  refine List.Nodup.map_on (fun i hi j hj h => ?_) List.nodup_range
  have hlen := congrArg List.length h
  rw [List.mem_range] at hi hj
  rw [List.length_take, List.length_take] at hlen
  omega

theorem mem_roots {root previous : List α} :
    root ∈ roots previous ↔ root ≠ [] ∧ root <+: previous ∧ root ≠ previous := by
  simp only [roots, List.mem_map, List.mem_range]
  constructor
  · rintro ⟨i, hi, rfl⟩
    refine ⟨?_, List.take_prefix _ _, ?_⟩
    · rw [ne_eq, List.take_eq_nil_iff]
      rintro (h | rfl)
      · omega
      · rw [List.length_nil] at hi
        omega
    · intro h
      have := congrArg List.length h
      rw [List.length_take] at this
      omega
  · rintro ⟨hne, hpre, hproper⟩
    have hpos := List.length_pos_of_ne_nil hne
    have hlt : root.length < previous.length :=
      lt_of_le_of_ne hpre.length_le fun h => hproper (hpre.eq_of_length h)
    refine ⟨root.length - 1, by omega, ?_⟩
    rw [Nat.sub_add_cancel hpos]
    exact (List.prefix_iff_eq_take.mp hpre).symm

variable [LinearOrder α]

section Cheapest

variable [AddCommMonoid W] [LinearOrder W] {w : α → α → W} {candidates : List (List α)}

theorem sortCandidates_perm : (sortCandidates w candidates).Perm candidates :=
  List.perm_insertionSort _ _

theorem sortCandidates_head {next : List α} {rest : List (List α)}
    (h : sortCandidates w candidates = next :: rest) :
    ∀ c ∈ candidates, costAlong w next ≤ costAlong w c := by
  have hsorted : (sortCandidates w candidates).Pairwise fun p q =>
      toLex (pathCost w p, p) ≤ toLex (pathCost w q, q) := List.pairwise_insertionSort _ _
  rw [h] at hsorted
  intro c hc
  rw [← (sortCandidates_perm (w := w)).mem_iff, h] at hc
  rcases List.mem_cons.mp hc with rfl | hc
  · exact le_refl _
  · have hle := (List.pairwise_cons.mp hsorted).1 c hc
    rw [Prod.Lex.toLex_le_toLex] at hle
    exact hle.elim le_of_lt fun h => h.1.le

end Cheapest

/-! ## The edges that are banned -/

theorem bannedAfter_spec {r : List α} {v : α} {paths : List (List α)}
    (hpaths : ∀ p ∈ paths, r ++ [v] ≠ p) :
    ∃ edges, bannedAfter (r ++ [v]) paths = .ok edges ∧
      ∀ a b, (a, b) ∈ edges ↔ a = v ∧ Taken paths (r ++ [v]) b := by
  induction paths with
  | nil =>
    refine ⟨[], rfl, fun a b => ⟨fun h => (by cases h), ?_⟩⟩
    rintro ⟨-, p, hp, -⟩
    cases hp
  | cons p paths ih =>
    obtain ⟨edges, hedges, hmem⟩ := ih fun q hq => hpaths q (List.mem_cons_of_mem _ hq)
    have htaken : ∀ b, Taken (p :: paths) (r ++ [v]) b ↔
        (r ++ [v] ++ [b] <+: p) ∨ Taken paths (r ++ [v]) b := by
      intro b
      simp only [Taken, List.exists_mem_cons_iff]
    rw [bannedAfter, hedges]
    simp only
    by_cases hpre : r ++ [v] <+: p
    · rw [if_pos (List.prefix_iff_eq_take.mp hpre).symm]
      obtain ⟨rest, rfl⟩ := hpre
      cases rest with
      | nil => exact absurd (List.append_nil _).symm (hpaths _ List.mem_cons_self)
      | cons b rest =>
        have hlast : (r ++ [v] ++ b :: rest)[(r ++ [v]).length - 1]? = some v := by simp
        have hnext : (r ++ [v] ++ b :: rest)[(r ++ [v]).length]? = some b := by simp
        rw [hlast, hnext]
        refine ⟨_, rfl, fun x y => ?_⟩
        rw [List.mem_cons, Prod.mk.injEq, hmem, htaken, List.prefix_append_right_inj,
          List.singleton_prefix_cons_iff]
        tauto
    · rw [if_neg fun h => hpre (List.prefix_iff_eq_take.mpr h.symm)]
      refine ⟨edges, rfl, fun x y => ?_⟩
      have hnot : ¬ r ++ [v] ++ [y] <+: p := fun h => hpre ((List.prefix_append _ _).trans h)
      rw [hmem, htaken]
      tauto

/-! ## The path that leaves at a root -/

section Spur

variable {graph : Graph α} {s t v : α} {r q : List α} {paths : List (List α)}
  {edges : List (α × α)}

/-- After a root, a path that leaves there takes allowed edges only. -/
theorem leaves_allowed (hedges : ∀ a b, (a, b) ∈ edges ↔ a = v ∧ Taken paths (r ++ [v]) b)
    (hq : SimplePath (EdgeOf graph) s t q) (hleaves : Leaves paths (r ++ [v]) q) :
    ∃ q', q = r ++ v :: q' ∧ SimplePath (AllowedEdge graph edges r t) v t (v :: q') := by
  obtain ⟨b, ⟨rest, rfl⟩, hfree⟩ := hleaves
  simp only [List.append_assoc, List.cons_append, List.nil_append] at hq ⊢
  obtain ⟨-, hleads⟩ := leads_split.mp hq.toLeads
  obtain ⟨-, hnodup, hdisjoint⟩ := List.nodup_append.mp hq.nodup
  refine ⟨b :: rest, rfl, ⟨hleads.first, hleads.last, ?_⟩, hnodup⟩
  rw [List.isChain_iff_forall_rel_of_append_cons_cons]
  intro x y l₁ l₂ heq
  have hedge : EdgeOf graph x y :=
    List.isChain_iff_forall_rel_of_append_cons_cons.mp hleads.chain heq
  -- the root's last node is the first here, and comes again nowhere
  have hy : y ≠ v := by
    rintro rfl
    rw [heq] at hnodup
    cases l₁ with
    | nil =>
      rw [List.nil_append, List.cons.injEq] at heq
      rw [List.nil_append, ← heq.1] at hnodup
      exact (List.nodup_cons.mp hnodup).1 List.mem_cons_self
    | cons a l₁ =>
      rw [List.cons_append, List.cons.injEq] at heq
      rw [List.cons_append, ← heq.1] at hnodup
      exact (List.nodup_cons.mp hnodup).1 (by simp)
  have hx : x = v → y = b := by
    rintro rfl
    cases l₁ with
    | nil =>
      rw [List.nil_append, List.cons.injEq, List.cons.injEq] at heq
      exact heq.2.1.symm
    | cons a l₁ =>
      rw [List.cons_append, List.cons.injEq] at heq
      rw [heq.2] at hnodup
      exact absurd (by simp) (List.nodup_cons.mp hnodup).1
  have hmem : y ∈ v :: b :: rest := by
    rw [heq]
    simp
  refine ⟨hedge, ?_⟩
  rw [allowed, edgeBanned, decide_eq_true_iff, decide_eq_true_iff, hedges, hedges]
  refine ⟨?_, fun hyr => absurd rfl (hdisjoint y hyr.1 y hmem)⟩
  rintro (⟨hxv, htaken⟩ | ⟨hyv, -⟩)
  · exact hfree (hx hxv ▸ htaken)
  · exact hy hyv

/-- A way from the end of a root along allowed edges makes a path that leaves there. -/
theorem allowed_leaves (hedges : ∀ a b, (a, b) ∈ edges ↔ a = v ∧ Taken paths (r ++ [v]) b)
    (hroot : SimplePath (EdgeOf graph) s v (r ++ [v])) (ht : t ∉ r ++ [v])
    (hq : SimplePath (AllowedEdge graph edges r t) v t q) :
    SimplePath (EdgeOf graph) s t (r ++ q) ∧ Leaves paths (r ++ [v]) (r ++ q) := by
  obtain ⟨q', rfl⟩ := List.head?_eq_some_iff.mp hq.first
  have htr : t ∉ r := fun h => ht (List.mem_append_left _ h)
  have hnot : ∀ x ∈ q', x ∉ r := by
    intro x hx hxr
    obtain ⟨l₁, l₂, heq⟩ := List.append_of_mem hx
    have hchain := hq.chain
    rw [heq, ← List.cons_append] at hchain
    have hlast : ∃ a, AllowedEdge graph edges r t a x :=
      ⟨_, hchain.rel_getLast_head_of_append (List.cons_ne_nil _ _) (List.cons_ne_nil _ _)⟩
    obtain ⟨a, -, hallowed⟩ := hlast
    simp only [allowed, decide_eq_true_eq, not_and, not_not] at hallowed
    exact htr (hallowed.2 hxr ▸ hxr)
  obtain ⟨hr, -, hrv⟩ := List.nodup_append.mp hroot.nodup
  refine ⟨⟨leads_split.mpr ⟨hroot.toLeads, hq.toLeads.mono fun a b h => h.1⟩, ?_⟩, ?_⟩
  · refine List.nodup_append.mpr ⟨hr, hq.nodup, fun a ha b hb => ?_⟩
    rcases List.mem_cons.mp hb with rfl | hb
    · exact hrv a ha b List.mem_cons_self
    · rintro rfl
      exact hnot a hb ha
  · cases q' with
    | nil =>
      obtain rfl : v = t := Option.some.inj hq.last
      exact absurd (List.mem_append_right _ List.mem_cons_self) ht
    | cons b q' =>
      refine ⟨b, ⟨q', by simp⟩, fun htaken => ?_⟩
      have hallowed := (List.isChain_cons_cons.mp hq.chain).1.2
      simp only [allowed, edgeBanned, decide_eq_true_eq, not_or] at hallowed
      exact hallowed.1.1 ((hedges v b).mpr ⟨rfl, htaken⟩)

end Spur

variable [AddCommMonoid W] [LinearOrder W] [IsOrderedAddMonoid W] [ToString α]

section Yen

variable {graph : Graph α} {w : α → α → W} {s t : α}

/-- What the search from a root returns. -/
def CheapestLeaving (graph : Graph α) (w : α → α → W) (s t : α) (paths : List (List α))
    (root : List α) : Option (List α) → Prop
  | none => ∀ q, SimplePath (EdgeOf graph) s t q → ¬ Leaves paths root q
  | some c => SimplePath (EdgeOf graph) s t c ∧ Leaves paths root c ∧
      ∀ q, SimplePath (EdgeOf graph) s t q → Leaves paths root q → costAlong w c ≤ costAlong w q

/-- What is left to search from a root stands among the candidates: some that leaves there, and
    costs no more than any path that does. -/
def CoveredAt (graph : Graph α) (w : α → α → W) (s t : α) (paths candidates : List (List α))
    (root : List α) : Prop :=
  ∀ q, SimplePath (EdgeOf graph) s t q → Leaves paths root q →
    ∃ c ∈ candidates, Leaves paths root c ∧ costAlong w c ≤ costAlong w q

omit [IsOrderedAddMonoid W] [ToString α] in
theorem CoveredAt.mono {paths candidates candidates' : List (List α)} {root : List α}
    (h : CoveredAt graph w s t paths candidates root)
    (hsub : ∀ c ∈ candidates, Leaves paths root c → c ∈ candidates') :
    CoveredAt graph w s t paths candidates' root := by
  intro q hq hleaves
  obtain ⟨c, hc, hcleaves, hle⟩ := h q hq hleaves
  exact ⟨c, hsub c hc hcleaves, hcleaves, hle⟩

section Search

variable (hw : ∀ a b, 0 ≤ w a b) (hgraph : ClosedGraph graph) {paths : List (List α)}
  (hpaths : ∀ p ∈ paths, SimplePath (EdgeOf graph) s t p)
include hw hgraph hpaths

/-- **The spur path** is a cheapest of the paths that leave at the root. -/
theorem spurPath_spec {root : List α} (hroot : RootOf paths root) :
    ∃ found, spurPath graph t w paths root = .ok found ∧
      CheapestLeaving graph w s t paths root found := by
  obtain ⟨r, v, rfl⟩ := (List.eq_nil_or_concat' root).resolve_left hroot.ne_nil
  obtain ⟨p, hp, ⟨rest, rfl⟩, hne⟩ := hroot.shared
  -- the path that shares the root goes on from its end, and ends later
  have hsimple := hpaths _ hp
  cases rest with
  | nil => exact absurd (List.append_nil _).symm hne
  | cons b rest =>
  have hassoc : r ++ [v] ++ b :: rest = r ++ v :: b :: rest := by
    rw [List.append_assoc, List.singleton_append]
  have hnodup := hsimple.nodup
  obtain ⟨hleads, hleads'⟩ := leads_split.mp (hassoc ▸ hsimple.toLeads)
  have hlast : t ∈ b :: rest := by
    have := hleads'.last
    rw [List.getLast?_cons_cons] at this
    exact List.mem_of_getLast? this
  have ht : t ∉ r ++ [v] := fun h => List.disjoint_of_nodup_append hnodup h hlast
  have hnode : (graph.get? v).isSome := by
    obtain ⟨nbrs, hnbrs, -⟩ := (List.isChain_cons_cons.mp hleads'.chain).1
    rw [hnbrs]
    rfl
  have hrootPath : SimplePath (EdgeOf graph) s v (r ++ [v]) :=
    ⟨hleads, (List.nodup_append.mp hnodup).1⟩
  have hother : ∀ q ∈ paths, r ++ [v] ≠ q := by
    rintro q hq rfl
    exact ht (hpaths _ hq).mem_last
  obtain ⟨edges, hedges, hbanned⟩ := bannedAfter_spec hother
  have hsearch : ∃ found, shortestPath graph v t edges r w = .ok found ∧
      CheapestPath (AllowedEdge graph edges r t) w v t found :=
    shortestPath_spec hw hgraph fun _ => hnode
  obtain ⟨found, hfound, hcheapest⟩ := hsearch
  have hcost : ∀ q, costAlong w (r ++ v :: q) = costAlong w (r ++ [v]) + costAlong w (v :: q) :=
    costAlong_append w r v
  rw [spurPath, List.getLast?_concat, hedges, List.dropLast_concat]
  simp only [hfound]
  cases found with
  | none =>
    refine ⟨_, rfl, fun q hq hleaves => ?_⟩
    obtain ⟨q', -, hq'⟩ := leaves_allowed hbanned hq hleaves
    exact hcheapest _ hq'.toLeads.walk
  | some spur =>
    obtain ⟨hspur, hleast⟩ := hcheapest
    obtain ⟨hpath, hleaves⟩ := allowed_leaves hbanned hrootPath ht hspur
    refine ⟨_, rfl, hpath, hleaves, fun q hq hqleaves => ?_⟩
    obtain ⟨q', rfl, hq'⟩ := leaves_allowed hbanned hq hqleaves
    obtain ⟨spur', rfl⟩ := List.head?_eq_some_iff.mp hspur.first
    rw [hcost spur', hcost q']
    exact add_le_add_right (hleast _ hq'.toLeads.walk) _

/-- The paths that are found leave at different roots. -/
theorem spurPaths_spec (roots : List (List α)) (hroots : ∀ root ∈ roots, RootOf paths root)
    (hnodup : roots.Nodup) :
    ∃ found, spurPaths graph t w paths roots = .ok found ∧
      (∀ c ∈ found, SimplePath (EdgeOf graph) s t c) ∧
      (∀ c ∈ found, ∃ root ∈ roots, Leaves paths root c) ∧ found.Nodup ∧
      ∀ root ∈ roots, CoveredAt graph w s t paths found root := by
  induction roots with
  | nil =>
    exact ⟨[], rfl, fun c hc => (by cases hc), fun c hc => (by cases hc), List.nodup_nil,
      fun root hroot => (by cases hroot)⟩
  | cons root roots ih =>
    obtain ⟨hroot, hnodup⟩ := List.nodup_cons.mp hnodup
    have hrootOf := hroots root List.mem_cons_self
    obtain ⟨found, hfound, hcheapest⟩ := spurPath_spec hw hgraph hpaths hrootOf
    obtain ⟨rest, hrest, hsimple, hleaves, hdistinct, hcovered⟩ :=
      ih (fun r hr => hroots r (List.mem_cons_of_mem _ hr)) hnodup
    refine ⟨found.toList ++ rest, by simp only [spurPaths, hfound, hrest], ?_, ?_, ?_, ?_⟩
    · intro c hc
      rcases List.mem_append.mp hc with hc | hc
      · rw [Option.mem_toList] at hc
        subst hc
        exact hcheapest.1
      · exact hsimple c hc
    · intro c hc
      rcases List.mem_append.mp hc with hc | hc
      · rw [Option.mem_toList] at hc
        subst hc
        exact ⟨root, List.mem_cons_self, hcheapest.2.1⟩
      · obtain ⟨r, hr, hrleaves⟩ := hleaves c hc
        exact ⟨r, List.mem_cons_of_mem _ hr, hrleaves⟩
    · cases found with
      | none => exact hdistinct
      | some c =>
        refine List.nodup_cons.mpr ⟨fun hc => ?_, hdistinct⟩
        -- it would leave at one of the other roots too
        obtain ⟨r, hr, hrleaves⟩ := hleaves c hc
        have hsame : root = r := hcheapest.2.1.root_unique hrleaves hrootOf
          (hroots r (List.mem_cons_of_mem _ hr))
        exact hroot (hsame ▸ hr)
    · intro r hr
      rcases List.mem_cons.mp hr with rfl | hr
      · intro q hq hleaves
        cases found with
        | none => exact absurd hleaves (hcheapest q hq)
        | some c => exact ⟨c, by simp, hcheapest.2.1, hcheapest.2.2 q hq hleaves⟩
      · exact (hcovered r hr).mono fun c hc _ => List.mem_append_right _ hc

end Search

/-! ## One turn -/

/-- **The invariant** of the main loop. -/
structure AcceptedPaths (graph : Graph α) (w : α → α → W) (s t : α) (st : Yen α) : Prop where
  some : st.paths ≠ []
  simple : ∀ p ∈ st.paths, SimplePath (EdgeOf graph) s t p
  nodup : st.paths.Nodup
  ordered : st.paths.Pairwise fun p q => costAlong w p ≤ costAlong w q
  least : ∀ p ∈ st.paths, ∀ q, SimplePath (EdgeOf graph) s t q → q ∉ st.paths →
    costAlong w p ≤ costAlong w q
  candidate : ∀ c ∈ st.candidates, SimplePath (EdgeOf graph) s t c
  covered : ∀ root, RootOf st.paths root → root ∉ roots (st.paths.getLastD []) →
    CoveredAt graph w s t st.paths st.candidates root

/-- What a turn of the main loop comes to. -/
def Turned (graph : Graph α) (w : α → α → W) (s t : α) (st : Yen α) : Option (Yen α) → Prop
  | none => ∀ q, SimplePath (EdgeOf graph) s t q → q ∈ st.paths
  | some st' => AcceptedPaths graph w s t st'

section Turn

variable (hw : ∀ a b, 0 ≤ w a b) (hgraph : ClosedGraph graph) {st : Yen α}
  (h : AcceptedPaths graph w s t st)
include hw hgraph h

/-- With the paths that leave at its roots, the last accepted path is covered like the others. -/
theorem covered_all : ∃ found,
    spurPaths graph t w st.paths (roots (st.paths.getLastD [])) = .ok found ∧
      (∀ c ∈ st.candidates ++ found, SimplePath (EdgeOf graph) s t c) ∧
      (∀ c ∈ found, c ∉ st.paths) ∧ found.Nodup ∧
      ∀ root, RootOf st.paths root → CoveredAt graph w s t st.paths (st.candidates ++ found) root := by
  have hlast : st.paths.getLastD [] ∈ st.paths := by
    rw [List.getLastD_eq_getLast?, List.getLast?_eq_some_getLast h.some]
    exact List.getLast_mem h.some
  have hroots : ∀ root ∈ roots (st.paths.getLastD []), RootOf st.paths root := by
    intro root hroot
    obtain ⟨hne, hpre, hproper⟩ := mem_roots.mp hroot
    exact ⟨hne, _, hlast, hpre, hproper⟩
  obtain ⟨found, hfound, hsimple, hleaves, hnodup, hcovered⟩ := spurPaths_spec hw hgraph h.simple
    (roots (st.paths.getLastD [])) hroots (roots_nodup _)
  refine ⟨found, hfound, fun c hc => ?_, fun c hc => ?_, hnodup, fun root hroot => ?_⟩
  · exact (List.mem_append.mp hc).elim (h.candidate c) (hsimple c)
  · obtain ⟨root, -, hroot⟩ := hleaves c hc
    exact hroot.not_mem
  · by_cases hmem : root ∈ roots (st.paths.getLastD [])
    · exact (hcovered root hmem).mono fun c hc _ => List.mem_append_right _ hc
    · exact (h.covered root hroot hmem).mono fun c hc _ => List.mem_append_left _ hc

/-- **One turn** finds that every simple path is accepted, or keeps the invariant. -/
theorem yenRound_spec : ∃ turn, yenRound graph t w st = .ok turn ∧ Turned graph w s t st turn := by
  obtain ⟨found, hfound, hsimple, -, -, hcovered⟩ := covered_all hw hgraph h
  have hleaves : ∀ q, SimplePath (EdgeOf graph) s t q → q ∉ st.paths →
      ∃ c ∈ st.candidates ++ found, costAlong w c ≤ costAlong w q := by
    intro q hq hout
    obtain ⟨root, hroot, hqleaves⟩ := exists_leaves h.simple hq hout h.some
    obtain ⟨c, hc, -, hle⟩ := hcovered root hroot q hq hqleaves
    exact ⟨c, hc, hle⟩
  rw [yenRound, hfound]
  simp only
  cases hsort : sortCandidates w (st.candidates ++ found) with
  | nil =>
    have hnil : st.candidates ++ found = [] := (hsort ▸ sortCandidates_perm).nil_eq.symm
    refine ⟨_, rfl, fun q hq => ?_⟩
    by_contra hout
    obtain ⟨c, hc, -⟩ := hleaves q hq hout
    rw [hnil] at hc
    cases hc
  | cons next rest =>
    have hperm : (next :: rest).Perm (st.candidates ++ found) := hsort ▸ sortCandidates_perm
    have hnext : SimplePath (EdgeOf graph) s t next :=
      hsimple next (hperm.mem_iff.mp List.mem_cons_self)
    have hrest : ∀ c ∈ rest, SimplePath (EdgeOf graph) s t c :=
      fun c hc => hsimple c (hperm.mem_iff.mp (List.mem_cons_of_mem _ hc))
    -- a candidate that leaves somewhere is dropped only if it is the cheapest
    have hkeep : ∀ root, RootOf st.paths root → (∀ c, Leaves st.paths root c → c ≠ next) →
        CoveredAt graph w s t st.paths rest root := by
      intro root hroot hother
      refine (hcovered root hroot).mono fun c hc hcleaves => ?_
      exact (List.mem_cons.mp (hperm.mem_iff.mpr hc)).resolve_left (hother c hcleaves)
    simp only
    by_cases hmem : next ∈ st.paths
    · rw [if_pos hmem]
      refine ⟨_, rfl, ⟨h.some, h.simple, h.nodup, h.ordered, h.least, hrest, ?_⟩⟩
      intro root hroot _
      refine hkeep root hroot ?_
      rintro c hcleaves rfl
      exact hcleaves.not_mem hmem
    · rw [if_neg hmem]
      have hleast : ∀ q, SimplePath (EdgeOf graph) s t q → q ∉ st.paths →
          costAlong w next ≤ costAlong w q := by
        intro q hq hout
        obtain ⟨c, hc, hle⟩ := hleaves q hq hout
        exact (sortCandidates_head hsort c hc).trans hle
      refine ⟨_, rfl, ⟨?_, ?_, ?_, ?_, ?_, hrest, ?_⟩⟩
      · exact List.append_ne_nil_of_right_ne_nil _ (List.cons_ne_nil _ _)
      · intro p hp
        rcases List.mem_append.mp hp with hp | hp
        · exact h.simple p hp
        · exact List.mem_singleton.mp hp ▸ hnext
      · refine List.nodup_append.mpr ⟨h.nodup, List.nodup_singleton _, fun p hp q hq => ?_⟩
        rw [List.mem_singleton.mp hq]
        exact fun heq => hmem (heq ▸ hp)
      · refine List.pairwise_append.mpr ⟨h.ordered, List.pairwise_singleton _ _, ?_⟩
        intro p hp q hq
        exact List.mem_singleton.mp hq ▸ h.least p hp next hnext hmem
      · intro p hp q hq hout
        have hout' : q ∉ st.paths := fun hq => hout (List.mem_append_left _ hq)
        rcases List.mem_append.mp hp with hp | hp
        · exact h.least p hp q hq hout'
        · exact List.mem_singleton.mp hp ▸ hleast q hq hout'
      · intro root hroot hnew
        rw [List.getLastD_concat, mem_roots] at hnew
        obtain ⟨p, hp, hpre, hproper⟩ := hroot.shared
        have hold : p ∈ st.paths := by
          rcases List.mem_append.mp hp with hp | hp
          · exact hp
          · rw [List.mem_singleton.mp hp] at hpre hproper
            exact absurd ⟨hroot.ne_nil, hpre, hproper⟩ hnew
        have hapart : ¬ root <+: next := by
          intro hpre'
          by_cases heq : root = next
          · -- an accepted path would go on where this one ends
            have hsame := SimplePath.eq_of_prefix hnext.toLeads (h.simple p hold) (heq ▸ hpre)
            exact hproper (heq.trans hsame)
          · exact hnew ⟨hroot.ne_nil, hpre', heq⟩
        have hleaves' : ∀ q, Leaves (st.paths ++ [next]) root q ↔ Leaves st.paths root q :=
          fun q => leaves_append hapart
        intro q hq hqleaves
        obtain ⟨c, hc, hcleaves, hle⟩ := hkeep root ⟨hroot.ne_nil, p, hold, hpre, hproper⟩
          (fun c hcleaves heq => hapart (heq ▸ hcleaves.prefix)) q hq ((hleaves' q).mp hqleaves)
        exact ⟨c, hc, (hleaves' c).mpr hcleaves, hle⟩

end Turn

/-! ## The loop -/

attribute [local instance] Graph.lawfulBEq_path in
/-- The turn finds that its cheapest candidate was accepted before. -/
def cheapestAccepted (graph : Graph α) (t : α) (w : α → α → W) (st : Yen α) : Bool :=
  match spurPaths graph t w st.paths (roots (st.paths.getLastD [])) with
  | .error _ => false
  | .ok found =>
      match sortCandidates w (st.candidates ++ found) with
      | [] => false
      | next :: _ => next ∈ st.paths

/-- How many of the loop's turns do. -/
def wastedTurns (graph : Graph α) (t : α) (w : α → α → W) : ℕ → Yen α → ℕ
  | 0, _ => 0
  | n + 1, st =>
      match yenRound graph t w st with
      | .ok (some st') =>
          (if cheapestAccepted graph t w st then 1 else 0) + wastedTurns graph t w n st'
      | _ => 0

omit [IsOrderedAddMonoid W] in
/-- A turn accepts a path, or is wasted. -/
theorem yenRound_length {st st' : Yen α} (h : yenRound graph t w st = .ok (some st')) :
    st'.paths.length + (if cheapestAccepted graph t w st then 1 else 0) = st.paths.length + 1 := by
  rw [yenRound] at h
  split at h
  · cases h
  · rename_i found hfound
    split at h
    · cases h
    · rename_i next rest hsort
      cases h
      have hcheapest : cheapestAccepted graph t w st = decide (next ∈ st.paths) := by
        simp only [cheapestAccepted, hfound, hsort]
      rw [hcheapest]
      by_cases hmem : next ∈ st.paths <;> simp [hmem]

variable (hw : ∀ a b, 0 ≤ w a b) (hgraph : ClosedGraph graph)
include hw hgraph

/-- **The loop** keeps the invariant, and each of its turns accepts a path or is wasted, unless
    there is none left to accept. -/
theorem yenLoop_spec (n : ℕ) : ∀ {st : Yen α}, AcceptedPaths graph w s t st →
    ∃ st', yenLoop graph t w n st = .ok st' ∧ AcceptedPaths graph w s t st' ∧
      st'.paths.length + wastedTurns graph t w n st ≤ st.paths.length + n ∧
      (st'.paths.length + wastedTurns graph t w n st < st.paths.length + n →
        ∀ q, SimplePath (EdgeOf graph) s t q → q ∈ st'.paths) := by
  induction n with
  | zero =>
    intro st h
    refine ⟨st, rfl, h, le_refl _, fun hlt => ?_⟩
    exact absurd hlt (lt_irrefl _)
  | succ n ih =>
    intro st h
    obtain ⟨turn, hturn, hturned⟩ := yenRound_spec hw hgraph h
    cases turn with
    | none =>
      refine ⟨st, by simp only [yenLoop, hturn], h, ?_, fun _ => hturned⟩
      simp only [wastedTurns, hturn]
      omega
    | some st₁ =>
      obtain ⟨st', hst', haccepted, hle, hall⟩ := ih hturned
      have hlen := yenRound_length hturn
      refine ⟨st', by simp only [yenLoop, hturn, hst'], haccepted, ?_, fun hlt => hall ?_⟩
      · simp only [wastedTurns, hturn]
        omega
      · simp only [wastedTurns, hturn] at hlt
        omega

/-! A candidate is accepted twice only if it was found twice, and the first two turns find each
path once. -/

theorem not_cheapestAccepted {st : Yen α} (h : AcceptedPaths graph w s t st)
    (hfresh : ∀ c ∈ st.candidates, c ∉ st.paths) : cheapestAccepted graph t w st = false := by
  obtain ⟨found, hfound, -, hnew, -, -⟩ := covered_all hw hgraph h
  rw [cheapestAccepted, hfound]
  simp only
  cases hsort : sortCandidates w (st.candidates ++ found) with
  | nil => rfl
  | cons next rest =>
    have hperm : (next :: rest).Perm (st.candidates ++ found) := hsort ▸ sortCandidates_perm
    have hnext : next ∈ st.candidates ++ found := hperm.mem_iff.mp List.mem_cons_self
    refine decide_eq_false ?_
    exact (List.mem_append.mp hnext).elim (hfresh next) (hnew next)

theorem fresh_of_first {st st' : Yen α} (h : AcceptedPaths graph w s t st)
    (hnone : st.candidates = []) (hturn : yenRound graph t w st = .ok (some st')) :
    ∀ c ∈ st'.candidates, c ∉ st'.paths := by
  obtain ⟨found, hfound, -, hnew, hnodup, -⟩ := covered_all hw hgraph h
  rw [yenRound, hfound, hnone] at hturn
  simp only [List.nil_append] at hturn
  cases hsort : sortCandidates w found with
  | nil =>
    rw [hsort] at hturn
    cases hturn
  | cons next rest =>
    have hperm : (next :: rest).Perm found := hsort ▸ sortCandidates_perm
    have hnext : next ∉ st.paths := hnew next (hperm.mem_iff.mp List.mem_cons_self)
    have hrest : next ∉ rest := (List.nodup_cons.mp (hperm.nodup_iff.mpr hnodup)).1
    rw [hsort] at hturn
    simp only [if_neg hnext] at hturn
    cases hturn
    intro c hc hmem
    rcases List.mem_append.mp hmem with hmem | hmem
    · exact hnew c (hperm.mem_iff.mp (List.mem_cons_of_mem _ hc)) hmem
    · exact hrest (List.mem_singleton.mp hmem ▸ hc)

theorem wastedTurns_two {st : Yen α} (h : AcceptedPaths graph w s t st)
    (hnone : st.candidates = []) {n : ℕ} (hn : n ≤ 2) : wastedTurns graph t w n st = 0 := by
  have hlater : ∀ st' : Yen α, AcceptedPaths graph w s t st' →
      (∀ c ∈ st'.candidates, c ∉ st'.paths) → wastedTurns graph t w 1 st' = 0 := by
    intro st' h' hfresh
    obtain ⟨turn, hturn, -⟩ := yenRound_spec hw hgraph h'
    cases turn with
    | none => simp only [wastedTurns, hturn]
    | some st₂ => simp [wastedTurns, hturn, not_cheapestAccepted hw hgraph h' hfresh]
  have hfresh : ∀ c ∈ st.candidates, c ∉ st.paths := by
    rw [hnone]
    exact fun c hc => (by cases hc)
  match n, hn with
  | 0, _ => rfl
  | 1, _ => exact hlater st h hfresh
  | 2, _ =>
    obtain ⟨turn, hturn, hturned⟩ := yenRound_spec hw hgraph h
    cases turn with
    | none => simp only [wastedTurns, hturn]
    | some st₁ =>
      have hrest := hlater st₁ hturned (fresh_of_first hw hgraph h hnone hturn)
      rw [wastedTurns, hturn]
      simp [not_cheapestAccepted hw hgraph h hfresh, hrest]

end Yen

/-! ## The paths -/

section Paths

variable {graph : Graph α} {w : α → α → W} {s t : α}

omit [IsOrderedAddMonoid W] [ToString α] in
/-- The first path, when there is one, is a start for the loop. -/
theorem accepted_first {first : List α}
    (h : CheapestPath (AllowedEdge graph [] [] t) w s t (some first)) :
    AcceptedPaths graph w s t ⟨[first], []⟩ := by
  obtain ⟨⟨hleads, hnodup⟩, hleast⟩ := h
  refine ⟨List.cons_ne_nil _ _, ?_, List.nodup_singleton _, List.pairwise_singleton _ _, ?_,
    fun c hc => (by cases hc), ?_⟩
  · intro p hp
    rw [List.mem_singleton.mp hp]
    exact ⟨hleads.mono fun a b => allowedEdge_nil.mp, hnodup⟩
  · intro p hp q hq _
    rw [List.mem_singleton.mp hp]
    exact hleast _ (hq.toLeads.mono fun a b => allowedEdge_nil.mpr).walk
  · intro root hroot hnew
    obtain ⟨p, hp, hpre, hproper⟩ := hroot.shared
    rw [List.mem_singleton.mp hp] at hpre hproper
    exact absurd (mem_roots.mpr ⟨hroot.ne_nil, hpre, hproper⟩) hnew

omit [IsOrderedAddMonoid W] in
/-- A source that is no node is looked up first. -/
theorem shortestPath_unknown (hst : s ≠ t) (hs : graph.get? s = none) :
    shortestPath graph s t [] [] w = .error (.raised (.keyError (toString s))) := by
  have hbound : edgeBound graph = (edgeBound graph - 1) + 1 := by
    rw [edgeBound]
    omega
  have hloop : shortestPathLoop graph t [] [] w (edgeBound graph)
      ⟨[(s, 0)], [(s, none)], [(0, s)]⟩ = .error (.raised (.keyError (toString s))) := by
    rw [hbound, shortestPathLoop]
    simp [hst, hs]
  simp only [shortestPath, if_neg hst, hloop]

omit [IsOrderedAddMonoid W] in
theorem kShortestPaths_unknown (hst : s ≠ t) (hs : graph.get? s = none) (k : ℤ) :
    kShortestPaths graph s t k w = .error (.raised (.keyError (toString s))) := by
  simp only [kShortestPaths, shortestPath_unknown hst hs]

omit [LinearOrder α] [AddCommMonoid W] [LinearOrder W] [IsOrderedAddMonoid W] [ToString α] in
/-- No more paths are accepted than the slice returns. -/
theorem sliceTo_accepted {paths : List (List α)} {k : ℤ} {n : ℕ} (hk : 1 ≤ k)
    (hle : paths.length + n ≤ 1 + (k - 1).toNat) : sliceTo paths k = paths := by
  rw [sliceTo, if_pos (by omega), List.take_of_length_le]
  omega

variable (hw : ∀ a b, 0 ≤ w a b) (hgraph : ClosedGraph graph)
include hw hgraph

/-- How `k_shortest_paths` ends. -/
theorem kShortestPaths_ends (hs : s ≠ t → (graph.get? s).isSome) (k : ℤ) :
    (shortestPath graph s t [] [] w = .ok none ∧ (∀ c, ¬ Walk (EdgeOf graph) w s t c) ∧
      kShortestPaths graph s t k w = .ok []) ∨
    ∃ first st, shortestPath graph s t [] [] w = .ok (some first) ∧
      AcceptedPaths graph w s t ⟨[first], []⟩ ∧
      kShortestPaths graph s t k w = .ok (sliceTo st.paths k) ∧ AcceptedPaths graph w s t st ∧
      st.paths.length + wastedTurns graph t w (k - 1).toNat ⟨[first], []⟩ ≤ 1 + (k - 1).toNat ∧
      (st.paths.length + wastedTurns graph t w (k - 1).toNat ⟨[first], []⟩ < 1 + (k - 1).toNat →
        ∀ q, SimplePath (EdgeOf graph) s t q → q ∈ st.paths) := by
  have hsearch : ∃ found, shortestPath graph s t [] [] w = .ok found ∧
      CheapestPath (AllowedEdge graph [] [] t) w s t found := shortestPath_spec hw hgraph hs
  obtain ⟨found, hfound, hcheapest⟩ := hsearch
  cases found with
  | none =>
    refine .inl ⟨hfound, fun c hc => ?_, by simp only [kShortestPaths, hfound]⟩
    exact hcheapest c (hc.mono fun a b => allowedEdge_nil.mpr)
  | some first =>
    have hstart := accepted_first hcheapest
    obtain ⟨st, hst, haccepted, hle, hall⟩ := yenLoop_spec hw hgraph (k - 1).toNat hstart
    have hpaths : kShortestPaths graph s t k w = .ok (sliceTo st.paths k) := by
      simp only [kShortestPaths, hfound, hst]
    exact .inr ⟨first, st, hfound, hstart, hpaths, haccepted, hle, hall⟩

/-- **The paths are the cheapest.** For every graph whose neighbours are nodes, every weights that
    are not negative, every source, target and `k`: the paths returned are different simple paths
    from the source to the target, each costs no more than the next, and a simple path that is not
    returned costs no less than the last of them; and for `k` from 1 on none is returned exactly
    when the target cannot be reached. A source that is no node is a `KeyError`. -/
theorem k_shortest_paths_optimal (s t : α) (k : ℤ) :
    (∃ paths, kShortestPaths graph s t k w = .ok paths ∧
      (∀ p ∈ paths, SimplePath (EdgeOf graph) s t p) ∧ paths.Nodup ∧
      (paths.Pairwise fun p q => pathCost w p ≤ pathCost w q) ∧
      (∀ last, paths.getLast? = some last → ∀ q, SimplePath (EdgeOf graph) s t q → q ∉ paths →
        pathCost w last ≤ pathCost w q) ∧
      (1 ≤ k → (paths = [] ↔ ¬ Relation.ReflTransGen (EdgeOf graph) s t))) ∨
    (s ≠ t ∧ graph.get? s = none ∧
      kShortestPaths graph s t k w = .error (.raised (.keyError (toString s)))) := by
  by_cases hnode : s ≠ t ∧ graph.get? s = none
  · exact .inr ⟨hnode.1, hnode.2, kShortestPaths_unknown hnode.1 hnode.2 k⟩
  have hs : s ≠ t → (graph.get? s).isSome := fun hst =>
    Option.isSome_iff_ne_none.mpr fun hnone => hnode ⟨hst, hnone⟩
  refine .inl ?_
  rcases kShortestPaths_ends hw hgraph hs k with
    ⟨-, hno, hpaths⟩ | ⟨first, st, -, -, hpaths, haccepted, hle, -⟩
  · refine ⟨[], hpaths, fun p hp => (by cases hp), List.nodup_nil, .nil, fun last hlast => (by cases hlast),
      fun _ => iff_of_true rfl ?_⟩
    rw [← exists_walk_iff (w := w)]
    exact fun ⟨c, hc⟩ => hno c hc
  by_cases hk : 1 ≤ k
  · -- every accepted path is returned
    rw [sliceTo_accepted hk hle] at hpaths
    refine ⟨st.paths, hpaths, haccepted.simple, haccepted.nodup, haccepted.ordered, ?_, fun _ => ?_⟩
    · exact fun last hlast q => haccepted.least last (List.mem_of_getLast? hlast) q
    · refine iff_of_false haccepted.some (not_not.mpr ?_)
      obtain ⟨p, hp⟩ := List.exists_mem_of_ne_nil _ haccepted.some
      exact (exists_walk_iff (w := w)).mp ⟨_, (haccepted.simple p hp).toLeads.walk⟩
  · have hslice : sliceTo st.paths k = [] := by
      have hlen : st.paths.length ≤ 1 := by omega
      rw [sliceTo, List.take_eq_nil_iff]
      left
      split <;> omega
    rw [hslice] at hpaths
    exact ⟨[], hpaths, fun p hp => (by cases hp), List.nodup_nil, .nil,
      fun last hlast => (by cases hlast), fun h => absurd h hk⟩

/-! ## How many -/

/-- How many simple paths there are from one node to another. -/
noncomputable def simplePathCount (graph : Graph α) (s t : α) : ℕ :=
  {p | SimplePath (EdgeOf graph) s t p}.ncard

omit [AddCommMonoid W] [LinearOrder W] [IsOrderedAddMonoid W] [ToString α] hw hgraph in
theorem simplePaths_finite (graph : Graph α) (s t : α) :
    {p | SimplePath (EdgeOf graph) s t p}.Finite := by
  refine simplePath_finite (s :: graph.flatMap (·.2)) fun p hp v hv => ?_
  obtain ⟨p', rfl⟩ := List.head?_eq_some_iff.mp hp.first
  rcases List.mem_cons.mp hv with rfl | hv
  · exact List.mem_cons_self
  -- every later node is a neighbour of the one before it
  obtain ⟨l₁, l₂, rfl⟩ := List.append_of_mem hv
  have hchain := hp.chain
  rw [← List.cons_append] at hchain
  obtain ⟨nbrs, hnbrs, hmem⟩ :=
    hchain.rel_getLast_head_of_append (List.cons_ne_nil _ _) (List.cons_ne_nil _ _)
  refine List.mem_cons_of_mem _ (List.mem_flatMap.mpr ⟨_, Dict.mem_of_get? hnbrs, hmem⟩)

end Paths

/-! ## A turn that is wasted -/

/-- A square `0 1 2 3` with a node `4` on its edge from `1` to `2`. -/
def roofed : Graph ℕ := [(0, [1, 3]), (1, [0, 2, 4]), (2, [1, 3, 4]), (3, [0, 2]), (4, [1, 2])]

theorem roofed_closed : ClosedGraph roofed := closedGraph_of_entries (by decide)

theorem roofed_edge {a b : ℕ} (h : b ∈ (roofed.get? a).getD []) : EdgeOf roofed a b := by
  cases hnbrs : roofed.get? a with
  | none =>
    rw [hnbrs] at h
    cases h
  | some nbrs =>
    rw [hnbrs] at h
    exact ⟨nbrs, hnbrs, h⟩

theorem four_le_roofed : 4 ≤ simplePathCount roofed 0 4 := by
  have hsimple : ∀ p ∈ [[0, 1, 4], [0, 1, 2, 4], [0, 3, 2, 4], [0, 3, 2, 1, 4]],
      p.head? = some 0 ∧ p.getLast? = some 4 ∧ p.Nodup ∧
        p.IsChain fun a b => b ∈ (roofed.get? a).getD [] := by decide
  refine length_le_ncard (simplePaths_finite roofed 0 4)
    (l := [[0, 1, 4], [0, 1, 2, 4], [0, 3, 2, 4], [0, 3, 2, 1, 4]]) (by decide) fun p hp => ?_
  obtain ⟨hfirst, hlast, hnodup, hchain⟩ := hsimple p hp
  exact ⟨⟨hfirst, hlast, hchain.imp fun a b => roofed_edge⟩, hnodup⟩

theorem roofed_cheapest :
    kShortestPaths roofed 0 4 2 (fun _ _ => (1 : ℕ)) = .ok [[0, 1, 4], [0, 1, 2, 4]] ∧
      ∀ q, SimplePath (EdgeOf roofed) 0 4 q → q ∉ [[0, 1, 4], [0, 1, 2, 4]] →
        pathCost (fun _ _ => (1 : ℕ)) [0, 1, 2, 4] ≤ pathCost (fun _ _ => 1) q := by
  have hpaths : kShortestPaths roofed 0 4 2 (fun _ _ => (1 : ℕ)) =
      .ok [[0, 1, 4], [0, 1, 2, 4]] := by rfl
  refine ⟨hpaths, ?_⟩
  rcases k_shortest_paths_optimal (fun _ _ => Nat.zero_le _) roofed_closed 0 4 2 with
    ⟨paths, hpaths', -, -, -, hleast, -⟩ | ⟨-, hnone, -⟩
  · rw [hpaths] at hpaths'
    cases hpaths'
    exact hleast _ rfl
  · cases hnone

end Proof
end CeforeEmu
