import Mathlib.Tactic
import CeforeEmu.Core.Graph
import CeforeEmu.Lib.Trails

/-!
# `dijkstra_all` finds the least costs

That the distances are right when the loop ends does not need the heap to be a heap: every
distance is the cost of a walk, and a node is left out of the heap only once its edges have been
relaxed. That the loop *ends* within its bound does. A node popped with its own distance can
never be improved again, because costs are not negative and whatever is popped later is no
nearer; so its edges are relaxed once, and the pushes are no more than the edges.

`Progress` keeps both arguments together. `done` are the nodes whose edges have been relaxed,
`active` is the one whose edges are being relaxed, and `cur` the distance it was popped with.

`Traced` says of the parents that those of a node with a distance lead back to the source, along
edges that add up to it. Every node on the way back is done or active, so improving the distance of
another one leaves the way as it was, and the way has no node twice.
-/

set_option autoImplicit false

namespace CeforeEmu
namespace Proof

open CeforeEmu.Lib CeforeEmu.Core

variable {α W : Type} [LinearOrder α] [LinearOrder W]

theorem mem_pushNode {d d' : W} {v v' : α} {heap : List (W × α)} :
    (d, v) ∈ pushNode d' v' heap ↔ (d, v) = (d', v') ∨ (d, v) ∈ heap := by
  rw [pushNode, List.mem_orderedInsert]

/-! ## Following the parents -/

/-- Following the parents of a node, up to one that has none. -/
inductive Follows (parents : Dict α (Option α)) : α → List α → Prop where
  | root {v : α} : parents.get? v = some none → Follows parents v [v]
  | step {v u : α} {p : List α} : parents.get? v = some (some u) → Follows parents u p →
      Follows parents v (v :: p)

section Follow

variable {parents : Dict α (Option α)} {v : α} {p : List α}

theorem Follows.isSome (h : Follows parents v p) : ∀ x ∈ p, (parents.get? x).isSome := by
  induction h with
  | root hv =>
    intro x hx
    rw [List.mem_singleton.mp hx, hv]
    rfl
  | step hv _ ih =>
    intro x hx
    rcases List.mem_cons.mp hx with rfl | hx
    · rw [hv]
      rfl
    · exact ih x hx

/-- The way back does not see a change elsewhere. -/
theorem Follows.set (h : Follows parents v p) {x : α} (hx : x ∉ p) (parent : Option α) :
    Follows (parents.set x parent) v p := by
  induction h with
  | root hv =>
    refine .root ?_
    rw [Dict.get?_set_ne _ _ (Ne.symm (List.ne_of_not_mem_cons hx)), hv]
  | step hv _ ih =>
    refine .step ?_ (ih (List.not_mem_of_not_mem_cons hx))
    rw [Dict.get?_set_ne _ _ (Ne.symm (List.ne_of_not_mem_cons hx)), hv]

/-- A way back without repetition is no longer than the table. -/
theorem Follows.length_le (h : Follows parents v p) (hnodup : p.Nodup) :
    p.length ≤ parents.length := by
  have hsub : p ⊆ parents.map (·.1) := by
    intro x hx
    obtain ⟨parent, hparent⟩ := Option.isSome_iff_exists.mp (h.isSome x hx)
    exact List.mem_map_of_mem (Dict.mem_of_get? hparent)
  have hlen : (parents.map (·.1)).length = parents.length := List.length_map _
  rw [← hlen]
  exact (hnodup.subperm hsub).length_le

theorem followParents_eq [ToString α] (h : Follows parents v p) :
    ∀ {fuel : ℕ}, p.length ≤ fuel → followParents parents fuel v = .ok p := by
  induction h with
  | root hv =>
    intro fuel hfuel
    obtain ⟨fuel, rfl⟩ := Nat.exists_eq_succ_of_ne_zero (Nat.pos_iff_ne_zero.mp hfuel)
    simp only [followParents, hv]
  | step hv _ ih =>
    intro fuel hfuel
    rw [List.length_cons] at hfuel
    obtain ⟨fuel, rfl⟩ := Nat.exists_eq_succ_of_ne_zero (show fuel ≠ 0 by omega)
    simp only [followParents, hv, ih (Nat.le_of_succ_le_succ hfuel)]

end Follow

/-! ## What the loop keeps -/

variable [AddCommMonoid W]

/-- The edges of a graph. -/
def EdgeOf (graph : Graph α) (v u : α) : Prop := ∃ nbrs, graph.get? v = some nbrs ∧ u ∈ nbrs

/-- Every neighbour is a node. -/
def ClosedGraph (graph : Graph α) : Prop := ∀ v u, EdgeOf graph v u → (graph.get? u).isSome

/-- The neighbours in each entry are nodes. -/
theorem closedGraph_of_entries {graph : Graph α}
    (h : ∀ e ∈ graph, ∀ u ∈ e.2, (graph.get? u).isSome) : ClosedGraph graph := by
  rintro v u ⟨nbrs, hnbrs, hu⟩
  exact h _ (Dict.mem_of_get? hnbrs) u hu

structure Progress (graph : Graph α) (w : α → α → W) (s : α) (done : List α) (active : Option α)
    (cur : W) (st : Search α W) : Prop where
  source : ∃ d, st.distances.get? s = some d ∧ d ≤ 0
  walk : ∀ {v d}, st.distances.get? v = some d → Walk (EdgeOf graph) w s v d
  node : ∀ {v d}, st.distances.get? v = some d → (graph.get? v).isSome
  entry : ∀ {d v}, (d, v) ∈ st.heap → ∃ d', st.distances.get? v = some d' ∧ d' ≤ d
  pending : ∀ {v d}, st.distances.get? v = some d → (d, v) ∈ st.heap ∨ v ∈ done ∨ active = some v
  settled : ∀ {v}, v ∈ done → ∃ d, st.distances.get? v = some d ∧ d ≤ cur ∧ (d, v) ∉ st.heap ∧
    Relaxed (EdgeOf graph) w st.distances.get? v d
  current : ∀ {v}, active = some v → st.distances.get? v = some cur ∧ (cur, v) ∉ st.heap
  later : ∀ {d v}, (d, v) ∈ st.heap → cur ≤ d
  nodup : st.heap.Nodup
  sorted : st.heap.Pairwise fun a b => toLex a ≤ toLex b

section

variable {graph : Graph α} {w : α → α → W} {s : α} {done : List α} {cur : W} {st : Search α W}

/-- The active node is done when all its edges have been relaxed. -/
theorem Progress.finish {v : α} {nbrs : List α} (hnbrs : graph.get? v = some nbrs)
    (hp : Progress graph w s done (some v) cur st)
    (hall : ∀ u ∈ nbrs, ∃ d', st.distances.get? u = some d' ∧ d' ≤ cur + w v u) :
    Progress graph w s (v :: done) none cur st := by
  refine ⟨hp.source, hp.walk, hp.node, hp.entry, ?_, ?_, fun h => (by cases h), hp.later, hp.nodup,
    hp.sorted⟩
  · intro x d hd
    rcases hp.pending hd with h | h | h
    · exact .inl h
    · exact .inr (.inl (List.mem_cons_of_mem _ h))
    · cases h
      exact .inr (.inl List.mem_cons_self)
  · intro x hx
    rcases List.mem_cons.mp hx with rfl | hx
    · obtain ⟨hcur, hout⟩ := hp.current rfl
      refine ⟨cur, hcur, le_refl _, hout, ?_⟩
      rintro u ⟨nbrs', hnbrs', hu⟩
      rw [hnbrs, Option.some.injEq] at hnbrs'
      exact hall u (hnbrs' ▸ hu)
    · exact hp.settled hx

/-- Dropping an entry that is out of date. -/
theorem Progress.drop {d : W} {v : α} {heap : List (W × α)} (hheap : st.heap = (d, v) :: heap)
    (hp : Progress graph w s done none cur st) (hstale : some d ≠ st.distances.get? v) :
    Progress graph w s done none cur { st with heap := heap } := by
  have hsub : ∀ {e}, e ∈ heap → e ∈ st.heap := fun he => hheap ▸ List.mem_cons_of_mem _ he
  have hnodup := hp.nodup
  have hsorted := hp.sorted
  rw [hheap] at hnodup hsorted
  refine ⟨hp.source, hp.walk, hp.node, fun h => hp.entry (hsub h), ?_, ?_, fun h => (by cases h),
    fun h => hp.later (hsub h), (List.nodup_cons.mp hnodup).2, (List.pairwise_cons.mp hsorted).2⟩
  · intro x d' hd'
    rcases hp.pending hd' with h | h
    · rw [hheap] at h
      rcases List.mem_cons.mp h with heq | h
      · cases heq
        exact absurd hd'.symm hstale
      · exact .inl h
    · exact .inr h
  · intro x hx
    obtain ⟨d', hd', hle, hout, hrel⟩ := hp.settled hx
    exact ⟨d', hd', hle, fun h => hout (hsub h), hrel⟩

/-- Popping a node with its own distance makes it the active one. -/
theorem Progress.pop {d : W} {v : α} {heap : List (W × α)} (hheap : st.heap = (d, v) :: heap)
    (hp : Progress graph w s done none cur st) (hlive : st.distances.get? v = some d) :
    v ∉ done ∧ Progress graph w s done (some v) d { st with heap := heap } := by
  have hmem : (d, v) ∈ st.heap := hheap ▸ List.mem_cons_self
  have hsub : ∀ {e}, e ∈ heap → e ∈ st.heap := fun he => hheap ▸ List.mem_cons_of_mem _ he
  have hnodup := hp.nodup
  have hsorted := hp.sorted
  rw [hheap] at hnodup hsorted
  refine ⟨?_, hp.source, hp.walk, hp.node, fun h => hp.entry (hsub h), ?_, ?_, ?_, ?_,
    (List.nodup_cons.mp hnodup).2, (List.pairwise_cons.mp hsorted).2⟩
  · intro hv
    obtain ⟨d', hd', -, hout, -⟩ := hp.settled hv
    rw [hlive, Option.some.injEq] at hd'
    exact hout (hd' ▸ hmem)
  · intro x d' hd'
    rcases hp.pending hd' with h | h | h
    · rw [hheap] at h
      rcases List.mem_cons.mp h with heq | h
      · cases heq
        exact .inr (.inr rfl)
      · exact .inl h
    · exact .inr (.inl h)
    · cases h
  · intro x hx
    obtain ⟨d', hd', hle, hout, hrel⟩ := hp.settled hx
    exact ⟨d', hd', hle.trans (hp.later hmem), fun h => hout (hsub h), hrel⟩
  · intro x hx
    cases hx
    exact ⟨hlive, (List.nodup_cons.mp hnodup).1⟩
  · -- the heap was sorted
    intro d' x hx
    have hle := (List.pairwise_cons.mp hsorted).1 _ hx
    rw [Prod.Lex.toLex_le_toLex] at hle
    rcases hle with h | ⟨h, -⟩
    · exact h.le
    · exact h.le

variable [IsOrderedAddMonoid W]

/-- A node whose distance is improved is neither done nor active. -/
theorem Progress.improved {v u : α} (hw : 0 ≤ w v u)
    (hp : Progress graph w s done (some v) cur st)
    (himp : improves (cur + w v u) (st.distances.get? u) = true) :
    (∀ {d}, st.distances.get? u = some d → cur + w v u < d) ∧ u ∉ done ∧ v ≠ u := by
  have hcur : cur ≤ cur + w v u := le_add_of_nonneg_right hw
  -- whatever is known of `u` is more than the new distance
  have hless : ∀ {d}, st.distances.get? u = some d → cur + w v u < d := by
    intro d hd
    rw [hd] at himp
    simpa [improves] using himp
  refine ⟨hless, fun hu => ?_, ?_⟩
  · obtain ⟨d, hd, hle, -⟩ := hp.settled hu
    exact absurd ((hless hd).trans_le hle) (not_lt.mpr hcur)
  · rintro rfl
    exact absurd (hless (hp.current rfl).1) (not_lt.mpr hcur)

/-- **Relaxing one edge** of the active node. -/
theorem Progress.relax {v u : α} (hw : ∀ a b, EdgeOf graph a b → 0 ≤ w a b)
    (hgraph : ClosedGraph graph)
    (hp : Progress graph w s done (some v) cur st) (hadj : EdgeOf graph v u) :
    Progress graph w s done (some v) cur (Core.relax w cur v st u) ∧
      (∀ {x d}, st.distances.get? x = some d →
        ∃ d', (Core.relax w cur v st u).distances.get? x = some d' ∧ d' ≤ d) ∧
      (∃ d', (Core.relax w cur v st u).distances.get? u = some d' ∧ d' ≤ cur + w v u) ∧
      (Core.relax w cur v st u).heap.length ≤ st.heap.length + 1 := by
  have hcur : cur ≤ cur + w v u := le_add_of_nonneg_right (hw v u hadj)
  rw [Core.relax]
  by_cases himp : improves (cur + w v u) (st.distances.get? u) = true
  · rw [if_pos himp]
    obtain ⟨hless, hnew, hactive⟩ := hp.improved (hw v u hadj) himp
    have hdone : ∀ {x}, x ∈ done → x ≠ u := fun hx heq => hnew (heq ▸ hx)
    have hget : ∀ x, (st.distances.set u (cur + w v u)).get? x
        = if x = u then some (cur + w v u) else st.distances.get? x :=
      fun x => Dict.get?_set _ _ x _
    have hmono : ∀ {x d}, st.distances.get? x = some d →
        ∃ d', (st.distances.set u (cur + w v u)).get? x = some d' ∧ d' ≤ d := by
      intro x d hd
      by_cases hxu : x = u
      · subst hxu
        exact ⟨_, Dict.get?_set_self .., (hless hd).le⟩
      · exact ⟨d, by rw [hget, if_neg hxu, hd], le_refl d⟩
    refine ⟨?_, hmono, ⟨_, Dict.get?_set_self .., le_refl _⟩, ?_⟩
    · refine ⟨?_, ?_, ?_, ?_, ?_, ?_, ?_, ?_, ?_, ?_⟩
      · obtain ⟨d, hd, hle⟩ := hp.source
        obtain ⟨d', hd', hle'⟩ := hmono hd
        exact ⟨d', hd', hle'.trans hle⟩
      · intro x d hd
        rw [hget] at hd
        split at hd
        · rename_i hxu
          subst hxu
          cases hd
          exact (hp.walk (hp.current rfl).1).snoc hadj
        · exact hp.walk hd
      · intro x d hd
        rw [hget] at hd
        split at hd
        · rename_i hxu
          subst hxu
          exact hgraph v x hadj
        · exact hp.node hd
      · intro d x hx
        rcases mem_pushNode.mp hx with heq | hx
        · cases heq
          exact ⟨_, Dict.get?_set_self .., le_refl _⟩
        · obtain ⟨d', hd', hle⟩ := hp.entry hx
          obtain ⟨d'', hd'', hle'⟩ := hmono hd'
          exact ⟨d'', hd'', hle'.trans hle⟩
      · intro x d hd
        rw [hget] at hd
        split at hd
        · rename_i hxu
          subst hxu
          cases hd
          exact .inl (mem_pushNode.mpr (.inl rfl))
        · rcases hp.pending hd with h | h
          · exact .inl (mem_pushNode.mpr (.inr h))
          · exact .inr h
      · intro x hx
        obtain ⟨d, hd, hle, hout, hrel⟩ := hp.settled hx
        refine ⟨d, by rw [hget, if_neg (hdone hx), hd], hle, ?_, ?_⟩
        · rw [mem_pushNode]
          rintro (heq | h)
          · exact hdone hx (Prod.mk.inj heq).2
          · exact hout h
        · intro y hy
          obtain ⟨d₁, hd₁, hle₁⟩ := hrel y hy
          obtain ⟨d₂, hd₂, hle₂⟩ := hmono hd₁
          exact ⟨d₂, hd₂, hle₂.trans hle₁⟩
      · intro x hx
        cases hx
        refine ⟨by rw [hget, if_neg hactive, (hp.current rfl).1], ?_⟩
        rw [mem_pushNode]
        rintro (heq | h)
        · exact hactive (Prod.mk.inj heq).2
        · exact (hp.current rfl).2 h
      · intro d x hx
        rcases mem_pushNode.mp hx with heq | hx
        · cases heq
          exact hcur
        · exact hp.later hx
      · -- an entry for `u` is no nearer than what was known of `u`
        rw [pushNode, (List.perm_orderedInsert _ _ _).nodup_iff, List.nodup_cons]
        refine ⟨fun hmem => ?_, hp.nodup⟩
        obtain ⟨d', hd', hle⟩ := hp.entry hmem
        exact absurd (hless hd') (not_lt.mpr hle)
      · exact List.Pairwise.orderedInsert _ _ hp.sorted
    · rw [pushNode, List.orderedInsert_length]
  · rw [if_neg himp]
    refine ⟨hp, fun {x d} hd => ⟨d, hd, le_refl d⟩, ?_, Nat.le_succ _⟩
    cases hd : st.distances.get? u with
    | none =>
      rw [hd] at himp
      exact absurd rfl himp
    | some d =>
      rw [hd] at himp
      exact ⟨d, rfl, by simpa [improves] using himp⟩

/-- **Relaxing the edges** of the active node, one after the other. -/
theorem Progress.relax_all {v : α} (hw : ∀ a b, EdgeOf graph a b → 0 ≤ w a b)
    (hgraph : ClosedGraph graph) :
    ∀ (nbrs : List α) {st : Search α W}, (∀ u ∈ nbrs, EdgeOf graph v u) →
      Progress graph w s done (some v) cur st →
      Progress graph w s done (some v) cur (nbrs.foldl (Core.relax w cur v) st) ∧
        (∀ {x d}, st.distances.get? x = some d →
          ∃ d', (nbrs.foldl (Core.relax w cur v) st).distances.get? x = some d' ∧ d' ≤ d) ∧
        (∀ u ∈ nbrs, ∃ d', (nbrs.foldl (Core.relax w cur v) st).distances.get? u = some d' ∧
          d' ≤ cur + w v u) ∧
        (nbrs.foldl (Core.relax w cur v) st).heap.length ≤ st.heap.length + nbrs.length
  | [], st, _, hp => ⟨hp, fun {x d} hd => ⟨d, hd, le_refl d⟩, fun u hu => (by cases hu), le_refl _⟩
  | u :: nbrs, st, hadj, hp => by
    obtain ⟨hp₁, hmono₁, ⟨d₁, hd₁, hle₁⟩, hlen₁⟩ := hp.relax hw hgraph (hadj u List.mem_cons_self)
    obtain ⟨hp₂, hmono₂, hall₂, hlen₂⟩ := Progress.relax_all hw hgraph nbrs
      (fun u' hu' => hadj u' (List.mem_cons_of_mem _ hu')) hp₁
    refine ⟨hp₂, ?_, ?_, ?_⟩
    · intro x d hd
      obtain ⟨d', hd', hle'⟩ := hmono₁ hd
      obtain ⟨d'', hd'', hle''⟩ := hmono₂ hd'
      exact ⟨d'', hd'', hle''.trans hle'⟩
    · intro u' hu'
      rcases List.mem_cons.mp hu' with rfl | hu'
      · obtain ⟨d', hd', hle'⟩ := hmono₂ hd₁
        exact ⟨d', hd', hle'.trans hle₁⟩
      · exact hall₂ u' hu'
    · simp only [List.length_cons, List.foldl_cons] at hlen₁ hlen₂ ⊢
      omega

end

/-! ## The way back -/

/-- The parents of every node with a distance lead back to the source. -/
structure Traced (graph : Graph α) (w : α → α → W) (s : α) (done : List α) (active : Option α)
    (st : Search α W) : Prop where
  follows : ∀ {v d}, st.distances.get? v = some d → ∃ p, Follows st.parents v p ∧ p.Nodup ∧
    (∀ x ∈ p, x = v ∨ x ∈ done ∨ active = some x) ∧ Leads (EdgeOf graph) s v p.reverse ∧
    costAlong w p.reverse = d
  labelled : ∀ {v}, (st.parents.get? v).isSome → (st.distances.get? v).isSome

section Trace

variable {graph : Graph α} {w : α → α → W} {s : α} {done : List α} {cur : W} {st : Search α W}

omit [LinearOrder W] in
/-- The way back depends on the tables alone, and may as well be through more nodes. -/
theorem Traced.mono {done' : List α} {active active' : Option α} {heap : List (W × α)}
    (h : Traced graph w s done active st)
    (hsub : ∀ x, x ∈ done ∨ active = some x → x ∈ done' ∨ active' = some x) :
    Traced graph w s done' active' { st with heap := heap } := by
  refine ⟨fun {v d} hd => ?_, h.labelled⟩
  obtain ⟨p, hp, hnodup, hmem, hleads⟩ := h.follows hd
  exact ⟨p, hp, hnodup, fun x hx => (hmem x hx).imp_right (hsub x), hleads⟩

omit [LinearOrder W] in
/-- Popping a node makes it active. -/
theorem Traced.activate (h : Traced graph w s done none st) (v : α) {heap : List (W × α)} :
    Traced graph w s done (some v) { st with heap := heap } := by
  refine h.mono fun x hx => ?_
  rcases hx with hx | hx
  · exact .inl hx
  · cases hx

omit [LinearOrder W] in
/-- The active node is done in the end. -/
theorem Traced.finish {v : α} (h : Traced graph w s done (some v) st) :
    Traced graph w s (v :: done) none st := by
  refine h.mono fun x hx => ?_
  rcases hx with hx | hx
  · exact .inl (List.mem_cons_of_mem _ hx)
  · cases hx
    exact .inl List.mem_cons_self

variable [IsOrderedAddMonoid W]

/-- **Relaxing one edge** sets a parent that leads back. -/
theorem Traced.relax {v u : α} (hw : ∀ a b, EdgeOf graph a b → 0 ≤ w a b)
    (hp : Progress graph w s done (some v) cur st) (h : Traced graph w s done (some v) st)
    (hadj : EdgeOf graph v u) :
    Traced graph w s done (some v) (Core.relax w cur v st u) := by
  rw [Core.relax]
  by_cases himp : improves (cur + w v u) (st.distances.get? u) = true
  swap
  · rw [if_neg himp]
    exact h
  rw [if_pos himp]
  obtain ⟨-, hnew, hactive⟩ := hp.improved (hw v u hadj) himp
  refine ⟨fun {x d} hd => ?_, fun {x} hx => ?_⟩
  · rw [Dict.get?_set] at hd
    by_cases hxu : x = u
    · -- the new parent is the active node, and its way back does not come to `u`
      rw [if_pos hxu] at hd
      cases hd
      subst hxu
      obtain ⟨p, hfollow, hnodup, hmem, hleads, hcost⟩ := h.follows (hp.current rfl).1
      have hout : x ∉ p := by
        intro hx
        rcases hmem x hx with hx | hx | hx
        · exact hactive hx.symm
        · exact hnew hx
        · exact hactive (Option.some.inj hx)
      refine ⟨x :: p, .step (Dict.get?_set_self ..) (hfollow.set hout _), List.nodup_cons.mpr
        ⟨hout, hnodup⟩, ?_, ?_, ?_⟩
      · intro y hy
        rcases List.mem_cons.mp hy with rfl | hy
        · exact .inl rfl
        · rcases hmem y hy with rfl | hy
          · exact .inr (.inr rfl)
          · exact .inr hy
      · obtain ⟨r, hr⟩ := List.getLast?_eq_some_iff.mp hleads.last
        rw [List.reverse_cons, hr, List.append_assoc, List.singleton_append]
        refine leads_split.mpr ⟨hr ▸ hleads, rfl, rfl, ?_⟩
        exact List.isChain_pair.mpr hadj
      · obtain ⟨r, hr⟩ := List.getLast?_eq_some_iff.mp hleads.last
        rw [List.reverse_cons, hr, List.append_assoc, List.singleton_append, costAlong_append, ← hr,
          hcost, costAlong_cons_cons, costAlong_singleton, add_zero]
    · rw [if_neg hxu] at hd
      obtain ⟨p, hfollow, hnodup, hmem, hrest⟩ := h.follows hd
      have hout : u ∉ p := by
        intro hu
        rcases hmem u hu with hu | hu | hu
        · exact hxu hu.symm
        · exact hnew hu
        · exact hactive (Option.some.inj hu)
      exact ⟨p, hfollow.set hout _, hnodup, hmem, hrest⟩
  · rw [Dict.get?_set] at hx ⊢
    by_cases hxu : x = u
    · rw [if_pos hxu]
      rfl
    · rw [if_neg hxu] at hx ⊢
      exact h.labelled hx

theorem Traced.relax_all {v : α} (hw : ∀ a b, EdgeOf graph a b → 0 ≤ w a b)
    (hgraph : ClosedGraph graph) (nbrs : List α) : ∀ {st : Search α W}, (∀ u ∈ nbrs, EdgeOf graph v u) →
      Progress graph w s done (some v) cur st → Traced graph w s done (some v) st →
      Traced graph w s done (some v) (nbrs.foldl (Core.relax w cur v) st) := by
  induction nbrs with
  | nil =>
    intro st _ _ h
    exact h
  | cons u nbrs ih =>
    intro st hadj hp h
    have hu := hadj u List.mem_cons_self
    rw [List.foldl_cons]
    refine ih (fun x hx => hadj x (List.mem_cons_of_mem _ hx)) (hp.relax hw hgraph hu).1 ?_
    exact h.relax hw hp hu

end Trace

/-! ## The loop ends -/

attribute [local instance] Graph.lawfulBEq_node in
/-- The edges of the nodes that are not done. -/
def undone (graph : Graph α) (done : List α) : ℕ :=
  ((graph.filter fun e => e.1 ∉ done).map fun e => e.2.length).sum

omit [LinearOrder W] [AddCommMonoid W] in
theorem undone_cons {graph : Graph α} {done nbrs : List α} {v : α} (hv : v ∉ done)
    (h : graph.get? v = some nbrs) : undone graph (v :: done) + nbrs.length ≤ undone graph done := by
  induction graph with
  | nil => cases h
  | cons e graph ih =>
    obtain ⟨x, xs⟩ := e
    simp only [undone] at ih ⊢
    have hrest : ((graph.filter fun e => e.1 ∉ v :: done).map fun e => e.2.length).sum
        ≤ ((graph.filter fun e => e.1 ∉ done).map fun e => e.2.length).sum := by
      refine List.Sublist.sum_le_sum (List.Sublist.map _ ?_) fun _ _ => Nat.zero_le _
      refine List.monotone_filter_right _ fun e he => ?_
      simp only [decide_eq_true_eq, List.mem_cons, not_or] at he ⊢
      exact he.2
    by_cases hx : x = v
    · subst hx
      rw [Dict.get?_cons, if_pos rfl, Option.some.injEq] at h
      subst h
      simp only [List.filter_cons, List.mem_cons, true_or, not_true, decide_false, hv,
        not_false_eq_true, decide_true, if_true, List.map_cons, List.sum_cons]
      simp only [Bool.false_eq_true, if_false]
      simp only [List.mem_cons] at hrest
      omega
    · rw [Dict.get?_cons, if_neg hx] at h
      have := ih h
      by_cases hd : x ∈ done
      · simpa [List.filter_cons, hx, hd] using this
      · simp only [List.filter_cons, List.mem_cons, hx, hd, or_self, not_false_eq_true, decide_true,
          if_true, List.map_cons, List.sum_cons] at this ⊢
        omega

/-- Where the search starts. -/
theorem progress_start {graph : Graph α} {w : α → α → W} {s : α} (hs : (graph.get? s).isSome) :
    Progress graph w s [] none 0 ⟨[(s, 0)], [(s, none)], [(0, s)]⟩ := by
  have hget : ∀ {v d}, Dict.get? [(s, (0 : W))] v = some d → v = s ∧ d = 0 :=
    fun h => Dict.get?_singleton h
  refine ⟨⟨0, by simp, le_refl 0⟩, ?_, ?_, ?_, ?_, fun h => (by cases h), fun h => (by cases h), ?_,
    List.nodup_singleton _, List.pairwise_singleton _ _⟩
  · intro v d h
    obtain ⟨rfl, rfl⟩ := hget h
    exact .nil
  · intro v d h
    obtain ⟨rfl, -⟩ := hget h
    exact hs
  · intro d v h
    cases List.mem_singleton.mp h
    exact ⟨0, by simp, le_refl 0⟩
  · intro v d h
    obtain ⟨rfl, rfl⟩ := hget h
    exact .inl (List.mem_singleton_self _)
  · intro d v h
    cases List.mem_singleton.mp h
    exact le_refl 0

omit [LinearOrder W] in
theorem traced_start {graph : Graph α} {w : α → α → W} {s : α} :
    Traced graph w s [] none ⟨[(s, 0)], [(s, none)], [(0, s)]⟩ := by
  refine ⟨fun {v d} hd => ?_, fun {v} hv => ?_⟩
  · rw [Dict.get?_cons] at hd
    split at hd
    · rename_i hsv
      cases hd
      subst hsv
      refine ⟨[s], .root (by simp), List.nodup_singleton s, fun x hx => ?_, .singleton s, rfl⟩
      exact .inl (List.mem_singleton.mp hx)
    · cases hd
  · rw [Dict.get?_cons] at hv ⊢
    split at hv
    · rename_i hsv
      rw [if_pos hsv]
      rfl
    · cases hv

/-- With the heap empty, every node with a distance has had its edges relaxed. -/
theorem Progress.labels {graph : Graph α} {w : α → α → W} {s : α} {done : List α} {cur : W}
    {st : Search α W} (hp : Progress graph w s done none cur st) (hempty : st.heap = []) :
    Labels (EdgeOf graph) w s st.distances.get? := by
  refine ⟨hp.source, fun _ _ h => hp.walk h, fun x dx hx => ?_⟩
  rcases hp.pending hx with h | h | h
  · rw [hempty] at h
    cases h
  · obtain ⟨d', hd', -, -, hrel⟩ := hp.settled h
    rw [hx, Option.some.injEq] at hd'
    exact hd' ▸ hrel
  · cases h

variable [IsOrderedAddMonoid W] [ToString α]

/-- **The loop ends**, within its fuel, with an empty heap, and the parents lead back. -/
theorem dijkstraLoop_spec {graph : Graph α} {w : α → α → W} {s : α}
    (hw : ∀ a b, EdgeOf graph a b → 0 ≤ w a b) (hgraph : ClosedGraph graph) :
    ∀ (fuel : ℕ) {done : List α} {cur : W} {st : Search α W},
      Progress graph w s done none cur st → Traced graph w s done none st →
      st.heap.length + undone graph done ≤ fuel →
      ∃ st' done' cur', dijkstraLoop graph w fuel st = .ok st' ∧ st'.heap = [] ∧
        Progress graph w s done' none cur' st' ∧ Traced graph w s done' none st' := by
  intro fuel
  induction fuel with
  | zero =>
    intro done cur st hp ht hfuel
    have hnil : st.heap = [] := List.length_eq_zero_iff.mp (by omega)
    refine ⟨st, done, cur, ?_, hnil, hp, ht⟩
    unfold dijkstraLoop
    rw [hnil]
  | succ fuel ih =>
    intro done cur st hp ht hfuel
    cases hheap : st.heap with
    | nil =>
      refine ⟨st, done, cur, ?_, hheap, hp, ht⟩
      unfold dijkstraLoop
      rw [hheap]
    | cons e heap =>
      obtain ⟨d, v⟩ := e
      rw [hheap, List.length_cons] at hfuel
      unfold dijkstraLoop
      rw [hheap]
      simp only
      by_cases hstale : some d ≠ st.distances.get? v
      · rw [if_pos hstale]
        exact ih (hp.drop hheap hstale) (ht.mono fun _ h => h) (by simp only; omega)
      · rw [if_neg hstale]
        have hlive : st.distances.get? v = some d := (not_not.mp hstale).symm
        obtain ⟨hnew, hactive⟩ := hp.pop hheap hlive
        obtain ⟨nbrs, hnbrs⟩ := Option.isSome_iff_exists.mp (hp.node hlive)
        rw [hnbrs]
        simp only
        have hmem : ∀ u, u ∈ nbrs.insertionSort (· ≤ ·) ↔ u ∈ nbrs :=
          fun u => (List.perm_insertionSort _ nbrs).mem_iff
        have hedge : ∀ u ∈ nbrs.insertionSort (· ≤ ·), EdgeOf graph v u :=
          fun u hu => ⟨nbrs, hnbrs, (hmem u).mp hu⟩
        obtain ⟨hp', -, hall, hlen⟩ := hactive.relax_all hw hgraph _ hedge
        have hdone := hp'.finish hnbrs fun u hu => hall u ((hmem u).mpr hu)
        have htraced := (ht.activate v).relax_all hw hgraph _ hedge hactive
        refine ih hdone htraced.finish ?_
        have hless := undone_cons hnew hnbrs
        rw [List.length_insertionSort] at hlen
        simp only at hlen ⊢
        omega

/-- **The distances of the loop are the least costs**, and its parents lead back. -/
theorem dijkstraLoop_labels {graph : Graph α} {w : α → α → W} {s : α}
    (hw : ∀ a b, EdgeOf graph a b → 0 ≤ w a b) (hgraph : ClosedGraph graph)
    (hs : (graph.get? s).isSome) :
    ∃ st done, dijkstraLoop graph w (edgeBound graph) ⟨[(s, 0)], [(s, none)], [(0, s)]⟩ = .ok st ∧
      Labels (EdgeOf graph) w s st.distances.get? ∧ Traced graph w s done none st := by
  obtain ⟨st, done, cur, hloop, hempty, hp, ht⟩ := dijkstraLoop_spec hw hgraph (edgeBound graph)
    (progress_start hs) traced_start (by simp [undone, edgeBound])
  exact ⟨st, done, hloop, hp.labels hempty, ht⟩

/-- **`dijkstra_all` is right**: it ends, and maps each node that can be reached to the least
    cost of a walk to it, and no other. -/
theorem dijkstraAll_spec {graph : Graph α} {w : α → α → W} {s : α} (hw : ∀ a b, 0 ≤ w a b)
    (hgraph : ClosedGraph graph) (hs : (graph.get? s).isSome) :
    ∃ distances parents, dijkstraAll graph s w = .ok (distances, parents) ∧
      ∀ v d, distances.get? v = some d ↔ LeastCost (EdgeOf graph) w s v d := by
  obtain ⟨st, -, hloop, hlabels, -⟩ := dijkstraLoop_labels (fun a b _ => hw a b) hgraph hs
  exact ⟨st.distances, st.parents, by rw [dijkstraAll, hloop], hlabels.leastCost⟩

end Proof
end CeforeEmu
