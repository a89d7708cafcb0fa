import CeforeEmu.Core.Centers
import CeforeEmu.Proof.Dijkstra

/-!
# `compute_distances` finds the least costs

With weights it is the loop of `dijkstra_all` without the parents, and what is known of that loop
carries over (`heapLoop_of_dijkstraLoop`). Without weights it is a breadth-first search: the queue
holds the nodes in the order of their distances, and no distance is more than one above that of its
front (`Layers`), so a node that already has a distance when an edge to it is looked at cannot be
improved through that edge.

Both are the same statement about the labels they leave behind (`computeDistances_spec`), with `1`
for a weight left out.
-/

set_option autoImplicit false

namespace CeforeEmu
namespace Proof

open CeforeEmu.Lib CeforeEmu.Core

variable {α W : Type} [LinearOrder α] [Semiring W] [LinearOrder W]

/-- What an edge costs. -/
def stepCost (weight : Option (α → α → W)) (a b : α) : W :=
  match weight with
  | none => 1
  | some weight => weight a b

theorem mem_neighborsOf {graph : Graph α} {v u : α} : u ∈ neighborsOf graph v ↔ EdgeOf graph v u := by
  rw [neighborsOf, (List.perm_insertionSort _ _).mem_iff, EdgeOf]
  cases graph.get? v with
  | none => simp
  | some nbrs => simp

/-! ## With weights -/

theorem foldl_relaxNeighbor (w : α → α → W) (dist : W) (node : α) :
    ∀ (nbrs : List α) (st : Search α W),
      nbrs.foldl (relaxNeighbor w dist node) (st.distances, st.heap)
        = ((nbrs.foldl (Core.relax w dist node) st).distances,
          (nbrs.foldl (Core.relax w dist node) st).heap)
  | [], _ => rfl
  | u :: nbrs, st => by
    have hstep : relaxNeighbor w dist node (st.distances, st.heap) u
        = ((Core.relax w dist node st u).distances, (Core.relax w dist node st u).heap) := by
      simp only [relaxNeighbor, Core.relax]
      by_cases himp : improves (dist + w node u) (st.distances.get? u) = true
      · rw [if_pos himp, if_pos himp]
      · rw [if_neg himp, if_neg himp]
    rw [List.foldl_cons, List.foldl_cons, hstep, foldl_relaxNeighbor]

/-- The loop leaves the distances that `dijkstra_all` leaves. -/
theorem heapLoop_of_dijkstraLoop [ToString α] {graph : Graph α} {w : α → α → W} :
    ∀ (fuel : ℕ) {st st' : Search α W}, dijkstraLoop graph w fuel st = .ok st' →
      heapLoop graph w fuel (st.distances, st.heap) = .ok st'.distances := by
  intro fuel
  induction fuel with
  | zero =>
    intro st st' h
    unfold dijkstraLoop at h
    unfold heapLoop
    cases hheap : st.heap with
    | nil =>
      rw [hheap] at h
      cases h
      rfl
    | cons e heap =>
      rw [hheap] at h
      cases h
  | succ fuel ih =>
    intro st st' h
    unfold dijkstraLoop at h
    unfold heapLoop
    cases hheap : st.heap with
    | nil =>
      rw [hheap] at h
      cases h
      rfl
    | cons e heap =>
      obtain ⟨d, v⟩ := e
      simp only [hheap] at h ⊢
      by_cases hstale : some d ≠ st.distances.get? v
      · rw [if_pos hstale] at h ⊢
        exact ih h
      · rw [if_neg hstale] at h ⊢
        cases hnbrs : graph.get? v with
        | none =>
          rw [hnbrs] at h
          cases h
        | some nbrs =>
          rw [hnbrs] at h
          have hfold := foldl_relaxNeighbor w d v (nbrs.insertionSort (· ≤ ·)) { st with heap := heap }
          rw [neighborsOf, hnbrs, Option.getD_some, hfold]
          exact ih h

/-! ## Without weights -/

omit [LinearOrder W] in
/-- What the loop over the neighbours leaves behind: the ones without a distance get one, and are
    queued. -/
theorem foldl_visitNeighbor (dist : W) : ∀ (nbrs : List α) (distances : Dict α W) (queue : List α),
    ∃ new, (nbrs.foldl (visitNeighbor dist) (distances, queue)).2 = queue ++ new ∧
      new.Nodup ∧ new.length ≤ nbrs.length ∧
      (∀ x, x ∈ new ↔ x ∈ nbrs ∧ distances.get? x = none) ∧
      ∀ x, (nbrs.foldl (visitNeighbor dist) (distances, queue)).1.get? x
        = if x ∈ new then some (dist + 1) else distances.get? x
  | [], distances, queue => ⟨[], by simp⟩
  | u :: nbrs, distances, queue => by
    rw [List.foldl_cons, visitNeighbor]
    by_cases hu : (distances.get? u).isSome
    · rw [if_pos hu]
      obtain ⟨new, hqueue, hnodup, hlen, hmem, hget⟩ := foldl_visitNeighbor dist nbrs distances queue
      refine ⟨new, hqueue, hnodup, hlen.trans (Nat.le_succ _), fun x => ?_, hget⟩
      rw [hmem, List.mem_cons]
      refine and_congr_left fun hx => ⟨.inr, fun h => h.resolve_left fun heq => ?_⟩
      rw [heq] at hx
      rw [hx] at hu
      cases hu
    · rw [if_neg hu]
      rw [Option.not_isSome_iff_eq_none] at hu
      obtain ⟨new, hqueue, hnodup, hlen, hmem, hget⟩ := foldl_visitNeighbor dist nbrs
        (distances.set u (dist + 1)) (queue ++ [u])
      have hout : u ∉ new := fun h => by simpa using ((hmem u).mp h).2
      refine ⟨u :: new, by rw [hqueue, List.append_assoc]; rfl, List.nodup_cons.mpr ⟨hout, hnodup⟩,
        by simpa using hlen, fun x => ?_, fun x => ?_⟩
      · rw [List.mem_cons, List.mem_cons, hmem, Dict.get?_set]
        by_cases hx : x = u
        · simp [hx, hu]
        · simp [hx]
      · rw [hget, Dict.get?_set]
        by_cases hx : x = u
        · simp [hx, hout]
        · simp [hx]

/-- The state of the search: `done` are the nodes that have been taken off the queue. -/
structure Layers (graph : Graph α) (s : α) (done queue : List α) (distances : Dict α W) : Prop where
  source : distances.get? s = some 0
  walk : ∀ {v d}, distances.get? v = some d → Walk (EdgeOf graph) (fun _ _ => (1 : W)) s v d
  pending : ∀ {v d}, distances.get? v = some d → v ∈ queue ∨ v ∈ done
  queued : ∀ {v}, v ∈ queue → v ∉ done ∧ ∃ d, distances.get? v = some d
  settled : ∀ {v}, v ∈ done → ∃ d, distances.get? v = some d ∧
    Relaxed (EdgeOf graph) (fun _ _ => (1 : W)) distances.get? v d
  nodup : queue.Nodup
  ordered : queue.Pairwise fun a b =>
    ∀ {da db}, distances.get? a = some da → distances.get? b = some db → da ≤ db
  near : ∀ {u rest du v d}, queue = u :: rest → distances.get? u = some du →
    distances.get? v = some d → d ≤ du + 1

theorem layers_start (graph : Graph α) (s : α) [IsStrictOrderedRing W] :
    Layers graph s [] [s] [(s, (0 : W))] := by
  have hget : ∀ {v d}, Dict.get? [(s, (0 : W))] v = some d → v = s ∧ d = 0 :=
    fun h => Dict.get?_singleton h
  refine ⟨by simp, fun h => ?_, fun h => ?_, fun h => ?_, fun h => (by cases h),
    List.nodup_singleton _, List.pairwise_singleton _ _, fun _ hu hv => ?_⟩
  · obtain ⟨rfl, rfl⟩ := hget h
    exact .nil
  · exact .inl (List.mem_singleton.mpr (hget h).1)
  · rw [List.mem_singleton.mp h]
    exact ⟨List.not_mem_nil, 0, by simp⟩
  · rw [(hget hu).2, (hget hv).2, zero_add]
    exact zero_le_one

variable [IsStrictOrderedRing W]

/-- **One turn of the search**: the front of the queue is done once its neighbours have been
    visited. -/
theorem Layers.step {graph : Graph α} {s v : α} {done rest : List α} {distances : Dict α W} {d : W}
    (h : Layers graph s done (v :: rest) distances) (hv : distances.get? v = some d) :
    ∃ distances' new, (neighborsOf graph v).foldl (visitNeighbor d) (distances, rest)
        = (distances', rest ++ new) ∧
      new.length ≤ (neighborsOf graph v).length ∧
      Layers graph s (v :: done) (rest ++ new) distances' := by
  obtain ⟨new, hqueue, hnodup, hlen, hmem, hget⟩ :=
    foldl_visitNeighbor d (neighborsOf graph v) distances rest
  generalize hst : (neighborsOf graph v).foldl (visitNeighbor d) (distances, rest) = st at hqueue hget
  refine ⟨st.1, new, Prod.ext rfl hqueue, hlen, ?_⟩
  have hnew : ∀ {x}, x ∈ new → st.1.get? x = some (d + 1) := fun hx => by rw [hget, if_pos hx]
  have hkeep : ∀ {x dx}, distances.get? x = some dx → st.1.get? x = some dx := by
    intro x dx hx
    rw [hget, if_neg fun hin => ?_, hx]
    rw [((hmem x).mp hin).2] at hx
    cases hx
  have hold : ∀ {x dx}, st.1.get? x = some dx → x ∉ new → distances.get? x = some dx := by
    intro x dx hx hin
    rwa [hget, if_neg hin] at hx
  have hedge : ∀ {x dx}, st.1.get? x = some dx → x ∈ new → dx = d + 1 := by
    intro x dx hx hin
    rw [hnew hin, Option.some.injEq] at hx
    exact hx.symm
  -- no distance is more than one above that of the front
  have hbound : ∀ {x dx}, st.1.get? x = some dx → dx ≤ d + 1 := by
    intro x dx hx
    by_cases hin : x ∈ new
    · exact (hedge hx hin).le
    · exact h.near rfl hv (hold hx hin)
  obtain ⟨hvrest, hrest⟩ := List.nodup_cons.mp h.nodup
  obtain ⟨hfirst, hordered⟩ := List.pairwise_cons.mp h.ordered
  have hrestOld : ∀ {x}, x ∈ rest → x ∉ new ∧ x ∉ done ∧ ∃ dx, distances.get? x = some dx := by
    intro x hx
    obtain ⟨hdone, dx, hdx⟩ := h.queued (List.mem_cons_of_mem _ hx)
    refine ⟨fun hin => ?_, hdone, dx, hdx⟩
    rw [((hmem x).mp hin).2] at hdx
    cases hdx
  refine ⟨hkeep h.source, ?_, ?_, ?_, ?_, ?_, ?_, ?_⟩
  · intro x dx hx
    by_cases hin : x ∈ new
    · rw [hedge hx hin]
      exact (h.walk hv).snoc (mem_neighborsOf.mp ((hmem x).mp hin).1)
    · exact h.walk (hold hx hin)
  · intro x dx hx
    by_cases hin : x ∈ new
    · exact .inl (List.mem_append_right _ hin)
    · rcases h.pending (hold hx hin) with hq | hd
      · rcases List.mem_cons.mp hq with rfl | hq
        · exact .inr List.mem_cons_self
        · exact .inl (List.mem_append_left _ hq)
      · exact .inr (List.mem_cons_of_mem _ hd)
  · intro x hx
    rcases List.mem_append.mp hx with hx | hx
    · obtain ⟨-, hdone, dx, hdx⟩ := hrestOld hx
      refine ⟨fun hc => ?_, dx, hkeep hdx⟩
      rcases List.mem_cons.mp hc with rfl | hc
      · exact hvrest hx
      · exact hdone hc
    · refine ⟨fun hc => ?_, d + 1, hnew hx⟩
      have hnone := ((hmem x).mp hx).2
      rcases List.mem_cons.mp hc with rfl | hc
      · rw [hv] at hnone
        cases hnone
      · obtain ⟨dx, hdx, -⟩ := h.settled hc
        rw [hdx] at hnone
        cases hnone
  · intro x hx
    rcases List.mem_cons.mp hx with rfl | hx
    · refine ⟨d, hkeep hv, fun u hu => ?_⟩
      cases hdu : distances.get? u with
      | some du => exact ⟨du, hkeep hdu, h.near rfl hv hdu⟩
      | none => exact ⟨d + 1, hnew ((hmem u).mpr ⟨mem_neighborsOf.mpr hu, hdu⟩), le_refl _⟩
    · obtain ⟨dx, hdx, hrel⟩ := h.settled hx
      refine ⟨dx, hkeep hdx, fun u hu => ?_⟩
      obtain ⟨du, hdu, hle⟩ := hrel u hu
      exact ⟨du, hkeep hdu, hle⟩
  · exact List.nodup_append'.mpr ⟨hrest, hnodup, fun x hx hin => (hrestOld hx).1 hin⟩
  · refine List.pairwise_append.mpr ⟨?_, ?_, ?_⟩
    · refine hordered.imp_of_mem fun {a b} ha hb hab => ?_
      intro da db hda hdb
      exact hab (hold hda (hrestOld ha).1) (hold hdb (hrestOld hb).1)
    · refine List.pairwise_of_forall_mem_list fun a ha b hb => ?_
      intro da db hda hdb
      rw [hedge hda ha, hedge hdb hb]
    · intro a ha b hb da db hda hdb
      rw [hedge hdb hb]
      exact hbound hda
  · intro u rest' du x dx hq hu hx
    have hdu : d ≤ du := by
      have hmemu : u ∈ rest ++ new := hq ▸ List.mem_cons_self
      rcases List.mem_append.mp hmemu with hin | hin
      · exact hfirst u hin hv (hold hu (hrestOld hin).1)
      · rw [hedge hu hin]
        exact le_add_of_nonneg_right zero_le_one
    exact (hbound hx).trans (add_le_add_left hdu 1)

omit [LinearOrder W] [IsStrictOrderedRing W] in
/-- Whatever can be reached from a node is one. -/
theorem node_of_walk {graph : Graph α} (hgraph : ClosedGraph graph) {w : α → α → W} {s v : α} {c : W}
    (hs : (graph.get? s).isSome) (h : Walk (EdgeOf graph) w s v c) : (graph.get? v).isSome := by
  cases h with
  | nil => exact hs
  | snoc _ hadj => exact hgraph _ _ hadj

/-- **The search ends**, and every edge has been looked at. -/
theorem bfsLoop_spec [ToString α] {graph : Graph α} {s : α} (hgraph : ClosedGraph graph)
    (hs : (graph.get? s).isSome) :
    ∀ (fuel : ℕ) {done queue : List α} {distances : Dict α W},
      Layers graph s done queue distances → queue.length + undone graph done ≤ fuel →
      ∃ distances' done', bfsLoop graph fuel (distances, queue) = .ok distances' ∧
        Layers graph s done' [] distances' := by
  intro fuel
  induction fuel with
  | zero =>
    intro done queue distances h hfuel
    have hnil : queue = [] := List.length_eq_zero_iff.mp (by omega)
    subst hnil
    exact ⟨distances, done, by unfold bfsLoop; rfl, h⟩
  | succ fuel ih =>
    intro done queue distances h hfuel
    cases queue with
    | nil => exact ⟨distances, done, by unfold bfsLoop; rfl, h⟩
    | cons v rest =>
      obtain ⟨hout, d, hv⟩ := h.queued List.mem_cons_self
      obtain ⟨distances', new, hfold, hlen, hnext⟩ := h.step hv
      obtain ⟨nbrs, hnbrs⟩ := Option.isSome_iff_exists.mp (node_of_walk hgraph hs (h.walk hv))
      have hless := undone_cons hout hnbrs
      have hnbrsLen : (neighborsOf graph v).length = nbrs.length := by
        rw [neighborsOf, hnbrs, Option.getD_some, List.length_insertionSort]
      unfold bfsLoop
      simp only [hv, hfold]
      refine ih hnext ?_
      simp only [List.length_cons, List.length_append] at hfuel ⊢
      omega

omit [IsStrictOrderedRing W] in
theorem Layers.labels {graph : Graph α} {s : α} {done : List α} {distances : Dict α W}
    (h : Layers graph s done [] distances) :
    Labels (EdgeOf graph) (fun _ _ => 1) s distances.get? := by
  refine ⟨⟨0, h.source, le_refl 0⟩, fun _ _ hv => h.walk hv, fun v d hv => ?_⟩
  rcases h.pending hv with hq | hd
  · cases hq
  · obtain ⟨d', hd', hrel⟩ := h.settled hd
    rw [hv, Option.some.injEq] at hd'
    exact hd' ▸ hrel

/-- **`compute_distances` is right**, with and without weights: it ends, and what it returns are
    least costs. -/
theorem computeDistances_spec [ToString α] {graph : Graph α} {weight : Option (α → α → W)} {s : α}
    (hw : ∀ a b, EdgeOf graph a b → 0 ≤ stepCost weight a b) (hgraph : ClosedGraph graph)
    (hs : (graph.get? s).isSome) :
    ∃ distances, computeDistances graph s weight = .ok distances ∧
      Labels (EdgeOf graph) (stepCost weight) s distances.get? := by
  cases weight with
  | none =>
    obtain ⟨distances, done, hloop, h⟩ := bfsLoop_spec hgraph hs (edgeBound graph)
      (layers_start (W := W) graph s) (by simp [undone, edgeBound])
    exact ⟨distances, hloop, h.labels⟩
  | some weight =>
    obtain ⟨st, -, hloop, h, -⟩ := dijkstraLoop_labels hw hgraph hs
    exact ⟨st.distances, heapLoop_of_dijkstraLoop _ hloop, h⟩

end Proof
end CeforeEmu
