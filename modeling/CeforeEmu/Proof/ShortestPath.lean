import CeforeEmu.Proof.Dijkstra

/-!
# `shortest_path` finds a cheapest path

The bans only remove edges, so the search is the one of `dijkstra_all` on a smaller graph
(`restrict`), stopped when it comes to the target. When the target is popped, a walk to it has come
through a node that is still in the heap, and none of these is nearer; the path is the way its
parents lead back.
-/

set_option autoImplicit false

namespace CeforeEmu
namespace Proof

open CeforeEmu.Lib CeforeEmu.Core

variable {α W : Type} [LinearOrder α] [LinearOrder W]

/-! ## The graph without what is banned -/

/-- The edges `shortest_path` may take. -/
def AllowedEdge (graph : Graph α) (bannedEdges : List (α × α)) (bannedNodes : List α) (target : α)
    (a b : α) : Prop :=
  EdgeOf graph a b ∧ allowed bannedEdges bannedNodes target a b = true

/-- Without bans every edge is allowed. -/
theorem allowedEdge_nil {graph : Graph α} {target a b : α} :
    AllowedEdge graph [] [] target a b ↔ EdgeOf graph a b := by
  simp [AllowedEdge, allowed, edgeBanned]

def restrict (graph : Graph α) (allowed : α → α → Bool) : Graph α :=
  graph.map fun e => (e.1, e.2.filter (allowed e.1))

theorem get?_restrict (graph : Graph α) (allowed : α → α → Bool) (v : α) :
    (restrict graph allowed).get? v = (graph.get? v).map fun nbrs => nbrs.filter (allowed v) := by
  induction graph with
  | nil => rfl
  | cons e graph ih =>
    rw [restrict, List.map_cons, Dict.get?_cons]
    by_cases hv : e.1 = v
    · rw [if_pos hv, Dict.get?_cons, if_pos hv, Option.map_some, hv]
    · rw [if_neg hv, Dict.get?_cons, if_neg hv]
      exact ih

theorem edgeOf_restrict {graph : Graph α} {allowed : α → α → Bool} {v u : α} :
    EdgeOf (restrict graph allowed) v u ↔ EdgeOf graph v u ∧ allowed v u = true := by
  simp only [EdgeOf, get?_restrict, Option.map_eq_some_iff]
  constructor
  · rintro ⟨-, ⟨nbrs, hnbrs, rfl⟩, hu⟩
    obtain ⟨hu, hallowed⟩ := List.mem_filter.mp hu
    exact ⟨⟨nbrs, hnbrs, hu⟩, hallowed⟩
  · rintro ⟨⟨nbrs, hnbrs, hu⟩, hallowed⟩
    exact ⟨_, ⟨nbrs, hnbrs, rfl⟩, List.mem_filter.mpr ⟨hu, hallowed⟩⟩

theorem closedGraph_restrict {graph : Graph α} (hgraph : ClosedGraph graph)
    (allowed : α → α → Bool) : ClosedGraph (restrict graph allowed) := by
  intro v u hvu
  rw [get?_restrict, Option.isSome_map]
  exact hgraph v u (edgeOf_restrict.mp hvu).1

theorem undone_restrict (graph : Graph α) (allowed : α → α → Bool) :
    1 + undone (restrict graph allowed) [] ≤ edgeBound graph := by
  simp only [undone, edgeBound, List.not_mem_nil, not_false_eq_true, decide_true,
    List.filter_true, restrict, List.map_map]
  refine Nat.add_le_add_left (List.sum_le_sum fun e _ => ?_) 1
  exact List.length_filter_le _ _

variable [AddCommMonoid W]

/-! ## The loop -/

section Loop

variable {graph : Graph α} {w : α → α → W} {s target : α} {done : List α} {cur : W}
  {st : Search α W}

/-- What the search comes to: no walk leads to the target, or its parents lead back along a
    cheapest one. -/
def Found (graph : Graph α) (w : α → α → W) (s target : α) (parents : Dict α (Option α)) : Prop :=
  (parents.get? target = none ∧ ∀ c, ¬ Walk (EdgeOf graph) w s target c) ∨
    ∃ p, Follows parents target p ∧ p.Nodup ∧ Leads (EdgeOf graph) s target p.reverse ∧
      ∀ c, Walk (EdgeOf graph) w s target c → costAlong w p.reverse ≤ c

variable [IsOrderedAddMonoid W]

/-- A walk comes to a node that is done, at no more than it costs, or has left for one in the
    heap, and none of these is nearer than the first. -/
theorem Progress.walk_cases {d : W} (hw : ∀ a b, 0 ≤ w a b)
    (hp : Progress graph w s done none cur st) (hfirst : ∀ {d' v}, (d', v) ∈ st.heap → d ≤ d')
    {v : α} {c : W} (hwalk : Walk (EdgeOf graph) w s v c) :
    (v ∈ done ∧ ∃ d', st.distances.get? v = some d' ∧ d' ≤ c) ∨ d ≤ c := by
  have hlabel : ∀ {x d' c}, st.distances.get? x = some d' → d' ≤ c →
      (x ∈ done ∧ ∃ d', st.distances.get? x = some d' ∧ d' ≤ c) ∨ d ≤ c := by
    intro x d' c hd' hle
    rcases hp.pending hd' with hheap | hdone | hactive
    · exact .inr ((hfirst hheap).trans hle)
    · exact .inl ⟨hdone, d', hd', hle⟩
    · cases hactive
  induction hwalk with
  | nil =>
    obtain ⟨d₀, hd₀, hle⟩ := hp.source
    exact hlabel hd₀ hle
  | @snoc x y c _ hadj ih =>
    rcases ih with ⟨hdone, d', hd', hle⟩ | hle
    · obtain ⟨d'', hd'', -, -, hrel⟩ := hp.settled hdone
      rw [hd', Option.some.injEq] at hd''
      obtain ⟨e, he, hle'⟩ := hrel y hadj
      exact hlabel he (hle'.trans (hd'' ▸ add_le_add_left hle _))
    · exact .inr (hle.trans (le_add_of_nonneg_right (hw x y)))

/-- The heap is empty: what has no distance cannot be reached. -/
theorem found_of_empty (hp : Progress graph w s done none cur st)
    (ht : Traced graph w s done none st) (htarget : target ∉ done) (hheap : st.heap = []) :
    Found graph w s target st.parents := by
  have hout : st.distances.get? target = none := by
    cases hd : st.distances.get? target with
    | none => rfl
    | some d =>
      rcases hp.pending hd with h | h | h
      · rw [hheap] at h
        cases h
      · exact absurd h htarget
      · cases h
  refine .inl ⟨?_, fun c hwalk => ?_⟩
  · rw [← Option.not_isSome_iff_eq_none]
    intro hsome
    have hlabelled := ht.labelled hsome
    rw [hout] at hlabelled
    cases hlabelled
  · obtain ⟨d, hd⟩ := (hp.labels hheap).exists_of_walk hwalk
    rw [hout] at hd
    cases hd

/-- The target is popped: its distance is the least. -/
theorem found_of_pop {d : W} {heap : List (W × α)} (hw : ∀ a b, 0 ≤ w a b)
    (hp : Progress graph w s done none cur st) (ht : Traced graph w s done none st)
    (htarget : target ∉ done) (hheap : st.heap = (d, target) :: heap) :
    Found graph w s target st.parents := by
  have hfirst : ∀ {d' v}, (d', v) ∈ st.heap → d ≤ d' := by
    intro d' v hv
    have hsorted := hp.sorted
    rw [hheap] at hsorted hv
    rcases List.mem_cons.mp hv with heq | hv
    · cases heq
      exact le_refl d
    · have hle := (List.pairwise_cons.mp hsorted).1 _ hv
      rw [Prod.Lex.toLex_le_toLex] at hle
      exact hle.elim le_of_lt fun h => h.1.le
  obtain ⟨d', hd', hle⟩ := hp.entry (hheap ▸ List.mem_cons_self : (d, target) ∈ st.heap)
  obtain ⟨p, hfollow, hnodup, -, hleads, hcost⟩ := ht.follows hd'
  refine .inr ⟨p, hfollow, hnodup, hleads, fun c hwalk => ?_⟩
  rcases hp.walk_cases hw hfirst hwalk with ⟨hdone, -⟩ | hle'
  · exact absurd hdone htarget
  · exact hcost ▸ hle.trans hle'

end Loop

variable [IsOrderedAddMonoid W] [ToString α]

/-- **The loop ends**, within its fuel, and comes to a cheapest path or to none. -/
theorem shortestPathLoop_spec {graph : Graph α} {w : α → α → W} {s target : α}
    {bannedEdges : List (α × α)} {bannedNodes : List α} (hw : ∀ a b, 0 ≤ w a b)
    (hgraph : ClosedGraph graph) (fuel : ℕ) : ∀ {done : List α} {cur : W} {st : Search α W},
      Progress (restrict graph (allowed bannedEdges bannedNodes target)) w s done none cur st →
      Traced (restrict graph (allowed bannedEdges bannedNodes target)) w s done none st →
      target ∉ done →
      st.heap.length + undone (restrict graph (allowed bannedEdges bannedNodes target)) done ≤ fuel →
      ∃ st', shortestPathLoop graph target bannedEdges bannedNodes w fuel st = .ok st' ∧
        Found (restrict graph (allowed bannedEdges bannedNodes target)) w s target st'.parents := by
  have hclosed := closedGraph_restrict hgraph (allowed bannedEdges bannedNodes target)
  induction fuel with
  | zero =>
    intro done cur st hp ht htarget hfuel
    have hnil : st.heap = [] := List.length_eq_zero_iff.mp (by omega)
    refine ⟨st, ?_, found_of_empty hp ht htarget hnil⟩
    unfold shortestPathLoop
    rw [hnil]
  | succ fuel ih =>
    intro done cur st hp ht htarget hfuel
    cases hheap : st.heap with
    | nil =>
      refine ⟨st, ?_, found_of_empty hp ht htarget hheap⟩
      unfold shortestPathLoop
      rw [hheap]
    | cons e heap =>
      obtain ⟨d, v⟩ := e
      rw [hheap, List.length_cons] at hfuel
      unfold shortestPathLoop
      rw [hheap]
      simp only
      by_cases hv : v = target
      · rw [if_pos hv]
        have hfound := found_of_pop hw hp ht htarget (hv ▸ hheap)
        exact ⟨_, rfl, hfound⟩
      rw [if_neg hv]
      by_cases hstale : some d ≠ st.distances.get? v
      · rw [if_pos hstale]
        exact ih (hp.drop hheap hstale) (ht.mono fun _ h => h) htarget (by simp only; omega)
      rw [if_neg hstale]
      have hlive : st.distances.get? v = some d := (not_not.mp hstale).symm
      obtain ⟨hnew, hactive⟩ := hp.pop hheap hlive
      obtain ⟨allowedNbrs, hallowed⟩ := Option.isSome_iff_exists.mp (hp.node hlive)
      have hnbrs := hallowed
      rw [get?_restrict, Option.map_eq_some_iff] at hnbrs
      obtain ⟨nbrs, hnbrs, rfl⟩ := hnbrs
      rw [hnbrs]
      simp only
      -- what is left of the sorted neighbours are the neighbours in the smaller graph
      have hmem : ∀ u, u ∈ (nbrs.insertionSort (· ≤ ·)).filter
          (allowed bannedEdges bannedNodes target v) ↔
          u ∈ nbrs.filter (allowed bannedEdges bannedNodes target v) := by
        intro u
        rw [List.mem_filter, List.mem_filter, (List.perm_insertionSort _ nbrs).mem_iff]
      have hedge : ∀ u ∈ (nbrs.insertionSort (· ≤ ·)).filter
          (allowed bannedEdges bannedNodes target v),
          EdgeOf (restrict graph (allowed bannedEdges bannedNodes target)) v u :=
        fun u hu => ⟨_, hallowed, (hmem u).mp hu⟩
      obtain ⟨hp', -, hall, hlen⟩ := hactive.relax_all (fun a b _ => hw a b) hclosed _ hedge
      have hdone := hp'.finish hallowed fun u hu => hall u ((hmem u).mpr hu)
      have htraced := (ht.activate v).relax_all (fun a b _ => hw a b) hclosed _ hedge hactive
      refine ih hdone htraced.finish ?_ ?_
      · rintro (_ | ⟨_, hmem⟩)
        · exact hv rfl
        · exact htarget hmem
      · have hless := undone_cons hnew hallowed
        have hsame : ((nbrs.insertionSort (· ≤ ·)).filter
            (allowed bannedEdges bannedNodes target v)).length
            = (nbrs.filter (allowed bannedEdges bannedNodes target v)).length :=
          ((List.perm_insertionSort _ nbrs).filter _).length_eq
        simp only at hlen ⊢
        omega

/-- What `shortest_path` returns, when its edges are `adj`: nothing if no walk leads there, and a
    simple path that costs no more than any walk otherwise. -/
def CheapestPath (adj : α → α → Prop) (w : α → α → W) (s target : α) : Option (List α) → Prop
  | none => ∀ c, ¬ Walk adj w s target c
  | some p => SimplePath adj s target p ∧ ∀ c, Walk adj w s target c → costAlong w p ≤ c

section Spec

variable {graph : Graph α} {w : α → α → W} {s target : α} {bannedEdges : List (α × α)}
  {bannedNodes : List α}

/-- **`shortest_path` is right.** -/
theorem shortestPath_spec (hw : ∀ a b, 0 ≤ w a b) (hgraph : ClosedGraph graph)
    (hs : s ≠ target → (graph.get? s).isSome) :
    ∃ found, shortestPath graph s target bannedEdges bannedNodes w = .ok found ∧
      CheapestPath (AllowedEdge graph bannedEdges bannedNodes target) w s target found := by
  have hadj : ∀ a b, EdgeOf (restrict graph (allowed bannedEdges bannedNodes target)) a b ↔
      AllowedEdge graph bannedEdges bannedNodes target a b := fun a b => edgeOf_restrict
  have hwalk : ∀ {c}, Walk (AllowedEdge graph bannedEdges bannedNodes target) w s target c →
      Walk (EdgeOf (restrict graph (allowed bannedEdges bannedNodes target))) w s target c :=
    fun h => h.mono fun a b => (hadj a b).mpr
  rw [shortestPath]
  by_cases hst : s = target
  · subst hst
    rw [if_pos rfl]
    refine ⟨_, rfl, ⟨⟨rfl, rfl, .singleton _⟩, List.nodup_singleton _⟩, fun c hc => ?_⟩
    rw [costAlong_singleton]
    exact hc.nonneg hw
  rw [if_neg hst]
  obtain ⟨st, hloop, hfound⟩ := shortestPathLoop_spec hw hgraph (edgeBound graph)
    (progress_start (by rw [get?_restrict, Option.isSome_map]; exact hs hst)) traced_start
    List.not_mem_nil (undone_restrict graph _)
  rw [hloop]
  simp only
  rcases hfound with ⟨hnone, hno⟩ | ⟨p, hfollow, hnodup, hleads, hleast⟩
  · rw [hnone, Option.isNone_none, if_pos rfl]
    exact ⟨_, rfl, fun c hc => hno c (hwalk hc)⟩
  · obtain ⟨parent, hparent⟩ := Option.isSome_iff_exists.mp
      (hfollow.isSome target (by simpa using hleads.mem_last))
    rw [hparent, Option.isNone_some, if_neg Bool.false_ne_true,
      followParents_eq hfollow (hfollow.length_le hnodup)]
    refine ⟨_, rfl, ⟨hleads.mono fun a b => (hadj a b).mp, ?_⟩, fun c hc => hleast c (hwalk hc)⟩
    exact List.nodup_reverse.mpr hnodup

end Spec

/-! ## Under bans -/

/-- A simple path that takes no banned edge, either way round, and comes to no banned node but its
    last. -/
structure UnbannedPath (graph : Graph α) (bannedEdges : List (α × α)) (bannedNodes : List α)
    (s target : α) (p : List α) : Prop extends SimplePath (EdgeOf graph) s target p where
  edges : p.IsChain fun a b => (a, b) ∉ bannedEdges ∧ (b, a) ∉ bannedEdges
  nodes : ∀ x ∈ p, x ∈ bannedNodes → x = target

section Bans

variable {graph : Graph α} {bannedEdges : List (α × α)} {bannedNodes : List α}
  {s target : α}

omit [ToString α] in
theorem allowedEdge_iff {a b : α} : AllowedEdge graph bannedEdges bannedNodes target a b ↔
    EdgeOf graph a b ∧ ((a, b) ∉ bannedEdges ∧ (b, a) ∉ bannedEdges) ∧
      (b ∈ bannedNodes → b = target) := by
  simp [AllowedEdge, allowed, edgeBanned, or_iff_not_imp_left]

omit [ToString α] in
/-- Along the edges the search may take nothing is banned but the target, if the start is not. -/
theorem isChain_allowedEdge {p : List α} : ∀ {a : α}, (a ∈ bannedNodes → a = target) →
    ((a :: p).IsChain (AllowedEdge graph bannedEdges bannedNodes target) ↔
      (a :: p).IsChain (EdgeOf graph) ∧
      (a :: p).IsChain (fun a b => (a, b) ∉ bannedEdges ∧ (b, a) ∉ bannedEdges) ∧
      ∀ x ∈ a :: p, x ∈ bannedNodes → x = target) := by
  induction p with
  | nil =>
    intro a ha
    simpa using ha
  | cons b p ih =>
    intro a ha
    rw [List.isChain_cons_cons, List.isChain_cons_cons, List.isChain_cons_cons, allowedEdge_iff]
    constructor
    · rintro ⟨⟨hedge, hunbanned, hb⟩, hchain⟩
      obtain ⟨hedges, hbans, hnodes⟩ := (ih hb).mp hchain
      refine ⟨⟨hedge, hedges⟩, ⟨hunbanned, hbans⟩, fun x hx => ?_⟩
      rcases List.mem_cons.mp hx with rfl | hx
      · exact ha
      · exact hnodes x hx
    · rintro ⟨⟨hedge, hedges⟩, ⟨hunbanned, hbans⟩, hnodes⟩
      have hrest : ∀ x ∈ b :: p, x ∈ bannedNodes → x = target :=
        fun x hx => hnodes x (List.mem_cons_of_mem _ hx)
      have hb := hrest b List.mem_cons_self
      exact ⟨⟨hedge, hunbanned, hb⟩, (ih hb).mpr ⟨hedges, hbans, hrest⟩⟩

omit [ToString α] in
theorem unbannedPath_iff {p : List α} (hs : s ∉ bannedNodes) :
    UnbannedPath graph bannedEdges bannedNodes s target p ↔
      SimplePath (AllowedEdge graph bannedEdges bannedNodes target) s target p := by
  have hchain : p.head? = some s → (p.IsChain (AllowedEdge graph bannedEdges bannedNodes target) ↔
      p.IsChain (EdgeOf graph) ∧
      p.IsChain (fun a b => (a, b) ∉ bannedEdges ∧ (b, a) ∉ bannedEdges) ∧
      ∀ x ∈ p, x ∈ bannedNodes → x = target) := by
    intro hfirst
    obtain ⟨rest, rfl⟩ := List.head?_eq_some_iff.mp hfirst
    exact isChain_allowedEdge fun h => absurd h hs
  constructor
  · intro h
    exact ⟨⟨h.first, h.last, (hchain h.first).mpr ⟨h.chain, h.edges, h.nodes⟩⟩, h.nodup⟩
  · intro h
    obtain ⟨hedges, hbans, hnodes⟩ := (hchain h.first).mp h.chain
    exact ⟨⟨⟨h.first, h.last, hedges⟩, h.nodup⟩, hbans, hnodes⟩

variable {w : α → α → W}

/-- From a node that is not banned, `shortest_path` ends with a cheapest path among those that the
    bans leave, and with `None` if they leave none. -/
theorem shortest_path_under_bans (hw : ∀ a b, 0 ≤ w a b) (hgraph : ClosedGraph graph)
    (hs : (graph.get? s).isSome) (hbanned : s ∉ bannedNodes) :
    ∃ found, shortestPath graph s target bannedEdges bannedNodes w = .ok found ∧
      (∀ p, found = some p → UnbannedPath graph bannedEdges bannedNodes s target p ∧
        ∀ q, UnbannedPath graph bannedEdges bannedNodes s target q →
          pathCost w p ≤ pathCost w q) ∧
      (found = none ↔ ¬ ∃ p, UnbannedPath graph bannedEdges bannedNodes s target p) := by
  obtain ⟨found, hok, hcheapest⟩ : ∃ found,
      shortestPath graph s target bannedEdges bannedNodes w = .ok found ∧
        CheapestPath (AllowedEdge graph bannedEdges bannedNodes target) w s target found :=
    shortestPath_spec hw hgraph fun _ => hs
  -- a path is a walk, and the search has compared with every walk
  have hwalk : ∀ {q}, UnbannedPath graph bannedEdges bannedNodes s target q →
      Walk (AllowedEdge graph bannedEdges bannedNodes target) w s target (pathCost w q) :=
    fun hq => ((unbannedPath_iff hbanned).mp hq).walk
  refine ⟨found, hok, ?_, ?_⟩
  · intro p hp
    subst hp
    obtain ⟨hpath, hleast⟩ := hcheapest
    exact ⟨(unbannedPath_iff hbanned).mpr hpath, fun q hq => hleast _ (hwalk hq)⟩
  · cases found with
    | none =>
      refine ⟨fun _ => ?_, fun _ => rfl⟩
      rintro ⟨q, hq⟩
      exact hcheapest _ (hwalk hq)
    | some p =>
      refine ⟨fun h => (by cases h), fun hno => ?_⟩
      exact absurd ⟨p, (unbannedPath_iff hbanned).mpr hcheapest.1⟩ hno

end Bans

/-- Both ways from `0` to `3` come to `1` or `2`. -/
def forked : Graph ℕ := [(0, [1, 2, 3]), (1, [0, 3]), (2, [0, 3]), (3, [0, 1, 2])]

theorem forked_around : shortestPath forked 0 3 [(3, 0)] [1, 3] (fun _ _ => (1 : ℕ)) =
      .ok (some [0, 2, 3]) ∧ UnbannedPath forked [(3, 0)] [1, 3] 0 3 [0, 2, 3] := by
  have hclosed : ClosedGraph forked := closedGraph_of_entries (by decide)
  have hok : shortestPath forked 0 3 [(3, 0)] [1, 3] (fun _ _ => (1 : ℕ)) =
      .ok (some [0, 2, 3]) := by rfl
  have hunbanned : (0 : ℕ) ∉ [1, 3] := by decide
  obtain ⟨found, hrun, hpath, -⟩ : ∃ found, shortestPath forked 0 3 [(3, 0)] [1, 3]
      (fun _ _ => (1 : ℕ)) = .ok found ∧ _ ∧ _ :=
    shortest_path_under_bans (fun _ _ => Nat.zero_le _) hclosed rfl hunbanned
  rw [hok] at hrun
  cases hrun
  exact ⟨hok, (hpath _ rfl).1⟩

end Proof
end CeforeEmu
