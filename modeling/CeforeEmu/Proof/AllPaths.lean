import CeforeEmu.Lib.Trails
import CeforeEmu.Proof.Distances
import CeforeEmu.Tools.M5eRoles

/-!
# All shortest paths, each once

The search of `_all_shortest_paths` sets distances as `compute_distances` does and keeps, besides,
every node a distance could have come from (`Parented`): when the queue is empty the parents of a
node are its neighbours that are one nearer to the source. The walk back along them is the way
back along the shortest paths, and different parents lead to different paths.
-/

set_option autoImplicit false

namespace CeforeEmu
namespace Proof

open CeforeEmu.Lib CeforeEmu.Core CeforeEmu.Tools

/-- The lists of neighbours are sorted sets, and every neighbour is a node. -/
structure SortedGraph (graph : Graph ℕ) : Prop where
  sorted : ∀ v nbrs, graph.get? v = some nbrs → nbrs.Pairwise (· < ·)
  closed : ClosedGraph graph

/-- A path than which there is no shorter one. -/
def ShortestPath (adj : ℕ → ℕ → Prop) (s t : ℕ) (p : List ℕ) : Prop :=
  Leads adj s t p ∧ ∀ q, Leads adj s t q → p.length ≤ q.length

/-! ## Distances are lengths -/

section Lengths

variable {adj : ℕ → ℕ → Prop} {s v u : ℕ} {p : List ℕ}

theorem costAlong_one (p : List ℕ) : costAlong (fun _ _ => 1) p = p.length - 1 := by
  induction p with
  | nil => rfl
  | cons a p ih =>
    cases p with
    | nil => rfl
    | cons b p =>
      rw [costAlong_cons_cons, ih]
      simp only [List.length_cons]
      omega

/-- A path to a neighbour goes on to the node. -/
theorem leads_snoc : Leads adj s u (p ++ [u]) ↔
    (p = [] ∧ s = u) ∨ ∃ v, adj v u ∧ Leads adj s v p := by
  rcases List.eq_nil_or_concat p with rfl | ⟨q, v, rfl⟩
  · constructor
    · intro h
      exact .inl ⟨rfl, (Option.some.inj h.first).symm⟩
    · rintro (⟨-, rfl⟩ | ⟨v, -, h⟩)
      · exact .singleton s
      · exact absurd rfl h.ne_nil
  · rw [List.concat_eq_append, List.append_assoc, List.singleton_append, leads_split]
    have hpair : Leads adj v u [v, u] ↔ adj v u := by
      constructor
      · exact fun h => (List.isChain_cons_cons.mp h.chain).1
      · exact fun h => ⟨rfl, rfl, .cons_cons h (.singleton _)⟩
    rw [hpair]
    constructor
    · rintro ⟨h, hadj⟩
      exact .inr ⟨v, hadj, h⟩
    · rintro (⟨hnil, -⟩ | ⟨v', hadj, h⟩)
      · simp at hnil
      · have hlast := h.last
        rw [List.getLast?_concat, Option.some.injEq] at hlast
        exact ⟨hlast ▸ h, hlast ▸ hadj⟩

theorem exists_leads {c : ℕ} (h : Walk adj (fun _ _ => 1) s v c) :
    ∃ p, Leads adj s v p ∧ p.length = c + 1 := by
  induction h with
  | nil => exact ⟨[s], .singleton s, rfl⟩
  | @snoc v u c _ hadj ih =>
    obtain ⟨p, hp, hlen⟩ := ih
    refine ⟨p ++ [u], leads_snoc.mpr (.inr ⟨v, hadj, hp⟩), ?_⟩
    rw [List.length_append, hlen, List.length_singleton]

/-- A least cost is the length of the shortest paths, less one. -/
theorem shortestPath_iff {d : ℕ} (hd : LeastCost adj (fun _ _ => 1) s v d) :
    ShortestPath adj s v p ↔ Leads adj s v p ∧ p.length = d + 1 := by
  have hle : ∀ {q}, Leads adj s v q → d + 1 ≤ q.length := by
    intro q hq
    have hwalk := hd.2 _ (hq.walk (w := fun _ _ => 1))
    rw [costAlong_one] at hwalk
    have hpos := List.length_pos_iff.mpr hq.ne_nil
    omega
  refine and_congr_right fun hp => ⟨fun hleast => ?_, fun hlen q hq => ?_⟩
  · obtain ⟨q, hq, hlen⟩ := exists_leads hd.1
    have hpq := hleast q hq
    have := hle hp
    omega
  · rw [hlen]
    exact hle hq

end Lengths

/-! ## The search -/

/-- The parents of the nodes so far: neighbours that are done, and one nearer. -/
structure Parented (graph : Graph ℕ) (done : List ℕ) (dist : Dict ℕ ℕ) (parents : Dict ℕ (List ℕ)) :
    Prop where
  mem : ∀ v p, p ∈ (parents.get? v).getD [] ↔
    p ∈ done ∧ EdgeOf graph p v ∧ ∃ d, dist.get? p = some d ∧ dist.get? v = some (d + 1)
  nodup : ∀ v, ((parents.get? v).getD []).Nodup

/-- A node that has no distance has no parents. -/
def Fresh (st : Reached) : Prop :=
  ∀ v, st.dist.get? v = none → (st.parents.get? v).getD [] = []

/-- One neighbour of `n`: its distance is set as `compute_distances` does, and `n` is a parent of it
    where it is one nearer. -/
theorem reach_spec (n d m : ℕ) {st : Reached} (hfresh : Fresh st) :
    ((Tools.reach n d st m).dist, (Tools.reach n d st m).queue)
        = visitNeighbor d (st.dist, st.queue) m ∧
      Fresh (Tools.reach n d st m) ∧
      (∀ v, v ≠ m → (Tools.reach n d st m).dist.get? v = st.dist.get? v) ∧
      ∀ v, ((Tools.reach n d st m).parents.get? v).getD [] = (st.parents.get? v).getD []
        ++ if v = m ∧ (st.dist.get? v = none ∨ st.dist.get? v = some (d + 1)) then [n] else [] := by
  unfold Tools.reach
  cases hdist : st.dist.get? m with
  | none =>
    refine ⟨?_, fun v hv => ?_, fun v hvm => ?_, fun v => ?_⟩
    · rw [visitNeighbor, if_neg (by simp [hdist])]
    · simp only [Dict.get?_set] at hv ⊢
      by_cases hvm : v = m
      · rw [if_pos hvm] at hv
        cases hv
      · rw [if_neg hvm] at hv ⊢
        exact hfresh v hv
    · rw [Dict.get?_set, if_neg hvm]
    · simp only [Dict.get?_set]
      by_cases hvm : v = m
      · subst hvm
        simp [hdist, hfresh v hdist]
      · simp [hvm]
  | some e =>
    have hvisit : visitNeighbor d (st.dist, st.queue) m = (st.dist, st.queue) := by
      rw [visitNeighbor, if_pos (by simp [hdist])]
    by_cases he : e = d + 1
    · simp only [if_pos he]
      refine ⟨hvisit.symm, fun v hv => ?_, fun _ _ => trivial, fun v => ?_⟩
      · have hvm : v ≠ m := by
          rintro rfl
          exact absurd (hdist.symm.trans hv) (by simp)
        simp only [Dict.get?_set, if_neg hvm]
        exact hfresh v hv
      · simp only [Dict.get?_set]
        by_cases hvm : v = m
        · subst hvm
          simp [hdist, he]
        · simp [hvm]
    · simp only [if_neg he]
      refine ⟨hvisit.symm, hfresh, fun _ _ => trivial, fun v => ?_⟩
      by_cases hvm : v = m
      · subst hvm
        simp [hdist, he]
      · simp [hvm]

/-- The loop over the neighbours sets distances as `compute_distances` does, and adds the node to the
    parents of those it is one nearer than. -/
theorem foldl_reach (n d : ℕ) : ∀ (nbrs : List ℕ) (st : Reached), nbrs.Nodup → Fresh st →
    ((nbrs.foldl (Tools.reach n d) st).dist, (nbrs.foldl (Tools.reach n d) st).queue)
        = nbrs.foldl (visitNeighbor d) (st.dist, st.queue) ∧
      ∀ v, ((nbrs.foldl (Tools.reach n d) st).parents.get? v).getD []
        = (st.parents.get? v).getD []
          ++ if v ∈ nbrs ∧ (st.dist.get? v = none ∨ st.dist.get? v = some (d + 1)) then [n] else []
  | [], st, _, _ => ⟨rfl, fun v => by simp⟩
  | m :: nbrs, st, hnodup, hfresh => by
    obtain ⟨hm, hrest⟩ := List.nodup_cons.mp hnodup
    obtain ⟨hvisit, hfresh', hother, hone⟩ := reach_spec n d m hfresh
    obtain ⟨hsame, hparents⟩ := foldl_reach n d nbrs _ hrest hfresh'
    rw [List.foldl_cons, List.foldl_cons, ← hvisit]
    refine ⟨hsame, fun v => ?_⟩
    rw [hparents, hone, List.append_assoc]
    by_cases hvm : v = m
    · -- no neighbour comes twice
      subst hvm
      simp [hm]
    · simp [hvm, hother v hvm]

section Search

variable {graph : Graph ℕ} (hgraph : SortedGraph graph)
include hgraph

theorem neighborsOf_sorted (v : ℕ) : neighborsOf graph v = (graph.get? v).getD [] := by
  rw [neighborsOf]
  cases hnbrs : graph.get? v with
  | none => rfl
  | some nbrs =>
    exact ((hgraph.sorted v nbrs hnbrs).imp fun h => le_of_lt h).insertionSort_eq

theorem neighbors_nodup (v : ℕ) : ((graph.get? v).getD []).Nodup := by
  cases hnbrs : graph.get? v with
  | none => exact List.nodup_nil
  | some nbrs => exact (hgraph.sorted v nbrs hnbrs).imp fun h => ne_of_lt h

omit hgraph in
/-- The node that is done is a parent of the neighbours that it is one nearer than. -/
theorem Parented.extend {s n d : ℕ} {done rest : List ℕ} {dist dist' : Dict ℕ ℕ}
    {parents parents' : Dict ℕ (List ℕ)} (hl : Layers graph s done (n :: rest) dist)
    (hp : Parented graph done dist parents) (hn : dist.get? n = some d) {nbrs : List ℕ}
    (hedge : ∀ v, v ∈ nbrs ↔ EdgeOf graph n v)
    (hget : ∀ v, dist'.get? v = if v ∈ nbrs ∧ dist.get? v = none then some (d + 1) else dist.get? v)
    (hparents : ∀ v, (parents'.get? v).getD [] = (parents.get? v).getD []
      ++ if v ∈ nbrs ∧ (dist.get? v = none ∨ dist.get? v = some (d + 1)) then [n] else []) :
    Parented graph (n :: done) dist' parents' := by
  have hkeep : ∀ {x dx}, dist.get? x = some dx → dist'.get? x = some dx := by
    intro x dx hx
    rw [hget, if_neg fun hnew => ?_, hx]
    rw [hnew.2] at hx
    cases hx
  have hnear : ∀ {v}, v ∈ nbrs →
      (dist.get? v = none ∨ dist.get? v = some (d + 1) ↔ dist'.get? v = some (d + 1)) := by
    intro v hv
    rw [hget]
    by_cases hnone : dist.get? v = none
    · simp [hnone, hv]
    · simp [hnone]
  -- what is done knows the distances of its neighbours already
  have hsettled : ∀ {x v dv}, x ∈ done → EdgeOf graph x v → dist'.get? v = some dv →
      dist.get? v = some dv := by
    intro x v dv hx hadj hv
    obtain ⟨e, -, hrel⟩ := hl.settled hx
    obtain ⟨dv', hdv, -⟩ := hrel v hadj
    rw [hkeep hdv, Option.some.injEq] at hv
    rw [hdv, hv]
  refine ⟨fun v p => ?_, fun v => ?_⟩
  · rw [hparents, List.mem_append, hp.mem, List.mem_cons, List.mem_ite_nil_right, List.mem_singleton]
    constructor
    · rintro (⟨hdone, hadj, e, he, hv⟩ | ⟨⟨hin, hd⟩, rfl⟩)
      · exact ⟨.inr hdone, hadj, e, hkeep he, hkeep hv⟩
      · exact ⟨.inl rfl, (hedge v).mp hin, d, hkeep hn, (hnear hin).mp hd⟩
    · rintro ⟨rfl | hdone, hadj, e, he, hv⟩
      · obtain rfl : d = e := Option.some.inj ((hkeep hn).symm.trans he)
        have hin := (hedge v).mpr hadj
        exact .inr ⟨⟨hin, (hnear hin).mpr hv⟩, rfl⟩
      · obtain ⟨e', he', -⟩ := hl.settled hdone
        obtain rfl : e' = e := Option.some.inj ((hkeep he').symm.trans he)
        exact .inl ⟨hdone, hadj, e', he', hsettled hdone hadj hv⟩
  · rw [hparents]
    refine (hp.nodup v).append ?_ fun x hx hnew => ?_
    · split
      · exact List.nodup_singleton n
      · exact List.nodup_nil
    · -- the node was not done before
      rw [List.mem_ite_nil_right, List.mem_singleton] at hnew
      exact (hl.queued List.mem_cons_self).1 (hnew.2 ▸ ((hp.mem v x).mp hx).1)

/-- **One turn of the search.** -/
theorem Parented.step {s n d : ℕ} {done rest : List ℕ} {dist : Dict ℕ ℕ} {parents : Dict ℕ (List ℕ)}
    (hl : Layers graph s done (n :: rest) dist) (hp : Parented graph done dist parents)
    (hn : dist.get? n = some d) :
    ∃ st new, ((graph.get? n).getD []).foldl (Tools.reach n d) ⟨dist, parents, rest⟩ = st ∧
      st.queue = rest ++ new ∧ new.length ≤ ((graph.get? n).getD []).length ∧
      Layers graph s (n :: done) st.queue st.dist ∧ Parented graph (n :: done) st.dist st.parents := by
  have hedge : ∀ v, v ∈ (graph.get? n).getD [] ↔ EdgeOf graph n v := by
    intro v
    rw [← neighborsOf_sorted hgraph, mem_neighborsOf]
  have hfresh : Fresh ⟨dist, parents, rest⟩ := by
    refine fun v hv => List.eq_nil_iff_forall_not_mem.mpr fun p hmem => ?_
    obtain ⟨-, -, e, -, he⟩ := (hp.mem v p).mp hmem
    rw [show dist.get? v = none from hv] at he
    cases he
  obtain ⟨hsame, hparents⟩ := foldl_reach n d _ ⟨dist, parents, rest⟩ (neighbors_nodup hgraph n) hfresh
  -- the distances and the queue are those of `compute_distances`
  obtain ⟨dist', new, hfold, hlen, hnext⟩ := hl.step hn
  obtain ⟨new', hqueue', -, -, hmem', hget⟩ := foldl_visitNeighbor d (neighborsOf graph n) dist rest
  rw [neighborsOf_sorted hgraph] at hfold hlen hmem' hget hqueue'
  rw [hfold] at hget hqueue' hsame
  obtain rfl : new = new' := List.append_cancel_left hqueue'
  simp only [hmem'] at hget
  generalize ((graph.get? n).getD []).foldl (Tools.reach n d) ⟨dist, parents, rest⟩ = st at hsame hparents ⊢
  obtain ⟨hdist, hqueue⟩ := Prod.mk.inj hsame
  rw [← hdist] at hget hnext
  exact ⟨st, new, rfl, hqueue, hlen, hqueue ▸ hnext, hp.extend hl hn hedge hget hparents⟩

/-- **The search ends** with the distances and the parents of everything that can be reached. -/
theorem reachLoop_spec {s : ℕ} (hs : (graph.get? s).isSome) :
    ∀ (fuel : ℕ) {done : List ℕ} {st : Reached}, Layers graph s done st.queue st.dist →
      Parented graph done st.dist st.parents → st.queue.length + undone graph done ≤ fuel →
      ∃ st' done', reachLoop graph fuel st = .ok st' ∧ Layers graph s done' [] st'.dist ∧
        Parented graph done' st'.dist st'.parents := by
  intro fuel
  induction fuel with
  | zero =>
    intro done st hl hp hfuel
    have hnil : st.queue = [] := List.length_eq_zero_iff.mp (by omega)
    refine ⟨st, done, ?_, hnil ▸ hl, hp⟩
    unfold reachLoop
    rw [hnil]
  | succ fuel ih =>
    intro done st hl hp hfuel
    obtain ⟨dist, parents, queue⟩ := st
    cases queue with
    | nil => exact ⟨_, done, by unfold reachLoop; rfl, hl, hp⟩
    | cons n rest =>
      obtain ⟨hout, d, hn⟩ := hl.queued List.mem_cons_self
      obtain ⟨st', new, hfold, hqueue, hlen, hl', hp'⟩ := hp.step hgraph hl hn
      obtain ⟨nbrs, hnbrs⟩ :=
        Option.isSome_iff_exists.mp (node_of_walk hgraph.closed hs (hl.walk hn))
      have hless := undone_cons hout hnbrs
      unfold reachLoop
      simp only at hn
      simp only [hn, hfold]
      refine ih hl' hp' ?_
      rw [hnbrs, Option.getD_some] at hlen
      rw [hqueue]
      simp only [List.length_cons, List.length_append] at hfuel ⊢
      omega

end Search

/-! ## The walk back -/

/-- The computation returns a list of these, each once. -/
def Lists {ε β : Type} (x : Except ε (List β)) (of : β → Prop) : Prop :=
  ∃ bs, x = .ok bs ∧ bs.Nodup ∧ ∀ b, b ∈ bs ↔ of b

/-- Lists of different things, one after another. -/
theorem Lists.concatAll {ε α β : Type} {f : α → Except ε (List β)} {of : α → β → Prop}
    (hdiff : ∀ {a a' b}, of a b → of a' b → a = a') {xs : List α} (hnodup : xs.Nodup) :
    (∀ a ∈ xs, Lists (f a) (of a)) →
      Lists (Tools.concatAll (xs.map f)) fun b => ∃ a ∈ xs, of a b := by
  induction xs with
  | nil => exact fun _ => ⟨[], rfl, List.nodup_nil, fun b => by simp⟩
  | cons a xs ih =>
    intro hall
    obtain ⟨ha, hrest⟩ := List.nodup_cons.mp hnodup
    obtain ⟨bs, hbs, hnodup₁, hmem₁⟩ := hall a List.mem_cons_self
    obtain ⟨bs', hbs', hnodup₂, hmem₂⟩ := ih hrest fun x hx => hall x (List.mem_cons_of_mem _ hx)
    refine ⟨bs ++ bs', by rw [List.map_cons, hbs, Tools.concatAll, hbs'], ?_, fun b => ?_⟩
    · refine hnodup₁.append hnodup₂ fun b hb hb' => ?_
      obtain ⟨a', ha', hof⟩ := (hmem₂ b).mp hb'
      exact ha (hdiff ((hmem₁ b).mp hb) hof ▸ ha')
    · simp only [List.mem_append, hmem₁, hmem₂, List.mem_cons, exists_eq_or_imp]

/-- What the search has left behind, for the walk back. -/
structure Searched (adj : ℕ → ℕ → Prop) (src : ℕ) (dist : Dict ℕ ℕ) (parents : Dict ℕ (List ℕ)) : Prop where
  least : ∀ v d, dist.get? v = some d ↔ LeastCost adj (fun _ _ => 1) src v d
  mem : ∀ v p, p ∈ (parents.get? v).getD [] ↔
    adj p v ∧ ∃ d, dist.get? p = some d ∧ dist.get? v = some (d + 1)
  nodup : ∀ v, ((parents.get? v).getD []).Nodup

section WalkBack

variable {adj : ℕ → ℕ → Prop} {src : ℕ} {dist : Dict ℕ ℕ} {parents : Dict ℕ (List ℕ)}
  (h : Searched adj src dist parents)
include h

/-- A shortest path comes to its node through one of the parents. -/
theorem Searched.leads_succ {node d : ℕ} (hnode : dist.get? node = some (d + 1)) {p : List ℕ} :
    (Leads adj src node p ∧ p.length = d + 1 + 1) ↔
      ∃ pp ∈ (parents.get? node).getD [], ∃ q, p = q ++ [node] ∧ Leads adj src pp q ∧ q.length = d + 1 := by
  constructor
  · rintro ⟨hp, hlen⟩
    obtain ⟨q, x, rfl⟩ : ∃ q x, p = q ++ [x] := by
      rcases List.eq_nil_or_concat p with rfl | ⟨q, x, rfl⟩
      · exact absurd rfl hp.ne_nil
      · exact ⟨q, x, List.concat_eq_append⟩
    obtain rfl : x = node := by
      have hlast := hp.last
      rw [List.getLast?_concat, Option.some.injEq] at hlast
      exact hlast
    have hlen : q.length = d + 1 := by
      rw [List.length_append, List.length_singleton] at hlen
      omega
    rcases leads_snoc.mp hp with ⟨rfl, -⟩ | ⟨pp, hadj, hq⟩
    · cases hlen
    · -- the path before is no longer than its node is away
      have hwalk := hq.walk (w := fun _ _ => 1)
      rw [costAlong_one, hlen] at hwalk
      have hpp : dist.get? pp = some d := by
        refine (h.least pp d).mpr ⟨hwalk, fun c hc => ?_⟩
        have := ((h.least x (d + 1)).mp hnode).2 _ (hc.snoc hadj)
        omega
      exact ⟨pp, (h.mem x pp).mpr ⟨hadj, d, hpp, hnode⟩, q, rfl, hq, hlen⟩
  · rintro ⟨pp, hpp, q, rfl, hq, hlen⟩
    refine ⟨leads_snoc.mpr (.inr ⟨pp, ((h.mem node pp).mp hpp).1, hq⟩), ?_⟩
    rw [List.length_append, hlen, List.length_singleton]

/-- **The walk back** lists the shortest paths to a node, each once, with what it has collected after
    them. -/
theorem Searched.walkBack : ∀ (d : ℕ) {node : ℕ} (acc : List ℕ), dist.get? node = some d →
    Lists (Tools.walkBack parents src d node acc) fun p =>
      ∃ q, p = q ++ acc.reverse ∧ Leads adj src node q ∧ q.length = d + 1 := by
  intro d
  induction d with
  | zero =>
    intro node acc hnode
    obtain ⟨q, hq, hlen⟩ := exists_leads ((h.least node 0).mp hnode).1
    obtain ⟨x, rfl⟩ := List.length_eq_one_iff.mp hlen
    obtain rfl : x = src := Option.some.inj hq.first
    obtain rfl : x = node := Option.some.inj hq.last
    refine ⟨[x :: acc.reverse], by rw [Tools.walkBack, if_pos rfl], List.nodup_singleton _, fun p => ?_⟩
    rw [List.mem_singleton]
    constructor
    · rintro rfl
      exact ⟨[x], rfl, .singleton x, rfl⟩
    · rintro ⟨q, rfl, hq', hlen'⟩
      obtain ⟨y, rfl⟩ := List.length_eq_one_iff.mp hlen'
      obtain rfl : y = x := Option.some.inj hq'.first
      rfl
  | succ d ih =>
    intro node acc hnode
    have hne : node ≠ src := by
      rintro rfl
      have hle := ((h.least node (d + 1)).mp hnode).2 0 .nil
      omega
    have hparent : ∀ pp ∈ (parents.get? node).getD [], dist.get? pp = some d := by
      intro pp hpp
      obtain ⟨-, e, he, hv⟩ := (h.mem node pp).mp hpp
      rw [hnode, Option.some.injEq, Nat.add_right_cancel_iff] at hv
      exact hv ▸ he
    have hwalks : Lists (Tools.concatAll (((parents.get? node).getD []).map fun pp =>
        Tools.walkBack parents src d pp (acc ++ [node]))) fun p => ∃ pp ∈ (parents.get? node).getD [],
          ∃ q, p = q ++ (acc ++ [node]).reverse ∧ Leads adj src pp q ∧ q.length = d + 1 := by
      refine Lists.concatAll (fun {pp pp' p} hp hp' => ?_) (h.nodup node)
        fun pp hpp => ih (acc ++ [node]) (hparent pp hpp)
      -- a path has one node before the last
      obtain ⟨q, rfl, hq, -⟩ := hp
      obtain ⟨q', heq, hq', -⟩ := hp'
      obtain rfl := List.append_cancel_right heq
      exact Option.some.inj (hq.last.symm.trans hq'.last)
    obtain ⟨paths, hpaths, hnodup, hmem⟩ := hwalks
    refine ⟨paths, by rw [Tools.walkBack, if_neg hne]; exact hpaths, hnodup, fun p => ?_⟩
    simp only [hmem, h.leads_succ hnode, List.reverse_append, List.reverse_singleton,
      List.singleton_append]
    constructor
    · rintro ⟨pp, hpp, q, rfl, hq⟩
      exact ⟨q ++ [node], by rw [List.append_assoc, List.singleton_append], pp, hpp, q, rfl, hq⟩
    · rintro ⟨-, rfl, pp, hpp, q, rfl, hq⟩
      exact ⟨pp, hpp, q, by rw [List.append_assoc, List.singleton_append], hq⟩

end WalkBack

theorem parented_start (graph : Graph ℕ) (s : ℕ) : Parented graph [] [(s, 0)] [] where
  mem v p := by simp
  nodup v := List.nodup_nil

/-- The search, from any source. -/
theorem reachLoop_searched {graph : Graph ℕ} (hgraph : SortedGraph graph) (src : ℕ) :
    ∃ st, reachLoop graph (edgeBound graph) ⟨[(src, 0)], [], [src]⟩ = .ok st ∧
      Searched (EdgeOf graph) src st.dist st.parents := by
  have hstart : Layers graph src [] [src] [(src, 0)] := layers_start graph src
  obtain ⟨st, done, hloop, hl, hp⟩ : ∃ st done,
      reachLoop graph (edgeBound graph) ⟨[(src, 0)], [], [src]⟩ = .ok st ∧
      Layers graph src done [] st.dist ∧ Parented graph done st.dist st.parents := by
    by_cases hs : (graph.get? src).isSome
    · exact reachLoop_spec hgraph hs _ hstart (parented_start graph src) (by simp [undone, edgeBound])
    · -- a node that is not in the graph has no neighbours
      rw [Option.not_isSome_iff_eq_none] at hs
      obtain ⟨st, new, hfold, hqueue, hlen, hl, hp⟩ :=
        (parented_start graph src).step hgraph hstart (d := 0) (by simp)
      rw [hs, Option.getD_none, List.foldl_nil] at hfold
      rw [hs, Option.getD_none, List.length_nil, Nat.le_zero, List.length_eq_zero_iff] at hlen
      subst hfold
      refine ⟨_, [src], ?_, hl, hp⟩
      obtain ⟨fuel, hfuel⟩ : ∃ fuel, edgeBound graph = fuel + 1 := ⟨_, Nat.add_comm _ _⟩
      rw [hfuel]
      unfold reachLoop
      simp only [Dict.get?_cons, if_true, hs, Option.getD_none, List.foldl_nil]
      unfold reachLoop
      rfl
  refine ⟨st, hloop, hl.labels.leastCost, fun v p => ?_, hp.nodup⟩
  rw [hp.mem]
  constructor
  · exact fun h => h.2
  · rintro ⟨hadj, d, hd, hv⟩
    exact ⟨(hl.pending hd).resolve_left List.not_mem_nil, hadj, d, hd, hv⟩

/-- **`_all_shortest_paths` lists exactly the shortest paths**, each once: in every graph of sorted
    neighbours, between every two nodes. There are none where there is no path. -/
theorem allShortestPaths_exact {graph : Graph ℕ} (hgraph : SortedGraph graph) (src dst : ℕ) :
    ∃ paths, allShortestPaths graph src dst = .ok paths ∧ paths.Nodup ∧
      ∀ p, p ∈ paths ↔ ShortestPath (EdgeOf graph) src dst p := by
  obtain ⟨st, hloop, hsearched⟩ := reachLoop_searched hgraph src
  simp only [allShortestPaths, hloop]
  cases hdst : st.dist.get? dst with
  | none =>
    refine ⟨[], rfl, List.nodup_nil, fun p => ⟨fun hp => (by cases hp), fun hp => ?_⟩⟩
    -- a path would have given the node a distance
    have hwalk := hp.1.walk (w := fun _ _ => 1)
    obtain ⟨d, hleast⟩ : ∃ d, LeastCost (EdgeOf graph) (fun _ _ => 1) src dst d := by
      have hex : ∃ c, Walk (EdgeOf graph) (fun _ _ => 1) src dst c := ⟨_, hwalk⟩
      classical
      exact ⟨Nat.find hex, Nat.find_spec hex, fun c hc => Nat.find_min' hex hc⟩
    rw [(hsearched.least dst d).mpr hleast] at hdst
    cases hdst
  | some d =>
    obtain ⟨paths, hpaths, hnodup, hmem⟩ := hsearched.walkBack d [] hdst
    refine ⟨paths, hpaths, hnodup, fun p => ?_⟩
    rw [hmem, shortestPath_iff ((hsearched.least dst d).mp hdst)]
    simp only [List.reverse_nil, List.append_nil, exists_eq_left']

end Proof
end CeforeEmu
