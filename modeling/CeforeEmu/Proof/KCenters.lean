import CeforeEmu.Lib.Centers
import CeforeEmu.Proof.Distances

/-!
# `select_k_centers` is within twice the best radius

The distances of a graph with symmetric, positive weights satisfy what the greedy argument needs
(`graphDist_triangle`), with `⊤` between nodes that no walk connects; paths may lead through nodes
that are excluded. `min_dist` is the distance to the nearest centre so far (`Tracks`), so the loop
takes a farthest node each time.

It stops early only when the farthest node is a centre already. Then nothing is at a positive
distance, and with positive weights everything is a centre.
-/

set_option autoImplicit false

namespace CeforeEmu
namespace Proof

open CeforeEmu.Lib CeforeEmu.Core

variable {α W : Type} [LinearOrder α] [Semiring W] [LinearOrder W]

/-! ## The distance -/

open Classical in
/-- The least cost of a walk, infinite when there is none. -/
noncomputable def graphDist (graph : Graph α) (w : α → α → W) (s v : α) : WithTop W :=
  if h : ∃ d, LeastCost (EdgeOf graph) w s v d then WithTop.some h.choose else ⊤

/-- Edges go both ways and cost the same positive amount each way. -/
structure SymmetricGraph (graph : Graph α) (w : α → α → W) : Prop where
  symm : ∀ {a b}, EdgeOf graph a b → EdgeOf graph b a
  pos : ∀ {a b}, EdgeOf graph a b → 0 < w a b
  cost : ∀ {a b}, EdgeOf graph a b → w a b = w b a

variable {graph : Graph α} {w : α → α → W}

theorem SymmetricGraph.closed (hg : SymmetricGraph graph w) : ClosedGraph graph := by
  intro v u hadj
  obtain ⟨nbrs, hnbrs, -⟩ := hg.symm hadj
  exact Option.isSome_iff_exists.mpr ⟨nbrs, hnbrs⟩

theorem graphDist_of_least {s v : α} {d : W} (h : LeastCost (EdgeOf graph) w s v d) :
    graphDist graph w s v = WithTop.some d := by
  have hex : ∃ d, LeastCost (EdgeOf graph) w s v d := ⟨d, h⟩
  rw [graphDist, dif_pos hex]
  exact congrArg _ (le_antisymm (hex.choose_spec.2 d h.1) (h.2 _ hex.choose_spec.1))

theorem graphDist_eq_some {s v : α} {d : W} :
    graphDist graph w s v = WithTop.some d ↔ LeastCost (EdgeOf graph) w s v d := by
  constructor
  · intro h
    rw [graphDist] at h
    split at h
    · rename_i hex
      exact WithTop.coe_injective h ▸ hex.choose_spec
    · exact absurd h.symm (WithTop.coe_ne_top)
  · exact graphDist_of_least

variable [IsStrictOrderedRing W]

/-- The distances are what the labels say. -/
theorem graphDist_of_labels {s : α} {label : α → Option W}
    (h : Labels (EdgeOf graph) w s label) (v : α) :
    graphDist graph w s v = ((label v).map WithTop.some).getD ⊤ := by
  cases hv : label v with
  | some d => exact graphDist_of_least ((h.leastCost v d).mp hv)
  | none =>
    rw [graphDist, dif_neg]
    · rfl
    · rintro ⟨d, hd⟩
      rw [(h.leastCost v d).mpr hd] at hv
      cases hv

theorem SymmetricGraph.exists_labels (hg : SymmetricGraph graph w) (s : α) :
    ∃ label, Labels (EdgeOf graph) w s label := by
  by_cases hs : (graph.get? s).isSome
  · have : ToString α := ⟨fun _ => ""⟩
    obtain ⟨st, -, -, h, -⟩ := dijkstraLoop_labels (fun a b hab => (hg.pos hab).le) hg.closed hs
    exact ⟨_, h⟩
  · -- nothing leads away from what is not a node
    refine ⟨fun v => if v = s then some 0 else none, ⟨0, if_pos rfl, le_refl 0⟩, ?_, ?_⟩
    · intro v d hv
      split at hv
      · rename_i heq
        cases hv
        exact heq ▸ .nil
      · cases hv
    · intro v d hv u hadj
      split at hv
      · rename_i heq
        obtain ⟨nbrs, hnbrs, -⟩ := heq ▸ hadj
        exact absurd (Option.isSome_iff_exists.mpr ⟨nbrs, hnbrs⟩) hs
      · cases hv

/-- There is a distance to whatever a walk leads to, and it is no more than the walk costs. -/
theorem SymmetricGraph.dist_le (hg : SymmetricGraph graph w) {s v : α} {c : W}
    (h : Walk (EdgeOf graph) w s v c) : graphDist graph w s v ≤ WithTop.some c := by
  obtain ⟨label, hlabel⟩ := hg.exists_labels s
  obtain ⟨d, hd⟩ := hlabel.exists_of_walk h
  have hleast := (hlabel.leastCost v d).mp hd
  rw [graphDist_of_least hleast]
  exact WithTop.coe_le_coe.mpr (hleast.2 c h)

/-- Infinite means unreachable. -/
theorem SymmetricGraph.dist_eq_top (hg : SymmetricGraph graph w) {s v : α} :
    graphDist graph w s v = ⊤ ↔ ¬ Relation.ReflTransGen (EdgeOf graph) s v := by
  rw [← exists_walk_iff (w := w), not_exists]
  constructor
  · intro h c hc
    have hle := hg.dist_le hc
    rw [h, top_le_iff] at hle
    exact WithTop.coe_ne_top hle
  · intro h
    rw [graphDist, dif_neg]
    rintro ⟨d, hd⟩
    exact h d hd.1

theorem SymmetricGraph.dist_nonneg (hg : SymmetricGraph graph w) (s v : α) :
    0 ≤ graphDist graph w s v := by
  cases hd : graphDist graph w s v with
  | top => exact le_top
  | coe d =>
    rcases (graphDist_eq_some.mp hd).1.eq_or_pos fun a b hab => hg.pos hab with ⟨-, h⟩ | h
    · exact WithTop.coe_le_coe.mpr h.ge
    · exact WithTop.coe_le_coe.mpr h.le

/-- Different nodes are apart. -/
theorem SymmetricGraph.eq_of_dist (hg : SymmetricGraph graph w) {s v : α}
    (h : graphDist graph w s v ≤ 0) : s = v := by
  cases hd : graphDist graph w s v with
  | top =>
    rw [hd, top_le_iff] at h
    exact absurd h WithTop.zero_ne_top
  | coe d =>
    rw [hd] at h
    rcases (graphDist_eq_some.mp hd).1.eq_or_pos fun a b hab => hg.pos hab with ⟨heq, -⟩ | hpos
    · exact heq
    · exact absurd hpos (not_lt.mpr (WithTop.coe_le_coe.mp h))

theorem SymmetricGraph.dist_self (hg : SymmetricGraph graph w) (v : α) :
    graphDist graph w v v = 0 :=
  le_antisymm (hg.dist_le .nil) (hg.dist_nonneg v v)

/-- The triangle inequality, through a point the two distances are measured from. -/
theorem SymmetricGraph.dist_triangle (hg : SymmetricGraph graph w) (s p q : α) :
    graphDist graph w p q ≤ graphDist graph w s p + graphDist graph w s q := by
  cases hp : graphDist graph w s p with
  | top => simp
  | coe c =>
    cases hq : graphDist graph w s q with
    | top => simp
    | coe c' =>
      have hback := (graphDist_eq_some.mp hp).1.reverse fun a b hab => ⟨hg.symm hab, hg.cost hab⟩
      exact hg.dist_le (hback.append (graphDist_eq_some.mp hq).1)

/-! ## The nodes to choose from -/

/-- The nodes that are not excluded. -/
def eligible (graph : Graph α) (exclude : List α) : Finset α :=
  (graph.map (·.1)).toFinset \ exclude.toFinset

omit [Semiring W] [LinearOrder W] [IsStrictOrderedRing W] in
theorem mem_eligibleNodes {exclude : List α} {v : α} :
    v ∈ eligibleNodes graph exclude ↔ v ∈ eligible graph exclude := by
  rw [eligibleNodes, List.mem_filter, (List.perm_insertionSort _ _).mem_iff, eligible,
    Finset.mem_sdiff, List.mem_toFinset, List.mem_toFinset, decide_eq_true_iff]

omit [Semiring W] [LinearOrder W] [IsStrictOrderedRing W] in
theorem eligibleNodes_get? {exclude : List α} {v : α} (hv : v ∈ eligibleNodes graph exclude) :
    (graph.get? v).isSome := by
  obtain ⟨hv, -⟩ := Finset.mem_sdiff.mp (mem_eligibleNodes.mp hv)
  by_contra hnone
  obtain ⟨e, he, rfl⟩ := List.mem_map.mp (List.mem_toFinset.mp hv)
  exact Dict.get?_eq_none.mp (Option.not_isSome_iff_eq_none.mp hnone) e he rfl

omit [Semiring W] [LinearOrder W] [IsStrictOrderedRing W] in
theorem eligibleNodes_nodup (hkeys : Dict.NodupKeys graph) (exclude : List α) :
    (eligibleNodes graph exclude).Nodup :=
  ((List.perm_insertionSort _ _).nodup_iff.mpr hkeys).filter _

omit [Semiring W] [LinearOrder W] [IsStrictOrderedRing W] in
theorem eligibleNodes_length (hkeys : Dict.NodupKeys graph) (exclude : List α) :
    (eligibleNodes graph exclude).length = (eligible graph exclude).card := by
  rw [← List.toFinset_card_of_nodup (eligibleNodes_nodup hkeys exclude)]
  congr 1
  ext v
  rw [List.mem_toFinset, mem_eligibleNodes]

omit [Semiring W] [LinearOrder W] [IsStrictOrderedRing W] in
theorem eligibleNodes_head {exclude : List α} {first : α} {rest : List α}
    (h : eligibleNodes graph exclude = first :: rest) : ∀ v ∈ eligible graph exclude, first ≤ v := by
  have hsorted : (eligibleNodes graph exclude).Pairwise (· ≤ ·) :=
    (List.pairwise_insertionSort (· ≤ ·) _).filter _
  rw [h, List.pairwise_cons] at hsorted
  intro v hv
  rw [← mem_eligibleNodes, h] at hv
  rcases List.mem_cons.mp hv with rfl | hv
  · exact le_refl v
  · exact hsorted.1 v hv

/-! ## Greedy choices -/

/-- `min_dist` is the distance to the nearest centre. -/
def Tracks (graph : Graph α) (w : α → α → W) (nodes centers : List α)
    (minDist : Dict α (WithTop W)) : Prop :=
  ∀ v ∈ nodes, (minDist.get? v).getD ⊤ = nearest (graphDist graph w) centers v

/-- Taking in the distances from one more centre. -/
theorem Tracks.lower {nodes centers : List α} {minDist : Dict α (WithTop W)}
    (h : Tracks graph w nodes centers minDist) (hnodup : nodes.Nodup) {c : α} {distMap : Dict α W}
    (hlabels : Labels (EdgeOf graph) w c distMap.get?) :
    Tracks graph w nodes (centers ++ [c]) (nodes.foldl (lowerDist distMap) minDist) := by
  intro v hv
  have hget : (nodes.foldl (lowerDist distMap) minDist).get? v = _ := Dict.get?_foldl
    (f := fun node old => some (min (old.getD ⊤) (((distMap.get? node).map WithTop.some).getD ⊤)))
    (fun d k => Dict.get?_set_self ..) (fun d k k' hne => Dict.get?_set_ne _ _ hne) hnodup minDist v
  rw [hget, if_pos hv, Option.getD_some, h v hv, nearest_snoc, graphDist_of_labels hlabels]

/-- The state of the loop. -/
structure Chosen (graph : Graph α) (w : α → α → W) (nodes centers : List α) : Prop where
  ne : centers ≠ []
  nodup : centers.Nodup
  sub : ∀ c ∈ centers, c ∈ nodes
  greedy : FarthestFirst (graphDist graph w) nodes centers

theorem SymmetricGraph.nearest_of_mem (hg : SymmetricGraph graph w) {centers : List α} {v : α}
    (hv : v ∈ centers) : nearest (graphDist graph w) centers v ≤ 0 :=
  (nearest_le hv v).trans (hg.dist_self v).le

/-- The farthest node is a centre only when everything is. -/
theorem Chosen.all_of_farthest {nodes centers : List α} (hg : SymmetricGraph graph w)
    (h : Chosen graph w nodes centers) {far : α} (hfar : far ∈ centers)
    (hmax : ∀ v ∈ nodes, nearest (graphDist graph w) centers v
      ≤ nearest (graphDist graph w) centers far) : ∀ v ∈ nodes, v ∈ centers := by
  intro v hv
  obtain ⟨c, hc, hdist⟩ := exists_nearest (d := graphDist graph w) h.ne v
  have hzero := (hmax v hv).trans (hg.nearest_of_mem hfar)
  rw [← hdist] at hzero
  exact hg.eq_of_dist hzero ▸ hc

/-! ## The radius -/

/-- The largest distance from a node to its nearest centre. -/
noncomputable def radius (d : α → α → WithTop W) (nodes : Finset α) (hne : nodes.Nonempty)
    (centers : Finset α) : WithTop W :=
  nodes.sup' hne fun v => centers.inf fun c => d c v

omit [LinearOrder α] [Semiring W] [IsStrictOrderedRing W] in
theorem nearest_le_radius (d : α → α → WithTop W) {nodes : Finset α} (hne : nodes.Nonempty)
    (centers : Finset α) {v : α} (hv : v ∈ nodes) :
    (centers.inf fun c => d c v) ≤ radius d nodes hne centers :=
  Finset.le_sup' (fun v => centers.inf fun c => d c v) hv

theorem SymmetricGraph.radius_nonneg (hg : SymmetricGraph graph w) {nodes : Finset α}
    (hne : nodes.Nonempty) (centers : Finset α) :
    0 ≤ radius (graphDist graph w) nodes hne centers := by
  obtain ⟨v, hv⟩ := hne
  exact (Finset.le_inf fun c _ => hg.dist_nonneg c v).trans (nearest_le_radius _ ⟨v, hv⟩ centers hv)

/-- Greedy centres and any others that are no more in number. -/
theorem Chosen.nearest_le (hg : SymmetricGraph graph w) {nodes : Finset α} (hne : nodes.Nonempty)
    {list centers : List α} (hlist : ∀ v, v ∈ list ↔ v ∈ nodes)
    (h : Chosen graph w list centers) {S : Finset α} (hS : S.card ≤ centers.length) {v : α}
    (hv : v ∈ list) : nearest (graphDist graph w) centers v
      ≤ 2 • radius (graphDist graph w) nodes hne S := by
  rcases S.eq_empty_or_nonempty with rfl | hSne
  · have htop := nearest_le_radius (graphDist graph w) hne ∅ ((hlist v).mp hv)
    rw [Finset.inf_empty, top_le_iff] at htop
    rw [htop, two_nsmul, WithTop.top_add]
    exact le_top
  · rw [two_nsmul]
    refine h.greedy.covers h.sub hg.dist_triangle hS (fun u hu => ?_) v hv
    obtain ⟨s, hs, heq⟩ := Finset.exists_mem_eq_inf S hSne fun c => graphDist graph w c u
    exact ⟨s, hs, heq ▸ nearest_le_radius _ hne S ((hlist u).mp hu)⟩

/-! ## What the loop returns -/

variable [ToString α] {weight : Option (α → α → W)}

/-- **The loop** adds the centres that are missing, or all there are. -/
theorem centersLoop_spec (hg : SymmetricGraph graph (stepCost weight)) {nodes : List α}
    (hnodup : nodes.Nodup) (hnodes : ∀ v ∈ nodes, (graph.get? v).isSome) :
    ∀ (missing : ℕ) {centers : List α} {minDist : Dict α (WithTop W)},
      Chosen graph (stepCost weight) nodes centers →
      Tracks graph (stepCost weight) nodes centers minDist →
      ∃ result, centersLoop graph weight nodes missing centers minDist = .ok result ∧
        centers <+: result ∧ Chosen graph (stepCost weight) nodes result ∧
        (result.length = centers.length + missing ∨
          result.length ≤ centers.length + missing ∧ ∀ v ∈ nodes, v ∈ result) := by
  intro missing
  induction missing with
  | zero =>
    intro centers minDist h _
    exact ⟨centers, rfl, List.prefix_refl _, h, .inl rfl⟩
  | succ missing ih =>
    intro centers minDist h htracks
    rw [centersLoop]
    cases hfar : nodes.argmax (farKey minDist) with
    | none =>
      obtain ⟨c, hc⟩ := List.exists_mem_of_ne_nil _ h.ne
      exact absurd (List.argmax_eq_none.mp hfar ▸ h.sub c hc) List.not_mem_nil
    | some far =>
      have hmem : far ∈ nodes := List.argmax_mem hfar
      have hmax : ∀ v ∈ nodes, nearest (graphDist graph (stepCost weight)) centers v
          ≤ nearest (graphDist graph (stepCost weight)) centers far := by
        intro v hv
        have hle := List.le_of_mem_argmax hv hfar
        rw [farKey, farKey, Prod.Lex.toLex_le_toLex] at hle
        rw [← htracks v hv, ← htracks far hmem]
        rcases hle with hlt | ⟨heq, -⟩
        · exact hlt.le
        · exact heq.le
      simp only
      by_cases hin : far ∈ centers
      · rw [if_pos hin]
        exact ⟨centers, rfl, List.prefix_refl _, h, .inr ⟨by omega, h.all_of_farthest hg hin hmax⟩⟩
      · rw [if_neg hin]
        obtain ⟨distMap, hdist, hlabels⟩ :=
          computeDistances_spec (fun a b hab => (hg.pos hab).le) hg.closed (hnodes far hmem)
        rw [hdist]
        have hnext : Chosen graph (stepCost weight) nodes (centers ++ [far]) := by
          refine ⟨by simp, ?_, fun c hc => ?_, h.greedy.snoc hmax⟩
          · exact List.nodup_append'.mpr ⟨h.nodup, List.nodup_singleton _, by simpa using hin⟩
          · rcases List.mem_append.mp hc with hc | hc
            · exact h.sub c hc
            · exact List.mem_singleton.mp hc ▸ hmem
        obtain ⟨result, hresult, hpre, hchosen, hend⟩ := ih hnext (htracks.lower hnodup hlabels)
        refine ⟨result, hresult, (List.prefix_append _ _).trans hpre, hchosen, ?_⟩
        rw [List.length_append, List.length_singleton] at hend
        rcases hend with hend | ⟨hend, hall⟩
        · exact .inl (by omega)
        · exact .inr ⟨by omega, hall⟩

/-- **Farthest-first centres.** For every graph with edges both ways and positive weights, the same
    both ways, or no weights at all; for whatever is excluded, unless nothing is left; and for every
    `k` of at least 1: the result is `k` eligible nodes, all different, or all of them if there are
    fewer; the first is the smallest; and its radius is at most twice that of any `k` eligible
    centres. -/
theorem selectKCenters_spec {exclude : List α} {k : ℤ} (hkeys : Dict.NodupKeys graph)
    (hg : SymmetricGraph graph (stepCost weight)) (hk : 1 ≤ k)
    (hne : (eligible graph exclude).Nonempty) :
    ∃ centers, selectKCenters graph k weight exclude = .ok centers ∧
      centers.length = min k.toNat (eligible graph exclude).card ∧ centers.Nodup ∧
      (∀ c ∈ centers, c ∈ eligible graph exclude) ∧
      (∃ first, centers.head? = some first ∧ ∀ v ∈ eligible graph exclude, first ≤ v) ∧
      ∀ S ⊆ eligible graph exclude, (S.card : ℤ) ≤ k →
        radius (graphDist graph (stepCost weight)) (eligible graph exclude) hne centers.toFinset
          ≤ 2 • radius (graphDist graph (stepCost weight)) (eligible graph exclude) hne S := by
  have hnodup := eligibleNodes_nodup hkeys exclude
  have hnodes : ∀ v ∈ eligibleNodes graph exclude, (graph.get? v).isSome :=
    fun v hv => eligibleNodes_get? hv
  have hcard := eligibleNodes_length hkeys exclude
  cases hlist : eligibleNodes graph exclude with
  | nil =>
    obtain ⟨v, hv⟩ := hne
    rw [← mem_eligibleNodes, hlist] at hv
    cases hv
  | cons first rest =>
    have hfirst : first ∈ eligibleNodes graph exclude := hlist ▸ List.mem_cons_self
    obtain ⟨distances, hdist, hlabels⟩ :=
      computeDistances_spec (fun a b hab => (hg.pos hab).le) hg.closed (hnodes first hfirst)
    have hstart : Chosen graph (stepCost weight) (eligibleNodes graph exclude) [first] :=
      ⟨by simp, List.nodup_singleton _, fun c hc => List.mem_singleton.mp hc ▸ hfirst,
        farthestFirst_singleton _ _ _⟩
    have htracks : Tracks graph (stepCost weight) (eligibleNodes graph exclude) [first]
        (distances.map fun e => (e.1, WithTop.some e.2)) := by
      intro v hv
      rw [Dict.get?_map_snd, nearest_cons, nearest_nil, min_eq_left le_top,
        graphDist_of_labels hlabels]
    obtain ⟨centers, hloop, hpre, hchosen, hend⟩ :=
      centersLoop_spec hg hnodup hnodes (k - 1).toNat hstart htracks
    refine ⟨centers, ?_, ?_, hchosen.nodup, fun c hc => mem_eligibleNodes.mp (hchosen.sub c hc),
      ⟨first, ?_, eligibleNodes_head hlist⟩, fun S hS hSk => ?_⟩
    · rw [selectKCenters, hlist]
      simp only [if_neg (show ¬ k ≤ 0 by omega), hdist]
      exact hlist ▸ hloop
    · rw [← hcard]
      have hle : centers.length ≤ (eligibleNodes graph exclude).length :=
        (hchosen.nodup.subperm hchosen.sub).length_le
      rw [List.length_singleton] at hend
      rcases hend with hend | ⟨hend, hall⟩
      · omega
      · have hge := (hnodup.subperm hall).length_le
        omega
    · obtain ⟨tail, htail⟩ := hpre
      rw [← htail]
      rfl
    · refine Finset.sup'_le _ _ fun v hv => ?_
      rw [← nearest_eq_inf]
      rw [List.length_singleton] at hend
      rcases hend with hend | ⟨-, hall⟩
      · exact hchosen.nearest_le hg hne (fun v => mem_eligibleNodes) (by omega)
          (mem_eligibleNodes.mpr hv)
      · refine (hg.nearest_of_mem (hall v (mem_eligibleNodes.mpr hv))).trans ?_
        exact nsmul_nonneg (hg.radius_nonneg hne S) 2

/-! ## Any edges at all -/

section AnyEdges

variable (hw : ∀ a b, EdgeOf graph a b → 0 ≤ stepCost weight a b) (hgraph : ClosedGraph graph)
  {nodes : List α} (hnodes : ∀ v ∈ nodes, (graph.get? v).isSome)

include hw hgraph hnodes in
/-- The loop only ever adds nodes that it has not added before. -/
theorem centersLoop_returns : ∀ (missing : ℕ) {centers : List α} (minDist : Dict α (WithTop W)),
    centers ≠ [] → centers.Nodup → (∀ c ∈ centers, c ∈ nodes) →
    ∃ result, centersLoop graph weight nodes missing centers minDist = .ok result ∧
      result ≠ [] ∧ result.Nodup ∧ ∀ c ∈ result, c ∈ nodes := by
  intro missing
  induction missing with
  | zero =>
    intro centers minDist hne hnodup hsub
    exact ⟨centers, rfl, hne, hnodup, hsub⟩
  | succ missing ih =>
    intro centers minDist hne hnodup hsub
    rw [centersLoop]
    cases hfar : nodes.argmax (farKey minDist) with
    | none =>
      obtain ⟨c, hc⟩ := List.exists_mem_of_ne_nil _ hne
      exact absurd (List.argmax_eq_none.mp hfar ▸ hsub c hc) List.not_mem_nil
    | some far =>
      have hmem : far ∈ nodes := List.argmax_mem hfar
      simp only
      by_cases hin : far ∈ centers
      · rw [if_pos hin]
        exact ⟨centers, rfl, hne, hnodup, hsub⟩
      · rw [if_neg hin]
        obtain ⟨distMap, hdist, -⟩ := computeDistances_spec hw hgraph (hnodes far hmem)
        rw [hdist]
        refine ih _ (by simp) ?_ fun c hc => ?_
        · exact List.nodup_append'.mpr ⟨hnodup, List.nodup_singleton _, by simpa using hin⟩
        · rcases List.mem_append.mp hc with hc | hc
          · exact hsub c hc
          · exact List.mem_singleton.mp hc ▸ hmem

end AnyEdges

/-- In any graph whose edges lead to its nodes the result is eligible nodes, all different, and
    there are none only if none are asked for or none are eligible. -/
theorem selectKCenters_returns (hw : ∀ a b, EdgeOf graph a b → 0 ≤ stepCost weight a b)
    (hgraph : ClosedGraph graph) (k : ℤ) (exclude : List α) :
    ∃ centers, selectKCenters graph k weight exclude = .ok centers ∧ centers.Nodup ∧
      (∀ c ∈ centers, c ∈ eligibleNodes graph exclude) ∧
      (centers = [] ↔ k ≤ 0 ∨ eligibleNodes graph exclude = []) := by
  rw [selectKCenters]
  cases hlist : eligibleNodes graph exclude with
  | nil => exact ⟨[], rfl, List.nodup_nil, by simp, by simp⟩
  | cons first rest =>
    by_cases hk : k ≤ 0
    · simp only [if_pos hk]
      exact ⟨[], rfl, List.nodup_nil, by simp, by simp [hk]⟩
    · have hnodes : ∀ v ∈ first :: rest, (graph.get? v).isSome := by
        intro v hv
        rw [← hlist] at hv
        exact eligibleNodes_get? hv
      obtain ⟨distances, hdist, -⟩ := computeDistances_spec hw hgraph (hnodes first List.mem_cons_self)
      simp only [if_neg hk, hdist]
      obtain ⟨centers, hloop, hne, hnodup, hsub⟩ := centersLoop_returns hw hgraph hnodes (k - 1).toNat
        (distances.map fun e => (e.1, WithTop.some e.2)) (List.cons_ne_nil first [])
        (List.nodup_singleton first) (fun c hc => List.mem_singleton.mp hc ▸ List.mem_cons_self)
      refine ⟨centers, hloop, hnodup, hsub, ?_⟩
      simp [hne, hk]

/-- Three nodes on a line. -/
def lineGraph : Graph ℕ := [(0, [1]), (1, [0, 2]), (2, [1])]

theorem lineGraph_symmetric : SymmetricGraph lineGraph (stepCost (none : Option (ℕ → ℕ → ℕ))) := by
  have hedge : ∀ {a b}, EdgeOf lineGraph a b ↔
      (a = 0 ∧ b = 1) ∨ (a = 1 ∧ (b = 0 ∨ b = 2)) ∨ (a = 2 ∧ b = 1) := by
    intro a b
    simp only [EdgeOf, lineGraph, Dict.get?_cons, Dict.get?_nil]
    split_ifs <;> simp <;> omega
  refine ⟨fun {a b} h => ?_, fun _ => zero_lt_one, fun _ => rfl⟩
  rw [hedge] at h ⊢
  omega

/-- The middle of the line is excluded but still on the way, and one centre is asked for. -/
theorem selectKCenters_spec_line : ∃ centers,
    selectKCenters lineGraph 1 (none : Option (ℕ → ℕ → ℕ)) [1] = .ok centers ∧
      centers.length = 1 ∧ ∀ S ⊆ eligible lineGraph [1], (S.card : ℤ) ≤ 1 →
        radius (graphDist lineGraph (stepCost (none : Option (ℕ → ℕ → ℕ)))) (eligible lineGraph [1])
            ⟨0, by decide⟩ centers.toFinset
          ≤ 2 • radius (graphDist lineGraph (stepCost (none : Option (ℕ → ℕ → ℕ))))
            (eligible lineGraph [1]) ⟨0, by decide⟩ S := by
  obtain ⟨centers, hok, hlen, -, -, -, hradius⟩ := selectKCenters_spec
    (show Dict.NodupKeys lineGraph by unfold Dict.NodupKeys; decide) lineGraph_symmetric
    (le_refl 1) (⟨0, by decide⟩ : (eligible lineGraph [1]).Nonempty)
  exact ⟨centers, hok, hlen, hradius⟩

end Proof
end CeforeEmu
