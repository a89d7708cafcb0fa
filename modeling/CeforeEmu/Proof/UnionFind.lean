import Mathlib.Data.Set.Card
import CeforeEmu.Core.UnionFind
import CeforeEmu.Lib.Forest

/-!
# `UnionFind` is the equivalence closure

Its parents are a forest, and two elements are taken for equivalent when they are in one tree. A
walk of `find` moves pointers up and leaves every element under its root (`Kept`); a `union` of two
trees puts one root under the other. So after any sequence of calls the trees are the classes of the
pairs that were united (`Represents`), and every answer is about these classes.
-/

set_option autoImplicit false

namespace CeforeEmu
namespace Proof

open CeforeEmu.Lib CeforeEmu.Core

/-! ## The forest -/

/-- The parent of an element; what is no element is its own. -/
def parentOf (uf : UnionFind) (v : ℕ) : ℕ := (uf.parent[v]?).getD v

structure IsForest (n : ℕ) (rank : ℕ → ℕ) (uf : UnionFind) : Prop where
  parents : uf.parent.length = n
  sizes : uf.size.length = n
  closed : ∀ v ∈ Finset.range n, parentOf uf v ∈ Finset.range n
  ranked : Ranked (parentOf uf) rank

/-- The same sizes, and the same roots. -/
structure Kept (n : ℕ) (uf uf' : UnionFind) : Prop where
  size : uf'.size = uf.size
  roots : ∀ v ∈ Finset.range n, ∀ r, Root (parentOf uf') v r ↔ Root (parentOf uf) v r

theorem Kept.refl (n : ℕ) (uf : UnionFind) : Kept n uf uf := ⟨rfl, fun _ _ _ => Iff.rfl⟩

theorem Kept.trans {n : ℕ} {uf uf' uf'' : UnionFind} (h : Kept n uf uf') (h' : Kept n uf' uf'') :
    Kept n uf uf'' :=
  ⟨h'.size.trans h.size, fun v hv r => (h'.roots v hv r).trans (h.roots v hv r)⟩

section Forest

variable {n : ℕ} {rank : ℕ → ℕ} {uf : UnionFind} {x : ℕ}

theorem IsForest.item_parent (h : IsForest n rank uf) (hx : x ∈ Finset.range n) :
    UnionFind.item uf.parent x = .ok (parentOf uf x) := by
  have hlt : x < uf.parent.length := by
    rw [h.parents]
    exact Finset.mem_range.mp hx
  rw [UnionFind.item, parentOf, List.getElem?_eq_getElem hlt]
  rfl

theorem parentOf_set (hx : x < uf.parent.length) (p : ℕ) (size : List ℕ) :
    parentOf { parent := uf.parent.set x p, size := size }
      = Function.update (parentOf uf) x p := by
  funext v
  rw [parentOf]
  by_cases hv : v = x
  · subst hv
    rw [Function.update_self, List.getElem?_set_self hx, Option.getD_some]
  · rw [Function.update_of_ne hv, List.getElem?_set_ne (Ne.symm hv), parentOf]

/-- One turn of the walk moves one pointer up. -/
theorem IsForest.halve (h : IsForest n rank uf) (hx : x ∈ Finset.range n)
    (hne : parentOf uf x ≠ x) :
    let uf' := { uf with parent := uf.parent.set x (parentOf uf (parentOf uf x)) }
    IsForest n rank uf' ∧ Kept n uf uf' := by
  have hlt : x < uf.parent.length := by
    rw [h.parents]
    exact Finset.mem_range.mp hx
  have hparent := parentOf_set hlt (parentOf uf (parentOf uf x)) uf.size
  refine ⟨⟨?_, h.sizes, fun v hv => ?_, ?_⟩, rfl, fun v hv r => ?_⟩
  · rw [List.length_set, h.parents]
  · rw [hparent]
    by_cases hvx : v = x
    · subst hvx
      rw [Function.update_self]
      exact h.closed _ (h.closed v hv)
    · rw [Function.update_of_ne hvx]
      exact h.closed v hv
  · rw [hparent]
    exact h.ranked.halve hne
  · rw [hparent]
    exact h.ranked.root_halve hne h.closed hv

/-- A root goes under another. -/
theorem IsForest.link {top child : ℕ} (h : IsForest n rank uf) (htop : parentOf uf top = top)
    (hne : child ≠ top) (hmem : top ∈ Finset.range n) (hmem' : child ∈ Finset.range n)
    (size : List ℕ) (hsize : size.length = uf.size.length) :
    ∃ rank', IsForest n rank' { parent := uf.parent.set child top, size := size } ∧
      parentOf { parent := uf.parent.set child top, size := size }
        = Lib.link (parentOf uf) child top := by
  have hlt : child < uf.parent.length := by
    rw [h.parents]
    exact Finset.mem_range.mp hmem'
  have hparent := parentOf_set hlt top size
  obtain ⟨rank', hranked⟩ : ∃ rank', Ranked (Lib.link (parentOf uf) child top) rank' :=
    h.ranked.link htop hne
  refine ⟨rank', ⟨?_, ?_, fun v hv => ?_, ?_⟩, hparent⟩
  · rw [List.length_set, h.parents]
  · exact hsize.trans h.sizes
  · rw [hparent]
    by_cases hvc : v = child
    · subst hvc
      rw [Function.update_self]
      exact hmem
    · rw [Function.update_of_ne hvc]
      exact h.closed v hv
  · rw [hparent]
    exact hranked

/-- A root is found at once. -/
theorem IsForest.findLoop_root (h : IsForest n rank uf) (hx : x ∈ Finset.range n)
    (hroot : x = parentOf uf x) (fuel : ℕ) : UnionFind.findLoop fuel uf x = .ok (x, uf) := by
  cases fuel with
  | zero =>
    unfold UnionFind.findLoop
    rw [h.item_parent hx]
    exact if_pos hroot
  | succ fuel =>
    unfold UnionFind.findLoop
    rw [h.item_parent hx]
    exact if_pos hroot

/-- **`find` ends** at the root, and leaves every element under its own. -/
theorem IsForest.findLoop (fuel : ℕ) : ∀ {uf : UnionFind} {x : ℕ}, IsForest n rank uf →
    x ∈ Finset.range n → above (Finset.range n) rank x ≤ fuel →
    ∃ r uf', UnionFind.findLoop fuel uf x = .ok (r, uf') ∧ r ∈ Finset.range n ∧
      Root (parentOf uf) x r ∧ IsForest n rank uf' ∧ Kept n uf uf' := by
  induction fuel with
  | zero =>
    intro uf x h hx hfuel
    by_cases hroot : x = parentOf uf x
    · exact ⟨x, uf, h.findLoop_root hx hroot _, hx, .root hroot.symm, h, .refl n uf⟩
    · have := above_lt_of_rank (h.closed x hx) (h.ranked x (Ne.symm hroot))
      omega
  | succ fuel ih =>
    intro uf x h hx hfuel
    by_cases hroot : x = parentOf uf x
    · exact ⟨x, uf, h.findLoop_root hx hroot _, hx, .root hroot.symm, h, .refl n uf⟩
    · have hgrand := h.closed _ (h.closed x hx)
      have hless := above_lt_of_rank hgrand (h.ranked.lt_grandparent (Ne.symm hroot))
      obtain ⟨hforest, hkept⟩ := h.halve hx (Ne.symm hroot)
      obtain ⟨r, uf', hrun, hr, hpath, hforest', hkept'⟩ := ih hforest hgrand (by omega)
      refine ⟨r, uf', ?_, hr, ?_, hforest', hkept.trans hkept'⟩
      · unfold UnionFind.findLoop
        rw [h.item_parent hx]
        refine (if_neg hroot).trans ?_
        rw [h.item_parent (h.closed x hx)]
        exact hrun
      · exact .step (.step ((hkept.roots _ hgrand r).mp hpath))

theorem IsForest.find (h : IsForest n rank uf) (hx : x ∈ Finset.range n) :
    ∃ r uf', uf.find x = .ok (r, uf') ∧ r ∈ Finset.range n ∧ Root (parentOf uf) x r ∧
      IsForest n rank uf' ∧ Kept n uf uf' := by
  refine h.findLoop _ hx ?_
  have hlt := above_lt_card rank hx
  rw [Finset.card_range] at hlt
  rw [h.parents]
  exact hlt.le

end Forest

/-! ## The classes -/

section Classes

variable {n : ℕ} {calls : List (UnionCall n)} {uf uf' : UnionFind}

/-- The equivalence closure of the pairs that were united. -/
def Related (calls : List (UnionCall n)) : Fin n → Fin n → Prop :=
  Relation.EqvGen fun a b => UnionCall.union a b ∈ calls

theorem Related.mono {calls' : List (UnionCall n)} (h : calls ⊆ calls') {a b : Fin n}
    (hab : Related calls a b) : Related calls' a b :=
  Relation.EqvGen.mono (fun _ _ hmem => h hmem) _ _ hab

/-- The trees are the classes, and the size of each stands at its root. -/
structure Represents (calls : List (UnionCall n)) (uf : UnionFind) : Prop where
  forest : ∃ rank, IsForest n rank uf
  classes : ∀ a b : Fin n, SameTree (parentOf uf) a b ↔ Related calls a b
  sizes : ∀ r : Fin n, parentOf uf r = r →
    uf.size[(r : ℕ)]? = some (Set.ncard {v | Related calls r v})

theorem related_nil {a b : Fin n} : Related ([] : List (UnionCall n)) a b ↔ a = b := by
  constructor
  · intro h
    induction h with
    | rel _ _ hmem => cases hmem
    | refl _ => rfl
    | symm _ _ _ ih => exact ih.symm
    | trans _ _ _ _ _ ih ih' => exact ih.trans ih'
  · rintro rfl
    exact .refl a

theorem represents_new (n : ℕ) : Represents ([] : List (UnionCall n)) (UnionFind.new n) := by
  have hparent : ∀ v, parentOf (UnionFind.new n) v = v := by
    intro v
    rw [parentOf, UnionFind.new]
    by_cases hv : v < n
    · rw [List.getElem?_range hv, Option.getD_some]
    · rw [List.getElem?_eq_none (by rw [List.length_range]; omega), Option.getD_none]
  refine ⟨⟨fun _ => 0, ?_, ?_, fun v hv => ?_, fun v hv => ?_⟩, fun a b => ?_, fun r _ => ?_⟩
  · exact List.length_range
  · exact List.length_replicate
  · rw [hparent]
    exact hv
  · exact absurd (hparent v) hv
  · rw [related_nil, (Root.root (hparent a)).sameTree_iff (.root (hparent b)), Fin.val_inj]
  · have hclass : {v | Related ([] : List (UnionCall n)) r v} = {r} := by
      ext v
      exact related_nil.trans eq_comm
    rw [hclass, Set.ncard_singleton, UnionFind.new, List.getElem?_replicate_of_lt r.isLt]

theorem Represents.exists_root (h : Represents calls uf) (a : Fin n) :
    ∃ r : Fin n, Root (parentOf uf) a r := by
  obtain ⟨rank, hforest⟩ := h.forest
  obtain ⟨r, hr, hroot⟩ := hforest.ranked.exists_root hforest.closed _
    (Finset.mem_range.mpr a.isLt) (le_refl _)
  exact ⟨⟨r, Finset.mem_range.mp hr⟩, hroot⟩

/-- Nothing is lost when the roots stay. -/
theorem Represents.kept {rank : ℕ → ℕ} (h : Represents calls uf) (hkept : Kept n uf uf')
    (hforest : IsForest n rank uf') : Represents calls uf' := by
  refine ⟨⟨rank, hforest⟩, fun a b => ?_, fun r hr => ?_⟩
  · rw [← h.classes]
    refine exists_congr fun r => ?_
    rw [hkept.roots _ (Finset.mem_range.mpr a.isLt), hkept.roots _ (Finset.mem_range.mpr b.isLt)]
  · rw [← Root.self_iff, hkept.roots _ (Finset.mem_range.mpr r.isLt), Root.self_iff] at hr
    rw [hkept.size, h.sizes r hr]

/-- Only a `union` changes the relation. -/
theorem related_snoc {c : UnionCall n} (hc : ∀ a b, c ≠ .union a b) :
    Related (calls ++ [c]) = Related calls := by
  have hmem : ∀ a b, UnionCall.union a b ∈ calls ++ [c] ↔ UnionCall.union a b ∈ calls := by
    intro a b
    rw [List.mem_append, List.mem_singleton]
    exact or_iff_left (Ne.symm (hc a b))
  simp only [Related, hmem]

theorem Represents.snoc (h : Represents calls uf) {c : UnionCall n} (hc : ∀ a b, c ≠ .union a b) :
    Represents (calls ++ [c]) uf := by
  refine ⟨h.forest, fun a b => ?_, fun r hr => ?_⟩
  · rw [related_snoc hc, h.classes]
  · rw [related_snoc hc, h.sizes r hr]

/-- Elements of one class are united without an effect. -/
theorem Represents.united (h : Represents calls uf) {x y : Fin n} (hxy : Related calls x y) :
    Represents (calls ++ [.union x y]) uf := by
  have hsame : Related (calls ++ [.union x y]) = Related calls := by
    funext a b
    refine propext ⟨fun hab => ?_, Related.mono (List.subset_append_left _ _)⟩
    induction hab with
    | rel a b hmem =>
      rcases List.mem_append.mp hmem with hmem | hmem
      · exact .rel a b hmem
      · cases List.mem_singleton.mp hmem
        exact hxy
    | refl a => exact .refl a
    | symm a b _ ih => exact .symm a b ih
    | trans a b c _ _ ih ih' => exact .trans a b c ih ih'
  refine ⟨h.forest, fun a b => ?_, fun r hr => ?_⟩
  · rw [hsame, h.classes]
  · rw [hsame, h.sizes r hr]

/-- Where a root is, after `child` was put under `top`. -/
def moved (top child r : ℕ) : ℕ := if r = child then top else r

section Link

variable {x y top child : Fin n}

/-- The classes, once `x` and `y` are united whose roots are `top` and `child`. -/
theorem Represents.related_union (h : Represents calls uf)
    (hxy : Related calls x top ∧ Related calls y child ∨
      Related calls x child ∧ Related calls y top)
    (htop : Root (parentOf uf) top top) (hchild : Root (parentOf uf) child child)
    {a b ra rb : Fin n} (ha : Root (parentOf uf) a ra) (hb : Root (parentOf uf) b rb) :
    Related (calls ++ [.union x y]) a b ↔ moved top child ra = moved top child rb := by
  have hold : ∀ {u v : Fin n}, Related calls u v → Related (calls ++ [.union x y]) u v :=
    Related.mono (List.subset_append_left _ _)
  -- every element has a root, and elements that were related have the same
  choose root hroot using h.exists_root
  have hsame : ∀ {u v r r' : Fin n}, Root (parentOf uf) u r → Root (parentOf uf) v r' →
      Related calls u v → (r : ℕ) = r' :=
    fun hu hv huv => (hu.sameTree_iff hv).mp ((h.classes _ _).mpr huv)
  have hself : ∀ v, Related calls v (root v) := fun v =>
    (h.classes _ _).mp ⟨root v, hroot v, .root (hroot v).fixed⟩
  rw [ha.unique (hroot a), hb.unique (hroot b)]
  constructor
  · intro hab
    clear ha hb
    induction hab with
    | rel u v hmem =>
      rcases List.mem_append.mp hmem with hmem | hmem
      · rw [hsame (hroot u) (hroot v) (.rel u v hmem)]
      · cases List.mem_singleton.mp hmem
        have hmoved : moved top child child = moved top child top := by
          rw [moved, if_pos rfl, moved, ite_self]
        rcases hxy with ⟨hx, hy⟩ | ⟨hx, hy⟩
        · rw [hsame (hroot x) htop hx, hsame (hroot y) hchild hy, hmoved]
        · rw [hsame (hroot x) hchild hx, hsame (hroot y) htop hy, hmoved]
    | refl _ => rfl
    | symm _ _ _ ih => exact ih.symm
    | trans _ _ _ _ _ ih ih' => exact ih.trans ih'
  · intro heq
    have hunited : Related (calls ++ [.union x y]) child top := by
      have hpair : Related (calls ++ [.union x y]) x y :=
        .rel x y (List.mem_append_right _ List.mem_cons_self)
      rcases hxy with ⟨hx, hy⟩ | ⟨hx, hy⟩
      · exact ((hold hx).symm.trans _ _ _ (hpair.trans _ _ _ (hold hy))).symm
      · exact (hold hx).symm.trans _ _ _ (hpair.trans _ _ _ (hold hy))
    have htoward : ∀ v, ∃ m : Fin n, (m : ℕ) = moved top child (root v) ∧
        Related (calls ++ [.union x y]) v m := by
      intro v
      by_cases hv : (root v : ℕ) = child
      · refine ⟨top, (if_pos hv).symm, ?_⟩
        have hroot : root v = child := Fin.ext hv
        exact (hold (hroot ▸ hself v)).trans _ _ _ hunited
      · exact ⟨root v, (if_neg hv).symm, hold (hself v)⟩
    obtain ⟨ma, hma, ha'⟩ := htoward a
    obtain ⟨mb, hmb, hb'⟩ := htoward b
    have hm : ma = mb := Fin.ext (hma.trans (heq.trans hmb.symm))
    exact ha'.trans _ _ _ (hm ▸ hb'.symm)

/-- **Putting one root under the other** unites their classes. -/
theorem Represents.attach (h : Represents calls uf) (htop : parentOf uf top = top)
    (hchild : parentOf uf child = child) (hne : child ≠ top)
    (hxy : Related calls x top ∧ Related calls y child ∨
      Related calls x child ∧ Related calls y top) :
    ∃ uf', uf.attach top child = .ok uf' ∧ Represents (calls ++ [.union x y]) uf' := by
  obtain ⟨rank, hforest⟩ := h.forest
  have hne' : (child : ℕ) ≠ top := fun heq => hne (Fin.ext heq)
  obtain ⟨rank', hforest', hparent⟩ := hforest.link htop hne'
    (Finset.mem_range.mpr top.isLt) (Finset.mem_range.mpr child.isLt)
    (uf.size.set top (Set.ncard {v | Related calls top v} + Set.ncard {v | Related calls child v}))
    List.length_set
  have hroot : ∀ {v r : ℕ}, Root (parentOf uf) v r → Root (Lib.link (parentOf uf) child top) v
      (moved top child r) := fun hr => hr.link htop hne' hchild
  have hrelated : ∀ {a b ra rb : Fin n}, Root (parentOf uf) a ra → Root (parentOf uf) b rb →
      (Related (calls ++ [.union x y]) a b ↔ moved top child ra = moved top child rb) :=
    fun ha hb => h.related_union hxy (.root htop) (.root hchild) ha hb
  refine ⟨_, ?_, ⟨rank', hforest'⟩, fun a b => ?_, fun r hr => ?_⟩
  · rw [UnionFind.attach, UnionFind.item, UnionFind.item, h.sizes top htop, h.sizes child hchild]
    rfl
  · obtain ⟨ra, ha⟩ := h.exists_root a
    obtain ⟨rb, hb⟩ := h.exists_root b
    rw [hrelated ha hb, hparent, (hroot ha).sameTree_iff (hroot hb)]
  · rw [hparent] at hr
    have hrc : r ≠ child := by
      rintro rfl
      rw [Lib.link, Function.update_self] at hr
      exact hne' hr.symm
    have hrc' : (r : ℕ) ≠ child := fun heq => hrc (Fin.ext heq)
    rw [Lib.link, Function.update_of_ne hrc'] at hr
    have hclass : ∀ v, Related (calls ++ [.union x y]) r v ↔
        Related calls r v ∨ r = top ∧ Related calls child v := by
      intro v
      obtain ⟨rv, hv⟩ := h.exists_root v
      rw [hrelated (.root hr) hv, ← h.classes, ← h.classes, (Root.root hr).sameTree_iff hv,
        (Root.root hchild).sameTree_iff hv, moved, if_neg hrc', moved]
      by_cases hvc : (rv : ℕ) = child
      · rw [if_pos hvc, hvc]
        simp [hrc', Fin.ext_iff]
      · rw [if_neg hvc]
        simp [Ne.symm hvc]
    by_cases hrt : r = top
    · subst hrt
      have hunion : {v | Related (calls ++ [.union x y]) r v}
          = {v | Related calls r v} ∪ {v | Related calls child v} := by
        ext v
        rw [Set.mem_ofPred_eq, hclass v]
        simp
      have hdisjoint : Disjoint {v | Related calls r v} {v | Related calls child v} := by
        refine Set.disjoint_left.mpr fun v hv hv' => hne' ?_
        have hboth : Related calls child r := hv'.trans _ _ _ hv.symm
        exact ((Root.root hchild).sameTree_iff (.root htop)).mp ((h.classes _ _).mpr hboth)
      have hlt : (r : ℕ) < uf.size.length := by
        rw [hforest.sizes]
        exact r.isLt
      rw [hunion, Set.ncard_union_eq hdisjoint, List.getElem?_set_self hlt]
    · have hsame : {v | Related (calls ++ [.union x y]) r v} = {v | Related calls r v} := by
        ext v
        rw [Set.mem_ofPred_eq, hclass v]
        simp [hrt]
      rw [hsame, List.getElem?_set_ne (fun heq => hrt (Fin.ext heq.symm)), h.sizes r hr]

end Link

/-! ## The calls -/

/-- `find` returns a root, and leaves the others where they are. -/
theorem Represents.find (h : Represents calls uf) (x : Fin n) :
    ∃ (r : Fin n) (uf' : UnionFind), uf.find x = .ok ((r : ℕ), uf') ∧ Represents calls uf' ∧
      Related calls x r ∧ parentOf uf' r = r ∧
      ∀ v : Fin n, parentOf uf v = v → parentOf uf' v = v := by
  obtain ⟨rank, hforest⟩ := h.forest
  obtain ⟨r, uf', hrun, hr, hroot, hforest', hkept⟩ := hforest.find (Finset.mem_range.mpr x.isLt)
  have hfixed : ∀ v ∈ Finset.range n, parentOf uf v = v → parentOf uf' v = v := fun v hv hroot =>
    Root.fixed ((hkept.roots v hv v).mpr (.root hroot))
  refine ⟨⟨r, Finset.mem_range.mp hr⟩, uf', hrun, h.kept hkept hforest', ?_,
    hfixed r hr hroot.fixed, fun v => hfixed v (Finset.mem_range.mpr v.isLt)⟩
  exact (h.classes _ _).mp ⟨r, hroot, .root hroot.fixed⟩

/-- The two walks that `connected` and `union` begin with. -/
theorem Represents.find_both (h : Represents calls uf) (a b : Fin n) :
    ∃ (ra rb : Fin n) (uf₁ uf₂ : UnionFind), uf.find a = .ok ((ra : ℕ), uf₁) ∧
      uf₁.find b = .ok ((rb : ℕ), uf₂) ∧ Represents calls uf₂ ∧
      (parentOf uf₂ ra = ra ∧ Related calls a ra) ∧ (parentOf uf₂ rb = rb ∧ Related calls b rb) ∧
      ((ra : ℕ) = rb ↔ Related calls a b) := by
  obtain ⟨ra, uf₁, hrun₁, h₁, ha, hra, -⟩ := h.find a
  obtain ⟨rb, uf₂, hrun₂, h₂, hb, hrb, hfixed⟩ := h₁.find b
  refine ⟨ra, rb, uf₁, uf₂, hrun₁, hrun₂, h₂, ⟨hfixed ra hra, ha⟩, ⟨hrb, hb⟩, ?_⟩
  rw [← (Root.root (hfixed ra hra)).sameTree_iff (.root hrb), h₂.classes]
  constructor
  · intro hroots
    exact ha.trans _ _ _ (hroots.trans _ _ _ hb.symm)
  · intro hab
    exact ha.symm.trans _ _ _ (hab.trans _ _ _ hb)

/-- The right answer to a call, after others. -/
def AnsweredBy (before : List (UnionCall n)) : UnionCall n → UnionAnswer → Prop
  | .find x, .index r => ∃ y : Fin n, (y : ℕ) = r ∧ Related before x y
  | .connected a b, .truth t => t = true ↔ Related before a b
  | .union a b, .truth t => t = true ↔ ¬ Related before a b
  | _, _ => False

/-- What `union` does once two roots are found. -/
theorem union_ok {a b ra rb sa sb : ℕ} {uf uf₁ uf₂ uf' : UnionFind}
    (h₁ : uf.find a = .ok (ra, uf₁)) (h₂ : uf₁.find b = .ok (rb, uf₂)) (hne : ra ≠ rb)
    (hsa : uf₂.size[ra]? = some sa) (hsb : uf₂.size[rb]? = some sb)
    (hattach : (if sa < sb then uf₂.attach rb ra else uf₂.attach ra rb) = .ok uf') :
    uf.union a b = .ok (true, uf') := by
  simp only [UnionFind.union, h₁, h₂, hne, UnionFind.item, hsa, hsb, bind, Except.bind, pure,
    Except.pure, if_false]
  split at hattach
  · rw [if_pos ‹_›, hattach]
  · rw [if_neg ‹_›, hattach]

/-- **One call** is answered, and keeps the classes. -/
theorem Represents.call (h : Represents calls uf) (c : UnionCall n) :
    ∃ answer uf', uf.call c = .ok (answer, uf') ∧ AnsweredBy calls c answer ∧
      Represents (calls ++ [c]) uf' := by
  cases c with
  | find x =>
    obtain ⟨r, uf', hrun, h', hx, -⟩ := h.find x
    refine ⟨.index r, uf', ?_, ⟨r, rfl, hx⟩, h'.snoc fun _ _ => by simp⟩
    rw [UnionFind.call, hrun]
    rfl
  | connected a b =>
    obtain ⟨ra, rb, uf₁, uf₂, hrun₁, hrun₂, h', -, -, hroots⟩ := h.find_both a b
    refine ⟨.truth (decide ((ra : ℕ) = rb)), uf₂, ?_, ?_, h'.snoc fun _ _ => by simp⟩
    · simp only [UnionFind.call, UnionFind.connected, hrun₁, hrun₂, bind, Except.bind, pure,
        Except.pure]
    · exact decide_eq_true_iff.trans hroots
  | union a b =>
    obtain ⟨ra, rb, uf₁, uf₂, hrun₁, hrun₂, h', ⟨hra, ha⟩, ⟨hrb, hb⟩, hroots⟩ := h.find_both a b
    by_cases hsame : (ra : ℕ) = rb
    · refine ⟨.truth false, uf₂, ?_, ?_, h'.united (hroots.mp hsame)⟩
      · simp only [UnionFind.call, UnionFind.union, hrun₁, hrun₂, hsame, bind, Except.bind, pure,
          Except.pure, if_true]
      · exact iff_of_false Bool.false_ne_true fun hnot => hnot (hroots.mp hsame)
    · have hne : ra ≠ rb := fun heq => hsame (congrArg Fin.val heq)
      -- whichever class is the larger, its root stays
      obtain ⟨uf', hattach, hrep⟩ : ∃ uf', (if Set.ncard {v | Related calls ra v}
          < Set.ncard {v | Related calls rb v} then uf₂.attach rb ra else uf₂.attach ra rb)
            = .ok uf' ∧ Represents (calls ++ [.union a b]) uf' := by
        split
        · exact h'.attach hrb hra hne (.inr ⟨ha, hb⟩)
        · exact h'.attach hra hrb hne.symm (.inl ⟨ha, hb⟩)
      refine ⟨.truth true, uf', ?_, iff_of_true rfl fun hab => hsame (hroots.mpr hab), hrep⟩
      rw [UnionFind.call, union_ok hrun₁ hrun₂ hsame (h'.sizes ra hra) (h'.sizes rb hrb) hattach]
      rfl

/-- **A run** answers every call by the pairs united before it. -/
theorem Represents.run (todo : List (UnionCall n)) : ∀ {calls : List (UnionCall n)}
    {uf : UnionFind}, Represents calls uf →
    ∃ answers uf', uf.run todo = .ok (answers, uf') ∧ answers.length = todo.length ∧
      (∀ (k : ℕ) c answer, todo[k]? = some c → answers[k]? = some answer →
        AnsweredBy (calls ++ todo.take k) c answer) ∧
      Represents (calls ++ todo) uf' := by
  induction todo with
  | nil =>
    intro calls uf h
    refine ⟨[], uf, rfl, rfl, fun k c answer hc _ => ?_, by rwa [List.append_nil]⟩
    cases hc
  | cons c todo ih =>
    intro calls uf h
    obtain ⟨answer, uf₁, hcall, hanswer, h₁⟩ := h.call c
    obtain ⟨answers, uf', hrun, hlen, hanswers, h'⟩ := ih h₁
    rw [List.append_assoc, List.singleton_append] at h'
    refine ⟨answer :: answers, uf', ?_, congrArg Nat.succ hlen, fun k c' answer' hc ha => ?_, h'⟩
    · simp only [UnionFind.run, hcall, hrun, bind, Except.bind, pure, Except.pure]
    · cases k with
      | zero =>
        cases hc
        cases ha
        rwa [List.take_zero, List.append_nil]
      | succ k =>
        have hsplit : calls ++ (c :: todo).take (k + 1) = calls ++ [c] ++ todo.take k := by
          rw [List.take_succ_cons, List.append_assoc, List.singleton_append]
        rw [hsplit]
        exact hanswers k c' answer' hc ha

/-- **`UnionFind` represents the equivalence closure**: any sequence of calls is answered by it, call
    by call, and in the end the trees are its classes, with the size of each at its root. -/
theorem union_find_closure (n : ℕ) (calls : List (UnionCall n)) :
    ∃ answers uf, (UnionFind.new n).run calls = .ok (answers, uf) ∧
      answers.length = calls.length ∧
      (∀ (k : ℕ) c answer, calls[k]? = some c → answers[k]? = some answer →
        AnsweredBy (calls.take k) c answer) ∧
      (∀ a b : Fin n, SameTree (parentOf uf) a b ↔ Related calls a b) ∧
      ∀ r : Fin n, parentOf uf r = r →
        uf.size[(r : ℕ)]? = some (Set.ncard {v | Related calls r v}) := by
  obtain ⟨answers, uf, hrun, hlen, hanswers, h⟩ := (represents_new n).run calls
  exact ⟨answers, uf, hrun, hlen, hanswers, h.classes, h.sizes⟩

end Classes

end Proof
end CeforeEmu
