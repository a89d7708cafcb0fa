import CeforeEmu.Proof.LinkFaults
import CeforeEmu.Proof.RandomMesh

/-!
# Which link an event is about

`find_link` returns the first link that two hosts share, and `build_graph_and_subnets` keeps the
subnet of the last. The builder gives every link a switch and a subnet of its own, so the two
lookups are of one link exactly when the hosts share no other (`link_event_hits_iff`).
-/

set_option autoImplicit false

namespace CeforeEmu
namespace Proof

open CeforeEmu.Lib CeforeEmu.Core CeforeEmu.Runtime

/-! ## The links two hosts share -/

/-- The links both hosts are on, in the order of `mesh_links`. -/
def sharedLinks (meshLinks : List RawLink) (a b : ℕ) : List RawLink :=
  meshLinks.filter fun raw => a ∈ raw.hosts ∧ b ∈ raw.hosts

theorem mem_sharedLinks {meshLinks : List RawLink} {a b : ℕ} {raw : RawLink} :
    raw ∈ sharedLinks meshLinks a b ↔ raw ∈ meshLinks ∧ a ∈ raw.hosts ∧ b ∈ raw.hosts := by
  rw [sharedLinks, List.mem_filter, decide_eq_true_iff]

theorem findLink_first (meshLinks : List RawLink) (a b : ℕ) :
    findLink (topologyLinks meshLinks) a b = (sharedLinks meshLinks a b).head?.map Core.normalize := by
  rw [findLink, topologyLinks, List.find?_map, sharedLinks, List.head?_filter]
  congr 2
  funext raw
  simp [Link.connects, mem_sorted]

/-- The edges of one link. -/
theorem edges_cons (raw : RawLink) (meshLinks : List RawLink) :
    edges (topologyLinks (raw :: meshLinks)) =
      ((hostPairs (sorted raw.hosts)).map fun pair => (pair.1, pair.2, Core.normalize raw)) ++
        edges (topologyLinks meshLinks) := by
  rw [edges, topologyLinks, List.map_cons, List.flatMap_cons, normalize_hosts]
  rfl

/-- The subnet kept for two hosts is that of the last link they share. -/
theorem foldl_addLink_last {a b : ℕ} (hlt : a < b) (meshLinks : List RawLink)
    (hnodup : ∀ raw ∈ meshLinks, raw.hosts.Nodup) :
    ∀ acc : Graph ℕ × Dict (ℕ × ℕ) (Option ℤ),
      ((edges (topologyLinks meshLinks)).foldl addLink acc).2.get? (a, b) =
        ((sharedLinks meshLinks a b).getLast?.map (·.subnet)).or (acc.2.get? (a, b)) := by
  induction meshLinks with
  | nil => exact fun acc => rfl
  | cons raw meshLinks ih =>
    intro acc
    have hpair : ∀ e ∈ (hostPairs (sorted raw.hosts)).map fun pair => (pair.1, pair.2, Core.normalize raw),
        e.2.2.subnet = raw.subnet := by
      intro e he
      obtain ⟨pair, -, rfl⟩ := List.mem_map.mp he
      exact normalize_subnet raw
    have hshares : (∃ e ∈ (hostPairs (sorted raw.hosts)).map fun pair =>
        (pair.1, pair.2, Core.normalize raw), (e.1, e.2.1) = (a, b)) ↔ a ∈ raw.hosts ∧ b ∈ raw.hosts := by
      have hpairs := mem_hostPairs (a := a) (b := b) (sorted_lt (hnodup raw List.mem_cons_self))
      rw [mem_sorted, mem_sorted] at hpairs
      constructor
      · rintro ⟨e, he, hkey⟩
        obtain ⟨pair, hmem, rfl⟩ := List.mem_map.mp he
        exact (hpairs.mp (hkey ▸ hmem)).2
      · exact fun hboth => ⟨_, List.mem_map.mpr ⟨(a, b), hpairs.mpr ⟨hlt, hboth⟩, rfl⟩, rfl⟩
    rw [edges_cons, List.foldl_append, ih fun r hr => hnodup r (List.mem_cons_of_mem _ hr)]
    obtain ⟨-, -, hsubnet⟩ := foldl_addLink
      ((hostPairs (sorted raw.hosts)).map fun pair => (pair.1, pair.2, Core.normalize raw)) acc
    by_cases hboth : a ∈ raw.hosts ∧ b ∈ raw.hosts
    · have hcons : sharedLinks (raw :: meshLinks) a b = raw :: sharedLinks meshLinks a b := by
        rw [sharedLinks, List.filter_cons_of_pos (by simpa using hboth), sharedLinks]
      rcases hsubnet (a, b) with ⟨e, he, -, hget⟩ | ⟨hnone, -⟩
      · rw [hget, hpair e he, hcons, List.getLast?_cons]
        cases (sharedLinks meshLinks a b).getLast? <;> rfl
      · obtain ⟨e, he, hkey⟩ := hshares.mpr hboth
        exact absurd hkey (hnone e he)
    · have hskip : sharedLinks (raw :: meshLinks) a b = sharedLinks meshLinks a b := by
        rw [sharedLinks, List.filter_cons_of_neg (by simpa using hboth), sharedLinks]
      rcases hsubnet (a, b) with ⟨e, he, hkey, -⟩ | ⟨-, hget⟩
      · exact absurd (hshares.mp ⟨e, he, hkey⟩) hboth
      · rw [hget, hskip]

theorem sharedLinks_comm (meshLinks : List RawLink) (a b : ℕ) :
    sharedLinks meshLinks a b = sharedLinks meshLinks b a := by
  rw [sharedLinks, sharedLinks]
  refine List.filter_congr fun raw _ => ?_
  rw [decide_eq_decide]
  exact and_comm

/-- The subnet that `build_graph_and_subnets` keeps for two hosts. -/
def FibSubnet (meshLinks : List RawLink) (a b : ℕ) (subnet : Option ℤ) : Prop :=
  ∃ n graph subnets, buildGraphAndSubnets meshLinks = .ok (n, graph, subnets) ∧
    subnets.get? (min a b, max a b) = some subnet

theorem fibSubnet_last {meshLinks : List RawLink} (hne : ∀ raw ∈ meshLinks, raw.hosts ≠ [])
    (hnodup : ∀ raw ∈ meshLinks, raw.hosts.Nodup) {a b : ℕ} (hab : a ≠ b) {last : RawLink}
    (hlast : (sharedLinks meshLinks a b).getLast? = some last) :
    FibSubnet meshLinks a b last.subnet := by
  have hlinks : ∀ link ∈ topologyLinks meshLinks, link.hosts ≠ [] := by
    intro link hlink
    obtain ⟨raw, hraw, rfl⟩ := List.mem_map.mp hlink
    obtain ⟨h, hh⟩ := List.exists_mem_of_ne_nil _ (hne raw hraw)
    rw [normalize_hosts]
    exact List.ne_nil_of_mem (mem_sorted.mpr hh)
  obtain ⟨n, hn, -, -⟩ := hostCountFrom_spec hlinks 0
  have hbuild : buildGraphAndSubnets meshLinks = .ok (n,
      ((edges (topologyLinks meshLinks)).foldl addLink ((List.range n).map fun i => (i, []), [])).1,
      ((edges (topologyLinks meshLinks)).foldl addLink
        ((List.range n).map fun i => (i, []), [])).2) := by
    simp only [buildGraphAndSubnets, hostCount, hn]
  refine ⟨n, _, _, hbuild, ?_⟩
  rcases lt_or_gt_of_ne hab with hlt | hlt
  · rw [min_eq_left hlt.le, max_eq_right hlt.le, foldl_addLink_last hlt meshLinks hnodup, hlast]
    rfl
  · rw [min_eq_right hlt.le, max_eq_left hlt.le, foldl_addLink_last hlt meshLinks hnodup,
      sharedLinks_comm, hlast]
    rfl

/-! ## The links of a mesh -/

/-- The links a builder made: the switch `i` has the subnet `i + 1`, and hosts, all different. -/
structure NumberedLinks (meshLinks : List RawLink) : Prop where
  numbered : ∀ {i : ℕ} {raw : RawLink}, meshLinks[i]? = some raw →
    (Core.normalize raw).switch = some (switchName i) ∧ raw.subnet = some ((i : ℤ) + 1)
  hosts : ∀ raw ∈ meshLinks, raw.hosts ≠ []
  nodup : ∀ raw ∈ meshLinks, raw.hosts.Nodup

section Build

variable {σ τ : Type} [LinearOrder τ] {rng : Rng σ τ} {p : MeshParams} {s s' : σ} {w : Wiring}

/-- A build that returns has passed the checks of its parameters. -/
theorem build_checked (h : MeshTopo.build rng p s = .ok (w, s')) :
    1 ≤ p.hosts ∧ p.nodePerSwitch ≠ 1 ∧ 1 ≤ p.hostDegreeMin ∧ p.hostDegreeMin ≤ p.hostDegreeMax := by
  rw [MeshTopo.build] at h
  have hcheck : p.check = .ok () := by
    cases hp : p.check with
    | error err =>
      rw [hp] at h
      cases h
    | ok u => rfl
  have hhosts : 1 ≤ p.hosts := by
    by_contra hzero
    have hnone : p.hosts = 0 := by omega
    have htree : treePhase rng p (drawDegrees rng p p.hosts s).1 (drawDegrees rng p p.hosts s).2 =
        .error (.indexError "list index out of range") := by
      have hshuffle : ∀ s : σ, (rng.shuffle [] s).1 = [] := fun s => (rng.shuffle_perm [] s).eq_nil
      rw [hnone]
      simp [treePhase, drawDegrees, hnone, hshuffle, byDegree]
    simp only [hcheck, htree] at h
    cases h
  rw [MeshParams.check] at hcheck
  split at hcheck
  · cases hcheck
  · split at hcheck
    · cases hcheck
    · exact ⟨hhosts, ‹_›, by omega, by omega⟩

theorem build_numbered (h : MeshTopo.build rng p s = .ok (w, s')) :
    NumberedLinks w.meshLinks ∧ ∀ raw ∈ w.meshLinks, ∀ x ∈ raw.hosts, x < p.hosts := by
  obtain ⟨hhosts, hnode, hmin, hmax⟩ := build_checked h
  have hends := build_ends rng hhosts hnode hmin hmax s
  rw [h] at hends
  obtain ⟨switches, hw, hsound⟩ := hends
  simp only at hw
  subst hw
  have hraw : ∀ raw ∈ (wireSwitches 0 .empty switches).meshLinks, ∃ hs ∈ switches,
      raw.hosts = sorted hs := by
    intro raw hraw
    have hmem := List.mem_map_of_mem (f := RawLink.hosts) hraw
    rw [wireSwitches_hosts] at hmem
    obtain ⟨hs, hhs, heq⟩ := List.mem_map.mp hmem
    exact ⟨hs, hhs, heq.symm⟩
  refine ⟨⟨fun {i raw} hi => ?_, fun raw hmem => ?_, fun raw hmem => ?_⟩, fun raw hmem x hx => ?_⟩
  · obtain ⟨hlt, -⟩ := List.getElem?_eq_some_iff.mp hi
    rw [meshLinks_length_wired] at hlt
    obtain ⟨eth, he⟩ := wireSwitches_getElem? 0 .empty rfl (List.getElem?_eq_getElem hlt)
    rw [Nat.zero_add, hi] at he
    cases he
    exact ⟨rfl, rfl⟩
  · obtain ⟨hs, hhs, heq⟩ := hraw raw hmem
    obtain ⟨x, hx⟩ := List.exists_mem_of_ne_nil _ (hsound.fits hs hhs).nonempty
    rw [heq]
    exact List.ne_nil_of_mem (mem_sorted.mpr hx)
  · obtain ⟨hs, hhs, heq⟩ := hraw raw hmem
    rw [heq]
    exact sorted_nodup (hsound.fits hs hhs).nodup
  · obtain ⟨hs, hhs, heq⟩ := hraw raw hmem
    rw [heq, mem_sorted] at hx
    exact (hsound.fits hs hhs).range x hx

end Build

section Numbered

variable {meshLinks : List RawLink} (h : NumberedLinks meshLinks)
include h

theorem NumberedLinks.subnet_injective {raw raw' : RawLink} (hraw : raw ∈ meshLinks)
    (hraw' : raw' ∈ meshLinks) (heq : raw.subnet = raw'.subnet) : raw = raw' := by
  obtain ⟨i, hi⟩ := List.mem_iff_getElem?.mp hraw
  obtain ⟨j, hj⟩ := List.mem_iff_getElem?.mp hraw'
  rw [(h.numbered hi).2, (h.numbered hj).2, Option.some.injEq] at heq
  obtain rfl : i = j := by omega
  exact Option.some.inj (hi.symm.trans hj)

theorem NumberedLinks.nodup_list : meshLinks.Nodup := by
  rw [List.nodup_iff_injective_getElem]
  intro i j hij
  have hi := (h.numbered (List.getElem?_eq_getElem i.isLt)).2
  have hj := (h.numbered (List.getElem?_eq_getElem j.isLt)).2
  simp only at hij
  rw [hij, hj, Option.some.injEq] at hi
  exact Fin.ext (by omega)

/-- The switch of a subnet is that of its link. -/
theorem NumberedLinks.switch_eq {raw : RawLink} (hraw : raw ∈ meshLinks) {sw : String}
    (hsw : subnetOfSwitch (topologyLinks meshLinks) sw = raw.subnet) :
    (Core.normalize raw).switch = some sw := by
  obtain ⟨i, hi⟩ := List.mem_iff_getElem?.mp hraw
  obtain ⟨hswitch, hsubnet⟩ := h.numbered hi
  rw [subnetOfSwitch] at hsw
  split at hsw
  · rename_i link hfind
    have hname : link.switch = some sw := by simpa using List.find?_some hfind
    obtain ⟨raw', hraw', rfl⟩ := List.mem_map.mp (List.mem_of_find?_eq_some hfind)
    rw [normalize_subnet] at hsw
    rw [← h.subnet_injective hraw' hraw hsw]
    exact hname
  · rw [hsubnet] at hsw
    cases hsw

/-- Two links of one switch are the same. -/
theorem NumberedLinks.switch_injective {raw raw' : RawLink} (hraw : raw ∈ meshLinks)
    (hraw' : raw' ∈ meshLinks) (heq : (Core.normalize raw).switch = (Core.normalize raw').switch) :
    raw = raw' := by
  obtain ⟨i, hi⟩ := List.mem_iff_getElem?.mp hraw
  obtain ⟨j, hj⟩ := List.mem_iff_getElem?.mp hraw'
  rw [(h.numbered hi).1, (h.numbered hj).1, Option.some.injEq] at heq
  obtain rfl := switchName_injective heq
  exact Option.some.inj (hi.symm.trans hj)

/-- The first link two hosts share is the last exactly when it is the only one. -/
theorem NumberedLinks.first_eq_last_iff {a b : ℕ} {first last : RawLink}
    (hfirst : (sharedLinks meshLinks a b).head? = some first)
    (hlast : (sharedLinks meshLinks a b).getLast? = some last) :
    first = last ↔ (sharedLinks meshLinks a b).length = 1 := by
  have hnodup : (sharedLinks meshLinks a b).Nodup := h.nodup_list.filter _
  obtain ⟨rest, hrest⟩ := List.head?_eq_some_iff.mp hfirst
  rw [hrest] at hlast hnodup ⊢
  cases rest with
  | nil => exact iff_of_true (Option.some.inj hlast) rfl
  | cons next rest =>
    refine iff_of_false ?_ (by simp)
    rintro rfl
    rw [List.getLast?_cons_cons] at hlast
    exact (List.nodup_cons.mp hnodup).1 (List.mem_of_getLast? hlast)

end Numbered

/-! ## What the operations change -/

/-- `set_link_state` sets the ports of the two hosts on the switch of the link it found. -/
theorem setLinkState_port {net : Net} {meshLinks : List RawLink} {a b : ℕ} {link : Link}
    {switch : String} (state : LinkState)
    (hlink : findLink (topologyLinks meshLinks) a b = some link)
    (hswitch : link.switch = some switch) (ha : hostName a ∈ net.nodes) (hb : hostName b ∈ net.nodes)
    (hs : switch ∈ net.nodes) : ∃ net', setLinkState net meshLinks a b state = .ok net' ∧
      ∀ h sw, net'.port (hostName h) sw =
        if (h = a ∨ h = b) ∧ sw = switch then state else net.port (hostName h) sw := by
  have hset : setLinkState net meshLinks a b state = .ok
      ((net.configLinkStatus (hostName a) switch state).configLinkStatus (hostName b) switch
        state) := by
    simp only [setLinkState, hlink, hswitch]
  refine ⟨_, hset, fun h sw => ?_⟩
  rw [configLinkStatus_port state (by rwa [configLinkStatus_nodes])
    (by rwa [configLinkStatus_nodes]), configLinkStatus_port state ha hs]
  have hname : ∀ x, hostName h = hostName x ↔ h = x :=
    fun x => ⟨hostName_injective, congrArg hostName⟩
  simp only [hname]
  by_cases hsw : sw = switch
  · by_cases heq : h = b <;> simp [hsw, heq]
  · simp [hsw]

/-- `set_switch_bandwidth` sets the bandwidth of the links of that switch. -/
theorem setHostsBandwidth_spec {τ : Type} {i : ℕ} (bandwidth : τ) (hosts : List ℕ) :
    ∀ net : TcNet τ, (∀ h ∈ hosts, hostName h ∈ net.nodes) → switchName i ∈ net.nodes →
      ∃ net', setHostsBandwidth (some (switchName i)) bandwidth hosts net = .ok net' ∧
        ∀ h sw, (hostName h, sw) ∈ net.links → net'.bw (hostName h, sw) =
          if h ∈ hosts ∧ sw = switchName i then some bandwidth else net.bw (hostName h, sw) := by
  induction hosts with
  | nil =>
    intro net _ _
    refine ⟨net, rfl, fun h sw _ => ?_⟩
    rw [if_neg]
    rintro ⟨hnil, -⟩
    cases hnil
  | cons x hosts ih =>
    intro net hnodes hswitch
    obtain ⟨net', hnet', hbw⟩ := ih { net with
      bw := fun link => if link ∈ net.links ∧ (link = (hostName x, switchName i) ∨
        link = (switchName i, hostName x)) then some bandwidth else net.bw link }
      (fun h hh => hnodes h (List.mem_cons_of_mem _ hh)) hswitch
    refine ⟨net', ?_, fun h sw hmem => ?_⟩
    · rw [setHostsBandwidth, setLinkBandwidth,
        if_neg (not_not.mpr (hnodes x List.mem_cons_self))]
      simp only [hswitch, not_true_eq_false, if_false]
      exact hnet'
    · rw [hbw h sw hmem]
      have hother : ¬ (hostName h = switchName i ∧ sw = hostName x) :=
        fun heq => hostName_ne_switchName h i heq.1
      have hname : hostName h = hostName x ↔ h = x := ⟨hostName_injective, congrArg hostName⟩
      simp only [hmem, Prod.mk.injEq, hother, or_false, hname, true_and, List.mem_cons]
      by_cases hx : h = x <;> by_cases hin : h ∈ hosts <;> by_cases hsw : sw = switchName i <;>
        simp [hx, hin, hsw]

/-! ## The events -/

/-- The names of a mesh's hosts and switches. -/
def meshNodes (p : MeshParams) (w : Wiring) : List String :=
  (List.range p.hosts).map hostName ++ (List.range w.meshLinks.length).map switchName

/-- **Which events hit the link of the FIB.** For every mesh that `MeshTopo.build` makes and every
    two hosts that share a switch, the link that `set_link_state` and `set_switch_bandwidth` find has
    the subnet that `build_graph_and_subnets` keeps for the two if and only if they share no other
    switch. So on the switch of that subnet `link_down` takes the hosts' ports down, and
    `set_switch_bandwidth` sets the bandwidth of their links, exactly then. -/
theorem link_event_hits_iff {σ τ β : Type} [LinearOrder τ] {rng : Rng σ τ} {p : MeshParams}
    {s s' : σ} {w : Wiring} (h : MeshTopo.build rng p s = .ok (w, s')) {a b : ℕ} (hab : a ≠ b)
    (hshare : ∃ raw ∈ w.meshLinks, a ∈ raw.hosts ∧ b ∈ raw.hosts) :
    ∃ link subnet, findLink (topologyLinks w.meshLinks) a b = some link ∧
      FibSubnet w.meshLinks a b subnet ∧
      (link.subnet = subnet ↔ (sharedLinks w.meshLinks a b).length = 1) ∧
      (∀ (net : Net) (sw : String), meshNodes p w ⊆ net.nodes →
        subnetOfSwitch (topologyLinks w.meshLinks) sw = subnet →
        net.port (hostName a) sw = .up → net.port (hostName b) sw = .up →
        ∃ net', setLinkState net w.meshLinks a b .down = .ok net' ∧
          (net'.port (hostName a) sw = .down ↔ (sharedLinks w.meshLinks a b).length = 1) ∧
          (net'.port (hostName b) sw = .down ↔ (sharedLinks w.meshLinks a b).length = 1)) ∧
      (∀ (net : TcNet β) (sw : String) (bandwidth : β), meshNodes p w ⊆ net.nodes →
        subnetOfSwitch (topologyLinks w.meshLinks) sw = subnet →
        (hostName a, sw) ∈ net.links → net.bw (hostName a, sw) ≠ some bandwidth →
        ∃ net', setSwitchBandwidth net w.meshLinks a b bandwidth = .ok (true, net') ∧
          (net'.bw (hostName a, sw) = some bandwidth ↔
            (sharedLinks w.meshLinks a b).length = 1)) := by
  obtain ⟨hlinks, hrange⟩ := build_numbered h
  obtain ⟨raw, hraw, ha, hb⟩ := hshare
  have hne : sharedLinks w.meshLinks a b ≠ [] :=
    List.ne_nil_of_mem (mem_sharedLinks.mpr ⟨hraw, ha, hb⟩)
  obtain ⟨first, rest, hfirst⟩ := List.exists_cons_of_ne_nil hne
  have hhead : (sharedLinks w.meshLinks a b).head? = some first := by rw [hfirst]; rfl
  have hlast := List.getLast?_eq_some_getLast hne
  obtain ⟨hmem, hfa, hfb⟩ := mem_sharedLinks.mp (List.mem_of_mem_head? hhead)
  obtain ⟨hmem', -, -⟩ := mem_sharedLinks.mp (List.getLast_mem hne)
  have hone := hlinks.first_eq_last_iff hhead hlast
  have hfind : findLink (topologyLinks w.meshLinks) a b = some (Core.normalize first) := by
    rw [findLink_first, hhead]
    rfl
  obtain ⟨i, hi⟩ := List.mem_iff_getElem?.mp hmem
  obtain ⟨hswitch, -⟩ := hlinks.numbered hi
  have hnodes : ∀ x ∈ first.hosts, hostName x ∈ meshNodes p w := fun x hx =>
    List.mem_append_left _ (List.mem_map_of_mem (List.mem_range.mpr (hrange first hmem x hx)))
  have hswitchNode : switchName i ∈ meshNodes p w := by
    obtain ⟨hlt, -⟩ := List.getElem?_eq_some_iff.mp hi
    exact List.mem_append_right _ (List.mem_map_of_mem (List.mem_range.mpr hlt))
  -- the switch of the FIB's subnet is the one found exactly when the links are the same
  have hsame : ∀ {sw : String}, subnetOfSwitch (topologyLinks w.meshLinks) sw =
      ((sharedLinks w.meshLinks a b).getLast hne).subnet →
      (sw = switchName i ↔ (sharedLinks w.meshLinks a b).length = 1) := by
    intro sw hsw
    have hlastSwitch := hlinks.switch_eq hmem' hsw
    rw [← hone]
    constructor
    · rintro rfl
      exact hlinks.switch_injective hmem hmem' (hswitch.trans hlastSwitch.symm)
    · intro heq
      rw [← heq, hswitch, Option.some.injEq] at hlastSwitch
      exact hlastSwitch.symm
  refine ⟨Core.normalize first, _, hfind, fibSubnet_last hlinks.hosts hlinks.nodup hab hlast, ?_,
    fun net sw hsub hsw hupa hupb => ?_, fun net sw bandwidth hsub hsw hlink hbefore => ?_⟩
  · rw [normalize_subnet, ← hone]
    exact ⟨hlinks.subnet_injective hmem hmem', fun heq => heq ▸ rfl⟩
  · obtain ⟨net', hnet', hport⟩ := setLinkState_port .down hfind hswitch
      (hsub (hnodes a hfa)) (hsub (hnodes b hfb)) (hsub hswitchNode)
    refine ⟨net', hnet', ?_, ?_⟩
    · rw [hport, ← hsame hsw, hupa]
      by_cases heq : sw = switchName i <;> simp [heq]
    · rw [hport, ← hsame hsw, hupb]
      by_cases heq : sw = switchName i <;> simp [heq]
  · obtain ⟨net', hnet', hbw⟩ := setHostsBandwidth_spec (i := i) bandwidth (sorted first.hosts) net
      (fun x hx => hsub (hnodes x (mem_sorted.mp hx))) (hsub hswitchNode)
    refine ⟨net', ?_, ?_⟩
    · simp only [setSwitchBandwidth, hfind, hswitch, normalize_hosts, hnet']
    · rw [hbw a sw hlink, ← hsame hsw]
      by_cases heq : sw = switchName i
      · simp [heq, mem_sorted.mpr hfa]
      · simp [heq, hbefore]

/-- Three hosts of three degrees each, two to a switch: the hosts `1` and `2` meet on the first
    switch, and on the third again. -/
def doubled : List RawLink :=
  [.multi (some "s0") (some 1) [1, 2] [(1, 0), (2, 0)],
    .multi (some "s1") (some 2) [0, 2] [(0, 0), (2, 1)],
    .multi (some "s2") (some 3) [1, 2] [(1, 1), (2, 2)],
    .multi (some "s3") (some 4) [0, 1] [(0, 1), (1, 2)],
    .multi (some "s4") (some 5) [0] [(0, 2)]]

theorem doubled_built : ∃ w s', MeshTopo.build reversing ⟨3, 0, 2, 3, 3, false⟩ 0 = .ok (w, s') ∧
    w.meshLinks = doubled := by
  have hlinks : (MeshTopo.build reversing ⟨3, 0, 2, 3, 3, false⟩ 0).map (fun r => r.1.meshLinks) =
      .ok doubled := by decide
  cases hbuild : MeshTopo.build reversing ⟨3, 0, 2, 3, 3, false⟩ 0 with
  | error err =>
    rw [hbuild] at hlinks
    cases hlinks
  | ok r =>
    rw [hbuild] at hlinks
    exact ⟨r.1, r.2, rfl, Except.ok.inj hlinks⟩

/-- The hosts `0` and `1` share one switch, and `link_down` takes their ports on it down. -/
theorem doubled_hit : ∃ w s', MeshTopo.build reversing ⟨3, 0, 2, 3, 3, false⟩ 0 = .ok (w, s') ∧
    ∃ link, findLink (topologyLinks w.meshLinks) 0 1 = some link ∧
      FibSubnet w.meshLinks 0 1 link.subnet := by
  obtain ⟨w, s', hbuild, hw⟩ := doubled_built
  obtain ⟨link, subnet, hfind, hfib, hiff, -⟩ := link_event_hits_iff (β := ℕ) hbuild (a := 0) (b := 1)
    (by decide) ⟨.multi (some "s3") (some 4) [0, 1] [(0, 1), (1, 2)], hw ▸ by decide, by decide⟩
  refine ⟨w, s', hbuild, link, hfind, ?_⟩
  rw [hiff.mpr (hw ▸ by decide)]
  exact hfib

/-- For the hosts `1` and `2` the event finds the first link, and the FIB has the subnet of the
    third. -/
theorem event_misses_fib : ∃ w s',
    MeshTopo.build reversing ⟨3, 0, 2, 3, 3, false⟩ 0 = .ok (w, s') ∧
    ∃ link, findLink (topologyLinks w.meshLinks) 1 2 = some link ∧ link.subnet = some 1 ∧
      FibSubnet w.meshLinks 1 2 (some 3) ∧ ¬ FibSubnet w.meshLinks 1 2 link.subnet := by
  obtain ⟨w, s', hbuild, hw⟩ := doubled_built
  refine ⟨w, s', hbuild, ?_⟩
  rw [hw]
  refine ⟨_, rfl, rfl, ⟨3, _, _, rfl, rfl⟩, ?_⟩
  rintro ⟨n, graph, subnets, hgraph, hget⟩
  cases hgraph
  cases hget

end Proof
end CeforeEmu
