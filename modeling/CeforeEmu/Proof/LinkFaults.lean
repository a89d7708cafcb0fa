import Mathlib.Data.List.Induction
import CeforeEmu.Runtime.Links

/-!
# Link faults against host flaps

Scheduled link events and host flaps write the same ports with absolute `up` / `down`
commands. What is meant is a law about the **history**: link `{a, b}` has an endpoint
port down iff the last link event naming `{a, b}` is `link_down`, or `a` or `b` is
currently flapped down.

The proof goes through one exact description of the code. `portDown x p acts` is the last
command that touched the port of `x` on link `p`; `port_after` says the network's port is
that, after **every** history. From then on the network is gone and the law is a
statement about three folds over a list: `portDown`, `lastEventDown`, `flapped`.

The law fails (`flap_undoes_link_down`), because a flap's `up` does not know that an event
took the link down, and an event's `link_up` does not know that a host is flapped. It
holds along a history exactly when neither is ever asked to: `linkLaw_iff_guarded`.
-/

set_option autoImplicit false

namespace CeforeEmu
namespace Proof

open CeforeEmu.Lib CeforeEmu.Core CeforeEmu.Runtime

/-! ## The topology and its histories -/

/-- The same link, whichever way round its two hosts are named. -/
def SamePair (p q : Nat × Nat) : Prop :=
  (p.1 = q.1 ∧ p.2 = q.2) ∨ (p.1 = q.2 ∧ p.2 = q.1)

instance (p q : Nat × Nat) : Decidable (SamePair p q) :=
  inferInstanceAs (Decidable (_ ∨ _))

theorem SamePair.symm {p q : Nat × Nat} (h : SamePair p q) : SamePair q p := by
  rcases h with ⟨h₁, h₂⟩ | ⟨h₁, h₂⟩
  · exact Or.inl ⟨h₁.symm, h₂.symm⟩
  · exact Or.inr ⟨h₂.symm, h₁.symm⟩

theorem SamePair.trans {p q r : Nat × Nat} (h : SamePair p q) (h' : SamePair q r) :
    SamePair p r := by
  unfold SamePair at *
  omega

/-- An explicit `links` list as the configuration check leaves it: every index in range,
    no link of a host to itself, no pair twice. -/
structure ExplicitLinks (hosts : Nat) where
  pairs : List (Nat × Nat)
  inRange : ∀ p ∈ pairs, p.1 < hosts ∧ p.2 < hosts
  noSelf : ∀ p ∈ pairs, p.1 ≠ p.2
  noDup : pairs.Pairwise fun p q => ¬ SamePair p q

variable {hosts : Nat}

/-- An act of a history over this topology: a link event names a configured link, a flap
    a host of the experiment. -/
def ExplicitLinks.Admits (L : ExplicitLinks hosts) : FaultAct → Prop
  | .linkDown a b | .linkUp a b => ∃ p ∈ L.pairs, SamePair p (a, b)
  | .hostDown h | .hostUp h => h < hosts

/-- The network after a history. -/
def ExplicitLinks.after (L : ExplicitLinks hosts) (acts : List FaultAct) : Option Net :=
  run (faultStep (ExplicitLinksTopo.build L.pairs).meshLinks) (explicitNet hosts L.pairs) acts

def lastEventStep (p : Nat × Nat) (d : Bool) : FaultAct → Bool
  | .linkDown a b => if SamePair p (a, b) then true else d
  | .linkUp a b => if SamePair p (a, b) then false else d
  | .hostDown _ | .hostUp _ => d

/-- The last link event naming `p` is `link_down`. -/
def lastEventDown (p : Nat × Nat) (acts : List FaultAct) : Bool :=
  acts.foldl (lastEventStep p) false

def flapStep (h : Nat) (d : Bool) : FaultAct → Bool
  | .hostDown x => if x = h then true else d
  | .hostUp x => if x = h then false else d
  | .linkDown _ _ | .linkUp _ _ => d

/-- Host `h` is currently flapped down. -/
def flapped (h : Nat) (acts : List FaultAct) : Bool := acts.foldl (flapStep h) false

def portStep (x : Nat) (p : Nat × Nat) (d : Bool) : FaultAct → Bool
  | .linkDown a b => if SamePair p (a, b) then true else d
  | .linkUp a b => if SamePair p (a, b) then false else d
  | .hostDown y => if y = x then true else d
  | .hostUp y => if y = x then false else d

/-- The last command on the port of `x` on link `p` — an event of the link or a flap of
    the host — is a `down`. -/
def portDown (x : Nat) (p : Nat × Nat) (acts : List FaultAct) : Bool :=
  acts.foldl (portStep x p) false

@[simp] theorem lastEventDown_snoc (p : Nat × Nat) (acts : List FaultAct) (a : FaultAct) :
    lastEventDown p (acts ++ [a]) = lastEventStep p (lastEventDown p acts) a := by
  simp [lastEventDown]

@[simp] theorem flapped_snoc (h : Nat) (acts : List FaultAct) (a : FaultAct) :
    flapped h (acts ++ [a]) = flapStep h (flapped h acts) a := by
  simp [flapped]

@[simp] theorem portDown_snoc (x : Nat) (p : Nat × Nat) (acts : List FaultAct) (a : FaultAct) :
    portDown x p (acts ++ [a]) = portStep x p (portDown x p acts) a := by
  simp [portDown]

/-! ## What one command does to the ports of a configured link -/

theorem configLinkStatus_port {net : Net} {src dst : String} (state : LinkState)
    (hs : src ∈ net.nodes) (hd : dst ∈ net.nodes) (a b : String) :
    (net.configLinkStatus src dst state).port a b
      = if a = src ∧ b = dst then state else net.port a b := by
  simp [Net.configLinkStatus, hs, hd]

@[simp] theorem configLinkStatus_nodes (net : Net) (src dst : String) (state : LinkState) :
    (net.configLinkStatus src dst state).nodes = net.nodes := by
  unfold Net.configLinkStatus
  split <;> rfl

@[simp] theorem configLinkStatus_links (net : Net) (src dst : String) (state : LinkState) :
    (net.configLinkStatus src dst state).links = net.links := by
  unfold Net.configLinkStatus
  split <;> rfl

/-- A network that differs from the initial one in its port states only. -/
structure SameShape (hosts : Nat) (links : List (Nat × Nat)) (net : Net) : Prop where
  nodes : net.nodes = (explicitNet hosts links).nodes
  links : net.links = (explicitNet hosts links).links

theorem SameShape.config {links : List (Nat × Nat)} {net : Net} (h : SameShape hosts links net)
    (src dst : String) (state : LinkState) :
    SameShape hosts links (net.configLinkStatus src dst state) :=
  ⟨by rw [configLinkStatus_nodes, h.nodes], by rw [configLinkStatus_links, h.links]⟩

theorem SameShape.host_mem {links : List (Nat × Nat)} {net : Net} (h : SameShape hosts links net)
    {x : Nat} (hx : x < hosts) : hostName x ∈ net.nodes := by
  rw [h.nodes]
  exact List.mem_append_left _ (List.mem_map_of_mem (List.mem_range.mpr hx))

theorem SameShape.switch_mem {links : List (Nat × Nat)} {net : Net} (h : SameShape hosts links net)
    {i : Nat} (hi : i < links.length) : switchName i ∈ net.nodes := by
  rw [h.nodes]
  exact List.mem_append_right _ (List.mem_map_of_mem (List.mem_range.mpr hi))

theorem mem_explicit_netLinks {links : List (Nat × Nat)} {l : String × String} :
    l ∈ (explicitNet hosts links).links ↔
      ∃ i p, links[i]? = some p ∧ ∃ x, (x = p.1 ∨ x = p.2) ∧ l = (hostName x, switchName i) := by
  unfold explicitNet ExplicitLinksTopo.build
  rw [wireSwitches_netLinks]
  simp only [Wiring.empty, List.nil_append, List.mem_flatMap, List.mem_map, mem_sorted,
    Prod.exists, List.mem_zipIdx_iff_getElem?, List.getElem?_map, Option.map_eq_some_iff]
  constructor
  · rintro ⟨hs, i, ⟨a, b, hp, rfl⟩, x, hx, rfl⟩
    exact ⟨i, a, b, hp, x, by simpa using hx, rfl⟩
  · rintro ⟨i, a, b, hp, x, hx, rfl⟩
    exact ⟨[a, b], i, ⟨a, b, hp, rfl⟩, x, by simpa using hx, rfl⟩

/-- `find_link` on an explicit topology: the link of the pair, through its own switch. -/
theorem findLink_explicit (L : ExplicitLinks hosts) {i a b : Nat} {p : Nat × Nat}
    (hp : L.pairs[i]? = some p) (hab : SamePair p (a, b)) :
    ∃ link, findLink (topologyLinks (ExplicitLinksTopo.build L.pairs).meshLinks) a b = some link ∧
      link.switch = some (switchName i) := by
  have entry : ∀ {j : Nat} {q : Nat × Nat}, L.pairs[j]? = some q → ∃ eth,
      (topologyLinks (ExplicitLinksTopo.build L.pairs).meshLinks)[j]?
        = some ⟨some (switchName j), some ((j : Int) + 1), sorted (sorted [q.1, q.2]), eth⟩ := by
    intro j q hq
    have hq' : (L.pairs.map fun p => [p.1, p.2])[j]? = some [q.1, q.2] := by simp [hq]
    obtain ⟨eth, he⟩ := wireSwitches_getElem? 0 .empty rfl hq'
    refine ⟨eth, ?_⟩
    simp only [Nat.zero_add] at he
    simp [topologyLinks, ExplicitLinksTopo.build, he, Core.normalize]
  obtain ⟨eth, he⟩ := entry hp
  refine ⟨⟨some (switchName i), some ((i : Int) + 1), sorted (sorted [p.1, p.2]), eth⟩, ?_, rfl⟩
  unfold findLink
  obtain ⟨hi, hget⟩ := List.getElem?_eq_some_iff.mp he
  rw [List.find?_eq_some_iff_getElem]
  refine ⟨?_, i, hi, hget, ?_⟩
  · rw [Link.connects_iff]
    unfold SamePair at hab
    simp only [mem_sorted, List.mem_cons, List.not_mem_nil, or_false]
    omega
  · -- an earlier link with both hosts would be the same pair a second time
    intro j hji
    have hjlen : j < L.pairs.length := lt_trans hji (List.getElem?_eq_some_iff.mp hp).1
    have hq : L.pairs[j]? = some L.pairs[j] := List.getElem?_eq_getElem hjlen
    obtain ⟨eth', he'⟩ := entry hq
    obtain ⟨_, hget'⟩ := List.getElem?_eq_some_iff.mp he'
    rw [hget']
    have hne : ¬ SamePair L.pairs[j] p := by
      have hpw := List.pairwise_iff_getElem.mp L.noDup j i hjlen (List.getElem?_eq_some_iff.mp hp).1 hji
      rwa [(List.getElem?_eq_some_iff.mp hp).2] at hpw
    have hpne := L.noSelf p (List.mem_of_getElem? hp)
    by_contra hc
    simp only [Bool.not_eq_true', Bool.not_eq_false] at hc
    rw [Link.connects_iff] at hc
    simp only [mem_sorted, List.mem_cons, List.not_mem_nil, or_false] at hc
    unfold SamePair at hab hne
    omega

/-- A link event sets the two ports of its link and no other. -/
theorem setLinkState_explicit (L : ExplicitLinks hosts) {net : Net}
    (hsh : SameShape hosts L.pairs net) {i a b : Nat} {p : Nat × Nat}
    (hp : L.pairs[i]? = some p) (hab : SamePair p (a, b)) (state : LinkState) :
    ∃ net', setLinkState net (ExplicitLinksTopo.build L.pairs).meshLinks a b state = .ok net' ∧
      SameShape hosts L.pairs net' ∧
      ∀ x y, net'.port x y
        = if (x = hostName a ∨ x = hostName b) ∧ y = switchName i then state else net.port x y := by
  obtain ⟨link, hfind, hsw⟩ := findLink_explicit L hp hab
  have hr := L.inRange p (List.mem_of_getElem? hp)
  have hin : a < hosts ∧ b < hosts := by
    unfold SamePair at hab
    omega
  have hi : i < L.pairs.length := (List.getElem?_eq_some_iff.mp hp).1
  have hsh' := hsh.config (hostName a) (switchName i) state
  refine ⟨(net.configLinkStatus (hostName a) (switchName i) state).configLinkStatus
    (hostName b) (switchName i) state, ?_, hsh'.config _ _ _, ?_⟩
  · simp [setLinkState, hfind, hsw]
  · intro x y
    rw [configLinkStatus_port state (hsh'.host_mem hin.2) (hsh'.switch_mem hi),
      configLinkStatus_port state (hsh.host_mem hin.1) (hsh.switch_mem hi)]
    by_cases hy : y = switchName i <;> by_cases hxa : x = hostName a <;>
      by_cases hxb : x = hostName b <;> simp [hy, hxa, hxb]

/-- `set_node_links_state`'s loop over links that start at hosts: the ports of the node,
    and no other. -/
theorem foldl_setIfEndpoint_port {node : String} (state : LinkState) :
    ∀ (ls : List (String × String)) (net : Net), node ∈ net.nodes →
      (∀ l ∈ ls, l.2 ≠ node ∧ l.2 ∈ net.nodes) → ∀ a b,
      (ls.foldl (setIfEndpoint node state) net).port a b
        = if a = node ∧ (node, b) ∈ ls then state else net.port a b
  | [], _, _, _, _, _ => by simp
  | l :: ls, net, hn, hls, a, b => by
    have hl := hls l List.mem_cons_self
    have hrest : ∀ l' ∈ ls, l'.2 ≠ node ∧ l'.2 ∈ (setIfEndpoint node state net l).nodes := by
      intro l' hl'
      have := hls l' (List.mem_cons_of_mem _ hl')
      unfold setIfEndpoint
      split
      · simpa using this
      · split <;> simpa using this
    have hn' : node ∈ (setIfEndpoint node state net l).nodes := by
      unfold setIfEndpoint
      split
      · simpa using hn
      · split <;> simpa using hn
    rw [List.foldl_cons, foldl_setIfEndpoint_port state ls _ hn' hrest]
    obtain ⟨u, v⟩ := l
    by_cases hu : u = node
    · subst hu
      have hset : (setIfEndpoint u state net (u, v)).port a b
          = if a = u ∧ b = v then state else net.port a b := by
        unfold setIfEndpoint
        rw [if_pos rfl]
        exact configLinkStatus_port state hn hl.2 a b
      rw [hset]
      by_cases ha : a = u <;> by_cases hb : b = v <;> by_cases hm : (u, b) ∈ ls <;>
        simp_all
    · have hset : setIfEndpoint node state net (u, v) = net := by
        unfold setIfEndpoint
        rw [if_neg hu, if_neg hl.1]
      rw [hset]
      have hne : (node, b) ≠ (u, v) := fun h => hu (congrArg Prod.fst h).symm
      simp [hne]

theorem foldl_setIfEndpoint_shape {links : List (Nat × Nat)} {node : String} (state : LinkState) :
    ∀ (ls : List (String × String)) (net : Net), SameShape hosts links net →
      SameShape hosts links (ls.foldl (setIfEndpoint node state) net)
  | [], _, h => h
  | l :: ls, net, h => by
    refine foldl_setIfEndpoint_shape state ls _ ?_
    unfold setIfEndpoint
    split
    · exact h.config _ _ _
    · split
      · exact h.config _ _ _
      · exact h

/-- A flap sets every port of its host and no other. -/
theorem setNodeLinksState_explicit (L : ExplicitLinks hosts) {net : Net}
    (hsh : SameShape hosts L.pairs net) {h : Nat} (hh : h < hosts) (state : LinkState) :
    ∃ net', setNodeLinksState net (hostName h) state = .ok net' ∧
      SameShape hosts L.pairs net' ∧
      ∀ {j : Nat} {q : Nat × Nat} {x : Nat}, L.pairs[j]? = some q → (x = q.1 ∨ x = q.2) →
        net'.port (hostName x) (switchName j)
          = if x = h then state else net.port (hostName x) (switchName j) := by
  have hmem : hostName h ∈ net.nodes := hsh.host_mem hh
  refine ⟨_, by rw [setNodeLinksState, if_pos hmem], foldl_setIfEndpoint_shape state _ _ hsh, ?_⟩
  intro j q x hq hx
  have hls : ∀ l ∈ net.links, l.2 ≠ hostName h ∧ l.2 ∈ net.nodes := by
    intro l hl
    rw [hsh.links, mem_explicit_netLinks] at hl
    obtain ⟨i, p, hp, _, _, rfl⟩ := hl
    exact ⟨(hostName_ne_switchName h i).symm, hsh.switch_mem (List.getElem?_eq_some_iff.mp hp).1⟩
  rw [foldl_setIfEndpoint_port state _ _ hmem hls]
  by_cases hxh : x = h
  · subst hxh
    have : (hostName x, switchName j) ∈ net.links := by
      rw [hsh.links]
      exact mem_explicit_netLinks.mpr ⟨j, q, hq, x, hx, rfl⟩
    simp [this]
  · have : hostName x ≠ hostName h := fun he => hxh (hostName_injective he)
    simp [hxh, this]

/-! ## The ports after a history -/

def stateOf (d : Bool) : LinkState := if d then .down else .up

/-- The network is the initial one with every port of a configured link in the state its
    last command left. -/
structure PortsAfter (L : ExplicitLinks hosts) (acts : List FaultAct) (net : Net) : Prop where
  shape : SameShape hosts L.pairs net
  port : ∀ {j : Nat} {q : Nat × Nat} {x : Nat}, L.pairs[j]? = some q → (x = q.1 ∨ x = q.2) →
    net.port (hostName x) (switchName j) = stateOf (portDown x q acts)

/-- A pair is one link: only the event of link `i` moves the ports of link `i`. -/
theorem ExplicitLinks.index_unique (L : ExplicitLinks hosts) {i j : Nat} {p q : Nat × Nat}
    (hp : L.pairs[i]? = some p) (hq : L.pairs[j]? = some q) (h : SamePair p q) : i = j := by
  obtain ⟨hi, rfl⟩ := List.getElem?_eq_some_iff.mp hp
  obtain ⟨hj, rfl⟩ := List.getElem?_eq_some_iff.mp hq
  rcases lt_trichotomy i j with hlt | heq | hgt
  · exact absurd h (List.pairwise_iff_getElem.mp L.noDup i j hi hj hlt)
  · exact heq
  · exact absurd h.symm (List.pairwise_iff_getElem.mp L.noDup j i hj hi hgt)

/-- The host ports of the configured links after a link event: those of the link it names are set,
    the others are as they were. -/
theorem setLinkState_ports (L : ExplicitLinks hosts) {net : Net}
    (hsh : SameShape hosts L.pairs net) {a b : Nat} (hab : ∃ p ∈ L.pairs, SamePair p (a, b))
    (state : LinkState) :
    ∃ net', setLinkState net (ExplicitLinksTopo.build L.pairs).meshLinks a b state = .ok net' ∧
      SameShape hosts L.pairs net' ∧
      ∀ {j : Nat} {q : Nat × Nat} {x : Nat}, L.pairs[j]? = some q → (x = q.1 ∨ x = q.2) →
        net'.port (hostName x) (switchName j)
          = if SamePair q (a, b) then state else net.port (hostName x) (switchName j) := by
  obtain ⟨p, hmem, hpab⟩ := hab
  obtain ⟨i, hp⟩ := List.getElem?_of_mem hmem
  obtain ⟨net', hok, hsh', hport⟩ := setLinkState_explicit L hsh hp hpab state
  refine ⟨net', hok, hsh', fun {j q x} hq hx => ?_⟩
  rw [hport]
  by_cases hs : SamePair q (a, b)
  · have hij : j = i := L.index_unique hq hp (hs.trans hpab.symm)
    subst hij
    have hxab : x = a ∨ x = b := by
      unfold SamePair at hs
      omega
    have hname : hostName x = hostName a ∨ hostName x = hostName b :=
      hxab.imp (congrArg hostName) (congrArg hostName)
    rw [if_pos ⟨hname, rfl⟩, if_pos hs]
  · have hij : switchName j ≠ switchName i := by
      intro he
      have := switchName_injective he
      subst this
      rw [hq] at hp
      injection hp with hp
      exact hs (hp ▸ hpab)
    rw [if_neg (fun hc => hij hc.2), if_neg hs]

theorem portsAfter_linkEvent (L : ExplicitLinks hosts) {acts : List FaultAct} {net : Net}
    (h : PortsAfter L acts net) {a b : Nat} (hab : ∃ p ∈ L.pairs, SamePair p (a, b)) (d : Bool)
    (act : FaultAct)
    (hstep : ∀ x q, portStep x q (portDown x q acts) act
      = if SamePair q (a, b) then d else portDown x q acts) :
    ∃ net', setLinkState net (ExplicitLinksTopo.build L.pairs).meshLinks a b (stateOf d)
        = .ok net' ∧ PortsAfter L (acts ++ [act]) net' := by
  obtain ⟨net', hok, hsh, hport⟩ := setLinkState_ports L h.shape hab (stateOf d)
  refine ⟨net', hok, hsh, fun {j q x} hq hx => ?_⟩
  rw [hport hq hx, h.port hq hx, portDown_snoc, hstep]
  by_cases hs : SamePair q (a, b)
  · rw [if_pos hs, if_pos hs]
  · rw [if_neg hs, if_neg hs]

theorem portsAfter_flap (L : ExplicitLinks hosts) {acts : List FaultAct} {net : Net}
    (h : PortsAfter L acts net) {y : Nat} (hy : y < hosts) (d : Bool) (act : FaultAct)
    (hstep : ∀ x q, portStep x q (portDown x q acts) act
      = if y = x then d else portDown x q acts) :
    ∃ net', setNodeLinksState net (hostName y) (stateOf d) = .ok net' ∧
      PortsAfter L (acts ++ [act]) net' := by
  obtain ⟨net', hok, hsh, hport⟩ := setNodeLinksState_explicit L h.shape hy (stateOf d)
  refine ⟨net', hok, hsh, fun {j q x} hq hx => ?_⟩
  rw [hport hq hx, h.port hq hx, portDown_snoc, hstep]
  by_cases hxy : x = y
  · rw [if_pos hxy, if_pos hxy.symm]
  · rw [if_neg hxy, if_neg (Ne.symm hxy)]

/-- One admitted write never raises and moves the ports as `portStep` says. -/
theorem portsAfter_step (L : ExplicitLinks hosts) {acts : List FaultAct} {net : Net}
    (h : PortsAfter L acts net) {act : FaultAct} (ha : L.Admits act) :
    ∃ net', faultStep (ExplicitLinksTopo.build L.pairs).meshLinks net act = some net' ∧
      PortsAfter L (acts ++ [act]) net' := by
  cases act with
  | linkDown a b =>
    obtain ⟨net', hok, hp⟩ := portsAfter_linkEvent L h ha true (.linkDown a b) (fun _ _ => rfl)
    exact ⟨net', by simp [faultStep, show LinkState.down = stateOf true from rfl, hok,
      Except.toOption], hp⟩
  | linkUp a b =>
    obtain ⟨net', hok, hp⟩ := portsAfter_linkEvent L h ha false (.linkUp a b) (fun _ _ => rfl)
    exact ⟨net', by simp [faultStep, show LinkState.up = stateOf false from rfl, hok,
      Except.toOption], hp⟩
  | hostDown y =>
    obtain ⟨net', hok, hp⟩ := portsAfter_flap L h ha true (.hostDown y) (fun _ _ => rfl)
    exact ⟨net', by simp [faultStep, show LinkState.down = stateOf true from rfl, hok,
      Except.toOption], hp⟩
  | hostUp y =>
    obtain ⟨net', hok, hp⟩ := portsAfter_flap L h ha false (.hostUp y) (fun _ _ => rfl)
    exact ⟨net', by simp [faultStep, show LinkState.up = stateOf false from rfl, hok,
      Except.toOption], hp⟩

/-- **The exact port semantics**: after every admitted history no command has raised, and
    each port of a configured link is as the last command that touched it says. -/
theorem port_after (L : ExplicitLinks hosts) (acts : List FaultAct)
    (hadm : ∀ a ∈ acts, L.Admits a) : ∃ net, L.after acts = some net ∧ PortsAfter L acts net := by
  induction acts using List.reverseRecOn with
  | nil => exact ⟨explicitNet hosts L.pairs, rfl, ⟨rfl, rfl⟩, fun _ _ => rfl⟩
  | append_singleton acts act ih =>
    obtain ⟨net, hrun, hp⟩ := ih fun a ha => hadm a (List.mem_append_left _ ha)
    obtain ⟨net', hstep, hp'⟩ :=
      portsAfter_step L hp (hadm act (List.mem_append_right _ List.mem_cons_self))
    refine ⟨net', ?_, hp'⟩
    unfold ExplicitLinks.after at hrun ⊢
    rw [run_append hrun, run_cons_of_step hstep, run_nil]

/-! ## The law, and exactly when it holds -/

/-- The port of `x` on link number `i` is down in the network after the history. -/
def ExplicitLinks.PortIsDown (L : ExplicitLinks hosts) (acts : List FaultAct) (x i : Nat) : Prop :=
  ∃ net, L.after acts = some net ∧ net.port (hostName x) (switchName i) = .down

/-- The law after one history: every configured link has an endpoint port down iff its
    last link event is `link_down` or one of its hosts is flapped down. -/
def ExplicitLinks.LinkLaw (L : ExplicitLinks hosts) (acts : List FaultAct) : Prop :=
  ∀ (i : Nat) (p : Nat × Nat), L.pairs[i]? = some p →
    (L.PortIsDown acts p.1 i ∨ L.PortIsDown acts p.2 i ↔
      lastEventDown p acts = true ∨ flapped p.1 acts = true ∨ flapped p.2 acts = true)

/-- What the next write must find. A `link_up` finds neither host flapped down; a flap's
    `up` finds, on every link of its host that an event left down, the *other* port down
    (its host is flapped too, or has not been flapped up since). -/
def LawGuard (L : ExplicitLinks hosts) (acts : List FaultAct) : FaultAct → Prop
  | .linkUp a b => flapped a acts = false ∧ flapped b acts = false
  | .hostUp h => ∀ p ∈ L.pairs, lastEventDown p acts = true →
      (p.1 = h → portDown p.2 p acts = true) ∧ (p.2 = h → portDown p.1 p acts = true)
  | .linkDown _ _ | .hostDown _ => True

theorem portIsDown_iff (L : ExplicitLinks hosts) {acts : List FaultAct}
    (hadm : ∀ a ∈ acts, L.Admits a) {i x : Nat} {p : Nat × Nat} (hp : L.pairs[i]? = some p)
    (hx : x = p.1 ∨ x = p.2) : L.PortIsDown acts x i ↔ portDown x p acts = true := by
  obtain ⟨net, hnet, hports⟩ := port_after L acts hadm
  unfold ExplicitLinks.PortIsDown
  rw [hnet]
  constructor
  · rintro ⟨net', hnet', hd⟩
    injection hnet' with hnet'
    subst hnet'
    rw [hports.port hp hx] at hd
    cases hpd : portDown x p acts with
    | true => rfl
    | false => rw [hpd] at hd; exact absurd hd (by decide)
  · intro hd
    exact ⟨net, rfl, by rw [hports.port hp hx, hd]; rfl⟩

/-- A port that is down has a reason: the link's event or its own host's flap. No guard
    is needed for this half. -/
theorem portDown_reason (x : Nat) (p : Nat × Nat) (acts : List FaultAct)
    (h : portDown x p acts = true) : lastEventDown p acts = true ∨ flapped x acts = true := by
  induction acts using List.reverseRecOn with
  | nil => simp [portDown] at h
  | append_singleton acts act ih =>
    rw [portDown_snoc] at h
    rw [lastEventDown_snoc, flapped_snoc]
    cases act with
    | linkDown a b | linkUp a b =>
      simp only [portStep, lastEventStep, flapStep] at h ⊢
      by_cases hs : SamePair p (a, b)
      · simp_all
      · rw [if_neg hs] at h ⊢
        exact ih h
    | hostDown y | hostUp y =>
      simp only [portStep, lastEventStep, flapStep] at h ⊢
      by_cases hs : y = x
      · simp_all
      · rw [if_neg hs] at h ⊢
        exact ih h

/-- Every write of the history finds what `LawGuard` asks for. -/
def Guarded (L : ExplicitLinks hosts) (acts : List FaultAct) : Prop :=
  ∀ pre act, pre ++ [act] <+: acts → LawGuard L pre act

theorem Guarded.of_prefix {L : ExplicitLinks hosts} {pre acts : List FaultAct}
    (h : Guarded L acts) (hp : pre <+: acts) : Guarded L pre :=
  fun pre' act hpre => h pre' act (hpre.trans hp)

theorem Guarded.last {L : ExplicitLinks hosts} {acts : List FaultAct} {act : FaultAct}
    (h : Guarded L (acts ++ [act])) : LawGuard L acts act :=
  h acts act List.prefix_rfl

theorem guarded_nil (L : ExplicitLinks hosts) : Guarded L [] :=
  fun _ _ h => absurd h.length_le (by simp)

theorem Guarded.snoc {L : ExplicitLinks hosts} {acts : List FaultAct}
    (h : Guarded L acts) (act : FaultAct) (ha : LawGuard L acts act) : Guarded L (acts ++ [act]) := by
  intro pre act' hpre
  rcases List.prefix_concat_iff.mp hpre with heq | hpre
  · obtain ⟨rfl, rfl⟩ := List.append_singleton_inj.mp heq
    exact ha
  · exact h pre act' hpre

/-- Along a guarded history a flapped host has every port down: only a `link_up` could
    raise one, and the guard keeps it away. -/
theorem flapped_portDown {L : ExplicitLinks hosts} {acts : List FaultAct} (hg : Guarded L acts)
    {x : Nat} {p : Nat × Nat} (hx : x = p.1 ∨ x = p.2) (hf : flapped x acts = true) :
    portDown x p acts = true := by
  induction acts using List.reverseRecOn with
  | nil => simp [flapped] at hf
  | append_singleton acts act ih =>
    have hg' := hg.of_prefix (List.prefix_append acts [act])
    have hl := hg.last
    rw [flapped_snoc] at hf
    rw [portDown_snoc]
    cases act with
    | linkDown a b =>
      simp only [flapStep, portStep] at hf ⊢
      split
      · rfl
      · exact ih hg' hf
    | linkUp a b =>
      simp only [flapStep, portStep] at hf ⊢
      by_cases hs : SamePair p (a, b)
      · obtain ⟨ha, hb⟩ := hl
        have hxab : x = a ∨ x = b := by
          unfold SamePair at hs
          omega
        rcases hxab with rfl | rfl
        · rw [ha] at hf; cases hf
        · rw [hb] at hf; cases hf
      · rw [if_neg hs]
        exact ih hg' hf
    | hostDown y | hostUp y =>
      simp only [flapStep, portStep] at hf ⊢
      by_cases hy : y = x
      · simp_all
      · rw [if_neg hy] at hf ⊢
        exact ih hg' hf

/-- Along a guarded history a link whose last event is `link_down` keeps a port down:
    a flap's `up` may raise one end only while the other is down. -/
theorem lastEventDown_portDown {L : ExplicitLinks hosts} {acts : List FaultAct}
    (hg : Guarded L acts) {p : Nat × Nat} (hp : p ∈ L.pairs) (hd : lastEventDown p acts = true) :
    portDown p.1 p acts = true ∨ portDown p.2 p acts = true := by
  induction acts using List.reverseRecOn with
  | nil => simp [lastEventDown] at hd
  | append_singleton acts act ih =>
    have hg' := hg.of_prefix (List.prefix_append acts [act])
    have hl := hg.last
    have hne := L.noSelf p hp
    rw [lastEventDown_snoc] at hd
    rw [portDown_snoc, portDown_snoc]
    cases act with
    | linkDown a b | linkUp a b =>
      simp only [lastEventStep, portStep] at hd ⊢
      by_cases hs : SamePair p (a, b)
      · simp_all
      · simp only [if_neg hs] at hd ⊢
        exact ih hg' hd
    | hostDown y =>
      simp only [lastEventStep, portStep] at hd ⊢
      rcases ih hg' hd with h | h <;> simp [h]
    | hostUp y =>
      simp only [lastEventStep, portStep] at hd ⊢
      obtain ⟨h₁, h₂⟩ := hl p hp hd
      by_cases hy₁ : p.1 = y
      · exact Or.inr (by rw [if_neg (fun h => hne (hy₁.trans h))]; exact h₁ hy₁)
      · by_cases hy₂ : p.2 = y
        · exact Or.inl (by rw [if_neg (Ne.symm hy₁)]; exact h₂ hy₂)
        · rw [if_neg (Ne.symm hy₁), if_neg (Ne.symm hy₂)]
          exact ih hg' hd

/-- **Exactly when faults and flaps do not undo each other.** Over an explicit topology and
    an admitted history, the law holds after every step iff every `link_up` of the history
    finds neither of its hosts flapped down and every flap's `up` finds, on each link an
    event left down, the other end's port down. -/
theorem linkLaw_iff_guarded (L : ExplicitLinks hosts) (acts : List FaultAct)
    (hadm : ∀ a ∈ acts, L.Admits a) :
    (∀ pre, pre <+: acts → L.LinkLaw pre) ↔ Guarded L acts := by
  have hadmPre : ∀ {pre : List FaultAct}, pre <+: acts → ∀ a ∈ pre, L.Admits a :=
    fun hpre a ha => hadm a (hpre.subset ha)
  constructor
  · intro hlaw pre act hpre
    have hlast := hlaw (pre ++ [act]) hpre
    have hdown := fun {i : Nat} {p : Nat × Nat} (hp : L.pairs[i]? = some p) (x : Nat)
      (hx : x = p.1 ∨ x = p.2) => portIsDown_iff L (hadmPre hpre) hp hx
    cases act with
    | linkDown a b => trivial
    | hostDown y => trivial
    | linkUp a b =>
      obtain ⟨p, hmem, hs⟩ := hadm (.linkUp a b) (hpre.subset (by simp))
      obtain ⟨i, hp⟩ := List.getElem?_of_mem hmem
      have hl := hlast i p hp
      rw [hdown hp _ (Or.inl rfl), hdown hp _ (Or.inr rfl)] at hl
      simp only [portDown_snoc, lastEventDown_snoc, flapped_snoc, portStep, lastEventStep,
        flapStep, if_pos hs] at hl
      simp only [Bool.false_eq_true, or_self, false_or, false_iff, not_or,
        Bool.not_eq_true] at hl
      obtain ⟨q₁, q₂⟩ := p
      rcases hs with ⟨h₁, h₂⟩ | ⟨h₁, h₂⟩
      · simp only at h₁ h₂ hl
        exact ⟨h₁ ▸ hl.1, h₂ ▸ hl.2⟩
      · simp only at h₁ h₂ hl
        exact ⟨h₂ ▸ hl.2, h₁ ▸ hl.1⟩
    | hostUp y =>
      intro p hmem hd
      obtain ⟨i, hp⟩ := List.getElem?_of_mem hmem
      have hne := L.noSelf p hmem
      have hl := hlast i p hp
      rw [hdown hp _ (Or.inl rfl), hdown hp _ (Or.inr rfl)] at hl
      have hports := hl.mpr (Or.inl (by rw [lastEventDown_snoc]; exact hd))
      simp only [portDown_snoc, portStep] at hports
      refine ⟨fun hy => ?_, fun hy => ?_⟩
      · rw [if_pos hy.symm, if_neg (fun h => hne (hy.trans h))] at hports
        simpa using hports
      · rw [if_pos hy.symm, if_neg (fun h => hne (h.symm.trans hy.symm))] at hports
        simpa using hports
  · intro hg pre hpre i p hp
    have hmem := List.mem_of_getElem? hp
    have hg' := hg.of_prefix hpre
    rw [portIsDown_iff L (hadmPre hpre) hp (Or.inl rfl),
      portIsDown_iff L (hadmPre hpre) hp (Or.inr rfl)]
    constructor
    · rintro (h | h)
      · rcases portDown_reason p.1 p pre h with hd | hf
        · exact Or.inl hd
        · exact Or.inr (Or.inl hf)
      · rcases portDown_reason p.2 p pre h with hd | hf
        · exact Or.inl hd
        · exact Or.inr (Or.inr hf)
    · rintro (hd | hf | hf)
      · exact lastEventDown_portDown hg' hmem hd
      · exact Or.inl (flapped_portDown hg' (Or.inl rfl) hf)
      · exact Or.inr (flapped_portDown hg' (Or.inr rfl) hf)

/-- The line `h0 - h1 - h2`. -/
def lineOfThree : ExplicitLinks 3 where
  pairs := [(0, 1), (1, 2)]
  inRange := by decide
  noSelf := by decide
  noDup := by decide

/-- A `link_down` with no restore, then one complete flap of each of its hosts. -/
def flapBothEnds : List FaultAct :=
  [.linkDown 0 1, .hostDown 0, .hostUp 0, .hostDown 1, .hostUp 1]

theorem flapBothEnds_admitted : ∀ a ∈ flapBothEnds, lineOfThree.Admits a := by
  intro a ha
  simp only [flapBothEnds, List.mem_cons, List.not_mem_nil, or_false] at ha
  rcases ha with rfl | rfl | rfl | rfl | rfl <;> simp only [ExplicitLinks.Admits] <;> decide

/-- **The law fails**: after the two flaps both ports of the link are up again, though its
    last event is `link_down` and no host is flapped. -/
theorem flap_undoes_link_down :
    (∀ a ∈ flapBothEnds, lineOfThree.Admits a) ∧ ¬ lineOfThree.LinkLaw flapBothEnds := by
  refine ⟨flapBothEnds_admitted, fun hlaw => ?_⟩
  have h01 := hlaw 0 (0, 1) rfl
  rw [portIsDown_iff lineOfThree flapBothEnds_admitted rfl (Or.inl rfl),
    portIsDown_iff lineOfThree flapBothEnds_admitted rfl (Or.inr rfl)] at h01
  exact absurd h01 (by decide)

/-- A flap of one end of a faulted link, and the link's repair once the host is back. -/
def flapOneEnd : List FaultAct := [.linkDown 0 1, .hostDown 0, .hostUp 0, .linkUp 0 1]

theorem flapOneEnd_admitted : ∀ a ∈ flapOneEnd, lineOfThree.Admits a := by
  intro a ha
  simp only [flapOneEnd, List.mem_cons, List.not_mem_nil, or_false] at ha
  rcases ha with rfl | rfl | rfl | rfl <;> simp only [ExplicitLinks.Admits] <;> decide

/-- A history the law survives. -/
theorem linkLaw_flapOneEnd : (∀ a ∈ flapOneEnd, lineOfThree.Admits a) ∧
    ∀ pre, pre <+: flapOneEnd → lineOfThree.LinkLaw pre := by
  refine ⟨flapOneEnd_admitted, (linkLaw_iff_guarded lineOfThree _ flapOneEnd_admitted).mpr ?_⟩
  have h₁ := (guarded_nil lineOfThree).snoc (.linkDown 0 1) trivial
  have h₂ := h₁.snoc (.hostDown 0) trivial
  have h₃ := h₂.snoc (.hostUp 0) (by simp only [LawGuard]; decide)
  exact h₃.snoc (.linkUp 0 1) (by simp only [LawGuard]; decide)

end Proof
end CeforeEmu
