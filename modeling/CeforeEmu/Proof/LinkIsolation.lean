import CeforeEmu.Proof.FiredEvents
import CeforeEmu.Proof.LinkAcceptance
import CeforeEmu.Proof.LinkLookup

/-!
# Link events on an explicit topology

Every pair of an explicit topology has a switch of its own, so that an event cannot reach any link
but the one it names. `Isolated` says that of a whole sequence of events.

An event may name one host twice, though: `_validate_link_event` does not compare the two indices,
and `find_link` looks for a link with the first host and the second, which is the first link the
host is on (`findLink_self`). That port is then set. The sequences that stay isolated are the ones
without such an event (`isolated_iff`).
-/

set_option autoImplicit false

namespace CeforeEmu
namespace Proof

open CeforeEmu.Lib CeforeEmu.Core CeforeEmu.Runtime

variable {τ : Type} [DecidableEq τ]

/-! ## Sequences of events -/

/-- The event names the two hosts, in either order. -/
def NamesPair (event : Event τ) (p : ℕ × ℕ) : Prop :=
  ∃ state a b, linkEvent? event = some (state, a, b) ∧ SamePair p (a, b)

/-- The network after a sequence of link events. -/
def afterEvents (hosts : ℕ) (pairs : List (ℕ × ℕ)) (events : List (Event τ)) : Net :=
  events.foldl (fireLinkEvent (ExplicitLinksTopo.build pairs).meshLinks) (explicitNet hosts pairs)

def namedState (p : ℕ × ℕ) (state : LinkState) (event : Event τ) : LinkState :=
  match linkEvent? event with
  | some (state', a, b) => if SamePair p (a, b) then state' else state
  | none => state

/-- What the last event that names the pair asks for. -/
def lastNamed (p : ℕ × ℕ) (events : List (Event τ)) : LinkState :=
  events.foldl (namedState p) .up

/-- Along the sequence, a host port of a configured link is changed by the events that name the
    link only, and is as the last of them says; and an event that names no link raises and changes
    nothing. -/
structure Isolated (hosts : ℕ) (pairs : List (ℕ × ℕ)) (events : List (Event τ)) : Prop where
  only : ∀ pre event, pre ++ [event] <+: events → ∀ i p x, pairs[i]? = some p →
    (x = p.1 ∨ x = p.2) → ¬ NamesPair event p →
      (afterEvents hosts pairs (pre ++ [event])).port (hostName x) (switchName i)
        = (afterEvents hosts pairs pre).port (hostName x) (switchName i)
  last : ∀ pre, pre <+: events → ∀ i p x, pairs[i]? = some p → (x = p.1 ∨ x = p.2) →
    (afterEvents hosts pairs pre).port (hostName x) (switchName i) = lastNamed p pre
  raises : ∀ pre event, pre ++ [event] <+: events → (∀ p ∈ pairs, ¬ NamesPair event p) →
    handleLinkEvent (ExplicitLinksTopo.build pairs).meshLinks (afterEvents hosts pairs pre) event
        = none ∧
      afterEvents hosts pairs (pre ++ [event]) = afterEvents hosts pairs pre

@[simp] theorem afterEvents_snoc (hosts : ℕ) (pairs : List (ℕ × ℕ)) (events : List (Event τ))
    (event : Event τ) : afterEvents hosts pairs (events ++ [event])
      = fireLinkEvent (ExplicitLinksTopo.build pairs).meshLinks (afterEvents hosts pairs events)
        event := by
  simp [afterEvents]

@[simp] theorem lastNamed_snoc (p : ℕ × ℕ) (events : List (Event τ)) (event : Event τ) :
    lastNamed p (events ++ [event]) = namedState p (lastNamed p events) event := by
  simp [lastNamed]

theorem namedState_of_not_names {p : ℕ × ℕ} {event : Event τ} (h : ¬ NamesPair event p)
    (state : LinkState) : namedState p state event = state := by
  rw [namedState]
  cases he : linkEvent? event with
  | none => rfl
  | some e =>
    obtain ⟨state', a, b⟩ := e
    exact if_neg fun hsame => h ⟨state', a, b, he, hsame⟩

/-! ## The lookup -/

section Lookup

variable {pairs : List (ℕ × ℕ)} {a b : ℕ}

theorem mem_sharedLinks_explicit {raw : RawLink}
    (h : raw ∈ sharedLinks (ExplicitLinksTopo.build pairs).meshLinks a b) :
    ∃ p ∈ pairs, (a = p.1 ∨ a = p.2) ∧ (b = p.1 ∨ b = p.2) := by
  obtain ⟨hraw, ha, hb⟩ := mem_sharedLinks.mp h
  obtain ⟨-, p, -, hp, -, hhosts⟩ := ExplicitLinksTopo.of_mem_meshLinks hraw
  rw [hhosts, mem_sorted] at ha hb
  exact ⟨p, hp, List.mem_pair.mp ha, List.mem_pair.mp hb⟩

/-- There is no link for two different hosts that are not a pair of the list. -/
theorem findLink_none (hab : a ≠ b) (hno : ∀ p ∈ pairs, ¬ SamePair p (a, b)) :
    findLink (topologyLinks (ExplicitLinksTopo.build pairs).meshLinks) a b = none := by
  rw [findLink_first]
  cases hshared : sharedLinks (ExplicitLinksTopo.build pairs).meshLinks a b with
  | nil => rfl
  | cons raw rest =>
    obtain ⟨p, hp, ha, hb⟩ := mem_sharedLinks_explicit (hshared ▸ List.mem_cons_self)
    refine absurd ?_ (hno p hp)
    simp only [SamePair]
    omega

theorem findLink_empty (a b : ℕ) :
    findLink (topologyLinks (ExplicitLinksTopo.build []).meshLinks) a b = none := rfl

/-- A host named twice is looked up as a link: the first it is on. -/
theorem findLink_self (h : ∃ p ∈ pairs, a = p.1 ∨ a = p.2) :
    ∃ link, findLink (topologyLinks (ExplicitLinksTopo.build pairs).meshLinks) a a = some link := by
  obtain ⟨p, hp, ha⟩ := h
  obtain ⟨raw, hraw, hhosts⟩ := ExplicitLinksTopo.exists_mem_meshLinks hp
  have hmem : a ∈ raw.hosts := by
    rw [hhosts, mem_sorted]
    exact List.mem_pair.mpr ha
  rw [findLink_first]
  cases hshared : sharedLinks (ExplicitLinksTopo.build pairs).meshLinks a a with
  | nil =>
    have hin := mem_sharedLinks.mpr ⟨hraw, hmem, hmem⟩
    rw [hshared] at hin
    cases hin
  | cons raw' rest => exact ⟨_, rfl⟩

/-- A link event raises exactly when there is no link to be found. -/
theorem setLinkState_raises (net : Net) (meshLinks : List RawLink) (state : LinkState) :
    (setLinkState net meshLinks a b state).toOption = none ↔
      findLink (topologyLinks meshLinks) a b = none := by
  rw [setLinkState]
  cases findLink (topologyLinks meshLinks) a b with
  | none => simp [Except.toOption]
  | some link =>
    cases hswitch : link.switch with
    | none => simp [hswitch, Except.toOption]
    | some switch => simp [hswitch, Except.toOption]

end Lookup

/-! ## One event -/

/-- The nodes are two hosts, or there is no link that could be hit. -/
def TwoHosts (pairs : List (ℕ × ℕ)) (event : Event τ) : Prop :=
  ∀ state a b, linkEvent? event = some (state, a, b) → a ≠ b ∨ pairs = []

/-- An event that names no link raises, and nothing is changed. -/
theorem fire_unnamed {pairs : List (ℕ × ℕ)} {event : Event τ} (htwo : TwoHosts pairs event)
    (hno : ∀ p ∈ pairs, ¬ NamesPair event p) (net : Net) :
    handleLinkEvent (ExplicitLinksTopo.build pairs).meshLinks net event = none := by
  rw [handleLinkEvent]
  cases he : linkEvent? event with
  | none => rfl
  | some e =>
    obtain ⟨state, a, b⟩ := e
    refine (setLinkState_raises net _ state).mpr ?_
    rcases htwo state a b he with hab | rfl
    · exact findLink_none hab fun p hp hsame => hno p hp ⟨state, a, b, he, hsame⟩
    · exact findLink_empty a b

/-- An event that names a link sets its two ports and no other. -/
theorem fire_named {hosts : ℕ} (L : ExplicitLinks hosts) {net : Net}
    (hsh : SameShape hosts L.pairs net) {event : Event τ}
    (hnamed : ∃ p ∈ L.pairs, NamesPair event p) :
    SameShape hosts L.pairs (fireLinkEvent (ExplicitLinksTopo.build L.pairs).meshLinks net event) ∧
      ∀ j q x, L.pairs[j]? = some q → (x = q.1 ∨ x = q.2) →
        (fireLinkEvent (ExplicitLinksTopo.build L.pairs).meshLinks net event).port (hostName x)
            (switchName j)
          = namedState q (net.port (hostName x) (switchName j)) event := by
  obtain ⟨p, hp, state, a, b, he, hab⟩ := hnamed
  obtain ⟨net', hok, hsh', hport⟩ := setLinkState_ports L hsh ⟨p, hp, hab⟩ state
  have hfire : fireLinkEvent (ExplicitLinksTopo.build L.pairs).meshLinks net event = net' := by
    simp only [fireLinkEvent, handleLinkEvent, he, hok, Except.toOption, Option.getD_some]
  rw [hfire]
  refine ⟨hsh', fun j q x hq hx => ?_⟩
  rw [hport hq hx, namedState, he]

/-! ## A sequence -/

/-- Along a sequence of events that each name two hosts, every port is as the last event naming
    its link says. -/
theorem ports_afterEvents {hosts : ℕ} (L : ExplicitLinks hosts) (events : List (Event τ))
    (htwo : ∀ event ∈ events, TwoHosts L.pairs event) :
    SameShape hosts L.pairs (afterEvents hosts L.pairs events) ∧
      ∀ j q x, L.pairs[j]? = some q → (x = q.1 ∨ x = q.2) →
        (afterEvents hosts L.pairs events).port (hostName x) (switchName j)
          = lastNamed q events := by
  induction events using List.reverseRecOn with
  | nil => exact ⟨⟨rfl, rfl⟩, fun j q x _ _ => rfl⟩
  | append_singleton events event ih =>
    obtain ⟨hsh, hport⟩ := ih fun e he => htwo e (List.mem_append_left _ he)
    by_cases hnamed : ∃ p ∈ L.pairs, NamesPair event p
    · obtain ⟨hsh', hport'⟩ := fire_named L hsh hnamed
      rw [afterEvents_snoc]
      refine ⟨hsh', fun j q x hq hx => ?_⟩
      rw [hport' j q x hq hx, hport j q x hq hx, lastNamed_snoc]
    · have hno : ∀ p ∈ L.pairs, ¬ NamesPair event p := fun p hp h => hnamed ⟨p, hp, h⟩
      have hraise := fire_unnamed (htwo event (by simp)) hno (afterEvents hosts L.pairs events)
      rw [afterEvents_snoc, fireLinkEvent, hraise, Option.getD_none]
      refine ⟨hsh, fun j q x hq hx => ?_⟩
      rw [hport j q x hq hx, lastNamed_snoc,
        namedState_of_not_names (hno q (List.mem_of_getElem? hq))]

theorem isolated_of_two {hosts : ℕ} (L : ExplicitLinks hosts) {events : List (Event τ)}
    (htwo : ∀ event ∈ events, TwoHosts L.pairs event) : Isolated hosts L.pairs events := by
  have hports : ∀ pre, pre <+: events → ∀ j q x, L.pairs[j]? = some q → (x = q.1 ∨ x = q.2) →
      (afterEvents hosts L.pairs pre).port (hostName x) (switchName j) = lastNamed q pre :=
    fun pre hpre => (ports_afterEvents L pre fun e he => htwo e (hpre.subset he)).2
  refine ⟨fun pre event hpre i p x hp hx hno => ?_, hports, fun pre event hpre hno => ?_⟩
  · rw [hports _ hpre i p x hp hx, lastNamed_snoc, namedState_of_not_names hno,
      hports pre ((List.prefix_append pre [event]).trans hpre) i p x hp hx]
  · have hraise := fire_unnamed (htwo event (hpre.subset (by simp))) hno
      (afterEvents hosts L.pairs pre)
    rw [afterEvents_snoc, fireLinkEvent, hraise]
    exact ⟨rfl, rfl⟩

/-- The links of an accepted list, with what the lookup needs of them. -/
def Buildable.explicit {hosts : ℕ} {pairs : List (ℕ × ℕ)} (h : Buildable hosts pairs)
    (hpos : 0 < hosts) : ExplicitLinks hosts where
  pairs := pairs
  inRange p hp := ⟨by have := (h.ends p hp).2.1; omega, by have := (h.ends p hp).2.2; omega⟩
  noSelf p hp := (h.ends p hp).1
  noDup := h.once

/-- Unless there are no links at all, every host is on one. -/
theorem Buildable.on_link {hosts : ℕ} {pairs : List (ℕ × ℕ)} (h : Buildable hosts pairs)
    (hne : pairs ≠ []) {a : ℕ} (ha : a < hosts) : ∃ p ∈ pairs, a = p.1 ∨ a = p.2 := by
  obtain ⟨p, hp⟩ := List.exists_mem_of_ne_nil _ hne
  obtain ⟨hpne, h₁, h₂⟩ := h.ends p hp
  -- one of the two ends is not the host, and can be reached from it
  obtain ⟨other, hother, hdiff⟩ : ∃ other, other < hosts ∧ a ≠ other := by
    by_cases hap : a = p.1
    · exact ⟨p.2, by omega, hap ▸ hpne⟩
    · exact ⟨p.1, by omega, hap⟩
  obtain ⟨walk⟩ := h.connected.preconnected ⟨a, ha⟩ ⟨other, hother⟩
  cases walk with
  | nil => exact absurd rfl hdiff
  | cons hadj _ =>
    rcases (linkGraph_adj.mp hadj).2 with hmem | hmem
    · exact ⟨_, hmem, .inl rfl⟩
    · exact ⟨_, hmem, .inr rfl⟩

variable [IntCast τ] [LE τ] [DecidableLE τ]

/-- An event the rules for link events have nothing against. -/
def AcceptedLinkEvent (ctx : EventCheckContext τ) (event : Event τ) : Prop :=
  (event.get? "type" = some (.str "link_down") ∨ event.get? "type" = some (.str "link_up")) ∧
    ∃ path, linkEventErrors ctx event path = []

omit [IntCast τ] [LE τ] [DecidableLE τ] in
/-- The nodes of such an event are hosts. -/
theorem AcceptedLinkEvent.in_range {ctx : EventCheckContext τ} {event : Event τ} {hosts : ℕ}
    (h : AcceptedLinkEvent ctx event) (hctx : ctx.hostCount = some (hosts : ℤ)) :
    ∃ state a b, linkEvent? event = some (state, a, b) ∧ a < hosts ∧ b < hosts := by
  obtain ⟨htype, path, hnil⟩ := h
  rw [linkEventErrors, hctx] at hnil
  obtain ⟨a, b, hnodes, ⟨ha, ha'⟩, hb, hb'⟩ := nodes_of_checks hnil
  obtain ⟨m, rfl⟩ := Int.eq_ofNat_of_zero_le ha
  obtain ⟨n, rfl⟩ := Int.eq_ofNat_of_zero_le hb
  rcases htype with htype | htype
  · exact ⟨.down, m, n, by simp only [linkEvent?, htype, hnodes]; rfl, by omega, by omega⟩
  · exact ⟨.up, m, n, by simp only [linkEvent?, htype, hnodes]; rfl, by omega, by omega⟩

/-- **When link events are isolated.** For every accepted list of links and every sequence of
    accepted link events, the sequence is `Isolated` iff no event of it names a host twice, or
    there is no link to be hit. -/
theorem isolated_iff {config : Mapping τ} {hosts : ℤ} {v : Value τ}
    (hhosts : config.get? "hosts" = some (.int hosts)) (hpos : 1 ≤ hosts)
    (hlinks : config.get? "links" = some v) (hok : linksErrors config = .ok []) :
    ∃ pairs : List (ℕ × ℕ), v = .list (pairs.map pairValue) ∧
      ∀ (ctx : EventCheckContext τ) (events : List (Event τ)), ctx.hostCount = some hosts →
        (∀ event ∈ events, AcceptedLinkEvent ctx event) →
        (Isolated hosts.toNat pairs events ↔ ∀ event ∈ events, TwoHosts pairs event) := by
  obtain ⟨⟨pairs, rfl, hbuild⟩, -⟩ := (links_accepted_iff hhosts hpos hlinks).mp hok
  obtain ⟨n, rfl⟩ := Int.eq_ofNat_of_zero_le (zero_le_one.trans hpos)
  rw [Int.toNat_natCast] at hbuild
  refine ⟨pairs, rfl, fun ctx events hctx haccepted => ?_⟩
  rw [Int.toNat_natCast]
  constructor
  · intro hiso event hevent
    obtain ⟨state, a, b, he, ha, -⟩ := (haccepted event hevent).in_range hctx
    intro state' a' b' he'
    rw [he, Option.some.injEq, Prod.mk.injEq, Prod.mk.injEq] at he'
    obtain ⟨rfl, rfl, rfl⟩ := he'
    by_contra hself
    obtain ⟨hab, hne⟩ := not_or.mp hself
    rw [not_not] at hab
    subst hab
    have hno : ∀ p ∈ pairs, ¬ NamesPair event p := by
      rintro p hp ⟨state', a', b', he', hsame⟩
      rw [he, Option.some.injEq, Prod.mk.injEq, Prod.mk.injEq] at he'
      obtain ⟨rfl, rfl, rfl⟩ := he'
      have := (hbuild.ends p hp).1
      unfold SamePair at hsame
      omega
    obtain ⟨pre, post, hsplit⟩ := List.append_of_mem hevent
    have hpre : pre ++ [event] <+: events := ⟨post, by rw [hsplit]; simp⟩
    obtain ⟨hraise, -⟩ := hiso.raises pre event hpre hno
    simp only [handleLinkEvent, he] at hraise
    obtain ⟨link, hlink⟩ := findLink_self (hbuild.on_link hne ha)
    rw [setLinkState_raises, hlink] at hraise
    cases hraise
  · exact isolated_of_two (hbuild.explicit (by omega))

def lineContext : EventCheckContext Rat := ⟨some 3, none, none, none⟩

/-- A link of the line goes down and comes back, named the other way round. -/
def lineEvents : List (Event Rat) :=
  [[("type", .str "link_down"), ("nodes", .list [.int 0, .int 1])],
    [("type", .str "link_up"), ("nodes", .list [.int 1, .int 0])]]

theorem isolated_iff_line : linksErrors lineConfig = .ok [] ∧
    ∃ pairs : List (ℕ × ℕ),
      (.list [.list [.int 0, .int 1], .list [.int 2, .int 1]] : Value Rat)
        = .list (pairs.map pairValue) ∧ Isolated 3 pairs lineEvents := by
  obtain ⟨pairs, hv, hiff⟩ := isolated_iff
    (show lineConfig.get? "hosts" = some (.int 3) from rfl) (by decide) rfl rfl
  refine ⟨rfl, pairs, hv, (hiff lineContext lineEvents rfl fun event hevent => ?_).mpr
    fun event hevent state a b he => ?_⟩
  · rcases List.mem_pair.mp hevent with rfl | rfl
    · exact ⟨.inl rfl, "events[0]", rfl⟩
    · exact ⟨.inr rfl, "events[1]", rfl⟩
  · rcases List.mem_pair.mp hevent with rfl | rfl
    · cases he
      exact .inl (by decide)
    · cases he
      exact .inl (by decide)

/-- An event that names a host of the line twice. -/
def selfEvent : Event Rat := [("type", .str "link_down"), ("nodes", .list [.int 1, .int 1])]

/-- **An accepted event takes down a port of a link it does not name**: `h1` is named twice, and its
    port on the link to `h0` goes down. -/
theorem self_event_hits_link :
    linksErrors lineConfig = .ok [] ∧
      lineConfig.get? "links" = some (.list ([(0, 1), (2, 1)].map pairValue)) ∧
      AcceptedLinkEvent lineContext selfEvent ∧
      (∀ p ∈ [(0, 1), (2, 1)], ¬ NamesPair selfEvent p) ∧
      (afterEvents 3 [(0, 1), (2, 1)] [selfEvent]).port "h1" "s0" = .down ∧
      ¬ Isolated 3 [(0, 1), (2, 1)] [selfEvent] := by
  have hnone : ∀ p ∈ [(0, 1), (2, 1)], ¬ NamesPair selfEvent p := by
    rintro p hp ⟨state, a, b, he, hsame⟩
    cases he
    rcases List.mem_pair.mp hp with rfl | rfl
    · exact absurd hsame (by decide)
    · exact absurd hsame (by decide)
  refine ⟨rfl, rfl, ⟨.inl rfl, "events[0]", rfl⟩, hnone, by decide, fun hiso => ?_⟩
  obtain ⟨hraise, -⟩ := hiso.raises [] selfEvent (List.prefix_refl _) hnone
  cases hraise

end Proof
end CeforeEmu
