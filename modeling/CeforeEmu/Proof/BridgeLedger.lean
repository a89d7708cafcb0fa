import Mathlib.Tactic
import CeforeEmu.Runtime.BridgeExternal

/-!
# The table of external bridges as a ledger

`Ledger base recs net` says that the records `recs` account for every difference between the
network `base`, which the attachments started from, and the network `net` they have made of it:

* a link of `base` is still there, and differs at most in its administrative state and its
  master; the first only if a record says it brought the link up, the second only if a record
  says it enslaved it;
* every other link is the bridge, or an end of the veth pair, of a record that says so.

Nothing in the module compares a record with the network as a whole, so the invariant is kept
one command at a time. A command that makes something is judged with its flag already set, and
one that undoes something with its flag still set; the flags are then moved separately, which
only needs what the command left behind (`Ledger.clear`).

The ledger is relative to `base`, and that is used twice. With the network before the first
attachment as `base` and the whole table as `recs` it is the invariant of every run. With the
network before *one* attach as `base` and its single record as `recs` it says what that attach
has changed, and a record without flags then says that nothing has.
-/

set_option autoImplicit false

namespace CeforeEmu
namespace Proof

open CeforeEmu.Lib CeforeEmu.Runtime

/-! ## Networks the kernel can be in -/

/-- What the kernel maintains about its links: a master is a named device of the same namespace
    and not one end of a pair, the ends of a pair point at each other, and a bridge has no
    peer. -/
structure SoundNet (net : LinkNet) : Prop where
  master_link : ∀ {ns : Ns} {n m : String} {l : NetLink}, net.links ns n = some l →
    l.master = some m → m ≠ "" ∧ ∃ b, net.links ns m = some b ∧ b.peer = none
  peer_link : ∀ {ns ns' : Ns} {n n' : String} {l : NetLink}, net.links ns n = some l →
    l.peer = some (ns', n') → ∃ l', net.links ns' n' = some l' ∧ l'.peer = some (ns, n)
  bridge_alone : ∀ {ns : Ns} {n : String} {l : NetLink}, net.links ns n = some l →
    l.isBridge = true → l.peer = none

theorem LinkNet.ext_links {net net' : LinkNet} (h : ∀ ns n, net.links ns n = net'.links ns n) :
    net = net' := by
  cases net
  cases net'
  congr
  funext ns n
  exact h ns n

theorem set_links (net : LinkNet) (ns ns' : Ns) (n n' : String) (l : Option NetLink) :
    (net.set ns n l).links ns' n' = if ns' = ns ∧ n' = n then l else net.links ns' n' := rfl

@[simp] theorem set_links_self (net : LinkNet) (ns : Ns) (n : String) (l : Option NetLink) :
    (net.set ns n l).links ns n = l := by simp [set_links]

theorem set_links_ne {net : LinkNet} {ns ns' : Ns} {n n' : String} {l : Option NetLink}
    (h : ¬ (ns' = ns ∧ n' = n)) : (net.set ns n l).links ns' n' = net.links ns' n' := by
  rw [set_links, if_neg h]

/-! ## What a record accounts for -/

abbrev Records := List (String × BridgeRecord)

/-- The record says it brought this interface up. -/
def RaisedBy (recs : Records) (n : String) : Prop :=
  ∃ h r, (h, r) ∈ recs ∧ r.phyIntf = n ∧ r.flags .phyUpChanged = true

/-- The record says it enslaved this interface to its bridge. -/
def EnslavedBy (recs : Records) (n : String) (master : Option String) : Prop :=
  ∃ h r, (h, r) ∈ recs ∧ r.phyIntf = n ∧ r.flags .phyEnslaved = true ∧ master = some r.bridge

/-- The link is one the record says it made. -/
inductive MadeBy (r : BridgeRecord) : Ns → String → NetLink → Prop where
  | bridge {l : NetLink} (hf : r.flags .bridgeCreated = true) (hb : l.isBridge = true) :
      MadeBy r none r.bridge l
  | vethRoot {l : NetLink} (hf : r.flags .vethCreated = true) (ns : Ns)
      (hp : l.peer = some (ns, r.vethHost)) : MadeBy r none r.vethRoot l
  | vethHost {l : NetLink} (hf : r.flags .vethCreated = true) (ns : Ns)
      (hp : l.peer = some (none, r.vethRoot)) : MadeBy r ns r.vethHost l

/-- What may have become of a link that was there before. -/
structure KeptAs (recs : Records) (ns : Ns) (n : String) (l₀ l : NetLink) : Prop where
  same : l = { l₀ with up := l.up, master := l.master }
  up : l.up ≠ l₀.up → ns = none ∧ l.up = true ∧ RaisedBy recs n
  master : l.master ≠ l₀.master → ns = none ∧ EnslavedBy recs n l.master

/-- The records account for every difference between the two networks. -/
structure Accounts (base : LinkNet) (recs : Records) (net : LinkNet) : Prop where
  kept : ∀ {ns : Ns} {n : String} {l₀ : NetLink}, base.links ns n = some l₀ →
    ∃ l, net.links ns n = some l ∧ KeptAs recs ns n l₀ l
  made : ∀ {ns : Ns} {n : String} {l : NetLink}, net.links ns n = some l →
    base.links ns n = none → ∃ h r, (h, r) ∈ recs ∧ MadeBy r ns n l

/-- The record has the names `attach_external_via_bridge` gives it. -/
structure NamedFor (host : String) (r : BridgeRecord) : Prop where
  bridge : r.bridge = "br-" ++ host
  vethRoot : r.vethRoot = "veth-" ++ host ++ "-root"
  vethHost : r.vethHost = "veth-" ++ host

/-- What a record promises about `base`. Its flags say which of its names were free there, and
    the interface it was made for was without a master, and up or down as the record says. -/
structure TrueRecord (base : LinkNet) (host : String) (r : BridgeRecord) : Prop where
  named : NamedFor host r
  bridge_free : r.flags .bridgeCreated = true → base.links none r.bridge = none
  vethRoot_free : r.flags .vethCreated = true → base.links none r.vethRoot = none
  vethHost_free : r.flags .vethCreated = true → base.links none r.vethHost = none
  moved_free : r.flags .vethHostNsMoved = true → base.links (some host) r.vethHost = none
  phy_master : ∀ {l₀ : NetLink}, base.links none r.phyIntf = some l₀ → l₀.master = none
  phy_up : ∀ {l₀ : NetLink}, base.links none r.phyIntf = some l₀ → l₀.up = r.priorUp
  raised_prior : r.flags .phyUpChanged = true → r.priorUp = false
  veth_flags : ∀ {f : Flag}, f ∈ vethFlags → r.flags f = true → r.flags .vethCreated = true
  bridge_flags : r.flags .bridgeUp = true → r.flags .bridgeCreated = true

/-- **The ledger.** -/
structure Ledger (base : LinkNet) (recs : Records) (net : LinkNet) : Prop where
  base_sound : SoundNet base
  net_sound : SoundNet net
  records : ∀ {h : String} {r : BridgeRecord}, (h, r) ∈ recs → TrueRecord base h r
  accounts : Accounts base recs net

namespace Ledger

variable {base net net' : LinkNet} {recs recs' : Records} {host : String} {r : BridgeRecord}

/-- An empty ledger says that nothing has changed. -/
theorem eq_of_nil (hL : Ledger base [] net) : net = base := by
  apply LinkNet.ext_links
  intro ns n
  cases hb : base.links ns n with
  | none =>
    cases hn : net.links ns n with
    | none => rfl
    | some l =>
      obtain ⟨h, r, hmem, -⟩ := hL.accounts.made hn hb
      cases hmem
  | some l₀ =>
    obtain ⟨l, hl, hk⟩ := hL.accounts.kept hb
    have hup : l.up = l₀.up := by
      by_contra hne
      obtain ⟨-, -, h, r, hmem, -⟩ := hk.up hne
      cases hmem
    have hmaster : l.master = l₀.master := by
      by_contra hne
      obtain ⟨-, h, r, hmem, -⟩ := hk.master hne
      cases hmem
    rw [hl, hk.same, hup, hmaster]

theorem refl (hs : SoundNet net) : Ledger net [] net where
  base_sound := hs
  net_sound := hs
  records := fun hmem => by cases hmem
  accounts := {
    kept := fun {_ _ l₀} h => ⟨l₀, h, rfl, fun hne => absurd rfl hne, fun hne => absurd rfl hne⟩
    made := fun h hb => by rw [h] at hb; cases hb }

/-- A name that is free now was free at the start. -/
theorem base_free (hL : Ledger base recs net) {ns : Ns} {n : String}
    (h : net.links ns n = none) : base.links ns n = none := by
  cases hb : base.links ns n with
  | none => rfl
  | some l₀ =>
    obtain ⟨l, hl, -⟩ := hL.accounts.kept hb
    rw [h] at hl
    cases hl

/-- A link whose peer was there at the start was there itself. -/
theorem base_peer (hL : Ledger base recs net) {ns ns' : Ns} {n n' : String} {l : NetLink}
    (hl : net.links ns n = some l) (hp : l.peer = some (ns', n'))
    (hb : base.links ns n = none) : base.links ns' n' = none := by
  cases hb' : base.links ns' n' with
  | none => rfl
  | some l₀ =>
    obtain ⟨l₁, hl₁, hk⟩ := hL.accounts.kept hb'
    obtain ⟨l₂, hl₂, hp₂⟩ := hL.net_sound.peer_link hl hp
    have hp₀ : l₀.peer = some (ns, n) := by
      rw [hl₁] at hl₂
      cases hl₂
      rw [hk.same] at hp₂
      exact hp₂
    obtain ⟨l₃, hl₃, -⟩ := hL.base_sound.peer_link hb' hp₀
    rw [hb] at hl₃
    cases hl₃

/-! ## Commands

Each lemma takes the records as they stand while the command is judged, and keeps them. -/

/-- Changing a link in place: neither its kind nor its peer, and to a master only that can be
    one. -/
theorem set_link (hL : Ledger base recs net) {ns : Ns} {n : String} {l l' : NetLink}
    (hl : net.links ns n = some l) (hbridge : l'.isBridge = l.isBridge)
    (hpeer : l'.peer = l.peer)
    (hmaster : ∀ m, l'.master = some m → l.master = some m ∨
      (m ≠ "" ∧ ∃ b, net.links ns m = some b ∧ b.peer = none))
    (hkept : ∀ l₀, base.links ns n = some l₀ → KeptAs recs ns n l₀ l → KeptAs recs ns n l₀ l') :
    Ledger base recs (net.set ns n (some l')) := by
  -- a link afterwards is one of before, with the same kind and peer
  have hback : ∀ {ns' n' k}, (net.set ns n (some l')).links ns' n' = some k →
      ∃ k₀, net.links ns' n' = some k₀ ∧ k.isBridge = k₀.isBridge ∧ k.peer = k₀.peer := by
    intro ns' n' k hk
    by_cases heq : ns' = ns ∧ n' = n
    · obtain ⟨rfl, rfl⟩ := heq
      rw [set_links_self, Option.some.injEq] at hk
      subst hk
      exact ⟨l, hl, hbridge, hpeer⟩
    · rw [set_links_ne heq] at hk
      exact ⟨k, hk, rfl, rfl⟩
  have hfwd : ∀ {ns' n' k}, net.links ns' n' = some k →
      ∃ k', (net.set ns n (some l')).links ns' n' = some k' ∧ k'.peer = k.peer := by
    intro ns' n' k hk
    by_cases heq : ns' = ns ∧ n' = n
    · obtain ⟨rfl, rfl⟩ := heq
      rw [hl, Option.some.injEq] at hk
      subst hk
      exact ⟨l', set_links_self .., hpeer⟩
    · exact ⟨k, by rw [set_links_ne heq, hk], rfl⟩
  refine ⟨hL.base_sound, ⟨?_, ?_, ?_⟩, hL.records, ⟨?_, ?_⟩⟩
  · intro ns' n' m k hk hm
    have hold : m ≠ "" ∧ ∃ b, net.links ns' m = some b ∧ b.peer = none := by
      by_cases heq : ns' = ns ∧ n' = n
      · obtain ⟨rfl, rfl⟩ := heq
        rw [set_links_self, Option.some.injEq] at hk
        subst hk
        rcases hmaster m hm with h | h
        · exact hL.net_sound.master_link hl h
        · exact h
      · rw [set_links_ne heq] at hk
        exact hL.net_sound.master_link hk hm
    obtain ⟨hne, b, hb, hbp⟩ := hold
    obtain ⟨b', hb', hp'⟩ := hfwd hb
    exact ⟨hne, b', hb', hp'.trans hbp⟩
  · intro ns' ns'' n' n'' k hk hp
    obtain ⟨k₀, hk₀, -, hp₀⟩ := hback hk
    obtain ⟨j, hj, hjp⟩ := hL.net_sound.peer_link hk₀ (hp₀ ▸ hp)
    obtain ⟨j', hj', hjp'⟩ := hfwd hj
    exact ⟨j', hj', hjp'.trans hjp⟩
  · intro ns' n' k hk hb
    obtain ⟨k₀, hk₀, hb₀, hp₀⟩ := hback hk
    rw [hp₀]
    exact hL.net_sound.bridge_alone hk₀ (hb₀ ▸ hb)
  · intro ns' n' l₀ h₀
    obtain ⟨k, hk, hkept'⟩ := hL.accounts.kept h₀
    by_cases heq : ns' = ns ∧ n' = n
    · obtain ⟨rfl, rfl⟩ := heq
      rw [hl, Option.some.injEq] at hk
      subst hk
      exact ⟨l', set_links_self .., hkept l₀ h₀ hkept'⟩
    · exact ⟨k, by rw [set_links_ne heq, hk], hkept'⟩
  · intro ns' n' k hk hb
    obtain ⟨k₀, hk₀, hb₀, hp₀⟩ := hback hk
    obtain ⟨h, r, hmem, hmade⟩ := hL.accounts.made hk₀ hb
    refine ⟨h, r, hmem, ?_⟩
    cases hmade with
    | bridge hf hbr => exact .bridge hf (hb₀.trans hbr)
    | vethRoot hf ns₁ hp => exact .vethRoot hf ns₁ (hp₀.trans hp)
    | vethHost hf _ hp => exact .vethHost hf _ (hp₀.trans hp)

theorem change_inv {ns : Ns} {n : String} {f : NetLink → NetLink}
    (h : net.change ns n f = .ok net') :
    ∃ l, net.links ns n = some l ∧ net' = net.set ns n (some (f l)) := by
  rw [LinkNet.change] at h
  cases hl : net.links ns n with
  | none => rw [hl] at h; cases h
  | some l =>
    rw [hl] at h
    cases h
    exact ⟨l, rfl, rfl⟩

/-- Changing what is not recorded of a link that was not there at the start. -/
theorem change_own (hL : Ledger base recs net) {ns : Ns} {n : String} {f : NetLink → NetLink}
    (h : net.change ns n f = .ok net') (hbridge : ∀ l, (f l).isBridge = l.isBridge)
    (hpeer : ∀ l, (f l).peer = l.peer) (hmaster : ∀ l, (f l).master = l.master)
    (hfree : base.links ns n = none) : Ledger base recs net' := by
  obtain ⟨l, hl, rfl⟩ := change_inv h
  refine hL.set_link hl (hbridge l) (hpeer l) (fun m hm => .inl (hmaster l ▸ hm)) ?_
  intro l₀ h₀
  rw [hfree] at h₀
  cases h₀

/-- Bringing a link up that a record answers for. -/
theorem phy_up (hL : Ledger base recs net) {n : String}
    (h : net.exec (.setUp none n true) = .ok net') (hby : RaisedBy recs n) :
    Ledger base recs net' := by
  obtain ⟨l, hl, rfl⟩ := change_inv h
  refine hL.set_link hl rfl rfl (fun m hm => .inl hm) ?_
  intro l₀ _ hk
  refine ⟨?_, fun _ => ⟨rfl, rfl, hby⟩, hk.master⟩
  rw [hk.same]

/-- Taking a link down that was down at the start. -/
theorem phy_down (hL : Ledger base recs net) {n : String}
    (h : net.exec (.setUp none n false) = .ok net')
    (hdown : ∀ l₀, base.links none n = some l₀ → l₀.up = false) : Ledger base recs net' := by
  obtain ⟨l, hl, rfl⟩ := change_inv h
  refine hL.set_link hl rfl rfl (fun m hm => .inl hm) ?_
  intro l₀ h₀ hk
  refine ⟨?_, fun hne => absurd (hdown l₀ h₀).symm hne, hk.master⟩
  rw [hk.same]

theorem unmaster (hL : Ledger base recs net) {n : String}
    (h : net.exec (.noMaster n) = .ok net')
    (hfree : ∀ l₀, base.links none n = some l₀ → l₀.master = none) : Ledger base recs net' := by
  obtain ⟨l, hl, rfl⟩ := change_inv h
  refine hL.set_link hl rfl rfl (fun m hm => by cases hm) ?_
  intro l₀ h₀ hk
  refine ⟨?_, hk.up, fun hne => absurd (hfree l₀ h₀).symm hne⟩
  rw [hk.same]

theorem setMaster_inv {name bridge : String} (h : net.exec (.setMaster name bridge) = .ok net') :
    ∃ b l, net.links none bridge = some b ∧ net.links none name = some l ∧ b.isBridge = true ∧
      net' = net.set none name (some { l with master := some bridge }) := by
  simp only [LinkNet.exec] at h
  split at h
  · rename_i b l hb hl
    split at h
    · rename_i hkind
      cases h
      exact ⟨b, l, hb, hl, hkind.1, rfl⟩
    · cases h
  · cases h
  · cases h

/-- Enslaving a link: one that was there at the start, on a record's behalf. -/
theorem enslave (hL : Ledger base recs net) {name bridge : String}
    (h : net.exec (.setMaster name bridge) = .ok net') (hne : bridge ≠ "")
    (hby : ∀ l₀, base.links none name = some l₀ → EnslavedBy recs name (some bridge)) :
    Ledger base recs net' := by
  obtain ⟨b, l, hb, hl, hbr, rfl⟩ := setMaster_inv h
  refine hL.set_link hl rfl rfl ?_ ?_
  · intro m hm
    cases hm
    exact .inr ⟨hne, b, hb, hL.net_sound.bridge_alone hb hbr⟩
  · intro l₀ h₀ hk
    refine ⟨?_, hk.up, fun _ => ⟨rfl, hby l₀ h₀⟩⟩
    rw [hk.same]

/-- Adding links under free names, each made by a record. -/
theorem extend (hL : Ledger base recs net)
    (hkeep : ∀ {ns n l}, net.links ns n = some l → net'.links ns n = some l)
    (hnew : ∀ {ns n l}, net'.links ns n = some l → net.links ns n = some l ∨
      (l.master = none ∧ (l.isBridge = true → l.peer = none) ∧
        (∀ {ns' n'}, l.peer = some (ns', n') →
          ∃ l', net'.links ns' n' = some l' ∧ l'.peer = some (ns, n)) ∧
        ∃ h r, (h, r) ∈ recs ∧ MadeBy r ns n l)) : Ledger base recs net' := by
  refine ⟨hL.base_sound, ⟨?_, ?_, ?_⟩, hL.records, ⟨?_, ?_⟩⟩
  · intro ns n m l hl hm
    rcases hnew hl with hold | ⟨hnone, -⟩
    · obtain ⟨hne, b, hb, hbp⟩ := hL.net_sound.master_link hold hm
      exact ⟨hne, b, hkeep hb, hbp⟩
    · rw [hnone] at hm
      cases hm
  · intro ns ns' n n' l hl hp
    rcases hnew hl with hold | ⟨-, -, hpeer, -⟩
    · obtain ⟨l', hl', hp'⟩ := hL.net_sound.peer_link hold hp
      exact ⟨l', hkeep hl', hp'⟩
    · exact hpeer hp
  · intro ns n l hl hb
    rcases hnew hl with hold | ⟨-, halone, -⟩
    · exact hL.net_sound.bridge_alone hold hb
    · exact halone hb
  · intro ns n l₀ h₀
    obtain ⟨l, hl, hk⟩ := hL.accounts.kept h₀
    exact ⟨l, hkeep hl, hk⟩
  · intro ns n l hl hb
    rcases hnew hl with hold | ⟨-, -, -, hby⟩
    · exact hL.accounts.made hold hb
    · exact hby

theorem add_bridge (hL : Ledger base recs net) (hmem : (host, r) ∈ recs)
    (hf : r.flags .bridgeCreated = true) (h : net.exec (.addBridge r.bridge) = .ok net') :
    Ledger base recs net' := by
  simp only [LinkNet.exec] at h
  split at h
  · cases h
  · rename_i hfree
    cases h
    refine hL.extend ?_ ?_
    · intro ns n l hl
      rw [set_links_ne, hl]
      rintro ⟨rfl, rfl⟩
      rw [hfree] at hl
      cases hl
    · intro ns n l hl
      by_cases heq : ns = none ∧ n = r.bridge
      · obtain ⟨rfl, rfl⟩ := heq
        rw [set_links_self, Option.some.injEq] at hl
        subst hl
        refine .inr ⟨rfl, fun _ => rfl, fun hp => ?_, host, r, hmem, .bridge hf rfl⟩
        cases hp
      · rw [set_links_ne heq] at hl
        exact .inl hl

theorem addVeth_inv {name peer : String} (h : net.exec (.addVeth name peer) = .ok net') :
    name ≠ peer ∧ net.links none name = none ∧ net.links none peer = none ∧
      net' = (net.set none name (some (freshLink false (some (none, peer))))).set none peer
        (some (freshLink false (some (none, name)))) := by
  simp only [LinkNet.exec] at h
  split at h
  · cases h
  · rename_i hfree
    simp only [not_or, not_not] at hfree
    cases h
    exact ⟨hfree.1, hfree.2.1, hfree.2.2, rfl⟩

theorem add_veth (hL : Ledger base recs net) (hmem : (host, r) ∈ recs)
    (hf : r.flags .vethCreated = true) (h : net.exec (.addVeth r.vethRoot r.vethHost) = .ok net') :
    Ledger base recs net' := by
  obtain ⟨hne, hroot, hhost, rfl⟩ := addVeth_inv h
  have hroot' : ((net.set none r.vethRoot (some (freshLink false (some (none, r.vethHost))))).set
      none r.vethHost (some (freshLink false (some (none, r.vethRoot))))).links none r.vethRoot
      = some (freshLink false (some (none, r.vethHost))) := by
    rw [set_links_ne (fun heq => hne heq.2), set_links_self]
  refine hL.extend ?_ ?_
  · intro ns n l hl
    rw [set_links_ne, set_links_ne, hl]
    · rintro ⟨rfl, rfl⟩
      rw [hroot] at hl
      cases hl
    · rintro ⟨rfl, rfl⟩
      rw [hhost] at hl
      cases hl
  · intro ns n l hl
    by_cases heq : ns = none ∧ n = r.vethHost
    · obtain ⟨rfl, rfl⟩ := heq
      rw [set_links_self, Option.some.injEq] at hl
      subst hl
      refine .inr ⟨rfl, fun hb => ?_, fun hp => ?_, host, r, hmem, .vethHost hf none rfl⟩
      · cases hb
      · cases hp
        exact ⟨_, hroot', rfl⟩
    · by_cases heq' : ns = none ∧ n = r.vethRoot
      · obtain ⟨rfl, rfl⟩ := heq'
        rw [hroot', Option.some.injEq] at hl
        subst hl
        refine .inr ⟨rfl, fun hb => ?_, fun hp => ?_, host, r, hmem, .vethRoot hf none rfl⟩
        · cases hb
        · cases hp
          exact ⟨_, set_links_self .., rfl⟩
      · rw [set_links_ne heq, set_links_ne heq'] at hl
        exact .inl hl

/-- Removing links that were not there at the start, with their peers, and letting the ports of
    `name` go. -/
theorem shrink (hL : Ledger base recs net) {name : String} (hfree : base.links none name = none)
    {G : Ns → String → Prop}
    (hlinks : ∀ {ns n l'}, net'.links ns n = some l' ↔ ¬ G ns n ∧ ∃ l, net.links ns n = some l ∧
      l' = if ns = none ∧ l.master = some name then { l with master := none } else l)
    (hbase : ∀ {ns n}, G ns n → base.links ns n = none)
    (hpeer : ∀ {ns n ns' n' l}, net.links ns n = some l → l.peer = some (ns', n') → G ns' n' →
      G ns n)
    (hmaster : ∀ {ns n b}, G ns n → net.links ns n = some b → b.peer = none →
      ns = none ∧ n = name) : Ledger base recs net' := by
  have hback : ∀ {ns n l'}, net'.links ns n = some l' → ¬ G ns n ∧ ∃ l, net.links ns n = some l ∧
      l'.peer = l.peer ∧ l'.isBridge = l.isBridge ∧
      ((ns = none ∧ l.master = some name) ∧ l'.master = none ∨
        ¬ (ns = none ∧ l.master = some name) ∧ l'.master = l.master) := by
    intro ns n l' hl'
    obtain ⟨hg, l, hl, rfl⟩ := hlinks.mp hl'
    refine ⟨hg, l, hl, ?_⟩
    split
    · rename_i hport
      exact ⟨rfl, rfl, .inl ⟨hport, rfl⟩⟩
    · rename_i hport
      exact ⟨rfl, rfl, .inr ⟨hport, rfl⟩⟩
  have hfwd : ∀ {ns n l}, net.links ns n = some l → ¬ G ns n →
      ∃ l', net'.links ns n = some l' ∧ l'.peer = l.peer := by
    intro ns n l hl hg
    refine ⟨_, hlinks.mpr ⟨hg, l, hl, rfl⟩, ?_⟩
    split <;> rfl
  refine ⟨hL.base_sound, ⟨?_, ?_, ?_⟩, hL.records, ⟨?_, ?_⟩⟩
  · intro ns n m l' hl' hm
    obtain ⟨-, l, hl, -, -, hport | hport⟩ := hback hl'
    · rw [hport.2] at hm
      cases hm
    · rw [hport.2] at hm
      obtain ⟨hne, b, hb, hbp⟩ := hL.net_sound.master_link hl hm
      refine ⟨hne, ?_⟩
      have hg : ¬ G ns m := by
        intro hg
        obtain ⟨rfl, rfl⟩ := hmaster hg hb hbp
        exact hport.1 ⟨rfl, hm⟩
      obtain ⟨b', hb', hp'⟩ := hfwd hb hg
      exact ⟨b', hb', hp'.trans hbp⟩
  · intro ns ns' n n' l' hl' hp
    obtain ⟨hg, l, hl, hp', -, -⟩ := hback hl'
    rw [hp'] at hp
    obtain ⟨k, hk, hkp⟩ := hL.net_sound.peer_link hl hp
    obtain ⟨k', hk', hkp'⟩ := hfwd hk fun hg' => hg (hpeer hl hp hg')
    exact ⟨k', hk', hkp'.trans hkp⟩
  · intro ns n l' hl' hb
    obtain ⟨-, l, hl, hp', hb', -⟩ := hback hl'
    rw [hp']
    exact hL.net_sound.bridge_alone hl (hb' ▸ hb)
  · intro ns n l₀ h₀
    obtain ⟨l, hl, hk⟩ := hL.accounts.kept h₀
    have hg : ¬ G ns n := by
      intro hg
      rw [hbase hg] at h₀
      cases h₀
    refine ⟨_, hlinks.mpr ⟨hg, l, hl, rfl⟩, ?_⟩
    split
    · rename_i hport
      refine ⟨?_, hk.up, fun hne => ?_⟩
      · rw [hk.same]
      · -- a port of `name` was enslaved by a record, so it was free at the start
        by_cases hsame : l.master = l₀.master
        · obtain ⟨-, b, hb, -⟩ := hL.base_sound.master_link h₀ (hsame ▸ hport.2)
          rw [hport.1, hfree] at hb
          cases hb
        · obtain ⟨rfl, h, r, hmem, hphy, -⟩ := hk.master hsame
          subst hphy
          exact absurd ((hL.records hmem).phy_master h₀).symm hne
    · exact hk
  · intro ns n l' hl' hb
    obtain ⟨-, l, hl, hp', hb', -⟩ := hback hl'
    obtain ⟨h, r, hmem, hmade⟩ := hL.accounts.made hl hb
    refine ⟨h, r, hmem, ?_⟩
    cases hmade with
    | bridge hf hbr => exact .bridge hf (hb'.trans hbr)
    | vethRoot hf ns₁ hp => exact .vethRoot hf ns₁ (hp'.trans hp)
    | vethHost hf _ hp => exact .vethHost hf _ (hp'.trans hp)

theorem del_inv {name : String} (h : net.exec (.del name) = .ok net') :
    ∃ l, net.links none name = some l ∧
      ((l.isBridge = true ∧ net' = (net.set none name none).release name) ∨
        ∃ ns peer, l.peer = some (ns, peer) ∧ net' = (net.set none name none).set ns peer none) := by
  simp only [LinkNet.exec] at h
  split at h
  · cases h
  · rename_i l hl
    refine ⟨l, hl, ?_⟩
    split at h
    · rename_i hb
      cases h
      exact .inl ⟨hb, rfl⟩
    · split at h
      · cases h
      · rename_i ns peer hp
        cases h
        exact .inr ⟨ns, peer, hp, rfl⟩

theorem del_bridge (hL : Ledger base recs net) {name : String} {l : NetLink}
    (hl : net.links none name = some l) (hb : l.isBridge = true)
    (hfree : base.links none name = none) :
    Ledger base recs ((net.set none name none).release name) := by
  refine hL.shrink (G := fun ns n => ns = none ∧ n = name) hfree ?_ ?_ ?_ ?_
  · intro ns n l'
    simp only [LinkNet.release, set_links, Option.map_eq_some_iff]
    by_cases heq : ns = none ∧ n = name
    · simp [heq]
    · simp only [heq, not_false_eq_true, true_and]
      exact exists_congr fun k => and_congr_right fun _ => eq_comm
  · rintro ns n ⟨rfl, rfl⟩
    exact hfree
  · -- a bridge is nobody's peer
    rintro ns n ns' n' k hk hp ⟨rfl, rfl⟩
    obtain ⟨l', hl', hp'⟩ := hL.net_sound.peer_link hk hp
    rw [hl] at hl'
    cases hl'
    rw [hL.net_sound.bridge_alone hl hb] at hp'
    cases hp'
  · intro ns n b hg _ _
    exact hg

theorem del_veth (hL : Ledger base recs net) {name peer : String} {ns : Ns} {l : NetLink}
    (hl : net.links none name = some l) (hp : l.peer = some (ns, peer))
    (hfree : base.links none name = none) :
    Ledger base recs ((net.set none name none).set ns peer none) := by
  obtain ⟨p, hpl, hpp⟩ := hL.net_sound.peer_link hl hp
  refine hL.shrink (G := fun ns' n => (ns' = ns ∧ n = peer) ∨ (ns' = none ∧ n = name)) hfree
    ?_ ?_ ?_ ?_
  · intro ns' n l'
    by_cases heq : ns' = ns ∧ n = peer
    · simp [heq]
    · by_cases heq' : ns' = none ∧ n = name
      · rw [set_links_ne heq, set_links, if_pos heq']
        simp [heq']
      · rw [set_links_ne heq, set_links_ne heq']
        simp only [heq, heq', or_self, not_false_eq_true, true_and]
        constructor
        · intro hl'
          refine ⟨l', hl', ?_⟩
          rw [if_neg]
          -- an end of a pair is nobody's master
          rintro ⟨rfl, hm⟩
          obtain ⟨-, b, hb, hbp⟩ := hL.net_sound.master_link hl' hm
          rw [hl] at hb
          cases hb
          rw [hp] at hbp
          cases hbp
        · rintro ⟨k, hk, rfl⟩
          rw [hk, if_neg]
          rintro ⟨rfl, hm⟩
          obtain ⟨-, b, hb, hbp⟩ := hL.net_sound.master_link hk hm
          rw [hl] at hb
          cases hb
          rw [hp] at hbp
          cases hbp
  · rintro ns' n (⟨rfl, rfl⟩ | ⟨rfl, rfl⟩)
    · exact hL.base_peer hl hp hfree
    · exact hfree
  · rintro ns₁ n₁ ns₂ n₂ k hk hkp (⟨rfl, rfl⟩ | ⟨rfl, rfl⟩)
    · obtain ⟨k', hk', hkp'⟩ := hL.net_sound.peer_link hk hkp
      rw [hpl] at hk'
      cases hk'
      rw [hpp] at hkp'
      cases hkp'
      exact .inr ⟨rfl, rfl⟩
    · obtain ⟨k', hk', hkp'⟩ := hL.net_sound.peer_link hk hkp
      rw [hl] at hk'
      cases hk'
      rw [hp] at hkp'
      cases hkp'
      exact .inl ⟨rfl, rfl⟩
  · rintro ns' n b (⟨rfl, rfl⟩ | hself) hb hbp
    · rw [hpl] at hb
      cases hb
      rw [hpp] at hbp
      cases hbp
    · exact hself

/-- Deleting a link that was not there at the start. -/
theorem del (hL : Ledger base recs net) {name : String} (h : net.exec (.del name) = .ok net')
    (hfree : base.links none name = none) :
    Ledger base recs net' ∧ net'.links none name = none := by
  obtain ⟨l, hl, ⟨hb, rfl⟩ | ⟨ns, peer, hp, rfl⟩⟩ := del_inv h
  · exact ⟨hL.del_bridge hl hb hfree, by simp [LinkNet.release, set_links]⟩
  · refine ⟨hL.del_veth hl hp hfree, ?_⟩
    rw [set_links]
    split
    · rfl
    · exact set_links_self ..

/-- The link the veth's host end arrives as. -/
theorem setNetns_inv {name host peer : String} {l : NetLink} (hl : net.links none name = some l)
    (hp : l.peer = some (none, peer)) (h : net.exec (.setNetns name host) = .ok net') :
    net.links (some host) name = none ∧ l.isBridge = false ∧ ∀ ns n, net'.links ns n =
      if ns = some host ∧ n = name then some { l with up := false, master := none }
      else if ns = none ∧ n = name then none
      else if ns = none ∧ n = peer then
        (net.links none peer).map fun p => { p with peer := some (some host, name) }
      else net.links ns n := by
  simp only [LinkNet.exec, hl] at h
  split at h
  · rename_i heq
    cases heq
  · cases h
  · rename_i k heq hfree
    cases heq
    split at h
    · cases h
    · rename_i hb
      simp only [hp] at h
      cases h
      refine ⟨hfree, by simpa using hb, fun ns n => ?_⟩
      by_cases h₁ : ns = some host ∧ n = name
      · obtain ⟨rfl, rfl⟩ := h₁
        simp [hp]
      · by_cases h₂ : ns = none ∧ n = name
        · obtain ⟨rfl, rfl⟩ := h₂
          simp [set_links]
        · by_cases h₃ : ns = none ∧ n = peer
          · obtain ⟨rfl, rfl⟩ := h₃
            have hne : n ≠ name := fun heq => h₂ ⟨rfl, heq⟩
            simp [set_links, hne]
          · simp only [if_neg h₁, if_neg h₂, if_neg h₃, set_links]

theorem vethRoot_ne_vethHost (hn : NamedFor host r) : r.vethRoot ≠ r.vethHost := by
  intro heq
  rw [hn.vethRoot, hn.vethHost] at heq
  have := congrArg String.length heq
  simp [String.length_append] at this

/-- Moving the veth's host end into the host. -/
theorem move_veth (hL : Ledger base recs net) (hmem : (host, r) ∈ recs)
    (hf : r.flags .vethCreated = true) {l : NetLink} (hl : net.links none r.vethHost = some l)
    (hp : l.peer = some (none, r.vethRoot)) (h : net.exec (.setNetns r.vethHost host) = .ok net') :
    Ledger base recs net' := by
  obtain ⟨hfree, hb, hlinks⟩ := setNetns_inv hl hp h
  have hrec := hL.records hmem
  have hne := vethRoot_ne_vethHost hrec.named
  obtain ⟨p, hpl, hpp⟩ := hL.net_sound.peer_link hl hp
  -- the two ends afterwards, and everything else
  have hend : net'.links (some host) r.vethHost = some { l with up := false, master := none } := by
    rw [hlinks, if_pos ⟨rfl, rfl⟩]
  have hroot : net'.links none r.vethRoot
      = some { p with peer := some (some host, r.vethHost) } := by
    rw [hlinks, if_neg (by simp), if_neg (by simp [hne]), if_pos ⟨rfl, rfl⟩, hpl]
    rfl
  have hrest : ∀ {ns n}, ¬ (ns = some host ∧ n = r.vethHost) → ¬ (ns = none ∧ n = r.vethHost) →
      ¬ (ns = none ∧ n = r.vethRoot) → net'.links ns n = net.links ns n := by
    intro ns n h₁ h₂ h₃
    rw [hlinks, if_neg h₁, if_neg h₂, if_neg h₃]
  have hcases : ∀ {ns n k}, net'.links ns n = some k →
      (ns = some host ∧ n = r.vethHost ∧ k = { l with up := false, master := none }) ∨
      (ns = none ∧ n = r.vethRoot ∧ k = { p with peer := some (some host, r.vethHost) }) ∨
      (¬ (ns = some host ∧ n = r.vethHost) ∧ ¬ (ns = none ∧ n = r.vethHost) ∧
        ¬ (ns = none ∧ n = r.vethRoot) ∧ net.links ns n = some k) := by
    intro ns n k hk
    by_cases h₁ : ns = some host ∧ n = r.vethHost
    · obtain ⟨rfl, rfl⟩ := h₁
      rw [hend, Option.some.injEq] at hk
      exact .inl ⟨rfl, rfl, hk.symm⟩
    · by_cases h₃ : ns = none ∧ n = r.vethRoot
      · obtain ⟨rfl, rfl⟩ := h₃
        rw [hroot, Option.some.injEq] at hk
        exact .inr (.inl ⟨rfl, rfl, hk.symm⟩)
      · have h₂ : ¬ (ns = none ∧ n = r.vethHost) := by
          rintro ⟨rfl, rfl⟩
          rw [hlinks, if_neg (by simp), if_pos ⟨rfl, rfl⟩] at hk
          cases hk
        exact .inr (.inr ⟨h₁, h₂, h₃, hrest h₁ h₂ h₃ ▸ hk⟩)
  refine ⟨hL.base_sound, ⟨?_, ?_, ?_⟩, hL.records, ⟨?_, ?_⟩⟩
  · intro ns n m k hk hm
    -- the master of a link is none of the positions that changed
    have hstay : ∀ {k₀}, net.links ns n = some k₀ → k₀.master = some m →
        m ≠ "" ∧ ∃ b, net'.links ns m = some b ∧ b.peer = none := by
      intro k₀ hk₀ hm₀
      obtain ⟨hne', b, hb', hbp⟩ := hL.net_sound.master_link hk₀ hm₀
      refine ⟨hne', b, ?_, hbp⟩
      rw [hrest, hb']
      · rintro ⟨rfl, rfl⟩
        rw [hfree] at hb'
        cases hb'
      · rintro ⟨rfl, rfl⟩
        rw [hl] at hb'
        cases hb'
        rw [hp] at hbp
        cases hbp
      · rintro ⟨rfl, rfl⟩
        rw [hpl] at hb'
        cases hb'
        rw [hpp] at hbp
        cases hbp
    rcases hcases hk with ⟨-, -, rfl⟩ | ⟨rfl, rfl, rfl⟩ | ⟨-, -, -, hk₀⟩
    · cases hm
    · exact hstay hpl hm
    · exact hstay hk₀ hm
  · intro ns ns' n n' k hk hkp
    rcases hcases hk with ⟨rfl, rfl, rfl⟩ | ⟨rfl, rfl, rfl⟩ | ⟨h₁, h₂, h₃, hk₀⟩
    · simp only [hp, Option.some.injEq, Prod.mk.injEq] at hkp
      obtain ⟨rfl, rfl⟩ := hkp
      exact ⟨_, hroot, rfl⟩
    · cases hkp
      exact ⟨_, hend, hp⟩
    · obtain ⟨j, hj, hjp⟩ := hL.net_sound.peer_link hk₀ hkp
      refine ⟨j, ?_, hjp⟩
      rw [hrest, hj]
      · rintro ⟨rfl, rfl⟩
        rw [hfree] at hj
        cases hj
      · rintro ⟨rfl, rfl⟩
        rw [hl] at hj
        cases hj
        rw [hp, Option.some.injEq, Prod.mk.injEq] at hjp
        exact h₃ ⟨hjp.1.symm, hjp.2.symm⟩
      · rintro ⟨rfl, rfl⟩
        rw [hpl] at hj
        cases hj
        rw [hpp, Option.some.injEq, Prod.mk.injEq] at hjp
        exact h₂ ⟨hjp.1.symm, hjp.2.symm⟩
  · intro ns n k hk hkb
    rcases hcases hk with ⟨-, -, rfl⟩ | ⟨-, -, rfl⟩ | ⟨-, -, -, hk₀⟩
    · rw [show ({ l with up := false, master := none } : NetLink).isBridge = l.isBridge from rfl,
        hb] at hkb
      cases hkb
    · have := hL.net_sound.bridge_alone hpl hkb
      rw [hpp] at this
      cases this
    · exact hL.net_sound.bridge_alone hk₀ hkb
  · intro ns n l₀ h₀
    obtain ⟨k, hk, hkept⟩ := hL.accounts.kept h₀
    refine ⟨k, ?_, hkept⟩
    rw [hrest, hk]
    · rintro ⟨rfl, rfl⟩
      rw [hfree] at hk
      cases hk
    · rintro ⟨rfl, rfl⟩
      rw [hrec.vethHost_free hf] at h₀
      cases h₀
    · rintro ⟨rfl, rfl⟩
      rw [hrec.vethRoot_free hf] at h₀
      cases h₀
  · intro ns n k hk hbase
    rcases hcases hk with ⟨rfl, rfl, rfl⟩ | ⟨rfl, rfl, rfl⟩ | ⟨-, -, -, hk₀⟩
    · exact ⟨host, r, hmem, .vethHost hf _ hp⟩
    · exact ⟨host, r, hmem, .vethRoot hf _ rfl⟩
    · exact hL.accounts.made hk₀ hbase

/-! ## Records

The flags move on their own: setting one needs what the record then promises, clearing one needs
that what it stood for is gone. -/

/-- Replacing the records by others that account for the same links. -/
theorem of_records (hL : Ledger base recs net)
    (hrecs : ∀ {h r}, (h, r) ∈ recs' → TrueRecord base h r)
    (hup : ∀ {n l}, net.links none n = some l → l.up = true → RaisedBy recs n → RaisedBy recs' n)
    (hmaster : ∀ {n l}, net.links none n = some l → l.master ≠ none → EnslavedBy recs n l.master →
      EnslavedBy recs' n l.master)
    (hmade : ∀ {ns n l h r}, net.links ns n = some l → (h, r) ∈ recs → MadeBy r ns n l →
      ∃ h' r', (h', r') ∈ recs' ∧ MadeBy r' ns n l) : Ledger base recs' net := by
  refine ⟨hL.base_sound, hL.net_sound, hrecs, ⟨?_, ?_⟩⟩
  · intro ns n l₀ h₀
    obtain ⟨l, hl, hk⟩ := hL.accounts.kept h₀
    refine ⟨l, hl, hk.same, fun hne => ?_, fun hne => ?_⟩
    · obtain ⟨rfl, hl', hby⟩ := hk.up hne
      exact ⟨rfl, hl', hup hl hl' hby⟩
    · obtain ⟨rfl, hby⟩ := hk.master hne
      refine ⟨rfl, hmaster hl ?_ hby⟩
      obtain ⟨_, _, _, _, _, heq⟩ := hby
      rw [heq]
      exact Option.some_ne_none _
  · intro ns n l hl hb
    obtain ⟨h, r, hmem, hby⟩ := hL.accounts.made hl hb
    exact hmade hl hmem hby

/-- What the flags stand for is no longer in effect. -/
structure Discharged (net : LinkNet) (r : BridgeRecord) (fs : List Flag) : Prop where
  bridge : .bridgeCreated ∈ fs → net.links none r.bridge = none
  veth : .vethCreated ∈ fs → net.links none r.vethRoot = none
  up : .phyUpChanged ∈ fs → ∀ {l : NetLink}, net.links none r.phyIntf = some l → l.up = false
  master : .phyEnslaved ∈ fs → ∀ {l : NetLink}, net.links none r.phyIntf = some l →
    l.master = none

variable {pre post : Records} {fs : List Flag} {v : Bool}

theorem mem_here : (host, r) ∈ pre ++ (host, r) :: post :=
  List.mem_append_right _ List.mem_cons_self

/-- An entry is the one in the middle or survives its replacement. -/
theorem mem_replace {h : String} {r₀ r' : BridgeRecord}
    (hmem : (h, r₀) ∈ pre ++ (host, r) :: post) :
    (h = host ∧ r₀ = r) ∨ (h, r₀) ∈ pre ++ (host, r') :: post := by
  rcases List.mem_append.mp hmem with hpre | hpost
  · exact .inr (List.mem_append_left _ hpre)
  · rcases List.mem_cons.mp hpost with heq | hpost
    · cases heq
      exact .inl ⟨rfl, rfl⟩
    · exact .inr (List.mem_append_right _ (List.mem_cons_of_mem _ hpost))

@[simp] theorem assign_flags (f : Flag) :
    (r.assign fs v).flags f = if f ∈ fs then v else r.flags f := rfl

theorem assign_flag {f : Flag} (h : r.flags f = true) :
    (r.assign fs v).flags f = true ∨ (f ∈ fs ∧ v = false) := by
  rw [assign_flags]
  split
  · cases v with
    | true => exact .inl rfl
    | false => exact .inr ⟨‹_›, rfl⟩
  · exact .inl h

/-- Assigning flags of one record. -/
theorem assign (hL : Ledger base (pre ++ (host, r) :: post) net)
    (hr' : TrueRecord base host (r.assign fs v)) (hd : v = false → Discharged net r fs) :
    Ledger base (pre ++ (host, r.assign fs v) :: post) net := by
  refine hL.of_records ?_ ?_ ?_ ?_
  · intro h r₀ hmem
    rcases mem_replace hmem with ⟨rfl, rfl⟩ | hmem'
    · exact hr'
    · exact hL.records hmem'
  · rintro n l hl hup ⟨h, r₀, hmem, rfl, hf⟩
    rcases mem_replace hmem with ⟨rfl, rfl⟩ | hmem'
    · rcases assign_flag hf with hf' | ⟨hin, hv⟩
      · exact ⟨h, _, mem_here, rfl, hf'⟩
      · rw [(hd hv).up hin hl] at hup
        cases hup
    · exact ⟨h, r₀, hmem', rfl, hf⟩
  · rintro n l hl hm ⟨h, r₀, hmem, rfl, hf, heq⟩
    rcases mem_replace hmem with ⟨rfl, rfl⟩ | hmem'
    · rcases assign_flag hf with hf' | ⟨hin, hv⟩
      · exact ⟨h, _, mem_here, rfl, hf', heq⟩
      · exact absurd ((hd hv).master hin hl) hm
    · exact ⟨h, r₀, hmem', rfl, hf, heq⟩
  · intro ns n l h r₀ hl hmem hmade
    rcases mem_replace hmem with ⟨rfl, rfl⟩ | hmem'
    · refine ⟨h, _, mem_here, ?_⟩
      cases hmade with
      | bridge hf hb =>
        rcases assign_flag hf with hf' | ⟨hin, hv⟩
        · exact .bridge hf' hb
        · rw [(hd hv).bridge hin] at hl
          cases hl
      | vethRoot hf ns₁ hp =>
        rcases assign_flag hf with hf' | ⟨hin, hv⟩
        · exact .vethRoot hf' ns₁ hp
        · rw [(hd hv).veth hin] at hl
          cases hl
      | vethHost hf _ hp =>
        rcases assign_flag hf with hf' | ⟨hin, hv⟩
        · exact .vethHost hf' _ hp
        · -- the host end does not outlive the root end
          obtain ⟨l', hl', -⟩ := hL.net_sound.peer_link hl hp
          rw [(hd hv).veth hin] at hl'
          cases hl'
    · exact ⟨h, r₀, hmem', hmade⟩

/-- Clearing flags together with those that depend on them keeps a record true. -/
theorem clear_true (hr : TrueRecord base host r)
    (hveth : .vethCreated ∈ fs → ∀ f ∈ vethFlags, f ∈ fs)
    (hbridge : .bridgeCreated ∈ fs → .bridgeUp ∈ fs) :
    TrueRecord base host (r.assign fs false) := by
  have hmono : ∀ {f}, (r.assign fs false).flags f = true → r.flags f = true ∧ f ∉ fs := by
    intro f hf
    rw [assign_flags] at hf
    split at hf
    · cases hf
    · exact ⟨hf, ‹_›⟩
  have hstay : ∀ {f}, r.flags f = true → f ∉ fs → (r.assign fs false).flags f = true := by
    intro f hf hout
    rw [assign_flags, if_neg hout]
    exact hf
  refine ⟨⟨hr.named.bridge, hr.named.vethRoot, hr.named.vethHost⟩,
    fun hf => hr.bridge_free (hmono hf).1, fun hf => hr.vethRoot_free (hmono hf).1,
    fun hf => hr.vethHost_free (hmono hf).1, fun hf => hr.moved_free (hmono hf).1, hr.phy_master,
    hr.phy_up, fun hf => hr.raised_prior (hmono hf).1, fun hin hf => ?_, fun hf => ?_⟩
  · exact hstay (hr.veth_flags hin (hmono hf).1) fun hout => (hmono hf).2 (hveth hout _ hin)
  · exact hstay (hr.bridge_flags (hmono hf).1) fun hout => (hmono hf).2 (hbridge hout)

/-- A new record accounts for nothing yet. -/
theorem add_record (hL : Ledger base recs net) (hr : TrueRecord base host r) :
    Ledger base (recs ++ [(host, r)]) net := by
  refine hL.of_records ?_ ?_ ?_ ?_
  · intro h r₀ hmem
    rcases List.mem_append.mp hmem with hmem | hmem
    · exact hL.records hmem
    · cases List.mem_singleton.mp hmem
      exact hr
  · rintro n l - - ⟨h, r₀, hmem, hrest⟩
    exact ⟨h, r₀, List.mem_append_left _ hmem, hrest⟩
  · rintro n l - - ⟨h, r₀, hmem, hrest⟩
    exact ⟨h, r₀, List.mem_append_left _ hmem, hrest⟩
  · intro ns n l h r₀ _ hmem hmade
    exact ⟨h, r₀, List.mem_append_left _ hmem, hmade⟩

theorem flag_of_discharged (h : r.hasOutstandingState = false) (f : Flag) : r.flags f = false := by
  have hall := List.any_eq_false.mp h f (by cases f <;> decide)
  simpa using hall

/-- A record without outstanding state accounts for nothing any more. -/
theorem drop_record (hL : Ledger base (pre ++ (host, r) :: post) net)
    (hr : r.hasOutstandingState = false) : Ledger base (pre ++ post) net := by
  have hmem' : ∀ {h r₀ f}, (h, r₀) ∈ pre ++ (host, r) :: post → r₀.flags f = true →
      (h, r₀) ∈ pre ++ post := by
    intro h r₀ f hmem hf
    rcases List.mem_append.mp hmem with hpre | hpost
    · exact List.mem_append_left _ hpre
    · rcases List.mem_cons.mp hpost with heq | hpost
      · cases heq
        rw [flag_of_discharged hr] at hf
        cases hf
      · exact List.mem_append_right _ hpost
  refine hL.of_records ?_ ?_ ?_ ?_
  · intro h r₀ hmem
    apply hL.records
    rcases List.mem_append.mp hmem with hpre | hpost
    · exact List.mem_append_left _ hpre
    · exact List.mem_append_right _ (List.mem_cons_of_mem _ hpost)
  · rintro n l - - ⟨h, r₀, hmem, hphy, hf⟩
    exact ⟨h, r₀, hmem' hmem hf, hphy, hf⟩
  · rintro n l - - ⟨h, r₀, hmem, hphy, hf, heq⟩
    exact ⟨h, r₀, hmem' hmem hf, hphy, hf, heq⟩
  · intro ns n l h r₀ _ hmem hmade
    refine ⟨h, r₀, ?_, hmade⟩
    cases hmade with
    | bridge hf _ => exact hmem' hmem hf
    | vethRoot hf _ _ => exact hmem' hmem hf
    | vethHost hf _ _ => exact hmem' hmem hf

end Ledger

end Proof
end CeforeEmu
