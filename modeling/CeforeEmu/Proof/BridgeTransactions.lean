import CeforeEmu.Lib.Run
import CeforeEmu.Proof.BridgeLedger

/-!
# External bridge transactions

What an attach and a cleanup do to the ledger. Both work on one record at a time, so what a
piece of either does is stated as a relation between the network and that record before and
after it: `Carries` says that whatever ledger the record is part of stays a ledger, over any
network the ledger starts from and with any other records around it. It is a preorder, and each
stage, undo action and gate is one step of it.

A rolled back attach puts the network back exactly because of the order of the two lists it
keeps: every flag that is set is cleared by a registered undo action, and every registered
action has its own flag set (`Backed`). When all of them run, no flag is left.
-/

set_option autoImplicit false

namespace CeforeEmu
namespace Proof

open CeforeEmu.Lib CeforeEmu.Runtime Ledger

variable {host : String} {r r₀ rc : BridgeRecord} {net net' : LinkNet} {pre : Records}

/-! ## One record at a time -/

/-- Whatever ledger the record is part of stays one. -/
def Carries (host : String) (net : LinkNet) (r : BridgeRecord) (net' : LinkNet)
    (r' : BridgeRecord) : Prop :=
  ∀ {base : LinkNet} {pre post : Records}, Ledger base (pre ++ (host, r) :: post) net →
    Ledger base (pre ++ (host, r') :: post) net'

theorem Carries.refl : Carries host net r net r := fun hL => hL

theorem Carries.trans {net'' : LinkNet} {r' r'' : BridgeRecord}
    (h : Carries host net r net' r') (h' : Carries host net' r' net'' r'') :
    Carries host net r net'' r'' := fun hL => h' (h hL)

/-- The record differs from the one the attach started with in its flags only. -/
def SameNames (r₀ r : BridgeRecord) : Prop := r = { r₀ with flags := r.flags }

theorem SameNames.assign (h : SameNames r₀ rc) (fs : List Flag) (v : Bool) :
    SameNames r₀ (rc.assign fs v) := by
  rw [SameNames] at h ⊢
  rw [h]
  rfl

/-! ## Undo actions and gates -/

/-- The flag an undo action is registered with. -/
def undoFlag : Undo → Flag
  | .delBridge => .bridgeCreated
  | .phyDown => .phyUpChanged
  | .unmaster => .phyEnslaved
  | .delVeth => .vethCreated

theorem setUp_links {ns : Ns} {n : String} {b : Bool} (h : net.exec (.setUp ns n b) = .ok net')
    {l : NetLink} (hl : net'.links ns n = some l) : l.up = b := by
  obtain ⟨k, -, rfl⟩ := change_inv h
  rw [set_links_self, Option.some.injEq] at hl
  rw [← hl]

theorem noMaster_links {n : String} (h : net.exec (.noMaster n) = .ok net')
    {l : NetLink} (hl : net'.links none n = some l) : l.master = none := by
  obtain ⟨k, -, rfl⟩ := change_inv h
  rw [set_links_self, Option.some.injEq] at hl
  rw [← hl]

/-- **An undo action.** Its command keeps the ledger while its flags are set, and leaves the
    network such that they can be cleared. -/
theorem undo_carries (u : Undo) (hf : r.flags (undoFlag u) = true)
    (hexec : net.exec (u.cmd r) = .ok net') :
    Carries host net r net' (r.assign u.clearFlags false) := by
  intro base pre post hL
  have hr := hL.records mem_here
  cases u with
  | delBridge =>
    obtain ⟨hL', hgone⟩ := hL.del hexec (hr.bridge_free hf)
    refine hL'.assign (clear_true hr (fun h => ?_) fun _ => by decide) fun _ =>
      ⟨fun _ => hgone, fun h => ?_, fun h => ?_, fun h => ?_⟩ <;>
    exact absurd h (by decide)
  | phyDown =>
    have hL' := hL.phy_down hexec fun _ h₀ => (hr.phy_up h₀).trans (hr.raised_prior hf)
    refine hL'.assign (clear_true hr (fun h => ?_) fun h => ?_) fun _ =>
      ⟨fun h => ?_, fun h => ?_, fun _ => setUp_links hexec, fun h => ?_⟩ <;>
    exact absurd h (by decide)
  | unmaster =>
    have hL' := hL.unmaster hexec fun _ h₀ => hr.phy_master h₀
    refine hL'.assign (clear_true hr (fun h => ?_) fun h => ?_) fun _ =>
      ⟨fun h => ?_, fun h => ?_, fun h => ?_, fun _ => noMaster_links hexec⟩ <;>
    exact absurd h (by decide)
  | delVeth =>
    obtain ⟨hL', hgone⟩ := hL.del hexec (hr.vethRoot_free hf)
    refine hL'.assign (clear_true hr (fun _ f hf' => hf') fun h => ?_) fun _ =>
      ⟨fun h => ?_, fun _ => hgone, fun h => ?_, fun h => ?_⟩ <;>
    exact absurd h (by decide)

/-- The bridge's own gate of a cleanup. -/
theorem bridgeDown_carries (hf : r.flags .bridgeUp = true)
    (hexec : net.exec (.setUp none r.bridge false) = .ok net') :
    Carries host net r net' (r.assign [.bridgeUp] false) := by
  intro base pre post hL
  have hr := hL.records mem_here
  have hL' := hL.change_own hexec (fun _ => rfl) (fun _ => rfl) (fun _ => rfl)
    (hr.bridge_free (hr.bridge_flags hf))
  refine hL'.assign (clear_true hr (fun h => ?_) fun h => ?_) fun _ =>
    ⟨fun h => ?_, fun h => ?_, fun h => ?_, fun h => ?_⟩ <;>
  exact absurd h (by decide)

/-! ## Commands -/

/-- A command fails and changes nothing, or does what iproute2 does. -/
theorem runLink_cases (cmd : LinkCmd) (w : ExtWorld) :
    (∃ f w', runLink cmd w = (.ok (some f), w') ∧ w'.net = w.net ∧ w'.table = w.table) ∨
    (∃ w', runLink cmd w = (.ok none, w') ∧ w.net.exec cmd = .ok w'.net ∧
      w'.table = w.table) := by
  unfold runLink
  split
  · exact .inl ⟨_, _, rfl, rfl, rfl⟩
  · split
    · rename_i net hnet
      exact .inr ⟨_, rfl, hnet, rfl⟩
    · exact .inl ⟨_, _, rfl, rfl, rfl⟩

theorem map_of_ne {f : BridgeRecord → BridgeRecord} (hout : ∀ e ∈ pre, e.1 ≠ host) :
    pre.map (fun p => if p.1 = host then (p.1, f p.2) else p) = pre := by
  conv_rhs => rw [← List.map_id pre]
  apply List.map_congr_left
  intro e he
  rw [if_neg (hout e he)]
  rfl

theorem updateRecord_apply (f : BridgeRecord → BridgeRecord) {w : ExtWorld}
    (ht : w.table = pre ++ [(host, r)]) (hout : ∀ e ∈ pre, e.1 ≠ host) :
    updateRecord host f w = (.ok (), { w with table := pre ++ [(host, f r)] }) := by
  rw [updateRecord, Op.modify_apply, ht, List.map_append, map_of_ne hout]
  simp

theorem popDischarged_apply {w : ExtWorld} (ht : w.table = pre ++ [(host, r)])
    (hout : ∀ e ∈ pre, e.1 ≠ host) :
    popDischarged host w = (.ok (), { w with
      table := pre ++ if r.hasOutstandingState then [(host, r)] else [] }) := by
  have hpre : pre.filter (fun p => p.1 ≠ host ∨ p.2.hasOutstandingState) = pre := by
    rw [List.filter_eq_self]
    intro e he
    simp [hout e he]
  rw [popDischarged, Op.modify_apply, ht, List.filter_append, hpre]
  cases h : r.hasOutstandingState <;> simp [h]

/-! ## Rollback -/

/-- **The undo list and the flags.** Each action's flag is set, and each set flag is cleared by an
    action. -/
structure Backed (r : BridgeRecord) (undos : List Undo) : Prop where
  nodup : undos.Nodup
  flagged : ∀ {u : Undo}, u ∈ undos → r.flags (undoFlag u) = true
  cleared : ∀ {f : Flag}, r.flags f = true → ∃ u ∈ undos, f ∈ u.clearFlags

theorem undoFlag_not_cleared {u u' : Undo} (h : u ≠ u') : undoFlag u' ∉ u.clearFlags := by
  cases u <;> cases u' <;> first | exact absurd rfl h | decide

theorem rollback_spec (hout : ∀ e ∈ pre, e.1 ≠ host) :
    ∀ (undos : List Undo) {rc : BridgeRecord} {w : ExtWorld}, w.table = pre ++ [(host, rc)] →
      SameNames r₀ rc → undos.Nodup → (∀ u ∈ undos, rc.flags (undoFlag u) = true) →
      ∃ failures w' rc', rollback host r₀ undos w = (.ok failures, w') ∧
        w'.table = pre ++ [(host, rc')] ∧ SameNames r₀ rc' ∧ Carries host w.net rc w'.net rc' ∧
        (failures = [] → ∀ f, rc'.flags f = true →
          rc.flags f = true ∧ ∀ u ∈ undos, f ∉ u.clearFlags)
  | [], rc, w, ht, hsame, _, _ =>
    ⟨[], w, rc, rfl, ht, hsame, Carries.refl, fun _ f hf => ⟨hf, fun u hu => by cases hu⟩⟩
  | u :: rest, rc, w, ht, hsame, hnd, hflag => by
    have hrest := (List.nodup_cons.mp hnd).2
    have hcmd : u.cmd r₀ = u.cmd rc := by
      rw [hsame]
      cases u <;> rfl
    rcases runLink_cases (u.cmd r₀) w with ⟨f, w₁, hrun, hnet, htab⟩ | ⟨w₁, hrun, hexec, htab⟩
    · obtain ⟨failures, w', rc', hroll, ht', hsame', hcarry, -⟩ :=
        rollback_spec hout rest (htab.trans ht) hsame hrest
          fun u' hu' => hflag u' (List.mem_cons_of_mem _ hu')
      refine ⟨(u.description, u.errorText r₀ f) :: failures, w', rc', ?_, ht', hsame', ?_, ?_⟩
      · rw [rollback, Op.bind_of_ok hrun]
        simp only
        rw [Op.bind_of_ok hroll]
        rfl
      · rw [hnet] at hcarry
        exact hcarry
      · intro h
        cases h
    · have hstep : Carries host w.net rc w₁.net (rc.assign u.clearFlags false) :=
        undo_carries u (hflag u List.mem_cons_self) (hcmd ▸ hexec)
      -- the other actions keep their flags
      have hkeep : ∀ u' ∈ rest, (rc.assign u.clearFlags false).flags (undoFlag u') = true := by
        intro u' hu'
        have hne : u ≠ u' := by
          rintro rfl
          exact (List.nodup_cons.mp hnd).1 hu'
        rw [assign_flags, if_neg (undoFlag_not_cleared hne)]
        exact hflag u' (List.mem_cons_of_mem _ hu')
      have hupd := updateRecord_apply (fun r => r.assign u.clearFlags false) (htab.trans ht) hout
      obtain ⟨failures, w', rc', hroll, ht', hsame', hcarry, hclear⟩ :=
        rollback_spec hout rest (w := { w₁ with
          table := pre ++ [(host, rc.assign u.clearFlags false)] }) rfl (hsame.assign _ _) hrest hkeep
      refine ⟨failures, w', rc', ?_, ht', hsame', hstep.trans hcarry, ?_⟩
      · rw [rollback, Op.bind_of_ok hrun]
        simp only
        rw [Op.bind_of_ok hupd]
        exact hroll
      · intro hnil f hf
        obtain ⟨hf', hrest'⟩ := hclear hnil f hf
        rw [assign_flags] at hf'
        split at hf'
        · cases hf'
        · rename_i hnot
          refine ⟨hf', fun u' hu' => ?_⟩
          rcases List.mem_cons.mp hu' with rfl | hu'
          · exact hnot
          · exact hrest' u' hu'

/-- **An aborted attach.** The record stays only if a rollback command failed. -/
theorem abort_spec (hout : ∀ e ∈ pre, e.1 ≠ host) {undos : List Undo} (reason : String)
    {w : ExtWorld} (ht : w.table = pre ++ [(host, rc)]) (hsame : SameNames r₀ rc)
    (hb : Backed rc undos) :
    ∃ failures w' rc', abort host r₀ undos reason w = (.error (.external (some reason) failures), w') ∧
      w'.table = pre ++ (if rc'.hasOutstandingState then [(host, rc')] else []) ∧
      SameNames r₀ rc' ∧ Carries host w.net rc w'.net rc' ∧
      (failures = [] → rc'.hasOutstandingState = false) := by
  obtain ⟨failures, w₁, rc', hroll, ht', hsame', hcarry, hclear⟩ :=
    rollback_spec hout undos.reverse ht hsame (List.nodup_reverse.mpr hb.nodup)
      fun u hu => hb.flagged (List.mem_reverse.mp hu)
  refine ⟨failures, { w₁ with
    table := pre ++ if rc'.hasOutstandingState then [(host, rc')] else [] }, rc', ?_, rfl, hsame',
    hcarry, ?_⟩
  · rw [abort, Op.bind_of_ok hroll, Op.bind_of_ok (popDischarged_apply ht' hout)]
    rfl
  · intro hnil
    rw [BridgeRecord.hasOutstandingState, List.any_eq_false]
    intro f _ hf
    obtain ⟨hf', hnot⟩ := hclear hnil f hf
    obtain ⟨u, hu, hin⟩ := hb.cleared hf'
    exact hnot u (List.mem_reverse.mpr hu) hin

/-! ## Stages -/

/-- Until it is moved, the veth's host end is in the root namespace. -/
def PairHere (net : LinkNet) (r : BridgeRecord) : Prop :=
  r.flags .vethCreated = true → r.flags .vethHostNsMoved = false →
    ∃ l, net.links none r.vethHost = some l ∧ l.peer = some (none, r.vethRoot)

/-- A command that, when it succeeds, carries the record to the one with the flags set. -/
def Lawful (host : String) (cmd : LinkCmd) (sets : List Flag) (r : BridgeRecord) : Prop :=
  ∀ {net net' : LinkNet}, PairHere net r → net.exec cmd = .ok net' →
    Carries host net r net' (r.assign sets true) ∧ PairHere net' (r.assign sets true)

/-- What a stage adds to the flags goes with an undo action that is registered, or that it
    registers itself. -/
def Registers (sets : List Flag) (undo : Option Undo) (undos : List Undo) : Prop :=
  (∀ u ∈ undo.toList, undoFlag u ∈ sets ∧ u ∉ undos) ∧
    ∀ f ∈ sets, ∃ u ∈ undos ++ undo.toList, f ∈ u.clearFlags

theorem Registers.of_mem {sets : List Flag} {undos : List Undo} {u : Undo} (hu : u ∈ undos)
    (hsets : ∀ f ∈ sets, f ∈ u.clearFlags) : Registers sets none undos := by
  refine ⟨fun u' hu' => ?_, fun f hf => ⟨u, ?_, hsets f hf⟩⟩
  · cases hu'
  · exact List.mem_append_left _ hu

theorem Registers.new {sets : List Flag} {undos : List Undo} {u : Undo} (hu : u ∉ undos)
    (hflag : undoFlag u ∈ sets) (hsets : ∀ f ∈ sets, f ∈ u.clearFlags) :
    Registers sets (some u) undos := by
  refine ⟨fun u' hu' => ?_, fun f hf => ⟨u, ?_, hsets f hf⟩⟩
  · cases List.mem_singleton.mp hu'
    exact ⟨hflag, hu⟩
  · exact List.mem_append_right _ (List.mem_singleton_self u)

theorem Backed.step {undos : List Undo} {sets : List Flag} {undo : Option Undo}
    (hb : Backed r undos) (hr : Registers sets undo undos) :
    Backed (r.assign sets true) (undos ++ undo.toList) := by
  refine ⟨?_, fun {u} hu => ?_, fun {f} hf => ?_⟩
  · refine List.Nodup.append hb.nodup (by cases undo <;> simp) ?_
    intro u hu hu'
    exact (hr.1 u hu').2 hu
  · rw [assign_flags]
    split
    · rfl
    · rcases List.mem_append.mp hu with hu | hu
      · exact hb.flagged hu
      · exact absurd (hr.1 u hu).1 ‹_›
  · rw [assign_flags] at hf
    split at hf
    · exact hr.2 f ‹_›
    · obtain ⟨u, hu, hin⟩ := hb.cleared hf
      exact ⟨u, List.mem_append_left _ hu, hin⟩

/-- Each stage is lawful where the run reaches it. -/
def LawfulRun (host : String) : List Stage → List Undo → BridgeRecord → Prop
  | [], _, _ => True
  | stage :: rest, undos, r =>
      Lawful host stage.cmd stage.sets r ∧ Registers stage.sets stage.undo undos ∧
        LawfulRun host rest (undos ++ stage.undo.toList) (r.assign stage.sets true)

/-- **The stages of an attach.** Either all of them are done, or the attach was aborted. -/
theorem runStages_spec (hout : ∀ e ∈ pre, e.1 ≠ host) :
    ∀ (stages : List Stage) {undos : List Undo} {rc : BridgeRecord} {w : ExtWorld},
      w.table = pre ++ [(host, rc)] → SameNames r₀ rc → Backed rc undos → PairHere w.net rc →
      LawfulRun host stages undos rc → ∃ res w' rc', runStages host r₀ stages undos w = (res, w') ∧
        SameNames r₀ rc' ∧ Carries host w.net rc w'.net rc' ∧
        ((res = .ok () ∧ w'.table = pre ++ [(host, rc')]) ∨
          ∃ err, res = .error err ∧
            w'.table = pre ++ (if rc'.hasOutstandingState then [(host, rc')] else []) ∧
            (err.rollbackFailures = [] → rc'.hasOutstandingState = false))
  | [], undos, rc, w, ht, hsame, _, _, _ =>
    ⟨.ok (), w, rc, rfl, hsame, Carries.refl, .inl ⟨rfl, ht⟩⟩
  | stage :: rest, undos, rc, w, ht, hsame, hb, hp, hlaw => by
    obtain ⟨hstage, hreg, hrest⟩ := hlaw
    rcases runLink_cases stage.cmd w with ⟨f, w₁, hrun, hnet, htab⟩ | ⟨w₁, hrun, hexec, htab⟩
    · obtain ⟨failures, w', rc', habort, ht', hsame', hcarry, hclear⟩ :=
        abort_spec hout stage.reason (htab.trans ht) hsame hb
      refine ⟨_, w', rc', ?_, hsame', ?_,
        .inr ⟨.external (some stage.reason) failures, rfl, ht', hclear⟩⟩
      · rw [runStages, Op.bind_of_ok hrun]
        exact habort
      · rw [hnet] at hcarry
        exact hcarry
    · obtain ⟨hcarry, hp'⟩ := hstage hp hexec
      have hupd := updateRecord_apply (fun r => r.assign stage.sets true) (htab.trans ht) hout
      obtain ⟨res, w', rc', hrun', hsame', hcarry', hres⟩ :=
        runStages_spec hout rest (w := { w₁ with
          table := pre ++ [(host, rc.assign stage.sets true)] }) rfl (hsame.assign _ _)
          (hb.step hreg) hp' hrest
      refine ⟨res, w', rc', ?_, hsame', hcarry.trans hcarry', hres⟩
      rw [runStages, Op.bind_of_ok hrun]
      simp only
      rw [Op.bind_of_ok hupd]
      exact hrun'

/-! ### The stages one by one -/

theorem set_true {base : LinkNet} {fs : List Flag} (hr : TrueRecord base host r)
    (hbridge : .bridgeCreated ∈ fs → base.links none r.bridge = none)
    (hveth : .vethCreated ∈ fs →
      base.links none r.vethRoot = none ∧ base.links none r.vethHost = none)
    (hmoved : .vethHostNsMoved ∈ fs → base.links (some host) r.vethHost = none)
    (hup : .phyUpChanged ∈ fs → r.priorUp = false)
    (hvethFlags : ∀ f ∈ fs, f ∈ vethFlags → .vethCreated ∈ fs ∨ r.flags .vethCreated = true)
    (hbridgeFlags : .bridgeUp ∈ fs → r.flags .bridgeCreated = true) :
    TrueRecord base host (r.assign fs true) := by
  have hcase : ∀ {f}, (r.assign fs true).flags f = true → f ∈ fs ∨ r.flags f = true := by
    intro f hf
    rw [assign_flags] at hf
    split at hf
    · exact .inl ‹_›
    · exact .inr hf
  have hmono : ∀ {f}, f ∈ fs ∨ r.flags f = true → (r.assign fs true).flags f = true := by
    intro f hf
    rw [assign_flags]
    split
    · rfl
    · rcases hf with hf | hf
      · exact absurd hf ‹_›
      · exact hf
  refine ⟨⟨hr.named.bridge, hr.named.vethRoot, hr.named.vethHost⟩, ?_, ?_, ?_, ?_, hr.phy_master,
    hr.phy_up, ?_, ?_, ?_⟩
  · intro hf
    rcases hcase hf with hf | hf
    · exact hbridge hf
    · exact hr.bridge_free hf
  · intro hf
    rcases hcase hf with hf | hf
    · exact (hveth hf).1
    · exact hr.vethRoot_free hf
  · intro hf
    rcases hcase hf with hf | hf
    · exact (hveth hf).2
    · exact hr.vethHost_free hf
  · intro hf
    rcases hcase hf with hf | hf
    · exact hmoved hf
    · exact hr.moved_free hf
  · intro hf
    rcases hcase hf with hf | hf
    · exact hup hf
    · exact hr.raised_prior hf
  · intro f hin hf
    apply hmono
    rcases hcase hf with hf | hf
    · exact hvethFlags f hf hin
    · exact .inr (hr.veth_flags hin hf)
  · intro hf
    apply hmono
    rcases hcase hf with hf | hf
    · exact .inr (hbridgeFlags hf)
    · exact .inr (hr.bridge_flags hf)

/-- Flags that only say more about a veth pair that is there. -/
theorem set_veth_flags {base : LinkNet} {fs : List Flag} (hr : TrueRecord base host r)
    (hv : r.flags .vethCreated = true)
    (hfs : ∀ f ∈ fs, f ∈ [Flag.vethRootMastered, .vethRootUp, .vethHostUp, .mtuSet, .ipAssigned]) :
    TrueRecord base host (r.assign fs true) := by
  refine set_true hr ?_ ?_ ?_ ?_ (fun _ _ _ => .inr hv) ?_ <;>
  · intro h
    exact absurd (hfs _ h) (by decide)

/-- A link that is changed in place keeps the pair where it is. -/
theorem pairHere_set {fs : List Flag} {ns : Ns} {n : String} {k k' : NetLink}
    (hp : PairHere net r) (hk : net.links ns n = some k) (hpeer : k'.peer = k.peer)
    (hfs : .vethCreated ∉ fs) : PairHere (net.set ns n (some k')) (r.assign fs true) := by
  intro hv hm
  rw [assign_flags, if_neg hfs] at hv
  have hm' : r.flags .vethHostNsMoved = false := by
    rw [assign_flags] at hm
    split at hm
    · cases hm
    · exact hm
  obtain ⟨l, hl, hlp⟩ := hp hv hm'
  by_cases heq : none = ns ∧ r.vethHost = n
  · obtain ⟨rfl, rfl⟩ := heq
    rw [hk, Option.some.injEq] at hl
    subst hl
    exact ⟨k', set_links_self .., hpeer.trans hlp⟩
  · refine ⟨l, ?_, hlp⟩
    rw [← hl]
    exact set_links_ne heq

/-- Stages that only change an attribute of a link the attach has made. -/
theorem lawful_change {cmd : LinkCmd} {sets : List Flag} {ns : Ns} {n : String}
    {f : NetLink → NetLink}
    (hcmd : ∀ net : LinkNet, net.exec cmd = net.change ns n f)
    (hkind : ∀ l, (f l).isBridge = l.isBridge ∧ (f l).peer = l.peer ∧ (f l).master = l.master)
    (hfree : ∀ {base}, TrueRecord base host r → base.links ns n = none)
    (hset : ∀ {base}, TrueRecord base host r → TrueRecord base host (r.assign sets true))
    (hveth : .vethCreated ∉ sets) : Lawful host cmd sets r := by
  intro net net' hp hexec
  rw [hcmd] at hexec
  refine ⟨?_, ?_⟩
  · intro base pre post hL
    have hr := hL.records mem_here
    have hL' := hL.change_own hexec (fun l => (hkind l).1) (fun l => (hkind l).2.1)
      (fun l => (hkind l).2.2) (hfree hr)
    exact hL'.assign (hset hr) fun h => by cases h
  · obtain ⟨k, hk, rfl⟩ := change_inv hexec
    exact pairHere_set hp hk (hkind k).2.1 hveth

theorem lawful_bridgeUp (hb : r.flags .bridgeCreated = true) :
    Lawful host (.setUp none r.bridge true) [.bridgeUp] r := by
  refine lawful_change (f := fun l => { l with up := true }) (fun _ => rfl)
    (fun _ => ⟨rfl, rfl, rfl⟩) (fun hr => hr.bridge_free hb) ?_ (by decide)
  intro base hr
  refine set_true hr ?_ ?_ ?_ ?_ ?_ (fun _ => hb)
  all_goals first
    | intro h; exact absurd h (by decide)
    | intro f hf hin; exact absurd hin (List.mem_singleton.mp hf ▸ by decide)

/-- Bringing the interface up, which only happens if it was down. -/
theorem lawful_phyUp (hprior : r.priorUp = false) :
    Lawful host (.setUp none r.phyIntf true) [.phyUpChanged] r := by
  intro net net' hp hexec
  refine ⟨?_, ?_⟩
  · intro base pre post hL
    have hr := hL.records mem_here
    have hset : TrueRecord base host (r.assign [.phyUpChanged] true) := by
      refine set_true hr ?_ ?_ ?_ (fun _ => hprior) ?_ ?_
      all_goals first
        | intro h; exact absurd h (by decide)
        | intro f hf hin; exact absurd hin (List.mem_singleton.mp hf ▸ by decide)
    have hL' := hL.assign hset fun h => by cases h
    exact hL'.phy_up hexec ⟨host, _, mem_here, rfl, rfl⟩
  · obtain ⟨k, hk, rfl⟩ := change_inv hexec
    refine pairHere_set hp hk ?_ (by decide)
    rfl

theorem bridge_ne_empty (hn : NamedFor host r) : r.bridge ≠ "" := by
  intro h
  rw [hn.bridge] at h
  have := congrArg String.length h
  simp [String.length_append] at this

theorem lawful_enslave : Lawful host (.setMaster r.phyIntf r.bridge) [.phyEnslaved] r := by
  intro net net' hp hexec
  refine ⟨?_, ?_⟩
  · intro base pre post hL
    have hr := hL.records mem_here
    have hset : TrueRecord base host (r.assign [.phyEnslaved] true) := by
      refine set_true hr ?_ ?_ ?_ ?_ ?_ ?_
      all_goals first
        | intro h; exact absurd h (by decide)
        | intro f hf hin; exact absurd hin (List.mem_singleton.mp hf ▸ by decide)
    have hL' := hL.assign hset fun h => by cases h
    exact hL'.enslave hexec (bridge_ne_empty hr.named)
      fun _ _ => ⟨host, _, mem_here, rfl, rfl, rfl⟩
  · obtain ⟨b, l, -, hl, -, rfl⟩ := setMaster_inv hexec
    refine pairHere_set hp hl ?_ (by decide)
    rfl

theorem lawful_addVeth : Lawful host (.addVeth r.vethRoot r.vethHost) [.vethCreated] r := by
  intro net net' _ hexec
  obtain ⟨-, hroot, hhost, hnet⟩ := addVeth_inv hexec
  refine ⟨?_, ?_⟩
  · intro base pre post hL
    have hr := hL.records mem_here
    have hset : TrueRecord base host (r.assign [.vethCreated] true) := by
      refine set_true hr ?_ (fun _ => ⟨hL.base_free hroot, hL.base_free hhost⟩) ?_ ?_
        (fun _ _ _ => .inl (by decide)) ?_
      all_goals intro h; exact absurd h (by decide)
    have hL' := hL.assign hset fun h => by cases h
    exact hL'.add_veth mem_here rfl hexec
  · intro _ _
    subst hnet
    exact ⟨_, set_links_self .., rfl⟩

theorem lawful_vethMaster (hv : r.flags .vethCreated = true) :
    Lawful host (.setMaster r.vethRoot r.bridge) [.vethRootMastered] r := by
  intro net net' hp hexec
  refine ⟨?_, ?_⟩
  · intro base pre post hL
    have hr := hL.records mem_here
    have hL' := hL.enslave hexec (bridge_ne_empty hr.named) (by
      intro l₀ h₀
      rw [hr.vethRoot_free hv] at h₀
      cases h₀)
    exact hL'.assign (set_veth_flags hr hv (by decide)) fun h => by cases h
  · obtain ⟨b, l, -, hl, -, rfl⟩ := setMaster_inv hexec
    refine pairHere_set hp hl ?_ (by decide)
    rfl

theorem lawful_move (hv : r.flags .vethCreated = true)
    (hm : r.flags .vethHostNsMoved = false) :
    Lawful host (.setNetns r.vethHost host) [.vethHostNsMoved] r := by
  intro net net' hp hexec
  obtain ⟨l, hl, hpeer⟩ := hp hv hm
  refine ⟨?_, fun _ h => by cases h⟩
  intro base pre post hL
  have hr := hL.records mem_here
  have hfree := hL.base_free (setNetns_inv hl hpeer hexec).1
  have hL' := hL.move_veth mem_here hv hl hpeer hexec
  refine hL'.assign (set_true hr ?_ ?_ (fun _ => hfree) ?_ (fun _ _ _ => .inr hv) ?_)
    fun h => by cases h
  all_goals intro h; exact absurd h (by decide)

/-! ### The stages in their order -/

theorem lawful_vethRoot (hv : r.flags .vethCreated = true) {fs : List Flag} {cmd : LinkCmd}
    {f : NetLink → NetLink} (hcmd : ∀ net : LinkNet, net.exec cmd = net.change none r.vethRoot f)
    (hkind : ∀ l, (f l).isBridge = l.isBridge ∧ (f l).peer = l.peer ∧ (f l).master = l.master)
    (hfs : ∀ f ∈ fs, f ∈ [Flag.vethRootMastered, .vethRootUp, .vethHostUp, .mtuSet, .ipAssigned]) :
    Lawful host cmd fs r :=
  lawful_change hcmd hkind (fun hr => hr.vethRoot_free hv) (fun hr => set_veth_flags hr hv hfs)
    fun h => absurd (hfs _ h) (by decide)

/-- The host end where it is: in the root namespace, or moved. -/
theorem lawful_vethHost {ns : Ns} (hv : r.flags .vethCreated = true)
    (hns : ns = none ∨ ns = some host ∧ r.flags .vethHostNsMoved = true) {fs : List Flag}
    {cmd : LinkCmd} {f : NetLink → NetLink}
    (hcmd : ∀ net : LinkNet, net.exec cmd = net.change ns r.vethHost f)
    (hkind : ∀ l, (f l).isBridge = l.isBridge ∧ (f l).peer = l.peer ∧ (f l).master = l.master)
    (hfs : ∀ f ∈ fs, f ∈ [Flag.vethRootMastered, .vethRootUp, .vethHostUp, .mtuSet, .ipAssigned]) :
    Lawful host cmd fs r := by
  refine lawful_change hcmd hkind (fun hr => ?_) (fun hr => set_veth_flags hr hv hfs)
    fun h => absurd (hfs _ h) (by decide)
  rcases hns with rfl | ⟨rfl, hm⟩
  · exact hr.vethHost_free hv
  · exact hr.moved_free hm

theorem LawfulRun.keep {u : Undo} {undos : List Undo} {cmd : LinkCmd} {reason : String}
    {sets : List Flag} {rest : List Stage} (hu : u ∈ undos) (hsets : ∀ f ∈ sets, f ∈ u.clearFlags)
    (h : Lawful host cmd sets r) (hrest : LawfulRun host rest undos (r.assign sets true)) :
    LawfulRun host (⟨cmd, reason, sets, none⟩ :: rest) undos r := by
  refine ⟨h, Registers.of_mem hu hsets, ?_⟩
  rw [Option.toList_none, List.append_nil]
  exact hrest

theorem LawfulRun.register {u : Undo} {undos : List Undo} {cmd : LinkCmd} {reason : String}
    {sets : List Flag} {rest : List Stage} (hu : u ∉ undos) (hflag : undoFlag u ∈ sets)
    (hsets : ∀ f ∈ sets, f ∈ u.clearFlags) (h : Lawful host cmd sets r)
    (hrest : LawfulRun host rest (undos ++ [u]) (r.assign sets true)) :
    LawfulRun host (⟨cmd, reason, sets, some u⟩ :: rest) undos r :=
  ⟨h, Registers.new hu hflag hsets, hrest⟩

theorem lawfulRun_ip {undos : List Undo} (ip : String) (hv : r.flags .vethCreated = true)
    (hm : r.flags .vethHostNsMoved = true) (hu : .delVeth ∈ undos) :
    LawfulRun host [⟨.addAddr host r.vethHost ip, "static-ip failure", [.ipAssigned], none⟩]
      undos r := by
  refine LawfulRun.keep hu (by decide) ?_ trivial
  exact lawful_vethHost (f := fun l => { l with addrs := l.addrs ++ [ip] }) hv (.inr ⟨rfl, hm⟩)
    (fun _ => rfl) (fun _ => ⟨rfl, rfl, rfl⟩) (by decide)

theorem lawfulRun_mtu {undos : List Undo} (ip : String) (m : Int)
    (hb : r.flags .bridgeCreated = true) (hv : r.flags .vethCreated = true)
    (hm : r.flags .vethHostNsMoved = true) (hu : .delVeth ∈ undos) :
    LawfulRun host
      [⟨.setMtu none r.bridge m, "bridge-mtu failure", [], none⟩,
        ⟨.setMtu none r.vethRoot m, "veth-root-mtu failure", [], none⟩,
        ⟨.setMtu (some host) r.vethHost m, "veth-host-mtu failure", [.mtuSet], none⟩,
        ⟨.addAddr host r.vethHost ip, "static-ip failure", [.ipAssigned], none⟩] undos r := by
  have hkind : ∀ l : NetLink, ({ l with mtu := m } : NetLink).isBridge = l.isBridge ∧
      ({ l with mtu := m } : NetLink).peer = l.peer ∧
      ({ l with mtu := m } : NetLink).master = l.master := fun _ => ⟨rfl, rfl, rfl⟩
  refine LawfulRun.keep hu (by decide) ?_ (LawfulRun.keep hu (by decide) ?_
    (LawfulRun.keep hu (by decide) ?_ (lawfulRun_ip ip hv hm hu)))
  · refine lawful_change (f := fun l => { l with mtu := m }) (fun _ => rfl) hkind
      (fun hr => hr.bridge_free hb) (fun hr => ?_) (by decide)
    exact set_veth_flags hr hv (by decide)
  · exact lawful_vethRoot (f := fun l => { l with mtu := m }) hv (fun _ => rfl) hkind (by decide)
  · exact lawful_vethHost (f := fun l => { l with mtu := m }) hv (.inr ⟨rfl, hm⟩)
      (fun _ => rfl) hkind (by decide)

/-- From the veth pair on: `tail` is what follows its host end's coming up. -/
theorem lawfulRun_pair {undos : List Undo} {tail : List Stage} (hv : r.flags .vethCreated = true)
    (hm : r.flags .vethHostNsMoved = false) (hu : .delVeth ∈ undos)
    (htail : ∀ {r' : BridgeRecord}, SameNames r r' → r'.flags .vethCreated = true →
      r'.flags .vethHostNsMoved = true → r'.flags .bridgeCreated = r.flags .bridgeCreated →
      LawfulRun host tail undos r') :
    LawfulRun host
      (⟨.setMaster r.vethRoot r.bridge, "veth-root-master failure", [.vethRootMastered], none⟩ ::
        ⟨.setUp none r.vethRoot true, "veth-root-up failure", [.vethRootUp], none⟩ ::
        ⟨.setUp none r.vethHost true, "veth-host-up failure", [], none⟩ ::
        ⟨.setNetns r.vethHost host, "veth-host-ns-move failure", [.vethHostNsMoved], none⟩ ::
        ⟨.setUp (some host) r.vethHost true, "veth-host-up-in-ns failure", [.vethHostUp], none⟩ ::
        tail) undos r := by
  have hkind : ∀ l : NetLink, ({ l with up := true } : NetLink).isBridge = l.isBridge ∧
      ({ l with up := true } : NetLink).peer = l.peer ∧
      ({ l with up := true } : NetLink).master = l.master := fun _ => ⟨rfl, rfl, rfl⟩
  refine LawfulRun.keep hu (by decide) (lawful_vethMaster hv) ?_
  refine LawfulRun.keep hu (by decide) ?_ ?_
  · refine lawful_vethRoot (f := fun l => { l with up := true }) ?_ (fun _ => rfl) hkind (by decide)
    exact hv
  refine LawfulRun.keep hu (by decide) ?_ ?_
  · refine lawful_vethHost (f := fun l => { l with up := true }) ?_ (.inl rfl) (fun _ => rfl) hkind
      (by decide)
    exact hv
  refine LawfulRun.keep hu (by decide) ?_ ?_
  · apply lawful_move
    · exact hv
    · exact hm
  refine LawfulRun.keep hu (by decide) ?_ (htail rfl hv rfl rfl)
  refine lawful_vethHost (f := fun l => { l with up := true }) ?_ (.inr ⟨rfl, rfl⟩) (fun _ => rfl)
    hkind (by decide)
  exact hv

/-- From the enslaving on. -/
theorem lawfulRun_enslave {undos : List Undo} {tail : List Stage}
    (hm : r.flags .vethHostNsMoved = false) (hu : .unmaster ∉ undos) (hu' : .delVeth ∉ undos)
    (htail : ∀ {r' : BridgeRecord}, SameNames r r' → r'.flags .vethCreated = true →
      r'.flags .vethHostNsMoved = true → r'.flags .bridgeCreated = r.flags .bridgeCreated →
      LawfulRun host tail (undos ++ [.unmaster] ++ [.delVeth]) r') :
    LawfulRun host
      (⟨.setMaster r.phyIntf r.bridge, "phy-enslave failure", [.phyEnslaved], some .unmaster⟩ ::
        ⟨.addVeth r.vethRoot r.vethHost, "veth creation failure", [.vethCreated], some .delVeth⟩ ::
        ⟨.setMaster r.vethRoot r.bridge, "veth-root-master failure", [.vethRootMastered], none⟩ ::
        ⟨.setUp none r.vethRoot true, "veth-root-up failure", [.vethRootUp], none⟩ ::
        ⟨.setUp none r.vethHost true, "veth-host-up failure", [], none⟩ ::
        ⟨.setNetns r.vethHost host, "veth-host-ns-move failure", [.vethHostNsMoved], none⟩ ::
        ⟨.setUp (some host) r.vethHost true, "veth-host-up-in-ns failure", [.vethHostUp], none⟩ ::
        tail) undos r := by
  refine LawfulRun.register hu (by decide) (by decide) lawful_enslave ?_
  refine LawfulRun.register (by simpa using hu') (by decide) (by decide) lawful_addVeth ?_
  exact lawfulRun_pair rfl hm (by simp) fun hs hv hm' hb => htail hs hv hm' hb

theorem lawfulRun_tail {r' : BridgeRecord} {undos : List Undo} (ip : String) (mtu : Option Int)
    (hs : SameNames r r') (hv : r'.flags .vethCreated = true)
    (hm : r'.flags .vethHostNsMoved = true) (hb : r'.flags .bridgeCreated = true)
    (hu : .delVeth ∈ undos) :
    LawfulRun host
      ((match mtu.filter fun m => m ≠ 0 with
        | none => []
        | some m =>
            [⟨.setMtu none r.bridge m, "bridge-mtu failure", [], none⟩,
              ⟨.setMtu none r.vethRoot m, "veth-root-mtu failure", [], none⟩,
              ⟨.setMtu (some host) r.vethHost m, "veth-host-mtu failure", [.mtuSet], none⟩])
        ++ [⟨.addAddr host r.vethHost ip, "static-ip failure", [.ipAssigned], none⟩]) undos r' := by
  obtain ⟨fl, rfl⟩ : ∃ fl, r' = { r with flags := fl } := ⟨_, hs⟩
  split
  · exact lawfulRun_ip ip hv hm hu
  · exact lawfulRun_mtu ip _ hb hv hm hu

/-- **The stages of an attach are lawful.** -/
theorem lawfulRun_attach (host phyIntf ip : String) (mtu : Option Int) (priorUp : Bool) :
    LawfulRun host (attachStages host ip mtu (BridgeRecord.new host phyIntf priorUp)) [.delBridge]
      ((BridgeRecord.new host phyIntf priorUp).assign [.bridgeCreated] true) := by
  rw [attachStages]
  simp only [List.append_assoc, List.cons_append, List.nil_append]
  refine LawfulRun.keep (u := .delBridge) (by decide) (by decide) (lawful_bridgeUp rfl) ?_
  cases priorUp with
  | true =>
    apply lawfulRun_enslave rfl (by decide) (by decide)
    intro r' hs hv hm hb
    exact lawfulRun_tail ip mtu hs hv hm hb (by decide)
  | false =>
    refine LawfulRun.register (by decide) (by decide) (by decide) (lawful_phyUp rfl) ?_
    apply lawfulRun_enslave rfl (by decide) (by decide)
    intro r' hs hv hm hb
    exact lawfulRun_tail ip mtu hs hv hm hb (by decide)

/-! ## Attach -/

theorem inspectPhy_cases (phyIntf : String) (w : ExtWorld) :
    (∃ err w', inspectPhy phyIntf w = (.error (.raised err), w') ∧ w'.net = w.net ∧
      w'.table = w.table) ∨
    (∃ l w', inspectPhy phyIntf w = (.ok l.up, w') ∧ w.net.links none phyIntf = some l ∧
      truthy l.master = none ∧ w'.net = w.net ∧ w'.table = w.table) := by
  obtain ⟨q, w₁, hq, hnet, htab⟩ : ∃ q w', runQuery w = (.ok q, w') ∧ w'.net = w.net ∧
      w'.table = w.table := ⟨_, _, rfl, rfl, rfl⟩
  obtain ⟨q', w₂, hq', hnet', htab'⟩ : ∃ q w', runQuery w₁ = (.ok q, w') ∧ w'.net = w₁.net ∧
      w'.table = w₁.table := ⟨_, _, rfl, rfl, rfl⟩
  rw [inspectPhy, Op.bind_of_ok hq]
  cases q with
  | some f => exact .inl ⟨_, w₁, rfl, hnet, htab⟩
  | none =>
    simp only
    rw [Op.bind_of_ok (rfl : Op.get w₁ = (.ok w₁, w₁)), hnet]
    cases hl : w.net.links none phyIntf with
    | none => exact .inl ⟨_, w₁, rfl, hnet, htab⟩
    | some l =>
      simp only
      cases hm : truthy l.master with
      | some master => exact .inl ⟨_, w₁, rfl, hnet, htab⟩
      | none =>
        simp only
        rw [Op.bind_of_ok hq']
        cases q' with
        | some f => exact .inl ⟨_, w₂, rfl, hnet'.trans hnet, htab'.trans htab⟩
        | none =>
          simp only
          cases configuredAddr l with
          | some addr => exact .inl ⟨_, w₂, rfl, hnet'.trans hnet, htab'.trans htab⟩
          | none => exact .inr ⟨l, w₂, rfl, rfl, hm, hnet'.trans hnet, htab'.trans htab⟩

theorem attachChecks_inv {env : ExtEnv} {host phyIntf ip' : String} {ip : Option String}
    {table : Dict String BridgeRecord} (h : attachChecks env host phyIntf ip table = .ok ip') :
    (∀ e ∈ table, e.1 ≠ host) ∧ ∀ e ∈ table, e.2.phyIntf ≠ phyIntf := by
  rw [attachChecks] at h
  cases hip : truthy ip with
  | none => rw [hip] at h; cases h
  | some ip₀ =>
    rw [hip] at h
    cases herr : staticIpError env.ipInterfaceError ip₀ with
    | some msg => simp only [herr] at h; cases h
    | none =>
      simp only [herr] at h
      rw [ite_eq_iff] at h
      obtain ⟨-, h⟩ | ⟨-, h⟩ := h
      · cases h
      rw [ite_eq_iff] at h
      obtain ⟨-, h⟩ | ⟨hkey, h⟩ := h
      · cases h
      have hout : ∀ e ∈ table, e.1 ≠ host := by
        rw [← Dict.get?_eq_none]
        simpa using hkey
      refine ⟨hout, fun e he hphy => ?_⟩
      -- the search over the records would have found this one
      cases hfind : table.find? fun p => p.2.phyIntf = phyIntf ∧ p.1 ≠ host with
      | some p => rw [hfind] at h; cases h
      | none =>
        have hnot := List.find?_eq_none.mp hfind e he
        exact hnot (by simp [hphy, hout e he])

theorem master_none_of_truthy {m : Option String} (h : truthy m = none) : m = none ∨ m = some "" := by
  cases m with
  | none => exact .inl rfl
  | some s =>
    by_cases hs : s = ""
    · exact .inr (by rw [hs])
    · simp [truthy, Option.filter, hs] at h

/-- A record made for an interface nobody owns is true of what the ledger starts from. -/
theorem new_true {base : LinkNet} {recs : Records} {phyIntf : String} {l : NetLink}
    (hL : Ledger base recs net) (hl : net.links none phyIntf = some l)
    (hm : truthy l.master = none) (howner : ∀ e ∈ recs, e.2.phyIntf ≠ phyIntf) :
    TrueRecord base host (BridgeRecord.new host phyIntf l.up) := by
  have hkept : ∀ {l₀}, base.links none phyIntf = some l₀ → l.up = l₀.up ∧ l.master = l₀.master := by
    intro l₀ h₀
    obtain ⟨k, hk, hkept⟩ := hL.accounts.kept h₀
    rw [hl, Option.some.injEq] at hk
    subst hk
    constructor
    · by_contra hne
      obtain ⟨-, -, h, r, hmem, hphy, -⟩ := hkept.up hne
      exact howner _ hmem hphy
    · by_contra hne
      obtain ⟨-, h, r, hmem, hphy, -⟩ := hkept.master hne
      exact howner _ hmem hphy
  refine ⟨⟨rfl, rfl, rfl⟩, ?_, ?_, ?_, ?_, ?_, fun h₀ => (hkept h₀).1.symm, ?_, ?_, ?_⟩
  case refine_5 =>
    intro l₀ h₀
    rcases master_none_of_truthy hm with hnone | hempty
    · exact (hkept h₀).2 ▸ hnone
    · exact absurd rfl (hL.net_sound.master_link hl hempty).1
  all_goals
    intros
    rename_i hf
    cases hf

/-- **The bridge is there**, and its record says so. -/
theorem addBridge_carries (hexec : net.exec (.addBridge r.bridge) = .ok net') :
    Carries host net r net' (r.assign [.bridgeCreated] true) := by
  intro base pre post hL
  have hr := hL.records mem_here
  have hfree : net.links none r.bridge = none := by
    simp only [LinkNet.exec] at hexec
    split at hexec
    · cases hexec
    · assumption
  have hset : TrueRecord base host (r.assign [.bridgeCreated] true) := by
    refine set_true hr (fun _ => hL.base_free hfree) ?_ ?_ ?_ ?_ ?_
    all_goals first
      | intro h; exact absurd h (by decide)
      | intro f hf hin; exact absurd hin (List.mem_singleton.mp hf ▸ by decide)
  have hL' := hL.assign hset fun h => by cases h
  exact hL'.add_bridge mem_here rfl hexec

/-- **What an attach does.** It raises and has changed nothing; or it has made a record of its
    own, whose ledger it has kept, and either completes or is aborted. -/
theorem attach_cases (env : ExtEnv) (host phyIntf : String) (ip : Option String)
    (mtu : Option Int) (w : ExtWorld) :
    (∃ err w', attachExternalViaBridge env host phyIntf ip mtu w = (.error err, w') ∧
      w'.net = w.net ∧ w'.table = w.table) ∨
    (∃ l res w' rc, attachExternalViaBridge env host phyIntf ip mtu w = (res, w') ∧
      (∀ e ∈ w.table, e.1 ≠ host) ∧ (∀ e ∈ w.table, e.2.phyIntf ≠ phyIntf) ∧
      w.net.links none phyIntf = some l ∧ truthy l.master = none ∧ rc.phyIntf = phyIntf ∧
      Carries host w.net (BridgeRecord.new host phyIntf l.up) w'.net rc ∧
      ((res = .ok () ∧ w'.table = w.table ++ [(host, rc)]) ∨
        ∃ err, res = .error err ∧
          w'.table = w.table ++ (if rc.hasOutstandingState then [(host, rc)] else []) ∧
          (err.rollbackFailures = [] → rc.hasOutstandingState = false))) := by
  rw [attachExternalViaBridge, Op.bind_of_ok (rfl : Op.get w = (.ok w, w))]
  cases hchecks : attachChecks env host phyIntf ip w.table with
  | error err => exact .inl ⟨_, w, rfl, rfl, rfl⟩
  | ok ip' =>
    obtain ⟨hout, howner⟩ := attachChecks_inv hchecks
    simp only
    rcases inspectPhy_cases phyIntf w with
      ⟨err, w₁, hrun, hnet, htab⟩ | ⟨l, w₁, hrun, hl, hm, hnet, htab⟩
    · exact .inl ⟨_, w₁, Op.bind_of_error hrun, hnet, htab⟩
    · rw [Op.bind_of_ok hrun]
      have ht₁ : w₁.table.set host (BridgeRecord.new host phyIntf l.up)
          = w.table ++ [(host, BridgeRecord.new host phyIntf l.up)] := by
        rw [htab, Dict.set_of_not_mem _ hout]
      rw [Op.bind_of_ok (Op.modify_apply _ _), ht₁]
      rcases runLink_cases (.addBridge (BridgeRecord.new host phyIntf l.up).bridge)
          { w₁ with table := w.table ++ [(host, BridgeRecord.new host phyIntf l.up)] } with
        ⟨f, w₂, hrun₂, hnet₂, htab₂⟩ | ⟨w₂, hrun₂, hexec, htab₂⟩
      · left
        rw [Op.bind_of_ok hrun₂]
        refine ⟨_, { w₂ with table := w₂.table.pop host }, rfl, hnet₂.trans hnet, ?_⟩
        show w₂.table.pop host = w.table
        rw [htab₂, Dict.pop_append_of_not_mem _ hout]
      · right
        rw [Op.bind_of_ok hrun₂]
        simp only
        rw [Op.bind_of_ok (updateRecord_apply _ htab₂ hout)]
        have hcarry : Carries host w.net (BridgeRecord.new host phyIntf l.up) w₂.net
            ((BridgeRecord.new host phyIntf l.up).assign [.bridgeCreated] true) := by
          rw [← hnet]
          exact addBridge_carries hexec
        have hback : Backed ((BridgeRecord.new host phyIntf l.up).assign [.bridgeCreated] true)
            [.delBridge] := by
          refine ⟨by decide, fun hu => ?_, fun {f} hf => ⟨.delBridge, by decide, ?_⟩⟩
          · cases List.mem_singleton.mp hu
            rfl
          · rw [assign_flags] at hf
            split at hf
            · exact List.mem_singleton.mp ‹_› ▸ by decide
            · cases hf
        obtain ⟨res, w', rc, hrun', hsame, hcarry', hres⟩ :=
          runStages_spec hout (attachStages host ip' mtu (BridgeRecord.new host phyIntf l.up))
            (w := { w₂ with table := w.table
              ++ [(host, (BridgeRecord.new host phyIntf l.up).assign [.bridgeCreated] true)] })
            rfl rfl hback (fun hv => by cases hv) (lawfulRun_attach host phyIntf ip' mtu l.up)
        refine ⟨l, res, w', rc, hrun', hout, howner, hl, hm, ?_, hcarry.trans hcarry', hres⟩
        rw [hsame]
        rfl

/-! ## Cleanup -/

/-- The gates of a record are its undo actions and the bridge's going down. -/
theorem gate_carries {gate : Gate} (hmem : gate ∈ cleanupGates r₀) (hsame : SameNames r₀ r)
    (hf : r.flags gate.flag = true) (hexec : net.exec gate.cmd = .ok net') :
    gate.flag ∈ gate.clears ∧ Carries host net r net' (r.assign gate.clears false) := by
  obtain ⟨fl, rfl⟩ : ∃ fl, r = { r₀ with flags := fl } := ⟨_, hsame⟩
  simp only [cleanupGates, List.mem_cons, List.not_mem_nil, or_false] at hmem
  rcases hmem with rfl | rfl | rfl | rfl | rfl
  · exact ⟨by simp [vethFlags], undo_carries .delVeth hf hexec⟩
  · exact ⟨by simp, undo_carries .unmaster hf hexec⟩
  · exact ⟨by simp, undo_carries .phyDown hf hexec⟩
  · exact ⟨by simp, bridgeDown_carries hf hexec⟩
  · exact ⟨by simp, undo_carries .delBridge hf hexec⟩

theorem runGates_spec (host : String) :
    ∀ (gates : List Gate) {r : BridgeRecord} (w : ExtWorld), (∀ gate ∈ gates, gate ∈ cleanupGates r₀) →
      SameNames r₀ r → ∃ r' failures w', runGates gates r w = (.ok (r', failures), w') ∧
        w'.table = w.table ∧ SameNames r₀ r' ∧ Carries host w.net r w'.net r' ∧
        (∀ f, r'.flags f = true → r.flags f = true) ∧
        (failures = [] → ∀ gate ∈ gates, r'.flags gate.flag = false)
  | [], r, w, _, hsame =>
    ⟨r, [], w, rfl, rfl, hsame, Carries.refl, fun _ hf => hf, fun _ gate h => by cases h⟩
  | gate :: rest, r, w, hgates, hsame => by
    have hrest : ∀ g ∈ rest, g ∈ cleanupGates r₀ := fun g hg => hgates g (List.mem_cons_of_mem _ hg)
    by_cases hflag : r.flags gate.flag = true
    · rcases runLink_cases gate.cmd w with ⟨f, w₁, hrun, hnet, htab⟩ | ⟨w₁, hrun, hexec, htab⟩
      · obtain ⟨r', failures, w', hrun', ht', hsame', hcarry, hmono, -⟩ :=
          runGates_spec host rest w₁ hrest hsame
        refine ⟨r', (gate.label, strStrip f.stderr) :: failures, w', ?_, ht'.trans htab, hsame', ?_,
          hmono, fun h => by cases h⟩
        · rw [runGates, if_pos hflag, Op.bind_of_ok hrun]
          simp only
          rw [Op.bind_of_ok hrun']
          rfl
        · rw [hnet] at hcarry
          exact hcarry
      · obtain ⟨hin, hstep⟩ : gate.flag ∈ gate.clears ∧
            Carries host w.net r w₁.net (r.assign gate.clears false) :=
          gate_carries (hgates gate List.mem_cons_self) hsame hflag hexec
        obtain ⟨r', failures, w', hrun', ht', hsame', hcarry, hmono, hclear⟩ :=
          runGates_spec host rest w₁ hrest (hsame.assign gate.clears false)
        have hmono' : ∀ f, r'.flags f = true → r.flags f = true ∧ f ∉ gate.clears := by
          intro f hf
          have hf' := hmono f hf
          rw [assign_flags] at hf'
          split at hf'
          · cases hf'
          · exact ⟨hf', ‹_›⟩
        refine ⟨r', failures, w', ?_, ht'.trans htab, hsame', hstep.trans hcarry,
          fun f hf => (hmono' f hf).1, fun hnil g hg => ?_⟩
        · rw [runGates, if_pos hflag, Op.bind_of_ok hrun]
          exact hrun'
        · rcases List.mem_cons.mp hg with rfl | hg
          · rw [Bool.eq_false_iff]
            exact fun hf => (hmono' _ hf).2 hin
          · exact hclear hnil g hg
    · obtain ⟨r', failures, w', hrun', ht', hsame', hcarry, hmono, hclear⟩ :=
        runGates_spec host rest w hrest hsame
      refine ⟨r', failures, w', ?_, ht', hsame', hcarry, hmono, fun hnil g hg => ?_⟩
      · rw [runGates, if_neg hflag]
        exact hrun'
      · rcases List.mem_cons.mp hg with rfl | hg
        · rw [Bool.eq_false_iff]
          exact fun hf => hflag (hmono _ hf)
        · exact hclear hnil g hg

/-- When every gate is passed, no flag is left. -/
theorem discharged_of_gates {base : LinkNet} (hr : TrueRecord base host r)
    (hgates : ∀ gate ∈ cleanupGates r₀, r.flags gate.flag = false) :
    r.hasOutstandingState = false := by
  simp only [cleanupGates, List.forall_mem_cons, List.not_mem_nil, false_imp_iff, implies_true,
    and_true] at hgates
  obtain ⟨hveth, henslaved, hup, hbridgeUp, hbridge⟩ := hgates
  have hvethFlags : ∀ f ∈ vethFlags, r.flags f = false := by
    intro f hin
    rw [Bool.eq_false_iff]
    intro hf
    rw [hr.veth_flags hin hf] at hveth
    cases hveth
  rw [BridgeRecord.hasOutstandingState, List.any_eq_false]
  intro f _
  rw [Bool.not_eq_true]
  cases f with
  | bridgeCreated => exact hbridge
  | bridgeUp => exact hbridgeUp
  | phyUpChanged => exact hup
  | phyEnslaved => exact henslaved
  | vethCreated => exact hveth
  | _ => exact hvethFlags _ (by decide)

/-- A host and the interface it owns. -/
def owner (e : String × BridgeRecord) : String × String := (e.1, e.2.phyIntf)

/-- **The loop over the records.** -/
theorem cleanupRecords_spec {base : LinkNet} :
    ∀ (recs : Records) {pre : Records} (w : ExtWorld), Ledger base (pre ++ recs) w.net →
      ∃ kept failures w', cleanupRecords recs w = (.ok (kept, failures), w') ∧
        w'.table = w.table ∧ Ledger base (pre ++ kept) w'.net ∧
        (kept.map owner).Sublist (recs.map owner) ∧ (failures = [] → kept = [])
  | [], pre, w, hL => ⟨[], [], w, rfl, rfl, hL, List.Sublist.refl _, fun _ => rfl⟩
  | (host, r) :: rest, pre, w, hL => by
    obtain ⟨r', failures, w₁, hrun, ht, hsame, hcarry, -, hclear⟩ :=
      runGates_spec host (cleanupGates r) w (fun _ h => h) (rfl : SameNames r r)
    have hL₁ := hcarry hL
    have hphy : r'.phyIntf = r.phyIntf := by rw [hsame]
    have hdone : failures = [] → r'.hasOutstandingState = false := fun hnil =>
      discharged_of_gates (hL₁.records mem_here) (hclear hnil)
    by_cases hstay : r'.hasOutstandingState = true
    · have hL₂ : Ledger base ((pre ++ [(host, r')]) ++ rest) w₁.net := by
        rw [List.append_assoc]
        exact hL₁
      obtain ⟨kept, failures', w', hrun', ht', hL', hsub, hclear'⟩ :=
        cleanupRecords_spec rest w₁ hL₂
      refine ⟨(host, r') :: kept, failures ++ failures', w', ?_, ht'.trans ht, ?_, ?_, ?_⟩
      · rw [cleanupRecords, Op.bind_of_ok hrun]
        simp only
        rw [Op.bind_of_ok hrun']
        simp only [if_pos hstay]
        rfl
      · rw [List.append_assoc] at hL'
        exact hL'
      · rw [List.map_cons, List.map_cons, owner, owner, hphy]
        exact hsub.cons_cons _
      · intro hnil
        rw [hdone (List.append_eq_nil_iff.mp hnil).1] at hstay
        cases hstay
    · obtain ⟨kept, failures', w', hrun', ht', hL', hsub, hclear'⟩ :=
        cleanupRecords_spec rest w₁ (hL₁.drop_record (Bool.eq_false_iff.mpr hstay))
      refine ⟨kept, failures ++ failures', w', ?_, ht'.trans ht, hL', ?_, ?_⟩
      · rw [cleanupRecords, Op.bind_of_ok hrun]
        simp only
        rw [Op.bind_of_ok hrun']
        simp only [if_neg hstay]
        rfl
      · rw [List.map_cons]
        exact hsub.cons _
      · intro hnil
        exact hclear' (List.append_eq_nil_iff.mp hnil).2

/-- **What a cleanup does.** It keeps the ledger; if it returns, no record is left. -/
theorem cleanup_cases {base : LinkNet} (w : ExtWorld) (hL : Ledger base w.table w.net) :
    ∃ res w', cleanupExternalBridges w = (res, w') ∧ Ledger base w'.table w'.net ∧
      (w'.table.map owner).Sublist (w.table.map owner) ∧ (res = .ok () → w'.table = []) := by
  obtain ⟨kept, failures, w₁, hrun, -, hL', hsub, hclear⟩ :=
    cleanupRecords_spec w.table w (show Ledger base ([] ++ w.table) w.net from hL)
  rw [cleanupExternalBridges, Op.bind_of_ok (rfl : Op.get w = (.ok w, w)), Op.bind_of_ok hrun]
  simp only
  rw [Op.bind_of_ok (Op.modify_apply _ _)]
  cases failures with
  | nil => exact ⟨.ok (), { w₁ with table := kept }, rfl, hL', hsub, fun _ => hclear rfl⟩
  | cons e failures =>
    exact ⟨_, { w₁ with table := kept }, rfl, hL', hsub, fun h => by cases h⟩

/-! ## Runs -/

/-- A call of the module. -/
inductive ExtCall where
  | attach (env : ExtEnv) (host phyIntf : String) (ip : Option String) (mtu : Option Int)
  | cleanup

def ExtCall.op : ExtCall → ExtOp Unit
  | .attach env host phyIntf ip mtu => attachExternalViaBridge env host phyIntf ip mtu
  | .cleanup => cleanupExternalBridges

/-- What is left between calls: the network, and the module's table. -/
structure ExtState where
  net : LinkNet
  table : Dict String BridgeRecord

/-- The state a call runs in, with what its commands are answered. -/
def ExtState.world (s : ExtState) (answers : List (Option CmdFailure)) : ExtWorld :=
  ⟨s.net, s.table, answers⟩

/-- One call, whether it returns or raises. -/
def ExtState.step (s : ExtState) (a : ExtCall × List (Option CmdFailure)) : Option ExtState :=
  let w := (a.1.op (s.world a.2)).2
  some ⟨w.net, w.table⟩

/-- **The law of external bridges**, in a state reached from the network `net₀` and an empty
    table. -/
structure BridgeLaw (net₀ : LinkNet) (s : ExtState) : Prop where
  /-- A record is kept under the host its names are made from. -/
  named : (∀ {h r}, (h, r) ∈ s.table → NamedFor h r) ∧ (s.table.map Prod.fst).Nodup
  /-- The records account for every mutation in effect. -/
  covered : Accounts net₀ s.table s.net
  /-- No two records own the same interface. -/
  owners : (s.table.map fun e => e.2.phyIntf).Nodup
  /-- A record has its interface's prior state. -/
  priors : ∀ {h r l₀}, (h, r) ∈ s.table → net₀.links none r.phyIntf = some l₀ →
    l₀.up = r.priorUp ∧ l₀.master = none
  /-- An attach that raises with nothing left to roll back has changed nothing. -/
  atomic : ∀ {env host phyIntf ip mtu answers err w'},
    attachExternalViaBridge env host phyIntf ip mtu (s.world answers) = (.error err, w') →
    err.rollbackFailures = [] → w'.net = s.net ∧ w'.table = s.table
  /-- A cleanup that returns has put the network back. -/
  restored : ∀ {answers w'}, cleanupExternalBridges (s.world answers) = (.ok (), w') →
    w'.table = [] ∧ w'.net = net₀

/-- What every call preserves. -/
structure Owned (net₀ : LinkNet) (s : ExtState) : Prop where
  ledger : Ledger net₀ s.table s.net
  keys : (s.table.map Prod.fst).Nodup
  phys : (s.table.map fun e => e.2.phyIntf).Nodup

theorem keys_of_owner (recs : Records) : recs.map Prod.fst = (recs.map owner).map Prod.fst := by
  rw [List.map_map]
  rfl

theorem phys_of_owner (recs : Records) :
    (recs.map fun e => e.2.phyIntf) = (recs.map owner).map Prod.snd := by
  rw [List.map_map]
  rfl

theorem nodup_concat {α : Type} {xs : List α} {x : α} (h : xs.Nodup) (hx : x ∉ xs) :
    (xs ++ [x]).Nodup := by
  refine List.Nodup.append h (List.nodup_singleton x) ?_
  intro y hy hy'
  rw [List.mem_singleton] at hy'
  exact hx (hy' ▸ hy)

theorem Owned.attach {net₀ : LinkNet} {s : ExtState} (hs : Owned net₀ s) (env : ExtEnv)
    (host phyIntf : String) (ip : Option String) (mtu : Option Int)
    (answers : List (Option CmdFailure)) {w' : ExtWorld} {res : Except ExtErr Unit}
    (hrun : attachExternalViaBridge env host phyIntf ip mtu (s.world answers) = (res, w')) :
    Owned net₀ ⟨w'.net, w'.table⟩ := by
  rcases attach_cases env host phyIntf ip mtu (s.world answers) with
    ⟨err, w₁, hrun₁, hnet, htab⟩ | ⟨l, res₁, w₁, rc, hrun₁, hout, howner, hl, hm, hphy, hcarry, hres⟩
  · cases hrun.symm.trans hrun₁
    rw [hnet, htab]
    exact hs
  · cases hrun.symm.trans hrun₁
    have hL : Ledger net₀ (s.table ++ [(host, rc)]) w'.net :=
      hcarry (hs.ledger.add_record (new_true hs.ledger hl hm howner))
    have hfull : Owned net₀ ⟨w'.net, s.table ++ [(host, rc)]⟩ := by
      refine ⟨hL, ?_, ?_⟩
      · simp only [List.map_append, List.map_cons, List.map_nil]
        refine nodup_concat hs.keys fun hmem => ?_
        obtain ⟨e, he, heq⟩ := List.mem_map.mp hmem
        exact hout e he heq
      · simp only [List.map_append, List.map_cons, List.map_nil]
        refine nodup_concat hs.phys fun hmem => ?_
        obtain ⟨e, he, heq⟩ := List.mem_map.mp hmem
        exact howner e he (heq.trans hphy)
    rcases hres with ⟨-, htab⟩ | ⟨err, -, htab, -⟩
    · rw [htab]
      exact hfull
    · rw [htab]
      split
      · exact hfull
      · rename_i hdone
        rw [List.append_nil]
        refine ⟨?_, hs.keys, hs.phys⟩
        have := hL.drop_record (Bool.eq_false_iff.mpr hdone)
        rwa [List.append_nil] at this

theorem Owned.step {net₀ : LinkNet} {s s' : ExtState} {a : ExtCall × List (Option CmdFailure)}
    (hs : Owned net₀ s) (h : s.step a = some s') : Owned net₀ s' := by
  obtain ⟨call, answers⟩ := a
  cases h
  cases call with
  | attach env host phyIntf ip mtu => exact hs.attach env host phyIntf ip mtu answers rfl
  | cleanup =>
    obtain ⟨res, w', hrun, hL, hsub, -⟩ := cleanup_cases (s.world answers) hs.ledger
    simp only [ExtCall.op, hrun]
    refine ⟨hL, ?_, ?_⟩
    · have hkeys := hs.keys
      rw [keys_of_owner] at hkeys ⊢
      exact hkeys.sublist (hsub.map _)
    · have hphys := hs.phys
      rw [phys_of_owner] at hphys ⊢
      exact hphys.sublist (hsub.map _)

theorem Owned.law {net₀ : LinkNet} {s : ExtState} (hs : Owned net₀ s) : BridgeLaw net₀ s where
  named := ⟨fun hmem => (hs.ledger.records hmem).named, hs.keys⟩
  covered := hs.ledger.accounts
  owners := hs.phys
  priors := fun hmem h₀ =>
    ⟨(hs.ledger.records hmem).phy_up h₀, (hs.ledger.records hmem).phy_master h₀⟩
  atomic := by
    intro env host phyIntf ip mtu answers err w' hrun hnil
    rcases attach_cases env host phyIntf ip mtu (s.world answers) with
      ⟨err₁, w₁, hrun₁, hnet, htab⟩ | ⟨l, res₁, w₁, rc, hrun₁, hout, howner, hl, hm, hphy, hcarry, hres⟩
    · cases hrun.symm.trans hrun₁
      exact ⟨hnet, htab⟩
    · cases hrun.symm.trans hrun₁
      rcases hres with ⟨h, -⟩ | ⟨err₁, h, htab, hclear⟩
      · cases h
      · cases h
        -- the ledger of this attach alone, from the network before it
        have hL₀ : Ledger s.net [] s.net := Ledger.refl hs.ledger.net_sound
        have hL : Ledger s.net ([] ++ [(host, rc)]) w'.net :=
          hcarry (hL₀.add_record (new_true hL₀ hl hm fun e he => by cases he))
        refine ⟨(hL.drop_record (hclear hnil)).eq_of_nil, ?_⟩
        rw [htab, hclear hnil]
        exact List.append_nil _
  restored := by
    intro answers w' hrun
    obtain ⟨res, w₁, hrun₁, hL, -, hclear⟩ := cleanup_cases (s.world answers) hs.ledger
    cases hrun.symm.trans hrun₁
    have htab := hclear rfl
    rw [htab] at hL
    exact ⟨htab, hL.eq_of_nil⟩

/-- **External bridge transactions.** After any sequence of calls, with any pattern of command
    failures, the table accounts for every difference from the network the calls started in. -/
theorem external_bridges_accounted {net₀ : LinkNet} (hsound : SoundNet net₀)
    {calls : List (ExtCall × List (Option CmdFailure))} {s : ExtState}
    (h : run ExtState.step ⟨net₀, []⟩ calls = some s) : BridgeLaw net₀ s := by
  have hinit : Owned net₀ ⟨net₀, []⟩ := ⟨Ledger.refl hsound, List.nodup_nil, List.nodup_nil⟩
  exact (run_inv (fun _ _ _ => Owned.step) hinit h).law

/-- One idle interface, down. -/
def ethNet : LinkNet where
  links ns n := if ns = none ∧ n = "eth0" then some (freshLink false none) else none

/-- An attach that fails at its fourth command and cannot take the bridge back. -/
def stuckAttach : ExtCall × List (Option CmdFailure) :=
  (.attach ⟨["h1"], fun _ => none⟩ "h1" "eth0" (some "10.0.0.2/24") none,
    [none, none, none, none, none, some fileExists, none, some notSupported])

/-- The bridge stays on the books. -/
theorem bridges_accounted_stuckAttach :
    SoundNet ethNet ∧ ∃ s, run ExtState.step ⟨ethNet, []⟩ [stuckAttach] = some s ∧
      s.table.map owner = [("h1", "eth0")] ∧ BridgeLaw ethNet s := by
  have hsound : SoundNet ethNet := by
    have hlink : ∀ {ns n l}, ethNet.links ns n = some l → l = freshLink false none := by
      intro ns n l h
      simp only [ethNet] at h
      split at h
      · exact (Option.some.inj h).symm
      · cases h
    refine ⟨fun h hm => ?_, fun h hp => ?_, fun h _ => ?_⟩
    · rw [hlink h] at hm
      cases hm
    · rw [hlink h] at hp
      cases hp
    · rw [hlink h]
      rfl
  refine ⟨hsound, _, rfl, by decide +kernel, ?_⟩
  exact external_bridges_accounted hsound
    (show run ExtState.step ⟨ethNet, []⟩ [stuckAttach] = some _ from rfl)

end Proof
end CeforeEmu
