import Mathlib.Tactic
import CeforeEmu.Runtime.FailureManager

/-!
# Flapping is orderly

Both failure modes keep one book: the set of hosts that are down, what the `FlapState` shows of
it, and the commands sent. Four entries can be made in it (`FlapBook.add`, `FlapBook.down`,
`FlapBook.up`, `FlapBook.clear`), each under a condition, and as long as the conditions are met the
commands of a host alternate and a host that is down is shown. What remains is a matter of who may
write about which host. A host in the set belongs to one party, to the worker until it has started
the timer and to that timer afterwards, and only its party writes about it: the worker skips the
hosts it finds in the set, and a timer takes its hosts out of it last.
-/

set_option autoImplicit false

namespace CeforeEmu
namespace Proof

open CeforeEmu.Lib CeforeEmu.Core CeforeEmu.Runtime

/-! ## Commands of one host -/

def FlapCmd.other : FlapCmd → FlapCmd
  | .down => .up
  | .up => .down

/-- The commands alternate, and the first is this one. -/
def AlternatesFrom : FlapCmd → List FlapCmd → Prop
  | _, [] => True
  | next, cmd :: cmds => cmd = next ∧ AlternatesFrom (FlapCmd.other next) cmds

/-- The commands attempted at a host. -/
def commandsAt (attempts : List Attempt) (host : ℤ) : List FlapCmd :=
  (attempts.filter fun a => a.host = host).map (·.cmd)

/-- The last command attempted at a host is `down`. -/
def LastDown (attempts : List Attempt) (host : ℤ) : Prop :=
  (commandsAt attempts host).getLast? = some .down

theorem commandsAt_snoc (attempts : List Attempt) (a : Attempt) (host : ℤ) :
    commandsAt (attempts ++ [a]) host
      = commandsAt attempts host ++ if a.host = host then [a.cmd] else [] := by
  by_cases h : a.host = host <;> simp [commandsAt, h]

theorem lastDown_snoc_self (attempts : List Attempt) (a : Attempt) :
    LastDown (attempts ++ [a]) a.host ↔ a.cmd = .down := by
  simp [LastDown, commandsAt_snoc]

theorem lastDown_snoc_ne {attempts : List Attempt} {a : Attempt} {host : ℤ} (h : host ≠ a.host) :
    LastDown (attempts ++ [a]) host ↔ LastDown attempts host := by
  rw [LastDown, commandsAt_snoc, if_neg h.symm, List.append_nil]
  rfl

theorem alternatesFrom_snoc : ∀ {cmds : List FlapCmd} {first cmd : FlapCmd},
    AlternatesFrom first cmds → cmd = (cmds.getLast?.map FlapCmd.other).getD first →
      AlternatesFrom first (cmds ++ [cmd])
  | [], first, cmd, _, hcmd => ⟨hcmd, trivial⟩
  | c :: cmds, first, cmd, h, hcmd => by
    obtain ⟨rfl, hrest⟩ := h
    refine ⟨rfl, alternatesFrom_snoc hrest ?_⟩
    cases cmds with
    | nil => exact hcmd
    | cons c' cmds =>
      rw [List.getLast?_cons_cons] at hcmd
      rw [List.getLast?_eq_some_getLast (List.cons_ne_nil c' cmds)] at hcmd ⊢
      exact hcmd

/-! ## The book -/

/-- The commands of every host alternate, a host whose last one is `down` is in the set, and the
    `FlapState` shows the set. -/
structure FlapBook (active : List ℤ) (state : FlapState) (attempts : List Attempt) : Prop where
  alternates : ∀ host, AlternatesFrom .down (commandsAt attempts host)
  active_of_down : ∀ host, LastDown attempts host → host ∈ active
  shown : ∀ host, host ∈ state.snapshot ↔ host ∈ active

theorem FlapBook.init : FlapBook [] .init [] where
  alternates _ := trivial
  active_of_down host h := by simp [LastDown, commandsAt] at h
  shown host := Iff.rfl

theorem mem_addHost {hosts : List ℤ} {host h : ℤ} : h ∈ addHost hosts host ↔ h ∈ hosts ∨ h = host := by
  rw [addHost]
  split
  · rename_i hmem
    constructor
    · exact .inl
    · rintro (h | rfl)
      · exact h
      · exact hmem
  · rw [List.mem_append, List.mem_singleton]

theorem mem_snapshot_update (state : FlapState) (hosts : List ℤ) (lastDown : Option ℤ) (host : ℤ) :
    host ∈ (state.update hosts lastDown).snapshot ↔ host ∈ hosts :=
  (List.perm_insertionSort _ hosts).mem_iff

section Book

variable {active : List ℤ} {state : FlapState} {attempts : List Attempt}
  (h : FlapBook active state attempts)
include h

theorem FlapBook.add (host : ℤ) (lastDown : Option ℤ) :
    FlapBook (addHost active host) (state.update (addHost active host) lastDown) attempts where
  alternates := h.alternates
  active_of_down x hx := mem_addHost.mpr (.inl (h.active_of_down x hx))
  shown := mem_snapshot_update _ _ _

theorem FlapBook.clear (hosts : List ℤ) (hup : ∀ host ∈ hosts, ¬ LastDown attempts host)
    (lastDown : Option ℤ) {active' : List ℤ} (hactive : ∀ x, x ∈ active' ↔ x ∈ active ∧ x ∉ hosts) :
    FlapBook active' (state.update active' lastDown) attempts where
  alternates := h.alternates
  active_of_down x hx := (hactive x).mpr ⟨h.active_of_down x hx, fun hmem => hup x hmem hx⟩
  shown := mem_snapshot_update _ _ _

theorem FlapBook.snoc {a : Attempt} (hactive : a.host ∈ active)
    (hcmd : a.cmd = .down ↔ ¬ LastDown attempts a.host) :
    FlapBook active state (attempts ++ [a]) where
  alternates host := by
    rw [commandsAt_snoc]
    by_cases hhost : a.host = host
    · subst hhost
      rw [if_pos rfl]
      refine alternatesFrom_snoc (h.alternates _) ?_
      rw [LastDown] at hcmd
      cases hlast : (commandsAt attempts a.host).getLast? with
      | none =>
        rw [hlast] at hcmd
        simpa using hcmd
      | some last =>
        rw [hlast] at hcmd
        cases last with
        | down =>
          have hnot : a.cmd ≠ .down := fun hd => hcmd.mp hd rfl
          cases hc : a.cmd with
          | down => exact absurd hc hnot
          | up => rfl
        | up => exact hcmd.mpr fun hd => by cases hd
    · rw [if_neg hhost, List.append_nil]
      exact h.alternates host
  active_of_down host hdown := by
    by_cases hhost : host = a.host
    · exact hhost ▸ hactive
    · exact h.active_of_down host ((lastDown_snoc_ne hhost).mp hdown)
  shown := h.shown

theorem FlapBook.down {host : ℤ} (hactive : host ∈ active) (hup : ¬ LastDown attempts host)
    (cycle : ℕ) : FlapBook active state (attempts ++ [⟨host, .down, cycle⟩]) :=
  h.snoc hactive ⟨fun _ => hup, fun _ => rfl⟩

theorem FlapBook.up {host : ℤ} (hdown : LastDown attempts host) (cycle : ℕ) :
    FlapBook active state (attempts ++ [⟨host, .up, cycle⟩]) :=
  h.snoc (h.active_of_down host hdown) ⟨fun hc => (by cases hc), fun hc => absurd hdown hc⟩

end Book

theorem split_at {α : Type} {l : List α} {i : ℕ} {t : α} (h : l[i]? = some t) :
    ∃ l₁ l₂, l = l₁ ++ t :: l₂ ∧ l.eraseIdx i = l₁ ++ l₂ ∧ ∀ t', l.set i t' = l₁ ++ t' :: l₂ := by
  induction l generalizing i with
  | nil => simp at h
  | cons x l ih =>
    cases i with
    | zero =>
      simp only [List.getElem?_cons_zero, Option.some.injEq] at h
      subst h
      exact ⟨[], l, rfl, rfl, fun _ => rfl⟩
    | succ i =>
      rw [List.getElem?_cons_succ] at h
      obtain ⟨l₁, l₂, hl, herase, hset⟩ := ih h
      refine ⟨x :: l₁, l₂, by rw [hl]; rfl, ?_, fun t' => ?_⟩
      · rw [List.eraseIdx_cons_succ, herase]
        rfl
      · rw [List.set_cons_succ, hset]
        rfl

/-! ## The periodic mode -/

/-- What the worker knows where it is. -/
def FlapPcSound (p : FlapParams) (s : Flap) : FlapPc → Prop
  | .top => True
  | .downing hosts => hosts.Nodup ∧ ∀ h ∈ hosts, h ∈ p.hostIds ∧ h ∉ s.activeDown
  | .marking host rest =>
      (host :: rest).Nodup ∧ ∀ h ∈ host :: rest, h ∈ p.hostIds ∧ h ∉ s.activeDown
  | .sending host rest =>
      ((host :: rest).Nodup ∧ host ∈ p.hostIds ∧ ∀ h ∈ rest, h ∈ p.hostIds ∧ h ∉ s.activeDown) ∧
        host ∈ s.activeDown ∧ host ∉ s.timers.map (·.host) ∧ ¬ LastDown s.attempts host
  | .arming host rest =>
      ((host :: rest).Nodup ∧ host ∈ p.hostIds ∧ ∀ h ∈ rest, h ∈ p.hostIds ∧ h ∉ s.activeDown) ∧
        host ∈ s.activeDown ∧ host ∉ s.timers.map (·.host) ∧ LastDown s.attempts host
  | .finished => True

/-- The invariant of `periodic_host_flap`. -/
structure FlapInv (p : FlapParams) (s : Flap) : Prop where
  orderly : FlapBook s.activeDown s.state s.attempts
  distinct : (s.timers.map (·.host)).Nodup
  held : ∀ t ∈ s.timers, t.host ∈ s.activeDown ∧
    (LastDown s.attempts t.host ↔ t.phase ≠ .clearing)
  allowed : ∀ a ∈ s.attempts, a.cmd = .down → a.host ∈ p.hostIds
  pc : FlapPcSound p s s.pc

theorem flapInv_init (p : FlapParams) : FlapInv p (Flap.init p) where
  orderly := FlapBook.init
  distinct := List.nodup_nil
  held t ht := by cases ht
  allowed a ha := by cases ha
  pc := by
    rw [Flap.init]
    split <;> trivial

section Periodic

variable {p : FlapParams} {s : Flap}

theorem available_spec {hosts : List ℤ}
    (h : hosts = p.hostIds.filter fun host => host ∉ s.activeDown) :
    hosts.Nodup ∧ ∀ x ∈ hosts, x ∈ p.hostIds ∧ x ∉ s.activeDown := by
  subst h
  constructor
  · refine List.Nodup.filter _ (List.Nodup.filter _ ?_)
    exact List.nodup_range.map Int.ofNat_injective
  · intro x hx
    obtain ⟨hids, hnot⟩ := List.mem_filter.mp hx
    exact ⟨hids, by simpa using hnot⟩

/-- The hosts at consecutive positions of a cycle through a list are different. -/
theorem rotation_spec {available : List ℤ} (hnd : available.Nodup) (position : ℤ) (count : ℕ)
    (hcount : count ≤ available.length) :
    ((List.range count).map fun offset : ℕ =>
        available.getD ((position + offset) % available.length).toNat 0).Nodup ∧
      ∀ x ∈ (List.range count).map fun offset : ℕ =>
        available.getD ((position + offset) % available.length).toNat 0, x ∈ available := by
  have hget : ∀ offset < count, ∃ i : ℕ, ((i : ℤ) = (position + offset) % available.length) ∧
      ∃ hi : i < available.length,
        available.getD ((position + offset) % available.length).toNat 0 = available[i] := by
    intro offset hoffset
    have hpos : (0 : ℤ) < available.length := by omega
    have hnonneg := Int.emod_nonneg (position + offset) hpos.ne'
    have hlt := Int.emod_lt_of_pos (position + offset) hpos
    refine ⟨((position + offset) % available.length).toNat, Int.toNat_of_nonneg hnonneg, by omega, ?_⟩
    rw [List.getD_eq_getElem?_getD, List.getElem?_eq_getElem (by omega), Option.getD_some]
  constructor
  · refine List.Nodup.map_on (fun a ha b hb hab => ?_) List.nodup_range
    rw [List.mem_range] at ha hb
    obtain ⟨i, hi, hilt, hgi⟩ := hget a ha
    obtain ⟨j, hj, hjlt, hgj⟩ := hget b hb
    rw [hgi, hgj, hnd.getElem_inj_iff] at hab
    subst hab
    -- two offsets below the length that are congruent modulo it
    have hcong := Int.emod_add_cancel_left.mp (hi.symm.trans hj)
    rw [Int.emod_eq_of_lt (by omega) (by omega), Int.emod_eq_of_lt (by omega) (by omega)] at hcong
    exact Int.ofNat_injective hcong
  · intro x hx
    obtain ⟨offset, hoffset, rfl⟩ := List.mem_map.mp hx
    obtain ⟨i, -, hi, hgi⟩ := hget offset (List.mem_range.mp hoffset)
    rw [hgi]
    exact List.getElem_mem hi

theorem chooseHosts_inv (h : FlapInv p s) {available sample : List ℤ} {s' : Flap}
    (havail : available = p.hostIds.filter fun host => host ∉ s.activeDown)
    (hstep : Flap.chooseHosts p available sample s = some s') : FlapInv p s' := by
  obtain ⟨hnd, hmem⟩ := available_spec havail
  simp only [Flap.chooseHosts] at hstep
  split at hstep
  · split at hstep
    · cases hstep
      exact ⟨h.orderly, h.distinct, h.held, h.allowed, trivial⟩
    · split at hstep
      · rename_i hsample
        cases hstep
        exact ⟨h.orderly, h.distinct, h.held, h.allowed, hsample.1, fun x hx => hmem x (hsample.2.1 x hx)⟩
      · cases hstep
  · cases hstep
    obtain ⟨hrot, hrotmem⟩ := rotation_spec hnd s.position
      (min p.downCount available.length).toNat (by omega)
    exact ⟨h.orderly, h.distinct, h.held, h.allowed, hrot, fun x hx => hmem x (hrotmem x hx)⟩

theorem flap_mark (h : FlapInv p s) {host : ℤ} {rest : List ℤ} (hpc : s.pc = .marking host rest) :
    FlapInv p { s with activeDown := addHost s.activeDown host,
                       state := s.state.update (addHost s.activeDown host) (some host),
                       pc := .sending host rest } := by
  have hsound := h.pc
  rw [hpc] at hsound
  obtain ⟨hnd, hmem⟩ := hsound
  have hnew : host ∉ s.activeDown := (hmem host List.mem_cons_self).2
  obtain ⟨hhost, hrest⟩ := List.nodup_cons.mp hnd
  refine ⟨h.orderly.add host _, h.distinct, fun t ht => ?_, h.allowed, ⟨hnd, ?_, fun x hx => ?_⟩, ?_, ?_, ?_⟩
  · exact ⟨mem_addHost.mpr (.inl (h.held t ht).1), (h.held t ht).2⟩
  · exact (hmem host List.mem_cons_self).1
  · obtain ⟨hids, hnot⟩ := hmem x (List.mem_cons_of_mem _ hx)
    refine ⟨hids, fun hx' => ?_⟩
    rcases mem_addHost.mp hx' with hx' | rfl
    · exact hnot hx'
    · exact hhost hx
  · exact mem_addHost.mpr (.inr rfl)
  · -- a timer's host is in the set already
    intro htimer
    obtain ⟨t, ht, rfl⟩ := List.mem_map.mp htimer
    exact hnew (h.held t ht).1
  · exact fun hdown => hnew (h.orderly.active_of_down host hdown)

/-- An attempt at a host no timer holds leaves the timers in order. -/
theorem held_snoc (h : FlapInv p s) {host : ℤ} (hfree : host ∉ s.timers.map (·.host))
    (cmd : FlapCmd) : ∀ t ∈ s.timers, t.host ∈ s.activeDown ∧
      (LastDown (s.attempts ++ [⟨host, cmd, 0⟩]) t.host ↔ t.phase ≠ .clearing) := by
  intro t ht
  have hne : t.host ≠ host := fun heq => hfree (List.mem_map.mpr ⟨t, ht, heq⟩)
  rw [lastDown_snoc_ne hne]
  exact h.held t ht

theorem flap_send (h : FlapInv p s) {host : ℤ} {rest : List ℤ} (hpc : s.pc = .sending host rest)
    (result : CmdEnd) :
    FlapInv p { s with attempts := s.attempts ++ [⟨host, .down, 0⟩],
                       records := s.records ++ flapRecords "host_down" host result,
                       pc := if result = .raised then .finished else .arming host rest } := by
  have hsound := h.pc
  rw [hpc] at hsound
  obtain ⟨⟨hnd, hids, hrest⟩, hactive, hfree, hup⟩ := hsound
  refine ⟨h.orderly.down hactive hup 0, h.distinct, held_snoc h hfree .down, fun a ha hcmd => ?_, ?_⟩
  · rcases List.mem_append.mp ha with ha | ha
    · exact h.allowed a ha hcmd
    · cases List.mem_singleton.mp ha
      exact hids
  · dsimp only
    split
    · trivial
    · exact ⟨⟨hnd, hids, hrest⟩, hactive, hfree, (lastDown_snoc_self _ _).mpr rfl⟩

theorem flap_arm (h : FlapInv p s) {host : ℤ} {rest : List ℤ} (hpc : s.pc = .arming host rest) :
    FlapInv p { s with timers := s.timers ++ [⟨host, .waiting⟩], pc := .downing rest } := by
  have hsound := h.pc
  rw [hpc] at hsound
  obtain ⟨⟨hnd, -, hrest⟩, hactive, hfree, hdown⟩ := hsound
  refine ⟨h.orderly, ?_, fun t ht => ?_, h.allowed, (List.nodup_cons.mp hnd).2, hrest⟩
  · rw [List.map_append]
    exact List.Nodup.append h.distinct (List.nodup_singleton host) (by simpa using hfree)
  · rcases List.mem_append.mp ht with ht | ht
    · exact h.held t ht
    · cases List.mem_singleton.mp ht
      exact ⟨hactive, iff_of_true hdown fun hc => by cases hc⟩

/-- What a timer's step leaves the worker with: less in the set, other attempts, fewer timers. -/
theorem flapPcSound_mono {s' : Flap} {pc : FlapPc} (h : FlapPcSound p s pc)
    (hactive : ∀ x, x ∈ s'.activeDown → x ∈ s.activeDown)
    (htimers : ∀ x, x ∈ s'.timers.map (·.host) → x ∈ s.timers.map (·.host))
    (hkept : ∀ x, x ∈ s.activeDown → x ∉ s.timers.map (·.host) →
      x ∈ s'.activeDown ∧ (LastDown s'.attempts x ↔ LastDown s.attempts x)) :
    FlapPcSound p s' pc := by
  cases pc with
  | top => trivial
  | downing hosts => exact ⟨h.1, fun x hx => ⟨(h.2 x hx).1, fun hx' => (h.2 x hx).2 (hactive x hx')⟩⟩
  | marking host rest =>
    exact ⟨h.1, fun x hx => ⟨(h.2 x hx).1, fun hx' => (h.2 x hx).2 (hactive x hx')⟩⟩
  | sending host rest =>
    obtain ⟨⟨hnd, hids, hrest⟩, hin, hfree, hup⟩ := h
    obtain ⟨hin', hlast⟩ := hkept host hin hfree
    refine ⟨⟨hnd, hids, fun x hx => ?_⟩, hin', fun hx => hfree (htimers host hx), ?_⟩
    · exact ⟨(hrest x hx).1, fun hx' => (hrest x hx).2 (hactive x hx')⟩
    · rwa [hlast]
  | arming host rest =>
    obtain ⟨⟨hnd, hids, hrest⟩, hin, hfree, hdown⟩ := h
    obtain ⟨hin', hlast⟩ := hkept host hin hfree
    refine ⟨⟨hnd, hids, fun x hx => ?_⟩, hin', fun hx => hfree (htimers host hx), ?_⟩
    · exact ⟨(hrest x hx).1, fun hx' => (hrest x hx).2 (hactive x hx')⟩
    · rwa [hlast]
  | finished => trivial

/-- What a step of a timer has to leave in order: it keeps its host or goes away, and it changes
    nothing about any other host. -/
theorem flap_timer (h : FlapInv p s) {t : UpTimer} {l₁ l₂ : List UpTimer} (ts : List UpTimer)
    {s' : Flap}
    (hl : s.timers = l₁ ++ t :: l₂) (hl' : s'.timers = l₁ ++ (ts ++ l₂)) (hpc : s'.pc = s.pc)
    (hts : ts = [] ∨ ∃ phase, ts = [⟨t.host, phase⟩] ∧ t.host ∈ s'.activeDown ∧
      (LastDown s'.attempts t.host ↔ phase ≠ .clearing))
    (horderly : FlapBook s'.activeDown s'.state s'.attempts)
    (hactive : ∀ x, x ∈ s'.activeDown → x ∈ s.activeDown)
    (hother : ∀ x ≠ t.host, (x ∈ s.activeDown → x ∈ s'.activeDown) ∧
      (LastDown s'.attempts x ↔ LastDown s.attempts x))
    (hallowed : ∀ a ∈ s'.attempts, a.cmd = .down → a.host ∈ p.hostIds) : FlapInv p s' := by
  have hsub : (ts.map (·.host)).Sublist [t.host] := by
    rcases hts with rfl | ⟨phase, rfl, -⟩
    · exact List.nil_sublist _
    · exact List.Sublist.refl _
  have hhosts : (s'.timers.map (·.host)).Sublist (s.timers.map (·.host)) := by
    rw [hl, hl', List.map_append, List.map_append, List.map_append, List.map_cons]
    exact (List.Sublist.refl _).append (hsub.append (List.Sublist.refl _))
  have hdistinct := h.distinct
  rw [hl, List.map_append, List.map_cons] at hdistinct
  refine ⟨horderly, h.distinct.sublist hhosts, fun t' ht' => ?_, hallowed, ?_⟩
  · have hrest : ∀ t' ∈ l₁ ++ l₂, t' ∈ s.timers ∧ t'.host ≠ t.host := by
      intro t' ht'
      have hnot := (List.nodup_middle.mp hdistinct)
      rw [← List.map_append] at hnot
      refine ⟨?_, fun heq => (List.nodup_cons.mp hnot).1 (List.mem_map.mpr ⟨t', ht', heq⟩)⟩
      rw [hl]
      exact ((List.Sublist.refl l₁).append (List.sublist_cons_self t l₂)).subset ht'
    have hcase : t' ∈ ts ∨ t' ∈ l₁ ++ l₂ := by
      rw [hl'] at ht'
      simp only [List.mem_append] at ht' ⊢
      tauto
    rcases hcase with hmem | hmem
    · rcases hts with rfl | ⟨phase, rfl, hin, hlast⟩
      · cases hmem
      · cases List.mem_singleton.mp hmem
        exact ⟨hin, hlast⟩
    · obtain ⟨hold, hne⟩ := hrest t' hmem
      obtain ⟨hkeep, hlast⟩ := hother t'.host hne
      rw [hlast]
      exact ⟨hkeep (h.held t' hold).1, (h.held t' hold).2⟩
  · rw [hpc]
    refine flapPcSound_mono h.pc hactive (fun x hx => hhosts.subset hx) fun x hx hfree => ?_
    have hne : x ≠ t.host := by
      rintro rfl
      refine hfree (List.mem_map.mpr ⟨t, ?_, rfl⟩)
      rw [hl]
      exact List.mem_append_right _ List.mem_cons_self
    exact ⟨(hother x hne).1 hx, (hother x hne).2⟩

/-- **One step of the periodic mode.** -/
theorem flap_step (h : FlapInv p s) {move : FlapMove} {s' : Flap}
    (hstep : Flap.step p s move = some s') : FlapInv p s' := by
  cases move with
  | requestStop =>
    cases hstep
    exact ⟨h.orderly, h.distinct, h.held, h.allowed, flapPcSound_mono h.pc (fun _ hx => hx)
      (fun _ hx => hx) fun _ hx _ => ⟨hx, Iff.rfl⟩⟩
  | choose sample =>
    simp only [Flap.step] at hstep
    split at hstep
    · split at hstep
      · cases hstep
        exact ⟨h.orderly, h.distinct, h.held, h.allowed, trivial⟩
      · split at hstep
        · cases hstep
          exact h
        · exact chooseHosts_inv h rfl hstep
    · cases hstep
  | await =>
    have hsound := h.pc
    simp only [Flap.step] at hstep
    split at hstep
    · rename_i host rest hpc
      cases hstep
      rw [hpc] at hsound
      refine ⟨h.orderly, h.distinct, h.held, h.allowed, ?_⟩
      dsimp only
      split
      · trivial
      · exact hsound
    · cases hstep
      exact ⟨h.orderly, h.distinct, h.held, h.allowed, trivial⟩
    · cases hstep
  | mark =>
    simp only [Flap.step] at hstep
    split at hstep
    · rename_i host rest hpc
      cases hstep
      exact flap_mark h hpc
    · cases hstep
  | send result =>
    simp only [Flap.step] at hstep
    split at hstep
    · rename_i host rest hpc
      cases hstep
      exact flap_send h hpc result
    · cases hstep
  | arm =>
    simp only [Flap.step] at hstep
    split at hstep
    · rename_i host rest hpc
      cases hstep
      exact flap_arm h hpc
    · cases hstep
  | timerStarts i =>
    simp only [Flap.step] at hstep
    split at hstep
    · rename_i host hget
      obtain ⟨l₁, l₂, hl, herase, hset⟩ := split_at hget
      have hheld := h.held ⟨host, .waiting⟩ (List.mem_of_getElem? hget)
      split at hstep
      · cases hstep
        exact flap_timer h [] hl herase rfl (.inl rfl) h.orderly (fun _ hx => hx)
          (fun _ _ => ⟨fun hx => hx, Iff.rfl⟩) h.allowed
      · cases hstep
        refine flap_timer h [⟨host, .sending⟩] hl (hset _) rfl
          (.inr ⟨_, rfl, hheld.1, ?_⟩) h.orderly (fun _ hx => hx)
          (fun _ _ => ⟨fun hx => hx, Iff.rfl⟩) h.allowed
        exact iff_of_true (hheld.2.mpr fun hc => by cases hc) fun hc => by cases hc
    · cases hstep
  | timerSends i result =>
    simp only [Flap.step] at hstep
    split at hstep
    · rename_i host hget
      obtain ⟨l₁, l₂, hl, herase, hset⟩ := split_at hget
      obtain ⟨hin, hlast⟩ := h.held ⟨host, .sending⟩ (List.mem_of_getElem? hget)
      have hdown : LastDown s.attempts host := hlast.mpr fun hc => by cases hc
      have hup : ¬ LastDown (s.attempts ++ [⟨host, .up, 0⟩]) host := fun hc => by
        cases (lastDown_snoc_self s.attempts ⟨host, .up, 0⟩).mp hc
      cases hstep
      refine flap_timer h (if result = .raised then [] else [⟨host, .clearing⟩]) hl ?_ rfl ?_
        (h.orderly.up hdown 0) (fun _ hx => hx)
        (fun x hne => ⟨fun hx => hx, lastDown_snoc_ne hne⟩) (fun a ha hcmd => ?_)
      · dsimp only
        split
        · exact herase
        · exact hset _
      · dsimp only
        split
        · exact .inl rfl
        · exact .inr ⟨_, rfl, hin, iff_of_false hup fun hc => hc rfl⟩
      · rcases List.mem_append.mp ha with ha | ha
        · exact h.allowed a ha hcmd
        · cases List.mem_singleton.mp ha
          cases hcmd
    · cases hstep
  | timerClears i =>
    simp only [Flap.step] at hstep
    split at hstep
    · rename_i host hget
      obtain ⟨l₁, l₂, hl, herase, -⟩ := split_at hget
      obtain ⟨-, hlast⟩ := h.held ⟨host, .clearing⟩ (List.mem_of_getElem? hget)
      have hup : ¬ LastDown s.attempts host := fun hd => hlast.mp hd rfl
      cases hstep
      refine flap_timer h [] hl herase rfl (.inl rfl)
        (h.orderly.clear [host] (by simpa using hup) none fun x => ?_)
        (fun x hx => (List.mem_filter.mp hx).1) (fun x hne => ⟨fun hx => ?_, Iff.rfl⟩) h.allowed
      · simp
      · exact List.mem_filter.mpr ⟨hx, by simpa using hne⟩
    · cases hstep

end Periodic

/-! ## The cycle mode -/

/-- The hosts a timer has still to bring up. -/
def CycleTimer.left (t : CycleTimer) : List ℤ :=
  match t.phase with
  | .raising left => left
  | _ => t.downSet

/-- What a timer holds: its hosts are in the set, and down until it has sent them up. -/
structure TimerSound (shared : List ℤ) (attempts : List Attempt) (t : CycleTimer) : Prop where
  nodup : (CycleTimer.left t).Nodup
  sub : ∀ x ∈ CycleTimer.left t, x ∈ t.downSet
  held : ∀ x ∈ t.downSet, x ∈ shared ∧ (LastDown attempts x ↔ x ∈ CycleTimer.left t)

/-- No timer holds the host. -/
def Unheld (s : CycleFlap) (x : ℤ) : Prop := ∀ t ∈ s.timers, x ∉ t.downSet

/-- What the worker holds: the hosts it took down in this cycle. -/
def WorkerHolds (s : CycleFlap) (cycleDown : List ℤ) : Prop :=
  cycleDown.Nodup ∧ ∀ x ∈ cycleDown, x ∈ s.sharedDown ∧ Unheld s x ∧ LastDown s.attempts x

/-- The cycle with this number is there, and it excludes none of the hosts. -/
def CycleAllows (p : CycleParams) (idx : ℕ) (hosts : List ℤ) : Prop :=
  ∃ c, p.cycles[idx]? = some c ∧ ∀ h ∈ hosts, h ∉ c.excludeSet p.publisherIds

def CyclePcSound (p : CycleParams) (s : CycleFlap) : CyclePc → Prop
  | .next idx rest => p.cycles.drop idx = rest
  | .pausing idx cycle rest => p.cycles.drop idx = cycle :: rest
  | .choosing idx cycle rest => p.cycles.drop idx = cycle :: rest
  | .downing idx hosts cycleDown rest =>
      p.cycles.drop (idx + 1) = rest ∧ CycleAllows p idx hosts ∧ WorkerHolds s cycleDown
  | .marking idx host hosts cycleDown rest =>
      p.cycles.drop (idx + 1) = rest ∧ CycleAllows p idx (host :: hosts) ∧ WorkerHolds s cycleDown
  | .sending idx host hosts cycleDown rest =>
      p.cycles.drop (idx + 1) = rest ∧ CycleAllows p idx (host :: hosts) ∧
        ∃ before, cycleDown = before ++ [host] ∧ host ∉ before ∧ WorkerHolds s before ∧
          host ∈ s.sharedDown ∧ Unheld s host ∧ ¬ LastDown s.attempts host
  | .finished => True

/-- The invariant of the cycle worker and its timers. -/
structure CycleInv (p : CycleParams) (s : CycleFlap) : Prop where
  orderly : FlapBook s.sharedDown s.state s.attempts
  disjoint : (s.timers.map (·.downSet)).Pairwise List.Disjoint
  held : ∀ t ∈ s.timers, TimerSound s.sharedDown s.attempts t
  allowed : ∀ a ∈ s.attempts, a.cmd = .down → CycleAllows p a.cycle [a.host]
  pc : CyclePcSound p s s.pc

theorem cycleInv_init (p : CycleParams) : CycleInv p (CycleFlap.init p) where
  orderly := FlapBook.init
  disjoint := List.Pairwise.nil
  held t ht := by cases ht
  allowed a ha := by cases ha
  pc := by
    rw [CycleFlap.init]
    dsimp only
    split
    · trivial
    · exact List.drop_zero

section Cyclic

variable {p : CycleParams} {s : CycleFlap}

theorem drop_cons {cycles rest : List CycleConfig} {c : CycleConfig} {idx : ℕ}
    (h : cycles.drop idx = c :: rest) : cycles[idx]? = some c ∧ cycles.drop (idx + 1) = rest := by
  constructor
  · rw [← Nat.add_zero idx, ← List.getElem?_drop, h]
    rfl
  · rw [← List.drop_drop, h]
    rfl

theorem workerHolds_nil (s : CycleFlap) : WorkerHolds s [] :=
  ⟨List.nodup_nil, fun x hx => by cases hx⟩

theorem CycleAllows.sub {idx : ℕ} {hosts hosts' : List ℤ} (h : CycleAllows p idx hosts)
    (hsub : ∀ x ∈ hosts', x ∈ hosts) : CycleAllows p idx hosts' := by
  obtain ⟨c, hc, hnot⟩ := h
  exact ⟨c, hc, fun x hx => hnot x (hsub x hx)⟩

/-- Moving on, with nothing else changed. -/
theorem CycleInv.goto (h : CycleInv p s) {pc : CyclePc} (hpc : CyclePcSound p s pc) :
    CycleInv p { s with pc := pc } := by
  refine ⟨h.orderly, h.disjoint, h.held, h.allowed, ?_⟩
  cases pc <;> exact hpc

theorem cycle_chooseHosts (h : CycleInv p s) {idx : ℕ} {cycle : CycleConfig}
    {rest : List CycleConfig} (hpc : s.pc = .choosing idx cycle rest) {sample : List ℤ}
    {s' : CycleFlap} (hstep : CycleFlap.chooseHosts p idx cycle rest sample s = some s') :
    CycleInv p s' := by
  have hsound := h.pc
  rw [hpc] at hsound
  obtain ⟨hget, hdrop⟩ := drop_cons hsound
  -- whatever is chosen, it is chosen among hosts the cycle does not exclude
  have hgo : ∀ hosts : List ℤ, (∀ x ∈ hosts, x ∉ cycle.excludeSet p.publisherIds) →
      CycleInv p { s with pc := .downing idx hosts [] rest } := fun hosts hhosts =>
    h.goto ⟨hdrop, ⟨cycle, hget, hhosts⟩, workerHolds_nil s⟩
  have hfree : ∀ (hosts : List ℤ) (x : ℤ), x ∈ hosts.filter (fun host =>
      decide (host ∉ cycle.excludeSet p.publisherIds ∧ host ∉ s.sharedDown)) →
      x ∉ cycle.excludeSet p.publisherIds := by
    intro hosts x hx
    have := (List.mem_filter.mp hx).2
    rw [decide_eq_true_eq] at this
    exact this.1
  simp only [CycleFlap.chooseHosts] at hstep
  split at hstep
  · cases hstep
    exact hgo _ (hfree _)
  · split at hstep
    · cases hstep
      exact h.goto hdrop
    · split at hstep
      · split at hstep
        · cases hstep
          exact h.goto trivial
        · split at hstep
          · rename_i hsample
            cases hstep
            exact hgo _ fun x hx => hfree _ x (hsample.2.1 x hx)
          · cases hstep
      · cases hstep
        exact hgo _ fun x hx => hfree _ x (List.mem_of_mem_take hx)

theorem WorkerHolds.mono {s' : CycleFlap} {cycleDown : List ℤ} (h : WorkerHolds s cycleDown)
    (hkept : ∀ x ∈ cycleDown, x ∈ s.sharedDown → Unheld s x →
      x ∈ s'.sharedDown ∧ Unheld s' x ∧ (LastDown s'.attempts x ↔ LastDown s.attempts x)) :
    WorkerHolds s' cycleDown := by
  refine ⟨h.1, fun x hx => ?_⟩
  obtain ⟨hin, hun, hdown⟩ := h.2 x hx
  obtain ⟨hin', hun', hlast⟩ := hkept x hx hin hun
  exact ⟨hin', hun', hlast.mpr hdown⟩

theorem cycle_mark (h : CycleInv p s) {idx : ℕ} {host : ℤ} {hosts cycleDown : List ℤ}
    {rest : List CycleConfig} (hpc : s.pc = .marking idx host hosts cycleDown rest)
    (hnew : host ∉ s.sharedDown) :
    CycleInv p { s with sharedDown := addHost s.sharedDown host,
                        state := s.state.update (addHost s.sharedDown host) (some host),
                        pc := .sending idx host hosts (addHost cycleDown host) rest } := by
  have hsound := h.pc
  rw [hpc] at hsound
  obtain ⟨hdrop, hallows, hholds⟩ := hsound
  have hgrow : ∀ x, x ∈ s.sharedDown → x ∈ addHost s.sharedDown host := fun x hx =>
    mem_addHost.mpr (.inl hx)
  have hbefore : host ∉ cycleDown := fun hmem => hnew (hholds.2 host hmem).1
  refine ⟨h.orderly.add host _, h.disjoint, fun t ht => ?_, h.allowed, hdrop, hallows, cycleDown,
    by rw [addHost, if_neg hbefore], hbefore, ?_, mem_addHost.mpr (.inr rfl), fun t ht hmem => ?_, ?_⟩
  · obtain ⟨hnd, hsub, hheld⟩ := h.held t ht
    exact ⟨hnd, hsub, fun x hx => ⟨hgrow x (hheld x hx).1, (hheld x hx).2⟩⟩
  · exact hholds.mono fun x _ hin hun => ⟨hgrow x hin, hun, Iff.rfl⟩
  · exact hnew ((h.held t ht).held host hmem).1
  · exact fun hdown => hnew (h.orderly.active_of_down host hdown)

theorem cycle_send (h : CycleInv p s) {idx : ℕ} {host : ℤ} {hosts cycleDown : List ℤ}
    {rest : List CycleConfig} (hpc : s.pc = .sending idx host hosts cycleDown rest)
    (result : CmdEnd) :
    CycleInv p { s with attempts := s.attempts ++ [⟨host, .down, idx⟩],
                        records := s.records ++ flapRecords "host_down" host result,
                        pc := if result = .raised then .finished
                          else .downing idx hosts cycleDown rest } := by
  have hsound := h.pc
  rw [hpc] at hsound
  obtain ⟨hdrop, hallows, before, rfl, hnot, hholds, hin, hun, hup⟩ := hsound
  have hsame : ∀ x, x ≠ host →
      (LastDown (s.attempts ++ [⟨host, .down, idx⟩]) x ↔ LastDown s.attempts x) :=
    fun x hx => lastDown_snoc_ne hx
  refine ⟨h.orderly.down hin hup idx, h.disjoint, fun t ht => ?_, fun a ha hcmd => ?_, ?_⟩
  · obtain ⟨hnd, hsub, hheld⟩ := h.held t ht
    refine ⟨hnd, hsub, fun x hx => ?_⟩
    have hne : x ≠ host := fun heq => hun t ht (heq ▸ hx)
    rw [hsame x hne]
    exact hheld x hx
  · rcases List.mem_append.mp ha with ha | ha
    · exact h.allowed a ha hcmd
    · cases List.mem_singleton.mp ha
      exact hallows.sub fun x hx => List.mem_cons.mpr (.inl (List.mem_singleton.mp hx))
  · dsimp only
    split
    · trivial
    · refine ⟨hdrop, hallows.sub fun x hx => List.mem_cons_of_mem _ hx, ?_, fun x hx => ?_⟩
      · refine List.Nodup.append hholds.1 (List.nodup_singleton host) ?_
        simpa using hnot
      · rcases List.mem_append.mp hx with hx | hx
        · have hne : x ≠ host := fun heq => hnot (heq ▸ hx)
          obtain ⟨hxin, hxun, hxdown⟩ := hholds.2 x hx
          exact ⟨hxin, hxun, (hsame x hne).mpr hxdown⟩
        · cases List.mem_singleton.mp hx
          exact ⟨hin, hun, (lastDown_snoc_self _ _).mpr rfl⟩

theorem cycle_arm (h : CycleInv p s) {idx : ℕ} {cycleDown : List ℤ} {rest : List CycleConfig}
    (hpc : s.pc = .downing idx [] cycleDown rest) :
    CycleInv p { s with cycleTimers := s.cycleTimers.set idx s.created,
                        created := s.created + 1,
                        timers := s.timers ++ [⟨s.created, idx, cycleDown, .waiting⟩],
                        pc := .next (idx + 1) rest } := by
  have hsound := h.pc
  rw [hpc] at hsound
  obtain ⟨hdrop, -, hnd, hholds⟩ := hsound
  refine ⟨h.orderly, ?_, fun t ht => ?_, h.allowed, hdrop⟩
  · rw [List.map_append]
    refine List.pairwise_append.mpr ⟨h.disjoint, List.pairwise_singleton _ _, fun ds hds ds' hds' => ?_⟩
    cases List.mem_singleton.mp hds'
    obtain ⟨t, ht, rfl⟩ := List.mem_map.mp hds
    exact fun x hx hx' => (hholds x hx').2.1 t ht hx
  · rcases List.mem_append.mp ht with ht | ht
    · exact h.held t ht
    · cases List.mem_singleton.mp ht
      exact ⟨hnd, fun x hx => hx, fun x hx => ⟨(hholds x hx).1, iff_of_true (hholds x hx).2.2 hx⟩⟩

/-- What a timer's step leaves the worker with. -/
theorem cyclePcSound_mono {s' : CycleFlap} {pc : CyclePc} (h : CyclePcSound p s pc)
    (hkept : ∀ x, x ∈ s.sharedDown → Unheld s x →
      x ∈ s'.sharedDown ∧ Unheld s' x ∧ (LastDown s'.attempts x ↔ LastDown s.attempts x)) :
    CyclePcSound p s' pc := by
  cases pc with
  | next idx rest => exact h
  | pausing idx cycle rest => exact h
  | choosing idx cycle rest => exact h
  | downing idx hosts cycleDown rest =>
    exact ⟨h.1, h.2.1, h.2.2.mono fun x _ => hkept x⟩
  | marking idx host hosts cycleDown rest =>
    exact ⟨h.1, h.2.1, h.2.2.mono fun x _ => hkept x⟩
  | sending idx host hosts cycleDown rest =>
    obtain ⟨hdrop, hallows, before, hbefore, hnot, hholds, hin, hun, hup⟩ := h
    obtain ⟨hin', hun', hlast⟩ := hkept host hin hun
    refine ⟨hdrop, hallows, before, hbefore, hnot, hholds.mono fun x _ => hkept x, hin', hun', ?_⟩
    rwa [hlast]
  | finished => trivial

/-- A timer that has sent one of its hosts up still holds all of them. -/
theorem TimerSound.sendUp {shared : List ℤ} {attempts : List Attempt} {serial num : ℕ}
    {downSet left : List ℤ} {host : ℤ}
    (h : TimerSound shared attempts ⟨serial, num, downSet, .raising left⟩) (hmem : host ∈ left)
    (cycle : ℕ) :
    TimerSound shared (attempts ++ [⟨host, .up, cycle⟩])
      ⟨serial, num, downSet, .raising (left.erase host)⟩ := by
  have hnd : left.Nodup := h.nodup
  refine ⟨hnd.erase host, fun x hx => h.sub x (List.mem_of_mem_erase hx), fun x hx => ?_⟩
  obtain ⟨hin, hlast⟩ := h.held x hx
  refine ⟨hin, ?_⟩
  change _ ↔ x ∈ left.erase host
  rw [hnd.mem_erase_iff]
  by_cases heq : x = host
  · subst heq
    refine iff_of_false (fun hc => ?_) fun hc => hc.1 rfl
    cases (lastDown_snoc_self attempts ⟨x, .up, cycle⟩).mp hc
  · rw [lastDown_snoc_ne heq, hlast]
    exact ⟨fun hleft => ⟨heq, hleft⟩, fun hleft => hleft.2⟩

/-- What a step of a timer has to leave in order: it keeps its hosts or goes away, and it changes
    nothing about any other host. -/
theorem cycle_timer (h : CycleInv p s) {t : CycleTimer} {l₁ l₂ : List CycleTimer}
    (ts : List CycleTimer) {s' : CycleFlap}
    (hl : s.timers = l₁ ++ t :: l₂) (hl' : s'.timers = l₁ ++ (ts ++ l₂)) (hpc : s'.pc = s.pc)
    (hts : ts = [] ∨ ∃ t', ts = [t'] ∧ t'.downSet = t.downSet ∧
      TimerSound s'.sharedDown s'.attempts t')
    (horderly : FlapBook s'.sharedDown s'.state s'.attempts)
    (hother : ∀ x ∉ t.downSet, (x ∈ s.sharedDown → x ∈ s'.sharedDown) ∧
      (LastDown s'.attempts x ↔ LastDown s.attempts x))
    (hallowed : ∀ a ∈ s'.attempts, a.cmd = .down → CycleAllows p a.cycle [a.host]) :
    CycleInv p s' := by
  have hsub : (ts.map (·.downSet)).Sublist [t.downSet] := by
    rcases hts with rfl | ⟨t', rfl, hds, -⟩
    · exact List.nil_sublist _
    · simp [hds]
  have hsets : (s'.timers.map (·.downSet)).Sublist (s.timers.map (·.downSet)) := by
    rw [hl, hl', List.map_append, List.map_append, List.map_append, List.map_cons]
    exact (List.Sublist.refl _).append (hsub.append (List.Sublist.refl _))
  have hdisjoint := h.disjoint
  rw [hl, List.map_append, List.map_cons] at hdisjoint
  refine ⟨horderly, h.disjoint.sublist hsets, fun t' ht' => ?_, hallowed, ?_⟩
  · have hcase : t' ∈ ts ∨ t' ∈ l₁ ++ l₂ := by
      rw [hl'] at ht'
      simp only [List.mem_append] at ht' ⊢
      tauto
    rcases hcase with hmem | hmem
    · rcases hts with rfl | ⟨t'', rfl, -, hsound⟩
      · cases hmem
      · cases List.mem_singleton.mp hmem
        exact hsound
    · have hold : t' ∈ s.timers := by
        rw [hl]
        exact ((List.Sublist.refl l₁).append (List.sublist_cons_self t l₂)).subset hmem
      have hdis : List.Disjoint t'.downSet t.downSet := by
        obtain ⟨-, hright, hcross⟩ := List.pairwise_append.mp hdisjoint
        rcases List.mem_append.mp hmem with hmem | hmem
        · exact hcross _ (List.mem_map_of_mem hmem) _ List.mem_cons_self
        · exact ((List.pairwise_cons.mp hright).1 _ (List.mem_map_of_mem hmem)).symm
      obtain ⟨hnd, hleft, hheld⟩ := h.held t' hold
      refine ⟨hnd, hleft, fun x hx => ?_⟩
      obtain ⟨hkeep, hlast⟩ := hother x fun hx' => hdis hx hx'
      rw [hlast]
      exact ⟨hkeep (hheld x hx).1, (hheld x hx).2⟩
  · rw [hpc]
    refine cyclePcSound_mono h.pc fun x hx hun => ?_
    have hnot : x ∉ t.downSet := by
      apply hun
      rw [hl]
      exact List.mem_append_right _ List.mem_cons_self
    refine ⟨(hother x hnot).1 hx, fun t' ht' hx' => ?_, (hother x hnot).2⟩
    obtain ⟨t'', ht'', hds⟩ := List.mem_map.mp (hsets.subset (List.mem_map_of_mem ht'))
    exact hun t'' ht'' (hds ▸ hx')

/-- **One step of the cycle mode.** -/
theorem cycle_step (h : CycleInv p s) {move : CycleMove} {s' : CycleFlap}
    (hstep : CycleFlap.step p s move = some s') : CycleInv p s' := by
  cases move with
  | requestStop =>
    cases hstep
    exact ⟨h.orderly, h.disjoint, h.held, h.allowed,
      cyclePcSound_mono h.pc fun _ hx hun => ⟨hx, hun, Iff.rfl⟩⟩
  | enter =>
    have hsound := h.pc
    simp only [CycleFlap.step] at hstep
    split at hstep
    · cases hstep
      exact h.goto trivial
    · rename_i idx cycle rest hpc
      rw [hpc] at hsound
      split at hstep
      · cases hstep
        exact h.goto trivial
      · split at hstep
        · cases hstep
          exact h.goto (drop_cons hsound).2
        · cases hstep
          exact h.goto hsound
    · cases hstep
  | await =>
    have hsound := h.pc
    simp only [CycleFlap.step] at hstep
    split at hstep
    · rename_i idx cycle rest hpc
      rw [hpc] at hsound
      cases hstep
      refine h.goto ?_
      split
      · trivial
      · exact hsound
    · rename_i idx host hosts cycleDown rest hpc
      rw [hpc] at hsound
      cases hstep
      refine h.goto ?_
      split
      · trivial
      · exact hsound
    · cases hstep
  | choose sample =>
    simp only [CycleFlap.step] at hstep
    split at hstep
    · rename_i idx cycle rest hpc
      exact cycle_chooseHosts h hpc hstep
    · cases hstep
  | mark =>
    have hsound := h.pc
    simp only [CycleFlap.step] at hstep
    split at hstep
    · rename_i idx host hosts cycleDown rest hpc
      split at hstep
      · -- another cycle holds the host: it is passed over
        rw [hpc] at hsound
        obtain ⟨hdrop, hallows, hholds⟩ := hsound
        cases hstep
        exact h.goto ⟨hdrop, hallows.sub fun x hx => List.mem_cons_of_mem _ hx, hholds⟩
      · rename_i hnew
        cases hstep
        exact cycle_mark h hpc hnew
    · cases hstep
  | send result =>
    simp only [CycleFlap.step] at hstep
    split at hstep
    · rename_i idx host hosts cycleDown rest hpc
      cases hstep
      exact cycle_send h hpc result
    · cases hstep
  | arm =>
    have hsound := h.pc
    simp only [CycleFlap.step] at hstep
    split at hstep
    · rename_i idx cycleDown rest hpc
      split at hstep
      · rw [hpc] at hsound
        cases hstep
        exact h.goto hsound.1
      · cases hstep
        exact cycle_arm h hpc
    · cases hstep
  | timerStarts i =>
    simp only [CycleFlap.step] at hstep
    split at hstep
    · rename_i serial num downSet hget
      obtain ⟨l₁, l₂, hl, herase, hset⟩ := split_at hget
      have hheld := h.held _ (List.mem_of_getElem? hget)
      split at hstep
      · cases hstep
        exact cycle_timer h [] hl herase rfl (.inl rfl) h.orderly
          (fun _ _ => ⟨fun hx => hx, Iff.rfl⟩) h.allowed
      · cases hstep
        exact cycle_timer h [⟨serial, num, downSet, .claiming⟩] hl (hset _) rfl
          (.inr ⟨_, rfl, rfl, hheld.nodup, hheld.sub, hheld.held⟩) h.orderly
          (fun _ _ => ⟨fun hx => hx, Iff.rfl⟩) h.allowed
    · cases hstep
  | timerClaims i =>
    simp only [CycleFlap.step] at hstep
    split at hstep
    · rename_i serial num downSet hget
      obtain ⟨l₁, l₂, hl, herase, hset⟩ := split_at hget
      have hheld := h.held _ (List.mem_of_getElem? hget)
      split at hstep
      · cases hstep
        exact cycle_timer h [⟨serial, num, downSet, .raising downSet⟩] hl (hset _) rfl
          (.inr ⟨_, rfl, rfl, hheld.nodup, hheld.sub, hheld.held⟩) h.orderly
          (fun _ _ => ⟨fun hx => hx, Iff.rfl⟩) h.allowed
      · cases hstep
        exact cycle_timer h [] hl herase rfl (.inl rfl) h.orderly
          (fun _ _ => ⟨fun hx => hx, Iff.rfl⟩) h.allowed
    · cases hstep
  | timerSends i host result =>
    simp only [CycleFlap.step] at hstep
    split at hstep
    · rename_i serial num downSet left hget
      split at hstep
      · rename_i hmem
        obtain ⟨l₁, l₂, hl, herase, hset⟩ := split_at hget
        have hheld := h.held _ (List.mem_of_getElem? hget)
        have hin : host ∈ downSet := hheld.sub host hmem
        have hdown : LastDown s.attempts host := ((hheld.held host hin).2).mpr hmem
        have hallowed : ∀ a ∈ s.attempts ++ [⟨host, .up, num⟩], a.cmd = .down →
            CycleAllows p a.cycle [a.host] := fun a ha hcmd => by
          rcases List.mem_append.mp ha with ha | ha
          · exact h.allowed a ha hcmd
          · cases List.mem_singleton.mp ha
            cases hcmd
        cases hstep
        refine cycle_timer h (if result = .raised then []
            else [⟨serial, num, downSet, .raising (left.erase host)⟩]) hl ?_ rfl ?_
          (h.orderly.up hdown num)
          (fun x hx => ⟨fun hx' => hx', lastDown_snoc_ne fun heq => hx (heq ▸ hin)⟩) hallowed
        · dsimp only
          split
          · exact herase
          · exact hset _
        · dsimp only
          split
          · exact .inl rfl
          · exact .inr ⟨_, rfl, rfl, hheld.sendUp hmem num⟩
      · cases hstep
    · cases hstep
  | timerClears i =>
    simp only [CycleFlap.step] at hstep
    split at hstep
    · rename_i serial num downSet hget
      obtain ⟨l₁, l₂, hl, herase, -⟩ := split_at hget
      have hheld := h.held _ (List.mem_of_getElem? hget)
      have hup : ∀ x ∈ downSet, ¬ LastDown s.attempts x := fun x hx hd =>
        List.not_mem_nil (((hheld.held x hx).2).mp hd)
      cases hstep
      refine cycle_timer h [] hl herase rfl (.inl rfl)
        (h.orderly.clear downSet hup none fun x => ?_)
        (fun x hx => ⟨fun hx' => ?_, Iff.rfl⟩) h.allowed
      · simp
      · exact List.mem_filter.mpr ⟨hx', by simpa using hx⟩
    · cases hstep

end Cyclic

/-! ## Both modes -/

/-- What a mode promises about the commands it sent and the state it shows. -/
structure SafeFlaps (attempts : List Attempt) (state : FlapState) (mayDown : Attempt → Prop) :
    Prop where
  alternates : ∀ host, AlternatesFrom .down (commandsAt attempts host)
  shown : ∀ host, LastDown attempts host → host ∈ state.snapshot
  allowed : ∀ a ∈ attempts, a.cmd = .down → mayDown a

theorem FlapBook.safe {active : List ℤ} {state : FlapState} {attempts : List Attempt}
    {mayDown : Attempt → Prop} (h : FlapBook active state attempts)
    (hallowed : ∀ a ∈ attempts, a.cmd = .down → mayDown a) :
    SafeFlaps attempts state mayDown where
  alternates := h.alternates
  shown host hdown := (h.shown host).mpr (h.active_of_down host hdown)
  allowed := hallowed

theorem not_mem_exclude {p : FlapParams} {host : ℤ} (h : host ∈ p.hostIds) : host ∉ p.exclude := by
  rw [FlapParams.hostIds, List.mem_filter] at h
  simpa using h.2

theorem not_mem_excludeSet {c : CycleConfig} {publisherIds : List ℤ} {host : ℤ}
    (h : host ∉ c.excludeSet publisherIds) :
    host ∉ c.exclude.getD [] ∧ (c.allowPublishers = false → host ∉ publisherIds) := by
  rw [CycleConfig.excludeSet, List.mem_append, not_or] at h
  refine ⟨h.1, fun hallow => ?_⟩
  simpa [hallow] using h.2

/-- What a run of `periodic_host_flap` keeps. -/
theorem flapInv_run {p : FlapParams} {moves : List FlapMove} {s : Flap}
    (hrun : run (Flap.step p) (Flap.init p) moves = some s) : FlapInv p s :=
  run_inv (fun _ _ _ h hstep => flap_step h hstep) (flapInv_init p) hrun

/-- What a run of the cycle worker keeps. -/
theorem cycleInv_run {p : CycleParams} {moves : List CycleMove} {s : CycleFlap}
    (hrun : run (CycleFlap.step p) (CycleFlap.init p) moves = some s) : CycleInv p s :=
  run_inv (fun _ _ _ h hstep => cycle_step h hstep) (cycleInv_init p) hrun

/-- **Flapping is safe in both modes.** In every state of every run the commands of each host
    alternate from `down`, a host whose last command is `down` is shown by the `FlapState`, and no
    `down` was sent to an excluded host: in the periodic mode to one of `exclude`, which the simple
    mode fills with the configured hosts and the publishers, in the cycle mode to one that the
    cycle it was sent in lists, or to a publisher unless that cycle allows them. -/
theorem flapping_safe :
    (∀ (p : FlapParams) (moves : List FlapMove) (s : Flap),
      run (Flap.step p) (Flap.init p) moves = some s →
        SafeFlaps s.attempts s.state fun a => a.host ∉ p.exclude) ∧
    (∀ (simple : CycleConfig) (hostCount : ℕ) (hasRng : Bool) (publisherIds : List ℤ)
      (p : FlapParams) (moves : List FlapMove) (s : Flap),
      simpleParams simple hostCount hasRng publisherIds = some p →
      run (Flap.step p) (Flap.init p) moves = some s →
        SafeFlaps s.attempts s.state fun a =>
          a.host ∉ simple.exclude.getD [] ∧ a.host ∉ publisherIds) ∧
    (∀ (p : CycleParams) (moves : List CycleMove) (s : CycleFlap),
      run (CycleFlap.step p) (CycleFlap.init p) moves = some s →
        SafeFlaps s.attempts s.state fun a => ∃ c, p.cycles[a.cycle]? = some c ∧
          a.host ∉ c.exclude.getD [] ∧ (c.allowPublishers = false → a.host ∉ p.publisherIds)) := by
  refine ⟨fun p moves s hrun => ?_, fun simple n hasRng ids p moves s hp hrun => ?_,
    fun p moves s hrun => ?_⟩
  · have hinv := flapInv_run hrun
    exact hinv.orderly.safe fun a ha hcmd => not_mem_exclude (hinv.allowed a ha hcmd)
  · have hinv := flapInv_run hrun
    refine hinv.orderly.safe fun a ha hcmd => ?_
    have hnot := not_mem_exclude (hinv.allowed a ha hcmd)
    rw [simpleParams] at hp
    split at hp
    · cases hp
    · cases hp
      rwa [List.mem_append, not_or] at hnot
  · have hinv := cycleInv_run hrun
    refine hinv.orderly.safe fun a ha hcmd => ?_
    obtain ⟨c, hc, hnot⟩ := hinv.allowed a ha hcmd
    exact ⟨c, hc, not_mem_excludeSet (hnot a.host (List.mem_singleton_self _))⟩

/-- Host 1 is named twice by the first cycle and is down when the second starts, which names it
    again; host 0 publishes. -/
theorem flapping_safe_overlap :
    let p : CycleParams := ⟨.manual, [⟨none, none, none, none, some [1, 1, 0], false⟩,
      ⟨some 1, some 1, none, some [2], some [1, 2], true⟩], 3, false, [0]⟩
    let moves : List CycleMove := [.enter, .await, .choose [], .await, .mark, .send .succeeded,
      .await, .mark, .arm, .enter, .await, .timerStarts 0, .choose [], .timerClaims 0,
      .timerSends 0 1 (.failed "busy"), .arm, .timerClears 0]
    ∃ s, run (CycleFlap.step p) (CycleFlap.init p) moves = some s ∧
      s.attempts = [⟨1, .down, 0⟩, ⟨1, .up, 0⟩] ∧
      SafeFlaps s.attempts s.state fun a => ∃ c, p.cycles[a.cycle]? = some c ∧
        a.host ∉ c.exclude.getD [] ∧ (c.allowPublishers = false → a.host ∉ p.publisherIds) := by
  intro p moves
  exact ⟨_, rfl, rfl, flapping_safe.2.2 p moves _ rfl⟩

end Proof
end CeforeEmu
