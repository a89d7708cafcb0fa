import CeforeEmu.Proof.DataPlane
import CeforeEmu.Scenarios.Linear

/-!
# The line delivers

`LinearScenario` has no links to compute from: it writes addresses and routes for the line by index
arithmetic of its own. Read as a network, its commands make every host forward to the host on its
right and to nobody else, so that what is asked for anywhere on the line comes to the publisher at
its end (`line_delivers`).
-/

set_option autoImplicit false

namespace CeforeEmu
namespace Proof

open CeforeEmu.Lib CeforeEmu.Core CeforeEmu.Runtime CeforeEmu.Scenarios

/-! ## The interfaces of the line -/

/-- The switch on the left of a host, if it has one, and the one on its right. -/
theorem switchesOf_line (switches h : ℕ) :
    switchesOf ((List.range switches).flatMap fun idx =>
        [(hostName idx, switchName idx), (hostName (idx + 1), switchName idx)]) (hostName h)
      = (if 0 < h ∧ h ≤ switches then [switchName (h - 1)] else [])
        ++ if h < switches then [switchName h] else [] := by
  have hname : ∀ i, hostName i = hostName h ↔ i = h := fun i => ⟨hostName_injective, by rintro rfl; rfl⟩
  induction switches with
  | zero =>
    rw [if_neg (by omega), if_neg (by omega)]
    rfl
  | succ m ih =>
    rw [List.range_succ, List.flatMap_append]
    simp only [switchesOf, List.filter_append, List.map_append] at ih ⊢
    rw [ih]
    rcases Nat.lt_trichotomy h m with hlt | rfl | hgt
    · -- both sides were there before
      have hne : ¬ (m = h ∨ m + 1 = h) := by omega
      rw [not_or] at hne
      have hle : (0 < h ∧ h ≤ m) ↔ (0 < h ∧ h ≤ m + 1) := by omega
      simp [hname, hne, hlt, Nat.lt_succ_of_lt hlt, hle]
    · -- the new switch is on the right of the last host
      simp [hname]
    · rcases Nat.lt_or_ge (m + 1) h with hfar | hnext
      · have hne : ¬ m = h ∧ ¬ m + 1 = h := by omega
        have hnot : ¬ h ≤ m ∧ ¬ h ≤ m + 1 ∧ ¬ h < m ∧ ¬ h < m + 1 := by omega
        simp [hname, hne, hnot]
      · -- and on the left of a new one
        obtain rfl : h = m + 1 := by omega
        simp [hname]

theorem switchesOf_build {n h : ℕ} (hn : 2 ≤ n) (hh : h < n) :
    switchesOf (LineTopo.build n) (hostName h)
      = (if 0 < h then [switchName (h - 1)] else []) ++ if h + 1 < n then [switchName h] else [] := by
  rw [LineTopo.build, switchesOf_line]
  have hleft : (0 < h ∧ h ≤ n - 1) ↔ 0 < h := by omega
  have hright : h < n - 1 ↔ h + 1 < n := by omega
  simp only [hleft, hright]

/-! ## Their addresses -/

section Line

variable (scheme : AddressingScheme)

/-- The address of a host on subnet `s`. -/
def lineIp (s h : ℕ) : String := scheme.linkOctets s ++ "." ++ toString (h + 1)

variable {scheme}

theorem lineIp_inj {s s' h h' : ℕ} : lineIp scheme s h = lineIp scheme s' h' ↔ s = s' ∧ h = h' := by
  constructor
  · intro heq
    obtain ⟨hlink, hoctet⟩ := dotted_injective heq
    have hs := linkOctets_injective (by omega) (by omega) hlink
    omega
  · rintro ⟨rfl, rfl⟩
    rfl

theorem network24_lineIp {s s' h h' : ℕ} :
    network24 (lineIp scheme s h) = network24 (lineIp scheme s' h') ↔ s = s' := by
  rw [lineIp, lineIp, network24_dotted, network24_dotted, List.append_cancel_right_eq, String.toList_inj]
  constructor
  · intro heq
    have hs := linkOctets_injective (by omega) (by omega) heq
    omega
  · rintro rfl
    rfl

theorem hostIp_line {s h : ℕ} (hs : s ≤ 255) (hh : h < 254) :
    scheme.hostIp s h = .ok (lineIp scheme s h) :=
  AddressingScheme.hostIp_ok ⟨by omega, by omega⟩ hh

/-- The sides of a host: subnet and interface. -/
def sides (n idx : ℕ) : List (ℕ × ℕ) :=
  (if 0 < idx then [(idx - 1, 0)] else []) ++
    if idx + 1 < n then [(idx, if 0 < idx then 1 else 0)] else []

theorem hostAddresses_eq (n idx : ℕ) : LinearScenario.hostAddresses scheme n idx
    = (sides n idx).map fun side => LinearScenario.sideAddress scheme idx side.1 side.2 := by
  unfold LinearScenario.hostAddresses sides
  by_cases hleft : 0 < idx
  · by_cases hright : idx + 1 < n
    · simp only [hleft, hright, if_true, List.map_append, List.map_cons, List.map_nil]
    · simp only [hleft, hright, if_true, if_false, List.map_append, List.map_cons, List.map_nil]
  · by_cases hright : idx + 1 < n
    · simp only [hleft, hright, if_true, if_false, List.map_append, List.map_cons, List.map_nil]
    · simp only [hleft, hright, if_false, List.map_append, List.map_nil]

theorem mem_sides {n idx s k : ℕ} : (s, k) ∈ sides n idx ↔
    (0 < idx ∧ s = idx - 1 ∧ k = 0) ∨ (idx + 1 < n ∧ s = idx ∧ k = if 0 < idx then 1 else 0) := by
  unfold sides
  by_cases hleft : 0 < idx <;> by_cases hright : idx + 1 < n <;> simp [hleft, hright]

/-- An interface is one side. -/
theorem sides_unique {n idx s s' k : ℕ} (h : (s, k) ∈ sides n idx) (h' : (s', k) ∈ sides n idx) :
    s = s' := by
  rcases mem_sides.mp h with ⟨hpos, hs, hk⟩ | ⟨-, hs, hk⟩
  · rcases mem_sides.mp h' with ⟨-, hs', -⟩ | ⟨-, -, hk'⟩
    · rw [hs, hs']
    · rw [if_pos hpos, hk] at hk'
      cases hk'
  · rcases mem_sides.mp h' with ⟨hpos, -, hk'⟩ | ⟨-, hs', -⟩
    · rw [if_pos hpos, hk'] at hk
      cases hk
    · rw [hs, hs']

/-- The commands of `_set_ip_addr` for the hosts there is an octet for. -/
def lineCommands (scheme : AddressingScheme) (n : ℕ) : List Command :=
  (List.range n).flatMap fun idx =>
    (sides n idx).map fun side => ifconfigCommand (hostName idx) side.2 (lineIp scheme side.1 idx)

theorem setIpAddr_fits {n : ℕ} (hn : n ≤ 254) :
    LinearScenario.setIpAddr scheme n = (lineCommands scheme n, none) := by
  rw [LinearScenario.setIpAddr, ← runAll_ok, lineCommands, List.map_flatMap]
  congr 1
  refine List.flatMap_congr fun idx hidx => ?_
  have hlt : idx < n := List.mem_range.mp hidx
  rw [hostAddresses_eq, List.map_map]
  refine List.map_congr_left fun side hside => ?_
  have hs : side.1 ≤ idx := by
    rcases mem_sides.mp hside with ⟨-, hs, -⟩ | ⟨-, hs, -⟩ <;> omega
  rw [LinearScenario.sideAddress, hostIp_line (by omega) (by omega)]
  rfl

/-- Host number 254 has no octet. -/
theorem setIpAddr_fails {n : ℕ} (hn : 254 < n) : (LinearScenario.setIpAddr scheme n).2 ≠ none := by
  intro hnone
  rw [LinearScenario.setIpAddr, runAll_none_iff] at hnone
  -- its left side is within reach, its own octet is not
  have hside : (253, 0) ∈ sides n 254 := mem_sides.mpr (.inl ⟨by omega, rfl, rfl⟩)
  have hmem : LinearScenario.sideAddress scheme 254 253 0 ∈
      (List.range n).flatMap (LinearScenario.hostAddresses scheme n) := by
    refine List.mem_flatMap.mpr ⟨254, List.mem_range.mpr hn, ?_⟩
    rw [hostAddresses_eq]
    exact List.mem_map.mpr ⟨(253, 0), hside, rfl⟩
  obtain ⟨command, hcommand⟩ := hnone _ hmem
  rw [LinearScenario.sideAddress] at hcommand
  split at hcommand
  · cases hcommand
  · rename_i ip hip
    have hlt := (hostIp_eq hip).2.2.2
    omega

theorem ifconfig_mem_line {n h k : ℕ} {ip : String} :
    ifconfigCommand (hostName h) k ip ∈ lineCommands scheme n ↔
      h < n ∧ ∃ s, (s, k) ∈ sides n h ∧ ip = lineIp scheme s h := by
  simp only [lineCommands, List.mem_flatMap, List.mem_map, List.mem_range]
  constructor
  · rintro ⟨idx, hidx, ⟨s, k'⟩, hside, heq⟩
    obtain ⟨rfl, rfl, rfl⟩ := ifconfigCommand_inj.mp heq
    exact ⟨hidx, s, hside, rfl⟩
  · rintro ⟨hh, s, hside, rfl⟩
    exact ⟨h, hh, (s, k), hside, rfl⟩

/-- **What the interfaces of the line are attached to.** -/
theorem attached_line {n : ℕ} (hn : 2 ≤ n) {h : ℕ} {switch ip : String} :
    Attached (LineTopo.build n) (lineCommands scheme n) (hostName h) switch ip ↔
      h < n ∧ ∃ s, (s + 1 = h ∨ s = h ∧ h + 1 < n) ∧ switch = switchName s ∧ ip = lineIp scheme s h := by
  rw [attached_iff_command]
  · constructor
    · rintro ⟨k, hswitch, hcommand⟩
      obtain ⟨hh, s, hside, rfl⟩ := ifconfig_mem_line.mp hcommand
      rw [switchesOf_build hn hh] at hswitch
      refine ⟨hh, s, ?_⟩
      rcases mem_sides.mp hside with ⟨hpos, rfl, rfl⟩ | ⟨hlt, rfl, rfl⟩
      · simp only [hpos, if_true, List.cons_append, List.getElem?_cons_zero, Option.some.injEq] at hswitch
        exact ⟨.inl (by omega), hswitch.symm, rfl⟩
      · refine ⟨.inr ⟨rfl, hlt⟩, ?_, rfl⟩
        by_cases hpos : 0 < s <;> simp [hpos, hlt] at hswitch <;> exact hswitch.symm
    · rintro ⟨hh, s, hs, rfl, rfl⟩
      rcases hs with rfl | ⟨rfl, hlt⟩
      · refine ⟨0, ?_, ifconfig_mem_line.mpr ⟨hh, s, mem_sides.mpr (.inl ⟨by omega, by omega, rfl⟩), rfl⟩⟩
        rw [switchesOf_build hn hh]
        simp
      · refine ⟨_, ?_, ifconfig_mem_line.mpr ⟨hh, s, mem_sides.mpr (.inr ⟨hlt, rfl, rfl⟩), rfl⟩⟩
        rw [switchesOf_build hn hh]
        by_cases hpos : 0 < s <;> simp [hpos, hlt]
  · intro command hcommand
    obtain ⟨idx, -, hcommand⟩ := List.mem_flatMap.mp hcommand
    obtain ⟨side, -, rfl⟩ := List.mem_map.mp hcommand
    exact ⟨idx, _, _, rfl⟩
  · intro k ip ip' hip hip'
    obtain ⟨hh, s, hside, rfl⟩ := ifconfig_mem_line.mp hip
    obtain ⟨-, s', hside', rfl⟩ := ifconfig_mem_line.mp hip'
    rw [sides_unique hside hside']

/-! ## Its routes -/

/-- The commands of `_set_fib`. -/
def lineRoute (scheme : AddressingScheme) (idx : ℕ) : Command :=
  ⟨hostName idx, ["cefroute", "add", "ccnx:/test", "udp", lineIp scheme idx (idx + 1), "-d",
    "./" ++ hostName idx]⟩

theorem setFib_fits {n : ℕ} (hn : n ≤ 254) : LinearScenario.setFib scheme n
    = ((List.range (n - 1)).map (lineRoute scheme), none) := by
  rw [LinearScenario.setFib, ← runAll_ok, List.map_map]
  congr 1
  refine List.map_congr_left fun idx hidx => ?_
  have hlt : idx < n - 1 := List.mem_range.mp hidx
  rw [LinearScenario.fibCommand, hostIp_line (by omega) (by omega)]
  simp only [cefroute_udp]
  rfl

/-- The routes with what their commands returned. -/
def lineExecuted (scheme : AddressingScheme) (answer : ℕ → Option ℤ) (n : ℕ) : Executed :=
  (LinearScenario.setFib scheme n).1.zipIdx.map fun e => (e.1, answer e.2)

theorem entry_line {n : ℕ} (hn : n ≤ 254) {answer : ℕ → Option ℤ} {a : ℕ} {p ip : String} :
    HasEntry (lineExecuted scheme answer n) (hostName a) p ip ↔
      a + 1 < n ∧ p = "ccnx:/test" ∧ ip = lineIp scheme a (a + 1) ∧ answer a = some 0 := by
  have hall : ∀ {e : Command × ℕ}, e ∈ ((List.range (n - 1)).map (lineRoute scheme)).zipIdx ↔
      e.2 + 1 < n ∧ e.1 = lineRoute scheme e.2 := by
    intro e
    rw [List.mem_zipIdx_iff_getElem?, List.getElem?_eq_some_iff]
    constructor
    · rintro ⟨hlt, heq⟩
      rw [List.length_map, List.length_range] at hlt
      simp only [List.getElem_map, List.getElem_range] at heq
      exact ⟨by omega, heq.symm⟩
    · rintro ⟨hlt, heq⟩
      refine ⟨by rw [List.length_map, List.length_range]; omega, ?_⟩
      simp only [List.getElem_map, List.getElem_range, heq]
  rw [HasEntry, lineExecuted, setFib_fits hn, List.mem_map]
  constructor
  · rintro ⟨⟨c, i⟩, hmem, heq⟩
    obtain ⟨hlt, hc⟩ := hall.mp hmem
    have hcommand := (Prod.mk.inj heq).1
    have hanswer := (Prod.mk.inj heq).2
    rw [show c = lineRoute scheme i from hc] at hcommand
    simp only [lineRoute, Command.mk.injEq, List.cons.injEq, true_and] at hcommand
    obtain ⟨hnode, rfl, rfl, -⟩ := hcommand
    obtain rfl := hostName_injective hnode
    exact ⟨hlt, rfl, rfl, hanswer⟩
  · rintro ⟨hlt, rfl, rfl, hanswer⟩
    exact ⟨(lineRoute scheme a, a), hall.mpr ⟨hlt, rfl⟩, by rw [hanswer]; rfl⟩

/-- Every host forwards to the one on its right. -/
theorem hop_line {n : ℕ} (hn : 2 ≤ n) (hfits : n ≤ 254) {answer : ℕ → Option ℤ} {a b : ℕ} :
    Hop (LineTopo.build n) (lineCommands scheme n) (lineExecuted scheme answer n) "ccnx:/test" a b ↔
      b = a + 1 ∧ b < n ∧ answer a = some 0 := by
  constructor
  · rintro ⟨ip, switch, ip', hentry, hb, -, -⟩
    obtain ⟨hlt, -, rfl, hanswer⟩ := (entry_line hfits).mp hentry
    obtain ⟨-, s, -, -, heq⟩ := (attached_line hn).mp hb
    obtain ⟨-, rfl⟩ := lineIp_inj.mp heq
    exact ⟨rfl, hlt, hanswer⟩
  · rintro ⟨rfl, hlt, hanswer⟩
    refine ⟨lineIp scheme a (a + 1), switchName a, lineIp scheme a a,
      (entry_line hfits).mpr ⟨hlt, rfl, rfl, hanswer⟩, ?_, ?_, network24_lineIp.mpr rfl⟩
    · exact (attached_line hn).mpr ⟨hlt, a, .inl rfl, rfl, rfl⟩
    · exact (attached_line hn).mpr ⟨by omega, a, .inr ⟨rfl, hlt⟩, rfl, rfl⟩

/-- **The line delivers to its end.** For every number of hosts the scenario accepts: `_set_ip_addr` is
    ended by no exception exactly up to 254 of them. Then neither is `_set_fib`, whatever
    `cefroute add` returned each host whose command succeeded forwards to the host on its right and to
    no other, no other host forwards, and from a host with none that failed on the way what is asked
    for comes to the publisher at the end of the line in as many hops as there are switches between. -/
theorem line_delivers (scheme : AddressingScheme) {n : ℕ} (hn : LinearScenario.accepts n = true)
    (answer : ℕ → Option ℤ) :
    ((LinearScenario.setIpAddr scheme n).2 = none ↔ n ≤ 254) ∧
      (n ≤ 254 → (LinearScenario.setFib scheme n).2 = none ∧
        let hop := Hop (LineTopo.build n) (LinearScenario.setIpAddr scheme n).1
          (lineExecuted scheme answer n) "ccnx:/test"
        (∀ a b, hop a b ↔ b = a + 1 ∧ b < n ∧ answer a = some 0) ∧
        ∀ a < n, (∀ i, a ≤ i → i + 1 < n → answer i = some 0) →
          Arrives hop (n - 1) (n - 1 - a) a) := by
  have hn : 2 ≤ n := not_lt.mp (of_decide_eq_true hn)
  refine ⟨⟨fun hnone => ?_, fun hfits => by rw [setIpAddr_fits hfits]⟩, fun hfits => ⟨?_, ?_⟩⟩
  · by_contra hmany
    exact setIpAddr_fails (by omega) hnone
  · rw [setFib_fits hfits]
  · intro hop
    have hhop : ∀ a b, hop a b ↔ b = a + 1 ∧ b < n ∧ answer a = some 0 := by
      intro a b
      have hline := @hop_line scheme n hn hfits answer a b
      rwa [show lineCommands scheme n = (LinearScenario.setIpAddr scheme n).1 by
        rw [setIpAddr_fits hfits]] at hline
    refine ⟨hhop, fun a ha hanswers => ?_⟩
    -- the rank of a host is how far it is from the end
    refine Arrives.of_rank (fun b => n - 1 - b) (fun b hb hzero => ?_) (by omega)
      (fun b hb hne => ?_) (fun b c hb hne hbc => ?_)
      (P := fun b => b < n ∧ ∀ i, b ≤ i → i + 1 < n → answer i = some 0) ⟨ha, hanswers⟩
    · have := hb.1
      omega
    · have := hb.1
      exact ⟨b + 1, (hhop b (b + 1)).mpr ⟨rfl, by omega, hb.2 b (le_refl b) (by omega)⟩⟩
    · obtain ⟨rfl, hlt, -⟩ := (hhop b c).mp hbc
      exact ⟨⟨hlt, fun i hi => hb.2 i (by omega)⟩, by omega⟩

end Line

/-- Five hosts, and a `cefroute add` that failed on the first. -/
theorem line_delivers_five :
    let hop := Hop (LineTopo.build 5) (LinearScenario.setIpAddr .default 5).1
      (lineExecuted .default (fun i => if i = 0 then some 1 else some 0) 5) "ccnx:/test"
    ¬ hop 0 1 ∧ Arrives hop 4 3 1 := by
  obtain ⟨-, h⟩ := @line_delivers .default 5 (by decide) fun i => if i = 0 then some 1 else some 0
  obtain ⟨-, hhop, harrives⟩ := h (by decide)
  refine ⟨fun h01 => absurd ((hhop 0 1).mp h01).2.2 (by decide), harrives 1 (by decide) fun i hi _ => ?_⟩
  rw [if_neg (by omega)]

end Proof
end CeforeEmu
