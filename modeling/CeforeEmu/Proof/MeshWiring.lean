import Mathlib.Tactic
import CeforeEmu.Core.Topology
import CeforeEmu.Runtime.MeshTopo

/-!
# How switches are wired

The last loop of both builders numbers the interfaces of a host by its `addLink` calls. `Wired`
says so of any prefix of the loop.
-/

set_option autoImplicit false

namespace CeforeEmu
namespace Proof

open CeforeEmu.Lib CeforeEmu.Core CeforeEmu.Runtime

theorem attachHosts_ports (switch : String) (h : ℕ) :
    ∀ {hs : List ℕ}, hs.Nodup → ∀ (ports : ℕ → ℕ) (eth : Dict ℕ ℕ) (calls : List (String × String)),
      (attachHosts switch hs ports eth calls).1 h = ports h + if h ∈ hs then 1 else 0 := by
  intro hs hnd
  induction hs with
  | nil =>
    intro ports eth calls
    simp [attachHosts]
  | cons x rest ih =>
    intro ports eth calls
    obtain ⟨hx, hrest⟩ := List.nodup_cons.mp hnd
    rw [attachHosts, ih hrest]
    by_cases hhx : h = x
    · subst hhx
      simp [hx]
    · simp [hhx]

theorem attachHosts_eth (switch : String) (h : ℕ) :
    ∀ {hs : List ℕ}, hs.Nodup → ∀ (ports : ℕ → ℕ) (eth : Dict ℕ ℕ) (calls : List (String × String)),
      (attachHosts switch hs ports eth calls).2.1.get? h
        = if h ∈ hs then some (ports h) else eth.get? h := by
  intro hs hnd
  induction hs with
  | nil =>
    intro ports eth calls
    simp [attachHosts]
  | cons x rest ih =>
    intro ports eth calls
    obtain ⟨hx, hrest⟩ := List.nodup_cons.mp hnd
    rw [attachHosts, ih hrest]
    by_cases hhx : h = x
    · subst hhx
      simp [hx]
    · simp [hhx, Dict.get?_set]

/-- The links a host is on. -/
def hostLinks (w : Wiring) (h : ℕ) : List Link := linksForHost (topologyLinks w.meshLinks) h

/-- The switches of a host's `addLink` calls. -/
def hostCalls (w : Wiring) (h : ℕ) : List String :=
  (w.netLinks.filter fun call => call.1 = hostName h).map (·.2)

/-- What holds after any number of switches: the subnets count up from one, and on the links a
    host is on its interfaces count up from zero, in the order of its calls. -/
structure Wired (w : Wiring) : Prop where
  subnets : w.meshLinks.map (·.subnet)
    = (List.range w.meshLinks.length).map fun i : ℕ => some ((i : ℤ) + 1)
  eths : ∀ h, (hostLinks w h).map (fun link => link.hostEth.get? h)
    = (List.range (w.hostPorts h)).map some
  calls : ∀ h, (hostLinks w h).map (·.switch) = (hostCalls w h).map some

theorem hostLinks_wireSwitch (w : Wiring) (idx : ℕ) (hosts : List ℕ) (h : ℕ) :
    hostLinks (wireSwitch w idx hosts) h = hostLinks w h ++ if h ∈ hosts then
      [⟨some (switchName idx), some ((idx : ℤ) + 1), sorted (sorted hosts),
        (attachHosts (switchName idx) (sorted hosts) w.hostPorts [] w.netLinks).2.1⟩] else [] := by
  simp only [hostLinks, linksForHost, topologyLinks, wireSwitch, List.map_append, List.filter_append,
    List.map_cons, List.map_nil, Core.normalize]
  by_cases hh : h ∈ hosts
  · simp [hh, mem_sorted]
  · simp [hh, mem_sorted]

theorem hostCalls_wireSwitch (w : Wiring) (idx : ℕ) {hosts : List ℕ} (hnd : hosts.Nodup) (h : ℕ) :
    hostCalls (wireSwitch w idx hosts) h
      = hostCalls w h ++ if h ∈ hosts then [switchName idx] else [] := by
  have hcalls : ∀ {hs : List ℕ}, hs.Nodup →
      ((hs.map fun x => (hostName x, switchName idx)).filter fun call => call.1 = hostName h).map
        (·.2) = if h ∈ hs then [switchName idx] else [] := by
    intro hs hnd
    induction hs with
    | nil => simp
    | cons x rest ih =>
      obtain ⟨hx, hrest⟩ := List.nodup_cons.mp hnd
      by_cases hhx : h = x
      · subst hhx
        have := ih hrest
        rw [if_neg hx] at this
        simp [this]
      · have hne : ¬ hostName x = hostName h := fun heq => hhx (hostName_injective heq).symm
        simp only [List.map_cons, List.filter_cons, hne, decide_false, Bool.false_eq_true, if_false,
          ih hrest, List.mem_cons, hhx, false_or]
  simp only [hostCalls, wireSwitch, attachHosts_calls, List.filter_append, List.map_append]
  rw [hcalls (sorted_nodup hnd)]
  simp only [mem_sorted]

theorem wireSwitch_wired {w : Wiring} (hw : Wired w) {hosts : List ℕ} (hnd : hosts.Nodup) :
    Wired (wireSwitch w w.meshLinks.length hosts) := by
  refine ⟨?_, fun h => ?_, fun h => ?_⟩
  · simp only [wireSwitch, List.length_append, List.length_cons, List.length_nil, List.range_succ,
      List.map_append, hw.subnets]
    rfl
  · rw [hostLinks_wireSwitch, List.map_append, hw.eths]
    have hports : (wireSwitch w w.meshLinks.length hosts).hostPorts h
        = w.hostPorts h + if h ∈ sorted hosts then 1 else 0 :=
      attachHosts_ports _ h (sorted_nodup hnd) _ _ _
    rw [hports]
    by_cases hh : h ∈ hosts
    · have hs : h ∈ sorted hosts := mem_sorted.mpr hh
      simp only [if_pos hh, if_pos hs, List.map_cons, List.map_nil, List.range_succ, List.map_append]
      rw [attachHosts_eth _ h (sorted_nodup hnd), if_pos hs]
    · have hs : h ∉ sorted hosts := fun hs => hh (mem_sorted.mp hs)
      simp only [if_neg hh, if_neg hs, List.map_nil, List.append_nil, Nat.add_zero]
  · rw [hostLinks_wireSwitch, hostCalls_wireSwitch _ _ hnd, List.map_append, List.map_append, hw.calls]
    by_cases hh : h ∈ hosts
    · simp only [if_pos hh, List.map_cons, List.map_nil]
    · simp only [if_neg hh, List.map_nil]

theorem wireSwitches_wired : ∀ (rest : List (List ℕ)) {w : Wiring}, Wired w →
    (∀ hosts ∈ rest, hosts.Nodup) → Wired (wireSwitches w.meshLinks.length w rest)
  | [], _, hw, _ => hw
  | hosts :: rest, w, hw, hnd => by
    have hw' := wireSwitch_wired hw (hnd hosts List.mem_cons_self)
    have hlen : (wireSwitch w w.meshLinks.length hosts).meshLinks.length = w.meshLinks.length + 1 := by
      simp [wireSwitch]
    have := wireSwitches_wired rest hw' fun hs hhs => hnd hs (List.mem_cons_of_mem _ hhs)
    rw [hlen] at this
    exact this

/-- The hosts of the links are those of the switches. -/
theorem wireSwitches_hosts : ∀ (rest : List (List ℕ)) (idx : ℕ) (w : Wiring),
    (wireSwitches idx w rest).meshLinks.map (·.hosts)
      = w.meshLinks.map (·.hosts) ++ rest.map sorted
  | [], _, w => by simp [wireSwitches]
  | hosts :: rest, idx, w => by
    rw [wireSwitches, wireSwitches_hosts rest (idx + 1)]
    simp [wireSwitch, RawLink.hosts]

end Proof
end CeforeEmu
