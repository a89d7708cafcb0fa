import CeforeEmu.Lib.Arrivals
import CeforeEmu.Proof.MeshWiring
import CeforeEmu.Proof.Strategies
import CeforeEmu.Runtime.NetConfig

/-!
# What the commands configure

The program's view of the network is its links and its routes; the network's view is the interfaces
Mininet numbered, the addresses `ifconfig` gave them and the entries `cefroute` made. This file reads
the second off the commands (`ifAddress`, `Attached`, `HasEntry`, `Hop`) and compares the two.

A host's interfaces are numbered by its `addLink` calls and its links list the same numbers, so the
commands address each interface once, on the subnet of its switch (`attached_iff`). An address names
the link and the host, so a route's address is found on the link it was computed for and nowhere
else, and the hops of the network are the routes (`hop_iff`).
-/

set_option autoImplicit false

namespace CeforeEmu
namespace Proof

open CeforeEmu.Lib CeforeEmu.Core CeforeEmu.Runtime

/-! ## Reading the commands -/

/-- What a command sets the interface to. -/
def setting (node iface : String) (command : Command) : Option (String × String) :=
  if command.node = node then
    match command.argv with
    | ["ifconfig", iface', ip, "netmask", mask] => if iface' = iface then some (ip, mask) else none
    | _ => none
  else none

/-- The address and the mask of an interface: the last that was set. -/
def ifAddress (commands : List Command) (node iface : String) : Option (String × String) :=
  (commands.filterMap (setting node iface)).getLast?

/-- The switches of a node's interfaces: Mininet numbers them in the order of the calls. -/
def switchesOf (netLinks : List (String × String)) (node : String) : List String :=
  (netLinks.filter fun call => call.1 = node).map (·.2)

/-- The node has an interface on the switch, and it has this address out of a /24. -/
def Attached (netLinks : List (String × String)) (commands : List Command) (node switch ip : String) :
    Prop :=
  ∃ k, (switchesOf netLinks node)[k]? = some switch ∧
    ifAddress commands node (ethName node k) = some (ip, linkNetmask)

/-- What a /24 leaves of an address: everything up to its last dot. -/
def network24 (ip : String) : List Char := (ip.toList.reverse.dropWhile fun c => c ≠ '.').reverse

/-- A `cefroute add` for the node's own daemon that succeeded. -/
def HasEntry (executed : Executed) (node uriPrefix ip : String) : Prop :=
  (⟨node, ["cefroute", "add", uriPrefix, "udp", ip, "-d", "./" ++ node]⟩, some 0) ∈ executed

/-- `a` forwards the prefix to `b`: it has an entry with an address of `b` on a switch they share,
    out of a network one of its own interfaces there is in. -/
def Hop (netLinks : List (String × String)) (commands : List Command) (executed : Executed)
    (uriPrefix : String) (a b : ℕ) : Prop :=
  ∃ ip switch ip', HasEntry executed (hostName a) uriPrefix ip ∧
    Attached netLinks commands (hostName b) switch ip ∧
    Attached netLinks commands (hostName a) switch ip' ∧ network24 ip' = network24 ip

/-! ### Their lemmas -/

theorem runAll_ok (commands : List Command) : runAll (commands.map .ok) = (commands, none) := by
  induction commands with
  | nil => rfl
  | cons command commands ih => simp [runAll, ih]

/-- A loop that was not ended by an exception ran every command. -/
theorem runAll_eq_map {es : List (Except PyErr Command)} (h : (runAll es).2 = none) :
    es = (runAll es).1.map .ok := by
  induction es with
  | nil => rfl
  | cons e es ih =>
    cases e with
    | error err => simp [runAll] at h
    | ok command =>
      simp only [runAll, List.map_cons] at h ⊢
      rw [← ih h]

theorem runAll_none_iff {es : List (Except PyErr Command)} :
    (runAll es).2 = none ↔ ∀ e ∈ es, ∃ command, e = .ok command := by
  induction es with
  | nil => simp [runAll]
  | cons e es ih =>
    cases e with
    | error err => simp [runAll]
    | ok command => simp [runAll, ih]

theorem setting_ifconfig {node node' iface ip : String} {eth : ℕ} :
    setting node iface (ifconfigCommand node' eth ip)
      = if node' = node ∧ ethName node' eth = iface then some (ip, linkNetmask) else none := by
  unfold setting ifconfigCommand
  by_cases hnode : node' = node
  · simp [hnode]
  · simp [hnode]

theorem ethName_injective {node : String} {k k' : ℕ} (h : ethName node k = ethName node k') : k = k' :=
  numbered_injective (node ++ "-eth") h

theorem ifAddress_mem {commands : List Command} {node iface : String} {value : String × String}
    (h : ifAddress commands node iface = some value) :
    ∃ command ∈ commands, setting node iface command = some value :=
  List.mem_filterMap.mp (List.mem_of_getLast? h)

/-- An interface that is only ever set to one address has it. -/
theorem ifAddress_of_unique {commands : List Command} {node iface : String} {value : String × String}
    (hset : ∃ command ∈ commands, setting node iface command = some value)
    (hall : ∀ command ∈ commands, ∀ value', setting node iface command = some value' → value' = value) :
    ifAddress commands node iface = some value := by
  have hmem : value ∈ commands.filterMap (setting node iface) := List.mem_filterMap.mpr hset
  cases hlast : (commands.filterMap (setting node iface)).getLast? with
  | none =>
    rw [List.getLast?_eq_none_iff] at hlast
    rw [hlast] at hmem
    cases hmem
  | some value' =>
    obtain ⟨command, hcommand, hvalue'⟩ := List.mem_filterMap.mp (List.mem_of_getLast? hlast)
    rw [ifAddress, hlast, hall command hcommand value' hvalue']

theorem ifconfigCommand_inj {h h' k k' : ℕ} {ip ip' : String} :
    ifconfigCommand (hostName h) k ip = ifconfigCommand (hostName h') k' ip' ↔
      h = h' ∧ k = k' ∧ ip = ip' := by
  constructor
  · intro heq
    simp only [ifconfigCommand, Command.mk.injEq, List.cons.injEq, true_and] at heq
    obtain ⟨hnode, heth, rfl, -⟩ := heq
    obtain rfl := hostName_injective hnode
    exact ⟨rfl, ethName_injective heth, rfl⟩
  · rintro ⟨rfl, rfl, rfl⟩
    rfl

/-- Where each interface is addressed once, an attachment is an interface and its command. -/
theorem attached_iff_command {netLinks : List (String × String)} {commands : List Command}
    (hform : ∀ command ∈ commands, ∃ h k ip, command = ifconfigCommand (hostName h) k ip) {h : ℕ}
    (honce : ∀ k ip ip', ifconfigCommand (hostName h) k ip ∈ commands →
      ifconfigCommand (hostName h) k ip' ∈ commands → ip = ip') {switch ip : String} :
    Attached netLinks commands (hostName h) switch ip ↔
      ∃ k, (switchesOf netLinks (hostName h))[k]? = some switch ∧
        ifconfigCommand (hostName h) k ip ∈ commands := by
  -- a command that sets the interface is the command of the interface
  have hset : ∀ {k : ℕ} {command : Command} {value : String × String}, command ∈ commands →
      setting (hostName h) (ethName (hostName h) k) command = some value →
      ∃ ip, command = ifconfigCommand (hostName h) k ip ∧ value = (ip, linkNetmask) := by
    intro k command value hcommand hvalue
    obtain ⟨h', k', ip, rfl⟩ := hform command hcommand
    rw [setting_ifconfig] at hvalue
    split at hvalue
    · rename_i hwhere
      obtain rfl := hostName_injective hwhere.1
      obtain rfl := ethName_injective hwhere.2
      exact ⟨ip, rfl, (Option.some.inj hvalue).symm⟩
    · cases hvalue
  refine exists_congr fun k => and_congr_right fun _ => ⟨fun haddress => ?_, fun hcommand => ?_⟩
  · obtain ⟨command, hcommand, hvalue⟩ := ifAddress_mem haddress
    obtain ⟨ip', rfl, heq⟩ := hset hcommand hvalue
    cases heq
    exact hcommand
  · refine ifAddress_of_unique ⟨_, hcommand, ?_⟩ fun command hcommand' value hvalue => ?_
    · rw [setting_ifconfig, if_pos ⟨rfl, rfl⟩]
    · obtain ⟨ip', rfl, rfl⟩ := hset hcommand' hvalue
      rw [honce k ip ip' hcommand hcommand']

theorem network24_dotted (x : String) (n : ℕ) :
    network24 (x ++ "." ++ toString n) = x.toList ++ ['.'] := by
  have hdigits : ∀ c ∈ (Nat.toDigits 10 n).reverse, decide (c ≠ '.') = true := by
    intro c hc
    refine decide_eq_true fun heq => ?_
    have hdigit := Nat.isDigit_of_mem_toDigits (by decide) (by decide) (List.mem_reverse.mp hc)
    rw [heq] at hdigit
    exact absurd hdigit (by decide)
  rw [network24, toList_dotted, List.reverse_append, List.reverse_cons, List.append_assoc,
    List.dropWhile_append_of_pos hdigits]
  simp

theorem hostIp_eq {scheme : AddressingScheme} {subnet : ℤ} {host : ℕ} {ip : String}
    (h : scheme.hostIp subnet host = .ok ip) :
    ip = scheme.linkOctets subnet ++ "." ++ toString (host + 1) ∧ 0 ≤ subnet ∧ subnet ≤ 255 ∧
      host < 254 := by
  rw [AddressingScheme.hostIp] at h
  split at h
  · cases h
  · rename_i hsubnet
    split at h
    · cases h
    · rename_i hhost
      exact ⟨(Except.ok.inj h).symm, by omega, by omega, by omega⟩

/-- Two addresses are in one network exactly if their subnets are the same. -/
theorem network24_eq_iff {scheme : AddressingScheme} {s s' : ℤ} {a b : ℕ} {ip ip' : String}
    (h : scheme.hostIp s a = .ok ip) (h' : scheme.hostIp s' b = .ok ip') :
    network24 ip = network24 ip' ↔ s = s' := by
  obtain ⟨rfl, hs, -⟩ := hostIp_eq h
  obtain ⟨rfl, hs', -⟩ := hostIp_eq h'
  rw [network24_dotted, network24_dotted]
  constructor
  · intro heq
    exact linkOctets_injective hs hs' (String.toList_inj.mp (List.append_cancel_right heq))
  · rintro rfl
    rfl

/-! ## The addresses -/

theorem linkAddress_ok_iff {scheme : AddressingScheme} {link : Link} {host : ℕ} {command : Command} :
    linkAddress scheme link host = .ok command ↔
      ∃ eth subnet ip, link.hostEth.get? host = some eth ∧ link.subnet = some subnet ∧
        scheme.hostIp subnet host = .ok ip ∧ command = ifconfigCommand (hostName host) eth ip := by
  unfold linkAddress
  cases heth : link.hostEth.get? host with
  | none => simp
  | some eth =>
    cases hsubnet : link.subnet with
    | none => simp
    | some subnet =>
      cases hip : scheme.hostIp subnet host with
      | error err => simp [hip]
      | ok ip =>
        simp only [hip, Except.ok.injEq, Option.some.injEq]
        constructor
        · intro h
          exact ⟨eth, subnet, ip, rfl, rfl, hip, h.symm⟩
        · rintro ⟨_, _, ip', rfl, rfl, hip', rfl⟩
          rw [hip, Except.ok.injEq] at hip'
          rw [hip']

theorem mem_hostLinks {w : Wiring} {h : ℕ} {link : Link} :
    link ∈ hostLinks w h ↔ link ∈ topologyLinks w.meshLinks ∧ h ∈ link.hosts := by
  simp [hostLinks, linksForHost]

/-- Interface `k` of a host is the one of its link number `k`. -/
theorem Wired.eth_iff {w : Wiring} (hw : Wired w) {h k : ℕ} {link : Link} (hlink : link ∈ hostLinks w h) :
    link.hostEth.get? h = some k ↔ (hostLinks w h)[k]? = some link := by
  have hat : ∀ {i : ℕ} {l : Link}, (hostLinks w h)[i]? = some l → l.hostEth.get? h = some i := by
    intro i l hl
    have heth := congrArg (·[i]?) (hw.eths h)
    simp only [List.getElem?_map, hl, Option.map_some] at heth
    cases hrange : (List.range (w.hostPorts h))[i]? with
    | none => simp [hrange] at heth
    | some j =>
      obtain ⟨hlt, hj⟩ := List.getElem?_eq_some_iff.mp hrange
      rw [List.getElem_range] at hj
      rw [hrange, Option.map_some, Option.some.injEq] at heth
      rw [heth, hj]
  constructor
  · intro heth
    obtain ⟨i, hi⟩ := List.mem_iff_getElem?.mp hlink
    rw [hat hi, Option.some.injEq] at heth
    rw [← heth, hi]
  · exact hat

theorem Wired.switch_iff {w : Wiring} (hw : Wired w) {h k : ℕ} {switch : String} :
    (switchesOf w.netLinks (hostName h))[k]? = some switch ↔
      ∃ link, (hostLinks w h)[k]? = some link ∧ link.switch = some switch := by
  have hcalls := congrArg (·[k]?) (hw.calls h)
  simp only [List.getElem?_map] at hcalls
  have hsame : switchesOf w.netLinks (hostName h) = hostCalls w h := rfl
  rw [hsame]
  cases hlink : (hostLinks w h)[k]? with
  | none =>
    cases hcall : (hostCalls w h)[k]? with
    | none => simp
    | some call => simp [hlink, hcall] at hcalls
  | some link =>
    rw [hlink] at hcalls
    cases hcall : (hostCalls w h)[k]? with
    | none => simp [hcall] at hcalls
    | some call =>
      simp only [hcall, Option.map_some, Option.some.injEq] at hcalls
      simp [hcalls]

section Addressed

variable {scheme : AddressingScheme} {w : Wiring} (hw : Wired w)
  (hnone : (applyIpAddr scheme w.meshLinks).2 = none)
include hnone

theorem mem_commands {command : Command} : command ∈ (applyIpAddr scheme w.meshLinks).1 ↔
    ∃ link ∈ topologyLinks w.meshLinks, ∃ h ∈ link.hosts, linkAddress scheme link h = .ok command := by
  have hall := runAll_eq_map hnone
  have hmem : command ∈ (applyIpAddr scheme w.meshLinks).1 ↔
      Except.ok command ∈ (topologyLinks w.meshLinks).flatMap fun link =>
        link.hosts.map (linkAddress scheme link) := by
    rw [hall, List.mem_map]
    constructor
    · exact fun h => ⟨command, h, rfl⟩
    · rintro ⟨command', h, heq⟩
      cases heq
      exact h
  rw [hmem]
  simp only [List.mem_flatMap, List.mem_map]

include hw

theorem ifconfig_mem_iff {h k : ℕ} {ip : String} :
    ifconfigCommand (hostName h) k ip ∈ (applyIpAddr scheme w.meshLinks).1 ↔
      ∃ link, (hostLinks w h)[k]? = some link ∧
        ∃ subnet, link.subnet = some subnet ∧ scheme.hostIp subnet h = .ok ip := by
  rw [mem_commands hnone]
  constructor
  · rintro ⟨link, hlink, h', hh', haddress⟩
    obtain ⟨eth, subnet, ip', heth, hsubnet, hip', heq⟩ := linkAddress_ok_iff.mp haddress
    obtain ⟨rfl, rfl, rfl⟩ := ifconfigCommand_inj.mp heq
    exact ⟨link, (hw.eth_iff (mem_hostLinks.mpr ⟨hlink, hh'⟩)).mp heth, subnet, hsubnet, hip'⟩
  · rintro ⟨link, hlink, subnet, hsubnet, hip⟩
    have hmem := List.mem_of_getElem? hlink
    obtain ⟨hin, hh⟩ := mem_hostLinks.mp hmem
    exact ⟨link, hin, h, hh, linkAddress_ok_iff.mpr
      ⟨k, subnet, ip, (hw.eth_iff hmem).mpr hlink, hsubnet, hip, rfl⟩⟩

/-- **What an interface is attached to**: a link of the host, by its switch and its subnet. -/
theorem attached_iff {h : ℕ} {switch ip : String} :
    Attached w.netLinks (applyIpAddr scheme w.meshLinks).1 (hostName h) switch ip ↔
      ∃ link ∈ hostLinks w h, link.switch = some switch ∧
        ∃ subnet, link.subnet = some subnet ∧ scheme.hostIp subnet h = .ok ip := by
  rw [attached_iff_command]
  · constructor
    · rintro ⟨k, hswitch, hcommand⟩
      obtain ⟨link, hlink, hsw⟩ := hw.switch_iff.mp hswitch
      obtain ⟨link', hlink', haddress⟩ := (ifconfig_mem_iff hw hnone).mp hcommand
      rw [hlink, Option.some.injEq] at hlink'
      exact ⟨link, List.mem_of_getElem? hlink, hsw, hlink' ▸ haddress⟩
    · rintro ⟨link, hlink, hsw, haddress⟩
      obtain ⟨k, hk⟩ := List.mem_iff_getElem?.mp hlink
      exact ⟨k, hw.switch_iff.mpr ⟨link, hk, hsw⟩, (ifconfig_mem_iff hw hnone).mpr ⟨link, hk, haddress⟩⟩
  · intro command hcommand
    obtain ⟨link, -, h', -, haddress⟩ := (mem_commands hnone).mp hcommand
    obtain ⟨eth, -, ip, -, -, -, rfl⟩ := linkAddress_ok_iff.mp haddress
    exact ⟨h', eth, ip, rfl⟩
  · intro k ip ip' hip hip'
    obtain ⟨link, hlink, subnet, hsubnet, haddr⟩ := (ifconfig_mem_iff hw hnone).mp hip
    obtain ⟨link', hlink', subnet', hsubnet', haddr'⟩ := (ifconfig_mem_iff hw hnone).mp hip'
    rw [hlink, Option.some.injEq] at hlink'
    subst hlink'
    rw [hsubnet, Option.some.injEq] at hsubnet'
    subst hsubnet'
    rw [haddr, Except.ok.injEq] at haddr'
    exact haddr'

end Addressed

/-! ## The wiring of a topology -/

section Wired

variable {scheme : AddressingScheme} {switches : List (List ℕ)}

/-- The network of a list of switches. -/
def wired (switches : List (List ℕ)) : Wiring := wireSwitches 0 .empty switches

theorem wired_wired (hnd : ∀ hosts ∈ switches, hosts.Nodup) : Wired (wired switches) :=
  @wireSwitches_wired switches .empty ⟨rfl, fun _ => rfl, fun _ => rfl⟩ hnd

/-- Link number `i` is that of switch number `i`. -/
theorem wired_link {link : Link} (h : link ∈ topologyLinks (wired switches).meshLinks) :
    ∃ (i : ℕ) (hosts : List ℕ), switches[i]? = some hosts ∧
      (topologyLinks (wired switches).meshLinks)[i]? = some link ∧
      link.switch = some (switchName i) ∧ link.subnet = some ((i : ℤ) + 1) ∧
      ∀ a, a ∈ link.hosts ↔ a ∈ hosts := by
  obtain ⟨i, hi⟩ := List.mem_iff_getElem?.mp h
  have hlt : i < switches.length := by
    have hlen := (List.getElem?_eq_some_iff.mp hi).1
    rwa [topologyLinks, List.length_map, wired, meshLinks_length_wired] at hlen
  have hhosts : switches[i]? = some (switches.get ⟨i, hlt⟩) := List.getElem?_eq_getElem hlt
  obtain ⟨eth, heth⟩ := wireSwitches_getElem? 0 .empty rfl hhosts
  rw [Nat.zero_add] at heth
  have hraw : (topologyLinks (wired switches).meshLinks)[i]?
      = some ⟨some (switchName i), some ((i : ℤ) + 1), sorted (sorted (switches.get ⟨i, hlt⟩)), eth⟩ := by
    rw [topologyLinks, List.getElem?_map, wired, heth]
    rfl
  refine ⟨i, _, hhosts, hi, ?_⟩
  rw [hi, Option.some.injEq] at hraw
  subst hraw
  exact ⟨rfl, rfl, fun a => by simp [mem_sorted]⟩

/-- A link is known by its switch, and by its subnet. -/
theorem wired_link_unique {link link' : Link} (h : link ∈ topologyLinks (wired switches).meshLinks)
    (h' : link' ∈ topologyLinks (wired switches).meshLinks) :
    (link.switch = link'.switch → link = link') ∧ (link.subnet = link'.subnet → link = link') := by
  obtain ⟨i, -, -, hi, hsw, hsub, -⟩ := wired_link h
  obtain ⟨i', -, -, hi', hsw', hsub', -⟩ := wired_link h'
  have hsame : i = i' → link = link' := by
    rintro rfl
    rw [hi, Option.some.injEq] at hi'
    exact hi'
  constructor
  · intro heq
    rw [hsw, hsw', Option.some.injEq] at heq
    exact hsame (switchName_injective heq)
  · intro heq
    rw [hsub, hsub', Option.some.injEq] at heq
    exact hsame (by omega)

/-- What an address can be given to: the first 255 switches, the first 254 hosts. -/
def Addressable (switches : List (List ℕ)) : Prop :=
  ∀ i hosts, switches[i]? = some hosts → ∀ h ∈ hosts, i < maxLinkSubnetId ∧ h ≤ maxHostIndex

theorem addressable_of_bounds (hlen : switches.length ≤ maxLinkSubnetId)
    (hhosts : ∀ hosts ∈ switches, ∀ h ∈ hosts, h ≤ maxHostIndex) : Addressable switches := by
  intro i hosts hi h hh
  have hlt := (List.getElem?_eq_some_iff.mp hi).1
  exact ⟨by omega, hhosts hosts (List.mem_of_getElem? hi) h hh⟩

theorem linkAddress_wired (hnd : ∀ hosts ∈ switches, hosts.Nodup) {link : Link} {h : ℕ}
    (hlink : link ∈ hostLinks (wired switches) h) {subnet : ℤ} (hsubnet : link.subnet = some subnet) :
    (∃ command, linkAddress scheme link h = .ok command) ↔ ∃ ip, scheme.hostIp subnet h = .ok ip := by
  obtain ⟨k, hk⟩ := List.mem_iff_getElem?.mp hlink
  have heth := ((wired_wired hnd).eth_iff hlink).mpr hk
  constructor
  · rintro ⟨command, hcommand⟩
    obtain ⟨-, subnet', ip, -, hsubnet', hip, -⟩ := linkAddress_ok_iff.mp hcommand
    rw [hsubnet, Option.some.injEq] at hsubnet'
    exact ⟨ip, hsubnet' ▸ hip⟩
  · rintro ⟨ip, hip⟩
    exact ⟨_, linkAddress_ok_iff.mpr ⟨k, subnet, ip, heth, hsubnet, hip, rfl⟩⟩

theorem hostIp_ok_iff {subnet : ℤ} (hpos : 0 ≤ subnet) {h : ℕ} :
    (∃ ip, scheme.hostIp subnet h = .ok ip) ↔ subnet ≤ 255 ∧ h < 254 := by
  constructor
  · rintro ⟨ip, hip⟩
    obtain ⟨-, -, hs, hh⟩ := hostIp_eq hip
    exact ⟨hs, hh⟩
  · rintro ⟨hs, hh⟩
    exact ⟨_, AddressingScheme.hostIp_ok ⟨hpos, hs⟩ hh⟩

/-- Every end of a link has an address in the subnet of the link. -/
theorem hostIp_of_link (hfits : Addressable switches) {link : Link}
    (hlink : link ∈ topologyLinks (wired switches).meshLinks) {h : ℕ} (hh : h ∈ link.hosts) :
    ∃ i : ℕ, link.switch = some (switchName i) ∧ link.subnet = some ((i : ℤ) + 1) ∧
      ∃ ip, scheme.hostIp ((i : ℤ) + 1) h = .ok ip := by
  obtain ⟨i, hosts, hi, -, hsw, hsubnet, hhosts⟩ := wired_link hlink
  obtain ⟨hlt, hle⟩ := hfits i hosts hi h ((hhosts h).mp hh)
  simp only [maxLinkSubnetId, maxHostIndex] at hlt hle
  exact ⟨i, hsw, hsubnet, (hostIp_ok_iff (by omega)).mpr ⟨by omega, by omega⟩⟩

/-- `apply_ip_addr` goes through exactly where every interface has an address to get. -/
theorem applyIpAddr_none_iff (hnd : ∀ hosts ∈ switches, hosts.Nodup) :
    (applyIpAddr scheme (wired switches).meshLinks).2 = none ↔ Addressable switches := by
  rw [applyIpAddr, runAll_none_iff]
  constructor
  · intro hall i hosts hi h hh
    obtain ⟨eth, heth⟩ := wireSwitches_getElem? 0 .empty rfl hi
    rw [Nat.zero_add] at heth
    have hlink : Core.normalize (.multi (some (switchName i)) (some ((i : ℤ) + 1)) (sorted hosts) eth)
        ∈ topologyLinks (wired switches).meshLinks :=
      List.mem_map_of_mem (List.mem_of_getElem? heth)
    have hmem : h ∈ sorted (sorted hosts) := by simpa [mem_sorted] using hh
    have hok := (linkAddress_wired hnd (mem_hostLinks.mpr ⟨hlink, hmem⟩) rfl).mp
      (hall _ (List.mem_flatMap.mpr ⟨_, hlink, List.mem_map_of_mem hmem⟩))
    obtain ⟨hs, hlt⟩ := (hostIp_ok_iff (by omega)).mp hok
    simp only [maxLinkSubnetId, maxHostIndex]
    omega
  · intro hfits e he
    obtain ⟨link, hlink, he⟩ := List.mem_flatMap.mp he
    obtain ⟨h, hh, rfl⟩ := List.mem_map.mp he
    obtain ⟨i, -, hsubnet, hip⟩ := hostIp_of_link hfits hlink hh
    exact (linkAddress_wired hnd (mem_hostLinks.mpr ⟨hlink, hh⟩) hsubnet).mpr hip

/-- **Every interface gets an address of its own.** For every wiring of switches to hosts,
    `apply_ip_addr` is ended by no exception exactly if there are subnets and octets for all of it;
    then every interface Mininet made has one address, no two have the same, and two are in the same
    /24 exactly if they are on the same switch. -/
theorem interfaces_addressed (hnd : ∀ hosts ∈ switches, hosts.Nodup) :
    let netLinks := (wired switches).netLinks
    let commands := (applyIpAddr scheme (wired switches).meshLinks).1
    ((applyIpAddr scheme (wired switches).meshLinks).2 = none ↔ Addressable switches) ∧
      (Addressable switches →
        (∀ (h k : ℕ) (switch : String), (switchesOf netLinks (hostName h))[k]? = some switch →
          ∃ ip, Attached netLinks commands (hostName h) switch ip) ∧
        ∀ (a b : ℕ) (switch switch' ip ip' : String), Attached netLinks commands (hostName a) switch ip →
          Attached netLinks commands (hostName b) switch' ip' →
          (ip = ip' ↔ a = b ∧ switch = switch') ∧
          (network24 ip = network24 ip' ↔ switch = switch')) := by
  refine ⟨applyIpAddr_none_iff hnd, fun hfits => ?_⟩
  have hw := wired_wired hnd
  have hnone : (applyIpAddr scheme (wired switches).meshLinks).2 = none :=
    (applyIpAddr_none_iff hnd).mpr hfits
  refine ⟨fun h k switch hswitch => ?_, fun a b switch switch' ip ip' ha hb => ?_⟩
  · obtain ⟨link, hlink, hsw⟩ := hw.switch_iff.mp hswitch
    have hmem := List.mem_of_getElem? hlink
    obtain ⟨hin, hh⟩ := mem_hostLinks.mp hmem
    obtain ⟨i, -, hsubnet, ip, hip⟩ := @hostIp_of_link scheme _ hfits _ hin _ hh
    exact ⟨ip, (attached_iff hw hnone).mpr ⟨link, hmem, hsw, _, hsubnet, hip⟩⟩
  · obtain ⟨link, hlink, hsw, subnet, hsubnet, hip⟩ := (attached_iff hw hnone).mp ha
    obtain ⟨link', hlink', hsw', subnet', hsubnet', hip'⟩ := (attached_iff hw hnone).mp hb
    have hunique := wired_link_unique (mem_hostLinks.mp hlink).1 (mem_hostLinks.mp hlink').1
    have hnet : subnet = subnet' ↔ switch = switch' := by
      constructor
      · rintro rfl
        have hsame := hunique.2 (hsubnet.trans hsubnet'.symm)
        rw [hsame, hsw', Option.some.injEq] at hsw
        exact hsw.symm
      · rintro rfl
        have hsame := hunique.1 (hsw.trans hsw'.symm)
        rw [hsame, hsubnet', Option.some.injEq] at hsubnet
        exact hsubnet.symm
    refine ⟨⟨?_, ?_⟩, (network24_eq_iff hip hip').trans hnet⟩
    · rintro rfl
      obtain ⟨hs, hab⟩ := hostIp_injective hip hip'
      exact ⟨hab, hnet.mp hs⟩
    · rintro ⟨rfl, hsw⟩
      rw [← hnet.mpr hsw, hip, Except.ok.injEq] at hip'
      exact hip'

end Wired

/-! ## The routes -/

theorem cefroute_udp (verb : RouteVerb) (host : ℕ) (uriPrefix nextHop : String)
    (nodeDir : Option String) :
    cefroute verb host uriPrefix (some "udp") nextHop nodeDir = .ok ⟨hostName host, ["cefroute",
      verb.word, uriPrefix, "udp", nextHop, "-d", nodeDir.getD ("./" ++ hostName host)]⟩ := by
  have hudp : Runtime.normalizeRouteProtocol (some "udp") = .ok "udp" := by decide
  rw [cefroute, hudp]

/-- The command of a route. -/
def addCommand (r : Route) : Command :=
  ⟨hostName r.source,
    ["cefroute", "add", r.uriPrefix, "udp", r.nextHopIp, "-d", "./" ++ hostName r.source]⟩

/-- What is listed of a route whose command returned this. -/
def routeFailure (r : Route) (returncode : Option ℤ) : Option RouteApplyFailure :=
  if returncode ≠ some 0 then some ⟨r.source, r.uriPrefix, r.nextHopIp, returncode⟩ else none

/-- The routes that are applied, of one source or of all. -/
def selected (source : Option ℕ) (routes : List Route) : List Route :=
  routes.filter fun r => source.isNone ∨ source = some r.source

/-- **Every selected route is tried**, in their order, and those that failed are listed. -/
theorem applyFibRoutes_eq (answer : ℕ → Option ℤ) (source : Option ℕ) (routes : List Route) :
    ∀ n, applyFibRoutes answer source n routes
      = .ok (((selected source routes).zipIdx n).map (fun e => (addCommand e.1, answer e.2)),
          ((selected source routes).zipIdx n).filterMap fun e => routeFailure e.1 (answer e.2)) := by
  induction routes with
  | nil => exact fun n => rfl
  | cons r routes ih =>
    intro n
    rw [applyFibRoutes]
    by_cases hskip : source.isSome ∧ source ≠ some r.source
    · have hnot : selected source (r :: routes) = selected source routes := by
        rw [selected, List.filter_cons_of_neg]
        · rfl
        · simpa [Option.isNone_iff_eq_none, ← Option.isSome_iff_ne_none] using hskip
      rw [if_pos hskip, ih, hnot]
    · have htake : selected source (r :: routes) = r :: selected source routes := by
        rw [selected, List.filter_cons_of_pos]
        · rfl
        · cases source with
          | none => rfl
          | some h => simpa using hskip
      rw [if_neg hskip, cefroute_udp, htake]
      simp only [ih]
      by_cases hfail : answer n ≠ some 0
      · simp [hfail, routeFailure, addCommand, RouteVerb.word]
      · simp [not_not.mp hfail, routeFailure, addCommand, RouteVerb.word]

/-- An entry is a route that is not listed as failed. -/
theorem entry_iff {answer : ℕ → Option ℤ} {routes : List Route} (hkeys : (routes.map routeKey).Nodup)
    {executed : Executed} {failures : List RouteApplyFailure}
    (h : applyFibRoutes answer none 0 routes = .ok (executed, failures)) {a : ℕ} {p ip : String} :
    HasEntry executed (hostName a) p ip ↔ ∃ r ∈ routes, routeKey r = (a, p, ip) ∧
      ∀ f ∈ failures, (f.source, f.uriPrefix, f.nextHopIp) ≠ (a, p, ip) := by
  have hall : selected none routes = routes := List.filter_eq_self.mpr fun r _ => by simp
  rw [applyFibRoutes_eq, hall, Except.ok.injEq, Prod.mk.injEq] at h
  obtain ⟨rfl, rfl⟩ := h
  -- the key of a route tells its place, and so which command was its own
  have hat : ∀ {i j : ℕ} {r r' : Route}, routes[i]? = some r → routes[j]? = some r' →
      routeKey r = routeKey r' → i = j := by
    intro i j r r' hi hj hkey
    refine (List.getElem?_inj ?_ hkeys).mp ?_
    · rw [List.length_map]
      exact (List.getElem?_eq_some_iff.mp hi).1
    · rw [List.getElem?_map, List.getElem?_map, hi, hj, Option.map_some, Option.map_some, hkey]
  constructor
  · intro hentry
    obtain ⟨⟨r, i⟩, hmem, heq⟩ := List.mem_map.mp hentry
    have hi := List.mem_zipIdx_iff_getElem?.mp hmem
    obtain ⟨hcommand, hanswer⟩ := Prod.mk.injEq .. ▸ heq
    have hkey : routeKey r = (a, p, ip) := by
      simp only [addCommand, Command.mk.injEq, List.cons.injEq, true_and] at hcommand
      obtain ⟨hsrc, rfl, rfl, -⟩ := hcommand
      rw [routeKey, hostName_injective hsrc]
    refine ⟨r, List.mem_of_getElem? hi, hkey, fun f hf hsame => ?_⟩
    obtain ⟨⟨r', j⟩, hmem', hfail⟩ := List.mem_filterMap.mp hf
    have hj := List.mem_zipIdx_iff_getElem?.mp hmem'
    simp only [routeFailure] at hfail
    split at hfail
    · rename_i hbad
      cases hfail
      obtain rfl := hat hi hj (hkey.trans hsame.symm)
      exact hbad hanswer
    · cases hfail
  · rintro ⟨r, hr, hkey, hnone⟩
    obtain ⟨i, hi⟩ := List.mem_iff_getElem?.mp hr
    simp only [routeKey, Prod.mk.injEq] at hkey
    obtain ⟨rfl, rfl, rfl⟩ := hkey
    have hmem : (r, i) ∈ routes.zipIdx := List.mem_zipIdx_iff_getElem?.mpr hi
    have hanswer : answer i = some 0 := by
      by_contra hbad
      refine hnone ⟨r.source, r.uriPrefix, r.nextHopIp, answer i⟩ ?_ rfl
      exact List.mem_filterMap.mpr ⟨(r, i), hmem, if_pos hbad⟩
    exact List.mem_map.mpr ⟨(r, i), hmem, by simp [addCommand, hanswer]⟩

section Routed

variable {switches : List (List ℕ)} {hostNum : ℕ} {uriPublishers : Dict String ℕ}
  (hnd : ∀ hosts ∈ switches, hosts ≠ [] ∧ hosts.Nodup) (hfits : Addressable switches)
include hnd hfits

theorem wired_wellFormed : WellFormedMesh (wired switches).meshLinks := by
  intro raw hraw
  have hlink : Core.normalize raw ∈ topologyLinks (wired switches).meshLinks := List.mem_map_of_mem hraw
  obtain ⟨i, hosts, hi, -, -, hsubnet, hhosts⟩ := wired_link hlink
  obtain ⟨hne, hnodup⟩ := hnd hosts (List.mem_of_getElem? hi)
  obtain ⟨h, hh⟩ := List.exists_mem_of_ne_nil _ hne
  have hlt := (hfits i hosts hi h hh).1
  simp only [maxLinkSubnetId] at hlt
  rw [normalize_subnet] at hsubnet
  simp only [normalize_hosts, mem_sorted] at hhosts
  have hraws : raw.hosts ∈ (wired switches).meshLinks.map (·.hosts) := List.mem_map_of_mem hraw
  rw [wired, wireSwitches_hosts, Wiring.empty, List.map_nil, List.nil_append] at hraws
  obtain ⟨hosts', hhosts', heq⟩ := List.mem_map.mp hraws
  refine ⟨?_, heq ▸ sorted_nodup (hnd hosts' hhosts').2, _, hsubnet, by omega, by omega⟩
  exact List.ne_nil_of_mem ((hhosts h).mpr hh)

variable (hn : hostCount (topologyLinks (wired switches).meshLinks) = .ok hostNum)
include hn

omit hnd in
theorem hostNum_le : hostNum ≤ 254 := by
  refine hostCountFrom_le (Nat.zero_le _) (fun link hlink h hh => ?_) hn
  obtain ⟨i, hosts, hi, -, -, -, hhosts⟩ := wired_link hlink
  have hle := (hfits i hosts hi h ((hhosts h).mp hh)).2
  simp only [maxHostIndex] at hle
  omega

/-- The address of a route is that of its next hop, on a link the source is on too. -/
theorem route_address (scheme : AddressingScheme) (prefixRoutes : Dict String ℕ)
    (hrange : ∀ entry ∈ uriPublishers, entry.2 < hostNum) (strategy : RoutingStrategy) (kPaths : ℤ) :
    ∃ routes, strategy.computeRoutes (wired switches).meshLinks kPaths uriPublishers scheme prefixRoutes
        = .ok routes ∧ (routes.map routeKey).Nodup ∧
      ∀ r ∈ routes, ∃ link ∈ hostLinks (wired switches) r.source,
        link ∈ hostLinks (wired switches) r.nextHop ∧
        ∃ subnet, link.subnet = some subnet ∧ scheme.hostIp subnet r.nextHop = .ok r.nextHopIp := by
  have hwf := wired_wellFormed hnd hfits
  have hle := hostNum_le hfits hn
  obtain ⟨tables, htables, rfl, ht⟩ := fibTables_spec scheme hwf hn
  have hends := computeRoutes_ends prefixRoutes hwf hn htables ht hrange kPaths strategy
  rcases hends.elim with ⟨routes, hroutes, h, -⟩ | ⟨_, -, ⟨hmany, -⟩, -⟩
  swap
  · omega
  refine ⟨routes, hroutes, ?_, fun r hr => ?_⟩
  · refine h.nodup.map_on fun r hr r' hr' hkey => ?_
    exact (h.genuine r hr).eq_of_key (h.genuine r' hr') hkey
  · obtain ⟨visit, hvisit, nh, hhop, rfl⟩ := (h.mem r).mp hr
    have hsrc : visit.src < tables.hostNum := visited_lt hrange ((mem_visitsOf strategy).mp hvisit)
    have hpick : PicksFrom (pickOf kPaths strategy) := by
      cases strategy with
      | dijkstra => exact pickBest_from kPaths
      | shortestPath => exact pickBest_from 1
      | ecmp => exact pickEqualCost_from
    obtain ⟨hadj, -⟩ := mem_hopsOf ht hpick hsrc hhop
    obtain ⟨raw, hraw, hs, hnh, hget⟩ := (fibTables_links hwf hn htables).2 hadj
    obtain ⟨-, -, subnet, hsubnet, -⟩ := hwf raw hraw
    have hlink : Core.normalize raw ∈ topologyLinks (wired switches).meshLinks := List.mem_map_of_mem hraw
    have hon : ∀ x ∈ raw.hosts, Core.normalize raw ∈ hostLinks (wired switches) x := fun x hx =>
      mem_hostLinks.mpr ⟨hlink, by rw [normalize_hosts]; exact mem_sorted.mpr hx⟩
    refine ⟨_, hon _ hs, hon _ hnh, subnet, by rw [normalize_subnet, hsubnet], ?_⟩
    have hip := h.genuine _ hr
    simp only [Genuine, routeVia, nextHopIp, hget, hsubnet] at hip
    exact hip

/-- The hops of the network are the routes, but for those whose command failed. -/
theorem hop_iff (scheme : AddressingScheme) (prefixRoutes : Dict String ℕ)
    (hrange : ∀ entry ∈ uriPublishers, entry.2 < hostNum) (strategy : RoutingStrategy) (kPaths : ℤ)
    (answer : ℕ → Option ℤ) :
    ∃ routes executed failures,
      strategy.computeRoutes (wired switches).meshLinks kPaths uriPublishers scheme prefixRoutes
        = .ok routes ∧
      applyFibRoutes answer none 0 routes = .ok (executed, failures) ∧
      ∀ p a b, Hop (wired switches).netLinks (applyIpAddr scheme (wired switches).meshLinks).1 executed
          p a b ↔
        ∃ r ∈ routes, r.source = a ∧ r.uriPrefix = p ∧ r.nextHop = b ∧
          ∀ f ∈ failures, (f.source, f.uriPrefix, f.nextHopIp) ≠ routeKey r := by
  have hnodup : ∀ hosts ∈ switches, hosts.Nodup := fun hosts hmem => (hnd hosts hmem).2
  have hw := wired_wired hnodup
  have hnone : (applyIpAddr scheme (wired switches).meshLinks).2 = none :=
    (applyIpAddr_none_iff hnodup).mpr hfits
  obtain ⟨routes, hroutes, hkeys, haddress⟩ :=
    route_address hnd hfits hn scheme prefixRoutes hrange strategy kPaths
  refine ⟨routes, _, _, hroutes, applyFibRoutes_eq answer none routes 0, fun p a b => ?_⟩
  have hentry : ∀ ip, _ := fun ip => @entry_iff _ _ hkeys _ _ (applyFibRoutes_eq answer none routes 0)
    a p ip
  constructor
  · -- addresses are told apart by their hosts, so the next hop is the one of the route
    rintro ⟨ip, switch, ip', hip, hb, -, -⟩
    obtain ⟨r, hr, hkey, hfail⟩ := (hentry ip).mp hip
    obtain ⟨_, -, -, subnet, -, haddr⟩ := haddress r hr
    obtain ⟨_, -, -, subnet', -, haddr'⟩ := (attached_iff hw hnone).mp hb
    rw [← hkey] at hfail
    simp only [routeKey, Prod.mk.injEq] at hkey
    obtain ⟨rfl, rfl, rfl⟩ := hkey
    exact ⟨r, hr, rfl, rfl, (hostIp_injective haddr haddr').2, hfail⟩
  · rintro ⟨r, hr, rfl, rfl, rfl, hfail⟩
    obtain ⟨link, hsrc, hnh, subnet, hsubnet, haddr⟩ := haddress r hr
    obtain ⟨hin, hsrc'⟩ := mem_hostLinks.mp hsrc
    obtain ⟨i, hsw, hsubnet', ip', hip'⟩ := @hostIp_of_link scheme _ hfits _ hin _ hsrc'
    obtain rfl : subnet = (i : ℤ) + 1 := Option.some.inj (hsubnet.symm.trans hsubnet')
    refine ⟨r.nextHopIp, switchName i, ip', (hentry _).mpr ⟨r, hr, rfl, hfail⟩, ?_, ?_, ?_⟩
    · exact (attached_iff hw hnone).mpr ⟨link, hnh, hsw, _, hsubnet, haddr⟩
    · exact (attached_iff hw hnone).mpr ⟨link, hsrc, hsw, _, hsubnet, hip'⟩
    · exact (network24_eq_iff hip' haddr).mpr rfl

end Routed

/-- A triangle with a tail, as switches. -/
def tailedSwitches : List (List ℕ) := [[0, 1], [1, 2], [0, 2], [2, 3]]

theorem tailedSwitches_addressable : Addressable tailedSwitches :=
  addressable_of_bounds (by decide) (by decide)

/-- The third interface of the host `2` is on the tail. -/
theorem interfaces_addressed_tailed : ∃ ip, Attached (wired tailedSwitches).netLinks
    (applyIpAddr .default (wired tailedSwitches).meshLinks).1 (hostName 2) "s3" ip :=
  ((@interfaces_addressed .default tailedSwitches (by decide)).2 tailedSwitches_addressable).1 2 2 "s3"
    (by decide)

end Proof
end CeforeEmu
