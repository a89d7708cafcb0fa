import CeforeEmu.Core.Topology

/-!
# `AddressingScheme` — one /24 per link out of one /16

`core/addressing.py`. A scheme is built from a /16, so the last two octets of its base are
zero and only the first two are data: the third octet of an address is the link's subnet
number, the fourth is the host index plus one. The range checks are the code's, and a value
outside them is the code's `ValueError`.
-/

set_option autoImplicit false

namespace CeforeEmu
namespace Core

open Lib

/-- `MAX_LINK_SUBNET_ID`: what a third octet holds. -/
def maxLinkSubnetId : Nat := 255

/-- `MAX_HOST_INDEX`: a fourth octet is at most 254, and is the index plus one. -/
def maxHostIndex : Nat := 253

/-- The first two octets of the base network; a /16 has zeros after them. -/
structure AddressingScheme where
  octet0 : Nat
  octet1 : Nat
  deriving DecidableEq, Repr

/-- `DEFAULT_NETWORK_CIDR`: 192.168.0.0/16. -/
def AddressingScheme.default : AddressingScheme := ⟨192, 168⟩

namespace AddressingScheme

/-- The third octet `base + subnet_id`, with the base's `0`. -/
def linkOctets (scheme : AddressingScheme) (subnet : Int) : String :=
  toString scheme.octet0 ++ "." ++ toString scheme.octet1 ++ "." ++ toString subnet

/-- `host_ip`. -/
def hostIp (scheme : AddressingScheme) (subnet : Int) (host : Nat) : Except PyErr String :=
  if ¬ (0 ≤ subnet ∧ subnet ≤ 255) then
    .error (.valueError ("subnet_id " ++ toString subnet ++ " causes 3rd octet " ++ toString subnet
      ++ " to exceed 255 (base 3rd octet is 0)"))
  else if ¬ (host + 1 ≤ 254) then
    .error (.valueError ("host_idx " ++ toString host ++ " yields 4th octet "
      ++ toString (host + 1) ++ " which is outside 1–254"))
  else .ok (scheme.linkOctets subnet ++ "." ++ toString (host + 1))

/-- `host_ip` at any index, with both sides of the check of the fourth octet. -/
def hostIpAt (scheme : AddressingScheme) (subnet host : Int) : Except PyErr String :=
  if ¬ (0 ≤ subnet ∧ subnet ≤ 255) then
    .error (.valueError ("subnet_id " ++ toString subnet ++ " causes 3rd octet " ++ toString subnet
      ++ " to exceed 255 (base 3rd octet is 0)"))
  else if ¬ (1 ≤ host + 1 ∧ host + 1 ≤ 254) then
    .error (.valueError ("host_idx " ++ toString host ++ " yields 4th octet "
      ++ toString (host + 1) ++ " which is outside 1–254"))
  else .ok (scheme.linkOctets subnet ++ "." ++ toString (host + 1))

/-- `root_gateway`. -/
def rootGateway (scheme : AddressingScheme) (subnet : Int) : Except PyErr String :=
  if 0 ≤ subnet ∧ subnet ≤ 255 then .ok (scheme.linkOctets subnet ++ ".254/24")
  else .error (.valueError ("subnet_id " ++ toString subnet ++ " causes 3rd octet "
    ++ toString subnet ++ " to exceed 255"))

/-- The subnet of a host's canonical address so far. -/
def lowerSubnet (best : Option Int) (link : Link) : Option Int :=
  match link.subnet with
  | none => best
  | some subnet =>
      match best with
      | none => some subnet
      | some lowest => if subnet < lowest then some subnet else some lowest

/-- `canonical_host_ip`: the address on the link with the lowest subnet. -/
def canonicalHostIp (scheme : AddressingScheme) (host : Nat) (meshLinks : List RawLink) :
    Except PyErr String :=
  match (linksForHost (topologyLinks meshLinks) host).foldl lowerSubnet none with
  | none => .error (.valueError ("host " ++ toString host ++ " is not attached to any mesh link"))
  | some subnet => scheme.hostIp subnet host

theorem hostIp_ok {scheme : AddressingScheme} {subnet : Int} {host : Nat}
    (hs : 0 ≤ subnet ∧ subnet ≤ 255) (hh : host < 254) :
    scheme.hostIp subnet host = .ok (scheme.linkOctets subnet ++ "." ++ toString (host + 1)) := by
  rw [hostIp, if_neg (by simpa using hs), if_neg (by omega)]

/-- An index that counts a host is checked from above only. -/
theorem hostIpAt_natCast (scheme : AddressingScheme) (subnet : Int) (host : Nat) :
    scheme.hostIpAt subnet host = scheme.hostIp subnet host := by
  have hrange : (1 ≤ (host : Int) + 1 ∧ (host : Int) + 1 ≤ 254) ↔ host + 1 ≤ 254 := by omega
  rw [hostIpAt, hostIp]
  simp only [hrange]
  rfl

end AddressingScheme

end Core
end CeforeEmu
