import CeforeEmu.Runtime.BridgeRoot

/-!
# Addresses

An address is two octets of the base, the subnet and one more octet, with dots between them, so it
names the subnet and the octet (`dotted_injective`, `linkOctets_injective`). Hosts have their index
plus one for the octet, up to 254; the root gateway has 254. Two of them share an address only if
one is the gateway and the other the host with the last index, on the same subnet
(`addresses_injective_iff`).
-/

set_option autoImplicit false

namespace CeforeEmu
namespace Proof

open CeforeEmu.Lib CeforeEmu.Core CeforeEmu.Runtime

/-! ## Dotted numbers -/

theorem toList_dotted (x : String) (n : ℕ) :
    (x ++ "." ++ toString n).toList = x.toList ++ '.' :: Nat.toDigits 10 n := by
  rw [String.toList_append, String.toList_append, List.append_assoc, ← Nat.toList_repr]
  rfl

/-- What stands after the last dot is a number, and what stands before it is the rest. -/
theorem dotted_injective {x y : String} {m n : ℕ} (h : x ++ "." ++ toString m = y ++ "." ++ toString n) :
    x = y ∧ m = n := by
  -- what comes after the last dot, from the end
  have htail : ∀ (z : List Char) (i : ℕ), ((z ++ '.' :: Nat.toDigits 10 i).reverse.takeWhile
      Char.isDigit).reverse = Nat.toDigits 10 i := by
    intro z i
    have hdigits : ∀ c ∈ (Nat.toDigits 10 i).reverse, c.isDigit = true := fun c hc =>
      Nat.isDigit_of_mem_toDigits (by decide) (by decide) (List.mem_reverse.mp hc)
    rw [List.reverse_append, List.reverse_cons, List.append_assoc,
      List.takeWhile_append_of_pos hdigits]
    simp
  have hl := congrArg String.toList h
  rw [toList_dotted, toList_dotted] at hl
  have hdigits : Nat.toDigits 10 m = Nat.toDigits 10 n := by
    rw [← htail x.toList m, ← htail y.toList n, hl]
  constructor
  · rw [hdigits] at hl
    exact String.toList_inj.mp (List.append_cancel_right hl)
  · have hnum := congrArg (fun l => Nat.ofDigitChars 10 l 0) hdigits
    simpa only [Nat.ofDigitChars_ten_toDigits] using hnum

theorem linkOctets_injective {scheme : AddressingScheme} {s s' : ℤ} (hs : 0 ≤ s) (hs' : 0 ≤ s')
    (h : scheme.linkOctets s = scheme.linkOctets s') : s = s' := by
  obtain ⟨n, rfl⟩ := Int.eq_ofNat_of_zero_le hs
  obtain ⟨n', rfl⟩ := Int.eq_ofNat_of_zero_le hs'
  exact congrArg _ (dotted_injective h).2

/-! ## Hosts and gateways -/

/-- What an address is asked for. -/
inductive Request where
  | host (subnet index : ℤ)
  | gateway (subnet : ℤ)
  deriving DecidableEq, Repr

/-- `host_ip`, or `root_gateway` without its prefix length. -/
def address (scheme : AddressingScheme) : Request → Except PyErr String
  | .host subnet index => scheme.hostIpAt subnet index
  | .gateway subnet => (scheme.rootGateway subnet).map extractGatewayFromIp

/-- What a scheme does not reject. -/
def HandedOut (scheme : AddressingScheme) (r : Request) : Prop := ∃ ip, address scheme r = .ok ip

namespace Request

def subnet : Request → ℤ
  | .host subnet _ => subnet
  | .gateway subnet => subnet

/-- The fourth octet. -/
def octet : Request → ℤ
  | .host _ index => index + 1
  | .gateway _ => 254

def Valid (r : Request) : Prop := (0 ≤ r.subnet ∧ r.subnet ≤ 255) ∧ 1 ≤ r.octet ∧ r.octet ≤ 254

end Request

theorem linkOctets_plain (scheme : AddressingScheme) {s : ℤ} (hs : 0 ≤ s) :
    ∀ c ∈ (scheme.linkOctets s).toList, c ≠ '/' := by
  obtain ⟨n, rfl⟩ := Int.eq_ofNat_of_zero_le hs
  have hdigits : ∀ (i : ℕ), ∀ c ∈ Nat.toDigits 10 i, c ≠ '/' := by
    intro i c hc hslash
    have := Nat.isDigit_of_mem_toDigits (by decide) (by decide) hc
    rw [hslash] at this
    exact absurd this (by decide)
  have htext : scheme.linkOctets n
      = toString scheme.octet0 ++ "." ++ toString scheme.octet1 ++ "." ++ toString n := rfl
  intro c hc
  rw [htext, toList_dotted, toList_dotted, Nat.toString_eq_repr, Nat.toList_repr] at hc
  rcases List.mem_append.mp hc with hc | hc
  · rcases List.mem_append.mp hc with hc | hc
    · exact hdigits _ c hc
    · rcases List.mem_cons.mp hc with rfl | hc
      · decide
      · exact hdigits _ c hc
  · rcases List.mem_cons.mp hc with rfl | hc
    · decide
    · exact hdigits _ c hc

/-- The gateway without its prefix length. -/
theorem gateway_extracted (scheme : AddressingScheme) {s : ℤ} (hs : 0 ≤ s) :
    extractGatewayFromIp (scheme.linkOctets s ++ ".254/24") = scheme.linkOctets s ++ "." ++ toString 254 := by
  have hplain : ∀ c ∈ (scheme.linkOctets s).toList, decide (c ≠ '/') = true := fun c hc =>
    decide_eq_true (linkOctets_plain scheme hs c hc)
  rw [extractGatewayFromIp, String.toList_append, List.takeWhile_append_of_pos hplain]
  apply String.toList_inj.mp
  rw [String.toList_ofList, toList_dotted]
  rfl

/-- Everything a scheme hands out has one form, and it hands out what is in range. -/
theorem address_ok_iff {scheme : AddressingScheme} {r : Request} {ip : String} :
    address scheme r = .ok ip ↔
      r.Valid ∧ ip = scheme.linkOctets r.subnet ++ "." ++ toString r.octet := by
  cases r with
  | host s h =>
    rw [address, AddressingScheme.hostIpAt, Request.Valid]
    simp only [Request.subnet, Request.octet]
    split
    · rename_i hs
      exact ⟨fun h => (by cases h), fun h => absurd h.1.1 hs⟩
    · rename_i hs
      split
      · rename_i hh
        exact ⟨fun h => (by cases h), fun h => absurd h.1.2 hh⟩
      · rename_i hh
        constructor
        · intro h
          exact ⟨⟨not_not.mp hs, not_not.mp hh⟩, (Except.ok.inj h).symm⟩
        · intro h
          rw [h.2]
  | gateway s =>
    rw [address, AddressingScheme.rootGateway, Request.Valid]
    simp only [Request.subnet, Request.octet]
    split
    · rename_i hs
      rw [Except.map, gateway_extracted scheme hs.1]
      constructor
      · intro h
        exact ⟨⟨hs, by decide, by decide⟩, (Except.ok.inj h).symm⟩
      · intro h
        rw [h.2]
        rfl
    · rename_i hs
      exact ⟨fun h => (by cases h), fun h => absurd h.1.1 hs⟩

/-- Addresses name the subnet and the octet. -/
theorem address_eq_iff {scheme : AddressingScheme} {r r' : Request} (hr : HandedOut scheme r)
    (hr' : HandedOut scheme r') :
    address scheme r = address scheme r' ↔ r.subnet = r'.subnet ∧ r.octet = r'.octet := by
  obtain ⟨ip, hip⟩ := hr
  obtain ⟨ip', hip'⟩ := hr'
  obtain ⟨⟨hs, ho⟩, hform⟩ := address_ok_iff.mp hip
  obtain ⟨⟨hs', ho'⟩, hform'⟩ := address_ok_iff.mp hip'
  rw [hip, hip', Except.ok.injEq, hform, hform']
  constructor
  · intro h
    obtain ⟨n, hn⟩ := Int.eq_ofNat_of_zero_le (show 0 ≤ r.octet by omega)
    obtain ⟨n', hn'⟩ := Int.eq_ofNat_of_zero_le (show 0 ≤ r'.octet by omega)
    rw [hn, hn'] at h
    obtain ⟨hlink, hoctet⟩ := dotted_injective h
    exact ⟨linkOctets_injective hs.1 hs'.1 hlink, by rw [hn, hn', hoctet]⟩
  · intro h
    rw [h.1, h.2]

theorem hostIp_injective {scheme : AddressingScheme} {s s' : ℤ} {a b : ℕ} {ip : String}
    (ha : scheme.hostIp s a = .ok ip) (hb : scheme.hostIp s' b = .ok ip) : s = s' ∧ a = b := by
  rw [← AddressingScheme.hostIpAt_natCast] at ha hb
  have hr : HandedOut scheme (.host s a) := ⟨ip, ha⟩
  have hr' : HandedOut scheme (.host s' b) := ⟨ip, hb⟩
  obtain ⟨hsubnet, hoctet⟩ := (address_eq_iff hr hr').mp (ha.trans hb.symm)
  simp only [Request.subnet, Request.octet] at hsubnet hoctet
  omega

/-- **When addresses do not collide**: what a scheme hands out has different addresses exactly if
    the gateway of a subnet is not among it together with the host of the last index. -/
theorem addresses_injective_iff (scheme : AddressingScheme) (requests : Set Request) :
    Set.InjOn (address scheme) {r ∈ requests | HandedOut scheme r} ↔
      ¬ ∃ s, (0 ≤ s ∧ s ≤ 255) ∧ .host s 253 ∈ requests ∧ .gateway s ∈ requests := by
  constructor
  · rintro hinj ⟨s, hs, hhost, hgateway⟩
    have hhost' : HandedOut scheme (.host s 253) :=
      ⟨_, address_ok_iff.mpr ⟨⟨hs, by simp [Request.octet]⟩, rfl⟩⟩
    have hgateway' : HandedOut scheme (.gateway s) :=
      ⟨_, address_ok_iff.mpr ⟨⟨hs, by simp [Request.octet]⟩, rfl⟩⟩
    have heq := hinj ⟨hhost, hhost'⟩ ⟨hgateway, hgateway'⟩
      ((address_eq_iff hhost' hgateway').mpr ⟨rfl, rfl⟩)
    cases heq
  · rintro hnone r ⟨hr, hout⟩ r' ⟨hr', hout'⟩ heq
    obtain ⟨hsubnet, hoctet⟩ := (address_eq_iff hout hout').mp heq
    have hs : 0 ≤ r.subnet ∧ r.subnet ≤ 255 := by
      obtain ⟨ip, hip⟩ := hout
      exact (address_ok_iff.mp hip).1.1
    cases r with
    | host s h =>
      cases r' with
      | host s' h' =>
        simp only [Request.subnet, Request.octet] at hsubnet hoctet
        rw [hsubnet, show h = h' by omega]
      | gateway s' =>
        simp only [Request.subnet, Request.octet] at hsubnet hoctet
        refine absurd ⟨s, hs, ?_, hsubnet ▸ hr'⟩ hnone
        rwa [show (253 : ℤ) = h by omega]
    | gateway s =>
      cases r' with
      | host s' h' =>
        simp only [Request.subnet, Request.octet] at hsubnet hoctet
        refine absurd ⟨s, hs, ?_, hr⟩ hnone
        rwa [show (253 : ℤ) = h' by omega, hsubnet]
      | gateway s' =>
        simp only [Request.subnet] at hsubnet
        rw [hsubnet]

/-- **A host has the address of the gateway**: the last host and the gateway of subnet 3. -/
theorem gateway_collides :
    address .default (.host 3 253) = .ok "192.168.3.254" ∧
    address .default (.gateway 3) = .ok "192.168.3.254" ∧
    ¬ Set.InjOn (address .default) {r | HandedOut .default r} := by
  have hhost : address .default (.host 3 253) = .ok "192.168.3.254" := by decide
  have hgateway : address .default (.gateway 3) = .ok "192.168.3.254" := by decide
  refine ⟨hhost, hgateway, fun hinj => ?_⟩
  cases hinj ⟨_, hhost⟩ ⟨_, hgateway⟩ (hhost.trans hgateway.symm)

end Proof
end CeforeEmu
