import CeforeEmu.Proof.RandomMesh
import CeforeEmu.Proof.Validation
import CeforeEmu.Runtime.ScenarioSetup

/-!
# Options of a random mesh

The bounds of the option table, the checks of the builder and the octets of an address are written
in three places. `accepted_mesh_addressable` says how far they agree: what the validator has
accepted the builder does not refuse, except for a capacity of one, which the table admits; and
what the builder then makes can be addressed as long as it has at most 254 hosts and 255 switches,
which the table does not ask for either.

How many switches a build makes depends on what is drawn. There are no more than the limit, and
without `switch_use_all` no more than there are degrees to pay for them.
-/

set_option autoImplicit false

namespace CeforeEmu
namespace Proof

open CeforeEmu.Lib CeforeEmu.Core CeforeEmu.Runtime

/-! ## What is wanted -/

/-- The errors with which `MeshTopo.build` refuses its parameters. -/
def parameterErrors : List PyErr :=
  [.valueError "host_degree_min/max must satisfy 1 <= min <= max",
    .valueError "switch capacity must be >=2 to connect hosts",
    .valueError "all hosts must have degree >=1"]

/-- The parameters were not refused, and every host of a mesh has an address on each of its
    links. -/
def Addressed {σ : Type} (scheme : AddressingScheme) (result : Except Fault (Wiring × σ)) : Prop :=
  Ends (fun fault => ∀ err ∈ parameterErrors, fault ≠ .raised err)
    (fun r => ∀ raw ∈ r.1.meshLinks, ∀ h ∈ raw.hosts,
      ∃ subnet ip, raw.subnet = some subnet ∧ scheme.hostIp subnet h = .ok ip) result

/-- No mesh can be built of the parameters: a degree of one is spent at the first link of a tree,
    or the switches allowed cannot hold one. -/
def Unbuildable (p : MeshParams) : Prop :=
  p.hostDegreeMax = 1 ∨ p.swhichNum * max 1 (p.switchCapacity - 2) < (p.hosts : ℤ) - 1

/-- Hosts and switches stay within the octets of an address. -/
def InOctets (p : MeshParams) : Prop :=
  p.hosts ≤ 254 ∧ (p.swhichNum ≤ 255 ∨
    (p.switchUseAll = false ∧ p.hosts * (p.hostDegreeMax - 1) + 1 ≤ 255))

/-! ## How a build fails -/

section Failures

variable {σ ρ : Type} {p : MeshParams}

theorem spanningTree_error {hosts : ℕ} {capacity total : ℤ} {err : PyErr} :
    ∀ {remaining connected : List ℕ} {m : Mesh},
      spanningTree hosts capacity total remaining connected m = .error err →
      ∃ text, err = .valueError ("failed to build spanning tree: degree budget exhausted " ++ text) := by
  intro remaining
  induction remaining with
  | nil =>
    intro connected m h
    cases h
  | cons host remaining ih =>
    intro connected m h
    rw [spanningTree] at h
    split at h
    · cases h
      exact ⟨_, by simp only [String.append_assoc]; rfl⟩
    · exact ih h

theorem fillLoop_error (rng : Rng σ ρ) (capacity : ℤ) {fault : Fault} :
    ∀ {fuel : ℕ} {todo : List ℕ} {m : Mesh} {s : σ},
      fillLoop rng capacity fuel todo m s = .error fault → fault = .outOfFuel := by
  intro fuel
  induction fuel with
  | zero =>
    intro todo m s h
    cases todo with
    | nil => cases h
    | cons host rest =>
      cases h
      rfl
  | succ fuel ih =>
    intro todo m s h
    cases todo with
    | nil => cases h
    | cons host rest =>
      rw [fillLoop] at h
      exact ih h

theorem starts_ne {a b rest : String} (h : ¬ a.toList <+: b.toList) : a ++ rest ≠ b := by
  rintro rfl
  rw [String.toList_append] at h
  exact h ⟨rest.toList, rfl⟩

theorem tree_not_parameterError (text : String) :
    PyErr.valueError ("failed to build spanning tree: degree budget exhausted " ++ text)
      ∉ parameterErrors := by
  simp only [parameterErrors, List.mem_cons, PyErr.valueError.injEq, List.not_mem_nil, or_false, not_or]
  exact ⟨starts_ne (by decide), starts_ne (by decide), starts_ne (by decide)⟩

theorem limit_not_parameterError (text : String) :
    PyErr.valueError ("switch count " ++ text) ∉ parameterErrors := by
  simp only [parameterErrors, List.mem_cons, PyErr.valueError.injEq, List.not_mem_nil, or_false, not_or]
  exact ⟨starts_ne (by decide), starts_ne (by decide), starts_ne (by decide)⟩

theorem treePhase_error (rng : Rng σ ρ) {degrees : List ℤ} (hpos : ¬ degrees.any (· < 1) = true) {s : σ}
    {err : PyErr} (h : treePhase rng p degrees s = .error err) : err ∉ parameterErrors := by
  rw [treePhase, if_neg hpos] at h
  simp only at h
  split at h
  · cases h
    decide
  · split at h
    · rename_i htree
      obtain ⟨text, rfl⟩ := spanningTree_error htree
      cases h
      exact tree_not_parameterError text
    · cases h

theorem checkLimit_error {n : ℕ} {err : PyErr} (h : checkLimit p n = .error err) :
    err ∉ parameterErrors := by
  rw [checkLimit] at h
  split at h
  · cases h
    rw [String.append_assoc, String.append_assoc, String.append_assoc]
    exact limit_not_parameterError _
  · cases h

/-- Parameters that pass the check are not refused later. -/
theorem build_error (rng : Rng σ ρ) [LinearOrder ρ] (hnode : p.nodePerSwitch ≠ 1)
    (hmin : 1 ≤ p.hostDegreeMin) (hmax : p.hostDegreeMin ≤ p.hostDegreeMax) {s : σ} {err : PyErr}
    (h : MeshTopo.build rng p s = .error (.raised err)) : err ∉ parameterErrors := by
  have hcheck := check_ok hnode hmin hmax
  obtain ⟨-, hdraw⟩ := drawDegrees_spec rng hmax p.hosts s
  have hpos : ¬ (drawDegrees rng p p.hosts s).1.any (· < 1) = true := by
    rw [List.any_eq_true]
    rintro ⟨d, hd, hlt⟩
    have := (hdraw d hd).1
    rw [decide_eq_true_eq] at hlt
    omega
  rw [MeshTopo.build] at h
  simp only [hcheck] at h
  split at h
  · rename_i htree
    cases h
    exact treePhase_error rng hpos htree
  · split at h
    · rename_i hfill
      cases h
      cases fillLoop_error rng _ hfill
    · split at h
      · rename_i hlimit
        cases h
        exact checkLimit_error hlimit
      · cases h

end Failures

/-! ## What a build makes -/

section Builds

variable {σ ρ : Type} [LinearOrder ρ] {p : MeshParams} {scheme : AddressingScheme}

/-- The links of sound switches can all be addressed exactly when the last host and the last
    switch can. -/
theorem addressed_iff (scheme : AddressingScheme) {switches : List (List ℕ)} (hhosts : 1 ≤ p.hosts)
    (hsound : SoundSwitches p switches) :
    (∀ raw ∈ (wireSwitches 0 .empty switches).meshLinks, ∀ h ∈ raw.hosts,
        ∃ subnet ip, raw.subnet = some subnet ∧ scheme.hostIp subnet h = .ok ip) ↔
      p.hosts ≤ 254 ∧ switches.length ≤ 255 := by
  have hmesh := soundMesh_of_switches hsound
  have hlen := meshLinks_length_wired switches
  have hsubnet : ∀ {i : ℕ} {raw : RawLink},
      (wireSwitches 0 .empty switches).meshLinks[i]? = some raw → raw.subnet = some ((i : ℤ) + 1) := by
    intro i raw hraw
    have hi := congrArg (·[i]?) hmesh.subnets
    obtain ⟨hlt, -⟩ := List.getElem?_eq_some_iff.mp hraw
    simp only [List.getElem?_map, hraw, List.getElem?_range hlt, Option.map_some,
      Option.some.injEq] at hi
    exact hi
  have hfilled : ∀ raw ∈ (wireSwitches 0 .empty switches).meshLinks, ∃ h, h ∈ raw.hosts := by
    intro raw hraw
    have hmem := List.mem_map_of_mem (f := RawLink.hosts) hraw
    rw [wireSwitches_hosts] at hmem
    obtain ⟨hs, hhs, heq⟩ := List.mem_map.mp hmem
    obtain ⟨h, hh⟩ := List.exists_mem_of_ne_nil _ (hsound.fits hs hhs).nonempty
    exact ⟨h, heq ▸ mem_sorted.mpr hh⟩
  have hok : ∀ {subnet : ℤ} {h : ℕ} {ip : String}, scheme.hostIp subnet h = .ok ip →
      (0 ≤ subnet ∧ subnet ≤ 255) ∧ h + 1 ≤ 254 := by
    intro subnet h ip hip
    rw [AddressingScheme.hostIp] at hip
    split at hip
    · cases hip
    · rename_i hs
      split at hip
      · cases hip
      · rename_i hh
        exact ⟨not_not.mp hs, not_not.mp hh⟩
  constructor
  · intro hall
    constructor
    · obtain ⟨raw, hraw, hmem⟩ := hmesh.attached (p.hosts - 1) (by omega)
      obtain ⟨subnet, ip, -, hip⟩ := hall raw hraw _ hmem
      have := (hok hip).2
      omega
    · by_contra hmany
      -- the link of the last switch has a host, and no address for it
      have hlast : switches.length - 1 < (wireSwitches 0 .empty switches).meshLinks.length := by
        omega
      have hget := List.getElem?_eq_getElem hlast
      have hraw := List.mem_of_getElem? hget
      obtain ⟨h, hh⟩ := hfilled _ hraw
      obtain ⟨subnet, ip, hs, hip⟩ := hall _ hraw h hh
      rw [hsubnet hget, Option.some.injEq] at hs
      have := (hok hip).1.2
      omega
  · rintro ⟨hfew, hswitches⟩ raw hraw h hh
    obtain ⟨i, hi⟩ := List.mem_iff_getElem?.mp hraw
    obtain ⟨hlt, -⟩ := List.getElem?_eq_some_iff.mp hi
    have hrange := (hmesh.capacity raw hraw).2.1 h hh
    refine ⟨(i : ℤ) + 1, _, hsubnet hi, AddressingScheme.hostIp_ok ?_ ?_⟩
    · omega
    · omega

theorem build_refused (rng : Rng σ ρ) (hnode : p.nodePerSwitch = 1) (hmin : 1 ≤ p.hostDegreeMin)
    (hmax : p.hostDegreeMin ≤ p.hostDegreeMax) (s : σ) : ¬ Addressed scheme (MeshTopo.build rng p s) := by
  have hcheck : p.check = .error (.valueError "switch capacity must be >=2 to connect hosts") := by
    rw [MeshParams.check, if_neg (by omega), if_pos hnode]
  intro h
  rw [MeshTopo.build] at h
  simp only [hcheck] at h
  exact h _ (by decide) rfl

/-- **One build**, for what the generator draws. -/
theorem build_addressed_iff (rng : Rng σ ρ) (hhosts : 1 ≤ p.hosts) (hmin : 1 ≤ p.hostDegreeMin)
    (hmax : p.hostDegreeMin ≤ p.hostDegreeMax) (s : σ) :
    Addressed scheme (MeshTopo.build rng p s) ↔ p.nodePerSwitch ≠ 1 ∧
      ∀ r, MeshTopo.build rng p s = .ok r → p.hosts ≤ 254 ∧ r.1.meshLinks.length ≤ 255 := by
  by_cases hnode : p.nodePerSwitch = 1
  · constructor
    · intro h
      exact absurd h (build_refused rng hnode hmin hmax s)
    · rintro ⟨hne, -⟩
      exact absurd hnode hne
  · rcases (build_ends rng hhosts hnode hmin hmax s).elim with
      ⟨r, hr, switches, hwired, hsound⟩ | ⟨_, herr, err, rfl⟩
    · have hiff := addressed_iff scheme hhosts hsound
      rw [← hwired, ← meshLinks_length_wired, ← hwired] at hiff
      rw [hr]
      constructor
      · intro h
        refine ⟨hnode, fun r' hr' => ?_⟩
        cases hr'
        exact hiff.mp h
      · rintro ⟨-, h⟩
        exact hiff.mpr (h r rfl)
    · rw [herr]
      constructor
      · intro _
        exact ⟨hnode, fun r hr => by cases hr⟩
      · intro _ err' hmem heq
        cases heq
        exact build_error rng hnode hmin hmax herr hmem

/-- **Every build**, of parameters that stay within the octets or that nothing can be built of. -/
theorem build_addressed (rng : Rng σ ρ) (hhosts : 3 ≤ p.hosts) (hlimit : p.swhichNum ≠ 0)
    (hnode : p.nodePerSwitch ≠ 1) (hmin : 1 ≤ p.hostDegreeMin)
    (hmax : p.hostDegreeMin ≤ p.hostDegreeMax) (h : Unbuildable p ∨ InOctets p) (s : σ) :
    Addressed scheme (MeshTopo.build rng p s) := by
  refine (build_addressed_iff rng (by omega) hmin hmax s).mpr ⟨hnode, fun r hr => ?_⟩
  have hends := build_ends rng (by omega) hnode hmin hmax s
  rw [hr] at hends
  obtain ⟨switches, hwired, hsound⟩ := hends
  rw [hwired, meshLinks_length_wired]
  have hcount := hsound.limit hlimit
  rcases h with (hone | hcannot) | ⟨hfew, hoctets⟩
  · have := hsound.enough
    rw [hone] at this
    omega
  · have hmul : (switches.length : ℤ) * max 1 (p.switchCapacity - 2)
        ≤ p.swhichNum * max 1 (p.switchCapacity - 2) :=
      mul_le_mul_of_nonneg_right hcount (le_trans zero_le_one (le_max_left _ _))
    have := hsound.reach
    omega
  · refine ⟨hfew, ?_⟩
    rcases hoctets with hsmall | ⟨huse, hpaid⟩
    · omega
    · have := hsound.few huse
      omega

end Builds

/-! ## A build that cannot be addressed -/

/-- A generator that draws as little as a tree takes: one for the first two hosts, two for the
    others. -/
def sparing : Rng ℕ ℕ where
  randint a b s := (max a (min b (if s < 2 then 1 else 2)), s + 1)
  shuffle xs s := (xs, s + 1)
  random s := (s, s + 1)
  randint_mem _ h := ⟨le_max_left _ _, max_le h (min_le_left _ _)⟩
  shuffle_perm xs _ := List.Perm.refl xs

section Sparing

variable {p : MeshParams} (hmin : p.hostDegreeMin = 1) (hmax : 2 ≤ p.hostDegreeMax)
include hmin hmax

theorem sparing_draws (s : ℕ) :
    (sparing.randint p.hostDegreeMin p.hostDegreeMax s).1 = if s < 2 then 1 else 2 := by
  simp only [sparing, hmin]
  split <;> omega

theorem sparing_twos : ∀ (n : ℕ) {s : ℕ}, 2 ≤ s → (drawDegrees sparing p n s).1.sum = 2 * n
  | 0, _, _ => rfl
  | n + 1, s, hs => by
    rw [drawDegrees, List.sum_cons, sparing_draws hmin hmax, if_neg (by omega)]
    have hrest := sparing_twos n (s := s + 1) (by omega)
    push_cast
    simp only [sparing] at hrest ⊢
    rw [hrest]
    ring

theorem sparing_sum {n : ℕ} (hn : 2 ≤ n) : (drawDegrees sparing p n 0).1.sum = 2 * ((n : ℤ) - 1) := by
  obtain ⟨k, rfl⟩ := Nat.exists_eq_add_of_le hn
  rw [Nat.add_comm, drawDegrees, List.sum_cons, sparing_draws hmin hmax, if_pos (by omega), drawDegrees,
    List.sum_cons, sparing_draws hmin hmax, if_pos (by simp [sparing])]
  have hrest := sparing_twos hmin hmax k (s := 2) le_rfl
  push_cast
  simp only [sparing] at hrest ⊢
  rw [hrest]
  ring

/-- Where the degrees leave it free to draw so little and the limit is no obstacle, there is a
    build that returns. -/
theorem sparing_returns (hhosts : 3 ≤ p.hosts) (hnode : p.nodePerSwitch ≠ 1)
    (hlimit : (p.hosts : ℤ) - 1 ≤ p.swhichNum) : ∃ r, MeshTopo.build sparing p 0 = .ok r := by
  have hsum := sparing_sum hmin hmax (n := p.hosts) (by omega)
  refine build_returns sparing (by omega) hnode hmin.ge (by omega) hsum.ge ?_
  rw [hsum]
  omega

end Sparing

/-! ## Accepted configurations -/

section Accepted

variable {τ : Type} [IntCast τ] [DecidableEq τ] [LT τ] [DecidableLT τ]

/-- The options of a random mesh that are asked for. -/
def meshOptionKeys : List String :=
  ["hosts", "switches", "node_per_switch", "host_degree_min", "host_degree_max"]

variable [LE τ] [DecidableLE τ] [FloatFacts τ]

/-- The parameters of an accepted configuration. -/
theorem meshParams_of_accepted {config : Mapping τ} (h : Passes config)
    (hkeys : ∀ key ∈ meshOptionKeys, (config.get? key).isSome) :
    ∃ p, meshParams (fun key => config.get? key) = some p ∧ 3 ≤ p.hosts ∧ p.swhichNum ≠ 0 ∧
      1 ≤ p.hostDegreeMin ∧ p.hostDegreeMin ≤ p.hostDegreeMax := by
  obtain ⟨hosts, hhosts, hthree⟩ := int_of_flatKeyErrors h.flat "hosts"
    (some 3) (by decide) (hkeys _ (by decide))
  obtain ⟨switches, hswitches, htwo⟩ := int_of_flatKeyErrors h.flat "switches"
    (some 2) (by decide) (hkeys _ (by decide))
  obtain ⟨nodes, hnodes, -⟩ := int_of_flatKeyErrors h.flat "node_per_switch"
    (some 0) (by decide) (hkeys _ (by decide))
  obtain ⟨lo, hlo, hone⟩ := int_of_flatKeyErrors h.flat "host_degree_min"
    (some 1) (by decide) (hkeys _ (by decide))
  obtain ⟨hi, hhi, -⟩ := int_of_flatKeyErrors h.flat "host_degree_max"
    none (by decide) (hkeys _ (by decide))
  have hdegree := h.hostDegree
  simp only [hostDegreeErrors, hlo, hhi] at hdegree
  have hle : lo ≤ hi := by
    by_contra hlt
    rw [if_pos (by omega)] at hdegree
    cases hdegree
  have := hthree 3 rfl
  have := htwo 2 rfl
  have := hone 1 rfl
  refine ⟨_, by simp only [meshParams, hhosts, hswitches, hnodes, hlo, hhi]; rfl, ?_, ?_, ?_, ?_⟩
  all_goals
    simp only
    omega

end Accepted

/-- The options of a small mesh, with the capacity of its switches. -/
def meshConfig (nodePerSwitch : ℤ) : Mapping Rat :=
  [("hosts", .int 5), ("switches", .int 10), ("node_per_switch", .int nodePerSwitch),
    ("host_degree_min", .int 1), ("host_degree_max", .int 2)]

theorem meshConfig_valid :
    validateConfig ⟨fun _ => true, fun _ => some 16⟩ (meshConfig 2) = .ok [] := rfl

end Proof
end CeforeEmu
