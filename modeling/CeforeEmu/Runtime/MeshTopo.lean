import Mathlib
import CeforeEmu.Runtime.Wiring

/-!
# The random mesh

`MeshTopo.build` of `runtime/topo.py`: draw a degree for every host, attach the hosts one by one to
a tree, fill switches with the degrees that are left, and, when asked to, hand out the switches
that remain below the limit. The phases share the degrees that are left (`degrees`) and the hosts
of every switch (`switch_hosts`). Switches are named in the order they are made, so the dictionary
of their host sets is a list, and a set is a list without repetition.

The generator is anything that draws within the range it is given and permutes what it shuffles.
What the code writes and never reads (`to_remove`, the counts of `current_deg` after the heap is
built) and its log lines are left out. The `while` loop of the second phase has the degrees that
are left for fuel.
-/

set_option autoImplicit false

namespace CeforeEmu
namespace Runtime

open CeforeEmu.Lib CeforeEmu.Core

/-- `random.Random`. -/
structure Rng (σ τ : Type) where
  randint : ℤ → ℤ → σ → ℤ × σ
  shuffle : List ℕ → σ → List ℕ × σ
  random : σ → τ × σ
  randint_mem : ∀ {a b : ℤ} (s : σ), a ≤ b → a ≤ (randint a b s).1 ∧ (randint a b s).1 ≤ b
  shuffle_perm : ∀ (xs : List ℕ) (s : σ), (shuffle xs s).1.Perm xs

/-- The parameters of `MeshTopo.build`. -/
structure MeshParams where
  hosts : ℕ
  swhichNum : ℤ := 0
  nodePerSwitch : ℤ := 2
  hostDegreeMin : ℤ := 1
  hostDegreeMax : ℤ := 2
  switchUseAll : Bool := false
  deriving DecidableEq, Repr

def MeshParams.switchCapacity (p : MeshParams) : ℤ :=
  if 0 < p.nodePerSwitch then p.nodePerSwitch else p.hosts

/-- What the phases share. -/
structure Mesh where
  degrees : ℕ → ℤ
  switchHosts : List (List ℕ)

/-- `degrees[host] -= 1`. -/
def spend (degrees : ℕ → ℤ) (host : ℕ) : ℕ → ℤ := Function.update degrees host (degrees host - 1)

/-- `hs.add(h)`. -/
def setAdd (hs : List ℕ) (h : ℕ) : List ℕ := if h ∈ hs then hs else hs ++ [h]

/-! ## The spanning tree -/

/-- `sorted(hs, key=lambda h: degrees[h], reverse=True)`, which keeps the order of equals. -/
def byDegree (degrees : ℕ → ℤ) (hs : List ℕ) : List ℕ :=
  hs.insertionSort fun a b => degrees b ≤ degrees a

def findPartner (degrees : ℕ → ℤ) (connected : List ℕ) (host : ℕ) : Option ℕ :=
  (byDegree degrees connected).find? fun cand => 0 < degrees cand ∧ 0 < degrees host

/-- Put the two hosts on the first switch that has room and the partner, or else on a new one. -/
def joinSwitch (capacity : ℤ) (host partner : ℕ) : List (List ℕ) → List (List ℕ)
  | [] => [setAdd (setAdd [] host) partner]
  | hs :: rest =>
      if (hs.length : ℤ) + 2 ≤ capacity ∧ partner ∈ hs then setAdd (setAdd hs host) partner :: rest
      else hs :: joinSwitch capacity host partner rest

/-- `for host in remaining`. -/
def spanningTree (hosts : ℕ) (capacity initialTotal : ℤ) :
    List ℕ → List ℕ → Mesh → Except PyErr Mesh
  | [], _, m => .ok m
  | host :: remaining, connected, m =>
      match findPartner m.degrees connected host with
      | none => .error (.valueError ("failed to build spanning tree: degree budget exhausted "
          ++ "(initial_total=" ++ toString initialTotal ++ ", needed>="
          ++ toString (2 * ((hosts : ℤ) - 1)) ++ "). "
          ++ "Increase --host-degree-min/--host-degree-max or reduce --hosts"))
      | some partner =>
          spanningTree hosts capacity initialTotal remaining (connected ++ [host])
            ⟨spend (spend m.degrees host) partner,
              joinSwitch capacity host partner m.switchHosts⟩

/-! ## The leftover degrees -/

/-- The loop over the shuffled hosts that fills one switch. -/
def fillSwitch : List ℕ → ℤ → (ℕ → ℤ) → List ℕ → (ℕ → ℤ) × List ℕ
  | [], _, degrees, hs => (degrees, hs)
  | host :: rest, capLeft, degrees, hs =>
      if 0 < degrees host ∧ 0 < capLeft then
        if capLeft - 1 = 0 then (spend degrees host, setAdd hs host)
        else fillSwitch rest (capLeft - 1) (spend degrees host) (setAdd hs host)
      else if capLeft = 0 then (degrees, hs)
      else fillSwitch rest capLeft degrees hs

variable {σ τ : Type}

/-- `while hosts_with_deg`. -/
def fillLoop (rng : Rng σ τ) (capacity : ℤ) :
    ℕ → List ℕ → Mesh → σ → Except Fault (Mesh × σ)
  | _, [], m, s => .ok (m, s)
  | 0, _ :: _, _, _ => .error .outOfFuel
  | fuel + 1, host :: rest, m, s =>
      let (order, s) := rng.shuffle (host :: rest) s
      let (degrees, hs) := fillSwitch order capacity m.degrees []
      fillLoop rng capacity fuel (order.filter fun h => 0 < degrees h)
        ⟨degrees, m.switchHosts ++ [hs]⟩ s

/-! ## The extra switches -/

/-- A heap entry `[deg, tie, host_idx]`. -/
structure HeapEntry (τ : Type) where
  deg : ℕ
  tie : τ
  host : ℕ
  deriving DecidableEq, Repr

/-- Lists are compared item by item. -/
def HeapEntry.le [LinearOrder τ] (a b : HeapEntry τ) : Prop :=
  a.deg < b.deg ∨ (a.deg = b.deg ∧ (a.tie < b.tie ∨ (a.tie = b.tie ∧ a.host ≤ b.host)))

instance [LinearOrder τ] : DecidableRel (@HeapEntry.le τ _) := fun a b =>
  inferInstanceAs (Decidable (a.deg < b.deg ∨
    (a.deg = b.deg ∧ (a.tie < b.tie ∨ (a.tie = b.tie ∧ a.host ≤ b.host)))))

/-- `current_deg`: on how many switches a host is. -/
def currentDeg (switchHosts : List (List ℕ)) : ℕ → ℕ :=
  switchHosts.flatten.foldl (fun cur h => Function.update cur h (cur h + 1)) fun _ => 0

def drawHeap (rng : Rng σ τ) (current : ℕ → ℕ) : List ℕ → σ → List (HeapEntry τ) × σ
  | [], s => ([], s)
  | host :: rest, s =>
      let (tie, s) := rng.random s
      let (heap, s) := drawHeap rng current rest s
      (⟨current host, tie, host⟩ :: heap, s)

/-- `while cap_left > 0 and heap`: the heap that is left, and what was popped, with whether it is
    used. -/
def popHosts : List (HeapEntry τ) → ℤ → List ℕ → List (HeapEntry τ × Bool) →
    List (HeapEntry τ) × List (HeapEntry τ × Bool)
  | [], _, _, popped => ([], popped)
  | e :: heap, capLeft, usedHosts, popped =>
      if 0 < capLeft then
        if e.host ∈ usedHosts then popHosts heap capLeft usedHosts (popped ++ [(e, false)])
        else popHosts heap (capLeft - 1) (usedHosts ++ [e.host]) (popped ++ [(e, true)])
      else (e :: heap, popped)

/-- The loop over what was popped: the used hosts join the switch, and everyone goes back with a
    new tie. -/
def pushHosts [LinearOrder τ] (rng : Rng σ τ) : List (HeapEntry τ × Bool) → List (HeapEntry τ) →
    List ℕ → σ → List (HeapEntry τ) × List ℕ × σ
  | [], heap, hs, s => (heap, hs, s)
  | (e, used) :: popped, heap, hs, s =>
      let deg := if used then e.deg + 1 else e.deg
      let hs := if used then setAdd hs e.host else hs
      let (tie, s) := rng.random s
      pushHosts rng popped (heap.orderedInsert HeapEntry.le ⟨deg, tie, e.host⟩) hs s

/-- `for _ in range(extra_switches)`. -/
def extraSwitches [LinearOrder τ] (rng : Rng σ τ) (capLeft : ℤ) :
    ℕ → List (HeapEntry τ) → List (List ℕ) → σ → List (List ℕ) × σ
  | 0, _, switchHosts, s => (switchHosts, s)
  | _ + 1, [], switchHosts, s => (switchHosts, s)
  | n + 1, e :: heap, switchHosts, s =>
      let (heap, popped) := popHosts (e :: heap) capLeft [] []
      let (heap, hs, s) := pushHosts rng popped heap [] s
      extraSwitches rng capLeft n heap (switchHosts ++ [hs]) s

/-! ## The build -/

def drawDegrees (rng : Rng σ τ) (p : MeshParams) : ℕ → σ → List ℤ × σ
  | 0, s => ([], s)
  | n + 1, s =>
      let (d, s) := rng.randint p.hostDegreeMin p.hostDegreeMax s
      let (degrees, s) := drawDegrees rng p n s
      (d :: degrees, s)

def MeshParams.check (p : MeshParams) : Except PyErr Unit :=
  if p.hostDegreeMin < 1 ∨ p.hostDegreeMax < p.hostDegreeMin then
    .error (.valueError "host_degree_min/max must satisfy 1 <= min <= max")
  else if p.nodePerSwitch = 1 then
    .error (.valueError "switch capacity must be >=2 to connect hosts")
  else .ok ()

/-- Phases one and two: the degrees and the tree. -/
def treePhase (rng : Rng σ τ) (p : MeshParams) (degrees : List ℤ) (s : σ) :
    Except PyErr (Mesh × σ) :=
  if degrees.any (· < 1) then .error (.valueError "all hosts must have degree >=1")
  else
    let (hostOrder, s) := rng.shuffle (List.range p.hosts) s
    match byDegree (fun h => degrees.getD h 0) hostOrder with
    | [] => .error (.indexError "list index out of range")
    | first :: remaining =>
        match spanningTree p.hosts p.switchCapacity degrees.sum remaining [first]
            ⟨fun h => degrees.getD h 0, []⟩ with
        | .error err => .error err
        | .ok m => .ok (m, s)

def fillPhase (rng : Rng σ τ) (p : MeshParams) (m : Mesh) (s : σ) : Except Fault (Mesh × σ) :=
  fillLoop rng p.switchCapacity (∑ h ∈ Finset.range p.hosts, (m.degrees h).toNat)
    ((List.range p.hosts).filter fun h => 0 < m.degrees h) m s

def checkLimit (p : MeshParams) (switchCount : ℕ) : Except PyErr Unit :=
  if p.swhichNum ≠ 0 ∧ p.swhichNum < switchCount then
    .error (.valueError ("switch count " ++ toString switchCount ++ " exceeds limit "
      ++ toString p.swhichNum ++ " (increase switch capacity or host degree range)"))
  else .ok ()

def extraPhase [LinearOrder τ] (rng : Rng σ τ) (p : MeshParams) (switchHosts : List (List ℕ))
    (s : σ) : List (List ℕ) × σ :=
  if p.switchUseAll ∧ p.swhichNum ≠ 0 ∧ 0 < max 0 (p.swhichNum - switchHosts.length) then
    let (heap, s) := drawHeap rng (currentDeg switchHosts) (List.range p.hosts) s
    extraSwitches rng (min p.switchCapacity p.hosts)
      (max 0 (p.swhichNum - switchHosts.length)).toNat (heap.insertionSort HeapEntry.le)
      switchHosts s
  else (switchHosts, s)

/-- `MeshTopo.build`. -/
def MeshTopo.build [LinearOrder τ] (rng : Rng σ τ) (p : MeshParams) (s : σ) :
    Except Fault (Wiring × σ) :=
  match p.check with
  | .error err => .error (.raised err)
  | .ok () =>
      let (degrees, s) := drawDegrees rng p p.hosts s
      match treePhase rng p degrees s with
      | .error err => .error (.raised err)
      | .ok (m, s) =>
          match fillPhase rng p m s with
          | .error err => .error err
          | .ok (m, s) =>
              match checkLimit p m.switchHosts.length with
              | .error err => .error (.raised err)
              | .ok () =>
                  let (switchHosts, s) := extraPhase rng p m.switchHosts s
                  .ok (wireSwitches 0 .empty switchHosts, s)

end Runtime
end CeforeEmu
