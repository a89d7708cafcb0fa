import CeforeEmu.Core.Value

/-!
# Node roles

`core/roles.py`: what a host is in an experiment. `assign_roles` goes through the hosts in order
and draws only where nothing else decides, so how many draws it makes depends on who the
publishers are.
-/

set_option autoImplicit false

namespace CeforeEmu
namespace Core

open Lib

structure NodeRole where
  name : String
  template : String
  csMode : ℕ
  runsCsmgrd : Bool
  deriving DecidableEq, Repr

namespace NodeRole

def consumer : NodeRole := ⟨"consumer", "h0", 0, false⟩

def router : NodeRole := ⟨"router", "h1", 2, true⟩

def publisher : NodeRole := ⟨"publisher", "h2", 1, false⟩

end NodeRole

variable {σ τ : Type} [DecidableEq τ]

/-- The role of one host; `choice` is that of the generator. -/
def assignRole (choice : List NodeRole → σ → NodeRole × σ) (hostNum : ℕ) (publishers : List (Key τ))
    (idx : ℕ) (s : σ) : NodeRole × σ :=
  if Key.int idx ∈ publishers then (.publisher, s)
  else if idx = 0 then (.consumer, s)
  else if hostNum = 2 ∧ idx = 1 then (.publisher, s)
  else if idx = 1 then (.router, s)
  else if idx = 2 then (.publisher, s)
  else if idx % 2 = 1 then (.router, s)
  else if idx + 1 = hostNum then (.publisher, s)
  else choice [.consumer, .publisher] s

/-- The loop of `assign_roles` over the hosts that are left. -/
def assignRolesFrom (choice : List NodeRole → σ → NodeRole × σ) (hostNum : ℕ)
    (publishers : List (Key τ)) : List ℕ → Dict ℕ NodeRole → σ → Dict ℕ NodeRole × σ
  | [], roles, s => (roles, s)
  | idx :: rest, roles, s =>
      let (role, s) := assignRole choice hostNum publishers idx s
      assignRolesFrom choice hostNum publishers rest (roles.set idx role) s

/-- `assign_roles`. -/
def assignRoles (choice : List NodeRole → σ → NodeRole × σ) (hostNum : ℕ)
    (publishers : List (Key τ)) (s : σ) : Dict ℕ NodeRole × σ :=
  assignRolesFrom choice hostNum publishers (List.range hostNum) [] s

/-! ## Cache modes -/

/-- `rng.choice`, of a list of numbers. -/
structure ModeChoice (σ : Type) where
  choice : List ℕ → σ → ℕ × σ
  choice_mem : ∀ {modes : List ℕ} (s : σ), modes ≠ [] → (choice modes s).1 ∈ modes

/-- The loop of `assign_random_cs_modes` over the hosts that are left. -/
def assignCsModesFrom (rng : ModeChoice σ) (publishers : List ℤ) :
    List ℤ → Dict ℤ ℕ → σ → Dict ℤ ℕ
  | [], csModes, _ => csModes
  | idx :: rest, csModes, s =>
      let (mode, s) := rng.choice (if idx ∈ publishers then [1, 2] else [0, 1, 2]) s
      assignCsModesFrom rng publishers rest (csModes.set idx mode) s

/-- `assign_random_cs_modes`. -/
def assignRandomCsModes (rng : ModeChoice σ) (hostIds publishers : List ℤ) (s : σ) : Dict ℤ ℕ :=
  assignCsModesFrom rng publishers (hostIds.insertionSort (· ≤ ·)) [] s

end Core
end CeforeEmu
