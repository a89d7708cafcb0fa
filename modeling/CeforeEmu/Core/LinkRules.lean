import CeforeEmu.Core.Addressing
import CeforeEmu.Core.Options
import CeforeEmu.Lib.Search

/-!
# What the validator asks of an explicit topology

`_validate_links` (`core/config/validator.py`): the shape, the range and the capacity of each
entry, duplicates, options that only the random mesh reads, and that the links connect all hosts.
The builder trusts its list completely, so this is the one place that looks.

The connectivity check indexes a dictionary and runs a `while` loop; both could fail, so the
errors are computed in `Except`.
-/

set_option autoImplicit false

namespace CeforeEmu
namespace Core

open Lib

variable {τ : Type} [IntCast τ] [DecidableEq τ] [LE τ] [DecidableLE τ]

/-- `config.get("hosts")`, when it is an integer. -/
def knownHosts (config : Mapping τ) : Option Int :=
  match config.get? "hosts" with
  | some (.int n) => some n
  | _ => none

/-! ## Entries -/

/-- A list of two integers. -/
def hostPair? : Value τ → Option (Int × Int)
  | .list [.int a, .int b] => some (a, b)
  | _ => none

/-- `host_count_known and (n < 0 or n >= host_count)`. -/
def outOfRange (hostCount : Option Int) (n : Int) : Bool :=
  match hostCount with
  | some count => n < 0 ∨ count ≤ n
  | none => false

/-- What is wrong with one end of a link. -/
def linkEndErrors (path : String) (hostCount : Option Int) (n : Int) : List String :=
  if outOfRange hostCount n then [path ++ " contains out-of-range host index " ++ toString n]
  else if (maxHostIndex : Int) < n then
    [path ++ " contains host index " ++ toString n
      ++ " which exceeds the addressing scheme's maximum host index (" ++ toString maxHostIndex
      ++ ")"]
  else []

/-- The loop body over the entries: what it reports. -/
def linkErrors (hostCount : Option Int) (entry : Value τ) (idx : Nat) : List String :=
  let path := "links[" ++ toString idx ++ "]"
  match hostPair? entry with
  | none => [path ++ " must be a list of 2 host indices"]
  | some (a, b) =>
      if a = b then [path ++ " connects host " ++ toString a ++ " to itself"]
      else linkEndErrors path hostCount a ++ linkEndErrors path hostCount b

/-- The pair the loop body appends to `valid_pairs`. -/
def validPair? (hostCount : Option Int) (entry : Value τ) (idx : Nat) : Option (Int × Int) :=
  if linkErrors hostCount entry idx = [] then hostPair? entry else none

/-- `seen_pairs`: a pair is a duplicate whichever way round it is written. -/
def duplicateErrors : List (Int × Int) → List (Int × Int) → List String
  | _, [] => []
  | seen, (a, b) :: rest =>
      let pair := (min a b, max a b)
      if pair ∈ seen then
        ("links contains duplicate link [" ++ toString pair.1 ++ ", " ++ toString pair.2 ++ "]")
          :: duplicateErrors seen rest
      else duplicateErrors (pair :: seen) rest

/-! ## Options of the random mesh -/

/-- `_MESH_RANDOMIZATION_KEYS`. -/
def meshRandomizationKeys : List String :=
  ["switches", "node_per_switch", "host_degree_min", "host_degree_max", "switch_use_all"]

/-- `OPTION_SPECS[key].default`. -/
def optionDefault (key : String) : Value τ :=
  match optionSpecs.find? fun spec => spec.key = key with
  | some spec => spec.default.value
  | none => .null

def randomizationErrors (config : Mapping τ) : List String :=
  meshRandomizationKeys.flatMap fun key : String =>
    match config.get? key with
    | none => []
    | some v =>
        if v.pyEq (optionDefault key) then []
        else ["links cannot be combined with a non-default " ++ key
          ++ " (mesh-randomization options have no effect once links is set)"]

/-! ## Connectivity -/

/-- `graph[a].add(b)`. -/
def addEdge (graph : Dict Int (List Int)) (a b : Int) : Except PyErr (Dict Int (List Int)) :=
  match graph.get? a with
  | none => .error (.keyError (toString a))
  | some nbrs => .ok (graph.set a (if b ∈ nbrs then nbrs else nbrs ++ [b]))

def addEdges : List (Int × Int) → Dict Int (List Int) → Except PyErr (Dict Int (List Int))
  | [], graph => .ok graph
  | (a, b) :: rest, graph =>
      match addEdge graph a b with
      | .error err => .error err
      | .ok graph' =>
          match addEdge graph' b a with
          | .error err => .error err
          | .ok graph'' => addEdges rest graph''

/-- `range(host_count)`. -/
def hostRange (count : Int) : List Int := (List.range count.toNat).map fun i : Nat => (i : Int)

/-- The hosts that the links connect to host 0. -/
def connectedHosts (count : Int) (pairs : List (Int × Int)) : Except Fault (List Int) :=
  match addEdges pairs ((hostRange count).map fun i => (i, [])) with
  | .error err => .error (.raised err)
  | .ok graph => search graph (hostRange count).length ⟨[0], [0]⟩

def connectivityErrors (hostCount : Option Int) (links : List (Value τ))
    (pairs : List (Int × Int)) : Except Fault (List String) :=
  match hostCount with
  | some count =>
      if pairs.length = links.length ∧ 0 < count then
        match connectedHosts count pairs with
        | .error err => .error err
        | .ok visited =>
            if (visited.length : Int) ≠ count then
              .ok ["links must connect all hosts into a single connected component"]
            else .ok []
      else .ok []
  | none => .ok []

/-! ## All of it -/

/-- `valid_pairs`. -/
def validPairs (hostCount : Option Int) (links : List (Value τ)) : List (Int × Int) :=
  links.zipIdx.filterMap fun e => validPair? hostCount e.1 e.2

def tooManyLinks (links : List (Value τ)) : List String :=
  if maxLinkSubnetId < links.length then
    ["links must contain at most " ++ toString maxLinkSubnetId ++ " entries (got "
      ++ toString links.length ++ "); each link uses one addressing subnet and the scheme has "
      ++ toString maxLinkSubnetId ++ " available"]
  else []

/-- `_validate_links`. -/
def linksErrors (config : Mapping τ) : Except Fault (List String) :=
  match config.get? "links" with
  | none => .ok []
  | some (.list links) =>
      let hostCount := knownHosts config
      let pairs := validPairs hostCount links
      match connectivityErrors hostCount links pairs with
      | .error err => .error err
      | .ok unconnected =>
          .ok (tooManyLinks links ++ links.zipIdx.flatMap (fun e => linkErrors hostCount e.1 e.2)
            ++ duplicateErrors [] pairs ++ randomizationErrors config ++ unconnected)
  | some _ => .ok ["links must be a list"]

end Core
end CeforeEmu
