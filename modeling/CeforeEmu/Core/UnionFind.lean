import CeforeEmu.Lib.Py

/-!
# `UnionFind`

The class of `core/graph.py`. `find` moves every pointer it follows up to the grandparent while it
walks, so a question rewrites the structure. Its loop is given as many turns as there are elements;
that these suffice is proved with what it returns.

A client is a sequence of calls on the elements, and `run` answers them one after the other.
-/

set_option autoImplicit false

namespace CeforeEmu
namespace Core

open Lib

structure UnionFind where
  parent : List ℕ
  size : List ℕ
  deriving DecidableEq, Repr

namespace UnionFind

/-- `UnionFind(n)`. -/
def new (n : ℕ) : UnionFind := ⟨List.range n, List.replicate n 1⟩

/-- `xs[i]`. -/
def item (xs : List ℕ) (i : ℕ) : Except Fault ℕ :=
  match xs[i]? with
  | some x => .ok x
  | none => .error (.raised (.indexError "list index out of range"))

/-- The `while` loop of `find`. -/
def findLoop : ℕ → UnionFind → ℕ → Except Fault (ℕ × UnionFind)
  | fuel, uf, x => do
      let p ← item uf.parent x
      if x = p then return (x, uf)
      match fuel with
      | 0 => .error .outOfFuel
      | fuel + 1 =>
          let grand ← item uf.parent p
          findLoop fuel { uf with parent := uf.parent.set x grand } grand

/-- `find`. -/
def find (uf : UnionFind) (x : ℕ) : Except Fault (ℕ × UnionFind) :=
  findLoop uf.parent.length uf x

/-- `connected`. -/
def connected (uf : UnionFind) (a b : ℕ) : Except Fault (Bool × UnionFind) := do
  let (ra, uf) ← uf.find a
  let (rb, uf) ← uf.find b
  return (ra = rb, uf)

/-- The last two statements of `union`. -/
def attach (uf : UnionFind) (ra rb : ℕ) : Except Fault UnionFind := do
  let sa ← item uf.size ra
  let sb ← item uf.size rb
  return { parent := uf.parent.set rb ra, size := uf.size.set ra (sa + sb) }

/-- `union`. -/
def union (uf : UnionFind) (a b : ℕ) : Except Fault (Bool × UnionFind) := do
  let (ra, uf) ← uf.find a
  let (rb, uf) ← uf.find b
  if ra = rb then return (false, uf)
  let sa ← item uf.size ra
  let sb ← item uf.size rb
  let uf ← if sa < sb then uf.attach rb ra else uf.attach ra rb
  return (true, uf)

end UnionFind

/-! ## Calls -/

/-- A call on the elements of `UnionFind(n)`. -/
inductive UnionCall (n : ℕ) where
  | find (x : Fin n)
  | connected (a b : Fin n)
  | union (a b : Fin n)
  deriving DecidableEq, Repr

inductive UnionAnswer where
  | index (r : ℕ)
  | truth (b : Bool)
  deriving DecidableEq, Repr

namespace UnionFind

variable {n : ℕ}

def call (uf : UnionFind) : UnionCall n → Except Fault (UnionAnswer × UnionFind)
  | .find x => do
      let (r, uf) ← uf.find x
      return (.index r, uf)
  | .connected a b => do
      let (t, uf) ← uf.connected a b
      return (.truth t, uf)
  | .union a b => do
      let (t, uf) ← uf.union a b
      return (.truth t, uf)

/-- The calls one after the other, with their answers. -/
def run : UnionFind → List (UnionCall n) → Except Fault (List UnionAnswer × UnionFind)
  | uf, [] => .ok ([], uf)
  | uf, c :: calls => do
      let (answer, uf) ← uf.call c
      let (answers, uf) ← uf.run calls
      return (answer :: answers, uf)

end UnionFind

end Core
end CeforeEmu
