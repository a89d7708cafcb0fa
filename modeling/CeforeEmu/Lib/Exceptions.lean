/-!
# Exceptions and exception groups

An exception is one that was raised for itself, or a group of others. What a group reports is its
leaves (`leaves`), in order. Only its class matters of a leaf: ordinary ones derive from
`Exception`, and `KeyboardInterrupt`, `SystemExit` and the like from `BaseException` alone.

A group is never empty, and the constructors say so with a `ValueError`; `ExceptionGroup` takes
ordinary exceptions only, and is one itself.
-/

set_option autoImplicit false

namespace CeforeEmu
namespace Lib

inductive ExcClass where
  | exception
  | keyboardInterrupt
  | otherBase
  deriving DecidableEq, Repr

/-- What a single exception is: somebody's own, or one of a group's constructor. -/
inductive Leaf (ι : Type) where
  | own (cls : ExcClass) (value : ι)
  | valueError (msg : String)
  | typeError (msg : String)
  deriving DecidableEq, Repr

inductive Exc (ι : Type) where
  | leaf (exc : Leaf ι)
  | group (isExceptionGroup : Bool) (msg : String) (first : Exc ι) (rest : List (Exc ι))

namespace Exc

variable {ι : Type}

/-- `isinstance(exc, Exception)`. -/
def isException : Exc ι → Bool
  | .leaf (.own cls _) => cls = .exception
  | .leaf _ => true
  | .group isExceptionGroup _ _ _ => isExceptionGroup

/-- `isinstance(exc, KeyboardInterrupt)`. -/
def isKeyboardInterrupt : Exc ι → Bool
  | .leaf (.own cls _) => cls = .keyboardInterrupt
  | _ => false

mutual

/-- The single exceptions in it. -/
def leaves : Exc ι → List (Leaf ι)
  | .leaf exc => [exc]
  | .group _ _ first rest => leaves first ++ leavesAll rest

def leavesAll : List (Exc ι) → List (Leaf ι)
  | [] => []
  | exc :: excs => leaves exc ++ leavesAll excs

end

/-- `BaseExceptionGroup(msg, excs)`, which is an `ExceptionGroup` if it can be. -/
def baseExceptionGroup (msg : String) : List (Exc ι) → Exc ι
  | [] => .leaf (.valueError "second argument (exceptions) must be a non-empty sequence")
  | exc :: excs => .group ((exc :: excs).all isException) msg exc excs

/-- `ExceptionGroup(msg, excs)`. -/
def exceptionGroup (msg : String) : List (Exc ι) → Exc ι
  | [] => .leaf (.valueError "second argument (exceptions) must be a non-empty sequence")
  | exc :: excs =>
      if (exc :: excs).all isException then .group true msg exc excs
      else .leaf (.typeError "Cannot nest BaseExceptions in an ExceptionGroup")

theorem leavesAll_eq_flatMap (excs : List (Exc ι)) : leavesAll excs = excs.flatMap leaves := by
  induction excs with
  | nil => rw [leavesAll, List.flatMap_nil]
  | cons exc excs ih => rw [leavesAll, List.flatMap_cons, ih]

/-- Every exception reports something. -/
theorem leaves_ne_nil : ∀ exc : Exc ι, leaves exc ≠ []
  | .leaf exc => by rw [leaves]; exact List.cons_ne_nil _ _
  | .group _ _ first rest => by
    rw [leaves]
    exact fun h => leaves_ne_nil first (List.append_eq_nil_iff.mp h).1

theorem leaves_group (isExceptionGroup : Bool) (msg : String) (first : Exc ι) (rest : List (Exc ι)) :
    leaves (.group isExceptionGroup msg first rest) = (first :: rest).flatMap leaves := by
  rw [leaves, leavesAll_eq_flatMap, List.flatMap_cons]

end Exc

end Lib
end CeforeEmu
