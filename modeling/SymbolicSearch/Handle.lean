/-
What a search knows of an execution state. The interpreter owns the
state; the search holds a handle, which says where the state stands and
how it is doing. A handle is a value: a state that has moved is known by
a new handle with the same number.
-/
import SymbolicSearch.Site

namespace SymbolicSearch

/-- The number of an execution state, its own throughout a run. -/
abbrev StateNo := Nat

/-- One state as it was when last reported. -/
structure Handle where
  id : StateNo
  /-- The statement executed last, if there was one. -/
  last : Option Stmt
  /-- How often the state's own path has forked. -/
  forks : Nat
  exceptional : Bool
  satisfiable : Bool
  /-- Anything the interpreter wants to find again. -/
  tag : String
deriving DecidableEq

end SymbolicSearch
