/-
The cut of a method into straight runs. A run begins at the entry, at
every target of an instruction that closes its run, after such an
instruction, and at every handler; it ends where the next one begins.

The first indices are collected as a set, so the runs come out in order
and cover the code: each run reaches up to the first index of the next.
-/
import SymbolicSearch.Routine
import SymbolicSearch.IdSet

namespace SymbolicSearch

/-- A run of code, from its first to its last index. -/
structure Span where
  first : Nat
  last : Nat
deriving DecidableEq

namespace Span

/-- An index lies in the run. -/
def contains (s : Span) (i : Nat) : Bool := s.first ≤ i && i ≤ s.last

/-- The runs that begin at the given indices, of code of the given
length. -/
def between (length : Nat) : List Nat → List Span
  | [] => []
  | [s] => [⟨s, length - 1⟩]
  | s :: t :: rest => ⟨s, t - 1⟩ :: between length (t :: rest)

end Span

namespace Routine

/-- The indices at which an instruction makes a run begin, some of them
perhaps past the end of the code. -/
def opensFrom (r : Routine) (i : Nat) (ins : Instr) : List Nat :=
  (if r.closesAt i then (i + 1) :: ins.targets else []) ++ ins.handlers

/-- The first indices of all runs. -/
def opens (r : Routine) : IdSet :=
  IdSet.ofList <|
    (0 :: r.code.zipIdx.flatMap fun e => r.opensFrom e.2 e.1).filter (· < r.code.length)

/-- The runs of a method, in the order of its code. -/
def spans (r : Routine) : List Span := Span.between r.code.length r.opens.toList

end Routine

end SymbolicSearch
