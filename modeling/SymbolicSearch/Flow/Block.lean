/-
Blocks: the straight runs of registered methods, numbered in the order
in which they were registered. A block carries what the search has seen
of it so far, and which states stand in it now.
-/
import SymbolicSearch.Handle
import SymbolicSearch.IdSet
import SymbolicSearch.Routine.Cut

namespace SymbolicSearch

/-- The number of a block, dense within one graph. -/
abbrev BlockNo := Nat

/-- A straight run of one method's code and what is known about it. -/
structure Block where
  id : BlockNo
  method : MethodNo
  /-- The index of the first instruction. -/
  first : Nat
  /-- The index of the last instruction. -/
  last : Nat
  /-- The method is one whose coverage counts. -/
  inZone : Bool
  /-- A test has covered the block. -/
  covered : Bool
  /-- Some state has executed the last instruction. -/
  visited : Bool
  /-- Some state has executed the first instruction. -/
  touched : Bool
  hasCall : Bool
  hasThrow : Bool
  /-- The states that stand in the block. -/
  occupants : IdSet
deriving DecidableEq

namespace Block

/-- The number of instructions. -/
def size (b : Block) : Nat := b.last - b.first + 1

def holds (b : Block) (i : Nat) : Bool := b.first ≤ i && i ≤ b.last

def beginsAt (b : Block) (i : Nat) : Bool := i == b.first

def endsAt (b : Block) (i : Nat) : Bool := i == b.last

/-- The sites of the block's instructions, in order. -/
def sites (b : Block) : List Site :=
  (List.range' b.first b.size).map fun i => ⟨b.method, i⟩

/-- The block of a run of a routine before anything has happened in it.
Calls and throws close their runs, so the last instruction tells whether
the run has one. -/
def ofSpan (r : Routine) (inZone : Bool) (id : BlockNo) (s : Span) : Block where
  id := id
  method := r.method
  first := s.first
  last := s.last
  inZone := inZone
  covered := false
  visited := false
  touched := false
  hasCall := (r.code[s.last]?.map (·.kind)) = some .call
  hasThrow := (r.code[s.last]?.map (·.kind)) = some .throw
  occupants := ∅

end Block

end SymbolicSearch
