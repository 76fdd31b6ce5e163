/-
Reports: a snapshot as it is told to an oracle. Blocks and states keep
their own numbers, so that an oracle which remembers the game can lay a
delta over what it knows.
-/
import SymbolicSearch.Snapshot

namespace SymbolicSearch

namespace Report

/-- A block as an oracle sees it. -/
structure Vertex where
  id : BlockNo
  inZone : Bool
  /-- The number of instructions, modulo `FlowGraph.numberBound`. -/
  size : Nat
  covered : Bool
  visited : Bool
  touched : Bool
  hasCall : Bool
  hasThrow : Bool
  states : List StateNo
deriving DecidableEq

/-- A state as an oracle sees it. -/
structure State where
  id : StateNo
  /-- The block it stands in; none for a fork that has not moved yet. -/
  position : Option BlockNo
  conditions : Nat
  again : Nat
  openInZone : Nat
  openOutside : Nat
  moved : Nat
  dwell : Nat
  history : List Visit
  children : List StateNo
deriving DecidableEq

/-- A relation between blocks as an oracle sees it. -/
structure Arrow where
  source : BlockNo
  target : BlockNo
  token : Int
deriving DecidableEq

def Vertex.ofBlock (b : Block) : Vertex where
  id := b.id
  inZone := b.inZone
  size := b.size % FlowGraph.numberBound
  covered := b.covered
  visited := b.visited
  touched := b.touched
  hasCall := b.hasCall
  hasThrow := b.hasThrow
  states := b.occupants.toList

def State.ofTrail (t : Trail) : State where
  id := t.state
  position := t.block
  conditions := t.conditions
  again := t.again
  openInZone := t.openInZone
  openOutside := t.openOutside
  moved := t.moved
  dwell := t.dwell
  history := t.history.values
  children := t.children.toList

end Report

/-- What an oracle is told in one round. -/
structure Report where
  vertices : List Report.Vertex
  states : List Report.State
  arrows : List Report.Arrow
deriving DecidableEq

/-- The report of a snapshot. -/
def Report.ofSnapshot (s : Snapshot) : Report where
  vertices := s.vertices.map .ofBlock
  states := s.trails.map .ofTrail
  arrows := s.edges.map fun e => ⟨e.1, e.2.1, e.2.2⟩

end SymbolicSearch
