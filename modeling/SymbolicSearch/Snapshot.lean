/-
Snapshots: what is visible in one round of choosing. A full snapshot
shows every block and every tracked state; a delta shows what changed
since the last round, for an adviser that keeps the rest in mind.
-/
import SymbolicSearch.Trail

namespace SymbolicSearch

/-- How much a snapshot shows. -/
inductive Extent
  | full
  | delta
deriving DecidableEq

/-- The blocks and states visible in one round, on their graph. -/
structure Snapshot where
  extent : Extent
  blocks : List BlockNo
  trails : List Trail
  graph : FlowGraph

namespace Snapshot

/-- Every block of the graph, and the given states. -/
def full (g : FlowGraph) (trails : List Trail) : Snapshot :=
  ⟨.full, List.range g.size, trails, g⟩

/-- The given blocks, those that the graph has, each once and in order,
and the given states. -/
def delta (g : FlowGraph) (blocks : List BlockNo) (trails : List Trail) : Snapshot :=
  ⟨.delta, (IdSet.ofList (blocks.filter (· < g.size))).toList, trails, g⟩

/-- The visible blocks themselves. -/
def vertices (s : Snapshot) : List Block := s.blocks.filterMap fun id => s.graph.blocks[id]?

def isEmpty (s : Snapshot) : Bool := s.trails.isEmpty

/-- The reported relations that go out of visible blocks, block by block,
for each block relation by relation, for each relation by target. -/
def edges (s : Snapshot) : List (BlockNo × BlockNo × Int) :=
  s.blocks.flatMap fun id => Relation.reported.flatMap fun r =>
    (s.graph.targets id r.1).toList.map fun target => (id, target, r.2)

end Snapshot

end SymbolicSearch
