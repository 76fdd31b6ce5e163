/-
Trails: what the search keeps of one state's path. A trail lives from the
moment its state is tracked until it is not. The trail of a forked state
begins as a copy of its parent's history and goes its own way from there;
a trail is a value, so nothing that happens to one is seen in another.

Three counters summarise the history against the coverage of the graph.
Coverage can change without the state moving, so the counters are worked
out again (`Trail.recount`) whenever they are about to be read.
-/
import SymbolicSearch.Flow.Graph

namespace SymbolicSearch

/-- What a path has done with one block. -/
structure Visit where
  block : BlockNo
  /-- How often the block's first instruction was executed. -/
  count : Nat
  /-- The step at which the last instruction was executed last. -/
  step : Nat
deriving DecidableEq

/-- The record of one state's path. -/
structure Trail where
  state : StateNo
  parent : Option StateNo
  children : IdSet
  /-- The size of the parent's path condition at the fork. -/
  inherited : Nat
  /-- The size of the path condition. -/
  conditions : Nat
  /-- The block in which the state stands, once it has moved. -/
  block : Option BlockNo
  /-- Instructions executed since the state entered its block. -/
  dwell : Nat
  /-- The step at which the state moved last, or was first tracked. -/
  moved : Nat
  history : IdMap Visit
  /-- Blocks of the history visited more than once. -/
  again : Nat
  /-- Uncovered blocks of the history inside the coverage zone. -/
  openInZone : Nat
  /-- Uncovered blocks of the history outside the coverage zone. -/
  openOutside : Nat
deriving DecidableEq

namespace Trail

/-- The trail of a state that nothing is known of. -/
def fresh (state : StateNo) (step : Nat) : Trail where
  state := state
  parent := none
  children := ∅
  inherited := 0
  conditions := 0
  block := none
  dwell := 0
  moved := step
  history := ∅
  again := 0
  openInZone := 0
  openOutside := 0

/-- The trail of a state forked from this one. The parent learns of its
child by `adopt`. -/
def fork (t : Trail) (state : StateNo) (step : Nat) : Trail :=
  { fresh state step with
    parent := some t.state
    inherited := t.conditions
    conditions := t.conditions
    history := t.history
    again := t.again
    openInZone := t.openInZone
    openOutside := t.openOutside }

def adopt (t : Trail) (child : StateNo) : Trail := { t with children := t.children.insert child }

def disown (t : Trail) (child : StateNo) : Trail := { t with children := t.children.erase child }

def orphan (t : Trail) : Trail := { t with parent := none }

-- ============================================== counters

/-- The block of a visit is not covered, and inside the zone or not as
asked. -/
def isOpen (g : FlowGraph) (inZone : Bool) (v : Visit) : Bool :=
  g.blocks[v.block]?.any fun b => !b.covered && b.inZone == inZone

/-- The trail with its counters worked out against a graph. -/
def recount (t : Trail) (g : FlowGraph) : Trail :=
  { t with
    again := t.history.values.countP (1 < ·.count)
    openInZone := t.history.values.countP (isOpen g true)
    openOutside := t.history.values.countP (isOpen g false) }

-- ============================================== movement

/-- Takes a state out of a block, if it was in one. -/
def vacate (state : StateNo) (block : Option BlockNo) (g : FlowGraph) : FlowGraph :=
  match block with
  | some id => g.modifyBlock id fun b => { b with occupants := b.occupants.erase state }
  | none => g

/-- Takes the trail's state out of its block. -/
def leave (t : Trail) (g : FlowGraph) : FlowGraph := vacate t.state t.block g

/-- The trail after its state has executed one instruction, at an index
of the block `b` with number `id`. Executing the block's first instruction counts
as a visit; executing its last leaves the step in the history. -/
def stepOn (t : Trail) (id : BlockNo) (b : Block) (index forks step : Nat) : Trail :=
  let known := (t.history.find? id).getD ⟨id, 0, 0⟩
  { t with
    block := some id
    dwell := if t.block = some id then t.dwell + 1 else 1
    conditions := t.inherited + forks
    moved := step
    history := t.history.insert id
      ⟨id, if b.beginsAt index then known.count + 1 else known.count,
        if b.endsAt index then step else known.step⟩ }

/-- A block on which a state has executed the instruction at an index. -/
def trodden (state : StateNo) (index : Nat) (b : Block) : Block :=
  { b with
    occupants := b.occupants.insert state
    touched := b.touched || b.beginsAt index
    visited := b.visited || b.endsAt index }

/-- Follows a state to the statement it executed last. A state that has
executed none stays where it is. The state changes blocks in the graph,
and its trail, recounted, says what it has done there. -/
def follow (t : Trail) (h : Handle) (step : Nat) (g : FlowGraph) :
    Except Fault (Trail × FlowGraph) :=
  match h.last with
  | none => .ok (t, g)
  | some stmt => do
    let (id, b) ← g.locate stmt
    let left := if t.block = some id then g else vacate t.state t.block g
    let here := left.modifyBlock id (trodden t.state stmt.site.index)
    return ((t.stepOn id b stmt.site.index h.forks step).recount here, here)

end Trail

end SymbolicSearch
