/-
Rankings: a snapshot as numbers for a model that scores states. Blocks
and states are renumbered by their place in the snapshot, and whatever
leads out of the snapshot is left out.

A ranking is kept as what it says, row by row; its layout as tensors is a
matter of its own (`Ranking.inputs`). The eight tensors, their order and
their columns are fixed by the models that read them.
-/
import SymbolicSearch.Snapshot
import SymbolicSearch.Tensor

namespace SymbolicSearch

open Binary

/-- A visit that a ranking shows, by the places of block and state. -/
structure RankedVisit where
  vertex : Nat
  state : Nat
  count : Nat
  step : Nat
deriving DecidableEq

/-- A relation that a ranking shows, by the places of its blocks. -/
structure RankedArrow where
  source : Nat
  target : Nat
  token : Int
deriving DecidableEq

/-- What a model is told in one round. -/
structure Ranking where
  /-- The features of each visible block. -/
  vertices : List (List Single)
  /-- The features of each visible state. -/
  states : List (List Single)
  arrows : List RankedArrow
  history : List RankedVisit
  /-- Where each state stands: place of the block, place of the state. -/
  positions : List (Nat × Nat)
  /-- Parents and children among the visible states. -/
  parents : List (Nat × Nat)
  /-- The number of the state at each place. -/
  ids : List StateNo

namespace Ranking

/-- The number of features of a block, and of a state. -/
def featureCount : Nat := 7

/-- The last place at which a number stands in a list. -/
def lastPlace? (l : List Nat) (n : Nat) : Option Nat :=
  l.zipIdx.foldl (fun found e => if e.1 = n then some e.2 else found) none

def vertexFeatures (b : Block) : List Single :=
  [.ofBool b.inZone, .ofNat b.size, .ofBool b.covered, .ofBool b.visited, .ofBool b.touched,
    .ofBool b.hasCall, .ofBool b.hasThrow]

/-- The features of a state. The first is the place of its block, minus
one if the block is not visible. -/
def stateFeatures (place : BlockNo → Option Nat) (t : Trail) : List Single :=
  [match t.block.bind place with
    | some v => .ofNat v
    | none => Single.one.neg,
    .ofNat t.conditions, .ofNat t.again, .ofNat t.openInZone, .ofNat t.openOutside,
    .ofNat t.moved, .ofNat t.dwell]

/-- The ranking of a snapshot. -/
def ofSnapshot (s : Snapshot) : Ranking :=
  let ids := s.trails.map (·.state)
  let vertex := lastPlace? s.blocks
  let rows := s.trails.zipIdx
  { vertices := s.vertices.map vertexFeatures
    states := s.trails.map (stateFeatures vertex)
    arrows := s.edges.filterMap fun e =>
      match vertex e.1, vertex e.2.1 with
      | some a, some b => some ⟨a, b, e.2.2⟩
      | _, _ => none
    history := rows.flatMap fun r => r.1.history.values.filterMap fun v =>
      (vertex v.block).map fun a => ⟨a, r.2, v.count, v.step⟩
    positions := rows.filterMap fun r =>
      (r.1.block.bind vertex).map fun a => (a, r.2)
    parents := rows.flatMap fun r => r.1.children.toList.filterMap fun c =>
      (lastPlace? ids c).map fun b => (r.2, b)
    ids := ids }

-- ============================================== layout

/-- A step count as a signed integer of 64 bits. -/
def wrapStep (n : Nat) : Int := Int.bmod n UInt64.size

def asPairs (l : List (Nat × Nat)) : Tensor := .ofPairs (l.map fun p => (p.1, p.2))

/-- The tensors of a ranking under their names. -/
def inputs (r : Ranking) : List (String × Tensor) :=
  [("game_vertex", .ofRows featureCount r.vertices),
    ("state_vertex", .ofRows featureCount r.states),
    ("gamevertex_to_gamevertex_index",
      asPairs (r.arrows.map fun a => (a.source, a.target))),
    ("gamevertex_to_gamevertex_type", .ints [r.arrows.length] (r.arrows.map (·.token))),
    ("gamevertex_history_statevertex_index",
      asPairs (r.history.map fun v => (v.vertex, v.state))),
    ("gamevertex_history_statevertex_attrs",
      .ints [r.history.length, 2] (r.history.flatMap fun v => [(v.count : Int), wrapStep v.step])),
    ("gamevertex_in_statevertex", asPairs r.positions),
    ("statevertex_parentof_statevertex", asPairs r.parents)]

/-- The tensor with a name. -/
def input? (r : Ranking) (name : String) : Option Tensor := r.inputs.lookup name

-- ============================================== choice

/-- The place of the first greatest number; what is not a number is
passed over. -/
def firstBest (l : List Single) : Option Nat :=
  let better (best : Option (Single × Nat)) (e : Single × Nat) :=
    if e.1.isNaN then best
    else
      match best with
      | none => some e
      | some b => if b.1.rank < e.1.rank then some e else best
  (l.zipIdx.foldl better none).map Prod.snd

/-- The rows of a list of numbers, all of one width. -/
def rowsOf (rows width : Nat) (l : List Single) : List (List Single) :=
  (List.range rows).map fun i => (l.drop (i * width)).take width

/-- The state that the scores put first: one row of scores for each
state, the row with the greatest sum, of several the first. -/
def choose (ids : List StateNo) : Tensor → Except Fault StateNo
  | .ints _ _ => .error (.breach .scoresNotFloat)
  | .floats shape values =>
    let rows := shape.headD 0
    let width := shape.tail.foldl (· * ·) 1
    if rows ≠ ids.length then .error (.breach (.rowCount rows ids.length))
    else if values.length ≠ rows * width then
      .error (.breach (.valueCount values.length shape (rows * width)))
    else
      match (firstBest ((rowsOf rows width values).map Single.sum)).bind (ids[·]?) with
      | some id => .ok id
      | none => .error (.breach .noScores)

end Ranking

end SymbolicSearch
