/-
Guided pools: an adviser chooses. The pool keeps a trail for each state,
and between two rounds notes which states and blocks have changed, so
that an adviser which remembers can be shown just those.

What has changed is forgotten only when the adviser has answered. Blocks
that are new to the graph are the exception: the pool knows them by the
size that the graph had when it looked last, and it looks before it asks.
-/
import SymbolicSearch.Pool

namespace SymbolicSearch

/-- A state with its trail. -/
structure Walker where
  handle : Handle
  trail : Trail
deriving DecidableEq

/-- A pool whose states an adviser chooses from. -/
structure Guided where
  adviser : Adviser
  policy : Policy
  /-- The states, by their numbers; snapshots list them in this order. -/
  tracked : IdMap Walker
  /-- The state chosen last, while it is tracked. -/
  chosen : Option StateNo
  /-- The states changed since the adviser answered last. -/
  touchedStates : IdSet
  /-- The blocks changed since the adviser answered last. -/
  touchedBlocks : IdSet
  /-- The size of the graph when the pool looked last. -/
  mark : Nat
  /-- The adviser has answered. -/
  answered : Bool

namespace Guided

/-- A pool with no states. -/
def new (adviser : Adviser) (policy : Policy) : Guided where
  adviser := adviser
  policy := policy
  tracked := ∅
  chosen := none
  touchedStates := ∅
  touchedBlocks := ∅
  mark := 0
  answered := false

def size (p : Guided) : Nat := p.tracked.size

def trail? (p : Guided) (id : StateNo) : Option Trail := (p.tracked.find? id).map (·.trail)

def trails (p : Guided) : List Trail := p.tracked.values.map (·.trail)

-- ============================================== choosing

/-- How much the next snapshot will show. -/
def nextExtent (p : Guided) : Extent :=
  if p.policy = .alwaysFull ∨ !p.adviser.remembers ∨ !p.answered then .full else .delta

/-- The pool with the counters of all trails worked out. -/
def recount (p : Guided) (g : FlowGraph) : Guided :=
  { p with tracked := p.tracked.map fun _ t => { t with trail := t.trail.recount g } }

/-- The snapshot that the adviser is to be shown. -/
def snapshot (p : Guided) (g : FlowGraph) : Snapshot :=
  match p.nextExtent with
  | .full => .full g p.trails
  | .delta =>
    .delta g (p.touchedBlocks.toList ++ g.since p.mark) (p.touchedStates.toList.filterMap p.trail?)

/-- Asks the adviser to choose. -/
def consult (p : Guided) (g : FlowGraph) : Consultation × Guided :=
  let p := p.recount g
  let (c, adviser) := p.adviser.consult (p.snapshot g)
  let p := { p with adviser := adviser, mark := g.size }
  match c.answer with
  | .ok _ => (c, { p with answered := true, touchedStates := ∅, touchedBlocks := ∅ })
  | .error _ => (c, p)

/-- Chooses the state to move next. A single state needs no adviser. An
adviser that has chosen a state which is not tracked has answered, but
nothing is chosen. -/
def peek (g : FlowGraph) (p : Guided) : Choice Guided :=
  match p.tracked.entries with
  | [] => ⟨.error .emptyPool, p, none⟩
  | [(id, t)] => ⟨.ok t.handle, { p with chosen := some id }, none⟩
  | _ =>
    let (c, p) := p.consult g
    match c.answer with
    | .error e => ⟨.error e, p, some c⟩
    | .ok id =>
      match p.tracked.find? id with
      | none => ⟨.error (.breach (.untracked id)), p, some c⟩
      | some t => ⟨.ok t.handle, { p with chosen := some id }, some c⟩

-- ============================================== notices

/-- Takes in one state, forked off the given parent if there is one. A
state that is tracked already is passed over. -/
def track (step : Nat) (parent : Option (StateNo × Trail)) (p : Guided) (h : Handle) : Guided :=
  if p.tracked.contains h.id then p
  else
    { p with
      tracked :=
        match parent with
        | some (id, trail) =>
          (p.tracked.modify id fun w => { w with trail := w.trail.adopt h.id }).insert
            h.id ⟨h, trail.fork h.id step⟩
        | none => p.tracked.insert h.id ⟨h, .fresh h.id step⟩
      touchedStates := p.touchedStates.insert h.id }

/-- The state chosen last with its trail, if it is still tracked. -/
def parent? (p : Guided) : Option (StateNo × Trail) :=
  p.chosen.bind fun id => (p.trail? id).map (id, ·)

/-- Takes in states forked off the state chosen last, and looks at the
graph. The parent counts as changed if any of them is new. -/
def takeIn (hs : List Handle) (step : Nat) (g : FlowGraph) (p : Guided) : Guided :=
  let grown := hs.foldl (track step p.parent?) p
  let parents :=
    if hs.any fun h => !p.tracked.contains h.id then (p.parent?.map Prod.fst).toList else []
  { grown with
    touchedStates := grown.touchedStates.insertAll parents
    touchedBlocks := grown.touchedBlocks.insertAll (g.since p.mark)
    mark := g.size }

/-- Lets a state go. Its parent and its children lose sight of it, its
block is free of it, and what it stood in counts as changed; so does all
it has seen if it could still have been run. -/
def letGo (h : Handle) (g : FlowGraph) (p : Guided) : Guided × FlowGraph :=
  match p.tracked.find? h.id with
  | none => (p, g)
  | some t =>
    let rest := p.tracked.erase h.id
    let kin := t.trail.parent.toList ++ t.trail.children.toList
    let part (k : StateNo) (w : Walker) : Walker :=
      let w := if t.trail.parent = some k then { w with trail := w.trail.disown h.id } else w
      if k ∈ t.trail.children then { w with trail := w.trail.orphan } else w
    let seen := if t.handle.satisfiable then t.trail.history.keys else []
    ({ p with
        tracked := rest.map part
        chosen := if p.chosen = some h.id then none else p.chosen
        touchedStates := (p.touchedStates.insertAll (kin.filter rest.contains)).erase h.id
        touchedBlocks := p.touchedBlocks.insertAll (t.trail.block.toList ++ seen) },
      t.trail.leave g)

/-- Follows a state to where it stands now. If it stands nowhere, nothing
changes. -/
def followUp (h : Handle) (step : Nat) (g : FlowGraph) (p : Guided) : Told Guided :=
  match p.tracked.find? h.id with
  | none => ⟨.ok (), p, g⟩
  | some t =>
    match t.trail.follow h step g with
    | .error e => ⟨.error e, p, g⟩
    | .ok (trail, g) =>
      let left := if t.trail.block = trail.block then [] else t.trail.block.toList
      ⟨.ok (),
        { p with
          tracked := p.tracked.insert h.id ⟨h, trail⟩
          touchedStates := p.touchedStates.insert h.id
          touchedBlocks := p.touchedBlocks.insertAll (left ++ trail.block.toList) },
        g⟩

def tell (n : Notice) (step : Nat) (g : FlowGraph) (p : Guided) : Told Guided :=
  match n with
  | .added hs => ⟨.ok (), p.takeIn hs step g, g⟩
  | .removed h => let (p, g) := p.letGo h g; ⟨.ok (), p, g⟩
  | .moved h => p.followUp h step g

instance : Pool Guided where
  isEmpty p := p.tracked.isEmpty
  peek := peek
  tell := tell

end Guided

end SymbolicSearch
