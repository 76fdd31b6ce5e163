/-
Queues: the two plain orders of search. Breadth takes turns: a state that
has moved goes to the back. Depth stays with the newest state: one that
has moved keeps its place.
-/
import SymbolicSearch.Pool

namespace SymbolicSearch

/-- Which end of a queue is served. -/
inductive Order
  | breadth
  | depth
deriving DecidableEq

/-- States in the order in which they were put in. -/
structure Queue where
  order : Order
  states : List Handle
deriving DecidableEq

namespace Queue

def empty (order : Order) : Queue := ⟨order, []⟩

def size (q : Queue) : Nat := q.states.length

def holds (q : Queue) (id : StateNo) : Bool := q.states.any (·.id = id)

/-- The state to be served. -/
def head? (q : Queue) : Option Handle :=
  match q.order with
  | .breadth => q.states.head?
  | .depth => q.states.getLast?

/-- Puts a state at the back, unless its number is there already. -/
def push (q : Queue) (h : Handle) : Queue :=
  if q.holds h.id then q else { q with states := q.states ++ [h] }

/-- Takes the state with a number out. -/
def drop (q : Queue) (id : StateNo) : Queue :=
  { q with states := q.states.eraseP (·.id = id) }

/-- Takes up the new handle of a state that has moved. -/
def advance (q : Queue) (h : Handle) : Queue :=
  if q.holds h.id then
    match q.order with
    | .breadth => { q with states := q.states.eraseP (·.id = h.id) ++ [h] }
    | .depth => { q with states := q.states.map fun x => if x.id = h.id then h else x }
  else q

def hear (q : Queue) : Notice → Queue
  | .added hs => hs.foldl push q
  | .removed h => q.drop h.id
  | .moved h => q.advance h

instance : Pool Queue where
  isEmpty q := q.states.isEmpty
  peek _ q :=
    match q.head? with
    | some h => ⟨.ok h, q, none⟩
    | none => ⟨.error .emptyPool, q, none⟩
  tell n _ g q := ⟨.ok (), q.hear n, g⟩

end Queue

end SymbolicSearch
