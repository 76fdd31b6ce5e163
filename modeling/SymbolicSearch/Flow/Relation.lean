/-
How one block can lead to another. Three of the relations are reported
to advisers, each under a number of its own; the fourth, from a block
that raises to a block that catches, stays inside the search.
-/
namespace SymbolicSearch

/-- A way in which a block leads to another. -/
inductive Relation
  /-- Control goes on within the method. -/
  | next
  /-- A call enters the other block's method there. -/
  | call
  /-- A method that was called comes back there. -/
  | back
  /-- An exception raised in the block is caught there. -/
  | rescue
deriving DecidableEq

namespace Relation

/-- The number under which a relation is reported, if it is. -/
def token? : Relation → Option Int
  | .next => some 0
  | .call => some 1
  | .back => some 2
  | .rescue => none

/-- The reported relations with their numbers, in reporting order. -/
def reported : List (Relation × Int) := [(.next, 0), (.call, 1), (.back, 2)]

theorem mem_reported {r : Relation} {t : Int} : (r, t) ∈ reported ↔ r.token? = some t := by
  cases r <;> simp [reported, token?, eq_comm]

end Relation

end SymbolicSearch
