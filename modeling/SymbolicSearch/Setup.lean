/-
Setting up a search: the selector that a plan describes. One style gives
the selector of that style, several give a relay of theirs. The adviser
goes to the guided stage; without one it is not used.
-/
import SymbolicSearch.Selector

namespace SymbolicSearch.Plan

/-- An adviser that runs a model where the plan says. -/
def modelAdviser (p : Plan) (run : List NamedTensors → Except String NamedTensors) : Adviser :=
  .model ⟨run, p.provider, []⟩

/-- The selectors of styles in turn. The first guided one takes the
adviser. -/
def stages (policy : Policy) : List Style → Option Adviser → Except Fault (List Selector)
  | [], _ => .ok []
  | .breadth :: rest, a => (stages policy rest a).map (.queue (.empty .breadth) :: ·)
  | .depth :: rest, a => (stages policy rest a).map (.queue (.empty .depth) :: ·)
  | .guided :: _, none => .error (.misfit .noAdviser)
  | .guided :: rest, some a => (stages policy rest none).map (.guided (.new a policy) :: ·)

/-- The selector of some stages: the stage itself if there is just one, or
a relay of them. -/
def assemble (switchAt : Nat) (stages : List Selector) : Except Fault Selector :=
  if stages.length = 1 then
    match stages.getLast? with
    | some s => .ok s
    | none => .error (.misfit .noStage)
  else (Relay.new? stages switchAt).map .relay

/-- The selector of a plan. -/
def build (p : Plan) (adviser : Option Adviser) : Except Fault Selector := do
  p.check
  assemble p.switchAt (← stages p.policy p.styles adviser)

end SymbolicSearch.Plan
