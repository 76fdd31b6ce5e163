/-
Plans: what the user of a search can set. A plan names the styles of
search to run one after the other, and when to go on to the next; it says
where a model is to run and which snapshots an adviser is shown.
-/
import SymbolicSearch.Fault
import SymbolicSearch.Text.Decimal

namespace SymbolicSearch

/-- A style of search. -/
inductive Style
  | breadth
  | depth
  /-- An adviser chooses. -/
  | guided
deriving DecidableEq

/-- Where a model runs. -/
inductive Provider
  | cpu
  | gpu
deriving DecidableEq

/-- Which snapshots an adviser is shown. -/
inductive Policy
  /-- Full ones, but deltas to an adviser that can lay them over what it
  knows, once it has answered. -/
  | auto
  | alwaysFull
deriving DecidableEq

/-- The settings of a search. -/
structure Plan where
  styles : List Style
  /-- The request at which the second style takes over. -/
  switchAt : Nat
  provider : Provider
  policy : Policy
deriving DecidableEq

def Style.name : Style → String
  | .breadth => "bfs"
  | .depth => "dfs"
  | .guided => "guided"

def Provider.name : Provider → String
  | .cpu => "CPU"
  | .gpu => "GPU"

namespace Plan

/-- The plan of a search that nobody has set. -/
def default : Plan := ⟨[.guided], 1000, .cpu, .auto⟩

def needsAdviser (p : Plan) : Bool := p.styles.contains .guided

/-- Checks that the plan can be carried out: it has a style, at most one
style needs the adviser, and several styles need a step to switch at. -/
def check (p : Plan) : Except Fault Unit :=
  if p.styles.isEmpty then .error (.misfit .noStyle)
  else if 1 < p.styles.count .guided then .error (.misfit .guidedTwice)
  else if 1 < p.styles.length ∧ p.switchAt = 0 then .error (.misfit .zeroSwitch)
  else .ok ()

/-- The name of the environment's setting for `switchAt`. -/
def switchSetting : String := "GUIDED_SEARCH_STEPS_TO_SWITCH"

/-- The plan under the environment's setting, if there is one, checked
in either case. -/
def override (p : Plan) (raw : Option String) : Except Fault Plan := do
  let p ←
    match raw with
    | none => pure p
    | some s =>
      match Text.count? UInt64.size s.toList with
      | some n => pure { p with switchAt := n }
      | none => throw (.misfit (.overrideNotNumber switchSetting s))
  p.check
  return p

end Plan

end SymbolicSearch
