/-
What can go wrong in a search. Every fault is a cause with its data; the
wording is in `Fault.message` alone. A notice about a state that is not
tracked is no fault: it is passed over.
-/
import SymbolicSearch.Handle
import SymbolicSearch.Text.Quoted

namespace SymbolicSearch

/-- How an adviser can break its word. -/
inductive Breach
  /-- It chose a state that is not tracked. -/
  | untracked (state : StateNo)
  /-- The scores are not floating-point numbers. -/
  | scoresNotFloat
  /-- The scores are not one row for each state. -/
  | rowCount (rows states : Nat)
  /-- The scores do not fill their shape. -/
  | valueCount (values : Nat) (shape : List Nat) (needed : Nat)
  /-- No row of scores sums to a number. -/
  | noScores
  /-- The output that should hold the scores is missing. -/
  | noOutput (name : String)
deriving DecidableEq

/-- How a search can be set up wrongly. -/
inductive Misfit
  | unreadable
  | malformed
  | noStyle
  | guidedTwice
  | zeroSwitch
  /-- The override of a setting is not a number. -/
  | overrideNotNumber (setting raw : String)
  | noAdviser
  | noStage
  | tooFewStages (given : Nat)
deriving DecidableEq

/-- A fault that ends an operation. -/
inductive Fault
  /-- No registered block holds the instruction. -/
  | unplaced (site : Site)
  /-- The loader does not know the method. -/
  | unknownMethod (method : MethodNo)
  /-- The loader failed on the method. -/
  | loadFailed (method : MethodNo) (reason : String)
  | breach (cause : Breach)
  | misfit (cause : Misfit)
  /-- There is no state to choose from. -/
  | emptyPool
  /-- The adviser could not be asked, or could not answer. -/
  | adviserFailed (reason : String)
deriving DecidableEq

/-- A list of numbers, comma and blank between, in square brackets. -/
def bracketed (l : List Nat) : String :=
  "[" ++ ", ".intercalate (l.map toString) ++ "]"

def Breach.message : Breach → String
  | .untracked s => "predictor chose state " ++ toString s ++ ", which is not tracked"
  | .scoresNotFloat => "model output is not a float tensor"
  | .rowCount rows states =>
    "model scored " ++ toString rows ++ " states, snapshot has " ++ toString states
  | .valueCount values shape needed =>
    "model output holds " ++ toString values ++ " values, shape " ++ bracketed shape ++
      " needs " ++ toString needed
  | .noScores => "model scored no states"
  | .noOutput name => "model produced no \x60" ++ name ++ "\x60 tensor"

def Misfit.message : Misfit → String
  | .unreadable => "cannot read"
  | .malformed => "invalid search options"
  | .noStyle => "at least one strategy is required"
  | .guidedTwice => "only one guided strategy can share a predictor"
  | .zeroSwitch => "steps_to_switch must be positive"
  | .overrideNotNumber setting raw =>
    setting ++ " must be a non-negative integer, got " ++ Text.quoted raw
  | .noAdviser => "guided strategy requires a predictor"
  | .noStage => "no strategy configured"
  | .tooFewStages given =>
    "sequential selector needs at least 2 children, got " ++ toString given

def Fault.message : Fault → String
  | .unplaced site => "instruction " ++ site.name ++ " does not belong to any block"
  | .unknownMethod m => "no control-flow graph available for method " ++ methodName m
  | .loadFailed m _ => "failed to load control-flow graph for method " ++ methodName m
  | .breach cause => "invariant violation: " ++ cause.message
  | .misfit cause => "configuration error: " ++ cause.message
  | .emptyPool => "peek called on an empty state pool"
  | .adviserFailed _ => "predictor failed"

/-- The reason that someone outside the search gave for a fault. -/
def Fault.reason? : Fault → Option String
  | .loadFailed _ reason => some reason
  | .adviserFailed reason => some reason
  | _ => none

end SymbolicSearch
