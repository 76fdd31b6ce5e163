/-
How plans are exchanged: the settings of a search as a JSON text, which
may leave out any setting, and the file that such a text may stand in.
-/
import SymbolicSearch.Json.Codec
import SymbolicSearch.Plan
import SymbolicSearch.Queue

namespace SymbolicSearch.Exchange

open Json

def order : Codec Order := .choice [(.breadth, "Bfs"), (.depth, "Dfs")]

def style : Codec Style := .choice [(.breadth, "bfs"), (.depth, "dfs"), (.guided, "guided")]

def provider : Codec Provider := .choice [(.cpu, "cpu"), (.gpu, "gpu")]

def policy : Codec Policy := .choice [(.auto, "auto"), (.alwaysFull, "always_full")]

def plan : Codec Plan :=
  ((Fields.cons (.orElse "strategies" (.list style) Plan.default.styles) <|
    .cons (.orElse "steps_to_switch" .nat64 Plan.default.switchAt) <|
    .cons (.orElse "inference_mode" provider Plan.default.provider) <|
    .cons (.orElse "snapshot" policy Plan.default.policy) .done).record true).via
    (fun p => (p.styles, p.switchAt, p.provider, p.policy, ()))
    (fun (s, n, m, k, ()) => ⟨s, n, m, k⟩)

/-- The plan that a text sets, checked. -/
def planOfText (text : List Char) : Except Fault Plan :=
  match (parse? text).bind plan.decode? with
  | none => .error (.misfit .malformed)
  | some p => do
    p.check
    return p

/-- The plan that a file sets, by the bytes of the file, if it is there. -/
def planOfFile (bytes : Option ByteArray) : Except Fault Plan :=
  match bytes.bind String.fromUTF8? with
  | none => .error (.misfit .unreadable)
  | some s => planOfText s.toList

end SymbolicSearch.Exchange
