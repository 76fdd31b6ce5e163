/-
How the game is exchanged with an oracle: reports as they are sent, the
answers that come back, and the small values that both are made of.
-/
import SymbolicSearch.Json.Codec
import SymbolicSearch.Report

namespace SymbolicSearch.Exchange

open Json

def relation : Codec Relation :=
  .choice [(.next, "Successor"), (.call, "Call"), (.back, "Return"), (.rescue, "Catch")]

def extent : Codec Extent := .choice [(.full, "Full"), (.delta, "Delta")]

/-- A visit under the given names of its fields. -/
def visitAs (block count step : String) : Codec Visit :=
  (Fields.cons (.required block .nat64) <|
    .cons (.required count .nat32) <|
    .cons (.required step .nat64) .done).whole.via
    (fun v => (v.block, v.count, v.step, ()))
    (fun (b, c, s, ()) => ⟨b, c, s⟩)

/-- A visit on its own. -/
def visit : Codec Visit := visitAs "block" "visits" "step_when_visited_last_time"

/-- A visit in a report. -/
def reportedVisit : Codec Visit :=
  visitAs "graphVertexId" "numOfVisits" "stepWhenVisitedLastTime"

def vertex : Codec Report.Vertex :=
  (Fields.cons (.required "id" .nat64) <|
    .cons (.required "inCoverageZone" .bool) <|
    .cons (.required "basicBlockSize" .nat32) <|
    .cons (.required "coveredByTest" .bool) <|
    .cons (.required "visitedByState" .bool) <|
    .cons (.required "touchedByState" .bool) <|
    .cons (.required "containsCall" .bool) <|
    .cons (.required "containsThrow" .bool) <|
    .cons (.required "states" (.list .nat32)) .done).whole.via
    (fun v => (v.id, v.inZone, v.size, v.covered, v.visited, v.touched, v.hasCall, v.hasThrow,
      v.states, ()))
    (fun (id, inZone, size, covered, visited, touched, hasCall, hasThrow, states, ()) =>
      ⟨id, inZone, size, covered, visited, touched, hasCall, hasThrow, states⟩)

def state : Codec Report.State :=
  (Fields.cons (.required "id" .nat32) <|
    .cons (.optional "position" .nat64) <|
    .cons (.required "pathConditionSize" .nat32) <|
    .cons (.required "visitedAgainVertices" .nat32) <|
    .cons (.required "visitedNotCoveredVerticesInZone" .nat32) <|
    .cons (.required "visitedNotCoveredVerticesOutOfZone" .nat32) <|
    .cons (.required "stepWhenMovedLastTime" .nat64) <|
    .cons (.required "instructionsVisitedInCurrentBlock" .nat32) <|
    .cons (.required "history" (.list reportedVisit)) <|
    .cons (.required "children" (.list .nat32)) .done).whole.via
    (fun s => (s.id, s.position, s.conditions, s.again, s.openInZone, s.openOutside, s.moved,
      s.dwell, s.history, s.children, ()))
    (fun (id, position, conditions, again, openInZone, openOutside, moved, dwell, history,
      children, ()) =>
      ⟨id, position, conditions, again, openInZone, openOutside, moved, dwell, history, children⟩)

/-- The number of a relation, in a record of its own. -/
def label : Codec Int :=
  (Fields.cons (.required "token" .int64) .done).whole.via (fun t => (t, ())) (fun (t, ()) => t)

def arrow : Codec Report.Arrow :=
  (Fields.cons (.required "vertexFrom" .nat64) <|
    .cons (.required "vertexTo" .nat64) <|
    .cons (.required "label" label) .done).whole.via
    (fun a => (a.source, a.target, a.token, ()))
    (fun (s, t, k, ()) => ⟨s, t, k⟩)

def report : Codec Report :=
  (Fields.cons (.required "graphVertices" (.list vertex)) <|
    .cons (.required "states" (.list state)) <|
    .cons (.required "map" (.list arrow)) .done).whole.via
    (fun r => (r.vertices, r.states, r.arrows, ()))
    (fun (v, s, a, ()) => ⟨v, s, a⟩)

-- ============================================== messages

/-- A message of one type, as both sides send them. -/
def message {α : Type} (name : String) (c : Codec α) : Codec α :=
  .message "messageType" "messageBody" name c

/-- What is sent to an oracle when it is to choose. -/
def request : Codec Report := message "ReadyForNextStep" report

/-- What an oracle sends back: the state to move. -/
def answer : Codec StateNo :=
  message "Step" <|
    (Fields.cons (.required "stateId" .nat32) .done).whole.via (fun s => (s, ())) (fun (s, ()) => s)

end SymbolicSearch.Exchange
