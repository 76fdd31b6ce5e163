/-
How programs are exchanged: sites, statements, routines and blocks as
JSON values.
-/
import SymbolicSearch.Flow.Block
import SymbolicSearch.Json.Codec

namespace SymbolicSearch.Exchange

open Json

def site : Codec Site :=
  (Fields.cons (.required "method" .nat32) <|
    .cons (.required "index" .nat64) .done).whole.via
    (fun s => (s.method, s.index, ()))
    (fun (m, i, ()) => ⟨m, i⟩)

/-- The one field of a statement that stands for an instruction. -/
def standIn (name : String) : Codec Site :=
  (Fields.cons (.required name site) .done).whole.via (fun s => (s, ())) (fun (s, ()) => s)

def stmt : Codec Stmt where
  encode
    | .instr s => .obj [("Inst", site.encode s)]
    | .methodEntry s => .obj [("MethodEntry", (standIn "entry").encode s)]
    | .concreteCall s => .obj [("ConcreteCall", (standIn "call").encode s)]
  decode? j := do
    let (name, body) ← only? j
    if name = "Inst" then return .instr (← site.decode? body)
    else if name = "MethodEntry" then return .methodEntry (← (standIn "entry").decode? body)
    else if name = "ConcreteCall" then return .concreteCall (← (standIn "call").decode? body)
    else none

def instrKind : Codec InstrKind :=
  .choice [(.plain, "Plain"), (.branch, "Branch"), (.call, "Call"), (.throw, "Throw"),
    (.leave, "Return")]

def instr : Codec Instr :=
  (Fields.cons (.required "kind" instrKind) <|
    .cons (.required "successors" (.list .nat64)) <|
    .cons (.required "catchers" (.list .nat64)) .done).whole.via
    (fun i => (i.kind, i.targets, i.handlers, ()))
    (fun (k, t, h, ()) => ⟨k, t, h⟩)

def routine : Codec Routine :=
  (Fields.cons (.required "method" .nat32) <|
    .cons (.required "name" .string) <|
    .cons (.required "instructions" (.list instr)) .done).whole.via
    (fun r => (r.method, r.name, r.code, ()))
    (fun (m, n, c, ()) => ⟨m, n, c⟩)

def block : Codec Block :=
  (Fields.cons (.required "id" .nat64) <|
    .cons (.required "method" .nat32) <|
    .cons (.required "start" .nat64) <|
    .cons (.required "end" .nat64) <|
    .cons (.required "in_coverage_zone" .bool) <|
    .cons (.required "covered_by_test" .bool) <|
    .cons (.required "visited_by_state" .bool) <|
    .cons (.required "touched_by_state" .bool) <|
    .cons (.required "contains_call" .bool) <|
    .cons (.required "contains_throw" .bool) <|
    .cons (.required "states" (.idSet .nat32)) .done).whole.via
    (fun b => (b.id, b.method, b.first, b.last, b.inZone, b.covered, b.visited, b.touched,
      b.hasCall, b.hasThrow, b.occupants, ()))
    (fun (id, method, first, last, inZone, covered, visited, touched, hasCall, hasThrow,
      occupants, ()) =>
      ⟨id, method, first, last, inZone, covered, visited, touched, hasCall, hasThrow, occupants⟩)

end SymbolicSearch.Exchange
