/-
How tensors are exchanged. They are only read: a model's outputs are
handed over in memory.
-/
import SymbolicSearch.Json.Codec
import SymbolicSearch.Tensor

namespace SymbolicSearch.Exchange

open Json Binary

/-- The list that an array holds, item by item. -/
def items? {α : Type} (item? : Json → Option α) : Json → Option (List α)
  | .array items => items.mapM item?
  | _ => none

def single? : Json → Option Single
  | .number n => n.single?
  | _ => none

/-- The two fields of a tensor. -/
def tensorBody? {α : Type} (item? : Json → Option α) (j : Json) : Option (List Nat × List α) := do
  match ← slots? ["shape", "data"] false j with
  | [some shape, some data] => return (← (Codec.list .nat64).decode? shape, ← items? item? data)
  | _ => none

def tensor? (j : Json) : Option Tensor := do
  let (name, body) ← only? j
  if name = "F32" then
    let (shape, data) ← tensorBody? single? body
    return .floats shape data
  else if name = "I64" then
    let (shape, data) ← tensorBody? Codec.int64.decode? body
    return .ints shape data
  else none

end SymbolicSearch.Exchange
