/-
Tensors: numbers in row-major order under a shape. Nothing ties the
number of values to the shape, since tensors come from outside; whoever
reads one checks.
-/
import SymbolicSearch.Binary.Single

namespace SymbolicSearch

open Binary

/-- A tensor of single-precision numbers or of signed integers. -/
inductive Tensor
  | floats (shape : List Nat) (values : List Single)
  | ints (shape : List Nat) (values : List Int)
deriving DecidableEq

namespace Tensor

def shape : Tensor → List Nat
  | .floats s _ => s
  | .ints s _ => s

/-- The number of values. -/
def size : Tensor → Nat
  | .floats _ l => l.length
  | .ints _ l => l.length

/-- Rows of floats, each of the given width. -/
def ofRows (width : Nat) (rows : List (List Single)) : Tensor :=
  .floats [rows.length, width] rows.flatten

/-- Pairs of integers as two rows, first components above second ones. -/
def ofPairs (pairs : List (Int × Int)) : Tensor :=
  .ints [2, pairs.length] (pairs.map Prod.fst ++ pairs.map Prod.snd)

end Tensor

end SymbolicSearch
