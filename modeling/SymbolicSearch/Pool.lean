/-
Pools: what an interpreter asks of a search. A pool keeps the states that
are still to be moved; it is told when states are added, removed or have
moved, and is asked which state to move next.

Pools stand on a flow graph that they share with the interpreter. A pool
that places states moves them there when it is told of it; choosing only
reads the graph. Every operation says what became of the pool whether it
succeeded or not.
-/
import SymbolicSearch.Adviser

namespace SymbolicSearch

/-- What a pool is told. -/
inductive Notice
  /-- States forked off the one chosen last. -/
  | added (states : List Handle)
  | removed (state : Handle)
  /-- A state that has executed one statement more. -/
  | moved (state : Handle)
deriving DecidableEq

/-- What asking a pool came to: the state to move, the pool afterwards,
and the adviser's part in it, if it had one. -/
structure Choice (σ : Type) where
  result : Except Fault Handle
  pool : σ
  asked : Option Consultation

/-- What telling a pool came to. -/
structure Told (σ : Type) where
  result : Except Fault Unit
  pool : σ
  graph : FlowGraph

def Choice.map {σ τ : Type} (f : σ → τ) (c : Choice σ) : Choice τ := ⟨c.result, f c.pool, c.asked⟩

def Told.map {σ τ : Type} (f : σ → τ) (t : Told σ) : Told τ := ⟨t.result, f t.pool, t.graph⟩

/-- A type of pools. -/
class Pool (σ : Type) where
  /-- No state is kept. -/
  isEmpty : σ → Bool
  /-- Chooses the state to move next. -/
  peek : FlowGraph → σ → Choice σ
  /-- Takes up a notice at a step of the run. -/
  tell : Notice → Nat → FlowGraph → σ → Told σ

end SymbolicSearch
