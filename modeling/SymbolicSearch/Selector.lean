/-
Selectors: the pools that can be set up, all as one type. A selector is a
queue, a guided pool, or a relay of selectors.

The operations of a relay of selectors go through its stages, which are
selectors again, so they are defined together with the stages' own. What
they come to is the relay's own rule (`Selector.peek_relay`,
`Selector.tell_relay`), and nothing else needs to be known of them.
-/
import SymbolicSearch.Guided
import SymbolicSearch.Queue
import SymbolicSearch.Relay

namespace SymbolicSearch

/-- A pool of any kind. -/
inductive Selector
  | queue (q : Queue)
  | guided (p : Guided)
  | relay (r : Relay Selector)

namespace Selector

instance : Inhabited Selector := ⟨.queue (.empty .breadth)⟩

mutual

def isEmpty : Selector → Bool
  | .queue q => Pool.isEmpty q
  | .guided p => Pool.isEmpty p
  | .relay ⟨stages, _, _, _⟩ => allEmpty stages

def allEmpty : List Selector → Bool
  | [] => true
  | s :: rest => s.isEmpty && allEmpty rest

end

mutual

def peek (g : FlowGraph) : Selector → Choice Selector
  | .queue q => (Pool.peek g q).map .queue
  | .guided p => (Pool.peek g p).map .guided
  | .relay ⟨stages, switchAt, peeks, active⟩ =>
    let r : Relay Selector := Relay.count ⟨stages, switchAt, peeks, active⟩
    (peekAt g r.active stages).map fun l => .relay (r.withStages l)

def peekAt (g : FlowGraph) : Nat → List Selector → Choice (List Selector)
  | _, [] => ⟨.error .emptyPool, [], none⟩
  | 0, s :: rest => (s.peek g).map (· :: rest)
  | k + 1, s :: rest => (peekAt g k rest).map (s :: ·)

end

mutual

def tell (n : Notice) (step : Nat) (g : FlowGraph) : Selector → Told Selector
  | .queue q => (Pool.tell n step g q).map .queue
  | .guided p => (Pool.tell n step g p).map .guided
  | .relay ⟨stages, switchAt, peeks, active⟩ =>
    (tellAll n step g stages).map fun l => .relay ⟨l, switchAt, peeks, active⟩

def tellAll (n : Notice) (step : Nat) (g : FlowGraph) : List Selector → Told (List Selector)
  | [] => ⟨.ok (), [], g⟩
  | s :: rest =>
    let t := s.tell n step g
    match t.result with
    | .error e => ⟨.error e, t.pool :: rest, t.graph⟩
    | .ok () => (tellAll n step t.graph rest).map (t.pool :: ·)

end

instance : Pool Selector where
  isEmpty := isEmpty
  peek := peek
  tell := tell

-- ============================================== the relay's own rule

theorem allEmpty_eq (l : List Selector) : allEmpty l = l.all isEmpty := by
  induction l with
  | nil => rfl
  | cons s rest ih => rw [allEmpty, ih, List.all_cons]

theorem peekAt_eq (g : FlowGraph) (k : Nat) (l : List Selector) :
    peekAt g k l = Relay.askStage (peek g) k l := by
  induction l generalizing k with
  | nil => cases k <;> rfl
  | cons s rest ih =>
    cases k with
    | zero => rfl
    | succ k => rw [peekAt, ih, Relay.askStage]

theorem tellAll_eq (n : Notice) (step : Nat) (g : FlowGraph) (l : List Selector) :
    tellAll n step g l = Relay.tellStages (tell n step) g l := by
  induction l generalizing g with
  | nil => rfl
  | cons s rest ih =>
    rw [tellAll, Relay.tellStages]
    cases (tell n step g s).result with
    | error e => simp only
    | ok => simp only [ih]

theorem isEmpty_relay (r : Relay Selector) : isEmpty (.relay r) = Pool.isEmpty r := by
  rw [isEmpty, allEmpty_eq]
  rfl

theorem peek_relay (g : FlowGraph) (r : Relay Selector) :
    peek g (.relay r) = (Pool.peek g r).map .relay := by
  rw [peek, peekAt_eq]
  rfl

theorem tell_relay (n : Notice) (step : Nat) (g : FlowGraph) (r : Relay Selector) :
    tell n step g (.relay r) = (Pool.tell n step g r).map .relay := by
  rw [tell, tellAll_eq]
  rfl

end Selector

end SymbolicSearch
