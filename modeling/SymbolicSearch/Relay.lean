/-
Relays: several pools of which one is asked. Every stage of a relay is
told everything, so that whichever is asked knows all there is to know.
The first stage is asked until a set number of requests has come; from
that request on it is the second. There is one change and no more, and
further stages are told but never asked.
-/
import SymbolicSearch.Pool

namespace SymbolicSearch

/-- Pools in the order in which they take over. -/
structure Relay (σ : Type) where
  stages : List σ
  /-- The request that is the first for the next stage. -/
  switchAt : Nat
  /-- The number of requests so far. -/
  peeks : Nat
  /-- The stage asked last. -/
  active : Nat

namespace Relay

variable {σ : Type}

/-- A relay before its first request. It takes two stages and a request
to switch at. -/
def new? (stages : List σ) (switchAt : Nat) : Except Fault (Relay σ) :=
  if stages.length < 2 then .error (.misfit (.tooFewStages stages.length))
  else if switchAt = 0 then .error (.misfit .zeroSwitch)
  else .ok ⟨stages, switchAt, 0, 0⟩

/-- The relay with one request more. -/
def count (r : Relay σ) : Relay σ :=
  { r with
    peeks := r.peeks + 1
    active :=
      if r.peeks + 1 = r.switchAt then (r.active + 1) % r.stages.length else r.active }

/-- Asks the stage at a place. -/
def askStage (ask : σ → Choice σ) : Nat → List σ → Choice (List σ)
  | _, [] => ⟨.error .emptyPool, [], none⟩
  | 0, s :: rest => (ask s).map (· :: rest)
  | k + 1, s :: rest => (askStage ask k rest).map (s :: ·)

/-- Tells every stage in turn; a stage that fails is the last to be told. -/
def tellStages (tell : FlowGraph → σ → Told σ) : FlowGraph → List σ → Told (List σ)
  | g, [] => ⟨.ok (), [], g⟩
  | g, s :: rest =>
    let t := tell g s
    match t.result with
    | .error e => ⟨.error e, t.pool :: rest, t.graph⟩
    | .ok () => (tellStages tell t.graph rest).map (t.pool :: ·)

/-- The relay with its stages replaced. -/
def withStages (r : Relay σ) (stages : List σ) : Relay σ := { r with stages := stages }

instance [Pool σ] : Pool (Relay σ) where
  isEmpty r := r.stages.all Pool.isEmpty
  peek g r := (askStage (Pool.peek g) r.count.active r.stages).map r.count.withStages
  tell n step g r := (tellStages (Pool.tell n step) g r.stages).map r.withStages

/-- The state of a relay, for a person to read. -/
def describe (r : Relay σ) : String :=
  "SequentialPathSelector \x7b children: " ++ toString r.stages.length ++
    ", steps_to_switch: " ++ toString r.switchAt ++ ", peeks: " ++ toString r.peeks ++
    ", active: " ++ toString r.active ++ " \x7d"

end Relay

end SymbolicSearch
