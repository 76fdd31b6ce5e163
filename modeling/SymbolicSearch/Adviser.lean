/-
Advisers: whoever chooses the next state from a snapshot. A model scores
the states of a ranking; an oracle answers a report, either at once or at
the end of a dialogue. Only an oracle remembers reports, so only an
oracle can do with deltas.

An adviser may answer the same question differently the second time. A
model and an oracle that answers at once are therefore functions of all
they have been told so far, the latest first: every adviser whose answers
depend on nothing else is one of these.
-/
import SymbolicSearch.Adviser.Dialogue
import SymbolicSearch.Plan
import SymbolicSearch.Ranking

namespace SymbolicSearch

/-- Tensors under their names. -/
abbrev NamedTensors := List (String × Tensor)

/-- A model and all it has been told, the latest first. -/
structure Model where
  run : List NamedTensors → Except String NamedTensors
  provider : Provider
  told : List NamedTensors

/-- An oracle that answers at once, with all it has been told, or one at
the end of a dialogue. -/
inductive Oracle
  | live (reply : List Report → Except String StateNo) (told : List Report)
  | remote (d : Dialogue)

/-- Whoever chooses the next state. -/
inductive Adviser
  | model (m : Model)
  | oracle (o : Oracle)

/-- What an adviser was shown. -/
inductive Shown
  | inputs (l : NamedTensors)
  | report (r : Report)
  /-- The line that went out. -/
  | line (text : String)

/-- One question to an adviser: the snapshot, what the adviser saw of it,
if anything, and its answer. -/
structure Consultation where
  snapshot : Snapshot
  shown : Option Shown
  answer : Except Fault StateNo

namespace Adviser

/-- The name of the model output that holds the scores. -/
def scoresName : String := "out"

/-- The choice that a model's run comes to. -/
def choiceOf (ids : List StateNo) : Except String NamedTensors → Except Fault StateNo
  | .error reason => .error (.adviserFailed reason)
  | .ok outputs =>
    match outputs.lookup scoresName with
    | none => .error (.breach (.noOutput scoresName))
    | some scores => Ranking.choose ids scores

def askModel (m : Model) (s : Snapshot) : Consultation × Model :=
  let ranking := Ranking.ofSnapshot s
  let told := ranking.inputs :: m.told
  (⟨s, some (.inputs ranking.inputs), choiceOf ranking.ids (m.run told)⟩, { m with told := told })

def askOracle (o : Oracle) (s : Snapshot) : Consultation × Oracle :=
  let report := Report.ofSnapshot s
  match o with
  | .live reply told =>
    let told := report :: told
    (⟨s, some (.report report), (reply told).mapError .adviserFailed⟩, .live reply told)
  | .remote d =>
    let turn := d.ask report
    (⟨s, turn.sent.map .line, turn.answer.mapError fun e => .adviserFailed e.message⟩,
      .remote turn.dialogue)

/-- Asks an adviser to choose from a snapshot. -/
def consult (a : Adviser) (s : Snapshot) : Consultation × Adviser :=
  match a with
  | .model m => let (c, m) := askModel m s; (c, .model m)
  | .oracle o => let (c, o) := askOracle o s; (c, .oracle o)

/-- It remembers what it was told, so a delta is enough. -/
def remembers : Adviser → Bool
  | .model _ => false
  | .oracle _ => true

def kind : Adviser → String
  | .model _ => "model"
  | .oracle _ => "oracle"

/-- The adviser in a word, for a person to read. -/
def describe : Adviser → String
  | .model m =>
    match m.provider with
    | .cpu => "Model(Cpu)"
    | .gpu => "Model(Gpu)"
  | .oracle _ => "Oracle"

end Adviser

end SymbolicSearch
