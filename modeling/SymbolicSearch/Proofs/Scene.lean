/-
Runs of a pool. A scene is a pool on the graph that it shares with the
interpreter. An act asks the pool, tells it something, or changes the
graph behind its back; a run is a list of acts, each taken where the one
before it ended. What an act comes to is its outcome, and the outcomes of
a run, in order, are all that the interpreter and the adviser get to see
of it.

A run split anywhere is a run and a run from where that one ended
(`run_append`, `outcomes_append`); every fact about runs is proved along
that split, from the end.
-/
import SymbolicSearch.Pool
import SymbolicSearch.Proofs.Flow.Chronicle

namespace SymbolicSearch

/-- A pool on its graph. -/
structure Scene (σ : Type) where
  graph : FlowGraph
  pool : σ

/-- What can be done with a pool on its graph: it is asked for a state, it
is told something at a step, or its graph is changed. -/
inductive Act
  | peek
  | tell (n : Notice) (step : Nat)
  | graph (a : FlowGraph.Act)

/-- What an act comes to. -/
inductive Outcome
  | chosen (result : Except Fault Handle) (asked : Option Consultation)
  | told (n : Notice) (result : Except Fault Unit)
  | changed

/-- The question to the adviser that an act led to. -/
def Outcome.consultation? : Outcome → Option Consultation
  | .chosen _ asked => asked
  | _ => none

/-- What the pool was told by an act. -/
def Act.notice? : Act → Option Notice
  | .tell n _ => some n
  | _ => none

namespace Scene

variable {σ : Type} [Pool σ]

def peek (w : Scene σ) : Choice σ := Pool.peek w.graph w.pool

def tell (w : Scene σ) (n : Notice) (step : Nat) : Told σ := Pool.tell n step w.graph w.pool

/-- The scene after an act. -/
def act (w : Scene σ) : Act → Scene σ
  | .peek => ⟨w.graph, w.peek.pool⟩
  | .tell n step => ⟨(w.tell n step).graph, (w.tell n step).pool⟩
  | .graph a => ⟨w.graph.act a, w.pool⟩

def outcome (w : Scene σ) : Act → Outcome
  | .peek => .chosen w.peek.result w.peek.asked
  | .tell n step => .told n (w.tell n step).result
  | .graph _ => .changed

/-- The scene after a run. -/
def run (w : Scene σ) (as : List Act) : Scene σ := as.foldl act w

/-- What the acts of a run come to, in order. -/
def outcomes (w : Scene σ) : List Act → List Outcome
  | [] => []
  | a :: as => w.outcome a :: (w.act a).outcomes as

/-- The questions that the adviser is asked in a run, in order. -/
def consultations (w : Scene σ) (as : List Act) : List Consultation :=
  (w.outcomes as).filterMap Outcome.consultation?

@[simp] theorem run_nil (w : Scene σ) : w.run [] = w := rfl

@[simp] theorem run_cons (w : Scene σ) (a : Act) (as : List Act) :
    w.run (a :: as) = (w.act a).run as := rfl

theorem run_append (w : Scene σ) (as bs : List Act) : w.run (as ++ bs) = (w.run as).run bs :=
  List.foldl_append

theorem outcomes_append (w : Scene σ) (as bs : List Act) :
    w.outcomes (as ++ bs) = w.outcomes as ++ (w.run as).outcomes bs := by
  induction as generalizing w with
  | nil => rfl
  | cons a as ih => rw [List.cons_append, outcomes, ih, outcomes, run_cons, List.cons_append]

theorem consultations_append (w : Scene σ) (as bs : List Act) :
    w.consultations (as ++ bs) = w.consultations as ++ (w.run as).consultations bs := by
  rw [consultations, outcomes_append, List.filterMap_append]
  rfl

theorem consultations_cons (w : Scene σ) (a : Act) (as : List Act) :
    w.consultations (a :: as) =
      (w.outcome a).consultation?.toList ++ (w.act a).consultations as := by
  rw [consultations, outcomes, List.filterMap_cons]
  cases (w.outcome a).consultation? <;> rfl

/-- The questions of a run are those asked after some part of it. -/
theorem mem_consultations {w : Scene σ} {as : List Act} {c : Consultation} :
    c ∈ w.consultations as ↔
      ∃ before, before ++ [.peek] <+: as ∧ (w.run before).peek.asked = some c := by
  have hact : ∀ (v : Scene σ) (a : Act), c ∈ (v.outcome a).consultation?.toList ↔
      a = .peek ∧ v.peek.asked = some c := by
    intro v a
    cases a <;> simp [outcome, Outcome.consultation?, eq_comm]
  induction as using List.reverseRecOn with
  | nil => simp [consultations, outcomes]
  | append_singleton as a ih =>
      have hlast : c ∈ (w.run as).consultations [a] ↔
          a = .peek ∧ (w.run as).peek.asked = some c := by
        rw [consultations_cons, List.mem_append, hact]
        exact or_iff_left List.not_mem_nil
      rw [consultations_append, List.mem_append, hlast]
      refine (or_congr_left ih).trans ?_
      constructor
      · rintro (⟨before, hprefix, hc⟩ | ⟨rfl, hc⟩)
        · exact ⟨before, hprefix.trans (List.prefix_append _ _), hc⟩
        · exact ⟨as, List.prefix_refl _, hc⟩
      · rintro ⟨before, hprefix, hc⟩
        rcases List.prefix_concat_iff.1 hprefix with heq | hprefix
        · obtain ⟨rfl, ha⟩ := List.append_inj' heq rfl
          exact Or.inr ⟨(List.singleton_inj.1 ha).symm, hc⟩
        · exact Or.inl ⟨before, hprefix, hc⟩

/-- A run in which the adviser is asked has a last question. -/
theorem last_question (w : Scene σ) (as : List Act) :
    w.consultations as = [] ∨
      ∃ before between c, as = before ++ [.peek] ++ between ∧
        (w.run before).peek.asked = some c ∧
          (w.run (before ++ [.peek])).consultations between = [] := by
  induction as using List.reverseRecOn with
  | nil => exact Or.inl rfl
  | append_singleton as a ih =>
      cases hasked : ((w.run as).outcome a).consultation? with
      | some c =>
          cases a with
          | peek => exact Or.inr ⟨as, [], c, (List.append_nil _).symm, hasked, rfl⟩
          | tell n step => cases hasked
          | graph a => cases hasked
      | none =>
          have hquiet : (w.run as).consultations [a] = [] := by
            rw [consultations_cons, hasked]
            rfl
          refine ih.imp (fun h => ?_) fun h => ?_
          · rw [consultations_append, h, hquiet, List.append_nil]
          · obtain ⟨before, between, c, rfl, hc, hnone⟩ := h
            refine ⟨before, between ++ [a], c, List.append_assoc _ _ _, hc, ?_⟩
            rw [consultations_append, hnone, ← run_append, hquiet, List.append_nil]

/-- A property of scenes that acts of a kind keep holds after every run of
such acts. -/
theorem run_induction_of {P : Scene σ → Prop} {q : Act → Prop}
    (hact : ∀ w a, q a → P w → P (w.act a)) {w : Scene σ} (hw : P w) {as : List Act}
    (has : ∀ a ∈ as, q a) : P (w.run as) := by
  induction as generalizing w with
  | nil => exact hw
  | cons a as ih =>
      rw [List.forall_mem_cons] at has
      exact ih (hact w a has.1 hw) has.2

/-- A property of scenes that every act keeps holds after every run. -/
theorem run_induction {P : Scene σ → Prop} (hact : ∀ w a, P w → P (w.act a)) {w : Scene σ}
    (hw : P w) (as : List Act) : P (w.run as) :=
  run_induction_of (q := fun _ => True) (fun w a _ => hact w a) hw fun _ _ => trivial

end Scene

-- ================================================================== samples

/-- A routine with a loop. -/
def looping (m : MethodNo) : Routine where
  method := m
  name := "looping"
  code := [⟨.plain, [1], []⟩, ⟨.branch, [0, 2], []⟩, ⟨.leave, [], []⟩]

/-- A state that has not moved yet. -/
def unmoved (id : StateNo) : Handle := ⟨id, none, 0, false, true, ""⟩

/-- A state that has just executed an instruction. -/
def standing (id : StateNo) (m : MethodNo) (i : Nat) : Handle :=
  ⟨id, some (.instr ⟨m, i⟩), 0, false, true, ""⟩

end SymbolicSearch
